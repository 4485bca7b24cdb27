import OpenRpc.HashtableMap
import OpenRpc.Lib.Buckets
import OpenRpc.Lib.Transition

/-! # The hash table in memory

`hashtable.c` with its entries in memory, linked by their `next` pointers, and with allocations that may
fail. Nothing (`none`) is a run that is undefined: an entry is used that is not allocated, or a slot
outside of the table, or memory that was not written. Every operation does on memory what it does on the
buckets as lists.
-/

namespace OpenRpc

open LinkedList

variable {K V : Type}

/-- `struct entry` with its `next`. -/
structure EntryCell (K V : Type) extends Entry K V where
  next : Option Nat

/-- `struct hashtable` with the memory its entries are in; entries are named by their address. As with
    lists, `limitOf` is no field of the source. -/
structure HashHeap (K V : Type) where
  limitOf : Nat → Nat
  cells : Nat → Option (EntryCell K V)
  /-- The next address that `malloc` returns. -/
  brk : Nat
  tablelength : Nat
  table : List (Option Nat)
  entrycount : Nat
  loadlimit : Nat
  primeindex : Nat
  hashfn : K → UInt32
  eqfn : K → K → Bool
  /-- What was freed with the entries. -/
  freedKeys : List K
  freedValues : List V

/-- A `struct entry **`: a slot of the table, or the `next` of an entry. -/
inductive EntrySlot where
  | slot (i : Nat)
  | next (a : Nat)
  deriving Repr, DecidableEq

namespace HashHeap

/-- `create_hashtable`, where the allocations of the struct and of the table succeed or not. -/
def createHashtable (struct table : Bool) (limitOf : Nat → Nat) (minsize : Nat) (hashf : K → UInt32)
    (eqf : K → K → Bool) : Option (HashHeap K V) :=
  if 2 ^ 30 < minsize then none
  else if !struct then none
  else if !table then none
  else
    let pindex := primeFor minsize
    let size := primes.getD pindex 53
    some
      { limitOf := limitOf
        cells := fun _ => none
        brk := 0
        tablelength := size
        table := List.replicate size none
        entrycount := 0
        loadlimit := limitOf size
        primeindex := pindex
        hashfn := hashf
        eqfn := eqf
        freedKeys := []
        freedValues := [] }

def hash (m : HashHeap K V) (k : K) : UInt32 := hashWith m.hashfn k

/-- `e->next = p`. -/
def setNext (m : HashHeap K V) (e : Nat) (p : Option Nat) : Option (HashHeap K V) :=
  (m.cells e).map fun c => { m with cells := Function.update m.cells e (some { c with next := p }) }

/-- `freekey(e->k); free(e)`. -/
def freeEntry (m : HashHeap K V) (e : Nat) : Option (HashHeap K V) :=
  (m.cells e).map fun c =>
    { m with cells := Function.update m.cells e none, freedKeys := m.freedKeys ++ [c.k] }

/-- `*pE = p`. -/
def store (m : HashHeap K V) (pE : EntrySlot) (p : Option Nat) : Option (HashHeap K V) :=
  match pE with
  | .slot i => if i < m.table.length then some { m with table := m.table.set i p } else none
  | .next a => m.setNext a p

def countEntry (m : HashHeap K V) : HashHeap K V :=
  { m with entrycount := (m.entrycount + 1) % 2 ^ 32 }

def uncountEntry (m : HashHeap K V) : HashHeap K V :=
  { m with entrycount := if m.entrycount = 0 then 2 ^ 32 - 1 else m.entrycount - 1 }

/-- `while (NULL != (e = h->table[i]))`, into the new table. -/
def expandBucket (newsize i : Nat) :
    Nat → HashHeap K V → List (Option Nat) → Option (HashHeap K V × List (Option Nat))
  | 0, _, _ => none
  | fuel + 1, m, newtable =>
      match m.table[i]? with
      | none => none
      | some none => some (m, newtable)
      | some (some e) => do
          let c ← m.cells e
          let m := { m with table := m.table.set i c.next }
          let index := indexFor newsize c.h
          let front ← newtable[index]?
          let m ← m.setNext e front
          expandBucket newsize i fuel m (newtable.set index (some e))

/-- The loop over the buckets `i`, `i + 1`, … -/
def expandBuckets (newsize : Nat) :
    List Nat → HashHeap K V → List (Option Nat) → Option (HashHeap K V × List (Option Nat))
  | [], m, newtable => some (m, newtable)
  | i :: rest, m, newtable => do
      let (m, newtable) ← expandBucket newsize i (m.brk + 1) m newtable
      expandBuckets newsize rest m newtable

def hashtableExpand (allocs : Allocs) (m : HashHeap K V) : Option (HashHeap K V) :=
  if m.primeindex = primeTableLength - 1 then some m
  else
    let newsize := primes.getD (m.primeindex + 1) 53
    if allocs.newtable then do
      let (m, newtable) ← expandBuckets newsize (List.range m.tablelength) m (List.replicate newsize none)
      some { m with
        primeindex := m.primeindex + 1
        table := newtable
        tablelength := newsize
        loadlimit := m.limitOf newsize }
    -- The memset behind the realloc takes its address from a slot that nothing has been written to.
    else if allocs.realloc then none
    else some m

def hashtableCount (m : HashHeap K V) : Nat := m.entrycount

def hashtableInsert (allocs : Allocs) (m : HashHeap K V) (k : K) (v : V) :
    Option (Bool × HashHeap K V) := do
  let m := m.countEntry
  let m ← if m.loadlimit < m.entrycount then m.hashtableExpand allocs else some m
  if allocs.entry then
    let hashvalue := m.hash k
    let index := indexFor m.tablelength hashvalue
    let front ← m.table[index]?
    some (true,
      { m with
        cells := Function.update m.cells m.brk (some ⟨⟨k, v, hashvalue⟩, front⟩)
        brk := m.brk + 1
        table := m.table.set index (some m.brk) })
  else some (false, m.uncountEntry)

/-- The loop of `hashtable_search`. -/
def searchFrom (m : HashHeap K V) (hashvalue : UInt32) (k : K) : Nat → Option Nat → Option (Option V)
  | 0, _ => none
  | _ + 1, none => some none
  | fuel + 1, some e => do
      let c ← m.cells e
      if hashvalue == c.h && m.eqfn k c.k then some (some c.v)
      else m.searchFrom hashvalue k fuel c.next

def hashtableSearch (m : HashHeap K V) (k : K) : Option (Option V) := do
  let hashvalue := m.hash k
  let e ← m.table[indexFor m.tablelength hashvalue]?
  m.searchFrom hashvalue k (m.brk + 1) e

/-- The loop of `hashtable_remove`. -/
def removeFrom (m : HashHeap K V) (hashvalue : UInt32) (k : K) :
    Nat → EntrySlot → Option Nat → Option (Option V × HashHeap K V)
  | 0, _, _ => none
  | _ + 1, _, none => some (none, m)
  | fuel + 1, pE, some e => do
      let c ← m.cells e
      if hashvalue == c.h && m.eqfn k c.k then
        let m ← m.store pE c.next
        let m ← m.uncountEntry.freeEntry e
        some (some c.v, m)
      else m.removeFrom hashvalue k fuel (.next e) c.next

def hashtableRemove (m : HashHeap K V) (k : K) : Option (Option V × HashHeap K V) := do
  let hashvalue := m.hash k
  let index := indexFor m.tablelength hashvalue
  let e ← m.table[index]?
  m.removeFrom hashvalue k (m.brk + 1) (.slot index) e

/-- `while (NULL != e)` of `hashtable_destroy`. -/
def destroyFrom (freeValues : Bool) : Nat → Option Nat → HashHeap K V → Option (HashHeap K V)
  | 0, _, _ => none
  | _ + 1, none, m => some m
  | fuel + 1, some f, m => do
      let c ← m.cells f
      let m := if freeValues then { m with freedValues := m.freedValues ++ [c.v] } else m
      let m ← m.freeEntry f
      destroyFrom freeValues fuel c.next m

def destroyBuckets (freeValues : Bool) : List Nat → HashHeap K V → Option (HashHeap K V)
  | [], m => some m
  | i :: rest, m => do
      let e ← m.table[i]?
      let m ← destroyFrom freeValues (m.brk + 1) e m
      destroyBuckets freeValues rest m

/-- `hashtable_destroy`; what is left is the memory without the table. -/
def hashtableDestroy (m : HashHeap K V) (freeValues : Bool) : Option (HashHeap K V) := do
  let m ← destroyBuckets freeValues (List.range m.tablelength) m
  some { m with table := [] }

/-- What follows an entry. -/
def next (m : HashHeap K V) (a : Nat) : Option Nat := (m.cells a).bind EntryCell.next

def entry (m : HashHeap K V) (a : Nat) : Option (Entry K V) := (m.cells a).map EntryCell.toEntry

/-- What the slots of a table point to. -/
def heads (table : List (Option Nat)) (i : Nat) : Option Nat := table[i]?.join

/-- The entries are those of the buckets, each of them once. -/
structure Layout (m : HashHeap K V) (chains : Nat → List Nat) : Prop where
  buckets : Buckets m.next (heads m.table) chains
  length : m.table.length = m.tablelength
  live : ∀ a, (m.cells a).isSome = true ↔ ∃ i, a ∈ chains i
  below : ∀ a, (m.cells a).isSome = true → a < m.brk

/-- The table with its buckets as lists. -/
def view (m : HashHeap K V) (chains : Nat → List Nat) : Hashtable K V :=
  { limitOf := m.limitOf
    tablelength := m.tablelength
    table := fun i => (chains i).filterMap m.entry
    entrycount := m.entrycount
    loadlimit := m.loadlimit
    primeindex := m.primeindex
    hashfn := m.hashfn
    eqfn := m.eqfn }

section Heads

variable {table : List (Option Nat)} {i : Nat} {p : Option Nat}

theorem heads_get (inside : i < table.length) : table[i]? = some (heads table i) := by
  rw [heads, List.getElem?_eq_getElem inside]
  rfl

theorem heads_beyond (beyond : table.length ≤ i) : heads table i = none := by
  rw [heads, List.getElem?_eq_none beyond]
  rfl

theorem heads_set (inside : i < table.length) :
    heads (table.set i p) = Function.update (heads table) i p := by
  funext j
  by_cases here : j = i
  · subst here
    rw [Function.update_self, heads, List.getElem?_set_self inside]
    rfl
  · rw [Function.update_of_ne here, heads, heads, List.getElem?_set_ne (Ne.symm here)]

theorem heads_replicate (size : Nat) : heads (List.replicate size none) = fun _ => none := by
  funext j
  rw [heads, List.getElem?_replicate]
  split <;> rfl

end Heads

variable {m m' : HashHeap K V} {chains : Nat → List Nat} {k : K} {v : V}

theorem setNext_eq {a : Nat} {c : EntryCell K V} (here : m.cells a = some c) (p : Option Nat) :
    m.setNext a p =
      some { m with cells := Function.update m.cells a (some { c with next := p }) } := by
  rw [setNext, here]
  rfl

theorem freeEntry_eq {a : Nat} {c : EntryCell K V} (here : m.cells a = some c) :
    m.freeEntry a =
      some { m with cells := Function.update m.cells a none, freedKeys := m.freedKeys ++ [c.k] } := by
  rw [freeEntry, here]
  rfl

namespace Layout

theorem cell (layout : Layout m chains) {i a : Nat} (member : a ∈ chains i) :
    ∃ c, m.cells a = some c :=
  Option.isSome_iff_exists.mp ((layout.live a).mpr ⟨i, member⟩)

theorem outside (layout : Layout m chains) {i : Nat} (beyond : m.tablelength ≤ i) : chains i = [] := by
  have head := layout.buckets.head_eq i
  rw [heads_beyond (layout.length.trans_le beyond)] at head
  exact List.head?_eq_none_iff.mp head.symm

theorem short (layout : Layout m chains) (i : Nat) : (chains i).length < m.brk + 1 := by
  have inside : chains i ⊆ List.range m.brk := by
    intro a member
    exact List.mem_range.mpr (layout.below a ((layout.live a).mpr ⟨i, member⟩))
  have le := ((layout.buckets.nodup i).subperm inside).length_le
  rw [List.length_range] at le
  omega

theorem slot (layout : Layout m chains) {i : Nat} (inside : i < m.tablelength) :
    m.table[i]? = some (chains i).head? := by
  rw [heads_get (inside.trans_eq layout.length.symm), layout.buckets.head_eq]

end Layout

/-- The entry is one that a search for the key stops at. -/
def matchesAt (m : HashHeap K V) (hashvalue : UInt32) (k : K) (a : Nat) : Bool :=
  (m.entry a).any fun e => hashvalue == e.h && m.eqfn k e.k

theorem matchesAt_eq {a : Nat} {c : EntryCell K V} {hashvalue : UInt32} (here : m.cells a = some c) :
    m.matchesAt hashvalue k a = (hashvalue == c.h && m.eqfn k c.k) := by
  rw [matchesAt, entry, here]
  rfl

theorem next_eq {a : Nat} {c : EntryCell K V} (here : m.cells a = some c) : m.next a = c.next := by
  rw [next, here]
  rfl

section Loops

variable {hashvalue : UInt32} {p : Option Nat} {as : List Nat}

theorem searchFrom_eq (chain : Chain m.next p as) (live : ∀ a ∈ as, ∃ c, m.cells a = some c) {fuel : Nat}
    (enough : as.length < fuel) :
    m.searchFrom hashvalue k fuel p =
      some (((as.find? (m.matchesAt hashvalue k)).bind m.entry).map Entry.v) := by
  induction as generalizing p fuel with
  | nil =>
      obtain ⟨fuel, rfl⟩ := Nat.exists_eq_succ_of_ne_zero (Nat.ne_of_gt enough)
      rw [show p = none from chain]
      rfl
  | cons a as ih =>
      obtain ⟨fuel, rfl⟩ := Nat.exists_eq_succ_of_ne_zero (Nat.ne_of_gt (Nat.zero_lt_of_lt enough))
      obtain ⟨rfl, rest⟩ := chain
      obtain ⟨c, here⟩ := live a List.mem_cons_self
      rw [next_eq here] at rest
      have later := ih rest (fun b member => live b (.tail a member)) (Nat.lt_of_succ_lt_succ enough)
      simp only [searchFrom, here, Option.bind_eq_bind, Option.bind_some, later, List.find?_cons,
        matchesAt_eq here]
      cases hashvalue == c.h && m.eqfn k c.k with
      | true =>
          simp only [if_true, Option.bind_some, entry, here]
          rfl
      | false => rfl

theorem removeFrom_none (chain : Chain m.next p as) (live : ∀ a ∈ as, ∃ c, m.cells a = some c)
    (missed : ∀ a ∈ as, m.matchesAt hashvalue k a = false) {fuel : Nat} (enough : as.length < fuel)
    (pE : EntrySlot) : m.removeFrom hashvalue k fuel pE p = some (none, m) := by
  induction as generalizing p fuel pE with
  | nil =>
      obtain ⟨fuel, rfl⟩ := Nat.exists_eq_succ_of_ne_zero (Nat.ne_of_gt enough)
      rw [show p = none from chain]
      rfl
  | cons a as ih =>
      obtain ⟨fuel, rfl⟩ := Nat.exists_eq_succ_of_ne_zero (Nat.ne_of_gt (Nat.zero_lt_of_lt enough))
      obtain ⟨rfl, rest⟩ := chain
      obtain ⟨c, here⟩ := live a List.mem_cons_self
      rw [next_eq here] at rest
      have other := missed a List.mem_cons_self
      rw [matchesAt_eq here] at other
      have later := ih rest (fun b member => live b (.tail a member))
        (fun b member => missed b (.tail a member)) (Nat.lt_of_succ_lt_succ enough)
      simp only [removeFrom, here, Option.bind_eq_bind, Option.bind_some, other, later, Bool.false_eq_true,
        if_false]

/-- The pointer that leads to an entry: that of the entry before it, if there is one. -/
def placeBehind (pE : EntrySlot) (before : List Nat) : EntrySlot := before.getLast?.elim pE .next

theorem removeFrom_found {before after : List Nat} {a : Nat} {c : EntryCell K V}
    (chain : Chain m.next p (before ++ a :: after))
    (live : ∀ a ∈ before, ∃ c, m.cells a = some c)
    (missed : ∀ a ∈ before, m.matchesAt hashvalue k a = false) (here : m.cells a = some c)
    (found : m.matchesAt hashvalue k a = true) {fuel : Nat} (enough : before.length + 1 < fuel)
    (pE : EntrySlot) :
    m.removeFrom hashvalue k fuel pE p =
      (m.store (placeBehind pE before) c.next).bind fun m =>
        (m.uncountEntry.freeEntry a).bind fun m => some (some c.v, m) := by
  induction before generalizing p fuel pE with
  | nil =>
      obtain ⟨fuel, rfl⟩ := Nat.exists_eq_succ_of_ne_zero (Nat.ne_of_gt (Nat.zero_lt_of_lt enough))
      obtain ⟨rfl, -⟩ := chain
      rw [matchesAt_eq here] at found
      simp only [removeFrom, here, Option.bind_eq_bind, Option.bind_some, found, if_true]
      rfl
  | cons b before ih =>
      obtain ⟨fuel, rfl⟩ := Nat.exists_eq_succ_of_ne_zero (Nat.ne_of_gt (Nat.zero_lt_of_lt enough))
      obtain ⟨rfl, rest⟩ := chain
      obtain ⟨d, there⟩ := live b List.mem_cons_self
      rw [next_eq there] at rest
      have other := missed b List.mem_cons_self
      rw [matchesAt_eq there] at other
      have later := ih rest (fun b' member => live b' (.tail b member))
        (fun b' member => missed b' (.tail b member)) (Nat.lt_of_succ_lt_succ enough) (.next b)
      have behind : placeBehind (.next b) before = placeBehind pE (b :: before) := by
        rw [placeBehind, placeBehind, List.getLast?_cons]
        cases before.getLast? <;> rfl
      simp only [removeFrom, there, Option.bind_eq_bind, Option.bind_some, other, later, Bool.false_eq_true,
        if_false, behind]

end Loops

end HashHeap

end OpenRpc
