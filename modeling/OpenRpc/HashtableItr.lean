import OpenRpc.HashtableRuns

/-! # Iterators over the hash table

`hashtable_itr.c`. An iterator stands at an entry and remembers the one before it in the bucket, so that
it can unlink it; when it moves on it looks for the next bucket that is not empty.
-/

namespace OpenRpc

open LinkedList

variable {K V : Type}

/-- `struct hashtable_itr` without the table. -/
structure HashItr where
  e : Option Nat
  parent : Option Nat
  index : Nat
  deriving Repr, DecidableEq

namespace HashHeap

/-- The first of these slots that is not NULL, and what it points to. -/
def firstFrom (table : List (Option Nat)) : List Nat → Option (Option (Nat × Nat))
  | [] => some none
  | i :: rest =>
      match table[i]? with
      | none => none
      | some none => firstFrom table rest
      | some (some e) => some (some (i, e))

/-- The iterator at the front of a bucket, or behind the last one. -/
def frontOf (m : HashHeap K V) : Option (Nat × Nat) → HashItr
  | some (i, e) => { e := some e, parent := none, index := i }
  | none => { e := none, parent := none, index := m.tablelength }

/-- `hashtable_iterator`, where the allocation of the iterator succeeds or not. -/
def hashtableIterator (alloc : Bool) (m : HashHeap K V) : Option (Option HashItr) :=
  if !alloc then some none
  else if m.entrycount = 0 then some (some (m.frontOf none))
  else (firstFrom m.table (List.range' 0 m.tablelength)).map fun front => some (m.frontOf front)

def hashtableIteratorKey (m : HashHeap K V) (itr : HashItr) : Option K :=
  (itr.e.bind m.entry).map Entry.k

def hashtableIteratorValue (m : HashHeap K V) (itr : HashItr) : Option V :=
  (itr.e.bind m.entry).map Entry.v

def hashtableIteratorAdvance (m : HashHeap K V) (itr : HashItr) : Option (Bool × HashItr) :=
  match itr.e with
  | none => some (false, itr)
  | some e => do
      let c ← m.cells e
      match c.next with
      | some next => some (true, { itr with parent := some e, e := some next })
      | none =>
          let j := itr.index + 1
          if m.tablelength ≤ j then some (false, { e := none, parent := none, index := j })
          else do
            let front ← firstFrom m.table (List.range' j (m.tablelength - j))
            some (front.isSome, m.frontOf front)

def hashtableIteratorRemove (m : HashHeap K V) (itr : HashItr) :
    Option (Bool × HashItr × HashHeap K V) := do
  let e ← itr.e
  let c ← m.cells e
  let m ← m.store (itr.parent.elim (.slot itr.index) .next) c.next
  let m := m.uncountEntry
  let (ret, itr') ← m.hashtableIteratorAdvance itr
  let itr' := if itr'.parent = some e then { itr' with parent := itr.parent } else itr'
  let m ← m.freeEntry e
  some (ret, itr', m)

/-- The loop of `hashtable_iterator_search`. -/
def iteratorSearchFrom (m : HashHeap K V) (hashvalue : UInt32) (k : K) (index : Nat) :
    Nat → Option Nat → Option Nat → Option (Option HashItr)
  | 0, _, _ => none
  | _ + 1, _, none => some none
  | fuel + 1, parent, some e => do
      let c ← m.cells e
      if hashvalue == c.h && m.eqfn k c.k then
        some (some { e := some e, parent := parent, index := index })
      else m.iteratorSearchFrom hashvalue k index fuel (some e) c.next

/-- `hashtable_iterator_search`; an iterator whose key is not found is left alone. -/
def hashtableIteratorSearch (m : HashHeap K V) (itr : HashItr) (k : K) : Option (Bool × HashItr) := do
  let hashvalue := m.hash k
  let index := indexFor m.tablelength hashvalue
  let e ← m.table[index]?
  let found ← m.iteratorSearchFrom hashvalue k index (m.brk + 1) none e
  some (found.isSome, found.getD itr)

/-- Where an iterator stands: at an entry, with these entries to come, or behind the last one. -/
inductive Stands (size : Nat) (chains : Nat → List Nat) : HashItr → List Nat → Prop where
  | entry {itr : HashItr} {e : Nat} {before after : List Nat} (inside : itr.index < size)
      (split : chains itr.index = before ++ e :: after) (here : itr.e = some e)
      (parent : itr.parent = before.getLast?) :
      Stands size chains itr
        (e :: (after ++ (List.range' (itr.index + 1) (size - (itr.index + 1))).flatMap chains))
  | done {itr : HashItr} (here : itr.e = none) : Stands size chains itr []

variable {m m' : HashHeap K V} {chains : Nat → List Nat} {itr itr' : HashItr} {ahead : List Nat}

theorem Stands.isSome {size : Nat} (stands : Stands size chains itr ahead) :
    itr.e.isSome = decide (ahead ≠ []) := by
  cases stands with
  | entry inside split here parent => simp [here]
  | done here => simp [here]

theorem firstFrom_stands {j n : Nat} (whole : j + n = m.tablelength)
    (slots : ∀ i, j ≤ i → i < m.tablelength → m.table[i]? = some (chains i).head?) :
    ∃ front, firstFrom m.table (List.range' j n) = some front ∧
      Stands m.tablelength chains (m.frontOf front) ((List.range' j n).flatMap chains) ∧
      front.isSome = (m.frontOf front).e.isSome := by
  induction n generalizing j with
  | zero => exact ⟨none, rfl, .done rfl, rfl⟩
  | succ n ih =>
      have slot := slots j (Nat.le_refl j) (by omega)
      rw [List.range'_succ, List.flatMap_cons]
      cases bucket : chains j with
      | nil =>
          obtain ⟨front, found, stands, some_front⟩ :=
            ih (j := j + 1) (by omega) fun i above below => slots i (by omega) below
          rw [bucket] at slot
          refine ⟨front, ?_, stands, some_front⟩
          simp only [firstFrom, slot, List.head?_nil, found]
      | cons e after =>
          rw [bucket] at slot
          have stands : Stands m.tablelength chains (m.frontOf (some (j, e)))
              (e :: (after ++ (List.range' (j + 1) (m.tablelength - (j + 1))).flatMap chains)) :=
            .entry (show j < m.tablelength by omega) (show chains j = [] ++ e :: after from bucket) rfl rfl
          have rest : m.tablelength - (j + 1) = n := by omega
          rw [rest] at stands
          refine ⟨some (j, e), ?_, stands, rfl⟩
          simp only [firstFrom, slot, List.head?_cons]

theorem advance_beyond {e : Nat} {c : EntryCell K V} (cell : m.cells e = some c) (here : itr.e = some e)
    (last : c.next = none) (inside : itr.index < m.tablelength)
    (slots : ∀ i, itr.index < i → i < m.tablelength → m.table[i]? = some (chains i).head?) :
    ∃ itr', m.hashtableIteratorAdvance itr = some (itr'.e.isSome, itr') ∧ itr'.parent = none ∧
      Stands m.tablelength chains itr'
        ((List.range' (itr.index + 1) (m.tablelength - (itr.index + 1))).flatMap chains) := by
  by_cases beyond : m.tablelength ≤ itr.index + 1
  · have none_left : m.tablelength - (itr.index + 1) = 0 := by omega
    refine ⟨{ e := none, parent := none, index := itr.index + 1 }, ?_, rfl, ?_⟩
    · simp only [hashtableIteratorAdvance, here, cell, Option.bind_eq_bind, Option.bind_some, last,
        if_pos beyond, Option.isSome_none]
    · rw [none_left]
      exact .done rfl
  · obtain ⟨front, found, stands, some_front⟩ :=
      firstFrom_stands (m := m) (j := itr.index + 1) (n := m.tablelength - (itr.index + 1)) (by omega)
        fun i above below => slots i (by omega) below
    refine ⟨m.frontOf front, ?_, ?_, stands⟩
    · simp only [hashtableIteratorAdvance, here, cell, Option.bind_eq_bind, Option.bind_some, last,
        if_neg beyond, found, some_front]
    · cases front <;> rfl

theorem advance_stands (layout : Layout m chains) (stands : Stands m.tablelength chains itr ahead) :
    ∃ itr', m.hashtableIteratorAdvance itr = some (itr'.e.isSome, itr') ∧
      Stands m.tablelength chains itr' ahead.tail := by
  cases stands with
  | done here =>
      refine ⟨itr, ?_, .done here⟩
      simp only [hashtableIteratorAdvance, here, Option.isSome_none]
  | @entry e before after inside split here parent =>
      obtain ⟨c, cell⟩ := layout.cell (show e ∈ chains itr.index by rw [split]; simp)
      have follows := layout.buckets.next_eq split
      rw [next_eq cell] at follows
      cases after with
      | nil =>
          obtain ⟨itr', moved, -, stands'⟩ := advance_beyond cell here follows inside
            fun i _ below => layout.slot below
          exact ⟨itr', moved, stands'⟩
      | cons b after =>
          refine ⟨{ itr with parent := some e, e := some b }, ?_, ?_⟩
          · simp only [hashtableIteratorAdvance, here, cell, Option.bind_eq_bind, Option.bind_some, follows,
              List.head?_cons, Option.isSome_some]
          · have bucket : chains itr.index = (before ++ [e]) ++ b :: after := by
              rw [List.append_assoc]
              exact split
            have last : some e = (before ++ [e]).getLast? := by simp
            let itr' : HashItr := { itr with parent := some e, e := some b }
            have moved : itr'.parent = (before ++ [e]).getLast? := last
            exact .entry inside bucket rfl moved

theorem flatMap_behind (i n : Nat) (cells : List Nat) :
    (List.range' (i + 1) n).flatMap (Function.update chains i cells) =
      (List.range' (i + 1) n).flatMap chains := by
  refine List.flatMap_congr fun j member => Function.update_of_ne ?_ ..
  have above := (List.mem_range'_1.mp member).1
  omega

theorem remove_stands (layout : Layout m chains) (sound : (m.view chains).Sound)
    (counted : (m.view chains).Counted) {a : Nat} (stands : Stands m.tablelength chains itr (a :: ahead)) :
    ∃ c itr' m' chains', m.cells a = some c ∧
      m.hashtableIteratorRemove itr = some (itr'.e.isSome, itr', m') ∧ Layout m' chains' ∧
      (m'.view chains').Sound ∧ (m'.view chains').Counted ∧
      (m.view chains).entries.Perm (c.toEntry :: (m'.view chains').entries) ∧
      Stands m'.tablelength chains' itr' ahead ∧ (∀ b ∈ ahead, m'.entry b = m.entry b) ∧
      m'.freedKeys = m.freedKeys ++ [c.k] ∧ m'.freedValues = m.freedValues := by
  cases stands with
  | @entry _ before after inside split here parent =>
      obtain ⟨c, cell⟩ := layout.cell (i := itr.index) (a := a) (by rw [split]; simp)
      have follows := layout.buckets.next_eq split
      rw [next_eq cell] at follows
      obtain ⟨cells, table, stored, length, kept, same, buckets, gone⟩ :=
        store_unlink layout inside split cell
      let m₁ : HashHeap K V := { m with cells := cells, table := table }.uncountEntry
      let chains' := Function.update chains itr.index (before ++ after)
      have slots : ∀ i, itr.index < i → i < m₁.tablelength → m₁.table[i]? = some (chains' i).head? := by
        intro i _ below
        have slot : i < table.length := (below.trans_eq layout.length.symm).trans_eq length.symm
        exact (heads_get slot).trans (congrArg some (buckets.head_eq i))
      have moved : ∃ itr₁, m₁.hashtableIteratorAdvance itr = some (itr₁.e.isSome, itr₁) ∧
          Stands m.tablelength chains'
            (if itr₁.parent = some a then { itr₁ with parent := itr.parent } else itr₁)
            (after ++ (List.range' (itr.index + 1) (m.tablelength - (itr.index + 1))).flatMap chains) := by
        rw [← flatMap_behind itr.index _ (before ++ after)]
        cases after with
        | nil =>
            obtain ⟨itr₁, moved, front, stands⟩ :=
              advance_beyond (show m₁.cells a = some c from kept) here follows inside slots
            refine ⟨itr₁, moved, ?_⟩
            rw [if_neg (by simp [front])]
            exact stands
        | cons b after =>
            refine ⟨{ itr with parent := some a, e := some b }, ?_, ?_⟩
            · have cell₁ : m₁.cells a = some c := kept
              simp only [hashtableIteratorAdvance, here, cell₁, Option.bind_eq_bind, Option.bind_some,
                follows, List.head?_cons, Option.isSome_some]
            · rw [if_pos rfl]
              have bucket : chains' itr.index = before ++ b :: after := Function.update_self ..
              let itr₁ : HashItr := { itr with parent := itr.parent, e := some b }
              have behind : itr₁.parent = before.getLast? := parent
              exact .entry inside bucket rfl behind
      obtain ⟨itr₁, moved, stands'⟩ := moved
      let m₂ : HashHeap K V := { m₁ with
        cells := Function.update cells a none, freedKeys := m.freedKeys ++ [c.k] }
      have freed : m₁.freeEntry a = some m₂ := freeEntry_eq kept
      have layout' : Layout m₂ chains' :=
        layout.freed split same buckets gone rfl (length.trans layout.length) rfl
      have viewed := unlinked_view (m := m) table (m.freedKeys ++ [c.k]) same gone
      rw [List.filterMap_append] at viewed
      have bucket : (m.view chains).table itr.index =
          before.filterMap m.entry ++ c.toEntry :: after.filterMap m.entry := by
        simp [view, split, entry, cell]
      obtain ⟨sound', counted', perm⟩ := Hashtable.unlink_spec sound counted bucket
      rw [← viewed] at sound' counted' perm
      refine ⟨c, _, m₂, chains', cell, ?_, layout', sound', counted', perm, stands',
        fun b member => ?_, rfl, rfl⟩
      · have place : itr.parent.elim (.slot itr.index) .next = placeBehind (.slot itr.index) before := by
          rw [parent, placeBehind]
        have same_entry : (if itr₁.parent = some a then { itr₁ with parent := itr.parent } else itr₁).e =
            itr₁.e := by split <;> rfl
        simp only [hashtableIteratorRemove, here, cell, place, stored, Option.bind_eq_bind,
          Option.bind_some]
        rw [same_entry]
        change (m₁.hashtableIteratorAdvance itr).bind _ = _
        simp only [moved, Option.bind_some]
        change (m₁.freeEntry a).bind _ = _
        rw [freed, Option.bind_some]
      · have other : b ≠ a := by
          rintro rfl
          rcases List.mem_append.mp member with close | far
          · exact gone itr.index (by rw [Function.update_self]; exact List.mem_append_right _ close)
          · rw [← flatMap_behind itr.index _ (before ++ after)] at far
            obtain ⟨j, -, inside⟩ := List.mem_flatMap.mp far
            exact gone j inside
        change (Function.update cells a none b).map EntryCell.toEntry = _
        rw [Function.update_of_ne other, same]

theorem iterator_stands (layout : Layout m chains) (counted : (m.view chains).Counted)
    (few : (m.view chains).entries.length < 2 ^ 32) :
    ∃ itr, m.hashtableIterator true = some (some itr) ∧
      Stands m.tablelength chains itr (m.allocated chains) := by
  by_cases empty : m.entrycount = 0
  · have nothing : (m.allocated chains).filterMap m.entry = [] := by
      have count : m.entrycount = (m.view chains).entries.length % 2 ^ 32 := counted
      rw [allocated_entries, ← List.length_eq_zero_iff]
      omega
    have none_left : m.allocated chains = [] := by
      rw [List.eq_nil_iff_forall_not_mem]
      intro a member
      have gone := List.filterMap_eq_nil_iff.mp nothing a member
      have alive := (layout.mem_allocated a).mpr member
      rw [entry, Option.map_eq_none_iff] at gone
      rw [gone] at alive
      cases alive
    refine ⟨m.frontOf none, by simp [hashtableIterator, empty], ?_⟩
    rw [none_left]
    exact .done rfl
  · obtain ⟨front, found, stands, -⟩ := firstFrom_stands (m := m) (Nat.zero_add m.tablelength)
      fun i _ below => layout.slot below
    refine ⟨m.frontOf front, by simp [hashtableIterator, empty, found], ?_⟩
    rwa [allocated, List.range_eq_range']

section Search

variable {hashvalue : UInt32} {k : K} {p : Option Nat} {index : Nat}

theorem iteratorSearchFrom_none {as : List Nat} (chain : Chain m.next p as)
    (live : ∀ a ∈ as, ∃ c, m.cells a = some c)
    (missed : ∀ a ∈ as, m.matchesAt hashvalue k a = false) {fuel : Nat} (enough : as.length < fuel)
    (parent : Option Nat) : m.iteratorSearchFrom hashvalue k index fuel parent p = some none := by
  induction as generalizing p fuel parent with
  | nil =>
      obtain ⟨fuel, rfl⟩ := Nat.exists_eq_succ_of_ne_zero (Nat.ne_of_gt enough)
      rw [show p = none from chain]
      rfl
  | cons a as ih =>
      obtain ⟨fuel, rfl⟩ := Nat.exists_eq_succ_of_ne_zero (Nat.ne_of_gt (Nat.zero_lt_of_lt enough))
      obtain ⟨rfl, rest⟩ := chain
      obtain ⟨c, here⟩ := live a List.mem_cons_self
      rw [next_eq here] at rest
      have other := missed a List.mem_cons_self
      rw [matchesAt_eq here] at other
      have later := ih rest (fun b member => live b (.tail a member))
        (fun b member => missed b (.tail a member)) (Nat.lt_of_succ_lt_succ enough)
      simp only [iteratorSearchFrom, here, Option.bind_eq_bind, Option.bind_some, other, later,
        Bool.false_eq_true, if_false]

theorem iteratorSearchFrom_found {before after : List Nat} {a : Nat} {c : EntryCell K V}
    (chain : Chain m.next p (before ++ a :: after)) (live : ∀ a ∈ before, ∃ c, m.cells a = some c)
    (missed : ∀ a ∈ before, m.matchesAt hashvalue k a = false) (here : m.cells a = some c)
    (found : m.matchesAt hashvalue k a = true) {fuel : Nat} (enough : before.length < fuel)
    (parent : Option Nat) :
    m.iteratorSearchFrom hashvalue k index fuel parent p =
      some (some { e := some a, parent := before.getLast?.or parent, index := index }) := by
  induction before generalizing p fuel parent with
  | nil =>
      obtain ⟨fuel, rfl⟩ := Nat.exists_eq_succ_of_ne_zero (Nat.ne_of_gt enough)
      obtain ⟨rfl, -⟩ := chain
      rw [matchesAt_eq here] at found
      simp only [iteratorSearchFrom, here, Option.bind_eq_bind, Option.bind_some, found, if_true]
      rfl
  | cons b before ih =>
      obtain ⟨fuel, rfl⟩ := Nat.exists_eq_succ_of_ne_zero (Nat.ne_of_gt (Nat.zero_lt_of_lt enough))
      obtain ⟨rfl, rest⟩ := chain
      obtain ⟨d, there⟩ := live b List.mem_cons_self
      rw [next_eq there] at rest
      have other := missed b List.mem_cons_self
      rw [matchesAt_eq there] at other
      have later := ih rest (fun b' member => live b' (.tail b member))
        (fun b' member => missed b' (.tail b member)) (Nat.lt_of_succ_lt_succ enough) (some b)
      have behind : before.getLast?.or (some b) = (b :: before).getLast?.or parent := by
        rw [List.getLast?_cons]
        cases before.getLast? <;> rfl
      simp only [iteratorSearchFrom, there, Option.bind_eq_bind, Option.bind_some, other, later,
        Bool.false_eq_true, if_false, behind]

/-- An iterator is put where a search stops, and its removal is the one of `hashtable_remove`. -/
theorem iteratorSearch_stands (layout : Layout m chains) (sound : (m.view chains).Sound)
    (counted : (m.view chains).Counted) (itr : HashItr) (k : K) :
    (m.hashtableSearch k = some none ∧ m.hashtableRemove k = some (none, m) ∧
      m.hashtableIteratorSearch itr k = some (false, itr)) ∨
    ∃ c itr' more itr₁ m', m.hashtableSearch k = some (some c.v) ∧
      m.hashtableIteratorSearch itr k = some (true, itr') ∧ (itr'.e.bind m.cells) = some c ∧ c.k = k ∧
      m.hashtableIteratorRemove itr' = some (more, itr₁, m') ∧
      m.hashtableRemove k = some (some c.v, m') := by
  have inside : indexFor m.tablelength (m.hash k) < m.tablelength := sound.placed.inside (m.hash k)
  generalize atIndex : indexFor m.tablelength (m.hash k) = i at inside
  have chain := layout.buckets.chain i
  rw [layout.buckets.head_eq i] at chain
  have searched : m.hashtableSearch k =
      m.searchFrom (m.hash k) k (m.brk + 1) (chains i).head? := by
    simp only [hashtableSearch, atIndex, layout.slot inside, Option.bind_eq_bind, Option.bind_some]
  have removes : m.hashtableRemove k =
      m.removeFrom (m.hash k) k (m.brk + 1) (.slot i) (chains i).head? := by
    simp only [hashtableRemove, atIndex, layout.slot inside, Option.bind_eq_bind, Option.bind_some]
  have begins : m.hashtableIteratorSearch itr k =
      (m.iteratorSearchFrom (m.hash k) k i (m.brk + 1) none (chains i).head?).bind fun found =>
        some (found.isSome, found.getD itr) := by
    simp only [hashtableIteratorSearch, atIndex, layout.slot inside, Option.bind_eq_bind,
      Option.bind_some]
  rw [searchFrom_eq chain (live_in layout i) (layout.short i)] at searched
  cases found : (chains i).find? (m.matchesAt (m.hash k) k) with
  | none =>
      have missed : ∀ a ∈ chains i, m.matchesAt (m.hash k) k a = false := by
        simpa using List.find?_eq_none.mp found
      refine .inl ⟨?_, ?_, ?_⟩
      · rw [searched, found]
        rfl
      · rw [removes, removeFrom_none chain (live_in layout i) missed (layout.short i)]
      · rw [begins, iteratorSearchFrom_none chain (live_in layout i) missed (layout.short i)]
        rfl
  | some a =>
      obtain ⟨stops, before, after, split, missed⟩ := List.find?_eq_some_iff_append.mp found
      have missed : ∀ b ∈ before, m.matchesAt (m.hash k) k b = false :=
        fun b earlier => by simpa using missed b earlier
      obtain ⟨c, here⟩ := layout.cell (split ▸ by simp : a ∈ chains i)
      have key : c.k = k := by
        have bucket : ((m.view chains).table i).find? (matchesKey (m.view chains) k) =
            some c.toEntry := by
          have listed : ((m.view chains).table i).find? (matchesKey (m.view chains) k) =
              ((chains i).find? (m.matchesAt (m.hash k) k)).bind m.entry := List.find?_filterMap ..
          rw [listed, found, Option.bind_some, entry, here]
          rfl
        exact (sound.present (e := c.toEntry) (by rw [← atIndex] at bucket; exact bucket)).2
      have short := layout.short i
      rw [split, List.length_append, List.length_cons] at short
      rw [split] at chain
      have early : ∀ b ∈ before, ∃ c, m.cells b = some c :=
        fun b earlier => layout.cell (split ▸ List.mem_append_left _ earlier)
      let itr' : HashItr := { e := some a, parent := before.getLast?, index := i }
      have stands : Stands m.tablelength chains itr' (a :: _) := .entry inside split rfl rfl
      obtain ⟨c', itr₁, m', chains', cell, moved, -⟩ := remove_stands layout sound counted stands
      obtain rfl := Option.some.inj (here.symm.trans cell)
      refine .inr ⟨c, itr', _, itr₁, m', ?_, ?_, here, key, moved, ?_⟩
      · rw [searched, found, Option.bind_some, entry, here]
        rfl
      · rw [begins, split, iteratorSearchFrom_found chain early missed here stops (by omega),
          Option.or_none]
        rfl
      · rw [removes, split, removeFrom_found chain early missed here stops (by omega)]
        have place : itr'.parent.elim (.slot itr'.index) .next = placeBehind (.slot i) before := rfl
        have entry_here : itr'.e = some a := rfl
        simp only [hashtableIteratorRemove, entry_here, here, place, Option.bind_eq_bind, Option.bind_some,
          Option.bind_eq_some_iff] at moved
        obtain ⟨m₁, stored, r, advanced, m₂, freed, last⟩ := moved
        simp only [Option.some.injEq, Prod.mk.injEq] at last
        obtain ⟨-, -, rfl⟩ := last
        rw [stored, Option.bind_some, freed, Option.bind_some]

end Search

/-- The pair of an entry. -/
def pairOf (m : HashHeap K V) (a : Nat) : Option (K × V) := (m.entry a).map fun e => (e.k, e.v)

/-- What `hashtable_iterator_key` and `hashtable_iterator_value` return. -/
def pairAt (m : HashHeap K V) (itr : HashItr) : Option (K × V) :=
  (m.hashtableIteratorKey itr).bind fun k => (m.hashtableIteratorValue itr).map fun v => (k, v)

theorem pairAt_eq {a : Nat} (here : itr.e = some a) : m.pairAt itr = m.pairOf a := by
  simp only [pairAt, hashtableIteratorKey, hashtableIteratorValue, here, Option.bind_some, pairOf]
  cases m.entry a <;> rfl

theorem pairOf_eq {a : Nat} {c : EntryCell K V} (cell : m.cells a = some c) :
    m.pairOf a = some (c.k, c.v) := by
  rw [pairOf, entry, cell]
  rfl

theorem pairs_of_entries {as : List Nat} (alive : ∀ a ∈ as, (m.entry a).isSome = true) :
    as.map m.pairOf = (as.filterMap m.entry).map (some ∘ fun e => (e.k, e.v)) := by
  induction as with
  | nil => rfl
  | cons a as ih =>
      obtain ⟨e, here⟩ := Option.isSome_iff_exists.mp (alive a List.mem_cons_self)
      rw [List.filterMap_cons_some here, List.map_cons, List.map_cons,
        ih fun b member => alive b (.tail a member), pairOf, here]
      rfl

end HashHeap

/-- What is done with an iterator. -/
inductive ItrOp where
  | advance
  | remove
  deriving Repr, DecidableEq

/-- An iterator on its way through a table: what the last call has returned, and the pairs that it was
    moved on from, with whether their entries were removed. -/
structure Iteration (K V : Type) where
  itr : HashItr
  heap : HashHeap K V
  more : Bool
  passed : List (Bool × (K × V))

namespace Iteration

open HashHeap

def start (m : HashHeap K V) (itr : HashItr) : Iteration K V :=
  { itr := itr, heap := m, more := itr.e.isSome, passed := [] }

/-- The pairs whose entries were removed. -/
def removed (s : Iteration K V) : List (K × V) := (s.passed.filter Prod.fst).map Prod.snd

def step (s : Iteration K V) : ItrOp → Option (Iteration K V)
  | .advance =>
      (s.heap.hashtableIteratorAdvance s.itr).map fun (more, itr) =>
        { s with itr := itr, more := more
                 passed := s.passed ++ ((s.heap.pairAt s.itr).map fun pair => (false, pair)).toList }
  | .remove =>
      (s.heap.hashtableIteratorRemove s.itr).map fun (more, itr, heap) =>
        { itr := itr, heap := heap, more := more
          passed := s.passed ++ ((s.heap.pairAt s.itr).map fun pair => (true, pair)).toList }

/-- Of all pairs some were passed, and the iterator stands at the first of those to come. -/
structure Among (all : List (K × V)) (keys : List K) (s : Iteration K V) (chains : Nat → List Nat)
    (ahead : List Nat) (todo : List (K × V)) : Prop where
  layout : Layout s.heap chains
  sound : (s.heap.view chains).Sound
  counted : (s.heap.view chains).Counted
  stands : Stands s.heap.tablelength chains s.itr ahead
  pairs : ahead.map s.heap.pairOf = todo.map some
  split : s.passed.map Prod.snd ++ todo = all
  bag : (s.removed : Multiset (K × V)) + (s.heap.view chains).bag = all
  more : s.more = s.itr.e.isSome
  keys : s.heap.freedKeys = keys ++ s.removed.map Prod.fst

variable {all : List (K × V)} {keys : List K} {s s' : Iteration K V} {chains : Nat → List Nat}
  {ahead : List Nat} {todo : List (K × V)}

theorem Among.length (among : Among all keys s chains ahead todo) : ahead.length = todo.length := by
  have lengths := congrArg List.length among.pairs
  rwa [List.length_map, List.length_map] at lengths

theorem Among.more_iff (among : Among all keys s chains ahead todo) : s.more = decide (todo ≠ []) := by
  rw [among.more, among.stands.isSome]
  simp only [ne_eq, ← List.length_eq_zero_iff, among.length]

theorem removed_snoc (s : Iteration K V) (itr : HashItr) (m : HashHeap K V) (more : Bool) (pair : K × V) :
    removed { itr := itr, heap := m, more := more, passed := s.passed ++ [(true, pair)] } =
      s.removed ++ [pair] := by
  simp [removed]

theorem Among.step (among : Among all keys s chains ahead todo) (op : ItrOp) :
    (todo = [] ∧ s.step .advance = some { s with more := false } ∧ s.step .remove = none) ∨
    ∃ pair rest s' chains' ahead', todo = pair :: rest ∧ s.step op = some s' ∧
      Among all keys s' chains' ahead' rest ∧ s'.passed = s.passed ++ [(decide (op = .remove), pair)] := by
  obtain ⟨layout, sound, counted, stands, pairs, split, bag, more, freed⟩ := among
  cases ahead with
  | nil =>
      left
      have none_left : todo = [] := by
        have lengths := congrArg List.length pairs
        rw [List.length_map, List.length_map, List.length_nil] at lengths
        exact List.length_eq_zero_iff.mp lengths.symm
      cases stands with
      | done here =>
          refine ⟨none_left, ?_, ?_⟩
          · simp [Iteration.step, hashtableIteratorAdvance, here, pairAt, hashtableIteratorKey]
          · simp [Iteration.step, hashtableIteratorRemove, here]
  | cons a ahead =>
      right
      have here : s.itr.e = some a := by cases stands with | entry _ _ here _ => exact here
      cases todo with
      | nil => cases pairs
      | cons pair rest =>
          rw [List.map_cons, List.map_cons, List.cons.injEq] at pairs
          obtain ⟨first, pairs⟩ := pairs
          have current : s.heap.pairAt s.itr = some pair := (pairAt_eq here).trans first
          have passes : (s.passed.map Prod.snd ++ [pair]) ++ rest = all := by
            rw [List.append_assoc]
            exact split
          cases op with
          | advance =>
              obtain ⟨itr', moved, stands'⟩ := advance_stands layout stands
              refine ⟨pair, rest, { s with itr := itr', more := itr'.e.isSome
                                           passed := s.passed ++ [(false, pair)] }, chains, ahead, rfl,
                ?_, ?_, rfl⟩
              · simp only [Iteration.step, moved, current, Option.map_some, Option.toList_some]
              · exact ⟨layout, sound, counted, stands', pairs, by simpa using passes,
                  by simpa [removed] using bag, rfl, by simpa [removed] using freed⟩
          | remove =>
              obtain ⟨c, itr', m', chains', cell, moved, layout', sound', counted', perm, stands', same,
                freed', -⟩ := remove_stands layout sound counted stands
              obtain rfl : (c.k, c.v) = pair := Option.some.inj ((pairOf_eq cell).symm.trans first)
              refine ⟨_, rest, { itr := itr', heap := m', more := itr'.e.isSome
                                 passed := s.passed ++ [(true, (c.k, c.v))] }, chains', ahead, rfl, ?_,
                ?_, rfl⟩
              · simp only [Iteration.step, moved, current, Option.map_some, Option.toList_some]
              · refine ⟨layout', sound', counted', stands', ?_, by simpa using passes, ?_, rfl, ?_⟩
                · rw [← pairs]
                  refine List.map_congr_left fun b member => ?_
                  rw [pairOf, same b member, pairOf]
                · have less : (s.heap.view chains).bag =
                      (c.k, c.v) ::ₘ (m'.view chains').bag :=
                    Multiset.coe_eq_coe.mpr (perm.map fun e => (e.k, e.v))
                  rw [← bag, less, removed_snoc, ← Multiset.coe_add, Multiset.coe_singleton, add_assoc,
                    Multiset.singleton_add]
                · rw [freed', freed, removed_snoc, List.map_append, List.append_assoc]
                  rfl

theorem run_among {moves : List ItrOp} (run : Transition.exec step s moves = some s')
    (among : Among all keys s chains ahead todo) :
    (∃ chains' ahead' todo', Among all keys s' chains' ahead' todo') ∧
      s'.passed.length = min (s.passed.length + moves.length) all.length := by
  induction moves generalizing s chains ahead todo with
  | nil =>
      cases run
      have lengths := congrArg List.length among.split
      rw [List.length_append, List.length_map] at lengths
      exact ⟨⟨_, _, _, among⟩, by rw [List.length_nil]; omega⟩
  | cons op moves ih =>
      obtain ⟨s₁, first, rest⟩ := Transition.exec_cons.mp run
      have lengths := congrArg List.length among.split
      rw [List.length_append, List.length_map] at lengths
      rcases among.step op with
        ⟨rfl, advanced, removed⟩ | ⟨pair, rest', s₂, chains', ahead', rfl, moved, among', passed⟩
      · cases op with
        | remove =>
            rw [removed] at first
            cases first
        | advance =>
            rw [advanced] at first
            cases first
            have stopped : s.more = false := by simpa using among.more_iff
            obtain ⟨found, count⟩ := ih rest (s := { s with more := false }) { among with
              more := by rw [← among.more, stopped] }
            refine ⟨found, ?_⟩
            simp only [List.length_nil, List.length_cons] at count lengths ⊢
            omega
      · cases moved.symm.trans first
        obtain ⟨found, count⟩ := ih rest among'
        refine ⟨found, ?_⟩
        rw [passed, List.length_append, List.length_singleton] at count
        rw [count, List.length_cons]
        omega

theorem start_among {m : HashHeap K V} (layout : Layout m chains) (sound : (m.view chains).Sound)
    (counted : (m.view chains).Counted) (few : (m.view chains).entries.length < 2 ^ 32) :
    ∃ (itr : HashItr) (todo : List (K × V)), m.hashtableIterator true = some (some itr) ∧
      (todo : Multiset (K × V)) = (m.view chains).bag ∧
      Among todo m.freedKeys (.start m itr) chains (m.allocated chains) todo := by
  obtain ⟨itr, begins, stands⟩ := iterator_stands layout counted few
  refine ⟨itr, (m.view chains).entries.map fun e => (e.k, e.v), begins, rfl, layout, sound, counted,
    stands, ?_, rfl, ?_, rfl, (List.append_nil _).symm⟩
  · rw [← allocated_entries, List.map_map]
    have alive : ∀ a ∈ m.allocated chains, (m.entry a).isSome = true := by
      intro a member
      rw [entry, Option.isSome_map]
      exact (layout.mem_allocated a).mpr member
    exact pairs_of_entries alive
  · exact Multiset.zero_add _

variable {ops : List (HashOp K V)} {log : List (Bag.Op K V × Bag.Answer V)} {m m' : HashHeap K V}
  {struct table : Bool} {limitOf : Nat → Nat} {minsize : Nat} {hashf : K → UInt32} {eqf : K → K → Bool}

/-- However an iterator is moved through a table, removing the entries it stands at or not, it passes
    every pair of the table once, and what the calls return says when it is through. The table is left
    with the pairs that were not removed, and undefined is only to remove where there is no entry. -/
theorem hashtableIterator_visits (eq : ∀ k k', eqf k k' = true ↔ k = k')
    (created : HashHeap.createHashtable struct table limitOf minsize hashf eqf = some m)
    (run : Transition.exec HashHeap.step ([], m) ops = some (log, m')) (few : ops.length < 2 ^ 32) :
    ∃ bag itr, Bag.Run (2 ^ 32) 0 log bag ∧ m'.hashtableIterator true = some (some itr) ∧
      ∀ moves : List ItrOp,
        (Transition.exec step (.start m' itr) moves = none ↔
          ∃ before after s, moves = before ++ .remove :: after ∧
            Transition.exec step (.start m' itr) before = some s ∧ s.more = false) ∧
        ∀ s, Transition.exec step (.start m' itr) moves = some s →
          (s.passed.map Prod.snd : Multiset (K × V)) ≤ bag ∧
          s.passed.length = min moves.length bag.card ∧
          s.more = decide (s.passed.length < bag.card) ∧
          s.heap.freedKeys = m'.freedKeys ++ s.removed.map Prod.fst ∧
          ∃ left, s.heap.Holds left ∧ (s.removed : Multiset (K × V)) + left = bag := by
  obtain ⟨bag, answers, ⟨chains, layout, sound, counted, rfl⟩, -, -⟩ := run_answered eq created run
  have small : (m'.view chains).entries.length < 2 ^ 32 := by
    have card := Bag.run_card answers
    have length : log.length = ops.length := by simpa using congrArg List.length (run_ops run)
    rw [Hashtable.bag, Multiset.coe_card, List.length_map] at card
    omega
  obtain ⟨itr, all, begins, same, start⟩ := start_among layout sound counted small
  refine ⟨_, itr, answers, begins, fun moves => ⟨?_, fun s moved => ?_⟩⟩
  · rw [Transition.exec_eq_none]
    constructor
    · rintro ⟨before, op, after, s, split, ran, stops⟩
      obtain ⟨⟨chains', ahead', todo', among⟩, -⟩ := run_among ran start
      rcases among.step op with ⟨rfl, advanced, -⟩ | ⟨_, _, s', _, _, -, moved, -, -⟩
      · cases op with
        | remove => exact ⟨before, after, s, split, ran, by simpa using among.more_iff⟩
        | advance => cases advanced.symm.trans stops
      · cases moved.symm.trans stops
    · rintro ⟨before, after, s, split, ran, ended⟩
      obtain ⟨⟨chains', ahead', todo', among⟩, -⟩ := run_among ran start
      refine ⟨before, _, after, s, split, ran, ?_⟩
      rcases among.step .remove with ⟨-, -, removed⟩ | ⟨pair, rest, _, _, _, rfl, -, -, -⟩
      · exact removed
      · rw [among.more_iff] at ended
        simp at ended
  · obtain ⟨⟨chains', ahead', todo', among⟩, count⟩ := run_among moved start
    have card : (m'.view chains).bag.card = all.length := by rw [← same, Multiset.coe_card]
    have lengths := congrArg List.length among.split
    rw [List.length_append, List.length_map] at lengths
    refine ⟨?_, ?_, ?_, among.keys, (s.heap.view chains').bag,
      ⟨chains', among.layout, among.sound, among.counted, rfl⟩, among.bag.trans same⟩
    · rw [← same, ← among.split, ← Multiset.coe_add]
      exact Multiset.le_add_right ..
    · rw [count, card]
      simp [Iteration.start]
    · rw [among.more_iff, card, decide_eq_decide, ← List.length_pos_iff]
      omega

theorem hashtableIterator_visits_twoKeys :
    ∃ (m' : HashHeap Nat Nat) (bag : Multiset (Nat × Nat)) (itr : HashItr) (s : Iteration Nat Nat),
      m'.hashtableCount = 2 ∧ m'.hashtableIterator true = some (some itr) ∧
      Transition.exec step (.start m' itr) [.advance, .remove] = some s ∧
      s.passed.length = min 2 bag.card ∧
      ∃ left, s.heap.Holds left ∧ (s.removed : Multiset (Nat × Nat)) + left = bag := by
  obtain ⟨bag, itr, answers, begins, visits⟩ := hashtableIterator_visits beq_keys
    (show HashHeap.createHashtable true true singleLimit 16 UInt32.ofNat _ = some _ from rfl)
    (show Transition.exec HashHeap.step ([], _)
      [.insert ⟨true, true, true⟩ 7 70, .insert ⟨true, true, true⟩ 8 80] = some (_, _) from rfl)
    (by decide)
  obtain rfl := Option.some.inj (Option.some.inj (begins.symm.trans rfl))
  obtain ⟨-, count, -, -, left, holds, balance⟩ := (visits [.advance, .remove]).2 _ rfl
  exact ⟨_, bag, _, _, rfl, begins, rfl, count, left, holds, balance⟩

/-- An iterator that is put on a key stands at the pair a search finds, and to remove it there does to
    the table, and frees, what `hashtable_remove` does. -/
theorem hashtableIteratorSearch_remove (eq : ∀ k k', eqf k k' = true ↔ k = k')
    (created : HashHeap.createHashtable struct table limitOf minsize hashf eqf = some m)
    (run : Transition.exec HashHeap.step ([], m) ops = some (log, m')) (itr : HashItr) (k : K) :
    (m'.hashtableSearch k = some none ∧ m'.hashtableRemove k = some (none, m') ∧
      m'.hashtableIteratorSearch itr k = some (false, itr)) ∨
    ∃ v itr' more next left, m'.hashtableSearch k = some (some v) ∧
      m'.hashtableRemove k = some (some v, left) ∧
      m'.hashtableIteratorSearch itr k = some (true, itr') ∧
      m'.hashtableIteratorKey itr' = some k ∧ m'.hashtableIteratorValue itr' = some v ∧
      m'.hashtableIteratorRemove itr' = some (more, next, left) := by
  obtain ⟨bag, -, ⟨chains, layout, sound, counted, -⟩, -, -⟩ := run_answered eq created run
  rcases iteratorSearch_stands layout sound counted itr k with
    absent | ⟨c, itr', more, next, left, searched, found, cell, key, removed, same⟩
  · exact .inl absent
  · have pair : itr'.e.bind m'.entry = some c.toEntry := by
      have listed : itr'.e.bind m'.entry = (itr'.e.bind m'.cells).map EntryCell.toEntry :=
        (Option.map_bind ..).symm
      rw [listed, cell, Option.map_some]
    refine .inr ⟨c.v, itr', more, next, left, searched, same, found, ?_, ?_, removed⟩
    · rw [hashtableIteratorKey, pair, Option.map_some, key]
    · rw [hashtableIteratorValue, pair, Option.map_some]

/-- The iterator is put behind the front of its bucket. -/
theorem hashtableIteratorSearch_remove_threeKeys :
    ∃ m' : HashHeap Nat Nat, m'.hashtableCount = 2 ∧
      indexFor 53 (m'.hash 1) = indexFor 53 (m'.hash 8) ∧
      ∃ v itr' more next left, m'.hashtableSearch 1 = some (some v) ∧
        m'.hashtableRemove 1 = some (some v, left) ∧
        m'.hashtableIteratorSearch ⟨none, none, 53⟩ 1 = some (true, itr') ∧
        m'.hashtableIteratorKey itr' = some 1 ∧ m'.hashtableIteratorValue itr' = some v ∧
        m'.hashtableIteratorRemove itr' = some (more, next, left) := by
  have found := hashtableIteratorSearch_remove beq_keys
    (show HashHeap.createHashtable true true singleLimit 16 UInt32.ofNat _ = some _ from rfl)
    (show Transition.exec HashHeap.step ([], _)
      [.insert ⟨true, true, true⟩ 7 70, .insert ⟨true, true, true⟩ 1 10,
        .insert ⟨true, true, true⟩ 8 80, .remove 7] = some (_, _) from rfl)
    ⟨none, none, 53⟩ 1
  rcases found with ⟨absent, -⟩ | found
  · cases absent
  · exact ⟨_, rfl, by decide, found⟩

end Iteration

end OpenRpc
