import Mathlib

/-! # The bundled hash table

`hashtable.c`, as far as the registry of services uses it, with allocations that succeed. A key may be
in the table more than once. What matters then is the order in which a search meets its entries: an
insertion puts the new one in front, an expansion turns them round. The limit of a size is a product of
floating-point numbers; what it is rounded to is left open.
-/

namespace OpenRpc

variable {K V : Type}

def primes : List Nat :=
  [ 53, 97, 193, 389,
    769, 1543, 3079, 6151,
    12289, 24593, 49157, 98317,
    196613, 393241, 786433, 1572869,
    3145739, 6291469, 12582917, 25165843,
    50331653, 100663319, 201326611, 402653189,
    805306457, 1610612741 ]

def primeTableLength : Nat := primes.length

/-- `ceil(size * max_load_factor)` without any rounding, with the factor 0.65. -/
def loadLimit (size : Nat) : Nat := (65 * size + 99) / 100

/-- A number rounded to the 24 bits of single precision, to the even one of two that are as near. -/
def roundSingle (n : Nat) : Nat :=
  let unit := 2 ^ (n.log2 - 23)
  let q := n / unit
  let r := n % unit
  (if unit < 2 * r ∨ unit = 2 * r ∧ q % 2 = 1 then q + 1 else q) * unit

/-- `ceil(size * max_load_factor)` where the size and the product are rounded to single precision, in
    which the factor is 10905190 / 2 ^ 24. -/
def singleLimit (size : Nat) : Nat :=
  (roundSingle (roundSingle size * 10905190) + 2 ^ 24 - 1) / 2 ^ 24

example : singleLimit 53 = loadLimit 53 ∧ singleLimit 12582917 + 1 = loadLimit 12582917 := by decide

/-- `struct entry`; `next` is the rest of the bucket's list. -/
structure Entry (K V : Type) where
  k : K
  v : V
  h : UInt32

/-- `struct hashtable`; a bucket is the list of its entries. `limitOf` is no field of the source: what
    the machine computes for `ceil(size * max_load_factor)`. -/
structure Hashtable (K V : Type) where
  limitOf : Nat → Nat
  tablelength : Nat
  table : Nat → List (Entry K V)
  entrycount : Nat
  loadlimit : Nat
  primeindex : Nat
  hashfn : K → UInt32
  eqfn : K → K → Bool

/-- The index of the size `create_hashtable` takes: the first prime above the one asked for. -/
def primeFor (minsize : Nat) : Nat :=
  (primes.findIdx? fun p => decide (minsize < p)).getD primeTableLength

/-- `create_hashtable`; nothing: the size asked for is too large. -/
def createHashtable (limitOf : Nat → Nat) (minsize : Nat) (hashf : K → UInt32) (eqf : K → K → Bool) :
    Option (Hashtable K V) :=
  if 2 ^ 30 < minsize then none
  else
    let pindex := primeFor minsize
    let size := primes.getD pindex 53
    some
      { limitOf := limitOf
        tablelength := size
        table := fun _ => []
        entrycount := 0
        loadlimit := limitOf size
        primeindex := pindex
        hashfn := hashf
        eqfn := eqf }

/-- `hash` of a table with this hash function. -/
def hashWith (hashfn : K → UInt32) (k : K) : UInt32 :=
  let i := hashfn k
  let i := i + ~~~(i <<< 9)
  let i := i ^^^ ((i >>> 14) ||| (i <<< 18))
  let i := i + (i <<< 4)
  i ^^^ ((i >>> 10) ||| (i <<< 22))

def hash (h : Hashtable K V) (k : K) : UInt32 := hashWith h.hashfn k

def indexFor (tablelength : Nat) (hashvalue : UInt32) : Nat := hashvalue.toNat % tablelength

/-- Put an entry in front of its bucket. -/
def link (size : Nat) (e : Entry K V) (table : Nat → List (Entry K V)) : Nat → List (Entry K V) :=
  Function.update table (indexFor size e.h) (e :: table (indexFor size e.h))

/-- The inner loop of `hashtable_expand`: a bucket is emptied from its head on. -/
def moveBucket (newsize : Nat) : List (Entry K V) → (Nat → List (Entry K V)) → Nat → List (Entry K V)
  | [], newtable => newtable
  | e :: next, newtable => moveBucket newsize next (link newsize e newtable)

/-- The loop over the buckets `i`, `i + 1`, … -/
def moveBuckets (newsize : Nat) (table : Nat → List (Entry K V)) :
    List Nat → (Nat → List (Entry K V)) → Nat → List (Entry K V)
  | [], newtable => newtable
  | i :: rest, newtable => moveBuckets newsize table rest (moveBucket newsize (table i) newtable)

def hashtableExpand (h : Hashtable K V) : Hashtable K V :=
  if h.primeindex = primeTableLength - 1 then h
  else
    let newsize := primes.getD (h.primeindex + 1) 53
    { h with
      primeindex := h.primeindex + 1
      table := moveBuckets newsize h.table (List.range h.tablelength) fun _ => []
      tablelength := newsize
      loadlimit := h.limitOf newsize }

/-- `++entrycount`, on an `unsigned int`. -/
def countEntry (h : Hashtable K V) : Hashtable K V :=
  { h with entrycount := (h.entrycount + 1) % 2 ^ 32 }

def hashtableInsert (h : Hashtable K V) (k : K) (v : V) : Hashtable K V :=
  let h := countEntry h
  let h := if h.loadlimit < h.entrycount then hashtableExpand h else h
  { h with table := link h.tablelength ⟨k, v, hash h k⟩ h.table }

/-- The entry is one that a search for the key stops at. -/
def matchesKey (h : Hashtable K V) (k : K) (e : Entry K V) : Bool :=
  hash h k == e.h && h.eqfn k e.k

/-- `hashtable_search`; nothing: NULL. -/
def hashtableSearch (h : Hashtable K V) (k : K) : Option V :=
  ((h.table (indexFor h.tablelength (hash h k))).find? (matchesKey h k)).map Entry.v

namespace Hashtable

/-- The values of a key, in the order of the search. -/
def found (h : Hashtable K V) (k : K) : List V :=
  ((h.table (indexFor h.tablelength (hash h k))).filter (matchesKey h k)).map Entry.v

theorem search_found (h : Hashtable K V) (k : K) : hashtableSearch h k = (h.found k).head? := by
  rw [hashtableSearch, found, List.head?_map, List.head?_filter]

/-- Keys are compared for equality, and every entry is in the bucket of its hash value. -/
structure Placed (h : Hashtable K V) : Prop where
  eqfn : ∀ k k', h.eqfn k k' = true ↔ k = k'
  bucket : ∀ i, ∀ e ∈ h.table i, indexFor h.tablelength e.h = i
  positive : 0 < h.tablelength

/-- The size of the table is the prime of its index, and the limit that of its size. -/
structure Sized (h : Hashtable K V) : Prop where
  index : h.primeindex < primeTableLength
  length : h.tablelength = primes.getD h.primeindex 53
  limit : h.loadlimit = h.limitOf h.tablelength

end Hashtable

section Moving

variable {size : Nat} {table newtable : Nat → List (Entry K V)} {hashvalue : UInt32}
  {p : Entry K V → Bool}

theorem link_bucket {e : Entry K V} (placed : ∀ i, ∀ x ∈ table i, indexFor size x.h = i) :
    ∀ i, ∀ x ∈ link size e table i, indexFor size x.h = i := by
  intro i x member
  by_cases here : i = indexFor size e.h
  · rw [link, here, Function.update_self] at member
    cases member with
    | head => exact here.symm
    | tail _ older => exact (placed _ x older).trans here.symm
  · rw [link, Function.update_of_ne here] at member
    exact placed i x member

theorem moveBucket_bucket {es : List (Entry K V)}
    (placed : ∀ i, ∀ x ∈ newtable i, indexFor size x.h = i) :
    ∀ i, ∀ x ∈ moveBucket size es newtable i, indexFor size x.h = i := by
  induction es generalizing newtable with
  | nil => exact placed
  | cons e es ih => exact ih (link_bucket placed)

theorem moveBuckets_bucket {is : List Nat} (placed : ∀ i, ∀ x ∈ newtable i, indexFor size x.h = i) :
    ∀ i, ∀ x ∈ moveBuckets size table is newtable i, indexFor size x.h = i := by
  induction is generalizing newtable with
  | nil => exact placed
  | cons i is ih => exact ih (moveBucket_bucket placed)

/-- Linking an entry changes, of what a predicate picks from a bucket, at most the front. -/
theorem link_filter (e : Entry K V) (pick : ∀ x, p x = true → x.h = hashvalue) :
    (link size e table (indexFor size hashvalue)).filter p =
      [e].filter p ++ (table (indexFor size hashvalue)).filter p := by
  by_cases here : indexFor size hashvalue = indexFor size e.h
  · rw [link, here, Function.update_self]
    exact List.filter_append [e] _
  · have missed : p e = false := by
      apply Bool.eq_false_iff.mpr
      intro picked
      exact here (by rw [pick e picked])
    rw [link, Function.update_of_ne here, List.filter_cons_of_neg (by rw [missed]; decide)]
    rfl

theorem moveBucket_filter (es : List (Entry K V)) (pick : ∀ x, p x = true → x.h = hashvalue) :
    (moveBucket size es newtable (indexFor size hashvalue)).filter p =
      (es.filter p).reverse ++ (newtable (indexFor size hashvalue)).filter p := by
  induction es generalizing newtable with
  | nil => rfl
  | cons e es ih =>
      have split : (e :: es).filter p = [e].filter p ++ es.filter p := List.filter_append [e] es
      have single : ([e].filter p).reverse = [e].filter p := by
        cases picked : p e <;> simp [picked]
      rw [moveBucket, ih, link_filter e pick, split, List.reverse_append, single, List.append_assoc]

theorem moveBuckets_skip {is : List Nat} (pick : ∀ x, p x = true → x.h = hashvalue)
    (nothing : ∀ i ∈ is, (table i).filter p = []) :
    (moveBuckets size table is newtable (indexFor size hashvalue)).filter p =
      (newtable (indexFor size hashvalue)).filter p := by
  induction is generalizing newtable with
  | nil => rfl
  | cons i is ih =>
      rw [moveBuckets, ih (fun j later => nothing j (.tail i later)), moveBucket_filter _ pick,
        nothing i List.mem_cons_self]
      rfl

theorem moveBuckets_append (is js : List Nat) :
    moveBuckets size table (is ++ js) newtable =
      moveBuckets size table js (moveBuckets size table is newtable) := by
  induction is generalizing newtable with
  | nil => rfl
  | cons i is ih => exact ih

/-- What the predicate picks from one bucket arrives in one bucket, turned round. -/
theorem moveBuckets_filter {old n : Nat} (pick : ∀ x, p x = true → x.h = hashvalue)
    (placed : ∀ i, ∀ x ∈ table i, indexFor old x.h = i) (inside : indexFor old hashvalue < n) :
    (moveBuckets size table (List.range n) (fun _ => []) (indexFor size hashvalue)).filter p =
      ((table (indexFor old hashvalue)).filter p).reverse := by
  have elsewhere : ∀ i, i ≠ indexFor old hashvalue → (table i).filter p = [] := by
    intro i other
    apply List.filter_eq_nil_iff.mpr
    intro x member picked
    exact other (by rw [← placed i x member, pick x picked])
  obtain ⟨before, after, split⟩ := List.append_of_mem (List.mem_range.mpr inside)
  have once : (before ++ indexFor old hashvalue :: after).Nodup := split ▸ List.nodup_range
  have apart := List.nodup_middle.mp once
  have absent : indexFor old hashvalue ∉ before ++ after := (List.nodup_cons.mp apart).1
  have skip_before : ∀ i ∈ before, (table i).filter p = [] := by
    intro i member
    exact elsewhere i fun same => absent (List.mem_append_left after (same ▸ member))
  have skip_after : ∀ i ∈ after, (table i).filter p = [] := by
    intro i member
    exact elsewhere i fun same => absent (List.mem_append_right before (same ▸ member))
  rw [split, moveBuckets_append, moveBuckets, moveBuckets_skip pick skip_after,
    moveBucket_filter _ pick, moveBuckets_skip pick skip_before]
  exact List.append_nil _

end Moving

namespace Hashtable

variable {h : Hashtable K V}

theorem Placed.inside (placed : h.Placed) (hashvalue : UInt32) :
    indexFor h.tablelength hashvalue < h.tablelength := Nat.mod_lt _ placed.positive

theorem matchesKey_hash {k : K} {e : Entry K V} (same : matchesKey h k e = true) :
    e.h = hash h k :=
  (eq_of_beq (Bool.and_eq_true_iff.mp same).1).symm

theorem getD_primes_pos (i : Nat) : 0 < primes.getD i 53 := by
  by_cases inside : i < primes.length
  · have all : ∀ p ∈ primes, 0 < p := by decide
    rw [List.getD_eq_getElem _ _ inside]
    exact all _ (List.getElem_mem inside)
  · rw [List.getD_eq_default _ _ (by omega)]
    decide

theorem expand_spec (placed : h.Placed) (below : h.primeindex + 1 < primeTableLength) :
    (hashtableExpand h).Placed ∧
      (hashtableExpand h).primeindex = h.primeindex + 1 ∧
      (hashtableExpand h).entrycount = h.entrycount ∧
      (hashtableExpand h).Sized ∧
      ∀ k, (hashtableExpand h).found k = (h.found k).reverse := by
  have expands : ¬h.primeindex = primeTableLength - 1 := by omega
  rw [hashtableExpand, if_neg expands]
  refine ⟨⟨placed.eqfn, ?_, getD_primes_pos _⟩, rfl, rfl, ⟨below, rfl, rfl⟩, fun k => ?_⟩
  · apply moveBuckets_bucket
    intro i x member
    cases member
  · have picks : ∀ x, matchesKey h k x = true → x.h = hash h k := fun x same => matchesKey_hash same
    exact (congrArg (List.map Entry.v) (moveBuckets_filter picks placed.bucket (placed.inside _))).trans
      List.map_reverse

theorem expand_limitOf (h : Hashtable K V) : (hashtableExpand h).limitOf = h.limitOf := by
  unfold hashtableExpand
  split <;> rfl

theorem expand_last (last : h.primeindex + 1 = primeTableLength) : hashtableExpand h = h := by
  rw [hashtableExpand, if_pos (by omega)]

theorem link_found (placed : h.Placed) (k : K) (v : V) [DecidableEq K] :
    let h' := { h with table := link h.tablelength ⟨k, v, hash h k⟩ h.table }
    h'.Placed ∧ ∀ k', h'.found k' = if k' = k then v :: h.found k' else h.found k' := by
  refine ⟨⟨placed.eqfn, link_bucket placed.bucket, placed.positive⟩, fun k' => ?_⟩
  have picks : ∀ x, matchesKey h k' x = true → x.h = hash h k' := fun x same => matchesKey_hash same
  refine (congrArg (List.map Entry.v) (link_filter ⟨k, v, hash h k⟩ picks)).trans ?_
  split
  · rename_i same
    cases same
    have picked : matchesKey h k ⟨k, v, hash h k⟩ = true := by
      simp only [matchesKey, beq_self_eq_true, Bool.true_and]
      exact (placed.eqfn k k).mpr rfl
    rw [List.filter_cons_of_pos picked]
    rfl
  · rename_i other
    have missed : ¬matchesKey h k' ⟨k, v, hash h k⟩ = true := by
      intro picked
      exact other ((placed.eqfn k' k).mp (Bool.and_eq_true_iff.mp picked).2)
    rw [List.filter_cons_of_neg missed]
    rfl

end Hashtable

section Limits

/-- How many of the limits are below a count. -/
def passed (limits : List Nat) (n : Nat) : Nat := limits.countP fun limit => decide (limit < n)

variable {limits : List Nat} {n limit : Nat}

theorem passed_cons_pos (below : limit < n) : passed (limit :: limits) n = passed limits n + 1 := by
  rw [passed, List.countP_cons, if_pos (decide_eq_true below)]
  rfl

theorem passed_cons_neg (above : n ≤ limit) : passed (limit :: limits) n = passed limits n := by
  rw [passed, List.countP_cons, if_neg (by rw [decide_eq_true_eq]; omega)]
  rfl

theorem passed_none (above : ∀ limit ∈ limits, n ≤ limit) : passed limits n = 0 := by
  apply List.countP_eq_zero.mpr
  intro limit member below
  have := above limit member
  have := of_decide_eq_true below
  omega

theorem le_of_passed (sorted : limits.Pairwise (· < ·)) (next : limits[passed limits n]? = some limit) :
    n ≤ limit := by
  induction sorted with
  | nil => cases next
  | @cons a limits larger sorted ih =>
      by_cases below : a < n
      · rw [passed_cons_pos below] at next
        exact ih next
      · have above : ∀ x ∈ limits, n ≤ x := fun x member => by
          have := larger x member
          omega
        rw [passed_cons_neg (by omega), passed_none above] at next
        cases next
        omega

/-- Counting on passes the next limit if the count has reached it, and no other one. -/
theorem passed_succ (sorted : limits.Pairwise (· < ·)) (n : Nat) :
    passed limits (n + 1) =
      if limits[passed limits n]? = some n then passed limits n + 1 else passed limits n := by
  induction sorted with
  | nil => rfl
  | @cons a limits larger sorted ih =>
      by_cases below : a < n
      · rw [passed_cons_pos below, passed_cons_pos (Nat.lt_succ_of_lt below),
          List.getElem?_cons_succ, ih]
        split <;> rfl
      · have above : ∀ x ∈ limits, n + 1 ≤ x := fun x member => by
          have := larger x member
          omega
        rw [passed_cons_neg (Nat.not_lt.mp below),
          passed_none fun x member => Nat.le_of_succ_le (above x member), List.getElem?_cons_zero]
        by_cases here : a = n
        · rw [passed_cons_pos (by omega : a < n + 1), passed_none above, if_pos (congrArg some here)]
        · rw [passed_cons_neg (by omega : n + 1 ≤ a), passed_none above,
            if_neg (fun same => here (Option.some.inj same))]

end Limits

/-- The counts beyond which an insertion expands the table, from the smallest size on. -/
def expandLimits : List Nat := primes.dropLast.map loadLimit

/-- How often the table has expanded when it has taken so many insertions. -/
def expansions (n : Nat) : Nat := passed expandLimits n

theorem expandLimits_sorted : expandLimits.Pairwise (· < ·) := by decide

theorem expansions_le (n : Nat) : expansions n ≤ 25 := List.countP_le_length

theorem expansions_succ (n : Nat) :
    expansions (n + 1) = expansions n + 1 ∨ expansions (n + 1) = expansions n := by
  have next := passed_succ expandLimits_sorted n
  split at next
  · exact .inl next
  · exact .inr next

theorem expansions_mono {m n : Nat} (le : m ≤ n) : expansions m ≤ expansions n :=
  monotone_nat_of_le_succ (fun k => by have := expansions_succ k; omega) le

theorem expandLimits_get {i : Nat} (below : i < 25) :
    expandLimits[i]? = some (loadLimit (primes.getD i 53)) := by
  interval_cases i <;> rfl

namespace Hashtable

variable {h : Hashtable K V}

/-- The table after `n` insertions, with limits that are not rounded. -/
structure Filled (h : Hashtable K V) (n : Nat) : Prop where
  limits : h.limitOf = loadLimit
  placed : h.Placed
  sized : h.Sized
  stage : h.primeindex = expansions n
  count : h.entrycount = n % 2 ^ 32

/-- The list after a number of reversals. -/
def turned (times : Nat) (values : List V) : List V :=
  if Even times then values else values.reverse

@[simp]
theorem turned_zero (values : List V) : turned 0 values = values := if_pos Even.zero

@[simp]
theorem turned_one (values : List V) : turned 1 values = values.reverse := if_neg Nat.not_even_one

theorem expand_iff {n : Nat} (filled : h.Filled n) :
    (h.loadlimit < (countEntry h).entrycount ∧ h.primeindex + 1 < primeTableLength) ↔
      expansions (n + 1) = expansions n + 1 := by
  have last : primeTableLength = 26 := rfl
  have stage := filled.stage
  have count : (countEntry h).entrycount = (n % 2 ^ 32 + 1) % 2 ^ 32 :=
    congrArg (fun c => (c + 1) % 2 ^ 32) filled.count
  have limit : h.loadlimit = loadLimit (primes.getD (expansions n) 53) := by
    rw [filled.sized.limit, filled.limits, filled.sized.length, stage]
  have le := expansions_le n
  have next : expansions (n + 1) =
      if expandLimits[expansions n]? = some n then expansions n + 1 else expansions n :=
    passed_succ expandLimits_sorted n
  by_cases below : expansions n < 25
  · have atLimit := expandLimits_get below
    have reached : n ≤ loadLimit (primes.getD (expansions n) 53) :=
      le_of_passed expandLimits_sorted atLimit
    have small : loadLimit (primes.getD (expansions n) 53) < 2 ^ 31 := by
      have all : ∀ l ∈ expandLimits, l < 2 ^ 31 := by decide
      exact all _ (List.mem_of_getElem? atLimit)
    rw [next, count, limit, stage]
    simp only [atLimit, Option.some.injEq]
    split <;> omega
  · have beyond : expandLimits[expansions n]? = none := List.getElem?_eq_none (by
      change 25 ≤ expansions n
      omega)
    rw [next, stage]
    simp only [beyond, reduceCtorEq, if_false]
    omega

theorem grow_spec {n : Nat} (filled : h.Filled n) :
    let grown := if h.loadlimit < (countEntry h).entrycount then hashtableExpand (countEntry h)
      else countEntry h
    grown.Filled (n + 1) ∧
      ∀ k, grown.found k = turned (expansions (n + 1) - expansions n) (h.found k) := by
  have count : (countEntry h).entrycount = (n + 1) % 2 ^ 32 := by
    simp only [countEntry, filled.count]
    omega
  have placed : (countEntry h).Placed :=
    ⟨filled.placed.eqfn, filled.placed.bucket, filled.placed.positive⟩
  have sized : (countEntry h).Sized := ⟨filled.sized.index, filled.sized.length, filled.sized.limit⟩
  have expands := expand_iff filled
  rcases expansions_succ n with more | same
  · obtain ⟨beyond, below⟩ := expands.mpr more
    obtain ⟨placed', index, kept, sized', reversed⟩ := expand_spec placed below
    simp only [if_pos beyond]
    refine ⟨⟨?_, placed', sized', ?_, kept.trans count⟩, fun k => ?_⟩
    · rw [expand_limitOf]
      exact filled.limits
    · rw [index, more]
      exact congrArg (· + 1) filled.stage
    · rw [more, Nat.add_sub_cancel_left]
      exact reversed k
  · have stays : (if h.loadlimit < (countEntry h).entrycount then hashtableExpand (countEntry h)
        else countEntry h) = countEntry h := by
      split
      · rename_i beyond
        have last : ¬h.primeindex + 1 < primeTableLength := fun below => by
          have := expands.mp ⟨beyond, below⟩
          omega
        exact expand_last (Nat.le_antisymm sized.index (Nat.not_lt.mp last))
      · rfl
    simp only [stays]
    refine ⟨⟨filled.limits, placed, sized, filled.stage.trans same.symm, count⟩, fun k => ?_⟩
    rw [same, Nat.sub_self]
    rfl

theorem insert_spec [DecidableEq K] {n : Nat} (filled : h.Filled n) (k : K) (v : V) :
    (hashtableInsert h k v).Filled (n + 1) ∧
      ∀ k', (hashtableInsert h k v).found k' =
        let older := turned (expansions (n + 1) - expansions n) (h.found k')
        if k' = k then v :: older else older := by
  obtain ⟨grown, turns⟩ := grow_spec filled
  obtain ⟨placed, front⟩ := link_found grown.placed k v
  refine ⟨⟨grown.limits, placed, ⟨grown.sized.index, grown.sized.length, grown.sized.limit⟩, grown.stage,
    grown.count⟩, fun k' => ?_⟩
  rw [← turns k']
  exact front k'

end Hashtable

end OpenRpc
