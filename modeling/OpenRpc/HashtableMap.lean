import OpenRpc.Hashtable
import OpenRpc.Lib.Bag

/-! # The hash table as a bag

`hashtable_insert` with allocations that may fail, `hashtable_remove` and `hashtable_count`, over the
buckets as lists, and what all of them do to the bag of pairs that the table holds. A bucket is searched
under the hash value of the key, so the entries have to be where their hash values say.
-/

namespace OpenRpc

variable {K V : Type}

/-- Which allocations of an insertion succeed: the new table, the old one made larger instead, the
    entry. -/
structure Allocs where
  newtable : Bool
  realloc : Bool
  entry : Bool
  deriving Repr, DecidableEq

namespace Hashtable

/-- `--entrycount`, on an `unsigned int`. -/
def uncountEntry (h : Hashtable K V) : Hashtable K V :=
  { h with entrycount := if h.entrycount = 0 then 2 ^ 32 - 1 else h.entrycount - 1 }

/-- The table an insertion links its entry into. -/
def expandFor (newtable : Bool) (h : Hashtable K V) : Hashtable K V :=
  if h.loadlimit < h.entrycount ∧ newtable = true then hashtableExpand h else h

/-- An insertion that links its entry into the table, or has none to link. -/
def insertFor (allocs : Allocs) (h : Hashtable K V) (k : K) (v : V) : Bool × Hashtable K V :=
  let h := expandFor allocs.newtable (countEntry h)
  if allocs.entry then (true, { h with table := link h.tablelength ⟨k, v, hash h k⟩ h.table })
  else (false, h.uncountEntry)

theorem insertFor_all (realloc : Bool) (h : Hashtable K V) (k : K) (v : V) :
    h.insertFor ⟨true, realloc, true⟩ k v = (true, hashtableInsert h k v) := by
  simp only [insertFor, expandFor, hashtableInsert, and_true, if_true]

/-- The table with one entry less, of which this is left of its bucket. -/
def unlink (h : Hashtable K V) (i : Nat) (left : List (Entry K V)) : Hashtable K V :=
  { h with table := Function.update h.table i left }.uncountEntry

/-- A removal on the buckets as lists. -/
def removeFor (h : Hashtable K V) (k : K) : Option V × Hashtable K V :=
  let index := indexFor h.tablelength (hash h k)
  match (h.table index).find? (matchesKey h k) with
  | none => (none, h)
  | some e => (some e.v, h.unlink index ((h.table index).eraseP (matchesKey h k)))

/-- The entries, bucket by bucket. -/
def entries (h : Hashtable K V) : List (Entry K V) := (List.range h.tablelength).flatMap h.table

theorem uncountEntry_count {h : Hashtable K V} {n : Nat} (count : h.entrycount = (n + 1) % 2 ^ 32) :
    h.uncountEntry.entrycount = n % 2 ^ 32 := by
  simp only [uncountEntry]
  split <;> omega

/-- The pairs the table holds. -/
def bag (h : Hashtable K V) : Multiset (K × V) := h.entries.map fun e => (e.k, e.v)

theorem bag_keys (h : Hashtable K V) : h.bag.map Prod.fst = (h.entries.map Entry.k : List K) :=
  congrArg Multiset.ofList List.map_map

theorem bag_values (h : Hashtable K V) : h.bag.map Prod.snd = (h.entries.map Entry.v : List V) :=
  congrArg Multiset.ofList List.map_map

/-- What every table has that is used through these operations only. -/
structure Sound (h : Hashtable K V) : Prop where
  placed : h.Placed
  hashed : ∀ i, ∀ e ∈ h.table i, e.h = hash h e.k
  sized : h.Sized

/-- `entrycount` is the number of entries, as far as an `unsigned int` can count. -/
def Counted (h : Hashtable K V) : Prop := h.entrycount = h.entries.length % 2 ^ 32

end Hashtable

section Buckets

variable {table newtable table' : Nat → List (Entry K V)} {size : Nat} {is : List Nat}

theorem mem_link {e x : Entry K V} {i : Nat} (member : x ∈ link size e table i) :
    x = e ∨ x ∈ table i := by
  rw [link, Function.update_apply] at member
  split at member
  · rename_i here
    rw [here]
    exact List.mem_cons.mp member
  · exact .inr member

theorem flatMap_gains {i : Nat} {e : Entry K V} (once : is.Nodup) (member : i ∈ is)
    (here : (table' i).Perm (e :: table i)) (others : ∀ j, j ≠ i → table' j = table j) :
    (is.flatMap table').Perm (e :: is.flatMap table) := by
  obtain ⟨before, after, rfl⟩ := List.append_of_mem member
  obtain ⟨absent, -⟩ := List.nodup_cons.mp (List.nodup_middle.mp once)
  have same : ∀ js : List Nat, i ∉ js → js.flatMap table' = js.flatMap table := by
    intro js apart
    refine List.flatMap_congr fun j inside => others j ?_
    rintro rfl
    exact apart inside
  simp only [List.flatMap_append, List.flatMap_cons]
  rw [same before fun inside => absent (List.mem_append_left _ inside),
    same after fun inside => absent (List.mem_append_right _ inside)]
  exact ((here.append_right _).append_left _).trans List.perm_middle

theorem link_perm (e : Entry K V) (positive : 0 < size) :
    ((List.range size).flatMap (link size e table)).Perm (e :: (List.range size).flatMap table) := by
  have inside : indexFor size e.h ∈ List.range size := List.mem_range.mpr (Nat.mod_lt _ positive)
  apply flatMap_gains List.nodup_range inside
  · rw [link, Function.update_self]
  · exact fun j other => Function.update_of_ne other ..

theorem moveBucket_perm (es : List (Entry K V)) (positive : 0 < size) :
    ((List.range size).flatMap (moveBucket size es newtable)).Perm
      (es ++ (List.range size).flatMap newtable) := by
  induction es generalizing newtable with
  | nil => exact .rfl
  | cons e es ih =>
      refine (ih.trans ?_).trans List.perm_middle
      exact (link_perm e positive).append_left es

theorem moveBuckets_perm (is : List Nat) (positive : 0 < size) :
    ((List.range size).flatMap (moveBuckets size table is newtable)).Perm
      (is.flatMap table ++ (List.range size).flatMap newtable) := by
  induction is generalizing newtable with
  | nil => exact .rfl
  | cons i is ih =>
      rw [List.flatMap_cons]
      refine (ih.trans ((moveBucket_perm (table i) positive).append_left _)).trans ?_
      rw [← List.append_assoc]
      exact List.perm_append_comm.append_right _

theorem moveBuckets_congr (same : ∀ i ∈ is, table' i = table i) :
    moveBuckets size table' is newtable = moveBuckets size table is newtable := by
  induction is generalizing newtable with
  | nil => rfl
  | cons i is ih =>
      rw [moveBuckets, moveBuckets, same i List.mem_cons_self]
      exact ih fun j member => same j (List.mem_cons_of_mem i member)

end Buckets

namespace Hashtable

variable {h : Hashtable K V} {k : K} {v : V}

theorem mem_entries (placed : h.Placed) {e : Entry K V} : e ∈ h.entries ↔ ∃ i, e ∈ h.table i := by
  rw [entries, List.mem_flatMap]
  constructor
  · rintro ⟨i, -, member⟩
    exact ⟨i, member⟩
  · rintro ⟨i, member⟩
    refine ⟨i, List.mem_range.mpr ?_, member⟩
    rw [← placed.bucket i e member]
    exact placed.inside _

theorem mem_bag (placed : h.Placed) : (k, v) ∈ h.bag ↔ ∃ i, ∃ e ∈ h.table i, e.k = k ∧ e.v = v := by
  have pair : (k, v) ∈ h.bag ↔ ∃ e ∈ h.entries, (e.k, e.v) = (k, v) := by
    rw [bag, Multiset.mem_coe, List.mem_map]
  rw [pair]
  constructor
  · rintro ⟨e, member, same⟩
    obtain ⟨i, there⟩ := (mem_entries placed).mp member
    exact ⟨i, e, there, congrArg Prod.fst same, congrArg Prod.snd same⟩
  · rintro ⟨i, e, there, rfl, rfl⟩
    exact ⟨e, (mem_entries placed).mpr ⟨i, there⟩, rfl⟩

theorem Sound.matches_iff (sound : h.Sound) {i : Nat} {e : Entry K V} (member : e ∈ h.table i) :
    matchesKey h k e = true ↔ e.k = k := by
  rw [matchesKey, Bool.and_eq_true, beq_iff_eq, sound.placed.eqfn, sound.hashed i e member]
  constructor
  · exact fun same => same.2.symm
  · rintro rfl
    exact ⟨rfl, rfl⟩

theorem Sound.bucket_of (sound : h.Sound) {i : Nat} {e : Entry K V} (member : e ∈ h.table i) :
    indexFor h.tablelength (hash h e.k) = i := by
  rw [← sound.hashed i e member]
  exact sound.placed.bucket i e member

theorem Sound.absent (sound : h.Sound)
    (none_matches : (h.table (indexFor h.tablelength (hash h k))).find? (matchesKey h k) = none) (v : V) :
    (k, v) ∉ h.bag := by
  intro member
  obtain ⟨i, e, there, rfl, -⟩ := (mem_bag sound.placed).mp member
  have here := sound.bucket_of there
  have missed := List.find?_eq_none.mp none_matches e (by rwa [here])
  exact missed ((sound.matches_iff there).mpr rfl)

theorem Sound.present (sound : h.Sound) {e : Entry K V}
    (found : (h.table (indexFor h.tablelength (hash h k))).find? (matchesKey h k) = some e) :
    e ∈ h.table (indexFor h.tablelength (hash h k)) ∧ e.k = k := by
  have member := List.mem_of_find?_eq_some found
  exact ⟨member, (sound.matches_iff member).mp (List.find?_some found)⟩

theorem Sound.search (sound : h.Sound) (k : K) :
    Bag.Step (2 ^ 32) h.bag (.get k) (.value (hashtableSearch h k)) h.bag := by
  rw [hashtableSearch]
  cases found : (h.table (indexFor h.tablelength (hash h k))).find? (matchesKey h k) with
  | none => exact .missing (sound.absent found)
  | some e =>
      obtain ⟨member, key⟩ := sound.present found
      exact .found ((mem_bag sound.placed).mpr ⟨_, e, member, key, rfl⟩)

theorem removeFor_found {i : Nat} {e : Entry K V} {before after : List (Entry K V)}
    (index : indexFor h.tablelength (hash h k) = i) (split : h.table i = before ++ e :: after)
    (missed : ∀ x ∈ before, ¬matchesKey h k x = true) (stops : matchesKey h k e = true) :
    h.removeFor k = (some e.v, h.unlink i (before ++ after)) := by
  have found : (before ++ e :: after).find? (matchesKey h k) = some e :=
    List.find?_eq_some_iff_append.mpr ⟨stops, before, after, rfl, by simpa using missed⟩
  have erased : (before ++ e :: after).eraseP (matchesKey h k) = before ++ after := by
    rw [List.eraseP_append_right _ missed, List.eraseP_cons_of_pos stops]
  simp only [removeFor, index, split, found, erased]

theorem removeFor_cases (h : Hashtable K V) (k : K) :
    ((h.table (indexFor h.tablelength (hash h k))).find? (matchesKey h k) = none ∧
      h.removeFor k = (none, h)) ∨
    ∃ before e after, h.table (indexFor h.tablelength (hash h k)) = before ++ e :: after ∧
      (h.table (indexFor h.tablelength (hash h k))).find? (matchesKey h k) = some e ∧
      h.removeFor k = (some e.v, h.unlink (indexFor h.tablelength (hash h k)) (before ++ after)) := by
  cases found : (h.table (indexFor h.tablelength (hash h k))).find? (matchesKey h k) with
  | none => exact .inl ⟨rfl, by simp only [removeFor, found]⟩
  | some e =>
      obtain ⟨stops, before, after, split, missed⟩ := List.find?_eq_some_iff_append.mp found
      exact .inr ⟨before, e, after, split, rfl,
        removeFor_found rfl split (fun x member => by simpa using missed x member) stops⟩

theorem unlink_spec (sound : h.Sound) (counted : h.Counted) {i : Nat} {before after : List (Entry K V)}
    {e : Entry K V} (here : h.table i = before ++ e :: after) :
    (h.unlink i (before ++ after)).Sound ∧ (h.unlink i (before ++ after)).Counted ∧
      h.entries.Perm (e :: (h.unlink i (before ++ after)).entries) := by
  have member : e ∈ h.table i := by simp [here]
  have fewer : ∀ j x, x ∈ (h.unlink i (before ++ after)).table j → x ∈ h.table j := by
    intro j x inside
    simp only [unlink, uncountEntry, Function.update_apply] at inside
    split at inside
    · rename_i same
      rw [same, here]
      rw [List.mem_append] at inside ⊢
      exact inside.imp_right (List.mem_cons_of_mem e)
    · exact inside
  have perm : h.entries.Perm (e :: (h.unlink i (before ++ after)).entries) := by
    refine flatMap_gains (i := i) List.nodup_range (List.mem_range.mpr ?_) ?_ fun j other => ?_
    · rw [← sound.placed.bucket i e member]
      exact sound.placed.inside _
    · simp only [unlink, uncountEntry, Function.update_self, here]
      exact List.perm_middle
    · exact (Function.update_of_ne other ..).symm
  refine ⟨⟨⟨sound.placed.eqfn, fun j x inside => ?_, sound.placed.positive⟩, fun j x inside => ?_,
    ⟨sound.sized.index, sound.sized.length, sound.sized.limit⟩⟩, ?_, perm⟩
  · exact sound.placed.bucket j x (fewer j x inside)
  · exact sound.hashed j x (fewer j x inside)
  · have length := perm.length_eq
    rw [List.length_cons] at length
    rw [Counted, length] at counted
    exact uncountEntry_count counted

theorem Sound.remove (sound : h.Sound) (counted : h.Counted) (k : K) :
    (h.removeFor k).2.Sound ∧ (h.removeFor k).2.Counted ∧
      Bag.Step (2 ^ 32) h.bag (.take k) (.value (h.removeFor k).1) (h.removeFor k).2.bag := by
  rcases removeFor_cases h k with ⟨found, removed⟩ | ⟨before, e, after, split, found, removed⟩
  · rw [removed]
    exact ⟨sound, counted, .nothing (sound.absent found)⟩
  · obtain ⟨sound', counted', perm⟩ := unlink_spec sound counted split
    obtain ⟨-, rfl⟩ := sound.present found
    rw [removed]
    exact ⟨sound', counted', .taken (Multiset.coe_eq_coe.mpr (perm.map _))⟩

theorem expandFor_spec (sound : h.Sound) (newtable : Bool) :
    (expandFor newtable h).Sound ∧ (expandFor newtable h).entries.Perm h.entries ∧
      (expandFor newtable h).entrycount = h.entrycount := by
  unfold expandFor
  split
  · have index := sound.sized.index
    by_cases below : h.primeindex + 1 < primeTableLength
    · obtain ⟨placed, -, kept, sized, -⟩ := expand_spec sound.placed below
      have perm : (hashtableExpand h).entries.Perm h.entries := by
        have expands : ¬h.primeindex = primeTableLength - 1 := by omega
        rw [hashtableExpand, if_neg expands]
        have nothing : ∀ n, (List.range n).flatMap (fun _ => ([] : List (Entry K V))) = [] := by simp
        have moved := @moveBuckets_perm K V h.table (fun _ => []) _ (List.range h.tablelength)
          (getD_primes_pos (h.primeindex + 1))
        rwa [nothing, List.append_nil] at moved
      have hashes : ∀ k, hash (hashtableExpand h) k = hash h k := by
        intro k
        unfold hashtableExpand
        split <;> rfl
      refine ⟨⟨placed, fun i x member => ?_, sized⟩, perm, kept⟩
      obtain ⟨j, there⟩ := (mem_entries sound.placed).mp
        (perm.mem_iff.mp ((mem_entries placed).mpr ⟨i, member⟩))
      rw [hashes]
      exact sound.hashed j x there
    · rw [expand_last (by omega)]
      exact ⟨sound, .rfl, rfl⟩
  · exact ⟨sound, .rfl, rfl⟩

theorem Sound.recount (sound : h.Sound) (n : Nat) : Sound { h with entrycount := n } :=
  ⟨⟨sound.placed.eqfn, sound.placed.bucket, sound.placed.positive⟩, sound.hashed,
    ⟨sound.sized.index, sound.sized.length, sound.sized.limit⟩⟩

theorem uncount_spec (sound : h.Sound) (count : h.entrycount = (h.entries.length + 1) % 2 ^ 32) :
    h.uncountEntry.Sound ∧ h.uncountEntry.Counted ∧ h.uncountEntry.bag = h.bag := by
  refine ⟨sound.recount _, ?_, rfl⟩
  exact uncountEntry_count count

theorem link_spec (sound : h.Sound) (k : K) (v : V)
    (count : h.entrycount = (h.entries.length + 1) % 2 ^ 32) :
    let h' := { h with table := link h.tablelength ⟨k, v, hash h k⟩ h.table }
    h'.Sound ∧ h'.Counted ∧ h'.bag = (k, v) ::ₘ h.bag := by
  intro h'
  have linked : h'.entries.Perm (⟨k, v, hash h k⟩ :: h.entries) := link_perm _ sound.placed.positive
  have kept : h'.entrycount = h.entrycount := rfl
  have more := linked.length_eq
  rw [List.length_cons] at more
  refine ⟨⟨⟨sound.placed.eqfn, link_bucket sound.placed.bucket, sound.placed.positive⟩,
    fun i x member => ?_, sound.sized.index, sound.sized.length, sound.sized.limit⟩, ?_,
    Multiset.coe_eq_coe.mpr (linked.map _)⟩
  · rcases mem_link member with rfl | older
    · rfl
    · exact sound.hashed i x older
  · rw [Counted, kept, count, more]

theorem Sound.insert (sound : h.Sound) (counted : h.Counted) (allocs : Allocs) (k : K) (v : V) :
    (h.insertFor allocs k v).2.Sound ∧ (h.insertFor allocs k v).2.Counted ∧
      Bag.Step (2 ^ 32) h.bag (.put k v) (.stored (h.insertFor allocs k v).1)
        (h.insertFor allocs k v).2.bag := by
  have counting : (countEntry h).Sound := sound.recount _
  obtain ⟨grown, perm, count⟩ := expandFor_spec counting allocs.newtable
  have step : (countEntry h).entrycount = (h.entrycount + 1) % 2 ^ 32 := rfl
  have length : (expandFor allocs.newtable (countEntry h)).entries.length = h.entries.length :=
    perm.length_eq
  have same : (expandFor allocs.newtable (countEntry h)).bag = h.bag :=
    Multiset.coe_eq_coe.mpr (perm.map _)
  cases stored : allocs.entry with
  | false =>
      simp only [insertFor, stored, Bool.false_eq_true, if_false]
      generalize expandFor allocs.newtable (countEntry h) = g at grown perm count length same
      obtain ⟨sound', counted', same'⟩ := uncount_spec grown (by rw [count, step, counted, length]; omega)
      rw [same', same]
      exact ⟨sound', counted', .refused k v⟩
  | true =>
      simp only [insertFor, stored, if_true]
      generalize expandFor allocs.newtable (countEntry h) = g at grown perm count length same
      obtain ⟨sound', counted', more⟩ := link_spec grown k v (by rw [count, step, counted, length]; omega)
      rw [more, same]
      exact ⟨sound', counted', .stored k v⟩

theorem pindex_below {minsize : Nat} (small : minsize ≤ 2 ^ 30) :
    primeFor minsize < primeTableLength := by
  unfold primeFor
  cases found : primes.findIdx? fun p => decide (minsize < p) with
  | none =>
      have missed := List.findIdx?_eq_none_iff.mp found 1610612741 (by decide)
      rw [decide_eq_false_iff_not] at missed
      omega
  | some i => exact (List.findIdx?_eq_some_iff_getElem.mp found).1

theorem create_sound {limitOf : Nat → Nat} {minsize : Nat} {hashf : K → UInt32} {eqf : K → K → Bool}
    (eq : ∀ k k', eqf k k' = true ↔ k = k')
    (created : createHashtable limitOf minsize hashf eqf = some h) :
    h.Sound ∧ h.Counted ∧ h.bag = 0 := by
  rw [createHashtable] at created
  split at created
  · cases created
  · rename_i small
    have empty : h.entries = [] := by
      cases created
      exact List.flatMap_eq_nil_iff.mpr fun i _ => rfl
    have count : h.entrycount = 0 := by
      cases created
      rfl
    refine ⟨?_, ?_, ?_⟩
    · cases created
      refine ⟨⟨eq, ?_, getD_primes_pos _⟩, ?_, pindex_below (by omega), rfl, rfl⟩
      · intro i e member
        cases member
      · intro i e member
        cases member
    · rw [Counted, empty, count, List.length_nil, Nat.zero_mod]
    · rw [bag, empty]
      rfl

end Hashtable

end OpenRpc
