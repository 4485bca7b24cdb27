import OpenRpc.HashtableMemory

/-! # The operations on the hash table, in memory and on lists

Each operation in memory is the operation on the buckets as lists. An expansion moves the entries between
two tables, and then there is no other place where an entry could hang; the one thing that can go wrong is
the way out that `hashtable_expand` takes when it gets no memory for a new table.
-/

namespace OpenRpc

open LinkedList

variable {K V : Type}

namespace HashHeap

variable {m m' : HashHeap K V} {chains : Nat → List Nat} {k : K} {v : V}

theorem index_inside (layout : Layout m chains) (positive : 0 < m.tablelength) (hashvalue : UInt32) :
    m.table[indexFor m.tablelength hashvalue]? =
      some (chains (indexFor m.tablelength hashvalue)).head? :=
  layout.slot (Nat.mod_lt _ positive)

theorem live_in (layout : Layout m chains) (i : Nat) : ∀ a ∈ chains i, ∃ c, m.cells a = some c :=
  fun _ member => layout.cell member

theorem search_refines (layout : Layout m chains) (positive : 0 < m.tablelength) (k : K) :
    m.hashtableSearch k = some (OpenRpc.hashtableSearch (m.view chains) k) := by
  let i := indexFor m.tablelength (m.hash k)
  have chain := layout.buckets.chain i
  rw [layout.buckets.head_eq i] at chain
  have looked : m.searchFrom (m.hash k) k (m.brk + 1) (chains i).head? = _ :=
    searchFrom_eq chain (live_in layout i) (layout.short i)
  have listed : OpenRpc.hashtableSearch (m.view chains) k =
      ((((chains i).filterMap m.entry).find? fun e => m.hash k == e.h && m.eqfn k e.k)).map Entry.v := rfl
  rw [listed, List.find?_filterMap]
  simp only [hashtableSearch, index_inside layout positive, Option.bind_eq_bind, Option.bind_some]
  exact looked

theorem view_update (entry : Nat → Option (Entry K V)) (i : Nat) (chain : List Nat) :
    (fun j => (Function.update chains i chain j).filterMap entry) =
      Function.update (fun j => (chains j).filterMap entry) i (chain.filterMap entry) :=
  funext fun j => Function.apply_update (fun _ cells => cells.filterMap entry) chains i chain j

theorem bucket_congr {entry entry' : Nat → Option (Entry K V)} {chain : List Nat}
    (same : ∀ a ∈ chain, entry' a = entry a) : chain.filterMap entry' = chain.filterMap entry :=
  List.filterMap_congr same

theorem Layout.freed (layout : Layout m chains) {i a : Nat} {before after : List Nat}
    (split : chains i = before ++ a :: after) {cells : Nat → Option (EntryCell K V)}
    (same : ∀ b, (cells b).map EntryCell.toEntry = m.entry b)
    (buckets : Buckets (fun b => (cells b).bind EntryCell.next) (heads m'.table)
      (Function.update chains i (before ++ after)))
    (gone : ∀ j, a ∉ Function.update chains i (before ++ after) j)
    (freed : m'.cells = Function.update cells a none) (length : m'.table.length = m'.tablelength)
    (brk : m'.brk = m.brk) : Layout m' (Function.update chains i (before ++ after)) := by
  have kept : ∀ b, b ≠ a → (m'.cells b).isSome = (m.cells b).isSome := by
    intro b other
    rw [freed, Function.update_of_ne other, ← Option.isSome_map (f := EntryCell.toEntry), same, entry,
      Option.isSome_map]
  have live : ∀ b, (m'.cells b).isSome = true ↔ ∃ j, b ∈ Function.update chains i (before ++ after) j := by
    intro b
    by_cases other : b = a
    · rw [other, freed, Function.update_self]
      exact iff_of_false (by simp) fun there => there.elim gone
    · rw [kept b other, layout.live]
      exact exists_congr fun j => (Buckets.mem_unlinked split other j).symm
  refine ⟨buckets.congr fun j b member => ?_, length, live, fun b alive => ?_⟩
  · have other : b ≠ a := by
      rintro rfl
      exact gone j member
    rw [next, freed, Function.update_of_ne other]
  · have other : b ≠ a := by
      rintro rfl
      rw [freed, Function.update_self] at alive
      cases alive
    rw [brk]
    exact layout.below b (kept b other ▸ alive)

theorem entry_setNext {a : Nat} {c : EntryCell K V} (here : m.cells a = some c) (p : Option Nat)
    (b : Nat) :
    (Function.update m.cells a (some { c with next := p }) b).map EntryCell.toEntry = m.entry b := by
  rw [Function.update_apply, entry]
  split
  · rename_i target
    rw [target, here]
    rfl
  · rfl

theorem store_unlink (layout : Layout m chains) {i a : Nat} {before after : List Nat} {c : EntryCell K V}
    (inside : i < m.tablelength) (split : chains i = before ++ a :: after) (here : m.cells a = some c) :
    ∃ cells table, m.store (placeBehind (.slot i) before) c.next =
        some { m with cells := cells, table := table } ∧
      table.length = m.table.length ∧ cells a = some c ∧
      (∀ b, (cells b).map EntryCell.toEntry = m.entry b) ∧
      Buckets (fun b => (cells b).bind EntryCell.next) (heads table)
        (Function.update chains i (before ++ after)) ∧
      ∀ j, a ∉ Function.update chains i (before ++ after) j := by
  have slot : i < m.table.length := inside.trans_eq layout.length.symm
  have follows := next_eq here
  rcases List.eq_nil_or_concat before with rfl | ⟨init, p, rfl⟩
  · refine ⟨m.cells, m.table.set i c.next, if_pos slot, List.length_set, here, fun _ => rfl, ?_⟩
    rw [heads_set slot]
    refine layout.buckets.unlink split (fun j other => Function.update_of_ne other ..) (fun _ => ?_) ?_
    · exact ⟨by rw [Function.update_self, follows], fun _ _ => rfl⟩
    · intro init p same
      exact absurd same.symm (by simp)
  · rw [List.concat_eq_append] at *
    obtain ⟨d, there⟩ := layout.cell (split ▸ by simp : p ∈ chains i)
    have other : a ≠ p := by
      rintro rfl
      have nodup := layout.buckets.nodup i
      rw [split] at nodup
      exact List.disjoint_of_nodup_append nodup (by simp) List.mem_cons_self
    have place : placeBehind (.slot i) (init ++ [p]) = .next p := by simp [placeBehind]
    refine ⟨Function.update m.cells p (some { d with next := c.next }), m.table, ?_, rfl, ?_,
      fun b => ?_, ?_⟩
    · rw [place, store, setNext_eq there]
    · rw [Function.update_of_ne other, here]
    · exact entry_setNext there c.next b
    · refine layout.buckets.unlink split (fun _ _ => rfl) (fun same => absurd same (by simp)) ?_
      intro init' p' same
      obtain ⟨-, last⟩ := List.append_inj' same rfl
      cases last
      refine ⟨rfl, ?_, fun b _ elsewhere => ?_⟩
      · simp only [Function.update_self, Option.bind_some, follows]
      · simp only [Function.update_of_ne elsewhere, next]

theorem unlinked_view {i a : Nat} {before after : List Nat} {cells : Nat → Option (EntryCell K V)}
    (table : List (Option Nat)) (keys : List K) (same : ∀ b, (cells b).map EntryCell.toEntry = m.entry b)
    (gone : ∀ j, a ∉ Function.update chains i (before ++ after) j) :
    view { { m with cells := cells, table := table }.uncountEntry with
        cells := Function.update cells a none, freedKeys := keys }
      (Function.update chains i (before ++ after)) =
    (m.view chains).unlink i ((before ++ after).filterMap m.entry) := by
  have reads : ∀ b, b ≠ a → (Function.update cells a none b).map EntryCell.toEntry = m.entry b := by
    intro b other
    rw [Function.update_of_ne other, same]
  have buckets : ∀ j, (Function.update chains i (before ++ after) j).filterMap
      (fun b => (Function.update cells a none b).map EntryCell.toEntry) =
        Function.update (m.view chains).table i ((before ++ after).filterMap m.entry) j := by
    intro j
    rw [bucket_congr fun b member => reads b fun same => gone j (same ▸ member)]
    exact congrFun (view_update m.entry i (before ++ after)) j
  exact congrArg (fun table => { (m.view chains).uncountEntry with table := table }) (funext buckets)

theorem remove_refines (layout : Layout m chains) (sound : (m.view chains).Sound) (k : K) :
    ∃ m' chains', m.hashtableRemove k = some (((m.view chains).removeFor k).1, m') ∧
      Layout m' chains' ∧ m'.view chains' = ((m.view chains).removeFor k).2 ∧
      m'.freedKeys = m.freedKeys ++ (((m.view chains).removeFor k).1.map fun _ => k).toList ∧
      m'.freedValues = m.freedValues := by
  have inside : indexFor m.tablelength (m.hash k) < m.tablelength := sound.placed.inside (m.hash k)
  generalize atIndex : indexFor m.tablelength (m.hash k) = i at inside
  have chain := layout.buckets.chain i
  rw [layout.buckets.head_eq i] at chain
  have begins : m.hashtableRemove k =
      m.removeFrom (m.hash k) k (m.brk + 1) (.slot i) (chains i).head? := by
    simp only [hashtableRemove, atIndex, layout.slot inside, Option.bind_eq_bind, Option.bind_some]
  have bucket : ((m.view chains).table i).find? (matchesKey (m.view chains) k) =
      ((chains i).find? (m.matchesAt (m.hash k) k)).bind m.entry := List.find?_filterMap ..
  cases found : (chains i).find? (m.matchesAt (m.hash k) k) with
  | none =>
      have missed : ∀ a ∈ chains i, m.matchesAt (m.hash k) k a = false := by
        simpa using List.find?_eq_none.mp found
      have removed : (m.view chains).removeFor k = (none, m.view chains) := by
        rw [found] at bucket
        have index : indexFor (m.view chains).tablelength (OpenRpc.hash (m.view chains) k) = i := atIndex
        simp only [Hashtable.removeFor, index, bucket, Option.bind_none]
      rw [begins, removed, removeFrom_none chain (live_in layout i) missed (layout.short i)]
      exact ⟨m, chains, rfl, layout, rfl, (List.append_nil _).symm, rfl⟩
  | some a =>
      obtain ⟨stops, before, after, split, missed⟩ := List.find?_eq_some_iff_append.mp found
      obtain ⟨c, here⟩ := layout.cell (split ▸ by simp : a ∈ chains i)
      obtain ⟨cells, table, stored, length, kept, same, buckets, gone⟩ :=
        store_unlink layout inside split here
      have removed : (m.view chains).removeFor k =
          (some c.v, (m.view chains).unlink i ((before ++ after).filterMap m.entry)) := by
        rw [List.filterMap_append]
        refine Hashtable.removeFor_found (e := c.toEntry) atIndex ?_ (fun x member => ?_) ?_
        · simp [view, split, entry, here]
        · obtain ⟨b, earlier, there⟩ := List.mem_filterMap.mp member
          have other := missed b earlier
          rw [matchesAt, there] at other
          have missed' : (!matchesKey (m.view chains) k x) = true := other
          simpa using missed'
        · rw [matchesAt, entry, here] at stops
          exact stops
      have key : c.k = k := by
        rw [found, Option.bind_some, entry, here] at bucket
        exact (sound.present (e := c.toEntry) (by rw [← atIndex] at bucket; exact bucket)).2
      have enough : before.length + 1 < m.brk + 1 := by
        have short := layout.short i
        rw [split, List.length_append, List.length_cons] at short
        omega
      have freed : ({ m with cells := cells, table := table }.uncountEntry).freeEntry a = _ :=
        freeEntry_eq kept
      rw [split] at chain
      rw [begins, removed, split, removeFrom_found chain
        (fun b earlier => layout.cell (split ▸ List.mem_append_left _ earlier))
        (fun b earlier => by simpa using missed b earlier) here stops enough, stored,
        Option.bind_some, freed, Option.bind_some, key]
      refine ⟨_, Function.update chains i (before ++ after), rfl, ?_, ?_, rfl, rfl⟩
      · exact layout.freed split same buckets gone rfl (length.trans layout.length) rfl
      · exact unlinked_view table _ same gone

/-- While entries are moved: what hangs from the table and what from the new one. -/
structure Moving (m : HashHeap K V) (newtable : List (Option Nat)) (old new : Nat → List Nat) : Prop where
  buckets : Buckets m.next (Sum.elim (heads m.table) (heads newtable)) (Sum.elim old new)
  live : ∀ a, (m.cells a).isSome = true ↔ ∃ i, a ∈ Sum.elim old new i

section Expanding

variable {newtable : List (Option Nat)} {old new : Nat → List Nat}

theorem Moving.step (moving : Moving m newtable old new) {i index e : Nat} {rest : List Nat}
    {c : EntryCell K V} (front : old i = e :: rest) (here : m.cells e = some c)
    (slot : i < m.table.length) (slot' : index < newtable.length) :
    Moving { m with
        cells := Function.update m.cells e (some { c with next := heads newtable index })
        table := m.table.set i c.next }
      (newtable.set index (some e)) (Function.update old i rest)
      (Function.update new index (e :: new index)) := by
  have source : Sum.elim old new (.inl i) = e :: rest := front
  obtain ⟨unlinked, gone⟩ := moving.buckets.pop source
  rw [next_eq here, Sum.update_elim_inl, Sum.update_elim_inl] at unlinked
  rw [Sum.update_elim_inl] at gone
  constructor
  · rw [heads_set slot, heads_set slot', ← Sum.update_elim_inr, ← Sum.update_elim_inr]
    refine unlinked.push gone ?_ fun j b member => ?_
    · simp [next]
    · have other : b ≠ e := fun same => gone j (same ▸ member)
      simp only [next, Function.update_of_ne other]
  · intro a
    rw [← Sum.update_elim_inr]
    refine Iff.trans ?_ Buckets.mem_pushed.symm
    change (Function.update m.cells e _ a).isSome = true ↔ _
    by_cases same : a = e
    · rw [same, Function.update_self]
      exact iff_of_true rfl (.inl rfl)
    · rw [Function.update_of_ne same, moving.live, or_iff_right same, ← Sum.update_elim_inl]
      refine exists_congr fun j => (Buckets.mem_update j ?_).symm
      rw [source, List.mem_cons, or_iff_right same]

theorem expandBucket_eq {newsize i : Nat} (positive : 0 < newsize) {cells : List Nat}
    (moving : Moving m newtable old new) (bucket : old i = cells) (slot : i < m.table.length)
    (size : newtable.length = newsize) {fuel : Nat} (enough : cells.length < fuel) :
    ∃ mem table newtable' new', expandBucket newsize i fuel m newtable =
        some ({ m with cells := mem, table := table }, newtable') ∧
      Moving { m with cells := mem, table := table } newtable' (Function.update old i []) new' ∧
      (∀ b, (mem b).map EntryCell.toEntry = m.entry b) ∧ table.length = m.table.length ∧
      newtable'.length = newsize ∧
      (fun j => (new' j).filterMap m.entry) =
        moveBucket newsize (cells.filterMap m.entry) fun j => (new j).filterMap m.entry := by
  induction cells generalizing m newtable old new fuel with
  | nil =>
      obtain ⟨fuel, rfl⟩ := Nat.exists_eq_succ_of_ne_zero (Nat.ne_of_gt enough)
      have head : m.table[i]? = some none := by
        have chain := moving.buckets.chain (.inl i)
        rw [Sum.elim_inl, Sum.elim_inl, bucket] at chain
        rw [heads_get slot]
        exact congrArg some chain
      refine ⟨m.cells, m.table, newtable, new, ?_, ?_, fun _ => rfl, rfl, size, rfl⟩
      · simp only [expandBucket, head]
      · rw [← bucket, Function.update_eq_self]
        exact moving
  | cons e rest ih =>
      obtain ⟨fuel, rfl⟩ := Nat.exists_eq_succ_of_ne_zero (Nat.ne_of_gt (Nat.zero_lt_of_lt enough))
      have head : m.table[i]? = some (some e) := by
        have chain := moving.buckets.chain (.inl i)
        rw [Sum.elim_inl, Sum.elim_inl, bucket] at chain
        rw [heads_get slot, chain.1]
      obtain ⟨c, here⟩ := Option.isSome_iff_exists.mp ((moving.live e).mpr ⟨.inl i, by simp [bucket]⟩)
      have slot' : indexFor newsize c.h < newtable.length := (Nat.mod_lt _ positive).trans_eq size.symm
      have moved := moving.step bucket here slot slot'
      obtain ⟨mem, table, newtable', new', run, moving', same, length, size', listed⟩ :=
        ih moved (Function.update_self ..) (by rwa [List.length_set]) (by rwa [List.length_set])
          (Nat.lt_of_succ_lt_succ enough)
      have kept := entry_setNext here (heads newtable (indexFor newsize c.h))
      refine ⟨mem, table, newtable', new', ?_, ?_, fun b => (same b).trans (kept b), ?_, size', ?_⟩
      · simp only [expandBucket, head, here, Option.bind_eq_bind, Option.bind_some, heads_get slot',
          setNext_eq (m := { m with table := m.table.set i c.next }) here]
        exact run
      · rw [Function.update_idem] at moving'
        exact moving'
      · rw [length, List.length_set]
      · have reads : entry { m with
            cells := Function.update m.cells e
              (some { c with next := heads newtable (indexFor newsize c.h) })
            table := m.table.set i c.next } = m.entry := funext kept
        rw [reads, view_update] at listed
        have first : m.entry e = some c.toEntry := by rw [entry, here, Option.map_some]
        have link_front : ∀ cs : List Nat,
            (e :: cs).filterMap m.entry = c.toEntry :: cs.filterMap m.entry :=
          fun cs => List.filterMap_cons_some first
        rw [listed, link_front, link_front]
        rfl

theorem expandBuckets_eq {newsize : Nat} (positive : 0 < newsize) {is : List Nat} (once : is.Nodup)
    (moving : Moving m newtable old new) (inside : ∀ i ∈ is, i < m.table.length)
    (size : newtable.length = newsize) (short : ∀ i ∈ is, (old i).length < m.brk + 1) :
    ∃ mem table newtable' new', expandBuckets newsize is m newtable =
        some ({ m with cells := mem, table := table }, newtable') ∧
      Moving { m with cells := mem, table := table } newtable' (fun i => if i ∈ is then [] else old i)
        new' ∧
      (∀ b, (mem b).map EntryCell.toEntry = m.entry b) ∧ newtable'.length = newsize ∧
      (fun j => (new' j).filterMap m.entry) =
        moveBuckets newsize (fun i => (old i).filterMap m.entry) is fun j => (new j).filterMap m.entry := by
  induction is generalizing m newtable old new with
  | nil =>
      refine ⟨m.cells, m.table, newtable, new, rfl, ?_, fun _ => rfl, size, rfl⟩
      simpa using moving
  | cons i is ih =>
      obtain ⟨apart, once⟩ := List.nodup_cons.mp once
      obtain ⟨mem, table, newtable₁, new₁, run, moving₁, same, length, size₁, listed⟩ :=
        expandBucket_eq positive moving rfl (inside i List.mem_cons_self) size (short i List.mem_cons_self)
      have others : ∀ j ∈ is, Function.update old i [] j = old j := by
        intro j member
        refine Function.update_of_ne ?_ ..
        rintro rfl
        exact apart member
      obtain ⟨mem', table', newtable', new', run', moving', same', size', listed'⟩ :=
        ih once moving₁ (fun j member => (inside j (.tail i member)).trans_eq length.symm) size₁
          fun j member => (others j member).symm ▸ short j (.tail i member)
      have reads : entry { m with cells := mem, table := table } = m.entry := funext same
      refine ⟨mem', table', newtable', new', ?_, ?_, fun b => (same' b).trans (same b), size', ?_⟩
      · simp only [expandBuckets, run, Option.bind_eq_bind, Option.bind_some]
        exact run'
      · have emptied : (fun j => if j ∈ is then [] else Function.update old i [] j) =
            fun j => if j ∈ i :: is then [] else old j := by
          funext j
          by_cases here : j = i
          · simp [here]
          · simp [here]
        rw [emptied] at moving'
        exact moving'
      · rw [reads] at listed'
        rw [listed', moveBuckets, listed]
        refine moveBuckets_congr fun j member => ?_
        rw [others j member]

theorem Moving.done (moving : Moving m newtable old new) (empty : ∀ i, old i = [])
    (below : ∀ a, (m.cells a).isSome = true → a < m.brk) (cells : m'.cells = m.cells)
    (table : m'.table = newtable) (length : newtable.length = m'.tablelength) (brk : m'.brk = m.brk) :
    Layout m' new := by
  have same : m'.next = m.next := by
    funext a
    rw [next, next, cells]
  refine ⟨⟨fun i => ?_, fun i j other => ?_⟩, table ▸ length, fun a => ?_, fun a alive => ?_⟩
  · rw [same, table]
    exact moving.buckets.chain (.inr i)
  · exact moving.buckets.apart (.inr i) (.inr j) fun both => other (Sum.inr.inj both)
  · rw [cells, moving.live]
    constructor
    · rintro ⟨i | i, member⟩
      · rw [Sum.elim_inl, empty] at member
        cases member
      · exact ⟨i, member⟩
    · rintro ⟨i, member⟩
      exact ⟨.inr i, member⟩
  · rw [brk]
    exact below a (cells ▸ alive)

end Expanding

theorem Layout.moving (layout : Layout m chains) (size : Nat) :
    Moving m (List.replicate size none) chains fun _ => [] := by
  refine ⟨⟨fun i => ?_, fun i j other a here there => ?_⟩, fun a => ?_⟩
  · cases i with
    | inl i => exact layout.buckets.chain i
    | inr i =>
        rw [Sum.elim_inr, Sum.elim_inr, heads_replicate]
        rfl
  · cases i with
    | inr i => cases here
    | inl i =>
        cases j with
        | inr j => cases there
        | inl j => exact other (congrArg Sum.inl (layout.buckets.unique here there))
  · rw [layout.live]
    constructor
    · rintro ⟨i, member⟩
      exact ⟨.inl i, member⟩
    · rintro ⟨i | i, member⟩
      · exact ⟨i, member⟩
      · cases member

theorem expand_refines (layout : Layout m chains) (allocs : Allocs) :
    (m.primeindex ≠ primeTableLength - 1 ∧ allocs.newtable = false ∧ allocs.realloc = true ∧
      m.hashtableExpand allocs = none) ∨
    ∃ m' chains', m.hashtableExpand allocs = some m' ∧ Layout m' chains' ∧
      m'.view chains' =
        (if allocs.newtable = true then OpenRpc.hashtableExpand (m.view chains) else m.view chains) ∧
      m'.freedKeys = m.freedKeys ∧ m'.freedValues = m.freedValues := by
  by_cases last : m.primeindex = primeTableLength - 1
  · have stays : OpenRpc.hashtableExpand (m.view chains) = m.view chains := if_pos last
    refine .inr ⟨m, chains, if_pos last, layout, ?_, rfl, rfl⟩
    rw [stays, ite_self]
  · cases newtable : allocs.newtable with
    | false =>
        cases realloc : allocs.realloc with
        | true => exact .inl ⟨last, rfl, rfl, by simp [hashtableExpand, last, newtable, realloc]⟩
        | false =>
            refine .inr ⟨m, chains, ?_, layout, rfl, rfl, rfl⟩
            simp [hashtableExpand, last, newtable, realloc]
    | true =>
        let newsize := primes.getD (m.primeindex + 1) 53
        have positive : 0 < newsize := Hashtable.getD_primes_pos _
        obtain ⟨mem, table, newtable', new', run, moving, same, size, listed⟩ :=
          expandBuckets_eq positive (List.nodup_range (n := m.tablelength)) (layout.moving newsize)
            (fun i member => (List.mem_range.mp member).trans_eq layout.length.symm) List.length_replicate
            fun i _ => layout.short i
        have empty : ∀ i, (if i ∈ List.range m.tablelength then [] else chains i) = [] := by
          intro i
          split
          · rfl
          · rename_i beyond
            exact layout.outside (Nat.not_lt.mp fun below => beyond (List.mem_range.mpr below))
        have below : ∀ a, (mem a).isSome = true → a < m.brk := by
          intro a alive
          apply layout.below a
          rwa [← Option.isSome_map (f := EntryCell.toEntry), same, entry, Option.isSome_map] at alive
        refine .inr ⟨{ m with
          cells := mem, primeindex := m.primeindex + 1, table := newtable', tablelength := newsize
          loadlimit := m.limitOf newsize }, new', ?_, moving.done empty below rfl rfl size rfl, ?_, rfl,
          rfl⟩
        · simp only [hashtableExpand, if_neg last, newtable, if_true, Option.bind_eq_bind]
          change (expandBuckets newsize _ m _).bind _ = _
          rw [run]
          rfl
        · have reads : (fun b => (mem b).map EntryCell.toEntry) = m.entry := funext same
          have moved : (fun j => (new' j).filterMap fun b => (mem b).map EntryCell.toEntry) =
              moveBuckets newsize (m.view chains).table (List.range m.tablelength) fun _ => [] := by
            rw [reads]
            exact listed
          have expands : ¬(m.view chains).primeindex = primeTableLength - 1 := last
          rw [if_pos rfl, OpenRpc.hashtableExpand, if_neg expands]
          exact congrArg (fun table => { m.view chains with
            primeindex := m.primeindex + 1, table := table, tablelength := newsize
            loadlimit := m.limitOf newsize }) moved

/-- The insertion has to expand the table and cannot allocate the new one, but make the old one larger. -/
def PlanB (m : HashHeap K V) (allocs : Allocs) : Prop :=
  m.loadlimit < m.countEntry.entrycount ∧ m.primeindex ≠ primeTableLength - 1 ∧
    allocs.newtable = false ∧ allocs.realloc = true

instance (m : HashHeap K V) (allocs : Allocs) : Decidable (m.PlanB allocs) :=
  inferInstanceAs (Decidable (_ ∧ _ ∧ _ ∧ _))

/-- The table that an insertion links its entry into. -/
def grown (allocs : Allocs) (m : HashHeap K V) : Option (HashHeap K V) :=
  if m.countEntry.loadlimit < m.countEntry.entrycount then m.countEntry.hashtableExpand allocs
  else some m.countEntry

theorem grown_refines (layout : Layout m chains) (allocs : Allocs) :
    (m.PlanB allocs ∧ m.grown allocs = none) ∨
    ¬m.PlanB allocs ∧ ∃ m' chains', m.grown allocs = some m' ∧ Layout m' chains' ∧
      m'.view chains' = Hashtable.expandFor allocs.newtable (OpenRpc.countEntry (m.view chains)) ∧
      m'.freedKeys = m.freedKeys ∧ m'.freedValues = m.freedValues := by
  have counted : Layout m.countEntry chains := ⟨layout.buckets, layout.length, layout.live, layout.below⟩
  unfold grown Hashtable.expandFor
  by_cases beyond : m.loadlimit < m.countEntry.entrycount
  · have beyond' : (OpenRpc.countEntry (m.view chains)).loadlimit <
        (OpenRpc.countEntry (m.view chains)).entrycount := beyond
    rw [if_pos (show m.countEntry.loadlimit < m.countEntry.entrycount from beyond)]
    rcases expand_refines counted allocs with
      ⟨index, newtable, realloc, run⟩ | ⟨m', chains', run, layout', same, kept⟩
    · exact .inl ⟨⟨beyond, index, newtable, realloc⟩, run⟩
    · refine .inr ⟨?_, m', chains', run, layout', ?_, kept⟩
      · rintro ⟨-, index, newtable, realloc⟩
        have undefined : m.countEntry.hashtableExpand allocs = none := by
          have index' : ¬m.countEntry.primeindex = primeTableLength - 1 := index
          simp [hashtableExpand, index', newtable, realloc]
        rw [undefined] at run
        cases run
      · rw [same]
        simp only [beyond', true_and]
        rfl
  · have within : ¬(OpenRpc.countEntry (m.view chains)).loadlimit <
        (OpenRpc.countEntry (m.view chains)).entrycount := beyond
    rw [if_neg (show ¬m.countEntry.loadlimit < m.countEntry.entrycount from beyond),
      if_neg fun both => within both.1]
    exact .inr ⟨fun planB => beyond planB.1, m.countEntry, chains, rfl, counted, rfl, rfl, rfl⟩

theorem link_refines (layout : Layout m chains) (positive : 0 < m.tablelength) (k : K) (v : V) :
    let index := indexFor m.tablelength (m.hash k)
    let m' := { m with
      cells := Function.update m.cells m.brk (some ⟨⟨k, v, m.hash k⟩, (chains index).head?⟩)
      brk := m.brk + 1
      table := m.table.set index (some m.brk) }
    Layout m' (Function.update chains index (m.brk :: chains index)) ∧
      m'.view (Function.update chains index (m.brk :: chains index)) =
        { m.view chains with
          table := link m.tablelength ⟨k, v, m.hash k⟩ (m.view chains).table } := by
  intro index m'
  have inside : index < m.table.length := (Nat.mod_lt _ positive).trans_eq layout.length.symm
  have fresh : ∀ j, m.brk ∉ chains j := by
    intro j member
    exact Nat.lt_irrefl _ (layout.below _ ((layout.live _).mpr ⟨j, member⟩))
  have other : ∀ j, ∀ b ∈ chains j, b ≠ m.brk := by
    rintro j b member rfl
    exact fresh j member
  refine ⟨⟨?_, List.length_set.trans layout.length, fun a => ?_, fun a alive => ?_⟩, ?_⟩
  · rw [heads_set inside]
    refine layout.buckets.push fresh ?_ fun j b member => ?_
    · rw [layout.buckets.head_eq]
      simp only [next, m', Function.update_self, Option.bind_some]
    · simp only [next, m', Function.update_of_ne (other j b member)]
  · rw [Buckets.mem_pushed]
    by_cases new : a = m.brk
    · simp [m', new]
    · simp only [m', Function.update_of_ne new, layout.live, or_iff_right new]
  · by_cases new : a = m.brk
    · rw [new]
      exact Nat.lt_succ_self _
    · simp only [m', Function.update_of_ne new] at alive
      exact (layout.below a alive).trans (Nat.lt_succ_self _)
  · have reads : ∀ j, (chains j).filterMap m'.entry = (chains j).filterMap m.entry := by
      intro j
      refine bucket_congr fun b member => ?_
      simp only [entry, m', Function.update_of_ne (other j b member)]
    have first : m'.entry m.brk = some ⟨k, v, m.hash k⟩ := by
      simp only [entry, m', Function.update_self, Option.map_some]
    refine congrArg (fun table => { m.view chains with table := table }) ?_
    rw [view_update, List.filterMap_cons_some first, reads, funext reads]
    rfl

theorem insert_refines (layout : Layout m chains) (sound : (m.view chains).Sound) (allocs : Allocs)
    (k : K) (v : V) :
    (m.PlanB allocs ∧ m.hashtableInsert allocs k v = none) ∨
    ¬m.PlanB allocs ∧ ∃ m' chains',
      m.hashtableInsert allocs k v = some (((m.view chains).insertFor allocs k v).1, m') ∧
      Layout m' chains' ∧ m'.view chains' = ((m.view chains).insertFor allocs k v).2 ∧
      m'.freedKeys = m.freedKeys ∧ m'.freedValues = m.freedValues := by
  have steps : m.hashtableInsert allocs k v = (m.grown allocs).bind fun m =>
      if allocs.entry then
        (m.table[indexFor m.tablelength (m.hash k)]?).bind fun front =>
          some (true, { m with
            cells := Function.update m.cells m.brk (some ⟨⟨k, v, m.hash k⟩, front⟩)
            brk := m.brk + 1
            table := m.table.set (indexFor m.tablelength (m.hash k)) (some m.brk) })
      else some (false, m.uncountEntry) := by
    unfold hashtableInsert grown
    by_cases beyond : m.countEntry.loadlimit < m.countEntry.entrycount
    · simp only [if_pos beyond, Option.bind_eq_bind]
    · simp only [if_neg beyond, Option.bind_eq_bind]
  rcases grown_refines layout allocs with ⟨planB, run⟩ | ⟨planA, g, chains', run, layout', same, kept⟩
  · exact .inl ⟨planB, by rw [steps, run]; rfl⟩
  · obtain ⟨sound', -, -⟩ := Hashtable.expandFor_spec
      (h := OpenRpc.countEntry (m.view chains)) (sound.recount _) allocs.newtable
    rw [← same] at sound'
    refine .inr ⟨planA, ?_⟩
    rw [steps, run, Option.bind_some, Hashtable.insertFor, ← same]
    cases allocs.entry with
    | false =>
        refine ⟨g.uncountEntry, chains', rfl, ?_, rfl, kept⟩
        exact ⟨layout'.buckets, layout'.length, layout'.live, layout'.below⟩
    | true =>
        have positive : 0 < g.tablelength := sound'.placed.positive
        obtain ⟨linked, viewed⟩ := link_refines layout' positive k v
        rw [if_pos rfl, index_inside layout' positive]
        exact ⟨_, _, rfl, linked, viewed, kept⟩

end HashHeap

end OpenRpc
