import OpenRpc.HashtableSteps

/-! # Runs of the hash table

What any sequence of operations on a new table answers, when it is undefined, and what is left of it when
the table is destroyed.
-/

namespace OpenRpc

open LinkedList

variable {K V : Type}

/-- An operation on the table; an insertion with the outcomes of its allocations. -/
inductive HashOp (K V : Type) where
  | insert (allocs : Allocs) (k : K) (v : V)
  | search (k : K)
  | remove (k : K)
  | count

/-- The operation on a bag. -/
def HashOp.op : HashOp K V → Bag.Op K V
  | .insert _ k v => .put k v
  | .search k => .get k
  | .remove k => .take k
  | .count => .size

namespace HashHeap

def apply (m : HashHeap K V) : HashOp K V → Option (Bag.Answer V × HashHeap K V)
  | .insert allocs k v => (m.hashtableInsert allocs k v).map fun r => (.stored r.1, r.2)
  | .search k => (m.hashtableSearch k).map fun v => (.value v, m)
  | .remove k => (m.hashtableRemove k).map fun r => (.value r.1, r.2)
  | .count => some (.size m.hashtableCount, m)

/-- The table holds these pairs, in entries of its own. -/
def Holds (m : HashHeap K V) (bag : Multiset (K × V)) : Prop :=
  ∃ chains, Layout m chains ∧ (m.view chains).Sound ∧ (m.view chains).Counted ∧
    (m.view chains).bag = bag

variable {m m' : HashHeap K V} {bag : Multiset (K × V)}

theorem apply_spec (holds : m.Holds bag) (op : HashOp K V) :
    (∃ allocs k v, op = .insert allocs k v ∧ m.PlanB allocs ∧ m.apply op = none) ∨
    (∀ allocs k v, op = .insert allocs k v → ¬m.PlanB allocs) ∧
      ∃ answer m' bag', m.apply op = some (answer, m') ∧
        Bag.Step (2 ^ 32) bag op.op answer bag' ∧ m'.Holds bag' ∧
        m'.freedKeys = m.freedKeys ++ (Bag.removed (op.op, answer)).map Prod.fst ∧
        m'.freedValues = m.freedValues := by
  obtain ⟨chains, layout, sound, counted, rfl⟩ := holds
  cases op with
  | insert allocs k v =>
      obtain ⟨sound', counted', step⟩ := sound.insert counted allocs k v
      rcases insert_refines layout sound allocs k v with
        ⟨planB, run⟩ | ⟨planA, m', chains', run, layout', same, kept⟩
      · exact .inl ⟨allocs, k, v, rfl, planB, by rw [apply, run]; rfl⟩
      · rw [← same] at sound' counted' step
        refine .inr ⟨?_, _, m', _, ?_, step, ⟨chains', layout', sound', counted', rfl⟩, ?_⟩
        · rintro _ _ _ ⟨⟩
          exact planA
        · rw [apply, run]
          rfl
        · exact ⟨kept.1.trans (List.append_nil _).symm, kept.2⟩
  | search k =>
      refine .inr ⟨?_, _, m, _, ?_, sound.search k, ⟨chains, layout, sound, counted, rfl⟩, ?_⟩
      · rintro _ _ _ ⟨⟩
      · rw [apply, search_refines layout sound.placed.positive k]
        rfl
      · exact ⟨(List.append_nil _).symm, rfl⟩
  | remove k =>
      obtain ⟨sound', counted', step⟩ := sound.remove counted k
      obtain ⟨m', chains', run, layout', same, keys, values⟩ := remove_refines layout sound k
      rw [← same] at sound' counted' step
      refine .inr ⟨?_, _, m', _, ?_, step, ⟨chains', layout', sound', counted', rfl⟩, ?_⟩
      · rintro _ _ _ ⟨⟩
      · rw [apply, run]
        rfl
      · rw [keys]
        cases ((m.view chains).removeFor k).1 <;> exact ⟨rfl, values⟩
  | count =>
      refine .inr ⟨?_, _, m, _, rfl, ?_, ⟨chains, layout, sound, counted, rfl⟩,
        (List.append_nil _).symm, rfl⟩
      · rintro _ _ _ ⟨⟩
      have size : m.hashtableCount = (m.view chains).bag.card % 2 ^ 32 := by
        rw [Hashtable.bag, Multiset.coe_card, List.length_map]
        exact counted
      rw [size]
      exact .size

theorem create_holds {struct table : Bool} {limitOf : Nat → Nat} {minsize : Nat} {hashf : K → UInt32} {eqf : K → K → Bool}
    (eq : ∀ k k', eqf k k' = true ↔ k = k')
    (created : createHashtable struct table limitOf minsize hashf eqf = some m) :
    m.Holds 0 ∧ m.freedKeys = [] ∧ m.freedValues = [] := by
  simp only [createHashtable] at created
  split at created
  · cases created
  · rename_i small
    split at created
    · cases created
    · split at created
      · cases created
      · cases created
        obtain ⟨sound, counted, empty⟩ := Hashtable.create_sound (K := K) (V := V) eq (if_neg small)
        refine ⟨⟨fun _ => [], ⟨?_, List.length_replicate, fun a => ?_, fun a alive => ?_⟩, sound, counted,
          empty⟩, rfl, rfl⟩
        · rw [heads_replicate]
          exact Buckets.empty _
        · simp
        · cases alive

/-- An operation, with its answer written down. -/
def step (s : List (Bag.Op K V × Bag.Answer V) × HashHeap K V) (op : HashOp K V) :
    Option (List (Bag.Op K V × Bag.Answer V) × HashHeap K V) :=
  (s.2.apply op).map fun r => (s.1 ++ [(op.op, r.1)], r.2)

/-- The answers so far are a bag's, and the table holds what is in the bag. -/
def Answered (log : List (Bag.Op K V × Bag.Answer V)) (m : HashHeap K V) (bag : Multiset (K × V)) : Prop :=
  Bag.Run (2 ^ 32) 0 log bag ∧ m.Holds bag ∧ m.freedKeys = (log.flatMap Bag.removed).map Prod.fst ∧
    m.freedValues = []

section All

variable {chains : Nat → List Nat}

/-- The entries allocated, bucket by bucket. -/
def allocated (m : HashHeap K V) (chains : Nat → List Nat) : List Nat :=
  (List.range m.tablelength).flatMap chains

theorem Layout.mem_allocated (layout : Layout m chains) (a : Nat) :
    (m.cells a).isSome = true ↔ a ∈ m.allocated chains := by
  rw [layout.live, allocated, List.mem_flatMap]
  constructor
  · rintro ⟨i, member⟩
    refine ⟨i, List.mem_range.mpr ?_, member⟩
    by_contra beyond
    rw [layout.outside (Nat.not_lt.mp beyond)] at member
    cases member
  · rintro ⟨i, -, member⟩
    exact ⟨i, member⟩

theorem Layout.nodup_allocated (layout : Layout m chains) : (m.allocated chains).Nodup := by
  refine List.nodup_flatMap.mpr ⟨fun i _ => layout.buckets.nodup i, ?_⟩
  exact List.nodup_range.imp fun other => layout.buckets.apart _ _ other

theorem allocated_entries (m : HashHeap K V) (chains : Nat → List Nat) :
    (m.allocated chains).filterMap m.entry = (m.view chains).entries := List.filterMap_flatMap ..

end All

section Runs

variable {ops : List (HashOp K V)} {s s' : List (Bag.Op K V × Bag.Answer V) × HashHeap K V}
  {log : List (Bag.Op K V × Bag.Answer V)} {struct table : Bool} {limitOf : Nat → Nat} {minsize : Nat} {hashf : K → UInt32}
  {eqf : K → K → Bool}

theorem step_answered {op : HashOp K V} (next : step s op = some s') :
    (∃ bag, Answered s.1 s.2 bag) → ∃ bag', Answered s'.1 s'.2 bag' := by
  rintro ⟨bag, run, holds, keys, values⟩
  rcases apply_spec holds op with
    ⟨_, _, _, -, -, undefined⟩ | ⟨-, answer, m', bag', applied, step', holds', keys', values'⟩
  · simp [step, undefined] at next
  · simp only [step, applied, Option.map_some, Option.some.injEq] at next
    subst next
    refine ⟨bag', run.snoc step', holds', ?_, values'.trans values⟩
    rw [keys', keys, List.flatMap_append, List.flatMap_singleton, List.map_append]

theorem run_answered (eq : ∀ k k', eqf k k' = true ↔ k = k')
    (created : createHashtable struct table limitOf minsize hashf eqf = some m)
    (run : Transition.exec step ([], m) ops = some (log, m')) : ∃ bag, Answered log m' bag := by
  obtain ⟨holds, keys, values⟩ := create_holds eq created
  have start : ∃ bag, Answered [] m bag := ⟨0, .nil, holds, keys, values⟩
  have keeps : ∀ (s : List (Bag.Op K V × Bag.Answer V) × HashHeap K V) (op : HashOp K V) s',
      step s op = some s' → (∃ bag, Answered s.1 s.2 bag) → ∃ bag, Answered s'.1 s'.2 bag :=
    fun _ _ _ next => step_answered next
  exact Transition.exec_invariant keeps run start

theorem run_ops (run : Transition.exec step s ops = some s') :
    s'.1.map Prod.fst = s.1.map Prod.fst ++ ops.map HashOp.op := by
  induction ops generalizing s with
  | nil =>
      cases run
      exact (List.append_nil _).symm
  | cons op ops ih =>
      obtain ⟨s₁, next, rest⟩ := Transition.exec_cons.mp run
      obtain ⟨r, -, rfl⟩ := Option.map_eq_some_iff.mp next
      rw [ih rest, List.map_append, List.append_assoc]
      rfl

theorem beq_keys (k k' : Nat) : (k == k') = true ↔ k = k' := beq_iff_eq

/-- Whatever is inserted, searched for, removed and counted, and whichever allocations fail: the answers
    are those of a bag, and the entries allocated hold what is in it. -/
theorem hashtable_answers (eq : ∀ k k', eqf k k' = true ↔ k = k')
    (created : createHashtable struct table limitOf minsize hashf eqf = some m)
    (run : Transition.exec step ([], m) ops = some (log, m')) :
    log.map Prod.fst = ops.map HashOp.op ∧
      ∃ bag, Bag.Run (2 ^ 32) 0 log bag ∧
        ∃ live : List Nat, live.Nodup ∧ (∀ a, (m'.cells a).isSome = true ↔ a ∈ live) ∧
          (live.filterMap fun a => (m'.entry a).map fun e => (e.k, e.v) : List (K × V)) = bag := by
  refine ⟨run_ops run, ?_⟩
  obtain ⟨bag, answers, ⟨chains, layout, -, -, same⟩, -, -⟩ := run_answered eq created run
  refine ⟨bag, answers, m'.allocated chains, layout.nodup_allocated, layout.mem_allocated, ?_⟩
  rw [← same, Hashtable.bag, ← allocated_entries, List.map_filterMap]

theorem hashtable_answers_fourOps :
    ∃ m m' : HashHeap Nat Nat, createHashtable true true singleLimit 16 UInt32.ofNat (fun k k' => k == k') = some m ∧
      ∃ log, Transition.exec step ([], m)
          [.insert ⟨true, true, true⟩ 7 70, .search 7, .remove 7, .count] = some (log, m') ∧
        log.map Prod.fst = [.put 7 70, .get 7, .take 7, .size] ∧
        ∃ bag, Bag.Run (2 ^ 32) 0 log bag ∧
          ∃ live : List Nat, live.Nodup ∧ (∀ a, (m'.cells a).isSome = true ↔ a ∈ live) ∧
            (live.filterMap fun a => (m'.entry a).map fun e => (e.k, e.v) : List (Nat × Nat)) = bag :=
  ⟨_, _, rfl, _, rfl, hashtable_answers beq_keys
    (show createHashtable true true singleLimit 16 UInt32.ofNat _ = some _ from rfl)
    (show Transition.exec step ([], _) [.insert ⟨true, true, true⟩ 7 70, .search 7, .remove 7, .count] =
      some (_, _) from rfl)⟩

/-- With keys that are put in only while they are absent, the table is a map: a search and a removal
    answer what was last put in under the key, and a count answers how many keys there are, modulo
    `2 ^ 32`. -/
theorem hashtable_map [DecidableEq K] (eq : ∀ k k', eqf k k' = true ↔ k = k')
    (created : createHashtable struct table limitOf minsize hashf eqf = some m)
    (run : Transition.exec step ([], m) ops = some (log, m')) (fresh : Bag.Fresh log)
    {before after : List (Bag.Op K V × Bag.Answer V)} {op : Bag.Op K V} {answer : Bag.Answer V}
    (split : log = before ++ (op, answer) :: after) :
    Bag.MapAnswer (2 ^ 32) (Bag.latest before) op answer := by
  obtain ⟨bag, answers, -, -, -⟩ := run_answered eq created run
  exact (Bag.run_map answers fresh).2 before op answer after split

/-- Three keys, of which the first two share a bucket, and the first is removed. -/
def threeKeys : List (HashOp Nat Nat) :=
  [.insert ⟨true, true, true⟩ 1 10, .insert ⟨true, true, true⟩ 8 80, .insert ⟨true, true, true⟩ 7 70,
    .remove 1]

theorem hashtable_map_threeKeys :
    ∃ m m' : HashHeap Nat Nat,
      createHashtable true true singleLimit 16 UInt32.ofNat (fun k k' => k == k') = some m ∧
      indexFor 53 (m.hash 1) = indexFor 53 (m.hash 8) ∧
      ∃ log, Transition.exec step ([], m) (threeKeys ++ [.search 8, .search 1, .count]) =
          some (log, m') ∧
        log.map Prod.snd = [.stored true, .stored true, .stored true, .value (some 10),
          .value (some 80), .value none, .size 2] ∧
        ∀ before op answer after, log = before ++ (op, answer) :: after →
          Bag.MapAnswer (2 ^ 32) (Bag.latest before) op answer :=
  ⟨_, _, rfl, by decide, _, rfl, rfl, fun _ _ _ _ => hashtable_map beq_keys
    (show createHashtable true true singleLimit 16 UInt32.ofNat _ = some _ from rfl)
    (show Transition.exec step ([], _) (threeKeys ++ [.search 8, .search 1, .count]) = some (_, _)
      from rfl) (by decide)⟩

/-- Operations never use memory that is not theirs, and all end; except that an insertion that cannot
    allocate the table of an expansion, but make the old one larger, uses an address from nowhere. -/
theorem hashtable_undefined (eq : ∀ k k', eqf k k' = true ↔ k = k')
    (created : createHashtable struct table limitOf minsize hashf eqf = some m) :
    Transition.exec step ([], m) ops = none ↔
      ∃ before allocs k v after log m', ops = before ++ .insert allocs k v :: after ∧
        Transition.exec step ([], m) before = some (log, m') ∧ m'.PlanB allocs := by
  rw [Transition.exec_eq_none]
  constructor
  · rintro ⟨before, op, after, ⟨log, m'⟩, split, run, stops⟩
    obtain ⟨bag, -, holds, -, -⟩ := run_answered eq created run
    rcases apply_spec holds op with ⟨allocs, k, v, rfl, planB, -⟩ | ⟨-, _, _, _, applied, -, -, -, -⟩
    · exact ⟨before, allocs, k, v, after, log, m', split, run, planB⟩
    · simp [step, applied] at stops
  · rintro ⟨before, allocs, k, v, after, log, m', split, run, planB⟩
    obtain ⟨bag, -, holds, -, -⟩ := run_answered eq created run
    refine ⟨before, _, after, (log, m'), split, run, ?_⟩
    rcases apply_spec holds (.insert allocs k v) with ⟨_, _, _, -, -, undefined⟩ | ⟨planA, -⟩
    · simp [step, undefined]
    · exact absurd planB (planA allocs k v rfl)

theorem hashtable_undefined_thirtySix :
    ∃ m : HashHeap Nat Nat, createHashtable true true singleLimit 16 UInt32.ofNat (fun k k' => k == k') = some m ∧
      ∃ before allocs k v after log m', (List.range 36).map (fun i => .insert ⟨false, true, true⟩ i i) =
          before ++ .insert allocs k v :: after ∧
        Transition.exec step ([], m) before = some (log, m') ∧ m'.PlanB allocs := by
  refine ⟨_, rfl, (hashtable_undefined beq_keys
    (show createHashtable true true singleLimit 16 UInt32.ofNat _ = some _ from rfl)).mp ?_⟩
  decide +kernel

end Runs

section Destroy

variable {freeValues : Bool} {as bs : List Nat}

/-- The memory after these entries have been freed, one after the other. -/
def wipe (freeValues : Bool) (m : HashHeap K V) (as : List Nat) : HashHeap K V :=
  { m with
    cells := fun b => if b ∈ as then none else m.cells b
    freedKeys := m.freedKeys ++ (as.filterMap m.entry).map Entry.k
    freedValues :=
      if freeValues then m.freedValues ++ (as.filterMap m.entry).map Entry.v else m.freedValues }

theorem wipe_nil (m : HashHeap K V) : wipe freeValues m [] = m := by
  simp [wipe]

theorem wipe_append (apart : List.Disjoint as bs) :
    wipe freeValues (wipe freeValues m as) bs = wipe freeValues m (as ++ bs) := by
  have kept : bs.filterMap (wipe freeValues m as).entry = bs.filterMap m.entry := by
    refine bucket_congr fun b member => ?_
    have other : b ∉ as := fun here => apart here member
    simp only [entry, wipe, if_neg other]
  have cells : (fun b => if b ∈ bs then none else (wipe freeValues m as).cells b) =
      fun b => if b ∈ as ++ bs then none else m.cells b := by
    funext b
    by_cases first : b ∈ as <;> by_cases second : b ∈ bs <;> simp [wipe, first, second]
  simp only [wipe] at kept cells ⊢
  rw [kept, cells]
  cases freeValues <;> simp [List.filterMap_append, List.append_assoc]

theorem wipe_one {a : Nat} {c : EntryCell K V} (here : m.cells a = some c) :
    wipe freeValues m [a] = { m with
      cells := Function.update m.cells a none
      freedKeys := m.freedKeys ++ [c.k]
      freedValues := if freeValues then m.freedValues ++ [c.v] else m.freedValues } := by
  have cells : (fun b => if b ∈ [a] then none else m.cells b) = Function.update m.cells a none := by
    funext b
    simp [Function.update_apply]
  have entries : [a].filterMap m.entry = [c.toEntry] := by simp [entry, here]
  rw [wipe, cells, entries]
  rfl

theorem destroyFrom_eq {p : Option Nat} (chain : Chain m.next p as)
    (live : ∀ a ∈ as, ∃ c, m.cells a = some c) {fuel : Nat} (enough : as.length < fuel) :
    destroyFrom freeValues fuel p m = some (wipe freeValues m as) := by
  induction as generalizing p m fuel with
  | nil =>
      obtain ⟨fuel, rfl⟩ := Nat.exists_eq_succ_of_ne_zero (Nat.ne_of_gt enough)
      rw [show p = none from chain, wipe_nil]
      rfl
  | cons a as ih =>
      obtain ⟨fuel, rfl⟩ := Nat.exists_eq_succ_of_ne_zero (Nat.ne_of_gt (Nat.zero_lt_of_lt enough))
      have apart := (List.nodup_cons.mp (chain_nodup chain)).1
      obtain ⟨rfl, rest⟩ := chain
      obtain ⟨c, here⟩ := live a List.mem_cons_self
      have one : (if freeValues then { m with freedValues := m.freedValues ++ [c.v] } else m).freeEntry a =
          some (wipe freeValues m [a]) := by
        rw [wipe_one here]
        cases freeValues with
        | false => exact freeEntry_eq here
        | true => exact freeEntry_eq (m := { m with freedValues := m.freedValues ++ [c.v] }) here
      have others : ∀ b ∈ as, (wipe freeValues m [a]).cells b = m.cells b := by
        intro b member
        have other : b ∉ [a] := fun same => apart (List.mem_singleton.mp same ▸ member)
        exact if_neg other
      have rest' : Chain (wipe freeValues m [a]).next c.next as := by
        rw [next_eq here] at rest
        refine chain_congr (fun b member => ?_) rest
        rw [next, next, others b member]
      have later := ih rest' (fun b member => by
        rw [others b member]
        exact live b (.tail a member)) (Nat.lt_of_succ_lt_succ enough)
      simp only [destroyFrom, here, one, later, Option.bind_eq_bind, Option.bind_some]
      have disjoint : List.Disjoint [a] as := by
        intro b first second
        rw [List.mem_singleton.mp first] at second
        exact apart second
      rw [wipe_append disjoint]
      rfl

theorem destroyBuckets_eq {is : List Nat} (once : is.Nodup)
    (slots : ∀ i ∈ is, m.table[i]? = some (chains i).head?)
    (buckets : ∀ i ∈ is, Chain m.next (chains i).head? (chains i))
    (live : ∀ i ∈ is, ∀ a ∈ chains i, ∃ c, m.cells a = some c)
    (apart : ∀ i j, i ≠ j → List.Disjoint (chains i) (chains j))
    (short : ∀ i ∈ is, (chains i).length < m.brk + 1) :
    destroyBuckets freeValues is m = some (wipe freeValues m (is.flatMap chains)) := by
  induction is generalizing m with
  | nil => rw [List.flatMap_nil, wipe_nil, destroyBuckets]
  | cons i is ih =>
      obtain ⟨absent, once⟩ := List.nodup_cons.mp once
      have first : destroyFrom freeValues (m.brk + 1) (chains i).head? m = _ :=
        destroyFrom_eq (buckets i List.mem_cons_self) (live i List.mem_cons_self)
          (short i List.mem_cons_self)
      have others : ∀ j ∈ is, ∀ a ∈ chains j, (wipe freeValues m (chains i)).cells a = m.cells a := by
        intro j member a inside
        have other : j ≠ i := by
          rintro rfl
          exact absent member
        exact if_neg (apart j i other inside)
      have buckets' : ∀ j ∈ is, Chain (wipe freeValues m (chains i)).next (chains j).head? (chains j) := by
        intro j member
        refine chain_congr (fun a inside => ?_) (buckets j (.tail i member))
        rw [next, next, others j member a inside]
      have live' : ∀ j ∈ is, ∀ a ∈ chains j, ∃ c, (wipe freeValues m (chains i)).cells a = some c := by
        intro j member a inside
        rw [others j member a inside]
        exact live j (.tail i member) a inside
      have later := ih (m := wipe freeValues m (chains i)) once
        (fun j member => slots j (.tail i member)) buckets' live'
        fun j member => short j (.tail i member)
      have disjoint : List.Disjoint (chains i) (is.flatMap chains) := by
        intro a here there
        obtain ⟨j, member, inside⟩ := List.mem_flatMap.mp there
        have other : i ≠ j := by
          rintro rfl
          exact absent member
        exact apart i j other here inside
      simp only [destroyBuckets, slots i List.mem_cons_self, first, later, Option.bind_eq_bind,
        Option.bind_some]
      rw [wipe_append disjoint]
      rfl

theorem destroy_eq (layout : Layout m chains) :
    m.hashtableDestroy freeValues = some { wipe freeValues m (m.allocated chains) with table := [] } := by
  have slots : ∀ i ∈ List.range m.tablelength, m.table[i]? = some (chains i).head? :=
    fun i member => layout.slot (List.mem_range.mp member)
  have buckets : ∀ i ∈ List.range m.tablelength, Chain m.next (chains i).head? (chains i) := by
    intro i _
    rw [← layout.buckets.head_eq]
    exact layout.buckets.chain i
  have freed : destroyBuckets freeValues (List.range m.tablelength) m = _ :=
    destroyBuckets_eq List.nodup_range slots buckets (fun i _ a member => layout.cell member)
      layout.buckets.apart fun i _ => layout.short i
  simp only [hashtableDestroy, freed, Option.bind_eq_bind, Option.bind_some]
  rfl

/-- Whatever has been done with the table, destroying it leaves no entry allocated, and every key that
    was stored has been freed once, with its entry or before. -/
theorem hashtableDestroy_frees {ops : List (HashOp K V)} {log : List (Bag.Op K V × Bag.Answer V)}
    {struct table : Bool} {limitOf : Nat → Nat} {minsize : Nat} {hashf : K → UInt32} {eqf : K → K → Bool}
    (eq : ∀ k k', eqf k k' = true ↔ k = k')
    (created : createHashtable struct table limitOf minsize hashf eqf = some m)
    (run : Transition.exec step ([], m) ops = some (log, m')) (freeValues : Bool) :
    ∃ left bag, m'.hashtableDestroy freeValues = some left ∧ (∀ a, left.cells a = none) ∧
      (left.freedKeys : Multiset K) = ((log.flatMap Bag.added).map Prod.fst : List K) ∧
      Bag.Run (2 ^ 32) 0 log bag ∧
      (left.freedValues : Multiset V) = if freeValues then bag.map Prod.snd else 0 := by
  obtain ⟨bag, answers, ⟨chains, layout, -, -, same⟩, keys, values⟩ := run_answered eq created run
  refine ⟨_, bag, destroy_eq layout, fun a => ?_, ?_, answers, ?_⟩
  · change (if a ∈ m'.allocated chains then none else m'.cells a) = none
    split
    · rfl
    · rename_i free
      rw [← layout.mem_allocated] at free
      exact Option.not_isSome_iff_eq_none.mp free
  · change ((m'.freedKeys ++ ((m'.allocated chains).filterMap m'.entry).map Entry.k : List K) :
      Multiset K) = _
    have balance := congrArg (Multiset.map Prod.fst) (Bag.run_balance answers)
    rw [Multiset.map_add, Multiset.map_coe, Multiset.map_coe] at balance
    rw [keys, allocated_entries, ← Multiset.coe_add, ← Hashtable.bag_keys, same, add_comm, balance]
  · change ((if freeValues then m'.freedValues ++ ((m'.allocated chains).filterMap m'.entry).map Entry.v
      else m'.freedValues : List V) : Multiset V) = _
    rw [values, allocated_entries, List.nil_append]
    cases freeValues with
    | false => rfl
    | true => rw [if_pos rfl, if_pos rfl, ← same, Hashtable.bag_values]

theorem hashtableDestroy_frees_threeKeys :
    ∃ m m' : HashHeap Nat Nat,
      createHashtable true true singleLimit 16 UInt32.ofNat (fun k k' => k == k') = some m ∧
      ∃ log, Transition.exec step ([], m) threeKeys = some (log, m') ∧
        ∃ left bag, m'.hashtableDestroy true = some left ∧ (∀ a, left.cells a = none) ∧
          (left.freedKeys : Multiset Nat) = ([1, 8, 7] : List Nat) ∧ Bag.Run (2 ^ 32) 0 log bag ∧
          (left.freedValues : Multiset Nat) = if true then bag.map Prod.snd else 0 :=
  ⟨_, _, rfl, _, rfl, hashtableDestroy_frees beq_keys
    (show createHashtable true true singleLimit 16 UInt32.ofNat _ = some _ from rfl)
    (show Transition.exec step ([], _) threeKeys = some (_, _) from rfl) true⟩

end Destroy

end HashHeap

end OpenRpc
