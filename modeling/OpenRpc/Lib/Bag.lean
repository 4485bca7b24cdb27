import Mathlib

/-! # Bags of keys with values

What a table that allows a key more than once is for: it holds a bag of pairs, a search answers some
value of the key, a removal takes out the pair it answers. The order among the pairs of one key is left
open. Used with keys that are put in only while they are absent, a bag is a map.
-/

namespace OpenRpc.Bag

variable {K V : Type}

inductive Op (K V : Type) where
  | put (k : K) (v : V)
  | get (k : K)
  | take (k : K)
  | size

inductive Answer (V : Type) where
  /-- `false`: nothing was stored. -/
  | stored (done : Bool)
  | value (v : Option V)
  | size (n : Nat)

/-- What an operation may answer, and what it leaves; sizes are counted modulo `wrap`. -/
inductive Step (wrap : Nat) (bag : Multiset (K × V)) : Op K V → Answer V → Multiset (K × V) → Prop
  | stored (k : K) (v : V) : Step wrap bag (.put k v) (.stored true) ((k, v) ::ₘ bag)
  | refused (k : K) (v : V) : Step wrap bag (.put k v) (.stored false) bag
  | found {k : K} {v : V} (here : (k, v) ∈ bag) : Step wrap bag (.get k) (.value (some v)) bag
  | missing {k : K} (absent : ∀ v, (k, v) ∉ bag) : Step wrap bag (.get k) (.value none) bag
  | taken {k : K} {v : V} {rest : Multiset (K × V)} (here : bag = (k, v) ::ₘ rest) :
      Step wrap bag (.take k) (.value (some v)) rest
  | nothing {k : K} (absent : ∀ v, (k, v) ∉ bag) : Step wrap bag (.take k) (.value none) bag
  | size : Step wrap bag .size (.size (bag.card % wrap)) bag

/-- Operations with their answers, one after the other. -/
inductive Run (wrap : Nat) (bag : Multiset (K × V)) :
    List (Op K V × Answer V) → Multiset (K × V) → Prop
  | nil : Run wrap bag [] bag
  | snoc {bag' bag'' : Multiset (K × V)} {log : List (Op K V × Answer V)} {op : Op K V}
      {answer : Answer V} (run : Run wrap bag log bag') (step : Step wrap bag' op answer bag'') :
      Run wrap bag (log ++ [(op, answer)]) bag''

/-- The pair an operation has added. -/
def added : Op K V × Answer V → List (K × V)
  | (.put k v, .stored true) => [(k, v)]
  | _ => []

/-- The pair an operation has taken out. -/
def removed : Op K V × Answer V → List (K × V)
  | (.take k, .value (some v)) => [(k, v)]
  | _ => []

theorem run_balance {wrap : Nat} {bag : Multiset (K × V)} {log : List (Op K V × Answer V)}
    (run : Run wrap 0 log bag) :
    bag + (log.flatMap removed : List (K × V)) = (log.flatMap added : List (K × V)) := by
  induction run with
  | nil => rfl
  | @snoc bag' bag'' log op answer run step ih =>
      rw [List.flatMap_append, List.flatMap_append, List.flatMap_singleton, List.flatMap_singleton,
        ← Multiset.coe_add, ← Multiset.coe_add, ← ih]
      cases step with
      | stored k v => simp [added, removed, add_comm]
      | refused k v => simp [added, removed]
      | found here => simp [added, removed]
      | missing absent => simp [added, removed]
      | @taken k v _ here =>
          subst here
          simp only [added, removed, Multiset.coe_singleton, Multiset.coe_nil, add_zero,
            ← Multiset.singleton_add]
          ac_rfl
      | nothing absent => simp [added, removed]
      | size => simp [added, removed]

theorem run_card {wrap : Nat} {bag : Multiset (K × V)} {log : List (Op K V × Answer V)}
    (run : Run wrap 0 log bag) : bag.card ≤ log.length := by
  induction run with
  | nil => simp
  | @snoc bag' bag'' log op answer run step ih =>
      rw [List.length_append, List.length_singleton]
      cases step with
      | stored k v =>
          rw [Multiset.card_cons]
          omega
      | refused | found | missing | nothing | size => omega
      | taken here =>
          rw [here, Multiset.card_cons] at ih
          omega

section Map

variable [DecidableEq K]

/-- The map after one more operation with its answer. -/
def write (f : K → Option V) : Op K V × Answer V → K → Option V
  | (.put k v, .stored true) => Function.update f k (some v)
  | (.take k, _) => Function.update f k none
  | _ => f

/-- What was last put in under each key and not taken out since. -/
def latest (log : List (Op K V × Answer V)) : K → Option V := log.foldl write fun _ => none

theorem latest_snoc (log : List (Op K V × Answer V)) (entry : Op K V × Answer V) :
    latest (log ++ [entry]) = write (latest log) entry := by
  rw [latest, List.foldl_append]
  rfl

/-- A key is put in only while it is absent. -/
def Fresh (log : List (Op K V × Answer V)) : Prop :=
  ∀ before k v answer after, log = before ++ (.put k v, answer) :: after → latest before k = none

theorem Fresh.before {log more : List (Op K V × Answer V)} (fresh : Fresh (log ++ more)) : Fresh log := by
  intro before k v answer after split
  exact fresh before k v answer (after ++ more) (by rw [split, List.append_assoc]; rfl)

theorem fresh_iff {log : List (Op K V × Answer V)} :
    Fresh log ↔ ∀ i : Fin log.length, ∀ p ∈ added ((log.get i).1, .stored true),
      (latest (log.take i) p.1).isNone = true := by
  simp only [Option.isNone_iff_eq_none]
  constructor
  · intro fresh i p member
    have split : log = log.take i ++ log.get i :: log.drop (i + 1) := by simp
    generalize log.get i = entry at split member
    obtain ⟨op, answer⟩ := entry
    cases op with
    | put k v =>
        cases List.mem_singleton.mp member
        exact fresh _ k v answer _ split
    | get | take | size => cases member
  · intro each before k v answer after split
    have inside : before.length < log.length := by simp [split]
    have here := each ⟨before.length, inside⟩ (k, v)
    simpa [split, added] using here

instance (log : List (Op K V × Answer V)) : Decidable (Fresh log) := decidable_of_iff _ fresh_iff.symm

/-- Each key is in the bag at most once, and under the value the map has for it. -/
structure IsMap (bag : Multiset (K × V)) (f : K → Option V) : Prop where
  once : bag.Nodup
  value : ∀ k v, (k, v) ∈ bag ↔ f k = some v

theorem isMap_step {wrap : Nat} {bag bag' : Multiset (K × V)} {f : K → Option V} {op : Op K V}
    {answer : Answer V} (isMap : IsMap bag f) (step : Step wrap bag op answer bag')
    (fresh : ∀ k v, op = .put k v → f k = none) :
    IsMap bag' (write f (op, answer)) ∧ ∀ k, op = .get k ∨ op = .take k → answer = .value (f k) := by
  obtain ⟨once, value⟩ := isMap
  cases step with
  | stored k v =>
      have absent : ∀ v', (k, v') ∉ bag := by
        intro v' member
        have there := (value k v').mp member
        rw [fresh k v rfl] at there
        cases there
      refine ⟨⟨Multiset.nodup_cons.mpr ⟨absent v, once⟩, fun k' v' => ?_⟩, by simp⟩
      rw [Multiset.mem_cons, write, Function.update_apply, value]
      split
      · rename_i same
        subst same
        simp [fresh k' v rfl, eq_comm]
      · rename_i other
        simp [other]
  | refused k v => exact ⟨⟨once, value⟩, by simp⟩
  | @found k v here =>
      refine ⟨⟨once, value⟩, fun k' asked => ?_⟩
      obtain rfl : k = k' := by simpa using asked
      rw [(value k v).mp here]
  | @missing k absent =>
      refine ⟨⟨once, value⟩, fun k' asked => ?_⟩
      obtain rfl : k = k' := by simpa using asked
      rw [Option.eq_none_iff_forall_ne_some.mpr fun v there => absent v ((value k v).mpr there)]
  | @taken k v _ here =>
      subst here
      obtain ⟨apart, once⟩ := Multiset.nodup_cons.mp once
      have now : f k = some v := (value k v).mp (Multiset.mem_cons_self _ _)
      refine ⟨⟨once, fun k' v' => ?_⟩, fun k' asked => ?_⟩
      · rw [write, Function.update_apply]
        split
        · rename_i same
          subst same
          refine iff_of_false (fun member => ?_) (by simp)
          have there := (value k' v').mp (Multiset.mem_cons_of_mem member)
          cases now.symm.trans there
          exact apart member
        · rename_i other
          rw [← value, Multiset.mem_cons]
          simp [other]
      · obtain rfl : k = k' := by simpa using asked
        rw [now]
  | @nothing k absent =>
      have none_now : f k = none :=
        Option.eq_none_iff_forall_ne_some.mpr fun v there => absent v ((value k v).mpr there)
      refine ⟨⟨once, fun k' v' => ?_⟩, fun k' asked => ?_⟩
      · rw [write, Function.update_apply, value]
        split
        · rename_i same
          rw [same, none_now]
        · rfl
      · obtain rfl : k = k' := by simpa using asked
        rw [none_now]
  | size => exact ⟨⟨once, value⟩, by simp⟩

/-- A map has so many keys. -/
def KeyCount (f : K → Option V) (n : Nat) : Prop :=
  ∃ keys : Finset K, (∀ k, k ∈ keys ↔ (f k).isSome = true) ∧ keys.card = n

omit [DecidableEq K] in
theorem IsMap.keyCount {bag : Multiset (K × V)} {f : K → Option V} (isMap : IsMap bag f) :
    KeyCount f bag.card := by
  obtain ⟨once, value⟩ := isMap
  have keys : (bag.map Prod.fst).Nodup := by
    refine once.map_on fun p here q there same => ?_
    have first := (value p.1 p.2).mp here
    have last := (value q.1 q.2).mp there
    rw [same] at first
    exact Prod.ext same (Option.some.inj (first.symm.trans last))
  refine ⟨⟨bag.map Prod.fst, keys⟩, fun k => ?_, Multiset.card_map ..⟩
  rw [Finset.mem_mk, Multiset.mem_map, Option.isSome_iff_exists]
  constructor
  · rintro ⟨⟨k', v⟩, here, rfl⟩
    exact ⟨v, (value k' v).mp here⟩
  · rintro ⟨v, there⟩
    exact ⟨(k, v), (value k v).mpr there, rfl⟩

/-- The answer of a map to a search, a removal or a count. -/
def MapAnswer (wrap : Nat) (f : K → Option V) : Op K V → Answer V → Prop
  | .get k, answer | .take k, answer => answer = .value (f k)
  | .size, answer => ∃ n, KeyCount f n ∧ answer = .size (n % wrap)
  | .put _ _, _ => True

theorem isMap_answer {wrap : Nat} {bag bag' : Multiset (K × V)} {f : K → Option V} {op : Op K V}
    {answer : Answer V} (isMap : IsMap bag f) (step : Step wrap bag op answer bag')
    (fresh : ∀ k v, op = .put k v → f k = none) : MapAnswer wrap f op answer := by
  obtain ⟨-, answered⟩ := isMap_step isMap step fresh
  cases op with
  | put => trivial
  | get k => exact answered k (.inl rfl)
  | take k => exact answered k (.inr rfl)
  | size =>
      cases step
      exact ⟨_, isMap.keyCount, rfl⟩

/-- With fresh keys the bag is the map of what was last put in, and the answers are the map's. -/
theorem run_map {wrap : Nat} {bag : Multiset (K × V)} {log : List (Op K V × Answer V)}
    (run : Run wrap 0 log bag) (fresh : Fresh log) :
    IsMap bag (latest log) ∧ ∀ before op answer after, log = before ++ (op, answer) :: after →
      MapAnswer wrap (latest before) op answer := by
  induction run with
  | nil => exact ⟨⟨Multiset.nodup_zero, by simp [latest]⟩, by simp⟩
  | @snoc _ _ log op answer run step ih =>
      obtain ⟨isMap, answers⟩ := ih fresh.before
      have free : ∀ k v, op = .put k v → latest log k = none :=
        fun k v same => fresh log k v answer [] (by rw [same])
      rw [latest_snoc]
      refine ⟨(isMap_step isMap step free).1, fun before op' answer' after split => ?_⟩
      rcases List.eq_nil_or_concat after with rfl | ⟨after, last, rfl⟩
      · obtain ⟨rfl, same⟩ := List.append_inj' split rfl
        cases same
        exact isMap_answer isMap step free
      · rw [List.concat_eq_append, ← List.cons_append, ← List.append_assoc] at split
        obtain ⟨split, -⟩ := List.append_inj' split rfl
        exact answers before op' answer' after split

end Map

end OpenRpc.Bag
