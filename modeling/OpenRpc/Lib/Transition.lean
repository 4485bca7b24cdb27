import Mathlib

/-! # Transition systems with actions

A system is a function from a state and an action to the state after it, or to nothing where the
action cannot be taken. Runs are lists of actions. The rules carry a property from the step to the
run, with or without a condition that the steps of the run have to meet, and say when a condition on
the steps is the same as another one, or as a property of all states of the run. For a system that is
given as a relation there is the rule that a measure going down leads to its end.
-/

namespace OpenRpc.Transition

variable {σ ℓ : Type}

abbrev Step (σ ℓ : Type) := σ → ℓ → Option σ

/-- The state after a list of actions. -/
def exec (step : Step σ ℓ) : σ → List ℓ → Option σ
  | s, [] => some s
  | s, a :: rest => (step s a).bind fun s' => exec step s' rest

/-- Every action that is taken is taken in a state where `P` holds of the two. -/
def Along (step : Step σ ℓ) (P : σ → ℓ → Prop) : σ → List ℓ → Prop
  | _, [] => True
  | s, a :: rest => ∀ s', step s a = some s' → P s a ∧ Along step P s' rest

/-- Every state that is reached meets `Q`. -/
def Always (step : Step σ ℓ) (Q : σ → Prop) : σ → List ℓ → Prop
  | s, [] => Q s
  | s, a :: rest => Q s ∧ ∀ s', step s a = some s' → Always step Q s' rest

variable {step : Step σ ℓ} {P P' : σ → ℓ → Prop} {I Q : σ → Prop}

theorem exec_cons {s s' : σ} {a : ℓ} {rest : List ℓ} :
    exec step s (a :: rest) = some s' ↔ ∃ s₁, step s a = some s₁ ∧ exec step s₁ rest = some s' :=
  Option.bind_eq_some_iff

theorem exec_append {s s' : σ} {as bs : List ℓ} :
    exec step s (as ++ bs) = some s' ↔
      ∃ s₁, exec step s as = some s₁ ∧ exec step s₁ bs = some s' := by
  induction as generalizing s with
  | nil => simp [exec]
  | cons a as ih =>
      constructor
      · intro run
        obtain ⟨s₁, first, rest⟩ := exec_cons.mp run
        obtain ⟨s₂, mid, last⟩ := ih.mp rest
        exact ⟨s₂, exec_cons.mpr ⟨s₁, first, mid⟩, last⟩
      · rintro ⟨s₂, mid, last⟩
        obtain ⟨s₁, first, rest⟩ := exec_cons.mp mid
        exact exec_cons.mpr ⟨s₁, first, ih.mpr ⟨s₂, rest, last⟩⟩

/-- The invariant rule for runs whose steps meet a condition. -/
theorem exec_invariant_along (keeps : ∀ s a s', P s a → step s a = some s' → I s → I s')
    {s s' : σ} {as : List ℓ} (along : Along step P s as) (run : exec step s as = some s')
    (start : I s) : I s' := by
  induction as generalizing s with
  | nil =>
      cases run
      exact start
  | cons a as ih =>
      obtain ⟨s₁, first, rest⟩ := exec_cons.mp run
      obtain ⟨here, later⟩ := along s₁ first
      exact ih later rest (keeps s a s₁ here first start)

/-- The invariant rule. -/
theorem exec_invariant (keeps : ∀ s a s', step s a = some s' → I s → I s') {s s' : σ} {as : List ℓ}
    (run : exec step s as = some s') (start : I s) : I s' := by
  have always : ∀ as s, Along step (fun _ _ => True) s as := by
    intro as
    induction as with
    | nil => exact fun _ => trivial
    | cons a as ih => exact fun _ s' _ => ⟨trivial, ih s'⟩
  exact exec_invariant_along (fun s a s' _ => keeps s a s') (always as s) run start

instance Along.decidable [∀ s a, Decidable (P s a)] : ∀ s as, Decidable (Along step P s as)
  | _, [] => isTrue trivial
  | s, a :: rest =>
      have := fun s' => Along.decidable s' rest
      inferInstanceAs (Decidable (∀ s' ∈ step s a, P s a ∧ Along step P s' rest))

theorem along_imp (sound : ∀ s a, P s a → I s → P' s a)
    (keeps : ∀ s a s', P s a → step s a = some s' → I s → I s') {s : σ} {as : List ℓ}
    (along : Along step P s as) (start : I s) : Along step P' s as := by
  induction as generalizing s with
  | nil => trivial
  | cons a as ih =>
      intro s' next
      obtain ⟨here, later⟩ := along s' next
      exact ⟨sound s a here start, ih later (keeps s a s' here next start)⟩

theorem along_of_invariant (sound : ∀ s a, I s → P' s a)
    (keeps : ∀ s a s', P s a → step s a = some s' → I s → I s') {s : σ} {as : List ℓ}
    (along : Along step P s as) (start : I s) : Along step P' s as :=
  along_imp (fun s a _ => sound s a) keeps along start

theorem along_last {s s₁ s₂ : σ} {as : List ℓ} {a : ℓ} (along : Along step P s (as ++ [a]))
    (run : exec step s as = some s₁) (next : step s₁ a = some s₂) : P s₁ a := by
  induction as generalizing s with
  | nil =>
      cases run
      exact (along s₂ next).1
  | cons b as ih =>
      obtain ⟨s', first, rest⟩ := exec_cons.mp run
      exact ih (along s' first).2 rest

theorem always_last {s s' : σ} {as : List ℓ} (always : Always step Q s as)
    (run : exec step s as = some s') : Q s' := by
  induction as generalizing s with
  | nil =>
      cases run
      exact always
  | cons a as ih =>
      obtain ⟨s₁, first, rest⟩ := exec_cons.mp run
      exact ih (always.2 s₁ first) rest

theorem along_congr (same : ∀ s a, I s → (P s a ↔ P' s a))
    (keeps : ∀ s a s', P s a → step s a = some s' → I s → I s') {s : σ} (as : List ℓ)
    (start : I s) : Along step P s as ↔ Along step P' s as := by
  induction as generalizing s with
  | nil => exact Iff.rfl
  | cons a as ih =>
      refine forall₂_congr fun s' next => ?_
      constructor
      · rintro ⟨here, later⟩
        exact ⟨(same s a start).mp here, (ih (keeps s a s' here next start)).mp later⟩
      · rintro ⟨here, later⟩
        have here' := (same s a start).mpr here
        exact ⟨here', (ih (keeps s a s' here' next start)).mpr later⟩

/-- The invariant rule for all states of a run. -/
theorem always_of_along (sound : ∀ s, I s → Q s)
    (keeps : ∀ s a s', P s a → step s a = some s' → I s → I s') {s : σ} {as : List ℓ}
    (along : Along step P s as) (start : I s) : Always step Q s as := by
  induction as generalizing s with
  | nil => exact sound s start
  | cons a as ih =>
      refine ⟨sound s start, fun s' next => ?_⟩
      obtain ⟨here, later⟩ := along s' next
      exact ih later (keeps s a s' here next start)

/-- All states of a run meet `Q` exactly when its steps meet `P`, for an invariant that implies `Q`,
    is kept by the steps meeting `P`, and leads to `Q` by no other steps. -/
theorem always_iff_along (sound : ∀ s, I s → Q s)
    (keeps : ∀ s a s', P s a → step s a = some s' → I s → I s')
    (needed : ∀ s a s', I s → step s a = some s' → Q s' → P s a) {s : σ} (as : List ℓ)
    (start : I s) : Always step Q s as ↔ Along step P s as := by
  refine ⟨fun always => ?_, fun along => always_of_along sound keeps along start⟩
  induction as generalizing s with
  | nil => trivial
  | cons a as ih =>
      intro s' next
      have reached : Q s' := by
        cases as with
        | nil => exact always.2 s' next
        | cons b as => exact (always.2 s' next).1
      have here := needed s a s' start next reached
      exact ⟨here, ih (keeps s a s' here next start) (always.2 s' next)⟩

/-- The condition from the last state of a run: a step that breaks it leads to states of a kind that no
    step leaves and the last state is not of. -/
theorem along_of_final {B : σ → Prop} (keeps : ∀ s a s', step s a = some s' → I s → I s')
    (breaks : ∀ s a s', I s → step s a = some s' → ¬P s a → B s')
    (lasts : ∀ s a s', I s → step s a = some s' → B s → B s') {s s' : σ} {as : List ℓ}
    (run : exec step s as = some s') (final : ¬B s') (start : I s) : Along step P s as := by
  induction as generalizing s with
  | nil => trivial
  | cons a as ih =>
      obtain ⟨s₁, first, rest⟩ := exec_cons.mp run
      have next := keeps s a s₁ first start
      intro s₂ taken
      cases first.symm.trans taken
      refine ⟨?_, ih rest next⟩
      by_contra broken
      have stays : ∀ s a s', step s a = some s' → I s ∧ B s → I s' ∧ B s' := by
        intro s a s' taken here
        exact ⟨keeps s a s' taken here.1, lasts s a s' here.1 taken here.2⟩
      exact final (exec_invariant stays rest ⟨next, breaks s a s₁ start first broken⟩).2

/-- A run stops at the first action that cannot be taken. -/
theorem exec_eq_none {s : σ} {as : List ℓ} :
    exec step s as = none ↔
      ∃ before a after s', as = before ++ a :: after ∧ exec step s before = some s' ∧ step s' a = none := by
  induction as generalizing s with
  | nil => simp [exec]
  | cons a as ih =>
      rw [exec]
      cases first : step s a with
      | none =>
          refine iff_of_true rfl ⟨[], a, as, s, rfl, rfl, first⟩
      | some s₁ =>
          rw [Option.bind_some, ih]
          constructor
          · rintro ⟨before, b, after, s', rfl, run, stops⟩
            exact ⟨a :: before, b, after, s', rfl, exec_cons.mpr ⟨s₁, first, run⟩, stops⟩
          · rintro ⟨before, b, after, s', split, run, stops⟩
            cases before with
            | nil =>
                cases run
                cases split
                rw [first] at stops
                cases stops
            | cons a' before =>
                cases split
                obtain ⟨s₂, first', rest⟩ := exec_cons.mp run
                cases first.symm.trans first'
                exact ⟨before, b, after, s', rfl, rest, stops⟩

section Logged

variable {ε : Type}

/-- What the steps of a run emit, one after the other. -/
def emitted (step : Step σ ℓ) (emit : σ → ℓ → List ε) : σ → List ℓ → List ε
  | _, [] => []
  | s, a :: rest =>
      emit s a ++
        match step s a with
        | some s' => emitted step emit s' rest
        | none => []

/-- The invariant rule for a state together with what was emitted on the way to it. -/
theorem exec_logged {emit : σ → ℓ → List ε} {J : σ → List ε → Prop}
    (keeps : ∀ s a s' log, step s a = some s' → J s log → J s' (log ++ emit s a)) {s s' : σ}
    {as : List ℓ} {log : List ε} (run : exec step s as = some s') (start : J s log) :
    J s' (log ++ emitted step emit s as) := by
  induction as generalizing s log with
  | nil =>
      cases run
      rwa [emitted, List.append_nil]
  | cons a as ih =>
      obtain ⟨s₁, first, rest⟩ := exec_cons.mp run
      have later := ih rest (keeps s a s₁ log first start)
      simp only [emitted, first]
      rwa [← List.append_assoc]

/-- Where the state has no say in it, a run that takes place emits what its actions do. -/
theorem emitted_actions (f : ℓ → List ε) {s s' : σ} {as : List ℓ} (run : exec step s as = some s') :
    emitted step (fun _ a => f a) s as = as.flatMap f := by
  induction as generalizing s with
  | nil => rfl
  | cons a as ih =>
      obtain ⟨s₁, first, rest⟩ := exec_cons.mp run
      simp only [emitted, first, List.flatMap_cons, ih rest]

end Logged

/-- Where every state short of `Q` has a step that keeps `I` and lowers a measure, a state of `Q` is
    reached. -/
theorem leads_to {next : σ → σ → Prop} (measure : σ → Nat)
    (progress : ∀ s, I s → ¬Q s → ∃ s', next s s' ∧ I s' ∧ measure s' < measure s) {s : σ}
    (start : I s) : ∃ s', Relation.ReflTransGen next s s' ∧ I s' ∧ Q s' := by
  generalize bound : measure s = n
  induction n using Nat.strong_induction_on generalizing s with
  | _ n ih =>
      by_cases reached : Q s
      · exact ⟨s, .refl, start, reached⟩
      · obtain ⟨s₁, first, here, less⟩ := progress s start reached
        obtain ⟨s', rest, last⟩ := ih (measure s₁) (bound ▸ less) here rfl
        exact ⟨s', .head first rest, last⟩

end OpenRpc.Transition
