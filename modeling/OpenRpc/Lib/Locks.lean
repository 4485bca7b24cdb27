import Mathlib

/-! # Code that locks and unlocks

The view of one thread. A mutex is a flag that says whether the thread holds it, and it is not
recursive: to lock one that is held never ends. The other threads act where this one waits, before it
gets a mutex and while it sleeps on a condition variable; what they do is given beforehand, a turn for
each wait. `Ensures` is the weakest precondition under which no mutex is locked that is held and none
is unlocked that is not, and what is asked of a return holds where the code returns.
-/

namespace OpenRpc.Locks

variable {μ σ α β : Type}

/-- What the other threads do while this one waits, and whether a timed wait ends by its time. -/
structure Turn (σ : Type) where
  act : σ → σ
  timedOut : Bool

structure Run (μ σ : Type) where
  held : μ → Bool
  shared : σ
  others : List (Turn σ)

/-- Where the turns are used up the others do nothing more. -/
def afterTurn : σ → List (Turn σ) → σ
  | s, [] => s
  | s, turn :: _ => turn.act s

/-- What several turns leave. -/
def afterTurns (s : σ) (turns : List (Turn σ)) : σ := turns.foldl (fun s turn => turn.act s) s

namespace Run

/-- What the thread finds when it gets a mutex. -/
def found (r : Run μ σ) : σ := afterTurn r.shared r.others

def setHeld [DecidableEq μ] (r : Run μ σ) (m : μ) (flag : Bool) : Run μ σ :=
  { r with held := Function.update r.held m flag }

def setShared (r : Run μ σ) (s : σ) : Run μ σ := { r with shared := s }

/-- Behind a wait. -/
def turned (r : Run μ σ) : Run μ σ := { r with shared := r.found, others := r.others.tail }

end Run

/-- How code ends. -/
inductive Ending (μ σ α : Type) where
  | returned (a : α) (r : Run μ σ)
  /-- It locks a mutex that it holds. -/
  | relocked (m : μ)
  /-- It unlocks a mutex, or waits with one, that it does not hold. -/
  | unheld (m : μ)
  /-- By a failed assertion, a null pointer or an access outside a block. -/
  | stopped
  /-- Its turns or its rounds are used up before it returns. -/
  | unfinished

def Code (μ σ α : Type) : Type := Run μ σ → Ending μ σ α

namespace Code

instance : Monad (Code μ σ) where
  pure a := fun r => .returned a r
  bind c f := fun r =>
    match c r with
    | .returned a r => f a r
    | .relocked m => .relocked m
    | .unheld m => .unheld m
    | .stopped => .stopped
    | .unfinished => .unfinished

def lock [DecidableEq μ] (m : μ) : Code μ σ Unit := fun r =>
  if r.held m then .relocked m else .returned () (r.turned.setHeld m true)

def unlock [DecidableEq μ] (m : μ) : Code μ σ Unit := fun r =>
  if r.held m then .returned () (r.setHeld m false) else .unheld m

def look : Code μ σ σ := fun r => .returned r.shared r

def put (s : σ) : Code μ σ Unit := fun r => .returned () (r.setShared s)

def stop : Code μ σ α := fun _ => .stopped

/-- `assert`. -/
def assert (p : Prop) [Decidable p] : Code μ σ Unit := if p then pure () else stop

/-- A null pointer is written or read through. -/
def deref : Option α → Code μ σ α
  | some a => pure a
  | none => stop

/-- A loop that waits on a condition variable as long as `waits` holds. The mutex is given up for each
    wait and taken again behind it. `leaves` says behind which waits the loop is left at once. -/
def waitWhile (m : μ) (waits : σ → Bool) (leaves : Turn σ → Bool) : Code μ σ Unit := fun r =>
  go r.held r.shared r.others
where
  go (held : μ → Bool) (s : σ) : List (Turn σ) → Ending μ σ Unit
    | [] =>
        if waits s then if held m then .unfinished else .unheld m
        else .returned () ⟨held, s, []⟩
    | turn :: others =>
        if waits s then
          if held m then
            if leaves turn then .returned () ⟨held, turn.act s, others⟩
            else go held (turn.act s) others
          else .unheld m
        else .returned () ⟨held, s, turn :: others⟩

section WaitWhile

variable {m : μ} {held : μ → Bool} (waits : σ → Bool) (leaves : Turn σ → Bool)

/-- How the loop ends: with all turns used up and the test still holding, or behind some of the turns.
    It has waited only where the test held, and left behind a wait only where that wait leaves it. -/
theorem waitWhile_go_cases (own : held m = true) (s : σ) (turns : List (Turn σ)) :
    (waitWhile.go m waits leaves held s turns = .unfinished ∧
      (∀ k ≤ turns.length, waits (afterTurns s (turns.take k)) = true) ∧
        ∀ turn ∈ turns, leaves turn = false) ∨
    ∃ done rest, turns = done ++ rest ∧
      waitWhile.go m waits leaves held s turns = .returned () ⟨held, afterTurns s done, rest⟩ ∧
      (∀ k < done.length, waits (afterTurns s (done.take k)) = true) ∧
      (∀ turn ∈ done.dropLast, leaves turn = false) ∧
      (waits (afterTurns s done) = true → ∃ turn, done.getLast? = some turn ∧ leaves turn = true) := by
  induction turns generalizing s with
  | nil =>
      cases test : waits s with
      | true => simp [waitWhile.go, test, own, afterTurns]
      | false => exact .inr ⟨[], [], rfl, by simp [waitWhile.go, test, afterTurns], by simp [afterTurns, test]⟩
  | cons turn turns ih =>
      cases test : waits s with
      | false =>
          exact .inr ⟨[], turn :: turns, rfl, by simp [waitWhile.go, test, afterTurns],
            by simp [afterTurns, test]⟩
      | true =>
          cases wake : leaves turn with
          | true =>
              refine .inr ⟨[turn], turns, rfl, by simp [waitWhile.go, test, own, wake, afterTurns], ?_, ?_, ?_⟩
              · intro k below
                obtain rfl : k = 0 := by simpa using below
                exact test
              · simp
              · exact fun _ => ⟨turn, rfl, wake⟩
          | false =>
              have goes : waitWhile.go m waits leaves held s (turn :: turns) =
                  waitWhile.go m waits leaves held (turn.act s) turns := by
                simp [waitWhile.go, test, own, wake]
              rw [goes]
              rcases ih (turn.act s) with ⟨ends, empty, none_leaves⟩ |
                ⟨done, rest, rfl, ends, empty, none_leaves, left⟩
              · refine .inl ⟨ends, fun k below => ?_, List.forall_mem_cons.mpr ⟨wake, none_leaves⟩⟩
                cases k with
                | zero => exact test
                | succ k => exact empty k (by simpa using below)
              · refine .inr ⟨turn :: done, rest, rfl, ends, fun k below => ?_, ?_, fun still => ?_⟩
                · cases k with
                  | zero => exact test
                  | succ k => exact empty k (by simpa using below)
                · cases done with
                  | nil => simp
                  | cons first done => simpa [wake] using none_leaves
                · obtain ⟨last, here, leaves'⟩ := left still
                  refine ⟨last, ?_, leaves'⟩
                  rw [List.getLast?_cons, here, Option.getD_some]

end WaitWhile

/-- `while ((a = next()) != NULL) body(a)`, with a bound on its rounds. -/
def whileSome (next : Code μ σ (Option α)) (body : α → Code μ σ Unit) : Nat → Code μ σ Unit
  | 0 => fun _ => .unfinished
  | rounds + 1 => do
      match ← next with
      | some a =>
          body a
          whileSome next body rounds
      | none => pure ()

theorem bind_assoc {γ : Type} (c : Code μ σ α) (f : α → Code μ σ β) (g : β → Code μ σ γ) :
    (c >>= f) >>= g = c >>= fun a => f a >>= g := by
  funext r
  simp only [bind]
  cases c r <;> rfl

theorem pure_bind (a : α) (f : α → Code μ σ β) : pure a >>= f = f a := rfl

theorem bind_returned {c : Code μ σ α} {f : α → Code μ σ β} {r r' : Run μ σ} {a : α}
    (ended : c r = .returned a r') : (c >>= f) r = f a r' := by
  simp only [bind, ended]

/-- No mutex is locked that is held, none is unlocked that is not, and a return meets `Q`. -/
def Ensures (c : Code μ σ α) (r : Run μ σ) (Q : α → Run μ σ → Prop) : Prop :=
  match c r with
  | .returned a r => Q a r
  | .relocked _ => False
  | .unheld _ => False
  | .stopped => True
  | .unfinished => True

section Rules

variable {r : Run μ σ} {Q Q' : α → Run μ σ → Prop} {R : Unit → Run μ σ → Prop}

@[simp] theorem ensures_pure {a : α} : Ensures (pure a) r Q ↔ Q a r := Iff.rfl

@[simp] theorem ensures_bind {c : Code μ σ β} {f : β → Code μ σ α} :
    Ensures (c >>= f) r Q ↔ Ensures c r fun b r => Ensures (f b) r Q := by
  simp only [Ensures, bind]
  cases c r <;> exact Iff.rfl

@[simp] theorem ensures_look {Q : σ → Run μ σ → Prop} : Ensures look r Q ↔ Q r.shared r := Iff.rfl

@[simp] theorem ensures_put {s : σ} : Ensures (put s) r R ↔ R () (r.setShared s) := Iff.rfl

@[simp] theorem ensures_stop : Ensures stop r Q ↔ True := Iff.rfl

@[simp] theorem ensures_assert {p : Prop} [Decidable p] : Ensures (assert p) r R ↔ p → R () r := by
  unfold assert
  split <;> simp_all

theorem Ensures.mono {c : Code μ σ α} (ensures : Ensures c r Q) (weaker : ∀ a r, Q a r → Q' a r) :
    Ensures c r Q' := by
  unfold Ensures at ensures ⊢
  cases ended : c r with
  | returned a r' =>
      rw [ended] at ensures
      exact weaker a r' ensures
  | relocked m => rwa [ended] at ensures
  | unheld m => rwa [ended] at ensures
  | stopped => trivial
  | unfinished => trivial

section Mutexes

variable [DecidableEq μ] {m : μ}

@[simp] theorem ensures_lock :
    Ensures (lock m) r R ↔ r.held m = false ∧ R () (r.turned.setHeld m true) := by
  simp only [Ensures, lock]
  cases r.held m <;> simp

@[simp] theorem ensures_unlock :
    Ensures (unlock m) r R ↔ r.held m = true ∧ R () (r.setHeld m false) := by
  simp only [Ensures, unlock]
  cases r.held m <;> simp

end Mutexes

/-- The loop returns, if it does, with what was held and a state that the others have left; one that
    the test holds of only behind a wait that leaves it. -/
theorem ensures_waitWhile {m : μ} {waits : σ → Bool} {leaves : Turn σ → Bool} (held : r.held m = true)
    (returns : ∀ s others, waits s = false ∨ (∃ turn, leaves turn = true) → R () ⟨r.held, s, others⟩) :
    Ensures (waitWhile m waits leaves) r R := by
  rcases waitWhile_go_cases waits leaves held r.shared r.others with
    ⟨waiting, -, -⟩ | ⟨done, rest, -, returned, -, -, last⟩
  · simp only [Ensures, waitWhile, waiting]
  · simp only [Ensures, waitWhile, returned]
    apply returns
    cases test : waits (afterTurns r.shared done) with
    | false => exact .inl rfl
    | true =>
        obtain ⟨turn, -, wake⟩ := last test
        exact .inr ⟨turn, wake⟩

end Rules

end Code

namespace Run

@[simp] theorem held_setShared (r : Run μ σ) (s : σ) : (r.setShared s).held = r.held := rfl

@[simp] theorem shared_setShared (r : Run μ σ) (s : σ) : (r.setShared s).shared = s := rfl

@[simp] theorem held_turned (r : Run μ σ) : r.turned.held = r.held := rfl

@[simp] theorem shared_turned (r : Run μ σ) : r.turned.shared = r.found := rfl

variable [DecidableEq μ] {held : μ → Bool} {m : μ}

@[simp] theorem held_setHeld (r : Run μ σ) (m : μ) (flag : Bool) :
    (r.setHeld m flag).held = Function.update r.held m flag := rfl

@[simp] theorem shared_setHeld (r : Run μ σ) (m : μ) (flag : Bool) :
    (r.setHeld m flag).shared = r.shared := rfl

theorem released (free : held m = false) :
    Function.update (Function.update held m true) m false = held := by
  rw [Function.update_idem, ← free, Function.update_eq_self]

end Run

end OpenRpc.Locks
