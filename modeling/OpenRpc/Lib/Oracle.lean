import Mathlib

/-! # Answers without end

A loop that asks the outside world again and again is a function of the list of answers it gets. What
the world would answer for ever is a stream; the loop sees the first so many of it.
-/

namespace OpenRpc.Oracle

variable {ε : Type}

abbrev Stream (ε : Type) := Nat → ε

/-- The first `n` answers. -/
def first (f : Stream ε) (n : Nat) : List ε := (List.range n).map f

/-- The answers behind the first. -/
def later (f : Stream ε) : Stream ε := fun i => f (i + 1)

theorem first_zero (f : Stream ε) : first f 0 = [] := rfl

theorem first_succ (f : Stream ε) (n : Nat) : first f (n + 1) = f 0 :: first (later f) n := by
  rw [first, List.range_succ_eq_map, List.map_cons, List.map_map]
  rfl

theorem first_last (f : Stream ε) (n : Nat) : first f (n + 1) = first f n ++ [f n] := by
  rw [first, List.range_succ, List.map_append]
  rfl

/-- Again and again there is an answer other than `a`. -/
def Interrupted (a : ε) (f : Stream ε) : Prop := ∀ i, ∃ j, i ≤ j ∧ f j ≠ a

theorem Interrupted.later {a : ε} {f : Stream ε} (often : Interrupted a f) :
    Interrupted a (later f) := by
  intro i
  obtain ⟨j, after, other⟩ := often (i + 1)
  refine ⟨j - 1, by omega, ?_⟩
  rwa [Oracle.later, Nat.sub_add_cancel (by omega)]

/-- Induction along a stream up to its first answer other than `a`. -/
theorem Interrupted.induction {a : ε} {P : Stream ε → Prop}
    (other : ∀ f, Interrupted a f → f 0 ≠ a → P f)
    (skip : ∀ f, Interrupted a f → f 0 = a → P (Oracle.later f) → P f) {f : Stream ε}
    (often : Interrupted a f) : P f := by
  obtain ⟨j, -, different⟩ := often 0
  induction j generalizing f with
  | zero => exact other f often different
  | succ j ih =>
      by_cases same : f 0 = a
      · exact skip f often same (ih often.later different)
      · exact other f often same

end OpenRpc.Oracle
