import Mathlib

/-! # Dealing in turn

A list is dealt to `n` hands in turn when the `j`-th element of hand `w` is the element at `w + j * n`.
The rules say what one more element does, and that no hand is more than one element ahead of another.
-/

namespace OpenRpc.RoundRobin

variable {α : Type}

/-- The hands hold the list as it is dealt to them in turn. -/
def Dealt (n : Nat) (xs : List α) (hands : Nat → List α) : Prop :=
  ∀ w < n, ∀ j, (hands w)[j]? = xs[w + j * n]?

variable {n : Nat} {xs : List α} {hands : Nat → List α}

theorem dealt_nil (n : Nat) : Dealt n ([] : List α) fun _ => [] := fun _ _ _ => rfl

theorem Dealt.lt_length_iff (dealt : Dealt n xs hands) {w : Nat} (inside : w < n) (j : Nat) :
    j < (hands w).length ↔ w + j * n < xs.length := by
  have cell := dealt w inside j
  constructor
  · intro below
    rw [List.getElem?_eq_getElem below] at cell
    exact (List.getElem?_eq_some_iff.mp cell.symm).1
  · intro below
    rw [List.getElem?_eq_getElem below] at cell
    exact (List.getElem?_eq_some_iff.mp cell).1

/-- A round that is full gives each hand one element, a started one the first hands. -/
theorem Dealt.length_eq (dealt : Dealt n xs hands) {w : Nat} (inside : w < n) :
    (hands w).length = xs.length / n + if w < xs.length % n then 1 else 0 := by
  have positive : 0 < n := by omega
  have same : ∀ j, j < (hands w).length ↔
      j < xs.length / n + if w < xs.length % n then 1 else 0 := by
    intro j
    have whole := Nat.div_add_mod xs.length n
    have part := Nat.mod_lt xs.length positive
    rw [dealt.lt_length_iff inside]
    have less : j < xs.length / n → j * n + n ≤ n * (xs.length / n) := fun below => by
      have := Nat.mul_le_mul_right n below
      rw [Nat.succ_mul] at this
      rwa [Nat.mul_comm n]
    have more : xs.length / n < j → n * (xs.length / n) + n ≤ j * n := fun above => by
      have := Nat.mul_le_mul_right n above
      rw [Nat.succ_mul] at this
      rwa [Nat.mul_comm n]
    have equal : j = xs.length / n → j * n = n * (xs.length / n) := fun same => by
      rw [same, Nat.mul_comm]
    split <;> omega
  apply Nat.le_antisymm
  · by_contra above
    have := (same _).mp (Nat.not_le.mp above)
    omega
  · by_contra below
    have := (same _).mpr (Nat.not_le.mp below)
    omega

theorem Dealt.fair (dealt : Dealt n xs hands) {v w : Nat} (inside : v < n) (inside' : w < n) :
    (hands v).length ≤ (hands w).length + 1 := by
  rw [dealt.length_eq inside, dealt.length_eq inside']
  split <;> split <;> omega

theorem Dealt.snoc (dealt : Dealt n xs hands) (x : α) :
    Dealt n (xs ++ [x])
      (Function.update hands (xs.length % n) (hands (xs.length % n) ++ [x])) := by
  intro w inside j
  have whole := Nat.div_add_mod xs.length n
  by_cases turn : w = xs.length % n
  · subst turn
    have length := dealt.length_eq inside
    rw [if_neg (lt_irrefl _), Nat.add_zero] at length
    rw [Function.update_self, List.getElem?_append, List.getElem?_append, length, dealt _ inside]
    have below := dealt.lt_length_iff inside j
    rw [length] at below
    by_cases old : j < xs.length / n
    · rw [if_pos old, if_pos (below.mp old)]
    · rw [if_neg old, if_neg (fun less => old (below.mpr less))]
      by_cases here : j = xs.length / n
      · have position : xs.length % n + j * n = xs.length := by
          rw [here, Nat.mul_comm]
          omega
        rw [position, here, Nat.sub_self, Nat.sub_self]
      · have beyond : xs.length % n + j * n - xs.length ≠ 0 := by
          have := Nat.mul_le_mul_right n (show xs.length / n + 1 ≤ j by omega)
          rw [Nat.succ_mul, Nat.mul_comm (xs.length / n)] at this
          omega
        rw [List.getElem?_eq_none (by simp; omega), List.getElem?_eq_none (by simp; omega)]
  · have apart : w + j * n ≠ xs.length := by
      intro here
      apply turn
      rw [← here, Nat.add_mul_mod_self_right, Nat.mod_eq_of_lt inside]
    rw [Function.update_of_ne turn, dealt w inside, List.getElem?_append]
    split
    · rfl
    · rw [List.getElem?_eq_none (by omega), List.getElem?_eq_none (by simp; omega)]

end OpenRpc.RoundRobin
