import Mathlib

/-! # Things obtained and given back

A history of what was obtained and given back, the newest first. It is sound when only what is out is
given back and only what is not out is obtained; then nothing is given back twice without being obtained
in between.
-/

namespace OpenRpc.Loans

variable {α : Type}

inductive Loan (α : Type) where
  | obtained (a : α)
  | returned (a : α)
  deriving Repr, DecidableEq

/-- Between two returns of a thing it was obtained. -/
def ReturnedOnce (history : List (Loan α)) : Prop :=
  ∀ later between earlier a,
    history = later ++ .returned a :: (between ++ .returned a :: earlier) → .obtained a ∈ between

variable [DecidableEq α]

def outstanding : List (Loan α) → List α
  | [] => []
  | .obtained a :: history => a :: outstanding history
  | .returned a :: history => (outstanding history).erase a

def Sound : List (Loan α) → Prop
  | [] => True
  | .obtained a :: history => a ∉ outstanding history ∧ Sound history
  | .returned a :: history => a ∈ outstanding history ∧ Sound history

namespace Sound

variable {history : List (Loan α)}

theorem nodup (sound : Sound history) : (outstanding history).Nodup := by
  induction history with
  | nil => exact List.nodup_nil
  | cons loan history ih =>
      cases loan with
      | obtained a => exact List.nodup_cons.mpr ⟨sound.1, ih sound.2⟩
      | returned a => exact (ih sound.2).erase a

theorem behind {later : List (Loan α)} (sound : Sound (later ++ history)) : Sound history := by
  induction later with
  | nil => exact sound
  | cons loan later ih => cases loan <;> exact ih sound.2

theorem not_outstanding {between : List (Loan α)} {a : α}
    (sound : Sound (between ++ .returned a :: history)) (never : .obtained a ∉ between) :
    a ∉ outstanding (between ++ .returned a :: history) := by
  induction between with
  | nil => exact sound.2.nodup.not_mem_erase
  | cons loan between ih =>
      have before := fun rest => ih rest fun member => never (List.mem_cons_of_mem _ member)
      cases loan with
      | obtained b =>
          have other : a ≠ b := fun same => never (same ▸ List.mem_cons_self)
          simpa [outstanding, other] using before sound.2
      | returned b => exact fun member => before sound.2 (List.mem_of_mem_erase member)

theorem returnedOnce (sound : Sound history) : ReturnedOnce history := by
  rintro later between earlier a rfl
  by_contra never
  have again : Sound (.returned a :: (between ++ .returned a :: earlier)) := sound.behind
  exact not_outstanding again.2 never again.1

end Sound

end OpenRpc.Loans
