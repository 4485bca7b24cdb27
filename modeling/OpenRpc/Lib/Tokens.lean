import Mathlib

/-! # Messages in flight as tokens of a table

A message names an entry of a table, and the entry says which message that is, so no two messages in
flight name the same entry. `Carried` is this for one list of messages; the rules add a message, take
one out, and change entries that no message of the list names.
-/

namespace OpenRpc.Tokens

variable {κ σ μ : Type}

/-- Each message of the list occurs once, and the entry it names is about it. -/
structure Carried (table : κ → σ) (key : μ → κ) (About : μ → σ → Prop) (msgs : List μ) : Prop where
  nodup : msgs.Nodup
  about : ∀ m ∈ msgs, About m (table (key m))

variable {table : κ → σ} {key : μ → κ} {About : μ → σ → Prop} {msgs : List μ}

theorem carried_nil : Carried table key About [] := ⟨List.nodup_nil, by simp⟩

variable [DecidableEq κ]

theorem carried_other {k : κ} (x : σ) (apart : ∀ m, ¬ About m (table k))
    (carried : Carried table key About msgs) :
    Carried (Function.update table k x) key About msgs := by
  refine ⟨carried.nodup, fun m member => ?_⟩
  have about := carried.about m member
  have other : key m ≠ k := fun same => apart m (same ▸ about)
  rwa [Function.update_of_ne other]

theorem carried_add {m : μ} {x : σ} (apart : ∀ m', ¬ About m' (table (key m))) (here : About m x)
    (carried : Carried table key About msgs) :
    Carried (Function.update table (key m) x) key About (msgs ++ [m]) := by
  have new : m ∉ msgs := fun member => apart m (carried.about m member)
  constructor
  · rw [List.nodup_append_comm]
    exact List.nodup_cons.mpr ⟨new, carried.nodup⟩
  · intro m' member
    rcases List.mem_append.mp member with old | last
    · exact (carried_other x apart carried).about m' old
    · rw [List.mem_singleton.mp last, Function.update_self]
      exact here

theorem carried_take {j : Nat} {m : μ} (single : ∀ m m' x, About m x → About m' x → m = m')
    (taken : msgs[j]? = some m) (x : σ) (carried : Carried table key About msgs) :
    Carried (Function.update table (key m) x) key About (msgs.eraseIdx j) := by
  refine ⟨carried.nodup.sublist (List.eraseIdx_sublist ..), fun m' member => ?_⟩
  obtain ⟨i, other, cell⟩ := List.mem_eraseIdx_iff_getElem?.mp member
  have about' := carried.about m' (List.mem_of_getElem? cell)
  have apart : key m' ≠ key m := by
    intro same
    have about := carried.about m (List.mem_of_getElem? taken)
    rw [same] at about'
    have one := single m' m _ about' about
    rw [one] at cell
    apply other
    obtain ⟨bound, here⟩ := List.getElem?_eq_some_iff.mp cell
    exact (List.getElem?_inj bound carried.nodup).mp (cell.trans taken.symm)
  rwa [Function.update_of_ne apart]

end OpenRpc.Tokens
