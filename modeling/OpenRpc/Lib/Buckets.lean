import OpenRpc.Lib.LinkedList

/-! # Many linked lists in one memory

Lists that hang from a family of head pointers and share no cell, as the buckets of a hash table do. The
rules say what linking a cell and unlinking one do to the family; as for a single list, cells outside
may be written to.
-/

namespace OpenRpc.LinkedList

variable {α ι : Type}

/-- From each head hangs a list; no cell is in two of them. -/
structure Buckets (next : α → Option α) (heads : ι → Option α) (chains : ι → List α) : Prop where
  chain : ∀ i, Chain next (heads i) (chains i)
  apart : ∀ i j, i ≠ j → List.Disjoint (chains i) (chains j)

variable {next next' : α → Option α} {heads : ι → Option α} {chains : ι → List α}

theorem chain_skip {p : Option α} {init after : List α} {t a : α}
    (front : ∀ b ∈ init, next' b = next b) (skipped : next' t = next a)
    (rest : Chain next' (next a) after) (chain : Chain next p (init ++ [t] ++ a :: after)) :
    Chain next' p (init ++ [t] ++ after) := by
  induction init generalizing p with
  | nil =>
      refine ⟨chain.1, ?_⟩
      rw [skipped]
      exact rest
  | cons b init ih =>
      refine ⟨chain.1, ?_⟩
      rw [front b List.mem_cons_self]
      exact ih (fun c member => front c (List.mem_cons_of_mem b member)) chain.2

namespace Buckets

theorem empty (next : α → Option α) : Buckets next (fun _ : ι => none) fun _ => [] :=
  ⟨fun _ => rfl, fun _ _ _ _ member => absurd member List.not_mem_nil⟩

theorem nodup (buckets : Buckets next heads chains) (i : ι) : (chains i).Nodup :=
  chain_nodup (buckets.chain i)

theorem unique (buckets : Buckets next heads chains) {a : α} {i j : ι} (here : a ∈ chains i)
    (there : a ∈ chains j) : i = j := by
  by_contra other
  exact buckets.apart i j other here there

theorem congr (same : ∀ i, ∀ a ∈ chains i, next' a = next a) (buckets : Buckets next heads chains) :
    Buckets next' heads chains :=
  ⟨fun i => chain_congr (same i) (buckets.chain i), buckets.apart⟩

theorem head_eq (buckets : Buckets next heads chains) (i : ι) : heads i = (chains i).head? := by
  have chain := buckets.chain i
  cases cells : chains i with
  | nil =>
      rw [cells] at chain
      exact chain
  | cons a rest =>
      rw [cells] at chain
      exact chain.1

theorem next_eq (buckets : Buckets next heads chains) {i : ι} {before after : List α} {a : α}
    (here : chains i = before ++ a :: after) : next a = after.head? := by
  have chain := (chain_suffix (here ▸ buckets.chain i)).2
  cases after with
  | nil => exact chain
  | cons b rest => exact chain.1

theorem apart_of_subset {chains' : ι → List α} (buckets : Buckets next heads chains)
    (fewer : ∀ i, chains' i ⊆ chains i) (i j : ι) (other : i ≠ j) : List.Disjoint (chains' i) (chains' j) :=
  fun _ here there => buckets.apart i j other (fewer i here) (fewer j there)

variable [DecidableEq ι]

theorem push (buckets : Buckets next heads chains) {i : ι} {a : α} (fresh : ∀ j, a ∉ chains j)
    (front : next' a = heads i) (same : ∀ j, ∀ b ∈ chains j, next' b = next b) :
    Buckets next' (Function.update heads i (some a)) (Function.update chains i (a :: chains i)) := by
  refine ⟨fun j => ?_, fun j j' other b here there => ?_⟩
  · by_cases target : j = i
    · subst target
      rw [Function.update_self, Function.update_self]
      exact chain_cons front (same j) (buckets.chain j)
    · rw [Function.update_of_ne target, Function.update_of_ne target]
      exact chain_congr (same j) (buckets.chain j)
  · have member : ∀ j, b ∈ Function.update chains i (a :: chains i) j → j = i ∧ b = a ∨ b ∈ chains j := by
      intro j inside
      rw [Function.update_apply] at inside
      split at inside
      · rename_i target
        subst target
        exact (List.mem_cons.mp inside).imp_left fun same => ⟨rfl, same⟩
      · exact .inr inside
    rcases member j here with ⟨first, new⟩ | older <;> rcases member j' there with ⟨second, new'⟩ | older'
    · exact other (first.trans second.symm)
    · exact fresh j' (new ▸ older')
    · exact fresh j (new' ▸ older)
    · exact other (buckets.unique older older')

theorem mem_update {i : ι} {cells : List α} {b : α} (j : ι)
    (same : b ∈ cells ↔ b ∈ chains i) : b ∈ Function.update chains i cells j ↔ b ∈ chains j := by
  rw [Function.update_apply]
  split
  · rename_i here
    rw [here, same]
  · rfl

theorem mem_unlinked {i : ι} {a b : α} {before after : List α} (split : chains i = before ++ a :: after)
    (other : b ≠ a) (j : ι) : b ∈ Function.update chains i (before ++ after) j ↔ b ∈ chains j := by
  apply mem_update
  simp [split, other]

theorem mem_pushed {i : ι} {a b : α} :
    (∃ j, b ∈ Function.update chains i (a :: chains i) j) ↔ b = a ∨ ∃ j, b ∈ chains j := by
  constructor
  · rintro ⟨j, inside⟩
    rw [Function.update_apply] at inside
    split at inside
    · exact (List.mem_cons.mp inside).imp_right fun older => ⟨i, older⟩
    · exact .inr ⟨j, inside⟩
  · rintro (rfl | ⟨j, inside⟩)
    · exact ⟨i, by simp⟩
    · refine ⟨j, ?_⟩
      rw [Function.update_apply]
      split
      · rename_i here
        exact List.mem_cons_of_mem a (here ▸ inside)
      · exact inside

theorem unlink (buckets : Buckets next heads chains) {heads' : ι → Option α} {i : ι} {a : α}
    {before after : List α} (here : chains i = before ++ a :: after)
    (others : ∀ j, j ≠ i → heads' j = heads j)
    (first : before = [] → heads' i = next a ∧ ∀ b, b ≠ a → next' b = next b)
    (later : ∀ init p, before = init ++ [p] →
      heads' i = heads i ∧ next' p = next a ∧ ∀ b, b ≠ a → b ≠ p → next' b = next b) :
    Buckets next' heads' (Function.update chains i (before ++ after)) ∧
      ∀ j, a ∉ Function.update chains i (before ++ after) j := by
  have nodup := buckets.nodup i
  rw [here] at nodup
  have gone : a ∉ before ++ after := (List.nodup_cons.mp (List.nodup_middle.mp nodup)).1
  have fewer : ∀ j, Function.update chains i (before ++ after) j ⊆ chains j := by
    intro j b inside
    rw [Function.update_apply] at inside
    split at inside
    · rename_i target
      rw [target, here]
      rw [List.mem_append] at inside ⊢
      exact inside.imp_right (List.mem_cons_of_mem a)
    · exact inside
  have absent : ∀ j, a ∉ Function.update chains i (before ++ after) j := by
    intro j inside
    by_cases target : j = i
    · subst target
      rw [Function.update_self] at inside
      exact gone inside
    · rw [Function.update_of_ne target] at inside
      exact target (buckets.unique inside (here ▸ List.mem_append_right before List.mem_cons_self))
  refine ⟨⟨fun j => ?_, buckets.apart_of_subset fewer⟩, absent⟩
  have chain := buckets.chain i
  rw [here] at chain
  have rest := (chain_suffix chain).2
  rcases List.eq_nil_or_concat before with rfl | ⟨init, p, rfl⟩
  · obtain ⟨head, same⟩ := first rfl
    by_cases target : j = i
    · subst target
      rw [Function.update_self, head]
      refine chain_congr (fun b inside => same b fun again => gone ?_) rest
      exact again ▸ inside
    · rw [Function.update_of_ne target, others j target]
      refine chain_congr (fun b inside => same b fun again => target ?_) (buckets.chain j)
      exact buckets.unique inside (again ▸ here ▸ List.mem_append_right _ List.mem_cons_self)
  · rw [List.concat_eq_append] at *
    obtain ⟨head, skipped, same⟩ := later init p rfl
    have inner : p ∉ init ++ after := by
      have once := List.nodup_middle.mp (by simpa using nodup : (init ++ p :: a :: after).Nodup)
      intro inside
      refine (List.nodup_cons.mp once).1 ?_
      rw [List.mem_append] at inside ⊢
      exact inside.imp_right (List.mem_cons_of_mem a)
    by_cases target : j = i
    · subst target
      rw [Function.update_self, head]
      have front : ∀ b ∈ init, next' b = next b := by
        intro b inside
        refine same b (fun again => gone ?_) (fun again => inner ?_)
        · exact again ▸ List.mem_append_left _ (List.mem_append_left _ inside)
        · exact again ▸ List.mem_append_left _ inside
      have back : ∀ b ∈ after, next' b = next b := by
        intro b inside
        refine same b (fun again => gone ?_) (fun again => inner ?_)
        · exact again ▸ List.mem_append_right _ inside
        · exact again ▸ List.mem_append_right _ inside
      exact chain_skip front skipped (chain_congr back rest) chain
    · rw [Function.update_of_ne target, others j target]
      refine chain_congr (fun b inside => same b (fun again => target ?_) fun again => target ?_)
        (buckets.chain j)
      · exact buckets.unique inside (again ▸ here ▸ List.mem_append_right _ List.mem_cons_self)
      · exact buckets.unique inside (again ▸ here ▸ by simp)

theorem pop (buckets : Buckets next heads chains) {i : ι} {a : α} {rest : List α}
    (here : chains i = a :: rest) :
    Buckets next (Function.update heads i (next a)) (Function.update chains i rest) ∧
      ∀ j, a ∉ Function.update chains i rest j := by
  have front : chains i = [] ++ a :: rest := here
  refine buckets.unlink front (fun j other => Function.update_of_ne other ..) (fun _ => ?_) ?_
  · exact ⟨Function.update_self .., fun _ _ => rfl⟩
  · intro init p same
    exact absurd same.symm (by simp)

end Buckets

end OpenRpc.LinkedList
