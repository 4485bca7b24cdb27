import Mathlib

/-! # Singly linked lists in memory

Cells are linked by a function `next`. A list that hangs from a head pointer, or between a head and a
tail pointer, is described by the list of its cells. The rules say what taking the first cell, putting
one in front and appending one do to the description; each of them allows any writes to cells outside
the list.
-/

namespace OpenRpc.LinkedList

variable {α : Type}

/-- Following `next` from the pointer visits exactly these cells. -/
def Chain (next : α → Option α) : Option α → List α → Prop
  | p, [] => p = none
  | p, a :: rest => p = some a ∧ Chain next (next a) rest

/-- A list between a head and a tail pointer. -/
structure Linked (next : α → Option α) (head tail : Option α) (cells : List α) : Prop where
  chain : Chain next head cells
  last : tail = cells.getLast?

variable {next next' : α → Option α} {p head tail : Option α} {cells : List α}

theorem chain_unique {others : List α} (chain : Chain next p cells) (other : Chain next p others) :
    cells = others := by
  induction cells generalizing p others with
  | nil =>
      cases others with
      | nil => rfl
      | cons b others => cases chain.symm.trans other.1
  | cons a cells ih =>
      cases others with
      | nil => cases chain.1.symm.trans other
      | cons b others =>
          cases chain.1.symm.trans other.1
          exact congrArg (a :: ·) (ih chain.2 other.2)

theorem chain_suffix {before after : List α} {a : α} (chain : Chain next p (before ++ a :: after)) :
    Chain next (some a) (a :: after) := by
  induction before generalizing p with
  | nil => exact ⟨rfl, chain.2⟩
  | cons b before ih => exact ih chain.2

/-- A chain that ends visits no cell twice: what follows a cell depends on the cell alone. -/
theorem chain_nodup (chain : Chain next p cells) : cells.Nodup := by
  induction cells generalizing p with
  | nil => exact List.nodup_nil
  | cons a cells ih =>
      refine List.nodup_cons.mpr ⟨fun again => ?_, ih chain.2⟩
      obtain ⟨before, after, split⟩ := List.append_of_mem again
      have later : Chain next (some a) (a :: after) := chain_suffix (split ▸ chain.2)
      have same := chain_unique chain.2 later.2
      rw [split] at same
      have lengths := congrArg List.length same
      simp only [List.length_append, List.length_cons] at lengths
      omega

theorem chain_congr (same : ∀ a ∈ cells, next' a = next a) (chain : Chain next p cells) :
    Chain next' p cells := by
  induction cells generalizing p with
  | nil => exact chain
  | cons a cells ih =>
      refine ⟨chain.1, ?_⟩
      rw [same a List.mem_cons_self]
      exact ih (fun b member => same b (List.mem_cons_of_mem a member)) chain.2

theorem chain_cons {a : α} (front : next' a = p) (same : ∀ b ∈ cells, next' b = next b)
    (chain : Chain next p cells) : Chain next' (some a) (a :: cells) := by
  refine ⟨rfl, ?_⟩
  rw [front]
  exact chain_congr same chain

theorem chain_snoc {t b : α} (linked : next' t = some b) (stop : next' b = none)
    (same : ∀ a ∈ cells, next' a = next a) (chain : Chain next p (cells ++ [t])) :
    Chain next' p (cells ++ [t] ++ [b]) := by
  induction cells generalizing p with
  | nil => exact ⟨chain.1, linked, stop⟩
  | cons a cells ih =>
      refine ⟨chain.1, ?_⟩
      rw [same a List.mem_cons_self]
      exact ih (fun b member => same b (List.mem_cons_of_mem a member)) chain.2

theorem chain_block {next : Nat → Option Nat} {p : Option Nat} {cells : List Nat} (n : Nat) :
    ∀ {b : Nat}, (∀ a, b ≤ a → a < b + n → next a = some (a + 1)) → next (b + n) = p →
      Chain next p cells → Chain next (some b) (List.range' b (n + 1) ++ cells) := by
  induction n with
  | zero =>
      intro b _ last chain
      refine ⟨rfl, ?_⟩
      rw [Nat.add_zero] at last
      rwa [last]
  | succ n ih =>
      intro b chained last chain
      refine ⟨rfl, ?_⟩
      rw [chained b (Nat.le_refl b) (by omega)]
      refine ih (fun a above below => chained a (by omega) (by omega)) ?_ chain
      rwa [Nat.add_right_comm]

theorem linked_congr (same : ∀ a ∈ cells, next' a = next a) (linked : Linked next head tail cells) :
    Linked next' head tail cells :=
  ⟨chain_congr same linked.chain, linked.last⟩

theorem linked_empty (linked : Linked next head tail cells) : head = none ↔ tail = none := by
  rw [linked.last, List.getLast?_eq_none_iff]
  have chain := linked.chain
  cases cells with
  | nil => exact iff_of_true chain rfl
  | cons a cells => simp [chain.1]

theorem linked_pop {a : α} (linked : Linked next (some a) tail cells) :
    ∃ rest, cells = a :: rest ∧
      Linked next (next a) ((next a).bind fun _ => tail) rest := by
  cases cells with
  | nil => cases linked.chain
  | cons b rest =>
      cases linked.chain.1
      refine ⟨rest, rfl, linked.chain.2, ?_⟩
      have chain := linked.chain.2
      cases rest with
      | nil =>
          rw [show next a = none from chain]
          rfl
      | cons c rest =>
          rw [chain.1, linked.last, List.getLast?_cons_cons]
          rfl

theorem linked_first {b : α} (stop : next' b = none) (linked : Linked next head none cells) :
    cells = [] ∧ Linked next' (some b) (some b) [b] :=
  ⟨List.getLast?_eq_none_iff.mp linked.last.symm, ⟨rfl, stop⟩, rfl⟩

theorem linked_append {t b : α} (behind : next' t = some b) (stop : next' b = none)
    (same : ∀ a ∈ cells, a ≠ t → next' a = next a) (linked : Linked next head (some t) cells) :
    Linked next' head (some b) (cells ++ [b]) := by
  obtain ⟨front, rfl⟩ := List.getLast?_eq_some_iff.mp linked.last.symm
  have nodup := chain_nodup linked.chain
  refine ⟨chain_snoc behind stop (fun a member => ?_) linked.chain, by simp⟩
  refine same a (List.mem_append_left _ member) fun last => ?_
  subst last
  exact List.disjoint_of_nodup_append nodup member List.mem_cons_self

end OpenRpc.LinkedList
