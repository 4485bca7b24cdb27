import OpenRpc.Lib.Transition
import OpenRpc.Conn

/-! # The free list of connections

`freeconns` of `rpc_conn.c`, a stack of closed connections in a growing array. The pop reads the cell
above the top, so it can only be called while the list is empty. A connection is a number here; a
cell remembers whether it was ever written, and `free` of the state which connections were added and
not handed out since.
-/

namespace OpenRpc

open Transition

/-- A cell of `freeconns`; the value of one that was never written is NULL or what the allocator left. -/
structure FreeCell where
  written : Bool
  value : Option Nat
  deriving Repr, DecidableEq

/-- `freeconns`, `freetotal` and `freecurr`; the array is allocated at the first use. -/
structure Freelist where
  freeconns : Option (List FreeCell)
  freetotal : Nat
  freecurr : Nat
  deriving Repr, DecidableEq

/-- The static variables before the first call. -/
def Freelist.initial : Freelist := ⟨none, 200, 0⟩

/-- `rpc_freelist_init`: the array, allocated if it was not. -/
def rpcFreelistInit (l : Freelist) : List FreeCell :=
  l.freeconns.getD (List.replicate l.freetotal ⟨false, none⟩)

/-- What `rpc_conn_from_freelist` comes back with: NULL without a look, or what it read at `index`;
    a read behind the array has no content. -/
inductive Taken where
  | null
  | cell (index : Nat) (content : Option FreeCell)
  deriving Repr, DecidableEq

/-- `rpc_conn_from_freelist`. -/
def rpcConnFromFreelist (l : Freelist) : Taken × Freelist :=
  let cells := rpcFreelistInit l
  if 0 < l.freecurr then
    (.cell l.freecurr cells[l.freecurr]?, ⟨some cells, l.freetotal, l.freecurr - 1⟩)
  else (.null, ⟨some cells, l.freetotal, l.freecurr⟩)

/-- `rpc_conn_add_freelist`; `added` is what `realloc` returns behind the old cells, none for NULL. -/
def rpcConnAddFreelist (added : Option (List (Option Nat))) (l : Freelist) (c : Nat) : Freelist :=
  let cells := rpcFreelistInit l
  if l.freecurr < l.freetotal then
    ⟨some (cells.set l.freecurr ⟨true, some c⟩), l.freetotal, l.freecurr + 1⟩
  else
    match added with
    | none => ⟨some cells, l.freetotal, l.freecurr⟩
    | some junk =>
        ⟨some ((cells ++ junk.map (FreeCell.mk false)).set l.freecurr ⟨true, some c⟩),
          l.freetotal * 2, l.freecurr + 1⟩

inductive FreeAction where
  | add (c : Nat) (added : Option (List (Option Nat)))
  | take
  deriving Repr, DecidableEq

/-- The free list and the connections that are in it. -/
structure FreeState where
  list : Freelist
  free : List Nat
  deriving Repr, DecidableEq

def FreeState.initial : FreeState := ⟨.initial, []⟩

/-- One call. A connection is only added while it is not in the list, and `realloc` doubles the array
    as long as its size is an `int`. -/
def freeStep : Step FreeState FreeAction
  | s, .add c added =>
      if c ∈ s.free then none
      else if ∀ junk ∈ added, junk.length = s.list.freetotal ∧ s.list.freetotal * 2 ≤ INT_MAX then
        let list := rpcConnAddFreelist added s.list c
        some ⟨list, if list.freecurr = s.list.freecurr then s.free else c :: s.free⟩
      else none
  | s, .take =>
      let (taken, list) := rpcConnFromFreelist s.list
      match taken with
      | .cell _ (some ⟨_, some c⟩) => some ⟨list, s.free.erase c⟩
      | _ => some ⟨list, s.free⟩

/-- A pop in this state does what it should: it reads a cell of the array that was written and holds a
    connection of the list, or it answers NULL because the list is empty. -/
def TakesOwned (s : FreeState) : Prop :=
  match (rpcConnFromFreelist s.list).1 with
  | .null => s.free = []
  | .cell index content =>
      index < s.list.freetotal ∧ ∃ c, content = some ⟨true, some c⟩ ∧ c ∈ s.free

/-- The array is as long as `freetotal` says, and the top is inside. -/
structure Freelist.Sized (l : Freelist) : Prop where
  positive : 0 < l.freetotal
  size : (rpcFreelistInit l).length = l.freetotal
  inside : l.freecurr ≤ l.freetotal

theorem Freelist.Sized.take {l : Freelist} (sized : l.Sized) : (rpcConnFromFreelist l).2.Sized := by
  unfold rpcConnFromFreelist
  split
  · exact ⟨sized.positive, sized.size, Nat.le_trans (Nat.sub_le _ 1) sized.inside⟩
  · exact ⟨sized.positive, sized.size, sized.inside⟩

theorem Freelist.Sized.add {l : Freelist} {c : Nat} {added : Option (List (Option Nat))}
    (granted : ∀ junk ∈ added, junk.length = l.freetotal ∧ l.freetotal * 2 ≤ INT_MAX)
    (sized : l.Sized) : (rpcConnAddFreelist added l c).Sized := by
  obtain ⟨positive, size, inside⟩ := sized
  unfold rpcConnAddFreelist
  split
  · rename_i room
    exact ⟨positive, List.length_set.trans size, room⟩
  · split
    · exact ⟨positive, size, inside⟩
    · rename_i room junk
      obtain ⟨length, fits⟩ := granted junk rfl
      have doubled : (rpcFreelistInit l ++ junk.map (FreeCell.mk false)).length = l.freetotal * 2 := by
        rw [List.length_append, List.length_map, size, length, Nat.mul_two]
      refine ⟨Nat.mul_pos positive (by decide), List.length_set.trans doubled, ?_⟩
      show l.freecurr + 1 ≤ l.freetotal * 2
      omega

/-- As long as nothing is popped from a list that is not empty, no cell from the top on was written. -/
structure Untouched (s : FreeState) : Prop where
  positive : 0 < s.list.freetotal
  size : (rpcFreelistInit s.list).length = s.list.freetotal
  inside : s.list.freecurr ≤ s.list.freetotal
  count : s.free.length = s.list.freecurr
  above : ∀ (i : Nat) (cell : FreeCell), s.list.freecurr ≤ i →
    (rpcFreelistInit s.list)[i]? = some cell → cell.written = false

theorem Untouched.sized {s : FreeState} (untouched : Untouched s) : s.list.Sized :=
  ⟨untouched.positive, untouched.size, untouched.inside⟩

theorem untouched_initial : Untouched .initial where
  positive := by decide
  size := List.length_replicate
  inside := Nat.zero_le _
  count := rfl
  above := by
    intro i cell _ here
    rw [List.eq_of_mem_replicate (List.mem_of_getElem? here)]

theorem takesOwned_iff {s : FreeState} (untouched : Untouched s) :
    TakesOwned s ↔ s.list.freecurr = 0 := by
  by_cases empty : s.list.freecurr = 0
  · have none_free : s.free = [] := List.eq_nil_of_length_eq_zero (untouched.count.trans empty)
    simp [TakesOwned, rpcConnFromFreelist, empty, none_free]
  · have some_free : 0 < s.list.freecurr := by omega
    simp only [TakesOwned, rpcConnFromFreelist, if_pos some_free, empty, iff_false]
    rintro ⟨-, c, content, -⟩
    have unwritten := untouched.above s.list.freecurr _ (Nat.le_refl _) content
    cases unwritten

/-- The cells from the new top on are old ones behind the old top, or come from `realloc`. -/
theorem unwritten_add {l : Freelist} {c : Nat} {added : Option (List (Option Nat))}
    (above : ∀ (i : Nat) (cell : FreeCell), l.freecurr ≤ i → (rpcFreelistInit l)[i]? = some cell →
      cell.written = false) {i : Nat} {cell : FreeCell}
    (higher : (rpcConnAddFreelist added l c).freecurr ≤ i)
    (here : (rpcFreelistInit (rpcConnAddFreelist added l c))[i]? = some cell) :
    cell.written = false := by
  simp only [rpcConnAddFreelist] at higher here
  by_cases room : l.freecurr < l.freetotal
  · rw [if_pos room] at higher here
    have other : (rpcFreelistInit l)[i]? = some cell := by
      rw [← List.getElem?_set_ne (Nat.ne_of_lt higher)]
      exact here
    exact above i cell (Nat.le_of_succ_le higher) other
  · rw [if_neg room] at higher here
    cases added with
    | none => exact above i cell higher here
    | some junk =>
        have other : (rpcFreelistInit l ++ junk.map (FreeCell.mk false))[i]? = some cell := by
          rw [← List.getElem?_set_ne (Nat.ne_of_lt higher)]
          exact here
        rw [List.getElem?_append] at other
        split at other
        · exact above i cell (Nat.le_of_succ_le higher) other
        · rw [List.getElem?_map, Option.map_eq_some_iff] at other
          obtain ⟨value, -, rfl⟩ := other
          rfl

theorem untouched_add {s s' : FreeState} {c : Nat} {added : Option (List (Option Nat))}
    (step : freeStep s (.add c added) = some s') (before : Untouched s) : Untouched s' := by
  simp only [freeStep] at step
  split at step
  · cases step
  · split at step
    · rename_i granted
      cases step
      obtain ⟨positive, size, inside⟩ := before.sized.add (c := c) granted
      refine ⟨positive, size, inside, ?_, fun i cell => unwritten_add before.above⟩
      simp only [rpcConnAddFreelist]
      split
      · simp [before.count]
      · cases added <;> simp [before.count]
    · cases step

theorem untouched_take {s s' : FreeState} (step : freeStep s .take = some s')
    (empty : s.list.freecurr = 0) (before : Untouched s) : Untouched s' := by
  simp only [freeStep, rpcConnFromFreelist, empty, Nat.lt_irrefl, if_false] at step
  cases step
  exact ⟨before.positive, before.size, by simp, by simpa [empty] using before.count,
    fun i cell _ here => before.above i cell (by omega) here⟩

/-- The owners are right along a sequence of calls exactly when no pop meets a list that is not
    empty. -/
theorem rpcConnFromFreelist_owner (calls : List FreeAction) :
    Along freeStep (fun s a => a = .take → TakesOwned s) .initial calls ↔
      Along freeStep (fun s a => a = .take → s.list.freecurr = 0) .initial calls := by
  refine along_congr ?_ ?_ calls untouched_initial
  · intro s a untouched
    simp only [takesOwned_iff untouched]
  · intro s a s' right step untouched
    cases a with
    | add c added => exact untouched_add step untouched
    | take => exact untouched_take step ((takesOwned_iff untouched).mp (right rfl)) untouched

/-- Two connections are closed, and two opened; then one is closed and one opened. The pops answer
    NULL, then connection 2, then connection 2 again. -/
theorem rpcConnFromFreelist_twice :
    let calls : List FreeAction := [.add 1 none, .add 2 none, .take, .take, .add 3 none, .take]
    ¬ Along freeStep (fun s a => a = .take → TakesOwned s) .initial calls ∧
      (exec freeStep .initial calls).isSome ∧
      [2, 3, 5].map (fun k => (exec freeStep .initial (calls.take k)).map fun s =>
        match (rpcConnFromFreelist s.list).1 with
        | .null => none
        | .cell _ content => content.bind FreeCell.value) = [some none, some (some 2), some (some 2)] := by
  intro calls
  refine ⟨?_, by decide, by decide⟩
  intro along
  have first : freeStep .initial (.add 1 none) = some _ := rfl
  have once := untouched_add first untouched_initial
  have twice := untouched_add (show freeStep _ (.add 2 none) = some _ from rfl) once
  obtain ⟨-, along⟩ := along _ first
  obtain ⟨-, along⟩ := along _ rfl
  obtain ⟨owned, -⟩ := along _ rfl
  have full := (takesOwned_iff twice).mp (owned rfl)
  exact absurd full (by decide)

end OpenRpc
