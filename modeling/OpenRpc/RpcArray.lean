import Mathlib

/-! # The growable pointer array

`rpc_array.c`: a stack of pointers in a block that doubles. A pointer is an address, or nothing for
NULL. The block never has fewer cells than `size` says, and `cur` stays inside it.
-/

namespace OpenRpc

structure RpcArray where
  data : List (Option Nat)
  size : Nat
  cur : Nat
  held : data.length = size
  inside : cur ≤ size
  positive : 0 < size

def RPCARRAYSIZE : Nat := 200

def rpcArrayNew : RpcArray where
  data := List.replicate RPCARRAYSIZE none
  size := RPCARRAYSIZE
  cur := 0
  held := List.length_replicate
  inside := Nat.zero_le _
  positive := by decide

namespace RpcArray

/-- The pointers on the stack, the last added at the end. -/
def content (array : RpcArray) : List (Option Nat) := array.data.take array.cur

/-- `data[cur++] = p`, where the block has room. -/
def store (array : RpcArray) (p : Option Nat) (room : array.cur < array.size) : RpcArray :=
  { array with data := array.data.set array.cur p
               cur := array.cur + 1
               held := List.length_set.trans array.held
               inside := room }

/-- The block after a realloc to twice its size; the new cells hold anything. -/
def grown (array : RpcArray) (more : Nat → Option Nat) : RpcArray :=
  { array with data := array.data ++ (List.range array.size).map more
               size := array.size * 2
               held := by
                 rw [List.length_append, List.length_map, List.length_range, array.held]
                 omega
               inside := Nat.le_trans array.inside (Nat.le_mul_of_pos_right _ (by decide))
               positive := Nat.mul_pos array.positive (by decide) }

theorem grown_room (array : RpcArray) (more : Nat → Option Nat) :
    (array.grown more).cur < (array.grown more).size := by
  have inside := array.inside
  have positive := array.positive
  simp only [grown]
  omega

end RpcArray

/-- `rpc_array_get`: NULL from an empty stack. -/
def rpcArrayGet (array : RpcArray) : Option Nat × RpcArray :=
  if room : 0 < array.cur then
    have bound : array.cur - 1 < array.data.length := by
      rw [array.held]
      exact Nat.lt_of_lt_of_le (Nat.sub_one_lt (Nat.ne_of_gt room)) array.inside
    (array.data[array.cur - 1], { array with cur := array.cur - 1
                                             inside := Nat.le_trans (Nat.sub_le ..) array.inside })
  else (none, array)

/-- `rpc_array_index`, for `index ≥ 0`. -/
def rpcArrayIndex (array : RpcArray) (index : Nat) : Option Nat :=
  if below : index < array.cur then
    have bound : index < array.data.length := by
      rw [array.held]
      exact Nat.lt_of_lt_of_le below array.inside
    array.data[index]
  else none

/-- `rpc_array_add`; `more` is what realloc leaves in the cells it adds, or nothing where it fails. -/
def rpcArrayAdd (more : Option (Nat → Option Nat)) (array : RpcArray) (p : Option Nat) :
    Bool × RpcArray :=
  if room : array.cur < array.size then (true, array.store p room)
  else
    match more with
    | some more => (true, (array.grown more).store p (array.grown_room more))
    | none => (false, array)

theorem rpcArrayGet_content (array : RpcArray) :
    array.content = [] ∧ rpcArrayGet array = (none, array) ∨
    ∃ rest p array', rpcArrayGet array = (p, array') ∧ array.content = rest ++ [p] ∧
      array'.content = rest := by
  unfold rpcArrayGet
  split
  · rename_i room
    have bound : array.cur - 1 < array.data.length := by
      rw [array.held]
      exact Nat.lt_of_lt_of_le (Nat.sub_one_lt (Nat.ne_of_gt room)) array.inside
    refine .inr ⟨array.data.take (array.cur - 1), _, _, rfl, ?_, rfl⟩
    have split := (List.take_concat_get' array.data (array.cur - 1) bound).symm
    rwa [Nat.sub_one_add_one (Nat.ne_of_gt room)] at split
  · rename_i empty
    refine .inl ⟨?_, rfl⟩
    rw [RpcArray.content, Nat.eq_zero_of_not_pos empty]
    rfl

theorem RpcArray.content_length (array : RpcArray) : array.content.length = array.cur := by
  rw [RpcArray.content, List.length_take, array.held]
  exact Nat.min_eq_left array.inside

theorem rpcArrayIndex_content (array : RpcArray) (index : Nat) :
    rpcArrayIndex array index = array.content[index]?.join := by
  unfold rpcArrayIndex
  split
  · rename_i below
    have bound : index < array.data.length := by
      rw [array.held]
      exact Nat.lt_of_lt_of_le below array.inside
    rw [RpcArray.content, List.getElem?_take_of_lt below, List.getElem?_eq_getElem bound]
    rfl
  · rename_i beyond
    rw [List.getElem?_eq_none (by rw [array.content_length]; omega)]
    rfl

theorem store_content (array : RpcArray) (p : Option Nat) (room : array.cur < array.size) :
    (array.store p room).content = array.content ++ [p] := by
  have bound : array.cur < array.data.length := by rwa [array.held]
  have set := List.take_concat_get' (array.data.set array.cur p) array.cur (by simpa using bound)
  rw [List.getElem_set_self, List.take_set_of_le (Nat.le_refl _)] at set
  exact set.symm

theorem rpcArrayAdd_content (more : Nat → Option Nat) (array : RpcArray) (p : Option Nat) :
    ∃ array', rpcArrayAdd (some more) array p = (true, array') ∧
      array'.content = array.content ++ [p] := by
  unfold rpcArrayAdd
  split
  · rename_i room
    exact ⟨_, rfl, store_content array p room⟩
  · refine ⟨_, rfl, ?_⟩
    rw [store_content]
    congr 1
    exact List.take_append_of_le_length (by rw [array.held]; exact array.inside)

end OpenRpc
