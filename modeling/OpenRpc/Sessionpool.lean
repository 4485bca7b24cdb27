import OpenRpc.RpcArray

/-! # The session pool

`rpc_sessionpool.c`: a table of pointers. A session takes the lowest cell that is NULL; where there is
none the table is doubled by a realloc, whose new cells are not cleared.
-/

namespace OpenRpc

def POOLCAPACITY : Nat := 1000

structure Sessionpool where
  data : List (Option Nat)
  size : Nat
  held : data.length = size
  positive : 0 < size

def rpcSessionpoolNew : Sessionpool where
  data := List.replicate POOLCAPACITY none
  size := POOLCAPACITY
  held := List.length_replicate
  positive := by decide

namespace Sessionpool

def set (pool : Sessionpool) (i : Nat) (p : Option Nat) : Sessionpool :=
  { pool with data := pool.data.set i p, held := List.length_set.trans pool.held }

/-- The table after a realloc to twice its size; the new cells hold anything. -/
def grown (pool : Sessionpool) (more : Nat → Option Nat) : Sessionpool where
  data := pool.data ++ (List.range pool.size).map more
  size := pool.size * 2
  held := by
    rw [List.length_append, List.length_map, List.length_range, pool.held]
    omega
  positive := Nat.mul_pos pool.positive (by decide)

end Sessionpool

/-- `rpc_sessionpool_insert`; `more` is what realloc leaves in the cells it adds, or nothing where it
    fails. Then the answer is -1. -/
def rpcSessionpoolInsert (more : Option (Nat → Option Nat)) (pool : Sessionpool) (p : Nat) :
    Int × Sessionpool :=
  match pool.data.findIdx? Option.isNone with
  | some i => (i, pool.set i (some p))
  | none =>
      match more with
      | some more => (pool.size, (pool.grown more).set pool.size (some p))
      | none => (-1, pool)

/-- `rpc_sessionpool_get`. Nothing: one of its assertions fails. -/
def rpcSessionpoolGet (pool : Sessionpool) (index : Int) : Option (Option Nat) :=
  if 0 ≤ index ∧ index < pool.size then pool.data[index.toNat]? else none

/-- `rpc_sessionpool_remove`. Nothing: it reads outside the table. -/
def rpcSessionpoolRemove (pool : Sessionpool) (index : Int) : Option Sessionpool :=
  if 0 ≤ index ∧ index < pool.size then
    match pool.data[index.toNat]? with
    | some (some _) => some (pool.set index.toNat none)
    | _ => some pool
  else none

theorem rpcSessionpoolGet_nat (pool : Sessionpool) (n : Nat) :
    rpcSessionpoolGet pool n = pool.data[n]? := by
  unfold rpcSessionpoolGet
  split
  · rfl
  · rename_i outside
    refine (List.getElem?_eq_none ?_).symm
    rw [pool.held]
    omega

theorem rpcSessionpoolGet_some {pool : Sessionpool} {index : Int} {p : Option Nat}
    (found : rpcSessionpoolGet pool index = some p) :
    ∃ n : Nat, index = n ∧ pool.data[n]? = some p := by
  unfold rpcSessionpoolGet at found
  split at found
  · rename_i inside
    exact ⟨index.toNat, (Int.toNat_of_nonneg inside.1).symm, found⟩
  · cases found

namespace Sessionpool

/-- Every cell is taken: the next insert doubles the pool. -/
def Full (pool : Sessionpool) : Prop := ∀ i p, rpcSessionpoolGet pool i = some p → p ≠ none

theorem get_negative (pool : Sessionpool) {i : Int} (negative : i < 0) :
    rpcSessionpoolGet pool i = none :=
  if_neg (by omega)

theorem get_set {pool : Sessionpool} {n : Nat} (inside : n < pool.size) (p : Option Nat) (i : Int) :
    rpcSessionpoolGet (pool.set n p) i = if i = n then some p else rpcSessionpoolGet pool i := by
  have bound : n < pool.data.length := by rwa [pool.held]
  cases lt_or_ge i 0 with
  | inl negative =>
      rw [get_negative _ negative, get_negative _ negative, if_neg (by omega)]
  | inr positive =>
      obtain ⟨j, rfl⟩ := Int.eq_ofNat_of_zero_le positive
      rw [rpcSessionpoolGet_nat, rpcSessionpoolGet_nat]
      split
      · rename_i here
        cases Int.ofNat.inj here
        exact List.getElem?_set_self bound
      · exact List.getElem?_set_ne (by omega)

/-- What a doubled pool holds: the old cells, and behind them what realloc left. -/
theorem get_grown (pool : Sessionpool) (more : Nat → Option Nat) (i : Int) :
    rpcSessionpoolGet (pool.grown more) i =
      if i < pool.size then rpcSessionpoolGet pool i
      else if i < pool.size * 2 then some (more (i - pool.size).toNat) else none := by
  have held := pool.held
  cases lt_or_ge i 0 with
  | inl negative =>
      rw [get_negative _ negative, get_negative _ negative, if_pos (by omega)]
  | inr positive =>
      obtain ⟨j, rfl⟩ := Int.eq_ofNat_of_zero_le positive
      rw [rpcSessionpoolGet_nat, rpcSessionpoolGet_nat]
      split
      · exact List.getElem?_append_left (by omega)
      · apply (List.getElem?_append_right (by omega)).trans
        split
        · rw [List.getElem?_map, List.getElem?_range (by omega), Option.map_some, held]
          congr 2
          omega
        · apply List.getElem?_eq_none
          rw [List.length_map, List.length_range]
          omega

theorem grown_room (pool : Sessionpool) (more : Nat → Option Nat) :
    pool.size < (pool.grown more).size := by
  have positive := pool.positive
  simp only [Sessionpool.grown]
  omega

theorem full_of_none_free {pool : Sessionpool}
    (none_free : pool.data.findIdx? Option.isNone = none) : pool.Full := by
  intro i p found
  obtain ⟨n, -, cell⟩ := rpcSessionpoolGet_some found
  have taken := List.findIdx?_eq_none_iff.mp none_free p (List.mem_of_getElem? cell)
  exact Option.isSome_iff_ne_none.mp (Option.isNone_eq_false_iff.mp taken)

theorem get_inside {pool : Sessionpool} {i : Int} {p : Option Nat}
    (found : rpcSessionpoolGet pool i = some p) : 0 ≤ i ∧ i < pool.size := by
  unfold rpcSessionpoolGet at found
  split at found
  · assumption
  · cases found

end Sessionpool

/-- What an insert does: the first free cell is taken, or the pool is doubled and its first new cell is
    taken. -/
inductive Inserts (more : Nat → Option Nat) (pool : Sessionpool) (p : Nat) :
    Int × Sessionpool → Prop where
  | free (n : Nat) (inside : n < pool.size) (empty : rpcSessionpoolGet pool n = some none)
      (lowest : ∀ i : Int, 0 ≤ i → i < n → ∃ r, rpcSessionpoolGet pool i = some (some r)) :
      Inserts more pool p (n, pool.set n (some p))
  | doubled (full : pool.Full) :
      Inserts more pool p (pool.size, (pool.grown more).set pool.size (some p))

theorem rpcSessionpoolInsert_inserts (more : Nat → Option Nat) (pool : Sessionpool) (p : Nat) :
    Inserts more pool p (rpcSessionpoolInsert (some more) pool p) := by
  unfold rpcSessionpoolInsert
  split
  · rename_i n first
    obtain ⟨bound, empty, taken⟩ := List.findIdx?_eq_some_iff_getElem.mp first
    have inside : n < pool.size := by rwa [← pool.held]
    apply Inserts.free n inside
    · rw [rpcSessionpoolGet_nat, List.getElem?_eq_getElem bound]
      exact congrArg some (Option.isNone_iff_eq_none.mp empty)
    · intro i positive below
      obtain ⟨j, rfl⟩ := Int.eq_ofNat_of_zero_le positive
      have before : j < n := by omega
      have cell := taken j before
      rw [Bool.not_eq_true, Option.isNone_eq_false_iff] at cell
      obtain ⟨r, here⟩ := Option.isSome_iff_exists.mp cell
      refine ⟨r, ?_⟩
      rw [rpcSessionpoolGet_nat, List.getElem?_eq_getElem (by omega), here]
  · rename_i none_free
    exact Inserts.doubled (Sessionpool.full_of_none_free none_free)

theorem rpcSessionpoolInsert_spec (more : Nat → Option Nat) (pool : Sessionpool) (p : Nat) :
    ∃ (index : Int) (pool' : Sessionpool),
      rpcSessionpoolInsert (some more) pool p = (index, pool') ∧
      rpcSessionpoolGet pool' index = some (some p) ∧
      (∀ r : Nat, rpcSessionpoolGet pool index ≠ some (some r)) ∧
      ∀ (i : Int) (r : Nat), i ≠ index → rpcSessionpoolGet pool i = some (some r) →
        rpcSessionpoolGet pool' i = some (some r) := by
  have inserts := rpcSessionpoolInsert_inserts more pool p
  cases inserted : rpcSessionpoolInsert (some more) pool p with
  | mk index pool' =>
      rw [inserted] at inserts
      refine ⟨index, pool', rfl, ?_⟩
      cases inserts with
      | free n inside empty lowest =>
          refine ⟨?_, fun r full => ?_, fun i r other found => ?_⟩
          · rw [Sessionpool.get_set inside, if_pos rfl]
          · cases empty.symm.trans full
          · rwa [Sessionpool.get_set inside, if_neg other]
      | doubled full =>
          refine ⟨?_, fun r found => ?_, fun i r other found => ?_⟩
          · rw [Sessionpool.get_set (pool.grown_room more), if_pos rfl]
          · exact absurd (Sessionpool.get_inside found).2 (Int.lt_irrefl _)
          · rw [Sessionpool.get_set (pool.grown_room more), if_neg other, Sessionpool.get_grown,
              if_pos (Sessionpool.get_inside found).2, found]

theorem rpcSessionpoolRemove_get {pool pool' : Sessionpool} {index : Int}
    (removed : rpcSessionpoolRemove pool index = some pool') (i : Int) :
    rpcSessionpoolGet pool' i = if i = index then some none else rpcSessionpoolGet pool i := by
  unfold rpcSessionpoolRemove at removed
  split at removed
  · rename_i inside
    obtain ⟨n, rfl⟩ := Int.eq_ofNat_of_zero_le inside.1
    have bound : n < pool.size := by omega
    rw [Int.toNat_natCast] at removed
    split at removed
    · cases removed
      exact Sessionpool.get_set bound none i
    · rename_i absent
      cases removed
      split
      · rename_i here
        subst here
        rw [rpcSessionpoolGet_nat]
        have cell := List.getElem?_eq_getElem (l := pool.data) (by rwa [pool.held])
        rw [cell]
        exact congrArg some (Option.eq_none_iff_forall_ne_some.mpr fun p held =>
          absent p (cell.trans (congrArg some held)))
      · rfl
  · cases removed

theorem rpcSessionpoolRemove_spec {pool : Sessionpool} {index : Int} {p : Nat}
    (found : rpcSessionpoolGet pool index = some (some p)) :
    ∃ pool' : Sessionpool, rpcSessionpoolRemove pool index = some pool' ∧
      ∀ i : Int, i ≠ index → rpcSessionpoolGet pool' i = rpcSessionpoolGet pool i := by
  have inside := Sessionpool.get_inside found
  have cell : pool.data[index.toNat]? = some (some p) := (if_pos inside).symm.trans found
  have removed : rpcSessionpoolRemove pool index = some (pool.set index.toNat none) := by
    rw [rpcSessionpoolRemove, if_pos inside, cell]
  exact ⟨_, removed, fun i other => (rpcSessionpoolRemove_get removed i).trans (if_neg other)⟩

end OpenRpc
