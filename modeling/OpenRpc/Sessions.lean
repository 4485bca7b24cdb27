import OpenRpc.Conn
import OpenRpc.Lib.Transition
import OpenRpc.Sessionpool

/-! # The session pool as a partial map

Runs of the three operations from an empty pool on, beside the map from indices to sessions that they
stand for. The pool is that map as long as every cell without a session is NULL; inserting into a free
cell and removing keep this, and a doubling keeps it if the memory realloc adds happens to be NULL.
-/

namespace OpenRpc

open Transition

/-- The map itself: an index gives what was last inserted under it, if that has not been removed. -/
abbrev Live := Int → Option Nat

/-- A pool in use, beside the map. -/
structure PoolState where
  pool : Sessionpool
  live : Live

def PoolState.initial : PoolState := ⟨rpcSessionpoolNew, fun _ => none⟩

inductive PoolCall where
  /-- `more` is what realloc leaves in the cells it adds. -/
  | insert (data : Nat) (more : Nat → Option Nat)
  | remove (index : Int)
  | get (index : Int)

/-- The calls with indices of the pool, for which every allocation succeeds; the pool stays countable
    by an `int`. -/
def poolStep : Step PoolState PoolCall
  | s, .insert data more =>
      let (index, pool) := rpcSessionpoolInsert (some more) s.pool data
      if pool.size ≤ INT_MAX then some ⟨pool, Function.update s.live index (some data)⟩ else none
  | s, .remove index =>
      (rpcSessionpoolRemove s.pool index).map fun pool => ⟨pool, Function.update s.live index none⟩
  | s, .get index => (rpcSessionpoolGet s.pool index).map fun _ => s

namespace PoolState

/-- Every index of the pool gives what the map gives. -/
def Agrees (s : PoolState) : Prop := ∀ i p, rpcSessionpoolGet s.pool i = some p → p = s.live i

/-- What a call answers, and that it changes no other index. -/
def Answers (s : PoolState) : PoolCall → Prop
  | .insert data more =>
      let (index, pool) := rpcSessionpoolInsert (some more) s.pool data
      (0 ≤ index ∧ s.live index = none ∧ ∀ i, 0 ≤ i → i < index → s.live i ≠ none) ∧
      ∀ i p, i ≠ index → rpcSessionpoolGet s.pool i = some p → rpcSessionpoolGet pool i = some p
  | .remove index => ∀ i pool, i ≠ index → rpcSessionpoolRemove s.pool index = some pool →
      rpcSessionpoolGet pool i = rpcSessionpoolGet s.pool i
  | .get index => ∀ p, rpcSessionpoolGet s.pool index = some p → p = s.live index

/-- If this call doubles the pool, realloc leaves NULL in every cell it adds, except in the first one,
    which is written at once. -/
def GrowsClear (s : PoolState) : PoolCall → Prop
  | .insert _ more => s.pool.Full → ∀ k, 0 < k → k < s.pool.size → more k = none
  | .remove _ | .get _ => True

/-- The map is what the pool shows, and nothing beyond it. -/
def Exact (s : PoolState) : Prop := ∀ i, s.live i = (rpcSessionpoolGet s.pool i).join

theorem Exact.agrees {s : PoolState} (exact : s.Exact) : s.Agrees := by
  intro i p found
  rw [exact i, found]
  rfl

theorem initial_exact : initial.Exact := by
  intro i
  cases found : rpcSessionpoolGet rpcSessionpoolNew i with
  | none => simp [initial, found]
  | some p =>
      obtain ⟨n, -, cell⟩ := rpcSessionpoolGet_some found
      have null : p = none := List.eq_of_mem_replicate (List.mem_of_getElem? cell)
      simp [initial, found, null]

theorem Exact.insert {s : PoolState} (exact : s.Exact) {data : Nat} {more : Nat → Option Nat}
    (clear : s.GrowsClear (.insert data more)) {index : Int} {pool : Sessionpool}
    (inserts : Inserts more s.pool data (index, pool)) :
    Exact ⟨pool, Function.update s.live index (some data)⟩ := by
  intro i
  cases inserts with
  | free n inside empty lowest =>
      simp only [Function.update_apply, Sessionpool.get_set inside]
      split
      · rfl
      · exact exact i
  | doubled full =>
      simp only [Function.update_apply, Sessionpool.get_set (s.pool.grown_room more)]
      split
      · rfl
      · rename_i other
        rw [Sessionpool.get_grown, exact i]
        split
        · rfl
        · rename_i beyond
          have unknown : rpcSessionpoolGet s.pool i = none := if_neg (by omega)
          rw [unknown]
          split
          · have cleared := clear full (i - s.pool.size).toNat (by omega) (by omega)
            rw [cleared]
            rfl
          · rfl

theorem poolStep_exact {s s' : PoolState} {call : PoolCall} (clear : s.GrowsClear call)
    (step : poolStep s call = some s') (exact : s.Exact) : s'.Exact := by
  cases call with
  | insert data more =>
      simp only [poolStep] at step
      split at step
      · cases step
        exact exact.insert clear (rpcSessionpoolInsert_inserts more s.pool data)
      · cases step
  | remove index =>
      obtain ⟨pool, removed, rfl⟩ := Option.map_eq_some_iff.mp step
      intro i
      simp only [rpcSessionpoolRemove_get removed, Function.update_apply]
      split
      · rfl
      · exact exact i
  | get index =>
      obtain ⟨p, -, rfl⟩ := Option.map_eq_some_iff.mp step
      exact exact

/-- After a doubling the pool agrees with the map only if the new cells are NULL: what realloc left in
    them would be taken for a session. -/
theorem growsClear_of_agrees {s s' : PoolState} {call : PoolCall} (exact : s.Exact)
    (step : poolStep s call = some s') (agrees : s'.Agrees) : s.GrowsClear call := by
  cases call with
  | insert data more =>
      intro full k positive below
      simp only [poolStep] at step
      split at step
      · cases step
        have inserts := rpcSessionpoolInsert_inserts more s.pool data
        generalize rpcSessionpoolInsert (some more) s.pool data = result at inserts agrees
        cases inserts with
        | free n inside empty lowest => exact absurd rfl (full n none empty)
        | doubled _ =>
            have other : ((s.pool.size : Int) + k) ≠ s.pool.size := by omega
            have cell := Sessionpool.get_set (s.pool.grown_room more) (some data) (s.pool.size + k)
            rw [if_neg other, Sessionpool.get_grown, if_neg (by omega), if_pos (by omega)] at cell
            have left := agrees _ _ cell
            have unknown : rpcSessionpoolGet s.pool (s.pool.size + k) = none := if_neg (by omega)
            simp only [Function.update_of_ne other, exact _, unknown, Option.join_none] at left
            rwa [show ((s.pool.size : Int) + k - s.pool.size).toNat = k by omega] at left
      · cases step
  | remove index => trivial
  | get index => trivial

theorem Exact.answers {s : PoolState} (exact : s.Exact) (call : PoolCall) : s.Answers call := by
  cases call with
  | insert data more =>
      have inserts := rpcSessionpoolInsert_inserts more s.pool data
      simp only [Answers]
      generalize rpcSessionpoolInsert (some more) s.pool data = result at inserts
      cases inserts with
      | free n inside empty lowest =>
          constructor
          · refine ⟨by omega, by rw [exact n, empty]; rfl, fun i positive below => ?_⟩
            obtain ⟨r, taken⟩ := lowest i positive below
            rw [exact i, taken]
            simp
          · intro i p other found
            rw [Sessionpool.get_set inside, if_neg other, found]
      | doubled full =>
          constructor
          · refine ⟨by omega, ?_, fun i positive below => ?_⟩
            · rw [exact, show rpcSessionpoolGet s.pool s.pool.size = none from if_neg (by omega)]
              rfl
            · obtain ⟨j, rfl⟩ := Int.eq_ofNat_of_zero_le positive
              have bound : j < s.pool.data.length := by rw [s.pool.held]; omega
              have cell := (rpcSessionpoolGet_nat s.pool j).trans (List.getElem?_eq_getElem bound)
              rw [exact, cell]
              exact full _ _ cell
          · intro i p other found
            have old := Sessionpool.get_inside found
            rw [Sessionpool.get_set (s.pool.grown_room more), if_neg other, Sessionpool.get_grown,
              if_pos old.2, found]
  | remove index =>
      intro i pool other removed
      rw [rpcSessionpoolRemove_get removed, if_neg other]
  | get index =>
      intro p found
      exact exact.agrees index p found

end PoolState

/-- The pool is the map, and its answers are the map's, in exactly the runs in which every realloc
    happens to add NULL cells. -/
theorem rpcSessionpool_map (calls : List PoolCall) :
    Along poolStep PoolState.Answers .initial calls ∧ Always poolStep PoolState.Agrees .initial calls ↔
      Along poolStep PoolState.GrowsClear .initial calls := by
  have keeps : ∀ s call s', s.GrowsClear call → poolStep s call = some s' → s.Exact → s'.Exact :=
    fun s call s' clear step exact => PoolState.poolStep_exact clear step exact
  have agree : Always poolStep PoolState.Agrees .initial calls ↔
      Along poolStep PoolState.GrowsClear .initial calls :=
    always_iff_along (fun s exact => PoolState.Exact.agrees exact) keeps
      (fun s call s' exact step => PoolState.growsClear_of_agrees exact step) calls
      PoolState.initial_exact
  constructor
  · intro correct
    exact agree.mp correct.2
  · intro clear
    exact ⟨along_of_invariant (fun s call exact => PoolState.Exact.answers exact call) keeps clear
      PoolState.initial_exact, agree.mpr clear⟩

theorem exec_inserts (more : Nat → Option Nat) (ps : List Nat) {s : PoolState}
    {taken : List (Option Nat)} (some_taken : none ∉ taken)
    (cells : s.pool.data = taken ++ List.replicate ps.length none) (countable : s.pool.size ≤ INT_MAX) :
    ∃ s', exec poolStep s (ps.map (.insert · more)) = some s' ∧
      s'.pool.data = taken ++ ps.map some ∧
      ∀ i : Int, s.pool.size ≤ i → s'.live i = s.live i := by
  induction ps generalizing s taken with
  | nil => exact ⟨s, rfl, by simpa using cells, fun _ _ => rfl⟩
  | cons p ps ih =>
      have before : taken.findIdx? Option.isNone = none := by
        rw [List.findIdx?_eq_none_iff]
        intro x member
        exact Option.isNone_eq_false_iff.mpr
          (Option.isSome_iff_ne_none.mpr (ne_of_mem_of_not_mem member some_taken))
      have first : s.pool.data.findIdx? Option.isNone = some taken.length := by
        simp [cells, List.findIdx?_append, before, List.replicate_succ, List.findIdx?_cons]
      have below : taken.length < s.pool.size := by simp [← s.pool.held, cells]
      let s₁ : PoolState :=
        ⟨s.pool.set taken.length (some p), Function.update s.live taken.length (some p)⟩
      have one : poolStep s (.insert p more) = some s₁ := by
        simp only [poolStep, rpcSessionpoolInsert, first]
        exact if_pos countable
      have cells₁ : s₁.pool.data = (taken ++ [some p]) ++ List.replicate ps.length none := by
        simp [s₁, Sessionpool.set, cells, List.replicate_succ]
      obtain ⟨s', ran, data, live⟩ := ih (by simpa using some_taken) cells₁ countable
      refine ⟨s', exec_cons.mpr ⟨s₁, one, ran⟩, by simpa using data, fun i beyond => ?_⟩
      exact (live i beyond).trans (Function.update_of_ne (by omega) _ _)

/-- The 1001st session doubles the pool. Where realloc leaves 7 in the memory it adds, a get of an index
    that no session has had answers 7, and the next insert leaves 999 free indices out. -/
theorem rpcSessionpool_map_fails :
    let calls := (List.range' 1 POOLCAPACITY ++ [1001]).map (PoolCall.insert · fun _ => some 7)
    ∃ s, exec poolStep .initial calls = some s ∧ s.live 1001 = none ∧
      rpcSessionpoolGet s.pool 1001 = some (some 7) ∧ ¬s.Answers (.get 1001) ∧
      ¬s.Answers (.insert 1 fun _ => none) := by
  intro calls
  have cells : PoolState.initial.pool.data =
      [] ++ List.replicate (List.range' 1 POOLCAPACITY).length none := by
    rw [List.length_range', List.nil_append]
    rfl
  obtain ⟨s, filled, data, live⟩ := exec_inserts (fun _ => some 7) _ List.not_mem_nil cells (by decide)
  rw [List.nil_append] at data
  have size : s.pool.size = 1000 := by
    rw [← s.pool.held, data, List.length_map, List.length_range', POOLCAPACITY]
  have none_free : s.pool.data.findIdx? Option.isNone = none := by
    rw [data, List.findIdx?_eq_none_iff]
    intro x member
    obtain ⟨p, -, rfl⟩ := List.mem_map.mp member
    rfl
  let grown := (s.pool.grown fun _ => some 7).set s.pool.size (some 1001)
  let s' : PoolState := ⟨grown, Function.update s.live s.pool.size (some 1001)⟩
  have doubled : s'.pool.size = 2000 := by
    change s.pool.size * 2 = 2000
    rw [size]
  have last : poolStep s (.insert 1001 fun _ => some 7) = some s' := by
    simp only [poolStep, rpcSessionpoolInsert, none_free]
    apply if_pos
    change s'.pool.size ≤ INT_MAX
    rw [doubled]
    decide
  have ran : exec poolStep .initial calls = some s' := by
    simp only [calls, List.map_append]
    exact exec_append.mpr ⟨s, filled, exec_cons.mpr ⟨s', last, rfl⟩⟩
  have shows : ∀ i, rpcSessionpoolGet s'.pool i = if i = s.pool.size then some (some 1001)
      else if i < s.pool.size then rpcSessionpoolGet s.pool i
      else if i < s.pool.size * 2 then some (some 7) else none := by
    intro i
    rw [← Sessionpool.get_grown s.pool (fun _ => some 7)]
    exact Sessionpool.get_set (s.pool.grown_room _) (some 1001) i
  have unused : s'.live 1001 = none := by
    have other : (1001 : Int) ≠ s.pool.size := by omega
    exact (Function.update_of_ne other _ _).trans (live 1001 (by decide))
  have junk : rpcSessionpoolGet s'.pool 1001 = some (some 7) := by
    rw [shows, if_neg (by omega), if_neg (by omega), if_pos (by omega)]
  have full : s'.pool.Full := by
    intro i p found
    rw [shows] at found
    split at found
    · cases found
      simp
    · split at found
      · exact Sessionpool.full_of_none_free none_free i p found
      · split at found <;> cases found
        simp
  refine ⟨s', ran, unused, junk, fun answers => ?_, fun answers => ?_⟩
  · exact absurd ((answers _ junk).trans unused) (by simp)
  · have inserts := rpcSessionpoolInsert_inserts (fun _ => none) s'.pool 1
    simp only [PoolState.Answers] at answers
    generalize rpcSessionpoolInsert (some fun _ => none) s'.pool 1 = result at inserts answers
    cases inserts with
    | free n inside empty _ => exact full n none empty rfl
    | doubled _ =>
        have below : (1001 : Int) < s'.pool.size := by omega
        exact answers.1.2.2 1001 (by decide) below unused

end OpenRpc
