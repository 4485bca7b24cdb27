import OpenRpc.Locking

/-! # No mutex is locked twice, and none is left locked

A call is disciplined when it locks no mutex that it holds, holds on its return what it held before, and
has changed nothing where an insert or an add could not allocate. Two calls are not:
`rpc_async_queue_free`, whose loop calls a pop under the lock that the pop takes, and an insert into a
full pool that cannot be doubled, which returns without the unlock.
-/

namespace OpenRpc

open Locks Code Transition

/-- The state of the queues among that of the other structures. -/
def QueueState.shared (s : QueueState) (rest : Shared) : Shared :=
  { rest with heap := s.heap, freeItemList := s.freeItemList, queues := s.queues }

theorem Shared.setArray_self (s : Shared) (i : Nat) : s.setArray i (s.arrays i) = s := by
  rw [Shared.setArray, Function.update_eq_self]

namespace Locked

variable {r : Run Mutex Shared}

/-- The code is disciplined and holds on its return what it held before. -/
def Releases {α : Type} (c : Locked α) (r : Run Mutex Shared) : Prop :=
  c.Ensures r fun _ r' => r'.held = r.held

theorem queueItemNewTake_releases (free : r.held .freeListLocker = false) :
    Releases rpcQueueItemNewTake r := by
  simp only [Releases, rpcQueueItemNewTake, ensures_bind, ensures_look]
  split
  · rfl
  · simp only [ensures_bind, ensures_lock, ensures_look]
    refine ⟨free, ?_⟩
    split <;> simp [Run.released free]

theorem queueItemNew_releases (block : Option Nat) (free : r.held .freeListLocker = false) :
    Releases (rpcQueueItemNew block) r := by
  simp only [Releases, rpcQueueItemNew, ensures_bind]
  refine (queueItemNewTake_releases free).mono fun item r' same => ?_
  cases item with
  | some item => exact same
  | none =>
      cases block with
      | none => exact same
      | some block => simp [same, free]

theorem queueItemFree_releases (item : Nat) (free : r.held .freeListLocker = false) :
    Releases (rpcQueueItemFree item) r := by
  simp [Releases, rpcQueueItemFree, free, Run.released free]

theorem queuePushLink_releases {q : Nat} (data item : Nat) (own : r.held (.queue q) = false) :
    Releases (rpcQueuePushLink q data item) r := by
  simp only [Releases, rpcQueuePushLink, ensures_bind, ensures_look, ensures_put, ensures_lock]
  refine ⟨own, ?_⟩
  split <;> simp [Run.released own]

theorem queuePush_releases (block : Option Nat) {q : Nat} (data : Nat)
    (own : r.held (.queue q) = false) (free : r.held .freeListLocker = false) :
    Releases (rpcQueuePush block q data) r := by
  simp only [Releases, rpcQueuePush, ensures_bind]
  refine (queueItemNew_releases block free).mono fun item r' same => ?_
  cases item with
  | none => trivial
  | some item =>
      exact (queuePushLink_releases data item (by rwa [same])).mono fun _ _ here => here.trans same

theorem pop_releases {q : Nat} {held : Mutex → Bool} (own : held (.queue q) = false)
    (free : held .freeListLocker = false) (s : Shared) (others : List (Turn Shared)) :
    Ensures (do let item ← unlink q; unlock (.queue q); giveBack item)
      ⟨Function.update held (.queue q) true, s, others⟩ fun _ r' => r'.held = held := by
  have finish : ∀ item (r' : Run Mutex Shared), r'.held = Function.update held (.queue q) true →
      Ensures (do unlock (.queue q); giveBack item) r' fun _ r' => r'.held = held := by
    intro item r' here
    simp only [ensures_bind, ensures_unlock]
    refine ⟨by simp [here], ?_⟩
    have back : (r'.setHeld (.queue q) false).held = held := by
      rw [Run.held_setHeld, here, Run.released own]
    cases item with
    | none => exact back
    | some item =>
        simp only [giveBack, ensures_bind, ensures_look, ensures_pure]
        refine (queueItemFree_releases item (by rwa [back])).mono fun _ _ same => ?_
        exact same.trans back
  simp only [unlink, ensures_bind, ensures_look] at finish ⊢
  split
  · exact finish _ _ rfl
  · exact finish _ _ rfl

theorem asyncQueuePop_releases {q : Nat} (attempt : Bool) (tv : Option Timespec)
    (own : r.held (.queue q) = false) (free : r.held .freeListLocker = false) :
    Releases (rpcAsynQueuePopInner q attempt tv) r := by
  have locked : (r.turned.setHeld (.queue q) true).held (.queue q) = true := Function.update_self ..
  have rest := fun s others => pop_releases own free s others
  simp only [Releases, rpcAsynQueuePopInner, ensures_bind, ensures_lock] at rest ⊢
  refine ⟨own, ?_⟩
  cases attempt with
  | true => exact rest _ _
  | false =>
      cases tv with
      | none => exact ensures_waitWhile locked fun s others _ => rest s others
      | some tv => exact ensures_waitWhile locked fun s others _ => rest s others

theorem queuePop_releases {q : Nat} (own : r.held (.queue q) = false)
    (free : r.held .freeListLocker = false) : Releases (rpcQueuePop q) r :=
  asyncQueuePop_releases true none own free

theorem asyncQueueFree_relocks (q rounds : Nat) (own : r.held (.queue q) = false) :
    rpcAsyncQueueFree q rounds r = .relocked (.queue q) := by
  simp [rpcAsyncQueueFree, whileSome, rpcAsyncQueueTryPop, rpcAsynQueuePopInner, bind, lock, own]

section Pools

variable {more : Option (Nat → Option Nat)} {i : Nat}

theorem sessionpoolInsert_releases (p : Option Nat) (own : r.held (.pool i) = false)
    (room : (r.found.pools i).data.findIdx? Option.isNone ≠ none ∨ more ≠ none) :
    Releases (Locked.rpcSessionpoolInsert more i p) r := by
  simp only [Releases, Locked.rpcSessionpoolInsert, ensures_bind, ensures_lock, ensures_look]
  refine ⟨own, ?_⟩
  cases first : (r.found.pools i).data.findIdx? Option.isNone with
  | some cell => simp [first, Run.released own]
  | none =>
      cases more with
      | none => simp [first] at room
      | some more => simp [first, Run.released own]

/-- With all cells taken and no larger array, the insert returns -1 and keeps the mutex. -/
theorem sessionpoolInsert_full (p : Option Nat) (own : r.held (.pool i) = false)
    (full : (r.found.pools i).data.findIdx? Option.isNone = none) :
    Locked.rpcSessionpoolInsert none i p r = .returned (-1) (r.turned.setHeld (.pool i) true) := by
  simp [Locked.rpcSessionpoolInsert, bind, pure, lock, look, own, full]

theorem sessionpoolInsert_result (p : Nat) (own : r.held (.pool i) = false) :
    Ensures (Locked.rpcSessionpoolInsert more i (some p)) r fun a r' =>
      (a, r'.shared.pools i) = OpenRpc.rpcSessionpoolInsert more (r.found.pools i) p := by
  simp only [Locked.rpcSessionpoolInsert, OpenRpc.rpcSessionpoolInsert, ensures_bind, ensures_lock,
    ensures_look]
  refine ⟨own, ?_⟩
  cases first : (r.found.pools i).data.findIdx? Option.isNone with
  | some cell => simp [first, Shared.setPool]
  | none => cases more <;> simp [first, Shared.setPool]

theorem sessionpoolGet_spec (index : Int) (own : r.held (.pool i) = false) :
    Ensures (Locked.rpcSessionpoolGet i index) r fun a r' =>
      r'.held = r.held ∧ OpenRpc.rpcSessionpoolGet (r.found.pools i) index = some a := by
  simp only [Locked.rpcSessionpoolGet, ensures_bind, ensures_look, ensures_assert, ensures_lock]
  intro positive _
  refine ⟨own, ?_⟩
  simp only [Run.shared_setHeld, Run.shared_turned]
  cases cell : (r.found.pools i).data[index.toNat]? with
  | none => trivial
  | some a =>
      have found := (rpcSessionpoolGet_nat (r.found.pools i) index.toNat).trans cell
      rw [Int.toNat_of_nonneg positive] at found
      simpa [deref, Run.released own] using found

theorem sessionpoolRemove_spec (index : Int) (own : r.held (.pool i) = false) :
    Ensures (Locked.rpcSessionpoolRemove i index) r fun _ r' =>
      r'.held = r.held ∧
      OpenRpc.rpcSessionpoolRemove (r.found.pools i) index = some (r'.shared.pools i) := by
  simp only [Locked.rpcSessionpoolRemove, ensures_bind, ensures_lock, ensures_look]
  refine ⟨own, ?_⟩
  simp only [Run.shared_setHeld, Run.shared_turned]
  split
  · rename_i positive
    cases cell : (r.found.pools i).data[index.toNat]? with
    | none => trivial
    | some held =>
        obtain ⟨bound, -⟩ := List.getElem?_eq_some_iff.mp cell
        rw [(r.found.pools i).held] at bound
        have inside : 0 ≤ index ∧ index < (r.found.pools i).size := ⟨positive, by omega⟩
        simp only [OpenRpc.rpcSessionpoolRemove, if_pos inside, cell]
        cases held <;> simp [deref, Shared.setPool, Run.released own]
  · trivial

end Pools

section Arrays

variable {i : Nat}

theorem arrayGet_spec (own : r.held (.array i) = false) :
    Ensures (Locked.rpcArrayGet i) r fun a r' =>
      r'.held = r.held ∧ OpenRpc.rpcArrayGet (r.found.arrays i) = (a, r'.shared.arrays i) := by
  simp [Locked.rpcArrayGet, Shared.setArray, own, Run.released own]

theorem arrayIndex_spec (index : Int) (own : r.held (.array i) = false) :
    Ensures (Locked.rpcArrayIndex i index) r fun a r' =>
      r'.held = r.held ∧ a = OpenRpc.rpcArrayIndex (r.found.arrays i) index.toNat := by
  simp [Locked.rpcArrayIndex, own]

theorem arrayAdd_spec (more : Option (Nat → Option Nat)) (p : Option Nat)
    (own : r.held (.array i) = false) :
    Ensures (Locked.rpcArrayAdd more i p) r fun a r' =>
      r'.held = r.held ∧
      (a, r'.shared) = ((OpenRpc.rpcArrayAdd more (r.found.arrays i) p).1,
        r.found.setArray i (OpenRpc.rpcArrayAdd more (r.found.arrays i) p).2) := by
  simp only [Locked.rpcArrayAdd, OpenRpc.rpcArrayAdd, ensures_bind, ensures_lock, ensures_look]
  refine ⟨own, ?_⟩
  simp only [Run.shared_setHeld, Run.shared_turned]
  by_cases room : (r.found.arrays i).cur < (r.found.arrays i).size
  · simp [room, Run.released own]
  · cases more with
    | some more => simp [room, Run.released own]
    | none => simp [room, Run.released own, Shared.setArray_self]

end Arrays

section Alone

variable {held : Mutex → Bool} {s : QueueState} {t : Nat}

theorem lock_alone {m : Mutex} (free : held m = false) (s : Shared) :
    lock m ⟨held, s, []⟩ = .returned () ⟨Function.update held m true, s, []⟩ := by
  simp [lock, free, Run.turned, Run.setHeld, Run.found, afterTurn]

theorem unlock_alone {m : Mutex} (free : held m = false) (s : Shared) :
    unlock m ⟨Function.update held m true, s, []⟩ = .returned () ⟨held, s, []⟩ := by
  simp [unlock, Run.setHeld, Run.released free]

theorem queueItemNew_steps (q data : Nat) (rest : Shared) {block : Nat} (idle : s.threads t = .idle)
    (fresh : s.Fresh block) (free : held .freeListLocker = false) :
    ∃ actions s' item, exec queueStep s actions = some s' ∧ s'.threads t = .fill q data item ∧
      rpcQueueItemNew (some block) ⟨held, s.shared rest, []⟩ =
        .returned (some item) ⟨held, s'.shared rest, []⟩ := by
  cases list : s.freeItemList with
  | some item =>
      refine ⟨[.push t q data, .go t, .go t],
        OpenRpc.rpcQueueItemNewTake (s.setThread t (.take q data)) t q data, item, ?_, ?_, ?_⟩
      · simp [exec, queueStep, idle, QueueState.setThread, rpcQueueItemNewLook, list]
      · simp [OpenRpc.rpcQueueItemNewTake, QueueState.setThread, list]
      · simp [rpcQueueItemNew, rpcQueueItemNewTake, bind, pure, look, put, lock_alone free,
          unlock_alone free, Run.setShared, OpenRpc.rpcQueueItemNewTake, QueueState.shared,
          QueueState.setThread, QueueState.next, list]
  | none =>
      let wants := s.setThread t (.alloc q data)
      have here : wants.threads t = .alloc q data := Function.update_self ..
      have asks : exec queueStep s [.push t q data, .go t] = some wants := by
        simp [exec, queueStep, idle, QueueState.setThread, rpcQueueItemNewLook, list, wants]
      have fresh : wants.Fresh block := fresh
      have gets : exec queueStep wants [.malloc t block, .go t] =
          some (rpcQueueItemNewSplice (rpcQueueItemNewBlock wants t q data block) t q data block) := by
        simp [exec, queueStep, here, fresh, rpcQueueItemNewBlock, QueueState.setThread]
      refine ⟨_, _, block, exec_append.mpr ⟨wants, asks, gets⟩, ?_, ?_⟩
      · simp [rpcQueueItemNewSplice, QueueState.setThread]
      · simp [rpcQueueItemNew, rpcQueueItemNewTake, bind, pure, look, put, lock_alone free,
          unlock_alone free, Run.setShared, rpcQueueItemNewSplice, rpcQueueItemNewBlock,
          QueueState.shared, QueueState.setThread, list, wants]

theorem queuePushLink_steps {q data item : Nat} (rest : Shared)
    (here : s.threads t = .fill q data item) (own : held (.queue q) = false) :
    ∃ s', exec queueStep s [.go t, .go t] = some s' ∧
      rpcQueuePushLink q data item ⟨held, s.shared rest, []⟩ =
        .returned () ⟨held, s'.shared rest, []⟩ := by
  refine ⟨OpenRpc.rpcQueuePushLink (rpcQueuePushFill s t q data item) t q data item, ?_, ?_⟩
  · simp [exec, queueStep, here, rpcQueuePushFill, QueueState.setThread]
  · cases tail : (s.queues q).tail <;>
      simp [rpcQueuePushLink, bind, look, put, lock_alone own, unlock_alone own, Run.setShared,
        Shared.setQueue, OpenRpc.rpcQueuePushLink, rpcQueuePushFill, QueueState.shared,
        QueueState.setThread, tail]

theorem queuePush_steps (q data : Nat) (rest : Shared) {block : Nat} (idle : s.threads t = .idle)
    (fresh : s.Fresh block) (own : held (.queue q) = false) (free : held .freeListLocker = false) :
    ∃ actions s', exec queueStep s actions = some s' ∧
      rpcQueuePush (some block) q data ⟨held, s.shared rest, []⟩ =
        .returned () ⟨held, s'.shared rest, []⟩ := by
  obtain ⟨actions, s₁, item, taken, here, new⟩ := queueItemNew_steps q data rest idle fresh free
  obtain ⟨s₂, links, link⟩ := queuePushLink_steps rest here own
  refine ⟨_, s₂, exec_append.mpr ⟨s₁, taken, links⟩, ?_⟩
  rw [rpcQueuePush, bind_returned new]
  exact link

theorem queuePop_steps {q : Nat} (rest : Shared) (idle : s.threads t = .idle)
    (own : held (.queue q) = false) (free : held .freeListLocker = false) :
    ∃ actions s' data, exec queueStep s actions = some s' ∧
      rpcQueuePop q ⟨held, s.shared rest, []⟩ = .returned data ⟨held, s'.shared rest, []⟩ := by
  cases head : (s.queues q).head with
  | none =>
      refine ⟨[.pop t q false], s, none, ?_, ?_⟩
      · simp [exec, queueStep, idle, head]
      · simp [rpcQueuePop, unlink, giveBack, bind, pure, look, lock_alone own, unlock_alone own,
          QueueState.shared, head]
  | some item =>
      let unlinked := rpcQueuePopUnlink s t q item
      let freed := OpenRpc.rpcQueueItemFree unlinked t q (s.ledger q).popped item
      refine ⟨[.pop t q false, .go t, .go t], rpcQueuePopRead freed t q (s.ledger q).popped item,
        some (freed.data item), ?_, ?_⟩
      · simp [exec, queueStep, idle, head, freed, unlinked, rpcQueuePopUnlink,
          OpenRpc.rpcQueueItemFree, QueueState.setThread]
      · cases spare : s.freeItemList <;> cases next : (s.heap item).next <;>
          simp [rpcQueuePop, unlink, giveBack, bind, pure, look, put, lock_alone own,
            unlock_alone own, lock_alone free, unlock_alone free, QueueState.shared, head,
            Run.setShared, rpcQueueItemFree, Shared.setQueue, freed, unlinked, rpcQueuePopUnlink,
            OpenRpc.rpcQueueItemFree, QueueState.setThread, rpcQueuePopRead, QueueState.next,
            QueueState.data, spare, next]

end Alone

end Locked

namespace LockedCall

/-- The call asks for memory to grow the pool or the array, and is given none. -/
def FailsToGrow (s : Shared) : LockedCall → Prop
  | .sessionpoolInsert none i _ => (s.pools i).Full
  | .arrayAdd none i _ => (s.arrays i).cur = (s.arrays i).size
  | _ => False

/-- What is asked of a call: it locks nothing twice, holds on its return what it held before, and leaves
    all as it was where it cannot grow the pool or the array. -/
def Disciplined (call : LockedCall) (r : Run Mutex Shared) : Prop :=
  call.code.Ensures r fun _ r' =>
    r'.held = r.held ∧ (call.FailsToGrow r.found → r'.shared = r.found)

/-- The calls that are not disciplined. -/
def Slips (s : Shared) : LockedCall → Prop
  | .asyncQueueFree .. => True
  | .sessionpoolInsert none i _ => (s.pools i).Full
  | _ => False

theorem full_iff (pool : Sessionpool) : pool.Full ↔ pool.data.findIdx? Option.isNone = none := by
  refine ⟨fun full => ?_, Sessionpool.full_of_none_free⟩
  rw [List.findIdx?_eq_none_iff]
  intro p cell
  obtain ⟨n, bound, rfl⟩ := List.getElem_of_mem cell
  have taken := full n _ ((rpcSessionpoolGet_nat pool n).trans (List.getElem?_eq_getElem bound))
  exact Option.isNone_eq_false_iff.mpr (Option.isSome_iff_ne_none.mpr taken)

open Locked

variable {r : Run Mutex Shared}

theorem releases_discard {α : Type} {c : Locked α} (releases : Releases c r) :
    Releases (discard c) r :=
  ensures_bind.mpr (releases.mono fun _ _ same => same)

theorem releases_of_spec {α : Type} {c : Locked α} {Q : α → Run Mutex Shared → Prop}
    (spec : c.Ensures r fun a r' => r'.held = r.held ∧ Q a r') : Releases (discard c) r :=
  ensures_bind.mpr (spec.mono fun _ _ both => both.1)

theorem disciplined_of_releases {call : LockedCall} (releases : Releases call.code r)
    (steady : ¬call.FailsToGrow r.found) : call.Disciplined r :=
  releases.mono fun _ _ same => ⟨same, fun fails => absurd fails steady⟩

theorem steady_disciplined {call : LockedCall} (releases : Releases call.code r)
    (steady : ¬call.FailsToGrow r.found) (clean : ¬call.Slips r.found) :
    call.Disciplined r ↔ ¬call.Slips r.found :=
  iff_of_true (disciplined_of_releases releases steady) clean

theorem sessionpoolInsert_disciplined (more : Option (Nat → Option Nat)) {i : Nat} (p : Option Nat)
    (own : r.held (.pool i) = false) :
    (sessionpoolInsert more i p).Disciplined r ↔ ¬(sessionpoolInsert more i p).Slips r.found := by
  cases more with
  | some more =>
      have releases := sessionpoolInsert_releases p own (.inr (Option.some_ne_none more))
      exact steady_disciplined (releases_discard releases) id id
  | none =>
      rw [Slips, full_iff]
      constructor
      · intro disciplined full
        have returns := ensures_bind.mp disciplined
        simp only [Ensures, sessionpoolInsert_full p own full] at returns
        -- the flag of the pool, before and behind
        have kept := congrFun returns.1 (.pool i)
        rw [own, Run.held_setHeld, Function.update_self] at kept
        cases kept
      · intro room
        have releases : Releases (Locked.rpcSessionpoolInsert none i p) r :=
          sessionpoolInsert_releases p own (.inl room)
        exact disciplined_of_releases (releases_discard releases) fun full => room ((full_iff _).mp full)

theorem arrayAdd_disciplined (more : Option (Nat → Option Nat)) {i : Nat} (p : Option Nat)
    (own : r.held (.array i) = false) : (arrayAdd more i p).Disciplined r := by
  refine ensures_bind.mpr ((arrayAdd_spec more p own).mono ?_)
  rintro a r' ⟨same, result⟩
  refine ⟨same, fun fails => ?_⟩
  cases more with
  | some more => exact absurd fails id
  | none =>
      have left := (Prod.mk.inj result).2
      rwa [OpenRpc.rpcArrayAdd, dif_neg (Nat.not_lt.mpr (Nat.le_of_eq fails.symm)),
        Shared.setArray_self] at left

theorem asyncQueueFree_undisciplined {q : Nat} (rounds : Nat) (own : r.held (.queue q) = false) :
    ¬(asyncQueueFree q rounds).Disciplined r := by
  intro disciplined
  simp only [Disciplined, code, Ensures, asyncQueueFree_relocks q rounds own] at disciplined

theorem both_free {held : Mutex → Bool} {m m' : Mutex} (free : ∀ n ∈ [m, m'], held n = false) :
    held m = false ∧ held m' = false :=
  ⟨free m (by simp), free m' (by simp)⟩

theorem one_free {held : Mutex → Bool} {m : Mutex} (free : ∀ n ∈ [m], held n = false) :
    held m = false :=
  free m (by simp)

/-- The calls of the four interfaces, on any state, with whatever the allocations answer and the other
    threads do: all but two kinds keep the discipline. -/
theorem lockedCall_disciplined (call : LockedCall) (r : Run Mutex Shared)
    (free : ∀ m ∈ call.mutexes, r.held m = false) : call.Disciplined r ↔ ¬call.Slips r.found := by
  cases call with
  | queueItemNew block =>
      have releases := queueItemNew_releases block (one_free free)
      exact steady_disciplined (releases_discard releases) id id
  | queueItemFree item =>
      exact steady_disciplined (queueItemFree_releases item (one_free free)) id id
  | queuePush block q data | asyncQueuePush block q data =>
      obtain ⟨own, items⟩ := both_free free
      exact steady_disciplined (queuePush_releases block data own items) id id
  | queuePop q =>
      obtain ⟨own, items⟩ := both_free free
      exact steady_disciplined (releases_discard (queuePop_releases own items)) id id
  | asyncQueuePop q | asyncQueueTryPop q | asyncQueueTimedPop q ms =>
      obtain ⟨own, items⟩ := both_free free
      exact steady_disciplined (releases_discard (asyncQueuePop_releases _ _ own items)) id id
  | asyncQueueFree q rounds =>
      obtain ⟨own, -⟩ := both_free free
      exact iff_of_false (asyncQueueFree_undisciplined rounds own) (not_not_intro trivial)
  | sessionpoolInsert more i p => exact sessionpoolInsert_disciplined more p (one_free free)
  | sessionpoolGet i index =>
      have spec := sessionpoolGet_spec index (one_free free)
      exact steady_disciplined (releases_of_spec spec) id id
  | sessionpoolRemove i index =>
      have spec := sessionpoolRemove_spec index (one_free free)
      exact steady_disciplined (releases_of_spec spec) id id
  | arrayGet i => exact steady_disciplined (releases_of_spec (arrayGet_spec (one_free free))) id id
  | arrayIndex i index =>
      have spec := arrayIndex_spec index (one_free free)
      exact steady_disciplined (releases_of_spec spec) id id
  | arrayAdd more i p => exact iff_of_true (arrayAdd_disciplined more p (one_free free)) id

/-- A thread that holds nothing, with new structures and no other thread. -/
def fresh (pool : Sessionpool) : Run Mutex Shared where
  held := fun _ => false
  shared := ⟨fun _ => ⟨0, none⟩, none, fun _ => ⟨none, none⟩, fun _ => pool, fun _ => rpcArrayNew⟩
  others := []

/-- The array behind as many adds as it has cells. -/
def takenArray : RpcArray where
  data := List.replicate RPCARRAYSIZE (some 1)
  size := RPCARRAYSIZE
  cur := RPCARRAYSIZE
  held := List.length_replicate
  inside := Nat.le_refl _
  positive := rpcArrayNew.positive

def arrayRun : Run Mutex Shared :=
  { fresh rpcSessionpoolNew with shared := (fresh rpcSessionpoolNew).shared.setArray 0 takenArray }

/-- Another thread's push. -/
def pushed (s : Shared) : Shared :=
  { s with heap := Function.update s.heap 7 ⟨9, none⟩ }.setQueue 0 ⟨some 7, some 7⟩

/-- The mutex is there in the first turn, and in the second another thread pushes and wakes the waiter. -/
def wokenRun : Run Mutex Shared :=
  { fresh rpcSessionpoolNew with others := [⟨id, false⟩, ⟨pushed, false⟩] }

/-- An add to a full array that cannot be doubled, and a timed pop of an empty queue that a push wakes:
    both return, the add with everything as it was. -/
theorem lockedCall_disciplined_returns :
    ((arrayAdd none 0 (some 2)).FailsToGrow arrayRun.found ∧
      ∃ r, (arrayAdd none 0 (some 2)).code arrayRun = .returned () r ∧ r.held = arrayRun.held ∧
        r.shared = arrayRun.found) ∧
    ∃ r, (asyncQueueTimedPop 0 250).code wokenRun = .returned () r ∧ r.held = wokenRun.held ∧
      r.others = [] ∧ r.shared.freeItemList = some 7 := by
  have returns : ∀ (call : LockedCall) (r r' : Run Mutex Shared), call.code r = .returned () r' →
      call.Disciplined r → r'.held = r.held ∧ (call.FailsToGrow r.found → r'.shared = r.found) := by
    intro call r r' returned disciplined
    rwa [Disciplined, Ensures, returned] at disciplined
  have full : (arrayAdd none 0 (some 2)).FailsToGrow arrayRun.found := rfl
  obtain ⟨r, added⟩ : ∃ r, (arrayAdd none 0 (some 2)).code arrayRun = .returned () r := ⟨_, rfl⟩
  obtain ⟨released, unchanged⟩ := returns _ _ _ added
    ((lockedCall_disciplined (arrayAdd none 0 (some 2)) arrayRun fun _ _ => rfl).mpr id)
  obtain ⟨r', popped, used, freed⟩ : ∃ r, (asyncQueueTimedPop 0 250).code wokenRun = .returned () r ∧
      r.others = [] ∧ r.shared.freeItemList = some 7 := ⟨_, rfl, rfl, rfl⟩
  obtain ⟨released', -⟩ := returns _ _ _ popped
    ((lockedCall_disciplined (asyncQueueTimedPop 0 250) wokenRun fun _ _ => rfl).mpr id)
  exact ⟨⟨full, r, added, released, unchanged full⟩, r', popped, released', used, freed⟩

/-- A new pool behind as many inserts as it has cells. -/
def takenPool : Sessionpool where
  data := List.replicate POOLCAPACITY (some 1)
  size := POOLCAPACITY
  held := List.length_replicate
  positive := rpcSessionpoolNew.positive

theorem takenPool_full : takenPool.Full := by
  rw [full_iff, List.findIdx?_eq_none_iff]
  intro p cell
  rw [List.eq_of_mem_replicate cell]
  rfl

theorem fullInsert_undisciplined {pool : Sessionpool} (full : pool.Full) :
    ¬(sessionpoolInsert none 0 (some 2)).Disciplined (fresh pool) :=
  fun disciplined => (sessionpoolInsert_disciplined none (some 2) rfl).mp disciplined full

/-- To free an empty queue never ends, and an insert that cannot double the pool keeps its mutex. -/
theorem lockedCall_disciplined_fails :
    ¬(asyncQueueFree 0 0).Disciplined (fresh rpcSessionpoolNew) ∧
    ¬(sessionpoolInsert none 0 (some 2)).Disciplined (fresh takenPool) :=
  ⟨asyncQueueFree_undisciplined 0 rfl, fullInsert_undisciplined takenPool_full⟩

end LockedCall

end OpenRpc
