import OpenRpc.Lib.Locks
import OpenRpc.Queue
import OpenRpc.Sessionpool

/-! # The locks of the queues, the session pools and the arrays

Every operation of `rpc_queue`, `rpc_async_queue`, `rpc_sessionpool` and `rpc_array` on a structure that
is there, as one thread runs it: where it locks and unlocks, what it allocates, and where it returns.
-/

namespace OpenRpc

open Locks Code

/-- The mutexes: `free_list_locker`, and one in each structure. Both kinds of queues are numbered
    together. -/
inductive Mutex where
  | freeListLocker
  | queue (q : Nat)
  | pool (i : Nat)
  | array (i : Nat)
  deriving Repr, DecidableEq

structure Shared where
  heap : Nat → Item
  freeItemList : Option Nat
  queues : Nat → RpcQueue
  pools : Nat → Sessionpool
  arrays : Nat → RpcArray

namespace Shared

def setQueue (s : Shared) (q : Nat) (queue : RpcQueue) : Shared :=
  { s with queues := Function.update s.queues q queue }

def setPool (s : Shared) (i : Nat) (pool : Sessionpool) : Shared :=
  { s with pools := Function.update s.pools i pool }

def setArray (s : Shared) (i : Nat) (array : RpcArray) : Shared :=
  { s with arrays := Function.update s.arrays i array }

end Shared

abbrev Locked (α : Type) := Code Mutex Shared α

namespace Locked

/-- `rpc_queue_item_new` up to its malloc: an item of the free list. -/
def rpcQueueItemNewTake : Locked (Option Nat) := do
  let s ← look
  match s.freeItemList with
  | none => pure none
  | some _ =>
      lock .freeListLocker
      let s ← look
      match s.freeItemList with
      | some item =>
          put { s with freeItemList := (s.heap item).next }
          unlock .freeListLocker
          pure (some item)
      | none =>
          unlock .freeListLocker
          pure none

/-- `block` is what malloc answers where it is called. -/
def rpcQueueItemNew (block : Option Nat) : Locked (Option Nat) := do
  match ← rpcQueueItemNewTake with
  | some item => pure (some item)
  | none =>
      match block with
      | none => pure none
      | some block =>
          let s ← look
          put { s with heap := chainBlock s.heap block }
          lock .freeListLocker
          let s ← look
          put { s with heap := setNext s.heap (block + (freeItemLen - 1)) s.freeItemList
                       freeItemList := some (block + 1) }
          unlock .freeListLocker
          pure (some block)

def rpcQueueItemFree (item : Nat) : Locked Unit := do
  lock .freeListLocker
  let s ← look
  put { s with heap := setNext s.heap item (match s.freeItemList with | some p => some p | none => none)
               freeItemList := some item }
  unlock .freeListLocker

/-- `rpc_queue_push` once it has an item. -/
def rpcQueuePushLink (q data item : Nat) : Locked Unit := do
  let s ← look
  put { s with heap := Function.update s.heap item ⟨data, none⟩ }
  lock (.queue q)
  let s ← look
  match (s.queues q).tail with
  | some last =>
      put ({ s with heap := setNext s.heap last (some item) }.setQueue q
        { s.queues q with tail := some item })
  | none => put (s.setQueue q ⟨some item, some item⟩)
  unlock (.queue q)

/-- Where malloc fails it writes through a null pointer. -/
def rpcQueuePush (block : Option Nat) (q data : Nat) : Locked Unit := do
  let item ← deref (← rpcQueueItemNew block)
  rpcQueuePushLink q data item

/-- The same with `pthread_cond_signal` before the unlock. -/
def rpcAsyncQueuePush (block : Option Nat) (q data : Nat) : Locked Unit := rpcQueuePush block q data

/-- What the pops do under the lock once they no longer wait. -/
def unlink (q : Nat) : Locked (Option Nat) := do
  let s ← look
  match (s.queues q).head with
  | none => pure none
  | some item =>
      let next := (s.heap item).next
      put (s.setQueue q ⟨next, match next with | none => none | some _ => (s.queues q).tail⟩)
      pure (some item)

/-- What they do behind the unlock. -/
def giveBack : Option Nat → Locked (Option Nat)
  | some item => do
      rpcQueueItemFree item
      let s ← look
      pure (some (s.heap item).data)
  | none => pure none

def rpcQueuePop (q : Nat) : Locked (Option Nat) := do
  lock (.queue q)
  let item ← unlink q
  unlock (.queue q)
  giveBack item

structure Timespec where
  tvSec : Int
  tvNsec : Int
  deriving Repr, DecidableEq

/-- The two loops around `pthread_cond_wait` and `pthread_cond_timedwait`. The second is left when the
    wait answers 0, so not when its time is over. Where `try` is set there is none. -/
def awaitItem (q : Nat) (attempt : Bool) (tv : Option Timespec) : Locked Unit :=
  if attempt then pure ()
  else
    match tv with
    | none => waitWhile (.queue q) (fun s => (s.queues q).head.isNone) (fun _ => false)
    | some _ => waitWhile (.queue q) (fun s => (s.queues q).head.isNone) (fun turn => !turn.timedOut)

def rpcAsynQueuePopInner (q : Nat) (attempt : Bool) (tv : Option Timespec) : Locked (Option Nat) := do
  lock (.queue q)
  awaitItem q attempt tv
  let item ← unlink q
  unlock (.queue q)
  giveBack item

def rpcAsyncQueuePop (q : Nat) : Locked (Option Nat) := rpcAsynQueuePopInner q false none

def rpcAsyncQueueTryPop (q : Nat) : Locked (Option Nat) := rpcAsynQueuePopInner q true none

def rpcAsyncQueueTimedPop (q : Nat) (ms : Int) : Locked (Option Nat) :=
  rpcAsynQueuePopInner q false (some ⟨ms.tdiv 1000, ms.tmod 1000 * 1000 * 1000⟩)

/-- Up to the first `rounds + 1` rounds of its loop. What `rpc_free` gives back is no longer named. -/
def rpcAsyncQueueFree (q rounds : Nat) : Locked Unit := do
  lock (.queue q)
  whileSome (rpcAsyncQueueTryPop q) (fun _ => pure ()) (rounds + 1)
  unlock (.queue q)

/-- `more` is what realloc leaves in the cells it adds, or nothing where it fails. -/
def rpcSessionpoolInsert (more : Option (Nat → Option Nat)) (i : Nat) (p : Option Nat) :
    Locked Int := do
  lock (.pool i)
  let s ← look
  let pool := s.pools i
  match pool.data.findIdx? Option.isNone with
  | some cell =>
      put (s.setPool i (pool.set cell p))
      unlock (.pool i)
      pure cell
  | none =>
      match more with
      | none => pure (-1)
      | some more =>
          put (s.setPool i ((pool.grown more).set pool.size p))
          unlock (.pool i)
          pure pool.size

def rpcSessionpoolGet (i : Nat) (index : Int) : Locked (Option Nat) := do
  let s ← look
  assert (0 ≤ index)
  assert (index < (s.pools i).size)
  lock (.pool i)
  let s ← look
  let data ← deref (s.pools i).data[index.toNat]?
  unlock (.pool i)
  pure data

def rpcSessionpoolRemove (i : Nat) (index : Int) : Locked Bool := do
  lock (.pool i)
  let s ← look
  let cell ← deref (if 0 ≤ index then (s.pools i).data[index.toNat]? else none)
  unless cell.isNone do put (s.setPool i ((s.pools i).set index.toNat none))
  unlock (.pool i)
  pure true

def rpcArrayGet (i : Nat) : Locked (Option Nat) := do
  lock (.array i)
  let s ← look
  let got := OpenRpc.rpcArrayGet (s.arrays i)
  put (s.setArray i got.2)
  unlock (.array i)
  pure got.1

def rpcArrayIndex (i : Nat) (index : Int) : Locked (Option Nat) := do
  assert (0 ≤ index)
  lock (.array i)
  let s ← look
  let data := OpenRpc.rpcArrayIndex (s.arrays i) index.toNat
  unlock (.array i)
  pure data

def rpcArrayAdd (more : Option (Nat → Option Nat)) (i : Nat) (p : Option Nat) : Locked Bool := do
  lock (.array i)
  let s ← look
  let array := s.arrays i
  if room : array.cur < array.size then
    put (s.setArray i (array.store p room))
    unlock (.array i)
    pure true
  else
    match more with
    | some more =>
        put (s.setArray i ((array.grown more).store p (array.grown_room more)))
        unlock (.array i)
        pure true
    | none =>
        unlock (.array i)
        pure false

end Locked

/-- The calls of the four interfaces, with what malloc and realloc answer. -/
inductive LockedCall where
  | queueItemNew (block : Option Nat)
  | queueItemFree (item : Nat)
  | queuePush (block : Option Nat) (q data : Nat)
  | queuePop (q : Nat)
  | asyncQueuePush (block : Option Nat) (q data : Nat)
  | asyncQueuePop (q : Nat)
  | asyncQueueTryPop (q : Nat)
  | asyncQueueTimedPop (q : Nat) (ms : Int)
  | asyncQueueFree (q rounds : Nat)
  | sessionpoolInsert (more : Option (Nat → Option Nat)) (i : Nat) (p : Option Nat)
  | sessionpoolGet (i : Nat) (index : Int)
  | sessionpoolRemove (i : Nat) (index : Int)
  | arrayGet (i : Nat)
  | arrayIndex (i : Nat) (index : Int)
  | arrayAdd (more : Option (Nat → Option Nat)) (i : Nat) (p : Option Nat)

namespace LockedCall

def code : LockedCall → Locked Unit
  | .queueItemNew block => discard (Locked.rpcQueueItemNew block)
  | .queueItemFree item => Locked.rpcQueueItemFree item
  | .queuePush block q data => Locked.rpcQueuePush block q data
  | .queuePop q => discard (Locked.rpcQueuePop q)
  | .asyncQueuePush block q data => Locked.rpcAsyncQueuePush block q data
  | .asyncQueuePop q => discard (Locked.rpcAsyncQueuePop q)
  | .asyncQueueTryPop q => discard (Locked.rpcAsyncQueueTryPop q)
  | .asyncQueueTimedPop q ms => discard (Locked.rpcAsyncQueueTimedPop q ms)
  | .asyncQueueFree q rounds => Locked.rpcAsyncQueueFree q rounds
  | .sessionpoolInsert more i p => discard (Locked.rpcSessionpoolInsert more i p)
  | .sessionpoolGet i index => discard (Locked.rpcSessionpoolGet i index)
  | .sessionpoolRemove i index => discard (Locked.rpcSessionpoolRemove i index)
  | .arrayGet i => discard (Locked.rpcArrayGet i)
  | .arrayIndex i index => discard (Locked.rpcArrayIndex i index)
  | .arrayAdd more i p => discard (Locked.rpcArrayAdd more i p)

/-- The mutex of the structure, and that of the free list where the call takes or frees items. -/
def mutexes : LockedCall → List Mutex
  | .queueItemNew _ | .queueItemFree _ => [.freeListLocker]
  | .queuePush _ q _ | .queuePop q | .asyncQueuePush _ q _ | .asyncQueuePop q | .asyncQueueTryPop q
  | .asyncQueueTimedPop q _ | .asyncQueueFree q _ => [.queue q, .freeListLocker]
  | .sessionpoolInsert _ i _ | .sessionpoolGet i _ | .sessionpoolRemove i _ => [.pool i]
  | .arrayGet i | .arrayIndex i _ | .arrayAdd _ i _ => [.array i]

end LockedCall

end OpenRpc
