import OpenRpc.Lib.LinkedList
import OpenRpc.Lib.Transition

/-! # The queues and their shared free list of items, under threads

`rpc_queue` and `rpc_async_queue` are linked lists of items with a lock each; the items come from one
free list with its own lock. A step here is a section under a lock, an unlocked look at the free list,
a write to an item that is not linked yet, or the read of `item->data` with which a pop ends. `malloc`
succeeds; where it does not, a push writes through a null pointer.
-/

namespace OpenRpc

open Transition

/-- A `rpc_queue_item`; items are named by their address. -/
structure Item where
  data : Nat
  next : Option Nat
  deriving Repr, DecidableEq

structure RpcQueue where
  head : Option Nat
  tail : Option Nat
  deriving Repr, DecidableEq

def freeItemLen : Nat := 32

/-- Where a thread is in a push or a pop. A pop carries the number `k` of its pointer among those
    pushed on the queue, which the source does not. -/
inductive Pc where
  | idle
  /-- `rpc_queue_item_new`, before the unlocked look at `free_item_list`. -/
  | look (q data : Nat)
  /-- It saw an item and waits for the lock. -/
  | take (q data : Nat)
  /-- There was none, so it calls `malloc`. -/
  | alloc (q data : Nat)
  /-- It has chained its block and waits for the lock again. -/
  | splice (q data block : Nat)
  | fill (q data item : Nat)
  | link (q data item : Nat)
  /-- A pop that has unlinked its item, before `rpc_queue_item_free`. -/
  | giveBack (q k item : Nat)
  /-- Behind `rpc_queue_item_free`, before `return item->data`. -/
  | read (q k item : Nat)
  deriving Repr, DecidableEq

/-- What has happened on a queue, which the source does not keep: the pointers in the order they were
    linked, how many were unlinked, and for each pop that has returned one, its number and value. -/
structure Ledger where
  pushed : List Nat
  popped : Nat
  returned : List (Nat × Nat)
  deriving Repr, DecidableEq

structure QueueState where
  heap : Nat → Item
  /-- The addresses of the blocks that `malloc` has returned. -/
  blocks : List Nat
  freeItemList : Option Nat
  queues : Nat → RpcQueue
  threads : Nat → Pc
  ledger : Nat → Ledger

/-- No queue holds anything and no thread is in a call; the memory still to be allocated holds
    anything. -/
def QueueState.initial (heap : Nat → Item) : QueueState :=
  ⟨heap, [], none, fun _ => ⟨none, none⟩, fun _ => .idle, fun _ => ⟨[], 0, []⟩⟩

namespace QueueState

def next (s : QueueState) (a : Nat) : Option Nat := (s.heap a).next

def data (s : QueueState) (a : Nat) : Nat := (s.heap a).data

def setThread (s : QueueState) (t : Nat) (pc : Pc) : QueueState :=
  { s with threads := Function.update s.threads t pc }

def Allocated (s : QueueState) (a : Nat) : Prop := ∃ b ∈ s.blocks, b ≤ a ∧ a < b + freeItemLen

/-- A block that overlaps no block allocated before. -/
def Fresh (s : QueueState) (block : Nat) : Prop :=
  ∀ b ∈ s.blocks, b + freeItemLen ≤ block ∨ block + freeItemLen ≤ b

instance (s : QueueState) (block : Nat) : Decidable (s.Fresh block) :=
  inferInstanceAs (Decidable (∀ b ∈ s.blocks, _))

end QueueState

def setNext (heap : Nat → Item) (a : Nat) (p : Option Nat) : Nat → Item :=
  Function.update heap a { heap a with next := p }

/-- `rpc_queue_item_new`: the unlocked look at the free list. -/
def rpcQueueItemNewLook (s : QueueState) (t q data : Nat) : QueueState :=
  match s.freeItemList with
  | none => s.setThread t (.alloc q data)
  | some _ => s.setThread t (.take q data)

/-- Under the lock: the first item of the free list, if it is still there. -/
def rpcQueueItemNewTake (s : QueueState) (t q data : Nat) : QueueState :=
  match s.freeItemList with
  | none => s.setThread t (.alloc q data)
  | some item => { s.setThread t (.fill q data item) with freeItemList := s.next item }

/-- The loop over a new block: every cell but the first and the last is chained to the next. -/
def chainBlock (heap : Nat → Item) (block : Nat) : Nat → Item :=
  (List.range' 2 (freeItemLen - 2)).foldl
    (fun heap i => setNext heap (block + (i - 1)) (some (block + i))) heap

def rpcQueueItemNewBlock (s : QueueState) (t q data block : Nat) : QueueState :=
  { s.setThread t (.splice q data block) with
    heap := chainBlock s.heap block, blocks := block :: s.blocks }

/-- Under the lock: the block without its first cell goes in front of the free list. -/
def rpcQueueItemNewSplice (s : QueueState) (t q data block : Nat) : QueueState :=
  { s.setThread t (.fill q data block) with
    heap := setNext s.heap (block + (freeItemLen - 1)) s.freeItemList
    freeItemList := some (block + 1) }

def rpcQueueItemFree (s : QueueState) (t q k item : Nat) : QueueState :=
  { s.setThread t (.read q k item) with
    heap := setNext s.heap item (match s.freeItemList with | some p => some p | none => none)
    freeItemList := some item }

/-- `rpc_queue_push` and `rpc_async_queue_push`: the writes before the lock. -/
def rpcQueuePushFill (s : QueueState) (t q data item : Nat) : QueueState :=
  { s.setThread t (.link q data item) with heap := Function.update s.heap item ⟨data, none⟩ }

/-- Under the lock of the queue. -/
def rpcQueuePushLink (s : QueueState) (t q data item : Nat) : QueueState :=
  let ledger := s.ledger q
  let s := { s.setThread t .idle with
             ledger := Function.update s.ledger q { ledger with pushed := ledger.pushed ++ [data] } }
  match (s.queues q).tail with
  | some last =>
      { s with heap := setNext s.heap last (some item)
               queues := Function.update s.queues q { s.queues q with tail := some item } }
  | none => { s with queues := Function.update s.queues q ⟨some item, some item⟩ }

/-- `rpc_queue_pop` and `rpc_asyn_queue_pop_inner` under the lock of the queue, which holds an item. -/
def rpcQueuePopUnlink (s : QueueState) (t q item : Nat) : QueueState :=
  let ledger := s.ledger q
  { s.setThread t (.giveBack q ledger.popped item) with
    queues := Function.update s.queues q
      ⟨s.next item, match s.next item with | none => none | some _ => (s.queues q).tail⟩
    ledger := Function.update s.ledger q { ledger with popped := ledger.popped + 1 } }

/-- `return item->data`. -/
def rpcQueuePopRead (s : QueueState) (t q k item : Nat) : QueueState :=
  let ledger := s.ledger q
  { s.setThread t .idle with
    ledger := Function.update s.ledger q
      { ledger with returned := ledger.returned ++ [(k, s.data item)] } }

inductive QueueAction where
  /-- The thread calls `rpc_queue_push` or `rpc_async_queue_push`. -/
  | push (t q data : Nat)
  /-- It calls a pop, which takes the lock; `wait` is set for `rpc_async_queue_pop`, which waits for an
      item. The others return NULL where there is none. -/
  | pop (t q : Nat) (wait : Bool)
  | malloc (t block : Nat)
  /-- The thread takes the next step of its push or pop. -/
  | go (t : Nat)
  deriving Repr, DecidableEq

def queueStep : Step QueueState QueueAction
  | s, .push t q data =>
      match s.threads t with
      | .idle => some (s.setThread t (.look q data))
      | _ => none
  | s, .pop t q wait =>
      match s.threads t, (s.queues q).head with
      | .idle, some item => some (rpcQueuePopUnlink s t q item)
      | .idle, none => if wait then none else some s
      | _, _ => none
  | s, .malloc t block =>
      match s.threads t with
      | .alloc q data => if s.Fresh block then some (rpcQueueItemNewBlock s t q data block) else none
      | _ => none
  | s, .go t =>
      match s.threads t with
      | .idle | .alloc .. => none
      | .look q data => some (rpcQueueItemNewLook s t q data)
      | .take q data => some (rpcQueueItemNewTake s t q data)
      | .splice q data block => some (rpcQueueItemNewSplice s t q data block)
      | .fill q data item => some (rpcQueuePushFill s t q data item)
      | .link q data item => some (rpcQueuePushLink s t q data item)
      | .giveBack q k item => some (rpcQueueItemFree s t q k item)
      | .read q k item => some (rpcQueuePopRead s t q k item)

/-- All that a step can do. -/
inductive QueueMoves (s : QueueState) : QueueAction → QueueState → Prop
  | push {t q data : Nat} (here : s.threads t = .idle) :
      QueueMoves s (.push t q data) (s.setThread t (.look q data))
  | empty {t q : Nat} : QueueMoves s (.pop t q false) s
  | unlink {t q item : Nat} {wait : Bool} (here : s.threads t = .idle)
      (head : (s.queues q).head = some item) :
      QueueMoves s (.pop t q wait) (rpcQueuePopUnlink s t q item)
  | malloc {t q data block : Nat} (here : s.threads t = .alloc q data) (fresh : s.Fresh block) :
      QueueMoves s (.malloc t block) (rpcQueueItemNewBlock s t q data block)
  | look {t q data : Nat} (here : s.threads t = .look q data) :
      QueueMoves s (.go t) (rpcQueueItemNewLook s t q data)
  | take {t q data : Nat} (here : s.threads t = .take q data) :
      QueueMoves s (.go t) (rpcQueueItemNewTake s t q data)
  | splice {t q data block : Nat} (here : s.threads t = .splice q data block) :
      QueueMoves s (.go t) (rpcQueueItemNewSplice s t q data block)
  | fill {t q data item : Nat} (here : s.threads t = .fill q data item) :
      QueueMoves s (.go t) (rpcQueuePushFill s t q data item)
  | link {t q data item : Nat} (here : s.threads t = .link q data item) :
      QueueMoves s (.go t) (rpcQueuePushLink s t q data item)
  | giveBack {t q k item : Nat} (here : s.threads t = .giveBack q k item) :
      QueueMoves s (.go t) (rpcQueueItemFree s t q k item)
  | read {t q k item : Nat} (here : s.threads t = .read q k item) :
      QueueMoves s (.go t) (rpcQueuePopRead s t q k item)

theorem queueStep_moves {s s' : QueueState} {a : QueueAction} (step : queueStep s a = some s') :
    QueueMoves s a s' := by
  cases a with
  | push t q data =>
      simp only [queueStep] at step
      split at step
      · rename_i here
        cases step
        exact .push here
      · cases step
  | pop t q wait =>
      simp only [queueStep] at step
      split at step
      · rename_i item here head
        cases step
        exact .unlink here head
      · cases wait with
        | true => cases step
        | false =>
            cases step
            exact .empty
      · cases step
  | malloc t block =>
      simp only [queueStep] at step
      split at step
      · rename_i q data here
        split at step
        · rename_i fresh
          cases step
          exact .malloc here fresh
        · cases step
      · cases step
  | go t =>
      simp only [queueStep] at step
      split at step <;> cases step
      · rename_i here
        exact .look here
      · rename_i here
        exact .take here
      · rename_i here
        exact .splice here
      · rename_i here
        exact .fill here
      · rename_i here
        exact .link here
      · rename_i here
        exact .giveBack here
      · rename_i here
        exact .read here

end OpenRpc
