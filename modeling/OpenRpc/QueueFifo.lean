import OpenRpc.QueueCustody

/-! # The queues as FIFO lists

`rpc_queue` and `rpc_async_queue`, operations one after the other: every queue gives out the pointers
pushed on it in order, and every item that was ever allocated is linked in one queue or is on the free
list. Each operation is the run of a thread of which no other thread sees the middle.
-/

namespace OpenRpc

open LinkedList Transition

/-- The memory of the queues: a `QueueState` without threads. Pointers pushed are not NULL. -/
structure Queues where
  heap : Nat → Item
  blocks : List Nat
  freeItemList : Option Nat
  queues : Nat → RpcQueue

namespace Queues

/-- Nothing allocated yet; the memory still to be allocated holds anything. -/
def initial (heap : Nat → Item) : Queues := ⟨heap, [], none, fun _ => ⟨none, none⟩⟩

def next (s : Queues) (a : Nat) : Option Nat := (s.heap a).next

def data (s : Queues) (a : Nat) : Nat := (s.heap a).data

def Allocated (s : Queues) (a : Nat) : Prop := ∃ b ∈ s.blocks, b ≤ a ∧ a < b + freeItemLen

def Fresh (s : Queues) (block : Nat) : Prop :=
  ∀ b ∈ s.blocks, b + freeItemLen ≤ block ∨ block + freeItemLen ≤ b

instance (s : Queues) (block : Nat) : Decidable (s.Fresh block) :=
  inferInstanceAs (Decidable (∀ b ∈ s.blocks, _))

/-- A new block: all but its first item go to the free list. -/
def addBlock (s : Queues) (block : Nat) : Queues :=
  { s with heap := setNext (chainBlock s.heap block) (block + (freeItemLen - 1)) s.freeItemList
           blocks := block :: s.blocks
           freeItemList := some (block + 1) }

/-- `rpc_queue_item_new`; `block` is what `malloc` returns if it is called. -/
def rpcQueueItemNew (s : Queues) (block : Nat) : Nat × Queues :=
  match s.freeItemList with
  | some item => (item, { s with freeItemList := s.next item })
  | none => (block, s.addBlock block)

/-- `rpc_queue_item_free`. -/
def rpcQueueItemFree (s : Queues) (item : Nat) : Queues :=
  { s with heap := setNext s.heap item (match s.freeItemList with | some p => some p | none => none)
           freeItemList := some item }

def fill (s : Queues) (item data : Nat) : Queues :=
  { s with heap := Function.update s.heap item ⟨data, none⟩ }

/-- The part of `rpc_queue_push` under the lock. -/
def link (s : Queues) (q item : Nat) : Queues :=
  match (s.queues q).tail with
  | some last =>
      { s with heap := setNext s.heap last (some item)
               queues := Function.update s.queues q { s.queues q with tail := some item } }
  | none => { s with queues := Function.update s.queues q ⟨some item, some item⟩ }

/-- `rpc_queue_push`. -/
def rpcQueuePush (s : Queues) (q data block : Nat) : Queues :=
  let (item, s) := s.rpcQueueItemNew block
  (s.fill item data).link q item

/-- The pointers of a queue once its first item is unlinked. -/
def unlinked (s : Queues) (q item : Nat) : RpcQueue :=
  ⟨s.next item, match s.next item with | none => none | some _ => (s.queues q).tail⟩

/-- `rpc_queue_pop`: what it returns, and the memory after it. -/
def rpcQueuePop (s : Queues) (q : Nat) : Option Nat × Queues :=
  match (s.queues q).head with
  | some item =>
      let s := { s with queues := Function.update s.queues q (s.unlinked q item) }
      let s := s.rpcQueueItemFree item
      (some (s.data item), s)
  | none => (none, s)

/-- `rpc_async_queue_push`, which differs from `rpc_queue_push` in a signal to those who wait. -/
def rpcAsyncQueuePush (s : Queues) (q data block : Nat) : Queues := s.rpcQueuePush q data block

/-- `rpc_asyn_queue_pop_inner` without a time limit. Nothing: it waits, and nobody else runs. -/
def rpcAsynQueuePopInner (s : Queues) (q : Nat) (attempt : Bool) : Option (Option Nat × Queues) :=
  if attempt = false ∧ (s.queues q).head = none then none else some (s.rpcQueuePop q)

/-- `rpc_async_queue_pop`. -/
def rpcAsyncQueuePop (s : Queues) (q : Nat) : Option (Option Nat × Queues) :=
  s.rpcAsynQueuePopInner q false

/-- `rpc_async_queue_try_pop`. -/
def rpcAsyncQueueTryPop (s : Queues) (q : Nat) : Option (Option Nat × Queues) :=
  s.rpcAsynQueuePopInner q true

end Queues

/-- The operations of the two kinds of queue, with what `malloc` returns if they call it. -/
inductive QueueCall where
  | push (q data block : Nat)
  | pop (q : Nat)
  | asyncPush (q data block : Nat)
  | asyncPop (q : Nat)
  | asyncTryPop (q : Nat)
  deriving Repr, DecidableEq

/-- What a call returns, and the memory after it. Nothing: it waits, or the block is not memory that
    `malloc` can return. -/
def Queues.call (s : Queues) : QueueCall → Option (Option Nat × Queues)
  | .push q data block =>
      if s.freeItemList = none → s.Fresh block then some (none, s.rpcQueuePush q data block) else none
  | .pop q => some (s.rpcQueuePop q)
  | .asyncPush q data block =>
      if s.freeItemList = none → s.Fresh block then some (none, s.rpcAsyncQueuePush q data block)
      else none
  | .asyncPop q => s.rpcAsyncQueuePop q
  | .asyncTryPop q => s.rpcAsyncQueueTryPop q

/-- The answers to a list of calls, and the memory after them. -/
def Queues.calls : Queues → List QueueCall → Option (List (Option Nat) × Queues)
  | s, [] => some ([], s)
  | s, call :: rest =>
      (s.call call).bind fun (answer, s) => (s.calls rest).map fun (answers, s) => (answer :: answers, s)

/-- The memory of the queues when threads use them. -/
def QueueState.memory (s : QueueState) : Queues := ⟨s.heap, s.blocks, s.freeItemList, s.queues⟩

section Alone

variable {s : QueueState} {t q data : Nat}

theorem fill_link_alone {item : Nat} (here : s.threads t = .fill q data item) :
    ∃ s', exec queueStep s [.go t, .go t] = some s' ∧ s'.threads t = .idle ∧
      s'.memory = (s.memory.fill item data).link q item := by
  have fills : queueStep s (.go t) = some (rpcQueuePushFill s t q data item) := by
    simp only [queueStep, here]
  have links : queueStep (rpcQueuePushFill s t q data item) (.go t) =
      some (rpcQueuePushLink (rpcQueuePushFill s t q data item) t q data item) := by
    simp only [queueStep, rpcQueuePushFill, QueueState.setThread, Function.update_self]
  refine ⟨_, exec_cons.mpr ⟨_, fills, exec_cons.mpr ⟨_, links, rfl⟩⟩, ?_, ?_⟩
  · simp only [rpcQueuePushLink, QueueState.setThread]
    split <;> exact Function.update_self ..
  · cases tail : (s.queues q).tail <;>
      simp only [rpcQueuePushLink, rpcQueuePushFill, QueueState.setThread, QueueState.memory,
        Queues.fill, Queues.link, tail]

theorem push_alone {block : Nat} (idle : s.threads t = .idle)
    (fresh : s.freeItemList = none → s.Fresh block) :
    ∃ actions s', exec queueStep s actions = some s' ∧ s'.threads t = .idle ∧
      s'.memory = s.memory.rpcQueuePush q data block := by
  let s₁ := s.setThread t (.look q data)
  have pushes : queueStep s (.push t q data) = some s₁ := by
    simp only [queueStep, idle]
    rfl
  have looks : queueStep s₁ (.go t) = some (rpcQueueItemNewLook s₁ t q data) := by
    simp only [queueStep, s₁, QueueState.setThread, Function.update_self]
  cases first : s.freeItemList with
  | some item =>
      let s₂ := s₁.setThread t (.take q data)
      have looked : rpcQueueItemNewLook s₁ t q data = s₂ := by
        simp only [rpcQueueItemNewLook, s₁, QueueState.setThread, first, s₂]
      let s₃ : QueueState := { s₂.setThread t (.fill q data item) with freeItemList := s₂.next item }
      have takes : queueStep s₂ (.go t) = some s₃ := by
        simp only [queueStep, s₃, s₂, s₁, QueueState.setThread, Function.update_self,
          rpcQueueItemNewTake, first]
      have filling : s₃.threads t = .fill q data item := Function.update_self ..
      obtain ⟨s', rest, done, memory⟩ := fill_link_alone filling
      refine ⟨_, s', exec_cons.mpr ⟨s₁, pushes, exec_cons.mpr ⟨s₂, looked ▸ looks,
        exec_cons.mpr ⟨s₃, takes, rest⟩⟩⟩, done, ?_⟩
      have new : s.memory.rpcQueueItemNew block = (item, s₃.memory) := by
        simp only [Queues.rpcQueueItemNew, QueueState.memory, first]
        rfl
      rw [memory, Queues.rpcQueuePush, new]
  | none =>
      let s₂ := s₁.setThread t (.alloc q data)
      have looked : rpcQueueItemNewLook s₁ t q data = s₂ := by
        simp only [rpcQueueItemNewLook, s₁, QueueState.setThread, first, s₂]
      let s₃ := rpcQueueItemNewBlock s₂ t q data block
      have allocates : queueStep s₂ (.malloc t block) = some s₃ := by
        have free : s₂.Fresh block := fresh first
        simp only [queueStep, s₃, s₂, QueueState.setThread, Function.update_self]
        exact if_pos free
      let s₄ := rpcQueueItemNewSplice s₃ t q data block
      have splices : queueStep s₃ (.go t) = some s₄ := by
        simp only [queueStep, s₄, s₃, rpcQueueItemNewBlock, QueueState.setThread, Function.update_self]
      have filling : s₄.threads t = .fill q data block := Function.update_self ..
      obtain ⟨s', rest, done, memory⟩ := fill_link_alone filling
      refine ⟨_, s', exec_cons.mpr ⟨s₁, pushes, exec_cons.mpr ⟨s₂, looked ▸ looks,
        exec_cons.mpr ⟨s₃, allocates, exec_cons.mpr ⟨s₄, splices, rest⟩⟩⟩⟩, done, ?_⟩
      have none_free : s.memory.freeItemList = none := first
      have new : s.memory.rpcQueueItemNew block = (block, s₄.memory) := by
        simp only [Queues.rpcQueueItemNew, none_free]
        rfl
      rw [memory, Queues.rpcQueuePush, new]

theorem pop_alone {item : Nat} {wait : Bool} (idle : s.threads t = .idle)
    (head : (s.queues q).head = some item) :
    ∃ actions s', exec queueStep s (.pop t q wait :: actions) = some s' ∧ s'.threads t = .idle ∧
      (s.memory.rpcQueuePop q) = (some (s'.data item), s'.memory) := by
  let k := (s.ledger q).popped
  let s₁ := rpcQueuePopUnlink s t q item
  have unlinks : queueStep s (.pop t q wait) = some s₁ := by
    simp only [queueStep, idle, head]
    rfl
  let s₂ := rpcQueueItemFree s₁ t q k item
  have frees : queueStep s₁ (.go t) = some s₂ := by
    simp only [queueStep, s₁, rpcQueuePopUnlink, QueueState.setThread, Function.update_self]
    rfl
  let s₃ := rpcQueuePopRead s₂ t q k item
  have reads : queueStep s₂ (.go t) = some s₃ := by
    simp only [queueStep, s₂, rpcQueueItemFree, QueueState.setThread, Function.update_self]
    rfl
  refine ⟨[.go t, .go t], s₃, exec_cons.mpr ⟨s₁, unlinks, exec_cons.mpr ⟨s₂, frees,
    exec_cons.mpr ⟨s₃, reads, rfl⟩⟩⟩, Function.update_self .., ?_⟩
  simp only [Queues.rpcQueuePop, QueueState.memory, head]
  rfl

end Alone

/-- What the queues are for: a list of pointers each. -/
abbrev Fifos := Nat → List Nat

namespace Fifos

def push (f : Fifos) (q data : Nat) : Fifos := Function.update f q (f q ++ [data])

def pop (f : Fifos) (q : Nat) : Option Nat × Fifos := ((f q).head?, Function.update f q (f q).tail)

def call (f : Fifos) : QueueCall → Option Nat × Fifos
  | .push q data _ | .asyncPush q data _ => (none, f.push q data)
  | .pop q | .asyncPop q | .asyncTryPop q => f.pop q

def calls : Fifos → List QueueCall → List (Option Nat) × Fifos
  | f, [] => ([], f)
  | f, call :: rest =>
      let (answer, f) := f.call call
      let (answers, f) := Fifos.calls f rest
      (answer :: answers, f)

end Fifos

/-- Where an allocated item is; inside an operation one may be in its hand. -/
inductive QueuePlace where
  | free
  | queue (q : Nat)
  | hand
  deriving DecidableEq

/-- `place` says where each allocated item is; `free` and `linked` are the items of the free list and of
    the queues in order. -/
structure Queues.Holds (s : Queues) (place : Nat → Option QueuePlace) (free : List Nat)
    (linked : Nat → List Nat) : Prop where
  freeList : Chain s.next s.freeItemList free
  queues : ∀ q, Linked s.next (s.queues q).head (s.queues q).tail (linked q)
  of_free : ∀ a, a ∈ free ↔ place a = some .free
  of_queue : ∀ q a, a ∈ linked q ↔ place a = some (.queue q)
  allocated : ∀ a, s.Allocated a ↔ (place a).isSome

theorem holds_initial (heap : Nat → Item) :
    (Queues.initial heap).Holds (fun _ => none) [] (fun _ => []) where
  freeList := rfl
  queues := fun _ => ⟨rfl, rfl⟩
  of_free := by simp
  of_queue := by simp
  allocated := by simp [Queues.Allocated, Queues.initial]

section Steps

variable {s : Queues} {place : Nat → Option QueuePlace} {free : List Nat} {linked : Nat → List Nat}
  {item q block : Nat}

theorem place_apart {p p' : QueuePlace} (was : place item ≠ some p') (apart : p ≠ p') (a : Nat) :
    Function.update place item (some p) a = some p' ↔ place a = some p' := by
  rw [Function.update_apply]
  split
  · rename_i here
    rw [here]
    exact iff_of_false (by simpa using apart) was
  · exact Iff.rfl

theorem place_isSome {p p' : QueuePlace} (was : place item = some p') (a : Nat) :
    (Function.update place item (some p) a).isSome ↔ (place a).isSome := by
  rw [Function.update_apply]
  split
  · rename_i here
    simp [here, was]
  · exact Iff.rfl

theorem holds_write (holds : s.Holds place free linked) {heap' : Nat → Item}
    (same : ∀ a, place a ≠ some .hand → heap' a = s.heap a) :
    ({ s with heap := heap' } : Queues).Holds place free linked :=
  { holds with
    freeList := by
      apply chain_congr _ holds.freeList
      intro a member
      have freed := (holds.of_free a).mp member
      exact congrArg Item.next (same a (by simp [freed]))
    queues := by
      intro q
      apply linked_congr _ (holds.queues q)
      intro a member
      have queued := (holds.of_queue q a).mp member
      exact congrArg Item.next (same a (by simp [queued])) }

theorem holds_free (holds : s.Holds place free linked) (hand : place item = some .hand) :
    (s.rpcQueueItemFree item).Holds (Function.update place item (some .free)) (item :: free) linked where
  freeList := by
    apply chain_cons _ _ holds.freeList
    · apply (setNext_self ..).trans
      cases s.freeItemList with
      | none => rfl
      | some p => rfl
    · intro a member
      have freed := (holds.of_free a).mp member
      exact congrArg Item.next (setNext_other (by rintro rfl; simp [freed] at hand))
  queues := by
    intro v
    apply linked_congr _ (holds.queues v)
    intro a member
    have queued := (holds.of_queue v a).mp member
    exact congrArg Item.next (setNext_other (by rintro rfl; simp [queued] at hand))
  of_free := by
    intro a
    rw [List.mem_cons, Function.update_apply, holds.of_free]
    split <;> simp [*]
  of_queue := by
    intro v a
    rw [holds.of_queue, place_apart (by simp [hand]) (by simp)]
  allocated := by
    intro a
    rw [place_isSome hand]
    exact holds.allocated a

theorem holds_unlink (holds : s.Holds place free linked) (head : (s.queues q).head = some item) :
    ∃ rest, linked q = item :: rest ∧
      ({ s with queues := Function.update s.queues q (s.unlinked q item) } : Queues).Holds
        (Function.update place item (some .hand)) free (Function.update linked q rest) := by
  have queue := holds.queues q
  rw [head] at queue
  obtain ⟨rest, cells, popped⟩ := linked_pop queue
  have nodup := chain_nodup queue.chain
  rw [cells] at nodup
  have queued : place item = some (.queue q) := (holds.of_queue q item).mp (by rw [cells]; simp)
  refine ⟨rest, cells, ?_⟩
  exact {
    freeList := holds.freeList
    queues := by
      intro v
      by_cases this : v = q
      · subst this
        simp only [Function.update_self, Queues.unlinked]
        cases next : s.next item with
        | none =>
            rw [next] at popped
            exact popped
        | some p =>
            rw [next] at popped
            exact popped
      · simp only [Function.update_of_ne this]
        exact holds.queues v
    of_free := by
      intro a
      rw [holds.of_free, place_apart (by simp [queued]) (by simp)]
    of_queue := by
      intro v a
      by_cases this : v = q
      · subst this
        rw [Function.update_self, Function.update_apply]
        have before := holds.of_queue v a
        rw [cells, List.mem_cons] at before
        split
        · rename_i here
          subst here
          exact iff_of_false (List.nodup_cons.mp nodup).1 (by simp)
        · rename_i other
          rw [← before]
          simp [other]
      · rw [Function.update_of_ne this, holds.of_queue, place_apart (by simpa [queued] using Ne.symm this)
          (by simp)]
    allocated := by
      intro a
      rw [place_isSome queued]
      exact holds.allocated a }

theorem holds_link (holds : s.Holds place free linked) (hand : place item = some .hand)
    {heap' : Nat → Item} {queue' : RpcQueue}
    (here : Linked (fun a => (heap' a).next) queue'.head queue'.tail (linked q ++ [item]))
    (same : ∀ a, place a ≠ some (.queue q) → heap' a = s.heap a) :
    ({ s with heap := heap', queues := Function.update s.queues q queue' } : Queues).Holds
      (Function.update place item (some (.queue q))) free
      (Function.update linked q (linked q ++ [item])) where
  freeList := by
    apply chain_congr _ holds.freeList
    intro a member
    have freed := (holds.of_free a).mp member
    exact congrArg Item.next (same a (by simp [freed]))
  queues := by
    intro v
    by_cases this : v = q
    · subst this
      simp only [Function.update_self]
      exact here
    · simp only [Function.update_of_ne this]
      apply linked_congr _ (holds.queues v)
      intro a member
      have queued := (holds.of_queue v a).mp member
      exact congrArg Item.next (same a (by simpa [queued] using this))
  of_free := by
    intro a
    rw [holds.of_free, place_apart (by simp [hand]) (by simp)]
  of_queue := by
    intro v a
    by_cases this : v = q
    · subst this
      rw [Function.update_self, List.mem_append, List.mem_singleton, holds.of_queue,
        Function.update_apply]
      split <;> simp [*]
    · rw [Function.update_of_ne this, holds.of_queue, place_apart (by simp [hand])
        (by simpa using Ne.symm this)]
  allocated := by
    intro a
    rw [place_isSome hand]
    exact holds.allocated a

theorem holds_take (holds : s.Holds place free linked) (first : s.freeItemList = some item) :
    ∃ rest, ({ s with freeItemList := s.next item } : Queues).Holds
      (Function.update place item (some .hand)) rest linked ∧ place item = some .free := by
  have chain := holds.freeList
  have nodup := chain_nodup chain
  cases free with
  | nil => cases first.symm.trans chain
  | cons a rest =>
      cases first.symm.trans chain.1
      have freed : place item = some .free := (holds.of_free item).mp List.mem_cons_self
      refine ⟨rest, ?_, freed⟩
      exact {
        freeList := chain.2
        queues := holds.queues
        of_free := by
          intro a
          have before := holds.of_free a
          rw [List.mem_cons] at before
          rw [Function.update_apply]
          split
          · rename_i here
            subst here
            exact iff_of_false (List.nodup_cons.mp nodup).1 (by simp)
          · rename_i other
            rw [← before]
            simp [other]
        of_queue := by
          intro v a
          rw [holds.of_queue, place_apart (by simp [freed]) (by simp)]
        allocated := by
          intro a
          rw [place_isSome freed]
          exact holds.allocated a }

/-- The items of a new block: the first is in the hand of the push, the others are free. -/
def blockPlace (place : Nat → Option QueuePlace) (block a : Nat) : Option QueuePlace :=
  if a = block then some .hand
  else if block < a ∧ a < block + freeItemLen then some .free else place a

theorem blockPlace_outside {a : Nat} (outside : ¬(block ≤ a ∧ a < block + freeItemLen)) :
    blockPlace place block a = place a := by
  unfold freeItemLen at outside
  rw [blockPlace, if_neg (by omega), if_neg (by simp only [freeItemLen]; omega)]

theorem blockPlace_inside {a : Nat} (above : block ≤ a) (below : a < block + freeItemLen) :
    blockPlace place block a = some (if a = block then .hand else .free) := by
  rw [blockPlace]
  split
  · rfl
  · exact if_pos (by omega)

theorem holds_block (holds : s.Holds place free linked) (empty : s.freeItemList = none)
    (fresh : s.Fresh block) :
    (s.addBlock block).Holds (blockPlace place block)
      (List.range' (block + 1) (freeItemLen - 2 + 1)) linked := by
  -- whatever has a place lies outside the block
  have outside : ∀ a, (place a).isSome → ¬(block ≤ a ∧ a < block + freeItemLen) := by
    intro a placed inside
    obtain ⟨b, member, above, below⟩ := (holds.allocated a).mpr placed
    cases fresh b member with
    | inl before => omega
    | inr after => omega
  have none_free : free = [] := chain_unique holds.freeList empty
  exact {
    freeList := by
      have chained : Chain (s.addBlock block).next (some (block + 1))
          (List.range' (block + 1) (freeItemLen - 2 + 1) ++ []) := by
        apply chain_block
        · intro a above below
          have other : a ≠ block + (freeItemLen - 1) := by simp only [freeItemLen] at *; omega
          apply (congrArg Item.next (setNext_other other)).trans
          rw [chainBlock_cell, if_pos (by simp only [freeItemLen] at *; omega)]
        · exact setNext_self ..
        · exact empty
      rwa [List.append_nil] at chained
    queues := by
      intro q
      apply linked_congr _ (holds.queues q)
      intro a member
      have queued := (holds.of_queue q a).mp member
      have beyond := outside a (by simp [queued])
      unfold freeItemLen at beyond
      have written : (s.addBlock block).heap a = s.heap a := by
        apply (setNext_other (by simp only [freeItemLen]; omega)).trans
        rw [chainBlock_cell, if_neg (by simp only [freeItemLen]; omega)]
      exact congrArg Item.next written
    of_free := by
      intro a
      have before := holds.of_free a
      rw [none_free] at before
      rw [List.mem_range'_1]
      by_cases inside : block ≤ a ∧ a < block + freeItemLen
      · rw [blockPlace_inside inside.1 inside.2]
        simp only [freeItemLen] at *
        split <;> simp only [Option.some.injEq, reduceCtorEq, iff_false, iff_true] <;> omega
      · rw [blockPlace_outside inside, ← before]
        simp only [freeItemLen, List.not_mem_nil, iff_false] at *
        omega
    of_queue := by
      intro q a
      rw [holds.of_queue]
      by_cases inside : block ≤ a ∧ a < block + freeItemLen
      · rw [blockPlace_inside inside.1 inside.2]
        apply iff_of_false
        · intro queued
          exact outside a (by simp [queued]) inside
        · split <;> simp
      · rw [blockPlace_outside inside]
    allocated := by
      intro a
      have before := holds.allocated a
      simp only [Queues.Allocated, Queues.addBlock, List.mem_cons, exists_eq_or_imp] at *
      rw [before]
      by_cases inside : block ≤ a ∧ a < block + freeItemLen
      · rw [blockPlace_inside inside.1 inside.2]
        exact iff_of_true (.inl inside) rfl
      · rw [or_iff_right inside, blockPlace_outside inside] }

theorem holds_new (holds : s.Holds place free linked)
    (fresh : s.freeItemList = none → s.Fresh block) :
    ∃ item s', s.rpcQueueItemNew block = (item, s') ∧ s'.queues = s.queues ∧
      (∀ a, s'.data a = s.data a) ∧ ∃ place' free', s'.Holds place' free' linked ∧
        place' item = some .hand ∧ ∀ a, place' a = some .hand → a = item ∨ place a = some .hand := by
  cases empty : s.freeItemList with
  | some item =>
      obtain ⟨rest, taken, -⟩ := holds_take holds empty
      refine ⟨item, { s with freeItemList := s.next item }, ?_, rfl, fun _ => rfl, _, rest, taken,
        Function.update_self .., fun a hand => ?_⟩
      · simp only [Queues.rpcQueueItemNew, empty]
      rw [Function.update_apply] at hand
      split at hand
      · exact .inl ‹a = item›
      · exact .inr hand
  | none =>
      have taken := holds_block holds empty (fresh empty)
      refine ⟨block, s.addBlock block, by simp only [Queues.rpcQueueItemNew, empty], rfl, fun a => ?_,
        _, _, taken, if_pos rfl, fun a hand => ?_⟩
      · apply (setNext_data ..).trans
        rw [chainBlock_cell]
        split <;> rfl
      · rw [blockPlace] at hand
        split at hand
        · exact .inl ‹a = block›
        · split at hand
          · cases hand
          · exact .inr hand

end Steps

/-- The memory stands for the lists, and no item is in a hand. -/
structure Queues.Stores (s : Queues) (f : Fifos) (place : Nat → Option QueuePlace) (free : List Nat)
    (linked : Nat → List Nat) : Prop extends s.Holds place free linked where
  content : ∀ q, (linked q).map s.data = f q
  settled : ∀ a, place a ≠ some .hand

section Operations

variable {s : Queues} {f : Fifos} {place : Nat → Option QueuePlace} {free : List Nat}
  {linked : Nat → List Nat} {q data block item : Nat}

theorem stores_link (holds : s.Holds place free linked) (content : ∀ v, (linked v).map s.data = f v)
    (hand : place item = some .hand) (alone : ∀ a, place a = some .hand → a = item)
    (heap' : Nat → Item) (queue' : RpcQueue)
    (here : Linked (fun a => (heap' a).next) queue'.head queue'.tail (linked q ++ [item]))
    (same : ∀ a, place a ≠ some (.queue q) → heap' a = s.heap a)
    (kept : ∀ a, (heap' a).data = s.data a) :
    ({ s with heap := heap', queues := Function.update s.queues q queue' } : Queues).Stores
      (f.push q (s.data item)) (Function.update place item (some (.queue q))) free
      (Function.update linked q (linked q ++ [item])) := by
  refine ⟨holds_link holds hand here same, fun v => ?_, fun a => ?_⟩
  · apply (List.map_congr_left fun a _ => kept a).trans
    by_cases this : v = q
    · subst this
      simp only [Function.update_self, Fifos.push, List.map_append, List.map_singleton, content]
    · simp only [Function.update_of_ne this, Fifos.push, content]
  · rw [Function.update_apply]
    split
    · simp
    · rename_i other
      exact fun held => other (alone a held)

theorem stores_push (stores : s.Stores f place free linked)
    (fresh : s.freeItemList = none → s.Fresh block) :
    ∃ place' free' linked',
      (s.rpcQueuePush q data block).Stores (f.push q data) place' free' linked' := by
  obtain ⟨item, s₁, new, queues₁, data₁, place₁, free₁, holds₁, hand, alone⟩ :=
    holds_new stores.toHolds fresh
  have only : ∀ a, place₁ a = some .hand → a = item :=
    fun a held => (alone a held).resolve_right (stores.settled a)
  let s₂ : Queues := s₁.fill item data
  have others : ∀ a, place₁ a ≠ some .hand → s₂.heap a = s₁.heap a := by
    intro a settled
    exact Function.update_of_ne (by rintro rfl; exact settled hand) ..
  have holds₂ : s₂.Holds place₁ free₁ linked := holds_write holds₁ others
  have filled : s₂.heap item = ⟨data, none⟩ := Function.update_self ..
  have stop : s₂.next item = none := congrArg Item.next filled
  have mine : s₂.data item = data := congrArg Item.data filled
  have content : ∀ v, (linked v).map s₂.data = f v := by
    intro v
    rw [← stores.content v]
    apply List.map_congr_left
    intro a member
    have queued := (holds₁.of_queue v a).mp member
    exact (congrArg Item.data (others a (by simp [queued]))).trans (data₁ a)
  have queue := holds₂.queues q
  have pushed : s.rpcQueuePush q data block = s₂.link q item := by
    simp only [Queues.rpcQueuePush, new, s₂]
  rw [pushed, Queues.link, ← mine]
  cases tail : (s₂.queues q).tail with
  | none =>
      rw [tail] at queue
      obtain ⟨empty, single⟩ : linked q = [] ∧ Linked s₂.next (some item) (some item) [item] :=
        linked_first stop queue
      refine ⟨_, _, _, stores_link holds₂ content hand only s₂.heap ⟨some item, some item⟩ ?_
        (fun _ _ => rfl) fun _ => rfl⟩
      rw [empty]
      exact single
  | some last =>
      rw [tail] at queue
      have queued : place₁ last = some (.queue q) :=
        (holds₂.of_queue q last).mp (List.mem_of_getLast? queue.last.symm)
      have apart : item ≠ last := by
        rintro rfl
        simp [queued] at hand
      refine ⟨_, _, _, stores_link holds₂ content hand only (setNext s₂.heap last (some item))
        ⟨(s₂.queues q).head, some item⟩ ?_ (fun a other => ?_) fun a => setNext_data ..⟩
      · apply linked_append (setNext_self ..) _ _ queue
        · exact (congrArg Item.next (setNext_other apart)).trans stop
        · exact fun a _ other => congrArg Item.next (setNext_other other)
      · exact setNext_other (by rintro rfl; exact other queued)

theorem stores_pop (stores : s.Stores f place free linked) :
    (s.rpcQueuePop q).1 = (f.pop q).1 ∧ ∃ place' free' linked',
      (s.rpcQueuePop q).2.Stores (f.pop q).2 place' free' linked' := by
  have content := stores.content q
  cases head : (s.queues q).head with
  | none =>
      have empty : linked q = [] := by
        have chain := (stores.queues q).chain
        rw [head] at chain
        exact chain_unique chain rfl
      rw [empty, List.map_nil] at content
      simp only [Queues.rpcQueuePop, head, Fifos.pop, ← content, List.head?_nil, List.tail_nil, true_and]
      refine ⟨place, free, linked, stores.toHolds, fun v => ?_, stores.settled⟩
      by_cases this : v = q
      · subst this
        rw [Function.update_self, empty]
        rfl
      · rw [Function.update_of_ne this]
        exact stores.content v
  | some item =>
      obtain ⟨rest, cells, unlinked⟩ := holds_unlink stores.toHolds head
      have freed := holds_free unlinked (Function.update_self ..)
      rw [cells, List.map_cons] at content
      have same : ∀ p a, (setNext s.heap item p a).data = s.data a := fun p a => setNext_data ..
      simp only [Queues.rpcQueuePop, head, Fifos.pop, ← content, List.head?_cons, List.tail_cons]
      refine ⟨congrArg some (same _ item), _, _, _, freed, fun v => ?_, fun a => ?_⟩
      · apply (List.map_congr_left fun a _ => same _ a).trans
        by_cases this : v = q
        · subst this
          rw [Function.update_self, Function.update_self]
        · rw [Function.update_of_ne this, Function.update_of_ne this]
          exact stores.content v
      · rw [Function.update_apply, Function.update_apply]
        split
        · simp
        · exact stores.settled a

theorem stores_call {call : QueueCall} {answer : Option Nat} {s' : Queues}
    (stores : s.Stores f place free linked) (ran : s.call call = some (answer, s')) :
    answer = (f.call call).1 ∧ ∃ place' free' linked',
      s'.Stores (f.call call).2 place' free' linked' := by
  have pushes : ∀ q data block, (if s.freeItemList = none → s.Fresh block then
      some (none, s.rpcQueuePush q data block) else none) = some (answer, s') →
        answer = none ∧ ∃ place' free' linked', s'.Stores (f.push q data) place' free' linked' := by
    intro q data block pushed
    split at pushed
    · cases pushed
      exact ⟨rfl, stores_push stores ‹_›⟩
    · cases pushed
  have popped : ∀ q, s.rpcQueuePop q = (answer, s') →
      answer = (f.pop q).1 ∧ ∃ place' free' linked', s'.Stores (f.pop q).2 place' free' linked' := by
    intro q same
    have result := stores_pop (q := q) stores
    rwa [same] at result
  have pops : ∀ q attempt, s.rpcAsynQueuePopInner q attempt = some (answer, s') →
      answer = (f.pop q).1 ∧ ∃ place' free' linked', s'.Stores (f.pop q).2 place' free' linked' := by
    intro q attempt tried
    unfold Queues.rpcAsynQueuePopInner at tried
    split at tried
    · cases tried
    · exact popped q (Option.some.inj tried)
  cases call with
  | push q data block => exact pushes q data block ran
  | asyncPush q data block => exact pushes q data block ran
  | pop q => exact popped q (Option.some.inj ran)
  | asyncPop q => exact pops q false ran
  | asyncTryPop q => exact pops q true ran

end Operations

/-- The queues are FIFO lists: each answers its own pointers in the order of their pushes, and NULL when
    it is empty; its items hang between head and tail; and every item allocated is in one queue or on the
    free list. -/
theorem rpcQueue_fifo {heap : Nat → Item} {calls : List QueueCall} {answers : List (Option Nat)}
    {s : Queues} (ran : (Queues.initial heap).calls calls = some (answers, s)) :
    answers = (Fifos.calls (fun _ => []) calls).1 ∧ ∃ place free linked,
      s.Stores (Fifos.calls (fun _ => []) calls).2 place free linked ∧ free.Nodup ∧
      ∀ q, (linked q).Nodup ∧ ((s.queues q).head = none ↔ (s.queues q).tail = none) := by
  have runs : ∀ calls answers (s s' : Queues) f place free linked, s.Stores f place free linked →
      s.calls calls = some (answers, s') → answers = (f.calls calls).1 ∧
        ∃ place' free' linked', s'.Stores (f.calls calls).2 place' free' linked' := by
    intro calls
    induction calls with
    | nil =>
        intro answers s s' f place free linked stores ran
        cases ran
        exact ⟨rfl, place, free, linked, stores⟩
    | cons call rest ih =>
        intro answers s s' f place free linked stores ran
        obtain ⟨⟨answer, s₁⟩, first, later⟩ := Option.bind_eq_some_iff.mp ran
        obtain ⟨⟨others, s₂⟩, ran', same⟩ := Option.map_eq_some_iff.mp later
        cases same
        obtain ⟨rfl, place₁, free₁, linked₁, stores₁⟩ := stores_call stores first
        obtain ⟨rfl, stores₂⟩ := ih others s₁ s' _ _ _ _ stores₁ ran'
        exact ⟨rfl, stores₂⟩
  have start : (Queues.initial heap).Stores (fun _ => []) (fun _ => none) [] (fun _ => []) :=
    ⟨holds_initial heap, fun _ => rfl, by simp⟩
  obtain ⟨same, place, free, linked, stores⟩ := runs calls answers _ s _ _ _ _ start ran
  refine ⟨same, place, free, linked, stores, chain_nodup stores.freeList, fun q => ?_⟩
  have queue := stores.queues q
  exact ⟨chain_nodup queue.chain, linked_empty queue⟩

/-- Two pushes, and pops until both queues are empty. -/
theorem rpcQueue_fifo_small : ∃ answers s, (Queues.initial fun _ => ⟨0, none⟩).calls
      [.push 0 7 100, .asyncPush 1 8 200, .pop 0, .asyncTryPop 0, .asyncPop 1] = some (answers, s) ∧
    answers = [none, none, some 7, none, some 8] ∧
    ∃ place free linked, s.Stores (fun _ => []) place free linked ∧ free.Nodup := by
  obtain ⟨answers, s, ran, answered⟩ : ∃ answers s, (Queues.initial fun _ => ⟨0, none⟩).calls
      [.push 0 7 100, .asyncPush 1 8 200, .pop 0, .asyncTryPop 0, .asyncPop 1] = some (answers, s) ∧
    answers = [none, none, some 7, none, some 8] := ⟨_, _, rfl, rfl⟩
  refine ⟨answers, s, ran, answered, ?_⟩
  obtain ⟨-, place, free, linked, stores, once, -⟩ := rpcQueue_fifo ran
  have emptied : (Fifos.calls (fun _ => [])
      [.push 0 7 100, .asyncPush 1 8 200, .pop 0, .asyncTryPop 0, .asyncPop 1]).2 = fun _ => [] := by
    funext q
    simp only [Fifos.calls, Fifos.call, Fifos.push, Fifos.pop, Function.update_apply]
    grind
  rw [emptied] at stores
  exact ⟨place, free, linked, stores, once⟩

end OpenRpc
