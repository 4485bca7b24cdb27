import OpenRpc.Notify
import OpenRpc.Lib.RoundRobin

/-! # The start-up of a server

`rpc_server_start` sets up the workers, starts a thread for each of them, waits until all of them have
counted themselves in `init_count`, and only then binds its port and starts the dispatch thread. What
`pthread_create` answers is not looked at, for the workers as for the dispatch thread. A
`thread_worker_handler` locks the mutex of the server itself, not a copy of it as the threads of a
client do. What the dispatch thread and the workers do from then on is the hand-over of connections.
-/

namespace OpenRpc

open Transition RoundRobin

/-- Where `rpc_server_start` is: in its first loop, at the `i`-th round of its second one, around the
    wait (`asleep` in `pthread_cond_wait`, `woken` in it before it has the mutex again), before
    `rpc_dispatch_init`, before `rpc_dispatch_start`. -/
inductive StartAt where
  | initing
  | starting (i : Nat)
  | lock
  | test
  | wait
  | asleep
  | woken
  | unlock
  | dispatchInit
  | dispatchStart
  | returned (started : Bool)
  deriving Repr, DecidableEq

/-- Where a worker is: set up and without a thread, without one for good, or in
    `thread_worker_handler` before the lock, around the two halves of `init_count++`, before the signal,
    before the unlock, in its event loop. -/
inductive WorkerAt where
  | ready
  | absent
  | lock
  | read
  | write (v : Nat)
  | signal
  | unlock
  | looping
  deriving Repr, DecidableEq

/-- Where `rpc_worker_start` leaves a worker: `pthread_create` has created its thread or not. -/
def WorkerAt.started (created : Bool) : WorkerAt := if created then .lock else .absent

inductive Holder where
  | start
  | worker (i : Nat)
  deriving Repr, DecidableEq

/-- A server from the call of `rpc_server_start` on; `dispatching` says that the dispatch thread
    runs, and `dispatch` is what it and the workers share. -/
structure ServerRun where
  workerLen : Nat
  mutex : Option Holder
  initCount : Nat
  start : StartAt
  workers : List WorkerAt
  dispatching : Bool
  dispatch : Dispatch

/-- The server as `rpc_server_create` makes it. -/
def ServerRun.initial (workerLen : Nat) : ServerRun :=
  ⟨workerLen, none, 0, .initing, [], false, .initial workerLen⟩

inductive StartAction where
  | start
  /-- `rpc_worker_start`, and whether `pthread_create` creates the thread. -/
  | workerStart (created : Bool)
  /-- `rpc_dispatch_start`, likewise. -/
  | dispatchStart (created : Bool)
  /-- `rpc_dispatch_init`, with what `bind` and `listen` answer. -/
  | dispatchInit (bound listening : Bool)
  /-- `pthread_cond_wait` may return without a signal. -/
  | wake
  | worker (i : Nat)
  | notify (a : NotifyAction)
  deriving Repr, DecidableEq

def ServerRun.put (s : ServerRun) (i : Nat) (w : WorkerAt) : ServerRun :=
  { s with workers := s.workers.set i w }

/-- The next step of `rpc_server_start`, unless it is a call of one of the three functions below. -/
def rpcServerStart (s : ServerRun) : Option ServerRun :=
  match s.start with
  | .initing =>
      if s.workers.length < s.workerLen then some { s with workers := s.workers ++ [.ready] }
      else some { s with start := .starting 0 }
  | .starting i => if i < s.workerLen then none else some { s with start := .lock }
  | .lock | .woken =>
      if s.mutex = none then some { s with mutex := some .start, start := .test } else none
  | .test => some { s with start := if s.initCount < s.workerLen then .wait else .unlock }
  | .wait => some { s with mutex := none, start := .asleep }
  | .unlock => some { s with mutex := none, start := .dispatchInit }
  | .asleep | .dispatchInit | .dispatchStart | .returned _ => none

def rpcWorkerStart (s : ServerRun) (created : Bool) : Option ServerRun :=
  match s.start with
  | .starting i =>
      if i < s.workerLen then
        some { s.put i (.started created) with start := .starting (i + 1) }
      else none
  | _ => none

def rpcDispatchInit (s : ServerRun) (bound listening : Bool) : Option ServerRun :=
  match s.start with
  | .dispatchInit =>
      some { s with start := if bound && listening then .dispatchStart else .returned false }
  | _ => none

/-- `rpc_server_start` returns TRUE behind it, whatever it returns. -/
def rpcDispatchStart (s : ServerRun) (created : Bool) : Option ServerRun :=
  match s.start with
  | .dispatchStart => some { s with dispatching := created, start := .returned true }
  | _ => none

/-- `pthread_cond_signal` on the condition of the server: nobody else ever sleeps on it. -/
def ServerRun.signal (s : ServerRun) : ServerRun :=
  { s with start := if s.start = .asleep then .woken else s.start }

/-- The next step of the `i`-th `thread_worker_handler`. -/
def threadWorkerHandler (s : ServerRun) (i : Nat) : Option ServerRun :=
  match s.workers[i]? with
  | some .lock =>
      if s.mutex = none then some { s.put i .read with mutex := some (.worker i) } else none
  | some .read => some (s.put i (.write s.initCount))
  | some (.write v) => some { s.put i .signal with initCount := v + 1 }
  | some .signal => some (s.signal.put i .unlock)
  | some .unlock => some { s.put i .looping with mutex := none }
  | some .ready | some .absent | some .looping | none => none

/-- The thread that takes the step is in its event loop. -/
def ServerRun.Serves (s : ServerRun) : NotifyAction → Prop
  | .push _ | .write => s.dispatching = true
  | .read w | .pop w => s.workers[w]? = some .looping

instance (s : ServerRun) (a : NotifyAction) : Decidable (s.Serves a) :=
  match a with
  | .push _ | .write => inferInstanceAs (Decidable (_ = _))
  | .read _ | .pop _ => inferInstanceAs (Decidable (_ = _))

def startStep : Step ServerRun StartAction
  | s, .start => rpcServerStart s
  | s, .workerStart created => rpcWorkerStart s created
  | s, .dispatchStart created => rpcDispatchStart s created
  | s, .dispatchInit bound listening => rpcDispatchInit s bound listening
  | s, .wake => if s.start = .asleep then some { s with start := .woken } else none
  | s, .worker i => threadWorkerHandler s i
  | s, .notify a =>
      if s.Serves a then (notifyStep s.dispatch a).map fun dispatch => { s with dispatch := dispatch }
      else none

/-- All that a step can do. -/
inductive ServerMoves (s : ServerRun) : StartAction → ServerRun → Prop
  | init (here : s.start = .initing) (more : s.workers.length < s.workerLen) :
      ServerMoves s .start { s with workers := s.workers ++ [.ready] }
  | inited (here : s.start = .initing) (all : ¬s.workers.length < s.workerLen) :
      ServerMoves s .start { s with start := .starting 0 }
  | create {i : Nat} {created : Bool} (here : s.start = .starting i) (more : i < s.workerLen) :
      ServerMoves s (.workerStart created)
        { s.put i (.started created) with start := .starting (i + 1) }
  | created {i : Nat} (here : s.start = .starting i) (all : ¬i < s.workerLen) :
      ServerMoves s .start { s with start := .lock }
  | lock (here : s.start = .lock ∨ s.start = .woken) (free : s.mutex = none) :
      ServerMoves s .start { s with mutex := some .start, start := .test }
  | below (here : s.start = .test) (less : s.initCount < s.workerLen) :
      ServerMoves s .start { s with start := .wait }
  | reached (here : s.start = .test) (enough : ¬s.initCount < s.workerLen) :
      ServerMoves s .start { s with start := .unlock }
  | sleep (here : s.start = .wait) :
      ServerMoves s .start { s with mutex := none, start := .asleep }
  | unlock (here : s.start = .unlock) :
      ServerMoves s .start { s with mutex := none, start := .dispatchInit }
  | bound (here : s.start = .dispatchInit) :
      ServerMoves s (.dispatchInit true true) { s with start := .dispatchStart }
  | refused {bound listening : Bool} (here : s.start = .dispatchInit)
      (failed : (bound && listening) = false) :
      ServerMoves s (.dispatchInit bound listening) { s with start := .returned false }
  | dispatch {created : Bool} (here : s.start = .dispatchStart) :
      ServerMoves s (.dispatchStart created)
        { s with dispatching := created, start := .returned true }
  | wake (here : s.start = .asleep) : ServerMoves s .wake { s with start := .woken }
  | enter {i : Nat} (here : s.workers[i]? = some .lock) (free : s.mutex = none) :
      ServerMoves s (.worker i) { s.put i .read with mutex := some (.worker i) }
  | read {i : Nat} (here : s.workers[i]? = some .read) :
      ServerMoves s (.worker i) (s.put i (.write s.initCount))
  | write {i v : Nat} (here : s.workers[i]? = some (.write v)) :
      ServerMoves s (.worker i) { s.put i .signal with initCount := v + 1 }
  | signal {i : Nat} (here : s.workers[i]? = some .signal) :
      ServerMoves s (.worker i) (s.signal.put i .unlock)
  | leave {i : Nat} (here : s.workers[i]? = some .unlock) :
      ServerMoves s (.worker i) { s.put i .looping with mutex := none }
  | notify {a : NotifyAction} {dispatch : Dispatch} (serves : s.Serves a)
      (step : notifyStep s.dispatch a = some dispatch) :
      ServerMoves s (.notify a) { s with dispatch := dispatch }

theorem rpcServerStart_moves {s s' : ServerRun} (step : rpcServerStart s = some s') :
    ServerMoves s .start s' := by
  unfold rpcServerStart at step
  split at step
  · rename_i here
    split at step
    · rename_i more
      cases step
      exact .init here more
    · rename_i all
      cases step
      exact .inited here all
  · rename_i i here
    split at step
    · cases step
    · rename_i all
      cases step
      exact .created here all
  · rename_i here
    split at step
    · rename_i free
      cases step
      exact .lock (.inl here) free
    · cases step
  · rename_i here
    split at step
    · rename_i free
      cases step
      exact .lock (.inr here) free
    · cases step
  · rename_i here
    split at step
    · rename_i less
      cases step
      exact .below here less
    · rename_i enough
      cases step
      exact .reached here enough
  · rename_i here
    cases step
    exact .sleep here
  · rename_i here
    cases step
    exact .unlock here
  all_goals cases step

theorem threadWorkerHandler_moves {s s' : ServerRun} {i : Nat}
    (step : threadWorkerHandler s i = some s') : ServerMoves s (.worker i) s' := by
  unfold threadWorkerHandler at step
  split at step
  · rename_i here
    split at step
    · rename_i free
      cases step
      exact .enter here free
    · cases step
  · rename_i here
    cases step
    exact .read here
  · rename_i v here
    cases step
    exact .write here
  · rename_i here
    cases step
    exact .signal here
  · rename_i here
    cases step
    exact .leave here
  all_goals cases step

theorem startStep_moves {s s' : ServerRun} {a : StartAction} (step : startStep s a = some s') :
    ServerMoves s a s' := by
  cases a with
  | start => exact rpcServerStart_moves step
  | workerStart created =>
      simp only [startStep, rpcWorkerStart] at step
      split at step
      · rename_i here
        split at step
        · rename_i more
          cases step
          exact .create here more
        · cases step
      · cases step
  | dispatchStart created =>
      simp only [startStep, rpcDispatchStart] at step
      split at step
      · rename_i here
        cases step
        exact .dispatch here
      · cases step
  | dispatchInit bound listening =>
      simp only [startStep, rpcDispatchInit] at step
      split at step
      · rename_i here
        cases step
        cases failed : bound && listening with
        | false => exact .refused here failed
        | true =>
            obtain ⟨rfl, rfl⟩ := Bool.and_eq_true_iff.mp failed
            exact .bound here
      · cases step
  | wake =>
      simp only [startStep] at step
      split at step
      · rename_i here
        cases step
        exact .wake here
      · cases step
  | worker i => exact threadWorkerHandler_moves step
  | notify a =>
      simp only [startStep] at step
      split at step
      · rename_i serves
        obtain ⟨dispatch, taken, rfl⟩ := Option.map_eq_some_iff.mp step
        exact .notify serves taken
      · cases step

/-- The worker has counted itself. -/
def WorkerAt.counted : WorkerAt → Bool
  | .signal | .unlock | .looping => true
  | .ready | .absent | .lock | .read | .write _ => false

/-- The worker is between its lock and its unlock. -/
def WorkerAt.inside : WorkerAt → Bool
  | .read | .write _ | .signal | .unlock => true
  | .ready | .absent | .lock | .looping => false

@[simp] theorem WorkerAt.started_counted (created : Bool) :
    (WorkerAt.started created).counted = false := by
  cases created <;> rfl

@[simp] theorem WorkerAt.started_inside (created : Bool) :
    (WorkerAt.started created).inside = false := by
  cases created <;> rfl

theorem WorkerAt.started_eq (created : Bool) :
    WorkerAt.started created = .lock ∨ WorkerAt.started created = .absent := by
  cases created
  · exact .inr rfl
  · exact .inl rfl

def StartAt.inside : StartAt → Bool
  | .test | .wait | .unlock => true
  | _ => false

/-- The `j`-th worker, if it is set up, has no thread yet. -/
def StartAt.Before : StartAt → Nat → Prop
  | .initing, _ => True
  | .starting i, j => i ≤ j
  | _, _ => False

/-- `rpc_server_start` has left its waiting loop. -/
def StartAt.Counted : StartAt → Prop
  | .unlock | .dispatchInit | .dispatchStart | .returned _ => True
  | _ => False

namespace ServerRun

/-- How many workers have counted themselves. -/
def counted (s : ServerRun) : Nat := s.workers.countP WorkerAt.counted

/-- The mutex is held by whoever is between its lock and its unlock. -/
structure Exclusive (s : ServerRun) : Prop where
  start : s.mutex = some .start ↔ s.start.inside = true
  worker : ∀ i w, s.workers[i]? = some w → w.inside = true → s.mutex = some (.worker i)
  holder : ∀ i, s.mutex = some (.worker i) → ∃ w, s.workers[i]? = some w ∧ w.inside = true

structure Created (s : ServerRun) : Prop where
  length : s.workers.length = s.workerLen ∨ s.start = .initing ∧ s.workers.length < s.workerLen
  ready : ∀ j w, s.workers[j]? = some w → (w = .ready ↔ s.start.Before j)

/-- No increment is lost, and a value read stays that of `init_count` until it is written back. -/
structure Exact (s : ServerRun) : Prop where
  count : s.initCount = s.counted
  pending : ∀ (i v : Nat), s.workers[i]? = some (.write v) → v = s.initCount

/-- Whoever sleeps is going to be woken, and nobody goes on too early. -/
structure Awaited (s : ServerRun) : Prop where
  asleep : s.start = .asleep → s.initCount < s.workerLen ∨ ∃ i : Nat, s.workers[i]? = some .signal
  wait : s.start = .wait → s.initCount < s.workerLen
  counted : s.start.Counted → s.workerLen ≤ s.initCount
  dispatching : s.dispatching = true → s.start = .returned true

end ServerRun

section Steps

variable {s s' : ServerRun} {a : StartAction} {i : Nat} {w x : WorkerAt}

theorem ServerRun.Created.next (created : s.Created) (here : s.start = .starting i)
    (more : i < s.workerLen) : s.workers[i]? = some .ready := by
  have inside : i < s.workers.length := by
    rcases created.length with whole | ⟨initing, -⟩
    · omega
    · cases here.symm.trans initing
  have cell := List.getElem?_eq_getElem inside
  rw [cell, (created.ready i _ cell).mpr (by rw [here]; exact Nat.le_refl i)]

theorem ServerRun.Created.all (created : s.Created) (behind : ∀ j, ¬s.start.Before j) :
    s.workers.length = s.workerLen ∧ ∀ w ∈ s.workers, w ≠ .ready := by
  constructor
  · rcases created.length with whole | ⟨initing, -⟩
    · exact whole
    · exact absurd (by rw [initing]; trivial) (behind 0)
  · intro w member fresh
    obtain ⟨j, cell⟩ := List.mem_iff_getElem?.mp member
    exact behind j ((created.ready j w cell).mp fresh)

theorem created_step (step : startStep s a = some s') (created : s.Created) : s'.Created := by
  obtain ⟨length, ready⟩ := created
  cases startStep_moves step with
  | init here more => constructor <;> grind [StartAt.Before]
  | create here more => constructor <;> grind [StartAt.Before, ServerRun.put, WorkerAt.started]
  | enter here | read here | write here | leave here =>
      constructor <;> grind [ServerRun.put]
  | signal here => constructor <;> grind [StartAt.Before, ServerRun.put, ServerRun.signal]
  | notify => exact ⟨length, ready⟩
  | inited here | created here | lock here | below here | reached here | sleep here | unlock here
  | bound here | refused here | dispatch here | wake here =>
      constructor <;> grind [StartAt.Before]

theorem ServerRun.Exclusive.moved {n : StartAt} (exclusive : s.Exclusive)
    (same : n.inside = s.start.inside) : ServerRun.Exclusive { s with start := n } where
  start := exclusive.start.trans (by rw [same])
  worker := exclusive.worker
  holder := exclusive.holder

theorem ServerRun.Exclusive.put (exclusive : s.Exclusive) (here : s.workers[i]? = some w)
    (same : x.inside = w.inside) : (s.put i x).Exclusive := by
  obtain ⟨start, worker, holder⟩ := exclusive
  refine ⟨start, fun j u cell inside => ?_, fun j holds => ?_⟩
  · grind [ServerRun.put]
  · grind [ServerRun.put]

theorem ServerRun.Exclusive.signal (exclusive : s.Exclusive) : s.signal.Exclusive := by
  apply exclusive.moved
  split
  · rename_i sleeping
    rw [sleeping]
    rfl
  · rfl

theorem ServerRun.Exclusive.outside (exclusive : s.Exclusive) (free : s.mutex = none) :
    s.start.inside = false ∧ ∀ (j : Nat) (u : WorkerAt), s.workers[j]? = some u → u.inside = false := by
  constructor
  · apply Bool.eq_false_iff.mpr
    intro inside
    cases free.symm.trans (exclusive.start.mpr inside)
  · intro j u cell
    apply Bool.eq_false_iff.mpr
    intro inside
    cases free.symm.trans (exclusive.worker j u cell inside)

theorem ServerRun.Exclusive.alone (exclusive : s.Exclusive) (inside : s.start.inside = true)
    (here : s.workers[i]? = some w) : w.inside = false := by
  apply Bool.eq_false_iff.mpr
  intro within
  cases (exclusive.start.mpr inside).symm.trans (exclusive.worker i w here within)

theorem ServerRun.Exclusive.only (exclusive : s.Exclusive) (here : s.workers[i]? = some w)
    (within : w.inside = true) : s.start.inside = false ∧
      ∀ (j : Nat) (u : WorkerAt), s.workers[j]? = some u → u.inside = true → j = i := by
  have held := exclusive.worker i w here within
  constructor
  · apply Bool.eq_false_iff.mpr
    intro inside
    cases held.symm.trans (exclusive.start.mpr inside)
  · intro j u cell also
    cases held.symm.trans (exclusive.worker j u cell also)
    rfl

theorem ServerRun.Exclusive.released {start : StartAt} (exclusive : s.Exclusive)
    (inside : s.start.inside = true) (outside : start.inside = false) :
    ServerRun.Exclusive { s with mutex := none, start := start } := by
  refine ⟨by simp [outside], fun j u cell within => ?_, by simp⟩
  rw [exclusive.alone inside cell] at within
  cases within

theorem exclusive_step (step : startStep s a = some s') (created : s.Created)
    (exclusive : s.Exclusive) : s'.Exclusive := by
  cases startStep_moves step with
  | init here more =>
      obtain ⟨start, worker, holder⟩ := exclusive
      refine ⟨start, fun j u cell within => ?_, fun j holds => ?_⟩
      · grind [WorkerAt.inside]
      · grind
  | inited here | created here | below here | reached here | bound here | refused here | wake here =>
      apply exclusive.moved
      rw [here]
      rfl
  | dispatch here =>
      have moved := exclusive.moved (n := .returned true) (by rw [here]; rfl)
      exact ⟨moved.start, moved.worker, moved.holder⟩
  | @create i answer here more =>
      have put := exclusive.put (created.next here more) (WorkerAt.started_inside answer)
      apply put.moved
      show _ = s.start.inside
      rw [here]
      rfl
  | lock here free =>
      obtain ⟨-, outside⟩ := exclusive.outside free
      refine ⟨by simp [StartAt.inside], fun j u cell within => ?_, by simp⟩
      rw [outside j u cell] at within
      cases within
  | sleep here | unlock here => exact exclusive.released (by rw [here]; rfl) rfl
  | @enter i here free =>
      obtain ⟨start, outside⟩ := exclusive.outside free
      refine ⟨?_, fun j u cell within => ?_, fun j holds => ?_⟩
      · simp [ServerRun.put, start]
      · grind [ServerRun.put]
      · grind [ServerRun.put, WorkerAt.inside]
  | read here => exact exclusive.put here rfl
  | write here =>
      have put := exclusive.put (x := .signal) here rfl
      exact ⟨put.start, put.worker, put.holder⟩
  | signal here => exact exclusive.signal.put here rfl
  | @leave i here =>
      obtain ⟨start, others⟩ := exclusive.only here rfl
      refine ⟨by simp [ServerRun.put, start], fun j u cell within => ?_, by simp⟩
      grind [ServerRun.put, WorkerAt.inside]
  | notify => exact ⟨exclusive.start, exclusive.worker, exclusive.holder⟩

theorem counted_put (here : s.workers[i]? = some w) (same : x.counted = w.counted) :
    (s.put i x).counted = s.counted := by
  obtain ⟨inside, cell⟩ := List.getElem?_eq_some_iff.mp here
  have counts := List.boole_getElem_le_countP (p := WorkerAt.counted) inside
  simp only [ServerRun.counted, ServerRun.put, List.countP_set inside, cell, same] at counts ⊢
  omega

theorem counted_count (here : s.workers[i]? = some w) (before : w.counted = false)
    (after : x.counted = true) : (s.put i x).counted = s.counted + 1 := by
  obtain ⟨inside, cell⟩ := List.getElem?_eq_some_iff.mp here
  simp [ServerRun.counted, ServerRun.put, List.countP_set inside, cell, before, after]

theorem ServerRun.Exact.put (exact : s.Exact) (here : s.workers[i]? = some w)
    (same : x.counted = w.counted) (read : ∀ v, x = .write v → v = s.initCount) :
    (s.put i x).Exact := by
  refine ⟨exact.count.trans (counted_put here same).symm, fun j v cell => ?_⟩
  rcases List.mem_or_eq_of_mem_set (List.mem_of_getElem? cell) with old | new
  · obtain ⟨k, there⟩ := List.mem_iff_getElem?.mp old
    exact exact.pending k v there
  · exact read v new.symm

theorem exact_step (step : startStep s a = some s') (created : s.Created)
    (exclusive : s.Exclusive) (exact : s.Exact) : s'.Exact := by
  cases startStep_moves step with
  | init here more =>
      refine ⟨?_, fun j v cell => ?_⟩
      · simpa [ServerRun.counted, WorkerAt.counted] using exact.count
      · have member : WorkerAt.write v ∈ s.workers := by simpa using List.mem_of_getElem? cell
        obtain ⟨k, there⟩ := List.mem_iff_getElem?.mp member
        exact exact.pending k v there
  | @create i answer here more =>
      have put := exact.put (created.next here more) (WorkerAt.started_counted answer) (by
        rcases WorkerAt.started_eq answer with here | here <;> simp [here])
      exact ⟨put.count, put.pending⟩
  | enter here free =>
      have put := exact.put (x := .read) here rfl (by simp)
      exact ⟨put.count, put.pending⟩
  | read here => exact exact.put here rfl fun v same => (WorkerAt.write.inj same).symm
  | @write i v here =>
      -- nobody else is between a read and a write
      obtain ⟨-, others⟩ := exclusive.only here rfl
      refine ⟨?_, fun j u cell => ?_⟩
      · exact (congrArg (· + 1) ((exact.pending i v here).trans exact.count)).trans
          (counted_count (x := .signal) here rfl rfl).symm
      · by_cases same : j = i
        · subst same
          obtain ⟨inside, -⟩ := List.getElem?_eq_some_iff.mp here
          cases (List.getElem?_set_self inside).symm.trans cell
        · have there : s.workers[j]? = some (.write u) := by
            rw [← cell]
            exact (List.getElem?_set_ne (Ne.symm same)).symm
          exact absurd (others j _ there rfl) same
  | signal here =>
      have put := exact.put (x := .unlock) here rfl (by simp)
      exact ⟨put.count, put.pending⟩
  | leave here =>
      have put := exact.put (x := .looping) here rfl (by simp)
      exact ⟨put.count, put.pending⟩
  | inited | created | lock | below | reached | sleep | unlock | bound | refused | dispatch | wake
  | notify => exact ⟨exact.count, exact.pending⟩

theorem counted_le (created : s.Created) : s.counted ≤ s.workerLen := by
  have most := List.countP_le_length (p := WorkerAt.counted) (l := s.workers)
  have length := created.length
  unfold ServerRun.counted
  omega

theorem ServerRun.Awaited.put (awaited : s.Awaited) (here : s.workers[i]? = some w)
    (silent : w ≠ .signal) : (s.put i x).Awaited := by
  refine ⟨fun sleeping => ?_, awaited.wait, awaited.counted, awaited.dispatching⟩
  rcases awaited.asleep sleeping with less | ⟨j, there⟩
  · exact .inl less
  · refine .inr ⟨j, ?_⟩
    have other : i ≠ j := by
      rintro rfl
      cases here.symm.trans there
      exact silent rfl
    exact (List.getElem?_set_ne other).trans there

theorem awaited_step (step : startStep s a = some s') (exclusive : s.Exclusive) (exact : s.Exact)
    (awaited : s.Awaited) : s'.Awaited := by
  have running : s.start ≠ .returned true → s.dispatching = false := by
    intro other
    apply Bool.eq_false_iff.mpr
    intro dispatching
    exact other (awaited.dispatching dispatching)
  cases startStep_moves step with
  | init here more =>
      refine ⟨by simp [here], by simp [here], by simp [here, StartAt.Counted], awaited.dispatching⟩
  | inited here | created here | wake here =>
      exact ⟨by simp, by simp, by simp [StartAt.Counted], by simp [running, here]⟩
  | create here more =>
      exact ⟨by simp, by simp, by simp [StartAt.Counted], by simp [ServerRun.put, running, here]⟩
  | lock here free =>
      refine ⟨by simp, by simp, by simp [StartAt.Counted], ?_⟩
      rcases here with here | here <;> simp [running, here]
  | below here less =>
      exact ⟨by simp, fun _ => less, by simp [StartAt.Counted], by simp [running, here]⟩
  | reached here enough =>
      exact ⟨by simp, by simp, fun _ => Nat.not_lt.mp enough, by simp [running, here]⟩
  | sleep here =>
      exact ⟨fun _ => .inl (awaited.wait here), by simp, by simp [StartAt.Counted],
        by simp [running, here]⟩
  | unlock here | bound here | refused here =>
      exact ⟨by simp, by simp, fun _ => awaited.counted (by rw [here]; trivial), by simp [running, here]⟩
  | dispatch here =>
      exact ⟨by simp, by simp, fun _ => awaited.counted (by rw [here]; trivial), fun _ => rfl⟩
  | enter here free =>
      have put := awaited.put (x := .read) here (by simp)
      exact ⟨put.asleep, put.wait, put.counted, put.dispatching⟩
  | read here => exact awaited.put here (by simp)
  | @write i v here =>
      obtain ⟨inside, -⟩ := List.getElem?_eq_some_iff.mp here
      have value := exact.pending i v here
      refine ⟨fun _ => .inr ⟨i, List.getElem?_set_self inside⟩, fun waiting => ?_, fun counted => ?_,
        awaited.dispatching⟩
      -- the starting thread is not inside while this worker is
      · have outside := (exclusive.only here rfl).1
        rw [show s.start = .wait from waiting] at outside
        cases outside
      · have enough := awaited.counted counted
        show s.workerLen ≤ v + 1
        omega
  | @signal i here =>
      by_cases sleeping : s.start = .asleep
      · have woken : s.signal = { s with start := .woken } := by simp [ServerRun.signal, sleeping]
        rw [woken]
        exact ⟨by simp [ServerRun.put], by simp [ServerRun.put], by simp [ServerRun.put, StartAt.Counted],
          by simp [ServerRun.put, running, sleeping]⟩
      · have same : s.signal = s := by simp [ServerRun.signal, sleeping]
        rw [same]
        exact ⟨fun asleep => absurd asleep sleeping, awaited.wait, awaited.counted,
          awaited.dispatching⟩
  | leave here =>
      have put := awaited.put (x := .looping) here (by simp)
      exact ⟨put.asleep, put.wait, put.counted, put.dispatching⟩
  | notify => exact ⟨awaited.asleep, awaited.wait, awaited.counted, awaited.dispatching⟩

/-- What holds of every state. -/
structure ServerRun.Kept (s : ServerRun) : Prop where
  created : s.Created
  exclusive : s.Exclusive
  exact : s.Exact
  awaited : s.Awaited

theorem kept_initial (workerLen : Nat) : (ServerRun.initial workerLen).Kept where
  created := by
    refine ⟨?_, by simp [ServerRun.initial]⟩
    rcases Nat.eq_zero_or_pos workerLen with zero | positive
    · exact .inl zero.symm
    · exact .inr ⟨rfl, positive⟩
  exclusive := ⟨by simp [ServerRun.initial, StartAt.inside], by simp [ServerRun.initial],
    by simp [ServerRun.initial]⟩
  exact := ⟨rfl, by simp [ServerRun.initial]⟩
  awaited := ⟨by simp [ServerRun.initial], by simp [ServerRun.initial],
    by simp [ServerRun.initial, StartAt.Counted], by simp [ServerRun.initial]⟩

theorem kept_step (step : startStep s a = some s') (kept : s.Kept) : s'.Kept where
  created := created_step step kept.created
  exclusive := exclusive_step step kept.created kept.exclusive
  exact := exact_step step kept.created kept.exclusive kept.exact
  awaited := awaited_step step kept.exclusive kept.exact kept.awaited

theorem ServerRun.Kept.all_counted (kept : s.Kept) (behind : s.start.Counted) :
    s.workers.length = s.workerLen ∧ ∀ w ∈ s.workers, w.counted = true := by
  have enough := kept.awaited.counted behind
  have after : ∀ j, ¬s.start.Before j := by
    intro j
    cases here : s.start <;> simp_all [StartAt.Counted, StartAt.Before]
  have length := (kept.created.all after).1
  refine ⟨length, List.countP_eq_length.mp ?_⟩
  have count := kept.exact.count
  have most := counted_le kept.created
  unfold ServerRun.counted at count most
  omega

theorem absent_put (here : s.workers[i]? = some w) (present : w ≠ .absent) :
    .absent ∈ (s.put i x).workers ↔ .absent ∈ s.workers ∨ x = .absent := by
  simp only [ServerRun.put, List.mem_iff_getElem?, List.getElem?_set]
  grind

theorem absent_step (step : startStep s a = some s') (created : s.Created) :
    .absent ∈ s'.workers ↔ .absent ∈ s.workers ∨ a = .workerStart false := by
  cases startStep_moves step with
  | init here more => simp
  | @create i answer here more =>
      refine (absent_put (x := .started answer) (created.next here more) (by simp)).trans ?_
      cases answer <;> simp [WorkerAt.started]
  | enter here | read here | write here | leave here =>
      exact (absent_put here (by simp)).trans (by simp)
  | signal here => exact (absent_put (s := s.signal) here (by simp)).trans (by simp [ServerRun.signal])
  | _ => simp

/-- How many steps a worker that has been created can still take, and 3 more for a signal to come: it
    sends the starting thread round its loop once. -/
def WorkerAt.weight : WorkerAt → Nat
  | .ready | .lock => 8
  | .read => 7
  | .write _ => 6
  | .signal => 5
  | .unlock => 1
  | .absent | .looping => 0

def StartAt.weight (workerLen created : Nat) : StartAt → Nat
  | .initing => 9 * (workerLen - created) + 1 + workerLen + 1 + 5
  | .starting i => workerLen - i + 1 + 5
  | .lock | .woken => 5
  | .test => 4
  | .wait | .unlock => 3
  | .asleep | .dispatchInit => 2
  | .dispatchStart => 1
  | .returned _ => 0

/-- An upper bound of the steps left before the event loops, as long as nothing wakes without a signal. -/
def ServerRun.weight (s : ServerRun) : Nat :=
  s.start.weight s.workerLen s.workers.length + (s.workers.map WorkerAt.weight).sum

theorem sum_set_add (ns : List Nat) {i n : Nat} (here : ns[i]? = some n) (m : Nat) :
    (ns.set i m).sum + n = ns.sum + m := by
  induction ns generalizing i with
  | nil => cases here
  | cons k ns ih =>
      cases i with
      | zero =>
          cases here
          simp only [List.set_cons_zero, List.sum_cons]
          omega
      | succ i =>
          have rest := ih here
          simp only [List.set_cons_succ, List.sum_cons]
          omega

theorem weight_put (here : s.workers[i]? = some w) :
    ((s.put i x).workers.map WorkerAt.weight).sum + w.weight =
      (s.workers.map WorkerAt.weight).sum + x.weight := by
  have cell : (s.workers.map WorkerAt.weight)[i]? = some w.weight := by simp [here]
  rw [ServerRun.put, List.map_set]
  exact sum_set_add _ cell _

/-- The action is a step of the start-up, not one of a thread in its event loop. -/
def StartAction.startUp : StartAction → Bool
  | .start | .workerStart _ | .dispatchStart _ | .dispatchInit _ _ | .worker _ => true
  | .wake | .notify _ => false

theorem weight_step (step : startStep s a = some s') (created : s.Created) :
    s'.weight + (if a.startUp then 1 else 0) ≤ s.weight + (if a = .wake then 3 else 0) := by
  have length := created.length
  unfold ServerRun.weight
  cases startStep_moves step with
  | init here more =>
      simp [here, StartAt.weight, StartAction.startUp, WorkerAt.weight]
      omega
  | inited here all => simp [here, StartAt.weight, StartAction.startUp]
  | @create i answer here more =>
      have sum := weight_put (x := .started answer) (created.next here more)
      cases answer <;>
        simp [ServerRun.put, here, StartAt.weight, StartAction.startUp, WorkerAt.started,
          WorkerAt.weight] at sum ⊢ <;>
        omega
  | lock here free =>
      rcases here with here | here <;> simp [here, StartAt.weight, StartAction.startUp]
  | wake here =>
      simp [here, StartAt.weight, StartAction.startUp]
      omega
  | created here | refused here | below here | reached here | sleep here | unlock here | bound here
  | dispatch here => simp [here, StartAt.weight, StartAction.startUp]
  | enter here free =>
      have sum := weight_put (x := .read) here
      simp [ServerRun.put, StartAction.startUp, WorkerAt.weight] at sum ⊢
      omega
  | read here =>
      have sum := weight_put (x := .write s.initCount) here
      simp [ServerRun.put, StartAction.startUp, WorkerAt.weight] at sum ⊢
      omega
  | write here =>
      have sum := weight_put (x := .signal) here
      simp [ServerRun.put, StartAction.startUp, WorkerAt.weight] at sum ⊢
      omega
  | signal here =>
      -- the 3 that the signal had left are what waking up adds
      have sum := weight_put (x := .unlock) here
      simp [ServerRun.put, ServerRun.signal, StartAction.startUp, WorkerAt.weight] at sum ⊢
      split
      · rename_i sleeping
        simp [sleeping, StartAt.weight]
        omega
      · omega
  | leave here =>
      have sum := weight_put (x := .looping) here
      simp [ServerRun.put, StartAction.startUp, WorkerAt.weight] at sum ⊢
      omega
  | notify => simp [StartAction.startUp]

/-- A step of the start-up can be taken. -/
def ServerRun.Moves (s : ServerRun) : Prop :=
  ∃ a s', StartAction.startUp a = true ∧ startStep s a = some s'

/-- The starting thread is not inside: whoever holds the mutex is a worker that can go on. -/
theorem held_moves (exclusive : s.Exclusive) (outside : s.start.inside = false)
    (held : s.mutex ≠ none) : s.Moves := by
  obtain ⟨holder, held⟩ := Option.ne_none_iff_exists'.mp held
  cases holder with
  | start =>
      rw [exclusive.start.mp held] at outside
      cases outside
  | worker j =>
      obtain ⟨w, there, inside⟩ := exclusive.holder j held
      refine ⟨.worker j, ?_⟩
      cases w with
      | read | write | signal | unlock => simp [StartAction.startUp, startStep, threadWorkerHandler, there]
      | ready | absent | lock | looping => cases inside

/-- A worker that is not in its event loop can go on, or whoever it waits for can. -/
theorem worker_moves (exclusive : s.Exclusive) (outside : s.start.inside = false)
    (here : s.workers[i]? = some w) (created : w ≠ .ready ∧ w ≠ .absent) (under : w ≠ .looping) :
    s.Moves := by
  by_cases free : s.mutex = none
  · refine ⟨.worker i, ?_⟩
    cases w with
    | lock | read | write | signal | unlock =>
        simp [StartAction.startUp, startStep, threadWorkerHandler, here, free]
    | ready => exact absurd rfl created.1
    | absent => exact absurd rfl created.2
    | looping => exact absurd rfl under
  · exact held_moves exclusive outside free

/-- `rpc_server_start` has returned, and all workers are in their event loops. -/
def ServerRun.Up (s : ServerRun) : Prop :=
  (∃ started, s.start = .returned started) ∧ ∀ w ∈ s.workers, w = .looping

theorem kept_moves (kept : s.Kept) (present : .absent ∉ s.workers) (unfinished : ¬s.Up) :
    s.Moves := by
  have exclusive := kept.exclusive
  have other : ∀ w ∈ s.workers, w ≠ .absent := fun w member same => present (same ▸ member)
  cases here : s.start with
  | initing =>
      refine ⟨.start, ?_⟩
      simp only [StartAction.startUp, startStep, rpcServerStart, here]
      split <;> simp
  | starting i =>
      by_cases more : i < s.workerLen
      · exact ⟨.workerStart true, by
          simp [StartAction.startUp, startStep, rpcWorkerStart, here, more]⟩
      · exact ⟨.start, by simp [StartAction.startUp, startStep, rpcServerStart, here, more]⟩
  | test | wait | unlock =>
      exact ⟨.start, by simp [StartAction.startUp, startStep, rpcServerStart, here]⟩
  | dispatchStart =>
      exact ⟨.dispatchStart true, by simp [StartAction.startUp, startStep, rpcDispatchStart, here]⟩
  | dispatchInit =>
      exact ⟨.dispatchInit true true, by simp [StartAction.startUp, startStep, rpcDispatchInit, here]⟩
  | lock | woken =>
      by_cases free : s.mutex = none
      · exact ⟨.start, by simp [StartAction.startUp, startStep, rpcServerStart, here, free]⟩
      · exact held_moves exclusive (by rw [here]; rfl) free
  | asleep =>
      obtain ⟨length, created⟩ := kept.created.all (by rw [here]; exact fun _ => id)
      obtain ⟨w, member, under⟩ : ∃ w ∈ s.workers, w ≠ .looping := by
        rcases kept.awaited.asleep here with less | ⟨i, there⟩
        · by_contra all
          have whole : s.counted = s.workers.length := by
            apply List.countP_eq_length.mpr
            intro w member
            by_cases looping : w = .looping
            · rw [looping]
              rfl
            · exact absurd ⟨w, member, looping⟩ all
          have count := kept.exact.count
          omega
        · exact ⟨.signal, List.mem_of_getElem? there, by simp⟩
      obtain ⟨j, there⟩ := List.mem_iff_getElem?.mp member
      exact worker_moves exclusive (by rw [here]; rfl) there
        ⟨created w member, other w member⟩ under
  | returned started =>
      obtain ⟨-, created⟩ := kept.created.all (by rw [here]; exact fun _ => id)
      obtain ⟨w, member, under⟩ : ∃ w ∈ s.workers, w ≠ .looping := by
        by_contra all
        refine unfinished ⟨⟨started, here⟩, fun w member => ?_⟩
        by_contra under
        exact all ⟨w, member, under⟩
      obtain ⟨j, there⟩ := List.mem_iff_getElem?.mp member
      exact worker_moves exclusive (by rw [here]; rfl) there
        ⟨created w member, other w member⟩ under

end Steps

section Runs

variable {s s' : ServerRun}

theorem kept_run {workerLen : Nat} {run : List StartAction}
    (reached : exec startStep (.initial workerLen) run = some s) : s.Kept :=
  exec_invariant (fun _ _ _ => kept_step) reached (kept_initial workerLen)

theorem weight_run (run : List StartAction) : ∀ {s : ServerRun}, s.Kept →
    exec startStep s run = some s' →
      s'.weight + run.countP StartAction.startUp ≤ s.weight + 3 * run.count .wake := by
  induction run with
  | nil =>
      intro s kept reached
      cases reached
      exact Nat.le_refl _
  | cons a run ih =>
      intro s kept reached
      obtain ⟨s₁, first, rest⟩ := exec_cons.mp reached
      have here := weight_step first kept.created
      have later := ih (kept_step first kept) rest
      rw [List.countP_cons, List.count_cons]
      simp only [beq_iff_eq]
      split at here <;> split at here <;> rename_i startUp woken <;> simp only [startUp, woken] <;> grind

theorem absent_run (run : List StartAction) : ∀ {s : ServerRun}, s.Kept →
    exec startStep s run = some s' →
      (.absent ∈ s'.workers ↔ .absent ∈ s.workers ∨ .workerStart false ∈ run) := by
  induction run with
  | nil =>
      intro s kept reached
      cases reached
      simp
  | cons a run ih =>
      intro s kept reached
      obtain ⟨s₁, first, rest⟩ := exec_cons.mp reached
      rw [ih (kept_step first kept) rest, absent_step first kept.created, or_assoc, List.mem_cons,
        eq_comm]

/-- The descriptor `accept` returns in a step, if it returns one. -/
def StartAction.accepted : StartAction → List Nat
  | .notify (.push cfd) => [cfd]
  | _ => []

/-- What the dispatch thread has accepted is dealt to the workers in turn, and it knows whose turn it
    is. -/
structure ServerRun.Deals (s : ServerRun) (fds : List Nat) : Prop where
  dealt : Dealt s.workerLen fds fun w => (s.dispatch.workers w).pushed
  beyond : ∀ w, s.workerLen ≤ w → (s.dispatch.workers w).pushed = []
  turn : s.dispatch.next = fds.length % s.workerLen
  len : s.dispatch.workerLen = s.workerLen

theorem notifyStep_push {d d' : Dispatch} {cfd : Nat} (step : notifyStep d (.push cfd) = some d') :
    (fun w => (d'.workers w).pushed) = Function.update (fun w => (d.workers w).pushed) d.next
      ((d.workers d.next).pushed ++ [cfd]) ∧ d'.lastThread = d.next ∧ d'.workerLen = d.workerLen := by
  simp only [notifyStep] at step
  split at step
  · cases step
  · cases step
    refine ⟨funext fun w => ?_, rfl, rfl⟩
    by_cases here : w = d.next
    · simp [here, Dispatch.setWorker]
    · simp [here, Dispatch.setWorker]

theorem notifyStep_silent {d d' : Dispatch} {a : NotifyAction} (step : notifyStep d a = some d')
    (silent : StartAction.accepted (.notify a) = []) :
    (∀ w, (d'.workers w).pushed = (d.workers w).pushed) ∧ d'.lastThread = d.lastThread ∧
      d'.workerLen = d.workerLen := by
  cases a with
  | push cfd => cases silent
  | write =>
      simp only [notifyStep] at step
      split at step
      · cases step
      · cases step
        refine ⟨fun w => ?_, rfl, rfl⟩
        simp only [Dispatch.setWorker, Function.update_apply]
        split <;> simp_all
  | read v =>
      simp only [notifyStep] at step
      split at step
      · cases step
        refine ⟨fun w => ?_, rfl, rfl⟩
        simp only [Dispatch.setWorker, Function.update_apply]
        split <;> simp_all
      · cases step
  | pop v =>
      simp only [notifyStep] at step
      split at step
      · cases step
      · cases step
        refine ⟨fun w => ?_, rfl, rfl⟩
        simp only [Dispatch.setWorker, Function.update_apply]
        split <;> simp_all

theorem startStep_dispatch {a : StartAction} (step : startStep s a = some s') :
    s'.workerLen = s.workerLen ∧ (s'.dispatch = s.dispatch ∧ a.accepted = [] ∨
      ∃ b, a = .notify b ∧ s.Serves b ∧ notifyStep s.dispatch b = some s'.dispatch) := by
  cases startStep_moves step with
  | notify serves taken => exact ⟨rfl, .inr ⟨_, rfl, serves, taken⟩⟩
  | _ => exact ⟨rfl, .inl ⟨rfl, rfl⟩⟩

theorem deals_step {a : StartAction} {fds : List Nat} (step : startStep s a = some s')
    (positive : 0 < s.workerLen) (deals : s.Deals fds) : s'.Deals (fds ++ a.accepted) := by
  obtain ⟨dealt, beyond, turn, len⟩ := deals
  obtain ⟨same, ⟨still, nothing⟩ | ⟨b, rfl, -, taken⟩⟩ := startStep_dispatch step
  · rw [nothing, List.append_nil]
    constructor <;> simpa only [still, same]
  · by_cases silent : StartAction.accepted (.notify b) = []
    · obtain ⟨pushed, last, len'⟩ := notifyStep_silent taken silent
      rw [silent, List.append_nil]
      refine ⟨?_, ?_, ?_, len'.trans (len.trans same.symm)⟩
      · simpa only [pushed, same] using dealt
      · simpa only [pushed, same] using beyond
      · rw [Dispatch.next, last, len', ← Dispatch.next, turn, same]
    · cases b with
      | push cfd =>
          obtain ⟨pushed, last, len'⟩ := notifyStep_push taken
          have inside : s.dispatch.next < s.workerLen := turn ▸ Nat.mod_lt _ positive
          refine ⟨?_, fun w above => ?_, ?_, len'.trans (len.trans same.symm)⟩
          · rw [pushed, same, turn]
            exact dealt.snoc cfd
          · have other : w ≠ s.dispatch.next := by omega
            rw [congrFun pushed w, Function.update_of_ne other]
            exact beyond w (by omega)
          · have cast : ((fds.length % s.workerLen : Nat) + 1 : Int) % s.workerLen =
                ((fds.length % s.workerLen + 1) % s.workerLen : Nat) := by norm_cast
            rw [Dispatch.next, last, len', len, same, turn, cast, Int.toNat_natCast, Nat.mod_add_mod]
            simp [StartAction.accepted]
      | write | read | pop => exact absurd rfl silent

theorem workerLen_run {workerLen : Nat} {run : List StartAction}
    (reached : exec startStep (.initial workerLen) run = some s) : s.workerLen = workerLen :=
  exec_invariant (I := fun s => s.workerLen = workerLen)
    (fun _ _ _ step same => (startStep_dispatch step).1.trans same) reached rfl

theorem balanced_run {workerLen : Nat} {run : List StartAction}
    (reached : exec startStep (.initial workerLen) run = some s) (w : Nat) :
    s.dispatch.Balanced w := by
  refine exec_invariant (I := fun s => s.dispatch.Balanced w) (fun s a s' step balanced => ?_) reached
    (balanced_initial workerLen w)
  obtain ⟨-, ⟨still, -⟩ | ⟨b, -, -, taken⟩⟩ := startStep_dispatch step
  · rwa [still]
  · exact balanced_step taken w balanced

end Runs

/-- In every state of every start-up, in any order of steps and with wake-ups out of nothing:
    `init_count` is the number of workers that have counted themselves, nobody is inside the critical
    section with anybody else, and `rpc_server_start` is behind its loop, and the dispatch thread
    running, only when all workers have counted themselves. -/
theorem rpcServerStart_counts (workerLen : Nat) (run : List StartAction) (s : ServerRun)
    (reached : exec startStep (.initial workerLen) run = some s) :
    s.initCount = s.counted ∧
    (∀ (i : Nat) (w : WorkerAt), s.workers[i]? = some w → w.inside = true →
      s.start.inside = false ∧
      ∀ (j : Nat) (u : WorkerAt), s.workers[j]? = some u → u.inside = true → j = i) ∧
    (s.start.Counted → s.workers.length = workerLen ∧ ∀ w ∈ s.workers, w.counted = true) ∧
    (s.dispatching = true → s.start = .returned true) := by
  have kept := kept_run reached
  refine ⟨kept.exact.count, fun i w here within => kept.exclusive.only here within, fun counted => ?_,
    kept.awaited.dispatching⟩
  obtain ⟨length, all⟩ := kept.all_counted counted
  exact ⟨length.trans (workerLen_run reached), all⟩

/-- Two workers: the starting thread, asleep, is woken by the first one, and the second one has the
    mutex before it. -/
def twoWorkers : List StartAction :=
  [.start, .start, .start, .workerStart true, .workerStart true, .start, .start, .start, .start,
    .worker 0, .worker 0, .worker 0, .worker 0, .worker 0, .worker 1, .worker 1]

theorem rpcServerStart_counts_twoWorkers : ∃ s, exec startStep (.initial 2) twoWorkers = some s ∧
    s.start = .woken ∧ s.mutex = some (.worker 1) ∧ s.initCount = s.counted := by
  obtain ⟨s, reached, woken, held⟩ : ∃ s, exec startStep (.initial 2) twoWorkers = some s ∧
      s.start = .woken ∧ s.mutex = some (.worker 1) := ⟨_, rfl, rfl, rfl⟩
  exact ⟨s, reached, woken, held, (rpcServerStart_counts 2 twoWorkers s reached).1⟩

/-- The start-up takes at most `10 * worker_len + 7` steps and 3 more for each wake-up out of nothing.
    If every worker gets its thread, it comes to its end: when none of its steps can be taken,
    `rpc_server_start` has returned and every worker is in its event loop. If one gets none,
    `rpc_server_start` does not return, since it does not look at what `pthread_create` answers. -/
theorem rpcServerStart_returns (workerLen : Nat) (run : List StartAction) (s : ServerRun)
    (reached : exec startStep (.initial workerLen) run = some s) :
    run.countP StartAction.startUp ≤ 10 * workerLen + 7 + 3 * run.count .wake ∧
    (.workerStart false ∉ run → (∀ a, StartAction.startUp a = true → startStep s a = none) → s.Up) ∧
    (.workerStart false ∈ run → ∀ started, s.start ≠ .returned started) := by
  have kept := kept_run reached
  have failed := absent_run run (kept_initial workerLen) reached
  have nobody : WorkerAt.absent ∉ (ServerRun.initial workerLen).workers := List.not_mem_nil
  rw [or_iff_right nobody] at failed
  refine ⟨?_, fun all none_moves => ?_, fun lost started returned => ?_⟩
  · have weight := weight_run run (kept_initial workerLen) reached
    have whole : (ServerRun.initial workerLen).weight = 10 * workerLen + 7 := by
      simp only [ServerRun.weight, ServerRun.initial, StartAt.weight, List.length_nil, List.map_nil,
        List.sum_nil]
      omega
    omega
  · by_contra unfinished
    obtain ⟨a, s', startUp, step⟩ := kept_moves kept (fun here => all (failed.mp here)) unfinished
    cases (none_moves a startUp).symm.trans step
  · obtain ⟨-, counted⟩ := kept.all_counted (by rw [returned]; trivial)
    cases counted _ (failed.mpr lost)

/-- The run goes on to the event loops of the two workers and the start of the dispatch thread. -/
def twoWorkersUp : List StartAction :=
  twoWorkers ++ [.worker 1, .worker 1, .worker 1, .start, .start, .start, .dispatchInit true true,
    .dispatchStart true]

/-- The second worker gets no thread, and the starting thread goes back to sleep. -/
def lostWorker : List StartAction :=
  [.start, .start, .start, .workerStart true, .workerStart false, .start, .start, .start, .start,
    .worker 0, .worker 0, .worker 0, .worker 0, .worker 0, .start, .start, .start]

theorem rpcServerStart_returns_twoWorkers :
    (∃ s, exec startStep (.initial 2) twoWorkersUp = some s ∧
      twoWorkersUp.countP StartAction.startUp ≤ 27 ∧ s.Up) ∧
    ∃ s, exec startStep (.initial 2) lostWorker = some s ∧ ∀ started, s.start ≠ .returned started := by
  constructor
  · obtain ⟨s, reached, start, workers⟩ : ∃ s, exec startStep (.initial 2) twoWorkersUp = some s ∧
        s.start = .returned true ∧ s.workers = [.looping, .looping] := ⟨_, rfl, rfl, rfl⟩
    obtain ⟨bound, up, -⟩ := rpcServerStart_returns 2 twoWorkersUp s reached
    refine ⟨s, reached, bound, up (by decide) fun a startUp => ?_⟩
    cases a with
    | start => simp [startStep, rpcServerStart, start]
    | workerStart => simp [startStep, rpcWorkerStart, start]
    | dispatchStart => simp [startStep, rpcDispatchStart, start]
    | dispatchInit => simp [startStep, rpcDispatchInit, start]
    | worker i => rcases i with _ | _ | i <;> simp [startStep, threadWorkerHandler, workers]
    | wake | notify => cases startUp
  · obtain ⟨s, reached⟩ : ∃ s, exec startStep (.initial 2) lostWorker = some s := ⟨_, rfl⟩
    exact ⟨s, reached, (rpcServerStart_returns 2 lostWorker s reached).2.2 (by decide)⟩

/-- What the dispatch thread accepts goes to the workers in turn, whatever they do meanwhile: the
    `j`-th descriptor pushed to worker `w` is the one accepted at `w + j * worker_len`, the connections
    the worker makes are for these in this order, and no worker gets more than one more than another. -/
theorem cbDispatchConn_deals (workerLen : Nat) (positive : 0 < workerLen) (run : List StartAction)
    (s : ServerRun) (reached : exec startStep (.initial workerLen) run = some s) :
    let accepted := run.flatMap StartAction.accepted
    (∀ w < workerLen, ∀ j, (s.dispatch.workers w).pushed[j]? = accepted[w + j * workerLen]?) ∧
    (∀ w < workerLen, (s.dispatch.workers w).conns <+: (s.dispatch.workers w).pushed) ∧
    (∀ v < workerLen, ∀ w < workerLen,
      (s.dispatch.workers v).pushed.length ≤ (s.dispatch.workers w).pushed.length + 1) ∧
    ∀ w, workerLen ≤ w → (s.dispatch.workers w).pushed = [] := by
  have len := workerLen_run reached
  have start : (ServerRun.initial workerLen).Deals [] :=
    ⟨dealt_nil _, fun _ _ => rfl, by simp [ServerRun.initial, Dispatch.initial, Dispatch.next], rfl⟩
  obtain ⟨-, dealt, beyond, -, -⟩ := exec_logged (J := fun s fds => 0 < s.workerLen ∧ s.Deals fds)
    (fun _ _ _ _ step deals => ⟨(startStep_dispatch step).1 ▸ deals.1, deals_step step deals.1 deals.2⟩)
    reached ⟨positive, start⟩
  rw [emitted_actions _ reached, len, List.nil_append] at dealt
  rw [len] at beyond
  refine ⟨dealt, fun w _ => ?_, fun v inside w inside' => dealt.fair inside inside', beyond⟩
  exact ⟨_, (balanced_run reached w).order.symm⟩

theorem cbDispatchConn_deals_twoWorkers :
    let run : List StartAction := twoWorkersUp ++
      [.notify (.push 5), .notify .write, .notify (.push 6), .notify (.read 0), .notify .write,
        .notify (.pop 0), .notify (.push 7)]
    ∃ s, exec startStep (.initial 2) run = some s ∧ (s.dispatch.workers 0).conns = [5] ∧
      ∀ w < 2, ∀ j : Nat, (s.dispatch.workers w).pushed[j]? = ([5, 6, 7] : List Nat)[w + j * 2]? := by
  intro run
  obtain ⟨s, reached, conns⟩ : ∃ s, exec startStep (.initial 2) run = some s ∧
      (s.dispatch.workers 0).conns = [5] := ⟨_, rfl, rfl⟩
  have dealt := (cbDispatchConn_deals 2 Nat.zero_lt_two run s reached).1
  rw [show run.flatMap StartAction.accepted = [5, 6, 7] from rfl] at dealt
  exact ⟨s, reached, conns, dealt⟩

end OpenRpc
