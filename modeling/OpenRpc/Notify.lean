import OpenRpc.Lib.Transition

/-! # Handing accepted connections to the workers

`cb_dispatch_conn` pushes an accepted descriptor on a worker's queue and then writes to its eventfd;
`cb_notify_conn` reads the eventfd and then pops one descriptor. The read takes the whole counter, so
the writes merged into it beyond the first are pops that nobody makes.
-/

namespace OpenRpc

open Transition

/-- A worker thread: its queue, its eventfd counter, the count a notify step in progress has read, and
    the descriptors of the connections it has made. `pushed` and `merged` are not in the source: all
    descriptors pushed so far, and how many writes went into wake-ups beyond their first. -/
structure Worker where
  queue : List Nat
  notifyFd : Nat
  notified : Option Nat
  conns : List Nat
  pushed : List Nat
  merged : Nat
  deriving Repr, DecidableEq

def Worker.initial : Worker := ⟨[], 0, none, [], [], 0⟩

/-- The dispatch thread with its workers; `pushedTo` is the worker whose eventfd is still to be
    written. -/
structure Dispatch where
  workerLen : Nat
  lastThread : Int
  pushedTo : Option Nat
  workers : Nat → Worker

def Dispatch.initial (workerLen : Nat) : Dispatch := ⟨workerLen, -1, none, fun _ => .initial⟩

def Dispatch.setWorker (s : Dispatch) (w : Nat) (worker : Worker) : Dispatch :=
  { s with workers := Function.update s.workers w worker }

inductive NotifyAction where
  /-- `cb_dispatch_conn` up to the push of the descriptor `accept` returned. -/
  | push (cfd : Nat)
  /-- The eventfd write with which it ends. -/
  | write
  /-- The eventfd read of `cb_notify_conn`. -/
  | read (w : Nat)
  /-- The pop and `rpc_conn_new`, which get descriptor 0 from an empty queue. -/
  | pop (w : Nat)
  deriving Repr, DecidableEq

/-- The worker `cb_dispatch_conn` picks. -/
def Dispatch.next (s : Dispatch) : Nat := ((s.lastThread + 1) % s.workerLen).toNat

def notifyStep : Step Dispatch NotifyAction
  | s, .push cfd =>
      match s.pushedTo with
      | some _ => none
      | none =>
          let worker := s.workers s.next
          some { s.setWorker s.next { worker with queue := worker.queue ++ [cfd]
                                                  pushed := worker.pushed ++ [cfd] } with
                 lastThread := s.next, pushedTo := some s.next }
  | s, .write =>
      match s.pushedTo with
      | none => none
      | some w =>
          let worker := s.workers w
          some { s.setWorker w { worker with notifyFd := worker.notifyFd + 1 } with pushedTo := none }
  | s, .read w =>
      let worker := s.workers w
      -- the loop calls the callback when the eventfd is readable, that is when its counter is not 0
      if worker.notified = none ∧ 0 < worker.notifyFd then
        some (s.setWorker w { worker with notifyFd := 0, notified := some worker.notifyFd
                                          merged := worker.merged + (worker.notifyFd - 1) })
      else none
  | s, .pop w =>
      let worker := s.workers w
      match worker.notified with
      | none => none
      | some _ =>
          some (s.setWorker w { worker with queue := worker.queue.tail, notified := none
                                            conns := worker.conns ++ [worker.queue.headD 0] })

/-- The worker's counter is 0 and nothing is under way for it. -/
def Dispatch.Quiet (s : Dispatch) (w : Nat) : Prop :=
  (s.workers w).notifyFd = 0 ∧ s.pushedTo ≠ some w ∧ (s.workers w).notified = none

/-- Nothing pushed to the worker is lost: the queue is empty, and every descriptor has become exactly
    one connection, in the order of the pushes. -/
def Dispatch.AllGiven (s : Dispatch) (w : Nat) : Prop :=
  (s.workers w).queue = [] ∧ (s.workers w).conns = (s.workers w).pushed

/-- How many eventfd writes to the worker are still to come. -/
def Dispatch.owed (s : Dispatch) (w : Nat) : Nat :=
  match s.pushedTo with
  | some v => if v = w then 1 else 0
  | none => 0

/-- How many pops of the worker are under way. -/
def Worker.popping (worker : Worker) : Nat :=
  match worker.notified with
  | some _ => 1
  | none => 0

/-- What is pushed is given or queued, and the queue is as long as the writes not yet answered. -/
structure Dispatch.Balanced (s : Dispatch) (w : Nat) : Prop where
  order : (s.workers w).pushed = (s.workers w).conns ++ (s.workers w).queue
  length : (s.workers w).queue.length = (s.workers w).notifyFd + s.owed w + (s.workers w).popping +
    (s.workers w).merged

theorem balanced_initial (workerLen w : Nat) : (Dispatch.initial workerLen).Balanced w :=
  ⟨rfl, rfl⟩

theorem setWorker_self (s : Dispatch) (w : Nat) (worker : Worker) :
    (s.setWorker w worker).workers w = worker :=
  Function.update_self ..

theorem setWorker_other (s : Dispatch) {v w : Nat} (other : w ≠ v) (worker : Worker) :
    (s.setWorker v worker).workers w = s.workers w :=
  Function.update_of_ne other ..

theorem notifyStep_worker {s s' : Dispatch} {a : NotifyAction} (step : notifyStep s a = some s')
    (w : Nat) :
    (s'.workers w = s.workers w ∧ s'.owed w = s.owed w ∧ a ≠ .read w) ∨
    (∃ cfd, a = .push cfd ∧ s.owed w = 0 ∧ s'.owed w = 1 ∧
      s'.workers w = { s.workers w with queue := (s.workers w).queue ++ [cfd]
                                        pushed := (s.workers w).pushed ++ [cfd] }) ∨
    (a = .write ∧ s.owed w = 1 ∧ s'.owed w = 0 ∧
      s'.workers w = { s.workers w with notifyFd := (s.workers w).notifyFd + 1 }) ∨
    (a = .read w ∧ s'.owed w = s.owed w ∧ (s.workers w).notified = none ∧
      0 < (s.workers w).notifyFd ∧
      s'.workers w =
        { s.workers w with notifyFd := 0, notified := some (s.workers w).notifyFd
                           merged := (s.workers w).merged + ((s.workers w).notifyFd - 1) }) ∨
    (a = .pop w ∧ s'.owed w = s.owed w ∧ (s.workers w).notified ≠ none ∧
      s'.workers w =
        { s.workers w with queue := (s.workers w).queue.tail, notified := none
                           conns := (s.workers w).conns ++ [(s.workers w).queue.headD 0] }) := by
  cases a with
  | push cfd =>
      simp only [notifyStep] at step
      split at step
      · cases step
      · rename_i idle
        cases step
        by_cases here : w = s.next
        · subst here
          exact .inr (.inl ⟨cfd, rfl, by simp [Dispatch.owed, idle], by simp [Dispatch.owed],
            setWorker_self ..⟩)
        · exact .inl ⟨setWorker_other s here _, by simp [Dispatch.owed, idle, Ne.symm here],
            by simp⟩
  | write =>
      simp only [notifyStep] at step
      split at step
      · cases step
      · rename_i v pushed
        cases step
        by_cases here : w = v
        · subst here
          exact .inr (.inr (.inl ⟨rfl, by simp [Dispatch.owed, pushed], by simp [Dispatch.owed],
            setWorker_self ..⟩))
        · exact .inl ⟨setWorker_other s here _, by simp [Dispatch.owed, pushed, Ne.symm here],
            by simp⟩
  | read v =>
      simp only [notifyStep] at step
      split at step
      · rename_i ready
        cases step
        by_cases here : w = v
        · subst here
          exact .inr (.inr (.inr (.inl ⟨rfl, rfl, ready.1, ready.2, setWorker_self ..⟩)))
        · exact .inl ⟨setWorker_other s here _, rfl, by simpa using Ne.symm here⟩
      · cases step
  | pop v =>
      simp only [notifyStep] at step
      split at step
      · cases step
      · rename_i n notified
        cases step
        by_cases here : w = v
        · subst here
          exact .inr (.inr (.inr (.inr ⟨rfl, rfl, by simp [notified], setWorker_self ..⟩)))
        · exact .inl ⟨setWorker_other s here _, rfl, by simp⟩

theorem balanced_step {s s' : Dispatch} {a : NotifyAction} (step : notifyStep s a = some s') (w : Nat)
    (before : s.Balanced w) : s'.Balanced w := by
  obtain ⟨order, length⟩ := before
  rcases notifyStep_worker step w with ⟨same, owed, -⟩ | ⟨cfd, -, owed, owed', worker⟩ |
    ⟨-, owed, owed', worker⟩ | ⟨-, owed, idle, ready, worker⟩ | ⟨-, owed, notified, worker⟩
  · exact ⟨by rw [same, order], by rw [same, owed, length]⟩
  · refine ⟨by rw [worker, order, List.append_assoc], ?_⟩
    rw [worker, owed']
    simp only [List.length_append, List.length_singleton, Worker.popping] at length ⊢
    omega
  · refine ⟨by rw [worker, order], ?_⟩
    rw [worker, owed']
    simp only [Worker.popping] at length ⊢
    omega
  · refine ⟨by rw [worker, order], ?_⟩
    rw [worker, owed]
    simp only [Worker.popping, idle] at length ⊢
    omega
  -- a pop never meets an empty queue: its own wake-up is still to be answered
  · obtain ⟨n, reading⟩ := Option.ne_none_iff_exists'.mp notified
    simp only [Worker.popping, reading] at length
    cases queue : (s.workers w).queue with
    | nil =>
        rw [queue] at length
        simp only [List.length_nil] at length
        omega
    | cons cfd rest =>
        rw [queue] at length order
        simp only [List.length_cons] at length
        refine ⟨?_, ?_⟩
        · rw [worker, order, queue]
          simp
        · rw [worker, owed, queue]
          simp only [Worker.popping, List.tail_cons]
          omega

/-- Nothing is merged into a run's wake-ups exactly when each of them reads 1. -/
theorem merged_zero_iff (w : Nat) (actions : List NotifyAction) : ∀ {s s' : Dispatch},
    exec notifyStep s actions = some s' →
      ((s'.workers w).merged = 0 ↔ (s.workers w).merged = 0 ∧
        Along notifyStep (fun s a => a = .read w → (s.workers w).notifyFd = 1) s actions) := by
  induction actions with
  | nil =>
      intro s s' run
      cases run
      simp [Along]
  | cons a actions ih =>
      intro s s' run
      obtain ⟨s₁, first, rest⟩ := exec_cons.mp run
      have now : (s₁.workers w).merged = 0 ↔ (s.workers w).merged = 0 ∧
          (a = .read w → (s.workers w).notifyFd = 1) := by
        rcases notifyStep_worker first w with ⟨same, -, other⟩ | ⟨cfd, rfl, -, -, worker⟩ |
          ⟨rfl, -, -, worker⟩ | ⟨rfl, -, -, ready, worker⟩ | ⟨rfl, -, -, worker⟩
        · simp [same, other]
        · simp [worker]
        · simp [worker]
        · rw [worker]
          simp only [forall_const]
          omega
        · simp [worker]
      rw [ih rest, now, and_assoc]
      refine and_congr_right fun _ => ?_
      constructor
      · rintro ⟨here, later⟩ s₂ same
        cases first.symm.trans same
        exact ⟨here, later⟩
      · exact fun along => along s₁ first

/-- Whenever a worker is quiet, everything pushed to it has become a connection exactly when each of
    its wake-ups so far has read 1 from the eventfd. -/
theorem cbNotifyConn_all_given (workerLen : Nat) (actions : List NotifyAction) (s : Dispatch)
    (run : exec notifyStep (.initial workerLen) actions = some s) (w : Nat) (quiet : s.Quiet w) :
    s.AllGiven w ↔
      Along notifyStep (fun s a => a = .read w → (s.workers w).notifyFd = 1) (.initial workerLen)
        actions := by
  obtain ⟨order, length⟩ := exec_invariant (fun _ _ _ step => balanced_step step w) run
    (balanced_initial workerLen w)
  obtain ⟨zero, nothing_owed, idle⟩ := quiet
  have owed : s.owed w = 0 := by
    unfold Dispatch.owed
    split
    · rename_i v pushed
      rw [if_neg (fun same => nothing_owed (by rw [pushed, same]))]
    · rfl
  have merged : (s.workers w).queue.length = (s.workers w).merged := by
    simp only [zero, owed, Worker.popping, idle] at length
    omega
  have along := merged_zero_iff w actions run
  rw [← merged] at along
  constructor
  · rintro ⟨empty, -⟩
    exact (along.mp (by rw [empty]; rfl)).2
  · intro ones
    have empty := List.eq_nil_of_length_eq_zero (along.mpr ⟨rfl, ones⟩)
    exact ⟨empty, by rw [order, empty, List.append_nil]⟩

/-- Two connections for one worker, each noticed before the next is accepted. -/
theorem cbNotifyConn_all_given_oneByOne :
    ∃ s, exec notifyStep (.initial 1)
        [.push 5, .write, .read 0, .pop 0, .push 6, .write, .read 0, .pop 0] = some s ∧
      Along notifyStep (fun s a => a = .read 0 → (s.workers 0).notifyFd = 1) (.initial 1)
        [.push 5, .write, .read 0, .pop 0, .push 6, .write, .read 0, .pop 0] := by
  obtain ⟨s, run⟩ : ∃ s, exec notifyStep (.initial 1)
      [.push 5, .write, .read 0, .pop 0, .push 6, .write, .read 0, .pop 0] = some s := ⟨_, rfl⟩
  have given : s.Quiet 0 ∧ s.AllGiven 0 := by
    cases run
    exact ⟨⟨rfl, by decide, rfl⟩, rfl, rfl⟩
  exact ⟨s, run, (cbNotifyConn_all_given 1 _ s run 0 given.1).mp given.2⟩

/-- Two connections for one worker before it wakes: one wake-up reads 2 and pops once. -/
theorem cbNotifyConn_leaves_conn :
    ¬ ∀ (workerLen : Nat) (actions : List NotifyAction) (s : Dispatch),
      exec notifyStep (.initial workerLen) actions = some s →
        ∀ w, s.Quiet w → s.AllGiven w := by
  intro always
  obtain ⟨s, run⟩ : ∃ s, exec notifyStep (.initial 1)
      [.push 5, .write, .push 6, .write, .read 0, .pop 0] = some s := ⟨_, rfl⟩
  have left : s.Quiet 0 ∧ (s.workers 0).queue = [6] := by
    cases run
    exact ⟨⟨rfl, by decide, rfl⟩, rfl⟩
  obtain ⟨empty, -⟩ := always 1 _ s run 0 left.1
  rw [left.2] at empty
  cases empty

end OpenRpc
