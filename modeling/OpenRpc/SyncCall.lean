import OpenRpc.ClientCalls

/-! # Synchronous calls

`rpc_client_call` on top of the one thread a client has: an eventfd, a record on the caller's stack
that `cb_call` fills, and a `select` with a time-out. The record of thread `t` is always at address
`t`, so a later call of the thread has its record where the earlier one had it. Descriptors are the
lowest free numbers; other code in the process opens and closes descriptors as it likes.
-/

namespace OpenRpc

open Transition Memory

def FD_SETSIZE : Nat := 1024

inductive Descriptor where
  | event (count : Nat)
  | other
  deriving Repr, DecidableEq

/-- The open descriptors of the process, by number. -/
abbrev Descriptors := List (Option Descriptor)

/-- The lowest free number is given to `d`. -/
def openLowest (fds : Descriptors) (d : Descriptor) : Nat × Descriptors :=
  match fds.findIdx? Option.isNone with
  | some fd => (fd, fds.set fd (some d))
  | none => (fds.length, fds ++ [some d])

/-- `write(fd, &n, sizeof(n))` with `n` 1; where `fd` is no eventfd, no eventfd gets it. -/
def writeEvent (fds : Descriptors) (fd : Nat) : Descriptors :=
  match fds[fd]? with
  | some (some (.event count)) => fds.set fd (some (.event (count + 1)))
  | _ => fds

/-- The `rpc_response` on the stack of `rpc_client_call`. -/
structure SyncRecord where
  code : Int
  output : List Byte
  data : Nat
  deriving Repr, DecidableEq

/-- What `select` has returned: 1, 0 or -1. -/
inductive Select where
  | ready
  | timeout
  | failed
  deriving Repr, DecidableEq

/-- Where a thread is in `rpc_client_call`; `k` is the number of its call. -/
inductive SyncPc where
  | idle
  /-- The eventfd is made and `rsp.data` is set. -/
  | opened (fd : Nat)
  /-- In `rpc_client_call_async`, before the push. -/
  | pushing (fd : Nat)
  | selecting (fd k : Nat)
  | selected (fd k : Nat) (rt : Select)
  | closed (k : Nat) (rt : Select)
  /-- `FD_SET` has written outside of the set. -/
  | overrun
  deriving Repr, DecidableEq

structure SyncReturn where
  call : Nat
  code : Int
  deriving Repr, DecidableEq

/-- A client thread with its synchronous callers; `returns` holds what their calls have returned. -/
structure SyncState where
  client : ClientState
  fds : Descriptors
  records : Nat → SyncRecord
  calls : Nat → SyncPc
  /-- The run of `cb_call` that has filled its record and not yet written to the eventfd. -/
  filled : Option CallbackRun
  returns : List SyncReturn

def SyncState.initial (heap : Nat → RpcRequest) (conns : RpcArray) (fds : Descriptors)
    (records : Nat → SyncRecord) : SyncState :=
  ⟨.initial heap conns, fds, records, fun _ => .idle, none, []⟩

/-- `cb_call` up to its `write`. -/
def cbCall (s : SyncState) (run : CallbackRun) : SyncState :=
  { s with records := Function.update s.records run.data
             { s.records run.data with code := run.code, output := run.output }
           filled := some run }

/-- The `write` of `cb_call`: the number of the eventfd is what the record holds by then. -/
def cbCallWrite (s : SyncState) (run : CallbackRun) : SyncState :=
  { s with fds := writeEvent s.fds (s.records run.data).data
           filled := none }

/-- What `rpc_client_call` returns. -/
def returnCode (rt : Select) (rsp : SyncRecord) : Int :=
  match rt with
  | .failed => RpcCode.unkown.num
  | .timeout => RpcCode.timeout.num
  | .ready => rsp.code

/-- The steps of a client thread that neither callers take nor `cb_call`; `cb_rsp_read` goes on when
    `cb_call` has returned. -/
def SyncState.admits (s : SyncState) : ClientAction → Bool
  | .call .. | .push _ | .callback => false
  | .remove => s.filled.isNone
  | _ => true

inductive SyncAction where
  | open (t : Nat)
  /-- `rpc_client_call_async` up to its push. -/
  | request (t : Nat) (args : CallArgs) (fresh : Nat)
  /-- The push, and `FD_SET`. -/
  | push (t : Nat)
  | wake (t : Nat)
  | timeout (t : Nat)
  | fail (t : Nat)
  | close (t : Nat)
  | return (t : Nat)
  | client (a : ClientAction)
  /-- The callback step of `cb_rsp_read`, up to the `write` of `cb_call`. -/
  | callback
  | write
  | openOther
  | closeOther (fd : Nat)

def SyncState.setCall (s : SyncState) (t : Nat) (pc : SyncPc) : SyncState :=
  { s with calls := Function.update s.calls t pc }

def syncStep : Step SyncState SyncAction
  | s, .open t =>
      match s.calls t with
      | .idle =>
          let (fd, fds) := openLowest s.fds (.event 0)
          some { s.setCall t (.opened fd) with
                 fds := fds
                 records := Function.update s.records t { s.records t with data := fd } }
      | _ => none
  | s, .request t args fresh =>
      match s.calls t with
      | .opened fd =>
          -- the callback is `cb_call`, its data the record
          match clientStep s.client (.call t { args with data := t } fresh) with
          | some client => some { s.setCall t (.pushing fd) with client := client }
          | none => none
      | _ => none
  | s, .push t =>
      match s.calls t with
      | .pushing fd =>
          match clientStep s.client (.push t) with
          | some client =>
              let pc := if fd < FD_SETSIZE then .selecting fd s.client.issued.length else .overrun
              some { s.setCall t pc with client := client }
          | none => none
      | _ => none
  | s, .wake t =>
      match s.calls t with
      | .selecting fd k =>
          match s.fds[fd]? with
          | some (some (.event (_ + 1))) => some (s.setCall t (.selected fd k .ready))
          | _ => none
      | _ => none
  | s, .timeout t =>
      match s.calls t with
      | .selecting fd k =>
          match s.fds[fd]? with
          | some (some (.event 0)) => some (s.setCall t (.selected fd k .timeout))
          | _ => none
      | _ => none
  | s, .fail t =>
      match s.calls t with
      | .selecting fd k => some (s.setCall t (.selected fd k .failed))
      | _ => none
  | s, .close t =>
      match s.calls t with
      | .selected fd k rt => some { s.setCall t (.closed k rt) with fds := s.fds.set fd none }
      | _ => none
  | s, .return t =>
      match s.calls t with
      | .closed k rt =>
          some { s.setCall t .idle with
                 returns := s.returns ++ [⟨k, returnCode rt (s.records t)⟩] }
      | _ => none
  | s, .client a =>
      if s.admits a then
        match clientStep s.client a with
        | some client => some { s with client := client }
        | none => none
      else none
  | s, .callback =>
      match clientStep s.client .callback with
      | some client =>
          match client.callbacks.drop s.client.callbacks.length with
          | run :: _ => some (cbCall { s with client := client } run)
          | [] => some { s with client := client }
      | none => none
  | s, .write =>
      match s.filled with
      | some run => some (cbCallWrite s run)
      | none => none
  | s, .openOther => some { s with fds := (openLowest s.fds .other).2 }
  | s, .closeOther fd =>
      match s.fds[fd]? with
      | some (some .other) => some { s with fds := s.fds.set fd none }
      | _ => none

namespace SyncState

def Event (s : SyncState) (fd count : Nat) : Prop := s.fds[fd]? = some (some (.event count))

/-- Call `k` is in `select`, and the record at `data` and the eventfd in it are its own. -/
def Waits (s : SyncState) (data k : Nat) : Prop :=
  ∃ fd, s.calls data = .selecting fd k ∧ (s.records data).data = fd ∧ ∃ count, s.Event fd count

/-- The response of call `k` is with `cb_rsp_read`, before `cb_call` or in it. -/
def Handles (s : SyncState) (k : Nat) : Prop :=
  (∃ rsp p, s.client.reader = .got rsp p ∧ rsp.call = k) ∨ ∃ run, s.filled = some run ∧ run.call = k

/-- A call has not returned anything but a time-out or a failure without its own `cb_call`; whenever
    `cb_call` is about to run or runs, it does so with what belongs to a call that waits for it; and
    no stack was overrun. -/
structure Sound (s : SyncState) : Prop where
  own : ∀ ret ∈ s.returns, ret.code ≠ RpcCode.timeout.num → ret.code ≠ RpcCode.unkown.num →
    s.client.Completed ret.call
  alive : ∀ rsp req, s.client.reader = .got rsp (some (some req)) →
    s.Waits (s.client.heap req).data (s.client.callOf req)
  running : ∀ run, s.filled = some run → s.Waits run.data run.call
  inside : ∀ t, s.calls t ≠ .overrun

end SyncState

/-- No response is taken from a connection whose call has given up, no call gives up on a response
    that `cb_rsp_read` is handling, and no eventfd is too large for `select`. -/
def Awaited (s : SyncState) : SyncAction → Prop
  | .push t => ∀ fd, s.calls t = .pushing fd → fd < FD_SETSIZE
  | .timeout t | .fail t => ∀ fd k, s.calls t = .selecting fd k → ¬ s.Handles k
  | .client (.read conn) => ∀ rsp rest, s.client.toClient conn = rsp :: rest →
      ∃ t fd, s.calls t = .selecting fd rsp.call
  | _ => True

theorem openLowest_spec (fds : Descriptors) (d : Descriptor) :
    ∃ (fd : Nat) (fds' : Descriptors), openLowest fds d = (fd, fds') ∧ fds'[fd]? = some (some d) ∧
      (∀ x : Descriptor, fds[fd]? ≠ some (some x)) ∧
      ∀ (i : Nat) (x : Descriptor), fds[i]? = some (some x) → fds'[i]? = some (some x) := by
  unfold openLowest
  split
  · rename_i fd first
    obtain ⟨bound, empty, -⟩ := List.findIdx?_eq_some_iff_getElem.mp first
    have free : ∀ x : Descriptor, fds[fd]? ≠ some (some x) := by
      intro x full
      rw [List.getElem?_eq_getElem bound] at full
      rw [Option.some.inj full] at empty
      cases empty
    refine ⟨fd, _, rfl, List.getElem?_set_self bound, free, fun i x here => ?_⟩
    refine (List.getElem?_set_ne ?_).trans here
    rintro rfl
    exact free x here
  · refine ⟨fds.length, _, rfl, List.getElem?_concat_length, fun x full => ?_, fun i x here => ?_⟩
    · exact (Nat.lt_irrefl _ (List.getElem?_eq_some_iff.mp full).1).elim
    · exact (List.getElem?_append_left (List.getElem?_eq_some_iff.mp here).1).trans here

theorem writeEvent_self {fds : Descriptors} {fd count : Nat}
    (here : fds[fd]? = some (some (.event count))) :
    (writeEvent fds fd)[fd]? = some (some (.event (count + 1))) := by
  rw [writeEvent, here]
  exact List.getElem?_set_self (List.getElem?_eq_some_iff.mp here).1

theorem writeEvent_other {fds : Descriptors} {fd i : Nat} (other : i ≠ fd) :
    (writeEvent fds fd)[i]? = fds[i]? := by
  unfold writeEvent
  split
  · exact List.getElem?_set_ne other.symm
  · rfl

end OpenRpc
