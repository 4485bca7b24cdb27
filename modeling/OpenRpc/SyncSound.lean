import OpenRpc.SyncCall

/-! # Synchronous calls that wait for their responses -/

namespace OpenRpc

open Transition Memory

/-- The eventfd a call has open. -/
def SyncPc.fd? : SyncPc → Option Nat
  | .opened fd | .pushing fd | .selecting fd _ | .selected fd _ _ => some fd
  | _ => none

/-- What holds of thread `t` at this place. -/
def SyncPc.Frame (pc : SyncPc) (s : SyncState) (t : Nat) : Prop :=
  match pc with
  | .idle => True
  | .opened fd => s.Event fd 0 ∧ (s.records t).data = fd
  | .pushing fd => s.Event fd 0 ∧ (s.records t).data = fd ∧
      ∃ call, s.client.callers t = some call ∧ call.args.data = t
  | .selecting fd k => (∃ count, s.Event fd count ∧ (0 < count → s.client.Completed k)) ∧
      (s.records t).data = fd ∧
      ∃ issued, s.client.issued[k]? = some issued ∧ issued.args.data = t
  | .selected fd k rt => (∃ count, s.Event fd count) ∧ (rt = .ready → s.client.Completed k)
  | .closed k rt => rt = .ready → s.client.Completed k
  | .overrun => False

/-- `cb_call` has filled the record of a call that is in `select` and not yet woken. -/
def SyncState.Filled (s : SyncState) (run : CallbackRun) : Prop :=
  ∃ fd, s.calls run.data = .selecting fd run.call ∧ s.Event fd 0 ∧ s.client.Completed run.call

structure Waiting (s : SyncState) : Prop where
  matching : ∃ place session, Matching s.client place session
  reading : ∀ rsp p, s.client.reader = .got rsp p → ∃ t fd, s.calls t = .selecting fd rsp.call
  filled : ∀ run, s.filled = some run → s.Filled run
  frames : ∀ t, (s.calls t).Frame s t
  apart : ∀ t v fd, (s.calls t).fd? = some fd → (s.calls v).fd? = some fd → t = v
  own : ∀ ret ∈ s.returns, ret.code ≠ RpcCode.timeout.num → ret.code ≠ RpcCode.unkown.num →
    s.client.Completed ret.call

/-- The client thread goes on without undoing anything that matters to thread `v`. -/
structure ClientState.GoesOn (c c' : ClientState) (v : Nat) : Prop where
  completed : ∀ k, c.Completed k → c'.Completed k
  issued : ∀ (k : Nat) (call : Issued), c.issued[k]? = some call → c'.issued[k]? = some call
  caller : ∀ call, c.callers v = some call → c'.callers v = some call

theorem ClientState.GoesOn.refl (c : ClientState) (v : Nat) : c.GoesOn c v :=
  ⟨fun _ h => h, fun _ _ h => h, fun _ h => h⟩

section Client

variable {c c' : ClientState} {v : Nat}

theorem clientStep_goesOn {a : ClientAction} (step : clientStep c a = some c') (no_push : a ≠ .push v)
    (no_call : ∀ args fresh, a ≠ .call v args fresh) : c.GoesOn c' v := by
  cases clientStep_moves step with
  | @call t args fresh req s₁ idle new =>
      obtain ⟨freelist, allocated, rfl⟩ := rpcRequestNew_frame new
      have other : v ≠ t := by
        rintro rfl
        exact no_call args fresh rfl
      exact ⟨fun _ h => h, fun _ _ h => h, fun call here => (Function.update_of_ne other ..).trans here⟩
  | @push t req args here =>
      have other : v ≠ t := by
        rintro rfl
        exact no_push rfl
      refine ⟨fun _ h => h, fun k call here => ?_, fun call here => ?_⟩
      · exact (List.getElem?_append_left (List.getElem?_eq_some_iff.mp here).1).trans here
      · exact (Function.update_of_ne other ..).trans here
  | callback rsp req got same =>
      refine ⟨fun k h => ?_, fun _ _ h => h, fun _ h => h⟩
      simp only [ClientState.Completed, ClientState.completed, List.map_append]
      exact List.mem_append_left _ h
  | pop | insert | stamp | send | receive | answer | read | unequal | remove | free =>
      exact ⟨fun _ h => h, fun _ _ h => h, fun _ h => h⟩

theorem reader_got {a : ClientAction} (step : clientStep c a = some c')
    (no_read : ∀ conn, a ≠ .read conn) {rsp : SentResponse} {p : Option (Option Nat)}
    (got : c'.reader = .got rsp p) : c.reader = .got rsp p := by
  cases clientStep_moves step with
  | read rsp' rest idle channel => exact absurd rfl (no_read _)
  | call req s₁ idle new =>
      obtain ⟨freelist, allocated, rfl⟩ := rpcRequestNew_frame new
      exact got
  | push | pop | insert | stamp | send | receive | answer => exact got
  | unequal | callback | remove | free => cases got

end Client

section Frames

variable {s s' : SyncState} {t : Nat} {pc : SyncPc}

/-- What holds of a thread goes on holding while its record, its eventfd and the client do. -/
theorem frame_goesOn (frame : pc.Frame s t) (fds : ∀ fd, pc.fd? = some fd → s'.fds[fd]? = s.fds[fd]?)
    (record : (s'.records t).data = (s.records t).data) (client : s.client.GoesOn s'.client t) :
    pc.Frame s' t := by
  cases pc with
  | idle => trivial
  | opened fd =>
      obtain ⟨event, data⟩ := frame
      exact ⟨(fds fd rfl).trans event, record.trans data⟩
  | pushing fd =>
      obtain ⟨event, data, call, caller, mine⟩ := frame
      exact ⟨(fds fd rfl).trans event, record.trans data, call, client.caller call caller, mine⟩
  | selecting fd k =>
      obtain ⟨⟨count, event, done⟩, data, call, issued, mine⟩ := frame
      exact ⟨⟨count, (fds fd rfl).trans event, fun some => client.completed k (done some)⟩,
        record.trans data, call, client.issued k call issued, mine⟩
  | selected fd k rt =>
      obtain ⟨⟨count, event⟩, done⟩ := frame
      exact ⟨⟨count, (fds fd rfl).trans event⟩, fun ready => client.completed k (done ready)⟩
  | closed k rt => exact fun ready => client.completed k (frame ready)
  | overrun => exact frame

theorem event_of_frame (frame : pc.Frame s t) {fd : Nat} (mine : pc.fd? = some fd) :
    ∃ count, s.Event fd count := by
  cases pc with
  | idle | closed | overrun => cases mine
  | opened fd' =>
      cases mine
      exact ⟨0, frame.1⟩
  | pushing fd' =>
      cases mine
      exact ⟨0, frame.1⟩
  | selecting fd' k =>
      cases mine
      obtain ⟨⟨count, event, -⟩, -⟩ := frame
      exact ⟨count, event⟩
  | selected fd' k rt =>
      cases mine
      exact frame.1

end Frames

section Steps

variable {s s' : SyncState}

theorem got_uncompleted (matching : ∃ place session, Matching s.client place session)
    {rsp : SentResponse} {p : Option (Option Nat)} (got : s.client.reader = .got rsp p) :
    ¬ s.client.Completed rsp.call ∧ ∃ req, p = some (some req) ∧ s.client.callOf req = rsp.call ∧
      (s.client.heap req).seq = rsp.seq ∧
      ∃ args, s.client.issued[rsp.call]? = some ⟨req, args⟩ ∧
        (s.client.heap req).data = args.data := by
  obtain ⟨place, session, matching⟩ := matching
  obtain ⟨req, pointer, seq, entry⟩ := got_found matching got
  obtain ⟨objects, inFlight, books⟩ := matching
  obtain ⟨call, -, -⟩ : (Phase.reading rsp).Carries (s.client.callOf req) (s.client.heap req)
    s.client.answers := inFlight.carries _ req _ entry
  have uncalled := books.uncalled req (.inr ⟨rsp.seq, _, entry, (by simp)⟩)
  have live : (place req).Live := by
    rw [(objects.slot req rsp.seq).mpr ⟨_, entry⟩]
    trivial
  obtain ⟨args, issued, content⟩ := books.content req live
  rw [← call] at uncalled issued
  exact ⟨uncalled.2, req, pointer, call.symm, seq, args, issued, congrArg RpcRequest.data content⟩

theorem selecting_inj (waiting : Waiting s) {t v fd fd' k : Nat} (here : s.calls t = .selecting fd k)
    (there : s.calls v = .selecting fd' k) : t = v := by
  have frame := waiting.frames t
  rw [here] at frame
  have frame' := waiting.frames v
  rw [there] at frame'
  obtain ⟨-, -, call, issued, mine⟩ := frame
  obtain ⟨-, -, call', issued', mine'⟩ := frame'
  cases issued.symm.trans issued'
  exact mine.symm.trans mine'

theorem frame_of_eq (waiting : Waiting s) {t : Nat} {pc : SyncPc} (here : s.calls t = pc) :
    pc.Frame s t :=
  here ▸ waiting.frames t

/-- Thread `t` moves on, and leaves to the others what is theirs. -/
structure SyncState.MovesOn (s s' : SyncState) (t : Nat) (pc : SyncPc) : Prop where
  calls : s'.calls = Function.update s.calls t pc
  filled : s'.filled = s.filled
  reader : ∀ rsp p, s'.client.reader = .got rsp p → s.client.reader = .got rsp p
  fds : ∀ v fd, v ≠ t → (s.calls v).fd? = some fd → s'.fds[fd]? = s.fds[fd]?
  records : ∀ v, v ≠ t → (s'.records v).data = (s.records v).data
  client : ∀ v, v ≠ t → s.client.GoesOn s'.client v

/-- The rule for a step of thread `t`: it is not in `select` on what `cb_rsp_read` handles, its new
    eventfd is the one it had or nobody's, and its frame at the new place holds. -/
theorem waiting_move (waiting : Waiting s) {t : Nat} {pc : SyncPc} (moves : s.MovesOn s' t pc)
    (free : ∀ fd k, s.calls t = .selecting fd k → ¬ s.Handles k)
    (matching : ∃ place session, Matching s'.client place session) (frame : pc.Frame s' t)
    (mine : ∀ fd, pc.fd? = some fd →
      (s.calls t).fd? = some fd ∨ ∀ v, (s.calls v).fd? ≠ some fd)
    (own : ∀ ret ∈ s'.returns, ret ∈ s.returns ∨
      (ret.code ≠ RpcCode.timeout.num → ret.code ≠ RpcCode.unkown.num →
        s.client.Completed ret.call)) : Waiting s' := by
  have others : ∀ v, v ≠ t → s'.calls v = s.calls v := by
    intro v other
    rw [moves.calls, Function.update_of_ne other]
  have self : s'.calls t = pc := by rw [moves.calls, Function.update_self]
  -- some thread is not `t`, and the client goes on for it
  have completed := (moves.client (t + 1) (Nat.succ_ne_self t)).completed
  refine ⟨matching, fun rsp p got => ?_, fun run here => ?_, fun v => ?_, fun u v fd first second => ?_,
    fun ret member no_timeout no_failure => ?_⟩
  · obtain ⟨v, fd, selecting⟩ := waiting.reading rsp p (moves.reader rsp p got)
    refine ⟨v, fd, (others v ?_).trans selecting⟩
    rintro rfl
    exact free fd rsp.call selecting (.inl ⟨rsp, p, moves.reader rsp p got, rfl⟩)
  · rw [moves.filled] at here
    obtain ⟨fd, selecting, event, done⟩ := waiting.filled run here
    have other : run.data ≠ t := by
      intro same
      exact free fd run.call (same ▸ selecting) (.inr ⟨run, here, rfl⟩)
    refine ⟨fd, (others _ other).trans selecting, ?_, completed _ done⟩
    exact (moves.fds run.data fd other (by rw [selecting]; rfl)).trans event
  · by_cases same : v = t
    · rw [same, self]
      exact frame
    · rw [others v same]
      exact frame_goesOn (waiting.frames v) (fun fd => moves.fds v fd same) (moves.records v same)
        (moves.client v same)
  · by_cases left : u = t
    · by_cases right : v = t
      · rw [left, right]
      · rw [left, self] at first
        rw [others v right] at second
        rcases mine fd first with had | nobody
        · exact left.trans (waiting.apart t v fd had second)
        · exact absurd second (nobody v)
    · rw [others u left] at first
      by_cases right : v = t
      · rw [right, self] at second
        rcases mine fd second with had | nobody
        · exact (waiting.apart u t fd first had).trans right.symm
        · exact absurd first (nobody u)
      · rw [others v right] at second
        exact waiting.apart u v fd first second
  · apply completed
    rcases own ret member with before | last
    · exact waiting.own ret before no_timeout no_failure
    · exact last no_timeout no_failure

theorem waiting_open (waiting : Waiting s) {t : Nat} (step : syncStep s (.open t) = some s') :
    Waiting s' := by
  simp only [syncStep] at step
  split at step
  · rename_i idle
    obtain ⟨fd, fds, opened, event, free, kept⟩ := openLowest_spec s.fds (.event 0)
    rw [opened] at step
    cases step
    have moves : s.MovesOn { s.setCall t (.opened fd) with
        fds := fds
        records := Function.update s.records t { s.records t with data := fd } } t (.opened fd) := by
      refine ⟨rfl, rfl, fun _ _ h => h, fun v fd' _ here => ?_, fun v other => ?_, fun _ _ => .refl ..⟩
      · obtain ⟨count, busy⟩ := event_of_frame (waiting.frames v) here
        exact (kept fd' _ busy).trans busy.symm
      · exact congrArg SyncRecord.data (Function.update_of_ne other ..)
    refine waiting_move waiting moves (fun fd' k here => ?_) waiting.matching ⟨event, ?_⟩
      (fun fd' mine => .inr fun v here => ?_) (fun _ => .inl)
    · cases idle.symm.trans here
    · simp only [Function.update_self]
    · cases mine
      obtain ⟨count, busy⟩ := event_of_frame (waiting.frames v) here
      exact free _ busy
  · cases step

theorem waiting_request (waiting : Waiting s) {t : Nat} {args : CallArgs} {fresh : Nat}
    (step : syncStep s (.request t args fresh) = some s') : Waiting s' := by
  simp only [syncStep] at step
  split at step
  · rename_i fd opened
    split at step
    · rename_i client call
      cases step
      obtain ⟨event, record⟩ := frame_of_eq waiting opened
      have mine : ∃ made, client.callers t = some made ∧ made.args.data = t := by
        simp only [clientStep] at call
        split at call
        · rename_i req s₁ idle new
          cases call
          exact ⟨⟨req, _⟩, Function.update_self .., rfl⟩
        · cases call
      have moves : s.MovesOn { s.setCall t (.pushing fd) with client := client } t (.pushing fd) := by
        refine ⟨rfl, rfl, fun _ _ => reader_got call (by simp), fun _ _ _ _ => rfl, fun _ _ => rfl,
          fun v other => clientStep_goesOn call (by simp) fun args' fresh' same => ?_⟩
        cases same
        exact other rfl
      refine waiting_move waiting moves (fun fd' k here => ?_)
        (clientStep_keeps call waiting.matching) ⟨event, record, mine⟩ (fun fd' here => .inl ?_)
        (fun _ => .inl)
      · cases opened.symm.trans here
      · rw [opened]
        exact here
    · cases step
  · cases step

theorem waiting_push (waiting : Waiting s) {t : Nat} (awaited : Awaited s (.push t))
    (step : syncStep s (.push t) = some s') : Waiting s' := by
  simp only [syncStep] at step
  split at step
  · rename_i fd pushing
    split at step
    · rename_i client push
      rw [if_pos (awaited fd pushing)] at step
      cases step
      obtain ⟨event, record, call, caller, mine⟩ := frame_of_eq waiting pushing
      have issued : client.issued[s.client.issued.length]? = some call := by
        simp only [clientStep, caller] at push
        cases push
        exact List.getElem?_concat_length
      have moves : s.MovesOn { s.setCall t (.selecting fd s.client.issued.length) with
          client := client } t (.selecting fd s.client.issued.length) := by
        refine ⟨rfl, rfl, fun _ _ => reader_got push (by simp), fun _ _ _ _ => rfl, fun _ _ => rfl,
          fun v other => clientStep_goesOn push (fun same => ?_) (by simp)⟩
        cases same
        exact other rfl
      refine waiting_move waiting moves (fun fd' k here => ?_)
        (clientStep_keeps push waiting.matching) ⟨⟨0, event, (by simp)⟩, record, _, issued, mine⟩
        (fun fd' here => .inl ?_) (fun _ => .inl)
      · cases pushing.symm.trans here
      · rw [pushing]
        exact here
    · cases step
  · cases step

theorem waiting_selected (waiting : Waiting s) {t fd k : Nat} {rt : Select}
    (selecting : s.calls t = .selecting fd k) (free : ¬ s.Handles k)
    (ready : rt = .ready → s.client.Completed k) : Waiting (s.setCall t (.selected fd k rt)) := by
  obtain ⟨⟨count, event, -⟩, -⟩ := frame_of_eq waiting selecting
  have moves : s.MovesOn (s.setCall t (.selected fd k rt)) t (.selected fd k rt) :=
    ⟨rfl, rfl, fun _ _ h => h, fun _ _ _ _ => rfl, fun _ _ => rfl, fun _ _ => .refl ..⟩
  refine waiting_move waiting moves (fun fd' k' here => ?_) waiting.matching ⟨⟨count, event⟩, ready⟩
    (fun fd' here => .inl ?_) (fun _ => .inl)
  · cases selecting.symm.trans here
    exact free
  · rw [selecting]
    exact here

theorem waiting_wake (waiting : Waiting s) {t : Nat} (step : syncStep s (.wake t) = some s') :
    Waiting s' := by
  simp only [syncStep] at step
  split at step
  · rename_i fd k selecting
    split at step
    · rename_i count event
      cases step
      obtain ⟨⟨count', event', done⟩, -⟩ := frame_of_eq waiting selecting
      cases event.symm.trans event'
      have completed := done (Nat.succ_pos _)
      refine waiting_selected waiting selecting (fun handles => ?_) fun _ => completed
      rcases handles with ⟨rsp, p, got, rfl⟩ | ⟨run, filled, rfl⟩
      · exact (got_uncompleted waiting.matching got).1 completed
      · obtain ⟨fd', there, unwritten, -⟩ := waiting.filled run filled
        have same := selecting_inj waiting selecting there
        subst same
        cases selecting.symm.trans there
        cases event.symm.trans unwritten
    · cases step
  · cases step

theorem waiting_close (waiting : Waiting s) {t : Nat} (step : syncStep s (.close t) = some s') :
    Waiting s' := by
  simp only [syncStep] at step
  split at step
  · rename_i fd k rt selected
    cases step
    obtain ⟨-, ready⟩ := frame_of_eq waiting selected
    have moves : s.MovesOn { s.setCall t (.closed k rt) with fds := s.fds.set fd none } t
        (.closed k rt) := by
      refine ⟨rfl, rfl, fun _ _ h => h, fun v fd' other here => List.getElem?_set_ne ?_,
        fun _ _ => rfl, fun _ _ => .refl ..⟩
      rintro rfl
      exact other (waiting.apart v t fd here (by rw [selected]; rfl))
    refine waiting_move waiting moves (fun fd' k' here => ?_) waiting.matching ready
      (by simp [SyncPc.fd?]) (fun _ => .inl)
    cases selected.symm.trans here
  · cases step

theorem waiting_return (waiting : Waiting s) {t : Nat} (step : syncStep s (.return t) = some s') :
    Waiting s' := by
  simp only [syncStep] at step
  split at step
  · rename_i k rt closed
    cases step
    have ready : rt = .ready → s.client.Completed k := frame_of_eq waiting closed
    have moves : s.MovesOn { s.setCall t .idle with
        returns := s.returns ++ [⟨k, returnCode rt (s.records t)⟩] } t .idle :=
      ⟨rfl, rfl, fun _ _ h => h, fun _ _ _ _ => rfl, fun _ _ => rfl, fun _ _ => .refl ..⟩
    refine waiting_move waiting moves (fun fd' k' here => ?_) waiting.matching trivial
      (by simp [SyncPc.fd?]) (fun ret member => ?_)
    · cases closed.symm.trans here
    · rcases List.mem_append.mp member with before | last
      · exact .inl before
      · refine .inr fun no_timeout no_failure => ?_
        rw [List.mem_singleton] at last
        subst last
        cases rt with
        | ready => exact ready rfl
        | timeout => exact absurd rfl no_timeout
        | failed => exact absurd rfl no_failure
  · cases step

theorem waiting_client (waiting : Waiting s) {a : ClientAction} (awaited : Awaited s (.client a))
    (step : syncStep s (.client a) = some s') : Waiting s' := by
  obtain ⟨matching, reading, filled, frames, apart, own⟩ := waiting
  simp only [syncStep] at step
  split at step
  · rename_i admits
    split at step
    · rename_i client next
      cases step
      have goesOn : ∀ v, s.client.GoesOn client v := by
        intro v
        refine clientStep_goesOn next ?_ ?_
        · rintro rfl
          cases admits
        · rintro args fresh rfl
          cases admits
      refine ⟨clientStep_keeps next matching, ?_, fun run here => ?_, fun v => ?_, apart, ?_⟩
      · intro rsp p got
        by_cases read : ∃ conn, a = .read conn
        · obtain ⟨conn, rfl⟩ := read
          simp only [clientStep] at next
          split at next
          · rename_i rsp' rest idle channel
            cases next
            cases got
            exact awaited rsp rest channel
          · cases next
        · exact reading rsp p (reader_got next (fun conn same => read ⟨conn, same⟩) got)
      · obtain ⟨fd, selecting, event, done⟩ := filled run here
        exact ⟨fd, selecting, event, (goesOn 0).completed _ done⟩
      · exact frame_goesOn (frames v) (fun _ _ => rfl) rfl (goesOn v)
      · exact fun ret member left right => (goesOn 0).completed _ (own ret member left right)
    · cases step
  · cases step

/-- The record that `cb_call` fills is that of the call it runs for, which is in `select`. -/
theorem waiting_callback (waiting : Waiting s) (step : syncStep s .callback = some s') :
    Waiting s' := by
  obtain ⟨matching, reading, -, frames, apart, own⟩ := waiting
  simp only [syncStep] at step
  split at step
  · rename_i client next
    have goesOn : ∀ v, s.client.GoesOn client v := fun v =>
      clientStep_goesOn next (by simp) (by simp)
    have keeps := clientStep_keeps next matching
    simp only [clientStep] at next
    split at next
    · rename_i rsp req got
      obtain ⟨uncompleted, req', pointer, call, seq, request, issued, data⟩ :=
        got_uncompleted matching got
      cases pointer
      rw [if_neg (fun other => other seq)] at next
      cases next
      simp only [List.drop_left] at step
      cases step
      obtain ⟨t, fd, selecting⟩ := reading rsp _ got
      have frame := frames t
      rw [selecting] at frame
      obtain ⟨⟨count, event, done⟩, record, call', issued', mine⟩ := frame
      cases issued.symm.trans issued'
      have address : (s.client.heap req).data = t := data.trans mine
      have untouched : count = 0 :=
        Nat.eq_zero_of_not_pos fun some => uncompleted (done some)
      subst untouched
      refine ⟨keeps, fun _ _ got => (by cases got), fun run here => ?_, fun v => ?_, apart, ?_⟩
      · cases here
        refine ⟨fd, ?_, event, ?_⟩
        · show s.calls (s.client.heap req).data = .selecting fd (s.client.callOf req)
          rw [address, call, selecting]
        · simp [cbCall, ClientState.Completed, ClientState.completed]
      · refine frame_goesOn (frames v) (fun _ _ => rfl) ?_ (goesOn v)
        by_cases same : v = (s.client.heap req).data
        · simp only [cbCall, same, Function.update_self]
        · exact congrArg SyncRecord.data (Function.update_of_ne same ..)
      · exact fun ret member left right => (goesOn 0).completed _ (own ret member left right)
    · cases next
  · cases step

theorem waiting_write (waiting : Waiting s) (step : syncStep s .write = some s') : Waiting s' := by
  simp only [syncStep] at step
  split at step
  · rename_i run filled
    cases step
    obtain ⟨fd, selecting, event, done⟩ := waiting.filled run filled
    obtain ⟨-, record, call⟩ := frame_of_eq waiting selecting
    refine ⟨waiting.matching, waiting.reading, fun _ here => (by cases here), fun v => ?_,
      waiting.apart, waiting.own⟩
    by_cases here : v = run.data
    · subst here
      show (s.calls run.data).Frame _ run.data
      rw [selecting]
      refine ⟨⟨1, ?_, fun _ => done⟩, record, call⟩
      show (writeEvent s.fds (s.records run.data).data)[fd]? = _
      rw [record]
      exact writeEvent_self event
    · refine frame_goesOn (waiting.frames v) (fun fd' theirs => ?_) rfl (.refl ..)
      show (writeEvent s.fds (s.records run.data).data)[fd']? = _
      rw [record]
      apply writeEvent_other
      rintro rfl
      exact here (waiting.apart v run.data fd' theirs (by rw [selecting]; rfl))
  · cases step

theorem waiting_fds (waiting : Waiting s) {fds : Descriptors}
    (kept : ∀ fd count, s.Event fd count → fds[fd]? = s.fds[fd]?) :
    Waiting { s with fds := fds } := by
  obtain ⟨matching, reading, filled, frames, apart, own⟩ := waiting
  refine ⟨matching, reading, fun run here => ?_, fun v => ?_, apart, own⟩
  · obtain ⟨fd, selecting, event, done⟩ := filled run here
    exact ⟨fd, selecting, (kept fd 0 event).trans event, done⟩
  · refine frame_goesOn (frames v) (fun fd mine => ?_) rfl (.refl ..)
    obtain ⟨count, event⟩ := event_of_frame (frames v) mine
    exact kept fd count event

theorem waiting_step {a : SyncAction} (awaited : Awaited s a) (step : syncStep s a = some s')
    (waiting : Waiting s) : Waiting s' := by
  cases a with
  | «open» t => exact waiting_open waiting step
  | request t args fresh => exact waiting_request waiting step
  | push t => exact waiting_push waiting awaited step
  | wake t => exact waiting_wake waiting step
  | timeout t =>
      simp only [syncStep] at step
      split at step
      · rename_i fd k selecting
        split at step
        · cases step
          exact waiting_selected waiting selecting (awaited fd k selecting) (by simp)
        · cases step
      · cases step
  | fail t =>
      simp only [syncStep] at step
      split at step
      · rename_i fd k selecting
        cases step
        exact waiting_selected waiting selecting (awaited fd k selecting) (by simp)
      · cases step
  | close t => exact waiting_close waiting step
  | «return» t => exact waiting_return waiting step
  | client a => exact waiting_client waiting awaited step
  | callback => exact waiting_callback waiting step
  | write => exact waiting_write waiting step
  | openOther =>
      cases step
      obtain ⟨fd, fds, opened, -, -, kept⟩ := openLowest_spec s.fds .other
      rw [opened]
      exact waiting_fds waiting fun fd' count event => (kept fd' _ event).trans event.symm
  | closeOther fd =>
      simp only [syncStep] at step
      split at step
      · rename_i other
        cases step
        refine waiting_fds waiting fun fd' count event => List.getElem?_set_ne ?_
        rintro rfl
        cases event.symm.trans other
      · cases step

theorem sound_of_waiting (waiting : Waiting s) : s.Sound where
  own := waiting.own
  alive := by
    intro rsp req got
    obtain ⟨t, fd, here⟩ := waiting.reading rsp _ got
    obtain ⟨-, req', pointer, call, -, request, issued, data⟩ := got_uncompleted waiting.matching got
    cases pointer
    obtain ⟨⟨count, event, -⟩, record, call', issued', mine⟩ := frame_of_eq waiting here
    cases issued.symm.trans issued'
    rw [data, mine, call]
    exact ⟨fd, here, record, count, event⟩
  running := by
    intro run filled
    obtain ⟨fd, here, event, -⟩ := waiting.filled run filled
    obtain ⟨-, record, -⟩ := frame_of_eq waiting here
    exact ⟨fd, here, record, 0, event⟩
  inside := by
    intro t here
    exact frame_of_eq waiting here

end Steps

theorem waiting_initial (heap : Nat → RpcRequest) (conns : RpcArray) (fds : Descriptors)
    (records : Nat → SyncRecord) : Waiting (.initial heap conns fds records) where
  matching := ⟨_, _, matching_initial heap conns⟩
  reading := by simp [SyncState.initial, ClientState.initial]
  filled := by simp [SyncState.initial]
  frames := fun _ => trivial
  apart := by simp [SyncState.initial, SyncPc.fd?]
  own := by simp [SyncState.initial]

/-- A call that leaves `select` while its response is handled leaves `cb_call` with what is not its
    own any more. -/
theorem unhandled_of_sound {s : SyncState} (waiting : Waiting s) {t fd k : Nat} {rt : Select}
    (selecting : s.calls t = .selecting fd k) (after : (s.setCall t (.selected fd k rt)).Sound) :
    ¬ s.Handles k := by
  have gone : ∀ data, ¬ (s.setCall t (.selected fd k rt)).Waits data k := by
    rintro data ⟨fd', here, -⟩
    by_cases same : data = t
    · simp only [SyncState.setCall, same, Function.update_self] at here
      cases here
    · simp only [SyncState.setCall, Function.update_of_ne same] at here
      exact same (selecting_inj waiting here selecting)
  rintro (⟨rsp, p, got, rfl⟩ | ⟨run, filled, rfl⟩)
  · obtain ⟨-, req, rfl, call, -⟩ := got_uncompleted waiting.matching got
    have waits := after.alive rsp req got
    rw [show (s.setCall t (.selected fd rsp.call rt)).client.callOf req = rsp.call from call] at waits
    exact gone _ waits
  · exact gone _ (after.running run filled)

/-- A step that is not awaited leaves a call alone with its response, or overruns a stack. -/
theorem awaited_of_sound {s s' : SyncState} {a : SyncAction} (waiting : Waiting s)
    (step : syncStep s a = some s') (after : s'.Sound) : Awaited s a := by
  cases a with
  | push t =>
      intro fd pushing
      simp only [syncStep, pushing] at step
      split at step
      · cases step
        by_contra large
        apply after.inside t
        simp only [SyncState.setCall, Function.update_self, if_neg large]
      · cases step
  | timeout t =>
      intro fd k selecting
      simp only [syncStep, selecting] at step
      split at step
      · cases step
        exact unhandled_of_sound waiting selecting after
      · cases step
  | fail t =>
      intro fd k selecting
      simp only [syncStep, selecting] at step
      cases step
      exact unhandled_of_sound waiting selecting after
  | client a =>
      cases a with
      | read conn =>
          intro rsp rest channel
          simp only [syncStep, SyncState.admits, if_true] at step
          split at step
          · rename_i client next
            have keeps := clientStep_keeps next waiting.matching
            simp only [clientStep, channel] at next
            split at next
            · rename_i same
              cases same
              obtain rfl : { s with client := client } = s' := Option.some.inj step
              have got : { s with client := client }.client.reader =
                  .got rsp (rpcSessionpoolGet s.client.reqPool rsp.seq) := by
                cases next
                rfl
              obtain ⟨-, req, pointer, call, -⟩ := got_uncompleted keeps got
              rw [pointer] at got
              obtain ⟨fd, here, -⟩ := after.alive rsp req got
              exact ⟨_, fd, by rw [← call]; exact here⟩
            · cases next
          · cases step
      | call | push | pop | insert | stamp | send | receive | answer | callback | remove | free =>
          trivial
  | «open» | request | wake | close | «return» | callback | write | openOther | closeOther => trivial

/-- In every state of a run synchronous calls are completed by their own responses alone, and never
    behind their return, if and only if every response of the run is awaited. -/
theorem rpcClientCall_sound (heap : Nat → RpcRequest) (conns : RpcArray) (fds : Descriptors)
    (records : Nat → SyncRecord) (actions : List SyncAction) :
    Always syncStep SyncState.Sound (.initial heap conns fds records) actions ↔
      Along syncStep Awaited (.initial heap conns fds records) actions :=
  always_iff_along (fun _ => sound_of_waiting) (fun _ _ _ => waiting_step)
    (fun _ _ _ => awaited_of_sound) actions (waiting_initial heap conns fds records)

/-- A call times out and the thread makes another one, which has its record and its eventfd where they
    were: it returns with the late response to the first. -/
theorem rpcClientCall_lateResponse :
    ∃ s, exec syncStep
        (.initial (fun _ => .zeroed) (rpcArrayAdd none rpcArrayNew (some 7)).2
          [some .other, some .other, some .other] fun _ => ⟨0, [], 0⟩)
        [.open 0, .request 0 ⟨.null, .null, .null, 0, 1, 0⟩ 64, .push 0, .client .pop,
          .client (.insert fun _ => none), .client .stamp, .client .send, .client (.receive 7),
          .timeout 0, .close 0, .return 0, .open 0, .request 0 ⟨.null, .null, .null, 0, 1, 0⟩ 65,
          .push 0, .client (.answer 7 0 RpcCode.ok.num [104]), .client (.read 7), .callback, .write,
          .wake 0, .close 0, .return 0] = some s ∧
      s.returns = [⟨0, RpcCode.timeout.num⟩, ⟨1, RpcCode.ok.num⟩] ∧
      (s.records 0).output = [104] ∧ s.client.completed = [0] ∧ ¬ s.Sound := by
  refine ⟨_, rfl, rfl, rfl, rfl, fun sound => ?_⟩
  have completed := sound.own ⟨1, RpcCode.ok.num⟩ (by decide) (by decide) (by decide)
  exact absurd (List.mem_singleton.mp completed) (by decide)

end OpenRpc
