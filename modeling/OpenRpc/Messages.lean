import OpenRpc.ClientThread
import OpenRpc.Flow
import OpenRpc.Streams

/-! # What the two processes write and read

The bytes of one message at each of its four stations: a request as `thread_write_hander` writes it and
as `cb_req_read` takes it, the response that the server writes in the same round, and that response as
`cb_rsp_read` takes it.
-/

namespace OpenRpc

open Memory Decimal

/-- The end of a round of `thread_write_hander`: `rpc_request_format` and `rpc_send_message`. -/
def writeData {α : Type} (alloc : Nat → Bool) (sock : Socket) (request : RpcRequest) (c : RpcConn α) :
    SendOutcome α :=
  match rpcRequestFormat alloc request c with
  | none => .undefined
  | some c => rpcSendMessage (sock c.wire.length c.queued) c

theorem writeData_idle {α : Type} (alloc : Nat → Bool) {sock : Socket} (returns : sock.Returns)
    {c : RpcConn α} (idle : c.Idle) {request : RpcRequest} {method service : List Byte}
    (methodName : request.methodName.read c.rbuf = some method)
    (serviceName : request.serviceName.read c.rbuf = some service)
    (fits : request.inputLen ≤ INT_MAX) :
    ∃ c' rest message, writeData alloc sock request c = .returned c' rest ∧
      c'.wire = c.wire ++ [message] ∧ c'.Idle ∧ c.SameReadSide c' ∧
      (sock.Lossless → message = requestHead method service request.seq request.inputLen ++
        request.input.bytes c.rbuf request.inputLen) := by
  let entries := requestEntries c.rbuf method service request
  have few : entries.length ≤ 4 := by
    by_cases absent : request.input = .null <;> simp [entries, requestEntries, absent]
  have room := idle.room
  obtain ⟨queued, stored, queue, vector, size, same, -, wire⟩ :=
    addiovs_queued alloc idle.vector entries (by rw [idle.empty]; omega)
  rw [idle.queued, List.nil_append] at queue
  have formatted : rpcRequestFormat alloc request c = some queued := by
    simp only [rpcRequestFormat, methodName, serviceName]
    exact stored
  have nonempty : 0 < queued.queued.flatten.length := by
    simp only [queue, entries, requestEntries, List.cons_append, List.flatten_cons,
      List.length_append, List.length_singleton]
    omega
  have completes := returns queued.wire.length queued.queued nonempty
  obtain ⟨rest, message, returned⟩ := sendLoop_returns _ queued queued.queued [] completes
  refine ⟨{ queued with iovused := 0, wire := queued.wire ++ [message] }, rest, message, ?_,
    by rw [wire], ⟨vector, rfl, size ▸ room⟩, ?_, fun lossless => ?_⟩
  · simp only [writeData, formatted, rpcSendMessage, returned]
  · exact ⟨same.rbuf, same.rcurr, same.rsize, same.rbytes, same.unprocessData, same.thread⟩
  · have whole := (sendLoop_lossless _ queued queued.queued [] completes.working).mpr
      (lossless _ _) _ _ returned
    have taken := List.singleton_inj.mp (List.append_cancel_left whole)
    rw [taken, List.nil_append, queue, requestEntries_flatten _ _ _ _ fits]

theorem readRound_delivers {α σ : Type} {side : ReadSide α σ} {behind : Byte} {s s' : Reader α σ}
    {go : Bool} (h : readRound side behind s = .ok (go, s')) :
    (go = false ∧ s'.log = s.log ∧ s.conn.SameSendSide s'.conn) ∨
    ∃ s₁ obj, s.conn.SameSendSide s₁.conn ∧ s₁.log = s.log ∧
      side.deliver s₁ obj = .ok (go, s') := by
  cases readRound_moves h with
  | empty | waits | short => exact .inl ⟨rfl, rfl, .refl _⟩
  | keeps | rejects => exact .inl ⟨rfl, rfl, ⟨rfl, rfl, id, rfl, rfl⟩⟩
  | whole c c' obj unread idle window head parsed delivered =>
      refine .inr ⟨_, obj, ?_, ?_, delivered⟩
      · exact ⟨rfl, rfl, id, rfl, rfl⟩
      · rfl
  | resumes c last unread pending window enough delivered =>
      refine .inr ⟨_, _, ?_, ?_, delivered⟩
      · exact ⟨rfl, rfl, id, rfl, rfl⟩
      · rfl

section Replies

namespace Reply

def code : Reply → Int
  | .value _ _ => RpcCode.ok.num
  | .null => RpcCode.ok.num
  | .error errCode _ => errCode

/-- The bytes the reply puts behind the head. -/
def body : Reply → List Byte
  | .value output outputLen => (output.getD []).take outputLen
  | .null => []
  | .error _ errMessage => errMessage

/-- A reply that owns the bytes it announces, and no more of them than an `int` can count. -/
def Fits : Reply → Prop
  | .value output outputLen => outputLen ≤ (output.getD []).length ∧ outputLen ≤ INT_MAX
  | .null => True
  | .error errCode errMessage => InInt32 errCode ∧ errMessage.length ≤ INT_MAX

theorem Fits.code {reply : Reply} (fits : reply.Fits) : InInt32 reply.code := by
  cases reply with
  | value | null => exact RpcCode.num_fits .ok
  | error => exact fits.1

theorem Fits.body {reply : Reply} (fits : reply.Fits) : reply.body.length ≤ INT_MAX := by
  cases reply with
  | value output outputLen => exact (List.length_take_le ..).trans fits.2
  | null => exact Nat.zero_le _
  | error => exact fits.2

/-- The answer a reply is to the request with this number. -/
def answer (reply : Reply) (seq : Int) (fits : reply.Fits) (seqFits : InInt32 seq) : Answer :=
  ⟨reply.code, seq, reply.body, fits.code, seqFits, fits.body⟩

end Reply

/-- The service a call is for answers it with this reply, at some stage. -/
def Call.RepliedWith (call : Call) (serviceMap : List Byte → Option Service) (reply : Reply) : Prop :=
  ∃ cb k, serviceMap (call.method ++ atSign :: call.service) = some cb ∧
    cb k call.body call.body.length = [reply]

/-- Every callback replies once to a body, with what it owns. -/
def RepliesFit (serviceMap : List Byte → Option Service) : Prop :=
  ∀ key cb, serviceMap key = some cb → ∀ k (body : List Byte), body.length ≤ INT_MAX →
    ∃ reply, cb k body body.length = [reply] ∧ reply.Fits

variable {env : ServerEnv}

theorem dispatch_replies (returns : env.sock.Returns) (lossless : env.sock.Lossless)
    (replies : RepliesFit env.serviceMap) {s s' : ServerReader} {req : RpcRequest} {go : Bool}
    (h : dispatch env s req = .ok (go, s')) (idle : s.conn.Idle) {call : Call}
    (logged : s'.log = s.log ++ [call.handed env])
    (served : (env.serviceMap (call.method ++ atSign :: call.service)).isSome) :
    ∃ reply, reply.Fits ∧ call.RepliedWith env.serviceMap reply ∧
      s'.conn.wire = s.conn.wire ++ [reply.message env.table call.seq] := by
  obtain ⟨method, service, key, -, -, keyed, answered, -, -, log⟩ := dispatch_cases h
  generalize req.input.bytes s.conn.rbuf req.inputLen = input at answered log
  rw [log] at logged
  have same := List.singleton_inj.mp (List.append_cancel_left logged)
  simp only [Call.handed, Handed.mk.injEq] at same
  obtain ⟨rfl, rfl, seq, rfl, len, -⟩ := same
  have keyIs : key = call.method ++ atSign :: call.service := by
    have fits := call.keyFits
    rw [serviceKey, if_pos (by omega), List.take_of_length_le fits] at keyed
    exact (Option.some.inj keyed).symm
  subst keyIs
  rcases serve_cases env s (call.method ++ atSign :: call.service) req.seq call.body req.inputLen with
    ⟨cb, found, served'⟩ | ⟨absent, -⟩
  · obtain ⟨reply, replied, fits⟩ := replies _ cb found s.log.length call.body call.fits
    have idle' : ({ s.conn with currSeq := req.seq } : RpcConn RpcRequest).Idle :=
      ⟨idle.vector, idle.empty, idle.room⟩
    obtain ⟨c, rest, message, sent, written, -, -, -, whole⟩ :=
      reply.send_idle env.alloc returns env.table idle'
    rw [served', len, replied] at answered
    simp only [OpenRpc.answer, sent, Except.ok.injEq] at answered
    refine ⟨reply, fits, ⟨cb, s.log.length, found, replied⟩, ?_⟩
    rw [← answered, written, whole lossless, ← seq]
  · rw [absent] at served
    cases served

theorem Framing.Flows.answers (returns : env.sock.Returns) (lossless : env.sock.Lossless)
    (replies : RepliesFit env.serviceMap) (clean : ∀ k, (env.objs k).inputLen < 4294967296)
    {behind : Byte} {texts : List (List Byte)} {heard : Nat} {todo : List Call} {s : ServerReader}
    (flows : (callFraming env returns).Flows behind texts heard true todo s)
    (ready : (callFraming env returns).Ready todo s)
    (served : ∀ call ∈ todo, (env.serviceMap (call.method ++ atSign :: call.service)).isSome) :
    (∃ s', readRound (reqSide env) behind s = .ok (false, s') ∧
      (callFraming env returns).Flows behind texts heard false todo s' ∧
      (callFraming env returns).Ready todo s' ∧ s'.conn.wire = s.conn.wire) ∨
    ∃ call rest s' reply, todo = call :: rest ∧ readRound (reqSide env) behind s = .ok (true, s') ∧
      (callFraming env returns).Flows behind texts heard true rest s' ∧
      (callFraming env returns).Ready rest s' ∧ reply.Fits ∧
      call.RepliedWith env.serviceMap reply ∧
      s'.conn.wire = s.conn.wire ++ [reply.message env.table call.seq] := by
  have idle : s.conn.Idle := ready.1
  rcases flows.round clean ready with
    ⟨s', stops, log, flows', ready'⟩ | ⟨call, rest, s', rfl, next, log, flows', ready'⟩
  · refine .inl ⟨s', stops, flows', ready', ?_⟩
    rcases readRound_delivers stops with ⟨-, -, same⟩ | ⟨s₁, req, -, -, delivered⟩
    · exact same.wire
    · obtain ⟨_, _, _, -, -, -, -, go, -⟩ := dispatch_cases delivered
      cases go
  · rcases readRound_delivers next with ⟨stops, -⟩ | ⟨s₁, req, same, log₁, delivered⟩
    · cases stops
    · have logged : s'.log = s₁.log ++ [call.handed env] := by
        rw [log₁]
        exact log
      obtain ⟨reply, fits, replied, wire⟩ := dispatch_replies returns lossless replies delivered
        (same.idle idle) logged (served call List.mem_cons_self)
      exact .inr ⟨call, rest, s', reply, rfl, next, flows', ready', fits, replied,
        by rw [wire, same.wire]⟩

end Replies

section Arrivals

/-- `cb_rsp_read` up to the session pool: `rsp` points to the response. Which call it is for is not on
    the wire. -/
def arrive (s : Reader RpcResponse (Option SentResponse)) (rsp : RpcResponse) :
    Except Stop (Bool × Reader RpcResponse (Option SentResponse)) :=
  match s.conn.thread with
  | some _ =>
      .ok (true, { s with log := some ⟨0, rsp.code, rsp.seq,
        rsp.output.bytes s.conn.rbuf rsp.outputLen⟩ })
  | none => .error .undefined

/-- The reading of `cb_rsp_read`. The session pool is not part of it, so `pools` is not used. -/
def arrivalSide (env : ClientEnv) : ReadSide RpcResponse (Option SentResponse) where
  parse k c := rpcResponseParse (env.objs k) (env.stale k) c
  copyHead k mem rsp := rpcResponseCopyHead mem (env.copies k) rsp
  bodyLen rsp := rsp.outputLen
  withBody rsp p := { rsp with output := p }
  deliver := arrive

/-- The stream of answers up to the session pool. -/
def arrivalFraming (env : ClientEnv) (table : List ErrCode)
    (names : ∀ e ∈ table, PhraseWord e.name) : Framing (arrivalSide env) Answer where
  line₁ m := statusText m.code (phraseText table m.code)
  line₂ m := seqLabel ++ intText m.seq
  line₃ m := bodyLenLabel ++ intText m.body.length
  body m := m.body
  spent m := responseHeadSpent m.code (phraseText table m.code) m.seq m.body.length
  Clean k := (env.objs k).outputLen < 4294967296
  Kept m rsp := rsp.code = m.code ∧ rsp.seq = m.seq ∧ rsp.outputLen = m.body.length
  Sees m mem rsp := rsp.code = m.code ∧ rsp.seq = m.seq ∧ rsp.outputLen = m.body.length ∧
    rsp.output.bytes mem rsp.outputLen = m.body
  Ready _ s := s.conn.thread.isSome
  record m _ := some ⟨0, m.code, m.seq, m.body⟩
  lines m := (answerFraming env table names).lines (m, .zeroed)
  spent_length m := (answerFraming env table names).spent_length (m, .zeroed)
  whole k clean m := (answerFraming env table names).whole k clean (m, .zeroed)
  part k clean m := (answerFraming env table names).part k clean (m, .zeroed)
  resume m := (answerFraming env table names).resume (m, .zeroed)
  deliver := by
    rintro m rest s rsp thread ⟨code, seq, len, body⟩
    obtain ⟨th, running⟩ := Option.isSome_iff_exists.mp thread
    refine ⟨{ s with log := some ⟨0, m.code, m.seq, m.body⟩ }, ?_, rfl, .refl _, thread⟩
    simp only [arrivalSide, arrive, running, code, seq, body]
  ready := by
    intro ms s s' thread same thread' log
    rw [thread']
    exact thread

end Arrivals

end OpenRpc
