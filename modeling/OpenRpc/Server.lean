import OpenRpc.Reader

/-! # The server side of a connection

`cb_req_read`: a request is handed to the service registered under `method@service`, which answers
with any of the `rpc_return` functions. The `seq` of an answer travels through `curr_seq` of the
connection, which only a found service sets.
-/

namespace OpenRpc

open Memory Decimal

/-- A service callback: the replies it makes to a body, given how many requests the connection has
    handed out before. -/
abbrev Service := Nat → List Byte → Nat → List Reply

/-- What a server connection needs besides itself. `objs k` and `copies k` are the objects
    `rpc_request_new` gives to the `k`-th head, `stale k` what the token array of that call held. -/
structure ServerEnv extends ReadEnv where
  objs : Nat → RpcRequest
  copies : Nat → RpcRequest
  stale : Nat → Nat → CharPtr
  alloc : Nat → Bool
  sock : Socket
  table : List ErrCode
  serviceMap : List Byte → Option Service

/-- A request as it is handed out; `found` says whether there was a service for it. -/
structure Handed where
  methodName : List Byte
  serviceName : List Byte
  seq : Int
  input : List Byte
  inputLen : Nat
  found : Bool
  deriving Repr, DecidableEq

abbrev ServerReader := Reader RpcRequest (List Handed)

/-- The text `key` holds after `snprintf(key, 255, ...)` and `key[len] = '\0'`; `none`: the array of
    256 bytes was written behind its end. -/
def serviceKey (method service : List Byte) : Option (List Byte) :=
  let key := method ++ atSign :: service
  if key.length < 256 then some (key.take 254) else none

def notFoundMessage : List Byte :=
  text ['n', 'o', 't', ' ', 'f', 'i', 'n', 'd', ' ', 'm', 'e', 't', 'h', 'o', 'd', '@', 's', 'e', 'r',
    'v', 'i', 'c', 'e']

/-- The replies of a callback, one after the other. -/
def answer (env : ServerEnv) : List Reply → RpcConn RpcRequest → Except Stop (RpcConn RpcRequest)
  | [], c => .ok c
  | reply :: rest, c =>
      match reply.send env.alloc env.sock env.table c with
      | .returned c _ => answer env rest c
      | .pending _ _ => .error .waiting
      | .undefined => .error .undefined

/-- What becomes of a request looked up: the connection it is answered on, the replies, and whether
    there was a service. -/
def serve (env : ServerEnv) (s : ServerReader) (key : List Byte) (seq : Int) (input : List Byte)
    (inputLen : Nat) : RpcConn RpcRequest × List Reply × Bool :=
  match env.serviceMap key with
  | some cb => ({ s.conn with currSeq := seq }, cb s.log.length input inputLen, true)
  | none => (s.conn, [.error RpcCode.notFound.num notFoundMessage], false)

/-- The part of `cb_req_read` behind the parser. -/
def dispatch (env : ServerEnv) (s : ServerReader) (req : RpcRequest) :
    Except Stop (Bool × ServerReader) :=
  match s.conn.thread, req.methodName.read s.conn.rbuf, req.serviceName.read s.conn.rbuf with
  | some _, some method, some service =>
      match serviceKey method service with
      | none => .error .undefined
      | some key =>
          let input := req.input.bytes s.conn.rbuf req.inputLen
          let (c, replies, found) := serve env s key req.seq input req.inputLen
          match answer env replies c with
          | .error stop => .error stop
          | .ok c =>
              let handed : Handed := ⟨method, service, req.seq, input, req.inputLen, found⟩
              .ok (true, { s with conn := c, log := s.log ++ [handed] })
  | _, _, _ => .error .undefined

/-- `cb_req_read` without its reading. -/
def reqSide (env : ServerEnv) : ReadSide RpcRequest (List Handed) where
  parse k c := rpcRequestParse (env.objs k) (env.stale k) c
  copyHead k mem req := rpcRequestCopyHead mem (env.copies k) req
  bodyLen req := req.inputLen
  withBody req p := { req with input := p }
  deliver := dispatch env

/-- `cb_req_read`. -/
def cbReqRead (env : ServerEnv) (reads : List ReadResult) (s : ServerReader) :
    Except Stop ServerReader :=
  cbRead (reqSide env) env.toReadEnv reads s

/-- A server connection right after `cb_notify_conn` has made it out of the object `conn`. -/
def serverConn (conn : RpcConn RpcRequest) (fd l th : Nat) : ServerReader :=
  { conn := { rpcConnNewInner conn fd l with thread := some th }, parses := 0, log := [] }

theorem answer_keeps {R : RpcConn RpcRequest → RpcConn RpcRequest → Prop} (kept : KeptBySending R)
    {env : ServerEnv} {replies : List Reply} {c c' : RpcConn RpcRequest}
    (h : answer env replies c = .ok c') : R c c' := by
  induction replies generalizing c with
  | nil =>
      cases h
      exact kept.refl _
  | cons reply rest ih =>
      unfold answer at h
      split at h
      · rename_i c₁ left sent
        exact kept.trans (reply.send_keeps kept sent) (ih h)
      · cases h
      · cases h

/-- Answering leaves what was read alone, even where it closes the connection. -/
theorem answer_reading {env : ServerEnv} {replies : List Reply} {c c' : RpcConn RpcRequest}
    (h : answer env replies c = .ok c') :
    c'.rbytes = c.rbytes ∧ c'.unprocessData = c.unprocessData := by
  refine answer_keeps (R := fun c c' => c'.rbytes = c.rbytes ∧ c'.unprocessData = c.unprocessData)
    ⟨?_, ?_, ?_, ?_, ?_⟩ h
  · exact fun c => ⟨rfl, rfl⟩
  · exact fun first second => ⟨second.1.trans first.1, second.2.trans first.2⟩
  all_goals intros
  all_goals exact ⟨rfl, rfl⟩

theorem answer_not_spent (env : ServerEnv) (replies : List Reply) (c : RpcConn RpcRequest) :
    answer env replies c ≠ .error .spent := by
  induction replies generalizing c with
  | nil => simp [answer]
  | cons reply rest ih =>
      unfold answer
      split
      · exact ih _
      · simp
      · simp

/-- All that a dispatch can do: the request is looked up, answered and recorded. -/
theorem dispatch_cases {env : ServerEnv} {s s' : ServerReader} {req : RpcRequest} {go : Bool}
    (h : dispatch env s req = .ok (go, s')) :
    ∃ method service key, req.methodName.read s.conn.rbuf = some method ∧
      req.serviceName.read s.conn.rbuf = some service ∧ serviceKey method service = some key ∧
      let input := req.input.bytes s.conn.rbuf req.inputLen
      let served := serve env s key req.seq input req.inputLen
      answer env served.2.1 served.1 = .ok s'.conn ∧ go = true ∧ s'.parses = s.parses ∧
        s'.log = s.log ++ [⟨method, service, req.seq, input, req.inputLen, served.2.2⟩] := by
  simp only [dispatch] at h
  split at h
  · rename_i th method service _ methodIs serviceIs
    split at h
    · cases h
    · rename_i key keyIs
      split at h
      · cases h
      · rename_i c answered
        cases h
        exact ⟨method, service, key, methodIs, serviceIs, keyIs, answered, rfl, rfl, rfl⟩
  · cases h

theorem serve_cases (env : ServerEnv) (s : ServerReader) (key : List Byte) (seq : Int)
    (input : List Byte) (inputLen : Nat) :
    (∃ cb, env.serviceMap key = some cb ∧ serve env s key seq input inputLen =
      ({ s.conn with currSeq := seq }, cb s.log.length input inputLen, true)) ∨
    env.serviceMap key = none ∧ serve env s key seq input inputLen =
      (s.conn, [.error RpcCode.notFound.num notFoundMessage], false) := by
  cases found : env.serviceMap key with
  | some cb => exact .inl ⟨cb, rfl, by simp only [serve, found]⟩
  | none => exact .inr ⟨rfl, by simp only [serve, found]⟩

theorem reqSide_consumes (env : ServerEnv) : (reqSide env).Consumes where
  parse := fun _ _ _ _ _ parsed => rpcRequestParse_rbytes parsed
  deliver := by
    intro s req go s' delivered
    obtain ⟨method, service, key, -, -, -, answered, -⟩ := dispatch_cases delivered
    have reading := answer_reading answered
    rcases serve_cases env s key req.seq (req.input.bytes s.conn.rbuf req.inputLen) req.inputLen with
      ⟨cb, -, served⟩ | ⟨-, served⟩ <;> rwa [served] at reading
  alive := by
    intro s req spent
    simp only [reqSide, dispatch] at spent
    split at spent
    · split at spent
      · cases spent
      · split at spent
        · rename_i stop answered
          cases spent
          exact answer_not_spent _ _ _ answered
        · cases spent
    · cases spent

/-- The loop of `cb_req_read` always comes to an end: a run that has not returned waits or is
    undefined. -/
theorem cbReqRead_not_spent (env : ServerEnv) (reads : List ReadResult) (s : ServerReader) :
    cbReqRead env reads s ≠ .error .spent :=
  cbRead_not_spent (reqSide_consumes env) env.toReadEnv reads s

end OpenRpc
