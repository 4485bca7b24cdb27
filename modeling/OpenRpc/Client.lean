import OpenRpc.Reader

/-! # The reading side of a client connection

`cb_rsp_read`: a response is handed to the callback of the request the session pool holds under its
`seq`. What the pool answers is a parameter here; the pool itself and the threads that fill it are
modelled with the client thread.
-/

namespace OpenRpc

open Memory

/-- What a client connection needs besides itself; `pools k` is what `rpc_sessionpool_get` answers for
    the `k`-th response. -/
structure ClientEnv extends ReadEnv where
  objs : Nat → RpcResponse
  copies : Nat → RpcResponse
  stale : Nat → Nat → CharPtr
  pools : Nat → Int → Option RpcRequest

/-- A response as it is handed to the callback of `request`. -/
structure Delivered where
  code : Int
  seq : Int
  output : List Byte
  outputLen : Nat
  request : RpcRequest
  deriving Repr, DecidableEq

abbrev ClientReader := Reader RpcResponse (List Delivered)

/-- The part of `cb_rsp_read` behind the parser. -/
def deliverResponse (env : ClientEnv) (s : ClientReader) (rsp : RpcResponse) :
    Except Stop (Bool × ClientReader) :=
  match s.conn.thread, env.pools s.log.length rsp.seq with
  | some _, some req =>
      if req.seq ≠ rsp.seq then .ok (false, s)
      else
        let delivered : Delivered :=
          ⟨rsp.code, rsp.seq, rsp.output.bytes s.conn.rbuf rsp.outputLen, rsp.outputLen, req⟩
        .ok (true, { s with log := s.log ++ [delivered] })
  | _, _ => .error .undefined

/-- `cb_rsp_read` without its reading. -/
def rspSide (env : ClientEnv) : ReadSide RpcResponse (List Delivered) where
  parse k c := rpcResponseParse (env.objs k) (env.stale k) c
  copyHead k mem rsp := rpcResponseCopyHead mem (env.copies k) rsp
  bodyLen rsp := rsp.outputLen
  withBody rsp p := { rsp with output := p }
  deliver := deliverResponse env

/-- `cb_rsp_read`. -/
def cbRspRead (env : ClientEnv) (reads : List ReadResult) (s : ClientReader) :
    Except Stop ClientReader :=
  cbRead (rspSide env) env.toReadEnv reads s

/-- A client connection right after `rpc_conn_client_new` has made it out of the object `conn`. -/
def clientConn (conn : RpcConn RpcResponse) (fd l th : Nat) : ClientReader :=
  { conn := { rpcConnNewInner conn fd l with thread := some th }, parses := 0, log := [] }

theorem rspSide_consumes (env : ClientEnv) : (rspSide env).Consumes where
  parse := fun _ _ _ _ _ parsed => rpcResponseParse_rbytes parsed
  deliver := by
    intro s rsp go s' delivered
    simp only [rspSide, deliverResponse] at delivered
    repeat' split at delivered
    all_goals cases delivered
    all_goals exact ⟨rfl, rfl⟩
  alive := by
    intro s rsp spent
    simp only [rspSide, deliverResponse] at spent
    repeat' split at spent
    all_goals cases spent

theorem cbRspRead_not_spent (env : ClientEnv) (reads : List ReadResult) (s : ClientReader) :
    cbRspRead env reads s ≠ .error .spent :=
  cbRead_not_spent (rspSide_consumes env) env.toReadEnv reads s

end OpenRpc
