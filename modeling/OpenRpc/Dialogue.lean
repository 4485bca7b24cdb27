import OpenRpc.ClientBalance
import OpenRpc.Messages

/-! # A client and a server, joined by bytes

A client thread and the server its connections lead to, each taking one step at a time. What goes over
a connection are the bytes that one end has written and the other has not read yet, in any pieces; a
call of `read_from_conn` takes as many of them as its reads find, and doubles the block where it has to.
The client thread keeps no messages of its own: the channels of its `ClientState` stay empty here, and a
response read off the bytes has no number of a call.
-/

namespace OpenRpc

open Transition Memory Decimal

/-- What the processes need besides themselves. `client i` and `server i` are for the two ends of the
    connection that the client keeps under the pointer `i`, `sock i` and `alloc i` for what the client
    sends on it. The connections of one server have one service map. -/
structure Network where
  client : Nat → ClientEnv
  server : Nat → ServerEnv
  sock : Nat → Socket
  alloc : Nat → Nat → Bool
  serviceMap : List Byte → Option Service
  shared : ∀ i, (server i).serviceMap = serviceMap

/-- A connection. Each end records what it has written; the two counters are the bytes of these that
    the other end has read. `serving`: `cb_req_read` is inside its loop. -/
structure Link where
  client : Reader RpcResponse (Option SentResponse)
  server : ServerReader
  serving : Bool
  toServer : Nat
  toClient : Nat

namespace Link

end Link

/-- `reading`: the connection whose `cb_rsp_read` is inside its loop. The thread has one event loop, so
    there is at most one. -/
structure Dialogue where
  thread : ClientState
  reading : Option Nat
  links : Nat → Link

/-- `cb_rsp_read` returns where the numbers are not equal. -/
def Dialogue.stillReading (d : Dialogue) (a : ClientAction) (thread : ClientState) : Option Nat :=
  match a, thread.reader with
  | .callback, .idle => none
  | _, _ => d.reading

def Dialogue.setLink (d : Dialogue) (i : Nat) (link : Link) : Dialogue :=
  { d with links := Function.update d.links i link }

/-- What a caller can ask for: names that make a key, and a body that an `int` can count. -/
structure CallText where
  method : List Byte
  service : List Byte
  body : List Byte
  names : Names method service
  keyFits : (method ++ atSign :: service).length ≤ 254
  fits : body.length ≤ INT_MAX

namespace CallText

def key (text : CallText) : List Byte := text.method ++ atSign :: text.service

/-- The arguments ask for the text. -/
structure AskedBy (text : CallText) (args : CallArgs) : Prop where
  methodName : args.methodName = .heap text.method
  serviceName : args.serviceName = .heap text.service
  input : args.input = .heap text.body
  inputLen : args.inputLen = text.body.length

def call (text : CallText) (seq : Int) (seqFits : InInt32 seq) : Call :=
  ⟨text.method, text.service, seq, text.body, text.names, text.keyFits, seqFits, text.fits⟩

end CallText

namespace Network

variable (net : Network)

/-- A call of a service that is there. -/
def Takes (args : CallArgs) : Prop :=
  ∃ text : CallText, text.AskedBy args ∧ (net.serviceMap text.key).isSome

/-- An answer of the service that is called, to the bytes it is called with. -/
def Answers (args : CallArgs) (code : Int) (output : List Byte) : Prop :=
  ∃ (text : CallText) (cb : Service) (k : Nat) (reply : Reply), text.AskedBy args ∧
    net.serviceMap text.key = some cb ∧ cb k text.body text.body.length = [reply] ∧
    code = reply.code ∧ output = reply.body

/-- `realloc` adds what it is asked for, no send fails or ends on the end of an entry, every service
    replies once, and recycled objects start clean. -/
structure Sound : Prop where
  serverGrows : ∀ i, GrowsRight (net.server i).grow
  clientGrows : ∀ i, GrowsRight (net.client i).grow
  returns : ∀ i, (net.server i).sock.Returns
  lossless : ∀ i, (net.server i).sock.Lossless
  sends : ∀ i, (net.sock i).Returns
  whole : ∀ i, (net.sock i).Lossless
  names : ∀ i, ∀ e ∈ (net.server i).table, PhraseWord e.name
  requests : ∀ i k, ((net.server i).objs k).inputLen < 4294967296
  responses : ∀ i k, ((net.client i).objs k).outputLen < 4294967296
  replies : RepliesFit net.serviceMap

end Network

/-- A connection on which nothing was written yet. -/
structure Link.Fresh (link : Link) : Prop where
  client : ∃ (conn : RpcConn RpcResponse) (fd l th : Nat), conn.rbuf.length = conn.rsize ∧
    conn.iov.length = conn.iovsize ∧ 5 ≤ conn.iovsize ∧
    link.client = { conn := { rpcConnNewInner conn fd l with thread := some th }, parses := 0
                    log := none }
  server : ∃ (conn : RpcConn RpcRequest) (fd l th : Nat), conn.rbuf.length = conn.rsize ∧
    conn.iov.length = conn.iovsize ∧ 5 ≤ conn.iovsize ∧ link.server = serverConn conn fd l th
  serving : link.serving = false
  toServer : link.toServer = 0
  toClient : link.toClient = 0

/-- The client thread right after `rpc_client_thread_init` with these connections. -/
structure Dialogue.Fresh (conns : RpcArray) (d : Dialogue) : Prop where
  thread : ∃ heap, d.thread = .initial heap conns
  reading : d.reading = none
  links : ∀ i, (d.links i).Fresh

end OpenRpc
