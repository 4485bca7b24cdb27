import OpenRpc.Lib.Transition
import OpenRpc.Request
import OpenRpc.Sessionpool

/-! # A client thread

Callers of `rpc_client_call_async`, the writing thread `thread_write_hander`, the reading thread that
runs `cb_rsp_read`, and the peer, each taking one step at a time. The pending queue is an atomic FIFO
and allocations succeed. A connection is two FIFO channels of whole messages: that the bytes between
`rpc_request_format` and the peer's parser, and back, amount to that is not shown here.
-/

namespace OpenRpc

open Transition Memory

/-- A request on its way to the peer: what `rpc_request_format` reads of the object. `call` is the
    number of the call it was made for, which is not on the wire. -/
structure SentRequest where
  call : Nat
  request : RpcRequest
  deriving Repr, DecidableEq

/-- A response on its way back. -/
structure SentResponse where
  call : Nat
  code : Int
  seq : Int
  output : List Byte
  deriving Repr, DecidableEq

/-- A run of a callback: what it was called with. -/
structure CallbackRun where
  call : Nat
  callback : Nat
  data : Nat
  code : Int
  output : List Byte
  deriving Repr, DecidableEq

/-- The arguments of `rpc_client_call_async`. -/
structure CallArgs where
  serviceName : CharPtr
  methodName : CharPtr
  input : CharPtr
  inputLen : Nat
  callback : Nat
  data : Nat
  deriving Repr, DecidableEq

/-- The assignments of `rpc_client_call_async`. -/
def CallArgs.fill (args : CallArgs) (req : RpcRequest) : RpcRequest :=
  { req with callback := args.callback
             methodName := args.methodName
             serviceName := args.serviceName
             input := args.input
             inputLen := args.inputLen
             data := args.data }

/-- A call of `rpc_client_call_async`: the address of its request object and the arguments it was made
    with. -/
structure Issued where
  object : Nat
  args : CallArgs
  deriving Repr, DecidableEq

/-- Where `thread_write_hander` is. -/
inductive Writer where
  | idle
  | popped (req : Nat)
  /-- `rpc_sessionpool_insert` has returned `index`. -/
  | inserted (req : Nat) (index : Int)
  /-- `req->seq` is set. -/
  | stamped (req : Nat)
  deriving Repr, DecidableEq

/-- Where `cb_rsp_read` is. -/
inductive ReaderPc where
  | idle
  /-- `rpc_sessionpool_get` has answered: nothing where an assertion failed, else a pointer. -/
  | got (rsp : SentResponse) (req : Option (Option Nat))
  /-- The callback has run. -/
  | called (seq : Int) (req : Nat)
  | removed (req : Nat)
  deriving Repr, DecidableEq

/-- A client thread with its callers and its peer. The fields from `callOf` on are not in the source:
    the last call each object was used for, the calls in the order of their pushes, how many of them
    were popped, the runs of callbacks, and the answers the peer has given. The arguments of a call are
    kept with it from its start on, apart from the object they are filled into. -/
structure ClientState where
  heap : Nat → RpcRequest
  allocated : List Nat
  freelist : RpcArray
  /-- The call of a caller that has filled its object and not yet pushed it. -/
  callers : Nat → Option Issued
  reqPending : List Nat
  reqPool : Sessionpool
  reqConns : RpcArray
  reqConnCount : Nat
  lastConn : Int
  writer : Writer
  reader : ReaderPc
  toPeer : Nat → List SentRequest
  atPeer : Nat → List SentRequest
  toClient : Nat → List SentResponse
  callOf : Nat → Nat
  issued : List Issued
  popped : Nat
  callbacks : List CallbackRun
  answers : List SentResponse

/-- A thread right after `rpc_client_thread_init` with these connections; the memory still to be
    allocated holds anything. -/
def ClientState.initial (heap : Nat → RpcRequest) (conns : RpcArray) : ClientState where
  heap := heap
  allocated := []
  freelist := rpcArrayNew
  callers := fun _ => none
  reqPending := []
  reqPool := rpcSessionpoolNew
  reqConns := conns
  reqConnCount := conns.cur
  lastConn := -1
  writer := .idle
  reader := .idle
  toPeer := fun _ => []
  atPeer := fun _ => []
  toClient := fun _ => []
  callOf := fun _ => 0
  issued := []
  popped := 0
  callbacks := []
  answers := []

/-- `rpc_request_new`: an object of the free list, or the one `malloc` returns. -/
def rpcRequestNew (s : ClientState) (fresh : Nat) : Option (Nat × ClientState) :=
  match rpcArrayGet s.freelist with
  | (some req, freelist) => some (req, { s with freelist := freelist })
  | (none, freelist) =>
      if fresh ∈ s.allocated then none
      else some (fresh, { s with freelist := freelist, allocated := fresh :: s.allocated })

/-- `rpc_request_free`. -/
def rpcRequestFree (s : ClientState) (req : Nat) (more : Nat → Option Nat) : ClientState :=
  { s with heap := Function.update s.heap req .zeroed
           freelist := (rpcArrayAdd (some more) s.freelist (some req)).2 }

inductive ClientAction where
  /-- `rpc_client_call_async` up to the push; `fresh` is what `malloc` returns if it is called. -/
  | call (t : Nat) (args : CallArgs) (fresh : Nat)
  | push (t : Nat)
  | pop
  /-- `rpc_sessionpool_insert`; `more` is what realloc leaves in new cells. -/
  | insert (more : Nat → Option Nat)
  /-- The assignment to `req->seq`. -/
  | stamp
  /-- The rest of a round of `thread_write_hander`. -/
  | send
  /-- The peer receives a request. -/
  | receive (conn : Nat)
  /-- The peer answers one of the requests it has received. -/
  | answer (conn j : Nat) (code : Int) (output : List Byte)
  /-- `cb_rsp_read` takes a response out and asks the session pool. -/
  | read (conn : Nat)
  /-- The test of `seq` and the callback. -/
  | callback
  | remove
  | free (more : Nat → Option Nat)

/-- A step does not exist where the program waits or crashes: the reader does not get beyond a NULL
    request, and no array grows beyond what an `int` can count. -/
def clientStep : Step ClientState ClientAction
  | s, .call t args fresh =>
      match s.callers t, rpcRequestNew s fresh with
      | none, some (req, s) =>
          some { s with heap := Function.update s.heap req (args.fill (s.heap req))
                        callers := Function.update s.callers t (some ⟨req, args⟩) }
      | _, _ => none
  | s, .push t =>
      match s.callers t with
      | some ⟨req, args⟩ =>
          some { s with callers := Function.update s.callers t none
                        reqPending := s.reqPending ++ [req]
                        callOf := Function.update s.callOf req s.issued.length
                        issued := s.issued ++ [⟨req, args⟩] }
      | none => none
  | s, .pop =>
      match s.writer, s.reqPending with
      | .idle, req :: rest =>
          some { s with writer := .popped req, reqPending := rest, popped := s.popped + 1 }
      | _, _ => none
  | s, .insert more =>
      match s.writer with
      | .popped req =>
          let (index, pool) := rpcSessionpoolInsert (some more) s.reqPool req
          if pool.size ≤ INT_MAX then some { s with writer := .inserted req index, reqPool := pool }
          else none
      | _ => none
  | s, .stamp =>
      match s.writer with
      | .inserted req index =>
          some { s with writer := .stamped req
                        heap := Function.update s.heap req { s.heap req with seq := index } }
      | _ => none
  | s, .send =>
      match s.writer with
      | .stamped req =>
          let idx := (s.lastConn + 1) % s.reqConnCount
          match rpcArrayIndex s.reqConns idx.toNat with
          | some conn =>
              some { s with writer := .idle
                            lastConn := idx
                            toPeer := Function.update s.toPeer conn
                              (s.toPeer conn ++ [⟨s.callOf req, s.heap req⟩]) }
          | none => none
      | _ => none
  | s, .receive conn =>
      match s.toPeer conn with
      | m :: rest =>
          some { s with toPeer := Function.update s.toPeer conn rest
                        atPeer := Function.update s.atPeer conn (s.atPeer conn ++ [m]) }
      | [] => none
  | s, .answer conn j code output =>
      match (s.atPeer conn)[j]? with
      | some m =>
          let rsp : SentResponse := ⟨m.call, code, m.request.seq, output⟩
          some { s with atPeer := Function.update s.atPeer conn ((s.atPeer conn).eraseIdx j)
                        toClient := Function.update s.toClient conn (s.toClient conn ++ [rsp])
                        answers := s.answers ++ [rsp] }
      | none => none
  | s, .read conn =>
      match s.reader, s.toClient conn with
      | .idle, rsp :: rest =>
          some { s with toClient := Function.update s.toClient conn rest
                        reader := .got rsp (rpcSessionpoolGet s.reqPool rsp.seq) }
      | _, _ => none
  | s, .callback =>
      match s.reader with
      | .got rsp (some (some req)) =>
          -- "seq not equal!", and the callback returns
          if (s.heap req).seq ≠ rsp.seq then some { s with reader := .idle }
          else
            let run : CallbackRun :=
              ⟨s.callOf req, (s.heap req).callback, (s.heap req).data, rsp.code, rsp.output⟩
            some { s with reader := .called rsp.seq req, callbacks := s.callbacks ++ [run] }
      | _ => none
  | s, .remove =>
      match s.reader with
      | .called seq req =>
          match rpcSessionpoolRemove s.reqPool seq with
          | some pool => some { s with reader := .removed req, reqPool := pool }
          | none => none
      | _ => none
  | s, .free more =>
      match s.reader with
      | .removed req => some { rpcRequestFree s req more with reader := .idle }
      | _ => none

/-- When each step can be taken, and what it does. -/
inductive ClientMoves (s : ClientState) : ClientAction → ClientState → Prop where
  | call {t : Nat} {args : CallArgs} {fresh : Nat} (req : Nat) (s₁ : ClientState)
      (idle : s.callers t = none) (new : rpcRequestNew s fresh = some (req, s₁)) :
      ClientMoves s (.call t args fresh)
        { s₁ with heap := Function.update s₁.heap req (args.fill (s₁.heap req))
                  callers := Function.update s₁.callers t (some ⟨req, args⟩) }
  | push {t : Nat} (req : Nat) (args : CallArgs) (here : s.callers t = some ⟨req, args⟩) :
      ClientMoves s (.push t)
        { s with callers := Function.update s.callers t none
                 reqPending := s.reqPending ++ [req]
                 callOf := Function.update s.callOf req s.issued.length
                 issued := s.issued ++ [⟨req, args⟩] }
  | pop (req : Nat) (rest : List Nat) (idle : s.writer = .idle) (queue : s.reqPending = req :: rest) :
      ClientMoves s .pop
        { s with writer := .popped req, reqPending := rest, popped := s.popped + 1 }
  | insert {more : Nat → Option Nat} (req : Nat) (index : Int) (pool : Sessionpool)
      (popped : s.writer = .popped req)
      (inserted : rpcSessionpoolInsert (some more) s.reqPool req = (index, pool))
      (fits : pool.size ≤ INT_MAX) :
      ClientMoves s (.insert more) { s with writer := .inserted req index, reqPool := pool }
  | stamp (req : Nat) (index : Int) (inserted : s.writer = .inserted req index) :
      ClientMoves s .stamp
        { s with writer := .stamped req
                 heap := Function.update s.heap req { s.heap req with seq := index } }
  | send (req conn : Nat) (stamped : s.writer = .stamped req)
      (picked : rpcArrayIndex s.reqConns ((s.lastConn + 1) % s.reqConnCount).toNat = some conn) :
      ClientMoves s .send
        { s with writer := .idle
                 lastConn := (s.lastConn + 1) % s.reqConnCount
                 toPeer := Function.update s.toPeer conn
                   (s.toPeer conn ++ [⟨s.callOf req, s.heap req⟩]) }
  | receive {conn : Nat} (m : SentRequest) (rest : List SentRequest)
      (channel : s.toPeer conn = m :: rest) :
      ClientMoves s (.receive conn)
        { s with toPeer := Function.update s.toPeer conn rest
                 atPeer := Function.update s.atPeer conn (s.atPeer conn ++ [m]) }
  | answer {conn j : Nat} {code : Int} {output : List Byte} (m : SentRequest)
      (taken : (s.atPeer conn)[j]? = some m) :
      ClientMoves s (.answer conn j code output)
        { s with atPeer := Function.update s.atPeer conn ((s.atPeer conn).eraseIdx j)
                 toClient := Function.update s.toClient conn
                   (s.toClient conn ++ [⟨m.call, code, m.request.seq, output⟩])
                 answers := s.answers ++ [⟨m.call, code, m.request.seq, output⟩] }
  | read {conn : Nat} (rsp : SentResponse) (rest : List SentResponse) (idle : s.reader = .idle)
      (channel : s.toClient conn = rsp :: rest) :
      ClientMoves s (.read conn)
        { s with toClient := Function.update s.toClient conn rest
                 reader := .got rsp (rpcSessionpoolGet s.reqPool rsp.seq) }
  | unequal (rsp : SentResponse) (req : Nat) (got : s.reader = .got rsp (some (some req)))
      (other : (s.heap req).seq ≠ rsp.seq) :
      ClientMoves s .callback { s with reader := .idle }
  | callback (rsp : SentResponse) (req : Nat) (got : s.reader = .got rsp (some (some req)))
      (same : (s.heap req).seq = rsp.seq) :
      ClientMoves s .callback
        { s with reader := .called rsp.seq req
                 callbacks := s.callbacks ++ [⟨s.callOf req, (s.heap req).callback,
                   (s.heap req).data, rsp.code, rsp.output⟩] }
  | remove (seq : Int) (req : Nat) (pool : Sessionpool) (called : s.reader = .called seq req)
      (removed : rpcSessionpoolRemove s.reqPool seq = some pool) :
      ClientMoves s .remove { s with reader := .removed req, reqPool := pool }
  | free {more : Nat → Option Nat} (req : Nat) (removed : s.reader = .removed req) :
      ClientMoves s (.free more) { rpcRequestFree s req more with reader := .idle }

theorem rpcRequestNew_frame {s s₁ : ClientState} {fresh req : Nat}
    (new : rpcRequestNew s fresh = some (req, s₁)) :
    ∃ freelist allocated, s₁ = { s with freelist := freelist, allocated := allocated } := by
  unfold rpcRequestNew at new
  split at new
  · cases new
    exact ⟨_, s.allocated, rfl⟩
  · split at new
    · cases new
    · cases new
      exact ⟨_, _, rfl⟩

theorem clientStep_moves {s s' : ClientState} {a : ClientAction} (step : clientStep s a = some s') :
    ClientMoves s a s' := by
  cases a with
  | call t args fresh =>
      simp only [clientStep] at step
      split at step
      · rename_i req s₁ idle new
        cases step
        exact .call req s₁ idle new
      · cases step
  | push t =>
      simp only [clientStep] at step
      split at step
      · rename_i req args here
        cases step
        exact .push req args here
      · cases step
  | pop =>
      simp only [clientStep] at step
      split at step
      · rename_i req rest idle queue
        cases step
        exact .pop req rest idle queue
      · cases step
  | insert more =>
      simp only [clientStep] at step
      split at step
      · rename_i req popped
        split at step
        · rename_i fits
          cases step
          exact .insert req _ _ popped rfl fits
        · cases step
      · cases step
  | stamp =>
      simp only [clientStep] at step
      split at step
      · rename_i req index inserted
        cases step
        exact .stamp req index inserted
      · cases step
  | send =>
      simp only [clientStep] at step
      split at step
      · rename_i req stamped
        split at step
        · rename_i conn picked
          cases step
          exact .send req conn stamped picked
        · cases step
      · cases step
  | receive conn =>
      simp only [clientStep] at step
      split at step
      · rename_i m rest channel
        cases step
        exact .receive m rest channel
      · cases step
  | answer conn j code output =>
      simp only [clientStep] at step
      split at step
      · rename_i m taken
        cases step
        exact .answer m taken
      · cases step
  | read conn =>
      simp only [clientStep] at step
      split at step
      · rename_i rsp rest idle channel
        cases step
        exact .read rsp rest idle channel
      · cases step
  | callback =>
      simp only [clientStep] at step
      split at step
      · rename_i rsp req got
        split at step
        · rename_i other
          cases step
          exact .unequal rsp req got other
        · rename_i same
          cases step
          exact .callback rsp req got (not_not.mp same)
      · cases step
  | remove =>
      simp only [clientStep] at step
      split at step
      · rename_i seq req called
        split at step
        · rename_i pool removed
          cases step
          exact .remove seq req pool called removed
        · cases step
      · cases step
  | free more =>
      simp only [clientStep] at step
      split at step
      · rename_i req removed
        cases step
        exact .free req removed
      · cases step

end OpenRpc
