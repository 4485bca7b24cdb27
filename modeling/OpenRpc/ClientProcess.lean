import OpenRpc.ClientCalls
import OpenRpc.ClientOrder

/-! # The client process and its channels

A client thread apart from the channels to its peer: what the process itself does is the same whatever
the channels hold. Then what the steps keep besides the matching: what the callers fill in, the size of
the session pool, and that no call gets lost on its way through the channels.
-/

namespace OpenRpc

open Transition Memory

/-- The messages on their way, and the answers the peer has given. -/
structure Channels where
  toPeer : Nat → List SentRequest
  atPeer : Nat → List SentRequest
  toClient : Nat → List SentResponse
  answers : List SentResponse

def Channels.empty : Channels := ⟨fun _ => [], fun _ => [], fun _ => [], []⟩

/-- The reader without the number of the call that its response is for. -/
def ReaderPc.forget : ReaderPc → ReaderPc
  | .got rsp req => .got { rsp with call := 0 } req
  | pc => pc

namespace ClientState

def channels (s : ClientState) : Channels := ⟨s.toPeer, s.atPeer, s.toClient, s.answers⟩

def carrying (s : ClientState) (c : Channels) (reader : ReaderPc) : ClientState :=
  { s with toPeer := c.toPeer, atPeer := c.atPeer, toClient := c.toClient, answers := c.answers
           reader := reader }

/-- What the process itself has of the state. -/
def process (s : ClientState) : ClientState := s.carrying .empty s.reader.forget

end ClientState

/-- The steps that go through no channel. -/
def ClientAction.inProcess : ClientAction → Bool
  | .send | .receive _ | .answer _ _ _ _ | .read _ => false
  | _ => true

section Carrying

variable {s t : ClientState} {c : Channels} {q : ReaderPc}

theorem carrying_process : s.process.carrying s.channels s.reader = s := rfl

theorem carrying_new {fresh req : Nat} (new : rpcRequestNew s fresh = some (req, t)) :
    rpcRequestNew (s.carrying c q) fresh = some (req, t.carrying c q) := by
  unfold rpcRequestNew at new ⊢
  simp only [ClientState.carrying] at new ⊢
  split at new
  · cases new
    simp only [*]
  · split at new
    · cases new
    · cases new
      simp only [*, if_false]

theorem forget_got {rsp : SentResponse} {p : Option (Option Nat)} (got : q.forget = .got rsp p) :
    ∃ call, q = .got { rsp with call := call } p := by
  cases q with
  | got rsp' p' =>
      cases got
      exact ⟨rsp'.call, rfl⟩
  | idle | called | removed => cases got

theorem forget_other (other : ∀ rsp p, q.forget ≠ .got rsp p) : q.forget = q := by
  cases q with
  | got rsp p => exact absurd rfl (other _ _)
  | idle | called | removed => rfl

theorem clientStep_carrying {a : ClientAction} (own : a.inProcess = true)
    (step : clientStep s a = some t) (reader : q.forget = s.reader) :
    ∃ q', clientStep (s.carrying c q) a = some (t.carrying c q') ∧ q'.forget = t.reader := by
  cases clientStep_moves step with
  | call req s₁ idle new =>
      obtain ⟨freelist, allocated, rfl⟩ := rpcRequestNew_frame new
      have new' := carrying_new (c := c) (q := q) new
      have idle' : (s.carrying c q).callers _ = none := idle
      refine ⟨q, ?_, reader⟩
      simp only [clientStep, idle', new']
      rfl
  | push req args here =>
      have here' : (s.carrying c q).callers _ = some ⟨req, args⟩ := here
      refine ⟨q, ?_, reader⟩
      simp only [clientStep, here']
      rfl
  | pop req rest idle queue =>
      have idle' : (s.carrying c q).writer = .idle := idle
      have queue' : (s.carrying c q).reqPending = req :: rest := queue
      refine ⟨q, ?_, reader⟩
      simp only [clientStep, idle', queue']
      rfl
  | @insert more req index pool popped inserted fits =>
      have popped' : (s.carrying c q).writer = .popped req := popped
      have inserted' : rpcSessionpoolInsert (some more) (s.carrying c q).reqPool req = (index, pool) :=
        inserted
      refine ⟨q, ?_, reader⟩
      simp only [clientStep, popped', inserted', if_pos fits]
      rfl
  | stamp req index inserted =>
      have inserted' : (s.carrying c q).writer = .inserted req index := inserted
      refine ⟨q, ?_, reader⟩
      simp only [clientStep, inserted']
      rfl
  | send | receive | answer | read => cases own
  | unequal rsp req got other =>
      obtain ⟨call, rfl⟩ := forget_got (reader.trans got)
      refine ⟨.idle, ?_, rfl⟩
      simp only [clientStep, ClientState.carrying]
      exact if_pos other
  | callback rsp req got same =>
      obtain ⟨call, rfl⟩ := forget_got (reader.trans got)
      refine ⟨.called rsp.seq req, ?_, rfl⟩
      simp only [clientStep, ClientState.carrying, same, ne_eq, not_true_eq_false, if_false]
  | remove seq req pool called removed =>
      have here : q = .called seq req := by
        rw [← forget_other (q := q) (by rw [reader, called]; simp), reader, called]
      subst here
      refine ⟨.removed req, ?_, rfl⟩
      simp only [clientStep, ClientState.carrying, removed]
  | free req removed =>
      have here : q = .removed req := by
        rw [← forget_other (q := q) (by rw [reader, removed]; simp), reader, removed]
      subst here
      exact ⟨.idle, rfl, rfl⟩

end Carrying

section Filled

variable {s s' : ClientState} {a : ClientAction}

/-- The arguments of the calls meet a condition. -/
structure ClientState.Filled (P : CallArgs → Prop) (s : ClientState) : Prop where
  callers : ∀ t call, s.callers t = some call → P call.args
  issued : ∀ call ∈ s.issued, P call.args

def ClientAction.Fills (P : CallArgs → Prop) : ClientAction → Prop
  | .call _ args _ => P args
  | _ => True

theorem filled_step {P : CallArgs → Prop} (step : clientStep s a = some s') (fills : a.Fills P)
    (filled : s.Filled P) : s'.Filled P := by
  obtain ⟨callers, issued⟩ := filled
  cases clientStep_moves step with
  | @call t args fresh req s₁ idle new =>
      obtain ⟨freelist, allocated, rfl⟩ := rpcRequestNew_frame new
      refine ⟨fun u call here => ?_, issued⟩
      by_cases same : u = t
      · subst same
        cases (Function.update_self ..).symm.trans here
        exact fills
      · exact callers u call ((Function.update_of_ne same ..).symm.trans here)
  | @push t req args here =>
      refine ⟨fun u call there => ?_, fun call member => ?_⟩
      · by_cases same : u = t
        · subst same
          cases (Function.update_self ..).symm.trans there
        · exact callers u call ((Function.update_of_ne same ..).symm.trans there)
      · rcases List.mem_append.mp member with old | last
        · exact issued call old
        · rw [List.mem_singleton.mp last]
          exact callers t ⟨req, args⟩ here
  | pop | insert | stamp | send | receive | answer | read | unequal | callback | remove | free =>
      exact ⟨callers, issued⟩

theorem issued_step (step : clientStep s a = some s') {k : Nat} {call : Issued}
    (here : s.issued[k]? = some call) : s'.issued[k]? = some call := by
  cases clientStep_moves step with
  | call req s₁ idle new =>
      obtain ⟨freelist, allocated, rfl⟩ := rpcRequestNew_frame new
      exact here
  | push => exact (List.getElem?_append_left (List.getElem?_eq_some_iff.mp here).1).trans here
  | pop | insert | stamp | send | receive | answer | read | unequal | callback | remove | free =>
      exact here

theorem size_remove {pool pool' : Sessionpool} {index : Int}
    (removed : rpcSessionpoolRemove pool index = some pool') : pool'.size = pool.size := by
  unfold rpcSessionpoolRemove at removed
  split at removed
  · split at removed
    · cases removed
      rfl
    · cases removed
      rfl
  · cases removed

/-- The session pool never grows beyond what an `int` can count, and the connections stay. -/
theorem pool_step (step : clientStep s a = some s') (fits : s.reqPool.size ≤ INT_MAX) :
    s'.reqPool.size ≤ INT_MAX ∧ s'.reqConns = s.reqConns ∧ s'.reqConnCount = s.reqConnCount := by
  cases clientStep_moves step with
  | call req s₁ idle new =>
      obtain ⟨freelist, allocated, rfl⟩ := rpcRequestNew_frame new
      exact ⟨fits, rfl, rfl⟩
  | insert req index pool popped inserted fits' => exact ⟨fits', rfl, rfl⟩
  | remove seq req pool called removed => exact ⟨by rwa [← size_remove removed] at fits, rfl, rfl⟩
  | push | pop | stamp | send | receive | answer | read | unequal | callback | free =>
      exact ⟨fits, rfl, rfl⟩

end Filled

end OpenRpc
