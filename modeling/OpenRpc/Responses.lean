import OpenRpc.ClientThread
import OpenRpc.Sessions

/-! # Any response

A client thread whose peer may send any well-formed response at any time. The number in a response goes
to `rpc_sessionpool_get` as it is, so the thread survives exactly the responses that name a slot with a
request in it. What has been inserted and not removed is recorded beside the thread, since after a
growth the pool also shows pointers that nobody inserted.
-/

namespace OpenRpc

open Transition

structure OpenClient where
  client : ClientState
  live : Live

def OpenClient.initial (heap : Nat → RpcRequest) (conns : RpcArray) : OpenClient :=
  ⟨.initial heap conns, fun _ => none⟩

inductive OpenAction where
  | own (a : ClientAction)
  /-- The peer sends a response of its own choice. -/
  | respond (conn : Nat) (rsp : SentResponse)

/-- The inserted sessions after a step of the thread. -/
def liveAfter (s : ClientState) (live : Live) : ClientAction → Live
  | .insert more =>
      match s.writer with
      | .popped req =>
          Function.update live (rpcSessionpoolInsert (some more) s.reqPool req).1 (some req)
      | _ => live
  | .remove =>
      match s.reader with
      | .called seq _ => Function.update live seq none
      | _ => live
  | _ => live

def openStep : Step OpenClient OpenAction
  | s, .own a => (clientStep s.client a).map fun client => ⟨client, liveAfter s.client s.live a⟩
  | s, .respond conn rsp =>
      let toClient := Function.update s.client.toClient conn (s.client.toClient conn ++ [rsp])
      some { s with client := { s.client with toClient := toClient } }

/-- Every request inserted and not removed is in its slot. -/
def Shown (pool : Sessionpool) (live : Live) : Prop :=
  ∀ i r, live i = some r → rpcSessionpoolGet pool i = some (some r)

theorem Shown.insert {pool pool' : Sessionpool} {live : Live} (shown : Shown pool live)
    {more : Nat → Option Nat} {req : Nat} {index : Int}
    (inserted : rpcSessionpoolInsert (some more) pool req = (index, pool')) :
    live index = none ∧ Shown pool' (Function.update live index (some req)) := by
  obtain ⟨index', pool'', inserted', mine, fresh, others⟩ := rpcSessionpoolInsert_spec more pool req
  cases inserted.symm.trans inserted'
  constructor
  · cases entry : live index with
    | none => rfl
    | some r => exact absurd (shown index r entry) (fresh r)
  · intro i r entry
    by_cases same : i = index
    · rw [same, Function.update_self] at entry
      cases entry
      rwa [same]
    · rw [Function.update_of_ne same] at entry
      exact others i r same (shown i r entry)

theorem Shown.remove {pool pool' : Sessionpool} {live : Live} (shown : Shown pool live) {seq : Int}
    (removed : rpcSessionpoolRemove pool seq = some pool') :
    Shown pool' (Function.update live seq none) := by
  intro i r entry
  by_cases same : i = seq
  · rw [same, Function.update_self] at entry
    cases entry
  · rw [Function.update_of_ne same] at entry
    exact (rpcSessionpoolRemove_get removed i).trans ((if_neg same).trans (shown i r entry))

namespace OpenClient

/-- The request inserted under this number waits for its response. -/
def Awaits (s : OpenClient) (seq : Int) : Prop :=
  ∃ r, s.live seq = some r ∧ (s.client.heap r).seq = seq

/-- What `cb_rsp_read` does with a response at this step is sound. Taking it out, it fails no assertion,
    and the pointer it goes on with is neither NULL nor one that was not inserted. Where no request
    awaits the response, it leaves everything as it is. -/
def Survives (s : OpenClient) : OpenAction → Prop
  | .own (.read conn) => ∀ rsp rest, s.client.reader = .idle → s.client.toClient conn = rsp :: rest →
      ∃ r, rpcSessionpoolGet s.client.reqPool rsp.seq = some (some r) ∧ s.live rsp.seq = some r
  | .own .callback => ∀ rsp p s', s.client.reader = .got rsp p → ¬s.Awaits rsp.seq →
      openStep s (.own .callback) = some s' → s' = { s with client := { s.client with reader := .idle } }
  | _ => True

/-- The response taken out names a request that was inserted and not removed. -/
def NamesInserted (s : OpenClient) : OpenAction → Prop
  | .own (.read conn) => ∀ rsp rest, s.client.reader = .idle → s.client.toClient conn = rsp :: rest →
      s.live rsp.seq ≠ none
  | _ => True

/-- The pool shows every inserted request in its slot, and the reader holds one. -/
structure Tracked (s : OpenClient) : Prop where
  pool : Shown s.client.reqPool s.live
  got : ∀ rsp p, s.client.reader = .got rsp p → ∃ r, p = some (some r) ∧ s.live rsp.seq = some r

theorem initial_tracked (heap : Nat → RpcRequest) (conns : RpcArray) :
    (initial heap conns).Tracked := by
  constructor
  · intro i r impossible
    cases impossible
  · intro rsp p impossible
    cases impossible

theorem Tracked.frame {s : OpenClient} (tracked : s.Tracked) {client : ClientState}
    (pool : client.reqPool = s.client.reqPool) (reader : client.reader = s.client.reader) :
    Tracked ⟨client, s.live⟩ := by
  constructor
  · rw [pool]
    exact tracked.pool
  · rw [reader]
    exact tracked.got

theorem openStep_tracked {s s' : OpenClient} {a : OpenAction} (names : s.NamesInserted a)
    (step : openStep s a = some s') (tracked : s.Tracked) : s'.Tracked := by
  cases a with
  | respond conn rsp =>
      cases step
      exact tracked.frame rfl rfl
  | own a =>
      obtain ⟨client, taken, rfl⟩ := Option.map_eq_some_iff.mp step
      cases clientStep_moves taken with
      | call req s₁ idle new =>
          obtain ⟨freelist, allocated, rfl⟩ := rpcRequestNew_frame new
          exact tracked.frame rfl rfl
      | push req here => exact tracked.frame rfl rfl
      | pop req rest idle queue => exact tracked.frame rfl rfl
      | @insert more req index pool popped inserted fits =>
          have live : liveAfter s.client s.live (.insert more) =
              Function.update s.live index (some req) := by
            simp only [liveAfter, popped, inserted]
          obtain ⟨fresh, shown⟩ := tracked.pool.insert inserted
          rw [live]
          refine ⟨shown, fun rsp p got => ?_⟩
          obtain ⟨r, pointer, entry⟩ := tracked.got rsp p got
          have other : rsp.seq ≠ index := by
            intro same
            rw [same, fresh] at entry
            cases entry
          exact ⟨r, pointer, (Function.update_of_ne other ..).trans entry⟩
      | stamp req index inserted => exact tracked.frame rfl rfl
      | send req conn stamped picked => exact tracked.frame rfl rfl
      | receive m rest channel => exact tracked.frame rfl rfl
      | answer m taken => exact tracked.frame rfl rfl
      | read rsp rest idle channel =>
          refine ⟨tracked.pool, fun rsp' p got => ?_⟩
          cases got
          obtain ⟨r, entry⟩ := Option.ne_none_iff_exists'.mp (names rsp rest idle channel)
          exact ⟨r, tracked.pool _ r entry, entry⟩
      | unequal rsp req got other =>
          refine ⟨tracked.pool, fun rsp' p got' => ?_⟩
          cases got'
      | callback rsp req got same =>
          refine ⟨tracked.pool, fun rsp' p got' => ?_⟩
          cases got'
      | remove seq req pool called removed =>
          have live : liveAfter s.client s.live .remove = Function.update s.live seq none := by
            simp only [liveAfter, called]
          rw [live]
          refine ⟨tracked.pool.remove removed, fun rsp p got => ?_⟩
          cases got
      | free req removed =>
          refine ⟨tracked.pool, fun rsp p got => ?_⟩
          cases got

theorem survives_iff {s : OpenClient} (tracked : s.Tracked) (a : OpenAction) :
    s.Survives a ↔ s.NamesInserted a := by
  cases a with
  | respond conn rsp => exact Iff.rfl
  | own a =>
      cases a with
      | read conn =>
          constructor
          · intro survives rsp rest idle channel missing
            obtain ⟨r, -, entry⟩ := survives rsp rest idle channel
            rw [missing] at entry
            cases entry
          · intro names rsp rest idle channel
            obtain ⟨r, entry⟩ := Option.ne_none_iff_exists'.mp (names rsp rest idle channel)
            exact ⟨r, tracked.pool _ r entry, entry⟩
      | callback =>
          apply iff_of_true _ trivial
          intro rsp p s' got unawaited step
          obtain ⟨client, taken, rfl⟩ := Option.map_eq_some_iff.mp step
          cases clientStep_moves taken with
          | unequal rsp' req got' other => rfl
          | callback rsp' req got' same =>
              cases got.symm.trans got'
              obtain ⟨r, pointer, entry⟩ := tracked.got rsp _ got
              cases pointer
              exact absurd ⟨req, entry, same⟩ unawaited
      | _ => exact Iff.rfl

end OpenClient

/-- A client thread fails no assertion, follows only pointers to requests that were inserted, and lets
    alone what a response is not about, in exactly the runs in which every response it takes out names a
    request that was inserted and not removed. -/
theorem cbRspRead_survives (heap : Nat → RpcRequest) (conns : RpcArray) (actions : List OpenAction) :
    Along openStep OpenClient.Survives (.initial heap conns) actions ↔
      Along openStep OpenClient.NamesInserted (.initial heap conns) actions :=
  along_congr (fun _ a tracked => OpenClient.survives_iff tracked a)
    (fun _ a _ survives step tracked =>
      OpenClient.openStep_tracked ((OpenClient.survives_iff tracked a).mp survives) step tracked)
    actions (OpenClient.initial_tracked heap conns)

/-- One call, answered twice, and a response numbered -1: the second answer gives NULL, and the response
    fails an assertion. -/
theorem cbRspRead_survives_fails :
    let called : List OpenAction :=
      [.own (.call 0 ⟨.null, .null, .null, 0, 3, 5⟩ 64), .own (.push 0), .own .pop,
        .own (.insert fun _ => none), .own .stamp, .own .send]
    let answered : List OpenAction :=
      [.respond 7 ⟨0, 200, 0, []⟩, .respond 7 ⟨0, 200, 0, []⟩, .own (.read 7), .own .callback,
        .own .remove, .own (.free fun _ => none)]
    let start := OpenClient.initial (fun _ => .zeroed) (rpcArrayAdd none rpcArrayNew (some 7)).2
    ¬Along openStep OpenClient.Survives start (called ++ answered ++ [.own (.read 7)]) ∧
    ¬Along openStep OpenClient.Survives start ([.respond 7 ⟨0, 200, -1, []⟩] ++ [.own (.read 7)]) := by
  intro called answered start
  constructor
  · intro along
    obtain ⟨s, s', run, next, idle, channel, null⟩ : ∃ s s',
        exec openStep start (called ++ answered) = some s ∧
        openStep s (.own (.read 7)) = some s' ∧ s.client.reader = .idle ∧
        s.client.toClient 7 = [⟨0, 200, 0, []⟩] ∧
        rpcSessionpoolGet s.client.reqPool 0 = some none := ⟨_, _, rfl, rfl, rfl, rfl, rfl⟩
    obtain ⟨r, found, -⟩ := along_last along run next _ _ idle channel
    cases null.symm.trans found
  · intro along
    obtain ⟨s, s', run, next, idle, channel, fails⟩ : ∃ s s',
        exec openStep start [.respond 7 ⟨0, 200, -1, []⟩] = some s ∧
        openStep s (.own (.read 7)) = some s' ∧ s.client.reader = .idle ∧
        s.client.toClient 7 = [⟨0, 200, -1, []⟩] ∧
        rpcSessionpoolGet s.client.reqPool (-1) = none := ⟨_, _, rfl, rfl, rfl, rfl, rfl⟩
    obtain ⟨r, found, -⟩ := along_last along run next _ _ idle channel
    cases fails.symm.trans found

end OpenRpc
