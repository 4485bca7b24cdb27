import OpenRpc.ClientCalls

/-! # The order in which a client thread writes

`thread_write_hander` takes the calls in the order of their pushes, writes the request of each of them
once, and goes round the connections: the `k`-th request written is that of the `k`-th call, on
connection `k % req_conn_count`, and says what the caller had filled in.
-/

namespace OpenRpc

open Transition Memory

/-- A request written: the connection it goes to, and the request. -/
structure Written where
  conn : Option Nat
  sent : SentRequest

/-- The request a step writes, if it writes one. -/
def ClientState.written (s : ClientState) : ClientAction → List Written
  | .send =>
      match s.writer with
      | .stamped req =>
          [⟨rpcArrayIndex s.reqConns ((s.lastConn + 1) % s.reqConnCount).toNat,
            ⟨s.callOf req, s.heap req⟩⟩]
      | _ => []
  | _ => []

/-- The object the writing thread has in hand. -/
def Writer.object : Writer → Option Nat
  | .idle => none
  | .popped req | .inserted req _ | .stamped req => some req

/-- The request holds the arguments of its call. -/
def SentRequest.Means (m : SentRequest) (issued : List Issued) : Prop :=
  ∃ i, issued[m.call]? = some i ∧ m.request = i.args.fill m.request

/-- What was written so far: the calls from the first one on, up to the one in hand. -/
structure ClientState.InOrder (conns : RpcArray) (s : ClientState) (log : List Written) : Prop where
  same : s.reqConns = conns ∧ s.reqConnCount = conns.cur
  turn : ((s.lastConn + 1) % s.reqConnCount).toNat = log.length % s.reqConnCount
  hand : ∀ r, s.writer.object = some r → s.callOf r = log.length
  popped : s.popped = log.length + if s.writer = .idle then 0 else 1
  entries : ∀ (k : Nat) (w : Written), log[k]? = some w →
    w.conn = rpcArrayIndex conns (k % conns.cur) ∧ w.sent.call = k ∧ w.sent.Means s.issued

section Steps

variable {s s' : ClientState} {place : Nat → Place} {session : Sessions} {conns : RpcArray}
  {log : List Written}

theorem hand_live (matching : Matching s place session) {r : Nat}
    (hand : s.writer.object = some r) : (place r).Live := by
  have slot : ∀ i, session i = some ⟨r, .held⟩ → (place r).Live := by
    intro i held
    rw [(matching.objects.slot r i).mpr ⟨_, held⟩]
    trivial
  cases writer : s.writer with
  | idle => simp [writer, Writer.object] at hand
  | popped req =>
      cases (by simpa [writer, Writer.object] using hand : req = r)
      rw [(matching.objects.writer r).mpr writer]
      trivial
  | inserted req i =>
      cases (by simpa [writer, Writer.object] using hand : req = r)
      exact slot i (matching.inFlight.inserted r i writer)
  | stamped req =>
      cases (by simpa [writer, Writer.object] using hand : req = r)
      exact slot _ (matching.inFlight.stamped r writer)

theorem hand_means (matching : Matching s place session) {r : Nat}
    (hand : s.writer.object = some r) : SentRequest.Means ⟨s.callOf r, s.heap r⟩ s.issued := by
  obtain ⟨args, issued, content⟩ := matching.books.content r (hand_live matching hand)
  exact ⟨⟨r, args⟩, issued, content⟩

theorem SentRequest.Means.issued {m : SentRequest} {issued : List Issued} (means : m.Means issued)
    (more : List Issued) : m.Means (issued ++ more) := by
  obtain ⟨i, here, content⟩ := means
  have inside := (List.getElem?_eq_some_iff.mp here).1
  exact ⟨i, (List.getElem?_append_left inside).trans here, content⟩

theorem next_turn {last : Int} {k n : Nat} (positive : 0 < n)
    (turn : ((last + 1) % n).toNat = k % n) : (((last + 1) % n + 1) % n).toNat = (k + 1) % n := by
  have whole : (last + 1) % n = (k % n : Nat) := by
    have nonneg := Int.emod_nonneg (last + 1) (Int.natCast_ne_zero.mpr (Nat.ne_of_gt positive))
    rw [← turn, Int.toNat_of_nonneg nonneg]
  have cast : ((k % n : Nat) + 1 : Int) % n = ((k % n + 1) % n : Nat) := by norm_cast
  rw [whole, cast, Int.toNat_natCast, Nat.mod_add_mod]

theorem inOrder_initial (heap : Nat → RpcRequest) (conns : RpcArray) :
    (ClientState.initial heap conns).InOrder conns [] where
  same := ⟨rfl, rfl⟩
  turn := by simp [ClientState.initial]
  hand := by simp [ClientState.initial, Writer.object]
  popped := rfl
  entries := by simp

theorem inOrder_step {a : ClientAction} (step : clientStep s a = some s')
    (matching : Matching s place session) (inOrder : s.InOrder conns log) :
    s'.InOrder conns (log ++ s.written a) := by
  obtain ⟨⟨array, count⟩, turn, hand, popped, entries⟩ := inOrder
  cases clientStep_moves step with
  | call req s₁ idle new =>
      obtain ⟨freelist, allocated, rfl⟩ := rpcRequestNew_frame new
      simp only [ClientState.written, List.append_nil]
      exact ⟨⟨array, count⟩, turn, hand, popped, entries⟩
  | push req args here =>
      simp only [ClientState.written, List.append_nil]
      refine ⟨⟨array, count⟩, turn, fun r held => ?_, popped, fun k w at_k => ?_⟩
      · have live := hand_live matching held
        have other : r ≠ req := by
          rintro rfl
          rw [matching.objects.callers _ _ _ here] at live
          exact live
        exact (Function.update_of_ne other ..).trans (hand r held)
      · obtain ⟨conn, call, means⟩ := entries k w at_k
        exact ⟨conn, call, means.issued _⟩
  | pop req rest idle queue =>
      simp only [ClientState.written, List.append_nil]
      rw [idle, if_pos rfl, Nat.add_zero] at popped
      refine ⟨⟨array, count⟩, turn, fun r held => ?_, by simpa using popped, entries⟩
      cases held
      -- the queue holds the calls from the first one that was not popped on
      have fifo := matching.books.fifo
      rw [queue, List.map_cons] at fifo
      cases left : s.issued.length - s.popped with
      | zero =>
          rw [left] at fifo
          cases fifo
      | succ n =>
          rw [left, List.range'_succ] at fifo
          exact (List.cons.inj fifo).1.trans popped
  | insert req index pool writing inserted fits =>
      simp only [ClientState.written, List.append_nil]
      rw [writing] at hand popped
      exact ⟨⟨array, count⟩, turn, hand, popped, entries⟩
  | stamp req index inserted =>
      simp only [ClientState.written, List.append_nil]
      rw [inserted] at hand popped
      exact ⟨⟨array, count⟩, turn, hand, popped, entries⟩
  | send req conn stamped picked =>
      have held : s.writer.object = some req := by rw [stamped, Writer.object]
      have here := hand req held
      have positive : 0 < s.reqConnCount := by
        rw [rpcArrayIndex_content] at picked
        have inside : ((s.lastConn + 1) % s.reqConnCount).toNat < s.reqConns.content.length := by
          by_contra beyond
          rw [List.getElem?_eq_none (Nat.not_lt.mp beyond)] at picked
          cases picked
        rw [RpcArray.content_length, array, ← count] at inside
        omega
      simp only [ClientState.written, stamped]
      refine ⟨⟨array, count⟩, ?_, by simp [Writer.object], ?_, fun k w at_k => ?_⟩
      · rw [List.length_append, List.length_singleton]
        exact next_turn positive turn
      · simpa [stamped] using popped
      · rw [List.getElem?_append] at at_k
        split at at_k
        · exact entries k w at_k
        · obtain ⟨last, rfl⟩ : k = log.length ∧ w = ⟨rpcArrayIndex s.reqConns
              ((s.lastConn + 1) % s.reqConnCount).toNat, ⟨s.callOf req, s.heap req⟩⟩ := by
            have inside := (List.getElem?_eq_some_iff.mp at_k).1
            rw [List.length_singleton] at inside
            have same : k = log.length := by omega
            rw [same, Nat.sub_self] at at_k
            exact ⟨same, (Option.some.inj at_k).symm⟩
          exact ⟨by rw [array, turn, count, last], here.trans last.symm, hand_means matching held⟩
  | receive | answer | read | unequal | callback | remove | free =>
      simp only [ClientState.written, List.append_nil]
      exact ⟨⟨array, count⟩, turn, hand, popped, entries⟩

end Steps

/-- In every run the requests written are those of the calls in the order of their pushes, each once
    and none left out: the `k`-th goes to connection `k % req_conn_count`, with the names and the body
    its caller gave it; only the call in hand is popped and not written yet. -/
theorem threadWriteHander_order (heap : Nat → RpcRequest) (conns : RpcArray)
    (actions : List ClientAction) (s : ClientState)
    (run : exec clientStep (.initial heap conns) actions = some s) :
    let written := emitted clientStep ClientState.written (.initial heap conns) actions
    (∀ (k : Nat) (w : Written), written[k]? = some w →
      w.conn = rpcArrayIndex conns (k % conns.cur) ∧ w.sent.call = k ∧ w.sent.Means s.issued) ∧
    s.popped = written.length + (if s.writer = .idle then 0 else 1) ∧
    s.popped + s.reqPending.length = s.issued.length := by
  have start : ∃ place session, Matching (.initial heap conns) place session ∧
      (ClientState.initial heap conns).InOrder conns [] :=
    ⟨_, _, matching_initial heap conns, inOrder_initial heap conns⟩
  obtain ⟨place, session, matching, inOrder⟩ := exec_logged
    (J := fun s log => ∃ place session, Matching s place session ∧ s.InOrder conns log)
    (fun s a s' log step before => by
      obtain ⟨place, session, matching, inOrder⟩ := before
      obtain ⟨place', session', after⟩ := clientStep_keeps step ⟨place, session, matching⟩
      exact ⟨place', session', after, inOrder_step step matching inOrder⟩) run start
  rw [List.nil_append] at inOrder
  refine ⟨inOrder.entries, inOrder.popped, ?_⟩
  have fifo := congrArg List.length matching.books.fifo
  rw [List.length_map, List.length_range'] at fifo
  have bound := matching.books.bound
  omega

/-- Two connections and two calls, of which the second one is in hand. -/
theorem threadWriteHander_order_twoCalls :
    let conns := (rpcArrayAdd none (rpcArrayAdd none rpcArrayNew (some 7)).2 (some 9)).2
    let run : List ClientAction :=
      [.call 0 ⟨.null, .null, .null, 0, 3, 5⟩ 64, .push 0, .call 1 ⟨.null, .null, .null, 0, 3, 6⟩ 65,
        .push 1, .pop, .insert fun _ => none, .stamp, .send, .pop]
    ∃ s, exec clientStep (.initial (fun _ => .zeroed) conns) run = some s ∧ s.popped = 2 ∧
      ∀ (k : Nat) (w : Written),
        (emitted clientStep ClientState.written (.initial (fun _ => .zeroed) conns) run)[k]? = some w →
          w.conn = rpcArrayIndex conns (k % 2) ∧ w.sent.call = k := by
  intro conns run
  obtain ⟨s, reached, popped⟩ : ∃ s, exec clientStep (.initial (fun _ => .zeroed) conns) run = some s ∧
      s.popped = 2 := ⟨_, rfl, rfl⟩
  refine ⟨s, reached, popped, fun k w at_k => ?_⟩
  obtain ⟨conn, call, -⟩ := (threadWriteHander_order _ conns run s reached).1 k w at_k
  exact ⟨conn, call⟩

end OpenRpc
