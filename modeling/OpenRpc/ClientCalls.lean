import OpenRpc.ClientTraffic

/-! # The calls of a client thread -/

namespace OpenRpc

open Transition Memory

namespace ClientState

/-- The request of the call waits in `req_pending`. -/
def Pending (s : ClientState) (k : Nat) : Prop := ∃ r ∈ s.reqPending, s.callOf r = k

/-- The request of the call was popped and its callback has not run: the writer has it, or the session
    pool holds it in the slot that is or becomes its `seq`. -/
def Outstanding (s : ClientState) (k : Nat) : Prop :=
  k < s.popped ∧ k ∉ s.completed ∧ ∃ r, s.callOf r = k ∧
    (s.writer = .popped r ∨
      ∃ i, rpcSessionpoolGet s.reqPool i = some (some r) ∧
        (s.writer = .inserted r i ∨ (s.heap r).seq = i))

/-- The callback of the call has run. -/
def Completed (s : ClientState) (k : Nat) : Prop := k ∈ s.completed

structure Matched (s : ClientState) : Prop where
  one : ∀ k < s.issued.length,
    (s.Pending k ∧ ¬ s.Outstanding k ∧ ¬ s.Completed k) ∨
    (¬ s.Pending k ∧ s.Outstanding k ∧ ¬ s.Completed k) ∨
    (¬ s.Pending k ∧ ¬ s.Outstanding k ∧ s.Completed k)
  once : s.completed.Nodup
  right : ∀ run ∈ s.callbacks, run.Right s
  /-- `cb_rsp_read` neither gets a NULL request nor finds that "seq not equal!". -/
  found : ∀ rsp p, s.reader = .got rsp p → ∃ r, p = some (some r) ∧ (s.heap r).seq = rsp.seq

end ClientState

section

variable {s : ClientState} {place : Nat → Place} {session : Sessions} {k : Nat}

theorem pending_iff (books : Books s place session) :
    s.Pending k ↔ s.popped ≤ k ∧ k < s.issued.length := by
  have fifo : k ∈ s.reqPending.map s.callOf ↔ s.popped ≤ k ∧ k < s.issued.length := by
    rw [books.fifo, List.mem_range'_1, Nat.add_sub_cancel' books.bound]
  rw [← fifo, List.mem_map, ClientState.Pending]

theorem outstanding_of_uncompleted (matching : Matching s place session) (popped : k < s.popped)
    (uncompleted : k ∉ s.completed) : s.Outstanding k := by
  refine ⟨popped, uncompleted, ?_⟩
  rcases matching.books.accounted k popped with done | ⟨r, call, writing | ⟨i, phase, entry, -⟩⟩
  · exact absurd done uncompleted
  · exact ⟨r, call, .inl ((matching.objects.writer r).mp writing)⟩
  · refine ⟨r, call, .inr ⟨i, matching.objects.pool i r phase entry, ?_⟩⟩
    by_cases held : phase = .held
    · exact (matching.inFlight.held i r phase entry held).imp_right And.right
    · exact .inr (matching.inFlight.seq i r phase entry held)

theorem matched_of_matching (matching : Matching s place session) : s.Matched where
  one := by
    intro k issued
    have pending := pending_iff (k := k) matching.books
    by_cases popped : k < s.popped
    · have not_pending : ¬ s.Pending k := fun holds =>
        Nat.not_le_of_lt popped (pending.mp holds).1
      by_cases completed : s.Completed k
      · exact .inr (.inr ⟨not_pending, fun holds => holds.2.1 completed, completed⟩)
      · exact .inr (.inl ⟨not_pending, outstanding_of_uncompleted matching popped completed,
          completed⟩)
    · exact .inl ⟨pending.mpr ⟨Nat.le_of_not_lt popped, issued⟩, fun holds => popped holds.1,
        fun completed => popped (matching.books.below k completed)⟩
  once := matching.books.once
  right := matching.books.right
  found := by
    intro rsp p got
    obtain ⟨r, pointer, seq, -⟩ := got_found matching got
    exact ⟨r, pointer, seq⟩

end

/-- In every state of every run, each issued call is in one of the three states, its callback has run
    at most once and with what belongs to it, and a response finds its request. -/
theorem cbRspRead_matched (heap : Nat → RpcRequest) (conns : RpcArray) (actions : List ClientAction)
    (s : ClientState) (run : exec clientStep (.initial heap conns) actions = some s) : s.Matched := by
  obtain ⟨place, session, matching⟩ := exec_invariant
    (I := fun s => ∃ place session, Matching s place session)
    (fun _ _ _ step before => clientStep_keeps step before) run
    ⟨_, _, matching_initial heap conns⟩
  exact matched_of_matching matching

/-- Two calls, answered in the other order. -/
theorem cbRspRead_matched_twoCalls :
    ∃ s, exec clientStep (.initial (fun _ => .zeroed) (rpcArrayAdd none rpcArrayNew (some 7)).2)
        [.call 0 ⟨.null, .null, .null, 0, 3, 5⟩ 64, .push 0, .call 1 ⟨.null, .null, .null, 0, 3, 6⟩ 65,
          .pop, .push 1, .insert fun _ => none, .stamp, .send, .pop, .insert fun _ => none, .stamp,
          .send, .receive 7, .receive 7, .answer 7 1 0 [104], .answer 7 0 1 [105], .read 7, .callback,
          .remove, .free fun _ => none, .read 7, .callback] = some s ∧
      s.Matched ∧ s.callbacks = [⟨1, 3, 6, 0, [104]⟩, ⟨0, 3, 5, 1, [105]⟩] := by
  obtain ⟨s, run, callbacks⟩ : ∃ s, exec clientStep
      (.initial (fun _ => .zeroed) (rpcArrayAdd none rpcArrayNew (some 7)).2)
        [.call 0 ⟨.null, .null, .null, 0, 3, 5⟩ 64, .push 0, .call 1 ⟨.null, .null, .null, 0, 3, 6⟩ 65,
          .pop, .push 1, .insert fun _ => none, .stamp, .send, .pop, .insert fun _ => none, .stamp,
          .send, .receive 7, .receive 7, .answer 7 1 0 [104], .answer 7 0 1 [105], .read 7, .callback,
          .remove, .free fun _ => none, .read 7, .callback] = some s ∧
      s.callbacks = [⟨1, 3, 6, 0, [104]⟩, ⟨0, 3, 5, 1, [105]⟩] := ⟨_, rfl, rfl⟩
  exact ⟨s, run, cbRspRead_matched _ _ _ s run, callbacks⟩

end OpenRpc
