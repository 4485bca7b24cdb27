import OpenRpc.DialogueSteps

/-! # Whole dialogues

What follows for runs over bytes from the fact that they are runs over messages: each callback gets the
answer of its own service to its own request, once; where nothing is on its way none is missing; and no
step of either process asserts, reads through NULL or finds bytes it cannot make anything of.
-/

namespace OpenRpc

open Transition Memory Decimal

/-- The callback ran with the function and data of its call, and with what the service the call is for
    answers to its bytes. -/
def CallbackRun.Served (run : CallbackRun) (net : Network) (d : Dialogue) : Prop :=
  ∃ call, d.thread.issued[run.call]? = some call ∧ run.callback = call.args.callback ∧
    run.data = call.args.data ∧ net.Answers call.args run.code run.output

section Refined

variable {net : Network} {sound : net.Sound} {conns : RpcArray} {d : Dialogue} {s : ClientState}

theorem Dialogue.Refines.served (refines : d.Refines sound conns s) {run : CallbackRun}
    (member : run ∈ d.thread.callbacks) : run.Served net d := by
  obtain ⟨place, session, matching⟩ := refines.regular.matching
  have process := refines.process
  rw [process] at member
  obtain ⟨⟨call, issued, callback, data⟩, rsp, answered, same, code, output⟩ :=
    matching.books.right run member
  obtain ⟨call', issued', answers⟩ := refines.answered rsp answered
  rw [same] at issued'
  cases issued.symm.trans issued'
  rw [code, output] at answers
  refine ⟨call, ?_, callback, data, answers⟩
  rw [process]
  exact issued

theorem Dialogue.Refines.handles (refines : d.Refines sound conns s) :
    (∀ rsp p, d.thread.reader = .got rsp p → ∃ t, clientStep d.thread .callback = some t ∧
      t.callbacks.length = d.thread.callbacks.length + 1) ∧
    (∀ seq req, d.thread.reader = .called seq req → (clientStep d.thread .remove).isSome) := by
  obtain ⟨place, session, matching⟩ := refines.regular.matching
  have process := refines.process
  constructor
  · intro rsp p here
    rw [process] at here
    obtain ⟨call, got⟩ := forget_got (show s.reader.forget = .got rsp p from here)
    obtain ⟨r, rfl, seq, -⟩ := got_found matching got
    have seq : (d.thread.heap r).seq = rsp.seq := by
      rw [process]
      exact seq
    rw [← process] at here
    refine ⟨{ d.thread with
      reader := .called rsp.seq r
      callbacks := d.thread.callbacks ++ [⟨d.thread.callOf r, (d.thread.heap r).callback,
        (d.thread.heap r).data, rsp.code, rsp.output⟩] }, ?_, by simp⟩
    simp only [clientStep, here, seq, ne_eq, not_true_eq_false, if_false]
  · intro seq req here
    have called : s.reader = .called seq req := by
      rw [process] at here
      rw [← forget_other (q := s.reader) (by rw [show s.reader.forget = _ from here]; simp)]
      exact here
    have found := matching.objects.pool _ _ _ (matching.inFlight.called seq req called)
    obtain ⟨pool, removed, -⟩ := rpcSessionpoolRemove_spec found
    have removed : rpcSessionpoolRemove d.thread.reqPool seq = some pool := by
      rw [process]
      exact removed
    simp only [clientStep, here, removed, Option.isSome_some]

end Refined

/-- The next read is calm, and the window lies in its block. -/
def CalmlyHeld {α σ : Type} (s : Reader α σ) (piece : List Byte) : Prop :=
  CalmRead s piece ∧ s.conn.rbuf.length = s.conn.rsize ∧ s.conn.rcurr.isSome ∧
    ∀ q ∈ s.conn.rcurr, q + s.conn.rbytes ≤ s.conn.rsize

instance {α σ : Type} (s : Reader α σ) (piece : List Byte) : Decidable (CalmlyHeld s piece) :=
  inferInstanceAs (Decidable (_ ∧ _ ∧ _ ∧ _))

theorem CalmlyHeld.harmless {α σ : Type} {env : ReadEnv} (copies : env.memcpy = moved)
    {texts : List (List Byte)} {heard n : Nat} {s : Reader α σ} {bytes : List Byte}
    (calm : CalmlyHeld s (bytes.take n)) :
    HarmlessRead env texts heard s.conn (readAnswers bytes [n]) := by
  obtain ⟨⟨some_bytes, short, next⟩, size, started, window⟩ := calm
  obtain ⟨q, start⟩ := Option.isSome_iff_exists.mp started
  obtain ⟨pre, unread, post, holds, -⟩ := RpcConn.Fits.holds ⟨size, window⟩ start
  apply (ShortAnswer.of_take some_bytes short).harmless holds
  · rw [copies]
    exact fun _ _ _ _ => rfl
  · exact fun _ => next

end OpenRpc
