import OpenRpc.Links

/-! # Every step over bytes is a step over messages

A dialogue refines a client thread whose channels hold whole messages: what the process has is the same,
and the bytes of each connection are the messages in its two channels. Every step of the dialogue is
matched by a run of the client thread and its peer: a round of the server by the receipt of a request
and its answer, a round of the client by the reading of a response, a read by nothing.
-/

namespace OpenRpc

open Transition Memory Decimal

/-- What the steps of the client thread and its peer keep. -/
structure ClientState.Regular (net : Network) (conns : RpcArray) (s : ClientState) : Prop where
  matching : ∃ place session, Matching s place session
  conserved : s.Conserved conns.pointers
  filled : s.Filled net.Takes
  room : s.reqPool.size ≤ INT_MAX
  array : s.reqConns = conns ∧ s.reqConnCount = conns.cur

/-- The dialogue is this client thread, with its messages as bytes. -/
structure Dialogue.Refines {net : Network} (sound : net.Sound) (conns : RpcArray) (d : Dialogue)
    (s : ClientState) : Prop where
  process : d.thread = s.process
  regular : s.Regular net conns
  received : ∀ i, s.atPeer i = []
  links : ∀ i, (d.links i).Carries sound i (decide (d.reading = some i)) (s.toPeer i) (s.toClient i)
  calm : d.reading = none → s.reader = .idle
  answered : ∀ rsp ∈ s.answers, ∃ call, s.issued[rsp.call]? = some call ∧
    net.Answers call.args rsp.code rsp.output

section Regular

variable {net : Network} {conns : RpcArray} {s s' : ClientState}

theorem regular_initial (heap : Nat → RpcRequest) :
    (ClientState.initial heap conns).Regular net conns where
  matching := ⟨_, _, matching_initial heap conns⟩
  conserved := conserved_initial heap conns
  filled := ⟨by simp [ClientState.initial], by simp [ClientState.initial]⟩
  room := by
    change POOLCAPACITY ≤ INT_MAX
    decide
  array := ⟨rfl, rfl⟩

theorem regular_step {a : ClientAction} (step : clientStep s a = some s') (fills : a.Fills net.Takes)
    (regular : s.Regular net conns) : s'.Regular net conns := by
  obtain ⟨room, array, count⟩ := pool_step step regular.room
  exact {
    matching := clientStep_keeps step regular.matching
    conserved := conserved_step step regular.matching regular.conserved
    filled := filled_step step fills regular.filled
    room := room
    array := ⟨array.trans regular.array.1, count.trans regular.array.2⟩ }

theorem sent_means {place : Nat → Place} {session : Sessions} (matching : Matching s place session)
    {i : Nat} {m : SentRequest} (member : m ∈ s.toPeer i) : m.Means s.issued := by
  obtain ⟨r, entry⟩ := (matching.inFlight.toPeer i).about m member
  obtain rfl : m = ⟨s.callOf r, s.heap r⟩ := matching.inFlight.carries _ r _ entry
  have live : (place r).Live := by
    rw [(matching.objects.slot r _).mpr ⟨_, entry⟩]
    trivial
  obtain ⟨args, issued, content⟩ := matching.books.content r live
  exact ⟨⟨r, args⟩, issued, content⟩

theorem stamped_sends (regular : s.Regular net conns) {req : Nat} (stamped : s.writer = .stamped req) :
    (∃ args : CallArgs, s.heap req = args.fill (s.heap req) ∧ net.Takes args) ∧
      InInt32 (s.heap req).seq := by
  obtain ⟨place, session, matching⟩ := regular.matching
  constructor
  · obtain ⟨call, issued, content⟩ := hand_means matching (by rw [stamped, Writer.object])
    exact ⟨call.args, content, regular.filled.issued call (List.mem_of_getElem? issued)⟩
  · have pool := matching.objects.pool _ req _ (matching.inFlight.stamped req stamped)
    obtain ⟨positive, below⟩ := Sessionpool.get_inside pool
    have room := regular.room
    simp only [INT_MAX] at room
    simp only [InInt32]
    omega

/-- What an object holds of the arguments of a call says which service is called, and with what. -/
theorem asked_same {args args' : CallArgs} {request : RpcRequest} (holds : request = args.fill request)
    (holds' : request = args'.fill request) {text : CallText} (asked : text.AskedBy args) :
    text.AskedBy args' := by
  have same : args.fill request = args'.fill request := holds.symm.trans holds'
  simp only [CallArgs.fill, RpcRequest.mk.injEq] at same
  obtain ⟨serviceName, methodName, -, -, input, inputLen, -⟩ := same
  exact ⟨methodName ▸ asked.methodName, serviceName ▸ asked.serviceName, input ▸ asked.input,
    inputLen ▸ asked.inputLen⟩

theorem answers_call {m : SentRequest} {args : CallArgs} {code : Int} {output : List Byte}
    (means : m.Means s.issued) (holds : m.request = args.fill m.request)
    (answers : net.Answers args code output) :
    ∃ call, s.issued[m.call]? = some call ∧ net.Answers call.args code output := by
  obtain ⟨call, issued, content⟩ := means
  obtain ⟨text, cb, k, reply, asked, found, replied⟩ := answers
  exact ⟨call, issued, text, cb, k, reply, asked_same holds content asked, found, replied⟩

end Regular

section Process

variable {s t : ClientState} {a : ClientAction}

theorem channels_step (own : a.inProcess = true) (step : clientStep s a = some t) :
    t.channels = s.channels := by
  cases clientStep_moves step with
  | call req s₁ idle new =>
      obtain ⟨freelist, allocated, rfl⟩ := rpcRequestNew_frame new
      rfl
  | send | receive | answer | read => cases own
  | push | pop | insert | stamp | unequal | callback | remove | free => rfl

theorem process_of {c : Channels} {pc : ReaderPc} (empty : t.channels = .empty)
    (forgot : pc.forget = t.reader) : (t.carrying c pc).process = t := by
  change t.carrying .empty pc.forget = t
  rw [forgot, ← empty]
  rfl

theorem forget_idle {pc : ReaderPc} (idle : pc.forget = .idle) : pc = .idle := by
  rw [← idle, forget_other]
  rw [idle]
  simp

theorem reader_step {place : Nat → Place} {session : Sessions} (matching : Matching s place session)
    (step : clientStep s a = some t) (own : a.inProcess = true) :
    (a = .callback → t.reader ≠ .idle) ∧ (s.reader = .idle → t.reader = .idle) := by
  cases clientStep_moves step with
  | call req s₁ idle new =>
      obtain ⟨freelist, allocated, rfl⟩ := rpcRequestNew_frame new
      exact ⟨by simp, id⟩
  | push | pop | insert | stamp => exact ⟨by simp, id⟩
  | send | receive | answer | read => cases own
  | unequal rsp req got other =>
      obtain ⟨r, pointer, seq, -⟩ := got_found matching got
      cases pointer
      exact absurd seq other
  | callback rsp req got same => exact ⟨by simp, by simp [got]⟩
  | remove seq req pool called removed => exact ⟨by simp, by simp [called]⟩
  | free req removed => exact ⟨by simp, by simp [removed]⟩

end Process

section Steps

variable {net : Network} {sound : net.Sound} {conns : RpcArray} {d : Dialogue} {s : ClientState}

theorem Dialogue.Refines.own (refines : d.Refines sound conns s) {a : ClientAction}
    (fills : a.Fills net.Takes) (inProcess : a.inProcess = true) {thread : ClientState}
    (step : clientStep d.thread a = some thread) :
    ∃ s', clientStep s a = some s' ∧ d.stillReading a thread = d.reading ∧
      Dialogue.Refines sound conns
        { d with thread := thread, reading := d.stillReading a thread } s' := by
  obtain ⟨place, session, matching⟩ := refines.regular.matching
  have empty : thread.channels = .empty := by
    rw [channels_step inProcess step, refines.process]
    rfl
  obtain ⟨pc, stepped, forgot⟩ := clientStep_carrying (c := s.channels) inProcess step
    (q := s.reader) (by rw [refines.process]; rfl)
  rw [refines.process, carrying_process] at stepped
  obtain ⟨called, quiet⟩ := reader_step matching stepped inProcess
  have stays : d.stillReading a thread = d.reading := by
    unfold Dialogue.stillReading
    split
    · rename_i idle
      exact absurd (forget_idle (forgot.trans idle)) (called rfl)
    · rfl
  refine ⟨_, stepped, stays, ?_⟩
  rw [stays]
  exact {
    process := (process_of empty forgot).symm
    regular := regular_step stepped fills refines.regular
    received := refines.received
    links := refines.links
    calm := fun outside => quiet (refines.calm outside)
    answered := by
      intro rsp member
      obtain ⟨call, issued, answers⟩ := refines.answered rsp member
      exact ⟨call, issued_step stepped issued, answers⟩ }

theorem Dialogue.Refines.write (refines : d.Refines sound conns s) {req i : Nat}
    {conn : RpcConn RpcResponse} {rest : List SendResult} (stamped : d.thread.writer = .stamped req)
    (picked : rpcArrayIndex d.thread.reqConns
      ((d.thread.lastConn + 1) % d.thread.reqConnCount).toNat = some i)
    (sent : writeData (net.alloc i) (net.sock i) (d.thread.heap req) (d.links i).client.conn =
      .returned conn rest) :
    ∃ s', clientStep s .send = some s' ∧ Dialogue.Refines sound conns
      { d.setLink i { d.links i with client := { (d.links i).client with conn := conn } } with
          thread := { d.thread with
            writer := .idle
            lastConn := (d.thread.lastConn + 1) % d.thread.reqConnCount } } s' := by
  have process := refines.process
  rw [process] at stamped picked sent
  have stamped : s.writer = .stamped req := stamped
  have picked : rpcArrayIndex s.reqConns ((s.lastConn + 1) % s.reqConnCount).toNat = some i := picked
  obtain ⟨⟨args, holds, takes⟩, seqFits⟩ := stamped_sends refines.regular stamped
  have step : clientStep s .send = some { s with
      writer := .idle
      lastConn := (s.lastConn + 1) % s.reqConnCount
      toPeer := Function.update s.toPeer i (s.toPeer i ++ [⟨s.callOf req, s.heap req⟩]) } := by
    simp only [clientStep, stamped, picked]
  obtain ⟨conn', rest', sent', carries⟩ :=
    (refines.links i).write (m := ⟨s.callOf req, s.heap req⟩) holds takes seqFits
  cases sent'.symm.trans sent
  refine ⟨_, step, {
    process := ?_
    regular := regular_step step trivial refines.regular
    received := refines.received
    links := fun j => ?_
    calm := refines.calm
    answered := refines.answered }⟩
  · rw [process]
    rfl
  · by_cases same : j = i
    · subst same
      simp only [Dialogue.setLink, Function.update_self]
      exact carries
    · simp only [Dialogue.setLink, Function.update_of_ne same]
      exact refines.links j

/-- A read or a round at the server that takes no request changes no message. -/
theorem Dialogue.Refines.quiet (refines : d.Refines sound conns s) {i : Nat} {link : Link}
    (carries : link.Carries sound i (decide (d.reading = some i)) (s.toPeer i) (s.toClient i)) :
    (d.setLink i link).Refines sound conns s :=
  { refines with
    links := by
      intro j
      by_cases same : j = i
      · subst same
        simp only [Dialogue.setLink, Function.update_self]
        exact carries
      · simp only [Dialogue.setLink, Function.update_of_ne same]
        exact refines.links j }

/-- A round of the server that takes a request is its receipt and its answer. -/
theorem Dialogue.Refines.answer (refines : d.Refines sound conns s) {i : Nat} {link : Link}
    {m : SentRequest} {rest : List SentRequest} {args : CallArgs} {reply : Reply}
    (first : s.toPeer i = m :: rest) (holds : m.request = args.fill m.request)
    (answers : net.Answers args reply.code reply.body)
    (carries : link.Carries sound i (decide (d.reading = some i)) rest
      (s.toClient i ++ [⟨m.call, reply.code, m.request.seq, reply.body⟩])) :
    ∃ s', exec clientStep s [.receive i, .answer i 0 reply.code reply.body] = some s' ∧
      (d.setLink i link).Refines sound conns s' := by
  obtain ⟨place, session, matching⟩ := refines.regular.matching
  have means := sent_means matching (show m ∈ s.toPeer i by rw [first]; exact List.mem_cons_self)
  let rsp : SentResponse := ⟨m.call, reply.code, m.request.seq, reply.body⟩
  let s₁ : ClientState := { s with toPeer := Function.update s.toPeer i rest
                                   atPeer := Function.update s.atPeer i (s.atPeer i ++ [m]) }
  let s₂ : ClientState := { s₁ with
    atPeer := Function.update s₁.atPeer i ((s₁.atPeer i).eraseIdx 0)
    toClient := Function.update s.toClient i (s.toClient i ++ [rsp])
    answers := s.answers ++ [rsp] }
  have here : s₁.atPeer i = [m] := by
    simp only [s₁, Function.update_self, refines.received, List.nil_append]
  have receipt : clientStep s (.receive i) = some s₁ := by simp only [clientStep, first, s₁]
  have answer : clientStep s₁ (.answer i 0 reply.code reply.body) = some s₂ := by
    have taken : (s₁.atPeer i)[0]? = some m := by rw [here]; rfl
    simp only [clientStep, taken]
    rfl
  refine ⟨s₂, exec_cons.mpr ⟨s₁, receipt, exec_cons.mpr ⟨s₂, answer, rfl⟩⟩, {
    process := refines.process
    regular := regular_step answer trivial (regular_step receipt trivial refines.regular)
    received := fun j => ?_
    links := fun j => ?_
    calm := refines.calm
    answered := fun rsp' member => ?_ }⟩
  · by_cases same : j = i
    · subst same
      simp only [s₂, Function.update_self, here]
      rfl
    · simp only [s₂, s₁, Function.update_of_ne same]
      exact refines.received j
  · by_cases same : j = i
    · subst same
      simp only [Dialogue.setLink, s₂, s₁, Function.update_self]
      exact carries
    · simp only [Dialogue.setLink, s₂, s₁, Function.update_of_ne same]
      exact refines.links j
  · rcases List.mem_append.mp member with old | last
    · exact refines.answered rsp' old
    · rw [List.mem_singleton.mp last]
      exact answers_call means holds answers

theorem Dialogue.Refines.turns (refines : d.Refines sound conns s) {i : Nat} {link : Link}
    {reading : Option Nat} (idle : s.reader = .idle) (same : ∀ j, j ≠ i → d.reading ≠ some j)
    (after : ∀ j, j ≠ i → reading ≠ some j)
    (carries : link.Carries sound i (decide (reading = some i)) (s.toPeer i) (s.toClient i)) :
    Dialogue.Refines sound conns { d.setLink i link with reading := reading } s :=
  { refines with
    links := by
      intro j
      by_cases here : j = i
      · subst here
        simp only [Dialogue.setLink, Function.update_self]
        exact carries
      · have before := refines.links j
        rw [decide_eq_false (same j here)] at before
        simp only [Dialogue.setLink, Function.update_of_ne here]
        rw [decide_eq_false (after j here)]
        exact before
    calm := fun _ => idle }

theorem Dialogue.Refines.read (refines : d.Refines sound conns s) {i : Nat} {link : Link}
    {rsp : SentResponse} {rest : List SentResponse} (first : s.toClient i = rsp :: rest)
    (here : d.reading = some i) (idle : d.thread.reader = .idle)
    (carries : link.Carries sound i true (s.toPeer i) rest) :
    ∃ s', clientStep s (.read i) = some s' ∧ Dialogue.Refines sound conns
      { d.setLink i link with
          thread := { d.thread with
            reader := .got { rsp with call := 0 }
              (rpcSessionpoolGet d.thread.reqPool rsp.seq) } } s' := by
  have process := refines.process
  rw [process] at idle
  have unread : s.reader = .idle := forget_idle idle
  have step : clientStep s (.read i) = some { s with
      toClient := Function.update s.toClient i rest
      reader := .got rsp (rpcSessionpoolGet s.reqPool rsp.seq) } := by
    simp only [clientStep, unread, first]
  refine ⟨_, step, {
    process := ?_
    regular := regular_step step trivial refines.regular
    received := refines.received
    links := fun j => ?_
    calm := fun outside => ?_
    answered := refines.answered }⟩
  · rw [process]
    rfl
  · by_cases same : j = i
    · subst same
      simp only [Dialogue.setLink, Function.update_self]
      change link.Carries sound j (decide (d.reading = some j)) (s.toPeer j) rest
      rw [decide_eq_true here]
      exact carries
    · simp only [Dialogue.setLink, Function.update_of_ne same]
      exact refines.links j
  · cases here.symm.trans outside

/-- A dialogue starts as a client thread with nothing in its channels. -/
theorem Dialogue.Fresh.refines (fresh : d.Fresh conns) : d.Refines sound conns d.thread := by
  obtain ⟨heap, thread⟩ := fresh.thread
  rw [thread]
  exact {
    process := thread
    regular := regular_initial heap
    received := fun _ => rfl
    links := by
      intro i
      rw [fresh.reading, decide_eq_false (by simp)]
      exact (fresh.links i).carries
    calm := fun _ => rfl
    answered := by simp [ClientState.initial] }

end Steps

end OpenRpc
