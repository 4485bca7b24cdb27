import OpenRpc.Client
import OpenRpc.Answers

/-! # Use after close

What one run of a read callback does with its connection, event by event: the reads and sends with the
answers of the kernel, the fields it looks at that `rpc_conn_close` clears, and the closes themselves.
Nothing may follow a close. A failed send breaks this always, as the loop of `rpc_send_message` is not
left; a failed read breaks it when the callback finds something left to do with the bytes it has.
-/

namespace OpenRpc

open Memory

/-- The fields that `rpc_conn_close` clears, `iovused` apart, which is only written afterwards. -/
inductive Cleared where
  | rcurr
  | thread
  | loop
  deriving Repr, DecidableEq

/-- `read` has the connection as it was before; an answer that is nothing has not come. -/
inductive ConnEvent (α : Type) where
  | uses (field : Cleared)
  | read (conn : RpcConn α) (answer : Option ReadResult)
  | sendmsg (answer : Option SendResult)
  | close
  | parse
  | dispatch
  deriving DecidableEq

variable {α σ : Type}

/-- `rpc_conn_close` stops the watcher of the loop first. -/
def closeEvents : List (ConnEvent α) := [.uses .loop, .close]

/-- The events of `readLoop`. -/
def readLoopEvents (grow : Grow) : List ReadResult → Nat → RpcConn α → List (ConnEvent α)
  | [], numAllocs, c =>
      match makeRoom grow numAllocs c with
      | none => []
      | some (_, c) => [.read c none]
  | r :: rest, numAllocs, c =>
      match makeRoom grow numAllocs c with
      | none => []
      | some (numAllocs, c) =>
          .read c (some r) ::
            match r with
            | .data bytes =>
                let avail := c.rsize - c.rbytes
                let c' := { c with rbuf := overwrite c.rbuf c.rbytes bytes
                                   rbytes := c.rbytes + bytes.length }
                if bytes.length = avail then readLoopEvents grow rest numAllocs c' else []
            | .intr | .wouldBlock => readLoopEvents grow rest numAllocs c
            | .eof | .fail => closeEvents

def readFromConnEvents (memcpy : Memcpy) (grow : Grow) (reads : List ReadResult) (c : RpcConn α) :
    List (ConnEvent α) :=
  .uses .rcurr ::
    match compact memcpy c with
    | none => []
    | some c => readLoopEvents grow reads 0 c

/-- The events of `sendLoop`. -/
def sendLoopEvents : List SendResult → List (List Byte) → List (ConnEvent α)
  | [], _ => [.sendmsg none]
  | .count n :: rest, iov =>
      .sendmsg (some (.count n)) ::
        if 0 < n then
          match advance iov n with
          | (_, 0) => []
          | ([], _ + 1) => []
          | (v :: iov, res + 1) => sendLoopEvents rest (v.drop (res + 1) :: iov)
        else []
  | .again :: rest, iov => .sendmsg (some .again) :: sendLoopEvents rest iov
  | .fail :: rest, iov => .sendmsg (some .fail) :: (closeEvents ++ sendLoopEvents rest iov)

/-- The events of `rpcSendResponse`. -/
def sendResponseEvents (alloc : Nat → Bool) (sock : Socket) (table : List ErrCode) (c : RpcConn α)
    (code : Int) (output : Option (List Byte)) (outputLen : Nat) : List (ConnEvent α) :=
  match queueResponse alloc table c code output outputLen with
  | none => []
  | some c => sendLoopEvents (sock c.wire.length c.queued) c.queued

def Reply.events (alloc : Nat → Bool) (sock : Socket) (table : List ErrCode) (c : RpcConn α) :
    Reply → List (ConnEvent α)
  | .value output outputLen =>
      sendResponseEvents alloc sock table c RpcCode.ok.num output outputLen
  | .null => sendResponseEvents alloc sock table c RpcCode.ok.num none 0
  | .error errCode errMessage =>
      sendResponseEvents alloc sock table c errCode (some errMessage) errMessage.length

/-- The events of `answer`. -/
def answerEvents (env : ServerEnv) : List Reply → RpcConn RpcRequest → List (ConnEvent RpcRequest)
  | [], _ => []
  | reply :: rest, c =>
      reply.events env.alloc env.sock env.table c ++
        match reply.send env.alloc env.sock env.table c with
        | .returned c _ => answerEvents env rest c
        | .pending _ _ | .undefined => []

/-- The events of `dispatch`. -/
def dispatchEvents (env : ServerEnv) (s : ServerReader) (req : RpcRequest) :
    List (ConnEvent RpcRequest) :=
  .uses .thread ::
    match s.conn.thread, req.methodName.read s.conn.rbuf, req.serviceName.read s.conn.rbuf with
    | some _, some method, some service =>
        match serviceKey method service with
        | none => []
        | some key =>
            let (c, replies, _) :=
              serve env s key req.seq (req.input.bytes s.conn.rbuf req.inputLen) req.inputLen
            .dispatch :: answerEvents env replies c
    | _, _, _ => []

/-- The events of `deliverResponse`. -/
def deliverResponseEvents (env : ClientEnv) (s : ClientReader) (rsp : RpcResponse) :
    List (ConnEvent RpcResponse) :=
  .uses .thread ::
    match s.conn.thread, env.pools s.log.length rsp.seq with
    | some _, some req => if req.seq ≠ rsp.seq then [] else [.dispatch]
    | _, _ => []

/-- A read side with the events of its deliveries. -/
structure Traced (α σ : Type) extends ReadSide α σ where
  delivers : Reader α σ → α → List (ConnEvent α)

def tracedReq (env : ServerEnv) : Traced RpcRequest (List Handed) :=
  { reqSide env with delivers := dispatchEvents env }

def tracedRsp (env : ClientEnv) : Traced RpcResponse (List Delivered) :=
  { rspSide env with delivers := deliverResponseEvents env }

/-- The events of `readRound`. -/
def readRoundEvents (side : Traced α σ) (behind : Byte) (s : Reader α σ) : List (ConnEvent α) :=
  if s.conn.rbytes = 0 then []
  else
    match s.conn.unprocessData with
    | none =>
        .uses .rcurr ::
          match s.conn.window? with
          | none => []
          | some c =>
              if rpcConnReceivedHead (c.rbuf.drop c.rcurr ++ [behind]) c.rbytes then
                .parse ::
                  match side.parse s.parses c with
                  | (.ok obj, c) =>
                      side.delivers
                        { s with parses := s.parses + 1, conn := s.conn.setWindow c } obj
                  | _ => []
              else []
    | some last =>
        if side.bodyLen last ≤ s.conn.rbytes then
          .uses .rcurr ::
            match s.conn.window? with
            | none => []
            | some c =>
                let conn := { s.conn with unprocessData := none }.setWindow
                  ⟨c.rbuf, c.rcurr + side.bodyLen last, c.rbytes - side.bodyLen last⟩
                side.delivers { s with conn := conn } (side.withBody last (.rbuf c.rcurr))
        else []

def readRoundsEvents (side : Traced α σ) (behind : Byte) : Nat → Reader α σ → List (ConnEvent α)
  | 0, _ => []
  | fuel + 1, s =>
      readRoundEvents side behind s ++
        match readRound side.toReadSide behind s with
        | .ok (true, s) => readRoundsEvents side behind fuel s
        | .ok (false, _) | .error _ => []

/-- The events of one run of the callback. -/
def cbReadEvents (side : Traced α σ) (env : ReadEnv) (reads : List ReadResult) (s : Reader α σ) :
    List (ConnEvent α) :=
  readFromConnEvents env.memcpy env.grow reads s.conn ++
    match readFromConn env.memcpy env.grow reads s.conn with
    | .returned true conn _ =>
        readRoundsEvents side env.behind (conn.rbytes + 2) { s with conn := conn }
    | .returned false _ _ | .pending _ | .undefined => []

/-- There is at most one close, and nothing comes after it. -/
def CloseLast (events : List (ConnEvent α)) : Prop :=
  ∀ before after, events = before ++ .close :: after → after = []

/-- A read that fails does so where the callback has nothing left to do: no byte is unread, or only a
    part of the body it waits for. No send fails. -/
def Harmless (bodyLen : α → Nat) : ConnEvent α → Prop
  | .read c (some .fail) =>
      c.rbytes = 0 ∨ ∃ kept, c.unprocessData = some kept ∧ c.rbytes < bodyLen kept
  | .sendmsg (some .fail) => False
  | _ => True

section Events

variable {bodyLen : α → Nat} {events events' : List (ConnEvent α)}

/-- Nothing has failed that matters, and the connection is still open. -/
structure Unclosed (bodyLen : α → Nat) (events : List (ConnEvent α)) : Prop where
  harmless : ∀ e ∈ events, Harmless bodyLen e
  unclosed : .close ∉ events

/-- Something has failed, and the connection was used after its close. -/
structure Broken (bodyLen : α → Nat) (events : List (ConnEvent α)) : Prop where
  harm : ∃ e ∈ events, ¬Harmless bodyLen e
  used : ∃ before e after, events = before ++ .close :: e :: after

theorem Unclosed.nil : Unclosed bodyLen ([] : List (ConnEvent α)) := by
  constructor
  · intro e member
    cases member
  · exact List.not_mem_nil

theorem Unclosed.single {e : ConnEvent α} (harmless : Harmless bodyLen e) (noClose : e ≠ .close) :
    Unclosed bodyLen [e] := by
  constructor
  · intro e' member
    rwa [List.mem_singleton.mp member]
  · intro member
    exact noClose (List.mem_singleton.mp member).symm

theorem Unclosed.append (first : Unclosed bodyLen events) (second : Unclosed bodyLen events') :
    Unclosed bodyLen (events ++ events') := by
  constructor
  · intro e member
    cases List.mem_append.mp member with
    | inl early => exact first.harmless e early
    | inr late => exact second.harmless e late
  · intro member
    cases List.mem_append.mp member with
    | inl early => exact first.unclosed early
    | inr late => exact second.unclosed late

theorem Broken.append_left (first : List (ConnEvent α)) (broken : Broken bodyLen events) :
    Broken bodyLen (first ++ events) := by
  obtain ⟨e, member, harm⟩ := broken.harm
  obtain ⟨before, next, after, split⟩ := broken.used
  exact ⟨⟨e, List.mem_append_right first member, harm⟩, first ++ before, next, after,
    by rw [split, List.append_assoc]⟩

theorem Broken.append_right (broken : Broken bodyLen events) (more : List (ConnEvent α)) :
    Broken bodyLen (events ++ more) := by
  obtain ⟨e, member, harm⟩ := broken.harm
  obtain ⟨before, next, after, split⟩ := broken.used
  exact ⟨⟨e, List.mem_append_left more member, harm⟩, before, next, after ++ more,
    by rw [split, List.append_assoc]; rfl⟩

/-- Events without a close of their own that anything may follow. -/
def Settled (bodyLen : α → Nat) (events : List (ConnEvent α)) : Prop :=
  Unclosed bodyLen events ∨ Broken bodyLen events

theorem Settled.append (first : Settled bodyLen events) (second : Settled bodyLen events') :
    Settled bodyLen (events ++ events') := by
  cases first with
  | inr broken => exact .inr (broken.append_right events')
  | inl unclosed =>
      cases second with
      | inr broken => exact .inr (broken.append_left events)
      | inl unclosed' => exact .inl (unclosed.append unclosed')

theorem Settled.nil : Settled bodyLen ([] : List (ConnEvent α)) := .inl .nil

theorem Settled.cons {e : ConnEvent α} (harmless : Harmless bodyLen e) (noClose : e ≠ .close)
    (settled : Settled bodyLen events) : Settled bodyLen (e :: events) := by
  exact Settled.append (.inl (.single harmless noClose)) settled

theorem closeLast_of_unclosed (unclosed : .close ∉ events) : CloseLast events := by
  intro before after split
  exact absurd (split ▸ List.mem_append_right before List.mem_cons_self) unclosed

theorem Settled.closeLast_iff (settled : Settled bodyLen events) :
    CloseLast events ↔ ∀ e ∈ events, Harmless bodyLen e := by
  cases settled with
  | inl unclosed =>
      exact iff_of_true (closeLast_of_unclosed unclosed.unclosed) unclosed.harmless
  | inr broken =>
      obtain ⟨e, member, harm⟩ := broken.harm
      obtain ⟨before, next, after, split⟩ := broken.used
      exact iff_of_false (fun last => List.cons_ne_nil _ _ (last _ _ split))
        (fun all => harm (all e member))

theorem closeLast_concat (unclosed : .close ∉ events) : CloseLast (events ++ [.close]) := by
  intro before after split
  cases List.eq_nil_or_concat' after with
  | inl none => exact none
  | inr some =>
      obtain ⟨more, e, rfl⟩ := some
      have cut : events ++ [.close] = (before ++ .close :: more) ++ [e] := by
        rw [split, List.append_assoc]
        rfl
      have early : events = before ++ .close :: more := (List.append_singleton_inj.mp cut).1
      exact absurd (early ▸ List.mem_append_right before List.mem_cons_self) unclosed

end Events

section Sending

variable {bodyLen : α → Nat}

theorem sendLoopEvents_ne_nil (results : List SendResult) (iov : List (List Byte)) :
    (sendLoopEvents results iov : List (ConnEvent α)) ≠ [] := by
  cases results with
  | nil => exact List.cons_ne_nil _ _
  | cons r results => cases r <;> exact List.cons_ne_nil _ _

theorem sendLoopEvents_settled (results : List SendResult) (iov : List (List Byte)) :
    Settled bodyLen (sendLoopEvents results iov : List (ConnEvent α)) := by
  induction results generalizing iov with
  | nil => exact .cons trivial (by simp) .nil
  | cons r results ih =>
      cases r with
      | again => exact .cons trivial (by simp) (ih iov)
      | count n =>
          refine .cons trivial (by simp) ?_
          split
          · split
            · exact .nil
            · exact .nil
            · exact ih _
          · exact .nil
      | fail =>
          have more : (sendLoopEvents results iov : List (ConnEvent α)) ≠ [] :=
            sendLoopEvents_ne_nil results iov
          obtain ⟨e, after, next⟩ := List.exists_cons_of_ne_nil more
          refine .inr ⟨⟨_, List.mem_cons_self, id⟩, [.sendmsg (some .fail), .uses .loop], e, after, ?_⟩
          rw [sendLoopEvents, next]
          rfl

theorem Reply.events_settled (alloc : Nat → Bool) (sock : Socket) (table : List ErrCode)
    (c : RpcConn α) (reply : Reply) : Settled bodyLen (reply.events alloc sock table c) := by
  have response : ∀ code output outputLen,
      Settled bodyLen (sendResponseEvents alloc sock table c code output outputLen) := by
    intro code output outputLen
    rw [sendResponseEvents]
    split
    · exact .nil
    · exact sendLoopEvents_settled _ _
  cases reply <;> exact response _ _ _

theorem answerEvents_settled {bodyLen : RpcRequest → Nat} (env : ServerEnv) (replies : List Reply)
    (c : RpcConn RpcRequest) : Settled bodyLen (answerEvents env replies c) := by
  induction replies generalizing c with
  | nil => exact .nil
  | cons reply rest ih =>
      apply (reply.events_settled _ _ _ c).append
      split
      · exact ih _
      · exact .nil
      · exact .nil

end Sending

/-- A read side whose deliveries close the connection by failed sends only. -/
def Traced.Settles (side : Traced α σ) : Prop :=
  ∀ s obj, Settled side.bodyLen (side.delivers s obj)

theorem tracedReq_settles (env : ServerEnv) : (tracedReq env).Settles := by
  intro s req
  refine .cons trivial (by simp) ?_
  split
  · split
    · exact .nil
    · exact .cons trivial (by simp) (answerEvents_settled env _ _)
  · exact .nil

theorem tracedRsp_settles (env : ClientEnv) : (tracedRsp env).Settles := by
  intro s rsp
  refine .cons trivial (by simp) ?_
  split
  · split
    · exact .nil
    · exact .cons trivial (by simp) .nil
  · exact .nil

section Rounds

variable {side : Traced α σ} (settles : side.Settles) (behind : Byte)

include settles

theorem readRoundEvents_settled (s : Reader α σ) :
    Settled side.bodyLen (readRoundEvents side behind s) := by
  rw [readRoundEvents]
  split
  · exact .nil
  · split
    · refine .cons trivial (by simp) ?_
      split
      · exact .nil
      · split
        · refine .cons trivial (by simp) ?_
          split
          · exact settles _ _
          · exact .nil
        · exact .nil
    · split
      · refine .cons trivial (by simp) ?_
        split
        · exact .nil
        · exact settles _ _
      · exact .nil

theorem readRoundsEvents_settled (fuel : Nat) (s : Reader α σ) :
    Settled side.bodyLen (readRoundsEvents side behind fuel s) := by
  induction fuel generalizing s with
  | zero => exact .nil
  | succ fuel ih =>
      apply (readRoundEvents_settled settles behind s).append
      split
      · exact ih _
      · exact .nil
      · exact .nil

end Rounds

/-- How the events of reading go with what `read_from_conn` returns. -/
inductive ReadEnds (bodyLen : α → Nat) : ReadOutcome α → List (ConnEvent α) → Prop where
  | open {outcome : ReadOutcome α} {events : List (ConnEvent α)}
      (unclosed : Unclosed bodyLen events) (notEof : ∀ c rest, outcome ≠ .returned false c rest) :
      ReadEnds bodyLen outcome events
  | eof {c : RpcConn α} {rest : List ReadResult} {events : List (ConnEvent α)}
      (unclosed : Unclosed bodyLen events) :
      ReadEnds bodyLen (.returned false c rest) (events ++ [.close])
  | failed {c : RpcConn α} {rest : List ReadResult} {events : List (ConnEvent α)}
      (unclosed : Unclosed bodyLen events) :
      ReadEnds bodyLen (.returned true (rpcConnClose c) rest)
        (events ++ .read c (some .fail) :: closeEvents)

section Reading

variable {bodyLen : α → Nat}

theorem ReadEnds.cons {outcome : ReadOutcome α} {events : List (ConnEvent α)} {e : ConnEvent α}
    (harmless : Harmless bodyLen e) (noClose : e ≠ .close) (ends : ReadEnds bodyLen outcome events) :
    ReadEnds bodyLen outcome (e :: events) := by
  have single := Unclosed.single harmless noClose
  cases ends with
  | «open» unclosed notEof => exact .open (single.append unclosed) notEof
  | eof unclosed => exact .eof (single.append unclosed)
  | failed unclosed => exact .failed (single.append unclosed)

theorem readLoop_ends (grow : Grow) (reads : List ReadResult) (numAllocs : Nat) (c : RpcConn α) :
    ReadEnds bodyLen (readLoop grow reads numAllocs c) (readLoopEvents grow reads numAllocs c) := by
  induction reads generalizing numAllocs c with
  | nil =>
      cases room : makeRoom grow numAllocs c with
      | none =>
          simp only [readLoop, readLoopEvents, room]
          exact .open .nil (by simp)
      | some made =>
          simp only [readLoop, readLoopEvents, room]
          exact .open (.single trivial (by simp)) (by simp)
  | cons r rest ih =>
      cases room : makeRoom grow numAllocs c with
      | none =>
          simp only [readLoop, readLoopEvents, room]
          exact .open .nil (by simp)
      | some made =>
          cases r with
          | data bytes =>
              simp only [readLoop, readLoopEvents, room]
              split
              · exact (ih _ _).cons trivial (by simp)
              · exact .open (.single trivial (by simp)) (by simp)
          | eof =>
              simp only [readLoop, readLoopEvents, room]
              have before : Unclosed bodyLen [.read made.2 (some .eof), .uses .loop] :=
                (Unclosed.single (e := .read made.2 (some .eof)) trivial (by simp)).append
                  (.single trivial (by simp))
              exact .eof before
          | intr =>
              simp only [readLoop, readLoopEvents, room]
              exact (ih _ _).cons trivial (by simp)
          | wouldBlock =>
              simp only [readLoop, readLoopEvents, room]
              exact (ih _ _).cons trivial (by simp)
          | fail =>
              simp only [readLoop, readLoopEvents, room]
              exact .failed .nil

theorem readFromConn_ends (memcpy : Memcpy) (grow : Grow) (reads : List ReadResult) (c : RpcConn α) :
    ReadEnds bodyLen (readFromConn memcpy grow reads c) (readFromConnEvents memcpy grow reads c) := by
  cases compacted : compact memcpy c with
  | none =>
      simp only [readFromConn, readFromConnEvents, compacted]
      exact .open (.single trivial (by simp)) (by simp)
  | some c' =>
      simp only [readFromConn, readFromConnEvents, compacted]
      exact (readLoop_ends grow reads 0 c').cons trivial (by simp)

end Reading

section Closed

variable {side : Traced α σ} (behind : Byte) {s : Reader α σ} {c : RpcConn α}

theorem readRoundsEvents_closed (closed : s.conn = rpcConnClose c) (fuel : Nat)
    (harmless : Harmless side.bodyLen (.read c (some .fail))) :
    readRoundsEvents side behind fuel s = [] := by
  cases fuel with
  | zero => rfl
  | succ fuel =>
      have nothing : readRoundEvents side behind s = [] ∧
          readRound side.toReadSide behind s = .ok (false, s) := by
        rw [readRoundEvents, readRound, closed]
        cases harmless with
        | inl empty => exact ⟨if_pos empty, if_pos empty⟩
        | inr waits =>
            obtain ⟨kept, pending, short⟩ := waits
            simp only [rpcConnClose, pending, if_neg (Nat.not_le.mpr short), ite_self, and_self]
      rw [readRoundsEvents, nothing.1, nothing.2]
      rfl

theorem readRoundsEvents_used (closed : s.conn = rpcConnClose c) (fuel : Nat)
    (harm : ¬Harmless side.bodyLen (.read c (some .fail))) :
    ∃ e after, readRoundsEvents side behind (fuel + 1) s = e :: after := by
  have unread : ¬(rpcConnClose c).rbytes = 0 := fun empty => harm (.inl empty)
  have uses : ∃ after, readRoundEvents side behind s = .uses .rcurr :: after := by
    rw [readRoundEvents, closed, if_neg unread]
    cases pending : (rpcConnClose c).unprocessData with
    | none => exact ⟨_, rfl⟩
    | some kept =>
        have enough : side.bodyLen kept ≤ (rpcConnClose c).rbytes :=
          Nat.not_lt.mp fun short => harm (.inr ⟨kept, pending, short⟩)
        exact ⟨_, if_pos enough⟩
  obtain ⟨after, first⟩ := uses
  rw [readRoundsEvents, first]
  exact ⟨_, _, rfl⟩

theorem cbReadEvents_closeLast (settles : side.Settles) (env : ReadEnv) (reads : List ReadResult)
    (s : Reader α σ) :
    CloseLast (cbReadEvents side env reads s) ↔
      ∀ e ∈ cbReadEvents side env reads s, Harmless side.bodyLen e := by
  have ends : ReadEnds side.bodyLen _ _ := readFromConn_ends env.memcpy env.grow reads s.conn
  rw [cbReadEvents]
  generalize readFromConn env.memcpy env.grow reads s.conn = outcome at ends
  generalize readFromConnEvents env.memcpy env.grow reads s.conn = events at ends
  cases ends with
  | «open» unclosed notEof =>
      apply Settled.closeLast_iff
      apply Settled.append (.inl unclosed)
      split
      · exact readRoundsEvents_settled settles env.behind _ _
      · exact .nil
      · exact .nil
      · exact .nil
  | @eof c rest events unclosed =>
      rw [List.append_nil]
      apply iff_of_true (closeLast_concat unclosed.unclosed)
      intro e member
      cases List.mem_append.mp member with
      | inl early => exact unclosed.harmless e early
      | inr last => rw [List.mem_singleton.mp last]; trivial
  | @failed c rest events unclosed =>
      let closed : Reader α σ := { s with conn := rpcConnClose c }
      by_cases harmless : Harmless side.bodyLen (.read c (some .fail))
      · have before : Unclosed side.bodyLen (events ++ [.read c (some .fail), .uses .loop]) :=
          unclosed.append ((Unclosed.single harmless (by simp)).append (.single trivial (by simp)))
        have whole : events ++ .read c (some .fail) :: closeEvents ++
            readRoundsEvents side env.behind (c.rbytes + 2) closed =
              (events ++ [.read c (some .fail), .uses .loop]) ++ [.close] := by
          rw [readRoundsEvents_closed env.behind (c := c) rfl _ harmless, List.append_nil,
            List.append_assoc]
          rfl
        change CloseLast (_ ++ readRoundsEvents side env.behind (c.rbytes + 2) closed) ↔ _
        rw [whole]
        apply iff_of_true (closeLast_concat before.unclosed)
        intro e member
        change e ∈ _ ++ readRoundsEvents side env.behind (c.rbytes + 2) closed at member
        rw [whole] at member
        cases List.mem_append.mp member with
        | inl early => exact before.harmless e early
        | inr last => rw [List.mem_singleton.mp last]; trivial
      · obtain ⟨e, after, next⟩ :=
          readRoundsEvents_used env.behind (s := closed) (c := c) rfl (c.rbytes + 1) harmless
        apply Settled.closeLast_iff
        refine .inr ⟨⟨.read c (some .fail), ?_, harmless⟩,
          events ++ [.read c (some .fail), .uses .loop], e, after, ?_⟩
        · exact List.mem_append_left _ (List.mem_append_right events List.mem_cons_self)
        · change _ ++ readRoundsEvents side env.behind (c.rbytes + 1 + 1) closed = _
          rw [next, List.append_assoc, List.append_assoc]
          rfl

end Closed

def ConnEvent.isClose : ConnEvent α → Bool
  | .close => true
  | _ => false

def ConnEvent.isParse : ConnEvent α → Bool
  | .parse => true
  | _ => false

theorem closeLast_once {events : List (ConnEvent α)} (last : CloseLast events) :
    events.countP ConnEvent.isClose ≤ 1 := by
  by_cases member : .close ∈ events
  · obtain ⟨before, after, split, early⟩ := List.eq_append_cons_of_mem member
    have none_before : before.countP ConnEvent.isClose = 0 := by
      apply List.countP_eq_zero.mpr
      intro e here close
      cases e with
      | close => exact early here
      | _ => cases close
    rw [split, last before after split, List.countP_append, none_before]
    exact Nat.le_refl 1
  · have none_there : events.countP ConnEvent.isClose = 0 := by
      apply List.countP_eq_zero.mpr
      intro e here close
      cases e with
      | close => exact member here
      | _ => cases close
    omega

/-- The events account for the closes and the parses between two states. -/
structure EventsAccount (s s' : Reader α σ) (events : List (ConnEvent α)) : Prop where
  closes : s'.conn.closes = s.conn.closes + events.countP ConnEvent.isClose
  parses : s'.parses = s.parses + events.countP ConnEvent.isParse

theorem EventsAccount.trans {s s' s'' : Reader α σ} {events events' : List (ConnEvent α)}
    (first : EventsAccount s s' events) (second : EventsAccount s' s'' events') :
    EventsAccount s s'' (events ++ events') := by
  constructor
  · rw [second.closes, first.closes, List.countP_append, Nat.add_assoc]
  · rw [second.parses, first.parses, List.countP_append, Nat.add_assoc]

section Accounting

variable {c c' : RpcConn α}

theorem readLoop_closes {grow : Grow} {reads rest : List ReadResult} {numAllocs : Nat} {value : Bool}
    (returned : readLoop grow reads numAllocs c = .returned value c' rest) :
    c'.closes = c.closes + (readLoopEvents grow reads numAllocs c).countP ConnEvent.isClose ∧
      (readLoopEvents grow reads numAllocs c).countP ConnEvent.isParse = 0 := by
  replace returned := readLoop_returns returned
  induction returned with
  | @full reads n c room => cases reads <;> simp only [readLoopEvents, room] <;> exact ⟨rfl, rfl⟩
  | fills room whole next ih =>
      simp only [readLoopEvents, room, if_pos whole]
      rw [← (makeRoom_keeps room).1]
      exact ih
  | short room part =>
      simp only [readLoopEvents, room, if_neg part]
      rw [← (makeRoom_keeps room).1]
      exact ⟨rfl, rfl⟩
  | again unheard room next ih =>
      rw [← (makeRoom_keeps room).1]
      rcases unheard with rfl | rfl <;> simp only [readLoopEvents, room] <;> exact ih
  | closes hangs room =>
      rw [← (makeRoom_keeps room).1]
      rcases hangs with ⟨rfl, -⟩ | ⟨rfl, -⟩ <;> simp only [readLoopEvents, room] <;> exact ⟨rfl, rfl⟩

theorem readFromConn_closes {memcpy : Memcpy} {grow : Grow} {reads rest : List ReadResult} {value : Bool}
    (returned : readFromConn memcpy grow reads c = .returned value c' rest) :
    c'.closes = c.closes + (readFromConnEvents memcpy grow reads c).countP ConnEvent.isClose ∧
      (readFromConnEvents memcpy grow reads c).countP ConnEvent.isParse = 0 := by
  cases compacted : compact memcpy c with
  | none =>
      simp only [readFromConn, compacted] at returned
      cases returned
  | some c₁ =>
      simp only [readFromConn, compacted] at returned
      have same := (compact_keeps compacted).1
      simp only [readFromConnEvents, compacted]
      rw [← same]
      exact readLoop_closes returned

theorem sendLoop_closes {results rest : List SendResult} {iov : List (List Byte)} {accepted : List Byte}
    (returned : sendLoop results c iov accepted = .returned c' rest) :
    c'.closes =
        c.closes + (sendLoopEvents results iov : List (ConnEvent α)).countP ConnEvent.isClose ∧
      (sendLoopEvents results iov : List (ConnEvent α)).countP ConnEvent.isParse = 0 := by
  induction results generalizing c iov accepted with
  | nil => cases returned
  | cons r results ih =>
      cases r with
      | again => exact ih returned
      | fail =>
          obtain ⟨closes, parses⟩ := ih (c := rpcConnClose c) returned
          refine ⟨?_, parses⟩
          rw [closes]
          simp only [sendLoopEvents, closeEvents, rpcConnClose, List.cons_append, List.nil_append,
            List.countP_cons, ConnEvent.isClose]
          simp
          omega
      | count n =>
          unfold sendLoop at returned
          unfold sendLoopEvents
          split at returned
          · rename_i positive
            rw [if_pos positive]
            cases moved : advance iov n with
            | mk left res =>
                rw [moved] at returned
                cases res with
                | zero =>
                    cases returned
                    exact ⟨rfl, rfl⟩
                | succ res =>
                    cases left with
                    | nil => cases returned
                    | cons v left => exact ih returned
          · rename_i none
            cases returned
            rw [if_neg none]
            exact ⟨rfl, rfl⟩

theorem addiovs_closes {alloc : Nat → Bool} {entries : List (List Byte)}
    (stored : addiovs alloc c entries = some c') : c'.closes = c.closes := by
  induction entries generalizing c with
  | nil =>
      cases stored
      rfl
  | cons data entries ih =>
      simp only [addiovs, Option.bind_eq_some_iff] at stored
      obtain ⟨c₁, first, more⟩ := stored
      rw [ih more]
      simp only [rpcConnAddiov] at first
      repeat' split at first
      all_goals cases first
      all_goals rfl

theorem Reply.send_closes {alloc : Nat → Bool} {sock : Socket} {table : List ErrCode} {reply : Reply}
    {rest : List SendResult} (returned : reply.send alloc sock table c = .returned c' rest) :
    c'.closes = c.closes + (reply.events alloc sock table c).countP ConnEvent.isClose ∧
      (reply.events alloc sock table c).countP ConnEvent.isParse = 0 := by
  have response : ∀ code output outputLen,
      rpcSendResponse alloc sock table c code output outputLen = .returned c' rest →
      c'.closes = c.closes +
          (sendResponseEvents alloc sock table c code output outputLen).countP ConnEvent.isClose ∧
        (sendResponseEvents alloc sock table c code output outputLen).countP ConnEvent.isParse = 0 := by
    intro code output outputLen sent
    cases stored : queueResponse alloc table c code output outputLen with
    | none =>
        simp only [rpcSendResponse, stored] at sent
        cases sent
    | some queued =>
        simp only [rpcSendResponse, stored] at sent
        simp only [sendResponseEvents, stored]
        rw [← addiovs_closes stored]
        exact sendLoop_closes sent
  cases reply <;> exact response _ _ _ returned

theorem answer_closes {env : ServerEnv} {replies : List Reply} {c c' : RpcConn RpcRequest}
    (answered : answer env replies c = .ok c') :
    c'.closes = c.closes + (answerEvents env replies c).countP ConnEvent.isClose ∧
      (answerEvents env replies c).countP ConnEvent.isParse = 0 := by
  induction replies generalizing c with
  | nil =>
      cases answered
      exact ⟨rfl, rfl⟩
  | cons reply replies ih =>
      unfold answer at answered
      split at answered
      · rename_i c₁ rest sent
        obtain ⟨closes, parses⟩ := reply.send_closes sent
        obtain ⟨closes', parses'⟩ := ih answered
        simp only [answerEvents, sent, List.countP_append]
        omega
      · cases answered
      · cases answered

end Accounting

/-- A read side whose delivery events account for what the deliveries do. -/
def Traced.Accounting (side : Traced α σ) : Prop :=
  ∀ s obj go s', side.deliver s obj = .ok (go, s') → EventsAccount s s' (side.delivers s obj)

theorem tracedReq_accounting (env : ServerEnv) : (tracedReq env).Accounting := by
  intro s req go s' delivered
  have started : ∃ th, s.conn.thread = some th := by
    simp only [tracedReq, reqSide, dispatch] at delivered
    split at delivered
    · rename_i th method service thread _ _
      exact ⟨th, thread⟩
    · cases delivered
  obtain ⟨th, thread⟩ := started
  obtain ⟨method, service, key, methodIs, serviceIs, keyIs, answered, -, parses, -⟩ :=
    dispatch_cases delivered
  obtain ⟨closes, none_parsed⟩ := answer_closes answered
  have served : (serve env s key req.seq (req.input.bytes s.conn.rbuf req.inputLen)
      req.inputLen).1.closes = s.conn.closes := by
    rw [serve]
    split <;> rfl
  have events : (tracedReq env).delivers s req = .uses .thread :: .dispatch ::
      answerEvents env (serve env s key req.seq (req.input.bytes s.conn.rbuf req.inputLen)
        req.inputLen).2.1 (serve env s key req.seq (req.input.bytes s.conn.rbuf req.inputLen)
          req.inputLen).1 := by
    simp only [tracedReq, dispatchEvents, thread, methodIs, serviceIs, keyIs]
  constructor
  · rw [events, closes, served]
    rfl
  · rw [events, parses]
    exact none_parsed.symm ▸ rfl

theorem tracedRsp_accounting (env : ClientEnv) : (tracedRsp env).Accounting := by
  intro s rsp go s' delivered
  simp only [tracedRsp, rspSide, deliverResponse] at delivered
  simp only [tracedRsp, deliverResponseEvents]
  cases thread : s.conn.thread with
  | none =>
      rw [thread] at delivered
      cases delivered
  | some th =>
      rw [thread] at delivered
      cases found : env.pools s.log.length rsp.seq with
      | none =>
          rw [found] at delivered
          cases delivered
      | some req =>
          simp only [found] at delivered
          split at delivered
          · rename_i different
            cases delivered
            simp only [if_pos different]
            exact ⟨rfl, rfl⟩
          · rename_i same
            cases delivered
            simp only [if_neg same]
            exact ⟨rfl, rfl⟩

section AccountingRuns

variable {side : Traced α σ} (accounting : side.Accounting) {s s' : Reader α σ}

include accounting

theorem readRound_accounts {behind : Byte} {go : Bool}
    (round : readRound side.toReadSide behind s = .ok (go, s')) :
    EventsAccount s s' (readRoundEvents side behind s) := by
  cases readRound_moves round with
  | empty none_unread =>
      rw [readRoundEvents, if_pos none_unread]
      exact ⟨rfl, rfl⟩
  | waits c unread idle window no_head =>
      simp only [readRoundEvents, if_neg unread, idle, window, if_neg no_head]
      exact ⟨rfl, rfl⟩
  | whole c c' obj unread idle window head parsed delivered =>
      have more := accounting _ _ _ _ delivered
      simp only [readRoundEvents, if_neg unread, idle, window, if_pos head, parsed]
      refine ⟨more.closes, ?_⟩
      rw [more.parses]
      simp only [List.countP_cons, ConnEvent.isParse]
      simp
      omega
  | keeps c c' obj kept unread idle window head parsed copied =>
      simp only [readRoundEvents, if_neg unread, idle, window, if_pos head, parsed]
      exact ⟨rfl, rfl⟩
  | rejects c c' unread idle window head parsed =>
      simp only [readRoundEvents, if_neg unread, idle, window, if_pos head, parsed]
      exact ⟨rfl, rfl⟩
  | resumes c last unread pending window enough delivered =>
      have more := accounting _ _ _ _ delivered
      simp only [readRoundEvents, if_neg unread, pending, window, if_pos enough]
      exact ⟨more.closes, more.parses⟩
  | short last unread pending missing =>
      simp only [readRoundEvents, if_neg unread, pending, if_neg missing]
      exact ⟨rfl, rfl⟩

theorem readRounds_accounts {behind : Byte} {fuel : Nat}
    (rounds : readRounds side.toReadSide behind fuel s = .ok s') :
    EventsAccount s s' (readRoundsEvents side behind fuel s) := by
  induction fuel generalizing s with
  | zero => cases rounds
  | succ fuel ih =>
      unfold readRounds at rounds
      split at rounds
      · cases rounds
      · rename_i s₁ last
        cases rounds
        simp only [readRoundsEvents, last, List.append_nil]
        exact readRound_accounts accounting last
      · rename_i s₁ next
        simp only [readRoundsEvents, next]
        exact (readRound_accounts accounting next).trans (ih rounds)

theorem cbReadEvents_accounts {env : ReadEnv} {reads : List ReadResult}
    (run : cbRead side.toReadSide env reads s = .ok s') :
    EventsAccount s s' (cbReadEvents side env reads s) := by
  unfold cbRead at run
  split at run
  · cases run
  · cases run
  · rename_i conn rest returned
    cases run
    obtain ⟨closes, parses⟩ := readFromConn_closes returned
    simp only [cbReadEvents, returned, List.append_nil]
    exact ⟨closes, by rw [parses]; rfl⟩
  · rename_i conn rest returned
    obtain ⟨closes, parses⟩ := readFromConn_closes returned
    have read : EventsAccount s { s with conn := conn } _ := ⟨closes, by rw [parses]; rfl⟩
    simp only [cbReadEvents, returned]
    exact read.trans (readRounds_accounts accounting run)

end AccountingRuns

/-- A run of either callback leaves a connection it has closed alone exactly if no send fails in it, and
    no read fails while there is something to do with the bytes already received. -/
theorem cbRead_noUseAfterClose (server : ServerEnv) (client : ClientEnv) (reads : List ReadResult)
    (s : ServerReader) (s' : ClientReader) :
    (CloseLast (cbReadEvents (tracedReq server) server.toReadEnv reads s) ↔
      ∀ e ∈ cbReadEvents (tracedReq server) server.toReadEnv reads s,
        Harmless RpcRequest.inputLen e) ∧
    (CloseLast (cbReadEvents (tracedRsp client) client.toReadEnv reads s') ↔
      ∀ e ∈ cbReadEvents (tracedRsp client) client.toReadEnv reads s',
        Harmless RpcResponse.outputLen e) :=
  ⟨cbReadEvents_closeLast (tracedReq_settles server) server.toReadEnv reads s,
    cbReadEvents_closeLast (tracedRsp_settles client) client.toReadEnv reads s'⟩

/-- A server whose socket fails twice, and then takes the response. -/
def failingServer : ServerEnv :=
  { echoServer with sock := fun _ iov => [.fail, .fail, .count iov.flatten.length] }

/-- A request answered on a socket that fails twice closes its connection twice; and a read that fails
    with a part of a head received goes on to look at `rcurr`, which is NULL. -/
theorem cbRead_noUseAfterClose_fails :
    let fresh := serverConn (allocConn (List.replicate BUFFER_SIZE 0) (List.replicate 5 [])) 3 0 0
    let request := requestHead (text ['m']) (text ['s']) 4 1 ++ [7]
    ¬CloseLast
        (cbReadEvents (tracedReq failingServer) failingServer.toReadEnv [.data request] fresh) ∧
    ∃ partly, cbReads (reqSide echoServer) echoServer.toReadEnv [[.data [67]]] fresh = .ok partly ∧
      cbReadEvents (tracedReq echoServer) echoServer.toReadEnv [.fail] partly =
        [.uses .rcurr, .read partly.conn (some .fail), .uses .loop, .close, .uses .rcurr] := by
  intro fresh request
  have twice : (cbReadEvents (tracedReq failingServer) failingServer.toReadEnv [.data request]
      fresh).countP ConnEvent.isClose = 2 := by decide
  constructor
  · intro last
    have once := closeLast_once last
    omega
  · have computed : (cbReads (reqSide echoServer) echoServer.toReadEnv [[.data [67]]]
        fresh).toOption.map (fun s =>
          decide (cbReadEvents (tracedReq echoServer) echoServer.toReadEnv [.fail] s =
            [.uses .rcurr, .read s.conn (some .fail), .uses .loop, .close, .uses .rcurr])) =
          some true := by decide +kernel
    obtain ⟨partly, ran, events⟩ := returned_of_computed computed
    exact ⟨partly, ran, of_decide_eq_true events⟩

end OpenRpc
