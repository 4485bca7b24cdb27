import OpenRpc.Response

/-! # Sending

`rpc_send_message` and the replies built on it. `sendmsg` is an oracle: the list of its answers, call
by call. The loop leaves as soon as one answer ends where an entry ends, whether or not entries are
left, so a message survives partial writes exactly when no answer does that too early.
-/

namespace OpenRpc

open Memory Decimal

/-- What one `sendmsg` answers: a count of bytes taken, `EAGAIN`/`EWOULDBLOCK`, or another error. -/
inductive SendResult where
  | count (n : Nat)
  | again
  | fail
  deriving Repr, DecidableEq

/-- How `rpc_send_message` ends. `pending`: it still loops when the answers run out. `undefined`: it
    stepped behind the last entry. -/
inductive SendOutcome (α : Type) where
  | returned (conn : RpcConn α) (rest : List SendResult)
  | pending (conn : RpcConn α) (accepted : List Byte)
  | undefined

/-- The inner `while`: skip the entries that `res` covers. -/
def advance : List (List Byte) → Nat → List (List Byte) × Nat
  | [], res => ([], res)
  | v :: iov, res => if v.length ≤ res then advance iov (res - v.length) else (v :: iov, res)

/-- The `for (;;)`: `iov` is `m.msg_iov`, `accepted` what the socket has taken so far. -/
def sendLoop {α : Type} : List SendResult → RpcConn α → List (List Byte) → List Byte → SendOutcome α
  | [], c, _, accepted => .pending c accepted
  | .count n :: rest, c, iov, accepted =>
      let accepted := accepted ++ iov.flatten.take n
      let left : SendOutcome α :=
        .returned { c with iovused := 0, wire := c.wire ++ [accepted] } rest
      if 0 < n then
        match advance iov n with
        | (_, 0) => left
        | ([], _ + 1) => .undefined
        | (v :: iov, res + 1) => sendLoop rest c (v.drop (res + 1) :: iov) accepted
      else left
  | .again :: rest, c, iov, accepted => sendLoop rest c iov accepted
  -- the error branch closes the connection and does not leave the loop
  | .fail :: rest, c, iov, accepted => sendLoop rest (rpcConnClose c) iov accepted

/-- `rpc_send_message`. -/
def rpcSendMessage {α : Type} (results : List SendResult) (c : RpcConn α) : SendOutcome α :=
  sendLoop results c c.queued []

/-- The answers of a working socket: `EAGAIN`, or a positive count of the bytes still offered. -/
def Offers : Nat → List SendResult → Prop
  | _, [] => True
  | left, .count n :: rest => 0 < n ∧ n ≤ left ∧ Offers (left - n) rest
  | left, .again :: rest => Offers left rest
  | _, .fail :: _ => False

/-- The bytes taken by a list of answers. -/
def sentBy (results : List SendResult) : Nat :=
  (results.map fun | .count n => n | _ => 0).sum

/-- Some entry ends after `k` bytes. -/
def EntryEnd (iov : List (List Byte)) (k : Nat) : Prop := ∃ i, (iov.take i).flatten.length = k

theorem advance_split (iov : List (List Byte)) (n : Nat) :
    ∃ skipped, iov = skipped ++ (advance iov n).1 ∧
      n = skipped.flatten.length + (advance iov n).2 ∧
      ∀ v ∈ (advance iov n).1.head?, (advance iov n).2 < v.length := by
  induction iov generalizing n with
  | nil => exact ⟨[], rfl, by simp [advance], by simp [advance]⟩
  | cons v iov ih =>
      by_cases covered : v.length ≤ n
      · obtain ⟨skipped, split, count, inside⟩ := ih (n - v.length)
        simp only [advance, if_pos covered]
        refine ⟨v :: skipped, by rw [List.cons_append, ← split], ?_, inside⟩
        simp only [List.flatten_cons, List.length_append]
        omega
      · refine ⟨[], by simp [advance, covered], by simp [advance, covered], ?_⟩
        simp only [advance, if_neg covered, List.head?_cons, Option.mem_def, Option.some.injEq]
        rintro _ rfl
        omega

theorem take_flatten_mono (iov : List (List Byte)) {i j : Nat} (le : i ≤ j) :
    (iov.take i).flatten.length ≤ (iov.take j).flatten.length := by
  have split : iov.take j = iov.take i ++ (iov.drop i).take (j - i) := by
    rw [← List.take_add, Nat.add_sub_cancel' le]
  rw [split, List.flatten_append, List.length_append]
  omega

theorem entryEnd_inside {skipped iov : List (List Byte)} {v : List Byte} {res : Nat}
    (inside : res < v.length) (k : Nat) (later : 0 < res + k) :
    EntryEnd (skipped ++ v :: iov) (skipped.flatten.length + (res + k)) ↔
      0 < k ∧ EntryEnd (v.drop res :: iov) k := by
  constructor
  · rintro ⟨i, ends⟩
    by_cases early : i ≤ skipped.length
    · have short := take_flatten_mono (skipped ++ v :: iov) early
      rw [ends, List.take_left] at short
      omega
    · obtain ⟨j, rfl⟩ : ∃ j, i = skipped.length + (j + 1) := ⟨i - skipped.length - 1, by omega⟩
      have shape : (skipped ++ v :: iov).take (skipped.length + (j + 1)) =
          skipped ++ v :: iov.take j := by
        rw [List.take_length_add_append, List.take_succ_cons]
      simp only [shape, List.flatten_append, List.flatten_cons, List.length_append] at ends
      refine ⟨by omega, j + 1, ?_⟩
      simp only [List.take_succ_cons, List.flatten_cons, List.length_append, List.length_drop]
      omega
  · rintro ⟨positive, i, ends⟩
    cases i with
    | zero => simp at ends; omega
    | succ j =>
        refine ⟨skipped.length + (j + 1), ?_⟩
        simp only [List.take_succ_cons, List.flatten_cons, List.length_append,
          List.length_drop] at ends
        rw [List.take_length_add_append, List.take_succ_cons]
        simp only [List.flatten_append, List.flatten_cons, List.length_append]
        omega

/-- No answer so far ended an entry before the whole message was out. -/
def CleanSplits (iov : List (List Byte)) (results : List SendResult) : Prop :=
  ∀ j, 0 < sentBy (results.take j) → EntryEnd iov (sentBy (results.take j)) →
    sentBy (results.take j) = iov.flatten.length

theorem cleanSplits_again (iov : List (List Byte)) (rest : List SendResult) :
    CleanSplits iov (.again :: rest) ↔ CleanSplits iov rest := by
  constructor
  · intro clean j
    simpa [sentBy] using clean (j + 1)
  · intro clean j
    cases j with
    | zero => simp [sentBy]
    | succ j => simpa [sentBy] using clean j

/-- A count that ends inside an entry leaves the question to the rest of the message. -/
theorem cleanSplits_inside {skipped iov : List (List Byte)} {v : List Byte} {res : Nat}
    (positive : 0 < res) (inside : res < v.length) (rest : List SendResult) :
    CleanSplits (skipped ++ v :: iov) (.count (skipped.flatten.length + res) :: rest) ↔
      CleanSplits (v.drop res :: iov) rest := by
  have total : (skipped ++ v :: iov).flatten.length =
      skipped.flatten.length + (res + (v.drop res :: iov).flatten.length) := by
    simp only [List.flatten_append, List.flatten_cons, List.length_append, List.length_drop]
    omega
  have sum : ∀ j, sentBy ((SendResult.count (skipped.flatten.length + res) :: rest).take (j + 1)) =
      skipped.flatten.length + (res + sentBy (rest.take j)) := by
    intro j
    simp only [sentBy, List.take_succ_cons, List.map_cons, List.sum_cons, Nat.add_assoc]
  constructor
  · intro clean j more ends
    have whole := clean (j + 1) (by rw [sum]; omega)
      (by rw [sum]; exact (entryEnd_inside inside _ (by omega)).mpr ⟨more, ends⟩)
    rw [sum, total] at whole
    omega
  · intro clean j
    cases j with
    | zero => simp [sentBy]
    | succ j =>
        rw [sum, total]
        intro _ ends
        obtain ⟨more, ends⟩ := (entryEnd_inside inside _ (by omega)).mp ends
        rw [clean j more ends]

/-- One count, whatever comes behind it: it either ends an entry and the loop is left, or it ends
    inside one. -/
theorem sendLoop_split {α : Type} (c : RpcConn α) {iov : List (List Byte)} {n : Nat}
    (positive : 0 < n) (offered : n ≤ iov.flatten.length) :
    (EntryEnd iov n ∧ ∀ rest accepted, sendLoop (.count n :: rest) c iov accepted =
      .returned { c with iovused := 0, wire := c.wire ++ [accepted ++ iov.flatten.take n] } rest) ∨
    ∃ skipped v more res, iov = skipped ++ v :: more ∧ 0 < res ∧ res < v.length ∧
      n = skipped.flatten.length + res ∧
      ∀ rest accepted, sendLoop (.count n :: rest) c iov accepted =
        sendLoop rest c (v.drop res :: more) (accepted ++ iov.flatten.take n) := by
  obtain ⟨skipped, split, count, inside⟩ := advance_split iov n
  cases moved : advance iov n with
  | mk more res =>
    rw [moved] at split count inside
    cases res with
    | zero =>
        refine .inl ⟨⟨skipped.length, ?_⟩, by simp only [sendLoop, if_pos positive, moved, implies_true]⟩
        rw [split, List.take_left]
        exact count.symm
    | succ res =>
        cases more with
        | nil =>
            rw [split, List.append_nil] at offered
            omega
        | cons v more =>
            exact .inr ⟨skipped, v, more, res + 1, split, by omega, inside v rfl, count,
              by simp only [sendLoop, if_pos positive, moved, implies_true]⟩

theorem sendLoop_count {α : Type} (c : RpcConn α) {iov : List (List Byte)} {n : Nat}
    (positive : 0 < n) (offered : n ≤ iov.flatten.length) (rest : List SendResult)
    (accepted : List Byte) :
    (EntryEnd iov n ∧ sendLoop (.count n :: rest) c iov accepted =
      .returned { c with iovused := 0, wire := c.wire ++ [accepted ++ iov.flatten.take n] } rest) ∨
    ∃ skipped v more res, iov = skipped ++ v :: more ∧ 0 < res ∧ res < v.length ∧
      n = skipped.flatten.length + res ∧
      sendLoop (.count n :: rest) c iov accepted =
        sendLoop rest c (v.drop res :: more) (accepted ++ iov.flatten.take n) := by
  rcases sendLoop_split c positive offered with
    ⟨ends, left⟩ | ⟨skipped, v, more, res, split, somewhere, inside, count, goesOn⟩
  · exact .inl ⟨ends, left rest accepted⟩
  · exact .inr ⟨skipped, v, more, res, split, somewhere, inside, count, goesOn rest accepted⟩

theorem offers_nothing {results : List SendResult} (working : Offers 0 results) (j : Nat) :
    sentBy (results.take j) = 0 := by
  induction results generalizing j with
  | nil => simp [sentBy]
  | cons r results ih =>
      cases j with
      | zero => rfl
      | succ j =>
          cases r with
          | count n =>
              obtain ⟨positive, none_left, _⟩ := working
              omega
          | again => simpa [sentBy] using ih working j
          | fail => exact working.elim

/-- A count that ends an entry is clean only if it is the whole rest of the message. -/
theorem cleanSplits_end {iov : List (List Byte)} {n : Nat} {rest : List SendResult}
    (positive : 0 < n) (working : Offers (iov.flatten.length - n) rest) (ends : EntryEnd iov n) :
    CleanSplits iov (.count n :: rest) ↔ n = iov.flatten.length := by
  constructor
  · intro clean
    have first : sentBy ((SendResult.count n :: rest).take 1) = n := by simp [sentBy]
    have whole := clean 1
    rw [first] at whole
    exact whole positive ends
  · rintro whole j more -
    cases j with
    | zero => simp [sentBy] at more
    | succ j =>
        rw [← whole, Nat.sub_self] at working
        have split : sentBy ((SendResult.count n :: rest).take (j + 1)) =
            n + sentBy (rest.take j) := by simp [sentBy]
        rw [split, offers_nothing working, ← whole, Nat.add_zero]

/-- The bytes taken up to inside an entry and the entries still to send make up the message. -/
theorem sent_inside (skipped more : List (List Byte)) (v : List Byte) {res : Nat}
    (inside : res < v.length) :
    (skipped ++ v :: more).flatten.take (skipped.flatten.length + res) ++
      (v.drop res :: more).flatten = (skipped ++ v :: more).flatten := by
  have shape : (skipped ++ v :: more).flatten =
      (skipped.flatten ++ v.take res) ++ (v.drop res :: more).flatten := by
    simp only [List.flatten_append, List.flatten_cons, List.append_assoc]
    rw [← List.append_assoc (v.take res), List.take_append_drop]
  have len : skipped.flatten.length + res = (skipped.flatten ++ v.take res).length := by
    rw [List.length_append, List.length_take, Nat.min_eq_left (Nat.le_of_lt inside)]
  rw [shape, len, List.take_left]

theorem sendLoop_lossless {α : Type} (results : List SendResult) (c : RpcConn α)
    (iov : List (List Byte)) (accepted : List Byte) (working : Offers iov.flatten.length results) :
    (∀ c' rest, sendLoop results c iov accepted = .returned c' rest →
      c'.wire = c.wire ++ [accepted ++ iov.flatten]) ↔ CleanSplits iov results := by
  induction results generalizing iov accepted with
  | nil =>
      refine ⟨fun _ j => by simp [sentBy], fun _ c' rest left => ?_⟩
      simp [sendLoop] at left
  | cons r results ih =>
      cases r with
      | fail => exact working.elim
      | again =>
          rw [cleanSplits_again, ← ih iov accepted working]
          rfl
      | count n =>
          obtain ⟨positive, offered, working⟩ := working
          rcases sendLoop_count c positive offered results accepted with
            ⟨ends, left⟩ | ⟨skipped, v, more, res, rfl, somewhere, inside, rfl, goesOn⟩
          -- the loop is left here, with the first `n` bytes taken
          · rw [cleanSplits_end positive working ends]
            constructor
            · intro lossless
              have whole := List.append_cancel_left (lossless _ _ left)
              have same := List.append_cancel_left (List.singleton_inj.mp whole)
              have len := congrArg List.length same
              rw [List.length_take] at len
              omega
            · intro whole c' rest returned
              rw [left] at returned
              cases returned
              rw [whole, List.take_length]
          -- the loop goes on inside the entry `v`
          · have whole := sent_inside skipped more v inside
            have still : (skipped ++ v :: more).flatten.length -
                (skipped.flatten.length + res) = (v.drop res :: more).flatten.length := by
              have len := congrArg List.length whole
              rw [List.length_append, List.length_take, Nat.min_eq_left offered] at len
              omega
            rw [still] at working
            rw [cleanSplits_inside somewhere inside, goesOn, ← ih (v.drop res :: more)
              (accepted ++ (skipped ++ v :: more).flatten.take (skipped.flatten.length + res)) working]
            simp only [List.append_assoc, whole]

/-- A message gets through whole exactly when no answer before its end falls on the end of an entry. -/
theorem rpcSendMessage_lossless {α : Type} (c : RpcConn α) (results : List SendResult)
    (working : Offers c.queued.flatten.length results) :
    (∀ c' rest, rpcSendMessage results c = .returned c' rest →
      c'.wire = c.wire ++ [c.queued.flatten]) ↔ CleanSplits c.queued results :=
  sendLoop_lossless results c c.queued [] working

theorem rpcSendMessage_lossless_twoEntries :
    let c : RpcConn RpcRequest := { allocConn [] [[1, 2], [3]] with iovused := 2 }
    ∀ c' rest, rpcSendMessage [.count 1, .again, .count 2] c = .returned c' rest →
      c'.wire = [[1, 2, 3]] := by
  intro c
  apply (rpcSendMessage_lossless c [.count 1, .again, .count 2] (by simp +decide [Offers, c])).mpr
  intro j more ends
  rcases j with _ | _ | _ | j
  · simp [sentBy] at more
  · obtain ⟨i, ends⟩ := ends
    rcases i with _ | _ | _ | i <;> simp [sentBy, c, allocConn, RpcConn.queued] at ends
  · obtain ⟨i, ends⟩ := ends
    rcases i with _ | _ | _ | i <;> simp [sentBy, c, allocConn, RpcConn.queued] at ends
  · simp [sentBy, c, allocConn, RpcConn.queued]

/-- The first answer takes exactly the status line, and the rest of the response is never sent. -/
theorem rpcSendMessage_drops_response :
    let entries := responseEntries errCodes 200 1 (some [7]) 1
    let c : RpcConn RpcRequest := { allocConn [] entries with iovused := 4 }
    c.queued = entries ∧ Offers c.queued.flatten.length [.count 15] ∧
      ∃ c', rpcSendMessage [.count 15] c = .returned c' [] ∧
        c'.wire ≠ c.wire ++ [c.queued.flatten] := by
  refine ⟨rfl, ⟨by decide, by decide, trivial⟩, _, rfl, by decide⟩

/-- Answers on which the loop is left: they are those of a working socket, and one of them falls on
    the end of an entry. -/
structure Completes (iov : List (List Byte)) (results : List SendResult) : Prop where
  working : Offers iov.flatten.length results
  ends : ∃ j, 0 < sentBy (results.take j) ∧ EntryEnd iov (sentBy (results.take j))

theorem sendLoop_returns {α : Type} (results : List SendResult) (c : RpcConn α)
    (iov : List (List Byte)) (accepted : List Byte) (completes : Completes iov results) :
    ∃ rest message, sendLoop results c iov accepted =
      .returned { c with iovused := 0, wire := c.wire ++ [message] } rest := by
  obtain ⟨working, j, sent, ends⟩ := completes
  induction results generalizing iov accepted j with
  | nil => simp [sentBy] at sent
  | cons r results ih =>
      obtain ⟨j, rfl⟩ : ∃ i, j = i + 1 := by
        cases j with
        | zero => simp [sentBy] at sent
        | succ i => exact ⟨i, rfl⟩
      cases r with
      | fail => exact working.elim
      | again =>
          have shift : sentBy ((SendResult.again :: results).take (j + 1)) =
              sentBy (results.take j) := by simp [sentBy]
          rw [shift] at sent ends
          exact ih iov accepted working j sent ends
      | count n =>
          obtain ⟨positive, offered, working⟩ := working
          rcases sendLoop_count c positive offered results accepted with
            ⟨-, left⟩ | ⟨skipped, v, more, res, rfl, somewhere, inside, rfl, goesOn⟩
          · exact ⟨results, _, left⟩
          · have sum : sentBy ((SendResult.count (skipped.flatten.length + res) :: results).take
                (j + 1)) = skipped.flatten.length + (res + sentBy (results.take j)) := by
              simp only [sentBy, List.take_succ_cons, List.map_cons, List.sum_cons, Nat.add_assoc]
            have len := congrArg List.length (sent_inside skipped more v inside)
            rw [List.length_append, List.length_take, Nat.min_eq_left offered] at len
            have still : (skipped ++ v :: more).flatten.length -
                (skipped.flatten.length + res) = (v.drop res :: more).flatten.length := by omega
            rw [sum] at ends
            rw [still] at working
            obtain ⟨later, ends⟩ := (entryEnd_inside inside _ (by omega)).mp ends
            rw [goesOn]
            exact ih _ _ working j later ends

/-- The answers of `sendmsg` to the messages of a connection: the number of messages before, and the
    entries of this one. -/
abbrev Socket := Nat → List (List Byte) → List SendResult

/-- A socket on which no send fails or waits for ever. -/
def Socket.Returns (sock : Socket) : Prop :=
  ∀ k iov, 0 < iov.flatten.length → Completes iov (sock k iov)

/-- A socket that does not end an answer on the end of an entry before the message is out. -/
def Socket.Lossless (sock : Socket) : Prop := ∀ k iov, CleanSplits iov (sock k iov)

/-- The `rpc_conn_addiov` calls of `rpc_send_response`. -/
def queueResponse {α : Type} (alloc : Nat → Bool) (table : List ErrCode) (c : RpcConn α)
    (code : Int) (output : Option (List Byte)) (outputLen : Nat) : Option (RpcConn α) :=
  addiovs alloc c (responseEntries table code c.currSeq output outputLen)

/-- `rpc_send_response`. -/
def rpcSendResponse {α : Type} (alloc : Nat → Bool) (sock : Socket) (table : List ErrCode)
    (c : RpcConn α) (code : Int) (output : Option (List Byte)) (outputLen : Nat) : SendOutcome α :=
  match queueResponse alloc table c code output outputLen with
  | none => .undefined
  | some c => rpcSendMessage (sock c.wire.length c.queued) c

def rpcReturn {α : Type} (alloc : Nat → Bool) (sock : Socket) (table : List ErrCode) (c : RpcConn α)
    (output : Option (List Byte)) (outputLen : Nat) : SendOutcome α :=
  rpcSendResponse alloc sock table c RpcCode.ok.num output outputLen

def rpcReturnNull {α : Type} (alloc : Nat → Bool) (sock : Socket) (table : List ErrCode)
    (c : RpcConn α) : SendOutcome α :=
  rpcSendResponse alloc sock table c RpcCode.ok.num none 0

def rpcReturnError {α : Type} (alloc : Nat → Bool) (sock : Socket) (table : List ErrCode)
    (c : RpcConn α) (errCode : Int) (errMessage : List Byte) : SendOutcome α :=
  rpcSendResponse alloc sock table c errCode (some errMessage) errMessage.length

theorem responseEntries_length (table : List ErrCode) (code currSeq : Int)
    (output : Option (List Byte)) (outputLen : Nat) :
    (responseEntries table code currSeq output outputLen).length ≤ 4 := by
  cases output <;> simp [responseEntries]

theorem responseEntries_nonempty (table : List ErrCode) (code currSeq : Int)
    (output : Option (List Byte)) (outputLen : Nat) :
    0 < (responseEntries table code currSeq output outputLen).flatten.length := by
  simp only [responseEntries, List.cons_append, List.flatten_cons, List.length_append,
    List.length_singleton]
  omega

theorem queueResponse_idle {α : Type} (alloc : Nat → Bool) (table : List ErrCode) {c : RpcConn α}
    (idle : c.Idle) (code : Int) (output : Option (List Byte)) (outputLen : Nat) :
    ∃ c', queueResponse alloc table c code output outputLen = some c' ∧
      c'.queued = responseEntries table code c.currSeq output outputLen ∧
      c'.iov.length = c'.iovsize ∧ c'.iovsize = c.iovsize ∧ c.SameReadSide c' ∧
      c'.currSeq = c.currSeq ∧ c'.wire = c.wire := by
  have short := responseEntries_length table code c.currSeq output outputLen
  have room := idle.room
  obtain ⟨c', stored, entries, vector, size, same, seq, wire⟩ :=
    addiovs_queued alloc idle.vector (responseEntries table code c.currSeq output outputLen)
      (by rw [idle.empty]; omega)
  rw [idle.queued, List.nil_append] at entries
  exact ⟨c', stored, entries, vector, size, same, seq, wire⟩

theorem rpcSendResponse_idle {α : Type} (alloc : Nat → Bool) {sock : Socket} (returns : sock.Returns)
    (table : List ErrCode) {c : RpcConn α} (idle : c.Idle) (code : Int)
    (output : Option (List Byte)) (outputLen : Nat) :
    ∃ c' rest message, rpcSendResponse alloc sock table c code output outputLen =
        .returned c' rest ∧
      c'.wire = c.wire ++ [message] ∧ c'.Idle ∧ c.SameReadSide c' ∧ c'.currSeq = c.currSeq ∧
      (sock.Lossless → message = (responseEntries table code c.currSeq output outputLen).flatten) := by
  obtain ⟨queued, stored, entries, vector, size, same, seq, wire⟩ :=
    queueResponse_idle alloc table idle code output outputLen
  have nonempty : 0 < queued.queued.flatten.length := by
    rw [entries]
    exact responseEntries_nonempty table code c.currSeq output outputLen
  have completes := returns queued.wire.length queued.queued nonempty
  obtain ⟨rest, message, returned⟩ := sendLoop_returns _ queued queued.queued [] completes
  refine ⟨{ queued with iovused := 0, wire := queued.wire ++ [message] }, rest, message,
    by simp only [rpcSendResponse, stored, rpcSendMessage, returned], by rw [wire], ?_, ?_, seq, ?_⟩
  · exact ⟨vector, rfl, size ▸ idle.room⟩
  · exact ⟨same.rbuf, same.rcurr, same.rsize, same.rbytes, same.unprocessData, same.thread⟩
  · intro lossless
    have whole := (sendLoop_lossless _ queued queued.queued [] completes.working).mpr
      (lossless _ _) _ _ returned
    rw [← entries]
    exact List.singleton_inj.mp (List.append_cancel_left whole)

/-- A call that answers a request. -/
inductive Reply where
  | value (output : Option (List Byte)) (outputLen : Nat)
  | null
  | error (errCode : Int) (errMessage : List Byte)
  deriving Repr, DecidableEq

def Reply.send {α : Type} (alloc : Nat → Bool) (sock : Socket) (table : List ErrCode)
    (c : RpcConn α) : Reply → SendOutcome α
  | .value output outputLen => rpcReturn alloc sock table c output outputLen
  | .null => rpcReturnNull alloc sock table c
  | .error errCode errMessage => rpcReturnError alloc sock table c errCode errMessage

/-- A relation between a connection and a later one that goes through all that sending does. -/
structure KeptBySending {α : Type} (R : RpcConn α → RpcConn α → Prop) : Prop where
  refl : ∀ c, R c c
  trans : ∀ {a b c}, R a b → R b c → R a c
  queues : ∀ c iov iovsize iovused,
    R c { c with iov := iov, iovsize := iovsize, iovused := iovused }
  sends : ∀ c wire, R c { c with iovused := 0, wire := wire }
  closes : ∀ c, R c (rpcConnClose c)

section Kept

variable {α : Type} {R : RpcConn α → RpcConn α → Prop} (kept : KeptBySending R)

include kept

theorem addiovs_keeps {alloc : Nat → Bool} {c c' : RpcConn α} {entries : List (List Byte)}
    (h : addiovs alloc c entries = some c') : R c c' := by
  induction entries generalizing c with
  | nil =>
      cases h
      exact kept.refl _
  | cons data entries ih =>
      obtain ⟨c₁, stored, more⟩ := Option.bind_eq_some_iff.mp h
      refine kept.trans ?_ (ih more)
      simp only [rpcConnAddiov] at stored
      repeat' split at stored
      all_goals cases stored
      all_goals exact kept.queues c _ _ _

theorem sendLoop_keeps {results rest : List SendResult} {c c' : RpcConn α} {iov : List (List Byte)}
    {accepted : List Byte} (h : sendLoop results c iov accepted = .returned c' rest) : R c c' := by
  induction results generalizing c iov accepted with
  | nil => cases h
  | cons r results ih =>
      cases r with
      | again => exact ih h
      | fail => exact kept.trans (kept.closes c) (ih h)
      | count n =>
          unfold sendLoop at h
          split at h
          · split at h
            · cases h
              exact kept.sends c _
            · cases h
            · exact ih h
          · cases h
            exact kept.sends c _

theorem rpcSendResponse_keeps {alloc : Nat → Bool} {sock : Socket} {table : List ErrCode}
    {c c' : RpcConn α} {code : Int} {output : Option (List Byte)} {outputLen : Nat}
    {rest : List SendResult}
    (h : rpcSendResponse alloc sock table c code output outputLen = .returned c' rest) : R c c' := by
  unfold rpcSendResponse at h
  split at h
  · cases h
  · rename_i c₁ stored
    exact kept.trans (addiovs_keeps kept stored) (sendLoop_keeps kept h)

theorem Reply.send_keeps {alloc : Nat → Bool} {sock : Socket} {table : List ErrCode}
    {c c' : RpcConn α} {reply : Reply} {rest : List SendResult}
    (h : reply.send alloc sock table c = .returned c' rest) : R c c' := by
  cases reply with
  | value output outputLen => exact rpcSendResponse_keeps kept h
  | null => exact rpcSendResponse_keeps kept h
  | error errCode errMessage => exact rpcSendResponse_keeps kept h

end Kept

/-- The response a reply writes on a connection whose `curr_seq` is `seq`. -/
def Reply.message (table : List ErrCode) (seq : Int) : Reply → List Byte
  | .value output outputLen => (responseEntries table RpcCode.ok.num seq output outputLen).flatten
  | .null => (responseEntries table RpcCode.ok.num seq none 0).flatten
  | .error errCode errMessage =>
      (responseEntries table errCode seq (some errMessage) errMessage.length).flatten

theorem Reply.send_idle {α : Type} (alloc : Nat → Bool) {sock : Socket} (returns : sock.Returns)
    (table : List ErrCode) {c : RpcConn α} (idle : c.Idle) (reply : Reply) :
    ∃ c' rest message, reply.send alloc sock table c = .returned c' rest ∧
      c'.wire = c.wire ++ [message] ∧ c'.Idle ∧ c.SameReadSide c' ∧ c'.currSeq = c.currSeq ∧
      (sock.Lossless → message = reply.message table c.currSeq) := by
  cases reply with
  | value output outputLen => exact rpcSendResponse_idle alloc returns table idle _ output outputLen
  | null => exact rpcSendResponse_idle alloc returns table idle _ none 0
  | error errCode errMessage => exact rpcSendResponse_idle alloc returns table idle _ _ _

end OpenRpc
