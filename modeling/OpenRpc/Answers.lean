import OpenRpc.Server

/-! # Every response answers its own request

Over any run of a server connection there are as many responses as requests handed out, in the same
order. The number a response carries is the one `curr_seq` holds, so it is the request's own when a
service was found, and otherwise that of the last request before it that found one.
-/

namespace OpenRpc

open Memory Decimal

/-- A response whose second line is `seq:` and the number. -/
def CarriesSeq (seq : Int) (message : List Byte) : Prop :=
  ∃ code phrase tail, PhraseWord phrase ∧
    message = statusText code phrase ++ newline :: (seqLabel ++ intText seq ++ newline :: tail)

theorem newline_split {a a' b b' : List Byte} (one : newline ∉ a) (one' : newline ∉ a')
    (same : a ++ newline :: b = a' ++ newline :: b') : a = a' ∧ b = b' := by
  induction a generalizing a' with
  | nil =>
      cases a' with
      | nil => exact ⟨rfl, (List.cons.inj same).2⟩
      | cons x a' =>
          have first := (List.cons.inj same).1
          exact absurd (first ▸ List.mem_cons_self) one'
  | cons x a ih =>
      cases a' with
      | nil =>
          have first := (List.cons.inj same).1
          exact absurd (first ▸ List.mem_cons_self) one
      | cons x' a' =>
          obtain ⟨first, rest⟩ := List.cons.inj same
          obtain ⟨rfl, tail⟩ := ih (fun h => one (List.mem_cons_of_mem _ h))
            (fun h => one' (List.mem_cons_of_mem _ h)) rest
          exact ⟨by rw [first], tail⟩

theorem wordsText_one_line {w₁ w₂ w₃ : List Byte} (words : Words w₁ w₂ w₃) :
    newline ∉ wordsText w₁ w₂ w₃ := by
  intro member
  simp only [wordsText, List.mem_append, List.mem_cons] at member
  rcases member with h | h | h | h | h
  · exact (words.plain₁ _ h).2.1 rfl
  · revert h; decide
  · exact (words.plain₂ _ h).2.1 rfl
  · revert h; decide
  · exact (words.plain₃ _ h).2.1 rfl

theorem intText_injective : Function.Injective intText := by
  intro v v' same
  have back := scanNumber_intText v [] (by simp)
  rw [same, scanNumber_intText v' [] (by simp)] at back
  exact (Option.some.inj back).symm

theorem carriesSeq_unique {seq seq' : Int} {message : List Byte} (h : CarriesSeq seq message)
    (h' : CarriesSeq seq' message) : seq = seq' := by
  obtain ⟨code, phrase, tail, word, rfl⟩ := h
  obtain ⟨code', phrase', tail', word', same⟩ := h'
  obtain ⟨-, second⟩ := newline_split (wordsText_one_line (statusText_words word code))
    (wordsText_one_line (statusText_words word' code')) same
  rw [List.append_assoc, List.append_assoc] at second
  have digits := fun v : Int => intText_avoids (v := v) (c := newline) (by decide) (by decide)
  obtain ⟨number, -⟩ := newline_split (digits seq) (digits seq') (List.append_cancel_left second)
  exact intText_injective number

theorem reply_carriesSeq {table : List ErrCode} (names : ∀ e ∈ table, PhraseWord e.name) (seq : Int)
    (reply : Reply) : CarriesSeq seq (reply.message table seq) := by
  have entries : ∀ code output outputLen,
      CarriesSeq seq (responseEntries table code seq output outputLen).flatten := by
    intro code output outputLen
    refine ⟨code, phraseText table code, bodyLenLabel ++ (intText (toInt32 outputLen) ++
      newline :: newline :: (output.getD []).take outputLen), phraseText_word names code, ?_⟩
    cases output <;> simp [responseEntries]
  cases reply with
  | value output outputLen => exact entries RpcCode.ok.num output outputLen
  | null => exact entries RpcCode.ok.num none 0
  | error errCode errMessage => exact entries errCode (some errMessage) errMessage.length

/-- What `curr_seq` holds after these requests. -/
def lastFound (handed : List Handed) : Int :=
  handed.foldl (fun cur h => if h.found then h.seq else cur) (-1)

theorem lastFound_snoc (handed : List Handed) (h : Handed) :
    lastFound (handed ++ [h]) = if h.found then h.seq else lastFound handed := by
  rw [lastFound, List.foldl_append]
  rfl

/-- Every callback replies once. -/
def ServerEnv.RepliesOnce (env : ServerEnv) : Prop :=
  ∀ key cb, env.serviceMap key = some cb → ∀ k input inputLen, ∃ reply, cb k input inputLen = [reply]

/-- What holds of a server connection between two deliveries. -/
structure Answered (s : ServerReader) : Prop where
  idle : s.conn.Idle
  currSeq : s.conn.currSeq = lastFound s.log
  count : s.conn.wire.length = s.log.length
  carried : ∀ (i : Nat) (h : Handed), s.log[i]? = some h → ∃ message, s.conn.wire[i]? = some message ∧
    CarriesSeq (lastFound (s.log.take (i + 1))) message

theorem answered_reply {env : ServerEnv} (returns : env.sock.Returns) (lossless : env.sock.Lossless)
    (names : ∀ e ∈ env.table, PhraseWord e.name) {s s' : ServerReader} (before : Answered s)
    {c : RpcConn RpcRequest} (idle : c.Idle) (wire : c.wire = s.conn.wire) {handed : Handed}
    (seq : c.currSeq = lastFound (s.log ++ [handed])) {reply : Reply}
    (answered : answer env [reply] c = .ok s'.conn) (logged : s'.log = s.log ++ [handed]) :
    Answered s' := by
  obtain ⟨c', rest, message, sent, written, idle', -, kept, whole⟩ :=
    reply.send_idle env.alloc returns env.table idle
  simp only [answer, sent, Except.ok.injEq] at answered
  rw [whole lossless, seq, wire] at written
  rw [answered] at written idle' kept
  have length := before.count
  refine ⟨idle', by rw [kept, seq, logged], by simp [written, logged, length], ?_⟩
  intro i h at_i
  rw [logged, List.getElem?_append] at at_i
  split at at_i
  -- an earlier request: its response is where it was
  · obtain ⟨message, there, carried⟩ := before.carried i h at_i
    refine ⟨message, ?_, ?_⟩
    · rw [written, List.getElem?_append_left (by omega), there]
    · rw [logged, List.take_append_of_le_length (by omega)]
      exact carried
  -- the request just handed out
  · have last : i = s.log.length := by
      have inside := (List.getElem?_eq_some_iff.mp at_i).1
      simp only [List.length_singleton] at inside
      omega
    refine ⟨reply.message env.table (lastFound (s.log ++ [handed])), ?_, ?_⟩
    · rw [written, last, ← length, List.getElem?_concat_length]
    · rw [logged, last, List.take_of_length_le (by simp)]
      exact reply_carriesSeq names _ reply

theorem answered_dispatch {env : ServerEnv} (once : env.RepliesOnce) (returns : env.sock.Returns)
    (lossless : env.sock.Lossless)
    (names : ∀ e ∈ env.table, PhraseWord e.name) {s s' : ServerReader} {req : RpcRequest} {go : Bool}
    (h : dispatch env s req = .ok (go, s')) (before : Answered s) : Answered s' := by
  obtain ⟨method, service, key, -, -, -, answered, -, -, logged⟩ := dispatch_cases h
  generalize req.input.bytes s.conn.rbuf req.inputLen = input at answered logged
  rcases serve_cases env s key req.seq input req.inputLen with ⟨cb, found, served⟩ | ⟨-, served⟩
  · obtain ⟨reply, replied⟩ := once key cb found s.log.length input req.inputLen
    rw [served, replied] at answered
    rw [served] at logged
    have idle : ({ s.conn with currSeq := req.seq } : RpcConn RpcRequest).Idle :=
      ⟨before.idle.vector, before.idle.empty, before.idle.room⟩
    refine answered_reply returns lossless names before idle rfl ?_ answered logged
    rw [lastFound_snoc, if_pos rfl]
  · rw [served] at answered logged
    refine answered_reply returns lossless names before before.idle rfl ?_ answered logged
    rw [lastFound_snoc, if_neg (by simp), before.currSeq]

theorem answered_keeps {env : ServerEnv} (once : env.RepliesOnce) (returns : env.sock.Returns)
    (lossless : env.sock.Lossless)
    (names : ∀ e ∈ env.table, PhraseWord e.name) : (reqSide env).Keeps Answered where
  read := by
    intro s s' same log before
    exact ⟨same.idle before.idle, by rw [same.currSeq, log, before.currSeq],
      by rw [same.wire, log, before.count], by rw [same.wire, log]; exact before.carried⟩
  deliver := by
    intro s req go s' delivered before
    exact answered_dispatch once returns lossless names delivered before

/-- There is one response for each request handed out, and each carries its own request's number exactly
    when every request without a service repeats the number of the last one that had a service. -/
theorem answers_iff {env : ServerEnv} (once : env.RepliesOnce) (returns : env.sock.Returns)
    (lossless : env.sock.Lossless)
    (names : ∀ e ∈ env.table, PhraseWord e.name) {conn : RpcConn RpcRequest}
    (vector : conn.iov.length = conn.iovsize) (room : 5 ≤ conn.iovsize) {fd l th : Nat}
    {runs : List (List ReadResult)} {s : ServerReader}
    (ran : cbReads (reqSide env) env.toReadEnv runs (serverConn conn fd l th) = .ok s) :
    (s.conn.wire.length = s.log.length ∧ ∀ (i : Nat) (h : Handed), s.log[i]? = some h →
      ∃ message, s.conn.wire[i]? = some message ∧ CarriesSeq h.seq message) ↔
    ∀ (i : Nat) (h : Handed), s.log[i]? = some h → h.found = false →
      h.seq = lastFound (s.log.take i) := by
  have start : Answered (serverConn conn fd l th) :=
    ⟨⟨vector, rfl, room⟩, rfl, rfl, by simp [serverConn]⟩
  have after : Answered s := cbReads_keeps (answered_keeps once returns lossless names) ran start
  have carries : ∀ (i : Nat) (h : Handed), s.log[i]? = some h →
      lastFound (s.log.take (i + 1)) = if h.found then h.seq else lastFound (s.log.take i) := by
    intro i h at_i
    rw [List.take_add_one, at_i, Option.toList_some, lastFound_snoc]
  constructor
  · rintro ⟨-, own⟩ i h at_i absent
    obtain ⟨message, there, carried⟩ := after.carried i h at_i
    obtain ⟨message', there', own⟩ := own i h at_i
    rw [there] at there'
    cases there'
    rw [carries i h at_i, absent, if_neg (by simp)] at carried
    exact carriesSeq_unique own carried
  · intro repeated
    refine ⟨after.count, fun i h at_i => ?_⟩
    obtain ⟨message, there, carried⟩ := after.carried i h at_i
    refine ⟨message, there, ?_⟩
    rw [carries i h at_i] at carried
    split at carried
    · exact carried
    · rename_i absent
      rw [repeated i h at_i (by simpa using absent)]
      exact carried

/-- A server that takes everything in one piece and answers every call of `m@s` with its own body. -/
def echoServer : ServerEnv where
  memcpy := moved
  grow := fun _ => none
  behind := nul
  objs := fun _ => .zeroed
  copies := fun _ => .zeroed
  stale := fun _ _ => .wild
  alloc := fun _ => false
  sock := fun _ iov => [.count iov.flatten.length]
  table := errCodes
  serviceMap := fun key =>
    if key = text ['m', '@', 's'] then some fun _ input len => [.value (some input) len] else none

theorem echoServer_returns : echoServer.sock.Returns := by
  intro k iov nonempty
  refine ⟨⟨nonempty, Nat.le_refl _, trivial⟩, 1, ?_, iov.length, ?_⟩
  · simpa [sentBy, echoServer] using nonempty
  · simp [sentBy, echoServer]

theorem echoServer_lossless : echoServer.sock.Lossless := by
  intro k iov j more
  cases j with
  | zero => simp [sentBy] at more
  | succ j => simp [sentBy, echoServer]

end OpenRpc
