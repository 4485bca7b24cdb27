import OpenRpc.Client
import OpenRpc.ReadRuns

/-! # Streams of requests and of responses

The two directions of the protocol as framings, and what follows for runs of the read callbacks:
however a stream is cut into short reads, what has arrived whole has been handed out once and in
order, as long as every read leaves the stream unharmed.
-/

namespace OpenRpc

open Memory Decimal

/-- A request as its caller means it. -/
structure Call where
  method : List Byte
  service : List Byte
  seq : Int
  body : List Byte
  names : Names method service
  keyFits : (method ++ atSign :: service).length ≤ 254
  seqFits : InInt32 seq
  fits : body.length ≤ INT_MAX

/-- The bytes `rpc_request_format` queues for a call on some idle connection. -/
def Call.WrittenAs (call : Call) (bytes : List Byte) : Prop :=
  ∃ (alloc : Nat → Bool) (c c' : RpcConn RpcResponse) (request : RpcRequest), c.Idle ∧
    request.methodName.read c.rbuf = some call.method ∧
    request.serviceName.read c.rbuf = some call.service ∧
    request.seq = call.seq ∧ request.inputLen = call.body.length ∧
    request.input.bytes c.rbuf request.inputLen = call.body ∧
    rpcRequestFormat alloc request c = some c' ∧ bytes = c'.queued.flatten

def Call.handed (env : ServerEnv) (call : Call) : Handed :=
  ⟨call.method, call.service, call.seq, call.body, call.body.length,
    (env.serviceMap (call.method ++ atSign :: call.service)).isSome⟩

theorem lineText_append {label content : List Byte} (plain : newline ∉ label)
    (one : newline ∉ content) (long : 2 ≤ (label ++ content).length) :
    LineText (label ++ content) where
  one := by
    rw [List.mem_append, not_or]
    exact ⟨plain, one⟩
  ne := by
    intro empty
    rw [empty] at long
    simp at long
  notCarriage := by
    intro single
    rw [single] at long
    simp at long

theorem intText_one_line (v : Int) : newline ∉ intText v :=
  intText_avoids (by decide) (by decide)

theorem seqLine (seq : Int) : LineText (seqLabel ++ intText seq) :=
  lineText_append (by decide) (intText_one_line seq)
    (by have label : seqLabel.length = 4 := by decide
        rw [List.length_append]
        omega)

theorem bodyLenLine (len : Int) : LineText (bodyLenLabel ++ intText len) :=
  lineText_append (by decide) (intText_one_line len)
    (by have label : bodyLenLabel.length = 9 := by decide
        rw [List.length_append]
        omega)

theorem wordsLine {w₁ w₂ w₃ : List Byte} (words : Words w₁ w₂ w₃) : LineText (wordsText w₁ w₂ w₃) where
  one := wordsText_one_line words
  ne := by simp [wordsText]
  notCarriage := by
    intro single
    have length := congrArg List.length single
    simp only [wordsText, List.length_append, List.length_cons, List.length_nil] at length
    omega

theorem requestHead_lines (method service : List Byte) (seq : Int) (len : Nat) :
    headText (requestText method service) (seqLabel ++ intText seq) (bodyLenLabel ++ intText len) =
      requestHead method service seq len := by
  simp [headText, requestHead, restText]

theorem responseHead_lines (code : Int) (phrase : List Byte) (seq : Int) (len : Nat) :
    headText (statusText code phrase) (seqLabel ++ intText seq) (bodyLenLabel ++ intText len) =
      responseHead code phrase seq len := by
  simp [headText, responseHead, restText]

theorem answer_idle {env : ServerEnv} (returns : env.sock.Returns) (replies : List Reply)
    {c : RpcConn RpcRequest} (idle : c.Idle) :
    ∃ c', answer env replies c = .ok c' ∧ c'.Idle ∧ c.SameReadSide c' := by
  induction replies generalizing c with
  | nil => exact ⟨c, rfl, idle, .refl c⟩
  | cons reply rest ih =>
      obtain ⟨c₁, left, message, sent, -, idle₁, same₁, -⟩ :=
        reply.send_idle env.alloc returns env.table idle
      obtain ⟨c₂, answered, idle₂, same₂⟩ := ih idle₁
      exact ⟨c₂, by simp only [answer, sent, answered], idle₂, same₁.trans same₂⟩

theorem dispatch_read {env : ServerEnv} (returns : env.sock.Returns) {s : ServerReader}
    (idle : s.conn.Idle) (thread : s.conn.thread.isSome) {req : RpcRequest}
    {method service key : List Byte} (methodName : req.methodName.read s.conn.rbuf = some method)
    (serviceName : req.serviceName.read s.conn.rbuf = some service)
    (keyed : serviceKey method service = some key) :
    ∃ s', dispatch env s req = .ok (true, s') ∧
      s'.log = s.log ++ [⟨method, service, req.seq, req.input.bytes s.conn.rbuf req.inputLen,
        req.inputLen, (env.serviceMap key).isSome⟩] ∧
      s.conn.SameReadSide s'.conn ∧ s'.conn.Idle := by
  obtain ⟨th, running⟩ := Option.isSome_iff_exists.mp thread
  let input := req.input.bytes s.conn.rbuf req.inputLen
  have served : ∃ c replies, serve env s key req.seq input req.inputLen =
      (c, replies, (env.serviceMap key).isSome) ∧ c.Idle ∧ s.conn.SameReadSide c := by
    rcases serve_cases env s key req.seq input req.inputLen with ⟨cb, found, served⟩ | ⟨absent, served⟩
    · exact ⟨{ s.conn with currSeq := req.seq }, _, by rw [served, found]; rfl,
        ⟨idle.vector, idle.empty, idle.room⟩, ⟨rfl, rfl, rfl, rfl, rfl, rfl⟩⟩
    · exact ⟨s.conn, _, by rw [served, absent]; rfl, idle, .refl _⟩
  obtain ⟨c, replies, served, idle₁, same₁⟩ := served
  obtain ⟨c', answered, idle₂, same₂⟩ := answer_idle returns replies idle₁
  let handed : Handed := ⟨method, service, req.seq, input, req.inputLen, (env.serviceMap key).isSome⟩
  refine ⟨{ s with conn := c', log := s.log ++ [handed] }, ?_, rfl, same₁.trans same₂, idle₂⟩
  unfold input at served
  simp only [dispatch, running, methodName, serviceName, keyed, served, answered, handed, input]

/-- A call whose head and body a request object shows is handed out as itself. -/
theorem dispatch_call {env : ServerEnv} (returns : env.sock.Returns) {s : ServerReader}
    (idle : s.conn.Idle) (thread : s.conn.thread.isSome) (call : Call) {req : RpcRequest}
    (head : req.HeadIs s.conn.rbuf call.method call.service call.seq call.body.length)
    (body : req.input.bytes s.conn.rbuf req.inputLen = call.body) :
    ∃ s', dispatch env s req = .ok (true, s') ∧ s'.log = s.log ++ [call.handed env] ∧
      s.conn.SameReadSide s'.conn ∧ s'.conn.Idle := by
  have key : serviceKey call.method call.service = some (call.method ++ atSign :: call.service) := by
    have fits := call.keyFits
    rw [serviceKey, if_pos (by omega), List.take_of_length_le fits]
  obtain ⟨s', delivered, log, same, idle'⟩ :=
    dispatch_read returns idle thread head.methodName head.serviceName key
  rw [body, head.seq, head.inputLen] at log
  exact ⟨s', delivered, log, same, idle'⟩

/-- The stream of calls as `cb_req_read` sees it. The upper half of the length field is whatever the
    object held before, so the objects have to start with it zero. -/
def callFraming (env : ServerEnv) (returns : env.sock.Returns) : Framing (reqSide env) Call where
  line₁ call := requestText call.method call.service
  line₂ call := seqLabel ++ intText call.seq
  line₃ call := bodyLenLabel ++ intText call.body.length
  body call := call.body
  spent call := requestHeadSpent call.method call.service call.seq call.body.length
  Clean k := (env.objs k).inputLen < 4294967296
  Kept call req := req.methodName = .heap call.method ∧ req.serviceName = .heap call.service ∧
    req.rpcVersion = .heap RPC_VERSION ∧ req.seq = call.seq ∧ req.inputLen = call.body.length
  Sees call mem req := req.HeadIs mem call.method call.service call.seq call.body.length ∧
    req.input.bytes mem req.inputLen = call.body
  Ready _ s := s.conn.Idle ∧ s.conn.thread.isSome
  record call log := log ++ [call.handed env]
  lines call := ⟨wordsLine call.names.words, seqLine call.seq, bodyLenLine call.body.length⟩
  spent_length call := by rw [requestHead_lines, requestHeadSpent_length]
  whole := by
    intro k clean call pre following post
    obtain ⟨req, parsed, head, input⟩ := rpcRequestParse_whole call.names call.seqFits call.fits clean
      (env.stale k) pre following post
    refine ⟨req, by rw [requestHead_lines]; exact parsed, ?_, ?_⟩
    · simpa only [List.append_assoc] using head (call.body ++ (following ++ post))
    · rw [input, (head []).inputLen, List.append_assoc _ following post]
      exact slice_append _ call.body (following ++ post)
  part := by
    intro k clean call pre piece missing post cut more
    have short : piece.length < call.body.length := by
      have positive := List.length_pos_of_ne_nil more
      rw [cut, List.length_append]
      omega
    obtain ⟨req, parsed, head⟩ := rpcRequestParse_part call.names call.seqFits call.fits clean
      (env.stale k) short pre post
    have here := head (piece ++ post)
    rw [← List.append_assoc] at here
    refine ⟨req, { env.copies k with
                     serviceName := .heap call.service, methodName := .heap call.method
                     rpcVersion := .heap RPC_VERSION, inputLen := call.body.length, seq := call.seq },
      by rw [requestHead_lines]; exact parsed, ?_, rfl, rfl, rfl, rfl, rfl⟩
    simp only [reqSide, rpcRequestCopyHead, here.methodName, here.serviceName, here.rpcVersion,
      here.inputLen, here.seq]
  resume := by
    rintro call kept ⟨method, service, version, seq, len⟩
    refine ⟨len, fun pre post => ⟨⟨?_, ?_, ?_, seq, len⟩, ?_⟩⟩
    · simp only [reqSide, method, CharPtr.read]
    · simp only [reqSide, service, CharPtr.read]
    · simp only [reqSide, version, CharPtr.read]
    · simp only [reqSide, len]
      exact slice_append pre call.body post
  deliver := by
    rintro call rest s req ⟨idle, thread⟩ ⟨head, body⟩
    obtain ⟨s', delivered, log, same, idle'⟩ := dispatch_call returns idle thread call head body
    exact ⟨s', delivered, log, same, idle', by rw [same.thread]; exact thread⟩
  ready := by
    rintro calls s s' ⟨idle, thread⟩ same thread' -
    exact ⟨same.idle idle, by rw [thread']; exact thread⟩

/-- A response as the server means it; its phrase comes from the table of names. -/
structure Answer where
  code : Int
  seq : Int
  body : List Byte
  codeFits : InInt32 code
  seqFits : InInt32 seq
  fits : body.length ≤ INT_MAX

/-- The bytes `rpc_send_response` queues for an answer on some idle connection. -/
def Answer.WrittenAs (table : List ErrCode) (answer : Answer) (bytes : List Byte) : Prop :=
  ∃ (alloc : Nat → Bool) (c c' : RpcConn RpcRequest) (output : Option (List Byte)), c.Idle ∧
    c.currSeq = answer.seq ∧ (output.getD []).take answer.body.length = answer.body ∧
    queueResponse alloc table c answer.code output answer.body.length = some c' ∧
    bytes = c'.queued.flatten

/-- An answer as it is handed to the callback of the request it is for. -/
def Answer.delivered (m : Answer × RpcRequest) : Delivered :=
  ⟨m.1.code, m.1.seq, m.1.body, m.1.body.length, m.2⟩

/-- The stream of answers as `cb_rsp_read` sees it, when the session pool has a request with the
    right number for each. -/
def answerFraming (env : ClientEnv) (table : List ErrCode)
    (names : ∀ e ∈ table, PhraseWord e.name) : Framing (rspSide env) (Answer × RpcRequest) where
  line₁ m := statusText m.1.code (phraseText table m.1.code)
  line₂ m := seqLabel ++ intText m.1.seq
  line₃ m := bodyLenLabel ++ intText m.1.body.length
  body m := m.1.body
  spent m := responseHeadSpent m.1.code (phraseText table m.1.code) m.1.seq m.1.body.length
  Clean k := (env.objs k).outputLen < 4294967296
  Kept m rsp := rsp.code = m.1.code ∧ rsp.seq = m.1.seq ∧ rsp.outputLen = m.1.body.length
  Sees m mem rsp := rsp.code = m.1.code ∧ rsp.seq = m.1.seq ∧ rsp.outputLen = m.1.body.length ∧
    rsp.output.bytes mem rsp.outputLen = m.1.body
  Ready ms s := s.conn.thread.isSome ∧ ∀ (i : Nat) (m : Answer × RpcRequest), ms[i]? = some m →
    env.pools (s.log.length + i) m.1.seq = some m.2 ∧ m.2.seq = m.1.seq
  record m log := log ++ [Answer.delivered m]
  lines m := ⟨wordsLine (statusText_words (phraseText_word names m.1.code) m.1.code),
    seqLine m.1.seq, bodyLenLine m.1.body.length⟩
  spent_length m := by rw [responseHead_lines, responseHeadSpent_length]
  whole := by
    intro k clean m pre following post
    obtain ⟨rsp, parsed, head, output⟩ := rpcResponseParse_whole (phraseText_word names m.1.code)
      m.1.codeFits m.1.seqFits m.1.fits clean (env.stale k) pre following post
    have at_head := head []
    refine ⟨rsp, ?_, at_head.code, at_head.seq, at_head.outputLen, ?_⟩
    · rw [responseHead_lines]
      exact parsed
    · rw [output, at_head.outputLen, List.append_assoc _ following post]
      exact slice_append _ m.1.body (following ++ post)
  part := by
    intro k clean m pre piece missing post cut more
    have short : piece.length < m.1.body.length := by
      have positive := List.length_pos_of_ne_nil more
      rw [cut, List.length_append]
      omega
    obtain ⟨rsp, parsed, head⟩ := rpcResponseParse_part (phraseText_word names m.1.code)
      m.1.codeFits m.1.seqFits m.1.fits clean (env.stale k) short pre post
    have here := head (piece ++ post)
    rw [← List.append_assoc] at here
    refine ⟨rsp, { env.copies k with
                     code := rsp.code, seq := rsp.seq, data := rsp.data, outputLen := rsp.outputLen
                     phrase := .heap (phraseText table m.1.code) }, by
        rw [responseHead_lines]
        exact parsed, ?_,
      here.code, here.seq, here.outputLen⟩
    simp only [rspSide, rpcResponseCopyHead, here.phrase, Option.map_some]
  resume := by
    rintro m kept ⟨code, seq, len⟩
    refine ⟨len, fun pre post => ⟨code, seq, len, ?_⟩⟩
    simp only [rspSide, len]
    exact slice_append pre m.1.body post
  deliver := by
    rintro m rest s rsp ⟨thread, pools⟩ ⟨code, seq, len, body⟩
    obtain ⟨th, running⟩ := Option.isSome_iff_exists.mp thread
    obtain ⟨found, same⟩ := pools 0 m rfl
    refine ⟨{ s with log := s.log ++ [Answer.delivered m] }, ?_, rfl,
      .refl _, thread, fun i m' at_i => ?_⟩
    · rw [Nat.add_zero] at found
      rw [len] at body
      simp only [rspSide, deliverResponse, running, code, seq, len, found, same, body, ne_eq,
        not_true_eq_false, if_false, Answer.delivered]
    · have later := pools (i + 1) m' (by simpa using at_i)
      rwa [List.length_append, List.length_singleton, Nat.add_assoc, Nat.add_comm 1 i]
  ready := by
    rintro ms s s' ⟨thread, pools⟩ same thread' log
    exact ⟨by rw [thread']; exact thread, by rw [log]; exact pools⟩

theorem Call.written_bytes {env : ServerEnv} (returns : env.sock.Returns) {call : Call}
    {bytes : List Byte} (written : call.WrittenAs bytes) :
    bytes = (callFraming env returns).head call ++ (callFraming env returns).body call := by
  obtain ⟨alloc, c, c', request, idle, method, service, seq, len, body, formatted, rfl⟩ := written
  obtain ⟨c'', formatted', queued⟩ := rpcRequestFormat_idle alloc idle method service
    (len ▸ call.fits)
  rw [formatted] at formatted'
  cases formatted'
  rw [queued, body, seq, len, ← requestHead_lines]
  rfl

theorem Answer.written_bytes {env : ClientEnv} {table : List ErrCode}
    (names : ∀ e ∈ table, PhraseWord e.name) {m : Answer × RpcRequest} {bytes : List Byte}
    (written : m.1.WrittenAs table bytes) :
    bytes = (answerFraming env table names).head m ++ (answerFraming env table names).body m := by
  obtain ⟨alloc, c, c', output, idle, seq, body, queued, rfl⟩ := written
  obtain ⟨c'', queued', entries, -⟩ :=
    queueResponse_idle alloc table idle m.1.code output m.1.body.length
  rw [queued] at queued'
  cases queued'
  rw [entries, responseEntries_flatten _ _ _ _ m.1.fits, body, seq, ← responseHead_lines]
  rfl

theorem messages_written {α σ μ : Type} {side : ReadSide α σ} (F : Framing side μ)
    {written : μ → List Byte → Prop} (bytes : ∀ m text, written m text → text = F.head m ++ F.body m)
    {ms : List μ} {texts : List (List Byte)} (all : List.Forall₂ written ms texts) :
    texts = ms.map F.message := by
  induction all with
  | nil => rfl
  | cons first _ ih => rw [List.map_cons, ← ih, bytes _ _ first, Framing.message]

theorem stream_written {α σ μ : Type} {side : ReadSide α σ} (F : Framing side μ)
    {written : μ → List Byte → Prop} (bytes : ∀ m text, written m text → text = F.head m ++ F.body m)
    {ms : List μ} {texts : List (List Byte)} (all : List.Forall₂ written ms texts) :
    texts.flatten = F.stream ms := by
  rw [messages_written F bytes all, F.stream_messages]

theorem foldl_snoc {β γ : Type} (f : β → γ) (ms : List β) (log : List γ) :
    ms.foldl (fun log m => log ++ [f m]) log = log ++ ms.map f := by
  induction ms generalizing log with
  | nil => simp
  | cons m ms ih => rw [List.foldl_cons, ih, List.map_cons, List.append_assoc, List.singleton_append]

theorem between_start {α σ μ : Type} {side : ReadSide α σ} (F : Framing side μ) {s : Reader α σ}
    (buffer : s.conn.rbuf.length = s.conn.rsize) (start : s.conn.rcurr = some 0)
    (empty : s.conn.rbytes = 0) (none_kept : s.conn.unprocessData = none) (ms : List μ) :
    F.Between ms (F.stream ms) s := by
  have holds : s.conn.Holds [] [] s.conn.rbuf := ⟨rfl, start, empty, buffer.symm⟩
  refine .head holds none_kept rfl ?_
  intro m rest _
  have length := F.head_length m
  simp only [List.length_nil]
  omega

/-- What every run of a read callback needs to hand out a stream, however it is cut. -/
structure Survives {α σ μ : Type} {side : ReadSide α σ} (F : Framing side μ) (env : ReadEnv)
    (ms : List μ) (start : Reader α σ) (pieces : List (List Byte)) : Prop where
  short : EveryRead side env ShortRead 0 start pieces
  unharmed : EveryRead side env (Unharmed F env ms) 0 start pieces

theorem endsFirstLine_messages {α σ μ : Type} {side : ReadSide α σ} {F : Framing side μ} {ms : List μ}
    {n : Nat} (ends : EndsFirstLineOf (ms.map F.message) n) : F.EndsFirstLine ms n := by
  obtain ⟨before, line, tail, rest, split, one, count⟩ := ends
  obtain ⟨earlier, later, rfl, rfl, parts⟩ := List.map_eq_append_iff.mp split
  obtain ⟨m, others, rfl, text, rfl⟩ := List.map_eq_cons_iff.mp parts
  obtain ⟨tail', lines⟩ := F.message_lines m
  obtain ⟨same, -⟩ := newline_split (F.lines m).first.one one (lines.symm.trans text)
  exact ⟨earlier, m, others, rfl, by rw [count, ← same, ← F.stream_messages]⟩

theorem endsFirstLine_inside {α σ μ : Type} {side : ReadSide α σ} {F : Framing side μ} {ms : List μ}
    {n : Nat} (ends : F.EndsFirstLine ms n) : n < (F.stream ms).length := by
  obtain ⟨before, m, rest, rfl, count⟩ := ends
  have length := F.head_length m
  rw [count, F.stream_append, F.stream_cons]
  simp only [List.length_append]
  omega

theorem endsFirstLine_written {env : ServerEnv} (returns : env.sock.Returns) {calls : List Call}
    {texts : List (List Byte)} (written : List.Forall₂ Call.WrittenAs calls texts) {n : Nat}
    (ends : EndsFirstLineOf texts n) : n < texts.flatten.length := by
  have messages : texts = calls.map (callFraming env returns).message :=
    messages_written _ (fun _ _ => Call.written_bytes returns) written
  rw [messages] at ends ⊢
  rw [← Framing.stream_messages]
  exact endsFirstLine_inside (endsFirstLine_messages ends)

theorem harmless_of_short {α σ μ : Type} {side : ReadSide α σ} (F : Framing side μ) {env : ReadEnv}
    (clean : ∀ k, F.Clean k) (ms : List μ) {missing : List Byte} (pieces : List (List Byte)) :
    ∀ (handed todo : List μ) (n : Nat) (s : Reader α σ), ms = handed ++ todo →
      F.Stands todo (pieces.flatten ++ missing) s → F.Ready todo s →
      n + (pieces.flatten ++ missing).length = (F.stream ms).length →
      EveryRead side env ShortRead n s pieces → EveryRead side env (Unharmed F env ms) n s pieces →
      EveryRun side env (HarmlessRun env (ms.map F.message)) n s
        (pieces.map fun piece => [.data piece]) := by
  induction pieces with
  | nil =>
      intro handed todo n s _ _ _ _ _ _
      trivial
  | cons piece pieces ih =>
      rintro handed todo n s split stands ready count ⟨⟨some_bytes, short⟩, shorts⟩ ⟨harmless, unharmed⟩
      obtain ⟨pre, unread, post, holds⟩ : ∃ pre unread post, s.conn.Holds pre unread post := by
        cases stands with | head holds | body holds => exact ⟨_, _, _, holds⟩
      have brings : received [.data piece] = piece := by simp [received, ReadResult.bytes]
      rw [List.flatten_cons, List.append_assoc] at stands count
      refine ⟨⟨?_, by simp [Successful], ?_⟩, fun s' ran => ?_⟩
      · exact ShortAnswer.harmless ⟨rfl, short⟩ holds harmless.1 fun ends =>
          harmless.2 (endsFirstLine_messages ends)
      · obtain ⟨c, read, -⟩ := readFromConn_short env.grow holds harmless.1 short
        exact ⟨true, c, read⟩
      · obtain ⟨more, left, s'', split', ran', -, between, ready'⟩ :=
          stands_read F clean stands ready short harmless.1 (unharmed_quiet F split count harmless)
        cases ran.symm.trans ran'
        rw [brings]
        exact ih (handed ++ more) left (n + piece.length) s'
          (by rw [split, split', List.append_assoc]) between.stands ready'
          (by rw [List.length_append] at count; omega) (shorts s' ran) (unharmed s' ran)

theorem cbReads_any_cut {α γ μ : Type} {side : ReadSide α (List γ)} (F : Framing side μ)
    {env : ReadEnv} (clean : ∀ k, F.Clean k) {record : μ → γ}
    (records : F.record = fun m log => log ++ [record m]) {ms : List μ}
    {texts pieces : List (List Byte)} {missing : List Byte} {start : Reader α (List γ)}
    (written : texts.flatten = F.stream ms) (cut : pieces.flatten ++ missing = texts.flatten)
    (buffer : start.conn.rbuf.length = start.conn.rsize) (first : start.conn.rcurr = some 0)
    (empty : start.conn.rbytes = 0) (none_kept : start.conn.unprocessData = none)
    (log : start.log = []) (ready : F.Ready ms start) (survives : Survives F env ms start pieces) :
    ∃ s, cbReads side env (pieces.map fun piece => [.data piece]) start = .ok s ∧
      s.log = (F.arrived ms pieces.flatten.length).map record ∧
      (missing = [] → s.log = ms.map record) := by
  have stands := (between_start F buffer first empty none_kept ms).stands
  rw [← written, ← cut] at stands
  obtain ⟨s, ran, handed⟩ := cbReads_framing F clean ms pieces [] ms 0 start rfl stands ready
    (by rw [Nat.zero_add, cut, written]) survives.short survives.unharmed
  have logged := handed [] log
  rw [Nat.zero_add, records, foldl_snoc, List.nil_append] at logged
  refine ⟨s, ran, logged, ?_⟩
  rintro rfl
  rw [List.append_nil] at cut
  rw [logged, cut, written, F.arrived_all]

/-- Framing does not depend on how the stream is cut, in either direction: after any pieces the
    messages that have arrived whole have been handed out, each once and in order, and with the last
    piece all of them. -/
theorem cbRead_any_cut (pieces : List (List Byte)) (missing : List Byte) (fd l th : Nat) :
    (∀ (env : ServerEnv) (returns : env.sock.Returns) (calls : List Call) (texts : List (List Byte))
      (conn : RpcConn RpcRequest),
      (∀ k, (env.objs k).inputLen < 4294967296) →
      List.Forall₂ Call.WrittenAs calls texts → pieces.flatten ++ missing = texts.flatten →
      conn.rbuf.length = conn.rsize → conn.iov.length = conn.iovsize → 5 ≤ conn.iovsize →
      Survives (callFraming env returns) env.toReadEnv calls (serverConn conn fd l th) pieces →
      ∃ s, cbReads (reqSide env) env.toReadEnv (pieces.map fun piece => [.data piece])
          (serverConn conn fd l th) = .ok s ∧
        s.log = ((callFraming env returns).arrived calls pieces.flatten.length).map
          (Call.handed env) ∧
        (missing = [] → s.log = calls.map (Call.handed env))) ∧
    (∀ (env : ClientEnv) (table : List ErrCode) (names : ∀ e ∈ table, PhraseWord e.name)
      (answers : List (Answer × RpcRequest)) (texts : List (List Byte)) (conn : RpcConn RpcResponse),
      (∀ k, (env.objs k).outputLen < 4294967296) →
      (∀ (i : Nat) (m : Answer × RpcRequest), answers[i]? = some m →
        env.pools i m.1.seq = some m.2 ∧ m.2.seq = m.1.seq) →
      List.Forall₂ (fun m => Answer.WrittenAs table m.1) answers texts →
      pieces.flatten ++ missing = texts.flatten →
      conn.rbuf.length = conn.rsize →
      Survives (answerFraming env table names) env.toReadEnv answers (clientConn conn fd l th)
        pieces →
      ∃ s, cbReads (rspSide env) env.toReadEnv (pieces.map fun piece => [.data piece])
          (clientConn conn fd l th) = .ok s ∧
        s.log = ((answerFraming env table names).arrived answers pieces.flatten.length).map
          Answer.delivered ∧
        (missing = [] → s.log = answers.map Answer.delivered)) := by
  constructor
  · intro env returns calls texts conn clean written cut buffer vector room survives
    exact cbReads_any_cut (callFraming env returns) clean rfl
      (stream_written _ (fun _ _ => Call.written_bytes returns) written) cut buffer rfl rfl rfl rfl
      ⟨⟨vector, rfl, room⟩, rfl⟩ survives
  · intro env table names answers texts conn clean pools written cut buffer survives
    refine cbReads_any_cut (answerFraming env table names) clean rfl
      (stream_written _ (fun _ _ => Answer.written_bytes names) written) cut buffer rfl rfl rfl rfl
      ⟨rfl, fun i m at_i => ?_⟩ survives
    simpa [clientConn] using pools i m at_i

/-- What a caller with plain names and a plain body writes. -/
def Call.text (call : Call) : List Byte :=
  requestHead call.method call.service call.seq call.body.length ++ call.body

theorem Call.written (call : Call) : call.WrittenAs call.text := by
  let c : RpcConn RpcResponse := rpcConnNewInner (allocConn [] (List.replicate 5 [])) 0 0
  let request : RpcRequest :=
    { RpcRequest.zeroed with methodName := .heap call.method, serviceName := .heap call.service
                             seq := call.seq, input := .heap call.body
                             inputLen := call.body.length }
  have idle : c.Idle := rpcConnNewInner_idle rfl (Nat.le_refl 5) 0 0
  have fits : request.inputLen ≤ INT_MAX := call.fits
  obtain ⟨c', formatted, queued⟩ := rpcRequestFormat_idle (fun _ => false) idle rfl rfl fits
  refine ⟨fun _ => false, c, c', request, idle, rfl, rfl, rfl, rfl, ?_, formatted, ?_⟩
  · simp [request, CharPtr.bytes]
  · rw [queued]
    simp [request, CharPtr.bytes, Call.text]

/-- What a server writes for an answer whose body it holds. -/
def Answer.text (table : List ErrCode) (answer : Answer) : List Byte :=
  (responseEntries table answer.code answer.seq (some answer.body) answer.body.length).flatten

theorem Answer.written (table : List ErrCode) (answer : Answer) :
    answer.WrittenAs table (answer.text table) := by
  let c : RpcConn RpcRequest :=
    { rpcConnNewInner (allocConn [] (List.replicate 5 [])) 0 0 with currSeq := answer.seq }
  have idle : c.Idle := ⟨rfl, rfl, Nat.le_refl 5⟩
  obtain ⟨c', stored, entries, -⟩ :=
    queueResponse_idle (fun _ => false) table idle answer.code (some answer.body) answer.body.length
  refine ⟨fun _ => false, c, c', some answer.body, idle, rfl, ?_, stored, by rw [entries]; rfl⟩
  rw [Option.getD_some, List.take_length]

/-- Calling `m@s` with number 4 and the body 7. -/
def smallCall : Call where
  method := text ['m']
  service := text ['s']
  seq := 4
  body := [7]
  names := ⟨by decide +kernel, by decide +kernel, by decide +kernel⟩
  keyFits := by decide
  seqFits := by decide
  fits := by decide

def smallText : List Byte :=
  requestHead smallCall.method smallCall.service smallCall.seq smallCall.body.length ++ smallCall.body

/-- A connection whose fresh buffer is full of newlines. -/
def newlineConn : RpcConn RpcRequest :=
  allocConn (List.replicate BUFFER_SIZE newline) (List.replicate 5 [])

/-- Not found, for request 4. -/
def smallAnswer : Answer where
  code := 404
  seq := 4
  body := [110]
  codeFits := by decide
  seqFits := by decide
  fits := by decide

def smallPool : RpcRequest := { RpcRequest.zeroed with seq := 4, data := 1 }

/-- A client whose session pool holds the one request. -/
def waitingClient : ClientEnv where
  memcpy := moved
  grow := fun _ => none
  behind := nul
  objs := fun _ => .zeroed
  copies := fun _ => .zeroed
  stale := fun _ _ => .wild
  pools := fun _ _ => some smallPool

/-- The request of a call with this number. -/
def calledWith (seq : Int) : RpcRequest := { RpcRequest.zeroed with seq := seq }

/-- Every response finds a request under its seq. -/
def openCalls : ClientEnv :=
  { waitingClient with pools := fun _ seq => some (calledWith seq) }

/-- `smallCall` with so many bytes in its body. -/
def callOf (n : Nat) (fits : n ≤ INT_MAX) : Call :=
  { smallCall with
    body := List.replicate n 7
    fits := by rwa [List.length_replicate] }

/-- A server whose `realloc` always succeeds. -/
def growingServer : ServerEnv :=
  { echoServer with
    grow := fun size => if size % 2 = 0 then some (List.replicate (size / 2) 0) else none }

theorem growingServer_grants (size : Nat) : (growingServer.grow (size * 2)).isSome := by
  simp [growingServer]

theorem growingServer_returns : growingServer.sock.Returns := echoServer_returns

theorem growingServer_grows : GrowsRight growingServer.grow := by
  intro size added granted
  simp only [growingServer] at granted
  split at granted
  · cases granted
    rw [List.length_replicate]
    omega
  · cases granted

/-- The small call with the number 5 and a body of two bytes. -/
def nextCall : Call :=
  { smallCall with seq := 5, body := [8, 9], seqFits := by decide, fits := by decide }

def nextAnswer : Answer where
  code := RpcCode.ok.num
  seq := 5
  body := [65, 66]
  codeFits := RpcCode.num_fits .ok
  seqFits := nextCall.seqFits
  fits := nextCall.fits

/-- The bytes cut into pieces of these lengths, and the rest. -/
def cutAt : List Nat → List Byte → List (List Byte)
  | [], bytes => [bytes]
  | n :: ns, bytes => bytes.take n :: cutAt ns (bytes.drop n)

theorem cutAt_flatten (ns : List Nat) (bytes : List Byte) : (cutAt ns bytes).flatten = bytes := by
  induction ns generalizing bytes with
  | nil => simp [cutAt]
  | cons n ns ih => rw [cutAt, List.flatten_cons, ih, List.take_append_drop]

section Calm

variable {α σ μ : Type} {side : ReadSide α σ} {env : ReadEnv}

/-- A short read with no newline in the block behind what it brings. -/
def CalmRead (s : Reader α σ) (piece : List Byte) : Prop :=
  piece ≠ [] ∧ piece.length < s.conn.rsize - s.conn.rbytes ∧
    s.conn.rbuf[s.conn.rbytes + piece.length]? ≠ some newline

instance (s : Reader α σ) (piece : List Byte) : Decidable (CalmRead s piece) :=
  inferInstanceAs (Decidable (_ ∧ _ ∧ _))

/-- Every read finds its condition where the run of the reads before it ends with it. -/
theorem everyRead_of_prefixes {P : Nat → Reader α σ → List Byte → Prop} (pieces : List (List Byte))
    (n : Nat) (s : Reader α σ)
    (each : ∀ i piece, pieces[i]? = some piece → ∀ s',
      cbReads side env ((pieces.take i).map fun piece => [.data piece]) s = .ok s' →
      P (n + (pieces.take i).flatten.length) s' piece) : EveryRead side env P n s pieces := by
  induction pieces generalizing n s with
  | nil => trivial
  | cons piece pieces ih =>
      refine ⟨each 0 piece rfl s rfl, fun s' ran => ih _ s' fun i piece' at_i s'' rest => ?_⟩
      have here := each (i + 1) piece' at_i s'' (by
        simp only [List.take_succ_cons, List.map_cons, cbReads, ran]
        exact rest)
      rwa [List.take_succ_cons, List.flatten_cons, List.length_append, ← Nat.add_assoc] at here

theorem survives_of_calm {F : Framing side μ} {ms : List μ} {start : Reader α σ}
    {pieces : List (List Byte)} (compacts : ∀ c : RpcConn α, Compacts env.memcpy c)
    (calm : ∀ i < pieces.length, (cbReads side env
      ((pieces.take i).map fun piece => [.data piece]) start).toOption.map
        (fun s => decide (CalmRead s (pieces.getD i []))) = some true) :
    Survives F env ms start pieces := by
  have each : ∀ i piece, pieces[i]? = some piece → ∀ s,
      cbReads side env ((pieces.take i).map fun piece => [.data piece]) start = .ok s →
      CalmRead s piece := by
    intro i piece at_i s ran
    obtain ⟨s', ran', here⟩ := returned_of_computed (calm i (List.getElem?_eq_some_iff.mp at_i).1)
    cases ran.symm.trans ran'
    rw [List.getD_eq_getElem?_getD, at_i, Option.getD_some] at here
    exact of_decide_eq_true here
  constructor
  · refine everyRead_of_prefixes pieces 0 start fun i piece at_i s ran => ?_
    have calm := each i piece at_i s ran
    exact ⟨calm.1, calm.2.1⟩
  · refine everyRead_of_prefixes pieces 0 start fun i piece at_i s ran => ?_
    exact ⟨compacts _, fun _ => (each i piece at_i s ran).2.2⟩

end Calm

/-- A new connection whose buffer is all zero. -/
def nulConn : RpcConn RpcRequest :=
  allocConn (List.replicate BUFFER_SIZE nul) (List.replicate 5 [])

/-- Two messages each way: the first piece ends with a first line, the second inside the other head,
    which is moved to the start of the block, and the third inside its body. -/
theorem cbRead_any_cut_small :
    (∃ s, cbReads (reqSide echoServer) echoServer.toReadEnv
        ((cutAt [17, 29, 26] [smallText, nextCall.text].flatten).map fun piece => [.data piece])
        (serverConn nulConn 3 0 0) = .ok s ∧
      s.log = [smallCall.handed echoServer, nextCall.handed echoServer]) ∧
    (∃ s, cbReads (rspSide openCalls) openCalls.toReadEnv
        ((cutAt [21, 27, 26] [smallAnswer.text errCodes, nextAnswer.text errCodes].flatten).map
          fun piece => [.data piece])
        (clientConn (allocConn (List.replicate BUFFER_SIZE nul) []) 3 0 0) = .ok s ∧
      s.log = [Answer.delivered (smallAnswer, calledWith 4), Answer.delivered (nextAnswer, calledWith 5)]) := by
  have compacts : ∀ {α : Type} (c : RpcConn α), Compacts moved c := fun _ _ _ _ _ => rfl
  have zeroed : 0 < 4294967296 := by decide
  constructor
  · obtain ⟨s, ran, -, all⟩ := (cbRead_any_cut
        (cutAt [17, 29, 26] [smallText, nextCall.text].flatten) [] 3 0 0).1 echoServer
      echoServer_returns [smallCall, nextCall] [smallText, nextCall.text] nulConn (fun _ => zeroed)
      (.cons smallCall.written (.cons nextCall.written .nil)) (by rw [cutAt_flatten, List.append_nil])
      (by simp [nulConn, allocConn]) rfl (by decide)
      (survives_of_calm compacts (by decide))
    exact ⟨s, ran, all rfl⟩
  · obtain ⟨s, ran, -, all⟩ := (cbRead_any_cut
        (cutAt [21, 27, 26] [smallAnswer.text errCodes, nextAnswer.text errCodes].flatten) [] 3 0 0).2
      openCalls errCodes errCodes_words [(smallAnswer, calledWith 4), (nextAnswer, calledWith 5)] _
      (allocConn (List.replicate BUFFER_SIZE nul) []) (fun _ => zeroed)
      (by
        intro i m at_i
        rcases List.mem_pair.mp (List.mem_of_getElem? at_i) with rfl | rfl
        · exact ⟨rfl, rfl⟩
        · exact ⟨rfl, rfl⟩)
      (.cons (smallAnswer.written errCodes) (.cons (nextAnswer.written errCodes) .nil))
      (by rw [cutAt_flatten, List.append_nil]) (by simp [allocConn])
      (survives_of_calm compacts (by decide))
    exact ⟨s, ran, all rfl⟩

/-- The first read ends with the request line, and the byte behind it is a newline of old: the head is
    taken to be complete, the line is consumed, and the request is never handed out. -/
theorem cbRead_any_cut_fails :
    let pieces := [smallText.take 17, smallText.drop 17]
    smallCall.WrittenAs smallText ∧ pieces.flatten = smallText ∧
    EveryRead (reqSide echoServer) echoServer.toReadEnv ShortRead 0 (serverConn newlineConn 3 0 0)
      pieces ∧
    ∃ s, cbReads (reqSide echoServer) echoServer.toReadEnv (pieces.map fun piece => [.data piece])
        (serverConn newlineConn 3 0 0) = .ok s ∧ s.log ≠ [smallCall.handed echoServer] := by
  intro pieces
  refine ⟨smallCall.written, by simp [pieces], ⟨⟨by decide, by decide⟩, ?_⟩, ?_⟩
  · intro s ran
    have computed : (cbRead (reqSide echoServer) echoServer.toReadEnv [.data (smallText.take 17)]
        (serverConn newlineConn 3 0 0)).toOption.map
          (fun s => (s.conn.rsize, s.conn.rbytes)) = some (2048, 0) := by decide
    obtain ⟨s', ran', sizes⟩ := returned_of_computed computed
    rw [ran] at ran'
    cases ran'
    obtain ⟨size, bytes⟩ := Prod.mk.inj sizes
    refine ⟨⟨by decide, ?_⟩, fun _ _ => trivial⟩
    rw [size, bytes]
    decide
  · have computed : (cbReads (reqSide echoServer) echoServer.toReadEnv
        (pieces.map fun piece => [.data piece]) (serverConn newlineConn 3 0 0)).toOption.map
          Reader.log = some [] := by decide
    obtain ⟨s, ran, log⟩ := returned_of_computed computed
    exact ⟨s, ran, by rw [log]; simp⟩

end OpenRpc
