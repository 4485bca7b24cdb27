import OpenRpc.Streams

/-! # Rejected requests

`rpc_request_parse` overwrites and moves line by line before it knows whether the message is valid, and
`cb_req_read` returns from a rejection without a close: the next run goes on wherever the window was
left. With a request line that is rejected the window is not moved at all; later it stands behind the
line that did not scan, whatever of the message is still to come. What follows is handed out as it
should be where that line was the last of the message.
-/

namespace OpenRpc

open Memory

/-- The request line of a window gets through: three words, and an `@` in the second. -/
def RequestLineTaken (c : Window) : Prop :=
  ∃ line t₀ t₁ t₂ mem word, lineAt c = some line ∧
    tokenizeCommand line.rbuf c.rcurr 3 = ([t₀, t₁, t₂], mem) ∧
    cstring mem t₁.value = some word ∧ atSign ∈ word

/-- The lines behind a request line, when the last of them is where the parser stops: it does not scan
    as the seq, or as the length, or the empty line behind it is missing. -/
inductive StopsAtEnd : List Byte → Prop where
  | seq {line₂ : List Byte} (one : newline ∉ line₂)
      (fails : scanLabel seqLabel (lineContent line₂) = none) : StopsAtEnd (line₂ ++ [newline])
  | bodyLen {line₂ line₃ : List Byte} {seq : Int} (one₂ : newline ∉ line₂) (one₃ : newline ∉ line₃)
      (scans : scanLabel seqLabel (lineContent line₂) = some seq)
      (fails : scanLabel bodyLenLabel (lineContent line₃) = none) :
      StopsAtEnd (line₂ ++ newline :: (line₃ ++ [newline]))
  | newLine {line₂ line₃ : List Byte} {seq len : Int} (one₂ : newline ∉ line₂) (one₃ : newline ∉ line₃)
      (scans : scanLabel seqLabel (lineContent line₂) = some seq)
      (counts : scanLabel bodyLenLabel (lineContent line₃) = some len) :
      StopsAtEnd (line₂ ++ newline :: (line₃ ++ [newline]))

section Lines

variable {pre rest post : List Byte}

theorem requestLine_taken {line : List Byte} (one : newline ∉ line)
    (taken : RequestLineTaken (.frame pre (line ++ newline :: rest) post)) (new : RpcRequest)
    (stale : Nat → CharPtr) :
    ∃ req pre', requestLine new stale (.frame pre (line ++ newline :: rest) post) =
        (.ok req, .frame pre' rest post) ∧ pre'.length = pre.length + line.length + 1 := by
  obtain ⟨line', t₀, t₁, t₂, mem, word, found, tokens, read, at_sign⟩ := taken
  rw [lineAt_line pre line rest post one] at found
  cases found
  let stop := (bareLine line).length
  have short : stop ≤ line.length + 1 := by
    have length := spentLine_length line
    simp only [spentLine, List.length_append, List.length_cons] at length
    omega
  have ends : ((pre ++ spentLine line ++ rest ++ post).drop pre.length)[stop]? = some nul := by
    simp [spentLine, stop]
  obtain ⟨ch, position⟩ : ∃ ch, word.findIdx? (· == atSign) = some ch := by
    rw [← Option.isSome_iff_exists, List.findIdx?_isSome, List.any_eq_true]
    exact ⟨atSign, at_sign, by simp⟩
  have inside := (List.findIdx?_eq_some_iff_getElem.mp position).1
  have cut := cutWord_within ends tokens (by simp) read inside
  have written := cut.mono (Nat.le_refl _)
    (show pre.length + stop ≤ pre.length + (spentLine line).length by rw [spentLine_length]; omega)
  rw [List.append_assoc (pre ++ spentLine line)] at written
  obtain ⟨mid, memory, middle⟩ := written.frame
  rw [← List.append_assoc] at memory
  have length : (pre ++ mid).length = pre.length + line.length + 1 := by
    rw [List.length_append, middle, spentLine_length, Nat.add_assoc]
  refine ⟨{ new with methodName := .rbuf t₁.value, serviceName := .rbuf (t₁.value + ch + 1)
                     rpcVersion := .rbuf t₂.value }, pre ++ mid, ?_, length⟩
  simp only [requestLine, lineAt_line pre line rest post one, tokens, tokenValue, CharPtr.read,
    CharPtr.cut, List.length_cons, List.length_nil, if_true, ne_eq, not_true_eq_false, if_false,
    List.getElem?_cons_succ, List.getElem?_cons_zero, read, position, memory, Window.frame, length]

/-- No empty line at the start of what follows. -/
def NoEmptyLine (bytes : List Byte) : Prop :=
  ∀ rest, bytes ≠ newline :: rest ∧ bytes ≠ carriage :: newline :: rest

theorem bodyLine_fails {g : List Byte} (text : NoEmptyLine g) (seq : Int) (len : Nat) :
    bodyLine seq len (.frame pre g post) = (.error, .frame pre g post) := by
  unfold bodyLine
  split
  · rfl
  · rename_i el here
    obtain ⟨k, found, rfl⟩ := Option.map_eq_some_iff.mp here
    rw [slice_append, List.findIdx?_eq_some_iff_getElem] at found
    obtain ⟨inside, last, -⟩ := found
    rw [beq_iff_eq] at last
    rw [if_neg]
    rintro (empty | ⟨single, cr⟩)
    · obtain rfl : k = 0 := by omega
      cases g with
      | nil => cases inside
      | cons b rest =>
          obtain rfl : b = newline := last
          exact (text rest).1 rfl
    · obtain rfl : k = 1 := by omega
      cases g with
      | nil => cases inside
      | cons a g =>
          cases g with
          | nil => exact absurd inside (by simp)
          | cons b rest =>
              obtain rfl : b = newline := last
              have first : (pre ++ (a :: newline :: rest) ++ post)[pre.length]? = some carriage := cr
              obtain rfl : a = carriage := by simpa using first
              exact (text rest).2 rfl

theorem parseRest_stops {lines g : List Byte} (stops : StopsAtEnd lines) (text : NoEmptyLine g)
    (old : Nat) (pre post : List Byte) :
    ∃ pre', parseRest old (.frame pre (lines ++ g) post) = (.error, .frame pre' g post) ∧
      pre'.length = pre.length + lines.length := by
  cases stops with
  | @seq line₂ one fails =>
      refine ⟨pre ++ spentLine line₂, ?_, ?_⟩
      · rw [parseRest, List.append_assoc, List.singleton_append, numberLine_line _ _ _ _ _ one, fails]
      · simp only [List.length_append, spentLine_length, List.length_singleton]
  | @bodyLen line₂ line₃ seq one₂ one₃ scans fails =>
      have layout : line₂ ++ newline :: (line₃ ++ [newline]) ++ g =
          line₂ ++ newline :: (line₃ ++ newline :: g) := by simp
      refine ⟨pre ++ spentLine line₂ ++ spentLine line₃, ?_, ?_⟩
      · rw [parseRest, layout, numberLine_line _ _ _ _ _ one₂, scans]
        simp only
        rw [numberLine_line _ _ _ _ _ one₃, fails]
      · simp only [List.length_append, spentLine_length, List.length_cons, List.length_nil]
        omega
  | @newLine line₂ line₃ seq len one₂ one₃ scans counts =>
      have layout : line₂ ++ newline :: (line₃ ++ [newline]) ++ g =
          line₂ ++ newline :: (line₃ ++ newline :: g) := by simp
      refine ⟨pre ++ spentLine line₂ ++ spentLine line₃, ?_, ?_⟩
      · rw [parseRest, layout, numberLine_line _ _ _ _ _ one₂, scans]
        simp only
        rw [numberLine_line _ _ _ _ _ one₃, counts]
        exact bodyLine_fails text seq _
      · simp only [List.length_append, spentLine_length, List.length_cons, List.length_nil]
        omega

theorem rpcRequestParse_stops {line lines g : List Byte} (one : newline ∉ line)
    (taken : RequestLineTaken (.frame pre (line ++ newline :: (lines ++ g)) post))
    (stops : StopsAtEnd lines) (text : NoEmptyLine g) (new : RpcRequest) (stale : Nat → CharPtr) :
    ∃ pre', rpcRequestParse new stale (.frame pre (line ++ newline :: (lines ++ g)) post) =
        (.error, .frame pre' g post) ∧
      pre'.length = pre.length + (line.length + 1 + lines.length) := by
  obtain ⟨req, pre₁, accepted, length₁⟩ := requestLine_taken one taken new stale
  obtain ⟨pre₂, rejected, length₂⟩ := parseRest_stops stops text req.inputLen pre₁ post
  refine ⟨pre₂, ?_, by omega⟩
  rw [rpcRequestParse, accepted]
  simp only
  rw [rejected]

theorem requestText_taken {method service : List Byte} (names : Names method service) :
    RequestLineTaken (.frame pre (requestText method service ++ newline :: rest) post) := by
  obtain ⟨mem, found, tokens⟩ := words_frame names.words pre rest post
  obtain ⟨-, second, -⟩ := wordsSpent_strings names.words pre (rest ++ post)
  rw [← List.append_assoc] at second
  exact ⟨_, _, _, _, _, _, found, tokens, second, by simp⟩

end Lines

theorem noEmptyLine_stream {α σ μ : Type} {side : ReadSide α σ} (F : Framing side μ) {ms : List μ}
    {g missing : List Byte} (bytes : g ++ missing = F.stream ms) : NoEmptyLine g := by
  intro rest
  cases ms with
  | nil =>
      have empty : g = [] := (List.append_eq_nil_iff.mp bytes).1
      rw [empty]
      exact ⟨by simp, by simp⟩
  | cons m ms =>
      obtain ⟨one, ne, notCarriage⟩ := (F.lines m).first
      obtain ⟨b, line, opening⟩ := List.exists_cons_of_ne_nil ne
      have shape : ∃ tail, F.stream (m :: ms) = b :: (line ++ newline :: tail) := by
        refine ⟨F.line₂ m ++ newline :: (F.line₃ m ++ [newline, newline]) ++
          (F.body m ++ F.stream ms), ?_⟩
        simp [F.stream_cons, Framing.head, headText, opening]
      obtain ⟨tail, shape⟩ := shape
      rw [shape] at bytes
      rw [opening] at one notCarriage
      constructor
      · rintro rfl
        obtain ⟨rfl, -⟩ := List.cons.inj bytes
        exact one List.mem_cons_self
      · rintro rfl
        obtain ⟨rfl, behind⟩ := List.cons.inj bytes
        cases line with
        | nil => exact notCarriage rfl
        | cons b' line =>
            obtain ⟨rfl, -⟩ := List.cons.inj behind
            exact one (by simp)

section Recovery

variable {env : ServerEnv} {s : ServerReader} {pre post line lines begun missing : List Byte}

/-- The round of `cb_req_read` that rejects such a message: nothing is handed out, and what was received
    of the next message is now all that is unread. -/
theorem readRound_stops (holds : s.conn.Holds pre (line ++ newline :: (lines ++ begun)) post)
    (none_kept : s.conn.unprocessData = none)
    (detected : rpcConnReceivedHead (s.conn.rbuf.drop pre.length ++ [env.behind]) s.conn.rbytes = true)
    (one : newline ∉ line)
    (taken : RequestLineTaken (.frame pre (line ++ newline :: (lines ++ begun)) post))
    (stops : StopsAtEnd lines) (text : NoEmptyLine begun) :
    ∃ s' pre', readRound (reqSide env) env.behind s = .ok (false, s') ∧
      s'.conn.Holds pre' begun post ∧ s'.conn.unprocessData = none ∧ s'.log = s.log ∧
      s.conn.SameSendSide s'.conn ∧ s'.conn.thread = s.conn.thread ∧
      s'.conn.closes = s.conn.closes := by
  obtain ⟨pre', rejected, length⟩ := rpcRequestParse_stops one taken stops text
    (env.objs s.parses) (env.stale s.parses)
  have unread : s.conn.rbytes ≠ 0 := by
    rw [holds.rbytes]
    simp
  refine ⟨{ s with conn := s.conn.setWindow (.frame pre' begun post), parses := s.parses + 1 }, pre',
    ?_, holds.move ?_, none_kept, rfl, ⟨rfl, rfl, id, rfl, rfl⟩, rfl, rfl⟩
  · rw [holds.rbuf, holds.rbytes] at detected
    unfold readRound
    rw [if_neg unread]
    simp only [none_kept, holds.window]
    rw [if_pos detected]
    simp only [reqSide, rejected]
  · simp only [List.length_append, List.length_cons, length]
    omega

/-- After the rejection of a message that ends with the line the parser stops at, every later run hands
    out the calls that have then arrived whole, and nothing else. -/
theorem cbReqRead_recovers (returns : env.sock.Returns) (grows : GrowsRight env.grow)
    (clean : ∀ k, (env.objs k).inputLen < 4294967296)
    (idle : s.conn.Idle) (thread : s.conn.thread.isSome) {calls : List Call} {texts : List (List Byte)}
    (holds : s.conn.Holds pre (line ++ newline :: (lines ++ begun)) post)
    (none_kept : s.conn.unprocessData = none)
    (detected : rpcConnReceivedHead (s.conn.rbuf.drop pre.length ++ [env.behind]) s.conn.rbytes = true)
    (one : newline ∉ line)
    (taken : RequestLineTaken (.frame pre (line ++ newline :: (lines ++ begun)) post))
    (stops : StopsAtEnd lines) (written : List.Forall₂ Call.WrittenAs calls texts)
    (cut : begun ++ missing = texts.flatten)
    (partly : ∀ text rest, texts = text :: rest → begun.length < text.length) :
    ∃ s', readRound (reqSide env) env.behind s = .ok (false, s') ∧ s'.log = s.log ∧
      ∀ runs more, receivedBy runs ++ more = missing →
        EveryRun (reqSide env) env.toReadEnv (HarmlessRun env.toReadEnv texts) begun.length s' runs →
        ∃ s'', cbReads (reqSide env) env.toReadEnv runs s' = .ok s'' ∧
          s''.log = s.log ++ ((callFraming env returns).arrived calls
            (begun.length + (receivedBy runs).length)).map (Call.handed env) ∧
          (more = [] → s''.log = s.log ++ calls.map (Call.handed env)) := by
  let F := callFraming env returns
  have messages : texts = calls.map F.message :=
    messages_written F (fun _ _ => Call.written_bytes returns) written
  have bytes : texts.flatten = F.stream calls := by rw [messages, F.stream_messages]
  rw [bytes] at cut
  obtain ⟨s', pre', rejected, holds', none_kept', log, same, thread', -⟩ :=
    readRound_stops holds none_kept detected one taken stops (noEmptyLine_stream F cut)
  refine ⟨s', rejected, log, fun runs more split harmless => ?_⟩
  subst split
  have first : ∀ call rest, calls = call :: rest →
      begun.length < (F.head call ++ F.body call).length := by
    rintro call rest rfl
    exact partly _ _ messages
  have stands : F.Stands calls (receivedBy runs ++ more) s' := .head holds' none_kept' cut first
  rw [messages] at harmless
  obtain ⟨s'', ran, handed⟩ := cbReads_harmless grows clean runs [] calls begun.length s' rfl stands
    ⟨same.idle idle, thread' ▸ thread⟩ (by rw [List.nil_append, ← cut, ← List.length_append]) harmless
  have logged : s''.log = s.log ++ (F.arrived calls (begun.length + (receivedBy runs).length)).map
      (Call.handed env) := by
    rw [handed s.log log]
    exact foldl_snoc _ _ _
  refine ⟨s'', ran, logged, ?_⟩
  rintro rfl
  rw [List.append_nil] at cut
  rw [logged, ← List.length_append, cut, F.arrived_all]

end Recovery

/-- A request line of the call and an empty line. -/
def unnumbered : List Byte :=
  requestText smallCall.method smallCall.service ++ newline :: ([newline] ++ [])

/-- A request line of three words without an `@`, and an empty line. -/
def unaddressed : List Byte :=
  wordsText smallCall.method smallCall.method RPC_VERSION ++ [newline, newline]

/-- A line that is no seq line, with the head of a call behind it. -/
def smuggling : List Byte :=
  requestText smallCall.method smallCall.service ++
    newline :: smallCall.method ++ newline :: requestHead smallCall.method smallCall.service 9 0

/-- A connection that has read the message without a number. -/
def unnumberedReader : ServerReader :=
  let s := serverConn nulConn 3 0 0
  { s with conn := { s.conn with rbuf := overwrite s.conn.rbuf 0 unnumbered
                                 rbytes := unnumbered.length } }

theorem unnumberedReader_holds : unnumberedReader.conn.Holds [] unnumbered
    ((List.replicate BUFFER_SIZE nul).drop unnumbered.length) where
  rbuf := by
    simp only [unnumberedReader, serverConn, rpcConnNewInner, nulConn, allocConn, overwrite,
      List.take_zero, Nat.zero_add]
  rcurr := rfl
  rbytes := rfl
  rsize := by decide +kernel

theorem unnumberedReader_idle : unnumberedReader.conn.Idle := ⟨rfl, rfl, Nat.le_refl 5⟩

/-- Behind the rejection the window is empty, at the end of what was read. -/
theorem unnumberedReader_rejected {s' : ServerReader}
    (rejected : readRound (reqSide growingServer) growingServer.behind unnumberedReader =
      .ok (false, s')) :
    s'.conn.Holds (s'.conn.rbuf.take 18) [] (s'.conn.rbuf.drop 18) ∧ s'.conn.rbytes = 0 ∧
      s'.conn.rsize = 2048 := by
  have computed : ((readRound (reqSide growingServer) growingServer.behind
      unnumberedReader).toOption.map fun next =>
        (next.2.conn.rcurr, next.2.conn.rbytes, next.2.conn.rsize, next.2.conn.rbuf.length)) =
      some (some 18, 0, 2048, 2048) := by decide +kernel
  obtain ⟨next, rejected', sizes⟩ := returned_of_computed computed
  rw [rejected] at rejected'
  cases rejected'
  simp only [Prod.mk.injEq] at sizes
  obtain ⟨start, used, size, block⟩ := sizes
  have pre : (s'.conn.rbuf.take 18).length = 18 := by rw [List.length_take, block]; rfl
  exact ⟨⟨by simp, by rw [start, pre], used, size.trans block.symm⟩, used, size⟩

/-- What comes after the rejection fills the block, which is doubled. -/
theorem cbReqRead_recovers_doubled :
    let call := callOf 2100 (by decide)
    let bytes := [smallText, call.text].flatten
    ∃ s' s'', readRound (reqSide growingServer) growingServer.behind unnumberedReader = .ok (false, s') ∧
      cbReads (reqSide growingServer) growingServer.toReadEnv
        [[.data (bytes.take 2048), .data (bytes.drop 2048)]] s' = .ok s'' ∧
      s''.log = [smallCall.handed growingServer, call.handed growingServer] := by
  intro call bytes
  have zeroed : 0 < 4294967296 := by decide
  have stops : StopsAtEnd ([] ++ [newline]) := .seq (by simp) (by decide)
  have holds : unnumberedReader.conn.Holds []
      (requestText smallCall.method smallCall.service ++ newline :: ([newline] ++ [])) _ :=
    unnumberedReader_holds
  have written : List.Forall₂ Call.WrittenAs [smallCall, call] [smallText, call.text] :=
    .cons smallCall.written (.cons call.written .nil)
  have cut : [] ++ bytes = [smallText, call.text].flatten := rfl
  obtain ⟨s', rejected, -, later⟩ := cbReqRead_recovers growingServer_returns growingServer_grows
    (fun _ => zeroed) unnumberedReader_idle rfl holds rfl (by decide)
    (wordsLine smallCall.names.words).one (requestText_taken smallCall.names) stops written cut
    (by
      intro text rest shape
      obtain ⟨rfl, -⟩ := List.cons.inj shape
      decide)
  obtain ⟨window, used, size⟩ := unnumberedReader_rejected rejected
  have head : (requestHead call.method call.service call.seq 2100).length = 38 := by decide
  have length : bytes.length = 2174 := by
    have body : call.body.length = 2100 := List.length_replicate
    have small : smallText.length = 36 := by decide
    simp only [bytes, List.flatten_cons, List.flatten_nil, List.append_nil, List.length_append, small,
      Call.text, body]
    omega
  have first : (bytes.take 2048).length = 2048 := by
    rw [List.length_take, length]
    rfl
  have second : (bytes.drop 2048).length = 126 := by rw [List.length_drop, length]
  have all : received [.data (bytes.take 2048), .data (bytes.drop 2048)] = bytes := by
    simp [received, ReadResult.bytes]
  have compacts : Compacts growingServer.memcpy s'.conn := fun _ _ _ _ => rfl
  obtain ⟨fit, c, read⟩ := readFromConn_doubles moved growingServer.grow window compacts
    (by omega) (by rw [size]; decide) (by rw [size]; exact growingServer_grants 2048)
    (by rw [first, used, size]) (by rw [second, size]; decide)
  have harmless : HarmlessRun growingServer.toReadEnv [smallText, call.text] 0 s'
      [.data (bytes.take 2048), .data (bytes.drop 2048)] := by
    refine ⟨⟨fit, compacts, fun ends => ?_⟩, by simp [Successful], _, c, read⟩
    rw [all, Nat.zero_add] at ends
    exact absurd rfl (endsFirstLine_written growingServer_returns written ends).ne
  obtain ⟨s'', ran, -, whole⟩ := later [[.data (bytes.take 2048), .data (bytes.drop 2048)]] []
    (by simp [receivedBy, all]) ⟨harmless, fun _ _ => trivial⟩
  exact ⟨s', s'', rejected, ran, whole rfl⟩

/-- Behind a request line without an `@` nothing is ever handed out; behind a line that is no seq line,
    what is handed out first is a line of the same message. -/
theorem cbReqRead_recovers_fails :
    let start := serverConn nulConn 3 0 0
    let handed (message : List Byte) :=
      (cbReads (reqSide echoServer) echoServer.toReadEnv
        [[.data message], [.data smallText], [.data smallText]] start).toOption.map
          fun s => (s.conn.closes, s.log)
    (∀ message ∈ [unaddressed, smuggling],
      (rpcRequestParse (echoServer.objs 0) (echoServer.stale 0)
        (.frame [] message (start.conn.rbuf.drop message.length))).1 = .error) ∧
    handed unaddressed = some (0, []) ∧
    handed smuggling = some (0, [⟨smallCall.method, smallCall.service, 9, [], 0, true⟩,
      smallCall.handed echoServer, smallCall.handed echoServer]) := by
  decide

end OpenRpc
