import OpenRpc.ReadBuffer

/-! # One direction of a connection

The texts that were written to a socket, how many of their bytes have been read at the other end, and
where the callback that reads them stands. Other threads take steps between a read and the rounds of
the loop behind it, and between two rounds, so a connection also stands inside the loop, and more may
be written at any time.
-/

namespace OpenRpc

open Memory

variable {α σ μ : Type}

/-- The first `n` bytes of the texts end with the first line of one of them. -/
def EndsFirstLineOf (texts : List (List Byte)) (n : Nat) : Prop :=
  ∃ before line tail rest, texts = before ++ (line ++ newline :: tail) :: rest ∧ newline ∉ line ∧
    n = before.flatten.length + line.length + 1

/-- What the reads of a `read_from_conn` answer while bytes keep coming: the numbers say how many are
    there each time. -/
def readAnswers : List Byte → List Nat → List ReadResult
  | _, [] => []
  | bytes, n :: cuts =>
      (if bytes.take n = [] then .wouldBlock else .data (bytes.take n)) ::
        readAnswers (bytes.drop n) cuts

/-- A `read_from_conn` that the stream survives, with these answers. -/
structure HarmlessRead (env : ReadEnv) (texts : List (List Byte)) (heard : Nat) (c : RpcConn α)
    (reads : List ReadResult) : Prop where
  fit : AnswersFit env.grow reads 0 c
  compacts : Compacts env.memcpy c
  quiet : EndsFirstLineOf texts (heard + (received reads).length) →
    ∀ go c', readFromConn env.memcpy env.grow reads c = .returned go c' [] →
      (c'.rbuf ++ [env.behind])[c'.rbytes]? ≠ some newline

theorem readAnswers_successful (bytes : List Byte) (cuts : List Nat) :
    Successful (readAnswers bytes cuts) := by
  induction cuts generalizing bytes with
  | nil => simp [Successful, readAnswers]
  | cons n cuts ih =>
      refine List.forall_mem_cons.mpr ⟨?_, ih _⟩
      split
      · simp
      · simp

theorem readAnswers_received (bytes : List Byte) (cuts : List Nat) :
    received (readAnswers bytes cuts) = bytes.take cuts.sum := by
  induction cuts generalizing bytes with
  | nil => simp [readAnswers, received]
  | cons n cuts ih =>
      have piece : (if bytes.take n = [] then ReadResult.wouldBlock else .data (bytes.take n)).bytes =
          bytes.take n := by
        split
        · rename_i none_there
          rw [none_there]
          rfl
        · rfl
      have rest := ih (bytes.drop n)
      rw [received] at rest
      rw [readAnswers, received, List.flatMap_cons, piece, rest, List.sum_cons, List.take_add]

theorem makeRoom_unmoved {grow : Grow} {n n' : Nat} {c c' : RpcConn α}
    (room : makeRoom grow n c = some (n', c')) :
    c'.unprocessData = c.unprocessData ∧ c'.thread = c.thread := by
  obtain ⟨-, -, rfl⟩ | ⟨added, -, -, -, -, -, rfl⟩ := makeRoom_cases room
  · exact ⟨rfl, rfl⟩
  · exact ⟨rfl, rfl⟩

theorem readReturns_unmoved {grow : Grow} {reads rest : List ReadResult} {n : Nat} {c c' : RpcConn α}
    {value : Bool} (h : ReadReturns grow reads n c value c' rest) (successful : Successful reads) :
    c'.unprocessData = c.unprocessData ∧ c'.thread = c.thread := by
  induction h with
  | full => exact ⟨rfl, rfl⟩
  | fills room whole next ih =>
      obtain ⟨-, successful⟩ := List.forall_mem_cons.mp successful
      obtain ⟨kept₁, thread₁⟩ := makeRoom_unmoved room
      obtain ⟨kept, thread⟩ := ih successful
      exact ⟨kept.trans kept₁, thread.trans thread₁⟩
  | short room part =>
      obtain ⟨kept, thread⟩ := makeRoom_unmoved room
      exact ⟨kept, thread⟩
  | again unheard room next ih =>
      obtain ⟨-, successful⟩ := List.forall_mem_cons.mp successful
      obtain ⟨kept₁, thread₁⟩ := makeRoom_unmoved room
      obtain ⟨kept, thread⟩ := ih successful
      exact ⟨kept.trans kept₁, thread.trans thread₁⟩
  | closes hangs room =>
      obtain ⟨heard, -⟩ := List.forall_mem_cons.mp successful
      rcases hangs with ⟨rfl, -⟩ | ⟨rfl, -⟩
      · exact absurd rfl heard.1
      · exact absurd rfl heard.2

theorem readFromConn_hears {env : ReadEnv} (grows : GrowsRight env.grow) {reads : List ReadResult}
    {c c' : RpcConn α} {pre unread post : List Byte} {go : Bool} (holds : c.Holds pre unread post)
    (successful : Successful reads) (fit : AnswersFit env.grow reads 0 c)
    (compacts : Compacts env.memcpy c)
    (read : readFromConn env.memcpy env.grow reads c = .returned go c' []) :
    go = true ∧ (∃ post', c'.Holds [] (unread ++ received reads) post') ∧
      c'.unprocessData = c.unprocessData ∧ c'.thread = c.thread := by
  have loop := read
  simp only [readFromConn, compact_eq holds compacts] at loop
  obtain ⟨goes, used, post', split, holds'⟩ := readReturns_holds grows (readLoop_returns loop) successful
    (answersFit_sameRoom (by exact ⟨rfl, rfl⟩) fit) holds.compacted
  rw [List.append_nil] at split
  rw [← split] at holds'
  obtain ⟨kept, thread⟩ := readReturns_unmoved (readLoop_returns loop) successful
  exact ⟨goes, ⟨post', holds'⟩, kept, thread⟩

/-- A read that finds less than there is room for is the only one. -/
structure ShortAnswer (reads : List ReadResult) (c : RpcConn α) (piece : List Byte) : Prop where
  only : reads = [.data piece]
  short : piece.length < c.rsize - c.rbytes

theorem ShortAnswer.of_take {bytes : List Byte} {n : Nat} {c : RpcConn α} (some_bytes : bytes.take n ≠ [])
    (short : (bytes.take n).length < c.rsize - c.rbytes) :
    ShortAnswer (readAnswers bytes [n]) c (bytes.take n) where
  only := by rw [readAnswers, if_neg some_bytes, readAnswers]
  short := short

theorem ShortAnswer.harmless {env : ReadEnv} {texts : List (List Byte)} {heard : Nat} {c : RpcConn α}
    {reads : List ReadResult} {pre unread post piece : List Byte}
    (answers : ShortAnswer reads c piece) (holds : c.Holds pre unread post)
    (compacts : Compacts env.memcpy c)
    (quiet : EndsFirstLineOf texts (heard + piece.length) →
      c.rbuf[c.rbytes + piece.length]? ≠ some newline) :
    HarmlessRead env texts heard c reads := by
  obtain ⟨rfl, short⟩ := answers
  refine ⟨?_, compacts, fun ends go c' read => ?_⟩
  · simp only [AnswersFit, makeRoom_room env.grow 0 (show c.rbytes < c.rsize by omega)]
    exact ⟨short.le, trivial⟩
  · obtain ⟨c'', read', holds', -⟩ := readFromConn_short env.grow holds compacts short
    cases read'.symm.trans read
    have inside : c.rbytes + piece.length < c.rbuf.length := by
      rw [← holds.rsize]
      omega
    have more : c.rbuf.drop (c.rbytes + piece.length) ≠ [] := by
      simp only [ne_eq, List.drop_eq_nil_iff]
      omega
    rw [holds'.rbuf, holds'.rbytes, List.nil_append, List.append_assoc,
      List.getElem?_append_right (Nat.le_refl _), Nat.sub_self, ← List.head?_eq_getElem?,
      List.head?_append_of_ne_nil _ more, List.head?_drop]
    exact quiet (by simpa [received, ReadResult.bytes] using ends)

namespace Framing

variable {side : ReadSide α σ} (F : Framing side μ)

def message (m : μ) : List Byte := F.head m ++ F.body m

/-- Where the reader stands, inside the loop or between two reads. -/
def Reads (behind : Byte) (looping : Bool) (todo : List μ) (missing : List Byte)
    (s : Reader α σ) : Prop :=
  if looping then F.Amid behind todo missing s else F.Between todo missing s

/-- Of the texts written, some have been handed out, and `todo` are the messages to come. -/
structure Flows (behind : Byte) (texts : List (List Byte)) (heard : Nat) (looping : Bool)
    (todo : List μ) (s : Reader α σ) : Prop where
  written : ∃ handed, texts = (handed ++ todo).map F.message
  inside : heard ≤ texts.flatten.length
  reads : F.Reads behind looping todo (texts.flatten.drop heard) s

section Loop

variable {F} {behind : Byte} {todo : List μ} {missing : List Byte} {s : Reader α σ}

theorem quiet_behind {c : RpcConn α} {behind : Byte} {unread post : List Byte}
    (holds : c.Holds [] unread post)
    (quiet : ∀ before m rest, todo = before ++ m :: rest →
      missing.length + (F.line₁ m).length + 1 = (F.stream (m :: rest)).length →
      (c.rbuf ++ [behind])[c.rbytes]? ≠ some newline) :
    QuietBehind F behind todo missing post := by
  intro before m rest split oneLine
  have byte : (c.rbuf ++ [behind])[c.rbytes]? = (post ++ [behind]).head? := by
    rw [holds.rbuf, holds.rbytes, List.nil_append, List.append_assoc,
      List.getElem?_append_right (Nat.le_refl _), Nat.sub_self, List.head?_eq_getElem?]
  rw [← byte]
  exact quiet before m rest split oneLine

theorem Stands.read {env : ReadEnv} (grows : GrowsRight env.grow) {reads : List ReadResult}
    (stands : F.Stands todo (received reads ++ missing) s) (ready : F.Ready todo s)
    (successful : Successful reads) (fit : AnswersFit env.grow reads 0 s.conn)
    (compacts : Compacts env.memcpy s.conn) {go : Bool} {c : RpcConn α}
    (read : readFromConn env.memcpy env.grow reads s.conn = .returned go c [])
    (quiet : ∀ before m rest, todo = before ++ m :: rest →
      missing.length + (F.line₁ m).length + 1 = (F.stream (m :: rest)).length →
      (c.rbuf ++ [env.behind])[c.rbytes]? ≠ some newline) :
    go = true ∧ F.Amid env.behind todo missing { s with conn := c } ∧
      F.Ready todo { s with conn := c } ∧ s.conn.SameSendSide c := by
  have same := readFromConn_sendSide read
  cases stands with
  | @head _ _ pre unread post _ holds none_kept bytes short =>
      obtain ⟨goes, ⟨post', holds'⟩, kept', thread⟩ :=
        readFromConn_hears grows holds successful fit compacts read
      refine ⟨goes, .head holds' (kept'.trans none_kept) ?_ (quiet_behind holds' quiet),
        F.ready todo s _ ready same thread rfl, same⟩
      rw [List.append_assoc, bytes]
  | @body m rest _ pre unread post _ kept holds pending head bytes bodyShort =>
      obtain ⟨goes, ⟨post', holds'⟩, kept', thread⟩ :=
        readFromConn_hears grows holds successful fit compacts read
      have more : F.body m ≠ [] := by
        intro empty
        rw [empty] at bodyShort
        cases bodyShort
      refine ⟨goes, .body holds' (kept'.trans pending) head more ?_ (quiet_behind holds' quiet),
        F.ready _ s _ ready same thread rfl, same⟩
      rw [List.append_assoc, bytes]

end Loop

section Writing

variable {F} {behind : Byte} {todo : List μ} {missing : List Byte} {s s' : Reader α σ}

theorem stream_snoc (todo : List μ) (m : μ) : F.stream (todo ++ [m]) = F.stream todo ++ F.message m := by
  rw [F.stream_append]
  simp [Framing.stream, Framing.message]

/-- One message more is one more whose first line may come to lie at the end of what was read, but its
    bytes are all still missing. -/
theorem quietBehind_write {post : List Byte} (quiet : QuietBehind F behind todo missing post) (m : μ) :
    QuietBehind F behind (todo ++ [m]) (missing ++ F.message m) post := by
  intro before m' rest split oneLine
  have all := congrArg List.length (F.stream_append before (m' :: rest))
  rw [← split, stream_snoc, List.length_append, List.length_append] at all
  rw [List.length_append] at oneLine
  cases List.eq_nil_or_concat rest with
  | inl last =>
      subst last
      have same : todo = before ∧ m = m' := by
        have parts := List.append_inj' split rfl
        exact ⟨parts.1, (List.cons.inj parts.2).1⟩
      obtain ⟨rfl, rfl⟩ := same
      have length := F.head_length m
      have whole : (F.stream [m]).length = (F.message m).length := by
        simp [Framing.stream, Framing.message]
      omega
  | inr more =>
      obtain ⟨front, last, rfl⟩ := more
      rw [List.concat_eq_append, ← List.cons_append, ← List.append_assoc] at split
      obtain ⟨rfl, rest'⟩ := List.append_inj' split rfl
      cases (List.cons.inj rest').1
      apply quiet before m' front rfl
      rw [List.concat_eq_append, ← List.cons_append, stream_snoc, List.length_append] at oneLine
      omega

theorem Amid.write (amid : F.Amid behind todo missing s) (m : μ) :
    F.Amid behind (todo ++ [m]) (missing ++ F.message m) s := by
  cases amid with
  | head holds none_kept bytes quiet =>
      refine .head holds none_kept ?_ (quietBehind_write quiet m)
      rw [← List.append_assoc, bytes, stream_snoc]
  | body holds pending head more bytes quiet =>
      refine .body holds pending head more ?_ (quietBehind_write quiet m)
      rw [← List.append_assoc, bytes, List.append_assoc, ← stream_snoc]
      rfl

theorem Between.write (between : F.Between todo missing s) (m : μ) :
    F.Between (todo ++ [m]) (missing ++ F.message m) s := by
  cases between with
  | @head _ _ pre unread post _ holds none_kept bytes short =>
      refine .head holds none_kept ?_ ?_
      · rw [← List.append_assoc, bytes, stream_snoc]
      · intro m' rest split
        cases todo with
        | nil =>
            have empty := List.append_eq_nil_iff.mp (show unread ++ missing = [] from bytes)
            have length := F.head_length m'
            rw [empty.1]
            exact Nat.lt_of_lt_of_eq (Nat.succ_pos _) length.symm
        | cons x others =>
            cases (List.cons.inj split).1
            exact short m' others rfl
  | body holds pending head bytes short =>
      refine .body holds pending head ?_ short
      rw [← List.append_assoc, bytes, List.append_assoc, ← stream_snoc]
      rfl

theorem Amid.same (amid : F.Amid behind todo missing s) (same : s.conn.SameReadSide s'.conn) :
    F.Amid behind todo missing s' := by
  cases amid with
  | head holds none_kept bytes quiet =>
      exact .head (same.holds holds) (same.unprocessData.trans none_kept) bytes quiet
  | body holds pending head more bytes quiet =>
      exact .body (same.holds holds) (same.unprocessData.trans pending) head more bytes quiet

theorem Between.same (between : F.Between todo missing s) (same : s.conn.SameReadSide s'.conn) :
    F.Between todo missing s' := by
  cases between with
  | head holds none_kept bytes short =>
      exact .head (same.holds holds) (same.unprocessData.trans none_kept) bytes short
  | body holds pending head bytes short =>
      exact .body (same.holds holds) (same.unprocessData.trans pending) head bytes short

end Writing

section Flow

variable {F} {behind : Byte} {texts : List (List Byte)} {heard : Nat} {looping : Bool}
  {todo : List μ} {s s' : Reader α σ}

theorem message_lines (m : μ) : ∃ tail, F.message m = F.line₁ m ++ newline :: tail := by
  simp [Framing.message, Framing.head, headText]

theorem stream_messages (ms : List μ) : F.stream ms = (ms.map F.message).flatten := by
  rw [Framing.stream, List.flatMap_def]
  rfl

theorem flows_start (buffer : s.conn.rbuf.length = s.conn.rsize) (start : s.conn.rcurr = some 0)
    (empty : s.conn.rbytes = 0) (none_kept : s.conn.unprocessData = none) :
    F.Flows behind [] 0 false [] s where
  written := ⟨[], rfl⟩
  inside := Nat.le_refl 0
  reads := by
    have holds : s.conn.Holds [] [] s.conn.rbuf := ⟨rfl, start, empty, buffer.symm⟩
    exact Between.head holds none_kept rfl (by simp)

theorem Flows.write (flows : F.Flows behind texts heard looping todo s) (m : μ) :
    F.Flows behind (texts ++ [F.message m]) heard looping (todo ++ [m]) s where
  written := by
    obtain ⟨handed, rfl⟩ := flows.written
    exact ⟨handed, by simp⟩
  inside := by
    have inside := flows.inside
    rw [List.flatten_append, List.length_append]
    omega
  reads := by
    have reads := flows.reads
    rw [List.flatten_append, List.drop_append_of_le_length flows.inside, List.flatten_singleton]
    cases looping with
    | false => exact Between.write reads m
    | true => exact Amid.write reads m

theorem Flows.same (flows : F.Flows behind texts heard looping todo s)
    (same : s.conn.SameReadSide s'.conn) : F.Flows behind texts heard looping todo s' where
  written := flows.written
  inside := flows.inside
  reads := by
    have reads := flows.reads
    cases looping with
    | false => exact Between.same reads same
    | true => exact Amid.same reads same

theorem Flows.read {env : ReadEnv} (grows : GrowsRight env.grow)
    (flows : F.Flows env.behind texts heard false todo s) (ready : F.Ready todo s) {cuts : List Nat}
    (harmless : HarmlessRead env texts heard s.conn (readAnswers (texts.flatten.drop heard) cuts))
    {go : Bool} {c : RpcConn α}
    (read : readFromConn env.memcpy env.grow (readAnswers (texts.flatten.drop heard) cuts) s.conn =
      .returned go c []) :
    go = true ∧
      F.Flows env.behind texts
        (heard + (received (readAnswers (texts.flatten.drop heard) cuts)).length) true todo
        { s with conn := c } ∧
      F.Ready todo { s with conn := c } ∧ s.conn.SameSendSide c := by
  have successful := readAnswers_successful (texts.flatten.drop heard) cuts
  obtain ⟨missing, cut⟩ : ∃ missing,
      received (readAnswers (texts.flatten.drop heard) cuts) ++ missing = texts.flatten.drop heard := by
    rw [readAnswers_received]
    exact ⟨_, List.take_append_drop ..⟩
  generalize readAnswers (texts.flatten.drop heard) cuts = reads at cut harmless read successful ⊢
  have later : missing = texts.flatten.drop (heard + (received reads).length) := by
    rw [← List.drop_drop, ← cut, List.drop_left]
  have between : F.Between todo (received reads ++ missing) s := cut ▸ flows.reads
  have total := congrArg List.length cut
  rw [List.length_append, List.length_drop] at total
  have inside : heard + (received reads).length ≤ texts.flatten.length := by
    have bound := flows.inside
    omega
  obtain ⟨goes, amid, ready', same⟩ := between.stands.read grows ready successful harmless.fit
    harmless.compacts read (by
      intro before m rest split oneLine
      refine harmless.quiet ?_ go c read
      obtain ⟨handed, written⟩ := flows.written
      obtain ⟨tail, lines⟩ := F.message_lines m
      refine ⟨(handed ++ before).map F.message, F.line₁ m, tail, rest.map F.message, ?_,
        (F.lines m).first.one, ?_⟩
      · rw [written, split, ← lines]
        simp
      · have parts : texts.flatten = F.stream (handed ++ before) ++ F.stream (m :: rest) := by
          rw [← F.stream_append, written, F.stream_messages, split, List.append_assoc]
        have lengths := congrArg List.length parts
        rw [List.length_append] at lengths
        have gone : missing.length = texts.flatten.length - (heard + (received reads).length) := by
          rw [later, List.length_drop]
        rw [← F.stream_messages]
        omega)
  exact ⟨goes, ⟨flows.written, inside, by rw [later] at amid; exact amid⟩, ready', same⟩

theorem Flows.round (clean : ∀ k, F.Clean k) (flows : F.Flows behind texts heard true todo s)
    (ready : F.Ready todo s) :
    (∃ s', readRound side behind s = .ok (false, s') ∧ s'.log = s.log ∧
      F.Flows behind texts heard false todo s' ∧ F.Ready todo s') ∨
    ∃ m rest s', todo = m :: rest ∧ readRound side behind s = .ok (true, s') ∧
      s'.log = F.record m s.log ∧ F.Flows behind texts heard true rest s' ∧ F.Ready rest s' := by
  have amid : F.Amid behind todo (texts.flatten.drop heard) s := flows.reads
  rcases amid.round clean ready with
    ⟨s', stops, log, between, ready'⟩ | ⟨m, rest, s', rfl, next, log, -, amid', ready'⟩
  · exact .inl ⟨s', stops, log, ⟨flows.written, flows.inside, between⟩, ready'⟩
  · refine .inr ⟨m, rest, s', rfl, next, log, ⟨?_, flows.inside, amid'⟩, ready'⟩
    obtain ⟨handed, written⟩ := flows.written
    exact ⟨handed ++ [m], by rw [written, List.append_assoc, List.singleton_append]⟩

/-- Where everything was read and the loop has been left, nothing is to come. -/
theorem Flows.done (flows : F.Flows behind texts heard false todo s)
    (all : texts.flatten.length ≤ heard) : todo = [] := by
  have between : F.Between todo (texts.flatten.drop heard) s := flows.reads
  rw [List.drop_eq_nil_of_le all] at between
  obtain ⟨extra, length, short⟩ := between.stands.partly
  cases todo with
  | nil => rfl
  | cons m rest =>
      have less := short m rest rfl
      rw [F.stream_cons, ← List.append_assoc, List.length_append, List.length_nil] at length
      omega

end Flow

end Framing

end OpenRpc
