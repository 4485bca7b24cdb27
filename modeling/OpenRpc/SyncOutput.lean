import OpenRpc.Streams
import OpenRpc.ReadBuffer
import OpenRpc.Lib.Transition

/-! # The output of a synchronous call

`cb_call` hands the caller of `rpc_client_call` a pointer into the read buffer. The parsers write inside
what is still unread, and that lies behind the body; the next run of `cb_rsp_read` moves what is unread
to the start of the buffer, and appends to it. So the bytes stay as long as no later run gets as far as
the body.
-/

namespace OpenRpc

open Memory Transition

section Parsing

variable {c : Window}

theorem statusLine_within (new : RpcResponse) (stale : Nat → CharPtr) :
    c.Within (statusLine new stale c).2 := by
  simp only [statusLine]
  split
  · exact .refl c
  · rename_i line found
    obtain ⟨lined, k, inside, ends⟩ := lineAt_within found
    have tokens : SameOutside c.rcurr (c.rcurr + c.rbytes) line.rbuf
        (tokenizeCommand line.rbuf c.rcurr 3).2 :=
      (tokenizeLoop_within ends _ _ _ _).mono (Nat.le_refl _) (by omega)
    have memory := lined.memory.trans tokens
    have stay : c.Within { c with rbuf := (tokenizeCommand line.rbuf c.rcurr 3).2 } :=
      ⟨memory, Nat.le_refl _, Nat.le_refl _⟩
    repeat' split
    · exact stay
    · exact stay
    · exact stay
    · exact ⟨memory, lined.start, lined.stop⟩

/-- `rpc_response_parse` writes inside the window it is given, and leaves a window in it. -/
theorem rpcResponseParse_within (new : RpcResponse) (stale : Nat → CharPtr) :
    c.Within (rpcResponseParse new stale c).2 := by
  have first := statusLine_within (c := c) new stale
  unfold rpcResponseParse
  split
  · rename_i response c₁ accepted
    rw [accepted] at first
    have rest := parseRest_within (c := c₁) response.outputLen
    split
    · rename_i parsed
      rw [parsed] at rest
      exact first.trans rest
    · rename_i parsed
      rw [parsed] at rest
      exact first.trans rest
    · rename_i parsed
      rw [parsed] at rest
      exact first.trans rest
  · exact first

theorem rpcResponseParse_output {new rsp : RpcResponse} {stale : Nat → CharPtr} {c' : Window}
    (whole : rpcResponseParse new stale c = (.ok rsp, c')) :
    ∃ p, rsp.output = .rbuf p ∧ p + rsp.outputLen = c'.rcurr := by
  unfold rpcResponseParse at whole
  split at whole
  · split at whole
    · rename_i parsed
      cases whole
      exact ⟨_, rfl, parseRest_body parsed⟩
    · cases whole
    · cases whole
  · rename_i failed
    exact absurd whole (failed _ _)

end Parsing

section Rounds

variable {α σ : Type} {side : ReadSide α σ} {behind : Byte} {lo hi : Nat}

/-- The block is the one it was, it is unchanged outside of `[lo, hi)`, and what is unread lies
    inside. -/
structure RpcConn.Confined (lo hi : Nat) (c c' : RpcConn α) : Prop where
  memory : SameOutside lo hi c.rbuf c'.rbuf
  size : c'.rsize = c.rsize
  window : ∀ q, c'.rcurr = some q → lo ≤ q ∧ q + c'.rbytes ≤ hi

theorem RpcConn.Confined.trans {a b c : RpcConn α} (first : a.Confined lo hi b)
    (second : b.Confined lo hi c) : a.Confined lo hi c :=
  ⟨first.memory.trans second.memory, second.size.trans first.size, second.window⟩

theorem RpcConn.Fits.inside {c : RpcConn α} (fits : c.Fits) :
    ∀ q, c.rcurr = some q → 0 ≤ q ∧ q + c.rbytes ≤ c.rsize :=
  fun q here => ⟨Nat.zero_le q, fits.window q here⟩

theorem RpcConn.Confined.fits {c c' : RpcConn α} (confined : c.Confined 0 c.rsize c')
    (fits : c.Fits) : c'.Fits := by
  refine ⟨?_, fun q here => ?_⟩
  · rw [confined.memory.length, fits.block, confined.size]
  · rw [confined.size]
    exact (confined.window q here).2

/-- A read callback whose parser stays inside the window, and whose delivery leaves it alone. -/
structure ReadSide.Confines (side : ReadSide α σ) : Prop where
  parse : ∀ k (c : Window), c.Within (side.parse k c).2
  deliver : ∀ s obj go s', side.deliver s obj = .ok (go, s') → s.conn.SameReadSide s'.conn

/-- The message a round takes out of the buffer, and the reader it is delivered from. -/
def ReadSide.taken (side : ReadSide α σ) (behind : Byte) (s : Reader α σ) : Option (α × Reader α σ) :=
  match s.conn.window? with
  | none => none
  | some c =>
      match s.conn.unprocessData with
      | none =>
          if rpcConnReceivedHead (c.rbuf.drop c.rcurr ++ [behind]) c.rbytes then
            match side.parse s.parses c with
            | (.ok obj, c) => some (obj, { s with conn := s.conn.setWindow c, parses := s.parses + 1 })
            | _ => none
          else none
      | some last =>
          if side.bodyLen last ≤ s.conn.rbytes then
            let c' : Window := ⟨c.rbuf, c.rcurr + side.bodyLen last, c.rbytes - side.bodyLen last⟩
            some (side.withBody last (.rbuf c.rcurr),
              { s with conn := { s.conn.setWindow c' with unprocessData := none } })
          else none

theorem readRound_taken {s s' : Reader α σ} (h : readRound side behind s = .ok (true, s')) :
    ∃ obj t, side.taken behind s = some (obj, t) ∧ side.deliver t obj = .ok (true, s') := by
  cases readRound_moves h with
  | whole c c' obj unread idle window head parsed delivered =>
      refine ⟨obj, _, ?_, delivered⟩
      simp only [ReadSide.taken, window, idle, if_pos head, parsed]
  | resumes c last unread pending window enough delivered =>
      refine ⟨_, _, ?_, delivered⟩
      simp only [ReadSide.taken, window, pending, if_pos enough]
      rfl

theorem Window.Within.confined {conn : RpcConn α} {c c' : Window} (within : c.Within c')
    (window : conn.window? = some c)
    (inside : ∀ q, conn.rcurr = some q → lo ≤ q ∧ q + conn.rbytes ≤ hi) (kept : Option α) :
    conn.Confined lo hi { conn.setWindow c' with unprocessData := kept } := by
  simp only [RpcConn.window?, Option.map_eq_some_iff] at window
  obtain ⟨q, here, rfl⟩ := window
  obtain ⟨left, right⟩ := inside q here
  have start := within.start
  have stop := within.stop
  refine ⟨within.memory.mono left right, rfl, ?_⟩
  rintro q' ⟨⟩
  exact ⟨Nat.le_trans left start, Nat.le_trans stop right⟩

theorem Window.within_body {c : Window} {len : Nat} (enough : len ≤ c.rbytes) :
    c.Within ⟨c.rbuf, c.rcurr + len, c.rbytes - len⟩ := by
  refine ⟨.refl _ _ _, Nat.le_add_right _ _, ?_⟩
  simp only
  omega

theorem readRound_confined (confines : side.Confines) {s s' : Reader α σ} {go : Bool}
    (h : readRound side behind s = .ok (go, s'))
    (inside : ∀ q, s.conn.rcurr = some q → lo ≤ q ∧ q + s.conn.rbytes ≤ hi) :
    s.conn.Confined lo hi s'.conn := by
  have hands : ∀ {t : Reader α σ} {obj : α}, s.conn.Confined lo hi t.conn →
      side.deliver t obj = .ok (go, s') → s.conn.Confined lo hi s'.conn := by
    intro t obj before delivered
    have same := confines.deliver _ _ _ _ delivered
    refine ⟨?_, same.rsize.trans before.size, ?_⟩
    · rw [same.rbuf]
      exact before.memory
    · rw [same.rcurr, same.rbytes]
      exact before.window
  cases readRound_moves h with
  | empty | waits | short => exact ⟨.refl _ _ _, rfl, inside⟩
  | whole c c' obj unread idle window head parsed delivered =>
      have within := confines.parse s.parses c
      rw [parsed] at within
      exact hands (within.confined window inside _) delivered
  | keeps c c' obj kept unread idle window head parsed copied =>
      have within := confines.parse s.parses c
      rw [parsed] at within
      exact within.confined window inside _
  | rejects c c' unread idle window head parsed =>
      have within := confines.parse s.parses c
      rw [parsed] at within
      exact within.confined window inside _
  | resumes c last unread pending window enough delivered =>
      rw [← window_rbytes window] at enough
      exact hands ((Window.within_body enough).confined window inside none) delivered

theorem readRounds_confined (confines : side.Confines) {fuel : Nat} {s s' : Reader α σ}
    (h : readRounds side behind fuel s = .ok s')
    (inside : ∀ q, s.conn.rcurr = some q → lo ≤ q ∧ q + s.conn.rbytes ≤ hi) :
    s.conn.Confined lo hi s'.conn := by
  induction fuel generalizing s with
  | zero => cases h
  | succ fuel ih =>
      unfold readRounds at h
      split at h
      · cases h
      · rename_i s₁ last
        cases h
        exact readRound_confined confines last inside
      · rename_i s₁ next
        have first := readRound_confined confines next inside
        exact first.trans (ih h first.window)

end Rounds

section Reading

variable {α : Type} {memcpy : Memcpy} {grow : Grow}

/-- The first bytes the answers bring. They end the run of `read_from_conn` unless they fill the
    buffer. -/
def firstData : List ReadResult → List Byte
  | .data bytes :: _ => bytes
  | .intr :: rest => firstData rest
  | .wouldBlock :: rest => firstData rest
  | _ => []

/-- The compacting `memcpy` of a read writes nothing but the bytes it copies to. -/
def CopiesInPlace (memcpy : Memcpy) (c : RpcConn α) : Prop :=
  ∀ q, c.rcurr = some q → SameOutside 0 c.rbytes c.rbuf (memcpy c.rbuf q c.rbytes)

theorem readLoop_spares {p : Nat} {reads rest : List ReadResult} {numAllocs : Nat} {value : Bool}
    {c c' : RpcConn α} (h : readLoop grow reads numAllocs c = .returned value c' rest)
    (block : c.rbuf.length = c.rsize) (start : c.rcurr = some 0)
    (small : c.rbytes + (firstData reads).length ≤ p) (inside : p < c.rsize) :
    c.Confined 0 p c' := by
  have stays : c.Confined 0 p c := by
    refine ⟨.refl _ _ _, rfl, fun q here => ?_⟩
    have first : 0 = q := Option.some_inj.mp (start.symm.trans here)
    omega
  have closed : c.Confined 0 p (rpcConnClose c) := ⟨.refl _ _ _, rfl, fun q here => by cases here⟩
  have room : makeRoom grow numAllocs c = some (numAllocs, c) :=
    makeRoom_room grow numAllocs (by omega)
  induction reads with
  | nil =>
      simp only [readLoop, room] at h
      cases h
  | cons r reads ih =>
      simp only [readLoop, room] at h
      cases r with
      | data bytes =>
          unfold firstData at small
          simp only at h
          rw [if_neg (by omega)] at h
          cases h
          refine ⟨(SameOutside.overwrite c.rbuf (by omega)).mono (Nat.zero_le _) small, rfl,
            fun q here => ?_⟩
          have first : 0 = q := Option.some_inj.mp (start.symm.trans here)
          simp only
          omega
      | eof =>
          cases h
          exact closed
      | intr => exact ih h small
      | wouldBlock => exact ih h small
      | fail =>
          cases h
          exact closed

/-- A read that brings no more than fits before `p` touches nothing from there on. -/
theorem readFromConn_spares {p : Nat} {reads rest : List ReadResult} {value : Bool}
    {c c' : RpcConn α} (h : readFromConn memcpy grow reads c = .returned value c' rest)
    (block : c.rbuf.length = c.rsize) (copies : CopiesInPlace memcpy c)
    (small : c.rbytes + (firstData reads).length ≤ p) (inside : p < c.rsize) :
    c.Confined 0 p c' := by
  unfold readFromConn at h
  split at h
  · cases h
  · rename_i c₁ compacted
    have first : c.Confined 0 p c₁ ∧ c₁.rcurr = some 0 ∧ c₁.rbytes = c.rbytes := by
      have window : ∀ q, some 0 = some q → 0 ≤ q ∧ q + c.rbytes ≤ p := by
        intro q here
        cases here
        omega
      unfold compact at compacted
      split at compacted
      · split at compacted
        · cases compacted
          exact ⟨⟨.refl _ _ _, rfl, window⟩, rfl, rfl⟩
        · cases compacted
      · rename_i here
        cases compacted
        exact ⟨⟨.refl _ _ _, rfl, here ▸ window⟩, here, rfl⟩
      · rename_i q _ here
        cases compacted
        refine ⟨⟨?_, rfl, window⟩, rfl, rfl⟩
        simp only
        split
        · exact .refl _ _ _
        · exact (copies _ here).mono (Nat.le_refl _) (by omega)
    obtain ⟨confined, start, bytes⟩ := first
    refine confined.trans (readLoop_spares h ?_ start (by omega) (by rw [confined.size]; exact inside))
    rw [confined.memory.length, block, confined.size]

end Reading

theorem readRounds_fits {α σ : Type} {side : ReadSide α σ} (confines : side.Confines) {behind : Byte}
    {fuel : Nat} {s s' : Reader α σ} (h : readRounds side behind fuel s = .ok s')
    (fits : s.conn.Fits) : s'.conn.Fits :=
  (readRounds_confined confines h fits.inside).fits fits

/-- The unread bytes of a connection stay in its block, whatever its callback is run on. -/
theorem cbRead_fits {α σ : Type} {side : ReadSide α σ} (confines : side.Confines) {env : ReadEnv}
    (keeps : env.KeepsBlocks) {reads : List ReadResult} {s s' : Reader α σ}
    (h : cbRead side env reads s = .ok s') (fits : s.conn.Fits)
    (answers : AnswersFit env.grow reads 0 s.conn) : s'.conn.Fits := by
  unfold cbRead at h
  split at h
  · cases h
  · cases h
  · rename_i conn rest returned
    cases h
    exact (readFromConn_started keeps.memcpy keeps.grow returned fits answers).1.fits
  · rename_i conn rest returned
    exact readRounds_fits confines h
      (readFromConn_started keeps.memcpy keeps.grow returned fits answers).1.fits

theorem rspSide_confines (env : ClientEnv) : (rspSide env).Confines where
  parse := fun k _ => rpcResponseParse_within (env.objs k) (env.stale k)
  deliver := by
    intro s rsp go s' delivered
    simp only [rspSide, deliverResponse] at delivered
    repeat' split at delivered
    all_goals cases delivered
    all_goals exact .refl _

section Caller

variable {env : ClientEnv}

/-- A run of `cb_rsp_read` on the answers of the socket. -/
def rspStep (env : ClientEnv) : Step ClientReader (List ReadResult) :=
  fun s reads => (cbRspRead env reads s).toOption

/-- What the caller of `rpc_client_call` holds: the pointer `p` into a block of `size` bytes still leads
    to `output`. A block that has been through `realloc` is another one. -/
def OutputIntact (size p : Nat) (output : List Byte) (s : ClientReader) : Prop :=
  output = [] ∨ (s.conn.rsize = size ∧ slice s.conn.rbuf p output.length = output)

/-- What a run finds unread and reads is stored before `p`. -/
def Spares (env : ClientEnv) (p : Nat) (output : List Byte) (s : ClientReader)
    (reads : List ReadResult) : Prop :=
  output = [] ∨
    (CopiesInPlace env.memcpy s.conn ∧ s.conn.rbytes + (firstData reads).length ≤ p)

/-- The output is there, and what is unread lies before or behind it. -/
structure KeepsOutput (size p : Nat) (output : List Byte) (s : ClientReader) : Prop where
  block : s.conn.rbuf.length = s.conn.rsize
  kept : s.conn.rsize = size
  inside : p + output.length ≤ size
  bytes : slice s.conn.rbuf p output.length = output
  apart : ∀ q, s.conn.rcurr = some q →
    q + s.conn.rbytes ≤ p ∨ (p + output.length ≤ q ∧ q + s.conn.rbytes ≤ size)

theorem taken_output {s t : ClientReader} {rsp : RpcResponse}
    (taken : (rspSide env).taken env.behind s = some (rsp, t)) (fits : s.conn.Fits) :
    ∃ p, rsp.output = .rbuf p ∧ t.conn.rcurr = some (p + rsp.outputLen) ∧ t.conn.Fits := by
  have moves : ∀ {c c' : Window} (kept : Option RpcResponse), s.conn.window? = some c → c.Within c' →
      ({ s.conn.setWindow c' with unprocessData := kept } : RpcConn RpcResponse).Fits :=
    fun kept window within => (within.confined window fits.inside kept).fits fits
  unfold ReadSide.taken at taken
  split at taken
  · cases taken
  · rename_i c window
    have same := window_rbytes window
    split at taken
    · split at taken
      · split at taken
        · rename_i obj c' parsed
          have within := rpcResponseParse_within (c := c) (env.objs s.parses) (env.stale s.parses)
          simp only [rspSide] at parsed
          rw [parsed] at within
          obtain ⟨p, output, stop⟩ := rpcResponseParse_output parsed
          cases taken
          exact ⟨p, output, by simp only [RpcConn.setWindow, stop],
            moves (s.conn.setWindow c').unprocessData window within⟩
        · cases taken
      · cases taken
    · rename_i last pending
      split at taken
      · rename_i enough
        unfold rspSide at enough
        cases taken
        rw [← same] at enough
        exact ⟨c.rcurr, rfl, rfl, moves none window (Window.within_body enough)⟩
      · cases taken

theorem rspStep_keepsOutput {size p : Nat} {output : List Byte} (some_bytes : output ≠ [])
    {s s' : ClientReader} {reads : List ReadResult} (spares : Spares env p output s reads)
    (step : rspStep env s reads = some s') (keeps : KeepsOutput size p output s) :
    KeepsOutput size p output s' := by
  obtain ⟨copies, small⟩ := spares.resolve_left some_bytes
  have positive := List.length_pos_of_ne_nil some_bytes
  have before : s.conn.Confined 0 p s'.conn → KeepsOutput size p output s' := by
    intro confined
    refine ⟨?_, confined.size.trans keeps.kept, keeps.inside, ?_, fun q here => ?_⟩
    · rw [confined.memory.length, keeps.block, confined.size]
    · rw [confined.memory.slice (.inr (Nat.le_refl p)), keeps.bytes]
    · exact .inl (confined.window q here).2
  have inside : p < s.conn.rsize := by
    rw [keeps.kept]
    have stop := keeps.inside
    omega
  apply before
  have ran : cbRead (rspSide env) env.toReadEnv reads s = .ok s' := by
    simp only [rspStep, cbRspRead] at step
    cases result : cbRead (rspSide env) env.toReadEnv reads s with
    | error stop =>
        rw [result] at step
        cases step
    | ok s₁ =>
        rw [result] at step
        cases step
        rfl
  unfold cbRead at ran
  split at ran
  · cases ran
  · cases ran
  · rename_i conn rest returned
    cases ran
    exact readFromConn_spares returned keeps.block copies small inside
  · rename_i conn rest returned
    have read := readFromConn_spares returned keeps.block copies small inside
    exact read.trans (readRounds_confined (rspSide_confines env) ran read.window)

/-- The caller's output over all later runs of `cb_rsp_read`, from the round that handed it to `cb_call`
    and the rest of its run on. -/
theorem rpcClientCall_output {s s₁ s₂ : ClientReader} {fuel : Nat} (fits : s.conn.Fits)
    (round : readRound (rspSide env) env.behind s = .ok (true, s₁))
    (rest : readRounds (rspSide env) env.behind fuel s₁ = .ok s₂) :
    ∃ rsp t p output, (rspSide env).taken env.behind s = some (rsp, t) ∧
      deliverResponse env t rsp = .ok (true, s₁) ∧ rsp.output = .rbuf p ∧
      output = slice t.conn.rbuf p rsp.outputLen ∧
      ∀ runs, Along (rspStep env) (Spares env p output) s₂ runs →
        Always (rspStep env) (OutputIntact t.conn.rsize p output) s₂ runs := by
  obtain ⟨rsp, t, taken, delivered⟩ := readRound_taken round
  obtain ⟨p, output, window, fits'⟩ := taken_output taken fits
  refine ⟨rsp, t, p, _, taken, delivered, output, rfl, fun runs along => ?_⟩
  by_cases none_sent : slice t.conn.rbuf p rsp.outputLen = []
  · have nothing : ∀ runs s, Always (rspStep env)
        (OutputIntact t.conn.rsize p (slice t.conn.rbuf p rsp.outputLen)) s runs := by
      intro runs
      induction runs with
      | nil => exact fun s => .inl none_sent
      | cons reads runs ih => exact fun s => ⟨.inl none_sent, fun s' _ => ih s'⟩
    exact nothing runs s₂
  · have inside := fits'.window _ window
    have stop : (slice t.conn.rbuf p rsp.outputLen).length = rsp.outputLen :=
      slice_length (by rw [fits'.block]; omega)
    have same := (rspSide_confines env).deliver _ _ _ _ delivered
    -- the rest of the run parses behind the body
    have behind : t.conn.Confined (p + rsp.outputLen) t.conn.rsize s₂.conn := by
      have handed : t.conn.Confined (p + rsp.outputLen) t.conn.rsize s₁.conn := by
        refine ⟨?_, same.rsize, fun q here => ?_⟩
        · rw [same.rbuf]
          exact .refl _ _ _
        · rw [same.rcurr, window] at here
          cases here
          rw [same.rbytes]
          exact ⟨Nat.le_refl _, inside⟩
      exact handed.trans (readRounds_confined (rspSide_confines env) rest handed.window)
    refine always_of_along (fun s keeps => .inr ⟨keeps.kept, keeps.bytes⟩)
      (fun s reads s' spares step => rspStep_keepsOutput none_sent spares step) along ?_
    refine ⟨?_, behind.size, ?_, ?_, fun q here => .inr ?_⟩
    · rw [behind.memory.length, fits'.block, behind.size]
    · rw [stop]
      omega
    · rw [stop, behind.memory.slice (.inl (Nat.le_refl _))]
    · rw [stop]
      exact behind.window q here

end Caller

/-- What a server sends for a call that went well. -/
def answerText (seq : Int) (body : List Byte) : List Byte :=
  (responseEntries errCodes 200 seq (some body) body.length).flatten

/-- A new client connection that has read the text of one answer. -/
def answeredClient : ClientReader :=
  let s := clientConn (allocConn (List.replicate BUFFER_SIZE nul) []) 3 0 0
  let first := answerText 1 [110]
  { s with conn := { s.conn with rbuf := overwrite s.conn.rbuf 0 first, rbytes := first.length } }

theorem answeredClient_fits : answeredClient.conn.Fits := by
  refine ⟨by decide +kernel, fun q here => ?_⟩
  cases here
  decide

theorem answeredClient_round : ∃ s₁,
    readRound (rspSide openCalls) openCalls.behind answeredClient = .ok (true, s₁) ∧
      readRounds (rspSide openCalls) openCalls.behind 1 s₁ = .ok s₁ ∧ s₁.conn.rbytes = 0 := by
  have handed : ((readRound (rspSide openCalls) openCalls.behind answeredClient).toOption.map
      fun next => (next.1, next.2.conn.rbytes)) = some (true, 0) := by decide
  obtain ⟨⟨go, s₁⟩, round, shape⟩ := returned_of_computed handed
  obtain ⟨rfl, bytes⟩ := Prod.mk.inj shape
  refine ⟨s₁, round, ?_, bytes⟩
  simp only [readRounds, readRound]
  rw [if_pos bytes]

theorem answeredClient_taken {rsp : RpcResponse} {t : ClientReader} {p : Nat}
    (taken : (rspSide openCalls).taken openCalls.behind answeredClient = some (rsp, t))
    (output : rsp.output = .rbuf p) :
    p = 33 ∧ rsp.outputLen = 1 ∧ slice t.conn.rbuf 33 1 = [110] := by
  have computed : (((rspSide openCalls).taken openCalls.behind answeredClient).map fun handed =>
      (handed.1.output, handed.1.outputLen, slice handed.2.conn.rbuf 33 1)) =
        some (.rbuf 33, 1, [110]) := by decide
  rw [taken] at computed
  simp only [Option.map_some, Option.some.injEq, Prod.mk.injEq, output, CharPtr.rbuf.injEq] at computed
  exact computed

/-- A later run that only brings the first bytes of the next answer. -/
theorem rpcClientCall_output_small : ∃ s₁ t : ClientReader,
    readRound (rspSide openCalls) openCalls.behind answeredClient = .ok (true, s₁) ∧
      Always (rspStep openCalls) (OutputIntact t.conn.rsize 33 [110]) s₁
        [[.data ((answerText 2 [121]).take 20)]] := by
  obtain ⟨s₁, round, rest, bytes⟩ := answeredClient_round
  obtain ⟨rsp, t, p, output, taken, -, pointer, read, kept⟩ :=
    rpcClientCall_output answeredClient_fits round rest
  obtain ⟨rfl, len, content⟩ := answeredClient_taken taken pointer
  rw [len, content] at read
  subst read
  refine ⟨s₁, t, round, kept [[.data ((answerText 2 [121]).take 20)]] fun s' _ =>
    ⟨.inr ⟨fun q _ => ?_, ?_⟩, trivial⟩⟩
  · rw [bytes]
    exact .refl 0 0 _
  · rw [bytes]
    decide

/-- The next answer, read in a later run, is as long as the first one: its body is now what the caller
    of the first call finds. -/
theorem rpcClientCall_output_fails : ∃ s₁ rsp t p output,
    readRound (rspSide openCalls) openCalls.behind answeredClient = .ok (true, s₁) ∧
      readRounds (rspSide openCalls) openCalls.behind 1 s₁ = .ok s₁ ∧
      (rspSide openCalls).taken openCalls.behind answeredClient = some (rsp, t) ∧
      deliverResponse openCalls t rsp = .ok (true, s₁) ∧ rsp.output = .rbuf p ∧
      output = slice t.conn.rbuf p rsp.outputLen ∧
      ¬Always (rspStep openCalls) (OutputIntact t.conn.rsize p output) s₁
        [[.data (answerText 2 [121])]] := by
  obtain ⟨s₁, round, rest, -⟩ := answeredClient_round
  obtain ⟨rsp, t, taken, delivered⟩ := readRound_taken round
  obtain ⟨p, pointer, -, -⟩ := taken_output taken answeredClient_fits
  obtain ⟨rfl, len, content⟩ := answeredClient_taken taken pointer
  refine ⟨s₁, rsp, t, 33, [110], round, rest, taken, delivered, pointer, by rw [len, content], ?_⟩
  rintro ⟨-, later⟩
  have computed : (((readRound (rspSide openCalls) openCalls.behind answeredClient).toOption.bind
      fun next => rspStep openCalls next.2 [.data (answerText 2 [121])]).map
        fun s => slice s.conn.rbuf 33 1) = some [121] := by decide
  rw [round] at computed
  obtain ⟨s', step, bytes⟩ := Option.map_eq_some_iff.mp computed
  cases later s' step with
  | inl none_sent => cases none_sent
  | inr intact => cases intact.2.symm.trans bytes

end OpenRpc
