import OpenRpc.Client
import OpenRpc.Streams
import OpenRpc.Lines

/-! # A message that arrives in parts

When the body is not there yet, the callbacks copy the head and take the body later, by code of their
own. Here that path is compared with the other one: what is handed over is what a single parse of all
the bytes received so far would return, and it is handed over when that parse would return it.
-/

namespace OpenRpc

open Memory Decimal

/-- The parsers find three words on the first line. -/
def ThreeWords (c : Window) : Prop :=
  ∃ line, lineAt c = some line ∧ (tokenizeCommand line.rbuf c.rcurr 3).1.length = 3

/-- Two requests, each with its own buffer, say the same. -/
structure RpcRequest.Agrees (mem : List Byte) (req : RpcRequest) (mem' : List Byte)
    (req' : RpcRequest) : Prop where
  methodName : ∃ w, req.methodName.read mem = some w ∧ req'.methodName.read mem' = some w
  serviceName : ∃ w, req.serviceName.read mem = some w ∧ req'.serviceName.read mem' = some w
  rpcVersion : ∃ w, req.rpcVersion.read mem = some w ∧ req'.rpcVersion.read mem' = some w
  seq : req.seq = req'.seq
  inputLen : req.inputLen = req'.inputLen
  input : req.input.bytes mem req.inputLen = req'.input.bytes mem' req'.inputLen

structure RpcResponse.Agrees (mem : List Byte) (rsp : RpcResponse) (mem' : List Byte)
    (rsp' : RpcResponse) : Prop where
  code : rsp.code = rsp'.code
  phrase : ∃ w, rsp.phrase.read mem = some w ∧ rsp'.phrase.read mem' = some w
  seq : rsp.seq = rsp'.seq
  outputLen : rsp.outputLen = rsp'.outputLen
  output : rsp.output.bytes mem rsp.outputLen = rsp'.output.bytes mem' rsp'.outputLen

section Runs

variable {α σ ι : Type}

/-- These reads of one run leave a piece more behind what is unread. -/
def Appends (env : ReadEnv) (reads : List ReadResult) (c : RpcConn α) (piece : List Byte) : Prop :=
  ∃ c' rest, readFromConn env.memcpy env.grow reads c = .returned true c' rest ∧
    c'.unprocessData = c.unprocessData ∧
    ∀ pre unread post, c.Holds pre unread post → ∃ pre' post', c'.Holds pre' (unread ++ piece) post'

/-- Runs of the callback one after the other, each of which reads a piece of the stream. -/
inductive Arrives (side : ReadSide α σ) (env : ReadEnv) (s : Reader α σ) :
    List Byte → Reader α σ → Prop where
  | start : Arrives side env s [] s
  | run {bytes piece : List Byte} {reads : List ReadResult} {s₁ s₂ : Reader α σ}
      (before : Arrives side env s bytes s₁) (appends : Appends env reads s₁.conn piece)
      (ran : cbRead side env reads s₁ = .ok s₂) : Arrives side env s (bytes ++ piece) s₂

/-- What the loop of a callback makes of the outcome of a delivery. -/
def afterDelivery (side : ReadSide α σ) (behind : Byte) (fuel : Nat) :
    Except Stop (Bool × Reader α σ) → Except Stop (Reader α σ)
  | .error stop => .error stop
  | .ok (false, s) => .ok s
  | .ok (true, s) => readRounds side behind fuel s

/-- From the kept head `kept` of the unread bytes `seg` on: nothing is handed over as long as one parse
    of all the bytes received would not return a message. In the run in which it would, that very
    message is handed over, with the same bytes left unread, and is then kept no longer. -/
def ResumesLikeOneShot (side : ReadSide α σ) (env : ReadEnv)
    (parse : ι → Window → ParseResult α × Window) (Agrees : List Byte → α → List Byte → α → Prop)
    (seg : List Byte) (kept : α) (s : Reader α σ) : Prop :=
  ∀ bytes s₁, Arrives side env s bytes s₁ →
    (∀ i pre post obj c, parse i (.frame pre (seg ++ bytes) post) ≠ (.ok obj, c)) →
    (s₁.log = s.log ∧ s₁.parses = s.parses ∧ s₁.conn.unprocessData = some kept) ∧
    ∀ reads piece, Appends env reads s₁.conn piece → ∀ i pre post,
      ((∀ obj c, parse i (.frame pre (seg ++ (bytes ++ piece)) post) ≠ (.ok obj, c)) →
        ∃ s₂, cbRead side env reads s₁ = .ok s₂ ∧ s₂.log = s.log ∧
          s₂.conn.unprocessData = some kept) ∧
      ∀ obj c, parse i (.frame pre (seg ++ (bytes ++ piece)) post) = (.ok obj, c) →
        ∃ s₂ w msg fuel, cbRead side env reads s₁ =
            afterDelivery side env.behind fuel (side.deliver s₂ msg) ∧
          s₂.log = s.log ∧ s₂.parses = s.parses ∧ s₂.conn.unprocessData = none ∧
          s₂.conn.window? = some w ∧ w.unread = c.unread ∧ Agrees w.rbuf msg c.rbuf obj

/-- What makes it so: the head ends where `tail` begins, and the rest of a parse is counting. -/
structure Resumes (side : ReadSide α σ) (parse : ι → Window → ParseResult α × Window)
    (Agrees : List Byte → α → List Byte → α → Prop) (seg tail : List Byte) (kept : α) : Prop where
  missing : tail.length < side.bodyLen kept
  part : ∀ i more pre post, (tail ++ more).length < side.bodyLen kept →
    ∃ obj c, parse i (.frame pre (seg ++ more) post) = (.needData obj, c)
  whole : ∀ i more pre post, side.bodyLen kept ≤ (tail ++ more).length →
    ∃ obj c, parse i (.frame pre (seg ++ more) post) = (.ok obj, c) ∧
      c.unread = (tail ++ more).drop (side.bodyLen kept) ∧
      ∀ pre' post', Agrees (pre' ++ (tail ++ more) ++ post')
        (side.withBody kept (.rbuf pre'.length)) c.rbuf obj

section Pending

variable {side : ReadSide α σ} {env : ReadEnv} {kept : α} {tail : List Byte} {s : Reader α σ}

theorem cbRead_short (side : ReadSide α σ) {s₁ : Reader α σ} {pre unread post piece : List Byte}
    {reads : List ReadResult}
    (pending : s₁.conn.unprocessData = some kept) (holds : s₁.conn.Holds pre unread post)
    (appends : Appends env reads s₁.conn piece)
    (missing : (unread ++ piece).length < side.bodyLen kept) :
    ∃ c, cbRead side env reads s₁ = .ok { s₁ with conn := c } ∧ c.unprocessData = some kept ∧
      ∃ pre' post', c.Holds pre' (unread ++ piece) post' := by
  obtain ⟨c, rest, read, keeps, grows⟩ := appends
  obtain ⟨pre', post', holds'⟩ := grows pre unread post holds
  refine ⟨c, ?_, keeps.trans pending, pre', post', holds'⟩
  have bytes := holds'.rbytes
  simp only [cbRead, read, readRounds, readRound, keeps.trans pending]
  by_cases empty : c.rbytes = 0
  · rw [if_pos empty]
  · rw [if_neg empty, if_neg (by omega)]

/-- The reader when the kept message is taken from its connection, `len` bytes of body at `p`. -/
def Reader.taken (s : Reader α σ) (c : RpcConn α) (p len : Nat) : Reader α σ :=
  { s with conn := RpcConn.setWindow { c with unprocessData := none } ⟨c.rbuf, p + len, c.rbytes - len⟩ }

theorem cbRead_completes {s₁ : Reader α σ} {pre unread post piece : List Byte}
    {reads : List ReadResult} (pending : s₁.conn.unprocessData = some kept)
    (holds : s₁.conn.Holds pre unread post) (appends : Appends env reads s₁.conn piece)
    (announced : 0 < side.bodyLen kept) (enough : side.bodyLen kept ≤ (unread ++ piece).length) :
    ∃ (c : RpcConn α) (pre' post' : List Byte) (fuel : Nat),
      c.Holds pre' (unread ++ piece) post' ∧
      cbRead side env reads s₁ = afterDelivery side env.behind fuel
        (side.deliver (s₁.taken c pre'.length (side.bodyLen kept))
          (side.withBody kept (.rbuf pre'.length))) := by
  obtain ⟨c, rest, read, keeps, grows⟩ := appends
  obtain ⟨pre', post', holds'⟩ := grows pre unread post holds
  have bytes := holds'.rbytes
  refine ⟨c, pre', post', c.rbytes + 1, holds', ?_⟩
  simp only [cbRead, read, readRounds, readRound, keeps.trans pending, ReadSide.hand,
    RpcConn.window?, holds'.rcurr, Option.map_some]
  rw [if_neg (by omega), if_pos (by omega)]
  rfl

/-- By induction on the runs: short of the body nothing but the buffer changes. -/
theorem Arrives.pending {pre post bytes : List Byte} {s₁ : Reader α σ}
    (start : s.conn.unprocessData = some kept) (holds : s.conn.Holds pre tail post)
    (arrives : Arrives side env s bytes s₁) (missing : (tail ++ bytes).length < side.bodyLen kept) :
    s₁.log = s.log ∧ s₁.parses = s.parses ∧ s₁.conn.unprocessData = some kept ∧
      ∃ pre' post', s₁.conn.Holds pre' (tail ++ bytes) post' := by
  induction arrives with
  | start => exact ⟨rfl, rfl, start, pre, post, by rwa [List.append_nil]⟩
  | @run bytes piece reads s₁ s₂ before appends ran ih =>
      simp only [List.length_append] at missing
      obtain ⟨log, parses, kept₁, pre₁, post₁, holds₁⟩ :=
        ih (by simp only [List.length_append]; omega)
      obtain ⟨c, short, kept₂, pre₂, post₂, holds₂⟩ := cbRead_short side kept₁ holds₁ appends
        (by simp only [List.length_append]; omega)
      rw [short] at ran
      cases ran
      exact ⟨log, parses, kept₂, pre₂, post₂, by rwa [List.append_assoc] at holds₂⟩

theorem Resumes.like_oneShot {parse : ι → Window → ParseResult α × Window}
    {Agrees : List Byte → α → List Byte → α → Prop} {seg pre post : List Byte} (some_way : ι)
    (resumes : Resumes side parse Agrees seg tail kept)
    (start : s.conn.unprocessData = some kept) (holds : s.conn.Holds pre tail post) :
    ResumesLikeOneShot side env parse Agrees seg kept s := by
  intro bytes s₁ arrives never
  have missing : (tail ++ bytes).length < side.bodyLen kept := by
    by_contra enough
    obtain ⟨obj, c, parsed, -⟩ := resumes.whole some_way bytes [] [] (by omega)
    exact never _ _ _ _ _ parsed
  obtain ⟨log, parses, kept₁, pre₁, post₁, holds₁⟩ := arrives.pending start holds missing
  refine ⟨⟨log, parses, kept₁⟩, fun reads piece appends i pre' post' => ⟨fun notYet => ?_, ?_⟩⟩
  · have short : (tail ++ bytes ++ piece).length < side.bodyLen kept := by
      by_contra enough
      rw [List.append_assoc] at enough
      obtain ⟨obj, c, parsed, -⟩ := resumes.whole i (bytes ++ piece) pre' post' (by omega)
      exact notYet _ _ parsed
    obtain ⟨c, ran, kept₂, -⟩ := cbRead_short side kept₁ holds₁ appends short
    exact ⟨_, ran, log, kept₂⟩
  · intro obj c parsed
    have enough : side.bodyLen kept ≤ (tail ++ (bytes ++ piece)).length := by
      by_contra short
      obtain ⟨obj', c', needs⟩ := resumes.part i (bytes ++ piece) pre' post' (by omega)
      rw [needs] at parsed
      cases parsed
    obtain ⟨obj', c', parsed', unread, agrees⟩ := resumes.whole i (bytes ++ piece) pre' post' enough
    rw [parsed'] at parsed
    cases parsed
    have announced := Nat.lt_of_le_of_lt (Nat.zero_le _) resumes.missing
    obtain ⟨conn, pre₂, post₂, fuel, holds₂, ran⟩ := cbRead_completes kept₁ holds₁ appends announced
      (by rwa [List.append_assoc])
    rw [List.append_assoc] at holds₂
    let left : Window := ⟨conn.rbuf, pre₂.length + side.bodyLen kept, conn.rbytes - side.bodyLen kept⟩
    refine ⟨_, left, _, fuel, ran, log, parses, rfl, rfl, ?_, ?_⟩
    · rw [unread]
      simp only [left, Window.unread, holds₂.rbuf, holds₂.rbytes, slice]
      rw [← List.drop_drop, List.append_assoc, List.drop_left,
        List.drop_append_of_le_length enough, List.take_left' List.length_drop]
    · simp only [left, holds₂.rbuf]
      exact agrees pre₂ post₂

end Pending

end Runs

/-- More bytes behind the lines. -/
def Rows.append (r : Rows) (more : List Byte) : Rows := { r with behind := r.behind ++ more }

theorem Rows.append_text (r : Rows) (more : List Byte) : (r.append more).text = r.text ++ more := by
  simp [Rows.append, Rows.text]

@[simp] theorem Rows.append_behind (r : Rows) (more : List Byte) :
    (r.append more).behind = r.behind ++ more := rfl

@[simp] theorem Rows.append_spent (r : Rows) (more : List Byte) : (r.append more).spent = r.spent := rfl

theorem Rows.Scans.append {r : Rows} {seq len : Int} (scans : r.Scans seq len) (more : List Byte) :
    (r.append more).Scans seq len :=
  ⟨scans.seqOne, scans.seq, scans.lenOne, scans.len, scans.empty⟩

theorem ThreeWords.split {pre seg post : List Byte} (three : ThreeWords (.frame pre seg post)) :
    ∃ l rest w₁ w₂ w₃ more, newline ∉ l ∧ seg = l ++ newline :: rest ∧
      wordsOf (lineContent l) = w₁ :: w₂ :: w₃ :: more := by
  obtain ⟨line, found, tokens⟩ := three
  obtain ⟨l, rest, one, rfl⟩ := lineAt_split found
  obtain ⟨mem, terminated, cut⟩ := firstLine_cut one pre rest post
  rw [terminated] at found
  cases found
  rw [show tokenizeCommand mem pre.length 3 = _ from cut, List.length_map, lineTokens_length] at tokens
  generalize split : wordsOf (lineContent l) = words at tokens
  rcases words with _ | ⟨w₁, _ | ⟨w₂, _ | ⟨w₃, more⟩⟩⟩
  · simp at tokens
  · simp at tokens
  · simp at tokens
  · exact ⟨l, rest, w₁, w₂, w₃, more, one, rfl, split⟩

/-- What is behind the pointer of a resumed body, and of one taken at once. -/
theorem body_bytes (pre mid post : List Byte) {len : Nat} (enough : len ≤ mid.length) :
    slice (pre ++ mid ++ post) pre.length len = mid.take len := by
  rw [slice, List.append_assoc, List.drop_left, List.take_append_of_le_length enough]

theorem left_unread (pre mid post : List Byte) {len : Nat} (enough : len ≤ mid.length) :
    slice (pre ++ mid ++ post) (pre.length + len) (mid.length - len) = mid.drop len := by
  rw [slice, ← List.drop_drop, List.append_assoc, List.drop_left,
    List.drop_append_of_le_length enough, List.take_left' List.length_drop]

/-- A parser that only compares what is behind the head with a number resumes as it parses at once. -/
theorem resumes_of_lines {α σ ι : Type} {side : ReadSide α σ}
    {parse : ι → Window → ParseResult α × Window} {Agrees : List Byte → α → List Byte → α → Prop}
    {seg spent tail : List Byte} {kept : α} {n : Nat} (whole part : List Byte → α)
    (announced : side.bodyLen kept = n) (missing : tail.length < n)
    (parsed : ∀ i more pre post, parse i (.frame pre (seg ++ more) post) =
      if n ≤ (tail ++ more).length then
        (.ok (whole pre), ⟨pre ++ spent ++ (tail ++ more) ++ post, (pre ++ spent).length + n,
          (tail ++ more).length - n⟩)
      else (.needData (part pre), .frame (pre ++ spent) (tail ++ more) post))
    (agrees : ∀ more pre post pre' post', n ≤ (tail ++ more).length →
      Agrees (pre' ++ (tail ++ more) ++ post') (side.withBody kept (.rbuf pre'.length))
        (pre ++ spent ++ (tail ++ more) ++ post) (whole pre)) :
    Resumes side parse Agrees seg tail kept := by
  refine ⟨by rwa [announced], ?_, ?_⟩
  · intro i more pre post short
    rw [announced] at short
    exact ⟨_, _, by rw [parsed, if_neg (Nat.not_le.mpr short)]⟩
  · intro i more pre post enough
    rw [announced] at enough ⊢
    have taken := parsed i more pre post
    rw [if_pos enough] at taken
    refine ⟨_, _, taken, left_unread _ _ post enough, ?_⟩
    exact fun pre' post' => agrees more pre post pre' post' enough

theorem spent_read {spent w : List Byte} {p : Nat} (here : cstring spent p = some w)
    (pre rows behind : List Byte) :
    cstring (pre ++ (spent ++ rows) ++ behind) (pre.length + p) = some w := by
  have layout : pre ++ (spent ++ rows) ++ behind = pre ++ spent ++ (rows ++ behind) := by simp
  rw [layout]
  exact cstring_inside here pre _

theorem rpcRequestParse_needs {stale : Nat → CharPtr} {pre seg post : List Byte} {obj : RpcRequest}
    {c : Window} (three : ThreeWords (.frame pre seg post))
    (needs : rpcRequestParse .zeroed stale (.frame pre seg post) = (.needData obj, c)) :
    ∃ (l spent : List Byte) (method service version : Nat) (r : Rows) (seq len : Int),
      RequestNames l spent method service version ∧ r.Scans seq len ∧ seg = l ++ newline :: r.text := by
  obtain ⟨l, rest, w₁, w₂, w₃, more, one, rfl, words⟩ := three.split
  unfold rpcRequestParse at needs
  split at needs
  · rename_i request c₁ accepted
    have named : atSign ∈ w₂ := by
      obtain ⟨-, target, second, member⟩ :=
        (requestLine_accepts one stale pre rest post .zeroed).mp ⟨_, _, accepted⟩
      simp only [wordAt, words, List.getElem?_cons_succ, List.getElem?_cons_zero,
        Option.some.injEq] at second
      rwa [second]
    obtain ⟨spent, method, service, version, names⟩ := requestLine_names one words named
    rw [names.reads] at accepted
    cases accepted
    split at needs
    · cases needs
    · rename_i seq len c₂ scanned
      obtain ⟨r, seq, len, rfl, scans⟩ := parseRest_accepts (by rw [scanned]; simp)
      exact ⟨l, spent, method, service, version, r, seq, len, names, scans, rfl⟩
    · cases needs
  · exact absurd needs (requestLine_never_needData _ _ _ _ _)

/-- A request whose body is not there yet is kept, and stands for one parse of everything. -/
theorem rpcRequestParse_resumes {stale : Nat → CharPtr} {pre seg post : List Byte} {obj : RpcRequest}
    {c : Window} (three : ThreeWords (.frame pre seg post))
    (needs : rpcRequestParse .zeroed stale (.frame pre seg post) = (.needData obj, c)) :
    ∃ spent tail kept, c = .frame (pre ++ spent) tail post ∧
      spent.length + tail.length = seg.length ∧
      rpcRequestCopyHead c.rbuf .zeroed obj = some kept ∧
      ∀ side : ReadSide RpcRequest (List Handed), side.bodyLen = RpcRequest.inputLen →
        side.withBody = (fun req p => { req with input := p }) →
        Resumes side (fun stale => rpcRequestParse .zeroed stale) RpcRequest.Agrees seg tail kept := by
  obtain ⟨l, spent, method, service, version, r, seq, len, names, scans, rfl⟩ :=
    rpcRequestParse_needs three needs
  obtain ⟨m, methodName⟩ := names.methodName
  obtain ⟨s, serviceName⟩ := names.serviceName
  obtain ⟨v, rpcVersion⟩ := names.rpcVersion
  have parsed := fun (stale : Nat → CharPtr) (more pre post : List Byte) =>
    rpcRequestParse_lines names (scans.append more) .zeroed stale pre post
  simp only [Rows.append_text, Rows.append_behind, Rows.append_spent] at parsed
  rw [rpcRequestParse_lines names scans] at needs
  simp only at needs
  generalize storeInt RpcRequest.zeroed.inputLen len = n at needs parsed
  split at needs
  · cases needs
  · rename_i short
    cases needs
    let kept : RpcRequest := { RpcRequest.zeroed with
      serviceName := .heap s, methodName := .heap m, rpcVersion := .heap v, inputLen := n, seq := seq }
    have length : (spent ++ r.spent).length + r.behind.length = (l ++ newline :: r.text).length := by
      have rows := r.spent_length
      have first := names.length
      simp only [List.length_append, List.length_cons]
      omega
    refine ⟨spent ++ r.spent, r.behind, kept, rfl, length, ?_, fun side bodyLen withBody => ?_⟩
    · simp only [rpcRequestCopyHead, CharPtr.read, List.append_assoc _ r.behind post]
      rw [spent_read serviceName, spent_read methodName, spent_read rpcVersion]
    · refine resumes_of_lines _ _ (by rw [bodyLen]) (Nat.lt_of_not_le short)
        (fun stale more pre post => by
          rw [List.append_assoc, List.cons_append]
          exact parsed stale more pre post) ?_
      intro more pre post pre' post' enough
      rw [withBody]
      refine ⟨⟨m, rfl, ?_⟩, ⟨s, rfl, ?_⟩, ⟨v, rfl, ?_⟩, rfl, rfl, ?_⟩
      · simpa only [CharPtr.read, List.append_assoc] using spent_read methodName pre r.spent _
      · simpa only [CharPtr.read, List.append_assoc] using spent_read serviceName pre r.spent _
      · simpa only [CharPtr.read, List.append_assoc] using spent_read rpcVersion pre r.spent _
      · exact (body_bytes pre' _ post' enough).trans (body_bytes _ _ post enough).symm

theorem rpcResponseParse_needs {stale : Nat → CharPtr} {pre seg post : List Byte} {obj : RpcResponse}
    {c : Window} (three : ThreeWords (.frame pre seg post))
    (needs : rpcResponseParse .zeroed stale (.frame pre seg post) = (.needData obj, c)) :
    ∃ (l spent : List Byte) (code : Int) (phrase : Nat) (r : Rows) (seq len : Int),
      StatusNames l spent code phrase ∧ r.Scans seq len ∧ seg = l ++ newline :: r.text := by
  obtain ⟨l, rest, w₁, w₂, w₃, more, one, rfl, words⟩ := three.split
  obtain ⟨spent, phrase, names⟩ := statusLine_names one words
  simp only [rpcResponseParse, names.reads] at needs
  split at needs
  · cases needs
  · rename_i seq len c₂ scanned
    obtain ⟨r, seq, len, rfl, scans⟩ := parseRest_accepts (by rw [scanned]; simp)
    exact ⟨l, spent, _, phrase, r, seq, len, names, scans, rfl⟩
  · cases needs

theorem rpcResponseParse_resumes {stale : Nat → CharPtr} {pre seg post : List Byte}
    {obj : RpcResponse} {c : Window} (three : ThreeWords (.frame pre seg post))
    (needs : rpcResponseParse .zeroed stale (.frame pre seg post) = (.needData obj, c)) :
    ∃ spent tail kept, c = .frame (pre ++ spent) tail post ∧
      spent.length + tail.length = seg.length ∧
      rpcResponseCopyHead c.rbuf .zeroed obj = some kept ∧
      ∀ side : ReadSide RpcResponse (List Delivered), side.bodyLen = RpcResponse.outputLen →
        side.withBody = (fun rsp p => { rsp with output := p }) →
        Resumes side (fun stale => rpcResponseParse .zeroed stale) RpcResponse.Agrees seg tail
          kept := by
  obtain ⟨l, spent, code, phrase, r, seq, len, names, scans, rfl⟩ := rpcResponseParse_needs three needs
  obtain ⟨w, named⟩ := names.named
  have parsed := fun (stale : Nat → CharPtr) (more pre post : List Byte) =>
    rpcResponseParse_lines names (scans.append more) .zeroed stale pre post
  simp only [Rows.append_text, Rows.append_behind, Rows.append_spent] at parsed
  rw [rpcResponseParse_lines names scans] at needs
  simp only at needs
  generalize storeInt RpcResponse.zeroed.outputLen len = n at needs parsed
  split at needs
  · cases needs
  · rename_i short
    cases needs
    let kept : RpcResponse := { RpcResponse.zeroed with
      code := code, phrase := .heap w, seq := seq, outputLen := n }
    have length : (spent ++ r.spent).length + r.behind.length = (l ++ newline :: r.text).length := by
      have rows := r.spent_length
      have first := names.length
      simp only [List.length_append, List.length_cons]
      omega
    refine ⟨spent ++ r.spent, r.behind, kept, rfl, length, ?_, fun side bodyLen withBody => ?_⟩
    · simp only [rpcResponseCopyHead, CharPtr.read, List.append_assoc _ r.behind post]
      rw [spent_read named]
      rfl
    · refine resumes_of_lines _ _ (by rw [bodyLen]) (Nat.lt_of_not_le short)
        (fun stale more pre post => by
          rw [List.append_assoc, List.cons_append]
          exact parsed stale more pre post) ?_
      intro more pre post pre' post' enough
      rw [withBody]
      refine ⟨rfl, ⟨w, rfl, ?_⟩, rfl, rfl, ?_⟩
      · simpa only [CharPtr.read, List.append_assoc] using spent_read named pre r.spent _
      · exact (body_bytes pre' _ post' enough).trans (body_bytes _ _ post enough).symm

theorem holds_window {α : Type} {conn : RpcConn α} {pre seg post : List Byte}
    (holds : conn.Holds pre seg post) : conn.window? = some (.frame pre seg post) := by
  rw [RpcConn.window?, holds.rcurr, Option.map_some, holds.rbuf, holds.rbytes]

theorem holds_kept {α : Type} {conn : RpcConn α} {pre spent seg tail post : List Byte}
    (holds : conn.Holds pre seg post) (length : spent.length + tail.length = seg.length) (kept : α) :
    RpcConn.Holds { conn.setWindow (.frame (pre ++ spent) tail post) with unprocessData := some kept }
      (pre ++ spent) tail post := by
  refine ⟨rfl, rfl, rfl, ?_⟩
  have size := holds.rsize
  rw [holds.rbuf] at size
  simp only [RpcConn.setWindow, List.length_append] at size ⊢
  omega

theorem readRound_keepsHead {α σ : Type} {side : ReadSide α σ} {behind : Byte} {s : Reader α σ}
    {pre seg post : List Byte} {obj kept : α} {c : Window} (holds : s.conn.Holds pre seg post)
    (idle : s.conn.unprocessData = none)
    (detected : rpcConnReceivedHead (seg ++ post ++ [behind]) seg.length)
    (parsed : side.parse s.parses (.frame pre seg post) = (.needData obj, c))
    (copied : side.copyHead s.parses c.rbuf obj = some kept) :
    readRound side behind s = .ok (false,
      { s with conn := { s.conn.setWindow c with unprocessData := some kept }
               parses := s.parses + 1 }) := by
  have unread : s.conn.rbytes ≠ 0 := by
    rw [holds.rbytes]
    intro empty
    rw [empty] at detected
    cases detected
  have front : (pre ++ seg ++ post).drop pre.length = seg ++ post := by simp
  simp only [readRound, if_neg unread, idle, holds_window holds, front, detected, if_true, parsed,
    copied]

/-- The resumed path agrees with the one-shot path, for requests and for responses, whatever is done
    with a message that is handed over. -/
theorem cbRead_resumesLikeOneShot :
    (∀ (env : ServerEnv) (deliver : ServerReader → RpcRequest → Except Stop (Bool × ServerReader))
      (s : ServerReader) (pre seg post : List Byte) (obj : RpcRequest) (c : Window),
      s.conn.Holds pre seg post → s.conn.unprocessData = none →
      env.objs s.parses = .zeroed → env.copies s.parses = .zeroed →
      ThreeWords (.frame pre seg post) →
      rpcRequestParse .zeroed (env.stale s.parses) (.frame pre seg post) = (.needData obj, c) →
      let side := { reqSide env with deliver := deliver }
      ∃ kept, rpcRequestCopyHead c.rbuf .zeroed obj = some kept ∧
        let s' : ServerReader := { s with conn := { s.conn.setWindow c with unprocessData := some kept }
                                          parses := s.parses + 1 }
        (rpcConnReceivedHead (seg ++ post ++ [env.behind]) seg.length →
          readRound side env.behind s = .ok (false, s')) ∧
        ResumesLikeOneShot side env.toReadEnv (fun stale => rpcRequestParse .zeroed stale)
          RpcRequest.Agrees seg kept s') ∧
    (∀ (env : ClientEnv) (deliver : ClientReader → RpcResponse → Except Stop (Bool × ClientReader))
      (s : ClientReader) (pre seg post : List Byte) (obj : RpcResponse) (c : Window),
      s.conn.Holds pre seg post → s.conn.unprocessData = none →
      env.objs s.parses = .zeroed → env.copies s.parses = .zeroed →
      ThreeWords (.frame pre seg post) →
      rpcResponseParse .zeroed (env.stale s.parses) (.frame pre seg post) = (.needData obj, c) →
      let side := { rspSide env with deliver := deliver }
      ∃ kept, rpcResponseCopyHead c.rbuf .zeroed obj = some kept ∧
        let s' : ClientReader := { s with conn := { s.conn.setWindow c with unprocessData := some kept }
                                          parses := s.parses + 1 }
        (rpcConnReceivedHead (seg ++ post ++ [env.behind]) seg.length →
          readRound side env.behind s = .ok (false, s')) ∧
        ResumesLikeOneShot side env.toReadEnv (fun stale => rpcResponseParse .zeroed stale)
          RpcResponse.Agrees seg kept s') := by
  constructor
  · intro env deliver s pre seg post obj c holds idle zeroed zeroedCopy three needs side
    obtain ⟨spent, tail, kept, rfl, length, copied, resumes⟩ := rpcRequestParse_resumes three needs
    refine ⟨kept, copied, fun detected => ?_, ?_⟩
    · exact readRound_keepsHead holds idle detected (by rw [← zeroed] at needs; exact needs)
        (by rw [← zeroedCopy] at copied; exact copied)
    · exact (resumes side rfl rfl).like_oneShot (env.stale 0) rfl (holds_kept holds length kept)
  · intro env deliver s pre seg post obj c holds idle zeroed zeroedCopy three needs side
    obtain ⟨spent, tail, kept, rfl, length, copied, resumes⟩ := rpcResponseParse_resumes three needs
    refine ⟨kept, copied, fun detected => ?_, ?_⟩
    · exact readRound_keepsHead holds idle detected (by rw [← zeroed] at needs; exact needs)
        (by rw [← zeroedCopy] at copied; exact copied)
    · exact (resumes side rfl rfl).like_oneShot (env.stale 0) rfl (holds_kept holds length kept)

/-- The head of a call of `m@s`, whose one byte of body is missing. -/
def headOnly : List Byte := requestHead smallCall.method smallCall.service smallCall.seq
  smallCall.body.length

/-- A server connection with nothing but that head, and two bytes of room. -/
def waitingConn : RpcConn RpcRequest :=
  { allocConn (headOnly ++ [0, 0]) (List.replicate 5 []) with
    rcurr := some 0, rsize := headOnly.length + 2, rbytes := headOnly.length, thread := some 0 }

/-- The call is handed over when its byte arrives. -/
theorem cbRead_resumesLikeOneShot_byte :
    ∃ kept, ∃ s : ServerReader, s.conn.unprocessData = some kept ∧
      readRound (reqSide echoServer) nul ⟨waitingConn, 0, []⟩ = .ok (false, s) ∧
      ResumesLikeOneShot (reqSide echoServer) echoServer.toReadEnv
        (fun stale => rpcRequestParse .zeroed stale) RpcRequest.Agrees headOnly kept s := by
  have layout : headOnly =
      wordsText CALL (smallCall.method ++ atSign :: smallCall.service) RPC_VERSION ++
        newline :: restText smallCall.seq smallCall.body.length := rfl
  have three : ThreeWords (.frame [] headOnly [0, 0]) := by
    obtain ⟨mem, found, tokens⟩ := words_frame smallCall.names.words []
      (restText smallCall.seq smallCall.body.length) [0, 0]
    rw [← layout] at found
    exact ⟨_, found, by rw [show tokenizeCommand mem _ 3 = _ from tokens]; rfl⟩
  have needs := rpcRequestParse_frame smallCall.names smallCall.seqFits smallCall.fits .zeroed
    (fun _ => .wild) [] [] [0, 0]
  rw [List.append_nil] at needs
  obtain ⟨kept, -, round, resumes⟩ := cbRead_resumesLikeOneShot.1 echoServer (dispatch echoServer)
    ⟨waitingConn, 0, []⟩ [] headOnly [0, 0] _ _ ⟨rfl, rfl, rfl, by rfl⟩ rfl rfl rfl three needs
  exact ⟨kept, _, rfl, round (by decide), resumes⟩

end OpenRpc
