import OpenRpc.WireRequests
import OpenRpc.Growth

/-! # A request over many runs

The runs of `cb_req_read` follow one another on the answers of the socket. Between two runs a request is
in one of three phases: its head has not been seen, its head has been kept and a part of its body is
there, or it has been handed out.
-/

namespace OpenRpc

open Memory

/-- A connection that is open and has nothing queued. -/
structure Stands (s : ServerReader) : Prop where
  idle : s.conn.Idle
  thread : s.conn.thread.isSome
  doubled : s.conn.Doubled

/-- A state between two runs of `cb_req_read` of which `missing` is still to come: before the head is
    seen, inside the body, or with the request handed out. -/
inductive WireRequest.Between (env : ServerEnv) (m : WireRequest) (log : List Handed) :
    List Byte → ServerReader → Prop where
  | head {missing pre unread post : List Byte} {s : ServerReader}
      (holds : s.conn.Holds pre unread post) (none_kept : s.conn.unprocessData = none)
      (bytes : unread ++ missing = m.text) (short : unread.length < m.seenAt) (same : s.log = log) :
      Between env m log missing s
  | body {missing pre unread post : List Byte} {s : ServerReader} {kept : RpcRequest}
      (holds : s.conn.Holds pre unread post) (pending : s.conn.unprocessData = some kept)
      (head : m.Kept kept) (bytes : unread ++ missing = m.body)
      (short : unread.length < m.body.length) (same : s.log = log) : Between env m log missing s
  | done {pre post : List Byte} {s : ServerReader} (holds : s.conn.Holds pre [] post)
      (none_kept : s.conn.unprocessData = none) (room : m.body.length ≤ s.conn.rsize)
      (handed : s.log = log ++ [m.handed env]) : Between env m log [] s

theorem WireRequest.Between.holds {env : ServerEnv} {m : WireRequest} {log : List Handed}
    {missing : List Byte} {s : ServerReader} (between : m.Between env log missing s) :
    ∃ pre unread post, s.conn.Holds pre unread post := by
  cases between with
  | head holds => exact ⟨_, _, _, holds⟩
  | body holds => exact ⟨_, _, _, holds⟩
  | done holds => exact ⟨_, _, _, holds⟩

section Rounds

variable {env : ServerEnv} {m : WireRequest} {s : ServerReader} {pre unread post missing : List Byte}

theorem RpcConn.Holds.length {α : Type} {c : RpcConn α} (holds : c.Holds pre unread post) :
    pre.length + unread.length + post.length = c.rsize := by
  rw [holds.rsize, holds.rbuf, List.length_append, List.length_append]

theorem dispatch_wire (returns : env.sock.Returns) (keyed : m.key.length < 256)
    (holds : s.conn.Holds pre [] post) (none_kept : s.conn.unprocessData = none) (stands : Stands s)
    (room : m.body.length ≤ s.conn.rsize) {req : RpcRequest} (shows : m.Shows s.conn.rbuf req)
    (fuel : Nat) :
    ∃ s', dispatch env s req = .ok (true, s') ∧
      readRounds (reqSide env) env.behind (fuel + 1) s' = .ok s' ∧ m.Between env s.log [] s' ∧
      Stands s' := by
  have found : serviceKey m.method m.service = some (m.key.take 254) := if_pos keyed
  obtain ⟨s', delivered, log, same, idle⟩ :=
    dispatch_read returns stands.idle stands.thread shows.methodName shows.serviceName found
  rw [shows.inputLen, shows.input, shows.seq] at log
  have holds' := same.holds holds
  have stops : readRound (reqSide env) env.behind s' = .ok (false, s') := by
    rw [readRound, if_pos (show s'.conn.rbytes = 0 from holds'.rbytes)]
  refine ⟨s', delivered, by simp only [readRounds, stops], ?_, ⟨idle, ?_, ?_⟩⟩
  · refine .done holds' (same.unprocessData.trans none_kept) ?_ log
    rw [same.rsize]
    exact room
  · rw [same.thread]
    exact stands.thread
  · obtain ⟨k, small, shape⟩ := stands.doubled
    exact ⟨k, small, same.rsize.trans shape⟩

theorem Stands.moved (stands : Stands s) (w : Window) (kept : Option RpcRequest) (parses : Nat) :
    Stands ⟨{ s.conn.setWindow w with unprocessData := kept }, parses, s.log⟩ :=
  ⟨⟨stands.idle.vector, stands.idle.empty, stands.idle.room⟩, stands.thread, stands.doubled⟩

theorem Stands.read (stands : Stands s) {c : RpcConn RpcRequest} (doubled : c.Doubled)
    (side : s.conn.SameSendSide c) (thread : c.thread = s.conn.thread) : Stands { s with conn := c } := by
  refine ⟨side.idle stands.idle, ?_, doubled⟩
  simp only [thread]
  exact stands.thread

theorem readRound_takesHead {α σ : Type} {side : ReadSide α σ} {behind : Byte} {s : Reader α σ}
    {obj : α} {c : Window} (holds : s.conn.Holds pre unread post)
    (idle : s.conn.unprocessData = none)
    (detected : rpcConnReceivedHead (unread ++ (post ++ [behind])) unread.length)
    (parsed : side.parse s.parses (.frame pre unread post) = (.ok obj, c)) :
    readRound side behind s =
      side.deliver { s with conn := s.conn.setWindow c, parses := s.parses + 1 } obj := by
  have some_bytes : s.conn.rbytes ≠ 0 := by
    rw [holds.rbytes]
    intro empty
    rw [empty] at detected
    cases detected
  have front : (pre ++ unread ++ post).drop pre.length ++ [behind] = unread ++ (post ++ [behind]) := by
    simp
  simp only [readRound, if_neg some_bytes, idle, holds_window holds, front, detected, if_true, parsed]
  rfl

theorem rounds_waits (holds : s.conn.Holds pre unread post) (none_kept : s.conn.unprocessData = none)
    (bytes : unread ++ missing = m.text) (short : unread.length < m.seenAt)
    (quiet : unread.length = m.line.length + 1 → (post ++ [env.behind]).head? ≠ some newline)
    (fuel : Nat) : readRounds (reqSide env) env.behind (fuel + 1) s = .ok s := by
  have stops : readRound (reqSide env) env.behind s = .ok (false, s) := by
    by_cases nothing : s.conn.rbytes = 0
    · rw [readRound, if_pos nothing]
    · have front : (pre ++ unread ++ post).drop pre.length ++ [env.behind] =
          unread ++ (post ++ [env.behind]) := by
        simp
      have unseen := m.undetected bytes short quiet
      rw [readRound, if_neg nothing]
      simp only [holds.window, none_kept, front, unseen, Bool.false_eq_true, if_false]
  simp only [readRounds, stops]

theorem rounds_takes (returns : env.sock.Returns) (clean : (env.objs s.parses).inputLen < 4294967296)
    (keyed : m.key.length < 256) (holds : s.conn.Holds pre m.text post)
    (none_kept : s.conn.unprocessData = none) (stands : Stands s)
    (enough : m.seenAt ≤ m.text.length) (fuel : Nat) :
    ∃ s', readRounds (reqSide env) env.behind (fuel + 2) s = .ok s' ∧
      m.Between env s.log [] s' ∧ Stands s' := by
  obtain ⟨spent, obj, length, parsed, shows⟩ :=
    m.parse_whole clean (env.stale s.parses) pre post
  have text_length : m.text.length = m.head.length + m.body.length := List.length_append
  let w := Window.frame (pre ++ spent ++ m.body) [] post
  let s₁ : ServerReader := { s with parses := s.parses + 1, conn := s.conn.setWindow w }
  have moved : s₁.conn.Holds (pre ++ spent ++ m.body) [] post := by
    apply holds.move
    simp only [List.length_append, List.length_nil]
    omega
  have room : m.body.length ≤ s₁.conn.rsize := by
    have total := moved.length
    simp only [List.length_append] at total
    omega
  rw [← List.append_nil (pre ++ spent ++ m.body), ← moved.rbuf] at shows
  obtain ⟨s', delivered, stops, between, stands'⟩ := dispatch_wire returns keyed moved none_kept
    (stands.moved w s.conn.unprocessData _) room shows fuel
  have found := m.detected (List.append_nil m.text) enough (post ++ [env.behind])
  have round : readRound (reqSide env) env.behind s = dispatch env s₁ obj :=
    readRound_takesHead holds none_kept found parsed
  refine ⟨s', ?_, between, stands'⟩
  rw [delivered] at round
  simp only [readRounds, round]
  exact stops

theorem rounds_keeps (clean : (env.objs s.parses).inputLen < 4294967296) {piece : List Byte}
    (holds : s.conn.Holds pre (m.head ++ piece) post) (none_kept : s.conn.unprocessData = none)
    (stands : Stands s) (bytes : piece ++ missing = m.body) (short : piece.length < m.body.length)
    (enough : m.seenAt ≤ (m.head ++ piece).length) (fuel : Nat) :
    ∃ s', readRounds (reqSide env) env.behind (fuel + 1) s = .ok s' ∧
      m.Between env s.log missing s' ∧ Stands s' := by
  obtain ⟨spent, obj, length, parsed, copies⟩ :=
    m.parse_part clean (env.stale s.parses) short pre post
  obtain ⟨kept, copied, head⟩ := copies (env.copies s.parses)
  have text : m.head ++ piece ++ missing = m.text := by
    rw [List.append_assoc, bytes]
    rfl
  have found := m.detected text enough (post ++ [env.behind])
  rw [← List.append_assoc] at found
  have round : readRound (reqSide env) env.behind s = .ok (false, _) :=
    readRound_keepsHead holds none_kept found parsed copied
  refine ⟨_, by rw [readRounds, round], ?_, stands.moved _ _ _⟩
  exact .body (holds_kept holds (by simp [length]) kept) rfl head bytes short rfl

theorem rounds_head (returns : env.sock.Returns) (clean : ∀ k, (env.objs k).inputLen < 4294967296)
    (keyed : m.key.length < 256) (holds : s.conn.Holds pre unread post)
    (none_kept : s.conn.unprocessData = none) (stands : Stands s)
    (bytes : unread ++ missing = m.text)
    (quiet : unread.length = m.line.length + 1 → (post ++ [env.behind]).head? ≠ some newline)
    (fuel : Nat) :
    ∃ s', readRounds (reqSide env) env.behind (fuel + 2) s = .ok s' ∧
      m.Between env s.log missing s' ∧ Stands s' := by
  by_cases seen : m.seenAt ≤ unread.length
  · obtain ⟨piece, rfl, bodyBytes⟩ := append_split bytes (Nat.le_of_add_right_le seen)
    have sizes := congrArg List.length bodyBytes
    rw [List.length_append] at sizes
    by_cases whole : piece.length < m.body.length
    · exact rounds_keeps (clean _) holds none_kept stands bodyBytes whole seen (fuel + 1)
    · obtain rfl : missing = [] := List.eq_nil_of_length_eq_zero (by omega)
      rw [List.append_nil] at bytes
      rw [bytes] at holds seen
      exact rounds_takes returns (clean _) keyed holds none_kept stands seen fuel
  · have short := Nat.lt_of_not_le seen
    exact ⟨s, rounds_waits holds none_kept bytes short quiet (fuel + 1),
      .head holds none_kept bytes short rfl, stands⟩

theorem rounds_body (returns : env.sock.Returns) (keyed : m.key.length < 256) {kept : RpcRequest}
    (holds : s.conn.Holds pre unread post) (pending : s.conn.unprocessData = some kept)
    (head : m.Kept kept) (stands : Stands s) (bytes : unread ++ missing = m.body)
    (some_body : m.body ≠ []) (fuel : Nat) :
    ∃ s', readRounds (reqSide env) env.behind (fuel + 2) s = .ok s' ∧
      m.Between env s.log missing s' ∧ Stands s' := by
  have bodyLen : (reqSide env).bodyLen kept = m.body.length := head.inputLen
  have sizes := congrArg List.length bytes
  rw [List.length_append] at sizes
  by_cases short : unread.length < m.body.length
  · have stops : readRound (reqSide env) env.behind s = .ok (false, s) := by
      by_cases nothing : s.conn.rbytes = 0
      · rw [readRound, if_pos nothing]
      · rw [readRound, if_neg nothing]
        simp only [pending, bodyLen, holds.rbytes, if_neg (Nat.not_le.mpr short)]
    exact ⟨s, by simp only [readRounds, stops], .body holds pending head bytes short rfl, stands⟩
  · obtain rfl : missing = [] := List.eq_nil_of_length_eq_zero (by omega)
    rw [List.append_nil] at bytes
    subst bytes
    let w := Window.frame (pre ++ m.body) [] post
    let s₁ : ServerReader := ⟨{ s.conn.setWindow w with unprocessData := none }, s.parses, s.log⟩
    let req : RpcRequest := { kept with input := .rbuf pre.length }
    have moved : s₁.conn.Holds (pre ++ m.body) [] post := by
      have here : (s.conn.setWindow w).Holds (pre ++ m.body) [] post :=
        holds.move (by rw [List.length_append]; rfl)
      exact ⟨here.rbuf, here.rcurr, here.rbytes, here.rsize⟩
    have room : m.body.length ≤ s₁.conn.rsize := by
      have total := moved.length
      rw [List.length_append] at total
      omega
    have shows := head.shows pre post
    rw [← List.append_nil (pre ++ m.body), ← moved.rbuf] at shows
    obtain ⟨s', delivered, stops, between, stands'⟩ := dispatch_wire returns keyed moved rfl
      (stands.moved w none _) room shows fuel
    have round : readRound (reqSide env) env.behind s = dispatch env s₁ req := by
      have window : Window.mk (pre ++ m.body ++ post) (pre.length + m.body.length)
          (m.body.length - m.body.length) = w := by
        simp [w, Window.frame]
      rw [readRound, if_neg (by rw [holds.rbytes]; exact (List.length_pos_of_ne_nil some_body).ne')]
      simp only [pending, bodyLen, holds.rbytes, Nat.le_refl, if_true, holds.window, Window.frame, window,
        ReadSide.hand]
      rfl
    rw [delivered] at round
    exact ⟨s', by simp only [readRounds, round]; exact stops, between, stands'⟩

end Rounds

/-- What a server needs to hand the request out once it is there: objects that start zeroed in the upper
    half of the length, a key that fits, replies that get away, an empty line that is seen, and a
    `realloc` that grants what the message can need. -/
structure WireRequest.Served (env : ServerEnv) (m : WireRequest) : Prop where
  returns : env.sock.Returns
  clean : ∀ k, (env.objs k).inputLen < 4294967296
  keyed : m.key.length < 256
  seen : m.emptyLine = [] ∨ m.body ≠ []
  grows : GrowsRight env.grow
  grants : ∀ size, size * 2 ≤ INT_MAX + m.head.length → (env.grow (size * 2)).isSome

/-- One more run of `cb_req_read`, on the answers that the runs before it have left. -/
def NextRun (env : ServerEnv) (x y : List ReadResult × ServerReader) : Prop :=
  x.1 ≠ [] ∧ cbReqRead env x.1 x.2 = .ok y.2 ∧
    ∃ value c, readFromConn env.memcpy env.grow x.1 x.2.conn = .returned value c y.1

/-- So many runs later. -/
abbrev Reaches (env : ServerEnv) := Relation.ReflTransGen (NextRun env)

/-- The spaces a run is offered. -/
def spacesOf (env : ServerEnv) (s : ServerReader) : List Nat :=
  spaces env.grow 4 s.conn.rsize s.conn.rbytes

/-- A run that nothing else goes wrong in: it does not go on waiting behind a read that has filled its
    space, the compaction copies right, and where the bytes received end with the first line there is
    no newline behind them. -/
structure WireRequest.Undisturbed (env : ServerEnv) (m : WireRequest)
    (x : List ReadResult × ServerReader) : Prop where
  returns : ¬Fills (spacesOf env x.2) x.1
  compacts : Compacts env.memcpy x.2.conn
  quiet : ∀ k, taken (spacesOf env x.2) x.1 = some k → x.2.conn.unprocessData = none →
    x.2.conn.rbytes + (received (x.1.take k)).length = m.line.length + 1 →
    (x.2.conn.rbuf ++ (grown env.grow 4 x.2.conn.rsize ++ [env.behind]))[m.line.length + 1]? ≠
      some newline

/-- A pair on the way to the request. -/
structure WireRequest.OnWay (env : ServerEnv) (m : WireRequest) (log : List Handed)
    (x : List ReadResult × ServerReader) : Prop where
  between : m.Between env log (received x.1) x.2
  stands : Stands x.2
  successful : Successful x.1

section Runs

variable {env : ServerEnv} {m : WireRequest} {log : List Handed}

theorem nextRun_unique {x y y' : List ReadResult × ServerReader} (next : NextRun env x y)
    (next' : NextRun env x y') : y = y' := by
  obtain ⟨-, ran, value, c, read⟩ := next
  obtain ⟨-, ran', value', c', read'⟩ := next'
  have rest := read.symm.trans read'
  rw [ReadOutcome.returned.injEq] at rest
  exact Prod.ext rest.2.2 (Except.ok.inj (ran.symm.trans ran'))

theorem onWay_start {reads : List ReadResult} {s : ServerReader} {pre post : List Byte}
    (holds : s.conn.Holds pre [] post) (idle : s.conn.unprocessData = none) (stands : Stands s)
    (successful : Successful reads) (delivers : received reads = m.text) :
    m.OnWay env s.log (reads, s) := by
  refine ⟨.head holds idle delivers ?_ rfl, stands, successful⟩
  rw [WireRequest.seenAt, m.head_length]
  exact Nat.add_pos_left (Nat.succ_pos _) _

theorem nextRun_read (served : m.Served env) {reads : List ReadResult} {s : ServerReader} {k : Nat}
    {pre unread post : List Byte} (holds : s.conn.Holds pre unread post) (stands : Stands s)
    (successful : Successful reads) (more : reads ≠ []) (undisturbed : m.Undisturbed env (reads, s))
    (fit : TakenFit env.grow reads 0 s.conn) (takes : taken (spacesOf env s) reads = some k) :
    ∃ c post', c.Holds [] (unread ++ received (reads.take k)) post' ∧ Stands { s with conn := c } ∧
      s.conn.rsize ≤ c.rsize ∧ c.unprocessData = s.conn.unprocessData ∧
      (s.conn.unprocessData = none →
        (unread ++ received (reads.take k)).length = m.line.length + 1 →
        (post' ++ [env.behind]).head? ≠ some newline) ∧
      ∀ s', readRounds (reqSide env) env.behind (c.rbytes + 2) { s with conn := c } = .ok s' →
        NextRun env (reads, s) (reads.drop k, s') := by
  obtain ⟨c, post', read, holds', doubled', larger, side, kept, thread, byte⟩ := readFromConn_takes
    served.grows holds stands.doubled undisturbed.compacts successful fit takes env.behind
  refine ⟨c, post', holds', stands.read doubled' side thread, larger, kept, ?_, ?_⟩
  · intro none_kept oneLine
    rw [byte, oneLine]
    rw [List.length_append, ← holds.rbytes] at oneLine
    exact undisturbed.quiet k takes none_kept oneLine
  · intro s' rounds
    refine ⟨more, ?_, true, c, read⟩
    simp only [cbReqRead, cbRead, read]
    exact rounds

theorem nextRun_onWay (served : m.Served env) {x : List ReadResult × ServerReader}
    (onWay : m.OnWay env log x) (more : x.1 ≠ []) (undisturbed : m.Undisturbed env x)
    (fit : TakenFit env.grow x.1 0 x.2.conn) :
    ∃ k s', taken (spacesOf env x.2) x.1 = some k ∧ NextRun env x (x.1.drop k, s') ∧
      m.OnWay env log (x.1.drop k, s') := by
  obtain ⟨reads, s⟩ := x
  obtain ⟨between, stands, successful⟩ := onWay
  simp only at between stands successful more fit ⊢
  obtain ⟨k, takes⟩ : ∃ k, taken (spacesOf env s) reads = some k := by
    rw [← Option.isSome_iff_exists, Option.isSome_iff_ne_none, ne_eq, taken_eq_none]
    exact undisturbed.returns
  have later : Successful (reads.drop k) := fun r member => successful r (List.mem_of_mem_drop member)
  have split : received reads = received (reads.take k) ++ received (reads.drop k) := by
    rw [← received_append, List.take_append_drop]
  generalize missing_eq : received reads = missing at between
  cases between with
  | head holds none_kept bytes short same =>
      obtain ⟨c, post', holds', stands₁, -, kept, quiet, next⟩ :=
        nextRun_read served holds stands successful more undisturbed fit takes
      rw [← missing_eq, split, ← List.append_assoc] at bytes
      obtain ⟨s', ran, between', stands'⟩ := rounds_head served.returns served.clean served.keyed
        holds' (kept.trans none_kept) stands₁ bytes (quiet none_kept) c.rbytes
      rw [same] at between'
      exact ⟨k, s', takes, next s' ran, between', stands', later⟩
  | body holds pending head bytes short same =>
      obtain ⟨c, post', holds', stands₁, -, kept, -, next⟩ :=
        nextRun_read served holds stands successful more undisturbed fit takes
      have some_body : m.body ≠ [] := List.ne_nil_of_length_pos (Nat.zero_lt_of_lt short)
      rw [← missing_eq, split, ← List.append_assoc] at bytes
      obtain ⟨s', ran, between', stands'⟩ := rounds_body served.returns served.keyed holds'
        (kept.trans pending) head stands₁ bytes some_body c.rbytes
      rw [same] at between'
      exact ⟨k, s', takes, next s' ran, between', stands', later⟩
  | done holds none_kept room handed =>
      obtain ⟨c, post', holds', stands₁, larger, kept, -, next⟩ :=
        nextRun_read served holds stands successful more undisturbed fit takes
      obtain ⟨nothing, rest⟩ := List.append_eq_nil_iff.mp (split.symm.trans missing_eq)
      rw [nothing] at holds'
      have ran : readRounds (reqSide env) env.behind (c.rbytes + 2) { s with conn := c } =
          .ok { s with conn := c } := by
        rw [readRounds, readRound, if_pos (show c.rbytes = 0 from holds'.rbytes)]
      have between' : m.Between env log (received (reads.drop k)) { s with conn := c } := by
        rw [rest]
        exact .done holds' (kept.trans none_kept) (room.trans larger) handed
      exact ⟨k, _, takes, next _ ran, between', stands₁, later⟩

theorem reaches_onWay (served : m.Served env) {x y : List ReadResult × ServerReader}
    (conditions : ∀ y, Reaches env x y → m.OnWay env log y → y.1 ≠ [] →
      m.Undisturbed env y ∧ TakenFit env.grow y.1 0 y.2.conn)
    (start : m.OnWay env log x) (reaches : Reaches env x y) : m.OnWay env log y := by
  induction reaches with
  | refl => exact start
  | tail before next ih =>
      obtain ⟨undisturbed, fit⟩ := conditions _ before ih next.1
      obtain ⟨k, s', -, next', onWay⟩ := nextRun_onWay served ih next.1 undisturbed fit
      rwa [nextRun_unique next next']

theorem WireRequest.Between.ended (served : m.Served env) {s : ServerReader}
    (between : m.Between env log [] s) :
    m.body.length ≤ s.conn.rsize ∧ s.log = log ++ [m.handed env] := by
  generalize nothing : ([] : List Byte) = missing at between
  cases between with
  | head holds none_kept bytes short same =>
      have sizes := congrArg List.length bytes
      rw [← nothing, List.append_nil, WireRequest.text, List.length_append] at sizes
      have empty : m.emptyLine.length ≤ m.body.length := by
        rcases served.seen with bare | some_body
        · simp [bare]
        · have positive := List.length_pos_of_ne_nil some_body
          have either : m.emptyLine = [] ∨ m.emptyLine = [carriage] := m.scans.empty
          rcases either with empty | empty
          · simp [empty]
          · rw [empty]
            exact positive
      rw [WireRequest.seenAt] at short
      omega
  | body holds pending head bytes short same =>
      rw [← nothing, List.append_nil] at bytes
      exact absurd (congrArg List.length bytes) short.ne
  | done holds none_kept room handed => exact ⟨room, handed⟩

theorem reaches_once {x y z : List ReadResult × ServerReader} (next : NextRun env x y)
    (ended : y.1 = []) (reaches : Reaches env x z) : z = x ∨ z.1 = [] := by
  rcases reaches.cases_head with rfl | ⟨y', first, later⟩
  · exact .inl rfl
  · rw [nextRun_unique first next] at later
    rcases later.cases_head with rfl | ⟨_, second, -⟩
    · exact .inr ended
    · exact absurd ended second.1

theorem reaches_suffix {x y : List ReadResult × ServerReader} (reaches : Reaches env x y) :
    y.1 <:+ x.1 := by
  induction reaches with
  | refl => exact List.suffix_refl _
  | tail before next ih =>
      obtain ⟨-, -, value, c, read⟩ := next
      exact (readFromConn_rest read).trans ih

end Runs

end OpenRpc
