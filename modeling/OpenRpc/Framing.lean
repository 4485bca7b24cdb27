import OpenRpc.Head

/-! # Framing

What the read callbacks make of a stream that arrives in pieces. The messages of one direction are a
parameter: what their heads look like, what the parser and the delivery do with one of them. Between
two reads a connection stands inside a head, which is then still unparsed, or inside a body, whose head
is then kept in `unprocess_data`; every further piece leads from one such state to another.
-/

namespace OpenRpc

open Memory

variable {α σ μ : Type}

/-- The unread bytes of a connection and what lies before and behind them in its buffer. -/
structure RpcConn.Holds (c : RpcConn α) (pre unread post : List Byte) : Prop where
  rbuf : c.rbuf = pre ++ unread ++ post
  rcurr : c.rcurr = some pre.length
  rbytes : c.rbytes = unread.length
  rsize : c.rsize = c.rbuf.length

/-- The compaction before a read copies right. -/
def Compacts (memcpy : Memcpy) (c : RpcConn α) : Prop :=
  ∀ p, c.rcurr = some p → 0 < p → 0 < c.rbytes → memcpy c.rbuf p c.rbytes = moved c.rbuf p c.rbytes

theorem RpcConn.Holds.moves {c : RpcConn α} {pre unread post : List Byte}
    (holds : c.Holds pre unread post) :
    moved c.rbuf pre.length unread.length = unread ++ c.rbuf.drop unread.length := by
  rw [moved, holds.rbuf, slice_append, overwrite, List.take_zero, Nat.zero_add]
  rfl

theorem compact_copies (memcpy : Memcpy) {c : RpcConn α} {p : Nat} (here : c.rcurr = some p)
    (before : p ≠ 0) (some_bytes : c.rbytes ≠ 0) :
    compact memcpy c = some { c with rbuf := memcpy c.rbuf p c.rbytes, rcurr := some 0 } := by
  cases p with
  | zero => exact absurd rfl before
  | succ p => simp only [compact, here, if_neg some_bytes]

theorem compact_eq {memcpy : Memcpy} {c : RpcConn α} {pre unread post : List Byte}
    (holds : c.Holds pre unread post) (compacts : Compacts memcpy c) :
    compact memcpy c = some { c with rbuf := unread ++ c.rbuf.drop unread.length, rcurr := some 0 } := by
  by_cases nothing : c.rbytes = 0
  · have none_unread : unread = [] :=
      List.eq_nil_of_length_eq_zero (holds.rbytes.symm.trans nothing)
    simp only [compact, holds.rcurr, if_pos nothing, none_unread]
    split
    · cases ‹some pre.length = none›
    · rename_i here
      rw [← here, ← holds.rcurr]
      rfl
    · rfl
  · cases start : pre.length with
    | zero =>
        have here : c.rcurr = some 0 := by rw [holds.rcurr, start]
        have stays : compact memcpy c = some c := by simp only [compact, here]
        have empty := List.eq_nil_of_length_eq_zero start
        have whole : unread ++ c.rbuf.drop unread.length = c.rbuf := by
          rw [holds.rbuf, empty]
          simp
        rw [stays, whole, ← here]
    | succ p =>
        have here : c.rcurr = some (p + 1) := by rw [holds.rcurr, start]
        have copied := compacts (p + 1) here (by omega) (by omega)
        rw [holds.rbytes, ← start, holds.moves] at copied
        rw [compact_copies memcpy here (Nat.succ_ne_zero p) nothing, holds.rbytes, ← start, copied]

/-- One short read: the piece is appended to the unread bytes, which now start the buffer. -/
theorem readFromConn_short {memcpy : Memcpy} (grow : Grow) {c : RpcConn α}
    {pre unread post piece : List Byte} (holds : c.Holds pre unread post)
    (compacts : Compacts memcpy c) (short : piece.length < c.rsize - c.rbytes) :
    ∃ c', readFromConn memcpy grow [.data piece] c = .returned true c' [] ∧
      c'.Holds [] (unread ++ piece) (c.rbuf.drop (c.rbytes + piece.length)) ∧
      c.SameSendSide c' ∧ c'.unprocessData = c.unprocessData ∧ c'.thread = c.thread := by
  have inside : unread.length + piece.length ≤ c.rbuf.length := by
    rw [← holds.rsize, ← holds.rbytes]
    omega
  have stored : overwrite (unread ++ c.rbuf.drop unread.length) c.rbytes piece =
      unread ++ piece ++ c.rbuf.drop (c.rbytes + piece.length) := by
    rw [overwrite, holds.rbytes, List.take_left, ← List.drop_drop, ← List.drop_drop,
      List.drop_left]
  refine ⟨{ c with rbuf := unread ++ piece ++ c.rbuf.drop (c.rbytes + piece.length)
                   rcurr := some 0, rbytes := c.rbytes + piece.length }, ?_, ?_,
    ⟨rfl, rfl, id, rfl, rfl⟩, rfl, rfl⟩
  · simp only [readFromConn, compact_eq holds compacts, readLoop, makeRoom]
    rw [if_neg (by omega)]
    simp only
    rw [if_neg (by omega), stored]
  · refine ⟨rfl, rfl, by simp [holds.rbytes], ?_⟩
    have length : c.rsize = c.rbuf.length := holds.rsize
    simp only [List.length_append, List.length_drop, holds.rbytes]
    omega

/-- The messages of one direction, as a read side sees them. `Kept m` holds of an object that has
    `m`'s head copied, `Sees m mem` of one that reads as `m` in `mem`; `Ready` says that the deliveries
    of these messages will find what they need. -/
structure Framing (side : ReadSide α σ) (μ : Type) where
  line₁ : μ → List Byte
  line₂ : μ → List Byte
  line₃ : μ → List Byte
  body : μ → List Byte
  spent : μ → List Byte
  Clean : Nat → Prop
  Kept : μ → α → Prop
  Sees : μ → List Byte → α → Prop
  Ready : List μ → Reader α σ → Prop
  record : μ → σ → σ
  lines : ∀ m, HeadLines (line₁ m) (line₂ m) (line₃ m)
  spent_length : ∀ m, (spent m).length = (headText (line₁ m) (line₂ m) (line₃ m)).length
  whole : ∀ k, Clean k → ∀ m pre following post, ∃ obj,
    side.parse k (.frame pre (headText (line₁ m) (line₂ m) (line₃ m) ++ body m ++ following) post) =
      (.ok obj, .frame (pre ++ spent m ++ body m) following post) ∧
    Sees m (pre ++ spent m ++ body m ++ following ++ post) obj
  part : ∀ k, Clean k → ∀ m pre piece missing post, body m = piece ++ missing → missing ≠ [] →
    ∃ obj kept,
      side.parse k (.frame pre (headText (line₁ m) (line₂ m) (line₃ m) ++ piece) post) =
        (.needData obj, .frame (pre ++ spent m) piece post) ∧
      side.copyHead k (pre ++ spent m ++ piece ++ post) obj = some kept ∧ Kept m kept
  resume : ∀ m kept, Kept m kept → side.bodyLen kept = (body m).length ∧
    ∀ pre post, Sees m (pre ++ body m ++ post) (side.withBody kept (.rbuf pre.length))
  deliver : ∀ m rest s obj, Ready (m :: rest) s → Sees m s.conn.rbuf obj →
    ∃ s', side.deliver s obj = .ok (true, s') ∧ s'.log = record m s.log ∧
      s.conn.SameReadSide s'.conn ∧ Ready rest s'
  ready : ∀ ms s s', Ready ms s → s.conn.SameSendSide s'.conn → s'.conn.thread = s.conn.thread →
    s'.log = s.log → Ready ms s'

namespace Framing

variable {side : ReadSide α σ} (F : Framing side μ)

def head (m : μ) : List Byte := headText (F.line₁ m) (F.line₂ m) (F.line₃ m)

/-- The bytes of messages sent one after the other. -/
def stream (ms : List μ) : List Byte := ms.flatMap fun m => F.head m ++ F.body m

/-- The messages that have arrived whole with the first `n` bytes. -/
def arrived : List μ → Nat → List μ
  | [], _ => []
  | m :: ms, n =>
      if (F.head m ++ F.body m).length ≤ n then m :: arrived ms (n - (F.head m ++ F.body m).length)
      else []

/-- The first `n` bytes of the stream end with the first line of a message. -/
def EndsFirstLine (ms : List μ) (n : Nat) : Prop :=
  ∃ before m rest, ms = before ++ m :: rest ∧ n = (F.stream before).length + (F.line₁ m).length + 1

/-- A state between two reads: `todo` is still to be handed out, `missing` still to arrive. -/
inductive Between : List μ → List Byte → Reader α σ → Prop where
  | head {todo : List μ} {missing pre unread post : List Byte} {s : Reader α σ}
      (holds : s.conn.Holds pre unread post) (none_kept : s.conn.unprocessData = none)
      (bytes : unread ++ missing = F.stream todo)
      (short : ∀ m rest, todo = m :: rest → unread.length < (F.head m).length) :
      Between todo missing s
  | body {m : μ} {rest : List μ} {missing pre unread post : List Byte} {s : Reader α σ} {kept : α}
      (holds : s.conn.Holds pre unread post) (pending : s.conn.unprocessData = some kept)
      (head : F.Kept m kept) (bytes : unread ++ missing = F.body m ++ F.stream rest)
      (short : unread.length < (F.body m).length) :
      Between (m :: rest) missing s

theorem stream_cons (m : μ) (ms : List μ) :
    F.stream (m :: ms) = F.head m ++ (F.body m ++ F.stream ms) := by
  simp [stream]

theorem stream_append (ms ms' : List μ) : F.stream (ms ++ ms') = F.stream ms ++ F.stream ms' := by
  simp [stream]

theorem head_length (m : μ) : (F.head m).length =
    (F.line₁ m).length + (F.line₂ m).length + (F.line₃ m).length + 4 :=
  headText_length _ _ _

end Framing

section Rounds

variable {side : ReadSide α σ} (F : Framing side μ) {s : Reader α σ} {pre unread post : List Byte}
  {m : μ} {rest : List μ} (behind : Byte)

theorem RpcConn.Holds.window {c : RpcConn α} (holds : c.Holds pre unread post) :
    c.window? = some (.frame pre unread post) := by
  simp only [RpcConn.window?, holds.rcurr, holds.rbuf, holds.rbytes, Option.map_some]

theorem RpcConn.Holds.move {c : RpcConn α} (holds : c.Holds pre unread post)
    {pre' unread' : List Byte} (same : pre'.length + unread'.length = pre.length + unread.length) :
    (c.setWindow (.frame pre' unread' post)).Holds pre' unread' post := by
  refine ⟨rfl, rfl, rfl, ?_⟩
  have length := holds.rsize
  rw [holds.rbuf] at length
  simp only [RpcConn.setWindow, List.length_append] at *
  omega

theorem RpcConn.SameReadSide.holds {c c' : RpcConn α} (same : c.SameReadSide c')
    (holds : c.Holds pre unread post) : c'.Holds pre unread post :=
  ⟨by rw [same.rbuf, holds.rbuf], by rw [same.rcurr, holds.rcurr], by rw [same.rbytes, holds.rbytes],
    by rw [same.rsize, same.rbuf, holds.rsize]⟩

theorem round_waits (holds : s.conn.Holds pre unread post) (none_kept : s.conn.unprocessData = none)
    {missing : List Byte} (bytes : unread ++ missing = F.stream (m :: rest))
    (short : unread.length < (F.head m).length)
    (quiet : unread.length = (F.line₁ m).length + 1 → (post ++ [behind]).head? ≠ some newline) :
    readRound side behind s = .ok (false, s) := by
  by_cases nothing : s.conn.rbytes = 0
  · rw [readRound, if_pos nothing]
  · have data : (Window.frame pre unread post).rbuf.drop pre.length ++ [behind] =
        unread ++ (post ++ [behind]) := by
      simp
    have prefix_of_head : unread = (F.head m).take unread.length := by
      have cut := congrArg (List.take unread.length) bytes
      rwa [List.take_left, Framing.stream_cons, List.take_append_of_le_length (by omega)] at cut
    have undetected : rpcConnReceivedHead (unread ++ (post ++ [behind])) unread.length = false := by
      apply receivedHead_part (F.lines m) short (by rw [List.take_left]; exact prefix_of_head)
      intro oneLine
      rw [List.getElem?_append_right (Nat.le_refl _), Nat.sub_self, ← List.head?_eq_getElem?]
      exact quiet oneLine
    rw [readRound, if_neg nothing]
    simp only [holds.window, none_kept, data, undetected, Bool.false_eq_true, if_false]

theorem round_detects (holds : s.conn.Holds pre unread post) {piece : List Byte}
    (bytes : unread = F.head m ++ piece) :
    s.conn.rbytes ≠ 0 ∧ rpcConnReceivedHead ((Window.frame pre unread post).rbuf.drop
      (Window.frame pre unread post).rcurr ++ [behind]) (Window.frame pre unread post).rbytes =
        true := by
  have length := F.head_length m
  constructor
  · rw [holds.rbytes, bytes, List.length_append]
    omega
  · have data : (Window.frame pre unread post).rbuf.drop pre.length ++ [behind] =
        F.head m ++ (piece ++ (post ++ [behind])) := by
      simp [bytes]
    simp only [data]
    rw [bytes, List.length_append]
    exact receivedHead_whole (F.lines m) piece (post ++ [behind])

theorem round_takes (holds : s.conn.Holds pre unread post)
    (none_kept : s.conn.unprocessData = none) (clean : F.Clean s.parses) {following : List Byte}
    (bytes : unread = F.head m ++ F.body m ++ following) (ready : F.Ready (m :: rest) s) :
    ∃ s' pre', readRound side behind s = .ok (true, s') ∧ s'.log = F.record m s.log ∧
      s'.conn.Holds pre' following post ∧ s'.conn.unprocessData = none ∧ F.Ready rest s' := by
  have headed : unread = F.head m ++ (F.body m ++ following) := by rw [bytes, List.append_assoc]
  obtain ⟨some_bytes, found⟩ := round_detects F behind holds headed
  obtain ⟨obj, parsed, sees⟩ := F.whole s.parses clean m pre following post
  let w := Window.frame (pre ++ F.spent m ++ F.body m) following post
  let s₁ : Reader α σ := { s with parses := s.parses + 1, conn := s.conn.setWindow w }
  have moved : s₁.conn.Holds (pre ++ F.spent m ++ F.body m) following post := by
    apply holds.move
    have spent := F.spent_length m
    simp only [bytes, List.length_append, Framing.head]
    omega
  have ready₁ : F.Ready (m :: rest) s₁ :=
    F.ready _ s s₁ ready ⟨rfl, rfl, id, rfl, rfl⟩ rfl rfl
  obtain ⟨s', delivered, log, same, ready'⟩ := F.deliver m rest s₁ obj ready₁ sees
  refine ⟨s', _, ?_, log, same.holds moved, by rw [same.unprocessData]; exact none_kept, ready'⟩
  rw [readRound, if_neg some_bytes]
  simp only [holds.window, none_kept]
  rw [if_pos found, bytes]
  simp only [Framing.head, parsed]
  exact delivered

/-- A head with a part of its body: the head is kept, and the loop is left. -/
theorem round_keeps (holds : s.conn.Holds pre unread post)
    (none_kept : s.conn.unprocessData = none) (clean : F.Clean s.parses)
    {piece missing : List Byte} (bytes : unread = F.head m ++ piece)
    (cut : F.body m = piece ++ missing) (more : missing ≠ []) (ready : F.Ready (m :: rest) s) :
    ∃ s' pre' kept, readRound side behind s = .ok (false, s') ∧ s'.log = s.log ∧
      s'.conn.Holds pre' piece post ∧ s'.conn.unprocessData = some kept ∧ F.Kept m kept ∧
      F.Ready (m :: rest) s' := by
  obtain ⟨some_bytes, found⟩ := round_detects F behind holds bytes
  obtain ⟨obj, kept, parsed, copied, head⟩ := F.part s.parses clean m pre piece missing post cut more
  let w := Window.frame (pre ++ F.spent m) piece post
  let s' : Reader α σ := { s with parses := s.parses + 1
                                  conn := { s.conn.setWindow w with unprocessData := some kept } }
  have moved : (s.conn.setWindow w).Holds (pre ++ F.spent m) piece post := by
    apply holds.move
    have spent := F.spent_length m
    simp only [bytes, List.length_append, Framing.head]
    omega
  refine ⟨s', _, kept, ?_, rfl, ⟨moved.rbuf, moved.rcurr, moved.rbytes, moved.rsize⟩, rfl, head,
    F.ready _ s s' ready ⟨rfl, rfl, id, rfl, rfl⟩ rfl rfl⟩
  rw [readRound, if_neg some_bytes]
  simp only [holds.window, none_kept]
  rw [if_pos found, bytes]
  simp only [Framing.head, parsed, copied]
  rfl

/-- The rest of a body: the message is delivered with the head kept before. -/
theorem round_resumes (holds : s.conn.Holds pre unread post) {kept : α}
    (pending : s.conn.unprocessData = some kept) (head : F.Kept m kept) (more : F.body m ≠ [])
    {following : List Byte} (bytes : unread = F.body m ++ following)
    (ready : F.Ready (m :: rest) s) :
    ∃ s' pre', readRound side behind s = .ok (true, s') ∧ s'.log = F.record m s.log ∧
      s'.conn.Holds pre' following post ∧ s'.conn.unprocessData = none ∧ F.Ready rest s' := by
  obtain ⟨len, sees⟩ := F.resume m kept head
  have positive := List.length_pos_of_ne_nil more
  have enough : side.bodyLen kept ≤ (Window.frame pre unread post).rbytes := by
    simp only [len, bytes, List.length_append]
    omega
  let w : Window := ⟨pre ++ unread ++ post, pre.length + side.bodyLen kept,
    unread.length - side.bodyLen kept⟩
  let s₁ : Reader α σ := { s with conn := { s.conn with unprocessData := none }.setWindow w }
  have window : w = Window.frame (pre ++ F.body m) following post := by
    simp [w, len, bytes]
  have moved : s₁.conn.Holds (pre ++ F.body m) following post := by
    have lengths : (pre ++ F.body m).length + following.length = pre.length + unread.length := by
      simp only [bytes, List.length_append]
      omega
    have here := holds.move lengths
    simp only [s₁, window]
    exact ⟨here.rbuf, here.rcurr, here.rbytes, here.rsize⟩
  have ready₁ : F.Ready (m :: rest) s₁ :=
    F.ready _ s s₁ ready ⟨rfl, rfl, id, rfl, rfl⟩ rfl rfl
  have seen := sees pre (following ++ post)
  rw [← List.append_assoc, ← moved.rbuf] at seen
  obtain ⟨s', delivered, log, same, ready'⟩ := F.deliver m rest s₁ _ ready₁ seen
  refine ⟨s', _, ?_, log, same.holds moved, by rw [same.unprocessData]; rfl, ready'⟩
  have some_bytes : s.conn.rbytes ≠ 0 := by
    rw [holds.rbytes, bytes, List.length_append]
    omega
  have here : side.bodyLen kept ≤ s.conn.rbytes := by
    rw [holds.rbytes]
    exact enough
  rw [readRound, if_neg some_bytes]
  simp only [holds.window, pending]
  rw [if_pos here]
  exact delivered

/-- Still not the rest of a body: the loop is left, and nothing has changed. -/
theorem round_pending (holds : s.conn.Holds pre unread post) {kept : α}
    (pending : s.conn.unprocessData = some kept) (head : F.Kept m kept)
    (short : unread.length < (F.body m).length) : readRound side behind s = .ok (false, s) := by
  obtain ⟨len, -⟩ := F.resume m kept head
  by_cases nothing : s.conn.rbytes = 0
  · rw [readRound, if_pos nothing]
  · rw [readRound, if_neg nothing]
    simp only [pending]
    rw [if_neg (by rw [len, holds.rbytes]; omega)]

theorem append_split {a b c d : List Byte} (same : a ++ b = c ++ d) (le : c.length ≤ a.length) :
    ∃ e, a = c ++ e ∧ e ++ b = d := by
  obtain ⟨e, rfl⟩ : c <+: a :=
    List.prefix_of_prefix_length_le (same ▸ List.prefix_append c d) (List.prefix_append a b) le
  rw [List.append_assoc] at same
  exact ⟨e, rfl, List.append_cancel_left same⟩

/-- The messages in front of the missing bytes that end where a first line ends are the ones whose
    heads may be detected too early. -/
def QuietBehind (todo : List μ) (missing post : List Byte) : Prop :=
  ∀ before m rest, todo = before ++ m :: rest →
    missing.length + (F.line₁ m).length + 1 = (F.stream (m :: rest)).length →
    (post ++ [behind]).head? ≠ some newline

theorem QuietBehind.tail {F : Framing side μ} {behind : Byte} {missing : List Byte}
    (quiet : QuietBehind F behind (m :: rest) missing post) :
    QuietBehind F behind rest missing post := by
  intro before m' rest' split
  exact quiet (m :: before) m' rest' (by rw [split, List.cons_append])

/-- A state inside the loop: as `Between`, but of the messages any number may be there whole. -/
inductive Framing.Amid (behind : Byte) : List μ → List Byte → Reader α σ → Prop where
  | head {todo : List μ} {missing pre unread post : List Byte} {s : Reader α σ}
      (holds : s.conn.Holds pre unread post) (none_kept : s.conn.unprocessData = none)
      (bytes : unread ++ missing = F.stream todo)
      (quiet : QuietBehind F behind todo missing post) : Amid behind todo missing s
  | body {m : μ} {rest : List μ} {missing pre unread post : List Byte} {s : Reader α σ} {kept : α}
      (holds : s.conn.Holds pre unread post) (pending : s.conn.unprocessData = some kept)
      (head : F.Kept m kept) (more : F.body m ≠ [])
      (bytes : unread ++ missing = F.body m ++ F.stream rest)
      (quiet : QuietBehind F behind (m :: rest) missing post) : Amid behind (m :: rest) missing s

section Loop

variable {F} {behind : Byte} {todo : List μ} {missing : List Byte}

/-- A round inside the loop: it leaves the loop, or it takes the next message. -/
theorem Framing.Amid.round (clean : ∀ k, F.Clean k) (amid : F.Amid behind todo missing s)
    (ready : F.Ready todo s) :
    (∃ s', readRound side behind s = .ok (false, s') ∧ s'.log = s.log ∧ F.Between todo missing s' ∧
      F.Ready todo s') ∨
    ∃ m rest s', todo = m :: rest ∧ readRound side behind s = .ok (true, s') ∧
      s'.log = F.record m s.log ∧ s'.conn.rbytes < s.conn.rbytes ∧ F.Amid behind rest missing s' ∧
      F.Ready rest s' := by
  cases amid with
  | @head _ _ pre unread post _ holds none_kept bytes quiet =>
      cases todo with
      | nil =>
          have empty := List.append_eq_nil_iff.mp (show unread ++ missing = [] from bytes)
          refine .inl ⟨s, ?_, rfl, .head holds none_kept bytes (by simp), ready⟩
          rw [readRound, if_pos]
          rw [holds.rbytes, empty.1]
          rfl
      | cons m rest =>
          by_cases short : unread.length < (F.head m).length
          · refine .inl ⟨s, ?_, rfl, .head holds none_kept bytes ?_, ready⟩
            · apply round_waits F behind holds none_kept bytes short
              intro oneLine
              apply quiet [] m rest rfl
              rw [← bytes, List.length_append]
              omega
            · rintro _ _ ⟨⟩
              exact short
          · rw [F.stream_cons] at bytes
            obtain ⟨piece, rfl, bodyBytes⟩ := append_split bytes (by omega)
            by_cases whole : (F.body m).length ≤ piece.length
            · obtain ⟨following, rfl, restBytes⟩ := append_split bodyBytes whole
              obtain ⟨s', pre', next, log, holds', none', ready'⟩ :=
                round_takes F behind holds none_kept (clean _) (by rw [List.append_assoc]) ready
              have length := F.head_length m
              refine .inr ⟨m, rest, s', rfl, next, log, ?_, .head holds' none' restBytes quiet.tail, ready'⟩
              rw [holds'.rbytes, holds.rbytes, List.length_append, List.length_append]
              omega
            · obtain ⟨missing', cut, -⟩ := append_split bodyBytes.symm (by omega)
              have more : missing' ≠ [] := by
                rintro rfl
                rw [List.append_nil] at cut
                exact whole (by rw [cut])
              obtain ⟨s', pre', kept, stops, log, holds', pending, head, ready'⟩ :=
                round_keeps F behind holds none_kept (clean _) rfl cut more ready
              exact .inl ⟨s', stops, log, .body holds' pending head bodyBytes (by omega), ready'⟩
  | @body m rest _ pre unread post _ kept holds pending head more bytes quiet =>
      by_cases whole : (F.body m).length ≤ unread.length
      · obtain ⟨following, rfl, restBytes⟩ := append_split bytes whole
        obtain ⟨s', pre', next, log, holds', none', ready'⟩ :=
          round_resumes F behind holds pending head more rfl ready
        have positive := List.length_pos_of_ne_nil more
        refine .inr ⟨m, rest, s', rfl, next, log, ?_, .head holds' none' restBytes quiet.tail, ready'⟩
        rw [holds'.rbytes, holds.rbytes, List.length_append]
        omega
      · exact .inl ⟨s, round_pending F behind holds pending head (by omega), rfl,
          .body holds pending head bytes (by omega), ready⟩

theorem Framing.Amid.rounds (clean : ∀ k, F.Clean k) (fuel : Nat) :
    ∀ (todo : List μ) (s : Reader α σ), F.Amid behind todo missing s → F.Ready todo s →
      s.conn.rbytes < fuel →
      ∃ handed left s', todo = handed ++ left ∧ readRounds side behind fuel s = .ok s' ∧
        s'.log = handed.foldl (fun log m => F.record m log) s.log ∧ F.Between left missing s' ∧
        F.Ready left s' := by
  induction fuel with
  | zero =>
      intro todo s _ _ enough
      omega
  | succ fuel ih =>
      intro todo s amid ready enough
      rcases amid.round clean ready with
        ⟨s', stops, log, between, ready'⟩ | ⟨m, rest, s', rfl, next, log, less, amid', ready'⟩
      · exact ⟨[], todo, s', rfl, by simp only [readRounds, stops], log, between, ready'⟩
      · obtain ⟨handed, left, s'', split, ran, log', between, ready''⟩ :=
          ih rest s' amid' ready' (by omega)
        exact ⟨m :: handed, left, s'', by rw [split, List.cons_append],
          by simp only [readRounds, next, ran], by rw [log', log, List.foldl_cons], between, ready''⟩

end Loop

end Rounds

/-- A short read: at least a byte, and fewer than there is room for. -/
def ShortRead (_ : Nat) (s : Reader α σ) (piece : List Byte) : Prop :=
  piece ≠ [] ∧ piece.length < s.conn.rsize - s.conn.rbytes

/-- What a read needs for the stream to survive it: the compaction copies right, and where the bytes
    received so far end with the first line of a message, the byte of the buffer behind them is no
    newline. `n` bytes were received before. -/
def Unharmed {side : ReadSide α σ} (F : Framing side μ) (env : ReadEnv) (ms : List μ) (n : Nat)
    (s : Reader α σ) (piece : List Byte) : Prop :=
  Compacts env.memcpy s.conn ∧
    (F.EndsFirstLine ms (n + piece.length) →
      s.conn.rbuf[s.conn.rbytes + piece.length]? ≠ some newline)

/-- Every read of a run meets a condition, which sees the number of bytes received before and the
    state before. -/
def EveryRead (side : ReadSide α σ) (env : ReadEnv) (P : Nat → Reader α σ → List Byte → Prop) :
    Nat → Reader α σ → List (List Byte) → Prop
  | _, _, [] => True
  | n, s, piece :: rest =>
      P n s piece ∧ ∀ s', cbRead side env [.data piece] s = .ok s' →
        EveryRead side env P (n + piece.length) s' rest

section Run

variable {side : ReadSide α σ} (F : Framing side μ) {env : ReadEnv}

/-- A state before a read: as `Between`, but of the first message any part may be there that is not all
    of it. -/
inductive Framing.Stands : List μ → List Byte → Reader α σ → Prop where
  | head {todo : List μ} {missing pre unread post : List Byte} {s : Reader α σ}
      (holds : s.conn.Holds pre unread post) (none_kept : s.conn.unprocessData = none)
      (bytes : unread ++ missing = F.stream todo)
      (short : ∀ m rest, todo = m :: rest → unread.length < (F.head m ++ F.body m).length) :
      Stands todo missing s
  | body {m : μ} {rest : List μ} {missing pre unread post : List Byte} {s : Reader α σ} {kept : α}
      (holds : s.conn.Holds pre unread post) (pending : s.conn.unprocessData = some kept)
      (head : F.Kept m kept) (bytes : unread ++ missing = F.body m ++ F.stream rest)
      (short : unread.length < (F.body m).length) : Stands (m :: rest) missing s

theorem Framing.Between.stands {todo : List μ} {missing : List Byte} {s : Reader α σ}
    (between : F.Between todo missing s) : F.Stands todo missing s := by
  cases between with
  | head holds none_kept bytes short =>
      refine .head holds none_kept bytes fun m rest same => ?_
      have less := short m rest same
      rw [List.length_append]
      omega
  | body holds pending head bytes short => exact .body holds pending head bytes short

theorem Framing.Stands.partly {todo : List μ} {missing : List Byte} {s : Reader α σ}
    (stands : F.Stands todo missing s) : ∃ extra,
      (F.stream todo).length = extra + missing.length ∧
      ∀ m rest, todo = m :: rest → extra < (F.head m ++ F.body m).length := by
  cases stands with
  | @head _ _ pre unread post _ holds none_kept bytes short =>
      exact ⟨unread.length, by rw [← bytes, List.length_append], short⟩
  | @body m rest _ pre unread post _ kept holds pending head bytes short =>
      refine ⟨(F.head m).length + unread.length, ?_, ?_⟩
      · have length := congrArg List.length bytes
        simp only [List.length_append] at length
        simp only [F.stream_cons, List.length_append]
        omega
      · rintro m' rest' ⟨⟩
        rw [List.length_append]
        omega

theorem Framing.arrived_split (handed left : List μ) {extra : Nat}
    (short : ∀ m rest, left = m :: rest → extra < (F.head m ++ F.body m).length) :
    F.arrived (handed ++ left) ((F.stream handed).length + extra) = handed := by
  induction handed with
  | nil =>
      cases left with
      | nil => rfl
      | cons m rest =>
          have less := short m rest rfl
          simp only [List.nil_append, Framing.arrived, Framing.stream, List.flatMap_nil,
            List.length_nil]
          rw [if_neg (by omega)]
  | cons m handed ih =>
      have length : (F.stream (m :: handed)).length + extra =
          (F.head m ++ F.body m).length + ((F.stream handed).length + extra) := by
        simp only [F.stream_cons, List.length_append]
        omega
      rw [List.cons_append, Framing.arrived, length, if_pos (by omega), Nat.add_sub_cancel_left, ih]

theorem Framing.arrived_all (ms : List μ) : F.arrived ms (F.stream ms).length = ms := by
  have short : ∀ m rest, [] = m :: rest → 0 < (F.head m ++ F.body m).length := by simp
  have all := F.arrived_split ms [] short
  rwa [List.append_nil] at all

theorem Framing.Stands.arrived {ms handed todo : List μ} {missing : List Byte} {s : Reader α σ} {n : Nat}
    (stands : F.Stands todo missing s) (split : ms = handed ++ todo)
    (count : n + missing.length = (F.stream ms).length) : F.arrived ms n = handed := by
  obtain ⟨extra, length, short⟩ := stands.partly
  have here : n = (F.stream handed).length + extra := by
    have total := congrArg List.length (F.stream_append handed todo)
    rw [List.length_append] at total
    rw [split] at count
    omega
  rw [here, split, F.arrived_split handed todo short]

/-- What the bytes behind the ones received must be like, as a read finds them. -/
theorem quiet_read {todo : List μ} {piece missing : List Byte} {s : Reader α σ}
    {pre unread post : List Byte} (holds : s.conn.Holds pre unread post)
    (short : piece.length < s.conn.rsize - s.conn.rbytes)
    (quiet : ∀ before m rest, todo = before ++ m :: rest →
      missing.length + (F.line₁ m).length + 1 = (F.stream (m :: rest)).length →
      s.conn.rbuf[s.conn.rbytes + piece.length]? ≠ some newline) :
    QuietBehind F env.behind todo missing (s.conn.rbuf.drop (s.conn.rbytes + piece.length)) := by
  have inside : s.conn.rbytes + piece.length < s.conn.rbuf.length := by
    rw [← holds.rsize]
    omega
  intro before m rest split oneLine
  rw [List.head?_append_of_ne_nil _ (by simp only [ne_eq, List.drop_eq_nil_iff]; omega), List.head?_drop]
  exact quiet before m rest split oneLine

theorem stands_read (clean : ∀ k, F.Clean k) {todo : List μ} {piece missing : List Byte}
    {s : Reader α σ} (stands : F.Stands todo (piece ++ missing) s) (ready : F.Ready todo s)
    (short : piece.length < s.conn.rsize - s.conn.rbytes) (compacts : Compacts env.memcpy s.conn)
    (quiet : ∀ before m rest, todo = before ++ m :: rest →
      missing.length + (F.line₁ m).length + 1 = (F.stream (m :: rest)).length →
      s.conn.rbuf[s.conn.rbytes + piece.length]? ≠ some newline) :
    ∃ handed left s', todo = handed ++ left ∧ cbRead side env [.data piece] s = .ok s' ∧
      s'.log = handed.foldl (fun log m => F.record m log) s.log ∧ F.Between left missing s' ∧
      F.Ready left s' := by
  obtain ⟨c, read, amid, ready'⟩ : ∃ c, readFromConn env.memcpy env.grow [.data piece] s.conn =
      .returned true c [] ∧ F.Amid env.behind todo missing { s with conn := c } ∧
      F.Ready todo { s with conn := c } := by
    cases stands with
    | @head _ _ pre unread post _ holds none_kept bytes _ =>
        obtain ⟨c, read, holds', same, kept, thread⟩ := readFromConn_short env.grow holds compacts short
        rw [← List.append_assoc] at bytes
        exact ⟨c, read, .head holds' (kept.trans none_kept) bytes (quiet_read F holds short quiet),
          F.ready todo s _ ready same thread rfl⟩
    | @body m rest _ pre unread post _ kept holds pending head bytes bodyShort =>
        obtain ⟨c, read, holds', same, kept', thread⟩ :=
          readFromConn_short env.grow holds compacts short
        have more : F.body m ≠ [] := by
          intro empty
          rw [empty] at bodyShort
          cases bodyShort
        rw [← List.append_assoc] at bytes
        exact ⟨c, read, .body holds' (kept'.trans pending) head more bytes
          (quiet_read F holds short quiet), F.ready _ s _ ready same thread rfl⟩
  obtain ⟨handed, left, s', split, ran, log, between, ready''⟩ :=
    amid.rounds clean (c.rbytes + 2) _ _ ready' (by simp)
  exact ⟨handed, left, s', split, by simp only [cbRead, read]; exact ran, log, between, ready''⟩

theorem unharmed_quiet {ms handed todo : List μ} {n : Nat} {piece missing : List Byte} {s : Reader α σ}
    (split : ms = handed ++ todo) (count : n + (piece ++ missing).length = (F.stream ms).length)
    (unharmed : Unharmed F env ms n s piece) (before : List μ) (m : μ) (rest : List μ)
    (split' : todo = before ++ m :: rest)
    (oneLine : missing.length + (F.line₁ m).length + 1 = (F.stream (m :: rest)).length) :
    s.conn.rbuf[s.conn.rbytes + piece.length]? ≠ some newline := by
  refine unharmed.2 ⟨handed ++ before, m, rest, by rw [split, split', List.append_assoc], ?_⟩
  have total := congrArg List.length (F.stream_append (handed ++ before) (m :: rest))
  rw [List.length_append, List.append_assoc] at total
  rw [split, split'] at count
  simp only [List.length_append] at count oneLine
  omega

/-- The whole stream, piece by piece: what has arrived whole has been delivered, in order. -/
theorem cbReads_framing (clean : ∀ k, F.Clean k) (ms : List μ) {missing : List Byte}
    (pieces : List (List Byte)) :
    ∀ (handed todo : List μ) (n : Nat) (s : Reader α σ), ms = handed ++ todo →
      F.Stands todo (pieces.flatten ++ missing) s → F.Ready todo s →
      n + (pieces.flatten ++ missing).length = (F.stream ms).length →
      EveryRead side env ShortRead n s pieces → EveryRead side env (Unharmed F env ms) n s pieces →
      ∃ s', cbReads side env (pieces.map fun piece => [.data piece]) s = .ok s' ∧
        ∀ log₀, s.log = handed.foldl (fun log m => F.record m log) log₀ →
          s'.log = (F.arrived ms (n + pieces.flatten.length)).foldl
            (fun log m => F.record m log) log₀ := by
  induction pieces with
  | nil =>
      intro handed todo n s split stands ready count _ _
      refine ⟨s, rfl, fun log₀ log => ?_⟩
      rw [stands.arrived F split (by simpa using count)]
      exact log
  | cons piece pieces ih =>
      rintro handed todo n s split stands ready count ⟨⟨-, short⟩, shorts⟩ ⟨harmless, unharmed⟩
      rw [List.flatten_cons, List.append_assoc] at stands count
      obtain ⟨more, left, s', split', ran, log, between, ready'⟩ :=
        stands_read F clean stands ready short harmless.1 (unharmed_quiet F split count harmless)
      obtain ⟨s'', rest, log'⟩ := ih (handed ++ more) left (n + piece.length) s'
        (by rw [split, split', List.append_assoc]) between.stands ready'
        (by rw [List.length_append] at count; omega) (shorts s' ran) (unharmed s' ran)
      refine ⟨s'', by simp only [List.map_cons, cbReads, ran, rest], fun log₀ before => ?_⟩
      rw [log' log₀ (by rw [log, before, List.foldl_append]), List.flatten_cons,
        List.length_append, Nat.add_assoc]

end Run

end OpenRpc
