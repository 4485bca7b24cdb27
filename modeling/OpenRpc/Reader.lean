import OpenRpc.RoundTrip

/-! # The read callbacks

`cb_req_read` and `cb_rsp_read` share their shape: read once, then take messages out of the buffer
until what is left is no whole message. `ReadSide` holds what they differ in, and `cbRead` is the
shape. A run that has not returned is an error value: it still waits for the kernel, or it did
something C leaves undefined.
-/

namespace OpenRpc

open Memory

/-- Why a callback has not returned. `spent` is the model's: the loop was cut off. -/
inductive Stop where
  | waiting
  | undefined
  | spent
  deriving Repr, DecidableEq

/-- A connection with its read callback: how many heads were parsed on it, and what has become of
    the messages. -/
structure Reader (α σ : Type) where
  conn : RpcConn α
  parses : Nat
  log : σ

/-- What the two read callbacks differ in. `parse k` and `copyHead k` work on the objects allocated for
    the `k`-th head; `deliver` says whether the loop goes on. -/
structure ReadSide (α σ : Type) where
  parse : Nat → Window → ParseResult α × Window
  copyHead : Nat → List Byte → α → Option α
  bodyLen : α → Nat
  withBody : α → CharPtr → α
  deliver : Reader α σ → α → Except Stop (Bool × Reader α σ)

/-- What a read needs besides the connection; `behind` is the byte after the block of `rbuf`. -/
structure ReadEnv where
  memcpy : Memcpy
  grow : Grow
  behind : Byte

variable {α σ : Type}

/-- Take the parsed or resumed message `obj` from the reader, and say whether the loop goes on. -/
def ReadSide.hand (side : ReadSide α σ) (s : Reader α σ) (c : Window) (obj : α) :
    Except Stop (Bool × Reader α σ) :=
  side.deliver { s with conn := s.conn.setWindow c } obj

/-- One round of the `for (;;)` behind `read_from_conn`. -/
def readRound (side : ReadSide α σ) (behind : Byte) (s : Reader α σ) :
    Except Stop (Bool × Reader α σ) :=
  if s.conn.rbytes = 0 then .ok (false, s)
  else
    match s.conn.unprocessData with
    | none =>
        match s.conn.window? with
        | none => .error .undefined
        | some c =>
            if rpcConnReceivedHead (c.rbuf.drop c.rcurr ++ [behind]) c.rbytes then
              let parsed := { s with parses := s.parses + 1 }
              match side.parse s.parses c with
              | (.ok obj, c) => side.hand parsed c obj
              | (.needData obj, c) =>
                  match side.copyHead s.parses c.rbuf obj with
                  | none => .error .undefined
                  | some kept =>
                      .ok (false, { parsed with conn := { s.conn.setWindow c with
                                                            unprocessData := some kept } })
              | (.error, c) => .ok (false, { parsed with conn := s.conn.setWindow c })
              | (.undefined, _) => .error .undefined
            else .ok (false, s)
    | some last =>
        if side.bodyLen last ≤ s.conn.rbytes then
          match s.conn.window? with
          | none => .error .undefined
          | some c =>
              side.hand { s with conn := { s.conn with unprocessData := none } }
                ⟨c.rbuf, c.rcurr + side.bodyLen last, c.rbytes - side.bodyLen last⟩
                (side.withBody last (.rbuf c.rcurr))
        else .ok (false, s)

/-- The `for (;;)`, cut off after a number of rounds. -/
def readRounds (side : ReadSide α σ) (behind : Byte) : Nat → Reader α σ → Except Stop (Reader α σ)
  | 0, _ => .error .spent
  | fuel + 1, s =>
      match readRound side behind s with
      | .error stop => .error stop
      | .ok (false, s) => .ok s
      | .ok (true, s) => readRounds side behind fuel s

/-- One run of the callback on the answers `reads`. A round that goes on uses up unread bytes, except
    for a resumed message without a body, so two rounds more than bytes are enough. -/
def cbRead (side : ReadSide α σ) (env : ReadEnv) (reads : List ReadResult) (s : Reader α σ) :
    Except Stop (Reader α σ) :=
  match readFromConn env.memcpy env.grow reads s.conn with
  | .undefined => .error .undefined
  | .pending _ => .error .waiting
  | .returned false conn _ => .ok { s with conn := conn }
  | .returned true conn _ => readRounds side env.behind (conn.rbytes + 2) { s with conn := conn }

/-- The callback run after run, each with its own answers. -/
def cbReads (side : ReadSide α σ) (env : ReadEnv) :
    List (List ReadResult) → Reader α σ → Except Stop (Reader α σ)
  | [], s => .ok s
  | reads :: rest, s =>
      match cbRead side env reads s with
      | .error stop => .error stop
      | .ok s => cbReads side env rest s

/-- A run computed to return did return. -/
theorem returned_of_computed {ρ τ : Type} {run : Except Stop ρ} {f : ρ → τ} {v : τ}
    (h : run.toOption.map f = some v) : ∃ s, run = .ok s ∧ f s = v := by
  cases run with
  | error stop => simp [Except.toOption] at h
  | ok s => exact ⟨s, rfl, by simpa [Except.toOption] using h⟩

/-- A read callback whose parser takes at least a byte and whose delivery takes none. -/
structure ReadSide.Consumes (side : ReadSide α σ) : Prop where
  parse : ∀ k c obj c', 0 < c.rbytes → side.parse k c = (.ok obj, c') → c'.rbytes < c.rbytes
  deliver : ∀ s obj go s', side.deliver s obj = .ok (go, s') →
    s'.conn.rbytes = s.conn.rbytes ∧ s'.conn.unprocessData = s.conn.unprocessData
  alive : ∀ s obj, side.deliver s obj ≠ .error .spent

/-- How much a round can still do: every unread byte, and a message to resume. -/
def Reader.work (s : Reader α σ) : Nat :=
  s.conn.rbytes + if s.conn.unprocessData.isSome then 1 else 0

theorem window_rbytes {c : RpcConn α} {w : Window} (h : c.window? = some w) : w.rbytes = c.rbytes := by
  simp only [RpcConn.window?, Option.map_eq_some_iff] at h
  obtain ⟨p, -, rfl⟩ := h
  rfl

/-- What a round that returns has done; `true` where the loop goes on. -/
inductive RoundMoves (side : ReadSide α σ) (behind : Byte) (s : Reader α σ) :
    Bool → Reader α σ → Prop where
  | empty (none_unread : s.conn.rbytes = 0) : RoundMoves side behind s false s
  | waits (c : Window) (unread : s.conn.rbytes ≠ 0) (idle : s.conn.unprocessData = none)
      (window : s.conn.window? = some c)
      (no_head : ¬rpcConnReceivedHead (c.rbuf.drop c.rcurr ++ [behind]) c.rbytes) :
      RoundMoves side behind s false s
  | whole {go : Bool} {s' : Reader α σ} (c c' : Window) (obj : α) (unread : s.conn.rbytes ≠ 0)
      (idle : s.conn.unprocessData = none) (window : s.conn.window? = some c)
      (head : rpcConnReceivedHead (c.rbuf.drop c.rcurr ++ [behind]) c.rbytes)
      (parsed : side.parse s.parses c = (.ok obj, c'))
      (delivered : side.deliver { s with conn := s.conn.setWindow c', parses := s.parses + 1 } obj =
        .ok (go, s')) : RoundMoves side behind s go s'
  | keeps (c c' : Window) (obj kept : α) (unread : s.conn.rbytes ≠ 0)
      (idle : s.conn.unprocessData = none) (window : s.conn.window? = some c)
      (head : rpcConnReceivedHead (c.rbuf.drop c.rcurr ++ [behind]) c.rbytes)
      (parsed : side.parse s.parses c = (.needData obj, c'))
      (copied : side.copyHead s.parses c'.rbuf obj = some kept) :
      RoundMoves side behind s false
        { s with conn := { s.conn.setWindow c' with unprocessData := some kept }
                 parses := s.parses + 1 }
  | rejects (c c' : Window) (unread : s.conn.rbytes ≠ 0) (idle : s.conn.unprocessData = none)
      (window : s.conn.window? = some c)
      (head : rpcConnReceivedHead (c.rbuf.drop c.rcurr ++ [behind]) c.rbytes)
      (parsed : side.parse s.parses c = (.error, c')) :
      RoundMoves side behind s false
        { s with conn := s.conn.setWindow c', parses := s.parses + 1 }
  | resumes {go : Bool} {s' : Reader α σ} (c : Window) (last : α) (unread : s.conn.rbytes ≠ 0)
      (pending : s.conn.unprocessData = some last) (window : s.conn.window? = some c)
      (enough : side.bodyLen last ≤ s.conn.rbytes)
      (delivered : side.deliver
        { s with conn := { s.conn with unprocessData := none }.setWindow
                   ⟨c.rbuf, c.rcurr + side.bodyLen last, c.rbytes - side.bodyLen last⟩ }
        (side.withBody last (.rbuf c.rcurr)) = .ok (go, s')) : RoundMoves side behind s go s'
  | short (last : α) (unread : s.conn.rbytes ≠ 0) (pending : s.conn.unprocessData = some last)
      (missing : ¬side.bodyLen last ≤ s.conn.rbytes) : RoundMoves side behind s false s

theorem readRound_moves {side : ReadSide α σ} {behind : Byte} {s s' : Reader α σ} {go : Bool}
    (h : readRound side behind s = .ok (go, s')) : RoundMoves side behind s go s' := by
  unfold readRound at h
  split at h
  · rename_i none_unread
    cases h
    exact .empty none_unread
  · rename_i unread
    split at h
    · rename_i idle
      split at h
      · cases h
      · rename_i c window
        split at h
        · rename_i head
          split at h
          · rename_i obj c' parsed
            exact .whole c c' obj unread idle window head parsed h
          · rename_i obj c' parsed
            split at h
            · cases h
            · rename_i kept copied
              cases h
              exact .keeps c c' obj kept unread idle window head parsed copied
          · rename_i c' parsed
            cases h
            exact .rejects c c' unread idle window head parsed
          · cases h
        · rename_i no_head
          cases h
          exact .waits c unread idle window no_head
    · rename_i last pending
      split at h
      · rename_i enough
        split at h
        · cases h
        · rename_i c window
          exact .resumes c last unread pending window enough h
      · rename_i missing
        cases h
        exact .short last unread pending missing

theorem readRound_work {side : ReadSide α σ} (consumes : side.Consumes) (behind : Byte)
    {s s' : Reader α σ} (h : readRound side behind s = .ok (true, s')) : s'.work < s.work := by
  cases readRound_moves h with
  | whole c c' obj unread idle window head parsed delivered =>
      have same := window_rbytes window
      obtain ⟨bytes, kept⟩ := consumes.deliver _ _ _ _ delivered
      have fewer := consumes.parse _ _ _ _ (by omega) parsed
      simp only [RpcConn.setWindow] at bytes kept
      simp only [Reader.work, bytes, kept, idle]
      simp
      omega
  | resumes c last unread pending window enough delivered =>
      have same := window_rbytes window
      obtain ⟨bytes, kept⟩ := consumes.deliver _ _ _ _ delivered
      simp only [RpcConn.setWindow] at bytes kept
      simp only [Reader.work, bytes, kept, pending]
      simp
      omega

theorem readRound_alive {side : ReadSide α σ} (consumes : side.Consumes) (behind : Byte)
    (s : Reader α σ) : readRound side behind s ≠ .error .spent := by
  intro h
  unfold readRound at h
  split at h
  · cases h
  · split at h
    · split at h
      · cases h
      · split at h
        · split at h
          · exact consumes.alive _ _ h
          · split at h <;> cases h
          · cases h
          · cases h
        · cases h
    · split at h
      · split at h
        · cases h
        · exact consumes.alive _ _ h
      · cases h

/-- The rounds allowed are enough: no run of a callback is cut off. -/
theorem cbRead_not_spent {side : ReadSide α σ} (consumes : side.Consumes) (env : ReadEnv)
    (reads : List ReadResult) (s : Reader α σ) : cbRead side env reads s ≠ .error .spent := by
  have rounds : ∀ fuel s, s.work < fuel → readRounds side env.behind fuel s ≠ .error .spent := by
    intro fuel
    induction fuel with
    | zero =>
        intro s enough
        omega
    | succ fuel ih =>
        intro s enough h
        unfold readRounds at h
        split at h
        · rename_i stop failed
          cases h
          exact readRound_alive consumes env.behind s failed
        · cases h
        · rename_i s' next
          have less := readRound_work consumes env.behind next
          exact ih s' (by omega) h
  unfold cbRead
  split
  · simp
  · simp
  · simp
  · apply rounds
    simp only [Reader.work]
    split <;> omega

/-- A property of a reader that reading and parsing leave alone and every delivery keeps. -/
structure ReadSide.Keeps (side : ReadSide α σ) (P : Reader α σ → Prop) : Prop where
  read : ∀ s s', s.conn.SameSendSide s'.conn → s'.log = s.log → P s → P s'
  deliver : ∀ s obj go s', side.deliver s obj = .ok (go, s') → P s → P s'

theorem readRound_keeps {side : ReadSide α σ} {P : Reader α σ → Prop} (keeps : side.Keeps P)
    (behind : Byte) {s s' : Reader α σ} {go : Bool} (h : readRound side behind s = .ok (go, s'))
    (holds : P s) : P s' := by
  have window : ∀ (c : Window) (kept : Option α) (k : Nat),
      P ⟨{ s.conn.setWindow c with unprocessData := kept }, k, s.log⟩ := by
    intro c kept k
    exact keeps.read s _ ⟨rfl, rfl, id, rfl, rfl⟩ rfl holds
  cases readRound_moves h with
  | empty | waits | short => exact holds
  | whole c c' obj unread idle window' head parsed delivered =>
      exact keeps.deliver _ _ _ _ delivered (window _ _ _)
  | keeps | rejects => exact window _ _ _
  | resumes c last unread pending window' enough delivered =>
      exact keeps.deliver _ _ _ _ delivered (keeps.read s _ ⟨rfl, rfl, id, rfl, rfl⟩ rfl holds)

theorem cbRead_keeps {side : ReadSide α σ} {P : Reader α σ → Prop} (keeps : side.Keeps P)
    {env : ReadEnv} {reads : List ReadResult} {s s' : Reader α σ}
    (h : cbRead side env reads s = .ok s') (holds : P s) : P s' := by
  have rounds : ∀ fuel s s', readRounds side env.behind fuel s = .ok s' → P s → P s' := by
    intro fuel
    induction fuel with
    | zero =>
        intro s s' h
        cases h
    | succ fuel ih =>
        intro s s' h holds
        unfold readRounds at h
        split at h
        · cases h
        · rename_i s₁ last
          cases h
          exact readRound_keeps keeps env.behind last holds
        · rename_i s₁ next
          exact ih _ _ h (readRound_keeps keeps env.behind next holds)
  unfold cbRead at h
  split at h
  · cases h
  · cases h
  · rename_i conn rest returned
    cases h
    exact keeps.read s _ (readFromConn_sendSide returned) rfl holds
  · rename_i conn rest returned
    exact rounds _ _ _ h (keeps.read s _ (readFromConn_sendSide returned) rfl holds)

/-- The invariant rule for whole runs of a callback. -/
theorem cbReads_keeps {side : ReadSide α σ} {P : Reader α σ → Prop} (keeps : side.Keeps P)
    {env : ReadEnv} {runs : List (List ReadResult)} {s s' : Reader α σ}
    (h : cbReads side env runs s = .ok s') (holds : P s) : P s' := by
  induction runs generalizing s with
  | nil =>
      cases h
      exact holds
  | cons reads runs ih =>
      unfold cbReads at h
      split at h
      · cases h
      · rename_i s₁ ran
        exact ih h (cbRead_keeps keeps ran holds)

end OpenRpc
