import OpenRpc.Flow

/-! # Runs of any reads

Runs of a read callback in which a run may ask the socket more than once, because a read filled its
space or brought nothing, and in which the block may grow. As long as no run harms the stream, what has
arrived whole has been handed out.
-/

namespace OpenRpc

open Memory

variable {α σ μ : Type} {side : ReadSide α σ}

/-- Every run of the callback meets a condition, which sees the number of bytes received before and the
    state before. -/
def EveryRun (side : ReadSide α σ) (env : ReadEnv) (P : Nat → Reader α σ → List ReadResult → Prop) :
    Nat → Reader α σ → List (List ReadResult) → Prop
  | _, _, [] => True
  | n, s, reads :: rest =>
      P n s reads ∧ ∀ s', cbRead side env reads s = .ok s' →
        EveryRun side env P (n + (received reads).length) s' rest

/-- A run of the callback that the stream survives: the read asks for all of these answers, and returns. -/
structure HarmlessRun (env : ReadEnv) (texts : List (List Byte)) (heard : Nat) (s : Reader α σ)
    (reads : List ReadResult) : Prop where
  read : HarmlessRead env texts heard s.conn reads
  successful : Successful reads
  returns : ∃ go c, readFromConn env.memcpy env.grow reads s.conn = .returned go c []

/-- The bytes that the reads of all runs bring. -/
def receivedBy (runs : List (List ReadResult)) : List Byte := (runs.map received).flatten

theorem receivedBy_cons (reads : List ReadResult) (runs : List (List ReadResult)) :
    receivedBy (reads :: runs) = received reads ++ receivedBy runs := rfl

theorem receivedBy_pieces (pieces : List (List Byte)) :
    receivedBy (pieces.map fun piece => [.data piece]) = pieces.flatten := by
  induction pieces with
  | nil => rfl
  | cons piece pieces ih =>
      rw [List.map_cons, receivedBy_cons, ih, List.flatten_cons]
      simp [received, ReadResult.bytes]

theorem readFromConn_doubles (memcpy : Memcpy) (grow : Grow) {c : RpcConn α}
    {pre unread post a b : List Byte} (holds : c.Holds pre unread post)
    (compacts : Compacts memcpy c) (room : c.rbytes < c.rsize) (fits : c.rsize * 2 ≤ INT_MAX)
    (granted : (grow (c.rsize * 2)).isSome) (first : c.rbytes + a.length = c.rsize)
    (second : b.length < c.rsize) :
    AnswersFit grow [.data a, .data b] 0 c ∧
      ∃ c', readFromConn memcpy grow [.data a, .data b] c = .returned true c' [] := by
  obtain ⟨added, given⟩ := Option.isSome_iff_exists.mp granted
  have inside : makeRoom grow 0 c = some (0, c) := makeRoom_room _ 0 room
  have whole : a.length = c.rsize - c.rbytes := by omega
  have once : ∀ d : RpcConn α, d.rsize = c.rsize → d.rbytes = c.rbytes + a.length →
      makeRoom grow 0 d =
        some (1, { d with rbuf := d.rbuf ++ added, rcurr := some 0, rsize := c.rsize * 2 }) := by
    intro d size bytes
    rw [makeRoom, if_pos (by omega), if_neg (by decide), size, if_pos fits, given]
  constructor
  · have filled := once { c with rbuf := overwrite c.rbuf c.rbytes a, rbytes := c.rbytes + a.length }
      rfl rfl
    simp only [AnswersFit, inside, filled]
    exact ⟨whole.le, by omega, trivial⟩
  · obtain ⟨d, compacted, size, bytes⟩ : ∃ d, compact memcpy c = some d ∧ d.rsize = c.rsize ∧
        d.rbytes = c.rbytes := ⟨_, compact_eq holds compacts, rfl, rfl⟩
    have inside' : makeRoom grow 0 d = some (0, d) := makeRoom_room _ 0 (by omega)
    have filled := once { d with rbuf := overwrite d.rbuf d.rbytes a, rbytes := d.rbytes + a.length }
      size (by rw [bytes])
    simp only [readFromConn, compacted, readLoop, inside']
    rw [if_pos (by rw [whole, size, bytes]), filled]
    simp only
    rw [if_neg (by omega)]
    exact ⟨_, rfl⟩

section Run

variable {F : Framing side μ} {env : ReadEnv} {ms handed todo : List μ} {heard : Nat}
  {missing : List Byte} {s : Reader α σ} {reads : List ReadResult}

theorem HarmlessRun.quiet (harmless : HarmlessRun env (ms.map F.message) heard s reads)
    (split : ms = handed ++ todo)
    (count : heard + (received reads ++ missing).length = (F.stream ms).length) {go : Bool}
    {c : RpcConn α} (read : readFromConn env.memcpy env.grow reads s.conn = .returned go c [])
    (before : List μ) (m : μ) (rest : List μ) (split' : todo = before ++ m :: rest)
    (oneLine : missing.length + (F.line₁ m).length + 1 = (F.stream (m :: rest)).length) :
    (c.rbuf ++ [env.behind])[c.rbytes]? ≠ some newline := by
  refine harmless.read.quiet ?_ go c read
  obtain ⟨tail, lines⟩ := F.message_lines m
  refine ⟨(handed ++ before).map F.message, F.line₁ m, tail, rest.map F.message, ?_,
    (F.lines m).first.one, ?_⟩
  · rw [split, split', ← lines]
    simp
  · have total := congrArg List.length (F.stream_append (handed ++ before) (m :: rest))
    rw [List.length_append, List.append_assoc] at total
    rw [split, split', List.length_append] at count
    rw [← F.stream_messages]
    omega

theorem stands_run (grows : GrowsRight env.grow) (clean : ∀ k, F.Clean k)
    (stands : F.Stands todo (received reads ++ missing) s) (ready : F.Ready todo s)
    (harmless : HarmlessRun env (ms.map F.message) heard s reads) (split : ms = handed ++ todo)
    (count : heard + (received reads ++ missing).length = (F.stream ms).length) :
    ∃ more left s', todo = more ++ left ∧ cbRead side env reads s = .ok s' ∧
      s'.log = more.foldl (fun log m => F.record m log) s.log ∧ F.Between left missing s' ∧
      F.Ready left s' := by
  obtain ⟨go, c, read⟩ := harmless.returns
  obtain ⟨rfl, amid, ready', -⟩ := stands.read grows ready harmless.successful harmless.read.fit
    harmless.read.compacts read (harmless.quiet split count read)
  obtain ⟨more, left, s', split', ran, log, between, ready''⟩ :=
    amid.rounds clean (c.rbytes + 2) _ _ ready' (by simp)
  exact ⟨more, left, s', split', by simp only [cbRead, read]; exact ran, log, between, ready''⟩

theorem cbReads_harmless (grows : GrowsRight env.grow) (clean : ∀ k, F.Clean k)
    (runs : List (List ReadResult)) :
    ∀ (handed todo : List μ) (heard : Nat) (s : Reader α σ), ms = handed ++ todo →
      F.Stands todo (receivedBy runs ++ missing) s → F.Ready todo s →
      heard + (receivedBy runs ++ missing).length = (F.stream ms).length →
      EveryRun side env (HarmlessRun env (ms.map F.message)) heard s runs →
      ∃ s', cbReads side env runs s = .ok s' ∧
        ∀ log₀, s.log = handed.foldl (fun log m => F.record m log) log₀ →
          s'.log = (F.arrived ms (heard + (receivedBy runs).length)).foldl
            (fun log m => F.record m log) log₀ := by
  induction runs with
  | nil =>
      intro handed todo heard s split stands ready count _
      refine ⟨s, rfl, fun log₀ log => ?_⟩
      rw [stands.arrived F split (by simpa [receivedBy] using count)]
      exact log
  | cons reads runs ih =>
      rintro handed todo heard s split stands ready count ⟨harmless, harmlessRuns⟩
      rw [receivedBy_cons, List.append_assoc] at stands count
      obtain ⟨more, left, s', split', ran, log, between, ready'⟩ :=
        stands_run grows clean stands ready harmless split count
      obtain ⟨s'', rest, log'⟩ := ih (handed ++ more) left (heard + (received reads).length) s'
        (by rw [split, split', List.append_assoc]) between.stands ready'
        (by rw [List.length_append] at count; omega) (harmlessRuns s' ran)
      refine ⟨s'', by simp only [cbReads, ran, rest], fun log₀ before => ?_⟩
      rw [log' log₀ (by rw [log, before, List.foldl_append]), receivedBy_cons, List.length_append,
        Nat.add_assoc]

end Run

end OpenRpc
