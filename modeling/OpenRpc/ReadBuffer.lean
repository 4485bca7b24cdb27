import OpenRpc.Framing

/-! # The read buffer

What `read_from_conn` makes of the bytes that are unread. The compaction copies them with `memcpy`, also
where they overlap the place they are copied to; the loop behind it only ever adds to them, whether it
doubles the block or not.
-/

namespace OpenRpc

open Memory

variable {α : Type} {grow : Grow}

def ReadResult.bytes : ReadResult → List Byte
  | .data bytes => bytes
  | .eof | .intr | .wouldBlock | .fail => []

/-- The bytes that reads bring. -/
def received (reads : List ReadResult) : List Byte := reads.flatMap ReadResult.bytes

/-- No read finds the connection closed, and none fails but for EINTR and EWOULDBLOCK. -/
def Successful (reads : List ReadResult) : Prop := ∀ r ∈ reads, r ≠ .eof ∧ r ≠ .fail

/-- No answer brings more than `read` was asked for. -/
def AnswersFit (grow : Grow) : List ReadResult → Nat → RpcConn α → Prop
  | [], _, _ => True
  | r :: rest, numAllocs, c =>
      match makeRoom grow numAllocs c with
      | none => True
      | some (numAllocs, c) =>
          match r with
          | .data bytes =>
              bytes.length ≤ c.rsize - c.rbytes ∧
                AnswersFit grow rest numAllocs { c with rbuf := overwrite c.rbuf c.rbytes bytes
                                                        rbytes := c.rbytes + bytes.length }
          | _ => AnswersFit grow rest numAllocs c

/-- `realloc` adds as many bytes as it was asked for. -/
def GrowsRight (grow : Grow) : Prop := ∀ size added, grow size = some added → added.length * 2 = size

section Loop

variable {reads rest : List ReadResult} {n n' : Nat} {c c' d : RpcConn α} {value : Bool}
  {unread post : List Byte}

/-- The test before a read leaves what is unread at the start of the block. -/
theorem makeRoom_holds (grows : GrowsRight grow) (room : makeRoom grow n c = some (n', c'))
    (holds : c.Holds [] unread post) : ∃ post', c'.Holds [] unread post' := by
  obtain ⟨-, -, rfl⟩ | ⟨added, -, -, -, granted, -, rfl⟩ := makeRoom_cases room
  · exact ⟨post, holds⟩
  · have size := grows _ _ granted
    have block := holds.rsize
    refine ⟨post ++ added, by simp [holds.rbuf], rfl, holds.rbytes, ?_⟩
    simp only [List.length_append]
    omega

theorem RpcConn.Holds.store (holds : c.Holds [] unread post) {bytes : List Byte}
    (fit : bytes.length ≤ c.rsize - c.rbytes) :
    RpcConn.Holds { c with rbuf := overwrite c.rbuf c.rbytes bytes
                           rbytes := c.rbytes + bytes.length } []
      (unread ++ bytes) (post.drop bytes.length) := by
  have length := holds.rsize
  rw [holds.rbuf, List.nil_append, List.length_append] at length
  have stored : overwrite c.rbuf c.rbytes bytes = unread ++ bytes ++ post.drop bytes.length := by
    rw [overwrite, holds.rbuf, holds.rbytes, List.nil_append, List.take_left, ← List.drop_drop,
      List.drop_left]
  rw [stored, holds.rbytes]
  refine ⟨rfl, holds.rcurr, List.length_append.symm, ?_⟩
  rw [holds.rbytes] at fit
  simp only [List.length_append, List.length_drop]
  omega

theorem readReturns_holds (grows : GrowsRight grow) (h : ReadReturns grow reads n c value c' rest)
    (successful : Successful reads) (answers : AnswersFit grow reads n c)
    (holds : c.Holds [] unread post) :
    value = true ∧ ∃ used post', reads = used ++ rest ∧ c'.Holds [] (unread ++ received used) post' := by
  induction h generalizing unread post with
  | full => exact ⟨rfl, [], post, rfl, by simpa [received] using holds⟩
  | @fills bytes reads rest n n' c c₁ c' value room whole next ih =>
      obtain ⟨-, successful⟩ := List.forall_mem_cons.mp successful
      simp only [AnswersFit, room] at answers
      obtain ⟨post₁, holds₁⟩ := makeRoom_holds grows room holds
      obtain ⟨true', used, post', split, holds'⟩ := ih successful answers.2 (holds₁.store answers.1)
      refine ⟨true', .data bytes :: used, post', by rw [split, List.cons_append], ?_⟩
      rw [List.append_assoc] at holds'
      exact holds'
  | @short bytes reads n n' c c₁ room part =>
      simp only [AnswersFit, room] at answers
      obtain ⟨post₁, holds₁⟩ := makeRoom_holds grows room holds
      refine ⟨rfl, [.data bytes], post₁.drop bytes.length, rfl, ?_⟩
      simpa [received, ReadResult.bytes] using holds₁.store answers.1
  | @again r reads rest n n' c c₁ c' value unheard room next ih =>
      obtain ⟨-, successful⟩ := List.forall_mem_cons.mp successful
      obtain ⟨post₁, holds₁⟩ := makeRoom_holds grows room holds
      have later : AnswersFit grow reads n' c₁ := by
        rcases unheard with rfl | rfl <;> simpa only [AnswersFit, room] using answers
      have nothing : r.bytes = [] := by rcases unheard with rfl | rfl <;> rfl
      obtain ⟨true', used, post', split, holds'⟩ := ih successful later holds₁
      refine ⟨true', r :: used, post', by rw [split, List.cons_append], ?_⟩
      rwa [received, List.flatMap_cons, nothing, List.nil_append]
  | closes hangs room =>
      obtain ⟨heard, -⟩ := List.forall_mem_cons.mp successful
      rcases hangs with ⟨rfl, -⟩ | ⟨rfl, -⟩
      · exact absurd rfl heard.1
      · exact absurd rfl heard.2

end Loop

section Sizes

variable {reads rest : List ReadResult} {n n' : Nat} {c c' d : RpcConn α} {value : Bool}

/-- The numbers that the loop decides by. -/
structure RpcConn.SameRoom (c d : RpcConn α) : Prop where
  rsize : d.rsize = c.rsize
  rbytes : d.rbytes = c.rbytes

theorem makeRoom_sameRoom (grow : Grow) (n : Nat) (same : c.SameRoom d) :
    (makeRoom grow n c = none ∧ makeRoom grow n d = none) ∨
    ∃ n' c' d', makeRoom grow n c = some (n', c') ∧ makeRoom grow n d = some (n', d') ∧
      c'.SameRoom d' := by
  simp only [makeRoom, same.rsize, same.rbytes]
  split
  · split
    · exact .inl ⟨rfl, rfl⟩
    · cases granted : (if c.rsize * 2 ≤ INT_MAX then grow (c.rsize * 2) else none) with
      | none => exact .inl ⟨rfl, rfl⟩
      | some added => exact .inr ⟨_, _, _, rfl, rfl, rfl, rfl⟩
  · exact .inr ⟨_, _, _, rfl, rfl, same⟩

theorem answersFit_sameRoom (same : c.SameRoom d) (answers : AnswersFit grow reads n c) :
    AnswersFit grow reads n d := by
  induction reads generalizing n c d with
  | nil => trivial
  | cons r reads ih =>
      rcases makeRoom_sameRoom grow n same with
        ⟨room, room'⟩ | ⟨n', c', d', room, room', same'⟩
      · simp only [AnswersFit, room']
      · simp only [AnswersFit, room, room'] at answers ⊢
        cases r with
        | data bytes =>
            rw [same'.rsize, same'.rbytes]
            exact ⟨answers.1, ih (by exact ⟨rfl, rfl⟩) answers.2⟩
        | eof | intr | wouldBlock | fail => exact ih same' answers

theorem readLoop_sameRoom (same : c.SameRoom d)
    (h : readLoop grow reads n c = .returned value c' rest) :
    ∃ d', readLoop grow reads n d = .returned value d' rest := by
  induction reads generalizing n c d with
  | nil =>
      rcases makeRoom_sameRoom grow n same with
        ⟨room, room'⟩ | ⟨n', c', d', room, room', same'⟩
      · simp only [readLoop, room] at h
        cases h
        exact ⟨d, by simp only [readLoop, room']⟩
      · simp only [readLoop, room] at h
        cases h
  | cons r reads ih =>
      rcases makeRoom_sameRoom grow n same with
        ⟨room, room'⟩ | ⟨n', c', d', room, room', same'⟩
      · simp only [readLoop, room] at h
        cases h
        exact ⟨d, by simp only [readLoop, room']⟩
      · simp only [readLoop, room, room'] at h ⊢
        cases r with
        | data bytes =>
            rw [same'.rsize, same'.rbytes]
            by_cases whole : bytes.length = c'.rsize - c'.rbytes
            · simp only [if_pos whole] at h ⊢
              exact ih (by exact ⟨rfl, rfl⟩) h
            · simp only [if_neg whole] at h ⊢
              cases h
              exact ⟨_, rfl⟩
        | intr | wouldBlock => exact ih same' h
        | eof | fail =>
            cases h
            exact ⟨_, rfl⟩

end Sizes

section Block

variable {reads rest : List ReadResult} {n n' : Nat} {c c' : RpcConn α} {value : Bool}

/-- A connection whose unread bytes lie in its block. -/
structure RpcConn.Fits (c : RpcConn α) : Prop where
  block : c.rbuf.length = c.rsize
  window : ∀ q, c.rcurr = some q → q + c.rbytes ≤ c.rsize

theorem RpcConn.Fits.holds (fits : c.Fits) {p : Nat} (here : c.rcurr = some p) :
    ∃ pre unread post, c.Holds pre unread post ∧ pre.length = p := by
  have inside : p + c.rbytes ≤ c.rbuf.length := by
    rw [fits.block]
    exact fits.window p here
  obtain ⟨pre, post, memory, start⟩ := slice_split c.rbuf inside
  exact ⟨pre, _, post, ⟨memory, by rw [start, here], (slice_length inside).symm, fits.block.symm⟩, start⟩

/-- `memcpy` works inside the block, and `realloc` adds as many bytes as it was asked for. -/
structure ReadEnv.KeepsBlocks (env : ReadEnv) : Prop where
  memcpy : ∀ mem src n, (env.memcpy mem src n).length = mem.length
  grow : ∀ size added, env.grow size = some added → added.length * 2 = size

/-- The block is as long as `rsize` says and has not been filled beyond, and the unread bytes of a
    connection that is open start it. -/
structure RpcConn.Started (c : RpcConn α) : Prop where
  block : c.rbuf.length = c.rsize
  full : c.rbytes ≤ c.rsize
  start : ∀ q, c.rcurr = some q → q = 0

theorem RpcConn.Started.fits (started : c.Started) : c.Fits := by
  refine ⟨started.block, fun q here => ?_⟩
  rw [started.start q here, Nat.zero_add]
  exact started.full

theorem makeRoom_iovused (room : makeRoom grow n c = some (n', c')) : c'.iovused = c.iovused := by
  obtain ⟨-, -, rfl⟩ | ⟨added, -, -, -, -, -, rfl⟩ := makeRoom_cases room
  · rfl
  · rfl

theorem makeRoom_started (grows : GrowsRight grow) (room : makeRoom grow n c = some (n', c'))
    (started : c.Started) : c'.Started := by
  have block := started.block
  have full := started.full
  obtain ⟨-, -, rfl⟩ | ⟨added, -, -, -, granted, -, rfl⟩ := makeRoom_cases room
  · exact started
  · have size := grows _ _ granted
    refine ⟨?_, by simp only; omega, fun q here => (Option.some.inj here).symm⟩
    simp only [List.length_append]
    omega

theorem readReturns_started (grows : GrowsRight grow) (h : ReadReturns grow reads n c value c' rest)
    (answers : AnswersFit grow reads n c) (started : c.Started) :
    c'.Started ∧ c'.iovused ≤ c.iovused := by
  induction h with
  | full => exact ⟨started, Nat.le_refl _⟩
  | fills room whole next ih =>
      have started₁ := makeRoom_started grows room started
      have used₁ := makeRoom_iovused room
      have block₁ := started₁.block
      have full₁ := started₁.full
      simp only [AnswersFit, room] at answers
      obtain ⟨fit, later⟩ := answers
      obtain ⟨started', used'⟩ := ih later ⟨by rw [overwrite_length (by omega), block₁],
        by simp only; omega, started₁.start⟩
      exact ⟨started', by rwa [← used₁]⟩
  | short room part =>
      have started₁ := makeRoom_started grows room started
      have used₁ := makeRoom_iovused room
      have block₁ := started₁.block
      have full₁ := started₁.full
      simp only [AnswersFit, room] at answers
      exact ⟨⟨by rw [overwrite_length (by omega), block₁], by simp only; omega, started₁.start⟩,
        Nat.le_of_eq used₁⟩
  | again unheard room next ih =>
      have started₁ := makeRoom_started grows room started
      have used₁ := makeRoom_iovused room
      simp only [AnswersFit, room] at answers
      rw [← used₁]
      rcases unheard with rfl | rfl <;> exact ih answers started₁
  | closes hangs room =>
      have started₁ := makeRoom_started grows room started
      exact ⟨⟨started₁.block, started₁.full, fun q here => by cases here⟩, Nat.zero_le _⟩

theorem compact_started {memcpy : Memcpy} (keeps : ∀ mem src n, (memcpy mem src n).length = mem.length)
    (compacted : compact memcpy c = some c') (fits : c.Fits) :
    c'.Started ∧ c.SameRoom c' ∧ c'.iovused = c.iovused := by
  have block := fits.block
  unfold compact at compacted
  split at compacted
  · split at compacted
    · cases compacted
      exact ⟨⟨block, by simp only; omega, fun q here => (Option.some.inj here).symm⟩, ⟨rfl, rfl⟩, rfl⟩
    · cases compacted
  · rename_i here
    have inside := fits.window 0 here
    cases compacted
    exact ⟨⟨block, by omega, fun q here' => Option.some.inj (here'.symm.trans here)⟩, ⟨rfl, rfl⟩, rfl⟩
  · rename_i p _ here
    have inside := fits.window _ here
    cases compacted
    refine ⟨⟨?_, by simp only; omega, fun q here => (Option.some.inj here).symm⟩, ⟨rfl, rfl⟩, rfl⟩
    simp only
    split
    · exact block
    · rw [keeps, block]

theorem readFromConn_started {memcpy : Memcpy}
    (keeps : ∀ mem src n, (memcpy mem src n).length = mem.length) (grows : GrowsRight grow)
    (h : readFromConn memcpy grow reads c = .returned value c' rest) (fits : c.Fits)
    (answers : AnswersFit grow reads 0 c) : c'.Started ∧ c'.iovused ≤ c.iovused := by
  unfold readFromConn at h
  cases compacted : compact memcpy c with
  | none =>
      simp only [compacted] at h
      cases h
  | some c₁ =>
      simp only [compacted] at h
      obtain ⟨started, same, used⟩ := compact_started keeps compacted fits
      rw [← used]
      exact readReturns_started grows (readLoop_returns h) (answersFit_sameRoom same answers) started

end Block

/-- Whatever `read_from_conn` returns, the unread bytes start the block and lie inside of it: those that
    were unread before, and then all that has been read. -/
def KeepsUnread (memcpy : Memcpy) (grow : Grow) (reads : List ReadResult) (c : RpcConn α)
    (unread : List Byte) : Prop :=
  ∀ value c' rest, readFromConn memcpy grow reads c = .returned value c' rest →
    ∃ used post, reads = used ++ rest ∧ c'.Holds [] (unread ++ received used) post

/-- A `memcpy` that keeps its promise and no more: where the two overlap, the first byte is another. -/
def overlappingMemcpy : Memcpy := fun mem src n =>
  if n ≤ src then moved mem src n else (moved mem src n).set 0 ((slice mem src n).headD 0 + 1)

theorem overlappingMemcpy_contract : MemcpyContract overlappingMemcpy :=
  fun _ _ _ apart _ => if_pos apart

section Run

variable {reads : List ReadResult} {c : RpcConn α} {pre unread post : List Byte}

theorem RpcConn.Holds.compacted (holds : c.Holds pre unread post) :
    RpcConn.Holds { c with rbuf := unread ++ c.rbuf.drop unread.length, rcurr := some 0 } [] unread
      (c.rbuf.drop unread.length) := by
  have bytes := congrArg List.length holds.rbuf
  simp only [List.length_append] at bytes
  refine ⟨rfl, rfl, holds.rbytes, ?_⟩
  simp only [List.length_append, List.length_drop, holds.rsize]
  omega

theorem RpcConn.Holds.compacts {memcpy : Memcpy} (contract : MemcpyContract memcpy)
    (holds : c.Holds pre unread post) (apart : pre = [] ∨ unread.length ≤ pre.length) :
    Compacts memcpy c := by
  intro p here positive _
  obtain rfl : pre.length = p := Option.some.inj (holds.rcurr.symm.trans here)
  have bytes := congrArg List.length holds.rbuf
  simp only [List.length_append] at bytes
  rw [holds.rbytes]
  exact contract _ _ _ (apart.resolve_left (List.ne_nil_of_length_pos positive)) (by omega)

theorem readFromConn_keeps {memcpy : Memcpy} (grows : GrowsRight grow)
    (holds : c.Holds pre unread post) (successful : Successful reads)
    (answers : AnswersFit grow reads 0 c) (compacts : Compacts memcpy c) :
    KeepsUnread memcpy grow reads c unread := by
  intro value c' rest returned
  simp only [readFromConn, compact_eq holds compacts] at returned
  exact (readReturns_holds grows (readLoop_returns returned) successful
    (answersFit_sameRoom (by exact ⟨rfl, rfl⟩) answers) holds.compacted).2

/-- Where the unread bytes overlap the place they are moved to, a `memcpy` that makes use of that does
    not keep them. -/
theorem readFromConn_overlapping (grows : GrowsRight grow) (holds : c.Holds pre unread post)
    (successful : Successful reads) (answers : AnswersFit grow reads 0 c)
    (returns : ∃ value c' rest, readFromConn moved grow reads c = .returned value c' rest)
    (before : pre ≠ []) (overlaps : pre.length < unread.length) :
    ¬KeepsUnread overlappingMemcpy grow reads c unread := by
  intro keeps
  obtain ⟨b, tail, rfl⟩ : ∃ b tail, unread = b :: tail :=
    List.exists_cons_of_length_pos (Nat.zero_lt_of_lt overlaps)
  have bytes := congrArg List.length holds.rbuf
  simp only [List.length_append] at bytes
  let rest := c.rbuf.drop (b :: tail).length
  let c₁ : RpcConn α := { c with rbuf := (b + 1) :: tail ++ rest, rcurr := some 0 }
  have copied : overlappingMemcpy c.rbuf pre.length c.rbytes = (b + 1) :: tail ++ rest := by
    have first : slice c.rbuf pre.length (b :: tail).length = b :: tail := by
      rw [holds.rbuf, slice_append]
    rw [holds.rbytes, overlappingMemcpy, if_neg (Nat.not_le.mpr overlaps), holds.moves, first]
    rfl
  have compacted : compact overlappingMemcpy c = some c₁ := by
    have some_bytes : c.rbytes ≠ 0 := by
      rw [holds.rbytes]
      exact Nat.succ_ne_zero _
    rw [compact_copies _ holds.rcurr (List.length_pos_of_ne_nil before).ne' some_bytes, copied]
  have start : c₁.Holds [] ((b + 1) :: tail) rest := by
    refine ⟨rfl, rfl, holds.rbytes, ?_⟩
    simp only [c₁, rest, List.length_append, List.length_drop, List.length_cons, holds.rsize] at bytes ⊢
    omega
  obtain ⟨value, c', left, returned⟩ := returns
  simp only [readFromConn, compact_eq holds (fun _ _ _ _ => rfl)] at returned
  obtain ⟨c'', returned'⟩ := readLoop_sameRoom (d := c₁) (by exact ⟨rfl, rfl⟩) returned
  obtain ⟨-, used, post', -, altered⟩ := readReturns_holds grows (readLoop_returns returned') successful
    (answersFit_sameRoom (by exact ⟨rfl, rfl⟩) answers) start
  obtain ⟨used', post'', -, kept⟩ := keeps value c'' left (by simp only [readFromConn, compacted, returned'])
  have same := kept.rbuf.symm.trans altered.rbuf
  simp at same

/-- `read_from_conn` keeps what is unread, with any `memcpy` that copies right where source and
    destination do not overlap, exactly where they do not, or where there is nothing to copy. -/
theorem readFromConn_keepsUnread (grows : GrowsRight grow) (holds : c.Holds pre unread post)
    (successful : Successful reads) (answers : AnswersFit grow reads 0 c)
    (returns : ∃ value c' rest, readFromConn moved grow reads c = .returned value c' rest) :
    (∀ memcpy, MemcpyContract memcpy → KeepsUnread memcpy grow reads c unread) ↔
      pre = [] ∨ unread.length ≤ pre.length := by
  constructor
  · intro keeps
    by_contra overlaps
    push Not at overlaps
    exact readFromConn_overlapping grows holds successful answers returns overlaps.1 overlaps.2
      (keeps overlappingMemcpy overlappingMemcpy_contract)
  · exact fun apart memcpy contract =>
      readFromConn_keeps grows holds successful answers (holds.compacts contract apart)

/-- A server connection with these bytes consumed, unread and free. -/
def connHolding (pre unread post : List Byte) : RpcConn RpcRequest :=
  { rpcConnNewInner (allocConn (pre ++ unread ++ post) []) 3 0 with
    rcurr := some pre.length
    rsize := (pre ++ unread ++ post).length
    rbytes := unread.length }

theorem connHolding_holds (pre unread post : List Byte) :
    (connHolding pre unread post).Holds pre unread post := ⟨rfl, rfl, rfl, rfl⟩

theorem connHolding_short (pre unread : List Byte) {post : List Byte} (bytes : List Byte)
    (short : bytes.length < post.length) :
    AnswersFit (fun _ => none) [.data bytes] 0 (connHolding pre unread post) ∧
      ∃ value c' rest, readFromConn moved (fun _ => none) [.data bytes]
        (connHolding pre unread post) = .returned value c' rest := by
  have room : bytes.length <
      (connHolding pre unread post).rsize - (connHolding pre unread post).rbytes := by
    simp only [connHolding, List.length_append]
    omega
  constructor
  · simp only [AnswersFit, makeRoom, if_neg (show ¬(connHolding pre unread post).rsize ≤
      (connHolding pre unread post).rbytes by omega)]
    exact ⟨room.le, trivial⟩
  · obtain ⟨c', returned, -⟩ := readFromConn_short (fun _ => none) (connHolding_holds pre unread post)
      (fun _ _ _ _ => rfl) room
    exact ⟨true, c', [], returned⟩

theorem successful_data (bytes : List Byte) : Successful [.data bytes] := by
  simp [Successful]

theorem noGrowth_right : GrowsRight fun _ => none := by
  intro size added granted
  cases granted

/-- Less is unread than lies before it. -/
theorem readFromConn_keepsUnread_apart :
    KeepsUnread overlappingMemcpy (fun _ => none) [.data [67]]
      (connHolding [1, 2, 3] [65, 66] [0, 0, 0]) [65, 66] := by
  obtain ⟨answers, returns⟩ := connHolding_short [1, 2, 3] [65, 66] [67]
    (show 1 < [(0 : Byte), 0, 0].length by decide)
  exact (readFromConn_keepsUnread noGrowth_right (connHolding_holds _ _ _) (successful_data _) answers
    returns).mpr (.inr (by decide)) overlappingMemcpy overlappingMemcpy_contract

theorem connHolding_overlapping {pre unread post : List Byte} (before : pre ≠ [])
    (overlaps : pre.length < unread.length) (b : Byte) (short : 1 < post.length) :
    ¬KeepsUnread overlappingMemcpy (fun _ => none) [.data [b]] (connHolding pre unread post) unread := by
  obtain ⟨answers, returns⟩ := connHolding_short pre unread [b] short
  exact readFromConn_overlapping noGrowth_right (connHolding_holds _ _ _) (successful_data _) answers
    returns before overlaps

/-- 200 bytes unread behind 100 that have been consumed. -/
theorem readFromConn_keepsUnread_fails :
    MemcpyContract overlappingMemcpy ∧
    ¬KeepsUnread overlappingMemcpy (fun _ => none) [.data [67]]
      (connHolding (List.replicate 100 65) (List.replicate 200 66) (List.replicate 1748 0))
      (List.replicate 200 66) := by
  refine ⟨overlappingMemcpy_contract, connHolding_overlapping ?_ ?_ 67 ?_⟩
  · exact List.ne_nil_of_length_pos (by rw [List.length_replicate]; decide)
  · rw [List.length_replicate, List.length_replicate]
    decide
  · rw [List.length_replicate]
    decide

end Run

end OpenRpc
