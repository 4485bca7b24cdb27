import OpenRpc.ConnFreelist
import OpenRpc.ReadBuffer
import OpenRpc.RpcArray

/-! # Growths that fail

The four buffers that double: the read buffer and the iovecs of a connection, the free list of
connections and `rpc_array`. Where `realloc` answers NULL, three of the routines leave without a store;
`rpc_conn_addiov` stores its entry all the same, behind the memory that is held.
-/

namespace OpenRpc

open Memory Transition

/-- A buffer as its fields state it: the memory held, how many of its elements count, and how many it
    is said to have room for. -/
structure Buffer (β : Type) where
  cells : List β
  used : Nat
  capacity : Nat

namespace Buffer

variable {β : Type}

/-- The capacity is the size of the memory, and not more than that counts. -/
structure Sound (b : Buffer β) : Prop where
  held : b.cells.length = b.capacity
  inside : b.used ≤ b.capacity

def elements (b : Buffer β) : List β := b.cells.take b.used

end Buffer

variable {α : Type}

def RpcConn.readBuffer (c : RpcConn α) : Buffer Byte := ⟨c.rbuf, c.rbytes, c.rsize⟩

def RpcConn.iovecs (c : RpcConn α) : Buffer (List Byte) := ⟨c.iov, c.iovused, c.iovsize⟩

def Freelist.buffer (l : Freelist) : Buffer FreeCell := ⟨rpcFreelistInit l, l.freecurr, l.freetotal⟩

def RpcArray.buffer (array : RpcArray) : Buffer (Option Nat) := ⟨array.data, array.cur, array.size⟩

/-- A connection, the free list and an array. `overrun` says that something was stored behind the
    iovecs that are held. -/
structure Buffers (α : Type) where
  conn : RpcConn α
  list : Freelist
  array : RpcArray
  overrun : Bool

/-- The calls, each with what the kernel and the allocator answer. `parse` stands for all that the
    parsers and the callbacks do with a window. -/
inductive BufferCall where
  | read (grow : Grow) (reads : List ReadResult)
  | parse (w : Window)
  | addiov (alloc : Nat → Bool) (data : List Byte)
  | sendMessage (results : List SendResult)
  | connNew (fd l : Nat)
  | connClose
  | addFreelist (added : Option (List (Option Nat))) (c : Nat)
  | fromFreelist
  | arrayAdd (more : Option (Nat → Option Nat)) (p : Option Nat)
  | arrayGet

/-- One call. One that does not return has no state behind it. -/
def bufferStep (memcpy : Memcpy) : Step (Buffers α) BufferCall
  | s, .read grow reads =>
      match readFromConn memcpy grow reads s.conn with
      | .returned _ conn _ => some { s with conn := conn }
      | .pending _ | .undefined => none
  | s, .parse w => some { s with conn := s.conn.setWindow w }
  | s, .addiov alloc data =>
      match rpcConnAddiov alloc s.conn data with
      | some conn => some { s with conn := conn }
      | none => some { s with conn := { s.conn with iovused := s.conn.iovused + 1 }, overrun := true }
  | s, .sendMessage results =>
      match rpcSendMessage results s.conn with
      | .returned conn _ => some { s with conn := conn }
      | .pending _ _ | .undefined => none
  | s, .connNew fd l => some { s with conn := rpcConnNewInner s.conn fd l }
  | s, .connClose => some { s with conn := rpcConnClose s.conn }
  | s, .addFreelist added c => some { s with list := rpcConnAddFreelist added s.list c }
  | s, .fromFreelist => some { s with list := (rpcConnFromFreelist s.list).2 }
  | s, .arrayAdd more p => some { s with array := (rpcArrayAdd more s.array p).2 }
  | s, .arrayGet => some { s with array := (rpcArrayGet s.array).2 }

/-- What the kernel, the allocator and the parsers promise of a call: a read brings no more than it is
    asked for, a realloc adds what it is asked for, and a window stays in its block. Only a connection
    that is open is read. -/
def Promised (s : Buffers α) : BufferCall → Prop
  | .read grow reads => s.conn.rcurr ≠ none ∧ GrowsRight grow ∧ AnswersFit grow reads 0 s.conn
  | .parse w => s.conn.rcurr ≠ none ∧ w.rbuf.length = s.conn.rbuf.length ∧ w.Inside
  | .addFreelist added _ =>
      ∀ junk ∈ added, junk.length = s.list.freetotal ∧ s.list.freetotal * 2 ≤ INT_MAX
  | _ => True

/-- A run of the loop of `read_from_conn` in which `realloc` fails. -/
inductive GrowthFails (grow : Grow) : List ReadResult → Nat → RpcConn α → Prop where
  | here {reads : List ReadResult} {n : Nat} {c : RpcConn α} (full : c.rsize ≤ c.rbytes) (left : n ≠ 4)
      (denied : (if c.rsize * 2 ≤ INT_MAX then grow (c.rsize * 2) else none) = none) :
      GrowthFails grow reads n c
  | fills {bytes : List Byte} {reads : List ReadResult} {n n' : Nat} {c c₁ : RpcConn α}
      (room : makeRoom grow n c = some (n', c₁)) (whole : bytes.length = c₁.rsize - c₁.rbytes)
      (next : GrowthFails grow reads n'
        { c₁ with rbuf := overwrite c₁.rbuf c₁.rbytes bytes
                  rbytes := c₁.rbytes + bytes.length }) :
      GrowthFails grow (.data bytes :: reads) n c
  | again {r : ReadResult} {reads : List ReadResult} {n n' : Nat} {c c₁ : RpcConn α}
      (unheard : r = .intr ∨ r = .wouldBlock) (room : makeRoom grow n c = some (n', c₁))
      (next : GrowthFails grow reads n' c₁) : GrowthFails grow (r :: reads) n c

/-- `realloc` is asked in this call, and answers NULL. -/
def Fails (memcpy : Memcpy) (s : Buffers α) : BufferCall → Prop
  | .read grow reads => ∃ c, compact memcpy s.conn = some c ∧ GrowthFails grow reads 0 c
  | .addiov alloc _ => s.conn.iovsize ≤ s.conn.iovused ∧ alloc (s.conn.iovsize * 2) = false
  | .addFreelist added _ => s.list.freetotal ≤ s.list.freecurr ∧ added = none
  | .arrayAdd more _ => s.array.size ≤ s.array.cur ∧ more = none
  | _ => False

/-- Every buffer is as large as it says, no more counts than it has room for, and nothing has been stored
    outside. -/
structure Buffers.Sound (s : Buffers α) : Prop where
  read : s.conn.readBuffer.Sound
  window : ∀ p, s.conn.rcurr = some p → p + s.conn.rbytes ≤ s.conn.rsize
  iovecs : s.conn.iovecs.Sound
  iovsize : 0 < s.conn.iovsize
  list : s.list.Sized
  array : s.array.buffer.Sound
  inBounds : s.overrun = false

/-- What was in the buffers is there still, in order; behind it there may be more. -/
structure Buffers.Keeps (s s' : Buffers α) : Prop where
  read : ∀ w, s.conn.window? = some w → ∃ w', s'.conn.window? = some w' ∧ w.unread <+: w'.unread
  iovecs : s.conn.iovecs.elements <+: s'.conn.iovecs.elements
  list : s.list.buffer.elements <+: s'.list.buffer.elements
  array : s.array.buffer.elements <+: s'.array.buffer.elements

/-- A call in which `realloc` fails is none of `rpc_conn_addiov`, and if it is a read, the unread bytes
    do not overlap the place they are moved to. -/
def FailsSafely (memcpy : Memcpy) (s : Buffers α) (a : BufferCall) : Prop :=
  Fails memcpy s a →
    match a with
    | .addiov _ _ => False
    | .read _ _ => ∀ p, s.conn.rcurr = some p → p = 0 ∨ s.conn.rbytes ≤ p
    | _ => True

section Calls

variable {memcpy : Memcpy} {s s' : Buffers α}

/-- An entry is stored inside, in room that is there or that `realloc` grants. -/
theorem rpcConnAddiov_sound {c : RpcConn α} (sound : c.iovecs.Sound) (positive : 0 < c.iovsize)
    {alloc : Nat → Bool} (granted : c.iovsize ≤ c.iovused → alloc (c.iovsize * 2) = true)
    (data : List Byte) :
    ∃ c', rpcConnAddiov alloc c data = some c' ∧ c'.iovecs.Sound ∧ 0 < c'.iovsize ∧
      c.SameReadSide c' := by
  obtain ⟨held, inside⟩ := sound
  simp only [RpcConn.iovecs] at held inside
  by_cases full : c.iovsize ≤ c.iovused
  · let cells := c.iov ++ List.replicate c.iovsize []
    have size : cells.length = c.iovsize * 2 := by
      rw [List.length_append, List.length_replicate, held, Nat.mul_two]
    refine ⟨{ c with iov := cells.set c.iovused data, iovsize := c.iovsize * 2
                     iovused := c.iovused + 1 }, ?_, ⟨List.length_set.trans size, ?_⟩, by simp only; omega,
      ⟨rfl, rfl, rfl, rfl, rfl, rfl⟩⟩
    · simp only [rpcConnAddiov, if_pos (And.intro full (granted full))]
      exact if_pos (by rw [size]; omega)
    · simp only [RpcConn.iovecs]
      omega
  · obtain ⟨c', stored, -, held', used, size, same, -⟩ :=
      rpcConnAddiov_queued alloc held (Nat.lt_of_not_le full) data
    refine ⟨c', stored, ⟨held', ?_⟩, by omega, same⟩
    simp only [RpcConn.iovecs]
    omega

theorem Buffers.Sound.queue (sound : s.Sound) {c : RpcConn α} (same : s.conn.SameReadSide c)
    (iovecs : c.iovecs.Sound) (positive : 0 < c.iovsize) : Buffers.Sound { s with conn := c } := by
  obtain ⟨held, inside⟩ := sound.read
  refine ⟨⟨?_, ?_⟩, fun p here => ?_, iovecs, positive, sound.list, sound.array, sound.inBounds⟩
  · rw [RpcConn.readBuffer, same.rbuf, same.rsize]
    exact held
  · rw [RpcConn.readBuffer, same.rbytes, same.rsize]
    exact inside
  · rw [same.rcurr] at here
    rw [same.rbytes, same.rsize]
    exact sound.window p here

theorem addiov_sound {alloc : Nat → Bool} {data : List Byte} (sound : s.Sound)
    (step : bufferStep memcpy s (.addiov alloc data) = some s') :
    s'.Sound ↔ ¬Fails memcpy s (.addiov alloc data) := by
  obtain ⟨held, -⟩ := sound.iovecs
  unfold RpcConn.iovecs at held
  by_cases fails : Fails memcpy s (.addiov alloc data)
  · obtain ⟨full, denied⟩ := fails
    have behind : rpcConnAddiov alloc s.conn data = none := by
      simp [rpcConnAddiov, denied, held, full]
    simp only [bufferStep, behind] at step
    cases step
    refine iff_of_false (fun sound' => ?_) (not_not_intro ⟨full, denied⟩)
    cases (show true = false from sound'.inBounds)
  · have granted : s.conn.iovsize ≤ s.conn.iovused → alloc (s.conn.iovsize * 2) = true := by
      intro full
      by_contra denied
      exact fails ⟨full, Bool.eq_false_of_not_eq_true denied⟩
    obtain ⟨c, stored, iovecs, positive, same⟩ :=
      rpcConnAddiov_sound sound.iovecs sound.iovsize granted data
    simp only [bufferStep, stored] at step
    cases step
    exact iff_of_true (sound.queue same iovecs positive) fails

theorem sendLoop_buffers {results rest : List SendResult} {c c' : RpcConn α} {iov : List (List Byte)}
    {accepted : List Byte} (h : sendLoop results c iov accepted = .returned c' rest) :
    c'.readBuffer = c.readBuffer ∧ (c'.rcurr = c.rcurr ∨ c'.rcurr = none) ∧ c'.iov = c.iov ∧
      c'.iovsize = c.iovsize ∧ c'.iovused = 0 := by
  induction results generalizing c iov accepted with
  | nil => cases h
  | cons r results ih =>
      cases r with
      | again => exact ih h
      | fail =>
          obtain ⟨read, closed, iov, size, used⟩ := ih h
          exact ⟨read, .inr (closed.elim id id), iov, size, used⟩
      | count n =>
          unfold sendLoop at h
          split at h
          · split at h
            · cases h
              exact ⟨rfl, .inl rfl, rfl, rfl, rfl⟩
            · cases h
            · exact ih h
          · cases h
            exact ⟨rfl, .inl rfl, rfl, rfl, rfl⟩

theorem rpcArrayAdd_sound (array : RpcArray) : array.buffer.Sound := ⟨array.held, array.inside⟩

/-- A call that keeps its promises and fails safely leaves the buffers sound. -/
theorem bufferStep_sound (keeps : ∀ mem src n, (memcpy mem src n).length = mem.length) {a : BufferCall}
    (promised : Promised s a) (safe : FailsSafely memcpy s a) (step : bufferStep memcpy s a = some s')
    (sound : s.Sound) : s'.Sound := by
  have fits : s.conn.Fits := ⟨sound.read.held, sound.window⟩
  cases a with
  | read grow reads =>
      obtain ⟨-, grows, answers⟩ := promised
      simp only [bufferStep] at step
      split at step
      · rename_i value c rest returned
        cases step
        obtain ⟨started, used⟩ := readFromConn_started keeps grows returned fits answers
        have same := readFromConn_sendSide returned
        have iovecs := sound.iovecs
        refine ⟨⟨started.block, started.full⟩, started.fits.window, ⟨?_, ?_⟩, ?_, sound.list, sound.array,
          sound.inBounds⟩
        · rw [RpcConn.iovecs, same.iov, same.iovsize]
          exact iovecs.held
        · rw [RpcConn.iovecs, same.iovsize]
          exact Nat.le_trans used iovecs.inside
        · rw [same.iovsize]
          exact sound.iovsize
      · cases step
      · cases step
  | parse w =>
      obtain ⟨-, length, inside⟩ := promised
      cases step
      have held := sound.read.held
      simp only [RpcConn.readBuffer] at held
      simp only [Window.Inside] at inside
      refine ⟨⟨length.trans held, ?_⟩, fun p here => ?_, sound.iovecs, sound.iovsize, sound.list,
        sound.array, sound.inBounds⟩
      · simp only [RpcConn.readBuffer, RpcConn.setWindow]
        omega
      · cases here
        simp only [RpcConn.setWindow]
        omega
  | addiov alloc data => exact (addiov_sound sound step).mpr fun fails => safe fails
  | sendMessage results =>
      simp only [bufferStep, rpcSendMessage] at step
      split at step
      · rename_i c rest returned
        cases step
        obtain ⟨read, closed, iov, size, used⟩ := sendLoop_buffers returned
        have parts := Buffer.mk.inj read
        refine ⟨by rw [read]; exact sound.read, fun p here => ?_, ⟨?_, ?_⟩, by rw [size]; exact sound.iovsize,
          sound.list, sound.array, sound.inBounds⟩
        · rw [parts.2.1, parts.2.2]
          rcases closed with same | none_left
          · exact sound.window p (same ▸ here)
          · rw [none_left] at here
            cases here
        · rw [RpcConn.iovecs, iov, size]
          exact sound.iovecs.held
        · rw [RpcConn.iovecs, used]
          exact Nat.zero_le _
      · cases step
      · cases step
  | connNew fd l =>
      cases step
      refine ⟨⟨sound.read.held, Nat.zero_le _⟩, fun p here => ?_, ⟨sound.iovecs.held, Nat.zero_le _⟩,
        sound.iovsize, sound.list, sound.array, sound.inBounds⟩
      cases here
      exact Nat.zero_le _
  | connClose =>
      cases step
      exact ⟨sound.read, (fun p here => by cases here), ⟨sound.iovecs.held, Nat.zero_le _⟩, sound.iovsize,
        sound.list, sound.array, sound.inBounds⟩
  | addFreelist added c =>
      cases step
      exact { sound with list := sound.list.add promised }
  | fromFreelist =>
      cases step
      exact { sound with list := sound.list.take }
  | arrayAdd more p =>
      cases step
      exact { sound with array := rpcArrayAdd_sound _ }
  | arrayGet =>
      cases step
      exact { sound with array := rpcArrayAdd_sound _ }

/-- A read in which `realloc` fails returns with all that it has read before. -/
theorem growthFails_returns {grow : Grow} {reads : List ReadResult} {n : Nat} {c : RpcConn α}
    {unread post : List Byte} (grows : GrowsRight grow) (fails : GrowthFails grow reads n c)
    (answers : AnswersFit grow reads n c) (holds : c.Holds [] unread post) :
    ∃ c' rest more post', readLoop grow reads n c = .returned true c' rest ∧
      c'.Holds [] (unread ++ more) post' ∧ c'.iov = c.iov ∧ c'.iovused = c.iovused := by
  induction fails generalizing unread post with
  | @here reads n c full left denied =>
      have stops : makeRoom grow n c = none := by
        rw [makeRoom, if_pos full, if_neg left, denied]
      refine ⟨c, reads, [], post, ?_, by rwa [List.append_nil], rfl, rfl⟩
      cases reads <;> simp only [readLoop, stops]
  | @fills bytes reads n n' c c₁ room whole next ih =>
      simp only [AnswersFit, room] at answers
      obtain ⟨post₁, holds₁⟩ := makeRoom_holds grows room holds
      obtain ⟨c', rest, more, post', returned, holds', iov, used⟩ :=
        ih answers.2 (holds₁.store answers.1)
      have same := makeRoom_sendSide room
      have used₁ := makeRoom_iovused room
      refine ⟨c', rest, bytes ++ more, post', ?_, by rwa [← List.append_assoc], iov.trans same.iov,
        used.trans used₁⟩
      simp only [readLoop, room, if_pos whole, returned]
  | @again r reads n n' c c₁ unheard room next ih =>
      simp only [AnswersFit, room] at answers
      obtain ⟨post₁, holds₁⟩ := makeRoom_holds grows room holds
      have later : AnswersFit grow reads n' c₁ := by rcases unheard with rfl | rfl <;> exact answers
      obtain ⟨c', rest, more, post', returned, holds', iov, used⟩ := ih later holds₁
      have same := makeRoom_sendSide room
      refine ⟨c', rest, more, post', ?_, holds', iov.trans same.iov, used.trans (makeRoom_iovused room)⟩
      rcases unheard with rfl | rfl <;> simp only [readLoop, room, returned]

theorem bufferStep_keeps (contract : MemcpyContract memcpy) {a : BufferCall} (promised : Promised s a)
    (safe : FailsSafely memcpy s a) (fails : Fails memcpy s a)
    (step : bufferStep memcpy s a = some s') (sound : s.Sound) : s.Keeps s' := by
  have same : s.Keeps s := ⟨fun w here => ⟨w, here, List.prefix_rfl⟩, List.prefix_rfl, List.prefix_rfl,
    List.prefix_rfl⟩
  cases a with
  | read grow reads =>
      obtain ⟨isOpen, grows, answers⟩ := promised
      have apart := safe fails
      obtain ⟨c₁, compacted, stops⟩ := fails
      obtain ⟨p, here⟩ := Option.ne_none_iff_exists'.mp isOpen
      obtain ⟨pre, unread, post, holds, rfl⟩ :=
        RpcConn.Fits.holds ⟨sound.read.held, sound.window⟩ here
      have behind : pre = [] ∨ unread.length ≤ pre.length := by
        rw [← holds.rbytes, ← List.length_eq_zero_iff]
        exact apart _ here
      rw [compact_eq holds (holds.compacts contract behind), Option.some.injEq] at compacted
      subst compacted
      obtain ⟨c', rest, more, post', returned, holds', iov, used⟩ := growthFails_returns grows stops
        (answersFit_sameRoom (by exact ⟨rfl, rfl⟩) answers) holds.compacted
      simp only [bufferStep, readFromConn, compact_eq holds (holds.compacts contract behind),
        returned] at step
      cases step
      have entries : c'.iovecs.elements = s.conn.iovecs.elements := by
        simp only [RpcConn.iovecs, Buffer.elements, iov, used]
      refine ⟨fun w seen => ⟨_, holds'.window, ?_⟩, by rw [entries], same.list, same.array⟩
      rw [holds.window, Option.some.injEq] at seen
      rw [← seen, Window.frame_unread, Window.frame_unread]
      exact List.prefix_append unread more
  | addiov alloc data => exact absurd fails (fun f => safe f)
  | addFreelist added c =>
      obtain ⟨full, rfl⟩ := fails
      cases step
      simp only [rpcConnAddFreelist, if_neg (Nat.not_lt.mpr full)]
      exact ⟨same.read, same.iovecs, List.prefix_rfl, same.array⟩
  | arrayAdd more p =>
      obtain ⟨full, rfl⟩ := fails
      cases step
      simp only [rpcArrayAdd, dif_neg (Nat.not_lt.mpr full)]
      exact same
  | parse w => exact absurd fails id
  | sendMessage results => exact absurd fails id
  | connNew fd l => exact absurd fails id
  | connClose => exact absurd fails id
  | fromFreelist => exact absurd fails id
  | arrayGet => exact absurd fails id

end Calls

/-- The buffers of a new connection, with a free list and an array that are new. -/
def newBuffers (block : List Byte) (vector : List (List Byte)) (fd l : Nat) : Buffers α where
  conn := rpcConnNewInner (allocConn block vector) fd l
  list := .initial
  array := rpcArrayNew
  overrun := false

theorem newBuffers_sound {block : List Byte} {vector : List (List Byte)}
    (bytes : block.length = BUFFER_SIZE) (entries : vector.length = 5) (fd l : Nat) :
    (newBuffers block vector fd l : Buffers α).Sound := by
  refine ⟨⟨bytes, Nat.zero_le _⟩, fun p here => ?_, ⟨entries, Nat.zero_le _⟩, Nat.succ_pos 4, ?_,
    rpcArrayAdd_sound _, rfl⟩
  · cases here
    exact Nat.zero_le _
  · exact ⟨Nat.succ_pos 199, List.length_replicate, Nat.zero_le _⟩

/-- In every run of calls in which `realloc` fails safely if it fails, the buffers are sound in every
    state, and each failure leaves them as they were. -/
theorem buffers_intact {memcpy : Memcpy} (contract : MemcpyContract memcpy)
    (keeps : ∀ mem src n, (memcpy mem src n).length = mem.length) {block : List Byte}
    {vector : List (List Byte)} (bytes : block.length = BUFFER_SIZE) (entries : vector.length = 5)
    (fd l : Nat) (calls : List BufferCall)
    (along : Along (bufferStep memcpy) (fun s a => Promised s a ∧ FailsSafely memcpy s a)
      (newBuffers block vector fd l : Buffers α) calls) :
    Always (bufferStep memcpy) Buffers.Sound (newBuffers block vector fd l : Buffers α) calls ∧
    Along (bufferStep memcpy)
      (fun s a => Fails memcpy s a → ∀ s', bufferStep memcpy s a = some s' → s.Keeps s')
      (newBuffers block vector fd l : Buffers α) calls := by
  have start : (newBuffers block vector fd l : Buffers α).Sound := newBuffers_sound bytes entries fd l
  have steps : ∀ (s : Buffers α) a s', Promised s a ∧ FailsSafely memcpy s a →
      bufferStep memcpy s a = some s' → s.Sound → s'.Sound :=
    fun s a s' here step sound => bufferStep_sound keeps here.1 here.2 step sound
  exact ⟨always_of_along (fun _ sound => sound) steps along start,
    along_imp (fun s a here sound fails s' step =>
      bufferStep_keeps contract here.1 here.2 fails step sound) steps along start⟩

theorem moved_length (mem : List Byte) (src n : Nat) : (moved mem src n).length = mem.length := by
  rw [moved, overwrite_length]
  simp only [slice, List.length_take, List.length_drop]
  omega

theorem fullRead_safe (block : List Byte) (vector : List (List Byte)) {bytes : List Byte}
    (size : bytes.length = BUFFER_SIZE) (fd l : Nat) :
    Along (bufferStep moved) (fun s a => Promised s a ∧ FailsSafely moved s a)
      (newBuffers block vector fd l : Buffers α) [.read (fun _ => none) [.data bytes]] := by
  refine fun s' _ => ⟨⟨⟨Option.some_ne_none 0, noGrowth_right, ?_⟩, fun _ p here => .inl ?_⟩, trivial⟩
  · have room : makeRoom (fun _ => none) 0 (newBuffers block vector fd l : Buffers α).conn =
        some (0, (newBuffers block vector fd l : Buffers α).conn) := if_neg (Nat.not_succ_le_zero 2047)
    simp only [AnswersFit, room]
    exact ⟨Nat.le_of_eq size, trivial⟩
  · exact (Option.some.inj here).symm

/-- A read that fills the block, which cannot be doubled. -/
theorem buffers_intact_full :
    let start : Buffers RpcRequest := newBuffers (List.replicate 2048 0) (List.replicate 5 []) 3 0
    let calls : List BufferCall := [.read (fun _ => none) [.data (List.replicate 2048 65)]]
    Always (bufferStep moved) Buffers.Sound start calls ∧
      Along (bufferStep moved)
        (fun s a => Fails moved s a → ∀ s', bufferStep moved s a = some s' → s.Keeps s') start calls :=
  buffers_intact (fun _ _ _ _ _ => rfl) moved_length List.length_replicate List.length_replicate 3 0 _
    (fullRead_safe _ _ List.length_replicate 3 0)

/-- The sixth of six entries does not fit, and is stored. -/
theorem buffers_intact_fails :
    let start : Buffers RpcRequest := newBuffers (List.replicate 2048 0) (List.replicate 5 []) 3 0
    let calls : List BufferCall := List.replicate 6 (.addiov (fun _ => false) [65])
    ((exec (bufferStep moved) start calls).map fun s =>
      (s.conn.iovused, s.conn.iovsize, s.conn.iov.length, s.overrun)) = some (6, 5, 5, true) ∧
    ¬Always (bufferStep moved) Buffers.Sound start calls := by
  intro start calls
  have ends : ((exec (bufferStep moved) start calls).map fun s =>
      (s.conn.iovused, s.conn.iovsize, s.conn.iov.length, s.overrun)) = some (6, 5, 5, true) := by
    decide +kernel
  refine ⟨ends, fun always => ?_⟩
  obtain ⟨s, run, fields⟩ := Option.map_eq_some_iff.mp ends
  have inBounds := (always_last always run).inBounds
  simp only [Prod.mk.injEq] at fields
  rw [fields.2.2.2] at inBounds
  cases inBounds

end OpenRpc
