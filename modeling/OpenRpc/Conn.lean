import OpenRpc.Window

/-! # Connections

The connection object of `rpc_conn.h`, how it is created and closed, how bytes are read into it, how
a head is detected and how iovecs are queued. The message held in `unprocess_data` is a parameter:
a request on a server connection, a response on a client connection. What the kernel and the allocator
answer is an argument of each operation.
-/

namespace OpenRpc

open Memory Decimal

def BUFFER_SIZE : Nat := 2048
def INT_MAX : Nat := 2147483647

theorem length_fits {len : Nat} (fits : len ≤ INT_MAX) : InInt32 len := by
  simp only [INT_MAX] at fits
  simp only [InInt32]
  omega

/-- `struct _rpc_conn`. A NULL pointer is `none`; `rcurr` is an offset into `rbuf`. `wire` and `closes`
    are not in the source: they record what the socket accepted from each `rpc_send_message`, and how
    often the object went through `rpc_conn_close`. -/
structure RpcConn (α : Type) where
  sfd : Nat
  currSeq : Int
  loop : Option Nat
  rbuf : List Byte
  rcurr : Option Nat
  rsize : Nat
  rbytes : Nat
  iov : List (List Byte)
  iovsize : Nat
  iovused : Nat
  unprocessData : Option α
  thread : Option Nat
  wire : List (List Byte)
  closes : Nat
  deriving Repr, DecidableEq

namespace RpcConn

variable {α : Type}

/-- What the parsers get to see; a closed connection has no window. -/
def window? (c : RpcConn α) : Option Window := c.rcurr.map fun p => ⟨c.rbuf, p, c.rbytes⟩

def setWindow (c : RpcConn α) (w : Window) : RpcConn α :=
  { c with rbuf := w.rbuf, rcurr := some w.rcurr, rbytes := w.rbytes }

/-- The iovecs waiting to be sent. -/
def queued (c : RpcConn α) : List (List Byte) := c.iov.take c.iovused

/-- A connection on which nothing is queued and a message fits into the iovecs it was created with. -/
structure Idle (c : RpcConn α) : Prop where
  vector : c.iov.length = c.iovsize
  empty : c.iovused = 0
  room : 5 ≤ c.iovsize

theorem Idle.queued {c : RpcConn α} (idle : c.Idle) : c.queued = [] := by
  rw [RpcConn.queued, idle.empty, List.take_zero]

/-- Everything of a connection that the reading side works on. -/
structure SameReadSide (c c' : RpcConn α) : Prop where
  rbuf : c'.rbuf = c.rbuf
  rcurr : c'.rcurr = c.rcurr
  rsize : c'.rsize = c.rsize
  rbytes : c'.rbytes = c.rbytes
  unprocessData : c'.unprocessData = c.unprocessData
  thread : c'.thread = c.thread

theorem SameReadSide.refl (c : RpcConn α) : c.SameReadSide c := ⟨rfl, rfl, rfl, rfl, rfl, rfl⟩

theorem SameReadSide.trans {a b c : RpcConn α} (h : a.SameReadSide b) (h' : b.SameReadSide c) :
    a.SameReadSide c :=
  ⟨h'.rbuf.trans h.rbuf, h'.rcurr.trans h.rcurr, h'.rsize.trans h.rsize, h'.rbytes.trans h.rbytes,
    h'.unprocessData.trans h.unprocessData, h'.thread.trans h.thread⟩

/-- Everything of a connection that the sending side works on, as far as reading leaves it alone:
    closing gives up what is queued. -/
structure SameSendSide (c c' : RpcConn α) : Prop where
  iov : c'.iov = c.iov
  iovsize : c'.iovsize = c.iovsize
  iovused : c.iovused = 0 → c'.iovused = 0
  currSeq : c'.currSeq = c.currSeq
  wire : c'.wire = c.wire

theorem SameSendSide.refl (c : RpcConn α) : c.SameSendSide c := ⟨rfl, rfl, id, rfl, rfl⟩

theorem SameSendSide.trans {a b c : RpcConn α} (h : a.SameSendSide b) (h' : b.SameSendSide c) :
    a.SameSendSide c :=
  ⟨h'.iov.trans h.iov, h'.iovsize.trans h.iovsize, h'.iovused ∘ h.iovused,
    h'.currSeq.trans h.currSeq, h'.wire.trans h.wire⟩

theorem SameSendSide.idle {c c' : RpcConn α} (h : c.SameSendSide c') (idle : c.Idle) : c'.Idle :=
  ⟨by rw [h.iov, h.iovsize, idle.vector], h.iovused idle.empty, by rw [h.iovsize]; exact idle.room⟩

end RpcConn

variable {α : Type}

/-- `rpc_conn_close`, without the free list it appends the object to. -/
def rpcConnClose (c : RpcConn α) : RpcConn α :=
  { c with rcurr := none, iovused := 0, thread := none, loop := none, closes := c.closes + 1 }

/-- A connection object as `rpc_conn_new_inner` allocates it: `block` and `vector` are what `malloc`
    returned for `rbuf` (`BUFFER_SIZE` bytes) and `iov` (five entries). -/
def allocConn (block : List Byte) (vector : List (List Byte)) : RpcConn α :=
  { sfd := 0, currSeq := 0, loop := none, rbuf := block, rcurr := none, rsize := BUFFER_SIZE,
    rbytes := 0, iov := vector, iovsize := 5, iovused := 0, unprocessData := none, thread := none,
    wire := [], closes := 0 }

/-- `rpc_conn_new_inner` on the object taken from the free list or allocated. Its caller sets
    `thread` right after. The record of what the socket accepted starts anew with the socket. -/
def rpcConnNewInner (conn : RpcConn α) (fd l : Nat) : RpcConn α :=
  { conn with rbytes := 0, rcurr := some 0, iovused := 0, currSeq := -1, unprocessData := none,
              sfd := fd, loop := some l, wire := [] }

/-- What one `read` on the non-blocking socket answers. -/
inductive ReadResult where
  | data (bytes : List Byte)
  | eof
  | intr
  | wouldBlock
  | fail
  deriving Repr, DecidableEq

/-- How `read_from_conn` ends: its value, the connection and the answers not yet asked for.
    `pending`: it still loops when the answers run out. `undefined`: it copied from NULL. -/
inductive ReadOutcome (α : Type) where
  | returned (value : Bool) (conn : RpcConn α) (rest : List ReadResult)
  | pending (conn : RpcConn α)
  | undefined

/-- `realloc` of `rbuf` to a number of bytes: NULL, or the bytes it adds behind the old ones. -/
abbrev Grow := Nat → Option (List Byte)

/-- The test before each `read`: room as it is, room after a doubling, or no room and the loop is
    left (four doublings done, or `realloc` failed). A doubling past `INT_MAX` wraps to a size no
    allocator grants. -/
def makeRoom (grow : Grow) (numAllocs : Nat) (c : RpcConn α) : Option (Nat × RpcConn α) :=
  if c.rsize ≤ c.rbytes then
    if numAllocs = 4 then none
    else
      match (if c.rsize * 2 ≤ INT_MAX then grow (c.rsize * 2) else none) with
      | none => none
      | some added =>
          some (numAllocs + 1,
            { c with rbuf := c.rbuf ++ added, rcurr := some 0, rsize := c.rsize * 2 })
  else some (numAllocs, c)

/-- The `for (;;)` of `read_from_conn`. -/
def readLoop (grow : Grow) : List ReadResult → Nat → RpcConn α → ReadOutcome α
  | [], numAllocs, c =>
      match makeRoom grow numAllocs c with
      | none => .returned true c []
      | some (_, c) => .pending c
  | r :: rest, numAllocs, c =>
      match makeRoom grow numAllocs c with
      | none => .returned true c (r :: rest)
      | some (numAllocs, c) =>
          match r with
          | .data bytes =>
              let avail := c.rsize - c.rbytes
              let c' := { c with rbuf := overwrite c.rbuf c.rbytes bytes
                                 rbytes := c.rbytes + bytes.length }
              if bytes.length = avail then readLoop grow rest numAllocs c'
              else .returned true c' rest
          | .eof => .returned false (rpcConnClose c) rest
          | .intr | .wouldBlock => readLoop grow rest numAllocs c
          | .fail => .returned true (rpcConnClose c) rest

/-- `memcpy(mem, mem + src, n)` inside one block. -/
abbrev Memcpy := List Byte → Nat → Nat → List Byte

/-- The block with the `n` bytes at `src` moved to its start. -/
def moved (mem : List Byte) (src n : Nat) : List Byte := overwrite mem 0 (slice mem src n)

/-- All that is promised of `memcpy`: it copies when source and destination do not overlap. -/
def MemcpyContract (memcpy : Memcpy) : Prop :=
  ∀ mem src n, n ≤ src → src + n ≤ mem.length → memcpy mem src n = moved mem src n

/-- The compaction at the start of `read_from_conn`. -/
def compact (memcpy : Memcpy) (c : RpcConn α) : Option (RpcConn α) :=
  match c.rcurr with
  | none => if c.rbytes = 0 then some { c with rcurr := some 0 } else none
  | some 0 => some c
  | some p =>
      some { c with rbuf := if c.rbytes = 0 then c.rbuf else memcpy c.rbuf p c.rbytes
                    rcurr := some 0 }

/-- `read_from_conn`. -/
def readFromConn (memcpy : Memcpy) (grow : Grow) (reads : List ReadResult) (c : RpcConn α) :
    ReadOutcome α :=
  match compact memcpy c with
  | none => .undefined
  | some c => readLoop grow reads 0 c

theorem makeRoom_room (grow : Grow) (numAllocs : Nat) {c : RpcConn α} (room : c.rbytes < c.rsize) :
    makeRoom grow numAllocs c = some (numAllocs, c) := if_neg (Nat.not_le.mpr room)

theorem makeRoom_cases {grow : Grow} {numAllocs more : Nat} {c c' : RpcConn α}
    (room : makeRoom grow numAllocs c = some (more, c')) :
    (c.rbytes < c.rsize ∧ more = numAllocs ∧ c' = c) ∨
    ∃ added, c.rsize ≤ c.rbytes ∧ numAllocs ≠ 4 ∧ c.rsize * 2 ≤ INT_MAX ∧
      grow (c.rsize * 2) = some added ∧ more = numAllocs + 1 ∧
      c' = { c with rbuf := c.rbuf ++ added, rcurr := some 0, rsize := c.rsize * 2 } := by
  unfold makeRoom at room
  split at room
  · rename_i full
    split at room
    · cases room
    · rename_i few
      split at room
      · cases room
      · rename_i added granted
        split at granted
        · rename_i fits
          cases room
          exact .inr ⟨added, full, few, fits, granted, rfl, rfl⟩
        · cases granted
  · rename_i room_left
    cases room
    exact .inl ⟨Nat.lt_of_not_le room_left, rfl, rfl⟩

theorem makeRoom_stops {grow : Grow} {numAllocs : Nat} {c : RpcConn α}
    (left : makeRoom grow numAllocs c = none) :
    c.rsize ≤ c.rbytes ∧ (numAllocs = 4 ∨ INT_MAX < c.rsize * 2 ∨ grow (c.rsize * 2) = none) := by
  unfold makeRoom at left
  split at left
  · rename_i full
    refine ⟨full, ?_⟩
    by_cases last : numAllocs = 4
    · exact .inl last
    · rw [if_neg last] at left
      by_cases fits : c.rsize * 2 ≤ INT_MAX
      · rw [if_pos fits] at left
        cases granted : grow (c.rsize * 2) with
        | none => exact .inr (.inr rfl)
        | some added =>
            rw [granted] at left
            cases left
      · exact .inr (.inl (Nat.lt_of_not_le fits))
  · cases left

theorem makeRoom_keeps {grow : Grow} {numAllocs more : Nat} {c c' : RpcConn α}
    (room : makeRoom grow numAllocs c = some (more, c')) :
    c'.closes = c.closes ∧ c'.unprocessData = c.unprocessData := by
  obtain ⟨-, -, rfl⟩ | ⟨added, -, -, -, -, -, rfl⟩ := makeRoom_cases room
  · exact ⟨rfl, rfl⟩
  · exact ⟨rfl, rfl⟩

theorem compact_keeps {memcpy : Memcpy} {c c' : RpcConn α} (compacted : compact memcpy c = some c') :
    c'.closes = c.closes ∧ c'.unprocessData = c.unprocessData := by
  unfold compact at compacted
  repeat' split at compacted
  all_goals cases compacted
  all_goals exact ⟨rfl, rfl⟩

/-- What the loop of `read_from_conn` goes through up to its return. -/
inductive ReadReturns (grow : Grow) :
    List ReadResult → Nat → RpcConn α → Bool → RpcConn α → List ReadResult → Prop where
  /-- There is no room for another read. -/
  | full {reads : List ReadResult} {n : Nat} {c : RpcConn α} (room : makeRoom grow n c = none) :
      ReadReturns grow reads n c true c reads
  /-- All the room has been filled. -/
  | fills {bytes : List Byte} {reads rest : List ReadResult} {n n' : Nat} {c c₁ c' : RpcConn α}
      {value : Bool} (room : makeRoom grow n c = some (n', c₁))
      (whole : bytes.length = c₁.rsize - c₁.rbytes)
      (next : ReadReturns grow reads n'
        { c₁ with rbuf := overwrite c₁.rbuf c₁.rbytes bytes
                  rbytes := c₁.rbytes + bytes.length } value c' rest) :
      ReadReturns grow (.data bytes :: reads) n c value c' rest
  | short {bytes : List Byte} {reads : List ReadResult} {n n' : Nat} {c c₁ : RpcConn α}
      (room : makeRoom grow n c = some (n', c₁)) (part : bytes.length ≠ c₁.rsize - c₁.rbytes) :
      ReadReturns grow (.data bytes :: reads) n c true
        { c₁ with rbuf := overwrite c₁.rbuf c₁.rbytes bytes
                  rbytes := c₁.rbytes + bytes.length } reads
  | again {r : ReadResult} {reads rest : List ReadResult} {n n' : Nat} {c c₁ c' : RpcConn α}
      {value : Bool} (unheard : r = .intr ∨ r = .wouldBlock) (room : makeRoom grow n c = some (n', c₁))
      (next : ReadReturns grow reads n' c₁ value c' rest) :
      ReadReturns grow (r :: reads) n c value c' rest
  | closes {r : ReadResult} {reads : List ReadResult} {n n' : Nat} {c c₁ : RpcConn α} {value : Bool}
      (hangs : r = .eof ∧ value = false ∨ r = .fail ∧ value = true)
      (room : makeRoom grow n c = some (n', c₁)) :
      ReadReturns grow (r :: reads) n c value (rpcConnClose c₁) reads

theorem readLoop_returns {grow : Grow} {reads rest : List ReadResult} {n : Nat} {c c' : RpcConn α}
    {value : Bool} (h : readLoop grow reads n c = .returned value c' rest) :
    ReadReturns grow reads n c value c' rest := by
  induction reads generalizing n c with
  | nil =>
      cases room : makeRoom grow n c with
      | none =>
          simp only [readLoop, room] at h
          cases h
          exact .full room
      | some made =>
          simp only [readLoop, room] at h
          cases h
  | cons r reads ih =>
      cases room : makeRoom grow n c with
      | none =>
          simp only [readLoop, room] at h
          cases h
          exact .full room
      | some made =>
          simp only [readLoop, room] at h
          cases r with
          | data bytes =>
              by_cases whole : bytes.length = made.2.rsize - made.2.rbytes
              · simp only [if_pos whole] at h
                exact .fills room whole (ih h)
              · simp only [if_neg whole] at h
                cases h
                exact .short room whole
          | intr => exact .again (.inl rfl) room (ih h)
          | wouldBlock => exact .again (.inr rfl) room (ih h)
          | eof =>
              cases h
              exact .closes (.inl ⟨rfl, rfl⟩) room
          | fail =>
              cases h
              exact .closes (.inr ⟨rfl, rfl⟩) room

theorem makeRoom_sendSide {grow : Grow} {numAllocs more : Nat} {c c' : RpcConn α}
    (h : makeRoom grow numAllocs c = some (more, c')) : c.SameSendSide c' := by
  obtain ⟨-, -, rfl⟩ | ⟨added, -, -, -, -, -, rfl⟩ := makeRoom_cases h
  · exact .refl _
  · exact ⟨rfl, rfl, id, rfl, rfl⟩

theorem readLoop_sendSide {grow : Grow} {reads rest : List ReadResult} {numAllocs : Nat}
    {c c' : RpcConn α} {value : Bool}
    (h : readLoop grow reads numAllocs c = .returned value c' rest) : c.SameSendSide c' := by
  replace h := readLoop_returns h
  induction h with
  | full => exact .refl _
  | fills room whole next ih =>
      have same := makeRoom_sendSide room
      exact same.trans ⟨ih.iov, ih.iovsize, ih.iovused, ih.currSeq, ih.wire⟩
  | short room part =>
      have same := makeRoom_sendSide room
      exact ⟨same.iov, same.iovsize, same.iovused, same.currSeq, same.wire⟩
  | again unheard room next ih => exact (makeRoom_sendSide room).trans ih
  | closes hangs room =>
      have same := makeRoom_sendSide room
      exact ⟨same.iov, same.iovsize, fun _ => rfl, same.currSeq, same.wire⟩

theorem readFromConn_sendSide {memcpy : Memcpy} {grow : Grow} {reads rest : List ReadResult}
    {c c' : RpcConn α} {value : Bool}
    (h : readFromConn memcpy grow reads c = .returned value c' rest) : c.SameSendSide c' := by
  unfold readFromConn at h
  split at h
  · cases h
  · rename_i c₁ compacted
    have same : c.SameSendSide c₁ := by
      unfold compact at compacted
      repeat' split at compacted
      all_goals cases compacted
      all_goals exact ⟨rfl, rfl, id, rfl, rfl⟩
    exact same.trans (readLoop_sendSide h)

/-- An empty line between the newlines at `prev` and `el`, or a carriage return alone on it. -/
def emptyBetween (data : List Byte) (prev el : Nat) : Bool :=
  el - prev = 1 || (el - prev = 2 && data[el - 1]? = some carriage)

/-- The `while` of `rpc_conn_received_head`. Every round uses up two of the `avail` bytes, so their
    number is fuel enough. -/
def receivedHeadLoop (data : List Byte) : Nat → Nat → Int → Option Nat → Bool
  | 0, _, _, _ => false
  | fuel + 1, cont, avail, bl =>
      match memchr data cont newline avail.toNat with
      | none => false
      | some el =>
          if bl.any fun b => emptyBetween data b el then true
          else
            let avail := avail - ((el : Int) + 1 - cont)
            if avail < 0 then false
            else if avail = 0 ∧ data[el + 1]? = some newline then true
            else
              match memchr data (el + 1) newline avail.toNat with
              | none => false
              | some bl =>
                  if emptyBetween data el bl then true
                  else
                    let avail := avail - ((bl : Int) + 1 - el)
                    if avail ≤ 0 then false
                    else receivedHeadLoop data fuel (bl + 1) avail (some bl)

/-- `rpc_conn_received_head`: `data` is all the memory from the pointer on, also behind the `len`
    bytes received. Both callers pass `rbytes`, an `int`, so `avail` starts as `len`. -/
def rpcConnReceivedHead (data : List Byte) (len : Nat) : Bool :=
  receivedHeadLoop data len 0 len none

/-- `rpc_conn_addiov`; `alloc` says whether `realloc` grants that many entries. `none`: the entry was
    stored behind the memory held. -/
def rpcConnAddiov (alloc : Nat → Bool) (c : RpcConn α) (data : List Byte) : Option (RpcConn α) :=
  let c :=
    if c.iovsize ≤ c.iovused ∧ alloc (c.iovsize * 2) then
      { c with iov := c.iov ++ List.replicate c.iovsize [], iovsize := c.iovsize * 2 }
    else c
  if c.iovused < c.iov.length then
    some { c with iov := c.iov.set c.iovused data, iovused := c.iovused + 1 }
  else none

/-- Queue several entries, as the formatters do. -/
def addiovs (alloc : Nat → Bool) (c : RpcConn α) : List (List Byte) → Option (RpcConn α)
  | [] => some c
  | data :: rest => (rpcConnAddiov alloc c data).bind fun c => addiovs alloc c rest

theorem rpcConnNewInner_idle {conn : RpcConn α} (vector : conn.iov.length = conn.iovsize)
    (room : 5 ≤ conn.iovsize) (fd l : Nat) : (rpcConnNewInner conn fd l).Idle :=
  ⟨vector, rfl, room⟩

theorem rpcConnAddiov_queued (alloc : Nat → Bool) {c : RpcConn α} (vector : c.iov.length = c.iovsize)
    (room : c.iovused < c.iovsize) (data : List Byte) :
    ∃ c', rpcConnAddiov alloc c data = some c' ∧ c'.queued = c.queued ++ [data] ∧
      c'.iov.length = c'.iovsize ∧ c'.iovused = c.iovused + 1 ∧ c'.iovsize = c.iovsize ∧
      c.SameReadSide c' ∧ c'.currSeq = c.currSeq ∧ c'.wire = c.wire := by
  have inside : c.iovused < c.iov.length := by rw [vector]; exact room
  refine ⟨{ c with iov := c.iov.set c.iovused data, iovused := c.iovused + 1 }, ?_, ?_, ?_, rfl, rfl,
    ⟨rfl, rfl, rfl, rfl, rfl, rfl⟩, rfl, rfl⟩
  · simp only [rpcConnAddiov,
      if_neg (by omega : ¬(c.iovsize ≤ c.iovused ∧ alloc (c.iovsize * 2) = true)),
      if_pos inside]
  · simp only [RpcConn.queued, List.take_add_one, List.getElem?_set_self inside, Option.toList_some]
    rw [List.take_set_of_le (Nat.le_refl _)]
  · rw [List.length_set, vector]

theorem addiovs_queued (alloc : Nat → Bool) {c : RpcConn α} (vector : c.iov.length = c.iovsize)
    (entries : List (List Byte)) (room : c.iovused + entries.length ≤ c.iovsize) :
    ∃ c', addiovs alloc c entries = some c' ∧ c'.queued = c.queued ++ entries ∧
      c'.iov.length = c'.iovsize ∧ c'.iovsize = c.iovsize ∧ c.SameReadSide c' ∧
      c'.currSeq = c.currSeq ∧ c'.wire = c.wire := by
  induction entries generalizing c with
  | nil => exact ⟨c, rfl, by simp, vector, rfl, .refl c, rfl, rfl⟩
  | cons data rest ih =>
      simp only [List.length_cons] at room
      obtain ⟨c₁, stored, queued₁, vector₁, used₁, size₁, same₁, seq₁, wire₁⟩ :=
        rpcConnAddiov_queued alloc vector (by omega) data
      obtain ⟨c₂, more, queued₂, vector₂, size₂, same₂, seq₂, wire₂⟩ := ih vector₁ (by omega)
      refine ⟨c₂, by simp only [addiovs, stored, Option.bind_some, more], ?_, vector₂, ?_,
        same₁.trans same₂, seq₂.trans seq₁, wire₂.trans wire₁⟩
      · rw [queued₂, queued₁, List.append_assoc, List.singleton_append]
      · rw [size₂, size₁]

end OpenRpc
