import OpenRpc.Request

/-! # When reading stops

`read_from_conn` on a socket that has nothing more. The loop reads again while a read fills the space
it was offered, and again where the socket would block, so it ends only if some read before that ends
it, or if no space is left to offer.
-/

namespace OpenRpc

open Memory

/-- The block of `rbuf` has room for at least a byte, and what is unread lies inside. -/
structure RpcConn.Sized {α : Type} (c : RpcConn α) : Prop where
  positive : 0 < c.rsize
  inside : c.rbytes ≤ c.rsize

/-- The spaces that up to so many doublings of a full block add, as long as `realloc` grants them. -/
def doublings (grow : Grow) : Nat → Nat → List Nat
  | 0, _ => []
  | more + 1, size =>
      if size * 2 ≤ INT_MAX ∧ (grow (size * 2)).isSome then size :: doublings grow more (size * 2)
      else []

/-- The spaces `read_from_conn` can offer to its reads, one after the other, each filled: what is left
    of the block, and what each doubling adds. -/
def spaces (grow : Grow) (more size used : Nat) : List Nat :=
  (if used < size then [size - used] else []) ++ doublings grow more size

/-- The bytes a read brings, if it brings any. -/
def ReadResult.size : ReadResult → Option Nat
  | .data bytes => some bytes.length
  | .eof | .intr | .wouldBlock | .fail => none

/-- The answer is not one after which the loop asks the same again. -/
def ReadResult.heard : ReadResult → Bool
  | .data _ | .eof | .fail => true
  | .intr | .wouldBlock => false

/-- Every read fills exactly the space it is offered, and there is another space to offer behind the
    last. -/
def Fills (spaces : List Nat) (reads : List ReadResult) : Prop :=
  ∃ j < spaces.length,
    (reads.filter ReadResult.heard).map ReadResult.size = (spaces.take j).map some

theorem fills_nil (spaces : List Nat) : Fills spaces [] ↔ spaces ≠ [] := by
  constructor
  · rintro ⟨j, below, -⟩ rfl
    exact absurd below (Nat.not_lt_zero j)
  · intro some_space
    exact ⟨0, List.length_pos_of_ne_nil some_space, rfl⟩

theorem fills_unheard {r : ReadResult} (unheard : r.heard = false) (spaces : List Nat)
    (reads : List ReadResult) : Fills spaces (r :: reads) ↔ Fills spaces reads := by
  simp only [Fills, List.filter_cons, unheard, Bool.false_eq_true, if_false]

theorem fills_heard {r : ReadResult} (heard : r.heard = true) (space : Nat) (spaces : List Nat)
    (reads : List ReadResult) :
    Fills (space :: spaces) (r :: reads) ↔ r.size = some space ∧ Fills spaces reads := by
  simp only [Fills, List.filter_cons, heard, if_true, List.map_cons, List.length_cons]
  constructor
  · rintro ⟨j, below, same⟩
    cases j with
    | zero => simp at same
    | succ j =>
        rw [List.take_succ_cons, List.map_cons, List.cons.injEq] at same
        exact ⟨same.1, j, by omega, same.2⟩
  · rintro ⟨first, j, below, same⟩
    exact ⟨j + 1, by omega, by rw [List.take_succ_cons, List.map_cons, first, same]⟩

variable {α : Type}

/-- The test before a read: it ends the loop where there is no space to offer, and offers the next one
    otherwise. -/
theorem makeRoom_spaces (grow : Grow) {numAllocs : Nat} (few : numAllocs ≤ 4) {c : RpcConn α}
    (sized : c.Sized) :
    (makeRoom grow numAllocs c = none ∧ spaces grow (4 - numAllocs) c.rsize c.rbytes = []) ∨
    ∃ numAllocs' c', makeRoom grow numAllocs c = some (numAllocs', c') ∧ numAllocs' ≤ 4 ∧
      c'.Sized ∧ c'.rbytes < c'.rsize ∧
      spaces grow (4 - numAllocs) c.rsize c.rbytes =
        (c'.rsize - c'.rbytes) :: doublings grow (4 - numAllocs') c'.rsize := by
  have positive := sized.positive
  have inside := sized.inside
  by_cases full : c.rsize ≤ c.rbytes
  · have same : c.rbytes = c.rsize := Nat.le_antisymm inside full
    simp only [makeRoom, if_pos full, spaces, if_neg (Nat.not_lt.mpr full), List.nil_append]
    by_cases last : numAllocs = 4
    · subst last
      exact .inl ⟨if_pos rfl, rfl⟩
    · obtain ⟨more, left⟩ : ∃ more, 4 - numAllocs = more + 1 := ⟨3 - numAllocs, by omega⟩
      rw [if_neg last, left, doublings]
      by_cases fits : c.rsize * 2 ≤ INT_MAX
      · rw [if_pos fits]
        cases granted : grow (c.rsize * 2) with
        | none => exact .inl ⟨rfl, by simp⟩
        | some added =>
            refine .inr ⟨numAllocs + 1, _, rfl, by omega, ⟨?_, ?_⟩, ?_, ?_⟩
            · simp only
              omega
            · simp only
              omega
            · simp only
              omega
            · simp only [fits, Option.isSome_some, and_self, if_true, List.cons.injEq]
              refine ⟨by omega, ?_⟩
              congr 1
              omega
      · rw [if_neg fits]
        exact .inl ⟨rfl, by simp [fits]⟩
  · have room := Nat.lt_of_not_le full
    refine .inr ⟨numAllocs, c, makeRoom_room grow numAllocs room, few, sized, room, ?_⟩
    rw [spaces, if_pos (by omega), List.singleton_append]

theorem spaces_room (grow : Grow) (more : Nat) {size used : Nat} (room : used < size) :
    spaces grow more size used = (size - used) :: doublings grow more size := by
  rw [spaces, if_pos room, List.singleton_append]

theorem spaces_full (grow : Grow) (more size : Nat) :
    spaces grow more size size = doublings grow more size := by
  rw [spaces, if_neg (Nat.lt_irrefl size), List.nil_append]

/-- Where there is space to offer and the socket has nothing, the loop goes on for ever. -/
theorem readLoop_dry (grow : Grow) (numAllocs : Nat) {c : RpcConn α} (room : c.rbytes < c.rsize)
    (n : Nat) : readLoop grow (List.replicate n .wouldBlock) numAllocs c = .pending c := by
  have same := makeRoom_room grow numAllocs room
  induction n with
  | zero => simp only [List.replicate_zero, readLoop, same]
  | succ n ih => simp only [List.replicate_succ, readLoop, same, ih]

/-- The loop on any answers and then a socket that has nothing more: it goes on for ever exactly if
    every answer so far has filled the space offered and another space is left. -/
theorem readLoop_stops (grow : Grow) (reads : List ReadResult) {numAllocs : Nat}
    (few : numAllocs ≤ 4) {c : RpcConn α} (sized : c.Sized) :
    (∃ n value c' rest, readLoop grow (reads ++ List.replicate n .wouldBlock) numAllocs c =
      .returned value c' rest) ↔
    ¬Fills (spaces grow (4 - numAllocs) c.rsize c.rbytes) reads := by
  induction reads generalizing numAllocs c with
  | nil =>
      rw [fills_nil, not_ne_iff]
      rcases makeRoom_spaces grow few sized with
        ⟨left, none_left⟩ | ⟨numAllocs', c', room, few', sized', inside, offered⟩
      · exact iff_of_true ⟨0, true, c, [], by simp only [List.replicate_zero, List.append_nil,
          readLoop, left]⟩ none_left
      · refine iff_of_false ?_ (by simp [offered])
        rintro ⟨n, value, c'', rest, returned⟩
        cases n with
        | zero => simp [readLoop, room] at returned
        | succ n =>
            simp only [List.nil_append, List.replicate_succ, readLoop, room,
              readLoop_dry grow numAllocs' inside n] at returned
            cases returned
  | cons r reads ih =>
      rcases makeRoom_spaces grow few sized with
        ⟨left, none_left⟩ | ⟨numAllocs', c', room, few', sized', inside, offered⟩
      · refine iff_of_true ⟨0, true, c, r :: reads, ?_⟩ ?_
        · simp only [List.replicate_zero, List.append_nil, readLoop, left]
        · rintro ⟨j, below, -⟩
          simp [none_left] at below
      · rw [offered]
        simp only [List.cons_append, readLoop, room]
        cases r with
        | data bytes =>
            rw [fills_heard rfl, ReadResult.size, Option.some.injEq]
            by_cases whole : bytes.length = c'.rsize - c'.rbytes
            · have filled : c'.rbytes + (c'.rsize - c'.rbytes) = c'.rsize := by omega
              have full : RpcConn.Sized { c' with rbuf := overwrite c'.rbuf c'.rbytes bytes
                                                  rbytes := c'.rsize } :=
                ⟨sized'.positive, Nat.le_refl _⟩
              simp only [whole, if_true, true_and, filled]
              rw [← spaces_full grow (4 - numAllocs') c'.rsize]
              exact ih few' full
            · simp only [whole, if_false, false_and, not_false_eq_true, iff_true]
              exact ⟨0, true, _, _, rfl⟩
        | eof =>
            rw [fills_heard rfl]
            exact iff_of_true ⟨0, false, _, _, rfl⟩ (by simp [ReadResult.size])
        | fail =>
            rw [fills_heard rfl]
            exact iff_of_true ⟨0, true, _, _, rfl⟩ (by simp [ReadResult.size])
        | intr => rw [ih few' sized', fills_unheard rfl, spaces_room grow _ inside]
        | wouldBlock => rw [ih few' sized', fills_unheard rfl, spaces_room grow _ inside]

/-- `read_from_conn` returns on a socket that has nothing more behind the answers `reads`, exactly if
    there is a buffer to move what is unread in, and these answers have not each filled the space
    offered with another space left. -/
theorem readFromConn_stops (memcpy : Memcpy) (grow : Grow) (reads : List ReadResult) {c : RpcConn α}
    (sized : c.Sized) :
    (∃ n value c' rest, readFromConn memcpy grow (reads ++ List.replicate n .wouldBlock) c =
      .returned value c' rest) ↔
    (c.rcurr = none → c.rbytes = 0) ∧ ¬Fills (spaces grow 4 c.rsize c.rbytes) reads := by
  by_cases closed : c.rcurr = none → c.rbytes = 0
  · have compacted : ∃ c₁, compact memcpy c = some c₁ ∧ c₁.rsize = c.rsize ∧
        c₁.rbytes = c.rbytes := by
      unfold compact
      split
      · rename_i none_here
        rw [if_pos (closed none_here)]
        exact ⟨_, rfl, rfl, rfl⟩
      · exact ⟨c, rfl, rfl, rfl⟩
      · exact ⟨_, rfl, rfl, rfl⟩
    obtain ⟨c₁, moved, size, bytes⟩ := compacted
    have sized₁ : c₁.Sized := ⟨size ▸ sized.positive, by rw [size, bytes]; exact sized.inside⟩
    simp only [readFromConn, moved]
    rw [readLoop_stops grow reads (Nat.zero_le 4) sized₁, size, bytes, Nat.sub_zero,
      and_iff_right closed]
  · refine iff_of_false ?_ fun both => closed both.1
    push Not at closed
    have stuck : compact memcpy c = none := by
      simp only [compact, closed.1, if_neg closed.2]
    rintro ⟨n, value, c', rest, returned⟩
    simp only [readFromConn, stuck] at returned
    cases returned

theorem rpcConnNewInner_sized {conn : RpcConn α} (positive : 0 < conn.rsize) (fd l : Nat) :
    (rpcConnNewInner conn fd l).Sized := ⟨positive, Nat.zero_le _⟩

theorem spaces_newInner (grow : Grow) (block : List Byte) (fd l : Nat) :
    let c : RpcConn RpcRequest := rpcConnNewInner (allocConn block []) fd l
    spaces grow 4 c.rsize c.rbytes = 2048 :: doublings grow 4 2048 :=
  spaces_room grow 4 (show 0 < 2048 by decide)

/-- A new connection that receives what its block holds, which is then doubled, and one byte more. -/
theorem readFromConn_stops_oneByteMore :
    let c : RpcConn RpcRequest := rpcConnNewInner (allocConn (List.replicate 2048 0) []) 3 0
    ∃ n value c' rest, readFromConn moved (fun size => some (List.replicate (size / 2) 0))
      ([.data (List.replicate 2048 65), .data [65]] ++ List.replicate n .wouldBlock) c =
        .returned value c' rest := by
  intro c
  have sized : c.Sized := rpcConnNewInner_sized (show 0 < 2048 by decide) 3 0
  refine (readFromConn_stops moved _ [.data (List.replicate 2048 65), .data [65]] sized).mpr
    ⟨fun _ => rfl, ?_⟩
  rw [spaces_newInner, fills_heard rfl, doublings, if_pos ⟨by decide, rfl⟩, fills_heard rfl]
  rintro ⟨-, filled, -⟩
  cases filled

/-- A new connection that has received exactly the 2048 bytes its block holds: the block is doubled,
    and the loop asks the socket for more for ever. -/
theorem readFromConn_stops_fails :
    ¬∀ (memcpy : Memcpy) (grow : Grow) (reads : List ReadResult) (c : RpcConn RpcRequest), c.Sized →
      c.rcurr ≠ none → ∃ n value c' rest,
        readFromConn memcpy grow (reads ++ List.replicate n .wouldBlock) c =
          .returned value c' rest := by
  intro stops
  obtain ⟨bytes, whole⟩ : ∃ bytes : List Byte, bytes.length = 2048 :=
    ⟨List.replicate 2048 65, List.length_replicate⟩
  let grow : Grow := fun size => some (List.replicate (size / 2) 0)
  let c : RpcConn RpcRequest := rpcConnNewInner (allocConn (List.replicate 2048 0) []) 3 0
  have sized : c.Sized := rpcConnNewInner_sized (show 0 < 2048 by decide) 3 0
  have returns := stops moved grow [.data bytes] c sized (Option.some_ne_none 0)
  apply (readLoop_stops grow _ (Nat.zero_le 4) sized).mp returns
  rw [Nat.sub_zero, spaces_newInner, fills_heard rfl, fills_nil, doublings, if_pos ⟨by decide, rfl⟩]
  exact ⟨congrArg some whole, List.cons_ne_nil _ _⟩

end OpenRpc
