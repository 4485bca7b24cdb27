import OpenRpc.ReadStops
import OpenRpc.ReadBuffer

/-! # How the block of a connection grows

The block starts with `BUFFER_SIZE` bytes and is only ever doubled, at most four times in one run of
`read_from_conn`. Its size is an `int`: the doubling of a block of 2^30 bytes is the one computation of
the loop that leaves the range, and it is made where such a block is full and the run has doubled it
less than four times.
-/

namespace OpenRpc

open Memory Decimal

variable {α : Type} {grow : Grow}

/-- The block is the first one, doubled; an `int` holds its size. -/
def RpcConn.Doubled (c : RpcConn α) : Prop := ∃ k ≤ 19, c.rsize = BUFFER_SIZE * 2 ^ k

/-- The doubling of a full block stays in the `int` range. -/
def DoublingInRange (numAllocs : Nat) (c : RpcConn α) : Prop :=
  c.rsize ≤ c.rbytes → numAllocs ≠ 4 → InInt32 ((c.rsize : Int) * 2)

/-- What the loop of `read_from_conn` computes stays in the `int` range: the doubled size, the space
    offered to each read, and the bytes unread with what the read has brought. -/
def ComputesInRange (grow : Grow) : List ReadResult → Nat → RpcConn α → Prop
  | [], numAllocs, c =>
      DoublingInRange numAllocs c ∧
        match makeRoom grow numAllocs c with
        | none => True
        | some (_, c) => InInt32 ((c.rsize : Int) - c.rbytes)
  | r :: rest, numAllocs, c =>
      DoublingInRange numAllocs c ∧
        match makeRoom grow numAllocs c with
        | none => True
        | some (numAllocs, c) =>
            InInt32 ((c.rsize : Int) - c.rbytes) ∧
              match r with
              | .data bytes =>
                  InInt32 ((c.rbytes : Int) + bytes.length) ∧
                    (bytes.length = c.rsize - c.rbytes →
                      ComputesInRange grow rest numAllocs
                        { c with rbuf := overwrite c.rbuf c.rbytes bytes
                                 rbytes := c.rbytes + bytes.length })
              | .intr | .wouldBlock => ComputesInRange grow rest numAllocs c
              | .eof | .fail => True

/-- No read the loop makes brings more than it was asked for. -/
def TakenFit (grow : Grow) : List ReadResult → Nat → RpcConn α → Prop
  | [], _, _ => True
  | r :: rest, numAllocs, c =>
      match makeRoom grow numAllocs c with
      | none => True
      | some (numAllocs, c) =>
          match r with
          | .data bytes =>
              bytes.length ≤ c.rsize - c.rbytes ∧
                (bytes.length = c.rsize - c.rbytes →
                  TakenFit grow rest numAllocs { c with rbuf := overwrite c.rbuf c.rbytes bytes
                                                        rbytes := c.rbytes + bytes.length })
          | .intr | .wouldBlock => TakenFit grow rest numAllocs c
          | .eof | .fail => True

/-- The reads fill every one of the spaces offered. -/
def FillsAll (spaces : List Nat) (reads : List ReadResult) : Prop :=
  spaces.map some <+: (reads.filter ReadResult.heard).map ReadResult.size

instance (spaces : List Nat) (reads : List ReadResult) : Decidable (FillsAll spaces reads) :=
  inferInstanceAs (Decidable (_ <+: _))

/-- How many answers a run of the loop takes that offers these spaces, up to the first that does not
    fill its space or until no space is left; none if it goes on waiting for more. -/
def taken : List Nat → List ReadResult → Option Nat
  | [], _ => some 0
  | _ :: _, [] => none
  | space :: spaces, r :: reads =>
      if r.heard then
        if r.size = some space then (taken spaces reads).map (· + 1) else some 1
      else (taken (space :: spaces) reads).map (· + 1)

/-- The bytes that up to so many doublings add to a block of this size. -/
def grown (grow : Grow) : Nat → Nat → List Byte
  | 0, _ => []
  | more + 1, size =>
      if size * 2 ≤ INT_MAX then
        match grow (size * 2) with
        | none => []
        | some added => added ++ grown grow more (size * 2)
      else []

theorem fillsAll_heard {r : ReadResult} (heard : r.heard = true) (space : Nat) (spaces : List Nat)
    (reads : List ReadResult) :
    FillsAll (space :: spaces) (r :: reads) ↔ r.size = some space ∧ FillsAll spaces reads := by
  simp only [FillsAll, List.filter_cons, heard, if_true, List.map_cons, List.cons_prefix_cons]
  exact and_congr_left fun _ => eq_comm

theorem fillsAll_unheard {r : ReadResult} (unheard : r.heard = false) (spaces : List Nat)
    (reads : List ReadResult) : FillsAll spaces (r :: reads) ↔ FillsAll spaces reads := by
  simp only [FillsAll, List.filter_cons, unheard, Bool.false_eq_true, if_false]

theorem fillsAll_nil (reads : List ReadResult) : FillsAll [] reads := List.nil_prefix

theorem taken_heard {r : ReadResult} (heard : r.heard = true) (space : Nat) (spaces : List Nat)
    (reads : List ReadResult) :
    taken (space :: spaces) (r :: reads) =
      if r.size = some space then (taken spaces reads).map (· + 1) else some 1 := by
  rw [taken, if_pos heard]

theorem taken_unheard {r : ReadResult} (unheard : r.heard = false) (space : Nat) (spaces : List Nat)
    (reads : List ReadResult) :
    taken (space :: spaces) (r :: reads) = (taken (space :: spaces) reads).map (· + 1) := by
  rw [taken, if_neg (by simp [unheard])]

/-- The run goes on waiting where every read has filled its space and another one is left. -/
theorem taken_eq_none (spaces : List Nat) (reads : List ReadResult) :
    taken spaces reads = none ↔ Fills spaces reads := by
  induction reads generalizing spaces with
  | nil =>
      rw [fills_nil]
      cases spaces with
      | nil => simp [taken]
      | cons space spaces => simp [taken]
  | cons r reads ih =>
      cases spaces with
      | nil => simp [taken, Fills]
      | cons space spaces =>
          cases heard : r.heard with
          | false => rw [taken_unheard heard, fills_unheard heard, ← ih, Option.map_eq_none_iff]
          | true =>
              rw [taken_heard heard, fills_heard heard]
              by_cases whole : r.size = some space
              · rw [if_pos whole, Option.map_eq_none_iff, ih, and_iff_right whole]
              · simp [whole]

theorem taken_positive {space k : Nat} {spaces : List Nat} {reads : List ReadResult}
    (takes : taken (space :: spaces) reads = some k) : 0 < k := by
  cases reads with
  | nil => cases takes
  | cons r reads =>
      rw [taken] at takes
      split at takes
      · split at takes
        · obtain ⟨k', -, rfl⟩ := Option.map_eq_some_iff.mp takes
          exact Nat.succ_pos k'
        · cases takes
          exact Nat.one_pos
      · obtain ⟨k', -, rfl⟩ := Option.map_eq_some_iff.mp takes
        exact Nat.succ_pos k'

section Loop

variable {reads rest : List ReadResult} {n n' k : Nat} {c c' : RpcConn α} {value : Bool}

theorem makeRoom_size (room : makeRoom grow n c = some (n', c')) :
    (c.rbytes < c.rsize ∧ n' = n ∧ c' = c) ∨
    (c.rsize ≤ c.rbytes ∧ n ≠ 4 ∧ c.rsize * 2 ≤ INT_MAX ∧ n' = n + 1 ∧ c'.rsize = c.rsize * 2) := by
  obtain same | ⟨added, full, more, fits, -, rfl, rfl⟩ := makeRoom_cases room
  · exact .inl same
  · exact .inr ⟨full, more, fits, rfl, rfl⟩

theorem makeRoom_none (grants : ∀ size, size * 2 ≤ INT_MAX → (grow (size * 2)).isSome)
    (left : makeRoom grow n c = none) :
    c.rsize ≤ c.rbytes ∧ (n = 4 ∨ INT_MAX < c.rsize * 2) := by
  obtain ⟨full, last | past | refused⟩ := makeRoom_stops left
  · exact ⟨full, .inl last⟩
  · exact ⟨full, .inr past⟩
  · refine ⟨full, .inr (Nat.lt_of_not_le fun fits => ?_)⟩
    have granted := grants _ fits
    rw [refused] at granted
    cases granted

theorem doubled_limit {size : Nat} (shape : size = BUFFER_SIZE * 2 ^ k) (small : k ≤ 19) :
    size * 2 ≤ INT_MAX ↔ k ≤ 18 := by
  rw [shape]
  constructor
  · intro fits
    by_contra large
    obtain rfl : k = 19 := by omega
    revert fits
    decide
  · intro smaller
    have power := Nat.pow_le_pow_right (show 0 < 2 by decide) smaller
    simp only [BUFFER_SIZE, INT_MAX]
    omega

theorem RpcConn.Doubled.bound (doubled : c.Doubled) : 0 < c.rsize ∧ c.rsize ≤ 1073741824 := by
  obtain ⟨k, small, shape⟩ := doubled
  have positive := Nat.two_pow_pos k
  have power := Nat.pow_le_pow_right (show 0 < 2 by decide) small
  simp only [BUFFER_SIZE] at shape
  omega

theorem makeRoom_doubled (room : makeRoom grow n c = some (n', c'))
    (shape : c.rsize = BUFFER_SIZE * 2 ^ k) (small : k ≤ 19) :
    ∃ k' ≤ 19, c'.rsize = BUFFER_SIZE * 2 ^ k' ∧ k' + n = k + n' := by
  rcases makeRoom_size room with ⟨-, rfl, rfl⟩ | ⟨-, -, fits, rfl, twice⟩
  · exact ⟨k, small, shape, rfl⟩
  · have below := (doubled_limit shape small).mp fits
    refine ⟨k + 1, by omega, ?_, by omega⟩
    rw [twice, shape, Nat.pow_succ, Nat.mul_assoc]

theorem RpcConn.Doubled.room (doubled : c.Doubled) (room : makeRoom grow n c = some (n', c')) :
    c'.Doubled := by
  obtain ⟨k, small, shape⟩ := doubled
  obtain ⟨k', small', shape', -⟩ := makeRoom_doubled room shape small
  exact ⟨k', small', shape'⟩

theorem makeRoom_larger (room : makeRoom grow n c = some (n', c')) : c.rsize ≤ c'.rsize := by
  rcases makeRoom_size room with ⟨-, -, rfl⟩ | ⟨-, -, -, -, twice⟩
  · exact Nat.le_refl _
  · omega

theorem makeRoom_thread (room : makeRoom grow n c = some (n', c')) : c'.thread = c.thread := by
  obtain ⟨-, -, rfl⟩ | ⟨added, -, -, -, -, -, rfl⟩ := makeRoom_cases room
  · rfl
  · rfl

theorem makeRoom_inRange (room : makeRoom grow n c = some (n', c')) : DoublingInRange n c := by
  intro full _
  rcases makeRoom_size room with ⟨less, -⟩ | ⟨-, -, fits, -⟩
  · omega
  · simp only [INT_MAX] at fits
    simp only [InInt32]
    omega

theorem doublingInRange_last (grants : ∀ size, size * 2 ≤ INT_MAX → (grow (size * 2)).isSome)
    (left : makeRoom grow n c = none) (few : n ≤ 4) (shape : c.rsize = BUFFER_SIZE * 2 ^ k)
    (small : k ≤ 19) : DoublingInRange n c ↔ ¬16 + n ≤ k := by
  obtain ⟨full, last⟩ := makeRoom_none grants left
  constructor
  · intro inRange large
    have range := inRange full (by omega)
    rcases last with rfl | past
    · omega
    · simp only [InInt32] at range
      simp only [INT_MAX] at past
      omega
  · intro less _ more
    have past := last.resolve_left more
    have largest : ¬k ≤ 18 := fun le => absurd ((doubled_limit shape small).mpr le) (by omega)
    omega

/-- The computations of the loop stay in range unless the block comes to 2^30 bytes with less than four
    doublings in this run, and is then filled. -/
theorem computesInRange_iff (grants : ∀ size, size * 2 ≤ INT_MAX → (grow (size * 2)).isSome) (few : n ≤ 4)
    (sized : c.Sized) (shape : c.rsize = BUFFER_SIZE * 2 ^ k) (small : k ≤ 19)
    (fit : TakenFit grow reads n c) :
    ComputesInRange grow reads n c ↔
      ¬(16 + n ≤ k ∧ FillsAll (spaces grow (4 - n) c.rsize c.rbytes) reads) := by
  induction reads generalizing n k c with
  | nil =>
      rcases makeRoom_spaces grow few sized with
        ⟨left, none_left⟩ | ⟨n', c', room, few', sized', inside, offered⟩
      · rw [ComputesInRange, left, none_left, and_true, and_iff_left (fillsAll_nil _)]
        exact doublingInRange_last grants left few shape small
      · obtain ⟨k', small', shape', -⟩ := makeRoom_doubled room shape small
        have bound := RpcConn.Doubled.bound ⟨k', small', shape'⟩
        rw [ComputesInRange, room, offered]
        refine iff_of_true ⟨makeRoom_inRange room, ?_⟩ (by simp [FillsAll])
        simp only [InInt32]
        omega
  | cons r reads ih =>
      rcases makeRoom_spaces grow few sized with
        ⟨left, none_left⟩ | ⟨n', c', room, few', sized', inside, offered⟩
      · simp only [ComputesInRange, left, none_left, and_true]
        rw [and_iff_left (fillsAll_nil _)]
        exact doublingInRange_last grants left few shape small
      · obtain ⟨k', small', shape', count⟩ := makeRoom_doubled room shape small
        have bound := RpcConn.Doubled.bound ⟨k', small', shape'⟩
        have avail : InInt32 ((c'.rsize : Int) - c'.rbytes) := by
          simp only [InInt32]
          omega
        have later : 16 + n ≤ k ↔ 16 + n' ≤ k' := by omega
        simp only [TakenFit, room] at fit
        simp only [ComputesInRange, room, and_iff_right (makeRoom_inRange room), and_iff_right avail,
          later, offered]
        cases r with
        | data bytes =>
            have counted : InInt32 ((c'.rbytes : Int) + bytes.length) := by
              have fits := fit.1
              simp only [InInt32]
              omega
            rw [fillsAll_heard rfl, ReadResult.size, Option.some.injEq]
            simp only [and_iff_right counted]
            by_cases whole : bytes.length = c'.rsize - c'.rbytes
            · have filled : c'.rbytes + (c'.rsize - c'.rbytes) = c'.rsize := by omega
              have next := fit.2 whole
              simp only [whole, filled, true_imp_iff, true_and] at next ⊢
              rw [← spaces_full grow (4 - n') c'.rsize]
              exact ih few' ⟨sized'.positive, Nat.le_refl _⟩ shape' small' next
            · simp [whole]
        | eof | fail =>
            rw [fillsAll_heard rfl]
            exact iff_of_true trivial (by simp [ReadResult.size])
        | intr | wouldBlock =>
            rw [fillsAll_unheard rfl, ← spaces_room grow (4 - n') inside]
            exact ih few' sized' shape' small' fit

theorem readReturns_rest (h : ReadReturns grow reads n c value c' rest) : rest <:+ reads := by
  induction h with
  | full => exact List.suffix_refl _
  | fills room whole next ih => exact ih.trans (List.suffix_cons _ _)
  | short => exact List.suffix_cons _ _
  | again unheard room next ih => exact ih.trans (List.suffix_cons _ _)
  | closes => exact List.suffix_cons _ _

/-- The loop takes as many answers as the spaces say, whatever comes behind them. -/
theorem readLoop_taken (few : n ≤ 4) (sized : c.Sized) (successful : Successful reads)
    (takes : taken (spaces grow (4 - n) c.rsize c.rbytes) reads = some k) :
    ∃ c', ∀ rest, readLoop grow (reads.take k ++ rest) n c = .returned true c' rest := by
  induction reads generalizing n k c with
  | nil =>
      rcases makeRoom_spaces grow few sized with
        ⟨left, none_left⟩ | ⟨n', c', room, few', sized', inside, offered⟩
      · refine ⟨c, fun rest => ?_⟩
        cases rest <;> simp only [List.take_nil, List.nil_append, readLoop, left]
      · rw [offered] at takes
        cases takes
  | cons r reads ih =>
      obtain ⟨⟨not_eof, not_fail⟩, others⟩ := List.forall_mem_cons.mp successful
      rcases makeRoom_spaces grow few sized with
        ⟨left, none_left⟩ | ⟨n', c', room, few', sized', inside, offered⟩
      · rw [none_left, taken] at takes
        cases takes
        refine ⟨c, fun rest => ?_⟩
        cases rest <;> simp only [List.take_zero, List.nil_append, readLoop, left]
      · rw [offered] at takes
        cases r with
        | data bytes =>
            rw [taken_heard rfl, ReadResult.size] at takes
            by_cases whole : bytes.length = c'.rsize - c'.rbytes
            · rw [if_pos (congrArg some whole)] at takes
              obtain ⟨k', takes', rfl⟩ := Option.map_eq_some_iff.mp takes
              have filled : c'.rbytes + bytes.length = c'.rsize := by omega
              rw [← spaces_full grow (4 - n') c'.rsize] at takes'
              obtain ⟨c'', returned⟩ := ih (c := { c' with rbuf := overwrite c'.rbuf c'.rbytes bytes
                                                           rbytes := c'.rbytes + bytes.length })
                few' ⟨sized'.positive, by simp only; omega⟩ others (by simp only [filled]; exact takes')
              refine ⟨c'', fun rest => ?_⟩
              simp only [List.take_succ_cons, List.cons_append, readLoop, room, if_pos whole]
              exact returned rest
            · rw [if_neg (by simpa using whole)] at takes
              cases takes
              let c₂ : RpcConn α := { c' with rbuf := overwrite c'.rbuf c'.rbytes bytes
                                              rbytes := c'.rbytes + bytes.length }
              refine ⟨c₂, fun rest => ?_⟩
              simp only [List.take_succ_cons, List.take_zero, List.cons_append, List.nil_append, readLoop,
                room, if_neg whole, c₂]
        | eof => exact absurd rfl not_eof
        | fail => exact absurd rfl not_fail
        | intr | wouldBlock =>
            rw [taken_unheard rfl, ← spaces_room grow (4 - n') inside] at takes
            obtain ⟨k', takes', rfl⟩ := Option.map_eq_some_iff.mp takes
            obtain ⟨c'', returned⟩ := ih few' sized' others takes'
            refine ⟨c'', fun rest => ?_⟩
            simp only [List.take_succ_cons, List.cons_append, readLoop, room]
            exact returned rest

theorem takenFit_single (few : n ≤ 4) (sized : c.Sized) (single : ∀ r ∈ reads, ∃ b, r = .data [b]) :
    TakenFit grow reads n c := by
  induction reads generalizing n c with
  | nil => trivial
  | cons r reads ih =>
      obtain ⟨⟨b, rfl⟩, others⟩ := List.forall_mem_cons.mp single
      rcases makeRoom_spaces grow few sized with
        ⟨left, -⟩ | ⟨n', c', room, few', sized', inside, -⟩
      · simp only [TakenFit, left]
      · simp only [TakenFit, room, List.length_singleton]
        refine ⟨by omega, fun _ => ih few' ⟨sized'.positive, ?_⟩ others⟩
        simp only
        omega

theorem takenFit_answers (few : n ≤ 4) (sized : c.Sized)
    (takes : taken (spaces grow (4 - n) c.rsize c.rbytes) reads = some k)
    (fit : TakenFit grow reads n c) : AnswersFit grow (reads.take k) n c := by
  induction reads generalizing n k c with
  | nil =>
      rw [List.take_nil]
      trivial
  | cons r reads ih =>
      rcases makeRoom_spaces grow few sized with
        ⟨left, none_left⟩ | ⟨n', c', room, few', sized', inside, offered⟩
      · rw [none_left, taken] at takes
        cases takes
        trivial
      · rw [offered] at takes
        simp only [TakenFit, room] at fit
        have again : (r = .intr ∨ r = .wouldBlock) → TakenFit grow reads n' c' →
            AnswersFit grow ((r :: reads).take k) n c := by
          intro unheard later
          rw [taken_unheard (by rcases unheard with rfl | rfl <;> rfl),
            ← spaces_room grow (4 - n') inside] at takes
          obtain ⟨k', takes', rfl⟩ := Option.map_eq_some_iff.mp takes
          have answers := ih few' sized' takes' later
          rcases unheard with rfl | rfl <;> simpa only [List.take_succ_cons, AnswersFit, room]
        cases r with
        | data bytes =>
            rw [taken_heard rfl, ReadResult.size] at takes
            by_cases whole : bytes.length = c'.rsize - c'.rbytes
            · rw [if_pos (congrArg some whole)] at takes
              obtain ⟨k', takes', rfl⟩ := Option.map_eq_some_iff.mp takes
              have filled : c'.rbytes + bytes.length = c'.rsize := by omega
              rw [← spaces_full grow (4 - n') c'.rsize] at takes'
              simp only [List.take_succ_cons, AnswersFit, room]
              refine ⟨fit.1, ih few' ⟨sized'.positive, by simp only; omega⟩ ?_ (fit.2 whole)⟩
              simp only [filled]
              exact takes'
            · rw [if_neg (by simpa using whole)] at takes
              cases takes
              simp only [List.take_succ_cons, List.take_zero, AnswersFit, room, and_true]
              exact fit.1
        | eof | fail =>
            rw [taken_heard rfl, if_neg (by simp [ReadResult.size])] at takes
            cases takes
            simp only [List.take_succ_cons, List.take_zero, AnswersFit, room]
        | intr => exact again (.inl rfl) fit
        | wouldBlock => exact again (.inr rfl) fit

theorem makeRoom_grown (few : n ≤ 4) (room : makeRoom grow n c = some (n', c')) :
    n' ≤ 4 ∧ c'.rbytes = c.rbytes ∧
      c'.rbuf ++ grown grow (4 - n') c'.rsize = c.rbuf ++ grown grow (4 - n) c.rsize := by
  obtain ⟨-, rfl, rfl⟩ | ⟨added, -, more, fits, granted, rfl, rfl⟩ := makeRoom_cases room
  · exact ⟨few, rfl, rfl⟩
  · refine ⟨by omega, rfl, ?_⟩
    rw [show 4 - n = 4 - (n + 1) + 1 by omega, grown, if_pos fits, granted, List.append_assoc]

theorem makeRoom_grown_none (few : n ≤ 4) (left : makeRoom grow n c = none) :
    grown grow (4 - n) c.rsize = [] := by
  by_cases last : n = 4
  · rw [last]
    rfl
  · rw [show 4 - n = 4 - (n + 1) + 1 by omega, grown]
    split
    · rename_i fits
      rcases (makeRoom_stops left).2.resolve_left last with past | refused
      · omega
      · rw [refused]
    · rfl

theorem overwrite_behind {mem bytes : List Byte} {start i : Nat}
    (inside : start + bytes.length ≤ mem.length) (behind : start + bytes.length ≤ i)
    (more : List Byte) : (overwrite mem start bytes ++ more)[i]? = (mem ++ more)[i]? := by
  have length := overwrite_length inside
  by_cases within : i < mem.length
  · rw [List.getElem?_append_left (by omega), List.getElem?_append_left within, overwrite,
      List.getElem?_append_right (by simp; omega), List.getElem?_drop]
    congr 1
    simp
    omega
  · rw [List.getElem?_append_right (by omega), List.getElem?_append_right (by omega), length]

theorem readReturns_behind (grows : GrowsRight grow) (h : ReadReturns grow reads n c value c' rest)
    (successful : Successful reads) (answers : AnswersFit grow reads n c) (few : n ≤ 4)
    (started : c.Started) (behind : Byte) :
    c.rbytes ≤ c'.rbytes ∧ (c'.rbuf ++ [behind])[c'.rbytes]? =
      (c.rbuf ++ (grown grow (4 - n) c.rsize ++ [behind]))[c'.rbytes]? := by
  induction h with
  | full room => exact ⟨Nat.le_refl _, by rw [makeRoom_grown_none few room, List.nil_append]⟩
  | @fills bytes reads rest n n' c c₁ c' value room whole next ih =>
      obtain ⟨-, successful⟩ := List.forall_mem_cons.mp successful
      obtain ⟨few₁, bytes₁, same⟩ := makeRoom_grown few room
      have started₁ := makeRoom_started grows room started
      have block := started₁.block
      have full := started₁.full
      simp only [AnswersFit, room] at answers
      obtain ⟨more, byte⟩ := ih successful answers.2 few₁
        ⟨by rw [overwrite_length (by omega), block], by simp only; omega, started₁.start⟩
      simp only at more byte
      refine ⟨by omega, ?_⟩
      rw [byte, overwrite_behind (by omega) more, ← List.append_assoc, ← List.append_assoc, same]
  | @short bytes reads n n' c c₁ room part =>
      obtain ⟨few₁, bytes₁, same⟩ := makeRoom_grown few room
      have started₁ := makeRoom_started grows room started
      have block := started₁.block
      have full := started₁.full
      simp only [AnswersFit, room] at answers
      simp only
      refine ⟨by omega, ?_⟩
      rw [overwrite_behind (by omega) (Nat.le_refl _), List.getElem?_append_left (by omega),
        ← List.append_assoc, ← same, List.append_assoc, List.getElem?_append_left (by omega)]
  | @again r reads rest n n' c c₁ c' value unheard room next ih =>
      obtain ⟨-, successful⟩ := List.forall_mem_cons.mp successful
      obtain ⟨few₁, bytes₁, same⟩ := makeRoom_grown few room
      have started₁ := makeRoom_started grows room started
      simp only [AnswersFit, room] at answers
      have later : AnswersFit grow reads n' c₁ := by rcases unheard with rfl | rfl <;> exact answers
      obtain ⟨more, byte⟩ := ih successful later few₁ started₁
      refine ⟨by omega, ?_⟩
      rw [byte, ← List.append_assoc, ← List.append_assoc, same]
  | closes hangs room =>
      obtain ⟨heard, -⟩ := List.forall_mem_cons.mp successful
      rcases hangs with ⟨rfl, -⟩ | ⟨rfl, -⟩
      · exact absurd rfl heard.1
      · exact absurd rfl heard.2

theorem readReturns_leaves (h : ReadReturns grow reads n c value c' rest)
    (successful : Successful reads) (doubled : c.Doubled) :
    c'.Doubled ∧ c.rsize ≤ c'.rsize ∧ c'.unprocessData = c.unprocessData ∧ c'.thread = c.thread := by
  induction h with
  | full => exact ⟨doubled, Nat.le_refl _, rfl, rfl⟩
  | fills room whole next ih =>
      obtain ⟨-, successful⟩ := List.forall_mem_cons.mp successful
      have doubled₁ := doubled.room room
      have larger₁ := makeRoom_larger room
      obtain ⟨doubled', larger, kept, thread⟩ := ih successful doubled₁
      have kept₁ := (makeRoom_keeps room).2
      have thread₁ := makeRoom_thread room
      exact ⟨doubled', larger₁.trans larger, kept.trans kept₁, thread.trans thread₁⟩
  | short room part =>
      have doubled₁ := doubled.room room
      have kept₁ := (makeRoom_keeps room).2
      have larger₁ := makeRoom_larger room
      have thread₁ := makeRoom_thread room
      exact ⟨doubled₁, larger₁, kept₁, thread₁⟩
  | again unheard room next ih =>
      obtain ⟨-, successful⟩ := List.forall_mem_cons.mp successful
      obtain ⟨doubled', larger, kept, thread⟩ := ih successful (doubled.room room)
      exact ⟨doubled', (makeRoom_larger room).trans larger, kept.trans (makeRoom_keeps room).2,
        thread.trans (makeRoom_thread room)⟩
  | closes hangs room =>
      obtain ⟨heard, -⟩ := List.forall_mem_cons.mp successful
      rcases hangs with ⟨rfl, -⟩ | ⟨rfl, -⟩
      · exact absurd rfl heard.1
      · exact absurd rfl heard.2

end Loop

theorem fills_received {spaces : List Nat} {reads : List ReadResult} (successful : Successful reads)
    (fills : Fills spaces reads) : (received reads).length ≤ spaces.sum := by
  induction reads generalizing spaces with
  | nil => exact Nat.zero_le _
  | cons r reads ih =>
      obtain ⟨⟨not_eof, not_fail⟩, others⟩ := List.forall_mem_cons.mp successful
      have split : (received (r :: reads)).length = r.bytes.length + (received reads).length := by
        simp [received]
      rw [split]
      cases r with
      | data bytes =>
          cases spaces with
          | nil =>
              obtain ⟨j, below, -⟩ := fills
              exact absurd below (Nat.not_lt_zero j)
          | cons space spaces =>
              rw [fills_heard rfl, ReadResult.size, Option.some.injEq] at fills
              have rest := ih others fills.2
              simp only [ReadResult.bytes, List.sum_cons]
              omega
      | eof => exact absurd rfl not_eof
      | fail => exact absurd rfl not_fail
      | intr | wouldBlock =>
          rw [fills_unheard rfl] at fills
          simpa only [ReadResult.bytes, List.length_nil, Nat.zero_add] using ih others fills

theorem doublings_sum (grow : Grow) (more : Nat) {size k : Nat} (shape : size = BUFFER_SIZE * 2 ^ k)
    (small : k ≤ 19) : (doublings grow more size).sum + size ≤ 1073741824 := by
  induction more generalizing size k with
  | zero =>
      have power := Nat.pow_le_pow_right (show 0 < 2 by decide) small
      simp only [doublings, List.sum_nil, Nat.zero_add, shape, BUFFER_SIZE]
      omega
  | succ more ih =>
      rw [doublings]
      split
      · rename_i fits
        have below := (doubled_limit shape small).mp fits.1
        have twice : size * 2 = BUFFER_SIZE * 2 ^ (k + 1) := by rw [shape, Nat.pow_succ, Nat.mul_assoc]
        have next := ih twice (by omega)
        rw [List.sum_cons]
        omega
      · have power := Nat.pow_le_pow_right (show 0 < 2 by decide) small
        simp only [List.sum_nil, Nat.zero_add, shape, BUFFER_SIZE]
        omega

section Run

variable {memcpy : Memcpy} {reads : List ReadResult} {k : Nat} {c : RpcConn α}
  {pre unread post : List Byte}

theorem received_append (reads reads' : List ReadResult) :
    received (reads ++ reads') = received reads ++ received reads' := List.flatMap_append

theorem RpcConn.Holds.sized (holds : c.Holds pre unread post) (doubled : c.Doubled) : c.Sized := by
  refine ⟨doubled.bound.1, ?_⟩
  have bytes := congrArg List.length holds.rbuf
  simp only [List.length_append] at bytes
  rw [holds.rsize, holds.rbytes]
  omega

theorem readFromConn_rest {rest : List ReadResult} {value : Bool} {c' : RpcConn α}
    (read : readFromConn memcpy grow reads c = .returned value c' rest) : rest <:+ reads := by
  unfold readFromConn at read
  split at read
  · cases read
  · exact readReturns_rest (readLoop_returns read)

theorem fills_bound (sized : c.Sized) (doubled : c.Doubled) (successful : Successful reads)
    (fills : Fills (spaces grow 4 c.rsize c.rbytes) reads) :
    c.rbytes + (received reads).length ≤ 1073741824 := by
  obtain ⟨k, small, shape⟩ := doubled
  have bytes := fills_received successful fills
  have sum := doublings_sum grow 4 shape small
  have inside := sized.inside
  rw [spaces] at bytes
  split at bytes
  · simp only [List.sum_append, List.sum_singleton] at bytes
    omega
  · simp only [List.nil_append] at bytes
    omega

/-- One call of `read_from_conn` on a connection that is not hung up on: it takes as many answers as the
    spaces say, what they bring stands behind what was unread, and behind that what the block held, or
    what its doublings have added. -/
theorem readFromConn_takes (grows : GrowsRight grow) (holds : c.Holds pre unread post)
    (doubled : c.Doubled) (compacts : Compacts memcpy c) (successful : Successful reads)
    (fit : TakenFit grow reads 0 c) (takes : taken (spaces grow 4 c.rsize c.rbytes) reads = some k)
    (behind : Byte) :
    ∃ c' post', readFromConn memcpy grow reads c = .returned true c' (reads.drop k) ∧
      c'.Holds [] (unread ++ received (reads.take k)) post' ∧ c'.Doubled ∧ c.rsize ≤ c'.rsize ∧
      c.SameSendSide c' ∧ c'.unprocessData = c.unprocessData ∧ c'.thread = c.thread ∧
      (post' ++ [behind]).head? =
        (c.rbuf ++ (grown grow 4 c.rsize ++ [behind]))[(unread ++ received (reads.take k)).length]? := by
  have few := Nat.zero_le 4
  let c₁ : RpcConn α := { c with rbuf := unread ++ c.rbuf.drop unread.length, rcurr := some 0 }
  have same : c.SameRoom c₁ := ⟨rfl, rfl⟩
  have start : c₁.Holds [] unread (c.rbuf.drop unread.length) := holds.compacted
  have sized := holds.sized doubled
  have answers := answersFit_sameRoom same (takenFit_answers few sized takes fit)
  have taken_successful : Successful (reads.take k) :=
    fun r member => successful r (List.mem_of_mem_take member)
  obtain ⟨c', returned⟩ := readLoop_taken (c := c₁) few ⟨sized.positive, sized.inside⟩ successful takes
  have whole : readFromConn memcpy grow reads c = .returned true c' (reads.drop k) := by
    have all := returned (reads.drop k)
    rw [List.take_append_drop] at all
    simp only [readFromConn, compact_eq holds compacts]
    exact all
  have alone := returned []
  rw [List.append_nil] at alone
  have loop := readLoop_returns alone
  obtain ⟨-, used, post', split, holds'⟩ := readReturns_holds grows loop taken_successful answers start
  rw [List.append_nil] at split
  rw [← split] at holds'
  obtain ⟨doubled', larger, kept, thread⟩ := readReturns_leaves loop taken_successful doubled
  have started : c₁.Started :=
    ⟨start.rsize.symm, sized.inside, fun q here => (Option.some.inj here).symm⟩
  obtain ⟨more, byte⟩ := readReturns_behind grows loop taken_successful answers few started behind
  refine ⟨c', post', whole, holds', doubled', larger, readFromConn_sendSide whole, kept, thread, ?_⟩
  rw [holds'.rbuf, holds'.rbytes, List.nil_append, List.append_assoc,
    List.getElem?_append_right (Nat.le_refl _), Nat.sub_self, ← List.head?_eq_getElem?] at byte
  have stored : c₁.rbuf = overwrite c.rbuf 0 unread := by simp [c₁, overwrite]
  have inside : 0 + unread.length ≤ c.rbuf.length := by
    rw [holds.rbuf, List.length_append, List.length_append]
    omega
  rw [byte, stored, overwrite_behind inside (by rw [List.length_append]; omega)]

end Run

end OpenRpc
