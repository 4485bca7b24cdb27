import OpenRpc.RequestRuns
import OpenRpc.Lib.Transition

/-! # Bodies that need a larger block

The block grows over the runs until the whole body is in the window, or until it cannot be doubled any
more.
-/

namespace OpenRpc

open Memory Decimal

/-- A run that starts with a block of 2^27 bytes or more and fills it up to 2^30. -/
def Overflows (env : ServerEnv) (x : List ReadResult × ServerReader) : Prop :=
  134217728 ≤ x.2.conn.rsize ∧ FillsAll (spacesOf env x.2) x.1

section Runs

variable {env : ServerEnv} {m : WireRequest} {log : List Handed}

theorem overflows_of_full (served : m.Served env) {x : List ReadResult × ServerReader}
    (onWay : m.OnWay env log x) (none_left : spacesOf env x.2 = []) : Overflows env x := by
  obtain ⟨pre, unread, post, holds⟩ := onWay.between.holds
  have sized := holds.sized onWay.stands.doubled
  have grants : ∀ size, size * 2 ≤ INT_MAX → (env.grow (size * 2)).isSome :=
    fun size fits => served.grants size (fits.trans (Nat.le_add_right _ _))
  rcases makeRoom_spaces env.grow (Nat.zero_le 4) sized with
    ⟨left, -⟩ | ⟨n', c', room, few', sized', inside, offered⟩
  · have past := (makeRoom_none grants left).2.resolve_left (by decide)
    refine ⟨?_, none_left ▸ fillsAll_nil _⟩
    simp only [INT_MAX] at past
    omega
  · rw [spacesOf] at none_left
    cases none_left.symm.trans offered

theorem reaches_end (served : m.Served env) {x : List ReadResult × ServerReader}
    (conditions : ∀ y, Reaches env x y → m.OnWay env log y → y.1 ≠ [] →
      m.Undisturbed env y ∧ TakenFit env.grow y.1 0 y.2.conn)
    (below : ∀ y, Reaches env x y → y.1 ≠ [] → ¬Overflows env y) (start : m.OnWay env log x) :
    ∃ s', Reaches env x ([], s') := by
  have progress : ∀ y, Reaches env x y ∧ m.OnWay env log y → ¬y.1 = [] →
      ∃ y', NextRun env y y' ∧ (Reaches env x y' ∧ m.OnWay env log y') ∧
        y'.1.length < y.1.length := by
    rintro y ⟨reaches, onWay⟩ more
    obtain ⟨undisturbed, fit⟩ := conditions y reaches onWay more
    obtain ⟨k, s', takes, next, onWay'⟩ := nextRun_onWay served onWay more undisturbed fit
    refine ⟨_, next, ⟨reaches.tail next, onWay'⟩, ?_⟩
    cases offered : spacesOf env y.2 with
    | nil => exact absurd (overflows_of_full served onWay offered) (below y reaches more)
    | cons space spaces =>
        rw [offered] at takes
        have positive := taken_positive takes
        have some_left := List.length_pos_of_ne_nil more
        simp only [List.length_drop]
        omega
  have begun : Reaches env x x ∧ m.OnWay env log x := ⟨.refl, start⟩
  obtain ⟨⟨reads, s'⟩, reaches, -, last⟩ :=
    Transition.leads_to (fun y : List ReadResult × ServerReader => y.1.length) progress begun
  simp only at last
  subst last
  exact ⟨s', reaches⟩

theorem inRange_iff (served : m.Served env) {x : List ReadResult × ServerReader}
    (onWay : m.OnWay env log x) (fit : TakenFit env.grow x.1 0 x.2.conn) :
    ComputesInRange env.grow x.1 0 x.2.conn ↔ ¬Overflows env x := by
  obtain ⟨pre, unread, post, holds⟩ := onWay.between.holds
  have sized := holds.sized onWay.stands.doubled
  have grants : ∀ size, size * 2 ≤ INT_MAX → (env.grow (size * 2)).isSome :=
    fun size fits => served.grants size (fits.trans (Nat.le_add_right _ _))
  obtain ⟨k, small, shape⟩ := onWay.stands.doubled
  rw [computesInRange_iff grants (Nat.zero_le 4) sized shape small fit]
  have large : 16 ≤ k ↔ 134217728 ≤ x.2.conn.rsize := by
    rw [shape]
    constructor
    · intro many
      have power := Nat.pow_le_pow_right (show 0 < 2 by decide) many
      simp only [BUFFER_SIZE]
      omega
    · intro block
      by_contra few
      have power := Nat.pow_le_pow_right (show 0 < 2 by decide) (show k ≤ 15 by omega)
      simp only [BUFFER_SIZE] at block
      omega
  simp only [Nat.add_zero, Nat.sub_zero, large]
  rfl

/-- A body longer than 2^30 bytes does not come to a run that goes on waiting. -/
theorem returns_of_large (large : 1073741824 < m.body.length) {x : List ReadResult × ServerReader}
    (onWay : m.OnWay env log x) : ¬Fills (spacesOf env x.2) x.1 := by
  obtain ⟨between, stands, successful⟩ := onWay
  intro fills
  obtain ⟨pre, unread, post, holds⟩ := between.holds
  have bound := fills_bound (holds.sized stands.doubled) stands.doubled successful fills
  generalize received x.1 = missing at between bound
  cases between with
  | head holds none_kept bytes =>
      have sizes := congrArg List.length bytes
      rw [WireRequest.text, List.length_append, List.length_append, ← holds.rbytes] at sizes
      omega
  | body holds pending head bytes =>
      have sizes := congrArg List.length bytes
      rw [List.length_append, ← holds.rbytes] at sizes
      omega
  | done holds none_kept room =>
      have block := stands.doubled.bound
      omega

theorem beyond_block (served : m.Served env) (large : 1073741824 < m.body.length)
    {x : List ReadResult × ServerReader}
    (conditions : ∀ y, Reaches env x y → m.OnWay env log y → y.1 ≠ [] →
      m.Undisturbed env y ∧ TakenFit env.grow y.1 0 y.2.conn) (start : m.OnWay env log x) :
    (∃ y, Reaches env x y ∧ y.1 ≠ [] ∧ ¬ComputesInRange env.grow y.1 0 y.2.conn) ∧
      ¬∃ s', Reaches env x ([], s') := by
  have never : ¬∃ s', Reaches env x ([], s') := by
    rintro ⟨s', reaches⟩
    have onWay := reaches_onWay served conditions start reaches
    have ended := (onWay.between.ended served).1
    have block := onWay.stands.doubled.bound
    simp only at ended block
    omega
  refine ⟨?_, never⟩
  by_contra inRange
  push Not at inRange
  apply never
  refine reaches_end served conditions (fun y reaches more => ?_) start
  have onWay := reaches_onWay served conditions start reaches
  exact (inRange_iff served onWay (conditions y reaches onWay more).2).mp (inRange y reaches more)

/-- The head in one read, and the body byte by byte. -/
def WireRequest.pieces (m : WireRequest) : List ReadResult :=
  .data m.head :: m.body.map fun b => .data [b]

theorem received_bytes (bs : List Byte) : received (bs.map fun b => .data [b]) = bs := by
  simp [received, List.flatMap_map, ReadResult.bytes]

theorem WireRequest.pieces_received (m : WireRequest) : received m.pieces = m.text := by
  rw [pieces, text, ← List.singleton_append, received_append, received_bytes]
  simp [received, ReadResult.bytes]

theorem WireRequest.pieces_successful (m : WireRequest) : Successful m.pieces := by
  intro r member
  rcases List.mem_cons.mp member with rfl | member
  · simp
  · obtain ⟨b, -, rfl⟩ := List.mem_map.mp member
    simp

theorem WireRequest.Between.unread {s : ServerReader} (between : m.Between env log m.text s) :
    s.conn.rbytes = 0 := by
  have length := m.head_length
  have whole : m.text.length = m.head.length + m.body.length := by
    rw [WireRequest.text, List.length_append]
  generalize all : m.text = missing at between whole
  cases between with
  | head holds none_kept bytes =>
      have sizes := congrArg List.length bytes
      rw [all, List.length_append, ← holds.rbytes] at sizes
      omega
  | body holds pending head bytes =>
      have sizes := congrArg List.length bytes
      rw [List.length_append] at sizes
      omega
  | done holds =>
      rw [List.length_nil] at whole
      omega

theorem Stands.block {s : ServerReader} (stands : Stands s) : BUFFER_SIZE ≤ s.conn.rsize := by
  obtain ⟨k, -, shape⟩ := stands.doubled
  rw [shape]
  exact Nat.le_mul_of_pos_right _ (Nat.two_pow_pos k)

theorem pieces_first {s : ServerReader} (between : m.Between env log m.text s) (stands : Stands s)
    (inside : m.head.length < BUFFER_SIZE) (compacts : Compacts env.memcpy s.conn)
    (returns : ¬Fills (spacesOf env s) m.pieces) :
    m.Undisturbed env (m.pieces, s) ∧ TakenFit env.grow m.pieces 0 s.conn := by
  have empty := between.unread
  have block := stands.block
  have some_lines : m.line.length + 1 < m.head.length := by
    rw [WireRequest.head]
    simp [WireRequest.rows, Rows.text]
  have room : makeRoom env.grow 0 s.conn = some (0, s.conn) := makeRoom_room _ 0 (by omega)
  have part : (ReadResult.data m.head).size ≠ some s.conn.rsize := by
    rw [ReadResult.size, ne_eq, Option.some.injEq]
    omega
  have offered : spacesOf env s = s.conn.rsize :: doublings env.grow 4 s.conn.rsize := by
    rw [spacesOf, spaces, if_pos (by omega), empty]
    rfl
  have one : taken (spacesOf env s) m.pieces = some 1 := by
    rw [offered, WireRequest.pieces, taken_heard rfl, if_neg part]
  refine ⟨⟨returns, compacts, ?_⟩, ?_⟩
  · intro k takes _ ends
    obtain rfl : 1 = k := Option.some.inj (one.symm.trans takes)
    have brought : received (m.pieces.take 1) = m.head := by
      simp [WireRequest.pieces, received, ReadResult.bytes]
    simp only [brought, empty] at ends
    omega
  · simp only [WireRequest.pieces, TakenFit, room, empty, Nat.sub_zero]
    exact ⟨by omega, fun fills => absurd fills (by omega)⟩

theorem pieces_later {s : ServerReader} {piece : List Byte} (between : m.Between env log piece s)
    (stands : Stands s) (bare : m.emptyLine = []) (more : piece ≠ [])
    (within : piece.length ≤ m.body.length) (compacts : Compacts env.memcpy s.conn)
    (returns : ¬Fills (spacesOf env s) (piece.map fun b => .data [b])) :
    m.Undisturbed env (piece.map fun b => .data [b], s) ∧
      TakenFit env.grow (piece.map fun b => .data [b]) 0 s.conn := by
  obtain ⟨pre, unread, post, holds⟩ := between.holds
  have sized := holds.sized stands.doubled
  have single : ∀ r ∈ piece.map fun b => ReadResult.data [b], ∃ b, r = .data [b] := by
    intro r member
    obtain ⟨b, -, rfl⟩ := List.mem_map.mp member
    exact ⟨b, rfl⟩
  refine ⟨⟨returns, compacts, fun k _ idle => ?_⟩, takenFit_single (Nat.zero_le 4) sized single⟩
  simp only at idle
  -- The head has been seen, so a request is pending.
  cases between with
  | head _ _ bytes short =>
      have sizes := congrArg List.length bytes
      rw [WireRequest.text, List.length_append, List.length_append] at sizes
      rw [WireRequest.seenAt, bare, List.length_nil] at short
      omega
  | body _ pending =>
      rw [pending] at idle
      cases idle
  | done => exact absurd rfl more

/-- Nothing but its length goes wrong for a body of more than 2^30 bytes that comes byte by byte. -/
theorem pieces_undisturbed (compacts : ∀ c : RpcConn RpcRequest, Compacts env.memcpy c)
    (bare : m.emptyLine = []) (inside : m.head.length < BUFFER_SIZE)
    (large : 1073741824 < m.body.length) {y : List ReadResult × ServerReader}
    (onWay : m.OnWay env log y) (rest : y.1 <:+ m.pieces) (more : y.1 ≠ []) :
    m.Undisturbed env y ∧ TakenFit env.grow y.1 0 y.2.conn := by
  have returns := returns_of_large large onWay
  obtain ⟨reads, s⟩ := y
  obtain ⟨between, stands, -⟩ := onWay
  simp only at between stands rest more returns ⊢
  rcases List.suffix_cons_iff.mp rest with first | later
  · have whole : reads = m.pieces := first
    subst whole
    rw [m.pieces_received] at between
    exact pieces_first between stands inside (compacts _) returns
  · obtain ⟨j, dropped⟩ : ∃ j, reads = (m.body.drop j).map fun b => .data [b] :=
      ⟨_, by rw [List.map_drop]; exact List.suffix_iff_eq_drop.mp later⟩
    subst dropped
    rw [received_bytes] at between
    have some_left : m.body.drop j ≠ [] := fun empty => more (by rw [empty, List.map_nil])
    have within : (m.body.drop j).length ≤ m.body.length := by
      rw [List.length_drop]
      exact Nat.sub_le _ _
    exact pieces_later between stands bare some_left within (compacts _) returns

end Runs

theorem Call.served (call : Call) : call.wire.Served growingServer where
  returns := echoServer_returns
  clean := fun _ => (by decide : RpcRequest.zeroed.inputLen < 4294967296)
  keyed := Nat.lt_of_le_of_lt call.keyFits (by decide)
  seen := .inl rfl
  grows := growingServer_grows
  grants := fun size _ => growingServer_grants size

theorem callOf_head {n : Nat} (fits : n ≤ INT_MAX) :
    (callOf n fits).wire.head.length = 34 + (intText n).length := by
  have line : (requestText smallCall.method smallCall.service).length = 16 := by decide
  have seq : (intText smallCall.seq).length = 1 := by decide
  have seqLabel_length : seqLabel.length = 4 := by decide
  have bodyLenLabel_length : bodyLenLabel.length = 9 := by decide
  simp only [WireRequest.head, WireRequest.rows, Rows.text, Call.wire, callOf, List.length_append,
    List.length_cons, List.length_nil, List.length_replicate, line, seq, seqLabel_length,
    bodyLenLabel_length]
  omega

theorem freshConn_holds : (serverConn newlineConn 3 0 0).conn.Holds [] []
    (List.replicate BUFFER_SIZE newline) :=
  ⟨rfl, rfl, rfl, by simp [serverConn, rpcConnNewInner, newlineConn, allocConn]⟩

theorem freshConn_stands : Stands (serverConn newlineConn 3 0 0) where
  idle := ⟨rfl, rfl, Nat.le_refl 5⟩
  thread := rfl
  doubled := ⟨0, Nat.zero_le 19, rfl⟩

theorem freshConn_spaces : spacesOf growingServer (serverConn newlineConn 3 0 0) =
    2048 :: 2048 :: doublings growingServer.grow 3 4096 := by
  have size : (serverConn newlineConn 3 0 0).conn.rsize = 2048 := rfl
  have used : (serverConn newlineConn 3 0 0).conn.rbytes = 0 := rfl
  have once : doublings growingServer.grow 4 2048 = 2048 :: doublings growingServer.grow 3 4096 := by
    rw [doublings, if_pos ⟨by decide, growingServer_grants 2048⟩]
  rw [spacesOf, spaces, size, used, if_pos (by decide), once, Nat.sub_zero, List.singleton_append]

theorem freshConn_taken {a b : List Byte} (first : a.length = 2048) (second : b.length < 2048) :
    taken (spacesOf growingServer (serverConn newlineConn 3 0 0)) [.data a, .data b] = some 2 := by
  have whole : (ReadResult.data a).size = some 2048 := congrArg some first
  have part : (ReadResult.data b).size ≠ some 2048 := by
    rw [ReadResult.size, ne_eq, Option.some.injEq]
    exact second.ne
  rw [freshConn_spaces, taken_heard rfl, if_pos whole, taken_heard rfl, if_neg part, Option.map_some]

theorem freshConn_fit {a b : List Byte} (first : a.length = 2048) (second : b.length ≤ 2048) :
    TakenFit growingServer.grow [.data a, .data b] 0 (serverConn newlineConn 3 0 0).conn := by
  have size : (serverConn newlineConn 3 0 0).conn.rsize = 2048 := rfl
  have used : (serverConn newlineConn 3 0 0).conn.rbytes = 0 := rfl
  have room : makeRoom growingServer.grow 0 (serverConn newlineConn 3 0 0).conn =
      some (0, (serverConn newlineConn 3 0 0).conn) := makeRoom_room _ 0 (by decide)
  simp only [TakenFit, room]
  refine ⟨first.le, fun _ => ?_⟩
  split
  · trivial
  · rename_i n' c' room'
    obtain ⟨-, same, -⟩ := makeRoom_grown (Nat.zero_le 4) room'
    have twice : c'.rsize = 4096 := by
      rcases makeRoom_size room' with ⟨space, -, -⟩ | ⟨-, -, -, -, twice⟩
      · simp only [first, size, used] at space
        omega
      · rw [twice, size]
    simp only [first, used] at same
    exact ⟨by omega, fun _ => trivial⟩

/-- The answers that bring one request, in as many runs as they take: nothing leaves the range of an
    `int` and the request is handed out, exactly if no run overflows. -/
theorem cbReqRead_growth {env : ServerEnv} {m : WireRequest} (served : m.Served env)
    {reads : List ReadResult} {s : ServerReader} {pre post : List Byte} (holds : s.conn.Holds pre [] post)
    (idle : s.conn.unprocessData = none) (stands : Stands s) (successful : Successful reads)
    (delivers : received reads = m.text)
    (fit : ∀ x, Reaches env (reads, s) x → TakenFit env.grow x.1 0 x.2.conn)
    (undisturbed : ∀ x, Reaches env (reads, s) x → x.1 ≠ [] → m.Undisturbed env x) :
    ((∀ x, Reaches env (reads, s) x → x.1 ≠ [] → ComputesInRange env.grow x.1 0 x.2.conn) ∧
      ∃ s', Reaches env (reads, s) ([], s') ∧ m.body.length ≤ s'.conn.rsize ∧
        s'.log = s.log ++ [m.handed env]) ↔
    ∀ x, Reaches env (reads, s) x → x.1 ≠ [] → ¬Overflows env x := by
  have start : m.OnWay env s.log (reads, s) := onWay_start holds idle stands successful delivers
  have conditions : ∀ y, Reaches env (reads, s) y → m.OnWay env s.log y → y.1 ≠ [] →
      m.Undisturbed env y ∧ TakenFit env.grow y.1 0 y.2.conn :=
    fun y reaches _ more => ⟨undisturbed y reaches more, fit y reaches⟩
  have onWay : ∀ x, Reaches env (reads, s) x → m.OnWay env s.log x :=
    fun x reaches => reaches_onWay served conditions start reaches
  constructor
  · rintro ⟨inRange, -⟩ x reaches more
    exact (inRange_iff served (onWay x reaches) (fit x reaches)).mp (inRange x reaches more)
  · intro below
    refine ⟨fun x reaches more => ?_, ?_⟩
    · exact (inRange_iff served (onWay x reaches) (fit x reaches)).mpr (below x reaches more)
    · obtain ⟨s', reaches⟩ := reaches_end served conditions below start
      have ended := (onWay _ reaches).between.ended served
      exact ⟨s', reaches, ended⟩

/-- 3000 bytes come in one run that doubles the block once. -/
theorem cbReqRead_growth_once :
    let call := callOf 3000 (by decide)
    let s := serverConn newlineConn 3 0 0
    let reads := [.data (call.wire.text.take 2048), .data (call.wire.text.drop 2048)]
    (∀ x, Reaches growingServer (reads, s) x → x.1 ≠ [] →
      ComputesInRange growingServer.grow x.1 0 x.2.conn) ∧
    ∃ s', Reaches growingServer (reads, s) ([], s') ∧ 3000 ≤ s'.conn.rsize ∧
      s'.log = [call.handed growingServer] := by
  intro call s reads
  have served := call.served
  have successful : Successful reads := by
    intro r member
    rcases List.mem_pair.mp member with rfl | rfl <;> simp
  have delivers : received reads = call.wire.text := by
    simp [received, ReadResult.bytes, reads]
  have head : call.wire.head.length = 38 := by
    rw [callOf_head]
    decide
  have body : call.wire.body.length = 3000 := List.length_replicate
  have length : call.wire.text.length = 3038 := by
    rw [WireRequest.text, List.length_append, head, body]
  have first : (call.wire.text.take 2048).length = 2048 := by
    rw [List.length_take, length]
    rfl
  have second : (call.wire.text.drop 2048).length = 990 := by rw [List.length_drop, length]
  have start : call.wire.OnWay growingServer s.log (reads, s) :=
    onWay_start freshConn_holds rfl freshConn_stands successful delivers
  have both : taken (spacesOf growingServer s) reads = some 2 :=
    freshConn_taken first (by rw [second]; decide)
  have fit : TakenFit growingServer.grow reads 0 s.conn := freshConn_fit first (by rw [second]; decide)
  have undisturbed : call.wire.Undisturbed growingServer (reads, s) := by
    refine ⟨?_, fun p _ _ _ => rfl, fun k takes _ ends => ?_⟩
    · rw [← taken_eq_none, both]
      exact Option.some_ne_none 2
    · obtain rfl : 2 = k := Option.some.inj (both.symm.trans takes)
      have lines : call.wire.line.length + 1 < 2048 := by
        have line : call.wire.line.length = 16 := by decide
        omega
      have brought : received (reads.take 2) = call.wire.text := delivers
      have used : s.conn.rbytes = 0 := rfl
      simp only [brought, length, used] at ends
      omega
  obtain ⟨k, s', takes, next, -⟩ := nextRun_onWay served start (List.cons_ne_nil _ _) undisturbed fit
  obtain rfl : 2 = k := Option.some.inj (both.symm.trans takes)
  have only : ∀ x, Reaches growingServer (reads, s) x → x = (reads, s) ∨ x.1 = [] :=
    fun x reaches => reaches_once next rfl reaches
  have fits : ∀ x, Reaches growingServer (reads, s) x →
      TakenFit growingServer.grow x.1 0 x.2.conn := by
    intro x reaches
    rcases only x reaches with rfl | ended
    · exact fit
    · rw [ended]
      trivial
  have calm : ∀ x, Reaches growingServer (reads, s) x → x.1 ≠ [] →
      call.wire.Undisturbed growingServer x := by
    intro x reaches more
    obtain rfl := (only x reaches).resolve_right more
    exact undisturbed
  have below : ∀ x, Reaches growingServer (reads, s) x → x.1 ≠ [] → ¬Overflows growingServer x := by
    intro x reaches more
    obtain rfl := (only x reaches).resolve_right more
    rintro ⟨block, -⟩
    exact absurd block (by decide)
  obtain ⟨inRange, s'', reaches, room, log⟩ := (cbReqRead_growth served freshConn_holds rfl
    freshConn_stands successful delivers fits calm).mpr below
  rw [body] at room
  rw [call.wire_handed] at log
  exact ⟨inRange, s'', reaches, room, log⟩

/-- A body of `INT_MAX` bytes is never handed out, and the doubling of a block of 2^30 bytes leaves the
    range of an `int` on the way. -/
theorem cbReqRead_growth_fails :
    let call := callOf INT_MAX (Nat.le_refl _)
    let s := serverConn newlineConn 3 0 0
    let reads := call.wire.pieces
    call.wire.Served growingServer ∧ Successful reads ∧ received reads = call.wire.text ∧
    (∀ x, Reaches growingServer (reads, s) x → TakenFit growingServer.grow x.1 0 x.2.conn) ∧
    (∀ x, Reaches growingServer (reads, s) x → x.1 ≠ [] → call.wire.Undisturbed growingServer x) ∧
    (∃ x, Reaches growingServer (reads, s) x ∧ x.1 ≠ [] ∧
      ¬ComputesInRange growingServer.grow x.1 0 x.2.conn) ∧
    ¬∃ s', Reaches growingServer (reads, s) ([], s') := by
  intro call s reads
  have served := call.served
  have successful : Successful reads := call.wire.pieces_successful
  have delivers : received reads = call.wire.text := call.wire.pieces_received
  have start : call.wire.OnWay growingServer s.log (reads, s) :=
    onWay_start freshConn_holds rfl freshConn_stands successful delivers
  have large : 1073741824 < call.wire.body.length := by
    have length : call.wire.body.length = INT_MAX := List.length_replicate
    rw [length]
    decide
  have inside : call.wire.head.length < BUFFER_SIZE := by
    rw [callOf_head]
    decide
  have compacts : ∀ c : RpcConn RpcRequest, Compacts growingServer.memcpy c :=
    fun c p _ _ _ => rfl
  have conditions : ∀ y, Reaches growingServer (reads, s) y →
      call.wire.OnWay growingServer s.log y → y.1 ≠ [] →
      call.wire.Undisturbed growingServer y ∧ TakenFit growingServer.grow y.1 0 y.2.conn :=
    fun y reaches onWay more =>
      pieces_undisturbed compacts rfl inside large onWay (reaches_suffix reaches) more
  have onWay : ∀ x, Reaches growingServer (reads, s) x → call.wire.OnWay growingServer s.log x :=
    fun x reaches => reaches_onWay served conditions start reaches
  refine ⟨served, successful, delivers, fun x reaches => ?_, fun x reaches more => ?_,
    beyond_block served large conditions start⟩
  · by_cases ended : x.1 = []
    · rw [ended]
      trivial
    · exact (conditions x reaches (onWay x reaches) ended).2
  · exact (conditions x reaches (onWay x reaches) more).1

end OpenRpc
