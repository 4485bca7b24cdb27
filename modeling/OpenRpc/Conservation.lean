import OpenRpc.Overruns
import Mathlib.Logic.Relation

/-! # What a parse takes from the window

Every exit of the two parsers moves the start of the window over bytes it has looked at and leaves the
end of the window where it was. From that the loop of `cb_req_read` ends: a round that goes on has
taken a head, or the one message that was pending. Only a round that goes beyond its memory stops it.
-/

namespace OpenRpc

open Memory

/-- A parser has gone from the first window to the second: it wrote nothing but terminators, the window
    ends where it did, and at least `k` newlines are behind its new start. -/
structure Window.Eats (k : Nat) (c c' : Window) : Prop where
  memory : Nulled c.rbuf c'.rbuf
  start : c.rcurr ≤ c'.rcurr
  stop : c'.rcurr + c'.rbytes = c.rcurr + c.rbytes
  lines : k ≤ (slice c.rbuf c.rcurr (c'.rcurr - c.rcurr)).count newline

theorem count_nulled {mem mem' : List Byte} (nulled : Nulled mem mem') (start len : Nat) :
    (slice mem' start len).count newline ≤ (slice mem start len).count newline := by
  have within := List.forall₂_take len (List.forall₂_drop start nulled)
  unfold slice
  generalize (mem.drop start).take len = l at within ⊢
  generalize (mem'.drop start).take len = l' at within ⊢
  induction within with
  | nil => exact Nat.le_refl _
  | @cons b b' l l' head tail ih =>
      simp only [List.count_cons]
      rcases head with rfl | rfl
      · omega
      · rw [if_neg (by decide)]
        omega

theorem tokenizeLoop_nulled (text : List Byte) (b e left : Nat) (mem : List Byte) :
    Nulled mem (tokenizeLoop text b e left mem).2 := by
  induction text generalizing b e left mem with
  | nil => cases left <;> exact .refl mem
  | cons x text ih =>
      cases left with
      | zero => exact .refl mem
      | succ left =>
          unfold tokenizeLoop
          split
          · split
            · exact (nulled_set mem e).trans (ih ..)
            · exact ih ..
          · split
            · split <;> exact .refl mem
            · exact ih ..

theorem CharPtr.cut_nulled (p : CharPtr) (mem : List Byte) (i : Nat) : Nulled mem (p.cut mem i).1 := by
  cases p with
  | rbuf off => exact nulled_set mem _
  | null | wild | heap => exact .refl mem

namespace Window.Eats

variable {k j : Nat} {a b c : Window}

theorem refl (c : Window) : c.Eats 0 c := ⟨.refl _, Nat.le_refl _, rfl, Nat.zero_le _⟩

theorem weaken (eats : a.Eats k b) (le : j ≤ k) : a.Eats j b :=
  ⟨eats.memory, eats.start, eats.stop, Nat.le_trans le eats.lines⟩

theorem written (eats : a.Eats k b) {mem : List Byte} (nulled : Nulled b.rbuf mem) :
    a.Eats k { b with rbuf := mem } :=
  ⟨eats.memory.trans nulled, eats.start, eats.stop, eats.lines⟩

theorem trans (first : a.Eats k b) (second : b.Eats j c) : a.Eats (k + j) c := by
  have low := first.start
  have high := second.start
  refine ⟨first.memory.trans second.memory, Nat.le_trans low high, second.stop.trans first.stop, ?_⟩
  have split : slice a.rbuf a.rcurr (c.rcurr - a.rcurr) =
      slice a.rbuf a.rcurr (b.rcurr - a.rcurr) ++ slice a.rbuf b.rcurr (c.rcurr - b.rcurr) := by
    have total : c.rcurr - a.rcurr = (b.rcurr - a.rcurr) + (c.rcurr - b.rcurr) := by omega
    rw [slice, total, List.take_add, List.drop_drop, Nat.add_sub_cancel' low]
    rfl
  have more := count_nulled first.memory b.rcurr (c.rcurr - b.rcurr)
  have one := first.lines
  have two := second.lines
  rw [split, List.count_append]
  omega

theorem line {el : Nat} (low : a.rcurr ≤ el) (high : el < a.rcurr + a.rbytes)
    (here : a.rbuf[el]? = some newline) {mem : List Byte} (nulled : Nulled a.rbuf mem) :
    a.Eats 1 ⟨mem, el + 1, a.rbytes - (el + 1 - a.rcurr)⟩ := by
  refine ⟨nulled, by simp only; omega, by simp only; omega, ?_⟩
  apply List.one_le_count_iff.mpr
  apply List.mem_of_getElem? (i := el - a.rcurr)
  rw [slice, List.getElem?_take_of_lt (by simp only; omega), List.getElem?_drop,
    Nat.add_sub_cancel' low, here]

theorem body (eats : a.Eats k b) {len : Nat} (enough : len ≤ b.rbytes) :
    a.Eats k ⟨b.rbuf, b.rcurr + len, b.rbytes - len⟩ := by
  have rest : b.Eats 0 ⟨b.rbuf, b.rcurr + len, b.rbytes - len⟩ :=
    ⟨.refl _, by simp only; omega, by simp only; omega, Nat.zero_le _⟩
  exact eats.trans rest

end Window.Eats

theorem lineAt_eats {c : Window} {line : Line} (found : lineAt c = some line) :
    c.Eats 1 line.window := by
  have nulled := lineAt_nulled found
  unfold lineAt at found
  split at found
  · cases found
  · rename_i el here
    obtain ⟨low, high, byte, -⟩ := memchr_eq_some.mp here
    cases found
    exact .line low high byte nulled

theorem numberLine_eats (label : List Byte) (c : Window) :
    c.Eats 0 (numberLine label c).2 ∧
      ∀ v c', numberLine label c = (some v, c') → c.Eats 1 c' := by
  unfold numberLine
  split
  · exact ⟨.refl c, by simp⟩
  · rename_i line found
    have eats := lineAt_eats found
    refine ⟨eats.weaken (Nat.zero_le 1), fun v c' read => ?_⟩
    obtain ⟨-, rfl⟩ := Prod.mk.inj read
    exact eats

theorem bodyLine_eats (seq : Int) (len : Nat) (c : Window) :
    c.Eats 0 (bodyLine seq len c).2 ∧
      ∀ rest c', bodyLine seq len c = (rest, c') → rest ≠ .error → c.Eats 1 c' := by
  simp only [bodyLine]
  split
  · exact ⟨.refl c, fun rest c' failed other => by cases failed; exact absurd rfl other⟩
  · rename_i el here
    obtain ⟨low, high, byte, -⟩ := memchr_eq_some.mp here
    have empty := Window.Eats.line low high byte (.refl _)
    split
    · split
      · rename_i enough
        have whole := empty.body enough
        exact ⟨whole.weaken (Nat.zero_le 1), fun rest c' read _ => by cases read; exact whole⟩
      · exact ⟨empty.weaken (Nat.zero_le 1), fun rest c' read _ => by cases read; exact empty⟩
    · exact ⟨.refl c, fun rest c' failed other => by cases failed; exact absurd rfl other⟩

theorem parseRest_eats (old : Nat) (c : Window) :
    c.Eats 0 (parseRest old c).2 ∧
      ∀ rest c', parseRest old c = (rest, c') → rest ≠ .error → c.Eats 3 c' := by
  have failed : ∀ {w : Window} {rest c'}, ((Rest.error, w) : Rest × Window) = (rest, c') →
      rest ≠ .error → c.Eats 3 c' := by
    intro w rest c' failed other
    cases failed
    exact absurd rfl other
  obtain ⟨one, first⟩ := numberLine_eats seqLabel c
  unfold parseRest
  split
  · rename_i c₁ seqLine
    rw [seqLine] at one
    exact ⟨one, fun rest c' => failed⟩
  · rename_i seq c₁ seqLine
    have first := first seq c₁ seqLine
    obtain ⟨two, second⟩ := numberLine_eats bodyLenLabel c₁
    split
    · rename_i c₂ lenLine
      rw [lenLine] at two
      exact ⟨(first.trans two).weaken (Nat.zero_le _), fun rest c' => failed⟩
    · rename_i n c₂ lenLine
      have second := second n c₂ lenLine
      obtain ⟨three, third⟩ := bodyLine_eats seq (storeInt old n) c₂
      refine ⟨((first.trans second).trans three).weaken (Nat.zero_le _), fun rest c' read other => ?_⟩
      exact (first.trans second).trans (third rest c' read other)

theorem firstLine_eats {c : Window} {line : Line} (found : lineAt c = some line) :
    let mem := (tokenizeCommand line.rbuf c.rcurr 3).2
    c.Eats 0 { c with rbuf := mem } ∧ c.Eats 1 ⟨mem, line.cont, line.avail⟩ := by
  have tokens : Nulled line.rbuf (tokenizeCommand line.rbuf c.rcurr 3).2 := tokenizeLoop_nulled ..
  have eats := lineAt_eats found
  exact ⟨(Window.Eats.refl c).written ((lineAt_nulled found).trans tokens), eats.written tokens⟩

theorem requestLine_eats (new : RpcRequest) (stale : Nat → CharPtr) (c : Window) :
    c.Eats 0 (requestLine new stale c).2 ∧
      ∀ req c', requestLine new stale c = (.ok req, c') → c.Eats 1 c' := by
  simp only [requestLine]
  split
  · exact ⟨.refl c, by simp⟩
  · rename_i line found
    obtain ⟨stays, moves⟩ := firstLine_eats found
    split
    · exact ⟨stays, by simp⟩
    · split
      · exact ⟨stays, by simp⟩
      · split
        · exact ⟨stays, by simp⟩
        · split
          · exact ⟨stays, by simp⟩
          · rename_i ch _
            have cut := moves.written
              (CharPtr.cut_nulled (tokenValue (tokenizeCommand line.rbuf c.rcurr 3).1 stale 1) _ ch)
            refine ⟨cut.weaken (Nat.zero_le 1), fun req c' accepted => ?_⟩
            obtain ⟨-, rfl⟩ := Prod.mk.inj accepted
            exact cut

theorem statusLine_eats (new : RpcResponse) (stale : Nat → CharPtr) (c : Window) :
    c.Eats 0 (statusLine new stale c).2 ∧
      ∀ rsp c', statusLine new stale c = (.ok rsp, c') → c.Eats 1 c' := by
  simp only [statusLine]
  split
  · exact ⟨.refl c, by simp⟩
  · rename_i line found
    obtain ⟨stays, moves⟩ := firstLine_eats found
    split
    · exact ⟨stays, by simp⟩
    · split
      · exact ⟨stays, by simp⟩
      · split
        · exact ⟨stays, by simp⟩
        · refine ⟨moves.weaken (Nat.zero_le 1), fun rsp c' accepted => ?_⟩
          obtain ⟨-, rfl⟩ := Prod.mk.inj accepted
          exact moves

/-- What a return of a parser has taken: the four lines of a head where there was one. -/
structure Conserves {α : Type} (c : Window) (result : ParseResult α × Window) : Prop where
  any : c.Eats 0 result.2
  head : ∀ obj, result.1 = .ok obj ∨ result.1 = .needData obj → c.Eats 4 result.2

theorem Conserves.head_only {α : Type} {c c' : Window} {result : ParseResult α} (eats : c.Eats 4 c') :
    Conserves c (result, c') :=
  ⟨eats.weaken (Nat.zero_le 4), fun _ _ => eats⟩

theorem parseRest_eats_behind {a c : Window} (first : a.Eats 1 c) (old : Nat) :
    a.Eats 0 (parseRest old c).2 ∧
      ∀ rest c', parseRest old c = (rest, c') → rest ≠ .error → a.Eats 4 c' := by
  obtain ⟨any, whole⟩ := parseRest_eats old c
  refine ⟨(first.trans any).weaken (Nat.zero_le _), fun rest c' read other => ?_⟩
  exact first.trans (whole rest c' read other)

theorem rpcRequestParse_conserves (new : RpcRequest) (stale : Nat → CharPtr) (c : Window) :
    Conserves c (rpcRequestParse new stale c) := by
  obtain ⟨one, first⟩ := requestLine_eats new stale c
  unfold rpcRequestParse
  split
  · rename_i request c₁ accepted
    obtain ⟨any, whole⟩ := parseRest_eats_behind (first request c₁ accepted) request.inputLen
    split
    · rename_i seq len body c₂ read
      exact .head_only (whole _ _ read (by simp))
    · rename_i seq len c₂ read
      exact .head_only (whole _ _ read (by simp))
    · rename_i c₂ read
      rw [read] at any
      exact ⟨any, by simp⟩
  · rename_i failed
    refine ⟨one, fun req returned => ?_⟩
    rcases returned with accepted | short
    · exact (failed req _ (Prod.ext accepted rfl)).elim
    · exact (requestLine_never_needData new stale c req _ (Prod.ext short rfl)).elim

theorem rpcResponseParse_conserves (new : RpcResponse) (stale : Nat → CharPtr) (c : Window) :
    Conserves c (rpcResponseParse new stale c) := by
  obtain ⟨one, first⟩ := statusLine_eats new stale c
  unfold rpcResponseParse
  split
  · rename_i response c₁ accepted
    obtain ⟨any, whole⟩ := parseRest_eats_behind (first response c₁ accepted) response.outputLen
    split
    · rename_i seq len body c₂ read
      exact .head_only (whole _ _ read (by simp))
    · rename_i seq len c₂ read
      exact .head_only (whole _ _ read (by simp))
    · rename_i c₂ read
      rw [read] at any
      exact ⟨any, by simp⟩
  · rename_i failed
    refine ⟨one, fun rsp returned => ?_⟩
    rcases returned with accepted | short
    · exact (failed rsp _ (Prod.ext accepted rfl)).elim
    · exact (statusLine_never_needData new stale c rsp _ (Prod.ext short rfl)).elim

/-- How many requests the loop can still hand over: one for every four bytes, and the one that is
    pending if there is a byte to look at. -/
def Reader.calls (s : ServerReader) : Nat :=
  if s.conn.rbytes = 0 then 0
  else s.conn.rbytes / 4 + if s.conn.unprocessData.isSome then 1 else 0

theorem Reader.calls_le (s : ServerReader) : s.calls ≤ s.conn.rbytes := by
  unfold Reader.calls
  split
  · omega
  · split <;> omega

theorem Window.Eats.four {c c' : Window} (eats : c.Eats 4 c') : c'.rbytes + 4 ≤ c.rbytes := by
  have lines := eats.lines
  have seen := List.count_le_length (a := newline)
    (l := slice c.rbuf c.rcurr (c'.rcurr - c.rcurr))
  rw [slice, List.length_take] at seen
  have stop := eats.stop
  have start := eats.start
  rw [slice] at lines
  omega

/-- A round that goes on has handed one request over, and a round that does not has handed none. -/
theorem readRound_calls {env : ServerEnv} {behind : Byte} {s s' : ServerReader} {go : Bool}
    (round : readRound (reqSide env) behind s = .ok (go, s')) :
    (go = false ∧ s'.log = s.log) ∨
      (go = true ∧ s'.log.length = s.log.length + 1 ∧ s'.calls < s.calls) := by
  have handed : ∀ {r : ServerReader} {req : RpcRequest},
      dispatch env r req = .ok (go, s') → r.log = s.log →
        go = true ∧ s'.log.length = s.log.length + 1 ∧ s'.conn.rbytes = r.conn.rbytes ∧
          s'.conn.unprocessData = r.conn.unprocessData := by
    intro r req dispatched same
    obtain ⟨bytes, kept⟩ := (reqSide_consumes env).deliver _ _ _ _ dispatched
    obtain ⟨_, _, _, -, -, -, -, on, -, logged⟩ := dispatch_cases dispatched
    exact ⟨on, by rw [logged, same, List.length_append, List.length_singleton], bytes, kept⟩
  cases readRound_moves round with
  | empty | waits | keeps | rejects | short => exact .inl ⟨rfl, rfl⟩
  | whole c c' req unread idle window head parsed delivered =>
      obtain ⟨on, logged, bytes, kept⟩ := handed delivered rfl
      have fewer := ((rpcRequestParse_conserves (env.objs s.parses) (env.stale s.parses) c).head req
        (.inl (congrArg Prod.fst parsed)))
      rw [show rpcRequestParse (env.objs s.parses) (env.stale s.parses) c = (.ok req, c') from parsed]
        at fewer
      have taken : c'.rbytes + 4 ≤ c.rbytes := fewer.four
      have same := window_rbytes window
      simp only [RpcConn.setWindow] at bytes kept
      refine .inr ⟨on, logged, ?_⟩
      simp only [Reader.calls, bytes, kept, idle, Option.isSome_none, Bool.false_eq_true, if_false]
      rw [if_neg unread]
      split <;> omega
  | resumes c last unread pending window enough delivered =>
      obtain ⟨on, logged, bytes, kept⟩ := handed delivered rfl
      have same := window_rbytes window
      simp only [RpcConn.setWindow] at bytes kept
      refine .inr ⟨on, logged, ?_⟩
      simp only [Reader.calls, bytes, kept, pending, Option.isSome_none, Option.isSome_some,
        Bool.false_eq_true, if_false, if_true]
      rw [if_neg unread]
      split <;> omega

theorem Window.Eats.inside {k : Nat} {c c' : Window} (eats : c.Eats k c') (inside : c.Inside) :
    c'.Inside := by
  have length := eats.memory.length_eq
  have stop := eats.stop
  unfold Window.Inside at inside ⊢
  omega

/-- The states the loop of `cb_req_read` comes to. -/
def Comes (env : ServerEnv) (behind : Byte) : ServerReader → ServerReader → Prop :=
  Relation.ReflTransGen fun s s' => readRound (reqSide env) behind s = .ok (true, s')

/-- The loop returns within a round more than bytes and has called no more services than bytes. -/
def LoopEnds (env : ServerEnv) (behind : Byte) (s : ServerReader) : Prop :=
  ∃ s', readRounds (reqSide env) behind (s.conn.rbytes + 1) s = .ok s' ∧
    s'.log.length ≤ s.log.length + s.conn.rbytes

section Calm

variable {env : ServerEnv} {Kind : RpcConn RpcRequest → Prop} (calm : env.Calm Kind)

include calm

theorem handed_calm {s : ServerReader} (req : RpcRequest) {c : Window} (kind : Kind s.conn)
    (window : s.conn.window? = some c) (inside : c.Inside) (thread : s.conn.thread.isSome) :
    (¬KeySlips s.conn.rbuf req →
      ∃ go s', dispatch env s req = .ok (go, s') ∧ Kind s'.conn ∧ s'.Open) ∧
    (KeySlips s.conn.rbuf req → dispatch env s req = .error .undefined) := by
  rcases dispatch_calm calm kind thread req with
    ⟨undefined, slips⟩ | ⟨go, s', delivered, sound, same, after⟩
  · exact ⟨fun sound => absurd slips sound, fun _ => undefined⟩
  · have still : s'.conn.window? = some c := by
      rw [← window, RpcConn.window?, RpcConn.window?, same.rcurr, same.rbuf, same.rbytes]
    have running : s'.conn.thread.isSome := by rwa [same.thread]
    exact ⟨fun _ => ⟨go, s', delivered, after, ⟨c, still, inside⟩, running⟩,
      fun slips => absurd slips sound⟩

theorem readRound_head {behind : Byte} {s : ServerReader} {c : Window} (kind : Kind s.conn)
    (unread : s.conn.rbytes ≠ 0) (idle : s.conn.unprocessData = none)
    (window : s.conn.window? = some c) (inside : c.Inside) (thread : s.conn.thread.isSome)
    (head : rpcConnReceivedHead (c.rbuf.drop c.rcurr ++ [behind]) c.rbytes) :
    let slips := ResultSlips (env.copies s.parses)
      (rpcRequestParse (env.objs s.parses) (env.stale s.parses) c)
    (¬slips → ∃ go s', readRound (reqSide env) behind s = .ok (go, s') ∧ Kind s'.conn ∧ s'.Open) ∧
    (slips → readRound (reqSide env) behind s = .error .undefined) := by
  have within := (rpcRequestParse_conserves (env.objs s.parses) (env.stale s.parses) c).any.inside
    inside
  have moved : ∀ (w : Window) (kept : Option RpcRequest),
      Kind { s.conn.setWindow w with unprocessData := kept } :=
    fun w kept => calm.reading s.conn _ ⟨rfl, rfl, id, rfl, rfl⟩ kind
  simp only [readRound, if_neg unread, idle, window, if_pos head, reqSide, ReadSide.hand]
  generalize rpcRequestParse (env.objs s.parses) (env.stale s.parses) c = result at within ⊢
  rcases result with ⟨req | req | _ | _, c'⟩
  · exact handed_calm calm (s := ⟨s.conn.setWindow c', s.parses + 1, s.log⟩) (c := c') req
      (moved c' _) rfl within thread
  · rw [resultSlips_needData]
    cases copied : rpcRequestCopyHead c'.rbuf (env.copies s.parses) req with
    | none => exact ⟨fun sound => absurd rfl sound, fun _ => by simp only [copied]⟩
    | some kept =>
        simp only [copied]
        exact ⟨fun _ => ⟨_, _, rfl, moved c' _, ⟨⟨c', rfl, within⟩, thread⟩⟩,
          fun slips => (Option.some_ne_none _ slips).elim⟩
  · exact ⟨fun _ => ⟨_, _, rfl, moved c' _, ⟨⟨c', rfl, within⟩, thread⟩⟩, fun slips => slips.elim⟩
  · exact ⟨fun sound => absurd trivial sound, fun _ => rfl⟩

theorem readRound_pending (behind : Byte) {s : ServerReader} {last : RpcRequest} {c : Window}
    (kind : Kind s.conn) (unread : s.conn.rbytes ≠ 0) (pending : s.conn.unprocessData = some last)
    (enough : last.inputLen ≤ s.conn.rbytes) (window : s.conn.window? = some c) (inside : c.Inside)
    (thread : s.conn.thread.isSome) :
    (¬KeySlips s.conn.rbuf last →
      ∃ go s', readRound (reqSide env) behind s = .ok (go, s') ∧ Kind s'.conn ∧ s'.Open) ∧
    (KeySlips s.conn.rbuf last → readRound (reqSide env) behind s = .error .undefined) := by
  have same := window_rbytes window
  have memory : s.conn.rbuf = c.rbuf := by
    obtain ⟨_, -, rfl⟩ := Option.map_eq_some_iff.mp window
    rfl
  have room : (⟨c.rbuf, c.rcurr + last.inputLen, c.rbytes - last.inputLen⟩ : Window).Inside := by
    unfold Window.Inside at inside ⊢
    simp only
    omega
  rw [memory]
  simp only [readRound, if_neg unread, pending, window]
  rw [show (reqSide env).bodyLen last = last.inputLen from rfl, if_pos enough]
  refine handed_calm calm (s := { s with
      conn := { s.conn with unprocessData := none }.setWindow
        ⟨c.rbuf, c.rcurr + last.inputLen, c.rbytes - last.inputLen⟩ })
    { last with input := .rbuf c.rcurr } ?_ rfl room thread
  exact calm.reading s.conn _ ⟨rfl, rfl, id, rfl, rfl⟩ kind

theorem readRound_calm (behind : Byte) {s : ServerReader} (kind : Kind s.conn) (opened : s.Open) :
    (¬RoundSlips env behind s →
      ∃ go s', readRound (reqSide env) behind s = .ok (go, s') ∧ Kind s'.conn ∧ s'.Open) ∧
    ((∀ k, Unset (env.stale k)) → RoundSlips env behind s →
      readRound (reqSide env) behind s = .error .undefined) := by
  obtain ⟨⟨c, window, inside⟩, thread⟩ := opened
  have stays : ∀ go, readRound (reqSide env) behind s = .ok (go, s) →
      ∃ go s', readRound (reqSide env) behind s = .ok (go, s') ∧ Kind s'.conn ∧ s'.Open :=
    fun _ round => ⟨_, s, round, kind, ⟨c, window, inside⟩, thread⟩
  by_cases unread : s.conn.rbytes = 0
  · exact ⟨fun _ => stays false (by rw [readRound, if_pos unread]),
      fun _ slips => absurd unread slips.1⟩
  cases pending : s.conn.unprocessData with
  | none =>
      simp only [RoundSlips, pending, window, Option.some.injEq, exists_eq_left']
      by_cases head : rpcConnReceivedHead (c.rbuf.drop c.rcurr ++ [behind]) c.rbytes
      · obtain ⟨returns, undefined⟩ := readRound_head calm kind unread pending window inside thread head
        obtain ⟨sound, slips⟩ := resultSlips_window (env.objs s.parses) (env.copies s.parses)
          (env.stale s.parses) inside
        exact ⟨fun none_slips => returns fun result => none_slips ⟨unread, head, sound result⟩,
          fun unset here => undefined (slips (unset _) here.2.2)⟩
      · refine ⟨fun _ => stays false ?_, fun _ slips => absurd slips.2.1 head⟩
        simp only [readRound, if_neg unread, pending, window, if_neg head]
  | some last =>
      simp only [RoundSlips, pending]
      by_cases enough : last.inputLen ≤ s.conn.rbytes
      · obtain ⟨returns, undefined⟩ := readRound_pending calm behind kind unread pending enough window
          inside thread
        exact ⟨fun none_slips => returns fun slips => none_slips ⟨unread, enough, slips⟩,
          fun _ slips => undefined slips.2.2⟩
      · refine ⟨fun _ => stays false ?_, fun _ slips => absurd slips.2.1 enough⟩
        simp only [readRound, if_neg unread, pending]
        exact if_neg enough

/-- By induction on the rounds allowed: each one that goes on has taken a call. -/
theorem readRounds_calm (behind : Byte) (fuel : Nat) {s : ServerReader} (kind : Kind s.conn)
    (opened : s.Open) (enough : s.calls < fuel)
    (sound : ∀ t, Comes env behind s t → ¬RoundSlips env behind t) :
    ∃ s', readRounds (reqSide env) behind fuel s = .ok s' ∧
      s'.log.length ≤ s.log.length + s.calls := by
  induction fuel generalizing s with
  | zero => omega
  | succ fuel ih =>
      obtain ⟨go, s₁, round, kind₁, opened₁⟩ := (readRound_calm calm behind kind opened).1 (sound s .refl)
      unfold readRounds
      rw [round]
      rcases readRound_calls round with ⟨rfl, same⟩ | ⟨rfl, one, fewer⟩
      · exact ⟨s₁, rfl, by rw [same]; omega⟩
      · obtain ⟨s', rounds, logged⟩ := ih kind₁ opened₁ (by omega)
          fun t comes => sound t (.head round comes)
        exact ⟨s', rounds, by omega⟩

theorem readRounds_sound (behind : Byte) (unset : ∀ k, Unset (env.stale k)) {fuel : Nat}
    {s s' t : ServerReader} (kind : Kind s.conn) (opened : s.Open)
    (rounds : readRounds (reqSide env) behind fuel s = .ok s') (comes : Comes env behind s t) :
    ¬RoundSlips env behind t := by
  induction fuel generalizing s with
  | zero => cases rounds
  | succ fuel ih =>
      intro slips
      obtain ⟨returns, undefined⟩ := readRound_calm calm behind kind opened
      by_cases here : RoundSlips env behind s
      · rw [readRounds, undefined unset here] at rounds
        cases rounds
      · obtain ⟨go, s₁, round, kind₁, opened₁⟩ := returns here
        rcases Relation.ReflTransGen.cases_head comes with rfl | ⟨s₂, next, later⟩
        · exact here slips
        · rw [round] at next
          cases next
          rw [readRounds, round] at rounds
          exact ih kind₁ opened₁ rounds later slips

end Calm

/-- Every return of the two parsers keeps the end of the window, moves its start at most forward and,
    where there was a head, over four newlines at least. The loop of `cb_req_read` is therefore at its
    end within as many rounds as bytes, every round but the last calling one service, if no round of it
    slips; and if the tokens were not set, only then. -/
theorem cbReqRead_conserves (env : ServerEnv) (Kind : RpcConn RpcRequest → Prop)
    (calm : env.Calm Kind) (behind : Byte) :
    (∀ new stale c, Conserves c (rpcRequestParse new stale c)) ∧
    (∀ new stale c, Conserves c (rpcResponseParse new stale c)) ∧
    ∀ s : ServerReader, Kind s.conn → s.Open →
      ((∀ t, Comes env behind s t → ¬RoundSlips env behind t) → LoopEnds env behind s) ∧
      ((∀ k, Unset (env.stale k)) → LoopEnds env behind s →
        ∀ t, Comes env behind s t → ¬RoundSlips env behind t) := by
  refine ⟨rpcRequestParse_conserves, rpcResponseParse_conserves, fun s kind opened => ?_⟩
  refine ⟨fun sound => ?_, ?_⟩
  · have few := s.calls_le
    obtain ⟨s', rounds, logged⟩ := readRounds_calm calm behind (s.conn.rbytes + 1) kind opened
      (by omega) sound
    exact ⟨s', rounds, by omega⟩
  · rintro unset ⟨s', rounds, -⟩ t comes
    exact readRounds_sound calm behind unset kind opened rounds comes

theorem echoServer_calm : echoServer.Calm RpcConn.Idle where
  reading := fun _ _ same idle => same.idle idle
  answers := by
    intro s key seq input inputLen idle
    have once : ∀ (reply : Reply) (c : RpcConn RpcRequest), c.Idle → s.conn.SameReadSide c →
        ∃ c', answer echoServer [reply] c = .ok c' ∧ s.conn.SameReadSide c' ∧ c'.Idle := by
      intro reply c ready same
      obtain ⟨c', rest, message, sent, -, after, kept, -, -⟩ :=
        reply.send_idle echoServer.alloc echoServer_returns echoServer.table ready
      exact ⟨c', by simp only [answer, sent], same.trans kept, after⟩
    rcases serve_cases echoServer s key seq input inputLen with ⟨cb, found, served⟩ | ⟨-, served⟩
    · simp only [echoServer] at found
      split at found
      · cases found
        rw [served]
        exact once _ _ ⟨idle.vector, idle.empty, idle.room⟩ ⟨rfl, rfl, rfl, rfl, rfl, rfl⟩
      · cases found
    · rw [served]
      exact once _ _ idle (.refl _)

/-- Two calls and a third without its body: the loop calls two services and keeps the third head. -/
theorem cbReqRead_conserves_small :
    let window : Window := .frame [] (smallText ++ smallText ++ smallText.dropLast) []
    let s : ServerReader := ⟨(serverConn newlineConn 3 0 0).conn.setWindow window, 0, []⟩
    Conserves window (rpcRequestParse .zeroed (fun _ => .wild) window) ∧
      LoopEnds echoServer nul s ∧ ∀ t, Comes echoServer nul s t → ¬RoundSlips echoServer nul t := by
  intro window s
  obtain ⟨requests, -, exact⟩ := cbReqRead_conserves echoServer RpcConn.Idle echoServer_calm nul
  obtain ⟨ends, slips⟩ := exact s ⟨rfl, rfl, by decide⟩ ⟨⟨window, rfl, Window.frame_inside ..⟩, rfl⟩
  have computed : (readRounds (reqSide echoServer) nul (s.conn.rbytes + 1) s).toOption.map
      (·.log.length) = some 2 := by decide +kernel
  obtain ⟨s', rounds, two⟩ := returned_of_computed computed
  have sound := slips (fun _ _ _ => rfl) ⟨s', rounds, by rw [two]; decide⟩
  exact ⟨requests _ _ _, ends sound, sound⟩

/-- A method name of 300 bytes: `snprintf` cuts the key off and returns its whole length, and the
    terminator is written there, behind the array. -/
theorem cbReqRead_conserves_fails :
    ¬∀ (env : ServerEnv) (Kind : RpcConn RpcRequest → Prop), env.Calm Kind →
      ∀ behind (s : ServerReader), Kind s.conn → s.Open → LoopEnds env behind s := by
  intro always
  let window : Window := .frame [] (requestHead (List.replicate 300 109) (text ['s']) 4 0) []
  let s : ServerReader := ⟨(serverConn newlineConn 3 0 0).conn.setWindow window, 0, []⟩
  obtain ⟨s', rounds, -⟩ := always echoServer RpcConn.Idle echoServer_calm nul s
    ⟨rfl, rfl, by decide⟩ ⟨⟨window, rfl, Window.frame_inside ..⟩, rfl⟩
  have computed :
      (readRounds (reqSide echoServer) nul (s.conn.rbytes + 1) s).toOption.isSome = false := by
    decide +kernel
  rw [rounds] at computed
  cases computed

end OpenRpc
