import OpenRpc.Server
import OpenRpc.ParseInputs

/-! # Rounds that use what C leaves undefined

A round of `cb_req_read` goes beyond its memory in three ways: the parser looks at a word that the
request line does not have, `rpc_request_copy_head` duplicates the version where there is none, and the
key of the names does not fit into the 256 bytes it is printed into. When this happens is said here of
the bytes that are unread and of the request that is pending.
-/

namespace OpenRpc

open Memory

/-- The head at the start of these bytes: a word is looked at that its first line does not have, the
    key of a whole message is too long, or the version of a head without its body is missing. `old` is
    what the length field of the new object held. -/
def HeadSlips (old : Nat) (seg : List Byte) : Prop :=
  ∃ first rest, newline ∉ first ∧ seg = first ++ newline :: rest ∧
    (LooksPast CALL (wordsOf (lineContent first)) ∨
      ∃ w target more r seq len, wordsOf (lineContent first) = w :: target :: more ∧
        LaxCall (w :: target :: more) ∧ rest = Rows.text r ∧ r.Scans seq len ∧
        if storeInt old len ≤ r.behind.length then 256 ≤ target.length else more = [])

/-- The names of a request cannot be read, or their key is too long. -/
def KeySlips (mem : List Byte) (req : RpcRequest) : Prop :=
  ∀ method service, req.methodName.read mem = some method → req.serviceName.read mem = some service →
    256 ≤ (method ++ atSign :: service).length

/-- The next round slips: behind a head, or with the request that is pending. -/
def RoundSlips (env : ServerEnv) (behind : Byte) (s : ServerReader) : Prop :=
  s.conn.rbytes ≠ 0 ∧
    match s.conn.unprocessData with
    | none => ∃ c, s.conn.window? = some c ∧
        rpcConnReceivedHead (c.rbuf.drop c.rcurr ++ [behind]) c.rbytes ∧
        HeadSlips (env.objs s.parses).inputLen c.unread
    | some last => last.inputLen ≤ s.conn.rbytes ∧ KeySlips s.conn.rbuf last

/-- What the array of tokens held before the parser set any cannot be read. -/
def Unset (stale : Nat → CharPtr) : Prop := ∀ i mem, (stale i).read mem = none

/-- How a round goes on with what the parser has returned is not defined. -/
def ResultSlips (copy : RpcRequest) : ParseResult RpcRequest × Window → Prop
  | (.ok req, c) => KeySlips c.rbuf req
  | (.needData req, c) => rpcRequestCopyHead c.rbuf copy req = none
  | (.error, _) => False
  | (.undefined, _) => True

theorem resultSlips_ok {copy req : RpcRequest} {c : Window} :
    ResultSlips copy (.ok req, c) ↔ KeySlips c.rbuf req := Iff.rfl

theorem resultSlips_needData {copy req : RpcRequest} {c : Window} :
    ResultSlips copy (.needData req, c) ↔ rpcRequestCopyHead c.rbuf copy req = none := Iff.rfl

section Parse

variable {stale : Nat → CharPtr} (new copy : RpcRequest) {pre post first rest : List Byte}
  (one : newline ∉ first)

include one

/-- A line that has the words the parser looks at is parsed, whatever it is. -/
theorem rpcRequestParse_defined (set : ¬LooksPast CALL (wordsOf (lineContent first))) :
    (rpcRequestParse new stale (.frame pre (first ++ newline :: rest) post)).1 ≠ .undefined := by
  rw [rpcRequestParse]
  rcases requestLine_cases pre rest post one set with ⟨c, fails⟩ | ⟨method, service, c, taken⟩
  · rw [fails]
    simp
  · rw [taken]
    simp only
    generalize parseRest new.inputLen c = parsed
    rcases parsed with ⟨_ | _ | _, c'⟩ <;> simp

/-- The names of a head that the parser takes are the halves of the second word, and its version is the
    third where there is one. -/
theorem resultSlips_taken {w target : List Byte} {more : List (List Byte)} {r : Rows} {seq len : Int}
    (words : wordsOf (lineContent first) = w :: target :: more) (lax : LaxCall (w :: target :: more))
    (scans : r.Scans seq len) :
    (ResultSlips copy (rpcRequestParse new stale (.frame pre (first ++ newline :: r.text) post)) →
      if storeInt new.inputLen len ≤ r.behind.length then 256 ≤ target.length else more = []) ∧
    (Unset stale →
      (if storeInt new.inputLen len ≤ r.behind.length then 256 ≤ target.length else more = []) →
      ResultSlips copy (rpcRequestParse new stale (.frame pre (first ++ newline :: r.text) post))) := by
  have named : atSign ∈ target := by
    rcases more with _ | ⟨v, more⟩
    · exact lax.2
    · exact lax
  have passes : more ≠ [] ∨ w = CALL := by
    rcases more with _ | ⟨v, more⟩
    · exact .inr lax.1
    · exact .inl (List.cons_ne_nil _ _)
  obtain ⟨method, service, rfl, plain⟩ := List.eq_append_cons_of_mem named
  obtain ⟨t, -, methodRead, serviceRead, reads⟩ := requestLine_words one words passes plain
  rw [rpcRequestParse_behind scans (reads new stale pre r.text post)]
  generalize cut : (lineCut first).set (t.value + method.length) nul = spent at methodRead serviceRead
  have inside : ∀ {off : Nat} {word : List Byte}, cstring spent off = some word →
      (CharPtr.rbuf (pre.length + off)).read (pre ++ (spent ++ r.spent) ++ r.behind ++ post) =
        some word := by
    intro off word read
    have here := cstring_inside read pre (r.spent ++ r.behind ++ post)
    simpa [CharPtr.read] using here
  by_cases whole : storeInt new.inputLen len ≤ r.behind.length
  · simp only [if_pos whole]
    rw [resultSlips_ok, KeySlips]
    simp only [inside methodRead, inside serviceRead, Option.some.injEq]
    refine ⟨fun slips => slips method service rfl rfl, fun _ long m s first last => ?_⟩
    rw [← first, ← last]
    exact long
  · simp only [if_neg whole]
    rw [resultSlips_needData]
    simp only [rpcRequestCopyHead, inside methodRead, inside serviceRead]
    have count := lineTokens_length first
    rw [words, List.length_cons, List.length_cons] at count
    rcases more with _ | ⟨v, more⟩
    · refine ⟨fun _ => rfl, fun unset _ => ?_⟩
      have none_third : ((lineTokens first).map (Token.shift pre.length))[2]? = none := by
        rw [List.getElem?_eq_none]
        simp only [List.length_map, count, List.length_nil]
        omega
      rw [tokenValue, none_third]
      simp only [unset 2 _]
    · obtain ⟨t₁, t₂, t₃, tokens, -, third⟩ := lineTokens_three words
      obtain ⟨version, kept⟩ := cstring_stays (nulled_set (lineCut first) (t.value + method.length)) third
      rw [cut] at kept
      simp only [tokens, List.map_cons, tokenValue, List.getElem?_cons_succ, List.getElem?_cons_zero,
        Token.shift, inside kept]
      exact ⟨fun slips => (Option.some_ne_none _ slips).elim,
        fun _ none_third => (List.cons_ne_nil _ _ none_third).elim⟩

omit one in
theorem two_words {words : List (List Byte)} (lax : LaxCall words) (set : ¬LooksPast CALL words) :
    ∃ w target more, words = w :: target :: more := by
  rcases words with _ | ⟨w, _ | ⟨target, more⟩⟩
  · exact absurd trivial set
  · exact absurd lax set
  · exact ⟨w, target, more, rfl⟩

/-- What the parser makes of a window slips only where the head at its start does, and there always if
    the array of tokens was not set. -/
theorem resultSlips_line :
    (ResultSlips copy (rpcRequestParse new stale (.frame pre (first ++ newline :: rest) post)) →
      HeadSlips new.inputLen (first ++ newline :: rest)) ∧
    (Unset stale → HeadSlips new.inputLen (first ++ newline :: rest) →
      ResultSlips copy (rpcRequestParse new stale (.frame pre (first ++ newline :: rest) post))) := by
  constructor
  · intro slips
    by_cases past : LooksPast CALL (wordsOf (lineContent first))
    · exact ⟨first, rest, one, rfl, .inl past⟩
    · have accepted :
          (rpcRequestParse new stale (.frame pre (first ++ newline :: rest) post)).1.Accepts := by
        have defined : (rpcRequestParse new stale (.frame pre (first ++ newline :: rest) post)).1 ≠
            .undefined := rpcRequestParse_defined new one past
        generalize rpcRequestParse new stale (.frame pre (first ++ newline :: rest) post) = result
          at slips defined
        rcases result with ⟨_ | _ | _ | _, c⟩
        · trivial
        · trivial
        · exact slips
        · exact absurd rfl defined
      obtain ⟨first', r, seq, len, shape, one', lax, scans⟩ :=
        (request_passes pre (first ++ newline :: rest) post).mp ⟨new, stale, accepted⟩
      obtain ⟨rfl, rfl⟩ := newline_split one one' shape
      obtain ⟨w, target, more, words⟩ := two_words lax past
      rw [words] at lax
      exact ⟨first, r.text, one, rfl, .inr ⟨w, target, more, r, seq, len, words, lax, rfl, scans,
        (resultSlips_taken new copy one words lax scans).1 slips⟩⟩
  · rintro unset ⟨first', rest', one', shape, slips⟩
    obtain ⟨rfl, rfl⟩ := newline_split one one' shape
    rcases slips with past | ⟨w, target, more, r, seq, len, words, lax, rfl, scans, slips⟩
    · obtain ⟨c, undefined⟩ := requestLine_past pre rest post one past unset new
      rw [rpcRequestParse, undefined]
      trivial
    · exact (resultSlips_taken new copy one words lax scans).2 unset slips

end Parse

theorem resultSlips_window (new copy : RpcRequest) (stale : Nat → CharPtr) {c : Window}
    (inside : c.Inside) :
    (ResultSlips copy (rpcRequestParse new stale c) → HeadSlips new.inputLen c.unread) ∧
    (Unset stale → HeadSlips new.inputLen c.unread → ResultSlips copy (rpcRequestParse new stale c)) := by
  obtain ⟨pre, post, frame⟩ := Window.eq_frame inside
  generalize c.unread = seg at frame ⊢
  subst frame
  cases found : lineAt (.frame pre seg post) with
  | none =>
      have rejected : rpcRequestParse new stale (.frame pre seg post) =
          (.error, .frame pre seg post) := by
        rw [rpcRequestParse, requestLine, found]
      rw [rejected]
      refine ⟨fun slips => absurd slips id, fun _ => ?_⟩
      rintro ⟨first, rest, one, shape, -⟩
      exact absurd shape (lineless_of found first rest one)
  | some line =>
      obtain ⟨first, rest, one, rfl⟩ := lineAt_split found
      exact resultSlips_line new copy one

/-- The answers to requests return and leave the connection open and its read side alone, on
    connections of a kind that reading and parsing do not change. -/
structure ServerEnv.Calm (env : ServerEnv) (Kind : RpcConn RpcRequest → Prop) : Prop where
  reading : ∀ c c', c.SameSendSide c' → Kind c → Kind c'
  answers : ∀ (s : ServerReader) (key : List Byte) (seq : Int) (input : List Byte) (inputLen : Nat),
    Kind s.conn →
      let served := serve env s key seq input inputLen
      ∃ c', answer env served.2.1 served.1 = .ok c' ∧ s.conn.SameReadSide c' ∧ Kind c'

/-- An open connection of a thread, whose unread bytes lie in its block. -/
structure Reader.Open (s : ServerReader) : Prop where
  window : ∃ c, s.conn.window? = some c ∧ c.Inside
  thread : s.conn.thread.isSome

section Rounds

variable {env : ServerEnv} {Kind : RpcConn RpcRequest → Prop} (calm : env.Calm Kind)

include calm

theorem dispatch_calm {s : ServerReader} (kind : Kind s.conn) (thread : s.conn.thread.isSome)
    (req : RpcRequest) :
    (dispatch env s req = .error .undefined ∧ KeySlips s.conn.rbuf req) ∨
      ∃ go s', dispatch env s req = .ok (go, s') ∧ ¬KeySlips s.conn.rbuf req ∧
        s.conn.SameReadSide s'.conn ∧ Kind s'.conn := by
  obtain ⟨th, running⟩ := Option.isSome_iff_exists.mp thread
  simp only [dispatch, running]
  cases method : req.methodName.read s.conn.rbuf with
  | none => exact .inl ⟨rfl, fun m _ read => by rw [method] at read; cases read⟩
  | some m =>
      cases service : req.serviceName.read s.conn.rbuf with
      | none => exact .inl ⟨rfl, fun _ v _ read => by rw [service] at read; cases read⟩
      | some v =>
          by_cases fits : (m ++ atSign :: v).length < 256
          · obtain ⟨c', answered, same, after⟩ := calm.answers s ((m ++ atSign :: v).take 254) req.seq
              (req.input.bytes s.conn.rbuf req.inputLen) req.inputLen kind
            simp only [serviceKey, if_pos fits, answered]
            refine .inr ⟨_, _, rfl, fun slips => ?_, same, after⟩
            exact absurd (slips m v method service) (Nat.not_le.mpr fits)
          · refine .inl ⟨by simp only [serviceKey, if_neg fits], fun m' v' first last => ?_⟩
            rw [method] at first
            rw [service] at last
            cases first
            cases last
            exact Nat.le_of_not_lt fits

end Rounds

end OpenRpc
