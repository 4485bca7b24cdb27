import OpenRpc.Grammar

/-! # What a parse depends on

The same window parsed twice, with two new objects and two arrays of tokens. The entries of the array
that the tokenizer has not set are read where the first line has too few words, and of the length only
the 32 bits that `sscanf` writes are the message's: the others are whatever the object held.
-/

namespace OpenRpc

open Memory

def ParseResult.map {α β : Type} (f : α → β) : ParseResult α → ParseResult β
  | .ok a => .ok (f a)
  | .needData a => .needData (f a)
  | .error => .error
  | .undefined => .undefined

/-- What a parsed head is compared by: its names, `seq` and the length, all 64 bits of it. -/
def RpcRequest.head (req : RpcRequest) : ((CharPtr × CharPtr) × CharPtr) × Int × Nat :=
  (((req.methodName, req.serviceName), req.rpcVersion), req.seq, req.inputLen)

def RpcResponse.head (rsp : RpcResponse) : (Int × CharPtr) × Int × Nat :=
  ((rsp.code, rsp.phrase), rsp.seq, rsp.outputLen)

/-- What is compared of a run of `rpc_request_parse`: how it ends, the head and the window. -/
def requestSeen (new : RpcRequest) (stale : Nat → CharPtr) (w : Window) :
    ParseResult (((CharPtr × CharPtr) × CharPtr) × Int × Nat) × Window :=
  let parsed := rpcRequestParse new stale w
  (parsed.1.map RpcRequest.head, parsed.2)

def responseSeen (new : RpcResponse) (stale : Nat → CharPtr) (w : Window) :
    ParseResult ((Int × CharPtr) × Int × Nat) × Window :=
  let parsed := rpcResponseParse new stale w
  (parsed.1.map RpcResponse.head, parsed.2)

/-- A first line with so few words that a word it does not have is looked at. -/
def LooksPast (keyword : List Byte) : List (List Byte) → Prop
  | [] => True
  | [w] => w = keyword
  | _ :: _ :: _ => False

instance (keyword : List Byte) : (words : List (List Byte)) → Decidable (LooksPast keyword words)
  | [] => isTrue trivial
  | [w] => inferInstanceAs (Decidable (w = keyword))
  | _ :: _ :: _ => isFalse id

/-- The bytes of a window decide what the parse gives: the first line has the words that are looked at,
    and where its head is accepted also the third, with the same upper bits in both objects' lengths. -/
structure Decides (keyword : List Byte) (Lax : List (List Byte) → Prop) (old old' : Nat)
    (seg : List Byte) : Prop where
  words : ∀ first rest, newline ∉ first → seg = first ++ newline :: rest →
    ¬LooksPast keyword (wordsOf (lineContent first))
  third : Passes Lax seg → ∀ first rest, newline ∉ first → seg = first ++ newline :: rest →
    3 ≤ (wordsOf (lineContent first)).length
  upper : Passes Lax seg → old / 4294967296 = old' / 4294967296

theorem storeInt_upper (old old' : Nat) (v : Int) :
    storeInt old v = storeInt old' v ↔ old / 4294967296 = old' / 4294967296 := by
  unfold storeInt
  omega

/-- What the sections behind the first line make of a window: of the old length they keep the upper
    bits, and whether they fail does not depend on it. -/
theorem parseRest_cases (c : Window) :
    (∃ c', ∀ old, parseRest old c = (.error, c')) ∨
    ∃ seq v body avail mem, ∀ old, parseRest old c =
      if storeInt old v ≤ avail then
        (.ok seq (storeInt old v) body, ⟨mem, body + storeInt old v, avail - storeInt old v⟩)
      else (.needData seq (storeInt old v), ⟨mem, body, avail⟩) := by
  unfold parseRest
  cases numberLine seqLabel c with
  | mk seq c₁ =>
      cases seq with
      | none => exact .inl ⟨c₁, fun _ => rfl⟩
      | some seq =>
          simp only
          cases numberLine bodyLenLabel c₁ with
          | mk len c₂ =>
              cases len with
              | none => exact .inl ⟨c₂, fun _ => rfl⟩
              | some len =>
                  simp only [bodyLine]
                  cases memchr c₂.rbuf c₂.rcurr newline c₂.rbytes with
                  | none => exact .inl ⟨c₂, fun _ => rfl⟩
                  | some el =>
                      simp only
                      by_cases empty : el = c₂.rcurr ∨
                          (el - c₂.rcurr = 1 ∧ c₂.rbuf[el - 1]? = some carriage)
                      · simp only [if_pos empty]
                        exact .inr ⟨_, _, _, _, _, fun _ => rfl⟩
                      · simp only [if_neg empty]
                        exact .inl ⟨c₂, fun _ => rfl⟩

section Behind

variable {γ σ : Type}

/-- The sections behind a first line that has been rejected, or of which the names are known. -/
def behindLine (names : Option γ) (c : Window) (old : Nat) : ParseResult (γ × Int × Nat) × Window :=
  match names with
  | none => (.error, c)
  | some names =>
      match parseRest old c with
      | (.ok seq len _, c) => (.ok (names, seq, len), c)
      | (.needData seq len, c) => (.needData (names, seq, len), c)
      | (.error, c) => (.error, c)

/-- Where all but the third token is known, the bytes decide what is not accepted, and the rest if they
    decide that token and the upper bits. -/
theorem behindLine_same (found : Option γ) (third : (Nat → CharPtr) → CharPtr) (c : Window)
    (old old' : Nat) :
    (∀ stale stale', behindLine (found.map fun g => (g, third stale)) c old =
      behindLine (found.map fun g => (g, third stale')) c old') ↔
    ((∃ old stale, (behindLine (found.map fun g => (g, third stale)) c old).1.Accepts) →
      (∀ stale stale', third stale = third stale') ∧ old / 4294967296 = old' / 4294967296) := by
  cases found with
  | none => simp [behindLine, ParseResult.Accepts]
  | some g =>
      rcases parseRest_cases c with ⟨c', fails⟩ | ⟨seq, v, body, avail, mem, reads⟩
      · simp [behindLine, fails, ParseResult.Accepts]
      · have value : ∀ (names : γ × CharPtr) old, behindLine (some names) c old =
            if storeInt old v ≤ avail then
              (.ok (names, seq, storeInt old v), ⟨mem, body + storeInt old v, avail - storeInt old v⟩)
            else (.needData (names, seq, storeInt old v), ⟨mem, body, avail⟩) := by
          intro names old
          by_cases enough : storeInt old v ≤ avail
          · simp only [behindLine, reads, if_pos enough]
          · simp only [behindLine, reads, if_neg enough]
        have accepts : ∀ names : γ × CharPtr, (behindLine (some names) c old).1.Accepts := by
          intro names
          rw [value]
          split <;> trivial
        simp only [Option.map_some]
        rw [← storeInt_upper old old' v]
        constructor
        · intro same _
          have parts : ∀ stale stale', third stale = third stale' ∧ storeInt old v = storeInt old' v := by
            intro stale stale'
            have here := congrArg Prod.fst (same stale stale')
            rw [value, value] at here
            split at here <;> split at here
            all_goals simp at here
            all_goals exact here
          exact ⟨fun stale stale' => (parts stale stale').1, (parts (fun _ => .null) fun _ => .null).2⟩
        · intro decided stale stale'
          obtain ⟨const, upper⟩ := decided ⟨old, stale, accepts _⟩
          rw [const stale stale', value, value, upper]

end Behind

section FirstLine

variable {first : List Byte} (pre rest post : List Byte)

/-- The tokens of a first line, where it stands in the block. -/
def tokensAt (pre first : List Byte) : List Token := (lineTokens first).map (Token.shift pre.length)

theorem tokensAt_length (pre first : List Byte) :
    (tokensAt pre first).length = min 3 (wordsOf (lineContent first)).length := by
  rw [tokensAt, List.length_map, lineTokens_length]

/-- A word of the line has its token, and one that it does not have is looked for in the array. -/
theorem tokenValue_cases (first : List Byte) {i : Nat} (low : i < 3) :
    (∃ w off, (wordsOf (lineContent first))[i]? = some w ∧
      (∀ stale, tokenValue (tokensAt pre first) stale i = .rbuf off) ∧
      cstring (pre ++ lineCut first ++ (rest ++ post)) off = some w) ∨
    (wordsOf (lineContent first)).length ≤ i ∧
      ∀ stale, tokenValue (tokensAt pre first) stale i = stale i := by
  have count := tokensAt_length pre first
  by_cases here : i < (wordsOf (lineContent first)).length
  · obtain ⟨t, token⟩ : ∃ t, (tokensAt pre first)[i]? = some t :=
      ⟨_, List.getElem?_eq_getElem (by omega)⟩
    have value : ∀ stale, tokenValue (tokensAt pre first) stale i = .rbuf t.value := by
      intro stale
      rw [tokenValue, token]
    have word := List.getElem?_eq_getElem here
    have read := tokenValue_read (fun _ => .null) pre first (rest ++ post) low
    rw [← tokensAt, value, wordAt, word] at read
    exact .inl ⟨_, t.value, word, value, read⟩
  · refine .inr ⟨by omega, fun stale => ?_⟩
    rw [tokenValue, List.getElem?_eq_none (by omega)]

theorem third_const (first : List Byte) :
    (∀ stale stale', tokenValue (tokensAt pre first) stale 2 = tokenValue (tokensAt pre first) stale' 2) ↔
      3 ≤ (wordsOf (lineContent first)).length := by
  rcases tokenValue_cases pre [] [] first (show 2 < 3 by omega) with
    ⟨w, off, word, value, -⟩ | ⟨few, value⟩
  · obtain ⟨long, -⟩ := List.getElem?_eq_some_iff.mp word
    exact iff_of_true (fun stale stale' => by rw [value, value]) long
  · refine iff_of_false (fun const => ?_) (by omega)
    have same := const (fun _ => .null) fun _ => .wild
    rw [value, value] at same
    cases same

theorem one_word {words : List (List Byte)} {w : List Byte} (first : words[0]? = some w)
    (few : words.length ≤ 1) : words = [w] := by
  rcases words with _ | ⟨v, _ | ⟨u, words⟩⟩
  · cases first
  · cases first
    rfl
  · simp at few

/-- The tokens that are looked at, where the line has the words for them: the first, and the second or
    a first that is rejected. -/
theorem set_values {keyword : List Byte} (set : ¬LooksPast keyword (wordsOf (lineContent first))) :
    ∃ w₁ off₁, (∀ stale, tokenValue (tokensAt pre first) stale 0 = .rbuf off₁) ∧
      cstring (pre ++ lineCut first ++ (rest ++ post)) off₁ = some w₁ ∧
      ((∃ w₂ off₂, (∀ stale, tokenValue (tokensAt pre first) stale 1 = .rbuf off₂) ∧
          cstring (pre ++ lineCut first ++ (rest ++ post)) off₂ = some w₂) ∨
        (tokensAt pre first).length ≠ 3 ∧ w₁ ≠ keyword) := by
  have count := tokensAt_length pre first
  rcases tokenValue_cases pre rest post first (show 0 < 3 by omega) with
    ⟨w₁, off₁, word₁, value₁, read₁⟩ | ⟨few, -⟩
  · refine ⟨w₁, off₁, value₁, read₁, ?_⟩
    rcases tokenValue_cases pre rest post first (show 1 < 3 by omega) with
      ⟨w₂, off₂, -, value₂, read₂⟩ | ⟨few, -⟩
    · exact .inl ⟨w₂, off₂, value₂, read₂⟩
    · refine .inr ⟨by omega, fun same => set ?_⟩
      rw [one_word word₁ few]
      exact same
  · rw [List.eq_nil_of_length_eq_zero (Nat.le_zero.mp few)] at set
    exact absurd trivial set

theorem past_values {keyword : List Byte} (past : LooksPast keyword (wordsOf (lineContent first))) :
    (tokensAt pre first).length ≠ 3 ∧
      ((∀ stale, tokenValue (tokensAt pre first) stale 0 = stale 0) ∨
        ∃ off, (∀ stale, tokenValue (tokensAt pre first) stale 0 = .rbuf off) ∧
          cstring (pre ++ lineCut first ++ (rest ++ post)) off = some keyword ∧
          ∀ stale, tokenValue (tokensAt pre first) stale 1 = stale 1) := by
  have count := tokensAt_length pre first
  have few : (wordsOf (lineContent first)).length ≤ 1 := by
    generalize wordsOf (lineContent first) = words at past
    rcases words with _ | ⟨w, _ | ⟨v, words⟩⟩
    · exact Nat.zero_le 1
    · exact Nat.le_refl 1
    · exact absurd past id
  refine ⟨by omega, ?_⟩
  rcases tokenValue_cases pre rest post first (show 0 < 3 by omega) with
    ⟨w, off, word, value, read⟩ | ⟨-, value⟩
  · rcases tokenValue_cases pre rest post first (show 1 < 3 by omega) with
      ⟨w', off', word', -, -⟩ | ⟨-, value'⟩
    · have more := (List.getElem?_eq_some_iff.mp word').1
      omega
    · rw [one_word word few] at past
      obtain rfl : w = keyword := past
      exact .inr ⟨off, value, read, value'⟩
  · exact .inl value

section Parsers

variable (one : newline ∉ first)
include one

/-- A request line with the words that are looked at is rejected or accepted whatever the objects and
    the array hold. -/
theorem requestLine_cases (set : ¬LooksPast CALL (wordsOf (lineContent first))) :
    (∃ c, ∀ new stale, requestLine new stale (.frame pre (first ++ newline :: rest) post) = (.error, c)) ∨
    ∃ method service c, ∀ new stale,
      requestLine new stale (.frame pre (first ++ newline :: rest) post) =
        (.ok { new with methodName := method, serviceName := service
                        rpcVersion := tokenValue (tokensAt pre first) stale 2 }, c) := by
  obtain ⟨mem, terminated, tokens⟩ := firstLine_cut one pre rest post
  rw [← tokensAt] at tokens
  simp only [requestLine, terminated, tokens]
  obtain ⟨w₁, off₁, value₁, read₁, ⟨w₂, off₂, value₂, read₂⟩ | ⟨few, other⟩⟩ :=
    set_values pre rest post set
  · simp only [value₁, value₂, CharPtr.read, read₁, read₂]
    obtain ⟨keyword, isKeyword⟩ : ∃ k, (if (tokensAt pre first).length = 3 then some CALL
        else some w₁) = some k := by
      split <;> exact ⟨_, rfl⟩
    simp only [isKeyword]
    by_cases call : keyword = CALL
    · simp only [ne_eq, call, not_true_eq_false, if_false]
      cases w₂.findIdx? (· == atSign) with
      | none => exact .inl ⟨_, fun _ _ => rfl⟩
      | some ch => exact .inr ⟨_, _, _, fun _ _ => rfl⟩
    · simp only [ne_eq, call, not_false_eq_true, if_true]
      exact .inl ⟨_, fun _ _ => rfl⟩
  · simp only [value₁, CharPtr.read, read₁, if_neg few, ne_eq, other, not_false_eq_true, if_true]
    exact .inl ⟨_, fun _ _ => rfl⟩

theorem statusLine_cases (set : ¬LooksPast RPC_VERSION (wordsOf (lineContent first))) :
    (∃ c, ∀ new stale, statusLine new stale (.frame pre (first ++ newline :: rest) post) = (.error, c)) ∨
    ∃ code c, ∀ new stale, statusLine new stale (.frame pre (first ++ newline :: rest) post) =
      (.ok { new with code := code, phrase := tokenValue (tokensAt pre first) stale 2 }, c) := by
  obtain ⟨mem, terminated, tokens⟩ := firstLine_cut one pre rest post
  rw [← tokensAt] at tokens
  simp only [statusLine, terminated, tokens]
  obtain ⟨w₁, off₁, value₁, read₁, ⟨w₂, off₂, value₂, read₂⟩ | ⟨few, other⟩⟩ :=
    set_values pre rest post set
  · simp only [value₁, value₂, CharPtr.read, read₁, read₂]
    obtain ⟨keyword, isKeyword⟩ : ∃ k, (if (tokensAt pre first).length = 3 then some RPC_VERSION
        else some w₁) = some k := by
      split <;> exact ⟨_, rfl⟩
    simp only [isKeyword]
    by_cases version : keyword = RPC_VERSION
    · simp only [ne_eq, version, not_true_eq_false, if_false]
      exact .inr ⟨_, _, fun _ _ => rfl⟩
    · simp only [ne_eq, version, not_false_eq_true, if_true]
      exact .inl ⟨_, fun _ _ => rfl⟩
  · simp only [value₁, CharPtr.read, read₁, if_neg few, ne_eq, other, not_false_eq_true, if_true]
    exact .inl ⟨_, fun _ _ => rfl⟩

theorem requestSeen_behind (set : ¬LooksPast CALL (wordsOf (lineContent first))) :
    ∃ found c, ∀ new stale, requestSeen new stale (.frame pre (first ++ newline :: rest) post) =
      behindLine (Option.map (fun g => (g, tokenValue (tokensAt pre first) stale 2)) found) c
        new.inputLen := by
  rcases requestLine_cases pre rest post one set with ⟨c, fails⟩ | ⟨method, service, c, taken⟩
  · refine ⟨none, c, fun new stale => ?_⟩
    simp only [requestSeen, rpcRequestParse, fails, ParseResult.map, behindLine, Option.map_none]
  · refine ⟨some (method, service), c, fun new stale => ?_⟩
    simp only [requestSeen, rpcRequestParse, taken, behindLine, Option.map_some]
    cases parseRest new.inputLen c with
    | mk ends c₁ => cases ends <;> rfl

theorem responseSeen_behind (set : ¬LooksPast RPC_VERSION (wordsOf (lineContent first))) :
    ∃ found c, ∀ new stale, responseSeen new stale (.frame pre (first ++ newline :: rest) post) =
      behindLine (Option.map (fun g => (g, tokenValue (tokensAt pre first) stale 2)) found) c
        new.outputLen := by
  rcases statusLine_cases pre rest post one set with ⟨c, fails⟩ | ⟨code, c, taken⟩
  · refine ⟨none, c, fun new stale => ?_⟩
    simp only [responseSeen, rpcResponseParse, fails, ParseResult.map, behindLine, Option.map_none]
  · refine ⟨some code, c, fun new stale => ?_⟩
    simp only [responseSeen, rpcResponseParse, taken, behindLine, Option.map_some]
    cases parseRest new.outputLen c with
    | mk ends c₁ => cases ends <;> rfl

/-- A word is looked at that the line does not have, and what the array holds for it cannot be read. -/
theorem requestLine_past (past : LooksPast CALL (wordsOf (lineContent first))) {stale : Nat → CharPtr}
    (unset : ∀ i mem, (stale i).read mem = none) (new : RpcRequest) :
    ∃ c, requestLine new stale (.frame pre (first ++ newline :: rest) post) = (.undefined, c) := by
  obtain ⟨mem, terminated, tokens⟩ := firstLine_cut one pre rest post
  rw [← tokensAt] at tokens
  simp only [requestLine, terminated, tokens]
  obtain ⟨few, value | ⟨off, value, read, value'⟩⟩ := past_values pre rest post past
  · simp only [if_neg few, value, unset]
    exact ⟨_, rfl⟩
  · have keyword : (CharPtr.rbuf off).read (pre ++ lineCut first ++ (rest ++ post)) = some CALL := read
    simp only [if_neg few, value, value', keyword, unset]
    exact ⟨_, rfl⟩

/-- Where a word is looked at that the line does not have, a pointer that cannot be read is one thing,
    and an empty string another. -/
theorem requestSeen_past (past : LooksPast CALL (wordsOf (lineContent first))) (new new' : RpcRequest) :
    requestSeen new (fun _ => .wild) (.frame pre (first ++ newline :: rest) post) ≠
      requestSeen new' (fun _ => .heap []) (.frame pre (first ++ newline :: rest) post) := by
  obtain ⟨mem, terminated, tokens⟩ := firstLine_cut one pre rest post
  rw [← tokensAt] at tokens
  obtain ⟨c, wild⟩ := requestLine_past pre rest post one past
    (fun _ _ => (rfl : CharPtr.wild.read _ = none)) new
  obtain ⟨c', empty⟩ : ∃ c, requestLine new' (fun _ => .heap [])
      (.frame pre (first ++ newline :: rest) post) = (.error, c) := by
    simp only [requestLine, terminated, tokens]
    obtain ⟨few, value | ⟨off, value, read, value'⟩⟩ := past_values pre rest post past
    · simp only [if_neg few, value, CharPtr.read]
      exact ⟨_, rfl⟩
    · simp only [if_neg few, value, value', CharPtr.read, read]
      exact ⟨_, rfl⟩
  simp [requestSeen, rpcRequestParse, wild, empty, ParseResult.map]

theorem responseSeen_past (past : LooksPast RPC_VERSION (wordsOf (lineContent first)))
    (new new' : RpcResponse) :
    responseSeen new (fun _ => .wild) (.frame pre (first ++ newline :: rest) post) ≠
      responseSeen new' (fun _ => .heap []) (.frame pre (first ++ newline :: rest) post) := by
  obtain ⟨mem, terminated, tokens⟩ := firstLine_cut one pre rest post
  rw [← tokensAt] at tokens
  have line : ∀ new : RpcResponse,
      (∃ c, statusLine new (fun _ => .wild) (.frame pre (first ++ newline :: rest) post) =
        (.undefined, c)) ∧
      ∃ rsp c, statusLine new (fun _ => .heap []) (.frame pre (first ++ newline :: rest) post) =
        (.error, c) ∨
        statusLine new (fun _ => .heap []) (.frame pre (first ++ newline :: rest) post) =
          (.ok rsp, c) := by
    intro new
    simp only [statusLine, terminated, tokens]
    obtain ⟨few, value | ⟨off, value, read, value'⟩⟩ := past_values pre rest post past
    · simp only [if_neg few, value, CharPtr.read]
      exact ⟨⟨_, rfl⟩, new, _, .inl rfl⟩
    · simp only [if_neg few, value, value', CharPtr.read, read]
      exact ⟨⟨_, rfl⟩, _, _, .inr rfl⟩
  obtain ⟨⟨c, wild⟩, -⟩ := line new
  obtain ⟨-, rsp, c', empty | taken⟩ := line new'
  · simp [responseSeen, rpcResponseParse, wild, empty, ParseResult.map]
  · simp only [responseSeen, rpcResponseParse, wild, taken, ParseResult.map]
    cases parseRest rsp.outputLen c' with
    | mk ends c₁ => cases ends <;> simp

end Parsers

end FirstLine

section Windows

variable {pre seg post : List Byte}

theorem map_accepts {α β : Type} (f : α → β) (result : ParseResult α) :
    (result.map f).Accepts ↔ result.Accepts := by
  cases result <;> exact Iff.rfl

/-- A window with a line in it parsed twice, given what is seen of a parse. -/
theorem decides_iff {α γ : Type}
    {seen : α → (Nat → CharPtr) → ParseResult ((γ × CharPtr) × Int × Nat) × Window} {len : α → Nat}
    {keyword : List Byte} {Lax : List (List Byte) → Prop} (pre : List Byte) {first rest : List Byte}
    (onto : ∀ old, ∃ new, len new = old) (one : newline ∉ first) (shape : seg = first ++ newline :: rest)
    (past : LooksPast keyword (wordsOf (lineContent first)) →
      ∀ new new', seen new (fun _ => .wild) ≠ seen new' (fun _ => .heap []))
    (behind : ¬LooksPast keyword (wordsOf (lineContent first)) → ∃ found c, ∀ new stale,
      seen new stale = behindLine (Option.map
        (fun g => (g, tokenValue (tokensAt pre first) stale 2)) found) c (len new))
    (passes : (∃ new stale, (seen new stale).1.Accepts) ↔ Passes Lax seg) (new new' : α) :
    (∀ stale stale', seen new stale = seen new' stale') ↔
      Decides keyword Lax (len new) (len new') seg := by
  have only : ∀ first' rest', newline ∉ first' → seg = first' ++ newline :: rest' → first' = first :=
    fun first' rest' one' shape' => (newline_split one' one (shape'.symm.trans shape)).1
  by_cases looks : LooksPast keyword (wordsOf (lineContent first))
  · exact iff_of_false (fun same => past looks new new' (same _ _))
      fun decides => decides.words first rest one shape looks
  · obtain ⟨found, c, reads⟩ := behind looks
    have accepted : (∃ old stale, (behindLine (Option.map
        (fun g => (g, tokenValue (tokensAt pre first) stale 2)) found) c old).1.Accepts) ↔
          Passes Lax seg := by
      rw [← passes]
      constructor
      · rintro ⟨old, stale, accepts⟩
        obtain ⟨new, rfl⟩ := onto old
        exact ⟨new, stale, by rwa [reads]⟩
      · rintro ⟨new, stale, accepts⟩
        exact ⟨len new, stale, by rwa [reads] at accepts⟩
    simp only [reads]
    rw [behindLine_same, accepted, third_const]
    constructor
    · intro same
      refine ⟨fun first' rest' one' shape' => ?_, fun head first' rest' one' shape' => ?_,
        fun head => (same head).2⟩
      · rwa [only first' rest' one' shape']
      · rw [only first' rest' one' shape']
        exact (same head).1
    · exact fun decides head => ⟨decides.third head first rest one shape, decides.upper head⟩

theorem decides_lineless {keyword : List Byte} {Lax : List (List Byte) → Prop} (old old' : Nat)
    (lineless : ∀ first rest, newline ∉ first → seg ≠ first ++ newline :: rest) :
    Decides keyword Lax old old' seg where
  words := fun first rest one shape => absurd shape (lineless first rest one)
  third := fun _ first rest one shape => absurd shape (lineless first rest one)
  upper := by
    rintro ⟨first, r, seq, len, shape, lax⟩
    exact absurd shape (lineless first r.text lax.one)

theorem lineless_of (found : lineAt (.frame pre seg post) = none) :
    ∀ first rest, newline ∉ first → seg ≠ first ++ newline :: rest := by
  rintro first rest one rfl
  rw [lineAt_line pre first rest post one] at found
  cases found

theorem requestSeen_iff (new new' : RpcRequest) :
    (∀ stale stale', requestSeen new stale (.frame pre seg post) =
      requestSeen new' stale' (.frame pre seg post)) ↔
    Decides CALL LaxCall new.inputLen new'.inputLen seg := by
  cases found : lineAt (.frame pre seg post) with
  | none =>
      refine iff_of_true (fun stale stale' => ?_) (decides_lineless _ _ (lineless_of found))
      simp only [requestSeen, rpcRequestParse, requestLine, found]
  | some line =>
      obtain ⟨first, rest, one, rfl⟩ := lineAt_split found
      refine decides_iff pre (fun old => ⟨{ RpcRequest.zeroed with inputLen := old }, rfl⟩) one rfl
        (requestSeen_past pre rest post one) (requestSeen_behind pre rest post one) ?_ new new'
      simp only [requestSeen, map_accepts]
      exact request_passes pre _ post

theorem responseSeen_iff (new new' : RpcResponse) :
    (∀ stale stale', responseSeen new stale (.frame pre seg post) =
      responseSeen new' stale' (.frame pre seg post)) ↔
    Decides RPC_VERSION LaxCode new.outputLen new'.outputLen seg := by
  cases found : lineAt (.frame pre seg post) with
  | none =>
      refine iff_of_true (fun stale stale' => ?_) (decides_lineless _ _ (lineless_of found))
      simp only [responseSeen, rpcResponseParse, statusLine, found]
  | some line =>
      obtain ⟨first, rest, one, rfl⟩ := lineAt_split found
      refine decides_iff pre (fun old => ⟨{ RpcResponse.zeroed with outputLen := old }, rfl⟩) one rfl
        (responseSeen_past pre rest post one) (responseSeen_behind pre rest post one) ?_ new new'
      simp only [responseSeen, map_accepts]
      exact response_passes pre _ post

end Windows

/-- A window parsed twice, with two new objects and any two arrays of tokens: the same is seen exactly
    where the bytes decide it. -/
theorem rpcParse_decided (w : Window) (inside : w.Inside) :
    (∀ new new', (∀ stale stale', requestSeen new stale w = requestSeen new' stale' w) ↔
      Decides CALL LaxCall new.inputLen new'.inputLen w.unread) ∧
    (∀ new new', (∀ stale stale', responseSeen new stale w = responseSeen new' stale' w) ↔
      Decides RPC_VERSION LaxCode new.outputLen new'.outputLen w.unread) := by
  obtain ⟨pre, post, frame⟩ := Window.eq_frame inside
  generalize w.unread = seg at frame ⊢
  subst frame
  exact ⟨requestSeen_iff, responseSeen_iff⟩

/-- A call in three words, with two objects whose lengths are below 2^32. -/
theorem rpcParse_decided_small :
    requestSeen .zeroed (fun _ => .null) (.frame [] smallText []) =
      requestSeen { RpcRequest.zeroed with seq := 9, inputLen := 5 } (fun _ => .wild)
        (.frame [] smallText []) := by
  have line : ∀ first rest, newline ∉ first → smallText = first ++ newline :: rest →
      first = wordsText CALL (text ['m'] ++ atSign :: text ['s']) RPC_VERSION :=
    fun first rest one shape => (newline_split one (by decide) (shape.symm.trans (by rfl))).1
  have unread : (Window.frame [] smallText []).unread = smallText := Window.frame_unread ..
  have same := ((rpcParse_decided _ (Window.frame_inside [] smallText [])).1 .zeroed
    { RpcRequest.zeroed with seq := 9, inputLen := 5 }).mpr (by
      rw [unread]
      refine ⟨fun first rest one shape => ?_, fun _ first rest one shape => ?_, fun _ => rfl⟩
      · rw [line first rest one shape]
        decide
      · rw [line first rest one shape]
        decide)
  exact same _ _

/-- The stack decides what becomes of a request line that is `CALL` alone, and what `malloc` left in the
    object how long the body is. -/
theorem rpcParse_decided_fails :
    requestSeen .zeroed (fun _ => .heap [atSign]) (.frame [] (CALL ++ [newline]) []) ≠
      requestSeen .zeroed (fun _ => .heap []) (.frame [] (CALL ++ [newline]) []) ∧
    requestSeen .zeroed (fun _ => .null) (.frame [] smallText []) ≠
      requestSeen { RpcRequest.zeroed with inputLen := 4294967296 } (fun _ => .null)
        (.frame [] smallText []) := by
  constructor
  · intro same
    have moved := congrArg (fun seen => seen.2.rcurr) same
    revert moved
    decide
  · intro same
    have ended := congrArg Prod.fst same
    revert ended
    decide

end OpenRpc
