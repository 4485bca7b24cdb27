import OpenRpc.Response
import OpenRpc.Tokenizer

/-! # The lines of a head, whatever they are

What the parsers make of a window depends on its lines only, not on where the window stands in its
buffer or on what is behind its head. Here this is said for arbitrary bytes: the first line is cut into
words, the two numbered lines are scanned, the fourth is empty, and the rest is body.
-/

namespace OpenRpc

open Memory Decimal Words

/-- The words of a text, blanks between them. -/
def wordsOf (line : List Byte) : List (List Byte) := words (· == blank) line

/-- A token further back in a larger block. -/
def Token.shift (k : Nat) (t : Token) : Token := ⟨k + t.value, t.length⟩

section Tokenize

theorem tokenizeLoop_shift (pre text : List Byte) (b e left : Nat) (mem : List Byte) :
    tokenizeLoop text (pre.length + b) (pre.length + e) left (pre ++ mem) =
      ((tokenizeLoop text b e left mem).1.map (Token.shift pre.length),
        pre ++ (tokenizeLoop text b e left mem).2) := by
  induction text generalizing b e left mem with
  | nil => cases left <;> rfl
  | cons c rest ih =>
      cases left with
      | zero => rfl
      | succ left =>
          have same : pre.length + b ≠ pre.length + e ↔ b ≠ e := by omega
          have set : (pre ++ mem).set (pre.length + e) nul = pre ++ mem.set e nul := by
            rw [List.set_append_right _ _ (Nat.le_add_right ..), Nat.add_sub_cancel_left]
          have long : pre.length + e - (pre.length + b) = e - b := by omega
          simp only [tokenizeLoop, same, set, long, Nat.add_assoc, ih]
          split
          · split <;> rfl
          · split
            · split <;> rfl
            · rfl

theorem tokenizeLoop_ended {text : List Byte} (ends : nul ∈ text) (b e left : Nat) (mem : List Byte)
    (fits : e + text.length ≤ mem.length) (more behind : List Byte) :
    tokenizeLoop (text ++ more) b e left (mem ++ behind) =
      ((tokenizeLoop text b e left mem).1, (tokenizeLoop text b e left mem).2 ++ behind) := by
  induction text generalizing b e left mem with
  | nil => simp at ends
  | cons c rest ih =>
      cases left with
      | zero => rfl
      | succ left =>
          simp only [List.length_cons] at fits
          by_cases here : c = nul
          · subst here
            rw [List.cons_append, tokenizeLoop_stop, tokenizeLoop_stop]
          · have later : nul ∈ rest := by
              rcases List.mem_cons.mp ends with same | later
              · exact absurd same.symm here
              · exact later
            have set : (mem ++ behind).set e nul = mem.set e nul ++ behind :=
              List.set_append_left _ _ (by omega)
            have plain := fun b' left' => ih later b' (e + 1) left' mem (by omega)
            have cut := fun left' => ih later (e + 1) (e + 1) left' (mem.set e nul)
              (by rw [List.length_set]; omega)
            simp only [List.cons_append, tokenizeLoop, set, plain, cut, if_neg here]
            split
            · split <;> rfl
            · rfl

theorem tokenizeCommand_line (pre : List Byte) {line : List Byte} (ends : nul ∈ line)
    (behind : List Byte) (maxToken : Nat) :
    tokenizeCommand (pre ++ line ++ behind) pre.length maxToken =
      ((tokenizeCommand line 0 maxToken).1.map (Token.shift pre.length),
        pre ++ (tokenizeCommand line 0 maxToken).2 ++ behind) := by
  have body : (pre ++ line ++ behind).drop pre.length = line ++ behind := by simp
  have moved := tokenizeLoop_shift pre (line ++ behind) 0 0 maxToken (line ++ behind)
  rw [tokenizeLoop_ended ends 0 0 maxToken line (by omega)] at moved
  simp only [Nat.add_zero, ← List.append_assoc] at moved
  rw [tokenizeCommand, body, moved, tokenizeCommand, List.drop_zero]

end Tokenize

theorem cstring_inside {part : List Byte} {v : Nat} {w : List Byte} (read : cstring part v = some w)
    (pre behind : List Byte) : cstring (pre ++ part ++ behind) (pre.length + v) = some w := by
  obtain ⟨front, rest, rfl, rfl, clean⟩ := cstring_split read
  have whole := cstring_terminated (pre ++ front) w (rest ++ behind) clean
  rw [List.length_append] at whole
  simpa using whole

/-- A first line as the tokenizer finds it is cut where its words end. -/
def lineTokens (line : List Byte) : List Token := (tokenizeCommand (spentLine line) 0 3).1

def lineCut (line : List Byte) : List Byte := (tokenizeCommand (spentLine line) 0 3).2

theorem spentLine_ends (line : List Byte) : nul ∈ spentLine line := by simp [spentLine]

theorem lineContent_clean (line : List Byte) : nul ∉ lineContent line := by
  intro member
  simpa using List.mem_takeWhile_imp member

theorem spentLine_content (line : List Byte) :
    ∃ behind, spentLine line = lineContent line ++ nul :: behind := by
  have read : cstring (spentLine line) 0 = some (lineContent line) := by
    rw [cstring, List.drop_zero, if_pos (spentLine_ends line), lineContent, spentLine,
      List.takeWhile_append]
    split
    · rename_i whole
      rw [List.takeWhile_cons_of_neg (by simp), List.append_nil]
      exact congrArg some ((List.takeWhile_prefix _).eq_of_length whole).symm
    · rfl
  obtain ⟨pre, rest, shape, start, -⟩ := cstring_split read
  rw [List.eq_nil_of_length_eq_zero start] at shape
  exact ⟨rest, shape⟩

theorem lineTokens_words (line : List Byte) :
    (lineTokens line).map (fun t => cstring (lineCut line) t.value) =
      ((wordsOf (lineContent line)).take 3).map some := by
  obtain ⟨behind, shape⟩ := spentLine_content line
  have read : cstring (spentLine line) 0 = some (lineContent line) := by
    rw [shape]
    exact cstring_terminated [] (lineContent line) behind (lineContent_clean line)
  have tokens : lineTokens line = (storedRuns (lineContent line) 3).map (runToken 0) :=
    congrArg Prod.fst (tokenizeCommand_runs read 3)
  have strings : ∀ t ∈ lineTokens line, cstring (lineCut line) t.value =
      some (slice (spentLine line) t.value t.length) := fun t => tokenizeLine_string read
  have front : ∀ r ∈ storedRuns (lineContent line) 3,
      some (slice (spentLine line) (runToken 0 r).value (runToken 0 r).length) =
        some (((lineContent line).drop r.1).take r.2) := by
    intro r stored
    have inside := (mem_runs.mp (List.mem_of_mem_take stored)).inside
    simp only [slice, runToken, Nat.zero_add]
    rw [shape, List.drop_append_of_le_length (by omega),
      List.take_append_of_le_length (by rw [List.length_drop]; omega)]
  rw [List.map_congr_left strings, tokens, List.map_map, wordsOf, words_runs, ← List.map_take,
    List.map_map]
  exact List.map_congr_left front

theorem lineTokens_length (line : List Byte) :
    (lineTokens line).length = min 3 (wordsOf (lineContent line)).length := by
  have count := congrArg List.length (lineTokens_words line)
  simpa using count

theorem lineCut_length (line : List Byte) : (lineCut line).length = line.length + 1 := by
  obtain ⟨k, here⟩ := List.getElem?_of_mem (spentLine_ends line)
  have within := tokenizeLoop_within here 0 0 3 (spentLine line)
  rw [← spentLine_length line, ← within.length]
  rfl

theorem firstLine_cut {line : List Byte} (one : newline ∉ line) (pre rest post : List Byte) :
    ∃ mem, lineAt (.frame pre (line ++ newline :: rest) post) =
        some ⟨mem, pre.length + line.length + 1, rest.length⟩ ∧
      tokenizeCommand mem pre.length 3 =
        ((lineTokens line).map (Token.shift pre.length), pre ++ lineCut line ++ (rest ++ post)) := by
  refine ⟨_, lineAt_line pre line rest post one, ?_⟩
  rw [List.append_assoc _ rest post]
  exact tokenizeCommand_line pre (spentLine_ends line) (rest ++ post) 3

/-- What the parsers take for a word of the first line: where the line has too few, whatever the array
    of tokens held before. -/
def wordAt (stale : Nat → CharPtr) (mem line : List Byte) (i : Nat) : Option (List Byte) :=
  match (wordsOf (lineContent line))[i]? with
  | some w => some w
  | none => (stale i).read mem

theorem tokenValue_read (stale : Nat → CharPtr) (pre line behind : List Byte) {i : Nat} (low : i < 3) :
    (tokenValue ((lineTokens line).map (Token.shift pre.length)) stale i).read
      (pre ++ lineCut line ++ behind) = wordAt stale (pre ++ lineCut line ++ behind) line i := by
  have same := congrArg (·[i]?) (lineTokens_words line)
  simp only [List.getElem?_map, List.getElem?_take_of_lt low] at same
  simp only [tokenValue, wordAt, List.getElem?_map]
  cases token : (lineTokens line)[i]? with
  | none =>
      rw [token, Option.map_none] at same
      rw [Option.map_none, Option.map_eq_none_iff.mp same.symm]
  | some t =>
      rw [token, Option.map_some] at same
      obtain ⟨w, word, read⟩ := Option.map_eq_some_iff.mp same.symm
      rw [Option.map_some, word]
      exact cstring_inside read.symm pre behind

section FirstLine

variable {line : List Byte} (one : newline ∉ line) (stale : Nat → CharPtr) (pre rest post : List Byte)

/-- The test on the first word, which only a line of fewer than three words undergoes. -/
theorem keyword_passes (line word : List Byte) (first : Option (List Byte)) :
    (if (lineTokens line).length = 3 then some word else first) = some word ↔
      3 ≤ (wordsOf (lineContent line)).length ∨ first = some word := by
  have count := lineTokens_length line
  split
  · exact ⟨fun _ => .inl (by omega), fun _ => rfl⟩
  · exact ⟨.inr, fun passes => passes.resolve_left (by omega)⟩

include one

theorem requestLine_accepts (new : RpcRequest) :
    (∃ req c, requestLine new stale (.frame pre (line ++ newline :: rest) post) = (.ok req, c)) ↔
      let mem := pre ++ lineCut line ++ (rest ++ post)
      (3 ≤ (wordsOf (lineContent line)).length ∨ wordAt stale mem line 0 = some CALL) ∧
        ∃ target, wordAt stale mem line 1 = some target ∧ atSign ∈ target := by
  obtain ⟨mem, terminated, tokens⟩ := firstLine_cut one pre rest post
  have passes := keyword_passes line CALL
    (wordAt stale (pre ++ lineCut line ++ (rest ++ post)) line 0)
  simp only [requestLine, terminated, tokens, List.length_map]
  rw [tokenValue_read stale pre line (rest ++ post) (by omega),
    tokenValue_read stale pre line (rest ++ post) (by omega), ← passes]
  have at_sign : ∀ target : List Byte, atSign ∉ target ↔ target.findIdx? (· == atSign) = none := by
    intro target
    rw [List.findIdx?_eq_none_iff]
    exact ⟨fun absent x member => by simpa using fun same : x = atSign => absent (same ▸ member),
      fun none member => by simpa using none _ member⟩
  constructor
  · rintro ⟨req, c, accepted⟩
    split at accepted
    · cases accepted
    · rename_i keyword first
      split at accepted
      · cases accepted
      · rename_i isCall
        split at accepted
        · cases accepted
        · rename_i target second
          split at accepted
          · cases accepted
          · rename_i ch found
            refine ⟨by rw [first, not_not.mp isCall], target, second, ?_⟩
            by_contra absent
            rw [(at_sign target).mp absent] at found
            cases found
  · rintro ⟨first, target, second, member⟩
    rw [first]
    simp only [ne_eq, not_true_eq_false, if_false, second]
    cases found : target.findIdx? (· == atSign) with
    | none => exact absurd member ((at_sign target).mpr found)
    | some ch => exact ⟨_, _, rfl⟩

theorem statusLine_accepts (new : RpcResponse) :
    (∃ rsp c, statusLine new stale (.frame pre (line ++ newline :: rest) post) = (.ok rsp, c)) ↔
      let mem := pre ++ lineCut line ++ (rest ++ post)
      (3 ≤ (wordsOf (lineContent line)).length ∨ wordAt stale mem line 0 = some RPC_VERSION) ∧
        ∃ code, wordAt stale mem line 1 = some code := by
  obtain ⟨mem, terminated, tokens⟩ := firstLine_cut one pre rest post
  have passes := keyword_passes line RPC_VERSION
    (wordAt stale (pre ++ lineCut line ++ (rest ++ post)) line 0)
  simp only [statusLine, terminated, tokens, List.length_map]
  rw [tokenValue_read stale pre line (rest ++ post) (by omega),
    tokenValue_read stale pre line (rest ++ post) (by omega), ← passes]
  constructor
  · rintro ⟨rsp, c, accepted⟩
    split at accepted
    · cases accepted
    · rename_i version first
      split at accepted
      · cases accepted
      · rename_i isVersion
        split at accepted
        · cases accepted
        · rename_i code second
          exact ⟨by rw [first, not_not.mp isVersion], code, second⟩
  · rintro ⟨first, code, second⟩
    rw [first]
    simp only [ne_eq, not_true_eq_false, if_false, second]
    exact ⟨_, _, rfl⟩

end FirstLine

theorem lineTokens_three {line w₁ w₂ w₃ : List Byte} {more : List (List Byte)}
    (words : wordsOf (lineContent line) = w₁ :: w₂ :: w₃ :: more) :
    ∃ t₁ t₂ t₃, lineTokens line = [t₁, t₂, t₃] ∧ cstring (lineCut line) t₂.value = some w₂ ∧
      cstring (lineCut line) t₃.value = some w₃ := by
  have read := lineTokens_words line
  have count := lineTokens_length line
  rw [words] at read count
  obtain ⟨t₁, t₂, t₃, tokens⟩ := List.length_eq_three.mp
    (count.trans (by simp only [List.length_cons]; omega))
  rw [tokens] at read
  simp only [List.map_cons, List.map_nil, List.take_succ_cons, List.take_zero, List.cons.injEq] at read
  exact ⟨t₁, t₂, t₃, tokens, read.2.1, read.2.2.1⟩

/-- A request line that is accepted wherever it stands: `spent` is what is left of it, with the three
    names in it. -/
structure RequestNames (line spent : List Byte) (method service version : Nat) : Prop where
  length : spent.length = line.length + 1
  methodName : ∃ w, cstring spent method = some w
  serviceName : ∃ w, cstring spent service = some w
  rpcVersion : ∃ w, cstring spent version = some w
  reads : ∀ new stale pre rest post,
    requestLine new stale (.frame pre (line ++ newline :: rest) post) =
      (.ok { new with methodName := .rbuf (pre.length + method)
                      serviceName := .rbuf (pre.length + service)
                      rpcVersion := .rbuf (pre.length + version) },
        .frame (pre ++ spent) rest post)

/-- A request line with an `@` in its second word that gets past the test of the first is accepted, and
    the names are what is before and behind the first `@`. -/
theorem requestLine_words {line w₁ method service : List Byte} {more : List (List Byte)}
    (one : newline ∉ line)
    (words : wordsOf (lineContent line) = w₁ :: (method ++ atSign :: service) :: more)
    (passes : more ≠ [] ∨ w₁ = CALL) (plain : atSign ∉ method) :
    ∃ t₂ : Token, (lineTokens line)[1]? = some t₂ ∧
      let spent := (lineCut line).set (t₂.value + method.length) nul
      cstring spent t₂.value = some method ∧
      cstring spent (t₂.value + method.length + 1) = some service ∧
      ∀ new stale pre rest post, requestLine new stale (.frame pre (line ++ newline :: rest) post) =
        (.ok { new with methodName := .rbuf (pre.length + t₂.value)
                        serviceName := .rbuf (pre.length + (t₂.value + method.length + 1))
                        rpcVersion := tokenValue ((lineTokens line).map (Token.shift pre.length)) stale 2 },
          .frame (pre ++ spent) rest post) := by
  have read := lineTokens_words line
  have count := lineTokens_length line
  rw [words] at read count
  obtain ⟨t₁, t₂, others, tokens⟩ : ∃ t₁ t₂ others, lineTokens line = t₁ :: t₂ :: others := by
    rcases tokens : lineTokens line with _ | ⟨t₁, _ | ⟨t₂, others⟩⟩
    · simp only [tokens, List.length_nil, List.length_cons] at count
      omega
    · simp only [tokens, List.length_nil, List.length_cons] at count
      omega
    · exact ⟨t₁, t₂, others, rfl⟩
  rw [tokens] at read
  simp only [List.map_cons, List.take_succ_cons, List.cons.injEq] at read
  obtain ⟨first, second, -⟩ := read
  have found : (method ++ atSign :: service).findIdx? (· == atSign) = some method.length := by
    have skipped : method.findIdx? (· == atSign) = none := by
      rw [List.findIdx?_eq_none_iff]
      intro b member
      simpa using fun same : b = atSign => plain (same ▸ member)
    rw [List.findIdx?_append, skipped]
    simp [List.findIdx?_cons]
  have inside : method.length < (method ++ atSign :: service).length := by
    simp only [List.length_append, List.length_cons]
    omega
  obtain ⟨front, behind⟩ := @cut_read (lineCut line) (.rbuf t₂.value) _ _ second inside
  rw [List.take_left] at front
  rw [← List.drop_drop, List.drop_left, List.drop_succ_cons, List.drop_zero] at behind
  refine ⟨t₂, by rw [tokens]; rfl, front, behind, ?_⟩
  intro new stale pre rest post
  obtain ⟨mem, terminated, cut⟩ := firstLine_cut one pre rest post
  have here : t₂.value + method.length < (lineCut line).length := by
    obtain ⟨front, behind, shape, start, -⟩ := cstring_split second
    rw [shape]
    simp only [List.length_append, List.length_cons]
    omega
  have written : (pre ++ lineCut line ++ (rest ++ post)).set (pre.length + t₂.value + method.length) nul =
      pre ++ (lineCut line).set (t₂.value + method.length) nul ++ (rest ++ post) := by
    rw [List.append_assoc, List.set_append_right _ _ (by omega), List.set_append_left _ _ (by omega),
      show pre.length + t₂.value + method.length - pre.length = t₂.value + method.length by omega,
      ← List.append_assoc]
  have keyword : (if ((lineTokens line).map (Token.shift pre.length)).length = 3 then some CALL
      else (tokenValue ((lineTokens line).map (Token.shift pre.length)) stale 0).read
        (pre ++ lineCut line ++ (rest ++ post))) = some CALL := by
    rw [List.length_map, keyword_passes, words]
    rcases passes with long | call
    · exact .inl (by have positive := List.length_pos_of_ne_nil long; simp only [List.length_cons]; omega)
    · refine .inr ?_
      simp only [tokens, tokenValue, List.map_cons, List.getElem?_cons_zero, CharPtr.read, Token.shift]
      rw [← call]
      exact cstring_inside first pre (rest ++ post)
  have value : tokenValue ((lineTokens line).map (Token.shift pre.length)) stale 1 =
      .rbuf (pre.length + t₂.value) := by
    simp only [tokens, tokenValue, List.map_cons, List.getElem?_cons_succ, List.getElem?_cons_zero,
      Token.shift]
  have target : (CharPtr.rbuf (pre.length + t₂.value)).read (pre ++ lineCut line ++ (rest ++ post)) =
      some (method ++ atSign :: service) := cstring_inside second pre (rest ++ post)
  simp only [requestLine, terminated, cut, keyword, value, target, found, CharPtr.cut, ne_eq,
    not_true_eq_false, if_false]
  rw [written]
  simp only [Window.frame, List.append_assoc, List.length_append, List.length_set, lineCut_length,
    Nat.add_assoc]

theorem requestLine_target {line w₁ method service w₃ : List Byte} {more : List (List Byte)}
    (one : newline ∉ line)
    (words : wordsOf (lineContent line) = w₁ :: (method ++ atSign :: service) :: w₃ :: more)
    (plain : atSign ∉ method) :
    ∃ spent p q version, RequestNames line spent p q version ∧ cstring spent p = some method ∧
      cstring spent q = some service := by
  obtain ⟨t₁, t₂, t₃, tokens, -, third⟩ := lineTokens_three words
  obtain ⟨t, at_one, front, behind, reads⟩ :=
    requestLine_words one words (.inl (List.cons_ne_nil _ _)) plain
  obtain rfl : t₂ = t := by simpa [tokens] using at_one
  obtain ⟨version, kept⟩ := cstring_stays (nulled_set (lineCut line) (t₂.value + method.length)) third
  have length : ((lineCut line).set (t₂.value + method.length) nul).length = line.length + 1 := by
    rw [List.length_set, lineCut_length]
  refine ⟨_, _, _, t₃.value, ⟨length, ⟨_, front⟩, ⟨_, behind⟩, ⟨_, kept⟩, ?_⟩, front, behind⟩
  intro new stale pre rest post
  rw [reads, tokens]
  simp only [tokenValue, List.map_cons, List.map_nil, List.getElem?_cons_succ, List.getElem?_cons_zero,
    Token.shift]

theorem requestLine_names {line w₁ w₂ w₃ : List Byte} {more : List (List Byte)} (one : newline ∉ line)
    (words : wordsOf (lineContent line) = w₁ :: w₂ :: w₃ :: more) (named : atSign ∈ w₂) :
    ∃ spent method service version, RequestNames line spent method service version := by
  obtain ⟨method, service, rfl, plain⟩ := List.eq_append_cons_of_mem named
  obtain ⟨spent, p, q, version, names, -⟩ := requestLine_target one words plain
  exact ⟨spent, p, q, version, names⟩

/-- A status line that is accepted wherever it stands. -/
structure StatusNames (line spent : List Byte) (code : Int) (phrase : Nat) : Prop where
  length : spent.length = line.length + 1
  named : ∃ w, cstring spent phrase = some w
  reads : ∀ new stale pre rest post,
    statusLine new stale (.frame pre (line ++ newline :: rest) post) =
      (.ok { new with code := code, phrase := .rbuf (pre.length + phrase) },
        .frame (pre ++ spent) rest post)

theorem statusLine_names {line w₁ w₂ w₃ : List Byte} {more : List (List Byte)} (one : newline ∉ line)
    (words : wordsOf (lineContent line) = w₁ :: w₂ :: w₃ :: more) :
    ∃ spent phrase, StatusNames line spent (toInt32 (strtol w₂)) phrase := by
  obtain ⟨t₁, t₂, t₃, tokens, second, third⟩ := lineTokens_three words
  refine ⟨lineCut line, t₃.value, lineCut_length line, ⟨_, third⟩, ?_⟩
  intro new stale pre rest post
  obtain ⟨mem, terminated, cut⟩ := firstLine_cut one pre rest post
  simp only [statusLine, terminated, cut, tokens, List.map_cons, List.map_nil, List.length_cons,
    List.length_nil, tokenValue, Token.shift, List.getElem?_cons_succ, List.getElem?_cons_zero,
    CharPtr.read, if_true, ne_eq, not_true_eq_false, if_false]
  rw [cstring_inside second pre (rest ++ post)]
  simp only [Window.frame, List.append_assoc, List.length_append, lineCut_length, Nat.add_assoc]

theorem requestLine_never_needData (new : RpcRequest) (stale : Nat → CharPtr) (c : Window)
    (req : RpcRequest) (c' : Window) : requestLine new stale c ≠ (.needData req, c') := by
  intro short
  simp only [requestLine] at short
  repeat' split at short
  all_goals cases short

theorem statusLine_never_needData (new : RpcResponse) (stale : Nat → CharPtr) (c : Window)
    (rsp : RpcResponse) (c' : Window) : statusLine new stale c ≠ (.needData rsp, c') := by
  intro short
  simp only [statusLine] at short
  repeat' split at short
  all_goals cases short

theorem lineAt_split {pre seg post : List Byte} {line : Line}
    (found : lineAt (.frame pre seg post) = some line) :
    ∃ l rest, newline ∉ l ∧ seg = l ++ newline :: rest := by
  have member : newline ∈ seg := by
    simp only [lineAt] at found
    split at found
    · cases found
    · rename_i el here
      obtain ⟨low, high, byte, -⟩ := memchr_eq_some.mp here
      rw [List.append_assoc, List.getElem?_append_right low, List.getElem?_append_left (by omega)]
        at byte
      exact List.mem_of_getElem? byte
  obtain ⟨l, rest, split, one⟩ := List.eq_append_cons_of_mem member
  exact ⟨l, rest, one, split⟩

/-- The three lines behind the first one, and what follows them. -/
structure Rows where
  seqLine : List Byte
  lenLine : List Byte
  emptyLine : List Byte
  behind : List Byte

namespace Rows

def text (r : Rows) : List Byte :=
  r.seqLine ++ newline :: (r.lenLine ++ newline :: (r.emptyLine ++ newline :: r.behind))

/-- The three lines as the parsers leave them. -/
def spent (r : Rows) : List Byte :=
  spentLine r.seqLine ++ spentLine r.lenLine ++ (r.emptyLine ++ [newline])

theorem spent_length (r : Rows) : r.spent.length + r.behind.length = r.text.length := by
  simp only [spent, text, List.length_append, List.length_cons, List.length_nil, spentLine_length]
  omega

/-- The lines are what `parseRest` scans for. -/
structure Scans (r : Rows) (seq len : Int) : Prop where
  seqOne : newline ∉ r.seqLine
  seq : scanLabel seqLabel (lineContent r.seqLine) = some seq
  lenOne : newline ∉ r.lenLine
  len : scanLabel bodyLenLabel (lineContent r.lenLine) = some len
  empty : r.emptyLine = [] ∨ r.emptyLine = [carriage]

end Rows

/-- The empty line, with its carriage return or without, and the body behind it. -/
theorem bodyLine_line {e : List Byte} (empty : e = [] ∨ e = [carriage]) (pre tail post : List Byte)
    (seq : Int) (len : Nat) :
    bodyLine seq len (.frame pre (e ++ newline :: tail) post) =
      if len ≤ tail.length then
        (.ok seq len (pre ++ (e ++ [newline])).length,
          ⟨pre ++ (e ++ [newline]) ++ tail ++ post, (pre ++ (e ++ [newline])).length + len,
            tail.length - len⟩)
      else (.needData seq len, .frame (pre ++ (e ++ [newline])) tail post) := by
  rcases empty with rfl | rfl
  · rw [List.nil_append, bodyLine_frame]
    simp
  · have found : memchr (pre ++ ([carriage] ++ newline :: tail) ++ post) pre.length newline
        ([carriage] ++ newline :: tail).length = some (pre.length + 1) := by
      have raw := memchr_found pre [carriage] tail post newline (by decide)
      simpa [Nat.add_comm, Nat.add_left_comm] using raw
    have before : (pre ++ ([carriage] ++ newline :: tail) ++ post)[pre.length + 1 - 1]? =
        some carriage := by simp
    have remaining : ([carriage] ++ newline :: tail).length - (pre.length + 1 + 1 - pre.length) =
        tail.length := by
      simp only [List.length_append, List.length_cons, List.length_nil]
      omega
    have memory : pre ++ ([carriage] ++ newline :: tail) ++ post =
        pre ++ ([carriage] ++ [newline]) ++ tail ++ post := by simp
    simp only [bodyLine, Window.frame, found, remaining]
    rw [if_pos (.inr ⟨by omega, before⟩)]
    simp only [memory, List.length_append, List.length_singleton, Nat.add_assoc]

theorem parseRest_rows {r : Rows} {seq len : Int} (scans : r.Scans seq len) (old : Nat)
    (pre post : List Byte) :
    parseRest old (.frame pre r.text post) =
      if storeInt old len ≤ r.behind.length then
        (.ok seq (storeInt old len) (pre ++ r.spent).length,
          ⟨pre ++ r.spent ++ r.behind ++ post, (pre ++ r.spent).length + storeInt old len,
            r.behind.length - storeInt old len⟩)
      else (.needData seq (storeInt old len), .frame (pre ++ r.spent) r.behind post) := by
  have spent : pre ++ spentLine r.seqLine ++ spentLine r.lenLine ++ (r.emptyLine ++ [newline]) =
      pre ++ r.spent := by
    simp [Rows.spent]
  rw [parseRest, Rows.text, numberLine_line seqLabel pre _ _ post scans.seqOne, scans.seq]
  simp only [numberLine_line bodyLenLabel _ _ _ post scans.lenOne, scans.len]
  rw [bodyLine_line scans.empty, spent]

theorem rpcRequestParse_behind {line spent : List Byte} {r : Rows} {seq len : Int}
    (scans : r.Scans seq len) {new : RpcRequest} {stale : Nat → CharPtr} {pre post : List Byte}
    {method service version : CharPtr}
    (taken : requestLine new stale (.frame pre (line ++ newline :: r.text) post) =
      (.ok { new with methodName := method, serviceName := service, rpcVersion := version },
        .frame (pre ++ spent) r.text post)) :
    rpcRequestParse new stale (.frame pre (line ++ newline :: r.text) post) =
      let head := pre ++ (spent ++ r.spent)
      let n := storeInt new.inputLen len
      let req := { new with methodName := method, serviceName := service, rpcVersion := version
                            seq := seq, inputLen := n }
      if n ≤ r.behind.length then
        (.ok { req with input := .rbuf head.length },
          ⟨head ++ r.behind ++ post, head.length + n, r.behind.length - n⟩)
      else (.needData req, .frame head r.behind post) := by
  rw [rpcRequestParse, taken]
  simp only
  rw [parseRest_rows scans, List.append_assoc pre spent]
  by_cases enough : storeInt new.inputLen len ≤ r.behind.length
  · simp only [if_pos enough]
  · simp only [if_neg enough]

theorem rpcRequestParse_lines {line spent : List Byte} {method service version : Nat}
    (names : RequestNames line spent method service version) {r : Rows} {seq len : Int}
    (scans : r.Scans seq len) (new : RpcRequest) (stale : Nat → CharPtr) (pre post : List Byte) :
    rpcRequestParse new stale (.frame pre (line ++ newline :: r.text) post) =
      let head := pre ++ (spent ++ r.spent)
      let n := storeInt new.inputLen len
      let req := { new with methodName := .rbuf (pre.length + method)
                            serviceName := .rbuf (pre.length + service)
                            rpcVersion := .rbuf (pre.length + version), seq := seq, inputLen := n }
      if n ≤ r.behind.length then
        (.ok { req with input := .rbuf head.length },
          ⟨head ++ r.behind ++ post, head.length + n, r.behind.length - n⟩)
      else (.needData req, .frame head r.behind post) :=
  rpcRequestParse_behind scans (names.reads new stale pre r.text post)

theorem rpcResponseParse_lines {line spent : List Byte} {code : Int} {phrase : Nat}
    (names : StatusNames line spent code phrase) {r : Rows} {seq len : Int} (scans : r.Scans seq len)
    (new : RpcResponse) (stale : Nat → CharPtr) (pre post : List Byte) :
    rpcResponseParse new stale (.frame pre (line ++ newline :: r.text) post) =
      let head := pre ++ (spent ++ r.spent)
      let n := storeInt new.outputLen len
      let rsp := { new with code := code, phrase := .rbuf (pre.length + phrase), seq := seq
                            outputLen := n }
      if n ≤ r.behind.length then
        (.ok { rsp with output := .rbuf head.length },
          ⟨head ++ r.behind ++ post, head.length + n, r.behind.length - n⟩)
      else (.needData rsp, .frame head r.behind post) := by
  rw [rpcResponseParse, names.reads]
  simp only
  rw [parseRest_rows scans, List.append_assoc pre spent]
  by_cases enough : storeInt new.outputLen len ≤ r.behind.length
  · simp only [if_pos enough]
  · simp only [if_neg enough]

theorem numberLine_scans {label pre seg post : List Byte} {v : Int} {c : Window}
    (read : numberLine label (.frame pre seg post) = (some v, c)) :
    ∃ l rest, newline ∉ l ∧ seg = l ++ newline :: rest ∧ scanLabel label (lineContent l) = some v ∧
      c = .frame (pre ++ spentLine l) rest post := by
  have found : ∃ line, lineAt (.frame pre seg post) = some line := by
    by_contra none
    rw [numberLine, Option.eq_none_iff_forall_ne_some.mpr fun line here => none ⟨line, here⟩] at read
    cases read
  obtain ⟨line, found⟩ := found
  obtain ⟨l, rest, one, rfl⟩ := lineAt_split found
  rw [numberLine_line label pre l rest post one] at read
  obtain ⟨value, rfl⟩ := Prod.mk.inj read
  exact ⟨l, rest, one, rfl, value, rfl⟩

theorem bodyLine_accepts {pre seg post : List Byte} {seq : Int} {len : Nat}
    (accepted : (bodyLine seq len (.frame pre seg post)).1 ≠ .error) :
    ∃ e rest, (e = [] ∨ e = [carriage]) ∧ seg = e ++ newline :: rest := by
  unfold bodyLine at accepted
  split at accepted
  · exact absurd rfl accepted
  · rename_i el here
    obtain ⟨low, high, byte, first⟩ := memchr_eq_some.mp here
    simp only [Window.frame] at low high byte first accepted
    obtain ⟨k, rfl⟩ : ∃ k, el = pre.length + k := ⟨el - pre.length, by omega⟩
    have cell : ∀ i, i < seg.length → (pre ++ seg ++ post)[pre.length + i]? = seg[i]? := by
      intro i inside
      rw [List.append_assoc, List.getElem?_append_right (Nat.le_add_right ..), Nat.add_sub_cancel_left,
        List.getElem?_append_left inside]
    split at accepted
    · rename_i empty
      rw [cell k (by omega)] at byte
      rcases empty with start | ⟨one, before⟩
      · obtain rfl : k = 0 := by omega
        cases seg with
        | nil => cases byte
        | cons b rest =>
            cases byte
            exact ⟨[], rest, .inl rfl, rfl⟩
      · obtain rfl : k = 1 := by omega
        rw [show pre.length + 1 - 1 = pre.length + 0 by omega, cell 0 (by omega)] at before
        cases seg with
        | nil => cases before
        | cons b rest =>
            cases before
            cases rest with
            | nil => cases byte
            | cons b rest =>
                cases byte
                exact ⟨[carriage], rest, .inr rfl, rfl⟩
    · exact absurd rfl accepted

theorem parseRest_accepts {old : Nat} {pre seg post : List Byte}
    (accepted : (parseRest old (.frame pre seg post)).1 ≠ .error) :
    ∃ r seq len, seg = Rows.text r ∧ r.Scans seq len := by
  unfold parseRest at accepted
  split at accepted
  · exact absurd rfl accepted
  · rename_i seq c₁ seqLine
    obtain ⟨l₁, rest₁, one₁, rfl, scan₁, rfl⟩ := numberLine_scans seqLine
    split at accepted
    · exact absurd rfl accepted
    · rename_i len c₂ lenLine
      obtain ⟨l₂, rest₂, one₂, rfl, scan₂, rfl⟩ := numberLine_scans lenLine
      obtain ⟨e, tail, empty, rfl⟩ := bodyLine_accepts accepted
      exact ⟨⟨l₁, l₂, e, tail⟩, seq, len, rfl, one₁, scan₁, one₂, scan₂, empty⟩

end OpenRpc
