import OpenRpc.Request

/-! # Responses

`rpc_response.c`, and the text `rpc_send_response` (in `rpc_conn.c`) prints. Behind the first line
the parser is the one for requests, word for word.
-/

namespace OpenRpc

open Memory Decimal

/-- `struct _rpc_response`; `data` is the word a synchronous caller stores its descriptor in. -/
structure RpcResponse where
  code : Int
  phrase : CharPtr
  seq : Int
  output : CharPtr
  outputLen : Nat
  data : Nat
  deriving Repr, DecidableEq

/-- A response object after `memset(rsp, 0, sizeof(rpc_response))`. -/
def RpcResponse.zeroed : RpcResponse := ⟨0, .null, 0, .null, 0, 0⟩

/-- The `//request line` section of `rpc_response_parse`, a status line. -/
def statusLine (new : RpcResponse) (stale : Nat → CharPtr) (c : Window) :
    ParseResult RpcResponse × Window :=
  match lineAt c with
  | none => (.error, c)
  | some line =>
      let (tokens, mem) := tokenizeCommand line.rbuf c.rcurr 3
      let value := tokenValue tokens stale
      let stay : Window := { c with rbuf := mem }
      match (if tokens.length = 3 then some RPC_VERSION else (value 0).read mem) with
      | none => (.undefined, stay)
      | some version =>
          if version ≠ RPC_VERSION then (.error, stay)
          else
            match (value 1).read mem with
            | none => (.undefined, stay)
            | some word =>
                (.ok { new with code := toInt32 (strtol word), phrase := value 2 },
                  ⟨mem, line.cont, line.avail⟩)

/-- `rpc_response_parse`; the arguments are those of `rpcRequestParse`. -/
def rpcResponseParse (new : RpcResponse) (stale : Nat → CharPtr) (c : Window) :
    ParseResult RpcResponse × Window :=
  match statusLine new stale c with
  | (.ok response, c) =>
      match parseRest response.outputLen c with
      | (.ok seq len body, c) =>
          (.ok { response with seq := seq, outputLen := len, output := .rbuf body }, c)
      | (.needData seq len, c) => (.needData { response with seq := seq, outputLen := len }, c)
      | (.error, c) => (.error, c)
  | failed => failed

/-- `rpc_response_copy_head`. -/
def rpcResponseCopyHead (mem : List Byte) (new rsp : RpcResponse) : Option RpcResponse :=
  (rsp.phrase.read mem).map fun phrase =>
    { new with code := rsp.code, seq := rsp.seq, data := rsp.data, outputLen := rsp.outputLen,
               phrase := .heap phrase }

/-- What `printf("%s")` makes of the name of a code: NULL prints as `(null)`. -/
def phraseText (table : List ErrCode) (code : Int) : List Byte :=
  (rpcCodeFormat table code).getD (text ['(', 'n', 'u', 'l', 'l', ')'])

/-- The status line as `rpc_send_response` prints it. -/
def statusText (code : Int) (phrase : List Byte) : List Byte :=
  wordsText RPC_VERSION (intText code) phrase

/-- The entries `rpc_send_response` queues; a NULL `output` is `none`. -/
def responseEntries (table : List ErrCode) (code currSeq : Int) (output : Option (List Byte))
    (outputLen : Nat) : List (List Byte) :=
  [statusText code (phraseText table code) ++ [newline],
   seqLabel ++ intText currSeq ++ [newline],
   bodyLenLabel ++ intText (toInt32 outputLen) ++ [newline, newline]] ++
  match output with
  | none => []
  | some bytes => [bytes.take outputLen]

/-- A name a phrase can be: one word that no carriage return ends. -/
structure PhraseWord (phrase : List Byte) : Prop where
  plain : ∀ b ∈ phrase, NameByte b
  ne : phrase ≠ []
  uncut : phrase.getLast? ≠ some carriage

theorem intText_plain (v : Int) : ∀ b ∈ intText v, NameByte b := by
  intro b member
  refine ⟨?_, ?_, ?_⟩ <;>
    exact fun same => intText_avoids (by decide) (by decide) (same ▸ member)

theorem statusText_words {phrase : List Byte} (word : PhraseWord phrase) (code : Int) :
    Words RPC_VERSION (intText code) phrase :=
  ⟨version_plain, intText_plain code, word.plain, by decide, intText_ne_nil code, word.ne, word.uncut⟩

/-- Every name in the table is a word, and so is the text of NULL; so is then every phrase printed,
    in whatever order the table stands. -/
theorem phraseText_word {table : List ErrCode} (names : ∀ e ∈ table, PhraseWord e.name) (code : Int) :
    PhraseWord (phraseText table code) := by
  simp only [phraseText, rpcCodeFormat]
  cases found : bsearch (compNum ⟨code, []⟩) table with
  | none => exact ⟨by decide +kernel, by decide, by decide +kernel⟩
  | some e => exact names e (bsearchIn_mem found)

theorem errCodes_words : ∀ e ∈ errCodes, PhraseWord e.name := by
  intro e member
  have checked : ∀ e ∈ errCodes,
      (∀ b ∈ e.name, NameByte b) ∧ e.name ≠ [] ∧ e.name.getLast? ≠ some carriage := by
    decide +kernel
  obtain ⟨plain, ne, uncut⟩ := checked e member
  exact ⟨plain, ne, uncut⟩

/-- `statusText` once the parser has been over it. -/
def statusSpent (code : Int) (phrase : List Byte) : List Byte :=
  wordsSpent RPC_VERSION (intText code) phrase

theorem statusLine_frame {phrase : List Byte} (word : PhraseWord phrase) {code : Int}
    (codeFits : InInt32 code) (new : RpcResponse) (stale : Nat → CharPtr)
    (pre rest post : List Byte) :
    statusLine new stale (.frame pre (statusText code phrase ++ newline :: rest) post) =
      (.ok { new with code := code
                      phrase := .rbuf (pre.length + 8 + (intText code).length + 1) },
        .frame (pre ++ statusSpent code phrase) rest post) := by
  have words := statusText_words word code
  obtain ⟨mem, terminated, tokens⟩ := words_frame words pre rest post
  obtain ⟨-, second, -⟩ := wordsSpent_strings words pre (rest ++ post)
  have number : cstring (pre ++ wordsSpent RPC_VERSION (intText code) phrase ++ rest ++ post)
      (pre.length + RPC_VERSION.length + 1) = some (intText code) := by
    simpa only [List.append_assoc] using second
  have versionLen : RPC_VERSION.length = 7 := by decide
  simp only [statusText, statusLine, terminated, tokens]
  simp only [tokenValue, List.length_cons, List.length_nil, if_true, ne_eq, not_true_eq_false,
    if_false, List.getElem?_cons_succ, List.getElem?_cons_zero, CharPtr.read]
  rw [number]
  simp only [strtol_intText codeFits, toInt32_fixed codeFits, statusSpent, Window.frame, versionLen]

/-- The head `rpc_send_response` prints for a body of `len` bytes. -/
def responseHead (code : Int) (phrase : List Byte) (seq : Int) (len : Nat) : List Byte :=
  statusText code phrase ++ newline :: restText seq len

/-- `responseHead` once it has been parsed. -/
def responseHeadSpent (code : Int) (phrase : List Byte) (seq : Int) (len : Nat) : List Byte :=
  statusSpent code phrase ++ restSpent seq len

theorem responseHeadSpent_length (code : Int) (phrase : List Byte) (seq : Int) (len : Nat) :
    (responseHeadSpent code phrase seq len).length = (responseHead code phrase seq len).length := by
  simp only [responseHeadSpent, responseHead, statusSpent, statusText, List.length_append,
    List.length_cons, wordsSpent_length, restSpent_length]
  omega

/-- The response a parsed head is handed out as, its head at offset `start` of the buffer. -/
def RpcResponse.parsedAt (new : RpcResponse) (start : Nat) (code seq : Int) (len : Nat) :
    RpcResponse :=
  { new with code := code, phrase := .rbuf (start + 8 + (intText code).length + 1), seq := seq
             outputLen := storeInt new.outputLen len }

/-- What the parser makes of a printed head, whatever the object it fills held before. -/
theorem rpcResponseParse_frame {phrase : List Byte} (word : PhraseWord phrase) {code seq : Int}
    (codeFits : InInt32 code) (seqFits : InInt32 seq) {len : Nat} (lenFits : len ≤ INT_MAX)
    (new : RpcResponse) (stale : Nat → CharPtr) (pre tail post : List Byte) :
    rpcResponseParse new stale (.frame pre (responseHead code phrase seq len ++ tail) post) =
      let rsp := new.parsedAt pre.length code seq len
      let spent := pre ++ responseHeadSpent code phrase seq len
      if rsp.outputLen ≤ tail.length then
        (.ok { rsp with output := .rbuf spent.length },
          ⟨spent ++ tail ++ post, spent.length + rsp.outputLen, tail.length - rsp.outputLen⟩)
      else (.needData rsp, .frame spent tail post) := by
  have opened : responseHead code phrase seq len ++ tail =
      statusText code phrase ++ newline :: (restText seq len ++ tail) := by
    simp [responseHead]
  have spent : pre ++ statusSpent code phrase ++ restSpent seq len =
      pre ++ responseHeadSpent code phrase seq len := by
    simp [responseHeadSpent]
  rw [rpcResponseParse, opened, statusLine_frame word codeFits]
  simp only
  rw [parseRest_frame _ tail post _ seqFits (length_fits lenFits), spent]
  simp only [RpcResponse.parsedAt]
  by_cases whole : storeInt new.outputLen len ≤ tail.length
  · simp only [if_pos whole]
    exact (if_pos whole).symm
  · simp only [if_neg whole]
    exact (if_neg whole).symm

theorem rpcResponseParse_rbytes {new rsp : RpcResponse} {stale : Nat → CharPtr} {c c' : Window}
    (h : rpcResponseParse new stale c = (.ok rsp, c')) : c'.rbytes < c.rbytes := by
  have first : ∀ {rsp c'}, statusLine new stale c = (.ok rsp, c') → c'.rbytes < c.rbytes := by
    intro rsp c' accepted
    simp only [statusLine] at accepted
    split at accepted
    · cases accepted
    · rename_i line found
      have less := lineAt_avail found
      repeat' split at accepted
      all_goals cases accepted
      exact less
  unfold rpcResponseParse at h
  split at h
  · rename_i response c₁ accepted
    have less := first accepted
    have rest := parseRest_rbytes response.outputLen c₁
    split at h
    · rename_i seq len body c₂ parsed
      rw [parsed] at rest
      cases h
      exact Nat.lt_of_le_of_lt rest less
    · cases h
    · cases h
  · exact first h

/-- The head fields of a response, its phrase read as a string in `mem`. -/
structure RpcResponse.HeadIs (rsp : RpcResponse) (mem : List Byte) (code : Int) (phrase : List Byte)
    (seq : Int) (len : Nat) : Prop where
  code : rsp.code = code
  phrase : rsp.phrase.read mem = some phrase
  seq : rsp.seq = seq
  outputLen : rsp.outputLen = len

theorem RpcResponse.parsedAt_head {phrase : List Byte} (word : PhraseWord phrase) (code seq : Int)
    (new : RpcResponse) (pre tail : List Byte) (len : Nat) :
    (new.parsedAt pre.length code seq len).HeadIs
      (pre ++ responseHeadSpent code phrase seq len ++ tail) code phrase seq
      (storeInt new.outputLen len) := by
  obtain ⟨-, -, third⟩ := wordsSpent_strings (statusText_words word code) pre
    (restSpent seq len ++ tail)
  have layout : pre ++ responseHeadSpent code phrase seq len ++ tail =
      pre ++ wordsSpent RPC_VERSION (intText code) phrase ++ (restSpent seq len ++ tail) := by
    simp [responseHeadSpent, statusSpent]
  have versionLen : RPC_VERSION.length = 7 := by decide
  refine ⟨rfl, ?_, rfl, rfl⟩
  rw [layout]
  simpa only [RpcResponse.parsedAt, CharPtr.read, versionLen] using third

end OpenRpc
