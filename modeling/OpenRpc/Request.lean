import OpenRpc.Conn

/-! # Requests

`rpc_request.c`: the request object, its text on the wire, and the parser. Where the memory of a new
object comes from (`rpc_request_new` hands out recycled objects, which are zeroed, and fresh ones,
which are not) is an argument of the functions that take one.
-/

namespace OpenRpc

open Memory Decimal

/-- `struct _rpc_request`. `callback` and `data` are the words the client stores for its caller. -/
structure RpcRequest where
  serviceName : CharPtr
  methodName : CharPtr
  rpcVersion : CharPtr
  seq : Int
  input : CharPtr
  inputLen : Nat
  data : Nat
  callback : Nat
  deriving Repr, DecidableEq

/-- A request object after `memset(req, 0, sizeof(rpc_request))`. -/
def RpcRequest.zeroed : RpcRequest := ⟨.null, .null, .null, 0, .null, 0, 0, 0⟩

/-- `rpc_parse_result`, with the object handed back. `undefined`: the parser read or wrote through a
    token that `tokenize_command` did not set. -/
inductive ParseResult (α : Type) where
  | ok (obj : α)
  | needData (obj : α)
  | error
  | undefined
  deriving Repr, DecidableEq

/-- `tokens[i].value` after the call: the entries from the count on hold what the stack held. -/
def tokenValue (tokens : List Token) (stale : Nat → CharPtr) (i : Nat) : CharPtr :=
  match tokens[i]? with
  | some t => .rbuf t.value
  | none => stale i

def CALL : List Byte := text ['C', 'A', 'L', 'L']
def atSign : Byte := 64

/-- The `//request line` section. The window is moved only when the line is accepted, but the line is
    terminated and tokenized in place before that is known. -/
def requestLine (new : RpcRequest) (stale : Nat → CharPtr) (c : Window) :
    ParseResult RpcRequest × Window :=
  match lineAt c with
  | none => (.error, c)
  | some line =>
      let (tokens, mem) := tokenizeCommand line.rbuf c.rcurr 3
      let value := tokenValue tokens stale
      let stay : Window := { c with rbuf := mem }
      match (if tokens.length = 3 then some CALL else (value 0).read mem) with
      | none => (.undefined, stay)
      | some keyword =>
          if keyword ≠ CALL then (.error, stay)
          else
            match (value 1).read mem with
            | none => (.undefined, stay)
            | some word =>
                match word.findIdx? (· == atSign) with
                | none => (.error, stay)
                | some ch =>
                    let (mem, method, service) := (value 1).cut mem ch
                    (.ok { new with methodName := method, serviceName := service, rpcVersion := value 2 },
                      ⟨mem, line.cont, line.avail⟩)

/-- `rpc_request_parse` on the window of a connection. `new` is the memory of the object
    `rpc_request_new` returns and `stale` what the `tokens` array held before the call. -/
def rpcRequestParse (new : RpcRequest) (stale : Nat → CharPtr) (c : Window) :
    ParseResult RpcRequest × Window :=
  match requestLine new stale c with
  | (.ok request, c) =>
      match parseRest request.inputLen c with
      | (.ok seq len body, c) =>
          (.ok { request with seq := seq, inputLen := len, input := .rbuf body }, c)
      | (.needData seq len, c) => (.needData { request with seq := seq, inputLen := len }, c)
      | (.error, c) => (.error, c)
  | failed => failed

/-- `rpc_request_copy_head`: the names are duplicated, `new` is the object they go to. `none`: one of
    the names cannot be read. -/
def rpcRequestCopyHead (mem : List Byte) (new req : RpcRequest) : Option RpcRequest :=
  match req.serviceName.read mem, req.methodName.read mem, req.rpcVersion.read mem with
  | some service, some method, some version =>
      some { new with serviceName := .heap service, methodName := .heap method,
                      rpcVersion := .heap version, inputLen := req.inputLen, seq := req.seq }
  | _, _, _ => none

/-- The request line as `rpc_request_format` prints it. -/
def requestText (method service : List Byte) : List Byte :=
  wordsText CALL (method ++ atSign :: service) RPC_VERSION

/-- The entries `rpc_request_format` queues: request line, seq line, length line with the empty line,
    and the input unless it is NULL. The length is printed with `%d`. -/
def requestEntries (mem method service : List Byte) (request : RpcRequest) : List (List Byte) :=
  [requestText method service ++ [newline],
   seqLabel ++ intText request.seq ++ [newline],
   bodyLenLabel ++ intText (toInt32 request.inputLen) ++ [newline, newline]] ++
  if request.input = .null then [] else [request.input.bytes mem request.inputLen]

/-- `rpc_request_format`. `none`: a name that is no string, or an entry stored out of bounds. -/
def rpcRequestFormat {α : Type} (alloc : Nat → Bool) (request : RpcRequest) (c : RpcConn α) :
    Option (RpcConn α) :=
  match request.methodName.read c.rbuf, request.serviceName.read c.rbuf with
  | some method, some service => addiovs alloc c (requestEntries c.rbuf method service request)
  | _, _ => none

/-- The names a caller may use: they survive the request line, and the `@` in it is the first. -/
structure Names (method service : List Byte) : Prop where
  methodPlain : ∀ b ∈ method, NameByte b
  servicePlain : ∀ b ∈ service, NameByte b
  noAt : atSign ∉ method

theorem CALL_plain : ∀ b ∈ CALL, NameByte b := by decide +kernel

theorem version_plain : ∀ b ∈ RPC_VERSION, NameByte b := by decide +kernel

theorem Names.words {method service : List Byte} (names : Names method service) :
    Words CALL (method ++ atSign :: service) RPC_VERSION where
  plain₁ := CALL_plain
  plain₂ := by
    intro b member
    rcases List.mem_append.mp member with h | h
    · exact names.methodPlain b h
    · rcases List.mem_cons.mp h with rfl | h
      · decide
      · exact names.servicePlain b h
  plain₃ := version_plain
  ne₁ := by decide
  ne₂ := by simp
  ne₃ := by decide
  uncut := by decide

/-- `requestText` once the parser has been over it: the `@` has become a NUL as well. -/
def requestSpent (method service : List Byte) : List Byte :=
  wordsSpent CALL (method ++ nul :: service) RPC_VERSION

theorem requestSpent_length (method service : List Byte) :
    (requestSpent method service).length = (requestText method service).length + 1 := by
  rw [requestSpent, wordsSpent_length]
  simp [requestText, wordsText]

theorem requestLine_frame {method service : List Byte} (names : Names method service)
    (new : RpcRequest) (stale : Nat → CharPtr) (pre rest post : List Byte) :
    requestLine new stale (.frame pre (requestText method service ++ newline :: rest) post) =
      (.ok { new with methodName := .rbuf (pre.length + 5)
                      serviceName := .rbuf (pre.length + 5 + method.length + 1)
                      rpcVersion := .rbuf (pre.length + 5 + method.length + 1 + service.length + 1) },
        .frame (pre ++ requestSpent method service) rest post) := by
  obtain ⟨mem, terminated, tokens⟩ := words_frame names.words pre rest post
  obtain ⟨-, second, -⟩ := wordsSpent_strings names.words pre (rest ++ post)
  let target := method ++ atSign :: service
  let tokenized := pre ++ wordsSpent CALL target RPC_VERSION ++ rest ++ post
  have callLen : CALL.length = 4 := by decide
  have targetLen : target.length = method.length + 1 + service.length := by
    simp only [target, List.length_append, List.length_cons]
    omega
  have word : cstring tokenized (pre.length + CALL.length + 1) = some target := by
    simpa only [tokenized, List.append_assoc] using second
  have atIndex : target.findIdx? (· == atSign) = some method.length := by
    have before : method.findIdx? (· == atSign) = none := by
      rw [List.findIdx?_eq_none_iff]
      intro x member
      simpa using fun same : x = atSign => names.noAt (same ▸ member)
    simp [target, List.findIdx?_append, before, List.findIdx?_cons]
  have cut : tokenized.set (pre.length + CALL.length + 1 + method.length) nul =
      pre ++ requestSpent method service ++ rest ++ post := by
    rw [set_at nul (show tokenized = (pre ++ (CALL ++ nul :: method)) ++
        atSign :: (service ++ nul :: (RPC_VERSION ++ nul :: (rest ++ post))) by
          simp [tokenized, target, wordsSpent])
        (by simp only [List.length_append, List.length_cons]; omega)]
    simp [requestSpent, wordsSpent]
  have start : (pre ++ wordsSpent CALL target RPC_VERSION).length =
      (pre ++ requestSpent method service).length := by
    simp only [List.length_append, requestSpent_length, wordsSpent_length, requestText, target]
  simp only [requestText, requestLine, terminated, tokens]
  simp only [tokenValue, List.length_cons, List.length_nil, if_true, ne_eq, not_true_eq_false,
    if_false, List.getElem?_cons_succ, List.getElem?_cons_zero, CharPtr.read]
  rw [word]
  simp only [atIndex, CharPtr.cut]
  rw [cut, start, targetLen, callLen]
  simp only [Window.frame, Prod.mk.injEq, ParseResult.ok.injEq, RpcRequest.mk.injEq, true_and,
    and_true, CharPtr.rbuf.injEq]
  omega

theorem requestSpent_names {method service : List Byte} (names : Names method service)
    (pre tail : List Byte) :
    cstring (pre ++ requestSpent method service ++ tail) (pre.length + 5) = some method ∧
    cstring (pre ++ requestSpent method service ++ tail) (pre.length + 5 + method.length + 1) =
      some service ∧
    cstring (pre ++ requestSpent method service ++ tail)
      (pre.length + 5 + method.length + 1 + service.length + 1) = some RPC_VERSION := by
  have callLen : CALL.length = 4 := by decide
  have first := cstring_terminated (pre ++ (CALL ++ [nul])) method
    (service ++ nul :: (RPC_VERSION ++ nul :: tail)) fun h => (names.methodPlain _ h).2.2 rfl
  have second := cstring_terminated (pre ++ (CALL ++ nul :: (method ++ [nul]))) service
    (RPC_VERSION ++ nul :: tail) fun h => (names.servicePlain _ h).2.2 rfl
  have third := cstring_terminated (pre ++ (CALL ++ nul :: (method ++ nul :: (service ++ [nul]))))
    RPC_VERSION tail fun h => (version_plain _ h).2.2 rfl
  refine ⟨?_, ?_, ?_⟩
  · simpa [requestSpent, wordsSpent, callLen] using first
  · simpa [requestSpent, wordsSpent, callLen, Nat.add_assoc, Nat.add_comm, Nat.add_left_comm]
      using second
  · simpa [requestSpent, wordsSpent, callLen, Nat.add_assoc, Nat.add_comm, Nat.add_left_comm]
      using third

/-- The head `rpc_request_format` prints for a body of `len` bytes. -/
def requestHead (method service : List Byte) (seq : Int) (len : Nat) : List Byte :=
  requestText method service ++ newline :: restText seq len

/-- `requestHead` once it has been parsed. -/
def requestHeadSpent (method service : List Byte) (seq : Int) (len : Nat) : List Byte :=
  requestSpent method service ++ restSpent seq len

theorem requestHeadSpent_length (method service : List Byte) (seq : Int) (len : Nat) :
    (requestHeadSpent method service seq len).length =
      (requestHead method service seq len).length := by
  simp only [requestHeadSpent, requestHead, List.length_append, List.length_cons,
    requestSpent_length, restSpent_length]
  omega

/-- The request a parsed head is handed out as, its head at offset `start` of the buffer. -/
def RpcRequest.parsedAt (new : RpcRequest) (start : Nat) (method service : List Byte) (seq : Int)
    (len : Nat) : RpcRequest :=
  { new with methodName := .rbuf (start + 5)
             serviceName := .rbuf (start + 5 + method.length + 1)
             rpcVersion := .rbuf (start + 5 + method.length + 1 + service.length + 1)
             seq := seq, inputLen := storeInt new.inputLen len }

/-- What the parser makes of a printed head, whatever the object it fills held before. -/
theorem rpcRequestParse_frame {method service : List Byte} (names : Names method service)
    {seq : Int} (seqFits : InInt32 seq) {len : Nat} (lenFits : len ≤ INT_MAX) (new : RpcRequest)
    (stale : Nat → CharPtr) (pre tail post : List Byte) :
    rpcRequestParse new stale (.frame pre (requestHead method service seq len ++ tail) post) =
      let req := new.parsedAt pre.length method service seq len
      let spent := pre ++ requestHeadSpent method service seq len
      if req.inputLen ≤ tail.length then
        (.ok { req with input := .rbuf spent.length },
          ⟨spent ++ tail ++ post, spent.length + req.inputLen, tail.length - req.inputLen⟩)
      else (.needData req, .frame spent tail post) := by
  have opened : requestHead method service seq len ++ tail =
      requestText method service ++ newline :: (restText seq len ++ tail) := by
    simp [requestHead]
  have spent : pre ++ requestSpent method service ++ restSpent seq len =
      pre ++ requestHeadSpent method service seq len := by
    simp [requestHeadSpent]
  rw [rpcRequestParse, opened, requestLine_frame names]
  simp only
  rw [parseRest_frame _ tail post _ seqFits (length_fits lenFits), spent]
  simp only [RpcRequest.parsedAt]
  by_cases whole : storeInt new.inputLen len ≤ tail.length
  · simp only [if_pos whole]
    exact (if_pos whole).symm
  · simp only [if_neg whole]
    exact (if_neg whole).symm

theorem rpcRequestParse_rbytes {new req : RpcRequest} {stale : Nat → CharPtr} {c c' : Window}
    (h : rpcRequestParse new stale c = (.ok req, c')) : c'.rbytes < c.rbytes := by
  have first : ∀ {req c'}, requestLine new stale c = (.ok req, c') → c'.rbytes < c.rbytes := by
    intro req c' accepted
    simp only [requestLine] at accepted
    split at accepted
    · cases accepted
    · rename_i line found
      have less := lineAt_avail found
      repeat' split at accepted
      all_goals cases accepted
      exact less
  unfold rpcRequestParse at h
  split at h
  · rename_i request c₁ accepted
    have less := first accepted
    have rest := parseRest_rbytes request.inputLen c₁
    split at h
    · rename_i seq len body c₂ parsed
      rw [parsed] at rest
      cases h
      exact Nat.lt_of_le_of_lt rest less
    · cases h
    · cases h
  · exact first h

/-- The head fields of a request, its names read as strings in `mem`. -/
structure RpcRequest.HeadIs (req : RpcRequest) (mem method service : List Byte) (seq : Int)
    (len : Nat) : Prop where
  methodName : req.methodName.read mem = some method
  serviceName : req.serviceName.read mem = some service
  rpcVersion : req.rpcVersion.read mem = some RPC_VERSION
  seq : req.seq = seq
  inputLen : req.inputLen = len

theorem parsedAt_head {method service : List Byte} (names : Names method service) (new : RpcRequest)
    (pre tail : List Byte) (seq : Int) (len : Nat) :
    (new.parsedAt pre.length method service seq len).HeadIs
      (pre ++ requestHeadSpent method service seq len ++ tail) method service seq
      (storeInt new.inputLen len) := by
  obtain ⟨first, second, third⟩ := requestSpent_names names pre (restSpent seq len ++ tail)
  have layout : pre ++ requestHeadSpent method service seq len ++ tail =
      pre ++ requestSpent method service ++ (restSpent seq len ++ tail) := by
    simp [requestHeadSpent]
  exact ⟨by rw [layout]; exact first, by rw [layout]; exact second, by rw [layout]; exact third,
    rfl, rfl⟩

theorem read_nulled {mem mem' : List Byte} (nulled : Nulled mem mem') {p : CharPtr}
    {w w' : List Byte} (before : p.read mem = some w) (after : p.read mem' = some w') : w' <+: w := by
  cases p with
  | null => cases before
  | wild => cases before
  | heap s =>
      cases before
      cases after
      exact List.prefix_rfl
  | rbuf off => exact cstring_nulled nulled before after

theorem readable_nulled {mem mem' : List Byte} (nulled : Nulled mem mem') {p : CharPtr}
    {w : List Byte} (before : p.read mem = some w) : ∃ w', p.read mem' = some w' := by
  cases p with
  | null => cases before
  | wild => cases before
  | heap s => exact ⟨s, rfl⟩
  | rbuf off => exact cstring_stays nulled before

/-- What `*ch = '\0'` leaves of a word: the part before `ch`, and the part behind it. -/
theorem cut_read {mem : List Byte} {p : CharPtr} {word : List Byte} {ch : Nat}
    (before : p.read mem = some word) (inside : ch < word.length) :
    (p.cut mem ch).2.1.read (p.cut mem ch).1 = some (word.take ch) ∧
    (p.cut mem ch).2.2.read (p.cut mem ch).1 = some (word.drop (ch + 1)) := by
  cases p with
  | null => cases before
  | wild => cases before
  | heap s =>
      cases before
      exact ⟨rfl, rfl⟩
  | rbuf off =>
      obtain ⟨pre, rest, rfl, rfl, clean⟩ := cstring_split before
      have layout : pre ++ word ++ nul :: rest =
          (pre ++ word.take ch) ++ word[ch] :: (word.drop (ch + 1) ++ nul :: rest) := by
        simp only [List.append_assoc]
        rw [← List.cons_append, List.getElem_cons_drop, ← List.append_assoc (word.take ch),
          List.take_append_drop]
      have written : (pre ++ word ++ nul :: rest).set (pre.length + ch) nul =
          pre ++ word.take ch ++ nul :: (word.drop (ch + 1) ++ nul :: rest) := by
        rw [set_at nul layout (by simp; omega)]
      have first := cstring_terminated pre (word.take ch) (word.drop (ch + 1) ++ nul :: rest)
        fun member => clean (List.mem_of_mem_take member)
      have second := cstring_terminated (pre ++ word.take ch ++ [nul]) (word.drop (ch + 1)) rest
        fun member => clean (List.mem_of_mem_drop member)
      have start : (pre ++ word.take ch ++ [nul]).length = pre.length + ch + 1 := by
        simp only [List.length_append, List.length_take, List.length_singleton]
        omega
      rw [start] at second
      simp only [CharPtr.cut, CharPtr.read, written]
      exact ⟨first, by
        simpa only [List.append_assoc, List.cons_append, List.nil_append] using second⟩

/-- The method name of an accepted request line stops before the first `@`, and no later write of the
    parser puts one there. -/
theorem requestLine_method {new req : RpcRequest} {stale : Nat → CharPtr} {c w : Window}
    (accepted : requestLine new stale c = (.ok req, w)) {mem m : List Byte} (nulled : Nulled w.rbuf mem)
    (read : req.methodName.read mem = some m) : atSign ∉ m := by
  simp only [requestLine] at accepted
  repeat' split at accepted
  all_goals cases accepted
  rename_i word here _ ch found
  obtain ⟨inside, -, earlier⟩ := List.findIdx?_eq_some_iff_getElem.mp found
  have clean : atSign ∉ word.take ch := by
    intro member
    obtain ⟨i, below, same⟩ := List.getElem_of_mem member
    rw [List.length_take] at below
    have other := earlier i (by omega)
    rw [List.getElem_take] at same
    simp [same] at other
  exact fun member => clean ((read_nulled nulled (cut_read here inside).1 read).subset member)

theorem rpcRequestParse_method {new req : RpcRequest} {stale : Nat → CharPtr} {c w : Window}
    (parsed : rpcRequestParse new stale c = (.ok req, w) ∨
      rpcRequestParse new stale c = (.needData req, w)) {m : List Byte}
    (read : req.methodName.read w.rbuf = some m) : atSign ∉ m := by
  unfold rpcRequestParse at parsed
  split at parsed
  · rename_i request c₁ accepted
    have nulled := parseRest_nulled request.inputLen c₁
    cases parsed with
    | inl whole =>
        split at whole <;> cases whole
        rename_i rest
        rw [rest] at nulled
        exact requestLine_method accepted nulled read
    | inr part =>
        split at part <;> cases part
        rename_i rest
        rw [rest] at nulled
        exact requestLine_method accepted nulled read
  · rename_i failed
    have line := parsed
    cases parsed with
    | inl whole => exact requestLine_method whole (.refl _) read
    | inr part =>
        simp only [requestLine] at part
        repeat' split at part
        all_goals cases part

/-- The names of a parsed request can be read in the buffer the parser leaves. -/
theorem rpcRequestParse_readable {new req : RpcRequest} {stale : Nat → CharPtr} {c w : Window}
    (parsed : rpcRequestParse new stale c = (.ok req, w)) :
    ∃ method service, req.methodName.read w.rbuf = some method ∧
      req.serviceName.read w.rbuf = some service := by
  have line : ∀ {req w mem}, requestLine new stale c = (.ok req, w) → Nulled w.rbuf mem →
      ∃ method service, req.methodName.read mem = some method ∧
        req.serviceName.read mem = some service := by
    intro req w mem accepted nulled
    simp only [requestLine] at accepted
    repeat' split at accepted
    all_goals cases accepted
    rename_i word here _ ch found
    obtain ⟨first, second⟩ := cut_read here (List.findIdx?_eq_some_iff_getElem.mp found).1
    obtain ⟨method, methodIs⟩ := readable_nulled nulled first
    obtain ⟨service, serviceIs⟩ := readable_nulled nulled second
    exact ⟨method, service, methodIs, serviceIs⟩
  unfold rpcRequestParse at parsed
  split at parsed
  · rename_i request c₁ accepted
    have nulled := parseRest_nulled request.inputLen c₁
    split at parsed <;> cases parsed
    rename_i rest
    rw [rest] at nulled
    obtain ⟨method, service, methodIs, serviceIs⟩ := line accepted nulled
    exact ⟨method, service, methodIs, serviceIs⟩
  · exact line parsed (.refl _)

end OpenRpc
