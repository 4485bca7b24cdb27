import OpenRpc.RoundTrip

/-! # Lengths on the wire

A length is a `size_t`, is printed as an `int`, is scanned as an `int` into the lower half of a
`size_t`, and is then taken for the length of the body. What comes out is the lower half of the length
under the upper half that the receiving object happened to hold.
-/

namespace OpenRpc

open Memory Decimal

theorem toInt32_fits (v : Int) : InInt32 (toInt32 v) := by
  simp only [InInt32, toInt32]
  omega

/-- A length comes back exactly when its upper half is the one already there. -/
theorem storeInt_length {old len : Nat} :
    storeInt old (toInt32 len) = len ↔ old / 4294967296 = len / 4294967296 := by
  rw [storeInt_toInt32]
  omega

/-- The object with the head, once the parser has accepted one. -/
def ParseResult.head? {α : Type} : ParseResult α → Option α
  | .ok obj | .needData obj => some obj
  | .error | .undefined => none

theorem rpcRequestParse_inputLen {method service : List Byte} (names : Names method service)
    {seq : Int} (seqFits : InInt32 seq) (len : Nat) (new : RpcRequest) (stale : Nat → CharPtr)
    (pre tail post : List Byte) :
    (rpcRequestParse new stale (.frame pre (requestText method service ++ newline ::
        (restText seq (toInt32 len) ++ tail)) post)).1.head?.map RpcRequest.inputLen =
      some (storeInt new.inputLen (toInt32 len)) := by
  rw [rpcRequestParse, requestLine_frame names]
  simp only
  rw [parseRest_frame _ tail post _ seqFits (toInt32_fits len)]
  by_cases whole : storeInt new.inputLen (toInt32 len) ≤ tail.length
  · simp only [if_pos whole]
    rfl
  · simp only [if_neg whole]
    rfl

theorem rpcResponseParse_outputLen {phrase : List Byte} (word : PhraseWord phrase) {code seq : Int}
    (codeFits : InInt32 code) (seqFits : InInt32 seq) (len : Nat) (new : RpcResponse)
    (stale : Nat → CharPtr) (pre tail post : List Byte) :
    (rpcResponseParse new stale (.frame pre (statusText code phrase ++ newline ::
        (restText seq (toInt32 len) ++ tail)) post)).1.head?.map RpcResponse.outputLen =
      some (storeInt new.outputLen (toInt32 len)) := by
  rw [rpcResponseParse, statusLine_frame word codeFits]
  simp only
  rw [parseRest_frame _ tail post _ seqFits (toInt32_fits len)]
  by_cases whole : storeInt new.outputLen (toInt32 len) ≤ tail.length
  · simp only [if_pos whole]
    rfl
  · simp only [if_neg whole]
    rfl

/-- The peer takes a body for as long as it is exactly when the object it parses into holds the upper
    half of the length already: an object from the free list holds zero there, one from `malloc`
    anything. -/
theorem bodyLen_decoded (len : Nat) :
    (∀ (alloc : Nat → Bool) (c : RpcConn RpcResponse) (request : RpcRequest)
      (method service : List Byte), c.Idle → request.methodName.read c.rbuf = some method →
      request.serviceName.read c.rbuf = some service → Names method service → InInt32 request.seq →
      request.inputLen = len → (request.input.bytes c.rbuf len).length = len →
      ∃ c' head, rpcRequestFormat alloc request c = some c' ∧
        c'.queued.flatten = head ++ request.input.bytes c.rbuf len ∧
        ∀ (new : RpcRequest) (stale : Nat → CharPtr) (pre following post : List Byte),
          (rpcRequestParse new stale
              (.frame pre (c'.queued.flatten ++ following) post)).1.head?.map RpcRequest.inputLen =
            some (request.input.bytes c.rbuf len).length ↔
          new.inputLen / 4294967296 = len / 4294967296) ∧
    (∀ (alloc : Nat → Bool) (table : List ErrCode) (c : RpcConn RpcRequest) (code : Int)
      (output : Option (List Byte)), (∀ e ∈ table, PhraseWord e.name) → c.Idle → InInt32 code →
      InInt32 c.currSeq → ((output.getD []).take len).length = len →
      ∃ c' head, queueResponse alloc table c code output len = some c' ∧
        c'.queued.flatten = head ++ (output.getD []).take len ∧
        ∀ (new : RpcResponse) (stale : Nat → CharPtr) (pre following post : List Byte),
          (rpcResponseParse new stale
              (.frame pre (c'.queued.flatten ++ following) post)).1.head?.map RpcResponse.outputLen =
            some ((output.getD []).take len).length ↔
          new.outputLen / 4294967296 = len / 4294967296) := by
  constructor
  · intro alloc c request method service idle methodIs serviceIs names seqFits lenIs whole
    obtain ⟨c', formatted, queued⟩ := rpcRequestFormat_queued alloc idle methodIs serviceIs
    have text := congrArg List.flatten queued
    rw [requestEntries_printed, lenIs] at text
    refine ⟨c', requestText method service ++ newline :: restText request.seq (toInt32 len), formatted,
      by rw [text]; simp, fun new stale pre following post => ?_⟩
    have decoded := rpcRequestParse_inputLen names seqFits len new stale pre
      (request.input.bytes c.rbuf len ++ following) post
    rw [text, whole, ← storeInt_length]
    simpa using congrArg (· = some len) decoded
  · intro alloc table c code output names idle codeFits seqFits whole
    obtain ⟨c', stored, queued, -⟩ := queueResponse_idle alloc table idle code output len
    have text := congrArg List.flatten queued
    rw [responseEntries_printed] at text
    refine ⟨c', statusText code (phraseText table code) ++ newline :: restText c.currSeq (toInt32 len),
      stored, by rw [text]; simp, fun new stale pre following post => ?_⟩
    have decoded := rpcResponseParse_outputLen (phraseText_word names code) codeFits seqFits len new
      stale pre ((output.getD []).take len ++ following) post
    rw [text, whole, ← storeInt_length]
    simpa using congrArg (· = some len) decoded

/-- A call of `m@s` with this body. -/
def callWith (body : List Byte) : RpcRequest :=
  { RpcRequest.zeroed with methodName := .heap (text ['m']), serviceName := .heap (text ['s'])
                           input := .heap body, inputLen := body.length }

def idleConn : RpcConn RpcResponse := rpcConnNewInner (allocConn [] (List.replicate 5 [])) 3 0

theorem idleConn_idle : idleConn.Idle := rpcConnNewInner_idle rfl (Nat.le_refl 5) 3 0

theorem smallNames : Names (text ['m']) (text ['s']) :=
  ⟨by decide +kernel, by decide +kernel, by decide +kernel⟩

theorem bodyLen_decoded_small :
    ∃ c' head, rpcRequestFormat (fun _ => false) (callWith [7]) idleConn = some c' ∧
      c'.queued.flatten = head ++ [7] ∧
      (rpcRequestParse .zeroed (fun _ => .wild) (.frame [] (c'.queued.flatten ++ []) [])).1.head?.map
        RpcRequest.inputLen = some 1 := by
  obtain ⟨c', head, formatted, queued, decoded⟩ := (bodyLen_decoded 1).1 (fun _ => false) idleConn
    (callWith [7]) (text ['m']) (text ['s']) idleConn_idle rfl rfl smallNames (by decide) rfl rfl
  exact ⟨c', head, formatted, queued, (decoded .zeroed (fun _ => .wild) [] [] []).mpr (by decide)⟩

/-- A body of 2^32 bytes is announced as one of no bytes, and read as one. Into an object fresh from
    `malloc` even a body of one byte can be read as longer than any body. -/
theorem bodyLen_decoded_fails :
    (∃ c', rpcRequestFormat (fun _ => false) (callWith (List.replicate 4294967296 7)) idleConn =
        some c' ∧
      (rpcRequestParse .zeroed (fun _ => .wild) (.frame [] c'.queued.flatten [])).1.head?.map
        RpcRequest.inputLen = some 0) ∧
    (∃ c', rpcRequestFormat (fun _ => false) (callWith [7]) idleConn = some c' ∧
      (rpcRequestParse { RpcRequest.zeroed with inputLen := 4294967296 } (fun _ => .wild)
        (.frame [] c'.queued.flatten [])).1.head?.map RpcRequest.inputLen = some 4294967297) := by
  have decoded : ∀ (body : List Byte) (new : RpcRequest),
      ∃ c', rpcRequestFormat (fun _ => false) (callWith body) idleConn = some c' ∧
        (rpcRequestParse new (fun _ => .wild) (.frame [] c'.queued.flatten [])).1.head?.map
          RpcRequest.inputLen = some (storeInt new.inputLen (toInt32 body.length)) := by
    intro body new
    obtain ⟨c', formatted, queued⟩ := rpcRequestFormat_queued (fun _ => false) idleConn_idle
      (show (callWith body).methodName.read _ = some _ from rfl) rfl
    refine ⟨c', formatted, ?_⟩
    rw [queued, requestEntries_printed]
    have seqFits : InInt32 (callWith body).seq := (by decide : InInt32 0)
    exact rpcRequestParse_inputLen smallNames seqFits body.length new (fun _ => .wild) [] _ []
  constructor
  · obtain ⟨c', formatted, taken⟩ := decoded (List.replicate 4294967296 7) .zeroed
    refine ⟨c', formatted, ?_⟩
    rw [taken, List.length_replicate]
    decide
  · obtain ⟨c', formatted, taken⟩ := decoded [7] { RpcRequest.zeroed with inputLen := 4294967296 }
    refine ⟨c', formatted, ?_⟩
    rw [taken]
    decide

end OpenRpc
