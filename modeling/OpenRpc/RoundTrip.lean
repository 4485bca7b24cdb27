import OpenRpc.Send

/-! # Parsing undoes formatting

Both directions of the wire format of `doc/protocal.txt`: what `rpc_request_format` queues is what
`rpc_request_parse` reads, and what `rpc_send_response` queues is what `rpc_response_parse` reads,
whatever follows on the wire and wherever in the buffer the message stands.
-/

namespace OpenRpc

open Memory Decimal

theorem requestEntries_printed (mem method service : List Byte) (request : RpcRequest) :
    (requestEntries mem method service request).flatten =
      requestText method service ++ newline ::
        (restText request.seq (toInt32 request.inputLen) ++
          request.input.bytes mem request.inputLen) := by
  by_cases absent : request.input = .null
  · simp [requestEntries, restText, absent, CharPtr.bytes]
  · simp [requestEntries, restText, absent]

theorem requestEntries_flatten (mem method service : List Byte) (request : RpcRequest)
    (fits : request.inputLen ≤ INT_MAX) :
    (requestEntries mem method service request).flatten =
      requestHead method service request.seq request.inputLen ++
        request.input.bytes mem request.inputLen := by
  rw [requestEntries_printed, toInt32_fixed (length_fits fits), requestHead, List.append_assoc,
    List.cons_append]

theorem rpcRequestFormat_queued {α : Type} (alloc : Nat → Bool) {c : RpcConn α} (idle : c.Idle)
    {request : RpcRequest} {method service : List Byte}
    (methodName : request.methodName.read c.rbuf = some method)
    (serviceName : request.serviceName.read c.rbuf = some service) :
    ∃ c', rpcRequestFormat alloc request c = some c' ∧
      c'.queued = requestEntries c.rbuf method service request := by
  have short : (requestEntries c.rbuf method service request).length ≤ 4 := by
    by_cases absent : request.input = .null <;> simp [requestEntries, absent]
  have room := idle.room
  obtain ⟨c', stored, entries, -⟩ := addiovs_queued alloc idle.vector
    (requestEntries c.rbuf method service request) (by rw [idle.empty]; omega)
  refine ⟨c', ?_, ?_⟩
  · simp only [rpcRequestFormat, methodName, serviceName]
    exact stored
  · rw [entries, idle.queued, List.nil_append]

theorem rpcRequestFormat_idle {α : Type} (alloc : Nat → Bool) {c : RpcConn α} (idle : c.Idle)
    {request : RpcRequest} {method service : List Byte}
    (methodName : request.methodName.read c.rbuf = some method)
    (serviceName : request.serviceName.read c.rbuf = some service)
    (fits : request.inputLen ≤ INT_MAX) :
    ∃ c', rpcRequestFormat alloc request c = some c' ∧
      c'.queued.flatten = requestHead method service request.seq request.inputLen ++
        request.input.bytes c.rbuf request.inputLen := by
  obtain ⟨c', formatted, queued⟩ := rpcRequestFormat_queued alloc idle methodName serviceName
  exact ⟨c', formatted, by rw [queued, requestEntries_flatten _ _ _ _ fits]⟩

/-- The whole of a request is there: its head is spent, its body handed out in place, and what
    follows is left. -/
theorem rpcRequestParse_whole {method service : List Byte} (names : Names method service) {seq : Int}
    (seqFits : InInt32 seq) {body : List Byte} (fits : body.length ≤ INT_MAX) {new : RpcRequest}
    (clean : new.inputLen < 4294967296) (stale : Nat → CharPtr) (pre following post : List Byte) :
    ∃ req, rpcRequestParse new stale
        (.frame pre (requestHead method service seq body.length ++ body ++ following) post) =
          (.ok req, .frame (pre ++ requestHeadSpent method service seq body.length ++ body) following
            post) ∧
      (∀ tail, req.HeadIs (pre ++ requestHeadSpent method service seq body.length ++ tail)
        method service seq body.length) ∧
      req.input = .rbuf (pre ++ requestHeadSpent method service seq body.length).length := by
  have len : storeInt new.inputLen body.length = body.length := storeInt_of_zero clean fits
  have head := fun tail => parsedAt_head names new pre tail seq body.length
  have parsed := rpcRequestParse_frame names seqFits fits new stale pre (body ++ following) post
  have room : body.length ≤ (body ++ following).length := by simp
  simp only [RpcRequest.parsedAt, len, if_pos room] at parsed head
  refine ⟨{ new.parsedAt pre.length method service seq body.length with
              inputLen := body.length
              input := .rbuf (pre ++ requestHeadSpent method service seq body.length).length },
    ?_, fun tail => ⟨(head tail).methodName, (head tail).serviceName, (head tail).rpcVersion, rfl,
      rfl⟩, rfl⟩
  rw [List.append_assoc _ body, parsed]
  simp [RpcRequest.parsedAt, Nat.add_assoc]

/-- Only a part of the body is there: the head is spent, and the part is left. -/
theorem rpcRequestParse_part {method service : List Byte} (names : Names method service) {seq : Int}
    (seqFits : InInt32 seq) {len : Nat} (fits : len ≤ INT_MAX) {new : RpcRequest}
    (clean : new.inputLen < 4294967296) (stale : Nat → CharPtr) {part : List Byte}
    (short : part.length < len) (pre post : List Byte) :
    ∃ req, rpcRequestParse new stale
        (.frame pre (requestHead method service seq len ++ part) post) =
          (.needData req, .frame (pre ++ requestHeadSpent method service seq len) part post) ∧
      ∀ tail, req.HeadIs (pre ++ requestHeadSpent method service seq len ++ tail)
        method service seq len := by
  have stored : storeInt new.inputLen len = len := storeInt_of_zero clean fits
  have head := fun tail => parsedAt_head names new pre tail seq len
  have parsed := rpcRequestParse_frame names seqFits fits new stale pre part post
  simp only [RpcRequest.parsedAt, stored, if_neg (Nat.not_le_of_lt short)] at parsed head
  exact ⟨_, parsed, head⟩

/-- Parsing undoes `rpc_request_format`: on the bytes it queues, with anything behind them, the
    request comes back; on its head and a part of its body, the head does. -/
theorem rpcRequestParse_format {α : Type} (alloc : Nat → Bool) (c : RpcConn α) (idle : c.Idle)
    (request : RpcRequest) (method service : List Byte)
    (methodName : request.methodName.read c.rbuf = some method)
    (serviceName : request.serviceName.read c.rbuf = some service)
    (names : Names method service) (seqFits : InInt32 request.seq)
    (readable : (request.input.bytes c.rbuf request.inputLen).length = request.inputLen)
    (fits : request.inputLen ≤ INT_MAX) :
    ∃ c', rpcRequestFormat alloc request c = some c' ∧ ∀ (stale : Nat → CharPtr) (w : Window),
      w.Inside →
      (∀ following, w.unread = c'.queued.flatten ++ following →
        ∃ req w', rpcRequestParse .zeroed stale w = (.ok req, w') ∧
          req.HeadIs w'.rbuf method service request.seq request.inputLen ∧
          req.input.bytes w'.rbuf req.inputLen = request.input.bytes c.rbuf request.inputLen ∧
          w'.Inside ∧ w'.unread = following) ∧
      (∀ part missing, w.unread ++ missing = c'.queued.flatten → missing ≠ [] →
        request.input.bytes c.rbuf request.inputLen = part ++ missing →
        ∃ req w', rpcRequestParse .zeroed stale w = (.needData req, w') ∧
          req.HeadIs w'.rbuf method service request.seq request.inputLen ∧
          w'.Inside ∧ w'.unread = part) := by
  obtain ⟨c', formatted, queued⟩ := rpcRequestFormat_idle alloc idle methodName serviceName fits
  refine ⟨c', formatted, fun stale w inside => ?_⟩
  obtain ⟨pre, post, shape⟩ := Window.eq_frame inside
  generalize request.input.bytes c.rbuf request.inputLen = body at *
  have bodyFits : body.length ≤ INT_MAX := readable ▸ fits
  rw [← readable] at queued ⊢
  constructor
  · intro following here
    obtain ⟨req, parsed, head, input⟩ := rpcRequestParse_whole names seqFits bodyFits
      (show RpcRequest.zeroed.inputLen < 4294967296 by decide) stale pre following post
    refine ⟨req, _, by rw [shape, here, queued]; exact parsed, ?_, ?_, Window.frame_inside _ _ _,
      Window.frame_unread _ _ _⟩
    · simpa only [Window.frame, List.append_assoc] using head (body ++ (following ++ post))
    · rw [input, (head []).inputLen]
      have memory : pre ++ requestHeadSpent method service request.seq body.length ++ body ++
          following ++ post = pre ++ requestHeadSpent method service request.seq body.length ++ body ++
          (following ++ post) := by simp only [List.append_assoc]
      simp only [CharPtr.bytes, memory, slice_append]
  · intro part missing here some_missing cut
    have partly : w.unread = requestHead method service request.seq body.length ++ part := by
      rw [queued, cut, ← List.append_assoc] at here
      rw [List.append_cancel_right here, cut]
    have short : part.length < body.length := by
      rw [cut, List.length_append]
      have := List.length_pos_of_ne_nil some_missing
      omega
    obtain ⟨req, parsed, head⟩ := rpcRequestParse_part names seqFits bodyFits
      (show RpcRequest.zeroed.inputLen < 4294967296 by decide) stale short pre post
    refine ⟨req, _, by rw [shape, partly]; exact parsed, ?_, Window.frame_inside _ _ _,
      Window.frame_unread _ _ _⟩
    simpa only [Window.frame, List.append_assoc] using head (part ++ post)

/-- A request of two bytes, parsed where the next request has begun to arrive. -/
theorem rpcRequestParse_format_sample :
    let c : RpcConn RpcResponse :=
      rpcConnNewInner (allocConn (List.replicate BUFFER_SIZE 0) (List.replicate 5 [])) 3 0
    let request : RpcRequest :=
      { RpcRequest.zeroed with methodName := .heap (text ['m']), serviceName := .heap (text ['s'])
                               seq := -7, input := .heap [10, 67], inputLen := 2 }
    ∃ c' req w', rpcRequestFormat (fun _ => false) request c = some c' ∧
      rpcRequestParse .zeroed (fun _ => .wild)
        (.frame [] (c'.queued.flatten ++ text ['C', 'A']) [10]) = (.ok req, w') ∧
      req.seq = -7 ∧ req.input.bytes w'.rbuf req.inputLen = [10, 67] ∧
      w'.unread = text ['C', 'A'] := by
  intro c request
  obtain ⟨c', formatted, parse⟩ := rpcRequestParse_format (fun _ => false) c
    (rpcConnNewInner_idle rfl (by decide) 3 0) request (text ['m']) (text ['s']) rfl rfl
    ⟨by decide +kernel, by decide +kernel, by decide +kernel⟩ (by decide) (by decide) (by decide)
  obtain ⟨whole, -⟩ := parse (fun _ => .wild) (.frame [] (c'.queued.flatten ++ text ['C', 'A']) [10])
    (Window.frame_inside _ _ _)
  obtain ⟨req, w', parsed, head, input, -, rest⟩ := whole _ (Window.frame_unread _ _ _)
  exact ⟨c', req, w', formatted, parsed, head.seq, input, rest⟩

theorem responseEntries_printed (table : List ErrCode) (code seq : Int) (output : Option (List Byte))
    (outputLen : Nat) :
    (responseEntries table code seq output outputLen).flatten =
      statusText code (phraseText table code) ++ newline ::
        (restText seq (toInt32 outputLen) ++ (output.getD []).take outputLen) := by
  cases output <;> simp [responseEntries, restText]

theorem responseEntries_flatten (table : List ErrCode) (code seq : Int) (output : Option (List Byte))
    {outputLen : Nat} (fits : outputLen ≤ INT_MAX) :
    (responseEntries table code seq output outputLen).flatten =
      responseHead code (phraseText table code) seq outputLen ++
        (output.getD []).take outputLen := by
  rw [responseEntries_printed, toInt32_fixed (length_fits fits), responseHead, List.append_assoc,
    List.cons_append]

theorem rpcResponseParse_whole {phrase : List Byte} (word : PhraseWord phrase) {code seq : Int}
    (codeFits : InInt32 code) (seqFits : InInt32 seq) {body : List Byte}
    (fits : body.length ≤ INT_MAX) {new : RpcResponse} (clean : new.outputLen < 4294967296)
    (stale : Nat → CharPtr) (pre following post : List Byte) :
    ∃ rsp, rpcResponseParse new stale
        (.frame pre (responseHead code phrase seq body.length ++ body ++ following) post) =
          (.ok rsp, .frame (pre ++ responseHeadSpent code phrase seq body.length ++ body) following
            post) ∧
      (∀ tail, rsp.HeadIs (pre ++ responseHeadSpent code phrase seq body.length ++ tail) code phrase
        seq body.length) ∧
      rsp.output = .rbuf (pre ++ responseHeadSpent code phrase seq body.length).length := by
  have len : storeInt new.outputLen body.length = body.length := storeInt_of_zero clean fits
  have head := fun tail => RpcResponse.parsedAt_head word code seq new pre tail body.length
  have parsed := rpcResponseParse_frame word codeFits seqFits fits new stale pre (body ++ following)
    post
  have room : body.length ≤ (body ++ following).length := by simp
  simp only [RpcResponse.parsedAt, len, if_pos room] at parsed head
  refine ⟨{ new.parsedAt pre.length code seq body.length with
              outputLen := body.length
              output := .rbuf (pre ++ responseHeadSpent code phrase seq body.length).length },
    ?_, fun tail => ⟨rfl, (head tail).phrase, rfl, rfl⟩, rfl⟩
  rw [List.append_assoc _ body, parsed]
  simp [RpcResponse.parsedAt, Nat.add_assoc]

theorem rpcResponseParse_part {phrase : List Byte} (word : PhraseWord phrase) {code seq : Int}
    (codeFits : InInt32 code) (seqFits : InInt32 seq) {len : Nat} (fits : len ≤ INT_MAX)
    {new : RpcResponse} (clean : new.outputLen < 4294967296) (stale : Nat → CharPtr)
    {part : List Byte} (short : part.length < len) (pre post : List Byte) :
    ∃ rsp, rpcResponseParse new stale
        (.frame pre (responseHead code phrase seq len ++ part) post) =
          (.needData rsp, .frame (pre ++ responseHeadSpent code phrase seq len) part post) ∧
      ∀ tail, rsp.HeadIs (pre ++ responseHeadSpent code phrase seq len ++ tail) code phrase seq
        len := by
  have stored : storeInt new.outputLen len = len := storeInt_of_zero clean fits
  have head := fun tail => RpcResponse.parsedAt_head word code seq new pre tail len
  have parsed := rpcResponseParse_frame word codeFits seqFits fits new stale pre part post
  simp only [RpcResponse.parsedAt, stored, if_neg (Nat.not_le_of_lt short)] at parsed head
  exact ⟨_, parsed, head⟩

theorem RpcCode.num_fits (code : RpcCode) : InInt32 code.num := by
  cases code <;> decide

/-- Parsing undoes `rpc_send_response`, for every code of `rpc_code`. -/
theorem rpcResponseParse_send {α : Type} (alloc : Nat → Bool) (c : RpcConn α) (idle : c.Idle)
    (code : RpcCode) (seqFits : InInt32 c.currSeq) (output : Option (List Byte)) (outputLen : Nat)
    (readable : ((output.getD []).take outputLen).length = outputLen) (fits : outputLen ≤ INT_MAX) :
    ∃ c' phrase, queueResponse alloc errCodes c code.num output outputLen = some c' ∧
      rpcCodeFormat errCodes code.num = some phrase ∧ ∀ (stale : Nat → CharPtr) (w : Window),
      w.Inside →
      (∀ following, w.unread = c'.queued.flatten ++ following →
        ∃ rsp w', rpcResponseParse .zeroed stale w = (.ok rsp, w') ∧
          rsp.HeadIs w'.rbuf code.num phrase c.currSeq outputLen ∧
          rsp.output.bytes w'.rbuf rsp.outputLen = (output.getD []).take outputLen ∧
          w'.Inside ∧ w'.unread = following) ∧
      (∀ part missing, w.unread ++ missing = c'.queued.flatten → missing ≠ [] →
        (output.getD []).take outputLen = part ++ missing →
        ∃ rsp w', rpcResponseParse .zeroed stale w = (.needData rsp, w') ∧
          rsp.HeadIs w'.rbuf code.num phrase c.currSeq outputLen ∧
          w'.Inside ∧ w'.unread = part) := by
  obtain ⟨c', stored, entries, -⟩ := queueResponse_idle alloc errCodes idle code.num output outputLen
  obtain ⟨e, member, -, named⟩ := rpcCodeFormat_initial code
  have printed : phraseText errCodes code.num = e.name := by rw [phraseText, named, Option.getD_some]
  have word : PhraseWord e.name := errCodes_words e member
  have queued : c'.queued.flatten = responseHead code.num e.name c.currSeq outputLen ++
      (output.getD []).take outputLen := by
    rw [entries, responseEntries_flatten _ _ _ _ fits, printed]
  refine ⟨c', e.name, stored, named, fun stale w inside => ?_⟩
  obtain ⟨pre, post, shape⟩ := Window.eq_frame inside
  generalize (output.getD []).take outputLen = body at *
  have bodyFits : body.length ≤ INT_MAX := readable ▸ fits
  rw [← readable] at queued ⊢
  constructor
  · intro following here
    obtain ⟨rsp, parsed, head, out⟩ := rpcResponseParse_whole word code.num_fits seqFits bodyFits
      (show RpcResponse.zeroed.outputLen < 4294967296 by decide) stale pre following post
    refine ⟨rsp, _, by rw [shape, here, queued]; exact parsed, ?_, ?_, Window.frame_inside _ _ _,
      Window.frame_unread _ _ _⟩
    · simpa only [Window.frame, List.append_assoc] using head (body ++ (following ++ post))
    · rw [out, (head []).outputLen]
      have memory : pre ++ responseHeadSpent code.num e.name c.currSeq body.length ++ body ++
          following ++ post = pre ++ responseHeadSpent code.num e.name c.currSeq body.length ++ body ++
          (following ++ post) := by simp only [List.append_assoc]
      simp only [CharPtr.bytes, memory, slice_append]
  · intro part missing here some_missing cut
    have partly : w.unread = responseHead code.num e.name c.currSeq body.length ++ part := by
      rw [queued, cut, ← List.append_assoc] at here
      rw [List.append_cancel_right here, cut]
    have short : part.length < body.length := by
      rw [cut, List.length_append]
      have := List.length_pos_of_ne_nil some_missing
      omega
    obtain ⟨rsp, parsed, head⟩ := rpcResponseParse_part word code.num_fits seqFits bodyFits
      (show RpcResponse.zeroed.outputLen < 4294967296 by decide) stale short pre post
    refine ⟨rsp, _, by rw [shape, partly]; exact parsed, ?_, Window.frame_inside _ _ _,
      Window.frame_unread _ _ _⟩
    simpa only [Window.frame, List.append_assoc] using head (part ++ post)

/-- An error response of which one byte is still on the way. -/
theorem rpcResponseParse_send_sample :
    let c : RpcConn RpcRequest :=
      rpcConnNewInner (allocConn (List.replicate BUFFER_SIZE 0) (List.replicate 5 [])) 3 0
    ∃ c' rsp w', queueResponse (fun _ => false) errCodes c RpcCode.notFound.num (some [110, 111]) 2 =
        some c' ∧
      rpcResponseParse .zeroed (fun _ => .wild)
        (.frame [] c'.queued.flatten.dropLast [111]) = (.needData rsp, w') ∧
      rsp.code = 404 ∧ rsp.seq = -1 ∧ w'.unread = [110] := by
  intro c
  obtain ⟨c', phrase, stored, -, parse⟩ := rpcResponseParse_send (fun _ => false) c
    (rpcConnNewInner_idle rfl (by decide) 3 0) .notFound (by decide) (some [110, 111]) 2
    (by decide) (by decide)
  obtain ⟨-, part⟩ := parse (fun _ => .wild) (.frame [] c'.queued.flatten.dropLast [111])
    (Window.frame_inside _ _ _)
  have queued : c'.queued = responseEntries errCodes 404 (-1) (some [110, 111]) 2 := by
    cases stored
    decide
  obtain ⟨rsp, w', parsed, head, -, rest⟩ := part [110] [111]
    (by rw [Window.frame_unread, queued]; decide) (by simp) rfl
  exact ⟨c', rsp, w', stored, parsed, head.code, head.seq, rest⟩

end OpenRpc
