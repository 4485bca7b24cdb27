import OpenRpc.EmptyLine
import OpenRpc.Grammar
import OpenRpc.Resumed

/-! # Requests as they may come

A request with a head of any form the parser accepts and a body of any length: where its empty line is,
from which byte on its head is seen, and how it parses in front of a part of its body.
-/

namespace OpenRpc

open Memory Decimal Words

/-- A request as it may come over the wire: three words or more on the first line, an `@` in the second
    of them, and the lines that the numbers are scanned from. -/
structure WireRequest where
  line : List Byte
  seqLine : List Byte
  lenLine : List Byte
  emptyLine : List Byte
  keyword : List Byte
  method : List Byte
  service : List Byte
  version : List Byte
  more : List (List Byte)
  seq : Int
  body : List Byte
  one : newline ∉ line
  words : wordsOf (lineContent line) = keyword :: (method ++ atSign :: service) :: version :: more
  plain : atSign ∉ method
  scans : Rows.Scans ⟨seqLine, lenLine, emptyLine, body⟩ seq body.length
  fits : body.length ≤ INT_MAX

namespace WireRequest

/-- The lines behind the first one, with a part of the body. -/
def rows (m : WireRequest) (piece : List Byte) : Rows := ⟨m.seqLine, m.lenLine, m.emptyLine, piece⟩

def head (m : WireRequest) : List Byte := m.line ++ newline :: (m.rows []).text

def text (m : WireRequest) : List Byte := m.head ++ m.body

def key (m : WireRequest) : List Byte := m.method ++ atSign :: m.service

/-- So many bytes of the request have to be there for its head to be seen: one more than the head where
    the empty line ends with CRLF. -/
def seenAt (m : WireRequest) : Nat := m.head.length + m.emptyLine.length

/-- The request as it is handed out. -/
def handed (env : ServerEnv) (m : WireRequest) : Handed :=
  ⟨m.method, m.service, m.seq, m.body, m.body.length, (env.serviceMap (m.key.take 254)).isSome⟩

end WireRequest

theorem endsEmpty_first {l : List Byte} {q : Nat} (rest : List Byte) (one : newline ∉ l)
    (ends : EndsEmpty (l ++ newline :: rest) q) : l.length < q := by
  have other : ∀ i < l.length, (l ++ newline :: rest)[i]? ≠ some newline := by
    intro i below here
    rw [List.getElem?_append_left below] at here
    exact one (List.mem_of_getElem? here)
  by_contra before
  rcases ends.2 with ⟨positive, prev⟩ | ⟨positive, -, prev⟩
  · exact other (q - 1) (by omega) prev
  · exact other (q - 2) (by omega) prev

theorem endsEmpty_content {l data : List Byte} {q : Nat} (pre rest : List Byte)
    (shape : data = pre ++ newline :: (l ++ newline :: rest)) (content : LineText l)
    (behind : pre.length < q) (ends : EndsEmpty data q) : pre.length + 1 + l.length < q := by
  have other : ∀ i, pre.length < i → i < pre.length + 1 + l.length → data[i]? ≠ some newline := by
    intro i low high here
    rw [shape, List.getElem?_append_right low.le, List.getElem?_cons, if_neg (by omega),
      List.getElem?_append_left (by omega)] at here
    exact content.one (List.mem_of_getElem? here)
  have positive := List.length_pos_of_ne_nil content.ne
  by_contra before
  have here : q = pre.length + 1 + l.length := by
    by_contra apart
    exact other q behind (by omega) ends.1
  rcases ends.2 with ⟨-, prev⟩ | ⟨-, last, prev⟩
  · exact other (q - 1) (by omega) (by omega) prev
  · by_cases single : l.length = 1
    · obtain ⟨b, rfl⟩ := List.length_eq_one_iff.mp single
      rw [shape, here, List.getElem?_append_right (by omega)] at last
      apply content.notCarriage
      simpa using last
    · exact other (q - 2) (by omega) (by omega) prev

theorem scanLabel_line {label l : List Byte} {v : Int} (one : newline ∉ l) (long : 2 ≤ label.length)
    (scans : scanLabel label (lineContent l) = some v) : LineText l := by
  have labelled : label <+: lineContent l := by
    by_contra unlabelled
    rw [scanLabel, if_neg unlabelled] at scans
    cases scans
  have length := labelled.length_le
  refine ⟨one, ?_, ?_⟩
  · rintro rfl
    have empty : lineContent [] = [] := by decide
    rw [empty, List.length_nil] at length
    omega
  · rintro rfl
    have single : lineContent [carriage] = [carriage] := by decide
    rw [single, List.length_singleton] at length
    omega

namespace WireRequest

variable (m : WireRequest)

/-- The head up to the newline before its empty line. -/
def lines : List Byte := m.line ++ newline :: (m.seqLine ++ newline :: m.lenLine)

theorem head_lines : m.head = m.lines ++ newline :: (m.emptyLine ++ [newline]) := by
  simp [head, lines, rows, Rows.text]

theorem text_rows : m.text = m.line ++ newline :: (m.rows m.body).text := by
  simp [text, head, rows, Rows.text]

theorem head_length : m.head.length = m.lines.length + m.emptyLine.length + 2 := by
  rw [head_lines]
  simp only [List.length_append, List.length_cons, List.length_nil]
  omega

theorem firstEmpty (rest : List Byte) : FirstEmpty (m.head ++ rest) (m.head.length - 1) := by
  have length := m.head_length
  have lines_length : m.lines.length = m.line.length + 1 + m.seqLine.length + 1 + m.lenLine.length := by
    simp only [lines, List.length_append, List.length_cons]
    omega
  have shape : m.head ++ rest = m.lines ++ newline :: (m.emptyLine ++ newline :: rest) := by
    simp [head_lines]
  have before : (m.head ++ rest)[m.lines.length]? = some newline := by simp [shape]
  have last : (m.head ++ rest)[m.lines.length + 1 + m.emptyLine.length]? = some newline := by
    have split : m.head ++ rest = (m.lines ++ newline :: m.emptyLine) ++ newline :: rest := by
      simp [shape]
    rw [split, List.getElem?_append_right (by simp; omega)]
    simp [Nat.add_assoc, Nat.add_comm 1]
  rw [show m.head.length - 1 = m.lines.length + 1 + m.emptyLine.length by omega]
  refine ⟨⟨last, ?_⟩, fun q below ends => ?_⟩
  · rcases m.scans.empty with empty | empty
    · simp only at empty
      exact .inl ⟨by omega, by simpa [empty] using before⟩
    · simp only at empty
      refine .inr ⟨by omega, ?_, by simpa [empty] using before⟩
      rw [shape, empty]
      simp
  · have afterFirst : m.line.length < q := by
      apply endsEmpty_first ((m.rows []).text ++ rest) m.one
      simpa [head] using ends
    have afterSecond : m.line.length + 1 + m.seqLine.length < q :=
      endsEmpty_content _ (m.lenLine ++ newline :: (m.emptyLine ++ newline :: rest))
        (by simp [shape, lines]) (scanLabel_line m.scans.seqOne (by decide) m.scans.seq) afterFirst ends
    have afterThird : m.lines.length < q := by
      have behind := endsEmpty_content (m.line ++ newline :: m.seqLine)
        (m.emptyLine ++ newline :: rest) (by simp [shape, lines])
        (scanLabel_line m.scans.lenOne (by decide) m.scans.len)
        (by simp only [List.length_append, List.length_cons]; omega) ends
      simp only [List.length_append, List.length_cons] at behind
      omega
    have here := ends.1
    rcases m.scans.empty with empty | empty
    · simp only at empty
      simp only [empty, List.length_nil] at below
      omega
    · simp only at empty
      simp only [empty, List.length_singleton] at below
      obtain rfl : q = m.lines.length + 1 := by omega
      rw [shape, empty] at here
      simp at here
      exact absurd here (by decide)

theorem newlines (rest : List Byte) : newlinesBefore (m.head ++ rest) (m.head.length - 1) = 3 := by
  have length := m.head_length
  have split : m.head ++ rest = (m.lines ++ newline :: m.emptyLine) ++ newline :: rest := by
    simp [head_lines]
  have front : (m.lines ++ newline :: m.emptyLine).length = m.head.length - 1 := by
    simp only [List.length_append, List.length_cons]
    omega
  have clean : newline ∉ m.emptyLine := by
    rcases m.scans.empty with empty | empty
    · simp only at empty
      simp [empty]
    · simp only at empty
      rw [empty]
      decide
  rw [newlinesBefore, split, List.take_left' front]
  simp [lines, List.count_append, List.count_eq_zero.mpr m.one, List.count_eq_zero.mpr m.scans.seqOne,
    List.count_eq_zero.mpr m.scans.lenOne, List.count_eq_zero.mpr clean]

theorem detected {unread missing : List Byte} (bytes : unread ++ missing = m.text)
    (enough : m.seenAt ≤ unread.length) (behind : List Byte) :
    rpcConnReceivedHead (unread ++ behind) unread.length = true := by
  have length := m.head_length
  obtain ⟨piece, rfl, -⟩ := append_split bytes (Nat.le_of_add_right_le enough)
  rw [List.append_assoc, rpcConnReceivedHead_iff]
  refine ⟨m.head.length - 1, m.firstEmpty _, ?_⟩
  simp only [Seen, m.newlines]
  simp only [seenAt, List.length_append] at enough ⊢
  rcases m.scans.empty with empty | empty
  · simp only at empty
    by_cases more : piece.length = 0
    · refine .inr ⟨by decide, ?_, by omega⟩
      simp only [empty, List.length_nil] at length
      rw [show m.head.length - 1 - 1 = m.lines.length by omega, head_lines]
      simp
    · exact .inl (by omega)
  · simp only at empty
    simp only [empty, List.length_singleton] at enough
    exact .inl (by omega)

/-- Short of that it is not, unless what has been received ends with the first line and there happens
    to be a newline behind it. -/
theorem undetected {unread missing : List Byte} (bytes : unread ++ missing = m.text)
    (short : unread.length < m.seenAt) {behind : List Byte}
    (quiet : unread.length = m.line.length + 1 → behind.head? ≠ some newline) :
    rpcConnReceivedHead (unread ++ behind) unread.length = false := by
  have length := m.head_length
  have same : m.text.take unread.length = (unread ++ behind).take unread.length := by
    rw [← bytes, List.take_left, List.take_left]
  have first : FirstEmpty m.text (m.head.length - 1) := m.firstEmpty m.body
  rw [Bool.eq_false_iff, ne_eq, rpcConnReceivedHead_iff]
  rintro ⟨p, here, seen⟩
  rcases seen.inside here with below | ⟨rfl, one⟩
  · have ends : EndsEmpty m.text p := (endsEmpty_front same below).mpr here.ends
    have late : m.head.length - 1 ≤ p := Nat.le_of_not_lt fun early => first.first p early ends
    rcases m.scans.empty with empty | empty
    · simp only [seenAt, show m.emptyLine = [] from empty, List.length_nil] at short
      omega
    · have single : m.emptyLine = [carriage] := empty
      simp only [seenAt, single, List.length_singleton] at short length
      obtain rfl : p = m.head.length - 1 := by omega
      have count : newlinesBefore (unread ++ behind) (m.head.length - 1) = 3 := by
        rw [← newlinesBefore_front same below.le]
        exact m.newlines m.body
      rcases seen with inside | ⟨-, bare, -⟩
      · omega
      · rw [← front_byte same (by omega), show m.head.length - 1 - 1 = m.lines.length + 1 by omega, text,
          head_lines, single] at bare
        simp at bare
        exact absurd bare (by decide)
  · obtain ⟨positive, last, count⟩ := one.front same
    have shape := m.text_rows
    have start : m.text[m.line.length]? = some newline := by simp [shape]
    have notBefore : m.line.length ≤ unread.length - 1 := by
      by_contra before
      rw [shape, List.getElem?_append_left (by omega)] at last
      exact m.one (List.mem_of_getElem? last)
    have notBehind : unread.length - 1 ≤ m.line.length := by
      by_contra later
      have first := newlinesBefore_next start
      have more := newlinesBefore_mono m.text (show m.line.length + 1 ≤ unread.length - 1 by omega)
      have next := newlinesBefore_next last
      rw [Nat.sub_add_cancel positive] at next
      omega
    apply quiet (by omega)
    have byte := here.ends.1
    rwa [List.getElem?_append_right (Nat.le_refl _), Nat.sub_self, ← List.head?_eq_getElem?] at byte

/-- A request object that reads as the request in `mem`. -/
structure Shows (m : WireRequest) (mem : List Byte) (req : RpcRequest) : Prop where
  methodName : req.methodName.read mem = some m.method
  serviceName : req.serviceName.read mem = some m.service
  seq : req.seq = m.seq
  inputLen : req.inputLen = m.body.length
  input : req.input.bytes mem m.body.length = m.body

/-- One that has only its head, copied. -/
structure Kept (m : WireRequest) (req : RpcRequest) : Prop where
  methodName : req.methodName = .heap m.method
  serviceName : req.serviceName = .heap m.service
  seq : req.seq = m.seq
  inputLen : req.inputLen = m.body.length

theorem Kept.shows {m : WireRequest} {req : RpcRequest} (kept : m.Kept req) (pre post : List Byte) :
    m.Shows (pre ++ m.body ++ post) { req with input := .rbuf pre.length } := by
  refine ⟨?_, ?_, kept.seq, kept.inputLen, slice_append pre m.body post⟩
  · rw [kept.methodName, CharPtr.read]
  · rw [kept.serviceName, CharPtr.read]

theorem parse_head {new : RpcRequest} (clean : new.inputLen < 4294967296) (stale : Nat → CharPtr)
    (pre piece post : List Byte) : ∃ spent obj, spent.length = m.head.length ∧
      (∀ behind, CharPtr.read (pre ++ spent ++ behind) obj.methodName = some m.method ∧
        CharPtr.read (pre ++ spent ++ behind) obj.serviceName = some m.service ∧
        ∃ v, CharPtr.read (pre ++ spent ++ behind) obj.rpcVersion = some v) ∧
      obj.seq = m.seq ∧ obj.inputLen = m.body.length ∧
      rpcRequestParse new stale (.frame pre (m.head ++ piece) post) =
        if m.body.length ≤ piece.length then
          (.ok { obj with input := .rbuf (pre ++ spent).length },
            ⟨pre ++ spent ++ piece ++ post, (pre ++ spent).length + m.body.length,
              piece.length - m.body.length⟩)
        else (.needData obj, .frame (pre ++ spent) piece post) := by
  have shape : m.head ++ piece = m.line ++ newline :: (m.rows piece).text := by
    simp [head, rows, Rows.text]
  have scans : (m.rows piece).Scans m.seq m.body.length :=
    ⟨m.scans.seqOne, m.scans.seq, m.scans.lenOne, m.scans.len, m.scans.empty⟩
  obtain ⟨spent, p, q, v, names, methodName, serviceName⟩ :=
    requestLine_target m.one m.words m.plain
  obtain ⟨version, rpcVersion⟩ := names.rpcVersion
  have parsed := rpcRequestParse_lines names scans new stale pre post
  rw [storeInt_of_zero clean m.fits, ← shape] at parsed
  refine ⟨spent ++ (m.rows piece).spent, _, ?_, fun behind => ⟨?_, ?_, version, ?_⟩, ?_, ?_, parsed⟩
  · have rest : (m.rows piece).spent.length + piece.length = _ := (m.rows piece).spent_length
    have first := names.length
    have whole := congrArg List.length shape
    simp only [List.length_append, List.length_cons] at whole ⊢
    omega
  · exact spent_read methodName pre _ behind
  · exact spent_read serviceName pre _ behind
  · exact spent_read rpcVersion pre _ behind
  · rfl
  · rfl

theorem parse_whole {new : RpcRequest} (clean : new.inputLen < 4294967296) (stale : Nat → CharPtr)
    (pre post : List Byte) : ∃ spent obj, spent.length = m.head.length ∧
      rpcRequestParse new stale (.frame pre m.text post) =
        (.ok obj, .frame (pre ++ spent ++ m.body) [] post) ∧
      m.Shows (pre ++ spent ++ m.body ++ post) obj := by
  obtain ⟨spent, obj, length, names, seq, inputLen, parsed⟩ := m.parse_head clean stale pre m.body post
  rw [if_pos (Nat.le_refl _)] at parsed
  obtain ⟨methodName, serviceName, -⟩ := names (m.body ++ post)
  rw [← List.append_assoc] at methodName serviceName
  let req : RpcRequest := { obj with input := .rbuf (pre ++ spent).length }
  refine ⟨spent, req, length, parsed.trans ?_, methodName, serviceName, seq, inputLen, ?_⟩
  · simp [Window.frame, req, Nat.add_assoc]
  · exact slice_append (pre ++ spent) m.body post

theorem parse_part {new : RpcRequest} (clean : new.inputLen < 4294967296) (stale : Nat → CharPtr)
    {piece : List Byte} (short : piece.length < m.body.length) (pre post : List Byte) :
    ∃ spent obj, spent.length = m.head.length ∧
      rpcRequestParse new stale (.frame pre (m.head ++ piece) post) =
        (.needData obj, .frame (pre ++ spent) piece post) ∧
      ∀ copy, ∃ kept, rpcRequestCopyHead (pre ++ spent ++ piece ++ post) copy obj = some kept ∧
        m.Kept kept := by
  obtain ⟨spent, obj, length, names, seq, inputLen, parsed⟩ := m.parse_head clean stale pre piece post
  rw [if_neg (Nat.not_le.mpr short)] at parsed
  obtain ⟨methodName, serviceName, v, rpcVersion⟩ := names (piece ++ post)
  rw [← List.append_assoc] at methodName serviceName rpcVersion
  refine ⟨spent, obj, length, parsed, fun copy => ?_⟩
  let kept : RpcRequest := { copy with
    serviceName := .heap m.service, methodName := .heap m.method, rpcVersion := .heap v
    inputLen := obj.inputLen, seq := obj.seq }
  refine ⟨kept, ?_, ?_⟩
  · simp only [rpcRequestCopyHead, methodName, serviceName, rpcVersion, kept]
  · exact ⟨rfl, rfl, seq, inputLen⟩

end WireRequest

theorem Words.wordsOf_text {w₁ w₂ w₃ : List Byte} (words : Words w₁ w₂ w₃) :
    wordsOf (lineContent (wordsText w₁ w₂ w₃)) = [w₁, w₂, w₃] := by
  have plain : ∀ {w : List Byte}, (∀ b ∈ w, NameByte b) → ∀ b ∈ w, (b == blank) = false :=
    fun names b member => beq_false_of_ne (names b member).1
  have clean : ∀ {w : List Byte}, (∀ b ∈ w, NameByte b) → nul ∉ w :=
    fun names member => (names _ member).2.2 rfl
  have uncut : (wordsText w₁ w₂ w₃).getLast? ≠ some carriage := by
    have split : wordsText w₁ w₂ w₃ = (w₁ ++ blank :: (w₂ ++ [blank])) ++ w₃ := by simp [wordsText]
    rw [split, List.getLast?_append_of_ne_nil _ words.ne₃]
    exact words.uncut
  have content : lineContent (wordsText w₁ w₂ w₃) = wordsText w₁ w₂ w₃ := by
    apply lineContent_of (.inl ⟨rfl, uncut⟩)
    · have other : nul ≠ blank := by decide
      simp [wordsText, clean words.plain₁, clean words.plain₂, clean words.plain₃, other]
    · simp [wordsText]
  rw [content, wordsOf, wordsText, words_split (plain words.plain₁) (by decide), if_neg words.ne₁,
    words_split (plain words.plain₂) (by decide), if_neg words.ne₂, words_run (plain words.plain₃),
    if_neg words.ne₃]

/-- A call as the client writes it. -/
def Call.wire (call : Call) : WireRequest where
  line := requestText call.method call.service
  seqLine := seqLabel ++ intText call.seq
  lenLine := bodyLenLabel ++ intText call.body.length
  emptyLine := []
  keyword := CALL
  method := call.method
  service := call.service
  version := RPC_VERSION
  more := []
  seq := call.seq
  body := call.body
  one := (wordsLine call.names.words).one
  words := call.names.words.wordsOf_text
  plain := call.names.noAt
  scans := {
    seqOne := (seqLine call.seq).one
    seq := scanLabel_intText call.seqFits (by decide)
    lenOne := (bodyLenLine call.body.length).one
    len := scanLabel_intText (length_fits call.fits) (by decide)
    empty := .inl rfl }
  fits := call.fits

theorem Call.wire_handed (env : ServerEnv) (call : Call) :
    call.wire.handed env = call.handed env := by
  have short : call.wire.key.length ≤ 254 := call.keyFits
  simp only [WireRequest.handed, List.take_of_length_le short]
  rfl

end OpenRpc
