import OpenRpc.Streams
import OpenRpc.Lines

/-! # Which heads are accepted

The protocol's heads and those the parsers accept. Every head of the protocol is accepted, but the
converse fails: the first word is compared only where the line does not have three words, and `sscanf`
takes a number for what it begins with.
-/

namespace OpenRpc

open Memory Decimal Words

/-- `l` is the line `t` as it stands before its LF, with a CR behind it or without. -/
def LineOf (t l : List Byte) : Prop := l = t ∧ t.getLast? ≠ some carriage ∨ l = t ++ [carriage]

/-- Three words, the first `CALL`, the second with an `@` in it. -/
def CallLine (l : List Byte) : Prop :=
  ∃ t target version, LineOf t l ∧ nul ∉ t ∧ wordsOf t = [CALL, target, version] ∧ atSign ∈ target

/-- Three words, the first `RPC/1.0`, the second a decimal code. -/
def CodeLine (l : List Byte) : Prop :=
  ∃ t code phrase v, LineOf t l ∧ nul ∉ t ∧ wordsOf t = [RPC_VERSION, code, phrase] ∧
    DecimalText code v

/-- A label and a decimal `int`. -/
def NumberText (label l : List Byte) (v : Int) : Prop := ∃ t, LineOf (label ++ t) l ∧ DecimalText t v

/-- The text begins with a head of the protocol whose first line is a `First`. -/
def BeginsHead (First : List Byte → Prop) (seg : List Byte) : Prop :=
  ∃ first r seq len, seg = first ++ newline :: Rows.text r ∧ newline ∉ first ∧ First first ∧
    newline ∉ r.seqLine ∧ NumberText seqLabel r.seqLine seq ∧
    newline ∉ r.lenLine ∧ NumberText bodyLenLabel r.lenLine len ∧ 0 ≤ len ∧ LineOf [] r.emptyLine

/-- The parser has returned `RPC_Parse_OK` or `RPC_Parse_NeedData`. -/
def ParseResult.Accepts {α : Type} : ParseResult α → Prop
  | .ok _ | .needData _ => True
  | .error | .undefined => False

instance {α : Type} : (result : ParseResult α) → Decidable result.Accepts
  | .ok _ | .needData _ => isTrue trivial
  | .error | .undefined => isFalse id

/-- What a request line has to be for the parser, if the stack held the right words for those that are
    missing. -/
def LaxCall : List (List Byte) → Prop
  | [] => True
  | [w] => w = CALL
  | [w, target] => w = CALL ∧ atSign ∈ target
  | _ :: target :: _ :: _ => atSign ∈ target

/-- The same of a status line. -/
def LaxCode : List (List Byte) → Prop
  | [] => True
  | [w] | [w, _] => w = RPC_VERSION
  | _ :: _ :: _ :: _ => True

/-- The lines of a head as the tokenizer and `sscanf` read them. -/
structure LaxHead (Lax : List (List Byte) → Prop) (first : List Byte) (r : Rows) (seq len : Int) :
    Prop where
  one : newline ∉ first
  words : Lax (wordsOf (lineContent first))
  scans : r.Scans seq len

/-- Not exactly three words, or not `CALL` for the first. -/
def CallDefect (l : List Byte) : Prop :=
  nul ∈ l ∨ (wordsOf (lineContent l)).length ≠ 3 ∨ (wordsOf (lineContent l)).head? ≠ some CALL

/-- Not exactly three words, or not `RPC/1.0` and a decimal code for the first two. -/
def CodeDefect (l : List Byte) : Prop :=
  nul ∈ l ∨ (wordsOf (lineContent l)).length ≠ 3 ∨
    (wordsOf (lineContent l)).head? ≠ some RPC_VERSION ∨
    ∀ code v, (wordsOf (lineContent l))[1]? = some code → ¬DecimalText code v

/-- A head that passes the scans only: its first line has a defect, a number is not a plain decimal
    `int`, or the length is negative. -/
def LooseHead (Lax : List (List Byte) → Prop) (Defect : List Byte → Prop) (seg : List Byte) : Prop :=
  ∃ first r seq len, seg = first ++ newline :: Rows.text r ∧ LaxHead Lax first r seq len ∧
    (Defect first ∨ (∀ v, ¬NumberText seqLabel r.seqLine v) ∨
      (∀ v, ¬NumberText bodyLenLabel r.lenLine v) ∨ len < 0)

theorem lineContent_of {t l : List Byte} (line : LineOf t l) (clean : nul ∉ t) (ne : t ≠ []) :
    lineContent l = t := by
  have bare : bareLine l = t := by
    rcases line with ⟨rfl, uncut⟩ | rfl
    · exact bareLine_uncut uncut
    · have positive := List.length_pos_of_ne_nil ne
      rw [bareLine, if_pos ⟨by simp; omega, by simp⟩, List.dropLast_concat]
  rw [lineContent, bare, List.takeWhile_eq_self_iff]
  intro b member
  simpa using fun same : b = nul => clean (same ▸ member)

theorem LineOf.words {t l w : List Byte} {ws : List (List Byte)} (line : LineOf t l) (clean : nul ∉ t)
    (words : wordsOf t = w :: ws) : wordsOf (lineContent l) = w :: ws := by
  have ne : t ≠ [] := by
    rintro rfl
    cases words
  rw [lineContent_of line clean ne, words]

theorem LineOf.clean {t l : List Byte} (line : LineOf t l) (clean : nul ∉ t) : nul ∉ l := by
  rcases line with ⟨rfl, -⟩ | rfl
  · exact clean
  · simpa [clean] using (by decide : nul ≠ carriage)

theorem NumberText.scanned {label l : List Byte} {v : Int} (number : NumberText label l v)
    (labelled : label ≠ []) (plain : nul ∉ label) : scanLabel label (lineContent l) = some v := by
  obtain ⟨t, line, decimal⟩ := number
  have clean : nul ∉ label ++ t := by
    obtain ⟨-, ds, -, digits, shape⟩ := decimal
    have digit : nul ∉ ds := fun member => absurd (digits _ member) (by decide)
    simp only [List.mem_append, not_or]
    refine ⟨plain, ?_⟩
    rcases shape with ⟨rfl, -⟩ | ⟨rfl, -⟩
    · exact digit
    · simp only [List.mem_cons, not_or]
      exact ⟨by decide, digit⟩
  rw [lineContent_of line clean (by simp [labelled]), scanLabel, if_pos (List.prefix_append ..),
    List.drop_left, decimal.scanned]

theorem LineOf.empty {e : List Byte} (line : LineOf [] e) : e = [] ∨ e = [carriage] := by
  rcases line with ⟨rfl, -⟩ | rfl
  · exact .inl rfl
  · exact .inr rfl

theorem lineOf_nil {e : List Byte} (empty : e = [] ∨ e = [carriage]) : LineOf [] e := by
  rcases empty with rfl | rfl
  · exact .inl ⟨rfl, by simp⟩
  · exact .inr rfl

theorem lineOf_content {l : List Byte} (clean : nul ∉ l)
    (two : 2 ≤ (wordsOf (lineContent l)).length) : LineOf (lineContent l) l := by
  have whole : lineContent l = bareLine l := by
    rw [lineContent, List.takeWhile_eq_self_iff]
    intro b member
    have inside : b ∈ l := by
      rw [bareLine] at member
      split at member
      · exact List.dropLast_subset l member
      · exact member
    simpa using fun same : b = nul => clean (same ▸ inside)
  by_cases ends : 1 < l.length ∧ l.getLast? = some carriage
  · right
    rw [whole, bareLine, if_pos ends]
    exact (List.dropLast_append_getLast? _ ends.2).symm
  · left
    have same : lineContent l = l := by rw [whole, bareLine, if_neg ends]
    refine ⟨same.symm, fun last => ends ⟨?_, by rwa [same] at last⟩⟩
    by_contra short
    rw [same] at two last
    rcases l with _ | ⟨b, _ | ⟨b', rest⟩⟩
    · simp at last
    · obtain rfl : b = carriage := by simpa using last
      revert two
      decide
    · simp at short

theorem callLine_iff {l : List Byte} (lax : LaxCall (wordsOf (lineContent l))) :
    CallLine l ↔ ¬CallDefect l := by
  constructor
  · rintro ⟨t, target, version, line, clean, words, -⟩
    simp only [CallDefect, line.words clean words]
    simp [line.clean clean]
  · intro sound
    simp only [CallDefect, not_or, not_not] at sound
    obtain ⟨clean, three, first⟩ := sound
    have line := lineOf_content clean (by omega)
    obtain ⟨w, target, version, words⟩ := List.length_eq_three.mp three
    rw [words] at lax first
    cases first
    exact ⟨_, target, version, line, lineContent_clean l, words, lax⟩

theorem codeLine_iff {l : List Byte} : CodeLine l ↔ ¬CodeDefect l := by
  constructor
  · rintro ⟨t, code, phrase, v, line, clean, words, decimal⟩
    simp only [CodeDefect, line.words clean words]
    simp only [line.clean clean, List.length_cons, List.length_nil, List.head?_cons, ne_eq,
      not_true_eq_false, List.getElem?_cons_succ, List.getElem?_cons_zero, false_or,
      Option.some.injEq]
    exact fun never => never code v rfl decimal
  · intro sound
    simp only [CodeDefect, not_or, not_not, not_forall] at sound
    obtain ⟨clean, three, first, code, v, second, decimal⟩ := sound
    have line := lineOf_content clean (by omega)
    obtain ⟨w, code', phrase, words⟩ := List.length_eq_three.mp three
    rw [words] at first second
    cases first
    cases second
    exact ⟨_, code, phrase, v, line, lineContent_clean l, words, decimal⟩

/-- A byte as it may be after `*ch = '\0'` went through a token that was never set: an `@` may be
    gone. -/
def Spared (b b' : Byte) : Prop := b' = b ∨ b = atSign ∧ b' = nul

theorem spared_set {mem : List Byte} {i : Nat} (here : mem[i]? = some atSign) :
    List.Forall₂ Spared mem (mem.set i nul) := by
  induction mem generalizing i with
  | nil => simp at here
  | cons b mem ih =>
      cases i with
      | zero =>
          cases here
          exact .cons (.inr ⟨rfl, rfl⟩) (List.forall₂_same.mpr fun _ _ => .inl rfl)
      | succ i => exact .cons (.inl rfl) (ih here)

theorem spared_refl (mem : List Byte) : List.Forall₂ Spared mem mem :=
  List.forall₂_same.mpr fun _ _ => .inl rfl

theorem spared_bare {l l' : List Byte} (spared : List.Forall₂ Spared l l') :
    List.Forall₂ Spared (bareLine l) (bareLine l') := by
  have length := spared.length_eq
  have last : l.getLast? = some carriage ↔ l'.getLast? = some carriage := by
    have reversed := List.forall₂_reverse_iff.mpr spared
    rw [List.getLast?_eq_head?_reverse, List.getLast?_eq_head?_reverse]
    generalize l.reverse = back at reversed
    generalize l'.reverse = back' at reversed
    cases reversed with
    | nil => rfl
    | cons head tail =>
        rcases head with rfl | ⟨rfl, rfl⟩
        · rfl
        · simp only [List.head?_cons, Option.some.injEq]
          decide
  simp only [bareLine, last, length]
  split
  · rw [List.dropLast_eq_take, List.dropLast_eq_take, length]
    exact List.forall₂_take _ spared
  · exact spared

theorem spared_content {l l' : List Byte} (spared : List.Forall₂ Spared l l') :
    lineContent l' = lineContent l ∨ ∃ more, lineContent l = lineContent l' ++ atSign :: more := by
  have bare := spared_bare spared
  unfold lineContent
  generalize bareLine l = b at bare
  generalize bareLine l' = b' at bare
  induction bare with
  | nil => exact .inl rfl
  | @cons x x' _ _ head tail ih =>
      rcases head with rfl | ⟨rfl, rfl⟩
      · by_cases ends : x' = nul
        · left
          rw [List.takeWhile_cons_of_neg (by simpa using ends),
            List.takeWhile_cons_of_neg (by simpa using ends)]
        · rw [List.takeWhile_cons_of_pos (by simpa using ends),
            List.takeWhile_cons_of_pos (by simpa using ends)]
          rcases ih with same | ⟨more, cut⟩
          · exact .inl (by rw [same])
          · exact .inr ⟨more, by rw [cut, List.cons_append]⟩
      · right
        rw [List.takeWhile_cons, List.takeWhile_cons, if_pos (by decide), if_neg (by decide)]
        exact ⟨_, rfl⟩

theorem spared_scan {label l l' : List Byte} (plain : atSign ∉ label)
    (spared : List.Forall₂ Spared l l') :
    scanLabel label (lineContent l') = scanLabel label (lineContent l) := by
  rcases spared_content spared with same | ⟨more, cut⟩
  · rw [same]
  · rw [cut]
    generalize lineContent l' = c
    by_cases labelled : label <+: c
    · have length := labelled.length_le
      rw [scanLabel, scanLabel, if_pos labelled, if_pos (labelled.trans (List.prefix_append ..)),
        List.drop_append_of_le_length length, scanInt, scanInt,
        scanNumber_stop (by decide) (by decide) (by decide) (by decide)]
    · have unlabelled : ¬label <+: c ++ atSign :: more := by
        intro longer
        rcases Nat.lt_or_ge c.length label.length with beyond | within
        · have byte := longer.getElem beyond
          rw [List.getElem_append_right (Nat.le_refl _)] at byte
          simp only [Nat.sub_self, List.getElem_cons_zero] at byte
          exact plain (byte ▸ List.getElem_mem beyond)
        · exact labelled (List.prefix_of_prefix_length_le longer (List.prefix_append ..) within)
      rw [scanLabel, scanLabel, if_neg labelled, if_neg unlabelled]

section Transfer

variable {R : Byte → Byte → Prop} (newlines : ∀ b b', R b b' → (b = newline ↔ b' = newline))

include newlines

theorem related_split {l rest s : List Byte}
    (related : List.Forall₂ R (l ++ newline :: rest) s) :
    ∃ l' rest', s = l' ++ newline :: rest' ∧ List.Forall₂ R l l' ∧ List.Forall₂ R rest rest' ∧
      (newline ∉ l → newline ∉ l') := by
  induction l generalizing s with
  | nil =>
      obtain ⟨b, rest', head, tail, rfl⟩ := List.forall₂_cons_left_iff.mp related
      obtain rfl : b = newline := (newlines _ _ head).mp rfl
      exact ⟨[], rest', rfl, .nil, tail, fun absent => absent⟩
  | cons x l ih =>
      obtain ⟨b, s, head, tail, rfl⟩ := List.forall₂_cons_left_iff.mp related
      obtain ⟨l', rest', rfl, front, behind, one⟩ := ih tail
      refine ⟨b :: l', rest', rfl, .cons head front, behind, fun absent => ?_⟩
      simp only [List.mem_cons, not_or] at absent ⊢
      exact ⟨fun same => absent.1 ((newlines _ _ head).mpr same.symm).symm, one absent.2⟩

theorem Rows.Scans.related
    (carriages : ∀ b b', R b b' → b = carriage → b' = carriage)
    (scan : ∀ label l l', atSign ∉ label → List.Forall₂ R l l' →
      scanLabel label (lineContent l') = scanLabel label (lineContent l))
    {r : Rows} {seq len : Int} (scans : r.Scans seq len) {s : List Byte}
    (related : List.Forall₂ R r.text s) : ∃ r' : Rows, s = r'.text ∧ r'.Scans seq len := by
  obtain ⟨l₁, s₁, rfl, first, rest₁, one₁⟩ := related_split newlines related
  obtain ⟨l₂, s₂, rfl, second, rest₂, one₂⟩ := related_split newlines rest₁
  obtain ⟨e, tail, rfl, third, -, -⟩ := related_split newlines rest₂
  refine ⟨⟨l₁, l₂, e, tail⟩, rfl, one₁ scans.seqOne, ?_, one₂ scans.lenOne, ?_, ?_⟩
  · rw [scan _ _ _ (by decide) first, scans.seq]
  · rw [scan _ _ _ (by decide) second, scans.len]
  · rcases scans.empty with empty | empty
    · rw [empty] at third
      cases third
      exact .inl rfl
    · rw [empty] at third
      obtain ⟨b, t, head, tail, rfl⟩ := List.forall₂_cons_left_iff.mp third
      cases tail
      exact .inr (by rw [carriages _ _ head rfl])

end Transfer

theorem spared_rows {seg seg' : List Byte} (spared : List.Forall₂ Spared seg seg') {seq len : Int} :
    (∃ r : Rows, seg = r.text ∧ r.Scans seq len) ↔ ∃ r : Rows, seg' = r.text ∧ r.Scans seq len := by
  constructor
  · rintro ⟨r, rfl, scans⟩
    refine scans.related ?_ ?_ (fun label l l' => spared_scan) spared
    · rintro b b' (rfl | ⟨rfl, rfl⟩)
      · rfl
      · decide
    · rintro b b' (rfl | ⟨rfl, rfl⟩)
      · exact id
      · decide
  · rintro ⟨r, rfl, scans⟩
    refine scans.related (R := flip Spared) ?_ ?_
      (fun label l l' plain related => (spared_scan plain related.flip).symm) spared.flip
    · rintro b b' (rfl | ⟨rfl, rfl⟩)
      · rfl
      · decide
    · rintro b b' (rfl | ⟨rfl, rfl⟩)
      · exact id
      · decide

/-- The window behind an accepted request line: what followed the line, an `@` missing perhaps. -/
theorem requestLine_behind {new req : RpcRequest} {stale : Nat → CharPtr}
    {pre first rest post : List Byte} {c : Window} (one : newline ∉ first)
    (accepted : requestLine new stale (.frame pre (first ++ newline :: rest) post) = (.ok req, c)) :
    ∃ pre' rest' post', c = .frame pre' rest' post' ∧ List.Forall₂ Spared rest rest' := by
  obtain ⟨mem, terminated, cut⟩ := firstLine_cut one pre rest post
  have moved : c.rcurr = pre.length + first.length + 1 ∧ c.rbytes = rest.length ∧
      List.Forall₂ Spared (pre ++ lineCut first ++ (rest ++ post)) c.rbuf := by
    simp only [requestLine, terminated, cut] at accepted
    repeat' split at accepted
    all_goals cases accepted
    rename_i target second _ ch found
    refine ⟨rfl, rfl, ?_⟩
    generalize tokenValue (List.map (Token.shift pre.length) (lineTokens first)) stale 1 = p at second
    obtain ⟨inside, here, -⟩ := List.findIdx?_eq_some_iff_getElem.mp found
    cases p with
    | null => cases second
    | wild => cases second
    | heap s => exact spared_refl _
    | rbuf off =>
        obtain ⟨front, behind, shape, rfl, -⟩ := cstring_split second
        apply spared_set
        rw [shape, List.append_assoc, List.getElem?_append_right (Nat.le_add_right ..),
          Nat.add_sub_cancel_left, List.getElem?_append_left inside, List.getElem?_eq_getElem inside]
        simpa using here
  obtain ⟨start, bytes, spared⟩ := moved
  have length := spared.length_eq
  simp only [List.length_append, lineCut_length] at length
  have inside : pre.length + first.length + 1 + rest.length ≤ c.rbuf.length := by omega
  obtain ⟨pre', post', shape, front⟩ := slice_split c.rbuf inside
  refine ⟨pre', slice c.rbuf (pre.length + first.length + 1) rest.length, post', ?_, ?_⟩
  · cases c
    simp only at start bytes shape length
    simp only [Window.frame, Window.mk.injEq]
    exact ⟨shape, by rw [start, front], by rw [bytes, slice_length (by omega)]⟩
  · have behind := List.forall₂_take rest.length
      (List.forall₂_drop (pre.length + first.length + 1) spared)
    have exact_rest : ((pre ++ lineCut first ++ (rest ++ post)).drop
        (pre.length + first.length + 1)).take rest.length = rest := by
      rw [List.drop_left' (by simp [lineCut_length]; omega), List.take_left]
    rwa [exact_rest] at behind

theorem parseRest_takes (old : Nat) (pre seg post : List Byte) :
    (parseRest old (.frame pre seg post)).1 ≠ .error ↔
      ∃ (seq len : Int) (r : Rows), seg = r.text ∧ r.Scans seq len := by
  constructor
  · intro accepted
    obtain ⟨r, seq, len, shape, scans⟩ := parseRest_accepts accepted
    exact ⟨seq, len, r, shape, scans⟩
  · rintro ⟨seq, len, r, rfl, scans⟩
    rw [parseRest_rows scans]
    split <;> simp

theorem rpcRequestParse_takes (new : RpcRequest) (stale : Nat → CharPtr) (c : Window) :
    (rpcRequestParse new stale c).1.Accepts ↔
      ∃ req c₁, requestLine new stale c = (.ok req, c₁) ∧ (parseRest req.inputLen c₁).1 ≠ .error := by
  unfold rpcRequestParse
  cases line : requestLine new stale c with
  | mk result c₁ =>
      cases result with
      | ok req =>
          simp only [Prod.mk.injEq, ParseResult.ok.injEq, and_assoc]
          cases parsed : parseRest req.inputLen c₁ with
          | mk rest c₂ => cases rest <;> simp [ParseResult.Accepts, parsed]
      | needData req => exact absurd line (requestLine_never_needData _ _ _ _ _)
      | error => simp [ParseResult.Accepts]
      | undefined => simp [ParseResult.Accepts]

theorem rpcResponseParse_takes (new : RpcResponse) (stale : Nat → CharPtr) (c : Window) :
    (rpcResponseParse new stale c).1.Accepts ↔
      ∃ rsp c₁, statusLine new stale c = (.ok rsp, c₁) ∧ (parseRest rsp.outputLen c₁).1 ≠ .error := by
  unfold rpcResponseParse
  cases line : statusLine new stale c with
  | mk result c₁ =>
      cases result with
      | ok rsp =>
          simp only [Prod.mk.injEq, ParseResult.ok.injEq, and_assoc]
          cases parsed : parseRest rsp.outputLen c₁ with
          | mk rest c₂ => cases rest <;> simp [ParseResult.Accepts, parsed]
      | needData rsp => exact absurd line (statusLine_never_needData _ _ _ _ _)
      | error => simp [ParseResult.Accepts]
      | undefined => simp [ParseResult.Accepts]

/-- The lines of a text as the scans see them, whatever the numbers are. -/
def Passes (Lax : List (List Byte) → Prop) (seg : List Byte) : Prop :=
  ∃ first r seq len, seg = first ++ newline :: Rows.text r ∧ LaxHead Lax first r seq len

/-- With the right words on the stack, all that passes the scans is accepted, and nothing else ever
    is. -/
theorem request_passes (pre seg post : List Byte) :
    (∃ new stale, (rpcRequestParse new stale (.frame pre seg post)).1.Accepts) ↔
      Passes LaxCall seg := by
  constructor
  · rintro ⟨new, stale, accepted⟩
    obtain ⟨req, c, line, rest⟩ := (rpcRequestParse_takes new stale _).mp accepted
    obtain ⟨first, behind, one, rfl⟩ : ∃ l rest, newline ∉ l ∧ seg = l ++ newline :: rest := by
      cases found : lineAt (.frame pre seg post) with
      | none =>
          rw [requestLine, found] at line
          cases line
      | some l => exact lineAt_split found
    obtain ⟨pre', behind', post', rfl, spared⟩ := requestLine_behind one line
    obtain ⟨seq, len, rows⟩ := (parseRest_takes _ _ _ _).mp rest
    obtain ⟨r, rfl, scans⟩ := (spared_rows spared).mpr rows
    obtain ⟨keyword, target, second, named⟩ :=
      (requestLine_accepts one stale pre r.text post new).mp ⟨_, _, line⟩
    refine ⟨first, r, seq, len, rfl, one, ?_, scans⟩
    generalize split : wordsOf (lineContent first) = ws
    simp only [wordAt, split] at keyword second
    rcases ws with _ | ⟨w₁, _ | ⟨w₂, _ | ⟨w₃, ws⟩⟩⟩
    · trivial
    · change w₁ = CALL
      simpa using keyword
    · simp only [List.getElem?_cons_succ, List.getElem?_cons_zero, Option.some.injEq] at keyword second
      exact ⟨by simpa using keyword, second ▸ named⟩
    · simp only [List.getElem?_cons_succ, List.getElem?_cons_zero, Option.some.injEq] at second
      exact second ▸ named
  · rintro ⟨first, r, seq, len, rfl, one, lax, scans⟩
    let stale : Nat → CharPtr := fun i => .heap (if i = 0 then CALL else [atSign])
    refine ⟨.zeroed, stale, (rpcRequestParse_takes _ _ _).mpr ?_⟩
    obtain ⟨req, c, line⟩ := (requestLine_accepts one stale pre r.text post .zeroed).mpr (by
      generalize split : wordsOf (lineContent first) = ws at lax
      simp only [wordAt, split]
      rcases ws with _ | ⟨w₁, _ | ⟨w₂, _ | ⟨w₃, ws⟩⟩⟩
      · exact ⟨.inr rfl, _, rfl, by simp⟩
      · exact ⟨.inr (congrArg some lax), _, rfl, by simp⟩
      · exact ⟨.inr (congrArg some lax.1), _, rfl, lax.2⟩
      · exact ⟨.inl (by simp), _, rfl, lax⟩)
    refine ⟨req, c, line, ?_⟩
    obtain ⟨pre', behind', post', rfl, spared⟩ := requestLine_behind one line
    exact (parseRest_takes _ _ _ _).mpr ⟨seq, len, (spared_rows spared).mp ⟨r, rfl, scans⟩⟩

theorem statusLine_behind {new rsp : RpcResponse} {stale : Nat → CharPtr}
    {pre first rest post : List Byte} {c : Window} (one : newline ∉ first)
    (accepted : statusLine new stale (.frame pre (first ++ newline :: rest) post) = (.ok rsp, c)) :
    c = .frame (pre ++ lineCut first) rest post := by
  obtain ⟨mem, terminated, cut⟩ := firstLine_cut one pre rest post
  simp only [statusLine, terminated, cut] at accepted
  repeat' split at accepted
  all_goals cases accepted
  simp only [Window.frame, List.append_assoc, List.length_append, lineCut_length, Nat.add_assoc]

theorem response_passes (pre seg post : List Byte) :
    (∃ new stale, (rpcResponseParse new stale (.frame pre seg post)).1.Accepts) ↔
      Passes LaxCode seg := by
  constructor
  · rintro ⟨new, stale, accepted⟩
    obtain ⟨rsp, c, line, rest⟩ := (rpcResponseParse_takes new stale _).mp accepted
    obtain ⟨first, behind, one, rfl⟩ : ∃ l rest, newline ∉ l ∧ seg = l ++ newline :: rest := by
      cases found : lineAt (.frame pre seg post) with
      | none =>
          rw [statusLine, found] at line
          cases line
      | some l => exact lineAt_split found
    obtain rfl := statusLine_behind one line
    obtain ⟨seq, len, r, rfl, scans⟩ := (parseRest_takes _ _ _ _).mp rest
    obtain ⟨keyword, code, second⟩ :=
      (statusLine_accepts one stale pre r.text post new).mp ⟨_, _, line⟩
    refine ⟨first, r, seq, len, rfl, one, ?_, scans⟩
    generalize split : wordsOf (lineContent first) = ws
    simp only [wordAt, split] at keyword
    rcases ws with _ | ⟨w₁, _ | ⟨w₂, _ | ⟨w₃, ws⟩⟩⟩
    · trivial
    · change w₁ = RPC_VERSION
      simpa using keyword
    · change w₁ = RPC_VERSION
      simpa using keyword
    · trivial
  · rintro ⟨first, r, seq, len, rfl, one, lax, scans⟩
    let stale : Nat → CharPtr := fun _ => .heap RPC_VERSION
    refine ⟨.zeroed, stale, (rpcResponseParse_takes _ _ _).mpr ?_⟩
    obtain ⟨rsp, c, line⟩ := (statusLine_accepts one stale pre r.text post .zeroed).mpr (by
      generalize split : wordsOf (lineContent first) = ws at lax
      simp only [wordAt, split]
      rcases ws with _ | ⟨w₁, _ | ⟨w₂, _ | ⟨w₃, ws⟩⟩⟩
      · exact ⟨.inr rfl, _, rfl⟩
      · exact ⟨.inr (congrArg some lax), _, rfl⟩
      · exact ⟨.inr (congrArg some lax), _, rfl⟩
      · exact ⟨.inl (by simp), _, rfl⟩)
    refine ⟨rsp, c, line, ?_⟩
    obtain rfl := statusLine_behind one line
    exact (parseRest_takes _ _ _ _).mpr ⟨seq, len, r, rfl, scans⟩

theorem BeginsHead.passes {First : List Byte → Prop} {seg : List Byte} (head : BeginsHead First seg) :
    ∃ (first : List Byte) (r : Rows) (seq len : Int), seg = first ++ newline :: r.text ∧
      newline ∉ first ∧ First first ∧ r.Scans seq len := by
  obtain ⟨first, r, seq, len, rfl, one, isFirst, seqOne, seqIs, lenOne, lenIs, -, empty⟩ := head
  refine ⟨first, r, seq, len, rfl, one, isFirst, seqOne, ?_, lenOne, ?_, empty.empty⟩
  · exact seqIs.scanned (by decide) (by decide)
  · exact lenIs.scanned (by decide) (by decide)

theorem BeginsHead.request_accepted {seg : List Byte} (head : BeginsHead CallLine seg)
    (new : RpcRequest) (stale : Nat → CharPtr) (pre post : List Byte) :
    (rpcRequestParse new stale (.frame pre seg post)).1.Accepts := by
  obtain ⟨first, r, seq, len, rfl, one, ⟨t, target, version, line, clean, words, named⟩, scans⟩ :=
    head.passes
  obtain ⟨spent, m, s, v, names⟩ := requestLine_names one (line.words clean words) named
  rw [rpcRequestParse_lines names scans]
  simp only
  split <;> trivial

theorem BeginsHead.response_accepted {seg : List Byte} (head : BeginsHead CodeLine seg)
    (new : RpcResponse) (stale : Nat → CharPtr) (pre post : List Byte) :
    (rpcResponseParse new stale (.frame pre seg post)).1.Accepts := by
  obtain ⟨first, r, seq, len, rfl, one, ⟨t, code, phrase, v, line, clean, words, decimal⟩, scans⟩ :=
    head.passes
  obtain ⟨spent, p, names⟩ := statusLine_names one (line.words clean words)
  rw [rpcResponseParse_lines names scans]
  simp only
  split <;> trivial

theorem rows_unique {r r' : Rows} {seq len seq' len' : Int} (scans : r.Scans seq len)
    (scans' : r'.Scans seq' len') (same : r.text = r'.text) : r = r' := by
  obtain ⟨one, rest⟩ := newline_split scans.seqOne scans'.seqOne same
  obtain ⟨two, rest⟩ := newline_split scans.lenOne scans'.lenOne rest
  have single : ∀ {e : List Byte}, e = [] ∨ e = [carriage] → newline ∉ e := by
    rintro e (rfl | rfl) <;> decide
  obtain ⟨three, four⟩ := newline_split (single scans.empty) (single scans'.empty) rest
  cases r
  cases r'
  simp only at one two three four
  rw [one, two, three, four]

/-- What passes the scans is a head of the protocol exactly when it has none of the defects. -/
theorem beginsHead_iff {Lax : List (List Byte) → Prop} {First Defect : List Byte → Prop}
    (sound : ∀ l, Lax (wordsOf (lineContent l)) → (First l ↔ ¬Defect l)) {seg : List Byte}
    (passes : Passes Lax seg) : BeginsHead First seg ↔ ¬LooseHead Lax Defect seg := by
  constructor
  · rintro head ⟨first, r, seq, len, rfl, lax, defect⟩
    obtain ⟨first', r', seq', len', same, one, isFirst, seqOne, seqIs, lenOne, lenIs, positive,
      empty⟩ := head
    have seqScan := seqIs.scanned (by decide) (by decide)
    have lenScan := lenIs.scanned (by decide) (by decide)
    obtain ⟨rfl, rows⟩ := newline_split lax.one one same
    obtain rfl := rows_unique lax.scans ⟨seqOne, seqScan, lenOne, lenScan, empty.empty⟩ rows
    rcases defect with defect | noSeq | noLen | negative
    · exact (sound _ lax.words).mp isFirst defect
    · exact noSeq _ seqIs
    · exact noLen _ lenIs
    · rw [lax.scans.len] at lenScan
      cases lenScan
      omega
  · intro tight
    obtain ⟨first, r, seq, len, rfl, lax⟩ := passes
    have plain : ¬(Defect first ∨ (∀ v, ¬NumberText seqLabel r.seqLine v) ∨
        (∀ v, ¬NumberText bodyLenLabel r.lenLine v) ∨ len < 0) :=
      fun defect => tight ⟨first, r, seq, len, rfl, lax, defect⟩
    simp only [not_or, not_forall, not_not] at plain
    obtain ⟨noDefect, ⟨v, seqIs⟩, ⟨n, lenIs⟩, positive⟩ := plain
    have lenScan := lenIs.scanned (by decide) (by decide)
    rw [lax.scans.len] at lenScan
    cases lenScan
    exact ⟨first, r, v, len, rfl, lax.one, (sound _ lax.words).mpr noDefect, lax.scans.seqOne, seqIs,
      lax.scans.lenOne, lenIs, by omega, lineOf_nil lax.scans.empty⟩

/-- A window is accepted exactly as a head of the protocol, whatever the new object and the stack hold,
    if and only if it does not merely pass the scans. -/
theorem rpcParse_exact (w : Window) (inside : w.Inside) :
    ((∀ new stale, (rpcRequestParse new stale w).1.Accepts ↔ BeginsHead CallLine w.unread) ↔
      ¬LooseHead LaxCall CallDefect w.unread) ∧
    ((∀ new stale, (rpcResponseParse new stale w).1.Accepts ↔ BeginsHead CodeLine w.unread) ↔
      ¬LooseHead LaxCode CodeDefect w.unread) := by
  obtain ⟨pre, post, frame⟩ := Window.eq_frame inside
  generalize w.unread = seg at frame ⊢
  subst frame
  have loosePasses : ∀ {Lax Defect}, LooseHead Lax Defect seg → Passes Lax seg := by
    rintro Lax Defect ⟨first, r, seq, len, shape, lax, -⟩
    exact ⟨first, r, seq, len, shape, lax⟩
  constructor
  · constructor
    · intro exactly loose
      obtain ⟨new, stale, accepted⟩ := (request_passes pre seg post).mpr (loosePasses loose)
      exact (beginsHead_iff (fun l => callLine_iff) (loosePasses loose)).mp
        ((exactly new stale).mp accepted) loose
    · intro tight new stale
      refine ⟨fun accepted => ?_, fun head => head.request_accepted new stale pre post⟩
      have passes := (request_passes pre seg post).mp ⟨new, stale, accepted⟩
      exact (beginsHead_iff (fun l => callLine_iff) passes).mpr tight
  · constructor
    · intro exactly loose
      obtain ⟨new, stale, accepted⟩ := (response_passes pre seg post).mpr (loosePasses loose)
      exact (beginsHead_iff (fun l _ => codeLine_iff) (loosePasses loose)).mp
        ((exactly new stale).mp accepted) loose
    · intro tight new stale
      refine ⟨fun accepted => ?_, fun head => head.response_accepted new stale pre post⟩
      have passes := (response_passes pre seg post).mp ⟨new, stale, accepted⟩
      exact (beginsHead_iff (fun l _ => codeLine_iff) passes).mpr tight

/-- The call of `m@s` with a body of one byte, as its caller prints it. -/
theorem rpcParse_exact_small :
    let w : Window := .frame [] smallText []
    BeginsHead CallLine w.unread ∧ (rpcRequestParse .zeroed (fun _ => .wild) w).1.Accepts := by
  intro w
  let first := wordsText CALL (text ['m'] ++ atSign :: text ['s']) RPC_VERSION
  let r : Rows := ⟨seqLabel ++ intText 4, bodyLenLabel ++ intText 1, [], [7]⟩
  have plain : ∀ d : Byte, isDigit d = true → InInt32 (digitsValue [d]) →
      DecimalText [d] (digitsValue [d]) :=
    fun d digit fits => ⟨fits, [d], by simp, by simpa using digit, .inl ⟨rfl, rfl⟩⟩
  have unread : w.unread = smallText := Window.frame_unread ..
  have head : BeginsHead CallLine w.unread := by
    rw [unread]
    refine ⟨first, r, _, _, rfl, by decide, ?_, by decide,
      ⟨[52], .inl ⟨rfl, by decide⟩, plain 52 rfl (by decide)⟩, by decide,
      ⟨[49], .inl ⟨rfl, by decide⟩, plain 49 rfl (by decide)⟩, by decide,
      .inl ⟨rfl, by simp⟩⟩
    exact ⟨first, text ['m'] ++ atSign :: text ['s'], RPC_VERSION, .inl ⟨rfl, by decide⟩,
      by decide, by decide, by decide⟩
  have passes : Passes LaxCall w.unread := by
    rw [unread] at head ⊢
    exact (request_passes [] smallText []).mp ⟨.zeroed, fun _ => .wild, head.request_accepted ..⟩
  have tight := (beginsHead_iff (fun l => callLine_iff) passes).mp head
  have exactly := (rpcParse_exact w (Window.frame_inside [] smallText [])).1.mpr tight
  refine ⟨head, ?_⟩
  rw [exactly]
  exact head

/-- Any word of four letters will do for `CALL`. -/
def wrongKeyword : List Byte :=
  text ['X', 'A', 'L', 'L', ' ', 'm', '@', 's', ' ', 'R', 'P', 'C', '/', '1', '.', '0'] ++ newline ::
    restText 4 0

theorem rpcParse_exact_fails :
    (rpcRequestParse .zeroed (fun _ => .wild) (.frame [] wrongKeyword [])).1.Accepts ∧
      ¬BeginsHead CallLine (Window.frame [] wrongKeyword []).unread := by
  constructor
  · decide
  · intro head
    obtain ⟨first, r, seq, len, same, one, isFirst, -⟩ := head.passes
    rw [Window.frame_unread] at same
    obtain ⟨rfl, -⟩ := newline_split (by decide) one same
    obtain ⟨t, target, version, line, clean, words, -⟩ := isFirst
    have keyword := congrArg List.head? (line.words clean words)
    rw [List.head?_cons] at keyword
    revert keyword
    decide

end OpenRpc
