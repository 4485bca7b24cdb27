import OpenRpc.Common

/-! # The unread window and the lines of a head

Both parsers take a head apart line by line from the part of `rbuf` that is still unread, and both
destroy it as they go: each line they look at is ended by a NUL in place. What the two share is
stated once here, over any window: the line step, the two numbered lines, and the empty line with the
body behind it. The first line, which differs, is in `Request` and `Response`.
-/

namespace OpenRpc

open Memory Decimal

/-- A `char*` of a request or response: NULL, a pointer that cannot be read, a position in the
    connection's `rbuf`, or a string of its own (`strdup`, a caller's string). -/
inductive CharPtr where
  | null
  | wild
  | rbuf (off : Nat)
  | heap (s : List Byte)
  deriving Repr, DecidableEq

/-- The C string behind a pointer. -/
def CharPtr.read (mem : List Byte) : CharPtr → Option (List Byte)
  | .rbuf off => cstring mem off
  | .heap s => some s
  | .null | .wild => none

/-- The `len` bytes behind a pointer that is not read as a string. -/
def CharPtr.bytes (mem : List Byte) (len : Nat) : CharPtr → List Byte
  | .rbuf off => slice mem off len
  | .heap s => s.take len
  | .null | .wild => []

/-- `*(p + i) = '\0'` on a readable string: the memory after it, and the two halves. -/
def CharPtr.cut (mem : List Byte) (i : Nat) : CharPtr → List Byte × CharPtr × CharPtr
  | .rbuf off => (mem.set (off + i) nul, .rbuf off, .rbuf (off + i + 1))
  | .heap s => (mem, .heap (s.take i), .heap (s.drop (i + 1)))
  | p => (mem, p, p)

/-- `rbuf`, `rcurr` and `rbytes` of a connection. -/
structure Window where
  rbuf : List Byte
  rcurr : Nat
  rbytes : Nat
  deriving Repr, DecidableEq

namespace Window

/-- The bytes the parsers may look at. -/
def unread (w : Window) : List Byte := slice w.rbuf w.rcurr w.rbytes

def Inside (w : Window) : Prop := w.rcurr + w.rbytes ≤ w.rbuf.length

instance (w : Window) : Decidable w.Inside := inferInstanceAs (Decidable (_ ≤ _))

/-- The window on `seg` in a buffer with `pre` before it and `post` behind it. -/
abbrev frame (pre seg post : List Byte) : Window := ⟨pre ++ seg ++ post, pre.length, seg.length⟩

theorem frame_unread (pre seg post : List Byte) : (frame pre seg post).unread = seg :=
  slice_append pre seg post

theorem frame_inside (pre seg post : List Byte) : (frame pre seg post).Inside := by
  simp [Inside]

theorem eq_frame {w : Window} (inside : w.Inside) :
    ∃ pre post, w = frame pre w.unread post := by
  obtain ⟨pre, post, memory, start⟩ := slice_split w.rbuf inside
  refine ⟨pre, post, ?_⟩
  have len : w.unread.length = w.rbytes := slice_length inside
  cases w
  simp only [frame, unread, mk.injEq] at *
  exact ⟨memory, start.symm, len.symm⟩

end Window

/-- One line taken from a window: the memory with the line ended by NUL, and `cont` and `avail` as the
    parsers compute them. The line itself starts where the window does. -/
structure Line where
  rbuf : List Byte
  cont : Nat
  avail : Nat
  deriving Repr, DecidableEq

def Line.window (l : Line) : Window := ⟨l.rbuf, l.cont, l.avail⟩

/-- `memchr(c->rcurr, '\n', avail)`, the carriage return before it, and `*el = '\0'`. -/
def lineAt (c : Window) : Option Line :=
  match memchr c.rbuf c.rcurr newline c.rbytes with
  | none => none
  | some el =>
      let el' := if el - c.rcurr > 1 ∧ c.rbuf[el - 1]? = some carriage then el - 1 else el
      some ⟨c.rbuf.set el' nul, el + 1, c.rbytes - (el + 1 - c.rcurr)⟩

/-- `sscanf(line, "label%d", &v) == 1`. -/
def scanLabel (label line : List Byte) : Option Int :=
  if label <+: line then scanInt (line.drop label.length) else none

/-- The `//seq` and `//body len` sections: a line that must scan as its label and an `int`. Once there
    is a line the window moves behind it, whether or not it scans. -/
def numberLine (label : List Byte) (c : Window) : Option Int × Window :=
  match lineAt c with
  | none => (none, c)
  | some line => ((cstring line.rbuf c.rcurr).bind (scanLabel label), line.window)

def seqLabel : List Byte := text ['s', 'e', 'q', ':']
def bodyLenLabel : List Byte := text ['b', 'o', 'd', 'y', '-', 'l', 'e', 'n', ':']

theorem seqLabel_plain : ∀ b ∈ seqLabel, b ≠ newline ∧ b ≠ nul := by decide +kernel

theorem bodyLenLabel_plain : ∀ b ∈ bodyLenLabel, b ≠ newline ∧ b ≠ nul := by decide +kernel

/-- `sscanf` stores an `int` where a `size_t` is: only the low 32 bits are written. -/
def storeInt (old : Nat) (v : Int) : Nat :=
  old / 4294967296 * 4294967296 + (v % 4294967296).toNat

/-- How the sections behind the first line end: the `seq` and length read and, when the whole body is
    there, where it starts. -/
inductive Rest where
  | ok (seq : Int) (len body : Nat)
  | needData (seq : Int) (len : Nat)
  | error
  deriving Repr, DecidableEq

/-- The `//new line` section: an empty line, then `len` bytes of body if they are there. -/
def bodyLine (seq : Int) (len : Nat) (c : Window) : Rest × Window :=
  match memchr c.rbuf c.rcurr newline c.rbytes with
  | none => (.error, c)
  | some el =>
      let cont := el + 1
      let avail := c.rbytes - (cont - c.rcurr)
      if el = c.rcurr ∨ (el - c.rcurr = 1 ∧ c.rbuf[el - 1]? = some carriage) then
        if len ≤ avail then (.ok seq len cont, ⟨c.rbuf, cont + len, avail - len⟩)
        else (.needData seq len, ⟨c.rbuf, cont, avail⟩)
      else (.error, c)

/-- The sections `//seq`, `//body len` and `//new line`, for an object whose length field holds `old`
    before it is scanned. -/
def parseRest (old : Nat) (c : Window) : Rest × Window :=
  match numberLine seqLabel c with
  | (none, c) => (.error, c)
  | (some seq, c) =>
      match numberLine bodyLenLabel c with
      | (none, c) => (.error, c)
      | (some n, c) => bodyLine seq (storeInt old n) c

/-- The text of the sections `parseRest` reads, body left out. -/
def restText (seq len : Int) : List Byte :=
  seqLabel ++ intText seq ++ newline :: (bodyLenLabel ++ intText len ++ [newline, newline])

/-- A line without the carriage return that ends it. -/
def bareLine (line : List Byte) : List Byte :=
  if 1 < line.length ∧ line.getLast? = some carriage then line.dropLast else line

/-- A line, its newline included, as the parsers leave it. -/
def spentLine (line : List Byte) : List Byte :=
  bareLine line ++ nul :: if 1 < line.length ∧ line.getLast? = some carriage then [newline] else []

/-- The string that starts where a line did. -/
def lineContent (line : List Byte) : List Byte := (bareLine line).takeWhile (· != nul)

theorem bareLine_uncut {line : List Byte} (uncut : line.getLast? ≠ some carriage) :
    bareLine line = line := if_neg fun ends => uncut ends.2

theorem spentLine_uncut {line : List Byte} (uncut : line.getLast? ≠ some carriage) :
    spentLine line = line ++ [nul] := by
  rw [spentLine, bareLine_uncut uncut, if_neg fun ends => uncut ends.2]

theorem spentLine_length (line : List Byte) : (spentLine line).length = line.length + 1 := by
  simp only [spentLine, bareLine]
  split
  · rename_i ends
    simp only [List.length_append, List.length_dropLast, List.length_cons, List.length_nil]
    omega
  · simp

theorem lineAt_line (pre line rest post : List Byte) (one : newline ∉ line) :
    lineAt (.frame pre (line ++ newline :: rest) post) =
      some ⟨pre ++ spentLine line ++ rest ++ post, pre.length + line.length + 1, rest.length⟩ := by
  have found : memchr (pre ++ (line ++ newline :: rest) ++ post) pre.length newline
      (line ++ newline :: rest).length = some (pre.length + line.length) := by
    have raw := memchr_found pre line rest post newline one
    rwa [show line.length + 1 + rest.length = (line ++ newline :: rest).length by simp; omega] at raw
  have before : 0 < line.length →
      (pre ++ (line ++ newline :: rest) ++ post)[pre.length + line.length - 1]? = line.getLast? := by
    intro long
    rw [List.append_assoc, List.append_assoc, List.getElem?_append_right (by omega),
      List.getElem?_append_left (by omega), List.getLast?_eq_getElem?]
    congr 1
    omega
  have remaining : (line ++ newline :: rest).length - (pre.length + line.length + 1 - pre.length) =
      rest.length := by
    simp only [List.length_append, List.length_cons]
    omega
  simp only [lineAt, found]
  rw [remaining, spentLine, bareLine]
  by_cases ends : 1 < line.length ∧ line.getLast? = some carriage
  · obtain ⟨long, last⟩ := ends
    rw [if_pos ⟨by omega, by rw [before (by omega), last]⟩, if_pos ⟨long, last⟩, if_pos ⟨long, last⟩]
    have split : line = line.dropLast ++ [carriage] := (List.dropLast_append_getLast? _ last).symm
    have length := congrArg List.length split
    rw [List.length_append, List.length_singleton] at length
    rw [set_at nul (show pre ++ (line ++ newline :: rest) ++ post =
        (pre ++ line.dropLast) ++ carriage :: (newline :: rest ++ post) by
          conv_lhs => rw [split]
          simp) (by rw [List.length_append]; omega)]
    simp
  · rw [if_neg, if_neg ends, if_neg ends]
    · rw [set_at nul (show pre ++ (line ++ newline :: rest) ++ post =
          (pre ++ line) ++ newline :: (rest ++ post) by simp) (by simp)]
      simp
    · rintro ⟨long, last⟩
      rw [before (by omega)] at last
      exact ends ⟨by omega, last⟩

theorem lineAt_frame (pre line rest post : List Byte) (one : newline ∉ line)
    (uncut : line.getLast? ≠ some carriage) :
    lineAt (.frame pre (line ++ newline :: rest) post) =
      some ⟨pre ++ (line ++ nul :: rest) ++ post, pre.length + line.length + 1, rest.length⟩ := by
  rw [lineAt_line pre line rest post one, spentLine_uncut uncut]
  simp

/-- A byte of a word of a first line: it neither separates words nor ends the line. -/
def NameByte (b : Byte) : Prop := b ≠ blank ∧ b ≠ newline ∧ b ≠ nul

instance (b : Byte) : Decidable (NameByte b) := inferInstanceAs (Decidable (_ ∧ _))

theorem NameByte.word {b : Byte} (h : NameByte b) : WordByte b := ⟨h.1, h.2.2⟩

/-- Three words with a blank between them. -/
def wordsText (w₁ w₂ w₃ : List Byte) : List Byte := w₁ ++ blank :: (w₂ ++ blank :: w₃)

/-- `wordsText` once it has been tokenized in place, with the NUL behind it. -/
def wordsSpent (w₁ w₂ w₃ : List Byte) : List Byte := w₁ ++ nul :: (w₂ ++ nul :: (w₃ ++ [nul]))

theorem wordsSpent_length (w₁ w₂ w₃ : List Byte) :
    (wordsSpent w₁ w₂ w₃).length = (wordsText w₁ w₂ w₃).length + 1 := by
  simp [wordsSpent, wordsText, Nat.add_assoc]

structure Words (w₁ w₂ w₃ : List Byte) : Prop where
  plain₁ : ∀ b ∈ w₁, NameByte b
  plain₂ : ∀ b ∈ w₂, NameByte b
  plain₃ : ∀ b ∈ w₃, NameByte b
  ne₁ : w₁ ≠ []
  ne₂ : w₂ ≠ []
  ne₃ : w₃ ≠ []
  uncut : w₃.getLast? ≠ some carriage

theorem words_frame {w₁ w₂ w₃ : List Byte} (words : Words w₁ w₂ w₃) (pre rest post : List Byte) :
    ∃ mem, lineAt (.frame pre (wordsText w₁ w₂ w₃ ++ newline :: rest) post) =
        some ⟨mem, (pre ++ wordsSpent w₁ w₂ w₃).length, rest.length⟩ ∧
      tokenizeCommand mem pre.length 3 =
        ([⟨pre.length, w₁.length⟩, ⟨pre.length + w₁.length + 1, w₂.length⟩,
            ⟨pre.length + w₁.length + 1 + w₂.length + 1, w₃.length⟩],
          pre ++ wordsSpent w₁ w₂ w₃ ++ rest ++ post) := by
  have oneLine : newline ∉ wordsText w₁ w₂ w₃ := by
    intro member
    simp only [wordsText, List.mem_append, List.mem_cons] at member
    rcases member with h | h | h | h | h
    · exact (words.plain₁ _ h).2.1 rfl
    · revert h; decide
    · exact (words.plain₂ _ h).2.1 rfl
    · revert h; decide
    · exact (words.plain₃ _ h).2.1 rfl
  have uncut : (wordsText w₁ w₂ w₃).getLast? ≠ some carriage := by
    have split : wordsText w₁ w₂ w₃ = (w₁ ++ blank :: (w₂ ++ [blank])) ++ w₃ := by simp [wordsText]
    rw [split, List.getLast?_append_of_ne_nil _ words.ne₃]
    exact words.uncut
  refine ⟨pre ++ (wordsText w₁ w₂ w₃ ++ nul :: rest) ++ post, ?_, ?_⟩
  · rw [lineAt_frame pre _ rest post oneLine uncut, List.length_append, wordsSpent_length,
      Nat.add_assoc]
  · have layout : pre ++ (wordsText w₁ w₂ w₃ ++ nul :: rest) ++ post =
        pre ++ (w₁ ++ blank :: (w₂ ++ blank :: (w₃ ++ nul :: (rest ++ post)))) := by
      simp [wordsText]
    rw [layout, tokenizeCommand_three pre w₁ w₂ w₃ (rest ++ post)
      (fun b h => (words.plain₁ b h).word) (fun b h => (words.plain₂ b h).word)
      (fun b h => (words.plain₃ b h).word) words.ne₁ words.ne₂ words.ne₃]
    simp [wordsSpent]

theorem wordsSpent_strings {w₁ w₂ w₃ : List Byte} (words : Words w₁ w₂ w₃) (pre tail : List Byte) :
    cstring (pre ++ wordsSpent w₁ w₂ w₃ ++ tail) pre.length = some w₁ ∧
    cstring (pre ++ wordsSpent w₁ w₂ w₃ ++ tail) (pre.length + w₁.length + 1) = some w₂ ∧
    cstring (pre ++ wordsSpent w₁ w₂ w₃ ++ tail) (pre.length + w₁.length + 1 + w₂.length + 1) =
      some w₃ := by
  have first := cstring_terminated pre w₁ (w₂ ++ nul :: (w₃ ++ nul :: tail))
    fun h => (words.plain₁ _ h).2.2 rfl
  have second := cstring_terminated (pre ++ (w₁ ++ [nul])) w₂ (w₃ ++ nul :: tail)
    fun h => (words.plain₂ _ h).2.2 rfl
  have third := cstring_terminated (pre ++ (w₁ ++ nul :: (w₂ ++ [nul]))) w₃ tail
    fun h => (words.plain₃ _ h).2.2 rfl
  refine ⟨?_, ?_, ?_⟩
  · simpa [wordsSpent] using first
  · simpa [wordsSpent, Nat.add_assoc] using second
  · simpa [wordsSpent, Nat.add_assoc, Nat.add_comm, Nat.add_left_comm] using third

theorem numberLine_line (label pre line rest post : List Byte) (one : newline ∉ line) :
    numberLine label (.frame pre (line ++ newline :: rest) post) =
      (scanLabel label (lineContent line), .frame (pre ++ spentLine line) rest post) := by
  have content : cstring (pre ++ spentLine line ++ rest ++ post) pre.length =
      some (lineContent line) := by
    have behind : (pre ++ spentLine line ++ rest ++ post).drop pre.length =
        spentLine line ++ (rest ++ post) := by simp
    have ends : nul ∈ spentLine line ++ (rest ++ post) := by simp [spentLine]
    rw [cstring, behind, if_pos ends, lineContent, spentLine, List.append_assoc, List.cons_append,
      List.takeWhile_append]
    split
    · rename_i whole
      rw [List.takeWhile_cons_of_neg (by simp), List.append_nil]
      exact congrArg some ((List.takeWhile_prefix _).eq_of_length whole).symm
    · rfl
  simp only [numberLine, lineAt_line pre line rest post one]
  rw [content, Option.bind_some]
  simp only [Line.window, Window.frame, List.length_append, spentLine_length, Nat.add_assoc]

theorem label_uncut (label : List Byte) (v : Int) : (label ++ intText v).getLast? ≠ some carriage := by
  rw [List.getLast?_append_of_ne_nil _ (intText_ne_nil v)]
  intro last
  exact intText_avoids (by decide) (by decide) (List.mem_of_getLast? last)

theorem scanLabel_intText {label : List Byte} {v : Int} (fits : InInt32 v) (clean : nul ∉ label) :
    scanLabel label (lineContent (label ++ intText v)) = some v := by
  have noNul : nul ∉ label ++ intText v := by
    simp only [List.mem_append, not_or]
    exact ⟨clean, intText_avoids (by decide) (by decide)⟩
  have content : lineContent (label ++ intText v) = label ++ intText v := by
    rw [lineContent, bareLine_uncut (label_uncut label v), List.takeWhile_eq_self_iff]
    intro b member
    simpa using fun same : b = nul => noNul (same ▸ member)
  have read := scanInt_intText fits [] (by simp)
  rw [List.append_nil] at read
  simp [content, scanLabel, read]

theorem numberLine_frame (pre label rest post : List Byte) {v : Int} (fits : InInt32 v)
    (plain : ∀ b ∈ label, b ≠ newline ∧ b ≠ nul) :
    numberLine label (.frame pre (label ++ intText v ++ newline :: rest) post) =
      (some v, .frame (pre ++ (label ++ intText v ++ [nul])) rest post) := by
  have oneLine : newline ∉ label ++ intText v := by
    simp only [List.mem_append, not_or]
    exact ⟨fun h => (plain _ h).1 rfl, intText_avoids (by decide) (by decide)⟩
  have scanned := scanLabel_intText fits fun member => (plain _ member).2 rfl
  rw [numberLine_line label pre _ rest post oneLine, scanned, spentLine_uncut (label_uncut label v)]

/-- The upper half of what a `size_t` held before is still there. -/
theorem storeInt_toInt32 (old len : Nat) :
    storeInt old (toInt32 len) = old / 4294967296 * 4294967296 + len % 4294967296 := by
  simp only [storeInt, toInt32]
  omega

theorem storeInt_of_zero {old : Nat} {len : Nat} (zeroed : old < 4294967296)
    (fits : len ≤ 2147483647) : storeInt old len = len := by
  unfold storeInt
  omega

theorem bodyLine_frame (pre tail post : List Byte) (seq : Int) (len : Nat) :
    bodyLine seq len (.frame pre (newline :: tail) post) =
      if len ≤ tail.length then
        (.ok seq len (pre.length + 1),
          ⟨pre ++ [newline] ++ tail ++ post, pre.length + 1 + len, tail.length - len⟩)
      else (.needData seq len, .frame (pre ++ [newline]) tail post) := by
  have emptyLine : memchr (pre ++ newline :: tail ++ post) pre.length newline
      (newline :: tail).length = some pre.length := by
    have raw := memchr_found pre [] tail post newline (by simp)
    simpa [Nat.add_comm] using raw
  have remaining : (newline :: tail).length - (pre.length + 1 - pre.length) = tail.length := by
    simp
  have memory : pre ++ newline :: tail ++ post = pre ++ [newline] ++ tail ++ post := by simp
  simp only [bodyLine, Window.frame, emptyLine, true_or, if_true, remaining]
  simp only [memory, List.length_append, List.length_singleton]

/-- What `restText` looks like once the parsers have been over it. -/
def restSpent (seq len : Int) : List Byte :=
  (seqLabel ++ intText seq ++ [nul]) ++ (bodyLenLabel ++ intText len ++ [nul]) ++ [newline]

theorem restSpent_length (seq len : Int) :
    (restSpent seq len).length = (restText seq len).length := by
  simp only [restSpent, restText, List.length_append, List.length_cons, List.length_nil]
  omega

/-- On a printed rest of a head, everything behind the empty line is body or stays unread. -/
theorem parseRest_frame (pre tail post : List Byte) {seq len : Int} (old : Nat)
    (seqFits : InInt32 seq) (lenFits : InInt32 len) :
    parseRest old (.frame pre (restText seq len ++ tail) post) =
      if storeInt old len ≤ tail.length then
        (.ok seq (storeInt old len) (pre ++ restSpent seq len).length,
          ⟨pre ++ restSpent seq len ++ tail ++ post,
            (pre ++ restSpent seq len).length + storeInt old len, tail.length - storeInt old len⟩)
      else (.needData seq (storeInt old len), .frame (pre ++ restSpent seq len) tail post) := by
  let pre₁ := pre ++ (seqLabel ++ intText seq ++ [nul])
  let pre₂ := pre₁ ++ (bodyLenLabel ++ intText len ++ [nul])
  have opened : restText seq len ++ tail = seqLabel ++ intText seq ++ newline ::
      (bodyLenLabel ++ intText len ++ newline :: newline :: tail) := by
    simp [restText]
  have first := numberLine_frame pre seqLabel
    (bodyLenLabel ++ intText len ++ newline :: newline :: tail) post seqFits seqLabel_plain
  have second := numberLine_frame pre₁ bodyLenLabel (newline :: tail) post lenFits bodyLenLabel_plain
  have spent : pre₂ ++ [newline] = pre ++ restSpent seq len := by
    simp only [pre₂, pre₁, restSpent, List.append_assoc]
  have start : pre₂.length + 1 = (pre ++ restSpent seq len).length := by
    simp [← spent]
  rw [parseRest, opened, first]
  simp only
  rw [second]
  simp only
  rw [bodyLine_frame pre₂ tail post seq, spent, start]

theorem lineAt_avail {c : Window} {line : Line} (h : lineAt c = some line) :
    line.avail < c.rbytes := by
  have some_bytes : 0 < c.rbytes := by
    rcases Nat.eq_zero_or_pos c.rbytes with empty | some_bytes
    · rw [lineAt, empty] at h
      simp [memchr, slice] at h
    · exact some_bytes
  unfold lineAt at h
  split at h
  · cases h
  · rename_i el found
    cases h
    simp only [memchr, Option.map_eq_some_iff] at found
    obtain ⟨i, -, rfl⟩ := found
    simp only
    omega

theorem numberLine_rbytes (label : List Byte) (c : Window) :
    (numberLine label c).2.rbytes ≤ c.rbytes := by
  unfold numberLine
  split
  · exact Nat.le_refl _
  · rename_i line found
    exact Nat.le_of_lt (lineAt_avail found)

theorem bodyLine_rbytes (seq : Int) (len : Nat) (c : Window) :
    (bodyLine seq len c).2.rbytes ≤ c.rbytes := by
  simp only [bodyLine]
  split
  · exact Nat.le_refl _
  · split
    · split <;> simp only <;> omega
    · exact Nat.le_refl _

theorem parseRest_rbytes (old : Nat) (c : Window) : (parseRest old c).2.rbytes ≤ c.rbytes := by
  have first := numberLine_rbytes seqLabel c
  unfold parseRest
  split
  · rename_i c₁ seqLine
    rwa [seqLine] at first
  · rename_i seq c₁ seqLine
    have second := numberLine_rbytes bodyLenLabel c₁
    rw [seqLine] at first
    split
    · rename_i c₂ lenLine
      rw [lenLine] at second
      exact Nat.le_trans second first
    · rename_i len c₂ lenLine
      rw [lenLine] at second
      exact Nat.le_trans (bodyLine_rbytes seq _ c₂) (Nat.le_trans second first)

theorem lineAt_nulled {c : Window} {line : Line} (h : lineAt c = some line) :
    Nulled c.rbuf line.rbuf := by
  unfold lineAt at h
  split at h
  · cases h
  · cases h
    exact nulled_set ..

theorem numberLine_nulled (label : List Byte) (c : Window) :
    Nulled c.rbuf (numberLine label c).2.rbuf := by
  unfold numberLine
  split
  · exact .refl _
  · rename_i line found
    exact lineAt_nulled found

theorem parseRest_nulled (old : Nat) (c : Window) : Nulled c.rbuf (parseRest old c).2.rbuf := by
  have first := numberLine_nulled seqLabel c
  have last : ∀ seq len c, (bodyLine seq len c).2.rbuf = c.rbuf := by
    intro seq len c
    simp only [bodyLine]
    repeat' split
    all_goals rfl
  unfold parseRest
  split
  · rename_i c₁ seqLine
    rwa [seqLine] at first
  · rename_i seq c₁ seqLine
    have second := numberLine_nulled bodyLenLabel c₁
    rw [seqLine] at first
    split
    · rename_i c₂ lenLine
      rw [lenLine] at second
      exact first.trans second
    · rename_i len c₂ lenLine
      rw [lenLine] at second
      rw [last]
      exact first.trans second

/-- A parser went from the first window to the second: it wrote inside the first, and the second lies
    in it. -/
structure Window.Within (c c' : Window) : Prop where
  memory : SameOutside c.rcurr (c.rcurr + c.rbytes) c.rbuf c'.rbuf
  start : c.rcurr ≤ c'.rcurr
  stop : c'.rcurr + c'.rbytes ≤ c.rcurr + c.rbytes

namespace Window.Within

theorem refl (c : Window) : c.Within c := ⟨.refl _ _ _, Nat.le_refl _, Nat.le_refl _⟩

theorem trans {c c' c'' : Window} (first : c.Within c') (second : c'.Within c'') : c.Within c'' :=
  ⟨first.memory.trans (second.memory.mono first.start first.stop), Nat.le_trans first.start second.start,
    Nat.le_trans second.stop first.stop⟩

end Window.Within

section Within

variable {c : Window}

/-- A line is ended by a terminator inside the window, which moves behind it. -/
theorem lineAt_within {line : Line} (found : lineAt c = some line) :
    c.Within line.window ∧ ∃ k, k < c.rbytes ∧ (line.rbuf.drop c.rcurr)[k]? = some nul := by
  unfold lineAt at found
  split at found
  · cases found
  · rename_i el here
    obtain ⟨left, right, inside⟩ := memchr_inside here
    cases found
    let stop := if el - c.rcurr > 1 ∧ c.rbuf[el - 1]? = some carriage then el - 1 else el
    have before : c.rcurr ≤ stop ∧ stop ≤ el := by
      unfold stop
      split <;> omega
    refine ⟨⟨.set c.rbuf nul before.1 (by omega), ?_, ?_⟩, stop - c.rcurr, by omega, ?_⟩
    · simp only [Line.window]
      omega
    · simp only [Line.window]
      omega
    · rw [List.getElem?_drop, Nat.add_sub_cancel' before.1]
      exact List.getElem?_set_self (by omega)

theorem numberLine_within (label : List Byte) : c.Within (numberLine label c).2 := by
  unfold numberLine
  split
  · exact .refl c
  · rename_i line found
    exact (lineAt_within found).1

theorem bodyLine_within (seq : Int) (len : Nat) : c.Within (bodyLine seq len c).2 := by
  simp only [bodyLine]
  split
  · exact .refl c
  · rename_i el here
    obtain ⟨left, right, -⟩ := memchr_inside here
    repeat' split
    · refine ⟨.refl _ _ _, ?_, ?_⟩ <;> simp only <;> omega
    · refine ⟨.refl _ _ _, ?_, ?_⟩ <;> simp only <;> omega
    · exact .refl c

theorem bodyLine_body {seq seq' : Int} {len len' body : Nat} {c' : Window}
    (whole : bodyLine seq len c = (.ok seq' len' body, c')) : body + len' = c'.rcurr := by
  simp only [bodyLine] at whole
  repeat' split at whole
  all_goals cases whole
  rfl

theorem parseRest_within (old : Nat) : c.Within (parseRest old c).2 := by
  have first := numberLine_within (c := c) seqLabel
  unfold parseRest
  split
  · rename_i c₁ seqLine
    rwa [seqLine] at first
  · rename_i seq c₁ seqLine
    have second := numberLine_within (c := c₁) bodyLenLabel
    rw [seqLine] at first
    split
    · rename_i c₂ lenLine
      rw [lenLine] at second
      exact first.trans second
    · rename_i len c₂ lenLine
      rw [lenLine] at second
      exact (first.trans second).trans (bodyLine_within _ _)

theorem parseRest_body {old : Nat} {seq : Int} {len body : Nat} {c' : Window}
    (whole : parseRest old c = (.ok seq len body, c')) : body + len = c'.rcurr := by
  unfold parseRest at whole
  repeat' split at whole
  · cases whole
  · cases whole
  · exact bodyLine_body whole

end Within

end OpenRpc
