import OpenRpc.Common
import OpenRpc.Lib.Words

/-! # What the tokenizer does to a line

`tokenize_command` against the maximal runs of bytes between the blanks of its line. Here its loop is
also taken round by round, on memory that ends where the string does.
-/

namespace OpenRpc

open Memory Decimal Words

/-- The variables of `tokenize_command` before a test of its `for`, and the memory. -/
structure Tokenizing where
  b : Nat
  e : Nat
  tokens : List Token
  mem : List Byte
  deriving Repr, DecidableEq

/-- One round, and whether there is another. There is no value where `*e` is not in the memory. -/
def tokenizeRound (maxToken : Nat) (s : Tokenizing) : Option (Bool × Tokenizing) :=
  if s.tokens.length < maxToken then
    match s.mem[s.e]? with
    | none => none
    | some c =>
        if c = blank then
          if s.b ≠ s.e then
            some (true, ⟨s.e + 1, s.e + 1, s.tokens ++ [⟨s.b, s.e - s.b⟩], s.mem.set s.e nul⟩)
          else some (true, ⟨s.e + 1, s.e + 1, s.tokens, s.mem⟩)
        else if c = nul then
          if s.b ≠ s.e then some (false, { s with tokens := s.tokens ++ [⟨s.b, s.e - s.b⟩] })
          else some (false, s)
        else some (true, { s with e := s.e + 1 })
  else some (false, s)

/-- The `for`, as long as it takes no more than so many rounds. -/
def tokenizeRounds (maxToken : Nat) : Nat → Tokenizing → Option Tokenizing
  | 0, _ => none
  | fuel + 1, s =>
      match tokenizeRound maxToken s with
      | none => none
      | some (false, s) => some s
      | some (true, s) => tokenizeRounds maxToken fuel s

/-- What `tokenize_command` returns: a `size_t` as an `int`. -/
def tokenizeCommandCount (mem : List Byte) (command maxToken : Nat) : Int :=
  toInt32 (tokenizeCommand mem command maxToken).1.length

/-- The runs of a line that are stored, the first `maxToken`. -/
def storedRuns (line : List Byte) (maxToken : Nat) : List (Nat × Nat) :=
  (runs (· == blank) line).take maxToken

def runToken (command : Nat) (r : Nat × Nat) : Token := ⟨command + r.1, r.2⟩

/-- `*e = '\0'` at the ends of some tokens. -/
def terminated (mem : List Byte) (tokens : List Token) : List Byte :=
  tokens.foldl (fun mem t => mem.set (t.value + t.length) nul) mem

theorem terminated_byte {mem : List Byte} {tokens : List Token}
    (inside : ∀ t ∈ tokens, t.value + t.length < mem.length) (j : Nat) :
    (terminated mem tokens)[j]? =
      if ∃ t ∈ tokens, t.value + t.length = j then some nul else mem[j]? := by
  induction tokens generalizing mem with
  | nil => simp [terminated]
  | cons t tokens ih =>
      have here := inside t List.mem_cons_self
      have later : ∀ t' ∈ tokens, t'.value + t'.length < (mem.set (t.value + t.length) nul).length := by
        intro t' member
        rw [List.length_set]
        exact inside t' (List.mem_cons_of_mem t member)
      have cut : (mem.set (t.value + t.length) nul)[j]? =
          if t.value + t.length = j then some nul else mem[j]? := by
        rw [List.getElem?_set, if_pos here]
      rw [terminated, List.foldl_cons, ← terminated, ih later, cut]
      by_cases one : ∃ t' ∈ tokens, t'.value + t'.length = j
      · obtain ⟨t', member, ends⟩ := one
        rw [if_pos ⟨t', member, ends⟩, if_pos ⟨t', List.mem_cons_of_mem t member, ends⟩]
      · rw [if_neg one]
        refine if_congr ?_ rfl rfl
        constructor
        · exact fun ends => ⟨t, List.mem_cons_self, ends⟩
        · rintro ⟨t', member, ends⟩
          rcases List.mem_cons.mp member with rfl | other
          · exact ends
          · exact absurd ⟨t', other, ends⟩ one

theorem tokenizeLoop_stop (rest : List Byte) (b e left : Nat) (mem : List Byte) :
    tokenizeLoop (nul :: rest) b e (left + 1) mem = (if b = e then [] else [⟨b, e - b⟩], mem) := by
  rw [tokenizeLoop, if_neg (by decide), if_pos rfl]
  by_cases empty : b = e <;> simp [empty]

theorem tokenizeLoop_ends_word {cur : List Byte} (ne : cur ≠ []) (pre text : List Byte) (left : Nat) :
    tokenizeLoop (blank :: text) pre.length (pre.length + cur.length) (left + 1)
        (pre ++ (cur ++ blank :: text)) =
      let start := pre ++ (cur ++ [nul])
      let cut := tokenizeLoop text start.length start.length left (start ++ text)
      (⟨pre.length, cur.length⟩ :: cut.1, cut.2) := by
  have positive := List.length_pos_of_ne_nil ne
  have written : (pre ++ (cur ++ blank :: text)).set (pre.length + cur.length) nul =
      pre ++ (cur ++ [nul]) ++ text := by
    rw [set_at nul (show pre ++ (cur ++ blank :: text) = (pre ++ cur) ++ blank :: text by simp)
      (by simp)]
    simp
  have start : (pre ++ (cur ++ [nul])).length = pre.length + cur.length + 1 := by
    simp only [List.length_append, List.length_singleton]
    omega
  simp only [tokenizeLoop, if_true, written, start]
  rw [if_pos (by omega), Nat.add_sub_cancel_left]

theorem runToken_shift (command k : Nat) (r : Nat × Nat) :
    runToken command (shiftRun k r) = runToken (command + k) r := by
  simp only [runToken, shiftRun, Nat.add_assoc]

/-- The tokens are the runs, and what changes is the byte behind each of them. By induction on the
    runs of the line. -/
theorem tokenizeLoop_runs {line : List Byte} (clean : nul ∉ line) (pre behind : List Byte)
    (left : Nat) :
    let mem := pre ++ (line ++ nul :: behind)
    let tokens := (storedRuns line left).map (runToken pre.length)
    tokenizeLoop (line ++ nul :: behind) pre.length pre.length left mem =
      (tokens, terminated mem tokens) := by
  induction line using run_induction (· == blank) generalizing pre left with
  | run run plain =>
      cases left with
      | zero => simp [tokenizeLoop, storedRuns, terminated]
      | succ left =>
          have word : ∀ b ∈ run, WordByte b := fun b member =>
            ⟨by simpa using plain b member, fun same => clean (same ▸ member)⟩
          simp only [storedRuns, runs_run plain]
          rw [tokenizeLoop_word word, tokenizeLoop_stop]
          by_cases empty : run = []
          · simp [empty, terminated]
          · have positive := List.length_pos_of_ne_nil empty
            have kept : (pre ++ (run ++ nul :: behind)).set (pre.length + run.length) nul =
                pre ++ (run ++ nul :: behind) := by
              rw [set_at nul (show pre ++ (run ++ nul :: behind) = (pre ++ run) ++ nul :: behind by
                simp) (by simp)]
              simp
            rw [if_neg (by omega), if_neg empty]
            simp [runToken, terminated, kept]
  | split run s rest plain here ih =>
      have separates : s = blank := by simpa using here
      subst separates
      have cleanRest : nul ∉ rest := fun member => clean (by simp [member])
      cases left with
      | zero => simp [tokenizeLoop, storedRuns, terminated]
      | succ left =>
          have word : ∀ b ∈ run, WordByte b := fun b member =>
            ⟨by simpa using plain b member, fun same => clean (by simp [← same, member])⟩
          simp only [storedRuns, runs_split plain here, List.append_assoc, List.cons_append]
          rw [tokenizeLoop_word word]
          by_cases empty : run = []
          · subst empty
            have next := ih cleanRest (pre ++ [blank]) (left + 1)
            simp only [storedRuns, List.length_append, List.length_singleton, List.append_assoc,
              List.singleton_append] at next
            simp [tokenizeLoop, next, ← List.map_take, Function.comp_def, runToken_shift]
          · have next := ih cleanRest (pre ++ (run ++ [nul])) left
            have start : (pre ++ (run ++ [nul])).length = pre.length + (run.length + 1) := by simp
            have cut : (pre ++ (run ++ blank :: (rest ++ nul :: behind))).set
                (pre.length + run.length) nul = pre ++ (run ++ [nul]) ++ (rest ++ nul :: behind) := by
              rw [set_at nul (show pre ++ (run ++ blank :: (rest ++ nul :: behind)) =
                (pre ++ run) ++ blank :: (rest ++ nul :: behind) by simp) (by simp)]
              simp
            simp only at next
            rw [tokenizeLoop_ends_word empty, if_neg empty]
            simp only
            rw [next, start]
            simp only [List.singleton_append, List.take_succ_cons, List.map_cons, ← List.map_take,
              List.map_map, Function.comp_def, runToken_shift, terminated, List.foldl_cons, storedRuns]
            simp only [runToken, Nat.add_zero, cut]
            rfl

theorem terminated_take (mem : List Byte) (tokens : List Token) (k : Nat) :
    (terminated mem tokens).take k = terminated (mem.take k) tokens := by
  induction tokens generalizing mem with
  | nil => rfl
  | cons t tokens ih =>
      simp only [terminated, List.foldl_cons] at ih ⊢
      rw [ih, List.take_set]

/-- Round by round the loop does what it does as a whole, with one round for each byte up to the
    terminator at most. -/
theorem tokenizeRounds_loop {content behind : List Byte} (clean : nul ∉ content) {maxToken left b e : Nat}
    {tokens : List Token} {mem : List Byte} (ahead : mem.drop e = content ++ nul :: behind)
    (room : tokens.length + left = maxToken) :
    ∃ b' e', e' ≤ e + content.length ∧
      tokenizeRounds maxToken (content.length + 1) ⟨b, e, tokens, mem⟩ =
        some ⟨b', e', tokens ++ (tokenizeLoop (content ++ nul :: behind) b e left mem).1,
          (tokenizeLoop (content ++ nul :: behind) b e left mem).2⟩ := by
  induction content generalizing left b e tokens mem with
  | nil =>
      have here : mem[e]? = some nul := by
        have first := congrArg (·[0]?) ahead
        simpa using first
      refine ⟨b, e, Nat.le_refl e, ?_⟩
      cases left with
      | zero => simp [tokenizeRounds, tokenizeRound, tokenizeLoop, show ¬tokens.length < maxToken by omega]
      | succ left =>
          have noBlank : ¬nul = blank := by decide
          simp only [tokenizeRounds, tokenizeRound, if_pos (show tokens.length < maxToken by omega), here,
            if_neg noBlank, if_true, List.nil_append, tokenizeLoop]
          by_cases empty : b = e <;> simp [empty]
  | cons c content ih =>
      have here : mem[e]? = some c := by
        have first := congrArg (·[0]?) ahead
        simpa using first
      have next : mem.drop (e + 1) = content ++ nul :: behind := by
        rw [← List.drop_drop, ahead]
        rfl
      have cleanRest : nul ∉ content := fun member => clean (List.mem_cons_of_mem c member)
      have notNul : ¬c = nul := fun same => clean (same ▸ List.mem_cons_self)
      cases left with
      | zero =>
          refine ⟨b, e, Nat.le_add_right .., ?_⟩
          simp [tokenizeRounds, tokenizeRound, tokenizeLoop, show ¬tokens.length < maxToken by omega]
      | succ left =>
          have more : tokens.length < maxToken := by omega
          rw [List.length_cons, tokenizeRounds, List.cons_append]
          simp only [tokenizeRound, if_pos more, here, tokenizeLoop, if_neg notNul]
          by_cases separates : c = blank
          · by_cases empty : b = e
            · obtain ⟨b', e', within, run⟩ := ih cleanRest (b := e + 1) next room
              refine ⟨b', e', by omega, ?_⟩
              simpa [separates, empty] using run
            · have ahead' : (mem.set e nul).drop (e + 1) = content ++ nul :: behind := by
                rw [List.drop_set_of_lt (Nat.lt_succ_self e), next]
              have room' : (tokens ++ [Token.mk b (e - b)]).length + left = maxToken := by
                rw [List.length_append, List.length_singleton]
                omega
              obtain ⟨b', e', within, run⟩ := ih cleanRest (b := e + 1) ahead' room'
              refine ⟨b', e', by omega, ?_⟩
              simpa [separates, empty] using run
          · obtain ⟨b', e', within, run⟩ := ih cleanRest (b := b) next room
            refine ⟨b', e', by omega, ?_⟩
            simpa [separates] using run

section Line

variable {mem : List Byte} {command : Nat} {line : List Byte}

theorem storedRuns_isRun {maxToken : Nat} {t : Token}
    (member : t ∈ (storedRuns line maxToken).map (runToken command)) :
    ∃ start, t.value = command + start ∧ IsRun (· == blank) line start t.length := by
  obtain ⟨r, stored, rfl⟩ := List.mem_map.mp member
  exact ⟨r.1, rfl, mem_runs.mp (List.mem_of_mem_take stored)⟩

theorem tokenizeCommand_runs (here : cstring mem command = some line) (maxToken : Nat) :
    tokenizeCommand mem command maxToken =
      ((storedRuns line maxToken).map (runToken command),
        terminated mem ((storedRuns line maxToken).map (runToken command))) := by
  obtain ⟨pre, rest, rfl, rfl, clean⟩ := cstring_split here
  rw [tokenizeCommand, List.append_assoc, List.drop_left]
  exact tokenizeLoop_runs clean pre rest maxToken

theorem tokenizeLine_byte (here : cstring mem command = some line) (maxToken j : Nat) :
    (tokenizeCommand mem command maxToken).2[j]? =
      if ∃ t ∈ (tokenizeCommand mem command maxToken).1, t.value + t.length = j then some nul
      else mem[j]? := by
  rw [tokenizeCommand_runs here]
  refine terminated_byte (fun t member => ?_) j
  obtain ⟨start, value, isRun⟩ := storedRuns_isRun member
  obtain ⟨pre, rest, rfl, rfl, -⟩ := cstring_split here
  have inside := isRun.inside
  simp only [List.length_append, List.length_cons]
  omega

theorem tokenizeLine_blank (here : cstring mem command = some line) (maxToken : Nat) (t : Token)
    (member : t ∈ (tokenizeCommand mem command maxToken).1) :
    mem[t.value + t.length]? = some blank ∨ t.value + t.length = command + line.length := by
  rw [tokenizeCommand_runs here] at member
  obtain ⟨start, value, isRun⟩ := storedRuns_isRun member
  obtain ⟨pre, rest, rfl, rfl, -⟩ := cstring_split here
  have inside := isRun.inside
  by_cases last : start + t.length = line.length
  · exact .inr (by omega)
  · have behind := List.getElem?_eq_getElem (show start + t.length < line.length by omega)
    have separates := isRun.right _ behind
    refine .inl ?_
    rw [value, Nat.add_assoc, List.append_assoc, List.getElem?_append_right (by omega),
      Nat.add_sub_cancel_left, List.getElem?_append_left (by omega), behind]
    simpa using separates

theorem tokenizeLine_string (here : cstring mem command = some line) {maxToken : Nat} {t : Token}
    (member : t ∈ (tokenizeCommand mem command maxToken).1) :
    cstring (tokenizeCommand mem command maxToken).2 t.value = some (slice mem t.value t.length) := by
  have stored := member
  rw [tokenizeCommand_runs here] at stored
  obtain ⟨start, value, isRun⟩ := storedRuns_isRun stored
  have byte := tokenizeLine_byte here maxToken
  have blanks := tokenizeLine_blank here maxToken
  have inside := isRun.inside
  obtain ⟨pre, rest, shape, start_at, clean⟩ := cstring_split here
  have cell : ∀ i, i ≤ line.length → mem[command + i]? = (line ++ [nul])[i]? := by
    intro i within
    rw [shape, List.append_assoc, ← start_at, List.getElem?_append_right (by omega),
      Nat.add_sub_cancel_left, ← List.singleton_append, ← List.append_assoc,
      List.getElem?_append_left (by simp; omega)]
  have long : command + line.length < mem.length := by
    rw [shape, ← start_at]
    simp
  have length : (slice mem t.value t.length).length = t.length := slice_length (by omega)
  have run : ∀ i < t.length, ∃ b, mem[t.value + i]? = some b ∧ b ≠ blank ∧ b ≠ nul := by
    intro i below
    obtain ⟨b, at_line⟩ : ∃ b, (line)[start + i]? = some b :=
      ⟨_, List.getElem?_eq_getElem (by omega)⟩
    refine ⟨b, ?_, ?_, ?_⟩
    · rw [value, Nat.add_assoc, cell _ (by omega), List.getElem?_append_left (by omega), at_line]
    · simpa using isRun.plain _ _ (by omega) (by omega) at_line
    · exact fun same => clean (same ▸ List.mem_of_getElem? at_line)
  refine cstring_at (fun i below => ?_) (fun null => ?_) ?_
  · rw [length] at below
    obtain ⟨b, at_i, notBlank, notNul⟩ := run i below
    rw [byte, if_neg, slice_cell mem t.value below]
    rintro ⟨t', member', ends⟩
    rcases blanks t' member' with isBlank | last
    · rw [ends, at_i] at isBlank
      exact notBlank (Option.some.inj isBlank)
    · omega
  · obtain ⟨i, below, same⟩ := List.getElem_of_mem null
    rw [length] at below
    obtain ⟨b, at_i, -, notNul⟩ := run i below
    have at_slice := slice_cell mem t.value below
    rw [List.getElem?_eq_getElem (by omega), same, at_i] at at_slice
    exact notNul (Option.some.inj at_slice).symm
  · rw [length, byte, if_pos ⟨t, member, rfl⟩]

/-- `tokenize_command` meets its reference on a line that stands at `command`. -/
structure TokenizesLine (mem : List Byte) (command : Nat) (line : List Byte) (maxToken : Nat) : Prop where
  /-- It ends, on memory that ends with the terminator as well, and leaves what is behind alone. -/
  ends : ∃ b e, e ≤ command + line.length ∧
    tokenizeRounds maxToken (line.length + 1)
        ⟨command, command, [], mem.take (command + line.length + 1)⟩ =
      some ⟨b, e, (tokenizeCommand mem command maxToken).1,
        (tokenizeCommand mem command maxToken).2.take (command + line.length + 1)⟩
  /-- The reference holds the maximal runs, in order. -/
  reference : (runs (· == blank) line).Pairwise (fun r r' => r.1 < r'.1) ∧
    ∀ start len, (start, len) ∈ runs (· == blank) line ↔ IsRun (· == blank) line start len
  count : tokenizeCommandCount mem command maxToken =
    (min maxToken (runs (· == blank) line).length : Nat)
  tokens : (tokenizeCommand mem command maxToken).1 = (storedRuns line maxToken).map (runToken command)
  strings : ∀ t ∈ (tokenizeCommand mem command maxToken).1,
    cstring (tokenizeCommand mem command maxToken).2 t.value = some (slice mem t.value t.length)
  blanks : ∀ t ∈ (tokenizeCommand mem command maxToken).1,
    mem[t.value + t.length]? = some blank ∨ t.value + t.length = command + line.length
  bytes : ∀ j, (tokenizeCommand mem command maxToken).2[j]? =
    if ∃ t ∈ (tokenizeCommand mem command maxToken).1, t.value + t.length = j then some nul else mem[j]?

theorem tokenizeCommandCount_runs (here : cstring mem command = some line) (maxToken : Nat) :
    tokenizeCommandCount mem command maxToken =
      toInt32 (min maxToken (runs (· == blank) line).length : Nat) := by
  rw [tokenizeCommandCount, tokenizeCommand_runs here, List.length_map, storedRuns, List.length_take]

/-- `tokenize_command` meets its reference exactly where the number of tokens is an `int`. -/
theorem tokenizeCommand_reference (here : cstring mem command = some line) (maxToken : Nat) :
    TokenizesLine mem command line maxToken ↔
      min maxToken (runs (· == blank) line).length ≤ 2147483647 := by
  constructor
  · intro meets
    have count := meets.count
    rw [tokenizeCommandCount_runs here] at count
    simp only [toInt32] at count
    omega
  · intro fits
    obtain ⟨pre, rest, shape, start_at, clean⟩ := cstring_split here
    have block : mem.take (command + line.length + 1) = pre ++ (line ++ [nul]) := by
      rw [shape, ← start_at, show pre ++ line ++ nul :: rest = (pre ++ (line ++ [nul])) ++ rest by simp]
      exact List.take_left' (by simp [Nat.add_assoc])
    refine ⟨?_, ⟨runs_ordered line, fun _ _ => mem_runs⟩, ?_, ?_, fun t => tokenizeLine_string here,
      tokenizeLine_blank here maxToken, tokenizeLine_byte here maxToken⟩
    · have ahead : (pre ++ (line ++ [nul])).drop command = line ++ nul :: [] := by
        rw [← start_at, List.drop_left]
      have room : ([] : List Token).length + maxToken = maxToken := Nat.zero_add maxToken
      obtain ⟨b, e, within, run⟩ := tokenizeRounds_loop (b := command) clean ahead room
      refine ⟨b, e, within, ?_⟩
      rw [block, run, tokenizeCommand_runs here, terminated_take, block, ← start_at,
        tokenizeLoop_runs clean pre [] maxToken]
      rfl
    · rw [tokenizeCommandCount_runs here, toInt32_fixed]
      simp only [InInt32]
      omega
    · rw [tokenizeCommand_runs here]
end Line

/-- Two words of `" a  bc d"`, with a limit of two tokens. -/
theorem tokenizeCommand_reference_two :
    TokenizesLine (text [' ', 'a', ' ', ' ', 'b', 'c', ' ', 'd'] ++ [nul]) 0
      (text [' ', 'a', ' ', ' ', 'b', 'c', ' ', 'd']) 2 :=
  (tokenizeCommand_reference (by decide) 2).mpr (by omega)

/-- So many words of one letter, with a blank behind each. -/
def manyWords : Nat → List Byte
  | 0 => []
  | n + 1 => [65] ++ blank :: manyWords n

theorem manyWords_runs (n : Nat) : (runs (· == blank) (manyWords n)).length = n := by
  induction n with
  | zero => rfl
  | succ n ih =>
      have letter : ∀ x ∈ [(65 : Byte)], (x == blank) = false := by
        intro x member
        rw [List.mem_singleton.mp member]
        decide
      rw [manyWords, runs_split letter (by decide), List.length_append, List.length_map, ih]
      exact Nat.add_comm 1 n

theorem manyWords_clean (n : Nat) : nul ∉ manyWords n := by
  induction n with
  | zero => exact List.not_mem_nil
  | succ n ih => simpa [manyWords, ih] using (by decide : nul ≠ 65 ∧ nul ≠ blank)

theorem manyWords_overflow {n : Nat} (large : 2147483647 < n) :
    ¬TokenizesLine (manyWords n ++ [nul]) 0 (manyWords n) n := by
  intro meets
  have here : cstring (manyWords n ++ [nul]) 0 = some (manyWords n) :=
    cstring_terminated [] _ [] (manyWords_clean n)
  have count := meets.count
  rw [tokenizeCommandCount_runs here, manyWords_runs, Nat.min_self] at count
  simp only [toInt32] at count
  omega

/-- The count of 2147483648 words comes back negative. -/
theorem tokenizeCommand_reference_fails :
    ¬TokenizesLine (manyWords 2147483648 ++ [nul]) 0 (manyWords 2147483648) 2147483648 :=
  manyWords_overflow (by decide)

end OpenRpc
