import OpenRpc.Lib.Memory

/-! # Decimal text of machine integers

`printf("%d")`, `scanf("%d")` and `strtol` over byte strings. Scanning follows the C library: white
space, one optional sign, the longest run of digits, a value saturated to the range of `long` and
then cut to the width of the destination. A printed `int` is scanned back unchanged.
-/

namespace OpenRpc.Decimal

open Memory

def longMax : Int := 9223372036854775807

/-- The value of the low 32 bits as a signed `int`. -/
def toInt32 (v : Int) : Int := (v + 2147483648) % 4294967296 - 2147483648

def InInt32 (v : Int) : Prop := -2147483648 ≤ v ∧ v ≤ 2147483647

instance (v : Int) : Decidable (InInt32 v) := inferInstanceAs (Decidable (_ ∧ _))

theorem toInt32_fixed {v : Int} (fits : InInt32 v) : toInt32 v = v := by
  simp only [InInt32] at fits
  simp only [toInt32]
  omega

def natText (n : Nat) : List Byte := (Nat.toDigits 10 n).map byteOf

def minus : Byte := 45

/-- What `printf("%d", v)` writes. -/
def intText (v : Int) : List Byte :=
  if v < 0 then minus :: natText v.natAbs else natText v.natAbs

def isDigit (b : Byte) : Bool := 48 ≤ b && b ≤ 57

def isSpace (b : Byte) : Bool := b == 32 || (9 ≤ b && b ≤ 13)

/-- The value of a run of digits. -/
def digitsValue (ds : List Byte) : Nat := Nat.ofDigitChars 10 (ds.map charOf) 0

/-- The longest decimal number at the start of a text, before any cut to a width. -/
def scanNumber (s : List Byte) : Option Int :=
  let unsigned (negative : Bool) (rest : List Byte) : Option Int :=
    let ds := rest.takeWhile isDigit
    if ds = [] then none
    else some (if negative then -(digitsValue ds : Int) else digitsValue ds)
  match s.dropWhile isSpace with
  | [] => none
  | c :: rest =>
      if c = minus then unsigned true rest
      else if c = 43 then unsigned false rest
      else unsigned false (c :: rest)

/-- `strtol` saturates at the ends of the range of `long`. -/
def saturate (v : Int) : Int := max (-longMax - 1) (min longMax v)

/-- `scanf("%d")` into an `int`. -/
def scanInt (s : List Byte) : Option Int := (scanNumber s).map fun v => toInt32 (saturate v)

/-- `strtol(s, NULL, 10)`: no number reads as 0. -/
def strtol (s : List Byte) : Int := saturate ((scanNumber s).getD 0)

theorem byte_facts_of_digit {c : Char} (digit : c.isDigit = true) :
    c.toNat < 256 ∧ isDigit (byteOf c) = true := by
  have range : 48 ≤ c.toNat ∧ c.toNat ≤ 57 := by
    simpa [Char.isDigit, UInt32.le_iff_toNat_le] using digit
  have same : (byteOf c).toNat = c.toNat := by simp [byteOf]; omega
  refine ⟨by omega, ?_⟩
  simp only [isDigit, UInt8.le_iff_toNat_le, same, Bool.and_eq_true, decide_eq_true_eq]
  exact range

theorem natText_digits (n : Nat) : ∀ b ∈ natText n, isDigit b = true := by
  intro b member
  obtain ⟨c, inside, rfl⟩ := List.mem_map.mp member
  exact (byte_facts_of_digit (Nat.isDigit_of_mem_toDigits (by omega) (by omega) inside)).2

theorem natText_ne_nil (n : Nat) : natText n ≠ [] := by
  rw [natText, Nat.toDigits_eq_if (by omega)]
  split <;> simp

theorem digitsValue_natText (n : Nat) : digitsValue (natText n) = n := by
  have back : (natText n).map charOf = Nat.toDigits 10 n := by
    rw [natText, List.map_map]
    conv_rhs => rw [← List.map_id (Nat.toDigits 10 n)]
    apply List.map_congr_left
    intro c member
    exact charOf_byteOf
      (byte_facts_of_digit (Nat.isDigit_of_mem_toDigits (by omega) (by omega) member)).1
  rw [digitsValue, back, Nat.ofDigitChars_toDigits (by omega) (by omega)]

/-- No byte of a printed number is a separator of the texts numbers stand in. -/
theorem intText_clean (v : Int) : ∀ b ∈ intText v, isDigit b = true ∨ b = minus := by
  intro b member
  unfold intText at member
  split at member
  · rcases List.mem_cons.mp member with rfl | digit
    · exact .inr rfl
    · exact .inl (natText_digits _ b digit)
  · exact .inl (natText_digits _ b member)

theorem intText_avoids {v : Int} {c : Byte} (other : isDigit c = false) (unsigned : c ≠ minus) :
    c ∉ intText v := by
  intro member
  rcases intText_clean v c member with digit | same
  · rw [other] at digit; cases digit
  · exact unsigned same

theorem intText_ne_nil (v : Int) : intText v ≠ [] := by
  unfold intText
  split
  · simp
  · exact natText_ne_nil _

private theorem digit_not_space {b : Byte} (digit : isDigit b = true) : isSpace b = false := by
  simp only [isDigit, isSpace, Bool.and_eq_true, decide_eq_true_eq, Bool.or_eq_false_iff,
    Bool.and_eq_false_iff, beq_eq_false_iff_ne, decide_eq_false_iff_not, ne_eq,
    UInt8.le_iff_toNat_le] at *
  obtain ⟨low, high⟩ := digit
  refine ⟨fun same => ?_, .inr ?_⟩
  · subst same; simp at low
  · simp at *; omega

private theorem digit_not_sign {b : Byte} (digit : isDigit b = true) : b ≠ minus ∧ b ≠ 43 := by
  refine ⟨fun same => ?_, fun same => ?_⟩ <;> (subst same; revert digit; decide)

/-- A printed integer ends the scan at whatever follows it, if that is not a digit. -/
theorem scanNumber_intText (v : Int) (rest : List Byte)
    (ends : ∀ b ∈ rest.head?, isDigit b = false) : scanNumber (intText v ++ rest) = some v := by
  have stop : rest.takeWhile isDigit = [] := by
    cases rest with
    | nil => rfl
    | cons b tail => simp [ends b (by simp)]
  have run : ∀ n : Nat, (natText n ++ rest).takeWhile isDigit = natText n := by
    intro n
    rw [List.takeWhile_append_of_pos (natText_digits n), stop, List.append_nil]
  by_cases negative : v < 0
  · have skip : (minus :: (natText v.natAbs ++ rest)).dropWhile isSpace =
        minus :: (natText v.natAbs ++ rest) := by simp [isSpace, minus]
    simp only [scanNumber, intText, if_pos negative, List.cons_append, skip, if_true, run,
      natText_ne_nil, if_false, digitsValue_natText]
    congr 1
    omega
  · obtain ⟨d, ds, shape⟩ := List.exists_cons_of_ne_nil (natText_ne_nil v.natAbs)
    have digit : isDigit d = true := natText_digits v.natAbs d (by simp [shape])
    have skip : (d :: (ds ++ rest)).dropWhile isSpace = d :: (ds ++ rest) := by
      simp [digit_not_space digit]
    have same := run v.natAbs
    rw [shape, List.cons_append] at same
    simp only [scanNumber, intText, if_neg negative, shape, List.cons_append, skip,
      (digit_not_sign digit).1, (digit_not_sign digit).2, if_false, same, reduceCtorEq]
    rw [← shape, digitsValue_natText]
    simp only [Option.some.injEq]
    omega

theorem saturate_fixed {v : Int} (fits : InInt32 v) : saturate v = v := by
  simp only [InInt32] at fits
  simp only [saturate, longMax]
  omega

theorem scanInt_intText {v : Int} (fits : InInt32 v) (rest : List Byte)
    (ends : ∀ b ∈ rest.head?, isDigit b = false) : scanInt (intText v ++ rest) = some v := by
  rw [scanInt, scanNumber_intText v rest ends, Option.map_some, saturate_fixed fits,
    toInt32_fixed fits]

theorem strtol_intText {v : Int} (fits : InInt32 v) : strtol (intText v) = v := by
  have read := scanNumber_intText v [] (by simp)
  rw [List.append_nil] at read
  rw [strtol, read, Option.getD_some, saturate_fixed fits]

/-- The scan never looks past a byte that is neither of a number nor white space. -/
theorem scanNumber_stop {stop : Byte} (notDigit : isDigit stop = false) (notSpace : isSpace stop = false)
    (notMinus : stop ≠ minus) (notPlus : stop ≠ 43) (s more : List Byte) :
    scanNumber (s ++ stop :: more) = scanNumber s := by
  have run : ∀ t : List Byte, (t ++ stop :: more).takeWhile isDigit = t.takeWhile isDigit := by
    intro t
    rw [List.takeWhile_append]
    split
    · rename_i whole
      rw [List.takeWhile_cons_of_neg (by simp [notDigit]), List.append_nil]
      exact ((List.takeWhile_prefix _).eq_of_length whole).symm
    · rfl
  have skip : (s ++ stop :: more).dropWhile isSpace = s.dropWhile isSpace ++ stop :: more := by
    rw [List.dropWhile_append]
    split
    · rename_i all
      rw [List.isEmpty_iff.mp all, List.dropWhile_cons_of_neg (by simp [notSpace]), List.nil_append]
    · rfl
  simp only [scanNumber, skip]
  cases s.dropWhile isSpace with
  | nil => simp [notMinus, notPlus, notDigit]
  | cons c t =>
      have whole := run (c :: t)
      rw [List.cons_append] at whole
      simp only [List.cons_append, run, whole]

/-- The text of a decimal `int`: digits, a minus sign before them perhaps, and a value in range. -/
def DecimalText (s : List Byte) (v : Int) : Prop :=
  InInt32 v ∧ ∃ ds, ds ≠ [] ∧ (∀ b ∈ ds, isDigit b = true) ∧
    (s = ds ∧ v = digitsValue ds ∨ s = minus :: ds ∧ v = -(digitsValue ds : Int))

theorem DecimalText.scanned {s : List Byte} {v : Int} (plain : DecimalText s v) :
    scanInt s = some v := by
  obtain ⟨fits, ds, ne, digits, shape⟩ := plain
  have all : ds.takeWhile isDigit = ds := List.takeWhile_eq_self_iff.mpr digits
  have read : scanNumber s = some v := by
    rcases shape with ⟨rfl, rfl⟩ | ⟨rfl, rfl⟩
    · obtain ⟨d, t, shape⟩ := List.exists_cons_of_ne_nil ne
      have digit : isDigit d = true := digits d (by simp [shape])
      rw [shape] at all ⊢
      simp only [scanNumber, List.dropWhile_cons_of_neg (by simp [digit_not_space digit] :
        ¬isSpace d = true), (digit_not_sign digit).1, (digit_not_sign digit).2, if_false, all,
        reduceCtorEq, Bool.false_eq_true]
    · have skip : (minus :: ds).dropWhile isSpace = minus :: ds := by simp [isSpace, minus]
      simp only [scanNumber, skip, if_true, all, if_neg ne]
  rw [scanInt, read, Option.map_some, saturate_fixed fits, toInt32_fixed fits]

end OpenRpc.Decimal
