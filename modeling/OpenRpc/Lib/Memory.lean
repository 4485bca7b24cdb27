import Mathlib

/-! # Byte memory

A block of C memory is the list of its bytes and a pointer into it is an offset. The reading
functions of the C library are given here with the few facts their callers use: what `memchr` finds
behind a run of other bytes, and which string a terminator leaves readable.
-/

namespace OpenRpc.Memory

abbrev Byte := UInt8

def byteOf (c : Char) : Byte := UInt8.ofNat c.toNat

def charOf (b : Byte) : Char := Char.ofNat b.toNat

/-- The bytes of an ASCII text, without a terminator. -/
def text (cs : List Char) : List Byte := cs.map byteOf

def nul : Byte := 0
def newline : Byte := 10
def carriage : Byte := 13
def blank : Byte := 32

/-- The bytes `[start, start + len)` of a block. -/
def slice (mem : List Byte) (start len : Nat) : List Byte := (mem.drop start).take len

/-- `memchr(mem + start, c, len)`, as an offset into the block. -/
def memchr (mem : List Byte) (start : Nat) (c : Byte) (len : Nat) : Option Nat :=
  ((slice mem start len).findIdx? (· == c)).map (start + ·)

/-- Store `bytes` at offset `start`. -/
def overwrite (mem : List Byte) (start : Nat) (bytes : List Byte) : List Byte :=
  mem.take start ++ bytes ++ mem.drop (start + bytes.length)

/-- The C string at `start`; `none` when the block ends before a terminator. -/
def cstring (mem : List Byte) (start : Nat) : Option (List Byte) :=
  if nul ∈ mem.drop start then some ((mem.drop start).takeWhile (· != nul)) else none

theorem charOf_byteOf {c : Char} (small : c.toNat < 256) : charOf (byteOf c) = c := by
  have same : (byteOf c).toNat = c.toNat := by simp [byteOf, Nat.mod_eq_of_lt small]
  rw [charOf, same, Char.ofNat_toNat]

theorem slice_append (pre seg post : List Byte) :
    slice (pre ++ seg ++ post) pre.length seg.length = seg := by
  simp [slice]

theorem slice_length {mem : List Byte} {start len : Nat} (inside : start + len ≤ mem.length) :
    (slice mem start len).length = len := by
  simp only [slice, List.length_take, List.length_drop]
  omega

theorem slice_cell (mem : List Byte) (start : Nat) {len k : Nat} (below : k < len) :
    (slice mem start len)[k]? = mem[start + k]? := by
  rw [slice, List.getElem?_take_of_lt below, List.getElem?_drop]

theorem slice_split (mem : List Byte) {start len : Nat} (inside : start + len ≤ mem.length) :
    ∃ pre post, mem = pre ++ slice mem start len ++ post ∧ pre.length = start := by
  refine ⟨mem.take start, mem.drop (start + len), ?_, by simp; omega⟩
  rw [slice, List.append_assoc, ← List.drop_drop, List.take_append_drop, List.take_append_drop]

theorem memchr_found (pre run rest post : List Byte) (c : Byte) (absent : c ∉ run) :
    memchr (pre ++ (run ++ c :: rest) ++ post) pre.length c (run.length + 1 + rest.length) =
      some (pre.length + run.length) := by
  have whole : run.length + 1 + rest.length = (run ++ c :: rest).length := by simp; omega
  have skipped : run.findIdx? (· == c) = none := by
    rw [List.findIdx?_eq_none_iff]
    intro x member
    simpa using fun same : x = c => absent (same ▸ member)
  rw [memchr, whole, slice_append, List.findIdx?_append, skipped]
  simp [List.findIdx?_cons]

theorem memchr_inside {mem : List Byte} {start len el : Nat} {b : Byte}
    (found : memchr mem start b len = some el) :
    start ≤ el ∧ el < start + len ∧ el < mem.length := by
  obtain ⟨k, here, rfl⟩ := Option.map_eq_some_iff.mp found
  have inside : k < (slice mem start len).length := (List.findIdx?_eq_some_iff_getElem.mp here).1
  simp only [slice, List.length_take, List.length_drop] at inside
  omega

theorem memchr_eq_some {mem : List Byte} {start len el : Nat} {b : Byte} :
    memchr mem start b len = some el ↔
      start ≤ el ∧ el < start + len ∧ mem[el]? = some b ∧
        ∀ q, start ≤ q → q < el → mem[q]? ≠ some b := by
  constructor
  · intro found
    obtain ⟨low, high, -⟩ := memchr_inside found
    obtain ⟨k, here, rfl⟩ := Option.map_eq_some_iff.mp found
    obtain ⟨inside, same, first⟩ := List.findIdx?_eq_some_iff_getElem.mp here
    have short : k < len := by omega
    refine ⟨low, high, ?_, fun q atLeast below other => ?_⟩
    · rw [← slice_cell mem start short, List.getElem?_eq_getElem inside]
      simpa using same
    · have earlier := first (q - start) (by omega)
      have byte := slice_cell mem start (show q - start < len by omega)
      rw [Nat.add_sub_cancel' atLeast, other, List.getElem?_eq_getElem (by omega)] at byte
      simp [Option.some.inj byte] at earlier
  · rintro ⟨low, high, same, first⟩
    obtain ⟨k, rfl⟩ : ∃ k, el = start + k := ⟨el - start, by omega⟩
    rw [← slice_cell mem start (show k < len by omega)] at same
    obtain ⟨inside, here⟩ := List.getElem?_eq_some_iff.mp same
    refine Option.map_eq_some_iff.mpr ⟨k, List.findIdx?_eq_some_iff_getElem.mpr ?_, rfl⟩
    refine ⟨inside, by simpa using here, fun j below => ?_⟩
    have other := first (start + j) (by omega) (by omega)
    rw [← slice_cell mem start (show j < len by omega), List.getElem?_eq_getElem (by omega)] at other
    simpa using other

theorem memchr_eq_none {mem : List Byte} {start len : Nat} {b : Byte} :
    memchr mem start b len = none ↔ ∀ q, start ≤ q → q < start + len → mem[q]? ≠ some b := by
  constructor
  · intro missing q low high here
    simp only [memchr, Option.map_eq_none_iff, List.findIdx?_eq_none_iff] at missing
    have member : b ∈ slice mem start len := by
      apply List.mem_of_getElem? (i := q - start)
      rw [slice_cell mem start (by omega), Nat.add_sub_cancel' low, here]
    simpa using missing b member
  · intro absent
    by_contra found
    obtain ⟨el, here⟩ := Option.ne_none_iff_exists'.mp found
    obtain ⟨low, high, same, -⟩ := memchr_eq_some.mp here
    exact absent el low high same

theorem set_at {mem pre rest : List Byte} {old : Byte} {i : Nat} (new : Byte)
    (shape : mem = pre ++ old :: rest) (here : i = pre.length) :
    mem.set i new = pre ++ new :: rest := by
  subst shape here
  simp

theorem cstring_terminated (pre run rest : List Byte) (clean : nul ∉ run) :
    cstring (pre ++ run ++ nul :: rest) pre.length = some run := by
  have body : (pre ++ run ++ nul :: rest).drop pre.length = run ++ nul :: rest := by
    simp [List.append_assoc]
  have run_kept : ∀ b ∈ run, (b != nul) = true := by
    intro b member
    simpa using fun same : b = nul => clean (same ▸ member)
  rw [cstring, body, if_pos (by simp), List.takeWhile_append_of_pos run_kept]
  simp

theorem cstring_at {mem w : List Byte} {p : Nat}
    (bytes : ∀ i < w.length, mem[p + i]? = w[i]?) (clean : nul ∉ w)
    (ends : mem[p + w.length]? = some nul) : cstring mem p = some w := by
  obtain ⟨inside, last⟩ := List.getElem?_eq_some_iff.mp ends
  have run : (mem.drop p).take w.length = w := by
    apply List.ext_getElem?
    intro i
    rw [List.getElem?_take]
    split
    · rename_i below
      rw [List.getElem?_drop, bytes i below]
    · rename_i beyond
      rw [List.getElem?_eq_none (by omega)]
  have behind : (mem.drop p).drop w.length = nul :: mem.drop (p + w.length + 1) := by
    rw [List.drop_drop, List.drop_eq_getElem_cons inside, last]
  have shape : mem = mem.take p ++ w ++ nul :: mem.drop (p + w.length + 1) := by
    rw [← behind, List.append_assoc]
    conv_lhs => rw [← List.take_append_drop p mem, ← List.take_append_drop w.length (mem.drop p), run]
  have read := cstring_terminated (mem.take p) w (mem.drop (p + w.length + 1)) clean
  rwa [← shape, List.length_take, Nat.min_eq_left (by omega)] at read

theorem cstring_split {mem run : List Byte} {p : Nat} (read : cstring mem p = some run) :
    ∃ pre rest, mem = pre ++ run ++ nul :: rest ∧ pre.length = p ∧ nul ∉ run := by
  rw [cstring] at read
  split at read
  · rename_i ends
    cases read
    have inside : p < mem.length := by
      by_contra beyond
      rw [List.drop_eq_nil_of_le (by omega)] at ends
      simp at ends
    have behind : (mem.drop p).dropWhile (· != nul) ≠ [] := by
      intro all
      rw [List.dropWhile_eq_nil_iff] at all
      simpa using all nul ends
    obtain ⟨b, rest, tail⟩ := List.exists_cons_of_ne_nil behind
    have stop : b = nul := by
      have ended := List.head_dropWhile_not (· != nul) behind
      simpa [tail] using ended
    rw [stop] at tail
    refine ⟨mem.take p, rest, ?_, by simp; omega, fun member => ?_⟩
    · rw [← tail, List.append_assoc, List.takeWhile_append_dropWhile, List.take_append_drop]
    · simpa using List.mem_takeWhile_imp member
  · cases read

theorem cstring_stops {mem run : List Byte} {p q : Nat} (read : cstring mem p = some run)
    (ends : mem[q]? = some nul) (before : p ≤ q) : p + run.length ≤ q := by
  obtain ⟨pre, rest, shape, start, clean⟩ := cstring_split read
  by_contra inside
  rw [shape, List.append_assoc, List.getElem?_append_right (by omega),
    List.getElem?_append_left (by omega)] at ends
  exact clean (List.mem_of_getElem? ends)

/-- Nothing but terminators has been written. -/
def Nulled (mem mem' : List Byte) : Prop := List.Forall₂ (fun b b' => b' = b ∨ b' = nul) mem mem'

theorem Nulled.refl (mem : List Byte) : Nulled mem mem :=
  List.forall₂_same.mpr fun _ _ => .inl rfl

theorem Nulled.trans {a b c : List Byte} (first : Nulled a b) (second : Nulled b c) : Nulled a c := by
  induction first generalizing c with
  | nil => exact second
  | cons head _ ih =>
      cases second with
      | cons head' tail' =>
          refine .cons ?_ (ih tail')
          cases head' with
          | inl same => rwa [same]
          | inr cut => exact .inr cut

theorem nulled_set (mem : List Byte) (i : Nat) : Nulled mem (mem.set i nul) := by
  induction mem generalizing i with
  | nil => exact .nil
  | cons b mem ih =>
      cases i with
      | zero => exact .cons (.inr rfl) (Nulled.refl mem)
      | succ i => exact .cons (.inl rfl) (ih i)

/-- A string that could be read before is at most cut short. -/
theorem cstring_nulled {mem mem' : List Byte} (nulled : Nulled mem mem') {p : Nat}
    {w w' : List Byte} (before : cstring mem p = some w) (after : cstring mem' p = some w') :
    w' <+: w := by
  have cut : ∀ {l l' : List Byte}, Nulled l l' →
      l'.takeWhile (· != nul) <+: l.takeWhile (· != nul) := by
    intro l l' nulled
    induction nulled with
    | nil => exact List.prefix_rfl
    | @cons b b' _ _ head _ ih =>
        by_cases ends : b' = nul
        · rw [List.takeWhile_cons_of_neg (by simpa using ends)]
          exact List.nil_prefix
        · cases head with
          | inl same =>
              subst same
              rw [List.takeWhile_cons_of_pos (by simpa using ends),
                List.takeWhile_cons_of_pos (by simpa using ends)]
              exact (List.prefix_cons_inj _).mpr ih
          | inr null => exact absurd null ends
  simp only [cstring] at before after
  split at before <;> cases before
  split at after <;> cases after
  exact cut (List.forall₂_drop p nulled)

theorem cstring_stays {mem mem' : List Byte} (nulled : Nulled mem mem') {p : Nat} {w : List Byte}
    (before : cstring mem p = some w) : ∃ w', cstring mem' p = some w' := by
  have member : ∀ {l l' : List Byte}, Nulled l l' → nul ∈ l → nul ∈ l' := by
    intro l l' nulled here
    induction nulled with
    | nil => exact here
    | cons head _ ih =>
        cases List.mem_cons.mp here with
        | inl first =>
            cases head with
            | inl same => exact List.mem_cons.mpr (.inl (first.trans same.symm))
            | inr null => exact List.mem_cons.mpr (.inl null.symm)
        | inr later => exact List.mem_cons_of_mem _ (ih later)
  simp only [cstring] at before ⊢
  split at before
  · rename_i ends
    exact ⟨_, if_pos (member (List.forall₂_drop p nulled) ends)⟩
  · cases before

theorem overwrite_length {mem bytes : List Byte} {start : Nat}
    (inside : start + bytes.length ≤ mem.length) :
    (overwrite mem start bytes).length = mem.length := by
  simp only [overwrite, List.length_append, List.length_take, List.length_drop]
  omega

/-- The bytes outside of `[lo, hi)` are the same. -/
structure SameOutside (lo hi : Nat) (mem mem' : List Byte) : Prop where
  length : mem'.length = mem.length
  same : ∀ i, i < lo ∨ hi ≤ i → mem'[i]? = mem[i]?

namespace SameOutside

variable {lo hi lo' hi' : Nat} {mem mem' mem'' : List Byte}

theorem refl (lo hi : Nat) (mem : List Byte) : SameOutside lo hi mem mem := ⟨rfl, fun _ _ => rfl⟩

theorem trans (first : SameOutside lo hi mem mem') (second : SameOutside lo hi mem' mem'') :
    SameOutside lo hi mem mem'' :=
  ⟨second.length.trans first.length, fun i out => (second.same i out).trans (first.same i out)⟩

theorem mono (same : SameOutside lo hi mem mem') (left : lo' ≤ lo) (right : hi ≤ hi') :
    SameOutside lo' hi' mem mem' := by
  refine ⟨same.length, fun i out => same.same i ?_⟩
  omega

theorem set (mem : List Byte) {i : Nat} (b : Byte) (left : lo ≤ i) (right : i < hi) :
    SameOutside lo hi mem (mem.set i b) := by
  refine ⟨List.length_set, fun j out => List.getElem?_set_ne ?_⟩
  omega

theorem overwrite (mem : List Byte) {bytes : List Byte} {start : Nat}
    (inside : start + bytes.length ≤ mem.length) :
    SameOutside start (start + bytes.length) mem (Memory.overwrite mem start bytes) := by
  refine ⟨overwrite_length inside, fun i out => ?_⟩
  have front : (mem.take start).length = start := by
    rw [List.length_take]
    omega
  rw [Memory.overwrite, List.append_assoc]
  cases out with
  | inl before =>
      rw [List.getElem?_append_left (by omega), List.getElem?_take_of_lt before]
  | inr behind =>
      rw [List.getElem?_append_right (by omega), List.getElem?_append_right (by omega),
        List.getElem?_drop, front]
      congr 1
      omega

theorem drop (same : SameOutside lo hi mem mem') : mem'.drop hi = mem.drop hi := by
  apply List.ext_getElem?
  intro i
  rw [List.getElem?_drop, List.getElem?_drop]
  exact same.same _ (.inr (Nat.le_add_right hi i))

theorem slice (same : SameOutside lo hi mem mem') {start len : Nat}
    (apart : start + len ≤ lo ∨ hi ≤ start) :
    Memory.slice mem' start len = Memory.slice mem start len := by
  apply List.ext_getElem?
  intro i
  simp only [Memory.slice, List.getElem?_take, List.getElem?_drop]
  split
  · apply same.same
    omega
  · rfl

theorem take (same : SameOutside lo hi mem mem') : mem'.take lo = mem.take lo := by
  apply List.ext_getElem?
  intro i
  simp only [List.getElem?_take]
  split
  · rename_i before
    exact same.same i (.inl before)
  · rfl

theorem frame {pre mid post mem' : List Byte}
    (same : SameOutside pre.length (pre.length + mid.length) (pre ++ mid ++ post) mem') :
    ∃ mid', mem' = pre ++ mid' ++ post ∧ mid'.length = mid.length := by
  have total := same.length
  simp only [List.length_append] at total
  have front : mem'.take pre.length = pre := by
    rw [same.take, List.append_assoc, List.take_left' rfl]
  have behind : mem'.drop (pre.length + mid.length) = post := by
    rw [same.drop, List.drop_left' List.length_append]
  refine ⟨Memory.slice mem' pre.length mid.length, ?_, slice_length (by omega)⟩
  calc mem' = mem'.take pre.length ++ (Memory.slice mem' pre.length mid.length ++
        mem'.drop (pre.length + mid.length)) := by
        rw [Memory.slice, ← List.drop_drop, List.take_append_drop, List.take_append_drop]
    _ = pre ++ Memory.slice mem' pre.length mid.length ++ post := by
        rw [front, behind, List.append_assoc]

end SameOutside

end OpenRpc.Memory
