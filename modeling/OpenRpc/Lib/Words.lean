import Mathlib

/-! # Words of a text

The maximal runs of a text without a separator, in order: the words themselves, and where they are.
Runs of separators count as one, and those at the ends of the text count for nothing.
-/

namespace OpenRpc.Words

variable {α : Type} (sep : α → Bool)

def words (text : List α) : List (List α) := (text.splitOnP sep).filter fun w => !w.isEmpty

variable {sep}

theorem words_run {run : List α} (plain : ∀ x ∈ run, sep x = false) :
    words sep run = if run = [] then [] else [run] := by
  rw [words, List.splitOnP_eq_singleton plain]
  cases run <;> rfl

theorem words_split {run : List α} (plain : ∀ x ∈ run, sep x = false) {s : α} (here : sep s = true)
    (rest : List α) :
    words sep (run ++ s :: rest) = if run = [] then words sep rest else run :: words sep rest := by
  rw [words, List.splitOnP_append_cons_of_forall_mem plain s here]
  cases run <;> rfl

/-- Every text is a run, or a run, a separator and a text. -/
theorem run_induction (sep : α → Bool) {P : List α → Prop}
    (run : ∀ run, (∀ x ∈ run, sep x = false) → P run)
    (split : ∀ run s rest, (∀ x ∈ run, sep x = false) → sep s = true → P rest →
      P (run ++ s :: rest)) (text : List α) : P text := by
  induction long : text.length using Nat.strong_induction_on generalizing text with
  | _ n ih =>
      by_cases plain : ∀ x ∈ text, sep x = false
      · exact run text plain
      · push Not at plain
        obtain ⟨x, member, here⟩ := plain
        have stops : text.dropWhile (fun x => !sep x) ≠ [] := by
          rw [ne_eq, List.dropWhile_eq_nil_iff]
          intro all
          exact here (by simpa using all x member)
        obtain ⟨s, rest, tail⟩ := List.exists_cons_of_ne_nil stops
        have separates : sep s = true := by
          have ended := List.head_dropWhile_not (fun x => !sep x) stops
          simpa [tail] using ended
        have whole : text = text.takeWhile (fun x => !sep x) ++ s :: rest := by
          rw [← tail, List.takeWhile_append_dropWhile]
        rw [whole]
        refine split _ s rest (fun y within => ?_) separates (ih rest.length ?_ rest rfl)
        · simpa using List.mem_takeWhile_imp within
        · rw [← long, whole, List.length_append, List.length_cons]
          omega

/-- A maximal run without a separator, by where it starts and how long it is. -/
structure IsRun (sep : α → Bool) (text : List α) (start len : Nat) : Prop where
  positive : 0 < len
  inside : start + len ≤ text.length
  plain : ∀ i x, start ≤ i → i < start + len → text[i]? = some x → sep x = false
  left : ∀ x, 0 < start → text[start - 1]? = some x → sep x = true
  right : ∀ x, text[start + len]? = some x → sep x = true

/-- Where the pieces of a text that are not empty start, and how long they are. -/
def runsFrom : Nat → List (List α) → List (Nat × Nat)
  | _, [] => []
  | k, w :: ws =>
      if w.isEmpty then runsFrom (k + 1) ws else (k, w.length) :: runsFrom (k + w.length + 1) ws

/-- The maximal runs of a text, from left to right. -/
def runs (sep : α → Bool) (text : List α) : List (Nat × Nat) := runsFrom 0 (text.splitOnP sep)

def shiftRun (k : Nat) (r : Nat × Nat) : Nat × Nat := (k + r.1, r.2)

theorem runsFrom_shift (k n : Nat) (ws : List (List α)) :
    runsFrom (k + n) ws = (runsFrom n ws).map (shiftRun k) := by
  induction ws generalizing n with
  | nil => rfl
  | cons w ws ih =>
      unfold runsFrom
      split
      · rw [Nat.add_assoc, ih]
      · rw [Nat.add_assoc k n, Nat.add_assoc k, ih, List.map_cons]
        rfl

theorem runs_run {run : List α} (plain : ∀ x ∈ run, sep x = false) :
    runs sep run = if run = [] then [] else [(0, run.length)] := by
  rw [runs, List.splitOnP_eq_singleton plain]
  cases run <;> rfl

theorem runs_split {run : List α} (plain : ∀ x ∈ run, sep x = false) {s : α} (here : sep s = true)
    (rest : List α) :
    runs sep (run ++ s :: rest) =
      (if run = [] then [] else [(0, run.length)]) ++
        (runs sep rest).map (shiftRun (run.length + 1)) := by
  rw [runs, List.splitOnP_append_cons_of_forall_mem plain s here, runs, ← runsFrom_shift]
  cases run with
  | nil => rfl
  | cons x run => simp [runsFrom]

theorem isRun_run {run : List α} (plain : ∀ x ∈ run, sep x = false) {start len : Nat} :
    IsRun sep run start len ↔ run ≠ [] ∧ start = 0 ∧ len = run.length := by
  have none_separates : ∀ (i : Nat) (x : α), run[i]? = some x → sep x ≠ true := by
    intro i x here separates
    rw [plain x (List.mem_of_getElem? here)] at separates
    cases separates
  constructor
  · rintro ⟨positive, inside, -, left, right⟩
    have first : start = 0 := by
      by_contra later
      have before := List.getElem?_eq_getElem (show start - 1 < run.length by omega)
      exact none_separates _ _ before (left _ (by omega) before)
    have whole : len = run.length := by
      by_contra short
      have behind := List.getElem?_eq_getElem (show start + len < run.length by omega)
      exact none_separates _ _ behind (right _ behind)
    exact ⟨List.ne_nil_of_length_pos (by omega), first, whole⟩
  · rintro ⟨ne, rfl, rfl⟩
    refine ⟨List.length_pos_of_ne_nil ne, by omega, fun i x _ _ here => ?_, fun x low => ?_,
      fun x here => ?_⟩
    · exact plain x (List.mem_of_getElem? here)
    · omega
    · rw [Nat.zero_add, List.getElem?_eq_none (Nat.le_refl _)] at here
      cases here

theorem isRun_split {run rest : List α} {s : α} (plain : ∀ x ∈ run, sep x = false)
    (here : sep s = true) {start len : Nat} :
    IsRun sep (run ++ s :: rest) start len ↔
      (run ≠ [] ∧ start = 0 ∧ len = run.length) ∨
        ∃ start', start = run.length + 1 + start' ∧ IsRun sep rest start' len := by
  have front : ∀ i, i < run.length → (run ++ s :: rest)[i]? = run[i]? := fun i below =>
    List.getElem?_append_left below
  have middle : (run ++ s :: rest)[run.length]? = some s := by simp
  have back : ∀ i, (run ++ s :: rest)[run.length + 1 + i]? = rest[i]? := by
    intro i
    rw [List.getElem?_append_right (by omega), show run.length + 1 + i - run.length = i + 1 by omega,
      List.getElem?_cons_succ]
  have long : (run ++ s :: rest).length = run.length + 1 + rest.length := by
    simp only [List.length_append, List.length_cons]
    omega
  constructor
  · rintro ⟨positive, inside, clean, left, right⟩
    by_cases before : start + len ≤ run.length
    · refine .inl ((isRun_run plain).mp ⟨positive, before, fun i x low high at_i => ?_,
        fun x low at_left => ?_, fun x at_right => ?_⟩)
      · exact clean i x low high (by rw [front i (by omega), at_i])
      · exact left x low (by rw [front _ (by omega), at_left])
      · apply right x
        rw [front _ (List.getElem?_eq_some_iff.mp at_right).1, at_right]
    · have behind : run.length < start := by
        by_contra low
        rw [clean run.length s (by omega) (by omega) middle] at here
        cases here
      obtain ⟨start', rfl⟩ : ∃ start', start = run.length + 1 + start' :=
        ⟨start - (run.length + 1), by omega⟩
      refine .inr ⟨start', rfl, positive, by omega, fun i x low high at_i => ?_,
        fun x low at_left => ?_, fun x at_right => ?_⟩
      · exact clean (run.length + 1 + i) x (by omega) (by omega) (by rw [back, at_i])
      · apply left x (by omega)
        rw [show run.length + 1 + start' - 1 = run.length + 1 + (start' - 1) by omega, back, at_left]
      · exact right x (by rw [Nat.add_assoc, back, at_right])
  · rintro (⟨ne, rfl, rfl⟩ | ⟨start', rfl, positive, inside, clean, left, right⟩)
    · refine ⟨List.length_pos_of_ne_nil ne, by omega, fun i x low high at_i => ?_,
        fun x low => by omega, fun x at_right => ?_⟩
      · rw [front i (by omega)] at at_i
        exact plain x (List.mem_of_getElem? at_i)
      · rw [Nat.zero_add, middle] at at_right
        cases at_right
        exact here
    · refine ⟨positive, by omega, fun i x low high at_i => ?_, fun x low at_left => ?_,
        fun x at_right => ?_⟩
      · obtain ⟨j, rfl⟩ : ∃ j, i = run.length + 1 + j := ⟨i - (run.length + 1), by omega⟩
        rw [back] at at_i
        exact clean j x (by omega) (by omega) at_i
      · by_cases first : start' = 0
        · rw [first, show run.length + 1 + 0 - 1 = run.length by omega, middle] at at_left
          cases at_left
          exact here
        · rw [show run.length + 1 + start' - 1 = run.length + 1 + (start' - 1) by omega, back]
            at at_left
          exact left x (by omega) at_left
      · rw [Nat.add_assoc, back] at at_right
        exact right x at_right

theorem mem_runs {text : List α} {start len : Nat} :
    (start, len) ∈ runs sep text ↔ IsRun sep text start len := by
  induction text using run_induction sep generalizing start len with
  | run run plain =>
      rw [runs_run plain, isRun_run plain]
      by_cases empty : run = [] <;> simp [empty]
  | split run s rest plain here ih =>
      rw [runs_split plain here, isRun_split plain here, List.mem_append, List.mem_map]
      apply or_congr (by by_cases empty : run = [] <;> simp [empty])
      constructor
      · rintro ⟨⟨start', len'⟩, member, same⟩
        obtain ⟨rfl, rfl⟩ := Prod.mk.inj same
        exact ⟨start', rfl, ih.mp member⟩
      · rintro ⟨start', rfl, isRun⟩
        exact ⟨(start', len), ih.mpr isRun, rfl⟩

theorem runs_ordered (text : List α) : (runs sep text).Pairwise fun r r' => r.1 < r'.1 := by
  induction text using run_induction sep with
  | run run plain =>
      rw [runs_run plain]
      split <;> simp
  | split run s rest plain here ih =>
      rw [runs_split plain here]
      have later : ((runs sep rest).map (shiftRun (run.length + 1))).Pairwise fun r r' => r.1 < r'.1 :=
        List.pairwise_map.mpr (ih.imp fun less => Nat.add_lt_add_left less _)
      split
      · exact later
      · refine List.pairwise_cons.mpr ⟨fun r member => ?_, later⟩
        obtain ⟨r', -, rfl⟩ := List.mem_map.mp member
        unfold shiftRun
        omega

theorem words_runs (text : List α) :
    words sep text = (runs sep text).map fun r => (text.drop r.1).take r.2 := by
  induction text using run_induction sep with
  | run run plain =>
      rw [words_run plain, runs_run plain]
      split <;> simp
  | split run s rest plain here ih =>
      have moved : ∀ r : Nat × Nat, ((run ++ s :: rest).drop (shiftRun (run.length + 1) r).1).take r.2 =
          (rest.drop r.1).take r.2 := by
        intro r
        have behind : (run ++ s :: rest).drop (run.length + 1) = rest := by
          rw [← List.drop_drop, List.drop_left]
          rfl
        rw [shiftRun, ← List.drop_drop, behind]
      rw [words_split plain here, runs_split plain here, ih, List.map_append, List.map_map]
      simp only [Function.comp_def]
      split
      · exact List.map_congr_left fun r _ => (moved r).symm
      · rw [List.map_singleton, List.drop_zero, List.take_left, List.singleton_append]
        exact congrArg _ (List.map_congr_left fun r _ => (moved r).symm)

end OpenRpc.Words
