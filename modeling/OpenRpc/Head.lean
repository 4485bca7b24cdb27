import OpenRpc.Answers

/-! # Where a head is detected

`rpc_conn_received_head` against a head of three lines and an empty one. On a whole head it answers
yes, whatever follows. On less it answers no, except that after exactly the first line it also looks
at the byte behind the received ones.
-/

namespace OpenRpc

open Memory

/-- A head: three lines with content, then the empty line. -/
def headText (l₁ l₂ l₃ : List Byte) : List Byte :=
  l₁ ++ newline :: (l₂ ++ newline :: (l₃ ++ [newline, newline]))

/-- A line with content: neither empty nor a lone carriage return. -/
structure LineText (l : List Byte) : Prop where
  one : newline ∉ l
  ne : l ≠ []
  notCarriage : l ≠ [carriage]

/-- The lines of a head. -/
structure HeadLines (l₁ l₂ l₃ : List Byte) : Prop where
  first : LineText l₁
  second : LineText l₂
  third : LineText l₃

theorem headText_length (l₁ l₂ l₃ : List Byte) :
    (headText l₁ l₂ l₃).length = l₁.length + l₂.length + l₃.length + 4 := by
  simp only [headText, List.length_append, List.length_cons, List.length_nil]
  omega

theorem memchr_line {data pre line rest : List Byte} {n : Nat} (one : newline ∉ line)
    (shape : data = pre ++ (line ++ newline :: rest)) (inside : line.length < n) :
    memchr data pre.length newline n = some (pre.length + line.length) := by
  have seen : slice data pre.length n = line ++ newline :: rest.take (n - (line.length + 1)) := by
    obtain ⟨k, rfl⟩ : ∃ k, n = line.length + (k + 1) := ⟨n - line.length - 1, by omega⟩
    rw [slice, shape, List.drop_left, List.take_length_add_append, List.take_succ_cons]
    congr 3
    omega
  have skipped : line.findIdx? (· == newline) = none := by
    rw [List.findIdx?_eq_none_iff]
    intro x member
    simpa using fun same : x = newline => one (same ▸ member)
  rw [memchr, seen, List.findIdx?_append, skipped]
  simp [List.findIdx?_cons]

theorem memchr_short {data pre line rest : List Byte} {n : Nat} (one : newline ∉ line)
    (shape : data = pre ++ (line ++ rest)) (inside : n ≤ line.length) :
    memchr data pre.length newline n = none := by
  have seen : slice data pre.length n = line.take n := by
    rw [slice, shape, List.drop_left, List.take_append_of_le_length inside]
  rw [memchr, seen, Option.map_eq_none_iff, List.findIdx?_eq_none_iff]
  intro x member
  simpa using fun same : x = newline => one (same ▸ List.mem_of_mem_take member)

theorem memchr_front {data data' : List Byte} {start n len : Nat}
    (same : data.take len = data'.take len) (inside : start + n ≤ len) (c : Byte) :
    memchr data start c n = memchr data' start c n := by
  have cut : ∀ mem : List Byte, slice mem start n = slice (mem.take len) start n := by
    intro mem
    simp only [slice, List.drop_take, List.take_take]
    rw [Nat.min_eq_left (by omega)]
  rw [memchr, memchr, cut data, cut data', same]

theorem emptyBetween_line {data pre line rest : List Byte} (content : LineText line)
    (shape : data = pre ++ newline :: (line ++ newline :: rest)) :
    emptyBetween data pre.length (pre.length + 1 + line.length) = false := by
  have positive := List.length_pos_of_ne_nil content.ne
  simp only [emptyBetween, Bool.or_eq_false_iff, Bool.and_eq_false_iff, decide_eq_false_iff_not]
  refine ⟨by omega, ?_⟩
  by_cases single : line.length = 1
  · right
    obtain ⟨b, rfl⟩ := List.length_eq_one_iff.mp single
    intro last
    apply content.notCarriage
    rw [shape, List.getElem?_append_right (by omega)] at last
    simpa using last
  · left
    omega

theorem emptyBetween_front {data data' : List Byte} {el len : Nat}
    (same : data.take len = data'.take len) (positive : 0 < el) (inside : el ≤ len) (prev : Nat) :
    emptyBetween data prev el = emptyBetween data' prev el := by
  have byte : data[el - 1]? = data'[el - 1]? := by
    rw [← List.getElem?_take_of_lt (show el - 1 < len by omega), same,
      List.getElem?_take_of_lt (by omega)]
  rw [emptyBetween, emptyBetween, byte]

theorem receivedHeadLoop_lines {data l₁ l₂ : List Byte} {len : Nat}
    (first : memchr data 0 newline len = some l₁.length)
    (second : memchr data (l₁.length + 1) newline (len - (l₁.length + 1)) =
      some (l₁.length + 1 + l₂.length))
    (content : emptyBetween data l₁.length (l₁.length + 1 + l₂.length) = false)
    (more : l₁.length + l₂.length + 3 < len) :
    rpcConnReceivedHead data len = receivedHeadLoop data (len - 1) (l₁.length + l₂.length + 2)
      ((len - (l₁.length + l₂.length + 3) : Nat) : Int) (some (l₁.length + 1 + l₂.length)) := by
  obtain ⟨k, rfl⟩ : ∃ k, len = k + 1 := ⟨len - 1, by omega⟩
  have avail₁ : ((k + 1 : Nat) : Int) - ((l₁.length : Int) + 1 - ((0 : Nat) : Int)) =
      ((k + 1 - (l₁.length + 1) : Nat) : Int) := by omega
  have avail₂ : ((k + 1 - (l₁.length + 1) : Nat) : Int) -
      (((l₁.length + 1 + l₂.length : Nat) : Int) + 1 - (l₁.length : Int)) =
      ((k + 1 - (l₁.length + l₂.length + 3) : Nat) : Int) := by omega
  rw [rpcConnReceivedHead, receivedHeadLoop, Int.toNat_natCast, first]
  simp only [Option.any_none, if_false, Bool.false_eq_true, avail₁, Int.toNat_natCast, second, content,
    avail₂]
  rw [if_neg (by omega), if_neg (by omega), if_neg (by omega)]
  congr 1
  omega

section Lines

variable {l₁ l₂ l₃ : List Byte} (lines : HeadLines l₁ l₂ l₃) (x : List Byte) {n : Nat}

private theorem layout_first : headText l₁ l₂ l₃ ++ x =
    [] ++ (l₁ ++ newline :: (l₂ ++ newline :: (l₃ ++ newline :: newline :: x))) := by
  simp [headText]

private theorem layout_second : headText l₁ l₂ l₃ ++ x =
    (l₁ ++ [newline]) ++ (l₂ ++ newline :: (l₃ ++ newline :: newline :: x)) := by
  simp [headText]

private theorem layout_third : headText l₁ l₂ l₃ ++ x =
    (l₁ ++ newline :: (l₂ ++ [newline])) ++ (l₃ ++ newline :: newline :: x) := by
  simp [headText]

private theorem layout_fourth : headText l₁ l₂ l₃ ++ x =
    (l₁ ++ newline :: (l₂ ++ newline :: (l₃ ++ [newline]))) ++ ([] ++ newline :: x) := by
  simp [headText]

private theorem start_third : (l₁ ++ newline :: (l₂ ++ [newline])).length =
    l₁.length + l₂.length + 2 := by
  simp only [List.length_append, List.length_cons, List.length_nil]
  omega

private theorem start_fourth : (l₁ ++ newline :: (l₂ ++ newline :: (l₃ ++ [newline]))).length =
    l₁.length + l₂.length + 2 + l₃.length + 1 := by
  simp only [List.length_append, List.length_cons, List.length_nil]
  omega

include lines

theorem memchr_first : memchr (headText l₁ l₂ l₃ ++ x) 0 newline n =
    if l₁.length < n then some l₁.length else none := by
  split
  · rename_i inside
    simpa using memchr_line lines.first.one (layout_first x) inside
  · rename_i short
    exact memchr_short lines.first.one (layout_first x) (by omega)

theorem memchr_second : memchr (headText l₁ l₂ l₃ ++ x) (l₁.length + 1) newline n =
    if l₂.length < n then some (l₁.length + 1 + l₂.length) else none := by
  have start : (l₁ ++ [newline]).length = l₁.length + 1 := by simp
  rw [← start]
  split
  · rename_i inside
    exact memchr_line lines.second.one (layout_second x) inside
  · rename_i short
    exact memchr_short lines.second.one (layout_second x) (by omega)

theorem memchr_third : memchr (headText l₁ l₂ l₃ ++ x) (l₁.length + l₂.length + 2) newline n =
    if l₃.length < n then some (l₁.length + l₂.length + 2 + l₃.length) else none := by
  rw [← start_third]
  split
  · rename_i inside
    exact memchr_line lines.third.one (layout_third x) inside
  · rename_i short
    exact memchr_short lines.third.one (layout_third x) (by omega)

theorem second_not_empty : emptyBetween (headText l₁ l₂ l₃ ++ x) l₁.length
    (l₁.length + 1 + l₂.length) = false :=
  emptyBetween_line lines.second (layout_first x)

theorem third_not_empty : emptyBetween (headText l₁ l₂ l₃ ++ x) (l₁.length + 1 + l₂.length)
    (l₁.length + l₂.length + 2 + l₃.length) = false := by
  have shape : headText l₁ l₂ l₃ ++ x =
      (l₁ ++ newline :: l₂) ++ newline :: (l₃ ++ newline :: (newline :: x)) := by
    simp [headText]
  have start : (l₁ ++ newline :: l₂).length = l₁.length + 1 + l₂.length := by
    simp only [List.length_append, List.length_cons]
    omega
  have here := emptyBetween_line lines.third shape
  have stop : l₁.length + 1 + l₂.length + 1 + l₃.length = l₁.length + l₂.length + 2 + l₃.length := by
    omega
  rwa [start, stop] at here

/-- A whole head is detected, with `rest` received behind it and anything in memory behind that. -/
theorem receivedHead_whole (rest behind : List Byte) :
    rpcConnReceivedHead (headText l₁ l₂ l₃ ++ (rest ++ behind))
      ((headText l₁ l₂ l₃).length + rest.length) = true := by
  have total := headText_length l₁ l₂ l₃
  let len := (headText l₁ l₂ l₃).length + rest.length
  have first : memchr (headText l₁ l₂ l₃ ++ (rest ++ behind)) 0 newline len = some l₁.length := by
    rw [memchr_first lines, if_pos (by omega)]
  have second : memchr (headText l₁ l₂ l₃ ++ (rest ++ behind)) (l₁.length + 1) newline
      (len - (l₁.length + 1)) = some (l₁.length + 1 + l₂.length) := by
    rw [memchr_second lines, if_pos (by omega)]
  have third : memchr (headText l₁ l₂ l₃ ++ (rest ++ behind)) (l₁.length + l₂.length + 2) newline
      (len - (l₁.length + l₂.length + 3)) = some (l₁.length + l₂.length + 2 + l₃.length) := by
    rw [memchr_third lines, if_pos (by omega)]
  rw [receivedHeadLoop_lines first second (second_not_empty lines _) (by omega)]
  obtain ⟨k, enough⟩ : ∃ k, len - 1 = k + 1 := ⟨len - 2, by omega⟩
  have avail : ((len - (l₁.length + l₂.length + 3) : Nat) : Int) -
      (((l₁.length + l₂.length + 2 + l₃.length : Nat) : Int) + 1 -
        ((l₁.length + l₂.length + 2 : Nat) : Int)) = (rest.length : Int) := by omega
  change receivedHeadLoop _ (len - 1) _ _ _ = true
  rw [enough, receivedHeadLoop, Int.toNat_natCast, third]
  simp only [Option.any_some, third_not_empty lines, if_false, Bool.false_eq_true, avail,
    Int.toNat_natCast]
  rw [if_neg (by omega)]
  by_cases none_behind : rest.length = 0
  -- the last newline of the head is found by the look behind the bytes counted
  · have last : (headText l₁ l₂ l₃ ++ (rest ++ behind))[l₁.length + l₂.length + 2 + l₃.length + 1]? =
        some newline := by
      rw [layout_fourth, ← start_fourth, List.getElem?_append_right (Nat.le_refl _), Nat.sub_self]
      rfl
    rw [if_pos ⟨by omega, last⟩]
  · have fourth : memchr (headText l₁ l₂ l₃ ++ (rest ++ behind))
        (l₁.length + l₂.length + 2 + l₃.length + 1) newline rest.length =
          some (l₁.length + l₂.length + 2 + l₃.length + 1) := by
      rw [← start_fourth]
      exact memchr_line (by simp) (layout_fourth _) (by simp only [List.length_nil]; omega)
    have empty : ∀ p : Nat,
        emptyBetween (headText l₁ l₂ l₃ ++ (rest ++ behind)) p (p + 1) = true := by
      intro p
      simp [emptyBetween]
    rw [if_neg (by omega), fourth]
    simp only [empty, if_true]

/-- Less than a head is not detected, unless exactly the first line is there and the byte behind it
    happens to be a newline. -/
theorem receivedHead_part {data : List Byte} {len : Nat} (short : len < (headText l₁ l₂ l₃).length)
    (same : data.take len = (headText l₁ l₂ l₃).take len)
    (behind : len = l₁.length + 1 → data[len]? ≠ some newline) :
    rpcConnReceivedHead data len = false := by
  have total := headText_length l₁ l₂ l₃
  have same' : data.take len = (headText l₁ l₂ l₃ ++ []).take len := by rw [List.append_nil, same]
  have first : memchr data 0 newline len = if l₁.length < len then some l₁.length else none := by
    rw [memchr_front same' (by omega), memchr_first lines]
  by_cases noLine : len ≤ l₁.length
  · rw [rpcConnReceivedHead]
    cases len with
    | zero => rfl
    | succ k =>
        rw [receivedHeadLoop, Int.toNat_natCast, first, if_neg (by omega)]
  · have second : memchr data (l₁.length + 1) newline (len - (l₁.length + 1)) =
        if l₂.length < len - (l₁.length + 1) then some (l₁.length + 1 + l₂.length) else none := by
      rw [memchr_front same' (by omega), memchr_second lines]
    rw [if_pos (by omega)] at first
    by_cases oneLine : len ≤ l₁.length + 1 + l₂.length
    · obtain ⟨k, rfl⟩ : ∃ k, len = k + 1 := ⟨len - 1, by omega⟩
      have avail : ((k + 1 : Nat) : Int) - ((l₁.length : Int) + 1 - ((0 : Nat) : Int)) =
          ((k + 1 - (l₁.length + 1) : Nat) : Int) := by omega
      rw [if_neg (by omega)] at second
      rw [rpcConnReceivedHead, receivedHeadLoop, Int.toNat_natCast, first]
      simp only [Option.any_none, if_false, Bool.false_eq_true, avail, Int.toNat_natCast, second]
      rw [if_neg (by omega), if_neg]
      rintro ⟨exactly, look⟩
      have here : k + 1 = l₁.length + 1 := by omega
      exact behind here (here ▸ look)
    · rw [if_pos (by omega)] at second
      have content : emptyBetween data l₁.length (l₁.length + 1 + l₂.length) = false := by
        rw [emptyBetween_front same' (by omega) (by omega)]
        exact second_not_empty lines []
      by_cases few : len ≤ l₁.length + l₂.length + 3
      -- the count is one too low from here on: it has run out
      · obtain ⟨k, rfl⟩ : ∃ k, len = k + 1 := ⟨len - 1, by omega⟩
        have avail : ((k + 1 : Nat) : Int) - ((l₁.length : Int) + 1 - ((0 : Nat) : Int)) =
            ((k + 1 - (l₁.length + 1) : Nat) : Int) := by omega
        rw [rpcConnReceivedHead, receivedHeadLoop, Int.toNat_natCast, first]
        simp only [Option.any_none, if_false, Bool.false_eq_true, avail, Int.toNat_natCast, second,
          content]
        rw [if_neg (by omega), if_neg (by omega), if_pos (by omega)]
      · rw [receivedHeadLoop_lines first second content (by omega)]
        have third : memchr data (l₁.length + l₂.length + 2) newline
            (len - (l₁.length + l₂.length + 3)) = none := by
          rw [memchr_front same' (by omega), memchr_third lines, if_neg (by omega)]
        obtain ⟨k, enough⟩ : ∃ k, len - 1 = k + 1 := ⟨len - 2, by omega⟩
        rw [enough, receivedHeadLoop, Int.toNat_natCast, third]

end Lines

end OpenRpc
