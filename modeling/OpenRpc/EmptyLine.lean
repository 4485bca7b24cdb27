import OpenRpc.Head

/-! # What counts as a head

`rpc_conn_received_head` against the empty line it looks for. The loop takes two newlines a round and
subtracts one byte too many in each, so an empty line behind `k` newlines needs about `k / 2` bytes
behind it to be seen; and in its first round it reads the byte behind the received ones.
-/

namespace OpenRpc

open Memory

/-- The newline at `p` ends an empty line: it stands right behind another one, or behind another one
    and a carriage return. -/
def EndsEmpty (data : List Byte) (p : Nat) : Prop :=
  data[p]? = some newline ∧
    (1 ≤ p ∧ data[p - 1]? = some newline ∨
      2 ≤ p ∧ data[p - 1]? = some carriage ∧ data[p - 2]? = some newline)

/-- There is an empty line within the first `len` bytes. -/
def HasEmptyLine (data : List Byte) (len : Nat) : Prop := ∃ p < len, EndsEmpty data p

structure FirstEmpty (data : List Byte) (p : Nat) : Prop where
  ends : EndsEmpty data p
  first : ∀ q < p, ¬EndsEmpty data q

/-- The newlines before `p`. -/
def newlinesBefore (data : List Byte) (p : Nat) : Nat := (data.take p).count newline

/-- An empty line that the loop comes to see: there are enough bytes behind it for the half of the
    newlines before it, or there is one too few, the line is not the `el` of its round but the newline
    behind it, and no carriage return is on it. -/
def Seen (data : List Byte) (len p : Nat) : Prop :=
  p + newlinesBefore data p / 2 < len ∨
    newlinesBefore data p % 2 = 1 ∧ data[p - 1]? = some newline ∧
      p + newlinesBefore data p / 2 = len

theorem newlinesBefore_mono (data : List Byte) {p q : Nat} (le : p ≤ q) :
    newlinesBefore data p ≤ newlinesBefore data q :=
  List.Sublist.count_le _ (List.take_sublist_take_left le)

theorem newlinesBefore_next {data : List Byte} {p : Nat} (here : data[p]? = some newline) :
    newlinesBefore data (p + 1) = newlinesBefore data p + 1 := by
  obtain ⟨inside, same⟩ := List.getElem?_eq_some_iff.mp here
  simp only [newlinesBefore, List.take_add_one, here, Option.toList_some, List.count_append,
    List.count_singleton_self]

theorem newlinesBefore_gap {data : List Byte} {p q : Nat} (le : p ≤ q)
    (none_between : ∀ i, p ≤ i → i < q → data[i]? ≠ some newline) :
    newlinesBefore data q = newlinesBefore data p := by
  induction q, le using Nat.le_induction with
  | base => rfl
  | succ q le ih =>
      rw [← ih fun i low high => none_between i low (by omega)]
      have other := none_between q le (Nat.lt_succ_self q)
      simp only [newlinesBefore, List.take_add_one, List.count_append]
      cases byte : data[q]? with
      | none => simp
      | some b =>
          have apart : b ≠ newline := fun same => other (by rw [byte, same])
          simp [apart]

/-- Where the loop can stand: behind the last newline it has taken, with no empty line so far. -/
structure LineStart (data : List Byte) (c : Nat) : Prop where
  clean : ∀ q < c, ¬EndsEmpty data q
  behind : c = 0 ∨ 1 ≤ c ∧ data[c - 1]? = some newline

/-- The next newline ends an empty line or does not; either way the loop's test says so. -/
theorem LineStart.next {data : List Byte} {c el : Nat} (start : LineStart data c) (low : c ≤ el)
    (here : data[el]? = some newline)
    (first : ∀ q, c ≤ q → q < el → data[q]? ≠ some newline) :
    (EndsEmpty data el ↔ 1 ≤ c ∧ emptyBetween data (c - 1) el = true) ∧
      ∀ q < el, ¬EndsEmpty data q := by
  constructor
  · simp only [EndsEmpty, emptyBetween, here, true_and, Bool.or_eq_true, Bool.and_eq_true,
      decide_eq_true_eq]
    have notHere : ∀ q, data[q]? = some newline → c ≤ q → ¬q < el :=
      fun q byte atLeast below => first q atLeast below byte
    constructor
    · rintro (⟨positive, prev⟩ | ⟨positive, mid, prev⟩)
      · have before := notHere _ prev
        exact ⟨by omega, .inl (by omega)⟩
      · have before := notHere _ prev
        have apart : el - 1 ≠ c - 1 ∨ c = 0 := by
          rcases start.behind with zero | ⟨-, last⟩
          · exact .inr zero
          · refine .inl fun same => ?_
            rw [same, last] at mid
            exact absurd mid (by decide)
        exact ⟨by omega, .inr ⟨by omega, mid⟩⟩
    · rintro ⟨positive, near | ⟨near, mid⟩⟩
      · rcases start.behind with zero | ⟨-, last⟩
        · omega
        · refine .inl ⟨by omega, ?_⟩
          rwa [show el - 1 = c - 1 by omega]
      · rcases start.behind with zero | ⟨-, last⟩
        · omega
        · refine .inr ⟨by omega, mid, ?_⟩
          rwa [show el - 2 = c - 1 by omega]
  · intro q below ends
    by_cases early : q < c
    · exact start.clean q early ends
    · exact first q (Nat.not_lt.mp early) below ends.1

theorem LineStart.behind_line {data : List Byte} {el : Nat} (here : data[el]? = some newline)
    (clean : ∀ q < el, ¬EndsEmpty data q) (content : ¬EndsEmpty data el) :
    LineStart data (el + 1) where
  clean := by
    intro q below
    rcases Nat.lt_succ_iff_lt_or_eq.mp below with less | same
    · exact clean q less
    · exact same ▸ content
  behind := .inr ⟨by omega, by simpa using here⟩

/-- A seen empty line lies so far before the end that no newline is missed on the way. -/
theorem Seen.bounds {data : List Byte} {len p c r : Nat} (seen : Seen data len p) (low : c ≤ p)
    (count : r ≤ newlinesBefore data c) :
    p + r / 2 < len ∨ p + r / 2 = len ∧ newlinesBefore data p / 2 = r / 2 ∧
      newlinesBefore data p % 2 = 1 ∧ data[p - 1]? = some newline := by
  have more := newlinesBefore_mono data low
  rcases seen with inside | ⟨odd, bare, edge⟩
  · omega
  · by_cases same : newlinesBefore data p / 2 = r / 2
    · exact .inr ⟨by omega, same, odd, bare⟩
    · omega

theorem FirstEmpty.from_start {data : List Byte} {c p : Nat} (first : FirstEmpty data p)
    (start : LineStart data c) : c ≤ p := by
  by_contra below
  exact start.clean p (by omega) first.ends

/-- With no newline in what is left after `r` rounds, no empty line is seen. -/
theorem unseen_first {data : List Byte} {len c r : Nat} {avail : Int} (start : LineStart data c)
    (rounds : newlinesBefore data c = 2 * r) (left : avail = (len : Int) - c - r)
    (absent : ∀ q, c ≤ q → q < c + avail.toNat → data[q]? ≠ some newline) :
    ¬∃ p, FirstEmpty data p ∧ Seen data len p := by
  rintro ⟨p, first, seen⟩
  have low := first.from_start start
  rcases seen.bounds low rounds.ge with inside | ⟨edge, half, odd, -⟩
  · exact absent p low (by omega) first.ends.1
  · -- then `p` would be the first newline behind `c`, and their number even
    have same := newlinesBefore_gap low fun i atLeast below => absent i atLeast (by omega)
    omega

theorem unseen_second {data : List Byte} {len c r : Nat} {avail : Int} (start : LineStart data c)
    (rounds : newlinesBefore data c = 2 * r + 1) (left : avail = (len : Int) - c - r)
    (other : ¬(avail = 0 ∧ data[c]? = some newline))
    (absent : ∀ q, c ≤ q → q < c + avail.toNat → data[q]? ≠ some newline) :
    ¬∃ p, FirstEmpty data p ∧ Seen data len p := by
  rintro ⟨p, first, seen⟩
  have low := first.from_start start
  rcases seen.bounds low rounds.ge with inside | ⟨edge, -, -, bare⟩
  · exact absent p low (by omega) first.ends.1
  · by_cases near : p = c
    · subst near
      exact other ⟨by omega, first.ends.1⟩
    · exact absent (p - 1) (by omega) (by omega) bare

theorem receivedHeadLoop_iff {data : List Byte} {len c r fuel : Nat} {avail : Int} {bl : Option Nat}
    (start : LineStart data c) (rounds : newlinesBefore data c = 2 * r)
    (left : avail = (len : Int) - c - r) (enough : avail ≤ fuel)
    (last : bl = none ∧ c = 0 ∨ bl = some (c - 1) ∧ 1 ≤ c) :
    receivedHeadLoop data fuel c avail bl = true ↔ ∃ p, FirstEmpty data p ∧ Seen data len p := by
  induction fuel generalizing c r avail bl with
  | zero =>
      rw [receivedHeadLoop]
      exact iff_of_false Bool.false_ne_true (unseen_first start rounds left fun q _ _ => by omega)
  | succ fuel ih =>
      rw [receivedHeadLoop]
      cases found : memchr data c newline avail.toNat with
      | none =>
          exact iff_of_false Bool.false_ne_true
            (unseen_first start rounds left (memchr_eq_none.mp found))
      | some el =>
          obtain ⟨low, high, here, gap⟩ := memchr_eq_some.mp found
          obtain ⟨ends, clean⟩ := start.next low here gap
          have count : newlinesBefore data el = 2 * r := (newlinesBefore_gap low gap).trans rounds
          have test : (bl.any fun b => emptyBetween data b el) = true ↔ EndsEmpty data el := by
            rw [ends]
            rcases last with ⟨rfl, zero⟩ | ⟨rfl, positive⟩
            · simp [zero]
            · simp [positive]
          simp only
          by_cases empty : EndsEmpty data el
          · rw [if_pos (test.mpr empty)]
            exact iff_of_true rfl ⟨el, ⟨empty, clean⟩, .inl (by omega)⟩
          · rw [if_neg (fun yes => empty (test.mp yes))]
            have next := LineStart.behind_line here clean empty
            have odd : newlinesBefore data (el + 1) = 2 * r + 1 := by
              rw [newlinesBefore_next here, count]
            have remaining : avail - ((el : Int) + 1 - c) = (len : Int) - (el + 1 : Nat) - r := by
              push_cast
              omega
            rw [if_neg (by omega)]
            by_cases edge : avail - ((el : Int) + 1 - c) = 0 ∧ data[el + 1]? = some newline
            · -- the byte behind the ones received is looked at as well
              rw [if_pos edge]
              have bare : data[el + 1 - 1]? = some newline := by simpa using here
              refine iff_of_true rfl ⟨el + 1, ⟨⟨edge.2, .inl ⟨by omega, bare⟩⟩, next.clean⟩, ?_⟩
              exact .inr ⟨by omega, bare, by omega⟩
            · rw [if_neg edge]
              cases found' : memchr data (el + 1) newline (avail - ((el : Int) + 1 - c)).toNat with
              | none =>
                  exact iff_of_false Bool.false_ne_true
                    (unseen_second next odd remaining edge (memchr_eq_none.mp found'))
              | some bl' =>
                  obtain ⟨low', high', here', gap'⟩ := memchr_eq_some.mp found'
                  obtain ⟨ends', clean'⟩ := next.next low' here' gap'
                  have test' : emptyBetween data el bl' = true ↔ EndsEmpty data bl' := by
                    simp [ends']
                  have count' : newlinesBefore data bl' = 2 * r + 1 :=
                    (newlinesBefore_gap low' gap').trans odd
                  simp only
                  by_cases empty' : EndsEmpty data bl'
                  · rw [if_pos (test'.mpr empty')]
                    exact iff_of_true rfl ⟨bl', ⟨empty', clean'⟩, .inl (by omega)⟩
                  · rw [if_neg (fun yes => empty' (test'.mp yes))]
                    have next' := LineStart.behind_line here' clean' empty'
                    have even : newlinesBefore data (bl' + 1) = 2 * (r + 1) := by
                      rw [newlinesBefore_next here', count']
                      omega
                    have remaining' : avail - ((el : Int) + 1 - c) - ((bl' : Int) + 1 - el) =
                        (len : Int) - (bl' + 1 : Nat) - (r + 1 : Nat) := by
                      push_cast
                      omega
                    by_cases spent : avail - ((el : Int) + 1 - c) - ((bl' : Int) + 1 - el) ≤ 0
                    · rw [if_pos spent]
                      exact iff_of_false Bool.false_ne_true
                        (unseen_first next' even remaining' fun q _ _ => by omega)
                    · rw [if_neg spent]
                      apply ih next' even remaining'
                      · push_cast at enough
                        omega
                      · exact .inr ⟨by simp, by omega⟩

theorem rpcConnReceivedHead_iff (data : List Byte) (len : Nat) :
    rpcConnReceivedHead data len = true ↔ ∃ p, FirstEmpty data p ∧ Seen data len p := by
  have start : LineStart data 0 := ⟨fun q below => by omega, .inl rfl⟩
  exact receivedHeadLoop_iff start (r := 0) rfl (by simp) (Int.le_refl _) (.inl ⟨rfl, rfl⟩)

/-- The one newline received is the last byte received. -/
def EndsFirstLine (data : List Byte) (len : Nat) : Prop :=
  1 ≤ len ∧ data[len - 1]? = some newline ∧ newlinesBefore data len = 1

/-- What is seen lies within the received bytes, or right behind the first line. -/
theorem Seen.inside {data : List Byte} {len p : Nat} (seen : Seen data len p)
    (first : FirstEmpty data p) : p < len ∨ p = len ∧ EndsFirstLine data len := by
  rcases seen with inside | ⟨odd, bare, edge⟩
  · omega
  · by_cases half : newlinesBefore data p / 2 = 0
    · obtain rfl : p = len := by omega
      have positive : 1 ≤ p := by
        rcases first.ends.2 with ⟨positive, -⟩ | ⟨positive, -⟩ <;> omega
      exact .inr ⟨rfl, positive, bare, by omega⟩
    · omega

theorem HasEmptyLine.first {data : List Byte} {len : Nat} (has : HasEmptyLine data len) :
    ∃ p < len, FirstEmpty data p := by
  classical
  obtain ⟨p, below, ends⟩ := has
  have some_end : ∃ q, EndsEmpty data q := ⟨p, ends⟩
  refine ⟨Nat.find some_end, Nat.lt_of_le_of_lt (Nat.find_min' some_end ends) below, ?_⟩
  exact ⟨Nat.find_spec some_end, fun q less => Nat.find_min some_end less⟩

theorem FirstEmpty.unique {data : List Byte} {p q : Nat} (one : FirstEmpty data p)
    (other : FirstEmpty data q) : p = q := by
  rcases Nat.lt_trichotomy p q with less | same | more
  · exact absurd one.ends (other.first p less)
  · exact same
  · exact absurd other.ends (one.first q more)

section Front

variable {data data' : List Byte} {len : Nat}

theorem front_byte (same : data'.take len = data.take len) {i : Nat} (below : i < len) :
    data'[i]? = data[i]? := by
  rw [← List.getElem?_take_of_lt below, same, List.getElem?_take_of_lt below]

theorem newlinesBefore_front (same : data'.take len = data.take len) {p : Nat} (le : p ≤ len) :
    newlinesBefore data' p = newlinesBefore data p := by
  have cut : ∀ mem : List Byte, mem.take p = (mem.take len).take p := by
    intro mem
    rw [List.take_take, Nat.min_eq_left le]
  rw [newlinesBefore, newlinesBefore, cut data', cut data, same]

theorem endsEmpty_front (same : data'.take len = data.take len) {p : Nat} (below : p < len) :
    EndsEmpty data' p ↔ EndsEmpty data p := by
  simp only [EndsEmpty, front_byte same below, front_byte same (show p - 1 < len by omega),
    front_byte same (show p - 2 < len by omega)]

theorem EndsFirstLine.front (same : data'.take len = data.take len) (line : EndsFirstLine data len) :
    EndsFirstLine data' len := by
  obtain ⟨positive, last, one⟩ := line
  refine ⟨positive, ?_, ?_⟩
  · rw [front_byte same (by omega), last]
  · rw [newlinesBefore_front same (Nat.le_refl len), one]

end Front

theorem EndsEmpty.count {data : List Byte} {q : Nat} (ends : EndsEmpty data q) :
    2 ≤ newlinesBefore data (q + 1) := by
  have before : 1 ≤ newlinesBefore data q := by
    rcases ends.2 with ⟨positive, prev⟩ | ⟨positive, -, prev⟩
    · have more := newlinesBefore_mono data (show q - 1 + 1 ≤ q by omega)
      rw [newlinesBefore_next prev] at more
      omega
    · have more := newlinesBefore_mono data (show q - 2 + 1 ≤ q by omega)
      rw [newlinesBefore_next prev] at more
      omega
  rw [newlinesBefore_next ends.1]
  omega

end OpenRpc
