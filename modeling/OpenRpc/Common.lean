import OpenRpc.Lib.Decimal

/-! # Codes, error names and the tokenizer

`rpc_common.h` and `rpc_common.c`. The table of error names is a value handed to the functions that
search it, because `rpc_str_code` sorts it in place.
-/

namespace OpenRpc

open Memory Decimal

def RPC_VERSION : List Byte := text ['R', 'P', 'C', '/', '1', '.', '0']

/-- `rpc_code` with its numbers; a response read from the wire may carry any other `int`. -/
inductive RpcCode where
  | unkown | ok | badRequest | notFound | timeout | serverError
  deriving Repr, DecidableEq

def RpcCode.num : RpcCode → Int
  | .unkown => 0
  | .ok => 200
  | .badRequest => 400
  | .notFound => 404
  | .timeout => 408
  | .serverError => 500

/-- `struct ec`. -/
structure ErrCode where
  code : Int
  name : List Byte
  deriving Repr, DecidableEq

/-- `err_codes` as the source initialises it. -/
def errCodes : List ErrCode :=
  [ ⟨0, text ['U', 'n', 'k', 'o', 'w', 'n']⟩,
    ⟨200, text ['O', 'K']⟩,
    ⟨400, text ['B', 'a', 'd', 'R', 'e', 'q', 'u', 'e', 's', 't']⟩,
    ⟨404, text ['N', 'o', 't', 'F', 'o', 'u', 'n', 'd']⟩,
    ⟨408, text ['T', 'i', 'm', 'e', 'o', 'u', 't']⟩,
    ⟨500, text ['S', 'e', 'r', 'v', 'e', 'r', 'E', 'r', 'r', 'o', 'r']⟩ ]

/-- The C library's `bsearch` on `[l, u)`; the interval halves, so its length is fuel enough. -/
def bsearchIn {α : Type} (compare : α → Int) (base : List α) : Nat → Nat → Nat → Option α
  | 0, _, _ => none
  | fuel + 1, l, u =>
      if l < u then
        match base[(l + u) / 2]? with
        | none => none
        | some p =>
            if compare p < 0 then bsearchIn compare base fuel l ((l + u) / 2)
            else if 0 < compare p then bsearchIn compare base fuel ((l + u) / 2 + 1) u
            else some p
      else none

def bsearch {α : Type} (compare : α → Int) (base : List α) : Option α :=
  bsearchIn compare base base.length 0 base.length

/-- `comp_num`: the difference of the two codes, as an `int`. -/
def compNum (key element : ErrCode) : Int := toInt32 (key.code - element.code)

/-- `rpc_code_format`; `none` is NULL. -/
def rpcCodeFormat (table : List ErrCode) (code : Int) : Option (List Byte) :=
  (bsearch (compNum ⟨code, []⟩) table).map ErrCode.name

theorem bsearchIn_mem {α : Type} {compare : α → Int} {base : List α} {fuel l u : Nat} {found : α}
    (h : bsearchIn compare base fuel l u = some found) : found ∈ base := by
  induction fuel generalizing l u with
  | zero => cases h
  | succ fuel ih =>
      unfold bsearchIn at h
      split at h
      · split at h
        · cases h
        · rename_i p atMiddle
          split at h
          · exact ih h
          · split at h
            · exact ih h
            · cases h
              exact List.mem_of_getElem? atMiddle
      · cases h

/-- In the initial order every code finds its own name. -/
theorem rpcCodeFormat_initial (code : RpcCode) :
    ∃ e ∈ errCodes, e.code = code.num ∧ rpcCodeFormat errCodes code.num = some e.name := by
  cases code <;> decide

/-- `struct token_s`: where the value starts and its length. -/
structure Token where
  value : Nat
  length : Nat
  deriving Repr, DecidableEq

/-- The loop of `tokenize_command`. The first argument is the text from `*e` on: the loop writes only
    at `e`, behind what it still has to read. A text that ends without a terminator stops the loop;
    the callers terminate the line first. -/
def tokenizeLoop : List Byte → Nat → Nat → Nat → List Byte → List Token × List Byte
  | _, _, _, 0, mem => ([], mem)
  | [], _, _, _ + 1, mem => ([], mem)
  | c :: rest, b, e, left + 1, mem =>
      if c = blank then
        if b ≠ e then
          let (tokens, mem') := tokenizeLoop rest (e + 1) (e + 1) left (mem.set e nul)
          (⟨b, e - b⟩ :: tokens, mem')
        else tokenizeLoop rest (e + 1) (e + 1) (left + 1) mem
      else if c = nul then
        if b ≠ e then ([⟨b, e - b⟩], mem) else ([], mem)
      else tokenizeLoop rest b (e + 1) (left + 1) mem

/-- `tokenize_command`: the tokens found and the memory with the ending blanks overwritten. -/
def tokenizeCommand (mem : List Byte) (command maxToken : Nat) : List Token × List Byte :=
  tokenizeLoop (mem.drop command) command command maxToken mem

/-- A byte that neither separates nor ends words. -/
def WordByte (b : Byte) : Prop := b ≠ blank ∧ b ≠ nul

instance (b : Byte) : Decidable (WordByte b) := inferInstanceAs (Decidable (_ ∧ _))

theorem tokenizeLoop_word {word : List Byte} (plain : ∀ b ∈ word, WordByte b)
    (rest : List Byte) (b e left : Nat) (mem : List Byte) :
    tokenizeLoop (word ++ rest) b e left mem = tokenizeLoop rest b (e + word.length) left mem := by
  induction word generalizing e with
  | nil => rfl
  | cons c word ih =>
      obtain ⟨notBlank, notNul⟩ := plain c (by simp)
      cases left with
      | zero => cases rest <;> simp [tokenizeLoop]
      | succ left =>
          rw [List.cons_append, tokenizeLoop, if_neg notBlank, if_neg notNul,
            ih (fun x member => plain x (List.mem_cons_of_mem c member))]
          congr 1
          simp only [List.length_cons]
          omega

theorem tokenizeLoop_blank {b e left : Nat} (rest mem : List Byte) (started : b < e) :
    tokenizeLoop (blank :: rest) b e (left + 1) mem =
      (⟨b, e - b⟩ :: (tokenizeLoop rest (e + 1) (e + 1) left (mem.set e nul)).1,
        (tokenizeLoop rest (e + 1) (e + 1) left (mem.set e nul)).2) := by
  rw [tokenizeLoop, if_pos rfl, if_pos (by omega)]

theorem tokenizeLoop_end {b e left : Nat} (rest mem : List Byte) (started : b < e) :
    tokenizeLoop (nul :: rest) b e (left + 1) mem = ([⟨b, e - b⟩], mem) := by
  rw [tokenizeLoop, if_neg (by decide), if_pos rfl, if_pos (by omega)]

theorem tokenizeCommand_three (pre w₁ w₂ w₃ rest : List Byte)
    (plain₁ : ∀ b ∈ w₁, WordByte b) (plain₂ : ∀ b ∈ w₂, WordByte b) (plain₃ : ∀ b ∈ w₃, WordByte b)
    (ne₁ : w₁ ≠ []) (ne₂ : w₂ ≠ []) (ne₃ : w₃ ≠ []) :
    tokenizeCommand (pre ++ (w₁ ++ blank :: (w₂ ++ blank :: (w₃ ++ nul :: rest)))) pre.length 3 =
      ([⟨pre.length, w₁.length⟩, ⟨pre.length + w₁.length + 1, w₂.length⟩,
          ⟨pre.length + w₁.length + 1 + w₂.length + 1, w₃.length⟩],
        pre ++ (w₁ ++ nul :: (w₂ ++ nul :: (w₃ ++ nul :: rest)))) := by
  have pos₁ := List.length_pos_of_ne_nil ne₁
  have pos₂ := List.length_pos_of_ne_nil ne₂
  have pos₃ := List.length_pos_of_ne_nil ne₃
  have first : (pre ++ (w₁ ++ blank :: (w₂ ++ blank :: (w₃ ++ nul :: rest)))).set
      (pre.length + w₁.length) nul = pre ++ (w₁ ++ nul :: (w₂ ++ blank :: (w₃ ++ nul :: rest))) := by
    simp
  have second : (pre ++ (w₁ ++ nul :: (w₂ ++ blank :: (w₃ ++ nul :: rest)))).set
      (pre.length + w₁.length + 1 + w₂.length) nul =
        pre ++ (w₁ ++ nul :: (w₂ ++ nul :: (w₃ ++ nul :: rest))) := by
    rw [set_at nul (show pre ++ (w₁ ++ nul :: (w₂ ++ blank :: (w₃ ++ nul :: rest))) =
        (pre ++ (w₁ ++ nul :: w₂)) ++ blank :: (w₃ ++ nul :: rest) by simp)
        (by simp only [List.length_append, List.length_cons]; omega)]
    simp
  rw [tokenizeCommand, List.drop_left, tokenizeLoop_word plain₁,
    tokenizeLoop_blank _ _ (by omega), first, tokenizeLoop_word plain₂,
    tokenizeLoop_blank _ _ (by omega), second, tokenizeLoop_word plain₃,
    tokenizeLoop_end _ _ (by omega)]
  simp only [Nat.add_sub_cancel_left]

/-- The tokenizer writes where it reads, and it reads as far as the first terminator. -/
theorem tokenizeLoop_within {text : List Byte} {k : Nat} (ends : text[k]? = some nul)
    (b e left : Nat) (mem : List Byte) :
    SameOutside e (e + k) mem (tokenizeLoop text b e left mem).2 := by
  induction text generalizing k b e left mem with
  | nil => cases ends
  | cons x rest ih =>
      cases left with
      | zero =>
          rw [tokenizeLoop]
          exact .refl _ _ _
      | succ left =>
          rw [tokenizeLoop]
          cases k with
          | zero =>
              cases ends
              rw [if_neg (by decide), if_pos rfl]
              split <;> exact .refl _ _ _
          | succ k =>
              have later : ∀ b left mem, SameOutside e (e + (k + 1)) mem
                  (tokenizeLoop rest b (e + 1) left mem).2 :=
                fun b left mem => (ih ends b (e + 1) left mem).mono (by omega) (by omega)
              split
              · split
                · exact (SameOutside.set mem nul (Nat.le_refl e) (by omega)).trans (later _ _ _)
                · exact later _ _ _
              · split
                · split <;> exact .refl _ _ _
                · exact later _ _ _

theorem tokenizeLoop_value {text : List Byte} {k : Nat} (ends : text[k]? = some nul)
    {b e left : Nat} (started : b ≤ e) (mem : List Byte) {t : Token}
    (found : t ∈ (tokenizeLoop text b e left mem).1) : b ≤ t.value ∧ t.value ≤ e + k := by
  induction text generalizing k b e left mem with
  | nil => cases ends
  | cons x rest ih =>
      cases left with
      | zero =>
          rw [tokenizeLoop] at found
          cases found
      | succ left =>
          rw [tokenizeLoop] at found
          cases k with
          | zero =>
              cases ends
              rw [if_neg (by decide), if_pos rfl] at found
              split at found
              · rw [List.mem_singleton.mp found]
                exact ⟨Nat.le_refl b, started⟩
              · cases found
          | succ k =>
              have later : ∀ {b' left mem}, b ≤ b' → b' ≤ e + 1 →
                  t ∈ (tokenizeLoop rest b' (e + 1) left mem).1 →
                    b ≤ t.value ∧ t.value ≤ e + (k + 1) := by
                intro b' left mem lower upper found
                obtain ⟨low, high⟩ := ih ends upper mem found
                omega
              split at found
              · split at found
                · cases List.mem_cons.mp found with
                  | inl first =>
                      subst first
                      exact ⟨Nat.le_refl b, by simp only; omega⟩
                  | inr other => exact later (by omega) (Nat.le_refl _) other
                · exact later (by omega) (Nat.le_refl _) found
              · split at found
                · split at found
                  · rw [List.mem_singleton.mp found]
                    exact ⟨Nat.le_refl b, by simp only; omega⟩
                  · cases found
                · exact later (Nat.le_refl b) (by omega) found

/-- The words and a cut inside one of them are written between the start and the end of the line. -/
theorem cutWord_within {mem mem' : List Byte} {command stop maxToken ch : Nat} {tokens : List Token}
    {t : Token} {word : List Byte} (ends : (mem.drop command)[stop]? = some nul)
    (split : tokenizeCommand mem command maxToken = (tokens, mem')) (member : t ∈ tokens)
    (read : cstring mem' t.value = some word) (inside : ch < word.length) :
    SameOutside command (command + stop) mem (mem'.set (t.value + ch) nul) := by
  have words := tokenizeLoop_within ends command command maxToken mem
  have start : t ∈ (tokenizeLoop (mem.drop command) command command maxToken mem).1 →
      command ≤ t.value ∧ t.value ≤ command + stop :=
    tokenizeLoop_value ends (Nat.le_refl command) mem
  rw [← tokenizeCommand, split] at words start
  obtain ⟨low, high⟩ := start member
  have stays : mem'[command + stop]? = some nul := by
    rw [words.same _ (.inr (Nat.le_refl _)), ← List.getElem?_drop, ends]
  have within := cstring_stops read stays high
  exact words.trans (.set mem' nul (by omega) (by omega))

end OpenRpc
