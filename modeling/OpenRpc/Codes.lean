import OpenRpc.Response
import OpenRpc.Lib.Transition

/-! # Translating codes and names

`rpc_code_format` searches `err_codes` by number and `rpc_str_code` searches it by name. The table is
written down in the order of the numbers, and `rpc_str_code` sorts it by name, in place, before it
searches.
-/

namespace OpenRpc

open Memory Decimal Transition

/-- `strcmp` on the bytes before the terminators. -/
def strcmp : List Byte → List Byte → Int
  | [], [] => 0
  | [], b :: _ => -(b.toNat : Int)
  | a :: _, [] => a.toNat
  | a :: as, b :: bs => if a = b then strcmp as bs else (a.toNat : Int) - b.toNat

/-- `comp_code`. -/
def compCode (key element : ErrCode) : Int := strcmp key.name element.name

/-- The C library's `qsort`. -/
def qsort {α : Type} (compare : α → α → Int) (base : List α) : List α :=
  base.insertionSort fun a b => compare a b ≤ 0

/-- `rpc_str_code`: the code, and the table as the call leaves it. The number of the key is not set
    and not compared. -/
def rpcStrCode (table : List ErrCode) (str : List Byte) : Int × List ErrCode :=
  let table := qsort compCode table
  match bsearch (compCode ⟨0, str⟩) table with
  | some res => (res.code, table)
  | none => (RpcCode.unkown.num, table)

/-- A C string. -/
structure CString where
  bytes : List Byte
  clean : nul ∉ bytes

/-- A call that looks at the table. `status` is `rpc_send_response`, which prints the name of its code
    into the status line. -/
inductive CodeCall where
  | format (code : RpcCode)
  | str (s : CString)
  | status (code : RpcCode)

/-- The table behind a call. -/
def codeStep : Step (List ErrCode) CodeCall
  | table, .str s => some (rpcStrCode table s.bytes).2
  | table, .format _ | table, .status _ => some table

/-- The call is answered by `err_codes` as it is written in the source. -/
def CallAnswered (table : List ErrCode) : CodeCall → Prop
  | .format code => ∃ e ∈ errCodes, e.code = code.num ∧ rpcCodeFormat table code.num = some e.name
  | .str s =>
      (∀ e ∈ errCodes, e.name = s.bytes → (rpcStrCode table s.bytes).1 = e.code) ∧
      ((∀ e ∈ errCodes, e.name ≠ s.bytes) → (rpcStrCode table s.bytes).1 = RpcCode.unkown.num)
  | .status code => ∃ e ∈ errCodes, e.code = code.num ∧
      ∀ seq output len, (responseEntries table code.num seq output len).head? =
        some (statusText code.num e.name ++ [newline])

/-- Formatting a code and translating a name undo each other on this table. -/
def Inverse (table : List ErrCode) : Prop :=
  (∀ code : RpcCode, ∃ name, rpcCodeFormat table code.num = some name ∧
    (rpcStrCode table name).1 = code.num) ∧
  ∀ e ∈ errCodes, rpcCodeFormat table (rpcStrCode table e.name).1 = some e.name

/-- The code is found by its number also in the order of the names. -/
def RpcCode.Survives (code : RpcCode) : Prop :=
  code = .badRequest ∨ code = .notFound ∨ code = .serverError

def CodeCall.Survives : CodeCall → Prop
  | .format code | .status code => code.Survives
  | .str _ => True

/-- The call leaves the order of the table alone. -/
def CodeCall.looks : CodeCall → Bool
  | .format _ | .status _ => true
  | .str _ => false

/-- `err_codes` in the order of its names. -/
def byName : List ErrCode :=
  [ ⟨400, text ['B', 'a', 'd', 'R', 'e', 'q', 'u', 'e', 's', 't']⟩,
    ⟨404, text ['N', 'o', 't', 'F', 'o', 'u', 'n', 'd']⟩,
    ⟨200, text ['O', 'K']⟩,
    ⟨500, text ['S', 'e', 'r', 'v', 'e', 'r', 'E', 'r', 'r', 'o', 'r']⟩,
    ⟨408, text ['T', 'i', 'm', 'e', 'o', 'u', 't']⟩,
    ⟨0, text ['U', 'n', 'k', 'o', 'w', 'n']⟩ ]

theorem first_ne_zero {b : Byte} {bs : List Byte} (clean : nul ∉ b :: bs) : b.toNat ≠ 0 := by
  intro zero
  apply clean
  rw [List.mem_cons]
  exact .inl (UInt8.toNat_inj.mp zero.symm)

theorem strcmp_eq_zero {s t : List Byte} (cleanS : nul ∉ s) (cleanT : nul ∉ t) :
    strcmp s t = 0 ↔ s = t := by
  induction s generalizing t with
  | nil =>
      cases t with
      | nil => simp [strcmp]
      | cons b bs =>
          have positive := first_ne_zero cleanT
          simp only [strcmp, reduceCtorEq, iff_false]
          omega
  | cons a as ih =>
      cases t with
      | nil =>
          have positive := first_ne_zero cleanS
          simp only [strcmp, reduceCtorEq, iff_false]
          omega
      | cons b bs =>
          simp only [List.mem_cons, not_or] at cleanS cleanT
          simp only [strcmp, List.cons.injEq]
          split
          · rename_i same
            rw [ih cleanS.2 cleanT.2]
            exact (and_iff_right same).symm
          · rename_i other
            have apart : a.toNat ≠ b.toNat := fun same => other (UInt8.toNat_inj.mp same)
            simp only [other, false_and, iff_false]
            omega

theorem strcmp_trans {s t u : List Byte} (cleanS : nul ∉ s) (cleanU : nul ∉ u)
    (first : strcmp s t ≤ 0) (second : strcmp t u < 0) : strcmp s u < 0 := by
  induction s generalizing t u with
  | nil =>
      cases u with
      | nil => cases t <;> simp only [strcmp] at second <;> omega
      | cons c cs =>
          have positive := first_ne_zero cleanU
          unfold strcmp
          omega
  | cons a as ih =>
      have positive := first_ne_zero cleanS
      simp only [List.mem_cons, not_or] at cleanS
      cases t with
      | nil =>
          unfold strcmp at first
          omega
      | cons b bs =>
          cases u with
          | nil =>
              unfold strcmp at second
              omega
          | cons c cs =>
              simp only [List.mem_cons, not_or] at cleanU
              have apart : ∀ {x y : Byte}, ¬x = y → x.toNat ≠ y.toNat :=
                fun other same => other (UInt8.toNat_inj.mp same)
              simp only [strcmp] at first second ⊢
              by_cases ab : a = b
              · subst ab
                rw [if_pos rfl] at first
                split at second
                · rename_i ac
                  rw [if_pos ac]
                  exact ih cleanS.2 cleanU.2 first second
                · rename_i ac
                  rwa [if_neg ac]
              · rw [if_neg ab] at first
                have less := apart ab
                split at second
                · rename_i bc
                  subst bc
                  rw [if_neg ab]
                  omega
                · have ac : a ≠ c := by
                    rintro rfl
                    omega
                  rw [if_neg ac]
                  omega

/-- In a table on which the comparison falls from above 0 to below it, the search finds the element it
    is 0 on. -/
theorem bsearchIn_finds {α : Type} {compare : α → Int} {base : List α}
    (falls : base.Pairwise fun x y => compare x ≤ 0 → compare y < 0) {fuel l u k : Nat} {p : α}
    (cell : base[k]? = some p) (equal : compare p = 0) (low : l ≤ k) (high : k < u)
    (bound : u ≤ base.length) (enough : u - l ≤ fuel) :
    bsearchIn compare base fuel l u = some p := by
  have order : ∀ {i j : Nat} {x y : α}, base[i]? = some x → base[j]? = some y → i < j →
      compare x ≤ 0 → compare y < 0 := by
    intro i j x y atI atJ below
    obtain ⟨insideI, rfl⟩ := List.getElem?_eq_some_iff.mp atI
    obtain ⟨insideJ, rfl⟩ := List.getElem?_eq_some_iff.mp atJ
    exact List.pairwise_iff_getElem.mp falls i j insideI insideJ below
  induction fuel generalizing l u with
  | zero => omega
  | succ fuel ih =>
      have inside : (l + u) / 2 < base.length := by omega
      obtain ⟨x, middle⟩ : ∃ x, base[(l + u) / 2]? = some x :=
        ⟨_, List.getElem?_eq_getElem inside⟩
      simp only [bsearchIn, if_pos (Nat.lt_of_le_of_lt low high), middle]
      by_cases left : compare x < 0
      · have before : k < (l + u) / 2 := by
          by_contra behind
          rcases Nat.lt_or_eq_of_le (Nat.not_lt.mp behind) with less | same
          · have falls := order middle cell less (by omega)
            omega
          · rw [same, cell] at middle
            cases middle
            omega
        rw [if_pos left]
        exact ih low before (by omega) (by omega)
      · rw [if_neg left]
        by_cases right : 0 < compare x
        · have behind : (l + u) / 2 < k := by
            by_contra before
            rcases Nat.lt_or_eq_of_le (Nat.not_lt.mp before) with less | same
            · have falls := order cell middle less (by omega)
              omega
            · rw [← same, cell] at middle
              cases middle
              omega
          rw [if_pos right]
          exact ih behind high bound (by omega)
        · have here : (l + u) / 2 = k := by
            by_contra other
            rcases Nat.lt_or_gt_of_ne other with less | more
            · have falls := order middle cell less (by omega)
              omega
            · have falls := order cell middle more (by omega)
              omega
          rw [if_neg right, ← middle, here, cell]

theorem bsearchIn_equal {α : Type} {compare : α → Int} {base : List α} {fuel l u : Nat} {p : α}
    (found : bsearchIn compare base fuel l u = some p) : compare p = 0 := by
  induction fuel generalizing l u with
  | zero => cases found
  | succ fuel ih =>
      unfold bsearchIn at found
      split at found
      · split at found
        · cases found
        · split at found
          · exact ih found
          · split at found
            · exact ih found
            · cases found
              omega
      · cases found

theorem bsearch_finds {α : Type} {compare : α → Int} {base : List α}
    (falls : base.Pairwise fun x y => compare x ≤ 0 → compare y < 0) {p : α} (member : p ∈ base)
    (equal : compare p = 0) : bsearch compare base = some p := by
  obtain ⟨k, cell⟩ := List.mem_iff_getElem?.mp member
  obtain ⟨inside, -⟩ := List.getElem?_eq_some_iff.mp cell
  exact bsearchIn_finds falls cell equal (Nat.zero_le k) inside (Nat.le_refl _) (Nat.sub_le ..)

theorem bsearch_misses {α : Type} {compare : α → Int} {base : List α}
    (other : ∀ p ∈ base, compare p ≠ 0) : bsearch compare base = none := by
  cases found : bsearch compare base with
  | none => rfl
  | some p => exact absurd (bsearchIn_equal found) (other p (bsearchIn_mem found))

theorem byName_perm : byName.Perm errCodes := by decide

theorem byName_clean : ∀ e ∈ byName, nul ∉ e.name := by decide

theorem byName_rises : byName.Pairwise fun a b => strcmp a.name b.name < 0 := by decide

/-- Whatever sorts the table, it comes out in this order: no two of its names are the same. -/
theorem byName_unique {table : List ErrCode} (same : table.Perm errCodes)
    (sorted : table.Pairwise fun a b => compCode a b ≤ 0) : table = byName := by
  have names : ∀ a ∈ byName, ∀ b ∈ byName, compCode a b ≤ 0 → compCode b a ≤ 0 → a = b := by decide
  have perm := same.trans byName_perm.symm
  exact perm.eq_of_pairwise (fun a b ofA => names a (perm.subset ofA) b) sorted
    (byName_rises.imp Int.le_of_lt)

theorem qsort_errCodes : qsort compCode errCodes = byName := by decide

theorem qsort_byName : qsort compCode byName = byName :=
  (byName_rises.imp Int.le_of_lt).insertionSort_eq

theorem byName_falls (s : CString) :
    byName.Pairwise fun x y => compCode ⟨0, s.bytes⟩ x ≤ 0 → compCode ⟨0, s.bytes⟩ y < 0 := by
  refine byName_rises.imp_of_mem fun {x y} _ member less first => ?_
  exact strcmp_trans s.clean (byName_clean y member) first less

/-- `rpc_str_code` is right, and leaves the table in the order of the names. -/
theorem rpcStrCode_byName {table : List ErrCode} (sorted : qsort compCode table = byName)
    (s : CString) : CallAnswered table (.str s) ∧ (rpcStrCode table s.bytes).2 = byName := by
  refine ⟨⟨fun e member same => ?_, fun other => ?_⟩, ?_⟩
  · have listed := byName_perm.symm.subset member
    have equal : compCode ⟨0, s.bytes⟩ e = 0 := by
      rw [compCode, strcmp_eq_zero s.clean (byName_clean e listed), same]
    rw [rpcStrCode, sorted, bsearch_finds (byName_falls s) listed equal]
  · have misses : bsearch (compCode ⟨0, s.bytes⟩) byName = none := by
      apply bsearch_misses
      intro e member equal
      rw [compCode, strcmp_eq_zero s.clean (byName_clean e member)] at equal
      exact other e (byName_perm.subset member) equal.symm
    rw [rpcStrCode, sorted, misses]
  · rw [rpcStrCode, sorted]
    cases bsearch (compCode ⟨0, s.bytes⟩) byName <;> rfl

theorem answered_errCodes (call : CodeCall) : CallAnswered errCodes call := by
  cases call with
  | format code => exact rpcCodeFormat_initial code
  | str s => exact (rpcStrCode_byName qsort_errCodes s).1
  | status code =>
      obtain ⟨e, member, same, found⟩ := rpcCodeFormat_initial code
      refine ⟨e, member, same, fun seq output len => ?_⟩
      simp only [responseEntries, phraseText, found, Option.getD_some, List.cons_append,
        List.head?_cons]

theorem rpcCodeFormat_byName (code : RpcCode) :
    (code.Survives ∧ ∃ e ∈ errCodes, e.code = code.num ∧
      rpcCodeFormat byName code.num = some e.name) ∨
    (¬code.Survives ∧ rpcCodeFormat byName code.num = none) := by
  unfold RpcCode.Survives
  cases code <;> decide

theorem errCodes_named {e : ErrCode} (member : e ∈ errCodes) (code : Int) :
    statusText code (text ['(', 'n', 'u', 'l', 'l', ')']) ≠ statusText code e.name := by
  have names : ∀ e ∈ errCodes, text ['(', 'n', 'u', 'l', 'l', ')'] ≠ e.name := by decide
  intro same
  simp only [statusText, wordsText, List.append_cancel_left_eq, List.cons.injEq, true_and] at same
  exact names e member same

theorem answered_byName (call : CodeCall) : CallAnswered byName call ↔ call.Survives := by
  cases call with
  | str s => exact ⟨fun _ => trivial, fun _ => (rpcStrCode_byName qsort_byName s).1⟩
  | format code =>
      simp only [CallAnswered, CodeCall.Survives]
      rcases rpcCodeFormat_byName code with ⟨survives, answered⟩ | ⟨lost, missing⟩
      · exact ⟨fun _ => survives, fun _ => answered⟩
      · simp [lost, missing]
  | status code =>
      simp only [CallAnswered, CodeCall.Survives]
      rcases rpcCodeFormat_byName code with ⟨survives, e, member, same, found⟩ | ⟨lost, missing⟩
      · refine ⟨fun _ => survives, fun _ => ⟨e, member, same, fun seq output len => ?_⟩⟩
        simp only [responseEntries, phraseText, found, Option.getD_some, List.cons_append,
          List.head?_cons]
      · refine ⟨fun answered => ?_, fun survives => absurd survives lost⟩
        obtain ⟨e, member, -, prints⟩ := answered
        have printed := prints 0 none 0
        simp only [responseEntries, phraseText, missing, Option.getD_none, List.cons_append,
          List.head?_cons, Option.some.injEq, List.append_cancel_right_eq] at printed
        exact absurd printed (errCodes_named member _)

theorem codeStep_str {table : List ErrCode} (sorted : qsort compCode table = byName) (s : CString) :
    codeStep table (.str s) = some byName := by
  rw [codeStep, (rpcStrCode_byName sorted s).2]

theorem codeStep_byName (call : CodeCall) : codeStep byName call = some byName := by
  cases call with
  | str s => exact codeStep_str qsort_byName s
  | format | status => rfl

theorem along_byName (calls : List CodeCall) :
    Along codeStep CallAnswered byName calls ↔ ∀ call ∈ calls, call.Survives := by
  induction calls with
  | nil => simp [Along]
  | cons call calls ih =>
      simp only [Along, codeStep_byName, Option.some.injEq, forall_eq', answered_byName, ih,
        List.forall_mem_cons]

theorem exec_codeStep (calls : List CodeCall) :
    exec codeStep errCodes calls = some errCodes ∧ (∀ call ∈ calls, call.looks) ∨
      exec codeStep errCodes calls = some byName ∧ ¬∀ call ∈ calls, call.looks := by
  have stays : ∀ calls, exec codeStep byName calls = some byName := by
    intro calls
    induction calls with
    | nil => rfl
    | cons call calls ih => rw [exec, codeStep_byName, Option.bind_some, ih]
  induction calls with
  | nil => exact .inl ⟨rfl, by simp⟩
  | cons call calls ih =>
      cases call with
      | str s =>
          refine .inr ⟨?_, by simp [CodeCall.looks]⟩
          rw [exec, codeStep_str qsort_errCodes, Option.bind_some, stays]
      | format code | status code =>
          simpa only [exec, codeStep, Option.bind_some, List.forall_mem_cons, CodeCall.looks,
            true_and] using ih

theorem inverse_errCodes : Inverse errCodes := by
  have strs : ∀ e ∈ errCodes, (rpcStrCode errCodes e.name).1 = e.code := by
    intro e member
    have clean := byName_clean e (byName_perm.symm.subset member)
    exact (rpcStrCode_byName qsort_errCodes ⟨e.name, clean⟩).1.1 e member rfl
  have formats : ∀ e ∈ errCodes, rpcCodeFormat errCodes e.code = some e.name := by decide
  constructor
  · intro code
    obtain ⟨e, member, same, found⟩ := rpcCodeFormat_initial code
    exact ⟨e.name, found, (strs e member).trans same⟩
  · intro e member
    rw [strs e member]
    exact formats e member

theorem not_inverse_byName : ¬Inverse byName := by
  rintro ⟨formats, -⟩
  obtain ⟨name, found, -⟩ := formats .ok
  have missing : rpcCodeFormat byName RpcCode.ok.num = none := by decide
  rw [missing] at found
  cases found

/-- Every call is answered exactly if the ones from the first `rpc_str_code` on are for codes that the
    search by number still finds; and the two translations are inverse to each other at exactly the
    points of the run with no `rpc_str_code` before them. -/
theorem codeCalls_answered (calls : List CodeCall) :
    (Along codeStep CallAnswered errCodes calls ↔
      ∀ call ∈ calls.dropWhile CodeCall.looks, call.Survives) ∧
    ((∃ table, exec codeStep errCodes calls = some table ∧ Inverse table) ↔
      ∀ call ∈ calls, call.looks) := by
  constructor
  · induction calls with
    | nil => simp [Along]
    | cons call calls ih =>
        cases call with
        | str s =>
            simp only [Along, codeStep_str qsort_errCodes, Option.some.injEq, forall_eq',
              answered_errCodes, true_and, along_byName, List.dropWhile_cons, CodeCall.looks]
            simp [CodeCall.Survives]
        | format code | status code =>
            simp only [Along, codeStep, Option.some.injEq, forall_eq', answered_errCodes, true_and,
              ih, List.dropWhile_cons, CodeCall.looks, if_true]
  · rcases exec_codeStep calls with ⟨reached, all⟩ | ⟨reached, sorted⟩
    · exact iff_of_true ⟨errCodes, reached, inverse_errCodes⟩ all
    · refine iff_of_false ?_ sorted
      rintro ⟨table, here, inverse⟩
      cases reached.symm.trans here
      exact not_inverse_byName inverse

/-- After one `rpc_str_code` the search by number does not find 200 any more. -/
theorem codeCalls_answered_fails :
    ¬∀ calls, Along codeStep CallAnswered errCodes calls ∧
      ∃ table, exec codeStep errCodes calls = some table ∧ Inverse table := by
  intro all
  have run := (all [.str ⟨[], by simp⟩, .format .ok]).1
  have answered := (run byName (codeStep_str qsort_errCodes _)).2
  obtain ⟨e, -, -, found⟩ := (answered byName rfl).1
  have missing : rpcCodeFormat byName RpcCode.ok.num = none := by decide
  rw [missing] at found
  cases found

end OpenRpc
