import OpenRpc.LockDiscipline

/-! # Time-outs of a pop

`rpc_async_queue_timed_pop` against what its waits report. The test of `pthread_cond_timedwait` is the
wrong way round: a wake-up ends the loop, and a time-out that finds the queue empty makes it wait again.
-/

namespace OpenRpc

open Locks Code

namespace Locked

/-- `ts` of `rpc_async_queue_timed_pop`. -/
def timespecOf (ms : Int) : Timespec := ⟨ms.tdiv 1000, ms.tmod 1000 * 1000 * 1000⟩

/-- `rpc_asyn_queue_pop_inner` up to its unlock: the item it takes. -/
def rpcAsynQueueTake (q : Nat) (attempt : Bool) (tv : Option Timespec) : Locked (Option Nat) := do
  lock (.queue q)
  awaitItem q attempt tv
  let item ← unlink q
  unlock (.queue q)
  pure item

/-- The first item of a queue, the one that was pushed first. -/
def firstItem (q : Nat) (s : Shared) : Option Nat := (s.queues q).head

/-- What an item holds, or nothing for no item. -/
def itemData (s : Shared) (item : Option Nat) : Option Nat := item.map fun item => (s.heap item).data

/-- What the waits of a timed pop should be like: it waits only while the queue is empty, a time-out is
    the last thing it waits for, and it comes back with nothing only behind one. -/
structure WaitsRight (q : Nat) (s : Shared) (waits : List (Turn Shared)) (item : Option Nat) : Prop where
  empty : ∀ k < waits.length, firstItem q (afterTurns s (waits.take k)) = none
  oldest : item = firstItem q (afterTurns s waits)
  last : ∀ turn ∈ waits.dropLast, turn.timedOut = false
  nothing : item = none → ∃ turn, waits.getLast? = some turn ∧ turn.timedOut = true

/-- A timed pop in a run honours its time-out: it waits right, and returns what the item it took holds
    while no other thread writes to that item. Where it has not returned, no wait has timed out. -/
def HonoursTimeout (q : Nat) (ms : Int) (r : Run Mutex Shared) : Prop :=
  match rpcAsynQueueTake q false (some (timespecOf ms)) r with
  | .returned item r' =>
      (∃ waits, r.others.tail = waits ++ r'.others ∧ WaitsRight q r.found waits item) ∧
        ∃ answer r'', rpcAsyncQueueTimedPop q ms r = .returned answer r'' ∧
          (itemData r'.found item = itemData r'.shared item → answer = itemData r'.shared item)
  | .unfinished =>
      (∀ k ≤ r.others.tail.length, firstItem q (afterTurns r.found (r.others.tail.take k)) = none) ∧
        ∀ turn ∈ r.others.tail, turn.timedOut = false
  | _ => False

/-- An item is there at the first look, or the first wait ends with one there, however it ends. -/
def FirstWaitFindsItem (q : Nat) (r : Run Mutex Shared) : Prop :=
  firstItem q r.found ≠ none ∨
    ∀ turn ∈ r.others.tail.head?, firstItem q (turn.act r.found) ≠ none

variable {q : Nat} {r : Run Mutex Shared}

theorem rpcAsynQueuePopInner_take (q : Nat) (attempt : Bool) (tv : Option Timespec) :
    rpcAsynQueuePopInner q attempt tv = rpcAsynQueueTake q attempt tv >>= giveBack := by
  simp only [rpcAsynQueuePopInner, rpcAsynQueueTake, bind_assoc, pure_bind]

theorem unlink_returned (q : Nat) (r : Run Mutex Shared) :
    ∃ s, unlink q r = .returned (firstItem q r.shared) ⟨r.held, s, r.others⟩ := by
  unfold unlink firstItem
  rw [bind_returned (show look r = .returned r.shared r from rfl)]
  cases (r.shared.queues q).head with
  | none => exact ⟨r.shared, rfl⟩
  | some item => exact ⟨_, rfl⟩

theorem giveBack_returned (free : r.held .freeListLocker = false) (item : Option Nat) :
    ∃ r', giveBack item r = .returned (itemData r.found item) r' := by
  cases item with
  | none => exact ⟨r, rfl⟩
  | some item =>
      simp [giveBack, rpcQueueItemFree, itemData, bind, pure, lock, unlock, look, put, free, setNext,
        Run.setShared]

theorem take_cases (own : r.held (.queue q) = false) (tv : Timespec) :
    (rpcAsynQueueTake q false (some tv) r = .unfinished ∧
      (∀ k ≤ r.others.tail.length, firstItem q (afterTurns r.found (r.others.tail.take k)) = none) ∧
        ∀ turn ∈ r.others.tail, turn.timedOut = true) ∨
    ∃ done rest s, r.others.tail = done ++ rest ∧
      rpcAsynQueueTake q false (some tv) r =
        .returned (firstItem q (afterTurns r.found done)) ⟨r.held, s, rest⟩ ∧
      (∀ k < done.length, firstItem q (afterTurns r.found (done.take k)) = none) ∧
      (∀ turn ∈ done.dropLast, turn.timedOut = true) ∧
      (firstItem q (afterTurns r.found done) = none →
        ∃ turn, done.getLast? = some turn ∧ turn.timedOut = false) := by
  let locked := Function.update r.held (.queue q) true
  have holds : locked (.queue q) = true := Function.update_self ..
  let waits : Shared → Bool := fun s => (s.queues q).head.isNone
  let leaves : Turn Shared → Bool := fun turn => !turn.timedOut
  have isEmpty : ∀ s, waits s = true ↔ firstItem q s = none := fun s => Option.isNone_iff_eq_none
  have begins : lock (.queue q) r = .returned () ⟨locked, r.found, r.others.tail⟩ := by
    simp [lock, own, Run.turned, Run.setHeld, locked]
  have waitsFor : awaitItem q false (some tv) ⟨locked, r.found, r.others.tail⟩ =
      waitWhile.go (.queue q) waits leaves locked r.found r.others.tail := rfl
  rcases waitWhile_go_cases waits leaves holds r.found r.others.tail with
    ⟨ends, empty, timed⟩ | ⟨done, rest, parts, ends, empty, timed, left⟩
  · refine .inl ⟨?_, fun k below => (isEmpty _).mp (empty k below), by simpa [leaves] using timed⟩
    rw [rpcAsynQueueTake, bind_returned begins]
    simp only [bind, waitsFor, ends]
  · obtain ⟨s, taken⟩ := unlink_returned q ⟨locked, afterTurns r.found done, rest⟩
    refine .inr ⟨done, rest, s, parts, ?_, fun k below => (isEmpty _).mp (empty k below),
      by simpa [leaves] using timed, fun still => ?_⟩
    · rw [rpcAsynQueueTake, bind_returned begins, bind_returned (waitsFor.trans ends), bind_returned taken]
      simp [bind, pure, unlock, locked, Run.setHeld, Run.released own]
    · obtain ⟨turn, last, wakes⟩ := left ((isEmpty _).mpr still)
      exact ⟨turn, last, by simpa [leaves] using wakes⟩

theorem timedPop_answers (free : r.held .freeListLocker = false) (ms : Int) {item : Option Nat}
    {r' : Run Mutex Shared} (took : rpcAsynQueueTake q false (some (timespecOf ms)) r = .returned item r')
    (same : r'.held = r.held) :
    ∃ r'', rpcAsyncQueueTimedPop q ms r = .returned (itemData r'.found item) r'' := by
  obtain ⟨r'', ends⟩ := giveBack_returned (by rwa [same]) item
  refine ⟨r'', ?_⟩
  have inner : rpcAsyncQueueTimedPop q ms = rpcAsynQueueTake q false (some (timespecOf ms)) >>= giveBack :=
    rpcAsynQueuePopInner_take q false _
  rw [inner, bind_returned took, ends]

/-- The waits of the loop are right only where there was none, or one that ended with an item queued. -/
theorem waitsRight_iff {s : Shared} {done rest : List (Turn Shared)}
    (empty : ∀ k < done.length, firstItem q (afterTurns s (done.take k)) = none)
    (timed : ∀ turn ∈ done.dropLast, turn.timedOut = true)
    (left : firstItem q (afterTurns s done) = none →
      ∃ turn, done.getLast? = some turn ∧ turn.timedOut = false) :
    WaitsRight q s done (firstItem q (afterTurns s done)) ↔
      firstItem q s ≠ none ∨ ∀ turn ∈ (done ++ rest).head?, firstItem q (turn.act s) ≠ none := by
  rcases done with _ | ⟨turn, _ | ⟨next, done⟩⟩
  · have some_first : firstItem q s ≠ none := fun still => by simpa using left still
    refine iff_of_true ⟨by simp, rfl, by simp, fun still => absurd still some_first⟩ (.inl some_first)
  · have none_first : firstItem q s = none := empty 0 Nat.one_pos
    have behind : afterTurns s [turn] = turn.act s := rfl
    rw [behind] at left
    constructor
    · intro right
      refine .inr fun turn' here still => ?_
      obtain rfl : turn = turn' := by simpa using here
      have woken : turn.timedOut = false := by simpa using left still
      have out : turn.timedOut = true := by simpa using right.nothing still
      simp [woken] at out
    · intro found
      have some_behind : firstItem q (turn.act s) ≠ none := by simpa [none_first] using found
      exact ⟨empty, rfl, by simp, fun still => absurd still some_behind⟩
  · -- A second wait has begun behind one that timed out.
    have out : turn.timedOut = true := timed turn (by simp)
    have none_first : firstItem q s = none := empty 0 (by simp)
    have none_second : firstItem q (turn.act s) = none := empty 1 (by simp)
    refine iff_of_false (fun right => ?_) (by simp [none_first, none_second])
    have woken : turn.timedOut = false := right.last turn (by simp)
    simp [woken] at out

/-- A timed pop honours its time-out exactly where an item is queued at its first look, or where its
    first wait ends with one queued. -/
theorem timedPop_honours (ms : Int) (own : r.held (.queue q) = false)
    (free : r.held .freeListLocker = false) :
    HonoursTimeout q ms r ↔ FirstWaitFindsItem q r := by
  unfold HonoursTimeout FirstWaitFindsItem
  rcases take_cases own (timespecOf ms) with
    ⟨ends, empty, timed⟩ | ⟨done, rest, s, parts, ends, empty, timed, left⟩
  · rw [ends]
    have none_first : firstItem q r.found = none := empty 0 (Nat.zero_le _)
    cases turns : r.others.tail with
    | nil => simpa [turns] using empty
    | cons turn others =>
        have out : turn.timedOut = true := timed turn (by simp [turns])
        have behind : firstItem q (turn.act r.found) = none := by
          simpa [turns, afterTurns] using empty 1 (by simp [turns])
        simp [out, none_first, behind]
  · rw [ends]
    obtain ⟨r'', answers⟩ := timedPop_answers free ms ends rfl
    rw [parts, ← waitsRight_iff empty timed left]
    constructor
    · rintro ⟨⟨waits, same, right⟩, -⟩
      obtain rfl : done = waits := List.append_cancel_right same
      exact right
    · exact fun right => ⟨⟨done, rfl, right⟩, _, r'', answers, id⟩

/-- Another thread's push on a queue that is empty. -/
def pushAct (q item data : Nat) (s : Shared) : Shared :=
  { s with heap := Function.update s.heap item ⟨data, none⟩ }.setQueue q ⟨some item, some item⟩

/-- A timed pop of an empty queue, with what the others do at its lock and at its waits. -/
def emptyRun (waits : List (Turn Shared)) : Run Mutex Shared :=
  { LockedCall.fresh rpcSessionpoolNew with others := ⟨id, false⟩ :: waits }

/-- A timed pop of an empty queue that a push wakes. -/
theorem timedPop_honours_push : HonoursTimeout 0 250 (emptyRun [⟨pushAct 0 1 7, false⟩]) := by
  refine (timedPop_honours 250 rfl rfl).mpr (.inr fun turn here => ?_)
  obtain rfl : (⟨pushAct 0 1 7, false⟩ : Turn Shared) = turn := by simpa [emptyRun] using here
  simp [firstItem, pushAct, Shared.setQueue]

/-- Behind a wait that times out it waits again, and behind a wake-up for nothing it returns NULL. -/
theorem timedPop_honours_fails :
    ¬HonoursTimeout 0 250 (emptyRun [⟨id, true⟩, ⟨pushAct 0 1 7, true⟩]) ∧
    ¬HonoursTimeout 0 250 (emptyRun [⟨id, false⟩]) := by
  constructor
  · intro honours
    obtain ⟨r', ends, used⟩ : ∃ r', rpcAsynQueueTake 0 false (some (timespecOf 250))
        (emptyRun [⟨id, true⟩, ⟨pushAct 0 1 7, true⟩]) = .returned (some 1) r' ∧ r'.others = [] :=
      ⟨_, rfl, rfl⟩
    simp only [HonoursTimeout, ends] at honours
    obtain ⟨⟨waits, same, right⟩, -⟩ := honours
    rw [used, List.append_nil] at same
    subst same
    have woken := right.last ⟨id, true⟩ (by simp [emptyRun])
    cases woken
  · intro honours
    obtain ⟨r', ends, used⟩ : ∃ r', rpcAsynQueueTake 0 false (some (timespecOf 250))
        (emptyRun [⟨id, false⟩]) = .returned none r' ∧ r'.others = [] :=
      ⟨_, rfl, rfl⟩
    simp only [HonoursTimeout, ends] at honours
    obtain ⟨⟨waits, same, right⟩, -⟩ := honours
    rw [used, List.append_nil] at same
    subst same
    obtain ⟨turn, last, out⟩ := right.nothing rfl
    obtain rfl : (⟨id, false⟩ : Turn Shared) = turn := by simpa [emptyRun] using last
    cases out

end Locked

end OpenRpc
