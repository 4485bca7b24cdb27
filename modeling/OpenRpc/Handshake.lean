import OpenRpc.Lib.Transition

/-! # The start-up of a client

`rpc_client_connect` starts a thread for each connection and waits until all of them have counted
themselves in `init_count`. Each `thread_client_handler` locks a copy of the client's mutex that it has
made on its own stack, so nothing of what it does is kept apart from the test and the wait.
-/

namespace OpenRpc

open Transition

/-- Where `rpc_client_connect` is. `wait` is before `pthread_cond_wait`, `asleep` in it, and `woken` in
    it behind a signal, before it has the mutex again. -/
inductive ConnectAt where
  | starting
  | lock
  | test
  | wait
  | asleep
  | woken
  | unlock
  | returned
  deriving Repr, DecidableEq

/-- Where a `thread_client_handler` is: before it copies the mutex, before it locks the copy, which is
    locked from the start if the mutex was, around the two halves of `init_count++`, before the signal,
    before the unlock, behind it. -/
inductive HandlerAt where
  | copy
  | lock (held : Bool)
  | read
  | write (v : Nat)
  | signal
  | unlock
  | finished
  deriving Repr, DecidableEq

/-- `held` is the client's own mutex. -/
structure Handshake where
  threadCount : Nat
  held : Bool
  initCount : Nat
  connect : ConnectAt
  handlers : List HandlerAt
  deriving Repr, DecidableEq

/-- The client as `rpc_client_new` makes it, with its threads initialised and none started. -/
def Handshake.start (threadCount : Nat) : Handshake := ⟨threadCount, false, 0, .starting, []⟩

inductive ClientThread where
  | connect
  | handler (i : Nat)
  deriving Repr, DecidableEq

/-- The next step of `rpc_client_connect`, from its second loop on. -/
def rpcClientConnect (s : Handshake) : Option Handshake :=
  match s.connect with
  | .starting =>
      if s.handlers.length < s.threadCount then some { s with handlers := s.handlers ++ [.copy] }
      else some { s with connect := .lock }
  | .lock | .woken => if s.held then none else some { s with held := true, connect := .test }
  | .test =>
      some { s with connect := if s.initCount < s.threadCount then .wait else .unlock }
  | .wait => some { s with held := false, connect := .asleep }
  | .unlock => some { s with held := false, connect := .returned }
  | .asleep | .returned => none

def Handshake.put (s : Handshake) (i : Nat) (h : HandlerAt) : Handshake :=
  { s with handlers := s.handlers.set i h }

/-- `pthread_cond_signal` on the client's condition: nobody else ever sleeps on it. -/
def Handshake.signal (s : Handshake) : Handshake :=
  { s with connect := if s.connect = .asleep then .woken else s.connect }

/-- The next step of the `i`-th `thread_client_handler`. -/
def threadClientHandler (s : Handshake) (i : Nat) : Option Handshake :=
  match s.handlers[i]? with
  | some .copy => some (s.put i (.lock s.held))
  | some (.lock held) => if held then none else some (s.put i .read)
  | some .read => some (s.put i (.write s.initCount))
  | some (.write v) => some { s.put i .signal with initCount := v + 1 }
  | some .signal => some (s.signal.put i .unlock)
  | some .unlock => some (s.put i .finished)
  | some .finished | none => none

def handshakeStep : Step Handshake ClientThread
  | s, .connect => rpcClientConnect s
  | s, .handler i => threadClientHandler s i

/-- The handler is going to signal: it is not behind its signal, and it does not wait for a copy that
    nobody unlocks. -/
def HandlerAt.Signals : HandlerAt → Prop
  | .copy | .lock false | .read | .write _ | .signal => True
  | .lock true | .unlock | .finished => False

/-- The handler has written `init_count`. -/
def HandlerAt.counted : HandlerAt → Bool
  | .signal | .unlock | .finished => true
  | .copy | .lock _ | .read | .write _ => false

namespace Handshake

/-- `rpc_client_connect` has not returned, and no thread can take a step. -/
def Stuck (s : Handshake) : Prop := s.connect ≠ .returned ∧ ∀ t, handshakeStep s t = none

/-- All handlers have been started and have come to their end. -/
def AllFinished (s : Handshake) : Prop :=
  s.handlers.length = s.threadCount ∧ ∀ h ∈ s.handlers, h = .finished

/-- What the handshake is for: it does not get stuck, and no increment is lost. -/
def Sound (s : Handshake) : Prop := ¬s.Stuck ∧ (s.AllFinished → ¬s.initCount < s.threadCount)

/-- The step finds what the code relies on: connect goes to sleep only while some handler is still
    going to signal, and a handler writes `init_count` only over the value it has read. -/
def Undisturbed (s : Handshake) : ClientThread → Prop
  | .connect => s.connect = .wait → ∃ h ∈ s.handlers, h.Signals
  | .handler i => ∀ v, s.handlers[i]? = some (.write v) → v = s.initCount

end Handshake

/-- All that a step can do. -/
inductive HandshakeMoves (s : Handshake) : ClientThread → Handshake → Prop
  | create (here : s.connect = .starting) (more : s.handlers.length < s.threadCount) :
      HandshakeMoves s .connect { s with handlers := s.handlers ++ [.copy] }
  | started (here : s.connect = .starting) (all : ¬s.handlers.length < s.threadCount) :
      HandshakeMoves s .connect { s with connect := .lock }
  | lock (here : s.connect = .lock ∨ s.connect = .woken) (free : s.held = false) :
      HandshakeMoves s .connect { s with held := true, connect := .test }
  | below (here : s.connect = .test) (less : s.initCount < s.threadCount) :
      HandshakeMoves s .connect { s with connect := .wait }
  | reached (here : s.connect = .test) (enough : ¬s.initCount < s.threadCount) :
      HandshakeMoves s .connect { s with connect := .unlock }
  | sleep (here : s.connect = .wait) :
      HandshakeMoves s .connect { s with held := false, connect := .asleep }
  | unlock (here : s.connect = .unlock) :
      HandshakeMoves s .connect { s with held := false, connect := .returned }
  | copy {i : Nat} (here : s.handlers[i]? = some .copy) :
      HandshakeMoves s (.handler i) (s.put i (.lock s.held))
  | lockCopy {i : Nat} (here : s.handlers[i]? = some (.lock false)) :
      HandshakeMoves s (.handler i) (s.put i .read)
  | read {i : Nat} (here : s.handlers[i]? = some .read) :
      HandshakeMoves s (.handler i) (s.put i (.write s.initCount))
  | write {i v : Nat} (here : s.handlers[i]? = some (.write v)) :
      HandshakeMoves s (.handler i) { s.put i .signal with initCount := v + 1 }
  | signal {i : Nat} (here : s.handlers[i]? = some .signal) :
      HandshakeMoves s (.handler i) (s.signal.put i .unlock)
  | unlockCopy {i : Nat} (here : s.handlers[i]? = some .unlock) :
      HandshakeMoves s (.handler i) (s.put i .finished)

theorem handshakeStep_moves {s s' : Handshake} {t : ClientThread}
    (step : handshakeStep s t = some s') : HandshakeMoves s t s' := by
  cases t with
  | connect =>
      simp only [handshakeStep, rpcClientConnect] at step
      split at step
      · rename_i here
        split at step
        · rename_i more
          cases step
          exact .create here more
        · rename_i all
          cases step
          exact .started here all
      · rename_i here
        split at step
        · cases step
        · rename_i free
          cases step
          exact .lock (.inl here) (Bool.not_eq_true _ ▸ free)
      · rename_i here
        split at step
        · cases step
        · rename_i free
          cases step
          exact .lock (.inr here) (Bool.not_eq_true _ ▸ free)
      · rename_i here
        split at step
        · rename_i less
          cases step
          exact .below here less
        · rename_i enough
          cases step
          exact .reached here enough
      · rename_i here
        cases step
        exact .sleep here
      · rename_i here
        cases step
        exact .unlock here
      · cases step
      · cases step
  | handler i =>
      simp only [handshakeStep, threadClientHandler] at step
      split at step
      · rename_i here
        cases step
        exact .copy here
      · rename_i held here
        cases held with
        | true => cases step
        | false =>
            cases step
            exact .lockCopy here
      · rename_i here
        cases step
        exact .read here
      · rename_i v here
        cases step
        exact .write here
      · rename_i here
        cases step
        exact .signal here
      · rename_i here
        cases step
        exact .unlockCopy here
      · cases step
      · cases step

/-- How many handlers have written `init_count`. -/
def Handshake.written (s : Handshake) : Nat := s.handlers.countP HandlerAt.counted

section Put

variable {s : Handshake} {i : Nat} {h h' : HandlerAt}

theorem written_put (here : s.handlers[i]? = some h) (same : h'.counted = h.counted) :
    (s.put i h').written = s.written := by
  obtain ⟨inside, cell⟩ := List.getElem?_eq_some_iff.mp here
  have counts := List.boole_getElem_le_countP (p := HandlerAt.counted) inside
  simp only [Handshake.written, Handshake.put, List.countP_set inside, cell, same] at counts ⊢
  omega

theorem written_count (here : s.handlers[i]? = some h) (before : h.counted = false)
    (after : h'.counted = true) : (s.put i h').written = s.written + 1 := by
  obtain ⟨inside, cell⟩ := List.getElem?_eq_some_iff.mp here
  simp [Handshake.written, Handshake.put, List.countP_set inside, cell, before, after]

theorem written_lt (here : s.handlers[i]? = some h) (before : h.counted = false) :
    s.written < s.handlers.length := by
  have after : (s.put i .signal).written = s.written + 1 := written_count here before rfl
  have most := List.countP_le_length (p := HandlerAt.counted) (l := (s.put i .signal).handlers)
  simp only [Handshake.written, Handshake.put, List.length_set] at after most ⊢
  omega

theorem signals_put (here : s.handlers[i]? = some h) (still : h.Signals → h'.Signals)
    (signals : ∃ x ∈ s.handlers, x.Signals) : ∃ x ∈ (s.put i h').handlers, x.Signals := by
  obtain ⟨x, member, goes⟩ := signals
  obtain ⟨j, cell⟩ := List.mem_iff_getElem?.mp member
  by_cases same : j = i
  · subst same
    cases here.symm.trans cell
    obtain ⟨inside, -⟩ := List.getElem?_eq_some_iff.mp cell
    exact ⟨h', List.mem_iff_getElem?.mpr ⟨j, List.getElem?_set_self inside⟩, still goes⟩
  · refine ⟨x, List.mem_iff_getElem?.mpr ⟨j, ?_⟩, goes⟩
    rw [Handshake.put, List.getElem?_set_ne (Ne.symm same), cell]

end Put

/-- What holds of every state: the mutex is held where the code says so, connect leaves its loop only
    behind the last increment, and a value read that is not that of `init_count` any more is below the
    number of increments. -/
structure Handshake.Kept (s : Handshake) : Prop where
  mutex : s.held = true ↔ s.connect = .test ∨ s.connect = .wait ∨ s.connect = .unlock
  fits : s.handlers.length ≤ s.threadCount
  started : s.connect = .starting ∨ s.handlers.length = s.threadCount
  counted : s.initCount ≤ s.written
  pending : ∀ v, HandlerAt.write v ∈ s.handlers → v = s.initCount ∨ v < s.written
  complete : s.connect = .unlock ∨ s.connect = .returned → s.threadCount ≤ s.initCount

theorem kept_start (n : Nat) : (Handshake.start n).Kept where
  mutex := by simp [Handshake.start]
  fits := Nat.zero_le n
  started := .inl rfl
  counted := Nat.zero_le _
  pending := by simp [Handshake.start]
  complete := by simp [Handshake.start]

theorem Handshake.Kept.put {s : Handshake} {i : Nat} {h h' : HandlerAt} (kept : s.Kept)
    (here : s.handlers[i]? = some h) (same : h'.counted = h.counted)
    (read : ∀ v, h' = .write v → v = s.initCount) : (s.put i h').Kept where
  mutex := kept.mutex
  fits := by simpa [Handshake.put] using kept.fits
  started := by simpa [Handshake.put] using kept.started
  counted := by
    rw [written_put here same]
    exact kept.counted
  pending := by
    intro v member
    rw [written_put here same]
    rcases List.mem_or_eq_of_mem_set member with old | new
    · exact kept.pending v old
    · exact .inl (read v new.symm)
  complete := kept.complete

theorem Handshake.Kept.signal {s : Handshake} (kept : s.Kept) : s.signal.Kept := by
  by_cases sleeping : s.connect = .asleep
  · have woken : s.signal = { s with connect := .woken } := by simp [Handshake.signal, sleeping]
    have mutex := kept.mutex
    have started := kept.started
    rw [woken]
    simp only [sleeping, reduceCtorEq, or_self, false_or] at mutex started
    exact ⟨by simpa using mutex, kept.fits, .inr started, kept.counted, kept.pending, by simp⟩
  · have same : s.signal = s := by simp [Handshake.signal, sleeping]
    rwa [same]

theorem Handshake.Kept.write {s : Handshake} {i v : Nat} (kept : s.Kept)
    (here : s.handlers[i]? = some (.write v)) :
    Handshake.Kept { s.put i .signal with initCount := v + 1 } := by
  have count : (s.put i .signal).written = s.written + 1 := written_count here rfl rfl
  have value := kept.pending v (List.mem_of_getElem? here)
  have counted := kept.counted
  have room := written_lt here rfl
  have fits := kept.fits
  refine ⟨kept.mutex, by simpa [Handshake.put] using kept.fits,
    by simpa [Handshake.put] using kept.started, ?_, ?_, ?_⟩
  · show v + 1 ≤ (s.put i .signal).written
    omega
  · intro u member
    show u = v + 1 ∨ u < (s.put i .signal).written
    rcases List.mem_or_eq_of_mem_set member with old | new
    · have other := kept.pending u old
      omega
    · cases new
  · intro left
    have early := kept.complete left
    omega

theorem handshakeStep_kept {s s' : Handshake} {t : ClientThread}
    (step : handshakeStep s t = some s') (kept : s.Kept) : s'.Kept := by
  have started := kept.started
  have mutex := kept.mutex
  cases handshakeStep_moves step with
  | create here more =>
      refine ⟨kept.mutex, by simpa using more, .inl here, ?_, ?_, kept.complete⟩
      · simpa [Handshake.written, HandlerAt.counted] using kept.counted
      · intro v member
        have old : HandlerAt.write v ∈ s.handlers := by simpa using member
        simpa [Handshake.written, HandlerAt.counted] using kept.pending v old
  | started here all =>
      have fits := kept.fits
      simp only [here, reduceCtorEq, or_self, iff_false] at mutex
      exact ⟨by simpa using mutex, fits, .inr (Nat.le_antisymm fits (Nat.not_lt.mp all)),
        kept.counted, kept.pending, by simp⟩
  | lock here free =>
      rcases here with here | here
      · simp only [here, reduceCtorEq, false_or] at started
        exact ⟨by simp, kept.fits, .inr started, kept.counted, kept.pending, by simp⟩
      · simp only [here, reduceCtorEq, false_or] at started
        exact ⟨by simp, kept.fits, .inr started, kept.counted, kept.pending, by simp⟩
  | below here less =>
      simp only [here, reduceCtorEq, false_or] at started
      exact ⟨by simpa [here] using mutex, kept.fits, .inr started, kept.counted, kept.pending, by simp⟩
  | reached here enough =>
      simp only [here, reduceCtorEq, false_or] at started
      exact ⟨by simpa [here] using mutex, kept.fits, .inr started, kept.counted, kept.pending,
        fun _ => Nat.not_lt.mp enough⟩
  | sleep here =>
      simp only [here, reduceCtorEq, false_or] at started
      exact ⟨by simp, kept.fits, .inr started, kept.counted, kept.pending, by simp⟩
  | unlock here =>
      simp only [here, reduceCtorEq, false_or] at started
      exact ⟨by simp, kept.fits, .inr started, kept.counted, kept.pending,
        fun _ => kept.complete (.inl here)⟩
  | copy here => exact kept.put here rfl (by simp)
  | lockCopy here => exact kept.put here rfl (by simp)
  | read here =>
      refine kept.put here rfl fun v same => ?_
      cases same
      rfl
  | write here => exact kept.write here
  | signal here => exact kept.signal.put here rfl (by simp)
  | unlockCopy here => exact kept.put here rfl (by simp)

/-- Where no thread can take a step, connect has returned or sleeps, and no handler is going to
    signal. -/
theorem halted {s : Handshake} (kept : s.Kept) (none_steps : ∀ t, handshakeStep s t = none) :
    (s.connect = .returned ∨ s.connect = .asleep) ∧ ∀ h ∈ s.handlers, ¬h.Signals := by
  constructor
  · have still := none_steps .connect
    have mutex := kept.mutex
    simp only [handshakeStep, rpcClientConnect] at still
    cases here : s.connect <;> simp_all
    all_goals
      split at still <;> cases still
  · intro h member goes
    obtain ⟨i, here⟩ := List.mem_iff_getElem?.mp member
    have still := none_steps (.handler i)
    simp only [handshakeStep, threadClientHandler, here] at still
    cases h with
    | lock held =>
        cases held with
        | true => exact goes
        | false => cases still
    | copy | read | write | signal => cases still
    | unlock | finished => exact goes

/-- What holds along a run that nothing disturbs: no increment is lost, and while connect sleeps some
    handler is going to signal. -/
structure Handshake.Lossless (s : Handshake) : Prop where
  kept : s.Kept
  exact : s.initCount = s.written
  awake : s.connect = .asleep → ∃ h ∈ s.handlers, h.Signals

theorem lossless_start (n : Nat) : (Handshake.start n).Lossless :=
  ⟨kept_start n, rfl, by simp [Handshake.start]⟩

/-- A handler goes on without writing, and still signals if connect sleeps. -/
theorem Handshake.Lossless.put {s : Handshake} {i : Nat} {h h' : HandlerAt} (lossless : s.Lossless)
    (kept : (s.put i h').Kept) (here : s.handlers[i]? = some h) (same : h'.counted = h.counted)
    (still : s.connect = .asleep → h.Signals → h'.Signals) : (s.put i h').Lossless where
  kept := kept
  exact := lossless.exact.trans (written_put here same).symm
  awake := fun sleeping => signals_put here (still sleeping) (lossless.awake sleeping)

theorem handshakeStep_lossless {s s' : Handshake} {t : ClientThread} (undisturbed : s.Undisturbed t)
    (step : handshakeStep s t = some s') (lossless : s.Lossless) : s'.Lossless := by
  have kept := handshakeStep_kept step lossless.kept
  have exact := lossless.exact
  have awake := lossless.awake
  cases handshakeStep_moves step with
  | create here more =>
      refine ⟨kept, by simpa [Handshake.written, HandlerAt.counted] using exact, ?_⟩
      simp [here]
  | started here all => exact ⟨kept, exact, by simp⟩
  | lock here free => exact ⟨kept, exact, by simp⟩
  | below here less => exact ⟨kept, exact, by simp⟩
  | reached here enough => exact ⟨kept, exact, by simp⟩
  | sleep here => exact ⟨kept, exact, fun _ => undisturbed here⟩
  | unlock here => exact ⟨kept, exact, by simp⟩
  | copy here =>
      refine lossless.put kept here rfl fun sleeping _ => ?_
      -- connect has given the mutex up, so this copy is not locked
      have free : s.held = false := by
        by_contra held
        have place := lossless.kept.mutex.mp (by simpa using held)
        simp [sleeping] at place
      simp [free, HandlerAt.Signals]
  | lockCopy here => exact lossless.put kept here rfl fun _ _ => trivial
  | read here => exact lossless.put kept here rfl fun _ _ => trivial
  | @write i v here =>
      have value := undisturbed v here
      have count : (s.put i .signal).written = s.written + 1 := written_count here rfl rfl
      refine ⟨kept, ?_, fun sleeping => signals_put here (fun _ => trivial) (awake sleeping)⟩
      show v + 1 = (s.put i .signal).written
      omega
  | @signal i here =>
      have count : (s.signal.put i .unlock).written = s.written := written_put here rfl
      refine ⟨kept, exact.trans count.symm, fun sleeping => ?_⟩
      by_cases asleep : s.connect = .asleep <;>
        simp [Handshake.put, Handshake.signal, asleep] at sleeping
  | unlockCopy here => exact lossless.put kept here rfl fun _ goes => goes.elim

theorem Handshake.Lossless.sound {s : Handshake} (lossless : s.Lossless) : s.Sound := by
  constructor
  · rintro ⟨waiting, none_steps⟩
    obtain ⟨place, silent⟩ := halted lossless.kept none_steps
    obtain ⟨h, member, goes⟩ := lossless.awake (place.resolve_left waiting)
    exact silent h member goes
  · rintro ⟨all, finished⟩
    have everyone : s.written = s.handlers.length := by
      rw [Handshake.written, List.countP_eq_length]
      intro h member
      rw [finished h member]
      rfl
    have exact := lossless.exact
    omega

/-- What cannot be made good again: a signal that nobody will send, or an increment that is gone. -/
def Handshake.Broken (s : Handshake) : Prop :=
  (s.connect = .asleep ∧ ∀ h ∈ s.handlers, ¬h.Signals) ∨
    s.initCount < s.written ∧ ∀ v, HandlerAt.write v ∈ s.handlers → v < s.written

theorem handshakeStep_breaks {s s' : Handshake} {t : ClientThread} (kept : s.Kept)
    (step : handshakeStep s t = some s') (disturbed : ¬s.Undisturbed t) : s'.Broken := by
  cases handshakeStep_moves step with
  | sleep here =>
      refine .inl ⟨rfl, fun h member goes => ?_⟩
      exact disturbed fun _ => ⟨h, member, goes⟩
  | @write i v here =>
      have other : v ≠ s.initCount := by
        intro same
        apply disturbed
        intro u cell
        cases here.symm.trans cell
        exact same
      have below := (kept.pending v (List.mem_of_getElem? here)).resolve_left other
      have count : (s.put i .signal).written = s.written + 1 := written_count here rfl rfl
      have counted := kept.counted
      refine .inr ⟨?_, fun u member => ?_⟩
      · show v + 1 < (s.put i .signal).written
        omega
      · show u < (s.put i .signal).written
        rcases List.mem_or_eq_of_mem_set member with old | new
        · have pending := kept.pending u old
          omega
        · cases new
  | create here | started here | lock here | below here | reached here | unlock here =>
      refine absurd (fun waits => ?_) disturbed
      simp_all
  | copy here | lockCopy here | read here | signal here | unlockCopy here =>
      refine absurd (fun v cell => ?_) disturbed
      cases here.symm.trans cell

theorem Handshake.written_le (s : Handshake) : s.written ≤ s.handlers.length :=
  List.countP_le_length

/-- A handler goes on without writing, in a state where an increment is gone. -/
theorem lost_put {s : Handshake} {i : Nat} {h h' : HandlerAt} (here : s.handlers[i]? = some h)
    (same : h'.counted = h.counted) (lost : s.initCount < s.written)
    (pending : ∀ v, HandlerAt.write v ∈ s.handlers → v < s.written)
    (read : ∀ v, h' = .write v → v = s.initCount) : (s.put i h').Broken := by
  refine .inr ⟨lost.trans_eq (written_put here same).symm, fun v member => ?_⟩
  rw [written_put here same]
  rcases List.mem_or_eq_of_mem_set member with old | new
  · exact pending v old
  · exact (read v new.symm) ▸ lost

theorem handshakeStep_lasts {s s' : Handshake} {t : ClientThread}
    (step : handshakeStep s t = some s') (broken : s.Broken) : s'.Broken := by
  rcases broken with ⟨sleeping, silent⟩ | ⟨lost, pending⟩
  · have stays : ∀ {i : Nat} {h : HandlerAt}, s.handlers[i]? = some h → ¬h.Signals :=
      fun here => silent _ (List.mem_of_getElem? here)
    cases handshakeStep_moves step with
    | create here | started here | below here | reached here | sleep here | unlock here =>
        cases here.symm.trans sleeping
    | lock here =>
        rcases here with here | here <;> cases here.symm.trans sleeping
    | copy here | lockCopy here | read here | write here | signal here =>
        exact absurd trivial (stays here)
    | unlockCopy here =>
        refine .inl ⟨sleeping, fun h member => ?_⟩
        rcases List.mem_or_eq_of_mem_set member with old | new
        · exact silent h old
        · rw [new]
          exact id
  · cases handshakeStep_moves step with
    | create here more =>
        have count : Handshake.written { s with handlers := s.handlers ++ [.copy] } = s.written := by
          simp [Handshake.written, HandlerAt.counted]
        refine .inr ⟨lost.trans_eq count.symm, fun v member => ?_⟩
        rw [count]
        exact pending v (by simpa using member)
    | started | lock | below | reached | sleep | unlock => exact .inr ⟨lost, pending⟩
    | copy here => exact lost_put here rfl lost pending (by simp)
    | lockCopy here => exact lost_put here rfl lost pending (by simp)
    | read here => exact lost_put here rfl lost pending fun v same => (HandlerAt.write.inj same).symm
    | @write i v here =>
        have count : (s.put i .signal).written = s.written + 1 := written_count here rfl rfl
        have below := pending v (List.mem_of_getElem? here)
        refine .inr ⟨?_, fun u member => ?_⟩
        · show v + 1 < (s.put i .signal).written
          omega
        · show u < (s.put i .signal).written
          rcases List.mem_or_eq_of_mem_set member with old | new
          · have below := pending u old
            omega
          · cases new
    | signal here => exact lost_put (s := s.signal) here rfl lost pending (by simp)
    | unlockCopy here => exact lost_put here rfl lost pending (by simp)

theorem Handshake.Broken.not_sound {s : Handshake} (broken : s.Broken) (kept : s.Kept)
    (none_steps : ∀ t, handshakeStep s t = none) : ¬s.Sound := by
  rintro ⟨moving, -⟩
  have back : s.connect = .returned := by
    by_contra waiting
    exact moving ⟨waiting, none_steps⟩
  rcases broken with ⟨sleeping, -⟩ | ⟨lost, -⟩
  · cases back.symm.trans sleeping
  · have enough := kept.complete (.inr back)
    have fits := kept.fits
    have most := s.written_le
    omega

/-- Along every run that nothing disturbs the handshake is sound in every state; and a run that has
    come to its end in a sound state was one that nothing disturbed. -/
theorem handshake_sound (threadCount : Nat) (run : List ClientThread) :
    (Along handshakeStep Handshake.Undisturbed (.start threadCount) run →
      Always handshakeStep Handshake.Sound (.start threadCount) run) ∧
    ∀ s, exec handshakeStep (.start threadCount) run = some s →
      (∀ t, handshakeStep s t = none) → s.Sound →
        Along handshakeStep Handshake.Undisturbed (.start threadCount) run := by
  constructor
  · intro along
    apply always_of_along (I := Handshake.Lossless) (fun s lossless => lossless.sound)
      (fun s t s' undisturbed step => handshakeStep_lossless undisturbed step) along
    exact lossless_start threadCount
  · intro s reached none_steps sound
    have kept : s.Kept :=
      exec_invariant (fun _ _ _ => handshakeStep_kept) reached (kept_start threadCount)
    apply along_of_final (I := Handshake.Kept) (B := Handshake.Broken)
      (fun _ _ _ => handshakeStep_kept) (fun _ _ _ => handshakeStep_breaks)
      (fun _ _ _ _ => handshakeStep_lasts) reached _ (kept_start threadCount)
    exact fun broken => broken.not_sound kept none_steps sound

/-- One handler: it copies and locks the mutex while connect sleeps, and wakes it. -/
theorem handshake_sound_oneThread :
    let run : List ClientThread :=
      [.connect, .connect, .connect, .connect, .connect, .handler 0, .handler 0, .handler 0,
        .handler 0, .handler 0, .handler 0, .connect, .connect, .connect]
    Along handshakeStep Handshake.Undisturbed (.start 1) run ∧
      Always handshakeStep Handshake.Sound (.start 1) run ∧
      exec handshakeStep (.start 1) run = some ⟨1, false, 1, .returned, [.finished]⟩ := by
  intro run
  obtain ⟨sound, undisturbed⟩ := handshake_sound 1 run
  have none_steps : ∀ t, handshakeStep ⟨1, false, 1, .returned, [.finished]⟩ t = none := by
    intro t
    cases t with
    | connect => rfl
    | handler i => cases i <;> rfl
  have along := undisturbed _ rfl none_steps ⟨fun stuck => stuck.1 rfl, fun _ => by decide⟩
  exact ⟨along, sound along, rfl⟩

/-- Connect finds `init_count` at 0; before it sleeps the handler, which has a copy of the mutex made
    while it was free, counts itself and signals. Connect then sleeps for ever. -/
theorem handshake_sound_fails :
    ¬∀ threadCount run, Always handshakeStep Handshake.Sound (.start threadCount) run := by
  intro always
  let run : List ClientThread :=
    [.connect, .connect, .handler 0, .connect, .connect, .handler 0, .handler 0, .handler 0,
      .handler 0, .handler 0, .connect]
  have last : Handshake.Sound ⟨1, false, 1, .asleep, [.finished]⟩ := always_last (always 1 run) rfl
  apply last.1
  refine ⟨by decide, fun t => ?_⟩
  cases t with
  | connect => rfl
  | handler i => cases i <;> rfl

end OpenRpc
