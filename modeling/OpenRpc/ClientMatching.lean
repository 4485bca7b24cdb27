import OpenRpc.ClientThread
import OpenRpc.Lib.Tokens

/-! # Matching responses to calls

Every request object has one place, every live session has one phase, and every message in flight is
the token of the session its `seq` names. From that: each issued call is pending, outstanding or
completed, its callback runs at most once with what belongs to it, and `cb_rsp_read` always finds the
request it looks for.
-/

namespace OpenRpc

open Transition Memory Tokens

/-- Who has a request object. -/
inductive Place where
  | outside
  | free
  | caller (t : Nat)
  | pending
  | writer
  | slot (i : Int)
  | reader

def Place.Live : Place → Prop
  | .pending | .writer | .slot _ => True
  | _ => False

/-- How far the session of a slot has come, with the message that carries it. -/
inductive Phase where
  | held
  | sent (conn : Nat) (m : SentRequest)
  | received (conn : Nat) (m : SentRequest)
  | answered (conn : Nat) (rsp : SentResponse)
  | reading (rsp : SentResponse)
  | called

structure Session where
  object : Nat
  phase : Phase

/-- The live sessions by slot. -/
abbrev Sessions := Int → Option Session

/-- The message of the session is about this request of this call. -/
def Phase.Carries (call : Nat) (request : RpcRequest) (answers : List SentResponse) : Phase → Prop
  | .held | .called => True
  | .sent _ m | .received _ m => m = ⟨call, request⟩
  | .answered _ rsp | .reading rsp => rsp.call = call ∧ rsp.seq = request.seq ∧ rsp ∈ answers

structure Objects (s : ClientState) (place : Nat → Place) (session : Sessions) : Prop where
  free : ∃ free : List Nat, s.freelist.content = free.map some ∧ free.Nodup ∧
    ∀ r ∈ free, place r = .free
  callers : ∀ t r args, s.callers t = some ⟨r, args⟩ → place r = .caller t
  pending : ∀ r ∈ s.reqPending, place r = .pending
  writer : ∀ r, place r = .writer ↔ s.writer = .popped r
  removed : ∀ r, s.reader = .removed r → place r = .reader
  slot : ∀ r i, place r = .slot i ↔ ∃ phase, session i = some ⟨r, phase⟩
  pool : ∀ i r phase, session i = some ⟨r, phase⟩ →
    rpcSessionpoolGet s.reqPool i = some (some r)
  allocated : ∀ r, place r ≠ .outside → r ∈ s.allocated

structure InFlight (s : ClientState) (session : Sessions) : Prop where
  inserted : ∀ r i, s.writer = .inserted r i → session i = some ⟨r, .held⟩
  stamped : ∀ r, s.writer = .stamped r → session (s.heap r).seq = some ⟨r, .held⟩
  held : ∀ i r phase, session i = some ⟨r, phase⟩ → phase = .held →
    s.writer = .inserted r i ∨ s.writer = .stamped r ∧ (s.heap r).seq = i
  seq : ∀ i r phase, session i = some ⟨r, phase⟩ → phase ≠ .held → (s.heap r).seq = i
  carries : ∀ i r phase, session i = some ⟨r, phase⟩ →
    phase.Carries (s.callOf r) (s.heap r) s.answers
  toPeer : ∀ c, Carried session (fun m : SentRequest => m.request.seq)
    (fun m x => ∃ r, x = some ⟨r, .sent c m⟩) (s.toPeer c)
  atPeer : ∀ c, Carried session (fun m : SentRequest => m.request.seq)
    (fun m x => ∃ r, x = some ⟨r, .received c m⟩) (s.atPeer c)
  toClient : ∀ c, Carried session (fun rsp : SentResponse => rsp.seq)
    (fun rsp x => ∃ r, x = some ⟨r, .answered c rsp⟩) (s.toClient c)
  got : ∀ rsp req, s.reader = .got rsp req →
    ∃ r, session rsp.seq = some ⟨r, .reading rsp⟩ ∧ req = some (some r)
  called : ∀ i r, s.reader = .called i r → session i = some ⟨r, .called⟩

def ClientState.completed (s : ClientState) : List Nat := s.callbacks.map CallbackRun.call

/-- The object of a call that was popped and whose callback has not run. -/
def Uncalled (place : Nat → Place) (session : Sessions) (r : Nat) : Prop :=
  place r = .writer ∨ ∃ i phase, session i = some ⟨r, phase⟩ ∧ phase ≠ .called

/-- The callback ran with the function and data of its call, and with an answer the peer gave it. -/
def CallbackRun.Right (run : CallbackRun) (s : ClientState) : Prop :=
  (∃ issued, s.issued[run.call]? = some issued ∧ run.callback = issued.args.callback ∧
    run.data = issued.args.data) ∧
  ∃ rsp ∈ s.answers, rsp.call = run.call ∧ rsp.code = run.code ∧ rsp.output = run.output

structure Books (s : ClientState) (place : Nat → Place) (session : Sessions) : Prop where
  bound : s.popped ≤ s.issued.length
  fifo : s.reqPending.map s.callOf = List.range' s.popped (s.issued.length - s.popped)
  filled : ∀ t r args, s.callers t = some ⟨r, args⟩ → s.heap r = args.fill (s.heap r)
  content : ∀ r, (place r).Live → ∃ args, s.issued[s.callOf r]? = some ⟨r, args⟩ ∧
    s.heap r = args.fill (s.heap r)
  once : s.completed.Nodup
  below : ∀ k ∈ s.completed, k < s.popped
  right : ∀ run ∈ s.callbacks, run.Right s
  uncalled : ∀ r, Uncalled place session r → s.callOf r < s.popped ∧ s.callOf r ∉ s.completed
  accounted : ∀ k < s.popped, k ∈ s.completed ∨ ∃ r, s.callOf r = k ∧ Uncalled place session r

structure Matching (s : ClientState) (place : Nat → Place) (session : Sessions) : Prop where
  objects : Objects s place session
  inFlight : InFlight s session
  books : Books s place session

theorem matching_initial (heap : Nat → RpcRequest) (conns : RpcArray) :
    Matching (.initial heap conns) (fun _ => .outside) (fun _ => none) := by
  have empty : ∀ (i : Int) (r : Nat) (phase : Phase),
      (fun _ => none : Sessions) i ≠ some ⟨r, phase⟩ := by
    intro i r phase impossible
    cases impossible
  constructor
  · exact {
      free := ⟨[], by simp [ClientState.initial, rpcArrayNew, RpcArray.content], List.nodup_nil,
        by simp⟩
      callers := by simp [ClientState.initial]
      pending := by simp [ClientState.initial]
      writer := by simp [ClientState.initial]
      removed := by simp [ClientState.initial]
      slot := by simp
      pool := fun i r phase entry => absurd entry (empty i r phase)
      allocated := fun _ outside => absurd rfl outside }
  · exact {
      inserted := by simp [ClientState.initial]
      stamped := by simp [ClientState.initial]
      held := fun i r phase entry => absurd entry (empty i r phase)
      seq := fun i r phase entry => absurd entry (empty i r phase)
      carries := fun i r phase entry => absurd entry (empty i r phase)
      toPeer := fun _ => carried_nil
      atPeer := fun _ => carried_nil
      toClient := fun _ => carried_nil
      got := by simp [ClientState.initial]
      called := by simp [ClientState.initial] }
  · exact {
      bound := Nat.le_refl 0
      fifo := rfl
      filled := by simp [ClientState.initial]
      content := by simp [Place.Live]
      once := List.nodup_nil
      below := by simp [ClientState.initial, ClientState.completed]
      right := by simp [ClientState.initial]
      uncalled := by
        intro r uncalled
        rcases uncalled with impossible | ⟨i, phase, impossible, -⟩
        · cases impossible
        · cases impossible
      accounted := by simp [ClientState.initial] }

section Phases

variable {session : Sessions} {i : Int} {r : Nat} {phase phase' : Phase}

theorem entries_update {Q : Int → Nat → Phase → Prop}
    (all : ∀ j x ph, session j = some ⟨x, ph⟩ → Q j x ph) (here : Q i r phase') :
    ∀ j x ph, Function.update session i (some ⟨r, phase'⟩) j = some ⟨x, ph⟩ → Q j x ph := by
  intro j x ph entry
  by_cases same : j = i
  · subst same
    rw [Function.update_self] at entry
    cases entry
    exact here
  · rw [Function.update_of_ne same] at entry
    exact all j x ph entry

theorem object_phase (here : session i = some ⟨r, phase⟩) (j : Int) (x : Nat) :
    (∃ ph, Function.update session i (some ⟨r, phase'⟩) j = some ⟨x, ph⟩) ↔
      ∃ ph, session j = some ⟨x, ph⟩ := by
  by_cases same : j = i
  · subst same
    rw [Function.update_self, here]
    constructor
    · rintro ⟨ph, entry⟩
      cases entry
      exact ⟨phase, rfl⟩
    · rintro ⟨ph, entry⟩
      cases entry
      exact ⟨phase', rfl⟩
  · rw [Function.update_of_ne same]

theorem uncalled_phase {place : Nat → Place} (here : session i = some ⟨r, phase⟩)
    (before : phase ≠ .called) (after : phase' ≠ .called) (x : Nat) :
    Uncalled place (Function.update session i (some ⟨r, phase'⟩)) x ↔ Uncalled place session x := by
  unfold Uncalled
  refine or_congr Iff.rfl ⟨?_, ?_⟩
  · rintro ⟨j, ph, entry, other⟩
    by_cases same : j = i
    · subst same
      rw [Function.update_self] at entry
      cases entry
      exact ⟨j, phase, here, before⟩
    · rw [Function.update_of_ne same] at entry
      exact ⟨j, ph, entry, other⟩
  · rintro ⟨j, ph, entry, other⟩
    by_cases same : j = i
    · subst same
      rw [here] at entry
      cases entry
      exact ⟨j, phase', Function.update_self .., after⟩
    · exact ⟨j, ph, by rwa [Function.update_of_ne same], other⟩

theorem objects_phase {s : ClientState} {place : Nat → Place} (here : session i = some ⟨r, phase⟩)
    (objects : Objects s place session) :
    Objects s place (Function.update session i (some ⟨r, phase'⟩)) :=
  { objects with
    slot := fun x j => (objects.slot x j).trans (object_phase here j x).symm
    pool := by
      intro j x ph entry
      obtain ⟨ph', entry'⟩ := (object_phase here j x).mp ⟨ph, entry⟩
      exact objects.pool j x ph' entry' }

theorem uncalled_congr {s : ClientState} {place place' : Nat → Place} {session session' : Sessions}
    (same : ∀ x, Uncalled place' session' x ↔ Uncalled place session x)
    (books : Books s place session) :
    (∀ x, Uncalled place' session' x → s.callOf x < s.popped ∧ s.callOf x ∉ s.completed) ∧
    ∀ k < s.popped, k ∈ s.completed ∨ ∃ x, s.callOf x = k ∧ Uncalled place' session' x := by
  refine ⟨fun x holds => books.uncalled x ((same x).mp holds), fun k less => ?_⟩
  rcases books.accounted k less with done | ⟨x, call, holds⟩
  · exact .inl done
  · exact .inr ⟨x, call, (same x).mpr holds⟩

theorem books_phase {s : ClientState} {place : Nat → Place} (here : session i = some ⟨r, phase⟩)
    (before : phase ≠ .called) (phase' : Phase) (after : phase' ≠ .called)
    (books : Books s place session) :
    Books s place (Function.update session i (some ⟨r, phase'⟩)) := by
  obtain ⟨uncalled, accounted⟩ := uncalled_congr (uncalled_phase here before after) books
  exact { books with uncalled := uncalled, accounted := accounted }

end Phases

end OpenRpc
