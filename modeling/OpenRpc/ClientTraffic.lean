import OpenRpc.ClientSteps

/-! # What the steps with messages keep -/

namespace OpenRpc

open Transition Memory Tokens

section Steps

variable {s s' : ClientState} {place : Nat → Place} {session : Sessions}

theorem reader_frame (inFlight : InFlight s session) {i : Int} {x : Option Session}
    (no_reading : ∀ r rsp, session i ≠ some ⟨r, .reading rsp⟩)
    (no_called : ∀ r, session i ≠ some ⟨r, .called⟩) :
    (∀ rsp req, s.reader = .got rsp req → ∃ r,
      Function.update session i x rsp.seq = some ⟨r, .reading rsp⟩ ∧ req = some (some r)) ∧
    ∀ j r, s.reader = .called j r → Function.update session i x j = some ⟨r, .called⟩ := by
  constructor
  · intro rsp req here
    obtain ⟨r, entry, pointer⟩ := inFlight.got rsp req here
    refine ⟨r, ?_, pointer⟩
    rw [Function.update_of_ne, entry]
    rintro rfl
    exact no_reading r rsp entry
  · intro j r here
    have entry := inFlight.called j r here
    rw [Function.update_of_ne, entry]
    rintro rfl
    exact no_called r entry

theorem keeps_send (matching : Matching s place session) (step : clientStep s .send = some s') :
    ∃ session', Matching s' place session' := by
  obtain ⟨objects, inFlight, books⟩ := matching
  cases clientStep_moves step with
  | send req conn stamped picked =>
      let m : SentRequest := ⟨s.callOf req, s.heap req⟩
      have here : session m.request.seq = some ⟨req, .held⟩ := inFlight.stamped req stamped
      have reader := reader_frame (i := m.request.seq) (x := some ⟨req, .sent conn m⟩) inFlight
        (by simp [here]) (by simp [here])
      refine ⟨Function.update session m.request.seq (some ⟨req, .sent conn m⟩), ?_, ?_, ?_⟩
      · exact { objects_phase here objects with
          writer := by
            intro x
            refine iff_of_false (fun writing => ?_) (by simp)
            cases stamped.symm.trans ((objects.writer x).mp writing)
          pool := (objects_phase here objects).pool }
      · exact {
          inserted := by simp
          stamped := by simp
          held := by
            refine fun i x phase entry held => ?_
            by_cases same : i = m.request.seq
            · subst same
              rw [Function.update_self] at entry
              cases entry
              cases held
            · rw [Function.update_of_ne same] at entry
              rcases inFlight.held i x phase entry held with writing | ⟨writing, seq⟩
              · cases stamped.symm.trans writing
              · cases stamped.symm.trans writing
                exact absurd seq.symm same
          seq := entries_update (Q := fun i x phase => phase ≠ .held → (s.heap x).seq = i)
            inFlight.seq fun _ => rfl
          carries := entries_update (Q := fun _ x phase =>
            phase.Carries (s.callOf x) (s.heap x) s.answers) inFlight.carries rfl
          toPeer := by
            intro c
            by_cases same : c = conn
            · subst same
              simp only [Function.update_self]
              exact carried_add (m := m) (by simp [m] at here; simp [m, here]) ⟨req, rfl⟩
                (inFlight.toPeer c)
            · simp only [Function.update_of_ne same]
              exact carried_other _ (by simp [here]) (inFlight.toPeer c)
          atPeer := fun c => carried_other _ (by simp [here]) (inFlight.atPeer c)
          toClient := fun c => carried_other _ (by simp [here]) (inFlight.toClient c)
          got := reader.1
          called := reader.2 }
      · exact { books_phase here (by simp) (.sent conn m) (by simp) books with
          right := books.right
          filled := books.filled
          content := books.content }

theorem held_frame (inFlight : InFlight s session) {i : Int} {r : Nat} {phase : Phase}
    (other : phase ≠ .held) :
    ∀ j x ph, Function.update session i (some ⟨r, phase⟩) j = some ⟨x, ph⟩ → ph = .held →
      s.writer = .inserted x j ∨ s.writer = .stamped x ∧ (s.heap x).seq = j :=
  entries_update (Q := fun j x ph => ph = .held →
    s.writer = .inserted x j ∨ s.writer = .stamped x ∧ (s.heap x).seq = j)
    inFlight.held fun held => absurd held other

theorem writer_frame (inFlight : InFlight s session) {i : Int} {x : Option Session}
    (no_held : ∀ r, session i ≠ some ⟨r, .held⟩) :
    (∀ r j, s.writer = .inserted r j → Function.update session i x j = some ⟨r, .held⟩) ∧
    ∀ r, s.writer = .stamped r → Function.update session i x (s.heap r).seq = some ⟨r, .held⟩ := by
  constructor
  · intro r j here
    have entry := inFlight.inserted r j here
    rw [Function.update_of_ne, entry]
    rintro rfl
    exact no_held r entry
  · intro r here
    have entry := inFlight.stamped r here
    rw [Function.update_of_ne, entry]
    intro same
    exact no_held r (same ▸ entry)

theorem keeps_receive (matching : Matching s place session) {conn : Nat}
    (step : clientStep s (.receive conn) = some s') : ∃ session', Matching s' place session' := by
  obtain ⟨objects, inFlight, books⟩ := matching
  cases clientStep_moves step with
  | receive m rest channel =>
      obtain ⟨r, here⟩ := (inFlight.toPeer conn).about m (by rw [channel]; exact List.mem_cons_self)
      have reader := reader_frame (i := m.request.seq) (x := some ⟨r, .received conn m⟩) inFlight
        (by simp [here]) (by simp [here])
      have writer := writer_frame (i := m.request.seq) (x := some ⟨r, .received conn m⟩) inFlight
        (by simp [here])
      refine ⟨Function.update session m.request.seq (some ⟨r, .received conn m⟩), ?_, ?_, ?_⟩
      · exact { objects_phase here objects with
          pool := (objects_phase here objects).pool }
      · exact {
          inserted := writer.1
          stamped := writer.2
          held := held_frame inFlight (by simp)
          seq := entries_update (Q := fun i x phase => phase ≠ .held → (s.heap x).seq = i)
            inFlight.seq fun _ => inFlight.seq _ r _ here (by simp)
          carries := by
            have carried := inFlight.carries _ r _ here
            exact entries_update (Q := fun _ x phase =>
              phase.Carries (s.callOf x) (s.heap x) s.answers) inFlight.carries carried
          toPeer := by
            intro c
            by_cases same : c = conn
            · subst same
              have taken := carried_take (j := 0) (m := m) (by simp) (by rw [channel]; rfl)
                (some ⟨r, .received c m⟩) (inFlight.toPeer c)
              rw [channel] at taken
              simp only [Function.update_self]
              exact taken
            · simp only [Function.update_of_ne same]
              exact carried_other _ (by simp [here, Ne.symm same]) (inFlight.toPeer c)
          atPeer := by
            intro c
            by_cases same : c = conn
            · subst same
              simp only [Function.update_self]
              exact carried_add (m := m) (by simp [here]) ⟨r, rfl⟩ (inFlight.atPeer c)
            · simp only [Function.update_of_ne same]
              exact carried_other _ (by simp [here]) (inFlight.atPeer c)
          toClient := fun c => carried_other _ (by simp [here]) (inFlight.toClient c)
          got := reader.1
          called := reader.2 }
      · exact { books_phase here (by simp) (.received conn m) (by simp) books with
          right := books.right
          filled := books.filled
          content := books.content }

theorem keeps_answer (matching : Matching s place session) {conn j : Nat} {code : Int}
    {output : List Byte} (step : clientStep s (.answer conn j code output) = some s') :
    ∃ session', Matching s' place session' := by
  obtain ⟨objects, inFlight, books⟩ := matching
  cases clientStep_moves step with
  | answer m taken =>
      let rsp : SentResponse := ⟨m.call, code, m.request.seq, output⟩
      obtain ⟨r, here⟩ := (inFlight.atPeer conn).about m (List.mem_of_getElem? taken)
      have carried : m = ⟨s.callOf r, s.heap r⟩ := inFlight.carries _ r _ here
      have reader := reader_frame (i := m.request.seq) (x := some ⟨r, .answered conn rsp⟩) inFlight
        (by simp [here]) (by simp [here])
      have writer := writer_frame (i := m.request.seq) (x := some ⟨r, .answered conn rsp⟩) inFlight
        (by simp [here])
      refine ⟨Function.update session m.request.seq (some ⟨r, .answered conn rsp⟩), ?_, ?_, ?_⟩
      · exact { objects_phase here objects with
          pool := (objects_phase here objects).pool }
      · exact {
          inserted := writer.1
          stamped := writer.2
          held := held_frame inFlight (by simp)
          seq := entries_update (Q := fun i x phase => phase ≠ .held → (s.heap x).seq = i)
            inFlight.seq fun _ => inFlight.seq _ r _ here (by simp)
          carries := by
            refine entries_update (Q := fun _ x phase =>
              phase.Carries (s.callOf x) (s.heap x) (s.answers ++ [rsp])) ?_ ?_
            · intro i x phase entry
              have before := inFlight.carries i x phase entry
              cases phase with
              | held => trivial
              | sent c m => exact before
              | received c m => exact before
              | answered c m => exact ⟨before.1, before.2.1, List.mem_append_left _ before.2.2⟩
              | reading m => exact ⟨before.1, before.2.1, List.mem_append_left _ before.2.2⟩
              | called => trivial
            · exact ⟨by simp [rsp, carried], by simp [rsp, carried], by simp⟩
          toPeer := fun c => carried_other _ (by simp [here]) (inFlight.toPeer c)
          atPeer := by
            intro c
            by_cases same : c = conn
            · subst same
              simp only [Function.update_self]
              exact carried_take (by simp) taken _ (inFlight.atPeer c)
            · simp only [Function.update_of_ne same]
              exact carried_other _ (by simp [here, Ne.symm same]) (inFlight.atPeer c)
          toClient := by
            intro c
            by_cases same : c = conn
            · subst same
              simp only [Function.update_self]
              exact carried_add (m := rsp) (by simp [rsp, here]) ⟨r, rfl⟩ (inFlight.toClient c)
            · simp only [Function.update_of_ne same]
              exact carried_other _ (by simp [here]) (inFlight.toClient c)
          got := reader.1
          called := reader.2 }
      · exact { books_phase here (by simp) (.answered conn rsp) (by simp) books with
          right := fun run member => right_mono (books.right run member) (List.append_nil _).symm rfl
          filled := books.filled
          content := books.content }

theorem keeps_read (matching : Matching s place session) {conn : Nat}
    (step : clientStep s (.read conn) = some s') : ∃ session', Matching s' place session' := by
  obtain ⟨objects, inFlight, books⟩ := matching
  cases clientStep_moves step with
  | read rsp rest idle channel =>
      obtain ⟨r, here⟩ := (inFlight.toClient conn).about rsp (by rw [channel]; exact List.mem_cons_self)
      have writer := writer_frame (i := rsp.seq) (x := some ⟨r, .reading rsp⟩) inFlight (by simp [here])
      refine ⟨Function.update session rsp.seq (some ⟨r, .reading rsp⟩), ?_, ?_, ?_⟩
      · exact { objects_phase here objects with
          removed := by simp
          pool := (objects_phase here objects).pool }
      · exact {
          inserted := writer.1
          stamped := writer.2
          held := held_frame inFlight (by simp)
          seq := entries_update (Q := fun i x phase => phase ≠ .held → (s.heap x).seq = i)
            inFlight.seq fun _ => inFlight.seq _ r _ here (by simp)
          carries := by
            have carried := inFlight.carries _ r _ here
            exact entries_update (Q := fun _ x phase =>
              phase.Carries (s.callOf x) (s.heap x) s.answers) inFlight.carries carried
          toPeer := fun c => carried_other _ (by simp [here]) (inFlight.toPeer c)
          atPeer := fun c => carried_other _ (by simp [here]) (inFlight.atPeer c)
          toClient := by
            intro c
            by_cases same : c = conn
            · subst same
              have taken := carried_take (j := 0) (m := rsp) (by simp) (by rw [channel]; rfl)
                (some ⟨r, .reading rsp⟩) (inFlight.toClient c)
              rw [channel] at taken
              simp only [Function.update_self]
              exact taken
            · simp only [Function.update_of_ne same]
              exact carried_other _ (by simp [here, Ne.symm same]) (inFlight.toClient c)
          got := by
            intro other p got
            cases got
            exact ⟨r, Function.update_self .., objects.pool _ r _ here⟩
          called := by simp }
      · exact { books_phase here (by simp) (.reading rsp) (by simp) books with
          right := books.right
          filled := books.filled
          content := books.content }

theorem got_found (matching : Matching s place session) {rsp : SentResponse} {p : Option (Option Nat)}
    (got : s.reader = .got rsp p) :
    ∃ r, p = some (some r) ∧ (s.heap r).seq = rsp.seq ∧ session rsp.seq = some ⟨r, .reading rsp⟩ := by
  obtain ⟨r, entry, pointer⟩ := matching.inFlight.got rsp p got
  exact ⟨r, pointer, matching.inFlight.seq _ r _ entry (by simp), entry⟩

theorem call_injective (books : Books s place session) {x y : Nat} (live : (place x).Live)
    (live' : (place y).Live) (same : s.callOf x = s.callOf y) : x = y := by
  obtain ⟨args, issued, -⟩ := books.content x live
  obtain ⟨args', issued', -⟩ := books.content y live'
  rw [same] at issued
  cases issued.symm.trans issued'
  rfl

theorem uncalled_live (objects : Objects s place session) {x : Nat}
    (holds : Uncalled place session x) : (place x).Live := by
  rcases holds with writing | ⟨i, phase, entry, -⟩
  · rw [writing]
    trivial
  · rw [(objects.slot x i).mpr ⟨phase, entry⟩]
    trivial

section Callback

variable {rsp : SentResponse} {req : Nat} (here : session rsp.seq = some ⟨req, .reading rsp⟩)
  (objects : Objects s place session)

include here objects

/-- Whoever is uncalled afterwards was uncalled before, and is another object. -/
theorem uncalled_callback {x : Nat}
    (later : Uncalled place (Function.update session rsp.seq (some ⟨req, .called⟩)) x) :
    Uncalled place session x ∧ x ≠ req := by
  have slot := (objects.slot req rsp.seq).mpr ⟨_, here⟩
  rcases later with writing | ⟨i, phase, entry, other⟩
  · refine ⟨.inl writing, ?_⟩
    rintro rfl
    cases writing.symm.trans slot
  · by_cases same : i = rsp.seq
    · subst same
      rw [Function.update_self] at entry
      cases entry
      exact absurd rfl other
    · rw [Function.update_of_ne same] at entry
      refine ⟨.inr ⟨i, phase, entry, other⟩, ?_⟩
      rintro rfl
      cases slot.symm.trans ((objects.slot x i).mpr ⟨phase, entry⟩)
      exact same rfl

omit objects in
theorem inFlight_callback (inFlight : InFlight s session) (seq : (s.heap req).seq = rsp.seq)
    (runs : List CallbackRun) :
    InFlight { s with reader := .called rsp.seq req, callbacks := runs }
      (Function.update session rsp.seq (some ⟨req, .called⟩)) := by
  have writer := writer_frame (i := rsp.seq) (x := some ⟨req, .called⟩) inFlight (by simp [here])
  exact {
    inserted := writer.1
    stamped := writer.2
    held := held_frame inFlight (by simp)
    seq := entries_update (Q := fun i x phase => phase ≠ .held → (s.heap x).seq = i)
      inFlight.seq fun _ => seq
    carries := entries_update (Q := fun _ x phase =>
      phase.Carries (s.callOf x) (s.heap x) s.answers) inFlight.carries trivial
    toPeer := fun c => carried_other _ (by simp [here]) (inFlight.toPeer c)
    atPeer := fun c => carried_other _ (by simp [here]) (inFlight.atPeer c)
    toClient := fun c => carried_other _ (by simp [here]) (inFlight.toClient c)
    got := by simp
    called := by
      intro i r called
      cases called
      exact Function.update_self .. }

theorem books_callback (inFlight : InFlight s session) (books : Books s place session) :
    Books { s with reader := .called rsp.seq req
                   callbacks := s.callbacks ++ [⟨s.callOf req, (s.heap req).callback,
                     (s.heap req).data, rsp.code, rsp.output⟩] }
      place (Function.update session rsp.seq (some ⟨req, .called⟩)) := by
  have live : (place req).Live := by
    rw [(objects.slot req rsp.seq).mpr ⟨_, here⟩]
    trivial
  have mine : Uncalled place session req := .inr ⟨rsp.seq, _, here, by simp⟩
  obtain ⟨same_call, -, answered⟩ :
      (Phase.reading rsp).Carries (s.callOf req) (s.heap req) s.answers :=
    inFlight.carries _ req _ here
  have completed : ∀ run : CallbackRun, (s.callbacks ++ [run]).map CallbackRun.call =
      s.completed ++ [run.call] := by
    intro run
    rw [List.map_append]
    rfl
  exact { books with
    filled := books.filled
    content := books.content
    once := by
      simp only [ClientState.completed, completed]
      rw [List.nodup_append_comm]
      exact List.nodup_cons.mpr ⟨(books.uncalled req mine).2, books.once⟩
    below := by
      intro k member
      simp only [ClientState.completed, completed, List.mem_append, List.mem_singleton] at member
      rcases member with before | rfl
      · exact books.below k before
      · exact (books.uncalled req mine).1
    right := by
      intro run member
      rcases List.mem_append.mp member with before | last
      · exact books.right run before
      · rw [List.mem_singleton.mp last]
        obtain ⟨args, issued, content⟩ := books.content req live
        exact ⟨⟨_, issued, congrArg RpcRequest.callback content, congrArg RpcRequest.data content⟩,
          rsp, answered, same_call, rfl, rfl⟩
    uncalled := by
      intro x holds
      obtain ⟨before, other⟩ := uncalled_callback here objects holds
      refine ⟨(books.uncalled x before).1, ?_⟩
      simp only [ClientState.completed, completed, List.mem_append, List.mem_singleton, not_or]
      refine ⟨(books.uncalled x before).2, fun same => other ?_⟩
      exact call_injective books (uncalled_live objects before) live same
    accounted := by
      intro k less
      simp only [ClientState.completed, completed, List.mem_append, List.mem_singleton]
      rcases books.accounted k less with done | ⟨x, call, holds⟩
      · exact .inl (.inl done)
      · by_cases same : x = req
        · exact .inl (.inr (by rw [← call, same]))
        · refine .inr ⟨x, call, holds.imp_right ?_⟩
          rintro ⟨i, phase, entry, other⟩
          refine ⟨i, phase, ?_, other⟩
          rw [Function.update_of_ne, entry]
          rintro rfl
          cases entry.symm.trans here
          exact same rfl }

end Callback

theorem keeps_callback (matching : Matching s place session)
    (step : clientStep s .callback = some s') : ∃ session', Matching s' place session' := by
  have found : ∀ rsp p, s.reader = .got rsp p → _ := fun _ _ got => got_found matching got
  obtain ⟨objects, inFlight, books⟩ := matching
  cases clientStep_moves step with
  | unequal rsp req got other =>
      obtain ⟨r, pointer, seq, -⟩ := found rsp _ got
      cases pointer
      exact absurd seq other
  | callback rsp req got same =>
      obtain ⟨r, pointer, seq, here⟩ := found rsp _ got
      cases pointer
      refine ⟨Function.update session rsp.seq (some ⟨req, .called⟩), ?_,
        inFlight_callback here inFlight seq _, books_callback here objects inFlight books⟩
      exact { objects_phase here objects with
        removed := by simp
        pool := (objects_phase here objects).pool }

section Remove

variable {index : Int} {req : Nat} (here : session index = some ⟨req, .called⟩)

theorem remove_others (i : Int) (x : Nat) (phase : Phase) :
    Function.update session index none i = some ⟨x, phase⟩ ↔
      session i = some ⟨x, phase⟩ ∧ i ≠ index := by
  by_cases same : i = index
  · rw [same, Function.update_self]
    simp
  · rw [Function.update_of_ne same]
    simp [same]

include here

theorem objects_remove (objects : Objects s place session) {pool : Sessionpool}
    (kept : ∀ i ≠ index, rpcSessionpoolGet pool i = rpcSessionpoolGet s.reqPool i) :
    Objects { s with reader := .removed req, reqPool := pool } (Function.update place req .reader)
      (Function.update session index none) := by
  have slot := (objects.slot req index).mpr ⟨_, here⟩
  exact {
    free := free_moved objects slot (by simp)
    callers := fun v x args here => (place_moved slot (by simp) x).mpr (objects.callers v x args here)
    pending := fun x member => (place_moved slot (by simp) x).mpr (objects.pending x member)
    writer := fun x => (place_moved slot (by simp) x).trans (objects.writer x)
    removed := by
      intro x freed
      cases freed
      exact Function.update_self ..
    slot := by
      intro x i
      constructor
      · intro placed
        by_cases same : x = req
        · rw [same, Function.update_self] at placed
          cases placed
        · rw [Function.update_of_ne same] at placed
          obtain ⟨phase, entry⟩ := (objects.slot x i).mp placed
          refine ⟨phase, (remove_others i x phase).mpr ⟨entry, ?_⟩⟩
          rintro rfl
          cases entry.symm.trans here
          exact same rfl
      · rintro ⟨phase, entry⟩
        obtain ⟨before, other⟩ := (remove_others i x phase).mp entry
        have placed := (objects.slot x i).mpr ⟨phase, before⟩
        rw [Function.update_of_ne, placed]
        rintro rfl
        cases slot.symm.trans placed
        exact other rfl
    pool := by
      intro i x phase entry
      obtain ⟨before, other⟩ := (remove_others i x phase).mp entry
      exact (kept i other).trans (objects.pool i x phase before)
    allocated := allocated_moved objects slot (by simp) }

theorem inFlight_remove (inFlight : InFlight s session) (pool : Sessionpool) :
    InFlight { s with reader := .removed req, reqPool := pool }
      (Function.update session index none) := by
  have writer := writer_frame (i := index) (x := none) inFlight (by simp [here])
  exact {
    inserted := writer.1
    stamped := writer.2
    held := fun i x phase entry => inFlight.held i x phase ((remove_others i x phase).mp entry).1
    seq := fun i x phase entry => inFlight.seq i x phase ((remove_others i x phase).mp entry).1
    carries := fun i x phase entry =>
      inFlight.carries i x phase ((remove_others i x phase).mp entry).1
    toPeer := fun c => carried_other _ (by simp [here]) (inFlight.toPeer c)
    atPeer := fun c => carried_other _ (by simp [here]) (inFlight.atPeer c)
    toClient := fun c => carried_other _ (by simp [here]) (inFlight.toClient c)
    got := by simp
    called := by simp }

theorem uncalled_remove (slot : place req = .slot index) (x : Nat) :
    Uncalled (Function.update place req .reader) (Function.update session index none) x ↔
      Uncalled place session x := by
  refine or_congr (place_moved slot (by simp) x) ⟨?_, ?_⟩
  · rintro ⟨i, phase, entry, other⟩
    exact ⟨i, phase, ((remove_others i x phase).mp entry).1, other⟩
  · rintro ⟨i, phase, entry, other⟩
    refine ⟨i, phase, (remove_others i x phase).mpr ⟨entry, ?_⟩, other⟩
    rintro rfl
    cases entry.symm.trans here
    exact other rfl

end Remove

theorem keeps_remove (matching : Matching s place session) (step : clientStep s .remove = some s') :
    ∃ place' session', Matching s' place' session' := by
  obtain ⟨objects, inFlight, books⟩ := matching
  cases clientStep_moves step with
  | remove index req pool called removed =>
      have here := inFlight.called index req called
      have slot := (objects.slot req index).mpr ⟨_, here⟩
      obtain ⟨pool', removed', kept⟩ := rpcSessionpoolRemove_spec (objects.pool index req _ here)
      cases removed.symm.trans removed'
      obtain ⟨uncalled, accounted⟩ := uncalled_congr (uncalled_remove here slot) books
      refine ⟨Function.update place req .reader, Function.update session index none,
        objects_remove here objects kept, inFlight_remove here inFlight pool, ?_⟩
      exact { books with
        filled := books.filled
        content := fun x live => books.content x (live_moved (by simp [slot, Place.Live]) x live)
        right := books.right
        uncalled := uncalled
        accounted := accounted }

theorem keeps_free (matching : Matching s place session) {more : Nat → Option Nat}
    (step : clientStep s (.free more) = some s') : ∃ place', Matching s' place' session := by
  obtain ⟨objects, inFlight, books⟩ := matching
  cases clientStep_moves step with
  | free req removed =>
      have was := objects.removed req removed
      obtain ⟨array, added, stack⟩ := rpcArrayAdd_content more s.freelist (some req)
      have not_slot : ∀ i, place req ≠ .slot i := by
        intro i here
        cases was.symm.trans here
      have freed : InFlight (rpcRequestFree s req more) session :=
        inFlight_frame objects inFlight not_slot (fun x other => Function.update_of_ne other ..)
          (fun _ _ => rfl) rfl rfl rfl rfl rfl rfl
      refine ⟨Function.update place req .free, ?_, ?_, ?_⟩
      · exact {
          free := by
            obtain ⟨free, content, nodup, is_free⟩ := objects.free
            refine ⟨free ++ [req], ?_, ?_, ?_⟩
            · simp only [rpcRequestFree, added, stack, content, List.map_append]
              rfl
            · rw [List.nodup_append_comm]
              refine List.nodup_cons.mpr ⟨fun member => ?_, nodup⟩
              cases (is_free req member).symm.trans was
            · intro x member
              by_cases same : x = req
              · rw [same, Function.update_self]
              · rcases List.mem_append.mp member with before | last
                · rw [Function.update_of_ne same]
                  exact is_free x before
                · exact absurd (List.mem_singleton.mp last) same
          callers := fun v x args here =>
            (place_moved was (by simp) x).mpr (objects.callers v x args here)
          pending := fun x member => (place_moved was (by simp) x).mpr (objects.pending x member)
          writer := fun x => (place_moved was (by simp) x).trans (objects.writer x)
          removed := by simp
          slot := fun x i => (place_moved was (by simp) x).trans (objects.slot x i)
          pool := objects.pool
          allocated := allocated_moved objects was (by simp) }
      · exact { freed with
          got := by simp
          called := by simp
          seq := freed.seq
          carries := freed.carries
          stamped := freed.stamped
          held := freed.held }
      · have uncalled : ∀ x, Uncalled (Function.update place req .free) session x ↔
            Uncalled place session x := uncalled_moved was (by simp)
        exact { books with
          filled := by
            refine filled_frame objects books (fun t caller => ?_) _
            cases caller.symm.trans was
          content := by
            intro x live
            have other : x ≠ req := by
              rintro rfl
              rw [Function.update_self] at live
              exact live
            rw [Function.update_of_ne other] at live
            exact content_frame (Function.update_of_ne other ..) (books.content x live)
          right := books.right
          uncalled := (uncalled_congr uncalled books).1
          accounted := (uncalled_congr uncalled books).2 }

end Steps

/-- Every step keeps the matching. -/
theorem clientStep_keeps {s s' : ClientState} {a : ClientAction} (step : clientStep s a = some s')
    (matching : ∃ place session, Matching s place session) :
    ∃ place session, Matching s' place session := by
  obtain ⟨place, session, matching⟩ := matching
  cases a with
  | call t args fresh =>
      obtain ⟨place', after⟩ := keeps_call matching step
      exact ⟨place', session, after⟩
  | push t =>
      obtain ⟨place', after⟩ := keeps_push matching step
      exact ⟨place', session, after⟩
  | pop =>
      obtain ⟨place', after⟩ := keeps_pop matching step
      exact ⟨place', session, after⟩
  | insert more => exact keeps_insert matching step
  | stamp => exact ⟨place, session, keeps_stamp matching step⟩
  | send => exact ⟨place, keeps_send matching step⟩
  | receive conn => exact ⟨place, keeps_receive matching step⟩
  | answer conn j code output => exact ⟨place, keeps_answer matching step⟩
  | read conn => exact ⟨place, keeps_read matching step⟩
  | callback => exact ⟨place, keeps_callback matching step⟩
  | remove => exact keeps_remove matching step
  | free more =>
      obtain ⟨place', after⟩ := keeps_free matching step
      exact ⟨place', session, after⟩

end OpenRpc
