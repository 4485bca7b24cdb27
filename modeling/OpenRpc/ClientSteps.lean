import OpenRpc.ClientMatching

/-! # What each step of a client thread keeps -/

namespace OpenRpc

open Transition Memory Tokens

section Steps

variable {s s' : ClientState} {place : Nat → Place} {session : Sessions}

theorem session_apart (objects : Objects s place session) {r : Nat}
    (other : ∀ i, place r ≠ .slot i) {i : Int} {x : Nat} {phase : Phase}
    (entry : session i = some ⟨x, phase⟩) : x ≠ r := by
  rintro rfl
  exact other i ((objects.slot x i).mpr ⟨phase, entry⟩)

theorem inFlight_frame (objects : Objects s place session) (inFlight : InFlight s session) {r : Nat}
    (other : ∀ i, place r ≠ .slot i) (heap : ∀ x, x ≠ r → s'.heap x = s.heap x)
    (callOf : ∀ x, x ≠ r → s'.callOf x = s.callOf x) (writer : s'.writer = s.writer)
    (reader : s'.reader = s.reader) (toPeer : s'.toPeer = s.toPeer) (atPeer : s'.atPeer = s.atPeer)
    (toClient : s'.toClient = s.toClient) (answers : s'.answers = s.answers) :
    InFlight s' session := by
  have apart : ∀ i x phase, session i = some ⟨x, phase⟩ → s'.heap x = s.heap x :=
    fun i x phase entry => heap x (session_apart objects other entry)
  exact {
    inserted := by rw [writer]; exact inFlight.inserted
    stamped := by
      intro x here
      rw [writer] at here
      have entry := inFlight.stamped x here
      rwa [apart _ x _ entry]
    held := by
      intro i x phase entry here
      rw [writer, apart i x phase entry]
      exact inFlight.held i x phase entry here
    seq := by
      intro i x phase entry here
      rw [apart i x phase entry]
      exact inFlight.seq i x phase entry here
    carries := by
      intro i x phase entry
      rw [apart i x phase entry, callOf x (session_apart objects other entry), answers]
      exact inFlight.carries i x phase entry
    toPeer := by rw [toPeer]; exact inFlight.toPeer
    atPeer := by rw [atPeer]; exact inFlight.atPeer
    toClient := by rw [toClient]; exact inFlight.toClient
    got := by rw [reader]; exact inFlight.got
    called := by rw [reader]; exact inFlight.called }

theorem content_frame {heap heap' : Nat → RpcRequest} {issued : Option Issued} {x : Nat}
    (same : heap' x = heap x)
    (content : ∃ args, issued = some ⟨x, args⟩ ∧ heap x = args.fill (heap x)) :
    ∃ args, issued = some ⟨x, args⟩ ∧ heap' x = args.fill (heap' x) := by
  rwa [same]

theorem filled_frame (objects : Objects s place session) (books : Books s place session) {r : Nat}
    (apart : ∀ t, place r ≠ .caller t) (content : RpcRequest) (t x : Nat) (args : CallArgs)
    (here : s.callers t = some ⟨x, args⟩) :
    Function.update s.heap r content x = args.fill (Function.update s.heap r content x) := by
  have other : x ≠ r := by
    rintro rfl
    exact apart t (objects.callers t x args here)
  rw [Function.update_of_ne other]
  exact books.filled t x args here

/-- `rpc_request_new` gives an object of the free list, or one from outside. -/
theorem rpcRequestNew_spec (objects : Objects s place session) {fresh req : Nat} {s₁ : ClientState}
    (new : rpcRequestNew s fresh = some (req, s₁)) :
    (place req = .free ∨ place req = .outside) ∧
      (∃ free : List Nat, s₁.freelist.content = free.map some ∧ free.Nodup ∧
        ∀ x ∈ free, place x = .free ∧ x ≠ req) ∧
      req ∈ s₁.allocated ∧ ∀ x ∈ s.allocated, x ∈ s₁.allocated := by
  obtain ⟨free, content, nodup, is_free⟩ := objects.free
  unfold rpcRequestNew at new
  rcases rpcArrayGet_content s.freelist with ⟨empty, get⟩ | ⟨rest, p, array, get, split, left⟩
  · rw [get] at new
    simp only at new
    split at new
    · cases new
    · rename_i new_address
      cases new
      have out : place fresh = .outside := by
        by_contra inside
        exact new_address (objects.allocated fresh inside)
      have no_free : free = [] := List.map_eq_nil_iff.mp (content ▸ empty)
      refine ⟨.inr out, ⟨[], empty, List.nodup_nil, by simp⟩, List.mem_cons_self, ?_⟩
      exact fun x member => List.mem_cons_of_mem fresh member
  · rw [split] at content
    obtain ⟨front, last, rfl, rest_eq, p_eq⟩ := List.append_eq_map_iff.mp content
    obtain ⟨r, rfl, rfl⟩ := List.map_eq_singleton_iff.mp p_eq
    rw [get] at new
    cases new
    rw [List.nodup_append_comm] at nodup
    obtain ⟨new, nodup⟩ := List.nodup_cons.mp nodup
    have r_free := is_free req (by simp)
    refine ⟨.inl r_free, ⟨front, left.trans rest_eq.symm, nodup, ?_⟩,
      objects.allocated req (by simp [r_free]), fun x member => member⟩
    intro x member
    exact ⟨is_free x (List.mem_append_left _ member), fun same => new (same ▸ member)⟩

theorem place_moved {r : Nat} {old new p : Place} (was : place r = old) (apart : old ≠ p ∧ new ≠ p)
    (x : Nat) : Function.update place r new x = p ↔ place x = p := by
  by_cases same : x = r
  · rw [same, Function.update_self, was]
    exact iff_of_false apart.2 apart.1
  · rw [Function.update_of_ne same]

theorem uncalled_moved {r : Nat} {old new : Place} (was : place r = old)
    (apart : old ≠ .writer ∧ new ≠ .writer) (x : Nat) :
    Uncalled (Function.update place r new) session x ↔ Uncalled place session x :=
  or_congr (place_moved was apart x) Iff.rfl

theorem free_moved (objects : Objects s place session) {r : Nat} {old new : Place}
    (was : place r = old) (apart : old ≠ .free ∧ new ≠ .free) :
    ∃ free : List Nat, s.freelist.content = free.map some ∧ free.Nodup ∧
      ∀ x ∈ free, Function.update place r new x = .free := by
  obtain ⟨free, content, nodup, is_free⟩ := objects.free
  refine ⟨free, content, nodup, fun x member => ?_⟩
  exact (place_moved was apart x).mpr (is_free x member)

theorem allocated_moved (objects : Objects s place session) {r : Nat} {old new : Place}
    (was : place r = old) (apart : old ≠ .outside ∧ new ≠ .outside) (x : Nat)
    (inside : Function.update place r new x ≠ .outside) : x ∈ s.allocated := by
  refine objects.allocated x fun outside => inside ?_
  exact (place_moved was apart x).mpr outside

theorem live_moved {r : Nat} {new : Place} (live : (place r).Live) (x : Nat)
    (live' : (Function.update place r new x).Live) : (place x).Live := by
  by_cases same : x = r
  · rwa [same]
  · rwa [Function.update_of_ne same] at live'

/-- A callback that was right stays right when more is issued and answered. -/
theorem right_mono {run : CallbackRun} (right : run.Right s) {more : List Issued}
    {answers : List SentResponse} (issued : s'.issued = s.issued ++ more)
    (answered : s'.answers = s.answers ++ answers) : run.Right s' := by
  obtain ⟨⟨call, found, args⟩, rsp, member, given⟩ := right
  refine ⟨⟨call, ?_, args⟩, rsp, ?_, given⟩
  · rw [issued, List.getElem?_append_left (List.getElem?_eq_some_iff.mp found).1]
    exact found
  · rw [answered]
    exact List.mem_append_left _ member

theorem keeps_call (matching : Matching s place session) {t : Nat} {args : CallArgs} {fresh : Nat}
    (step : clientStep s (.call t args fresh) = some s') :
    ∃ place', Matching s' place' session := by
  obtain ⟨objects, inFlight, books⟩ := matching
  cases clientStep_moves step with
  | call req s₁ idle new =>
      obtain ⟨was, ⟨free, content, nodup, is_free⟩, mine, more⟩ := rpcRequestNew_spec objects new
      obtain ⟨freelist, allocated, rfl⟩ := rpcRequestNew_frame new
      have old : ∀ p, p ≠ .free → p ≠ .outside → place req ≠ p := by
        intro p not_free not_outside here
        rcases was with was | was
        · exact not_free (here.symm.trans was)
        · exact not_outside (here.symm.trans was)
      have moved : ∀ (p : Place) (x : Nat), (p ≠ .free ∧ p ≠ .outside) ∧ .caller t ≠ p →
          (Function.update place req (.caller t) x = p ↔ place x = p) :=
        fun p x apart => place_moved rfl ⟨old p apart.1.1 apart.1.2, apart.2⟩ x
      refine ⟨Function.update place req (.caller t), ?_, ?_, ?_⟩
      · exact {
          free := by
            refine ⟨free, content, nodup, fun x member => ?_⟩
            rw [Function.update_of_ne (is_free x member).2]
            exact (is_free x member).1
          callers := by
            intro v x given here
            have here' : Function.update s.callers t (some ⟨req, args⟩) v = some ⟨x, given⟩ := here
            by_cases same : v = t
            · subst same
              rw [Function.update_self] at here'
              cases here'
              exact Function.update_self ..
            · rw [Function.update_of_ne same] at here'
              exact (moved _ x (by simp [Ne.symm same])).mpr (objects.callers v x given here')
          pending := fun x member => (moved _ x (by simp)).mpr (objects.pending x member)
          writer := fun x => (moved _ x (by simp)).trans (objects.writer x)
          removed := fun x here => (moved _ x (by simp)).mpr (objects.removed x here)
          slot := fun x i => (moved _ x (by simp)).trans (objects.slot x i)
          pool := objects.pool
          allocated := by
            intro x inside
            by_cases same : x = req
            · exact same ▸ mine
            · rw [Function.update_of_ne same] at inside
              exact more x (objects.allocated x inside) }
      · exact inFlight_frame objects inFlight (fun i => old (.slot i) (by simp) (by simp))
          (fun x other => Function.update_of_ne other ..) (fun _ _ => rfl) rfl rfl rfl rfl rfl rfl
      · have uncalled : ∀ x, Uncalled (Function.update place req (.caller t)) session x ↔
            Uncalled place session x :=
          uncalled_moved rfl ⟨old .writer (by simp) (by simp), by simp⟩
        exact { books with
          filled := by
            intro v x given here
            have here' : Function.update s.callers t (some ⟨req, args⟩) v = some ⟨x, given⟩ := here
            by_cases same : v = t
            · subst same
              rw [Function.update_self] at here'
              cases here'
              simp only [Function.update_self]
              rfl
            · rw [Function.update_of_ne same] at here'
              exact filled_frame objects books (fun u => old (.caller u) (by simp) (by simp)) _ v x
                given here'
          content := by
            intro x live
            have other : x ≠ req := by
              rintro rfl
              rw [Function.update_self] at live
              exact live
            rw [Function.update_of_ne other] at live
            exact content_frame (Function.update_of_ne other ..) (books.content x live)
          right := books.right
          uncalled := (uncalled_congr uncalled books).1
          accounted := (uncalled_congr uncalled books).2 }

section Push

variable {t req : Nat} (was : place req = .caller t)

include was

theorem objects_push (objects : Objects s place session) (callOf : Nat → Nat)
    (issued : List Issued) :
    Objects { s with callers := Function.update s.callers t none
                     reqPending := s.reqPending ++ [req], callOf := callOf, issued := issued }
      (Function.update place req .pending) session where
  free := free_moved objects was (by simp)
  callers := by
    intro v x given called
    have called' : Function.update s.callers t none v = some ⟨x, given⟩ := called
    by_cases same : v = t
    · rw [same, Function.update_self] at called'
      cases called'
    · rw [Function.update_of_ne same] at called'
      exact (place_moved was (by simp [Ne.symm same]) x).mpr (objects.callers v x given called')
  pending := by
    intro x member
    by_cases same : x = req
    · rw [same, Function.update_self]
    · rcases List.mem_append.mp member with before | last
      · rw [Function.update_of_ne same]
        exact objects.pending x before
      · exact absurd (List.mem_singleton.mp last) same
  writer := fun x => (place_moved was (by simp) x).trans (objects.writer x)
  removed := fun x removed => (place_moved was (by simp) x).mpr (objects.removed x removed)
  slot := fun x i => (place_moved was (by simp) x).trans (objects.slot x i)
  pool := objects.pool
  allocated := allocated_moved objects was (by simp)

theorem uncalled_other (objects : Objects s place session) {x : Nat}
    (holds : Uncalled place session x) : x ≠ req := by
  rintro rfl
  rcases holds with writing | ⟨i, phase, entry, -⟩
  · cases was.symm.trans writing
  · cases was.symm.trans ((objects.slot x i).mpr ⟨phase, entry⟩)

theorem books_push (objects : Objects s place session) (books : Books s place session)
    {args : CallArgs} (here : s.callers t = some ⟨req, args⟩) :
    Books { s with callers := Function.update s.callers t none
                   reqPending := s.reqPending ++ [req]
                   callOf := Function.update s.callOf req s.issued.length
                   issued := s.issued ++ [⟨req, args⟩] }
      (Function.update place req .pending) session where
  bound := by
    simp only [List.length_append]
    exact Nat.le_succ_of_le books.bound
  fifo := by
    have same : s.reqPending.map (Function.update s.callOf req s.issued.length) =
        s.reqPending.map s.callOf := by
      refine List.map_congr_left fun x member => Function.update_of_ne ?_ ..
      rintro rfl
      cases was.symm.trans (objects.pending x member)
    simp only [List.map_append, same, books.fifo, List.map_cons, List.map_nil,
      Function.update_self, List.length_append, List.length_singleton]
    rw [Nat.sub_add_comm books.bound, List.range'_1_concat, Nat.add_sub_cancel' books.bound]
  filled := by
    intro v x given called
    have called' : Function.update s.callers t none v = some ⟨x, given⟩ := called
    by_cases same : v = t
    · rw [same, Function.update_self] at called'
      cases called'
    · rw [Function.update_of_ne same] at called'
      exact books.filled v x given called'
  content := by
    intro x live
    by_cases same : x = req
    · subst same
      refine ⟨args, ?_, books.filled t x args here⟩
      simp only [Function.update_self]
      exact List.getElem?_concat_length
    · rw [Function.update_of_ne same] at live
      obtain ⟨given, issued, content⟩ := books.content x live
      refine ⟨given, ?_, content⟩
      simp only [Function.update_of_ne same]
      rw [List.getElem?_append_left (List.getElem?_eq_some_iff.mp issued).1]
      exact issued
  once := books.once
  below := books.below
  right := fun run member => right_mono (books.right run member) rfl (List.append_nil _).symm
  uncalled := by
    intro x holds
    have before := (uncalled_moved was (by simp) x).mp holds
    simp only [Function.update_of_ne (uncalled_other was objects before)]
    exact books.uncalled x before
  accounted := by
    intro k less
    apply (books.accounted k less).imp_right
    rintro ⟨x, call, holds⟩
    refine ⟨x, ?_, (uncalled_moved was (by simp) x).mpr holds⟩
    exact (Function.update_of_ne (uncalled_other was objects holds) ..).trans call

end Push

theorem keeps_push (matching : Matching s place session) {t : Nat}
    (step : clientStep s (.push t) = some s') : ∃ place', Matching s' place' session := by
  obtain ⟨objects, inFlight, books⟩ := matching
  cases clientStep_moves step with
  | push req args here =>
      have was := objects.callers t req args here
      have no_slot : ∀ i, place req ≠ .slot i := by
        intro i same
        cases was.symm.trans same
      refine ⟨Function.update place req .pending, objects_push was objects _ _, ?_,
        books_push was objects books here⟩
      exact inFlight_frame objects inFlight no_slot (fun _ _ => rfl)
        (fun x other => Function.update_of_ne other ..) rfl rfl rfl rfl rfl rfl

section Pop

variable {req : Nat} {rest : List Nat} (queue : s.reqPending = req :: rest)
  (no_writer : ∀ x, place x ≠ .writer)

include queue

theorem pending_first (books : Books s place session) :
    s.popped < s.issued.length ∧ s.callOf req = s.popped ∧
      rest.map s.callOf = List.range' (s.popped + 1) (s.issued.length - (s.popped + 1)) := by
  have fifo := books.fifo
  rw [queue, List.map_cons] at fifo
  have less : s.popped < s.issued.length := by
    by_contra beyond
    rw [Nat.sub_eq_zero_of_le (Nat.le_of_not_lt beyond)] at fifo
    cases fifo
  have remaining : s.issued.length - s.popped = s.issued.length - (s.popped + 1) + 1 := by omega
  rw [remaining, List.range'_succ, List.cons.injEq] at fifo
  exact ⟨less, fifo⟩

include no_writer

theorem objects_pop (objects : Objects s place session) (new : ∀ x ∈ rest, x ≠ req) (popped : Nat) :
    Objects { s with writer := .popped req, reqPending := rest, popped := popped }
      (Function.update place req .writer) session := by
  have was := objects.pending req (by rw [queue]; exact List.mem_cons_self)
  exact {
    free := free_moved objects was (by simp)
    callers := fun v x args here => (place_moved was (by simp) x).mpr (objects.callers v x args here)
    pending := by
      intro x member
      rw [Function.update_of_ne (new x member)]
      exact objects.pending x (by rw [queue]; exact List.mem_cons_of_mem req member)
    writer := by
      intro x
      by_cases same : x = req
      · rw [same, Function.update_self]
        exact iff_of_true rfl rfl
      · rw [Function.update_of_ne same]
        refine iff_of_false (no_writer x) fun popped => same ?_
        cases popped
        rfl
    removed := fun x here => (place_moved was (by simp) x).mpr (objects.removed x here)
    slot := fun x i => (place_moved was (by simp) x).trans (objects.slot x i)
    pool := objects.pool
    allocated := allocated_moved objects was (by simp) }

theorem books_pop (objects : Objects s place session) (books : Books s place session) :
    Books { s with writer := .popped req, reqPending := rest, popped := s.popped + 1 }
      (Function.update place req .writer) session := by
  have was := objects.pending req (by rw [queue]; exact List.mem_cons_self)
  obtain ⟨less, first, others⟩ := pending_first queue books
  exact {
    bound := less
    fifo := others
    filled := books.filled
    content := fun x live => books.content x (live_moved (by simp [was, Place.Live]) x live)
    once := books.once
    below := fun k member => Nat.lt_succ_of_lt (books.below k member)
    right := books.right
    uncalled := by
      intro x holds
      by_cases same : x = req
      · rw [same, first]
        exact ⟨Nat.lt_succ_self _, fun member => (books.below _ member).false⟩
      · have before : Uncalled place session x := by
          refine holds.imp_left fun writing => ?_
          rwa [Function.update_of_ne same] at writing
        exact ⟨Nat.lt_succ_of_lt (books.uncalled x before).1, (books.uncalled x before).2⟩
    accounted := by
      intro k below
      rcases Nat.lt_succ_iff_lt_or_eq.mp below with before | rfl
      · apply (books.accounted k before).imp_right
        rintro ⟨x, call, holds⟩
        refine ⟨x, call, holds.imp_left fun writing => absurd writing (no_writer x)⟩
      · exact .inr ⟨req, first, .inl (Function.update_self ..)⟩ }

end Pop

theorem keeps_pop (matching : Matching s place session) (step : clientStep s .pop = some s') :
    ∃ place', Matching s' place' session := by
  obtain ⟨objects, inFlight, books⟩ := matching
  cases clientStep_moves step with
  | pop req rest idle queue =>
      have no_writer : ∀ x, place x ≠ .writer := by
        intro x here
        cases idle.symm.trans ((objects.writer x).mp here)
      have new : ∀ x ∈ rest, x ≠ req := by
        obtain ⟨-, first, others⟩ := pending_first queue books
        rintro x member rfl
        have again : s.callOf x ∈ rest.map s.callOf := List.mem_map_of_mem member
        rw [others, List.mem_range'_1] at again
        omega
      refine ⟨Function.update place req .writer, objects_pop queue no_writer objects new _, ?_,
        books_pop queue no_writer objects books⟩
      exact { inFlight with
        inserted := by simp
        stamped := by simp
        held := by
          intro i x phase entry here
          rcases inFlight.held i x phase entry here with inserted | ⟨stamped, -⟩
          · cases idle.symm.trans inserted
          · cases idle.symm.trans stamped
        seq := inFlight.seq
        carries := inFlight.carries }

/-- The writer has one object at a time, so nothing else is held while it has none in a session. -/
theorem no_held (inFlight : InFlight s session) (inserted : ∀ x i, s.writer ≠ .inserted x i)
    (stamped : ∀ x, s.writer ≠ .stamped x) {i : Int} {x : Nat} {phase : Phase}
    (entry : session i = some ⟨x, phase⟩) : phase ≠ .held := by
  intro here
  rcases inFlight.held i x phase entry here with writing | ⟨writing, -⟩
  · exact inserted x i writing
  · exact stamped x writing

section Insert

variable {req : Nat} {index : Int} (objects : Objects s place session) (was : place req = .writer)
  (only : ∀ x, place x = .writer → x = req) (empty : ∀ x phase, session index ≠ some ⟨x, phase⟩)

include empty in
theorem insert_others (i : Int) (x : Nat) (phase : Phase) (entry : session i = some ⟨x, phase⟩) :
    Function.update session index (some ⟨req, .held⟩) i = some ⟨x, phase⟩ := by
  rw [Function.update_of_ne, entry]
  rintro rfl
  exact empty x phase entry

include objects was only empty in
theorem objects_insert {pool : Sessionpool} (found : rpcSessionpoolGet pool index = some (some req))
    (kept : ∀ i x, i ≠ index → rpcSessionpoolGet s.reqPool i = some (some x) →
      rpcSessionpoolGet pool i = some (some x)) :
    Objects { s with reqPool := pool, writer := .inserted req index }
      (Function.update place req (.slot index))
      (Function.update session index (some ⟨req, .held⟩)) where
  free := free_moved objects was (by simp)
  callers := fun v x args here => (place_moved was (by simp) x).mpr (objects.callers v x args here)
  pending := fun x member => (place_moved was (by simp) x).mpr (objects.pending x member)
  writer := by
    intro x
    refine iff_of_false (fun here => ?_) (by simp)
    by_cases same : x = req
    · rw [same, Function.update_self] at here
      cases here
    · rw [Function.update_of_ne same] at here
      exact same (only x here)
  removed := fun x here => (place_moved was (by simp) x).mpr (objects.removed x here)
  slot := by
    intro x i
    constructor
    · intro here
      by_cases same : x = req
      · subst same
        rw [Function.update_self] at here
        cases here
        exact ⟨.held, Function.update_self ..⟩
      · rw [Function.update_of_ne same] at here
        obtain ⟨phase, entry⟩ := (objects.slot x i).mp here
        exact ⟨phase, insert_others empty i x phase entry⟩
    · rintro ⟨phase, entry⟩
      refine entries_update (Q := fun i x _ => Function.update place req (.slot index) x = .slot i)
        (fun i x phase entry => ?_) (Function.update_self ..) i x phase entry
      have slot := (objects.slot x i).mpr ⟨phase, entry⟩
      rw [Function.update_of_ne, slot]
      rintro rfl
      cases was.symm.trans slot
  pool := by
    refine entries_update (Q := fun i x _ => rpcSessionpoolGet pool i = some (some x))
      (fun i x phase entry => ?_) found
    refine kept i x ?_ (objects.pool i x phase entry)
    rintro rfl
    exact empty x phase entry
  allocated := allocated_moved objects was (by simp)

include empty in
theorem inFlight_insert (inFlight : InFlight s session) (popped : s.writer = .popped req)
    (pool : Sessionpool) :
    InFlight { s with reqPool := pool, writer := .inserted req index }
      (Function.update session index (some ⟨req, .held⟩)) where
  inserted := by
    intro x i here
    cases here
    exact Function.update_self ..
  stamped := by simp
  held := by
    refine entries_update (Q := fun i x phase => phase = .held →
      Writer.inserted req index = .inserted x i ∨ Writer.inserted req index = .stamped x ∧
        (s.heap x).seq = i) (fun i x phase entry here => ?_) fun _ => .inl rfl
    refine absurd here (no_held inFlight (fun x i here => ?_) (fun x here => ?_) entry)
    · cases popped.symm.trans here
    · cases popped.symm.trans here
  seq := by
    refine entries_update (Q := fun i x phase => phase ≠ .held → (s.heap x).seq = i)
      (fun i x phase entry other => inFlight.seq i x phase entry other) ?_
    exact fun impossible => absurd rfl impossible
  carries := entries_update (Q := fun _ x phase =>
    phase.Carries (s.callOf x) (s.heap x) s.answers) inFlight.carries trivial
  toPeer := fun c => carried_other _ (fun _ found => empty _ _ found.choose_spec) (inFlight.toPeer c)
  atPeer := fun c => carried_other _ (fun _ found => empty _ _ found.choose_spec) (inFlight.atPeer c)
  toClient := fun c =>
    carried_other _ (fun _ found => empty _ _ found.choose_spec) (inFlight.toClient c)
  got := by
    intro rsp p here
    obtain ⟨x, entry, pointer⟩ := inFlight.got rsp p here
    exact ⟨x, insert_others empty _ x _ entry, pointer⟩
  called := fun i x here => insert_others empty i x _ (inFlight.called i x here)

include was only empty in
theorem uncalled_insert (x : Nat) :
    Uncalled (Function.update place req (.slot index))
      (Function.update session index (some ⟨req, .held⟩)) x ↔ Uncalled place session x := by
  constructor
  · rintro (writing | ⟨i, phase, entry, other⟩)
    · by_cases same : x = req
      · rw [same, Function.update_self] at writing
        cases writing
      · rw [Function.update_of_ne same] at writing
        exact absurd (only x writing) same
    · by_cases here : i = index
      · rw [here, Function.update_self] at entry
        cases entry
        exact .inl was
      · rw [Function.update_of_ne here] at entry
        exact .inr ⟨i, phase, entry, other⟩
  · rintro (writing | ⟨i, phase, entry, other⟩)
    · rw [only x writing]
      exact .inr ⟨index, .held, Function.update_self .., by simp⟩
    · exact .inr ⟨i, phase, insert_others empty i x phase entry, other⟩

end Insert

theorem keeps_insert (matching : Matching s place session) {more : Nat → Option Nat}
    (step : clientStep s (.insert more) = some s') :
    ∃ place' session', Matching s' place' session' := by
  obtain ⟨objects, inFlight, books⟩ := matching
  cases clientStep_moves step with
  | insert req index pool popped inserted fits =>
      obtain ⟨index', pool', inserted', found, was_free, kept⟩ :=
        rpcSessionpoolInsert_spec more s.reqPool req
      cases inserted.symm.trans inserted'
      have was := (objects.writer req).mpr popped
      have only : ∀ x, place x = .writer → x = req := by
        intro x here
        cases popped.symm.trans ((objects.writer x).mp here)
        rfl
      have empty : ∀ x phase, session index ≠ some ⟨x, phase⟩ :=
        fun x phase entry => was_free x (objects.pool index x phase entry)
      obtain ⟨uncalled, accounted⟩ := uncalled_congr (uncalled_insert was only empty) books
      refine ⟨Function.update place req (.slot index),
        Function.update session index (some ⟨req, .held⟩),
        objects_insert objects was only empty found kept, inFlight_insert empty inFlight popped pool, ?_⟩
      exact { books with
        filled := books.filled
        content := fun x live => books.content x (live_moved (by simp [was, Place.Live]) x live)
        right := books.right
        uncalled := uncalled
        accounted := accounted }

theorem keeps_stamp (matching : Matching s place session) (step : clientStep s .stamp = some s') :
    Matching s' place session := by
  obtain ⟨objects, inFlight, books⟩ := matching
  cases clientStep_moves step with
  | stamp req index inserted =>
      have here := inFlight.inserted req index inserted
      -- the object is in one session, and that is the one whose slot it gets
      have only : ∀ i phase, session i = some ⟨req, phase⟩ → i = index ∧ phase = .held := by
        intro i phase entry
        have slot := (objects.slot req i).mpr ⟨phase, entry⟩
        cases slot.symm.trans ((objects.slot req index).mpr ⟨.held, here⟩)
        cases entry.symm.trans here
        exact ⟨rfl, rfl⟩
      have written : Function.update s.heap req { s.heap req with seq := index } req =
          { s.heap req with seq := index } := Function.update_self ..
      refine ⟨?_, ?_, ?_⟩
      · exact { objects with
          writer := by
            intro x
            refine iff_of_false (fun writing => ?_) (by simp)
            cases inserted.symm.trans ((objects.writer x).mp writing)
          pool := objects.pool }
      · exact {
          inserted := by simp
          stamped := by
            intro x stamped
            cases stamped
            simp only [written]
            exact here
          held := by
            intro i x phase entry held
            rcases inFlight.held i x phase entry held with writing | ⟨writing, -⟩
            · cases inserted.symm.trans writing
              exact .inr ⟨rfl, by simp only [written]⟩
            · cases inserted.symm.trans writing
          seq := by
            intro i x phase entry other
            have apart : x ≠ req := by
              rintro rfl
              exact other (only i phase entry).2
            simp only [Function.update_of_ne apart]
            exact inFlight.seq i x phase entry other
          carries := by
            intro i x phase entry
            by_cases same : x = req
            · subst same
              rw [(only i phase entry).2]
              trivial
            · simp only [Function.update_of_ne same]
              exact inFlight.carries i x phase entry
          toPeer := inFlight.toPeer
          atPeer := inFlight.atPeer
          toClient := inFlight.toClient
          got := inFlight.got
          called := inFlight.called }
      · exact { books with
          filled := by
            refine filled_frame objects books (fun t caller => ?_) _
            cases caller.symm.trans ((objects.slot req index).mpr ⟨.held, here⟩)
          content := by
            intro x live
            by_cases same : x = req
            · subst same
              obtain ⟨args, issued, content⟩ := books.content x live
              refine ⟨args, issued, ?_⟩
              simp only [written]
              rw [content]
              rfl
            · exact content_frame (Function.update_of_ne same ..) (books.content x live)
          right := books.right }

end Steps

end OpenRpc
