import OpenRpc.Answers
import OpenRpc.RequestConns
import OpenRpc.RequestPool

/-! # The request objects of a server

Any number of connections, each with its bytes, its closes and its place on the free list of connections.
Between two events the objects that are out are those that open connections keep for an unfinished
message, as long as no connection is closed, and none handed out again, while it keeps one: neither the
close nor the open looks at `unprocess_data` before it is forgotten.
-/

namespace OpenRpc

open Loans Memory Transition

/-- The peer has closed, or the read has failed. -/
def ReadResult.hangsUp : ReadResult → Bool
  | .eof | .fail => true
  | .data _ | .intr | .wouldBlock => false

variable {α : Type}

/-- The last answer that `read_from_conn` takes is an end of file or an error. -/
def ReadHangsUp (env : ReadEnv) (reads : List ReadResult) (c : RpcConn α) : Prop :=
  ∃ value c' used r rest, readFromConn env.memcpy env.grow reads c = .returned value c' rest ∧
    reads = used ++ r :: rest ∧ r.hangsUp = true

section Closing

variable {c c' c'' : RpcConn α}

/-- What a read leaves: the message kept as it was, and the connection closed exactly when the last
    answer taken says so. -/
structure ReadLeaves (reads rest : List ReadResult) (c c' : RpcConn α) : Prop where
  kept : c'.unprocessData = c.unprocessData
  ends : ∃ used, reads = used ++ rest ∧
    (c'.closes = c.closes ∧ (∀ r ∈ used, r.hangsUp = false) ∨
      c'.closes = c.closes + 1 ∧ c'.rcurr = none ∧ ∃ before r, used = before ++ [r] ∧ r.hangsUp = true)

theorem ReadLeaves.refl (reads : List ReadResult) (c : RpcConn α) : ReadLeaves reads reads c c :=
  ⟨rfl, [], rfl, .inl ⟨rfl, by simp⟩⟩

theorem ReadLeaves.cons {reads rest : List ReadResult} {r : ReadResult} (goes : r.hangsUp = false)
    (leaves : ReadLeaves reads rest c c') : ReadLeaves (r :: reads) rest c c' := by
  obtain ⟨kept, used, rfl, ends⟩ := leaves
  refine ⟨kept, r :: used, rfl, ?_⟩
  rcases ends with ⟨same, none_hangs⟩ | ⟨more, cleared, before, last, rfl, hangs⟩
  · exact .inl ⟨same, List.forall_mem_cons.mpr ⟨goes, none_hangs⟩⟩
  · exact .inr ⟨more, cleared, r :: before, last, rfl, hangs⟩

theorem ReadLeaves.after {reads rest : List ReadResult}
    (same : c'.closes = c.closes ∧ c'.unprocessData = c.unprocessData)
    (leaves : ReadLeaves reads rest c' c'') : ReadLeaves reads rest c c'' := by
  obtain ⟨kept, used, split, ends⟩ := leaves
  rw [same.1] at ends
  exact ⟨kept.trans same.2, used, split, ends⟩

theorem readLoop_leaves {grow : Grow} {reads rest : List ReadResult} {numAllocs : Nat} {value : Bool}
    (returned : readLoop grow reads numAllocs c = .returned value c' rest) :
    ReadLeaves reads rest c c' := by
  replace returned := readLoop_returns returned
  induction returned with
  | full => exact .refl _ _
  | fills room whole next ih =>
      refine .after (makeRoom_keeps room) (.cons rfl (.after ?_ ih))
      exact ⟨rfl, rfl⟩
  | short room part =>
      refine .after (makeRoom_keeps room) (.cons rfl (.after ?_ (.refl _ _)))
      exact ⟨rfl, rfl⟩
  | again unheard room next ih =>
      refine .after (makeRoom_keeps room) (.cons ?_ ih)
      rcases unheard with rfl | rfl <;> rfl
  | closes hangs room =>
      refine .after (makeRoom_keeps room) ⟨rfl, [_], rfl, .inr ⟨rfl, rfl, [], _, rfl, ?_⟩⟩
      rcases hangs with ⟨rfl, -⟩ | ⟨rfl, -⟩ <;> rfl

theorem readFromConn_leaves {memcpy : Memcpy} {grow : Grow} {reads rest : List ReadResult} {value : Bool}
    (returned : readFromConn memcpy grow reads c = .returned value c' rest) :
    ReadLeaves reads rest c c' := by
  cases compacted : compact memcpy c with
  | none =>
      simp only [readFromConn, compacted] at returned
      cases returned
  | some c₁ =>
      simp only [readFromConn, compacted] at returned
      exact .after (compact_keeps compacted) (readLoop_leaves returned)

theorem readFromConn_closing (env : ReadEnv) {reads rest : List ReadResult} {value : Bool}
    (returned : readFromConn env.memcpy env.grow reads c = .returned value c' rest) :
    c'.closes = c.closes ∧ ¬ReadHangsUp env reads c ∨
      c'.closes = c.closes + 1 ∧ c'.rcurr = none ∧ ReadHangsUp env reads c := by
  obtain ⟨-, used, split, ends⟩ := readFromConn_leaves returned
  rcases ends with ⟨same, none_hangs⟩ | ⟨more, cleared, before, r, rfl, hangs⟩
  · refine .inl ⟨same, ?_⟩
    rintro ⟨value', c'', before, r, rest', returned', split', hangs⟩
    cases returned.symm.trans returned'
    have taken : used = before ++ [r] := by
      apply (List.append_left_inj rest).mp
      rw [← split, split', List.append_assoc, List.singleton_append]
    rw [none_hangs r (by simp [taken])] at hangs
    cases hangs
  · refine .inr ⟨more, cleared, value, c', before, r, rest, returned, ?_, hangs⟩
    rw [split, List.append_assoc, List.singleton_append]

/-- The connection is as open as before, or has been cleared by a close. -/
def Shuts (c c' : RpcConn α) : Prop :=
  c'.closes = c.closes ∧ c'.rcurr = c.rcurr ∨ c'.rcurr = none

theorem Shuts.refl (c : RpcConn α) : Shuts c c := .inl ⟨rfl, rfl⟩

theorem Shuts.trans (first : Shuts c c') (second : Shuts c' c'') : Shuts c c'' := by
  rcases second with ⟨closes, rcurr⟩ | cleared
  · rcases first with ⟨closes', rcurr'⟩ | cleared
    · exact .inl ⟨closes.trans closes', rcurr.trans rcurr'⟩
    · exact .inr (rcurr.trans cleared)
  · exact .inr cleared

theorem keptBySending_shuts : KeptBySending (Shuts (α := α)) where
  refl := .refl
  trans := .trans
  queues := fun _ _ _ _ => .inl ⟨rfl, rfl⟩
  sends := fun _ _ => .inl ⟨rfl, rfl⟩
  closes := fun _ => .inr rfl

theorem dispatch_shuts {env : ServerEnv} {s s' : ServerReader} {req : RpcRequest} {go : Bool}
    (delivered : dispatch env s req = .ok (go, s')) : Shuts s.conn s'.conn := by
  obtain ⟨method, service, key, -, -, -, answered, -⟩ := dispatch_cases delivered
  have shuts := answer_keeps keptBySending_shuts answered
  rcases serve_cases env s key req.seq (req.input.bytes s.conn.rbuf req.inputLen) req.inputLen with
    ⟨cb, -, served⟩ | ⟨-, served⟩ <;> rwa [served] at shuts

end Closing

section Rounds

variable {env : ServerEnv} {s s' : ServerReader} {go : Bool} {closes : Nat}

/-- In the loop behind a read that left the connection open: it still is, or it has been closed and keeps
    nothing. -/
def OpenOrEmpty (closes : Nat) (c : RpcConn RpcRequest) : Prop :=
  c.closes = closes ∨ c.rcurr = none ∧ c.unprocessData = none

theorem readRound_openOrEmpty (h : readRound (reqSide env) env.behind s = .ok (go, s'))
    (before : OpenOrEmpty closes s.conn) : OpenOrEmpty closes s'.conn := by
  have window : ∀ {c}, s.conn.window? = some c → s.conn.rcurr ≠ none := by
    intro c here cleared
    simp [RpcConn.window?, cleared] at here
  have delivered : ∀ {c obj} {reader : ServerReader}, s.conn.window? = some c →
      (reqSide env).deliver reader obj = .ok (go, s') → reader.conn.closes = s.conn.closes →
      reader.conn.unprocessData = none → OpenOrEmpty closes s'.conn := by
    intro c obj reader here delivered same idle
    have still := before.resolve_right fun shut => window here shut.1
    rcases dispatch_shuts delivered with ⟨unclosed, -⟩ | cleared
    · exact .inl ((unclosed.trans same).trans still)
    · have kept := ((reqSide_consumes env).deliver _ _ _ _ delivered).2
      exact .inr ⟨cleared, kept.trans idle⟩
  cases readRound_moves h with
  | empty | waits | short => exact before
  | whole c c' obj unread idle here head parsed handed => exact delivered here handed rfl idle
  | keeps c c' obj kept unread idle here head parsed copied =>
      exact .inl (before.resolve_right fun shut => window here shut.1)
  | rejects c c' unread idle here head parsed =>
      exact .inl (before.resolve_right fun shut => window here shut.1)
  | resumes c last unread pending here enough handed => exact delivered here handed rfl rfl

theorem readRounds_openOrEmpty {fuel : Nat} (h : readRounds (reqSide env) env.behind fuel s = .ok s')
    (before : OpenOrEmpty closes s.conn) : OpenOrEmpty closes s'.conn := by
  induction fuel generalizing s with
  | zero => cases h
  | succ fuel ih =>
      unfold readRounds at h
      cases round : readRound (reqSide env) env.behind s with
      | error stop =>
          rw [round] at h
          cases h
      | ok result =>
          obtain ⟨go, s₁⟩ := result
          have after := readRound_openOrEmpty round before
          rw [round] at h
          cases go with
          | false =>
              cases h
              exact after
          | true => exact ih h after

theorem readRounds_closed {fuel : Nat} (h : readRounds (reqSide env) env.behind fuel s = .ok s')
    (cleared : s.conn.rcurr = none) (pending : s.conn.unprocessData.isSome) : s' = s := by
  have window : s.conn.window? = none := by simp [RpcConn.window?, cleared]
  obtain ⟨last, held⟩ := Option.isSome_iff_exists.mp pending
  cases fuel with
  | zero => cases h
  | succ fuel =>
      simp only [readRounds, readRound, held, window] at h
      by_cases unread : s.conn.rbytes = 0
      · rw [if_pos unread] at h
        cases h
        rfl
      · rw [if_neg unread] at h
        split at h
        · rename_i stop failed
          cases h
        · rename_i s₁ last'
          split at last' <;> cases last'
          cases h
          rfl
        · rename_i s₁ next
          split at next <;> cases next

end Rounds

section Callback

variable {env : ServerEnv} {reads : List ReadResult} {s s' : ServerReader}

/-- A run of the callback that does not close, in its read, a connection that keeps a head. -/
theorem cbReqRead_calm (h : cbReqRead env reads s = .ok s')
    (calm : s.conn.unprocessData = none ∨ ¬ReadHangsUp env.toReadEnv reads s.conn) :
    s'.conn.closes = s.conn.closes ∨ s'.conn.unprocessData = none := by
  simp only [cbReqRead, cbRead] at h
  cases read : readFromConn env.memcpy env.grow reads s.conn with
  | undefined | pending conn =>
      rw [read] at h
      cases h
  | returned value conn rest =>
      have kept := (readFromConn_leaves read).kept
      have after : OpenOrEmpty s.conn.closes conn := by
        rcases readFromConn_closing env.toReadEnv read with ⟨same, -⟩ | ⟨-, cleared, hangs⟩
        · exact .inl same
        · exact .inr ⟨cleared, kept.trans (calm.resolve_right (not_not_intro hangs))⟩
      rw [read] at h
      cases value with
      | false =>
          cases h
          exact after.imp id And.right
      | true => exact (readRounds_openOrEmpty (s := { s with conn := conn }) h after).imp id And.right

theorem cbReqRead_hangsUp (h : cbReqRead env reads s = .ok s') (pending : s.conn.unprocessData.isSome)
    (hangs : ReadHangsUp env.toReadEnv reads s.conn) :
    s'.conn.closes ≠ s.conn.closes ∧ s'.conn.unprocessData.isSome := by
  simp only [cbReqRead, cbRead] at h
  cases read : readFromConn env.memcpy env.grow reads s.conn with
  | undefined | pending conn =>
      rw [read] at h
      cases h
  | returned value conn rest =>
      have kept := (readFromConn_leaves read).kept
      obtain ⟨more, cleared, -⟩ :=
        (readFromConn_closing env.toReadEnv read).resolve_left fun unclosed => unclosed.2 hangs
      have result : conn.closes ≠ s.conn.closes ∧ conn.unprocessData.isSome := by
        refine ⟨by omega, ?_⟩
        rw [kept]
        exact pending
      rw [read] at h
      cases value with
      | false =>
          cases h
          exact result
      | true =>
          rw [readRounds_closed h cleared result.2]
          exact result

end Callback

/-- The connections of a server and its request objects. `opened` holds the connections that are open. -/
structure ServerProcess where
  readers : Nat → ServerReader
  kept : Nat → Option Nat
  opened : List Nat
  list : Freelist
  allocated : List Nat
  pool : RequestPool
  distinct : opened.Nodup

namespace ServerProcess

/-- Before the first connection; the memory still to be allocated holds anything. -/
def initial (readers : Nat → ServerReader) : ServerProcess where
  readers := readers
  kept := fun _ => none
  opened := []
  list := .initial
  allocated := []
  pool := .initial
  distinct := List.nodup_nil

/-- `rpc_conn_new` on the object `c`, and the assignment of `thread` behind it. -/
def setUp (s : ServerProcess) (c : Nat) (conn : RpcConn RpcRequest) (fd l th : Nat) : ServerProcess :=
  { s with readers := Function.update s.readers c (serverConn conn fd l th)
           kept := Function.update s.kept c none
           opened := s.opened.insert c
           list := (rpcConnFromFreelist s.list).2
           distinct := s.distinct.insert }

/-- Behind a run of the callback of `c`. -/
def ran (s : ServerProcess) (c : Nat) (k : Keeper) (list : Freelist) : ServerProcess :=
  { s with readers := Function.update s.readers c k.reader
           kept := Function.update s.kept c k.kept
           opened := if k.reader.conn.closes = (s.readers c).conn.closes then s.opened
                     else s.opened.erase c
           list := list
           pool := k.pool
           distinct := by
             split
             · exact s.distinct
             · exact s.distinct.erase c }

/-- The connection as its callback finds it. -/
def keeper (s : ServerProcess) (c : Nat) : Keeper := ⟨s.readers c, s.kept c, s.pool⟩

end ServerProcess

/-- The calls of `rpc_conn_add_freelist` for the closes of one connection, with the answers of
    realloc. -/
def addClosed (c : Nat) : List (Option (List (Option Nat))) → Freelist → Option Freelist
  | [], l => some l
  | added :: rest, l =>
      if ∀ junk ∈ added, junk.length = l.freetotal ∧ l.freetotal * 2 ≤ INT_MAX then
        addClosed c rest (rpcConnAddFreelist added l c)
      else none

inductive ServerAction where
  /-- A connection is accepted. -/
  | accept (fd l th : Nat) (new : NewConn)
  /-- A run of `cb_req_read` on an open connection; `added` has an answer of realloc for each time it
      closes the connection. -/
  | read (c : Nat) (env : ServerEnv) (reads : List ReadResult)
      (added : List (Option (List (Option Nat))))

/-- The events of a server. A run of the callback that does not return is none. -/
def serverStep (a : Allocator) : Step ServerProcess ServerAction
  | s, .accept fd l th new =>
      match poppedConn s.list with
      | none => none
      | some (some c) =>
          if c ∈ s.allocated then some (s.setUp c (s.readers c).conn fd l th) else none
      | some none =>
          if new.address ∈ s.allocated then none
          else
            some ({ s with allocated := new.address :: s.allocated }.setUp new.address
              (allocConn new.block new.vector) fd l th)
  | s, .read c env reads added =>
      if c ∈ s.opened then
        match cbReqReadObjects a env reads (s.keeper c) with
        | .error _ => none
        | .ok k =>
            if added.length = k.reader.conn.closes - (s.readers c).conn.closes then
              (addClosed c added s.list).map fun list => s.ran c k list
            else none
      else none

namespace ServerProcess

/-- What is asked of the request objects between two events: as many are out as open connections have an
    unfinished message, each is in one of them, and none was given back twice. -/
structure Balanced (s : ServerProcess) : Prop where
  count : s.pool.outstanding.length =
    s.opened.countP fun c => (s.readers c).conn.unprocessData.isSome
  owner : ∀ req ∈ s.pool.outstanding, ∃! c, c ∈ s.opened ∧ s.kept c = some req
  once : ReturnedOnce s.pool.history

/-- The event forgets no unfinished message: the connection given to an accept is not an open one that
    has one, and no read of a connection that has one meets an end of file or an error. -/
def Undisturbed (s : ServerProcess) : ServerAction → Prop
  | .accept .. => ∀ c, poppedConn s.list = some (some c) → c ∈ s.opened →
      (s.readers c).conn.unprocessData = none
  | .read c env reads _ => (s.readers c).conn.unprocessData = none ∨
      ¬ReadHangsUp env.toReadEnv reads (s.readers c).conn

/-- What holds as long as the events forget no unfinished message. -/
structure Accounted (s : ServerProcess) : Prop where
  pool : s.pool.Consistent
  loans : s.pool.outstanding.Perm (s.opened.filterMap s.kept)
  same : ∀ c ∈ s.allocated, (s.kept c).isSome = (s.readers c).conn.unprocessData.isSome
  known : ∀ c ∈ s.opened, c ∈ s.allocated

theorem accounted_initial (readers : Nat → ServerReader) : (initial readers).Accounted where
  pool := RequestPool.consistent_initial
  loans := .refl _
  same := by simp [initial]
  known := by simp [initial]

variable {s s' : ServerProcess} {c : Nat}

theorem count_kept (same : ∀ c ∈ s.opened, (s.kept c).isSome = (s.readers c).conn.unprocessData.isSome) :
    (s.opened.countP fun c => (s.readers c).conn.unprocessData.isSome) =
      (s.opened.filterMap s.kept).length := by
  rw [List.length_filterMap_eq_countP]
  apply List.countP_congr
  intro c member
  rw [same c member]

theorem Accounted.balanced (accounted : s.Accounted) : s.Balanced := by
  obtain ⟨pool, loans, same, known⟩ := accounted
  refine ⟨?_, fun req out => ?_, pool.sound.returnedOnce⟩
  · rw [count_kept fun c member => same c (known c member)]
    exact loans.length_eq
  · obtain ⟨c, opened, here⟩ := List.mem_filterMap.mp (loans.mem_iff.mp out)
    refine ⟨c, ⟨opened, here⟩, ?_⟩
    rintro d ⟨opened', here'⟩
    have apart := List.pairwise_filterMap.mp (loans.nodup_iff.mp pool.sound.nodup)
    by_contra other
    have : Std.Symm fun c d => ∀ b, s.kept c = some b → ∀ b', s.kept d = some b' → b ≠ b' :=
      ⟨fun c d apart b here b' here' => (apart b' here' b here).symm⟩
    exact apart.forall opened' opened other req here' req here rfl

theorem others_update (s : ServerProcess) (c : Nat) (k : Option Nat) :
    (s.opened.erase c).filterMap (Function.update s.kept c k) =
      (s.opened.erase c).filterMap s.kept := by
  apply List.filterMap_congr
  intro d member
  exact Function.update_of_ne (fun same => s.distinct.not_mem_erase (same ▸ member)) _ _

theorem kept_perm (s : ServerProcess) {c : Nat} (opened : c ∈ s.opened) (k : Option Nat) :
    (s.opened.filterMap (Function.update s.kept c k)).Perm
      (k.toList ++ (s.opened.erase c).filterMap s.kept) := by
  have split := (List.perm_cons_erase opened).filterMap (Function.update s.kept c k)
  rw [← others_update s c k]
  cases k <;> simpa [List.filterMap_cons] using split

/-- An open of `c`. -/
structure Opens (s : ServerProcess) (c : Nat) (s' : ServerProcess) : Prop where
  kept : s'.kept = Function.update s.kept c none
  opened : s'.opened = s.opened.insert c
  pool : s'.pool = s.pool
  empty : (s'.readers c).conn.unprocessData = none
  others : ∀ d, d ≠ c → s'.readers d = s.readers d
  object : poppedConn s.list = some (some c) ∧ c ∈ s.allocated ∧ s'.allocated = s.allocated ∨
    poppedConn s.list = some none ∧ c ∉ s.allocated ∧ s'.allocated = c :: s.allocated

variable {a : Allocator}

theorem serverStep_accept {fd l th : Nat} {new : NewConn}
    (step : serverStep a s (.accept fd l th new) = some s') : ∃ c, Opens s c s' := by
  simp only [serverStep] at step
  cases popped : poppedConn s.list with
  | none =>
      rw [popped] at step
      cases step
  | some object =>
      rw [popped] at step
      cases object with
      | some c =>
          simp only at step
          split at step
          · rename_i known
            cases step
            refine ⟨c, rfl, rfl, rfl, ?_, fun d other => ?_, .inl ⟨popped, known, rfl⟩⟩
            · simp only [setUp, Function.update_self]
              rfl
            · simp only [setUp, Function.update_of_ne other]
          · cases step
      | none =>
          simp only at step
          split at step
          · cases step
          · rename_i fresh
            cases step
            refine ⟨new.address, rfl, rfl, rfl, ?_, fun d other => ?_, .inr ⟨popped, fresh, rfl⟩⟩
            · simp only [setUp, Function.update_self]
              rfl
            · simp only [setUp, Function.update_of_ne other]

theorem serverStep_read {env : ServerEnv} {reads : List ReadResult}
    {added : List (Option (List (Option Nat)))}
    (step : serverStep a s (.read c env reads added) = some s') :
    c ∈ s.opened ∧ ∃ k list, cbReqReadObjects a env reads (s.keeper c) = .ok k ∧
      s' = s.ran c k list := by
  simp only [serverStep] at step
  split at step
  · rename_i opened
    cases callback : cbReqReadObjects a env reads (s.keeper c) with
    | error stop =>
        rw [callback] at step
        cases step
    | ok k =>
        rw [callback] at step
        simp only at step
        split at step
        · obtain ⟨list, -, rfl⟩ := Option.map_eq_some_iff.mp step
          exact ⟨opened, k, list, rfl, rfl⟩
        · cases step
  · cases step

theorem Accounted.split (accounted : s.Accounted) (opened : c ∈ s.opened) :
    s.pool.outstanding.Perm ((s.kept c).toList ++ (s.opened.erase c).filterMap s.kept) := by
  have perm := kept_perm s opened (s.kept c)
  rw [Function.update_eq_self] at perm
  exact accounted.loans.trans perm

theorem Accounted.kept_none (accounted : s.Accounted) (opened : c ∈ s.opened) :
    s.kept c = none ↔ (s.readers c).conn.unprocessData = none := by
  rw [← Option.isNone_iff_eq_none, ← Option.isNone_iff_eq_none, ← Option.not_isSome, ← Option.not_isSome,
    accounted.same c (accounted.known c opened)]

theorem Opens.same (opens : Opens s c s') (accounted : s.Accounted) :
    ∀ d ∈ s'.allocated, (s'.kept d).isSome = (s'.readers d).conn.unprocessData.isSome := by
  intro d member
  by_cases here : d = c
  · rw [here, opens.empty, opens.kept, Function.update_self, Option.isSome_none, Option.isSome_none]
  · have old : d ∈ s.allocated := by
      rcases opens.object with ⟨-, -, same⟩ | ⟨-, -, more⟩
      · rwa [same] at member
      · rw [more] at member
        exact (List.mem_cons.mp member).resolve_left here
    rw [opens.kept, Function.update_of_ne here, opens.others d here, accounted.same d old]

theorem Opens.known (opens : Opens s c s') (accounted : s.Accounted) :
    ∀ d ∈ s'.opened, d ∈ s'.allocated := by
  intro d member
  rw [opens.opened] at member
  rcases List.mem_insert_iff.mp member with rfl | old
  · rcases opens.object with ⟨-, known, same⟩ | ⟨-, -, more⟩
    · rwa [same]
    · rw [more]
      exact List.mem_cons_self
  · have known := accounted.known d old
    rcases opens.object with ⟨-, -, same⟩ | ⟨-, -, more⟩
    · rwa [same]
    · rw [more]
      exact List.mem_cons_of_mem _ known

theorem Opens.popped (opens : Opens s c s') (accounted : s.Accounted) (opened : c ∈ s.opened) :
    poppedConn s.list = some (some c) :=
  opens.object.elim And.left fun fresh => absurd (accounted.known c opened) fresh.2.1

theorem Opens.accounted (opens : Opens s c s') (accounted : s.Accounted)
    (undisturbed : ∀ d, poppedConn s.list = some (some d) → d ∈ s.opened →
      (s.readers d).conn.unprocessData = none) : s'.Accounted := by
  refine ⟨opens.pool ▸ accounted.pool, ?_, opens.same accounted, opens.known accounted⟩
  rw [opens.pool, opens.opened, opens.kept]
  apply accounted.loans.trans
  by_cases opened : c ∈ s.opened
  · have empty := undisturbed c (opens.popped accounted opened) opened
    rw [List.insert_of_mem opened, ← (accounted.kept_none opened).mpr empty, Function.update_eq_self]
  · rw [List.insert_of_not_mem opened, List.filterMap_cons_none (Function.update_self ..)]
    apply List.Perm.of_eq
    apply List.filterMap_congr
    intro d member
    have other : d ≠ c := fun here => opened (here ▸ member)
    rw [Function.update_of_ne other]

theorem Opens.undisturbed (opens : Opens s c s') (accounted : s.Accounted) (balanced : s'.Balanced)
    {d : Nat} (popped : poppedConn s.list = some (some d)) (opened : d ∈ s.opened) :
    (s.readers d).conn.unprocessData = none := by
  obtain rfl : d = c := by
    rcases opens.object with ⟨object, -⟩ | ⟨object, -⟩
    · exact Option.some_inj.mp (Option.some_inj.mp (popped.symm.trans object))
    · cases popped.symm.trans object
  have after := balanced.count
  rw [count_kept fun c member => opens.same accounted c (opens.known accounted c member), opens.pool,
    opens.opened, opens.kept, List.insert_of_mem opened, (kept_perm s opened none).length_eq,
    (accounted.split opened).length_eq, List.length_append, List.length_append] at after
  have nothing : (s.kept d).toList.length = 0 := by
    rw [Option.toList_none, List.length_nil] at after
    omega
  rw [← accounted.kept_none opened, ← Option.toList_eq_nil_iff]
  exact List.eq_nil_of_length_eq_zero nothing

section Ran

variable {env : ServerEnv} {reads : List ReadResult} {k : Keeper}

/-- A run of the callback on an open connection leaves what the others keep. -/
theorem Accounted.callback (accounted : s.Accounted) (opened : c ∈ s.opened)
    (callback : cbReqReadObjects a env reads (s.keeper c) = .ok k) :
    cbReqRead env reads (s.readers c) = .ok k.reader ∧
      k.Owes ((s.opened.erase c).filterMap s.kept) := by
  refine cbReqReadObjects_owes callback ⟨accounted.pool, accounted.split opened, ?_⟩ ?_
  · exact accounted.same c (accounted.known c opened)
  · exact fun value conn left read => (readFromConn_leaves read).kept

theorem Accounted.ran_same (accounted : s.Accounted) (list : Freelist)
    (both : k.kept.isSome = k.reader.conn.unprocessData.isSome) :
    ∀ d ∈ s.allocated, ((s.ran c k list).kept d).isSome =
      ((s.ran c k list).readers d).conn.unprocessData.isSome := by
  intro d member
  by_cases here : d = c
  · simp only [ran, here, Function.update_self, both]
  · simp only [ran, Function.update_of_ne here, accounted.same d member]

theorem Accounted.ran_known (accounted : s.Accounted) (list : Freelist) :
    ∀ d ∈ (s.ran c k list).opened, d ∈ s.allocated := by
  intro d member
  unfold ran at member
  split at member
  · exact accounted.known d member
  · exact accounted.known d (List.mem_of_mem_erase member)

theorem Accounted.ran (accounted : s.Accounted) (opened : c ∈ s.opened) (list : Freelist)
    (callback : cbReqReadObjects a env reads (s.keeper c) = .ok k)
    (calm : (s.readers c).conn.unprocessData = none ∨
      ¬ReadHangsUp env.toReadEnv reads (s.readers c).conn) : (s.ran c k list).Accounted := by
  obtain ⟨run, owes⟩ := accounted.callback opened callback
  refine ⟨owes.pool, ?_, accounted.ran_same list owes.same, accounted.ran_known list⟩
  apply owes.loans.trans
  unfold ServerProcess.ran
  split
  · exact (kept_perm s opened k.kept).symm
  · rename_i closed
    have empty := (cbReqRead_calm run calm).resolve_left closed
    have none_kept : k.kept = none := by
      rw [← Option.isNone_iff_eq_none, ← Option.not_isSome, owes.same, empty]
      rfl
    rw [others_update s c k.kept, none_kept]
    exact .refl _

theorem Accounted.calm (accounted : s.Accounted) (opened : c ∈ s.opened) (list : Freelist)
    (callback : cbReqReadObjects a env reads (s.keeper c) = .ok k)
    (balanced : (s.ran c k list).Balanced) :
    (s.readers c).conn.unprocessData = none ∨
      ¬ReadHangsUp env.toReadEnv reads (s.readers c).conn := by
  obtain ⟨run, owes⟩ := accounted.callback opened callback
  by_contra disturbed
  obtain ⟨pending, hangs⟩ := not_or.mp disturbed
  obtain ⟨closed, still⟩ := cbReqRead_hangsUp run (Option.isSome_iff_ne_none.mpr pending)
    (not_not.mp hangs)
  have after := balanced.count
  rw [count_kept fun d member => accounted.ran_same list owes.same d (accounted.ran_known list d member)]
    at after
  simp only [ServerProcess.ran, if_neg closed, others_update] at after
  rw [owes.loans.length_eq, List.length_append] at after
  have one : k.kept.toList.length = 1 := by
    obtain ⟨req, here⟩ := Option.isSome_iff_exists.mp (owes.same.trans still)
    rw [here]
    rfl
  omega

end Ran

end ServerProcess

/-- Over every run of a server, the request objects that are out are those its open connections keep,
    each in one of them, and none is given back twice, exactly as long as no event forgets an unfinished
    message. -/
theorem rpcRequest_balanced (a : Allocator) (readers : Nat → ServerReader)
    (actions : List ServerAction) :
    Always (serverStep a) ServerProcess.Balanced (.initial readers) actions ↔
      Along (serverStep a) ServerProcess.Undisturbed (.initial readers) actions := by
  refine always_iff_along (fun s accounted => accounted.balanced) ?_ ?_ actions
    (ServerProcess.accounted_initial readers)
  · intro s action s' undisturbed step accounted
    cases action with
    | accept fd l th new =>
        obtain ⟨c, opens⟩ := ServerProcess.serverStep_accept step
        exact opens.accounted accounted undisturbed
    | read c env reads added =>
        obtain ⟨opened, k, list, callback, rfl⟩ := ServerProcess.serverStep_read step
        exact accounted.ran opened list callback undisturbed
  · intro s action s' accounted step balanced
    cases action with
    | accept fd l th new =>
        obtain ⟨c, opens⟩ := ServerProcess.serverStep_accept step
        exact fun d popped opened => opens.undisturbed accounted balanced popped opened
    | read c env reads added =>
        obtain ⟨opened, k, list, callback, rfl⟩ := ServerProcess.serverStep_read step
        exact accounted.calm opened list callback balanced

/-- Every block is new, and the free list never grows. -/
def newBlocks : Allocator where
  malloc := fun _ live => some (live.sum + 1)
  grow := fun _ => none
  fresh := by
    rintro k live p given member
    cases given
    have most := List.le_sum_of_mem member
    omega

/-- The peer closes behind a head whose body is missing. And without any such close: a connection that
    waits for a body is taken from the free list, which it left long before, for another peer. -/
theorem rpcRequest_balanced_fails :
    let start := ServerProcess.initial fun _ => serverConn (allocConn [] []) 0 0 0
    let accept (address : Nat) : ServerAction :=
      .accept 3 0 0 ⟨address, List.replicate BUFFER_SIZE nul, List.replicate 5 []⟩
    let head (c : Nat) : ServerAction :=
      .read c echoServer [.data (requestHead (text ['m']) (text ['s']) 4 2)] []
    let close (c : Nat) : ServerAction := .read c echoServer [.eof] [none]
    ¬Always (serverStep newBlocks) ServerProcess.Balanced start [accept 1, head 1, close 1] ∧
    ¬Always (serverStep newBlocks) ServerProcess.Balanced start
      [accept 1, accept 2, close 1, close 2, accept 3, accept 4, head 2, close 3, accept 4] := by
  intro start accept head close
  have unbalanced : ∀ actions,
      ((exec (serverStep newBlocks) start actions).map fun s => (s.pool.outstanding.length,
        s.opened.countP fun c => (s.readers c).conn.unprocessData.isSome)) = some (1, 0) →
      ¬Always (serverStep newBlocks) ServerProcess.Balanced start actions := by
    intro actions computed always
    obtain ⟨s, run, counts⟩ := Option.map_eq_some_iff.mp computed
    obtain ⟨out, kept⟩ := Prod.mk.inj counts
    have same := (always_last always run).count
    omega
  exact ⟨unbalanced _ (by decide), unbalanced _ (by decide)⟩

end OpenRpc
