import OpenRpc.ClientThread
import OpenRpc.ConnFreelist
import OpenRpc.Response

/-! # The connections of a client thread

`rpc_client_thread_init` fills `req_conns` once, and `thread_write_hander` goes round it. Closing a
connection puts its object on the free list of the process and leaves `req_conns` as it is, and an open
may be given an object that is in use. The thread has its connections as long as neither happens to one
of them.
-/

namespace OpenRpc

open Transition Memory

def CLIENT_CONN_NUM : Nat := 3

/-- What `malloc` returns for a connection object, its buffer and its vector. -/
structure NewConn where
  address : Nat
  block : List Byte
  vector : List (List Byte)
  deriving Repr, DecidableEq

/-- The connections of a process with a client thread. The fields from `opens` on are not in the source:
    how many connections have been opened, for which of the openings each object is in use, and the
    openings of the thread itself, in the order of `req_conns`. -/
structure ClientProcess where
  client : ClientState
  list : Freelist
  conns : Nat → RpcConn RpcResponse
  allocated : List Nat
  opens : Nat
  openOf : Nat → Nat
  own : List Nat

/-- Before `rpc_client_thread_init` connects for the first time. -/
def ClientProcess.initial (heap : Nat → RpcRequest) (conns : Nat → RpcConn RpcResponse) :
    ClientProcess where
  client := { ClientState.initial heap rpcArrayNew with reqConnCount := CLIENT_CONN_NUM }
  list := .initial
  conns := conns
  allocated := []
  opens := 0
  openOf := fun _ => 0
  own := []

/-- The pointer `rpc_conn_from_freelist` answers; nothing where it reads behind the array. -/
def poppedConn (l : Freelist) : Option (Option Nat) :=
  match (rpcConnFromFreelist l).1 with
  | .null => some none
  | .cell _ content => content.map FreeCell.value

/-- The object `c` set up for the socket `fd`, and handed to the thread `th`. -/
def ClientProcess.setUp (s : ClientProcess) (c : Nat) (conn : RpcConn RpcResponse) (fd l th : Nat) :
    ClientProcess :=
  { s with list := (rpcConnFromFreelist s.list).2
           conns := Function.update s.conns c { rpcConnNewInner conn fd l with thread := some th }
           opens := s.opens + 1
           openOf := Function.update s.openOf c s.opens }

/-- `rpc_conn_new` or `rpc_conn_client_new`, and the assignment of `thread` behind it: the object and the
    process after it. A pointer to no connection crashes it. -/
def rpcConnOpen (s : ClientProcess) (fd l th : Nat) (new : NewConn) : Option (Nat × ClientProcess) :=
  match poppedConn s.list with
  | none => none
  | some (some c) => if c ∈ s.allocated then some (c, s.setUp c (s.conns c) fd l th) else none
  | some none =>
      if new.address ∈ s.allocated then none
      else
        let s := { s with allocated := new.address :: s.allocated }
        some (new.address, s.setUp new.address (allocConn new.block new.vector) fd l th)

inductive ConnAction where
  /-- A step of the client thread, its callers or its peer. -/
  | own (a : ClientAction)
  /-- A round of the `for` in `rpc_client_thread_init`. -/
  | connect (fd : Nat) (new : NewConn)
  /-- Other code opens a connection. -/
  | connNew (fd l th : Nat) (new : NewConn)
  /-- `rpc_conn_close`: the peer has closed, or a read or a send has failed. -/
  | close (c : Nat) (added : Option (List (Option Nat)))

/-- The client thread is `me`, with the event loop `loop`. -/
def connStep (me loop : Nat) : Step ClientProcess ConnAction
  | s, .own a =>
      if s.client.reqConns.cur = s.client.reqConnCount then
        (clientStep s.client a).map fun client => { s with client := client }
      else none
  | s, .connect fd new =>
      if s.client.reqConns.cur < s.client.reqConnCount then
        match rpcConnOpen s fd loop me new with
        | none => none
        | some (c, s') =>
            let reqConns := (rpcArrayAdd none s.client.reqConns (some c)).2
            some { s' with client := { s.client with reqConns := reqConns }, own := s.own ++ [s.opens] }
      else none
  | s, .connNew fd l th new => (rpcConnOpen s fd l th new).map Prod.snd
  | s, .close c added =>
      if c ∈ s.allocated ∧
          ∀ junk ∈ added, junk.length = s.list.freetotal ∧ s.list.freetotal * 2 ≤ INT_MAX then
        some { s with conns := Function.update s.conns c (rpcConnClose (s.conns c))
                      list := rpcConnAddFreelist added s.list c }
      else none

/-- A cell below the top of the free list holds `c`. -/
def OnFreelist (l : Freelist) (c : Nat) : Prop :=
  ∃ i written, i < l.freecurr ∧ (rpcFreelistInit l)[i]? = some ⟨written, some c⟩

namespace ClientProcess

/-- `c` can be written to as the `i`-th connection of the thread: it is not free, it is in use for the
    socket it was opened for, and it belongs to the thread. -/
structure Writable (me : Nat) (s : ClientProcess) (i c : Nat) : Prop where
  kept : ¬OnFreelist s.list c
  assigned : s.own[i]? = some (s.openOf c)
  thread : (s.conns c).thread = some me

/-- Every connection that can be picked can be written to. -/
def AllWritable (me : Nat) (s : ClientProcess) : Prop :=
  ∀ i c, rpcArrayIndex s.client.reqConns i = some c → Writable me s i c

/-- The connection `thread_write_hander` picks next, once the thread is set up. -/
def PickWritable (me : Nat) (s : ClientProcess) : Prop :=
  s.client.reqConns.cur = s.client.reqConnCount →
    ∃ c, rpcArrayIndex s.client.reqConns
        ((s.client.lastConn + 1) % s.client.reqConnCount).toNat = some c ∧
      Writable me s ((s.client.lastConn + 1) % s.client.reqConnCount).toNat c

/-- The step leaves the connections in `req_conns` alone: it closes none of them, and none of them is
    what the free list answers; what it answers to the thread is not on it any more. -/
def Leaves (s : ClientProcess) : ConnAction → Prop
  | .own _ => True
  | .connect _ _ => ∀ c, poppedConn s.list = some (some c) →
      some c ∉ s.client.reqConns.content ∧ ¬OnFreelist (rpcConnFromFreelist s.list).2 c
  | .connNew _ _ _ _ => ∀ c, poppedConn s.list = some (some c) →
      some c ∉ s.client.reqConns.content
  | .close c _ => some c ∉ s.client.reqConns.content

end ClientProcess

section Freelist

variable {l : Freelist} {c d : Nat}

theorem onFreelist_take (listed : OnFreelist (rpcConnFromFreelist l).2 c) : OnFreelist l c := by
  obtain ⟨i, written, below, here⟩ := listed
  simp only [rpcConnFromFreelist] at below here
  split at here
  · rename_i some_free
    rw [if_pos some_free] at below
    exact ⟨i, written, Nat.lt_of_lt_of_le below (Nat.sub_le _ 1), here⟩
  · rename_i none_free
    rw [if_neg none_free] at below
    exact ⟨i, written, below, here⟩

private theorem stored_below {cells : List FreeCell} {n i : Nat} {v cell : FreeCell} (below : i < n + 1)
    (here : (cells.set n v)[i]? = some cell) : cell = v ∨ i < n ∧ cells[i]? = some cell := by
  cases Nat.lt_or_eq_of_le (Nat.le_of_lt_succ below) with
  | inl lower =>
      rw [List.getElem?_set_ne (Nat.ne_of_gt lower)] at here
      exact .inr ⟨lower, here⟩
  | inr top =>
      subst top
      rw [List.getElem?_set_self'] at here
      obtain ⟨_, -, rfl⟩ := Option.map_eq_some_iff.mp here
      exact .inl rfl

theorem onFreelist_add {added : Option (List (Option Nat))} (sized : l.Sized)
    (listed : OnFreelist (rpcConnAddFreelist added l d) c) : c = d ∨ OnFreelist l c := by
  obtain ⟨i, written, below, here⟩ := listed
  simp only [rpcConnAddFreelist] at below here
  split at here
  · rename_i room
    rw [if_pos room] at below
    cases stored_below below here with
    | inl top =>
        cases top
        exact .inl rfl
    | inr lower => exact .inr ⟨i, written, lower⟩
  · rename_i full
    rw [if_neg full] at below
    cases added with
    | none => exact .inr ⟨i, written, below, here⟩
    | some junk =>
        cases stored_below below here with
        | inl top =>
            cases top
            exact .inl rfl
        | inr lower =>
            obtain ⟨lower, old⟩ := lower
            have inside := sized.inside
            rw [List.getElem?_append_left (by rw [sized.size]; omega)] at old
            exact .inr ⟨i, written, lower, old⟩

end Freelist

namespace ClientProcess

variable {me loop : Nat} {s s' : ClientProcess}

/-- What an open does: `c` is an object it was given or a new one, and it is now in use for this
    opening. -/
structure Opened (s : ClientProcess) (th c : Nat) (s' : ClientProcess) : Prop where
  client : s'.client = s.client
  list : s'.list = (rpcConnFromFreelist s.list).2
  opens : s'.opens = s.opens + 1
  openOf : s'.openOf = Function.update s.openOf c s.opens
  own : s'.own = s.own
  thread : (s'.conns c).thread = some th
  others : ∀ d, d ≠ c → s'.conns d = s.conns d
  object : poppedConn s.list = some (some c) ∧ c ∈ s.allocated ∧ s'.allocated = s.allocated ∨
    poppedConn s.list = some none ∧ c ∉ s.allocated ∧ s'.allocated = c :: s.allocated

theorem rpcConnOpen_opened {fd l th c : Nat} {new : NewConn}
    (opened : rpcConnOpen s fd l th new = some (c, s')) : Opened s th c s' := by
  unfold rpcConnOpen at opened
  split at opened
  · cases opened
  · rename_i popped
    split at opened
    · rename_i known
      cases opened
      refine ⟨rfl, rfl, rfl, rfl, rfl, ?_, fun d other => ?_, .inl ⟨popped, known, rfl⟩⟩
      · simp only [setUp, Function.update_self]
      · simp only [setUp, Function.update_of_ne other]
    · cases opened
  · rename_i popped
    split at opened
    · cases opened
    · rename_i fresh
      cases opened
      refine ⟨rfl, rfl, rfl, rfl, rfl, ?_, fun d other => ?_, .inr ⟨popped, fresh, rfl⟩⟩
      · simp only [setUp, Function.update_self]
      · simp only [setUp, Function.update_of_ne other]

/-- The process behind a round of `rpc_client_thread_init` whose open gave `d` and left `s'`. -/
def connected (s : ClientProcess) (d : Nat) (s' : ClientProcess) : ClientProcess :=
  { s' with client := { s.client with reqConns := (rpcArrayAdd none s.client.reqConns (some d)).2 }
            own := s.own ++ [s.opens] }

/-- The process behind a close of `c`. -/
def closed (s : ClientProcess) (c : Nat) (added : Option (List (Option Nat))) : ClientProcess :=
  { s with conns := Function.update s.conns c (rpcConnClose (s.conns c))
           list := rpcConnAddFreelist added s.list c }

/-- When each step can be taken, and what it does. -/
inductive ConnMoves (me : Nat) (s : ClientProcess) : ConnAction → ClientProcess → Prop where
  | own {a : ClientAction} (client : ClientState) (moved : clientStep s.client a = some client) :
      ConnMoves me s (.own a) { s with client := client }
  | connect {fd : Nat} {new : NewConn} (d : Nat) (s' : ClientProcess)
      (below : s.client.reqConns.cur < s.client.reqConnCount) (opened : Opened s me d s') :
      ConnMoves me s (.connect fd new) (s.connected d s')
  | connNew {fd l th : Nat} {new : NewConn} (d : Nat) (s' : ClientProcess)
      (opened : Opened s th d s') : ConnMoves me s (.connNew fd l th new) s'
  | close {c : Nat} {added : Option (List (Option Nat))} (known : c ∈ s.allocated)
      (granted : ∀ junk ∈ added,
        junk.length = s.list.freetotal ∧ s.list.freetotal * 2 ≤ INT_MAX) :
      ConnMoves me s (.close c added) (s.closed c added)

theorem connStep_moves {a : ConnAction} (step : connStep me loop s a = some s') :
    ConnMoves me s a s' := by
  cases a with
  | own a =>
      simp only [connStep] at step
      split at step
      · obtain ⟨client, moved, rfl⟩ := Option.map_eq_some_iff.mp step
        exact .own client moved
      · cases step
  | connect fd new =>
      simp only [connStep] at step
      split at step
      · rename_i below
        split at step
        · cases step
        · rename_i d s₁ opened
          cases step
          exact .connect d s₁ below (rpcConnOpen_opened opened)
      · cases step
  | connNew fd l th new =>
      obtain ⟨⟨d, s₁⟩, opened, rfl⟩ := Option.map_eq_some_iff.mp step
      exact .connNew d s₁ (rpcConnOpen_opened opened)
  | close c added =>
      simp only [connStep] at step
      split at step
      · rename_i granted
        cases step
        exact .close granted.1 granted.2
      · cases step

theorem clientStep_reqConns {s s' : ClientState} {a : ClientAction} (step : clientStep s a = some s') :
    s'.reqConns = s.reqConns ∧ s'.reqConnCount = s.reqConnCount := by
  cases clientStep_moves step with
  | call req s₁ idle new =>
      obtain ⟨freelist, allocated, rfl⟩ := rpcRequestNew_frame new
      exact ⟨rfl, rfl⟩
  | push | pop | insert | stamp | send | receive | answer | read | unequal | callback | remove | free =>
      exact ⟨rfl, rfl⟩

/-- What holds in every state, whatever happens to the connections of the thread, which are `mine`. -/
structure Filled (s : ClientProcess) (mine : List Nat) : Prop where
  content : s.client.reqConns.content = mine.map some
  count : s.client.reqConnCount = CLIENT_CONN_NUM
  bound : s.client.reqConns.cur ≤ CLIENT_CONN_NUM
  room : s.client.reqConns.size = RPCARRAYSIZE
  length : s.own.length = mine.length
  known : ∀ c ∈ mine, c ∈ s.allocated
  older : ∀ k ∈ s.own, k < s.opens
  listed : ∀ c, OnFreelist s.list c → c ∈ s.allocated
  sized : s.list.Sized

section Mine

variable {mine : List Nat} {i c d th : Nat}

theorem Filled.index (filled : Filled s mine) (i : Nat) :
    rpcArrayIndex s.client.reqConns i = mine[i]? := by
  rw [rpcArrayIndex_content, filled.content, List.getElem?_map]
  cases mine[i]? <;> rfl

theorem Filled.mem (filled : Filled s mine) : some c ∈ s.client.reqConns.content ↔ c ∈ mine := by
  simp [filled.content]

theorem Filled.cur (filled : Filled s mine) : s.client.reqConns.cur = mine.length := by
  rw [← RpcArray.content_length, filled.content, List.length_map]

theorem Opened.allocated (opened : Opened s th d s') (known : c ∈ s.allocated) : c ∈ s'.allocated := by
  cases opened.object with
  | inl popped => rwa [popped.2.2]
  | inr fresh =>
      rw [fresh.2.2]
      exact List.mem_cons_of_mem d known

theorem Opened.object_allocated (opened : Opened s th d s') : d ∈ s'.allocated := by
  cases opened.object with
  | inl popped =>
      rw [popped.2.2]
      exact popped.2.1
  | inr fresh =>
      rw [fresh.2.2]
      exact List.mem_cons_self

theorem Opened.listed (opened : Opened s th d s') (listed : OnFreelist s'.list c) :
    OnFreelist s.list c := by
  rw [opened.list] at listed
  exact onFreelist_take listed

theorem Opened.filled (opened : Opened s th d s') (filled : Filled s mine) : Filled s' mine where
  content := by rw [opened.client, filled.content]
  count := by rw [opened.client, filled.count]
  bound := by rw [opened.client]; exact filled.bound
  room := by rw [opened.client, filled.room]
  length := by rw [opened.own, filled.length]
  known := fun c member => opened.allocated (filled.known c member)
  older := by
    intro k member
    rw [opened.own] at member
    rw [opened.opens]
    exact Nat.lt_succ_of_lt (filled.older k member)
  listed := fun c listed => opened.allocated (filled.listed c (opened.listed listed))
  sized := by rw [opened.list]; exact filled.sized.take

theorem Writable.opened (opened : Opened s th d s') (other : c ≠ d) (writable : Writable me s i c) :
    Writable me s' i c where
  kept := fun listed => writable.kept (opened.listed listed)
  assigned := by rw [opened.own, opened.openOf, Function.update_of_ne other, writable.assigned]
  thread := by rw [opened.others c other, writable.thread]

theorem Opened.not_writable (opened : Opened s th d s') (filled : Filled s mine) :
    ¬Writable me s' i d := by
  intro writable
  have assigned := writable.assigned
  rw [opened.own, opened.openOf, Function.update_self] at assigned
  exact absurd (filled.older _ (List.mem_of_getElem? assigned)) (Nat.lt_irrefl _)

theorem Opened.connected (opened : Opened s th d s') (filled : Filled s mine)
    (below : s.client.reqConns.cur < s.client.reqConnCount) :
    Filled (s.connected d s') (mine ++ [d]) := by
  have after := opened.filled filled
  have count := filled.count
  have size : s.client.reqConns.cur < s.client.reqConns.size := by
    have room := filled.room
    simp only [CLIENT_CONN_NUM, RPCARRAYSIZE] at *
    omega
  have added : rpcArrayAdd none s.client.reqConns (some d) =
      (true, s.client.reqConns.store (some d) size) := dif_pos size
  refine ⟨?_, count, ?_, ?_, ?_, ?_, ?_, after.listed, after.sized⟩
  · simp only [ClientProcess.connected, added, store_content, filled.content, List.map_append]
    rfl
  · simp only [ClientProcess.connected, added]
    exact count ▸ below
  · simp only [ClientProcess.connected, added]
    exact filled.room
  · simp only [ClientProcess.connected, List.length_append, filled.length, List.length_singleton]
  · intro c member
    cases List.mem_append.mp member with
    | inl old => exact after.known c old
    | inr new =>
        rw [List.mem_singleton.mp new]
        exact opened.object_allocated
  · intro k member
    simp only [ClientProcess.connected, opened.opens]
    cases List.mem_append.mp member with
    | inl old => exact Nat.lt_succ_of_lt (filled.older k old)
    | inr new =>
        rw [List.mem_singleton.mp new]
        exact Nat.lt_succ_self _

theorem Filled.close (filled : Filled s mine) (known : c ∈ s.allocated)
    {added : Option (List (Option Nat))}
    (granted : ∀ junk ∈ added, junk.length = s.list.freetotal ∧ s.list.freetotal * 2 ≤ INT_MAX) :
    Filled (s.closed c added) mine where
  content := filled.content
  count := filled.count
  bound := filled.bound
  room := filled.room
  length := filled.length
  known := filled.known
  older := filled.older
  listed := by
    intro d listed
    cases onFreelist_add filled.sized listed with
    | inl same => exact same ▸ known
    | inr before => exact filled.listed d before
  sized := filled.sized.add granted

theorem Filled.step (filled : Filled s mine) {a : ConnAction} (step : connStep me loop s a = some s') :
    ∃ mine', Filled s' mine' := by
  cases connStep_moves step with
  | own client moved =>
      obtain ⟨conns, count⟩ := clientStep_reqConns moved
      exact ⟨mine, by simp only [conns, filled.content], by simp only [count, filled.count],
        by simp only [conns, filled.bound], by simp only [conns, filled.room], filled.length,
        filled.known, filled.older, filled.listed, filled.sized⟩
  | connect d s₁ below opened => exact ⟨mine ++ [d], opened.connected filled below⟩
  | connNew d s' opened => exact ⟨mine, opened.filled filled⟩
  | close known granted => exact ⟨mine, filled.close known granted⟩

/-- An object that is new or not one of the thread's is none of the thread's. -/
theorem Opened.other (opened : Opened s th d s') (filled : Filled s mine)
    (leaves : ∀ c, poppedConn s.list = some (some c) → c ∉ mine) : d ∉ mine := by
  cases opened.object with
  | inl popped => exact leaves d popped.1
  | inr fresh => exact fun member => fresh.2.1 (filled.known d member)

theorem Opened.popped (opened : Opened s th d s') (popped : poppedConn s.list = some (some c)) :
    d = c := by
  cases opened.object with
  | inl object => exact (Option.some_inj.mp (Option.some_inj.mp (popped.symm.trans object.1))).symm
  | inr fresh => cases popped.symm.trans fresh.1

/-- A round of `rpc_client_thread_init` with an object that is none of the thread's, nor free any more. -/
theorem AllWritable.connected (writable : AllWritable me s) (filled : Filled s mine)
    (below : s.client.reqConns.cur < s.client.reqConnCount) (opened : Opened s me d s')
    (other : d ∉ mine) (kept : ¬OnFreelist s'.list d) : AllWritable me (s.connected d s') := by
  intro i c here
  rw [(opened.connected filled below).index, List.getElem?_append] at here
  split at here
  · rename_i old
    have apart : c ≠ d := fun same => other (same ▸ List.mem_of_getElem? here)
    have before : Writable me s i c := writable i c ((filled.index i).trans here)
    obtain ⟨kept, assigned, thread⟩ := before.opened opened apart
    refine ⟨kept, ?_, thread⟩
    unfold ClientProcess.connected
    rw [List.getElem?_append_left (by rw [filled.length]; exact old)]
    exact opened.own ▸ assigned
  · rename_i new
    rw [List.getElem?_singleton] at here
    split at here
    · rename_i last
      cases here
      have newest : i = s.own.length := by
        rw [filled.length]
        omega
      refine ⟨kept, ?_, opened.thread⟩
      unfold ClientProcess.connected
      rw [newest, List.getElem?_concat_length, opened.openOf, Function.update_self]
    · cases here

theorem Writable.closed (writable : Writable me s i c) (filled : Filled s mine)
    {added : Option (List (Option Nat))} (apart : c ≠ d) : Writable me (s.closed d added) i c := by
  obtain ⟨kept, assigned, thread⟩ := writable
  refine ⟨fun listed => ?_, assigned, ?_⟩
  · exact kept ((onFreelist_add filled.sized listed).resolve_left apart)
  · simp only [ClientProcess.closed, Function.update_of_ne apart, thread]

/-- A step that leaves the connections of the thread alone keeps them writable. -/
theorem AllWritable.step {a : ConnAction} (leaves : Leaves s a)
    (step : connStep me loop s a = some s') (filled : Filled s mine) (writable : AllWritable me s) :
    AllWritable me s' := by
  have held : ∀ {i c}, mine[i]? = some c → Writable me s i c :=
    fun here => writable _ _ ((filled.index _).trans here)
  cases connStep_moves step with
  | own client moved =>
      intro i c here
      simp only [(clientStep_reqConns moved).1] at here
      obtain ⟨kept, assigned, thread⟩ := writable i c here
      exact ⟨kept, assigned, thread⟩
  | connect d s₁ below opened =>
      apply writable.connected filled below opened
      · exact opened.other filled fun c popped => mt filled.mem.mpr (leaves c popped).1
      · intro listed
        cases opened.object with
        | inl popped => exact (leaves d popped.1).2 (opened.list ▸ listed)
        | inr fresh => exact fresh.2.1 (filled.listed d (opened.listed listed))
  | connNew d s' opened =>
      have other := opened.other filled fun c popped => mt filled.mem.mpr (leaves c popped)
      intro i c here
      rw [(opened.filled filled).index] at here
      have apart : c ≠ d := fun same => other (same ▸ List.mem_of_getElem? here)
      exact (held here).opened opened apart
  | @close d added known granted =>
      intro i c here
      rw [(filled.close known granted).index] at here
      have apart : c ≠ d := fun same => mt filled.mem.mpr leaves (same ▸ List.mem_of_getElem? here)
      exact (held here).closed filled apart

theorem Opened.still_mine (opened : Opened s th d s') (filled : Filled s mine)
    (below : s.client.reqConns.cur < s.client.reqConnCount) (here : mine[i]? = some c) :
    rpcArrayIndex (s.connected d s').client.reqConns i = some c := by
  have inside := (List.getElem?_eq_some_iff.mp here).1
  rw [(opened.connected filled below).index, List.getElem?_append_left inside, here]

theorem Leaves.of_writable {a : ConnAction} (step : connStep me loop s a = some s')
    (filled : Filled s mine) (after : AllWritable me s') : Leaves s a := by
  cases connStep_moves step with
  | own client moved => trivial
  | connect d s₁ below opened =>
      intro c popped
      obtain rfl := opened.popped popped
      constructor
      · intro member
        obtain ⟨i, here⟩ := List.mem_iff_getElem?.mp (filled.mem.mp member)
        have inside := (List.getElem?_eq_some_iff.mp here).1
        have writable := after i d (opened.still_mine filled below here)
        apply opened.not_writable filled (i := i)
        refine ⟨writable.kept, ?_, writable.thread⟩
        have assigned := writable.assigned
        unfold ClientProcess.connected at assigned
        rw [List.getElem?_append_left (by rw [filled.length]; exact inside)] at assigned
        rw [opened.own, assigned]
      · have newest := after mine.length d
          (by rw [(opened.connected filled below).index, List.getElem?_concat_length])
        rw [← opened.list]
        exact newest.kept
  | connNew d s' opened =>
      intro c popped member
      obtain rfl := opened.popped popped
      obtain ⟨i, here⟩ := List.mem_iff_getElem?.mp (filled.mem.mp member)
      exact opened.not_writable filled (after i d (by rw [(opened.filled filled).index, here]))
  | close known granted =>
      intro member
      obtain ⟨i, here⟩ := List.mem_iff_getElem?.mp (filled.mem.mp member)
      have lost := (after i _ (by rw [(filled.close known granted).index, here])).thread
      simp only [ClientProcess.closed, Function.update_self, rpcConnClose] at lost
      cases lost

theorem AllWritable.pick (filled : Filled s mine) (writable : AllWritable me s) :
    PickWritable me s := by
  intro complete
  have count : s.client.reqConnCount = mine.length := by rw [← complete, filled.cur]
  have positive : 0 < s.client.reqConnCount := by
    rw [filled.count]
    decide
  have inside : ((s.client.lastConn + 1) % s.client.reqConnCount).toNat < mine.length := by
    have low := Int.emod_nonneg (s.client.lastConn + 1) (b := s.client.reqConnCount) (by omega)
    have high := Int.emod_lt_of_pos (s.client.lastConn + 1) (b := s.client.reqConnCount) (by omega)
    omega
  have here := (filled.index _).trans (List.getElem?_eq_getElem inside)
  exact ⟨_, here, writable _ _ here⟩

end Mine

theorem filled_initial (heap : Nat → RpcRequest) (conns : Nat → RpcConn RpcResponse) :
    Filled (initial heap conns) [] where
  content := rfl
  count := rfl
  bound := Nat.zero_le _
  room := rfl
  length := rfl
  known := by simp
  older := by simp [initial]
  listed := by
    rintro c ⟨i, written, below, -⟩
    exact absurd below (Nat.not_lt_zero i)
  sized := ⟨show 0 < 200 by decide, List.length_replicate, Nat.zero_le _⟩

end ClientProcess

/-- Over every run of the process, the connections of the thread can be written to exactly as long as
    every step leaves them alone; then so can the one that is picked. -/
theorem threadWriteHander_writable (me loop : Nat) (heap : Nat → RpcRequest)
    (conns : Nat → RpcConn RpcResponse) (actions : List ConnAction) :
    (Always (connStep me loop) (ClientProcess.AllWritable me) (.initial heap conns) actions ↔
      Along (connStep me loop) ClientProcess.Leaves (.initial heap conns) actions) ∧
    (Along (connStep me loop) ClientProcess.Leaves (.initial heap conns) actions →
      Always (connStep me loop) (ClientProcess.PickWritable me) (.initial heap conns) actions) := by
  let Good (s : ClientProcess) : Prop := s.AllWritable me ∧ ∃ mine, s.Filled mine
  have start : Good (.initial heap conns) := by
    refine ⟨fun i c here => ?_, [], ClientProcess.filled_initial heap conns⟩
    rw [(ClientProcess.filled_initial heap conns).index] at here
    cases here
  have keeps : ∀ s a s', s.Leaves a → connStep me loop s a = some s' → Good s → Good s' := by
    rintro s a s' leaves step ⟨writable, mine, filled⟩
    exact ⟨writable.step leaves step filled, filled.step step⟩
  constructor
  · refine always_iff_along (fun s good => good.1) keeps ?_ actions start
    rintro s a s' ⟨-, mine, filled⟩ step after
    exact .of_writable step filled after
  · intro along
    refine always_of_along ?_ keeps along start
    rintro s ⟨writable, mine, filled⟩
    exact writable.pick filled

/-- The peer closes the first connection, and it is the next one picked. And without any close of its
    own: the first connection is an object that was on the free list before; when another connection is
    closed and one opened, it is handed out again. -/
theorem threadWriteHander_writable_fails :
    let start := ClientProcess.initial (fun _ => .zeroed) (fun _ => allocConn [] [])
    let new (address : Nat) : NewConn :=
      ⟨address, List.replicate BUFFER_SIZE nul, List.replicate 5 []⟩
    let closed : List ConnAction :=
      [.connect 10 (new 1), .connect 11 (new 2), .connect 12 (new 3), .close 1 none]
    let taken : List ConnAction :=
      [.connNew 10 7 7 (new 1), .connNew 11 7 7 (new 2), .close 1 none, .close 2 none,
        .connNew 12 7 7 (new 3), .connect 13 (new 4), .connect 14 (new 4), .connect 15 (new 5),
        .close 3 none, .connNew 16 7 7 (new 6)]
    ¬Always (connStep 0 0) (ClientProcess.PickWritable 0) start closed ∧
    ¬Always (connStep 0 0) (ClientProcess.PickWritable 0) start taken := by
  intro start new closed taken
  constructor
  · intro always
    obtain ⟨s, run, complete, next, gone⟩ : ∃ s, exec (connStep 0 0) start closed = some s ∧
        s.client.reqConns.cur = s.client.reqConnCount ∧
        rpcArrayIndex s.client.reqConns
          ((s.client.lastConn + 1) % s.client.reqConnCount).toNat = some 1 ∧
        (s.conns 1).thread = none := ⟨_, rfl, rfl, rfl, rfl⟩
    obtain ⟨c, picked, writable⟩ := always_last always run complete
    cases next.symm.trans picked
    cases gone.symm.trans writable.thread
  · intro always
    obtain ⟨s, run, complete, next, other⟩ : ∃ s, exec (connStep 0 0) start taken = some s ∧
        s.client.reqConns.cur = s.client.reqConnCount ∧
        rpcArrayIndex s.client.reqConns
          ((s.client.lastConn + 1) % s.client.reqConnCount).toNat = some 2 ∧
        (s.conns 2).thread = some 7 := ⟨_, rfl, rfl, rfl, rfl⟩
    obtain ⟨c, picked, writable⟩ := always_last always run complete
    cases next.symm.trans picked
    cases other.symm.trans writable.thread

end OpenRpc
