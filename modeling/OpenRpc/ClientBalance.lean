import OpenRpc.ClientProcess

/-! # No call gets lost

Every call that was popped is with the writing thread, in one of the channels, with the reading thread,
or its callback has run. Counted over the connections of the thread, that leaves nothing over; with
every callback run at most once it says which calls are called back where nothing is on its way.
-/

namespace OpenRpc

open Transition Memory

/-- The messages in a channel of each of these connections. -/
def load {β : Type} (conns : Finset Nat) (channel : Nat → List β) : Nat :=
  ∑ c ∈ conns, (channel c).length

theorem load_update {β : Type} {conns : Finset Nat} {c : Nat} (inside : c ∈ conns)
    (channel : Nat → List β) (msgs : List β) :
    load conns (Function.update channel c msgs) + (channel c).length =
      load conns channel + msgs.length := by
  have others : ∑ x ∈ conns.erase c, (Function.update channel c msgs x).length =
      ∑ x ∈ conns.erase c, (channel x).length := by
    apply Finset.sum_congr rfl
    intro x member
    rw [Function.update_of_ne (Finset.ne_of_mem_erase member)]
  have new := Finset.add_sum_erase conns (fun x => (Function.update channel c msgs x).length) inside
  have old := Finset.add_sum_erase conns (fun x => (channel x).length) inside
  simp only [Function.update_self, others] at new
  unfold load
  omega

theorem load_empty {β : Type} {conns : Finset Nat} {channel : Nat → List β}
    (empty : ∀ c ∈ conns, channel c = []) : load conns channel = 0 := by
  apply Finset.sum_eq_zero
  intro c member
  rw [empty c member, List.length_nil]

/-- The requests a thread has in hand. -/
def Writer.load : Writer → Nat
  | .idle => 0
  | _ => 1

/-- The responses it has in hand, up to the callback. -/
def ReaderPc.load : ReaderPc → Nat
  | .got _ _ => 1
  | _ => 0

structure ClientState.Conserved (conns : Finset Nat) (s : ClientState) : Prop where
  picks : ∀ k conn, rpcArrayIndex s.reqConns k = some conn → conn ∈ conns
  outside : ∀ c, c ∉ conns → s.toPeer c = [] ∧ s.atPeer c = [] ∧ s.toClient c = []
  count : s.popped = s.writer.load + load conns s.toPeer + load conns s.atPeer +
    load conns s.toClient + s.reader.load + s.callbacks.length

/-- The connections of an array. -/
def RpcArray.pointers (array : RpcArray) : Finset Nat := (array.content.filterMap id).toFinset

theorem conserved_initial (heap : Nat → RpcRequest) (conns : RpcArray) :
    (ClientState.initial heap conns).Conserved conns.pointers where
  picks := by
    intro k conn picked
    rw [rpcArrayIndex_content, ClientState.initial] at picked
    have member := List.mem_of_getElem? (Option.join_eq_some_iff.mp picked)
    simpa [RpcArray.pointers] using member
  outside := fun c _ => ⟨rfl, rfl, rfl⟩
  count := by
    have empty : ∀ {β : Type}, load conns.pointers (fun _ => ([] : List β)) = 0 :=
      load_empty fun _ _ => rfl
    simp [ClientState.initial, Writer.load, ReaderPc.load, empty]

section Steps

variable {s s' : ClientState} {conns : Finset Nat}

theorem ClientState.Conserved.inside (conserved : s.Conserved conns) {c : Nat}
    (some_message : s.toPeer c ≠ [] ∨ s.atPeer c ≠ [] ∨ s.toClient c ≠ []) : c ∈ conns := by
  by_contra apart
  obtain ⟨none₁, none₂, none₃⟩ := conserved.outside c apart
  rcases some_message with h | h | h
  · exact h none₁
  · exact h none₂
  · exact h none₃

theorem update_outside {β : Type} {channel : Nat → List β} {c x : Nat} (inside : c ∈ conns)
    (apart : x ∉ conns) (msgs : List β) (empty : channel x = []) :
    Function.update channel c msgs x = [] := by
  have other : x ≠ c := by
    rintro rfl
    exact apart inside
  exact (Function.update_of_ne other ..).trans empty

theorem conserved_step {a : ClientAction} (step : clientStep s a = some s')
    (matching : ∃ place session, Matching s place session) (conserved : s.Conserved conns) :
    s'.Conserved conns := by
  have count := conserved.count
  cases clientStep_moves step with
  | call req s₁ idle new =>
      obtain ⟨freelist, allocated, rfl⟩ := rpcRequestNew_frame new
      exact ⟨conserved.picks, conserved.outside, count⟩
  | push => exact ⟨conserved.picks, conserved.outside, count⟩
  | remove seq req pool called removed =>
      exact ⟨conserved.picks, conserved.outside, by rw [called] at count; exact count⟩
  | free req removed =>
      exact ⟨conserved.picks, conserved.outside, by rw [removed] at count; exact count⟩
  | pop req rest idle queue =>
      refine ⟨conserved.picks, conserved.outside, ?_⟩
      rw [idle] at count
      simp only [Writer.load] at count ⊢
      omega
  | insert req index pool popped inserted fits =>
      exact ⟨conserved.picks, conserved.outside, by rw [popped] at count; exact count⟩
  | stamp req index inserted =>
      exact ⟨conserved.picks, conserved.outside, by rw [inserted] at count; exact count⟩
  | send req conn stamped picked =>
      have inside := conserved.picks _ _ picked
      have loads := load_update inside s.toPeer
        (s.toPeer conn ++ [⟨s.callOf req, s.heap req⟩])
      refine ⟨conserved.picks, fun c apart => ?_, ?_⟩
      · obtain ⟨none₁, none₂, none₃⟩ := conserved.outside c apart
        exact ⟨update_outside inside apart _ none₁, none₂, none₃⟩
      · rw [stamped] at count
        simp only [List.length_append, List.length_singleton] at loads
        simp only [Writer.load] at count ⊢
        omega
  | @receive conn m rest channel =>
      have inside := conserved.inside (c := conn) (.inl (by simp [channel]))
      have left := load_update inside s.toPeer rest
      have come := load_update inside s.atPeer (s.atPeer conn ++ [m])
      refine ⟨conserved.picks, fun c apart => ?_, ?_⟩
      · obtain ⟨none₁, none₂, none₃⟩ := conserved.outside c apart
        exact ⟨update_outside inside apart _ none₁, update_outside inside apart _ none₂, none₃⟩
      · simp only [channel, List.length_cons] at left
        simp only [List.length_append, List.length_singleton] at come
        simp only
        omega
  | @answer conn j code output m taken =>
      have cell := List.getElem?_eq_some_iff.mp taken
      have inside := conserved.inside (c := conn) (.inr (.inl (by
        intro empty
        rw [empty] at taken
        cases taken)))
      have left := load_update inside s.atPeer ((s.atPeer conn).eraseIdx j)
      have come := load_update inside s.toClient
        (s.toClient conn ++ [⟨m.call, code, m.request.seq, output⟩])
      refine ⟨conserved.picks, fun c apart => ?_, ?_⟩
      · obtain ⟨none₁, none₂, none₃⟩ := conserved.outside c apart
        exact ⟨none₁, update_outside inside apart _ none₂, update_outside inside apart _ none₃⟩
      · have shorter := List.length_eraseIdx_of_lt cell.1
        simp only [List.length_append, List.length_singleton] at come
        have some_message := cell.1
        simp only
        omega
  | @read conn rsp rest idle channel =>
      have inside := conserved.inside (c := conn) (.inr (.inr (by simp [channel])))
      have left := load_update inside s.toClient rest
      refine ⟨conserved.picks, fun c apart => ?_, ?_⟩
      · obtain ⟨none₁, none₂, none₃⟩ := conserved.outside c apart
        exact ⟨none₁, none₂, update_outside inside apart _ none₃⟩
      · rw [idle] at count
        simp only [channel, List.length_cons] at left
        simp only [ReaderPc.load] at count ⊢
        omega
  | unequal rsp req got other =>
      -- the request that was found has the number of the response
      obtain ⟨place, session, matching⟩ := matching
      obtain ⟨r, pointer, seq, -⟩ := got_found matching got
      cases pointer
      exact absurd seq other
  | callback rsp req got same =>
      refine ⟨conserved.picks, conserved.outside, ?_⟩
      rw [got] at count
      simp only [ReaderPc.load, List.length_append, List.length_singleton] at count ⊢
      omega

/-- Where nothing is on its way, every call issued has been called back once. -/
theorem ClientState.Conserved.completes (conserved : s.Conserved conns)
    (matching : ∃ place session, Matching s place session) (queue : s.reqPending = [])
    (writer : s.writer = .idle) (reader : ∀ rsp p, s.reader ≠ .got rsp p)
    (channels : ∀ c ∈ conns, s.toPeer c = [] ∧ s.atPeer c = [] ∧ s.toClient c = []) :
    s.completed.Perm (List.range s.issued.length) := by
  obtain ⟨place, session, -, -, books⟩ := matching
  have count := conserved.count
  have unread : s.reader.load = 0 := by
    cases here : s.reader with
    | got rsp p => exact absurd here (reader rsp p)
    | idle | called | removed => rfl
  rw [writer, unread, load_empty fun c member => (channels c member).1,
    load_empty fun c member => (channels c member).2.1,
    load_empty fun c member => (channels c member).2.2] at count
  have fifo := congrArg List.length books.fifo
  rw [queue, List.map_nil, List.length_nil, List.length_range'] at fifo
  have bound := books.bound
  have all : s.completed.length = s.issued.length := by
    rw [ClientState.completed, List.length_map]
    simp only [Writer.load] at count
    omega
  have within : s.completed ⊆ List.range s.issued.length := by
    intro k member
    exact List.mem_range.mpr (Nat.lt_of_lt_of_le (books.below k member) bound)
  exact (List.subperm_of_subset books.once within).perm_of_length_le (by rw [all, List.length_range])

end Steps

end OpenRpc
