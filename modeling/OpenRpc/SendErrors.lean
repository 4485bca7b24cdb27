import OpenRpc.Send
import OpenRpc.Lib.Oracle

/-! # Sending on a connection that breaks

`rpc_send_message` closes the connection on a hard error and goes on asking the socket, which has
nothing but errors left to answer.
-/

namespace OpenRpc

open Memory Oracle

/-- The answer at `j` leaves the loop: it took nothing, or an entry ends with what it took. -/
def Leaves (iov : List (List Byte)) (f : Stream SendResult) (j : Nat) : Prop :=
  ∃ n, f j = .count n ∧ (n = 0 ∨ EntryEnd iov (sentBy (first f (j + 1))))

/-- What a socket can answer to a message for as long as it is asked: it never takes more than it is
    offered, it does not put the sender off for ever, and once it has failed it takes nothing more. -/
structure Possible (iov : List (List Byte)) (f : Stream SendResult) : Prop where
  offered : ∀ j, (∀ i < j, ¬Leaves iov f i) → sentBy (first f (j + 1)) ≤ iov.flatten.length
  drains : Interrupted .again f
  broken : ∀ i j n, f i = .fail → i ≤ j → f j ≠ .count n

/-- No hard error is among the answers the loop gets. -/
def Unbroken (iov : List (List Byte)) (f : Stream SendResult) : Prop :=
  ∀ i, f i = .fail → ∃ j < i, Leaves iov f j

theorem sentBy_append (results more : List SendResult) :
    sentBy (results ++ more) = sentBy results + sentBy more := by
  simp [sentBy]

theorem sentBy_cons (r : SendResult) (results : List SendResult) :
    sentBy (r :: results) = sentBy [r] + sentBy results := by
  simp [sentBy]

/-- The first answer leaves the loop running, with the entries `iov'` still to send. -/
structure GoesOn (iov : List (List Byte)) (f : Stream SendResult) (iov' : List (List Byte)) :
    Prop where
  stays : ¬Leaves iov f 0
  leaves : ∀ j, Leaves iov f (j + 1) ↔ Leaves iov' (later f) j
  offered : ∀ j, sentBy (first f (j + 1)) ≤ iov.flatten.length →
    sentBy (first (later f) j) ≤ iov'.flatten.length

theorem Possible.later {iov iov' : List (List Byte)} {f : Stream SendResult}
    (possible : Possible iov f) (goesOn : GoesOn iov f iov') : Possible iov' (later f) where
  offered := by
    intro j stays
    apply goesOn.offered
    apply possible.offered
    intro i below
    cases i with
    | zero => exact goesOn.stays
    | succ i => exact fun leaves => stays i (by omega) ((goesOn.leaves i).mp leaves)
  drains := possible.drains.later
  broken := fun i j n failed after => possible.broken (i + 1) (j + 1) n failed (by omega)

theorem Unbroken.later {iov iov' : List (List Byte)} {f : Stream SendResult}
    (unbroken : Unbroken iov f) (goesOn : GoesOn iov f iov') : Unbroken iov' (later f) := by
  intro i failed
  obtain ⟨j, below, leaves⟩ := unbroken (i + 1) failed
  cases j with
  | zero => exact absurd leaves goesOn.stays
  | succ j => exact ⟨j, by omega, (goesOn.leaves j).mp leaves⟩

theorem goesOn_again {f : Stream SendResult} (again : f 0 = .again) (iov : List (List Byte)) :
    GoesOn iov f iov := by
  have same : ∀ j, sentBy (first f (j + 1)) = sentBy (first (later f) j) := by
    intro j
    rw [first_succ, sentBy_cons, again]
    simp [sentBy]
  refine ⟨?_, fun j => ?_, fun j bound => by rwa [same] at bound⟩
  · rintro ⟨n, count, -⟩
    cases again.symm.trans count
  · simp only [Leaves, same]
    rfl

theorem goesOn_inside {skipped : List (List Byte)} (more : List (List Byte)) {v : List Byte}
    {res : Nat} {f : Stream SendResult} (taken : f 0 = .count (skipped.flatten.length + res))
    (positive : 0 < res) (inside : res < v.length) :
    GoesOn (skipped ++ v :: more) f (v.drop res :: more) := by
  have sum : ∀ j, sentBy (first f (j + 1)) =
      skipped.flatten.length + (res + sentBy (first (later f) j)) := by
    intro j
    rw [first_succ, sentBy_cons, taken]
    simp [sentBy, Nat.add_assoc]
  refine ⟨?_, fun j => ?_, fun j bound => ?_⟩
  · rintro ⟨n, count, nothing | ends⟩
    · cases taken.symm.trans count
      omega
    · rw [sum] at ends
      have behind := ((entryEnd_inside inside _ (by omega)).mp ends).1
      simp [first_zero, sentBy] at behind
  · simp only [Leaves, sum]
    constructor
    · rintro ⟨n, count, nothing | ends⟩
      · exact ⟨n, count, .inl nothing⟩
      · exact ⟨n, count, .inr ((entryEnd_inside inside _ (by omega)).mp ends).2⟩
    · rintro ⟨n, count, nothing | ends⟩
      · exact ⟨n, count, .inl nothing⟩
      · by_cases none_taken : n = 0
        · exact ⟨n, count, .inl none_taken⟩
        · have some_taken : 0 < sentBy (first (later f) (j + 1)) := by
            rw [first_last, sentBy_append, count]
            simp only [sentBy, List.map_cons, List.map_nil, List.sum_cons, List.sum_nil]
            omega
          exact ⟨n, count, .inr ((entryEnd_inside inside _ (by omega)).mpr ⟨some_taken, ends⟩)⟩
  · rw [sum] at bound
    simp only [List.flatten_append, List.flatten_cons, List.length_append, List.length_drop] at bound ⊢
    omega

section Loop

variable {α : Type}

theorem sendLoop_unbroken {iov : List (List Byte)} {f : Stream SendResult}
    (possible : Possible iov f) (unbroken : Unbroken iov f) (c : RpcConn α) (accepted : List Byte) :
    ∃ n c' rest, sendLoop (first f n) c iov accepted = .returned c' rest ∧ c'.closes = c.closes := by
  -- every count leaves less to send, and between two of them there are finitely many `again`
  induction left : iov.flatten.length using Nat.strong_induction_on generalizing iov f accepted with
  | _ left fewer =>
      subst left
      refine Interrupted.induction (P := fun f => Possible iov f → Unbroken iov f → ∃ n c' rest,
        sendLoop (first f n) c iov accepted = .returned c' rest ∧ c'.closes = c.closes) ?_ ?_
        possible.drains possible unbroken
      · clear possible unbroken f
        intro f drains different possible unbroken
        cases answer : f 0 with
        | again => exact absurd answer different
        | fail =>
            obtain ⟨j, below, -⟩ := unbroken 0 answer
            omega
        | count n =>
            by_cases nothing : n = 0
            · refine ⟨1, { c with iovused := 0, wire := c.wire ++ [accepted ++ iov.flatten.take n] }, [],
                ?_, rfl⟩
              rw [first_succ, answer, first_zero, sendLoop, if_neg (by omega)]
            · have offered := possible.offered 0 fun i below => by omega
              simp only [first_succ, answer, first_zero, sentBy, List.map_cons, List.map_nil,
                List.sum_cons, List.sum_nil, Nat.add_zero] at offered
              rcases sendLoop_split c (Nat.pos_of_ne_zero nothing) offered with
                ⟨-, here⟩ | ⟨skipped, v, more, res, rfl, positive, inside, rfl, goesOn⟩
              · refine ⟨1, { c with iovused := 0, wire := c.wire ++ [accepted ++ iov.flatten.take n] },
                  [], ?_, rfl⟩
                rw [first_succ, answer, first_zero, here]
              · have later := goesOn_inside more answer positive inside
                have less : (v.drop res :: more).flatten.length <
                    (skipped ++ v :: more).flatten.length := by
                  simp only [List.flatten_append, List.flatten_cons, List.length_append,
                    List.length_drop]
                  omega
                obtain ⟨n, c', rest, returned, closes⟩ :=
                  fewer _ less (possible.later later) (unbroken.later later) _ rfl
                refine ⟨n + 1, c', rest, ?_, closes⟩
                rw [first_succ, answer, goesOn]
                exact returned
      · clear possible unbroken f
        intro f drains again goesOn possible unbroken
        have later := goesOn_again again iov
        obtain ⟨n, c', rest, returned, closes⟩ := goesOn (possible.later later) (unbroken.later later)
        refine ⟨n + 1, c', rest, ?_, closes⟩
        rw [first_succ, again]
        exact returned

/-- On errors alone the loop does not end, and it closes the connection once for each hard one. -/
theorem sendLoop_errors {results : List SendResult} (errors : ∀ n, .count n ∉ results)
    (c : RpcConn α) (iov : List (List Byte)) (accepted : List Byte) :
    ∃ c', sendLoop results c iov accepted = .pending c' accepted ∧
      c'.closes = c.closes + results.count .fail := by
  induction results generalizing c with
  | nil => exact ⟨c, rfl, rfl⟩
  | cons r results ih =>
      have later : ∀ n, .count n ∉ results := fun n member => errors n (List.mem_cons_of_mem _ member)
      cases r with
      | count n => exact absurd List.mem_cons_self (errors n)
      | again =>
          obtain ⟨c', pending, closes⟩ := ih later c
          exact ⟨c', pending, by simpa using closes⟩
      | fail =>
          obtain ⟨c', pending, closes⟩ := ih later (rpcConnClose c)
          refine ⟨c', pending, ?_⟩
          rw [closes, List.count_cons_self, rpcConnClose]
          simp only
          omega

/-- A hard error that no answer before it has kept the loop from: the loop never returns. -/
theorem sendLoop_broken {iov : List (List Byte)} {f : Stream SendResult} (possible : Possible iov f)
    {i : Nat} (failed : f i = .fail) (stays : ∀ j < i, ¬Leaves iov f j) (n : Nat) (c : RpcConn α)
    (accepted : List Byte) :
    ∃ c' accepted', sendLoop (first f n) c iov accepted = .pending c' accepted' := by
  induction i generalizing iov f n c accepted with
  | zero =>
      have errors : ∀ k, SendResult.count k ∉ first f n := by
        intro k member
        obtain ⟨j, -, count⟩ := List.mem_map.mp member
        exact possible.broken 0 j k failed (Nat.zero_le j) count
      obtain ⟨c', pending, -⟩ := sendLoop_errors errors c iov accepted
      exact ⟨c', accepted, pending⟩
  | succ i ih =>
      cases n with
      | zero => exact ⟨c, accepted, rfl⟩
      | succ n =>
          have next : ∀ {iov' : List (List Byte)}, GoesOn iov f iov' →
              ∀ (c : RpcConn α) (accepted : List Byte), ∃ c' accepted',
                sendLoop (first (later f) n) c iov' accepted = .pending c' accepted' := by
            intro iov' goesOn c accepted
            apply ih (possible.later goesOn) failed
            intro j below leaves
            exact stays (j + 1) (by omega) ((goesOn.leaves j).mpr leaves)
          rw [first_succ]
          cases answer : f 0 with
          | again => exact next (goesOn_again answer iov) c accepted
          | fail =>
              have errors : ∀ k, SendResult.count k ∉ first (later f) n := by
                intro k member
                obtain ⟨j, -, count⟩ := List.mem_map.mp member
                exact possible.broken 0 (j + 1) k answer (Nat.zero_le _) count
              obtain ⟨c', pending, -⟩ := sendLoop_errors errors (rpcConnClose c) iov accepted
              exact ⟨c', accepted, pending⟩
          | count k =>
              have offered := possible.offered 0 fun i below => by omega
              simp only [first_succ, answer, first_zero, sentBy, List.map_cons, List.map_nil,
                List.sum_cons, List.sum_nil, Nat.add_zero] at offered
              have first_count : sentBy (first f 1) = k := by
                simp [first_succ, answer, first_zero, sentBy]
              have some_taken : 0 < k := by
                by_contra nothing
                exact stays 0 (by omega) ⟨k, answer, .inl (by omega)⟩
              rcases sendLoop_split c some_taken offered with
                ⟨ends, -⟩ | ⟨skipped, v, more, res, rfl, positive, inside, rfl, goesOn⟩
              · refine absurd ⟨k, answer, .inr ?_⟩ (stays 0 (by omega))
                rwa [first_count]
              · rw [goesOn]
                exact next (goesOn_inside more answer positive inside) c _

/-- `rpc_send_message` returns, and closes the connection at most once, exactly if no hard error is
    among the answers it gets. -/
theorem rpcSendMessage_endsOnce (c : RpcConn α) (f : Stream SendResult)
    (possible : Possible c.queued f) :
    (∃ n c' rest, rpcSendMessage (first f n) c = .returned c' rest ∧ c'.closes ≤ c.closes + 1) ↔
      Unbroken c.queued f := by
  constructor
  · rintro ⟨n, c', rest, returned, -⟩ i failed
    by_contra stays
    push Not at stays
    obtain ⟨c'', accepted, pending⟩ := sendLoop_broken possible failed stays n c []
    rw [rpcSendMessage, pending] at returned
    cases returned
  · intro unbroken
    obtain ⟨n, c', rest, returned, closes⟩ := sendLoop_unbroken possible unbroken c []
    exact ⟨n, c', rest, returned, by omega⟩

end Loop

/-- The socket is busy once and then takes the two bytes of a message. -/
def busyOnce : Stream SendResult
  | 0 => .again
  | _ + 1 => .count 2

theorem rpcSendMessage_endsOnce_busy :
    let c : RpcConn RpcRequest := { allocConn [] [[1, 2]] with iovused := 1 }
    Possible c.queued busyOnce ∧ ∃ n c' rest,
      rpcSendMessage (first busyOnce n) c = .returned c' rest ∧ c'.closes ≤ c.closes + 1 := by
  intro c
  have leaves : Leaves c.queued busyOnce 1 := ⟨2, rfl, .inr ⟨1, rfl⟩⟩
  have possible : Possible c.queued busyOnce := by
    refine ⟨fun j stays => ?_, fun i => ⟨i + 1, by omega, by simp [busyOnce]⟩, fun i j n failed => ?_⟩
    · rcases j with _ | _ | j
      · decide
      · decide
      · exact absurd leaves (stays 1 (by omega))
    · cases i <;> cases failed
  refine ⟨possible, (rpcSendMessage_endsOnce c busyOnce possible).mpr fun i failed => ?_⟩
  cases i <;> cases failed

/-- One byte of a message of two is taken, then the peer has gone. -/
def goneAfterOne : Stream SendResult
  | 0 => .count 1
  | _ + 1 => .fail

theorem rpcSendMessage_endsOnce_fails :
    ¬∀ (c : RpcConn RpcRequest) (f : Stream SendResult), Possible c.queued f → ∃ n c' rest,
      rpcSendMessage (first f n) c = .returned c' rest ∧ c'.closes ≤ c.closes + 1 := by
  intro ends
  let c : RpcConn RpcRequest := { allocConn [] [[1, 2]] with iovused := 1 }
  have inside : ¬Leaves c.queued goneAfterOne 0 := by
    rintro ⟨n, count, nothing | ⟨i, ends⟩⟩
    · cases count
      cases nothing
    · cases i with
      | zero => exact absurd ends (by decide)
      | succ i => simp [c, allocConn, RpcConn.queued, sentBy, first, goneAfterOne] at ends
  have possible : Possible c.queued goneAfterOne := by
    refine ⟨fun j _ => ?_, fun i => ⟨i + 1, by omega, by simp [goneAfterOne]⟩, fun i j n failed le => ?_⟩
    · have rest : ∀ n, sentBy (first (later goneAfterOne) n) = 0 := by
        intro n
        show sentBy ((List.range n).map fun _ => SendResult.fail) = 0
        simp [sentBy]
      rw [first_succ, sentBy_cons, rest]
      decide
    · cases i with
      | zero => cases failed
      | succ i =>
          obtain ⟨k, rfl⟩ : ∃ k, j = k + 1 := ⟨j - 1, by omega⟩
          simp [goneAfterOne]
  obtain ⟨n, c', rest, returned, -⟩ := ends c goneAfterOne possible
  obtain ⟨c'', accepted, pending⟩ := sendLoop_broken possible (i := 1) rfl
    (fun j below => by rwa [show j = 0 by omega]) n c []
  rw [rpcSendMessage, pending] at returned
  cases returned

end OpenRpc
