import OpenRpc.ClientOrder
import OpenRpc.DialogueRuns

/-! # The order of the callbacks

The connections are taken in turn, so which connection a call goes to is known from its number. On each
of them the calls stand in a row, from the last one written to the first one that was called back: the
bytes keep their order, and the server answers the requests as it reads them.
-/

namespace OpenRpc

open Transition Memory

/-- The calls among these that go to connection `i`. -/
def callsOn (conns : RpcArray) (i : Nat) (calls : List Nat) : List Nat :=
  calls.filter fun k => rpcArrayIndex conns (k % conns.cur) = some i

namespace ClientState

/-- The call whose response `cb_rsp_read` has in hand, where that is the one of connection `i`. -/
def inHand (s : ClientState) (reading : Option Nat) (i : Nat) : List Nat :=
  match s.reader with
  | .got rsp _ => if reading = some i then [rsp.call] else []
  | _ => []

/-- The calls of a connection that were written and not read back, the oldest first. -/
def onTheWay (s : ClientState) (i : Nat) : List Nat :=
  (s.toClient i).map (·.call) ++ ((s.atPeer i).map (·.call) ++ (s.toPeer i).map (·.call))

/-- The first `n` calls were written. Those of each connection were called back, are in hand, and are on
    the way, in this order. -/
structure InRow (conns : RpcArray) (reading : Option Nat) (n : Nat) (s : ClientState) : Prop where
  held : s.reader ≠ .idle → reading ≠ none
  row : ∀ i, callsOn conns i (List.range n) =
    callsOn conns i s.completed ++ (s.inHand reading i ++ s.onTheWay i)

end ClientState

section Steps

variable {s s' : ClientState} {place : Nat → Place} {session : Sessions} {conns : RpcArray}
  {reading reading' : Option Nat} {log : List Written} {n : Nat}

theorem inHand_other {i : Nat} (other : ∀ rsp p, s.reader ≠ .got rsp p) : s.inHand reading i = [] := by
  unfold ClientState.inHand
  split
  · rename_i got
    exact absurd got (other _ _)
  · rfl

theorem inHand_idle {i : Nat} (idle : s.reader = .idle) : s.inHand reading i = [] :=
  inHand_other (by simp [idle])

theorem ClientState.InRow.turn (inRow : s.InRow conns reading n) (idle : s.reader = .idle) :
    s.InRow conns reading' n where
  held := fun busy => absurd idle busy
  row := by
    intro i
    rw [inRow.row i, inHand_idle idle, inHand_idle idle]

end Steps

section Runs

variable {net : Network} {sound : net.Sound} {conns : RpcArray} {d d' : Dialogue} {s : ClientState}

/-- What is kept besides the refinement. -/
structure Dialogue.InRow (sound : net.Sound) (conns : RpcArray) (d : Dialogue) (s : ClientState) :
    Prop where
  refines : d.Refines sound conns s
  rows : ∃ log, s.InOrder conns log ∧ s.InRow conns d.reading log.length

theorem Dialogue.Fresh.inRow (fresh : d.Fresh conns) : d.InRow sound conns d.thread := by
  refine ⟨fresh.refines, [], ?_⟩
  obtain ⟨heap, thread⟩ := fresh.thread
  rw [thread]
  exact ⟨inOrder_initial heap conns, fun busy => absurd rfl busy, fun i => rfl⟩

end Runs

end OpenRpc
