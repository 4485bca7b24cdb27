import OpenRpc.Streams

/-! # Received requests and the responses to them

What a run of a server connection writes, compared with the requests it has received: one response for
each that has arrived whole, under the request's own number where `curr_seq` holds it.
-/

namespace OpenRpc

open Memory Decimal

theorem forall_at_map {β γ : Type} (f : β → γ) (l : List β) (P : Nat → γ → Prop) :
    (∀ (i : Nat) (c : γ), (l.map f)[i]? = some c → P i c) ↔
      ∀ (i : Nat) (b : β), l[i]? = some b → P i (f b) := by
  simp only [List.getElem?_map, Option.map_eq_some_iff, forall_exists_index, and_imp,
    forall_apply_eq_imp_iff₂]

/-- In any run of a server connection over a stream of requests that no run harms there is one response
    for each request that has arrived whole, and each carries the number of its own request exactly when
    every request without a service repeats the number of the last one before it that had a service. -/
theorem cbReqRead_answers (env : ServerEnv) (once : env.RepliesOnce) (returns : env.sock.Returns)
    (lossless : env.sock.Lossless) (names : ∀ e ∈ env.table, PhraseWord e.name)
    (grows : GrowsRight env.grow) (clean : ∀ k, (env.objs k).inputLen < 4294967296)
    (conn : RpcConn RpcRequest) (buffer : conn.rbuf.length = conn.rsize)
    (vector : conn.iov.length = conn.iovsize) (room : 5 ≤ conn.iovsize) (fd l th : Nat)
    (calls : List Call) (texts : List (List Byte)) (written : List.Forall₂ Call.WrittenAs calls texts)
    (runs : List (List ReadResult)) (missing : List Byte)
    (cut : receivedBy runs ++ missing = texts.flatten)
    (harmless : EveryRun (reqSide env) env.toReadEnv (HarmlessRun env.toReadEnv texts) 0
      (serverConn conn fd l th) runs) :
    let got := (callFraming env returns).arrived calls (receivedBy runs).length
    ∃ s, cbReads (reqSide env) env.toReadEnv runs (serverConn conn fd l th) = .ok s ∧
      ((s.conn.wire.length = got.length ∧ ∀ (i : Nat) (call : Call), got[i]? = some call →
          ∃ message, s.conn.wire[i]? = some message ∧ CarriesSeq call.seq message) ↔
        ∀ (i : Nat) (call : Call), got[i]? = some call →
          env.serviceMap (call.method ++ atSign :: call.service) = none →
          call.seq = lastFound ((got.take i).map (Call.handed env))) := by
  intro got
  let F := callFraming env returns
  have messages : texts = calls.map F.message :=
    messages_written F (fun _ _ => Call.written_bytes returns) written
  have stands : F.Stands calls (F.stream calls) (serverConn conn fd l th) :=
    (between_start F buffer rfl rfl rfl calls).stands
  have bytes : receivedBy runs ++ missing = F.stream calls := by
    rw [cut, messages, F.stream_messages]
  rw [← bytes] at stands
  rw [messages] at harmless
  obtain ⟨s, ran, handed⟩ := cbReads_harmless grows clean runs [] calls 0 (serverConn conn fd l th) rfl
    stands ⟨⟨vector, rfl, room⟩, rfl⟩ (by rw [bytes]; exact Nat.zero_add _) harmless
  have logged : s.log = got.map (Call.handed env) := by
    have record := handed [] rfl
    rw [Nat.zero_add] at record
    rw [record]
    exact foldl_snoc _ _ _
  refine ⟨s, ran, ?_⟩
  have answers := answers_iff once returns lossless names vector room ran
  simp only [logged, List.length_map, forall_at_map, ← List.map_take] at answers
  simpa only [Call.handed, Option.isSome_eq_false_iff, Option.isNone_iff_eq_none] using answers

/-- A call of a method nobody registered. -/
def strayCall (seq : Int) (fits : InInt32 seq) : Call :=
  { smallCall with
    method := text ['x']
    seq := seq
    names := ⟨by decide +kernel, smallCall.names.servicePlain, by decide +kernel⟩
    keyFits := smallCall.keyFits
    seqFits := fits }

theorem echoServer_once : echoServer.RepliesOnce := by
  intro key cb found k input len
  simp only [echoServer] at found
  split at found
  · cases found
    exact ⟨_, rfl⟩
  · cases found

/-- Between two calls that find a service one that does not and has the number of the first: the pieces
    end inside a head and inside a body. -/
theorem cbReqRead_answers_threeCalls :
    let calls := [smallCall, strayCall 4 smallCall.seqFits, nextCall]
    ∃ s, cbReads (reqSide echoServer) echoServer.toReadEnv
        ((cutAt [40, 34, 34] (calls.map Call.text).flatten).map fun piece => [.data piece])
        (serverConn nulConn 3 0 0) = .ok s ∧
      s.conn.wire.length = 3 ∧ ∀ (i : Nat) (call : Call), calls[i]? = some call →
        ∃ message, s.conn.wire[i]? = some message ∧ CarriesSeq call.seq message := by
  intro calls
  let F := callFraming echoServer echoServer_returns
  have zeroed : ∀ k, (echoServer.objs k).inputLen < 4294967296 := fun _ => (by decide : 0 < 4294967296)
  have written : List.Forall₂ Call.WrittenAs calls (calls.map Call.text) :=
    .cons (Call.written _) (.cons (Call.written _) (.cons (Call.written _) .nil))
  have messages : calls.map Call.text = calls.map F.message :=
    messages_written F (fun _ _ => Call.written_bytes echoServer_returns) written
  have bytes : (calls.map Call.text).flatten = F.stream calls := by rw [messages, F.stream_messages]
  have cut := cutAt_flatten [40, 34, 34] (calls.map Call.text).flatten
  have survives : Survives F echoServer.toReadEnv calls (serverConn nulConn 3 0 0)
      (cutAt [40, 34, 34] (calls.map Call.text).flatten) :=
    survives_of_calm (fun _ _ _ _ _ => rfl) (by decide)
  generalize cutAt [40, 34, 34] (calls.map Call.text).flatten = pieces at cut survives ⊢
  have buffer : nulConn.rbuf.length = nulConn.rsize := by simp [nulConn, allocConn]
  have stands : F.Stands calls (F.stream calls) (serverConn nulConn 3 0 0) :=
    (between_start F buffer rfl rfl rfl calls).stands
  have runs : EveryRun (reqSide echoServer) echoServer.toReadEnv
      (HarmlessRun echoServer.toReadEnv (calls.map Call.text)) 0 (serverConn nulConn 3 0 0)
      (pieces.map fun piece => [.data piece]) := by
    rw [messages]
    exact harmless_of_short F zeroed calls pieces [] calls 0 _ rfl
      (by rw [List.append_nil, cut, bytes]; exact stands) ⟨⟨rfl, rfl, by decide⟩, rfl⟩
      (by rw [List.append_nil, cut, bytes, Nat.zero_add]) survives.short survives.unharmed
  obtain ⟨s, ran, answers⟩ := cbReqRead_answers echoServer echoServer_once echoServer_returns
    echoServer_lossless errCodes_words noGrowth_right zeroed nulConn buffer rfl (by decide) 3 0 0 calls
    (calls.map Call.text) written (pieces.map fun piece => [.data piece]) []
    (by rw [List.append_nil, receivedBy_pieces, cut]) runs
  rw [receivedBy_pieces, cut, bytes, F.arrived_all] at answers
  refine ⟨s, ran, answers.mpr fun i call here absent => ?_⟩
  have unserved : ¬(call.method = smallCall.method ∧ call.service = smallCall.service) := by
    rintro ⟨method, service⟩
    have found : (echoServer.serviceMap (smallCall.method ++ atSign :: smallCall.service)).isSome := by
      decide
    rw [← method, ← service, absent] at found
    cases found
  rcases i with _ | _ | _ | i
  · cases here
    exact absurd ⟨rfl, rfl⟩ unserved
  · cases here
    decide
  · cases here
    exact absurd ⟨rfl, rfl⟩ unserved
  · cases here

/-- Calls of a method nobody registered are answered with the number of no request. -/
theorem cbReqRead_answers_notFound :
    let calls := [strayCall 4 smallCall.seqFits, strayCall 5 nextCall.seqFits]
    let texts := calls.map Call.text
    List.Forall₂ Call.WrittenAs calls texts ∧
    ∃ s, cbReads (reqSide echoServer) echoServer.toReadEnv [[.data texts.flatten]]
        (serverConn nulConn 3 0 0) = .ok s ∧ s.conn.wire.length = 2 ∧
      ¬ ∀ (i : Nat) (call : Call), calls[i]? = some call →
        ∃ message, s.conn.wire[i]? = some message ∧ CarriesSeq call.seq message := by
  intro calls texts
  let reply : Reply := .error 404 notFoundMessage
  have computed : (cbReads (reqSide echoServer) echoServer.toReadEnv [[.data texts.flatten]]
      (serverConn nulConn 3 0 0)).toOption.map (fun s => s.conn.wire) =
        some [reply.message errCodes (-1), reply.message errCodes (-1)] := by
    decide
  obtain ⟨s, ran, wire⟩ := returned_of_computed computed
  refine ⟨.cons (Call.written _) (.cons (Call.written _) .nil), s, ran, by rw [wire]; rfl, fun own => ?_⟩
  obtain ⟨message, there, carried⟩ := own 0 _ rfl
  simp only [wire, List.getElem?_cons_zero, Option.some.injEq] at there
  have stale := carriesSeq_unique (there ▸ carried) (reply_carriesSeq errCodes_words (-1) reply)
  exact absurd stale (by decide)

end OpenRpc
