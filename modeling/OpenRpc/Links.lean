import OpenRpc.Dialogue

/-! # What a connection carries

The messages that the bytes of a connection amount to: the requests that were written and not handed
out yet, the responses to those handed out that were not taken yet. Each step at one of its ends does
to them what it does to two channels of whole messages.
-/

namespace OpenRpc

open Transition Memory Decimal

section Framings

variable {net : Network} (sound : net.Sound) (i : Nat)

/-- The requests of a connection. -/
def Network.Sound.calls : Framing (reqSide (net.server i)) Call :=
  callFraming (net.server i) (sound.returns i)

/-- Its responses. -/
def Network.Sound.answers : Framing (arrivalSide (net.client i)) Answer :=
  arrivalFraming (net.client i) (net.server i).table (sound.names i)

/-- The request is this call, for a service that is there. -/
def SentRequest.Shows (net : Network) (m : SentRequest) (call : Call) : Prop :=
  ∃ (args : CallArgs) (text : CallText) (seqFits : InInt32 m.request.seq),
    m.request = args.fill m.request ∧ text.AskedBy args ∧ (net.serviceMap text.key).isSome ∧
      call = text.call m.request.seq seqFits

def SentResponse.Shows (rsp : SentResponse) (answer : Answer) : Prop :=
  rsp.code = answer.code ∧ rsp.seq = answer.seq ∧ rsp.output = answer.body

/-- The bytes on their way are these requests and these responses. -/
structure Link.Carries (link : Link) (reading : Bool) (requests : List SentRequest)
    (responses : List SentResponse) : Prop where
  requests : ∃ todo, List.Forall₂ (SentRequest.Shows net) requests todo ∧
    (sound.calls i).Flows (net.server i).behind link.client.conn.wire link.toServer link.serving todo
      link.server ∧
    (sound.calls i).Ready todo link.server
  responses : ∃ due, List.Forall₂ SentResponse.Shows responses due ∧
    (sound.answers i).Flows (net.client i).behind link.server.conn.wire link.toClient reading due
      link.client ∧
    (sound.answers i).Ready due link.client
  idle : link.client.conn.Idle

end Framings

section Steps

variable {net : Network} {sound : net.Sound} {i : Nat} {link : Link} {reading : Bool}
  {requests : List SentRequest} {responses : List SentResponse}

theorem Link.Fresh.carries (fresh : link.Fresh) : link.Carries sound i false [] [] := by
  obtain ⟨conn, fd, l, th, buffer, vector, room, client⟩ := fresh.client
  obtain ⟨conn', fd', l', th', buffer', vector', room', server⟩ := fresh.server
  refine ⟨⟨[], .nil, ?_, ?_⟩, ⟨[], .nil, ?_, ?_⟩, ?_⟩
  · rw [client, server, fresh.serving, fresh.toServer]
    exact Framing.flows_start buffer' rfl rfl rfl
  · rw [server]
    exact ⟨⟨vector', rfl, room'⟩, rfl⟩
  · rw [client, server, fresh.toClient]
    exact Framing.flows_start buffer rfl rfl rfl
  · rw [client]
    rfl
  · rw [client]
    exact ⟨vector, rfl, room⟩

theorem Link.Carries.write (carries : link.Carries sound i reading requests responses)
    {m : SentRequest} {args : CallArgs} (holds : m.request = args.fill m.request)
    (takes : net.Takes args) (seqFits : InInt32 m.request.seq) :
    ∃ conn rest, writeData (net.alloc i) (net.sock i) m.request link.client.conn =
        .returned conn rest ∧
      Link.Carries sound i { link with client := { link.client with conn := conn } } reading
        (requests ++ [m]) responses := by
  obtain ⟨text, asked, served⟩ := takes
  obtain ⟨⟨todo, shown, flows, ready⟩, ⟨due, shown', flows', ready'⟩, idle⟩ := carries
  have methodName : m.request.methodName.read link.client.conn.rbuf = some text.method := by
    rw [holds, CallArgs.fill, asked.methodName]
    rfl
  have serviceName : m.request.serviceName.read link.client.conn.rbuf = some text.service := by
    rw [holds, CallArgs.fill, asked.serviceName]
    rfl
  have input : m.request.input = .heap text.body := by
    rw [holds]
    exact asked.input
  have inputLen : m.request.inputLen = text.body.length := by
    rw [holds]
    exact asked.inputLen
  have fits : m.request.inputLen ≤ INT_MAX := by
    rw [inputLen]
    exact text.fits
  obtain ⟨conn, rest, message, sent, wire, idle', same, whole⟩ :=
    writeData_idle (net.alloc i) (sound.sends i) idle methodName serviceName fits
  have bytes : message = (sound.calls i).message (text.call m.request.seq seqFits) := by
    rw [whole (sound.whole i), input, inputLen, CharPtr.bytes, List.take_length,
      ← requestHead_lines]
    rfl
  refine ⟨conn, rest, sent, ⟨todo ++ [text.call m.request.seq seqFits], ?_, ?_, ready⟩,
    ⟨due, shown', ?_, ?_⟩, idle'⟩
  · exact List.rel_append shown (.cons ⟨args, text, seqFits, holds, asked, served, rfl⟩ .nil)
  · simp only [wire, bytes]
    exact flows.write _
  · exact flows'.same same
  · have thread : conn.thread.isSome := same.thread ▸ ready'
    exact thread

/-- Where both ends have read everything and left their loops, nothing is on its way. -/
theorem Link.Carries.done (carries : link.Carries sound i false requests responses)
    (outside : link.serving = false)
    (toServer : link.client.conn.wire.flatten.length ≤ link.toServer)
    (toClient : link.server.conn.wire.flatten.length ≤ link.toClient) :
    requests = [] ∧ responses = [] := by
  obtain ⟨⟨todo, shown, flows, -⟩, ⟨due, shown', flows', -⟩, -⟩ := carries
  rw [outside] at flows
  rw [flows.done toServer] at shown
  rw [flows'.done toClient] at shown'
  exact ⟨List.forall₂_nil_right_iff.mp shown, List.forall₂_nil_right_iff.mp shown'⟩

end Steps

end OpenRpc
