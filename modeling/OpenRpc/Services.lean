import OpenRpc.Answers

/-! # Registered services

`rpc_server_regservice` stores a service under the text `method@service`, which it allocates;
`cb_req_read` looks it up under the text it prints into 256 bytes. The two agree as far as the second
text is not cut.
-/

namespace OpenRpc

open Memory

/-- The arguments of `rpc_server_regservice`. -/
structure Registration where
  serviceName : List Byte
  methodName : List Byte
  cb : Service

/-- The key, printed with `rpc_vsprintf("%s@%s", method_name, service_name)`. -/
def Registration.key (r : Registration) : List Byte := r.methodName ++ atSign :: r.serviceName

/-- A name without separators of the request line or of the key. -/
def PlainName (name : List Byte) : Prop := ∀ b ∈ name, NameByte b ∧ b ≠ atSign

instance (name : List Byte) : Decidable (PlainName name) :=
  inferInstanceAs (Decidable (∀ b ∈ name, _))

/-- A set of registrations: plain names, and no pair of them twice. -/
structure Registrations where
  regs : List Registration
  plain : ∀ r ∈ regs, PlainName r.methodName ∧ PlainName r.serviceName
  distinct : regs.Pairwise fun r r' => ¬(r.methodName = r'.methodName ∧ r.serviceName = r'.serviceName)

theorem first_separator {sep : Byte} {a b c d : List Byte} (clean : sep ∉ a) (clean' : sep ∉ c)
    (same : a ++ sep :: b = c ++ sep :: d) : a = c ∧ b = d := by
  induction a generalizing c with
  | nil =>
      cases c with
      | nil => exact ⟨rfl, (List.cons.inj same).2⟩
      | cons x c => exact absurd ((List.cons.inj same).1 ▸ List.mem_cons_self) clean'
  | cons x a ih =>
      cases c with
      | nil => exact absurd ((List.cons.inj same).1 ▸ List.mem_cons_self) clean
      | cons y c =>
          obtain ⟨rfl, rest⟩ := List.cons.inj same
          obtain ⟨rfl, rfl⟩ := ih (fun h => clean (.tail x h)) (fun h => clean' (.tail x h)) rest
          exact ⟨rfl, rfl⟩

namespace Registrations

/-- The service registered with this method and service name. -/
def lookup (rs : Registrations) (method service : List Byte) : Option Service :=
  (rs.regs.find? fun r => r.methodName = method ∧ r.serviceName = service).map Registration.cb

/-- A table that maps string keys as the registrations say. -/
structure MappedBy (rs : Registrations) (table : List Byte → Option Service) : Prop where
  found : ∀ r ∈ rs.regs, table r.key = some r.cb
  absent : ∀ key, (∀ r ∈ rs.regs, r.key ≠ key) → table key = none

/-- The key of a registration is told apart by its names: the first `@` ends the method. -/
theorem key_names {rs : Registrations} {r : Registration} (member : r ∈ rs.regs)
    {method service : List Byte} (clean : atSign ∉ method) (same : r.key = method ++ atSign :: service) :
    r.methodName = method ∧ r.serviceName = service := by
  have plain : atSign ∉ r.methodName := fun at_in => ((rs.plain r member).1 atSign at_in).2 rfl
  exact first_separator plain clean same

theorem one (rs : Registrations) {r r' : Registration} (member : r ∈ rs.regs) (member' : r' ∈ rs.regs)
    (names : r.methodName = r'.methodName ∧ r.serviceName = r'.serviceName) : r = r' := by
  let Once (x y : Registration) := x.methodName = y.methodName ∧ x.serviceName = y.serviceName → x = y
  have forward : rs.regs.Pairwise Once := rs.distinct.imp fun apart same => absurd same apart
  have backward : rs.regs.Pairwise (flip Once) :=
    rs.distinct.imp fun apart same => absurd ⟨same.1.symm, same.2.symm⟩ apart
  exact List.Pairwise.forall_of_forall_of_flip (R := Once) (fun x _ _ => rfl) forward backward
    member member' names

/-- The table that the registrations make. -/
def table (rs : Registrations) (key : List Byte) : Option Service :=
  (rs.regs.find? fun r => r.key = key).map Registration.cb

theorem table_mapped (rs : Registrations) : rs.MappedBy rs.table where
  found := by
    intro r member
    cases found : rs.regs.find? fun r' => r'.key = r.key with
    | none => simpa using List.find?_eq_none.mp found r member
    | some r' =>
        have member' := List.mem_of_find?_eq_some found
        have same : r'.key = r.key := by simpa using List.find?_some found
        have clean : atSign ∉ r.methodName := fun at_in => ((rs.plain r member).1 atSign at_in).2 rfl
        rw [table, found, rs.one member' member (key_names member' clean same)]
        rfl
  absent := by
    intro key other
    rw [table, List.find?_eq_none.mpr fun r member => by simpa using other r member]
    rfl

theorem MappedBy.lookup {rs : Registrations} {table : List Byte → Option Service}
    (mapped : rs.MappedBy table) {method : List Byte} (clean : atSign ∉ method)
    (service : List Byte) :
    table (method ++ atSign :: service) = rs.lookup method service := by
  rw [Registrations.lookup]
  cases found : rs.regs.find? fun r => r.methodName = method ∧ r.serviceName = service with
  | some r =>
      have names := List.find?_some found
      obtain ⟨rfl, rfl⟩ := of_decide_eq_true names
      exact mapped.found r (List.mem_of_find?_eq_some found)
  | none =>
      apply mapped.absent
      intro r member same
      exact List.find?_eq_none.mp found r member (decide_eq_true (key_names member clean same))

end Registrations

/-- A request that the part of `cb_req_read` behind the parser can get, and the buffer it is then read
    in: parsed with its whole body, or kept until its body was there. -/
inductive Parsed : List Byte → RpcRequest → Prop where
  | whole {new req : RpcRequest} {stale : Nat → CharPtr} {c w : Window}
      (parsed : rpcRequestParse new stale c = (.ok req, w)) : Parsed w.rbuf req
  | resumed {new req copy kept : RpcRequest} {stale : Nat → CharPtr} {c w : Window}
      (parsed : rpcRequestParse new stale c = (.needData req, w))
      (copied : rpcRequestCopyHead w.rbuf copy req = some kept) (mem : List Byte) (p : CharPtr) :
      Parsed mem { kept with input := p }

theorem Parsed.noAt {mem : List Byte} {req : RpcRequest} (parsed : Parsed mem req) {method : List Byte}
    (read : req.methodName.read mem = some method) : atSign ∉ method := by
  cases parsed with
  | whole parsed => exact rpcRequestParse_method (.inl parsed) read
  | resumed parsed copied mem p =>
      unfold rpcRequestCopyHead at copied
      split at copied
      · rename_i service method' version _ methodIs _
        cases copied
        cases read
        exact rpcRequestParse_method (.inr parsed) methodIs
      · cases copied

theorem Parsed.readable {mem : List Byte} {req : RpcRequest} (parsed : Parsed mem req) :
    ∃ method service, req.methodName.read mem = some method ∧
      req.serviceName.read mem = some service := by
  cases parsed with
  | whole parsed => exact rpcRequestParse_readable parsed
  | resumed parsed copied mem p =>
      unfold rpcRequestCopyHead at copied
      split at copied
      · rename_i service method version _ _ _
        cases copied
        exact ⟨method, service, rfl, rfl⟩
      · cases copied

/-- The part of `cb_req_read` behind the lookup, for what the lookup should find: the service registered
    for the request's names. -/
def handleWith (env : ServerEnv) (s : ServerReader) (req : RpcRequest) (method service : List Byte)
    (found : Option Service) : Except Stop (Bool × ServerReader) :=
  let input := req.input.bytes s.conn.rbuf req.inputLen
  let (c, replies) := match found with
    | some cb => ({ s.conn with currSeq := req.seq }, cb s.log.length input req.inputLen)
    | none => (s.conn, [.error RpcCode.notFound.num notFoundMessage])
  match answer env replies c with
  | .error stop => .error stop
  | .ok c =>
      let handed : Handed := ⟨method, service, req.seq, input, req.inputLen, found.isSome⟩
      .ok (true, { s with conn := c, log := s.log ++ [handed] })

theorem dispatch_handleWith {env : ServerEnv} {s : ServerReader} {req : RpcRequest}
    {method service key : List Byte} (running : s.conn.thread.isSome)
    (methodIs : req.methodName.read s.conn.rbuf = some method)
    (serviceIs : req.serviceName.read s.conn.rbuf = some service)
    (keyIs : serviceKey method service = some key) :
    dispatch env s req = handleWith env s req method service (env.serviceMap key) := by
  obtain ⟨th, thread⟩ := Option.isSome_iff_exists.mp running
  simp only [dispatch, thread, methodIs, serviceIs, keyIs, serve, handleWith]
  cases env.serviceMap key <;> rfl

theorem serviceKey_full {method service : List Byte}
    (fits : (method ++ atSign :: service).length ≤ 254) :
    serviceKey method service = some (method ++ atSign :: service) := by
  unfold serviceKey
  rw [if_pos (by omega), List.take_of_length_le fits]

theorem fits_of_serviceKey {method service : List Byte}
    (full : serviceKey method service = some (method ++ atSign :: service)) :
    (method ++ atSign :: service).length ≤ 254 := by
  simp only [serviceKey] at full
  split at full
  · have cut := congrArg List.length (Option.some.inj full)
    rw [List.length_take] at cut
    omega
  · cases full

/-- A parsed request reaches the service registered under its names exactly when `method@service` is at
    most 254 bytes long: 255 are cut, and from 256 on the terminator is written behind the buffer. -/
theorem cbReqRead_service (rs : Registrations) {env : ServerEnv} (mapped : rs.MappedBy env.serviceMap)
    {s : ServerReader} {req : RpcRequest} (parsed : Parsed s.conn.rbuf req)
    (running : s.conn.thread.isSome) :
    ∃ method service, req.methodName.read s.conn.rbuf = some method ∧
      req.serviceName.read s.conn.rbuf = some service ∧
      (serviceKey method service = some (method ++ atSign :: service) ∧
          dispatch env s req = handleWith env s req method service (rs.lookup method service) ↔
        (method ++ atSign :: service).length ≤ 254) := by
  obtain ⟨method, service, methodIs, serviceIs⟩ := parsed.readable
  refine ⟨method, service, methodIs, serviceIs, fun full => fits_of_serviceKey full.1, fun fits => ?_⟩
  have keyIs := serviceKey_full fits
  refine ⟨keyIs, ?_⟩
  rw [dispatch_handleWith running methodIs serviceIs keyIs,
    mapped.lookup (parsed.noAt methodIs) service]

/-- Three services whose names are parts of each other. -/
def similarRegs : List Registration :=
  [⟨text ['s'], text ['m'], fun _ input len => [.value (some input) len]⟩,
    ⟨text ['s', 's'], text ['m'], fun _ _ _ => [.value none 0]⟩,
    ⟨text ['s'], text ['m', 'm'], fun _ _ _ => [.error 500 notFoundMessage]⟩]

theorem similarRegs_plain : ∀ r ∈ similarRegs, PlainName r.methodName ∧ PlainName r.serviceName := by
  decide +kernel

theorem similarRegs_distinct : similarRegs.Pairwise fun r r' =>
    ¬(r.methodName = r'.methodName ∧ r.serviceName = r'.serviceName) := by
  decide +kernel

def similar : Registrations := ⟨similarRegs, similarRegs_plain, similarRegs_distinct⟩

def similarServer : ServerEnv := { echoServer with serviceMap := similar.table }

theorem similar_mapped : similar.MappedBy similarServer.serviceMap := similar.table_mapped

/-- The call of `m@ss` reaches the second of them. -/
theorem cbReqRead_service_similar : ∃ (s : ServerReader) (req : RpcRequest) (cb : Service),
    req.methodName.read s.conn.rbuf = some (text ['m']) ∧
    req.serviceName.read s.conn.rbuf = some (text ['s', 's']) ∧
    similar.lookup (text ['m']) (text ['s', 's']) = some cb ∧ cb 0 [7] 1 = [.value none 0] ∧
    dispatch similarServer s req =
      handleWith similarServer s req (text ['m']) (text ['s', 's']) (some cb) := by
  have names : Names (text ['m']) (text ['s', 's']) :=
    ⟨by decide +kernel, by decide +kernel, by decide +kernel⟩
  have parsed := rpcRequestParse_frame names (show Decimal.InInt32 4 by decide)
    (show 1 ≤ INT_MAX by decide) .zeroed (fun _ => .wild) [] [7] []
  have head := parsedAt_head names .zeroed [] [7] 4 1
  let s : ServerReader :=
    { serverConn (allocConn [] []) 3 0 0 with
      conn := { rpcConnNewInner (allocConn [] []) 3 0 with
                rbuf := requestHeadSpent (text ['m']) (text ['s', 's']) 4 1 ++ [7] ++ []
                thread := some 0 } }
  have whole : Parsed s.conn.rbuf _ := .whole (parsed.trans (if_pos (by decide)))
  obtain ⟨method, service, methodIs, serviceIs, reaches⟩ :=
    cbReqRead_service similar similar_mapped whole rfl
  obtain rfl : method = text ['m'] := Option.some.inj (methodIs.symm.trans head.methodName)
  obtain rfl : service = text ['s', 's'] := Option.some.inj (serviceIs.symm.trans head.serviceName)
  exact ⟨s, _, _, methodIs, serviceIs, rfl, rfl, (reaches.mpr (by decide)).2⟩

/-- One service, under a method name of `k` letters. -/
def longNamed (k : Nat) : Registrations where
  regs := [⟨text ['s'], List.replicate k 109, fun _ input len => [.value (some input) len]⟩]
  plain := by
    intro r member
    cases List.mem_singleton.mp member
    constructor
    · intro b letter
      cases List.eq_of_mem_replicate letter
      decide
    · exact (by decide +kernel : PlainName (text ['s']))
  distinct := List.pairwise_singleton _ _

/-- A server with this service. -/
def longNamedServer (k : Nat) : ServerEnv :=
  { echoServer with
    serviceMap := fun key =>
      if key = List.replicate k 109 ++ atSign :: text ['s'] then
        some fun _ input len => [.value (some input) len]
      else none }

theorem longNamed_mapped (k : Nat) : (longNamed k).MappedBy (longNamedServer k).serviceMap where
  found := by
    intro r member
    cases List.mem_singleton.mp member
    exact if_pos rfl
  absent := by
    intro key other
    exact if_neg (Ne.symm (other _ (List.mem_singleton.mpr rfl)))

/-- With 253 letters the key is cut, and the service is not found; with 254 the write behind the buffer
    comes first. -/
theorem cbReqRead_service_fails :
    ((longNamed 253).lookup (List.replicate 253 109) (text ['s'])).isSome ∧
    serviceKey (List.replicate 253 109) (text ['s']) = some (List.replicate 253 109 ++ [atSign]) ∧
    (∃ s, cbReqRead (longNamedServer 253)
        [.data (requestHead (List.replicate 253 109) (text ['s']) 4 0)]
        (serverConn (allocConn (List.replicate BUFFER_SIZE 0) (List.replicate 5 [])) 3 0 0) = .ok s ∧
      s.log.map Handed.found = [false]) ∧
    serviceKey (List.replicate 254 109) (text ['s']) = none := by
  have computed : (cbReqRead (longNamedServer 253)
      [.data (requestHead (List.replicate 253 109) (text ['s']) 4 0)]
      (serverConn (allocConn (List.replicate BUFFER_SIZE 0) (List.replicate 5 [])) 3 0 0)).toOption.map
        (fun s => s.log.map Handed.found) = some [false] := by decide +kernel
  exact ⟨by decide +kernel, by decide +kernel, returned_of_computed computed, by decide +kernel⟩

end OpenRpc
