import OpenRpc.Hashtable
import OpenRpc.Services

/-! # The registry of a server

`rpc_server_regservice` puts every service in front of the table, and leaves an older one with the same
name behind it. Which of the two a lookup meets depends on how often the table has expanded since.
-/

namespace OpenRpc

open Memory

/-- `rpc_str_hash`, over the bytes before the terminator; they are added as `signed char`. -/
def rpcStrHash (v : List Byte) : UInt32 :=
  v.foldl (fun h p => (h <<< 5) + h + p.toInt8.toInt32.toUInt32) 5381

/-- `rpc_str_equal`. -/
def rpcStrEqual (v₁ v₂ : List Byte) : Bool := decide (v₁ = v₂)

/-- `rpc_server`, with the `rpc_service` objects it has allocated; the map holds pointers to them. -/
structure RpcServer where
  serviceMap : Hashtable (List Byte) Nat
  services : List Registration

/-- `rpc_server_create`, as far as the table goes, with limits that are not rounded. -/
def rpcServerCreate : Option RpcServer :=
  (createHashtable loadLimit 16 rpcStrHash rpcStrEqual).map fun serviceMap => ⟨serviceMap, []⟩

def rpcServerRegservice (server : RpcServer) (service : Registration) : RpcServer where
  serviceMap := hashtableInsert server.serviceMap service.key server.services.length
  services := server.services ++ [service]

def rpcHashTableLookup (server : RpcServer) (key : List Byte) : Option Nat :=
  hashtableSearch server.serviceMap key

/-- A server after these registrations, in this order. -/
def regservices (regs : List Registration) : Option RpcServer :=
  rpcServerCreate.map fun server => regs.foldl rpcServerRegservice server

/-- The registrations under a key, oldest first. -/
def underKey (regs : List Registration) (key : List Byte) : List Nat :=
  (List.range regs.length).filter fun i => regs[i]?.map Registration.key = some key

theorem underKey_nodup (regs : List Registration) (key : List Byte) : (underKey regs key).Nodup :=
  List.nodup_range.filter _

theorem underKey_append (regs : List Registration) (r : Registration) (key : List Byte) :
    underKey (regs ++ [r]) key =
      underKey regs key ++ if r.key = key then [regs.length] else [] := by
  have old : ∀ i ∈ List.range regs.length, (regs ++ [r])[i]? = regs[i]? := by
    intro i member
    exact List.getElem?_append_left (List.mem_range.mp member)
  have front : (List.range regs.length).filter
      (fun i => (regs ++ [r])[i]?.map Registration.key = some key) = underKey regs key := by
    apply List.filter_congr
    intro i member
    rw [old i member]
  rw [underKey, List.length_append, List.length_singleton, List.range_succ, List.filter_append, front,
    List.filter_singleton, List.getElem?_concat_length]
  simp

theorem lt_of_underKey {regs : List Registration} {key : List Byte} {i : Nat}
    (member : i ∈ underKey regs key) : i < regs.length :=
  List.mem_range.mp (List.mem_filter.mp member).1

/-- The expansions since the registration `i`. -/
def expansionsSince (regs : List Registration) (i : Nat) : Nat :=
  expansions regs.length - expansions (i + 1)

/-- How the values of a key stand in the table: the last registration is in front of all others, or
    behind them after an odd number of expansions. -/
structure Standing (regs : List Registration) (key : List Byte) (values : List Nat) : Prop where
  absent : underKey regs key = [] → values = []
  last : ∀ earlier i, underKey regs key = earlier ++ [i] → ∃ others, others.Perm earlier ∧
    values = if Even (expansionsSince regs i) then i :: others else others ++ [i]

section Standing

variable {regs : List Registration} {key : List Byte} {values : List Nat}

theorem Standing.perm (standing : Standing regs key values) : values.Perm (underKey regs key) := by
  cases List.eq_nil_or_concat' (underKey regs key) with
  | inl none =>
      rw [none, standing.absent none]
  | inr some =>
      obtain ⟨earlier, i, split⟩ := some
      obtain ⟨others, same, order⟩ := standing.last earlier i split
      rw [split, order]
      split
      · exact (same.cons i).trans (List.perm_append_singleton i earlier).symm
      · exact same.append_right [i]

theorem turned_perm (times : Nat) (values : List Nat) : (Hashtable.turned times values).Perm values := by
  rw [Hashtable.turned]
  split
  · exact List.Perm.refl values
  · exact List.reverse_perm values

theorem Standing.registered (standing : Standing regs key values) {r : Registration}
    (same : r.key = key) (times : Nat) :
    Standing (regs ++ [r]) key (regs.length :: Hashtable.turned times values) := by
  have grown : underKey (regs ++ [r]) key = underKey regs key ++ [regs.length] := by
    rw [underKey_append, if_pos same]
  constructor
  · intro none
    rw [grown] at none
    exact absurd none (List.append_ne_nil_of_right_ne_nil _ (List.cons_ne_nil _ _))
  · intro earlier i split
    rw [grown] at split
    obtain ⟨rfl, rfl⟩ := List.append_singleton_inj.mp split
    have now : expansionsSince (regs ++ [r]) regs.length = 0 := by
      rw [expansionsSince, List.length_append]
      exact Nat.sub_self _
    refine ⟨Hashtable.turned times values, (turned_perm times values).trans standing.perm, ?_⟩
    rw [now, if_pos Even.zero]

theorem Standing.other (standing : Standing regs key values) {r : Registration} (other : r.key ≠ key) :
    Standing (regs ++ [r]) key
      (Hashtable.turned (expansions (regs.length + 1) - expansions regs.length) values) := by
  have grown : underKey (regs ++ [r]) key = underKey regs key := by
    rw [underKey_append, if_neg other, List.append_nil]
  have length : (regs ++ [r]).length = regs.length + 1 := List.length_append
  constructor
  · intro none
    rw [standing.absent (grown ▸ none)]
    simp [Hashtable.turned]
  · intro earlier i split
    rw [grown] at split
    obtain ⟨others, same, order⟩ := standing.last earlier i split
    have before : i + 1 ≤ regs.length :=
      lt_of_underKey (split ▸ List.mem_append_right earlier (List.mem_singleton.mpr rfl))
    have le := expansions_mono before
    rcases expansions_succ regs.length with more | still
    · have flips : expansionsSince (regs ++ [r]) i = expansionsSince regs i + 1 := by
        rw [expansionsSince, expansionsSince, length, more]
        omega
      refine ⟨others.reverse, (List.reverse_perm others).trans same, ?_⟩
      rw [flips, more, Nat.add_sub_cancel_left, order, Hashtable.turned_one]
      by_cases even : Even (expansionsSince regs i)
      · rw [if_pos even, if_neg (fun odd => Nat.even_add_one.mp odd even), List.reverse_cons]
      · rw [if_neg even, if_pos (Nat.even_add_one.mpr even), List.reverse_append]
        rfl
    · have keeps : expansionsSince (regs ++ [r]) i = expansionsSince regs i := by
        rw [expansionsSince, expansionsSince, length, still]
      refine ⟨others, same, ?_⟩
      rw [keeps, still, Nat.sub_self, Hashtable.turned_zero, order]

/-- A search meets the last registration if it is the only one or stands in front. -/
theorem Standing.newest (standing : Standing regs key values) :
    values.head? = (underKey regs key).getLast? ↔
      ∀ i, (underKey regs key).getLast? = some i →
        (underKey regs key).length = 1 ∨ Even (expansionsSince regs i) := by
  cases List.eq_nil_or_concat' (underKey regs key) with
  | inl none =>
      rw [none, standing.absent none]
      simp
  | inr some =>
      obtain ⟨earlier, i, split⟩ := some
      obtain ⟨others, same, order⟩ := standing.last earlier i split
      have distinct : (earlier ++ [i]).Nodup := split ▸ underKey_nodup regs key
      have absent : i ∉ others := fun member => by
        have := List.disjoint_of_nodup_append distinct (same.mem_iff.mp member)
        exact this (List.mem_singleton.mpr rfl)
      rw [split, List.getLast?_concat, order]
      by_cases even : Even (expansionsSince regs i)
      · rw [if_pos even]
        simp [even]
      · rw [if_neg even]
        cases others with
        | nil => simp [same.nil_eq.symm]
        | cons x others =>
            have apart : x ≠ i := fun same => absent (same ▸ List.mem_cons_self)
            have long := same.length_eq
            rw [List.length_cons] at long
            simp [apart, even, ← long]

end Standing

/-- The server after these registrations: how its table stands for every key. -/
structure Registry (regs : List Registration) (server : RpcServer) : Prop where
  services : server.services = regs
  filled : server.serviceMap.Filled regs.length
  standing : ∀ key, Standing regs key (server.serviceMap.found key)

theorem rpcServerCreate_registry : ∃ server, rpcServerCreate = some server ∧ Registry [] server := by
  refine ⟨_, rfl, rfl, ⟨rfl, ⟨fun k k' => decide_eq_true_iff, fun i e member => ?_, by decide⟩,
    ⟨by decide, by decide, by decide⟩, by decide, rfl⟩,
    fun key => ⟨fun _ => rfl, fun earlier i split => ?_⟩⟩
  · cases member
  · exact absurd split.symm (List.append_ne_nil_of_right_ne_nil _ (List.cons_ne_nil _ _))

theorem Registry.regservice {regs : List Registration} {server : RpcServer}
    (registry : Registry regs server) (r : Registration) :
    Registry (regs ++ [r]) (rpcServerRegservice server r) := by
  obtain ⟨filled, found⟩ := Hashtable.insert_spec registry.filled r.key server.services.length
  refine ⟨congrArg (· ++ [r]) registry.services, ?_, fun key => ?_⟩
  · rw [List.length_append]
    exact filled
  · change Standing _ key ((hashtableInsert server.serviceMap r.key server.services.length).found key)
    rw [found key, registry.services]
    by_cases same : r.key = key
    · rw [if_pos same.symm]
      exact (registry.standing key).registered same _
    · rw [if_neg (Ne.symm same)]
      exact (registry.standing key).other same

theorem regservices_registry (regs : List Registration) :
    ∃ server, regservices regs = some server ∧ Registry regs server := by
  obtain ⟨empty, created, start⟩ := rpcServerCreate_registry
  refine ⟨regs.foldl rpcServerRegservice empty, by rw [regservices, created]; rfl, ?_⟩
  induction regs using List.reverseRecOn with
  | nil => exact start
  | append_singleton regs r ih =>
      rw [List.foldl_append]
      exact ih.regservice r

/-- The lookup of a key gives its last registration exactly if there is no older one or the table has
    expanded an even number of times since. -/
theorem rpcServerRegservice_last (regs : List Registration) (key : List Byte) :
    ∃ server, regservices regs = some server ∧
      (rpcHashTableLookup server key = (underKey regs key).getLast? ↔
        ∀ i, (underKey regs key).getLast? = some i →
          (underKey regs key).length = 1 ∨ Even (expansionsSince regs i)) := by
  obtain ⟨server, registered, registry⟩ := regservices_registry regs
  refine ⟨server, registered, ?_⟩
  rw [rpcHashTableLookup, Hashtable.search_found]
  exact (registry.standing key).newest

/-- A name registered twice, and 34 others: the last of them is the 36th entry and expands the table. -/
def twiceAndMore : List Registration :=
  let named (b : Byte) : Registration := ⟨text ['s'], [b], fun _ input len => [.value (some input) len]⟩
  [named 97, named 97] ++ List.replicate 34 (named 98)

theorem rpcServerRegservice_last_fails :
    ∃ server, regservices twiceAndMore = some server ∧
      rpcHashTableLookup server (97 :: atSign :: text ['s']) = some 0 ∧
      (underKey twiceAndMore (97 :: atSign :: text ['s'])).getLast? = some 1 := by
  obtain ⟨server, registered, registry⟩ := regservices_registry twiceAndMore
  have both : underKey twiceAndMore (97 :: atSign :: text ['s']) = [0] ++ [1] := by decide
  have once : expansionsSince twiceAndMore 1 = 1 := by decide
  obtain ⟨others, same, order⟩ := (registry.standing _).last [0] 1 both
  rw [once, if_neg Nat.not_even_one, List.perm_singleton.mp same] at order
  refine ⟨server, registered, ?_, by rw [both]; rfl⟩
  rw [rpcHashTableLookup, Hashtable.search_found, order]
  rfl

section Registrations

variable {regs : List Registration} {server : RpcServer} {key : List Byte}

theorem mem_underKey {i : Nat} :
    i ∈ underKey regs key ↔ ∃ r, regs[i]? = some r ∧ r.key = key := by
  rw [underKey, List.mem_filter, List.mem_range, decide_eq_true_eq, Option.map_eq_some_iff]
  constructor
  · exact And.right
  · intro found
    obtain ⟨r, here, -⟩ := id found
    exact ⟨(List.getElem?_eq_some_iff.mp here).1, found⟩

/-- The service that `cb_req_read` finds is one that was registered under the key. -/
theorem Registry.found_mem (registry : Registry regs server) {i : Nat}
    (found : rpcHashTableLookup server key = some i) : i ∈ underKey regs key := by
  rw [rpcHashTableLookup, Hashtable.search_found] at found
  exact (registry.standing key).perm.mem_iff.mp (List.mem_of_head? found)

theorem Registry.found_none (registry : Registry regs server)
    (absent : rpcHashTableLookup server key = none) : underKey regs key = [] := by
  rw [rpcHashTableLookup, Hashtable.search_found, List.head?_eq_none_iff] at absent
  have same := (registry.standing key).perm
  rw [absent] at same
  exact same.nil_eq.symm

/-- The map from keys to services that the table of a server stands for. -/
def RpcServer.lookupService (server : RpcServer) (key : List Byte) : Option Service :=
  (rpcHashTableLookup server key).bind fun i => server.services[i]?.map Registration.cb

/-- Registering plain names, none of them twice, gives the map that `cb_req_read` is proved for. -/
theorem Registrations.mapped (rs : Registrations) :
    ∃ server, regservices rs.regs = some server ∧ rs.MappedBy server.lookupService := by
  obtain ⟨server, registered, registry⟩ := regservices_registry rs.regs
  refine ⟨server, registered, fun r member => ?_, fun key other => ?_⟩
  · obtain ⟨n, atN⟩ := List.getElem?_of_mem member
    have known : n ∈ underKey rs.regs r.key := mem_underKey.mpr ⟨r, atN, rfl⟩
    cases found : rpcHashTableLookup server r.key with
    | none =>
        rw [registry.found_none found] at known
        cases known
    | some i =>
        obtain ⟨r', here, same⟩ := mem_underKey.mp (registry.found_mem found)
        have member' := List.mem_of_getElem? here
        have clean : atSign ∉ r.methodName := fun at_in => ((rs.plain r member).1 atSign at_in).2 rfl
        have names := Registrations.key_names member' clean same
        have one : r' = r := rs.one member' member names
        rw [RpcServer.lookupService, found, Option.bind_some, registry.services, here, one]
        rfl
  · cases found : rpcHashTableLookup server key with
    | none => rw [RpcServer.lookupService, found, Option.bind_none]
    | some i =>
        obtain ⟨r, here, same⟩ := mem_underKey.mp (registry.found_mem found)
        exact absurd same (other r (List.mem_of_getElem? here))

end Registrations

end OpenRpc
