import OpenRpc.Lib.Transition
import OpenRpc.RequestPool

/-! # Recycled objects

`rpc_request_new` and `rpc_request_free` with what the objects hold, and `rpc_response_new` and
`rpc_response_free`, which are the same on their own free list. Between the two calls the object is its
owner's, who writes to it what he likes.
-/

namespace OpenRpc

open Loans Transition

/-- The static free list, NULL before the first call, and the objects: what is at each address, which
    ones malloc has given and free has not taken, and which ones are in use. -/
structure ObjectPool (α : Type) where
  freelist : Option RpcArray
  memory : Nat → α
  live : List Nat
  inUse : List Nat

/-- The answer of malloc: NULL, or an address and what it finds there. -/
abbrev Malloc (α : Type) := Option (Nat × α)

/-- The answer of realloc: nothing, or what is in the cells it adds. -/
abbrev Realloc := Option (Nat → Option Nat)

namespace ObjectPool

variable {α : Type}

/-- The free list as the first call makes it. -/
def list (s : ObjectPool α) : RpcArray := s.freelist.getD rpcArrayNew

def stack (s : ObjectPool α) : List (Option Nat) := s.list.content

/-- No object has been obtained: there is no free list, or an empty one of any size. -/
structure Unused (s : ObjectPool α) : Prop where
  stack : s.stack = []
  live : s.live = []
  inUse : s.inUse = []

/-- An object of the free list, else one of malloc. -/
def objectNew (malloc : Malloc α) (s : ObjectPool α) : Option Nat × ObjectPool α :=
  match rpcArrayGet s.list with
  | (some p, list) => (some p, { s with freelist := some list, inUse := p :: s.inUse })
  | (none, list) =>
      match malloc with
      | none => (none, { s with freelist := some list })
      | some (p, content) =>
          (some p, ⟨some list, Function.update s.memory p content, p :: s.live, p :: s.inUse⟩)

/-- The object is zeroed and goes on the free list, or to `free` where it cannot. Nothing: there is no
    free list. -/
def objectFree (zero : α) (more : Realloc) (s : ObjectPool α) (p : Nat) : Option (ObjectPool α) :=
  match s.freelist with
  | none => none
  | some list =>
      match rpcArrayAdd more list (some p) with
      | (true, list) =>
          some ⟨some list, Function.update s.memory p zero, s.live, s.inUse.erase p⟩
      | (false, list) =>
          some ⟨some list, Function.update s.memory p zero, s.live.erase p, s.inUse.erase p⟩

def rpcRequestNew (malloc : Malloc RpcRequest) (s : ObjectPool RpcRequest) :
    Option Nat × ObjectPool RpcRequest := objectNew malloc s

def rpcRequestFree (more : Realloc) (s : ObjectPool RpcRequest) (req : Nat) :
    Option (ObjectPool RpcRequest) := objectFree .zeroed more s req

def rpcResponseNew (malloc : Malloc RpcResponse) (s : ObjectPool RpcResponse) :
    Option Nat × ObjectPool RpcResponse := objectNew malloc s

def rpcResponseFree (more : Realloc) (s : ObjectPool RpcResponse) (rsp : Nat) :
    Option (ObjectPool RpcResponse) := objectFree .zeroed more s rsp

end ObjectPool

/-- The two calls of one kind of object, and a write of the owner. -/
inductive ObjectAction (α : Type) where
  | new (malloc : Malloc α)
  | write (p : Nat) (content : α)
  | free (p : Nat) (more : Realloc)

/-- The functions of one kind of object. -/
structure ObjectCalls (α : Type) where
  new : Malloc α → ObjectPool α → Option Nat × ObjectPool α
  free : Realloc → ObjectPool α → Nat → Option (ObjectPool α)

def requestCalls : ObjectCalls RpcRequest := ⟨ObjectPool.rpcRequestNew, ObjectPool.rpcRequestFree⟩

def responseCalls : ObjectCalls RpcResponse := ⟨ObjectPool.rpcResponseNew, ObjectPool.rpcResponseFree⟩

/-- malloc gives no address twice, and only what is in use is written to or freed. -/
def objectStep {α : Type} (calls : ObjectCalls α) : Step (ObjectPool α) (ObjectAction α)
  | s, .new malloc =>
      if ∀ answer ∈ malloc, answer.1 ∉ s.live then some (calls.new malloc s).2 else none
  | s, .write p content =>
      if p ∈ s.inUse then some { s with memory := Function.update s.memory p content } else none
  | s, .free p more => if p ∈ s.inUse then calls.free more s p else none

/-- What there is to say about the objects of one kind at any time. -/
structure NeverShared {α : Type} (calls : ObjectCalls α) (zero : α) (s : ObjectPool α) : Prop where
  new : ∀ malloc p s', (∀ answer ∈ malloc, answer.1 ∉ s.live) → calls.new malloc s = (some p, s') →
    p ∉ s.inUse ∧ s'.inUse = p :: s.inUse
  list : s.stack.Nodup ∧ ∀ q ∈ s.stack, ∃ p, q = some p ∧ s.memory p = zero ∧ p ∉ s.inUse
  freed : ∀ p ∈ s.inUse, ∀ more, ∃ s', calls.free more s p = some s' ∧ p ∉ s'.inUse ∧
    (some p ∈ s'.stack ∧ p ∈ s'.live ∨ some p ∉ s'.stack ∧ p ∉ s'.live)
  /-- What is neither in use nor on the free list is malloc's. -/
  accounted : s.inUse.Nodup ∧ ∀ p, p ∈ s.live ↔ p ∈ s.inUse ∨ some p ∈ s.stack

namespace ObjectPool

variable {α : Type} {s s' : ObjectPool α} {pool : RequestPool} {p : Nat}

/-- The addresses are those of a `RequestPool`. -/
structure Mirrors (s : ObjectPool α) (pool : RequestPool) : Prop where
  list : s.list = pool.freelist
  live : s.live = pool.live
  inUse : s.inUse = pool.outstanding

/-- An allocator that gives one answer, where it can. -/
def answering (answer : Option Nat) (more : Realloc) : Allocator where
  malloc _ live := if ∀ p ∈ answer, p ∉ live then answer else none
  grow _ := more
  fresh := by
    intro k live p given
    split at given
    · rename_i unused
      exact unused p given
    · cases given

theorem objectNew_mirrors (mirrors : s.Mirrors pool) {malloc : Malloc α}
    (unused : ∀ answer ∈ malloc, answer.1 ∉ s.live) (more : Realloc)
    (new : objectNew malloc s = (some p, s')) :
    ∃ pool', pool.rpcRequestNew (answering (malloc.map Prod.fst) more) = some (p, pool') ∧
      s'.Mirrors pool' := by
  obtain ⟨list, live, inUse⟩ := mirrors
  unfold objectNew at new
  unfold RequestPool.rpcRequestNew
  rw [← list]
  cases get : rpcArrayGet s.list with
  | mk top rest =>
      rw [get] at new
      cases top with
      | some q =>
          cases new
          exact ⟨_, rfl, rfl, live, congrArg (p :: ·) inUse⟩
      | none =>
          cases malloc with
          | none => cases new
          | some answer =>
              cases new
              have fresh : answer.1 ∉ pool.live := live ▸ unused answer rfl
              simp only [answering, Option.map_some, Option.mem_def, Option.some.injEq, forall_eq', fresh,
                not_false_eq_true, if_true]
              exact ⟨_, rfl, rfl, congrArg (answer.1 :: ·) live, congrArg (answer.1 :: ·) inUse⟩

theorem objectFree_mirrors (mirrors : s.Mirrors pool) (made : s.freelist.isSome) (zero : α)
    (more : Realloc) (p : Nat) :
    ∃ s', objectFree zero more s p = some s' ∧
      s'.Mirrors (pool.rpcRequestFree (answering none more) p) ∧
      s'.memory = Function.update s.memory p zero ∧ s'.freelist.isSome := by
  obtain ⟨list, live, inUse⟩ := mirrors
  obtain ⟨array, here⟩ := Option.isSome_iff_exists.mp made
  have same : pool.freelist = array := by rw [← list, ObjectPool.list, here, Option.getD_some]
  unfold objectFree RequestPool.rpcRequestFree
  simp only [here, same, answering]
  cases added : rpcArrayAdd more array (some p) with
  | mk done rest =>
      cases done with
      | true => exact ⟨_, rfl, ⟨rfl, live, congrArg (·.erase p) inUse⟩, rfl, rfl⟩
      | false =>
          exact ⟨_, rfl, ⟨rfl, congrArg (·.erase p) live, congrArg (·.erase p) inUse⟩, rfl, rfl⟩

/-- The free list holds what malloc has given and nobody uses, zeroed. -/
structure Kept (zero : α) (s : ObjectPool α) : Prop where
  mirrored : ∃ pool : RequestPool, s.Mirrors pool ∧ pool.Consistent
  zeroed : ∀ p, some p ∈ s.stack → s.memory p = zero
  made : s.inUse ≠ [] → s.freelist.isSome

theorem Kept.split {zero : α} (kept : Kept zero s) : ∃ free : List Nat,
    s.stack = free.map some ∧ s.live.Perm (s.inUse ++ free) ∧ s.live.Nodup ∧
      (s.inUse ++ free).Nodup := by
  obtain ⟨pool, ⟨list, live, inUse⟩, ⟨⟨free, content, accounted⟩, nodup, -⟩⟩ := kept.mirrored
  have all : s.live.Perm (s.inUse ++ free) := by rwa [live, inUse]
  rw [← live] at nodup
  exact ⟨free, by rw [stack, list, content], all, nodup, all.nodup_iff.mp nodup⟩

theorem Kept.accounted {zero : α} (kept : Kept zero s) :
    s.inUse.Nodup ∧ ∀ p, p ∈ s.live ↔ p ∈ s.inUse ∨ some p ∈ s.stack := by
  obtain ⟨free, content, accounted, -, nodup⟩ := kept.split
  refine ⟨nodup.of_append_left, fun p => ?_⟩
  rw [accounted.mem_iff, List.mem_append, content]
  simp

theorem Kept.apart {zero : α} (kept : Kept zero s) (free : some p ∈ s.stack) : p ∉ s.inUse := by
  obtain ⟨rest, content, -, -, nodup⟩ := kept.split
  rw [content] at free
  intro used
  exact (List.nodup_append.mp nodup).2.2 p used p (by simpa using free) rfl

theorem kept_unused (zero : α) (unused : s.Unused) : Kept zero s where
  mirrored := ⟨⟨s.list, [], 0, 0, []⟩, ⟨rfl, unused.live, unused.inUse⟩,
    ⟨[], unused.stack, .refl _⟩, List.nodup_nil, trivial⟩
  zeroed := by
    intro p here
    rw [unused.stack] at here
    cases here
  made := fun used => absurd unused.inUse used

theorem Kept.new {zero : α} (kept : Kept zero s) {malloc : Malloc α}
    (unused : ∀ answer ∈ malloc, answer.1 ∉ s.live) (new : objectNew malloc s = (some p, s')) :
    Kept zero s' ∧ p ∉ s.inUse ∧ s'.inUse = p :: s.inUse := by
  obtain ⟨pool, mirrors, consistent⟩ := kept.mirrored
  obtain ⟨pool', taken, mirrors'⟩ := objectNew_mirrors mirrors unused none new
  obtain ⟨consistent', out⟩ := RequestPool.rpcRequestNew_spec consistent taken
  have grows : s'.inUse = p :: s.inUse := by rw [mirrors'.inUse, out, mirrors.inUse]
  have once : (p :: s.inUse).Nodup := by
    rw [← grows, mirrors'.inUse]
    exact consistent'.sound.nodup
  refine ⟨⟨⟨pool', mirrors', consistent'⟩, fun q here => ?_, fun _ => ?_⟩,
    (List.nodup_cons.mp once).1, grows⟩
  · unfold objectNew at new
    rcases rpcArrayGet_content s.list with ⟨empty, get⟩ | ⟨rest, top, list, get, split, left⟩
    · rw [get] at new
      cases malloc with
      | none => cases new
      | some answer =>
          cases new
          have none_here : s.list.content = [] := empty
          simp only [stack, ObjectPool.list, Option.getD_some] at here
          rw [← ObjectPool.list, none_here] at here
          cases here
    · rw [get] at new
      cases top with
      | some q' =>
          cases new
          apply kept.zeroed q
          rw [stack, split, ← left]
          exact List.mem_append_left _ here
      | none =>
          obtain ⟨free, content, -⟩ := kept.split
          have member : none ∈ s.stack := by
            rw [stack, split]
            simp
          rw [content] at member
          simp at member
  · unfold objectNew at new
    split at new
    · cases new
      rfl
    · split at new <;> cases new
      rfl

theorem Kept.new_null {zero : α} (kept : Kept zero s) {malloc : Malloc α}
    (new : objectNew malloc s = (none, s')) : Kept zero s' := by
  have same : s'.list = s.list ∧ s'.memory = s.memory ∧ s'.live = s.live ∧ s'.inUse = s.inUse ∧
      s'.freelist.isSome := by
    obtain ⟨free, content, -⟩ := kept.split
    unfold objectNew at new
    rcases rpcArrayGet_content s.list with ⟨empty, get⟩ | ⟨rest, top, list, get, split, left⟩
    · rw [get] at new
      cases malloc <;> cases new
      exact ⟨rfl, rfl, rfl, rfl, rfl⟩
    · have member : top ∈ s.stack := by
        rw [stack, split]
        simp
      rw [content] at member
      obtain ⟨q, -, rfl⟩ := List.mem_map.mp member
      rw [get] at new
      cases new
  obtain ⟨list, memory, live, inUse, made⟩ := same
  obtain ⟨pool, mirrors, consistent⟩ := kept.mirrored
  refine ⟨⟨pool, ⟨list.trans mirrors.list, live.trans mirrors.live, inUse.trans mirrors.inUse⟩,
    consistent⟩, fun q here => ?_, fun _ => made⟩
  rw [stack, list] at here
  rw [memory]
  exact kept.zeroed q here

theorem Kept.write {zero : α} (kept : Kept zero s) (used : p ∈ s.inUse) (content : α) :
    Kept zero { s with memory := Function.update s.memory p content } where
  mirrored := by
    obtain ⟨pool, mirrors, consistent⟩ := kept.mirrored
    exact ⟨pool, ⟨mirrors.list, mirrors.live, mirrors.inUse⟩, consistent⟩
  zeroed := by
    intro q here
    have other : q ≠ p := fun same => kept.apart here (same ▸ used)
    exact (Function.update_of_ne other ..).trans (kept.zeroed q here)
  made := kept.made

theorem Kept.free {zero : α} (kept : Kept zero s) (used : p ∈ s.inUse) (more : Realloc) :
    ∃ s', objectFree zero more s p = some s' ∧ Kept zero s' ∧ s'.inUse = s.inUse.erase p ∧
      (∀ q, some q ∈ s'.stack → some q ∈ s.stack ∨ q = p) := by
  obtain ⟨pool, mirrors, consistent⟩ := kept.mirrored
  have made := kept.made (List.ne_nil_of_mem used)
  obtain ⟨s', freed, mirrors', memory, made'⟩ := objectFree_mirrors mirrors made zero more p
  have out : p ∈ pool.outstanding := mirrors.inUse ▸ used
  obtain ⟨consistent', left⟩ := RequestPool.rpcRequestFree_spec (a := answering none more) consistent out
  have stack : ∀ q, some q ∈ s'.stack → some q ∈ s.stack ∨ q = p := by
    obtain ⟨array, here⟩ := Option.isSome_iff_exists.mp made
    have same : s.stack = array.content := by rw [ObjectPool.stack, list, here, Option.getD_some]
    intro q member
    unfold objectFree at freed
    simp only [here] at freed
    split at freed
    · rename_i array' added
      cases freed
      have content := rpcArrayAdd_stack added
      simp only [ObjectPool.stack, list, Option.getD_some, content, List.mem_append,
        List.mem_singleton, Option.some.injEq] at member
      rwa [same]
    · rename_i array' refused
      cases freed
      have content := rpcArrayAdd_refused refused
      simp only [ObjectPool.stack, list, Option.getD_some, content] at member
      exact .inl (by rwa [same])
  refine ⟨s', freed, ⟨⟨_, mirrors', consistent'⟩, fun q here => ?_, fun _ => made'⟩, ?_, stack⟩
  · rw [memory]
    by_cases same : q = p
    · rw [same, Function.update_self]
    · rw [Function.update_of_ne same]
      exact kept.zeroed q ((stack q here).resolve_right same)
  · rw [mirrors'.inUse, left, mirrors.inUse]

theorem Kept.step {zero : α} {calls : ObjectCalls α} (new : calls.new = objectNew)
    (free : calls.free = objectFree zero) (s : ObjectPool α) (a : ObjectAction α) (s' : ObjectPool α)
    (step : objectStep calls s a = some s') (kept : Kept zero s) : Kept zero s' := by
  cases a with
  | new malloc =>
      simp only [objectStep, new] at step
      split at step
      · rename_i unused
        cases step
        cases answer : objectNew malloc s with
        | mk p s' =>
            cases p with
            | none => exact kept.new_null answer
            | some p => exact (kept.new unused answer).1
      · cases step
  | write p content =>
      simp only [objectStep] at step
      split at step
      · rename_i used
        cases step
        exact kept.write used content
      · cases step
  | free p more =>
      simp only [objectStep, free] at step
      split at step
      · rename_i used
        obtain ⟨s₁, freed, kept', -⟩ := kept.free used more
        cases step.symm.trans freed
        exact kept'
      · cases step

theorem Kept.neverShared {zero : α} {calls : ObjectCalls α} (new : calls.new = objectNew)
    (free : calls.free = objectFree zero) (kept : Kept zero s) : NeverShared calls zero s where
  new := by
    intro malloc p s' unused answer
    rw [new] at answer
    exact (kept.new unused answer).2
  list := by
    obtain ⟨rest, content, -, -, nodup⟩ := kept.split
    constructor
    · rw [content]
      exact nodup.of_append_right.map (Option.some_injective _)
    · intro q here
      obtain ⟨p, -, rfl⟩ := List.mem_map.mp (content ▸ here)
      exact ⟨p, rfl, kept.zeroed p here, kept.apart here⟩
  freed := by
    intro p used more
    obtain ⟨s', freed, kept', inUse, -⟩ := kept.free used more
    have out : p ∉ s'.inUse := by
      rw [inUse]
      exact kept.accounted.1.not_mem_erase
    have owner := kept'.accounted.2 p
    refine ⟨s', by rw [free, freed], out, ?_⟩
    by_cases here : some p ∈ s'.stack
    · exact .inl ⟨here, owner.mpr (.inr here)⟩
    · exact .inr ⟨here, fun live => (owner.mp live).elim out here⟩
  accounted := kept.accounted

end ObjectPool

/-- The request and the response objects, whatever the calls and the answers of the allocator. -/
theorem objects_neverShared :
    (∀ (start : ObjectPool RpcRequest) (run : List (ObjectAction RpcRequest)) (s : ObjectPool RpcRequest),
      start.Unused → exec (objectStep requestCalls) start run = some s →
        NeverShared requestCalls RpcRequest.zeroed s) ∧
    ∀ (start : ObjectPool RpcResponse) (run : List (ObjectAction RpcResponse))
      (s : ObjectPool RpcResponse),
      start.Unused → exec (objectStep responseCalls) start run = some s →
        NeverShared responseCalls RpcResponse.zeroed s := by
  constructor
  · intro start run s unused reached
    have new : requestCalls.new = ObjectPool.objectNew := rfl
    have free : requestCalls.free = ObjectPool.objectFree .zeroed := rfl
    have kept := exec_invariant (ObjectPool.Kept.step new free) reached (ObjectPool.kept_unused _ unused)
    exact kept.neverShared new free
  · intro start run s unused reached
    have new : responseCalls.new = ObjectPool.objectNew := rfl
    have free : responseCalls.free = ObjectPool.objectFree .zeroed := rfl
    have kept := exec_invariant (ObjectPool.Kept.step new free) reached (ObjectPool.kept_unused _ unused)
    exact kept.neverShared new free

/-- A request and a response object that are written to and freed, and the first one taken again. -/
theorem objects_neverShared_recycled :
    let reqs : ObjectPool RpcRequest := ⟨none, fun _ => .zeroed, [], []⟩
    let rsps : ObjectPool RpcResponse := ⟨none, fun _ => .zeroed, [], []⟩
    let reqRun : List (ObjectAction RpcRequest) := [.new (some (5, .zeroed)),
      .write 5 { RpcRequest.zeroed with seq := 9 }, .free 5 none, .new none]
    let rspRun : List (ObjectAction RpcResponse) := [.new (some (8, .zeroed)), .free 8 none]
    (∃ s, exec (objectStep requestCalls) reqs reqRun = some s ∧ s.inUse = [5] ∧
      NeverShared requestCalls RpcRequest.zeroed s) ∧
    ∃ s, exec (objectStep responseCalls) rsps rspRun = some s ∧ s.stack = [some 8] ∧
      NeverShared responseCalls RpcResponse.zeroed s := by
  intro reqs rsps reqRun rspRun
  have first : exec (objectStep requestCalls) reqs reqRun = some _ := rfl
  have second : exec (objectStep responseCalls) rsps rspRun = some _ := rfl
  exact ⟨⟨_, first, rfl, objects_neverShared.1 reqs reqRun _ ⟨rfl, rfl, rfl⟩ first⟩,
    ⟨_, second, rfl, objects_neverShared.2 rsps rspRun _ ⟨rfl, rfl, rfl⟩ second⟩⟩

end OpenRpc
