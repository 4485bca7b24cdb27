import OpenRpc.Queue

/-! # Who has which item

Every item is linked in one queue, or is on the free list, or is in the hands of one thread, or is
memory not yet allocated. A pop between `rpc_queue_item_free` and its read of `item->data` has
nothing in its hands. This holds in every run.
-/

namespace OpenRpc

open Transition LinkedList

inductive Owner where
  | outside
  | free
  | queue (q : Nat)
  | thread (t : Nat)
  deriving DecidableEq

/-- What a thread at this place has in its hands, and what it has written there. -/
def Pc.Keeps (pc : Pc) (t : Nat) (heap : Nat → Item) (owner : Nat → Owner) : Prop :=
  match pc with
  | .splice _ _ block =>
      (∀ a, block ≤ a → a < block + freeItemLen → owner a = .thread t) ∧
      ∀ a, block < a → a < block + (freeItemLen - 1) → (heap a).next = some (a + 1)
  | .fill _ _ item | .giveBack _ _ item => owner item = .thread t
  | .link _ data item => owner item = .thread t ∧ heap item = ⟨data, none⟩
  | _ => True

structure Custody (s : QueueState) (owner : Nat → Owner) (free : List Nat)
    (linked : Nat → List Nat) : Prop where
  freeList : Chain s.next s.freeItemList free
  queues : ∀ q, Linked s.next (s.queues q).head (s.queues q).tail (linked q)
  of_free : ∀ a ∈ free, owner a = .free
  of_queue : ∀ q, ∀ a ∈ linked q, owner a = .queue q
  threads : ∀ t, (s.threads t).Keeps t s.heap owner
  allocated : ∀ a, owner a ≠ .outside → s.Allocated a

theorem custody_initial (heap : Nat → Item) :
    Custody (.initial heap) (fun _ => .outside) [] (fun _ => []) where
  freeList := rfl
  queues := fun _ => ⟨rfl, rfl⟩
  of_free := by simp
  of_queue := by simp
  threads := fun _ => trivial
  allocated := fun _ outside => absurd rfl outside

theorem setNext_other {heap : Nat → Item} {a b : Nat} {p : Option Nat} (other : b ≠ a) :
    setNext heap a p b = heap b :=
  Function.update_of_ne other ..

theorem setNext_self (heap : Nat → Item) (a : Nat) (p : Option Nat) :
    (setNext heap a p a).next = p := by
  rw [setNext, Function.update_self]

theorem setNext_data (heap : Nat → Item) (a b : Nat) (p : Option Nat) :
    (setNext heap a p b).data = (heap b).data := by
  by_cases same : b = a
  · rw [same, setNext, Function.update_self]
  · rw [setNext_other same]

/-- The loop of `rpc_queue_item_new`: cells 1 to 30 of the block are chained, and nothing else is
    written. -/
theorem chainBlock_cell (heap : Nat → Item) (block a : Nat) :
    chainBlock heap block a =
      if block < a ∧ a < block + (freeItemLen - 1) then { heap a with next := some (a + 1) }
      else heap a := by
  have cells : ∀ n, (List.range' 2 n).foldl
      (fun heap i => setNext heap (block + (i - 1)) (some (block + i))) heap a =
      if block < a ∧ a < block + 1 + n then { heap a with next := some (a + 1) } else heap a := by
    intro n
    induction n with
    | zero =>
        rw [if_neg (by omega)]
        rfl
    | succ n ih =>
        rw [List.range'_1_concat, List.foldl_append, List.foldl_cons, List.foldl_nil]
        by_cases here : a = block + (2 + n - 1)
        · rw [here, setNext, Function.update_self, ← here, ih, if_neg (by omega), if_pos (by omega)]
          simp only [Item.mk.injEq, Option.some.injEq, true_and]
          omega
        · rw [setNext_other here, ih]
          congr 1
          exact propext (by omega)
  exact cells (freeItemLen - 2)

section Frame

variable {s : QueueState} {t : Nat} {pc : Pc} {heap' : Nat → Item} {owner owner' : Nat → Owner}

theorem keeps_frame {heap : Nat → Item} (keeps : pc.Keeps t heap owner)
    (same : ∀ a, owner a = .thread t → owner' a = .thread t ∧ heap' a = heap a) :
    pc.Keeps t heap' owner' := by
  cases pc with
  | idle | look | take | alloc | read => trivial
  | splice q data block =>
      obtain ⟨own, chained⟩ := keeps
      refine ⟨fun a above below => (same a (own a above below)).1, fun a above below => ?_⟩
      rw [(same a (own a (by omega) (by omega))).2]
      exact chained a above below
  | fill q data item => exact (same item keeps).1
  | giveBack q k item => exact (same item keeps).1
  | link q data item =>
      obtain ⟨own, filled⟩ := keeps
      exact ⟨(same item own).1, (same item own).2.trans filled⟩

theorem threads_frame (threads : ∀ v, (s.threads v).Keeps v s.heap owner)
    (own : pc.Keeps t heap' owner')
    (others : ∀ v a, v ≠ t → owner a = .thread v → owner' a = .thread v ∧ heap' a = s.heap a) (v : Nat) :
    (Function.update s.threads t pc v).Keeps v heap' owner' := by
  by_cases here : v = t
  · subst here
    rwa [Function.update_self]
  · rw [Function.update_of_ne here]
    exact keeps_frame (threads v) fun a => others v a here

end Frame

section Steps

variable {s : QueueState} {owner : Nat → Owner} {free : List Nat} {linked : Nat → List Nat}
  {t q k data item block : Nat}

theorem custody_setThread (custody : Custody s owner free linked) {pc : Pc}
    (keeps : pc.Keeps t s.heap owner) : Custody (s.setThread t pc) owner free linked :=
  { custody with
    threads := threads_frame custody.threads keeps fun _ _ _ own => ⟨own, rfl⟩ }

theorem custody_look (custody : Custody s owner free linked) :
    Custody (rpcQueueItemNewLook s t q data) owner free linked := by
  unfold rpcQueueItemNewLook
  split
  · exact custody_setThread custody trivial
  · exact custody_setThread custody trivial

theorem custody_take (custody : Custody s owner free linked) :
    ∃ owner' free', Custody (rpcQueueItemNewTake s t q data) owner' free' linked := by
  unfold rpcQueueItemNewTake
  split
  · exact ⟨owner, free, custody_setThread custody trivial⟩
  · rename_i item first
    have chain := custody.freeList
    have nodup := chain_nodup chain
    cases free with
    | nil => cases first.symm.trans chain
    | cons a rest =>
        cases first.symm.trans chain.1
        have was_free := custody.of_free item List.mem_cons_self
        have others : ∀ a, owner a ≠ .free → Function.update owner item (.thread t) a = owner a := by
          intro a other
          refine Function.update_of_ne (fun same => other ?_) ..
          rw [same, was_free]
        refine ⟨Function.update owner item (.thread t), rest, ?_⟩
        exact {
          freeList := chain.2
          queues := custody.queues
          of_free := by
            intro a member
            have other : a ≠ item := fun same => (List.nodup_cons.mp nodup).1 (same ▸ member)
            rw [Function.update_of_ne other]
            exact custody.of_free a (List.mem_cons_of_mem item member)
          of_queue := by
            intro q a member
            have own := custody.of_queue q a member
            rw [others a (by simp [own]), own]
          threads := by
            refine threads_frame custody.threads (Function.update_self ..) fun v a _ own => ?_
            exact ⟨by rw [others a (by simp [own]), own], rfl⟩
          allocated := by
            intro a inside
            by_cases same : a = item
            · exact custody.allocated a (by simp [same, was_free])
            · rw [Function.update_of_ne same] at inside
              exact custody.allocated a inside }

theorem outside_of_fresh (custody : Custody s owner free linked) (fresh : s.Fresh block) {a : Nat}
    (above : block ≤ a) (below : a < block + freeItemLen) : owner a = .outside := by
  by_contra inside
  obtain ⟨b, member, above', below'⟩ := custody.allocated a inside
  rcases fresh b member with before | after
  · omega
  · omega

theorem custody_malloc (custody : Custody s owner free linked) (fresh : s.Fresh block) :
    ∃ owner', Custody (rpcQueueItemNewBlock s t q data block) owner' free linked := by
  let owner' : Nat → Owner := fun a =>
    if block ≤ a ∧ a < block + freeItemLen then .thread t else owner a
  -- whatever has an owner lies outside the block
  have same : ∀ a, owner a ≠ .outside → owner' a = owner a ∧ chainBlock s.heap block a = s.heap a := by
    intro a inside
    have beyond : ¬ (block ≤ a ∧ a < block + freeItemLen) := fun within =>
      inside (outside_of_fresh custody fresh within.1 within.2)
    refine ⟨if_neg beyond, ?_⟩
    rw [chainBlock_cell, if_neg]
    rintro ⟨above, below⟩
    simp only [freeItemLen] at beyond below
    omega
  refine ⟨owner', ?_⟩
  exact {
    freeList := by
      refine chain_congr (fun a member => ?_) custody.freeList
      have own := custody.of_free a member
      exact congrArg Item.next (same a (by simp [own])).2
    queues := by
      intro q
      refine linked_congr (fun a member => ?_) (custody.queues q)
      have own := custody.of_queue q a member
      exact congrArg Item.next (same a (by simp [own])).2
    of_free := by
      intro a member
      have own := custody.of_free a member
      rw [(same a (by simp [own])).1, own]
    of_queue := by
      intro q a member
      have own := custody.of_queue q a member
      rw [(same a (by simp [own])).1, own]
    threads := by
      refine threads_frame custody.threads ⟨fun a above below => if_pos ⟨above, below⟩, ?_⟩ ?_
      · intro a above below
        exact congrArg Item.next ((chainBlock_cell ..).trans (if_pos ⟨above, below⟩))
      · intro v a _ own
        obtain ⟨owner_same, cell_same⟩ := same a (by simp [own])
        exact ⟨owner_same.trans own, cell_same⟩
    allocated := by
      intro a inside
      by_cases here : block ≤ a ∧ a < block + freeItemLen
      · exact ⟨block, List.mem_cons_self, here⟩
      · rw [show owner' a = owner a from if_neg here] at inside
        obtain ⟨b, member, bounds⟩ := custody.allocated a inside
        exact ⟨b, List.mem_cons_of_mem block member, bounds⟩ }

theorem custody_splice (custody : Custody s owner free linked)
    (here : s.threads t = .splice q data block) :
    ∃ owner' free', Custody (rpcQueueItemNewSplice s t q data block) owner' free' linked := by
  have keeps := custody.threads t
  rw [here] at keeps
  obtain ⟨own, chained⟩ := keeps
  have last_own := own (block + (freeItemLen - 1)) (by omega) (by simp [freeItemLen])
  have first_own := own block (Nat.le_refl block) (by simp [freeItemLen])
  let owner' : Nat → Owner := fun a =>
    if block < a ∧ a < block + freeItemLen then .free else owner a
  have same : ∀ a, owner a ≠ .thread t → owner' a = owner a ∧
      setNext s.heap (block + (freeItemLen - 1)) s.freeItemList a = s.heap a := by
    intro a other
    refine ⟨if_neg fun inside => other (own a (by omega) inside.2), ?_⟩
    exact setNext_other fun last => other (last ▸ last_own)
  refine ⟨owner', List.range' (block + 1) (freeItemLen - 2 + 1) ++ free, ?_⟩
  exact {
    freeList := by
      refine chain_block (freeItemLen - 2) (fun a above below => ?_) ?_
        (chain_congr (fun a member => ?_) custody.freeList)
      · have cell : setNext s.heap (block + (freeItemLen - 1)) s.freeItemList a = s.heap a :=
          setNext_other (by simp only [freeItemLen] at *; omega)
        exact (congrArg Item.next cell).trans
          (chained a (by omega) (by simp only [freeItemLen] at *; omega))
      · exact setNext_self ..
      · have freed := custody.of_free a member
        exact congrArg Item.next (same a (by simp [freed])).2
    queues := by
      intro q
      refine linked_congr (fun a member => ?_) (custody.queues q)
      have queued := custody.of_queue q a member
      exact congrArg Item.next (same a (by simp [queued])).2
    of_free := by
      intro a member
      rcases List.mem_append.mp member with new | old
      · rw [List.mem_range'_1] at new
        exact if_pos (by simp only [freeItemLen] at *; omega)
      · have freed := custody.of_free a old
        rw [(same a (by simp [freed])).1, freed]
    of_queue := by
      intro q a member
      have queued := custody.of_queue q a member
      rw [(same a (by simp [queued])).1, queued]
    threads := by
      refine threads_frame custody.threads ?_ fun v a other owned => ?_
      · exact (if_neg (by omega)).trans first_own
      · obtain ⟨owner_same, cell_same⟩ := same a (by rw [owned]; simpa using other)
        exact ⟨owner_same.trans owned, cell_same⟩
    allocated := by
      intro a inside
      apply custody.allocated a
      by_cases new : block < a ∧ a < block + freeItemLen
      · rw [own a (by omega) new.2]
        simp
      · rwa [show owner' a = owner a from if_neg new] at inside }

theorem custody_fill (custody : Custody s owner free linked)
    (here : s.threads t = .fill q data item) :
    Custody (rpcQueuePushFill s t q data item) owner free linked := by
  have own := custody.threads t
  rw [here] at own
  have same : ∀ a, owner a ≠ .thread t →
      Function.update s.heap item ⟨data, none⟩ a = s.heap a := by
    intro a other
    exact Function.update_of_ne (fun filled => other (by rw [filled]; exact own)) ..
  exact { custody with
    freeList := by
      refine chain_congr (fun a member => ?_) custody.freeList
      have freed := custody.of_free a member
      exact congrArg Item.next (same a (by simp [freed]))
    queues := by
      intro q
      refine linked_congr (fun a member => ?_) (custody.queues q)
      have queued := custody.of_queue q a member
      exact congrArg Item.next (same a (by simp [queued]))
    threads := by
      refine threads_frame custody.threads ⟨own, Function.update_self ..⟩ fun v a other owned => ?_
      exact ⟨owned, same a (by rw [owned]; simpa using other)⟩ }

theorem queues_frame (custody : Custody s owner free linked) {heap' : Nat → Item} {queue' : RpcQueue}
    {cells : List Nat} (here : Linked (fun a => (heap' a).next) queue'.head queue'.tail cells)
    (same : ∀ a, owner a ≠ .queue q → heap' a = s.heap a) (v : Nat) :
    Linked (fun a => (heap' a).next) (Function.update s.queues q queue' v).head
      (Function.update s.queues q queue' v).tail (Function.update linked q cells v) := by
  by_cases this : v = q
  · subst this
    rwa [Function.update_self, Function.update_self]
  · rw [Function.update_of_ne this, Function.update_of_ne this]
    refine linked_congr (fun a member => ?_) (custody.queues v)
    have queued := custody.of_queue v a member
    exact congrArg Item.next (same a (by rw [queued]; simpa using this))

theorem custody_linked (custody : Custody s owner free linked) (own : owner item = .thread t)
    {heap' : Nat → Item} (queue' : RpcQueue) {ledger' : Nat → Ledger}
    (here : Linked (fun a => (heap' a).next) queue'.head queue'.tail (linked q ++ [item]))
    (same : ∀ a, owner a ≠ .queue q → heap' a = s.heap a) :
    Custody { s.setThread t .idle with
              heap := heap', queues := Function.update s.queues q queue', ledger := ledger' }
      (Function.update owner item (.queue q)) free
      (Function.update linked q (linked q ++ [item])) := by
  have others : ∀ a, owner a ≠ .thread t →
      Function.update owner item (.queue q) a = owner a := by
    intro a other
    exact Function.update_of_ne (fun mine => other (by rw [mine, own])) ..
  exact {
    freeList := by
      refine chain_congr (fun a member => ?_) custody.freeList
      have freed := custody.of_free a member
      exact congrArg Item.next (same a (by simp [freed]))
    queues := queues_frame custody here same
    of_free := by
      intro a member
      have freed := custody.of_free a member
      rw [others a (by simp [freed]), freed]
    of_queue := by
      intro v a member
      by_cases this : v = q
      · subst this
        rw [Function.update_self] at member
        rcases List.mem_append.mp member with old | new
        · have queued := custody.of_queue v a old
          rw [others a (by simp [queued]), queued]
        · rw [List.mem_singleton.mp new, Function.update_self]
      · rw [Function.update_of_ne this] at member
        have queued := custody.of_queue v a member
        rw [others a (by simp [queued]), queued]
    threads := by
      refine threads_frame custody.threads trivial fun v a other owned => ⟨?_, ?_⟩
      · rw [others a (by rw [owned]; simpa using other), owned]
      · exact same a (by simp [owned])
    allocated := by
      intro a inside
      by_cases mine : a = item
      · exact custody.allocated a (by simp [mine, own])
      · rw [Function.update_of_ne mine] at inside
        exact custody.allocated a inside }

theorem custody_link (custody : Custody s owner free linked)
    (here : s.threads t = .link q data item) :
    ∃ owner', Custody (rpcQueuePushLink s t q data item) owner' free
      (Function.update linked q (linked q ++ [item])) := by
  have keeps := custody.threads t
  rw [here] at keeps
  obtain ⟨own, filled⟩ := keeps
  have stop : s.next item = none := by
    rw [QueueState.next, filled]
  have queue := custody.queues q
  refine ⟨Function.update owner item (.queue q), ?_⟩
  unfold rpcQueuePushLink
  cases tail : (s.queues q).tail with
  | none =>
      rw [tail] at queue
      obtain ⟨empty, single⟩ : linked q = [] ∧ Linked s.next (some item) (some item) [item] :=
        linked_first stop queue
      simp only [QueueState.setThread, tail]
      refine custody_linked custody own ⟨some item, some item⟩ ?_ fun _ _ => rfl
      rw [empty]
      exact single
  | some last =>
      rw [tail] at queue
      have queued : owner last = .queue q :=
        custody.of_queue q last (List.mem_of_getLast? queue.last.symm)
      have apart : item ≠ last := by
        intro same
        rw [same, queued] at own
        cases own
      simp only [QueueState.setThread, tail]
      refine custody_linked custody own ⟨(s.queues q).head, some item⟩ ?_ fun a other =>
        setNext_other fun same => other (by rw [same, queued])
      refine linked_append (setNext_self ..) ?_ (fun a _ other => ?_) queue
      · exact (congrArg Item.next (setNext_other apart)).trans stop
      · exact congrArg Item.next (setNext_other other)

theorem custody_unlink (custody : Custody s owner free linked)
    (head : (s.queues q).head = some item) :
    ∃ owner' rest, linked q = item :: rest ∧
      Custody (rpcQueuePopUnlink s t q item) owner' free (Function.update linked q rest) := by
  have queue := custody.queues q
  rw [head] at queue
  obtain ⟨rest, cells, popped⟩ := linked_pop queue
  have queued : owner item = .queue q := custody.of_queue q item (by rw [cells]; simp)
  have nodup := chain_nodup queue.chain
  rw [cells] at nodup
  have others : ∀ a, owner a ≠ .queue q →
      Function.update owner item (.thread t) a = owner a := by
    intro a other
    exact Function.update_of_ne (fun same => other (by rw [same, queued])) ..
  refine ⟨Function.update owner item (.thread t), rest, cells, ?_⟩
  exact {
    freeList := custody.freeList
    queues := by
      apply queues_frame custody _ fun _ _ => rfl
      cases next : s.next item with
      | none =>
          rw [next] at popped
          exact popped
      | some p =>
          rw [next] at popped
          exact popped
    of_free := by
      intro a member
      have freed := custody.of_free a member
      rw [others a (by simp [freed]), freed]
    of_queue := by
      intro v a member
      by_cases this : v = q
      · subst this
        rw [Function.update_self] at member
        have other : a ≠ item := fun same => (List.nodup_cons.mp nodup).1 (same ▸ member)
        rw [Function.update_of_ne other]
        exact custody.of_queue v a (by rw [cells]; exact List.mem_cons_of_mem item member)
      · rw [Function.update_of_ne this] at member
        have own := custody.of_queue v a member
        rw [others a (by rw [own]; simpa using this), own]
    threads := by
      refine threads_frame custody.threads (Function.update_self ..) fun v a _ own => ⟨?_, rfl⟩
      rw [others a (by simp [own]), own]
    allocated := by
      intro a inside
      by_cases same : a = item
      · exact custody.allocated a (by simp [same, queued])
      · rw [Function.update_of_ne same] at inside
        exact custody.allocated a inside }

theorem custody_giveBack (custody : Custody s owner free linked)
    (here : s.threads t = .giveBack q k item) :
    ∃ owner' free', Custody (rpcQueueItemFree s t q k item) owner' free' linked := by
  have own := custody.threads t
  rw [here] at own
  have others : ∀ a, owner a ≠ .thread t →
      Function.update owner item .free a = owner a ∧
        ∀ p, setNext s.heap item p a = s.heap a := by
    intro a other
    have apart : a ≠ item := fun same => other (by rw [same]; exact own)
    exact ⟨Function.update_of_ne apart .., fun p => setNext_other apart⟩
  refine ⟨Function.update owner item .free, item :: free, ?_⟩
  exact {
    freeList := by
      refine chain_cons ?_ (fun a member => ?_) custody.freeList
      · apply (setNext_self ..).trans
        cases s.freeItemList with
        | none => rfl
        | some p => rfl
      · have freed := custody.of_free a member
        exact congrArg Item.next ((others a (by simp [freed])).2 _)
    queues := by
      intro v
      refine linked_congr (fun a member => ?_) (custody.queues v)
      have queued := custody.of_queue v a member
      exact congrArg Item.next ((others a (by simp [queued])).2 _)
    of_free := by
      intro a member
      rcases List.mem_cons.mp member with rfl | old
      · exact Function.update_self ..
      · have freed := custody.of_free a old
        rw [(others a (by simp [freed])).1, freed]
    of_queue := by
      intro v a member
      have queued := custody.of_queue v a member
      rw [(others a (by simp [queued])).1, queued]
    threads := by
      refine threads_frame custody.threads trivial fun v a other owned => ?_
      obtain ⟨owner_same, cell_same⟩ := others a (by rw [owned]; simpa using other)
      exact ⟨owner_same.trans owned, cell_same _⟩
    allocated := by
      intro a inside
      by_cases same : a = item
      · exact custody.allocated a (by simp [same, show owner item = .thread t from own])
      · rw [Function.update_of_ne same] at inside
        exact custody.allocated a inside }

theorem custody_read (custody : Custody s owner free linked) :
    Custody (rpcQueuePopRead s t q k item) owner free linked :=
  { custody with threads := threads_frame custody.threads trivial fun _ _ _ own => ⟨own, rfl⟩ }

end Steps

end OpenRpc
