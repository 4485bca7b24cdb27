import OpenRpc.QueueCustody

/-! # Hand-off through the queues

Each pointer linked in a queue is unlinked by one pop, and that pop returns it, as long as no push
writes another pointer to an item which a pop has given back to the free list but still has to read.
-/

namespace OpenRpc

open Transition LinkedList

/-- The pop under way in a thread: its queue, its number there, and its item. -/
def Pc.popping : Pc → Option (Nat × Nat × Nat)
  | .giveBack q k item | .read q k item => some (q, k, item)
  | _ => none

def QueueState.Popping (s : QueueState) (t q k : Nat) : Prop :=
  ∃ item, (s.threads t).popping = some (q, k, item)

def Ledger.answered (ledger : Ledger) : List Nat := ledger.returned.map Prod.fst

/-- Of the pointers pushed on the queue, those behind the first `popped` are linked in it, in order;
    each of the first has either been returned, or is held by one pop under way; and what a pop has
    returned, or would return now, is the pointer that it unlinked. -/
structure QueueState.ExactlyOnce (s : QueueState) (q : Nat) : Prop where
  linked : ∃ cells, Chain s.next (s.queues q).head cells ∧
    cells.map s.data = (s.ledger q).pushed.drop (s.ledger q).popped
  once : (s.ledger q).answered.Nodup
  unlinked : ∀ k < (s.ledger q).popped,
    (k ∈ (s.ledger q).answered ∧ ∀ t, ¬ s.Popping t q k) ∨
    (k ∉ (s.ledger q).answered ∧ ∃! t, s.Popping t q k)
  returned : ∀ k v, (k, v) ∈ (s.ledger q).returned →
    k < (s.ledger q).popped ∧ (s.ledger q).pushed[k]? = some v
  popping : ∀ t k item, (s.threads t).popping = some (q, k, item) →
    (s.ledger q).pushed[k]? = some (s.data item)

/-- A push that writes its pointer to an item changes nothing for a pop that has still to read it. -/
def LeavesUnread (s : QueueState) (a : QueueAction) : Prop :=
  ∀ t q data item, a = .go t → s.threads t = .fill q data item →
    ∀ v p k, s.threads v = .read p k item → s.data item = data

/-- Who answers for which unlinked pointer. -/
structure Accounts (s : QueueState) (q : Nat) : Prop where
  once : (s.ledger q).answered.Nodup
  below : ∀ k ∈ (s.ledger q).answered, k < (s.ledger q).popped
  held : ∀ t k, s.Popping t q k → k < (s.ledger q).popped ∧ k ∉ (s.ledger q).answered
  alone : ∀ t v k, s.Popping t q k → s.Popping v q k → t = v
  all : ∀ k < (s.ledger q).popped, k ∉ (s.ledger q).answered → ∃ t, s.Popping t q k

/-- What the items of the queues and of the pops under way hold. -/
structure Contents (s : QueueState) (linked : Nat → List Nat) : Prop where
  bound : ∀ q, (s.ledger q).popped ≤ (s.ledger q).pushed.length
  queued : ∀ q, (linked q).map s.data = (s.ledger q).pushed.drop (s.ledger q).popped
  popping : ∀ t q k item, (s.threads t).popping = some (q, k, item) →
    (s.ledger q).pushed[k]? = some (s.data item)
  returned : ∀ q k v, (k, v) ∈ (s.ledger q).returned → (s.ledger q).pushed[k]? = some v

section Steps

variable {s s' : QueueState} {t q k data item : Nat} {owner : Nat → Owner} {free : List Nat}
  {linked : Nat → List Nat}

theorem popping_same {pc : Pc} (same : pc.popping = (s.threads t).popping) (v : Nat) :
    (Function.update s.threads t pc v).popping = (s.threads v).popping := by
  by_cases here : v = t
  · rw [here, Function.update_self, same]
  · rw [Function.update_of_ne here]

theorem popping_unlink (here : s.threads t = .idle) {v p j : Nat} :
    (rpcQueuePopUnlink s t q item).Popping v p j ↔
      s.Popping v p j ∨ v = t ∧ p = q ∧ j = (s.ledger q).popped := by
  unfold QueueState.Popping
  by_cases this : v = t
  · subst this
    simp only [rpcQueuePopUnlink, QueueState.setThread, Function.update_self, Pc.popping, here,
      Option.some.injEq, Prod.mk.injEq, reduceCtorEq, exists_false, false_or, true_and]
    constructor
    · rintro ⟨_, rfl, rfl, -⟩
      exact ⟨rfl, rfl⟩
    · rintro ⟨rfl, rfl⟩
      exact ⟨item, rfl, rfl, rfl⟩
  · simp only [rpcQueuePopUnlink, QueueState.setThread, Function.update_of_ne this, this, false_and,
      or_false]

theorem popping_read {v p j : Nat} :
    (rpcQueuePopRead s t q k item).Popping v p j ↔ s.Popping v p j ∧ v ≠ t := by
  unfold QueueState.Popping
  by_cases this : v = t
  · subst this
    simp [rpcQueuePopRead, QueueState.setThread, Pc.popping]
  · simp [rpcQueuePopRead, QueueState.setThread, this]

theorem accounts_quiet (popping : ∀ v, (s'.threads v).popping = (s.threads v).popping)
    (popped : (s'.ledger q).popped = (s.ledger q).popped)
    (returned : (s'.ledger q).returned = (s.ledger q).returned) (accounts : Accounts s q) :
    Accounts s' q := by
  have same : ∀ v k, s'.Popping v q k ↔ s.Popping v q k := by
    intro v k
    unfold QueueState.Popping
    rw [popping v]
  have answered : (s'.ledger q).answered = (s.ledger q).answered := by
    rw [Ledger.answered, returned, ← Ledger.answered]
  obtain ⟨once, below, held, alone, all⟩ := accounts
  constructor
  · rwa [answered]
  · rwa [answered, popped]
  · simpa only [same, answered, popped] using held
  · simpa only [same] using alone
  · simpa only [same, answered, popped] using all

theorem accounts_unlink (here : s.threads t = .idle) {v : Nat} (accounts : Accounts s v) :
    Accounts (rpcQueuePopUnlink s t q item) v := by
  obtain ⟨once, below, held, alone, all⟩ := accounts
  by_cases this : v = q
  · subst this
    have popped : ((rpcQueuePopUnlink s t v item).ledger v).popped = (s.ledger v).popped + 1 := by
      simp [rpcQueuePopUnlink]
    have answered : ((rpcQueuePopUnlink s t v item).ledger v).answered =
        (s.ledger v).answered := by
      simp [rpcQueuePopUnlink, Ledger.answered]
    constructor
    · rwa [answered]
    · intro k member
      rw [answered] at member
      rw [popped]
      exact Nat.lt_succ_of_lt (below k member)
    · intro w k holds
      rw [answered, popped]
      rcases (popping_unlink here).mp holds with old | ⟨-, -, rfl⟩
      · exact ⟨Nat.lt_succ_of_lt (held w k old).1, (held w k old).2⟩
      · exact ⟨Nat.lt_succ_self _, fun member => (below _ member).false⟩
    · intro w u k first second
      rcases (popping_unlink here).mp first with old | ⟨rfl, -, rfl⟩
      · rcases (popping_unlink here).mp second with old' | ⟨-, -, rfl⟩
        · exact alone w u k old old'
        · exact absurd (held w _ old).1 (Nat.lt_irrefl _)
      · rcases (popping_unlink here).mp second with old' | ⟨rfl, -, -⟩
        · exact absurd (held u _ old').1 (Nat.lt_irrefl _)
        · rfl
    · intro k less unanswered
      rw [answered] at unanswered
      rw [popped] at less
      rcases Nat.lt_succ_iff_lt_or_eq.mp less with old | rfl
      · obtain ⟨w, holds⟩ := all k old unanswered
        exact ⟨w, (popping_unlink here).mpr (.inl holds)⟩
      · exact ⟨t, (popping_unlink here).mpr (.inr ⟨rfl, rfl, rfl⟩)⟩
  · have ledger : (rpcQueuePopUnlink s t q item).ledger v = s.ledger v :=
      Function.update_of_ne this ..
    have same : ∀ w k, (rpcQueuePopUnlink s t q item).Popping w v k ↔ s.Popping w v k := by
      intro w k
      rw [popping_unlink here]
      simp [this]
    constructor
    · rwa [ledger]
    · rwa [ledger]
    · simpa only [same, ledger] using held
    · simpa only [same] using alone
    · simpa only [same, ledger] using all

theorem accounts_read (here : s.threads t = .read q k item) {v : Nat} (accounts : Accounts s v) :
    Accounts (rpcQueuePopRead s t q k item) v := by
  obtain ⟨once, below, held, alone, all⟩ := accounts
  by_cases this : v = q
  · subst this
    have mine : s.Popping t v k := ⟨item, by rw [here]; rfl⟩
    have popped : ((rpcQueuePopRead s t v k item).ledger v).popped = (s.ledger v).popped := by
      simp [rpcQueuePopRead]
    have answered : ((rpcQueuePopRead s t v k item).ledger v).answered =
        (s.ledger v).answered ++ [k] := by
      simp [rpcQueuePopRead, Ledger.answered]
    constructor
    · rw [answered, List.nodup_append_comm]
      exact List.nodup_cons.mpr ⟨(held t k mine).2, once⟩
    · intro j member
      rw [answered, List.mem_append, List.mem_singleton] at member
      rw [popped]
      rcases member with old | rfl
      · exact below j old
      · exact (held t j mine).1
    · intro w j holds
      obtain ⟨old, other⟩ := popping_read.mp holds
      rw [answered, popped, List.mem_append, List.mem_singleton]
      refine ⟨(held w j old).1, ?_⟩
      rintro (member | rfl)
      · exact (held w j old).2 member
      · exact other (alone w t j old mine)
    · intro w u j first second
      exact alone w u j (popping_read.mp first).1 (popping_read.mp second).1
    · intro j less unanswered
      rw [answered, List.mem_append, List.mem_singleton, not_or] at unanswered
      rw [popped] at less
      obtain ⟨w, ⟨item', holds⟩⟩ := all j less unanswered.1
      refine ⟨w, popping_read.mpr ⟨⟨item', holds⟩, ?_⟩⟩
      rintro rfl
      rw [here] at holds
      cases holds
      exact unanswered.2 rfl
  · have ledger : (rpcQueuePopRead s t q k item).ledger v = s.ledger v :=
      Function.update_of_ne this ..
    have same : ∀ w j, (rpcQueuePopRead s t q k item).Popping w v j ↔ s.Popping w v j := by
      intro w j
      rw [popping_read]
      refine ⟨And.left, fun holds => ⟨holds, ?_⟩⟩
      rintro rfl
      obtain ⟨item', holds⟩ := holds
      rw [here] at holds
      cases holds
      exact this rfl
    constructor
    · rwa [ledger]
    · rwa [ledger]
    · simpa only [same, ledger] using held
    · simpa only [same] using alone
    · simpa only [same, ledger] using all

theorem step_accounts {a : QueueAction} (moves : QueueMoves s a s') (q : Nat)
    (accounts : Accounts s q) : Accounts s' q := by
  cases moves with
  | empty => exact accounts
  | unlink here head => exact accounts_unlink here accounts
  | read here => exact accounts_read here accounts
  | push here => exact accounts_quiet (popping_same (by rw [here]; rfl)) rfl rfl accounts
  | malloc here fresh => exact accounts_quiet (popping_same (by rw [here]; rfl)) rfl rfl accounts
  | look here =>
      unfold rpcQueueItemNewLook
      split
      · exact accounts_quiet (popping_same (by rw [here]; rfl)) rfl rfl accounts
      · exact accounts_quiet (popping_same (by rw [here]; rfl)) rfl rfl accounts
  | take here =>
      unfold rpcQueueItemNewTake
      split
      · exact accounts_quiet (popping_same (by rw [here]; rfl)) rfl rfl accounts
      · exact accounts_quiet (popping_same (by rw [here]; rfl)) rfl rfl accounts
  | splice here => exact accounts_quiet (popping_same (by rw [here]; rfl)) rfl rfl accounts
  | fill here => exact accounts_quiet (popping_same (by rw [here]; rfl)) rfl rfl accounts
  | giveBack here => exact accounts_quiet (popping_same (by rw [here]; rfl)) rfl rfl accounts
  | @link t p data item here =>
      have ledger : ∀ ledger' : Nat → Ledger,
          ledger' = Function.update s.ledger p
            { s.ledger p with pushed := (s.ledger p).pushed ++ [data] } →
          (ledger' q).popped = (s.ledger q).popped ∧
            (ledger' q).returned = (s.ledger q).returned := by
        rintro _ rfl
        by_cases this : q = p
        · subst this
          rw [Function.update_self]
          exact ⟨rfl, rfl⟩
        · rw [Function.update_of_ne this]
          exact ⟨rfl, rfl⟩
      have idle : Pc.idle.popping = (s.threads t).popping := by rw [here]; rfl
      unfold rpcQueuePushLink
      cases tail : (s.queues p).tail with
      | none =>
          simp only [QueueState.setThread, tail]
          exact accounts_quiet (popping_same idle) (ledger _ rfl).1 (ledger _ rfl).2 accounts
      | some last =>
          simp only [QueueState.setThread, tail]
          exact accounts_quiet (popping_same idle) (ledger _ rfl).1 (ledger _ rfl).2 accounts

theorem contents_frame (contents : Contents s linked) (ledger : s'.ledger = s.ledger)
    (popping : ∀ v, (s'.threads v).popping = (s.threads v).popping)
    (same : ∀ a, (∃ q, a ∈ linked q) ∨ (∃ v q k, (s.threads v).popping = some (q, k, a)) →
      s'.data a = s.data a) : Contents s' linked := by
  obtain ⟨bound, queued, held, returned⟩ := contents
  constructor
  · simpa only [ledger] using bound
  · intro q
    rw [ledger, ← queued q]
    exact List.map_congr_left fun a member => same a (.inl ⟨q, member⟩)
  · intro v q k item holds
    rw [popping v] at holds
    rw [ledger, same item (.inr ⟨v, q, k, holds⟩)]
    exact held v q k item holds
  · simpa only [ledger] using returned

theorem contents_link (here : s.threads t = .link q data item) (filled : s.data item = data)
    (contents : Contents s linked) :
    Contents (rpcQueuePushLink s t q data item)
      (Function.update linked q (linked q ++ [item])) := by
  obtain ⟨bound, queued, held, returned⟩ := contents
  have ledger : (rpcQueuePushLink s t q data item).ledger =
      Function.update s.ledger q { s.ledger q with pushed := (s.ledger q).pushed ++ [data] } := by
    unfold rpcQueuePushLink
    cases tail : (s.queues q).tail with
    | none => simp only [QueueState.setThread, tail]
    | some last => simp only [QueueState.setThread, tail]
  have threads : (rpcQueuePushLink s t q data item).threads =
      Function.update s.threads t .idle := by
    unfold rpcQueuePushLink
    cases tail : (s.queues q).tail with
    | none => simp only [QueueState.setThread, tail]
    | some last => simp only [QueueState.setThread, tail]
  have same : ∀ a, (rpcQueuePushLink s t q data item).data a = s.data a := by
    intro a
    unfold rpcQueuePushLink
    cases tail : (s.queues q).tail with
    | none => simp only [QueueState.setThread, tail, QueueState.data]
    | some last => simp only [QueueState.setThread, tail, QueueState.data, setNext_data]
  have popping : ∀ v, (Function.update s.threads t .idle v).popping = (s.threads v).popping :=
    popping_same (by rw [here]; rfl)
  -- what was pushed before keeps its number
  have kept : ∀ (p k v : Nat), (s.ledger p).pushed[k]? = some v →
      ((rpcQueuePushLink s t q data item).ledger p).pushed[k]? = some v := by
    intro p k v pushed
    rw [ledger]
    by_cases this : p = q
    · subst this
      rw [Function.update_self]
      exact List.getElem?_append_left (List.getElem?_eq_some_iff.mp pushed).1 ▸ pushed
    · rwa [Function.update_of_ne this]
  constructor
  · intro p
    rw [ledger]
    by_cases this : p = q
    · subst this
      rw [Function.update_self, List.length_append]
      exact Nat.le_trans (bound p) (Nat.le_add_right ..)
    · rw [Function.update_of_ne this]
      exact bound p
  · intro p
    rw [ledger, funext same]
    by_cases this : p = q
    · subst this
      rw [Function.update_self, Function.update_self, List.map_append, queued p,
        List.drop_append_of_le_length (bound p)]
      exact congrArg _ (congrArg (fun d => [d]) filled)
    · rw [Function.update_of_ne this, Function.update_of_ne this]
      exact queued p
  · intro v p k a holds
    rw [threads, popping v] at holds
    rw [same a]
    exact kept p k _ (held v p k a holds)
  · intro p k v member
    refine kept p k v (returned p k v ?_)
    rw [ledger] at member
    by_cases this : p = q
    · subst this
      rwa [Function.update_self] at member
    · rwa [Function.update_of_ne this] at member

theorem contents_unlink (here : s.threads t = .idle) {rest : List Nat}
    (cells : linked q = item :: rest) (contents : Contents s linked) :
    Contents (rpcQueuePopUnlink s t q item) (Function.update linked q rest) := by
  obtain ⟨bound, queued, held, returned⟩ := contents
  have first := queued q
  rw [cells, List.map_cons] at first
  have less : (s.ledger q).popped < (s.ledger q).pushed.length := by
    by_contra beyond
    rw [List.drop_eq_nil_of_le (Nat.le_of_not_lt beyond)] at first
    cases first
  rw [List.drop_eq_getElem_cons less, List.cons.injEq] at first
  have pushed : ∀ p, ((rpcQueuePopUnlink s t q item).ledger p).pushed = (s.ledger p).pushed := by
    intro p
    by_cases this : p = q
    · subst this
      simp [rpcQueuePopUnlink]
    · simp [rpcQueuePopUnlink, Function.update_of_ne this]
  have same : ∀ a, (rpcQueuePopUnlink s t q item).data a = s.data a := fun _ => rfl
  constructor
  · intro p
    rw [pushed]
    by_cases this : p = q
    · subst this
      simpa [rpcQueuePopUnlink] using less
    · simpa [rpcQueuePopUnlink, Function.update_of_ne this] using bound p
  · intro p
    rw [pushed, funext same]
    by_cases this : p = q
    · subst this
      rw [Function.update_self]
      simpa [rpcQueuePopUnlink] using first.2
    · rw [Function.update_of_ne this]
      simpa [rpcQueuePopUnlink, Function.update_of_ne this] using queued p
  · intro v p k a holds
    rw [pushed]
    by_cases this : v = t
    · subst this
      simp only [rpcQueuePopUnlink, QueueState.setThread, Function.update_self, Pc.popping,
        Option.some.injEq, Prod.mk.injEq] at holds
      obtain ⟨rfl, rfl, rfl⟩ := holds
      rw [List.getElem?_eq_getElem less]
      exact congrArg some first.1.symm
    · apply held v p k a
      rwa [show (rpcQueuePopUnlink s t q item).threads v = s.threads v from
        Function.update_of_ne this ..] at holds
  · intro p k v member
    rw [pushed]
    apply returned p k v
    by_cases this : p = q
    · subst this
      simpa [rpcQueuePopUnlink] using member
    · simpa [rpcQueuePopUnlink, Function.update_of_ne this] using member

theorem contents_read (here : s.threads t = .read q k item) (contents : Contents s linked) :
    Contents (rpcQueuePopRead s t q k item) linked := by
  obtain ⟨bound, queued, held, returned⟩ := contents
  have same : ∀ p, ((rpcQueuePopRead s t q k item).ledger p).pushed = (s.ledger p).pushed ∧
      ((rpcQueuePopRead s t q k item).ledger p).popped = (s.ledger p).popped := by
    intro p
    by_cases this : p = q
    · subst this
      simp [rpcQueuePopRead]
    · simp [rpcQueuePopRead, Function.update_of_ne this]
  constructor
  · intro p
    rw [(same p).1, (same p).2]
    exact bound p
  · intro p
    rw [(same p).1, (same p).2]
    exact queued p
  · intro v p j a holds
    rw [(same p).1]
    apply held v p j a
    by_cases this : v = t
    · subst this
      simp [rpcQueuePopRead, QueueState.setThread, Pc.popping] at holds
    · rwa [show (rpcQueuePopRead s t q k item).threads v = s.threads v from
        Function.update_of_ne this ..] at holds
  · intro p j v member
    rw [(same p).1]
    by_cases this : p = q
    · subst this
      simp only [rpcQueuePopRead, Function.update_self, List.mem_append, List.mem_singleton,
        Prod.mk.injEq] at member
      rcases member with old | ⟨rfl, rfl⟩
      · exact returned p j v old
      · exact held t p j item (by rw [here]; rfl)
    · apply returned p j v
      simpa [rpcQueuePopRead, Function.update_of_ne this] using member

/-- A push fills an item that nobody else has: it is neither linked nor in the hands of a pop. What
    a pop has given back and not read is left to the condition. -/
theorem contents_fill (custody : Custody s owner free linked)
    (here : s.threads t = .fill q data item)
    (unread : ∀ v p k, s.threads v = .read p k item → s.data item = data)
    (contents : Contents s linked) : Contents (rpcQueuePushFill s t q data item) linked := by
  have own := custody.threads t
  rw [here] at own
  refine contents_frame contents rfl (popping_same (by rw [here]; rfl)) fun a watched => ?_
  by_cases this : a = item
  · subst this
    simp only [QueueState.data, rpcQueuePushFill, Function.update_self]
    rcases watched with ⟨p, member⟩ | ⟨v, p, k, holds⟩
    · cases (custody.of_queue p a member).symm.trans own
    · have keeps := custody.threads v
      cases pc : s.threads v with
      | giveBack p' k' item' =>
          rw [pc] at holds keeps
          cases holds
          cases (show owner a = .thread v from keeps).symm.trans own
          cases pc.symm.trans here
      | read p' k' item' =>
          rw [pc] at holds
          cases holds
          exact (unread v p k pc).symm
      | idle | look | take | alloc | splice | fill | link =>
          rw [pc] at holds
          cases holds
  · simp only [QueueState.data, rpcQueuePushFill, Function.update_of_ne this]

theorem step_contents {a : QueueAction} (moves : QueueMoves s a s')
    (custody : Custody s owner free linked) (contents : Contents s linked)
    (unread : LeavesUnread s a) :
    ∃ owner' free' linked', Custody s' owner' free' linked' ∧ Contents s' linked' := by
  cases moves with
  | empty => exact ⟨owner, free, linked, custody, contents⟩
  | push here =>
      exact ⟨owner, free, linked, custody_setThread custody trivial,
        contents_frame contents rfl (popping_same (by rw [here]; rfl)) fun _ _ => rfl⟩
  | unlink here head =>
      obtain ⟨owner', rest, cells, custody'⟩ := custody_unlink custody head
      exact ⟨owner', free, _, custody', contents_unlink here cells contents⟩
  | @malloc t q data block here fresh =>
      obtain ⟨owner', custody'⟩ := custody_malloc custody fresh
      refine ⟨owner', free, linked, custody', ?_⟩
      refine contents_frame contents rfl (popping_same (by rw [here]; rfl)) fun a _ => ?_
      show (chainBlock s.heap block a).data = (s.heap a).data
      rw [chainBlock_cell]
      split
      · rfl
      · rfl
  | look here =>
      refine ⟨owner, free, linked, custody_look custody, ?_⟩
      unfold rpcQueueItemNewLook
      split
      · exact contents_frame contents rfl (popping_same (by rw [here]; rfl)) fun _ _ => rfl
      · exact contents_frame contents rfl (popping_same (by rw [here]; rfl)) fun _ _ => rfl
  | take here =>
      obtain ⟨owner', free', custody'⟩ := custody_take custody
      refine ⟨owner', free', linked, custody', ?_⟩
      unfold rpcQueueItemNewTake
      split
      · exact contents_frame contents rfl (popping_same (by rw [here]; rfl)) fun _ _ => rfl
      · exact contents_frame contents rfl (popping_same (by rw [here]; rfl)) fun _ _ => rfl
  | splice here =>
      obtain ⟨owner', free', custody'⟩ := custody_splice custody here
      exact ⟨owner', free', linked, custody', contents_frame contents rfl
        (popping_same (by rw [here]; rfl)) fun a _ => setNext_data ..⟩
  | fill here =>
      exact ⟨owner, free, linked, custody_fill custody here,
        contents_fill custody here (unread _ _ _ _ rfl here) contents⟩
  | @link t q data item here =>
      have keeps := custody.threads t
      rw [here] at keeps
      obtain ⟨owner', custody'⟩ := custody_link custody here
      have filled : s.data item = data := by rw [QueueState.data, keeps.2]
      exact ⟨owner', free, _, custody', contents_link here filled contents⟩
  | giveBack here =>
      obtain ⟨owner', free', custody'⟩ := custody_giveBack custody here
      exact ⟨owner', free', linked, custody', contents_frame contents rfl
        (popping_same (by rw [here]; rfl)) fun a _ => setNext_data ..⟩
  | read here =>
      exact ⟨owner, free, linked, custody_read custody, contents_read here contents⟩

theorem exactlyOnce_of (custody : Custody s owner free linked) (contents : Contents s linked)
    (accounts : Accounts s q) : s.ExactlyOnce q where
  linked := ⟨linked q, (custody.queues q).chain, contents.queued q⟩
  once := accounts.once
  unlinked := by
    intro k less
    by_cases answered : k ∈ (s.ledger q).answered
    · exact .inl ⟨answered, fun t holds => (accounts.held t k holds).2 answered⟩
    · obtain ⟨t, holds⟩ := accounts.all k less answered
      exact .inr ⟨answered, t, holds, fun v other => accounts.alone v t k other holds⟩
  returned := fun k v member =>
    ⟨accounts.below k (List.mem_map_of_mem member), contents.returned q k v member⟩
  popping := fun t k item holds => contents.popping t q k item holds

end Steps

theorem accounts_initial (heap : Nat → Item) (q : Nat) : Accounts (.initial heap) q where
  once := List.nodup_nil
  below := by simp [QueueState.initial, Ledger.answered]
  held := by
    rintro t k ⟨item, holds⟩
    cases holds
  alone := by
    rintro t v k ⟨item, holds⟩
    cases holds
  all := by simp [QueueState.initial]

theorem contents_initial (heap : Nat → Item) : Contents (.initial heap) (fun _ => []) where
  bound := fun _ => Nat.le_refl 0
  queued := fun _ => rfl
  popping := by simp [QueueState.initial, Pc.popping]
  returned := by simp [QueueState.initial]

/-- The invariant of a run that leaves unread items alone. -/
def HandsOff (s : QueueState) : Prop :=
  (∃ owner free linked, Custody s owner free linked ∧ Contents s linked) ∧ ∀ q, Accounts s q

theorem handsOff_step {s s' : QueueState} {a : QueueAction} (unread : LeavesUnread s a)
    (step : queueStep s a = some s') (before : HandsOff s) : HandsOff s' := by
  obtain ⟨⟨owner, free, linked, custody, contents⟩, accounts⟩ := before
  have moves := queueStep_moves step
  exact ⟨step_contents moves custody contents unread, fun q => step_accounts moves q (accounts q)⟩

/-- A push that changes an unread item leaves its pop with the wrong pointer. -/
theorem leavesUnread_of_exactlyOnce {s s' : QueueState} {a : QueueAction}
    (before : ∀ q, s.ExactlyOnce q) (step : queueStep s a = some s')
    (after : ∀ q, s'.ExactlyOnce q) : LeavesUnread s a := by
  rintro t q data item rfl here v p k reading
  simp only [queueStep, here, Option.some.injEq] at step
  subst step
  have old := (before p).popping v k item (by rw [reading]; rfl)
  have other : v ≠ t := by
    rintro rfl
    cases reading.symm.trans here
  have reading' : (rpcQueuePushFill s t q data item).threads v = .read p k item :=
    (Function.update_of_ne other ..).trans reading
  have new := (after p).popping v k item (by rw [reading']; rfl)
  have written : (rpcQueuePushFill s t q data item).data item = data := by
    simp [rpcQueuePushFill, QueueState.data]
  rw [written] at new
  exact Option.some.inj (old.symm.trans new)

/-- In every state of a run each queue hands its pointers on exactly once if and only if no push of
    the run writes another pointer to an item that a pop has given back and not read. -/
theorem rpcQueuePop_exactly_once (heap : Nat → Item) (actions : List QueueAction) :
    Always queueStep (fun s => ∀ q, s.ExactlyOnce q) (.initial heap) actions ↔
      Along queueStep LeavesUnread (.initial heap) actions := by
  have sound : ∀ s, HandsOff s → ∀ q, s.ExactlyOnce q := by
    rintro s ⟨⟨owner, free, linked, custody, contents⟩, accounts⟩ q
    exact exactlyOnce_of custody contents (accounts q)
  have start : HandsOff (.initial heap) :=
    ⟨⟨_, _, _, custody_initial heap, contents_initial heap⟩, accounts_initial heap⟩
  refine always_iff_along sound (fun s a s' => handsOff_step) (fun s a s' before step after => ?_)
    actions start
  exact leavesUnread_of_exactlyOnce (sound s before) step after

/-- Thread 0 pushes 1; thread 1 pops it and gives the item back; thread 0 pushes 2, which takes that
    item; then thread 1 reads it, and pops again. -/
theorem rpcQueuePop_returns_twice :
    ∃ s, exec queueStep (.initial fun _ => ⟨0, none⟩)
        [.push 0 0 1, .go 0, .malloc 0 64, .go 0, .go 0, .go 0, .pop 1 0 false, .go 1,
          .push 0 0 2, .go 0, .go 0, .go 0, .go 1, .go 0, .pop 1 0 false, .go 1, .go 1] = some s ∧
      s.ledger 0 = ⟨[1, 2], 2, [(0, 2), (1, 2)]⟩ ∧ ¬ s.ExactlyOnce 0 := by
  obtain ⟨s, run, ledger⟩ : ∃ s, exec queueStep (.initial fun _ => ⟨0, none⟩)
      [.push 0 0 1, .go 0, .malloc 0 64, .go 0, .go 0, .go 0, .pop 1 0 false, .go 1,
        .push 0 0 2, .go 0, .go 0, .go 0, .go 1, .go 0, .pop 1 0 false, .go 1, .go 1] = some s ∧
      s.ledger 0 = ⟨[1, 2], 2, [(0, 2), (1, 2)]⟩ :=
    ⟨_, rfl, rfl⟩
  refine ⟨s, run, ledger, fun exact_once => ?_⟩
  have first := (exact_once.returned 0 2 (by rw [ledger]; decide)).2
  rw [ledger] at first
  cases first

end OpenRpc
