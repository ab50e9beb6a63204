/-
# Fred.Hotstuff.Drain -- the order of arrival does not matter

The network thread alone comes to an empty queue from any state (`exists_drained`): each event that is
run leaves the queue for good or is parked, and a parked one comes back only when another has left for
good. A node that has gathered a closed set of blocks and has drained its queue has stored exactly the
set, and the store it has does not depend on the order of arrival (`arrival_order`).
-/
import Fred.Hotstuff.Gathering

namespace Fred.Hotstuff

open Fred.Transition

variable {V : Type} {E : Setup V}

namespace Node

variable {s s' t t₁ t₂ : Node V} {c : Copy} {B : BlockSet E}

/-! ## Draining comes to an end -/

/-- The events that are queued or parked. -/
def load (s : Node V) : ℕ := s.queued.length + s.fetcher.parked.length

/-- An event that is run leaves the load, or stays in it and leaves the queue. -/
theorem OnEventOk.load_le (hvalid : E.config.isValidReplica c.event.source = true)
    (h : OnEventOk E c s s') :
    s'.load ≤ s.load ∨ (s'.load = s.load + 1 ∧ s'.queued = s.queued) := by
  cases h with
  | vote => exact Or.inl le_rfl
  | @unknownVote cert voter hc _ =>
      rw [hc] at hvalid
      refine Or.inr ⟨?_, rfl⟩
      have hparked : (s.fetcher.addFetchRequest E.config cert.hash voter [c]).parked.Perm
          (s.fetcher.parked ++ [c]) := BlockFetchManager.parked_addFetchRequest hvalid _ _ _
      have hlen := hparked.length_eq
      rw [List.length_append, List.length_singleton] at hlen
      show s.queued.length + _ = s.queued.length + _ + 1
      rw [Nat.add_assoc, ← hlen]
      rfl
  | @proposal p q j _ _ _ =>
      left
      have hlen := (copies_deliver p q j s).length_eq
      simp only [copies, List.length_append] at hlen
      show (s.deliver p q j).load ≤ s.load
      have hhanded : (s.deliver p q j).handed = s.handed := rfl
      rw [hhanded] at hlen
      unfold load
      omega
  | @receive p q j _ _ _ =>
      left
      have hlen := (copies_deliver p q j s).length_eq
      simp only [copies, List.length_append] at hlen
      have hhanded : (s.deliver p q j).handed = s.handed := rfl
      rw [hhanded] at hlen
      unfold load
      omega
  | @parked p source wait also hc _ _ _ =>
      rw [hc.source_eq] at hvalid
      refine Or.inr ⟨?_, rfl⟩
      have hcopies : (s.parkOn E c p source wait also).copies.Perm (c :: s.copies) :=
        copies_parkOn hvalid
      have hlen := hcopies.length_eq
      simp only [copies, List.length_append, List.length_cons] at hlen
      have hhanded : (s.parkOn E c p source wait also).handed = s.handed := rfl
      have hqueued : (s.parkOn E c p source wait also).queued = s.queued := rfl
      rw [hhanded, hqueued] at hlen
      unfold load
      rw [hqueued]
      omega

/-- The network thread runs until the queue is empty. -/
def Drains (E : Setup V) (s t : Node V) : Prop :=
  ∃ actions, (∀ a ∈ actions, a = .takeEvents ∨ a = .runEvent) ∧
    runList (Node.step E) actions s = .ok t ∧ t.queued = []

theorem Drains.cons {a : Action} (ha : a = .takeEvents ∨ a = .runEvent) (h : s.step E a = .ok s')
    (hd : Drains E s' t) : Drains E s t := by
  obtain ⟨actions, hall, hrun, hnil⟩ := hd
  refine ⟨a :: actions, ?_, ?_, hnil⟩
  · intro x hx
    rcases List.mem_cons.mp hx with rfl | hx
    · exact ha
    · exact hall x hx
  · unfold runList
    rw [h]
    exact hrun

/-- Running the first event of the batch makes the load smaller, or keeps it and makes the queue
shorter. -/
theorem runEvent_lex (P : Placed E s) {rest : List Copy} (hwork : s.workList = c :: rest)
    (h : OnEventOk E c { s with workList := rest } s') :
    s'.load < s.load ∨ (s'.load = s.load ∧ s'.queued.length < s.queued.length) := by
  have hc : c.event ∈ s.replica.netEvents :=
    P.mem_netEvents (by simp [copies, queued, hwork])
  have hqueued : s.queued.length = ({ s with workList := rest } : Node V).queued.length + 1 := by
    simp [queued, hwork]
  have hload : s.load = ({ s with workList := rest } : Node V).load + 1 := by
    unfold load
    rw [hqueued]
    exact Nat.add_right_comm _ _ _
  rcases h.load_le (P.sources _ hc) with hle | ⟨heq, hsame⟩
  · left
    omega
  · right
    rw [hsame]
    omega

/-- **Draining ends.** The recursion is on the load and, where it stays, on the length of the
queue. -/
theorem exists_drained {s : Node V} (P : Placed E s) : ∃ t, Drains E s t := by
  rcases hwork : s.workList with _ | ⟨c, rest⟩
  · rcases hevents : s.events with _ | ⟨c, rest⟩
    · exact ⟨s, [], by simp, rfl, by simp [queued, hwork, hevents]⟩
    · -- the next batch is taken, and its first event run
      have htake : s.step E .takeEvents = .ok { s with workList := s.events, events := [] } := by
        unfold Node.step
        simp [hwork]
      have P₁ := P.step htake
      have hwork₁ : ({ s with workList := s.events, events := [] } : Node V).workList = c :: rest :=
        hevents
      have hc : c.event ∈ s.replica.netEvents :=
        P.mem_netEvents (by simp [copies, queued, hevents])
      obtain ⟨t, hrun, hform⟩ := onEvent_form
        (s := { s with workList := rest, events := [] }) (c := c) P.wellFormed hc
      have hstep : ({ s with workList := s.events, events := [] } : Node V).step E .runEvent =
          .ok t := by
        unfold Node.step
        simp only [hevents]
        exact hrun
      have hload : ({ s with workList := s.events, events := [] } : Node V).load = s.load := by
        simp [load, queued, hwork]
      have hlen : ({ s with workList := s.events, events := [] } : Node V).queued.length =
          s.queued.length := by simp [queued, hwork]
      have hlex : t.load < s.load ∨
          (t.load = s.load ∧ t.queued.length < s.queued.length) := by
        rw [← hload, ← hlen]
        exact runEvent_lex P₁ hwork₁ hform
      obtain ⟨u, hu⟩ := exists_drained (P₁.step hstep)
      exact ⟨u, (hu.cons (Or.inr rfl) hstep).cons (Or.inl rfl) htake⟩
  · have hc : c.event ∈ s.replica.netEvents :=
      P.mem_netEvents (by simp [copies, queued, hwork])
    obtain ⟨t, hrun, hform⟩ := onEvent_form (s := { s with workList := rest }) (c := c) P.wellFormed hc
    have hstep : s.step E .runEvent = .ok t := by
      unfold Node.step
      simp only [hwork]
      exact hrun
    have hlex := runEvent_lex P hwork hform
    obtain ⟨u, hu⟩ := exists_drained (P.step hstep)
    exact ⟨u, hu.cons (Or.inr rfl) hstep⟩
termination_by (s.load, s.queued.length)
decreasing_by
  all_goals
    rw [Prod.lex_def]
    exact hlex

/-! ## The run -/

/-- An event asks workers for more, and leaves their calls alone. -/
theorem OnEventOk.round_eq (h : OnEventOk E c s s') (rid : ReplicaID) :
    (s'.fetcher.workers rid).round = (s.fetcher.workers rid).round := by
  have hadd : ∀ (m : BlockFetchManager) (x : Hash) (target : ReplicaID) (es : List Copy),
      ((m.addFetchRequest E.config x target es).workers rid).round = (m.workers rid).round := by
    intro m x target es
    unfold BlockFetchManager.addFetchRequest
    split
    · rfl
    · dsimp only
      split
      · show (Function.update m.workers target _ rid).round = _
        by_cases hrid : rid = target
        · subst hrid
          rw [Function.update_self]
          rfl
        · rw [Function.update_of_ne hrid]
      · rfl
  have hdel : ∀ x, ((s.fetcher.deliverBlock x).2.workers rid).round =
      (s.fetcher.workers rid).round := fun x => by rw [BlockFetchManager.workers_deliverBlock]
  cases h with
  | vote => rfl
  | unknownVote => exact hadd _ _ _ _
  | proposal => exact hdel _
  | receive => exact hdel _
  | @parked _ _ _ also =>
      cases also with
      | none => exact (hadd _ _ _ _).trans (hdel _)
      | some x => exact ((hadd _ _ _ _).trans (hadd _ _ _ _)).trans (hdel _)

/-- Running an event. -/
theorem Gathered.runEvent (G : Gathered B s) {rest : List Copy}
    (hc : c.event ∈ s.replica.netEvents) (hplaced : Placed E s')
    (h : OnEventOk E c { s with workList := rest } s') :
    Gathered B s' ∧ s'.messages = s.messages := by
  have w := h.waiting G hc
  have hnet : s'.replica.netEvents = s.replica.netEvents := h.netEvents_eq
  have hstep := h.replica_step (s := { s with workList := rest }) G.placed.wellFormed hc
  have hlabel := fun p hp => label_step G.placed.wellFormed hstep (p := p) hp
  have hnext : s'.replica.heap.next = s.replica.heap.next := by cases h <;> rfl
  refine ⟨⟨hplaced, ?_, hnet ▸ G.votes, ?_, w.missing, ?_, w.handed⟩, ?_⟩
  · intro p hp hlt
    rw [hnext] at hlt
    rw [Heap.header_of_label (hlabel p hlt)]
    exact G.headers p hp hlt
  · intro rid req responses hround
    rw [h.round_eq] at hround
    exact G.answers rid req responses hround
  · intro x d hd
    obtain ⟨ctx, hctx, hd⟩ := eventsAt_request.mp hd
    exact w.waits x ctx hctx d hd
  · have hacc : s'.accepted = s.accepted := congrArg (copiesFrom 0) hnet
    unfold messages
    rw [hacc]
    exact filterMap_copyMessage_eq (fun d hd => G.placed.ok_of_accepted hd) hlabel

/-- The blocks of an answer are blocks of the set. -/
theorem Gathered.answers_worker (G : Gathered B s) {a : Action} {rid : ReplicaID}
    {f : BlockFetchWorker → BlockFetchWorker} (hP : Gathers B a)
    (ha : a = .sendFetch rid ∧ f = BlockFetchWorker.sendFetch ∨
      a = .fetchFailed rid ∧ f = BlockFetchWorker.fetchFailed ∨
      ∃ responses, a = .fetchReply rid responses ∧ f = fun w => w.fetchReply responses)
    {req : List Hash} {responses : List HotstuffBlockWire}
    (hround : (f (s.fetcher.workers rid)).round = .replied req responses) :
    ∀ wire ∈ responses, wire ∈ B.blocks := by
  have hold := G.answers rid req responses
  rcases ha with ⟨-, rfl⟩ | ⟨-, rfl⟩ | ⟨answer, rfl, rfl⟩
  · unfold BlockFetchWorker.sendFetch at hround
    split at hround
    · cases hround
    · exact hold hround
  · unfold BlockFetchWorker.fetchFailed at hround
    split at hround
    · cases hround
    · exact hold hround
  · unfold BlockFetchWorker.fetchReply at hround
    dsimp only at hround
    split at hround
    · cases hround
      exact hP
    · exact hold hround

/-- **A step keeps what holds of a node that gathers the set**, and takes in the message that arrives
with it. -/
theorem Gathered.step (G : Gathered B s) {a : Action} (hP : Gathers B a)
    (h : s.step E a = .ok s') :
    Gathered B s' ∧ s'.messages = s.messages ++ a.message.toList := by
  have hplaced := G.placed.step h
  have hwork : ∀ c ∈ s.workList, c.event ∈ s.replica.netEvents := fun c hc =>
    G.placed.mem_netEvents (by simp [copies, queued, hc])
  -- an action that brings no message has no effect on the messages
  have hkeep : a.message = none → (∀ i, a ≠ .replica i) →
      Gathered B s' ∧ s'.messages = s.messages := by
    intro hnone hreplica
    cases node_form G.placed.wellFormed hwork h with
    | idle => exact ⟨G, rfl⟩
    | @replica i _ _ _ => exact absurd rfl (hreplica i)
    | takeEvents hnil =>
        exact ⟨⟨hplaced, G.headers, G.votes, G.answers, G.missing, G.waits, G.handed⟩, rfl⟩
    | @runEvent c rest _ hcons hform =>
        have hc : c.event ∈ s.replica.netEvents := hwork c (hcons ▸ List.mem_cons_self)
        exact G.runEvent hc hplaced hform
    | @worker _ rid f ha =>
        refine ⟨G.modifyWorker hplaced fun req responses hround => ?_, rfl⟩
        exact G.answers_worker hP ha hround
    | @takeReply rid req wire responses r hround hr =>
        have hvalid := G.placed.valid_of_round rid (by simp [hround])
        have hwire : wire ∈ B.blocks := G.answers rid req _ hround wire List.mem_cons_self
        have G₁ : Gathered B
            (s.modifyWorker rid fun w => { w with round := .replied req responses }) := by
          refine G.modifyWorker (G.placed.modifyWorker (Or.inl hvalid)) ?_
          intro req' responses' hround' x hx
          cases hround'
          exact G.answers rid req _ hround x (List.mem_cons_of_mem _ hx)
        have hacc : Hotstuff.step E (.fetchResponse wire rid) s.replica =
            .ok (s.replica.accepted E wire rid (.blockReceive · rid)) := by
          unfold Hotstuff.step Replica.receiveFetched Replica.acceptBlock
          simp only [B.valid wire hwire rid]
          rfl
        obtain rfl := Except.ok.inj (hacc.symm.trans hr)
        refine ⟨G₁.accepted hwire hr ?_ (fun _ _ _ h => by cases h), ?_⟩
        · rintro _ _ h
          cases h
          exact hvalid
        · rw [messages_withReplica G₁.placed hr rfl]
          show s.messages ++ (copiesFrom s.replica.netEvents.length (s.replica.netEvents ++
            [.blockReceive s.replica.heap.next rid])).filterMap _ = _
          rw [copiesFrom_singleton]
          exact List.append_nil _
    | @replyDone rid req hround =>
        refine ⟨G.modifyWorker hplaced ?_, rfl⟩
        intro _ _ h
        cases h
  cases a with
  | replica i =>
      unfold Node.step at h
      dsimp only at h
      split at h
      · rename_i hown
        unfold liftStep at h
        split at h
        · cases h
        · rename_i r hr
          obtain rfl := Except.ok.inj h
          exact G.replica_step hown hP hr
      · rename_i hown
        obtain rfl := Except.ok.inj h
        cases i <;> simp_all [ownInput, Action.message]
  | takeEvents => simpa [Action.message] using hkeep rfl (by simp)
  | runEvent => simpa [Action.message] using hkeep rfl (by simp)
  | sendFetch rid => simpa [Action.message] using hkeep rfl (by simp)
  | fetchFailed rid => simpa [Action.message] using hkeep rfl (by simp)
  | fetchReply rid responses => simpa [Action.message] using hkeep rfl (by simp)
  | takeReply rid => simpa [Action.message] using hkeep rfl (by simp)

/-- **What a run leaves**: the facts about a gathering node, and the messages that came. -/
theorem gathered_run : ∀ {actions : List Action} {s t : Node V}, (∀ a ∈ actions, Gathers B a) →
    Gathered B s → runList (Node.step E) actions s = .ok t →
    Gathered B t ∧ t.messages = s.messages ++ arrivals actions
  | [], s, t, _, G, h => by
      obtain rfl : s = t := Except.ok.inj h
      exact ⟨G, (List.append_nil _).symm⟩
  | a :: actions, s, t, hall, G, h => by
      unfold runList at h
      split at h
      · cases h
      · rename_i u hu
        obtain ⟨Gu, hmu⟩ := G.step (hall a List.mem_cons_self) hu
        obtain ⟨Gt, hmt⟩ := gathered_run (fun x hx => hall x (List.mem_cons_of_mem a hx)) Gu h
        refine ⟨Gt, ?_⟩
        rw [hmt, hmu, List.append_assoc]
        unfold arrivals
        congr 1
        rcases hm : a.message with _ | m <;> simp [hm]

theorem Gathered.drains (G : Gathered B s) (h : Drains E s t) :
    Gathered B t ∧ t.messages = s.messages ∧ t.queued = [] := by
  obtain ⟨actions, hall, hrun, hnil⟩ := h
  have hgathers : ∀ a ∈ actions, Gathers B a := by
    intro a ha
    rcases hall a ha with rfl | rfl <;> trivial
  have hnone : arrivals actions = [] := by
    unfold arrivals
    rw [List.filterMap_eq_nil_iff]
    intro a ha
    rcases hall a ha with rfl | rfl <;> rfl
  obtain ⟨Gt, hm⟩ := gathered_run hgathers G hrun
  rw [hnone, List.append_nil] at hm
  exact ⟨Gt, hm, hnil⟩

/-! ## The state after draining -/

/-- Every block of the set has been proposed. -/
def AllProposed (B : BlockSet E) (messages : List Message) : Prop :=
  ∀ b ∈ B.blocks, ∃ proposer, .proposal b.header proposer ∈ messages

/-- The proposal of a block of the set, as a copy of the node. -/
theorem exists_proposal (G : Gathered B s) {b : HotstuffBlockWire} {proposer : ReplicaID}
    (hm : .proposal b.header proposer ∈ s.messages) : ∃ c ∈ s.accepted, ∃ p source,
      c.event = .proposal p source ∧ s.replica.heap.hash p = E.crypto.hashHeader b.header := by
  obtain ⟨c, hc, hmsg⟩ := List.mem_filterMap.mp hm
  have hok := G.placed.ok_of_accepted hc
  unfold copyMessage at hmsg
  split at hmsg
  · cases hmsg
  · rename_i p source hev
    rw [hev] at hok
    refine ⟨c, hc, p, source, hev, ?_⟩
    have hheader := (Message.proposal.inj (Option.some.inj hmsg)).1
    rw [G.hash_eq hok.1 hok.2, hheader]
  · cases hmsg

/-- **Once the queue has drained every block of the set is stored.** By induction on the depth: the
proposal of a missing block would wait for a missing block that is less deep. -/
theorem Gathered.stored_of_drained (G : Gathered B s) (hnil : s.queued = [])
    (hall : AllProposed B s.messages) (n : ℕ) : ∀ h, B.depth h = n → B.HasHash h →
      ∃ p, s.replica.blockStore.blockCache h = some p := by
  induction n using Nat.strong_induction_on with
  | _ n ih =>
      rintro h hdepth ⟨b, hb, rfl⟩
      obtain ⟨proposer, hm⟩ := hall b hb
      obtain ⟨c, hc, p, source, hev, hhash⟩ := exists_proposal G hm
      have hwork : c.isWork = true := by
        unfold Copy.isWork
        rw [hev]
      have hsomewhere : c ∈ s.copies := by
        have hmem := G.placed.perm.mem_iff.mpr (List.mem_filter.mpr ⟨hc, hwork⟩)
        exact (List.mem_filter.mp hmem).1
      unfold copies at hsomewhere
      rw [hnil, List.nil_append] at hsomewhere
      rcases List.mem_append.mp hsomewhere with hparked | hhanded
      · exfalso
        obtain ⟨x, ctx, hctx, hmem⟩ := BlockFetchManager.mem_parked.mp hparked
        obtain ⟨hnone, hset⟩ := G.missing x ctx hctx
        have habove := G.waits x c (eventsAt_request.mpr ⟨ctx, hctx, hmem⟩)
        unfold Above at habove
        rw [hev] at habove
        dsimp only at habove
        rw [hhash, hdepth] at habove
        obtain ⟨q, hq⟩ := ih _ habove x rfl hset
        rw [hnone] at hq
        cases hq
      · rw [← hhash]
        exact G.handed c hhanded p source (Or.inl hev)

/-- No request is outstanding then. -/
theorem Gathered.lookup_of_drained (G : Gathered B s) (hnil : s.queued = [])
    (hall : AllProposed B s.messages) (h : Hash) :
    s.fetcher.outstandingReqs.lookup h = none := by
  rcases hl : s.fetcher.outstandingReqs.lookup h with _ | ctx
  · rfl
  · obtain ⟨hnone, hset⟩ := G.missing h ctx hl
    obtain ⟨p, hp⟩ := G.stored_of_drained hnil hall _ h rfl hset
    rw [hnone] at hp
    cases hp

/-- Each message has been handed to the core once. -/
theorem Gathered.handed_of_drained (G : Gathered B s) (hnil : s.queued = [])
    (hall : AllProposed B s.messages) : s.handedMessages.Perm s.messages := by
  have hparked : s.fetcher.parked = [] := by
    rw [List.eq_nil_iff_forall_not_mem]
    intro c hc
    obtain ⟨h, ctx, hctx, -⟩ := BlockFetchManager.mem_parked.mp hc
    rw [G.lookup_of_drained hnil hall h] at hctx
    cases hctx
  have hperm := G.placed.perm
  have hcopies : s.copies = s.handed := by
    unfold copies
    rw [hnil, hparked]
    rfl
  rw [hcopies] at hperm
  -- only votes and proposals read as messages
  have hfilter : ∀ l : List Copy, l.filterMap (copyMessage s.replica.heap) =
      (l.filter Copy.isWork).filterMap (copyMessage s.replica.heap) := by
    intro l
    rw [List.filterMap_filter]
    refine List.filterMap_congr fun c _ => ?_
    unfold copyMessage Copy.isWork
    split <;> rename_i hev <;> simp [hev]
  unfold handedMessages messages
  rw [hfilter s.handed, hfilter s.accepted]
  exact hperm.filterMap _

/-! ## Two orders of arrival -/

/-- What the store has under a hash: the height, and the hash of the parent. -/
def storeView (s : Node V) (h : Hash) : Option (ℕ × Option Hash) :=
  (s.replica.blockStore.blockCache h).map fun p =>
    (s.replica.heap.height p, (s.replica.heap.parent p).map s.replica.heap.hash)

/-- The hashes in the store are those of genesis and of the set. -/
theorem Gathered.stored_iff (G : Gathered B s) (hnil : s.queued = [])
    (hall : AllProposed B s.messages) (h : Hash) :
    (∃ p, s.replica.blockStore.blockCache h = some p) ↔ h = 0#256 ∨ B.HasHash h := by
  have W := G.placed.wellFormed
  constructor
  · rintro ⟨p, hp⟩
    obtain ⟨hhash, hset⟩ := W.shape.cached hp
    by_cases hgen : p = genesisPtr
    · left
      rw [← hhash, hgen, W.shape.hash_genesis]
    · right
      rw [← hhash]
      exact G.hasHash hgen (W.shape.lt_next_of_settled hset)
  · rintro (rfl | hset)
    · exact ⟨_, W.shape.cache_genesis⟩
    · exact G.stored_of_drained hnil hall _ h rfl hset

/-- A stored block of the set: its header, and its parent one below. -/
theorem Gathered.view_of_stored (G : Gathered B s) {h : Hash} (hset : B.HasHash h) {p : BlockPtr}
    (hp : s.replica.blockStore.blockCache h = some p) : ∃ b ∈ B.blocks,
    E.crypto.hashHeader b.header = h ∧ ∃ q,
      s.replica.blockStore.blockCache b.header.parentHash = some q ∧
      s.storeView h = some (s.replica.heap.height q + 1, some b.header.parentHash) := by
  have W := G.placed.wellFormed
  obtain ⟨hhash, hsettled⟩ := W.shape.cached hp
  have hne : p ≠ genesisPtr := by
    rintro rfl
    obtain ⟨b, hb, hbh⟩ := hset
    apply B.ne_zero b hb
    rw [hbh, ← hhash, W.shape.hash_genesis]
  obtain ⟨b, hb, hheader⟩ := G.headers p hne (W.shape.lt_next_of_settled hsettled)
  obtain ⟨q, hq⟩ := hsettled.resolve_left hne
  have hcached := W.shape.parent_cached hq
  rw [hheader] at hcached
  refine ⟨b, hb, ?_, q, hcached, ?_⟩
  · rw [← hheader, ← G.hash_eq hne (W.shape.lt_next_of_settled hsettled), hhash]
  · unfold storeView
    rw [hp, Option.map_some, hq, Option.map_some, W.shape.height_parent hq,
      (W.shape.cached hcached).1]

/-- **The store does not depend on the order.** By induction on the depth of the block. -/
theorem Gathered.storeView_eq (G₁ : Gathered B t₁) (G₂ : Gathered B t₂) (hnil₁ : t₁.queued = [])
    (hnil₂ : t₂.queued = []) (hall₁ : AllProposed B t₁.messages)
    (hall₂ : AllProposed B t₂.messages) (n : ℕ) :
    ∀ h, B.depth h = n → t₁.storeView h = t₂.storeView h := by
  induction n using Nat.strong_induction_on with
  | _ n ih =>
      intro h hdepth
      have hiff₁ := G₁.stored_iff hnil₁ hall₁ h
      have hiff₂ := G₂.stored_iff hnil₂ hall₂ h
      by_cases hin : h = 0#256 ∨ B.HasHash h
      · rcases hin with rfl | hset
        · -- genesis is at the same place in both
          have hgen : ∀ {t : Node V}, Gathered B t → t.storeView 0#256 = some (0, none) := by
            intro t G
            have S := G.placed.wellFormed.shape
            unfold storeView
            rw [S.cache_genesis, Option.map_some, S.height_genesis, S.parent_genesis]
            rfl
          rw [hgen G₁, hgen G₂]
        · obtain ⟨p₁, hp₁⟩ := hiff₁.mpr (Or.inr hset)
          obtain ⟨p₂, hp₂⟩ := hiff₂.mpr (Or.inr hset)
          obtain ⟨b₁, hb₁, hh₁, q₁, hq₁, hv₁⟩ := G₁.view_of_stored hset hp₁
          obtain ⟨b₂, hb₂, hh₂, q₂, hq₂, hv₂⟩ := G₂.view_of_stored hset hp₂
          have hb : b₁.header = b₂.header := B.injOn b₁ hb₁ b₂ hb₂ (hh₁.trans hh₂.symm)
          have hlt : B.depth b₁.header.parentHash < n := by
            rw [← hdepth, ← hh₁]
            exact B.depth_lt b₁ hb₁ _ (Or.inl rfl)
          have hview := ih _ hlt b₁.header.parentHash rfl
          rw [hb] at hq₁ hview
          unfold storeView at hview
          rw [hq₁, hq₂, Option.map_some, Option.map_some] at hview
          have hheight := congrArg Prod.fst (Option.some.inj hview)
          rw [hv₁, hv₂, hb, show t₁.replica.heap.height q₁ = t₂.replica.heap.height q₂ from hheight]
      · have hnone : ∀ {t : Node V}, ((∃ p, t.replica.blockStore.blockCache h = some p) ↔
            h = 0#256 ∨ B.HasHash h) → t.storeView h = none := by
          intro t hiff
          unfold storeView
          rcases hc : t.replica.blockStore.blockCache h with _ | p
          · rfl
          · exact absurd (hiff.mp ⟨p, hc⟩) hin
        rw [hnone hiff₁, hnone hiff₂]

/-- **Arrival order does not matter.** Two runs in which the proposals of a closed set of blocks and
votes on them arrive, each message in both, in any order and with fetch answers anywhere: the queues
drain, and once they have, both stores hold exactly the set, each block with the same height and parent,
nothing is parked, and each message has been handed to the core once. -/
theorem arrival_order (B : BlockSet E) {actions₁ actions₂ : List Action} {s₁ s₂ : Node V}
    (hall₁ : ∀ a ∈ actions₁, Gathers B a) (hall₂ : ∀ a ∈ actions₂, Gathers B a)
    (hperm : (arrivals actions₁).Perm (arrivals actions₂))
    (hproposed : AllProposed B (arrivals actions₁))
    (h₁ : runList (Node.step E) actions₁ (Node.start E) = .ok s₁)
    (h₂ : runList (Node.step E) actions₂ (Node.start E) = .ok s₂) :
    (∃ t, Drains E s₁ t) ∧ (∃ t, Drains E s₂ t) ∧
    ∀ t₁ t₂, Drains E s₁ t₁ → Drains E s₂ t₂ →
      (∀ h, t₁.storeView h = t₂.storeView h) ∧
      ∀ t, t = t₁ ∨ t = t₂ →
        (∀ h, (∃ p, t.replica.blockStore.blockCache h = some p) ↔ h = 0#256 ∨ B.HasHash h) ∧
        (∀ h, t.fetcher.outstandingReqs.lookup h = none) ∧
        t.handedMessages.Perm (arrivals actions₁) := by
  obtain ⟨G₁, hm₁⟩ := gathered_run hall₁ (Gathered.start B) h₁
  obtain ⟨G₂, hm₂⟩ := gathered_run hall₂ (Gathered.start B) h₂
  have hstart : (Node.start E).messages = [] := rfl
  rw [hstart, List.nil_append] at hm₁ hm₂
  refine ⟨exists_drained G₁.placed, exists_drained G₂.placed, fun t₁ t₂ hd₁ hd₂ => ?_⟩
  obtain ⟨T₁, ht₁, hnil₁⟩ := G₁.drains hd₁
  obtain ⟨T₂, ht₂, hnil₂⟩ := G₂.drains hd₂
  rw [hm₁] at ht₁
  rw [hm₂] at ht₂
  have hp₁ : AllProposed B t₁.messages := ht₁ ▸ hproposed
  have hp₂ : AllProposed B t₂.messages := by
    intro b hb
    obtain ⟨proposer, hmem⟩ := hproposed b hb
    exact ⟨proposer, ht₂ ▸ hperm.mem_iff.mp hmem⟩
  refine ⟨fun h => T₁.storeView_eq T₂ hnil₁ hnil₂ hp₁ hp₂ _ h rfl, ?_⟩
  rintro t (rfl | rfl)
  · refine ⟨T₁.stored_iff hnil₁ hp₁, T₁.lookup_of_drained hnil₁ hp₁, ?_⟩
    exact (T₁.handed_of_drained hnil₁ hp₁).trans (List.Perm.of_eq ht₁)
  · refine ⟨T₂.stored_iff hnil₂ hp₂, T₂.lookup_of_drained hnil₂ hp₂, ?_⟩
    exact ((T₂.handed_of_drained hnil₂ hp₂).trans (List.Perm.of_eq ht₂)).trans hperm.symm

end Node

/-! ### Three blocks, forwards and backwards -/

namespace Instance

/-- Three blocks in a chain; the certificate of the third is on the first. -/
def chainBlocks : List HotstuffBlockWire :=
  [blockOn 0#256 (certificate [] 0#256) [],
    blockOn 1#256 (certificate [] 0#256) [],
    blockOn 1001#256 (certificate [0, 1, 2] 1#256) []]

def chainDepth (h : Hash) : ℕ :=
  if h = 0#256 then 0 else if h = 1#256 then 1 else if h = 1001#256 then 2 else 3

/-- The check of `validate_hotstuff` on a block from the wire. -/
def validCheck (C : Crypto) (c : ReplicaConfig) (wire : HotstuffBlockWire) : Bool :=
  match (HotstuffBlock.receiveBlock C wire 0).validateHotstuff C c with
  | .ok v => v
  | .error _ => false

/-- Where a block came from does not matter to the check. -/
theorem valid_of_check {C : Crypto} {c : ReplicaConfig} {wire : HotstuffBlockWire}
    (h : validCheck C c wire = true) (source : ReplicaID) :
    (HotstuffBlock.receiveBlock C wire source).validateHotstuff C c = .ok true := by
  have hsame : (HotstuffBlock.receiveBlock C wire source).validateHotstuff C c =
      (HotstuffBlock.receiveBlock C wire 0).validateHotstuff C c := rfl
  rw [hsame]
  unfold validCheck at h
  split at h
  · rename_i v hv
    rw [hv, h]
  · cases h

theorem valid_chainBlocks : ∀ b ∈ chainBlocks, validCheck crypto (config 4) b = true := by
  decide +kernel

/-- Genesis, or a block of the chain. -/
def chainHash (h : Hash) : Bool :=
  h == 0#256 || chainBlocks.any fun b => crypto.hashHeader b.header == h

theorem closed_chainBlocks : ∀ b ∈ chainBlocks,
    chainHash b.header.parentHash = true ∧ chainHash b.header.qc.justify = true := by
  decide +kernel

theorem hasHash_of_chainHash {h : Hash} (hh : chainHash h = true) :
    h = 0#256 ∨ ∃ b ∈ chainBlocks, crypto.hashHeader b.header = h := by
  simpa [chainHash] using hh

theorem injOn_chainBlocks : ∀ b ∈ chainBlocks, ∀ b' ∈ chainBlocks,
    crypto.hashHeader b.header = crypto.hashHeader b'.header → b.header = b'.header := by
  decide +kernel

theorem ne_zero_chainBlocks : ∀ b ∈ chainBlocks, crypto.hashHeader b.header ≠ 0#256 := by
  decide +kernel

theorem depth_chainBlocks : ∀ b ∈ chainBlocks,
    chainDepth b.header.parentHash < chainDepth (crypto.hashHeader b.header) ∧
      chainDepth b.header.qc.justify < chainDepth (crypto.hashHeader b.header) := by
  decide +kernel

def chainSet : BlockSet (setup 4 0) where
  blocks := chainBlocks
  valid := fun b hb source => valid_of_check (valid_chainBlocks b hb) source
  closed := by
    rintro b hb h (rfl | rfl)
    · exact hasHash_of_chainHash (closed_chainBlocks b hb).1
    · exact hasHash_of_chainHash (closed_chainBlocks b hb).2
  injOn := injOn_chainBlocks
  ne_zero := ne_zero_chainBlocks
  depth := chainDepth
  depth_lt := by
    rintro b hb h (rfl | rfl)
    · exact (depth_chainBlocks b hb).1
    · exact (depth_chainBlocks b hb).2

/-- The test of `Gathers` on an action. -/
def gathersCheck (E : Setup V) (B : BlockSet E) : Node.Action → Bool
  | .replica (.proposeMessage proposal proposer) =>
    B.blocks.contains proposal && E.config.isValidReplica proposer
  | .replica (.voteMessage vote voter) =>
    B.blocks.any (fun b => E.crypto.hashHeader b.header == vote.hash) &&
      E.config.isValidReplica voter &&
      match E.config.getInfo voter with
      | .ok info => PartialCertificate.validate E.crypto vote info
      | .error _ => false
  | .replica .doPropose => false
  | .replica .doEmptyPropose => false
  | .fetchReply _ responses => responses.all B.blocks.contains
  | _ => true

theorem gathers_of_check {B : BlockSet E} {a : Node.Action} (h : gathersCheck E B a = true) :
    Node.Gathers B a := by
  cases a with
  | replica i =>
      cases i with
      | proposeMessage proposal proposer => simpa [gathersCheck, Node.Gathers] using h
      | voteMessage vote voter =>
          simp only [gathersCheck, Bool.and_eq_true, List.any_eq_true, beq_iff_eq] at h
          obtain ⟨⟨hset, hvalid⟩, hsig⟩ := h
          refine ⟨hset, hvalid, ?_⟩
          split at hsig
          · rename_i info hinfo
            exact ⟨info, hinfo, hsig⟩
          · cases hsig
      | doPropose => cases h
      | doEmptyPropose => cases h
      | _ => trivial
  | fetchReply rid responses => simpa [gathersCheck, Node.Gathers] using h
  | _ => trivial

/-- The proposals of the three blocks. -/
def chainProposals : List Node.Action :=
  chainBlocks.map fun b => .replica (.proposeMessage b 1)

/-- A vote on the second block. -/
def chainVote : Node.Action :=
  .replica (.voteMessage (PartialCertificate.create crypto 1001#256 2) 2)

/-- Each message is run as it arrives. -/
def forwards : List Node.Action := (chainProposals ++ [chainVote]).flatMap fun a => a :: runNext

/-- The vote first, then the last block, an answer with the second block, and the others. -/
def backwards : List Node.Action :=
  ([chainVote] ++ chainProposals.reverse.take 1).flatMap (fun a => a :: runNext) ++
    [.sendFetch 2, .fetchReply 2 (chainBlocks.drop 1), .takeReply 2] ++ runNext ++
    chainProposals.reverse.drop 1

theorem gathers_chain : ∀ a ∈ forwards ++ backwards, Node.Gathers chainSet a := by
  have h : ∀ a ∈ forwards ++ backwards, gathersCheck (setup 4 0) chainSet a = true := by
    decide +kernel
  exact fun a ha => gathers_of_check (h a ha)

theorem exists_of_runs (E : Setup V) (actions : List Node.Action)
    (h : (observeNode E actions fun _ => ()).isSome = true) :
    ∃ s, runList (Node.step E) actions (Node.start E) = .ok s := by
  unfold observeNode at h
  split at h
  · cases h
  · rename_i s hs
    exact ⟨s, hs⟩

end Instance

/-- Forwards and backwards, the three blocks and the vote lead to the same store. -/
theorem Node.arrival_order_chain : ∃ s₁ s₂ : Node Unit,
    runList (Node.step (Instance.setup 4 0)) Instance.forwards
      (Node.start (Instance.setup 4 0)) = .ok s₁ ∧
    runList (Node.step (Instance.setup 4 0)) Instance.backwards
      (Node.start (Instance.setup 4 0)) = .ok s₂ ∧
    ∃ t₁ t₂, Node.Drains (Instance.setup 4 0) s₁ t₁ ∧ Node.Drains (Instance.setup 4 0) s₂ t₂ ∧
      ∀ h, t₁.storeView h = t₂.storeView h := by
  obtain ⟨s₁, h₁⟩ := Instance.exists_of_runs (Instance.setup 4 0) Instance.forwards (by decide +kernel)
  obtain ⟨s₂, h₂⟩ := Instance.exists_of_runs (Instance.setup 4 0) Instance.backwards (by decide +kernel)
  have hperm : (Node.arrivals Instance.forwards).Perm (Node.arrivals Instance.backwards) := by
    decide +kernel
  have hproposed : Node.AllProposed Instance.chainSet (Node.arrivals Instance.forwards) := by
    have h : ∀ b ∈ Instance.chainBlocks,
        .proposal b.header 1 ∈ Node.arrivals Instance.forwards := by
      decide +kernel
    exact fun b hb => ⟨1, h b hb⟩
  obtain ⟨⟨t₁, hd₁⟩, ⟨t₂, hd₂⟩, hsame⟩ := Node.arrival_order Instance.chainSet
    (fun a ha => Instance.gathers_chain a (List.mem_append_left _ ha))
    (fun a ha => Instance.gathers_chain a (List.mem_append_right _ ha)) hperm hproposed h₁ h₂
  exact ⟨s₁, s₂, h₁, h₂, t₁, t₂, hd₁, hd₂, (hsame t₁ t₂ hd₁ hd₂).1⟩

end Fred.Hotstuff
