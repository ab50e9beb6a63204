/-
# Fred.Hotstuff.Gathering -- a node that gathers a closed set of blocks

The blocks of a `BlockSet` and votes on them arrive at a node in any order, with fetch answers in
between. What waits, waits for a block that is closer to genesis than the one it is about
(`Gathered.waits`), so with an empty queue nothing can wait: the least block that is missing would have
its proposal at no place (`Gathered.stored_of_drained`).
-/
import Fred.Hotstuff.Placement

namespace Fred.Hotstuff

open Fred.Transition

variable {V : Type} {E : Setup V}

/-! ## The blocks and the messages -/

/-- The header names the hash, as its parent or as the block its certificate is on. -/
def HotstuffBlockHeader.Names (b : HotstuffBlockHeader) (h : Hash) : Prop :=
  h = b.parentHash ∨ h = b.qc.justify

/-- Finitely many valid blocks, closed under parent and certified block. Hashes tell the headers
apart, and no block is among the blocks its own header leads to. -/
structure BlockSet (E : Setup V) where
  blocks : List HotstuffBlockWire
  valid : ∀ b ∈ blocks, ∀ source,
    (HotstuffBlock.receiveBlock E.crypto b source).validateHotstuff E.crypto E.config = .ok true
  closed : ∀ b ∈ blocks, ∀ h, b.header.Names h →
    h = 0#256 ∨ ∃ b' ∈ blocks, E.crypto.hashHeader b'.header = h
  injOn : ∀ b ∈ blocks, ∀ b' ∈ blocks,
    E.crypto.hashHeader b.header = E.crypto.hashHeader b'.header → b.header = b'.header
  ne_zero : ∀ b ∈ blocks, E.crypto.hashHeader b.header ≠ 0#256
  /-- A block is deeper than the blocks its header names. -/
  depth : Hash → ℕ
  depth_lt : ∀ b ∈ blocks, ∀ h, b.header.Names h → depth h < depth (E.crypto.hashHeader b.header)

/-- The hash of a block of the set. -/
def BlockSet.HasHash (B : BlockSet E) (h : Hash) : Prop :=
  ∃ b ∈ B.blocks, E.crypto.hashHeader b.header = h

/-- A `ProposeMessage`, told by its header, or a `VoteMessage`. -/
inductive Message where
  | proposal (header : HotstuffBlockHeader) (proposer : ReplicaID)
  | vote (cert : PartialCertificateWire) (voter : ReplicaID)
  deriving DecidableEq, Repr

namespace Node

variable {s s' : Node V} {c : Copy} {B : BlockSet E}

/-- The message that arrives with an action. -/
def Action.message : Action → Option Message
  | .replica (.proposeMessage proposal proposer) => some (.proposal proposal.header proposer)
  | .replica (.voteMessage vote voter) => some (.vote vote voter)
  | _ => none

/-- The messages that arrive in the course of a run. -/
def arrivals (actions : List Action) : List Message := actions.filterMap Action.message

/-- What may happen: blocks of the set and valid votes on them arrive from configured replicas, answers
hold blocks of the set, and this replica does not propose. -/
def Gathers (B : BlockSet E) : Action → Prop
  | .replica (.proposeMessage proposal proposer) =>
    proposal ∈ B.blocks ∧ E.config.isValidReplica proposer = true
  | .replica (.voteMessage vote voter) => B.HasHash vote.hash ∧
    E.config.isValidReplica voter = true ∧ ∃ info, E.config.getInfo voter = .ok info ∧
      PartialCertificate.validate E.crypto vote info = true
  | .replica .doPropose => False
  | .replica .doEmptyPropose => False
  | .fetchReply _ responses => ∀ wire ∈ responses, wire ∈ B.blocks
  | _ => True

/-- The message a copy was made from. -/
def copyMessage (h : Heap) (c : Copy) : Option Message :=
  match c.event with
  | .vote cert voter => some (.vote cert voter)
  | .proposal p proposer => some (.proposal (h.header p) proposer)
  | .blockReceive _ _ => none

/-- The messages accepted so far. -/
def messages (s : Node V) : List Message := s.accepted.filterMap (copyMessage s.replica.heap)

/-- The messages the core has been handed. -/
def handedMessages (s : Node V) : List Message := s.handed.filterMap (copyMessage s.replica.heap)

/-! ## What waits, and for what -/

/-- The copy is about a block that is deeper than `h`; a vote may be on the block itself. -/
def Above (B : BlockSet E) (s : Node V) (c : Copy) (h : Hash) : Prop :=
  match c.event with
  | .vote cert _ => B.depth h ≤ B.depth cert.hash
  | .proposal p _ => B.depth h < B.depth (s.replica.heap.hash p)
  | .blockReceive p _ => B.depth h < B.depth (s.replica.heap.hash p)

theorem Above.of_brings {p : BlockPtr} {source : ReplicaID} (hc : c.event.Brings p source) {h : Hash}
    (hlt : B.depth h < B.depth (s.replica.heap.hash p)) : Above B s c h := by
  unfold Above
  rcases hc with hc | hc <;> rw [hc] <;> exact hlt

theorem Above.trans {h h' : Hash} (hc : Above B s c h) (hlt : B.depth h' < B.depth h) :
    Above B s c h' := by
  unfold Above at hc ⊢
  split at hc <;> omega

/-- What holds of a node that gathers the set. -/
structure Gathered (B : BlockSet E) (s : Node V) : Prop where
  placed : Placed E s
  headers : ∀ p, p ≠ genesisPtr → p < s.replica.heap.next →
    ∃ b ∈ B.blocks, s.replica.heap.header p = b.header
  votes : ∀ cert voter, .vote cert voter ∈ s.replica.netEvents → B.HasHash cert.hash
  answers : ∀ rid req responses, (s.fetcher.workers rid).round = .replied req responses →
    ∀ wire ∈ responses, wire ∈ B.blocks
  missing : ∀ h ctx, s.fetcher.outstandingReqs.lookup h = some ctx →
    s.replica.blockStore.blockCache h = none ∧ B.HasHash h
  waits : ∀ h, ∀ c ∈ s.eventsAt (.request h), Above B s c h
  handed : ∀ c ∈ s.handed, ∀ p source, c.event.Brings p source →
    ∃ q, s.replica.blockStore.blockCache (s.replica.heap.hash p) = some q

namespace Gathered

theorem start (B : BlockSet E) : Gathered B (Node.start E) where
  placed := Placed.start E
  headers := fun _ hp hlt => absurd (Nat.lt_one_iff.mp hlt) hp
  votes := fun _ _ h => absurd h List.not_mem_nil
  answers := fun _ _ _ h => by cases h
  missing := fun _ _ h => by cases h
  waits := fun _ _ h => absurd h List.not_mem_nil
  handed := fun _ h => absurd h List.not_mem_nil

theorem hash_eq (G : Gathered B s) {p : BlockPtr} (hp : p ≠ genesisPtr)
    (hlt : p < s.replica.heap.next) :
    s.replica.heap.hash p = E.crypto.hashHeader (s.replica.heap.header p) :=
  G.placed.wellFormed.shape.hash_eq p hp hlt

theorem hasHash (G : Gathered B s) {p : BlockPtr} (hp : p ≠ genesisPtr)
    (hlt : p < s.replica.heap.next) : B.HasHash (s.replica.heap.hash p) := by
  obtain ⟨b, hb, hheader⟩ := G.headers p hp hlt
  exact ⟨b, hb, by rw [G.hash_eq hp hlt, hheader]⟩

/-- What the header of an object names is closer to genesis, and is genesis or in the set. -/
theorem names (G : Gathered B s) {p : BlockPtr} (hp : p ≠ genesisPtr)
    (hlt : p < s.replica.heap.next) {h : Hash} (hn : (s.replica.heap.header p).Names h) :
    B.depth h < B.depth (s.replica.heap.hash p) ∧ (h = 0#256 ∨ B.HasHash h) := by
  obtain ⟨b, hb, hheader⟩ := G.headers p hp hlt
  rw [G.hash_eq hp hlt, hheader]
  rw [hheader] at hn
  exact ⟨B.depth_lt b hb h hn, B.closed b hb h hn⟩

/-- A hash the header of an object names, where the store has no block for it. -/
theorem of_lacks (G : Gathered B s) {p : BlockPtr} (hp : p ≠ genesisPtr)
    (hlt : p < s.replica.heap.next) {h : Hash} (hl : s.Lacks p h) :
    B.depth h < B.depth (s.replica.heap.hash p) ∧ B.HasHash h := by
  obtain ⟨hdepth, hzero | hset⟩ := G.names hp hlt hl.2
  · have hnone := hl.1
    rw [hzero, G.placed.wellFormed.shape.cache_genesis] at hnone
    cases hnone
  · exact ⟨hdepth, hset⟩

end Gathered

/-! ## One event -/

theorem eventsAt_request {h : Hash} : c ∈ s.eventsAt (.request h) ↔
    ∃ ctx, s.fetcher.outstandingReqs.lookup h = some ctx ∧ c ∈ ctx.dependentNetworkEvents := by
  unfold eventsAt
  dsimp only
  split
  · rename_i hl
    simp [hl]
  · rename_i ctx hl
    simp [hl]

/-- The events a request waits with after `addFetchRequest`. -/
theorem mem_dependent_addFetchRequest {m : BlockFetchManager} {h x : Hash} {target : ReplicaID}
    {es : List Copy} {ctx : RequestContext} (hvalid : E.config.isValidReplica target = true)
    (hx : (m.addFetchRequest E.config h target es).outstandingReqs.lookup x = some ctx)
    (hc : c ∈ ctx.dependentNetworkEvents) :
    (x = h ∧ c ∈ es) ∨
      ∃ ctx', m.outstandingReqs.lookup x = some ctx' ∧ c ∈ ctx'.dependentNetworkEvents := by
  rw [BlockFetchManager.lookup_addFetchRequest hvalid] at hx
  split at hx
  · rename_i hxh
    subst hxh
    rw [← Option.some.inj hx] at hc
    rcases List.mem_append.mp hc with hc | hc
    · rcases hl : m.outstandingReqs.lookup x with _ | ctx'
      · rw [hl] at hc
        cases hc
      · rw [hl] at hc
        exact Or.inr ⟨ctx', rfl, hc⟩
    · exact Or.inl ⟨rfl, hc⟩
  · exact Or.inr ⟨ctx, hx, hc⟩

theorem outstanding_addFetchRequest {m : BlockFetchManager} {h x : Hash} {target : ReplicaID}
    {es : List Copy} {ctx : RequestContext} (hvalid : E.config.isValidReplica target = true)
    (hx : (m.addFetchRequest E.config h target es).outstandingReqs.lookup x = some ctx) :
    x = h ∨ ∃ ctx', m.outstandingReqs.lookup x = some ctx' := by
  rw [BlockFetchManager.lookup_addFetchRequest hvalid] at hx
  split at hx
  · rename_i hxh
    exact Or.inl hxh
  · exact Or.inr ⟨ctx, hx⟩

/-- What is still outstanding after a delivery was so before, and is about another block. -/
theorem lookup_of_deliverBlock {m : BlockFetchManager} {h x : Hash} {ctx : RequestContext}
    (hx : (m.deliverBlock h).2.outstandingReqs.lookup x = some ctx) :
    x ≠ h ∧ m.outstandingReqs.lookup x = some ctx := by
  rw [BlockFetchManager.lookup_deliverBlock] at hx
  split at hx
  · cases hx
  · rename_i hne
    exact ⟨hne, hx⟩

/-- What a delivery releases has waited for the block. -/
theorem mem_deliverBlock {h : Hash} (hc : c ∈ (s.fetcher.deliverBlock h).1) :
    c ∈ s.eventsAt (.request h) := by
  unfold BlockFetchManager.deliverBlock at hc
  split at hc
  · cases hc
  · rename_i ctx hctx
    exact eventsAt_request.mpr ⟨ctx, hctx, hc⟩

/-- The three facts of `Gathered` that an event can change. -/
structure Waiting (B : BlockSet E) (s : Node V) : Prop where
  missing : ∀ h ctx, s.fetcher.outstandingReqs.lookup h = some ctx →
    s.replica.blockStore.blockCache h = none ∧ B.HasHash h
  waits : ∀ h ctx, s.fetcher.outstandingReqs.lookup h = some ctx →
    ∀ c ∈ ctx.dependentNetworkEvents, Above B s c h
  handed : ∀ c ∈ s.handed, ∀ p source, c.event.Brings p source →
    ∃ q, s.replica.blockStore.blockCache (s.replica.heap.hash p) = some q

namespace Waiting

/-- A request for a missing block, on behalf of events that are about deeper ones. -/
theorem addFetchRequest (w : Waiting B s) {h : Hash} {target : ReplicaID} {es : List Copy}
    (hvalid : E.config.isValidReplica target = true)
    (hnone : s.replica.blockStore.blockCache h = none) (hset : B.HasHash h)
    (hes : ∀ c ∈ es, Above B s c h) : Waiting B (s.addFetchRequest E h target es) := by
  refine ⟨fun x ctx hx => ?_, fun x ctx hx c hc => ?_, w.handed⟩
  · rcases outstanding_addFetchRequest hvalid hx with rfl | ⟨ctx', hx'⟩
    · exact ⟨hnone, hset⟩
    · exact w.missing x ctx' hx'
  · rcases mem_dependent_addFetchRequest hvalid hx hc with ⟨rfl, hc⟩ | ⟨ctx', hx', hc'⟩
    · exact hes c hc
    · exact w.waits x ctx' hx' c hc'

/-- Taking the request for a block out of the manager. -/
theorem deliverBlock (w : Waiting B s) (h : Hash) :
    Waiting B { s with fetcher := (s.fetcher.deliverBlock h).2 } :=
  ⟨fun x ctx hx => w.missing x ctx (lookup_of_deliverBlock hx).2,
    fun x ctx hx => w.waits x ctx (lookup_of_deliverBlock hx).2, w.handed⟩

/-- A block that is complete is stored, and nothing waits for it. -/
theorem deliver (w : Waiting B s) (p q j : BlockPtr) : Waiting B (s.deliver p q j) := by
  have hhash : ∀ x, (s.deliver p q j).replica.heap.hash x = s.replica.heap.hash x :=
    Heap.hash_link _ _ _ _
  refine ⟨fun x ctx hx => ?_, fun x ctx hx c hc => ?_, fun c hc x source hb => ?_⟩
  · obtain ⟨hne, hx⟩ := lookup_of_deliverBlock hx
    obtain ⟨hnone, hset⟩ := w.missing x ctx hx
    refine ⟨?_, hset⟩
    show (if x = s.replica.heap.hash p then _ else s.replica.blockStore.blockCache x) = none
    rw [if_neg hne]
    exact hnone
  · have hold := w.waits x ctx (lookup_of_deliverBlock hx).2 c hc
    unfold Above at hold ⊢
    simp only [hhash]
    exact hold
  · rw [hhash]
    obtain ⟨r, hr⟩ := w.handed c hc x source hb
    exact ⟨r, BlockStore.blockCache_emplace_of_some hr⟩

theorem handOver (w : Waiting B s) {e : Event}
    (hc : ∀ p source, c.event.Brings p source →
      ∃ q, s.replica.blockStore.blockCache (s.replica.heap.hash p) = some q) :
    Waiting B (s.handOver c e) := by
  refine ⟨w.missing, w.waits, fun d hd p source hb => ?_⟩
  rcases List.mem_append.mp hd with hd | hd
  · exact w.handed d hd p source hb
  · rw [List.mem_singleton.mp hd] at hb
    exact hc p source hb

end Waiting

theorem cached_deliver (p q j : BlockPtr) (s : Node V) :
    ∃ r, (s.deliver p q j).replica.blockStore.blockCache
      ((s.deliver p q j).replica.heap.hash p) = some r := by
  refine ⟨(s.replica.blockStore.blockCache (s.replica.heap.hash p)).getD p, ?_⟩
  show (if (s.replica.heap.link p q j).hash p = s.replica.heap.hash p then _ else _) = _
  rw [if_pos (Heap.hash_link _ _ _ _ _)]

/-- **Running an event keeps what waits above what it waits for.** -/
theorem OnEventOk.waiting (G : Gathered B s) (hc : c.event ∈ s.replica.netEvents)
    {rest : List Copy} (h : OnEventOk E c { s with workList := rest } s') : Waiting B s' := by
  have w : Waiting B { s with workList := rest } := ⟨G.missing, fun x ctx hx d hd =>
    G.waits x d (eventsAt_request.mpr ⟨ctx, hx, hd⟩), G.handed⟩
  have hvalid := G.placed.sources _ hc
  have hok := G.placed.wellFormed.netEvents _ hc
  cases h with
  | vote hev _ =>
      refine w.handOver fun p source hb => ?_
      rcases hb with hb | hb <;> rw [hev] at hb <;> cases hb
  | @unknownVote cert voter hev hnone =>
      rw [hev] at hvalid hc
      refine w.addFetchRequest hvalid hnone (G.votes cert voter hc) fun d hd => ?_
      rw [List.mem_singleton.mp hd]
      unfold Above
      rw [hev]
  | @proposal p q j proposer hev _ =>
      refine (w.deliver p q j).handOver fun p' source hb => ?_
      rw [NetEvent.Brings.inj (Or.inl hev) hb]
      exact cached_deliver p q j _
  | @receive p q j _ _ _ => exact w.deliver p q j
  | @parked p source wait also hev hwait halso _ =>
      rw [hev.source_eq] at hvalid
      obtain ⟨hp, hlt⟩ := hev.ok hok
      obtain ⟨hdepth, hset⟩ := G.of_lacks hp hlt hwait
      have w₁ := w.deliverBlock (s.replica.heap.hash p)
      have hes : ∀ d ∈ (s.fetcher.deliverBlock (s.replica.heap.hash p)).1 ++ [c],
          Above B s d wait := by
        intro d hd
        rcases List.mem_append.mp hd with hd | hd
        · -- it waited for the block and now waits for what the block lacks
          exact (G.waits _ d (mem_deliverBlock hd)).trans hdepth
        · rw [List.mem_singleton.mp hd]
          exact Above.of_brings hev hdepth
      have w₂ := w₁.addFetchRequest hvalid hwait.1 hset hes
      cases also with
      | none => exact w₂
      | some x =>
          obtain ⟨-, hset'⟩ := G.of_lacks hp hlt (halso x rfl)
          exact w₂.addFetchRequest hvalid (halso x rfl).1 hset' fun d hd => absurd hd List.not_mem_nil

/-! ## A step -/

/-- The copies a node has are about objects that exist. -/
theorem Placed.ok_of_copies (P : Placed E s) (hc : c ∈ s.copies) : c.event.Ok s.replica.heap :=
  P.wellFormed.netEvents _ (P.mem_netEvents hc)

theorem mem_copies_of_request {h : Hash} (hc : c ∈ s.eventsAt (.request h)) : c ∈ s.copies :=
  List.mem_append_left _ (List.mem_append_right _ (mem_parked_of_request hc))

/-- A copy reads as the same message once objects keep their labels. -/
theorem copyMessage_eq {h h' : Heap} (hok : c.event.Ok h)
    (hlabel : ∀ p, p < h.next → h'.label p = h.label p) : copyMessage h' c = copyMessage h c := by
  unfold copyMessage
  split
  · rfl
  · rename_i p proposer hev
    rw [hev] at hok
    rw [Heap.header_of_label (hlabel p hok.2)]
  · rfl

theorem filterMap_copyMessage_eq {h h' : Heap} {l : List Copy} (hok : ∀ c ∈ l, c.event.Ok h)
    (hlabel : ∀ p, p < h.next → h'.label p = h.label p) :
    l.filterMap (copyMessage h') = l.filterMap (copyMessage h) :=
  List.filterMap_congr fun c hc => copyMessage_eq (hok c hc) hlabel

theorem Placed.ok_of_accepted (P : Placed E s) (hc : c ∈ s.accepted) :
    c.event.Ok s.replica.heap :=
  P.wellFormed.netEvents _ (mem_copiesFrom hc)

/-- The messages after a step of the replica. -/
theorem messages_withReplica (P : Placed E s) {i : Input} {r : Replica V}
    (hstep : Hotstuff.step E i s.replica = .ok r) {new : List NetEvent}
    (hnew : r.netEvents = s.replica.netEvents ++ new) : (s.withReplica r).messages = s.messages ++
      (copiesFrom s.replica.netEvents.length r.netEvents).filterMap (copyMessage r.heap) := by
  have hlabel := fun p hp => label_step P.wellFormed hstep (p := p) hp
  unfold messages
  rw [accepted_withReplica hnew, List.filterMap_append]
  congr 1
  exact filterMap_copyMessage_eq (fun c hc => P.ok_of_accepted hc) hlabel

namespace Gathered

/-- A step of the replica that stores no block. -/
theorem withReplica (G : Gathered B s) {i : Input} {r : Replica V}
    (hstep : Hotstuff.step E i s.replica = .ok r)
    (hsender : ∀ wire rid, i = .fetchResponse wire rid → E.config.isValidReplica rid = true)
    (hcache : r.blockStore.blockCache = s.replica.blockStore.blockCache)
    (hnew : ∀ p, s.replica.heap.next ≤ p → p < r.heap.next →
      ∃ b ∈ B.blocks, r.heap.header p = b.header)
    (hvotes : ∀ cert voter, .vote cert voter ∈ r.netEvents → B.HasHash cert.hash) :
    Gathered B (s.withReplica r) := by
  have hlabel := fun p hp => label_step G.placed.wellFormed hstep (p := p) hp
  refine ⟨G.placed.withReplica hstep hsender, ?_, hvotes, G.answers, ?_, ?_, ?_⟩
  · intro p hp hlt
    by_cases hold : p < s.replica.heap.next
    · obtain ⟨b, hb, hheader⟩ := G.headers p hp hold
      exact ⟨b, hb, (Heap.header_of_label (hlabel p hold)).trans hheader⟩
    · exact hnew p (Nat.not_lt.mp hold) hlt
  · intro h ctx hl
    obtain ⟨hnone, hset⟩ := G.missing h ctx hl
    exact ⟨(congrFun hcache h).trans hnone, hset⟩
  · intro h c hc
    have hw := G.waits h c hc
    have hok := G.placed.ok_of_copies (mem_copies_of_request hc)
    have hhash : ∀ p, p < s.replica.heap.next → r.heap.hash p = s.replica.heap.hash p :=
      fun p hp => Heap.hash_of_label (hlabel p hp)
    unfold Above at hw ⊢
    split at hw
    · exact hw
    · rename_i p proposer hev
      rw [hev] at hok
      exact (hhash p hok.2).symm ▸ hw
    · rename_i p sender hev
      rw [hev] at hok
      exact (hhash p hok.2).symm ▸ hw
  · intro c hc p source hb
    have hok := G.placed.ok_of_copies (List.mem_append_right _ hc)
    obtain ⟨q, hq⟩ := G.handed c hc p source hb
    refine ⟨q, ?_⟩
    show r.blockStore.blockCache (r.heap.hash p) = some q
    rw [hcache, Heap.hash_of_label (hlabel p (hb.ok hok).2)]
    exact hq

/-- A change at a worker that leaves it with blocks of the set. -/
theorem modifyWorker (G : Gathered B s) {rid : ReplicaID} {f : BlockFetchWorker → BlockFetchWorker}
    (hplaced : Placed E (s.modifyWorker rid f))
    (hf : ∀ req responses, (f (s.fetcher.workers rid)).round = .replied req responses →
      ∀ wire ∈ responses, wire ∈ B.blocks) : Gathered B (s.modifyWorker rid f) := by
  refine ⟨hplaced, G.headers, G.votes, ?_, G.missing, G.waits, G.handed⟩
  intro x req responses hround
  have hround' : (Function.update s.fetcher.workers rid (f (s.fetcher.workers rid)) x).round =
    .replied req responses := hround
  by_cases hx : x = rid
  · subst hx
    rw [Function.update_self] at hround'
    exact hf req responses hround'
  · rw [Function.update_of_ne hx] at hround'
    exact G.answers x req responses hround'

/-- A block of the set that has been accepted. -/
theorem accepted (G : Gathered B s) {i : Input} {wire : HotstuffBlockWire} {source : ReplicaID}
    {event : BlockPtr → NetEvent} (hwire : wire ∈ B.blocks)
    (hstep : Hotstuff.step E i s.replica = .ok (s.replica.accepted E wire source event))
    (hsender : ∀ wire rid, i = .fetchResponse wire rid → E.config.isValidReplica rid = true)
    (hevent : ∀ p cert voter, event p ≠ .vote cert voter) :
    Gathered B (s.withReplica (s.replica.accepted E wire source event)) := by
  refine G.withReplica hstep hsender rfl ?_ ?_
  · intro p hle hlt
    obtain rfl : p = s.replica.heap.next := Nat.le_antisymm (Nat.le_of_lt_succ hlt) hle
    refine ⟨wire, hwire, ?_⟩
    show ((s.replica.heap.alloc _).get s.replica.heap.next).wireBlock.header = _
    rw [Heap.get_alloc_next]
    rfl
  · intro cert voter hmem
    rcases List.mem_append.mp hmem with hmem | hmem
    · exact G.votes cert voter hmem
    · exact absurd (List.mem_singleton.mp hmem).symm (hevent _ cert voter)

end Gathered

/-- The copies that a step adds. -/
theorem copiesFrom_singleton (l : List NetEvent) (e : NetEvent) :
    copiesFrom l.length (l ++ [e]) = [⟨l.length, e⟩] := by
  unfold copiesFrom
  rw [List.zipIdx_append, List.drop_left' (by simp)]
  simp

/-- An input that brings no message leaves accepted events, objects and store as they are. -/
theorem quiet_step {i : Input} {r r' : Replica V} (W : WellFormed E r)
    (hi : i = .collect ∨ i = .runVm ∨ ∃ schedule, i = .event schedule)
    (h : Hotstuff.step E i r = .ok r') : r'.netEvents = r.netEvents ∧ r'.heap.next = r.heap.next ∧
      r'.blockStore.blockCache = r.blockStore.blockCache := by
  cases step_form W h with
  | idle => exact ⟨rfl, rfl, rfl⟩
  | @voteEvent schedule cert b rid rest qc _ hqc =>
      have hcores := Replica.voted_sameCores
        (E := E) (s := { r with eventQueue := rest, schedule := schedule }) hqc
      obtain ⟨hstore, hnet, -⟩ := Replica.voted_keeps (E := E) b qc
        { r with eventQueue := rest, schedule := schedule }
      exact ⟨hnet, hcores.next_eq, congrArg BlockStore.blockCache hstore⟩
  | proposalEvent hstep =>
      have F := (hstep.frame W).1
      exact ⟨F.netEvents_eq, F.cores.next_eq, F.cache_eq⟩
  | collect =>
      have C := Replica.collect_spec W.collector
      exact ⟨C.keeps.netEvents_eq, C.flushed.1, C.keeps.cache_eq⟩
  | runVm => exact ⟨rfl, rfl, rfl⟩
  | propose hi' => rcases hi with rfl | rfl | ⟨_, rfl⟩ <;> rcases hi' with ⟨h, -⟩ | ⟨h, -⟩ <;> cases h
  | _ => rcases hi with h | h | ⟨_, h⟩ <;> cases h

/-- A step of the replica takes in the message that arrives with it, and no other. -/
theorem Gathered.replica_step (G : Gathered B s) {i : Input} {r : Replica V}
    (hown : ownInput i = true) (hP : Gathers B (.replica i))
    (hstep : Hotstuff.step E i s.replica = .ok r) : Gathered B (s.withReplica r) ∧
      (s.withReplica r).messages = s.messages ++ (Action.message (.replica i)).toList := by
  have hquiet : i = .collect ∨ i = .runVm ∨ (∃ schedule, i = .event schedule) →
      Gathered B (s.withReplica r) ∧ (s.withReplica r).messages = s.messages := by
    intro hi
    obtain ⟨hnet, hnext, hcache⟩ := quiet_step G.placed.wellFormed hi hstep
    refine ⟨G.withReplica hstep ?_ hcache ?_ (hnet ▸ G.votes), ?_⟩
    · rintro wire rid rfl
      cases hown
    · exact fun p hle hlt => absurd (hnext ▸ hlt) (Nat.not_lt.mpr hle)
    · have hnone : copiesFrom s.replica.netEvents.length r.netEvents = [] := by
        unfold copiesFrom
        rw [hnet, List.drop_of_length_le (by simp)]
        rfl
      rw [messages_withReplica G.placed hstep (hnet.trans (List.append_nil _).symm), hnone]
      simp
  cases i with
  | proposeMessage wire proposer =>
      obtain ⟨hwire, hvalid⟩ := hP
      have hacc : Hotstuff.step E (.proposeMessage wire proposer) s.replica =
          .ok (s.replica.accepted E wire proposer (.proposal · proposer)) := by
        unfold Hotstuff.step Replica.receivePropose Replica.acceptBlock
        simp only [hvalid, B.valid wire hwire proposer]
        rfl
      obtain rfl := Except.ok.inj (hacc.symm.trans hstep)
      refine ⟨G.accepted hwire hstep (fun _ _ h => by cases h) (fun _ _ _ h => by cases h), ?_⟩
      rw [messages_withReplica G.placed hstep rfl]
      show s.messages ++ (copiesFrom s.replica.netEvents.length (s.replica.netEvents ++
        [.proposal s.replica.heap.next proposer])).filterMap _ = _
      rw [copiesFrom_singleton]
      congr 1
      have hheader : (s.replica.accepted E wire proposer (.proposal · proposer)).heap.header
          s.replica.heap.next = wire.header := by
        show ((s.replica.heap.alloc _).get s.replica.heap.next).wireBlock.header = _
        rw [Heap.get_alloc_next]
        rfl
      simp [copyMessage, Action.message, hheader]
  | voteMessage cert voter =>
      obtain ⟨hset, hvalid, info, hinfo, hsig⟩ := hP
      have hacc : Hotstuff.step E (.voteMessage cert voter) s.replica =
          .ok { s.replica with netEvents := s.replica.netEvents ++ [.vote cert voter] } := by
        unfold Hotstuff.step Replica.receiveVote
        simp [hvalid, hinfo, hsig]
      obtain rfl := Except.ok.inj (hacc.symm.trans hstep)
      refine ⟨G.withReplica hstep (fun _ _ h => by cases h) rfl ?_ ?_, ?_⟩
      · exact fun p hle hlt => absurd hlt (Nat.not_lt.mpr hle)
      · intro cert' voter' hmem
        rcases List.mem_append.mp hmem with hmem | hmem
        · exact G.votes cert' voter' hmem
        · cases List.mem_singleton.mp hmem
          exact hset
      · rw [messages_withReplica G.placed hstep rfl]
        show s.messages ++ (copiesFrom s.replica.netEvents.length (s.replica.netEvents ++
          [.vote cert voter])).filterMap _ = _
        rw [copiesFrom_singleton]
        rfl
  | fetchResponse wire sender => cases hown
  | netEvent e => cases hown
  | event schedule => simpa [Action.message] using hquiet (Or.inr (Or.inr ⟨schedule, rfl⟩))
  | doPropose => exact hP.elim
  | doEmptyPropose => exact hP.elim
  | collect => simpa [Action.message] using hquiet (Or.inl rfl)
  | runVm => simpa [Action.message] using hquiet (Or.inr (Or.inl rfl))

end Node

end Fred.Hotstuff
