/-
# Fred.Hotstuff.Placement -- where an accepted event is

An accepted event is in the network queue, or parked with a fetch request, or with the core. Three
handlers move events between these places, and a block that arrives may be parked itself with all that
waited for it. `Placed` says that the copies at the three places are the accepted ones, each once, but
for the block receptions that have done their work.
-/
import Fred.Hotstuff.NetworkForms
import Fred.Hotstuff.Instance

namespace Fred.Hotstuff

open Fred.Transition

variable {V : Type} {E : Setup V}

/-- A vote or a proposal: an event that ends in the core. -/
def Copy.isWork (c : Copy) : Bool :=
  match c.event with
  | .blockReceive _ _ => false
  | _ => true

namespace Node

variable {s s' : Node V} {c : Copy}

/-- The network queue, with the batch that is being run. -/
def queued (s : Node V) : List Copy := s.workList ++ s.events

/-- Everything that is somewhere. -/
def copies (s : Node V) : List Copy := s.queued ++ s.fetcher.parked ++ s.handed

/-- Every event accepted so far, numbered. -/
def accepted (s : Node V) : List Copy := copiesFrom 0 s.replica.netEvents

/-! ## The accepted events -/

theorem copiesFrom_append (l new : List NetEvent) :
    copiesFrom 0 (l ++ new) = copiesFrom 0 l ++ copiesFrom l.length (l ++ new) := by
  have hnew : (l ++ new).zipIdx.drop l.length = new.zipIdx l.length := by
    rw [List.zipIdx_append, List.drop_left' (by simp)]
    simp
  unfold copiesFrom
  rw [hnew, List.drop_zero, List.drop_zero, ← List.map_append, List.zipIdx_append]
  simp

theorem mem_copiesFrom {l : List NetEvent} (h : c ∈ copiesFrom 0 l) : c.event ∈ l := by
  unfold copiesFrom at h
  obtain ⟨e, he, rfl⟩ := List.mem_map.mp h
  exact List.fst_mem_of_mem_zipIdx he

theorem nodup_copiesFrom (l : List NetEvent) : (copiesFrom 0 l).Nodup := by
  have hsnd : ((copiesFrom 0 l).map Copy.ticket).Nodup := by
    unfold copiesFrom
    rw [List.map_map]
    show (((l.zipIdx).drop 0).map Prod.snd).Nodup
    simp [List.nodup_range']
  exact hsnd.of_map

/-! ## The invariant -/

/-- **Nothing is lost and nothing is twice.** -/
structure Placed (E : Setup V) (s : Node V) : Prop where
  wellFormed : WellFormed E s.replica
  accepted : ∀ c ∈ s.copies, c ∈ s.accepted
  sources : ∀ e ∈ s.replica.netEvents, E.config.isValidReplica e.source = true
  workers : ∀ rid, E.config.isValidReplica rid = false → s.fetcher.workers rid = .init
  perm : (s.copies.filter Copy.isWork).Perm (s.accepted.filter Copy.isWork)

namespace Placed

theorem start (E : Setup V) : Placed E (Node.start E) where
  wellFormed := WellFormed.start E
  accepted := fun _ hc => absurd hc List.not_mem_nil
  sources := fun _ he => absurd he List.not_mem_nil
  workers := fun _ _ => rfl
  perm := List.Perm.refl _

theorem valid_of_round (P : Placed E s) (rid : ReplicaID)
    (hround : (s.fetcher.workers rid).round ≠ .idle) : E.config.isValidReplica rid = true := by
  by_contra hno
  rw [P.workers rid (by simpa using hno)] at hround
  exact hround rfl

theorem mem_netEvents (P : Placed E s) (hc : c ∈ s.copies) : c.event ∈ s.replica.netEvents :=
  mem_copiesFrom (P.accepted c hc)

end Placed

/-! ## One event -/

/-- The workers of other replicas than the configured ones are left alone. -/
theorem workers_addFetchRequest {m : BlockFetchManager} {h : Hash} {target : ReplicaID}
    {es : List Copy} {rid : ReplicaID} (hrid : E.config.isValidReplica rid = false) :
    (m.addFetchRequest E.config h target es).workers rid = m.workers rid := by
  unfold BlockFetchManager.addFetchRequest
  split
  · rfl
  · rename_i hvalid
    have hne : rid ≠ target := by
      rintro rfl
      simp [hrid] at hvalid
    dsimp only
    split
    · exact Function.update_of_ne hne _ _
    · rfl

theorem copies_parkOn {p : BlockPtr} {source : ReplicaID} {wait : Hash} {also : Option Hash}
    (hvalid : E.config.isValidReplica source = true) :
    (s.parkOn E c p source wait also).copies.Perm (c :: s.copies) := by
  have hrel := s.fetcher.parked_deliverBlock (s.replica.heap.hash p)
  set r := s.fetcher.deliverBlock (s.replica.heap.hash p) with hr
  have hwait : (r.2.addFetchRequest E.config wait source (r.1 ++ [c])).parked.Perm
      (s.fetcher.parked ++ [c]) := by
    refine (BlockFetchManager.parked_addFetchRequest hvalid wait _ _).trans ?_
    rw [← List.append_assoc]
    exact (List.perm_append_comm.trans hrel.symm).append_right [c]
  have hall : (s.parkOn E c p source wait also).fetcher.parked.Perm (s.fetcher.parked ++ [c]) := by
    cases also with
    | none => exact hwait
    | some x =>
        refine (BlockFetchManager.parked_addFetchRequest hvalid x [] _).trans ?_
        rw [List.append_nil]
        exact hwait
  show (s.queued ++ (s.parkOn E c p source wait also).fetcher.parked ++ s.handed).Perm _
  refine ((hall.append_left s.queued).append_right s.handed).trans ?_
  unfold copies
  rw [← List.append_assoc s.queued, List.append_assoc _ [c]]
  exact List.perm_middle

theorem copies_deliver (p q j : BlockPtr) (s : Node V) :
    (s.deliver p q j).copies.Perm s.copies := by
  have hrel := s.fetcher.parked_deliverBlock (s.replica.heap.hash p)
  show (s.workList ++ (s.events ++ _) ++ _ ++ s.handed).Perm _
  unfold copies queued
  refine List.Perm.append_right _ ?_
  rw [← List.append_assoc s.workList, List.append_assoc (s.workList ++ s.events)]
  exact hrel.symm.append_left _

theorem copies_handOver (c : Copy) (e : Event) (s : Node V) :
    (s.handOver c e).copies.Perm (c :: s.copies) := by
  show (s.queued ++ s.fetcher.parked ++ (s.handed ++ [c])).Perm _
  unfold copies
  rw [← List.append_assoc]
  exact List.perm_append_comm

/-- **Running an event puts it in one place and loses no other**; only a block reception is done
with. -/
theorem OnEventOk.copies_perm (hvalid : E.config.isValidReplica c.event.source = true)
    (h : OnEventOk E c s s') :
    s'.copies.Perm (c :: s.copies) ∨ (c.isWork = false ∧ s'.copies.Perm s.copies) := by
  cases h with
  | vote _ _ => exact Or.inl (copies_handOver _ _ _)
  | @unknownVote cert voter hc _ =>
      rw [hc] at hvalid
      left
      show (s.queued ++ (s.fetcher.addFetchRequest E.config cert.hash voter [c]).parked ++
        s.handed).Perm _
      refine (((BlockFetchManager.parked_addFetchRequest hvalid _ _ _).append_left s.queued
        ).append_right s.handed).trans ?_
      unfold copies
      rw [← List.append_assoc s.queued, List.append_assoc _ [c]]
      exact List.perm_middle
  | proposal _ _ => exact Or.inl ((copies_handOver _ _ _).trans ((copies_deliver _ _ _ _).cons c))
  | receive hc _ => exact Or.inr ⟨by unfold Copy.isWork; rw [hc], copies_deliver _ _ _ _⟩
  | parked hc _ _ _ =>
      rw [hc.source_eq] at hvalid
      exact Or.inl (copies_parkOn hvalid)

theorem OnEventOk.netEvents_eq (h : OnEventOk E c s s') :
    s'.replica.netEvents = s.replica.netEvents := by
  cases h <;> rfl

theorem OnEventOk.workers_eq (h : OnEventOk E c s s') {rid : ReplicaID}
    (hrid : E.config.isValidReplica rid = false) :
    s'.fetcher.workers rid = s.fetcher.workers rid := by
  have hdel : ∀ x, (s.fetcher.deliverBlock x).2.workers rid = s.fetcher.workers rid := fun x => by
    rw [BlockFetchManager.workers_deliverBlock]
  cases h with
  | vote => rfl
  | unknownVote => exact workers_addFetchRequest hrid
  | proposal => exact hdel _
  | receive => exact hdel _
  | @parked _ _ _ also =>
      cases also with
      | none => exact (workers_addFetchRequest hrid).trans (hdel _)
      | some x =>
          exact ((workers_addFetchRequest hrid).trans (workers_addFetchRequest hrid)).trans (hdel _)

/-! ## A step -/

theorem accepted_withReplica {r : Replica V} {new : List NetEvent}
    (hnew : r.netEvents = s.replica.netEvents ++ new) : (s.withReplica r).accepted =
      s.accepted ++ copiesFrom s.replica.netEvents.length r.netEvents := by
  show copiesFrom 0 r.netEvents = copiesFrom 0 s.replica.netEvents ++ _
  rw [hnew]
  exact copiesFrom_append _ _

theorem copies_withReplica (r : Replica V) (s : Node V) : (s.withReplica r).copies.Perm
    (s.copies ++ copiesFrom s.replica.netEvents.length r.netEvents) := by
  show (s.workList ++ (s.events ++ _) ++ s.fetcher.parked ++ s.handed).Perm _
  unfold copies queued
  simp only [List.append_assoc]
  refine (List.Perm.append_left _ (List.Perm.append_left _ ?_))
  exact List.perm_append_comm.trans (by simp [List.append_assoc])

namespace Placed

/-- A step of the replica. -/
theorem withReplica (P : Placed E s) {i : Input} {r : Replica V}
    (hstep : Hotstuff.step E i s.replica = .ok r)
    (hsender : ∀ wire rid, i = .fetchResponse wire rid → E.config.isValidReplica rid = true) :
    Placed E (s.withReplica r) := by
  obtain ⟨new, hnew, hsource⟩ := netEvents_step P.wellFormed hstep
  have hacc := accepted_withReplica (s := s) hnew
  have hcopies := copies_withReplica r s
  refine ⟨(step_cases P.wellFormed hstep).1, ?_, ?_, P.workers, ?_⟩
  · intro c hc
    rw [hacc]
    rcases List.mem_append.mp (hcopies.mem_iff.mp hc) with hc | hc
    · exact List.mem_append_left _ (P.accepted c hc)
    · exact List.mem_append_right _ hc
  · intro e he
    rw [show (s.withReplica r).replica.netEvents = _ from hnew] at he
    rcases List.mem_append.mp he with he | he
    · exact P.sources e he
    · rcases hsource e he with h | ⟨wire, hi⟩
      · exact h
      · exact hsender wire _ hi
  · rw [hacc, List.filter_append]
    refine (hcopies.filter _).trans ?_
    rw [List.filter_append]
    exact P.perm.append_right _

/-- A change at a worker. -/
theorem modifyWorker (P : Placed E s) {rid : ReplicaID} {f : BlockFetchWorker → BlockFetchWorker}
    (hf : E.config.isValidReplica rid = true ∨ f .init = .init) :
    Placed E (s.modifyWorker rid f) := by
  refine ⟨P.wellFormed, P.accepted, P.sources, fun x hx => ?_, P.perm⟩
  show Function.update s.fetcher.workers rid (f (s.fetcher.workers rid)) x = .init
  by_cases hxr : x = rid
  · subst hxr
    rcases hf with hf | hf
    · rw [hx] at hf
      cases hf
    · rw [Function.update_self, P.workers x hx, hf]
  · rw [Function.update_of_ne hxr]
    exact P.workers x hx

/-- **Every step keeps the events in their places.** -/
theorem step (P : Placed E s) {a : Action} (h : s.step E a = .ok s') : Placed E s' := by
  have hwork : ∀ c ∈ s.workList, c.event ∈ s.replica.netEvents := fun c hc =>
    P.mem_netEvents (by simp [copies, queued, hc])
  have W' : WellFormed E s'.replica := by
    rcases step_replica P.wellFormed hwork h with ⟨i, hi⟩ | hsame
    · exact (step_cases P.wellFormed hi).1
    · exact hsame ▸ P.wellFormed
  cases node_form P.wellFormed hwork h with
  | idle => exact P
  | @replica i r hown hr =>
      refine P.withReplica hr ?_
      rintro wire rid rfl
      cases hown
  | takeEvents hnil =>
      have hsame : ({ s with workList := s.events, events := [] } : Node V).copies = s.copies := by
        simp [copies, queued, hnil]
      exact ⟨P.wellFormed, hsame ▸ P.accepted, P.sources, P.workers, hsame ▸ P.perm⟩
  | @runEvent c rest _ hcons hform =>
      have hcopies : s.copies = c :: ({ s with workList := rest } : Node V).copies := by
        simp [copies, queued, hcons]
      have hc : c.event ∈ s.replica.netEvents := hwork c (hcons ▸ List.mem_cons_self)
      have hnet : s'.accepted = s.accepted := congrArg (copiesFrom 0) hform.netEvents_eq
      have hperm := hform.copies_perm (P.sources _ hc)
      rw [← hcopies] at hperm
      refine ⟨W', ?_, ?_, ?_, ?_⟩
      · intro x hx
        rw [hnet]
        rcases hperm with hp | ⟨-, hp⟩
        · exact P.accepted x (hp.mem_iff.mp hx)
        · apply P.accepted x
          rw [hcopies]
          exact List.mem_cons_of_mem _ (hp.mem_iff.mp hx)
      · rw [hform.netEvents_eq]
        exact P.sources
      · exact fun rid hrid => (hform.workers_eq hrid).trans (P.workers rid hrid)
      · rw [hnet]
        rcases hperm with hp | ⟨hwk, hp⟩
        · exact (hp.filter _).trans P.perm
        · refine (hp.filter _).trans ?_
          have hfilter : s.copies.filter Copy.isWork =
              ({ s with workList := rest } : Node V).copies.filter Copy.isWork := by
            rw [hcopies, List.filter_cons, hwk]
            rfl
          rw [← hfilter]
          exact P.perm
  | worker ha =>
      refine P.modifyWorker (Or.inr ?_)
      rcases ha with ⟨-, rfl⟩ | ⟨-, rfl⟩ | ⟨responses, -, rfl⟩ <;> rfl
  | @takeReply rid req wire responses r hround hr =>
      have hvalid := P.valid_of_round rid (by simp [hround])
      refine (P.modifyWorker (Or.inl hvalid)).withReplica hr ?_
      rintro wire' rid' hi
      cases hi
      exact hvalid
  | @replyDone rid req hround =>
      exact P.modifyWorker (Or.inl (P.valid_of_round _ (by simp [hround])))

theorem of_reach (h : Reach (Node.step E) anyInput (Node.start E) s) : Placed E s :=
  h.invariant (Placed.start E) fun _ _ _ P _ hstep => P.step hstep

end Placed

/-! ## Exactly one place -/

/-- Where a network event can be. -/
inductive Place where
  /-- The network queue, with the batch that is being run. -/
  | queue
  /-- The dependent events of the request for a block. -/
  | request (block : Hash)
  /-- The event queue of the core has taken it. -/
  | core
  deriving DecidableEq, Repr

/-- The copies at a place. -/
def eventsAt (s : Node V) : Place → List Copy
  | .queue => s.queued
  | .request block =>
    match s.fetcher.outstandingReqs.lookup block with
    | none => []
    | some ctx => ctx.dependentNetworkEvents
  | .core => s.handed

/-- The parked copies are those of one request and those of the others. -/
theorem parked_request (s : Node V) (block : Hash) : s.fetcher.parked.Perm
    (s.eventsAt (.request block) ++ (s.fetcher.deliverBlock block).2.parked) := by
  have hsame : (s.fetcher.deliverBlock block).1 = s.eventsAt (.request block) := by
    unfold BlockFetchManager.deliverBlock eventsAt
    split <;> rename_i hl <;> simp [hl]
  rw [← hsame]
  exact s.fetcher.parked_deliverBlock block

theorem mem_parked_of_request {block : Hash} (h : c ∈ s.eventsAt (.request block)) :
    c ∈ s.fetcher.parked :=
  (s.parked_request block).mem_iff.mpr (List.mem_append_left _ h)

/-- A copy that waits for one block only once in all waits for no other. -/
theorem request_unique {block other : Hash} (hone : s.fetcher.parked.count c ≤ 1)
    (h : c ∈ s.eventsAt (.request block)) (hne : other ≠ block) :
    c ∉ s.eventsAt (.request other) := by
  intro hother
  have hcount := (s.parked_request block).count_eq c
  rw [List.count_append] at hcount
  have hpos : 0 < (s.eventsAt (.request block)).count c := List.count_pos_iff.mpr h
  -- the other request is still there when the first one is taken out
  have hrest : c ∈ (s.fetcher.deliverBlock block).2.parked := by
    unfold eventsAt at hother
    dsimp only at hother
    split at hother
    · cases hother
    · rename_i ctx hctx
      refine BlockFetchManager.mem_parked.mpr ⟨other, ctx, ?_, hother⟩
      rw [BlockFetchManager.lookup_deliverBlock, if_neg hne]
      exact hctx
  have hpos' : 0 < (s.fetcher.deliverBlock block).2.parked.count c := List.count_pos_iff.mpr hrest
  omega

theorem Placed.count_eq_one (P : Placed E s) (hc : c ∈ s.accepted) (hwork : c.isWork = true) :
    s.queued.count c + s.fetcher.parked.count c + s.handed.count c = 1 := by
  have hone : s.accepted.count c = 1 := List.count_eq_one_of_mem (nodup_copiesFrom _) hc
  have hcount := P.perm.count_eq c
  rw [List.count_filter hwork, List.count_filter hwork, hone] at hcount
  unfold copies at hcount
  rw [List.count_append, List.count_append] at hcount
  exact hcount

/-- **No network event is lost or duplicated.** In every run of a node, each accepted vote or proposal
is at exactly one place between two events, and there once. -/
theorem one_place (h : Reach (Node.step E) anyInput (Node.start E) s) (hc : c ∈ s.accepted)
    (hwork : c.isWork = true) :
    ∃ place, (s.eventsAt place).count c = 1 ∧ ∀ other, other ≠ place → c ∉ s.eventsAt other := by
  have hone := (Placed.of_reach h).count_eq_one hc hwork
  have hnot : ∀ l : List Copy, l.count c = 0 → c ∉ l := fun l hl => List.count_eq_zero.mp hl
  rcases Nat.eq_zero_or_pos (s.fetcher.parked.count c) with hparked | hparked
  · have hrequest : ∀ block, c ∉ s.eventsAt (.request block) := fun block hb =>
      hnot _ hparked (mem_parked_of_request hb)
    rcases Nat.eq_zero_or_pos (s.queued.count c) with hqueue | hqueue
    · refine ⟨.core, show s.handed.count c = 1 by omega, ?_⟩
      rintro (_ | block | _) hne
      · exact hnot _ hqueue
      · exact hrequest block
      · exact absurd rfl hne
    · refine ⟨.queue, show s.queued.count c = 1 by omega, ?_⟩
      rintro (_ | block | _) hne
      · exact absurd rfl hne
      · exact hrequest block
      · exact hnot _ (show s.handed.count c = 0 by omega)
  · obtain ⟨block, ctx, hctx, hmem⟩ :=
      BlockFetchManager.mem_parked.mp (List.count_pos_iff.mp hparked)
    have hat : c ∈ s.eventsAt (.request block) := by
      unfold eventsAt
      simp only [hctx]
      exact hmem
    have hle : s.fetcher.parked.count c ≤ 1 := by omega
    refine ⟨.request block, ?_, ?_⟩
    · have hcount := (s.parked_request block).count_eq c
      rw [List.count_append] at hcount
      have hpos : 0 < (s.eventsAt (.request block)).count c := List.count_pos_iff.mpr hat
      omega
    · rintro (_ | other | _) hne
      · exact hnot _ (show s.queued.count c = 0 by omega)
      · exact request_unique hle hat fun he => hne (by rw [he])
      · exact hnot _ (show s.handed.count c = 0 by omega)

/-! ### A block that comes before its parent -/

end Node

namespace Instance

/-- What a run of a node on a list of actions shows through `f`, if it goes through. -/
def observeNode {α : Type} (E : Setup V) (actions : List Node.Action) (f : Node V → α) : Option α :=
  match runList (Node.step E) actions (Node.start E) with
  | .error _ => none
  | .ok s => some (f s)

theorem exists_of_observeNode {α : Type} (E : Setup V) (actions : List Node.Action)
    (f : Node V → α) (a : α)
    (h : observeNode E actions f = some a) :
    ∃ s, Reach (Node.step E) anyInput (Node.start E) s ∧ f s = a := by
  unfold observeNode at h
  split at h
  · cases h
  · rename_i s hs
    exact ⟨s, Reach.of_runList (fun _ _ => trivial) hs, Option.some.inj h⟩

/-- The next event of the queue is run, as the only one of its batch. -/
def runNext : List Node.Action := [.takeEvents, .runEvent]

/-- A block arrives before its parent, then a vote on the parent, then the parent. -/
def childFirst : List Node.Action :=
  [.replica (.proposeMessage (blockOn 1#256 (certificate [] 0#256) []) 1)] ++ runNext ++
  [.replica (.voteMessage (PartialCertificate.create crypto 1#256 2) 2)] ++ runNext ++
  [.replica (.proposeMessage (blockOn 0#256 (certificate [] 0#256) []) 1)] ++ runNext

end Instance

/-- The child and the vote wait for the parent, and are queued again when it comes. -/
theorem Node.one_place_childFirst : ∃ s : Node Unit, s.accepted.length = 3 ∧
    s.queued.length = 2 ∧ s.handed.length = 1 ∧
    ∀ c ∈ s.accepted, ∃ place, (s.eventsAt place).count c = 1 ∧
      ∀ other, other ≠ place → c ∉ s.eventsAt other := by
  obtain ⟨s, hreach, hs⟩ := Instance.exists_of_observeNode (Instance.setup 4 0) Instance.childFirst
    (fun s => (s.accepted.length, s.queued.length, s.handed.length, s.accepted.all Copy.isWork))
    (3, 2, 1, true) (by decide +kernel)
  simp only [Prod.mk.injEq, List.all_eq_true] at hs
  obtain ⟨h3, h2, h1, hwork⟩ := hs
  exact ⟨s, h3, h2, h1, fun c hc => Node.one_place hreach hc (hwork c hc)⟩

end Fred.Hotstuff
