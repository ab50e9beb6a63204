/-
# Fred.Hotstuff.SelfVotes -- which certificate a vote goes to

Two objects can have one hash, and the store keeps the first. A vote from the network is counted on the
stored object, which is looked up by the hash. A vote of this replica for itself is counted on the
object its proposal event had. While these are the same, the voters on the stored object are the
replicas whose votes have been processed (`voters_iff`); the first vote event on another object that
brings a new voter ends that.
-/
import Fred.Hotstuff.Instance
import Fred.Hotstuff.Forms

namespace Fred.Hotstuff

open Fred.Transition Replica

variable {V : Type} {E : Setup V} {s s' : Replica V}

/-! ## Voters -/

/-- The replicas with an entry in a certificate. -/
def QuorumCertificate.voters (qc : QuorumCertificate) : List ReplicaID := qc.sigs.map Prod.fst

theorem mem_keys_emplace {rid x : ReplicaID} {sig : Signature} {m : List (ReplicaID × Signature)} :
    x ∈ (emplace rid sig m).map Prod.fst ↔ x = rid ∨ x ∈ m.map Prod.fst := by
  induction m with
  | nil => simp [emplace]
  | cons e rest ih =>
      obtain ⟨r, sg⟩ := e
      unfold emplace
      split_ifs with hlt heq
      · simp
      · subst heq
        simp
      · simp only [List.map_cons, List.mem_cons, ih]
        tauto

theorem voters_addPartialCertificate {qc qc' : QuorumCertificate} {rid x : ReplicaID}
    {cert : PartialCertificateWire} (h : qc.addPartialCertificate rid cert = .ok qc') :
    x ∈ qc'.voters ↔ x = rid ∨ x ∈ qc.voters := by
  unfold QuorumCertificate.addPartialCertificate at h
  split_ifs at h
  rw [← Except.ok.inj h]
  exact mem_keys_emplace

/-- A certificate with as many voters as a majority has is a quorum. -/
theorem hasQuorum_of_voters {c : ReplicaConfig} {qc : QuorumCertificate} {rs : Finset ReplicaID}
    (hsub : ∀ r ∈ rs, r ∈ qc.voters) (hcard : c.nmajority ≤ rs.card) : qc.hasQuorum c = true := by
  have hle : rs.card ≤ qc.voters.toFinset.card :=
    Finset.card_le_card fun r hr => List.mem_toFinset.mpr (hsub r hr)
  have hlen : qc.voters.toFinset.card ≤ qc.sigs.length := by
    refine (List.toFinset_card_le _).trans ?_
    simp [QuorumCertificate.voters]
  unfold QuorumCertificate.hasQuorum
  simp only [decide_eq_true_eq]
  omega

/-! ## The processed votes -/

/-- The votes processed so far, each with the hash it is on. -/
abbrev ProcessedVotes := List (Hash × ReplicaID)

/-- The vote a step processes. -/
def processed (i : Input) (s : Replica V) : ProcessedVotes :=
  match i, s.eventQueue with
  | .event _, .vote cert _ rid :: _ => [(cert.hash, rid)]
  | _, _ => []

/-- A step of a replica, with a record of the processed votes. -/
def recordStep (E : Setup V) (i : Input) (x : Replica V × ProcessedVotes) :
    Except (Exn × Replica V) (Replica V × ProcessedVotes) :=
  match step E i x.1 with
  | .error e => .error e
  | .ok s => .ok (s, x.2 ++ processed i x.1)

theorem processed_of_isVote {i : Input} {cert : PartialCertificateWire} {b : BlockPtr}
    {rid : ReplicaID} (h : IsVote s i cert b rid) : processed i s = [(cert.hash, rid)] := by
  obtain ⟨schedule, rest, rfl, hqueue⟩ := h
  unfold processed
  rw [hqueue]

theorem processed_eq_nil {i : Input} (h : ∀ cert b rid, ¬ IsVote s i cert b rid) :
    processed i s = [] := by
  unfold processed
  split
  · rename_i schedule cert b rid rest hqueue
    exact absurd ⟨schedule, rest, rfl, hqueue⟩ (h cert b rid)
  · rfl

/-- The voters on each stored block are the replicas whose votes on its hash have been processed. -/
def VotersMatch (x : Replica V × ProcessedVotes) : Prop :=
  ∀ h p, x.1.blockStore.blockCache h = some p →
    ∀ rid, rid ∈ (x.1.heap.get p).selfQc.voters ↔ (h, rid) ∈ x.2

/-- A vote event is on the object the store has under the hash, or brings no new voter. -/
def OnStored (x : Replica V × ProcessedVotes) (i : Input) : Prop :=
  ∀ cert b rid, IsVote x.1 i cert b rid →
    x.1.blockStore.blockCache cert.hash = some b ∨ (cert.hash, rid) ∈ x.2

/-! ## The invariant -/

structure Collecting (E : Setup V) (x : Replica V × ProcessedVotes) : Prop where
  wellFormed : WellFormed E x.1
  fresh : ∀ p, p < x.1.heap.next → x.1.blockStore.blockCache (x.1.heap.hash p) = none →
    (x.1.heap.get p).selfQc.sigs = []
  logged : ∀ h rid, (h, rid) ∈ x.2 → ∃ p, x.1.blockStore.blockCache h = some p

namespace Collecting

variable {log : ProcessedVotes}

theorem start (E : Setup V) : Collecting E (Hotstuff.start E, []) where
  wellFormed := WellFormed.start E
  fresh := fun _ _ _ => rfl
  logged := fun _ _ h => absurd h List.not_mem_nil

theorem votersMatch_start (E : Setup V) : VotersMatch (Hotstuff.start E, []) := by
  intro h p _ rid
  have hgen : ((Hotstuff.start E).heap.get p).selfQc.voters = [] := rfl
  rw [hgen]
  simp

/-- The hash of a queued vote is stored. -/
theorem stored_of_isVote (C : Collecting E (s, log)) {i : Input} {cert : PartialCertificateWire}
    {b : BlockPtr} {rid : ReplicaID} (hv : IsVote s i cert b rid) :
    s.heap.hash b = cert.hash ∧ ∃ p, s.blockStore.blockCache cert.hash = some p := by
  obtain ⟨schedule, rest, -, hqueue⟩ := hv
  have W : WellFormed E s := C.wellFormed
  obtain ⟨hset, hhash⟩ : Event.Ok s.heap (.vote cert b rid) :=
    W.events _ (hqueue ▸ List.mem_cons_self)
  refine ⟨hhash, ?_⟩
  rw [← hhash]
  rcases hset with rfl | ⟨q, hq⟩
  · rw [W.shape.hash_genesis]
    exact ⟨_, W.shape.cache_genesis⟩
  · exact W.shape.linked_cached hq

/-- **A vote event.** The voters still match exactly if it was on the stored object, or brought no new
voter. -/
theorem vote_step (C : Collecting E (s, log)) (hmatch : VotersMatch (s, log)) {i : Input}
    {cert : PartialCertificateWire} {b : BlockPtr} {rid : ReplicaID} {qc : QuorumCertificate}
    (hv : IsVote s i cert b rid)
    (hadd : (s.heap.get b).selfQc.addPartialCertificate rid cert = .ok qc)
    (hb : (s'.heap.get b).selfQc = qc)
    (hother : ∀ p, p ≠ b → (s'.heap.get p).selfQc = (s.heap.get p).selfQc)
    (hcache : s'.blockStore.blockCache = s.blockStore.blockCache) :
    VotersMatch (s', log ++ [(cert.hash, rid)]) ↔ OnStored (s, log) i := by
  have hb' : ∀ x, x ∈ (s'.heap.get b).selfQc.voters ↔ x = rid ∨ x ∈ (s.heap.get b).selfQc.voters :=
    fun x => hb ▸ voters_addPartialCertificate hadd
  obtain ⟨hhash, r, hr⟩ := C.stored_of_isVote hv
  have hunique : ∀ cert' b' rid', IsVote s i cert' b' rid' → cert' = cert ∧ b' = b ∧ rid' = rid := by
    rintro cert' b' rid' ⟨_, _, -, h'⟩
    obtain ⟨_, _, -, h⟩ := hv
    rw [h] at h'
    cases h'
    exact ⟨rfl, rfl, rfl⟩
  have hlog : ∀ h x, (h, x) ∈ log ++ [(cert.hash, rid)] ↔
      (h, x) ∈ log ∨ (h = cert.hash ∧ x = rid) := by
    intro h x
    simp
  constructor
  · intro hmatch' cert' b' rid' hv'
    obtain ⟨rfl, rfl, rfl⟩ := hunique _ _ _ hv'
    by_cases hrb : r = b'
    · exact Or.inl (hrb ▸ hr)
    · -- the stored object has the voter although nothing was added to it
      right
      have hin : rid' ∈ (s'.heap.get r).selfQc.voters :=
        (hmatch' cert'.hash r (by rw [hcache]; exact hr) rid').mpr ((hlog _ _).mpr (Or.inr ⟨rfl, rfl⟩))
      rw [hother r hrb] at hin
      exact (hmatch cert'.hash r hr rid').mp hin
  · intro hon h p hp x
    have hp' : s.blockStore.blockCache h = some p := by rwa [hcache] at hp
    have hold := hmatch h p hp' x
    show x ∈ (s'.heap.get p).selfQc.voters ↔ (h, x) ∈ log ++ [(cert.hash, rid)]
    rw [hlog]
    by_cases hpb : p = b
    · subst hpb
      have hh : h = cert.hash := by rw [← hhash]; exact ((C.wellFormed.shape.cached hp').1).symm
      subst hh
      rw [hb' x]
      have : x ∈ (s.heap.get p).selfQc.voters ↔ (cert.hash, x) ∈ log := hold
      rw [this]
      tauto
    · rw [hother p hpb]
      rw [show x ∈ (s.heap.get p).selfQc.voters ↔ (h, x) ∈ log from hold]
      constructor
      · exact Or.inl
      · rintro (hx | ⟨rfl, rfl⟩)
        · exact hx
        · rcases hon cert b x hv with hst | hin
          · rw [hp'] at hst
            exact absurd (Option.some.inj hst) hpb
          · exact hin

/-- A step that is no vote event: a hash that becomes stored had no vote processed, and its object no
voter. -/
theorem quiet_step (C : Collecting E (s, log)) (hmatch : VotersMatch (s, log)) {i : Input}
    (h : Hotstuff.step E i s = .ok s') (hkeep : KeepsCerts s s') : VotersMatch (s', log) := by
  intro x p hp rid
  have W : WellFormed E s := C.wellFormed
  have W' : WellFormed E s' := (step_cases W h).1
  rcases hc : s.blockStore.blockCache x with _ | q
  · have hnolog : (x, rid) ∉ log := by
      intro hlog
      obtain ⟨q, hq⟩ := C.logged x rid hlog
      rw [show s.blockStore.blockCache x = some q from hq] at hc
      cases hc
    obtain ⟨hhash, hset⟩ := W'.shape.cached hp
    have hnone : (s'.heap.get p).selfQc.sigs = [] := by
      by_cases hlt : p < s.heap.next
      · rw [hkeep.1 p hlt]
        apply C.fresh p hlt
        show s.blockStore.blockCache (s.heap.hash p) = none
        rw [← Heap.hash_of_label (label_step W h hlt), hhash]
        exact hc
      · exact hkeep.2 p (Nat.not_lt.mp hlt) (W'.shape.lt_next_of_settled hset)
    show rid ∈ (s'.heap.get p).selfQc.voters ↔ (x, rid) ∈ log
    unfold QuorumCertificate.voters
    rw [hnone]
    simp [hnolog]
  · have hsame : q = p := Option.some.inj ((cache_step W h hc).symm.trans hp)
    subst hsame
    have hlt := W.shape.lt_next_of_settled (W.shape.cached hc).2
    show rid ∈ (s'.heap.get q).selfQc.voters ↔ _
    rw [hkeep.1 q hlt]
    exact hmatch x q hc rid

/-- **Every step keeps the invariant, and the voters still match exactly if the condition held.** -/
theorem step (C : Collecting E (s, log)) {i : Input} (h : Hotstuff.step E i s = .ok s') :
    Collecting E (s', log ++ processed i s) ∧
      (VotersMatch (s, log) → (VotersMatch (s', log ++ processed i s) ↔ OnStored (s, log) i)) := by
  have W : WellFormed E s := C.wellFormed
  have hfresh : ∀ p, p < s.heap.next → s'.blockStore.blockCache (s'.heap.hash p) = none →
      (s.heap.get p).selfQc.sigs = [] := by
    intro p hlt hnone
    apply C.fresh p hlt
    rw [Heap.hash_of_label (label_step W h hlt)] at hnone
    rcases hc : s.blockStore.blockCache (s.heap.hash p) with _ | q
    · rfl
    · rw [cache_step W h hc] at hnone
      cases hnone
  rcases selfQc_step W h with ⟨cert, b, rid, qc, hv, hadd, hb, hother, hnext, hcache⟩ |
    ⟨hno, hkeep⟩
  · rw [processed_of_isVote hv]
    obtain ⟨hhash, r, hr⟩ := C.stored_of_isVote hv
    refine ⟨⟨(step_cases W h).1, ?_, ?_⟩, fun hmatch => C.vote_step hmatch hv hadd hb hother hcache⟩
    · intro p hlt hnone
      by_cases hpb : p = b
      · -- the hash of the object the vote is on is stored
        subst hpb
        have hlt' : p < s.heap.next := hnext ▸ hlt
        rw [show s'.heap.hash p = s.heap.hash p from Heap.hash_of_label (label_step W h hlt'),
          hhash, hcache, hr] at hnone
        cases hnone
      · show (s'.heap.get p).selfQc.sigs = []
        rw [hother p hpb]
        exact hfresh p (hnext ▸ hlt) hnone
    · intro x y hxy
      rcases List.mem_append.mp hxy with hxy | hxy
      · obtain ⟨q, hq⟩ := C.logged x y hxy
        exact ⟨q, cache_step W h hq⟩
      · cases List.mem_singleton.mp hxy
        exact ⟨r, cache_step W h hr⟩
  · rw [processed_eq_nil hno, List.append_nil]
    refine ⟨⟨(step_cases W h).1, ?_, ?_⟩, fun hmatch => ⟨fun _ => ?_, fun _ =>
      C.quiet_step hmatch h hkeep⟩⟩
    · intro p hlt hnone
      show (s'.heap.get p).selfQc.sigs = []
      by_cases hold : p < s.heap.next
      · rw [hkeep.1 p hold]
        exact hfresh p hold hnone
      · exact hkeep.2 p (Nat.not_lt.mp hold) hlt
    · intro x y hxy
      obtain ⟨q, hq⟩ := C.logged x y hxy
      exact ⟨q, cache_step W h hq⟩
    · exact fun cert b rid hv => absurd hv (hno cert b rid)

theorem recordStep_ok {x x' : Replica V × ProcessedVotes} {i : Input} (h : recordStep E i x = .ok x') :
    Hotstuff.step E i x.1 = .ok x'.1 ∧ x' = (x'.1, x.2 ++ processed i x.1) := by
  unfold recordStep at h
  split at h
  · cases h
  · rename_i s hs
    obtain rfl := Except.ok.inj h
    exact ⟨hs, rfl⟩

theorem of_reach {x : Replica V × ProcessedVotes}
    (h : Reach (recordStep E) OnStored (Hotstuff.start E, []) x) :
    Collecting E x ∧ VotersMatch x := by
  refine h.invariant (I := fun x => Collecting E x ∧ VotersMatch x)
    ⟨Collecting.start E, votersMatch_start E⟩ ?_
  rintro ⟨s, log⟩ u i ⟨C, hmatch⟩ hon hstep
  obtain ⟨hs, hu⟩ := recordStep_ok hstep
  obtain ⟨C', hiff⟩ := C.step hs
  rw [hu]
  exact ⟨C', (hiff hmatch).mpr hon⟩

end Collecting

/-- A vote event that a step queues is a vote of this replica, or on the stored object. -/
theorem queued_vote_step {i : Input} (W : WellFormed E s) (h : Hotstuff.step E i s = .ok s')
    {cert : PartialCertificateWire} {b : BlockPtr} {rid : ReplicaID}
    (hmem : .vote cert b rid ∈ s'.eventQueue) : .vote cert b rid ∈ s.eventQueue ∨
      rid = E.selfId ∨ s.blockStore.blockCache cert.hash = some b := by
  cases step_form W h with
  | netVote _ hb =>
      rcases List.mem_append.mp hmem with hmem | hmem
      · exact Or.inl hmem
      · cases List.mem_singleton.mp hmem
        exact Or.inr (Or.inr hb)
  | netProposal =>
      rcases List.mem_append.mp hmem with hmem | hmem
      · exact Or.inl hmem
      · cases List.mem_singleton.mp hmem
  | @voteEvent schedule cert' b' rid' rest qc hqueue _ =>
      left
      rw [hqueue]
      refine List.mem_cons_of_mem _ ?_
      rwa [(voted_keeps b' qc _).2.2] at hmem
  | @proposalEvent schedule p rid' rest s₁ _ hstep =>
      have hrest : .vote cert b rid ∈ rest → .vote cert b rid ∈ s.eventQueue := by
        rw [hstep.queue_eq]
        exact List.mem_cons_of_mem _
      rcases (hstep.frame W).2.2 with hq | ⟨-, hq⟩
      · exact Or.inl (hrest (hq ▸ hmem))
      · rw [hq] at hmem
        rcases List.mem_append.mp hmem with hmem | hmem
        · exact Or.inl (hrest hmem)
        · cases List.mem_singleton.mp hmem
          exact Or.inr (Or.inl rfl)
  | propose =>
      rcases List.mem_append.mp hmem with hmem | hmem
      · exact Or.inl hmem
      · cases List.mem_singleton.mp hmem
  | collect =>
      left
      rwa [(collect_spec W.collector).keeps.eventQueue_eq] at hmem
  | _ => exact Or.inl hmem

/-- The vote events of other replicas are about stored objects; only a vote of this replica for itself
can be about another object. -/
theorem queued_votes_stored (h : Reach (Hotstuff.step E) anyInput (Hotstuff.start E) s) :
    ∀ cert b rid, .vote cert b rid ∈ s.eventQueue → rid = E.selfId ∨
      s.blockStore.blockCache cert.hash = some b := by
  have hinv : WellFormed E s ∧ ∀ cert b rid, .vote cert b rid ∈ s.eventQueue → rid = E.selfId ∨
      s.blockStore.blockCache cert.hash = some b := by
    refine h.invariant (I := fun s => WellFormed E s ∧ ∀ cert b rid,
      .vote cert b rid ∈ s.eventQueue → rid = E.selfId ∨
        s.blockStore.blockCache cert.hash = some b)
      ⟨WellFormed.start E, fun _ _ _ h => absurd h List.not_mem_nil⟩ ?_
    rintro t u i ⟨W, hall⟩ - hstep
    refine ⟨(step_cases W hstep).1, fun cert b rid hmem => ?_⟩
    rcases queued_vote_step W hstep hmem with hold | hself | hb
    · exact (hall cert b rid hold).imp_right fun hb => cache_step W hstep hb
    · exact Or.inl hself
    · exact Or.inr (cache_step W hstep hb)
  exact hinv.2

/-- **Votes on one block go to one certificate, while the vote events are on stored objects.** In every
run in which each vote event is on the object the store has under its hash, or brings no new voter, the
voters on a stored block are the replicas whose votes on its hash have been processed, so that a majority
of them is a quorum certificate. The condition cannot be weakened: a step that does not meet it ends in a
state in which the voters do not match. -/
theorem voters_iff {x : Replica V × ProcessedVotes}
    (h : Reach (recordStep E) OnStored (Hotstuff.start E, []) x) :
    VotersMatch x ∧
      (∀ y p rs, x.1.blockStore.blockCache y = some p → (∀ r ∈ rs, (y, r) ∈ x.2) →
        E.config.nmajority ≤ Finset.card rs → (x.1.heap.get p).selfQc.hasQuorum E.config = true) ∧
      ∀ i x', recordStep E i x = .ok x' → (VotersMatch x' ↔ OnStored x i) := by
  obtain ⟨C, hmatch⟩ := Collecting.of_reach h
  refine ⟨hmatch, fun y p rs hp hrs hcard => ?_, fun i x' hstep => ?_⟩
  · exact hasQuorum_of_voters (fun r hr => (hmatch y p hp r).mpr (hrs r hr)) hcard
  · obtain ⟨hs, hx'⟩ := Collecting.recordStep_ok hstep
    rw [hx']
    exact (@Collecting.step _ _ x.1 _ x.2 C _ hs).2 hmatch

/-! ### One block, two objects -/

namespace Instance

/-- The vote event at the head of the queue is on the stored object. -/
def onStoredCheck {V : Type} (x : Replica V × ProcessedVotes) : Input → Bool
  | .event _ =>
    match x.1.eventQueue with
    | .vote cert b _ :: _ => x.1.blockStore.blockCache cert.hash == some b
    | _ => true
  | _ => true

theorem onStored_of_check {V : Type} {x : Replica V × ProcessedVotes} {i : Input}
    (h : onStoredCheck x i = true) : OnStored x i := by
  rintro cert b rid ⟨schedule, rest, rfl, hqueue⟩
  unfold onStoredCheck at h
  simp only [hqueue, beq_iff_eq] at h
  exact Or.inl h

/-- This replica mints a block and votes for it; two other votes on it arrive. -/
def mintedOnce : List Input :=
  [.doEmptyPropose, .event [], .event [],
    .voteMessage (PartialCertificate.create crypto 1#256 1) 1,
    .voteMessage (PartialCertificate.create crypto 1#256 2) 2,
    .netEvent (.vote (PartialCertificate.create crypto 1#256 1) 1),
    .netEvent (.vote (PartialCertificate.create crypto 1#256 2) 2), .event [], .event []]

/-- The empty block on genesis comes as a fetch answer and is stored; then this replica mints the same
block. -/
def mintedTwice : List Input :=
  [.fetchResponse (blockOn 0#256 (certificate [] 0#256) []) 1, .netEvent (.blockReceive 1 1)] ++ mintedOnce

/-- What the store has of block 1: the object, its voters, whether they are a quorum. -/
def blockOne (x : Replica Unit × ProcessedVotes) : Option (BlockPtr × List ReplicaID × Bool) :=
  (x.1.blockStore.blockCache 1#256).map fun p =>
    (p, (x.1.heap.get p).selfQc.voters, (x.1.heap.get p).selfQc.hasQuorum (config 4))

end Instance

/-- Its own vote and those of two others on the block a replica has minted go to the stored object, and
are a quorum. -/
theorem voters_iff_four : ∃ (x : Replica Unit × ProcessedVotes) (p : BlockPtr),
    x.2 = [(1#256, 0), (1#256, 1), (1#256, 2)] ∧ VotersMatch x ∧
      x.1.blockStore.blockCache 1#256 = some p ∧
      (x.1.heap.get p).selfQc.hasQuorum (Instance.setup 4 0).config = true := by
  have hrun : (runListIf (recordStep (Instance.setup 4 0)) Instance.onStoredCheck
      Instance.mintedOnce (Hotstuff.start (Instance.setup 4 0), [])).map
        (fun x => (x.2, x.1.blockStore.blockCache 1#256)) =
      some ([(1#256, 0), (1#256, 1), (1#256, 2)], some 1) := by decide +kernel
  obtain ⟨x, hx, hobs⟩ := Option.map_eq_some_iff.mp hrun
  obtain ⟨hlog, hcache⟩ := Prod.mk.inj hobs
  obtain ⟨hmatch, hquorum, -⟩ :=
    voters_iff (Reach.of_runListIf (fun _ _ => Instance.onStored_of_check) hx)
  refine ⟨x, 1, hlog, hmatch, hcache, hquorum 1#256 1 {0, 1, 2} hcache ?_ (by decide)⟩
  intro r hr
  rw [hlog]
  simp only [Finset.mem_insert, Finset.mem_singleton] at hr
  rcases hr with rfl | rfl | rfl <;> decide

/-- The vote of the replica goes to the second object: three votes have been processed, and the stored
block has two voters and no quorum. -/
theorem votes_split : ¬ ∀ x : Replica Unit × ProcessedVotes,
    Reach (recordStep (Instance.setup 4 0)) anyInput (Hotstuff.start (Instance.setup 4 0), []) x →
      VotersMatch x := by
  intro hall
  have hrun : (match runList (recordStep (Instance.setup 4 0)) Instance.mintedTwice
        (Hotstuff.start (Instance.setup 4 0), []) with
      | .error _ => none
      | .ok x => some (Instance.blockOne x, x.2)) =
      some (some (1, [1, 2], false), [(1#256, 0), (1#256, 1), (1#256, 2)]) := by decide +kernel
  split at hrun
  · cases hrun
  · rename_i x hx
    simp only [Option.some.injEq, Prod.mk.injEq, Instance.blockOne, Option.map_eq_some_iff] at hrun
    obtain ⟨⟨p, hp, rfl, hvoters, -⟩, hlog⟩ := hrun
    have hmatch := hall x (Reach.of_runList (fun _ _ => trivial) hx) 1#256 1 hp 0
    rw [hvoters, hlog] at hmatch
    simp at hmatch

end Fred.Hotstuff
