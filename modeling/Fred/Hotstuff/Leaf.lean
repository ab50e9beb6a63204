/-
# Fred.Hotstuff.Leaf -- what a replica builds on

`b_leaf` is where the next block of a replica goes. Proposing moves it up to the block that was minted.
A certificate on a block above the highest certified block moves it to that block, and nothing checks
that this is up: a late certificate for an earlier block of its own takes a replica back, and it mints a
second block at a height it has used (`minted_heights_increase`).
-/
import Fred.Hotstuff.Forms
import Fred.Hotstuff.Votes

namespace Fred.Hotstuff

open Fred.Forest Fred.Transition Replica

variable {V : Type} {E : Setup V} {s s' t u : Replica V}

/-! ## The minted blocks -/

def Effect.minted? : Effect → Option BlockPtr
  | .proposed block _ => some block
  | _ => none

namespace Replica

/-- The blocks a replica has minted and broadcast, first block first. -/
def minted (s : Replica V) : List BlockPtr := s.trace.filterMap Effect.minted?

def mintedHeights (s : Replica V) : List ℕ := s.minted.map s.heap.height

theorem minted_of_trace (h : s'.trace = s.trace) : s'.minted = s.minted := by
  unfold minted
  rw [h]

theorem minted_emit (s : Replica V) (e : Effect) :
    (s.emit e).minted = s.minted ++ e.minted?.toList := by
  unfold minted emit
  rw [List.filterMap_append]
  cases he : e.minted? <;> simp [he]

theorem minted_emit_of_none {e : Effect} (he : e.minted? = none) :
    (s.emit e).minted = s.minted := by
  rw [minted_emit, he]
  simp

theorem closed_minted (E : Setup V) (l : List BlockPtr) : Closed E fun s => s.minted = l where
  updateHqc := fun b qc h => (minted_of_trace (updateHqc_trace b qc _)).trans h
  setLock := fun _ h => h
  pause := fun h => (minted_of_trace (trace_pause _)).trans h
  setWritten := fun _ h => h
  saveBlock := fun _ h => (minted_emit_of_none rfl).trans h
  decideBlock := fun _ h => h
  applied := fun _ h => (minted_emit_of_none rfl).trans h
  setVm := fun _ h => h
  setExec := fun _ h => h
  setIndex := fun _ h => h
  prune := fun _ h => h

/-- Casting a vote mints nothing. -/
theorem minted_voteOnProposal {p : BlockPtr} {rid : ReplicaID}
    (h : voteOnProposal E p rid s = .ok s') : s'.minted = s.minted := by
  have hvote : ∀ {t t' : Replica V}, doVote E p rid t = .ok t' → t'.minted = t.minted := by
    intro t t' ht
    have hstate := (doVote_state E p rid t).1
    rw [ht] at hstate
    unfold minted
    rw [show t'.trace = _ from hstate, List.filterMap_append]
    simp [voteEffect, Effect.minted?]
  unfold voteOnProposal at h
  split at h
  · split at h
    · cases h
    · have hminted := hvote h
      exact hminted
    · rw [← Except.ok.inj h]
  · rw [← Except.ok.inj h]

end Replica

theorem ProposalStep.minted_eq {schedule : List ℕ} {p : BlockPtr} {rid : ReplicaID}
    {rest : List Event} {s₁ : Replica V} (h : ProposalStep E schedule p rid rest s s₁ s') :
    s'.minted = s.minted := by
  have hvote := minted_voteOnProposal h.vote
  exact (((closed_minted E s₁.minted).update p rfl).1 s' h.call).trans hvote

/-! ## What moves the leaf -/

/-- The input shows `update_hqc` a certificate on `b`. -/
inductive Certifies (E : Setup V) (s : Replica V) : Input → BlockPtr → Prop
  /-- A vote event that completes a quorum. -/
  | vote {schedule : List ℕ} {cert : PartialCertificateWire} {b : BlockPtr} {rid : ReplicaID}
      {rest : List Event} {qc : QuorumCertificate}
      (hqueue : s.eventQueue = .vote cert b rid :: rest)
      (hqc : (s.heap.get b).selfQc.addPartialCertificate rid cert = .ok qc)
      (hnew : (qc.hasQuorum E.config && !(s.heap.get b).selfQc.hasQuorum E.config) = true) :
      Certifies E s (.event schedule) b
  /-- A proposal event whose certificate is on an undecided block. -/
  | proposal {schedule : List ℕ} {p b : BlockPtr} {rid : ReplicaID} {rest : List Event}
      (hqueue : s.eventQueue = .proposal p rid :: rest) (hjustify : s.heap.justify p = some b)
      (hundecided : (s.heap.get b).decided = false) : Certifies E s (.event schedule) b

/-- The input raises the highest certificate to `b`. -/
structure Raises (E : Setup V) (s : Replica V) (i : Input) (b : BlockPtr) : Prop where
  certifies : Certifies E s i b
  height_lt : s.heap.height s.hqc.1 < s.heap.height b

theorem Certifies.unique {i : Input} {b b' : BlockPtr} (h : Certifies E s i b)
    (h' : Certifies E s i b') : b = b' := by
  cases h with
  | vote hqueue =>
      cases h' with
      | vote hqueue' =>
          rw [hqueue] at hqueue'
          cases hqueue'
          rfl
      | proposal hqueue' =>
          rw [hqueue] at hqueue'
          cases hqueue'
  | proposal hqueue hjustify =>
      cases h' with
      | vote hqueue' =>
          rw [hqueue] at hqueue'
          cases hqueue'
      | proposal hqueue' hjustify' =>
          rw [hqueue] at hqueue'
          cases hqueue'
          exact Option.some.inj (hjustify.symm.trans hjustify')

theorem not_raises {i : Input} (hi : ∀ schedule, i ≠ .event schedule) (b : BlockPtr) :
    ¬ Raises E s i b := by
  rintro ⟨hc, -⟩
  cases hc <;> exact hi _ rfl

/-- **What a step does to leaf and highest certificate.** -/
inductive LeafStep (E : Setup V) (s : Replica V) (i : Input) (s' : Replica V) : Prop
  | stay (hno : ∀ b, ¬ Raises E s i b) (hhqc : s'.hqc = s.hqc) (hleaf : s'.bLeaf = s.bLeaf)
      (hminted : s'.minted = s.minted)
  | raise {b : BlockPtr} (hr : Raises E s i b) (hhqc : s'.hqc.1 = b) (hleaf : s'.bLeaf = b)
      (hminted : s'.minted = s.minted)
  | mint {q : BlockPtr} (hi : i = .doPropose ∨ i = .doEmptyPropose)
      (hq : s.blockStore.blockCache (s.heap.hash s.bLeaf) = some q) (hhqc : s'.hqc = s.hqc)
      (hleaf : s'.bLeaf = s.heap.next) (hminted : s'.minted = s.minted ++ [s.heap.next])
      (hparent : s'.heap.parent s.heap.next = some q)
      (hqc : (s'.heap.header s.heap.next).qc = s.hqc.2)
      (hproposer : (s'.heap.get s.heap.next).proposer = E.selfId)
      (hevent : .proposal s.heap.next E.selfId ∈ s'.eventQueue)

namespace LeafStep

theorem of_minted (s : Replica V) (body : List UInt8) (q j : BlockPtr) :
    (s.proposed E body q j).minted = s.minted ++ [s.heap.next] := by
  unfold proposed
  exact minted_emit _ _

/-- The minted object, once it is linked. -/
theorem core_proposed (s : Replica V) (body : List UInt8) (q j : BlockPtr) :
    ((s.proposed E body q j).heap.parent s.heap.next = some q) ∧
      ((s.proposed E body q j).heap.header s.heap.next).qc = s.hqc.2 ∧
      ((s.proposed E body q j).heap.get s.heap.next).proposer = E.selfId := by
  have hheap : (s.proposed E body q j).heap = (s.heap.alloc (HotstuffBlock.mintBlock E.crypto body
    s.hqc.2 (s.heap.hash s.bLeaf) E.selfId)).link s.heap.next q j := rfl
  unfold Heap.header Heap.parent Heap.core
  rw [hheap, Heap.get_link_self, Heap.get_alloc_next]
  exact ⟨rfl, rfl, rfl⟩

theorem of_voteEvent {schedule : List ℕ} {cert : PartialCertificateWire} {b : BlockPtr}
    {rid : ReplicaID} {rest : List Event} {qc : QuorumCertificate}
    (hqueue : s.eventQueue = .vote cert b rid :: rest)
    (hqc : (s.heap.get b).selfQc.addPartialCertificate rid cert = .ok qc) :
    LeafStep E s (.event schedule)
      ({ s with eventQueue := rest, schedule := schedule }.voted E b qc) := by
  generalize ht : ({ s with eventQueue := rest, schedule := schedule } : Replica V) = t
  have hheight : ∀ x, (setSelfQc b qc t).heap.height x = s.heap.height x := by
    intro x
    have hcores : Heap.SameCores s.heap (setSelfQc b qc s).heap :=
      label_setSelfQc (QuorumCertificate.objHash_addPartialCertificate hqc)
    rw [← ht]
    exact congrFun hcores.height_eq x
  have hhqc : t.hqc = s.hqc := by rw [← ht]
  have hunique : ∀ x, Certifies E s (.event schedule) x → x = b ∧
      (qc.hasQuorum E.config && !(s.heap.get b).selfQc.hasQuorum E.config) = true := by
    intro x hx
    cases hx with
    | vote hqueue' hqc' hnew =>
        rw [hqueue] at hqueue'
        cases hqueue'
        obtain rfl := Except.ok.inj (hqc.symm.trans hqc')
        exact ⟨rfl, hnew⟩
    | proposal hqueue' =>
        rw [hqueue] at hqueue'
        cases hqueue'
  have hself : (t.heap.get b).selfQc = (s.heap.get b).selfQc := by rw [← ht]
  have htrace : t.trace = s.trace := by rw [← ht]
  have hleaf : t.bLeaf = s.bLeaf := by rw [← ht]
  unfold voted
  rw [hself]
  by_cases hnew : (qc.hasQuorum E.config && !(s.heap.get b).selfQc.hasQuorum E.config) = true
  · rw [if_pos hnew]
    have hmint : (onNewQc (t.heap.hash b) (updateHqc b qc (setSelfQc b qc t))).minted = s.minted :=
      minted_of_trace ((updateHqc_trace b qc _).trans htrace)
    rcases updateHqc_cases b qc (setSelfQc b qc t) with ⟨hle, h⟩ | ⟨hlt, h⟩
    · refine .stay (fun x hx => ?_) ?_ ?_ hmint
      · obtain ⟨rfl, -⟩ := hunique x hx.certifies
        have hlt := hx.height_lt
        rw [hheight, hheight, show (setSelfQc x qc t).hqc = s.hqc from hhqc] at hle
        omega
      · rw [h]
        exact hhqc
      · rw [h]
        exact hleaf
    · rw [hheight, hheight, show (setSelfQc b qc t).hqc = s.hqc from hhqc] at hlt
      refine .raise (b := b) ⟨.vote hqueue hqc hnew, hlt⟩ ?_ ?_ hmint
      · rw [h]
        rfl
      · rw [h]
        rfl
  · rw [if_neg hnew]
    refine .stay (fun x hx => hnew (hunique x hx.certifies).2) hhqc hleaf (minted_of_trace htrace)

theorem of_proposalEvent (W : WellFormed E s) {schedule : List ℕ} {p : BlockPtr} {rid : ReplicaID}
    {rest : List Event} {s₁ : Replica V} (h : ProposalStep E schedule p rid rest s s₁ s') :
    LeafStep E s (.event schedule) s' := by
  have hminted := h.minted_eq
  rcases (h.frame W).2.1 with ⟨hhqc, hleaf, hle⟩ | ⟨b, hb, hd, hlt, hhqc, hleaf⟩
  · refine .stay (fun x hx => ?_) hhqc hleaf hminted
    have hlt := hx.height_lt
    cases hx.certifies with
    | vote hqueue =>
        rw [h.queue_eq] at hqueue
        cases hqueue
    | proposal hqueue hjustify hundecided =>
        rw [h.queue_eq] at hqueue
        cases hqueue
        have := hle x hjustify hundecided
        omega
  · exact .raise ⟨.proposal h.queue_eq hb hd, hlt⟩ (congrArg Prod.fst hhqc) hleaf hminted

end LeafStep

theorem leaf_step {i : Input} (W : WellFormed E s) (h : step E i s = .ok s') :
    LeafStep E s i s' := by
  cases step_form W h with
  | idle hi =>
      refine .stay (fun b hb => ?_) rfl rfl rfl
      cases hb.certifies with
      | vote hqueue =>
          rw [show s.eventQueue = [] from hi] at hqueue
          cases hqueue
      | proposal hqueue =>
          rw [show s.eventQueue = [] from hi] at hqueue
          cases hqueue
  | voteEvent hqueue hqc => exact .of_voteEvent hqueue hqc
  | proposalEvent hstep => exact .of_proposalEvent W hstep
  | @propose _ nonempty body vm q j hi _ hq _ =>
      have hpropose : i = .doPropose ∨ i = .doEmptyPropose := by
        rcases hi with ⟨rfl, -⟩ | ⟨rfl, -⟩
        · exact Or.inl rfl
        · exact Or.inr rfl
      obtain ⟨hparent, hqc, hproposer⟩ := LeafStep.core_proposed { s with vm := vm } body q j
      refine .mint hpropose hq rfl rfl (LeafStep.of_minted { s with vm := vm } body q j) hparent hqc
        hproposer ?_
      exact List.mem_append_right _ List.mem_cons_self
  | collect =>
      have c := collect_spec W.collector
      exact .stay (not_raises (by simp)) c.keeps.hqc_eq c.keeps.bLeaf_eq
        (minted_of_trace c.trace_eq)
  | _ => exact .stay (not_raises (by simp)) rfl rfl rfl

theorem not_event {i : Input} (hi : i = .doPropose ∨ i = .doEmptyPropose) (schedule : List ℕ) :
    i ≠ .event schedule := by
  rintro rfl
  rcases hi with hi | hi <;> cases hi

/-- A proposal mints the next object on top of the leaf's block. -/
theorem mint_step {i : Input} (W : WellFormed E s) (hi : i = .doPropose ∨ i = .doEmptyPropose)
    (h : step E i s = .ok s') : ∃ q, s.blockStore.blockCache (s.heap.hash s.bLeaf) = some q ∧
      s'.heap.parent s.heap.next = some q ∧ s'.bLeaf = s.heap.next ∧
      s'.minted = s.minted ++ [s.heap.next] ∧ s'.hqc = s.hqc ∧ s'.latestNewQc = s.latestNewQc := by
  cases step_form W h with
  | @propose _ _ body vm q j _ _ hq _ =>
      obtain ⟨hparent, -⟩ := LeafStep.core_proposed (E := E) { s with vm := vm } body q j
      exact ⟨q, hq, hparent, rfl, LeafStep.of_minted { s with vm := vm } body q j, rfl, rfl⟩
  | idle hi' => rcases hi with rfl | rfl <;> exact absurd hi' (by simp [Idle])
  | _ => rcases hi with hi | hi <;> cases hi

/-! ## One hash, one block -/

/-- No two headers of a replica's objects have one hash, and none has the hash of genesis. -/
structure NoCollision (s : Replica V) : Prop where
  header_eq : ∀ p q, p < s.heap.next → q < s.heap.next → p ≠ genesisPtr → q ≠ genesisPtr →
    s.heap.hash p = s.heap.hash q → s.heap.header p = s.heap.header q
  ne_zero : ∀ p, p < s.heap.next → p ≠ genesisPtr → s.heap.hash p ≠ 0#256

/-- Links and objects are only added. -/
theorem heap_step {i : Input} (W : WellFormed E s) (h : step E i s = .ok s') :
    Heap.Extends s.heap s'.heap := by
  rcases (step_cases W h).2 with o | ⟨_, _, _, _, _, -, hstep⟩
  · exact o.heap
  · exact (hstep.frame W).1.cores.extends

/-- A certificate is shown on a linked object. -/
theorem Certifies.settled (W : WellFormed E s) {i : Input} {b : BlockPtr} (h : Certifies E s i b) :
    s.heap.Settled b := by
  cases h with
  | @vote _ cert _ rid _ _ hqueue =>
      have he : Event.Ok s.heap (.vote cert b rid) := W.events _ (hqueue ▸ List.mem_cons_self)
      exact he.1
  | proposal _ hjustify => exact W.shape.settled_justify hjustify

/-- No step lowers the highest certified block. -/
theorem hqc_le_step {i : Input} (W : WellFormed E s) (h : step E i s = .ok s') :
    s.heap.height s.hqc.1 ≤ s'.heap.height s'.hqc.1 := by
  have H := heap_step W h
  cases leaf_step W h with
  | stay _ hhqc => rw [hhqc, H.height_eq W.hqc_settled]
  | raise hr hhqc =>
      rw [hhqc, H.height_eq (hr.certifies.settled W)]
      exact hr.height_lt.le
  | mint _ _ hhqc => rw [hhqc, H.height_eq W.hqc_settled]

/-- A block is not above the highest certified block once a certificate on it was shown. -/
theorem Certifies.height_le {i : Input} {b : BlockPtr} (W : WellFormed E s) (h : Certifies E s i b)
    (hstep : step E i s = .ok s') : s'.heap.height b ≤ s'.heap.height s'.hqc.1 := by
  by_cases hlt : s.heap.height s.hqc.1 < s.heap.height b
  · cases leaf_step W hstep with
    | stay hno => exact absurd ⟨h, hlt⟩ (hno b)
    | raise hr hhqc => rw [hhqc, h.unique hr.certifies]
    | mint hi => exact absurd ⟨h, hlt⟩ (not_raises (not_event hi) b)
  · have hle := hqc_le_step W hstep
    rw [(heap_step W hstep).height_eq (h.settled W)]
    omega

namespace NoCollision

/-- What there is no collision of later there was none of before. -/
theorem of_step {i : Input} (W : WellFormed E s) (h : step E i s = .ok s') (N : NoCollision s') :
    NoCollision s := by
  have hlabel := fun p hp => label_step W h (p := p) hp
  have hlt : ∀ {p}, p < s.heap.next → p < s'.heap.next := fun hp =>
    lt_of_lt_of_le hp (heap_step W h).next_le
  constructor
  · intro p q hp hq hp0 hq0 heq
    rw [← Heap.hash_of_label (hlabel p hp), ← Heap.hash_of_label (hlabel q hq)] at heq
    rw [← Heap.header_of_label (hlabel p hp), ← Heap.header_of_label (hlabel q hq)]
    exact N.header_eq p q (hlt hp) (hlt hq) hp0 hq0 heq
  · intro p hp hp0
    rw [← Heap.hash_of_label (hlabel p hp)]
    exact N.ne_zero p (hlt hp) hp0

variable {p q : BlockPtr}

/-- **Objects of one block hang off one parent.** -/
theorem parent_eq (N : NoCollision s) (W : WellFormed E s) (hp : s.heap.Settled p)
    (hq : s.heap.Settled q) (h : s.heap.hash p = s.heap.hash q) :
    s.heap.parent p = s.heap.parent q := by
  have hp' := W.shape.lt_next_of_settled hp
  have hq' := W.shape.lt_next_of_settled hq
  rcases hp with rfl | ⟨a, ha⟩
  · by_contra hne
    have hq0 : q ≠ genesisPtr := by
      rintro rfl
      exact hne rfl
    apply N.ne_zero q hq' hq0
    rw [← h, W.shape.hash_genesis]
  · have hp0 := W.shape.ne_genesis_of_parent ha
    rcases hq with rfl | ⟨b, hb⟩
    · exact absurd (h.trans W.shape.hash_genesis) (N.ne_zero p hp' hp0)
    · have hheader := N.header_eq p q hp' hq' hp0 (W.shape.ne_genesis_of_parent hb) h
      have hab := W.shape.parent_cached ha
      rw [hheader, W.shape.parent_cached hb] at hab
      rw [ha, hb, hab]

/-- They are at one height. -/
theorem height_eq (N : NoCollision s) (W : WellFormed E s) (hp : s.heap.Settled p)
    (hq : s.heap.Settled q) (h : s.heap.hash p = s.heap.hash q) :
    s.heap.height p = s.heap.height q := by
  have hparent := N.parent_eq W hp hq h
  rcases ha : s.heap.parent p with _ | a
  · have hb : s.heap.parent q = none := hparent.symm.trans ha
    rw [(W.shape.unlinked p ha).2, (W.shape.unlinked q hb).2]
  · have hb : s.heap.parent q = some a := hparent.symm.trans ha
    rw [W.shape.height_parent ha, W.shape.height_parent hb]

/-- What is below one object of a block is below each of them. -/
theorem descends (N : NoCollision s) (W : WellFormed E s) {a : BlockPtr}
    (hp : s.heap.Settled p) (hq : s.heap.Settled q) (h : s.heap.hash p = s.heap.hash q)
    (ha : Descends s.heap.parent p a) :
    ∃ b, Descends s.heap.parent q b ∧ s.heap.hash b = s.heap.hash a := by
  rcases hr : s.heap.parent p with _ | r
  · obtain rfl := (descends_iff_of_root hr).mp ha
    exact ⟨q, Descends.refl q, h.symm⟩
  · rcases (descends_iff_of_parent hr).mp ha with rfl | hra
    · exact ⟨q, Descends.refl q, h.symm⟩
    · have hr' : s.heap.parent q = some r := (N.parent_eq W hp hq h).symm.trans hr
      exact ⟨a, Descends.head hr' hra, rfl⟩

end NoCollision

/-! ## Heights of the minted blocks -/

/-- If the input raises the highest certificate, the leaf is not moved down. -/
def LeafKept (E : Setup V) (s : Replica V) (i : Input) : Prop :=
  ∀ b, Raises E s i b → s.heap.height s.bLeaf ≤ s.heap.height b

/-- The leaf is as high as every minted block, and the blocks were minted at increasing heights. -/
structure Ahead (s : Replica V) : Prop where
  settled : ∀ p ∈ s.minted, s.heap.Settled p
  le_leaf : ∀ p ∈ s.minted, s.heap.height p ≤ s.heap.height s.bLeaf
  increasing : s.mintedHeights.Pairwise (· < ·)

theorem mintedHeights_of_extends (H : Heap.Extends s.heap s'.heap)
    (hset : ∀ p ∈ s.minted, s.heap.Settled p) :
    s.minted.map s'.heap.height = s.mintedHeights := by
  unfold mintedHeights
  rw [List.map_inj_left]
  exact fun p hp => H.height_eq (hset p hp)

/-- A new block is one above the leaf. -/
theorem height_mint (W : WellFormed E s) (W' : WellFormed E s') (N : NoCollision s)
    (H : Heap.Extends s.heap s'.heap) {q : BlockPtr}
    (hq : s.blockStore.blockCache (s.heap.hash s.bLeaf) = some q)
    (hparent : s'.heap.parent s.heap.next = some q) :
    s'.heap.height s.heap.next = s.heap.height s.bLeaf + 1 := by
  obtain ⟨hhash, hset⟩ := W.shape.cached hq
  rw [W'.shape.height_parent hparent, H.height_eq hset, N.height_eq W hset W.leaf_settled hhash]

/-- **Every step that keeps the leaf up keeps `Ahead`.** -/
theorem Ahead.step {i : Input} (A : Ahead s) (W : WellFormed E s) (N : NoCollision s)
    (hkept : LeafKept E s i) (h : Hotstuff.step E i s = .ok s') : Ahead s' := by
  have W' := (step_cases W h).1
  have H := heap_step W h
  have hsame : s'.minted = s.minted → (∀ p ∈ s'.minted, s'.heap.Settled p) ∧
      s'.mintedHeights.Pairwise (· < ·) := by
    intro hminted
    unfold mintedHeights
    rw [hminted, mintedHeights_of_extends H A.settled]
    exact ⟨fun p hp => H.settled (A.settled p hp), A.increasing⟩
  cases leaf_step W h with
  | stay _ _ hleaf hminted =>
      refine ⟨(hsame hminted).1, fun p hp => ?_, (hsame hminted).2⟩
      rw [hminted] at hp
      rw [hleaf, H.height_eq (A.settled p hp), H.height_eq W.leaf_settled]
      exact A.le_leaf p hp
  | @raise b hr hhqc hleaf hminted =>
      refine ⟨(hsame hminted).1, fun p hp => ?_, (hsame hminted).2⟩
      rw [hminted] at hp
      have hset := hr.certifies.settled W
      rw [hleaf, H.height_eq (A.settled p hp), H.height_eq hset]
      exact (A.le_leaf p hp).trans (hkept b hr)
  | mint hi hq hhqc hleaf hminted hparent =>
      have hheight := height_mint W W' N H hq hparent
      have hold : ∀ p ∈ s.minted, s'.heap.height p < s'.heap.height s.heap.next := by
        intro p hp
        have hle := A.le_leaf p hp
        rw [hheight, H.height_eq (A.settled p hp)]
        omega
      refine ⟨fun p hp => ?_, fun p hp => ?_, ?_⟩
      · rw [hminted] at hp
        rcases List.mem_append.mp hp with hp | hp
        · exact H.settled (A.settled p hp)
        · rw [List.mem_singleton.mp hp]
          exact Or.inr ⟨_, hparent⟩
      · rw [hminted] at hp
        rw [hleaf]
        rcases List.mem_append.mp hp with hp | hp
        · exact (hold p hp).le
        · rw [List.mem_singleton.mp hp]
      · unfold mintedHeights
        rw [hminted, List.map_append, mintedHeights_of_extends H A.settled, List.pairwise_append]
        refine ⟨A.increasing, by simp, ?_⟩
        intro x hx y hy
        obtain ⟨p, hp, rfl⟩ := List.mem_map.mp hx
        simp only [List.map_cons, List.map_nil, List.mem_singleton] at hy
        rw [hy, ← H.height_eq (A.settled p hp)]
        exact hold p hp

/-- A leaf that is not the highest certified block was minted. -/
theorem leaf_source {i : Input} (W : WellFormed E s) (h : step E i s = .ok s')
    (hs : s.bLeaf = s.hqc.1 ∨ s.bLeaf ∈ s.minted) : s'.bLeaf = s'.hqc.1 ∨ s'.bLeaf ∈ s'.minted := by
  cases leaf_step W h with
  | stay _ hhqc hleaf hminted =>
      rw [hhqc, hleaf, hminted]
      exact hs
  | raise _ hhqc hleaf => exact Or.inl (hleaf.trans hhqc.symm)
  | mint _ _ _ hleaf hminted =>
      right
      rw [hleaf, hminted]
      simp

theorem ahead_of_reach (h : Reach (step E) (LeafKept E) (start E) s) :
    WellFormed E s ∧ (s.bLeaf = s.hqc.1 ∨ s.bLeaf ∈ s.minted) ∧ (NoCollision s → Ahead s) := by
  refine h.invariant (I := fun s => WellFormed E s ∧ (s.bLeaf = s.hqc.1 ∨ s.bLeaf ∈ s.minted) ∧
    (NoCollision s → Ahead s)) ⟨WellFormed.start E, Or.inl rfl, fun _ => ?_⟩ ?_
  · have hnil : (start E).minted = [] := rfl
    exact ⟨by simp [hnil], by simp [hnil], by simp [mintedHeights, hnil]⟩
  · rintro t u i ⟨W, hsource, hahead⟩ hkept hstep
    refine ⟨(step_cases W hstep).1, leaf_source W hstep hsource, fun N => ?_⟩
    have N₀ := N.of_step W hstep
    exact (hahead N₀).step W N₀ hkept hstep

/-- The next proposal after the leaf was moved below a minted block is not above that block. -/
theorem not_increasing {j : Input} (W : WellFormed E t) (N : NoCollision t)
    (hj : j = .doPropose ∨ j = .doEmptyPropose) (h : step E j t = .ok u) {p : BlockPtr}
    (hp : p ∈ t.minted) (hset : t.heap.Settled p) (hlt : t.heap.height t.bLeaf < t.heap.height p) :
    ¬ u.mintedHeights.Pairwise (· < ·) := by
  obtain ⟨q, hq, hparent, -, hminted, -⟩ := mint_step W hj h
  have H := heap_step W h
  have hheight := height_mint W (step_cases W h).1 N H hq hparent
  intro hall
  unfold mintedHeights at hall
  rw [hminted, List.map_append, List.pairwise_append] at hall
  have hold := hall.2.2 _ (List.mem_map_of_mem hp) _ (List.mem_singleton.mpr rfl)
  rw [hheight, H.height_eq hset] at hold
  omega

/-- **A replica does not fork itself while its leaf is kept up.** In every run in which no step that
raises the highest certificate moves the leaf down, the blocks a replica mints are at strictly increasing
heights, so no two of them are at one height. After a step that moves the leaf down the next proposal is
not above all earlier ones. -/
theorem minted_heights_increase (h : Reach (step E) (LeafKept E) (start E) s) (N : NoCollision s) :
    s.mintedHeights.Pairwise (· < ·) ∧
    (∀ p ∈ s.minted, ∀ q ∈ s.minted, s.heap.height p = s.heap.height q → p = q) ∧
    ∀ i t, step E i s = .ok t → NoCollision t → ¬ LeafKept E s i →
      ∀ j u, j = .doPropose ∨ j = .doEmptyPropose → step E j t = .ok u →
        ¬ u.mintedHeights.Pairwise (· < ·) := by
  obtain ⟨W, hsource, hahead⟩ := ahead_of_reach h
  have A := hahead N
  refine ⟨A.increasing, fun p hp q hq heq => ?_, fun i t hstep Nt hkept j u hj hnext => ?_⟩
  · have hnodup : s.mintedHeights.Nodup := A.increasing.imp fun hlt => Nat.ne_of_lt hlt
    exact List.inj_on_of_nodup_map hnodup hp hq heq
  · unfold LeafKept at hkept
    push Not at hkept
    obtain ⟨b, hr, hlt⟩ := hkept
    have hbelow := hr.height_lt
    -- the leaf was above the certified block, so it was minted
    have hleaf : s.bLeaf ∈ s.minted := by
      rcases hsource with heq | hmem
      · rw [heq] at hlt
        omega
      · exact hmem
    have H := heap_step W hstep
    have hset : s.heap.Settled b := W.shape.settled_of_height_pos (by omega)
    cases leaf_step W hstep with
    | stay hno => exact absurd hr (hno b)
    | @raise b' hr' _ hleaf' hminted =>
        obtain rfl := hr.certifies.unique hr'.certifies
        refine not_increasing (step_cases W hstep).1 Nt hj hnext (p := s.bLeaf) ?_ ?_ ?_
        · rw [hminted]
          exact hleaf
        · exact H.settled W.leaf_settled
        · rw [hleaf', H.height_eq hset, H.height_eq W.leaf_settled]
          exact hlt
    | mint hi => exact absurd hr (not_raises (not_event hi) b)

/-! ### A late certificate -/

namespace Instance

/-- The hash of a block also depends on the block its certificate is on. -/
def qcCrypto : Crypto :=
  { crypto with
    hashHeader := fun h => h.parentHash * 1000000#256 + h.qc.justify * 1000#256 + h.bodyHash }

/-- A single replica. -/
def soloSetup : Setup Unit := { setup 1 0 with crypto := qcCrypto }

def noCollisionCheck {V : Type} (s : Replica V) : Bool :=
  (List.range s.heap.next).all fun p => p == genesisPtr || (s.heap.hash p != 0#256 &&
    (List.range s.heap.next).all fun q => q == genesisPtr ||
      s.heap.hash p != s.heap.hash q || s.heap.header p == s.heap.header q)

theorem noCollision_of_check {V : Type} {s : Replica V} (h : noCollisionCheck s = true) :
    NoCollision s := by
  have hall : ∀ p, p < s.heap.next → p = genesisPtr ∨ (s.heap.hash p ≠ 0#256 ∧
      ∀ q, q < s.heap.next → q = genesisPtr ∨ s.heap.hash p ≠ s.heap.hash q ∨
        s.heap.header p = s.heap.header q) := by
    intro p hp
    have hone := List.all_eq_true.mp h p (List.mem_range.mpr hp)
    simpa [or_assoc] using hone
  constructor
  · intro p q hp hq hp0 hq0 heq
    rcases ((hall p hp).resolve_left hp0).2 q hq with hq' | hne | hheader
    · exact absurd hq' hq0
    · exact absurd heq hne
    · exact hheader
  · exact fun p hp hp0 => ((hall p hp).resolve_left hp0).1

/-- The test of `LeafKept` on what an event certifies. -/
def leafKeptCheck (s : Replica Unit) : Input → Bool
  | .event _ =>
    match s.eventQueue with
    | .vote _ b _ :: _ => s.heap.height s.bLeaf ≤ s.heap.height b
    | .proposal p _ :: _ =>
      match s.heap.justify p with
      | some b => s.heap.height b ≤ s.heap.height s.hqc.1 ||
          s.heap.height s.bLeaf ≤ s.heap.height b
      | none => true
    | [] => true
  | _ => true

theorem leafKept_of_check {E : Setup Unit} (s : Replica Unit) (i : Input)
    (h : leafKeptCheck s i = true) : LeafKept E s i := by
  rintro b ⟨hc, hlt⟩
  unfold leafKeptCheck at h
  cases hc with
  | vote hqueue =>
      simp only [hqueue, decide_eq_true_eq] at h
      exact h
  | proposal hqueue hjustify =>
      simp only [hqueue, hjustify, Bool.or_eq_true, decide_eq_true_eq] at h
      omega

/-- Two proposals in a row; the vote for the first is processed, and a third proposal is made. -/
def lateCertificate : List Input :=
  [.doEmptyPropose, .doEmptyPropose, .event [], .event [], .event [], .doEmptyPropose]

end Instance

/-- A single replica that waits for its vote mints at heights 1 and 2. -/
theorem minted_heights_increase_solo : ∃ s : Replica Unit, s.mintedHeights = [1, 2] ∧
    s.mintedHeights.Pairwise (· < ·) := by
  have hrun : Instance.observeIf Instance.soloSetup Instance.leafKeptCheck (Instance.soloRounds 2)
      (fun s => (s.mintedHeights, Instance.noCollisionCheck s)) = some ([1, 2], true) := by
    decide +kernel
  obtain ⟨s, hreach, hobs⟩ := Instance.exists_of_observeIf Instance.leafKept_of_check hrun
  obtain ⟨hheights, hcheck⟩ := Prod.mk.inj hobs
  exact ⟨s, hheights, (minted_heights_increase hreach (Instance.noCollision_of_check hcheck)).1⟩

/-- The vote for the first of two proposals takes the leaf back, and the third is at height 2 again. -/
theorem minted_twice_at_one_height : ¬ ∀ s : Replica Unit,
    Reach (step Instance.soloSetup) anyInput (start Instance.soloSetup) s → NoCollision s →
      s.mintedHeights.Pairwise (· < ·) := by
  intro hall
  have hrun : Instance.observe Instance.soloSetup Instance.lateCertificate
      (fun s => (s.mintedHeights, Instance.noCollisionCheck s)) = some ([1, 2, 2], true) := by
    decide +kernel
  obtain ⟨s, hreach, hobs⟩ := Instance.exists_of_observe hrun
  obtain ⟨hheights, hcheck⟩ := Prod.mk.inj hobs
  have hincreasing := hall s hreach (Instance.noCollision_of_check hcheck)
  rw [hheights] at hincreasing
  simp at hincreasing

end Fred.Hotstuff
