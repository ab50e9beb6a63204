/-
# Fred.Hotstuff.Accepted -- what a replica sends is accepted

A message passes a check on its way in, and what is sent on later carries certificates that were put
together or stored long before. `Presentable` says that every certificate a replica holds passes the
check it will meet elsewhere, and that the votes it has yet to count were checked. A step keeps that,
so the three kinds of message of a replica are accepted by every other replica of its configuration:
its proposals, its votes, and the blocks its fetch server hands out (`sent_accepted`).

`block_fetch_server.cc` is the other end of a fetch: `fetch` looks up the hashes one by one and skips
what is not stored and what has lost its body.
-/
import Fred.Hotstuff.CertificateChecks
import Fred.Hotstuff.Leaf
import Fred.Hotstuff.Evidence
import Fred.Hotstuff.Bodies

namespace Fred.Hotstuff

open Fred.Forest Fred.Transition Replica

variable {V : Type} {E : Setup V} {s s' : Replica V}

/-! ## `BlockFetchHandler` -/

namespace Replica

/-- The block `fetch` answers a hash with, if it answers. -/
def fetchOne (s : Replica V) (hash : Hash) : Option HotstuffBlockWire :=
  match s.blockStore.getBlock hash with
  | none => none
  | some p =>
    if (s.heap.get p).flushedFromMemory then none else some (s.heap.get p).wireBlock

/-- `BlockFetchHandler::fetch`. -/
def fetch (reqs : List Hash) (s : Replica V) : List HotstuffBlockWire := reqs.filterMap s.fetchOne

theorem mem_fetch {reqs : List Hash} {wire : HotstuffBlockWire} :
    wire ∈ s.fetch reqs ↔ ∃ hash ∈ reqs, ∃ p, s.blockStore.blockCache hash = some p ∧
      (s.heap.get p).flushedFromMemory = false ∧ (s.heap.get p).wireBlock = wire := by
  unfold fetch
  rw [List.mem_filterMap]
  refine exists_congr fun hash => and_congr_right fun _ => ?_
  unfold fetchOne BlockStore.getBlock
  cases s.blockStore.blockCache hash with
  | none => simp
  | some p => cases hf : (s.heap.get p).flushedFromMemory <;> simp [hf]

end Replica

/-! ## The checks of what is held -/

/-- The certificate passes the check of whoever decodes it. -/
def Passes (E : Setup V) (w : QuorumCertificateWire) : Prop :=
  (QuorumCertificate.ofWire w).verify E.crypto E.config = .ok true

/-- The identifiers fit the bitmap, and the replica signs with the key that is configured for it. -/
structure Keyed (E : Setup V) : Prop where
  ids : ∀ rid ∈ E.config.ids, rid < maxReplicas
  key : ∃ info, E.config.getInfo E.selfId = .ok info ∧
    ∀ h, E.crypto.checkSig (E.crypto.sign h E.secretKey) h info.pk = true

theorem ReplicaConfig.isValidReplica_of_getInfo {c : ReplicaConfig} {rid : ReplicaID}
    {info : ReplicaInfo} (h : c.getInfo rid = .ok info) : c.isValidReplica rid = true := by
  have hkey : c.getPublickey rid = .ok info.pk := by
    unfold getPublickey
    rw [h]
    rfl
  exact isValidReplica_of_getPublickey hkey

theorem Keyed.isValidReplica (K : Keyed E) : E.config.isValidReplica E.selfId = true := by
  obtain ⟨info, hinfo, -⟩ := K.key
  exact ReplicaConfig.isValidReplica_of_getInfo hinfo

/-- Certificates in headers pass, and those collected on objects are built from checked votes. -/
structure HeapPresentable (E : Setup V) (h : Heap) : Prop where
  headers : ∀ p, p ≠ genesisPtr → p < h.next → Passes E (h.header p).qc
  collected : ∀ p, p < h.next → BuiltFrom E.crypto E.config (h.hash p) (h.get p).selfQc

/-- Every certificate a replica holds passes where it is sent, and votes to be counted were checked. -/
structure Presentable (E : Setup V) (s : Replica V) : Prop where
  heap : HeapPresentable E s.heap
  hqc : Passes E s.hqc.2
  events : ∀ cert b rid, Event.vote cert b rid ∈ s.eventQueue →
    VotePassed E.crypto E.config (rid, cert)
  netEvents : ∀ cert rid, NetEvent.vote cert rid ∈ s.netEvents →
    VotePassed E.crypto E.config (rid, cert)
  voted : ∀ p n cert target, Effect.voted p n cert target ∈ s.trace →
    ∃ x, cert = PartialCertificate.create E.crypto x E.secretKey

theorem Keyed.votePassed (K : Keyed E) (x : Hash) :
    VotePassed E.crypto E.config (E.selfId, PartialCertificate.create E.crypto x E.secretKey) := by
  obtain ⟨info, hinfo, hkey⟩ := K.key
  exact ⟨info, hinfo, Or.inr ⟨E.secretKey, rfl, hkey⟩⟩

/-- **Passing on a certificate**: what was decoded and passed passes again when it is encoded anew. -/
theorem Passes.reserialize {w : QuorumCertificateWire} (h : Passes E w) :
    Passes E (QuorumCertificate.ofWire w).serialize := by
  unfold Passes
  rw [QuorumCertificate.ofWire_serialize (QuorumCertificate.pairwise_ofWire w) ?_]
  · exact h
  · intro e he
    rw [QuorumCertificate.sigs_ofWire] at he
    split at he
    · exact BitVec.lt_of_getLsbD (Bitmap.mem_bits.mp (List.of_mem_zip he).1)
    · exact absurd he List.not_mem_nil

namespace HeapPresentable

variable {h h' : Heap}

/-- Links, flags and bodies have no certificates. -/
theorem congr (D : HeapPresentable E h) (hnext : h'.next = h.next)
    (hheader : ∀ p, h'.header p = h.header p) (hself : ∀ p, (h'.get p).selfQc = (h.get p).selfQc) :
    HeapPresentable E h' where
  headers := by
    intro p hp hlt
    rw [hheader]
    exact D.headers p hp (hnext ▸ hlt)
  collected := by
    intro p hlt
    have hhash : h'.hash p = h.hash p := congrArg QuorumCertificate.objHash (hself p)
    rw [hself, hhash]
    exact D.collected p (hnext ▸ hlt)

/-- A new object whose certificate passes; it has collected nothing. -/
theorem alloc (D : HeapPresentable E h) {b : HotstuffBlock}
    (hb : Passes E b.wireBlock.header.qc) (hself : b.selfQc.sigs = []) :
    HeapPresentable E (h.alloc b) := by
  have hcases : ∀ p, p < (h.alloc b).next →
      (p < h.next ∧ (h.alloc b).get p = h.get p) ∨ (h.alloc b).get p = b := by
    intro p hlt
    rcases Nat.lt_succ_iff_lt_or_eq.mp hlt with hlt | rfl
    · exact Or.inl ⟨hlt, Heap.get_alloc_of_ne h b (Nat.ne_of_lt hlt)⟩
    · exact Or.inr (Heap.get_alloc_next h b)
  refine ⟨?_, ?_⟩
  · intro p hp hlt
    show Passes E ((h.alloc b).get p).wireBlock.header.qc
    rcases hcases p hlt with ⟨hold, heq⟩ | heq
    · rw [heq]
      exact D.headers p hp hold
    · rw [heq]
      exact hb
  · intro p hlt
    show BuiltFrom E.crypto E.config ((h.alloc b).get p).getHash ((h.alloc b).get p).selfQc
    rcases hcases p hlt with ⟨hold, heq⟩ | heq
    · rw [heq]
      exact D.collected p hold
    · rw [heq]
      refine ⟨rfl, ?_, ?_⟩ <;> rw [hself]
      · exact List.Pairwise.nil
      · exact fun e he => absurd he List.not_mem_nil

theorem sameCores (D : HeapPresentable E h) (H : Heap.SameCores h h')
    (hself : ∀ p, (h'.get p).selfQc = (h.get p).selfQc) : HeapPresentable E h' :=
  D.congr H.next_eq (congrFun H.header_eq) hself

theorem link (D : HeapPresentable E h) (p q j : BlockPtr) : HeapPresentable E (h.link p q j) :=
  D.congr rfl (Heap.header_link h p q j) (selfQc_link h p q j)

/-- Collecting one more vote. -/
theorem setSelfQc (D : HeapPresentable E h) {b : BlockPtr} {qc : QuorumCertificate}
    (hqc : BuiltFrom E.crypto E.config (h.hash b) qc) :
    HeapPresentable E (h.modify b fun x => { x with selfQc := qc }) where
  headers := by
    intro p hp hlt
    have hheader : (h.modify b fun x => { x with selfQc := qc }).header p = h.header p := by
      show ((h.modify b _).get p).wireBlock.header = _
      by_cases hpb : p = b
      · subst hpb
        rw [Heap.get_modify_self]
        rfl
      · rw [Heap.get_modify_of_ne _ _ hpb]
        rfl
    rw [hheader]
    exact D.headers p hp hlt
  collected := by
    intro p hlt
    show BuiltFrom E.crypto E.config ((h.modify b _).get p).getHash _
    by_cases hpb : p = b
    · subst hpb
      rw [Heap.get_modify_self]
      show BuiltFrom E.crypto E.config qc.objHash qc
      rw [hqc.objHash_eq]
      exact hqc
    · rw [Heap.get_modify_of_ne _ _ hpb]
      exact D.collected p hlt

end HeapPresentable

namespace Presentable

theorem start (E : Setup V) : Presentable E (Hotstuff.start E) where
  heap :=
    ⟨fun _ hp hlt => absurd (Nat.lt_one_iff.mp hlt) hp, fun _ _ =>
      ⟨rfl, List.Pairwise.nil, fun _ he => absurd he List.not_mem_nil⟩⟩
  hqc := by
    unfold Passes QuorumCertificate.verify
    rw [QuorumCertificate.objHash_ofWire]
    exact if_pos rfl
  events := fun _ _ _ he => absurd he List.not_mem_nil
  netEvents := fun _ _ he => absurd he List.not_mem_nil
  voted := fun _ _ _ _ he => absurd he List.not_mem_nil

/-- A block whose object passes `validate_hotstuff` carries a certificate that passes. -/
theorem passes_of_validate {wire : HotstuffBlockWire} {source : ReplicaID}
    (h : (HotstuffBlock.receiveBlock E.crypto wire source).validateHotstuff E.crypto E.config =
      .ok true) : Passes E wire.header.qc := by
  unfold HotstuffBlock.validateHotstuff at h
  split at h
  · cases h
  · exact h

theorem accepted (D : Presentable E s) {wire : HotstuffBlockWire} {source : ReplicaID}
    {event : BlockPtr → NetEvent} (hev : ∀ b cert rid, event b ≠ .vote cert rid)
    (hwire : Passes E wire.header.qc) : Presentable E (s.accepted E wire source event) where
  heap := D.heap.alloc hwire rfl
  hqc := D.hqc
  events := D.events
  netEvents := by
    intro cert rid hmem
    rcases List.mem_append.mp hmem with hmem | hmem
    · exact D.netEvents cert rid hmem
    · exact absurd (List.mem_singleton.mp hmem).symm (hev _ _ _)
  voted := D.voted

/-- A vote event builds on what was collected, and a quorum makes a certificate that passes. -/
theorem voteEvent (K : Keyed E) (D : Presentable E s) {b : BlockPtr} {cert : PartialCertificateWire}
    {rid : ReplicaID} {qc : QuorumCertificate} (hb : b < s.heap.next)
    (hpassed : VotePassed E.crypto E.config (rid, cert))
    (hqc : (s.heap.get b).selfQc.addPartialCertificate rid cert = .ok qc) :
    Presentable E (s.voted E b qc) := by
  have hhash := (QuorumCertificate.sigs_addPartialCertificate hqc).2
  obtain ⟨qc', hqc', hbuilt⟩ := (D.heap.collected b hb).addPartialCertificate K.ids hpassed
    (hhash.trans (D.heap.collected b hb).objHash_eq)
  obtain rfl : qc' = qc := Except.ok.inj (hqc'.symm.trans hqc)
  have D₁ : Presentable E (Replica.setSelfQc b qc' s) :=
    ⟨D.heap.setSelfQc hbuilt, D.hqc, D.events, D.netEvents, D.voted⟩
  unfold Replica.voted
  split
  · rename_i hquorum
    rw [Bool.and_eq_true] at hquorum
    rcases updateHqc_cases b qc' (Replica.setSelfQc b qc' s) with ⟨-, h⟩ | ⟨-, h⟩ <;> rw [h]
    · exact ⟨D₁.heap, D₁.hqc, D₁.events, D₁.netEvents, D₁.voted⟩
    · exact ⟨D₁.heap, hbuilt.verify K.ids hquorum.1, D₁.events, D₁.netEvents, D₁.voted⟩
  · exact D₁

/-- A proposal event queues the replica's own vote at most, and passes on the certificate of the
block at most. -/
theorem proposalEvent (W : WellFormed E s) (K : Keyed E) (D : Presentable E s)
    {schedule : List ℕ} {p : BlockPtr} {rid : ReplicaID} {rest : List Event} {s₁ : Replica V}
    (h : ProposalStep E schedule p rid rest s s₁ s') : Presentable E s' := by
  obtain ⟨F, hraise, hqueue⟩ := h.frame W
  refine ⟨D.heap.sameCores F.cores F.selfQc_eq, ?_, ?_, ?_, ?_⟩
  · rcases hraise with ⟨hhqc, -, -⟩ | ⟨blk2, -, -, -, hhqc, -⟩
    · rw [hhqc]
      exact D.hqc
    · have hlt := W.shape.lt_next_of_settled h.settled
      have hparsed : (s.heap.get p).getJustifyQc = .ofWire (s.heap.header p).qc := by
        unfold HotstuffBlock.getJustifyQc
        rw [show (s.heap.get p).parsedQc = _ from W.shape.parsedQc_eq p h.ne_genesis hlt]
        rfl
      rw [hhqc, hparsed]
      exact (D.heap.headers p h.ne_genesis hlt).reserialize
  · intro cert b voter hmem
    have hrest : ∀ e ∈ rest, e ∈ s.eventQueue := fun e he =>
      h.queue_eq ▸ List.mem_cons_of_mem _ he
    rcases hqueue with hqueue | ⟨-, hqueue⟩ <;> rw [hqueue] at hmem
    · exact D.events cert b voter (hrest _ hmem)
    · rcases List.mem_append.mp hmem with hmem | hmem
      · exact D.events cert b voter (hrest _ hmem)
      · obtain ⟨rfl, -, rfl⟩ := Event.vote.inj (List.mem_singleton.mp hmem)
        exact K.votePassed _
  · rw [F.netEvents_eq]
    exact D.netEvents
  · intro q n cert target hmem
    have hmem₁ := h.update.silent.voted_iff.mp hmem
    rcases voteOnProposal_ok (W.popEvent schedule h.queue_eq) h.ne_genesis h.settled h.vote with
      v | ⟨hsame, -⟩
    · obtain ⟨_, -, hs₁⟩ := v.eq
      rw [hs₁] at hmem₁
      rcases List.mem_append.mp hmem₁ with hmem₁ | hmem₁
      · exact D.voted q n cert target hmem₁
      · obtain ⟨-, -, rfl, -⟩ := Effect.voted.inj (List.mem_singleton.mp hmem₁)
        exact ⟨_, rfl⟩
    · rw [hsame] at hmem₁
      exact D.voted q n cert target hmem₁

/-- **Step lemma**: what is held stays presentable. -/
theorem step (W : WellFormed E s) (K : Keyed E) (D : Presentable E s) {i : Input}
    (h : Hotstuff.step E i s = .ok s') : Presentable E s' := by
  cases step_form W h with
  | idle => exact D
  | proposeMessage hvalid hblock => exact D.accepted (by simp) (passes_of_validate hblock)
  | fetchResponse hblock => exact D.accepted (by simp) (passes_of_validate hblock)
  | @voteMessage cert voter info hvalid hinfo hsig =>
      refine ⟨D.heap, D.hqc, D.events, fun cert' rid hmem => ?_, D.voted⟩
      rcases List.mem_append.mp hmem with hmem | hmem
      · exact D.netEvents cert' rid hmem
      · obtain ⟨rfl, rfl⟩ := NetEvent.vote.inj (List.mem_singleton.mp hmem)
        exact ⟨info, hinfo, Or.inl hsig⟩
  | @netVote cert voter b hmem hb =>
      refine ⟨D.heap, D.hqc, fun cert' b' rid hev => ?_, D.netEvents, D.voted⟩
      rcases List.mem_append.mp hev with hev | hev
      · exact D.events cert' b' rid hev
      · obtain ⟨rfl, -, rfl⟩ := Event.vote.inj (List.mem_singleton.mp hev)
        exact D.netEvents cert' rid hmem
  | @netProposal p q j proposer hmem hlinks =>
      refine ⟨D.heap.link p q j, D.hqc, fun cert b rid hev => ?_, D.netEvents, D.voted⟩
      rcases List.mem_append.mp hev with hev | hev
      · exact D.events cert b rid hev
      · exact absurd (List.mem_singleton.mp hev) (by simp)
  | @netReceive p q j sender hmem hlinks =>
      exact ⟨D.heap.link p q j, D.hqc, D.events, D.netEvents, D.voted⟩
  | @voteEvent schedule cert b rid rest qc hqueue hqc =>
      have D₀ : Presentable E { s with eventQueue := rest, schedule := schedule } :=
        ⟨D.heap, D.hqc, fun cert b rid hmem =>
          D.events cert b rid (hqueue ▸ List.mem_cons_of_mem _ hmem), D.netEvents, D.voted⟩
      have hev : Event.Ok s.heap (.vote cert b rid) := W.events _ (hqueue ▸ List.mem_cons_self)
      exact D₀.voteEvent K (W.shape.lt_next_of_settled hev.1)
        (D.events cert b rid (hqueue ▸ List.mem_cons_self)) hqc
  | proposalEvent hstep => exact D.proposalEvent W K hstep
  | @propose i nonempty body vm q j hi hvm hq hj =>
      refine ⟨?_, D.hqc, fun cert b rid hev => ?_, D.netEvents, fun p n cert target hmem => ?_⟩
      · exact HeapPresentable.link (D.heap.alloc (b := HotstuffBlock.mintBlock E.crypto body s.hqc.2
          (s.heap.hash s.bLeaf) E.selfId) D.hqc rfl) _ _ _
      · rcases List.mem_append.mp hev with hev | hev
        · exact D.events cert b rid hev
        · exact absurd (List.mem_singleton.mp hev) (by simp)
      · rcases List.mem_append.mp hmem with hmem | hmem
        · exact D.voted p n cert target hmem
        · exact absurd (List.mem_singleton.mp hmem) (by simp)
  | collect =>
      have c := collect_spec W.collector
      have A := c.flushed.aged
      refine ⟨D.heap.sameCores A.cores A.selfQc_eq, D.hqc, D.events, D.netEvents, ?_⟩
      exact D.voted
  | runVm => exact ⟨D.heap, D.hqc, D.events, D.netEvents, D.voted⟩

end Presentable

theorem presentable_of_reach (K : Keyed E) {P : Replica V → Input → Prop}
    (h : Reach (step E) P (start E) s) : WellFormed E s ∧ Presentable E s := by
  refine h.invariant (I := fun s => WellFormed E s ∧ Presentable E s)
    ⟨WellFormed.start E, Presentable.start E⟩ ?_
  rintro t u i ⟨W, D⟩ - hs
  exact ⟨(step_cases W hs).1, D.step W K hs⟩

/-! ## What is sent is accepted -/

/-- Genesis counts as flushed, so it is never handed out. -/
theorem genesis_flushed_of_reach {P : Replica V → Input → Prop}
    (h : Reach (step E) P (start E) s) :
    WellFormed E s ∧ (s.heap.get genesisPtr).flushedFromMemory = true := by
  refine h.invariant (I := fun s => WellFormed E s ∧ (s.heap.get genesisPtr).flushedFromMemory = true)
    ⟨WellFormed.start E, rfl⟩ ?_
  rintro t u i ⟨W, hgen⟩ - hs
  refine ⟨(step_cases W hs).1, ?_⟩
  by_contra hne
  have hfalse : (u.heap.get genesisPtr).flushedFromMemory = false := by simpa using hne
  rcases (step_cases W hs).2 with o | ⟨_, _, _, _, t₁, -, hstep⟩
  · rw [((o.bodies genesisPtr W.shape.next_pos).2 hfalse).1] at hgen
    cases hgen
  · have hold := (hstep.update.aged.unflushed_of genesisPtr hfalse).1
    rcases voteOnProposal_ok (W.popEvent _ hstep.queue_eq) hstep.ne_genesis hstep.settled
      hstep.vote with v | ⟨hsame, -⟩
    · obtain ⟨_, -, ht₁⟩ := v.eq
      rw [ht₁] at hold
      rw [show (t.heap.get genesisPtr).flushedFromMemory = false from hold] at hgen
      cases hgen
    · rw [hsame] at hold
      rw [show (t.heap.get genesisPtr).flushedFromMemory = false from hold] at hgen
      cases hgen

section
variable {V' : Type} {E' : Setup V'}

/-- A block passes `validate_hotstuff` wherever cryptography and configuration are the same. -/
theorem acceptBlock_of_passes (hcrypto : E'.crypto = E.crypto) (hconfig : E'.config = E.config)
    {wire : HotstuffBlockWire} (hbody : E.crypto.hashBody wire.body = wire.header.bodyHash)
    (hpass : Passes E wire.header.qc) (source : ReplicaID) (event : BlockPtr → NetEvent)
    (t : Replica V') : acceptBlock E' wire source event t = .ok (t.accepted E' wire source event) := by
  have hvalid : (HotstuffBlock.receiveBlock E'.crypto wire source).validateHotstuff E'.crypto
      E'.config = .ok true := by
    unfold HotstuffBlock.validateHotstuff HotstuffBlock.validateHash
    rw [hcrypto, hconfig]
    show (if !(E.crypto.hashBody wire.body == wire.header.bodyHash) then _ else _) = _
    rw [hbody, beq_self_eq_true]
    exact hpass
  unfold Replica.acceptBlock
  dsimp only
  rw [hvalid]
  rfl

/-- **What a replica sends is accepted.** In every run of a replica, under any messages, each of its
messages passes the checks of every replica with the same cryptography and configuration, in whatever
state that is: a proposal and a vote are accepted under its own identifier, and so is every block its
fetch server answers with, which has the hash that was asked for. -/
theorem sent_accepted (K : Keyed E) (hcrypto : E'.crypto = E.crypto)
    (hconfig : E'.config = E.config) {P : Replica V → Input → Prop}
    (h : Reach (step E) P (start E) s) (t : Replica V') :
    (∀ i s', i = .doPropose ∨ i = .doEmptyPropose → step E i s = .ok s' →
      ∃ wire, (s'.heap.get s.heap.next).wireBlock = wire ∧ receivePropose E' wire E.selfId t =
        .ok (t.accepted E' wire E.selfId (.proposal · E.selfId))) ∧
    (∀ p n cert target, Effect.voted p n cert target ∈ s.trace → receiveVote E' cert E.selfId t =
      .ok { t with netEvents := t.netEvents ++ [.vote cert E.selfId] }) ∧
    ∀ reqs wire, wire ∈ s.fetch reqs → E.crypto.hashHeader wire.header ∈ reqs ∧
      ∀ source, receiveFetched E' wire source t =
        .ok (t.accepted E' wire source (.blockReceive · source)) := by
  obtain ⟨W, D⟩ := presentable_of_reach K h
  obtain ⟨info, hinfo, hkey⟩ := K.key
  have hself : E'.config.isValidReplica E.selfId = true := hconfig ▸ K.isValidReplica
  refine ⟨?_, ?_, ?_⟩
  · intro i s' hi hs
    refine ⟨_, rfl, ?_⟩
    have D' := D.step W K hs
    have B' := (bodyLog_of_reach h).step W hs
    obtain ⟨q, -, hparent, -⟩ := mint_step W hi hs
    have W' := (step_cases W hs).1
    have hne := W'.shape.ne_genesis_of_parent hparent
    have hlt := W'.shape.lt_next_of_parent hparent
    have hfresh : (s'.heap.get s.heap.next).flushedFromMemory = false := by
      rcases (step_cases W hs).2 with o | ⟨schedule, _, _, _, _, hev, -⟩
      · exact (o.new _ (Nat.le_refl _) hlt).2.2.1
      · exact absurd hev (not_event hi schedule)
    unfold receivePropose
    rw [hself]
    simp only [Bool.not_true, Bool.false_eq_true, if_false]
    exact acceptBlock_of_passes hcrypto hconfig (B'.body _ hne hlt hfresh) (D'.heap.headers _ hne hlt)
      _ _ t
  · intro p n cert target hmem
    obtain ⟨x, rfl⟩ := D.voted p n cert target hmem
    have hvalid : PartialCertificate.validate E'.crypto
        (PartialCertificate.create E.crypto x E.secretKey) info = true := by
      rw [hcrypto]
      exact hkey x
    unfold receiveVote
    rw [hself, hconfig, hinfo]
    simp only [Bool.not_true, Bool.false_eq_true, if_false]
    rw [if_pos hvalid]
  · intro reqs wire hmem
    obtain ⟨hash, hreq, p, hp, hbody, rfl⟩ := mem_fetch.mp hmem
    obtain ⟨hhash, hset⟩ := W.shape.cached hp
    have hlt := W.shape.lt_next_of_settled hset
    have hne : p ≠ genesisPtr := by
      rintro rfl
      rw [(genesis_flushed_of_reach h).2] at hbody
      cases hbody
    refine ⟨?_, fun source => ?_⟩
    · rw [show (s.heap.get p).wireBlock.header = s.heap.header p from rfl,
        ← W.shape.hash_eq p hne hlt, hhash]
      exact hreq
    · exact acceptBlock_of_passes hcrypto hconfig ((bodyLog_of_reach h).body p hne hlt hbody)
        (D.heap.headers p hne hlt) _ _ t

end

/-! ### Four replicas -/

namespace Instance

theorem keyed_four {rid : ReplicaID} (hrid : rid < 4) : Keyed (setup 4 rid) where
  ids := by
    have hall : ∀ r ∈ (config 4).ids, r < maxReplicas := by decide
    exact hall
  key := by
    refine ⟨⟨rid, BitVec.ofNat 256 rid⟩, ?_, fun h => ?_⟩
    · have hall : ∀ r < 4, (config 4).getInfo r = .ok ⟨r, BitVec.ofNat 256 r⟩ := by decide
      exact hall rid hrid
    · rw [show (setup 4 rid).crypto = crypto from rfl, checkSig_sign_iff]
      exact BitVec.setWidth_ofNat_of_le (by decide) rid

/-- Replica 0 of four proposes a block and votes for it. -/
def proposeAndVote : List Input := [.doEmptyPropose, .event []]

def firstBlock : HotstuffBlockWire := blockOn 0#256 ⟨0#256, 0#32, []⟩ []

def firstVote : PartialCertificateWire := PartialCertificate.create crypto 1#256 (BitVec.ofNat 512 0)

end Instance

open Instance in
/-- Replica 1 accepts the first block of replica 0 when it fetches it, and the vote on it. -/
theorem sent_accepted_four : crypto.hashHeader firstBlock.header = 1#256 ∧
    receiveFetched (setup 4 1) firstBlock 0 (start (setup 4 1)) =
      .ok ((start (setup 4 1)).accepted (setup 4 1) firstBlock 0 (.blockReceive · 0)) ∧
    receiveVote (setup 4 1) firstVote 0 (start (setup 4 1)) =
      .ok { start (setup 4 1) with netEvents := [.vote firstVote 0] } := by
  have hrun : observe (setup 4 0) proposeAndVote (fun s => (s.fetch [1#256], s.trace)) =
      some ([firstBlock], [.proposed 1 1#256, .voted 1 1 firstVote 0]) := by decide +kernel
  obtain ⟨s, hreach, hrun⟩ := exists_of_observe hrun
  obtain ⟨hfetch, htrace⟩ := Prod.mk.inj hrun
  obtain ⟨-, hvotes, hserved⟩ :=
    @sent_accepted Unit (setup 4 0) s Unit (setup 4 1) (keyed_four (by decide)) rfl rfl _ hreach
      (start (setup 4 1))
  have hwire := hserved [1#256] firstBlock (hfetch ▸ List.mem_singleton.mpr rfl)
  refine ⟨List.mem_singleton.mp hwire.1, hwire.2 0, hvotes 1 1 firstVote 0 ?_⟩
  rw [htrace]
  exact List.mem_cons_of_mem _ (List.mem_singleton.mpr rfl)

end Fred.Hotstuff
