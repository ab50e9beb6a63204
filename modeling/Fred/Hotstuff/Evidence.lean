/-
# Fred.Hotstuff.Evidence -- where the signatures a replica holds come from

A replica holds signatures in four places: the certificates in block headers, the highest
certificate, the votes it collects on its objects, and the votes that wait in its queues. `Evidence`
says that each of them was made by its signer, where `signed r x` stands for "`r` has signed `x`" and
is true of a faulty `r` whatever `x` is. A step keeps it if the signatures that arrive with the input
are real (`Unforged`): a certificate is checked before its block is accepted, a vote before it is
queued, and the replica's own votes are its own.
-/
import Fred.Hotstuff.Promises

namespace Fred.Hotstuff

open Fred.Forest Fred.Transition Replica

variable {V : Type} {E : Setup V} {s s' : Replica V}

/-! ## Signatures in transit -/

namespace QuorumCertificate

/-- What is popped off the bitmap is paired with the signatures of the wire. -/
theorem mem_popSigs {sigs : List Signature} {x : ReplicaID × Signature} :
    ∀ {bv : ReplicaIDBitMap} {m : List (ReplicaID × Signature)}, x ∈ popSigs bv sigs m →
      x ∈ m ∨ x.2 ∈ sigs := by
  induction sigs with
  | nil => exact fun h => Or.inl h
  | cons sig rest ih =>
      intro bv m h
      rcases ih h with h | h
      · rcases mem_emplace h with rfl | h
        · exact Or.inr List.mem_cons_self
        · exact Or.inl h
      · exact Or.inr (List.mem_cons_of_mem _ h)

/-- A decoded certificate carries no signature that was not on the wire. -/
theorem sig_mem_of_ofWire {w : QuorumCertificateWire} {x : ReplicaID × Signature}
    (h : x ∈ (ofWire w).sigs) : x.2 ∈ w.sigs := by
  unfold ofWire at h
  split at h
  · cases h
  · exact (mem_popSigs h).resolve_left List.not_mem_nil

/-- A certificate takes one more signature, of the voter. -/
theorem sigs_addPartialCertificate {qc qc' : QuorumCertificate} {rid : ReplicaID}
    {pc : PartialCertificateWire} (h : qc.addPartialCertificate rid pc = .ok qc') :
    qc'.sigs = emplace rid pc.sig qc.sigs ∧ pc.hash = qc.objHash := by
  unfold addPartialCertificate at h
  split_ifs at h with hhash
  rw [← Except.ok.inj h]
  exact ⟨rfl, not_not.mp hhash⟩

end QuorumCertificate

/-- The signatures that arrive with an input, each with the hash it is said to be on. -/
def Input.signatures : Input → List (Signature × Hash)
  | .proposeMessage proposal _ =>
    proposal.header.qc.sigs.map fun sig => (sig, proposal.header.qc.justify)
  | .voteMessage vote _ => [(vote.sig, vote.hash)]
  | .fetchResponse response _ =>
    response.header.qc.sigs.map fun sig => (sig, response.header.qc.justify)
  | _ => []

/-- A signature that arrives and checks under the key of `r` was made by `r`. -/
def Unforged (E : Setup V) (signed : ReplicaID → Hash → Prop) (i : Input) : Prop :=
  ∀ sig x, (sig, x) ∈ i.signatures → ∀ r pk, E.config.getPublickey r = .ok pk →
    E.crypto.checkSig sig x pk = true → signed r x

/-! ## Evidence -/

/-- Genesis needs no votes; a quorum has signed any other hash. -/
def CertifiedHash (c : ReplicaConfig) (signed : ReplicaID → Hash → Prop) (x : Hash) : Prop :=
  x = 0#256 ∨ ∃ Q ⊆ c.ids, c.nmajority ≤ Q.card ∧ ∀ r ∈ Q, signed r x

/-- The vote of `r` on `x` counts. -/
def Vouched (c : ReplicaConfig) (signed : ReplicaID → Hash → Prop) (r : ReplicaID) (x : Hash) :
    Prop :=
  r ∈ c.ids ∧ signed r x

/-- The certificates in headers are on certified blocks, and collected votes were cast. -/
structure HeapEvidence (c : ReplicaConfig) (signed : ReplicaID → Hash → Prop) (h : Heap) :
    Prop where
  headers : ∀ p, p ≠ genesisPtr → p < h.next → CertifiedHash c signed (h.header p).qc.justify
  sorted : ∀ p, p < h.next → (h.get p).selfQc.sigs.Pairwise fun x y => x.1 < y.1
  collected : ∀ p, p < h.next → ∀ e ∈ (h.get p).selfQc.sigs, Vouched c signed e.1 (h.hash p)

/-- Every signature a replica holds was made by its signer. -/
structure Evidence (c : ReplicaConfig) (signed : ReplicaID → Hash → Prop) (s : Replica V) :
    Prop where
  heap : HeapEvidence c signed s.heap
  hqc : CertifiedHash c signed s.hqc.2.justify
  events : ∀ cert b rid, Event.vote cert b rid ∈ s.eventQueue → Vouched c signed rid cert.hash
  netEvents : ∀ cert rid, NetEvent.vote cert rid ∈ s.netEvents → Vouched c signed rid cert.hash

section
variable {c : ReplicaConfig} {signed signed' : ReplicaID → Hash → Prop} {h h' : Heap}

/-- What a quorum has signed stays signed. -/
theorem CertifiedHash.mono (hle : ∀ r x, signed r x → signed' r x) {x : Hash}
    (hx : CertifiedHash c signed x) : CertifiedHash c signed' x := by
  rcases hx with hx | ⟨Q, hQ, hcard, hsig⟩
  · exact Or.inl hx
  · exact Or.inr ⟨Q, hQ, hcard, fun r hr => hle r x (hsig r hr)⟩

/-- A vote that counts still counts. -/
theorem Vouched.mono (hle : ∀ r x, signed r x → signed' r x) {r : ReplicaID} {x : Hash}
    (hx : Vouched c signed r x) : Vouched c signed' r x := ⟨hx.1, hle r x hx.2⟩

/-- Evidence survives later signatures. -/
theorem Evidence.mono (hle : ∀ r x, signed r x → signed' r x) (D : Evidence c signed s) :
    Evidence c signed' s where
  heap :=
    ⟨fun p hp hlt => (D.heap.headers p hp hlt).mono hle, D.heap.sorted,
      fun p hlt e he => (D.heap.collected p hlt e he).mono hle⟩
  hqc := D.hqc.mono hle
  events := fun cert b rid he => (D.events cert b rid he).mono hle
  netEvents := fun cert rid he => (D.netEvents cert rid he).mono hle

/-! ### What an accepted or collected certificate shows -/

/-- A certificate that `verify` accepts is on a certified block. -/
theorem certifiedHash_of_verify {w : QuorumCertificateWire}
    (hsig : ∀ sig ∈ w.sigs, ∀ r pk, E.config.getPublickey r = .ok pk →
      E.crypto.checkSig sig w.justify pk = true → signed r w.justify)
    (hv : (QuorumCertificate.ofWire w).verify E.crypto E.config = .ok true) :
    CertifiedHash E.config signed w.justify := by
  by_cases hgen : w.justify = 0#256
  · exact Or.inl hgen
  · have hobj : (QuorumCertificate.ofWire w).objHash = w.justify :=
      QuorumCertificate.objHash_ofWire w
    refine Or.inr ⟨(QuorumCertificate.ofWire w).validVoters E.crypto E.config,
      QuorumCertificate.validVoters_subset_ids, ?_, ?_⟩
    · apply QuorumCertificate.nmajority_le_card_of_verify
        (QuorumCertificate.pairwise_ofWire w) hv
      rw [hobj]
      exact hgen
    · intro r hr
      obtain ⟨sig, pk, hmem, hk, hchk⟩ := QuorumCertificate.mem_validVoters.mp hr
      rw [hobj] at hchk
      exact hsig sig (QuorumCertificate.sig_mem_of_ofWire hmem) r pk hk hchk

/-- Votes that make a quorum certify the block they are on. -/
theorem certifiedHash_of_hasQuorum {qc : QuorumCertificate}
    (hsorted : qc.sigs.Pairwise fun x y => x.1 < y.1)
    (hvotes : ∀ e ∈ qc.sigs, Vouched c signed e.1 qc.objHash) (hq : qc.hasQuorum c = true) :
    CertifiedHash c signed qc.objHash := by
  refine Or.inr ⟨(qc.sigs.map Prod.fst).toFinset, ?_, ?_, ?_⟩
  · intro r hr
    obtain ⟨e, he, rfl⟩ := List.mem_map.mp (List.mem_toFinset.mp hr)
    exact (hvotes e he).1
  · have hnodup : (qc.sigs.map Prod.fst).Nodup := by
      rw [List.Nodup, List.pairwise_map]
      exact hsorted.imp Nat.ne_of_lt
    rw [List.toFinset_card_of_nodup hnodup, List.length_map]
    exact of_decide_eq_true hq
  · intro r hr
    obtain ⟨e, he, rfl⟩ := List.mem_map.mp (List.mem_toFinset.mp hr)
    exact (hvotes e he).2

/-! ### Parts of a step -/

namespace HeapEvidence

/-- Links, flags and flushed bodies are no evidence. -/
theorem congr (D : HeapEvidence c signed h) (hnext : h'.next = h.next)
    (hheader : ∀ p, h'.header p = h.header p) (hself : ∀ p, (h'.get p).selfQc = (h.get p).selfQc) :
    HeapEvidence c signed h' where
  headers := by
    intro p hp hlt
    rw [hheader]
    exact D.headers p hp (hnext ▸ hlt)
  sorted := by
    intro p hlt
    rw [hself]
    exact D.sorted p (hnext ▸ hlt)
  collected := by
    intro p hlt e he
    have hhash : h'.hash p = h.hash p := congrArg QuorumCertificate.objHash (hself p)
    rw [hself] at he
    rw [hhash]
    exact D.collected p (hnext ▸ hlt) e he

/-- A new object has collected no votes. -/
theorem alloc (D : HeapEvidence c signed h) {b : HotstuffBlock}
    (hb : CertifiedHash c signed b.wireBlock.header.qc.justify) (hself : b.selfQc.sigs = []) :
    HeapEvidence c signed (h.alloc b) := by
  have hcases : ∀ p, p < (h.alloc b).next →
      (p < h.next ∧ (h.alloc b).get p = h.get p) ∨ (h.alloc b).get p = b := by
    intro p hlt
    rcases Nat.lt_succ_iff_lt_or_eq.mp hlt with hlt | rfl
    · exact Or.inl ⟨hlt, Heap.get_alloc_of_ne h b (Nat.ne_of_lt hlt)⟩
    · exact Or.inr (Heap.get_alloc_next h b)
  refine ⟨?_, ?_, ?_⟩
  · intro p hp hlt
    show CertifiedHash c signed ((h.alloc b).get p).wireBlock.header.qc.justify
    rcases hcases p hlt with ⟨hold, heq⟩ | heq
    · rw [heq]
      exact D.headers p hp hold
    · rw [heq]
      exact hb
  · intro p hlt
    rcases hcases p hlt with ⟨hold, heq⟩ | heq
    · rw [heq]
      exact D.sorted p hold
    · rw [heq, hself]
      exact List.Pairwise.nil
  · intro p hlt e he
    show Vouched c signed e.1 ((h.alloc b).get p).getHash
    rcases hcases p hlt with ⟨hold, heq⟩ | heq
    · rw [heq] at he ⊢
      exact D.collected p hold e he
    · rw [heq, hself] at he
      cases he

/-- Collecting one more vote. -/
theorem setSelfQc (D : HeapEvidence c signed h) {b : BlockPtr} (hb : b < h.next) {rid : ReplicaID}
    {cert : PartialCertificateWire} {qc : QuorumCertificate}
    (hqc : (h.get b).selfQc.addPartialCertificate rid cert = .ok qc)
    (hvote : Vouched c signed rid cert.hash) :
    HeapEvidence c signed (h.modify b fun x => { x with selfQc := qc }) ∧
      (qc.sigs.Pairwise fun x y => x.1 < y.1) ∧
      ∀ e ∈ qc.sigs, Vouched c signed e.1 qc.objHash := by
  obtain ⟨hsigs, hhash⟩ := QuorumCertificate.sigs_addPartialCertificate hqc
  have hobj : qc.objHash = (h.get b).selfQc.objHash :=
    QuorumCertificate.objHash_addPartialCertificate hqc
  have hsorted : qc.sigs.Pairwise fun x y => x.1 < y.1 := by
    rw [hsigs]
    exact pairwise_emplace (D.sorted b hb)
  have hvotes : ∀ e ∈ qc.sigs, Vouched c signed e.1 qc.objHash := by
    intro e he
    rw [hsigs] at he
    rcases mem_emplace he with rfl | he
    · rw [hobj, ← hhash]
      exact hvote
    · rw [hobj]
      exact D.collected b hb e he
  refine ⟨⟨?_, ?_, ?_⟩, hsorted, hvotes⟩
  · intro p hp hlt
    have hheader : (h.modify b fun x => { x with selfQc := qc }).header p = h.header p := by
      by_cases hpb : p = b
      · subst hpb
        show ((h.modify p _).get p).wireBlock.header = _
        rw [Heap.get_modify_self]
        rfl
      · show ((h.modify b _).get p).wireBlock.header = _
        rw [Heap.get_modify_of_ne _ _ hpb]
        rfl
    rw [hheader]
    exact D.headers p hp hlt
  · intro p hlt
    by_cases hpb : p = b
    · subst hpb
      rw [Heap.get_modify_self]
      exact hsorted
    · rw [Heap.get_modify_of_ne _ _ hpb]
      exact D.sorted p hlt
  · intro p hlt e he
    show Vouched c signed e.1 ((h.modify b _).get p).getHash
    by_cases hpb : p = b
    · subst hpb
      rw [Heap.get_modify_self] at he ⊢
      exact hvotes e he
    · rw [Heap.get_modify_of_ne _ _ hpb] at he ⊢
      exact D.collected p hlt e he

end HeapEvidence

end

namespace Evidence

variable {signed : ReplicaID → Hash → Prop}

/-- A new replica holds genesis only, which needs no votes. -/
theorem start (E : Setup V) (c : ReplicaConfig) : Evidence c signed (Hotstuff.start E) where
  heap :=
    ⟨fun _ hp hlt => absurd (Nat.lt_one_iff.mp hlt) hp, fun _ _ => List.Pairwise.nil,
      fun _ _ _ he => absurd he List.not_mem_nil⟩
  hqc := Or.inl rfl
  events := fun _ _ _ he => absurd he List.not_mem_nil
  netEvents := fun _ _ he => absurd he List.not_mem_nil

/-- An event with evidence may be queued. -/
theorem validateAndAddEvent {c : ReplicaConfig} (D : Evidence c signed s) {e : Event}
    (he : ∀ cert b rid, e = .vote cert b rid → Vouched c signed rid cert.hash)
    (h : s.validateAndAddEvent e = .ok s') : Evidence c signed s' := by
  have hadd : Evidence c signed { s with eventQueue := s.eventQueue ++ [e] } := by
    refine ⟨D.heap, D.hqc, fun cert b rid hmem => ?_, D.netEvents⟩
    rcases List.mem_append.mp hmem with hmem | hmem
    · exact D.events cert b rid hmem
    · exact he cert b rid (List.mem_singleton.mp hmem).symm
  unfold Replica.validateAndAddEvent at h
  split at h <;> split at h
  · cases h
  · exact Except.ok.inj h ▸ hadd
  · exact Except.ok.inj h ▸ D
  · exact Except.ok.inj h ▸ hadd

/-- The highest certificate may become one on a certified block. -/
theorem updateHqc {c : ReplicaConfig} (D : Evidence c signed s) {b : BlockPtr}
    {qc : QuorumCertificate} (hqc : CertifiedHash c signed qc.objHash) :
    Evidence c signed (Replica.updateHqc b qc s) := by
  unfold Replica.updateHqc
  split
  · exact ⟨D.heap, hqc, D.events, D.netEvents⟩
  · exact D

/-! ### The network side -/

/-- The certificate of an accepted block was checked. -/
theorem acceptBlock (D : Evidence E.config signed s) {wire : HotstuffBlockWire}
    {source : ReplicaID} {event : BlockPtr → NetEvent}
    (hev : ∀ b cert rid, event b ≠ .vote cert rid)
    (hsig : ∀ sig ∈ wire.header.qc.sigs, ∀ r pk, E.config.getPublickey r = .ok pk →
      E.crypto.checkSig sig wire.header.qc.justify pk = true → signed r wire.header.qc.justify)
    (h : acceptBlock E wire source event s = .ok s') : Evidence E.config signed s' := by
  unfold Replica.acceptBlock at h
  dsimp only at h
  split at h
  · cases h
  · exact Except.ok.inj h ▸ D
  · rename_i hv
    obtain rfl := Except.ok.inj h
    have hverify : (QuorumCertificate.ofWire wire.header.qc).verify E.crypto E.config =
        .ok true := by
      unfold HotstuffBlock.validateHotstuff at hv
      split at hv
      · cases hv
      · exact hv
    refine ⟨D.heap.alloc (certifiedHash_of_verify hsig hverify) rfl, D.hqc, D.events, ?_⟩
    intro cert rid hmem
    rcases List.mem_append.mp hmem with hmem | hmem
    · exact D.netEvents cert rid hmem
    · exact absurd (List.mem_singleton.mp hmem).symm (hev _ _ _)

/-- The signature of an accepted vote was checked. -/
theorem receiveVote (D : Evidence E.config signed s) {cert : PartialCertificateWire}
    {voter : ReplicaID} (hsig : ∀ r pk, E.config.getPublickey r = .ok pk →
      E.crypto.checkSig cert.sig cert.hash pk = true → signed r cert.hash)
    (h : receiveVote E cert voter s = .ok s') : Evidence E.config signed s' := by
  unfold Replica.receiveVote at h
  split at h
  · exact Except.ok.inj h ▸ D
  · rename_i hvalid
    split at h
    · cases h
    · rename_i info hinfo
      split at h
      · rename_i hcheck
        obtain rfl := Except.ok.inj h
        have hkey : E.config.getPublickey voter = .ok info.pk := by
          unfold ReplicaConfig.getPublickey
          rw [hinfo]
          rfl
        have hid : voter ∈ E.config.ids := by
          apply ReplicaConfig.isValidReplica_iff.mp
          simpa using hvalid
        refine ⟨D.heap, D.hqc, D.events, fun cert' rid hmem => ?_⟩
        rcases List.mem_append.mp hmem with hmem | hmem
        · exact D.netEvents cert' rid hmem
        · obtain ⟨rfl, rfl⟩ := NetEvent.vote.inj (List.mem_singleton.mp hmem)
          exact ⟨hid, hsig rid info.pk hkey hcheck⟩
      · exact Except.ok.inj h ▸ D

/-- Linking an object changes no certificate. -/
theorem insertBlock {c : ReplicaConfig} (W : WellFormed E s) (D : Evidence c signed s)
    {p : BlockPtr} (hp : p ≠ genesisPtr) (hlt : p < s.heap.next) :
    Evidence c signed (Replica.insertBlock p s).2 := by
  unfold Replica.insertBlock
  rcases insertBlock_cases W.shape hp hlt with ⟨m, -, h⟩ | ⟨q, j, -, -, h⟩
  · rw [h]
    exact ⟨D.heap, D.hqc, D.events, D.netEvents⟩
  · rw [h]
    refine ⟨D.heap.congr rfl (Heap.header_link s.heap p q j) fun x => ?_, D.hqc, D.events,
      D.netEvents⟩
    by_cases hx : x = p
    · subst hx
      rw [Heap.get_link_self]
    · rw [Heap.get_link_of_ne _ _ _ hx]

/-- An event that runs takes its evidence along. -/
theorem onNetEvent {c : ReplicaConfig} (W : WellFormed E s) (D : Evidence c signed s)
    {e : NetEvent} (he : e ∈ s.netEvents) (h : onNetEvent e s = .ok s') : Evidence c signed s' := by
  have hok := W.netEvents e he
  cases e with
  | vote cert voter =>
      unfold Replica.onNetEvent at h
      dsimp only at h
      split at h
      · exact Except.ok.inj h ▸ D
      · refine D.validateAndAddEvent ?_ h
        intro cert' b rid heq
        obtain ⟨rfl, -, rfl⟩ := Event.vote.inj heq
        exact D.netEvents cert voter he
  | proposal blk proposer =>
      have D₁ := D.insertBlock W hok.1 hok.2
      unfold Replica.onNetEvent at h
      dsimp only at h
      split at h
      · rename_i s₁ hins
        rw [hins] at D₁
        exact Except.ok.inj h ▸ D₁
      · rename_i s₁ hins
        rw [hins] at D₁
        exact D₁.validateAndAddEvent (fun _ _ _ heq => by cases heq) h
  | blockReceive blk sender =>
      obtain rfl := Except.ok.inj h
      exact D.insertBlock W hok.1 hok.2

/-! ### Events -/

/-- A vote that is collected, and the certificate that a quorum makes. -/
theorem onReceiveVote (W : WellFormed E s) (D : Evidence E.config signed s)
    {cert : PartialCertificateWire} {b : BlockPtr} {rid : ReplicaID} (hset : s.heap.Settled b)
    (hvote : Vouched E.config signed rid cert.hash) (h : onReceiveVote E cert b rid s = .ok s') :
    Evidence E.config signed s' := by
  unfold Replica.onReceiveVote at h
  dsimp only at h
  split at h
  · cases h
  · rename_i qc hqc
    obtain ⟨hheap, hsorted, hvotes⟩ :=
      D.heap.setSelfQc (W.shape.lt_next_of_settled hset) hqc hvote
    have D₁ : Evidence E.config signed (setSelfQc b qc s) := ⟨hheap, D.hqc, D.events, D.netEvents⟩
    split at h
    · rename_i hquorum
      rw [Bool.and_eq_true] at hquorum
      have D₂ := D₁.updateHqc (b := b) (certifiedHash_of_hasQuorum hsorted hvotes hquorum.1)
      obtain rfl := Except.ok.inj h
      exact ⟨D₂.heap, D₂.hqc, D₂.events, D₂.netEvents⟩
    · exact Except.ok.inj h ▸ D₁

/-- The vote on a proposal: what is queued is the replica's own vote. -/
theorem voteOnProposal (D : Evidence E.config signed s) {p : BlockPtr} {rid : ReplicaID}
    (hid : E.selfId ∈ E.config.ids) (hown : ∀ x, s'.Signed x → signed E.selfId x)
    (h : voteOnProposal E p rid s = .ok s') : Evidence E.config signed s' := by
  unfold Replica.voteOnProposal at h
  split at h
  · split at h
    · cases h
    · unfold doVote at h
      dsimp only at h
      split at h
      · have hsigned : s'.Signed (s.heap.hash p) := by
          unfold Replica.validateAndAddEvent at h
          dsimp only at h
          split at h
          · cases h
          · obtain rfl := Except.ok.inj h
            exact ⟨p, _, _, _, List.mem_append_right _ (List.mem_singleton.mpr rfl), rfl⟩
        refine Evidence.validateAndAddEvent ?_ ?_ h
        · exact ⟨D.heap, D.hqc, D.events, D.netEvents⟩
        · intro cert b r heq
          obtain ⟨rfl, -, rfl⟩ := Event.vote.inj heq
          exact ⟨hid, hown _ hsigned⟩
      · split at h
        · obtain rfl := Except.ok.inj h
          exact ⟨D.heap, D.hqc, D.events, D.netEvents⟩
        · cases h
    · exact Except.ok.inj h ▸ D
  · exact Except.ok.inj h ▸ D

/-- `update` moves the highest certificate to that of the proposal at most. -/
theorem update {c : ReplicaConfig} (W : WellFormed E s) (D : Evidence c signed s) {p : BlockPtr}
    (u : UpdateOk E p s s') : Evidence c signed s' := by
  have hhqc : ∀ {blk2}, s.heap.justify p = some blk2 →
      Evidence c signed (Replica.updateHqc blk2 (s.heap.get p).getJustifyQc s) := by
    intro blk2 h2
    obtain ⟨q, hq⟩ := W.shape.parent_of_justify h2
    apply D.updateHqc
    rw [W.shape.objHash_getJustifyQc h2, W.shape.hash_justify h2]
    exact D.heap.headers p (W.shape.ne_genesis_of_parent hq) (W.shape.lt_next_of_parent hq)
  -- saving and applying change statuses that are no evidence
  have hlock : ∀ {blk2 blk1 : BlockPtr} {t : Replica V}, LockStage E p blk2 blk1 s t →
      Evidence c signed t := by
    intro blk2 blk1 t l
    have D₁ := hhqc l.justify₂
    have A := l.spec.aged
    have K := l.spec.keeps
    refine ⟨D₁.heap.congr A.cores.next_eq (congrFun A.cores.header_eq) A.selfQc_eq, ?_, ?_, ?_⟩
    · rw [K.hqc_eq]
      exact D₁.hqc
    · rw [K.eventQueue_eq]
      exact D₁.events
    · rw [K.netEvents_eq]
      exact D₁.netEvents
  cases u with
  | early _ => exact D
  | hqcOnly h2 _ _ => exact hhqc h2
  | lockOnly l => exact hlock l
  | commit cs _ =>
      have D₂ := hlock cs.lock
      have A := cs.apply.aged
      have K := cs.apply.keeps
      refine ⟨D₂.heap.congr A.cores.next_eq (congrFun A.cores.header_eq) A.selfQc_eq, ?_, ?_, ?_⟩
      · show CertifiedHash c signed (Replica.hqc _).2.justify
        rw [show (committed _ _ _ s _).hqc = _ from K.hqc_eq]
        exact D₂.hqc
      · rw [show (committed _ _ _ s _).eventQueue = _ from K.eventQueue_eq]
        exact D₂.events
      · rw [show (committed _ _ _ s _).netEvents = _ from K.netEvents_eq]
        exact D₂.netEvents

/-! ### Proposing -/

/-- A minted block carries the highest certificate. -/
theorem proposeBody (W : WellFormed E s) (D : Evidence E.config signed s) {body : List UInt8}
    (h : proposeBody E body s = .ok s') : Evidence E.config signed s' := by
  unfold Replica.proposeBody at h
  generalize hb : HotstuffBlock.mintBlock E.crypto body s.hqc.2 (s.heap.hash s.bLeaf) E.selfId = b
    at h
  have hnew : b.IsNew E.crypto := hb ▸ HotstuffBlock.isNew_mintBlock _ _ _ _ _
  have hflags : b.decided = false ∧ b.writtenToDisk = false := hb ▸ ⟨rfl, rfl⟩
  have hcert : CertifiedHash E.config signed b.wireBlock.header.qc.justify := hb ▸ D.hqc
  have hself : b.selfQc.sigs = [] := hb ▸ rfl
  have W₁ := W.alloc hnew hflags s.netEvents fun e he => Or.inl he
  have D₁ : Evidence E.config signed { s with heap := s.heap.alloc b } :=
    ⟨D.heap.alloc hcert hself, D.hqc, D.events, D.netEvents⟩
  have hne : s.heap.next ≠ genesisPtr := Nat.ne_of_gt W.shape.next_pos
  have D₂ := D₁.insertBlock W₁ hne (Nat.lt_succ_self _)
  unfold Replica.insertBlock at D₂
  dsimp only at h D₂
  generalize s.blockStore.insertBlock (s.heap.alloc b) s.heap.next = r at h D₂
  obtain ⟨store, heap, missing⟩ := r
  dsimp only at h D₂
  split at h
  · cases h
  · split at h
    · cases h
    · rename_i s₃ hadd
      obtain rfl := Except.ok.inj h
      have D₃ : Evidence E.config signed s₃ := by
        refine Evidence.validateAndAddEvent ?_ ?_ hadd
        · exact ⟨D₂.heap, D₂.hqc, D₂.events, D₂.netEvents⟩
        · intro _ _ _ heq
          cases heq
      exact ⟨D₃.heap, D₃.hqc, D₃.events, D₃.netEvents⟩

/-- Both proposing functions. -/
theorem proposeWith (W : WellFormed E s) (D : Evidence E.config signed s) {nonempty : Bool}
    (h : proposeWith E nonempty s = .ok s') : Evidence E.config signed s' := by
  unfold Replica.proposeWith at h
  split at h
  · cases h
  · rename_i body vm _
    have W₁ : WellFormed E { s with vm := vm } := W.withQueue (fun _ he => Or.inl he) _ _ _ _ _ _ _
    have D₁ : Evidence E.config signed { s with vm := vm } :=
      ⟨D.heap, D.hqc, D.events, D.netEvents⟩
    exact D₁.proposeBody W₁ h

/-! ### Steps -/

/-- **Every step keeps the evidence**, if the signatures that arrive are real. -/
theorem step (W : WellFormed E s) (D : Evidence E.config signed s) {i : Input}
    (hid : E.selfId ∈ E.config.ids) (hown : ∀ x, s'.Signed x → signed E.selfId x)
    (hunforged : Unforged E signed i) (h : step E i s = .ok s') : Evidence E.config signed s' := by
  cases i with
  | proposeMessage proposal proposer =>
      unfold Hotstuff.step receivePropose at h
      dsimp only at h
      split at h
      · exact Except.ok.inj h ▸ D
      · refine D.acceptBlock (fun _ _ _ heq => by cases heq) (fun sig hsig => ?_) h
        exact hunforged sig _ (List.mem_map.mpr ⟨sig, hsig, rfl⟩)
  | voteMessage vote voter =>
      exact D.receiveVote (hunforged _ _ (List.mem_singleton.mpr rfl)) h
  | fetchResponse response sender =>
      have h' : Replica.acceptBlock E response sender (.blockReceive · sender) s = .ok s' := h
      refine D.acceptBlock (fun _ _ _ heq => by cases heq) (fun sig hsig => ?_) h'
      exact hunforged sig _ (List.mem_map.mpr ⟨sig, hsig, rfl⟩)
  | netEvent e =>
      unfold Hotstuff.step at h
      dsimp only at h
      split at h
      · rename_i he
        exact D.onNetEvent W he h
      · exact Except.ok.inj h ▸ D
  | event schedule =>
      unfold Hotstuff.step at h
      dsimp only at h
      split at h
      · exact Except.ok.inj h ▸ D
      · rename_i e rest hq
        have he : e.Ok s.heap := W.events e (hq ▸ List.mem_cons_self)
        have W₀ := W.popEvent schedule hq
        have D₀ : Evidence E.config signed { s with eventQueue := rest, schedule := schedule } :=
          ⟨D.heap, D.hqc, fun cert b rid hmem =>
            D.events cert b rid (hq ▸ List.mem_cons_of_mem e hmem), D.netEvents⟩
        cases e with
        | vote cert block rid =>
            exact D₀.onReceiveVote W₀ he.1 (D.events cert block rid (hq ▸ List.mem_cons_self)) h
        | proposal p rid =>
            unfold onEvent onReceiveProposal at h
            dsimp only at h
            split at h
            · cases h
            · rename_i s₁ hv
              have W₁ : WellFormed E s₁ := by
                rcases voteOnProposal_ok W₀ he.1 he.2 hv with v | ⟨rfl, -⟩
                · exact v.wellFormed W₀
                · exact W₀
              have u := (update_ok W₁ h).1
              have hown₁ : ∀ x, s₁.Signed x → signed E.selfId x := by
                rintro x ⟨q, n, cert, target, hmem, hx⟩
                exact hown x ⟨q, n, cert, target, u.silent.voted_iff.mpr hmem, hx⟩
              exact (D₀.voteOnProposal hid hown₁ hv).update W₁ u
  | doPropose => exact D.proposeWith W h
  | doEmptyPropose => exact D.proposeWith W h
  | collect =>
      obtain rfl := Except.ok.inj h
      have c := collect_spec W.collector
      have A := c.flushed.aged
      exact ⟨D.heap.congr A.cores.next_eq (congrFun A.cores.header_eq) A.selfQc_eq, D.hqc, D.events,
        D.netEvents⟩
  | runVm =>
      obtain rfl := Except.ok.inj h
      exact ⟨D.heap, D.hqc, D.events, D.netEvents⟩

end Evidence

end Fred.Hotstuff
