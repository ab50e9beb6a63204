/-
# Fred.Hotstuff.Wire -- the messages as bytes

The marshaling that `xdrc` generates for `xdr/types.x` and `xdr/hotstuff.x`: field after field, in the
order of the declarations. A message is accepted exactly as the encoding of its value, and only values
within the bounds of the declarations have one (`wire_format`). Everything a replica sends is
within these bounds if the bodies of its machine are (`sent_decoded`): a certificate has at most as many
signatures as its bitmap has bits, whatever the replica has received.
-/
import Fred.Lib.Xdr
import Fred.Hotstuff.Accepted
import Fred.Hotstuff.Bodies

namespace Fred.Hotstuff

open Fred.Xdr Fred.Transition Replica

variable {V : Type} {E : Setup V} {s s' : Replica V}

namespace Wire

/-! ## The types -/

/-- `XDR_MAX_LEN`, the bound of `<>`. -/
def xdrMaxLen : ℕ := 0xfffffffc

theorem xdrMaxLen_lt : xdrMaxLen < 2 ^ 32 := by decide

/-- `opaque x[n]`, where the bytes are kept as one bit vector. -/
def bits (n : ℕ) : Codec (BitVec (8 * n)) :=
  (Codec.opaqueArray n).map (fun bytes => BitVec.ofNat (8 * n) (BigEndian.value bytes))
    (fun x => BigEndian.bytes n x.toNat)
    (by
      intro x
      have hlt : x.toNat < 256 ^ n := by
        rw [show 256 = 2 ^ 8 from rfl, ← Nat.pow_mul]
        exact x.isLt
      rw [BigEndian.value_bytes_of_lt hlt, BitVec.ofNat_toNat, BitVec.setWidth_eq])
    (by
      intro bytes hlength
      have hlt := BigEndian.value_lt bytes
      rw [show 256 = 2 ^ 8 from rfl, ← Nat.pow_mul, show bytes.length = n from hlength] at hlt
      rw [BitVec.toNat_ofNat, Nat.mod_eq_of_lt hlt]
      exact BigEndian.bytes_value hlength)

@[simp] theorem fits_bits (n : ℕ) (x : BitVec (8 * n)) : (bits n).Fits x :=
  BigEndian.length_bytes n x.toNat

def hash : Codec Hash := bits 32

def signature : Codec Signature := bits 64

def replicaID : Codec ReplicaID := Codec.uint32

def replicaIDBitMap : Codec ReplicaIDBitMap :=
  Codec.uint32.map (BitVec.ofNat 32) BitVec.toNat
    (fun x => by rw [BitVec.ofNat_toNat, BitVec.setWidth_eq])
    (fun n hn => by rw [BitVec.toNat_ofNat, Nat.mod_eq_of_lt hn])

def partialCertificateWire : Codec PartialCertificateWire :=
  (hash.pair signature).map (fun x => ⟨x.1, x.2⟩) (fun c => (c.hash, c.sig)) (fun _ => rfl)
    fun _ _ => rfl

/-- `Signature sigs<MAX_REPLICAS>` is the one bound that is not the largest possible. -/
def quorumCertificateWire : Codec QuorumCertificateWire :=
  (hash.pair (replicaIDBitMap.pair (signature.vector maxReplicas (by decide)))).map
    (fun x => ⟨x.1, x.2.1, x.2.2⟩) (fun c => (c.justify, c.bmp, c.sigs)) (fun _ => rfl) fun _ _ => rfl

def hotstuffBlockHeader : Codec HotstuffBlockHeader :=
  (hash.pair (quorumCertificateWire.pair hash)).map (fun x => ⟨x.1, x.2.1, x.2.2⟩)
    (fun h => (h.parentHash, h.qc, h.bodyHash)) (fun _ => rfl) fun _ _ => rfl

def body : Codec (List UInt8) := Codec.opaqueVec xdrMaxLen xdrMaxLen_lt

def hotstuffBlockWire : Codec HotstuffBlockWire :=
  (hotstuffBlockHeader.pair body).map (fun x => ⟨x.1, x.2⟩) (fun b => (b.header, b.body))
    (fun _ => rfl) fun _ _ => rfl

/-- `BlockFetchRequest` has one field. -/
def blockFetchRequest : Codec (List Hash) := hash.vector xdrMaxLen xdrMaxLen_lt

/-- `BlockFetchResponse` has one field. -/
def blockFetchResponse : Codec (List HotstuffBlockWire) :=
  hotstuffBlockWire.vector xdrMaxLen xdrMaxLen_lt

structure VoteMessage where
  vote : PartialCertificateWire
  voter : ReplicaID
  deriving DecidableEq, Repr

structure ProposeMessage where
  proposal : HotstuffBlockWire
  proposer : ReplicaID
  deriving DecidableEq, Repr

def voteMessage : Codec VoteMessage :=
  (partialCertificateWire.pair replicaID).map (fun x => ⟨x.1, x.2⟩) (fun m => (m.vote, m.voter))
    (fun _ => rfl) fun _ _ => rfl

def proposeMessage : Codec ProposeMessage :=
  (hotstuffBlockWire.pair replicaID).map (fun x => ⟨x.1, x.2⟩) (fun m => (m.proposal, m.proposer))
    (fun _ => rfl) fun _ _ => rfl

/-! ## The bounds -/

theorem fits_quorumCertificateWire {c : QuorumCertificateWire} :
    quorumCertificateWire.Fits c ↔ c.sigs.length ≤ maxReplicas := by
  constructor
  · exact fun h => h.2.2.1
  · exact fun h => ⟨fits_bits 32 _, BitVec.isLt _, h, fun sig _ => fits_bits 64 sig⟩

theorem fits_hotstuffBlockHeader {h : HotstuffBlockHeader} :
    hotstuffBlockHeader.Fits h ↔ h.qc.sigs.length ≤ maxReplicas := by
  rw [← fits_quorumCertificateWire]
  constructor
  · exact fun h => h.2.1
  · exact fun h => ⟨fits_bits 32 _, h, fits_bits 32 _⟩

theorem fits_hotstuffBlockWire {b : HotstuffBlockWire} :
    hotstuffBlockWire.Fits b ↔ b.header.qc.sigs.length ≤ maxReplicas ∧ b.body.length ≤ xdrMaxLen := by
  rw [← fits_hotstuffBlockHeader]
  exact Iff.rfl

theorem fits_voteMessage {m : VoteMessage} : voteMessage.Fits m ↔ m.voter < 2 ^ 32 := by
  constructor
  · exact fun h => h.2
  · exact fun h => ⟨⟨fits_bits 32 _, fits_bits 64 _⟩, h⟩

theorem fits_proposeMessage {m : ProposeMessage} :
    proposeMessage.Fits m ↔ hotstuffBlockWire.Fits m.proposal ∧ m.proposer < 2 ^ 32 := Iff.rfl

end Wire

/-! ## What a replica holds -/

/-- The message the input comes in has been decoded. -/
def Input.Fits : Input → Prop
  | .proposeMessage proposal proposer => Wire.proposeMessage.Fits ⟨proposal, proposer⟩
  | .voteMessage vote voter => Wire.voteMessage.Fits ⟨vote, voter⟩
  | .fetchResponse response _ => Wire.hotstuffBlockWire.Fits response
  | _ => True

/-- The machine's blocks can be put into a block. -/
def BodiesFit (E : Setup V) : Prop :=
  ∀ nonempty height vm body vm', E.vm.getNextVmBlock nonempty height vm = .ok (body, vm') →
    Wire.body.Fits body

/-- The votes collected are by different replicas that the bitmap has bits for. -/
def QuorumCertificate.Narrow (qc : QuorumCertificate) : Prop :=
  (qc.sigs.Pairwise fun x y => x.1 < y.1) ∧ ∀ e ∈ qc.sigs, e.1 < maxReplicas

namespace QuorumCertificate

theorem Narrow.length_le {qc : QuorumCertificate} (h : qc.Narrow) :
    qc.serialize.sigs.length ≤ maxReplicas := by
  have hnodup : (qc.sigs.map Prod.fst).Nodup :=
    (List.pairwise_map.mpr h.1).imp fun hlt => Nat.ne_of_lt hlt
  have hsub : (qc.sigs.map Prod.fst) ⊆ List.range maxReplicas := by
    intro rid hrid
    obtain ⟨e, he, rfl⟩ := List.mem_map.mp hrid
    exact List.mem_range.mpr (h.2 e he)
  have hle := (hnodup.subperm hsub).length_le
  rw [List.length_map, List.length_range] at hle
  rw [serialize, List.length_map]
  exact hle

theorem Narrow.addPartialCertificate {qc qc' : QuorumCertificate} (h : qc.Narrow) {rid : ReplicaID}
    {pc : PartialCertificateWire} (hadd : qc.addPartialCertificate rid pc = .ok qc') :
    qc'.Narrow := by
  unfold QuorumCertificate.addPartialCertificate at hadd
  split_ifs at hadd with hhash hrid
  rw [← Except.ok.inj hadd]
  refine ⟨pairwise_emplace h.1, fun e he => ?_⟩
  rcases mem_emplace he with rfl | he
  · exact Nat.not_le.mp hrid
  · exact h.2 e he

/-- Encoding a decoded certificate anew adds no signature. -/
theorem length_reserialize_le (w : QuorumCertificateWire) :
    (ofWire w).serialize.sigs.length ≤ w.sigs.length := by
  rw [serialize, List.length_map, sigs_ofWire]
  split
  · rw [List.length_zip]
    exact Nat.min_le_right _ _
  · exact Nat.zero_le _

end QuorumCertificate

/-- The objects in memory and the files written fit, and the votes collected are narrow. -/
structure Kept (s : Replica V) : Prop where
  blocks : ∀ p, Wire.hotstuffBlockWire.Fits (s.heap.get p).wireBlock
  collected : ∀ p, (s.heap.get p).selfQc.Narrow
  saved : ∀ name wire, Effect.saved name wire ∈ s.trace → Wire.hotstuffBlockWire.Fits wire

namespace Kept

theorem start (E : Setup V) : Kept (Hotstuff.start E) where
  blocks := fun _ => Wire.fits_hotstuffBlockWire.mpr ⟨Nat.zero_le _, Nat.zero_le _⟩
  collected := fun _ => ⟨List.Pairwise.nil, fun _ he => absurd he List.not_mem_nil⟩
  saved := fun _ _ he => absurd he List.not_mem_nil

theorem congr (D : Kept s) (hwire : ∀ p, (s'.heap.get p).wireBlock = (s.heap.get p).wireBlock)
    (hself : ∀ p, (s'.heap.get p).selfQc = (s.heap.get p).selfQc)
    (htrace : ∀ name wire, Effect.saved name wire ∈ s'.trace → Effect.saved name wire ∈ s.trace) :
    Kept s' where
  blocks := fun p => by
    rw [hwire]
    exact D.blocks p
  collected := fun p => by
    rw [hself]
    exact D.collected p
  saved := fun name wire h => D.saved name wire (htrace name wire h)

/-- Changes of one object. -/
theorem modify (D : Kept s) (p : BlockPtr) {f : HotstuffBlock → HotstuffBlock}
    (hwire : Wire.hotstuffBlockWire.Fits (f (s.heap.get p)).wireBlock)
    (hself : (f (s.heap.get p)).selfQc.Narrow) :
    Kept { s with heap := s.heap.modify p f } := by
  have hcases : ∀ q, (s.heap.modify p f).get q = s.heap.get q ∨
      (s.heap.modify p f).get q = f (s.heap.get p) := by
    intro q
    by_cases hq : q = p
    · subst hq
      exact Or.inr (Heap.get_modify_self _ _ _)
    · exact Or.inl (Heap.get_modify_of_ne _ _ hq)
  refine ⟨fun q => ?_, fun q => ?_, D.saved⟩
  · show Wire.hotstuffBlockWire.Fits ((s.heap.modify p f).get q).wireBlock
    rcases hcases q with h | h <;> rw [h]
    · exact D.blocks q
    · exact hwire
  · show ((s.heap.modify p f).get q).selfQc.Narrow
    rcases hcases q with h | h <;> rw [h]
    · exact D.collected q
    · exact hself

/-- A new object. -/
theorem alloc (D : Kept s) {b : HotstuffBlock} (hb : Wire.hotstuffBlockWire.Fits b.wireBlock)
    (hself : b.selfQc.sigs = []) (hheap : s'.heap = s.heap.alloc b)
    (htrace : s'.trace = s.trace) : Kept s' := by
  have hcases : ∀ p, s'.heap.get p = s.heap.get p ∨ s'.heap.get p = b := by
    intro p
    rw [hheap]
    by_cases hp : p = s.heap.next
    · subst hp
      exact Or.inr (Heap.get_alloc_next _ _)
    · exact Or.inl (Heap.get_alloc_of_ne _ _ hp)
  refine ⟨fun p => ?_, fun p => ?_, ?_⟩
  · rcases hcases p with h | h <;> rw [h]
    · exact D.blocks p
    · exact hb
  · rcases hcases p with h | h <;> rw [h]
    · exact D.collected p
    · unfold QuorumCertificate.Narrow
      rw [hself]
      exact ⟨List.Pairwise.nil, fun _ he => absurd he List.not_mem_nil⟩
  · rw [htrace]
    exact D.saved

theorem wireBlock_link (h : Heap) (p q j x : BlockPtr) :
    ((h.link p q j).get x).wireBlock = (h.get x).wireBlock := by
  by_cases hx : x = p
  · subst hx
    rw [Heap.get_link_self]
  · rw [Heap.get_link_of_ne _ _ _ hx]

/-- Flushing drops a body. -/
theorem flushed (D : Kept s) {bound : ℕ} (c : Collected bound s s') : Kept s' := by
  refine ⟨fun p => ?_, fun p => ?_, ?_⟩
  · rcases c.flushed.2 p with h | ⟨h, -⟩ <;> rw [h]
    · exact D.blocks p
    · unfold HotstuffBlock.flushFromMemory
      split
      · exact D.blocks p
      · exact Wire.fits_hotstuffBlockWire.mpr
          ⟨(Wire.fits_hotstuffBlockWire.mp (D.blocks p)).1, Nat.zero_le _⟩
  · rw [c.flushed.selfQc_eq]
    exact D.collected p
  · rw [c.trace_eq]
    exact D.saved

theorem collectN (n : ℕ) (D : Kept s) : Kept (Replica.collectN n s) := by
  obtain ⟨bound, hb⟩ := exists_boundedBy s.blockStore.gcCollector
  exact D.flushed (collectN_spec hb)

/-- **What `update` does leaves everything within the bounds.** -/
theorem closed (E : Setup V) : Closed E (Kept (V := V)) where
  updateHqc := by
    intro s b qc D
    unfold Replica.updateHqc
    split
    · exact D.congr (fun _ => rfl) (fun _ => rfl) fun _ _ => id
    · exact D
  setLock := fun _ D => D.congr (fun _ => rfl) (fun _ => rfl) fun _ _ => id
  pause := by
    intro s D
    unfold Replica.pause
    split
    · exact D
    · rename_i n rest _
      have D₁ : Kept { s with schedule := rest } :=
        D.congr (fun _ => rfl) (fun _ => rfl) fun _ _ => id
      exact D₁.collectN n
  setWritten := fun p D => D.modify p (D.blocks p) (D.collected p)
  saveBlock := by
    intro s p D
    refine ⟨D.blocks, D.collected, fun name wire h => ?_⟩
    rcases List.mem_append.mp h with h | h
    · exact D.saved name wire h
    · obtain ⟨-, rfl⟩ := Effect.saved.inj (List.mem_singleton.mp h)
      exact D.blocks p
  decideBlock := fun b D => D.modify b (D.blocks b) (D.collected b)
  applied := by
    intro s b D
    refine D.congr (fun _ => rfl) (fun _ => rfl) fun name wire h => ?_
    rcases List.mem_append.mp h with h | h
    · exact h
    · exact absurd (List.mem_singleton.mp h) (by simp)
  setVm := fun _ D => D.congr (fun _ => rfl) (fun _ => rfl) fun _ _ => id
  setExec := fun _ D => D.congr (fun _ => rfl) (fun _ => rfl) fun _ _ => id
  setIndex := fun _ D => D.congr (fun _ => rfl) (fun _ => rfl) fun _ _ => id
  prune := fun _ D => D.congr (fun _ => rfl) (fun _ => rfl) fun _ _ => id

end Kept

/-- All that a replica holds and may send fits. -/
structure Fitting (s : Replica V) : Prop extends Kept s where
  hqc : s.hqc.2.sigs.length ≤ maxReplicas

namespace Fitting

theorem start (E : Setup V) : Fitting (Hotstuff.start E) := ⟨Kept.start E, Nat.zero_le _⟩

/-- A vote event, which may make a certificate. -/
theorem voteEvent (D : Fitting s) {b : BlockPtr} {cert : PartialCertificateWire} {rid : ReplicaID}
    {qc : QuorumCertificate} (hqc : (s.heap.get b).selfQc.addPartialCertificate rid cert = .ok qc) :
    Fitting (s.voted E b qc) := by
  have hnarrow := (D.collected b).addPartialCertificate hqc
  have K : Kept (Replica.setSelfQc b qc s) := D.toKept.modify b (D.blocks b) hnarrow
  unfold Replica.voted
  split
  · rcases updateHqc_cases b qc (Replica.setSelfQc b qc s) with ⟨-, h⟩ | ⟨-, h⟩ <;> rw [h]
    · exact ⟨⟨K.blocks, K.collected, K.saved⟩, D.hqc⟩
    · exact ⟨⟨K.blocks, K.collected, K.saved⟩, hnarrow.length_le⟩
  · exact ⟨K, D.hqc⟩

/-- A proposal event, which may pass on the certificate of the block. -/
theorem proposalEvent (W : WellFormed E s) (D : Fitting s) {schedule : List ℕ} {p : BlockPtr}
    {rid : ReplicaID} {rest : List Event} {s₁ : Replica V}
    (h : ProposalStep E schedule p rid rest s s₁ s') : Fitting s' := by
  obtain ⟨-, hraise, -⟩ := h.frame W
  have K₁ : Kept s₁ := by
    rcases voteOnProposal_ok (W.popEvent schedule h.queue_eq) h.ne_genesis h.settled h.vote with
      v | ⟨hsame, -⟩
    · obtain ⟨_, -, hs₁⟩ := v.eq
      rw [hs₁]
      refine D.toKept.congr (fun _ => rfl) (fun _ => rfl) fun name wire hmem => ?_
      rcases List.mem_append.mp hmem with hmem | hmem
      · exact hmem
      · exact absurd (List.mem_singleton.mp hmem) (by simp)
    · rw [hsame]
      exact D.toKept.congr (fun _ => rfl) (fun _ => rfl) fun _ _ => id
  refine ⟨((Kept.closed E).update p K₁).1 s' h.call, ?_⟩
  rcases hraise with ⟨hhqc, -, -⟩ | ⟨blk2, -, -, -, hhqc, -⟩
  · rw [hhqc]
    exact D.hqc
  · have hlt := W.shape.lt_next_of_settled h.settled
    have hparsed : (s.heap.get p).getJustifyQc = .ofWire (s.heap.header p).qc := by
      unfold HotstuffBlock.getJustifyQc
      rw [show (s.heap.get p).parsedQc = _ from W.shape.parsedQc_eq p h.ne_genesis hlt]
      rfl
    rw [hhqc, hparsed]
    exact (QuorumCertificate.length_reserialize_le _).trans
      (Wire.fits_hotstuffBlockWire.mp (D.blocks p)).1

/-- **Step lemma**: what has been decoded and what is made from it fits. -/
theorem step (hbody : BodiesFit E) (W : WellFormed E s) (D : Fitting s) {i : Input} (hi : i.Fits)
    (h : Hotstuff.step E i s = .ok s') : Fitting s' := by
  cases step_form W h with
  | idle => exact D
  | @proposeMessage wire proposer =>
      have hwire : Wire.hotstuffBlockWire.Fits wire := (Wire.fits_proposeMessage.mp hi).1
      exact ⟨D.toKept.alloc (b := HotstuffBlock.receiveBlock E.crypto wire proposer) hwire rfl rfl rfl,
        D.hqc⟩
  | @fetchResponse wire sender =>
      have hwire : Wire.hotstuffBlockWire.Fits wire := hi
      exact ⟨D.toKept.alloc (b := HotstuffBlock.receiveBlock E.crypto wire sender) hwire rfl rfl rfl,
        D.hqc⟩
  | voteMessage => exact ⟨⟨D.blocks, D.collected, D.saved⟩, D.hqc⟩
  | netVote => exact ⟨⟨D.blocks, D.collected, D.saved⟩, D.hqc⟩
  | @netProposal p q j =>
      exact ⟨D.toKept.congr (Kept.wireBlock_link s.heap p q j) (selfQc_link s.heap p q j)
        fun _ _ => id, D.hqc⟩
  | @netReceive p q j =>
      exact ⟨D.toKept.congr (Kept.wireBlock_link s.heap p q j) (selfQc_link s.heap p q j)
        fun _ _ => id, D.hqc⟩
  | @voteEvent schedule cert b rid rest qc _ hqc =>
      have D₀ : Fitting { s with eventQueue := rest, schedule := schedule } :=
        ⟨⟨D.blocks, D.collected, D.saved⟩, D.hqc⟩
      exact D₀.voteEvent hqc
  | proposalEvent hstep => exact D.proposalEvent W hstep
  | @propose i nonempty body vm q j _ hvm _ _ =>
      have hmint : Wire.hotstuffBlockWire.Fits
          (HotstuffBlock.mintBlock E.crypto body s.hqc.2 (s.heap.hash s.bLeaf) E.selfId).wireBlock :=
        Wire.fits_hotstuffBlockWire.mpr ⟨D.hqc, hbody _ _ _ _ _ hvm⟩
      have K : Kept (({ s with vm := vm } : Replica V).withMinted E body) :=
        D.toKept.alloc hmint rfl rfl rfl
      refine ⟨K.congr (Kept.wireBlock_link _ _ q j) (selfQc_link _ _ q j) fun name wire hmem => ?_,
        D.hqc⟩
      rcases List.mem_append.mp hmem with hmem | hmem
      · exact hmem
      · exact absurd (List.mem_singleton.mp hmem) (by simp)
  | collect => exact ⟨D.toKept.flushed (collect_spec W.collector), D.hqc⟩
  | runVm => exact ⟨⟨D.blocks, D.collected, D.saved⟩, D.hqc⟩

/-- The proposal that is sent for a block just made. -/
theorem proposed (D : Fitting s) (hself : E.selfId < 2 ^ 32) (hbody : BodiesFit E) (W : WellFormed E s)
    {i : Input} (hi : i = .doPropose ∨ i = .doEmptyPropose) (hs : Hotstuff.step E i s = .ok s') :
    Wire.proposeMessage.Fits ⟨(s'.heap.get s'.bLeaf).wireBlock, E.selfId⟩ := by
  have hfits : i.Fits := by
    rcases hi with rfl | rfl <;> trivial
  have D' := D.step hbody W hfits hs
  exact Wire.fits_proposeMessage.mpr ⟨D'.blocks _, hself⟩

/-- The answer to a fetch request. -/
theorem fetched (D : Fitting s) {reqs : List Hash} (hreqs : reqs.length ≤ Wire.xdrMaxLen) :
    Wire.blockFetchResponse.Fits (s.fetch reqs) := by
  refine ⟨(List.length_filterMap_le _ _).trans hreqs, fun wire hwire => ?_⟩
  obtain ⟨-, -, p, -, -, rfl⟩ := mem_fetch.mp hwire
  exact D.blocks p

end Fitting

theorem fitting_of_reach (hbody : BodiesFit E)
    (h : Reach (step E) (fun _ i => i.Fits) (start E) s) : Fitting s := by
  refine h.invariant_of_reach (Fitting.start E) ?_
  intro t u i ht D hi hs
  exact D.step hbody (wellFormed_commitLog_of_reach ht).1 hi hs

/-! ## What is sent and what is accepted -/

/-- What is accepted is the encoding of a value within the bounds, nothing shorter than an encoding is
accepted, and reading stays inside the message. -/
structure Exact {α : Type} (c : Codec α) (bounds : α → Prop) : Prop where
  accepted_iff : ∀ message a, c.fromOpaque message = .ok a ↔ bounds a ∧ message = c.toOpaque a
  truncated : ∀ a message, bounds a → message <+: c.toOpaque a → message ≠ c.toOpaque a →
    ∃ e, c.fromOpaque message = .error e
  inside : ∀ message, c.fromOpaque message ≠ .error .outOfBounds

theorem exact_of_fits {α : Type} {c : Codec α} {bounds : α → Prop} (h : ∀ a, c.Fits a ↔ bounds a) :
    Exact c bounds where
  accepted_iff := fun message a => by
    rw [← h]
    exact c.fromOpaque_eq_ok
  truncated := fun a _ ha => c.fromOpaque_of_prefix ((h a).mpr ha)
  inside := c.fromOpaque_safe

/-- **The wire format.** Votes, proposals, fetch requests and fetch responses are accepted exactly as the
encodings of values within the declared bounds: 32 signatures in a certificate, `XDR_MAX_LEN` bytes in a
body and elements in a list, 32 bits in an identifier. -/
theorem wire_format :
    Exact Wire.voteMessage (fun m => m.voter < 2 ^ 32) ∧
    Exact Wire.proposeMessage (fun m => (m.proposal.header.qc.sigs.length ≤ maxReplicas ∧
      m.proposal.body.length ≤ Wire.xdrMaxLen) ∧ m.proposer < 2 ^ 32) ∧
    Exact Wire.blockFetchRequest (fun reqs => reqs.length ≤ Wire.xdrMaxLen) ∧
    Exact Wire.blockFetchResponse (fun responses => responses.length ≤ Wire.xdrMaxLen ∧
      ∀ b ∈ responses, b.header.qc.sigs.length ≤ maxReplicas ∧ b.body.length ≤ Wire.xdrMaxLen) := by
  refine ⟨exact_of_fits fun _ => Wire.fits_voteMessage, exact_of_fits fun m => ?_,
    exact_of_fits fun reqs => ?_, exact_of_fits fun responses => ?_⟩
  · rw [Wire.fits_proposeMessage, Wire.fits_hotstuffBlockWire]
  · exact ⟨fun h => h.1, fun h => ⟨h, fun x _ => Wire.fits_bits 32 x⟩⟩
  · refine and_congr_right fun _ => forall_congr' fun b => imp_congr_right fun _ => ?_
    exact Wire.fits_hotstuffBlockWire

/-- The message is decoded to what was encoded. -/
def Decoded {α : Type} (c : Codec α) (a : α) : Prop := c.fromOpaque (c.toOpaque a) = .ok a

theorem decoded_of_fits {α : Type} {c : Codec α} {a : α} (h : c.Fits a) : Decoded c a :=
  c.fromOpaque_eq_ok.mpr ⟨h, rfl⟩

/-- **Whatever a replica sends or saves can be decoded**, in every run on messages that were decoded
themselves: its proposals, its votes, its answers to fetch requests and its block files. -/
theorem sent_decoded (hself : E.selfId < 2 ^ 32) (hbody : BodiesFit E)
    (h : Reach (step E) (fun _ i => i.Fits) (start E) s) :
    (∀ i s', i = .doPropose ∨ i = .doEmptyPropose → step E i s = .ok s' →
      Decoded Wire.proposeMessage ⟨(s'.heap.get s'.bLeaf).wireBlock, E.selfId⟩) ∧
    (∀ p n cert target, Effect.voted p n cert target ∈ s.trace →
      Decoded Wire.voteMessage ⟨cert, E.selfId⟩) ∧
    (∀ reqs, reqs.length ≤ Wire.xdrMaxLen → Decoded Wire.blockFetchResponse (s.fetch reqs)) ∧
    ∀ name wire, Effect.saved name wire ∈ s.trace → Decoded Wire.hotstuffBlockWire wire := by
  have D := fitting_of_reach hbody h
  refine ⟨fun i s' hi hs => ?_, fun _ _ _ _ _ => ?_, fun reqs hreqs => ?_, fun name wire hmem => ?_⟩
  · exact decoded_of_fits (D.proposed hself hbody (wellFormed_commitLog_of_reach h).1 hi hs)
  · exact decoded_of_fits (Wire.fits_voteMessage.mpr hself)
  · exact decoded_of_fits (D.fetched hreqs)
  · exact decoded_of_fits (D.saved name wire hmem)

/-! ### A first block -/

namespace Instance

/-- Inputs without a message. -/
def unsentCheck (_ : Replica Unit) : Input → Bool
  | .proposeMessage _ _ | .voteMessage _ _ | .fetchResponse _ _ => false
  | _ => true

theorem fits_of_check (s : Replica Unit) (i : Input) (h : unsentCheck s i = true) : i.Fits := by
  cases i with
  | proposeMessage => cases h
  | voteMessage => cases h
  | fetchResponse => cases h
  | _ => trivial

theorem bodiesFit_setup (n : ℕ) (rid : ReplicaID) : BodiesFit (setup n rid) := by
  intro nonempty height vm body vm' h
  obtain ⟨rfl, -⟩ := Prod.mk.inj (Except.ok.inj h)
  exact Nat.zero_le _

end Instance

open Instance in
/-- The answer of replica 0 to a request for its first block can be decoded, and so can its vote. -/
theorem sent_decoded_four : Decoded Wire.blockFetchResponse [firstBlock] ∧
    Decoded Wire.voteMessage ⟨firstVote, 0⟩ := by
  have hrun : observeIf (setup 4 0) unsentCheck proposeAndVote (fun s => (s.fetch [1#256], s.trace)) =
      some ([firstBlock], [.proposed 1 1#256, .voted 1 1 firstVote 0]) := by decide +kernel
  obtain ⟨s, hreach, hrun⟩ := exists_of_observeIf fits_of_check hrun
  obtain ⟨hfetch, htrace⟩ := Prod.mk.inj hrun
  obtain ⟨-, hvotes, hserved, -⟩ := sent_decoded (E := setup 4 0) (by decide)
    (bodiesFit_setup 4 0) hreach
  refine ⟨hfetch ▸ hserved [1#256] (by decide), hvotes 1 1 firstVote 0 ?_⟩
  rw [htrace]
  exact List.mem_cons_of_mem _ (List.mem_singleton.mpr rfl)

end Fred.Hotstuff
