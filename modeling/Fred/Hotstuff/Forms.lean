/-
# Fred.Hotstuff.Forms -- the state after a step

`step_cases` says what a step leaves alone. Results about the certificates, the leaf and the network
need the state a step returns in. `StepForm` names it, with one constructor for each way a step can
go; a proposal event keeps the description it has in `ProposalStep`.
-/
import Fred.Hotstuff.Outside

namespace Fred.Hotstuff

variable {V : Type} {E : Setup V} {s s' : Replica V}

namespace Replica

/-! ## The state changes of a step -/

/-- An accepted block message: an object, and an event about it. -/
def accepted (E : Setup V) (wire : HotstuffBlockWire) (source : ReplicaID)
    (event : BlockPtr → NetEvent) (s : Replica V) : Replica V :=
  { s with
    heap := s.heap.alloc (HotstuffBlock.receiveBlock E.crypto wire source)
    netEvents := s.netEvents ++ [event s.heap.next] }

def enqueue (e : Event) (s : Replica V) : Replica V := { s with eventQueue := s.eventQueue ++ [e] }

/-- `insert_block` with the parent at `q` and the certified block at `j`. -/
def linked (p q j : BlockPtr) (s : Replica V) : Replica V :=
  { s with
    heap := s.heap.link p q j
    blockStore := (s.blockStore.emplace (s.heap.hash p) p).addBlock p }

/-- The parent and the certified block of an object are in the store. -/
structure Links (s : Replica V) (p q j : BlockPtr) : Prop where
  parent : s.blockStore.blockCache (s.heap.header p).parentHash = some q
  justify : s.blockStore.blockCache (s.heap.header p).qc.justify = some j

/-- A vote event on `b` that leaves the certificate `qc` there. -/
def voted (E : Setup V) (b : BlockPtr) (qc : QuorumCertificate) (s : Replica V) : Replica V :=
  if qc.hasQuorum E.config && !(s.heap.get b).selfQc.hasQuorum E.config then
    onNewQc (s.heap.hash b) (updateHqc b qc (setSelfQc b qc s))
  else setSelfQc b qc s

/-- The object `mint_block` makes for the next proposal, before it is linked. -/
def withMinted (E : Setup V) (body : List UInt8) (s : Replica V) : Replica V :=
  { s with
    heap := s.heap.alloc
      (HotstuffBlock.mintBlock E.crypto body s.hqc.2 (s.heap.hash s.bLeaf) E.selfId) }

/-- A proposal: the object is made and linked, is the new leaf, is queued and sent. -/
def proposed (E : Setup V) (body : List UInt8) (q j : BlockPtr) (s : Replica V) : Replica V :=
  let p := s.heap.next
  let t := (s.withMinted E body).linked p q j
  ({ t with bLeaf := p }.enqueue (.proposal p E.selfId)).emit (.proposed p (t.heap.hash p))

/-! ### What they leave alone -/

theorem linked_eq (W : WellFormed E s) {p : BlockPtr} (hp : p ≠ genesisPtr) (hlt : p < s.heap.next)
    (h : (insertBlock p s).1 = true) :
    ∃ q j, s.Links p q j ∧ (insertBlock p s).2 = s.linked p q j := by
  unfold insertBlock at h ⊢
  rcases insertBlock_cases W.shape hp hlt with ⟨m, hm, hins⟩ | ⟨q, j, hq, hj, hins⟩
  · rw [hins] at h
    simp [hm] at h
  · rw [hins]
    exact ⟨q, j, ⟨hq, hj⟩, rfl⟩

/-- An object that is linked has a positive height. -/
theorem height_linked (p q j : BlockPtr) (s : Replica V) :
    (s.linked p q j).heap.height p = s.heap.height q + 1 := by
  show (s.heap.link p q j).height p = _
  unfold Heap.height
  rw [Heap.core_link_self]
  rfl

/-- `insert_block` leaves the replica alone when it fails. -/
theorem insertBlock_failed (W : WellFormed E s) {p : BlockPtr} (hp : p ≠ genesisPtr)
    (hlt : p < s.heap.next) (h : (insertBlock p s).1 = false) : (insertBlock p s).2 = s := by
  unfold insertBlock at h ⊢
  rcases insertBlock_cases W.shape hp hlt with ⟨m, hm, hins⟩ | ⟨q, j, hq, hj, hins⟩
  · rw [hins]
  · rw [hins] at h
    simp [BlockStore.MissingDependencies.any] at h

end Replica

open Replica

/-! ## The forms of a step -/

/-- An input that may leave the replica as it is. -/
def Idle (s : Replica V) : Input → Prop
  | .event _ => s.eventQueue = []
  | .doPropose => False
  | .doEmptyPropose => False
  | .collect => False
  | .runVm => False
  | _ => True

/-- **The state a step returns in.** -/
inductive StepForm (E : Setup V) (s : Replica V) : Input → Replica V → Prop
  | idle {i : Input} (hi : Idle s i) : StepForm E s i s
  | proposeMessage {wire : HotstuffBlockWire} {proposer : ReplicaID}
      (hvalid : E.config.isValidReplica proposer = true)
      (hblock : (HotstuffBlock.receiveBlock E.crypto wire proposer).validateHotstuff E.crypto
        E.config = .ok true) :
      StepForm E s (.proposeMessage wire proposer)
        (s.accepted E wire proposer (.proposal · proposer))
  | fetchResponse {wire : HotstuffBlockWire} {sender : ReplicaID}
      (hblock : (HotstuffBlock.receiveBlock E.crypto wire sender).validateHotstuff E.crypto
        E.config = .ok true) :
      StepForm E s (.fetchResponse wire sender) (s.accepted E wire sender (.blockReceive · sender))
  | voteMessage {cert : PartialCertificateWire} {voter : ReplicaID} {info : ReplicaInfo}
      (hvalid : E.config.isValidReplica voter = true) (hinfo : E.config.getInfo voter = .ok info)
      (hsig : PartialCertificate.validate E.crypto cert info = true) :
      StepForm E s (.voteMessage cert voter) { s with netEvents := s.netEvents ++ [.vote cert voter] }
  | netVote {cert : PartialCertificateWire} {voter : ReplicaID} {b : BlockPtr}
      (hmem : .vote cert voter ∈ s.netEvents)
      (hb : s.blockStore.blockCache cert.hash = some b) :
      StepForm E s (.netEvent (.vote cert voter)) (s.enqueue (.vote cert b voter))
  | netProposal {p q j : BlockPtr} {proposer : ReplicaID}
      (hmem : .proposal p proposer ∈ s.netEvents) (hlinks : s.Links p q j) :
      StepForm E s (.netEvent (.proposal p proposer))
        ((s.linked p q j).enqueue (.proposal p proposer))
  | netReceive {p q j : BlockPtr} {sender : ReplicaID}
      (hmem : .blockReceive p sender ∈ s.netEvents) (hlinks : s.Links p q j) :
      StepForm E s (.netEvent (.blockReceive p sender)) (s.linked p q j)
  | voteEvent {schedule : List ℕ} {cert : PartialCertificateWire} {b : BlockPtr} {rid : ReplicaID}
      {rest : List Event} {qc : QuorumCertificate}
      (hqueue : s.eventQueue = .vote cert b rid :: rest)
      (hqc : (s.heap.get b).selfQc.addPartialCertificate rid cert = .ok qc) :
      StepForm E s (.event schedule)
        ({ s with eventQueue := rest, schedule := schedule }.voted E b qc)
  | proposalEvent {schedule : List ℕ} {p : BlockPtr} {rid : ReplicaID} {rest : List Event}
      {s₁ s' : Replica V} (h : ProposalStep E schedule p rid rest s s₁ s') :
      StepForm E s (.event schedule) s'
  | propose {i : Input} {nonempty : Bool} {body : List UInt8} {vm : V} {q j : BlockPtr}
      (hi : i = .doPropose ∧ nonempty = s.heap.supportsNonemptyChildProposal E.selfId 3 s.bLeaf ∨
        i = .doEmptyPropose ∧ nonempty = false)
      (hvm : E.vm.getNextVmBlock nonempty (s.heap.height s.bLeaf + 1) s.vm = .ok (body, vm))
      (hq : s.blockStore.blockCache (s.heap.hash s.bLeaf) = some q)
      (hj : s.blockStore.blockCache s.hqc.2.justify = some j) :
      StepForm E s i ({ s with vm := vm }.proposed E body q j)
  | collect : StepForm E s .collect s.collect
  | runVm : StepForm E s .runVm { s with vm := E.vm.run s.vm }

namespace StepForm

theorem of_acceptBlock {wire : HotstuffBlockWire} {source : ReplicaID}
    {event : BlockPtr → NetEvent} (h : acceptBlock E wire source event s = .ok s') :
    s' = s ∨ ((HotstuffBlock.receiveBlock E.crypto wire source).validateHotstuff E.crypto E.config =
      .ok true ∧ s' = s.accepted E wire source event) := by
  unfold acceptBlock at h
  dsimp only at h
  split at h
  · cases h
  · exact Or.inl (Except.ok.inj h).symm
  · rename_i hv
    exact Or.inr ⟨hv, (Except.ok.inj h).symm⟩

theorem of_onNetEvent (W : WellFormed E s) {e : NetEvent} (hmem : e ∈ s.netEvents)
    (h : onNetEvent e s = .ok s') : StepForm E s (.netEvent e) s' := by
  have hok := W.netEvents e hmem
  unfold onNetEvent at h
  split at h
  · rename_i cert voter
    unfold BlockStore.getBlock at h
    split at h
    · obtain rfl := Except.ok.inj h
      exact .idle trivial
    · rename_i b hb
      -- the stored object has the hash it is stored under
      have hhash : s.heap.hash b = cert.hash := (W.shape.cached hb).1
      have hadd : s.validateAndAddEvent (.vote cert b voter) =
          .ok (s.enqueue (.vote cert b voter)) := by simp [validateAndAddEvent, hhash, enqueue]
      obtain rfl := Except.ok.inj (hadd.symm.trans h)
      exact .netVote hmem hb
  · rename_i p proposer
    rcases hflag : (insertBlock p s).1 with _ | _
    · have hsame := insertBlock_failed W hok.1 hok.2 hflag
      have hpair : insertBlock p s = (false, s) := Prod.ext hflag hsame
      rw [hpair] at h
      obtain rfl := Except.ok.inj h
      exact .idle trivial
    · obtain ⟨q, j, hlinks, hins⟩ := linked_eq W hok.1 hok.2 hflag
      have hpair : insertBlock p s = (true, s.linked p q j) := Prod.ext hflag hins
      rw [hpair] at h
      have hpos : (s.linked p q j).heap.height p ≠ 0 := by simp [height_linked]
      have hadd : (s.linked p q j).validateAndAddEvent (.proposal p proposer) =
          .ok ((s.linked p q j).enqueue (.proposal p proposer)) := by
        simp [validateAndAddEvent, hpos, enqueue]
      obtain rfl := Except.ok.inj (hadd.symm.trans h)
      exact .netProposal hmem hlinks
  · rename_i p sender
    obtain rfl := Except.ok.inj h
    rcases hflag : (insertBlock p s).1 with _ | _
    · rw [insertBlock_failed W hok.1 hok.2 hflag]
      exact .idle trivial
    · obtain ⟨q, j, hlinks, hins⟩ := linked_eq W hok.1 hok.2 hflag
      rw [hins]
      exact .netReceive hmem hlinks

theorem of_onReceiveVote {cert : PartialCertificateWire} {b : BlockPtr} {rid : ReplicaID}
    (h : onReceiveVote E cert b rid s = .ok s') :
    ∃ qc, (s.heap.get b).selfQc.addPartialCertificate rid cert = .ok qc ∧ s' = s.voted E b qc := by
  unfold onReceiveVote at h
  dsimp only at h
  split at h
  · cases h
  · rename_i qc hqc
    have hhash : (setSelfQc b qc s).heap.hash b = s.heap.hash b := by
      show (((setSelfQc b qc s).heap.get b)).getHash = (s.heap.get b).getHash
      rw [heap_setSelfQc, Heap.get_modify_self]
      exact QuorumCertificate.objHash_addPartialCertificate hqc
    refine ⟨qc, hqc, ?_⟩
    unfold voted
    split at h
    · rename_i hquorum
      rw [if_pos hquorum, ← Except.ok.inj h, hhash]
    · rename_i hquorum
      rw [if_neg hquorum]
      exact (Except.ok.inj h).symm

theorem of_proposeBody (W : WellFormed E s) {body : List UInt8}
    (h : proposeBody E body s = .ok s') :
    ∃ q j, s.blockStore.blockCache (s.heap.hash s.bLeaf) = some q ∧
      s.blockStore.blockCache s.hqc.2.justify = some j ∧ s' = s.proposed E body q j := by
  have hnew := HotstuffBlock.isNew_mintBlock E.crypto body s.hqc.2 (s.heap.hash s.bLeaf) E.selfId
  have W₁ : WellFormed E (s.withMinted E body) :=
    W.alloc hnew ⟨rfl, rfl⟩ s.netEvents fun _ he => Or.inl he
  have hne : s.heap.next ≠ genesisPtr := Nat.ne_of_gt W.shape.next_pos
  have hlt : s.heap.next < (s.withMinted E body).heap.next := Nat.lt_succ_self _
  have hheader : (s.withMinted E body).heap.header s.heap.next =
      ⟨s.heap.hash s.bLeaf, s.hqc.2, E.crypto.hashBody body⟩ := by
    show ((s.heap.alloc _).get s.heap.next).wireBlock.header = _
    rw [Heap.get_alloc_next]
    rfl
  unfold proposeBody at h
  dsimp only at h
  have hins := insertBlock_cases W₁.shape hne hlt
  rw [hheader] at hins
  rcases hins with ⟨m, hm, hins⟩ | ⟨q, j, hq, hj, hins⟩
  · have hins' : s.blockStore.insertBlock (s.heap.alloc (HotstuffBlock.mintBlock E.crypto body
        s.hqc.2 (s.heap.hash s.bLeaf) E.selfId)) s.heap.next = (_, _, m) := hins
    rw [hins'] at h
    simp [hm] at h
  · refine ⟨q, j, hq, hj, ?_⟩
    have hins' : s.blockStore.insertBlock (s.heap.alloc (HotstuffBlock.mintBlock E.crypto body
        s.hqc.2 (s.heap.hash s.bLeaf) E.selfId)) s.heap.next = (_, _, _) := hins
    rw [hins'] at h
    simp only [BlockStore.MissingDependencies.any, Option.isSome_none, Bool.or_self,
      Bool.false_eq_true, if_false] at h
    have hpos : ((s.withMinted E body).linked s.heap.next q j).heap.height s.heap.next ≠ 0 := by
      simp [height_linked]
    unfold validateAndAddEvent at h
    dsimp only at h
    rw [if_neg (show ¬ ((s.withMinted E body).heap.link s.heap.next q j).height s.heap.next = 0
      from hpos)] at h
    exact (Except.ok.inj h).symm

theorem of_proposeWith (W : WellFormed E s) {i : Input} {nonempty : Bool}
    (hi : i = .doPropose ∧ nonempty = s.heap.supportsNonemptyChildProposal E.selfId 3 s.bLeaf ∨
      i = .doEmptyPropose ∧ nonempty = false)
    (h : proposeWith E nonempty s = .ok s') : StepForm E s i s' := by
  unfold proposeWith at h
  split at h
  · cases h
  · rename_i body vm hvm
    have W₁ : WellFormed E { s with vm := vm } := W.withQueue (fun _ he => Or.inl he) _ _ _ _ _ _ _
    obtain ⟨q, j, hq, hj, rfl⟩ := of_proposeBody W₁ h
    exact .propose hi hvm hq hj

end StepForm

/-- **Every step that returns has one of the forms.** -/
theorem step_form {i : Input} (W : WellFormed E s) (h : step E i s = .ok s') :
    StepForm E s i s' := by
  cases i with
  | proposeMessage wire proposer =>
      unfold step receivePropose at h
      dsimp only at h
      split at h
      · obtain rfl := Except.ok.inj h
        exact .idle trivial
      · rename_i hvalid
        rcases StepForm.of_acceptBlock h with rfl | ⟨hv, rfl⟩
        · exact .idle trivial
        · exact .proposeMessage (by simpa using hvalid) hv
  | voteMessage cert voter =>
      unfold step receiveVote at h
      dsimp only at h
      split at h
      · obtain rfl := Except.ok.inj h
        exact .idle trivial
      · rename_i hvalid
        split at h
        · cases h
        · rename_i info hinfo
          split at h
          · rename_i hsig
            obtain rfl := Except.ok.inj h
            exact .voteMessage (by simpa using hvalid) hinfo hsig
          · obtain rfl := Except.ok.inj h
            exact .idle trivial
  | fetchResponse wire sender =>
      unfold step receiveFetched at h
      dsimp only at h
      rcases StepForm.of_acceptBlock h with rfl | ⟨hv, rfl⟩
      · exact .idle trivial
      · exact .fetchResponse hv
  | netEvent e =>
      unfold step at h
      dsimp only at h
      split at h
      · rename_i hmem
        exact .of_onNetEvent W hmem h
      · obtain rfl := Except.ok.inj h
        exact .idle trivial
  | event schedule =>
      rcases hq : s.eventQueue with _ | ⟨e, rest⟩
      · unfold step at h
        dsimp only at h
        rw [hq] at h
        obtain rfl := Except.ok.inj h
        exact .idle hq
      · cases e with
        | vote cert b rid =>
            unfold step at h
            dsimp only at h
            rw [hq] at h
            obtain ⟨qc, hqc, rfl⟩ := StepForm.of_onReceiveVote h
            exact .voteEvent hq hqc
        | proposal p rid =>
            unfold step at h
            dsimp only at h
            rw [hq] at h
            obtain ⟨s₁, hstep, -⟩ := proposalStep_ok W hq h
            exact .proposalEvent hstep
  | doPropose => exact .of_proposeWith W (Or.inl ⟨rfl, rfl⟩) h
  | doEmptyPropose => exact .of_proposeWith W (Or.inr ⟨rfl, rfl⟩) h
  | collect =>
      obtain rfl := Except.ok.inj h
      exact .collect
  | runVm =>
      obtain rfl := Except.ok.inj h
      exact .runVm

/-! ## Proposal events -/

namespace Replica

/-- What a proposal event keeps: the network side, the cache and the certificates on blocks. -/
structure EventFrame (s s' : Replica V) : Prop where
  cores : Heap.SameCores s.heap s'.heap
  selfQc_eq : ∀ p, (s'.heap.get p).selfQc = (s.heap.get p).selfQc
  cache_eq : s'.blockStore.blockCache = s.blockStore.blockCache
  netEvents_eq : s'.netEvents = s.netEvents

/-- What `update` does to highest certificate and leaf. -/
def RaisesHqc (p : BlockPtr) (s s' : Replica V) : Prop :=
  (s'.hqc = s.hqc ∧ s'.bLeaf = s.bLeaf ∧ ∀ blk2, s.heap.justify p = some blk2 →
      (s.heap.get blk2).decided = false → s.heap.height blk2 ≤ s.heap.height s.hqc.1) ∨
    ∃ blk2, s.heap.justify p = some blk2 ∧ (s.heap.get blk2).decided = false ∧
      s.heap.height s.hqc.1 < s.heap.height blk2 ∧
      s'.hqc = (blk2, (s.heap.get p).getJustifyQc.serialize) ∧ s'.bLeaf = blk2

theorem updateHqc_cases (b : BlockPtr) (qc : QuorumCertificate) (s : Replica V) :
    (s.heap.height b ≤ s.heap.height s.hqc.1 ∧ updateHqc b qc s = s) ∨
      (s.heap.height s.hqc.1 < s.heap.height b ∧
      updateHqc b qc s = { s with hqc := (b, qc.serialize), bLeaf := b }) := by
  unfold updateHqc
  split
  · rename_i hlt
    exact Or.inr ⟨hlt, rfl⟩
  · rename_i hle
    exact Or.inl ⟨Nat.not_lt.mp hle, rfl⟩

theorem raisesHqc_of {p blk2 : BlockPtr} (h2 : s.heap.justify p = some blk2)
    (hd2 : (s.heap.get blk2).decided = false)
    (hhqc : s'.hqc = (updateHqc blk2 (s.heap.get p).getJustifyQc s).hqc)
    (hleaf : s'.bLeaf = (updateHqc blk2 (s.heap.get p).getJustifyQc s).bLeaf) :
    RaisesHqc p s s' := by
  rcases updateHqc_cases blk2 (s.heap.get p).getJustifyQc s with ⟨hle, h⟩ | ⟨hlt, h⟩
  · rw [h] at hhqc hleaf
    refine Or.inl ⟨hhqc, hleaf, fun x hx _ => ?_⟩
    obtain rfl : blk2 = x := Option.some.inj (h2.symm.trans hx)
    exact hle
  · rw [h] at hhqc hleaf
    exact Or.inr ⟨blk2, h2, hd2, hlt, hhqc, hleaf⟩

/-- The parts of the state `update_hqc` does not touch. -/
theorem updateHqc_keeps (b : BlockPtr) (qc : QuorumCertificate) (s : Replica V) :
    (updateHqc b qc s).heap = s.heap ∧ (updateHqc b qc s).blockStore = s.blockStore ∧
      (updateHqc b qc s).netEvents = s.netEvents ∧
      (updateHqc b qc s).eventQueue = s.eventQueue := by
  rcases updateHqc_cases b qc s with ⟨-, h⟩ | ⟨-, h⟩ <;> rw [h] <;> exact ⟨rfl, rfl, rfl, rfl⟩

/-- A vote event leaves store and queues alone. -/
theorem voted_keeps (b : BlockPtr) (qc : QuorumCertificate) (s : Replica V) :
    (s.voted E b qc).blockStore = s.blockStore ∧ (s.voted E b qc).netEvents = s.netEvents ∧
      (s.voted E b qc).eventQueue = s.eventQueue := by
  unfold voted
  split
  · exact (updateHqc_keeps b qc (setSelfQc b qc s)).2
  · exact ⟨rfl, rfl, rfl⟩

theorem LockStage.frame {nblk blk2 blk1 : BlockPtr} {s₂ : Replica V}
    (l : LockStage E nblk blk2 blk1 s s₂) :
    EventFrame s s₂ ∧ s₂.eventQueue = s.eventQueue ∧ RaisesHqc nblk s s₂ := by
  have hkeeps := updateHqc_keeps blk2 (s.heap.get nblk).getJustifyQc s
  have K := l.spec.keeps
  refine ⟨⟨l.spec.core_eq, fun p => ?_, K.cache_eq.trans (by rw [← hkeeps.2.1]; rfl),
    K.netEvents_eq.trans hkeeps.2.2.1⟩, K.eventQueue_eq.trans hkeeps.2.2.2,
    raisesHqc_of l.justify₂ l.undecided₂ K.hqc_eq K.bLeaf_eq⟩
  rw [l.spec.aged.selfQc_eq p]
  show ((updateHqc blk2 (s.heap.get nblk).getJustifyQc s).heap.get p).selfQc = _
  rw [hkeeps.1]

theorem UpdateOk.frame {p : BlockPtr} (u : UpdateOk E p s s') :
    EventFrame s s' ∧ s'.eventQueue = s.eventQueue ∧ RaisesHqc p s s' := by
  cases u with
  | early hearly =>
      refine ⟨⟨Heap.SameCores.refl _, fun _ => rfl, rfl, rfl⟩, rfl,
        Or.inl ⟨rfl, rfl, fun x hx hd => ?_⟩⟩
      rw [hearly x hx] at hd
      cases hd
  | @hqcOnly blk2 h2 hd2 _ =>
      obtain ⟨hheap, hstore, hnet, hqueue⟩ := updateHqc_keeps blk2 (s.heap.get p).getJustifyQc s
      refine ⟨⟨?_, fun x => by rw [hheap], by rw [hstore], hnet⟩, hqueue,
        raisesHqc_of h2 hd2 rfl rfl⟩
      rw [hheap]
      exact Heap.SameCores.refl _
  | lockOnly l => exact l.frame
  | @commit blk2 blk1 blk queue tx s₂ s₃ c _ =>
      obtain ⟨F, hqueue, hraise⟩ := LockStage.frame c.lock
      have K := c.apply.keeps
      have hcores : Heap.SameCores s.heap s₃.heap := F.cores.trans c.apply.aged.cores
      have hself : ∀ x, (s₃.heap.get x).selfQc = (s.heap.get x).selfQc :=
        fun x => (c.apply.aged.selfQc_eq x).trans (F.selfQc_eq x)
      refine ⟨⟨hcores, hself, K.cache_eq.trans F.cache_eq, K.netEvents_eq.trans F.netEvents_eq⟩,
        K.eventQueue_eq.trans hqueue, ?_⟩
      unfold RaisesHqc at hraise ⊢
      rw [show (committed blk1 blk tx s s₃).hqc = s₂.hqc from K.hqc_eq,
        show (committed blk1 blk tx s s₃).bLeaf = s₂.bLeaf from K.bLeaf_eq]
      exact hraise

/-- The event queue after the vote: what was there, and the vote if it is one to this replica. -/
theorem voteOnProposal_queue {p : BlockPtr} {rid : ReplicaID} (h : voteOnProposal E p rid s = .ok s') :
    (s'.eventQueue = s.eventQueue ∨ (rid = E.selfId ∧ s'.eventQueue = s.eventQueue ++
      [.vote (PartialCertificate.create E.crypto (s.heap.hash p) E.secretKey) p E.selfId])) := by
  unfold voteOnProposal at h
  split at h
  · split at h
    · cases h
    · unfold doVote at h
      dsimp only at h
      split at h
      · rename_i hself
        unfold validateAndAddEvent at h
        dsimp only at h
        split at h
        · cases h
        · rw [← Except.ok.inj h]
          exact Or.inr ⟨hself, rfl⟩
      · split at h
        · rw [← Except.ok.inj h]
          exact Or.inl rfl
        · cases h
    · rw [← Except.ok.inj h]
      exact Or.inl rfl
  · rw [← Except.ok.inj h]
    exact Or.inl rfl

end Replica

/-- **A proposal event** keeps the network side, the cache and the certificates on blocks; it may
queue a vote and raise the highest certificate. -/
theorem ProposalStep.frame {schedule : List ℕ} {p : BlockPtr} {rid : ReplicaID} {rest : List Event}
    {s₁ : Replica V} (W : WellFormed E s) (h : ProposalStep E schedule p rid rest s s₁ s') :
    EventFrame s s' ∧ RaisesHqc p s s' ∧
      (s'.eventQueue = rest ∨ (rid = E.selfId ∧ s'.eventQueue = rest ++
        [.vote (PartialCertificate.create E.crypto (s.heap.hash p) E.secretKey) p E.selfId])) := by
  obtain ⟨F, hqueue, hraise⟩ := h.update.frame
  have hvote := voteOnProposal_queue h.vote
  rw [← hqueue] at hvote
  have W₀ := W.popEvent schedule h.queue_eq
  rcases voteOnProposal_ok W₀ h.ne_genesis h.settled h.vote with v | ⟨hsame, -⟩
  · obtain ⟨q, -, hsame⟩ := v.eq
    rw [hsame] at F hraise
    exact ⟨⟨F.cores, F.selfQc_eq, F.cache_eq, F.netEvents_eq⟩, hraise, hvote⟩
  · rw [hsame] at F hraise
    exact ⟨⟨F.cores, F.selfQc_eq, F.cache_eq, F.netEvents_eq⟩, hraise, hvote⟩

/-! ## The network events of a step -/

/-- The replica an event came from. -/
def NetEvent.source : NetEvent → ReplicaID
  | .vote _ voter => voter
  | .proposal _ proposer => proposer
  | .blockReceive _ sender => sender

/-- A step appends to the accepted events; they come from configured replicas, or from the one that
was asked. -/
theorem netEvents_step {i : Input} (W : WellFormed E s) (h : step E i s = .ok s') :
    ∃ new, s'.netEvents = s.netEvents ++ new ∧ ∀ e ∈ new,
      E.config.isValidReplica e.source = true ∨ ∃ wire, i = .fetchResponse wire e.source := by
  cases step_form W h with
  | proposeMessage hvalid _ =>
      refine ⟨_, rfl, fun e he => Or.inl ?_⟩
      rw [List.mem_singleton.mp he]
      exact hvalid
  | fetchResponse _ =>
      refine ⟨_, rfl, fun e he => Or.inr ?_⟩
      rw [List.mem_singleton.mp he]
      exact ⟨_, rfl⟩
  | voteMessage hvalid _ _ =>
      refine ⟨_, rfl, fun e he => Or.inl ?_⟩
      rw [List.mem_singleton.mp he]
      exact hvalid
  | proposalEvent hstep =>
      exact ⟨[], by rw [(hstep.frame W).1.netEvents_eq, List.append_nil], by simp⟩
  | @voteEvent schedule cert b rid rest qc _ _ =>
      refine ⟨[], ?_, by simp⟩
      rw [List.append_nil, (voted_keeps b qc _).2.1]
  | _ => exact ⟨[], (List.append_nil _).symm, by simp⟩

/-! ## The event queue of a step -/

/-- A queued event stays queued, unless it is the one that is processed. -/
theorem eventQueue_step {i : Input} (W : WellFormed E s) (h : step E i s = .ok s') {e : Event}
    (he : e ∈ s.eventQueue) : e ∈ s'.eventQueue ∨
      ∃ schedule rest, i = .event schedule ∧ s.eventQueue = e :: rest := by
  -- the head of the queue leaves it, and what is behind it stays
  have hpop : ∀ {schedule x rest}, s.eventQueue = x :: rest → i = .event schedule →
      (∀ y ∈ rest, y ∈ s'.eventQueue) → e ∈ s'.eventQueue ∨
        ∃ schedule rest, i = .event schedule ∧ s.eventQueue = e :: rest := by
    intro schedule x rest hqueue hi hrest
    rw [hqueue] at he
    rcases List.mem_cons.mp he with rfl | he
    · exact Or.inr ⟨schedule, rest, hi, hqueue⟩
    · exact Or.inl (hrest e he)
  cases step_form W h with
  | netVote => exact Or.inl (List.mem_append_left _ he)
  | netProposal => exact Or.inl (List.mem_append_left _ he)
  | @voteEvent schedule cert b rid rest qc hqueue _ =>
      refine hpop hqueue rfl fun y hy => ?_
      rw [(voted_keeps b qc _).2.2]
      exact hy
  | proposalEvent hstep =>
      refine hpop hstep.queue_eq rfl fun y hy => ?_
      rcases (hstep.frame W).2.2 with hq | ⟨-, hq⟩
      · rw [hq]
        exact hy
      · rw [hq]
        exact List.mem_append_left _ hy
  | propose => exact Or.inl (List.mem_append_left _ he)
  | collect =>
      rw [(collect_spec W.collector).keeps.eventQueue_eq]
      exact Or.inl he
  | _ => exact Or.inl he

/-! ## What is fixed when an object is made -/

/-- Header, hash and proposer of an object: nothing changes them. -/
def Heap.label (h : Heap) (p : BlockPtr) : HotstuffBlockHeader × Hash × ReplicaID :=
  ((h.core p).header, (h.core p).hash, (h.core p).proposer)

namespace Heap

theorem SameCores.label_eq {h h' : Heap} (H : SameCores h h') (p : BlockPtr) :
    h'.label p = h.label p := by
  unfold label
  rw [H.core_eq]

theorem label_alloc (h : Heap) (b : HotstuffBlock) {p : BlockPtr} (hp : p < h.next) :
    (h.alloc b).label p = h.label p := by
  unfold label core
  rw [get_alloc_of_ne _ _ (Nat.ne_of_lt hp)]

theorem label_link (h : Heap) (p q j x : BlockPtr) : (h.link p q j).label x = h.label x := by
  unfold label
  by_cases hx : x = p
  · subst hx
    rw [core_link_self]
  · rw [core_link_of_ne _ _ _ hx]

theorem header_of_label {h h' : Heap} {p : BlockPtr} (hl : h'.label p = h.label p) :
    h'.header p = h.header p := congrArg (·.1) hl

theorem hash_of_label {h h' : Heap} {p : BlockPtr} (hl : h'.label p = h.label p) :
    h'.hash p = h.hash p := congrArg (·.2.1) hl

end Heap

namespace Replica

theorem label_setSelfQc {b : BlockPtr} {qc : QuorumCertificate} (hqc : qc.objHash = s.heap.hash b) :
    Heap.SameCores s.heap (setSelfQc b qc s).heap := by
  rw [heap_setSelfQc]
  apply Heap.sameCores_modify
  show { (s.heap.get b).core with hash := qc.objHash } = (s.heap.get b).core
  rw [hqc]
  rfl

theorem heap_voted (b : BlockPtr) (qc : QuorumCertificate) :
    (s.voted E b qc).heap = (setSelfQc b qc s).heap := by
  unfold voted
  split
  · exact (updateHqc_keeps b qc (setSelfQc b qc s)).1
  · rfl

theorem voted_sameCores {b : BlockPtr} {rid : ReplicaID} {cert : PartialCertificateWire}
    {qc : QuorumCertificate}
    (hqc : (s.heap.get b).selfQc.addPartialCertificate rid cert = .ok qc) :
    Heap.SameCores s.heap (s.voted E b qc).heap := by
  rw [heap_voted]
  exact label_setSelfQc (QuorumCertificate.objHash_addPartialCertificate hqc)

theorem label_proposed (s : Replica V) (body : List UInt8) (q j : BlockPtr) {p : BlockPtr}
    (hp : p < s.heap.next) : (s.proposed E body q j).heap.label p = s.heap.label p :=
  (Heap.label_link _ _ _ _ _).trans (Heap.label_alloc _ _ hp)

end Replica

/-- **A step changes no label.** -/
theorem label_step {i : Input} (W : WellFormed E s) (h : step E i s = .ok s') {p : BlockPtr}
    (hp : p < s.heap.next) : s'.heap.label p = s.heap.label p := by
  cases step_form W h with
  | proposeMessage => exact Heap.label_alloc _ _ hp
  | fetchResponse => exact Heap.label_alloc _ _ hp
  | netProposal => exact Heap.label_link _ _ _ _ _
  | netReceive => exact Heap.label_link _ _ _ _ _
  | @voteEvent schedule cert b rid rest qc _ hqc =>
      exact (voted_sameCores (s := { s with eventQueue := rest, schedule := schedule })
        hqc).label_eq p
  | proposalEvent hstep => exact (hstep.frame W).1.cores.label_eq p
  | @propose i nonempty body vm q j _ _ _ _ => exact label_proposed { s with vm := vm } body q j hp
  | collect => exact (collect_spec W.collector).flushed.sameCores.label_eq p
  | _ => rfl

/-- What is stored stays stored. -/
theorem cache_step {i : Input} (W : WellFormed E s) (h : step E i s = .ok s') {x : Hash}
    {p : BlockPtr} (hp : s.blockStore.blockCache x = some p) :
    s'.blockStore.blockCache x = some p := by
  rcases (step_cases W h).2 with o | ⟨_, _, _, _, _, -, hstep⟩
  · exact o.cache hp
  · rw [(hstep.frame W).1.cache_eq]
    exact hp

/-! ## The certificates on blocks -/

/-- The input is a vote event on `b` of replica `rid`. -/
def IsVote (s : Replica V) (i : Input) (cert : PartialCertificateWire) (b : BlockPtr)
    (rid : ReplicaID) : Prop :=
  ∃ schedule rest, i = .event schedule ∧ s.eventQueue = .vote cert b rid :: rest

theorem not_isVote {i : Input} (hi : ∀ schedule, i ≠ .event schedule)
    (cert : PartialCertificateWire) (b : BlockPtr) (rid : ReplicaID) : ¬ IsVote s i cert b rid := by
  rintro ⟨schedule, _, rfl, -⟩
  exact hi schedule rfl

/-- The certificates of the objects a replica had are as they were, those of new ones empty. -/
def KeepsCerts (s s' : Replica V) : Prop :=
  (∀ p, p < s.heap.next → (s'.heap.get p).selfQc = (s.heap.get p).selfQc) ∧
    ∀ p, s.heap.next ≤ p → p < s'.heap.next → (s'.heap.get p).selfQc.sigs = []

theorem keepsCerts_of_eq (hnext : s'.heap.next = s.heap.next)
    (h : ∀ p, (s'.heap.get p).selfQc = (s.heap.get p).selfQc) : KeepsCerts s s' :=
  ⟨fun p _ => h p, fun _ hle hlt => absurd (hnext ▸ hlt) (Nat.not_lt.mpr hle)⟩

theorem selfQc_link (h : Heap) (p q j x : BlockPtr) :
    ((h.link p q j).get x).selfQc = (h.get x).selfQc := by
  by_cases hx : x = p
  · subst hx
    rw [Heap.get_link_self]
  · rw [Heap.get_link_of_ne _ _ _ hx]

theorem keepsCerts_alloc {b : HotstuffBlock} (hb : b.selfQc.sigs = []) {t : Replica V}
    (ht : t.heap.next = s.heap.next + 1)
    (hget : ∀ p, (t.heap.get p).selfQc = ((s.heap.alloc b).get p).selfQc) : KeepsCerts s t := by
  refine ⟨fun p hp => ?_, fun p hle hlt => ?_⟩
  · rw [hget, Heap.get_alloc_of_ne _ _ (Nat.ne_of_lt hp)]
  · rw [ht] at hlt
    obtain rfl : p = s.heap.next := Nat.le_antisymm (Nat.le_of_lt_succ hlt) hle
    rw [hget, Heap.get_alloc_next]
    exact hb

/-- **Only a vote event changes a certificate on a block**, and a new object has an empty one. -/
theorem selfQc_step {i : Input} (W : WellFormed E s) (h : step E i s = .ok s') :
    (∃ cert b rid qc, IsVote s i cert b rid ∧
      (s.heap.get b).selfQc.addPartialCertificate rid cert = .ok qc ∧
      (s'.heap.get b).selfQc = qc ∧ (∀ p, p ≠ b → (s'.heap.get p).selfQc = (s.heap.get p).selfQc) ∧
      s'.heap.next = s.heap.next ∧ s'.blockStore.blockCache = s.blockStore.blockCache) ∨
    ((∀ cert b rid, ¬ IsVote s i cert b rid) ∧ KeepsCerts s s') := by
  cases step_form W h with
  | idle hi =>
      refine Or.inr ⟨?_, keepsCerts_of_eq rfl fun _ => rfl⟩
      rintro cert b rid ⟨schedule, rest, rfl, hqueue⟩
      rw [show s.eventQueue = [] from hi] at hqueue
      cases hqueue
  | proposeMessage =>
      exact Or.inr ⟨not_isVote (by simp), keepsCerts_alloc rfl rfl fun _ => rfl⟩
  | fetchResponse =>
      exact Or.inr ⟨not_isVote (by simp), keepsCerts_alloc rfl rfl fun _ => rfl⟩
  | voteMessage => exact Or.inr ⟨not_isVote (by simp), keepsCerts_of_eq rfl fun _ => rfl⟩
  | netVote => exact Or.inr ⟨not_isVote (by simp), keepsCerts_of_eq rfl fun _ => rfl⟩
  | netProposal =>
      exact Or.inr ⟨not_isVote (by simp), keepsCerts_of_eq rfl (selfQc_link _ _ _ _)⟩
  | netReceive =>
      exact Or.inr ⟨not_isVote (by simp), keepsCerts_of_eq rfl (selfQc_link _ _ _ _)⟩
  | @voteEvent schedule cert b rid rest qc hqueue hqc =>
      refine Or.inl ⟨cert, b, rid, qc, ⟨schedule, rest, rfl, hqueue⟩, hqc, ?_, ?_, ?_, ?_⟩
      · rw [heap_voted, heap_setSelfQc, Heap.get_modify_self]
      · intro p hp
        rw [heap_voted, heap_setSelfQc, Heap.get_modify_of_ne _ _ hp]
      · rw [heap_voted]
        rfl
      · rw [(voted_keeps b qc _).1]
  | @proposalEvent schedule p rid rest s₁ _ hstep =>
      have F := (hstep.frame W).1
      refine Or.inr ⟨?_, keepsCerts_of_eq F.cores.next_eq F.selfQc_eq⟩
      rintro cert b rid' ⟨_, _, -, hqueue⟩
      rw [hstep.queue_eq] at hqueue
      cases hqueue
  | @propose _ nonempty body vm q j hi _ _ _ =>
      refine Or.inr ⟨not_isVote ?_, keepsCerts_alloc rfl rfl (selfQc_link _ _ _ _)⟩
      rcases hi with ⟨rfl, -⟩ | ⟨rfl, -⟩ <;> simp
  | collect =>
      have C := (collect_spec W.collector).flushed
      exact Or.inr ⟨not_isVote (by simp), keepsCerts_of_eq C.1 C.selfQc_eq⟩
  | runVm => exact Or.inr ⟨not_isVote (by simp), keepsCerts_of_eq rfl fun _ => rfl⟩

end Fred.Hotstuff
