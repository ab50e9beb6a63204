/-
# Fred.Hotstuff.Returns -- what a correct replica can throw

An exception in the consensus thread ends the process, and the code has many places that throw: a null
pointer on the way down the tree, a commit that does not extend the last one, a body that was flushed, a
proposer that is not configured, a certificate for another block, a freshly minted block that cannot be
inserted. In a world with at most `f` faulty replicas none of them is reached, as long as signatures are not
forged and the blocks in circulation are on top of the blocks they certify (`World.Admissible`); a faulty
replica that mints on genesis with a certificate on a block elsewhere can break a correct one. What is left
are exceptions of the virtual machine, and the check of an incoming certificate that names an unknown
replica (`only_machine_throws`).
-/
import Fred.Hotstuff.Agreement
import Fred.Hotstuff.CertificateChecks
import Fred.Hotstuff.Forms
import Fred.Hotstuff.Pruning

namespace Fred.Hotstuff

open Fred.Forest Fred.Transition Fred.Bitmap Replica

variable {V : Type} {E : Setup V} {s s' : Replica V}

/-- The calls into the machine return. -/
structure VmBridge.Returns (vm : VmBridge V) : Prop where
  getNextVmBlock : ∀ nonempty height v, ∃ r, vm.getNextVmBlock nonempty height v = .ok r
  applyBlock : ∀ height body v, ∃ v', vm.applyBlock height body v = .ok v'
  notifyVmOfCommitment : ∀ height v, ∃ v', vm.notifyVmOfCommitment height v = .ok v'

/-- An exception from the virtual machine's side of the bridge. -/
def FromMachine (E : Setup V) (e : Exn) : Prop := (∃ what, e = .vm what) ∧ ¬ E.vm.Returns

namespace Replica

/-! ## `update` -/

theorem applyBlock_throws {b : BlockPtr} {tx : HotstuffLMDB.Txn} {e : Exn}
    (h : applyBlock E b tx s = .error (e, s')) : e = .bodyFlushed ∨ FromMachine E e := by
  unfold applyBlock HotstuffBlock.hasBody at h
  by_cases hf : (s.heap.get b).flushedFromMemory = true
  · rw [if_pos hf] at h
    exact Or.inl (Prod.mk.inj (Except.error.inj h)).1.symm
  · rw [if_neg hf] at h
    dsimp only at h
    split at h
    · rename_i what hwhat
      refine Or.inr ⟨⟨what, (Prod.mk.inj (Except.error.inj h)).1.symm⟩, fun hreturns => ?_⟩
      obtain ⟨v', hv'⟩ := hreturns.applyBlock _ _ _
      rw [hv'] at hwhat
      cases hwhat
    · cases h

theorem notifyVmOfCommitment_throws {b : BlockPtr} {e : Exn}
    (h : notifyVmOfCommitment E b s = .error (e, s')) : FromMachine E e := by
  unfold notifyVmOfCommitment at h
  split at h
  · rename_i what hwhat
    refine ⟨⟨what, (Prod.mk.inj (Except.error.inj h)).1.symm⟩, fun hreturns => ?_⟩
    obtain ⟨v', hv'⟩ := hreturns.notifyVmOfCommitment _ _
    rw [hv'] at hwhat
    cases hwhat
  · cases h

theorem applyQueue_throws {e : Exn} : ∀ {queue : List BlockPtr} {tx : HotstuffLMDB.Txn}
    {s : Replica V}, applyQueue E queue tx s = .error (e, s') → e = .bodyFlushed ∨ FromMachine E e
  | [], _, _, h => by cases h
  | b :: queue, tx, s, h => by
      unfold applyQueue at h
      rcases happly : applyBlock E b tx (decideBlock b s.pause) with r | ⟨tx₁, s₁⟩
      · simp only [happly] at h
        obtain rfl := Except.error.inj h
        exact applyBlock_throws happly
      · rcases hnotify : notifyVmOfCommitment E b s₁ with r | s₂
        · simp only [happly, hnotify] at h
          obtain rfl := Except.error.inj h
          exact Or.inr (notifyVmOfCommitment_throws hnotify)
        · simp only [happly, hnotify] at h
          exact applyQueue_throws h

/-- The walk of `update` and the machine are what can make it throw. -/
theorem update_throws (W : WellFormed E s) (F : FlushedLow s) {p : BlockPtr} {e : Exn}
    (h : update E p s = .error (e, s')) : e = .safetyBreached ∨ FromMachine E e := by
  have hflushed : e ≠ .bodyFlushed := by
    rintro rfl
    exact update_ne_bodyFlushed W F h
  have run := update_run E p s
  rw [h] at run
  cases run with
  | @chain blk2 blk1 blk s₂ _ h2 hd2 h1 hd1 hs₂ h0 hd0 hp2 hp1 hr =>
      subst hs₂
      have l := lockStage W h2 hd2 h1 hd1
      rcases commitQueue_spec blk l.wellFormed.forest with ⟨-, queue, hqueue, -, -⟩ | ⟨-, hbreach⟩
      · simp only [hqueue] at hr
        unfold commitBlocks at hr
        rcases hrun : applyQueue E queue (lockAndWrite E blk1
          (updateHqc blk2 (s.heap.get p).getJustifyQc s)).decidedHashIndex.openTxn
          (lockAndWrite E blk1 (updateHqc blk2 (s.heap.get p).getJustifyQc s)) with r | ⟨tx, s₃⟩
        · simp only [hrun] at hr
          obtain rfl := Except.error.inj hr
          exact Or.inr ((applyQueue_throws hrun).resolve_left hflushed)
        · simp only [hrun] at hr
          cases hr
      · simp only [hbreach] at hr
        exact Or.inl (Prod.mk.inj (Except.error.inj hr)).1

/-! ## The events -/

/-- A vote is cast on any linked block, if there is somebody to send it to. -/
theorem voteOnProposal_returns (W : WellFormed E s) {p : BlockPtr} {rid : ReplicaID}
    (hne : p ≠ genesisPtr) (hset : s.heap.Settled p) (hrid : E.config.isValidReplica rid = true) :
    ∃ s', voteOnProposal E p rid s = .ok s' := by
  obtain ⟨j, o, -, ho, -⟩ := opinion_spec W hne hset
  unfold voteOnProposal
  split
  · rw [ho]
    cases o with
    | false => exact ⟨_, rfl⟩
    | true =>
        dsimp only
        unfold doVote
        by_cases hself : rid = E.selfId
        · simp only [if_pos hself]
          unfold validateAndAddEvent
          dsimp only
          split
          · rename_i hhash
            exact absurd rfl hhash
          · exact ⟨_, rfl⟩
        · simp only [if_neg hself, if_pos hrid]
          exact ⟨_, rfl⟩
  · exact ⟨_, rfl⟩

theorem onReceiveVote_returns {cert : PartialCertificateWire} {b : BlockPtr} {rid : ReplicaID}
    (hhash : s.heap.hash b = cert.hash) (hrid : rid < maxReplicas) :
    ∃ s', onReceiveVote E cert b rid s = .ok s' := by
  have hqc : ∃ qc, (s.heap.get b).selfQc.addPartialCertificate rid cert = .ok qc := by
    unfold QuorumCertificate.addPartialCertificate
    have hobj : cert.hash = (s.heap.get b).selfQc.objHash := hhash.symm
    rw [if_neg (not_not_intro hobj), if_neg (Nat.not_le.mpr hrid)]
    exact ⟨_, rfl⟩
  obtain ⟨qc, hqc⟩ := hqc
  unfold onReceiveVote
  dsimp only
  rw [hqc]
  dsimp only
  split
  · exact ⟨_, rfl⟩
  · exact ⟨_, rfl⟩

theorem onNetEvent_returns (W : WellFormed E s) {e : NetEvent} (hmem : e ∈ s.netEvents) :
    ∃ s', onNetEvent e s = .ok s' := by
  have hok := W.netEvents e hmem
  cases e with
  | vote cert voter =>
      unfold onNetEvent BlockStore.getBlock
      dsimp only
      split
      · exact ⟨_, rfl⟩
      · rename_i b hb
        unfold validateAndAddEvent
        dsimp only
        rw [if_neg (not_not_intro (W.shape.cached hb).1)]
        exact ⟨_, rfl⟩
  | proposal p proposer =>
      unfold onNetEvent
      dsimp only
      split
      · exact ⟨_, rfl⟩
      · unfold validateAndAddEvent
        dsimp only
        split
        · exact ⟨_, rfl⟩
        · exact ⟨_, rfl⟩
  | blockReceive p sender => exact ⟨_, rfl⟩

/-! ## Proposing -/

/-- Something is stored under the hash of every linked object. -/
theorem exists_stored (W : WellFormed E s) {p : BlockPtr} (hp : s.heap.Settled p) :
    ∃ q, s.blockStore.blockCache (s.heap.hash p) = some q := by
  rcases hp with rfl | ⟨q, hq⟩
  · rw [W.shape.hash_genesis]
    exact ⟨genesisPtr, W.shape.cache_genesis⟩
  · exact W.shape.linked_cached hq

/-- A minted block can be inserted: leaf and highest certified block are stored. -/
theorem proposeBody_returns (W : WellFormed E s) (body : List UInt8) :
    ∃ s', proposeBody E body s = .ok s' := by
  obtain ⟨q, hq⟩ := exists_stored W W.leaf_settled
  obtain ⟨j, hj⟩ := exists_stored W W.hqc_settled
  rw [← W.hqc_hash] at hj
  have W₁ : WellFormed E (s.withMinted E body) :=
    W.alloc (HotstuffBlock.isNew_mintBlock _ _ _ _ _) ⟨rfl, rfl⟩ s.netEvents fun _ he => Or.inl he
  have hheader : (s.withMinted E body).heap.header s.heap.next =
      ⟨s.heap.hash s.bLeaf, s.hqc.2, E.crypto.hashBody body⟩ := by
    show ((s.heap.alloc _).get s.heap.next).wireBlock.header = _
    rw [Heap.get_alloc_next]
    rfl
  have hins : s.blockStore.insertBlock (s.withMinted E body).heap s.heap.next = _ :=
    insertBlock_of_cached W₁.shape (Nat.ne_of_gt W.shape.next_pos) (Nat.lt_succ_self _)
      (by rw [hheader]; exact hq) (by rw [hheader]; exact hj)
  unfold proposeBody
  dsimp only
  rw [show s.heap.alloc (HotstuffBlock.mintBlock E.crypto body s.hqc.2 (s.heap.hash s.bLeaf)
    E.selfId) = (s.withMinted E body).heap from rfl, hins]
  simp only [BlockStore.MissingDependencies.any, Option.isSome_none, Bool.or_self,
    Bool.false_eq_true, if_false]
  have hadd : ∀ t : Replica V, ∃ t', t.validateAndAddEvent (.proposal s.heap.next E.selfId) =
      .ok t' := by
    intro t
    unfold validateAndAddEvent
    dsimp only
    split
    · exact ⟨_, rfl⟩
    · exact ⟨_, rfl⟩
  obtain ⟨t, ht⟩ := hadd { s with
    heap := (s.withMinted E body).heap.link s.heap.next q j
    blockStore := (s.blockStore.emplace ((s.withMinted E body).heap.hash s.heap.next)
      s.heap.next).addBlock s.heap.next
    bLeaf := s.heap.next }
  rw [ht]
  exact ⟨_, rfl⟩

theorem proposeWith_throws (W : WellFormed E s) {nonempty : Bool} {e : Exn}
    (h : proposeWith E nonempty s = .error (e, s')) : FromMachine E e := by
  unfold proposeWith at h
  split at h
  · rename_i what hwhat
    refine ⟨⟨what, (Prod.mk.inj (Except.error.inj h)).1.symm⟩, fun hreturns => ?_⟩
    obtain ⟨r, hr⟩ := hreturns.getNextVmBlock nonempty (s.heap.height s.bLeaf + 1) s.vm
    rw [hr] at hwhat
    cases hwhat
  · rename_i body vm hvm
    have W₁ : WellFormed E { s with vm := vm } := W.withQueue (fun _ he => Or.inl he) _ _ _ _ _ _ _
    obtain ⟨t, ht⟩ := proposeBody_returns W₁ body
    rw [ht] at h
    cases h

/-! ## Messages -/

/-- The bitmap of the certificate has a bit for a replica that is not configured. -/
def NamesUnknown (config : ReplicaConfig) (qc : QuorumCertificateWire) : Prop :=
  ∃ rid ∈ bits qc.bmp, rid ∉ config.ids

theorem acceptBlock_throws {wire : HotstuffBlockWire} {source : ReplicaID}
    {event : BlockPtr → NetEvent} {e : Exn} (h : acceptBlock E wire source event s = .error (e, s')) :
    NamesUnknown E.config wire.header.qc := by
  unfold acceptBlock at h
  dsimp only at h
  split at h
  · rename_i x hv
    unfold HotstuffBlock.validateHotstuff at hv
    split at hv
    · cases hv
    · have hverify : (QuorumCertificate.ofWire wire.header.qc).verify E.crypto E.config =
          .error x := hv
      by_contra hno
      have hvalid : ∀ y ∈ (QuorumCertificate.ofWire wire.header.qc).sigs,
          E.config.isValidReplica y.1 = true := by
        intro y hy
        rw [QuorumCertificate.sigs_ofWire] at hy
        split at hy
        · apply ReplicaConfig.isValidReplica_iff.mpr
          by_contra hid
          exact hno ⟨y.1, (List.of_mem_zip hy).1, hid⟩
        · exact absurd hy List.not_mem_nil
      obtain ⟨n, hn⟩ := (QuorumCertificate.countValid_ok_iff (C := E.crypto)
        (h := (QuorumCertificate.ofWire wire.header.qc).objHash)).mpr hvalid
      unfold QuorumCertificate.verify at hverify
      rw [hn] at hverify
      split at hverify
      · cases hverify
      · split at hverify
        · cases hverify
        · cases hverify
  · cases h
  · cases h

end Replica

/-- The certificate that arrives with an input. -/
def Input.certificate : Input → Option QuorumCertificateWire
  | .proposeMessage proposal _ => some proposal.header.qc
  | .fetchResponse response _ => some response.header.qc
  | _ => none

/-! ## Where proposals come from -/

/-- The proposals in the queues came from configured replicas. -/
structure Sourced (E : Setup V) (s : Replica V) : Prop where
  events : ∀ p rid, Event.proposal p rid ∈ s.eventQueue → E.config.isValidReplica rid = true
  netEvents : ∀ p rid, NetEvent.proposal p rid ∈ s.netEvents → E.config.isValidReplica rid = true

theorem Sourced.step (W : WellFormed E s) (D : Sourced E s) {i : Input}
    (hself : E.config.isValidReplica E.selfId = true) (h : Hotstuff.step E i s = .ok s') :
    Sourced E s' := by
  have hnet : ∀ {t : Replica V}, t.netEvents = s.netEvents → ∀ p rid,
      NetEvent.proposal p rid ∈ t.netEvents → E.config.isValidReplica rid = true := by
    intro t ht p rid hmem
    exact D.netEvents p rid (ht ▸ hmem)
  cases step_form W h with
  | idle => exact D
  | @proposeMessage wire proposer hvalid hblock =>
      refine ⟨D.events, fun p rid hmem => ?_⟩
      rcases List.mem_append.mp hmem with hmem | hmem
      · exact D.netEvents p rid hmem
      · obtain ⟨-, rfl⟩ := NetEvent.proposal.inj (List.mem_singleton.mp hmem)
        exact hvalid
  | fetchResponse hblock =>
      refine ⟨D.events, fun p rid hmem => ?_⟩
      rcases List.mem_append.mp hmem with hmem | hmem
      · exact D.netEvents p rid hmem
      · exact absurd (List.mem_singleton.mp hmem) (by simp)
  | voteMessage hvalid hinfo hsig =>
      refine ⟨D.events, fun p rid hmem => ?_⟩
      rcases List.mem_append.mp hmem with hmem | hmem
      · exact D.netEvents p rid hmem
      · exact absurd (List.mem_singleton.mp hmem) (by simp)
  | netVote hmem hb =>
      refine ⟨fun p rid hev => ?_, D.netEvents⟩
      rcases List.mem_append.mp hev with hev | hev
      · exact D.events p rid hev
      · exact absurd (List.mem_singleton.mp hev) (by simp)
  | @netProposal p q j proposer hmem hlinks =>
      refine ⟨fun p' rid hev => ?_, D.netEvents⟩
      rcases List.mem_append.mp hev with hev | hev
      · exact D.events p' rid hev
      · obtain ⟨rfl, rfl⟩ := Event.proposal.inj (List.mem_singleton.mp hev)
        exact D.netEvents p' rid hmem
  | netReceive hmem hlinks => exact ⟨D.events, D.netEvents⟩
  | @voteEvent schedule cert b rid rest qc hqueue hqc =>
      obtain ⟨-, hnet', hev'⟩ := voted_keeps (E := E) b qc { s with eventQueue := rest, schedule }
      refine ⟨fun p rid' hev => ?_, hnet hnet'⟩
      rw [hev'] at hev
      exact D.events p rid' (hqueue ▸ List.mem_cons_of_mem _ hev)
  | @proposalEvent schedule p rid rest s₁ _ hstep =>
      obtain ⟨F, -, hqueue⟩ := hstep.frame W
      refine ⟨fun p' rid' hev => ?_, hnet F.netEvents_eq⟩
      have hrest : ∀ {x}, x ∈ rest → x ∈ s.eventQueue := fun hx =>
        hstep.queue_eq ▸ List.mem_cons_of_mem _ hx
      rcases hqueue with hqueue | ⟨-, hqueue⟩ <;> rw [hqueue] at hev
      · exact D.events p' rid' (hrest hev)
      · rcases List.mem_append.mp hev with hev | hev
        · exact D.events p' rid' (hrest hev)
        · exact absurd (List.mem_singleton.mp hev) (by simp)
  | propose hi hvm hq hj =>
      refine ⟨fun p rid hev => ?_, D.netEvents⟩
      rcases List.mem_append.mp hev with hev | hev
      · exact D.events p rid hev
      · obtain ⟨-, rfl⟩ := Event.proposal.inj (List.mem_singleton.mp hev)
        exact hself
  | collect =>
      have K := (collect_spec W.collector).keeps
      refine ⟨fun p rid hev => D.events p rid ?_, hnet K.netEvents_eq⟩
      rw [← K.eventQueue_eq]
      exact hev
  | runVm => exact ⟨D.events, D.netEvents⟩

theorem sourced_of_reach (hself : E.config.isValidReplica E.selfId = true)
    {P : Replica V → Input → Prop} (h : Reach (step E) P (start E) s) :
    WellFormed E s ∧ Sourced E s := by
  refine h.invariant (I := fun s => WellFormed E s ∧ Sourced E s)
    ⟨WellFormed.start E, fun _ _ he => absurd he List.not_mem_nil,
      fun _ _ he => absurd he List.not_mem_nil⟩ ?_
  rintro t u i ⟨W, D⟩ - hs
  exact ⟨(step_cases W hs).1, D.step W hself hs⟩

/-! ## The steps of a correct replica -/

/-- A replica that stands as the replicas of a world do between two steps. -/
structure Sound (E : Setup V) (s : Replica V) : Prop where
  wellFormed : WellFormed E s
  flushedLow : FlushedLow s
  sourced : Sourced E s
  voters : ∀ cert b rid, Event.vote cert b rid ∈ s.eventQueue → rid < maxReplicas
  extends_exec : ∀ nblk blk2 blk1 blk, HeadsChain s.heap nblk blk2 blk1 blk →
    (s.heap.get blk).decided = false → Descends s.heap.parent blk s.bExec

/-- **Step lemma**: what a sound replica can throw. -/
theorem Sound.step_throws (S : Sound E s) {i : Input} {e : Exn}
    (h : step E i s = .error (e, s')) :
    FromMachine E e ∨ ∃ qc, i.certificate = some qc ∧ NamesUnknown E.config qc := by
  have W := S.wellFormed
  cases i with
  | proposeMessage proposal proposer =>
      right
      unfold step receivePropose at h
      dsimp only at h
      split at h
      · cases h
      · exact ⟨_, rfl, acceptBlock_throws h⟩
  | voteMessage vote voter =>
      unfold step receiveVote at h
      dsimp only at h
      split at h
      · cases h
      · rename_i hvalid
        -- a configured replica has an entry
        have hfound : E.config.isValidReplica voter = true := by simpa using hvalid
        obtain ⟨pk, hpk⟩ := ReplicaConfig.getPublickey_ok_iff.mpr hfound
        unfold ReplicaConfig.getPublickey at hpk
        split at h
        · rename_i x hx
          rw [hx] at hpk
          cases hpk
        · split at h
          · cases h
          · cases h
  | fetchResponse response sender =>
      have h' : acceptBlock E response sender (.blockReceive · sender) s = .error (e, s') := h
      exact Or.inr ⟨_, rfl, acceptBlock_throws h'⟩
  | netEvent e =>
      unfold step at h
      dsimp only at h
      split at h
      · rename_i hmem
        obtain ⟨t, ht⟩ := onNetEvent_returns W hmem
        rw [ht] at h
        cases h
      · cases h
  | event schedule =>
      left
      unfold step at h
      dsimp only at h
      rcases hq : s.eventQueue with _ | ⟨x, rest⟩
      · simp only [hq] at h
        cases h
      · simp only [hq] at h
        have hmem : x ∈ s.eventQueue := hq ▸ List.mem_cons_self
        have hok := W.events x hmem
        cases x with
        | vote cert b rid =>
            obtain ⟨t, ht⟩ := onReceiveVote_returns (E := E)
              (s := { s with eventQueue := rest, schedule := schedule }) hok.2
              (S.voters cert b rid hmem)
            simp only [onEvent, ht] at h
            cases h
        | proposal p rid =>
            have W₀ := W.popEvent schedule hq
            obtain ⟨s₁, hv⟩ := voteOnProposal_returns W₀ hok.1 hok.2 (S.sourced.events p rid hmem)
            obtain ⟨W₁, F₁, -⟩ := S.flushedLow.voteOnProposal W hq hv
            simp only [onEvent, onReceiveProposal, hv] at h
            rcases update_throws W₁ F₁ h with rfl | hmachine
            · -- the vote changed neither the tree nor the executed block
              have hframe : s₁.heap = s.heap ∧ s₁.bExec = s.bExec := by
                rcases voteOnProposal_ok W₀ hok.1 hok.2 hv with v | ⟨rfl, -⟩
                · obtain ⟨queue, -, rfl⟩ := v.eq
                  exact ⟨rfl, rfl⟩
                · exact ⟨rfl, rfl⟩
              obtain ⟨blk2, blk1, blk, l, hj, hd, hp2, hp1, hno⟩ := update_breach W₁ h
              have T : HeadsChain s₁.heap p blk2 blk1 blk := ⟨l.justify₂, l.justify₁, hj, hp2, hp1⟩
              rw [hframe.1] at T hd hno
              rw [hframe.2] at hno
              exact absurd (S.extends_exec _ _ _ _ T hd) hno
            · exact hmachine
  | doPropose => exact Or.inl (proposeWith_throws W h)
  | doEmptyPropose => exact Or.inl (proposeWith_throws W h)
  | collect => cases h
  | runVm => cases h

namespace World

variable {N : System V} {w : World V}

theorem isValidReplica_of_correct {r : ReplicaID} (hr : N.Correct r) :
    (N.setup r).config.isValidReplica (N.setup r).selfId = true :=
  ReplicaConfig.isValidReplica_iff.mpr hr.1

/-- Correct replicas of a world are sound. -/
theorem sound_of_reach (hids : ∀ rid ∈ N.config.ids, rid < maxReplicas)
    (h : Reach (step N) (Admissible N) (start N) w) {r : ReplicaID} (hr : N.Correct r) :
    Sound (N.setup r) (w r) := by
  have S := sane_of_reach h
  have hlocal := local_reach h r
  refine ⟨S.wellFormed r, (bodyLog_of_reach hlocal).flushedLow,
    (sourced_of_reach (isValidReplica_of_correct hr) hlocal).2, ?_, ?_⟩
  · intro cert b rid hmem
    exact hids rid ((S.evidence r).events cert b rid hmem).1
  · intro nblk blk2 blk1 blk T hd
    have I := (wellFormed_commitLog_of_reach hlocal).2.toIndexLog
    exact S.descends_exec I T hd

end World

/-- **Only the machine throws.** In every admissible run of a world with at most `f` faulty replicas -- no
signature is forged, every block in circulation is on top of the block it certifies, heights stay below
`2 ^ 32` -- a step of a correct replica throws for one of two reasons: the virtual machine or its bridge
threw, or the certificate of an arriving block names a replica that is not configured. No event and no proposal
finds a null pointer, a breach of safety, a flushed body, a missing parent, a certificate for another block
or nobody to send a vote to. -/
theorem only_machine_throws (N : System V) (hids : ∀ rid ∈ N.config.ids, rid < maxReplicas)
    (w : World V) (h : Reach (World.step N) (World.Admissible N) (World.start N) w)
    (a : Action) (hcorrect : N.Correct a.rid) (e : Exn) (s' : Replica V)
    (hthrow : World.step N a w = .error (e, s')) :
    ((∃ what, e = .vm what) ∧ ¬ (N.vm a.rid).Returns) ∨
      ∃ qc, a.input.certificate = some qc ∧ ∃ rid ∈ bits qc.bmp, rid ∉ N.config.ids := by
  have S := World.sound_of_reach hids h hcorrect
  unfold World.step at hthrow
  split at hthrow
  · rename_i r hr
    obtain rfl := Except.error.inj hthrow
    exact S.step_throws hr
  · cases hthrow

/-! ### Four replicas -/

namespace Instance

/-- A block whose certificate has a bit for a replica 4, which does not exist. -/
def unknownBlock : HotstuffBlockWire :=
  blockOn 1#256 (certificate [0, 1, 2, 4] 1#256) []

end Instance

open Instance in
/-- A block with an unknown signer makes the check of its certificate throw. -/
theorem only_machine_throws_four : ∃ w : World Unit,
    (∃ e s', World.step fourSystem ⟨0, .proposeMessage unknownBlock 1⟩ w = .error (e, s') ∧
      (((∃ what, e = .vm what) ∧ ¬ idleVm.Returns) ∨
        ∃ qc, (Input.proposeMessage unknownBlock 1).certificate = some qc ∧
          ∃ rid ∈ bits qc.bmp, rid ∉ fourSystem.config.ids)) := by
  obtain ⟨w, hreach, -, -⟩ := exists_fourWorld
  have hbad : ∀ t : Replica Unit, ∃ e, step (fourSystem.setup 0)
      (.proposeMessage unknownBlock 1) t = .error (e, t) := by
    intro t
    refine ⟨.runtimeError "rid4not found", ?_⟩
    have hv : (HotstuffBlock.receiveBlock crypto unknownBlock 1).validateHotstuff crypto (config 4) =
        .error (.runtimeError "rid4not found") := by
      decide +kernel
    show receivePropose (fourSystem.setup 0) unknownBlock 1 t = _
    unfold receivePropose acceptBlock
    dsimp only
    rw [show (fourSystem.setup 0).crypto = crypto from rfl,
      show (fourSystem.setup 0).config = config 4 from rfl, hv]
    rfl
  obtain ⟨e, he⟩ := hbad (w 0)
  have hstep : World.step fourSystem ⟨0, .proposeMessage unknownBlock 1⟩ w = .error (e, w 0) := by
    unfold World.step
    rw [he]
  exact ⟨w, e, w 0, hstep, only_machine_throws fourSystem (by decide) w hreach _
    ⟨by decide, by decide⟩ e _ hstep⟩

end Fred.Hotstuff
