/-
# Fred.Hotstuff.Steps -- what a proposal event can do

A proposal event is a vote or no vote (`VoteSpec`), then a call of `update` (`UpdateOk`,
`update_breach`). The lemmas are stated for a replica between two steps, so that every fact about
links and heights is one about the state the event starts in.
-/
import Fred.Hotstuff.WellFormed

namespace Fred.Hotstuff

open Fred.Forest

variable {V : Type} {E : Setup V} {s s' : Replica V}

namespace Replica

/-! ## The vote -/

/-- **The vote test** holds exactly when the certificate is on a block above the lock or the block
descends from the lock. -/
theorem opinion_spec (W : WellFormed E s) {bnew : BlockPtr} (hne : bnew ≠ genesisPtr)
    (hset : s.heap.Settled bnew) : ∃ j o, s.heap.justify bnew = some j ∧
      opinion bnew s = .ok o ∧
      (o = true ↔ s.heap.height s.bLock < s.heap.height j ∨
        Descends s.heap.parent bnew s.bLock) := by
  obtain ⟨q, hq⟩ := hset.resolve_left hne
  obtain ⟨j, hj, -⟩ := W.shape.justify_cached hq
  obtain ⟨⟨passed, stop⟩, hwalk⟩ :=
    W.forest.walkDown_isSome (s.heap.height s.bLock) (le_refl (s.heap.height bnew))
  have hstop := (W.forest.walkDown_spec hwalk).stop_eq_iff W.forest
  unfold opinion
  rw [hj]
  by_cases hlt : s.heap.height s.bLock < s.heap.height j
  · exact ⟨j, true, rfl, by simp [hlt], by simp [hlt]⟩
  · refine ⟨j, stop == s.bLock, rfl, by simp [hlt, hwalk], ?_⟩
    simp only [beq_iff_eq, hlt, false_or]
    exact hstop

/-- What a vote does: it is sent, and one to this replica itself is queued. -/
structure VoteSpec (E : Setup V) (bnew : BlockPtr) (proposer : ReplicaID) (s s' : Replica V) :
    Prop where
  height_lt : s.vheight.toNat < s.heap.height bnew
  opinion : ∃ j, s.heap.justify bnew = some j ∧
    (s.heap.height s.bLock < s.heap.height j ∨ Descends s.heap.parent bnew s.bLock)
  eq : ∃ q, (∀ e ∈ q, e ∈ s.eventQueue ∨ e.Ok s.heap) ∧ s' = { s with
    vheight := BitVec.ofNat 32 (s.heap.height bnew)
    eventQueue := q
    trace := s.trace ++ [.voted bnew (s.heap.height bnew)
      (PartialCertificate.create E.crypto (s.heap.hash bnew) E.secretKey) proposer] }

theorem doVote_ok {block : BlockPtr} {proposer : ReplicaID} (hset : s.heap.Settled block)
    (h : doVote E block proposer s = .ok s') :
    ∃ q, (∀ e ∈ q, e ∈ s.eventQueue ∨ e.Ok s.heap) ∧ s' = { s with
      eventQueue := q
      trace := s.trace ++ [.voted block (s.heap.height block)
        (PartialCertificate.create E.crypto (s.heap.hash block) E.secretKey) proposer] } := by
  unfold doVote at h
  dsimp only at h
  split at h
  · unfold validateAndAddEvent at h
    dsimp only at h
    split at h
    · cases h
    · refine ⟨_, ?_, (Except.ok.inj h).symm⟩
      intro e he
      rcases List.mem_append.mp he with he | he
      · exact Or.inl he
      · rw [List.mem_singleton.mp he]
        exact Or.inr ⟨hset, rfl⟩
  · split at h
    · exact ⟨s.eventQueue, fun _ he => Or.inl he, (Except.ok.inj h).symm⟩
    · cases h

/-- The part of a proposal event before `update`. -/
theorem voteOnProposal_ok (W : WellFormed E s) {bnew : BlockPtr} {proposer : ReplicaID}
    (hne : bnew ≠ genesisPtr) (hset : s.heap.Settled bnew)
    (h : voteOnProposal E bnew proposer s = .ok s') :
    VoteSpec E bnew proposer s s' ∨
      (s' = s ∧ (s.heap.height bnew ≤ s.vheight.toNat ∨ ∃ j, s.heap.justify bnew = some j ∧
        s.heap.height j ≤ s.heap.height s.bLock ∧ ¬ Descends s.heap.parent bnew s.bLock)) := by
  obtain ⟨j, o, hj, ho, hiff⟩ := opinion_spec W hne hset
  unfold voteOnProposal at h
  by_cases hlt : s.heap.height bnew > s.vheight.toNat
  · rw [if_pos hlt, ho] at h
    cases o with
    | true =>
        obtain ⟨q, hq, rfl⟩ :=
          doVote_ok (s := { s with vheight := BitVec.ofNat 32 (s.heap.height bnew) }) hset h
        exact Or.inl ⟨hlt, ⟨j, hj, hiff.mp rfl⟩, q, hq, rfl⟩
    | false =>
        refine Or.inr ⟨(Except.ok.inj h).symm, Or.inr ⟨j, hj, ?_⟩⟩
        have hno : ¬ (s.heap.height s.bLock < s.heap.height j ∨
            Descends s.heap.parent bnew s.bLock) := fun hc => by cases hiff.mpr hc
        exact ⟨Nat.not_lt.mp fun hc => hno (Or.inl hc), fun hc => hno (Or.inr hc)⟩
  · rw [if_neg hlt] at h
    exact Or.inr ⟨(Except.ok.inj h).symm, Or.inl (Nat.not_lt.mp hlt)⟩

theorem VoteSpec.wellFormed (W : WellFormed E s) {bnew : BlockPtr} {proposer : ReplicaID}
    (v : VoteSpec E bnew proposer s s') : WellFormed E s' := by
  obtain ⟨q, hq, rfl⟩ := v.eq
  exact W.withQueue hq _ _ _ _ _ _ _

/-! ## `update` -/

theorem newLock_updateHqc (blk1 b : BlockPtr) (qc : QuorumCertificate) (s : Replica V) :
    newLock blk1 (updateHqc b qc s) = newLock blk1 s := by
  unfold newLock updateHqc
  split <;> rfl

/-- `update` has looked at the certificate chain down to `blk1` and locked and saved. -/
structure LockStage (E : Setup V) (nblk blk2 blk1 : BlockPtr) (s s₂ : Replica V) : Prop where
  justify₂ : s.heap.justify nblk = some blk2
  undecided₂ : (s.heap.get blk2).decided = false
  justify₁ : s.heap.justify blk2 = some blk1
  undecided₁ : (s.heap.get blk1).decided = false
  spec : WriteSpec (s.heap.height s.bExec - keepDepth) (newLock blk1 s)
    (setLock (newLock blk1 s) (updateHqc blk2 (s.heap.get nblk).getJustifyQc s)) s₂
  wellFormed : WellFormed E s₂

/-- `update` has found a direct three-chain that extends the executed block and committed it. -/
structure CommitStage (E : Setup V) (nblk blk2 blk1 blk : BlockPtr) (queue : List BlockPtr)
    (tx : HotstuffLMDB.Txn) (s s₂ s₃ : Replica V) : Prop where
  lock : LockStage E nblk blk2 blk1 s s₂
  justify₀ : s.heap.justify blk1 = some blk
  undecided₀ : (s.heap.get blk).decided = false
  parent₂ : s.heap.parent blk2 = some blk1
  parent₁ : s.heap.parent blk1 = some blk
  exec : Descends s.heap.parent blk s.bExec
  trunk_eq : (trunk s.heap.parent s.heap.height blk).reverse =
    (trunk s.heap.parent s.heap.height s.bExec).reverse ++ queue
  mem_queue : ∀ x, x ∈ queue ↔
    Descends s.heap.parent blk x ∧ s.heap.height s.bExec < s.heap.height x
  apply : ApplySpec (s.heap.height s.bExec - keepDepth) queue s₂.decidedHashIndex.openTxn tx s₂ s₃

/-- The state `update` returns in after a commit. -/
def committed (blk1 blk : BlockPtr) (tx : HotstuffLMDB.Txn) (s s₃ : Replica V) : Replica V :=
  notifyOkToPruneBlocks (s.heap.height blk)
    { s₃ with
      bExec := blk
      decidedHashIndex := s.decidedHashIndex.commit
        (tx.setQcOnTopBlock (s.heap.get blk1).getJustifyQc.serialize) }

/-- **What a call of `update` that returns has done.** -/
inductive UpdateOk (E : Setup V) (nblk : BlockPtr) (s : Replica V) : Replica V → Prop
  | early (h : ∀ blk2, s.heap.justify nblk = some blk2 → (s.heap.get blk2).decided = true) :
      UpdateOk E nblk s s
  | hqcOnly {blk2 : BlockPtr} (h2 : s.heap.justify nblk = some blk2)
      (hd2 : (s.heap.get blk2).decided = false)
      (h : ∀ blk1, s.heap.justify blk2 = some blk1 → (s.heap.get blk1).decided = true) :
      UpdateOk E nblk s (updateHqc blk2 (s.heap.get nblk).getJustifyQc s)
  | lockOnly {blk2 blk1 : BlockPtr} {s₂ : Replica V} (l : LockStage E nblk blk2 blk1 s s₂) :
      UpdateOk E nblk s s₂
  | commit {blk2 blk1 blk : BlockPtr} {queue : List BlockPtr} {tx : HotstuffLMDB.Txn}
      {s₂ s₃ : Replica V} (c : CommitStage E nblk blk2 blk1 blk queue tx s s₂ s₃)
      (W' : WellFormed E (committed blk1 blk tx s s₃)) :
      UpdateOk E nblk s (committed blk1 blk tx s s₃)

theorem WriteSpec.core_eq {bound : ℕ} {a b : BlockPtr} {qc : QuorumCertificate} {l : BlockPtr}
    {s s₂ : Replica V} (spec : WriteSpec bound a (setLock l (updateHqc b qc s)) s₂) :
    Heap.SameCores s.heap s₂.heap := by
  have h : Heap.SameCores (updateHqc b qc s).heap s₂.heap := spec.aged.cores
  rw [heap_updateHqc] at h
  exact h

theorem updateHqc_frame (b : BlockPtr) (qc : QuorumCertificate) (s : Replica V) :
    (updateHqc b qc s).bExec = s.bExec ∧ (updateHqc b qc s).blockStore = s.blockStore := by
  unfold updateHqc
  split <;> exact ⟨rfl, rfl⟩

theorem updateHqc_index (b : BlockPtr) (qc : QuorumCertificate) (s : Replica V) :
    (updateHqc b qc s).decidedHashIndex = s.decidedHashIndex := by
  unfold updateHqc
  split <;> rfl

theorem updateHqc_trace (b : BlockPtr) (qc : QuorumCertificate) (s : Replica V) :
    (updateHqc b qc s).trace = s.trace := by
  unfold updateHqc
  split <;> rfl

/-- The lock stage of `update`. -/
theorem lockStage (W : WellFormed E s) {nblk blk2 blk1 : BlockPtr}
    (h2 : s.heap.justify nblk = some blk2) (hd2 : (s.heap.get blk2).decided = false)
    (h1 : s.heap.justify blk2 = some blk1) (hd1 : (s.heap.get blk1).decided = false) :
    LockStage E nblk blk2 blk1 s
      (lockAndWrite E blk1 (updateHqc blk2 (s.heap.get nblk).getJustifyQc s)) := by
  have W₁ : WellFormed E (updateHqc blk2 (s.heap.get nblk).getJustifyQc s) :=
    W.updateHqc (W.shape.settled_justify h2) (W.shape.objHash_getJustifyQc h2)
  obtain ⟨hexec, hstore⟩ := updateHqc_frame blk2 (s.heap.get nblk).getJustifyQc s
  have hstored : (updateHqc blk2 (s.heap.get nblk).getJustifyQc s).blockStore.blockCache
      ((updateHqc blk2 (s.heap.get nblk).getJustifyQc s).heap.hash blk1) = some blk1 := by
    rw [hstore, heap_updateHqc]
    exact W.shape.stored_justify h1
  obtain ⟨spec, W₂⟩ := W₁.lockAndWrite hstored
  rw [heap_updateHqc, newLock_updateHqc, hexec] at spec
  exact ⟨h2, hd2, h1, hd1, spec, W₂⟩

/-- Locking and saving leaves every block where it is and may flush what is far below the executed
block. -/
theorem LockStage.aged {nblk blk2 blk1 : BlockPtr} {s₂ : Replica V}
    (l : LockStage E nblk blk2 blk1 s s₂) :
    Heap.Aged (s.heap.height s.bExec - keepDepth) s.heap s₂.heap := by
  have A : Heap.Aged _ (updateHqc blk2 (s.heap.get nblk).getJustifyQc s).heap s₂.heap := l.spec.aged
  rw [heap_updateHqc] at A
  exact A

theorem LockStage.bExec_eq {nblk blk2 blk1 : BlockPtr} {s₂ : Replica V}
    (l : LockStage E nblk blk2 blk1 s s₂) : s₂.bExec = s.bExec := by
  rw [l.spec.keeps.bExec_eq]
  show (updateHqc blk2 (s.heap.get nblk).getJustifyQc s).bExec = s.bExec
  rw [(updateHqc_frame _ _ _).1]

/-- **What `update` has done when it returns**, between two steps of a replica. -/
theorem update_ok (W : WellFormed E s) {nblk : BlockPtr} (h : update E nblk s = .ok s') :
    UpdateOk E nblk s s' ∧ WellFormed E s' := by
  have hrun := update_run E nblk s
  rw [h] at hrun
  generalize hr : (Except.ok s' : Result V) = r at hrun
  cases hrun with
  | early hearly =>
      obtain rfl := Except.ok.inj hr
      exact ⟨.early hearly, W⟩
  | @hqcOnly blk2 h2 hd2 hstop =>
      obtain rfl := Except.ok.inj hr
      exact ⟨.hqcOnly h2 hd2 hstop,
        W.updateHqc (W.shape.settled_justify h2) (W.shape.objHash_getJustifyQc h2)⟩
  | @lockOnly blk2 blk1 h2 hd2 h1 hd1 =>
      obtain rfl := Except.ok.inj hr
      have l := lockStage W h2 hd2 h1 hd1
      exact ⟨.lockOnly l, l.wellFormed⟩
  | @chain blk2 blk1 blk s₂ _ h2 hd2 h1 hd1 hs₂ h0 hd0 hp2 hp1 hcommit =>
      subst hs₂
      have l := lockStage W h2 hd2 h1 hd1
      generalize lockAndWrite E blk1 (updateHqc blk2 (s.heap.get nblk).getJustifyQc s) = s₂ at *
      have hsame := l.spec.core_eq
      have hexec : s₂.bExec = s.bExec := l.bExec_eq
      rcases commitQueue_spec blk l.wellFormed.forest with
        ⟨hd, queue, hq, htrunk, hmem⟩ | ⟨-, hbreach⟩
      · rw [hq, ← hr] at hcommit
        have hcommit' : commitBlocks E blk1 blk queue s₂ = .ok s' := hcommit.symm
        have hstored := l.wellFormed.shape.stored_justify h0
        have W' := l.wellFormed.commitBlocks hstored hd (fun x hx => ((hmem x).mp hx).1) hcommit'
        obtain ⟨tx, s₃, A, hs'⟩ := commitBlocks_ok l.wellFormed.collector hcommit'
        have hindex : s₂.decidedHashIndex = s.decidedHashIndex :=
          l.spec.keeps.index_eq.trans (updateHqc_index _ _ _)
        have hqc : (s₂.heap.get blk1).getJustifyQc = (s.heap.get blk1).getJustifyQc :=
          congrArg (fun c => c.parsedQc.getD (.ofHash 0#256)) (hsame.core_eq blk1)
        rw [hsame.parent_eq, hsame.height_eq, hexec] at htrunk
        rw [hsame.parent_eq, hexec] at hd
        rw [hsame.height_eq, hexec] at A
        have hs : s' = committed blk1 blk tx s s₃ := by
          rw [hs', hsame.height_eq, hindex, hqc]
          rfl
        rw [hs] at W' ⊢
        refine ⟨.commit ⟨l, ?_, ?_, ?_, ?_, hd, htrunk, ?_, A⟩ W', W'⟩
        · rw [← hsame.justify_eq]
          exact h0
        · have hdec : (s₂.heap.get blk).decided =
              ((updateHqc blk2 (s.heap.get nblk).getJustifyQc s).heap.get blk).decided :=
            l.spec.decided_eq blk
          rw [heap_updateHqc] at hdec
          rw [← hdec]
          exact hd0
        · rw [← hsame.parent_eq]
          exact hp2
        · rw [← hsame.parent_eq]
          exact hp1
        · intro x
          rw [hmem x, hsame.parent_eq, hsame.height_eq, hexec]
      · rw [hbreach] at hcommit
        rw [hcommit] at hr
        cases hr

/-- `update` leaves every block where it is and may flush what is far below the executed block. -/
theorem UpdateOk.aged {p : BlockPtr} (u : UpdateOk E p s s') :
    Heap.Aged (s.heap.height s.bExec - keepDepth) s.heap s'.heap := by
  cases u with
  | early _ => exact Heap.Aged.refl _
  | hqcOnly _ _ _ =>
      rw [heap_updateHqc]
      exact Heap.Aged.refl _
  | lockOnly l => exact l.aged
  | commit c _ => exact c.lock.aged.trans c.apply.aged

theorem UpdateOk.cores {p : BlockPtr} (u : UpdateOk E p s s') : Heap.SameCores s.heap s'.heap :=
  u.aged.cores

/-- The executed block moves up its branch. -/
theorem UpdateOk.descends_exec {p : BlockPtr} (u : UpdateOk E p s s') :
    Descends s.heap.parent s'.bExec s.bExec := by
  cases u with
  | early _ => exact Descends.refl _
  | hqcOnly _ _ _ =>
      rw [(updateHqc_frame _ _ _).1]
      exact Descends.refl _
  | lockOnly l =>
      rw [l.bExec_eq]
      exact Descends.refl _
  | commit c _ => exact c.exec

/-- A call of `update` that throws `safety breached` has locked and saved, and stopped at a direct
three-chain that does not extend the executed block. -/
theorem update_breach (W : WellFormed E s) {nblk : BlockPtr}
    (h : update E nblk s = .error (.safetyBreached, s')) :
    ∃ blk2 blk1 blk, LockStage E nblk blk2 blk1 s s' ∧ s.heap.justify blk1 = some blk ∧
      (s.heap.get blk).decided = false ∧ s.heap.parent blk2 = some blk1 ∧
      s.heap.parent blk1 = some blk ∧ ¬ Descends s.heap.parent blk s.bExec := by
  have hrun := update_run E nblk s
  rw [h] at hrun
  generalize hr : (Except.error (Exn.safetyBreached, s') : Result V) = r at hrun
  cases hrun with
  | early _ => cases hr
  | hqcOnly _ _ _ => cases hr
  | lockOnly _ _ _ _ => cases hr
  | @chain blk2 blk1 blk s₂ _ h2 hd2 h1 hd1 hs₂ h0 hd0 hp2 hp1 hcommit =>
      subst hs₂
      have l := lockStage W h2 hd2 h1 hd1
      generalize lockAndWrite E blk1 (updateHqc blk2 (s.heap.get nblk).getJustifyQc s) = s₂ at *
      have hsame := l.spec.core_eq
      have hexec : s₂.bExec = s.bExec := l.bExec_eq
      rcases commitQueue_spec blk l.wellFormed.forest with
        ⟨-, queue, hq, -, -⟩ | ⟨hd, hbreach⟩
      · rw [hq, ← hr] at hcommit
        exact absurd rfl (commitBlocks_error hcommit.symm)
      · rw [hbreach, ← hr] at hcommit
        obtain ⟨-, rfl⟩ := Prod.mk.inj (Except.error.inj hcommit)
        have hdec : (s'.heap.get blk).decided =
            ((updateHqc blk2 (s.heap.get nblk).getJustifyQc s).heap.get blk).decided :=
          l.spec.decided_eq blk
        rw [heap_updateHqc] at hdec
        rw [hsame.parent_eq, hexec] at hd
        refine ⟨blk2, blk1, blk, l, ?_, hdec ▸ hd0, ?_, ?_, hd⟩
        · rw [← hsame.justify_eq]
          exact h0
        · rw [← hsame.parent_eq]
          exact hp2
        · rw [← hsame.parent_eq]
          exact hp1

end Replica

end Fred.Hotstuff
