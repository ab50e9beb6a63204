/-
# Fred.Hotstuff.Rounds -- one round at one replica

In a round the proposer mints a block and handles it, every other replica receives, inserts and
handles it, and the proposer counts their votes. Here is what a round does at each of them, whatever
happened before: a replica that has the block's parent and its certified block stored, and has not
executed past the parent's branch, handles the proposal without an exception (`proposal_returns`),
votes for it if it is above its last vote and respects its lock, and executes what the block commits
(`ProposalStep.reaches`).
-/
import Fred.Hotstuff.Accepted
import Fred.Hotstuff.Returns

namespace Fred.Hotstuff

open Fred.Forest Fred.Transition Replica

variable {V : Type} {E : Setup V} {s s' s₁ : Replica V} {K : Set HotstuffBlockHeader}

/-! ## What holds in every run -/

/-- What holds of a replica between two steps of any run on blocks in circulation. -/
structure Standing (E : Setup V) (K : Set HotstuffBlockHeader) (s : Replica V) : Prop where
  wellFormed : WellFormed E s
  index : IndexLog s
  flushedLow : FlushedLow s
  sourced : Sourced E s
  presentable : Presentable E s
  bodies : BodyLog E s
  regular : Regular K s

theorem Standing.step (T : Standing E K s) (X : Keyed E) {i : Input}
    (h : Hotstuff.step E i s = .ok s') (R : Regular K s') : Standing E K s' := by
  have W := T.wellFormed
  have hself : E.config.isValidReplica E.selfId = true := by
    obtain ⟨info, hinfo, -⟩ := X.key
    unfold ReplicaConfig.getInfo at hinfo
    unfold ReplicaConfig.isValidReplica
    split at hinfo
    · cases hinfo
    · rename_i hfind
      rw [hfind]
      rfl
  exact ⟨(step_cases W h).1, T.index.step W h, T.flushedLow.step W h, T.sourced.step W hself h,
    T.presentable.step W X h, T.bodies.step W h, R⟩

theorem Standing.start (E : Setup V) (K : Set HotstuffBlockHeader) :
    Standing E K (Hotstuff.start E) where
  wellFormed := WellFormed.start E
  index := IndexLog.start E
  flushedLow := (BodyLog.start E).flushedLow
  sourced := ⟨fun _ _ he => absurd he List.not_mem_nil, fun _ _ he => absurd he List.not_mem_nil⟩
  presentable := Presentable.start E
  bodies := BodyLog.start E
  regular := regular_start K E

/-! ## A proposal event -/

/-- The lock allows a block whose parent is `b` and whose certificate is on `j`. -/
def LockAllows (s : Replica V) (b j : BlockPtr) : Prop :=
  s.heap.height s.bLock < s.heap.height j ∨ Descends s.heap.parent b s.bLock

theorem justify_chain (W : WellFormed E s) (R : Regular K s) (C : Circulation E.crypto K)
    {p blk2 blk1 blk : BlockPtr} (h2 : s.heap.justify p = some blk2)
    (h1 : s.heap.justify blk2 = some blk1) (h0 : s.heap.justify blk1 = some blk) :
    Descends s.heap.parent p blk :=
  ((W.justify_below_of_regular R C h2).1.trans (W.justify_below_of_regular R C h1).1).trans
    (W.justify_below_of_regular R C h0).1

/-- **A proposal on the executed branch is handled without an exception.** What `update` is about to
commit and what is executed lie below the proposed block, so one extends the other. -/
theorem proposal_returns (schedule : List ℕ) (T : Standing E K s) (C : Circulation E.crypto K)
    (hvm : E.vm.Returns) {p b : BlockPtr} {rid : ReplicaID} {rest : List Event}
    (hq : s.eventQueue = .proposal p rid :: rest) (hparent : s.heap.parent p = some b)
    (hexec : Descends s.heap.parent b s.bExec) :
    ∃ s₁ s', Hotstuff.step E (.event schedule) s = .ok s' ∧
      ProposalStep E schedule p rid rest s s₁ s' := by
  have W := T.wellFormed
  have hmem : Event.proposal p rid ∈ s.eventQueue := hq ▸ List.mem_cons_self
  have hok : Event.Ok s.heap (.proposal p rid) := W.events _ hmem
  have W₀ := W.popEvent schedule hq
  obtain ⟨s₁, hv⟩ := voteOnProposal_returns W₀ hok.1 hok.2 (T.sourced.events p rid hmem)
  obtain ⟨W₁, F₁, -⟩ := T.flushedLow.voteOnProposal W hq hv
  have hframe : s₁.heap = s.heap ∧ s₁.bExec = s.bExec := by
    rcases voteOnProposal_ok W₀ hok.1 hok.2 hv with v | ⟨rfl, -⟩
    · obtain ⟨queue, -, rfl⟩ := v.eq
      exact ⟨rfl, rfl⟩
    · exact ⟨rfl, rfl⟩
  have hcall : Hotstuff.step E (.event schedule) s = update E p s₁ := by
    unfold Hotstuff.step
    simp only [hq, onEvent, onReceiveProposal, hv]
  rcases hu : update E p s₁ with ⟨e, t⟩ | s'
  · exfalso
    rcases update_throws W₁ F₁ hu with rfl | hmachine
    · obtain ⟨blk2, blk1, blk, l, hj, hd, -, -, hno⟩ := update_breach W₁ hu
      have h2 := l.justify₂
      have h1 := l.justify₁
      rw [hframe.1] at h2 h1 hj hd hno
      rw [hframe.2] at hno
      have hbelow := justify_chain W T.regular C h2 h1 hj
      rcases hbelow.total (hexec.head hparent) with h | h
      · exact hno h
      · have hlt := W.shape.lt_next_of_settled (W.shape.settled_justify hj)
        rw [(T.index.decided_iff blk hlt).mpr h] at hd
        cases hd
    · exact hmachine.2 hvm
  · rw [hu] at hcall
    obtain ⟨hupdate, -⟩ := update_ok W₁ hu
    exact ⟨s₁, s', hcall, ⟨hq, hok.1, hok.2, hv, W₁, hu, hupdate⟩⟩

namespace ProposalStep

variable {schedule : List ℕ} {p b j : BlockPtr} {rid : ReplicaID} {rest : List Event}

/-- The vote changes neither the tree nor lock, executed block and flags. -/
theorem vote_frame (W : WellFormed E s) (h : ProposalStep E schedule p rid rest s s₁ s') :
    s₁.heap = s.heap ∧ s₁.bExec = s.bExec ∧ s₁.bLock = s.bLock ∧ s₁.hqc = s.hqc ∧
      s₁.bLeaf = s.bLeaf := by
  rcases voteOnProposal_ok (W.popEvent schedule h.queue_eq) h.ne_genesis h.settled h.vote with
    v | ⟨hsame, -⟩
  · obtain ⟨queue, -, hs₁⟩ := v.eq
    rw [hs₁]
    exact ⟨rfl, rfl, rfl, rfl, rfl⟩
  · rw [hsame]
    exact ⟨rfl, rfl, rfl, rfl, rfl⟩

/-- **The vote is cast** on a block above the last vote that the lock allows. -/
theorem votes (W : WellFormed E s) (h : ProposalStep E schedule p rid rest s s₁ s')
    (hparent : s.heap.parent p = some b) (hjustify : s.heap.justify p = some j)
    (hlock : LockAllows s b j) (habove : s.vheight.toNat < s.heap.height p) :
    Effect.voted p (s.heap.height p) (PartialCertificate.create E.crypto (s.heap.hash p)
      E.secretKey) rid ∈ s'.trace := by
  apply h.update.silent.voted_iff.mpr
  rcases voteOnProposal_ok (W.popEvent schedule h.queue_eq) h.ne_genesis h.settled h.vote with
    v | ⟨-, hno⟩
  · obtain ⟨queue, -, hs₁⟩ := v.eq
    rw [hs₁]
    exact List.mem_append_right _ (List.mem_singleton.mpr rfl)
  · exfalso
    rcases hno with hle | ⟨j', hj', hle, hnot⟩
    · exact absurd habove (Nat.not_lt.mpr hle)
    · obtain rfl : j' = j := Option.some.inj (hj'.symm.trans hjustify)
      rcases hlock with hlt | hd
      · exact absurd hlt (Nat.not_lt.mpr hle)
      · exact hnot (hd.head hparent)

/-- The event queue after the event. -/
theorem queue_voted (W : WellFormed E s)
    (h : ProposalStep E schedule p E.selfId rest s s₁ s') (hparent : s.heap.parent p = some b)
    (hjustify : s.heap.justify p = some j) (hlock : LockAllows s b j)
    (habove : s.vheight.toNat < s.heap.height p) : s'.eventQueue = rest ++
      [.vote (PartialCertificate.create E.crypto (s.heap.hash p) E.secretKey) p E.selfId] := by
  rw [h.update.frame.2.1]
  have hv := h.vote
  obtain ⟨j', o, hj', ho, hiff⟩ :=
    opinion_spec (W.popEvent schedule h.queue_eq) h.ne_genesis h.settled
  obtain rfl : j' = j := Option.some.inj (hj'.symm.trans hjustify)
  have hyes : o = true := hiff.mpr (hlock.imp_right fun hd => hd.head hparent)
  unfold voteOnProposal at hv
  rw [if_pos habove, ho, hyes] at hv
  simp only [doVote, validateAndAddEvent, if_true] at hv
  split at hv
  · cases hv
  · rw [← Except.ok.inj hv]
    rfl

/-- The voting height is the old one or that of the block. -/
theorem vheight_le (W : WellFormed E s) (R : Regular K s)
    (h : ProposalStep E schedule p rid rest s s₁ s') :
    s'.vheight.toNat ≤ max s.vheight.toNat (s.heap.height p) := by
  have hupdate : s'.vheight = s₁.vheight := h.update.vheight_eq
  rw [hupdate]
  rcases voteOnProposal_ok (W.popEvent schedule h.queue_eq) h.ne_genesis h.settled h.vote with
    v | ⟨hsame, -⟩
  · obtain ⟨queue, -, hs₁⟩ := v.eq
    rw [hs₁]
    have hlt := R.height_lt p (W.shape.lt_next_of_settled h.settled)
    show (BitVec.ofNat 32 (s.heap.height p)).toNat ≤ _
    rw [BitVec.toNat_ofNat, Nat.mod_eq_of_lt hlt]
    exact Nat.le_max_right _ _
  · rw [hsame]
    exact Nat.le_max_left _ _

/-- The lock stays where it was or goes to the block two certificates below. -/
theorem lock_cases (W : WellFormed E s) (h : ProposalStep E schedule p rid rest s s₁ s')
    (hjustify : s.heap.justify p = some j) :
    s'.bLock = s.bLock ∨ s.heap.justify j = some s'.bLock := by
  obtain ⟨hheap, -, hlock, -, -⟩ := h.vote_frame W
  rcases (h.update.moves h.wellFormed).lock_cases with hsame | ⟨blk2, h2, h1⟩
  · exact Or.inl (hsame.trans hlock)
  · rw [hheap] at h2 h1
    obtain rfl : blk2 = j := Option.some.inj (h2.symm.trans hjustify)
    exact Or.inr h1

/-- The next block on top finds the lock below its certified block. -/
theorem lock_allows (W : WellFormed E s) (R : Regular K s) (C : Circulation E.crypto K)
    (h : ProposalStep E schedule p rid rest s s₁ s') (hparent : s.heap.parent p = some b)
    (hjustify : s.heap.justify p = some j) (hlock : LockAllows s b j) :
    (s.heap.height s'.bLock < s.heap.height j ∨ Descends s.heap.parent b s'.bLock) ∧
      s.heap.height s'.bLock < s.heap.height p := by
  have hcases : s.heap.height s'.bLock < s.heap.height j ∨ Descends s.heap.parent b s'.bLock := by
    rcases h.lock_cases W hjustify with hsame | h1
    · rw [hsame]
      exact hlock
    · exact Or.inl (W.justify_below_of_regular R C h1).2
  refine ⟨hcases, ?_⟩
  rcases hcases with hlt | hd
  · exact hlt.trans (W.justify_below_of_regular R C hjustify).2
  · rw [W.shape.height_parent hparent]
    exact Nat.lt_succ_of_le (W.forest.height_le hd)

/-- What is executed stays below the proposed block. -/
theorem exec_below (W : WellFormed E s) (R : Regular K s) (C : Circulation E.crypto K)
    (h : ProposalStep E schedule p rid rest s s₁ s') (hparent : s.heap.parent p = some b)
    (hexec : Descends s.heap.parent b s.bExec) :
    Descends s.heap.parent p s'.bExec ∧ s'.bExec ≠ p := by
  obtain ⟨hheap, hbexec, -, -, -⟩ := h.vote_frame W
  have hne : ∀ {x}, Descends s.heap.parent p x → s.heap.height x < s.heap.height p → x ≠ p := by
    rintro x - hlt rfl
    exact absurd hlt (Nat.lt_irrefl _)
  rcases (h.update.moves h.wellFormed).exec_cases with hsame | ⟨-, blk2, blk1, T⟩
  · rw [hsame, hbexec]
    refine ⟨hexec.head hparent, hne (hexec.head hparent) ?_⟩
    rw [W.shape.height_parent hparent]
    exact Nat.lt_succ_of_le (W.forest.height_le hexec)
  · rw [hheap] at T
    refine ⟨justify_chain W R C T.justify₂ T.justify₁ T.justify₀,
      hne (justify_chain W R C T.justify₂ T.justify₁ T.justify₀) ?_⟩
    exact ((W.justify_below_of_regular R C T.justify₀).2.trans
      (W.justify_below_of_regular R C T.justify₁).2).trans
      (W.justify_below_of_regular R C T.justify₂).2

/-- **A block that heads a direct three-chain is executed** once the block on top is handled. -/
theorem reaches (T : Standing E K s) (h : ProposalStep E schedule p rid rest s s₁ s')
    {blk2 blk1 blk : BlockPtr} (chain : HeadsChain s.heap p blk2 blk1 blk) :
    Descends s.heap.parent s'.bExec blk := by
  have W := T.wellFormed
  obtain ⟨hheap, hbexec, -, -, -⟩ := h.vote_frame W
  have hup : Descends s.heap.parent s'.bExec s.bExec := by
    have hdescends := h.update.descends_exec
    rw [hheap, hbexec] at hdescends
    exact hdescends
  have hdown₁ : Descends s.heap.parent blk1 blk := Descends.single chain.parent₁
  have hdown₂ : Descends s.heap.parent blk2 blk := hdown₁.head chain.parent₂
  have hdecided : ∀ {x}, s.heap.Settled x → (s.heap.get x).decided = true →
      Descends s.heap.parent x blk → Descends s.heap.parent s'.bExec blk := by
    intro x hx hd hbelow
    have hlt := W.shape.lt_next_of_settled hx
    exact (hup.trans ((T.index.decided_iff x hlt).mp hd)).trans hbelow
  have hset₂ := W.shape.settled_justify chain.justify₂
  have hset₁ := W.shape.settled_justify chain.justify₁
  have hset₀ := W.shape.settled_justify chain.justify₀
  cases hd2 : (s.heap.get blk2).decided with
  | true => exact hdecided hset₂ hd2 hdown₂
  | false =>
    cases hd1 : (s.heap.get blk1).decided with
    | true => exact hdecided hset₁ hd1 hdown₁
    | false =>
      cases hd0 : (s.heap.get blk).decided with
      | true => exact hdecided hset₀ hd0 (Descends.refl _)
      | false =>
        -- nothing stops `update` before the commit
        have hcall := h.call
        have l : LockStage E p blk2 blk1 s₁ _ := lockStage h.wellFormed
          (by rw [hheap]; exact chain.justify₂) (by rw [hheap]; exact hd2)
          (by rw [hheap]; exact chain.justify₁) (by rw [hheap]; exact hd1)
        have hcores := l.aged.cores
        have hflag := Stays.decided_lockStage l blk
        unfold Replica.update at hcall
        simp only [hheap, chain.justify₂, hd2, Bool.false_eq_true, if_false] at hcall
        simp only [heap_updateHqc, hheap, chain.justify₁, hd1, Bool.false_eq_true, if_false] at hcall
        simp only [hheap] at hcores hflag
        simp only [hcores.justify_eq, hcores.parent_eq, chain.justify₀, hflag, hd0, chain.parent₂,
          chain.parent₁, Bool.false_eq_true, if_false, ne_eq, not_true_eq_false, or_self] at hcall
        split at hcall
        · cases hcall
        · unfold commitBlocks at hcall
          split at hcall
          · cases hcall
          · obtain rfl := Except.ok.inj hcall
            exact Descends.refl _

end ProposalStep

end Fred.Hotstuff
