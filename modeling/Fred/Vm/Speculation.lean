/-
# Fred.Vm.Speculation -- what the machine of a speculating leader has applied

A machine that obeys the interface has a list of settled blocks and, on top of them, blocks it applied
speculatively when it proposed them (`ObeysInterface`). The bridge hands proposals out of the buffer,
records them at their heights, and settles them when the same blocks commit.

`Mirrors` says that bridge and machine are in step: what the machine has applied speculatively is what is
committed but not yet delivered, then what the map records, then what waits in the buffer. Every call
that meets `Meets` keeps it. The calls that do not meet it are the places where the bridge loses track: a
proposal taken at a height the gadget drops, a null block applied on top of buffered proposals, a block
executed before the machine was told of a commitment, and a commitment replaced by one with the same
identifier.
-/
import Fred.Vm.Bridges

namespace Fred.Hotstuff

variable {B I σ : Type}

/-! ## Machines that obey the interface -/

section
variable [DecidableEq I] (f : B → I) (id : I)

/-- The blocks up to the first with the identifier, and the rest. Where there is none, no block is
taken. -/
def commitThrough (blks : List B) : List B × List B :=
  match blks.dropWhile fun blk => f blk ≠ id with
  | [] => ([], blks)
  | blk :: rest => (blks.takeWhile (fun blk => f blk ≠ id) ++ [blk], rest)

theorem commitThrough_append (blks rest : List B) {blk : B} (hblk : f blk = id)
    (hne : ∀ x ∈ blks, f x ≠ id) :
    commitThrough f id (blks ++ blk :: rest) = (blks ++ [blk], rest) := by
  have hne' : ∀ x ∈ blks, decide (f x ≠ id) = true := fun x hx => decide_eq_true (hne x hx)
  unfold commitThrough
  rw [List.dropWhile_append_of_pos hne', List.takeWhile_append_of_pos hne']
  simp [hblk]

@[simp] theorem commitThrough_nil : commitThrough f id ([] : List B) = ([], []) := rfl

end

/-- A machine that obeys the interface: `propose` applies the block it returns, `exec_block` first drops
what is uncommitted and then applies its block, `rewind` goes back to what is committed, and
`log_commitment` commits up to the block with the identifier. Identifiers stand for block contents. -/
structure ObeysInterface [DecidableEq I] (M : VMType B I σ) where
  /-- The blocks applied for good. -/
  settled : σ → List B
  /-- The blocks applied speculatively on top of them. -/
  speculated : σ → List B
  nonemptyBlockId_inj : Function.Injective M.nonemptyBlockId
  settled_initial : settled (M.initClean M.fresh) = []
  speculated_initial : speculated (M.initClean M.fresh) = []
  settled_propose : ∀ s, settled (M.propose s).2 = settled s
  speculated_propose : ∀ s, speculated (M.propose s).2 = speculated s ++ (M.propose s).1.toList
  settled_execBlock : ∀ blk s, settled (M.execBlock blk s) = settled s ++ [blk]
  speculated_execBlock : ∀ blk s, speculated (M.execBlock blk s) = []
  settled_rewind : ∀ s, settled (M.rewindToLastCommit s) = settled s
  speculated_rewind : ∀ s, speculated (M.rewindToLastCommit s) = []
  settled_logCommitment : ∀ id s, settled (M.logCommitment id s) =
    settled s ++ (commitThrough M.nonemptyBlockId id (speculated s)).1
  speculated_logCommitment : ∀ id s, speculated (M.logCommitment id s) =
    (commitThrough M.nonemptyBlockId id (speculated s)).2

namespace ObeysInterface

variable [DecidableEq I] {M : VMType B I σ} (N : ObeysInterface M)

/-- Settled and speculated blocks once the blocks to validate have been executed. -/
def executed (c : VMControlInterface B I σ) : List B × List B :=
  match c.blocksToValidate.filterMap id with
  | [] => (N.settled c.vmInstance, N.speculated c.vmInstance)
  | blk :: blks => (N.settled c.vmInstance ++ blk :: blks, [])

/-- The speculated blocks that are committed but whose commitment the machine has not been told. -/
def undelivered (c : VMControlInterface B I σ) : List B :=
  match c.highestCommittedId with
  | none => []
  | some id => (commitThrough M.nonemptyBlockId id (N.executed c).2).1

theorem executed_of_validated {c : VMControlInterface B I σ} (h : c.blocksToValidate = []) :
    N.executed c = (N.settled c.vmInstance, N.speculated c.vmInstance) := by
  unfold executed
  rw [h]
  rfl

theorem executed_foldl (blks : List (Option B)) (vm : σ) :
    (N.settled (blks.foldl (VMControlInterface.validate M) vm),
      N.speculated (blks.foldl (VMControlInterface.validate M) vm)) =
    match blks.filterMap id with
    | [] => (N.settled vm, N.speculated vm)
    | blk :: blks => (N.settled vm ++ blk :: blks, []) := by
  induction blks generalizing vm with
  | nil => rfl
  | cons blk blks ih =>
      rw [List.foldl_cons, ih]
      cases blk with
      | none => rfl
      | some blk =>
          simp only [VMControlInterface.validate, List.filterMap_cons, id, N.settled_execBlock,
            N.speculated_execBlock]
          cases blks.filterMap (fun x => x) <;> simp

/-- **Interface and machine are in step.** `decided` are the decided blocks, of which `owed` are committed
but not delivered. On top of them the machine has applied what the map records, then what waits in the
buffer. -/
structure Tracks (decided owed recorded buffered : List B) (c : VMControlInterface B I σ) : Prop where
  settled_eq : (N.executed c).1 ++ owed = decided
  speculated_eq : (N.executed c).2 = owed ++ (recorded ++ buffered)
  delivers : ∀ id ∈ c.highestCommittedId,
    commitThrough M.nonemptyBlockId id (owed ++ (recorded ++ buffered)) = (owed, recorded ++ buffered)
  pending : c.highestCommittedId = none → owed = []
  buffer_eq : c.proposalBuffer.filterMap id = buffered

section
variable {N} {decided owed recorded buffered : List B} {c : VMControlInterface B I σ}

theorem Tracks.undelivered_eq (t : N.Tracks decided owed recorded buffered c) :
    N.undelivered c = owed := by
  unfold undelivered
  cases hid : c.highestCommittedId with
  | none => exact (t.pending hid).symm
  | some id =>
      dsimp only
      rw [t.speculated_eq, t.delivers id hid]

/-- Switching proposing on or off moves neither machine nor buffer. -/
theorem Tracks.setProposer (t : N.Tracks decided owed recorded buffered c) :
    N.Tracks decided owed recorded buffered c.setProposer :=
  ⟨t.settled_eq, t.speculated_eq, t.delivers, t.pending, t.buffer_eq⟩

theorem Tracks.stopProposals (t : N.Tracks decided owed recorded buffered c) :
    N.Tracks decided owed recorded buffered c.stopProposals :=
  ⟨t.settled_eq, t.speculated_eq, t.delivers, t.pending, t.buffer_eq⟩

/-- What waits for the thread is done: nothing is owed any more. -/
theorem Tracks.catchUp (t : N.Tracks decided owed recorded buffered c) :
    N.Tracks decided [] recorded buffered (c.catchUp M) := by
  have hfold : _ = N.executed c := N.executed_foldl c.blocksToValidate c.vmInstance
  have hsettled : N.settled (c.blocksToValidate.foldl (VMControlInterface.validate M) c.vmInstance) =
      (N.executed c).1 := congrArg Prod.fst hfold
  have hspeculated : N.speculated
      (c.blocksToValidate.foldl (VMControlInterface.validate M) c.vmInstance) = _ :=
    (congrArg Prod.snd hfold).trans t.speculated_eq
  have hvm : N.settled (c.catchUp M).vmInstance = decided ∧
      N.speculated (c.catchUp M).vmInstance = recorded ++ buffered := by
    unfold VMControlInterface.catchUp
    cases hid : c.highestCommittedId with
    | none =>
        obtain rfl := t.pending hid
        exact ⟨by rw [← t.settled_eq, ← hsettled, List.append_nil], hspeculated⟩
    | some id =>
        dsimp only
        rw [N.settled_logCommitment, N.speculated_logCommitment, hspeculated, t.delivers id hid,
          hsettled, t.settled_eq]
        exact ⟨rfl, rfl⟩
  refine ⟨?_, hvm.2, ?_, fun _ => rfl, t.buffer_eq⟩
  · exact (List.append_nil _).trans hvm.1
  · intro id hid
    cases hid

/-- The machine speculates on one more block if it is asked to. -/
theorem Tracks.makeProposal (t : N.Tracks decided [] recorded buffered c)
    (hcaught : c.blocksToValidate = [] ∧ c.highestCommittedId = none) :
    ∃ buffered', N.Tracks decided [] recorded buffered' (c.makeProposal M) ∧
      (c.additionalProposalRequests = 0 → buffered' = buffered) := by
  have hsettled := t.settled_eq
  have hspeculated := t.speculated_eq
  rw [N.executed_of_validated hcaught.1] at hsettled hspeculated
  have hexecuted := N.executed_of_validated
    ((VMControlInterface.blocksToValidate_makeProposal M c).trans hcaught.1)
  unfold VMControlInterface.makeProposal at hexecuted ⊢
  by_cases hrequests : c.additionalProposalRequests > 0
  · rw [dif_pos hrequests] at hexecuted ⊢
    refine ⟨buffered ++ (M.propose c.vmInstance).1.toList, ⟨?_, ?_, ?_, fun _ => rfl, ?_⟩, ?_⟩
    · rw [hexecuted]
      exact (congrArg (· ++ []) (N.settled_propose _)).trans hsettled
    · rw [hexecuted]
      refine (N.speculated_propose _).trans ?_
      rw [show N.speculated c.vmInstance = _ from hspeculated]
      simp
    · intro id hid
      rw [hcaught.2] at hid
      cases hid
    · rw [List.filterMap_append, t.buffer_eq]
      cases (M.propose c.vmInstance).1 <;> rfl
    · intro h
      omega
  · rw [dif_neg hrequests]
    exact ⟨buffered, t, fun _ => rfl⟩

/-- **Step lemma for a pass of the thread.** -/
theorem Tracks.round (t : N.Tracks decided owed recorded buffered c) :
    ∃ buffered', N.Tracks decided [] recorded buffered' (c.round M) ∧
      (c.additionalProposalRequests = 0 → buffered' = buffered) :=
  t.catchUp.makeProposal ⟨rfl, rfl⟩

/-- **Run lemma for passes of the thread.** -/
theorem Tracks.rounds (n : ℕ) (t : N.Tracks decided owed recorded buffered c) :
    ∃ owed' buffered', N.Tracks decided owed' recorded buffered' (c.rounds M n) ∧
      (0 < n → owed' = []) := by
  induction n with
  | zero => exact ⟨owed, buffered, t, fun h => absurd h (Nat.lt_irrefl 0)⟩
  | succ n ih =>
      obtain ⟨owed', buffered', t', -⟩ := ih
      obtain ⟨buffered'', t'', -⟩ := t'.round
      rw [VMControlInterface.rounds_succ]
      exact ⟨[], buffered'', t'', fun _ => rfl⟩

/-- The first of the buffer, if it is a block, is now recorded rather than buffered. -/
theorem Tracks.takeProposal (t : N.Tracks decided owed recorded buffered c)
    (hp : c.isProposer = true) :
    ∃ buffered', N.Tracks decided owed (recorded ++ (c.takeProposal hp).1.toList) buffered'
      (c.takeProposal hp).2 := by
  have hbuffer : (c.takeProposal hp).1.toList ++ c.proposalBuffer.tail.filterMap id = buffered := by
    rw [← t.buffer_eq]
    unfold VMControlInterface.takeProposal
    cases c.proposalBuffer with
    | nil => rfl
    | cons x xs => cases x <;> rfl
  have hlist : recorded ++ (c.takeProposal hp).1.toList ++ c.proposalBuffer.tail.filterMap id =
      recorded ++ buffered := by rw [List.append_assoc, hbuffer]
  refine ⟨c.proposalBuffer.tail.filterMap id, t.settled_eq, ?_, ?_, t.pending, rfl⟩
  · rw [hlist]
    exact t.speculated_eq
  · rw [hlist]
    exact t.delivers

/-- **Step lemma for `get_proposal`.** -/
theorem Tracks.getProposal (t : N.Tracks decided owed recorded buffered c) (extra : ℕ) :
    ∃ owed' buffered', N.Tracks decided owed' (recorded ++ (c.getProposal M extra).1.toList) buffered'
      (c.getProposal M extra).2 := by
  unfold VMControlInterface.getProposal
  by_cases hp : c.isProposer = true
  · rw [dif_pos hp]
    by_cases hempty : c.proposalBuffer.isEmpty = true
    · rw [if_pos hempty]
      have task : N.Tracks decided owed recorded buffered (c.askProposals hp) :=
        ⟨t.settled_eq, t.speculated_eq, t.delivers, t.pending, t.buffer_eq⟩
      by_cases htarget : c.proposalBufferTarget = 0
      · rw [if_pos htarget]
        exact ⟨owed, buffered, by simpa using task⟩
      · rw [if_neg htarget]
        obtain ⟨owed', buffered', t', -⟩ := task.rounds (extra + 1)
        exact ⟨owed', t'.takeProposal _⟩
    · rw [if_neg hempty]
      exact ⟨owed, t.takeProposal hp⟩
  · rw [dif_neg hp]
    exact ⟨owed, buffered, by simpa using t⟩

/-- A submitted block is executed on what is decided. A null block is not executed, so nothing may be
applied on top of what is committed then. -/
theorem Tracks.submitBlockForExec (t : N.Tracks decided owed [] buffered c) (blk : Option B)
    (hnull : blk = none → buffered = []) (hblock : blk ≠ none → owed = []) :
    N.Tracks (decided ++ blk.toList) owed [] [] (c.submitBlockForExec blk) := by
  have hbuffer : (c.submitBlockForExec blk).proposalBuffer.filterMap id = [] := rfl
  cases blk with
  | none =>
      obtain rfl := hnull rfl
      have hexecuted : N.executed (c.submitBlockForExec none) = N.executed c := by
        simp [executed, VMControlInterface.submitBlockForExec,
          VMControlInterface.clearProposalSettings]
      refine ⟨?_, ?_, t.delivers, t.pending, hbuffer⟩
      · rw [hexecuted, t.settled_eq]
        exact (List.append_nil _).symm
      · rw [hexecuted]
        exact t.speculated_eq
  | some blk =>
      obtain rfl := hblock (by simp)
      have hexecuted : N.executed (c.submitBlockForExec (some blk)) =
          ((N.executed c).1 ++ [blk], []) := by
        simp only [executed, VMControlInterface.submitBlockForExec,
          VMControlInterface.clearProposalSettings, List.filterMap_append]
        cases c.blocksToValidate.filterMap id <;> simp
      refine ⟨?_, ?_, fun id _ => rfl, fun _ => rfl, hbuffer⟩
      · rw [hexecuted, ← t.settled_eq]
        simp
      · rw [hexecuted]
        rfl

/-- The rewind drops all speculation, and the proposals that are left are cleared. -/
theorem Tracks.finishWorkAndForceRewind (t : N.Tracks decided owed recorded buffered c)
    (blk : Option B) :
    N.Tracks (decided ++ blk.toList) [] [] []
      ((c.finishWorkAndForceRewind M).submitBlockForExec blk) := by
  obtain ⟨owed', buffered', t', howed⟩ := t.rounds (c.additionalProposalRequests + 1)
  obtain rfl := howed (Nat.succ_pos _)
  obtain ⟨hblocks, hcommitted, -⟩ := VMControlInterface.round_spec M
    (c.rounds M c.additionalProposalRequests)
  rw [← VMControlInterface.rounds_succ] at hblocks hcommitted
  have hsettled := t'.settled_eq
  rw [N.executed_of_validated hblocks] at hsettled
  have hrewound : N.Tracks decided [] [] [] (c.finishWorkAndForceRewind M).clearProposalSettings := by
    have hexecuted : N.executed (c.finishWorkAndForceRewind M).clearProposalSettings =
        (N.settled (M.rewindToLastCommit (c.waitForAsyncTask M).vmInstance),
          N.speculated (M.rewindToLastCommit (c.waitForAsyncTask M).vmInstance)) :=
      N.executed_of_validated hblocks
    refine ⟨?_, ?_, fun id _ => rfl, fun _ => rfl, rfl⟩
    · rw [hexecuted, N.settled_rewind]
      exact hsettled
    · rw [hexecuted, N.speculated_rewind]
      rfl
  exact hrewound.submitBlockForExec blk (fun _ => rfl) (fun _ => rfl)

/-- A commitment of the first recorded block. -/
theorem Tracks.logCommitment {blk : B}
    (t : N.Tracks decided owed (blk :: recorded) buffered c)
    (hfresh : ∀ blk' ∈ owed, M.nonemptyBlockId blk' ≠ M.nonemptyBlockId blk) :
    N.Tracks (decided ++ [blk]) (owed ++ [blk]) recorded buffered
      (c.logCommitment (some (M.nonemptyBlockId blk))) := by
  have hlist : owed ++ [blk] ++ (recorded ++ buffered) = owed ++ (blk :: recorded ++ buffered) := by
    simp
  refine ⟨?_, ?_, ?_, ?_, t.buffer_eq⟩
  · rw [← t.settled_eq, List.append_assoc]
    rfl
  · rw [hlist]
    exact t.speculated_eq
  · intro id hid
    obtain rfl := Option.some.inj hid
    rw [hlist]
    exact commitThrough_append _ _ owed (recorded ++ buffered) rfl hfresh
  · intro h
    cases h

end

end ObeysInterface

end Fred.Hotstuff
