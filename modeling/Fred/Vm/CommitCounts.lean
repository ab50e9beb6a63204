/-
# Fred.Vm.CommitCounts -- what a counting machine makes of commitments

A `CountingVM` behind its thread, with two counts beside it: how many identifiers of blocks have been
logged, which is how many non-empty blocks are committed, and how many of these up to the last commitment
the machine was told of. The machine should count the latter (`Counts`). It does not look at the
commitment it is told, and `exec_block` goes on from whatever was proposed before, so a section keeps the
counts just when it tells the machine of no commitment and executes at most one block, on a machine at
zero (`counts_iff`).

A call on a `HotstuffVMBridge` is a few sections, one after the other (`call_sections`).
-/
import Fred.Vm.ControlThread
import Fred.Vm.Bridges

namespace Fred.Hotstuff

open Fred.Transition

/-! ## Calls on a bridge as sections -/

namespace VMControlInterface

variable {B I σ : Type} {M : VMType B I σ}

/-- A pass that is asked for a proposal leaves one in the buffer, and no pass takes one out. -/
theorem proposalBuffer_round (c : VMControlInterface B I σ)
    (h : c.proposalBuffer ≠ [] ∨ 0 < c.additionalProposalRequests) :
    (c.round M).proposalBuffer ≠ [] := by
  unfold round makeProposal
  split
  · simp
  · rename_i hzero
    obtain hbuffer | hrequests := h
    · exact hbuffer
    · exact absurd hrequests hzero

theorem proposalBuffer_rounds (n : ℕ) (c : VMControlInterface B I σ)
    (h : c.proposalBuffer ≠ [] ∨ 0 < c.additionalProposalRequests) :
    (c.rounds M (n + 1)).proposalBuffer ≠ [] := by
  induction n with
  | zero => exact proposalBuffer_round c h
  | succ n ih =>
      rw [rounds_succ]
      exact proposalBuffer_round _ (Or.inl ih)

/-- Sections one after the other. -/
def sections (M : VMType B I σ) (acts : List (ThreadAct B I)) (c : VMControlInterface B I σ) :
    VMControlInterface B I σ :=
  acts.foldl (fun c a => ControlThread.sectionOf M a c) c

theorem sections_append (acts acts' : List (ThreadAct B I)) (c : VMControlInterface B I σ) :
    sections M (acts ++ acts') c = sections M acts' (sections M acts c) :=
  List.foldl_append

theorem sections_rounds (n : ℕ) (c : VMControlInterface B I σ) :
    sections M (List.replicate n .run) c = c.rounds M n := by
  induction n generalizing c with
  | zero => rfl
  | succ n ih => exact ih (c.round M)

/-- The identifier a section logs. -/
def loggedBy : ThreadAct B I → Option I
  | .logCommitment blockId => blockId
  | _ => none

theorem loggedBy_rounds (n : ℕ) :
    (List.replicate n (ThreadAct.run : ThreadAct B I)).filterMap loggedBy = [] := by
  simp [loggedBy]

/-- `get_proposal` is its first section and, where it waits, passes of the thread and its second. -/
theorem getProposal_sections (extra : ℕ) (c : VMControlInterface B I σ) :
    ∃ acts, (c.getProposal M extra).2 = sections M acts c ∧ acts.filterMap loggedBy = [] := by
  unfold getProposal
  split
  · rename_i hp
    split
    · rename_i hempty
      have hbegin : ControlThread.beginGetProposal c = c.askProposals hp := by
        unfold ControlThread.beginGetProposal
        rw [dif_pos hp, if_pos hempty]
      split
      · exact ⟨[.getProposal], hbegin.symm, rfl⟩
      · -- it waits: with the request it has made, a pass of the thread fills the buffer
        rename_i htarget
        have hasked : 0 < (c.askProposals hp).additionalProposalRequests := by
          unfold askProposals
          dsimp only
          split <;> omega
        have hfull := proposalBuffer_rounds (M := M) extra (c.askProposals hp) (Or.inr hasked)
        refine ⟨.getProposal :: List.replicate (extra + 1) .run ++ [.wakeGetProposal], ?_, ?_⟩
        · rw [sections_append]
          show _ = ControlThread.endGetProposal
            (sections M (List.replicate (extra + 1) .run) (ControlThread.beginGetProposal c))
          rw [sections_rounds, hbegin]
          unfold ControlThread.endGetProposal
          rw [dif_pos ((isProposer_rounds M (c.askProposals hp) (extra + 1)).trans hp),
            if_neg (by simpa using hfull)]
        · rw [List.filterMap_append, List.filterMap_cons_none rfl, loggedBy_rounds]
          rfl
    · rename_i hfull
      refine ⟨[.getProposal], ?_, rfl⟩
      show _ = ControlThread.beginGetProposal c
      unfold ControlThread.beginGetProposal
      rw [dif_pos hp, if_neg hfull]
  · exact ⟨[], rfl, rfl⟩

end VMControlInterface

namespace HotstuffVMBridge

open VMControlInterface

variable {B I σ : Type} [DecidableEq I] {M : VMType B I σ}

/-- **A call on the bridge is sections on its interface**, and logs an identifier only where it notifies
of the commitment of a block. -/
theorem call_sections {b b' : HotstuffVMBridge B I σ} {c : BridgeCall} (h : b.call M c = .ok b') :
    ∃ acts, b'.vmInterface = sections M acts b.vmInterface ∧
      ((∀ height, c ≠ .notifyVmOfCommitment height) → acts.filterMap loggedBy = []) := by
  cases c with
  | act a =>
      obtain rfl := Except.ok.inj h
      cases a with
      | round => exact ⟨[.run], rfl, fun _ => rfl⟩
      | putVmInProposerMode => exact ⟨[.setProposer], rfl, fun _ => rfl⟩
      | stopProposals => exact ⟨[.stopProposals], rfl, fun _ => rfl⟩
  | makeEmptyProposal height =>
      obtain rfl := Except.ok.inj h
      exact ⟨[], rfl, fun _ => rfl⟩
  | getAndApplyNextProposal extra height =>
      obtain rfl := Except.ok.inj h
      obtain ⟨acts, hacts, hlogged⟩ := b.vmInterface.getProposal_sections (M := M) extra
      refine ⟨acts, ?_, fun _ => hlogged⟩
      rw [← hacts]
      unfold getAndApplyNextProposal
      rcases b.vmInterface.getProposal M extra with ⟨_ | proposal, vmInterface⟩ <;> rfl
  | applyBlock height body =>
      obtain rfl := Except.ok.inj h
      unfold applyBlock
      dsimp only
      split
      · exact ⟨[.submitBlockForExec _], rfl, fun _ => rfl⟩
      · split
        · exact ⟨[], rfl, fun _ => rfl⟩
        · -- the thread catches up, the machine is rewound, and the block is submitted
          refine ⟨List.replicate (b.vmInterface.additionalProposalRequests + 1) .run ++
            [.rewindToLastCommit, .submitBlockForExec (M.tryVmParse body)], ?_, fun _ => ?_⟩
          · rw [sections_append, sections_rounds]
            rfl
          · rw [List.filterMap_append, loggedBy_rounds]
            rfl
  | notifyVmOfCommitment height =>
      obtain ⟨⟨committedBlockId, map⟩, -, rfl⟩ := exists_of_map_ok h
      exact ⟨[.logCommitment committedBlockId], rfl, fun hne => absurd rfl (hne height)⟩

end HotstuffVMBridge

/-! ## A counting machine and its commitments -/

/-- A `CountingVM` behind its thread, and how much of what is committed it has been told. -/
structure CountingRun where
  thread : ControlThread (List UInt8) (List UInt8) CountingVM
  /-- The identifiers of blocks logged so far: one for each non-empty block that is committed. -/
  committed : ℕ
  /-- How many of these up to the last commitment delivered to the machine. -/
  delivered : ℕ

namespace CountingRun

open CountingVM

abbrev Act := ThreadAct (List UInt8) (List UInt8)

/-- The machine. -/
def vm (s : CountingRun) : CountingVM := s.thread.vmInstance

/-- How many entries of the index are for non-empty blocks. -/
def nonemptyEntries (index : HotstuffLMDB) : ℕ :=
  (index.data.filter fun e => e.vmBlockId.length > 0).length

/-- After `init_clean`, or after `init_from_disk`, which delivers the commitment of each non-empty
block. -/
inductive Started : CountingRun → Prop
  | clean : Started ⟨.make (vmType.initClean vmType.fresh), 0, 0⟩
  | disk {index : HotstuffLMDB} {files : Hash → Option HotstuffBlockWire} {vm : CountingVM}
      (h : vmType.initFromDisk index files vmType.fresh = .ok vm) :
      Started ⟨.make vm, nonemptyEntries index, nonemptyEntries index⟩

def step (a : Act) (s : CountingRun) : Except String CountingRun :=
  (s.thread.step vmType a).map fun t =>
    { thread := t
      committed := match a with
        | .logCommitment (some _) => s.committed + 1
        | _ => s.committed
      delivered :=
        if s.thread.highestCommittedId.isSome ∧ t.highestCommittedId = none then s.committed
        else s.delivered }

def Allowed (s : CountingRun) (a : Act) : Prop := s.thread.Allowed a

/-- `get_last_committed_height` is the number of non-empty blocks up to the last commitment delivered. -/
def Counts (s : CountingRun) : Prop := s.vm.lastCommittedState.toNat = s.delivered

/-- What the section does: the counts are right after it, a rewind goes to the number of blocks up to the
last commitment delivered, and the execution of a block yields that number plus one. -/
structure StepCounts (s : CountingRun) (a : Act) (s' : CountingRun) : Prop where
  counts : Counts s'
  rewinds : a = .rewindToLastCommit → s'.vm.state.toNat = s.delivered
  executes : a = .run → s.thread.doneFlag = false → ∀ before blk after,
    s.thread.blocksToValidate = before ++ some blk :: after →
      ((before ++ [some blk]).foldl (VMControlInterface.validate vmType) s.vm).state.toNat =
        s.delivered + 1

/-- A pass finds no commitment in the buffer, and at most one block, then on a machine at zero. -/
def Untold (s : CountingRun) : Act → Prop
  | .run => s.thread.doneFlag = false → s.thread.highestCommittedId = none ∧
      (s.thread.blocksToValidate.filterMap id = [] ∨
        ∃ blk, s.thread.blocksToValidate.filterMap id = [blk] ∧ s.vm.state = 0)
  | _ => True

variable {s s' s₀ : CountingRun} {a : Act}

/-! ## What moves the counters -/

/-- An `exec_block` adds one, a null block nothing. -/
theorem foldl_validate (blks : List (Option (List UInt8))) (vm : CountingVM) :
    blks.foldl (VMControlInterface.validate vmType) vm =
      { vm with state := vm.state + UInt64.ofNat (blks.filterMap id).length } := by
  induction blks generalizing vm with
  | nil => simp
  | cons blk blks ih =>
      rw [List.foldl_cons, ih]
      cases blk with
      | none => rfl
      | some blk =>
          have hcons : (some blk :: blks).filterMap id = blk :: blks.filterMap id := rfl
          rw [hcons, List.length_cons, Nat.add_comm, UInt64.ofNat_add, ← UInt64.add_assoc]
          rfl

/-- **`last_committed_state` never moves.** -/
theorem lastCommittedState_step (h : step a s = .ok s') :
    s'.vm.lastCommittedState = s.vm.lastCommittedState := by
  obtain ⟨t, ht, rfl⟩ := exists_of_map_ok h
  show t.vmInstance.lastCommittedState = s.thread.vmInstance.lastCommittedState
  -- `log_commitment` of the machine, which a pass calls, only writes a log line
  have hcaught : (s.thread.catchUp vmType).vmInstance.lastCommittedState =
      s.thread.vmInstance.lastCommittedState := by
    unfold ControlThread.catchUp
    dsimp only
    rw [foldl_validate]
    split <;> rfl
  cases a with
  | run =>
      obtain rfl | rfl | rfl := s.thread.run_cases vmType ht
      · rfl
      · exact hcaught
      · exact hcaught
  | getProposal =>
      obtain rfl := Except.ok.inj ht
      exact congrArg _ s.thread.gets_getProposal.sameWork.vmInstance
  | wakeGetProposal =>
      obtain rfl := Except.ok.inj ht
      exact congrArg _ s.thread.gets_wakeGetProposal.sameWork.vmInstance
  | logCommitment blockId =>
      obtain rfl := Except.ok.inj ht
      cases blockId <;> rfl
  | setProposer =>
      obtain rfl := Except.ok.inj ht
      rfl
  | submitBlockForExec submission =>
      obtain rfl := Except.ok.inj ht
      rfl
  | stopProposals =>
      obtain rfl := Except.ok.inj ht
      rfl
  | endAsyncThread =>
      obtain rfl := Except.ok.inj ht
      rfl
  | rewindToLastCommit =>
      obtain rfl := Except.ok.inj ht
      rfl

/-- A pass delivers the commitment in the buffer. -/
theorem highestCommittedId_run {t : ControlThread (List UInt8) (List UInt8) CountingVM}
    (hdone : s.thread.doneFlag = false) (hsome : s.thread.highestCommittedId.isSome = true)
    (h : s.thread.run vmType = .ok t) : t.highestCommittedId = none := by
  unfold ControlThread.run at h
  rw [if_neg (by simp [ControlThread.existsWorkToDo, hdone, hsome])] at h
  dsimp only at h
  split at h
  · split at h
    · cases h
    · obtain rfl := Except.ok.inj h
      rfl
  · obtain rfl := Except.ok.inj h
    rfl

/-- Other sections leave it there, or replace it. -/
theorem highestCommittedId_step (h : step a s = .ok s') (ha : a ≠ .run) :
    s'.thread.highestCommittedId = s.thread.highestCommittedId ∨
      ∃ id, a = .logCommitment (some id) ∧ s'.thread.highestCommittedId = some id := by
  obtain ⟨t, ht, rfl⟩ := exists_of_map_ok h
  cases a with
  | run => exact absurd rfl ha
  | logCommitment blockId =>
      obtain rfl := Except.ok.inj ht
      cases blockId with
      | none => exact Or.inl rfl
      | some id => exact Or.inr ⟨id, rfl, rfl⟩
  | getProposal =>
      obtain rfl := Except.ok.inj ht
      exact Or.inl s.thread.gets_getProposal.sameWork.highestCommittedId
  | wakeGetProposal =>
      obtain rfl := Except.ok.inj ht
      exact Or.inl s.thread.gets_wakeGetProposal.sameWork.highestCommittedId
  | setProposer =>
      obtain rfl := Except.ok.inj ht
      exact Or.inl rfl
  | submitBlockForExec submission =>
      obtain rfl := Except.ok.inj ht
      exact Or.inl rfl
  | stopProposals =>
      obtain rfl := Except.ok.inj ht
      exact Or.inl rfl
  | endAsyncThread =>
      obtain rfl := Except.ok.inj ht
      exact Or.inl rfl
  | rewindToLastCommit =>
      obtain rfl := Except.ok.inj ht
      exact Or.inl rfl

/-! ## When the counts are right -/

/-- The machine has been told of nothing, and what waits in the buffer counts as committed. -/
structure Quiet (s : CountingRun) : Prop where
  lastCommittedState : s.vm.lastCommittedState = 0
  delivered : s.delivered = 0
  committed : s.thread.highestCommittedId.isSome = true → 0 < s.committed

/-- An index without non-empty blocks leaves the machine as it was constructed. -/
theorem replay_of_empty {files : Hash → Option HotstuffBlockWire} {data : List IndexEntry}
    (hempty : (data.filter fun e => e.vmBlockId.length > 0).length = 0) (vm : CountingVM) :
    replay files data vm = .ok vm := by
  induction data with
  | nil => rfl
  | cons e es ih =>
      have hnone := List.length_eq_zero_iff.mp hempty
      obtain ⟨he, hes⟩ := List.forall_mem_cons.mp (List.filter_eq_nil_iff.mp hnone)
      have hzero : ¬ e.vmBlockId.length > 0 := by simpa using he
      have hparse : parseId e.vmBlockId = .ok none := by
        unfold parseId
        rw [if_neg hzero]
      unfold replay
      rw [hparse]
      exact ih (List.length_eq_zero_iff.mpr (List.filter_eq_nil_iff.mpr hes))

theorem quiet_of_started (h : Started s) (hzero : s.delivered = 0) : Quiet s := by
  cases h with
  | clean => exact ⟨rfl, rfl, fun h => by cases h⟩
  | disk hinit =>
      have hvm := Except.ok.inj ((replay_of_empty hzero _).symm.trans hinit)
      refine ⟨?_, hzero, fun h => by cases h⟩
      show CountingVM.lastCommittedState _ = 0
      rw [← hvm]
      rfl

/-- A section that delivers no commitment leaves the number delivered. -/
theorem delivered_step (h : step a s = .ok s') (hquiet : Untold s a) :
    s'.delivered = s.delivered := by
  obtain ⟨t, ht, rfl⟩ := exists_of_map_ok h
  apply if_neg
  rintro ⟨hsome, hnone⟩
  by_cases ha : a = .run
  · subst ha
    cases hdone : s.thread.doneFlag with
    | false =>
        rw [(hquiet hdone).1] at hsome
        cases hsome
    | true =>
        -- the thread has ended and does nothing
        obtain rfl : s.thread = t := by
          have hrun : s.thread.run vmType = .ok s.thread := by
            unfold ControlThread.run
            rw [if_pos (by simp [hdone])]
          exact Except.ok.inj (hrun.symm.trans ht)
        rw [hnone] at hsome
        cases hsome
  · obtain heq | ⟨id, -, heq⟩ := highestCommittedId_step h ha
    · replace heq : t.highestCommittedId = s.thread.highestCommittedId := heq
      rw [← heq, hnone] at hsome
      cases hsome
    · replace heq : t.highestCommittedId = some id := heq
      rw [hnone] at heq
      cases heq

/-- **Step lemma.** -/
theorem Quiet.step (Q : Quiet s) (h : step a s = .ok s') (hquiet : Untold s a) : Quiet s' where
  lastCommittedState := (lastCommittedState_step h).trans Q.lastCommittedState
  delivered := (delivered_step h hquiet).trans Q.delivered
  committed := by
    intro hsome
    obtain ⟨t, ht, rfl⟩ := exists_of_map_ok h
    by_cases ha : a = .run
    · subst ha
      obtain rfl | rfl | rfl := s.thread.run_cases vmType ht
      · exact Q.committed hsome
      · cases hsome
      · cases hsome
    · obtain heq | ⟨id, rfl, -⟩ := highestCommittedId_step h ha
      · replace heq : t.highestCommittedId = s.thread.highestCommittedId := heq
        have hpos := Q.committed (heq ▸ hsome)
        dsimp only
        split <;> omega
      · exact Nat.succ_pos _

/-- **Run lemma.** -/
theorem quiet_of_reach (hstart : Started s₀) (hzero : s₀.delivered = 0)
    (h : Reach step (fun s a => Allowed s a ∧ Untold s a) s₀ s) : Quiet s :=
  h.invariant (quiet_of_started hstart hzero) fun _ _ _ Q ha hstep => Q.step hstep ha.2

/-- The blocks up to one that waits. -/
theorem state_foldl_before {before : List (Option (List UInt8))} {blk : List UInt8}
    (vm : CountingVM) :
    ((before ++ [some blk]).foldl (VMControlInterface.validate vmType) vm).state =
      vm.state + UInt64.ofNat ((before.filterMap id).length + 1) := by
  rw [foldl_validate, List.filterMap_append, List.length_append]
  rfl

/-- Executing right means: one block at most, on a machine at zero. -/
theorem executes_iff {blks : List (Option (List UInt8))} {vm : CountingVM} :
    (∀ before blk after, blks = before ++ some blk :: after →
      ((before ++ [some blk]).foldl (VMControlInterface.validate vmType) vm).state.toNat = 0 + 1) ↔
    blks.filterMap id = [] ∨ ∃ blk, blks.filterMap id = [blk] ∧ vm.state = 0 := by
  constructor
  · intro h
    cases hblks : blks.filterMap id with
    | nil => exact Or.inl rfl
    | cons blk rest =>
        obtain ⟨before, x, after, rfl, hbefore, hx, hafter⟩ := List.filterMap_eq_cons_iff.mp hblks
        obtain rfl : x = some blk := hx
        have hnone : before.filterMap id = [] := List.filterMap_eq_nil_iff.mpr hbefore
        -- the first block: the machine was at zero
        have hfirst := h before blk after rfl
        rw [state_foldl_before, hnone] at hfirst
        have hone : vm.state + 1 = 0 + 1 := UInt64.toNat_inj.mp hfirst
        have hstate : vm.state = 0 := (UInt64.add_left_inj 1).mp hone
        cases rest with
        | nil => exact Or.inr ⟨blk, rfl, hstate⟩
        | cons blk' rest =>
            -- a second one would find it at one
            obtain ⟨before', x, after', rfl, hbefore', hx, -⟩ := List.filterMap_eq_cons_iff.mp hafter
            obtain rfl : x = some blk' := hx
            have hsecond := h (before ++ some blk :: before') blk' after' (by simp)
            have hnone' : before'.filterMap id = [] := List.filterMap_eq_nil_iff.mpr hbefore'
            have hcount : (before ++ some blk :: before').filterMap id = [blk] := by
              rw [List.filterMap_append, hnone]
              show blk :: before'.filterMap id = [blk]
              rw [hnone']
            rw [state_foldl_before, hcount, hstate] at hsecond
            have hlength : ([blk] : List (List UInt8)).length = 1 := rfl
            rw [hlength] at hsecond
            exact absurd hsecond (by decide)
  · rintro (hnone | ⟨blk, hone, hstate⟩) before blk' after rfl
    · rw [List.filterMap_append] at hnone
      simp at hnone
    · have hbefore : before.filterMap id = [] := by
        rw [List.filterMap_append] at hone
        have hlength := congrArg List.length hone
        rw [List.length_append] at hlength
        have hcons : ((some blk' :: after).filterMap id).length = (after.filterMap id).length + 1 := rfl
        have hsingle : [blk].length = 1 := rfl
        exact List.length_eq_zero_iff.mp (by omega)
      rw [state_foldl_before, hbefore, hstate]
      rfl

/-- **When a counting machine counts.** As long as the machine was told of no commitment and executed no
more than one block, and that at zero, its counts are right; and the next section keeps them right, rewinds
and executes as it should, just when it is no different. -/
theorem counts_iff (hstart : Started s₀) (hzero : s₀.delivered = 0)
    (h : Reach step (fun s a => Allowed s a ∧ Untold s a) s₀ s) :
    Counts s ∧ ∀ a s', Allowed s a → step a s = .ok s' → (StepCounts s a s' ↔ Untold s a) := by
  have Q := quiet_of_reach hstart hzero h
  have hcounts : Counts s := by
    unfold Counts
    rw [Q.lastCommittedState, Q.delivered]
    rfl
  refine ⟨hcounts, fun a s' _ hstep => ⟨fun C => ?_, fun hquiet => ?_⟩⟩
  · by_cases ha : a = .run
    · subst ha
      intro hdone
      obtain ⟨t, ht, rfl⟩ := exists_of_map_ok hstep
      have hnone : s.thread.highestCommittedId = none := by
        by_contra hsome
        -- the commitment is delivered, and the machine does not count it
        replace hsome := Option.isSome_iff_ne_none.mpr hsome
        have hpos := Q.committed hsome
        have hdelivered : Counts _ := C.counts
        unfold Counts at hdelivered
        rw [lastCommittedState_step hstep, Q.lastCommittedState] at hdelivered
        dsimp only at hdelivered
        rw [if_pos ⟨hsome, highestCommittedId_run hdone hsome ht⟩] at hdelivered
        rw [← hdelivered] at hpos
        exact absurd hpos (Nat.lt_irrefl 0)
      refine ⟨hnone, ?_⟩
      have hexec := C.executes rfl hdone
      rw [Q.delivered] at hexec
      exact executes_iff.mp hexec
    · cases a <;> first | exact absurd rfl ha | exact trivial
  · have Q' := Q.step hstep hquiet
    refine ⟨?_, fun ha => ?_, fun ha hdone => ?_⟩
    · unfold Counts
      rw [Q'.lastCommittedState, Q'.delivered]
      rfl
    · subst ha
      obtain ⟨t, ht, rfl⟩ := exists_of_map_ok hstep
      obtain rfl := Except.ok.inj ht
      show s.vm.lastCommittedState.toNat = s.delivered
      rw [Q.lastCommittedState, Q.delivered]
      rfl
    · subst ha
      rw [Q.delivered]
      exact executes_iff.mpr (hquiet hdone).2

/-! ### One block is decided -/

/-- A block is submitted for execution, and its commitment is logged. -/
def decidedOne : List Act := [.submitBlockForExec (some [7]), .logCommitment (some [7]), .run]

/-- The calls on a bridge for that. -/
def decideOne : List BridgeCall :=
  [.applyBlock 1 (Opaque.encode [7]), .notifyVmOfCommitment 1, .act .round]

/-- Before the machine is told, its counts are right. -/
theorem counts_iff_submitted : ∃ s, s.thread.blocksToValidate = [some [7]] ∧ Counts s ∧
    ∀ a s', Allowed s a → step a s = .ok s' → (StepCounts s a s' ↔ Untold s a) := by
  have hreach : Reach step (fun s a => Allowed s a ∧ Untold s a)
      ⟨.make (vmType.initClean vmType.fresh), 0, 0⟩
      ⟨(ControlThread.make (vmType.initClean vmType.fresh)).submitBlockForExec (some [7]), 0, 0⟩ :=
    (Reach.refl _).tail (i := .submitBlockForExec (some [7])) ⟨trivial, trivial⟩ rfl
  exact ⟨_, rfl, counts_iff .clean rfl hreach⟩

/-- The one committed block is not counted: the machine behind a bridge has no committed state then. -/
theorem commitment_not_counted :
    (runList (HotstuffVMBridge.call vmType) decideOne (.initClean vmType)).map
      (fun b => b.vmInterface.vmInstance) = .ok ⟨1, 0⟩ ∧
    ¬ ∀ s, Reach step Allowed ⟨.make (vmType.initClean vmType.fresh), 0, 0⟩ s → Counts s := by
  have hrun : (runListIf step (fun s a => decide (s.thread.Allowed a)) decidedOne
      ⟨.make (vmType.initClean vmType.fresh), 0, 0⟩).map (fun s => (s.vm, s.delivered)) =
        some (⟨1, 0⟩, 1) := by
    decide +kernel
  obtain ⟨s, hs, hfields⟩ := Option.map_eq_some_iff.mp hrun
  obtain ⟨hvm, hdelivered⟩ := Prod.mk.inj hfields
  refine ⟨by decide +kernel, fun hall => ?_⟩
  have hreach : Reach step Allowed ⟨.make (vmType.initClean vmType.fresh), 0, 0⟩ s :=
    Reach.of_runListIf (fun s a h => of_decide_eq_true (p := s.thread.Allowed a) h) hs
  have hcounts := hall s hreach
  unfold Counts at hcounts
  rw [hvm, hdelivered] at hcounts
  exact absurd hcounts (by decide)

end CountingRun

end Fred.Hotstuff
