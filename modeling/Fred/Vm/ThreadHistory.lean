/-
# Fred.Vm.ThreadHistory -- what the machine sees, and in which order

The sections of `Vm/ControlThread` over a machine that writes its calls down, next to what was handed in:
the blocks submitted, the commitments logged, and the proposals given out. `InOrder` says how the two
records go together, and every section keeps it.
-/
import Fred.Vm.ControlThread
import Fred.Vm.DecidedBlocks

namespace Fred.Hotstuff

open Fred.Transition

variable {B I σ : Type}

/-- A block identifier passed to `log_commitment`. -/
structure LoggedCommitment (B I : Type) where
  blockId : I
  /-- The blocks submitted before it. -/
  after : List (Option B)
  /-- It was still in the buffer when the next one was logged. -/
  overwritten : Bool

/-- A proposal that `get_proposal` has returned. -/
structure ReturnedProposal (B I : Type) where
  proposal : Option B
  /-- The calls the machine had got before it was asked for this proposal. -/
  madeAfter : List (VmCall B I)
  /-- The blocks submitted before the proposal was returned. -/
  submitted : List (Option B)

/-- The thread, what was handed in and what was given out. -/
structure ThreadHistory (B I σ : Type) where
  thread : ControlThread B I (σ × List (VmCall B I))
  /-- The arguments of `submit_block_for_exec`. -/
  submitted : List (Option B)
  logged : List (LoggedCommitment B I)
  /-- For each proposal in the buffer, the calls the machine had got before it was asked for it. -/
  madeAfter : List (List (VmCall B I))
  returned : List (ReturnedProposal B I)

/-- The last one logged is replaced. -/
def overwriteLast : List (LoggedCommitment B I) → List (LoggedCommitment B I)
  | [] => []
  | [l] => [{ l with overwritten := true }]
  | l :: l' :: ls => l :: overwriteLast (l' :: ls)

/-- The commitments among the calls on a machine, each with the calls before it. -/
def deliveries (before : List (VmCall B I)) : List (VmCall B I) → List (I × List (VmCall B I))
  | [] => []
  | .logCommitment id :: calls =>
    (id, before) :: deliveries (before ++ [.logCommitment id]) calls
  | c :: calls => deliveries (before ++ [c]) calls

namespace ThreadHistory

/-- The calls the machine has got. -/
def calls (s : ThreadHistory B I σ) : List (VmCall B I) := s.thread.vmInstance.2

/-- The interface was just made over a machine that has got no calls. -/
def make (vm : σ) : ThreadHistory B I σ := ⟨.make (vm, []), [], [], [], []⟩

/-- A section of `get_proposal`. -/
def got (s : ThreadHistory B I σ) :
    GotProposal B × ControlThread B I (σ × List (VmCall B I)) → ThreadHistory B I σ
  | (.proposal p, t) =>
    { s with
      thread := t
      madeAfter := s.madeAfter.tail
      returned := s.returned ++ [⟨p, s.madeAfter.headD [], s.submitted⟩] }
  | (_, t) => { s with thread := t }

/-- A section after which the thread is as given. -/
def after (s : ThreadHistory B I σ) (t : ControlThread B I (σ × List (VmCall B I))) :
    ThreadAct B I → ThreadHistory B I σ
  | .getProposal => s.got s.thread.getProposal
  | .wakeGetProposal => s.got s.thread.wakeGetProposal
  | .submitBlockForExec submission =>
    { s with thread := t, submitted := s.submitted ++ [submission], madeAfter := [] }
  | .logCommitment (some id) =>
    { s with
      thread := t
      logged := (if s.thread.highestCommittedId.isSome then overwriteLast s.logged else s.logged) ++
        [⟨id, s.submitted, false⟩] }
  | .run =>
    { s with
      thread := t
      -- the request for a proposal is the last call of a pass
      madeAfter := if s.thread.proposalBuffer.length < t.proposalBuffer.length then
          s.madeAfter ++ [t.vmInstance.2.dropLast]
        else s.madeAfter }
  | _ => { s with thread := t }

variable (M : VMType B I σ)

def step (a : ThreadAct B I) (s : ThreadHistory B I σ) : Except String (ThreadHistory B I σ) :=
  (s.thread.step M.recorded a).map fun t => s.after t a

/-- Outside shutdown. -/
def Allowed (s : ThreadHistory B I σ) (a : ThreadAct B I) : Prop :=
  s.thread.Allowed a ∧ a ≠ .endAsyncThread

/-- The non-null ones. -/
def blocks (submissions : List (Option B)) : List (Option B) := (submissions.filterMap id).map some

/-- The executed blocks among the calls. -/
def executed (calls : List (VmCall B I)) : List (Option B) := calls.filterMap VmCall.executed

/-- A commitment was delivered as it was logged, and the blocks submitted before were executed. -/
def DeliveredAs (l : LoggedCommitment B I) (d : I × List (VmCall B I)) : Prop :=
  d.1 = l.blockId ∧ blocks l.after <+: executed d.2

/-- The machine had executed what was submitted when it was asked for the proposal. -/
def MadeOn (s : ThreadHistory B I σ) (before : List (VmCall B I)) (submissions : List (Option B)) :
    Prop :=
  before ++ [.propose] <+: s.calls ∧ executed before = blocks submissions

/-! ## Records of calls -/

theorem executed_append (calls calls' : List (VmCall B I)) :
    executed (calls ++ calls') = executed calls ++ executed calls' :=
  List.filterMap_append

theorem blocks_append (submissions submissions' : List (Option B)) :
    blocks (submissions ++ submissions') = blocks submissions ++ blocks submissions' := by
  simp only [blocks, List.filterMap_append, List.map_append]

theorem deliveries_append (before calls calls' : List (VmCall B I)) :
    deliveries before (calls ++ calls') =
      deliveries before calls ++ deliveries (before ++ calls) calls' := by
  induction calls generalizing before with
  | nil => simp [deliveries]
  | cons c calls ih => cases c <;> simp [deliveries, ih]

theorem deliveries_exec (before : List (VmCall B I)) (blks : List B) :
    deliveries before (blks.map fun blk => .exec (some blk)) = [] := by
  induction blks generalizing before with
  | nil => rfl
  | cons blk blks ih => exact ih _

theorem overwriteLast_concat (ls : List (LoggedCommitment B I)) (l : LoggedCommitment B I) :
    overwriteLast (ls ++ [l]) = ls ++ [{ l with overwritten := true }] := by
  induction ls with
  | nil => rfl
  | cons l' ls ih => cases ls <;> simp_all [overwriteLast]

/-- The commitments that were not replaced. -/
def kept (ls : List (LoggedCommitment B I)) : List (LoggedCommitment B I) :=
  ls.filter fun l => !l.overwritten

theorem kept_append (ls ls' : List (LoggedCommitment B I)) : kept (ls ++ ls') = kept ls ++ kept ls' :=
  List.filter_append ls ls'

/-- The calls of a pass on the blocks to validate and the commitment. -/
theorem calls_catchUp (t : ControlThread B I (σ × List (VmCall B I))) :
    (t.catchUp M.recorded).vmInstance.2 =
      t.vmInstance.2 ++ (t.blocksToValidate.filterMap id).map (fun blk => .exec (some blk)) ++
        t.highestCommittedId.toList.map VmCall.logCommitment := by
  rw [← foldl_validate_recorded M]
  unfold ControlThread.catchUp
  cases t.highestCommittedId with
  | none => simp
  | some id => rfl

/-! ## The order -/

/-- The commitment in the buffer is the last one logged, and the earlier ones that were not replaced
have been delivered. -/
structure Commitments (s : ThreadHistory B I σ) (earlier : List (LoggedCommitment B I)) : Prop where
  logged_eq : ∃ last, s.logged = earlier ++ last ∧
    last.map (fun l => (l.blockId, l.overwritten)) =
      s.thread.highestCommittedId.toList.map (·, false)
  delivered : List.Forall₂ DeliveredAs (kept earlier) (deliveries [] s.calls)

/-- **What was handed in and what the machine got go together.** -/
structure InOrder (s : ThreadHistory B I σ) : Prop where
  executed_eq : executed s.calls ++ blocks s.thread.blocksToValidate = blocks s.submitted
  after_prefix : ∀ l ∈ s.logged, blocks l.after <+: blocks s.submitted
  commitments : ∃ earlier, Commitments s earlier
  buffered : s.madeAfter.length = s.thread.proposalBuffer.length
  madeOn_buffered : ∀ m ∈ s.madeAfter, MadeOn s m s.submitted
  madeOn_returned : ∀ r ∈ s.returned, MadeOn s r.madeAfter r.submitted

variable {M} {s s' : ThreadHistory B I σ}

theorem MadeOn.mono {before : List (VmCall B I)} {submissions : List (Option B)}
    (h : MadeOn s before submissions) (hcalls : s.calls <+: s'.calls) :
    MadeOn s' before submissions :=
  ⟨h.1.trans hcalls, h.2⟩

/-- A proposal that was made or returned before stays so. -/
theorem InOrder.of_same (O : InOrder s) (hcalls : s.calls <+: s'.calls)
    (hexecuted : executed s'.calls = executed s.calls)
    (hdelivered : deliveries [] s'.calls = deliveries [] s.calls)
    (hblocks : s'.thread.blocksToValidate = s.thread.blocksToValidate)
    (hcommitted : s'.thread.highestCommittedId = s.thread.highestCommittedId)
    (hsubmitted : s'.submitted = s.submitted) (hlogged : s'.logged = s.logged)
    (hbuffered : s'.madeAfter.length = s'.thread.proposalBuffer.length)
    (hmade : ∀ m ∈ s'.madeAfter, MadeOn s' m s.submitted)
    (hreturned : ∀ r ∈ s'.returned, r ∈ s.returned ∨
      r.madeAfter ∈ s.madeAfter ∧ r.submitted = s.submitted) : InOrder s' where
  executed_eq := by
    rw [hexecuted, hblocks, hsubmitted]
    exact O.executed_eq
  after_prefix := by
    rw [hlogged, hsubmitted]
    exact O.after_prefix
  commitments := by
    obtain ⟨earlier, hearlier, hdone⟩ := O.commitments
    refine ⟨earlier, ?_, ?_⟩
    · rw [hlogged, hcommitted]
      exact hearlier
    · rw [hdelivered]
      exact hdone
  buffered := hbuffered
  madeOn_buffered := by
    rw [hsubmitted]
    exact hmade
  madeOn_returned := by
    intro r hr
    obtain hold | ⟨hm, hsub⟩ := hreturned r hr
    · exact (O.madeOn_returned r hold).mono hcalls
    · rw [hsub]
      exact (O.madeOn_buffered _ hm).mono hcalls

/-- **Step lemma for the sections of `get_proposal`.** -/
theorem InOrder.got (O : InOrder s) {x : GotProposal B × ControlThread B I (σ × List (VmCall B I))}
    (hx : s.thread.Gets x) : InOrder (s.got x) := by
  have hmade : ∀ m ∈ s.madeAfter, MadeOn s m s.submitted := O.madeOn_buffered
  cases hx with
  | refuses hsame hbuffer =>
      have hcalls : (s.got (.refused, _)).calls = s.calls := congrArg Prod.snd hsame.vmInstance
      apply O.of_same (hcalls ▸ List.prefix_refl _) (congrArg _ hcalls) (congrArg _ hcalls)
        hsame.blocksToValidate hsame.highestCommittedId rfl rfl
      · exact O.buffered.trans (congrArg List.length hbuffer).symm
      · exact fun m hm => (hmade m hm).mono (hcalls ▸ List.prefix_refl _)
      · exact fun r hr => Or.inl hr
  | waits hsame hbuffer =>
      have hcalls : (s.got (.waits, _)).calls = s.calls := congrArg Prod.snd hsame.vmInstance
      apply O.of_same (hcalls ▸ List.prefix_refl _) (congrArg _ hcalls) (congrArg _ hcalls)
        hsame.blocksToValidate hsame.highestCommittedId rfl rfl
      · exact O.buffered.trans (congrArg List.length hbuffer).symm
      · exact fun m hm => (hmade m hm).mono (hcalls ▸ List.prefix_refl _)
      · exact fun r hr => Or.inl hr
  | takes hsame hbuffer =>
      -- the proposal made first leaves the buffer, and what it was made on is what is returned
      rename_i p t'
      have hcalls : (s.got (.proposal p, t')).calls = s.calls := congrArg Prod.snd hsame.vmInstance
      have hlength : s.madeAfter.length = t'.proposalBuffer.length + 1 := by
        rw [O.buffered, hbuffer, List.length_cons]
      obtain ⟨m, ms, hms⟩ : ∃ m ms, s.madeAfter = m :: ms :=
        List.exists_cons_of_length_pos (by omega)
      apply O.of_same (hcalls ▸ List.prefix_refl _) (congrArg _ hcalls) (congrArg _ hcalls)
        hsame.blocksToValidate hsame.highestCommittedId rfl rfl
      · show s.madeAfter.tail.length = t'.proposalBuffer.length
        rw [List.length_tail]
        omega
      · intro m' hm'
        exact (hmade m' (List.mem_of_mem_tail hm')).mono (hcalls ▸ List.prefix_refl _)
      · intro r hr
        obtain hold | hnew := List.mem_append.mp hr
        · exact Or.inl hold
        · obtain rfl := List.mem_singleton.mp hnew
          refine Or.inr ⟨?_, rfl⟩
          show s.madeAfter.headD [] ∈ s.madeAfter
          rw [hms]
          exact List.mem_cons_self

/-- A section that only sets a flag or a bound. -/
theorem InOrder.set (O : InOrder s) {t : ControlThread B I (σ × List (VmCall B I))}
    (hsame : s.thread.SameWork t) (hbuffer : t.proposalBuffer = s.thread.proposalBuffer) :
    InOrder { s with thread := t } := by
  have hcalls : ({ s with thread := t } : ThreadHistory B I σ).calls = s.calls :=
    congrArg Prod.snd hsame.vmInstance
  apply O.of_same (hcalls ▸ List.prefix_refl _) (congrArg _ hcalls) (congrArg _ hcalls)
    hsame.blocksToValidate hsame.highestCommittedId rfl rfl
  · exact O.buffered.trans (congrArg List.length hbuffer).symm
  · exact fun m hm => (O.madeOn_buffered m hm).mono (hcalls ▸ List.prefix_refl _)
  · exact fun r hr => Or.inl hr

/-- A call that executes and delivers nothing is added to the record. -/
theorem InOrder.called (O : InOrder s) {t : ControlThread B I (σ × List (VmCall B I))}
    {c : VmCall B I} (hcalls : t.vmInstance.2 = s.calls ++ [c]) (hexecuted : executed [c] = [])
    (hdelivered : ∀ before, deliveries before [c] = [])
    (hblocks : t.blocksToValidate = s.thread.blocksToValidate)
    (hcommitted : t.highestCommittedId = s.thread.highestCommittedId)
    {made : List (List (VmCall B I))} (hbuffered : made.length = t.proposalBuffer.length)
    (hmade : ∀ m ∈ made, m ∈ s.madeAfter ∨
      m ++ [.propose] <+: s.calls ++ [c] ∧ executed m = blocks s.submitted) :
    InOrder { s with thread := t, madeAfter := made } := by
  have hprefix : s.calls <+: ({ s with thread := t, madeAfter := made } : ThreadHistory B I σ).calls := by
    rw [show ({ s with thread := t, madeAfter := made } : ThreadHistory B I σ).calls = _ from hcalls]
    exact List.prefix_append _ _
  apply O.of_same hprefix _ _ hblocks hcommitted rfl rfl hbuffered
  · intro m hm
    obtain hold | ⟨hm', hexec⟩ := hmade m hm
    · exact (O.madeOn_buffered m hold).mono hprefix
    · refine ⟨?_, hexec⟩
      rw [show ({ s with thread := t, madeAfter := made } : ThreadHistory B I σ).calls = _ from hcalls]
      exact hm'
  · exact fun r hr => Or.inl hr
  · show executed t.vmInstance.2 = executed s.calls
    rw [hcalls, executed_append, hexecuted, List.append_nil]
  · show deliveries [] t.vmInstance.2 = deliveries [] s.calls
    rw [hcalls, deliveries_append, hdelivered, List.append_nil]

/-- **Step lemma for `submit_block_for_exec`**: no proposal is left in the buffer. -/
theorem InOrder.submitBlockForExec (O : InOrder s) (submission : Option B) :
    InOrder (s.after (s.thread.submitBlockForExec submission) (.submitBlockForExec submission)) where
  executed_eq := by
    show executed s.calls ++ blocks (s.thread.blocksToValidate ++ [submission]) =
      blocks (s.submitted ++ [submission])
    rw [blocks_append, blocks_append, ← O.executed_eq, List.append_assoc]
  after_prefix := by
    intro l hl
    apply (O.after_prefix l hl).trans
    show blocks s.submitted <+: blocks (s.submitted ++ [submission])
    rw [blocks_append]
    exact List.prefix_append _ _
  commitments := by
    obtain ⟨earlier, C⟩ := O.commitments
    exact ⟨earlier, C.logged_eq, C.delivered⟩
  buffered := rfl
  madeOn_buffered := fun m hm => absurd hm List.not_mem_nil
  madeOn_returned := O.madeOn_returned

/-- The commitments before the one that is logged now, the replaced one marked. -/
theorem Commitments.overwrite {earlier : List (LoggedCommitment B I)} (C : Commitments s earlier) :
    kept (if s.thread.highestCommittedId.isSome then overwriteLast s.logged else s.logged) =
      kept earlier := by
  obtain ⟨last, hlogged, hlast⟩ := C.logged_eq
  cases hbuffer : s.thread.highestCommittedId with
  | none =>
      rw [hbuffer] at hlast
      obtain rfl : last = [] := List.map_eq_nil_iff.mp hlast
      rw [hlogged, List.append_nil]
      rfl
  | some id =>
      rw [hbuffer] at hlast
      obtain ⟨l, rfl, -⟩ := List.map_eq_singleton_iff.mp hlast
      rw [if_pos Option.isSome_some, hlogged, overwriteLast_concat, kept_append]
      simp [kept]

theorem mem_overwriteLast {ls : List (LoggedCommitment B I)} {l : LoggedCommitment B I}
    (h : l ∈ overwriteLast ls) : ∃ l' ∈ ls, l'.after = l.after := by
  induction ls using overwriteLast.induct with
  | case1 => exact absurd h List.not_mem_nil
  | case2 l' =>
      obtain rfl := List.mem_singleton.mp h
      exact ⟨l', List.mem_singleton_self l', rfl⟩
  | case3 l' l'' ls ih =>
      obtain rfl | hrest := List.mem_cons.mp h
      · exact ⟨l, List.mem_cons_self, rfl⟩
      · obtain ⟨m, hm, hafter⟩ := ih hrest
        exact ⟨m, List.mem_cons_of_mem _ hm, hafter⟩

/-- **Step lemma for `log_commitment`.** -/
theorem InOrder.logCommitment (O : InOrder s) (id : I) :
    InOrder (s.after (s.thread.logCommitment (some id)) (.logCommitment (some id))) where
  executed_eq := O.executed_eq
  after_prefix := by
    intro l hl
    obtain hold | hnew := List.mem_append.mp hl
    · split at hold
      · obtain ⟨l', hl', hafter⟩ := mem_overwriteLast hold
        rw [← hafter]
        exact O.after_prefix l' hl'
      · exact O.after_prefix l hold
    · obtain rfl := List.mem_singleton.mp hnew
      exact List.prefix_refl _
  commitments := by
    obtain ⟨earlier, C⟩ := O.commitments
    refine ⟨_, ⟨[⟨id, s.submitted, false⟩], rfl, rfl⟩, ?_⟩
    rw [C.overwrite]
    exact C.delivered
  buffered := O.buffered
  madeOn_buffered := O.madeOn_buffered
  madeOn_returned := O.madeOn_returned

theorem executed_commitments (ids : List I) :
    executed (ids.map (VmCall.logCommitment : I → VmCall B I)) = [] := by
  induction ids with
  | nil => rfl
  | cons id ids ih => exact ih

/-- **A pass executes what was submitted**, and then delivers the commitment in the buffer. -/
theorem InOrder.catchUp (O : InOrder s) :
    InOrder { s with thread := s.thread.catchUp M.recorded } := by
  have hcalls := calls_catchUp M s.thread
  have hexecuted : executed (s.calls ++
      (s.thread.blocksToValidate.filterMap id).map (fun blk => .exec (some blk))) =
        blocks s.submitted := by
    rw [← O.executed_eq, executed_append]
    exact congrArg _ (executed_exec _)
  have hprefix : s.calls <+: (s.thread.catchUp M.recorded).vmInstance.2 := by
    rw [hcalls, List.append_assoc]
    exact List.prefix_append _ _
  -- the calls only grow, so what the proposals were made on is as it was
  refine ⟨?_, O.after_prefix, ?_, O.buffered, fun m hm => (O.madeOn_buffered m hm).mono hprefix,
    fun r hr => (O.madeOn_returned r hr).mono hprefix⟩
  · show executed (s.thread.catchUp M.recorded).vmInstance.2 ++ blocks [] = _
    rw [hcalls, executed_append, executed_commitments, List.append_nil]
    exact (List.append_nil _).trans hexecuted
  · -- the commitment that was in the buffer is now delivered too
    obtain ⟨earlier, ⟨last, hlogged, hlast⟩, hdelivered⟩ := O.commitments
    refine ⟨s.logged, ⟨[], (List.append_nil _).symm, rfl⟩, ?_⟩
    show List.Forall₂ DeliveredAs (kept s.logged)
      (deliveries [] (s.thread.catchUp M.recorded).vmInstance.2)
    rw [hcalls, deliveries_append, deliveries_append, deliveries_exec, List.append_nil, hlogged,
      kept_append]
    apply List.rel_append hdelivered
    -- at most one logged commitment is in the buffer, the last one, and it was not replaced
    cases hbuffer : s.thread.highestCommittedId with
    | none =>
        rw [hbuffer] at hlast
        obtain rfl : last = [] := List.map_eq_nil_iff.mp hlast
        exact .nil
    | some id =>
        rw [hbuffer] at hlast
        obtain ⟨l, rfl, hl⟩ := List.map_eq_singleton_iff.mp hlast
        obtain ⟨hid, hkept⟩ := Prod.mk.inj hl
        have hafter := O.after_prefix l (by simp [hlogged])
        have hlist : kept [l] = [l] := by simp [kept, hkept]
        rw [hlist]
        refine .cons ⟨hid.symm, ?_⟩ .nil
        show blocks l.after <+: executed (s.calls ++ _)
        rw [hexecuted]
        exact hafter

/-- The proposal is made once everything submitted has been executed. -/
theorem InOrder.makeProposal (O : InOrder s) (hcaught : s.thread.blocksToValidate = []) :
    InOrder { s with
      thread := s.thread.makeProposal M.recorded
      madeAfter := s.madeAfter ++ [s.calls] } := by
  have hcalls : (s.thread.makeProposal M.recorded).vmInstance.2 = s.calls ++ [.propose] := rfl
  refine O.called hcalls rfl (fun _ => rfl) rfl rfl ?_ ?_
  · show (s.madeAfter ++ [s.calls]).length = (s.thread.proposalBuffer ++ [_]).length
    rw [List.length_append, List.length_append, O.buffered]
    rfl
  · intro m hm
    obtain hold | hnew := List.mem_append.mp hm
    · exact Or.inl hold
    · obtain rfl := List.mem_singleton.mp hnew
      refine Or.inr ⟨List.prefix_refl _, ?_⟩
      rw [← O.executed_eq, hcaught]
      exact (List.append_nil _).symm

/-- **Step lemma for a pass of the thread.** -/
theorem InOrder.run (O : InOrder s) {t : ControlThread B I (σ × List (VmCall B I))}
    (h : s.thread.run M.recorded = .ok t) : InOrder (s.after t .run) := by
  obtain rfl | rfl | rfl := s.thread.run_cases M.recorded h
  -- the thread waits, catches up, or catches up and makes a proposal
  · have hafter : s.after s.thread .run = s := by simp [after]
    rw [hafter]
    exact O
  · have hafter : s.after (s.thread.catchUp M.recorded) .run =
        { s with thread := s.thread.catchUp M.recorded } := by
      simp [after, ControlThread.catchUp]
    rw [hafter]
    exact O.catchUp
  · have hmade : InOrder { s with
        thread := (s.thread.catchUp M.recorded).makeProposal M.recorded
        madeAfter := s.madeAfter ++ [(s.thread.catchUp M.recorded).vmInstance.2] } :=
      O.catchUp.makeProposal rfl
    have hlonger : s.thread.proposalBuffer.length <
        ((s.thread.catchUp M.recorded).makeProposal M.recorded).proposalBuffer.length := by
      simp [ControlThread.makeProposal, ControlThread.catchUp]
    have hlast : ((s.thread.catchUp M.recorded).makeProposal M.recorded).vmInstance.2.dropLast =
        (s.thread.catchUp M.recorded).vmInstance.2 :=
      List.dropLast_concat
    have hafter : s.after ((s.thread.catchUp M.recorded).makeProposal M.recorded) .run =
        { s with
          thread := (s.thread.catchUp M.recorded).makeProposal M.recorded
          madeAfter := s.madeAfter ++ [(s.thread.catchUp M.recorded).vmInstance.2] } := by
      unfold after
      dsimp only
      rw [if_pos hlonger, hlast]
    rw [hafter]
    exact hmade

/-- **Step lemma.** -/
theorem InOrder.step (O : InOrder s) {a : ThreadAct B I} (h : step M a s = .ok s') : InOrder s' := by
  obtain ⟨t, ht, rfl⟩ := exists_of_map_ok h
  cases a with
  | run => exact O.run ht
  | getProposal => exact O.got s.thread.gets_getProposal
  | wakeGetProposal => exact O.got s.thread.gets_wakeGetProposal
  | setProposer =>
      obtain rfl := Except.ok.inj ht
      exact O.set ⟨rfl, rfl, rfl⟩ rfl
  | stopProposals =>
      obtain rfl := Except.ok.inj ht
      exact O.set ⟨rfl, rfl, rfl⟩ rfl
  | endAsyncThread =>
      obtain rfl := Except.ok.inj ht
      exact O.set ⟨rfl, rfl, rfl⟩ rfl
  | submitBlockForExec submission =>
      obtain rfl := Except.ok.inj ht
      exact O.submitBlockForExec submission
  | logCommitment blockId =>
      obtain rfl := Except.ok.inj ht
      cases blockId with
      | none => exact O.set ⟨rfl, rfl, rfl⟩ rfl
      | some id => exact O.logCommitment id
  | rewindToLastCommit =>
      obtain rfl := Except.ok.inj ht
      have hcalls : (s.thread.rewindToLastCommit M.recorded).vmInstance.2 = s.calls ++ [.rewind] := rfl
      refine O.called hcalls rfl (fun _ => rfl) rfl rfl O.buffered ?_
      exact fun m hm => Or.inl hm

theorem inOrder_make (vm : σ) : InOrder (make vm : ThreadHistory B I σ) where
  executed_eq := rfl
  after_prefix := fun _ hl => absurd hl List.not_mem_nil
  commitments := ⟨[], ⟨[], rfl, rfl⟩, .nil⟩
  buffered := rfl
  madeOn_buffered := fun _ hm => absurd hm List.not_mem_nil
  madeOn_returned := fun _ hr => absurd hr List.not_mem_nil

/-- **Run lemma.** -/
theorem inOrder_of_reach {vm : σ} {P : ThreadHistory B I σ → ThreadAct B I → Prop}
    (h : Reach (ThreadHistory.step M) P (make vm) s) : InOrder s := by
  apply h.invariant (inOrder_make vm)
  exact fun _ _ _ O _ hstep => O.step hstep

/-- **The machine sees commands in order.** After any sections in any order: the blocks executed are the
first of those submitted, and all of them once none waits. The commitments delivered are those logged, in
order and without the replaced ones, but for the one in the buffer, and each came after the blocks
submitted before it. A proposal that was returned was made after all blocks submitted until then had been
executed. -/
theorem vm_sees_in_order {vm : σ} (h : Reach (ThreadHistory.step M) Allowed (make vm) s) :
    (executed s.calls <+: blocks s.submitted ∧
      (s.thread.blocksToValidate = [] → executed s.calls = blocks s.submitted)) ∧
    (∃ delivered inBuffer, s.logged.filter (fun l => !l.overwritten) = delivered ++ inBuffer ∧
      inBuffer.map LoggedCommitment.blockId = s.thread.highestCommittedId.toList ∧
      List.Forall₂ DeliveredAs delivered (deliveries [] s.calls)) ∧
    ∀ r ∈ s.returned, r.madeAfter ++ [.propose] <+: s.calls ∧
      executed r.madeAfter = blocks r.submitted := by
  have O := inOrder_of_reach h
  refine ⟨⟨?_, fun hcaught => ?_⟩, ?_, O.madeOn_returned⟩
  · rw [← O.executed_eq]
    exact List.prefix_append _ _
  · rw [← O.executed_eq, hcaught]
    exact (List.append_nil _).symm
  · obtain ⟨earlier, ⟨last, hlogged, hlast⟩, hdelivered⟩ := O.commitments
    have hids : last.map LoggedCommitment.blockId = s.thread.highestCommittedId.toList := by
      have hfst := congrArg (List.map Prod.fst) hlast
      simpa [Function.comp_def] using hfst
    have hkept : kept last = last := by
      apply List.filter_eq_self.mpr
      intro l hl
      have hpair : (l.blockId, l.overwritten) ∈ s.thread.highestCommittedId.toList.map (·, false) :=
        hlast ▸ List.mem_map_of_mem hl
      obtain ⟨_, -, heq⟩ := List.mem_map.mp hpair
      simp [← (Prod.mk.inj heq).2]
    refine ⟨kept earlier, last, ?_, hids, hdelivered⟩
    show kept s.logged = _
    rw [hlogged, kept_append, hkept]

instance (s : ThreadHistory B I σ) (a : ThreadAct B I) : Decidable (s.Allowed a) :=
  match a with
  | .endAsyncThread => .isFalse fun h => h.2 rfl
  | .wakeGetProposal =>
    decidable_of_iff (0 < s.thread.waiting) ⟨fun h => ⟨h, nofun⟩, fun h => h.1⟩
  | .setProposer => .isTrue ⟨trivial, nofun⟩
  | .getProposal => .isTrue ⟨trivial, nofun⟩
  | .submitBlockForExec _ => .isTrue ⟨trivial, nofun⟩
  | .logCommitment _ => .isTrue ⟨trivial, nofun⟩
  | .stopProposals => .isTrue ⟨trivial, nofun⟩
  | .rewindToLastCommit => .isTrue ⟨trivial, nofun⟩
  | .run => .isTrue ⟨trivial, nofun⟩

/-- A proposal is returned, a block is submitted and a commitment replaced before the thread wakes, and
proposing starts anew. -/
def replacedCommitment : List (ThreadAct (List UInt8) (List UInt8)) :=
  [.setProposer, .getProposal, .run, .wakeGetProposal, .submitBlockForExec (some [7]),
    .logCommitment (some [1]), .setProposer, .logCommitment (some [7]), .getProposal, .run,
    .wakeGetProposal]

theorem vm_sees_in_order_replaced : ∃ s : ThreadHistory (List UInt8) (List UInt8) CountingVM,
    (s.returned.length = 2 ∧ (deliveries [] s.calls).map Prod.fst = [[7]]) ∧
    (executed s.calls <+: blocks s.submitted ∧
      (s.thread.blocksToValidate = [] → executed s.calls = blocks s.submitted)) ∧
    (∃ delivered inBuffer, s.logged.filter (fun l => !l.overwritten) = delivered ++ inBuffer ∧
      inBuffer.map LoggedCommitment.blockId = s.thread.highestCommittedId.toList ∧
      List.Forall₂ DeliveredAs delivered (deliveries [] s.calls)) ∧
    ∀ r ∈ s.returned, r.madeAfter ++ [.propose] <+: s.calls ∧
      executed r.madeAfter = blocks r.submitted := by
  have hrun : (runListIf (step CountingVM.vmType) (fun s a => decide (s.Allowed a)) replacedCommitment
      (make CountingVM.make)).map
        (fun s => (s.returned.length, (deliveries [] s.calls).map Prod.fst)) = some (2, [[7]]) := by
    decide +kernel
  obtain ⟨s, hs, hfields⟩ := Option.map_eq_some_iff.mp hrun
  have hreach : Reach (ThreadHistory.step CountingVM.vmType) Allowed (make CountingVM.make) s :=
    Reach.of_runListIf (fun _ _ => of_decide_eq_true) hs
  exact ⟨s, Prod.mk.inj hfields, vm_sees_in_order hreach⟩

end ThreadHistory

end Fred.Hotstuff
