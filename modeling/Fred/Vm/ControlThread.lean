/-
# Fred.Vm.ControlThread -- the machine's thread and its callers, section by section

`vm_control_interface.h` with the fields as they are declared: the counters are `size_t`, and nothing
says that a request for a proposal implies proposer mode. Each call is cut where it holds the mutex.
`get_proposal` has two sections, since it lets go of the mutex while it waits for a proposal; any number
of callers may be at that wait. A pass of `run` is one section, and throws if it finds a request outside
proposer mode.

`Steady` is what every section keeps. Until the thread is told to end, a section does to the fields what
the part of that name does to a `VMControlInterface` (`interface_of_reach`).
-/
import Fred.Vm.ControlInterface
import Fred.Vm.CountingVM
import Fred.Lib.Transition
import Mathlib.Algebra.Group.Nat.Defs

namespace Fred.Hotstuff

open Fred.Transition

/-- The fields of a `VMControlInterface`, and how many `get_proposal` calls are at their wait. -/
structure ControlThread (B I σ : Type) where
  vmInstance : σ
  proposalBufferTarget : UInt64
  blocksToValidate : List (Option B)
  proposalBuffer : List (Option B)
  additionalProposalRequests : UInt64
  isProposer : Bool
  highestCommittedId : Option I
  doneFlag : Bool
  waiting : ℕ

/-- How a section of `get_proposal` ends. -/
inductive GotProposal (B : Type) where
  /-- The first of the buffer is returned. -/
  | proposal (p : Option B)
  /-- `nullptr` is returned, and the buffer was not looked at. -/
  | refused
  /-- The call waits. -/
  | waits
  deriving DecidableEq, Repr

/-- A section of the interface. -/
inductive ThreadAct (B I : Type) where
  | setProposer
  | getProposal
  /-- A waiting `get_proposal` is woken. -/
  | wakeGetProposal
  | submitBlockForExec (submission : Option B)
  | logCommitment (blockId : Option I)
  | stopProposals
  | endAsyncThread
  /-- The end of `finish_work_and_force_rewind`, which is outside the mutex. -/
  | rewindToLastCommit
  | run
  deriving DecidableEq, Repr

namespace ControlThread

variable {B I σ : Type}

/-- The constructor. -/
def make (vm : σ) : ControlThread B I σ where
  vmInstance := vm
  proposalBufferTarget := 3
  blocksToValidate := []
  proposalBuffer := []
  additionalProposalRequests := 0
  isProposer := false
  highestCommittedId := none
  doneFlag := false
  waiting := 0

variable (M : VMType B I σ) (t : ControlThread B I σ)

def existsWorkToDo : Bool :=
  !t.blocksToValidate.isEmpty ||
    (decide (t.additionalProposalRequests > 0) && t.isProposer) || t.highestCommittedId.isSome

/-! ## The side of the machine -/

/-- The loop over the blocks to validate, then the commitment. -/
def catchUp : ControlThread B I σ :=
  let vm := t.blocksToValidate.foldl (VMControlInterface.validate M) t.vmInstance
  { t with
    blocksToValidate := []
    highestCommittedId := none
    vmInstance := match t.highestCommittedId with
      | some id => M.logCommitment id vm
      | none => vm }

def makeProposal : ControlThread B I σ :=
  { t with
    vmInstance := (M.propose t.vmInstance).2
    proposalBuffer := t.proposalBuffer ++ [(M.propose t.vmInstance).1]
    additionalProposalRequests := t.additionalProposalRequests - 1 }

/-- An iteration of `run`. Without work the thread goes on waiting, and once it is done it does nothing
any more. -/
def run : Except String (ControlThread B I σ) :=
  if t.doneFlag || !t.existsWorkToDo then .ok t
  else
    let t := catchUp M t
    if t.additionalProposalRequests > 0 then
      if !t.isProposer then .error "vm thread woke up early" else .ok (makeProposal M t)
    else .ok t

/-- What a pass does: nothing, the work there is, or that and a proposal. -/
theorem run_cases {t' : ControlThread B I σ} (h : t.run M = .ok t') :
    t' = t ∨ t' = t.catchUp M ∨ t' = (t.catchUp M).makeProposal M := by
  unfold run at h
  split at h
  · exact Or.inl (Except.ok.inj h).symm
  · dsimp only at h
    split at h
    · split at h
      · cases h
      · exact Or.inr (Or.inr (Except.ok.inj h).symm)
    · exact Or.inr (Or.inl (Except.ok.inj h).symm)

/-! ## The side of consensus -/

def setProposer : ControlThread B I σ := { t with isProposer := true }

/-- The end of `get_proposal`. -/
def takeProposal : GotProposal B × ControlThread B I σ :=
  let rest := t.proposalBuffer.tail
  let size := UInt64.ofNat rest.length
  (.proposal t.proposalBuffer.head?.join, { t with
    proposalBuffer := rest
    additionalProposalRequests :=
      if size > t.proposalBufferTarget then 0 else t.proposalBufferTarget - size })

/-- `get_proposal` until it returns or waits. -/
def getProposal : GotProposal B × ControlThread B I σ :=
  if !t.isProposer then (.refused, t)
  else if t.doneFlag then (.refused, t)
  else if t.proposalBuffer.isEmpty then
    let asked := { t with
      additionalProposalRequests :=
        if t.additionalProposalRequests < t.proposalBufferTarget then t.proposalBufferTarget
        else t.additionalProposalRequests }
    if t.proposalBufferTarget = 0 then (.refused, asked)
    else (.waits, { asked with waiting := t.waiting + 1 })
  else takeProposal t

/-- `get_proposal` from its wait on. -/
def wakeGetProposal : GotProposal B × ControlThread B I σ :=
  if t.doneFlag then (.refused, { t with waiting := t.waiting - 1 })
  else if t.proposalBuffer.isEmpty then (.waits, t)
  else takeProposal { t with waiting := t.waiting - 1 }

/-- The machine and what waits for it are the same. -/
structure SameWork (t t' : ControlThread B I σ) : Prop where
  vmInstance : t'.vmInstance = t.vmInstance
  blocksToValidate : t'.blocksToValidate = t.blocksToValidate
  highestCommittedId : t'.highestCommittedId = t.highestCommittedId

/-- What a section of `get_proposal` does: it leaves the buffer as it is, or takes the first proposal
out of it. -/
inductive Gets (t : ControlThread B I σ) : GotProposal B × ControlThread B I σ → Prop
  | refuses {t' : ControlThread B I σ} (hsame : SameWork t t')
      (hbuffer : t'.proposalBuffer = t.proposalBuffer) : Gets t (.refused, t')
  | waits {t' : ControlThread B I σ} (hsame : SameWork t t')
      (hbuffer : t'.proposalBuffer = t.proposalBuffer) : Gets t (.waits, t')
  | takes {p : Option B} {t' : ControlThread B I σ} (hsame : SameWork t t')
      (hbuffer : t.proposalBuffer = p :: t'.proposalBuffer) : Gets t (.proposal p, t')

variable {t} in
theorem Gets.sameWork {x : GotProposal B × ControlThread B I σ} (h : Gets t x) : SameWork t x.2 := by
  obtain ⟨hsame, -⟩ | ⟨hsame, -⟩ | ⟨hsame, -⟩ := h
  · exact hsame
  · exact hsame
  · exact hsame

variable {t} in
theorem gets_takeProposal {u : ControlThread B I σ} (hsame : SameWork t u)
    (hbuffer : u.proposalBuffer = t.proposalBuffer) (h : ¬ t.proposalBuffer.isEmpty = true) :
    Gets t u.takeProposal := by
  obtain ⟨p, rest, hcons⟩ := List.exists_cons_of_ne_nil (mt List.isEmpty_iff.mpr h)
  have hp : u.proposalBuffer.head?.join = p := by simp [hbuffer, hcons]
  unfold takeProposal
  dsimp only
  rw [hp]
  refine Gets.takes ⟨hsame.1, hsame.2, hsame.3⟩ ?_
  show t.proposalBuffer = p :: u.proposalBuffer.tail
  simp [hbuffer, hcons]

theorem gets_getProposal : Gets t t.getProposal := by
  unfold getProposal
  split
  · exact .refuses ⟨rfl, rfl, rfl⟩ rfl
  · split
    · exact .refuses ⟨rfl, rfl, rfl⟩ rfl
    · split
      · dsimp only
        split
        · exact .refuses ⟨rfl, rfl, rfl⟩ rfl
        · exact .waits ⟨rfl, rfl, rfl⟩ rfl
      · rename_i hfull
        exact gets_takeProposal ⟨rfl, rfl, rfl⟩ rfl hfull

theorem gets_wakeGetProposal : Gets t t.wakeGetProposal := by
  unfold wakeGetProposal
  split
  · exact .refuses ⟨rfl, rfl, rfl⟩ rfl
  · split
    · exact .waits ⟨rfl, rfl, rfl⟩ rfl
    · rename_i hfull
      exact gets_takeProposal ⟨rfl, rfl, rfl⟩ rfl hfull

def clearProposalSettings : ControlThread B I σ :=
  { t with isProposer := false, proposalBuffer := [], additionalProposalRequests := 0 }

def submitBlockForExec (submission : Option B) : ControlThread B I σ :=
  let t := clearProposalSettings t
  { t with blocksToValidate := t.blocksToValidate ++ [submission] }

def logCommitment : Option I → ControlThread B I σ
  | some blockId => { t with highestCommittedId := some blockId }
  | none => t

def stopProposals : ControlThread B I σ := { t with proposalBufferTarget := 0 }

def endAsyncThread : ControlThread B I σ := { t with doneFlag := true }

def rewindToLastCommit : ControlThread B I σ :=
  { t with vmInstance := M.rewindToLastCommit t.vmInstance }

/-! ## Runs -/

/-- A wait can be woken only while some call is at it. -/
def Allowed (t : ControlThread B I σ) (a : ThreadAct B I) : Prop :=
  match a with
  | .wakeGetProposal => 0 < t.waiting
  | _ => True

instance (t : ControlThread B I σ) : (a : ThreadAct B I) → Decidable (t.Allowed a)
  | .wakeGetProposal => inferInstanceAs (Decidable (0 < t.waiting))
  | .setProposer => .isTrue trivial
  | .getProposal => .isTrue trivial
  | .submitBlockForExec _ => .isTrue trivial
  | .logCommitment _ => .isTrue trivial
  | .stopProposals => .isTrue trivial
  | .endAsyncThread => .isTrue trivial
  | .rewindToLastCommit => .isTrue trivial
  | .run => .isTrue trivial

def step : ThreadAct B I → ControlThread B I σ → Except String (ControlThread B I σ)
  | .setProposer, t => .ok t.setProposer
  | .getProposal, t => .ok t.getProposal.2
  | .wakeGetProposal, t => .ok t.wakeGetProposal.2
  | .submitBlockForExec submission, t => .ok (t.submitBlockForExec submission)
  | .logCommitment blockId, t => .ok (t.logCommitment blockId)
  | .stopProposals, t => .ok t.stopProposals
  | .endAsyncThread, t => .ok t.endAsyncThread
  | .rewindToLastCommit, t => .ok (t.rewindToLastCommit M)
  | .run, t => t.run M

/-- Requests and proposals are there in proposer mode only, and no more than three together. -/
structure Steady (t : ControlThread B I σ) : Prop where
  target_le : t.proposalBufferTarget.toNat ≤ 3
  requested : 0 < t.additionalProposalRequests → t.isProposer = true
  proposed : t.proposalBuffer ≠ [] → t.isProposer = true
  total_le : t.proposalBuffer.length + t.additionalProposalRequests.toNat ≤ 3

variable {M t} {t' : ControlThread B I σ}

theorem steady_make (vm : σ) : Steady (make vm : ControlThread B I σ) where
  target_le := Nat.le_refl 3
  requested := fun h => absurd h (UInt64.lt_irrefl 0)
  proposed := fun h => absurd rfl h
  total_le := Nat.zero_le 3

namespace Steady

/-- What a section leaves alone is as before. -/
theorem of_frame (S : Steady t) (htarget : t'.proposalBufferTarget = t.proposalBufferTarget)
    (hrequests : t'.additionalProposalRequests = t.additionalProposalRequests)
    (hbuffer : t'.proposalBuffer = t.proposalBuffer)
    (hproposer : t.isProposer = true → t'.isProposer = true) : Steady t' where
  target_le := htarget ▸ S.target_le
  requested := fun h => hproposer (S.requested (hrequests ▸ h))
  proposed := fun h => hproposer (S.proposed (hbuffer ▸ h))
  total_le := by
    rw [hbuffer, hrequests]
    exact S.total_le

theorem length_lt (S : Steady t) : t.proposalBuffer.tail.length < 2 ^ 64 := by
  have htotal := S.total_le
  have htail := List.length_tail (l := t.proposalBuffer)
  omega

/-- **The subtraction in `get_proposal` does not wrap.** -/
theorem requests_takeProposal (S : Steady t) :
    t.takeProposal.2.additionalProposalRequests.toNat =
      t.proposalBufferTarget.toNat - t.proposalBuffer.tail.length := by
  have hsize : (UInt64.ofNat t.proposalBuffer.tail.length).toNat = t.proposalBuffer.tail.length :=
    UInt64.toNat_ofNat_of_lt' S.length_lt
  unfold takeProposal
  dsimp only
  split
  · rename_i hgt
    have hgt' := UInt64.lt_iff_toNat_lt.mp hgt
    rw [hsize] at hgt'
    show 0 = _
    omega
  · rename_i hle
    have hle' := UInt64.not_lt.mp hle
    rw [UInt64.toNat_sub_of_le _ _ hle', hsize]

theorem takeProposal (S : Steady t) (hp : t.isProposer = true) : Steady t.takeProposal.2 where
  target_le := S.target_le
  requested := fun _ => hp
  proposed := fun _ => hp
  total_le := by
    rw [S.requests_takeProposal]
    have htarget := S.target_le
    have htotal := S.total_le
    have htail := List.length_tail (l := t.proposalBuffer)
    show t.proposalBuffer.tail.length + _ ≤ 3
    omega

/-- **Step lemma for the first section of `get_proposal`.** -/
theorem getProposal (S : Steady t) : Steady t.getProposal.2 := by
  unfold ControlThread.getProposal
  split
  · exact S
  · rename_i hp
    replace hp : t.isProposer = true := by simpa using hp
    split
    · exact S
    · split
      · rename_i hempty
        have hnil : t.proposalBuffer = [] := List.isEmpty_iff.mp hempty
        -- the target is at most three, and so is what was requested before
        have hasked : (if t.additionalProposalRequests < t.proposalBufferTarget then
            t.proposalBufferTarget else t.additionalProposalRequests).toNat ≤ 3 := by
          have htarget := S.target_le
          have htotal := S.total_le
          split <;> omega
        dsimp only
        split
        · refine ⟨S.target_le, fun _ => hp, fun _ => hp, ?_⟩
          simpa [hnil] using hasked
        · refine ⟨S.target_le, fun _ => hp, fun _ => hp, ?_⟩
          simpa [hnil] using hasked
      · exact S.takeProposal hp

/-- **Step lemma for the second section of `get_proposal`**: a proposal that is there was made in
proposer mode, and the mode was not left since. -/
theorem wakeGetProposal (S : Steady t) : Steady t.wakeGetProposal.2 := by
  have hframe : Steady { t with waiting := t.waiting - 1 } := S.of_frame rfl rfl rfl id
  unfold ControlThread.wakeGetProposal
  split
  · exact hframe
  · split
    · exact S
    · rename_i hempty
      have hne : t.proposalBuffer ≠ [] := by
        intro h
        simp [h] at hempty
      exact hframe.takeProposal (S.proposed hne)

theorem clearProposalSettings (S : Steady t) : Steady t.clearProposalSettings where
  target_le := S.target_le
  requested := fun h => absurd h (UInt64.lt_irrefl 0)
  proposed := fun h => absurd rfl h
  total_le := Nat.zero_le 3

theorem catchUp (S : Steady t) : Steady (t.catchUp M) := S.of_frame rfl rfl rfl id

/-- The decrement in `run` does not wrap. -/
theorem requests_makeProposal (hpos : 0 < t.additionalProposalRequests) :
    (t.makeProposal M).additionalProposalRequests.toNat = t.additionalProposalRequests.toNat - 1 := by
  have hle : (1 : UInt64) ≤ t.additionalProposalRequests := by
    have hpos' := UInt64.lt_iff_toNat_lt.mp hpos
    exact UInt64.le_iff_toNat_le.mpr hpos'
  show (t.additionalProposalRequests - 1).toNat = _
  rw [UInt64.toNat_sub_of_le _ _ hle]
  rfl

theorem makeProposal (S : Steady t) (hpos : 0 < t.additionalProposalRequests) :
    Steady (t.makeProposal M) where
  target_le := S.target_le
  requested := fun _ => S.requested hpos
  proposed := fun _ => S.requested hpos
  total_le := by
    rw [requests_makeProposal hpos]
    have htotal := S.total_le
    have hpos' : 0 < t.additionalProposalRequests.toNat := UInt64.lt_iff_toNat_lt.mp hpos
    show (t.proposalBuffer ++ [_]).length + _ ≤ 3
    rw [List.length_append, List.length_singleton]
    omega

/-- **A pass returns**, is steady again, and takes one request away if there is one. -/
theorem run (S : Steady t) : ∃ t', t.run M = .ok t' ∧ Steady t' ∧
    (t'.additionalProposalRequests = t.additionalProposalRequests ∨
      t'.additionalProposalRequests.toNat + 1 = t.additionalProposalRequests.toNat) := by
  unfold ControlThread.run
  split
  · exact ⟨t, rfl, S, Or.inl rfl⟩
  · dsimp only
    split
    · rename_i hpos
      have hp : (t.catchUp M).isProposer = true := S.catchUp.requested hpos
      rw [if_neg (by simp [hp])]
      refine ⟨_, rfl, S.catchUp.makeProposal hpos, Or.inr ?_⟩
      have hpos' : 0 < t.additionalProposalRequests.toNat := UInt64.lt_iff_toNat_lt.mp hpos
      rw [requests_makeProposal hpos]
      show t.additionalProposalRequests.toNat - 1 + 1 = _
      omega
    · exact ⟨_, rfl, S.catchUp, Or.inl rfl⟩

/-- **Step lemma.** No section throws. -/
theorem step (S : Steady t) (a : ThreadAct B I) : ∃ t', step M a t = .ok t' ∧ Steady t' := by
  cases a with
  | setProposer => exact ⟨_, rfl, S.of_frame rfl rfl rfl fun _ => rfl⟩
  | getProposal => exact ⟨_, rfl, S.getProposal⟩
  | wakeGetProposal => exact ⟨_, rfl, S.wakeGetProposal⟩
  | submitBlockForExec submission =>
      exact ⟨_, rfl, S.clearProposalSettings.of_frame rfl rfl rfl id⟩
  | logCommitment blockId =>
      cases blockId with
      | none => exact ⟨_, rfl, S⟩
      | some id => exact ⟨_, rfl, S.of_frame rfl rfl rfl fun h => h⟩
  | stopProposals => exact ⟨_, rfl, Nat.zero_le 3, S.requested, S.proposed, S.total_le⟩
  | endAsyncThread => exact ⟨_, rfl, S.of_frame rfl rfl rfl id⟩
  | rewindToLastCommit => exact ⟨_, rfl, S.of_frame rfl rfl rfl id⟩
  | run =>
      obtain ⟨t', hrun, hsteady, -⟩ := S.run (M := M)
      exact ⟨t', hrun, hsteady⟩

end Steady

/-- **Run lemma.** -/
theorem steady_of_reach {vm : σ} {P : ControlThread B I σ → ThreadAct B I → Prop}
    (h : Reach (step M) P (make vm) t) : Steady t := by
  apply h.invariant (steady_make vm)
  intro s u a S _ hstep
  obtain ⟨u', hu', hsteady⟩ := S.step a
  exact Except.ok.inj (hu'.symm.trans hstep) ▸ hsteady

/-- **The machine's thread never fails and never makes too much.** After any sections in any order, a
request implies proposer mode, no section throws, neither subtraction wraps, and proposals and requests
are at most three together. -/
theorem thread_never_fails {vm : σ} (h : Reach (step M) Allowed (make vm) t) :
    (0 < t.additionalProposalRequests → t.isProposer = true) ∧
    (∀ a, ∃ t', step M a t = .ok t') ∧
    (∀ t', t.run M = .ok t' → t'.additionalProposalRequests = t.additionalProposalRequests ∨
      t'.additionalProposalRequests.toNat + 1 = t.additionalProposalRequests.toNat) ∧
    t.takeProposal.2.additionalProposalRequests.toNat =
      t.proposalBufferTarget.toNat - t.proposalBuffer.tail.length ∧
    t.proposalBuffer.length + t.additionalProposalRequests.toNat ≤ 3 := by
  have S := steady_of_reach h
  refine ⟨S.requested, fun a => ?_, fun t' hrun => ?_, S.requests_takeProposal, S.total_le⟩
  · obtain ⟨t', ht', -⟩ := S.step a
    exact ⟨t', ht'⟩
  · obtain ⟨u, hu, -, hrequests⟩ := S.run (M := M)
    exact Except.ok.inj (hu.symm.trans hrun) ▸ hrequests

/-- Two callers wait, a submission clears their requests, a third call asks anew and proposing is
stopped before one of the three is woken. -/
def crossedCalls : List (ThreadAct (List UInt8) (List UInt8)) :=
  [.setProposer, .getProposal, .getProposal, .submitBlockForExec none, .run, .setProposer, .getProposal,
    .run, .run, .stopProposals, .wakeGetProposal]

theorem thread_never_fails_crossed : ∃ t : ControlThread (List UInt8) (List UInt8) CountingVM,
    t.proposalBuffer = [some [0, 0]] ∧ t.waiting = 2 ∧
    (0 < t.additionalProposalRequests → t.isProposer = true) ∧
    (∀ a, ∃ t', step CountingVM.vmType a t = .ok t') ∧
    (∀ t', t.run CountingVM.vmType = .ok t' →
      t'.additionalProposalRequests = t.additionalProposalRequests ∨
        t'.additionalProposalRequests.toNat + 1 = t.additionalProposalRequests.toNat) ∧
    t.takeProposal.2.additionalProposalRequests.toNat =
      t.proposalBufferTarget.toNat - t.proposalBuffer.tail.length ∧
    t.proposalBuffer.length + t.additionalProposalRequests.toNat ≤ 3 := by
  have hrun : (runListIf (step CountingVM.vmType) (fun t a => decide (t.Allowed a)) crossedCalls
      (make CountingVM.make)).map (fun t => (t.proposalBuffer, t.waiting)) =
        some ([some [0, 0]], 2) := by
    decide +kernel
  obtain ⟨t, ht, hfields⟩ := Option.map_eq_some_iff.mp hrun
  obtain ⟨hbuffer, hwaiting⟩ := Prod.mk.inj hfields
  have hreach : Reach (step CountingVM.vmType) Allowed (make CountingVM.make) t :=
    Reach.of_runListIf (fun _ _ => of_decide_eq_true) ht
  exact ⟨t, hbuffer, hwaiting, thread_never_fails hreach⟩

/-! ## The same as a `VMControlInterface` -/

/-- `get_proposal` on a `VMControlInterface` until it returns or waits. -/
def beginGetProposal (c : VMControlInterface B I σ) : VMControlInterface B I σ :=
  if hp : c.isProposer = true then
    if c.proposalBuffer.isEmpty then c.askProposals hp else (c.takeProposal hp).2
  else c

/-- `get_proposal` on a `VMControlInterface` from its wait on. -/
def endGetProposal (c : VMControlInterface B I σ) : VMControlInterface B I σ :=
  if hp : c.isProposer = true then
    if c.proposalBuffer.isEmpty then c else (c.takeProposal hp).2
  else c

variable (M) in
/-- What a section is on a `VMControlInterface`. -/
def sectionOf : ThreadAct B I → VMControlInterface B I σ → VMControlInterface B I σ
  | .setProposer, c => c.setProposer
  | .getProposal, c => beginGetProposal c
  | .wakeGetProposal, c => endGetProposal c
  | .submitBlockForExec submission, c => c.submitBlockForExec submission
  | .logCommitment blockId, c => c.logCommitment blockId
  | .stopProposals, c => c.stopProposals
  | .endAsyncThread, c => c
  | .rewindToLastCommit, c => { c with vmInstance := M.rewindToLastCommit c.vmInstance }
  | .run, c => c.round M

/-- The same fields. -/
structure Shows (t : ControlThread B I σ) (c : VMControlInterface B I σ) : Prop where
  running : t.doneFlag = false
  vmInstance : c.vmInstance = t.vmInstance
  target : c.proposalBufferTarget = t.proposalBufferTarget.toNat
  blocksToValidate : c.blocksToValidate = t.blocksToValidate
  proposalBuffer : c.proposalBuffer = t.proposalBuffer
  requests : c.additionalProposalRequests = t.additionalProposalRequests.toNat
  isProposer : c.isProposer = t.isProposer
  highestCommittedId : c.highestCommittedId = t.highestCommittedId

namespace Shows

variable {c : VMControlInterface B I σ}

theorem takeProposal (H : Shows t c) (S : Steady t) (hp : c.isProposer = true) :
    Shows t.takeProposal.2 (c.takeProposal hp).2 where
  running := H.running
  vmInstance := H.vmInstance
  target := H.target
  blocksToValidate := H.blocksToValidate
  proposalBuffer := congrArg List.tail H.proposalBuffer
  requests := by
    rw [S.requests_takeProposal]
    unfold VMControlInterface.takeProposal
    dsimp only
    rw [H.proposalBuffer, H.target]
    split
    · omega
    · rfl
  isProposer := H.isProposer
  highestCommittedId := H.highestCommittedId

theorem getProposal (H : Shows t c) (S : Steady t) :
    Shows t.getProposal.2 (beginGetProposal c) := by
  unfold ControlThread.getProposal beginGetProposal
  by_cases hp : c.isProposer = true
  · rw [if_neg (by simp [← H.isProposer, hp]), if_neg (by simp [H.running]), dif_pos hp]
    simp only [H.proposalBuffer]
    split
    · have hasked : (c.askProposals hp).additionalProposalRequests =
          (if t.additionalProposalRequests < t.proposalBufferTarget then t.proposalBufferTarget
            else t.additionalProposalRequests).toNat := by
        unfold VMControlInterface.askProposals
        dsimp only
        rw [H.requests, H.target, apply_ite UInt64.toNat]
        simp only [UInt64.lt_iff_toNat_lt]
      split
      · exact ⟨H.running, H.vmInstance, H.target, H.blocksToValidate, H.proposalBuffer, hasked,
          H.isProposer, H.highestCommittedId⟩
      · exact ⟨H.running, H.vmInstance, H.target, H.blocksToValidate, H.proposalBuffer, hasked,
          H.isProposer, H.highestCommittedId⟩
    · exact H.takeProposal S hp
  · rw [if_pos (by simp [← H.isProposer, hp]), dif_neg hp]
    exact H

theorem wakeGetProposal (H : Shows t c) (S : Steady t) :
    Shows t.wakeGetProposal.2 (endGetProposal c) := by
  unfold ControlThread.wakeGetProposal endGetProposal
  rw [if_neg (by simp [H.running])]
  simp only [H.proposalBuffer]
  by_cases hempty : t.proposalBuffer = []
  · simp only [hempty, List.isEmpty_nil, if_true]
    split <;> exact H
  · have hp : c.isProposer = true := by
      rw [H.isProposer]
      exact S.proposed hempty
    have hfull : ¬ t.proposalBuffer.isEmpty = true := by simpa using hempty
    rw [if_neg hfull, dif_pos hp, if_neg hfull]
    have hframe : Shows { t with waiting := t.waiting - 1 } c :=
      ⟨H.running, H.vmInstance, H.target, H.blocksToValidate, H.proposalBuffer, H.requests,
        H.isProposer, H.highestCommittedId⟩
    exact hframe.takeProposal (S.of_frame rfl rfl rfl id) hp

theorem catchUp (H : Shows t c) : Shows (t.catchUp M) (c.catchUp M) where
  running := H.running
  vmInstance := by
    unfold ControlThread.catchUp VMControlInterface.catchUp
    dsimp only
    rcases hid : t.highestCommittedId with _ | id
    · simp only [H.blocksToValidate, H.highestCommittedId, H.vmInstance, hid]
    · simp only [H.blocksToValidate, H.highestCommittedId, H.vmInstance, hid]
  target := H.target
  blocksToValidate := rfl
  proposalBuffer := H.proposalBuffer
  requests := H.requests
  isProposer := H.isProposer
  highestCommittedId := rfl

/-- A pass with nothing to do does nothing. -/
theorem catchUp_of_idle (H : Shows t c) (hidle : t.existsWorkToDo = false) :
    Shows t (c.catchUp M) := by
  unfold ControlThread.existsWorkToDo at hidle
  simp only [Bool.or_eq_false_iff, Bool.not_eq_false', List.isEmpty_iff,
    Option.isSome_eq_false_iff, Option.isNone_iff_eq_none] at hidle
  obtain ⟨⟨hblocks, -⟩, hcommitted⟩ := hidle
  refine ⟨H.running, ?_, H.target, hblocks.symm, H.proposalBuffer, H.requests, H.isProposer,
    hcommitted.symm⟩
  unfold VMControlInterface.catchUp
  simp only [H.blocksToValidate, hblocks, H.highestCommittedId, hcommitted, List.foldl_nil]
  exact H.vmInstance

theorem run (H : Shows t c) (S : Steady t) (h : t.run M = .ok t') : Shows t' (c.round M) := by
  unfold ControlThread.run at h
  unfold VMControlInterface.round VMControlInterface.makeProposal
  rw [H.running, Bool.false_or] at h
  split at h
  · -- the thread goes on waiting: there is no request either
    rename_i hidle
    replace hidle : t.existsWorkToDo = false := by simpa using hidle
    obtain rfl := Except.ok.inj h
    have hzero : ¬ (c.catchUp M).additionalProposalRequests > 0 := by
      show ¬ c.additionalProposalRequests > 0
      rw [H.requests]
      intro hpos
      have hpos' : 0 < t.additionalProposalRequests := UInt64.lt_iff_toNat_lt.mpr hpos
      simp [existsWorkToDo, hpos', S.requested hpos'] at hidle
    rw [dif_neg hzero]
    exact H.catchUp_of_idle hidle
  · dsimp only at h
    have Hc := H.catchUp (M := M)
    split at h
    · -- a request is only there in proposer mode, so the thread does not throw
      rename_i hpos
      rw [if_neg (by simp [S.catchUp.requested hpos])] at h
      obtain rfl := Except.ok.inj h
      have hpos' : (c.catchUp M).additionalProposalRequests > 0 := by
        rw [Hc.requests]
        exact UInt64.lt_iff_toNat_lt.mp hpos
      rw [dif_pos hpos']
      refine ⟨Hc.running, ?_, Hc.target, Hc.blocksToValidate, ?_, ?_, Hc.isProposer,
        Hc.highestCommittedId⟩
      · show (M.propose _).2 = (M.propose _).2
        rw [Hc.vmInstance]
      · show _ ++ [(M.propose _).1] = _ ++ [(M.propose _).1]
        rw [Hc.vmInstance, Hc.proposalBuffer]
      · rw [Steady.requests_makeProposal hpos]
        show (c.catchUp M).additionalProposalRequests - 1 = _
        rw [Hc.requests]
    · rename_i hzero
      obtain rfl := Except.ok.inj h
      have hzero' : ¬ (c.catchUp M).additionalProposalRequests > 0 := by
        rw [Hc.requests]
        exact fun hpos => hzero (UInt64.lt_iff_toNat_lt.mpr hpos)
      rw [dif_neg hzero']
      exact Hc

/-- **Step lemma.** -/
theorem step (H : Shows t c) (S : Steady t) {a : ThreadAct B I} (ha : a ≠ .endAsyncThread)
    (h : step M a t = .ok t') : Shows t' (sectionOf M a c) := by
  cases a with
  | run => exact H.run S h
  | setProposer =>
      obtain rfl := Except.ok.inj h
      exact ⟨H.running, H.vmInstance, H.target, H.blocksToValidate, H.proposalBuffer, H.requests, rfl,
        H.highestCommittedId⟩
  | getProposal =>
      obtain rfl := Except.ok.inj h
      exact H.getProposal S
  | wakeGetProposal =>
      obtain rfl := Except.ok.inj h
      exact H.wakeGetProposal S
  | submitBlockForExec submission =>
      obtain rfl := Except.ok.inj h
      exact ⟨H.running, H.vmInstance, H.target, congrArg (· ++ [submission]) H.blocksToValidate, rfl,
        rfl, rfl, H.highestCommittedId⟩
  | logCommitment blockId =>
      obtain rfl := Except.ok.inj h
      cases blockId with
      | none => exact H
      | some id =>
          exact ⟨H.running, H.vmInstance, H.target, H.blocksToValidate, H.proposalBuffer, H.requests,
            H.isProposer, rfl⟩
  | stopProposals =>
      obtain rfl := Except.ok.inj h
      exact ⟨H.running, H.vmInstance, rfl, H.blocksToValidate, H.proposalBuffer, H.requests,
        H.isProposer, H.highestCommittedId⟩
  | endAsyncThread => exact absurd rfl ha
  | rewindToLastCommit =>
      obtain rfl := Except.ok.inj h
      exact ⟨H.running, congrArg M.rewindToLastCommit H.vmInstance, H.target, H.blocksToValidate,
        H.proposalBuffer, H.requests, H.isProposer, H.highestCommittedId⟩

end Shows

/-- **Refinement**: what the sections do, in whatever order, is what the parts of that name do to a
`VMControlInterface`. -/
theorem interface_of_reach {vm : σ} (h : Reach (step M) (fun _ a => a ≠ .endAsyncThread) (make vm) t) :
    ∃ c, Reach (fun a c => (.ok (sectionOf M a c) : Except String _)) anyInput
        (VMControlInterface.make vm) c ∧ Shows t c := by
  apply h.invariant_of_reach (I := fun t => ∃ c, Reach
    (fun a c => (.ok (sectionOf M a c) : Except String _)) anyInput (VMControlInterface.make vm) c ∧
      Shows t c)
  · exact ⟨_, Reach.refl _, rfl, rfl, rfl, rfl, rfl, rfl, rfl, rfl⟩
  · rintro t u a ht ⟨c, hc, H⟩ ha hstep
    exact ⟨_, hc.tail trivial rfl, H.step (steady_of_reach ht) ha hstep⟩

end ControlThread

end Fred.Hotstuff
