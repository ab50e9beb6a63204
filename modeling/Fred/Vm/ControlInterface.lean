/-
# Fred.Vm.ControlInterface -- the machine behind its own thread

`vm_control_interface.h`: the machine runs on a thread of its own, and consensus reaches it through
buffers. `run` is a loop; `round` is one pass of it. The interface is only ever looked at while its
mutex is held, and the thread holds it for a whole pass, so passes and calls do not overlap.

The pass throws if it finds a request for a proposal while the machine is not in proposer mode. Both
are set and cleared together, which the type carries (`woken`), so that branch is not there. The
destructor and `done_flag` are left out.
-/
import Fred.Vm.Machine

namespace Fred.Hotstuff

structure VMControlInterface (B I σ : Type) where
  vmInstance : σ
  proposalBufferTarget : ℕ
  blocksToValidate : List (Option B)
  proposalBuffer : List (Option B)
  additionalProposalRequests : ℕ
  isProposer : Bool
  highestCommittedId : Option I
  woken : 0 < additionalProposalRequests → isProposer = true

namespace VMControlInterface

variable {B I σ : Type}

/-- The constructor. -/
def make (vm : σ) : VMControlInterface B I σ where
  vmInstance := vm
  proposalBufferTarget := 3
  blocksToValidate := []
  proposalBuffer := []
  additionalProposalRequests := 0
  isProposer := false
  highestCommittedId := none
  woken := fun h => absurd h (Nat.lt_irrefl 0)

variable (M : VMType B I σ) (c : VMControlInterface B I σ)

def existsWorkToDo : Bool :=
  !c.blocksToValidate.isEmpty ||
    (decide (c.additionalProposalRequests > 0) && c.isProposer) || c.highestCommittedId.isSome

/-! ## The side of the machine -/

/-- A block that did not parse is null, and the machine does nothing for it. -/
def validate (vm : σ) : Option B → σ
  | some blk => M.execBlock blk vm
  | none => vm

/-- The blocks to validate, then the commitment. -/
def catchUp : VMControlInterface B I σ :=
  let vm := c.blocksToValidate.foldl (validate M) c.vmInstance
  { c with
    blocksToValidate := []
    highestCommittedId := none
    vmInstance := match c.highestCommittedId with
      | some id => M.logCommitment id vm
      | none => vm }

/-- One proposal if any is requested. It leaves the machine in a speculative state. -/
def makeProposal : VMControlInterface B I σ :=
  if h : c.additionalProposalRequests > 0 then
    { c with
      vmInstance := (M.propose c.vmInstance).2
      proposalBuffer := c.proposalBuffer ++ [(M.propose c.vmInstance).1]
      additionalProposalRequests := c.additionalProposalRequests - 1
      woken := fun _ => c.woken h }
  else c

/-- One pass of `run`. -/
def round : VMControlInterface B I σ := makeProposal M (catchUp M c)

def rounds : ℕ → VMControlInterface B I σ → VMControlInterface B I σ
  | 0, c => c
  | n + 1, c => rounds n (round M c)

@[simp] theorem isProposer_makeProposal : (makeProposal M c).isProposer = c.isProposer := by
  unfold makeProposal
  split <;> rfl

@[simp] theorem isProposer_rounds (n : ℕ) : (rounds M n c).isProposer = c.isProposer := by
  induction n generalizing c with
  | zero => rfl
  | succ n ih => exact (ih (round M c)).trans (isProposer_makeProposal M (catchUp M c))

/-! ## The side of consensus -/

def setProposer : VMControlInterface B I σ := { c with isProposer := true, woken := fun _ => rfl }

/-- The end of `get_proposal`: the first proposal is taken and the missing ones are requested. -/
def takeProposal (hp : c.isProposer = true) : Option B × VMControlInterface B I σ :=
  let rest := c.proposalBuffer.tail
  (c.proposalBuffer.head?.join, { c with
    proposalBuffer := rest
    additionalProposalRequests :=
      if rest.length > c.proposalBufferTarget then 0 else c.proposalBufferTarget - rest.length
    woken := fun _ => hp })

/-- The requests of `get_proposal` on an empty buffer. -/
def askProposals (hp : c.isProposer = true) : VMControlInterface B I σ :=
  { c with
    additionalProposalRequests :=
      if c.additionalProposalRequests < c.proposalBufferTarget then c.proposalBufferTarget
      else c.additionalProposalRequests
    woken := fun _ => hp }

/-- `get_proposal`. It waits while the buffer is empty; `extra` says how many passes the thread makes
before it goes on, beyond the one that puts a proposal into the buffer. -/
def getProposal (extra : ℕ) : Option B × VMControlInterface B I σ :=
  if hp : c.isProposer = true then
    if c.proposalBuffer.isEmpty then
      if c.proposalBufferTarget = 0 then (none, askProposals c hp)
      else takeProposal (rounds M (extra + 1) (askProposals c hp)) ((isProposer_rounds M _ _).trans hp)
    else takeProposal c hp
  else (none, c)

def clearProposalSettings : VMControlInterface B I σ :=
  { c with
    isProposer := false
    proposalBuffer := []
    additionalProposalRequests := 0
    woken := fun h => absurd h (Nat.lt_irrefl 0) }

def submitBlockForExec (submission : Option B) : VMControlInterface B I σ :=
  let c := clearProposalSettings c
  { c with blocksToValidate := c.blocksToValidate ++ [submission] }

/-- `log_commitment`: a commitment the machine has not been told of yet is replaced. -/
def logCommitment : Option I → VMControlInterface B I σ
  | some blockId => { c with highestCommittedId := some blockId }
  | none => c

/-- `wait_for_async_task`: the thread makes passes until there is nothing left to do. One pass does all
but the proposals, and each pass makes one of these. -/
def waitForAsyncTask : VMControlInterface B I σ := rounds M (c.additionalProposalRequests + 1) c

def finishWorkAndForceRewind : VMControlInterface B I σ :=
  let c := waitForAsyncTask M c
  { c with vmInstance := M.rewindToLastCommit c.vmInstance }

def initClean : VMControlInterface B I σ := { c with vmInstance := M.initClean c.vmInstance }

def initFromDisk (index : HotstuffLMDB) (files : Hash → Option HotstuffBlockWire) :
    Except String (VMControlInterface B I σ) :=
  (M.initFromDisk index files c.vmInstance).map fun vm => { c with vmInstance := vm }

def stopProposals : VMControlInterface B I σ := { c with proposalBufferTarget := 0 }

/-! ## Waiting ends -/

@[simp] theorem blocksToValidate_makeProposal :
    (makeProposal M c).blocksToValidate = c.blocksToValidate := by
  unfold makeProposal
  split <;> rfl

@[simp] theorem highestCommittedId_makeProposal :
    (makeProposal M c).highestCommittedId = c.highestCommittedId := by
  unfold makeProposal
  split <;> rfl

@[simp] theorem proposalBufferTarget_makeProposal :
    (makeProposal M c).proposalBufferTarget = c.proposalBufferTarget := by
  unfold makeProposal
  split <;> rfl

theorem additionalProposalRequests_makeProposal :
    (makeProposal M c).additionalProposalRequests = c.additionalProposalRequests - 1 := by
  unfold makeProposal
  split
  · rfl
  · omega

/-- A pass leaves nothing to validate and no commitment, and one request less. -/
theorem round_spec : (round M c).blocksToValidate = [] ∧ (round M c).highestCommittedId = none ∧
    (round M c).additionalProposalRequests = c.additionalProposalRequests - 1 :=
  ⟨blocksToValidate_makeProposal M _, highestCommittedId_makeProposal M _,
    additionalProposalRequests_makeProposal M _⟩

theorem rounds_succ (n : ℕ) : rounds M (n + 1) c = round M (rounds M n c) := by
  induction n generalizing c with
  | zero => rfl
  | succ n ih => exact ih (round M c)

theorem additionalProposalRequests_rounds (n : ℕ) :
    (rounds M n c).additionalProposalRequests = c.additionalProposalRequests - n := by
  induction n with
  | zero => rfl
  | succ n ih => rw [rounds_succ, (round_spec M _).2.2, ih, Nat.sub_sub]

/-- **The wait of `wait_for_async_task` ends**: after as many passes there is no work left. -/
theorem existsWorkToDo_waitForAsyncTask : existsWorkToDo (waitForAsyncTask M c) = false := by
  have hrequests := additionalProposalRequests_rounds M c (c.additionalProposalRequests + 1)
  obtain ⟨hblocks, hcommitted, -⟩ := round_spec M (rounds M c.additionalProposalRequests c)
  rw [← rounds_succ] at hblocks hcommitted
  unfold waitForAsyncTask existsWorkToDo
  rw [hblocks, hcommitted, hrequests, Nat.sub_eq_zero_of_le (Nat.le_succ _)]
  simp

end VMControlInterface

end Fred.Hotstuff
