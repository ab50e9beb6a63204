/-
# Fred.Vm.Bridges -- the two bridges between consensus and the machine

`hotstuff_vm_bridge.h` and `nonspeculative_vm_bridge.h`. Both throw while they are not initialized; an
app initializes its bridge before anything else is called, so a bridge here is one that is initialized.
The lock on the speculation map is always available here; `Vm/Locking` says which calls wait for
themselves. Writing the index entry is part of `applyBlock` of the replica, which does it the same way
for both.

The machine's thread and the threads that switch proposing on and off reach a `HotstuffVMBridge` at any
time (`BridgeAct`). A bridge that is played as part of a replica has a schedule of what they do before
each call of consensus, and keeps the calls made on it (`Played`).
-/
import Fred.Hotstuff.Replica
import Fred.Vm.SpeculativeExecGadget
import Fred.Vm.ControlInterface
import Fred.Lib.Transition

namespace Fred.Hotstuff

open Fred.Transition

variable {B I σ : Type}

/-! ## `HotstuffVMBridge` -/

structure HotstuffVMBridge (B I σ : Type) where
  speculationMap : SpeculativeExecGadget (Option I)
  vmInterface : VMControlInterface B I σ

namespace HotstuffVMBridge

/-- The constructor. -/
def make (vm : σ) : HotstuffVMBridge B I σ := ⟨.make, .make vm⟩

section
variable (M : VMType B I σ)

/-- `init_clean` of a bridge that was just made. -/
def initClean : HotstuffVMBridge B I σ := ⟨.make, (VMControlInterface.make M.fresh).initClean M⟩

/-- `init_from_disk` of a bridge that was just made. -/
def initFromDisk (index : HotstuffLMDB) (files : Hash → Option HotstuffBlockWire)
    (decidedHotstuffHeight : ℕ) : Except String (HotstuffVMBridge B I σ) :=
  ((VMControlInterface.make M.fresh).initFromDisk M index files).map
    fun vmInterface => ⟨.initFromDisk decidedHotstuffHeight, vmInterface⟩

variable (b : HotstuffVMBridge B I σ)

def makeEmptyProposal (proposalHeight : ℕ) : List UInt8 × HotstuffVMBridge B I σ :=
  ([], { b with speculationMap := b.speculationMap.addHeightPair proposalHeight none })

/-- `get_and_apply_next_proposal`; `extra` is as in `getProposal`. -/
def getAndApplyNextProposal (extra proposalHeight : ℕ) : List UInt8 × HotstuffVMBridge B I σ :=
  match b.vmInterface.getProposal M extra with
  | (none, vmInterface) =>
    ([], ⟨b.speculationMap.addHeightPair proposalHeight none, vmInterface⟩)
  | (some proposal, vmInterface) =>
    (M.toOpaque proposal,
      ⟨b.speculationMap.addHeightPair proposalHeight (some (M.nonemptyBlockId proposal)), vmInterface⟩)

/-- The end of `apply_block`, where the block has not been executed speculatively. -/
def submitBlock (height : ℕ) (blkValue : Option B) : HotstuffVMBridge B I σ :=
  ⟨b.speculationMap.addHeightPair height (M.getBlockId blkValue),
    b.vmInterface.submitBlockForExec blkValue⟩

/-- `apply_block` on a block of the given height and body. -/
def applyBlock [DecidableEq I] (height : ℕ) (body : List UInt8) : HotstuffVMBridge B I σ :=
  let blkValue := M.tryVmParse body
  match b.speculationMap.heightMap with
  | [] => submitBlock M b height blkValue
  | (_, speculativeBlockId) :: _ =>
    if M.getBlockId blkValue = speculativeBlockId then b
    else
      submitBlock M ⟨b.speculationMap.clear, b.vmInterface.finishWorkAndForceRewind M⟩ height blkValue

def notifyVmOfCommitment (height : ℕ) : Except String (HotstuffVMBridge B I σ) :=
  (b.speculationMap.onCommitHotstuff height).map fun (committedBlockId, speculationMap) =>
    ⟨speculationMap, b.vmInterface.logCommitment committedBlockId⟩

end

end HotstuffVMBridge

/-- What other threads do to the bridge while consensus is not in a call on it. -/
inductive BridgeAct where
  /-- The machine's thread makes a pass. -/
  | round
  | putVmInProposerMode
  | stopProposals
  deriving DecidableEq, Repr

/-- What happens to the bridge. -/
inductive BridgeCall where
  | act (a : BridgeAct)
  | makeEmptyProposal (proposalHeight : ℕ)
  | getAndApplyNextProposal (extra proposalHeight : ℕ)
  | applyBlock (height : ℕ) (body : List UInt8)
  | notifyVmOfCommitment (height : ℕ)
  deriving DecidableEq, Repr

namespace HotstuffVMBridge

variable (M : VMType B I σ) (b : HotstuffVMBridge B I σ)

def act (a : BridgeAct) : HotstuffVMBridge B I σ :=
  { b with vmInterface := match a with
      | .round => b.vmInterface.round M
      | .putVmInProposerMode => b.vmInterface.setProposer
      | .stopProposals => b.vmInterface.stopProposals }

variable [DecidableEq I]

def call : BridgeCall → HotstuffVMBridge B I σ → Except String (HotstuffVMBridge B I σ)
  | .act a, b => .ok (b.act M a)
  | .makeEmptyProposal height, b => .ok (b.makeEmptyProposal height).2
  | .getAndApplyNextProposal extra height, b => .ok (b.getAndApplyNextProposal M extra height).2
  | .applyBlock height body, b => .ok (b.applyBlock M height body)
  | .notifyVmOfCommitment height, b => b.notifyVmOfCommitment height

end HotstuffVMBridge

/-! ## The bridge as a part of `HotstuffApp` -/

/-- A bridge with what other threads will do to it and what has happened to it. -/
structure Played (B I σ : Type) where
  bridge : HotstuffVMBridge B I σ
  /-- What other threads do before each of the next calls. -/
  schedule : List (List BridgeAct)
  /-- How many passes beyond the needed one the machine's thread makes in each of the next waits. -/
  waits : List ℕ
  /-- What has happened, each with the bridge it found. -/
  calls : List (HotstuffVMBridge B I σ × BridgeCall)

namespace Played

variable [DecidableEq I] (M : VMType B I σ)

def play (c : BridgeCall) (v : Played B I σ) : Except String (Played B I σ) :=
  (v.bridge.call M c).map fun b => { v with bridge := b, calls := v.calls ++ [(v.bridge, c)] }

def playAct (v : Played B I σ) (a : BridgeAct) : Played B I σ :=
  { v with bridge := v.bridge.act M a, calls := v.calls ++ [(v.bridge, .act a)] }

/-- Other threads do what the schedule says. -/
def others (v : Played B I σ) : Played B I σ :=
  match v.schedule with
  | [] => v
  | acts :: rest => acts.foldl (playAct M) { v with schedule := rest }

omit [DecidableEq I] in
variable {M} in
/-- What each action of another thread keeps, other threads keep. -/
theorem others_keeps {P : Played B I σ → Prop} (hact : ∀ v a, P v → P (playAct M v a))
    {v : Played B I σ} (h : ∀ rest, P { v with schedule := rest }) : P (others M v) := by
  have hfold : ∀ (acts : List BridgeAct) (w : Played B I σ), P w → P (acts.foldl (playAct M) w) := by
    intro acts
    induction acts with
    | nil => exact fun w hw => hw
    | cons a acts ih => exact fun w hw => ih _ (hact w a hw)
  unfold others
  split
  · exact h v.schedule
  · exact hfold _ _ (h _)

/-- `get_next_vm_block` of `HotstuffApp`. -/
def getNextVmBlock (nonemptyProposal : Bool) (height : ℕ) (v : Played B I σ) :
    Except String (List UInt8 × Played B I σ) :=
  let v := others M v
  if nonemptyProposal then
    let extra := v.waits.headD 0
    (play M (.getAndApplyNextProposal extra height) { v with waits := v.waits.tail }).map
      ((v.bridge.getAndApplyNextProposal M extra height).1, ·)
  else (play M (.makeEmptyProposal height) v).map ((v.bridge.makeEmptyProposal height).1, ·)

/-- The bridge of a `HotstuffApp` whose other threads do as said. -/
def vmBridge (schedule : List (List BridgeAct)) (waits : List ℕ) : VmBridge (Played B I σ) where
  initClean := ⟨.initClean M, schedule, waits, []⟩
  initFromDisk := fun index files height =>
    (HotstuffVMBridge.initFromDisk M index files height).map (⟨·, schedule, waits, []⟩)
  getNextVmBlock := getNextVmBlock M
  blockId := fun body => M.serialize (M.getBlockId (M.tryVmParse body))
  applyBlock := fun height body v => play M (.applyBlock height body) (others M v)
  notifyVmOfCommitment := fun height v => play M (.notifyVmOfCommitment height) (others M v)
  run := others M

end Played

/-! ## `NonspeculativeVMBridge` -/

structure NonspeculativeVMBridge (σ : Type) where
  vm : σ
  /-- `proposal_buffer`: proposals enter at the front and leave at the back. -/
  proposalBuffer : List (List UInt8)

namespace NonspeculativeVMBridge

variable (M : VMType B I σ)

/-- `init_clean` of a bridge that was just made: the machine is as it was constructed. -/
def initClean : NonspeculativeVMBridge σ := ⟨M.fresh, []⟩

/-- `init_from_disk` of a bridge that was just made: the machine is as it was constructed. -/
def initFromDisk (_decidedBlockIndex : HotstuffLMDB) (_decidedHotstuffHeight : ℕ) :
    NonspeculativeVMBridge σ :=
  ⟨M.fresh, []⟩

variable (b : NonspeculativeVMBridge σ)

def makeEmptyProposal (_proposalHeight : ℕ) : List UInt8 := []

def getNextProposal (_proposalHeight : ℕ) : List UInt8 × NonspeculativeVMBridge σ :=
  match b.proposalBuffer.getLast? with
  | none => ([], b)
  | some proposal => (proposal, { b with proposalBuffer := b.proposalBuffer.dropLast })

/-- `apply_block`: the block is executed whether or not it is null. -/
def applyBlock (_height : ℕ) (body : List UInt8) : Except String (NonspeculativeVMBridge σ) :=
  match M.tryVmParse body with
  | some blk => .ok { b with vm := M.execBlock blk b.vm }
  | none => (M.execNull b.vm).map fun vm => { b with vm := vm }

def notifyVmOfCommitment (_height : ℕ) : NonspeculativeVMBridge σ := b

def addProposal (proposal : List UInt8) : NonspeculativeVMBridge σ :=
  { b with proposalBuffer := proposal :: b.proposalBuffer }

/-- The bridge of a `NonspeculativeHotstuffApp`. The machine has no thread of its own. -/
def vmBridge : VmBridge (NonspeculativeVMBridge σ) where
  initClean := initClean M
  initFromDisk := fun index _ height => .ok (initFromDisk M index height)
  getNextVmBlock := fun nonemptyProposal height b =>
    .ok (if nonemptyProposal then b.getNextProposal height else (makeEmptyProposal height, b))
  blockId := fun body => M.serialize (M.getBlockId (M.tryVmParse body))
  applyBlock := fun height body b => b.applyBlock M height body
  notifyVmOfCommitment := fun height b => .ok (b.notifyVmOfCommitment height)
  run := id

end NonspeculativeVMBridge

end Fred.Hotstuff
