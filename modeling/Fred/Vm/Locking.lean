/-
# Fred.Vm.Locking -- who holds the lock of the speculation map

The calls of a `HotstuffVMBridge` with the lock scopes of the source. `clear` and `on_commit_hotstuff`
of the gadget take its mutex themselves; the other methods leave that to the caller, and the bridge
takes it in `make_empty_proposal`, `get_and_apply_next_proposal` and `apply_block`. So `apply_block`
must not call `clear`, which it does when it rewinds.

A call that gets through does what `Vm/Bridges` says (`run_call`); `never_relocks_iff` says which
calls do.
-/
import Fred.Vm.Bridges
import Fred.Vm.CountingVM
import Fred.Lib.Mutex

namespace Fred.Hotstuff

open Fred.Mutex

namespace HotstuffVMBridge

variable {B I σ : Type}

/-- A piece of a call on the bridge. -/
abbrev Locking (B I σ α : Type) := Mutex.Section String (HotstuffVMBridge B I σ) α

namespace Locking

open Mutex.Section

/-! ## Methods of the gadget -/

/-- `add_height_pair`: the caller holds the lock. -/
def addHeightPair (hotstuffHeight : ℕ) (vmValue : Option I) : Locking B I σ Unit :=
  modify fun b => { b with speculationMap := b.speculationMap.addHeightPair hotstuffHeight vmValue }

/-- `clear` takes the lock. -/
def clear : Locking B I σ Unit :=
  lockGuard <| modify fun b => { b with speculationMap := b.speculationMap.clear }

/-- `on_commit_hotstuff` takes the lock. -/
def onCommitHotstuff (hotstuffHeight : ℕ) : Locking B I σ (Option I) :=
  lockGuard <| tryCall fun b =>
    (b.speculationMap.onCommitHotstuff hotstuffHeight).map fun (out, speculationMap) =>
      (out, { b with speculationMap := speculationMap })

/-! ## Methods of the bridge -/

def revertToLastCommitment : Locking B I σ Unit := clear

def makeEmptyProposal (proposalHeight : ℕ) : Locking B I σ (List UInt8) :=
  lockGuard do
    addHeightPair proposalHeight none
    return []

variable (M : VMType B I σ)

def getProposal (extra : ℕ) : Locking B I σ (Option B) :=
  Section.call fun b =>
    ((b.vmInterface.getProposal M extra).1,
      { b with vmInterface := (b.vmInterface.getProposal M extra).2 })

def getAndApplyNextProposal (extra proposalHeight : ℕ) : Locking B I σ (List UInt8) :=
  lockGuard do
    match ← getProposal M extra with
    | none =>
      addHeightPair proposalHeight none
      return []
    | some proposal =>
      addHeightPair proposalHeight (some (M.nonemptyBlockId proposal))
      return M.toOpaque proposal

def finishWorkAndForceRewind : Locking B I σ Unit :=
  modify fun b => { b with vmInterface := b.vmInterface.finishWorkAndForceRewind M }

def submitBlockForExec (blk : Option B) : Locking B I σ Unit :=
  modify fun b => { b with vmInterface := b.vmInterface.submitBlockForExec blk }

/-- The end of `apply_block`. -/
def submit (height : ℕ) (blkValue : Option B) : Locking B I σ Unit := do
  addHeightPair height (M.getBlockId blkValue)
  submitBlockForExec blkValue

variable [DecidableEq I]

def applyBlock (height : ℕ) (body : List UInt8) : Locking B I σ Unit :=
  lockGuard do
    let blkValue := M.tryVmParse body
    match (← get).speculationMap.heightMap with
    | [] => submit M height blkValue
    | (_, speculativeBlockId) :: _ =>
      if M.getBlockId blkValue = speculativeBlockId then return ()
      else
        revertToLastCommitment
        finishWorkAndForceRewind M
        submit M height blkValue

def logCommitment (id : Option I) : Locking B I σ Unit :=
  modify fun b => { b with vmInterface := b.vmInterface.logCommitment id }

def notifyVmOfCommitment (height : ℕ) : Locking B I σ Unit := do
  let committedBlockId ← onCommitHotstuff height
  logCommitment committedBlockId

/-- What happens to the bridge, with its locks. The other threads do not touch the gadget. -/
def call : BridgeCall → Locking B I σ Unit
  | .act a => modify fun b => b.act M a
  | .makeEmptyProposal height => do
    let _ ← makeEmptyProposal height
  | .getAndApplyNextProposal extra height => do
    let _ ← getAndApplyNextProposal M extra height
  | .applyBlock height body => applyBlock M height body
  | .notifyVmOfCommitment height => notifyVmOfCommitment height

/-! ## Which calls get through -/

/-- What `apply_block` is given is what was speculated at the lowest height, if anything was. -/
def FollowsSpeculation (c : BridgeCall) (b : HotstuffVMBridge B I σ) : Prop :=
  match c with
  | .applyBlock _ body =>
    ∀ e ∈ b.speculationMap.heightMap.head?, M.getBlockId (M.tryVmParse body) = e.2
  | _ => True

variable {M} {b : HotstuffVMBridge B I σ}

/-- `apply_block` rewinds inside its own scope: `clear` waits for it. -/
theorem run_applyBlock_rewind {height : ℕ} {body : List UInt8} {front : ℕ × Option I}
    {rest : List (ℕ × Option I)} (hmap : b.speculationMap.heightMap = front :: rest)
    (hne : M.getBlockId (M.tryVmParse body) ≠ front.2) :
    (applyBlock M height body).run b = .deadlocked := by
  simp [applyBlock, Section.run, hmap, hne, revertToLastCommitment, clear]

/-- **A call that gets through does what the bridge does when the lock is always available.** -/
theorem run_call (c : BridgeCall) (h : FollowsSpeculation M c b) :
    (call M c).run b = match b.call M c with
      | .ok b' => .returned ((), b')
      | .error e => .threw e := by
  cases c with
  | act a => rfl
  | makeEmptyProposal height => rfl
  | getAndApplyNextProposal extra height =>
      simp only [call, getAndApplyNextProposal, Section.run, HotstuffVMBridge.call,
        HotstuffVMBridge.getAndApplyNextProposal, bind_apply, lockGuard_false, getProposal,
        call_apply]
      rcases b.vmInterface.getProposal M extra with ⟨_ | proposal, vmInterface⟩ <;> rfl
  | applyBlock height body =>
      simp only [call, applyBlock, Section.run, HotstuffVMBridge.call, HotstuffVMBridge.applyBlock,
        bind_apply, lockGuard_false, get_apply]
      cases hmap : b.speculationMap.heightMap with
      | nil => rfl
      | cons front rest =>
          have hid : M.getBlockId (M.tryVmParse body) = front.2 := h front (by simp [hmap])
          simp [hid]
  | notifyVmOfCommitment height =>
      simp only [call, notifyVmOfCommitment, Section.run, HotstuffVMBridge.call,
        HotstuffVMBridge.notifyVmOfCommitment, bind_apply, onCommitHotstuff, lockGuard_false,
        tryCall_apply]
      cases b.speculationMap.onCommitHotstuff height <;> rfl

variable (M)

/-- The call does not ask for the lock while it holds it, and `apply_block` reaches its return. -/
def NeverRelocks (c : BridgeCall) (b : HotstuffVMBridge B I σ) : Prop :=
  (call M c).run b ≠ .deadlocked ∧
    ∀ height body, c = .applyBlock height body → ∃ b', (call M c).run b = .returned ((), b')

variable {M}

theorem neverRelocks_call_iff (c : BridgeCall) (b : HotstuffVMBridge B I σ) :
    NeverRelocks M c b ↔ FollowsSpeculation M c b := by
  constructor
  · rintro ⟨hrun, -⟩
    cases c with
    | applyBlock height body =>
        intro e he
        by_contra hne
        cases hmap : b.speculationMap.heightMap with
        | nil => simp [hmap] at he
        | cons front rest =>
            obtain rfl : front = e := by simpa [hmap] using he
            exact hrun (run_applyBlock_rewind hmap hne)
    | _ => trivial
  · intro h
    have hrun := run_call c h
    constructor
    · rw [hrun]
      cases b.call M c <;> exact nofun
    · rintro height body rfl
      exact ⟨_, hrun⟩

variable (M)

/-- **No call relocks exactly where no decided block beats a speculated one.** In every run, every call
gets by without asking for the lock it holds if and only if every `apply_block` of the run is given
what was speculated at the lowest height, or finds nothing speculated. -/
theorem never_relocks_iff (cs : List BridgeCall) (b : HotstuffVMBridge B I σ) :
    AllCalls (call M) (NeverRelocks M) cs b ↔ AllCalls (call M) (FollowsSpeculation M) cs b :=
  allCalls_congr neverRelocks_call_iff cs b

/-- The block `[7]` of another replica is decided at the height of an own empty proposal. -/
theorem relocks_on_rewind : ¬ AllCalls (call CountingVM.vmType) (NeverRelocks CountingVM.vmType)
    [.makeEmptyProposal 1, .applyBlock 1 (Opaque.encode [7])]
      (HotstuffVMBridge.initClean CountingVM.vmType) := by
  rintro ⟨-, hrest⟩
  obtain ⟨⟨hrun, -⟩, -⟩ := hrest _ rfl
  exact hrun rfl

end Locking

end HotstuffVMBridge

end Fred.Hotstuff
