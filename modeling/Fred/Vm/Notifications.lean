/-
# Fred.Vm.Notifications -- every commit notification finds its block

Consensus calls `apply_block` and then `notify_vm_of_commitment` for the decided blocks in the order of
their heights. Proposals may be asked for at any time, also between the two, and at any height: the
gadget records them, or drops them where the height is not the next one. Whatever it has recorded, after
`apply_block` its lowest entry is the block just applied (`Expects`), because the block either was the
lowest entry, or is put into an empty map.
-/
import Fred.Vm.Bridges
import Fred.Vm.CountingVM

namespace Fred.Hotstuff

open Fred.Transition

variable {B I σ : Type} {M : VMType B I σ}

/-- A bridge and where consensus is with its calls. -/
structure CommitPairs (B I σ : Type) where
  bridge : HotstuffVMBridge B I σ
  /-- The height of the last block that was notified of, or the initialised one. -/
  decided : ℕ
  /-- The body of the block that was applied and has not been notified of. -/
  applied : Option (List UInt8)

namespace CommitPairs

/-- A call on the bridge. Blocks are applied and notified of in pairs, each one height above the last;
all other calls are free. -/
def Allowed (s : CommitPairs B I σ) : BridgeCall → Prop
  | .applyBlock height _ => s.applied = none ∧ height = s.decided + 1
  | .notifyVmOfCommitment height => s.applied ≠ none ∧ height = s.decided + 1
  | _ => True

instance (s : CommitPairs B I σ) : (c : BridgeCall) → Decidable (s.Allowed c)
  | .applyBlock height _ => inferInstanceAs (Decidable (s.applied = none ∧ height = s.decided + 1))
  | .notifyVmOfCommitment height =>
    inferInstanceAs (Decidable (s.applied ≠ none ∧ height = s.decided + 1))
  | .act _ => .isTrue trivial
  | .makeEmptyProposal _ => .isTrue trivial
  | .getAndApplyNextProposal _ _ => .isTrue trivial

/-- Where consensus is after a call that returned. -/
def after (s : CommitPairs B I σ) (c : BridgeCall) (b : HotstuffVMBridge B I σ) :
    CommitPairs B I σ :=
  match c with
  | .applyBlock _ body => { s with bridge := b, applied := some body }
  | .notifyVmOfCommitment height => ⟨b, height, none⟩
  | _ => { s with bridge := b }

def step [DecidableEq I] (M : VMType B I σ) (c : BridgeCall) (s : CommitPairs B I σ) :
    Except String (CommitPairs B I σ) :=
  (s.bridge.call M c).map (s.after c)

/-- A bridge after `init_clean`, or after `init_from_disk` at some decided height. -/
inductive Initialised (M : VMType B I σ) : CommitPairs B I σ → Prop
  | clean : Initialised M ⟨.initClean M, 0, none⟩
  | disk {index : HotstuffLMDB} {files : Hash → Option HotstuffBlockWire} {height : ℕ}
      {b : HotstuffVMBridge B I σ} (h : HotstuffVMBridge.initFromDisk M index files height = .ok b) :
      Initialised M ⟨b, height, none⟩

/-- The gadget is at the height of consensus, and a block that was applied is its lowest entry. -/
structure Expects (M : VMType B I σ) (s : CommitPairs B I σ) : Prop where
  committed_eq : s.bridge.speculationMap.highestCommittedHeight = s.decided
  front : ∀ body, s.applied = some body → ∃ rest,
    s.bridge.speculationMap.heightMap = (s.decided + 1, M.getBlockId (M.tryVmParse body)) :: rest

variable {s s' s₀ : CommitPairs B I σ}

theorem expects_of_initialised (h : Initialised M s) : Expects M s := by
  cases h with
  | clean => exact ⟨rfl, fun _ h => by cases h⟩
  | disk h =>
      obtain ⟨c, -, rfl⟩ := exists_of_map_ok h
      exact ⟨rfl, fun _ h => by cases h⟩

/-- An entry at the end leaves the lowest one where it is. -/
theorem Expects.addHeightPair (X : Expects M s) (c : VMControlInterface B I σ) (height : ℕ)
    (id : Option I) :
    Expects M { s with bridge := ⟨s.bridge.speculationMap.addHeightPair height id, c⟩ } where
  committed_eq := by
    rw [SpeculativeExecGadget.highestCommittedHeight_addHeightPair]
    exact X.committed_eq
  front := by
    intro body hbody
    obtain ⟨rest, hrest⟩ := X.front body hbody
    rw [SpeculativeExecGadget.heightMap_addHeightPair]
    split
    · rw [hrest]
      exact ⟨_, List.cons_append⟩
    · exact ⟨rest, hrest⟩

/-- A block that is put into an empty map is its lowest entry. -/
theorem expects_submitted {map : SpeculativeExecGadget (Option I)} (hempty : map.heightMap = [])
    (c : VMControlInterface B I σ) (body : List UInt8) :
    Expects M ⟨⟨map.addHeightPair (map.highestCommittedHeight + 1)
      (M.getBlockId (M.tryVmParse body)), c⟩, map.highestCommittedHeight, some body⟩ where
  committed_eq := SpeculativeExecGadget.highestCommittedHeight_addHeightPair _ _ _
  front := by
    intro body' hbody'
    obtain rfl := Option.some.inj hbody'
    exact ⟨[], map.heightMap_addHeightPair_empty hempty _⟩

variable [DecidableEq I]

/-- **`apply_block` leaves its block as the lowest entry.** -/
theorem Expects.applyBlock (X : Expects M s) (body : List UInt8) :
    Expects M ⟨s.bridge.applyBlock M (s.decided + 1) body, s.decided, some body⟩ := by
  rw [← X.committed_eq]
  unfold HotstuffVMBridge.applyBlock
  dsimp only
  cases hmap : s.bridge.speculationMap.heightMap with
  | nil => exact expects_submitted hmap _ body
  | cons front rest =>
      dsimp only
      by_cases hid : M.getBlockId (M.tryVmParse body) = front.2
      · -- the lowest entry is the block already
        rw [if_pos hid]
        refine ⟨rfl, fun body' hbody' => ?_⟩
        obtain rfl := Option.some.inj hbody'
        have hheight := s.bridge.speculationMap.front_height hmap
        exact ⟨rest, hmap.trans (by rw [hid, ← hheight])⟩
      · -- everything speculated is dropped, and the committed height stays
        rw [if_neg hid]
        exact expects_submitted s.bridge.speculationMap.heightMap_clear _ body

omit [DecidableEq I] in
/-- **The notification gets through**, with the identifier of the applied block. -/
theorem Expects.notifyVmOfCommitment (X : Expects M s) {body : List UInt8}
    (hbody : s.applied = some body) : ∃ map,
    s.bridge.notifyVmOfCommitment (s.decided + 1) = .ok
      ⟨map, s.bridge.vmInterface.logCommitment (M.getBlockId (M.tryVmParse body))⟩ ∧
    map.highestCommittedHeight = s.decided + 1 := by
  obtain ⟨rest, hrest⟩ := X.front body hbody
  obtain ⟨map, hcommit, -, hcommitted⟩ := s.bridge.speculationMap.onCommitHotstuff_cons hrest
  rw [X.committed_eq] at hcommit hcommitted
  refine ⟨map, ?_, hcommitted⟩
  unfold HotstuffVMBridge.notifyVmOfCommitment
  rw [hcommit]
  rfl

/-- **Step lemma.** -/
theorem Expects.step (X : Expects M s) {c : BridgeCall} (hallowed : s.Allowed c)
    (h : step M c s = .ok s') : Expects M s' := by
  obtain ⟨b, hcall, rfl⟩ := exists_of_map_ok h
  cases c with
  | act a =>
      obtain rfl := Except.ok.inj hcall
      exact ⟨X.committed_eq, X.front⟩
  | makeEmptyProposal height =>
      obtain rfl := Except.ok.inj hcall
      exact X.addHeightPair _ height none
  | getAndApplyNextProposal extra height =>
      obtain rfl := Except.ok.inj hcall
      unfold HotstuffVMBridge.getAndApplyNextProposal
      rcases s.bridge.vmInterface.getProposal M extra with ⟨_ | proposal, c⟩
      · exact X.addHeightPair c height none
      · exact X.addHeightPair c height _
  | applyBlock height body =>
      obtain ⟨-, rfl⟩ := hallowed
      obtain rfl := Except.ok.inj hcall
      exact X.applyBlock body
  | notifyVmOfCommitment height =>
      obtain ⟨happlied, rfl⟩ := hallowed
      obtain ⟨body, hbody⟩ := Option.ne_none_iff_exists'.mp happlied
      obtain ⟨map, hnotify, hcommitted⟩ := X.notifyVmOfCommitment hbody
      obtain rfl := Except.ok.inj (hnotify.symm.trans hcall)
      exact ⟨hcommitted, fun _ h => by cases h⟩

/-- **Run lemma.** -/
theorem expects_of_reach (hinit : Initialised M s₀) (h : Reach (step M) Allowed s₀ s) :
    Expects M s :=
  h.invariant (expects_of_initialised hinit) fun _ _ _ X hallowed hstep => X.step hallowed hstep

/-- **Commit notifications never fail.** In every state of every run, if a block has been applied and not
notified of, `notify_vm_of_commitment` on it returns and has passed the identifier of that block, and
nothing else, to `log_commitment`. -/
theorem commit_notified (hinit : Initialised M s₀) (h : Reach (step M) Allowed s₀ s)
    {body : List UInt8} (hbody : s.applied = some body) : ∃ map,
    s.bridge.notifyVmOfCommitment (s.decided + 1) = .ok
      ⟨map, s.bridge.vmInterface.logCommitment (M.getBlockId (M.tryVmParse body))⟩ := by
  obtain ⟨map, hnotify, -⟩ := (expects_of_reach hinit h).notifyVmOfCommitment hbody
  exact ⟨map, hnotify⟩

/-- A proposal is recorded at height 1, and a null block is decided there. -/
def foreignBlock : List BridgeCall :=
  [.act .putVmInProposerMode, .getAndApplyNextProposal 0 1, .applyBlock 1 [], .makeEmptyProposal 2]

theorem commit_notified_foreign :
    ∃ s, Reach (step CountingVM.vmType) Allowed ⟨.initClean CountingVM.vmType, 0, none⟩ s ∧
      s.applied = some [] ∧ ∃ map,
        s.bridge.notifyVmOfCommitment (s.decided + 1) = .ok
          ⟨map, s.bridge.vmInterface.logCommitment
            (CountingVM.vmType.getBlockId (CountingVM.vmType.tryVmParse []))⟩ := by
  have hrun : (runListIf (step CountingVM.vmType) (fun s c => decide (s.Allowed c)) foreignBlock
      ⟨.initClean CountingVM.vmType, 0, none⟩).map CommitPairs.applied = some (some []) := by
    decide +kernel
  obtain ⟨s, hs, happlied⟩ := Option.map_eq_some_iff.mp hrun
  have hreach : Reach (step CountingVM.vmType) Allowed ⟨.initClean CountingVM.vmType, 0, none⟩ s :=
    Reach.of_runListIf (fun _ _ => of_decide_eq_true) hs
  exact ⟨s, hreach, happlied, commit_notified .clean hreach happlied⟩

end CommitPairs

end Fred.Hotstuff
