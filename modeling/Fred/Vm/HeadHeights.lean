/-
# Fred.Vm.HeadHeights -- when the gadget records a proposal

`add_height_pair` drops an entry at another height than its head. The entries `apply_block` makes are
always at the head, because they go into an empty map at the height above the committed one. An entry for
a proposal is at the height of the leaf plus one, and the leaf follows the certificates, while the head
follows what this replica has proposed since the map was last cleared. So the two agree as long as the
replica builds on its last proposal and only its own proposals are decided (`BuildsOnOwn`,
`heights_recorded`). They part when a replica proposes that has not proposed the blocks below: a new
leader (`heights_dropped`), or one whose leaf was moved back.
-/
import Fred.Vm.Leader

namespace Fred.Hotstuff

open Fred.Transition

variable {B I σ : Type}

/-! ## The calls of `add_height_pair` -/

section
variable [DecidableEq I] (M : VMType B I σ)

/-- The calls of `add_height_pair` that a call on the bridge makes, each with the gadget it finds. -/
def HotstuffVMBridge.addHeightPairs (b : HotstuffVMBridge B I σ) :
    BridgeCall → List (SpeculativeExecGadget (Option I) × ℕ)
  | .makeEmptyProposal proposalHeight => [(b.speculationMap, proposalHeight)]
  | .getAndApplyNextProposal _ proposalHeight => [(b.speculationMap, proposalHeight)]
  | .applyBlock height body =>
    match b.speculationMap.heightMap with
    | [] => [(b.speculationMap, height)]
    | (_, speculativeBlockId) :: _ =>
      if M.getBlockId (M.tryVmParse body) = speculativeBlockId then []
      else [(b.speculationMap.clear, height)]
  | .act _ => []
  | .notifyVmOfCommitment _ => []

/-- Every call of `add_height_pair` so far was at the head. -/
def Played.AtHead (v : Played B I σ) : Prop :=
  ∀ e ∈ v.calls, ∀ a ∈ e.1.addHeightPairs M e.2, a.2 = a.1.speculationHead

instance (v : Played B I σ) : Decidable (v.AtHead M) :=
  inferInstanceAs (Decidable (∀ e ∈ v.calls, ∀ a ∈ e.1.addHeightPairs M e.2,
    a.2 = a.1.speculationHead))

/-- The identifier of the block that a call asks the bridge to propose. -/
def proposedId : HotstuffVMBridge B I σ × BridgeCall → Option (Option I)
  | (_, .makeEmptyProposal _) => some none
  | (b, .getAndApplyNextProposal extra _) =>
    some ((b.vmInterface.getProposal M extra).1.map M.nonemptyBlockId)
  | _ => none

/-- The identifier of the decided block that a call hands to the bridge. -/
def appliedId : HotstuffVMBridge B I σ × BridgeCall → Option (Option I)
  | (_, .applyBlock _ body) => some (M.getBlockId (M.tryVmParse body))
  | _ => none

namespace Played

/-- The identifiers of the blocks proposed so far, first proposed first. -/
def proposedIds (v : Played B I σ) : List (Option I) := v.calls.filterMap (proposedId M)

/-- The identifiers of the blocks applied so far, lowest first. -/
def appliedIds (v : Played B I σ) : List (Option I) := v.calls.filterMap (appliedId M)

/-- After `k` commits and `n` blocks applied, as long as only own proposals were applied, the map holds
the proposals above the committed height. -/
structure Records (k n : ℕ) (v : Played B I σ) : Prop where
  committed_eq : v.bridge.speculationMap.highestCommittedHeight = k
  applied_length : (v.appliedIds M).length = n
  atHead : v.AtHead M
  own : v.appliedIds M <+: v.proposedIds M →
    v.bridge.speculationMap.heightMap.map Prod.snd = (v.proposedIds M).drop k

end Played

end

namespace Played

variable [DecidableEq I] {M : VMType B I σ} {v v' : Played B I σ} {k n : ℕ}

/-! ## One call -/

/-- What a call that was played has added to the calls. -/
theorem play_ok_calls {c : BridgeCall} (h : play M c v = .ok v') :
    v.bridge.call M c = .ok v'.bridge ∧ v'.calls = v.calls ++ [(v.bridge, c)] := by
  obtain ⟨b, hb, rfl⟩ := exists_of_map_ok h
  exact ⟨hb, rfl⟩

theorem AtHead.snoc (h : v.AtHead M) {c : BridgeCall} (hcalls : v'.calls = v.calls ++ [(v.bridge, c)])
    (hc : ∀ a ∈ v.bridge.addHeightPairs M c, a.2 = a.1.speculationHead) : v'.AtHead M := by
  unfold AtHead at h ⊢
  rw [hcalls]
  intro e he
  rcases List.mem_append.mp he with he | he
  · exact h e he
  · obtain rfl := List.mem_singleton.mp he
    exact hc

omit [DecidableEq I] in
theorem proposedIds_snoc {c : BridgeCall} (hcalls : v'.calls = v.calls ++ [(v.bridge, c)]) :
    v'.proposedIds M = v.proposedIds M ++ (proposedId M (v.bridge, c)).toList := by
  unfold proposedIds
  rw [hcalls, List.filterMap_append]
  rcases h : proposedId M (v.bridge, c) with _ | id <;> simp [h]

omit [DecidableEq I] in
theorem appliedIds_snoc {c : BridgeCall} (hcalls : v'.calls = v.calls ++ [(v.bridge, c)]) :
    v'.appliedIds M = v.appliedIds M ++ (appliedId M (v.bridge, c)).toList := by
  unfold appliedIds
  rw [hcalls, List.filterMap_append]
  rcases h : appliedId M (v.bridge, c) with _ | id <;> simp [h]

omit [DecidableEq I] in
/-- An action of another thread proposes nothing and applies nothing. -/
theorem ids_playAct (M : VMType B I σ) (v : Played B I σ) (a : BridgeAct) :
    (Played.playAct M v a).proposedIds M = v.proposedIds M ∧
      (Played.playAct M v a).appliedIds M = v.appliedIds M := by
  have hcalls : (Played.playAct M v a).calls = v.calls ++ [(v.bridge, .act a)] := rfl
  have hproposed := proposedIds_snoc (M := M) hcalls
  have happlied := appliedIds_snoc (M := M) hcalls
  simp only [proposedId, appliedId, Option.toList_none, List.append_nil] at hproposed happlied
  exact ⟨hproposed, happlied⟩

/-- What another thread does with the bridge is not recorded and leaves the map alone. -/
theorem Records.playAct (R : Records M k n v) (a : BridgeAct) :
    Records M k n (Played.playAct M v a) := by
  obtain ⟨hproposed, happlied⟩ := ids_playAct M v a
  refine ⟨R.committed_eq, ?_, R.atHead.snoc (c := .act a) rfl ?_, ?_⟩
  · rw [happlied]
    exact R.applied_length
  · intro e he
    cases he
  · rw [happlied, hproposed]
    exact R.own

theorem Records.others (R : Records M k n v) : Records M k n (Played.others M v) :=
  others_keeps (fun _ a R => R.playAct a)
    fun _ => ⟨R.committed_eq, R.applied_length, R.atHead, R.own⟩

omit [DecidableEq I] in
/-- Other threads propose nothing and apply nothing. -/
theorem ids_others (M : VMType B I σ) (v : Played B I σ) :
    (Played.others M v).proposedIds M = v.proposedIds M ∧
      (Played.others M v).appliedIds M = v.appliedIds M := by
  refine others_keeps (P := fun w => w.proposedIds M = v.proposedIds M ∧
    w.appliedIds M = v.appliedIds M) ?_ fun _ => ⟨rfl, rfl⟩
  rintro w a ⟨hproposed, happlied⟩
  obtain ⟨hproposed', happlied'⟩ := ids_playAct M w a
  exact ⟨hproposed'.trans hproposed, happlied'.trans happlied⟩

/-! ## Proposals -/

/-- The call for a proposal records one entry. -/
theorem call_proposal {height : ℕ} {c : BridgeCall} {b b' : HotstuffVMBridge B I σ}
    (hc : c = .makeEmptyProposal height ∨ ∃ extra, c = .getAndApplyNextProposal extra height)
    (h : b.call M c = .ok b') :
    ∃ id, proposedId M (b, c) = some id ∧ appliedId M (b, c) = none ∧
      b.addHeightPairs M c = [(b.speculationMap, height)] ∧
      b'.speculationMap = b.speculationMap.addHeightPair height id := by
  rcases hc with rfl | ⟨extra, rfl⟩
  · obtain rfl := Except.ok.inj h
    exact ⟨none, rfl, rfl, rfl, rfl⟩
  · obtain rfl := Except.ok.inj h
    refine ⟨_, rfl, rfl, rfl, ?_⟩
    unfold HotstuffVMBridge.getAndApplyNextProposal
    rcases b.vmInterface.getProposal M extra with ⟨proposal | proposal, vmInterface⟩
    · rfl
    · rfl

/-- As long as only own proposals were applied, the head is above as many heights as there were
proposals. -/
theorem Records.head_eq (R : Records M k k v) (hown : v.appliedIds M <+: v.proposedIds M) :
    v.bridge.speculationMap.speculationHead = (v.proposedIds M).length + 1 ∧
      k ≤ (v.proposedIds M).length := by
  have hle := hown.length_le
  rw [R.applied_length] at hle
  have hlength := congrArg List.length (R.own hown)
  rw [List.length_map, List.length_drop] at hlength
  rw [v.bridge.speculationMap.head_eq, R.committed_eq, hlength]
  exact ⟨by omega, hle⟩

/-- The call for a proposal at the head. -/
theorem Records.play_proposal (R : Records M k k v) {height : ℕ} {c : BridgeCall}
    (hown : v.appliedIds M <+: v.proposedIds M) (hheight : height = (v.proposedIds M).length + 1)
    (hc : c = .makeEmptyProposal height ∨ ∃ extra, c = .getAndApplyNextProposal extra height)
    (h : play M c v = .ok v') : Records M k k v' := by
  obtain ⟨hcall, hcalls⟩ := play_ok_calls h
  obtain ⟨id, hid, hnone, hadds, hmap⟩ := call_proposal hc hcall
  obtain ⟨hhead, hle⟩ := R.head_eq hown
  have hproposed := proposedIds_snoc (M := M) hcalls
  have happlied := appliedIds_snoc (M := M) hcalls
  rw [hid, Option.toList_some] at hproposed
  rw [hnone, Option.toList_none, List.append_nil] at happlied
  refine ⟨?_, ?_, R.atHead.snoc hcalls ?_, fun _ => ?_⟩
  · rw [hmap, SpeculativeExecGadget.highestCommittedHeight_addHeightPair]
    exact R.committed_eq
  · rw [happlied]
    exact R.applied_length
  · rw [hadds]
    intro a ha
    obtain rfl := List.mem_singleton.mp ha
    exact hheight.trans hhead.symm
  · rw [hmap, SpeculativeExecGadget.heightMap_addHeightPair, if_pos (hhead.trans hheight.symm),
      List.map_append, R.own hown, hproposed, List.drop_append_of_le_length hle]
    rfl

/-- **Step lemma for a proposal** of a replica that builds on its last own. -/
theorem Records.getNextVmBlock (R : Records M k k v) {nonempty : Bool} {height : ℕ}
    {body : List UInt8} (hown : v.appliedIds M <+: v.proposedIds M)
    (hheight : height = (v.proposedIds M).length + 1)
    (h : getNextVmBlock M nonempty height v = .ok (body, v')) : Records M k k v' := by
  obtain ⟨c, waits, hc, hplay⟩ := getNextVmBlock_play h
  obtain ⟨hproposed, happlied⟩ := ids_others M v
  have R₀ : Records M k k { Played.others M v with waits := waits } :=
    ⟨R.others.committed_eq, R.others.applied_length, R.others.atHead, R.others.own⟩
  refine R₀.play_proposal ?_ ?_ hc hplay
  · show (Played.others M v).appliedIds M <+: (Played.others M v).proposedIds M
    rwa [hproposed, happlied]
  · show height = ((Played.others M v).proposedIds M).length + 1
    rwa [hproposed]

/-! ## Commits -/

/-- `apply_block` finds the block as the lowest entry and does nothing, or it makes an entry in an empty
map. -/
theorem applyBlock_cases (b : HotstuffVMBridge B I σ) (height : ℕ) (body : List UInt8) :
    ((∃ front rest, b.speculationMap.heightMap = front :: rest ∧
        M.getBlockId (M.tryVmParse body) = front.2) ∧ b.applyBlock M height body = b ∧
      b.addHeightPairs M (.applyBlock height body) = []) ∨
    ((∀ front rest, b.speculationMap.heightMap = front :: rest →
        M.getBlockId (M.tryVmParse body) ≠ front.2) ∧
      ∃ map : SpeculativeExecGadget (Option I), map.heightMap = [] ∧
        map.highestCommittedHeight = b.speculationMap.highestCommittedHeight ∧
        (b.applyBlock M height body).speculationMap =
          map.addHeightPair height (M.getBlockId (M.tryVmParse body)) ∧
        b.addHeightPairs M (.applyBlock height body) = [(map, height)]) := by
  unfold HotstuffVMBridge.applyBlock HotstuffVMBridge.addHeightPairs
  dsimp only
  cases hmap : b.speculationMap.heightMap with
  | nil =>
      refine Or.inr ⟨fun front rest h => ?_, b.speculationMap, hmap, rfl, rfl, rfl⟩
      cases h
  | cons front rest =>
      dsimp only
      by_cases hid : M.getBlockId (M.tryVmParse body) = front.2
      · rw [if_pos hid, if_pos hid]
        exact Or.inl ⟨⟨front, rest, rfl, hid⟩, rfl, rfl⟩
      · rw [if_neg hid, if_neg hid]
        refine Or.inr ⟨fun front' rest' h => ?_, b.speculationMap.clear, rfl, rfl, rfl, rfl⟩
        obtain ⟨rfl, -⟩ := List.cons.inj h
        exact hid

/-- **Step lemma for `apply_block`.** The entry it makes, if it makes one, is at the head. If the block is
the next own proposal, none is made. -/
theorem Records.applyBlock (R : Records M k k v) {body : List UInt8}
    (h : play M (.applyBlock (k + 1) body) v = .ok v') : Records M k (k + 1) v' := by
  obtain ⟨hcall, hcalls⟩ := play_ok_calls h
  have hbridge : v.bridge.applyBlock M (k + 1) body = v'.bridge := Except.ok.inj hcall
  have hproposed : v'.proposedIds M = v.proposedIds M :=
    (proposedIds_snoc hcalls).trans (List.append_nil _)
  have happlied : v'.appliedIds M = v.appliedIds M ++ [M.getBlockId (M.tryVmParse body)] :=
    appliedIds_snoc hcalls
  have hlength : (v'.appliedIds M).length = k + 1 := by
    rw [happlied, List.length_append, R.applied_length]
    rfl
  rcases applyBlock_cases (M := M) v.bridge (k + 1) body with
    ⟨-, hsame, hadds⟩ | ⟨hnew, map, hempty, hcommitted, hmap, hadds⟩
  · -- the block is the one proposed at this height: the map stays as it is
    rw [hsame] at hbridge
    refine ⟨?_, hlength, R.atHead.snoc hcalls ?_, fun hown => ?_⟩
    · rw [← hbridge]
      exact R.committed_eq
    · rw [hadds]
      intro a ha
      cases ha
    · rw [happlied, hproposed] at hown
      rw [← hbridge, hproposed]
      exact R.own ((List.prefix_append _ _).trans hown)
  · -- another block: the map was emptied, so the head is just above the committed height
    rw [hbridge] at hmap
    rw [R.committed_eq] at hcommitted
    refine ⟨?_, hlength, R.atHead.snoc hcalls ?_, fun hown => ?_⟩
    · rw [hmap, SpeculativeExecGadget.highestCommittedHeight_addHeightPair, hcommitted]
    · rw [hadds]
      intro a ha
      obtain rfl := List.mem_singleton.mp ha
      rw [map.head_eq, hempty, hcommitted]
      rfl
    · -- the next own proposal is the lowest entry, so no entry would have been made
      exfalso
      rw [happlied, hproposed] at hown
      have hids := R.own ((List.prefix_append _ _).trans hown)
      obtain ⟨rest, hrest⟩ := hown
      rw [← hrest, List.append_assoc, ← R.applied_length, List.drop_left] at hids
      obtain ⟨front, rest', hheights, hfront, -⟩ := List.map_eq_cons_iff.mp hids
      exact hnew front rest' hheights hfront.symm

/-- **Step lemma for `notify_vm_of_commitment`.** The lowest entry leaves. -/
theorem Records.notifyVmOfCommitment (R : Records M k (k + 1) v)
    (h : play M (.notifyVmOfCommitment (k + 1)) v = .ok v') : Records M (k + 1) (k + 1) v' := by
  obtain ⟨hcall, hcalls⟩ := play_ok_calls h
  have hproposed : v'.proposedIds M = v.proposedIds M :=
    (proposedIds_snoc hcalls).trans (List.append_nil _)
  have happlied : v'.appliedIds M = v.appliedIds M :=
    (appliedIds_snoc hcalls).trans (List.append_nil _)
  obtain ⟨⟨id, map⟩, hcommit, hbridge⟩ := exists_of_map_ok hcall
  obtain ⟨hheights, hcommitted⟩ := v.bridge.speculationMap.onCommitHotstuff_ok hcommit
  have hmap : v'.bridge.speculationMap = map := by rw [← hbridge]
  refine ⟨?_, ?_, R.atHead.snoc hcalls ?_, fun hown => ?_⟩
  · rw [hmap, hcommitted]
  · rw [happlied]
    exact R.applied_length
  · intro a ha
    cases ha
  · rw [happlied, hproposed] at hown
    have hids := congrArg List.tail (R.own hown)
    rw [hheights, List.map_cons, List.tail_cons, List.tail_drop] at hids
    rw [hmap, hproposed, hids]

/-- **Run lemma**: handing over decided blocks. -/
theorem Records.deliver {schedule : List (List BridgeAct)} {waits : List ℕ}
    {rest : List (List UInt8)} :
    ∀ {k : ℕ} {v v' : Played B I σ}, Records M k k v →
      (vmBridge M schedule waits).deliver k rest v = .ok v' →
      Records M (k + rest.length) (k + rest.length) v' := by
  induction rest with
  | nil =>
      intro k v v' R hdeliver
      obtain rfl := Except.ok.inj hdeliver
      exact R
  | cons body rest ih =>
      intro k v v' R hdeliver
      unfold VmBridge.deliver at hdeliver
      split at hdeliver
      · cases hdeliver
      · rename_i v₁ happly
        split at hdeliver
        · cases hdeliver
        · rename_i v₂ hnotify
          -- before each of the two calls other threads take their turn
          have R₁ : Records M k (k + 1) v₁ := R.others.applyBlock happly
          have R₂ : Records M (k + 1) (k + 1) v₂ := R₁.others.notifyVmOfCommitment hnotify
          have R' := ih R₂ hdeliver
          rw [List.length_cons, Nat.add_comm rest.length, ← Nat.add_assoc]
          exact R'

end Played

/-! ## Runs -/

/-- The leaf is as high as the number of blocks this replica has proposed, and the blocks applied so far
have the identifiers of its first proposals. -/
def BuildsOnOwn [DecidableEq I] (M : VMType B I σ) (s : Replica (Played B I σ)) : Prop :=
  s.heap.height s.bLeaf = (s.vm.proposedIds M).length ∧ s.vm.appliedIds M <+: s.vm.proposedIds M

/-- Proposals are made by a replica that builds on its own. -/
def ProposesOnOwn [DecidableEq I] (M : VMType B I σ) (s : Replica (Played B I σ)) (i : Input) : Prop :=
  i.Proposes → BuildsOnOwn M s

section
variable [DecidableEq I] {M : VMType B I σ} {E : Setup (Played B I σ)}
  {schedule : List (List BridgeAct)} {waits : List ℕ} {s s' : Replica (Played B I σ)}

/-- **Step lemma.** -/
theorem records_step (hvm : E.vm = Played.vmBridge M schedule waits) (W : WellFormed E s)
    (R : Played.Records M (s.heap.height s.bExec) (s.heap.height s.bExec) s.vm) {i : Input}
    (hown : ProposesOnOwn M s i) (h : step E i s = .ok s') :
    Played.Records M (s'.heap.height s'.bExec) (s'.heap.height s'.bExec) s'.vm := by
  rcases vm_step_cases W h with ⟨hi, nonempty, body, hnext, -, hexec⟩ | rfl | c
  · obtain ⟨hleaf, hprefix⟩ := hown hi
    rw [hvm] at hnext
    rw [hexec]
    exact R.getNextVmBlock hprefix (by rw [hleaf]) hnext
  · rw [hvm]
    exact R.others
  · cases c with
    | stay hsame _ hexec =>
        rw [hsame, hexec]
        exact R
    | @commit blocks _ hdeliver _ hexec _ =>
        rw [hvm] at hdeliver
        have R' := R.deliver hdeliver
        rw [List.length_map] at R'
        rw [hexec]
        exact R'

/-- **When proposals are recorded.** In every run in which the replica proposes only while it builds on
its own proposals, every entry has been made at the head. -/
theorem heights_recorded (hvm : E.vm = Played.vmBridge M schedule waits)
    (h : Reach (step E) (ProposesOnOwn M) (start E) s) : s.vm.AtHead M := by
  have hinit : Played.Records M ((start E).heap.height (start E).bExec)
      ((start E).heap.height (start E).bExec) (start E).vm := by
    rw [show (start E).vm = E.vm.initClean from rfl, hvm]
    refine ⟨rfl, rfl, ?_, fun _ => rfl⟩
    intro e he
    cases he
  have hinv := h.invariant_of_reach
    (I := fun s => Played.Records M (s.heap.height s.bExec) (s.heap.height s.bExec) s.vm) hinit
    fun _ _ _ hreach R hown hstep =>
      records_step hvm (wellFormed_commitLog_of_reach hreach).1 R hown hstep
  exact hinv.atHead

end

instance [DecidableEq I] (M : VMType B I σ) (s : Replica (Played B I σ)) (i : Input) :
    Decidable (ProposesOnOwn M s i) :=
  inferInstanceAs (Decidable (i.Proposes →
    s.heap.height s.bLeaf = (s.vm.proposedIds M).length ∧
      s.vm.appliedIds M <+: s.vm.proposedIds M))

/-- A leader that waits for each vote builds on its own proposals, which are committed. -/
theorem heights_recorded_waiting : ∃ s : Replica (Played UInt8 UInt8 NumberVM),
    s.appliedBlocks = [1, 2, 3, 4] ∧ s.vm.AtHead NumberVM.vmType := by
  have hrun : (runListIf (step NumberVM.setup)
      (fun s i => decide (ProposesOnOwn NumberVM.vmType s i)) NumberVM.waitingRun
      (start NumberVM.setup)).map Replica.appliedBlocks = some [1, 2, 3, 4] := by
    decide +kernel
  obtain ⟨s, hs, happlied⟩ := Option.map_eq_some_iff.mp hrun
  have hreach := Reach.of_runListIf (P := ProposesOnOwn NumberVM.vmType)
    (fun _ _ => of_decide_eq_true) hs
  exact ⟨s, happlied, heights_recorded rfl hreach⟩

namespace NumberVM

/-- Replica 1 of four. -/
def followerSetup : Setup (Played UInt8 UInt8 NumberVM) :=
  ⟨Instance.crypto, Instance.config 4, 1, 1, Played.vmBridge vmType [] []⟩

/-- Two blocks of replica 0 arrive, the second with a certificate on the first, and replica 1 takes over
with an empty proposal. -/
def takeOver : List Input :=
  Instance.deliver 1 (Instance.blockOn 0#256 ⟨0#256, 0#32, []⟩ []) 0 ++
    Instance.deliver 2 (Instance.blockOn 1#256 (Instance.certificate [0, 2, 3] 1#256) []) 0 ++
    [.doEmptyPropose]

end NumberVM

/-- A new leader proposes at height 2, and the gadget, which still waits for height 1, drops the entry. -/
theorem heights_dropped : ¬ ∀ s : Replica (Played UInt8 UInt8 NumberVM),
    Reach (step NumberVM.followerSetup) anyInput (start NumberVM.followerSetup) s →
      s.vm.AtHead NumberVM.vmType := by
  intro hall
  have hrun : Instance.observe NumberVM.followerSetup NumberVM.takeOver (fun s =>
      decide (s.vm.AtHead NumberVM.vmType)) = some false := by
    decide +kernel
  obtain ⟨s, hreach, hobs⟩ := Instance.exists_of_observe hrun
  exact of_decide_eq_false hobs (hall s hreach)

end Fred.Hotstuff
