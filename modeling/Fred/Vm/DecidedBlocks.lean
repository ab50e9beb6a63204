/-
# Fred.Vm.DecidedBlocks -- what a machine is made to execute by decided blocks

Consensus hands a decided block to its bridge by `apply_block` and `notify_vm_of_commitment`, height
after height (`VmBridge.deliver`). Without proposals of its own, a `HotstuffVMBridge` passes exactly the
blocks that parse to the machine, whenever the machine's thread gets to run (`Following`). A
`NonspeculativeVMBridge` executes every block, a null one too, so the two agree on the sequences all of
whose bodies parse (`bridges_agree_iff`).
-/
import Fred.Vm.Bridges
import Fred.Vm.CountingVM
import Fred.Vm.Delivery

namespace Fred.Hotstuff

variable {B I σ V : Type}

/-! ## Decided blocks and the calls for them -/

/-- An initialized bridge of an app whose highest decided height is `k`. -/
def VmBridge.Starts (E : VmBridge V) (k : ℕ) (v : V) : Prop :=
  (k = 0 ∧ v = E.initClean) ∨ ∃ index files, E.initFromDisk index files k = .ok v

/-- The argument of an `exec_block`. -/
def VmCall.executed : VmCall B I → Option (Option B)
  | .exec blk => some blk
  | _ => none

section
variable (M : VMType B I σ)

/-- A call that executes one of the blocks or says that it is committed. -/
def VmCall.IsFor (blks : List B) (c : VmCall B I) : Prop :=
  ∃ blk ∈ blks, c = .exec (some blk) ∨ c = .logCommitment (M.nonemptyBlockId blk)

/-- The blocks that parse were executed, in order, and nothing was done for the other bodies. -/
structure ExecutesParsed (bodies : List (List UInt8)) (calls : List (VmCall B I)) : Prop where
  executed_eq : calls.filterMap VmCall.executed = (M.parsed bodies).map some
  isFor : ∀ c ∈ calls, c.IsFor M (M.parsed bodies)

theorem VmCall.IsFor.mono {blks blks' : List B} {c : VmCall B I} (h : c.IsFor M blks)
    (hsub : ∀ blk ∈ blks, blk ∈ blks') : c.IsFor M blks' := by
  obtain ⟨blk, hblk, hc⟩ := h
  exact ⟨blk, hsub blk hblk, hc⟩

/-- The calls of a pass for the blocks to validate. -/
theorem foldl_validate_recorded (blks : List (Option B)) (s : σ × List (VmCall B I)) :
    (blks.foldl (VMControlInterface.validate M.recorded) s).2 =
      s.2 ++ (blks.filterMap id).map (fun blk => .exec (some blk)) := by
  induction blks generalizing s with
  | nil => simp
  | cons blk blks ih =>
      rw [List.foldl_cons, ih]
      cases blk with
      | none => rfl
      | some blk => simp [VMControlInterface.validate, VMType.recorded]

theorem executed_exec (blks : List B) :
    (blks.map fun blk => (VmCall.exec (some blk) : VmCall B I)).filterMap VmCall.executed =
      blks.map some := by
  induction blks with
  | nil => rfl
  | cons blk blks ih => simp [VmCall.executed, ih]

end

/-! ## A speculating bridge without proposals -/

section
variable (M : VMType B I σ)

/-- The bridge after the bodies were handed over and up to height `k` notified: what was executed and
what waits for the thread are together the blocks that parse. -/
structure Following (k : ℕ) (bodies : List (List UInt8))
    (b : HotstuffVMBridge B I (σ × List (VmCall B I))) : Prop where
  committed_eq : b.speculationMap.highestCommittedHeight = k
  no_requests : b.vmInterface.additionalProposalRequests = 0
  executed_eq : b.vmInterface.vmInstance.2.filterMap VmCall.executed ++
    (b.vmInterface.blocksToValidate.filterMap id).map some = (M.parsed bodies).map some
  isFor : ∀ c ∈ b.vmInterface.vmInstance.2, c.IsFor M (M.parsed bodies)
  pending : ∀ id ∈ b.vmInterface.highestCommittedId, ∃ blk ∈ M.parsed bodies,
    M.nonemptyBlockId blk = id

variable {M} {k : ℕ} {bodies : List (List UInt8)}
  {b : HotstuffVMBridge B I (σ × List (VmCall B I))}

namespace Following

/-- What waits for the thread is made of blocks that parse. -/
theorem mem_of_waiting (F : Following M k bodies b) {blk : B}
    (h : blk ∈ b.vmInterface.blocksToValidate.filterMap id) : blk ∈ M.parsed bodies := by
  have hmem : some blk ∈ (M.parsed bodies).map some := by
    rw [← F.executed_eq]
    exact List.mem_append_right _ (List.mem_map_of_mem h)
  simpa using hmem

/-- A pass does what waits and keeps the rest. -/
theorem round (F : Following M k bodies b) :
    Following M k bodies (b.act M.recorded .round) ∧
      (b.act M.recorded .round).vmInterface.blocksToValidate = [] := by
  have hround : b.vmInterface.round M.recorded = b.vmInterface.catchUp M.recorded := by
    unfold VMControlInterface.round VMControlInterface.makeProposal
    rw [dif_neg]
    simpa [VMControlInterface.catchUp] using F.no_requests
  have hcalls : (b.vmInterface.catchUp M.recorded).vmInstance.2 =
      b.vmInterface.vmInstance.2 ++
        (b.vmInterface.blocksToValidate.filterMap id).map (fun blk => .exec (some blk)) ++
        b.vmInterface.highestCommittedId.toList.map VmCall.logCommitment := by
    rw [← foldl_validate_recorded M]
    unfold VMControlInterface.catchUp
    cases b.vmInterface.highestCommittedId with
    | none => simp
    | some id => rfl
  refine ⟨⟨F.committed_eq, ?_, ?_, ?_, ?_⟩, ?_⟩ <;>
    simp only [HotstuffVMBridge.act, hround]
  · exact F.no_requests
  · rw [hcalls, List.filterMap_append, List.filterMap_append, executed_exec]
    have hlog : (b.vmInterface.highestCommittedId.toList.map
        (VmCall.logCommitment : I → VmCall B I)).filterMap VmCall.executed = [] := by
      cases b.vmInterface.highestCommittedId <;> rfl
    rw [hlog, List.append_nil]
    simpa [VMControlInterface.catchUp] using F.executed_eq
  · intro c hc
    rw [hcalls, List.mem_append, List.mem_append] at hc
    rcases hc with (hc | hc) | hc
    · exact F.isFor c hc
    · obtain ⟨blk, hblk, rfl⟩ := List.mem_map.mp hc
      exact ⟨blk, F.mem_of_waiting hblk, Or.inl rfl⟩
    · obtain ⟨id, hid, rfl⟩ := List.mem_map.mp hc
      obtain ⟨blk, hblk, rfl⟩ := F.pending id (Option.mem_toList.mp hid)
      exact ⟨blk, hblk, Or.inr rfl⟩
  · intro id hid
    cases hid
  · rfl

theorem act (F : Following M k bodies b) (a : BridgeAct) :
    Following M k bodies (b.act M.recorded a) := by
  cases a with
  | round => exact F.round.1
  | putVmInProposerMode => exact ⟨F.committed_eq, F.no_requests, F.executed_eq, F.isFor, F.pending⟩
  | stopProposals => exact ⟨F.committed_eq, F.no_requests, F.executed_eq, F.isFor, F.pending⟩

theorem notifyVmOfCommitment (F : Following M k (bodies ++ [body]) b)
    (hmap : b.speculationMap.heightMap = [(k + 1, M.getBlockId (M.tryVmParse body))]) :
    ∃ b', b.notifyVmOfCommitment (k + 1) = .ok b' ∧ b'.speculationMap.heightMap = [] ∧
      Following M (k + 1) (bodies ++ [body]) b' := by
  obtain ⟨g, hg, hrest, hcommitted⟩ := b.speculationMap.onCommitHotstuff_cons hmap
  rw [F.committed_eq] at hg hcommitted
  refine ⟨⟨g, b.vmInterface.logCommitment (M.getBlockId (M.tryVmParse body))⟩, ?_, hrest, ?_⟩
  · unfold HotstuffVMBridge.notifyVmOfCommitment
    rw [hg]
    rfl
  · cases h : M.tryVmParse body with
    | none => exact ⟨hcommitted, F.no_requests, F.executed_eq, F.isFor, F.pending⟩
    | some blk =>
        refine ⟨hcommitted, F.no_requests, F.executed_eq, F.isFor, ?_⟩
        intro id hid
        refine ⟨blk, ?_, by simpa [VMType.getBlockId, VMControlInterface.logCommitment] using hid⟩
        rw [M.parsed_concat, h]
        simp

variable [DecidableEq I]

theorem applyBlock (F : Following M k bodies b) (hmap : b.speculationMap.heightMap = [])
    (body : List UInt8) :
    Following M k (bodies ++ [body]) (b.applyBlock M.recorded (k + 1) body) ∧
      (b.applyBlock M.recorded (k + 1) body).speculationMap.heightMap =
        [(k + 1, M.getBlockId (M.tryVmParse body))] := by
  have happly : b.applyBlock M.recorded (k + 1) body =
      b.submitBlock M.recorded (k + 1) (M.tryVmParse body) := by
    unfold HotstuffVMBridge.applyBlock
    simp [hmap]
  have hsub : ∀ blk ∈ M.parsed bodies, blk ∈ M.parsed (bodies ++ [body]) := by
    intro blk hblk
    rw [M.parsed_append]
    exact List.mem_append_left _ hblk
  rw [happly]
  refine ⟨⟨?_, rfl, ?_, ?_, ?_⟩, ?_⟩
  · simpa [HotstuffVMBridge.submitBlock] using F.committed_eq
  · rw [M.parsed_concat, List.map_append, ← F.executed_eq]
    cases h : M.tryVmParse body <;>
      simp [HotstuffVMBridge.submitBlock, VMControlInterface.submitBlockForExec,
        VMControlInterface.clearProposalSettings]
  · intro c hc
    exact (F.isFor c hc).mono M hsub
  · intro id hid
    obtain ⟨blk, hblk, hid⟩ := F.pending id hid
    exact ⟨blk, hsub blk hblk, hid⟩
  · have hentry := b.speculationMap.heightMap_addHeightPair_empty hmap
      (M.getBlockId (M.tryVmParse body))
    rw [F.committed_eq] at hentry
    simpa [HotstuffVMBridge.submitBlock] using hentry

end Following

/-! ## Runs of the speculating bridge -/

namespace Played

/-- What every action of another thread keeps, other threads keep. -/
theorem others_induction {N : VMType B I σ} {P : HotstuffVMBridge B I σ → Prop}
    (hact : ∀ b a, P b → P (b.act N a)) {v : Played B I σ} (h : P v.bridge) :
    P (others N v).bridge :=
  others_keeps (P := fun v => P v.bridge) (fun v a hv => hact v.bridge a hv) fun _ => h

theorem following_others {v : Played B I (σ × List (VmCall B I))} {map : List (ℕ × Option I)}
    (F : Following M k bodies v.bridge) (hmap : v.bridge.speculationMap.heightMap = map) :
    Following M k bodies (others M.recorded v).bridge ∧
      (others M.recorded v).bridge.speculationMap.heightMap = map :=
  others_induction (P := fun b => Following M k bodies b ∧ b.speculationMap.heightMap = map)
    (fun _ a h => ⟨h.1.act a, h.2⟩) ⟨F, hmap⟩

variable [DecidableEq I]

theorem play_ok {N : VMType B I σ} {c : BridgeCall} {v : Played B I σ} {b : HotstuffVMBridge B I σ}
    (h : v.bridge.call N c = .ok b) : ∃ v', play N c v = .ok v' ∧ v'.bridge = b := by
  refine ⟨{ v with bridge := b, calls := v.calls ++ [(v.bridge, c)] }, ?_, rfl⟩
  unfold play
  rw [h]
  rfl

/-- **Run lemma**: handing over decided blocks goes through and leaves nothing on the map. -/
theorem deliver_following (schedule : List (List BridgeAct)) (waits : List ℕ)
    (rest : List (List UInt8)) :
    ∀ {k : ℕ} {bodies : List (List UInt8)} {v : Played B I (σ × List (VmCall B I))},
      Following M k bodies v.bridge → v.bridge.speculationMap.heightMap = [] →
      ∃ v', (vmBridge M.recorded schedule waits).deliver k rest v = .ok v' ∧
        Following M (k + rest.length) (bodies ++ rest) v'.bridge ∧
        v'.bridge.speculationMap.heightMap = [] := by
  induction rest with
  | nil =>
      intro k bodies v F hmap
      exact ⟨v, rfl, by simpa using F, hmap⟩
  | cons body rest ih =>
      intro k bodies v F hmap
      obtain ⟨F₁, hmap₁⟩ := following_others F hmap
      obtain ⟨F₂, hmap₂⟩ := F₁.applyBlock hmap₁ body
      obtain ⟨v₁, happly, hbridge₁⟩ := play_ok (N := M.recorded) (c := .applyBlock (k + 1) body)
        (v := others M.recorded v) rfl
      rw [← hbridge₁] at F₂ hmap₂
      obtain ⟨F₃, hmap₃⟩ := following_others F₂ hmap₂
      obtain ⟨b, hb, hmap₄, F₄⟩ := F₃.notifyVmOfCommitment hmap₃
      obtain ⟨v₂, hnotify, hbridge₂⟩ := play_ok (N := M.recorded)
        (c := .notifyVmOfCommitment (k + 1)) (v := others M.recorded v₁) hb
      rw [← hbridge₂] at F₄ hmap₄
      obtain ⟨v', hv', F', hmap'⟩ := ih F₄ hmap₄
      refine ⟨v', ?_, ?_, hmap'⟩
      · unfold VmBridge.deliver vmBridge
        simp only [happly, hnotify]
        exact hv'
      · rw [List.append_assoc, List.singleton_append] at F'
        rw [List.length_cons, Nat.add_comm rest.length, ← Nat.add_assoc]
        exact F'

theorem following_run {schedule : List (List BridgeAct)} {waits : List ℕ} (n : ℕ)
    {v : Played B I (σ × List (VmCall B I))} (F : Following M k bodies v.bridge) :
    Following M k bodies ((vmBridge M.recorded schedule waits).run^[n] v).bridge := by
  induction n generalizing v with
  | zero => exact F
  | succ n ih => exact ih (others_induction (fun _ a h => h.act a) F)

/-- The calls the machine has got once its thread has worked off what it was handed. -/
def machineCalls (M : VMType B I σ) (v : Played B I (σ × List (VmCall B I))) : List (VmCall B I) :=
  (v.bridge.vmInterface.waitForAsyncTask M.recorded).vmInstance.2

end Played

theorem Following.executesParsed {v : Played B I (σ × List (VmCall B I))}
    (F : Following M k bodies v.bridge) : ExecutesParsed M bodies (Played.machineCalls M v) := by
  obtain ⟨F', hblocks⟩ := F.round
  have hcalls : Played.machineCalls M v = (v.bridge.act M.recorded .round).vmInterface.vmInstance.2 := by
    unfold Played.machineCalls VMControlInterface.waitForAsyncTask
    rw [F.no_requests]
    rfl
  rw [hcalls]
  refine ⟨?_, F'.isFor⟩
  simpa [hblocks] using F'.executed_eq

end

/-! ## The two bridges -/

section
variable [DecidableEq I] (M : VMType B I σ) (bodies : List (List UInt8))

/-- A `HotstuffApp` makes its machine execute the bodies that parse, whatever other threads do in
between and afterwards, once the machine's thread has worked off what it was handed. -/
def HotstuffExecutes : Prop :=
  ∀ schedule waits k v, (Played.vmBridge M.recorded schedule waits).Starts k v →
    ∃ v', (Played.vmBridge M.recorded schedule waits).deliver k bodies v = .ok v' ∧
      ∀ n, ExecutesParsed M bodies
        (Played.machineCalls M ((Played.vmBridge M.recorded schedule waits).run^[n] v'))

/-- A `NonspeculativeHotstuffApp` makes its machine execute the bodies that parse. -/
def NonspeculativeExecutes : Prop :=
  ∀ k v, (NonspeculativeVMBridge.vmBridge M.recorded).Starts k v →
    ∃ v', (NonspeculativeVMBridge.vmBridge M.recorded).deliver k bodies v = .ok v' ∧
      ExecutesParsed M bodies v'.vm.2

/-- Both bridges make the machine execute the same blocks, those whose body parses. -/
def BridgesAgree : Prop := HotstuffExecutes M bodies ∧ NonspeculativeExecutes M bodies

theorem following_of_starts {schedule : List (List BridgeAct)} {waits : List ℕ} {k : ℕ}
    {v : Played B I (σ × List (VmCall B I))}
    (h : (Played.vmBridge M.recorded schedule waits).Starts k v) :
    Following M k [] v.bridge ∧ v.bridge.speculationMap.heightMap = [] := by
  rcases h with ⟨rfl, rfl⟩ | ⟨index, files, h⟩
  · refine ⟨⟨rfl, rfl, rfl, ?_, ?_⟩, rfl⟩
    · intro c hc
      cases hc
    · intro id hid
      cases hid
  · simp only [Played.vmBridge, HotstuffVMBridge.initFromDisk, VMControlInterface.initFromDisk,
      VMType.recorded, VMControlInterface.make] at h
    cases hdisk : M.initFromDisk index files M.fresh with
    | error what =>
        rw [hdisk] at h
        cases h
    | ok vm =>
        rw [hdisk] at h
        obtain rfl := Except.ok.inj h
        refine ⟨⟨rfl, rfl, rfl, ?_, ?_⟩, rfl⟩
        · intro c hc
          cases hc
        · intro id hid
          cases hid

/-- A `HotstuffVMBridge` executes what parses, whatever the bodies. -/
theorem hotstuffExecutes : HotstuffExecutes M bodies := by
  intro schedule waits k v hstart
  obtain ⟨F, hmap⟩ := following_of_starts M hstart
  obtain ⟨v', hv', F', -⟩ := Played.deliver_following schedule waits bodies F hmap
  exact ⟨v', hv', fun n => (Played.following_run n F').executesParsed⟩

end

namespace NonspeculativeVMBridge

variable {M : VMType B I σ}

/-- What a bridge that goes through has executed: every body, null where it does not parse. -/
theorem deliver_calls {bodies : List (List UInt8)} :
    ∀ {k : ℕ} {v v' : NonspeculativeVMBridge (σ × List (VmCall B I))},
      (vmBridge M.recorded).deliver k bodies v = .ok v' →
      v'.vm.2 = v.vm.2 ++ bodies.map fun body => .exec (M.tryVmParse body) := by
  induction bodies with
  | nil =>
      intro k v v' h
      rw [← Except.ok.inj h]
      simp
  | cons body bodies ih =>
      intro k v v' h
      simp only [VmBridge.deliver, vmBridge, applyBlock, notifyVmOfCommitment] at h
      rw [M.recorded_tryVmParse] at h
      cases hbody : M.tryVmParse body with
      | some blk =>
          rw [hbody] at h
          rw [ih h]
          simp [VMType.recorded, hbody]
      | none =>
          rw [hbody] at h
          cases hnull : M.execNull v.vm.1 with
          | error what =>
              simp only [VMType.recorded, hnull] at h
              cases h
          | ok vm =>
              simp only [VMType.recorded, hnull] at h
              rw [ih h]
              simp [hbody]

theorem deliver_of_parses {bodies : List (List UInt8)} (h : ∀ body ∈ bodies, M.tryVmParse body ≠ none) :
    ∀ (k : ℕ) (v : NonspeculativeVMBridge (σ × List (VmCall B I))),
      ∃ v', (vmBridge M.recorded).deliver k bodies v = .ok v' := by
  induction bodies with
  | nil => exact fun k v => ⟨v, rfl⟩
  | cons body bodies ih =>
      intro k v
      obtain ⟨blk, hblk⟩ := Option.ne_none_iff_exists'.mp (h body List.mem_cons_self)
      obtain ⟨v', hv'⟩ := ih (fun body' hbody' => h body' (List.mem_cons_of_mem _ hbody')) (k + 1)
        { v with vm := M.recorded.execBlock blk v.vm }
      refine ⟨v', ?_⟩
      simpa [VmBridge.deliver, vmBridge, applyBlock, notifyVmOfCommitment, hblk] using hv'

end NonspeculativeVMBridge

section
variable (M : VMType B I σ) (bodies : List (List UInt8))

theorem nonspeculativeExecutes_iff :
    NonspeculativeExecutes M bodies ↔ ∀ body ∈ bodies, M.tryVmParse body ≠ none := by
  constructor
  · intro h body hbody hnone
    obtain ⟨v', hv', hexec⟩ := h 0 _ (Or.inl ⟨rfl, rfl⟩)
    have hcalls := NonspeculativeVMBridge.deliver_calls hv'
    have hnull : VmCall.exec none ∈ v'.vm.2 := by
      rw [hcalls]
      exact List.mem_append_right _ (List.mem_map.mpr ⟨body, hbody, by rw [hnone]⟩)
    obtain ⟨blk, -, hc | hc⟩ := hexec.isFor _ hnull <;> cases hc
  · intro h k v hstart
    obtain ⟨v', hv'⟩ := NonspeculativeVMBridge.deliver_of_parses h k v
    refine ⟨v', hv', ?_⟩
    have hcalls := NonspeculativeVMBridge.deliver_calls hv'
    have hfresh : v.vm.2 = [] := by
      rcases hstart with ⟨-, rfl⟩ | ⟨index, files, hdisk⟩
      · rfl
      · rw [← Except.ok.inj hdisk]
        rfl
    rw [hfresh, List.nil_append] at hcalls
    constructor
    · rw [hcalls, List.filterMap_map, M.map_parsed h, ← List.filterMap_eq_map]
      rfl
    · intro c hc
      rw [hcalls] at hc
      obtain ⟨body, hbody, rfl⟩ := List.mem_map.mp hc
      obtain ⟨blk, hblk⟩ := Option.ne_none_iff_exists'.mp (h body hbody)
      exact ⟨blk, List.mem_filterMap.mpr ⟨body, hbody, hblk⟩, Or.inl (by rw [hblk])⟩

/-- **The two bridges agree exactly on the bodies that all parse.** -/
theorem bridges_agree_iff [DecidableEq I] :
    BridgesAgree M bodies ↔ ∀ body ∈ bodies, M.tryVmParse body ≠ none :=
  ⟨fun h => (nonspeculativeExecutes_iff M bodies).mp h.2,
    fun h => ⟨hotstuffExecutes M bodies, (nonspeculativeExecutes_iff M bodies).mpr h⟩⟩

end

/-- One decided empty block is enough: a `NonspeculativeVMBridge` executes a null block for it. -/
theorem bridges_disagree : ¬ ∀ bodies : List (List UInt8), BridgesAgree CountingVM.vmType bodies := by
  intro h
  have hparses := (nonspeculativeExecutes_iff CountingVM.vmType [[]]).mp (h [[]]).2
  exact hparses [] (List.mem_singleton.mpr rfl) rfl

end Fred.Hotstuff
