/-
# Fred.Vm.Delivery -- what a replica does with its bridge

Consensus hands decided blocks to its bridge by `apply_block` and `notify_vm_of_commitment`, height
after height (`VmBridge.deliver`), and writes their index entries in the same transaction. A step of a
replica does that, or asks for one block to propose, or lets the machine's thread run, or leaves the
bridge alone (`vm_step`).
-/
import Fred.Hotstuff.Forms
import Fred.Hotstuff.Bodies

namespace Fred.Hotstuff

open Fred.Forest Replica

variable {V : Type} {E : Setup V} {s s' : Replica V} {k : ℕ}

/-- A decided block as the application sees it: its hash and its body. -/
abbrev DecidedBlock := Hash × List UInt8

/-- An object that has its body and looks like this to the application. -/
def Heap.Presents (h : Heap) (d : DecidedBlock) (b : BlockPtr) : Prop :=
  (h.get b).flushedFromMemory = false ∧ d = (h.hash b, (h.get b).wireBlock.body)

/-- Objects do not get a body later. -/
theorem Heap.Presents.of_aged {bound : ℕ} {h h' : Heap} {d : DecidedBlock} {b : BlockPtr}
    (hd : h'.Presents d b) (A : Heap.Aged bound h h') : h.Presents d b := by
  obtain ⟨hbody, hwire⟩ := A.unflushed_of b hd.1
  refine ⟨hbody, ?_⟩
  rw [hd.2, A.cores.hash_eq, hwire]

namespace VmBridge

/-- The bodies of decided blocks above height `k` are handed over, lowest first. -/
def deliver (E : VmBridge V) : ℕ → List (List UInt8) → V → Except String V
  | _, [], v => .ok v
  | k, body :: bodies, v =>
    match E.applyBlock (k + 1) body v with
    | .error what => .error what
    | .ok v =>
      match E.notifyVmOfCommitment (k + 1) v with
      | .error what => .error what
      | .ok v => E.deliver (k + 1) bodies v

/-- The index entries of decided blocks above height `k`. -/
def entries (E : VmBridge V) : ℕ → List DecidedBlock → List IndexEntry
  | _, [] => []
  | k, b :: blocks => ⟨k + 1, b.1, E.blockId b.2⟩ :: E.entries (k + 1) blocks

theorem heights_entries (E : VmBridge V) (blocks : List DecidedBlock) :
    (E.entries k blocks).map IndexEntry.height = List.range' (k + 1) blocks.length := by
  induction blocks generalizing k with
  | nil => rfl
  | cons b blocks ih => rw [entries, List.map_cons, ih, List.length_cons, List.range'_succ]

theorem entries_append (E : VmBridge V) (blocks blocks' : List DecidedBlock) :
    E.entries k (blocks ++ blocks') =
      E.entries k blocks ++ E.entries (k + blocks.length) blocks' := by
  induction blocks generalizing k with
  | nil => rfl
  | cons b blocks ih =>
      rw [List.cons_append, entries, entries, ih, List.length_cons, List.cons_append,
        Nat.add_right_comm, Nat.add_assoc]

end VmBridge

/-! ## The commit queue -/

theorem vm_pause (s : Replica V) : s.pause.vm = s.vm :=
  (pause_spec (exists_boundedBy s.blockStore.gcCollector).choose_spec).vm_eq

/-- One round of the loop over the commit queue, at the bridge. -/
theorem applyBlock_notify_vm {b : BlockPtr} {tx tx' : HotstuffLMDB.Txn} {s₁ : Replica V}
    (happly : applyBlock E b tx s = .ok (tx', s₁)) (hnotify : notifyVmOfCommitment E b s₁ = .ok s') :
    ∃ vm, E.vm.applyBlock (s.heap.height b) (s.heap.get b).wireBlock.body s.vm = .ok vm ∧
      E.vm.notifyVmOfCommitment (s.heap.height b) vm = .ok s'.vm := by
  unfold applyBlock at happly
  split at happly
  · cases happly
  · dsimp only at happly
    split at happly
    · cases happly
    · rename_i vm hvm
      obtain ⟨-, rfl⟩ := Prod.mk.inj (Except.ok.inj happly)
      refine ⟨vm, hvm, ?_⟩
      unfold notifyVmOfCommitment at hnotify
      split at hnotify
      · cases hnotify
      · rename_i vm' hvm'
        rw [← Except.ok.inj hnotify]
        exact hvm'

/-- **The loop over the commit queue, at the bridge**: the queue is a list of decided blocks. -/
theorem applyQueue_deliver {queue : List BlockPtr} :
    ∀ {k : ℕ} {tx tx' : HotstuffLMDB.Txn} {s s' : Replica V},
      applyQueue E queue tx s = .ok (tx', s') →
      queue.map s.heap.height = List.range' (k + 1) queue.length →
      ∃ blocks : List DecidedBlock, blocks.map Prod.fst = queue.map s.heap.hash ∧
        (∀ d ∈ blocks, ∃ b ∈ queue, s.heap.Presents d b) ∧
        E.vm.deliver k (blocks.map Prod.snd) s.vm = .ok s'.vm ∧
        tx' = { tx with data :=
          (E.vm.entries k blocks).foldl (fun data e => HotstuffLMDB.put e data) tx.data } := by
  induction queue with
  | nil =>
      intro k tx tx' s s' h _
      obtain ⟨rfl, rfl⟩ := Prod.mk.inj (Except.ok.inj h)
      exact ⟨[], rfl, nofun, rfl, rfl⟩
  | cons b queue ih =>
      intro k tx tx' s s' h hheights
      unfold applyQueue at h
      split at h
      · cases h
      · rename_i tx₁ s₁ happly
        split at h
        · cases h
        · rename_i s₂ hnotify
          obtain ⟨n, hgc⟩ := exists_boundedBy s.blockStore.gcCollector
          have haged := (applySpec_one hgc happly hnotify).aged
          have hpaused := aged_decideBlock_pause hgc b
          rw [List.map_cons, List.length_cons, List.range'_succ, List.cons.injEq] at hheights
          obtain ⟨blocks, hhashes, hpresents, hdeliver, htx⟩ := ih (k := k + 1) h
            (by rw [haged.cores.height_eq]; exact hheights.2)
          obtain ⟨vm, hvm, hvm'⟩ := applyBlock_notify_vm happly hnotify
          obtain ⟨hbody, htx₁, -⟩ := applyBlock_ok happly
          -- at the call, the block is as it was before the pause
          rw [hpaused.cores.height_eq, hheights.1] at hvm hvm' htx₁
          rw [hpaused.cores.hash_eq] at htx₁
          refine ⟨(s.heap.hash b, ((decideBlock b s.pause).heap.get b).wireBlock.body) :: blocks,
            ?_, ?_, ?_, ?_⟩
          · rw [List.map_cons, hhashes, List.map_cons, haged.cores.hash_eq]
          · intro d hd
            rcases List.mem_cons.mp hd with rfl | hd
            · refine ⟨b, List.mem_cons_self, Heap.Presents.of_aged ⟨hbody, ?_⟩ hpaused⟩
              rw [hpaused.cores.hash_eq]
            · obtain ⟨x, hx, hdx⟩ := hpresents d hd
              exact ⟨x, List.mem_cons_of_mem b hx, hdx.of_aged haged⟩
          · have hvm₀ : (decideBlock b s.pause).vm = s.vm := vm_pause s
            rw [hvm₀] at hvm
            rw [List.map_cons, VmBridge.deliver, hvm]
            dsimp only
            rw [hvm']
            exact hdeliver
          · rw [htx, htx₁]
            rfl

/-! ## Steps -/

theorem vm_updateHqc (b : BlockPtr) (qc : QuorumCertificate) (s : Replica V) :
    (updateHqc b qc s).vm = s.vm := by
  unfold updateHqc
  split <;> rfl

/-- **What a step does with bridge and index.** -/
inductive VmStep (E : Setup V) (s s' : Replica V) : Prop
  | stay (hvm : s'.vm = s.vm) (hindex : s'.decidedHashIndex = s.decidedHashIndex)
      (hexec : s'.heap.height s'.bExec = s.heap.height s.bExec)
  | run (hvm : s'.vm = E.vm.run s.vm) (hindex : s'.decidedHashIndex = s.decidedHashIndex)
      (hexec : s'.heap.height s'.bExec = s.heap.height s.bExec)
  | propose {nonempty : Bool} {body : List UInt8}
      (hvm : E.vm.getNextVmBlock nonempty (s.heap.height s.bLeaf + 1) s.vm = .ok (body, s'.vm))
      (hindex : s'.decidedHashIndex = s.decidedHashIndex)
      (hexec : s'.heap.height s'.bExec = s.heap.height s.bExec)
  | commit {blocks : List DecidedBlock} {qc : QuorumCertificateWire}
      (hvm : E.vm.deliver (s.heap.height s.bExec) (blocks.map Prod.snd) s.vm = .ok s'.vm)
      (hindex : s'.decidedHashIndex = s.decidedHashIndex.commit
        ⟨(E.vm.entries (s.heap.height s.bExec) blocks).foldl
          (fun data e => HotstuffLMDB.put e data) s.decidedHashIndex.data, some qc⟩)
      (hexec : s'.heap.height s'.bExec = s.heap.height s.bExec + blocks.length)
      (hblocks : ∀ d ∈ blocks, ∃ b, s.heap.Settled b ∧ b ≠ genesisPtr ∧ s.heap.Presents d b)

/-- What an event does with them: nothing, or it commits. -/
inductive CommitStep (E : Setup V) (s s' : Replica V) : Prop
  | stay (hvm : s'.vm = s.vm) (hindex : s'.decidedHashIndex = s.decidedHashIndex)
      (hexec : s'.heap.height s'.bExec = s.heap.height s.bExec)
  | commit {blocks : List DecidedBlock} {qc : QuorumCertificateWire}
      (hvm : E.vm.deliver (s.heap.height s.bExec) (blocks.map Prod.snd) s.vm = .ok s'.vm)
      (hindex : s'.decidedHashIndex = s.decidedHashIndex.commit
        ⟨(E.vm.entries (s.heap.height s.bExec) blocks).foldl
          (fun data e => HotstuffLMDB.put e data) s.decidedHashIndex.data, some qc⟩)
      (hexec : s'.heap.height s'.bExec = s.heap.height s.bExec + blocks.length)
      (hblocks : ∀ d ∈ blocks, ∃ b, s.heap.Settled b ∧ b ≠ genesisPtr ∧ s.heap.Presents d b)

theorem CommitStep.vmStep (c : CommitStep E s s') : VmStep E s s' := by
  cases c with
  | stay hvm hindex hexec => exact .stay hvm hindex hexec
  | commit hvm hindex hexec hblocks => exact .commit hvm hindex hexec hblocks

/-- The heights of a commit queue. -/
theorem heights_commitQueue (W : WellFormed E s) {blk : BlockPtr} {queue : List BlockPtr}
    (htrunk : (trunk s.heap.parent s.heap.height blk).reverse =
      (trunk s.heap.parent s.heap.height s.bExec).reverse ++ queue) :
    queue.map s.heap.height = List.range' (s.heap.height s.bExec + 1) queue.length ∧
      s.heap.height blk = s.heap.height s.bExec + queue.length := by
  have hheights := congrArg (List.map s.heap.height) htrunk
  have hlength := congrArg List.length htrunk
  rw [List.map_append, List.map_reverse, List.map_reverse, W.forest.map_height_trunk,
    W.forest.map_height_trunk, List.reverse_reverse, List.reverse_reverse] at hheights
  rw [List.length_append, List.length_reverse, List.length_reverse, W.forest.length_trunk,
    W.forest.length_trunk] at hlength
  rw [hlength, ← List.range'_append_1, List.append_cancel_left_eq] at hheights
  rw [Nat.add_comm]
  exact ⟨hheights.symm, by omega⟩

/-- Locking and saving leaves bridge, index and executed block alone. -/
theorem Replica.LockStage.vm_eq {nblk blk2 blk1 : BlockPtr} {s₂ : Replica V}
    (l : LockStage E nblk blk2 blk1 s s₂) :
    s₂.vm = s.vm ∧ s₂.decidedHashIndex = s.decidedHashIndex ∧
      s₂.heap.height s₂.bExec = s.heap.height s.bExec := by
  refine ⟨l.spec.vm_eq.trans (vm_updateHqc _ _ s),
    l.spec.keeps.index_eq.trans (updateHqc_index _ _ s), ?_⟩
  rw [l.spec.core_eq.height_eq, l.bExec_eq]

/-- A commit, where `s` differs from the state before the commit in other parts. -/
theorem CommitStep.of_commitBlocks {s₂ : Replica V} (W : WellFormed E s₂) (hvm : s₂.vm = s.vm)
    (hindex : s₂.decidedHashIndex = s.decidedHashIndex)
    (hexec : s₂.heap.height s₂.bExec = s.heap.height s.bExec)
    (haged : ∃ bound, Heap.Aged bound s.heap s₂.heap) {blk1 blk : BlockPtr} {queue : List BlockPtr}
    (htrunk : (trunk s₂.heap.parent s₂.heap.height blk).reverse =
      (trunk s₂.heap.parent s₂.heap.height s₂.bExec).reverse ++ queue)
    (h : commitBlocks E blk1 blk queue s₂ = .ok s') : CommitStep E s s' := by
  obtain ⟨hheights, hblk⟩ := heights_commitQueue W htrunk
  obtain ⟨bound, haged⟩ := haged
  unfold commitBlocks at h
  split at h
  · cases h
  · rename_i tx s₃ happly
    have A := applyQueue_spec W.collector happly
    obtain ⟨blocks, hhashes, hpresents, hdeliver, rfl⟩ := applyQueue_deliver happly hheights
    have hlength : blocks.length = queue.length := by simpa using congrArg List.length hhashes
    rw [hvm, hexec] at hdeliver
    obtain rfl := Except.ok.inj h
    refine @CommitStep.commit _ _ _ _ _ (s₃.heap.get blk1).getJustifyQc.serialize hdeliver ?_ ?_ ?_
    · rw [← hindex, ← hexec, ← A.keeps.index_eq]
      rfl
    · rw [hlength, ← hexec, ← hblk, ← A.aged.cores.height_eq]
      rfl
    · intro d hd
      obtain ⟨b, hb, hdb⟩ := hpresents d hd
      -- the queue is above the executed block, so none of it is genesis
      have hheight : s₂.heap.height b ∈ List.range' (s₂.heap.height s₂.bExec + 1) queue.length :=
        hheights ▸ List.mem_map_of_mem hb
      have hpos : 0 < s₂.heap.height b := by
        have := (List.mem_range'_1.mp hheight).1
        omega
      refine ⟨b, haged.cores.settled_iff.mp (W.shape.settled_of_height_pos hpos), ?_,
        hdb.of_aged haged⟩
      rintro rfl
      rw [W.shape.height_genesis] at hpos
      exact Nat.lt_irrefl 0 hpos

/-- A call of `update`, where `s₀` differs from the state before the call in other parts. -/
theorem CommitStep.of_update {s₀ : Replica V} (W : WellFormed E s) (hvm : s.vm = s₀.vm)
    (hindex : s.decidedHashIndex = s₀.decidedHashIndex) (hheap : s.heap = s₀.heap)
    (hexec : s.heap.height s.bExec = s₀.heap.height s₀.bExec) {p : BlockPtr}
    (h : update E p s = .ok s') : CommitStep E s₀ s' := by
  have hrun := update_run E p s
  rw [h] at hrun
  generalize hr : (Except.ok s' : Result V) = r at hrun
  cases hrun with
  | early _ =>
      obtain rfl := Except.ok.inj hr
      exact .stay hvm hindex hexec
  | hqcOnly _ _ _ =>
      obtain rfl := Except.ok.inj hr
      refine .stay ((vm_updateHqc _ _ s).trans hvm) ((updateHqc_index _ _ s).trans hindex) ?_
      rw [heap_updateHqc, (updateHqc_frame _ _ s).1, hexec]
  | lockOnly h2 hd2 h1 hd1 =>
      obtain rfl := Except.ok.inj hr
      obtain ⟨hvm', hindex', hexec'⟩ := (lockStage W h2 hd2 h1 hd1).vm_eq
      exact .stay (hvm'.trans hvm) (hindex'.trans hindex) (hexec'.trans hexec)
  | @chain blk2 blk1 blk s₂ _ h2 hd2 h1 hd1 hs₂ h0 hd0 hp2 hp1 hcommit =>
      subst hs₂
      have l := lockStage W h2 hd2 h1 hd1
      obtain ⟨hvm', hindex', hexec'⟩ := l.vm_eq
      rcases commitQueue_spec blk l.wellFormed.forest with
        ⟨-, queue, hq, htrunk, -⟩ | ⟨-, hbreach⟩
      · rw [hq, ← hr] at hcommit
        refine .of_commitBlocks l.wellFormed (hvm'.trans hvm) (hindex'.trans hindex)
          (hexec'.trans hexec) ?_ htrunk hcommit.symm
        rw [← hheap]
        exact ⟨_, l.aged⟩
      · rw [hbreach, ← hr] at hcommit
        cases hcommit

theorem vm_voted (b : BlockPtr) (qc : QuorumCertificate) (s : Replica V) :
    (s.voted E b qc).vm = s.vm := by
  unfold voted
  split
  · exact vm_updateHqc b qc (setSelfQc b qc s)
  · rfl

/-- The vote on a proposal leaves bridge, index and executed block alone. -/
theorem CommitStep.of_proposalStep {schedule : List ℕ} {p : BlockPtr} {rid : ReplicaID}
    {rest : List Event} {s₁ : Replica V} (W : WellFormed E s)
    (h : ProposalStep E schedule p rid rest s s₁ s') : CommitStep E s s' := by
  have hbefore : s₁.vm = s.vm ∧ s₁.decidedHashIndex = s.decidedHashIndex ∧ s₁.heap = s.heap ∧
      s₁.heap.height s₁.bExec = s.heap.height s.bExec := by
    rcases voteOnProposal_ok (W.popEvent schedule h.queue_eq) h.ne_genesis h.settled h.vote with
      v | ⟨heq, -⟩
    · obtain ⟨q, -, heq⟩ := v.eq
      rw [heq]
      exact ⟨rfl, rfl, rfl, rfl⟩
    · rw [heq]
      exact ⟨rfl, rfl, rfl, rfl⟩
  exact .of_update h.wellFormed hbefore.1 hbefore.2.1 hbefore.2.2.1 hbefore.2.2.2 h.call

/-- An input on which the replica proposes. -/
def Input.Proposes (i : Input) : Prop := i = .doPropose ∨ i = .doEmptyPropose

instance (i : Input) : Decidable i.Proposes :=
  inferInstanceAs (Decidable (i = .doPropose ∨ i = .doEmptyPropose))

/-- **A step of a replica, at bridge and index**: it proposes, or lets the machine's thread run, or is
an event or touches neither. -/
theorem vm_step_cases {i : Input} (W : WellFormed E s) (h : step E i s = .ok s') :
    (i.Proposes ∧ ∃ nonempty body,
      E.vm.getNextVmBlock nonempty (s.heap.height s.bLeaf + 1) s.vm = .ok (body, s'.vm) ∧
      s'.decidedHashIndex = s.decidedHashIndex ∧
      s'.heap.height s'.bExec = s.heap.height s.bExec) ∨
    s' = { s with vm := E.vm.run s.vm } ∨ CommitStep E s s' := by
  rcases (step_cases W h).2 with o | ⟨schedule, p, rid, rest, s₁, -, hstep⟩
  · have hexec : s'.heap.height s'.bExec = s.heap.height s.bExec := by
      rw [o.bExec_eq, o.heap.height_eq W.exec_settled]
    have hstay : s'.vm = s.vm → s'.decidedHashIndex = s.decidedHashIndex → CommitStep E s s' :=
      fun hvm hindex => .stay hvm hindex hexec
    cases step_form W h with
    | idle _ => exact Or.inr (Or.inr (hstay rfl rfl))
    | proposeMessage _ _ => exact Or.inr (Or.inr (hstay rfl rfl))
    | fetchResponse _ => exact Or.inr (Or.inr (hstay rfl rfl))
    | voteMessage _ _ _ => exact Or.inr (Or.inr (hstay rfl rfl))
    | netVote _ _ => exact Or.inr (Or.inr (hstay rfl rfl))
    | netProposal _ _ => exact Or.inr (Or.inr (hstay rfl rfl))
    | netReceive _ _ => exact Or.inr (Or.inr (hstay rfl rfl))
    | voteEvent _ _ => exact Or.inr (Or.inr (hstay (vm_voted _ _ _) o.index_eq))
    | proposalEvent hstep => exact Or.inr (Or.inr (.of_proposalStep W hstep))
    | propose hi hvm _ _ => exact Or.inl ⟨hi.imp And.left And.left, _, _, hvm, rfl, hexec⟩
    | collect => exact Or.inr (Or.inr (hstay rfl rfl))
    | runVm => exact Or.inr (Or.inl rfl)
  · exact Or.inr (Or.inr (.of_proposalStep W hstep))

theorem vm_step {i : Input} (W : WellFormed E s) (h : step E i s = .ok s') : VmStep E s s' := by
  rcases vm_step_cases W h with ⟨-, _, _, hvm, hindex, hexec⟩ | rfl | c
  · exact .propose hvm hindex hexec
  · exact .run rfl rfl rfl
  · exact c.vmStep

end Fred.Hotstuff
