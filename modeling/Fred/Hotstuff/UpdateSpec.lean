/-
# Fred.Hotstuff.UpdateSpec -- what `update` can do

`ApplySpec` is what the loop over the commit queue does when it comes to its end, and `UpdateRun`
lists the ways a call of `update` can go: it stops at one of the early returns, or it finds
`safety breached`, or it commits.
-/
import Fred.Hotstuff.Status

namespace Fred.Hotstuff

open Fred.Forest

variable {V : Type}

/-- The exception of `update` when the committed block does not extend the last one. -/
def Exn.safetyBreached : Exn := .runtimeError "safety breached"

namespace Replica

/-! ## The commit queue -/

/-- What the loop over the commit queue does: it decides and applies the blocks of the queue in order
and writes one index entry for each. -/
structure ApplySpec (bound : ℕ) (queue : List BlockPtr) (tx tx' : HotstuffLMDB.Txn)
    (s s' : Replica V) : Prop where
  keeps : Keeps s s'
  aged : Heap.Aged bound s.heap s'.heap
  bounded : s'.blockStore.gcCollector.BoundedBy bound
  files_eq : s'.files = s.files
  written_eq : ∀ p, (s'.heap.get p).writtenToDisk = (s.heap.get p).writtenToDisk
  decided_iff : ∀ p, (s'.heap.get p).decided = true ↔ (s.heap.get p).decided = true ∨ p ∈ queue
  trace_eq : s'.trace = s.trace ++
    queue.map fun p => Effect.applied p (s.heap.hash p) (s.heap.height p)
  tx_eq : tx'.qc = tx.qc ∧ ∃ entries : List IndexEntry,
    entries.map (fun e => (e.height, e.hash)) =
      queue.map (fun p => (s.heap.height p, s.heap.hash p)) ∧
    tx'.data = entries.foldl (fun data e => HotstuffLMDB.put e data) tx.data

/-- A call of `apply_block` that returns. -/
theorem applyBlock_ok {E : Setup V} {b : BlockPtr} {tx tx' : HotstuffLMDB.Txn} {s s' : Replica V}
    (h : applyBlock E b tx s = .ok (tx', s')) :
    (s.heap.get b).flushedFromMemory = false ∧
      tx' = tx.addDecidedBlock (s.heap.height b) (s.heap.hash b)
        (E.vm.blockId (s.heap.get b).wireBlock.body) ∧
      ∃ vm, s' = { s.emit (.applied b (s.heap.hash b) (s.heap.height b)) with vm := vm } := by
  unfold applyBlock HotstuffBlock.hasBody at h
  split at h
  · cases h
  · rename_i hbody
    split at hbody
    · cases hbody
    · rename_i hfl
      dsimp only at h
      split at h
      · cases h
      · rename_i vm _
        obtain ⟨rfl, rfl⟩ := Prod.mk.inj (Except.ok.inj h)
        exact ⟨by simpa using hfl, rfl, vm, rfl⟩

/-- The exceptions of `apply_block` are those of a missing body and of the bridge. -/
theorem applyBlock_error {E : Setup V} {b : BlockPtr} {tx : HotstuffLMDB.Txn} {s s' : Replica V}
    {e : Exn} (h : applyBlock E b tx s = .error (e, s')) : e ≠ .safetyBreached := by
  unfold applyBlock HotstuffBlock.hasBody at h
  split at h
  · rename_i hbody
    split at hbody
    · rw [← (Prod.mk.inj (Except.error.inj h)).1, ← Except.error.inj hbody]
      decide
    · cases hbody
  · dsimp only at h
    split at h
    · rw [← (Prod.mk.inj (Except.error.inj h)).1]
      exact fun hne => by cases hne
    · cases h

/-- The bridge is told of a commitment: only the machine changes. -/
theorem notifyVmOfCommitment_ok {E : Setup V} {b : BlockPtr} {s s' : Replica V}
    (h : notifyVmOfCommitment E b s = .ok s') : ∃ vm, s' = { s with vm := vm } := by
  unfold notifyVmOfCommitment at h
  split at h
  · cases h
  · rename_i vm _
    exact ⟨vm, (Except.ok.inj h).symm⟩

/-- What the bridge throws when it is told of a commitment. -/
theorem notifyVmOfCommitment_error {E : Setup V} {b : BlockPtr} {s s' : Replica V} {e : Exn}
    (h : notifyVmOfCommitment E b s = .error (e, s')) : e ≠ .safetyBreached := by
  unfold notifyVmOfCommitment at h
  split at h
  · rw [← (Prod.mk.inj (Except.error.inj h)).1]
    exact fun hne => by cases hne
  · cases h

/-- `decide` sets the flag of the block. -/
theorem heap_decideBlock (b : BlockPtr) (s : Replica V) :
    (decideBlock b s).heap = s.heap.modify b fun x => { x with decided := true } := rfl

/-- The objects as the round of `b` finds them, after the pause before it. -/
theorem aged_decideBlock_pause {bound : ℕ} {s : Replica V}
    (hgc : s.blockStore.gcCollector.BoundedBy bound) (b : BlockPtr) :
    Heap.Aged bound s.heap (decideBlock b s.pause).heap :=
  (pause_spec hgc).flushed.aged.trans
    (Heap.Aged.modify s.pause.heap b (fun x => { x with decided := true }) (fun _ => rfl)
      (fun _ => rfl) (fun _ => rfl) (fun _ => rfl))

/-- One round of the loop. -/
theorem applySpec_one {E : Setup V} {bound : ℕ} {b : BlockPtr} {tx tx' : HotstuffLMDB.Txn}
    {s s₁ s₂ : Replica V} (hgc : s.blockStore.gcCollector.BoundedBy bound)
    (happly : applyBlock E b tx (decideBlock b s.pause) = .ok (tx', s₁))
    (hnotify : notifyVmOfCommitment E b s₁ = .ok s₂) : ApplySpec bound [b] tx tx' s s₂ := by
  have hc : Collected bound s s.pause := pause_spec hgc
  obtain ⟨-, rfl, vm, rfl⟩ := applyBlock_ok happly
  obtain ⟨vm', rfl⟩ := notifyVmOfCommitment_ok hnotify
  have haged := aged_decideBlock_pause hgc b
  have hheight := haged.cores.height_eq
  have hhash := haged.cores.hash_eq
  refine
    { keeps := ⟨hc.keeps.hqc_eq, hc.keeps.bLock_eq, hc.keeps.bExec_eq, hc.keeps.vheight_eq,
        hc.keeps.bLeaf_eq, hc.keeps.index_eq, hc.keeps.cache_eq, hc.keeps.eventQueue_eq,
        hc.keeps.netEvents_eq, hc.keeps.latestNewQc_eq⟩
      aged := haged
      bounded := hc.bounded
      files_eq := hc.files_eq
      written_eq := ?_, decided_iff := ?_, trace_eq := ?_, tx_eq := ?_ }
  · intro p
    show ((decideBlock b s.pause).heap.get p).writtenToDisk = _
    rw [heap_decideBlock, ← hc.flushed.writtenToDisk_eq]
    by_cases hp : p = b
    · subst hp
      rw [Heap.get_modify_self]
    · rw [Heap.get_modify_of_ne _ _ hp]
  · intro p
    show ((decideBlock b s.pause).heap.get p).decided = true ↔ _
    rw [heap_decideBlock, ← hc.flushed.decided_eq]
    by_cases hp : p = b
    · subst hp
      rw [Heap.get_modify_self]
      simp
    · rw [Heap.get_modify_of_ne _ _ hp]
      simp [hp]
  · show (decideBlock b s.pause).trace ++ [_] = _
    rw [hhash, hheight]
    show s.pause.trace ++ [_] = _
    rw [hc.trace_eq]
    rfl
  · refine ⟨rfl, [⟨_, _, _⟩], ?_, rfl⟩
    rw [hhash, hheight]
    rfl

/-- Two parts of the queue after each other are the queue. -/
theorem ApplySpec.trans {bound : ℕ} {q q' : List BlockPtr} {tx tx' tx'' : HotstuffLMDB.Txn}
    {s s' s'' : Replica V} (A : ApplySpec bound q tx tx' s s')
    (A' : ApplySpec bound q' tx' tx'' s' s'') : ApplySpec bound (q ++ q') tx tx'' s s'' where
  keeps := A.keeps.trans A'.keeps
  aged := A.aged.trans A'.aged
  bounded := A'.bounded
  files_eq := A'.files_eq.trans A.files_eq
  written_eq := fun p => (A'.written_eq p).trans (A.written_eq p)
  decided_iff := by
    intro p
    rw [A'.decided_iff, A.decided_iff, List.mem_append, or_assoc]
  trace_eq := by
    rw [A'.trace_eq, A.trace_eq, A.aged.cores.hash_eq, A.aged.cores.height_eq, List.map_append,
      List.append_assoc]
  tx_eq := by
    obtain ⟨hqc, es, hes, hdata⟩ := A.tx_eq
    obtain ⟨hqc', es', hes', hdata'⟩ := A'.tx_eq
    rw [A.aged.cores.hash_eq, A.aged.cores.height_eq] at hes'
    refine ⟨hqc'.trans hqc, es ++ es', ?_, ?_⟩
    · rw [List.map_append, List.map_append, hes, hes']
    · rw [hdata', hdata, List.foldl_append]

/-- **The loop over the commit queue.** -/
theorem applyQueue_spec {E : Setup V} {bound : ℕ} :
    ∀ {queue : List BlockPtr} {tx tx' : HotstuffLMDB.Txn} {s s' : Replica V},
      s.blockStore.gcCollector.BoundedBy bound → applyQueue E queue tx s = .ok (tx', s') →
      ApplySpec bound queue tx tx' s s'
  | [], tx, tx', s, s', hgc, h => by
      obtain ⟨rfl, rfl⟩ := Prod.mk.inj (Except.ok.inj h)
      exact
        { keeps := Keeps.refl s
          aged := Heap.Aged.refl _
          bounded := hgc
          files_eq := rfl
          written_eq := fun _ => rfl
          decided_iff := by simp
          trace_eq := by simp
          tx_eq := ⟨rfl, [], rfl, rfl⟩ }
  | b :: queue, tx, tx', s, s', hgc, h => by
      unfold applyQueue at h
      split at h
      · cases h
      · rename_i tx₁ s₁ happly
        split at h
        · cases h
        · rename_i s₂ hnotify
          have one := applySpec_one hgc happly hnotify
          exact one.trans (applyQueue_spec one.bounded h)

/-- No round of the loop finds a breach of safety. -/
theorem applyQueue_error {E : Setup V} {queue : List BlockPtr} :
    ∀ {tx : HotstuffLMDB.Txn} {s s' : Replica V} {e : Exn},
      applyQueue E queue tx s = .error (e, s') → e ≠ .safetyBreached := by
  induction queue with
  | nil =>
      intro tx s s' e h
      cases h
  | cons b queue ih =>
      intro tx s s' e h
      unfold applyQueue at h
      split at h
      · rename_i r happly
        obtain rfl := Except.error.inj h
        exact applyBlock_error happly
      · split at h
        · rename_i r hnotify
          obtain rfl := Except.error.inj h
          exact notifyVmOfCommitment_error hnotify
        · exact ih h

/-! ## The walk and the check -/

/-- **The walk of `update`** finds the last executed block exactly when the committed block descends
from it, and then the queue is what extends the executed chain. -/
theorem commitQueue_spec (blk : BlockPtr) {s : Replica V}
    (F : IsForest s.heap.parent s.heap.height) :
    (Descends s.heap.parent blk s.bExec ∧ ∃ queue, commitQueue blk s = .ok queue ∧
      (trunk s.heap.parent s.heap.height blk).reverse =
        (trunk s.heap.parent s.heap.height s.bExec).reverse ++ queue ∧
      ∀ x, x ∈ queue ↔ Descends s.heap.parent blk x ∧ s.heap.height s.bExec < s.heap.height x) ∨
    (¬ Descends s.heap.parent blk s.bExec ∧
      commitQueue blk s = .error (.safetyBreached, s)) := by
  obtain ⟨⟨passed, stop⟩, hwalk⟩ :=
    F.walkDown_isSome (s.heap.height s.bExec) (le_refl (s.heap.height blk))
  have spec := F.walkDown_spec hwalk
  have htrunk := F.trunk_eq_append_of_walkDown hwalk
  have hstop := spec.stop_eq_iff F
  unfold commitQueue
  rw [hwalk]
  by_cases hd : Descends s.heap.parent blk s.bExec
  · have heq : stop = s.bExec := hstop.mpr hd
    subst heq
    refine Or.inl ⟨hd, passed.reverse, by simp, ?_, ?_⟩
    · rw [htrunk, List.reverse_append]
    · intro x
      rw [List.mem_reverse]
      exact spec.mem_passed x
  · have hne : stop ≠ s.bExec := fun e => hd (hstop.mp e)
    exact Or.inr ⟨hd, by simp [hne, Exn.safetyBreached]⟩

/-! ## The lock -/

/-- `b_lock` after `update` has compared it with `blk1`. -/
def newLock (blk1 : BlockPtr) (s : Replica V) : BlockPtr :=
  if s.heap.height blk1 > s.heap.height s.bLock then blk1 else s.bLock

/-- The lock stays or moves to the certified block. -/
theorem newLock_cases (blk1 : BlockPtr) (s : Replica V) :
    (newLock blk1 s = blk1 ∧ s.heap.height s.bLock < s.heap.height blk1) ∨
      (newLock blk1 s = s.bLock ∧ s.heap.height blk1 ≤ s.heap.height s.bLock) := by
  unfold newLock
  by_cases h : s.heap.height blk1 > s.heap.height s.bLock
  · exact Or.inl ⟨if_pos h, h⟩
  · exact Or.inr ⟨if_neg h, Nat.not_lt.mp h⟩

/-- The lock does not move down. -/
theorem le_height_newLock (blk1 : BlockPtr) (s : Replica V) :
    s.heap.height blk1 ≤ s.heap.height (newLock blk1 s) ∧
      s.heap.height s.bLock ≤ s.heap.height (newLock blk1 s) := by
  rcases newLock_cases blk1 s with ⟨h, hlt⟩ | ⟨h, hle⟩
  · rw [h]
    exact ⟨le_rfl, hlt.le⟩
  · rw [h]
    exact ⟨hle, le_rfl⟩

/-- The assignment to `b_lock`. -/
def setLock (b : BlockPtr) (s : Replica V) : Replica V := { s with bLock := b }

/-- The lock is moved, then the locked block and what is below it are written. -/
theorem lockAndWrite_eq (E : Setup V) (blk1 : BlockPtr) (s : Replica V) :
    lockAndWrite E blk1 s = writeToDisk E (s.heap.height (newLock blk1 s) + 1) (newLock blk1 s)
      (setLock (newLock blk1 s) s) := by
  unfold lockAndWrite newLock setLock
  by_cases h : s.heap.height blk1 > s.heap.height s.bLock <;> simp [h]

/-- `update_hqc` touches no object. -/
theorem heap_updateHqc (qcBlock : BlockPtr) (qc : QuorumCertificate) (s : Replica V) :
    (updateHqc qcBlock qc s).heap = s.heap := by
  unfold updateHqc
  split <;> rfl

/-- A collected certificate is stored in its block. -/
theorem heap_setSelfQc (b : BlockPtr) (qc : QuorumCertificate) (s : Replica V) :
    (setSelfQc b qc s).heap = s.heap.modify b fun x => { x with selfQc := qc } := rfl

/-! ## The ways through `update` -/

/-- A commit that returns: the loop ran to its end, then `b_exec`, the index and the collector's
height were set. -/
theorem commitBlocks_ok {E : Setup V} {bound : ℕ} {blk1 blk : BlockPtr} {queue : List BlockPtr}
    {s s' : Replica V} (hgc : s.blockStore.gcCollector.BoundedBy bound)
    (h : commitBlocks E blk1 blk queue s = .ok s') :
    ∃ tx s₃, ApplySpec bound queue s.decidedHashIndex.openTxn tx s s₃ ∧
      s' = notifyOkToPruneBlocks (s.heap.height blk)
        { s₃ with
          bExec := blk
          decidedHashIndex := s.decidedHashIndex.commit
            (tx.setQcOnTopBlock (s.heap.get blk1).getJustifyQc.serialize) } := by
  unfold commitBlocks at h
  split at h
  · cases h
  · rename_i tx s₃ happly
    have A := applyQueue_spec hgc happly
    refine ⟨tx, s₃, A, ?_⟩
    have hqc : (s₃.heap.get blk1).getJustifyQc = (s.heap.get blk1).getJustifyQc :=
      congrArg (fun c => c.parsedQc.getD (.ofHash 0#256)) (A.aged.cores.core_eq blk1)
    rw [← Except.ok.inj h]
    show notifyOkToPruneBlocks (s₃.heap.height blk) _ = _
    rw [A.aged.cores.height_eq, hqc, A.keeps.index_eq]

/-- The comparison with the executed block comes before the loop, so the loop does not throw for it. -/
theorem commitBlocks_error {E : Setup V} {blk1 blk : BlockPtr} {queue : List BlockPtr}
    {s s' : Replica V} {e : Exn} (h : commitBlocks E blk1 blk queue s = .error (e, s')) :
    e ≠ .safetyBreached := by
  unfold commitBlocks at h
  split at h
  · rename_i r happly
    obtain rfl := Except.error.inj h
    exact applyQueue_error happly
  · cases h

/-- **The ways a call of `update` can go.** -/
inductive UpdateRun (E : Setup V) (nblk : BlockPtr) (s : Replica V) : Result V → Prop
  /-- `nblk` has no certificate, or one on a decided block. -/
  | early (h : ∀ blk2, s.heap.justify nblk = some blk2 → (s.heap.get blk2).decided = true) :
      UpdateRun E nblk s (.ok s)
  /-- `blk2` has no certificate, or one on a decided block. -/
  | hqcOnly {blk2 : BlockPtr} (h2 : s.heap.justify nblk = some blk2)
      (hd2 : (s.heap.get blk2).decided = false)
      (h : ∀ blk1, s.heap.justify blk2 = some blk1 → (s.heap.get blk1).decided = true) :
      UpdateRun E nblk s (.ok (updateHqc blk2 (s.heap.get nblk).getJustifyQc s))
  /-- `blk1` has no certificate, or one on a decided block, or the three are no direct chain. -/
  | lockOnly {blk2 blk1 : BlockPtr} (h2 : s.heap.justify nblk = some blk2)
      (hd2 : (s.heap.get blk2).decided = false) (h1 : s.heap.justify blk2 = some blk1)
      (hd1 : (s.heap.get blk1).decided = false) :
      UpdateRun E nblk s
        (.ok (lockAndWrite E blk1 (updateHqc blk2 (s.heap.get nblk).getJustifyQc s)))
  /-- A direct three-chain: the walk and what follows it. -/
  | chain {blk2 blk1 blk : BlockPtr} {s₂ : Replica V} {r : Result V}
      (h2 : s.heap.justify nblk = some blk2)
      (hd2 : (s.heap.get blk2).decided = false) (h1 : s.heap.justify blk2 = some blk1)
      (hd1 : (s.heap.get blk1).decided = false)
      (hs₂ : s₂ = lockAndWrite E blk1 (updateHqc blk2 (s.heap.get nblk).getJustifyQc s))
      (h0 : s₂.heap.justify blk1 = some blk) (hd0 : (s₂.heap.get blk).decided = false)
      (hp2 : s₂.heap.parent blk2 = some blk1) (hp1 : s₂.heap.parent blk1 = some blk)
      (hr : r = match commitQueue blk s₂ with
        | .error e => .error e
        | .ok queue => commitBlocks E blk1 blk queue s₂) :
      UpdateRun E nblk s r

theorem update_run (E : Setup V) (nblk : BlockPtr) (s : Replica V) :
    UpdateRun E nblk s (update E nblk s) := by
  unfold update
  rcases h2 : s.heap.justify nblk with _ | blk2
  · exact .early fun blk2 h => absurd h (by simp [h2])
  simp only
  rcases hd2 : (s.heap.get blk2).decided with _ | _
  swap
  · refine .early fun x hx => ?_
    obtain rfl : blk2 = x := Option.some.inj (h2.symm.trans hx)
    exact hd2
  simp only [Bool.false_eq_true, if_false, heap_updateHqc]
  rcases h1 : s.heap.justify blk2 with _ | blk1
  · exact .hqcOnly h2 hd2 fun x hx => absurd hx (by simp [h1])
  simp only
  rcases hd1 : (s.heap.get blk1).decided with _ | _
  swap
  · refine .hqcOnly h2 hd2 fun x hx => ?_
    obtain rfl : blk1 = x := Option.some.inj (h1.symm.trans hx)
    exact hd1
  simp only [Bool.false_eq_true, if_false]
  generalize hs₂ : lockAndWrite E blk1 (updateHqc blk2 (s.heap.get nblk).getJustifyQc s) = s₂
  rcases h0 : s₂.heap.justify blk1 with _ | blk
  · exact hs₂ ▸ .lockOnly h2 hd2 h1 hd1
  simp only
  rcases hd0 : (s₂.heap.get blk).decided with _ | _
  swap
  · exact hs₂ ▸ .lockOnly h2 hd2 h1 hd1
  simp only [Bool.false_eq_true, if_false]
  by_cases hdir : s₂.heap.parent blk2 ≠ some blk1 ∨ s₂.heap.parent blk1 ≠ some blk
  · rw [if_pos hdir]
    exact hs₂ ▸ .lockOnly h2 hd2 h1 hd1
  · rw [if_neg hdir]
    rw [not_or, not_not, not_not] at hdir
    exact .chain h2 hd2 h1 hd1 hs₂.symm h0 hd0 hdir.1 hdir.2 rfl

/-! ## What every part of `update` keeps -/

/-- Every part of `update` keeps `I`. -/
structure Closed (E : Setup V) (I : Replica V → Prop) : Prop where
  updateHqc : ∀ {s : Replica V} b qc, I s → I (updateHqc b qc s)
  setLock : ∀ {s : Replica V} b, I s → I (setLock b s)
  pause : ∀ {s : Replica V}, I s → I s.pause
  setWritten : ∀ {s : Replica V} p, I s → I (setWritten p s)
  saveBlock : ∀ {s : Replica V} p, I s → I (saveBlock E p s)
  decideBlock : ∀ {s : Replica V} b, I s → I (decideBlock b s)
  applied : ∀ {s : Replica V} b, I s → I (s.emit (.applied b (s.heap.hash b) (s.heap.height b)))
  setVm : ∀ {s : Replica V} vm, I s → I { s with vm := vm }
  setExec : ∀ {s : Replica V} blk, I s → I { s with bExec := blk }
  setIndex : ∀ {s : Replica V} index, I s → I { s with decidedHashIndex := index }
  prune : ∀ {s : Replica V} n, I s → I (notifyOkToPruneBlocks n s)

namespace Closed

variable {E : Setup V} {I : Replica V → Prop} (c : Closed E I) {s : Replica V}

include c

theorem writeToDisk : ∀ (n : ℕ) (p : BlockPtr) {s : Replica V}, I s → I (writeToDisk E n p s)
  | 0, _, _, hs => hs
  | n + 1, p, s, hs => by
      have hsave : I (Replica.saveBlock E p (Replica.setWritten p s).pause) :=
        c.saveBlock p (c.pause (c.setWritten p hs))
      unfold Replica.writeToDisk
      split
      · exact hs
      · dsimp only
        split
        · exact hsave
        · exact writeToDisk n _ hsave

theorem lockAndWrite (blk1 : BlockPtr) (hs : I s) : I (lockAndWrite E blk1 s) := by
  rw [lockAndWrite_eq]
  exact c.writeToDisk _ _ (c.setLock _ hs)

theorem applyBlock (b : BlockPtr) (tx : HotstuffLMDB.Txn) (hs : I s) :
    (∀ tx' s', applyBlock E b tx s = .ok (tx', s') → I s') ∧
      ∀ e s', applyBlock E b tx s = .error (e, s') → I s' := by
  have hemit := c.applied b hs
  constructor
  · intro tx' s' h
    obtain ⟨-, -, vm, rfl⟩ := applyBlock_ok h
    exact c.setVm vm hemit
  · intro e s' h
    unfold Replica.applyBlock at h
    split at h
    · obtain ⟨-, rfl⟩ := Prod.mk.inj (Except.error.inj h)
      exact hs
    · dsimp only at h
      split at h
      · obtain ⟨-, rfl⟩ := Prod.mk.inj (Except.error.inj h)
        exact hemit
      · cases h

theorem applyQueue : ∀ (queue : List BlockPtr) (tx : HotstuffLMDB.Txn) {s : Replica V}, I s →
    (∀ tx' s', applyQueue E queue tx s = .ok (tx', s') → I s') ∧
      ∀ e s', applyQueue E queue tx s = .error (e, s') → I s' := by
  intro queue
  induction queue with
  | nil =>
      intro tx s hs
      refine ⟨fun tx' s' h => ?_, fun e s' h => by cases h⟩
      obtain ⟨-, rfl⟩ := Prod.mk.inj (Except.ok.inj h)
      exact hs
  | cons b queue ih =>
      intro tx s hs
      obtain ⟨hok, herr⟩ := c.applyBlock b tx (c.decideBlock b (c.pause hs))
      unfold Replica.applyQueue
      rcases happly : Replica.applyBlock E b tx (Replica.decideBlock b s.pause) with
        ⟨e₁, s₁⟩ | ⟨tx₁, s₁⟩
      · refine ⟨fun _ _ h => (by cases h), fun e s' h => ?_⟩
        obtain ⟨-, rfl⟩ := Prod.mk.inj (Except.error.inj h)
        exact herr _ _ happly
      · have h₁ := hok _ _ happly
        dsimp only
        rcases hnotify : notifyVmOfCommitment E b s₁ with ⟨e₂, s₂⟩ | s₂
        · refine ⟨fun _ _ h => (by cases h), fun e s' h => ?_⟩
          obtain ⟨-, rfl⟩ := Prod.mk.inj (Except.error.inj h)
          unfold notifyVmOfCommitment at hnotify
          split at hnotify
          · obtain ⟨-, rfl⟩ := Prod.mk.inj (Except.error.inj hnotify)
            exact h₁
          · cases hnotify
        · obtain ⟨vm, rfl⟩ := notifyVmOfCommitment_ok hnotify
          exact ih tx₁ (c.setVm vm h₁)

theorem commitBlocks (blk1 blk : BlockPtr) (queue : List BlockPtr) (hs : I s) :
    (∀ s', commitBlocks E blk1 blk queue s = .ok s' → I s') ∧
      ∀ e s', commitBlocks E blk1 blk queue s = .error (e, s') → I s' := by
  obtain ⟨hok, herr⟩ := c.applyQueue queue s.decidedHashIndex.openTxn hs
  unfold Replica.commitBlocks
  rcases happly : Replica.applyQueue E queue s.decidedHashIndex.openTxn s with
    ⟨e₁, s₁⟩ | ⟨tx, s₁⟩
  · refine ⟨fun _ h => (by cases h), fun e s' h => ?_⟩
    obtain ⟨-, rfl⟩ := Prod.mk.inj (Except.error.inj h)
    exact herr _ _ happly
  · refine ⟨fun s' h => ?_, fun _ _ h => (by cases h)⟩
    have h₁ := hok tx s₁ happly
    obtain rfl := Except.ok.inj h
    exact c.prune _ (c.setIndex _ (c.setExec blk h₁))

/-- **The rule for `update`.** What every part keeps is kept, whether the call returns or throws. -/
theorem update (nblk : BlockPtr) (hs : I s) :
    (∀ s', update E nblk s = .ok s' → I s') ∧ ∀ e s', update E nblk s = .error (e, s') → I s' := by
  have hrun := update_run E nblk s
  have hhqc : ∀ b qc, I (Replica.updateHqc b qc s) := fun b qc => c.updateHqc b qc hs
  generalize Replica.update E nblk s = r at hrun
  cases hrun with
  | early _ => exact ⟨fun s' h => Except.ok.inj h ▸ hs, fun _ _ h => by cases h⟩
  | hqcOnly _ _ _ => exact ⟨fun s' h => Except.ok.inj h ▸ hhqc _ _, fun _ _ h => by cases h⟩
  | lockOnly _ _ _ _ =>
      exact ⟨fun s' h => Except.ok.inj h ▸ c.lockAndWrite _ (hhqc _ _), fun _ _ h => by cases h⟩
  | @chain blk2 blk1 blk s₂ r _ _ _ _ hs₂ _ _ _ _ hr =>
      have h₂ : I s₂ := hs₂ ▸ c.lockAndWrite _ (hhqc _ _)
      unfold commitQueue at hr
      split at hr
      · rename_i e hwalk
        -- both ends of the failing walk leave the state as it is
        have he : e.2 = s₂ := by
          split at hwalk
          · rw [← Except.error.inj hwalk]
          · split at hwalk
            · rw [← Except.error.inj hwalk]
            · cases hwalk
        rw [hr]
        refine ⟨fun _ h => (by cases h), fun e' s' h => ?_⟩
        rw [Except.error.inj h] at he
        rw [show s' = s₂ from he]
        exact h₂
      · rw [hr]
        exact c.commitBlocks blk1 blk _ h₂

end Closed

end Replica

end Fred.Hotstuff
