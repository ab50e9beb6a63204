/-
# Fred.Hotstuff.UpdateRule -- the shortcuts of `update`

`update` returns early when it meets a decided block. The chained rule it is an implementation of has no
such case (`plainUpdate`): it raises the certificate, then the lock, and applies what a direct
three-chain commits above `b_exec`. The two agree on certificate, lock, executed block and applied
blocks (`update_eq_plain`), because a decided block is not above `b_exec`, `b_exec` is not above `b_lock`,
and `b_lock` is not above the certified block (`Ranked`). This order survives a restart from the
replica's own disk, where all three come back as the block of the index's certificate.
-/
import Fred.Hotstuff.Lives

namespace Fred.Hotstuff

open Fred.Forest Fred.Transition Replica

variable {V : Type} {E : Setup V} {s s' t : Replica V}

/-! ## The plain rule -/

/-- What the chained rule reads and sets. -/
structure Chained where
  hqc : BlockPtr × QuorumCertificateWire
  bLock : BlockPtr
  bExec : BlockPtr
  applied : List BlockPtr

def Replica.chained (s : Replica V) : Chained := ⟨s.hqc, s.bLock, s.bExec, s.appliedBlocks⟩

namespace Chained

/-- Raise the certificate to `qc` on `blk2` if that is higher. -/
def raiseHqc (h : Heap) (blk2 : BlockPtr) (qc : QuorumCertificate) (c : Chained) : Chained :=
  if h.height blk2 > h.height c.hqc.1 then { c with hqc := (blk2, qc.serialize) } else c

/-- Raise the lock to `blk1` if that is higher. -/
def raiseLock (h : Heap) (blk1 : BlockPtr) (c : Chained) : Chained :=
  if h.height blk1 > h.height c.bLock then { c with bLock := blk1 } else c

/-- Apply `blk` and its ancestors above the executed block, lowest first. -/
def execute (h : Heap) (blk : BlockPtr) (c : Chained) : Chained :=
  { c with
    bExec := blk
    applied := c.applied ++
      (trunk h.parent h.height blk).reverse.filter fun p => h.height p > h.height c.bExec }

end Chained

/-- The end of the chained rule: commit the third block of a direct three-chain if it is higher. -/
def plainCommit (h : Heap) (blk2 blk1 : BlockPtr) (c : Chained) : Chained :=
  match h.justify blk1 with
  | none => c
  | some blk =>
    if h.parent blk2 = some blk1 ∧ h.parent blk1 = some blk ∧ h.height blk > h.height c.bExec then
      c.execute h blk
    else c

/-- The chained rule from its second block on. -/
def plainLock (h : Heap) (blk2 : BlockPtr) (c : Chained) : Chained :=
  match h.justify blk2 with
  | none => c
  | some blk1 => plainCommit h blk2 blk1 (c.raiseLock h blk1)

/-- **The chained rule**, without shortcuts. -/
def plainUpdate (h : Heap) (nblk : BlockPtr) (c : Chained) : Chained :=
  match h.justify nblk with
  | none => c
  | some blk2 => plainLock h blk2 (c.raiseHqc h blk2 (h.get nblk).getJustifyQc)

/-! ## The order of the three blocks -/

/-- The block that a block's certificate is on is among its proper ancestors. -/
def Ancestral (s : Replica V) : Prop :=
  ∀ p, p < s.heap.next → ∀ j, s.heap.justify p = some j →
    ∃ q, s.heap.parent p = some q ∧ Descends s.heap.parent q j

theorem Ancestral.height_lt (A : Ancestral s) (W : WellFormed E s) {p j : BlockPtr}
    (hj : s.heap.justify p = some j) : s.heap.height j < s.heap.height p := by
  have hlt := W.shape.lt_next_of_settled (W.shape.settled_of_justify hj)
  obtain ⟨q, hq, hd⟩ := A p hlt j hj
  have hle := W.forest.height_le hd
  have hparent := W.shape.height_parent hq
  omega

/-- Index and decided flags agree with `b_exec`, and the heights of `b_exec`, `b_lock` and the certified
block ascend. -/
structure Ranked (E : Setup V) (s : Replica V) : Prop where
  wellFormed : WellFormed E s
  index : IndexLog s
  exec_le_lock : s.heap.height s.bExec ≤ s.heap.height s.bLock
  lock_le_hqc : s.heap.height s.bLock ≤ s.heap.height s.hqc.1

theorem Ranked.start (E : Setup V) : Ranked E (Hotstuff.start E) :=
  ⟨WellFormed.start E, IndexLog.start E, le_rfl, le_rfl⟩

/-- A decided block is not above `b_exec`. -/
theorem Ranked.decided_le (R : Ranked E s) {p : BlockPtr} (hset : s.heap.Settled p)
    (hp : (s.heap.get p).decided = true) : s.heap.height p ≤ s.heap.height s.bExec := by
  have W := R.wellFormed
  have hlt := W.shape.lt_next_of_settled hset
  exact W.forest.height_le ((R.index.decided_iff p hlt).mp hp)

/-! ## What the rule leaves alone -/

section Rule

variable {h : Heap} {c : Chained} {nblk blk2 blk1 blk : BlockPtr}

theorem Chained.raiseHqc_of_le {qc : QuorumCertificate} (hle : h.height blk2 ≤ h.height c.hqc.1) :
    c.raiseHqc h blk2 qc = c :=
  if_neg (Nat.not_lt.mpr hle)

theorem Chained.raiseLock_of_le (hle : h.height blk1 ≤ h.height c.bLock) :
    c.raiseLock h blk1 = c :=
  if_neg (Nat.not_lt.mpr hle)

theorem Chained.raiseHqc_bExec (qc : QuorumCertificate) :
    (c.raiseHqc h blk2 qc).bExec = c.bExec ∧ (c.raiseHqc h blk2 qc).bLock = c.bLock := by
  unfold raiseHqc
  split <;> exact ⟨rfl, rfl⟩

theorem plainCommit_of_not (hno : ∀ blk, h.justify blk1 = some blk → h.parent blk2 = some blk1 →
    h.parent blk1 = some blk → h.height blk ≤ h.height c.bExec) : plainCommit h blk2 blk1 c = c := by
  unfold plainCommit
  split
  · rfl
  · rename_i blk hj
    apply if_neg
    rintro ⟨hp2, hp1, hgt⟩
    exact absurd hgt (Nat.not_lt.mpr (hno blk hj hp2 hp1))

end Rule

/-- The heights of the three blocks ascend. -/
structure Chained.Ascending (h : Heap) (c : Chained) : Prop where
  exec_le_lock : h.height c.bExec ≤ h.height c.bLock
  lock_le_hqc : h.height c.bLock ≤ h.height c.hqc.1

/-- **The rule keeps the three blocks in order**, where certificates are on lower blocks. -/
theorem plainUpdate_ascending {h : Heap} {c : Chained} (nblk : BlockPtr)
    (hlower : ∀ p j, h.justify p = some j → h.height j < h.height p) (hc : c.Ascending h) :
    (plainUpdate h nblk c).Ascending h := by
  unfold plainUpdate
  split
  · exact hc
  rename_i blk2 _
  -- after each stage the block below is bounded by the one just raised or kept
  have hc₂ : (c.raiseHqc h blk2 (h.get nblk).getJustifyQc).Ascending h ∧
      h.height blk2 ≤ h.height (c.raiseHqc h blk2 (h.get nblk).getJustifyQc).hqc.1 := by
    unfold Chained.raiseHqc
    split
    · rename_i hgt
      exact ⟨⟨hc.exec_le_lock, hc.lock_le_hqc.trans hgt.le⟩, le_rfl⟩
    · rename_i hle
      exact ⟨hc, Nat.not_lt.mp hle⟩
  generalize c.raiseHqc h blk2 (h.get nblk).getJustifyQc = c₂ at hc₂
  obtain ⟨hc₂, hle₂⟩ := hc₂
  unfold plainLock
  split
  · exact hc₂
  rename_i blk1 h1
  have hc₁ : (c₂.raiseLock h blk1).Ascending h ∧
      h.height blk1 ≤ h.height (c₂.raiseLock h blk1).bLock := by
    unfold Chained.raiseLock
    split
    · rename_i hgt
      exact ⟨⟨hc₂.exec_le_lock.trans hgt.le, (hlower _ _ h1).le.trans hle₂⟩, le_rfl⟩
    · rename_i hle
      exact ⟨hc₂, Nat.not_lt.mp hle⟩
  generalize c₂.raiseLock h blk1 = c₁ at hc₁
  obtain ⟨hc₁, hle₁⟩ := hc₁
  unfold plainCommit
  split
  · exact hc₁
  rename_i blk h0
  split
  · exact ⟨(hlower _ _ h0).le.trans hle₁, hc₁.lock_le_hqc⟩
  · exact hc₁

/-! ## `update` is the plain rule -/

section Update

variable {nblk blk2 blk1 blk : BlockPtr}

theorem chained_updateHqc (blk2 : BlockPtr) (qc : QuorumCertificate) :
    (updateHqc blk2 qc s).chained = s.chained.raiseHqc s.heap blk2 qc := by
  unfold updateHqc Chained.raiseHqc Replica.chained
  split <;> rfl

theorem Chained.raiseLock_eq (h : Heap) (blk1 : BlockPtr) (c : Chained) :
    c.raiseLock h blk1 =
      { c with bLock := if h.height blk1 > h.height c.bLock then blk1 else c.bLock } := by
  unfold raiseLock
  split <;> rfl

/-- The lock stage raises certificate and lock. -/
theorem chained_lockStage {s₂ : Replica V} (l : LockStage E nblk blk2 blk1 s s₂) :
    s₂.chained =
      (s.chained.raiseHqc s.heap blk2 (s.heap.get nblk).getJustifyQc).raiseLock s.heap blk1 := by
  have hhqc : s₂.hqc = (updateHqc blk2 (s.heap.get nblk).getJustifyQc s).hqc := l.spec.keeps.hqc_eq
  have hlock : s₂.bLock = newLock blk1 s := l.spec.keeps.bLock_eq
  have hkept : (updateHqc blk2 (s.heap.get nblk).getJustifyQc s).bLock = s.bLock := by
    unfold updateHqc
    split <;> rfl
  have hstays := Stays.lockStage l
  have hstays₁ := Stays.updateHqc (s := s) blk2 (s.heap.get nblk).getJustifyQc
  rw [← chained_updateHqc, Chained.raiseLock_eq]
  simp only [Replica.chained, hhqc, hlock, hstays.bExec_eq, hstays₁.bExec_eq, hstays.applied_eq,
    hstays₁.applied_eq, hkept, newLock]

/-- Below a block that is not above `b_exec` the rule leaves everything as it is. -/
theorem plainLock_of_le (R : Ranked E s) (A : Ancestral s) {c : Chained} (hexec : c.bExec = s.bExec)
    (hlock : c.bLock = s.bLock)
    (hle : ∀ blk1, s.heap.justify blk2 = some blk1 → s.heap.height blk1 ≤ s.heap.height s.bExec) :
    plainLock s.heap blk2 c = c := by
  unfold plainLock
  split
  · rfl
  · rename_i blk1 hj
    have hle₁ := hle blk1 hj
    rw [Chained.raiseLock_of_le (by rw [hlock]; exact hle₁.trans R.exec_le_lock)]
    apply plainCommit_of_not
    intro blk hblk _ _
    have hlt := A.height_lt R.wellFormed hblk
    rw [hexec]
    omega

/-- A direct three-chain on an undecided block is committed, if `update` returns. -/
theorem bExec_of_chain (W : WellFormed E s) (h2 : s.heap.justify nblk = some blk2)
    (hd2 : (s.heap.get blk2).decided = false) (h1 : s.heap.justify blk2 = some blk1)
    (hd1 : (s.heap.get blk1).decided = false) (h0 : s.heap.justify blk1 = some blk)
    (hd0 : (s.heap.get blk).decided = false) (hp2 : s.heap.parent blk2 = some blk1)
    (hp1 : s.heap.parent blk1 = some blk) (h : update E nblk s = .ok s') : s'.bExec = blk := by
  have l := lockStage W h2 hd2 h1 hd1
  have hcores := l.spec.core_eq
  rw [← hcores.justify_eq] at h0
  rw [← Stays.decided_lockStage l] at hd0
  rw [← hcores.parent_eq] at hp2 hp1
  simp only [update, h2, hd2, heap_updateHqc, h1, hd1, h0, hd0, hp2, hp1, Bool.false_eq_true, if_false,
    ne_eq, not_true_eq_false, or_self] at h
  split at h
  · cases h
  · obtain ⟨tx, s₃, A, rfl⟩ := commitBlocks_ok l.wellFormed.collector h
    rfl

/-- The commit queue is what the rule applies. -/
theorem queue_eq_filter (W : WellFormed E s) {queue : List BlockPtr} {tx : HotstuffLMDB.Txn}
    {s₂ s₃ : Replica V} (c : CommitStage E nblk blk2 blk1 blk queue tx s s₂ s₃) :
    (trunk s.heap.parent s.heap.height blk).reverse.filter
      (fun p => s.heap.height p > s.heap.height s.bExec) = queue := by
  rw [c.trunk_eq, List.filter_append]
  have hbelow : (trunk s.heap.parent s.heap.height s.bExec).reverse.filter
      (fun p => s.heap.height p > s.heap.height s.bExec) = [] := by
    rw [List.filter_eq_nil_iff]
    intro p hp
    have hd := ((W.forest.mem_trunk).mp (List.mem_reverse.mp hp)).1
    simpa using W.forest.height_le hd
  have habove : queue.filter (fun p => s.heap.height p > s.heap.height s.bExec) = queue := by
    rw [List.filter_eq_self]
    intro p hp
    simpa using ((c.mem_queue p).mp hp).2
  rw [hbelow, habove, List.nil_append]

theorem chained_committed (W : WellFormed E s) {queue : List BlockPtr} {tx : HotstuffLMDB.Txn}
    {s₂ s₃ : Replica V} (c : CommitStage E nblk blk2 blk1 blk queue tx s s₂ s₃) :
    (committed blk1 blk tx s s₃).chained = s₂.chained.execute s.heap blk := by
  have happlied : (committed blk1 blk tx s s₃).appliedBlocks = s₂.appliedBlocks ++ queue := by
    show s₃.appliedBlocks = _
    unfold appliedBlocks
    rw [c.apply.trace_eq, List.filterMap_append, filterMap_applied]
  have hhqc : (committed blk1 blk tx s s₃).hqc = s₂.hqc := c.apply.keeps.hqc_eq
  have hlock : (committed blk1 blk tx s s₃).bLock = s₂.bLock := c.apply.keeps.bLock_eq
  have hexec : s₂.bExec = s.bExec := (Stays.lockStage c.lock).bExec_eq
  simp only [Replica.chained, Chained.execute, happlied, hhqc, hlock, hexec, queue_eq_filter W c]
  rfl

/-- **The shortcuts change nothing.** -/
theorem update_eq_plain (R : Ranked E s) (A : Ancestral s) (h : update E nblk s = .ok s') :
    s'.chained = plainUpdate s.heap nblk s.chained := by
  have W := R.wellFormed
  cases (update_ok W h).1 with
  | early hearly =>
      unfold plainUpdate
      split
      · rfl
      · rename_i blk2 h2
        have hle := R.decided_le (W.shape.settled_justify h2) (hearly blk2 h2)
        have hhqc : s.heap.height blk2 ≤ s.heap.height s.hqc.1 :=
          hle.trans (R.exec_le_lock.trans R.lock_le_hqc)
        rw [Chained.raiseHqc_of_le hhqc]
        apply (plainLock_of_le R A rfl rfl _).symm
        intro blk1 h1
        exact (A.height_lt W h1).le.trans hle
  | @hqcOnly blk2 h2 _ hstop =>
      simp only [plainUpdate, h2]
      rw [chained_updateHqc]
      have hkept : ∀ qc, (s.chained.raiseHqc s.heap blk2 qc).bExec = s.bExec ∧
          (s.chained.raiseHqc s.heap blk2 qc).bLock = s.bLock := fun qc => Chained.raiseHqc_bExec qc
      apply (plainLock_of_le R A (hkept _).1 (hkept _).2 _).symm
      intro blk1 h1
      exact R.decided_le (W.shape.settled_justify h1) (hstop blk1 h1)
  | @lockOnly blk2 blk1 s₂ l =>
      simp only [plainUpdate, l.justify₂, plainLock, l.justify₁]
      rw [← chained_lockStage l]
      apply (plainCommit_of_not fun blk h0 hp2 hp1 => ?_).symm
      have hexec : s'.bExec = s.bExec := (Stays.lockStage l).bExec_eq
      show s.heap.height blk ≤ s.heap.height s'.bExec
      rw [hexec]
      -- an undecided block would have been committed
      rcases hd0 : (s.heap.get blk).decided with _ | _
      · have hblk := bExec_of_chain W l.justify₂ l.undecided₂ l.justify₁ l.undecided₁ h0 hd0 hp2 hp1 h
        rw [← hblk, hexec]
      · exact R.decided_le (W.shape.settled_justify h0) hd0
  | @commit blk2 blk1 blk queue tx s₂ s₃ c _ =>
      have hgt : s.heap.height s.bExec < s.heap.height blk := by
        refine lt_of_le_of_ne (W.forest.height_le c.exec) fun heq => ?_
        have hsame : blk = s.bExec :=
          W.forest.eq_of_height_eq (Descends.refl blk) c.exec heq.symm
        have hdecided := (R.index.decided_iff s.bExec
          (W.shape.lt_next_of_settled W.exec_settled)).mpr (Descends.refl _)
        rw [← hsame, c.undecided₀] at hdecided
        cases hdecided
      have hexec : (s₂.chained).bExec = s.bExec := (Stays.lockStage c.lock).bExec_eq
      simp only [plainUpdate, c.lock.justify₂, plainLock, c.lock.justify₁, plainCommit, c.justify₀]
      rw [← chained_lockStage c.lock, if_pos ⟨c.parent₂, c.parent₁, hexec.symm ▸ hgt⟩]
      exact chained_committed W c

end Update

/-! ## The order over a run -/

theorem Ranked.ascending (R : Ranked E s) : s.chained.Ascending s.heap :=
  ⟨R.exec_le_lock, R.lock_le_hqc⟩

/-- A call of `update` that returns keeps the order. -/
theorem Ranked.ascending_update (R : Ranked E s) (A : Ancestral s) {nblk : BlockPtr}
    (h : update E nblk s = .ok s') : s'.chained.Ascending s'.heap := by
  have hplain := plainUpdate_ascending nblk (fun _ _ hj => A.height_lt R.wellFormed hj) R.ascending
  rw [← update_eq_plain R A h] at hplain
  have hheight := (update_ok R.wellFormed h).1.cores.height_eq
  exact ⟨hheight ▸ hplain.exec_le_lock, hheight ▸ hplain.lock_le_hqc⟩

/-- **Every step keeps the order.** -/
theorem Ranked.step {i : Input} (R : Ranked E s) (A : Ancestral s)
    (h : Hotstuff.step E i s = .ok s') : Ranked E s' := by
  have W := R.wellFormed
  have I := R.index.step W h
  obtain ⟨W', o | ⟨schedule, p, rid, rest, s₁, -, P⟩⟩ := step_cases W h
  · refine ⟨W', I, ?_, ?_⟩
    · rw [o.bExec_eq, o.bLock_eq, o.heap.height_eq W.exec_settled, o.heap.height_eq W.lock_settled]
      exact R.exec_le_lock
    · rw [o.bLock_eq, o.heap.height_eq W.lock_settled]
      exact R.lock_le_hqc.trans (hqc_le_step W h)
  · -- the event is taken off the queue, and the vote changes none of the three
    have W₀ := W.popEvent schedule P.queue_eq
    have hvote : ∃ q tr vh, s₁ =
        { s with eventQueue := q, schedule := schedule, trace := tr, vheight := vh } := by
      rcases voteOnProposal_ok W₀ P.ne_genesis P.settled P.vote with v | ⟨rfl, -⟩
      · obtain ⟨q, -, rfl⟩ := v.eq
        exact ⟨_, _, _, rfl⟩
      · exact ⟨_, _, _, rfl⟩
    obtain ⟨q, tr, vh, rfl⟩ := hvote
    have I₁ : IndexLog ({ s with eventQueue := q, schedule := schedule, trace := tr, vheight := vh } :
        Replica V) := ⟨R.index.decided_iff, R.index.indexed_eq, R.index.qc_entry, R.index.qc_none,
      R.index.created⟩
    have R₁ := Ranked.mk P.wellFormed I₁ R.exec_le_lock R.lock_le_hqc
    have hasc := R₁.ascending_update A P.call
    exact ⟨W', I, hasc.exec_le_lock, hasc.lock_le_hqc⟩

/-! ## The order after a restart -/

/-- The disk of the replica after a crash: its index, and files in which the blocks of the executed chain
are themselves. The index changes with the last write of a commit only, so a crash inside an event leaves
the index from before or after the event. -/
structure OwnDisk (s : Replica V) (disk : Disk) : Prop where
  index_eq : disk.index = s.decidedHashIndex
  files : ∀ p ∈ s.executedChain, ∀ w, disk.files (s.heap.hash p) = some w →
    w.header = s.heap.header p

/-- What a replica that has not crashed before leaves on disk. -/
theorem ownDisk_of_reach (h : Reach (step E) anyInput (start E) s) : OwnDisk s s.disk where
  index_eq := rfl
  files := by
    obtain ⟨W, L⟩ := wellFormed_saveLog_of_reach h
    exact fun p hp w hw => file_header W L hp hw

/-- Every loaded block is flagged as decided. -/
theorem decided_reloadLoop {es : List IndexEntry} {r r' : ℕ × Replica V} (R : Reloading E r.2)
    (hdecided : ∀ p, p < r.2.heap.next → (r.2.heap.get p).decided = true)
    (h : reloadLoop E es r = .ok r') :
    ∀ p, p < r'.2.heap.next → (r'.2.heap.get p).decided = true := by
  refine (reloadLoop_keeps (I := fun t => Reloading E t ∧
    ∀ p, p < t.heap.next → (t.heap.get p).decided = true) ?_ ⟨R, hdecided⟩ h).2
  rintro x n t s' ⟨R, hdecided⟩ hround
  refine ⟨R.reloadBlock hround, ?_⟩
  obtain ⟨w, q, j, -, -, rfl⟩ := reloadBlock_ok R.shape hround
  intro p hp
  show (((t.heap.alloc _).link t.heap.next q j).get p).decided = true
  rcases Nat.lt_succ_iff_lt_or_eq.mp hp with hp | rfl
  · rw [Heap.get_link_of_ne _ _ _ (Nat.ne_of_lt hp), Heap.get_alloc_of_ne _ _ (Nat.ne_of_lt hp)]
    exact hdecided p hp
  · rw [Heap.get_link_self, Heap.get_alloc_next]
    rfl

/-- What the loop has loaded from the replica's own disk, and what was set from it. -/
structure Restored (E : Setup V) (s t : Replica V) : Prop where
  exec_ne : s.bExec ≠ genesisPtr
  loaded : ∃ u : Replica V, Loaded E { s with files := u.files } (s.heap.height s.bExec) u ∧
    (∀ p, p < u.heap.next → u.heap.Settled p ∧ (u.heap.get p).decided = true) ∧
    t.heap = u.heap ∧ t.blockStore = u.blockStore
  index_eq : t.decidedHashIndex = s.decidedHashIndex
  bExec_eq : t.bExec = s.heap.height s.bExec
  bLock_eq : t.bLock = t.bExec
  hqc_eq : t.hqc.1 = t.bExec

theorem restored_of_ownDisk (W : WellFormed E s) (I : IndexLog s) {disk : Disk} (D : OwnDisk s disk)
    (h : initFromDisk E disk = .ok t) : Restored E s t := by
  obtain ⟨files, index⟩ := disk
  obtain rfl : index = s.decidedHashIndex := D.index_eq
  have W' : WellFormed E { s with files := files } :=
    W.withQueue (fun _ he => Or.inl he) _ _ _ _ _ _ _
  have R₀ : Reloading E (Replica.make files s.decidedHashIndex E.vm.initClean) :=
    reloading_make files s.decidedHashIndex E.vm.initClean
  have hdecided₀ : ∀ p, p < (Replica.make files s.decidedHashIndex E.vm.initClean).heap.next →
      ((Replica.make files s.decidedHashIndex E.vm.initClean).heap.get p).decided = true := by
    intro p hp
    obtain rfl : p = 0 := Nat.lt_one_iff.mp hp
    rfl
  obtain ⟨index, highest, u, u₁, vm, hopen, hloop, hstate, rfl⟩ := initFromDisk_ok h
  obtain rfl : s.decidedHashIndex = index := Except.ok.inj (I.openDb_eq.symm.trans hopen)
  have hspec := reloadLoop_spec W' D.files (loaded_start W' E.vm.initClean) (Nat.zero_le _)
    I.hashes_eq
  obtain ⟨-, u', hok, T⟩ | ⟨-, e, he⟩ := hspec
  swap
  · have herror := hloop.symm.trans he
    cases herror
  have hsame := Except.ok.inj (hok.symm.trans hloop)
  obtain ⟨rfl, rfl⟩ := Prod.mk.inj hsame
  have R := R₀.reloadLoop hloop
  have hdecided := decided_reloadLoop R₀ hdecided₀ hloop
  have hindex : u'.decidedHashIndex = s.decidedHashIndex := T.index_eq
  have hfiles : u'.files = files := T.files_eq
  rcases T.reloadStateFromIndex I with ⟨-, hstate'⟩ | ⟨hgen, qc, hstate'⟩
  · rw [hstate'] at hstate
    cases hstate
  · rw [hstate'] at hstate
    obtain rfl := Except.ok.inj hstate
    -- the committed block is above genesis, so the certificate is raised to it
    have hpos : 0 < s.heap.height s.bExec := W.shape.height_pos W.exec_settled hgen
    have hraise : u'.heap.height (s.heap.height s.bExec) > u'.heap.height u'.hqc.1 := by
      rw [T.height_eq _ le_rfl, T.hqc_eq, T.shape.height_genesis]
      exact hpos
    have hraised : (updateHqc (s.heap.height s.bExec) (.ofWire qc) u').hqc.1 =
        s.heap.height s.bExec := by
      unfold updateHqc
      rw [if_pos hraise]
    exact
      { exec_ne := hgen
        loaded := ⟨u', hfiles.symm ▸ T, fun p hp => ⟨R.settled p hp, hdecided p hp⟩,
          heap_updateHqc _ _ _, (updateHqc_frame _ _ _).2⟩
        index_eq := (updateHqc_index _ _ _).trans hindex
        bExec_eq := rfl
        bLock_eq := rfl
        hqc_eq := hraised }

/-- The block of height `h` is object `h`, and its parent is the object before it. -/
theorem Loaded.parent_succ {k n : ℕ} (T : Loaded E s k t)
    (hset : ∀ p, p < t.heap.next → t.heap.Settled p) (hn : n < k) :
    t.heap.parent (n + 1) = some n := by
  have hlt : n + 1 < t.heap.next := by
    rw [T.next_eq]
    exact Nat.succ_lt_succ hn
  obtain ⟨q, hq⟩ := (hset (n + 1) hlt).resolve_left (Nat.succ_ne_zero n)
  have hqk : q < k + 1 := T.next_eq ▸ T.shape.lt_next_of_settled (T.shape.settled_parent hq)
  have hheight := T.shape.height_parent hq
  rw [T.height_eq _ hn, T.height_eq q (Nat.lt_succ_iff.mp hqk)] at hheight
  rw [hq, ← Nat.succ.inj hheight]

/-- The loaded objects form one chain. -/
theorem Loaded.descends {k m : ℕ} (T : Loaded E s k t)
    (hset : ∀ p, p < t.heap.next → t.heap.Settled p) (hm : m ≤ k) :
    Descends t.heap.parent k m := by
  have hchain : ∀ j, m ≤ j → j ≤ k → Descends t.heap.parent j m := by
    intro j hmj
    induction hmj with
    | refl => exact fun _ => Descends.refl _
    | @step j _ ih =>
        intro hj
        exact Descends.head (T.parent_succ hset hj) (ih (Nat.le_of_succ_le hj))
  exact hchain k hm le_rfl

/-- The restored index agrees with the chain that was loaded from it. -/
theorem Restored.index (S : Restored E s t) (W : WellFormed E s) (I : IndexLog s)
    (W' : WellFormed E t) : IndexLog t := by
  obtain ⟨u, T, hflags, hheap, -⟩ := S.loaded
  have hnext : u.heap.next = s.heap.height s.bExec + 1 := T.next_eq
  have hself : ∀ n, n ≤ s.heap.height s.bExec → u.heap.height n = n := T.height_eq
  have hexec : t.heap.height t.bExec = s.heap.height s.bExec := by
    rw [hheap, S.bExec_eq]
    exact hself _ le_rfl
  have hdesc : ∀ p, p < t.heap.next → Descends t.heap.parent t.bExec p := by
    intro p hp
    rw [hheap] at hp ⊢
    rw [S.bExec_eq]
    exact T.descends (fun p hp => (hflags p hp).1) (Nat.le_of_lt_succ (lt_of_lt_of_eq hp hnext))
  -- an executed block of `s` is found under its height
  have hfound : ∀ p, Descends s.heap.parent s.bExec p →
      t.heap.hash (s.heap.height p) = s.heap.hash p := by
    intro p hp
    rw [hheap]
    exact (T.shape.cached (T.find p hp (W.forest.height_le hp))).1
  refine ⟨fun p hp => ⟨fun _ => hdesc p hp, fun _ => ?_⟩, ?_, fun _ => ?_, fun hgen => ?_, ?_⟩
  · rw [hheap] at hp ⊢
    exact (hflags p hp).2
  · -- both lists are told by the heights from 1 to that of the executed block
    have hs : s.executedChain.map (fun p => (s.heap.height p, s.heap.hash p)) =
        (s.executedChain.map s.heap.height).map fun n => (n, t.heap.hash n) := by
      rw [List.map_map]
      apply List.map_congr_left
      intro p hp
      simp [hfound p ((mem_executedChain W).mp hp).1]
    have ht : t.executedChain.map (fun p => (t.heap.height p, t.heap.hash p)) =
        (t.executedChain.map t.heap.height).map fun n => (n, t.heap.hash n) := by
      rw [List.map_map]
      apply List.map_congr_left
      intro p hp
      have hlt := W'.shape.lt_next_of_settled
        (W'.shape.settled_descends W'.exec_settled ((mem_executedChain W').mp hp).1)
      have hheight : t.heap.height p = p := by
        rw [hheap] at hlt ⊢
        exact hself p (Nat.le_of_lt_succ (lt_of_lt_of_eq hlt hnext))
      simp [hheight]
    rw [ht, heights_executedChain W', hexec, ← heights_executedChain W, ← hs]
    unfold indexedHashes
    rw [S.index_eq]
    exact I.indexed_eq
  · obtain ⟨qc, hqc, hjustify⟩ := I.qc_entry S.exec_ne
    refine ⟨qc, by rw [S.index_eq, hqc], ?_⟩
    rw [hjustify, S.bExec_eq, hfound _ (Descends.refl _)]
  · have hpos := W.shape.height_pos W.exec_settled S.exec_ne
    rw [S.bExec_eq] at hgen
    exact absurd hgen (Nat.ne_of_gt hpos)
  · rw [S.index_eq]
    exact I.created

/-- **A restart keeps the order.** -/
theorem Ranked.restart (R : Ranked E s) {disk : Disk} (D : OwnDisk s disk)
    (h : initFromDisk E disk = .ok t) : Ranked E t := by
  have W := R.wellFormed
  have W' := (initFromDisk_wellFormed h).1
  have S := restored_of_ownDisk W R.index D h
  exact ⟨W', S.index W R.index W', by rw [S.bLock_eq], by rw [S.hqc_eq, S.bLock_eq]⟩

/-! ## The result -/

/-- Certificates are on proper ancestors in the state a turn leads to, and a restart is from the replica's
own disk. -/
def KeepsAncestral (E : Setup V) (s : Replica V) (a : Turn) : Prop :=
  (∀ t, turn E a s = .ok t → Ancestral t) ∧ ∀ disk, a = .restart disk → OwnDisk s disk

theorem ranked_of_reach (h : Reach (turn E) (KeepsAncestral E) (start E) s) :
    Ranked E s ∧ Ancestral s := by
  refine h.invariant (I := fun s => Ranked E s ∧ Ancestral s) ⟨Ranked.start E, ?_⟩ ?_
  · intro p _ j hj
    cases hj
  · rintro t u a ⟨R, A⟩ ⟨hancestral, hdisk⟩ hturn
    refine ⟨?_, hancestral u hturn⟩
    cases a with
    | input i => exact R.step A hturn
    | restart disk => exact R.restart (hdisk disk rfl) (turn_restart_ok hturn)

/-- **The shortcuts of `update` do not change its meaning.** In every state of every life of a replica
whose blocks carry certificates on proper ancestors and which restarts from its own disk, a call of
`update` that returns leaves certificate, lock, executed block and applied blocks as the chained rule
does, whenever the collector runs during the call. -/
theorem update_is_plain (h : Reach (turn E) (KeepsAncestral E) (start E) s) (schedule : List ℕ)
    (nblk : BlockPtr) (hupdate : update E nblk { s with schedule := schedule } = .ok s') :
    s'.chained = plainUpdate s.heap nblk s.chained := by
  obtain ⟨R, A⟩ := ranked_of_reach h
  have R' : Ranked E { s with schedule := schedule } := by
    refine ⟨?_, ⟨R.index.decided_iff, R.index.indexed_eq, R.index.qc_entry, R.index.qc_none,
      R.index.created⟩, R.exec_le_lock, R.lock_le_hqc⟩
    exact R.wellFormed.withQueue (fun _ he => Or.inl he) _ _ _ _ _ _ _
  exact update_eq_plain (s := { s with schedule := schedule }) R' A hupdate

namespace Instance

/-- Whether `b` is reached from `a` by at most `n` parent links. -/
def reaches (parent : BlockPtr → Option BlockPtr) : ℕ → BlockPtr → BlockPtr → Bool
  | 0, a, b => a == b
  | n + 1, a, b => a == b ||
    match parent a with
    | none => false
    | some c => reaches parent n c b

theorem descends_of_reaches {parent : BlockPtr → Option BlockPtr} {b : BlockPtr} :
    ∀ {n : ℕ} {a : BlockPtr}, reaches parent n a b = true → Descends parent a b
  | 0, a, h => by
      obtain rfl : a = b := by simpa [reaches] using h
      exact Descends.refl a
  | n + 1, a, h => by
      unfold reaches at h
      rcases Bool.or_eq_true_iff.mp h with heq | hnext
      · obtain rfl : a = b := by simpa using heq
        exact Descends.refl a
      · split at hnext
        · cases hnext
        · rename_i c hc
          exact Descends.head hc (descends_of_reaches hnext)

def ancestralCheck (s : Replica Unit) : Bool :=
  (List.range s.heap.next).all fun p =>
    match s.heap.justify p, s.heap.parent p with
    | none, _ => true
    | some _, none => false
    | some j, some q => reaches s.heap.parent s.heap.next q j

theorem ancestral_of_check {s : Replica Unit} (h : ancestralCheck s = true) : Ancestral s := by
  intro p hp j hj
  have hone := List.all_eq_true.mp h p (List.mem_range.mpr hp)
  rw [hj] at hone
  rcases hq : s.heap.parent p with _ | q
  · simp [hq] at hone
  · rw [hq] at hone
    exact ⟨q, rfl, descends_of_reaches hone⟩

def ownDiskCheck (s : Replica Unit) (disk : Disk) : Bool :=
  disk.index == s.decidedHashIndex && s.executedChain.all fun p =>
    match disk.files (s.heap.hash p) with
    | none => true
    | some w => w.header == s.heap.header p

theorem ownDisk_of_check {s : Replica Unit} {disk : Disk} (h : ownDiskCheck s disk = true) :
    OwnDisk s disk := by
  obtain ⟨hindex, hfiles⟩ := Bool.and_eq_true_iff.mp h
  refine ⟨by simpa using hindex, fun p hp w hw => ?_⟩
  have hone := List.all_eq_true.mp hfiles p hp
  rw [hw] at hone
  simpa using hone

def keepsAncestralCheck (s : Replica Unit) (a : Turn) : Bool :=
  (match turn soloSetup a s with
    | .ok t => ancestralCheck t
    | .error _ => true) &&
  match a with
  | .restart disk => ownDiskCheck s disk
  | .input _ => true

theorem keepsAncestral_of_check (s : Replica Unit) (a : Turn) (h : keepsAncestralCheck s a = true) :
    KeepsAncestral soloSetup s a := by
  obtain ⟨hturn, hdisk⟩ := Bool.and_eq_true_iff.mp h
  constructor
  · intro t ht
    rw [ht] at hturn
    exact ancestral_of_check hturn
  · rintro disk rfl
    exact ownDisk_of_check hdisk

/-- Four rounds, a crash, three rounds from the disk, and a proposal. -/
def restartedRounds : List Turn :=
  (soloRounds 4).map .input ++ [.restart soloDisk] ++
    (soloRounds 3 ++ [Input.doEmptyPropose]).map .input

/-- What `update` on the leaf has applied, if it returns. -/
def appliedByUpdate (s : Replica Unit) : Option (List BlockPtr) :=
  match update soloSetup s.bLeaf { s with schedule := [] } with
  | .ok s' => some s'.appliedBlocks
  | .error _ => none

end Instance

/-- In its second life a single replica commits by the chained rule. -/
theorem update_is_plain_restarted : ∃ s s' : Replica Unit,
    update Instance.soloSetup s.bLeaf { s with schedule := [] } = .ok s' ∧
      s'.appliedBlocks = [2] ∧ s'.chained = plainUpdate s.heap s.bLeaf s.chained := by
  have hrun : (runListIf (turn Instance.soloSetup) Instance.keepsAncestralCheck
      Instance.restartedRounds (start Instance.soloSetup)).map Instance.appliedByUpdate =
        some (some [2]) := by
    decide +kernel
  obtain ⟨s, hs, happlied⟩ := Option.map_eq_some_iff.mp hrun
  have hreach := Reach.of_runListIf Instance.keepsAncestral_of_check hs
  unfold Instance.appliedByUpdate at happlied
  split at happlied
  · rename_i s' hupdate
    exact ⟨s, s', hupdate, Option.some.inj happlied, update_is_plain hreach [] s.bLeaf hupdate⟩
  · cases happlied

end Fred.Hotstuff
