/-
# Fred.Hotstuff.Pruning -- the collector never reaches an undecided block

`update` hands every block of its commit queue to `apply_block`, which asks for the body and throws if
it was flushed. The queue holds blocks above `b_exec` only, `b_exec` never goes down, and the collector
works below a height some earlier `b_exec` had, less the keep depth and clamped at zero. So no body of a
queued block was ever cleared (`pruning_spares_undecided`), at whatever points the collector ran: between
events, while the lock is written and between the blocks of the queue. A restart drops the collector and
all objects, and loads bodies anew.
-/
import Fred.Hotstuff.Bodies
import Fred.Hotstuff.Lives

namespace Fred.Hotstuff

open Fred.Forest Fred.Transition Replica

variable {V : Type} {E : Setup V} {s s' s₂ t : Replica V} {p blk : BlockPtr} {queue : List BlockPtr}

/-- The exception of `has_body`. -/
def Exn.bodyFlushed : Exn := .runtimeError "can't query body if flushed from memory"

/-! ## The commit queue and its loop -/

/-- `update`, called on `nblk`, comes to the walk in state `s₂`, and the walk from `blk` fills the commit
queue. -/
structure Walks (E : Setup V) (nblk blk : BlockPtr) (queue : List BlockPtr) (s s₂ : Replica V) :
    Prop where
  chain : ∃ blk2 blk1, s.heap.justify nblk = some blk2 ∧ (s.heap.get blk2).decided = false ∧
    s.heap.justify blk2 = some blk1 ∧ (s.heap.get blk1).decided = false ∧
    s₂ = lockAndWrite E blk1 (updateHqc blk2 (s.heap.get nblk).getJustifyQc s) ∧
    s₂.heap.justify blk1 = some blk ∧ (s₂.heap.get blk).decided = false ∧
    s₂.heap.parent blk2 = some blk1 ∧ s₂.heap.parent blk1 = some blk
  queue_eq : commitQueue blk s₂ = .ok queue

/-- The loop over the commit queue, begun in state `s₂`, comes to block `b`, and `apply_block` finds the
state `t`. -/
def ComesTo (E : Setup V) (queue : List BlockPtr) (s₂ : Replica V) (b : BlockPtr) (t : Replica V) :
    Prop :=
  ∃ pre post tx u, queue = pre ++ b :: post ∧
    applyQueue E pre s₂.decidedHashIndex.openTxn s₂ = .ok (tx, u) ∧ t = decideBlock b u.pause

theorem ComesTo.head (b : BlockPtr) (queue : List BlockPtr) (s₂ : Replica V) :
    ComesTo E (b :: queue) s₂ b (decideBlock b s₂.pause) :=
  ⟨[], queue, s₂.decidedHashIndex.openTxn, s₂, rfl, rfl, rfl⟩

/-- `apply_block` throws for a flushed block, and only then. -/
theorem applyBlock_bodyFlushed {b : BlockPtr} {tx : HotstuffLMDB.Txn}
    (h : applyBlock E b tx s = .error (.bodyFlushed, s')) :
    (s.heap.get b).flushedFromMemory = true := by
  unfold applyBlock HotstuffBlock.hasBody at h
  split at h
  · rename_i hbody
    split at hbody
    · assumption
    · cases hbody
  · dsimp only at h
    split at h
    · cases h
    · cases h

theorem notifyVmOfCommitment_ne_bodyFlushed {b : BlockPtr} :
    notifyVmOfCommitment E b s ≠ .error (.bodyFlushed, s') := by
  unfold notifyVmOfCommitment
  intro h
  split at h
  · cases h
  · cases h

/-- The loop throws at a block it comes to whose body was flushed. -/
theorem applyQueue_bodyFlushed : ∀ {queue : List BlockPtr} {tx : HotstuffLMDB.Txn} {s : Replica V},
    applyQueue E queue tx s = .error (.bodyFlushed, s') →
    ∃ pre b post tx' u, queue = pre ++ b :: post ∧ applyQueue E pre tx s = .ok (tx', u) ∧
      ((decideBlock b u.pause).heap.get b).flushedFromMemory = true
  | [], _, _, h => by cases h
  | b :: queue, tx, s, h => by
      unfold applyQueue at h
      rcases happly : applyBlock E b tx (decideBlock b s.pause) with e | ⟨tx₁, s₁⟩
      · simp only [happly] at h
        obtain rfl := Except.error.inj h
        -- this block throws, before any of the others is reached
        exact ⟨[], b, queue, tx, s, rfl, rfl, applyBlock_bodyFlushed happly⟩
      · rcases hnotify : notifyVmOfCommitment E b s₁ with e | s₂
        · simp only [happly, hnotify] at h
          obtain rfl := Except.error.inj h
          exact absurd hnotify notifyVmOfCommitment_ne_bodyFlushed
        · simp only [happly, hnotify] at h
          obtain ⟨pre, c, post, tx', u, rfl, hrun, hf⟩ := applyQueue_bodyFlushed h
          refine ⟨b :: pre, c, post, tx', u, rfl, ?_, hf⟩
          simp only [applyQueue, happly, hnotify, hrun]

theorem commitQueue_ne_bodyFlushed : commitQueue blk s ≠ .error (.bodyFlushed, s') := by
  unfold commitQueue
  intro h
  split at h
  · cases h
  · split at h
    · have hmsg := (Prod.mk.inj (Except.error.inj h)).1
      exact absurd hmsg (by decide)
    · cases h

/-- If `update` throws this, it is at a block of its commit queue. -/
theorem update_bodyFlushed (h : update E p s = .error (.bodyFlushed, s')) :
    ∃ blk queue s₂ b t, Walks E p blk queue s s₂ ∧ b ∈ queue ∧ ComesTo E queue s₂ b t ∧
      (t.heap.get b).flushedFromMemory = true := by
  have run := update_run E p s
  rw [h] at run
  cases run with
  | chain h2 hd2 h1 hd1 hs₂ h0 hd0 hp2 hp1 hr =>
      rename_i blk2 blk1 blk s₂
      rcases hqueue : commitQueue blk s₂ with e | queue
      · simp only [hqueue] at hr
        obtain rfl := Except.error.inj hr
        exact absurd hqueue commitQueue_ne_bodyFlushed
      · -- the walk went through, so it is one of the calls of `apply_block` that throws
        simp only [hqueue] at hr
        unfold commitBlocks at hr
        rcases hrun : applyQueue E queue s₂.decidedHashIndex.openTxn s₂ with e | ⟨tx, s₃⟩
        · simp only [hrun] at hr
          obtain rfl := Except.error.inj hr
          obtain ⟨pre, b, post, tx, u, rfl, hpre, hf⟩ := applyQueue_bodyFlushed hrun
          refine ⟨blk, _, s₂, b, _, ⟨⟨blk2, blk1, h2, hd2, h1, hd1, hs₂, h0, hd0, hp2, hp1⟩, hqueue⟩,
            List.mem_append_right _ List.mem_cons_self, ⟨pre, post, tx, u, rfl, hpre, rfl⟩, hf⟩
        · simp only [hrun] at hr
          cases hr

/-! ## Queued blocks have their bodies -/

/-- At the walk the collector is still bound by the executed block, and a queued block is above it. -/
structure Spared (bound : ℕ) (s s₂ : Replica V) (b : BlockPtr) : Prop where
  aged : Heap.Aged bound s.heap s₂.heap
  bounded : s₂.blockStore.gcCollector.BoundedBy bound
  settled : s.heap.Settled b
  above : s.heap.height s.bExec < s.heap.height b

theorem Walks.spared (w : Walks E p blk queue s s₂) (W : WellFormed E s) {b : BlockPtr}
    (hb : b ∈ queue) : Spared (s.heap.height s.bExec - keepDepth) s s₂ b := by
  obtain ⟨⟨blk2, blk1, h2, hd2, h1, hd1, rfl, h0, -, -, -⟩, hqueue⟩ := w
  have l := lockStage W h2 hd2 h1 hd1
  have hcores := l.aged.cores
  have hblk : s.heap.Settled blk := by
    rw [hcores.justify_eq] at h0
    exact W.shape.settled_justify h0
  rcases commitQueue_spec blk l.wellFormed.forest with ⟨-, queue', hqueue', -, hmem⟩ | ⟨-, hbreach⟩
  · obtain rfl : queue' = queue := Except.ok.inj (hqueue'.symm.trans hqueue)
    obtain ⟨hd, habove⟩ := (hmem b).mp hb
    rw [hcores.parent_eq] at hd
    rw [hcores.height_eq, l.bExec_eq] at habove
    exact ⟨l.aged, l.spec.bounded, W.shape.settled_descends hblk hd, habove⟩
  · rw [hbreach] at hqueue
    cases hqueue

/-- A block above the executed one has its body. -/
theorem FlushedLow.unflushed (F : FlushedLow s) (W : WellFormed E s) {b : BlockPtr}
    (hset : s.heap.Settled b) (habove : s.heap.height s.bExec < s.heap.height b) :
    (s.heap.get b).flushedFromMemory = false := by
  rcases hf : (s.heap.get b).flushedFromMemory with _ | _
  · rfl
  · have hne : b ≠ genesisPtr := by
      rintro rfl
      have hzero := W.shape.height_genesis
      omega
    have hlow := (F.flushed b hne (W.shape.lt_next_of_settled hset) hf).2
    omega

/-- The collector does not reach a block at or above its bound. -/
theorem Heap.Aged.unflushed {bound : ℕ} {h h' : Heap} (A : Heap.Aged bound h h') {b : BlockPtr}
    (hb : (h.get b).flushedFromMemory = false) (hbound : bound ≤ h.height b) :
    (h'.get b).flushedFromMemory = false := by
  rcases hf : (h'.get b).flushedFromMemory with _ | _
  · rfl
  · rcases A.flushed_of b hf with hflushed | hlow
    · rw [hb] at hflushed
      cases hflushed
    · omega

/-- The state `apply_block` finds is that of the walk, but for what the collector may flush. -/
theorem ComesTo.aged {bound : ℕ} {b : BlockPtr} (c : ComesTo E queue s₂ b t)
    (hgc : s₂.blockStore.gcCollector.BoundedBy bound) :
    b ∈ queue ∧ Heap.Aged bound s₂.heap t.heap := by
  obtain ⟨pre, post, tx, u, rfl, hpre, rfl⟩ := c
  have A := applyQueue_spec hgc hpre
  exact ⟨List.mem_append_right _ List.mem_cons_self,
    A.aged.trans (aged_decideBlock_pause A.bounded b)⟩

/-- **A call of `update`.** No block of its commit queue has been flushed, neither when the block is put
there nor when `apply_block` asks for its body. -/
theorem Walks.unflushed (w : Walks E p blk queue s s₂) (W : WellFormed E s) (F : FlushedLow s)
    {b : BlockPtr} (hb : b ∈ queue) :
    (s.heap.get b).flushedFromMemory = false ∧ (s₂.heap.get b).flushedFromMemory = false ∧
      ∀ t, ComesTo E queue s₂ b t → (t.heap.get b).flushedFromMemory = false := by
  have c := w.spared W hb
  have hbody := F.unflushed W c.settled c.above
  have habove := c.above
  have hwalk := c.aged.unflushed hbody (by omega)
  refine ⟨hbody, hwalk, fun t ht => ?_⟩
  apply (ht.aged c.bounded).2.unflushed hwalk
  rw [c.aged.cores.height_eq]
  omega

/-- So the exception does not leave `update`. -/
theorem update_ne_bodyFlushed (W : WellFormed E s) (F : FlushedLow s) :
    update E p s ≠ .error (.bodyFlushed, s') := by
  intro h
  obtain ⟨blk, queue, s₂, b, t, w, hb, hcomes, hf⟩ := update_bodyFlushed h
  rw [(w.unflushed W F hb).2.2 t hcomes] at hf
  cases hf

/-! ## Events -/

theorem onReceiveVote_ne_bodyFlushed {cert : PartialCertificateWire} {b : BlockPtr} {rid : ReplicaID} :
    onReceiveVote E cert b rid s ≠ .error (.bodyFlushed, s') := by
  unfold onReceiveVote QuorumCertificate.addPartialCertificate
  intro h
  dsimp only at h
  split at h
  · rename_i e he
    obtain ⟨rfl, -⟩ := Prod.mk.inj (Except.error.inj h)
    split at he
    · cases he
    · split at he
      · cases he
      · cases he
  · split at h
    · cases h
    · cases h

theorem voteOnProposal_ne_bodyFlushed {rid : ReplicaID} :
    voteOnProposal E p rid s ≠ .error (.bodyFlushed, s') := by
  unfold voteOnProposal opinion doVote validateAndAddEvent
  intro h
  dsimp only at h
  split at h
  · split at h
    · rename_i e he
      obtain rfl := Except.error.inj h
      split at he
      · cases he
      · split at he
        · cases he
        · split at he
          · cases he
          · cases he
    · split at h
      · split at h
        · have hmsg := (Prod.mk.inj (Except.error.inj h)).1
          exact absurd hmsg (by decide)
        · cases h
      · split at h
        · cases h
        · cases h
    · cases h
  · cases h

/-- No event throws it. -/
theorem event_ne_bodyFlushed (W : WellFormed E s) (F : FlushedLow s) (schedule : List ℕ) :
    step E (.event schedule) s ≠ .error (.bodyFlushed, s') := by
  unfold step
  intro h
  dsimp only at h
  rcases hq : s.eventQueue with _ | ⟨e, rest⟩
  · simp only [hq] at h
    cases h
  · simp only [hq] at h
    cases e with
    | vote cert b rid => exact onReceiveVote_ne_bodyFlushed h
    | proposal p rid =>
        simp only [onEvent, onReceiveProposal] at h
        split at h
        · rename_i r hvote
          obtain rfl := Except.error.inj h
          exact voteOnProposal_ne_bodyFlushed hvote
        · rename_i s₁ hvote
          obtain ⟨W₁, F₁, -⟩ := F.voteOnProposal W hq hvote
          exact update_ne_bodyFlushed W₁ F₁ h

/-! ## Restarts -/

/-- While the decided blocks are reloaded nothing is flushed. -/
structure Unflushed (s : Replica V) : Prop where
  listed : ∀ p, s.blockStore.gcCollector.Lists p → p < s.heap.next
  body : ∀ p, p ≠ genesisPtr → p < s.heap.next → (s.heap.get p).flushedFromMemory = false

namespace Unflushed

theorem make (files : Hash → Option HotstuffBlockWire) (index : HotstuffLMDB) (vm : V) :
    Unflushed (Replica.make files index vm) where
  listed := by
    rintro p (hp | hp)
    · exact absurd hp List.not_mem_nil
    · exact absurd hp List.not_mem_nil
  body := fun _ hp hlt => absurd (Nat.lt_one_iff.mp hlt) hp

/-- One round of the loop makes one object, with its body. -/
theorem reloadBlock {x : Hash} {n : ℕ} (U : Unflushed t) (R : Reloading E t)
    (h : reloadBlock E x t = .ok (n, s')) : Unflushed s' := by
  obtain ⟨w, q, j, -, -, rfl⟩ := reloadBlock_ok R.shape h
  refine ⟨fun p hp => ?_, fun p hp hlt => ?_⟩
  · have hcases : t.blockStore.gcCollector.Lists p ∨ p = t.heap.next := by
      rcases hp with hp | hp
      · exact Or.inl (Or.inl hp)
      · rcases List.mem_append.mp hp with hp | hp
        · exact Or.inl (Or.inr hp)
        · exact Or.inr (List.mem_singleton.mp hp)
    rcases hcases with hp | rfl
    · exact Nat.lt_succ_of_lt (U.listed p hp)
    · exact Nat.lt_succ_self _
  · show (((t.heap.alloc _).link t.heap.next q j).get p).flushedFromMemory = false
    rcases Nat.lt_succ_iff_lt_or_eq.mp hlt with hold | rfl
    · rw [Heap.get_link_of_ne _ _ _ (Nat.ne_of_lt hold),
        Heap.get_alloc_of_ne _ _ (Nat.ne_of_lt hold)]
      exact U.body p hp hold
    · rw [Heap.get_link_self, Heap.get_alloc_next]
      rfl

theorem reloadLoop {es : List IndexEntry} {r r' : ℕ × Replica V} (U : Unflushed r.2)
    (R : Reloading E r.2) (h : Hotstuff.reloadLoop E es r = .ok r') : Unflushed r'.2 := by
  refine (reloadLoop_keeps (I := fun t => Unflushed t ∧ Reloading E t) ?_ ⟨U, R⟩ h).1
  rintro x n t s' ⟨U, R⟩ hround
  exact ⟨U.reloadBlock R hround, R.reloadBlock hround⟩

end Unflushed

/-- A restart begins with all bodies there. -/
theorem initFromDisk_flushedLow {disk : Disk} (h : initFromDisk E disk = .ok s') : FlushedLow s' := by
  obtain ⟨index, highest, t, u, vm, -, hloop, hstate, rfl⟩ := initFromDisk_ok h
  have R : Reloading E t := (reloading_make disk.files index _).reloadLoop (r := (0, _)) hloop
  have U : Unflushed t := (Unflushed.make disk.files index _).reloadLoop (r := (0, _))
    (reloading_make disk.files index _) hloop
  obtain ⟨qc, b, -, rfl⟩ := reloadStateFromIndex_ok hstate
  obtain ⟨hheap, hstore, -, -⟩ := updateHqc_keeps b (.ofWire qc) t
  refine ⟨fun p hp => ?_, fun p hp hlt hf => ?_⟩
  · have hlisted : (updateHqc b (.ofWire qc) t).blockStore.gcCollector.Lists p := hp
    rw [hstore] at hlisted
    show (updateHqc b (.ofWire qc) t).heap.Settled p
    rw [hheap]
    exact R.settled p (U.listed p hlisted)
  · have hlt' : p < (updateHqc b (.ofWire qc) t).heap.next := hlt
    have hflushed : ((updateHqc b (.ofWire qc) t).heap.get p).flushedFromMemory = true := hf
    rw [hheap] at hlt' hflushed
    rw [U.body p hp hlt'] at hflushed
    cases hflushed

/-! ## All lives -/

theorem flushedLow_of_reach (h : Reach (turn E) anyInput (start E) s) :
    WellFormed E s ∧ FlushedLow s := by
  refine h.invariant (I := fun s => WellFormed E s ∧ FlushedLow s)
    ⟨WellFormed.start E, FlushedLow.start E⟩ ?_
  rintro t u a ⟨W, F⟩ - hturn
  cases a with
  | input i =>
      have hstep : step E i t = .ok u := hturn
      exact ⟨(step_cases W hstep).1, F.step W hstep⟩
  | restart disk =>
      have hinit := turn_restart_ok hturn
      exact ⟨(initFromDisk_wellFormed hinit).1, initFromDisk_flushedLow hinit⟩

/-- **Pruning spares undecided blocks.** In every state of every life of a replica, whatever blocks
arrived and whenever the collector ran: if the next event is a proposal whose `update` comes to the walk,
then no block of its commit queue has been flushed, not before the event, not when it is put into the
queue and not when `apply_block` asks for its body, with the collector running in between. And no event
throws the exception of `has_body`. -/
theorem pruning_spares_undecided (h : Reach (turn E) anyInput (start E) s) :
    (∀ schedule p rid rest s₁ s₂ blk queue, s.eventQueue = .proposal p rid :: rest →
      voteOnProposal E p rid { s with eventQueue := rest, schedule := schedule } = .ok s₁ →
      Walks E p blk queue s₁ s₂ → ∀ b ∈ queue, (s.heap.get b).flushedFromMemory = false ∧
        (s₂.heap.get b).flushedFromMemory = false ∧
        ∀ t, ComesTo E queue s₂ b t → (t.heap.get b).flushedFromMemory = false) ∧
      ∀ schedule s', step E (.event schedule) s ≠ .error (.bodyFlushed, s') := by
  obtain ⟨W, F⟩ := flushedLow_of_reach h
  constructor
  · intro schedule p rid rest s₁ s₂ blk queue hq hvote w b hb
    obtain ⟨W₁, F₁, hheap⟩ := F.voteOnProposal W hq hvote
    have hbody := w.unflushed W₁ F₁ hb
    rwa [hheap] at hbody
  · exact fun schedule _ => event_ne_bodyFlushed W F schedule

/-! ### A commit with the collector running -/

/-- A run without a restart. -/
theorem reach_turn (h : Reach (step E) anyInput (start E) s) : Reach (turn E) anyInput (start E) s := by
  induction h with
  | refl => exact Reach.refl _
  | tail _ hlast ih =>
      obtain ⟨i, -, hs⟩ := hlast
      exact ih.tail (i := .input i) trivial hs

namespace Instance

/-- Three rounds of a single replica and a fourth proposal, which will commit the first block. -/
def fourthProposal : List Input := soloRounds 3 ++ [.doEmptyPropose]

/-- The conditions of `Walks`. -/
def walksCheck (nblk blk2 blk1 blk : BlockPtr) (queue : List BlockPtr) (s : Replica Unit) : Bool :=
  let s₂ := lockAndWrite soloSetup blk1 (updateHqc blk2 (s.heap.get nblk).getJustifyQc s)
  decide ((s.heap.justify nblk = some blk2 ∧ (s.heap.get blk2).decided = false) ∧
    (s.heap.justify blk2 = some blk1 ∧ (s.heap.get blk1).decided = false) ∧
    (s₂.heap.justify blk1 = some blk ∧ (s₂.heap.get blk).decided = false) ∧
    (s₂.heap.parent blk2 = some blk1 ∧ s₂.heap.parent blk1 = some blk) ∧
    (commitQueue blk s₂).toOption = some queue)

theorem walks_of_check {nblk blk2 blk1 blk : BlockPtr} {queue : List BlockPtr} {s : Replica Unit}
    (h : walksCheck nblk blk2 blk1 blk queue s = true) : Walks soloSetup nblk blk queue s
      (lockAndWrite soloSetup blk1 (updateHqc blk2 (s.heap.get nblk).getJustifyQc s)) := by
  obtain ⟨⟨h2, hd2⟩, ⟨h1, hd1⟩, ⟨h0, hd0⟩, ⟨hp2, hp1⟩, hqueue⟩ := of_decide_eq_true h
  refine ⟨⟨blk2, blk1, h2, hd2, h1, hd1, rfl, h0, hd0, hp2, hp1⟩, ?_⟩
  cases hq : commitQueue blk
      (lockAndWrite soloSetup blk1 (updateHqc blk2 (s.heap.get nblk).getJustifyQc s)) with
  | error e =>
      rw [hq] at hqueue
      cases hqueue
  | ok queue' =>
      rw [hq] at hqueue
      rw [Option.some.inj hqueue]

end Instance

/-- The first block of a single replica has its body when it is applied, though the collector has run
before. -/
theorem pruning_spares_undecided_solo : ∃ s s₁ s₂ t : Replica Unit,
    s.eventQueue = [.proposal 4 0] ∧ Walks Instance.soloSetup 4 1 [1] s₁ s₂ ∧
    ComesTo Instance.soloSetup [1] s₂ 1 t ∧ (t.heap.get 1).flushedFromMemory = false ∧
    ∀ s', step Instance.soloSetup (.event [2, 3, 1]) s ≠ .error (.bodyFlushed, s') := by
  have hrun : Instance.observe Instance.soloSetup Instance.fourthProposal (fun s =>
      (s.eventQueue, (voteOnProposal Instance.soloSetup 4 0
        { s with eventQueue := [], schedule := [2, 3, 1] }).toOption.map
          (Instance.walksCheck 4 3 2 1 [1]))) = some ([.proposal 4 0], some true) := by
    decide +kernel
  obtain ⟨s, hreach, hobs⟩ := Instance.exists_of_observe hrun
  obtain ⟨hq, hvote⟩ := Prod.mk.inj hobs
  rw [Option.map_eq_some_iff] at hvote
  obtain ⟨s₁, hs₁, hcheck⟩ := hvote
  have hok : voteOnProposal Instance.soloSetup 4 0
      { s with eventQueue := [], schedule := [2, 3, 1] } = .ok s₁ := by
    cases hv : voteOnProposal Instance.soloSetup 4 0
        { s with eventQueue := [], schedule := [2, 3, 1] } with
    | error e =>
        rw [hv] at hs₁
        cases hs₁
    | ok u =>
        rw [hv] at hs₁
        rw [Option.some.inj hs₁]
  obtain ⟨s₂, w⟩ : ∃ s₂, Walks Instance.soloSetup 4 1 [1] s₁ s₂ :=
    ⟨_, Instance.walks_of_check hcheck⟩
  obtain ⟨hbodies, hthrows⟩ := pruning_spares_undecided (reach_turn hreach)
  have hcomes := ComesTo.head (E := Instance.soloSetup) 1 [] s₂
  exact ⟨s, s₁, s₂, _, hq, w, hcomes,
    (hbodies _ 4 0 [] s₁ s₂ 1 [1] hq hok w 1 List.mem_cons_self).2.2 _ hcomes,
    fun s' => hthrows [2, 3, 1] s'⟩

end Fred.Hotstuff
