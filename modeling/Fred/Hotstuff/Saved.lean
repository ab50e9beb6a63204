/-
# Fred.Hotstuff.Saved -- which blocks are on disk

`write_to_disk` is called from one place only: `update` saves the branch of `b_lock` each time it
looks at the lock. So the blocks on disk are the branches of the locks a replica has held
(`written_iff_lock`), and their files are named by their hashes (`SaveLog`).

A vote is cast before `update` runs. The third-phase vote on a block is therefore covered by a saved
branch exactly when the block is on the branch of an earlier lock (`saved_before_third_vote_iff`).
-/
import Fred.Hotstuff.VotingRule

namespace Fred.Hotstuff

open Fred.Forest Fred.Transition Replica

variable {V : Type} {E : Setup V} {s s' : Replica V}

namespace Replica

/-- `save_block` has been called on the block. -/
def SavedToDisk (s : Replica V) (p : BlockPtr) : Prop :=
  ∃ w, Effect.saved (s.heap.hash p) w ∈ s.trace

/-! ## What a lock stage saves -/

/-- What raising and saving the lock does to flags, trace and files, seen from the state `update`
starts in. -/
structure Saves (a : BlockPtr) (s s' : Replica V) : Prop where
  bLock_eq : s'.bLock = a
  cores : Heap.SameCores s.heap s'.heap
  cache_eq : s'.blockStore.blockCache = s.blockStore.blockCache
  written_iff : ∀ p, (s'.heap.get p).writtenToDisk = true ↔
    (s.heap.get p).writtenToDisk = true ∨ Descends s.heap.parent a p
  trace_eq : ∃ effs, s'.trace = s.trace ++ effs ∧
    (∀ e ∈ effs, ∃ p w, e = .saved (s.heap.hash p) w ∧ Descends s.heap.parent a p ∧
      (s.heap.get p).writtenToDisk = false) ∧
    ∀ p, (s.heap.get p).writtenToDisk = false → Descends s.heap.parent a p →
      ∃ w, Effect.saved (s.heap.hash p) w ∈ effs ∧ s'.files (s.heap.hash p) = some w ∧
        w.header = s.heap.header p ∧
        ((s'.heap.get p).flushedFromMemory = false → w = (s'.heap.get p).wireBlock)
  files_old : ∀ x, (∀ p, (s.heap.get p).writtenToDisk = false → Descends s.heap.parent a p →
    s.heap.hash p ≠ x) → s'.files x = s.files x

theorem LockStage.saves {nblk blk2 blk1 : BlockPtr} (l : LockStage E nblk blk2 blk1 s s') :
    Saves (newLock blk1 s) s s' := by
  have hspec := l.spec
  generalize hmid : setLock (newLock blk1 s) (updateHqc blk2 (s.heap.get nblk).getJustifyQc s) = t
    at hspec
  have hheap : t.heap = s.heap := by rw [← hmid]; exact heap_updateHqc _ _ _
  have htrace : t.trace = s.trace := by rw [← hmid]; exact updateHqc_trace _ _ _
  have hfiles : t.files = s.files := by
    rw [← hmid]
    unfold setLock updateHqc
    split <;> rfl
  have hstore : t.blockStore = s.blockStore := by rw [← hmid]; exact (updateHqc_frame _ _ _).2
  have hlock : t.bLock = newLock blk1 s := by rw [← hmid]; rfl
  refine ⟨hspec.keeps.bLock_eq.trans hlock, hheap ▸ hspec.aged.cores, ?_, ?_, ?_, ?_⟩
  · rw [hspec.keeps.cache_eq, hstore]
  · rw [← hheap]
    exact hspec.written_iff
  · rw [← hheap, ← htrace]
    exact hspec.trace_eq
  · rw [← hheap, ← hfiles]
    exact hspec.files_old

end Replica

/-! ## The files of a replica -/

/-- The lock is saved; a saved block is stored, and its file carries its header; there are no other
files. -/
structure SaveLog (s : Replica V) : Prop where
  lock_written : (s.heap.get s.bLock).writtenToDisk = true
  stored : ∀ p, s.heap.Settled p → (s.heap.get p).writtenToDisk = true →
    s.blockStore.blockCache (s.heap.hash p) = some p
  saved : ∀ p, s.heap.Settled p → p ≠ genesisPtr → (s.heap.get p).writtenToDisk = true →
    ∃ w, Effect.saved (s.heap.hash p) w ∈ s.trace ∧ s.files (s.heap.hash p) = some w ∧
      w.header = s.heap.header p
  of_saved : ∀ x w, Effect.saved x w ∈ s.trace →
    ∃ p, p ≠ genesisPtr ∧ s.blockStore.blockCache x = some p ∧
      (s.heap.get p).writtenToDisk = true
  of_file : ∀ x w, s.files x = some w → ∃ w', Effect.saved x w' ∈ s.trace

namespace SaveLog

theorem start (E : Setup V) : SaveLog (Hotstuff.start E) where
  lock_written := rfl
  stored := by
    rintro p (rfl | ⟨q, hq⟩) -
    · rfl
    · cases hq
  saved := by
    rintro p (rfl | ⟨q, hq⟩) hne -
    · exact absurd rfl hne
    · cases hq
  of_saved := fun _ _ h => absurd h List.not_mem_nil
  of_file := fun _ _ h => by cases h

/-- A step that leaves lock, flags and files alone. -/
theorem frame (L : SaveLog s) (W : WellFormed E s) (H : Heap.Extends s.heap s'.heap)
    (hcache : ∀ {x p}, s.blockStore.blockCache x = some p → s'.blockStore.blockCache x = some p)
    (hlock : s'.bLock = s.bLock) (hfiles : s'.files = s.files)
    (hwritten : ∀ p, p < s.heap.next →
      (s'.heap.get p).writtenToDisk = (s.heap.get p).writtenToDisk)
    (hnew : ∀ p, ¬ s.heap.Settled p → s'.heap.Settled p → (s'.heap.get p).writtenToDisk = false)
    (htrace : ∀ x w, Effect.saved x w ∈ s'.trace ↔ Effect.saved x w ∈ s.trace) : SaveLog s' := by
  have hold : ∀ p, s'.heap.Settled p → (s'.heap.get p).writtenToDisk = true →
      s.heap.Settled p ∧ (s.heap.get p).writtenToDisk = true := by
    intro p hp hw
    by_cases hset : s.heap.Settled p
    · rw [hwritten p (W.shape.lt_next_of_settled hset)] at hw
      exact ⟨hset, hw⟩
    · rw [hnew p hset hp] at hw
      cases hw
  refine ⟨?_, ?_, ?_, ?_, ?_⟩
  · rw [hlock, hwritten _ (W.shape.lt_next_of_settled W.lock_settled)]
    exact L.lock_written
  · intro p hp hw
    obtain ⟨hset, hw⟩ := hold p hp hw
    rw [H.hash_eq hset]
    exact hcache (L.stored p hset hw)
  · intro p hp hne hw
    obtain ⟨hset, hw⟩ := hold p hp hw
    obtain ⟨w, hmem, hfile, hheader⟩ := L.saved p hset hne hw
    rw [H.hash_eq hset, H.header_eq hset, hfiles]
    exact ⟨w, (htrace _ _).mpr hmem, hfile, hheader⟩
  · intro x w hmem
    obtain ⟨p, hne, hp, hw⟩ := L.of_saved x w ((htrace x w).mp hmem)
    refine ⟨p, hne, hcache hp, ?_⟩
    rw [hwritten p (W.shape.lt_next_of_settled (W.shape.cached hp).2)]
    exact hw
  · intro x w hfile
    rw [hfiles] at hfile
    obtain ⟨w', hmem⟩ := L.of_file x w hfile
    exact ⟨w', (htrace x w').mpr hmem⟩

theorem outside (L : SaveLog s) (W : WellFormed E s) (W' : WellFormed E s')
    (o : Outside E s s') : SaveLog s' := by
  obtain ⟨effs, htrace, hproposed⟩ := o.trace_eq
  refine L.frame W o.heap o.cache o.bLock_eq o.files_eq (fun p hp => (o.flags p hp).2) ?_ ?_
  · intro p hno hp
    by_cases hlt : p < s.heap.next
    · rw [(o.flags p hlt).2]
      exact (W.unsettled_flags p hlt hno).2
    · exact (o.new p (Nat.not_lt.mp hlt) (W'.shape.lt_next_of_settled hp)).2.1
  · intro x w
    rw [htrace, List.mem_append]
    refine ⟨fun h => h.resolve_right fun he => ?_, Or.inl⟩
    obtain ⟨p, y, heq⟩ := hproposed _ he
    cases heq

/-- A step within an event that adds neither objects nor links. -/
theorem frame_sameCores (L : SaveLog s) (W : WellFormed E s)
    (H : Heap.SameCores s.heap s'.heap)
    (hcache : s'.blockStore.blockCache = s.blockStore.blockCache)
    (hlock : s'.bLock = s.bLock) (hfiles : s'.files = s.files)
    (hwritten : ∀ p, (s'.heap.get p).writtenToDisk = (s.heap.get p).writtenToDisk)
    (htrace : ∀ x w, Effect.saved x w ∈ s'.trace ↔ Effect.saved x w ∈ s.trace) : SaveLog s' := by
  refine L.frame W H.extends (fun h => hcache ▸ h) hlock hfiles (fun p _ => hwritten p) ?_ htrace
  intro p hno hp
  exact absurd (H.settled_iff.mp hp) hno

theorem vote {p : BlockPtr} {rid : ReplicaID} (L : SaveLog s) (W : WellFormed E s)
    (v : VoteSpec E p rid s s') : SaveLog s' := by
  obtain ⟨q, -, rfl⟩ := v.eq
  refine L.frame_sameCores W (Heap.SameCores.refl _) rfl rfl rfl (fun _ => rfl) ?_
  intro x w
  simp

/-- Raising and saving the lock. -/
theorem saves {a : BlockPtr} (L : SaveLog s) (W : WellFormed E s) (h : Saves a s s')
    (ha : s.blockStore.blockCache (s.heap.hash a) = some a) : SaveLog s' := by
  obtain ⟨effs, htrace, hsaved, hnew⟩ := h.trace_eq
  have hbranch : ∀ {p}, Descends s.heap.parent a p →
      s.blockStore.blockCache (s.heap.hash p) = some p := fun hd => W.shape.stored_descends ha hd
  refine ⟨?_, ?_, ?_, ?_, ?_⟩
  · rw [h.bLock_eq]
    exact (h.written_iff a).mpr (Or.inr (Descends.refl a))
  · intro p hp hw
    rw [h.cache_eq, h.cores.hash_eq]
    rcases (h.written_iff p).mp hw with hw | hd
    · exact L.stored p (h.cores.settled_iff.mp hp) hw
    · exact hbranch hd
  · intro p hp hne hw
    rw [h.cores.hash_eq, h.cores.header_eq, htrace]
    have hset := h.cores.settled_iff.mp hp
    rcases hold : (s.heap.get p).writtenToDisk with _ | _
    · have hd : Descends s.heap.parent a p := by
        rcases (h.written_iff p).mp hw with hw | hd
        · rw [hold] at hw
          cases hw
        · exact hd
      obtain ⟨w, hmem, hfile, hheader, -⟩ := hnew p hold hd
      exact ⟨w, List.mem_append_right _ hmem, hfile, hheader⟩
    · obtain ⟨w, hmem, hfile, hheader⟩ := L.saved p hset hne hold
      refine ⟨w, List.mem_append_left _ hmem, ?_, hheader⟩
      -- a block saved now has another file: both are stored
      rw [h.files_old]
      · exact hfile
      · intro x hx hd heq
        have := Shape.eq_of_stored (hbranch hd) (L.stored p hset hold) heq
        rw [this, hold] at hx
        cases hx
  · intro x w hmem
    rw [htrace] at hmem
    rw [h.cache_eq]
    rcases List.mem_append.mp hmem with hmem | hmem
    · obtain ⟨p, hne, hp, hw⟩ := L.of_saved x w hmem
      exact ⟨p, hne, hp, (h.written_iff p).mpr (Or.inl hw)⟩
    · obtain ⟨p, w', heq, hd, hw⟩ := hsaved _ hmem
      obtain ⟨rfl, -⟩ := Effect.saved.inj heq
      refine ⟨p, ?_, hbranch hd, (h.written_iff p).mpr (Or.inr hd)⟩
      rintro rfl
      rw [W.genesis_written] at hw
      cases hw
  · intro x w hfile
    by_cases hx : ∃ p, (s.heap.get p).writtenToDisk = false ∧ Descends s.heap.parent a p ∧
        s.heap.hash p = x
    · obtain ⟨p, hw, hd, rfl⟩ := hx
      obtain ⟨w', hmem, -⟩ := hnew p hw hd
      exact ⟨w', htrace ▸ List.mem_append_right _ hmem⟩
    · rw [h.files_old x fun p hw hd heq => hx ⟨p, hw, hd, heq⟩] at hfile
      obtain ⟨w', hmem⟩ := L.of_file x w hfile
      exact ⟨w', htrace ▸ List.mem_append_left _ hmem⟩

theorem lockStage {nblk blk2 blk1 : BlockPtr} (L : SaveLog s) (W : WellFormed E s)
    (l : LockStage E nblk blk2 blk1 s s') : SaveLog s' := by
  apply L.saves W l.saves
  rcases newLock_cases blk1 s with ⟨h, -⟩ | ⟨h, -⟩
  · rw [h]
    exact W.shape.stored_justify l.justify₁
  · rw [h]
    exact W.lock_stored

theorem update {p : BlockPtr} (L : SaveLog s) (W : WellFormed E s) (u : UpdateOk E p s s') :
    SaveLog s' := by
  cases u with
  | early _ => exact L
  | hqcOnly _ _ _ =>
      unfold updateHqc
      split
      · exact L.frame_sameCores W (Heap.SameCores.refl _) rfl rfl rfl (fun _ => rfl) fun _ _ => Iff.rfl
      · exact L
  | lockOnly l => exact L.lockStage W l
  | commit c _ =>
      have A := c.apply
      refine (L.lockStage W c.lock).frame_sameCores c.lock.wellFormed A.aged.cores A.keeps.cache_eq
        A.keeps.bLock_eq A.files_eq A.written_eq ?_
      intro x w
      show Effect.saved x w ∈ Replica.trace _ ↔ _
      simp [committed, notifyOkToPruneBlocks, A.trace_eq]

theorem step {i : Input} (L : SaveLog s) (W : WellFormed E s) (h : step E i s = .ok s') :
    SaveLog s' := by
  obtain ⟨W', o | ⟨schedule, p, rid, rest, s₁, -, P⟩⟩ := step_cases W h
  · exact L.outside W W' o
  · have W₀ := W.popEvent schedule P.queue_eq
    have L₀ : SaveLog { s with eventQueue := rest, schedule := schedule } :=
      L.frame_sameCores W (Heap.SameCores.refl _) rfl rfl rfl (fun _ => rfl) fun _ _ => Iff.rfl
    rcases voteOnProposal_ok W₀ P.ne_genesis P.settled P.vote with v | ⟨hs, -⟩
    · exact (L₀.vote W₀ v).update P.wellFormed P.update
    · have hup := P.update
      rw [hs] at hup
      exact L₀.update W₀ hup

end SaveLog

theorem wellFormed_saveLog_of_reach {P : Replica V → Input → Prop}
    (h : Reach (step E) P (start E) s) : WellFormed E s ∧ SaveLog s := by
  refine h.invariant (I := fun s => WellFormed E s ∧ SaveLog s)
    ⟨WellFormed.start E, SaveLog.start E⟩ ?_
  intro t u i ht _ hs
  exact ⟨(step_cases ht.1 hs).1, ht.2.step ht.1 hs⟩

/-! ## Saved blocks and locks -/

/-- Objects keep their place and saved blocks stay saved. -/
structure Grows (s s' : Replica V) : Prop where
  heap : Heap.Extends s.heap s'.heap
  written : ∀ p, s.heap.Settled p → (s.heap.get p).writtenToDisk = true →
    (s'.heap.get p).writtenToDisk = true

namespace Grows

theorem refl (s : Replica V) : Grows s s := ⟨Heap.Extends.refl _, fun _ _ h => h⟩

theorem trans {s'' : Replica V} (g : Grows s s') (g' : Grows s' s'') : Grows s s'' :=
  ⟨g.heap.trans g'.heap, fun p hp hw => g'.written p (g.heap.settled hp) (g.written p hp hw)⟩

/-- The lock stage of `update`, if it gets there, is where blocks are saved. -/
theorem written_update {p : BlockPtr} (u : UpdateOk E p s s') :
    (∀ x, (s.heap.get x).writtenToDisk = true → (s'.heap.get x).writtenToDisk = true) ∧
      ∀ x, (s'.heap.get x).writtenToDisk = true →
        (s.heap.get x).writtenToDisk = true ∨ Descends s'.heap.parent s'.bLock x := by
  have hlocked : ∀ {blk2 blk1 : BlockPtr} {t : Replica V}, LockStage E p blk2 blk1 s t →
      ∀ x, (t.heap.get x).writtenToDisk = true ↔
        (s.heap.get x).writtenToDisk = true ∨ Descends t.heap.parent t.bLock x := by
    intro blk2 blk1 t l x
    rw [l.saves.bLock_eq, l.saves.cores.parent_eq]
    exact l.saves.written_iff x
  have hcores := u.cores
  cases u with
  | early _ => exact ⟨fun _ h => h, fun _ h => Or.inl h⟩
  | hqcOnly _ _ _ =>
      rw [heap_updateHqc]
      exact ⟨fun _ h => h, fun _ h => Or.inl h⟩
  | lockOnly l => exact ⟨fun x h => (hlocked l x).mpr (Or.inl h), fun x h => (hlocked l x).mp h⟩
  | @commit blk2 blk1 blk queue tx s₂ s₃ c _ =>
      have A := c.apply
      have hlock : (committed blk1 blk tx s s₃).bLock = s₂.bLock := A.keeps.bLock_eq
      have hwritten : ∀ x, ((committed blk1 blk tx s s₃).heap.get x).writtenToDisk =
          (s₂.heap.get x).writtenToDisk := A.written_eq
      refine ⟨fun x h => ?_, fun x h => ?_⟩
      · rw [hwritten x]
        exact (hlocked c.lock x).mpr (Or.inl h)
      · rw [hwritten x] at h
        rw [hlock, hcores.parent_eq, ← c.lock.saves.cores.parent_eq]
        exact (hlocked c.lock x).mp h

/-- A block is saved by a step only on the branch of the lock the step leaves. -/
theorem step {i : Input} (W : WellFormed E s) (h : step E i s = .ok s') : Grows s s' ∧
    ∀ x, s'.heap.Settled x → (s'.heap.get x).writtenToDisk = true →
      (s.heap.Settled x ∧ (s.heap.get x).writtenToDisk = true) ∨
        Descends s'.heap.parent s'.bLock x := by
  obtain ⟨W', o | ⟨schedule, p, rid, rest, s₁, -, P⟩⟩ := step_cases W h
  · refine ⟨⟨o.heap, fun x hx hw => ?_⟩, fun x hx hw => Or.inl ?_⟩
    · exact (o.flags x (W.shape.lt_next_of_settled hx)).2.trans hw
    · by_cases hlt : x < s.heap.next
      · rw [(o.flags x hlt).2] at hw
        by_cases hset : s.heap.Settled x
        · exact ⟨hset, hw⟩
        · rw [(W.unsettled_flags x hlt hset).2] at hw
          cases hw
      · rw [(o.new x (Nat.not_lt.mp hlt) (W'.shape.lt_next_of_settled hx)).2.1] at hw
        cases hw
  · have hheap : s₁.heap = s.heap := by
      rcases voteOnProposal_ok (W.popEvent schedule P.queue_eq) P.ne_genesis P.settled P.vote with
        v | ⟨hs, -⟩
      · obtain ⟨q, -, rfl⟩ := v.eq
        rfl
      · rw [hs]
    have hcores := P.update.cores
    obtain ⟨hmono, hnew⟩ := written_update P.update
    rw [hheap] at hcores hmono hnew
    refine ⟨⟨hcores.extends, fun x _ hw => hmono x hw⟩, fun x hx hw => ?_⟩
    exact (hnew x hw).imp_left fun hold => ⟨hcores.settled_iff.mp hx, hold⟩

/-- Along a run. -/
theorem of_reach {P : Replica V → Input → Prop} (W : WellFormed E s)
    (h : Reach (Hotstuff.step E) P s s') : Grows s s' := by
  have key : WellFormed E s' ∧ Grows s s' := by
    refine h.invariant (I := fun t => WellFormed E t ∧ Grows s t) ⟨W, Grows.refl s⟩ ?_
    intro t u i ht _ hs
    exact ⟨(step_cases ht.1 hs).1, ht.2.trans (Grows.step ht.1 hs).1⟩
  exact key.2

end Grows

/-- The block is on the branch of the lock, as it is now or was earlier in the run. -/
def OnLockedBranch (E : Setup V) (s : Replica V) (p : BlockPtr) : Prop :=
  ∃ s₀, Reach (step E) anyInput (start E) s₀ ∧ Reach (step E) anyInput s₀ s ∧
    Descends s.heap.parent s₀.bLock p

/-- **The saved blocks are the branches of the locks.** -/
theorem written_iff_lock (h : Reach (step E) anyInput (start E) s) {p : BlockPtr}
    (hp : s.heap.Settled p) : (s.heap.get p).writtenToDisk = true ↔ OnLockedBranch E s p := by
  constructor
  · intro hw
    induction h with
    | refl =>
        rcases hp with rfl | ⟨q, hq⟩
        · exact ⟨_, Reach.refl _, Reach.refl _, Descends.refl _⟩
        · cases hq
    | @tail t u hreach hlast ih =>
        obtain ⟨i, hi, hs⟩ := hlast
        obtain ⟨W, -⟩ := wellFormed_saveLog_of_reach hreach
        obtain ⟨g, hnew⟩ := Grows.step W hs
        rcases hnew p hp hw with ⟨hset, hold⟩ | hd
        · obtain ⟨s₀, h₀, hrun, hd⟩ := ih hset hold
          exact ⟨s₀, h₀, hrun.tail hi hs, g.heap.descends hd⟩
        · exact ⟨u, Reach.tail hreach hi hs, Reach.refl u, hd⟩
  · intro hlock
    obtain ⟨s₀, h₀, hrun, hd⟩ := hlock
    obtain ⟨W₀, L₀⟩ := wellFormed_saveLog_of_reach h₀
    have g := Grows.of_reach W₀ hrun
    have hd₀ := (W₀.shape.descends_iff g.heap W₀.lock_settled).mp hd
    have hw₀ : (s₀.heap.get p).writtenToDisk = true :=
      written_of_descends W₀.forest (fun x y _ => W₀.written_closed x y) L₀.lock_written hd₀
    exact g.written p (W₀.shape.settled_descends W₀.lock_settled hd₀) hw₀

/-! ## The third-phase vote -/

/-- A block other than genesis is saved exactly when its flag is set. -/
theorem savedToDisk_iff (W : WellFormed E s) (L : SaveLog s) {p : BlockPtr}
    (hstored : s.blockStore.blockCache (s.heap.hash p) = some p) (hne : p ≠ genesisPtr) :
    s.SavedToDisk p ↔ (s.heap.get p).writtenToDisk = true := by
  constructor
  · intro hsaved
    obtain ⟨w, hmem⟩ := hsaved
    obtain ⟨q, -, hq, hw⟩ := L.of_saved _ w hmem
    rw [hstored] at hq
    rwa [Option.some.inj hq]
  · intro hw
    obtain ⟨w, hmem, -⟩ := L.saved p (W.shape.settled_of_stored hstored) hne hw
    exact ⟨w, hmem⟩

/-- A vote for `p` now is the third-phase vote on `p.justify.justify`. That block and the blocks below
it are saved. -/
def ThirdPhaseSaved (s : Replica V) (p : BlockPtr) : Prop :=
  ∀ j blk, s.heap.justify p = some j → s.heap.justify j = some blk →
    ∀ x, Descends s.heap.parent blk x → x ≠ genesisPtr → s.SavedToDisk x

/-- **Data before the third vote.** A vote is the first effect of its event. What it is the
third-phase vote on is saved by then exactly when it is on the branch of the lock or of an earlier
lock. -/
theorem saved_before_third_vote_iff (h : Reach (step E) anyInput (start E) s) {p : BlockPtr}
    {rid : ReplicaID} {rest : List Event} {schedule : List ℕ}
    (hq : s.eventQueue = .proposal p rid :: rest) (hv : VotesFor E s schedule p) :
    (∃ effs, (step E (.event schedule) s).state.trace =
      s.trace ++ voteEffect E s p rid :: effs) ∧
    (ThirdPhaseSaved s p ↔ ∀ j blk, s.heap.justify p = some j → s.heap.justify j = some blk →
      OnLockedBranch E s blk) := by
  obtain ⟨W, L⟩ := wellFormed_saveLog_of_reach h
  refine ⟨?_, ?_⟩
  · rcases step_proposal W schedule hq with v | ⟨-, hsilent, -⟩
    · obtain ⟨effs, htrace, -⟩ := v.trace_eq
      exact ⟨effs, htrace⟩
    · have hlen := congrArg List.length (hv.symm.trans hsilent.votes_eq)
      simp at hlen
  · unfold ThirdPhaseSaved
    apply forall₄_congr
    intro j blk _ hblk
    have hstored := W.shape.stored_justify hblk
    have hset := W.shape.settled_of_stored hstored
    rw [← written_iff_lock h hset]
    constructor
    · intro hsaved
      by_cases hgen : blk = genesisPtr
      · rw [hgen]
        exact W.genesis_written
      · exact (savedToDisk_iff W L hstored hgen).mp (hsaved blk (Descends.refl _) hgen)
    · intro hw x hd hne
      have hwx : (s.heap.get x).writtenToDisk = true :=
        written_of_descends W.forest (fun x y _ => W.written_closed x y) hw hd
      exact (savedToDisk_iff W L (W.shape.stored_descends hstored hd) hne).mpr hwx

/-- In the fork run the last vote is covered: it is the third-phase vote on the locked block. -/
theorem saved_before_third_vote_fork : ∃ s : Replica Unit,
    (∃ effs, (step (Instance.setup 4 0) (.event []) s).state.trace =
      s.trace ++ voteEffect (Instance.setup 4 0) s 7 3 :: effs) ∧
    (ThirdPhaseSaved s 7 ↔ ∀ j blk, s.heap.justify 7 = some j → s.heap.justify j = some blk →
      OnLockedBranch (Instance.setup 4 0) s blk) := by
  have hrun : Instance.observe (Instance.setup 4 0) Instance.forkRun (fun s => decide
      (s.eventQueue = [.proposal 7 3] ∧
        (step (Instance.setup 4 0) (.event []) s).state.votes =
          s.votes ++ [(7, s.heap.height 7)])) = some true := by
    decide +kernel
  obtain ⟨s, hreach, hobs⟩ := Instance.exists_of_observe hrun
  obtain ⟨hq, hv⟩ := of_decide_eq_true hobs
  exact ⟨s, saved_before_third_vote_iff hreach hq hv⟩

/-- Replica 0 of four, about to vote for the third block of a chain, has saved nothing. -/
theorem third_vote_before_save : ¬ ∀ (s : Replica Unit) (p : BlockPtr) (rid : ReplicaID)
    (rest : List Event) (schedule : List ℕ),
    Reach (step (Instance.setup 4 0)) anyInput (start (Instance.setup 4 0)) s →
    s.eventQueue = .proposal p rid :: rest → VotesFor (Instance.setup 4 0) s schedule p →
    ThirdPhaseSaved s p := by
  intro hclaim
  have hrun : Instance.observe (Instance.setup 4 0) (Instance.forkRun.take 8) (fun s => decide
      (s.eventQueue = [.proposal 3 1] ∧ s.heap.justify 3 = some 2 ∧ s.heap.justify 2 = some 1 ∧
        (step (Instance.setup 4 0) (.event []) s).state.votes =
          s.votes ++ [(3, s.heap.height 3)] ∧
        s.trace.all fun e => match e with
          | .saved _ _ => false
          | _ => true)) = some true := by
    decide +kernel
  obtain ⟨s, hreach, hobs⟩ := Instance.exists_of_observe hrun
  obtain ⟨hq, hj, hblk, hv, hnone⟩ := of_decide_eq_true hobs
  obtain ⟨w, hmem⟩ := hclaim s 3 1 [] [] hreach hq hv 2 1 hj hblk 1 (Descends.refl _) (by decide)
  have := List.all_eq_true.mp hnone _ hmem
  simp at this

end Fred.Hotstuff
