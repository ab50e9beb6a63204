/-
# Fred.Hotstuff.Durable -- what is decided is on disk

`update` saves the branch of `b_lock` and then commits a branch of its own. That the second is part of
the first is a fact about the whole world: every certified block at the height of a committed block or
above descends from it, and the lock is certified and above it (`Guarded`). Given that, `DurableLog`
is kept by each step: a saved block has its full body on disk, and before a block is applied all of its
branch is saved. An unsaved block on the branch of the lock is above the executed block, where the
collector does not work, so no pause of `write_to_disk` can take its body away.
-/
import Fred.Hotstuff.Agreement
import Fred.Hotstuff.Bodies

namespace Fred.Hotstuff

open Fred.Forest Fred.Transition Replica

variable {V : Type} {E : Setup V} {s s' s₂ : Replica V}

/-! ## What is on disk -/

/-- `w` was saved for `q` within `effs` and is its file: the block's header, and its full body. -/
structure OnDisk (E : Setup V) (s : Replica V) (effs : List Effect) (q : BlockPtr)
    (w : HotstuffBlockWire) : Prop where
  saved : Effect.saved (s.heap.hash q) w ∈ effs
  file : s.files (s.heap.hash q) = some w
  header_eq : w.header = s.heap.header q
  body_hash : E.crypto.hashBody w.body = w.header.bodyHash
  /-- While the block is in memory the file is the block. -/
  whole : (s.heap.get q).flushedFromMemory = false → w = (s.heap.get q).wireBlock

/-- The block is stored, and it and all blocks below it were saved within `effs`. -/
structure BranchOnDisk (E : Setup V) (s : Replica V) (effs : List Effect) (p : BlockPtr) : Prop where
  stored : s.blockStore.blockCache (s.heap.hash p) = some p
  branch : ∀ q, Descends s.heap.parent p q → q ≠ genesisPtr → ∃ w, OnDisk E s effs q w

/-- When a block was decided and applied, its branch was on disk. -/
def DecidedDurable (E : Setup V) (s : Replica V) : Prop :=
  ∀ pre post p x n, s.trace = pre ++ .applied p x n :: post → BranchOnDisk E s pre p

/-- Saved blocks are on disk, and so is the branch of each applied block before it is applied. -/
structure DurableLog (E : Setup V) (s : Replica V) : Prop where
  written : ∀ q, s.heap.Settled q → q ≠ genesisPtr → (s.heap.get q).writtenToDisk = true →
    ∃ w, OnDisk E s s.trace q w
  exec_written : (s.heap.get s.bExec).writtenToDisk = true
  applied : DecidedDurable E s

/-- A direct three-chain is below every higher block that carries a certificate. -/
def Guarded (s : Replica V) : Prop :=
  ∀ nblk blk2 blk1 blk, HeadsChain s.heap nblk blk2 blk1 blk →
    ∀ a, s.heap.Justified a → s.blockStore.blockCache (s.heap.hash a) = some a →
      s.heap.height blk ≤ s.heap.height a → Descends s.heap.parent a blk

/-- Blocks on disk stay there. -/
theorem OnDisk.mono {effs effs' : List Effect} {q : BlockPtr} {w : HotstuffBlockWire}
    (h : OnDisk E s effs q w) (heffs : ∀ e ∈ effs, e ∈ effs')
    (hcore : s'.heap.core q = s.heap.core q)
    (hfile : s'.files (s.heap.hash q) = s.files (s.heap.hash q))
    (hbody : (s'.heap.get q).flushedFromMemory = false →
      (s.heap.get q).flushedFromMemory = false ∧
        (s'.heap.get q).wireBlock = (s.heap.get q).wireBlock) :
    OnDisk E s' effs' q w where
  saved := by
    rw [show s'.heap.hash q = s.heap.hash q from congrArg BlockCore.hash hcore]
    exact heffs _ h.saved
  file := by
    rw [show s'.heap.hash q = s.heap.hash q from congrArg BlockCore.hash hcore, hfile]
    exact h.file
  header_eq := h.header_eq.trans (congrArg BlockCore.header hcore).symm
  body_hash := h.body_hash
  whole := by
    intro hf
    obtain ⟨hf', hwire⟩ := hbody hf
    rw [hwire]
    exact h.whole hf'

/-- An element of an appended list is in the old part or in the new one. -/
theorem append_eq_split {α : Type*} {pre post old new : List α} {e : α}
    (h : old ++ new = pre ++ e :: post) :
    (∃ m, old = pre ++ e :: m) ∨ ∃ m, pre = old ++ m ∧ e ∈ new := by
  rcases List.append_eq_append_iff.mp h with ⟨m, hpre, hnew⟩ | ⟨m, hold, hm⟩
  · exact Or.inr ⟨m, hpre, hnew ▸ List.mem_append_right _ List.mem_cons_self⟩
  · cases m with
    | nil =>
        rw [List.nil_append] at hm
        rw [List.append_nil] at hold
        exact Or.inr ⟨[], by rw [hold, List.append_nil], hm ▸ List.mem_cons_self⟩
    | cons x m =>
        obtain ⟨rfl, -⟩ := List.cons.inj hm
        exact Or.inl ⟨m, hold⟩

/-! ## The loop over the commit queue -/

/-- What deciding and applying the blocks of `queue` has left alone, whether or not the loop threw
after them. -/
structure Applies (bound : ℕ) (queue : List BlockPtr) (s s' : Replica V) : Prop where
  cache_eq : s'.blockStore.blockCache = s.blockStore.blockCache
  aged : Heap.Aged bound s.heap s'.heap
  files_eq : s'.files = s.files
  written_eq : ∀ p, (s'.heap.get p).writtenToDisk = (s.heap.get p).writtenToDisk
  trace_eq : s'.trace = s.trace ++
    queue.map fun p => Effect.applied p (s.heap.hash p) (s.heap.height p)

theorem Applies.of_spec {bound : ℕ} {queue : List BlockPtr} {tx tx' : HotstuffLMDB.Txn}
    (A : ApplySpec bound queue tx tx' s s') : Applies bound queue s s' :=
  ⟨A.keeps.cache_eq, A.aged, A.files_eq, A.written_eq, A.trace_eq⟩

theorem Applies.trans {bound : ℕ} {q q' : List BlockPtr} {s'' : Replica V}
    (A : Applies bound q s s') (A' : Applies bound q' s' s'') : Applies bound (q ++ q') s s'' where
  cache_eq := A'.cache_eq.trans A.cache_eq
  aged := A.aged.trans A'.aged
  files_eq := A'.files_eq.trans A.files_eq
  written_eq := fun p => (A'.written_eq p).trans (A.written_eq p)
  trace_eq := by
    rw [A'.trace_eq, A.trace_eq, A.aged.cores.hash_eq, A.aged.cores.height_eq, List.map_append,
      List.append_assoc]

theorem Applies.decideBlock {bound : ℕ} (b : BlockPtr)
    (hgc : s.blockStore.gcCollector.BoundedBy bound) :
    Applies bound [] s (decideBlock b s.pause) := by
  have hc : Collected bound s s.pause := pause_spec hgc
  have hdec : Heap.Aged bound s.pause.heap (Replica.decideBlock b s.pause).heap :=
    Heap.Aged.modify s.pause.heap b (fun x => { x with decided := true }) (fun _ => rfl)
      (fun _ => rfl) (fun _ => rfl) (fun _ => rfl)
  refine ⟨hc.keeps.cache_eq, hc.flushed.aged.trans hdec, hc.files_eq, fun p => ?_, ?_⟩
  · rw [heap_decideBlock, ← hc.flushed.writtenToDisk_eq]
    by_cases hp : p = b
    · subst hp
      rw [Heap.get_modify_self]
    · rw [Heap.get_modify_of_ne _ _ hp]
  · rw [List.map_nil, List.append_nil]
    exact hc.trace_eq

theorem Applies.emit {bound : ℕ} {b : BlockPtr} (A : Applies bound [] s s') (vm : V) :
    Applies bound [b] s { s'.emit (.applied b (s'.heap.hash b) (s'.heap.height b)) with vm := vm } :=
  ⟨A.cache_eq, A.aged, A.files_eq, A.written_eq, by
    show s'.trace ++ [_] = _
    rw [A.trace_eq, A.aged.cores.hash_eq, A.aged.cores.height_eq]
    simp⟩

/-- A loop over the commit queue that throws has applied a first part of the queue. -/
theorem applies_of_error {bound : ℕ} {queue : List BlockPtr} :
    ∀ {tx : HotstuffLMDB.Txn} {s s' : Replica V} {e : Exn},
      s.blockStore.gcCollector.BoundedBy bound → applyQueue E queue tx s = .error (e, s') →
      ∃ q, q <+: queue ∧ Applies bound q s s' := by
  induction queue with
  | nil =>
      intro tx s s' e _ h
      cases h
  | cons b queue ih =>
      intro tx s s' e hgc h
      have hone := Applies.decideBlock b hgc
      unfold applyQueue at h
      split at h
      · rename_i r happly
        obtain rfl := Except.error.inj h
        unfold Replica.applyBlock at happly
        split at happly
        · -- the block has no body: nothing has been applied
          obtain ⟨-, rfl⟩ := Prod.mk.inj (Except.error.inj happly)
          exact ⟨[], List.nil_prefix, hone⟩
        · dsimp only at happly
          split at happly
          · obtain ⟨-, rfl⟩ := Prod.mk.inj (Except.error.inj happly)
            exact ⟨[b], List.prefix_append [b] queue, hone.emit _⟩
          · cases happly
      · rename_i tx₁ s₁ happly
        split at h
        · rename_i r hnotify
          obtain rfl := Except.error.inj h
          obtain ⟨-, -, vm, rfl⟩ := applyBlock_ok happly
          unfold Replica.notifyVmOfCommitment at hnotify
          split at hnotify
          · obtain ⟨-, rfl⟩ := Prod.mk.inj (Except.error.inj hnotify)
            exact ⟨[b], List.prefix_append [b] queue, hone.emit vm⟩
          · cases hnotify
        · rename_i s₂ hnotify
          have spec := applySpec_one hgc happly hnotify
          obtain ⟨q, hq, A⟩ := ih spec.bounded h
          exact ⟨b :: q, List.cons_prefix_cons.mpr ⟨rfl, hq⟩, (Applies.of_spec spec).trans A⟩

/-! ## The log -/

namespace DurableLog

theorem start (E : Setup V) : DurableLog E (Hotstuff.start E) where
  written := by
    rintro q (rfl | ⟨r, hr⟩) hne -
    · exact absurd rfl hne
    · cases hr
  exec_written := rfl
  applied := by
    intro pre post p x n h
    have hmem : Effect.applied p x n ∈ (Hotstuff.start E).trace :=
      h ▸ List.mem_append_right _ List.mem_cons_self
    exact absurd hmem List.not_mem_nil

/-- What is at or below the executed block is saved. -/
theorem written_of_below (L : DurableLog E s) (W : WellFormed E s) {q : BlockPtr}
    (hq : Descends s.heap.parent s.bExec q) : (s.heap.get q).writtenToDisk = true :=
  written_of_descends W.forest (fun x y _ => W.written_closed x y) L.exec_written hq

/-- A part of a step that saves nothing new and applies nothing. -/
theorem frame (L : DurableLog E s) (W : WellFormed E s) (H : Heap.Extends s.heap s'.heap)
    (hcache : ∀ {x p}, s.blockStore.blockCache x = some p → s'.blockStore.blockCache x = some p)
    (hfiles : s'.files = s.files) (hexec : s'.bExec = s.bExec)
    (hwritten : ∀ q, s'.heap.Settled q → (s'.heap.get q).writtenToDisk = true →
      s.heap.Settled q ∧ (s.heap.get q).writtenToDisk = true)
    (hkept : ∀ q, s.heap.Settled q → (s.heap.get q).writtenToDisk = true →
      (s'.heap.get q).writtenToDisk = true)
    (hbody : ∀ q, s.heap.Settled q → (s'.heap.get q).flushedFromMemory = false →
      (s.heap.get q).flushedFromMemory = false ∧
        (s'.heap.get q).wireBlock = (s.heap.get q).wireBlock)
    (htrace : ∃ effs, s'.trace = s.trace ++ effs ∧ ∀ e ∈ effs, e.appliedBlock = none) :
    DurableLog E s' := by
  obtain ⟨effs, htr, hno⟩ := htrace
  have hmono : ∀ {pre pre' : List Effect} {q w}, s.heap.Settled q → (∀ e ∈ pre, e ∈ pre') →
      OnDisk E s pre q w → OnDisk E s' pre' q w :=
    fun hset heffs h => h.mono heffs (H.core_eq _ hset) (by rw [hfiles]) (hbody _ hset)
  refine ⟨fun q hset hne hw => ?_, ?_, fun pre post p x n h => ?_⟩
  · obtain ⟨hset', hw'⟩ := hwritten q hset hw
    obtain ⟨w, hdisk⟩ := L.written q hset' hne hw'
    refine ⟨w, hmono hset' (fun e he => ?_) hdisk⟩
    rw [htr]
    exact List.mem_append_left _ he
  · rw [hexec]
    exact hkept _ W.exec_settled L.exec_written
  · rw [htr] at h
    obtain ⟨m, hm⟩ := (append_eq_split h).resolve_right fun ⟨_, _, he⟩ => by cases hno _ he
    obtain ⟨hstored, hbranch⟩ := L.applied pre m p x n hm
    have hset := W.shape.settled_of_stored hstored
    refine ⟨by rw [H.hash_eq hset]; exact hcache hstored, fun q hd hne => ?_⟩
    have hd' := (W.shape.descends_iff H hset).mp hd
    obtain ⟨w, hdisk⟩ := hbranch q hd' hne
    exact ⟨w, hmono (W.shape.settled_descends hset hd') (fun _ he => he) hdisk⟩

theorem outside (L : DurableLog E s) (W : WellFormed E s) (W' : WellFormed E s')
    (o : Outside E s s') : DurableLog E s' := by
  obtain ⟨effs, htrace, hproposed⟩ := o.trace_eq
  refine L.frame W o.heap o.cache o.files_eq o.bExec_eq (fun q hset hw => ?_) (fun q hset hw => ?_)
    (fun q hset => (o.bodies q (W.shape.lt_next_of_settled hset)).2) ⟨effs, htrace, ?_⟩
  · by_cases hlt : q < s.heap.next
    · rw [(o.flags q hlt).2] at hw
      exact ⟨W.settled_of_written hlt hw, hw⟩
    · rw [(o.new q (Nat.not_lt.mp hlt) (W'.shape.lt_next_of_settled hset)).2.1] at hw
      cases hw
  · rw [(o.flags q (W.shape.lt_next_of_settled hset)).2]
    exact hw
  · intro e he
    obtain ⟨p, x, rfl⟩ := hproposed e he
    rfl

/-- A part of an event that adds neither objects nor links, and saves and applies nothing. -/
theorem frame_sameHeap (L : DurableLog E s) (W : WellFormed E s) (hheap : s'.heap = s.heap)
    (hstore : s'.blockStore = s.blockStore) (hfiles : s'.files = s.files)
    (hexec : s'.bExec = s.bExec)
    (htrace : ∃ effs, s'.trace = s.trace ++ effs ∧ ∀ e ∈ effs, e.appliedBlock = none) :
    DurableLog E s' := by
  have hcache : ∀ {x p}, s.blockStore.blockCache x = some p → s'.blockStore.blockCache x = some p :=
    fun h => hstore ▸ h
  refine L.frame W (hheap ▸ Heap.Extends.refl _) hcache hfiles hexec ?_ ?_ ?_ htrace
  · rw [hheap]
    exact fun q hset hw => ⟨hset, hw⟩
  · rw [hheap]
    exact fun q _ hw => hw
  · rw [hheap]
    exact fun q _ hf => ⟨hf, rfl⟩

/-- Applying blocks whose branches are saved. -/
theorem applies (L : DurableLog E s) (W : WellFormed E s) {bound : ℕ} {queue : List BlockPtr}
    (hqueue : ∀ p ∈ queue, s.blockStore.blockCache (s.heap.hash p) = some p ∧
      ∀ q, Descends s.heap.parent p q → (s.heap.get q).writtenToDisk = true)
    (A : Applies bound queue s s') :
    (∀ q, s'.heap.Settled q → q ≠ genesisPtr → (s'.heap.get q).writtenToDisk = true →
      ∃ w, OnDisk E s' s'.trace q w) ∧ DecidedDurable E s' := by
  have hmono : ∀ {pre pre' : List Effect} {q w}, (∀ e ∈ pre, e ∈ pre') → OnDisk E s pre q w →
      OnDisk E s' pre' q w := by
    intro pre pre' q w heffs hdisk
    exact hdisk.mono heffs (A.aged.cores.core_eq q) (congrFun A.files_eq _) (A.aged.unflushed_of q)
  constructor
  · intro q hset hne hw
    rw [A.written_eq] at hw
    obtain ⟨w, hdisk⟩ := L.written q (A.aged.cores.settled_iff.mp hset) hne hw
    refine ⟨w, hmono (fun e he => ?_) hdisk⟩
    rw [A.trace_eq]
    exact List.mem_append_left _ he
  · intro pre post p x n hpre
    have hcache : s'.blockStore.blockCache (s'.heap.hash p) =
        s.blockStore.blockCache (s.heap.hash p) := by
      rw [A.cache_eq, A.aged.cores.hash_eq]
    rw [A.trace_eq] at hpre
    rcases append_eq_split hpre with ⟨m, hm⟩ | ⟨m, rfl, hmem⟩
    · obtain ⟨hstored, hall⟩ := L.applied pre m p x n hm
      refine ⟨hcache.trans hstored, fun q hd hne => ?_⟩
      rw [A.aged.cores.parent_eq] at hd
      obtain ⟨w, hdisk⟩ := hall q hd hne
      exact ⟨w, hmono (fun _ he => he) hdisk⟩
    · -- the effect is one of the queue's: all of the old trace comes before it
      obtain ⟨y, hy, heq⟩ := List.mem_map.mp hmem
      obtain ⟨rfl, -, -⟩ := Effect.applied.inj heq
      obtain ⟨hstored, hwritten⟩ := hqueue y hy
      refine ⟨hcache.trans hstored, fun q hd hne => ?_⟩
      rw [A.aged.cores.parent_eq] at hd
      have hset := W.shape.settled_descends (W.shape.settled_of_stored hstored) hd
      obtain ⟨w, hdisk⟩ := L.written q hset hne (hwritten q hd)
      exact ⟨w, hmono (fun _ he => List.mem_append_left _ he) hdisk⟩

end DurableLog

/-! ## A call of `update` -/

/-- What holds of a replica of the world when it calls `update`. -/
structure Poised (E : Setup V) (s : Replica V) : Prop where
  durable : DurableLog E s
  wellFormed : WellFormed E s
  bodies : BodyLog E s
  saves : SaveLog s
  guarded : Guarded s
  promises : Promises s
  exec_le : s.heap.height s.bExec ≤ s.heap.height s.bLock

namespace Poised

variable (D : Poised E s)

include D

/-- The lock that `update` saves is certified and stored, and descends from the executed block. -/
theorem newLock_spec {blk2 blk1 : BlockPtr} (hj : s.heap.justify blk2 = some blk1) :
    s.heap.Justified (newLock blk1 s) ∧
      s.blockStore.blockCache (s.heap.hash (newLock blk1 s)) = some (newLock blk1 s) ∧
      Descends s.heap.parent (newLock blk1 s) s.bExec := by
  have W := D.wellFormed
  have hlock : s.heap.Justified (newLock blk1 s) ∧
      s.blockStore.blockCache (s.heap.hash (newLock blk1 s)) = some (newLock blk1 s) := by
    rcases newLock_cases blk1 s with ⟨h, -⟩ | ⟨h, -⟩
    · rw [h]
      exact ⟨Or.inr ⟨blk2, hj⟩, W.shape.stored_justify hj⟩
    · rw [h]
      exact ⟨D.promises.lock_justified, W.lock_stored⟩
  refine ⟨hlock.1, hlock.2, ?_⟩
  rcases D.promises.exec_chain with hgen | ⟨n', c2, c1, T⟩
  · rw [hgen]
    exact W.shape.descends_genesis (W.shape.settled_of_stored hlock.2)
  · apply D.guarded n' c2 c1 s.bExec T _ hlock.1 hlock.2
    have hle := (le_height_newLock blk1 s).2
    have hexec := D.exec_le
    omega

theorem lockStage {nblk blk2 blk1 : BlockPtr} (l : LockStage E nblk blk2 blk1 s s₂) :
    DurableLog E s₂ := by
  have L := D.durable
  have W := D.wellFormed
  have B := D.bodies
  have F := D.saves
  obtain ⟨-, hstored, hbelow⟩ := D.newLock_spec l.justify₁
  have h := l.saves
  have A : Heap.Aged (s.heap.height s.bExec - keepDepth) s.heap s₂.heap :=
    (UpdateOk.lockOnly l).aged
  have H := A.cores.extends
  obtain ⟨effs, htrace, hsaved, hnew⟩ := h.trace_eq
  have hbranch : ∀ {q}, Descends s.heap.parent (newLock blk1 s) q →
      s.blockStore.blockCache (s.heap.hash q) = some q := fun hd => W.shape.stored_descends hstored hd
  -- the files of blocks saved before stay
  have hold : ∀ {pre pre' : List Effect} {q w}, s.heap.Settled q →
      (s.heap.get q).writtenToDisk = true → (∀ e ∈ pre, e ∈ pre') →
      OnDisk E s pre q w → OnDisk E s₂ pre' q w := by
    intro pre pre' q w hset hw heffs hdisk
    refine hdisk.mono heffs (A.cores.core_eq q) (h.files_old _ fun x hx hd heq => ?_)
      (A.unflushed_of q)
    have := Shape.eq_of_stored (hbranch hd) (F.stored q hset hw) heq
    rw [this, hw] at hx
    cases hx
  refine ⟨fun q hset hne hw => ?_, ?_, fun pre post p x n hpre => ?_⟩
  · have hset' := A.cores.settled_iff.mp hset
    rcases hw' : (s.heap.get q).writtenToDisk with _ | _
    · have hd : Descends s.heap.parent (newLock blk1 s) q := by
        rcases (h.written_iff q).mp hw with hw | hd
        · rw [hw'] at hw
          cases hw
        · exact hd
      -- not saved yet, so above the executed block, so not flushed
      have habove : s.heap.height s.bExec < s.heap.height q := by
        by_contra hle
        have hq := W.forest.descends_of_height_le hbelow hd (Nat.not_lt.mp hle)
        rw [L.written_of_below W hq] at hw'
        cases hw'
      have hlt := W.shape.lt_next_of_settled hset'
      have hkept : (s₂.heap.get q).flushedFromMemory = false := by
        rcases hf : (s₂.heap.get q).flushedFromMemory with _ | _
        · rfl
        · rcases A.flushed_of q hf with hf | hlow
          · have := (B.flushed q hne hlt hf).2
            omega
          · omega
      obtain ⟨w, hmem, hfile, hheader, hwhole⟩ := hnew q hw' hd
      obtain ⟨hf, hwire⟩ := A.unflushed_of q hkept
      have hw₂ := hwhole hkept
      refine ⟨w, ?_, ?_, ?_, ?_, hwhole⟩
      · rw [A.cores.hash_eq, htrace]
        exact List.mem_append_right _ hmem
      · rw [A.cores.hash_eq]
        exact hfile
      · rw [A.cores.header_eq]
        exact hheader
      · rw [hheader, hw₂, hwire]
        exact B.body q hne hlt hf
    · obtain ⟨w, hdisk⟩ := L.written q hset' hne hw'
      refine ⟨w, hold hset' hw' (fun e he => ?_) hdisk⟩
      rw [htrace]
      exact List.mem_append_left _ he
  · rw [(Stays.lockStage l).bExec_eq]
    exact (h.written_iff _).mpr (Or.inl L.exec_written)
  · rw [htrace] at hpre
    have hnot : Effect.applied p x n ∉ effs := by
      intro he
      obtain ⟨y, w, heq, -⟩ := hsaved _ he
      cases heq
    obtain ⟨m, hm⟩ := (append_eq_split hpre).resolve_right fun ⟨_, _, he⟩ => hnot he
    obtain ⟨hsp, hall⟩ := L.applied pre m p x n hm
    have hset := W.shape.settled_of_stored hsp
    refine ⟨?_, fun q hd hne => ?_⟩
    · rw [A.cores.hash_eq, h.cache_eq]
      exact hsp
    have hd' := (W.shape.descends_iff H hset).mp hd
    obtain ⟨w, hdisk⟩ := hall q hd' hne
    -- what is in the trace is flagged: saved and applied blocks are stored
    have hw : (s.heap.get q).writtenToDisk = true := by
      obtain ⟨y, -, hy, hw⟩ := F.of_saved _ w (hm ▸ List.mem_append_left _ hdisk.saved)
      obtain rfl : q = y := Option.some.inj ((W.shape.stored_descends hsp hd').symm.trans hy)
      exact hw
    exact ⟨w, hold (W.shape.settled_descends hset hd') hw (fun _ he => he) hdisk⟩

/-- **What `update` commits was saved in the lock stage of the same call.** -/
theorem queue_saved {nblk blk2 blk1 blk : BlockPtr}
    (l : LockStage E nblk blk2 blk1 s s₂) (h0 : s.heap.justify blk1 = some blk)
    (hp2 : s.heap.parent blk2 = some blk1) (hp1 : s.heap.parent blk1 = some blk) {p : BlockPtr}
    (hp : Descends s.heap.parent blk p) :
    s₂.blockStore.blockCache (s₂.heap.hash p) = some p ∧
      ∀ q, Descends s₂.heap.parent p q → (s₂.heap.get q).writtenToDisk = true := by
  have W := D.wellFormed
  obtain ⟨hjust, hstored, -⟩ := D.newLock_spec l.justify₁
  have h := l.saves
  have T : HeadsChain s.heap nblk blk2 blk1 blk := ⟨l.justify₂, l.justify₁, h0, hp2, hp1⟩
  have hle : s.heap.height blk ≤ s.heap.height (newLock blk1 s) := by
    have hlt := W.shape.height_parent hp1
    have hle := (le_height_newLock blk1 s).1
    omega
  have hbelow : Descends s.heap.parent (newLock blk1 s) blk := D.guarded _ _ _ _ T _ hjust hstored hle
  constructor
  · rw [h.cache_eq, h.cores.hash_eq]
    exact W.shape.stored_descends hstored (hbelow.trans hp)
  · intro q hq
    rw [h.cores.parent_eq] at hq
    exact (h.written_iff q).mpr (Or.inr ((hbelow.trans hp).trans hq))

theorem update {p : BlockPtr} (u : UpdateOk E p s s') : DurableLog E s' := by
  cases u with
  | early _ => exact D.durable
  | @hqcOnly blk2 _ _ _ =>
      have hfiles : (updateHqc blk2 (s.heap.get p).getJustifyQc s).files = s.files := by
        unfold updateHqc
        split <;> rfl
      obtain ⟨hbExec, hstore⟩ := updateHqc_frame blk2 (s.heap.get p).getJustifyQc s
      apply D.durable.frame_sameHeap D.wellFormed (heap_updateHqc _ _ _) hstore hfiles hbExec
      exact ⟨[], by rw [updateHqc_trace, List.append_nil], fun _ he => absurd he List.not_mem_nil⟩
  | lockOnly l => exact D.lockStage l
  | @commit blk2 blk1 blk queue tx s₂ s₃ c _ =>
      have hsaved : ∀ {x}, Descends s.heap.parent blk x → _ := fun hx =>
        D.queue_saved c.lock c.justify₀ c.parent₂ c.parent₁ hx
      -- what the commit does after the loop touches neither blocks nor files
      have A : Applies _ queue s₂ (committed blk1 blk tx s s₃) :=
        ⟨c.apply.keeps.cache_eq, c.apply.aged, c.apply.files_eq, c.apply.written_eq,
          c.apply.trace_eq⟩
      obtain ⟨hwritten, happlied⟩ := (D.lockStage c.lock).applies c.lock.wellFormed
        (fun x hx => hsaved ((c.mem_queue x).mp hx).1) A
      refine ⟨hwritten, ?_, happlied⟩
      exact (c.apply.written_eq blk).trans ((hsaved (Descends.refl blk)).2 blk (Descends.refl blk))

/-- A call of `update` that throws has locked and saved, and maybe applied a part of what it was to
commit. -/
theorem update_error {p : BlockPtr} {e : Exn} (h : Replica.update E p s = .error (e, s')) :
    DecidedDurable E s' := by
  have hrun := update_run E p s
  rw [h] at hrun
  generalize hr : (Except.error (e, s') : Result V) = r at hrun
  cases hrun with
  | early _ => cases hr
  | hqcOnly _ _ _ => cases hr
  | lockOnly _ _ _ _ => cases hr
  | @chain blk2 blk1 blk s₂ _ h2 hd2 h1 hd1 hs₂ h0 hd0 hp2 hp1 hcommit =>
      subst hs₂
      have l := Replica.lockStage D.wellFormed h2 hd2 h1 hd1
      generalize lockAndWrite E blk1 (updateHqc blk2 (s.heap.get p).getJustifyQc s) = s₂ at *
      have hsame := l.spec.core_eq
      have L₂ := D.lockStage l
      rcases commitQueue_spec blk l.wellFormed.forest with ⟨-, queue, hq, -, hmem⟩ | ⟨-, hbreach⟩
      · rw [hq, ← hr] at hcommit
        have hcommit' : commitBlocks E blk1 blk queue s₂ = .error (e, s') := hcommit.symm
        unfold commitBlocks at hcommit'
        split at hcommit'
        · rename_i r happly
          obtain rfl := Except.error.inj hcommit'
          obtain ⟨q, happlied, A⟩ := applies_of_error l.wellFormed.collector happly
          refine (L₂.applies l.wellFormed (fun x hx => ?_) A).2
          have hx' := ((hmem x).mp (happlied.subset hx)).1
          rw [hsame.justify_eq] at h0
          rw [hsame.parent_eq] at hp2 hp1 hx'
          exact D.queue_saved l h0 hp2 hp1 hx'
        · cases hcommit'
      · rw [hbreach, ← hr] at hcommit
        obtain ⟨-, rfl⟩ := Prod.mk.inj (Except.error.inj hcommit)
        exact L₂.applied

end Poised

/-! ## The steps of a replica -/

/-- What holds of a replica between two steps. -/
structure Rested (K : Set HotstuffBlockHeader) (E : Setup V) (s : Replica V) : Prop
    extends Poised E s where
  regular : Regular K s
  votes : VoteLog s
  log : PromiseLog s

namespace Rested

variable {K : Set HotstuffBlockHeader} {p : BlockPtr} {rid : ReplicaID}

/-- A replica that has taken up an event. -/
theorem pop (D : Rested K E s) (schedule : List ℕ) {e : Event} {rest : List Event}
    (hq : s.eventQueue = e :: rest) :
    Rested K E { s with eventQueue := rest, schedule := schedule } := by
  have W := D.wellFormed
  have W₀ := W.popEvent schedule hq
  have L₀ : PromiseLog { s with eventQueue := rest, schedule := schedule } :=
    D.log.frame W (Heap.Extends.refl _) rfl rfl rfl (.of_eq rfl)
  refine ⟨⟨?_, W₀, ?_, ?_, D.guarded, L₀.toPromises, D.exec_le⟩, ?_, ?_, L₀⟩
  · exact D.durable.frame_sameHeap W rfl rfl rfl rfl ⟨[], by simp, by simp⟩
  · exact ⟨D.bodies.listed, D.bodies.flushed, D.bodies.body⟩
  · exact D.saves.frame_sameCores W (Heap.SameCores.refl _) rfl rfl rfl (fun _ => rfl)
      fun _ _ => Iff.rfl
  · exact ⟨D.regular.header_mem, D.regular.height_lt⟩
  · exact ⟨D.votes.increase, D.votes.le_vheight⟩

theorem doVote_frame (block : BlockPtr) (proposer : ReplicaID) (s : Replica V) :
    (doVote E block proposer s).state.heap = s.heap ∧
      (doVote E block proposer s).state.blockStore = s.blockStore ∧
      (doVote E block proposer s).state.files = s.files ∧
      (doVote E block proposer s).state.bExec = s.bExec := by
  unfold doVote validateAndAddEvent
  dsimp only
  split
  · split <;> exact ⟨rfl, rfl, rfl, rfl⟩
  · split <;> exact ⟨rfl, rfl, rfl, rfl⟩

/-- A vote that throws. -/
theorem vote_error (D : Rested K E s) (hne : p ≠ genesisPtr) (hset : s.heap.Settled p) {e : Exn}
    (h : voteOnProposal E p rid s = .error (e, s')) : DecidedDurable E s' := by
  have W := D.wellFormed
  obtain ⟨j, o, -, ho, -⟩ := opinion_spec W hne hset
  unfold voteOnProposal at h
  split at h
  · rw [ho] at h
    cases o with
    | true =>
        have hframe := doVote_frame (E := E) p rid
          { s with vheight := BitVec.ofNat 32 (s.heap.height p) }
        have htrace := (doVote_state E p rid
          { s with vheight := BitVec.ofNat 32 (s.heap.height p) }).1
        have hcall : doVote E p rid { s with vheight := BitVec.ofNat 32 (s.heap.height p) } =
            .error (e, s') := h
        rw [hcall] at hframe htrace
        obtain ⟨hheap, hstore, hfiles, hexec⟩ := hframe
        refine (D.durable.frame_sameHeap W hheap hstore hfiles hexec ⟨_, htrace, fun x hx => ?_⟩).applied
        rw [List.mem_singleton.mp hx]
        rfl
    | false => cases h
  · cases h

/-- What comes before `update` in a proposal event. -/
theorem vote (D : Rested K E s) (hne : p ≠ genesisPtr) (hset : s.heap.Settled p)
    (h : voteOnProposal E p rid s = .ok s') : Poised E s' := by
  have W := D.wellFormed
  rcases voteOnProposal_ok W hne hset h with v | ⟨rfl, -⟩
  · have M := (D.log.vote W D.regular D.votes hne hset v).1
    have W' := v.wellFormed W
    have B := D.bodies.vote v
    have F := D.saves.vote W v
    obtain ⟨queue, -, rfl⟩ := v.eq
    refine ⟨?_, W', B, F, D.guarded, M, D.exec_le⟩
    refine D.durable.frame_sameHeap W rfl rfl rfl rfl ⟨_, rfl, fun e he => ?_⟩
    rw [List.mem_singleton.mp he]
    rfl
  · exact D.toPoised

theorem step (D : Rested K E s) {i : Input} (h : step E i s = .ok s') : DurableLog E s' := by
  obtain ⟨W', o | ⟨schedule, p, rid, rest, s₁, -, P⟩⟩ := step_cases D.wellFormed h
  · exact D.durable.outside D.wellFormed W' o
  · exact ((D.pop schedule P.queue_eq).vote P.ne_genesis P.settled P.vote).update P.update

/-- An event that throws. -/
theorem event_error (D : Rested K E s) {schedule : List ℕ} {e : Exn}
    (h : Hotstuff.step E (.event schedule) s = .error (e, s')) : DecidedDurable E s' := by
  unfold Hotstuff.step at h
  dsimp only at h
  split at h
  · cases h
  · rename_i ev rest hq
    have D₀ := D.pop schedule hq
    have hev : ev.Ok s.heap := D.wellFormed.events ev (hq ▸ List.mem_cons_self)
    cases ev with
    | vote cert block rid =>
        -- the votes for a block are counted before anything changes
        unfold onEvent onReceiveVote at h
        dsimp only at h
        split at h
        · obtain ⟨-, rfl⟩ := Prod.mk.inj (Except.error.inj h)
          exact D₀.durable.applied
        · split at h
          · cases h
          · cases h
    | proposal p rid =>
        unfold onEvent onReceiveProposal at h
        dsimp only at h
        split at h
        · rename_i r hv
          obtain rfl := Except.error.inj h
          exact D₀.vote_error hev.1 hev.2 hv
        · rename_i s₁ hv
          exact (D₀.vote hev.1 hev.2 hv).update_error h

end Rested

/-! ## The world -/

namespace World

variable {N : System V} {w : World V}

/-- The lock rule of the world, as a replica sees it. -/
theorem Sane.guarded (S : Sane N w) (r : ReplicaID) : Guarded (w r) := by
  intro nblk blk2 blk1 blk T a ha hstored hle
  have W := S.wellFormed r
  apply W.descends_of_path_suffix hstored (W.shape.stored_justify T.justify₀)
  apply S.sound.threeChain_below (S.threeChain T) (S.certified_justify T.justify₂)
    (S.certified_of_justified ha)
  show ((w r).heap.path blk).length ≤ ((w r).heap.path a).length
  rw [S.length_path, S.length_path]
  exact hle

theorem rested_of_reach (h : Reach (step N) (Admissible N) (start N) w) {r : ReplicaID}
    (L : DurableLog (N.setup r) (w r)) : Rested N.blocks (N.setup r) (w r) := by
  have S := sane_of_reach h
  have hlocal := local_reach h r
  exact
    { durable := L
      wellFormed := S.wellFormed r
      bodies := bodyLog_of_reach hlocal
      saves := (wellFormed_saveLog_of_reach hlocal).2
      guarded := S.guarded r
      promises := (S.promises r).toPromises
      exec_le := exec_le_lock (reach_any hlocal)
      regular := S.regular r
      votes := S.votes r
      log := S.promises r }

theorem durableLog_of_reach (h : Reach (step N) (Admissible N) (start N) w) :
    ∀ r, DurableLog (N.setup r) (w r) := by
  refine h.invariant_of_reach (I := fun w => ∀ r, DurableLog (N.setup r) (w r)) ?_ ?_
  · exact fun r => DurableLog.start (N.setup r)
  · intro t u a ht L _ hs r
    obtain ⟨s, hstep, rfl⟩ := step_ok hs
    by_cases hr : r = a.rid
    · subst hr
      rw [Function.update_self]
      exact (rested_of_reach ht (L a.rid)).step hstep
    · rw [Function.update_of_ne hr]
      exact L r

end World

/-- **Decided blocks are durable.** In every run of `3 * f + 1` replicas of which at most `f` are
faulty, when a correct replica decides a block, the block and its ancestors have been saved with their
full bodies, whatever the collector did and also if the event throws later on. -/
theorem decided_durable (N : System V) (w : World V)
    (h : Reach (World.step N) (World.Admissible N) (World.start N) w) :
    ∀ r, N.Correct r → DecidedDurable (N.setup r) (w r) ∧
      ∀ schedule e s', step (N.setup r) (.event schedule) (w r) = .error (e, s') →
        DecidedDurable (N.setup r) s' := by
  intro r _
  have D := World.rested_of_reach h (World.durableLog_of_reach h r)
  exact ⟨D.durable.applied, fun _ _ _ herr => D.event_error herr⟩

/-- A replica of four that has committed a block. -/
theorem decided_durable_four : ∃ w : World Unit,
    (w 0).committedHashes = [1#256] ∧
    ∀ r, Instance.fourSystem.Correct r → DecidedDurable (Instance.fourSystem.setup r) (w r) ∧
      ∀ schedule e s', step (Instance.fourSystem.setup r) (.event schedule) (w r) =
        .error (e, s') → DecidedDurable (Instance.fourSystem.setup r) s' := by
  obtain ⟨w, hreach, h0, -⟩ := Instance.exists_fourWorld
  exact ⟨w, h0, decided_durable Instance.fourSystem w hreach⟩

end Fred.Hotstuff
