/-
# Fred.Hotstuff.BlockStore -- the block cache and the garbage collector

`block_storage/block_store.cc` and `block_storage/garbage_collector.cc`. The `std::map` from hashes
to blocks is a partial function, since nothing iterates over it; `emplace` keeps the entry that is
there. The collector is a thread of its own: `collect` is the next thing it does, a take-over of the
buffered blocks or one round of the loop in `do_gc`, so that any number of its steps can fall between
two steps of another thread.
-/
import Fred.Hotstuff.Block

namespace Fred.Hotstuff

/-! ## `BlockGarbageCollector` -/

structure BlockGarbageCollector where
  hotstuffHeightToGc : Option ℕ
  gcList : List BlockPtr
  gcListBuffer : List BlockPtr
  /-- The height and the iterator of the `do_gc` that is running. -/
  job : Option (ℕ × ℕ)
  deriving DecidableEq, Repr

namespace BlockGarbageCollector

def init : BlockGarbageCollector := ⟨none, [], [], none⟩

def invokeGc (gc : BlockGarbageCollector) (hotstuffHeight : ℕ) : BlockGarbageCollector :=
  { gc with hotstuffHeightToGc := some hotstuffHeight }

def addBlock (gc : BlockGarbageCollector) (blk : BlockPtr) : BlockGarbageCollector :=
  { gc with gcListBuffer := gc.gcListBuffer ++ [blk] }

/-- One round of the loop of `do_gc` at iterator `i`: flush a block below the height and put the last
entry in its place, or go on to the next entry. -/
def doGcRound (gc : BlockGarbageCollector) (heap : Heap) (hotstuffHeight i : ℕ) :
    BlockGarbageCollector × Heap :=
  match gc.gcList[i]? with
  | none => ({ gc with job := none }, heap)
  | some blk =>
    if heap.height blk < hotstuffHeight then
      ({ gc with gcList := (gc.gcList.set i (gc.gcList.getLastD blk)).dropLast },
        heap.modify blk HotstuffBlock.flushFromMemory)
    else ({ gc with job := some (hotstuffHeight, i + 1) }, heap)

/-- The next thing the collector thread does: a round of the running `do_gc`, or the take-over that
starts one, or nothing when no height is set. -/
def collect (gc : BlockGarbageCollector) (heap : Heap) : BlockGarbageCollector × Heap :=
  match gc.job with
  | some (h, i) => gc.doGcRound heap h i
  | none =>
    match gc.hotstuffHeightToGc with
    | none => (gc, heap)
    | some h =>
      ({ hotstuffHeightToGc := none, gcList := gc.gcList ++ gc.gcListBuffer, gcListBuffer := [],
         job := some (h, 0) }, heap)

/-- The collector may flush blocks below this height: it bounds the height it works on and the height
it will take up next. -/
structure BoundedBy (gc : BlockGarbageCollector) (bound : ℕ) : Prop where
  pending : ∀ h, gc.hotstuffHeightToGc = some h → h ≤ bound
  running : ∀ h i, gc.job = some (h, i) → h ≤ bound

end BlockGarbageCollector

/-! ## Flushing -/

namespace Heap

/-- The second heap is the first after some blocks below a height were flushed. -/
def FlushedBelow (bound : ℕ) (h h' : Heap) : Prop :=
  h'.next = h.next ∧ ∀ p, h'.get p = h.get p ∨
    h'.get p = (h.get p).flushFromMemory ∧ h.height p < bound

namespace FlushedBelow

variable {bound bound' : ℕ} {h h' h'' : Heap}

theorem refl (h : Heap) : FlushedBelow bound h h := ⟨rfl, fun _ => Or.inl rfl⟩

theorem sameCores (H : FlushedBelow bound h h') : SameCores h h' := by
  refine ⟨H.1, fun p => ?_⟩
  show (h'.get p).core = (h.get p).core
  rcases H.2 p with hp | ⟨hp, -⟩
  · rw [hp]
  · rw [hp, HotstuffBlock.core_flushFromMemory]

theorem trans (H : FlushedBelow bound h h') (H' : FlushedBelow bound h' h'') :
    FlushedBelow bound h h'' := by
  refine ⟨H'.1.trans H.1, fun p => ?_⟩
  have hheight : h'.height p = h.height p := congrFun H.sameCores.height_eq p
  rcases H'.2 p with hp' | ⟨hp', hb'⟩
  · rw [hp']
    exact H.2 p
  · rw [hheight] at hb'
    refine Or.inr ⟨?_, hb'⟩
    rcases H.2 p with hp | ⟨hp, -⟩
    · rw [hp', hp]
    · rw [hp', hp, HotstuffBlock.flushFromMemory_flushFromMemory]

theorem mono (H : FlushedBelow bound h h') (hle : bound ≤ bound') : FlushedBelow bound' h h' :=
  ⟨H.1, fun p => (H.2 p).imp_right fun hp => ⟨hp.1, lt_of_lt_of_le hp.2 hle⟩⟩

theorem modify (h : Heap) {p : BlockPtr} (hp : h.height p < bound) :
    FlushedBelow bound h (h.modify p HotstuffBlock.flushFromMemory) := by
  refine ⟨rfl, fun q => ?_⟩
  by_cases hq : q = p
  · subst hq
    exact Or.inr ⟨by simp, hp⟩
  · exact Or.inl (get_modify_of_ne h _ hq)

theorem decided_eq (H : FlushedBelow bound h h') (p : BlockPtr) :
    (h'.get p).decided = (h.get p).decided := by
  rcases H.2 p with hp | ⟨hp, -⟩
  · rw [hp]
  · rw [hp]
    unfold HotstuffBlock.flushFromMemory
    split <;> rfl

theorem writtenToDisk_eq (H : FlushedBelow bound h h') (p : BlockPtr) :
    (h'.get p).writtenToDisk = (h.get p).writtenToDisk := by
  rcases H.2 p with hp | ⟨hp, -⟩
  · rw [hp]
  · rw [hp]
    unfold HotstuffBlock.flushFromMemory
    split <;> rfl

theorem selfQc_eq (H : FlushedBelow bound h h') (p : BlockPtr) :
    (h'.get p).selfQc = (h.get p).selfQc := by
  rcases H.2 p with hp | ⟨hp, -⟩
  · rw [hp]
  · rw [hp]
    unfold HotstuffBlock.flushFromMemory
    split <;> rfl

/-- A block that is still unflushed was not touched. -/
theorem get_eq_of_unflushed (H : FlushedBelow bound h h') {p : BlockPtr}
    (hp : (h'.get p).flushedFromMemory = false) : h'.get p = h.get p := by
  rcases H.2 p with hq | ⟨hq, -⟩
  · exact hq
  · rw [hq] at hp ⊢
    unfold HotstuffBlock.flushFromMemory at hp ⊢
    split at hp
    · rename_i hf
      rw [if_pos hf]
    · cases hp

end FlushedBelow

end Heap

namespace BlockGarbageCollector

theorem doGcRound_spec {gc : BlockGarbageCollector} {heap : Heap} {bound h i : ℕ}
    (hgc : gc.BoundedBy bound) (hjob : gc.job = some (h, i)) :
    (gc.doGcRound heap h i).1.BoundedBy bound ∧
      Heap.FlushedBelow bound heap (gc.doGcRound heap h i).2 := by
  have hb := hgc.running h i hjob
  unfold doGcRound
  split
  · exact ⟨⟨hgc.pending, fun _ _ hh => absurd hh (by simp)⟩, Heap.FlushedBelow.refl heap⟩
  · split
    · rename_i hlt
      exact ⟨⟨hgc.pending, hgc.running⟩, Heap.FlushedBelow.modify heap (lt_of_lt_of_le hlt hb)⟩
    · refine ⟨⟨hgc.pending, fun h' i' hh => ?_⟩, Heap.FlushedBelow.refl heap⟩
      obtain ⟨rfl, -⟩ := Prod.mk.inj (Option.some.inj hh)
      exact hb

/-- **What a step of the collector can do**: flush a block below the bound; the bound on its heights
stays. -/
theorem collect_spec {gc : BlockGarbageCollector} {heap : Heap} {bound : ℕ}
    (hgc : gc.BoundedBy bound) :
    (gc.collect heap).1.BoundedBy bound ∧
      Heap.FlushedBelow bound heap (gc.collect heap).2 := by
  unfold collect
  split
  · rename_i h i hjob
    exact doGcRound_spec hgc hjob
  · split
    · exact ⟨hgc, Heap.FlushedBelow.refl heap⟩
    · rename_i h hpend
      refine ⟨⟨fun _ hh => absurd hh (by simp), fun h' i hh => ?_⟩, Heap.FlushedBelow.refl heap⟩
      obtain ⟨rfl, -⟩ := Prod.mk.inj (Option.some.inj hh)
      exact hgc.pending h hpend

/-- The blocks the collector knows. -/
def Lists (gc : BlockGarbageCollector) (p : BlockPtr) : Prop := p ∈ gc.gcList ∨ p ∈ gc.gcListBuffer

/-- The collector flushes blocks it knows and learns of none by itself. -/
theorem collect_lists (gc : BlockGarbageCollector) (heap : Heap) :
    (∀ p, (gc.collect heap).1.Lists p → gc.Lists p) ∧
      ∀ p, ((gc.collect heap).2.get p).flushedFromMemory = true →
        (heap.get p).flushedFromMemory = true ∨ gc.Lists p := by
  have hround : ∀ h i, (∀ p, (gc.doGcRound heap h i).1.Lists p → gc.Lists p) ∧
      ∀ p, ((gc.doGcRound heap h i).2.get p).flushedFromMemory = true →
        (heap.get p).flushedFromMemory = true ∨ gc.Lists p := by
    intro h i
    unfold doGcRound
    split
    · exact ⟨fun _ hp => hp, fun _ hp => Or.inl hp⟩
    · rename_i blk hblk
      have hmem : blk ∈ gc.gcList := List.mem_of_getElem? hblk
      split
      · refine ⟨fun p hp => ?_, fun p hp => ?_⟩
        · rcases hp with hp | hp
          · left
            rcases List.mem_or_eq_of_mem_set (List.mem_of_mem_dropLast hp) with hp | rfl
            · exact hp
            · -- the last entry, or `blk` itself
              rw [List.getLastD_eq_getLast?]
              rcases hlast : gc.gcList.getLast? with _ | x
              · exact hmem
              · exact List.mem_of_getLast? hlast
          · exact Or.inr hp
        · by_cases hpb : p = blk
          · exact Or.inr (Or.inl (hpb ▸ hmem))
          · rw [Heap.get_modify_of_ne _ _ hpb] at hp
            exact Or.inl hp
      · exact ⟨fun _ hp => hp, fun _ hp => Or.inl hp⟩
  unfold collect
  split
  · exact hround _ _
  · split
    · exact ⟨fun _ hp => hp, fun _ hp => Or.inl hp⟩
    · refine ⟨fun p hp => ?_, fun _ hp => Or.inl hp⟩
      rcases hp with hp | hp
      · exact List.mem_append.mp hp
      · cases hp

theorem BoundedBy.mono {gc : BlockGarbageCollector} {bound bound' : ℕ} (h : gc.BoundedBy bound)
    (hle : bound ≤ bound') : gc.BoundedBy bound' :=
  ⟨fun x hx => (h.pending x hx).trans hle, fun x i hx => (h.running x i hx).trans hle⟩

theorem boundedBy_init : init.BoundedBy 0 :=
  ⟨fun _ h => absurd h (by simp [init]), fun _ _ h => absurd h (by simp [init])⟩

end BlockGarbageCollector

/-! ## `BlockStore` -/

structure BlockStore where
  blockCache : Hash → Option BlockPtr
  gcCollector : BlockGarbageCollector

namespace BlockStore

/-- The store holds the genesis block under its hash. -/
def init : BlockStore where
  blockCache := fun h => if h = 0#256 then some genesisPtr else none
  gcCollector := .init

structure MissingDependencies where
  parentHash : Option Hash
  justifyHash : Option Hash
  deriving DecidableEq, Repr

/-- `operator bool`: true if the insertion failed. -/
def MissingDependencies.any (m : MissingDependencies) : Bool :=
  m.parentHash.isSome || m.justifyHash.isSome

/-- `block_cache.emplace`, which keeps an entry that is there. -/
def emplace (st : BlockStore) (hash : Hash) (p : BlockPtr) : BlockStore :=
  { st with blockCache := fun h =>
      if h = hash then some ((st.blockCache hash).getD p) else st.blockCache h }

def addBlock (st : BlockStore) (p : BlockPtr) : BlockStore :=
  { st with gcCollector := st.gcCollector.addBlock p }

/-- `insert_block`: link the object to the stored blocks its header names and store it, unless one of
the two is missing. -/
def insertBlock (st : BlockStore) (heap : Heap) (p : BlockPtr) :
    BlockStore × Heap × MissingDependencies :=
  let parentHash := (heap.get p).getParentHash
  let justifyHash := (heap.get p).getJustifyHash
  match st.blockCache parentHash, st.blockCache justifyHash with
  | some parent, some justify =>
    ((st.emplace (heap.get p).getHash p).addBlock p,
      (heap.setParent p parent).setJustify p justify, ⟨none, none⟩)
  | parent, justify =>
    (st, heap, ⟨if parent.isNone then some parentHash else none,
      if justify.isNone then some justifyHash else none⟩)

def getBlock (st : BlockStore) (h : Hash) : Option BlockPtr := st.blockCache h

def pruneBelowHeight (st : BlockStore) (pruneHeight : ℕ) : BlockStore :=
  { st with gcCollector := st.gcCollector.invokeGc pruneHeight }

@[simp] theorem blockCache_addBlock (st : BlockStore) (p : BlockPtr) :
    (st.addBlock p).blockCache = st.blockCache := rfl

@[simp] theorem blockCache_pruneBelowHeight (st : BlockStore) (n : ℕ) :
    (st.pruneBelowHeight n).blockCache = st.blockCache := rfl

/-- Entries stay: `emplace` only adds. -/
theorem blockCache_emplace_of_some {st : BlockStore} {hash h : Hash} {p q : BlockPtr}
    (hq : st.blockCache h = some q) : (st.emplace hash p).blockCache h = some q := by
  unfold emplace
  by_cases hh : h = hash
  · subst hh
    simp [hq]
  · simp [hh, hq]

/-- A new entry is the one that was emplaced. -/
theorem blockCache_emplace_cases {st : BlockStore} {hash h : Hash} {p q : BlockPtr}
    (hq : (st.emplace hash p).blockCache h = some q) :
    st.blockCache h = some q ∨ (h = hash ∧ q = p ∧ st.blockCache h = none) := by
  unfold emplace at hq
  by_cases hh : h = hash
  · subst hh
    simp only [if_true] at hq
    rcases hc : st.blockCache h with _ | r
    · rw [hc] at hq
      exact Or.inr ⟨rfl, (Option.some.inj hq).symm, rfl⟩
    · rw [hc] at hq
      exact Or.inl hq
  · simp only [hh, if_false] at hq
    exact Or.inl hq

end BlockStore

end Fred.Hotstuff
