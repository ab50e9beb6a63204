/-
# Fred.Hotstuff.Status -- what changes while an event is handled

Handling an event saves blocks, decides blocks and lets the collector flush blocks. None of this moves
a block in the tree. `Heap.Aged` is what all of it keeps of the heap, `Replica.Keeps` what it keeps of
the replica. `Collected` says what the collector does at a pause, `WriteSpec` what `write_to_disk`
does: it saves and flags exactly the unflagged part of the branch, provided that flags are set
downwards along parents, which is how it leaves them.
-/
import Fred.Hotstuff.Insert

namespace Fred.Hotstuff

open Fred.Forest

variable {V : Type}

/-! ## Heaps in the course of an event -/

namespace Heap

/-- Statuses may have changed: blocks below a height may have been flushed, and blocks that are not
flushed have their body. -/
structure Aged (bound : ℕ) (h h' : Heap) : Prop where
  cores : SameCores h h'
  selfQc_eq : ∀ p, (h'.get p).selfQc = (h.get p).selfQc
  flushed_of : ∀ p, (h'.get p).flushedFromMemory = true →
    (h.get p).flushedFromMemory = true ∨ h.height p < bound
  unflushed_of : ∀ p, (h'.get p).flushedFromMemory = false →
    (h.get p).flushedFromMemory = false ∧ (h'.get p).wireBlock = (h.get p).wireBlock

namespace Aged

variable {bound : ℕ} {h h' h'' : Heap}

theorem refl (h : Heap) : Aged bound h h :=
  ⟨SameCores.refl h, fun _ => rfl, fun _ hp => Or.inl hp, fun _ hp => ⟨hp, rfl⟩⟩

theorem trans (A : Aged bound h h') (A' : Aged bound h' h'') : Aged bound h h'' where
  cores := A.cores.trans A'.cores
  selfQc_eq := fun p => (A'.selfQc_eq p).trans (A.selfQc_eq p)
  flushed_of := by
    intro p hp
    rcases A'.flushed_of p hp with hp' | hp'
    · exact A.flushed_of p hp'
    · rw [A.cores.height_eq] at hp'
      exact Or.inr hp'
  unflushed_of := by
    intro p hp
    obtain ⟨hp', hw'⟩ := A'.unflushed_of p hp
    obtain ⟨hp'', hw⟩ := A.unflushed_of p hp'
    exact ⟨hp'', hw'.trans hw⟩

theorem modify (h : Heap) (p : BlockPtr) (f : HotstuffBlock → HotstuffBlock)
    (hcore : ∀ b, (f b).core = b.core) (hqc : ∀ b, (f b).selfQc = b.selfQc)
    (hfl : ∀ b, (f b).flushedFromMemory = b.flushedFromMemory)
    (hw : ∀ b, (f b).wireBlock = b.wireBlock) : Aged bound h (h.modify p f) := by
  have hget : ∀ q, (h.modify p f).get q = f (h.get q) ∨ (h.modify p f).get q = h.get q := by
    intro q
    by_cases hq : q = p
    · subst hq
      exact Or.inl (get_modify_self h q f)
    · exact Or.inr (get_modify_of_ne h f hq)
  refine ⟨sameCores_modify (hcore _), fun q => ?_, fun q hq => Or.inl ?_, fun q hq => ?_⟩
  · rcases hget q with e | e <;> simp [e, hqc]
  · rcases hget q with e | e <;> simpa [e, hfl] using hq
  · rcases hget q with e | e
    · rw [e, hfl] at hq
      rw [e]
      exact ⟨hq, hw _⟩
    · rw [e] at hq ⊢
      exact ⟨hq, rfl⟩

end Aged

theorem FlushedBelow.aged {bound : ℕ} {h h' : Heap} (H : FlushedBelow bound h h') :
    Aged bound h h' where
  cores := H.sameCores
  selfQc_eq := H.selfQc_eq
  flushed_of := by
    intro p hp
    rcases H.2 p with e | ⟨-, hlt⟩
    · rw [e] at hp
      exact Or.inl hp
    · exact Or.inr hlt
  unflushed_of := by
    intro p hp
    have e := H.get_eq_of_unflushed hp
    rw [e] at hp ⊢
    exact ⟨hp, rfl⟩

end Heap

/-! ## Replicas in the course of an event -/

namespace Replica

/-- Everything but the heap, the files, the collector, its schedule, the trace and the machine. -/
structure Keeps (s s' : Replica V) : Prop where
  hqc_eq : s'.hqc = s.hqc
  bLock_eq : s'.bLock = s.bLock
  bExec_eq : s'.bExec = s.bExec
  vheight_eq : s'.vheight = s.vheight
  bLeaf_eq : s'.bLeaf = s.bLeaf
  index_eq : s'.decidedHashIndex = s.decidedHashIndex
  cache_eq : s'.blockStore.blockCache = s.blockStore.blockCache
  eventQueue_eq : s'.eventQueue = s.eventQueue
  netEvents_eq : s'.netEvents = s.netEvents
  latestNewQc_eq : s'.latestNewQc = s.latestNewQc

theorem Keeps.refl (s : Replica V) : Keeps s s := ⟨rfl, rfl, rfl, rfl, rfl, rfl, rfl, rfl, rfl, rfl⟩

theorem Keeps.trans {s s' s'' : Replica V} (K : Keeps s s') (K' : Keeps s' s'') : Keeps s s'' where
  hqc_eq := K'.hqc_eq.trans K.hqc_eq
  bLock_eq := K'.bLock_eq.trans K.bLock_eq
  bExec_eq := K'.bExec_eq.trans K.bExec_eq
  vheight_eq := K'.vheight_eq.trans K.vheight_eq
  bLeaf_eq := K'.bLeaf_eq.trans K.bLeaf_eq
  index_eq := K'.index_eq.trans K.index_eq
  cache_eq := K'.cache_eq.trans K.cache_eq
  eventQueue_eq := K'.eventQueue_eq.trans K.eventQueue_eq
  netEvents_eq := K'.netEvents_eq.trans K.netEvents_eq
  latestNewQc_eq := K'.latestNewQc_eq.trans K.latestNewQc_eq

/-- What the collector does at a pause. -/
structure Collected (bound : ℕ) (s s' : Replica V) : Prop where
  keeps : Keeps s s'
  files_eq : s'.files = s.files
  trace_eq : s'.trace = s.trace
  vm_eq : s'.vm = s.vm
  bounded : s'.blockStore.gcCollector.BoundedBy bound
  flushed : Heap.FlushedBelow bound s.heap s'.heap

theorem Collected.trans {bound : ℕ} {s s' s'' : Replica V} (c : Collected bound s s')
    (c' : Collected bound s' s'') : Collected bound s s'' where
  keeps := c.keeps.trans c'.keeps
  files_eq := c'.files_eq.trans c.files_eq
  trace_eq := c'.trace_eq.trans c.trace_eq
  vm_eq := c'.vm_eq.trans c.vm_eq
  bounded := c'.bounded
  flushed := c.flushed.trans c'.flushed

theorem collect_spec {bound : ℕ} {s : Replica V} (hgc : s.blockStore.gcCollector.BoundedBy bound) :
    Collected bound s s.collect := by
  have hspec : (s.blockStore.gcCollector.collect s.heap).1.BoundedBy bound ∧
      Heap.FlushedBelow bound s.heap (s.blockStore.gcCollector.collect s.heap).2 :=
    BlockGarbageCollector.collect_spec hgc
  obtain ⟨hb, hf⟩ := hspec
  exact ⟨⟨rfl, rfl, rfl, rfl, rfl, rfl, rfl, rfl, rfl, rfl⟩, rfl, rfl, rfl, hb, hf⟩

theorem collectN_spec {bound : ℕ} :
    ∀ {n : ℕ} {s : Replica V}, s.blockStore.gcCollector.BoundedBy bound →
      Collected bound s (collectN n s)
  | 0, s, hgc => ⟨Keeps.refl s, rfl, rfl, rfl, hgc, Heap.FlushedBelow.refl _⟩
  | n + 1, s, hgc => by
      have h1 := collect_spec hgc
      exact h1.trans (collectN_spec h1.bounded)

theorem pause_spec {bound : ℕ} {s : Replica V} (hgc : s.blockStore.gcCollector.BoundedBy bound) :
    Collected bound s s.pause := by
  unfold pause
  rcases hs : s.schedule with _ | ⟨n, rest⟩
  · exact ⟨Keeps.refl s, rfl, rfl, rfl, hgc, Heap.FlushedBelow.refl _⟩
  · have h0 : Collected bound s { s with schedule := rest } :=
      ⟨⟨rfl, rfl, rfl, rfl, rfl, rfl, rfl, rfl, rfl, rfl⟩, rfl, rfl, rfl, hgc,
        Heap.FlushedBelow.refl _⟩
    exact h0.trans (collectN_spec h0.bounded)

/-! ## `write_to_disk` -/

/-- The flag and the file of one block: one round of `write_to_disk`. -/
structure SaveSpec (bound : ℕ) (a : BlockPtr) (s s' : Replica V) : Prop where
  keeps : Keeps s s'
  aged : Heap.Aged bound s.heap s'.heap
  bounded : s'.blockStore.gcCollector.BoundedBy bound
  vm_eq : s'.vm = s.vm
  decided_eq : ∀ p, (s'.heap.get p).decided = (s.heap.get p).decided
  written_iff : ∀ p, (s'.heap.get p).writtenToDisk = true ↔
    (s.heap.get p).writtenToDisk = true ∨ p = a
  trace_eq : s'.trace = s.trace ++ [.saved (s.heap.hash a) (s'.heap.get a).wireBlock]
  files_eq : s'.files = fun h =>
    if h = s.heap.hash a then some (s'.heap.get a).wireBlock else s.files h

theorem heap_setWritten (a : BlockPtr) (s : Replica V) :
    (setWritten a s).heap = s.heap.modify a fun b => { b with writtenToDisk := true } := rfl

theorem saveBlock_spec (E : Setup V) {bound : ℕ} {a : BlockPtr} {s : Replica V}
    (S : Shape E.crypto s.heap s.blockStore.blockCache) (ha : s.heap.Settled a)
    (hne : a ≠ genesisPtr) (hgc : s.blockStore.gcCollector.BoundedBy bound) :
    SaveSpec bound a s (saveBlock E a (setWritten a s).pause) := by
  have hset : Heap.Aged bound s.heap (setWritten a s).heap :=
    Heap.Aged.modify s.heap a (fun b => { b with writtenToDisk := true }) (fun _ => rfl)
      (fun _ => rfl) (fun _ => rfl) (fun _ => rfl)
  have hc : Collected bound (setWritten a s) (setWritten a s).pause := pause_spec hgc
  have haged : Heap.Aged bound s.heap (setWritten a s).pause.heap := hset.trans hc.flushed.aged
  have hname : E.crypto.hashHeader ((setWritten a s).pause.heap.get a).wireBlock.header =
      s.heap.hash a := by
    have hheader : ((setWritten a s).pause.heap.get a).wireBlock.header = s.heap.header a :=
      congrArg BlockCore.header (haged.cores.core_eq a)
    rw [hheader, S.hash_eq a hne (S.lt_next_of_settled ha)]
  refine
    { keeps := ⟨hc.keeps.hqc_eq, hc.keeps.bLock_eq, hc.keeps.bExec_eq, hc.keeps.vheight_eq,
        hc.keeps.bLeaf_eq, hc.keeps.index_eq, hc.keeps.cache_eq, hc.keeps.eventQueue_eq,
        hc.keeps.netEvents_eq, hc.keeps.latestNewQc_eq⟩
      aged := haged
      bounded := hc.bounded
      vm_eq := hc.vm_eq
      decided_eq := ?_, written_iff := ?_, trace_eq := ?_, files_eq := ?_ }
  · intro p
    show ((setWritten a s).pause.heap.get p).decided = _
    rw [hc.flushed.decided_eq, heap_setWritten]
    by_cases hp : p = a
    · subst hp
      rw [Heap.get_modify_self]
    · rw [Heap.get_modify_of_ne _ _ hp]
  · intro p
    show ((setWritten a s).pause.heap.get p).writtenToDisk = true ↔ _
    rw [hc.flushed.writtenToDisk_eq, heap_setWritten]
    by_cases hp : p = a
    · subst hp
      rw [Heap.get_modify_self]
      simp
    · rw [Heap.get_modify_of_ne _ _ hp]
      simp [hp]
  · show (setWritten a s).pause.trace ++ [_] = s.trace ++ [_]
    rw [hc.trace_eq, hname]
    rfl
  · show (fun h => if h = _ then _ else (setWritten a s).pause.files h) = _
    rw [hc.files_eq, hname]
    rfl

/-- What `write_to_disk` does from block `a`: it flags and saves the blocks of the branch that were
not flagged, each with the header it has and, unless the block gets flushed, with its body. -/
structure WriteSpec (bound : ℕ) (a : BlockPtr) (s s' : Replica V) : Prop where
  keeps : Keeps s s'
  aged : Heap.Aged bound s.heap s'.heap
  bounded : s'.blockStore.gcCollector.BoundedBy bound
  vm_eq : s'.vm = s.vm
  decided_eq : ∀ p, (s'.heap.get p).decided = (s.heap.get p).decided
  written_iff : ∀ p, (s'.heap.get p).writtenToDisk = true ↔
    (s.heap.get p).writtenToDisk = true ∨ Descends s.heap.parent a p
  trace_eq : ∃ effs, s'.trace = s.trace ++ effs ∧
    (∀ e ∈ effs, ∃ p w, e = .saved (s.heap.hash p) w ∧ Descends s.heap.parent a p ∧
      (s.heap.get p).writtenToDisk = false) ∧
    ∀ p, (s.heap.get p).writtenToDisk = false → Descends s.heap.parent a p →
      ∃ w, Effect.saved (s.heap.hash p) w ∈ effs ∧ s'.files (s.heap.hash p) = some w ∧
        w.header = s.heap.header p ∧
        ((s'.heap.get p).flushedFromMemory = false → w = (s'.heap.get p).wireBlock)
  files_old : ∀ x, (∀ p, (s.heap.get p).writtenToDisk = false → Descends s.heap.parent a p →
    s.heap.hash p ≠ x) → s'.files x = s.files x

/-- A branch whose first block is flagged is flagged throughout. -/
theorem written_of_descends {s : Replica V} {a : BlockPtr}
    (hforest : IsForest s.heap.parent s.heap.height)
    (hclosed : ∀ p q, s.heap.height p ≤ s.heap.height a → s.heap.parent p = some q →
      (s.heap.get p).writtenToDisk = true → (s.heap.get q).writtenToDisk = true)
    (ha : (s.heap.get a).writtenToDisk = true) {p : BlockPtr}
    (hd : Descends s.heap.parent a p) : (s.heap.get p).writtenToDisk = true := by
  induction hd with
  | refl => exact ha
  | tail hpre hstep ih => exact hclosed _ _ (hforest.height_le hpre) hstep ih

theorem WriteSpec.of_written {bound : ℕ} {s : Replica V} {a : BlockPtr}
    (hgc : s.blockStore.gcCollector.BoundedBy bound)
    (hall : ∀ p, Descends s.heap.parent a p → (s.heap.get p).writtenToDisk = true) :
    WriteSpec bound a s s where
  keeps := Keeps.refl s
  aged := Heap.Aged.refl _
  bounded := hgc
  vm_eq := rfl
  decided_eq := fun _ => rfl
  written_iff := fun p => ⟨Or.inl, fun hp => hp.elim id (hall p)⟩
  trace_eq := by
    refine ⟨[], by simp, by simp, fun p hp hd => ?_⟩
    rw [hall p hd] at hp
    cases hp
  files_old := fun _ _ => rfl

/-- One round, then the rest of the branch. -/
theorem WriteSpec.of_save {E : Setup V} {bound : ℕ} {s s₁ s' : Replica V} {a q : BlockPtr}
    (S : Shape E.crypto s.heap s.blockStore.blockCache)
    (hstored : s.blockStore.blockCache (s.heap.hash a) = some a)
    (ha : (s.heap.get a).writtenToDisk = false) (hq : s.heap.parent a = some q)
    (one : SaveSpec bound a s s₁) (rest : WriteSpec bound q s₁ s') : WriteSpec bound a s s' := by
  have hparent := one.aged.cores.parent_eq
  have hhash := one.aged.cores.hash_eq
  have hheight : s.heap.height a = s.heap.height q + 1 := S.height_parent hq
  have hbelow : ∀ {p}, Descends s.heap.parent q p → p ≠ a := by
    rintro p hd rfl
    have := S.forest.height_le hd
    omega
  -- a block below `a` has another file than `a`: both are stored
  have hfile : ∀ {p}, Descends s.heap.parent q p → s.heap.hash p ≠ s.heap.hash a := by
    intro p hd heq
    have hp := S.stored_descends hstored (Descends.head hq hd)
    exact hbelow hd (Shape.eq_of_stored hp hstored heq)
  have hnew : ∀ {p}, Descends s.heap.parent q p →
      ((s₁.heap.get p).writtenToDisk = false ↔ (s.heap.get p).writtenToDisk = false) := by
    intro p hd
    have hiff := one.written_iff p
    simp only [hbelow hd, or_false] at hiff
    rw [← Bool.not_eq_true, hiff, Bool.not_eq_true]
  obtain ⟨effs, htrace, hsaved, heffs⟩ := rest.trace_eq
  have hwire : (s'.heap.get a).flushedFromMemory = false →
      (s'.heap.get a).wireBlock = (s₁.heap.get a).wireBlock :=
    fun hf => (rest.aged.unflushed_of a hf).2
  refine
    { keeps := one.keeps.trans rest.keeps
      aged := one.aged.trans rest.aged
      bounded := rest.bounded
      vm_eq := rest.vm_eq.trans one.vm_eq
      decided_eq := fun p => (rest.decided_eq p).trans (one.decided_eq p)
      written_iff := ?_, trace_eq := ?_, files_old := ?_ }
  · intro p
    rw [rest.written_iff, one.written_iff, hparent, descends_iff_of_parent hq, or_assoc,
      eq_comm (a := a)]
  · refine ⟨.saved (s.heap.hash a) (s₁.heap.get a).wireBlock :: effs, ?_, ?_, ?_⟩
    · rw [htrace, one.trace_eq, List.append_assoc]
      rfl
    · intro e he
      rcases List.mem_cons.mp he with rfl | he
      · exact ⟨a, _, rfl, Descends.refl a, ha⟩
      · obtain ⟨p, w, rfl, hd, hp⟩ := hsaved e he
        rw [hhash]
        rw [hparent] at hd
        exact ⟨p, w, rfl, Descends.head hq hd, (hnew hd).mp hp⟩
    · intro p hp hd
      rcases (descends_iff_of_parent hq).mp hd with rfl | hd
      · refine ⟨(s₁.heap.get a).wireBlock, List.mem_cons_self, ?_, ?_, fun hf => (hwire hf).symm⟩
        · rw [rest.files_old, one.files_eq]
          · simp
          · intro p _ hpd
            rw [hparent] at hpd
            rw [hhash]
            exact hfile hpd
        · exact congrArg BlockCore.header (one.aged.cores.core_eq a)
      · obtain ⟨w, hmem, hw, hheader, hbody⟩ := heffs p ((hnew hd).mpr hp) (hparent ▸ hd)
        rw [hhash] at hmem hw
        rw [one.aged.cores.header_eq] at hheader
        exact ⟨w, List.mem_cons_of_mem _ hmem, hw, hheader, hbody⟩
  · intro x hx
    have hxa : x ≠ s.heap.hash a := (hx a ha (Descends.refl a)).symm
    rw [rest.files_old x, one.files_eq]
    · simp [hxa]
    · intro p hp hd
      rw [hparent] at hd
      rw [hhash]
      exact hx p ((hnew hd).mp hp) (Descends.head hq hd)

/-- **`write_to_disk` saves what is missing of the branch.** The hypotheses are what the replica keeps
between events: the block is stored, genesis is flagged, and the parent of a flagged block on the
branch is flagged. -/
theorem writeToDisk_spec (E : Setup V) {bound : ℕ} :
    ∀ {n : ℕ} {a : BlockPtr} {s : Replica V}, Shape E.crypto s.heap s.blockStore.blockCache →
      s.blockStore.gcCollector.BoundedBy bound →
      s.blockStore.blockCache (s.heap.hash a) = some a →
      (s.heap.get genesisPtr).writtenToDisk = true →
      (∀ p q, s.heap.height p ≤ s.heap.height a → s.heap.parent p = some q →
        (s.heap.get p).writtenToDisk = true → (s.heap.get q).writtenToDisk = true) →
      s.heap.height a < n → WriteSpec bound a s (writeToDisk E n a s)
  | 0, a, s, _, _, _, _, _, hn => absurd hn (Nat.not_lt_zero _)
  | n + 1, a, s, S, hgc, hstored, hgen, hclosed, hn => by
      unfold writeToDisk
      rcases hw : (s.heap.get a).writtenToDisk with _ | _
      · have hne : a ≠ genesisPtr := by
          rintro rfl
          rw [hgen] at hw
          cases hw
        have hset := S.settled_of_stored hstored
        obtain ⟨q, hq⟩ := hset.resolve_left hne
        have one := saveBlock_spec E S hset hne hgc
        have hparent := one.aged.cores.parent_eq
        have hheight := one.aged.cores.height_eq
        have hlt := S.height_parent hq
        simp only [Bool.false_eq_true, if_false, congrFun hparent a, hq]
        refine WriteSpec.of_save S hstored hw hq one ?_
        apply writeToDisk_spec E
        · rw [one.keeps.cache_eq]
          exact S.congr one.aged.cores
        · exact one.bounded
        · rw [one.keeps.cache_eq, one.aged.cores.hash_eq]
          exact S.stored_parent hq
        · exact (one.written_iff _).mpr (Or.inl hgen)
        · intro x y hx hxy hwx
          rw [hheight] at hx
          rw [hparent] at hxy
          have hxa : x ≠ a := by
            rintro rfl
            omega
          have hold : (s.heap.get x).writtenToDisk = true :=
            ((one.written_iff x).mp hwx).resolve_right hxa
          exact (one.written_iff y).mpr (Or.inl (hclosed x y (by omega) hxy hold))
        · rw [hheight]
          omega
      · simp only [if_true]
        exact WriteSpec.of_written hgc fun p hd => written_of_descends S.forest hclosed hw hd

end Replica

end Fred.Hotstuff
