/-
# Fred.Hotstuff.Collector -- what the garbage collector collects

The collector of `block_storage/garbage_collector.cc` on its own, in any order of `add_block`,
`invoke_gc` and steps of its thread. A step is the take-over of the buffered blocks or one round of the
loop in `do_gc`, so calls fall between two rounds of a loop as well.

A block may be added more than once, and an entry that is taken over late is not due to a round before
it. So entries are told apart: each has a number and knows the round that took it over (`GcEntry`). What
the run writes down (`taken`, `held`, `visited`) follows the steps of the code position by position;
`Counted.list_eq` says that it is the same list.

The loop itself is an instance of `Fred.Lib.SwapRemove`, and so is the one of
`ReplicaFetchQueue::do_gc`.
-/
import Fred.Hotstuff.BlockStore
import Fred.Hotstuff.FetchQueues
import Fred.Lib.Transition

namespace Fred.Hotstuff

open Fred.SwapRemove Fred.Transition

/-- An entry of `gc_list`. -/
structure GcEntry where
  /-- How many entries were taken over before it. -/
  number : ℕ
  /-- How many rounds began before the one that took it over. -/
  round : ℕ
  blk : BlockPtr
  deriving DecidableEq, Repr

/-- The collector and the blocks, with what has happened so far. -/
structure GcRun where
  collector : BlockGarbageCollector
  heap : Heap
  /-- The blocks added, in order. -/
  added : List BlockPtr
  /-- The heights used by the rounds that have begun, in order. -/
  heights : List ℕ
  /-- The entries taken over, in order. -/
  taken : List GcEntry
  /-- The entries in `gc_list`, position by position. -/
  held : List GcEntry
  /-- The entries in `gc_list` when the last round began. -/
  begun : List GcEntry
  /-- The entries that the loop of the last round has come to. -/
  visited : List GcEntry

inductive GcAct where
  | addBlock (blk : BlockPtr)
  | invokeGc (hotstuffHeight : ℕ)
  /-- The collector thread does the next thing. -/
  | collect
  deriving DecidableEq, Repr

namespace GcRun

/-! ## Runs -/

/-- The collector is constructed. -/
def start (heap : Heap) : GcRun := ⟨.init, heap, [], [], [], [], [], []⟩

/-- The entries that a take-over adds. -/
def entered (s : GcRun) : List GcEntry :=
  (s.collector.gcListBuffer.zipIdx s.taken.length).map fun (blk, number) =>
    ⟨number, s.heights.length, blk⟩

/-- What is written down when the collector thread does the next thing. -/
def record (s : GcRun) : GcRun :=
  match s.collector.job with
  | none =>
    match s.collector.hotstuffHeightToGc with
    | none => s
    | some h =>
      { s with
        heights := s.heights ++ [h]
        taken := s.taken ++ s.entered
        held := s.held ++ s.entered
        begun := s.held ++ s.entered
        visited := [] }
  | some (h, i) =>
    match s.held[i]? with
    | none => s
    | some e =>
      { s with
        visited := s.visited ++ [e]
        held := if s.heap.height e.blk < h then swapRemove s.held i e else s.held }

def step : GcAct → GcRun → Except Exn GcRun
  | .addBlock blk, s =>
    .ok { s with collector := s.collector.addBlock blk, added := s.added ++ [blk] }
  | .invokeGc h, s => .ok { s with collector := s.collector.invokeGc h }
  | .collect, s =>
    .ok { s.record with
      collector := (s.collector.collect s.heap).1
      heap := (s.collector.collect s.heap).2 }

/-- The block is below the height used by the round that took the entry over or by a later one. -/
def DueTo (height : BlockPtr → ℕ) (heights : List ℕ) (e : GcEntry) : Prop :=
  ∃ h ∈ heights.drop e.round, height e.blk < h

instance (height : BlockPtr → ℕ) (heights : List ℕ) (e : GcEntry) :
    Decidable (DueTo height heights e) :=
  inferInstanceAs (Decidable (∃ h ∈ heights.drop e.round, height e.blk < h))

/-- Of the rounds that have begun so far. -/
abbrev Due (s : GcRun) (e : GcEntry) : Prop := DueTo s.heap.height s.heights e

/-- **Between two rounds, exactly the entries that are due are gone and flushed.** The first heap is the
one the run began with. -/
structure Exact (heap₀ : Heap) (s : GcRun) : Prop where
  gone_iff : ∀ e ∈ s.taken,
    e ∉ s.held ∧ (s.heap.get e.blk).flushedFromMemory = true ↔ s.Due e
  others : s.held.Perm (s.taken.filter fun e => ¬ s.Due e)
  flushed_iff : ∀ p, (s.heap.get p).flushedFromMemory = true ↔
    (heap₀.get p).flushedFromMemory = true ∨ ∃ e ∈ s.taken, s.Due e ∧ e.blk = p
  visited : s.visited.Perm s.begun

variable {heap₀ : Heap} {s s' : GcRun} {hs : List ℕ} {h i : ℕ} {e : GcEntry}

/-! ## What is due -/

theorem dueTo_concat {height : BlockPtr → ℕ} (hround : e.round ≤ hs.length) :
    DueTo height (hs ++ [h]) e ↔ DueTo height hs e ∨ height e.blk < h := by
  unfold DueTo
  rw [List.drop_append_of_le_length hround]
  simp [or_and_right, exists_or]

/-- Nothing is due to rounds before the take-over. -/
theorem not_dueTo {height : BlockPtr → ℕ} (hround : hs.length ≤ e.round) : ¬ DueTo height hs e := by
  rintro ⟨h, hh, -⟩
  rw [List.drop_eq_nil_of_le hround] at hh
  cases hh

theorem flushed_modify (heap : Heap) (p q : BlockPtr) :
    ((heap.modify p HotstuffBlock.flushFromMemory).get q).flushedFromMemory = true ↔
      (heap.get q).flushedFromMemory = true ∨ p = q := by
  by_cases hq : q = p
  · subst hq
    rw [Heap.get_modify_self]
    unfold HotstuffBlock.flushFromMemory
    split <;> simp_all
  · rw [Heap.get_modify_of_ne _ _ hq]
    simp [Ne.symm hq]

/-! ## What a step of the thread can do -/

/-- The next thing the collector thread does, with what is written down. -/
inductive Collects (s : GcRun) : GcRun → Prop
  | waits (hjob : s.collector.job = none) (hpending : s.collector.hotstuffHeightToGc = none) :
      Collects s s
  | takesOver {h : ℕ} (hjob : s.collector.job = none)
      (hpending : s.collector.hotstuffHeightToGc = some h) :
      Collects s { s with
        collector := ⟨none, s.collector.gcList ++ s.collector.gcListBuffer, [], some (h, 0)⟩
        heights := s.heights ++ [h]
        taken := s.taken ++ s.entered
        held := s.held ++ s.entered
        begun := s.held ++ s.entered
        visited := [] }
  | ends {h i : ℕ} (hjob : s.collector.job = some (h, i)) (hend : s.held[i]? = none) :
      Collects s { s with collector := { s.collector with job := none } }
  | flushes {h i : ℕ} {e : GcEntry} (hjob : s.collector.job = some (h, i))
      (he : s.held[i]? = some e) (hlt : s.heap.height e.blk < h) :
      Collects s { s with
        collector := { s.collector with gcList := swapRemove s.collector.gcList i e.blk }
        heap := s.heap.modify e.blk HotstuffBlock.flushFromMemory
        visited := s.visited ++ [e]
        held := swapRemove s.held i e }
  | passes {h i : ℕ} {e : GcEntry} (hjob : s.collector.job = some (h, i))
      (he : s.held[i]? = some e) (hge : ¬ s.heap.height e.blk < h) :
      Collects s { s with
        collector := { s.collector with job := some (h, i + 1) }
        visited := s.visited ++ [e] }

theorem collects_of_step (hlist : s.collector.gcList = s.held.map GcEntry.blk)
    (hstep : step .collect s = .ok s') : Collects s s' := by
  obtain rfl := Except.ok.inj hstep
  rcases hjob : s.collector.job with _ | ⟨h, i⟩
  · rcases hpending : s.collector.hotstuffHeightToGc with _ | h
    · have hwaits := Collects.waits hjob hpending
      simpa [record, BlockGarbageCollector.collect, hjob, hpending] using hwaits
    · have htakes := Collects.takesOver hjob hpending
      simpa [record, BlockGarbageCollector.collect, hjob, hpending] using htakes
  · -- the round looks at `gc_list[i]`, what is written down at the entry in the same position
    have hget : s.collector.gcList[i]? = s.held[i]?.map GcEntry.blk := by
      rw [hlist, List.getElem?_map]
    unfold record BlockGarbageCollector.collect
    rw [hjob]
    dsimp only
    unfold BlockGarbageCollector.doGcRound
    rw [hget]
    rcases he : s.held[i]? with _ | e
    · exact Collects.ends hjob he
    · dsimp only [Option.map_some]
      by_cases hlt : s.heap.height e.blk < h
      · rw [if_pos hlt, if_pos hlt]
        exact Collects.flushes hjob he hlt
      · rw [if_neg hlt, if_neg hlt]
        exact Collects.passes hjob he hlt

/-! ## The invariant -/

/-- What is written down is what the collector has: its list, the blocks added, and each entry in the
round that took it over. The blocks are as they were, but for their bodies. -/
structure Counted (heap₀ : Heap) (s : GcRun) : Prop where
  list_eq : s.collector.gcList = s.held.map GcEntry.blk
  added_eq : s.taken.map GcEntry.blk ++ s.collector.gcListBuffer = s.added
  numbers : s.taken.map GcEntry.number = List.range s.taken.length
  round_lt : ∀ e ∈ s.taken, e.round < s.heights.length
  cores : Heap.SameCores heap₀ s.heap

/-- What is flushed when the entries due to `hs` and the entries `more` have been. -/
def FlushedBy (heap₀ : Heap) (s : GcRun) (hs : List ℕ) (more : List GcEntry) : Prop :=
  ∀ p, (s.heap.get p).flushedFromMemory = true ↔ (heap₀.get p).flushedFromMemory = true ∨
    (∃ e ∈ s.taken, DueTo heap₀.height hs e ∧ e.blk = p) ∨ ∃ e ∈ more, e.blk = p

/-- No loop is running. -/
structure Rested (heap₀ : Heap) (s : GcRun) : Prop where
  others : s.held.Perm (s.taken.filter fun e => ¬ DueTo heap₀.height s.heights e)
  flushed : FlushedBy heap₀ s s.heights []
  visited : s.visited.Perm s.begun

/-- The loop at height `h` stands at position `i`; the rounds before it used the heights `hs`. -/
structure Looping (heap₀ : Heap) (s : GcRun) (hs : List ℕ) (h i : ℕ) : Prop where
  heights_eq : s.heights = hs ++ [h]
  begun : s.begun.Perm (s.taken.filter fun e => ¬ DueTo heap₀.height hs e)
  sweeping : Sweeping (fun e => ¬ heap₀.height e.blk < h) s.begun s.visited i s.held
  flushed : FlushedBy heap₀ s hs (s.visited.filter fun e => heap₀.height e.blk < h)

def Working (heap₀ : Heap) (s : GcRun) : Prop :=
  match s.collector.job with
  | none => Rested heap₀ s
  | some (h, i) => ∃ hs, Looping heap₀ s hs h i

theorem Counted.start (heap₀ : Heap) : Counted heap₀ (GcRun.start heap₀) :=
  ⟨rfl, rfl, rfl, nofun, Heap.SameCores.refl _⟩

theorem Rested.start (heap₀ : Heap) : Rested heap₀ (GcRun.start heap₀) := by
  refine ⟨List.Perm.refl _, fun p => ?_, List.Perm.refl _⟩
  simp [GcRun.start]

/-! ## The take-over -/

theorem round_of_entered (he : e ∈ s.entered) : e.round = s.heights.length := by
  obtain ⟨pair, -, rfl⟩ := List.mem_map.mp he
  rfl

theorem map_blk_entered (s : GcRun) : s.entered.map GcEntry.blk = s.collector.gcListBuffer := by
  unfold entered
  rw [List.map_map]
  exact List.zipIdx_map_fst _ _

theorem map_number_entered (s : GcRun) :
    s.entered.map GcEntry.number =
      List.range' s.taken.length s.collector.gcListBuffer.length := by
  unfold entered
  rw [List.map_map]
  exact List.zipIdx_map_snd _ _

theorem length_entered (s : GcRun) : s.entered.length = s.collector.gcListBuffer.length := by
  simp [entered]

/-- None of the new entries is due to an earlier round. -/
theorem filter_entered (height : BlockPtr → ℕ) (s : GcRun) :
    (s.taken ++ s.entered).filter (fun e => ¬ DueTo height s.heights e) =
      (s.taken.filter fun e => ¬ DueTo height s.heights e) ++ s.entered := by
  rw [List.filter_append]
  congr 1
  apply List.filter_eq_self.mpr
  intro e he
  simpa using not_dueTo (round_of_entered he).ge

/-! ## The steps of the thread -/

theorem Counted.collects (C : Counted heap₀ s) (hc : Collects s s') : Counted heap₀ s' := by
  cases hc with
  | waits hjob hpending => exact C
  | takesOver hjob hpending =>
      refine ⟨?_, ?_, ?_, ?_, C.cores⟩
      · rw [List.map_append, map_blk_entered, C.list_eq]
      · rw [List.map_append, map_blk_entered, List.append_nil]
        exact C.added_eq
      · -- the new entries are numbered from where the numbers stopped
        have happend := @List.range'_append_1 0 s.taken.length s.collector.gcListBuffer.length
        rw [Nat.zero_add] at happend
        rw [List.map_append, C.numbers, map_number_entered, List.length_append, length_entered,
          List.range_eq_range', List.range_eq_range', happend]
      · intro e he
        rw [List.length_append, List.length_singleton]
        rcases List.mem_append.mp he with hold | hnew
        · exact Nat.lt_succ_of_lt (C.round_lt e hold)
        · rw [round_of_entered hnew]
          exact Nat.lt_succ_self _
  | ends hjob hend => exact ⟨C.list_eq, C.added_eq, C.numbers, C.round_lt, C.cores⟩
  | flushes hjob he hlt =>
      refine ⟨?_, C.added_eq, C.numbers, C.round_lt, C.cores.trans ?_⟩
      · rw [map_swapRemove, C.list_eq]
      · exact Heap.sameCores_modify (HotstuffBlock.core_flushFromMemory _)
  | passes hjob he hge => exact ⟨C.list_eq, C.added_eq, C.numbers, C.round_lt, C.cores⟩

/-- A loop begins over what is in the list and what was added. -/
theorem Looping.takeOver {collector : BlockGarbageCollector} (R : Rested heap₀ s) (h : ℕ) :
    Looping heap₀ { s with
      collector := collector
      heights := s.heights ++ [h]
      taken := s.taken ++ s.entered
      held := s.held ++ s.entered
      begun := s.held ++ s.entered
      visited := [] } s.heights h 0 := by
  refine ⟨rfl, ?_, Sweeping.start _ _, fun p => ?_⟩
  · rw [filter_entered]
    exact R.others.append_right _
  · -- the new entries are not due to the rounds before
    refine (R.flushed p).trans (or_congr Iff.rfl (or_congr ?_ (by simp)))
    constructor
    · rintro ⟨e, he, hdue⟩
      exact ⟨e, List.mem_append_left _ he, hdue⟩
    · rintro ⟨e, he, hdue, hp⟩
      rcases List.mem_append.mp he with hold | hnew
      · exact ⟨e, hold, hdue, hp⟩
      · exact absurd hdue (not_dueTo (round_of_entered hnew).ge)

/-- A block below the height is flushed, and its entry removed. -/
theorem Looping.flush {collector : BlockGarbageCollector} (L : Looping heap₀ s hs h i)
    (he : s.held[i]? = some e) (hlt : heap₀.height e.blk < h) :
    Looping heap₀ { s with
      collector := collector
      heap := s.heap.modify e.blk HotstuffBlock.flushFromMemory
      visited := s.visited ++ [e]
      held := swapRemove s.held i e } hs h i := by
  refine ⟨L.heights_eq, L.begun, L.sweeping.remove he (by simpa using hlt), fun p => ?_⟩
  rw [List.filter_append, List.filter_cons_of_pos (by simpa using hlt), List.filter_nil]
  -- what is flushed now joins the entries the loop came to before
  refine (flushed_modify s.heap e.blk p).trans ((or_congr (L.flushed p) Iff.rfl).trans ?_)
  rw [or_assoc, or_assoc]
  refine or_congr Iff.rfl (or_congr Iff.rfl ?_)
  simp only [List.mem_append, List.mem_singleton, or_and_right, exists_or, exists_eq_left]

/-- A block that is not below the height stays. -/
theorem Looping.pass {collector : BlockGarbageCollector} (L : Looping heap₀ s hs h i)
    (he : s.held[i]? = some e) (hge : ¬ heap₀.height e.blk < h) :
    Looping heap₀ { s with collector := collector, visited := s.visited ++ [e] } hs h (i + 1) := by
  refine ⟨L.heights_eq, L.begun, L.sweeping.pass he (by simpa using hge), fun p => ?_⟩
  rw [List.filter_append, List.filter_cons_of_neg (by simpa using hge), List.filter_nil,
    List.append_nil]
  exact L.flushed p

/-- **The loop has ended.** -/
theorem Looping.finish (L : Looping heap₀ s hs h i) (C : Counted heap₀ s)
    (hend : s.held[i]? = none) : Rested heap₀ s := by
  obtain ⟨-, hvisited, hheld⟩ := L.sweeping.finish hend
  have hround : ∀ e ∈ s.taken, e.round ≤ hs.length := by
    intro e he
    have hlt := C.round_lt e he
    rw [L.heights_eq, List.length_append, List.length_singleton] at hlt
    omega
  have hdue : ∀ e ∈ s.taken, DueTo heap₀.height s.heights e ↔
      DueTo heap₀.height hs e ∨ heap₀.height e.blk < h := by
    intro e he
    rw [L.heights_eq]
    exact dueTo_concat (hround e he)
  refine ⟨?_, fun p => ?_, hvisited⟩
  · -- what is left was due neither to the rounds before nor to this one
    refine hheld.trans ((L.begun.filter _).trans (List.Perm.of_eq ?_))
    rw [List.filter_filter]
    apply List.filter_congr
    intro e he
    simp only [hdue e he, not_or, Bool.decide_and]
    rw [Bool.and_comm]
  · refine (L.flushed p).trans (or_congr Iff.rfl ?_)
    have hmem : ∀ e, e ∈ s.visited ↔ e ∈ s.taken ∧ ¬ DueTo heap₀.height hs e := by
      intro e
      rw [hvisited.mem_iff, L.begun.mem_iff, List.mem_filter, decide_eq_true_iff]
    constructor
    · rintro (⟨e, he, hearlier, hp⟩ | ⟨e, he, hp⟩)
      · exact Or.inl ⟨e, he, (hdue e he).mpr (Or.inl hearlier), hp⟩
      · obtain ⟨hvis, hlt⟩ := List.mem_filter.mp he
        obtain ⟨htaken, -⟩ := (hmem e).mp hvis
        exact Or.inl ⟨e, htaken, (hdue e htaken).mpr (Or.inr (by simpa using hlt)), hp⟩
    · rintro (⟨e, he, hd, hp⟩ | ⟨e, he, -⟩)
      · by_cases hearlier : DueTo heap₀.height hs e
        · exact Or.inl ⟨e, he, hearlier, hp⟩
        · have hlt := ((hdue e he).mp hd).resolve_left hearlier
          refine Or.inr ⟨e, List.mem_filter.mpr ⟨(hmem e).mpr ⟨he, hearlier⟩, ?_⟩, hp⟩
          simpa using hlt
      · cases he

/-- **Step lemma for the thread.** -/
theorem Working.collects (C : Counted heap₀ s) (W : Working heap₀ s) (hc : Collects s s') :
    Working heap₀ s' := by
  unfold Working at W
  have hheight := C.cores.height_eq
  cases hc with
  | waits hjob hpending =>
      unfold Working
      exact W
  | takesOver hjob hpending =>
      rw [hjob] at W
      exact ⟨s.heights, Looping.takeOver W _⟩
  | ends hjob hend =>
      rw [hjob] at W
      obtain ⟨hs, L⟩ := W
      have R := L.finish C hend
      exact ⟨R.others, R.flushed, R.visited⟩
  | flushes hjob he hlt =>
      rw [hjob] at W
      obtain ⟨hs, L⟩ := W
      unfold Working
      dsimp only
      rw [hjob]
      exact ⟨hs, L.flush he (hheight ▸ hlt)⟩
  | passes hjob he hge =>
      rw [hjob] at W
      obtain ⟨hs, L⟩ := W
      exact ⟨hs, L.pass he (hheight ▸ hge)⟩

/-- Calls leave alone what the thread works on. -/
theorem working_of_job {collector : BlockGarbageCollector} {added : List BlockPtr}
    (W : Working heap₀ s) (hjob : collector.job = s.collector.job) :
    Working heap₀ { s with collector := collector, added := added } := by
  unfold Working at W ⊢
  dsimp only
  rw [hjob]
  rcases hs : s.collector.job with _ | ⟨h, i⟩
  · rw [hs] at W
    exact ⟨W.others, W.flushed, W.visited⟩
  · rw [hs] at W
    obtain ⟨heights, L⟩ := W
    exact ⟨heights, L.heights_eq, L.begun, L.sweeping, L.flushed⟩

theorem Counted.step {a : GcAct} (C : Counted heap₀ s) (hstep : step a s = .ok s') :
    Counted heap₀ s' := by
  cases a with
  | addBlock blk =>
      obtain rfl := Except.ok.inj hstep
      refine ⟨C.list_eq, ?_, C.numbers, C.round_lt, C.cores⟩
      show s.taken.map GcEntry.blk ++ (s.collector.gcListBuffer ++ [blk]) = s.added ++ [blk]
      rw [← List.append_assoc, C.added_eq]
  | invokeGc h =>
      obtain rfl := Except.ok.inj hstep
      exact ⟨C.list_eq, C.added_eq, C.numbers, C.round_lt, C.cores⟩
  | collect => exact C.collects (collects_of_step C.list_eq hstep)

/-- **Step lemma.** -/
theorem Working.step {a : GcAct} (W : Working heap₀ s) (C : Counted heap₀ s)
    (hstep : step a s = .ok s') : Working heap₀ s' := by
  cases a with
  | addBlock blk =>
      obtain rfl := Except.ok.inj hstep
      exact working_of_job W rfl
  | invokeGc h =>
      obtain rfl := Except.ok.inj hstep
      exact working_of_job W rfl
  | collect => exact W.collects C (collects_of_step C.list_eq hstep)

/-- **Run lemma.** -/
theorem working_of_reach {P : GcRun → GcAct → Prop} (h : Reach step P (start heap₀) s) :
    Counted heap₀ s ∧ Working heap₀ s := by
  apply h.invariant (I := fun s => Counted heap₀ s ∧ Working heap₀ s)
    ⟨Counted.start heap₀, Rested.start heap₀⟩
  rintro t u a ⟨C, W⟩ - hstep
  exact ⟨C.step hstep, W.step C hstep⟩

/-! ## The loop ends -/

/-- A round of the loop: one entry fewer is before it, or it ends. -/
theorem rounds_collects (hc : Collects s s') (hjob : s.collector.job = some (h, i)) :
    (s.held.length - i = 0 ∧ s'.collector.job = none) ∨
      ∃ j, s'.collector.job = some (h, j) ∧ s'.held.length - j + 1 = s.held.length - i := by
  cases hc with
  | waits hnone hpending =>
      rw [hjob] at hnone
      cases hnone
  | takesOver hnone hpending =>
      rw [hjob] at hnone
      cases hnone
  | ends hrun hend =>
      obtain ⟨rfl, rfl⟩ := Prod.mk.inj (Option.some.inj (hjob.symm.trans hrun))
      have := List.getElem?_eq_none_iff.mp hend
      exact Or.inl ⟨by omega, rfl⟩
  | flushes hrun he hlt =>
      obtain ⟨rfl, rfl⟩ := Prod.mk.inj (Option.some.inj (hjob.symm.trans hrun))
      obtain ⟨hi, -⟩ := List.getElem?_eq_some_iff.mp he
      refine Or.inr ⟨_, hjob, ?_⟩
      rw [length_swapRemove]
      omega
  | passes hrun he hge =>
      obtain ⟨rfl, rfl⟩ := Prod.mk.inj (Option.some.inj (hjob.symm.trans hrun))
      obtain ⟨hi, -⟩ := List.getElem?_eq_some_iff.mp he
      refine Or.inr ⟨_, rfl, ?_⟩
      show s.held.length - (_ + 1) + 1 = _
      omega

/-- Only the thread ends a loop or begins one. -/
theorem job_of_call {a : GcAct} (ha : a ≠ .collect) (hstep : step a s = .ok s') :
    s'.collector.job = s.collector.job ∧ s'.held = s.held := by
  cases a with
  | addBlock blk =>
      obtain rfl := Except.ok.inj hstep
      exact ⟨rfl, rfl⟩
  | invokeGc h =>
      obtain rfl := Except.ok.inj hstep
      exact ⟨rfl, rfl⟩
  | collect => exact absurd rfl ha

theorem job_of_calls {acts : List GcAct} : ∀ {s : GcRun}, acts.count .collect = 0 →
    runList step acts s = .ok s' → s'.collector.job = s.collector.job := by
  induction acts with
  | nil =>
      intro s _ hrun
      rw [← Except.ok.inj hrun]
  | cons a acts ih =>
      intro s hcount hrun
      unfold runList at hrun
      split at hrun
      · cases hrun
      · rename_i t hstep
        obtain ⟨hrest, ha⟩ : acts.count .collect = 0 ∧ a ≠ .collect := by
          simpa [List.count_cons] using hcount
        rw [ih hrest hrun, (job_of_call ha hstep).1]

/-- **The loop ends** when the thread has had a turn for each entry it had not come to and one more,
whatever calls fall in between. -/
theorem loop_ends {acts : List GcAct} : ∀ {s : GcRun} {h i : ℕ}, Counted heap₀ s →
    s.collector.job = some (h, i) → acts.count .collect = s.held.length - i + 1 →
    runList step acts s = .ok s' → s'.collector.job = none := by
  -- by induction on the steps of everyone: only a turn of the thread brings the loop nearer to its end
  induction acts with
  | nil =>
      intro s h i _ _ hcount _
      simp at hcount
  | cons a acts ih =>
      intro s h i C hjob hcount hrun
      unfold runList at hrun
      split at hrun
      · cases hrun
      · rename_i t hstep
        by_cases ha : a = .collect
        · subst ha
          rw [List.count_cons_self, Nat.add_right_cancel_iff] at hcount
          have hc := collects_of_step C.list_eq hstep
          rcases rounds_collects hc hjob with ⟨hlast, hnone⟩ | ⟨j, hnext, hleft⟩
          · -- the thread gets no further turn in which it could begin another loop
            rw [job_of_calls (hcount.trans hlast) hrun, hnone]
          · exact ih (C.step hstep) hnext (by omega) hrun
        · obtain ⟨hkeep, hheld⟩ := job_of_call ha hstep
          rw [List.count_cons_of_ne ha] at hcount
          exact ih (C.step hstep) (hkeep.trans hjob) (hheld ▸ hcount) hrun

/-! ## The result -/

theorem Rested.exact (R : Rested heap₀ s) (C : Counted heap₀ s) : Exact heap₀ s := by
  have hdue : ∀ e, s.Due e ↔ DueTo heap₀.height s.heights e := by
    intro e
    rw [Due, C.cores.height_eq]
  have hflushed : ∀ p, (s.heap.get p).flushedFromMemory = true ↔
      (heap₀.get p).flushedFromMemory = true ∨ ∃ e ∈ s.taken, s.Due e ∧ e.blk = p := by
    intro p
    refine (R.flushed p).trans (or_congr Iff.rfl ?_)
    simp [hdue]
  have hheld : ∀ e ∈ s.taken, e ∈ s.held ↔ ¬ s.Due e := by
    intro e he
    rw [R.others.mem_iff, List.mem_filter, decide_eq_true_iff, hdue e]
    exact and_iff_right he
  refine ⟨fun e he => ⟨fun hgone => ?_, fun hd => ⟨?_, ?_⟩⟩, ?_, hflushed, R.visited⟩
  · exact not_not.mp (mt (hheld e he).mpr hgone.1)
  · exact mt (hheld e he).mp (not_not_intro hd)
  · exact (hflushed e.blk).mpr (Or.inr ⟨e, he, hd, rfl⟩)
  · simpa only [hdue] using R.others

/-- In the middle of a round as well, only blocks that were taken over have been flushed. -/
theorem Working.taken_of_flushed (W : Working heap₀ s) {p : BlockPtr}
    (hp : (s.heap.get p).flushedFromMemory = true) :
    (heap₀.get p).flushedFromMemory = true ∨ ∃ e ∈ s.taken, e.blk = p := by
  unfold Working at W
  split at W
  · rcases (W.flushed p).mp hp with hp | ⟨e, he, -, hp⟩ | ⟨e, he, -⟩
    · exact Or.inl hp
    · exact Or.inr ⟨e, he, hp⟩
    · cases he
  · obtain ⟨hs, L⟩ := W
    rcases (L.flushed p).mp hp with hp | ⟨e, he, -, hp⟩ | ⟨e, he, hp⟩
    · exact Or.inl hp
    · exact Or.inr ⟨e, he, hp⟩
    · -- the loop comes to entries of the list it began with only
      have hbegun : e ∈ s.begun :=
        L.sweeping.visits.subset (List.mem_append_left _ (List.mem_filter.mp he).1)
      exact Or.inr ⟨e, (List.mem_filter.mp (L.begun.subset hbegun)).1, hp⟩

/-- **Garbage collection is exact.** In every state that calls and steps of the thread lead to, in any
order: between two rounds exactly the due entries are gone and flushed, the others are what `gc_list`
holds, and the last loop has come to every entry of its list once; no other block is flushed, not during a
round either; a loop never stands behind the end of its list, and it ends. The loop of the request queues
comes to every request once, ends, and drops those that were received. -/
theorem collection_exact (h : Reach step anyInput (start heap₀) s) :
    Counted heap₀ s ∧ (s.collector.job = none → Exact heap₀ s) ∧
    (∀ p, (s.heap.get p).flushedFromMemory = true →
      (heap₀.get p).flushedFromMemory = true ∨ ∃ e ∈ s.taken, e.blk = p) ∧
    (∀ height i, s.collector.job = some (height, i) → i ≤ s.collector.gcList.length ∧
      ∀ acts s', runList step acts s = .ok s' →
        acts.count .collect = s.collector.gcList.length - i + 1 → s'.collector.job = none) ∧
    ∀ isReceived reqs, ∃ visited,
      Sweeps (!isReceived ·) 0 reqs visited (ReplicaFetchQueue.doGc isReceived reqs) ∧
        visited.Perm reqs ∧
        (ReplicaFetchQueue.doGc isReceived reqs).Perm (reqs.filter (!isReceived ·)) := by
  obtain ⟨C, W⟩ := working_of_reach h
  have hlength : s.collector.gcList.length = s.held.length := by rw [C.list_eq, List.length_map]
  refine ⟨C, fun hjob => ?_, fun p hp => W.taken_of_flushed hp, fun height i hjob => ⟨?_, ?_⟩, ?_⟩
  · rw [Working, hjob] at W
    exact Rested.exact W C
  · rw [Working, hjob] at W
    obtain ⟨hs, L⟩ := W
    rw [hlength]
    exact L.sweeping.pos_le
  · intro acts s' hrun hcount
    exact loop_ends C hjob (hlength ▸ hcount) hrun
  · intro isReceived reqs
    obtain ⟨visited, hsweeps⟩ := ReplicaFetchQueue.sweeps_doGc isReceived reqs
    exact ⟨visited, hsweeps, hsweeps.spec⟩

/-- Blocks 1 and 2 at heights 5 and 9. -/
def twoHeights : Heap :=
  ⟨3, fun p => { HotstuffBlock.genesisBlock with blockHeight := if p = 1 then 5 else 9 }⟩

/-- Block 1 is added twice and block 2 once; height 6 replaces height 100 before the round. Block 1 is added
once more during the round, and the next one is at height 3. -/
def twoRounds : List GcAct :=
  [.addBlock 1, .addBlock 2, .addBlock 1, .invokeGc 100, .invokeGc 6, .collect, .collect,
    .addBlock 1, .invokeGc 3, .collect, .collect, .collect, .collect, .collect, .collect, .collect]

/-- Both entries of block 1 were due in the first round. The one taken over in the second is not, and it
stays, though its block is flushed. -/
theorem collection_exact_twoRounds : ∃ s : GcRun, s.collector.gcList = [2, 1] ∧
    (s.heap.get 1).flushedFromMemory = true ∧ s.heights = [6, 3] ∧ Exact twoHeights s := by
  have hrun : (runListIf step (fun _ _ => true) twoRounds (start twoHeights)).map
      (fun s => (s.collector.gcList, (s.heap.get 1).flushedFromMemory, s.heights,
        s.collector.job)) = some ([2, 1], true, [6, 3], none) := by
    decide +kernel
  obtain ⟨s, hs, heq⟩ := Option.map_eq_some_iff.mp hrun
  simp only [Prod.mk.injEq] at heq
  obtain ⟨hlist, hflushed, hheights, hjob⟩ := heq
  have hreach : Reach step anyInput (start twoHeights) s :=
    Reach.of_runListIf (fun _ _ _ => trivial) hs
  exact ⟨s, hlist, hflushed, hheights, (collection_exact hreach).2.1 hjob⟩

end GcRun

end Fred.Hotstuff
