/-
# Fred.Hotstuff.SaveRuns -- saving a block saves its history

`write_to_disk` sets the flag of a block, saves the block and goes on with the parent until it meets a
flag. Between the flag and the last ancestor the flags are not closed under the parent link, so the
recursion is the general one of `Fred.Lib.MarkUp`, and what it leaves is complete because the flags were
closed when it was called. The store is the one of `Fred.Hotstuff.StoreRuns`: blocks are made and
inserted in any order between the calls, and insertions move neither flags nor linked blocks. The
replica's own `writeToDisk` makes the same marks and saves the same blocks (`writeToDisk_marks`).

A flag belongs to an object, so here a block is an object: two objects of one hash are saved under one
file name, each once.
-/
import Fred.Lib.MarkUp
import Fred.Hotstuff.StoreRuns
import Fred.Hotstuff.Status

namespace Fred.Hotstuff

open Fred.Forest Fred.Transition

/-! ## The flags of the objects -/

def Heap.written (h : Heap) (p : BlockPtr) : Bool := (h.get p).writtenToDisk

instance (h : Heap) (p : BlockPtr) : Decidable (h.Settled p) :=
  decidable_of_iff (p = genesisPtr ∨ (h.parent p).isSome = true)
    (or_congr Iff.rfl Option.isSome_iff_exists)

/-- `written_to_disk.test_and_set()`. -/
def Heap.setWritten (h : Heap) (p : BlockPtr) : Heap :=
  h.modify p fun b => { b with writtenToDisk := true }

theorem Heap.sameCores_setWritten (h : Heap) (p : BlockPtr) : SameCores h (h.setWritten p) :=
  sameCores_modify rfl

theorem Heap.written_setWritten (h : Heap) (p : BlockPtr) :
    (h.setWritten p).written = Function.update h.written p true := by
  funext x
  by_cases hx : x = p
  · subst hx
    rw [Function.update_self]
    show ((h.setWritten x).get x).writtenToDisk = true
    rw [setWritten, get_modify_self]
  · rw [Function.update_of_ne hx]
    show ((h.setWritten p).get x).writtenToDisk = (h.get x).writtenToDisk
    rw [setWritten, get_modify_of_ne h _ hx]

/-! ## The state and its calls -/

namespace StoreState

variable {C : Crypto} {s s' : StoreState} {p : BlockPtr}

/-- The object is flagged. In a store nothing was saved from yet: genesis, or loaded from its file. -/
def OnDisk (s : StoreState) (p : BlockPtr) : Prop := p < s.heap.next ∧ s.heap.written p = true

/-- Blocks were loaded together with all their ancestors: below a flagged object other than genesis there
is a flagged one. -/
def LoadedTogether (s : StoreState) : Prop :=
  ∀ p, s.OnDisk p → p = genesisPtr ∨ ∃ q, s.heap.parent p = some q ∧ s.heap.written q = true

end StoreState

/-- The store, and the objects saved so far, first saved first. -/
structure SaveState where
  blocks : StoreState
  saved : List BlockPtr

inductive SaveCall where
  | store (call : StoreCall)
  | writeToDisk (p : BlockPtr)

/-- What ends a call: an exception, or a recursion that is not done in as many rounds as the block is
high and one. -/
inductive SaveStop where
  | exn (e : Exn)
  | notDone

namespace SaveState

def setWritten (p : BlockPtr) (s : SaveState) : SaveState :=
  { s with blocks := { s.blocks with heap := s.blocks.heap.setWritten p } }

/-- `save_block`, which does not fail here. -/
def saveBlock (p : BlockPtr) (s : SaveState) : SaveState := { s with saved := s.saved ++ [p] }

/-- `write_to_disk`: nothing at a flagged block; else set the flag, save the block and go on with the
parent. The first argument bounds the number of blocks. -/
def writeToDisk : ℕ → BlockPtr → SaveState → Option SaveState
  | 0, _, _ => none
  | n + 1, p, s =>
    if s.blocks.heap.written p then some s
    else
      let s := saveBlock p (setWritten p s)
      match s.blocks.heap.parent p with
      | none => some s
      | some q => writeToDisk n q s

def step (C : Crypto) : SaveCall → SaveState → Except SaveStop SaveState
  | .store call, s =>
    match StoreState.step C call s.blocks with
    | .error e => .error (.exn e)
    | .ok blocks => .ok { s with blocks := blocks }
  | .writeToDisk p, s =>
    match writeToDisk (s.blocks.heap.height p + 1) p s with
    | none => .error .notDone
    | some s => .ok s

/-- Blocks are written that `insert_block` has linked, and none is loaded after the start. -/
def Allowed (s : SaveState) : SaveCall → Prop
  | .store call => ¬ StoreState.Loads call
  | .writeToDisk p => s.blocks.heap.Settled p

instance (s : SaveState) (call : SaveCall) : Decidable (s.Allowed call) := by
  cases call <;> unfold Allowed <;> infer_instance

/-- Nothing has been saved from this store. -/
def start (blocks : StoreState) : SaveState := ⟨blocks, []⟩

variable {C : Crypto} {before : StoreState} {s s' : SaveState} {p q : BlockPtr}

/-! ## One call of `write_to_disk` -/

/-- Flag and save these objects, one after the other. -/
def saveAll : List BlockPtr → SaveState → SaveState
  | [], s => s
  | p :: ps, s => saveAll ps (saveBlock p (setWritten p s))

/-- `write_to_disk` is the recursion of marking upwards. -/
theorem writeToDisk_eq : ∀ (n : ℕ) (p : BlockPtr) (s : SaveState), writeToDisk n p s =
    (markUp s.blocks.heap.parent n p s.blocks.heap.written).map fun r => saveAll r.2 s
  | 0, _, _ => rfl
  | n + 1, p, s => by
      unfold writeToDisk markUp
      by_cases hw : s.blocks.heap.written p = true
      · rw [if_pos hw, if_pos hw]
        rfl
      · rw [if_neg hw, if_neg hw]
        have hparent : (setWritten p s).blocks.heap.parent = s.blocks.heap.parent :=
          (s.blocks.heap.sameCores_setWritten p).parent_eq
        have hwritten : (setWritten p s).blocks.heap.written =
            Function.update s.blocks.heap.written p true := s.blocks.heap.written_setWritten p
        have hrest := fun q => writeToDisk_eq n q (saveBlock p (setWritten p s))
        simp only [saveBlock, hparent, hwritten] at hrest ⊢
        rcases s.blocks.heap.parent p with _ | q
        · rfl
        · simp only [hrest, Option.map_map]
          rfl

/-- The objects are flagged and saved; nothing else changes. -/
structure Saved (s : SaveState) (ps : List BlockPtr) (s' : SaveState) : Prop where
  sameCores : Heap.SameCores s.blocks.heap s'.blocks.heap
  store_eq : s'.blocks.store = s.blocks.store
  written_iff : ∀ x, s'.blocks.heap.written x = true ↔ s.blocks.heap.written x = true ∨ x ∈ ps
  saved_eq : s'.saved = s.saved ++ ps

theorem saveAll_spec : ∀ (ps : List BlockPtr) (s : SaveState), Saved s ps (saveAll ps s)
  | [], s => ⟨Heap.SameCores.refl _, rfl, fun x => by simp [saveAll], (List.append_nil _).symm⟩
  | p :: ps, s => by
      have rest := saveAll_spec ps (saveBlock p (setWritten p s))
      refine ⟨(s.blocks.heap.sameCores_setWritten p).trans rest.sameCores, rest.store_eq, ?_, ?_⟩
      · intro x
        have hwritten : (saveBlock p (setWritten p s)).blocks.heap.written =
            Function.update s.blocks.heap.written p true := s.blocks.heap.written_setWritten p
        rw [saveAll, rest.written_iff, hwritten, update_true_iff, List.mem_cons, or_assoc,
          eq_comm (a := p)]
      · rw [saveAll, rest.saved_eq]
        exact List.append_assoc s.saved [p] ps

/-! ## The invariant -/

/-- Between calls: flags are closed under the parent link, and the saved objects are the flagged ones
that were not flagged at the start, each saved once. -/
structure Inv (C : Crypto) (before : StoreState) (s : SaveState) : Prop where
  shape : Shape C s.blocks.heap s.blocks.store.blockCache
  genesis : s.blocks.heap.written genesisPtr = true
  closed : MarkClosed s.blocks.heap.parent s.blocks.heap.written
  settled : ∀ p, s.blocks.OnDisk p → s.blocks.heap.Settled p
  kept : ∀ p, before.OnDisk p → s.blocks.OnDisk p
  nodup : s.saved.Nodup
  mem_saved : ∀ p, p ∈ s.saved ↔ s.blocks.OnDisk p ∧ ¬ before.OnDisk p

/-- No call changes the flag of an object there is, and only loading makes flagged ones. -/
theorem written_step {b b' : StoreState} {call : StoreCall} (S : Shape C b.heap b.store.blockCache)
    (h : StoreState.step C call b = .ok b') :
    (∀ p, p < b.heap.next → b'.heap.written p = b.heap.written p) ∧
      ∀ p, b.heap.next ≤ p → b'.OnDisk p → StoreState.Loads call := by
  rcases StoreState.step_cases S h with ⟨o, -, hloads, rfl⟩ | rfl | ⟨p, q, j, -, hlt, -, -, rfl⟩
  · constructor
    · intro p hp
      show ((b.heap.alloc o).get p).writtenToDisk = (b.heap.get p).writtenToDisk
      rw [Heap.get_alloc_of_ne _ _ (Nat.ne_of_lt hp)]
    · intro p hp hon
      have hlt : p < b.heap.next + 1 := hon.1
      obtain rfl : p = b.heap.next := Nat.le_antisymm (Nat.le_of_lt_succ hlt) hp
      apply hloads
      have hw : ((b.heap.alloc o).get b.heap.next).writtenToDisk = true := hon.2
      rwa [Heap.get_alloc_next] at hw
  · exact ⟨fun _ _ => rfl, fun p hp hon => absurd hon.1 (Nat.not_lt.mpr hp)⟩
  · constructor
    · intro x _
      show ((b.heap.link p q j).get x).writtenToDisk = (b.heap.get x).writtenToDisk
      by_cases hx : x = p
      · subst hx
        rw [Heap.get_link_self]
      · rw [Heap.get_link_of_ne _ _ _ hx]
    · intro x hx hon
      exact absurd hon.1 (Nat.not_lt.mpr hx)

theorem written_genesis (h : Reach (StoreState.step C) anyInput .init before) :
    before.heap.written genesisPtr = true := by
  refine (h.invariant_of_reach (I := fun b => b.heap.written genesisPtr = true) rfl ?_)
  intro b b' call hreach hb _ hstep
  have S := StoreState.shape_of_reach hreach
  exact ((written_step S hstep).1 genesisPtr S.next_pos).trans hb

theorem inv_start (h : Reach (StoreState.step C) anyInput .init before)
    (hloaded : before.LoadedTogether) : Inv C before (start before) := by
  have S := StoreState.shape_of_reach h
  refine ⟨S, written_genesis h, fun x y hxy hx => ?_, fun p hp => ?_, fun _ hp => hp,
    List.nodup_nil, fun p => ?_⟩
  · rcases hloaded x ⟨S.lt_next_of_parent hxy, hx⟩ with rfl | ⟨z, hz, hwz⟩
    · exact absurd rfl (S.ne_genesis_of_parent hxy)
    · obtain rfl : z = y := Option.some.inj (hz.symm.trans hxy)
      exact hwz
  · rcases hloaded p hp with hgen | ⟨q, hq, -⟩
    · exact Or.inl hgen
    · exact Or.inr ⟨q, hq⟩
  · constructor
    · intro hmem
      cases hmem
    · exact fun hp => absurd hp.1 hp.2

/-- Making and inserting blocks: what is flagged stays where it is. -/
theorem inv_store (I : Inv C before s) {call : StoreCall} {b : StoreState}
    (hload : ¬ StoreState.Loads call) (h : StoreState.step C call s.blocks = .ok b) :
    Inv C before { s with blocks := b } := by
  obtain ⟨hold, hnew⟩ := written_step I.shape h
  have S := StoreState.shape_step I.shape h
  have hext := StoreState.extends_step I.shape h
  have hondisk : ∀ p, b.OnDisk p ↔ s.blocks.OnDisk p := by
    intro p
    rcases Nat.lt_or_ge p s.blocks.heap.next with hlt | hge
    · unfold StoreState.OnDisk
      rw [hold p hlt]
      exact ⟨fun hp => ⟨hlt, hp.2⟩, fun hp => ⟨Nat.lt_of_lt_of_le hlt hext.next_le, hp.2⟩⟩
    · exact ⟨fun hp => absurd (hnew p hge hp) hload, fun hp => absurd hp.1 (Nat.not_lt.mpr hge)⟩
  refine ⟨S, ?_, fun x y hxy hx => ?_, fun p hp => ?_,
    fun p hp => (hondisk p).mpr (I.kept p hp), I.nodup, fun p => ?_⟩
  · exact (hold genesisPtr I.shape.next_pos).trans I.genesis
  · -- a flagged object was flagged before, so it was linked before, and its link has not moved
    have hx' := (hondisk x).mp ⟨S.lt_next_of_parent hxy, hx⟩
    rw [hext.parent_eq (I.settled x hx')] at hxy
    rw [hold y (I.shape.lt_next_of_settled (I.shape.settled_parent hxy))]
    exact I.closed x y hxy hx'.2
  · exact hext.settled (I.settled p ((hondisk p).mp hp))
  · rw [hondisk]
    exact I.mem_saved p

/-- `write_to_disk` ends, and the result does not depend on the bound. -/
theorem exists_writeToDisk (I : Inv C before s) (p : BlockPtr) :
    ∃ r : (BlockPtr → Bool) × List BlockPtr,
      MarkSpec s.blocks.heap.parent p s.blocks.heap.written r.1 r.2 ∧
      ∀ n, s.blocks.heap.height p < n → writeToDisk n p s = some (saveAll r.2 s) := by
  obtain ⟨r, hr, spec⟩ := I.shape.forest.markUp_spec p s.blocks.heap.written
    (fun x y _ hxy => I.closed x y hxy)
  refine ⟨r, spec, fun n hn => ?_⟩
  rw [writeToDisk_eq, hr n hn, Option.map_some]

/-- Writing a linked block: what is newly flagged is what is newly saved. -/
theorem inv_writeToDisk (I : Inv C before s) {r : (BlockPtr → Bool) × List BlockPtr}
    (hp : s.blocks.heap.Settled p)
    (spec : MarkSpec s.blocks.heap.parent p s.blocks.heap.written r.1 r.2) :
    Inv C before (saveAll r.2 s) := by
  have m := saveAll_spec r.2 s
  have hparent := m.sameCores.parent_eq
  have hnew : ∀ x, x ∈ r.2 → s.blocks.heap.Settled x ∧ s.blocks.heap.written x = false :=
    fun x hx => ⟨I.shape.settled_descends hp ((spec.mem_visited x).mp hx).1,
      ((spec.mem_visited x).mp hx).2⟩
  have hmarks : (saveAll r.2 s).blocks.heap.written = r.1 := by
    funext x
    rw [Bool.eq_iff_iff, m.written_iff, spec.marked_iff, spec.mem_visited]
    rcases s.blocks.heap.written x with _ | _ <;> simp
  have hondisk : ∀ x, (saveAll r.2 s).blocks.OnDisk x ↔ s.blocks.OnDisk x ∨ x ∈ r.2 := by
    intro x
    unfold StoreState.OnDisk
    rw [m.written_iff, m.sameCores.next_eq]
    constructor
    · rintro ⟨hlt, hw | hx⟩
      · exact Or.inl ⟨hlt, hw⟩
      · exact Or.inr hx
    · rintro (⟨hlt, hw⟩ | hx)
      · exact ⟨hlt, Or.inl hw⟩
      · exact ⟨I.shape.lt_next_of_settled (hnew x hx).1, Or.inr hx⟩
  refine ⟨?_, ?_, ?_, fun x hx => ?_, fun x hx => (hondisk x).mpr (Or.inl (I.kept x hx)), ?_,
    fun x => ?_⟩
  · rw [m.store_eq]
    exact I.shape.congr m.sameCores
  · exact (m.written_iff genesisPtr).mpr (Or.inl I.genesis)
  · rw [hparent, hmarks]
    exact spec.closed I.closed
  · apply m.sameCores.settled_iff.mpr
    exact ((hondisk x).mp hx).elim (I.settled x) fun h => (hnew x h).1
  · rw [m.saved_eq, List.nodup_append]
    refine ⟨I.nodup, spec.nodup, ?_⟩
    rintro x hx y hy rfl
    -- a saved block is flagged, a visited one was not
    have hw := ((I.mem_saved x).mp hx).1.2
    rw [(hnew x hy).2] at hw
    cases hw
  · rw [m.saved_eq, List.mem_append, I.mem_saved, hondisk]
    constructor
    · rintro (⟨hon, hbefore⟩ | hx)
      · exact ⟨Or.inl hon, hbefore⟩
      · refine ⟨Or.inr hx, fun hbefore => ?_⟩
        have hw := (I.kept x hbefore).2
        rw [(hnew x hx).2] at hw
        cases hw
    · rintro ⟨hon | hx, hbefore⟩
      · exact Or.inl ⟨hon, hbefore⟩
      · exact Or.inr hx

/-- **Step lemma**: every allowed call keeps the invariant. -/
theorem inv_step (I : Inv C before s) {call : SaveCall} (ha : s.Allowed call)
    (h : step C call s = .ok s') : Inv C before s' := by
  cases call with
  | store call =>
      rcases hb : StoreState.step C call s.blocks with e | b
      · simp only [step, hb] at h
        cases h
      · simp only [step, hb] at h
        obtain rfl := Except.ok.inj h
        exact inv_store I ha hb
  | writeToDisk p =>
      obtain ⟨r, spec, hr⟩ := exists_writeToDisk I p
      simp only [step, hr _ (Nat.lt_succ_self _)] at h
      obtain rfl := Except.ok.inj h
      exact inv_writeToDisk I ha spec

theorem inv_of_reach (hbefore : Reach (StoreState.step C) anyInput .init before)
    (hloaded : before.LoadedTogether) (h : Reach (step C) Allowed (start before) s) :
    Inv C before s :=
  h.invariant (inv_start hbefore hloaded) fun _ _ _ I ha hstep => inv_step I ha hstep

/-! ## What a flag says -/

/-- The object was on disk at the start and nothing saved it, or it was not and it was saved once. -/
def OnceOnDisk (before : StoreState) (s : SaveState) (p : BlockPtr) : Prop :=
  before.OnDisk p ∧ s.saved.count p = 0 ∨ ¬ before.OnDisk p ∧ s.saved.count p = 1

theorem onceOnDisk (I : Inv C before s) (hp : s.blocks.OnDisk p) : OnceOnDisk before s p := by
  have hmem := I.mem_saved p
  by_cases hb : before.OnDisk p
  · exact Or.inl ⟨hb, List.count_eq_zero.mpr fun hs => (hmem.mp hs).2 hb⟩
  · exact Or.inr ⟨hb, List.count_eq_one_of_mem I.nodup (hmem.mpr ⟨hp, hb⟩)⟩

end SaveState

/-! ## The replica's own `write_to_disk` -/

/-- The effects are saves of these objects, in this order. -/
def SavesOf (h : Heap) (ps : List BlockPtr) (effs : List Effect) : Prop :=
  List.Forall₂ (fun p e => ∃ wire, e = Effect.saved (h.hash p) wire) ps effs

/-- With the collector running in between, and the files written, the replica marks upwards too, and it
saves what it marks. -/
theorem Replica.writeToDisk_marks {V : Type} (E : Setup V) {bound : ℕ} :
    ∀ {n : ℕ} {a : BlockPtr} {s : Replica V} {r : (BlockPtr → Bool) × List BlockPtr},
      Shape E.crypto s.heap s.blockStore.blockCache →
      s.blockStore.gcCollector.BoundedBy bound → s.heap.Settled a →
      s.heap.written genesisPtr = true →
      markUp s.heap.parent n a s.heap.written = some r →
      (writeToDisk E n a s).heap.written = r.1 ∧
        ∃ effs, (writeToDisk E n a s).trace = s.trace ++ effs ∧ SavesOf s.heap r.2 effs
  | 0, _, _, _, _, _, _, _, h => by cases h
  | n + 1, a, s, r, S, hgc, hset, hgen, h => by
      unfold writeToDisk
      unfold markUp at h
      by_cases hw : s.heap.written a = true
      · rw [if_pos hw] at h
        have hflag : (s.heap.get a).writtenToDisk = true := hw
        rw [if_pos hflag]
        obtain rfl := Option.some.inj h
        exact ⟨rfl, [], (List.append_nil _).symm, List.Forall₂.nil⟩
      · rw [if_neg hw] at h
        have hflag : ¬ (s.heap.get a).writtenToDisk = true := hw
        rw [if_neg hflag]
        have hne : a ≠ genesisPtr := by
          rintro rfl
          exact hw hgen
        obtain ⟨q, hq⟩ := hset.resolve_left hne
        -- the flag is set and the file written before the call on the parent
        have one := saveBlock_spec E S hset hne hgc
        have hparent := one.aged.cores.parent_eq
        have hhash := one.aged.cores.hash_eq
        have hwritten : (saveBlock E a (setWritten a s).pause).heap.written =
            Function.update s.heap.written a true := by
          funext x
          rw [Bool.eq_iff_iff, update_true_iff]
          exact (one.written_iff x).trans (or_congr Iff.rfl eq_comm)
        simp only [hq, Option.map_eq_some_iff] at h
        obtain ⟨r', hr', rfl⟩ := h
        rw [← hwritten, ← hparent] at hr'
        obtain ⟨hmarks, effs, htrace, hsaves⟩ := writeToDisk_marks E
          (by rw [one.keeps.cache_eq]; exact S.congr one.aged.cores) one.bounded
          (one.aged.cores.settled_iff.mpr (S.settled_parent hq))
          ((one.written_iff _).mpr (Or.inl hgen)) hr'
        obtain ⟨wire, hone⟩ : ∃ wire, (saveBlock E a (setWritten a s).pause).trace =
            s.trace ++ [Effect.saved (s.heap.hash a) wire] := ⟨_, one.trace_eq⟩
        simp only [congrFun hparent a, hq]
        refine ⟨hmarks, Effect.saved (s.heap.hash a) wire :: effs, ?_,
          List.Forall₂.cons ⟨wire, rfl⟩ ?_⟩
        · rw [htrace, hone, List.append_assoc]
          rfl
        · unfold SavesOf at hsaves
          rwa [hhash] at hsaves

/-- **Saving a block saves its history.** Blocks are made and inserted in any order, `write_to_disk` is
called on linked blocks, and at the start the flagged ones had been loaded together with their ancestors.
Then after every call each flagged block, and everything it descends from but genesis, is flagged and was
saved exactly once unless it was on disk at the start; and a call on any linked block ends, with a result
that does not depend on how many rounds it may take. -/
theorem SaveState.history_saved {C : Crypto} {before : StoreState} {s : SaveState}
    (hbefore : Reach (StoreState.step C) anyInput .init before) (hloaded : before.LoadedTogether)
    (h : Reach (SaveState.step C) SaveState.Allowed (SaveState.start before) s) :
    (∀ p q, s.blocks.OnDisk p → Descends s.blocks.heap.parent p q → q ≠ genesisPtr →
      s.blocks.OnDisk q ∧ s.OnceOnDisk before q) ∧
      ∀ p, s.blocks.heap.Settled p →
        ∃ s', ∀ n, s.blocks.heap.height p < n → SaveState.writeToDisk n p s = some s' := by
  have I := SaveState.inv_of_reach hbefore hloaded h
  constructor
  · intro p q hp hd _
    have hlt := I.shape.lt_next_of_settled (I.shape.settled_descends (I.settled p hp) hd)
    have hq : s.blocks.OnDisk q := ⟨hlt, I.closed.descends hp.2 hd⟩
    exact ⟨hq, SaveState.onceOnDisk I hq⟩
  · intro p _
    obtain ⟨r, -, hr⟩ := SaveState.exists_writeToDisk I p
    exact ⟨_, hr⟩

/-- The store after a block on genesis was loaded. -/
def loadedStore : StoreState :=
  let onGenesis := Instance.blockOn 0#256 ⟨0#256, 0#32, []⟩ []
  match runList (StoreState.step Instance.crypto) [.loadDecidedBlock onGenesis, .insertBlock 1]
    .init with
  | .ok before => before
  | .error _ => .init

theorem reach_loadedStore :
    Reach (StoreState.step Instance.crypto) anyInput .init loadedStore := by
  unfold loadedStore
  dsimp only
  split
  · rename_i before hbefore
    exact Reach.of_runList (fun _ _ => trivial) hbefore
  · exact Reach.refl _

theorem loadedTogether_loadedStore : loadedStore.LoadedTogether := by
  have hnext : loadedStore.heap.next = 2 := by decide +kernel
  have hone : loadedStore.heap.parent 1 = some 0 := by decide +kernel
  have hgen : loadedStore.heap.written 0 = true := by decide +kernel
  rintro p ⟨hlt, -⟩
  rw [hnext] at hlt
  obtain rfl | rfl := Nat.le_one_iff_eq_zero_or_eq_one.mp (Nat.le_of_lt_succ hlt)
  · exact Or.inl rfl
  · exact Or.inr ⟨0, hone, hgen⟩

/-- A block arrives on top of the loaded one, and two blocks on top of that; one of the two is written,
then the other, then the first again. -/
def forkCalls : List SaveCall :=
  [.store (.receiveBlock (Instance.blockOn 1#256 ⟨0#256, 0#32, []⟩ []) 0), .store (.insertBlock 2),
    .store (.receiveBlock (Instance.blockOn 1001#256 ⟨0#256, 0#32, []⟩ []) 0),
    .store (.insertBlock 3),
    .store (.receiveBlock (Instance.blockOn 1001#256 ⟨0#256, 0#32, []⟩ [1]) 0),
    .store (.insertBlock 4), .writeToDisk 3, .writeToDisk 4, .writeToDisk 3]

theorem SaveState.history_saved_fork : ∃ s : SaveState, s.saved = [3, 2, 4] ∧
    s.OnceOnDisk loadedStore 1 ∧ s.OnceOnDisk loadedStore 2 ∧
    ∃ s', ∀ n, 3 < n → SaveState.writeToDisk n 4 s = some s' := by
  have hrun : (runListIf (SaveState.step Instance.crypto) (fun s c => decide (s.Allowed c)) forkCalls
      (SaveState.start loadedStore)).map (fun s =>
        ((s.saved, s.blocks.heap.next, s.blocks.heap.written 4),
          s.blocks.heap.parent 4, s.blocks.heap.parent 2, s.blocks.heap.height 4)) =
      some (([3, 2, 4], 5, true), some 2, some 1, 3) := by
    decide +kernel
  rw [Option.map_eq_some_iff] at hrun
  obtain ⟨s, hs, hobs⟩ := hrun
  simp only [Prod.mk.injEq] at hobs
  obtain ⟨⟨hsaved, hnext, hw⟩, hfour, htwo, hheight⟩ := hobs
  obtain ⟨honce, hends⟩ := SaveState.history_saved reach_loadedStore loadedTogether_loadedStore
    (Reach.of_runListIf (fun _ _ => of_decide_eq_true) hs)
  have hon : s.blocks.OnDisk 4 := ⟨by rw [hnext]; decide, hw⟩
  have hd : Descends s.blocks.heap.parent 4 2 := Descends.single hfour
  obtain ⟨s', hs'⟩ := hends 4 (Or.inr ⟨2, hfour⟩)
  rw [hheight] at hs'
  exact ⟨s, hsaved, (honce 4 1 hon (hd.trans (Descends.single htwo)) (by decide)).2,
    (honce 4 2 hon hd (by decide)).2, s', hs'⟩

end Fred.Hotstuff
