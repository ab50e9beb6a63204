/-
# Fred.Hotstuff.Lives -- a replica over crashes and restarts

A crash can come in the middle of an event, so what is on disk then is not what the state between two
events says. `Turn.restart` takes any disk: whatever `init_from_disk` returns from is well formed
(`initFromDisk_wellFormed`), because it checks what it loads by inserting it. The certificate and the
leaf that a replica proposes with belong together in every state of every life
(`leaf_extends_hqc`).
-/
import Fred.Hotstuff.Leaf
import Fred.Hotstuff.Recovery

namespace Fred.Hotstuff

open Fred.Forest Fred.Transition Replica

variable {V : Type} {E : Setup V} {s s' t : Replica V}

/-! ## Turns -/

/-- A step of the running replica, or a crash and a restart from what is on disk. -/
inductive Turn where
  | input (i : Input)
  | restart (disk : Disk)

def turn (E : Setup V) : Turn → Replica V → Result V
  | .input i, s => step E i s
  | .restart disk, s =>
    match initFromDisk E disk with
    | .error e => .error (e, s)
    | .ok t => .ok t

/-- A restart that goes through is a start from the disk. -/
theorem turn_restart_ok {disk : Disk} (h : turn E (.restart disk) s = .ok t) :
    initFromDisk E disk = .ok t := by
  rcases hinit : initFromDisk E disk with e | t'
  · simp [turn, hinit] at h
  · simpa [turn, hinit] using h

/-! ## Reloading leaves a well-formed replica -/

/-- The state while the decided blocks are reloaded: every object is linked and flagged as written, and
nothing else has happened. -/
structure Reloading (E : Setup V) (t : Replica V) : Prop where
  shape : Shape E.crypto t.heap t.blockStore.blockCache
  settled : ∀ p, p < t.heap.next → t.heap.Settled p
  written : ∀ p, p < t.heap.next → (t.heap.get p).writtenToDisk = true
  collector : ∀ n, t.blockStore.gcCollector.BoundedBy n
  hqc_eq : t.hqc = (genesisPtr, HotstuffBlock.genesisBlock.selfQc.serialize)
  bLeaf_eq : t.bLeaf = genesisPtr
  eventQueue_eq : t.eventQueue = []
  netEvents_eq : t.netEvents = []
  trace_eq : t.trace = []

theorem reloading_make (files : Hash → Option HotstuffBlockWire) (index : HotstuffLMDB) (vm : V) :
    Reloading E (Replica.make files index vm) where
  shape := Shape.init E.crypto
  settled := fun _ hp => Or.inl (Nat.lt_one_iff.mp hp)
  written := by
    intro p hp
    obtain rfl : p = 0 := Nat.lt_one_iff.mp hp
    rfl
  collector := fun _ => BlockGarbageCollector.boundedBy_init.mono (Nat.zero_le _)
  hqc_eq := rfl
  bLeaf_eq := rfl
  eventQueue_eq := rfl
  netEvents_eq := rfl
  trace_eq := rfl

/-- What a round of the loop that returns has done: it has linked and stored the block it has loaded. -/
theorem reloadBlock_ok {x : Hash} {n : ℕ} (S : Shape E.crypto t.heap t.blockStore.blockCache)
    (h : reloadBlock E x t = .ok (n, s')) : ∃ w q j,
      t.blockStore.blockCache ((t.heap.alloc (HotstuffBlock.loadedBlock E.crypto w)).header
        t.heap.next).parentHash = some q ∧
      t.blockStore.blockCache ((t.heap.alloc (HotstuffBlock.loadedBlock E.crypto w)).header
        t.heap.next).qc.justify = some j ∧
      s' = { t with
        heap := (t.heap.alloc (HotstuffBlock.loadedBlock E.crypto w)).link t.heap.next q j
        blockStore := (t.blockStore.emplace
          ((t.heap.alloc (HotstuffBlock.loadedBlock E.crypto w)).hash t.heap.next)
          t.heap.next).addBlock t.heap.next } := by
  unfold reloadBlock loadDecidedBlock at h
  split at h
  · cases h
  · rename_i b hb
    have hload : ∃ w, b = HotstuffBlock.loadedBlock E.crypto w := by
      split at hb
      · cases hb
      · exact ⟨_, (Except.ok.inj hb).symm⟩
    obtain ⟨w, rfl⟩ := hload
    have hn0 : t.heap.next ≠ genesisPtr := Nat.ne_of_gt S.next_pos
    have hlt : t.heap.next < (t.heap.alloc (HotstuffBlock.loadedBlock E.crypto w)).next :=
      Nat.lt_succ_self _
    rcases insertBlock_cases (S.alloc (HotstuffBlock.isNew_loadedBlock E.crypto w)) hn0 hlt with
      ⟨m, hm, hins⟩ | ⟨q, j, hq, hj, hins⟩
    · rw [hins] at h
      simp [hm] at h
    · rw [hins] at h
      simp only [BlockStore.MissingDependencies.any, Option.isSome_none, Bool.or_self,
        Bool.false_eq_true, if_false] at h
      exact ⟨w, q, j, hq, hj, ((Prod.mk.inj (Except.ok.inj h)).2).symm⟩

/-- What every round of the loop keeps, the loop keeps. -/
theorem reloadLoop_keeps {I : Replica V → Prop}
    (hround : ∀ (x : Hash) (n : ℕ) (t s' : Replica V), I t → reloadBlock E x t = .ok (n, s') → I s')
    {es : List IndexEntry} : ∀ {r r' : ℕ × Replica V}, I r.2 → reloadLoop E es r = .ok r' → I r'.2 := by
  induction es with
  | nil =>
      intro r r' hI h
      rwa [← Except.ok.inj h]
  | cons e es ih =>
      intro r r' hI h
      unfold reloadLoop at h
      split at h
      · cases h
      · rename_i r₁ hr₁
        exact ih (hround e.hash r₁.1 r.2 r₁.2 hI hr₁) h

/-- What `reload_state_from_index` has done if it returns. -/
theorem reloadStateFromIndex_ok (h : reloadStateFromIndex t = .ok s') : ∃ qc b,
    t.blockStore.blockCache qc.justify = some b ∧
    s' = { updateHqc b (.ofWire qc) t with
      vheight := BitVec.ofNat 32 ((updateHqc b (.ofWire qc) t).heap.height b), bExec := b, bLock := b } := by
  unfold reloadStateFromIndex findBlockByHash at h
  split at h
  · cases h
  · rename_i qc hqc
    split at h
    · cases h
    · rename_i b hb
      refine ⟨qc, b, ?_, (Except.ok.inj h).symm⟩
      split at hb
      · cases hb
      · rename_i p hp
        rw [← Except.ok.inj hb]
        exact hp

/-- What `init_from_disk` has done if it returns: the loop, the state from the index, the machine. -/
theorem initFromDisk_ok {disk : Disk} (h : initFromDisk E disk = .ok s') :
    ∃ index highest t u vm, disk.index.openDb = .ok index ∧
      reloadLoop E index.data (0, Replica.make disk.files index E.vm.initClean) = .ok (highest, t) ∧
      reloadStateFromIndex t = .ok u ∧ s' = { u with vm := vm } := by
  unfold initFromDisk reloadDecidedBlocks at h
  split at h
  · cases h
  · rename_i index hindex
    split at h
    · cases h
    · rename_i highest u hreload
      split at hreload
      · cases hreload
      · rename_i highest' t hloop
        split at hreload
        · cases hreload
        · rename_i u' hstate
          obtain ⟨-, rfl⟩ := Prod.mk.inj (Except.ok.inj hreload)
          split at h
          · cases h
          · rename_i vm _
            exact ⟨index, highest', t, u', vm, hindex, hloop, hstate, (Except.ok.inj h).symm⟩

namespace Reloading

/-- One round of the loop. -/
theorem reloadBlock {x : Hash} {n : ℕ} (R : Reloading E t)
    (h : Hotstuff.reloadBlock E x t = .ok (n, s')) : Reloading E s' := by
  obtain ⟨w, q, j, hq, hj, rfl⟩ := reloadBlock_ok R.shape h
  have S := R.shape.alloc (HotstuffBlock.isNew_loadedBlock E.crypto w)
  have hn0 : t.heap.next ≠ genesisPtr := Nat.ne_of_gt R.shape.next_pos
  have hlt : t.heap.next < (t.heap.alloc (HotstuffBlock.loadedBlock E.crypto w)).next :=
    Nat.lt_succ_self _
  have H := (R.shape.extends_alloc (HotstuffBlock.loadedBlock E.crypto w)).trans
    (S.extends_link hn0 hq hj)
  refine ⟨S.link hn0 hlt hq hj, ?_, ?_, fun n => ⟨(R.collector n).pending,
    (R.collector n).running⟩, R.hqc_eq, R.bLeaf_eq, R.eventQueue_eq, R.netEvents_eq, R.trace_eq⟩
  · intro p hp
    rcases Nat.lt_succ_iff_lt_or_eq.mp hp with hp | rfl
    · exact H.settled (R.settled p hp)
    · exact Or.inr ⟨q, Heap.parent_link_self _ _ _ _⟩
  · intro p hp
    show (((t.heap.alloc _).link t.heap.next q j).get p).writtenToDisk = true
    rcases Nat.lt_succ_iff_lt_or_eq.mp hp with hp | rfl
    · rw [Heap.get_link_of_ne _ _ _ (Nat.ne_of_lt hp), Heap.get_alloc_of_ne _ _ (Nat.ne_of_lt hp)]
      exact R.written p hp
    · rw [Heap.get_link_self, Heap.get_alloc_next]
      rfl

theorem reloadLoop {es : List IndexEntry} {r r' : ℕ × Replica V} (R : Reloading E r.2)
    (h : Hotstuff.reloadLoop E es r = .ok r') : Reloading E r'.2 :=
  reloadLoop_keeps (fun _ _ _ _ R hround => R.reloadBlock hround) R h

/-- The certificate and the leaf are set together, or both stay at genesis. -/
theorem updateHqc_hqc (R : Reloading E t) {qc : QuorumCertificateWire} {b : BlockPtr}
    (hcached : t.blockStore.blockCache qc.justify = some b) :
    t.heap.Settled (updateHqc b (.ofWire qc) t).hqc.1 ∧
      (updateHqc b (.ofWire qc) t).hqc.2.justify = t.heap.hash (updateHqc b (.ofWire qc) t).hqc.1 ∧
      (updateHqc b (.ofWire qc) t).bLeaf = (updateHqc b (.ofWire qc) t).hqc.1 := by
  obtain ⟨hhash, hset⟩ := R.shape.cached hcached
  rcases updateHqc_cases b (.ofWire qc) t with ⟨-, heq⟩ | ⟨-, heq⟩
  · rw [heq, R.hqc_eq]
    exact ⟨Or.inl rfl, R.shape.hash_genesis.symm, R.bLeaf_eq⟩
  · rw [heq]
    exact ⟨hset, (QuorumCertificate.objHash_ofWire qc).trans hhash.symm, rfl⟩

/-- The replica after `reload_state_from_index` is well formed. -/
theorem reloadStateFromIndex (R : Reloading E t) (h : Hotstuff.reloadStateFromIndex t = .ok s') :
    WellFormed E s' ∧ s'.bLeaf = s'.hqc.1 ∧ s'.trace = [] := by
  obtain ⟨qc, b, hcached, rfl⟩ := reloadStateFromIndex_ok h
  have hstored := R.shape.stored_of_cache hcached
  obtain ⟨hheap, hstore, hnet, hqueue⟩ := updateHqc_keeps b (.ofWire qc) t
  have htrace := updateHqc_trace b (.ofWire qc) t
  obtain ⟨hset, hhash, hleaf⟩ := R.updateHqc_hqc hcached
  clear h
  generalize updateHqc b (.ofWire qc) t = u at hheap hstore hnet hqueue htrace hset hhash hleaf ⊢
  refine ⟨?_, hleaf, htrace.trans R.trace_eq⟩
  have hgen := R.shape.next_pos
  constructor
  case shape =>
    show Shape E.crypto u.heap u.blockStore.blockCache
    rw [hheap, hstore]
    exact R.shape
  case collector =>
    show u.blockStore.gcCollector.BoundedBy _
    rw [hstore]
    exact R.collector _
  case hqc_settled =>
    show u.heap.Settled u.hqc.1
    rw [hheap]
    exact hset
  case hqc_hash =>
    show u.hqc.2.justify = u.heap.hash u.hqc.1
    rw [hheap]
    exact hhash
  case lock_stored =>
    show u.blockStore.blockCache (u.heap.hash b) = some b
    rw [hheap, hstore]
    exact hstored
  case exec_stored =>
    show u.blockStore.blockCache (u.heap.hash b) = some b
    rw [hheap, hstore]
    exact hstored
  case leaf_settled =>
    show u.heap.Settled u.bLeaf
    rw [hheap, hleaf]
    exact hset
  case events =>
    show ∀ e ∈ u.eventQueue, _
    rw [hqueue, R.eventQueue_eq]
    simp
  case netEvents =>
    show ∀ e ∈ u.netEvents, _
    rw [hnet, R.netEvents_eq]
    simp
  case genesis_written =>
    show (u.heap.get genesisPtr).writtenToDisk = true
    rw [hheap]
    exact R.written _ hgen
  case written_closed =>
    show ∀ p q, u.heap.parent p = some q → _ → (u.heap.get q).writtenToDisk = true
    rw [hheap]
    intro p q hq _
    exact R.written q (R.shape.lt_next_of_settled (R.shape.settled_parent hq))
  case unsettled_flags =>
    show ∀ p, p < u.heap.next → ¬ u.heap.Settled p → _
    rw [hheap]
    intro p hp hno
    exact absurd (R.settled p hp) hno

end Reloading

/-- **What a restart returns is well formed**, from whatever disk; it proposes on the block its
certificate is on. -/
theorem initFromDisk_wellFormed {disk : Disk} (h : initFromDisk E disk = .ok s') :
    WellFormed E s' ∧ s'.bLeaf = s'.hqc.1 ∧ s'.trace = [] := by
  obtain ⟨index, highest, t, u, vm, -, hloop, hstate, rfl⟩ := initFromDisk_ok h
  have R : Reloading E t := (reloading_make disk.files index _).reloadLoop (r := (0, _)) hloop
  obtain ⟨W, hleaf, htrace⟩ := R.reloadStateFromIndex hstate
  exact ⟨W.withQueue (fun _ he => Or.inl he) _ _ _ _ _ _ _, hleaf, htrace⟩

/-! ## Certificate and leaf -/

/-- The certified block is the leaf or an ancestor of it; blocks are told apart by their hashes. -/
def LeafAbove (s : Replica V) : Prop :=
  ∃ a, Descends s.heap.parent s.bLeaf a ∧ s.heap.hash a = s.heap.hash s.hqc.1

/-- The block an object's certificate is on is among its proper ancestors. -/
def Justified (s : Replica V) (p : BlockPtr) : Prop :=
  ∃ q a, s.heap.parent p = some q ∧ Descends s.heap.parent q a ∧
    s.heap.hash a = (s.heap.header p).qc.justify

/-- Certificate and leaf belong together, and did when the blocks were minted. -/
structure Grounded (s : Replica V) : Prop where
  leafAbove : LeafAbove s
  justified : ∀ p ∈ s.minted, Justified s p

theorem Justified.of_extends {p : BlockPtr} (H : Heap.Extends s.heap s'.heap) (W : WellFormed E s)
    (h : Justified s p) : Justified s' p := by
  obtain ⟨q, a, hq, ha, hhash⟩ := h
  have hset := W.shape.settled_descends (W.shape.settled_parent hq) ha
  refine ⟨q, a, H.parent_mono hq, H.descends ha, ?_⟩
  rw [H.hash_eq hset, H.header_eq (Or.inr ⟨q, hq⟩), hhash]

/-- **Every step keeps certificate and leaf together.** -/
theorem Grounded.step {i : Input} (G : Grounded s) (W : WellFormed E s) (N : NoCollision s)
    (h : Hotstuff.step E i s = .ok s') : Grounded s' := by
  have H := heap_step W h
  have hjust : ∀ p ∈ s.minted, Justified s' p := fun p hp => (G.justified p hp).of_extends H W
  obtain ⟨a, ha, hhash⟩ := G.leafAbove
  have hseta := W.shape.settled_descends W.leaf_settled ha
  cases leaf_step W h with
  | stay _ hhqc hleaf hminted =>
      refine ⟨⟨a, ?_, ?_⟩, hminted.symm ▸ hjust⟩
      · rw [hleaf]
        exact H.descends ha
      · rw [hhqc, H.hash_eq hseta, H.hash_eq W.hqc_settled]
        exact hhash
  | @raise b _ hhqc hleaf hminted =>
      refine ⟨⟨b, ?_, by rw [hhqc]⟩, hminted.symm ▸ hjust⟩
      rw [hleaf]
      exact Descends.refl b
  | @mint q _ hq hhqc hleaf hminted hparent hqc =>
      obtain ⟨hqhash, hqset⟩ := W.shape.cached hq
      -- the stored object of the leaf's block has the same blocks below it
      obtain ⟨b, hb, hbhash⟩ := N.descends W W.leaf_settled hqset hqhash.symm ha
      have hsetb := W.shape.settled_descends hqset hb
      have hb' := H.descends hb
      have hcert : s'.heap.hash b = s.heap.hash s.hqc.1 := by
        rw [H.hash_eq hsetb, hbhash, hhash]
      refine ⟨⟨b, ?_, ?_⟩, fun p hp => ?_⟩
      · rw [hleaf]
        exact Descends.head hparent hb'
      · rw [hhqc, hcert, H.hash_eq W.hqc_settled]
      · rw [hminted] at hp
        rcases List.mem_append.mp hp with hp | hp
        · exact hjust p hp
        · rw [List.mem_singleton.mp hp]
          refine ⟨q, b, hparent, hb', ?_⟩
          rw [hcert, hqc, W.hqc_hash]

/-- No hash collision occurs in the state a turn leads to. -/
def KeepsHashesApart (E : Setup V) (s : Replica V) (a : Turn) : Prop :=
  ∀ t, turn E a s = .ok t → NoCollision t

/-- If leaf and highest certified block are stored objects, they are related as objects. -/
theorem LeafAbove.descends (L : LeafAbove s) (W : WellFormed E s)
    (hqc : s.blockStore.blockCache (s.heap.hash s.hqc.1) = some s.hqc.1)
    (hleaf : s.blockStore.blockCache (s.heap.hash s.bLeaf) = some s.bLeaf) :
    Descends s.heap.parent s.bLeaf s.hqc.1 := by
  obtain ⟨a, ha, hhash⟩ := L
  have hsame : a = s.hqc.1 := Shape.eq_of_stored (W.shape.stored_descends hleaf ha) hqc hhash
  rwa [← hsame]

/-- **Honest proposals are well formed.** In every state of every life of a replica, whatever arrives
and whatever is on disk at a restart, the highest certificate is on the hash of the highest certified
block, that block is the leaf or an ancestor of it, and every block the replica has minted has the block
its certificate is on among its proper ancestors. -/
theorem leaf_extends_hqc (h : Reach (turn E) (KeepsHashesApart E) (start E) s) :
    s.hqc.2.justify = s.heap.hash s.hqc.1 ∧ LeafAbove s ∧
      (s.blockStore.blockCache (s.heap.hash s.hqc.1) = some s.hqc.1 →
        s.blockStore.blockCache (s.heap.hash s.bLeaf) = some s.bLeaf →
        Descends s.heap.parent s.bLeaf s.hqc.1) ∧
      ∀ p ∈ s.minted, Justified s p := by
  have hinv : WellFormed E s ∧ Grounded s := by
    refine h.invariant (I := fun s => WellFormed E s ∧ Grounded s) ⟨WellFormed.start E, ?_, ?_⟩ ?_
    · exact ⟨genesisPtr, Descends.refl _, rfl⟩
    · simp [minted, start, Replica.make]
    · rintro t u a ⟨W, G⟩ hapart hturn
      have N := hapart u hturn
      cases a with
      | input i =>
          have hstep : step E i t = .ok u := hturn
          exact ⟨(step_cases W hstep).1, G.step W (N.of_step W hstep) hstep⟩
      | restart disk =>
          obtain ⟨W', hleaf, htrace⟩ := initFromDisk_wellFormed (turn_restart_ok hturn)
          refine ⟨W', ⟨u.bLeaf, Descends.refl _, by rw [hleaf]⟩, ?_⟩
          simp [minted, htrace]
  exact ⟨hinv.1.hqc_hash, hinv.2.leafAbove, hinv.2.leafAbove.descends hinv.1, hinv.2.justified⟩

/-! ### Two lives -/

namespace Instance

/-- What a single replica that has committed a block leaves on disk. -/
def soloDisk : Disk :=
  match runList (step soloSetup) (soloRounds 4) (start soloSetup) with
  | .ok s => s.disk
  | .error _ => .fresh

/-- Four rounds, a crash, and another round from the disk. -/
def twoLives : List Turn :=
  (soloRounds 4).map .input ++ [.restart soloDisk] ++ (soloRounds 1).map .input

def apartCheck (s : Replica Unit) (a : Turn) : Bool :=
  match turn soloSetup a s with
  | .ok t => noCollisionCheck t
  | .error _ => true

theorem apart_of_check (s : Replica Unit) (a : Turn) (h : apartCheck s a = true) :
    KeepsHashesApart soloSetup s a := by
  intro t ht
  unfold apartCheck at h
  rw [ht] at h
  exact noCollision_of_check h

end Instance

/-- In its second life a single replica builds on the block it had committed. -/
theorem leaf_extends_hqc_restarted : ∃ s : Replica Unit, s.mintedHeights = [2] ∧ LeafAbove s := by
  have hrun : (runListIf (turn Instance.soloSetup) Instance.apartCheck Instance.twoLives
      (start Instance.soloSetup)).map mintedHeights = some [2] := by
    decide +kernel
  obtain ⟨s, hs, hheights⟩ := Option.map_eq_some_iff.mp hrun
  exact ⟨s, hheights, (leaf_extends_hqc (Reach.of_runListIf Instance.apart_of_check hs)).2.1⟩

end Fred.Hotstuff
