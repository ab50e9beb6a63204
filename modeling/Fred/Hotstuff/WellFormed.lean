/-
# Fred.Hotstuff.WellFormed -- what every replica keeps between two steps

`WellFormed` collects the facts about the objects a replica refers to: where its pointers point, that
queued events are about linked objects, how far the collector may flush, and that flags are set
downwards along parents. Each part of a step keeps it, one lemma for each part.
-/
import Fred.Hotstuff.UpdateSpec

namespace Fred.Hotstuff

open Fred.Forest

variable {V : Type}

/-- A queued event is about a linked object; a queued vote is on the object's hash. -/
def Event.Ok (h : Heap) : Event → Prop
  | .vote cert block _ => h.Settled block ∧ h.hash block = cert.hash
  | .proposal block _ => block ≠ genesisPtr ∧ h.Settled block

/-- An accepted block event is about an object that was made for it. -/
def NetEvent.Ok (h : Heap) : NetEvent → Prop
  | .vote _ _ => True
  | .proposal block _ => block ≠ genesisPtr ∧ block < h.next
  | .blockReceive block _ => block ≠ genesisPtr ∧ block < h.next

/-- Objects stay linked, and keep their hashes. -/
theorem Event.Ok.mono {h h' : Heap} (H : Heap.Extends h h') {e : Event} (he : e.Ok h) :
    e.Ok h' := by
  cases e with
  | vote cert block rid => exact ⟨H.settled he.1, (H.hash_eq he.1).trans he.2⟩
  | proposal block rid => exact ⟨he.1, H.settled he.2⟩

/-- Objects that were made stay made. -/
theorem NetEvent.Ok.mono {h h' : Heap} (hle : h.next ≤ h'.next) {e : NetEvent} (he : e.Ok h) :
    e.Ok h' := by
  cases e with
  | vote cert voter => trivial
  | proposal block proposer => exact ⟨he.1, lt_of_lt_of_le he.2 hle⟩
  | blockReceive block sender => exact ⟨he.1, lt_of_lt_of_le he.2 hle⟩

/-- What a replica keeps between two steps. -/
structure WellFormed (E : Setup V) (s : Replica V) : Prop where
  shape : Shape E.crypto s.heap s.blockStore.blockCache
  collector : s.blockStore.gcCollector.BoundedBy (s.heap.height s.bExec - Replica.keepDepth)
  hqc_settled : s.heap.Settled s.hqc.1
  hqc_hash : s.hqc.2.justify = s.heap.hash s.hqc.1
  lock_stored : s.blockStore.blockCache (s.heap.hash s.bLock) = some s.bLock
  exec_stored : s.blockStore.blockCache (s.heap.hash s.bExec) = some s.bExec
  leaf_settled : s.heap.Settled s.bLeaf
  events : ∀ e ∈ s.eventQueue, e.Ok s.heap
  netEvents : ∀ e ∈ s.netEvents, e.Ok s.heap
  genesis_written : (s.heap.get genesisPtr).writtenToDisk = true
  written_closed : ∀ p q, s.heap.parent p = some q → (s.heap.get p).writtenToDisk = true →
    (s.heap.get q).writtenToDisk = true
  unsettled_flags : ∀ p, p < s.heap.next → ¬ s.heap.Settled p →
    (s.heap.get p).decided = false ∧ (s.heap.get p).writtenToDisk = false

namespace WellFormed

variable {E : Setup V} {s s' : Replica V}

/-- The parent links are a forest. -/
theorem forest (W : WellFormed E s) : IsForest s.heap.parent s.heap.height := W.shape.forest

/-- The locked block is genesis or linked. -/
theorem lock_settled (W : WellFormed E s) : s.heap.Settled s.bLock :=
  W.shape.settled_of_stored W.lock_stored

/-- The last executed block is genesis or linked. -/
theorem exec_settled (W : WellFormed E s) : s.heap.Settled s.bExec :=
  W.shape.settled_of_stored W.exec_stored

/-- After `init_clean`. -/
theorem start (E : Setup V) : WellFormed E (Hotstuff.start E) where
  shape := Shape.init E.crypto
  collector := BlockGarbageCollector.boundedBy_init
  hqc_settled := Or.inl rfl
  hqc_hash := rfl
  lock_stored := rfl
  exec_stored := rfl
  leaf_settled := Or.inl rfl
  events := fun _ he => absurd he List.not_mem_nil
  netEvents := fun _ he => absurd he List.not_mem_nil
  genesis_written := rfl
  written_closed := fun _ _ hq => by cases hq
  unsettled_flags := fun p hp hset => absurd (Or.inl (Nat.lt_one_iff.mp hp)) hset

/-! ### Parts of a step that leave the tree alone -/

/-- The parts that change statuses only: the collector, `write_to_disk`, the commit loop, votes. The
collector's bound, the lock, the executed block and the flags are asked for. -/
theorem of_sameCores (W : WellFormed E s) (H : Heap.SameCores s.heap s'.heap)
    (hcache : s'.blockStore.blockCache = s.blockStore.blockCache) (hhqc : s'.hqc = s.hqc)
    (hleaf : s'.bLeaf = s.bLeaf) (hnet : s'.netEvents = s.netEvents)
    (hev : ∀ e ∈ s'.eventQueue, e ∈ s.eventQueue)
    (hgc : s'.blockStore.gcCollector.BoundedBy (s.heap.height s'.bExec - Replica.keepDepth))
    (hlock : s.blockStore.blockCache (s.heap.hash s'.bLock) = some s'.bLock)
    (hexec : s.blockStore.blockCache (s.heap.hash s'.bExec) = some s'.bExec)
    (hwritten : ∀ p, (s'.heap.get p).writtenToDisk = true → p < s.heap.next →
      s.heap.Settled p)
    (hgen : (s'.heap.get genesisPtr).writtenToDisk = true)
    (hclosed : ∀ p q, s.heap.parent p = some q → (s'.heap.get p).writtenToDisk = true →
      (s'.heap.get q).writtenToDisk = true)
    (hdecided : ∀ p, (s'.heap.get p).decided = true → p < s.heap.next → s.heap.Settled p) :
    WellFormed E s' where
  shape := hcache ▸ W.shape.congr H
  collector := by rw [H.height_eq]; exact hgc
  hqc_settled := by rw [hhqc, H.settled_iff]; exact W.hqc_settled
  hqc_hash := by rw [hhqc, H.hash_eq]; exact W.hqc_hash
  lock_stored := by rw [hcache, H.hash_eq]; exact hlock
  exec_stored := by rw [hcache, H.hash_eq]; exact hexec
  leaf_settled := by rw [hleaf, H.settled_iff]; exact W.leaf_settled
  events := fun e he => (W.events e (hev e he)).mono H.extends
  netEvents := fun e he => (W.netEvents e (hnet ▸ he)).mono H.next_eq.ge
  genesis_written := hgen
  written_closed := by rw [H.parent_eq]; exact hclosed
  unsettled_flags := by
    intro p hp hset
    rw [H.next_eq] at hp
    rw [H.settled_iff] at hset
    constructor
    · rcases hd : (s'.heap.get p).decided with _ | _
      · rfl
      · exact absurd (hdecided p hd hp) hset
    · rcases hw : (s'.heap.get p).writtenToDisk with _ | _
      · rfl
      · exact absurd (hwritten p hw hp) hset

/-- Only linked objects are decided. -/
theorem settled_of_decided (W : WellFormed E s) {p : BlockPtr} (hp : p < s.heap.next)
    (hd : (s.heap.get p).decided = true) : s.heap.Settled p := by
  by_contra hset
  rw [(W.unsettled_flags p hp hset).1] at hd
  cases hd

/-- Only linked objects are written to disk. -/
theorem settled_of_written (W : WellFormed E s) {p : BlockPtr} (hp : p < s.heap.next)
    (hd : (s.heap.get p).writtenToDisk = true) : s.heap.Settled p := by
  by_contra hset
  rw [(W.unsettled_flags p hp hset).2] at hd
  cases hd

/-- As `of_sameCores`, for parts that set no flag and move neither lock nor executed block. -/
theorem of_sameFlags (W : WellFormed E s) (H : Heap.SameCores s.heap s'.heap)
    (hcache : s'.blockStore.blockCache = s.blockStore.blockCache) (hhqc : s'.hqc = s.hqc)
    (hleaf : s'.bLeaf = s.bLeaf) (hnet : s'.netEvents = s.netEvents)
    (hev : ∀ e ∈ s'.eventQueue, e ∈ s.eventQueue) (hlock : s'.bLock = s.bLock)
    (hexec : s'.bExec = s.bExec)
    (hgc : s'.blockStore.gcCollector.BoundedBy (s.heap.height s.bExec - Replica.keepDepth))
    (hw : ∀ p, (s'.heap.get p).writtenToDisk = (s.heap.get p).writtenToDisk)
    (hd : ∀ p, (s'.heap.get p).decided = (s.heap.get p).decided) : WellFormed E s' := by
  apply W.of_sameCores H hcache hhqc hleaf hnet hev
  · rw [hexec]
    exact hgc
  · rw [hlock]
    exact W.lock_stored
  · rw [hexec]
    exact W.exec_stored
  · intro p hp hn
    exact W.settled_of_written hn ((hw p).symm.trans hp)
  · rw [hw]
    exact W.genesis_written
  · intro p q hq hp
    rw [hw] at hp ⊢
    exact W.written_closed p q hq hp
  · intro p hp hn
    exact W.settled_of_decided hn ((hd p).symm.trans hp)

/-- What a round of the collector leaves is well formed. -/
theorem collected (W : WellFormed E s)
    (c : Replica.Collected (s.heap.height s.bExec - Replica.keepDepth) s s') : WellFormed E s' :=
  W.of_sameFlags c.flushed.sameCores c.keeps.cache_eq c.keeps.hqc_eq c.keeps.bLeaf_eq
    c.keeps.netEvents_eq (fun _ he => c.keeps.eventQueue_eq ▸ he) c.keeps.bLock_eq
    c.keeps.bExec_eq c.bounded c.flushed.writtenToDisk_eq c.flushed.decided_eq

/-! ### Parts of a step that add to the tree -/

/-- Parts that add objects or links and leave flags and state variables alone. -/
theorem of_extends (W : WellFormed E s) (H : Heap.Extends s.heap s'.heap)
    (S' : Shape E.crypto s'.heap s'.blockStore.blockCache)
    (hcache : ∀ {x p}, s.blockStore.blockCache x = some p → s'.blockStore.blockCache x = some p)
    (hgc : ∀ {n}, s.blockStore.gcCollector.BoundedBy n → s'.blockStore.gcCollector.BoundedBy n)
    (hhqc : s'.hqc = s.hqc) (hlock : s'.bLock = s.bLock) (hexec : s'.bExec = s.bExec)
    (hleaf : s'.heap.Settled s'.bLeaf) (hev : ∀ e ∈ s'.eventQueue, e.Ok s'.heap)
    (hnet : ∀ e ∈ s'.netEvents, e.Ok s'.heap)
    (hflags : ∀ p, p < s.heap.next →
      (s'.heap.get p).decided = (s.heap.get p).decided ∧
        (s'.heap.get p).writtenToDisk = (s.heap.get p).writtenToDisk)
    (hnew : ∀ p, s.heap.next ≤ p → p < s'.heap.next →
      (s'.heap.get p).decided = false ∧ (s'.heap.get p).writtenToDisk = false) :
    WellFormed E s' where
  shape := S'
  collector := by
    rw [hexec, H.height_eq W.exec_settled]
    exact hgc W.collector
  hqc_settled := by rw [hhqc]; exact H.settled W.hqc_settled
  hqc_hash := by rw [hhqc, H.hash_eq W.hqc_settled]; exact W.hqc_hash
  lock_stored := by rw [hlock, H.hash_eq W.lock_settled]; exact hcache W.lock_stored
  exec_stored := by rw [hexec, H.hash_eq W.exec_settled]; exact hcache W.exec_stored
  leaf_settled := hleaf
  events := hev
  netEvents := hnet
  genesis_written := (hflags genesisPtr W.shape.next_pos).2.trans W.genesis_written
  written_closed := by
    intro p q hq hp
    -- a flagged object was settled before, so this link is not a new one
    have hlt : p < s.heap.next := by
      by_contra hn
      rw [(hnew p (Nat.not_lt.mp hn) (S'.lt_next_of_parent hq)).2] at hp
      cases hp
    rw [(hflags p hlt).2] at hp
    have hset := W.settled_of_written hlt hp
    rw [H.parent_eq hset] at hq
    rw [(hflags q (W.shape.lt_next_of_settled (W.shape.settled_parent hq))).2]
    exact W.written_closed p q hq hp
  unsettled_flags := by
    intro p hp hset
    by_cases hlt : p < s.heap.next
    · rw [(hflags p hlt).1, (hflags p hlt).2]
      exact W.unsettled_flags p hlt fun h => hset (H.settled h)
    · exact hnew p (Nat.not_lt.mp hlt) hp

/-- A new object is not linked yet. -/
theorem alloc (W : WellFormed E s) {b : HotstuffBlock} (hb : b.IsNew E.crypto)
    (hflags : b.decided = false ∧ b.writtenToDisk = false) (net : List NetEvent)
    (hnet : ∀ e ∈ net, e ∈ s.netEvents ∨ e.Ok (s.heap.alloc b)) :
    WellFormed E { s with heap := s.heap.alloc b, netEvents := net } := by
  have H := W.shape.extends_alloc b
  refine W.of_extends H (W.shape.alloc hb) id id rfl rfl rfl (H.settled W.leaf_settled)
    ?_ ?_ ?_ ?_
  · exact fun e he => (W.events e he).mono H
  · intro e he
    rcases hnet e he with h | h
    · exact (W.netEvents e h).mono H.next_le
    · exact h
  · intro p hp
    show ((s.heap.alloc b).get p).decided = _ ∧ ((s.heap.alloc b).get p).writtenToDisk = _
    rw [Heap.get_alloc_of_ne _ _ (Nat.ne_of_lt hp)]
    exact ⟨rfl, rfl⟩
  · intro p hge hlt
    have hp : p = s.heap.next := Nat.le_antisymm (Nat.le_of_lt_succ hlt) hge
    subst hp
    show ((s.heap.alloc b).get s.heap.next).decided = _ ∧ _
    rw [Heap.get_alloc_next]
    exact hflags

/-- `insert_block` on an object that was made before. -/
theorem insertBlock (W : WellFormed E s) {p : BlockPtr} (hp : p ≠ genesisPtr)
    (hlt : p < s.heap.next) :
    WellFormed E (Replica.insertBlock p s).2 ∧
      Heap.Extends s.heap (Replica.insertBlock p s).2.heap ∧
      ((Replica.insertBlock p s).1 = true → (Replica.insertBlock p s).2.heap.Settled p) := by
  unfold Replica.insertBlock
  rcases insertBlock_cases W.shape hp hlt with ⟨m, hm, h⟩ | ⟨q, j, hq, hj, h⟩
  · rw [h]
    refine ⟨⟨W.shape, W.collector, W.hqc_settled, W.hqc_hash, W.lock_stored, W.exec_stored,
      W.leaf_settled, W.events, W.netEvents, W.genesis_written, W.written_closed,
      W.unsettled_flags⟩, Heap.Extends.refl _, ?_⟩
    simp [hm]
  · rw [h]
    have H : Heap.Extends s.heap (s.heap.link p q j) := W.shape.extends_link hp hq hj
    have hget : ∀ x, ((s.heap.link p q j).get x).decided = (s.heap.get x).decided ∧
        ((s.heap.link p q j).get x).writtenToDisk = (s.heap.get x).writtenToDisk := by
      intro x
      by_cases hx : x = p
      · subst hx
        rw [Heap.get_link_self]
        exact ⟨rfl, rfl⟩
      · rw [Heap.get_link_of_ne _ _ _ hx]
        exact ⟨rfl, rfl⟩
    refine ⟨?_, H, fun _ => Or.inr ⟨q, Heap.parent_link_self _ p q j⟩⟩
    refine W.of_extends H (W.shape.link hp hlt hq hj) BlockStore.blockCache_emplace_of_some
      (fun hgc => ⟨hgc.pending, hgc.running⟩) rfl rfl rfl (H.settled W.leaf_settled) ?_ ?_ ?_ ?_
    · exact fun e he => (W.events e he).mono H
    · exact fun e he => (W.netEvents e he).mono H.next_le
    · exact fun x _ => hget x
    · exact fun x hge hx => absurd hx (Nat.not_lt.mpr hge)

/-! ### Parts of a step that change other fields -/

/-- Fields `WellFormed` does not speak about may change, and the queue may get a sound event. -/
theorem withQueue (W : WellFormed E s) {q : List Event} (hq : ∀ e ∈ q, e ∈ s.eventQueue ∨ e.Ok s.heap)
    (sch : List ℕ) (tr : List Effect) (vm : V) (vh : BitVec 32) (qc : Option Hash)
    (files : Hash → Option HotstuffBlockWire) (index : HotstuffLMDB) :
    WellFormed E
      { s with
        eventQueue := q, schedule := sch, trace := tr, vm := vm, vheight := vh, latestNewQc := qc
        files := files, decidedHashIndex := index } :=
  ⟨W.shape, W.collector, W.hqc_settled, W.hqc_hash, W.lock_stored, W.exec_stored, W.leaf_settled,
    fun e he => (hq e he).elim (W.events e) id, W.netEvents, W.genesis_written, W.written_closed,
    W.unsettled_flags⟩

/-- An event about an object that was made may be accepted. -/
theorem withNetEvent (W : WellFormed E s) {e : NetEvent} (he : e.Ok s.heap) :
    WellFormed E { s with netEvents := s.netEvents ++ [e] } :=
  ⟨W.shape, W.collector, W.hqc_settled, W.hqc_hash, W.lock_stored, W.exec_stored, W.leaf_settled,
    W.events, fun x hx => (List.mem_append.mp hx).elim (W.netEvents x)
      fun h => List.mem_singleton.mp h ▸ he,
    W.genesis_written, W.written_closed, W.unsettled_flags⟩

/-- A sound event may be queued. -/
theorem validateAndAddEvent (W : WellFormed E s) {e : Event} (he : e.Ok s.heap)
    (h : s.validateAndAddEvent e = .ok s') : WellFormed E s' := by
  have hadd : WellFormed E { s with eventQueue := s.eventQueue ++ [e] } := by
    apply W.withQueue
    intro x hx
    rcases List.mem_append.mp hx with hx | hx
    · exact Or.inl hx
    · exact Or.inr (List.mem_singleton.mp hx ▸ he)
  unfold Replica.validateAndAddEvent at h
  split at h <;> split at h
  · cases h
  · exact Except.ok.inj h ▸ hadd
  · exact Except.ok.inj h ▸ W
  · exact Except.ok.inj h ▸ hadd

/-- The new highest certified block is linked, and carries the hash of the certificate. -/
theorem updateHqc (W : WellFormed E s) {b : BlockPtr} {qc : QuorumCertificate}
    (hb : s.heap.Settled b) (hqc : qc.objHash = s.heap.hash b) :
    WellFormed E (Replica.updateHqc b qc s) := by
  unfold Replica.updateHqc
  split
  · exact ⟨W.shape, W.collector, hb, hqc, W.lock_stored, W.exec_stored, hb, W.events, W.netEvents,
      W.genesis_written, W.written_closed, W.unsettled_flags⟩
  · exact W

/-- A certificate on the hash of its block may be collected. -/
theorem setSelfQc (W : WellFormed E s) {b : BlockPtr} {qc : QuorumCertificate}
    (hqc : qc.objHash = s.heap.hash b) : WellFormed E (Replica.setSelfQc b qc s) := by
  have H : Heap.SameCores s.heap (Replica.setSelfQc b qc s).heap := by
    rw [Replica.heap_setSelfQc]
    apply Heap.sameCores_modify
    show { (s.heap.get b).core with hash := qc.objHash } = (s.heap.get b).core
    rw [hqc]
    rfl
  have hget : ∀ p, ((Replica.setSelfQc b qc s).heap.get p).decided = (s.heap.get p).decided ∧
      ((Replica.setSelfQc b qc s).heap.get p).writtenToDisk = (s.heap.get p).writtenToDisk := by
    intro p
    rw [Replica.heap_setSelfQc]
    by_cases hp : p = b
    · subst hp
      rw [Heap.get_modify_self]
      exact ⟨rfl, rfl⟩
    · rw [Heap.get_modify_of_ne _ _ hp]
      exact ⟨rfl, rfl⟩
  exact W.of_sameFlags H rfl rfl rfl rfl (fun _ he => he) rfl rfl W.collector
    (fun p => (hget p).2) fun p => (hget p).1

/-! ### `update` -/

/-- The lock moves up to a linked block, and that is written with all below it. -/
theorem lockAndWrite (W : WellFormed E s) {blk1 : BlockPtr}
    (hblk1 : s.blockStore.blockCache (s.heap.hash blk1) = some blk1) :
    Replica.WriteSpec (s.heap.height s.bExec - Replica.keepDepth) (Replica.newLock blk1 s)
        (Replica.setLock (Replica.newLock blk1 s) s) (Replica.lockAndWrite E blk1 s) ∧
      WellFormed E (Replica.lockAndWrite E blk1 s) := by
  have hstored : s.blockStore.blockCache (s.heap.hash (Replica.newLock blk1 s)) =
      some (Replica.newLock blk1 s) := by
    rcases Replica.newLock_cases blk1 s with ⟨h, -⟩ | ⟨h, -⟩
    · rw [h]
      exact hblk1
    · rw [h]
      exact W.lock_stored
  rw [Replica.lockAndWrite_eq]
  have spec : Replica.WriteSpec (s.heap.height s.bExec - Replica.keepDepth)
      (Replica.newLock blk1 s) (Replica.setLock (Replica.newLock blk1 s) s)
      (Replica.writeToDisk E (s.heap.height (Replica.newLock blk1 s) + 1) (Replica.newLock blk1 s)
        (Replica.setLock (Replica.newLock blk1 s) s)) :=
    Replica.writeToDisk_spec E W.shape W.collector hstored W.genesis_written
      (fun p q _ => W.written_closed p q) (Nat.lt_succ_self _)
  refine ⟨spec, ?_⟩
  have hset := W.shape.settled_of_stored hstored
  refine W.of_sameCores spec.aged.cores spec.keeps.cache_eq spec.keeps.hqc_eq spec.keeps.bLeaf_eq
    spec.keeps.netEvents_eq (fun e he => spec.keeps.eventQueue_eq ▸ he) ?_ ?_ ?_ ?_ ?_ ?_ ?_
  · rw [spec.keeps.bExec_eq]
    exact spec.bounded
  · rw [spec.keeps.bLock_eq]
    exact hstored
  · rw [spec.keeps.bExec_eq]
    exact W.exec_stored
  · intro p hp hn
    rcases (spec.written_iff p).mp hp with h | h
    · exact W.settled_of_written hn h
    · exact W.shape.settled_descends hset h
  · exact (spec.written_iff _).mpr (Or.inl W.genesis_written)
  · intro p q hq hp
    rcases (spec.written_iff p).mp hp with h | h
    · exact (spec.written_iff q).mpr (Or.inl (W.written_closed p q hq h))
    · exact (spec.written_iff q).mpr (Or.inr (h.trans (Descends.single hq)))
  · intro p hp hn
    rw [spec.decided_eq] at hp
    exact W.settled_of_decided hn hp

/-- A commit that returns. -/
theorem commitBlocks (W : WellFormed E s) {blk1 blk : BlockPtr} {queue : List BlockPtr}
    (hblk : s.blockStore.blockCache (s.heap.hash blk) = some blk)
    (hexec : Descends s.heap.parent blk s.bExec)
    (hqueue : ∀ x ∈ queue, Descends s.heap.parent blk x)
    (h : Replica.commitBlocks E blk1 blk queue s = .ok s') : WellFormed E s' := by
  obtain ⟨tx, s₃, A, rfl⟩ := Replica.commitBlocks_ok W.collector h
  have hset := W.shape.settled_of_stored hblk
  have hle := W.forest.height_le hexec
  refine W.of_sameCores A.aged.cores A.keeps.cache_eq A.keeps.hqc_eq A.keeps.bLeaf_eq
    A.keeps.netEvents_eq (fun e he => A.keeps.eventQueue_eq ▸ he) ?_ ?_ hblk ?_ ?_ ?_ ?_
  · constructor
    · intro n hn
      obtain rfl := Option.some.inj hn
      show _ ≤ s.heap.height blk - Replica.keepDepth
      split <;> omega
    · intro n i hn
      have := A.bounded.running n i hn
      show _ ≤ s.heap.height blk - Replica.keepDepth
      omega
  · rw [show _ = s.bLock from A.keeps.bLock_eq]
    exact W.lock_stored
  · intro p hp hn
    exact W.settled_of_written hn ((A.written_eq p).symm.trans hp)
  · exact (A.written_eq genesisPtr).trans W.genesis_written
  · intro p q hq hp
    exact (A.written_eq q).trans (W.written_closed p q hq ((A.written_eq p).symm.trans hp))
  · intro p hp hn
    rcases (A.decided_iff p).mp hp with h | h
    · exact W.settled_of_decided hn h
    · exact W.shape.settled_descends hset (hqueue p h)

end WellFormed

end Fred.Hotstuff
