/-
# Fred.Hotstuff.Outside -- the steps of a replica

Every invariant of a run is proved from the inversion lemma of this module. A step is a proposal
event, or it is `Outside` consensus: it adds objects, links and queue entries, works on certificates
or flushes bodies, and leaves lock, executed block, voting height, flags, index and files alone
(`step_cases`).
-/
import Fred.Hotstuff.Steps
import Fred.Lib.Transition

namespace Fred.Hotstuff

open Fred.Forest

variable {V : Type} {E : Setup V} {s s' : Replica V}

/-- Taking an event off the queue keeps the state well formed. -/
theorem WellFormed.popEvent (W : WellFormed E s) (schedule : List ℕ) {e : Event} {rest : List Event}
    (hq : s.eventQueue = e :: rest) :
    WellFormed E { s with eventQueue := rest, schedule := schedule } := by
  refine W.withQueue (fun x hx => Or.inl ?_) _ _ _ _ _ _ _
  rw [hq]
  exact List.mem_cons_of_mem e hx

namespace Replica

/-! ## The blocks the collector knows -/

/-- The collector knows linked objects only. -/
def Listed (s : Replica V) : Prop :=
  ∀ p, s.blockStore.gcCollector.Lists p → s.heap.Settled p

/-- The collector still knows linked objects only, and has cleared no body but theirs. -/
def Sweeps (s s' : Replica V) : Prop :=
  s.Listed → s'.Listed ∧ ∀ p, p < s.heap.next → (s'.heap.get p).flushedFromMemory = true →
    (s.heap.get p).flushedFromMemory = true ∨ s.heap.Settled p

/-- A part that touches neither the collector nor the bodies. -/
theorem sweeps_refl (s : Replica V) : Sweeps s s := fun hl => ⟨hl, fun _ _ hf => Or.inl hf⟩

/-- What happens within an event, where no object is linked. -/
structure Swept (s₀ s : Replica V) : Prop where
  settled_iff : ∀ p, s.heap.Settled p ↔ s₀.heap.Settled p
  listed : s.Listed
  flushed : ∀ p, (s.heap.get p).flushedFromMemory = true →
    (s₀.heap.get p).flushedFromMemory = true ∨ s₀.heap.Settled p

namespace Swept

variable {s₀ : Replica V}

/-- Nothing has happened yet. -/
theorem refl (hl : s.Listed) : Swept s s := ⟨fun _ => Iff.rfl, hl, fun _ hf => Or.inl hf⟩

/-- A part that sweeps from every state whose collector knows linked objects only. -/
theorem sweeps (h : s.Listed → Swept s s') : Sweeps s s' :=
  fun hl => ⟨(h hl).listed, fun p _ => (h hl).flushed p⟩

/-- Changes of flags, certificates and state variables. -/
theorem congr (h : Swept s₀ s) (hparent : s'.heap.parent = s.heap.parent)
    (hstore : s'.blockStore.gcCollector.gcList = s.blockStore.gcCollector.gcList ∧
      s'.blockStore.gcCollector.gcListBuffer = s.blockStore.gcCollector.gcListBuffer)
    (hflushed : ∀ p, (s'.heap.get p).flushedFromMemory = (s.heap.get p).flushedFromMemory) :
    Swept s₀ s' where
  settled_iff := by
    intro p
    unfold Heap.Settled
    rw [hparent]
    exact h.settled_iff p
  listed := by
    intro p hp
    unfold Heap.Settled
    rw [hparent]
    unfold BlockGarbageCollector.Lists at hp
    rw [hstore.1, hstore.2] at hp
    exact h.listed p hp
  flushed := by
    intro p hp
    rw [hflushed] at hp
    exact h.flushed p hp

/-- One object changes in a field other than its links and its body. -/
theorem modify (h : Swept s₀ s) (p : BlockPtr) (f : HotstuffBlock → HotstuffBlock)
    (hparent : (f (s.heap.get p)).parentBlockPtr = (s.heap.get p).parentBlockPtr)
    (hflushed : (f (s.heap.get p)).flushedFromMemory = (s.heap.get p).flushedFromMemory) :
    Swept s₀ { s with heap := s.heap.modify p f } := by
  refine h.congr ?_ ⟨rfl, rfl⟩ ?_
  · funext q
    show ((s.heap.modify p f).get q).parentBlockPtr = (s.heap.get q).parentBlockPtr
    by_cases hq : q = p
    · subst hq
      rw [Heap.get_modify_self]
      exact hparent
    · rw [Heap.get_modify_of_ne _ _ hq]
  · intro q
    show ((s.heap.modify p f).get q).flushedFromMemory = (s.heap.get q).flushedFromMemory
    by_cases hq : q = p
    · subst hq
      rw [Heap.get_modify_self]
      exact hflushed
    · rw [Heap.get_modify_of_ne _ _ hq]

/-- A round of the collector clears bodies of objects it lists. -/
theorem collect (h : Swept s₀ s) (hparent : s.collect.heap.parent = s.heap.parent) :
    Swept s₀ s.collect := by
  obtain ⟨hlists, hflush⟩ :=
    BlockGarbageCollector.collect_lists s.blockStore.gcCollector s.heap
  have hset : ∀ p, s.collect.heap.Settled p ↔ s.heap.Settled p := by
    intro p
    unfold Heap.Settled
    rw [hparent]
  refine ⟨fun p => (hset p).trans (h.settled_iff p), ?_, ?_⟩
  · exact fun p hp => (hset p).mpr (h.listed p (hlists p hp))
  · intro p hp
    rcases hflush p hp with hf | hl
    · exact h.flushed p hf
    · exact Or.inr ((h.settled_iff p).mp (h.listed p hl))

end Swept

/-! ## Steps outside consensus -/

/-- A step that is no proposal event: state variables, index, files and flags stay, blocks far below
the executed block may be flushed, new objects come with their body, and nothing is done to the
outside but proposing. -/
structure Outside (E : Setup V) (s s' : Replica V) : Prop where
  heap : Heap.Extends s.heap s'.heap
  cache : ∀ {x p}, s.blockStore.blockCache x = some p → s'.blockStore.blockCache x = some p
  bLock_eq : s'.bLock = s.bLock
  bExec_eq : s'.bExec = s.bExec
  vheight_eq : s'.vheight = s.vheight
  index_eq : s'.decidedHashIndex = s.decidedHashIndex
  files_eq : s'.files = s.files
  flags : ∀ p, p < s.heap.next → (s'.heap.get p).decided = (s.heap.get p).decided ∧
    (s'.heap.get p).writtenToDisk = (s.heap.get p).writtenToDisk
  bodies : ∀ p, p < s.heap.next →
    ((s'.heap.get p).flushedFromMemory = true → (s.heap.get p).flushedFromMemory = true ∨
      s.heap.height p < s.heap.height s.bExec - keepDepth) ∧
    ((s'.heap.get p).flushedFromMemory = false → (s.heap.get p).flushedFromMemory = false ∧
      (s'.heap.get p).wireBlock = (s.heap.get p).wireBlock)
  new : ∀ p, s.heap.next ≤ p → p < s'.heap.next →
    (s'.heap.get p).decided = false ∧ (s'.heap.get p).writtenToDisk = false ∧
      (s'.heap.get p).flushedFromMemory = false ∧
      E.crypto.hashBody (s'.heap.get p).wireBlock.body = (s'.heap.header p).bodyHash
  sweeps : Sweeps s s'
  trace_eq : ∃ effs, s'.trace = s.trace ++ effs ∧ ∀ e ∈ effs, ∃ p x, e = .proposed p x

namespace Outside

/-- Nothing has happened yet. -/
theorem refl (s : Replica V) : Outside E s s where
  heap := Heap.Extends.refl _
  cache := id
  bLock_eq := rfl
  bExec_eq := rfl
  vheight_eq := rfl
  index_eq := rfl
  files_eq := rfl
  flags := fun _ _ => ⟨rfl, rfl⟩
  bodies := fun _ _ => ⟨Or.inl, fun h => ⟨h, rfl⟩⟩
  new := fun _ hge hlt => absurd hlt (Nat.not_lt.mpr hge)
  sweeps := sweeps_refl s
  trace_eq := ⟨[], by rw [List.append_nil], fun _ he => absurd he List.not_mem_nil⟩

/-- Fields that `Outside` does not speak about may change. -/
theorem congr {s'' : Replica V} (o : Outside E s s') (hheap : s''.heap = s'.heap)
    (hstore : s''.blockStore = s'.blockStore) (hlock : s''.bLock = s'.bLock)
    (hexec : s''.bExec = s'.bExec) (hvh : s''.vheight = s'.vheight)
    (hindex : s''.decidedHashIndex = s'.decidedHashIndex) (hfiles : s''.files = s'.files)
    (htrace : s''.trace = s'.trace) : Outside E s s'' where
  heap := hheap ▸ o.heap
  cache := fun h => hstore ▸ o.cache h
  bLock_eq := hlock.trans o.bLock_eq
  bExec_eq := hexec.trans o.bExec_eq
  vheight_eq := hvh.trans o.vheight_eq
  index_eq := hindex.trans o.index_eq
  files_eq := hfiles.trans o.files_eq
  flags := hheap ▸ o.flags
  bodies := hheap ▸ o.bodies
  new := hheap ▸ o.new
  sweeps := by
    have h := o.sweeps
    unfold Sweeps Listed at h ⊢
    rw [hheap, hstore]
    exact h
  trace_eq := htrace ▸ o.trace_eq

/-- An event is queued or dropped. -/
theorem validateAndAddEvent {s'' : Replica V} {e : Event} (o : Outside E s s')
    (h : s'.validateAndAddEvent e = .ok s'') : Outside E s s'' := by
  unfold Replica.validateAndAddEvent at h
  split at h <;> split at h
  · cases h
  · exact Except.ok.inj h ▸ o.congr rfl rfl rfl rfl rfl rfl rfl rfl
  · exact Except.ok.inj h ▸ o
  · exact Except.ok.inj h ▸ o.congr rfl rfl rfl rfl rfl rfl rfl rfl

/-- The highest certificate is no part of the chain. -/
theorem updateHqc {b : BlockPtr} {qc : QuorumCertificate} (o : Outside E s s') :
    Outside E s (Replica.updateHqc b qc s') := by
  unfold Replica.updateHqc
  split
  · exact o.congr rfl rfl rfl rfl rfl rfl rfl rfl
  · exact o

/-- A new object, with its body. -/
theorem alloc (W : WellFormed E s) {b : HotstuffBlock}
    (hflags : b.decided = false ∧ b.writtenToDisk = false ∧ b.flushedFromMemory = false ∧
      E.crypto.hashBody b.wireBlock.body = b.wireBlock.header.bodyHash) (net : List NetEvent) :
    Outside E s { s with heap := s.heap.alloc b, netEvents := net } where
  heap := W.shape.extends_alloc b
  cache := id
  bLock_eq := rfl
  bExec_eq := rfl
  vheight_eq := rfl
  index_eq := rfl
  files_eq := rfl
  flags := by
    intro p hp
    show ((s.heap.alloc b).get p).decided = _ ∧ ((s.heap.alloc b).get p).writtenToDisk = _
    rw [Heap.get_alloc_of_ne _ _ (Nat.ne_of_lt hp)]
    exact ⟨rfl, rfl⟩
  bodies := by
    intro p hp
    show (((s.heap.alloc b).get p).flushedFromMemory = true → _) ∧
      (((s.heap.alloc b).get p).flushedFromMemory = false → _ ∧
        ((s.heap.alloc b).get p).wireBlock = _)
    rw [Heap.get_alloc_of_ne _ _ (Nat.ne_of_lt hp)]
    exact ⟨Or.inl, fun h => ⟨h, rfl⟩⟩
  new := by
    intro p hge hlt
    have hp : p = s.heap.next := Nat.le_antisymm (Nat.le_of_lt_succ hlt) hge
    subst hp
    show ((s.heap.alloc b).get s.heap.next).decided = false ∧
      ((s.heap.alloc b).get s.heap.next).writtenToDisk = false ∧
      ((s.heap.alloc b).get s.heap.next).flushedFromMemory = false ∧
      E.crypto.hashBody ((s.heap.alloc b).get s.heap.next).wireBlock.body =
        ((s.heap.alloc b).get s.heap.next).wireBlock.header.bodyHash
    rw [Heap.get_alloc_next]
    exact hflags
  sweeps := by
    intro hl
    refine ⟨fun p hp => (W.shape.extends_alloc b).settled (hl p hp), fun p hp hf => ?_⟩
    have hget : (s.heap.alloc b).get p = s.heap.get p := Heap.get_alloc_of_ne _ _ (Nat.ne_of_lt hp)
    have hf' : ((s.heap.alloc b).get p).flushedFromMemory = true := hf
    rw [hget] at hf'
    exact Or.inl hf'
  trace_eq := ⟨[], by rw [List.append_nil], fun _ he => absurd he List.not_mem_nil⟩

/-- Linking changes no status. -/
theorem insertBlock (W' : WellFormed E s') (o : Outside E s s') {p : BlockPtr}
    (hp : p ≠ genesisPtr) (hlt : p < s'.heap.next) : Outside E s (Replica.insertBlock p s').2 := by
  unfold Replica.insertBlock
  rcases insertBlock_cases W'.shape hp hlt with ⟨m, -, h⟩ | ⟨q, j, hq, hj, h⟩
  · rw [h]
    exact o.congr rfl rfl rfl rfl rfl rfl rfl rfl
  · rw [h]
    have hext : Heap.Extends s'.heap (s'.heap.link p q j) := W'.shape.extends_link hp hq hj
    have hget : ∀ x, ((s'.heap.link p q j).get x).decided = (s'.heap.get x).decided ∧
        ((s'.heap.link p q j).get x).writtenToDisk = (s'.heap.get x).writtenToDisk ∧
        ((s'.heap.link p q j).get x).flushedFromMemory = (s'.heap.get x).flushedFromMemory ∧
        ((s'.heap.link p q j).get x).wireBlock = (s'.heap.get x).wireBlock := by
      intro x
      by_cases hx : x = p
      · subst hx
        rw [Heap.get_link_self]
        exact ⟨rfl, rfl, rfl, rfl⟩
      · rw [Heap.get_link_of_ne _ _ _ hx]
        exact ⟨rfl, rfl, rfl, rfl⟩
    refine
      { heap := o.heap.trans hext
        cache := fun hc => BlockStore.blockCache_emplace_of_some (o.cache hc)
        bLock_eq := o.bLock_eq, bExec_eq := o.bExec_eq, vheight_eq := o.vheight_eq
        index_eq := o.index_eq, files_eq := o.files_eq
        flags := ?_, bodies := ?_, new := ?_, sweeps := ?_, trace_eq := o.trace_eq }
    · intro x hx
      show ((s'.heap.link p q j).get x).decided = _ ∧
        ((s'.heap.link p q j).get x).writtenToDisk = _
      rw [(hget x).1, (hget x).2.1]
      exact o.flags x hx
    · intro x hx
      show (((s'.heap.link p q j).get x).flushedFromMemory = true → _) ∧
        (((s'.heap.link p q j).get x).flushedFromMemory = false → _ ∧
          ((s'.heap.link p q j).get x).wireBlock = _)
      rw [(hget x).2.2.1, (hget x).2.2.2]
      exact o.bodies x hx
    · intro x hge hx
      obtain ⟨hd, hw, hf, hb⟩ := o.new x hge hx
      refine ⟨(hget x).1.trans hd, (hget x).2.1.trans hw, (hget x).2.2.1.trans hf, ?_⟩
      show E.crypto.hashBody ((s'.heap.link p q j).get x).wireBlock.body =
        ((s'.heap.link p q j).get x).wireBlock.header.bodyHash
      rw [(hget x).2.2.2]
      exact hb
    · intro hl
      obtain ⟨hl', hflushed⟩ := o.sweeps hl
      refine ⟨fun x hx => ?_, fun x hx hf => hflushed x hx ((hget x).2.2.1.symm.trans hf)⟩
      -- the inserted object is linked now
      rcases hx with hx | hx
      · exact hext.settled (hl' x (Or.inl hx))
      · rcases List.mem_append.mp hx with hx | hx
        · exact hext.settled (hl' x (Or.inr hx))
        · rw [List.mem_singleton.mp hx]
          exact Or.inr ⟨q, Heap.parent_link_self _ _ _ _⟩

/-- Collecting a vote changes no status. -/
theorem setSelfQc {b : BlockPtr} {qc : QuorumCertificate} (hqc : qc.objHash = s.heap.hash b) :
    Outside E s (Replica.setSelfQc b qc s) := by
  have hget : ∀ x, (Replica.setSelfQc b qc s).heap.get x = s.heap.get x ∨
      (Replica.setSelfQc b qc s).heap.get x = { s.heap.get x with selfQc := qc } := by
    intro x
    rw [heap_setSelfQc]
    by_cases hx : x = b
    · subst hx
      exact Or.inr (Heap.get_modify_self _ _ _)
    · exact Or.inl (Heap.get_modify_of_ne _ _ hx)
  have hcore : Heap.SameCores s.heap (Replica.setSelfQc b qc s).heap := by
    rw [heap_setSelfQc]
    apply Heap.sameCores_modify
    show { (s.heap.get b).core with hash := qc.objHash } = (s.heap.get b).core
    rw [hqc]
    rfl
  refine
    { heap := hcore.extends, cache := id, bLock_eq := rfl, bExec_eq := rfl, vheight_eq := rfl
      index_eq := rfl, files_eq := rfl
      flags := ?_, bodies := ?_
      new := fun p hge hlt => absurd hlt (Nat.not_lt.mpr hge)
      sweeps := Swept.sweeps fun hl => (Swept.refl hl).modify _ _ rfl rfl
      trace_eq := ⟨[], by rw [List.append_nil]; rfl, fun _ he => absurd he List.not_mem_nil⟩ }
  · intro p _
    rcases hget p with h | h <;> rw [h] <;> exact ⟨rfl, rfl⟩
  · intro p _
    rcases hget p with h | h <;> rw [h] <;> exact ⟨Or.inl, fun h => ⟨h, rfl⟩⟩

/-- A round of the collector outside an event. -/
theorem collect (W : WellFormed E s) : Outside E s s.collect := by
  have c := collect_spec W.collector
  exact
    { heap := c.flushed.sameCores.extends
      cache := fun h => c.keeps.cache_eq ▸ h
      bLock_eq := c.keeps.bLock_eq
      bExec_eq := c.keeps.bExec_eq
      vheight_eq := c.keeps.vheight_eq
      index_eq := c.keeps.index_eq
      files_eq := c.files_eq
      flags := fun p _ => ⟨c.flushed.decided_eq p, c.flushed.writtenToDisk_eq p⟩
      bodies := fun p _ => ⟨c.flushed.aged.flushed_of p, c.flushed.aged.unflushed_of p⟩
      new := fun p hge hlt => absurd hlt (Nat.not_lt.mpr (c.flushed.1 ▸ hge))
      sweeps := Swept.sweeps fun hl => (Swept.refl hl).collect c.flushed.sameCores.parent_eq
      trace_eq :=
        ⟨[], by rw [c.trace_eq, List.append_nil], fun _ he => absurd he List.not_mem_nil⟩ }

end Outside

/-! ## The steps one by one -/

/-- The body of a block that passes the check has the hash in its header. -/
theorem validated {wire : HotstuffBlockWire} {source : ReplicaID}
    (h : (HotstuffBlock.receiveBlock E.crypto wire source).validateHotstuff E.crypto E.config =
      .ok true) : E.crypto.hashBody wire.body = wire.header.bodyHash := by
  unfold HotstuffBlock.validateHotstuff at h
  split at h
  · cases h
  · rename_i hv
    simpa [HotstuffBlock.validateHash, HotstuffBlock.receiveBlock] using hv

/-- The common end of `receivePropose` and `receiveFetched`. -/
theorem acceptBlock_ok (W : WellFormed E s) {wire : HotstuffBlockWire} {source : ReplicaID}
    {event : BlockPtr → NetEvent} (hev : ∀ b, (event b) = .proposal b source ∨
      (event b) = .blockReceive b source) (h : acceptBlock E wire source event s = .ok s') :
    Outside E s s' ∧ WellFormed E s' := by
  unfold acceptBlock at h
  dsimp only at h
  split at h
  · cases h
  · obtain rfl := Except.ok.inj h
    exact ⟨Outside.refl s, W⟩
  · rename_i hv
    obtain rfl := Except.ok.inj h
    refine ⟨Outside.alloc W ⟨rfl, rfl, rfl, validated hv⟩ _,
      W.alloc (HotstuffBlock.isNew_receiveBlock _ _ _) ⟨rfl, rfl⟩ _ ?_⟩
    intro e he
    rcases List.mem_append.mp he with he | he
    · exact Or.inl he
    · right
      rw [List.mem_singleton.mp he]
      have hne : s.heap.next ≠ genesisPtr := Nat.ne_of_gt W.shape.next_pos
      rcases hev s.heap.next with h | h <;> rw [h] <;> exact ⟨hne, Nat.lt_succ_self _⟩

/-- Running an accepted event. -/
theorem onNetEvent_ok (W : WellFormed E s) {e : NetEvent} (he : e.Ok s.heap)
    (h : onNetEvent e s = .ok s') : Outside E s s' ∧ WellFormed E s' := by
  cases e with
  | vote cert voter =>
      unfold onNetEvent at h
      dsimp only at h
      split at h
      · obtain rfl := Except.ok.inj h
        exact ⟨Outside.refl s, W⟩
      · rename_i blk hblk
        obtain ⟨hhash, hset⟩ := W.shape.cached hblk
        have hok : Event.Ok s.heap (.vote cert blk voter) := ⟨hset, hhash⟩
        exact ⟨(Outside.refl s).validateAndAddEvent h, W.validateAndAddEvent hok h⟩
  | proposal blk proposer =>
      have o := Outside.insertBlock W (Outside.refl s) he.1 he.2
      obtain ⟨W₁, -, hset⟩ := W.insertBlock he.1 he.2
      unfold onNetEvent at h
      dsimp only at h
      split at h
      · rename_i s₁ hins
        obtain rfl := Except.ok.inj h
        rw [hins] at o W₁
        exact ⟨o, W₁⟩
      · rename_i s₁ hins
        rw [hins] at o W₁ hset
        have hok : Event.Ok s₁.heap (.proposal blk proposer) := ⟨he.1, hset rfl⟩
        exact ⟨o.validateAndAddEvent h, W₁.validateAndAddEvent hok h⟩
  | blockReceive blk sender =>
      obtain rfl := Except.ok.inj h
      exact ⟨Outside.insertBlock W (Outside.refl s) he.1 he.2, (W.insertBlock he.1 he.2).1⟩

/-- A vote event, which may bring a quorum. -/
theorem onReceiveVote_ok (W : WellFormed E s) {cert : PartialCertificateWire} {b : BlockPtr}
    {rid : ReplicaID} (hset : s.heap.Settled b) (h : onReceiveVote E cert b rid s = .ok s') :
    Outside E s s' ∧ WellFormed E s' := by
  unfold onReceiveVote at h
  dsimp only at h
  split at h
  · cases h
  · rename_i qc hqc
    have hobj : qc.objHash = s.heap.hash b := QuorumCertificate.objHash_addPartialCertificate hqc
    have W₁ := W.setSelfQc hobj
    have o₁ : Outside E s (setSelfQc b qc s) := Outside.setSelfQc hobj
    have hset₁ : (setSelfQc b qc s).heap.Settled b := o₁.heap.settled hset
    have hobj₁ : qc.objHash = (setSelfQc b qc s).heap.hash b :=
      hobj.trans (o₁.heap.hash_eq hset).symm
    split at h
    · obtain rfl := Except.ok.inj h
      exact ⟨o₁.updateHqc.congr rfl rfl rfl rfl rfl rfl rfl rfl,
        (W₁.updateHqc hset₁ hobj₁).withQueue (fun _ he => Or.inl he) _ _ _ _ _ _ _⟩
    · obtain rfl := Except.ok.inj h
      exact ⟨o₁, W₁⟩

/-- A proposal that returns: the new object is linked below `b_leaf`, queued and sent. -/
theorem proposeBody_ok (W : WellFormed E s) {body : List UInt8} (h : proposeBody E body s = .ok s') :
    Outside E s s' ∧ WellFormed E s' := by
  unfold proposeBody at h
  generalize hb : HotstuffBlock.mintBlock E.crypto body s.hqc.2 (s.heap.hash s.bLeaf) E.selfId = b
    at h
  have hnew : b.IsNew E.crypto := hb ▸ HotstuffBlock.isNew_mintBlock _ _ _ _ _
  have hflags : b.decided = false ∧ b.writtenToDisk = false ∧ b.flushedFromMemory = false ∧
      E.crypto.hashBody b.wireBlock.body = b.wireBlock.header.bodyHash := by
    rw [← hb]
    exact ⟨rfl, rfl, rfl, rfl⟩
  have o₁ := Outside.alloc W hflags s.netEvents
  have W₁ := W.alloc hnew ⟨hflags.1, hflags.2.1⟩ s.netEvents fun e he => Or.inl he
  have hne : s.heap.next ≠ genesisPtr := Nat.ne_of_gt W.shape.next_pos
  have o₂ := Outside.insertBlock W₁ o₁ hne (Nat.lt_succ_self _)
  obtain ⟨W₂, -, hset⟩ := W₁.insertBlock hne (Nat.lt_succ_self _)
  unfold insertBlock at o₂ W₂ hset
  dsimp only at h o₂ W₂ hset
  generalize s.blockStore.insertBlock (s.heap.alloc b) s.heap.next = r at h o₂ W₂ hset
  obtain ⟨store, heap, missing⟩ := r
  dsimp only at h o₂ W₂ hset
  rcases hm : missing.any with _ | _
  · rw [hm] at h hset
    have hlinked := hset rfl
    simp only [Bool.false_eq_true, if_false] at h
    split at h
    · cases h
    · rename_i s₃ hadd
      obtain rfl := Except.ok.inj h
      have hok : Event.Ok heap (.proposal s.heap.next E.selfId) := ⟨hne, hlinked⟩
      have W₃ : WellFormed E { s with heap := heap, blockStore := store, bLeaf := s.heap.next } :=
        ⟨W₂.shape, W₂.collector, W₂.hqc_settled, W₂.hqc_hash, W₂.lock_stored, W₂.exec_stored, hlinked,
          W₂.events, W₂.netEvents, W₂.genesis_written, W₂.written_closed, W₂.unsettled_flags⟩
      have o₃ : Outside E s { s with heap := heap, blockStore := store, bLeaf := s.heap.next } :=
        o₂.congr rfl rfl rfl rfl rfl rfl rfl rfl
      have o₄ := o₃.validateAndAddEvent hadd
      have W₄ := W₃.validateAndAddEvent hok hadd
      obtain ⟨effs, htr, heffs⟩ := o₄.trace_eq
      refine ⟨{ o₄ with trace_eq := ?_ }, W₄.withQueue (fun _ he => Or.inl he) _ _ _ _ _ _ _⟩
      refine ⟨effs ++ [.proposed s.heap.next (s₃.heap.hash s.heap.next)], ?_, ?_⟩
      · show s₃.trace ++ [_] = _
        rw [htr, List.append_assoc]
      · intro e he
        rcases List.mem_append.mp he with he | he
        · exact heffs e he
        · exact ⟨_, _, List.mem_singleton.mp he⟩
  · rw [hm] at h
    cases h

/-- Both proposing functions: asking the machine for a body changes the machine only. -/
theorem proposeWith_ok (W : WellFormed E s) {nonempty : Bool}
    (h : proposeWith E nonempty s = .ok s') : Outside E s s' ∧ WellFormed E s' := by
  unfold proposeWith at h
  split at h
  · cases h
  · rename_i body vm _
    have W₁ : WellFormed E { s with vm := vm } := W.withQueue (fun _ he => Or.inl he) _ _ _ _ _ _ _
    obtain ⟨o, W'⟩ := proposeBody_ok W₁ h
    exact ⟨{ o with }, W'⟩

end Replica

open Replica

/-! ## The inversion lemma -/

/-- A proposal event: the queue moves on, a vote may be cast, `update` runs. -/
structure ProposalStep (E : Setup V) (schedule : List ℕ) (p : BlockPtr) (rid : ReplicaID)
    (rest : List Event) (s s₁ s' : Replica V) : Prop where
  queue_eq : s.eventQueue = .proposal p rid :: rest
  ne_genesis : p ≠ genesisPtr
  settled : s.heap.Settled p
  vote : voteOnProposal E p rid { s with eventQueue := rest, schedule := schedule } = .ok s₁
  wellFormed : WellFormed E s₁
  call : Replica.update E p s₁ = .ok s'
  update : UpdateOk E p s₁ s'

/-- A proposal event that returns. -/
theorem proposalStep_ok (W : WellFormed E s) {schedule : List ℕ} {p : BlockPtr} {rid : ReplicaID}
    {rest : List Event} (hq : s.eventQueue = .proposal p rid :: rest)
    (h : onReceiveProposal E p rid { s with eventQueue := rest, schedule := schedule } = .ok s') :
    ∃ s₁, ProposalStep E schedule p rid rest s s₁ s' ∧ WellFormed E s' := by
  have he : Event.Ok s.heap (.proposal p rid) := W.events _ (hq ▸ List.mem_cons_self)
  have W₀ := W.popEvent schedule hq
  unfold onReceiveProposal at h
  split at h
  · cases h
  · rename_i s₁ hv
    have W₁ : WellFormed E s₁ := by
      rcases voteOnProposal_ok W₀ he.1 he.2 hv with v | ⟨rfl, -⟩
      · exact v.wellFormed W₀
      · exact W₀
    obtain ⟨hu, W'⟩ := update_ok W₁ h
    exact ⟨s₁, ⟨hq, he.1, he.2, hv, W₁, h, hu⟩, W'⟩

/-- **What a step that returns has done.** -/
theorem step_cases {i : Input} (W : WellFormed E s) (h : step E i s = .ok s') :
    WellFormed E s' ∧ (Outside E s s' ∨
      ∃ schedule p rid rest s₁, i = .event schedule ∧ ProposalStep E schedule p rid rest s s₁ s') := by
  cases i with
  | proposeMessage proposal proposer =>
      unfold step receivePropose at h
      dsimp only at h
      split at h
      · obtain rfl := Except.ok.inj h
        exact ⟨W, Or.inl (Outside.refl s)⟩
      · obtain ⟨o, W'⟩ := acceptBlock_ok W (fun _ => Or.inl rfl) h
        exact ⟨W', Or.inl o⟩
  | voteMessage vote voter =>
      unfold step receiveVote at h
      dsimp only at h
      split at h
      · obtain rfl := Except.ok.inj h
        exact ⟨W, Or.inl (Outside.refl s)⟩
      · split at h
        · cases h
        · split at h
          · obtain rfl := Except.ok.inj h
            exact ⟨W.withNetEvent trivial,
              Or.inl ((Outside.refl s).congr rfl rfl rfl rfl rfl rfl rfl rfl)⟩
          · obtain rfl := Except.ok.inj h
            exact ⟨W, Or.inl (Outside.refl s)⟩
  | fetchResponse response sender =>
      obtain ⟨o, W'⟩ := acceptBlock_ok W (fun _ => Or.inr rfl) h
      exact ⟨W', Or.inl o⟩
  | netEvent e =>
      unfold step at h
      dsimp only at h
      split at h
      · rename_i he
        obtain ⟨o, W'⟩ := onNetEvent_ok W (W.netEvents e he) h
        exact ⟨W', Or.inl o⟩
      · obtain rfl := Except.ok.inj h
        exact ⟨W, Or.inl (Outside.refl s)⟩
  | event schedule =>
      unfold step at h
      dsimp only at h
      split at h
      · obtain rfl := Except.ok.inj h
        exact ⟨W, Or.inl (Outside.refl s)⟩
      · rename_i e rest hq
        have he : e.Ok s.heap := W.events e (hq ▸ List.mem_cons_self)
        have W₀ := W.popEvent schedule hq
        cases e with
        | vote cert block rid =>
            obtain ⟨o, W'⟩ := onReceiveVote_ok W₀ he.1 h
            exact ⟨W', Or.inl { o with }⟩
        | proposal p rid =>
            obtain ⟨s₁, hstep, W'⟩ := proposalStep_ok W hq h
            exact ⟨W', Or.inr ⟨schedule, p, rid, rest, s₁, rfl, hstep⟩⟩
  | doPropose =>
      obtain ⟨o, W'⟩ := proposeWith_ok W h
      exact ⟨W', Or.inl o⟩
  | doEmptyPropose =>
      obtain ⟨o, W'⟩ := proposeWith_ok W h
      exact ⟨W', Or.inl o⟩
  | collect =>
      obtain rfl := Except.ok.inj h
      have c := collect_spec W.collector
      exact ⟨W.collected c, Or.inl (Outside.collect W)⟩
  | runVm =>
      obtain rfl := Except.ok.inj h
      exact ⟨W.withQueue (fun _ he => Or.inl he) _ _ _ _ _ _ _,
        Or.inl ((Outside.refl s).congr rfl rfl rfl rfl rfl rfl rfl rfl)⟩

end Fred.Hotstuff
