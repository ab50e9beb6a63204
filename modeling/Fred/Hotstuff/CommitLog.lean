/-
# Fred.Hotstuff.CommitLog -- the sequence of committed blocks

Five records of what is committed go together in every run: the blocks passed to `apply_block`, the
parent chain of `b_exec`, the decided flags, the data index and the `qc` entry. `CommitLog` says so;
it is kept by every step (`CommitLog.step`), because a commit is the only step that touches any of
them (`commit_rule`) and extends them all by the same commit queue. The part of it that does not speak
of what happened since the process started is `IndexLog`.
-/
import Fred.Hotstuff.Outside
import Fred.Hotstuff.Instance

namespace Fred.Hotstuff

open Fred.Forest Fred.Transition

variable {V : Type} {E : Setup V} {s s' : Replica V}

/-! ## What is recorded -/

/-- The block of an `apply_block`. -/
def Effect.appliedBlock : Effect → Option BlockPtr
  | .applied block _ _ => some block
  | _ => none

namespace Replica

/-- The blocks passed to `apply_block` so far, in order. -/
def appliedBlocks (s : Replica V) : List BlockPtr := s.trace.filterMap Effect.appliedBlock

/-- The parent chain from height 1 up to `b_exec`, in ascending order. -/
def executedChain (s : Replica V) : List BlockPtr :=
  (trunk s.heap.parent s.heap.height s.bExec).reverse

/-- The keys of the data index with the hashes they map to. -/
def indexedHashes (s : Replica V) : List (ℕ × Hash) :=
  s.decidedHashIndex.data.map fun e => (e.height, e.hash)

/-- The `qc` entry is the certificate some stored child of `b_exec` carries on it. -/
def QcOnExec (s : Replica V) : Prop :=
  ∃ c qc, s.blockStore.blockCache (s.heap.hash c) = some c ∧ s.heap.parent c = some s.bExec ∧
    s.heap.justify c = some s.bExec ∧ s.decidedHashIndex.qc = some qc ∧
    qc = (s.heap.get c).getJustifyQc.serialize ∧ qc.justify = s.heap.hash s.bExec

end Replica

open Replica

/-- What is committed stays as it was: objects and links may be added, statuses other than the decided
flags may change. -/
structure Stays (s s' : Replica V) : Prop where
  heap : Heap.Extends s.heap s'.heap
  cache : ∀ {x p}, s.blockStore.blockCache x = some p → s'.blockStore.blockCache x = some p
  bExec_eq : s'.bExec = s.bExec
  index_eq : s'.decidedHashIndex = s.decidedHashIndex
  applied_eq : s'.appliedBlocks = s.appliedBlocks
  decided_eq : ∀ p, p < s.heap.next → (s'.heap.get p).decided = (s.heap.get p).decided
  new : ∀ p, s.heap.next ≤ p → p < s'.heap.next → (s'.heap.get p).decided = false

theorem mem_executedChain (W : WellFormed E s) {p : BlockPtr} :
    p ∈ s.executedChain ↔ Descends s.heap.parent s.bExec p ∧ p ≠ genesisPtr := by
  unfold executedChain
  rw [List.mem_reverse, W.forest.mem_trunk]
  constructor
  · rintro ⟨hd, hpos⟩
    refine ⟨hd, ?_⟩
    rintro rfl
    rw [W.shape.height_genesis] at hpos
    exact absurd hpos (lt_irrefl 0)
  · rintro ⟨hd, hne⟩
    exact ⟨hd, W.shape.height_pos (W.shape.settled_descends W.exec_settled hd) hne⟩

/-- The heights of the executed chain are 1, 2, .. up to that of `b_exec`. -/
theorem heights_executedChain (W : WellFormed E s) :
    s.executedChain.map s.heap.height = List.range' 1 (s.heap.height s.bExec) := by
  unfold executedChain
  rw [List.map_reverse, W.forest.map_height_trunk, List.reverse_reverse]

theorem executedChain_ascending (W : WellFormed E s) :
    s.executedChain.Pairwise fun p q => s.heap.height p < s.heap.height q := by
  apply List.pairwise_map.mp
  rw [heights_executedChain W]
  exact List.pairwise_lt_range'

namespace Stays

theorem executedChain_eq (h : Stays s s') (W : WellFormed E s) (W' : WellFormed E s') :
    s'.executedChain = s.executedChain := by
  unfold executedChain
  rw [h.bExec_eq, W.shape.trunk_eq W'.shape h.heap W.exec_settled]

theorem appliedBlocks_append {effs : List Effect} (htrace : s'.trace = s.trace ++ effs)
    (h : ∀ e ∈ effs, e.appliedBlock = none) : s'.appliedBlocks = s.appliedBlocks := by
  unfold appliedBlocks
  rw [htrace, List.filterMap_append, List.filterMap_eq_nil_iff.mpr h, List.append_nil]

theorem outside (o : Outside E s s') : Stays s s' where
  heap := o.heap
  cache := o.cache
  bExec_eq := o.bExec_eq
  index_eq := o.index_eq
  applied_eq := by
    obtain ⟨effs, htrace, heffs⟩ := o.trace_eq
    apply appliedBlocks_append htrace
    intro e he
    obtain ⟨p, x, rfl⟩ := heffs e he
    rfl
  decided_eq := fun p hp => (o.flags p hp).1
  new := fun p hge hlt => (o.new p hge hlt).1

/-- A part of a step that changes statuses only. -/
theorem of_sameCores (H : Heap.SameCores s.heap s'.heap)
    (hcache : s'.blockStore.blockCache = s.blockStore.blockCache) (hexec : s'.bExec = s.bExec)
    (hindex : s'.decidedHashIndex = s.decidedHashIndex)
    (happlied : s'.appliedBlocks = s.appliedBlocks)
    (hdecided : ∀ p, (s'.heap.get p).decided = (s.heap.get p).decided) : Stays s s' where
  heap := H.extends
  cache := fun h => hcache ▸ h
  bExec_eq := hexec
  index_eq := hindex
  applied_eq := happlied
  decided_eq := fun p _ => hdecided p
  new := fun _ hge hlt => absurd hlt (Nat.not_lt.mpr (H.next_eq ▸ hge))

theorem vote {bnew : BlockPtr} {rid : ReplicaID} (v : VoteSpec E bnew rid s s') : Stays s s' := by
  obtain ⟨q, -, rfl⟩ := v.eq
  refine of_sameCores (Heap.SameCores.refl _) rfl rfl rfl ?_ fun _ => rfl
  exact appliedBlocks_append rfl fun e he => by rw [List.mem_singleton.mp he]; rfl

theorem updateHqc (b : BlockPtr) (qc : QuorumCertificate) :
    Stays s (Replica.updateHqc b qc s) := by
  obtain ⟨hexec, hstore⟩ := updateHqc_frame b qc s
  have hheap := heap_updateHqc b qc s
  refine of_sameCores (by rw [hheap]; exact Heap.SameCores.refl _) (congrArg _ hstore) hexec
    (updateHqc_index _ _ _) ?_ fun p => by rw [hheap]
  unfold appliedBlocks
  rw [updateHqc_trace]

theorem decided_lockStage {nblk blk2 blk1 : BlockPtr} {s₂ : Replica V}
    (l : LockStage E nblk blk2 blk1 s s₂) (p : BlockPtr) :
    (s₂.heap.get p).decided = (s.heap.get p).decided := by
  have h : (s₂.heap.get p).decided =
      ((Replica.updateHqc blk2 (s.heap.get nblk).getJustifyQc s).heap.get p).decided :=
    l.spec.decided_eq p
  rw [heap_updateHqc] at h
  exact h

theorem lockStage {nblk blk2 blk1 : BlockPtr} {s₂ : Replica V}
    (l : LockStage E nblk blk2 blk1 s s₂) : Stays s s₂ := by
  obtain ⟨hexec, hstore⟩ := updateHqc_frame blk2 (s.heap.get nblk).getJustifyQc s
  refine of_sameCores l.spec.core_eq ?_ (l.spec.keeps.bExec_eq.trans hexec)
    (l.spec.keeps.index_eq.trans (updateHqc_index _ _ _)) ?_ ?_
  · rw [l.spec.keeps.cache_eq]
    exact congrArg BlockStore.blockCache hstore
  · obtain ⟨effs, htrace, hsaved, -⟩ := l.spec.trace_eq
    have htr : s₂.trace = s.trace ++ effs := by
      rw [htrace]
      show (Replica.updateHqc _ _ s).trace ++ effs = _
      rw [updateHqc_trace]
    apply appliedBlocks_append htr
    intro e he
    obtain ⟨x, w, rfl, -⟩ := hsaved e he
    rfl
  · exact decided_lockStage l

end Stays

section
variable {I : Replica V → Prop}
  (frame : ∀ {s s' : Replica V}, WellFormed E s → WellFormed E s' → Stays s s' → I s → I s')
  (commit : ∀ {s s₂ s₃ : Replica V} {nblk blk2 blk1 blk : BlockPtr} {queue : List BlockPtr}
    {tx : HotstuffLMDB.Txn}, WellFormed E s → CommitStage E nblk blk2 blk1 blk queue tx s s₂ s₃ →
    WellFormed E (committed blk1 blk tx s s₃) → I s → I (committed blk1 blk tx s s₃))
include frame commit

/-- What holds as long as nothing is committed, and is kept by a commit, is kept by `update`. -/
theorem update_rule (W : WellFormed E s) (hI : I s) {p : BlockPtr} (h : update E p s = .ok s') :
    I s' := by
  obtain ⟨hup, W'⟩ := update_ok W h
  cases hup with
  | early _ => exact hI
  | hqcOnly _ _ _ => exact frame W W' (Stays.updateHqc _ _) hI
  | lockOnly l => exact frame W W' (Stays.lockStage l) hI
  | commit c _ => exact commit W c W' hI

/-- **The rule for what is committed**: it is kept by every step. -/
theorem commit_rule (W : WellFormed E s) (hI : I s) {i : Input} (h : step E i s = .ok s') : I s' := by
  obtain ⟨W', o | ⟨sch, p, rid, rest, s₁, -, P⟩⟩ := step_cases W h
  · exact frame W W' (Stays.outside o) hI
  · have W₀ := W.popEvent sch P.queue_eq
    have hI₀ : I { s with eventQueue := rest, schedule := sch } :=
      frame W W₀ (Stays.of_sameCores (Heap.SameCores.refl _) rfl rfl rfl rfl fun _ => rfl) hI
    have hI₁ : I s₁ := by
      rcases voteOnProposal_ok W₀ P.ne_genesis P.settled P.vote with v | ⟨rfl, -⟩
      · exact frame W₀ P.wellFormed (Stays.vote v) hI₀
      · exact hI₀
    exact update_rule frame commit P.wellFormed hI₁ P.call

end

/-! ## The commit -/

/-- What `update` commits extends the executed chain by the commit queue. -/
theorem executedChain_committed {nblk blk2 blk1 blk : BlockPtr} {queue : List BlockPtr}
    {tx : HotstuffLMDB.Txn} {s₂ s₃ : Replica V}
    (c : CommitStage E nblk blk2 blk1 blk queue tx s s₂ s₃) :
    (committed blk1 blk tx s s₃).executedChain = s.executedChain ++ queue := by
  have hsame := c.lock.spec.core_eq.trans c.apply.aged.cores
  show (trunk s₃.heap.parent s₃.heap.height blk).reverse = _
  rw [hsame.parent_eq, hsame.height_eq]
  exact c.trunk_eq

theorem filterMap_applied (f : BlockPtr → Hash) (g : BlockPtr → ℕ) (queue : List BlockPtr) :
    (queue.map fun p => Effect.applied p (f p) (g p)).filterMap Effect.appliedBlock = queue := by
  rw [List.filterMap_map]
  exact List.filterMap_some

/-! ## The index -/

/-- Decided flags and index agree with the parent chain of `b_exec`. -/
structure IndexLog (s : Replica V) : Prop where
  decided_iff : ∀ p, p < s.heap.next →
    ((s.heap.get p).decided = true ↔ Descends s.heap.parent s.bExec p)
  indexed_eq : s.indexedHashes = s.executedChain.map fun p => (s.heap.height p, s.heap.hash p)
  qc_entry : s.bExec ≠ genesisPtr →
    ∃ qc, s.decidedHashIndex.qc = some qc ∧ qc.justify = s.heap.hash s.bExec
  qc_none : s.bExec = genesisPtr → s.decidedHashIndex.qc = none
  created : s.decidedHashIndex.persistedRound.isSome = true

namespace IndexLog

theorem start (E : Setup V) : IndexLog (Hotstuff.start E) where
  decided_iff := by
    intro p hp
    obtain rfl : p = genesisPtr := Nat.lt_one_iff.mp hp
    exact ⟨fun _ => Descends.refl _, fun _ => rfl⟩
  indexed_eq := rfl
  qc_entry := fun h => absurd rfl h
  qc_none := fun _ => rfl
  created := rfl

theorem frame (W : WellFormed E s) (W' : WellFormed E s') (h : Stays s s') (L : IndexLog s) :
    IndexLog s' := by
  have hdesc : ∀ p, Descends s'.heap.parent s'.bExec p ↔ Descends s.heap.parent s.bExec p := by
    intro p
    rw [h.bExec_eq]
    exact W.shape.descends_iff h.heap W.exec_settled
  refine ⟨?_, ?_, ?_, ?_, h.index_eq ▸ L.created⟩
  · intro p hp
    rw [hdesc p]
    by_cases hlt : p < s.heap.next
    · rw [h.decided_eq p hlt]
      exact L.decided_iff p hlt
    · rw [h.new p (Nat.not_lt.mp hlt) hp]
      constructor
      · intro hno
        cases hno
      · intro hd
        exact absurd (W.shape.lt_next_of_settled (W.shape.settled_descends W.exec_settled hd)) hlt
  · unfold indexedHashes
    rw [h.index_eq, h.executedChain_eq W W']
    refine L.indexed_eq.trans (List.map_congr_left fun x hp => ?_)
    have hset := W.shape.settled_descends W.exec_settled ((mem_executedChain W).mp hp).1
    rw [h.heap.height_eq hset, h.heap.hash_eq hset]
  · intro hne
    rw [h.bExec_eq] at hne ⊢
    rw [h.index_eq, h.heap.hash_eq W.exec_settled]
    exact L.qc_entry hne
  · intro hgen
    rw [h.index_eq]
    exact L.qc_none (h.bExec_eq ▸ hgen)

theorem commit {nblk blk2 blk1 blk : BlockPtr} {queue : List BlockPtr} {tx : HotstuffLMDB.Txn}
    {s₂ s₃ : Replica V} (W : WellFormed E s)
    (c : CommitStage E nblk blk2 blk1 blk queue tx s s₂ s₃) (L : IndexLog s) :
    IndexLog (committed blk1 blk tx s s₃) := by
  have hstays := Stays.lockStage c.lock
  have hcores₂ := c.lock.spec.core_eq
  have hsame := hcores₂.trans c.apply.aged.cores
  have hchain := executedChain_committed c
  have hne : blk ≠ genesisPtr := by
    rintro rfl
    have hgen : (s.heap.get genesisPtr).decided = true :=
      (L.decided_iff _ W.shape.next_pos).mpr (W.shape.descends_genesis W.exec_settled)
    rw [c.undecided₀] at hgen
    cases hgen
  refine ⟨?_, ?_, ?_, fun h => absurd h hne, rfl⟩
  · intro p hp
    have hlt : p < s.heap.next := hsame.next_eq ▸ hp
    show (s₃.heap.get p).decided = true ↔ Descends s₃.heap.parent blk p
    rw [c.apply.decided_iff, hstays.decided_eq p hlt, L.decided_iff p hlt, hsame.parent_eq,
      c.mem_queue]
    constructor
    · rintro (hd | ⟨hd, -⟩)
      · exact c.exec.trans hd
      · exact hd
    · intro hd
      rcases Nat.lt_or_ge (s.heap.height s.bExec) (s.heap.height p) with h | h
      · exact Or.inr ⟨hd, h⟩
      · exact Or.inl (W.forest.descends_of_height_le c.exec hd h)
  · obtain ⟨-, entries, hentries, hdata⟩ := c.apply.tx_eq
    have hdata₀ : s₂.decidedHashIndex.openTxn.data = s.decidedHashIndex.data := by
      rw [hstays.index_eq]
      rfl
    have hmap : (s.decidedHashIndex.data ++ entries).map (fun e => (e.height, e.hash)) =
        (s.executedChain ++ queue).map fun p => (s.heap.height p, s.heap.hash p) := by
      rw [List.map_append, List.map_append, hentries, ← L.indexed_eq, hcores₂.height_eq,
        hcores₂.hash_eq]
      rfl
    -- the keys ascend, so every `put` appends
    have hsorted : (s.decidedHashIndex.data ++ entries).Pairwise fun d e => d.height < e.height := by
      have hkeys : (s.decidedHashIndex.data ++ entries).map IndexEntry.height =
          List.range' 1 (s.heap.height blk) := by
        have h := congrArg (List.map Prod.fst) hmap
        rw [List.map_map, List.map_map] at h
        refine Eq.trans h ?_
        have hq : s.executedChain ++ queue = (trunk s.heap.parent s.heap.height blk).reverse :=
          c.trunk_eq.symm
        rw [hq, List.map_reverse]
        show ((trunk s.heap.parent s.heap.height blk).map s.heap.height).reverse = _
        rw [W.forest.map_height_trunk, List.reverse_reverse]
      have h := List.pairwise_lt_range' (s := 1) (n := s.heap.height blk)
      rw [← hkeys, List.pairwise_map] at h
      exact h
    show tx.data.map (fun e => (e.height, e.hash)) = _
    rw [hdata, hdata₀, HotstuffLMDB.foldl_put hsorted, hmap, hchain]
    refine List.map_congr_left fun p _ => ?_
    show _ = (s₃.heap.height p, s₃.heap.hash p)
    rw [hsame.height_eq, hsame.hash_eq]
  · intro _
    refine ⟨_, rfl, ?_⟩
    show (s.heap.get blk1).getJustifyQc.objHash = s₃.heap.hash blk
    rw [hsame.hash_eq]
    exact W.shape.objHash_getJustifyQc c.justify₀

/-- Every step keeps flags and index in agreement. -/
theorem step (L : IndexLog s) (W : WellFormed E s) {i : Input}
    (h : Hotstuff.step E i s = .ok s') : IndexLog s' :=
  commit_rule (I := IndexLog) frame (fun W c _ L => L.commit W c) W L h

end IndexLog

/-! ## The five records -/

/-- The five records agree. -/
structure CommitLog (s : Replica V) : Prop extends IndexLog s where
  applied_eq : s.appliedBlocks = s.executedChain
  qc_on_exec : s.bExec ≠ genesisPtr → s.QcOnExec

namespace CommitLog

theorem start (E : Setup V) : CommitLog (Hotstuff.start E) :=
  ⟨IndexLog.start E, rfl, fun h => absurd rfl h⟩

theorem frame (W : WellFormed E s) (W' : WellFormed E s') (h : Stays s s') (L : CommitLog s) :
    CommitLog s' := by
  refine ⟨L.toIndexLog.frame W W' h, ?_, ?_⟩
  · rw [h.applied_eq, h.executedChain_eq W W']
    exact L.applied_eq
  · intro hne
    rw [h.bExec_eq] at hne
    obtain ⟨c, qc, hc, hpar, hjus, hqc, hser, hon⟩ := L.qc_on_exec hne
    have hset := W.shape.settled_of_stored hc
    refine ⟨c, qc, ?_, ?_, ?_, h.index_eq ▸ hqc, ?_, ?_⟩
    · rw [h.heap.hash_eq hset]
      exact h.cache hc
    · rw [h.heap.parent_eq hset, h.bExec_eq]
      exact hpar
    · rw [h.heap.justify_eq hset, h.bExec_eq]
      exact hjus
    · have hget : (s'.heap.get c).getJustifyQc = (s.heap.get c).getJustifyQc :=
        congrArg (fun x => x.parsedQc.getD (.ofHash 0#256)) (h.heap.core_eq c hset)
      rw [hget]
      exact hser
    · rw [h.bExec_eq, h.heap.hash_eq W.exec_settled]
      exact hon

theorem commit {nblk blk2 blk1 blk : BlockPtr} {queue : List BlockPtr} {tx : HotstuffLMDB.Txn}
    {s₂ s₃ : Replica V} (W : WellFormed E s)
    (c : CommitStage E nblk blk2 blk1 blk queue tx s s₂ s₃) (L : CommitLog s) :
    CommitLog (committed blk1 blk tx s s₃) := by
  have hstays := Stays.lockStage c.lock
  have hsame := c.lock.spec.core_eq.trans c.apply.aged.cores
  refine ⟨L.toIndexLog.commit W c, ?_, ?_⟩
  · rw [executedChain_committed c, ← L.applied_eq, ← hstays.applied_eq]
    show s₃.trace.filterMap Effect.appliedBlock = _
    rw [c.apply.trace_eq, List.filterMap_append, filterMap_applied]
    rfl
  · intro _
    refine ⟨blk1, _, ?_, ?_, ?_, rfl, ?_, ?_⟩
    · show s₃.blockStore.blockCache (s₃.heap.hash blk1) = some blk1
      rw [c.apply.keeps.cache_eq, hsame.hash_eq]
      exact hstays.cache (W.shape.stored_justify c.lock.justify₁)
    · show s₃.heap.parent blk1 = some blk
      rw [hsame.parent_eq]
      exact c.parent₁
    · show s₃.heap.justify blk1 = some blk
      rw [hsame.justify_eq]
      exact c.justify₀
    · show _ = (s₃.heap.get blk1).getJustifyQc.serialize
      have hget : (s₃.heap.get blk1).getJustifyQc = (s.heap.get blk1).getJustifyQc :=
        congrArg (fun x => x.parsedQc.getD (.ofHash 0#256)) (hsame.core_eq blk1)
      rw [hget]
    · show (s.heap.get blk1).getJustifyQc.objHash = s₃.heap.hash blk
      rw [hsame.hash_eq]
      exact W.shape.objHash_getJustifyQc c.justify₀

/-- **Every step keeps the records in agreement.** -/
theorem step (L : CommitLog s) (W : WellFormed E s) {i : Input}
    (h : Hotstuff.step E i s = .ok s') : CommitLog s' :=
  commit_rule (I := CommitLog) frame (fun W c _ L => L.commit W c) W L h

end CommitLog

/-! ## Runs -/

/-- In every run from `init_clean` the replica is well formed and its records agree. -/
theorem wellFormed_commitLog_of_reach {P : Replica V → Input → Prop}
    (h : Reach (step E) P (start E) s) : WellFormed E s ∧ CommitLog s := by
  apply h.invariant (I := fun s => WellFormed E s ∧ CommitLog s)
  · exact ⟨WellFormed.start E, CommitLog.start E⟩
  · intro t u i ht _ hstep
    exact ⟨(step_cases ht.1 hstep).1, ht.2.step ht.1 hstep⟩

/-! ## A breach -/

theorem doVote_error {block : BlockPtr} {proposer : ReplicaID} {e : Exn}
    (h : doVote E block proposer s = .error (e, s')) : e ≠ .safetyBreached := by
  unfold doVote at h
  dsimp only at h
  split at h
  · unfold validateAndAddEvent at h
    dsimp only at h
    split at h
    · rw [← (Prod.mk.inj (Except.error.inj h)).1]
      decide
    · cases h
  · split at h
    · cases h
    · rw [← (Prod.mk.inj (Except.error.inj h)).1]
      decide

theorem voteOnProposal_error {bnew : BlockPtr} {proposer : ReplicaID} {e : Exn}
    (h : voteOnProposal E bnew proposer s = .error (e, s')) : e ≠ .safetyBreached := by
  unfold voteOnProposal at h
  split at h
  · split at h
    · rename_i r ho
      obtain rfl := Except.error.inj h
      unfold opinion at ho
      split at ho
      · rw [← (Prod.mk.inj (Except.error.inj ho)).1]
        decide
      · split at ho
        · cases ho
        · split at ho
          · rw [← (Prod.mk.inj (Except.error.inj ho)).1]
            decide
          · cases ho
    · exact doVote_error h
    · cases h
  · cases h

theorem onReceiveVote_error {cert : PartialCertificateWire} {b : BlockPtr} {rid : ReplicaID} {e : Exn}
    (h : onReceiveVote E cert b rid s = .error (e, s')) : e ≠ .safetyBreached := by
  unfold onReceiveVote at h
  dsimp only at h
  split at h
  · rename_i e' hadd
    rw [← (Prod.mk.inj (Except.error.inj h)).1]
    unfold QuorumCertificate.addPartialCertificate at hadd
    split_ifs at hadd
    · rw [← Except.error.inj hadd]
      decide
    · rw [← Except.error.inj hadd]
      decide
  · split at h <;> cases h

/-- An event that throws `safety breached` is a proposal whose call of `update` throws it. -/
theorem event_breach (W : WellFormed E s) {schedule : List ℕ}
    (h : step E (.event schedule) s = .error (.safetyBreached, s')) :
    ∃ p rid rest s₁, s.eventQueue = .proposal p rid :: rest ∧ p ≠ genesisPtr ∧ s.heap.Settled p ∧
      voteOnProposal E p rid { s with eventQueue := rest, schedule := schedule } = .ok s₁ ∧
      update E p s₁ = .error (.safetyBreached, s') := by
  unfold step at h
  dsimp only at h
  split at h
  · cases h
  · rename_i e rest hq
    have he : e.Ok s.heap := W.events e (hq ▸ List.mem_cons_self)
    cases e with
    | vote cert block rid => exact absurd rfl (onReceiveVote_error h)
    | proposal p rid =>
        unfold onEvent onReceiveProposal at h
        dsimp only at h
        split at h
        · rename_i r hv
          obtain rfl := Except.error.inj h
          exact absurd rfl (voteOnProposal_error hv)
        · rename_i s₁ hv
          exact ⟨p, rid, rest, s₁, hq, he.1, he.2, hv, h⟩

/-- A breach leaves the committed chain, the flags and the index as they were. -/
theorem breach_frame (W : WellFormed E s) {schedule : List ℕ}
    (h : step E (.event schedule) s = .error (.safetyBreached, s')) :
    s'.bExec = s.bExec ∧ s'.executedChain = s.executedChain ∧
      s'.appliedBlocks = s.appliedBlocks ∧ s'.decidedHashIndex = s.decidedHashIndex ∧
      ∀ p, (s'.heap.get p).decided = (s.heap.get p).decided := by
  obtain ⟨p, rid, rest, s₁, hq, hne, hset, hv, hu⟩ := event_breach W h
  have W₀ := W.popEvent schedule hq
  have hframe : s₁.bExec = s.bExec ∧ s₁.heap = s.heap ∧ s₁.appliedBlocks = s.appliedBlocks ∧
      s₁.decidedHashIndex = s.decidedHashIndex ∧ WellFormed E s₁ := by
    rcases voteOnProposal_ok W₀ hne hset hv with v | ⟨rfl, -⟩
    · have W₁ := v.wellFormed W₀
      obtain ⟨q, -, rfl⟩ := v.eq
      refine ⟨rfl, rfl, ?_, rfl, W₁⟩
      exact Stays.appliedBlocks_append rfl fun e he => by rw [List.mem_singleton.mp he]; rfl
    · exact ⟨rfl, rfl, rfl, rfl, W₀⟩
  obtain ⟨hexec, hheap, happlied, hindex, W₁⟩ := hframe
  obtain ⟨blk2, blk1, blk, l, -⟩ := update_breach W₁ hu
  have h := Stays.lockStage l
  refine ⟨h.bExec_eq.trans hexec, ?_, h.applied_eq.trans happlied, h.index_eq.trans hindex, ?_⟩
  · unfold executedChain
    rw [l.spec.core_eq.parent_eq, l.spec.core_eq.height_eq, h.bExec_eq, hexec, hheap]
  · intro x
    rw [Stays.decided_lockStage l, hheap]

/-! ## The commit log -/

/-- What the commit log of a replica is, once and for all: the applied blocks are the parent chain of
`b_exec` in ascending order of height, each once; they are the decided blocks of the store; the data
index maps 1, 2, .. to their hashes; the `qc` entry is on `b_exec`; a breach changes none of it. -/
structure CommitLogHolds (E : Setup V) (s : Replica V) : Prop where
  applied_eq : s.appliedBlocks = s.executedChain
  heights : s.appliedBlocks.map s.heap.height = List.range' 1 (s.heap.height s.bExec)
  mem_applied : ∀ p, p ∈ s.appliedBlocks ↔ Descends s.heap.parent s.bExec p ∧ p ≠ genesisPtr
  decided_iff : ∀ x p, s.blockStore.blockCache x = some p → p ≠ genesisPtr →
    ((s.heap.get p).decided = true ↔ p ∈ s.appliedBlocks)
  indexed_eq : s.indexedHashes = s.appliedBlocks.map fun p => (s.heap.height p, s.heap.hash p)
  keys : s.indexedHashes.map Prod.fst = List.range' 1 (s.heap.height s.bExec)
  qc_on_exec : s.bExec ≠ genesisPtr → s.QcOnExec
  breach : ∀ schedule s', step E (.event schedule) s = .error (.safetyBreached, s') →
    s'.bExec = s.bExec ∧ s'.executedChain = s.executedChain ∧
      s'.appliedBlocks = s.appliedBlocks ∧ s'.decidedHashIndex = s.decidedHashIndex ∧
      ∀ p, (s'.heap.get p).decided = (s.heap.get p).decided

/-- **The commit log of every run.** -/
theorem commit_log_holds (h : Reach (step E) anyInput (start E) s) : CommitLogHolds E s := by
  obtain ⟨W, L⟩ := wellFormed_commitLog_of_reach h
  have hheights := heights_executedChain W
  refine
    { applied_eq := L.applied_eq, heights := ?_, mem_applied := ?_, decided_iff := ?_
      indexed_eq := ?_, keys := ?_, qc_on_exec := L.qc_on_exec
      breach := fun _ _ hb => breach_frame W hb }
  · rw [L.applied_eq]
    exact hheights
  · intro p
    rw [L.applied_eq]
    exact mem_executedChain W
  · intro x p hp hne
    have hlt := W.shape.lt_next_of_settled (W.shape.cached hp).2
    rw [L.decided_iff p hlt, L.applied_eq, mem_executedChain W]
    exact ⟨fun hd => ⟨hd, hne⟩, fun hd => hd.1⟩
  · rw [L.indexed_eq, L.applied_eq]
  · rw [L.indexed_eq, List.map_map, ← hheights]
    rfl

/-- A single replica after six rounds has committed three blocks. -/
theorem commit_log_holds_solo : ∃ s : Replica Unit, s.appliedBlocks = [1, 2, 3] ∧
    CommitLogHolds (Instance.setup 1 0) s := by
  have hrun : Instance.observe (Instance.setup 1 0) (Instance.soloRounds 6) appliedBlocks =
      some [1, 2, 3] := by
    decide +kernel
  obtain ⟨s, hreach, happlied⟩ := Instance.exists_of_observe hrun
  exact ⟨s, happlied, commit_log_holds hreach⟩

end Fred.Hotstuff
