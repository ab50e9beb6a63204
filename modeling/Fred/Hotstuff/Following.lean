/-
# Fred.Hotstuff.Following -- a round at a replica that does not lead

A proposal message arrives, the network thread inserts the block, the consensus thread handles it. At
a replica that is `Ready` for the block -- nothing is queued, the parent and the certified block are
stored, what it has executed and locked does not stand in the way -- all three steps return, and it is
ready for the next block on top (`follow_ok`). What may be stored under the block's hash already is
another object of the same block, so the block itself is the stored object `c`.
-/
import Fred.Hotstuff.Rounds

namespace Fred.Hotstuff

open Fred.Forest Fred.Transition Replica

variable {V : Type} {E : Setup V} {s s' : Replica V} {K : Set HotstuffBlockHeader}

/-! ## Regular heaps -/

theorem Regular.sameCores (R : Regular K s) (H : Heap.SameCores s.heap s'.heap) : Regular K s' where
  header_mem := by
    intro p hp hlt
    rw [H.header_eq]
    exact R.header_mem p hp (H.next_eq ▸ hlt)
  height_lt := by
    intro p hlt
    rw [H.height_eq]
    exact R.height_lt p (H.next_eq ▸ hlt)

/-- A new object in circulation. -/
theorem Regular.alloc (R : Regular K s) (W : WellFormed E s) {b : HotstuffBlock}
    (hb : b.IsNew E.crypto) (hK : b.wireBlock.header ∈ K) (hheap : s'.heap = s.heap.alloc b) :
    Regular K s' where
  header_mem := by
    intro p hp hlt
    rw [hheap] at hlt ⊢
    show ((s.heap.alloc b).get p).wireBlock.header ∈ K
    rcases Nat.lt_succ_iff_lt_or_eq.mp hlt with hold | rfl
    · rw [Heap.get_alloc_of_ne _ _ (Nat.ne_of_lt hold)]
      exact R.header_mem p hp hold
    · rw [Heap.get_alloc_next]
      exact hK
  height_lt := by
    intro p hlt
    rw [hheap] at hlt ⊢
    rw [W.shape.height_alloc hb]
    rcases Nat.lt_succ_iff_lt_or_eq.mp hlt with hold | rfl
    · exact R.height_lt p hold
    · rw [(W.shape.unlinked s.heap.next (by
        show (s.heap.core _).parent = none
        rw [W.shape.fresh _ (Nat.le_refl _)]
        rfl)).2]
      exact Nat.two_pow_pos 32

/-- A new link below the bound. -/
theorem Regular.link (R : Regular K s) {p q j : BlockPtr} (hq : s.heap.height q + 1 < 2 ^ 32)
    (hheap : s'.heap = s.heap.link p q j) : Regular K s' where
  header_mem := by
    intro x hx hlt
    rw [hheap] at hlt ⊢
    rw [Heap.header_link]
    exact R.header_mem x hx hlt
  height_lt := by
    intro x hlt
    rw [hheap] at hlt ⊢
    by_cases hx : x = p
    · subst hx
      rw [Heap.height_link_self]
      exact hq
    · rw [Heap.height_link_of_ne _ _ _ hx]
      exact R.height_lt x hlt

/-! ## The network thread -/

namespace Replica

/-- A proposal whose parent and certified block are stored goes to the consensus thread. -/
theorem onNetEvent_proposal (W : WellFormed E s) {p q j : BlockPtr} {rid : ReplicaID}
    (hp : p ≠ genesisPtr) (hlt : p < s.heap.next) (hlinks : s.Links p q j) :
    onNetEvent (.proposal p rid) s = .ok ((s.linked p q j).enqueue (.proposal p rid)) := by
  have hins : insertBlock p s = (true, s.linked p q j) := by
    unfold insertBlock
    rw [insertBlock_of_cached W.shape hp hlt hlinks.parent hlinks.justify]
    rfl
  have hpos : (s.linked p q j).heap.height p ≠ 0 := by simp [height_linked]
  unfold onNetEvent
  dsimp only
  rw [hins]
  simp [validateAndAddEvent, hpos, enqueue]

/-- Objects of one header hang off the stored blocks it names. -/
theorem links_of_header (W : WellFormed E s) {p b j : BlockPtr} (hset : s.heap.Settled p)
    (hne : p ≠ genesisPtr) (hlinks : s.Links p b j) :
    s.heap.parent p = some b ∧ s.heap.justify p = some j := by
  obtain ⟨q, hq⟩ := hset.resolve_left hne
  obtain ⟨i, hi, hcache⟩ := W.shape.justify_cached hq
  rw [hq, hi]
  exact ⟨by rw [← hlinks.parent, ← W.shape.parent_cached hq], by rw [← hlinks.justify, ← hcache]⟩

/-- The vote on a hash that was sent to a replica. -/
def voteSent (s : Replica V) (x : Hash) (target : ReplicaID) : Option PartialCertificateWire :=
  s.trace.findSome? fun e => match e with
    | .voted _ _ cert t => if cert.hash = x ∧ t = target then some cert else none
    | _ => none

theorem voteSent_of_mem {p : BlockPtr} {n : ℕ} {cert : PartialCertificateWire} {target : ReplicaID}
    (h : Effect.voted p n cert target ∈ s.trace) : ∃ c, s.voteSent cert.hash target = some c := by
  rw [← Option.isSome_iff_exists]
  unfold voteSent
  rw [List.findSome?_isSome_iff]
  exact ⟨_, h, by simp⟩

theorem voteSent_eq {x : Hash} {target : ReplicaID} {cert : PartialCertificateWire}
    (D : Presentable E s) (h : s.voteSent x target = some cert) :
    cert = PartialCertificate.create E.crypto x E.secretKey := by
  unfold voteSent at h
  obtain ⟨e, he, hsome⟩ := List.exists_of_findSome?_eq_some h
  split at hsome
  · rename_i p n c t
    split at hsome
    · rename_i hc
      obtain rfl := Option.some.inj hsome
      obtain ⟨y, rfl⟩ := D.voted p n c t he
      rw [show y = x from hc.1]
    · cases hsome
  · cases hsome

end Replica

/-! ## Ready for a block -/

/-- The replica is ready for a block on the stored block `b` with a certificate on the stored block
`j`. -/
structure Ready (E : Setup V) (K : Set HotstuffBlockHeader) (x y : Hash) (b j : BlockPtr)
    (s : Replica V) : Prop where
  standing : Standing E K s
  idle : s.eventQueue = []
  parent : s.blockStore.blockCache x = some b
  justify : s.blockStore.blockCache y = some j
  exec : Descends s.heap.parent b s.bExec
  lock : LockAllows s b j

/-- The replica has handled a block of hash `z` on `b` with a certificate on `j`; `c` is the stored
object of the block. -/
structure Followed (E : Setup V) (K : Set HotstuffBlockHeader) (z : Hash) (b j c : BlockPtr)
    (s s' : Replica V) : Prop where
  standing : Standing E K s'
  heap : Heap.Extends s.heap s'.heap
  cache : ∀ {x p}, s.blockStore.blockCache x = some p → s'.blockStore.blockCache x = some p
  stored : s'.blockStore.blockCache z = some c
  parent : s'.heap.parent c = some b
  justify : s'.heap.justify c = some j
  exec : Descends s'.heap.parent c s'.bExec
  lock : LockAllows s' c j
  lock_lt : s'.heap.height s'.bLock < s'.heap.height c
  vheight_le : s'.vheight.toNat ≤ max s.vheight.toNat (s'.heap.height c)
  reaches : ∀ blk1 blk, s'.heap.justify j = some blk1 → s'.heap.justify blk1 = some blk →
    s'.heap.parent j = some blk1 → s'.heap.parent blk1 = some blk →
    Descends s'.heap.parent s'.bExec blk

/-- What a proposal event on `p` leaves, seen from the stored object `c` of the same block. -/
theorem ProposalStep.followed {s₀ s₁ : Replica V} (T : Standing E K s) (T' : Standing E K s')
    (C : Circulation E.crypto K) {schedule : List ℕ} {p b j c : BlockPtr} {rid : ReplicaID}
    {rest : List Event} (h : ProposalStep E schedule p rid rest s s₁ s') {z : Hash}
    (hheap : Heap.Extends s₀.heap s.heap) (hvh : s.vheight = s₀.vheight)
    (hcache : ∀ {x p}, s₀.blockStore.blockCache x = some p → s.blockStore.blockCache x = some p)
    (hparent : s.heap.parent p = some b) (hjustify : s.heap.justify p = some j)
    (hc : s.blockStore.blockCache z = some c) (hcparent : s.heap.parent c = some b)
    (hcjustify : s.heap.justify c = some j) (hexec : Descends s.heap.parent b s.bExec)
    (hlock : LockAllows s b j) : Followed E K z b j c s₀ s' := by
  have W := T.wellFormed
  have R := T.regular
  obtain ⟨F, -, -⟩ := h.frame W
  have H := F.cores
  obtain ⟨hallows, hlt⟩ := h.lock_allows W R C hparent hjustify hlock
  obtain ⟨hbelow, hne⟩ := h.exec_below W R C hparent hexec
  have hheight : s.heap.height c = s.heap.height p := by
    rw [W.shape.height_parent hcparent, W.shape.height_parent hparent]
  refine ⟨T', hheap.trans H.extends, ?_, ?_, ?_, ?_, ?_, ?_, ?_, ?_, ?_⟩
  · intro x q hq
    rw [F.cache_eq]
    exact hcache hq
  · rw [F.cache_eq]
    exact hc
  · rw [H.parent_eq]
    exact hcparent
  · rw [H.justify_eq]
    exact hcjustify
  · rw [H.parent_eq]
    rcases (descends_iff_of_parent hparent).mp hbelow with heq | hd
    · exact absurd heq.symm hne
    · exact hd.head hcparent
  · unfold LockAllows
    rw [H.height_eq, H.parent_eq]
    exact hallows.imp_right fun hd => hd.head hcparent
  · rw [H.height_eq, hheight]
    exact hlt
  · rw [H.height_eq, hheight, ← hvh]
    exact h.vheight_le W R
  · intro blk1 blk h1 h0 hp2 hp1
    rw [H.justify_eq] at h1 h0
    rw [H.parent_eq] at hp2 hp1 ⊢
    exact h.reaches T ⟨hjustify, h1, h0, hp2, hp1⟩

/-! ## The three steps -/

/-- A proposal message arrives, is inserted as object `p` and handled. -/
def follow (wire : HotstuffBlockWire) (proposer : ReplicaID) (p : BlockPtr) : List Input :=
  [.proposeMessage wire proposer, .netEvent (.proposal p proposer), .event []]

/-- A block as a replica of the same configuration sends it. -/
structure Sendable (E : Setup V) (K : Set HotstuffBlockHeader) (x y : Hash)
    (wire : HotstuffBlockWire) : Prop where
  parentHash_eq : wire.header.parentHash = x
  justify_eq : wire.header.qc.justify = y
  mem : wire.header ∈ K
  body : E.crypto.hashBody wire.body = wire.header.bodyHash
  passes : Passes E wire.header.qc

/-- **A round at a replica that does not lead.** -/
theorem follow_ok (X : Keyed E) (C : Circulation E.crypto K) (hvm : E.vm.Returns) {x y : Hash}
    {b j : BlockPtr} (r : Ready E K x y b j s) {ℓ : ReplicaID}
    (hℓ : E.config.isValidReplica ℓ = true) (hother : ℓ ≠ E.selfId) {wire : HotstuffBlockWire}
    (hwire : Sendable E K x y wire) (hheight : s.heap.height b + 1 < 2 ^ 32) :
    ∃ s' c, runList (step E) (follow wire ℓ s.heap.next) s = .ok s' ∧
      Followed E K (E.crypto.hashHeader wire.header) b j c s s' ∧ s'.eventQueue = [] ∧
      (s.vheight.toNat < s.heap.height b + 1 →
        ∃ cert, s'.voteSent (E.crypto.hashHeader wire.header) ℓ = some cert) := by
  have W := r.standing.wellFormed
  have hnew := HotstuffBlock.isNew_receiveBlock E.crypto wire ℓ
  -- the message is accepted
  have haccept : step E (.proposeMessage wire ℓ) s = .ok (s.accepted E wire ℓ (.proposal · ℓ)) := by
    show receivePropose E wire ℓ s = _
    unfold receivePropose
    rw [hℓ]
    simp only [Bool.not_true, Bool.false_eq_true, if_false]
    exact acceptBlock_of_passes rfl rfl hwire.body hwire.passes _ _ s
  have T₁ : Standing E K (s.accepted E wire ℓ (.proposal · ℓ)) :=
    r.standing.step X haccept (r.standing.regular.alloc W hnew hwire.mem rfl)
  have hget : (s.accepted E wire ℓ (.proposal · ℓ)).heap.header s.heap.next = wire.header := by
    show ((s.heap.alloc _).get s.heap.next).wireBlock.header = _
    rw [Heap.get_alloc_next]
    rfl
  have hnext : s.heap.next ≠ genesisPtr := Nat.ne_of_gt W.shape.next_pos
  have hlinks : (s.accepted E wire ℓ (.proposal · ℓ)).Links s.heap.next b j := by
    constructor
    · rw [hget, hwire.parentHash_eq]
      exact r.parent
    · rw [hget, hwire.justify_eq]
      exact r.justify
  -- the block is inserted
  have hinsert : step E (.netEvent (.proposal s.heap.next ℓ)) (s.accepted E wire ℓ (.proposal · ℓ)) =
      .ok (((s.accepted E wire ℓ (.proposal · ℓ)).linked s.heap.next b j).enqueue
        (.proposal s.heap.next ℓ)) := by
    have hmem : NetEvent.proposal s.heap.next ℓ ∈
        (s.accepted E wire ℓ (.proposal · ℓ)).netEvents :=
      List.mem_append_right _ (List.mem_singleton.mpr rfl)
    show (if _ ∈ _ then onNetEvent _ _ else _) = _
    rw [if_pos hmem]
    exact onNetEvent_proposal T₁.wellFormed hnext (Nat.lt_succ_self _) hlinks
  have hold : ∀ {q : BlockPtr}, s.heap.Settled q → q ≠ s.heap.next := fun hq =>
    Nat.ne_of_lt (W.shape.lt_next_of_settled hq)
  have hset := (W.shape.cached r.parent).2
  have hbheight : (s.accepted E wire ℓ (.proposal · ℓ)).heap.height b = s.heap.height b :=
    congrFun (W.shape.height_alloc hnew) b
  have T₂ := T₁.step X hinsert (T₁.regular.link (by rw [hbheight]; exact hheight) rfl)
  have W₂ := T₂.wellFormed
  generalize ht : ((s.accepted E wire ℓ (.proposal · ℓ)).linked s.heap.next b j).enqueue
    (.proposal s.heap.next ℓ) = t at hinsert T₂ W₂
  have hx₁ := heap_step W haccept
  have hx₂ := heap_step T₁.wellFormed hinsert
  have hext : Heap.Extends s.heap t.heap := hx₁.trans hx₂
  have hcache : ∀ {x p}, s.blockStore.blockCache x = some p → t.blockStore.blockCache x = some p :=
    fun hp => cache_step T₁.wellFormed hinsert (cache_step W haccept hp)
  have hqueue : t.eventQueue = [.proposal s.heap.next ℓ] := by
    rw [← ht]
    show s.eventQueue ++ _ = _
    rw [r.idle]
    rfl
  have hfields : t.bExec = s.bExec ∧ t.bLock = s.bLock ∧ t.vheight = s.vheight := by
    rw [← ht]
    exact ⟨rfl, rfl, rfl⟩
  obtain ⟨hexec, hbLock, hvh⟩ := hfields
  have hpparent : t.heap.parent s.heap.next = some b := by
    rw [← ht]
    exact Heap.parent_link_self _ _ _ _
  have hpjustify : t.heap.justify s.heap.next = some j := by
    rw [← ht]
    exact Heap.justify_link_self _ _ _ _
  have hpheader : t.heap.header s.heap.next = wire.header := by
    rw [← ht]
    exact (Heap.header_link _ _ _ _ _).trans hget
  have hphash : t.heap.hash s.heap.next = E.crypto.hashHeader wire.header := by
    rw [W₂.hash_of_header (Or.inr ⟨b, hpparent⟩) hnext, hpheader]
  -- the stored object of the block hangs where the delivered one hangs
  obtain ⟨c, hc⟩ := exists_stored W₂ (Or.inr ⟨b, hpparent⟩ : t.heap.Settled s.heap.next)
  rw [hphash] at hc
  obtain ⟨hchash, hcset⟩ := W₂.shape.cached hc
  obtain ⟨hcne, hcheader⟩ := W₂.header_eq T₂.regular C hcset hwire.mem hchash.symm
  have hclinks : t.Links c b j := by
    constructor
    · rw [hcheader, hwire.parentHash_eq]
      exact hcache r.parent
    · rw [hcheader, hwire.justify_eq]
      exact hcache r.justify
  obtain ⟨hcparent, hcjustify⟩ := links_of_header W₂ hcset hcne hclinks
  have hjset := (W.shape.cached r.justify).2
  have hlock : LockAllows t b j := by
    unfold LockAllows
    rw [hbLock, hext.height_eq W.lock_settled, hext.height_eq hjset]
    exact r.lock.imp_right hext.descends
  have hbelow : Descends t.heap.parent b t.bExec := by
    rw [hexec]
    exact hext.descends r.exec
  -- the block is handled
  obtain ⟨s₁, s', hs', hstep⟩ :=
    proposal_returns [] T₂ C hvm hqueue hpparent hbelow
  obtain ⟨F, -, hqueue'⟩ := hstep.frame W₂
  have T' := T₂.step X hs' (T₂.regular.sameCores F.cores)
  refine ⟨s', c, ?_, hstep.followed T₂ T' C hext hvh hcache hpparent hpjustify hc hcparent
    hcjustify hbelow hlock, ?_, ?_⟩
  · unfold follow
    simp only [runList, haccept, hinsert, hs']
  · rcases hqueue' with hq | ⟨hself, -⟩
    · exact hq
    · exact absurd hself hother
  · intro habove
    have hpheight : t.heap.height s.heap.next = s.heap.height b + 1 := by
      rw [W₂.shape.height_parent hpparent, hext.height_eq hset]
    have hvoted := hstep.votes W₂ hpparent hpjustify hlock (by rw [hvh, hpheight]; exact habove)
    rw [hphash] at hvoted
    exact voteSent_of_mem hvoted

end Fred.Hotstuff
