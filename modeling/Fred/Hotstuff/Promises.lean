/-
# Fred.Hotstuff.Promises -- what the votes of a replica promise

A vote respects the lock the replica holds when it casts it, and that lock is at least as high as the
block two certificates below every earlier vote. `PromiseLog` keeps both facts for all votes of a run
at once: `covered` is about the lock as it is, `respected` remembers for each vote the lock it was
cast under. The early returns of `update` skip a lock only when a block at or above it is committed,
and the lock is never below what is committed (`exec_le_lock`), so they break neither.

The record assumes `Circulation` and heights below `2 ^ 32`: a block's certificate is on a proper
ancestor, so the lock stays below the voting height.
-/
import Fred.Hotstuff.Circulation
import Fred.Hotstuff.Lock

namespace Fred.Hotstuff

open Fred.Forest Fred.Transition Replica

variable {V : Type} {E : Setup V} {s s' : Replica V}

namespace Replica

/-- The replica has voted for the object. -/
def Voted (s : Replica V) (p : BlockPtr) : Prop :=
  ∃ n cert target, Effect.voted p n cert target ∈ s.trace

/-- The replica has signed the hash. -/
def Signed (s : Replica V) (x : Hash) : Prop :=
  ∃ p n cert target, Effect.voted p n cert target ∈ s.trace ∧ cert.hash = x

theorem mem_votes {p : BlockPtr} {n : ℕ} :
    (p, n) ∈ s.votes ↔ ∃ cert target, Effect.voted p n cert target ∈ s.trace := by
  unfold votes
  rw [List.mem_filterMap]
  constructor
  · rintro ⟨e, he, hvote⟩
    cases e with
    | voted block height cert target =>
        obtain ⟨rfl, rfl⟩ := Prod.mk.inj (Option.some.inj hvote)
        exact ⟨cert, target, he⟩
    | saved hash wire => cases hvote
    | applied block hash height => cases hvote
    | proposed block hash => cases hvote
  · rintro ⟨cert, target, he⟩
    exact ⟨_, he, rfl⟩

/-- A silent part of a step adds no vote. -/
theorem Silent.voted_iff (h : Silent s s') {p : BlockPtr} {n : ℕ} {cert : PartialCertificateWire}
    {target : ReplicaID} :
    Effect.voted p n cert target ∈ s'.trace ↔ Effect.voted p n cert target ∈ s.trace := by
  obtain ⟨effs, htrace, hno⟩ := h
  rw [htrace, List.mem_append]
  refine ⟨fun hmem => hmem.resolve_right fun he => ?_, Or.inl⟩
  have := hno _ he
  cases this

end Replica

/-- Genesis, or a block some object carries a certificate on. -/
def Heap.Justified (h : Heap) (l : BlockPtr) : Prop := l = genesisPtr ∨ ∃ p, h.justify p = some l

/-- Two certificates below `p` there is nothing above height `n`. -/
def Heap.CoveredBy (h : Heap) (p : BlockPtr) (n : ℕ) : Prop :=
  ∀ j g, h.justify p = some j → h.justify j = some g → h.height g ≤ n

/-- The lock `l` under which a vote for `p` was cast. -/
structure RespectedLock (s : Replica V) (p l : BlockPtr) : Prop where
  settled : s.heap.Settled l
  justified : s.heap.Justified l
  below : s.heap.height l < s.heap.height p
  respects : Descends s.heap.parent p l ∨
    ∃ j, s.heap.justify p = some j ∧ s.heap.height l < s.heap.height j
  covers : ∀ q, s.Voted q → s.heap.height q < s.heap.height p →
    s.heap.CoveredBy q (s.heap.height l)

/-- What the votes of a replica promise. -/
structure Promises (s : Replica V) : Prop where
  lock_justified : s.heap.Justified s.bLock
  lock_le_vheight : s.heap.height s.bLock ≤ s.vheight.toNat
  exec_chain : s.bExec = genesisPtr ∨
    ∃ nblk blk2 blk1, HeadsChain s.heap nblk blk2 blk1 s.bExec
  voted : ∀ p n cert target, Effect.voted p n cert target ∈ s.trace →
    p ≠ genesisPtr ∧ s.heap.Settled p ∧ n = s.heap.height p ∧ cert.hash = s.heap.hash p
  respected : ∀ p, s.Voted p → ∃ l, RespectedLock s p l

/-- Between two events the lock covers every vote. -/
structure PromiseLog (s : Replica V) : Prop extends Promises s where
  covered : ∀ p, s.Voted p → s.heap.CoveredBy p (s.heap.height s.bLock)

theorem Heap.Justified.mono {h h' : Heap} (H : Heap.Extends h h') {C : Crypto}
    {cache : Hash → Option BlockPtr} (S : Shape C h cache) {l : BlockPtr} (hl : h.Justified l) :
    h'.Justified l := by
  rcases hl with rfl | ⟨p, hp⟩
  · exact Or.inl rfl
  · exact Or.inr ⟨p, (H.justify_eq (S.settled_of_justify hp)).trans hp⟩

theorem Heap.CoveredBy.mono {h h' : Heap} (H : Heap.Extends h h') {C : Crypto}
    {cache : Hash → Option BlockPtr} (S : Shape C h cache) {p : BlockPtr} {n n' : ℕ}
    (hset : h.Settled p) (hle : n ≤ n') (hc : h.CoveredBy p n) : h'.CoveredBy p n' := by
  intro j g hj hg
  rw [H.justify_eq hset] at hj
  have hsj := S.settled_justify hj
  rw [H.justify_eq hsj] at hg
  rw [H.height_eq (S.settled_justify hg)]
  exact (hc j g hj hg).trans hle

namespace Promises

theorem settled_of_voted (L : Promises s) {p : BlockPtr} (hp : s.Voted p) : s.heap.Settled p := by
  obtain ⟨n, cert, target, hmem⟩ := hp
  exact (L.voted p n cert target hmem).2.1

theorem exists_voted_of_signed (L : Promises s) {x : Hash} (hx : s.Signed x) :
    ∃ p, s.Voted p ∧ p ≠ genesisPtr ∧ s.heap.hash p = x := by
  obtain ⟨p, n, cert, target, hmem, rfl⟩ := hx
  obtain ⟨hne, -, -, hhash⟩ := L.voted p n cert target hmem
  exact ⟨p, ⟨n, cert, target, hmem⟩, hne, hhash.symm⟩

/-- Votes are not above the voting height. -/
theorem height_le_vheight (L : Promises s) (G : VoteLog s) {p : BlockPtr} (hp : s.Voted p) :
    s.heap.height p ≤ s.vheight.toNat := by
  obtain ⟨n, cert, target, hmem⟩ := hp
  obtain ⟨-, -, rfl, -⟩ := L.voted p n cert target hmem
  exact G.le_vheight (p, s.heap.height p) (mem_votes.mpr ⟨cert, target, hmem⟩)

/-- At each height there is at most one vote. -/
theorem voted_unique (L : Promises s) (G : VoteLog s) {p q : BlockPtr} (hp : s.Voted p)
    (hq : s.Voted q) (heq : s.heap.height p = s.heap.height q) : p = q := by
  obtain ⟨n, cert, target, hmem⟩ := hp
  obtain ⟨n', cert', target', hmem'⟩ := hq
  obtain ⟨-, -, rfl, -⟩ := L.voted p n cert target hmem
  obtain ⟨-, -, rfl, -⟩ := L.voted q n' cert' target' hmem'
  apply (VotesIncrease.of_pairwise G.increase).unique p q (s.heap.height p)
  · exact mem_votes.mpr ⟨cert, target, hmem⟩
  · rw [heq]
    exact mem_votes.mpr ⟨cert', target', hmem'⟩

end Promises

namespace PromiseLog

theorem start (E : Setup V) : PromiseLog (Hotstuff.start E) where
  lock_justified := Or.inl rfl
  lock_le_vheight := le_rfl
  exec_chain := Or.inl rfl
  voted := fun _ _ _ _ h => absurd h List.not_mem_nil
  covered := by
    rintro p ⟨n, cert, target, h⟩
    exact absurd h List.not_mem_nil
  respected := by
    rintro p ⟨n, cert, target, h⟩
    exact absurd h List.not_mem_nil

/-- The lock of an earlier vote, after a part of a step that adds no vote below it. -/
theorem respectedLock_mono (W : WellFormed E s) (H : Heap.Extends s.heap s'.heap) {p l : BlockPtr}
    (hset : s.heap.Settled p) (hl : RespectedLock s p l)
    (hvoted : ∀ q, s'.Voted q → s'.heap.height q < s'.heap.height p →
      s.Voted q ∧ s.heap.Settled q) : RespectedLock s' p l where
  settled := H.settled hl.settled
  justified := hl.justified.mono H W.shape
  below := by
    rw [H.height_eq hset, H.height_eq hl.settled]
    exact hl.below
  respects := by
    rw [H.justify_eq hset, H.height_eq hl.settled]
    rcases hl.respects with hd | ⟨j, hj, hlt⟩
    · exact Or.inl (H.descends hd)
    · refine Or.inr ⟨j, hj, ?_⟩
      rw [H.height_eq (W.shape.settled_justify hj)]
      exact hlt
  covers := by
    intro q hq hlt
    obtain ⟨hold, hsq⟩ := hvoted q hq hlt
    rw [H.height_eq hset, H.height_eq hsq] at hlt
    refine (hl.covers q hold hlt).mono H W.shape hsq ?_
    rw [H.height_eq hl.settled]

/-- A step that adds no vote and leaves lock, executed block and voting height alone. -/
theorem frame (L : PromiseLog s) (W : WellFormed E s) (H : Heap.Extends s.heap s'.heap)
    (hlock : s'.bLock = s.bLock) (hexec : s'.bExec = s.bExec) (hheight : s'.vheight = s.vheight)
    (hsilent : Silent s s') : PromiseLog s' := by
  have hvoted : ∀ p, s'.Voted p → s.Voted p := by
    rintro p ⟨n, cert, target, hmem⟩
    exact ⟨n, cert, target, hsilent.voted_iff.mp hmem⟩
  refine ⟨⟨?_, ?_, ?_, ?_, ?_⟩, ?_⟩
  · rw [hlock]
    exact L.lock_justified.mono H W.shape
  · rw [hlock, hheight, H.height_eq W.lock_settled]
    exact L.lock_le_vheight
  · rw [hexec]
    rcases L.exec_chain with h | ⟨nblk, blk2, blk1, T⟩
    · exact Or.inl h
    · exact Or.inr ⟨nblk, blk2, blk1, T.mono H W.shape⟩
  · intro p n cert target hmem
    obtain ⟨hne, hset, hn, hhash⟩ := L.voted p n cert target (hsilent.voted_iff.mp hmem)
    exact ⟨hne, H.settled hset, hn.trans (H.height_eq hset).symm,
      hhash.trans (H.hash_eq hset).symm⟩
  · intro p hp
    have hold := hvoted p hp
    obtain ⟨l, hl⟩ := L.respected p hold
    refine ⟨l, respectedLock_mono W H (L.settled_of_voted hold) hl fun q hq _ => ?_⟩
    exact ⟨hvoted q hq, L.settled_of_voted (hvoted q hq)⟩
  · intro p hp
    have hold := hvoted p hp
    rw [hlock, H.height_eq W.lock_settled]
    exact (L.covered p hold).mono H W.shape (L.settled_of_voted hold) le_rfl

/-! ### A proposal event -/

variable {K : Set HotstuffBlockHeader} {p : BlockPtr} {rid : ReplicaID}

/-- The vote: the new block alone waits to be covered. -/
theorem vote (L : PromiseLog s) (W : WellFormed E s) (R : Regular K s) (G : VoteLog s)
    (hne : p ≠ genesisPtr) (hset : s.heap.Settled p) (v : VoteSpec E p rid s s') :
    Promises s' ∧ s'.vheight.toNat = s.heap.height p ∧
      ∀ q, s'.Voted q → q = p ∨ s'.heap.CoveredBy q (s'.heap.height s'.bLock) := by
  obtain ⟨queue, -, rfl⟩ := v.eq
  have hlt := v.height_lt
  have hheight : (BitVec.ofNat 32 (s.heap.height p)).toNat = s.heap.height p := by
    rw [BitVec.toNat_ofNat]
    exact Nat.mod_eq_of_lt (R.height_lt p (W.shape.lt_next_of_settled hset))
  have hmem : ∀ {q n cert target}, Effect.voted q n cert target ∈
      s.trace ++ [.voted p (s.heap.height p)
        (PartialCertificate.create E.crypto (s.heap.hash p) E.secretKey) rid] →
      Effect.voted q n cert target ∈ s.trace ∨
        (q = p ∧ n = s.heap.height p ∧ cert.hash = s.heap.hash p) := by
    intro q n cert target h
    rcases List.mem_append.mp h with h | h
    · exact Or.inl h
    · obtain ⟨rfl, rfl, rfl, rfl⟩ := Effect.voted.inj (List.mem_singleton.mp h)
      exact Or.inr ⟨rfl, rfl, rfl⟩
  have hvoted : ∀ q, (∃ n cert target, Effect.voted q n cert target ∈
      s.trace ++ [.voted p (s.heap.height p)
        (PartialCertificate.create E.crypto (s.heap.hash p) E.secretKey) rid]) →
      s.Voted q ∨ q = p := by
    rintro q ⟨n, cert, target, h⟩
    rcases hmem h with h | ⟨rfl, -, -⟩
    · exact Or.inl ⟨n, cert, target, h⟩
    · exact Or.inr rfl
  have hbelow : ∀ q, s.Voted q → s.heap.height q < s.heap.height p :=
    fun q hq => lt_of_le_of_lt (L.height_le_vheight G hq) hlt
  refine ⟨⟨L.lock_justified, ?_, L.exec_chain, ?_, ?_⟩, hheight, ?_⟩
  · have hle := L.lock_le_vheight
    show s.heap.height s.bLock ≤ (BitVec.ofNat 32 (s.heap.height p)).toNat
    omega
  · intro q n cert target h
    rcases hmem h with h | ⟨rfl, rfl, hhash⟩
    · exact L.voted q n cert target h
    · exact ⟨hne, hset, rfl, hhash⟩
  · intro q hq
    rcases hvoted q hq with hold | rfl
    · -- the new vote is above this one, so its lock need not cover it
      obtain ⟨l, hl⟩ := L.respected q hold
      refine ⟨l, ?_⟩
      refine respectedLock_mono W ?_ (L.settled_of_voted hold) hl ?_
      · exact Heap.Extends.refl _
      intro x hx hlow
      rcases hvoted x hx with hx | rfl
      · exact ⟨hx, L.settled_of_voted hx⟩
      · exact absurd (hbelow q hold) (Nat.lt_asymm hlow)
    · refine ⟨s.bLock, W.lock_settled, L.lock_justified, ?_, ?_, ?_⟩
      · have hle := L.lock_le_vheight
        show s.heap.height s.bLock < s.heap.height q
        omega
      · obtain ⟨j, hj, h⟩ := v.opinion
        exact h.symm.imp_right fun hlt => ⟨j, hj, hlt⟩
      · intro x hx hlow
        rcases hvoted x hx with hx | rfl
        · exact L.covered x hx
        · exact absurd hlow (lt_irrefl _)
  · intro q hq
    rcases hvoted q hq with hold | rfl
    · exact Or.inr (L.covered q hold)
    · exact Or.inl rfl

/-- The block two certificates below the proposal is covered by the lock `update` leaves. -/
theorem coveredBy_of_moves (W : WellFormed E s) (R : Regular K s) (N : Circulation E.crypto K)
    (I : IndexLog s) (hexec : s.heap.height s.bExec ≤ s.heap.height s.bLock)
    (m : Moves p s s') : s.heap.CoveredBy p (s.heap.height s'.bLock) := by
  intro blk2 blk1 h2 h1
  have hlock := m.lock_le
  have hdecided : ∀ x, s.heap.Settled x → (s.heap.get x).decided = true →
      s.heap.height x ≤ s.heap.height s'.bLock := by
    intro x hx hd
    have hle := W.forest.height_le ((I.decided_iff x (W.shape.lt_next_of_settled hx)).mp hd)
    omega
  rcases m.covers blk2 blk1 h2 h1 with hd | hd | hle
  · have hlt := (W.justify_below_of_regular R N h1).2
    have hle := hdecided blk2 (W.shape.settled_justify h2) hd
    omega
  · exact hdecided blk1 (W.shape.settled_justify h1) hd
  · exact hle

/-- The call of `update` after the vote. -/
theorem update (L : Promises s) (W : WellFormed E s) (u : UpdateOk E p s s')
    (hle : s.heap.height s'.bLock ≤ s.vheight.toNat)
    (hnew : s.heap.CoveredBy p (s.heap.height s'.bLock))
    (hold : ∀ q, s.Voted q → q = p ∨ s.heap.CoveredBy q (s.heap.height s.bLock)) :
    PromiseLog s' := by
  have m := u.moves W
  have hcores := u.cores
  have H := hcores.extends
  have hsilent := u.silent
  have hvoted : ∀ q, s'.Voted q → s.Voted q := by
    rintro q ⟨n, cert, target, hq⟩
    exact ⟨n, cert, target, hsilent.voted_iff.mp hq⟩
  refine ⟨⟨?_, ?_, ?_, ?_, ?_⟩, ?_⟩
  · have hjust : s.heap.Justified s'.bLock := by
      rcases m.lock_cases with h | ⟨blk2, -, h1⟩
      · rw [h]
        exact L.lock_justified
      · exact Or.inr ⟨blk2, h1⟩
    exact hjust.mono H W.shape
  · rw [u.vheight_eq, hcores.height_eq]
    exact hle
  · rcases m.exec_cases with h | ⟨-, blk2, blk1, T⟩
    · rw [h]
      exact L.exec_chain.imp_right fun ⟨nblk, blk2, blk1, T⟩ =>
        ⟨nblk, blk2, blk1, T.mono H W.shape⟩
    · exact Or.inr ⟨p, blk2, blk1, T.mono H W.shape⟩
  · intro q n cert target hmem
    rw [hcores.settled_iff, hcores.height_eq, hcores.hash_eq]
    exact L.voted q n cert target (hsilent.voted_iff.mp hmem)
  · intro q hq
    obtain ⟨l, hl⟩ := L.respected q (hvoted q hq)
    refine ⟨l, respectedLock_mono W H (L.settled_of_voted (hvoted q hq)) hl fun x hx _ => ?_⟩
    exact ⟨hvoted x hx, L.settled_of_voted (hvoted x hx)⟩
  · intro q hq
    rw [hcores.height_eq]
    have hset := L.settled_of_voted (hvoted q hq)
    rcases hold q (hvoted q hq) with rfl | hc
    · exact hnew.mono H W.shape hset le_rfl
    · exact hc.mono H W.shape hset m.lock_le

/-- **A proposal event keeps the promises.** -/
theorem proposal (L : PromiseLog s) (W : WellFormed E s) (R : Regular K s)
    (N : Circulation E.crypto K) (I : IndexLog s) (G : VoteLog s)
    (hexec : s.heap.height s.bExec ≤ s.heap.height s.bLock) {s₁ : Replica V}
    (hne : p ≠ genesisPtr) (hset : s.heap.Settled p)
    (hv : voteOnProposal E p rid s = .ok s₁) (W₁ : WellFormed E s₁) (u : UpdateOk E p s₁ s') :
    PromiseLog s' := by
  have m := u.moves W₁
  have hlow : ∀ {j}, s.heap.justify p = some j → s.heap.height j < s.heap.height p :=
    fun hj => (W.justify_below_of_regular R N hj).2
  rcases voteOnProposal_ok W hne hset hv with v | ⟨rfl, hno⟩
  · obtain ⟨L₁, hheight, hold⟩ := L.vote W R G hne hset v
    have hframe : s₁.heap = s.heap ∧ s₁.bLock = s.bLock ∧ s₁.bExec = s.bExec := by
      obtain ⟨queue, -, rfl⟩ := v.eq
      exact ⟨rfl, rfl, rfl⟩
    obtain ⟨hheap, hlock, hexec₁⟩ := hframe
    have R₁ : Regular K s₁ := ⟨hheap ▸ R.header_mem, hheap ▸ R.height_lt⟩
    have I₁ : IndexLog s₁ := I.frame W W₁ (Stays.vote v)
    refine update L₁ W₁ u ?_ ?_ hold
    · rw [hheight, hheap]
      rcases m.lock_cases with h | ⟨blk2, h2, h1⟩
      · rw [h, hlock]
        have hle := L.lock_le_vheight
        have hlt := v.height_lt
        omega
      · rw [hheap] at h2 h1
        have hlt₂ := hlow h2
        have hlt₁ := (W.justify_below_of_regular R N h1).2
        omega
    · apply coveredBy_of_moves W₁ R₁ N I₁ _ m
      rw [hheap, hlock, hexec₁]
      exact hexec
  · refine update L.toPromises W u ?_ (coveredBy_of_moves W R N I hexec m)
      fun q hq => Or.inr (L.covered q hq)
    rcases m.lock_cases with h | ⟨blk2, h2, h1⟩
    · rw [h]
      exact L.lock_le_vheight
    · have hlt₂ := hlow h2
      have hlt₁ := (W.justify_below_of_regular R N h1).2
      have hle := L.lock_le_vheight
      rcases hno with hle | ⟨j, hj, hle, -⟩
      · omega
      · obtain rfl : blk2 = j := Option.some.inj (h2.symm.trans hj)
        omega

/-- **Every step keeps the promises.** -/
theorem step (L : PromiseLog s) (W : WellFormed E s) (R : Regular K s) (N : Circulation E.crypto K)
    (I : IndexLog s) (G : VoteLog s) (hexec : s.heap.height s.bExec ≤ s.heap.height s.bLock)
    {i : Input} (h : step E i s = .ok s') : PromiseLog s' := by
  obtain ⟨W', o | ⟨schedule, p, rid, rest, s₁, -, P⟩⟩ := step_cases W h
  · obtain ⟨effs, htrace, hproposed⟩ := o.trace_eq
    refine L.frame W o.heap o.bLock_eq o.bExec_eq o.vheight_eq ⟨effs, htrace, fun e he => ?_⟩
    obtain ⟨x, y, rfl⟩ := hproposed e he
    rfl
  · have W₀ := W.popEvent schedule P.queue_eq
    have L₀ : PromiseLog { s with eventQueue := rest, schedule := schedule } :=
      L.frame W (Heap.Extends.refl _) rfl rfl rfl (.of_eq rfl)
    have I₀ : IndexLog { s with eventQueue := rest, schedule := schedule } :=
      I.frame W W₀ (Stays.of_sameCores (Heap.SameCores.refl _) rfl rfl rfl rfl fun _ => rfl)
    exact L₀.proposal W₀ ⟨R.header_mem, R.height_lt⟩ N I₀ ⟨G.increase, G.le_vheight⟩ hexec
      P.ne_genesis P.settled P.vote P.wellFormed P.update

end PromiseLog

/-! ## Runs -/

/-- A regular run casts its votes below `2 ^ 32`. -/
theorem reach_narrow {K : Set HotstuffBlockHeader}
    (h : Reach (step E) (RegularStep K E) (start E) s) :
    Reach (step E) NarrowVote (start E) s := by
  have hI : ∀ {t}, Reach (step E) (RegularStep K E) (start E) t → WellFormed E t ∧ Regular K t :=
    fun ht => ⟨(wellFormed_commitLog_of_reach ht).1, regular_of_reach ht⟩
  refine (h.strengthen hI).mono ?_
  intro t i ht schedule p rid rest _ hq _ _
  obtain ⟨⟨W, R⟩, -⟩ := ht
  have he : Event.Ok t.heap (.proposal p rid) := W.events _ (hq ▸ List.mem_cons_self)
  exact R.height_lt p (W.shape.lt_next_of_settled he.2)

theorem reach_any {P : Replica V → Input → Prop} (h : Reach (step E) P (start E) s) :
    Reach (step E) anyInput (start E) s :=
  h.mono fun _ _ _ => trivial

/-- What a replica has signed stays signed. -/
theorem signed_step (W : WellFormed E s) {i : Input} (h : step E i s = .ok s') {x : Hash}
    (hx : s.Signed x) : s'.Signed x := by
  obtain ⟨p, n, cert, target, hmem, hhash⟩ := hx
  refine ⟨p, n, cert, target, ?_, hhash⟩
  obtain ⟨W', o | ⟨schedule, q, rid, rest, s₁, -, P⟩⟩ := step_cases W h
  · obtain ⟨effs, htrace, -⟩ := o.trace_eq
    rw [htrace]
    exact List.mem_append_left _ hmem
  · rw [P.update.silent.voted_iff]
    rcases voteOnProposal_ok (W.popEvent schedule P.queue_eq) P.ne_genesis P.settled P.vote with
      v | ⟨rfl, -⟩
    · obtain ⟨queue, -, rfl⟩ := v.eq
      exact List.mem_append_left _ hmem
    · exact hmem

/-- **In every regular run the promises are kept.** -/
theorem promiseLog_of_reach {K : Set HotstuffBlockHeader} (N : Circulation E.crypto K)
    (h : Reach (step E) (RegularStep K E) (start E) s) : PromiseLog s := by
  refine h.invariant_of_reach (PromiseLog.start E) ?_
  intro t u i ht L _ hs
  obtain ⟨W, G⟩ := wellFormed_voteLog_of_reach (reach_narrow ht)
  have I := (wellFormed_commitLog_of_reach ht).2.toIndexLog
  exact L.step W (regular_of_reach ht) N I G (exec_le_lock (reach_any ht)) hs

end Fred.Hotstuff
