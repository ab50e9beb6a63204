/-
# Fred.Hotstuff.Lock -- how the lock and the executed block move

`update` raises `b_lock` to the block two certificates below the proposal and sets `b_exec` to the
block three certificates below it. `Moves` is what a call does to the two; the lock never goes down,
and it stays above whatever is committed (`lock_above_exec`).
-/
import Fred.Hotstuff.Saved

namespace Fred.Hotstuff

open Fred.Forest Fred.Transition

variable {V : Type} {E : Setup V} {s s' : Replica V}

/-- The blocks three, two and one certificates below `nblk`, each the parent of the next. -/
structure HeadsChain (h : Heap) (nblk blk2 blk1 blk : BlockPtr) : Prop where
  justify₂ : h.justify nblk = some blk2
  justify₁ : h.justify blk2 = some blk1
  justify₀ : h.justify blk1 = some blk
  parent₂ : h.parent blk2 = some blk1
  parent₁ : h.parent blk1 = some blk

theorem HeadsChain.mono {h h' : Heap} (H : Heap.Extends h h') {C : Crypto}
    {cache : Hash → Option BlockPtr} (S : Shape C h cache) {nblk blk2 blk1 blk : BlockPtr}
    (T : HeadsChain h nblk blk2 blk1 blk) : HeadsChain h' nblk blk2 blk1 blk where
  justify₂ := (H.justify_eq (S.settled_of_justify T.justify₂)).trans T.justify₂
  justify₁ := (H.justify_eq (S.settled_of_justify T.justify₁)).trans T.justify₁
  justify₀ := (H.justify_eq (S.settled_of_justify T.justify₀)).trans T.justify₀
  parent₂ := H.parent_mono T.parent₂
  parent₁ := H.parent_mono T.parent₁

namespace Replica

/-- What a call of `update` on `nblk` does to lock and executed block. -/
structure Moves (nblk : BlockPtr) (s s' : Replica V) : Prop where
  lock_le : s.heap.height s.bLock ≤ s.heap.height s'.bLock
  lock_cases : s'.bLock = s.bLock ∨
    ∃ blk2, s.heap.justify nblk = some blk2 ∧ s.heap.justify blk2 = some s'.bLock
  /-- Unless one of the two is decided, the lock gets as high as the block two certificates below. -/
  covers : ∀ blk2 blk1, s.heap.justify nblk = some blk2 → s.heap.justify blk2 = some blk1 →
    (s.heap.get blk2).decided = true ∨ (s.heap.get blk1).decided = true ∨
      s.heap.height blk1 ≤ s.heap.height s'.bLock
  exec_cases : s'.bExec = s.bExec ∨ (s.heap.height s'.bExec < s.heap.height s'.bLock ∧
    ∃ blk2 blk1, HeadsChain s.heap nblk blk2 blk1 s'.bExec)

theorem LockStage.moves {nblk blk2 blk1 : BlockPtr} (l : LockStage E nblk blk2 blk1 s s') :
    Moves nblk s s' ∧ s.heap.height blk1 ≤ s.heap.height s'.bLock := by
  obtain ⟨hle₁, hle⟩ := le_height_newLock blk1 s
  rw [← l.saves.bLock_eq] at hle₁ hle
  refine ⟨⟨hle, ?_, ?_, Or.inl (Stays.lockStage l).bExec_eq⟩, hle₁⟩
  · rw [l.saves.bLock_eq]
    rcases newLock_cases blk1 s with ⟨h, -⟩ | ⟨h, -⟩
    · rw [h]
      exact Or.inr ⟨blk2, l.justify₂, l.justify₁⟩
    · exact Or.inl h
  · intro c2 c1 h2 h1
    obtain rfl : blk2 = c2 := Option.some.inj (l.justify₂.symm.trans h2)
    obtain rfl : blk1 = c1 := Option.some.inj (l.justify₁.symm.trans h1)
    exact Or.inr (Or.inr hle₁)

theorem UpdateOk.moves (W : WellFormed E s) {nblk : BlockPtr} (u : UpdateOk E nblk s s') :
    Moves nblk s s' := by
  cases u with
  | early h => exact ⟨le_rfl, Or.inl rfl, fun blk2 _ h2 _ => Or.inl (h blk2 h2), Or.inl rfl⟩
  | @hqcOnly blk2 h2 hd2 h =>
      have hlock : (updateHqc blk2 (s.heap.get nblk).getJustifyQc s).bLock = s.bLock := by
        unfold updateHqc
        split <;> rfl
      refine ⟨hlock ▸ le_rfl, Or.inl hlock, ?_, Or.inl (updateHqc_frame _ _ _).1⟩
      intro c2 c1 h2' h1
      obtain rfl : blk2 = c2 := Option.some.inj (h2.symm.trans h2')
      exact Or.inr (Or.inl (h c1 h1))
  | lockOnly l => exact l.moves.1
  | @commit blk2 blk1 blk queue tx s₂ s₃ c _ =>
      obtain ⟨m, hle₁⟩ := c.lock.moves
      have hlock : (committed blk1 blk tx s s₃).bLock = s₂.bLock := c.apply.keeps.bLock_eq
      refine ⟨hlock ▸ m.lock_le, hlock ▸ m.lock_cases, hlock ▸ m.covers, Or.inr ⟨?_, blk2, blk1, ?_⟩⟩
      · have hlt := W.shape.height_parent c.parent₁
        rw [hlock]
        show s.heap.height blk < _
        omega
      · exact ⟨c.lock.justify₂, c.lock.justify₁, c.justify₀, c.parent₂, c.parent₁⟩

theorem UpdateOk.silent {nblk : BlockPtr} (u : UpdateOk E nblk s s') : Silent s s' := by
  have hlocked : ∀ {blk2 blk1 : BlockPtr} {t : Replica V}, LockStage E nblk blk2 blk1 s t →
      Silent s t := by
    intro blk2 blk1 t l
    obtain ⟨effs, htrace, hsaved, -⟩ := l.saves.trace_eq
    refine ⟨effs, htrace, fun e he => ?_⟩
    obtain ⟨p, w, rfl, -⟩ := hsaved e he
    rfl
  cases u with
  | early _ => exact .of_eq rfl
  | hqcOnly _ _ _ => exact .of_eq (updateHqc_trace _ _ _)
  | lockOnly l => exact hlocked l
  | commit c _ =>
      apply (hlocked c.lock).trans
      refine ⟨_, c.apply.trace_eq, fun e he => ?_⟩
      obtain ⟨p, -, rfl⟩ := List.mem_map.mp he
      rfl

end Replica

open Replica

/-- After a commit the lock is above the committed block. -/
theorem lock_above_exec (h : Reach (step E) anyInput (start E) s) (hne : s.bExec ≠ genesisPtr) :
    s.heap.height s.bExec < s.heap.height s.bLock := by
  have key : WellFormed E s ∧
      (s.bExec ≠ genesisPtr → s.heap.height s.bExec < s.heap.height s.bLock) := by
    refine h.invariant (I := fun s => WellFormed E s ∧
      (s.bExec ≠ genesisPtr → s.heap.height s.bExec < s.heap.height s.bLock))
      ⟨WellFormed.start E, fun h => absurd rfl h⟩ ?_
    intro t u i ht _ hs
    obtain ⟨W, hlt⟩ := ht
    obtain ⟨W', o | ⟨schedule, p, rid, rest, t₁, -, P⟩⟩ := step_cases W hs
    · refine ⟨W', fun hne => ?_⟩
      rw [o.bExec_eq, o.bLock_eq, o.heap.height_eq W.exec_settled, o.heap.height_eq W.lock_settled]
      exact hlt (o.bExec_eq ▸ hne)
    · refine ⟨W', fun hne => ?_⟩
      have hvote : t₁.heap = t.heap ∧ t₁.bExec = t.bExec ∧ t₁.bLock = t.bLock := by
        rcases voteOnProposal_ok (W.popEvent schedule P.queue_eq) P.ne_genesis P.settled P.vote with
          v | ⟨hs₁, -⟩
        · obtain ⟨q, -, rfl⟩ := v.eq
          exact ⟨rfl, rfl, rfl⟩
        · rw [hs₁]
          exact ⟨rfl, rfl, rfl⟩
      obtain ⟨hheap, hexec, hlock⟩ := hvote
      have m := P.update.moves P.wellFormed
      rw [P.update.cores.height_eq]
      rcases m.exec_cases with heq | ⟨habove, -⟩
      · have hle := m.lock_le
        rw [heq] at hne ⊢
        rw [hheap, hlock] at hle
        rw [hheap, hexec]
        exact lt_of_lt_of_le (hlt (hexec ▸ hne)) hle
      · exact habove
  exact key.2 hne

theorem exec_le_lock (h : Reach (step E) anyInput (start E) s) :
    s.heap.height s.bExec ≤ s.heap.height s.bLock := by
  by_cases hne : s.bExec = genesisPtr
  · obtain ⟨W, -⟩ := wellFormed_commitLog_of_reach h
    rw [hne, W.shape.height_genesis]
    exact Nat.zero_le _
  · exact (lock_above_exec h hne).le

end Fred.Hotstuff
