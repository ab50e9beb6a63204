/-
# Fred.Hotstuff.Bodies -- which blocks have their body

The collector knows linked objects only and works below the executed block, so an object whose body
is gone is linked and below `b_exec`, and every other object has the body its header names
(`BodyLog`). An object can be flushed at a pause in the middle of `update`; the executed block does
not move before the commit loop is done, so the bound at the start of the call is good for all of it.
-/
import Fred.Hotstuff.Lock

namespace Fred.Hotstuff

open Fred.Forest Fred.Transition Replica

variable {V : Type} {E : Setup V} {s s' : Replica V}

namespace Replica

theorem exists_boundedBy (gc : BlockGarbageCollector) : ∃ n, gc.BoundedBy n := by
  refine ⟨gc.hotstuffHeightToGc.getD 0 + (gc.job.getD (0, 0)).1, ?_, ?_⟩
  · intro h hh
    rw [hh, Option.getD_some]
    exact Nat.le_add_right _ _
  · intro h i hh
    rw [hh, Option.getD_some]
    exact Nat.le_add_left _ _

theorem Swept.collectN {s₀ : Replica V} :
    ∀ (n : ℕ) {s : Replica V}, Swept s₀ s → Swept s₀ (collectN n s)
  | 0, _, h => h
  | n + 1, s, h => by
      obtain ⟨bound, hb⟩ := exists_boundedBy s.blockStore.gcCollector
      exact Swept.collectN n (h.collect (collect_spec hb).flushed.sameCores.parent_eq)

/-- Only the pauses of `update` clear bodies. -/
theorem closed_swept (E : Setup V) (s₀ : Replica V) : Closed E (Swept s₀) where
  updateHqc := by
    intro s b qc h
    unfold Replica.updateHqc
    split
    · exact h.congr rfl ⟨rfl, rfl⟩ fun _ => rfl
    · exact h
  setLock := fun _ h => h.congr rfl ⟨rfl, rfl⟩ fun _ => rfl
  pause := by
    intro s h
    unfold Replica.pause
    split
    · exact h
    · rename_i n rest _
      have h₁ : Swept s₀ { s with schedule := rest } := h.congr rfl ⟨rfl, rfl⟩ fun _ => rfl
      exact h₁.collectN n
  setWritten := fun p h => h.modify p _ rfl rfl
  saveBlock := fun _ h => h.congr rfl ⟨rfl, rfl⟩ fun _ => rfl
  decideBlock := fun b h => h.modify b _ rfl rfl
  applied := fun _ h => h.congr rfl ⟨rfl, rfl⟩ fun _ => rfl
  setVm := fun _ h => h.congr rfl ⟨rfl, rfl⟩ fun _ => rfl
  setExec := fun _ h => h.congr rfl ⟨rfl, rfl⟩ fun _ => rfl
  setIndex := fun _ h => h.congr rfl ⟨rfl, rfl⟩ fun _ => rfl
  prune := fun _ h => h.congr rfl ⟨rfl, rfl⟩ fun _ => rfl

end Replica

/-! ## Flushed objects -/

/-- The collector knows linked objects only, and an object without its body is linked and below the
executed block. -/
structure FlushedLow (s : Replica V) : Prop where
  listed : s.Listed
  flushed : ∀ p, p ≠ genesisPtr → p < s.heap.next → (s.heap.get p).flushedFromMemory = true →
    s.heap.Settled p ∧ s.heap.height p < s.heap.height s.bExec

namespace FlushedLow

theorem start (E : Setup V) : FlushedLow (Hotstuff.start E) where
  listed := by
    rintro p (hp | hp)
    · exact absurd hp List.not_mem_nil
    · exact absurd hp List.not_mem_nil
  flushed := fun _ hp hlt => absurd (Nat.lt_one_iff.mp hlt) hp

/-- A step that leaves the executed block alone. -/
theorem outside (F : FlushedLow s) (W : WellFormed E s) (o : Outside E s s') : FlushedLow s' := by
  obtain ⟨hlisted, hswept⟩ := o.sweeps F.listed
  refine ⟨hlisted, fun p hp hlt hf => ?_⟩
  by_cases hold : p < s.heap.next
  · have hset : s.heap.Settled p ∧ s.heap.height p < s.heap.height s.bExec := by
      rcases hswept p hold hf with hflushed | hset
      · exact F.flushed p hp hold hflushed
      · rcases (o.bodies p hold).1 hf with hflushed | hlow
        · exact F.flushed p hp hold hflushed
        · exact ⟨hset, by omega⟩
    rw [o.bExec_eq, o.heap.height_eq hset.1, o.heap.height_eq W.exec_settled]
    exact ⟨o.heap.settled hset.1, hset.2⟩
  · rw [(o.new p (Nat.not_lt.mp hold) hlt).2.2.1] at hf
    cases hf

/-- A call of `update`. -/
theorem update {p : BlockPtr} (F : FlushedLow s) (W : WellFormed E s) (u : UpdateOk E p s s')
    (hcall : update E p s = .ok s') : FlushedLow s' := by
  have hswept := ((closed_swept E s).update p (Swept.refl F.listed)).1 s' hcall
  have A := u.aged
  have hexec := W.forest.height_le u.descends_exec
  refine ⟨hswept.listed, fun q hq hlt hf => ?_⟩
  rw [A.cores.next_eq] at hlt
  rw [A.cores.settled_iff, A.cores.height_eq]
  have hold : s.heap.Settled q ∧ s.heap.height q < s.heap.height s.bExec := by
    rcases hswept.flushed q hf with hflushed | hset
    · exact F.flushed q hq hlt hflushed
    · rcases A.flushed_of q hf with hflushed | hlow
      · exact F.flushed q hq hlt hflushed
      · exact ⟨hset, by omega⟩
  exact ⟨hold.1, by omega⟩

/-- The vote before a call of `update` flushes nothing, and neither does a proposal that gets none. -/
theorem voteOnProposal {schedule : List ℕ} {p : BlockPtr} {rid : ReplicaID} {rest : List Event}
    {s₁ : Replica V} (F : FlushedLow s) (W : WellFormed E s)
    (hq : s.eventQueue = .proposal p rid :: rest)
    (h : voteOnProposal E p rid { s with eventQueue := rest, schedule := schedule } = .ok s₁) :
    WellFormed E s₁ ∧ FlushedLow s₁ ∧ s₁.heap = s.heap := by
  obtain ⟨hne, hset⟩ : Event.Ok s.heap (.proposal p rid) := W.events _ (hq ▸ List.mem_cons_self)
  have W₀ := W.popEvent schedule hq
  rcases voteOnProposal_ok W₀ hne hset h with v | ⟨rfl, -⟩
  · refine ⟨v.wellFormed W₀, ?_⟩
    obtain ⟨queue, -, rfl⟩ := v.eq
    exact ⟨⟨F.listed, F.flushed⟩, rfl⟩
  · exact ⟨W₀, ⟨F.listed, F.flushed⟩, rfl⟩

theorem step {i : Input} (F : FlushedLow s) (W : WellFormed E s) (h : step E i s = .ok s') :
    FlushedLow s' := by
  obtain ⟨W', o | ⟨schedule, p, rid, rest, s₁, -, P⟩⟩ := step_cases W h
  · exact F.outside W o
  · exact (F.voteOnProposal W P.queue_eq P.vote).2.1.update P.wellFormed P.update P.call

end FlushedLow

/-! ## Bodies -/

/-- An object without its body is linked and below the executed block; any other has the body its
header names. -/
structure BodyLog (E : Setup V) (s : Replica V) : Prop where
  listed : s.Listed
  flushed : ∀ p, p ≠ genesisPtr → p < s.heap.next → (s.heap.get p).flushedFromMemory = true →
    s.heap.Settled p ∧ s.heap.height p < s.heap.height s.bExec
  body : ∀ p, p ≠ genesisPtr → p < s.heap.next → (s.heap.get p).flushedFromMemory = false →
    E.crypto.hashBody (s.heap.get p).wireBlock.body = (s.heap.header p).bodyHash

namespace BodyLog

theorem flushedLow (B : BodyLog E s) : FlushedLow s := ⟨B.listed, B.flushed⟩

theorem start (E : Setup V) : BodyLog E (Hotstuff.start E) :=
  ⟨(FlushedLow.start E).listed, (FlushedLow.start E).flushed,
    fun _ hp hlt => absurd (Nat.lt_one_iff.mp hlt) hp⟩

/-- A step that leaves the executed block alone. -/
theorem outside (B : BodyLog E s) (W : WellFormed E s) (o : Outside E s s') : BodyLog E s' := by
  have F := B.flushedLow.outside W o
  refine ⟨F.listed, F.flushed, fun p hp hlt hf => ?_⟩
  by_cases hold : p < s.heap.next
  · obtain ⟨hf', hwire⟩ := (o.bodies p hold).2 hf
    show E.crypto.hashBody (s'.heap.get p).wireBlock.body =
      (s'.heap.get p).wireBlock.header.bodyHash
    rw [hwire]
    exact B.body p hp hold hf'
  · exact (o.new p (Nat.not_lt.mp hold) hlt).2.2.2

/-- A call of `update`. -/
theorem update {p : BlockPtr} (B : BodyLog E s) (W : WellFormed E s) (u : UpdateOk E p s s')
    (hcall : update E p s = .ok s') : BodyLog E s' := by
  have F := B.flushedLow.update W u hcall
  refine ⟨F.listed, F.flushed, fun q hq hlt hf => ?_⟩
  rw [u.aged.cores.next_eq] at hlt
  obtain ⟨hf', hwire⟩ := u.aged.unflushed_of q hf
  show E.crypto.hashBody (s'.heap.get q).wireBlock.body =
    (s'.heap.get q).wireBlock.header.bodyHash
  rw [hwire]
  exact B.body q hq hlt hf'

/-- The vote before a call of `update` touches no body. -/
theorem vote {p : BlockPtr} {rid : ReplicaID} (B : BodyLog E s) (v : VoteSpec E p rid s s') :
    BodyLog E s' := by
  obtain ⟨queue, -, rfl⟩ := v.eq
  exact ⟨B.listed, B.flushed, B.body⟩

theorem step {i : Input} (B : BodyLog E s) (W : WellFormed E s) (h : step E i s = .ok s') :
    BodyLog E s' := by
  obtain ⟨W', o | ⟨schedule, p, rid, rest, s₁, -, P⟩⟩ := step_cases W h
  · exact B.outside W o
  · have W₀ := W.popEvent schedule P.queue_eq
    have B₀ : BodyLog E { s with eventQueue := rest, schedule := schedule } :=
      ⟨B.listed, B.flushed, B.body⟩
    have B₁ : BodyLog E s₁ := by
      rcases voteOnProposal_ok W₀ P.ne_genesis P.settled P.vote with v | ⟨rfl, -⟩
      · exact B₀.vote v
      · exact B₀
    exact B₁.update P.wellFormed P.update P.call

end BodyLog

theorem bodyLog_of_reach {P : Replica V → Input → Prop} (h : Reach (step E) P (start E) s) :
    BodyLog E s := by
  refine h.invariant_of_reach (BodyLog.start E) ?_
  intro t u i ht B _ hs
  exact B.step (wellFormed_commitLog_of_reach ht).1 hs

end Fred.Hotstuff
