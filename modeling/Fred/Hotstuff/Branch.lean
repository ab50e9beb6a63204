/-
# Fred.Hotstuff.Branch -- the branch a proposer builds on

A proposer builds on the branch of its leaf, the chain of hashes from `b_leaf` down to the block of
height 1. A proposal puts one hash on top of it (`path_mint`); a certificate that is raised to a block of
the branch cuts it down to that block (`path_suffix_of_mem`). A block of the machine is asked for only
on a branch of three blocks or more (`three_le_of_supports`).
-/
import Fred.Hotstuff.StableLeader
import Fred.Hotstuff.Circulation

namespace Fred.Hotstuff

open Fred.Forest Fred.Transition Replica

variable {V : Type} {E : Setup V} {s s' : Replica V}

/-! ## The block a certificate is shown on -/

/-- The block, if there is one, that the input shows `update_hqc` a certificate on. -/
def certifiedBy (E : Setup V) (s : Replica V) : Input → Option BlockPtr
  | .event _ =>
    match s.eventQueue with
    | .vote cert b rid :: _ =>
      match (s.heap.get b).selfQc.addPartialCertificate rid cert with
      | .error _ => none
      | .ok qc =>
        if qc.hasQuorum E.config && !(s.heap.get b).selfQc.hasQuorum E.config then some b else none
    | .proposal p _ :: _ =>
      (s.heap.justify p).filter fun b => (s.heap.get b).decided = false
    | [] => none
  | _ => none

theorem certifiedBy_eq_some_iff {i : Input} {b : BlockPtr} :
    certifiedBy E s i = some b ↔ Certifies E s i b := by
  constructor
  · intro h
    unfold certifiedBy at h
    split at h
    · split at h
      · rename_i cert b' rid rest hqueue
        split at h
        · cases h
        · rename_i qc hqc
          split at h
          · rename_i hnew
            obtain rfl := Option.some.inj h
            exact .vote hqueue hqc hnew
          · cases h
      · rename_i hqueue
        obtain ⟨hj, hd⟩ := Option.filter_eq_some_iff.mp h
        exact .proposal hqueue hj (by simpa using hd)
      · cases h
    · cases h
  · intro h
    cases h with
    | vote hqueue hqc hnew => simp [certifiedBy, hqueue, hqc, hnew]
    | proposal hqueue hjustify hundecided =>
        simp [certifiedBy, hqueue, hjustify, hundecided, Option.filter]

/-! ## The certificate the proposer waits for -/

namespace Replica

theorem updateHqc_latestNewQc (b : BlockPtr) (qc : QuorumCertificate) (s : Replica V) :
    (updateHqc b qc s).latestNewQc = s.latestNewQc := by
  rcases updateHqc_cases b qc s with ⟨-, h⟩ | ⟨-, h⟩ <;> rw [h]

theorem UpdateOk.latestNewQc_eq {p : BlockPtr} (u : UpdateOk E p s s') :
    s'.latestNewQc = s.latestNewQc := by
  have hlock : ∀ {blk2 blk1 : BlockPtr} {s₂ : Replica V}, LockStage E p blk2 blk1 s s₂ →
      s₂.latestNewQc = s.latestNewQc := fun l =>
    l.spec.keeps.latestNewQc_eq.trans (updateHqc_latestNewQc _ _ s)
  cases u with
  | early => rfl
  | hqcOnly => exact updateHqc_latestNewQc _ _ s
  | lockOnly l => exact hlock l
  | commit c => exact c.apply.keeps.latestNewQc_eq.trans (hlock c.lock)

end Replica

/-- **Only a vote that completes a quorum ends the wait of a proposer.** -/
theorem latestNewQc_step {i : Input} (W : WellFormed E s) (h : step E i s = .ok s') :
    s'.latestNewQc = s.latestNewQc ∨
      ∃ b, Certifies E s i b ∧ s'.latestNewQc = some (s.heap.hash b) ∧
        (s'.heap.get b).selfQc.hasQuorum E.config = true := by
  cases step_form W h with
  | @voteEvent schedule cert b rid rest qc hqueue hqc =>
      unfold voted
      split
      · rename_i hnew
        refine Or.inr ⟨b, .vote hqueue hqc hnew, rfl, ?_⟩
        have hquorum : qc.hasQuorum E.config = true := (Bool.and_eq_true_iff.mp hnew).1
        show ((updateHqc b qc (setSelfQc b qc _)).heap.get b).selfQc.hasQuorum E.config = true
        rw [(updateHqc_keeps b qc _).1, heap_setSelfQc, Heap.get_modify_self]
        exact hquorum
      · exact Or.inl rfl
  | proposalEvent hstep =>
      have hupdate := hstep.update.latestNewQc_eq
      rcases voteOnProposal_ok (W.popEvent _ hstep.queue_eq) hstep.ne_genesis hstep.settled
        hstep.vote with v | ⟨hsame, -⟩
      · obtain ⟨q, -, hsame⟩ := v.eq
        rw [hsame] at hupdate
        exact Or.inl hupdate
      · rw [hsame] at hupdate
        exact Or.inl hupdate
  | collect => exact Or.inl (collect_spec W.collector).keeps.latestNewQc_eq
  | _ => exact Or.inl rfl

/-! ## The hashes below a block -/

section
variable {p q : BlockPtr}

/-- **The hash of an object fixes the hashes below it.** -/
theorem NoCollision.path_eq (N : NoCollision s) (W : WellFormed E s) (hp : s.heap.Settled p)
    (hq : s.heap.Settled q) (h : s.heap.hash p = s.heap.hash q) : s.heap.path p = s.heap.path q := by
  have hparent := N.parent_eq W hp hq h
  rcases ha : s.heap.parent p with _ | a
  · have hb : s.heap.parent q = none := hparent.symm.trans ha
    unfold Heap.path
    rw [W.forest.trunk_of_root ha, W.forest.trunk_of_root hb]
  · have hb : s.heap.parent q = some a := hparent.symm.trans ha
    rw [W.path_of_parent ha, W.path_of_parent hb, h]

/-- Settled objects keep the hashes below them. -/
theorem path_step {i : Input} (W : WellFormed E s) (h : step E i s = .ok s')
    (hp : s.heap.Settled p) : s'.heap.path p = s.heap.path p := by
  have H := heap_step W h
  unfold Heap.path
  rw [W.shape.trunk_eq (step_cases W h).1.shape H hp, List.map_inj_left]
  intro x hx
  exact H.hash_eq (W.shape.settled_descends hp (W.forest.mem_trunk.mp hx).1)

/-- A hash of the branch is the hash of an object above genesis that `p` descends from. -/
theorem mem_path {x : Hash} (W : WellFormed E s) :
    x ∈ s.heap.path p ↔
      ∃ b, Descends s.heap.parent p b ∧ 0 < s.heap.height b ∧ s.heap.hash b = x := by
  simp [Heap.path, W.forest.mem_trunk, and_assoc]

/-- The hashes below a block whose hash is on the branch end the branch. -/
theorem path_suffix_of_mem (N : NoCollision s) (W : WellFormed E s) (hp : s.heap.Settled p)
    (hq : s.heap.Settled q) (h : s.heap.hash q ∈ s.heap.path p) :
    s.heap.path q <:+ s.heap.path p := by
  obtain ⟨b, hb, -, hhash⟩ := (mem_path W).mp h
  rw [← N.path_eq W (W.shape.settled_descends hp hb) hq hhash]
  exact W.path_suffix hb

/-- The hashes of a branch belong to blocks of different heights. -/
theorem nodup_path (N : NoCollision s) (W : WellFormed E s) (hp : s.heap.Settled p) :
    (s.heap.path p).Nodup := by
  refine W.forest.nodup_trunk.map_on fun a ha b hb heq => ?_
  have hda := (W.forest.mem_trunk.mp ha).1
  have hdb := (W.forest.mem_trunk.mp hb).1
  exact W.forest.eq_of_height_eq hda hdb
    (N.height_eq W (W.shape.settled_descends hp hda) (W.shape.settled_descends hp hdb) heq)

end

/-! ## The branch of the leaf -/

/-- **A proposal puts the new block on top of the branch.** -/
theorem path_mint {i : Input} (W : WellFormed E s) (N : NoCollision s)
    (hi : i = .doPropose ∨ i = .doEmptyPropose) (h : step E i s = .ok s') :
    s'.heap.path s'.bLeaf = s'.heap.hash s'.bLeaf :: s.heap.path s.bLeaf ∧
      s'.heap.height s'.bLeaf = s.heap.height s.bLeaf + 1 ∧ s'.hqc = s.hqc ∧
      s'.latestNewQc = s.latestNewQc := by
  have W' := (step_cases W h).1
  obtain ⟨q, hq, hparent, hleaf, -, hhqc, hlatest⟩ := mint_step W hi h
  obtain ⟨hhash, hset⟩ := W.shape.cached hq
  rw [hleaf]
  refine ⟨?_, height_mint W W' N (heap_step W h) hq hparent, hhqc, hlatest⟩
  rw [W'.path_of_parent hparent, path_step W h hset, N.path_eq W hset W.leaf_settled hhash]

/-- A block of the machine is asked for on a branch of at least three blocks. -/
theorem three_le_of_supports (W : WellFormed E s) {p : BlockPtr}
    (h : s.heap.supportsNonemptyChildProposal E.selfId 3 p = true) : 3 ≤ s.heap.height p := by
  obtain ⟨p₂, p₁, p₀, c⟩ := directChain_of_supports W.shape h
  rw [c.height_eq W.shape]
  omega

end Fred.Hotstuff
