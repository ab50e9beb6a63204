/-
# Fred.Hotstuff.World -- replicas that run against each other

A `System` is `3 * f + 1` configured replicas of which at most `f` are faulty. The correct ones run
the code; the faulty ones and the network are the inputs: any message may arrive at any time, any
number of times, or never. What restricts them is that no signature of a correct replica arrives that
it has not made, and that the blocks in circulation are as `Circulation` says (`Admissible`).
-/
import Fred.Hotstuff.Evidence

namespace Fred.Hotstuff

open Fred.Forest Fred.Transition Replica

variable {V : Type}

/-- Replicas that share a configuration, and what is assumed about faults and blocks. -/
structure System (V : Type) where
  crypto : Crypto
  infos : List ReplicaInfo
  config : ReplicaConfig
  config_eq : ReplicaConfig.build infos = .ok config
  secretKey : ReplicaID → SecretKey
  vm : ReplicaID → VmBridge V
  /-- `f`, the number of faults that are tolerated. -/
  faults : ℕ
  replicas_eq : infos.length = 3 * faults + 1
  faulty : Finset ReplicaID
  faulty_le : faulty.card ≤ faults
  /-- The headers of the blocks in circulation. -/
  blocks : Set HotstuffBlockHeader
  circulation : Circulation crypto blocks

namespace System

variable (N : System V)

def setup (r : ReplicaID) : Setup V := ⟨N.crypto, N.config, r, N.secretKey r, N.vm r⟩

def Correct (r : ReplicaID) : Prop := r ∈ N.config.ids ∧ r ∉ N.faulty

theorem built : ReplicaConfig.Built N.infos N.config := ReplicaConfig.built_of_build N.config_eq

/-- The quorums `finish_init` computes are large enough to meet in a correct replica. -/
theorem quorums_meet : N.config.ids.card + N.faulty.card < 2 * N.config.nmajority := by
  have hf := N.faulty_le
  have hn := N.replicas_eq
  rw [N.built.card_ids, N.built.nmajority_eq]
  omega

end System

/-- The states of all replicas. Those of faulty replicas are never looked at. -/
abbrev World (V : Type) := ReplicaID → Replica V

/-- One replica takes a step. -/
structure Action where
  rid : ReplicaID
  input : Input
  deriving DecidableEq, Repr

namespace World

def step (N : System V) (a : Action) (w : World V) : Except (Exn × Replica V) (World V) :=
  match Hotstuff.step (N.setup a.rid) a.input (w a.rid) with
  | .error e => .error e
  | .ok s => .ok (Function.update w a.rid s)

/-- Every replica after `init_clean` on a fresh data directory. -/
def start (N : System V) : World V := fun r => Hotstuff.start (N.setup r)

/-- The replica has signed the hash; a faulty one may have signed anything. -/
def signed (N : System V) (w : World V) (r : ReplicaID) (x : Hash) : Prop :=
  r ∈ N.faulty ∨ (w r).Signed x

/-- What may happen: a correct replica takes a step, on an input without forged signatures, that makes
no block outside circulation and none above the width of `vheight`. -/
structure Admissible (N : System V) (w : World V) (a : Action) : Prop where
  correct : N.Correct a.rid
  unforged : Unforged (N.setup a.rid) (signed N w) a.input
  regular : RegularStep N.blocks (N.setup a.rid) (w a.rid) a.input

variable {N : System V} {w w' : World V}

theorem step_ok {a : Action} (h : step N a w = .ok w') :
    ∃ s, Hotstuff.step (N.setup a.rid) a.input (w a.rid) = .ok s ∧
      w' = Function.update w a.rid s := by
  unfold step at h
  split at h
  · cases h
  · rename_i s hs
    exact ⟨s, hs, (Except.ok.inj h).symm⟩

/-- What each replica does in a run of the world is a run of its own. -/
theorem local_reach (h : Reach (step N) (Admissible N) (start N) w) (r : ReplicaID) :
    Reach (Hotstuff.step (N.setup r)) (RegularStep N.blocks (N.setup r))
      (Hotstuff.start (N.setup r)) (w r) := by
  refine h.invariant (I := fun w => Reach (Hotstuff.step (N.setup r))
    (RegularStep N.blocks (N.setup r)) (Hotstuff.start (N.setup r)) (w r)) (Reach.refl _) ?_
  intro t u a ht ha hs
  obtain ⟨s, hstep, rfl⟩ := step_ok hs
  by_cases hr : r = a.rid
  · subst hr
    rw [Function.update_self]
    exact ht.tail ha.regular hstep
  · rw [Function.update_of_ne hr]
    exact ht

theorem wellFormed_of_reach (h : Reach (step N) (Admissible N) (start N) w) (r : ReplicaID) :
    WellFormed (N.setup r) (w r) :=
  (wellFormed_commitLog_of_reach (local_reach h r)).1

/-- Signatures stay. -/
theorem signed_mono {a : Action} (W : WellFormed (N.setup a.rid) (w a.rid))
    (h : step N a w = .ok w') (r : ReplicaID) (x : Hash) (hx : signed N w r x) :
    signed N w' r x := by
  obtain ⟨s, hstep, rfl⟩ := step_ok h
  refine hx.imp_right fun hx => ?_
  by_cases hr : r = a.rid
  · subst hr
    rw [Function.update_self]
    exact signed_step W hstep hx
  · rw [Function.update_of_ne hr]
    exact hx

/-- **Every signature in the world was made by its signer.** -/
theorem evidence_of_reach (h : Reach (step N) (Admissible N) (start N) w) :
    ∀ r, Evidence N.config (signed N w) (w r) := by
  refine h.invariant_of_reach (I := fun w => ∀ r, Evidence N.config (signed N w) (w r)) ?_ ?_
  · exact fun r => Evidence.start (N.setup r) N.config
  · intro t u a ht D ha hs r
    have W := wellFormed_of_reach ht a.rid
    have hmono := signed_mono W hs
    obtain ⟨s, hstep, rfl⟩ := step_ok hs
    by_cases hr : r = a.rid
    · subst hr
      rw [Function.update_self]
      refine ((D a.rid).mono hmono).step W ha.correct.1 ?_ ?_ hstep
      · intro x hx
        right
        show (Function.update t a.rid s a.rid).Signed x
        rw [Function.update_self]
        exact hx
      · intro sig x hsig q pk hpk hchk
        exact hmono q x (ha.unforged sig x hsig q pk hpk hchk)
    · rw [Function.update_of_ne hr]
      exact (D r).mono hmono

end World

end Fred.Hotstuff
