/-
# Fred.Hotstuff.Liveness -- synchronous rounds commit

Agreement says that what is committed never differs; here is that something is. Whatever has happened in an
admissible run of a world -- lost messages, faulty replicas, other leaders, but no forged signature and no
block beside the one it certifies -- once a leader and a quorum of followers are `Synced`, that is, they
have handled what was queued, have the leader's leaf, and nobody has a higher certificate than the leader,
nothing that was promised before stands in the way: locks are below the certificates that set them
(`Placed`), and what anybody has executed is below every certificate at least as high, by the safety
theorem. So rounds go through, and after as many of them as the voting heights are ahead of the leaf, each
commits the block of three rounds before (`rounds_commit`).
-/
import Fred.Hotstuff.Progress
import Fred.Hotstuff.Agreement
import Fred.Hotstuff.Branch

namespace Fred.Hotstuff

open Fred.Forest Fred.Transition Replica

variable {V : Type}

/-! ## Where lock and leaf are -/

/-- The lock is below the highest certified block, and the leaf is on top of it. -/
structure Placed (s : Replica V) : Prop where
  lock : s.bLock = genesisPtr ∨ s.heap.height s.bLock < s.heap.height s.hqc.1
  leaf : s.heap.path s.hqc.1 <:+ s.heap.path s.bLeaf

section
variable {E : Setup V} {s s' : Replica V} {K : Set HotstuffBlockHeader}

theorem Placed.start (E : Setup V) : Placed (Hotstuff.start E) :=
  ⟨Or.inl rfl, List.suffix_rfl⟩

/-- What a step sets the lock to is below the certificate it has seen on the way. -/
theorem Placed.lock_step (P : Placed s) (T : Standing E K s) (C : Circulation E.crypto K)
    (hexec : s.heap.height s.bExec ≤ s.heap.height s.bLock) {i : Input}
    (h : Hotstuff.step E i s = .ok s') :
    s'.bLock = genesisPtr ∨ s'.heap.height s'.bLock < s'.heap.height s'.hqc.1 := by
  have W := T.wellFormed
  have H := heap_step W h
  have hkeep : s'.bLock = s.bLock →
      s'.bLock = genesisPtr ∨ s'.heap.height s'.bLock < s'.heap.height s'.hqc.1 := by
    intro hlock
    have hle := hqc_le_step W h
    rw [hlock, H.height_eq W.lock_settled]
    exact P.lock.imp_right fun hlt => lt_of_lt_of_le hlt hle
  obtain ⟨W', o | ⟨schedule, p, rid, rest, s₁, rfl, D⟩⟩ := step_cases W h
  · exact hkeep o.bLock_eq
  · obtain ⟨q, hq⟩ := D.settled.resolve_left D.ne_genesis
    obtain ⟨j, hj, -⟩ := W.shape.justify_cached hq
    rcases D.lock_cases W hj with hlock | hlock
    · exact hkeep hlock
    · right
      have hset := W.shape.settled_justify hj
      have hlt := (W.justify_below_of_regular T.regular C hlock).2
      have hundecided : (s.heap.get j).decided = false := by
        rcases hd : (s.heap.get j).decided with _ | _
        · rfl
        · exfalso
          -- a decided block is below the lock, which does not go down
          have hbelow := (T.index.decided_iff j (W.shape.lt_next_of_settled hset)).mp hd
          have hle := W.forest.height_le hbelow
          obtain ⟨hheap, -, hlock₁, -, -⟩ := D.vote_frame W
          have hup := (D.update.moves D.wellFormed).lock_le
          rw [hheap, hlock₁] at hup
          omega
      have hle := (Certifies.proposal D.queue_eq hj hundecided).height_le W h
      rw [H.height_eq (W.shape.settled_justify hlock)]
      rw [H.height_eq hset] at hle
      exact lt_of_lt_of_le hlt hle

/-- Proposals go on top of the leaf, and a new certificate takes the leaf along. -/
theorem Placed.leaf_step (P : Placed s) (T : Standing E K s) (C : Circulation E.crypto K)
    {i : Input} (h : Hotstuff.step E i s = .ok s') :
    s'.heap.path s'.hqc.1 <:+ s'.heap.path s'.bLeaf := by
  have W := T.wellFormed
  have W' := (step_cases W h).1
  cases Hotstuff.leaf_step W h with
  | stay _ hhqc hleaf =>
      rw [hhqc, hleaf, path_step W h W.hqc_settled, path_step W h W.leaf_settled]
      exact P.leaf
  | raise _ hhqc hleaf =>
      rw [hhqc, hleaf]
  | @mint q _ hq hhqc hleaf _ hparent =>
      obtain ⟨hhash, hset⟩ := W.shape.cached hq
      rw [hhqc, hleaf, W'.path_of_parent hparent, path_step W h W.hqc_settled, path_step W h hset,
        path_eq_of_hash_eq W T.regular W T.regular C rfl hset W.leaf_settled hhash]
      exact P.leaf.trans (List.suffix_cons _ _)

theorem standing_of_reach (X : Keyed E) (h : Reach (step E) (RegularStep K E) (start E) s) :
    Standing E K s := by
  refine h.invariant (Standing.start E K) ?_
  intro t u i T hi hs
  exact T.step X hs (hi u hs)

theorem placed_of_reach (X : Keyed E) (C : Circulation E.crypto K)
    (h : Reach (step E) (RegularStep K E) (start E) s) : Placed s := by
  refine h.invariant_of_reach (Placed.start E) ?_
  intro t u i ht P _ hs
  have T := standing_of_reach X ht
  exact ⟨P.lock_step T C (exec_le_lock (reach_any ht)) hs, P.leaf_step T C hs⟩

end

namespace World

variable {N : System V} {w w₀ w' : World V} {ℓ : ReplicaID} {Q : List ReplicaID}

/-! ## Synced -/

/-- Nothing is queued, the followers have the leader's leaf and its highest certified block, and the
leader has the highest certificate and no block above its leaf. -/
structure Synced (ℓ : ReplicaID) (Q : List ReplicaID) (w : World V) : Prop where
  idle : ∀ r ∈ ℓ :: Q, (w r).eventQueue = []
  leaf : (w ℓ).blockStore.blockCache (leafHash ℓ w) = some (w ℓ).bLeaf
  leaf_stored : ∀ q ∈ Q, ∃ b, (w q).blockStore.blockCache (leafHash ℓ w) = some b
  hqc_stored : ∀ q ∈ Q, ∃ j, (w q).blockStore.blockCache (w ℓ).hqc.2.justify = some j
  highest : ∀ q ∈ Q, (w q).heap.height (w q).hqc.1 ≤ (w ℓ).heap.height (w ℓ).hqc.1
  top : ∀ x p, (w ℓ).blockStore.blockCache x = some p → (w ℓ).heap.height p ≤ leafHeight ℓ w

/-- **What a replica has executed is below every certificate that is as high as its own.** -/
theorem executed_below (h : Reach (step N) (Admissible N) (start N) w) {r r' : ReplicaID}
    (X : Keyed (N.setup r))
    (hle : (w r).heap.height (w r).hqc.1 ≤ (w r').heap.height (w r').hqc.1) :
    (w r).heap.path (w r).bExec <:+ (w r').heap.path (w r').hqc.1 := by
  have S := sane_of_reach h
  have hlocal := local_reach h r
  by_cases hne : (w r).bExec = genesisPtr
  · rw [hne, (S.wellFormed r).path_genesis]
    exact List.nil_suffix
  · obtain ⟨nblk, blk2, blk1, T⟩ := (S.promises r).exec_chain.resolve_left hne
    have hlt := lock_above_exec (reach_any hlocal) hne
    have hlock := (placed_of_reach X N.circulation hlocal).lock
    have hcert : (history N w).Certified ((w r').heap.path (w r').hqc.1) :=
      S.certified_of_hash (S.evidence r').hqc (S.wellFormed r').hqc_settled
        (S.wellFormed r').hqc_hash.symm
    refine S.sound.threeChain_below (S.threeChain T) (S.certified_justify T.justify₂) hcert ?_
    show ((w r).heap.path (w r).bExec).length ≤ ((w r').heap.path (w r').hqc.1).length
    rw [S.length_path, S.length_path]
    rcases hlock with hgenesis | hbelow
    · rw [hgenesis, (S.wellFormed r).shape.height_genesis] at hlt
      omega
    · omega

/-- **The past of a synced world does not stand in the way.** -/
theorem Synced.inStep (S : Synced ℓ Q w) (hkeyed : ∀ r ∈ ℓ :: Q, Keyed (N.setup r))
    (h : Reach (step N) (Admissible N) (start N) w) : InStep N ℓ Q w where
  ready := by
    intro r hr
    have D := sane_of_reach h
    have X := hkeyed r hr
    have T := standing_of_reach X (local_reach h r)
    have T₀ := standing_of_reach (hkeyed ℓ List.mem_cons_self) (local_reach h ℓ)
    have W := T.wellFormed
    have hstored : (∃ b, (w r).blockStore.blockCache (leafHash ℓ w) = some b) ∧
        ∃ j, (w r).blockStore.blockCache (w ℓ).hqc.2.justify = some j := by
      rcases List.mem_cons.mp hr with rfl | hq
      · refine ⟨⟨_, S.leaf⟩, ?_⟩
        rw [W.hqc_hash]
        exact exists_stored W W.hqc_settled
      · exact ⟨S.leaf_stored r hq, S.hqc_stored r hq⟩
    have hle : (w r).heap.height (w r).hqc.1 ≤ (w ℓ).heap.height (w ℓ).hqc.1 := by
      rcases List.mem_cons.mp hr with rfl | hq
      · exact Nat.le_refl _
      · exact S.highest r hq
    obtain ⟨⟨b, hb⟩, j, hj⟩ := hstored
    obtain ⟨hbhash, hbset⟩ := W.shape.cached hb
    obtain ⟨hjhash, hjset⟩ := W.shape.cached hj
    have hbpath := D.path_eq hbset T₀.wellFormed.leaf_settled hbhash
    have hjpath := D.path_eq hjset T₀.wellFormed.hqc_settled (hjhash.trans T₀.wellFormed.hqc_hash)
    have hjheight : (w r).heap.height j = (w ℓ).heap.height (w ℓ).hqc.1 := by
      rw [← D.length_path, hjpath, D.length_path]
    have P := placed_of_reach X N.circulation (local_reach h r)
    have P₀ := placed_of_reach (hkeyed ℓ List.mem_cons_self) N.circulation (local_reach h ℓ)
    refine ⟨b, j, T, S.idle r hr, hb, hj, ?_, ?_⟩
    · apply W.descends_of_path_suffix (by rw [hbhash]; exact hb) W.exec_stored
      rw [hbpath]
      exact (executed_below h X hle).trans P₀.leaf
    · rcases P.lock with hgenesis | hlt
      · right
        rw [hgenesis]
        exact W.shape.descends_genesis hbset
      · left
        rw [hjheight]
        exact lt_of_lt_of_le hlt hle
  leaf_stored := S.leaf
  top := S.top

/-! ## Rounds one after another -/

/-- In every round the leader is asked to propose, and what it mints is in circulation and not too
high. -/
def RegularRounds (N : System V) (ℓ : ReplicaID) (Q : List ReplicaID) :
    List Input → World V → Prop
  | [], _ => True
  | i :: is, w => (i = .doPropose ∨ i = .doEmptyPropose) ∧
      RegularStep N.blocks (N.setup ℓ) (w ℓ) i ∧
      ∀ w', round N ℓ Q i w = .ok w' → RegularRounds N ℓ Q is w'

/-- `n` rounds after `w₀`, where nobody had voted more than `m` above the leaf. -/
structure After (N : System V) (ℓ : ReplicaID) (Q : List ReplicaID) (w₀ : World V) (m n : ℕ)
    (w : World V) : Prop where
  inStep : InStep N ℓ Q w
  runs : Reach (step N) anyInput w₀ w
  height : leafHeight ℓ w = leafHeight ℓ w₀ + n
  branch : (w₀ ℓ).heap.path (w₀ ℓ).bLeaf <:+ (w ℓ).heap.path (w ℓ).bLeaf
  votes : ∀ r ∈ ℓ :: Q, (w r).vheight.toNat ≤ max (leafHeight ℓ w₀ + m) (leafHeight ℓ w)
  chained : ∀ k, m + 1 + k = n → Chained k ℓ Q w
  executed : m + 4 ≤ n → ∀ r ∈ ℓ :: Q, leafHeight ℓ w ≤ (w r).heap.height (w r).bExec + 3

/-- A round is a run of its replicas. -/
theorem round_runs {i : Input} (h : round N ℓ Q i w = .ok w') : Reach (step N) anyInput w w' := by
  unfold round at h
  split at h
  · cases h
  · rename_i w₁ h₁
    dsimp only at h
    split at h
    · cases h
    · rename_i w₂ h₂
      have any : ∀ (s : World V) (a : Action), anyInput s a := fun _ _ => trivial
      exact ((Reach.of_runList any h₁).trans (Reach.of_runList any h₂)).trans
        (Reach.of_runList any h)

/-- **One more round.** -/
theorem After.round_ok (G : Group N ℓ Q) {m n : ℕ} (A : After N ℓ Q w₀ m n w) {i : Input}
    (hi : i = .doPropose ∨ i = .doEmptyPropose)
    (hregular : RegularStep N.blocks (N.setup ℓ) (w ℓ) i) :
    ∃ w', round N ℓ Q i w = .ok w' ∧ After N ℓ Q w₀ m (n + 1) w' := by
  obtain ⟨w', hw', D⟩ := World.round_ok G A.inStep hi hregular
  obtain ⟨hheight, hbranch⟩ := D.leaf A.inStep
  have hbefore := A.height
  have hvoting : m ≤ n → ∀ r ∈ ℓ :: Q, (w r).vheight.toNat ≤ leafHeight ℓ w := by
    intro hmn r hr
    have hle := A.votes r hr
    omega
  refine ⟨w', hw', D.inStep, A.runs.trans (round_runs hw'), ?_, A.branch.trans hbranch, ?_, ?_, ?_⟩
  · rw [hheight, A.height]
    rfl
  · intro r hr
    have hle := D.vheight_le hr
    have hold := A.votes r hr
    omega
  · intro k hk
    rcases k with _ | k
    · exact ⟨D.certified (hvoting (by omega)), fun _ _ _ _ => trivial⟩
    · exact D.chained A.inStep (A.chained k (by omega)) (hvoting (by omega))
  · intro hn r hr
    exact D.executed A.inStep ((A.chained (n - (m + 1)) (by omega)).le (by omega)) hr

/-- The hashes of the leader's branch, from height 1 on. -/
def branch (ℓ : ReplicaID) (w : World V) : List Hash := ((w ℓ).heap.path (w ℓ).bLeaf).reverse

/-- Runs from a reached world keep each replica on a run of its own. -/
theorem local_runs (h : ∀ r, Reach (Hotstuff.step (N.setup r)) anyInput
      (Hotstuff.start (N.setup r)) (w r))
    (hruns : Reach (step N) anyInput w w') (r : ReplicaID) :
    Reach (Hotstuff.step (N.setup r)) anyInput (Hotstuff.start (N.setup r)) (w' r) := by
  refine hruns.invariant (I := fun w => Reach (Hotstuff.step (N.setup r)) anyInput
    (Hotstuff.start (N.setup r)) (w r)) (h r) ?_
  intro t u a ht _ hs
  obtain ⟨s, hstep, rfl⟩ := step_ok hs
  by_cases hr : r = a.rid
  · subst hr
    rw [Function.update_self]
    exact ht.tail trivial hstep
  · rw [Function.update_of_ne hr]
    exact ht

/-- **Synchronous rounds commit.** Let a leader and followers that make a quorum be synced in a world
reached by an admissible run, let their machines return, and let nobody have voted more than `m` above the
leader's leaf. Then any `m + 4` or more synchronous rounds go through without an exception, each puts one
block on the leader's branch, and at the end every one of these replicas has committed the leader's branch
up to its last three blocks. -/
theorem rounds_commit (G : Group N ℓ Q) (h : Reach (step N) (Admissible N) (start N) w)
    (S : Synced ℓ Q w) {m : ℕ} (hm : ∀ r ∈ ℓ :: Q, (w r).vheight.toNat ≤ leafHeight ℓ w + m)
    {is : List Input} (hlen : m + 4 ≤ is.length) (hrounds : RegularRounds N ℓ Q is w) :
    ∃ w', runList (round N ℓ Q) is w = .ok w' ∧ branch ℓ w <+: branch ℓ w' ∧
      (branch ℓ w').length = (branch ℓ w).length + is.length ∧
      ∀ r ∈ ℓ :: Q, (w' r).committedHashes <+: branch ℓ w' ∧
        (branch ℓ w').length ≤ (w' r).committedHashes.length + 3 := by
  have hstart : After N ℓ Q w m 0 w := by
    refine ⟨S.inStep G.keyed h, Reach.refl _, rfl, List.suffix_rfl, fun r hr => ?_, ?_, ?_⟩
    · exact (hm r hr).trans (Nat.le_max_left _ _)
    · intro k hk
      omega
    · intro hn
      omega
  obtain ⟨w', hw', ⟨n, hn, A⟩, -⟩ := exists_runList
    (I := fun is' u => (∃ n, n + is'.length = is.length ∧ After N ℓ Q w m n u) ∧
      RegularRounds N ℓ Q is' u)
    (fun i is' u hI => by
      obtain ⟨⟨n, hn, A⟩, hi, hregular, hnext⟩ := hI
      obtain ⟨u', hu', A'⟩ := A.round_ok G hi hregular
      refine ⟨u', hu', ⟨n + 1, ?_, A'⟩, hnext u' hu'⟩
      rw [← hn, List.length_cons]
      omega) ⟨⟨0, Nat.zero_add _, hstart⟩, hrounds⟩
  obtain rfl : n = is.length := hn
  have hlocal : ∀ r, Reach (Hotstuff.step (N.setup r)) anyInput (Hotstuff.start (N.setup r)) (w r) :=
    fun r => reach_any (local_reach h r)
  have W : ∀ {u : World V}, Reach (step N) anyInput w u → ∀ r, WellFormed (N.setup r) (u r) :=
    fun hu r => (wellFormed_commitLog_of_reach (local_runs hlocal hu r)).1
  have hlength : ∀ {u : World V}, Reach (step N) anyInput w u →
      (branch ℓ u).length = leafHeight ℓ u := by
    intro u hu
    unfold branch leafHeight
    rw [List.length_reverse, (W hu ℓ).length_path]
  refine ⟨w', hw', List.reverse_prefix.mpr A.branch, ?_, ?_⟩
  · rw [hlength A.runs, hlength (Reach.refl _), A.height]
  · intro r hr
    rw [committedHashes_eq (local_runs hlocal A.runs r), hlength A.runs]
    refine ⟨List.reverse_prefix.mpr (A.inStep.executed_branch hr), ?_⟩
    rw [List.length_reverse, (W A.runs r).length_path]
    exact A.executed hlen r hr

end World

/-! ### Four replicas -/

namespace Instance

/-- Four replicas, of which replica 3 is faulty. -/
def threeSystem : System Unit := { fourSystem with faulty := {3}, faulty_le := le_rfl }

def regularRoundsCheck (N : System Unit) (ℓ : ReplicaID) (Q : List ReplicaID) :
    List Input → World Unit → Bool
  | [], _ => true
  | i :: is, w =>
    (i == .doPropose || i == .doEmptyPropose) &&
      (match step (N.setup ℓ) i (w ℓ) with
        | .error _ => true
        | .ok s => regularCheck s) &&
      match World.round N ℓ Q i w with
      | .error _ => true
      | .ok w' => regularRoundsCheck N ℓ Q is w'

theorem regularRounds_of_check {ℓ : ReplicaID} {Q : List ReplicaID} :
    ∀ {is : List Input} {w : World Unit}, regularRoundsCheck threeSystem ℓ Q is w = true →
      World.RegularRounds threeSystem ℓ Q is w := by
  intro is
  induction is with
  | nil => exact fun _ => trivial
  | cons i is ih =>
      intro w h
      unfold regularRoundsCheck at h
      rw [Bool.and_eq_true, Bool.and_eq_true, Bool.or_eq_true, beq_iff_eq, beq_iff_eq] at h
      obtain ⟨⟨hi, hregular⟩, hnext⟩ := h
      refine ⟨hi, fun s hs => ?_, fun w' hw' => ih ?_⟩
      · rw [hs] at hregular
        exact regular_of_check hregular
      · rw [hw'] at hnext
        exact hnext

end Instance

open Instance in
/-- Replica 0 leads replicas 1 and 2 from the start: after four rounds all three have committed. -/
theorem rounds_commit_four : ∃ w', runList (World.round threeSystem 0 [1, 2])
    (List.replicate 4 .doEmptyPropose) (World.start threeSystem) = .ok w' ∧
      ∀ r ∈ [0, 1, 2], 1 ≤ (w' r).committedHashes.length := by
  have G : World.Group threeSystem 0 [1, 2] := by
    refine ⟨by decide, by decide, by decide, ?_, fun _ _ => ?_⟩
    · have hsmall : ∀ r ∈ [0, 1, 2], r < 4 := by decide
      exact fun r hr => keyed_four (hsmall r hr)
    · exact ⟨fun _ _ _ => ⟨_, rfl⟩, fun _ _ _ => ⟨_, rfl⟩, fun _ _ => ⟨_, rfl⟩⟩
  have S : World.Synced 0 [1, 2] (World.start threeSystem) := by
    refine ⟨fun _ _ => rfl, rfl, fun _ _ => ⟨_, rfl⟩, fun _ _ => ⟨_, rfl⟩, fun _ _ => Nat.le_refl _,
      fun x p hp => ?_⟩
    obtain rfl : p = genesisPtr := by
      unfold World.start at hp
      simp only [start, Replica.make, BlockStore.init] at hp
      split at hp
      · exact (Option.some.inj hp).symm
      · cases hp
    exact Nat.le_refl _
  have hregular : World.RegularRounds threeSystem 0 [1, 2] (List.replicate 4 .doEmptyPropose)
      (World.start threeSystem) := regularRounds_of_check (by decide +kernel)
  obtain ⟨w', hw', -, hlength, hall⟩ := World.rounds_commit (m := 0) G (Reach.refl _) S
    (fun _ _ => Nat.zero_le _) (by decide) hregular
  refine ⟨w', hw', fun r hr => ?_⟩
  have hle := (hall r hr).2
  rw [hlength] at hle
  simp at hle
  omega

end Fred.Hotstuff
