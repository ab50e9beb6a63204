/-
# Fred.Hotstuff.Agreement -- correct replicas commit one chain

The votes of a world form a history in the sense of `Fred.ChainedVoting`: a block is the chain of its
hashes, and descent is being a suffix. The rules of that library hold of it (`sound`): votes increase
in height, certificates are evidence of votes, and the promises of `PromiseLog` are its lock rule.
What `update` commits heads a certified three-chain, so the committed chains of two correct replicas
are prefixes of one another, and the walk of `update` always ends at `b_exec` (`agreement`).
-/
import Fred.Hotstuff.World
import Fred.Lib.ChainedVoting

namespace Fred.Hotstuff

open Fred.Forest Fred.Transition Replica

variable {V : Type} {N : System V} {w : World V} {r : ReplicaID} {p q j : BlockPtr}

namespace World

/-- The votes of a world. A block is the chain of hashes from it down to height 1. -/
def history (N : System V) (w : World V) :
    ChainedVoting.VotingHistory ReplicaID (List Hash) where
  replicas := N.config.ids
  faulty := N.faulty
  quorum := N.config.nmajority
  voted := fun r b => ∃ p, (w r).Voted p ∧ (w r).heap.path p = b
  below := fun a b => a <:+ b
  height := List.length
  root := []
  justify := fun b j => ∃ r p q, (w r).heap.justify p = some q ∧ (w r).heap.path p = b ∧
    (w r).heap.path q = j

/-- What holds of every replica of a reached world. -/
structure Sane (N : System V) (w : World V) : Prop where
  wellFormed : ∀ r, WellFormed (N.setup r) (w r)
  regular : ∀ r, Regular N.blocks (w r)
  votes : ∀ r, VoteLog (w r)
  promises : ∀ r, PromiseLog (w r)
  evidence : ∀ r, Evidence N.config (signed N w) (w r)

theorem sane_of_reach (h : Reach (step N) (Admissible N) (start N) w) : Sane N w where
  wellFormed := wellFormed_of_reach h
  regular := fun r => regular_of_reach (local_reach h r)
  votes := fun r => (wellFormed_voteLog_of_reach (reach_narrow (local_reach h r))).2
  promises := fun r => promiseLog_of_reach (E := N.setup r) N.circulation (local_reach h r)
  evidence := evidence_of_reach h

namespace Sane

variable (S : Sane N w)

include S

theorem length_path : ((w r).heap.path p).length = (w r).heap.height p :=
  (S.wellFormed r).length_path

/-- One hash, one chain. -/
theorem path_eq {r' : ReplicaID} {p' : BlockPtr} (hp : (w r).heap.Settled p)
    (hp' : (w r').heap.Settled p') (heq : (w r).heap.hash p = (w r').heap.hash p') :
    (w r).heap.path p = (w r').heap.path p' :=
  path_eq_of_hash_eq (S.wellFormed r) (S.regular r) (S.wellFormed r') (S.regular r') N.circulation
    rfl hp hp' heq

/-- What one replica knows of a certificate any other knows. -/
theorem path_justify {b : List Hash} (hjust : (history N w).justify ((w r).heap.path p) b)
    (hp : (w r).heap.Settled p) :
    ∃ j, (w r).heap.justify p = some j ∧ (w r).heap.path j = b := by
  obtain ⟨r', p', q', hq', hpath, rfl⟩ := hjust
  obtain ⟨x', hx'⟩ := (S.wellFormed r').shape.parent_of_justify hq'
  have hne : p ≠ genesisPtr := by
    rintro rfl
    rw [(S.wellFormed r).path_genesis, (S.wellFormed r').path_of_parent hx'] at hpath
    cases hpath
  obtain ⟨x, hx⟩ := hp.resolve_left hne
  obtain ⟨j, hj, -⟩ := (S.wellFormed r).shape.justify_cached hx
  refine ⟨j, hj, ?_⟩
  exact path_justify_eq (S.wellFormed r) (S.regular r) (S.wellFormed r') (S.regular r')
    N.circulation rfl hj hq' hpath.symm

/-- A certified hash is the hash of a certified block. -/
theorem certified_of_hash {x : Hash} (hx : CertifiedHash N.config (signed N w) x)
    (hp : (w r).heap.Settled p) (hhash : (w r).heap.hash p = x) :
    (history N w).Certified ((w r).heap.path p) := by
  rcases hx with hx | ⟨Q, hQ, hcard, hsigned⟩
  · left
    have hgen : p = genesisPtr := by
      by_contra hne
      exact (S.wellFormed r).hash_ne_zero (S.regular r) N.circulation hp hne (hhash.trans hx)
    rw [hgen]
    exact (S.wellFormed r).path_genesis
  · refine Or.inr ⟨Q, hQ, hcard, fun r' hr' hcorrect => ?_⟩
    have hsig := (hsigned r' hr').resolve_left hcorrect
    obtain ⟨p', hvoted, -, hhash'⟩ := (S.promises r').exists_voted_of_signed hsig
    refine ⟨p', hvoted, ?_⟩
    exact S.path_eq ((S.promises r').settled_of_voted hvoted) hp (hhash'.trans hhash.symm)

/-- What a linked object's certificate is on is certified. -/
theorem certified_justify (hj : (w r).heap.justify p = some j) :
    (history N w).Certified ((w r).heap.path j) := by
  have W := S.wellFormed r
  obtain ⟨x, hx⟩ := W.shape.parent_of_justify hj
  have hheader := (S.evidence r).heap.headers p (W.shape.ne_genesis_of_parent hx)
    (W.shape.lt_next_of_parent hx)
  exact S.certified_of_hash hheader (W.shape.settled_justify hj) (W.shape.hash_justify hj)

theorem certified_of_justified {l : BlockPtr} (hl : (w r).heap.Justified l) :
    (history N w).Certified ((w r).heap.path l) := by
  rcases hl with rfl | ⟨p, hp⟩
  · exact Or.inl (S.wellFormed r).path_genesis
  · exact S.certified_justify hp

/-- **The votes of a world keep the rules of chained voting.** -/
theorem sound : (history N w).Sound where
  quorums := N.quorums_meet
  below_trans := fun hab hbc => List.IsSuffix.trans hab hbc
  root_below := fun _ => List.nil_suffix
  below_refl := fun _ => List.suffix_rfl
  height_root := rfl
  root_of_height := fun h => List.length_eq_zero_iff.mp h
  oneVote := by
    rintro r _ _ - ⟨p, hp, rfl⟩ ⟨q, hq, rfl⟩ heq
    have hheight : (w r).heap.height p = (w r).heap.height q := by
      rw [← S.length_path, ← S.length_path]
      exact heq
    rw [(S.promises r).voted_unique (S.votes r) hp hq hheight]
  qcCertified := by
    rintro r b _ - - ⟨r', p', q', hq', -, rfl⟩
    exact S.certified_justify hq'
  qcBelow := by
    rintro r _ _ - - ⟨r', p', q', hq', rfl, rfl⟩
    obtain ⟨hd, hlt⟩ :=
      (S.wellFormed r').justify_below_of_regular (S.regular r') N.circulation hq'
    refine ⟨(S.wellFormed r').path_suffix hd, ?_⟩
    show ((w r').heap.path q').length < ((w r').heap.path p').length
    rw [S.length_path, S.length_path]
    exact hlt
  lockRule := by
    rintro r _ _ b₁ b₂ - ⟨p, hp, rfl⟩ ⟨q, hq, rfl⟩ hlt h₁ h₂
    -- the two certificates below the lower vote, as this replica has them
    obtain ⟨j, hj, rfl⟩ := S.path_justify h₁ ((S.promises r).settled_of_voted hp)
    obtain ⟨g, hg, rfl⟩ := S.path_justify h₂ ((S.wellFormed r).shape.settled_justify hj)
    obtain ⟨l, hl⟩ := (S.promises r).respected q hq
    have hlow : (w r).heap.height p < (w r).heap.height q := by
      rw [← S.length_path, ← S.length_path]
      exact hlt
    have hcover := hl.covers p hp hlow j g hj hg
    refine ⟨(w r).heap.path l, S.certified_of_justified hl.justified, ?_, ?_, ?_⟩
    · show ((w r).heap.path g).length ≤ ((w r).heap.path l).length
      rw [S.length_path, S.length_path]
      exact hcover
    · show ((w r).heap.path l).length < ((w r).heap.path q).length
      rw [S.length_path, S.length_path]
      exact hl.below
    · rcases hl.respects with hd | ⟨k, hk, hlk⟩
      · exact Or.inl ((S.wellFormed r).path_suffix hd)
      · refine Or.inr ⟨(w r).heap.path k, ⟨r, q, k, hk, rfl, rfl⟩, ?_⟩
        show ((w r).heap.path l).length < ((w r).heap.path k).length
        rw [S.length_path, S.length_path]
        exact hlk

/-! ## Heads of three-chains -/

theorem threeChain {nblk blk2 blk1 blk : BlockPtr}
    (T : HeadsChain (w r).heap nblk blk2 blk1 blk) :
    (history N w).ThreeChain ((w r).heap.path blk) ((w r).heap.path blk1)
      ((w r).heap.path blk2) where
  justify₁ := ⟨r, blk1, blk, T.justify₀, rfl, rfl⟩
  justify₂ := ⟨r, blk2, blk1, T.justify₁, rfl, rfl⟩
  height₁ := by
    show ((w r).heap.path blk1).length = ((w r).heap.path blk).length + 1
    rw [S.length_path, S.length_path]
    exact (S.wellFormed r).shape.height_parent T.parent₁
  height₂ := by
    show ((w r).heap.path blk2).length = ((w r).heap.path blk1).length + 1
    rw [S.length_path, S.length_path]
    exact (S.wellFormed r).shape.height_parent T.parent₂

/-- The head of a three-chain and the executed block of any replica are on one branch. -/
theorem comparable (r' : ReplicaID) {nblk blk2 blk1 blk : BlockPtr}
    (T : HeadsChain (w r).heap nblk blk2 blk1 blk) :
    (w r).heap.path blk <:+ (w r').heap.path (w r').bExec ∨
      (w r').heap.path (w r').bExec <:+ (w r).heap.path blk := by
  rcases (S.promises r').exec_chain with hgen | ⟨n', c2, c1, T'⟩
  · right
    rw [hgen, (S.wellFormed r').path_genesis]
    exact List.nil_suffix
  · exact S.sound.threeChain_comparable (S.threeChain T) (S.certified_justify T.justify₂)
      (S.threeChain T') (S.certified_justify T'.justify₂)

theorem comparable_exec {r' : ReplicaID} :
    (w r).heap.path (w r).bExec <:+ (w r').heap.path (w r').bExec ∨
      (w r').heap.path (w r').bExec <:+ (w r).heap.path (w r).bExec := by
  rcases (S.promises r).exec_chain with hgen | ⟨nblk, blk2, blk1, T⟩
  · left
    rw [hgen, (S.wellFormed r).path_genesis]
    exact List.nil_suffix
  · exact S.comparable _ T

/-- A direct three-chain at a replica extends what the replica has executed. -/
theorem descends_exec (I : IndexLog (w r)) {nblk blk2 blk1 blk : BlockPtr}
    (T : HeadsChain (w r).heap nblk blk2 blk1 blk) (hd : ((w r).heap.get blk).decided = false) :
    Descends (w r).heap.parent blk (w r).bExec := by
  have W := S.wellFormed r
  have hstored := W.shape.stored_justify T.justify₀
  rcases S.comparable r T with hsuf | hsuf
  · -- a block below the executed one is decided
    have hbelow := W.descends_of_path_suffix W.exec_stored hstored hsuf
    have hlt := W.shape.lt_next_of_settled (W.shape.settled_of_stored hstored)
    rw [(I.decided_iff blk hlt).mpr hbelow] at hd
    cases hd
  · exact W.descends_of_path_suffix hstored W.exec_stored hsuf

end Sane

end World

/-! ## Agreement -/

/-- The hashes of the blocks a replica has committed, in the order of the commits. -/
def Replica.committedHashes (s : Replica V) : List Hash := s.appliedBlocks.map s.heap.hash

theorem committedHashes_eq {E : Setup V} {s : Replica V} {P : Replica V → Input → Prop}
    (h : Reach (step E) P (start E) s) :
    s.committedHashes = (s.heap.path s.bExec).reverse := by
  obtain ⟨-, L⟩ := wellFormed_commitLog_of_reach h
  unfold committedHashes Heap.path
  rw [L.applied_eq, executedChain, List.map_reverse]

/-- **Agreement.** In every run of `3 * f + 1` replicas of which at most `f` are faulty, the committed
sequences of two correct replicas are prefixes of one another, and no event at a correct replica ends
with `safety breached`. -/
theorem agreement (N : System V) (w : World V)
    (h : Reach (World.step N) (World.Admissible N) (World.start N) w) :
    (∀ r r', N.Correct r → N.Correct r' →
      (w r).committedHashes <+: (w r').committedHashes ∨
        (w r').committedHashes <+: (w r).committedHashes) ∧
    ∀ r, N.Correct r → ∀ schedule s',
      step (N.setup r) (.event schedule) (w r) ≠ .error (.safetyBreached, s') := by
  have S := World.sane_of_reach h
  constructor
  · intro r r' _ _
    rw [committedHashes_eq (World.local_reach h r), committedHashes_eq (World.local_reach h r'),
      List.reverse_prefix, List.reverse_prefix]
    exact S.comparable_exec
  · intro r _ schedule s' hbreach
    have W := S.wellFormed r
    obtain ⟨p, rid, rest, s₁, hq, hne, hset, hv, hu⟩ := event_breach W hbreach
    have W₀ := W.popEvent schedule hq
    -- the vote before the call of `update` changes neither tree nor executed block
    have hframe : s₁.heap = (w r).heap ∧ s₁.bExec = (w r).bExec ∧ WellFormed (N.setup r) s₁ := by
      rcases voteOnProposal_ok W₀ hne hset hv with v | ⟨rfl, -⟩
      · have W₁ := v.wellFormed W₀
        obtain ⟨queue, -, rfl⟩ := v.eq
        exact ⟨rfl, rfl, W₁⟩
      · exact ⟨rfl, rfl, W₀⟩
    obtain ⟨hheap, hexec, W₁⟩ := hframe
    obtain ⟨blk2, blk1, blk, l, hj, hd, hp2, hp1, hno⟩ := update_breach W₁ hu
    have T : HeadsChain s₁.heap p blk2 blk1 blk := ⟨l.justify₂, l.justify₁, hj, hp2, hp1⟩
    rw [hheap] at T hd hno
    rw [hexec] at hno
    have I := (wellFormed_commitLog_of_reach (World.local_reach h r)).2.toIndexLog
    exact hno (S.descends_exec I T hd)

/-! ### Four replicas -/

namespace Instance

/-- The blocks of the first four rounds of replica 1: each carries the votes of replicas 0, 1 and 2 on
the block before. -/
def roundBlocks : List HotstuffBlockWire :=
  [blockOn 0#256 (certificate [] 0#256) [],
    blockOn 1#256 (certificate [0, 1, 2] 1#256) [],
    blockOn 1001#256 (certificate [0, 1, 2] 1001#256) [],
    blockOn 1001001#256 (certificate [0, 1, 2] 1001001#256) []]

def roundHeaders : List HotstuffBlockHeader := roundBlocks.map HotstuffBlockWire.header

theorem circulation_roundHeaders : Circulation crypto {b | b ∈ roundHeaders} where
  injOn := by
    have h : ∀ b ∈ roundHeaders, ∀ b' ∈ roundHeaders,
        crypto.hashHeader b = crypto.hashHeader b' → b = b' := by
      decide +kernel
    exact fun b hb b' hb' => h b hb b' hb'
  ne_zero := by
    have h : ∀ b ∈ roundHeaders, crypto.hashHeader b ≠ 0#256 := by
      decide +kernel
    exact h
  qc_below := by
    -- every certificate is on the parent
    have h : ∀ b ∈ roundHeaders, b.qc.justify = b.parentHash := by
      decide +kernel
    intro b hb
    exact Relation.TransGen.single ⟨b, hb, rfl, (h b hb).symm⟩

/-- Four replicas, of which replica 1 is faulty. -/
def fourSystem : System Unit where
  crypto := crypto
  infos := numberedReplicas 4
  config := config 4
  config_eq := by decide
  secretKey := fun r => BitVec.ofNat 512 r
  vm := fun _ => idleVm
  faults := 1
  replicas_eq := rfl
  faulty := {1}
  faulty_le := le_rfl
  blocks := {b | b ∈ roundHeaders}
  circulation := circulation_roundHeaders

/-- The signatures of an input check under the keys of faulty replicas and of replicas that have voted
for the hash. -/
def unforgedCheck {V : Type} (w : World V) (i : Input) : Bool :=
  i.signatures.all fun x => (numberedReplicas 4).all fun info =>
    !crypto.checkSig x.1 x.2 info.pk || info.id == 1 || (w info.id).trace.any fun e =>
      match e with
      | .voted _ _ cert _ => cert.hash == x.2
      | _ => false

theorem unforged_of_check {V : Type} {N : System V} (hcrypto : N.crypto = crypto)
    (hconfig : N.config = config 4) (hfaulty : N.faulty = {1}) {w : World V} {i : Input}
    {r : ReplicaID} (h : unforgedCheck w i = true) : Unforged (N.setup r) (World.signed N w) i := by
  intro sig x hmem q pk hpk hchk
  change N.config.getPublickey q = .ok pk at hpk
  change N.crypto.checkSig sig x pk = true at hchk
  rw [hconfig] at hpk
  rw [hcrypto] at hchk
  have hinfo : ∃ info ∈ numberedReplicas 4, info.id = q ∧ info.pk = pk := by
    unfold ReplicaConfig.getPublickey ReplicaConfig.getInfo at hpk
    split at hpk
    · cases hpk
    · rename_i info hfind
      have hid := List.find?_some hfind
      exact ⟨info, List.mem_of_find?_eq_some hfind, by simpa using hid, Except.ok.inj hpk⟩
  obtain ⟨info, hin, rfl, rfl⟩ := hinfo
  have hone := List.all_eq_true.mp (List.all_eq_true.mp h _ hmem) info hin
  simp only [hchk, Bool.not_true, Bool.false_or, Bool.or_eq_true, beq_iff_eq,
    List.any_eq_true] at hone
  rcases hone with hone | ⟨e, he, hsigned⟩
  · left
    rw [hfaulty]
    exact Finset.mem_singleton.mpr hone
  · right
    split at hsigned
    · exact ⟨_, _, _, _, he, by simpa using hsigned⟩
    · cases hsigned

/-- The objects of a replica are round blocks. -/
def regularCheck (s : Replica Unit) : Bool :=
  (List.range s.heap.next).all fun p =>
    (p == genesisPtr || decide (s.heap.header p ∈ roundHeaders)) &&
      decide (s.heap.height p < 2 ^ 32)

theorem regular_of_check {s : Replica Unit} (h : regularCheck s = true) :
    Regular {b | b ∈ roundHeaders} s := by
  have hall : ∀ p, p < s.heap.next →
      (p = genesisPtr ∨ s.heap.header p ∈ roundHeaders) ∧ s.heap.height p < 2 ^ 32 := by
    intro p hp
    have hone := List.all_eq_true.mp h p (List.mem_range.mpr hp)
    simpa using hone
  exact ⟨fun p hne hp => (hall p hp).1.resolve_left hne, fun p hp => (hall p hp).2⟩

def admissibleCheck (w : World Unit) (a : Action) : Bool :=
  (a.rid == 0 || a.rid == 2) && unforgedCheck w a.input &&
    match step (fourSystem.setup a.rid) a.input (w a.rid) with
    | .error _ => true
    | .ok s => regularCheck s

theorem admissible_of_check (w : World Unit) (a : Action) (h : admissibleCheck w a = true) :
    World.Admissible fourSystem w a := by
  unfold admissibleCheck at h
  rw [Bool.and_eq_true, Bool.and_eq_true] at h
  obtain ⟨⟨hrid, hunforged⟩, hregular⟩ := h
  refine ⟨?_, unforged_of_check rfl rfl rfl hunforged, fun s hs => ?_⟩
  · have hcases : a.rid = 0 ∨ a.rid = 2 := by simpa using hrid
    rcases hcases with h | h
    · rw [h]
      exact ⟨by decide, by decide⟩
    · rw [h]
      exact ⟨by decide, by decide⟩
  · rw [hs] at hregular
    exact regular_of_check hregular

/-- Replicas 0 and 2 handle the four rounds of replica 1. -/
def fourActions : List Action :=
  roundBlocks.zipIdx.flatMap fun b =>
    [0, 2].flatMap fun rid => (deliver (b.2 + 1) b.1 1).map (Action.mk rid)

/-- Both have committed the first block then. -/
theorem exists_fourWorld : ∃ w : World Unit,
    Reach (World.step fourSystem) (World.Admissible fourSystem) (World.start fourSystem) w ∧
      (w 0).committedHashes = [1#256] ∧ (w 2).committedHashes = [1#256] := by
  have hrun : (runListIf (World.step fourSystem) admissibleCheck fourActions
      (World.start fourSystem)).map (fun w => ((w 0).committedHashes, (w 2).committedHashes)) =
      some ([1#256], [1#256]) := by
    decide +kernel
  obtain ⟨w, hw, hobs⟩ := Option.map_eq_some_iff.mp hrun
  obtain ⟨h0, h2⟩ := Prod.mk.inj hobs
  exact ⟨w, Reach.of_runListIf admissible_of_check hw, h0, h2⟩

end Instance

/-- Two replicas of four that have committed a block. -/
theorem agreement_four : ∃ w : World Unit,
    (w 0).committedHashes = [1#256] ∧ (w 2).committedHashes = [1#256] ∧
    (∀ r r', Instance.fourSystem.Correct r → Instance.fourSystem.Correct r' →
      (w r).committedHashes <+: (w r').committedHashes ∨
        (w r').committedHashes <+: (w r).committedHashes) ∧
    ∀ r, Instance.fourSystem.Correct r → ∀ schedule s',
      step (Instance.fourSystem.setup r) (.event schedule) (w r) ≠
        .error (.safetyBreached, s') := by
  obtain ⟨w, hreach, h0, h2⟩ := Instance.exists_fourWorld
  exact ⟨w, h0, h2, agreement Instance.fourSystem w hreach⟩

end Fred.Hotstuff
