/-
# Fred.Lib.ChainedVoting -- safety of chained voting with locks, over an arbitrary block type

The combinatorial core of chained HotStuff, free of messages, stores and machine integers. A
`VotingHistory` records who voted for which block, how blocks descend from each other, and which
block each block's certificate names. `Sound` collects the four rules a correct voter follows:

* `oneVote`: never two blocks of equal height;
* `qcCertified`, `qcBelow`: only blocks whose certificate is real and names a proper ancestor;
* `lockRule`: after a vote for a block `b`, a later vote for `c` respects some certified lock that is
  at least as high as the block two certificates below `b`.

`ThreeChain.descends` is the safety theorem: once a block heads a three-chain of consecutive heights
whose last block is certified, every certified block at its height or above descends from it. The
induction is on the height of the certified block; quorum intersection turns two certificates into
one correct voter, whose lock at the second vote is where the minimal counterexample breaks.
-/
import Fred.Lib.Quorum

namespace Fred.ChainedVoting

variable {R B : Type*}

/-- A record of votes over a tree of blocks. `below a b` says that `b` is `a` or descends from `a`;
`justify b j` says that the certificate carried by `b` names `j`. -/
structure VotingHistory (R B : Type*) where
  replicas : Finset R
  faulty : Finset R
  quorum : ℕ
  voted : R → B → Prop
  below : B → B → Prop
  height : B → ℕ
  root : B
  justify : B → B → Prop

namespace VotingHistory

variable (H : VotingHistory R B)

/-- A block is certified when it is the root, or when a quorum contains only voters for it (faulty
members may have signed anything, so nothing is asked of them). -/
def Certified (b : B) : Prop :=
  b = H.root ∨ ∃ Q ⊆ H.replicas, H.quorum ≤ Q.card ∧ ∀ r ∈ Q, r ∉ H.faulty → H.voted r b

/-- The rules a correct voter follows, and the sizes that make quorums meet. -/
structure Sound : Prop where
  quorums : H.replicas.card + H.faulty.card < 2 * H.quorum
  below_trans : ∀ {a b c}, H.below a b → H.below b c → H.below a c
  root_below : ∀ b, H.below H.root b
  below_refl : ∀ b, H.below b b
  height_root : H.height H.root = 0
  root_of_height : ∀ {b}, H.height b = 0 → b = H.root
  oneVote : ∀ {r b c}, r ∉ H.faulty → H.voted r b → H.voted r c → H.height b = H.height c → b = c
  qcCertified : ∀ {r b j}, r ∉ H.faulty → H.voted r b → H.justify b j → H.Certified j
  qcBelow : ∀ {r b j}, r ∉ H.faulty → H.voted r b → H.justify b j →
    H.below j b ∧ H.height j < H.height b
  lockRule : ∀ {r b c j g}, r ∉ H.faulty → H.voted r b → H.voted r c → H.height b < H.height c →
    H.justify b j → H.justify j g →
    ∃ l, H.Certified l ∧ H.height g ≤ H.height l ∧ H.height l < H.height c ∧
      (H.below l c ∨ ∃ j', H.justify c j' ∧ H.height l < H.height j')

/-- `b0`, `b1`, `b2` at consecutive heights, each certified by the next. -/
structure ThreeChain (b0 b1 b2 : B) : Prop where
  justify₁ : H.justify b1 b0
  justify₂ : H.justify b2 b1
  height₁ : H.height b1 = H.height b0 + 1
  height₂ : H.height b2 = H.height b1 + 1

end VotingHistory

namespace VotingHistory.Sound

variable [DecidableEq R] {H : VotingHistory R B} (S : H.Sound) {b c b0 b1 b2 s : B}

include S

/-- Two certified blocks other than the root have a correct voter in common. -/
theorem exists_common_voter (hb : H.Certified b) (hc : H.Certified c) (hb0 : b ≠ H.root)
    (hc0 : c ≠ H.root) : ∃ r, r ∉ H.faulty ∧ H.voted r b ∧ H.voted r c := by
  obtain ⟨A, hA, hqA, hvA⟩ := hb.resolve_left hb0
  obtain ⟨D, hD, hqD, hvD⟩ := hc.resolve_left hc0
  have hsum : H.replicas.card + H.faulty.card < A.card + D.card := by
    have := S.quorums
    omega
  obtain ⟨r, hrA, hrD, hr⟩ := Quorum.exists_common_notMem hA hD hsum
  exact ⟨r, hr, hvA r hrA hr, hvD r hrD hr⟩

/-- There is at most one certified block at each height. -/
theorem certified_unique (hb : H.Certified b) (hc : H.Certified c)
    (heq : H.height b = H.height c) : b = c := by
  by_cases hb0 : b = H.root
  · subst hb0
    exact (S.root_of_height (heq ▸ S.height_root)).symm
  · by_cases hc0 : c = H.root
    · subst hc0
      exact S.root_of_height (heq.trans S.height_root)
    · obtain ⟨r, hr, hvb, hvc⟩ := S.exists_common_voter hb hc hb0 hc0
      exact S.oneVote hr hvb hvc heq

/-- What the certificate of a certified block names is certified and lies properly below it. -/
theorem justify_of_certified (hb : H.Certified b) (hb0 : b ≠ H.root) {j : B}
    (hj : H.justify b j) : H.Certified j ∧ H.below j b ∧ H.height j < H.height b := by
  obtain ⟨r, hr, hv, -⟩ := S.exists_common_voter hb hb hb0 hb0
  exact ⟨S.qcCertified hr hv hj, S.qcBelow hr hv hj⟩

omit [DecidableEq R] in
theorem ne_root_of_height_pos (h : 0 < H.height b) : b ≠ H.root := by
  rintro rfl
  rw [S.height_root] at h
  exact absurd h (lt_irrefl 0)

/-- The three blocks of a three-chain whose last block is certified are all certified. -/
theorem certified_of_threeChain (T : H.ThreeChain b0 b1 b2) (h2 : H.Certified b2) :
    H.Certified b1 ∧ H.Certified b0 := by
  have hb2 : b2 ≠ H.root := S.ne_root_of_height_pos (by have := T.height₂; omega)
  have hb1 : b1 ≠ H.root := S.ne_root_of_height_pos (by have := T.height₁; omega)
  have h1 := (S.justify_of_certified h2 hb2 T.justify₂).1
  exact ⟨h1, (S.justify_of_certified h1 hb1 T.justify₁).1⟩

/-- **Safety of the three-chain rule.** Every certified block at the height of the head of a
certified three-chain, or above, descends from that head. -/
theorem threeChain_below (T : H.ThreeChain b0 b1 b2) (h2 : H.Certified b2) :
    ∀ {s : B}, H.Certified s → H.height b0 ≤ H.height s → H.below b0 s := by
  obtain ⟨h1, h0⟩ := S.certified_of_threeChain T h2
  have hb2 : b2 ≠ H.root := S.ne_root_of_height_pos (by have := T.height₂; omega)
  have hb1 : b1 ≠ H.root := S.ne_root_of_height_pos (by have := T.height₁; omega)
  have h01 : H.below b0 b1 := (S.justify_of_certified h1 hb1 T.justify₁).2.1
  have h12 : H.below b1 b2 := (S.justify_of_certified h2 hb2 T.justify₂).2.1
  intro s
  induction hn : H.height s using Nat.strong_induction_on generalizing s with
  | _ n ih =>
      intro hs hle
      by_cases hroot : b0 = H.root
      · rw [hroot]
        exact S.root_below s
      -- at the three heights of the chain itself a certified block is the block of the chain
      rcases Nat.lt_or_ge (H.height b2) n with hgt | hlow
      · have hs0 : s ≠ H.root := S.ne_root_of_height_pos (by omega)
        obtain ⟨r, hr, hv2, hvs⟩ := S.exists_common_voter h2 hs hb2 hs0
        obtain ⟨l, hl, hgl, hls, hor⟩ := S.lockRule hr hv2 hvs (by omega) T.justify₂ T.justify₁
        have hbl : H.below b0 l := ih (H.height l) (by omega) rfl hl hgl
        rcases hor with hbelow | ⟨j, hj, hlj⟩
        · exact S.below_trans hbl hbelow
        · obtain ⟨hjc, hjs, hjlt⟩ := S.justify_of_certified hs hs0 hj
          have hbj : H.below b0 j := ih (H.height j) (by omega) rfl hjc (by omega)
          exact S.below_trans hbj hjs
      · have hh1 := T.height₁
        have hh2 := T.height₂
        have hcase : n = H.height b0 ∨ n = H.height b1 ∨ n = H.height b2 := by omega
        rcases hcase with h | h | h
        · rw [S.certified_unique hs h0 (hn.trans h)]
          exact S.below_refl b0
        · rw [S.certified_unique hs h1 (hn.trans h)]
          exact h01
        · rw [S.certified_unique hs h2 (hn.trans h)]
          exact S.below_trans h01 h12

/-- Two heads of certified three-chains lie on one branch. -/
theorem threeChain_comparable {c0 c1 c2 : B} (T : H.ThreeChain b0 b1 b2) (h2 : H.Certified b2)
    (T' : H.ThreeChain c0 c1 c2) (h2' : H.Certified c2) : H.below b0 c0 ∨ H.below c0 b0 := by
  have hb := (S.certified_of_threeChain T h2).2
  have hc := (S.certified_of_threeChain T' h2').2
  rcases le_total (H.height b0) (H.height c0) with hle | hle
  · exact Or.inl (S.threeChain_below T h2 hc hle)
  · exact Or.inr (S.threeChain_below T' h2' hb hle)

end VotingHistory.Sound

end Fred.ChainedVoting
