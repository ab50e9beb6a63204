/-
# Fred.Hotstuff.QuorumIntersection -- when two quorums of a configuration share a correct replica

`finish_init` announces `nfaulty = n / 3` tolerated faults and sets the quorum to `n - n / 3`. Both
`verify` and `has_quorum` compare against that number. Two quorums share a replica outside every set
of `nfaulty` replicas exactly when three does not divide the number of replicas
(`quorum_intersection_iff`): with `n = 3 * k` two quorums can overlap in just `k` replicas.
-/
import Fred.Lib.Quorum
import Fred.Hotstuff.Certs

namespace Fred.Hotstuff

open Fred.Quorum

/-- Two certificates that `verify` accepts under a configuration, on blocks other than genesis (whose
certificate needs no votes), have a voter outside every set of `nfaulty` replicas in common. -/
def CertificatesMeet (c : ReplicaConfig) : Prop :=
  ∀ (C : Crypto) (qc qc' : QuorumCertificate) (F : Finset ReplicaID),
    qc.sigs.Pairwise (fun x y => x.1 < y.1) → qc'.sigs.Pairwise (fun x y => x.1 < y.1) →
    qc.verify C c = .ok true → qc'.verify C c = .ok true →
    qc.objHash ≠ 0#256 → qc'.objHash ≠ 0#256 → F.card ≤ c.nfaulty →
    ∃ rid, rid ∈ qc.validVoters C c ∧ rid ∈ qc'.validVoters C c ∧ rid ∉ F

namespace ReplicaConfig

variable {infos : List ReplicaInfo} {c : ReplicaConfig}

theorem Built.nfaulty_eq (h : Built infos c) : c.nfaulty = infos.length / 3 := by
  unfold nfaulty
  rw [h.nreplicas_eq]

theorem Built.nmajority_le (h : Built infos c) : c.nmajority ≤ c.ids.card := by
  rw [h.nmajority_eq, h.card_ids]
  exact Nat.sub_le _ _

/-- The counting bound of two quorums, on the numbers `finish_init` computes. -/
theorem Built.bound_iff (h : Built infos c) (hne : infos ≠ []) :
    c.ids.card + c.nfaulty < 2 * c.nmajority ↔ infos.length % 3 ≠ 0 := by
  have hpos : 0 < infos.length := List.length_pos_iff.mpr hne
  rw [h.card_ids, h.nfaulty_eq, h.nmajority_eq]
  omega

end ReplicaConfig

/-- Accepted certificates inherit the intersection property of quorums. -/
theorem certificatesMeet_of_quorumsMeet {c : ReplicaConfig}
    (h : QuorumsMeet c.ids c.nmajority c.nfaulty) : CertificatesMeet c := by
  intro C qc qc' F hk hk' hv hv' hne hne' hF
  apply h _ _ F
  · exact QuorumCertificate.validVoters_subset_ids
  · exact QuorumCertificate.validVoters_subset_ids
  · exact QuorumCertificate.nmajority_le_card_of_verify hk hv hne
  · exact QuorumCertificate.nmajority_le_card_of_verify hk' hv' hne'
  · exact hF

/-- **Quorum intersection holds exactly when three does not divide the number of replicas.** -/
theorem quorum_intersection_iff {infos : List ReplicaInfo} {c : ReplicaConfig}
    (hbuild : ReplicaConfig.build infos = .ok c) (hne : infos ≠ []) :
    (QuorumsMeet c.ids c.nmajority c.nfaulty ∧ CertificatesMeet c) ↔ infos.length % 3 ≠ 0 := by
  have hb := ReplicaConfig.built_of_build hbuild
  have hmeet : QuorumsMeet c.ids c.nmajority c.nfaulty ↔ infos.length % 3 ≠ 0 :=
    (quorumsMeet_iff hb.nmajority_le).trans (hb.bound_iff hne)
  constructor
  · intro h
    exact hmeet.mp h.1
  · intro h
    have hq := hmeet.mpr h
    exact ⟨hq, certificatesMeet_of_quorumsMeet hq⟩

/-- Replicas 0, 1, .. with keys equal to their identifiers. -/
def numberedReplicas (n : ℕ) : List ReplicaInfo :=
  (List.range n).map fun i => ⟨i, BitVec.ofNat 256 i⟩

/-- The intersection property at four replicas. -/
theorem quorum_intersection_iff_four :
    ∃ c, ReplicaConfig.build (numberedReplicas 4) = .ok c ∧ numberedReplicas 4 ≠ [] ∧
      (QuorumsMeet c.ids c.nmajority c.nfaulty ∧ CertificatesMeet c ↔
        (numberedReplicas 4).length % 3 ≠ 0) := by
  have hbuild : ReplicaConfig.build (numberedReplicas 4) = .ok ⟨numberedReplicas 4, 4, 3⟩ := by
    decide
  have hne : numberedReplicas 4 ≠ [] := by decide
  exact ⟨_, hbuild, hne, quorum_intersection_iff hbuild hne⟩

/-- With three replicas the code tolerates one fault and takes two votes for a quorum, but replicas 0
and 1 on one side and 1 and 2 on the other have only replica 1 in common. -/
theorem quorums_of_three_do_not_meet :
    ∃ c, ReplicaConfig.build (numberedReplicas 3) = .ok c ∧ c.nfaulty = 1 ∧ c.nmajority = 2 ∧
      ¬ QuorumsMeet c.ids c.nmajority c.nfaulty := by
  refine ⟨⟨numberedReplicas 3, 3, 2⟩, by decide, by decide, by decide, ?_⟩
  intro h
  obtain ⟨rid, hA, hB, hF⟩ := h {0, 1} {1, 2} {1} (by decide) (by decide) (by decide) (by decide)
    (by decide)
  simp only [Finset.mem_insert, Finset.mem_singleton] at hA hB hF
  rcases hA with rfl | hA
  · rcases hB with hB | hB <;> exact absurd hB (by decide)
  · exact hF hA

end Fred.Hotstuff
