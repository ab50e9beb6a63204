/-
# Fred.Lib.Quorum -- when two quorums share a member outside the faulty set

A counting library over an arbitrary finite set of members. `QuorumsMeet n q f` says that any two
`q`-subsets of an `n`-set share a member outside any set of at most `f` members. The engine is
inclusion and exclusion (`exists_common_notMem`); the bound `n + f < 2 * q` is exact, because below
it two overlapping quorums whose whole overlap is faulty can be laid out
(`exists_overlap_faulty`).
-/
import Mathlib.Data.Finset.Card
import Mathlib.Data.Finset.Powerset

namespace Fred.Quorum

variable {ι : Type*} [DecidableEq ι]

/-- Any two subsets of `U` with at least `q` members share a member outside every set of at most
`f` members. -/
def QuorumsMeet (U : Finset ι) (q f : ℕ) : Prop :=
  ∀ A B F : Finset ι, A ⊆ U → B ⊆ U → q ≤ A.card → q ≤ B.card → F.card ≤ f →
    ∃ i, i ∈ A ∧ i ∈ B ∧ i ∉ F

/-- **The intersection engine.** Two sets whose sizes sum to more than the whole plus the faulty
members share a member that is not faulty. -/
theorem exists_common_notMem {U A B F : Finset ι} (hA : A ⊆ U) (hB : B ⊆ U)
    (hsum : U.card + F.card < A.card + B.card) : ∃ i, i ∈ A ∧ i ∈ B ∧ i ∉ F := by
  have hunion : (A ∪ B).card ≤ U.card := Finset.card_le_card (Finset.union_subset hA hB)
  have hinter := Finset.card_union_add_card_inter A B
  have hlt : F.card < (A ∩ B).card := by omega
  obtain ⟨i, hi, hiF⟩ := Finset.exists_mem_notMem_of_card_lt_card hlt
  exact ⟨i, (Finset.mem_inter.mp hi).1, (Finset.mem_inter.mp hi).2, hiF⟩

theorem quorumsMeet_of_lt {U : Finset ι} {q f : ℕ} (h : U.card + f < 2 * q) :
    QuorumsMeet U q f := by
  intro A B F hA hB hqA hqB hF
  exact exists_common_notMem hA hB (by omega)

/-- Below the bound the overlap of two quorums can be entirely faulty. -/
theorem exists_overlap_faulty {U : Finset ι} {q f : ℕ} (hq : q ≤ U.card)
    (h : 2 * q ≤ U.card + f) :
    ∃ A B F : Finset ι, A ⊆ U ∧ B ⊆ U ∧ F ⊆ U ∧ A.card = q ∧ B.card = q ∧ F.card ≤ f ∧
      ∀ i, i ∈ A → i ∈ B → i ∈ F := by
  obtain ⟨A, hAU, hA⟩ := Finset.exists_subset_card_eq hq
  have hdiff : (U \ A).card = U.card - q := by rw [Finset.card_sdiff_of_subset hAU, hA]
  -- the second quorum takes everything outside the first and fills up from inside it
  obtain ⟨F, hFA, hF⟩ := Finset.exists_subset_card_eq (s := A) (n := 2 * q - U.card) (by omega)
  by_cases hbig : U.card ≤ 2 * q
  · refine ⟨A, (U \ A) ∪ F, F, hAU, ?_, hFA.trans hAU, hA, ?_, by omega, ?_⟩
    · exact Finset.union_subset Finset.sdiff_subset (hFA.trans hAU)
    · rw [Finset.card_union_of_disjoint (Finset.sdiff_disjoint.mono_right hFA), hdiff, hF]
      omega
    · intro i hiA hiB
      rcases Finset.mem_union.mp hiB with hi | hi
      · exact absurd hiA (Finset.mem_sdiff.mp hi).2
      · exact hi
  · obtain ⟨B, hBU, hB⟩ := Finset.exists_subset_card_eq (s := U \ A) (n := q) (by omega)
    refine ⟨A, B, ∅, hAU, hBU.trans Finset.sdiff_subset, Finset.empty_subset _, hA, hB, by simp, ?_⟩
    intro i hiA hiB
    exact absurd hiA (Finset.mem_sdiff.mp (hBU hiB)).2

/-- **The bound is exact.** -/
theorem quorumsMeet_iff {U : Finset ι} {q f : ℕ} (hq : q ≤ U.card) :
    QuorumsMeet U q f ↔ U.card + f < 2 * q := by
  constructor
  · intro h
    by_contra hle
    obtain ⟨A, B, F, hA, hB, -, hcA, hcB, hcF, hover⟩ :=
      exists_overlap_faulty hq (Nat.not_lt.mp hle)
    obtain ⟨i, hiA, hiB, hiF⟩ := h A B F hA hB hcA.ge hcB.ge hcF
    exact hiF (hover i hiA hiB)
  · exact quorumsMeet_of_lt

end Fred.Quorum
