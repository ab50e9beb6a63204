/-
# Fred.Lib.Bitmap -- bit vectors as sets of positions

A general library for bit vectors of any width that stand for sets of small numbers. `bits` lists the
set positions in ascending order. Setting positions and clearing one are read off that list.
-/
import Mathlib.Data.List.Sort
import Mathlib.Data.List.Range
import Mathlib.Tactic.Common

namespace Fred.Bitmap

variable {w : ℕ}

/-- The set positions, lowest first. -/
def bits (bv : BitVec w) : List ℕ := (List.range w).filter fun i => bv.getLsbD i

theorem mem_bits {bv : BitVec w} {i : ℕ} : i ∈ bits bv ↔ bv.getLsbD i = true := by
  simp only [bits, List.mem_filter, List.mem_range]
  exact ⟨fun h => h.2, fun h => ⟨BitVec.lt_of_getLsbD h, h⟩⟩

theorem pairwise_bits (bv : BitVec w) : (bits bv).Pairwise (· < ·) :=
  List.Pairwise.filter _ List.pairwise_lt_range

/-- An ascending list with the same members is the list of set positions. -/
theorem bits_eq {bv : BitVec w} {ks : List ℕ} (hks : ks.Pairwise (· < ·))
    (hmem : ∀ i, bv.getLsbD i = true ↔ i ∈ ks) : bits bv = ks := by
  apply List.Perm.eq_of_pairwise' (r := (· < ·)) (pairwise_bits bv) hks
  rw [List.perm_ext_iff_of_nodup ((pairwise_bits bv).imp Nat.ne_of_lt) (hks.imp Nat.ne_of_lt)]
  intro i
  exact mem_bits.trans (hmem i)

/-! ## One position -/

theorem getLsbD_one_shiftLeft {k : ℕ} (hk : k < w) (i : ℕ) :
    (1#w <<< k).getLsbD i = decide (i = k) := by
  rw [← BitVec.twoPow_eq, BitVec.getLsbD_twoPow, decide_eq_true hk, Bool.true_and]
  exact decide_eq_decide.mpr eq_comm

/-- Subtracting a set position clears it. -/
theorem getLsbD_sub_shiftLeft {bv : BitVec w} {k : ℕ} (hk : bv.getLsbD k = true) (i : ℕ) :
    (bv - 1#w <<< k).getLsbD i = (bv.getLsbD i && decide (i ≠ k)) := by
  have hkw := BitVec.lt_of_getLsbD hk
  have hdisjoint : (bv &&& ~~~(1#w <<< k)) &&& 1#w <<< k = 0#w := by
    rw [BitVec.and_assoc, BitVec.and_comm (~~~(1#w <<< k)), BitVec.and_not_self]
    exact BitVec.and_zero
  -- the vector is the cleared one plus the position, without a carry
  have hsplit : (bv &&& ~~~(1#w <<< k)) + 1#w <<< k = bv := by
    rw [BitVec.add_eq_or_of_and_eq_zero _ _ hdisjoint]
    apply BitVec.eq_of_getLsbD_eq
    intro j hj
    simp only [BitVec.getLsbD_or, BitVec.getLsbD_and, BitVec.getLsbD_not, getLsbD_one_shiftLeft hkw]
    by_cases hjk : j = k
    · simp [hjk, hk]
    · simp [hjk, hj]
  have hsub : bv - 1#w <<< k = bv &&& ~~~(1#w <<< k) := by
    conv_lhs => rw [← hsplit]
    exact BitVec.add_sub_cancel _ _
  rw [hsub, BitVec.getLsbD_and, BitVec.getLsbD_not, getLsbD_one_shiftLeft hkw]
  by_cases hi : i < w
  · simp [hi]
  · simp [BitVec.getLsbD_of_ge bv i (Nat.not_lt.mp hi)]

/-- Clearing the lowest set position. -/
theorem bits_sub_shiftLeft {bv : BitVec w} {k : ℕ} {ks : List ℕ} (h : bits bv = k :: ks) :
    bits (bv - 1#w <<< k) = ks := by
  have hsorted := pairwise_bits bv
  rw [h, List.pairwise_cons] at hsorted
  have hk : bv.getLsbD k = true := mem_bits.mp (h ▸ List.mem_cons_self)
  apply bits_eq hsorted.2
  intro i
  rw [getLsbD_sub_shiftLeft hk, Bool.and_eq_true, decide_eq_true_eq, ← mem_bits, h, List.mem_cons]
  constructor
  · rintro ⟨rfl | hi, hne⟩
    · exact absurd rfl hne
    · exact hi
  · exact fun hi => ⟨Or.inr hi, Nat.ne_of_gt (hsorted.1 i hi)⟩

/-! ## Setting positions -/

/-- Setting the positions of a list one after another. -/
def setAll (ks : List ℕ) (bv : BitVec w) : BitVec w := ks.foldl (fun bv k => bv ||| 1#w <<< k) bv

theorem getLsbD_setAll {ks : List ℕ} (hks : ∀ k ∈ ks, k < w) (bv : BitVec w) (i : ℕ) :
    (setAll ks bv).getLsbD i = true ↔ bv.getLsbD i = true ∨ i ∈ ks := by
  induction ks generalizing bv with
  | nil => simp [setAll]
  | cons k ks ih =>
      have ih' := ih (fun j hj => hks j (List.mem_cons_of_mem _ hj)) (bv ||| 1#w <<< k)
      show (setAll ks (bv ||| 1#w <<< k)).getLsbD i = true ↔ _
      rw [ih', BitVec.getLsbD_or, getLsbD_one_shiftLeft (hks k List.mem_cons_self), List.mem_cons,
        Bool.or_eq_true, decide_eq_true_eq, or_assoc]

/-- Setting ascending positions in an empty vector gives them back. -/
theorem bits_setAll {ks : List ℕ} (hsorted : ks.Pairwise (· < ·)) (hks : ∀ k ∈ ks, k < w) :
    bits (setAll ks 0#w) = ks := by
  apply bits_eq hsorted
  intro i
  rw [getLsbD_setAll hks]
  simp

/-- Setting the set positions of a vector gives it back. -/
theorem setAll_bits (bv : BitVec w) : setAll (bits bv) 0#w = bv := by
  apply BitVec.eq_of_getLsbD_eq
  intro i _
  have hlt : ∀ k ∈ bits bv, k < w := fun k hk => List.mem_range.mp (List.mem_filter.mp hk).1
  rw [Bool.eq_iff_iff, getLsbD_setAll hlt, mem_bits]
  simp

end Fred.Bitmap
