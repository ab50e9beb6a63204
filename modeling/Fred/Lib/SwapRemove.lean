/-
# Fred.Lib.SwapRemove -- removing from a vector while iterating over it

A general library for a loop that goes over a vector by position and removes the entry it stands on by
moving the last entry into the hole (`swapRemove`). It does not advance then, since the entry that was
moved has not been looked at yet.

`Sweeping` is what such a loop has done when it stands at a position: there is one rule for a start, one
for an entry that is passed, one for an entry that is removed, and `Sweeping.finish` says what is true
when the position is the end. `Sweeps` is a whole loop that has ended, with the entries it has come to
(`Sweeps.spec`).
-/
import Mathlib.Data.List.Perm.Basic
import Mathlib.Data.List.Basic
import Mathlib.Tactic.Common

namespace Fred.SwapRemove

variable {α β : Type*}

/-- The last entry takes the place of entry `i`, which is `x`, and the vector gets shorter by one. -/
def swapRemove (xs : List α) (i : ℕ) (x : α) : List α := (xs.set i (xs.getLastD x)).dropLast

@[simp] theorem length_swapRemove (xs : List α) (i : ℕ) (x : α) :
    (swapRemove xs i x).length = xs.length - 1 := by
  simp [swapRemove]

theorem map_swapRemove (f : α → β) (xs : List α) (i : ℕ) (x : α) :
    (swapRemove xs i x).map f = swapRemove (xs.map f) i (f x) := by
  unfold swapRemove
  rw [List.map_dropLast, List.map_set]
  rcases List.eq_nil_or_concat xs with rfl | ⟨front, last, rfl⟩
  · rfl
  · simp [List.getLastD_eq_getLast?]

/-- **One removal.** What was passed stays in its place, and what comes after it loses the one entry. -/
theorem swapRemove_append (passed rest : List α) (x : α) :
    ∃ rest', swapRemove (passed ++ x :: rest) passed.length x = passed ++ rest' ∧ rest'.Perm rest := by
  unfold swapRemove
  rcases List.eq_nil_or_concat rest with rfl | ⟨front, last, rfl⟩
  · -- the removed entry is the last one: it is written over itself and dropped
    refine ⟨[], ?_, List.Perm.refl _⟩
    simp [List.getLastD_eq_getLast?]
  · refine ⟨last :: front, ?_, ?_⟩
    · have hsnoc : passed ++ x :: front.concat last = (passed ++ x :: front) ++ [last] := by simp
      rw [hsnoc, List.getLastD_eq_getLast?, List.getLast?_concat, Option.getD_some,
        List.set_append_left _ _ (by simp), List.dropLast_concat]
      simp
    · rw [List.concat_eq_append]
      exact (List.perm_append_singleton last front).symm

/-! ## What a loop has done -/

/-- The loop began with `begun`, has come to `visited` and stands at position `i` of `xs`: it has not
gone past the end, what it has not come to is what stands from the position on, and what it has passed are
the visited entries that it keeps. -/
structure Sweeping (keep : α → Bool) (begun visited : List α) (i : ℕ) (xs : List α) : Prop where
  pos_le : i ≤ xs.length
  visits : (visited ++ xs.drop i).Perm begun
  passed : (xs.take i).Perm (visited.filter keep)

variable {keep : α → Bool} {begun visited xs out : List α} {i : ℕ} {x : α}

/-- The position cuts the vector before the entry it is the position of. -/
theorem exists_split (h : xs[i]? = some x) : ∃ passed rest, xs = passed ++ x :: rest ∧
    passed.length = i := by
  obtain ⟨hi, rfl⟩ := List.getElem?_eq_some_iff.mp h
  refine ⟨xs.take i, xs.drop (i + 1), ?_, ?_⟩
  · rw [← List.drop_eq_getElem_cons hi, List.take_append_drop]
  · exact List.length_take_of_le (Nat.le_of_lt hi)

namespace Sweeping

theorem start (keep : α → Bool) (xs : List α) : Sweeping keep xs [] 0 xs :=
  ⟨Nat.zero_le _, List.Perm.refl _, List.Perm.refl _⟩

/-- An entry is kept, and the position moves on. -/
theorem pass (S : Sweeping keep begun visited i xs) (hx : xs[i]? = some x) (hkeep : keep x = true) :
    Sweeping keep begun (visited ++ [x]) (i + 1) xs := by
  obtain ⟨passed, rest, rfl, rfl⟩ := exists_split hx
  have hvisits := S.visits
  have hpassed := S.passed
  rw [List.drop_left] at hvisits
  rw [List.take_left] at hpassed
  have hsplit : passed ++ x :: rest = (passed ++ [x]) ++ rest := by simp
  have hlength : passed.length + 1 = (passed ++ [x]).length := by simp
  rw [hlength, hsplit]
  refine ⟨by simp, ?_, ?_⟩
  · rw [List.drop_left, List.append_assoc]
    exact hvisits
  · rw [List.take_left, List.filter_append, List.filter_cons_of_pos hkeep]
    exact hpassed.append_right _

/-- An entry is removed, and the position stays: another entry stands there now, or none. -/
theorem remove (S : Sweeping keep begun visited i xs) (hx : xs[i]? = some x)
    (hdrop : keep x = false) : Sweeping keep begun (visited ++ [x]) i (swapRemove xs i x) := by
  obtain ⟨passed, rest, rfl, rfl⟩ := exists_split hx
  have hvisits := S.visits
  have hpassed := S.passed
  rw [List.drop_left] at hvisits
  rw [List.take_left] at hpassed
  obtain ⟨rest', hswap, hperm⟩ := swapRemove_append passed rest x
  rw [hswap]
  refine ⟨by simp, ?_, ?_⟩
  · rw [List.drop_left, List.append_assoc]
    exact ((hperm.cons x).append_left visited).trans hvisits
  · rw [List.take_left, List.filter_append, List.filter_cons_of_neg (by simp [hdrop])]
    simpa using hpassed

/-- **At the end** every entry was come to once, and those to keep are left. -/
theorem finish (S : Sweeping keep begun visited i xs) (hx : xs[i]? = none) :
    i = xs.length ∧ visited.Perm begun ∧ xs.Perm (begun.filter keep) := by
  have hi : i = xs.length := Nat.le_antisymm S.pos_le (List.getElem?_eq_none_iff.mp hx)
  have hvisits := S.visits
  have hpassed := S.passed
  rw [hi, List.drop_length, List.append_nil] at hvisits
  rw [hi, List.take_length] at hpassed
  exact ⟨hi, hvisits, hpassed.trans (hvisits.filter _)⟩

end Sweeping

/-! ## Whole loops -/

/-- A whole loop from position `i` of `xs`: it comes to `visited`, in this order, and ends with `out`. -/
inductive Sweeps (keep : α → Bool) : ℕ → List α → List α → List α → Prop
  | done {i : ℕ} {xs : List α} (hx : xs[i]? = none) : Sweeps keep i xs [] xs
  | passed {i : ℕ} {x : α} {xs visited out : List α} (hx : xs[i]? = some x) (hkeep : keep x = true)
      (hrest : Sweeps keep (i + 1) xs visited out) : Sweeps keep i xs (x :: visited) out
  | removed {i : ℕ} {x : α} {xs visited out : List α} (hx : xs[i]? = some x) (hdrop : keep x = false)
      (hrest : Sweeps keep i (swapRemove xs i x) visited out) : Sweeps keep i xs (x :: visited) out

namespace Sweeps

/-- A loop goes on with what was done before it. -/
theorem finish {before : List α} (L : Sweeps keep i xs visited out)
    (S : Sweeping keep begun before i xs) :
    (before ++ visited).Perm begun ∧ out.Perm (begun.filter keep) := by
  induction L generalizing before with
  | done hx =>
      rw [List.append_nil]
      exact (S.finish hx).2
  | passed hx hkeep _ ih =>
      rw [List.append_cons]
      exact ih (S.pass hx hkeep)
  | removed hx hdrop _ ih =>
      rw [List.append_cons]
      exact ih (S.remove hx hdrop)

/-- **A loop over a vector comes to every entry once and keeps those to keep.** -/
theorem spec (L : Sweeps keep 0 xs visited out) :
    visited.Perm xs ∧ out.Perm (xs.filter keep) :=
  L.finish (Sweeping.start keep xs)

end Sweeps

end Fred.SwapRemove
