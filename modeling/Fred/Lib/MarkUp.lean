/-
# Fred.Lib.MarkUp -- marking a node and everything above it, once

A general library on forests of parent links (`Fred.Lib.Forest`). `markUp` is the recursion that does
nothing at a marked node and otherwise marks it and goes on with its parent. It stops at the first mark
it meets, so what it leaves behind is complete only if the marks were closed under the parent link
before. While it runs they are not: the node it just marked has an unmarked parent. The specification
(`markUp_spec`) therefore asks for closed marks at and below the height of the start only.
-/
import Fred.Lib.Forest
import Mathlib.Logic.Function.Basic

namespace Fred.Forest

variable {α : Type*} {parent : α → Option α} {height : α → ℕ} {marked marked' : α → Bool}
  {visited : List α} {a b x y : α}

/-- The parent of a marked node is marked. -/
def MarkClosed (parent : α → Option α) (marked : α → Bool) : Prop :=
  ∀ x y, parent x = some y → marked x = true → marked y = true

/-- Then so is every node that a marked node descends from. -/
theorem MarkClosed.descends (h : MarkClosed parent marked) (hx : marked x = true)
    (hd : Descends parent x y) : marked y = true := by
  induction hd with
  | refl => exact hx
  | tail _ hstep ih => exact h _ _ hstep ih

variable [DecidableEq α]

/-- The recursion of marking upwards: the marks it leaves and the nodes it marked, in the order it
marked them. The result is `none` if it is not done after `n` nodes. -/
def markUp (parent : α → Option α) : ℕ → α → (α → Bool) → Option ((α → Bool) × List α)
  | 0, _, _ => none
  | n + 1, a, marked =>
    if marked a then some (marked, [])
    else match parent a with
      | none => some (Function.update marked a true, [a])
      | some b => (markUp parent n b (Function.update marked a true)).map fun r => (r.1, a :: r.2)

/-- What the recursion from `a` leaves: `a` and everything it descends from is marked, and what was not
marked of these has been visited, once. -/
structure MarkSpec (parent : α → Option α) (a : α) (marked marked' : α → Bool) (visited : List α) :
    Prop where
  marked_iff : ∀ x, marked' x = true ↔ marked x = true ∨ Descends parent a x
  mem_visited : ∀ x, x ∈ visited ↔ Descends parent a x ∧ marked x = false
  nodup : visited.Nodup

theorem update_true_iff : Function.update marked a true x = true ↔ marked x = true ∨ a = x := by
  by_cases hx : x = a
  · subst hx
    simp
  · rw [Function.update_of_ne hx]
    simp [Ne.symm hx]

namespace MarkSpec

omit [DecidableEq α] in
/-- A marked start is left alone: everything above it is marked. -/
theorem of_marked (F : IsForest parent height)
    (hclosed : ∀ x y, height x ≤ height a → parent x = some y → marked x = true → marked y = true)
    (ha : marked a = true) : MarkSpec parent a marked marked [] := by
  have hall : ∀ x, Descends parent a x → marked x = true := by
    intro x hd
    induction hd with
    | refl => exact ha
    | tail hpre hstep ih => exact hclosed _ _ (F.height_le hpre) hstep ih
  refine ⟨fun x => ⟨Or.inl, fun h => h.elim id (hall x)⟩, fun x => ?_, List.nodup_nil⟩
  constructor
  · intro hx
    cases hx
  · rintro ⟨hd, hx⟩
    rw [hall x hd] at hx
    cases hx

theorem of_root (hp : parent a = none) (ha : marked a = false) :
    MarkSpec parent a marked (Function.update marked a true) [a] := by
  refine ⟨fun x => ?_, fun x => ?_, List.nodup_singleton a⟩
  · rw [update_true_iff, descends_iff_of_root hp]
  · rw [List.mem_singleton, descends_iff_of_root hp]
    constructor
    · rintro rfl
      exact ⟨rfl, ha⟩
    · exact fun h => h.1.symm

/-- One node, then the rest from its parent. -/
theorem of_parent (F : IsForest parent height) (hp : parent a = some b) (ha : marked a = false)
    (rest : MarkSpec parent b (Function.update marked a true) marked' visited) :
    MarkSpec parent a marked marked' (a :: visited) := by
  have hbelow : ∀ {x}, Descends parent b x → a ≠ x := by
    rintro x hd rfl
    have hle := F.height_le hd
    have hlt := F.height_parent hp
    omega
  refine ⟨fun x => ?_, fun x => ?_, List.nodup_cons.mpr ⟨fun hmem => ?_, rest.nodup⟩⟩
  · rw [rest.marked_iff, update_true_iff, descends_iff_of_parent hp, or_assoc]
  · rw [List.mem_cons, rest.mem_visited, descends_iff_of_parent hp]
    constructor
    · rintro (rfl | ⟨hd, hx⟩)
      · exact ⟨Or.inl rfl, ha⟩
      · rw [Function.update_of_ne (hbelow hd).symm] at hx
        exact ⟨Or.inr hd, hx⟩
    · rintro ⟨rfl | hd, hx⟩
      · exact Or.inl rfl
      · refine Or.inr ⟨hd, ?_⟩
        rwa [Function.update_of_ne (hbelow hd).symm]
  · exact hbelow ((rest.mem_visited a).mp hmem).1 rfl

omit [DecidableEq α] in
/-- Closed marks are closed again afterwards. -/
theorem closed (h : MarkSpec parent a marked marked' visited) (hclosed : MarkClosed parent marked) :
    MarkClosed parent marked' := by
  intro x y hxy hx
  rw [h.marked_iff] at hx ⊢
  rcases hx with hx | hd
  · exact Or.inl (hclosed x y hxy hx)
  · exact Or.inr (hd.trans (Descends.single hxy))

end MarkSpec

theorem markUp_of_marked {n : ℕ} (hn : 0 < n) (ha : marked a = true) :
    markUp parent n a marked = some (marked, []) := by
  cases n with
  | zero => omega
  | succ n => simp [markUp, ha]

theorem markUp_of_root {n : ℕ} (hn : 0 < n) (ha : marked a = false) (hp : parent a = none) :
    markUp parent n a marked = some (Function.update marked a true, [a]) := by
  cases n with
  | zero => omega
  | succ n => simp [markUp, ha, hp]

theorem markUp_of_parent {n : ℕ} (ha : marked a = false) (hp : parent a = some b) :
    markUp parent (n + 1) a marked =
      (markUp parent n b (Function.update marked a true)).map fun r => (r.1, a :: r.2) := by
  simp [markUp, ha, hp]

/-- **Marking upwards ends**, after no more nodes than the start is high and one, with a result that does
not depend on the bound, and marks what is missing. -/
theorem IsForest.markUp_spec (F : IsForest parent height) (a : α) :
    ∀ marked : α → Bool,
      (∀ x y, height x ≤ height a → parent x = some y → marked x = true → marked y = true) →
      ∃ r, (∀ n, height a < n → markUp parent n a marked = some r) ∧
        MarkSpec parent a marked r.1 r.2 := by
  induction a using F.induction with
  | root a hp =>
      intro marked hclosed
      rcases ha : marked a with _ | _
      · refine ⟨(Function.update marked a true, [a]), fun n hn => ?_, MarkSpec.of_root hp ha⟩
        exact markUp_of_root (by omega) ha hp
      · refine ⟨(marked, []), fun n hn => ?_, MarkSpec.of_marked F hclosed ha⟩
        exact markUp_of_marked (by omega) ha
  | child a b hp ih =>
      intro marked hclosed
      have hheight := F.height_parent hp
      rcases ha : marked a with _ | _
      · obtain ⟨r, hr, spec⟩ := ih (Function.update marked a true) (by
          intro x y hx hxy hmarked
          -- at and below the height of `b` the new mark is not met
          have hxa : a ≠ x := by
            rintro rfl
            omega
          have hold := (update_true_iff.mp hmarked).resolve_right hxa
          exact update_true_iff.mpr (Or.inl (hclosed x y (by omega) hxy hold)))
        refine ⟨(r.1, a :: r.2), fun n hn => ?_, MarkSpec.of_parent F hp ha spec⟩
        obtain ⟨m, rfl⟩ := Nat.exists_eq_succ_of_ne_zero (Nat.ne_of_gt (Nat.zero_lt_of_lt hn))
        rw [markUp_of_parent ha hp, hr m (by omega), Option.map_some]
      · refine ⟨(marked, []), fun n hn => ?_, MarkSpec.of_marked F hclosed ha⟩
        exact markUp_of_marked (by omega) ha

end Fred.Forest
