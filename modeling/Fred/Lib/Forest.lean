/-
# Fred.Lib.Forest -- parent links that reach a root

A general library on linked structures: a type `α` of nodes, a partial `parent` link and a
`height`. Nothing here names blocks or replicas. The pair is a *forest* when a link lowers the
height by exactly one and only nodes of height zero have no link (`IsForest`). Then

* `Descends` (the reflexive and transitive closure of the link) is graded and linear below a node,
* the loop `for (b = a; height b > bound; b = parent b)` ends and finds the ancestor at the bound
  (`walkDown`, the executable loop, with its specification `walkDown_spec`), and
* the nodes of positive height below a node form a list with one node at each height (`trunk`).
-/
import Mathlib.Logic.Relation
import Mathlib.Data.List.Nodup
import Mathlib.Data.List.Range
import Mathlib.Tactic.Common

namespace Fred.Forest

variable {α : Type*}

/-! ## Descent -/

/-- `Descends parent a b`: following parent links from `a` reaches `b` (after zero or more). -/
def Descends (parent : α → Option α) (a b : α) : Prop :=
  Relation.ReflTransGen (fun x y => parent x = some y) a b

/-- A link lowers the height by exactly one, and only roots have height zero. -/
structure IsForest (parent : α → Option α) (height : α → ℕ) : Prop where
  height_parent : ∀ {a b}, parent a = some b → height a = height b + 1
  height_root : ∀ {a}, parent a = none → height a = 0

variable {parent : α → Option α} {height : α → ℕ} {a b c x : α}

theorem Descends.refl (a : α) : Descends parent a a := Relation.ReflTransGen.refl

theorem Descends.trans (hab : Descends parent a b) (hbc : Descends parent b c) :
    Descends parent a c :=
  Relation.ReflTransGen.trans hab hbc

theorem Descends.single (h : parent a = some b) : Descends parent a b :=
  Relation.ReflTransGen.single h

theorem Descends.head (h : parent a = some b) (hbc : Descends parent b c) :
    Descends parent a c :=
  Relation.ReflTransGen.head h hbc

/-- Two nodes below one node are comparable: a link is a function. -/
theorem Descends.total (hb : Descends parent a b) (hc : Descends parent a c) :
    Descends parent b c ∨ Descends parent c b := by
  refine Relation.ReflTransGen.total_of_right_unique ?_ hb hc
  intro x y z hy hz
  exact Option.some.inj (hy.symm.trans hz)

/-- Descent from a node with a link is the node itself or descent from its parent. -/
theorem descends_iff_of_parent (h : parent a = some b) :
    Descends parent a c ↔ a = c ∨ Descends parent b c := by
  constructor
  · intro hac
    rcases Relation.ReflTransGen.cases_head hac with rfl | ⟨d, had, hdc⟩
    · exact Or.inl rfl
    · have hbd : b = d := Option.some.inj (h.symm.trans had)
      subst hbd
      exact Or.inr hdc
  · rintro (rfl | hbc)
    · exact Descends.refl _
    · exact Descends.head h hbc

theorem descends_iff_of_root (h : parent a = none) : Descends parent a c ↔ a = c := by
  constructor
  · intro hac
    rcases Relation.ReflTransGen.cases_head hac with rfl | ⟨d, had, -⟩
    · rfl
    · rw [h] at had
      exact absurd had (by simp)
  · rintro rfl
    exact Descends.refl _

/-- Descent is kept when links are only added. -/
theorem Descends.mono {parent' : α → Option α}
    (hsub : ∀ x y, parent x = some y → parent' x = some y) (h : Descends parent a b) :
    Descends parent' a b :=
  Relation.ReflTransGen.mono hsub a b h

namespace IsForest

variable (F : IsForest parent height)

include F

theorem height_le (h : Descends parent a b) : height b ≤ height a := by
  induction h with
  | refl => exact le_rfl
  | tail _ hstep ih =>
      have := F.height_parent hstep
      omega

theorem eq_of_height_le (h : Descends parent a b) (hle : height a ≤ height b) : a = b := by
  rcases Relation.ReflTransGen.cases_head h with rfl | ⟨d, had, hdb⟩
  · rfl
  · have h1 := F.height_parent had
    have h2 := F.height_le hdb
    omega

/-- Below one node, the lower of two nodes is an ancestor of the higher one. -/
theorem descends_of_height_le (hb : Descends parent a b) (hc : Descends parent a c)
    (hle : height c ≤ height b) : Descends parent b c := by
  rcases hb.total hc with h | h
  · exact h
  · rw [F.eq_of_height_le h hle]
    exact Descends.refl _

/-- Below one node there is at most one node at each height. -/
theorem eq_of_height_eq (hb : Descends parent a b) (hc : Descends parent a c)
    (heq : height b = height c) : b = c :=
  F.eq_of_height_le (F.descends_of_height_le hb hc heq.ge) heq.le

theorem exists_parent (h : 0 < height a) : ∃ b, parent a = some b := by
  rcases hp : parent a with _ | b
  · have := F.height_root hp
    omega
  · exact ⟨b, rfl⟩

/-- Induction from the roots upwards. -/
theorem induction {motive : α → Prop} (root : ∀ a, parent a = none → motive a)
    (child : ∀ a b, parent a = some b → motive b → motive a) (a : α) : motive a := by
  induction hn : height a using Nat.strong_induction_on generalizing a with
  | _ n ih =>
      rcases hp : parent a with _ | b
      · exact root a hp
      · have := F.height_parent hp
        exact child a b hp (ih (height b) (by omega) b rfl)

end IsForest

/-! ## Ancestors by number of links -/

/-- The node that following `n` links leads to, if there are as many. -/
def ancestor (parent : α → Option α) : ℕ → α → Option α
  | 0, a => some a
  | n + 1, a => (parent a).bind (ancestor parent n)

/-- Following links reaches a root after exactly as many steps as the height says. -/
theorem IsForest.ancestor_eq_some_iff (F : IsForest parent height) {r : α} (hr : parent r = none) :
    Descends parent a r → ∀ n, ancestor parent n a = some r ↔ n = height a := by
  induction a using F.induction with
  | root a h =>
      intro hd n
      obtain rfl := (descends_iff_of_root h).mp hd
      rw [F.height_root h]
      cases n with
      | zero => simp [ancestor]
      | succ n => simp [ancestor, h]
  | child a b h ih =>
      intro hd n
      have hne : a ≠ r := by
        rintro rfl
        rw [hr] at h
        cases h
      have hb := ((descends_iff_of_parent h).mp hd).resolve_left hne
      rw [F.height_parent h]
      cases n with
      | zero => simp [ancestor, hne]
      | succ n => simp [ancestor, h, ih hb n]

/-! ## The walk down to a height -/

/-- The loop `for (b = a; height b > bound; b = parent b)`: the nodes it passes, in the order it
passes them, and the node it stops at. The result is `none` when the loop follows a missing link or
is not done after `fuel` rounds. -/
def walkDown (parent : α → Option α) (height : α → ℕ) (bound : ℕ) : ℕ → α → Option (List α × α)
  | 0, a => if height a ≤ bound then some ([], a) else none
  | n + 1, a =>
    if height a ≤ bound then some ([], a)
    else match parent a with
      | none => none
      | some b => (walkDown parent height bound n b).map fun r => (a :: r.1, r.2)

theorem walkDown_of_le {bound n : ℕ} (h : height a ≤ bound) :
    walkDown parent height bound n a = some ([], a) := by
  cases n <;> simp [walkDown, h]

theorem walkDown_of_lt {bound n : ℕ} (h : bound < height a) (hp : parent a = some b) :
    walkDown parent height bound (n + 1) a =
      (walkDown parent height bound n b).map fun r => (a :: r.1, r.2) := by
  simp [walkDown, hp, Nat.not_le.mpr h]

/-- In a forest the loop ends, within as many rounds as the start is high. -/
theorem IsForest.walkDown_isSome (F : IsForest parent height) (bound : ℕ) :
    ∀ {n : ℕ} {a : α}, height a ≤ n → ∃ r, walkDown parent height bound n a = some r
  | 0, a, hn => ⟨([], a), walkDown_of_le (by omega)⟩
  | n + 1, a, hn => by
      rcases Nat.lt_or_ge bound (height a) with hlt | hle
      · obtain ⟨b, hb⟩ := F.exists_parent (by omega : 0 < height a)
        have hh := F.height_parent hb
        obtain ⟨r, hr⟩ := F.walkDown_isSome bound (n := n) (a := b) (by omega)
        exact ⟨(a :: r.1, r.2), by rw [walkDown_of_lt hlt hb, hr]; rfl⟩
      · exact ⟨([], a), walkDown_of_le hle⟩

/-- What a finished walk says: it stops at an ancestor at or below the bound (exactly at the bound
unless the start was below it), and the nodes it passed are the ancestors above the bound. -/
structure WalkSpec (parent : α → Option α) (height : α → ℕ) (bound : ℕ) (a : α)
    (passed : List α) (stop : α) : Prop where
  descends : Descends parent a stop
  stop_le : height stop ≤ bound
  stop_ge : bound ≤ height a → bound ≤ height stop
  stop_eq : height a ≤ bound → stop = a
  mem_passed : ∀ x, x ∈ passed ↔ Descends parent a x ∧ bound < height x

theorem IsForest.walkDown_spec (F : IsForest parent height) {bound : ℕ} :
    ∀ {n : ℕ} {a : α} {r : List α × α}, walkDown parent height bound n a = some r →
      WalkSpec parent height bound a r.1 r.2 := by
  have hbase : ∀ a, height a ≤ bound → WalkSpec parent height bound a [] a := by
    intro a hle
    refine ⟨Descends.refl _, hle, id, fun _ => rfl, fun x => ?_⟩
    simp only [List.not_mem_nil, false_iff, not_and, not_lt]
    exact fun hx => (F.height_le hx).trans hle
  intro n
  induction n with
  | zero =>
      intro a r h
      by_cases hle : height a ≤ bound
      · rw [walkDown_of_le hle] at h
        obtain rfl := Option.some.inj h
        exact hbase a hle
      · simp [walkDown, hle] at h
  | succ n ih =>
      intro a r h
      by_cases hle : height a ≤ bound
      · rw [walkDown_of_le hle] at h
        obtain rfl := Option.some.inj h
        exact hbase a hle
      · have hlt : bound < height a := Nat.not_le.mp hle
        obtain ⟨b, hb⟩ := F.exists_parent (by omega : 0 < height a)
        rw [walkDown_of_lt hlt hb, Option.map_eq_some_iff] at h
        obtain ⟨r', hr', rfl⟩ := h
        have spec := ih hr'
        have hh := F.height_parent hb
        refine ⟨Descends.head hb spec.descends, spec.stop_le, fun _ => spec.stop_ge (by omega),
          fun h' => absurd h' hle, fun x => ?_⟩
        rw [List.mem_cons, spec.mem_passed, descends_iff_of_parent hb]
        constructor
        · rintro (rfl | ⟨hx, hxb⟩)
          · exact ⟨Or.inl rfl, hlt⟩
          · exact ⟨Or.inr hx, hxb⟩
        · rintro ⟨rfl | hx, hxb⟩
          · exact Or.inl rfl
          · exact Or.inr ⟨hx, hxb⟩

/-- The walk stops at a node of height `bound` exactly when the start descends from that node. -/
theorem WalkSpec.stop_eq_iff (F : IsForest parent height) {passed : List α} {stop : α}
    (h : WalkSpec parent height (height c) a passed stop) : stop = c ↔ Descends parent a c := by
  constructor
  · rintro rfl
    exact h.descends
  · intro hac
    have hge : height c ≤ height stop := h.stop_ge (F.height_le hac)
    exact F.eq_of_height_eq h.descends hac (le_antisymm h.stop_le hge)

/-! ## The trunk of a node -/

/-- The first `n` nodes met when following links from a node, the node itself first. -/
def trunkAux (parent : α → Option α) : ℕ → α → List α
  | 0, _ => []
  | n + 1, a => a :: match parent a with
    | none => []
    | some b => trunkAux parent n b

/-- The nodes of positive height from `a` down, in descending height. -/
def trunk (parent : α → Option α) (height : α → ℕ) (a : α) : List α :=
  trunkAux parent (height a) a

theorem trunk_of_height_zero (h : height a = 0) : trunk parent height a = [] := by
  simp [trunk, h, trunkAux]

namespace IsForest

variable (F : IsForest parent height)

include F

theorem trunk_of_parent (h : parent a = some b) :
    trunk parent height a = a :: trunk parent height b := by
  simp [trunk, F.height_parent h, trunkAux, h]

theorem trunk_of_root (h : parent a = none) : trunk parent height a = [] :=
  trunk_of_height_zero (F.height_root h)

theorem mem_trunk : x ∈ trunk parent height a ↔ Descends parent a x ∧ 0 < height x := by
  induction a using F.induction with
  | root a h =>
      rw [F.trunk_of_root h, descends_iff_of_root h]
      have := F.height_root h
      simp only [List.not_mem_nil, false_iff, not_and, not_lt]
      rintro rfl
      exact this.le
  | child a b h ih =>
      rw [F.trunk_of_parent h, List.mem_cons, ih, descends_iff_of_parent h]
      have := F.height_parent h
      constructor
      · rintro (rfl | ⟨hx, hpos⟩)
        · exact ⟨Or.inl rfl, by omega⟩
        · exact ⟨Or.inr hx, hpos⟩
      · rintro ⟨rfl | hx, hpos⟩
        · exact Or.inl rfl
        · exact Or.inr ⟨hx, hpos⟩

/-- The trunk has one node at each height from the node's own height down to one. -/
theorem map_height_trunk :
    (trunk parent height a).map height = (List.range' 1 (height a)).reverse := by
  induction a using F.induction with
  | root a h => simp [F.trunk_of_root h, F.height_root h]
  | child a b h ih =>
      rw [F.trunk_of_parent h, List.map_cons, ih, F.height_parent h, List.range'_concat]
      simp [Nat.add_comm]

theorem length_trunk : (trunk parent height a).length = height a := by
  have h := congrArg List.length (F.map_height_trunk (a := a))
  simpa using h

theorem nodup_trunk : (trunk parent height a).Nodup := by
  refine List.Nodup.of_map height ?_
  rw [F.map_height_trunk, List.nodup_reverse]
  exact List.nodup_range'

/-- What a walk passes, followed by the trunk of where it stops, is the trunk of its start. -/
theorem trunk_eq_append_of_walkDown {bound : ℕ} :
    ∀ {n : ℕ} {a : α} {r : List α × α}, walkDown parent height bound n a = some r →
      trunk parent height a = r.1 ++ trunk parent height r.2
  | n, a, r, h => by
      by_cases hle : height a ≤ bound
      · rw [walkDown_of_le hle] at h
        obtain rfl := Option.some.inj h
        rfl
      · have hlt : bound < height a := Nat.not_le.mp hle
        cases n with
        | zero => simp [walkDown, hle] at h
        | succ n =>
            obtain ⟨b, hb⟩ := F.exists_parent (by omega : 0 < height a)
            rw [walkDown_of_lt hlt hb, Option.map_eq_some_iff] at h
            obtain ⟨r', hr', rfl⟩ := h
            rw [F.trunk_of_parent hb, trunk_eq_append_of_walkDown hr']
            rfl

/-- The trunk of an ancestor is a suffix of the trunk. -/
theorem trunk_suffix (h : Descends parent a b) :
    trunk parent height b <:+ trunk parent height a := by
  induction h using Relation.ReflTransGen.head_induction_on with
  | refl => exact List.suffix_refl _
  | head hac _ ih =>
      rw [F.trunk_of_parent hac]
      exact ih.trans (List.suffix_cons _ _)

/-- Every suffix of the trunk, read through a map, is the trunk of an ancestor. -/
theorem exists_descends_of_suffix {β : Type*} {f : α → β} {l : List β} :
    l <:+ (trunk parent height a).map f →
      ∃ b, Descends parent a b ∧ (trunk parent height b).map f = l := by
  induction a using F.induction with
  | root a h =>
      intro hl
      rw [F.trunk_of_root h, List.map_nil, List.suffix_nil] at hl
      exact ⟨a, Descends.refl a, by rw [F.trunk_of_root h, hl, List.map_nil]⟩
  | child a b h ih =>
      intro hl
      rw [F.trunk_of_parent h, List.map_cons, List.suffix_cons_iff] at hl
      rcases hl with rfl | hl
      · exact ⟨a, Descends.refl a, by rw [F.trunk_of_parent h, List.map_cons]⟩
      · obtain ⟨c, hc, hmap⟩ := ih hl
        exact ⟨c, Descends.head h hc, hmap⟩

end IsForest

end Fred.Forest
