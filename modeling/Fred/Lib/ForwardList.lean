/-
# Fred.Lib.ForwardList -- singly linked lists in memory

A general library for lists that are chained through memory. A node has an address and links to the
next one, and whoever keeps an address can insert behind it. `insertAfter` and `popFront` return nothing
where they would follow an address at which there is no node (any more); addresses are not used twice,
so an address that outlives its node is never taken for another one's.

`Holds l xs` says that the nodes of `l` are `xs`, in this order. It is kept by every operation, with a
rule that says what the nodes are afterwards.
-/
import Mathlib.Data.List.Nodup
import Mathlib.Data.List.Perm.Subperm
import Mathlib.Tactic.Common

namespace Fred

/-- The address of a node. -/
abbrev Addr := ℕ

/-- A value, and the node behind this one. -/
structure Node (α : Type*) where
  value : α
  next : Option Addr

structure ForwardList (α : Type*) where
  nodes : Addr → Option (Node α)
  /-- The first node. -/
  head : Option Addr
  /-- No node has been at this address or one above it. -/
  fresh : Addr

namespace ForwardList

variable {α : Type*}

def empty : ForwardList α := ⟨fun _ => none, none, 0⟩

def setNode (nodes : Addr → Option (Node α)) (p : Addr) (n : Option (Node α)) :
    Addr → Option (Node α) :=
  fun q => if q = p then n else nodes q

/-- Insert behind the node at an address, or before the first node; the address of the new node. -/
def insertAfter (pos : Option Addr) (x : α) (l : ForwardList α) : Option (Addr × ForwardList α) :=
  match pos with
  | none => some (l.fresh, ⟨setNode l.nodes l.fresh (some ⟨x, l.head⟩), some l.fresh, l.fresh + 1⟩)
  | some p =>
    match l.nodes p with
    | none => none
    | some n =>
      some (l.fresh, ⟨setNode (setNode l.nodes l.fresh (some ⟨x, n.next⟩)) p
        (some { n with next := some l.fresh }), l.head, l.fresh + 1⟩)

/-- The value of the first node. -/
def front (l : ForwardList α) : Option α := l.head.bind fun p => (l.nodes p).map Node.value

/-- Remove the first node; the address of the node behind it. -/
def popFront (l : ForwardList α) : Option (Option Addr × ForwardList α) :=
  match l.head with
  | none => none
  | some p =>
    match l.nodes p with
    | none => none
    | some n => some (n.next, { l with nodes := setNode l.nodes p none, head := n.next })

def clear (l : ForwardList α) : ForwardList α := { l with nodes := fun _ => none, head := none }

/-- The nodes from an address on, with their addresses. -/
def walk (nodes : Addr → Option (Node α)) : ℕ → Option Addr → List (Addr × α)
  | 0, _ => []
  | _ + 1, none => []
  | fuel + 1, some p =>
    match nodes p with
    | none => []
    | some n => (p, n.value) :: walk nodes fuel n.next

/-- The nodes of a list, first node first. -/
def entries (l : ForwardList α) : List (Addr × α) := walk l.nodes l.fresh l.head

def values (l : ForwardList α) : List α := l.entries.map Prod.snd

/-! ## What the nodes of a list are -/

/-- Following the links from `start` passes the nodes of the list and arrives at `stop`. -/
def IsSegment (nodes : Addr → Option (Node α)) (stop : Option Addr) :
    Option Addr → List (Addr × α) → Prop
  | start, [] => start = stop
  | start, (p, x) :: xs =>
    start = some p ∧ ∃ next, nodes p = some ⟨x, next⟩ ∧ IsSegment nodes stop next xs

structure Holds (l : ForwardList α) (xs : List (Addr × α)) : Prop where
  chain : IsSegment l.nodes none l.head xs
  nodup : (xs.map Prod.fst).Nodup
  lt_fresh : ∀ p ∈ xs.map Prod.fst, p < l.fresh

section

variable {nodes nodes' : Addr → Option (Node α)} {start stop : Option Addr}
  {xs ys : List (Addr × α)} {p : Addr} {x : α}

theorem setNode_self (nodes : Addr → Option (Node α)) (p : Addr) (n : Option (Node α)) :
    setNode nodes p n p = n := if_pos rfl

theorem setNode_of_ne (nodes : Addr → Option (Node α)) {p q : Addr} (n : Option (Node α))
    (h : q ≠ p) : setNode nodes p n q = nodes q := if_neg h

/-- A segment depends on its own nodes only. -/
theorem IsSegment.congr (h : IsSegment nodes stop start xs)
    (heq : ∀ q ∈ xs.map Prod.fst, nodes' q = nodes q) : IsSegment nodes' stop start xs := by
  induction xs generalizing start with
  | nil => exact h
  | cons e xs ih =>
      obtain ⟨hstart, next, hnode, hrest⟩ := h
      refine ⟨hstart, next, ?_, ih hrest fun q hq => heq q (List.mem_cons_of_mem _ hq)⟩
      rw [heq _ List.mem_cons_self]
      exact hnode

/-- A segment is cut at any of its nodes. -/
theorem isSegment_append : IsSegment nodes stop start (xs ++ ys) ↔
    ∃ mid, IsSegment nodes mid start xs ∧ IsSegment nodes stop mid ys := by
  induction xs generalizing start with
  | nil =>
      constructor
      · exact fun h => ⟨start, rfl, h⟩
      · rintro ⟨mid, rfl, h⟩
        exact h
  | cons e xs ih =>
      constructor
      · rintro ⟨hstart, next, hnode, hrest⟩
        obtain ⟨mid, hxs, hys⟩ := ih.mp hrest
        exact ⟨mid, ⟨hstart, next, hnode, hxs⟩, hys⟩
      · rintro ⟨mid, ⟨hstart, next, hnode, hxs⟩, hys⟩
        exact ⟨hstart, next, hnode, ih.mpr ⟨mid, hxs, hys⟩⟩

/-- The walk finds the nodes of a segment that ends the list, if it may go that far. -/
theorem IsSegment.walk_eq {fuel : ℕ} (h : IsSegment nodes none start xs) (hfuel : xs.length ≤ fuel) :
    walk nodes fuel start = xs := by
  induction xs generalizing start fuel with
  | nil =>
      obtain rfl : start = none := h
      cases fuel <;> rfl
  | cons e xs ih =>
      obtain ⟨rfl, next, hnode, hrest⟩ := h
      cases fuel with
      | zero => exact absurd hfuel (Nat.not_succ_le_zero _)
      | succ fuel =>
          unfold walk
          rw [hnode]
          dsimp only
          rw [ih hrest (Nat.le_of_succ_le_succ hfuel)]

end

namespace Holds

variable {l l' : ForwardList α} {xs ys : List (Addr × α)} {p : Addr} {x y : α}

theorem empty : Holds (.empty : ForwardList α) [] where
  chain := rfl
  nodup := List.nodup_nil
  lt_fresh := fun _ h => absurd h List.not_mem_nil

theorem clear (l : ForwardList α) : Holds l.clear [] where
  chain := rfl
  nodup := List.nodup_nil
  lt_fresh := fun _ h => absurd h List.not_mem_nil

/-- The nodes are what the walk from the head finds. -/
theorem entries_eq (h : Holds l xs) : l.entries = xs := by
  refine h.chain.walk_eq ?_
  have hsub : xs.map Prod.fst ⊆ List.range l.fresh := by
    intro q hq
    exact List.mem_range.mpr (h.lt_fresh q hq)
  have hle := (List.subperm_of_subset h.nodup hsub).length_le
  simpa using hle

theorem head_eq_none_iff (h : Holds l xs) : l.head = none ↔ xs = [] := by
  cases xs with
  | nil => exact iff_of_true h.chain rfl
  | cons e xs =>
      obtain ⟨hhead, -⟩ := h.chain
      simp [hhead]

theorem front_eq (h : Holds l xs) : l.front = xs.head?.map Prod.snd := by
  unfold front
  cases xs with
  | nil =>
      have hhead : l.head = none := h.chain
      rw [hhead]
      rfl
  | cons e xs =>
      obtain ⟨hhead, next, hnode, -⟩ := h.chain
      rw [hhead, Option.bind_some, hnode]
      rfl

/-- **Insertion before the first node.** -/
theorem insertAfter_none (h : Holds l xs) (y : α) :
    ∃ l', l.insertAfter none y = some (l.fresh, l') ∧ Holds l' ((l.fresh, y) :: xs) := by
  have hnot : l.fresh ∉ xs.map Prod.fst := fun hmem => Nat.lt_irrefl _ (h.lt_fresh _ hmem)
  refine ⟨_, rfl, ⟨rfl, l.head, setNode_self _ _ _, h.chain.congr fun q hq => ?_⟩, ?_, ?_⟩
  · exact setNode_of_ne _ _ (ne_of_mem_of_not_mem hq hnot)
  · exact List.nodup_cons.mpr ⟨hnot, h.nodup⟩
  · intro q hq
    rcases List.mem_cons.mp hq with rfl | hq
    · exact Nat.lt_succ_self _
    · exact Nat.lt_succ_of_lt (h.lt_fresh q hq)

/-- **Insertion behind a node.** -/
theorem insertAfter_some (h : Holds l (xs ++ (p, x) :: ys)) (y : α) :
    ∃ l', l.insertAfter (some p) y = some (l.fresh, l') ∧
      Holds l' (xs ++ (p, x) :: (l.fresh, y) :: ys) := by
  obtain ⟨mid, hxs, hmid, next, hnode, hys⟩ := isSegment_append.mp h.chain
  have hnot : l.fresh ∉ (xs ++ (p, x) :: ys).map Prod.fst :=
    fun hmem => Nat.lt_irrefl _ (h.lt_fresh _ hmem)
  have hnodup := h.nodup
  simp only [List.map_append, List.map_cons, List.nodup_append, List.nodup_cons, List.mem_append,
    List.mem_cons, not_or] at hnodup hnot
  obtain ⟨hnodupXs, ⟨hpYs, hnodupYs⟩, hapart⟩ := hnodup
  obtain ⟨hfreshXs, hfreshP, hfreshYs⟩ := hnot
  have hpXs : p ∉ xs.map Prod.fst := fun hmem => hapart p hmem p (Or.inl rfl) rfl
  unfold insertAfter
  dsimp only
  rw [hnode]
  refine ⟨_, rfl, ?_, ?_, ?_⟩
  · -- only the new node and the one before it are written
    refine isSegment_append.mpr ⟨mid, hxs.congr fun q hq => ?_, hmid, some l.fresh, ?_, rfl, next,
      ?_, hys.congr fun q hq => ?_⟩
    · dsimp only
      rw [setNode_of_ne _ _ (ne_of_mem_of_not_mem hq hpXs),
        setNode_of_ne _ _ (ne_of_mem_of_not_mem hq hfreshXs)]
    · exact setNode_self _ _ _
    · dsimp only
      rw [setNode_of_ne _ _ hfreshP, setNode_self]
    · dsimp only
      rw [setNode_of_ne _ _ (ne_of_mem_of_not_mem hq hpYs),
        setNode_of_ne _ _ (ne_of_mem_of_not_mem hq hfreshYs)]
  · simp only [List.map_append, List.map_cons, List.nodup_append, List.nodup_cons, List.mem_cons,
      not_or]
    refine ⟨hnodupXs, ⟨⟨Ne.symm hfreshP, hpYs⟩, hfreshYs, hnodupYs⟩, ?_⟩
    rintro a ha b (rfl | rfl | hb)
    · exact hapart a ha b (Or.inl rfl)
    · exact fun heq => hfreshXs (heq ▸ ha)
    · exact hapart a ha b (Or.inr hb)
  · intro q hq
    have hcases : q ∈ (xs ++ (p, x) :: ys).map Prod.fst ∨ q = l.fresh := by
      simp only [List.map_append, List.map_cons, List.mem_append, List.mem_cons] at hq ⊢
      tauto
    rcases hcases with hq | rfl
    · exact Nat.lt_succ_of_lt (h.lt_fresh q hq)
    · exact Nat.lt_succ_self _

/-- **Removal of the first node.** -/
theorem popFront_cons (h : Holds l ((p, x) :: xs)) :
    ∃ l', l.popFront = some (l'.head, l') ∧ Holds l' xs := by
  obtain ⟨hhead, next, hnode, hxs⟩ := h.chain
  obtain ⟨hp, hnodup⟩ := List.nodup_cons.mp h.nodup
  unfold popFront
  rw [hhead]
  dsimp only
  rw [hnode]
  have hold : ∀ q ∈ xs.map Prod.fst, setNode l.nodes p none q = l.nodes q :=
    fun q hq => setNode_of_ne _ _ (ne_of_mem_of_not_mem hq hp)
  exact ⟨⟨setNode l.nodes p none, next, l.fresh⟩, rfl, hxs.congr hold, hnodup,
    fun q hq => h.lt_fresh q (List.mem_cons_of_mem _ hq)⟩

end Holds

end ForwardList

end Fred
