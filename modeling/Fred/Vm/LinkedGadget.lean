/-
# Fred.Vm.LinkedGadget -- the gadget with its list and its counters

The class `SpeculativeExecGadget` as it is stored: a singly linked list, an iterator to the last node of
it, and two `uint64_t` counters, which wrap. `height_map.end()` is the null iterator, so that `empty()`
is a test of the cached iterator and not of the list.

`Vm/SpeculativeExecGadget` is what this file is as long as no counter wraps (`Represents`). Here nothing
is assumed: the calls may come in any order with any heights, and a call that would follow an iterator
to a node that is gone is undefined (`Exn.nullPointer`), which no call is.
-/
import Fred.Vm.SpeculativeExecGadget
import Fred.Lib.ForwardList
import Fred.Lib.Transition
import Mathlib.Algebra.Group.Nat.Defs
import Mathlib.Data.List.Induction

namespace Fred.Hotstuff

open Fred.Transition

structure LinkedGadget (I : Type) where
  heightMap : ForwardList (UInt64 × I)
  lastEltIter : Option Addr
  speculationHead : UInt64
  highestCommittedHeight : UInt64

namespace LinkedGadget

variable {I : Type} (g : LinkedGadget I)

/-! ## The code -/

/-- The constructor. -/
def make : LinkedGadget I := ⟨.empty, none, 1, 0⟩

/-- `empty`. -/
def isEmpty : Bool := g.lastEltIter.isNone

def addHeightPair (hotstuffHeight : UInt64) (vmValue : I) : Except Exn (LinkedGadget I) :=
  if g.speculationHead ≠ hotstuffHeight then .ok g  -- with a warning
  else
    -- `before_begin()` where the list is empty by its iterator
    match g.heightMap.insertAfter g.lastEltIter (hotstuffHeight, vmValue) with
    | none => .error .nullPointer
    | some (it, heightMap) =>
      .ok { g with
        heightMap := heightMap
        lastEltIter := some it
        speculationHead := g.speculationHead + 1 }

/-- `on_commit_hotstuff`: what it returns or throws, and the gadget after it. -/
def onCommitHotstuff (hotstuffHeight : UInt64) : Except Exn I × LinkedGadget I :=
  if g.isEmpty then
    (.error (.runtimeError s!"committing on empty map at hs height {hotstuffHeight.toNat}"), g)
  else
    match g.heightMap.front with
    | none => (.error .nullPointer, g)
    | some front =>
      if hotstuffHeight ≠ front.1 then (.error (.runtimeError "gap in commit log!"), g)
      else
        match g.heightMap.popFront with
        | none => (.error .nullPointer, g)
        | some (it, heightMap) =>
          (.ok front.2, { g with
            heightMap := heightMap
            highestCommittedHeight := front.1
            lastEltIter := if it.isNone then none else g.lastEltIter })

def clear : LinkedGadget I :=
  { g with
    heightMap := g.heightMap.clear
    lastEltIter := none
    speculationHead := g.highestCommittedHeight + 1 }

def initFromDisk (highestDecidedHeight : UInt64) : LinkedGadget I :=
  clear { g with highestCommittedHeight := highestDecidedHeight }

/-- The heights and values in the list, first node first. -/
def entries : List (UInt64 × I) := g.heightMap.values

/-! ## Any sequence of calls -/

end LinkedGadget

inductive GadgetCall (I : Type) where
  | addHeightPair (hotstuffHeight : UInt64) (vmValue : I)
  | onCommitHotstuff (hotstuffHeight : UInt64)
  | clear
  | initFromDisk (highestDecidedHeight : UInt64)

/-- A gadget, and the pairs it has taken so far. -/
structure GadgetRun (I : Type) where
  gadget : LinkedGadget I
  added : List (UInt64 × I)

namespace GadgetRun

variable {I : Type}

def start : GadgetRun I := ⟨.make, []⟩

/-- A call. An exception is caught by the caller, who may go on; undefined behaviour is not. -/
def step : GadgetCall I → GadgetRun I → Except Exn (GadgetRun I)
  | .addHeightPair height value, s =>
    match s.gadget.addHeightPair height value with
    | .error e => .error e
    | .ok g =>
      .ok ⟨g, if s.gadget.speculationHead = height then s.added ++ [(height, value)] else s.added⟩
  | .onCommitHotstuff height, s =>
    match s.gadget.onCommitHotstuff height with
    | (.error .nullPointer, _) => .error .nullPointer
    | (_, g) => .ok { s with gadget := g }
  | .clear, s => .ok { s with gadget := s.gadget.clear }
  | .initFromDisk height, s => .ok { s with gadget := s.gadget.initFromDisk height }

end GadgetRun

namespace LinkedGadget

variable {I : Type} {g g' : LinkedGadget I}

/-! ## The queue -/

/-- The heights from `low` on, as the counters of the code go. -/
def heightsFrom (low : UInt64) (n : ℕ) : List UInt64 :=
  (List.range n).map fun i => low + UInt64.ofNat i

theorem heightsFrom_succ (low : UInt64) (n : ℕ) :
    heightsFrom low (n + 1) = low :: heightsFrom (low + 1) n := by
  unfold heightsFrom
  rw [List.range_succ_eq_map, List.map_cons, List.map_map]
  congr 1
  · simp
  · apply List.map_congr_left
    intro i _
    simp only [Function.comp_apply, Nat.succ_eq_add_one, UInt64.ofNat_add]
    rw [UInt64.add_comm (UInt64.ofNat i), ← UInt64.add_assoc]
    rfl

theorem heightsFrom_concat (low : UInt64) (n : ℕ) :
    heightsFrom low (n + 1) = heightsFrom low n ++ [low + UInt64.ofNat n] := by
  unfold heightsFrom
  rw [List.range_succ, List.map_append]
  rfl

/-- Where the counters do not wrap, these are consecutive numbers. -/
theorem toNat_heightsFrom {low : UInt64} {n : ℕ} (h : low.toNat + n ≤ 2 ^ 64) :
    (heightsFrom low n).map UInt64.toNat = List.range' low.toNat n := by
  rw [heightsFrom, List.map_map, List.range'_eq_map_range]
  apply List.map_congr_left
  intro i hi
  have := List.mem_range.mp hi
  simp only [Function.comp_apply, UInt64.toNat_add, UInt64.toNat_ofNat']
  omega

/-- **A queue of consecutive heights**: one entry for each height above the committed one and below the
head, in order; the iterator points at the last node, or nowhere if there is none. -/
structure IsQueue (g : LinkedGadget I) : Prop where
  heights_eq : g.entries.map Prod.fst =
    heightsFrom (g.highestCommittedHeight + 1) g.entries.length
  head_eq : g.speculationHead = g.highestCommittedHeight + 1 + UInt64.ofNat g.entries.length
  last_eq : g.lastEltIter = g.heightMap.entries.getLast?.map Prod.fst

/-- The nodes of the list, and what the counters and the iterator say of them. -/
structure Linked (g : LinkedGadget I) (xs : List (Addr × UInt64 × I)) : Prop where
  holds : g.heightMap.Holds xs
  heights_eq : xs.map (·.2.1) = heightsFrom (g.highestCommittedHeight + 1) xs.length
  head_eq : g.speculationHead = g.highestCommittedHeight + 1 + UInt64.ofNat xs.length
  last_eq : g.lastEltIter = xs.getLast?.map Prod.fst

namespace Linked

variable {xs : List (Addr × UInt64 × I)}

theorem entries_eq (L : Linked g xs) : g.entries = xs.map Prod.snd := by
  unfold entries ForwardList.values
  rw [L.holds.entries_eq]

theorem isQueue (L : Linked g xs) : IsQueue g where
  heights_eq := by
    rw [L.entries_eq, List.map_map, List.length_map]
    exact L.heights_eq
  head_eq := by
    rw [L.entries_eq, List.length_map]
    exact L.head_eq
  last_eq := by
    rw [L.holds.entries_eq]
    exact L.last_eq

theorem isEmpty_eq (L : Linked g xs) : g.isEmpty = xs.isEmpty := by
  unfold isEmpty
  rw [L.last_eq]
  cases xs using List.reverseRecOn with
  | nil => rfl
  | append_singleton xs x => simp

theorem make : Linked (.make : LinkedGadget I) [] := ⟨.empty, rfl, rfl, rfl⟩

theorem clear (g : LinkedGadget I) : Linked g.clear [] where
  holds := .clear g.heightMap
  heights_eq := rfl
  head_eq := (UInt64.add_zero _).symm
  last_eq := rfl

/-- **An entry at the head is taken**: behind the last node, or as the first one. -/
theorem addHeightPair (L : Linked g xs) (value : I) : ∃ p g',
    g.addHeightPair g.speculationHead value = .ok g' ∧
      Linked g' (xs ++ [(p, g.speculationHead, value)]) ∧
      g'.highestCommittedHeight = g.highestCommittedHeight := by
  -- where the iterator points decides between an insertion in front and one behind the last node
  have hinsert : ∃ heightMap, g.heightMap.insertAfter g.lastEltIter (g.speculationHead, value) =
      some (g.heightMap.fresh, heightMap) ∧
      heightMap.Holds (xs ++ [(g.heightMap.fresh, g.speculationHead, value)]) := by
    rw [L.last_eq]
    cases xs using List.reverseRecOn with
    | nil => exact L.holds.insertAfter_none _
    | append_singleton xs x =>
        rw [List.getLast?_concat, List.append_assoc]
        exact L.holds.insertAfter_some _
  obtain ⟨heightMap, hinsert, hholds⟩ := hinsert
  refine ⟨g.heightMap.fresh, { g with
    heightMap := heightMap
    lastEltIter := some g.heightMap.fresh
    speculationHead := g.speculationHead + 1 }, ?_, ⟨hholds, ?_, ?_, ?_⟩, rfl⟩
  · unfold LinkedGadget.addHeightPair
    rw [if_neg (not_not_intro rfl), hinsert]
  · rw [List.map_append, L.heights_eq, List.length_append, List.length_singleton,
      heightsFrom_concat, ← L.head_eq]
    rfl
  · dsimp only
    rw [L.head_eq, List.length_append, List.length_singleton, UInt64.ofNat_add, UInt64.add_assoc]
    rfl
  · rw [List.getLast?_concat]
    rfl

theorem onCommitHotstuff_nil (L : Linked g []) (height : UInt64) : ∃ what,
    g.onCommitHotstuff height = (.error (.runtimeError what), g) := by
  unfold LinkedGadget.onCommitHotstuff
  rw [L.isEmpty_eq]
  exact ⟨_, rfl⟩

theorem onCommitHotstuff_of_ne {e : Addr × UInt64 × I} (L : Linked g (e :: xs)) {height : UInt64}
    (hne : height ≠ e.2.1) :
    g.onCommitHotstuff height = (.error (.runtimeError "gap in commit log!"), g) := by
  unfold LinkedGadget.onCommitHotstuff
  rw [L.isEmpty_eq, L.holds.front_eq]
  dsimp only [List.isEmpty_cons, List.head?_cons, Option.map_some]
  rw [if_neg Bool.false_ne_true, if_pos hne]

/-- **The lowest entry leaves**; the iterator stays, unless it pointed there. -/
theorem onCommitHotstuff_cons {e : Addr × UInt64 × I} (L : Linked g (e :: xs)) : ∃ g',
    g.onCommitHotstuff e.2.1 = (.ok e.2.2, g') ∧ Linked g' xs ∧
      g'.highestCommittedHeight = e.2.1 := by
  obtain ⟨heightMap, hpop, hholds⟩ := L.holds.popFront_cons
  have hheights := L.heights_eq
  rw [List.map_cons, List.length_cons, heightsFrom_succ, List.cons.injEq] at hheights
  obtain ⟨hlow, hrest⟩ := hheights
  refine ⟨{ g with
    heightMap := heightMap
    highestCommittedHeight := e.2.1
    lastEltIter := if heightMap.head.isNone then none else g.lastEltIter },
    ?_, ⟨hholds, ?_, ?_, ?_⟩, rfl⟩
  · unfold LinkedGadget.onCommitHotstuff
    rw [L.isEmpty_eq, L.holds.front_eq]
    dsimp only [List.isEmpty_cons, List.head?_cons, Option.map_some]
    rw [if_neg Bool.false_ne_true, if_neg (not_not_intro rfl), hpop]
  · rw [hrest, hlow]
  · dsimp only
    rw [L.head_eq, hlow, List.length_cons, UInt64.ofNat_add, UInt64.add_comm (UInt64.ofNat xs.length),
      ← UInt64.add_assoc]
    rfl
  · have hnone : heightMap.head.isNone = true ↔ xs = [] :=
      Option.isNone_iff_eq_none.trans hholds.head_eq_none_iff
    dsimp only
    by_cases hxs : xs = []
    · rw [if_pos (hnone.mpr hxs), hxs]
      rfl
    · -- the list goes on behind the removed node, with the same last node
      rw [if_neg (mt hnone.mp hxs), L.last_eq, List.getLast?_cons_of_ne_nil hxs]

end Linked

variable (g)

/-- `on_commit_hotstuff` takes the lowest entry, and throws on any other height without a change. -/
def CommitsLowest : Prop := ∀ height,
  (∀ value rest, g.entries = (height, value) :: rest →
    ∃ g', g.onCommitHotstuff height = (.ok value, g') ∧ g'.entries = rest) ∧
  ((∀ value rest, g.entries ≠ (height, value) :: rest) →
    ∃ what, g.onCommitHotstuff height = (.error (.runtimeError what), g))

/-- `add_height_pair` appends at the head and ignores any other height. -/
def TakesAtHead : Prop := ∀ height value, ∃ g', g.addHeightPair height value = .ok g' ∧
  g'.entries = if height = g.speculationHead then g.entries ++ [(height, value)] else g.entries

/-- After `clear`, the height above the committed one is taken and no other. -/
def RestartsAboveCommitted : Prop := ∀ height value, ∃ g',
  g.clear.addHeightPair height value = .ok g' ∧
    g'.entries = if height = g.highestCommittedHeight + 1 then [(height, value)] else []

variable {g} {xs : List (Addr × UInt64 × I)}

theorem Linked.takesAtHead (L : Linked g xs) : g.TakesAtHead := by
  intro height value
  by_cases hhead : height = g.speculationHead
  · subst hhead
    obtain ⟨p, g', hadd, L', -⟩ := L.addHeightPair value
    refine ⟨g', hadd, ?_⟩
    rw [if_pos rfl, L'.entries_eq, L.entries_eq, List.map_append]
    rfl
  · refine ⟨g, if_pos (Ne.symm hhead), ?_⟩
    rw [if_neg hhead]

theorem Linked.commitsLowest (L : Linked g xs) : g.CommitsLowest := by
  intro height
  rw [L.entries_eq]
  cases xs with
  | nil =>
      refine ⟨fun _ _ h => absurd h (by simp), fun _ => ?_⟩
      exact L.onCommitHotstuff_nil height
  | cons e xs =>
      rw [List.map_cons]
      refine ⟨fun value rest h => ?_, fun h => ?_⟩
      · obtain ⟨he, rfl⟩ := List.cons.inj h
        obtain ⟨g', hcommit, L', -⟩ := L.onCommitHotstuff_cons
        rw [he] at hcommit
        exact ⟨g', hcommit, L'.entries_eq⟩
      · have hne : height ≠ e.2.1 := by
          rintro rfl
          exact h e.2.2 (xs.map Prod.snd) rfl
        exact ⟨_, L.onCommitHotstuff_of_ne hne⟩

theorem restartsAboveCommitted (g : LinkedGadget I) : g.RestartsAboveCommitted := by
  intro height value
  obtain ⟨g', hadd, hentries⟩ := (Linked.clear g).takesAtHead height value
  refine ⟨g', hadd, hentries.trans ?_⟩
  rw [(Linked.clear g).entries_eq]
  rfl

/-- Where the head does not wrap, the heights are the numbers between the two counters. -/
theorem IsQueue.heights_eq_range (Q : g.IsQueue)
    (h : g.highestCommittedHeight.toNat + 1 + g.entries.length < 2 ^ 64) :
    (g.entries.map fun e => e.1.toNat) = List.range' (g.highestCommittedHeight.toNat + 1)
      (g.speculationHead.toNat - (g.highestCommittedHeight.toNat + 1)) := by
  have hlow : (g.highestCommittedHeight + 1).toNat = g.highestCommittedHeight.toNat + 1 := by
    rw [UInt64.toNat_add, UInt64.toNat_one]
    exact Nat.mod_eq_of_lt (by omega)
  have hhead : g.speculationHead.toNat =
      g.highestCommittedHeight.toNat + 1 + g.entries.length := by
    rw [Q.head_eq, UInt64.toNat_add, hlow, UInt64.toNat_ofNat']
    omega
  have hheights := congrArg (List.map UInt64.toNat) Q.heights_eq
  rw [List.map_map, toNat_heightsFrom (by omega), hlow] at hheights
  rw [hhead, Nat.add_sub_cancel_left]
  exact hheights

/-! ## What the gadget stands for -/

theorem speculationHead_onCommitHotstuff (g : LinkedGadget I) (height : UInt64) :
    (g.onCommitHotstuff height).2.speculationHead = g.speculationHead := by
  unfold onCommitHotstuff
  split
  · rfl
  · split
    · rfl
    · split
      · rfl
      · split <;> rfl

/-- The gadget of `Vm/SpeculativeExecGadget` with the same entries and counters. -/
structure Represents (g : LinkedGadget I) (a : SpeculativeExecGadget I) : Prop where
  linked : ∃ xs, g.Linked xs
  heightMap_eq : a.heightMap = g.entries.map fun e => (e.1.toNat, e.2)
  head_eq : a.speculationHead = g.speculationHead.toNat
  committed_eq : a.highestCommittedHeight = g.highestCommittedHeight.toNat

namespace Represents

variable {a : SpeculativeExecGadget I}

theorem make : (LinkedGadget.make : LinkedGadget I).Represents .make :=
  ⟨⟨[], .make⟩, rfl, rfl, rfl⟩

theorem addHeightPair (R : g.Represents a) (height : UInt64) (value : I)
    (hwrap : g.speculationHead.toNat + 1 < 2 ^ 64) : ∃ g',
    g.addHeightPair height value = .ok g' ∧ g'.Represents (a.addHeightPair height.toNat value) := by
  obtain ⟨xs, L⟩ := R.linked
  by_cases hhead : g.speculationHead = height
  · subst hhead
    obtain ⟨p, g', hadd, L', hcommitted⟩ := L.addHeightPair value
    have hsucc : g'.speculationHead.toNat = g.speculationHead.toNat + 1 := by
      rw [L'.head_eq, hcommitted, List.length_append, List.length_singleton, UInt64.ofNat_add,
        ← UInt64.add_assoc, ← L.head_eq, UInt64.toNat_add]
      exact Nat.mod_eq_of_lt hwrap
    refine ⟨g', hadd, ⟨_, L'⟩, ?_, ?_, ?_⟩
    · rw [a.heightMap_addHeightPair, if_pos R.head_eq, R.heightMap_eq, L'.entries_eq, L.entries_eq,
        List.map_append, List.map_append]
      rfl
    · rw [hsucc, SpeculativeExecGadget.head_eq, a.highestCommittedHeight_addHeightPair,
        a.heightMap_addHeightPair, if_pos R.head_eq, List.length_append, List.length_singleton,
        ← Nat.add_assoc, ← a.head_eq, R.head_eq]
    · rw [a.highestCommittedHeight_addHeightPair, hcommitted, R.committed_eq]
  · -- both drop an entry that is not at the head
    have hdrop : a.addHeightPair height.toNat value = a := by
      unfold SpeculativeExecGadget.addHeightPair
      rw [dif_pos]
      rw [R.head_eq]
      exact fun heq => hhead (UInt64.toNat_inj.mp heq)
    rw [hdrop]
    exact ⟨g, if_pos hhead, R⟩

theorem onCommitHotstuff (R : g.Represents a) (height : UInt64) :
    match a.onCommitHotstuff height.toNat with
    | .ok (value, a') => ∃ g', g.onCommitHotstuff height = (.ok value, g') ∧ g'.Represents a'
    | .error what => g.onCommitHotstuff height = (.error (.runtimeError what), g) := by
  obtain ⟨xs, L⟩ := R.linked
  have hmap := R.heightMap_eq
  rw [L.entries_eq] at hmap
  cases xs with
  | nil =>
      have hempty : a.onCommitHotstuff height.toNat =
          .error s!"committing on empty map at hs height {height.toNat}" := by
        unfold SpeculativeExecGadget.onCommitHotstuff
        split
        · rfl
        · rename_i hcons
          cases hcons.symm.trans hmap
      rw [hempty]
      dsimp only
      unfold LinkedGadget.onCommitHotstuff
      rw [L.isEmpty_eq]
      rfl
  | cons e xs =>
      rw [List.map_cons, List.map_cons] at hmap
      have hfront := a.front_height hmap
      dsimp only at hfront
      by_cases hheight : height = e.2.1
      · subst hheight
        obtain ⟨a', hcommit, hrest, hcommitted⟩ := a.onCommitHotstuff_cons hmap
        rw [hfront, hcommit]
        dsimp only
        obtain ⟨g', hlinked, L', hlow⟩ := L.onCommitHotstuff_cons
        refine ⟨g', hlinked, ⟨xs, L'⟩, ?_, ?_, ?_⟩
        · rw [hrest, L'.entries_eq]
        · have hpopped := g.speculationHead_onCommitHotstuff e.2.1
          rw [hlinked] at hpopped
          have hlen : a'.heightMap.length = xs.length := by rw [hrest, List.length_map, List.length_map]
          have hlen₁ : a.heightMap.length = xs.length + 1 := by
            rw [hmap, List.length_cons, List.length_map, List.length_map]
          rw [hpopped, ← R.head_eq, a'.head_eq, a.head_eq, hcommitted, hlen, hlen₁]
          omega
        · rw [hcommitted, hlow, hfront]
      · -- the lowest entry has another height, here and there
        have hgap : a.onCommitHotstuff height.toNat = .error "gap in commit log!" := by
          unfold SpeculativeExecGadget.onCommitHotstuff
          split
          · rename_i hnil
            cases hnil.symm.trans hmap
          · rename_i front rest hcons
            obtain ⟨rfl, -⟩ := List.cons.inj (hcons.symm.trans hmap)
            rw [if_pos fun heq => hheight (UInt64.toNat_inj.mp heq)]
        rw [hgap]
        exact L.onCommitHotstuff_of_ne hheight

theorem clear (R : g.Represents a) (hwrap : g.highestCommittedHeight.toNat + 1 < 2 ^ 64) :
    g.clear.Represents a.clear where
  linked := ⟨[], .clear g⟩
  heightMap_eq := by
    rw [(Linked.clear g).entries_eq]
    rfl
  head_eq := by
    show a.highestCommittedHeight + 1 = (g.highestCommittedHeight + 1).toNat
    rw [R.committed_eq, UInt64.toNat_add, UInt64.toNat_one]
    exact (Nat.mod_eq_of_lt hwrap).symm
  committed_eq := R.committed_eq

theorem initFromDisk (g : LinkedGadget I) {height : UInt64} (hwrap : height.toNat + 1 < 2 ^ 64) :
    (g.initFromDisk height).Represents (.initFromDisk height.toNat) where
  linked := ⟨[], .clear _⟩
  heightMap_eq := by
    unfold LinkedGadget.initFromDisk
    rw [(Linked.clear _).entries_eq]
    rfl
  head_eq := by
    show height.toNat + 1 = (height + 1).toNat
    rw [UInt64.toNat_add, UInt64.toNat_one]
    exact (Nat.mod_eq_of_lt hwrap).symm
  committed_eq := rfl

end Represents

end LinkedGadget

namespace GadgetRun

variable {I : Type} {s s' : GadgetRun I}

/-- The gadget is a queue of pairs it has taken last. -/
def Queued (s : GadgetRun I) : Prop :=
  ∃ xs, s.gadget.Linked xs ∧ xs.map Prod.snd <:+ s.added

/-- **Step lemma.** Every call has defined behaviour and keeps the queue. -/
theorem Queued.step (Q : Queued s) (c : GadgetCall I) :
    ∃ s', GadgetRun.step c s = .ok s' ∧ Queued s' := by
  obtain ⟨xs, L, hadded⟩ := Q
  cases c with
  | addHeightPair height value =>
      unfold GadgetRun.step
      dsimp only
      by_cases hhead : s.gadget.speculationHead = height
      · subst hhead
        obtain ⟨p, g', hadd, L', -⟩ := L.addHeightPair value
        rw [hadd]
        dsimp only
        rw [if_pos rfl]
        refine ⟨_, rfl, _, L', ?_⟩
        rw [List.map_append]
        exact (List.suffix_append_inj_of_length_eq rfl).mpr ⟨hadded, rfl⟩
      · have hdrop : s.gadget.addHeightPair height value = .ok s.gadget := if_pos hhead
        rw [hdrop]
        dsimp only
        rw [if_neg hhead]
        exact ⟨_, rfl, xs, L, hadded⟩
  | onCommitHotstuff height =>
      unfold GadgetRun.step
      dsimp only
      cases xs with
      | nil =>
          obtain ⟨what, hcommit⟩ := L.onCommitHotstuff_nil height
          rw [hcommit]
          exact ⟨_, rfl, [], L, hadded⟩
      | cons e xs =>
          by_cases hheight : height = e.2.1
          · subst hheight
            obtain ⟨g', hcommit, L', -⟩ := L.onCommitHotstuff_cons
            rw [hcommit]
            exact ⟨_, rfl, xs, L', (List.suffix_cons _ _).trans hadded⟩
          · rw [L.onCommitHotstuff_of_ne hheight]
            exact ⟨_, rfl, e :: xs, L, hadded⟩
  | clear => exact ⟨_, rfl, [], .clear _, List.nil_suffix⟩
  | initFromDisk height => exact ⟨_, rfl, [], .clear _, List.nil_suffix⟩

/-- **Run lemma.** -/
theorem queued_of_reach (h : Reach GadgetRun.step anyInput start s) : Queued s := by
  refine h.invariant ⟨[], .make, List.nil_suffix⟩ ?_
  intro t u c Q _ hstep
  obtain ⟨u', hu', Q'⟩ := Q.step c
  obtain rfl := Except.ok.inj (hu'.symm.trans hstep)
  exact Q'

/-- **The speculation gadget is a queue of consecutive heights.** After any sequence of calls with any
arguments, the list has one entry for each height between the two counters, in order, and they are the
pairs taken last; the iterator points at the last node, or nowhere if there is none; a commit takes the
lowest entry and throws without a change at any other height; after `clear`, the height above the
committed one is taken next; and no call follows an iterator to a node that is gone. -/
theorem gadget_is_queue (h : Reach GadgetRun.step anyInput start s) :
    s.gadget.IsQueue ∧ s.gadget.entries <:+ s.added ∧
    (s.gadget.highestCommittedHeight.toNat + 1 + s.gadget.entries.length < 2 ^ 64 →
      (s.gadget.entries.map fun e => e.1.toNat) =
        List.range' (s.gadget.highestCommittedHeight.toNat + 1)
          (s.gadget.speculationHead.toNat - (s.gadget.highestCommittedHeight.toNat + 1))) ∧
    s.gadget.CommitsLowest ∧ s.gadget.TakesAtHead ∧ s.gadget.RestartsAboveCommitted ∧
    ∀ c, ∃ s', GadgetRun.step c s = .ok s' := by
  have Q := queued_of_reach h
  obtain ⟨xs, L, hadded⟩ := Q
  refine ⟨L.isQueue, ?_, L.isQueue.heights_eq_range, L.commitsLowest, L.takesAtHead,
    s.gadget.restartsAboveCommitted, fun c => ?_⟩
  · rw [L.entries_eq]
    exact hadded
  · obtain ⟨s', hs', -⟩ := Queued.step ⟨xs, L, hadded⟩ c
    exact ⟨s', hs'⟩

/-- Two entries, a commit, a clear, an entry that is dropped and one that is taken. -/
theorem gadget_is_queue_revert : ∃ s : GadgetRun ℕ, s.gadget.entries = [(2, 102)] ∧
    s.gadget.IsQueue ∧ s.added = [(1, 100), (2, 101), (2, 102)] := by
  have hrun : (runListIf GadgetRun.step (fun _ _ => true)
      [.addHeightPair 1 100, .addHeightPair 2 101, .onCommitHotstuff 1, .clear,
        .addHeightPair 3 103, .addHeightPair 2 102] (start : GadgetRun ℕ)).map
      (fun s => (s.gadget.entries, s.added)) =
        some ([(2, 102)], [(1, 100), (2, 101), (2, 102)]) := by
    decide +kernel
  obtain ⟨s, hs, heq⟩ := Option.map_eq_some_iff.mp hrun
  obtain ⟨hentries, hadded⟩ := Prod.mk.inj heq
  have hreach : Reach GadgetRun.step anyInput start s :=
    Reach.of_runListIf (fun _ _ _ => trivial) hs
  exact ⟨s, hentries, (gadget_is_queue hreach).1, hadded⟩

end GadgetRun

end Fred.Hotstuff
