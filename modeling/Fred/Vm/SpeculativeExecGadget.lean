/-
# Fred.Vm.SpeculativeExecGadget -- the record of speculated heights

`speculative_exec_gadget.h`: which block identifiers were speculated at which heights above the last
committed one. The gadget takes an entry at its head only, so the heights of the entries run without
gap from the committed height up to the head; the type carries that. Heights are unbounded here, a
`uint64_t` in the code.
-/
import Fred.Hotstuff.Types
import Mathlib.Data.List.Basic

namespace Fred.Hotstuff

structure SpeculativeExecGadget (I : Type) where
  /-- Height and identifier of what is speculated, lowest height first. -/
  heightMap : List (ℕ × I)
  speculationHead : ℕ
  highestCommittedHeight : ℕ
  heights_eq : heightMap.map Prod.fst = List.range' (highestCommittedHeight + 1) heightMap.length
  head_eq : speculationHead = highestCommittedHeight + 1 + heightMap.length

namespace SpeculativeExecGadget

variable {I : Type} (g : SpeculativeExecGadget I)

/-- The constructor. -/
def make : SpeculativeExecGadget I := ⟨[], 1, 0, rfl, rfl⟩

/-- `clear`: the committed height stays. -/
def clear : SpeculativeExecGadget I :=
  ⟨[], g.highestCommittedHeight + 1, g.highestCommittedHeight, rfl, rfl⟩

/-- `init_from_disk`: the committed height is set, then the gadget is cleared. -/
def initFromDisk (highestDecidedHeight : ℕ) : SpeculativeExecGadget I :=
  ⟨[], highestDecidedHeight + 1, highestDecidedHeight, rfl, rfl⟩

/-- `add_height_pair`: an entry at another height than the head is dropped with a warning. -/
def addHeightPair (hotstuffHeight : ℕ) (vmValue : I) : SpeculativeExecGadget I :=
  if h : g.speculationHead ≠ hotstuffHeight then g
  else
    { g with
      heightMap := g.heightMap ++ [(hotstuffHeight, vmValue)]
      speculationHead := g.speculationHead + 1
      heights_eq := by
        rw [List.map_append, g.heights_eq, List.length_append, List.length_singleton,
          List.range'_concat, ← Decidable.not_not.mp h, g.head_eq, Nat.one_mul]
        rfl
      head_eq := by
        rw [List.length_append, g.head_eq]
        rfl }

/-- `on_commit_hotstuff`: the lowest entry leaves, and its identifier is returned. -/
def onCommitHotstuff (hotstuffHeight : ℕ) : Except String (I × SpeculativeExecGadget I) :=
  match hmap : g.heightMap with
  | [] => .error s!"committing on empty map at hs height {hotstuffHeight}"
  | front :: rest =>
    if hotstuffHeight ≠ front.1 then .error "gap in commit log!"
    else
      have hheights := g.heights_eq
      have hcons : front.1 = g.highestCommittedHeight + 1 ∧
          rest.map Prod.fst = List.range' (g.highestCommittedHeight + 1 + 1) rest.length := by
        rwa [hmap, List.map_cons, List.length_cons, List.range'_succ, List.cons.injEq] at hheights
      .ok (front.2, { g with
        heightMap := rest
        highestCommittedHeight := front.1
        heights_eq := by rw [hcons.1, hcons.2]
        head_eq := by rw [g.head_eq, hmap, hcons.1, List.length_cons]; omega })

@[simp] theorem heightMap_clear : g.clear.heightMap = [] := rfl

@[simp] theorem highestCommittedHeight_clear :
    g.clear.highestCommittedHeight = g.highestCommittedHeight := rfl

@[simp] theorem heightMap_initFromDisk (height : ℕ) :
    (initFromDisk height : SpeculativeExecGadget I).heightMap = [] := rfl

@[simp] theorem highestCommittedHeight_initFromDisk (height : ℕ) :
    (initFromDisk height : SpeculativeExecGadget I).highestCommittedHeight = height := rfl

/-- The lowest entry is at the height above the committed one. -/
theorem front_height {front : ℕ × I} {rest : List (ℕ × I)} (h : g.heightMap = front :: rest) :
    front.1 = g.highestCommittedHeight + 1 := by
  have hheights := g.heights_eq
  rw [h, List.map_cons, List.length_cons, List.range'_succ, List.cons.injEq] at hheights
  exact hheights.1

@[simp] theorem highestCommittedHeight_addHeightPair (height : ℕ) (id : I) :
    (g.addHeightPair height id).highestCommittedHeight = g.highestCommittedHeight := by
  unfold addHeightPair
  split <;> rfl

theorem heightMap_addHeightPair (height : ℕ) (id : I) :
    (g.addHeightPair height id).heightMap =
      if g.speculationHead = height then g.heightMap ++ [(height, id)] else g.heightMap := by
  unfold addHeightPair
  by_cases h : g.speculationHead = height
  · rw [dif_neg (not_not_intro h), if_pos h]
  · rw [dif_pos h, if_neg h]

/-- A null entry does not show among the identifiers of blocks, whether or not it is taken. -/
theorem filterMap_addHeightPair_none (g : SpeculativeExecGadget (Option I)) (height : ℕ) :
    (g.addHeightPair height none).heightMap.filterMap Prod.snd = g.heightMap.filterMap Prod.snd := by
  rw [g.heightMap_addHeightPair]
  split
  · rw [List.filterMap_append]
    exact List.append_nil _
  · rfl

/-- On an empty map, the head is the height above the committed one. -/
theorem heightMap_addHeightPair_empty (hempty : g.heightMap = []) (id : I) :
    (g.addHeightPair (g.highestCommittedHeight + 1) id).heightMap =
      [(g.highestCommittedHeight + 1, id)] := by
  have hhead : g.speculationHead = g.highestCommittedHeight + 1 := by
    rw [g.head_eq, hempty]
    rfl
  rw [heightMap_addHeightPair, if_pos hhead, hempty, List.nil_append]

/-- The commit of the height above the committed one takes the lowest entry. -/
theorem onCommitHotstuff_cons {front : ℕ × I} {rest : List (ℕ × I)}
    (h : g.heightMap = front :: rest) :
    ∃ g', g.onCommitHotstuff (g.highestCommittedHeight + 1) = .ok (front.2, g') ∧
      g'.heightMap = rest ∧ g'.highestCommittedHeight = g.highestCommittedHeight + 1 := by
  have hfront := g.front_height h
  unfold onCommitHotstuff
  split
  · rename_i hmap
    rw [hmap] at h
    cases h
  · rename_i front' rest' hmap
    obtain ⟨rfl, rfl⟩ := List.cons.inj (hmap.symm.trans h)
    rw [if_neg (by rw [hfront]; exact not_not_intro rfl)]
    exact ⟨_, rfl, rfl, hfront⟩

theorem onCommitHotstuff_ok {height : ℕ} {id : I} {g' : SpeculativeExecGadget I}
    (h : g.onCommitHotstuff height = .ok (id, g')) :
    g.heightMap = (height, id) :: g'.heightMap ∧ g'.highestCommittedHeight = height := by
  unfold onCommitHotstuff at h
  split at h
  · cases h
  · rename_i front rest hmap
    split at h
    · cases h
    · rename_i hheight
      obtain ⟨rfl, rfl⟩ := Prod.mk.inj (Except.ok.inj h)
      exact ⟨hmap.trans (by rw [Decidable.not_not.mp hheight]), (Decidable.not_not.mp hheight).symm⟩

end SpeculativeExecGadget

end Fred.Hotstuff
