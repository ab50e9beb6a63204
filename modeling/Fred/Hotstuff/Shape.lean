/-
# Fred.Hotstuff.Shape -- the tree of blocks a replica holds

`insert_block` links an object to stored objects and stores it, unless an object of its hash is
stored. `Shape` is what that keeps true of the heap and the cache, whatever blocks are inserted in
whatever order. The parent links form a forest (`Shape.forest`), every linked object hangs off
genesis, and an object's links never change once they are set (`Heap.Extends`).
-/
import Fred.Hotstuff.App

namespace Fred.Hotstuff

open Fred.Forest

/-! ## Links that stay -/

namespace Heap

/-- Genesis, or an object `insert_block` has linked. -/
def Settled (h : Heap) (p : BlockPtr) : Prop := p = genesisPtr ∨ ∃ q, h.parent p = some q

/-- The second heap has more objects and more links; settled objects are where they were. -/
structure Extends (h h' : Heap) : Prop where
  next_le : h.next ≤ h'.next
  core_eq : ∀ p, h.Settled p → h'.core p = h.core p

namespace Extends

variable {h h' h'' : Heap} {p q : BlockPtr}

theorem refl (h : Heap) : Extends h h := ⟨le_rfl, fun _ _ => rfl⟩

theorem parent_eq (H : Extends h h') (hp : h.Settled p) : h'.parent p = h.parent p :=
  congrArg BlockCore.parent (H.core_eq p hp)

theorem justify_eq (H : Extends h h') (hp : h.Settled p) : h'.justify p = h.justify p :=
  congrArg BlockCore.justify (H.core_eq p hp)

theorem height_eq (H : Extends h h') (hp : h.Settled p) : h'.height p = h.height p :=
  congrArg BlockCore.height (H.core_eq p hp)

theorem hash_eq (H : Extends h h') (hp : h.Settled p) : h'.hash p = h.hash p :=
  congrArg BlockCore.hash (H.core_eq p hp)

theorem header_eq (H : Extends h h') (hp : h.Settled p) : h'.header p = h.header p :=
  congrArg BlockCore.header (H.core_eq p hp)

theorem settled (H : Extends h h') (hp : h.Settled p) : h'.Settled p := by
  rcases hp with rfl | ⟨q, hq⟩
  · exact Or.inl rfl
  · exact Or.inr ⟨q, (H.parent_eq (Or.inr ⟨q, hq⟩)).trans hq⟩

theorem trans (H : Extends h h') (H' : Extends h' h'') : Extends h h'' :=
  ⟨H.next_le.trans H'.next_le, fun p hp => (H'.core_eq p (H.settled hp)).trans (H.core_eq p hp)⟩

theorem parent_mono (H : Extends h h') (hq : h.parent p = some q) : h'.parent p = some q :=
  (H.parent_eq (Or.inr ⟨q, hq⟩)).trans hq

theorem descends (H : Extends h h') (hd : Descends h.parent p q) : Descends h'.parent p q :=
  hd.mono fun _ _ => H.parent_mono

end Extends

theorem SameCores.extends {h h' : Heap} (H : SameCores h h') : Extends h h' :=
  ⟨H.next_eq.ge, fun p _ => H.core_eq p⟩

theorem SameCores.settled_iff {h h' : Heap} (H : SameCores h h') {p : BlockPtr} :
    h'.Settled p ↔ h.Settled p := by
  unfold Settled
  rw [H.parent_eq]

end Heap

/-! ## The shape of heap and cache -/

/-- What `insert_block` keeps true of the objects and the cache. -/
structure Shape (C : Crypto) (h : Heap) (cache : Hash → Option BlockPtr) : Prop where
  next_pos : 0 < h.next
  genesis_core : h.core genesisPtr = HotstuffBlock.genesisBlock.core
  fresh : ∀ p, h.next ≤ p → h.core p = HotstuffBlock.genesisBlock.core
  hash_eq : ∀ p, p ≠ genesisPtr → p < h.next → h.hash p = C.hashHeader (h.header p)
  parsedQc_eq : ∀ p, p ≠ genesisPtr → p < h.next →
    (h.core p).parsedQc = some (.ofWire (h.header p).qc)
  unlinked : ∀ p, h.parent p = none → h.justify p = none ∧ h.height p = 0
  parent_cached : ∀ {p q}, h.parent p = some q → cache (h.header p).parentHash = some q
  justify_cached : ∀ {p q}, h.parent p = some q →
    ∃ j, h.justify p = some j ∧ cache (h.header p).qc.justify = some j
  height_parent : ∀ {p q}, h.parent p = some q → h.height p = h.height q + 1
  linked_cached : ∀ {p q}, h.parent p = some q → ∃ r, cache (h.hash p) = some r
  cache_genesis : cache 0#256 = some genesisPtr
  cached : ∀ {x p}, cache x = some p → h.hash p = x ∧ h.Settled p
  justify_not_below : ∀ {p j}, h.justify p = some j → ¬ Descends h.parent j p

namespace Shape

variable {C : Crypto} {h h' : Heap} {cache : Hash → Option BlockPtr} {p q j : BlockPtr}

/-- The shape depends on the cores only. -/
theorem congr (S : Shape C h cache) (H : Heap.SameCores h h') : Shape C h' cache where
  next_pos := by rw [H.next_eq]; exact S.next_pos
  genesis_core := (H.core_eq _).trans S.genesis_core
  fresh := fun p hp => (H.core_eq p).trans (S.fresh p (H.next_eq ▸ hp))
  hash_eq := by rw [H.next_eq, H.hash_eq, H.header_eq]; exact S.hash_eq
  parsedQc_eq := by
    rw [H.next_eq, H.header_eq]
    intro p hp hn
    rw [H.core_eq]
    exact S.parsedQc_eq p hp hn
  unlinked := by rw [H.parent_eq, H.justify_eq, H.height_eq]; exact S.unlinked
  parent_cached := by rw [H.parent_eq, H.header_eq]; exact S.parent_cached
  justify_cached := by rw [H.parent_eq, H.justify_eq, H.header_eq]; exact S.justify_cached
  height_parent := by rw [H.parent_eq, H.height_eq]; exact S.height_parent
  linked_cached := by rw [H.parent_eq, H.hash_eq]; exact S.linked_cached
  cache_genesis := S.cache_genesis
  cached := by
    intro x p hp
    rw [H.hash_eq, H.settled_iff]
    exact S.cached hp
  justify_not_below := by rw [H.justify_eq, H.parent_eq]; exact S.justify_not_below

section
variable (S : Shape C h cache)
include S

theorem forest : IsForest h.parent h.height where
  height_parent := S.height_parent
  height_root := fun hp => (S.unlinked _ hp).2

theorem parent_genesis : h.parent genesisPtr = none :=
  congrArg BlockCore.parent S.genesis_core

theorem hash_genesis : h.hash genesisPtr = 0#256 := congrArg BlockCore.hash S.genesis_core

theorem height_genesis : h.height genesisPtr = 0 := congrArg BlockCore.height S.genesis_core

theorem ne_genesis_of_parent (hq : h.parent p = some q) : p ≠ genesisPtr := by
  rintro rfl
  rw [S.parent_genesis] at hq
  cases hq

theorem lt_next_of_parent (hq : h.parent p = some q) : p < h.next := by
  by_contra hn
  have hcore := congrArg BlockCore.parent (S.fresh p (Nat.not_lt.mp hn))
  have hnone : h.parent p = none := hcore
  rw [hnone] at hq
  cases hq

theorem lt_next_of_settled (hp : h.Settled p) : p < h.next := by
  rcases hp with rfl | ⟨q, hq⟩
  · exact S.next_pos
  · exact S.lt_next_of_parent hq

theorem settled_parent (hq : h.parent p = some q) : h.Settled q := (S.cached (S.parent_cached hq)).2

theorem parent_of_justify (hj : h.justify p = some j) : ∃ q, h.parent p = some q := by
  rcases hp : h.parent p with _ | q
  · rw [(S.unlinked p hp).1] at hj
    cases hj
  · exact ⟨q, rfl⟩

theorem cache_justify (hj : h.justify p = some j) : cache (h.header p).qc.justify = some j := by
  obtain ⟨q, hq⟩ := S.parent_of_justify hj
  obtain ⟨j', hj', hc⟩ := S.justify_cached hq
  rw [hj] at hj'
  rw [hc, ← hj']

theorem settled_of_justify (hj : h.justify p = some j) : h.Settled p :=
  Or.inr (S.parent_of_justify hj)

theorem settled_justify (hj : h.justify p = some j) : h.Settled j := (S.cached (S.cache_justify hj)).2

theorem hash_justify (hj : h.justify p = some j) : h.hash j = (h.header p).qc.justify :=
  (S.cached (S.cache_justify hj)).1

theorem hash_parent (hq : h.parent p = some q) : h.hash q = (h.header p).parentHash :=
  (S.cached (S.parent_cached hq)).1

/-- The certificate in a linked object is on the object its justify link points to. -/
theorem objHash_getJustifyQc (hj : h.justify p = some j) :
    (h.get p).getJustifyQc.objHash = h.hash j := by
  obtain ⟨q, hq⟩ := S.parent_of_justify hj
  have hqc : (h.get p).parsedQc = some (.ofWire (h.header p).qc) :=
    S.parsedQc_eq p (S.ne_genesis_of_parent hq) (S.lt_next_of_parent hq)
  unfold HotstuffBlock.getJustifyQc
  rw [hqc, Option.getD_some, QuorumCertificate.objHash_ofWire, S.hash_justify hj]

theorem settled_descends (hp : h.Settled p) (hd : Descends h.parent p q) : h.Settled q := by
  induction hd with
  | refl => exact hp
  | tail _ hstep _ => exact S.settled_parent hstep

theorem height_pos (hp : h.Settled p) (hne : p ≠ genesisPtr) : 0 < h.height p := by
  rcases hp with rfl | ⟨q, hq⟩
  · exact absurd rfl hne
  · rw [S.height_parent hq]
    exact Nat.succ_pos _

theorem settled_of_height_pos (hp : 0 < h.height p) : h.Settled p :=
  Or.inr (S.forest.exists_parent hp)

/-- Every settled object descends from genesis. -/
theorem descends_genesis : h.Settled p → Descends h.parent p genesisPtr := by
  induction p using S.forest.induction with
  | root p hroot =>
      rintro (rfl | ⟨q, hq⟩)
      · exact Descends.refl _
      · rw [hroot] at hq
        cases hq
  | child p q hq ih => exact fun _ => Descends.head hq (ih (S.settled_parent hq))

/-! ### Stored objects -/

omit S in
/-- At most one object is stored under each hash. -/
theorem eq_of_stored (hp : cache (h.hash p) = some p) (hq : cache (h.hash q) = some q)
    (heq : h.hash p = h.hash q) : p = q := by
  rw [heq, hq] at hp
  exact (Option.some.inj hp).symm

theorem stored_of_cache {x : Hash} (hp : cache x = some p) : cache (h.hash p) = some p := by
  rw [(S.cached hp).1]
  exact hp

theorem settled_of_stored (hp : cache (h.hash p) = some p) : h.Settled p := (S.cached hp).2

theorem stored_parent (hq : h.parent p = some q) : cache (h.hash q) = some q :=
  S.stored_of_cache (S.parent_cached hq)

theorem stored_justify (hj : h.justify p = some j) : cache (h.hash j) = some j :=
  S.stored_of_cache (S.cache_justify hj)

/-- Below a stored object everything is stored. -/
theorem stored_descends (hp : cache (h.hash p) = some p) (hd : Descends h.parent p q) :
    cache (h.hash q) = some q := by
  induction hd with
  | refl => exact hp
  | tail _ hstep _ => exact S.stored_parent hstep

end

end Shape

namespace Shape

variable {C : Crypto} {h h' : Heap} {cache cache' : Hash → Option BlockPtr} {p q j : BlockPtr}

/-- Descent below a settled object is the same in a heap with more links. -/
theorem descends_iff (S : Shape C h cache) (H : Heap.Extends h h') (hp : h.Settled p) :
    Descends h'.parent p q ↔ Descends h.parent p q := by
  constructor
  · intro hd
    have key : Descends h.parent p q ∧ h.Settled q := by
      induction hd with
      | refl => exact ⟨Descends.refl _, hp⟩
      | tail _ hstep ih =>
          have hpar := (H.parent_eq ih.2).symm.trans hstep
          exact ⟨ih.1.trans (Descends.single hpar), S.settled_parent hpar⟩
    exact key.1
  · exact H.descends

/-- So is the trunk. -/
theorem trunk_eq (S : Shape C h cache) (S' : Shape C h' cache') (H : Heap.Extends h h') :
    h.Settled p → trunk h'.parent h'.height p = trunk h.parent h.height p := by
  induction p using S.forest.induction with
  | root p hroot =>
      intro hp
      have hroot' := (H.parent_eq hp).trans hroot
      rw [S.forest.trunk_of_root hroot, S'.forest.trunk_of_root hroot']
  | child p q hq ih =>
      intro hp
      rw [S.forest.trunk_of_parent hq, S'.forest.trunk_of_parent (H.parent_mono hq),
        ih (S.settled_parent hq)]

theorem init (C : Crypto) : Shape C Heap.init BlockStore.init.blockCache where
  next_pos := Nat.one_pos
  genesis_core := rfl
  fresh := fun _ _ => rfl
  hash_eq := fun p hp hn => absurd (Nat.lt_one_iff.mp hn) hp
  parsedQc_eq := fun p hp hn => absurd (Nat.lt_one_iff.mp hn) hp
  unlinked := fun _ _ => ⟨rfl, rfl⟩
  parent_cached := fun hq => by cases hq
  justify_cached := fun hq => by cases hq
  height_parent := fun hq => by cases hq
  linked_cached := fun hq => by cases hq
  cache_genesis := rfl
  cached := by
    intro x p hp
    unfold BlockStore.init at hp
    by_cases hx : x = 0#256
    · simp only [hx, if_true] at hp
      obtain rfl := Option.some.inj hp
      exact ⟨hx.symm, Or.inl rfl⟩
    · simp [hx] at hp
  justify_not_below := fun hj => by cases hj

end Shape

end Fred.Hotstuff
