/-
# Fred.Hotstuff.Circulation -- the blocks in circulation

Replicas hold objects of their own for one block, and what makes two objects the same block is the
hash. `Circulation` states what is assumed of the headers that go round: no two have one hash, none
has the hash of genesis, and the block a header's certificate is on is among the ancestors its parent
hashes lead to. Then the hash of an object fixes the chain of hashes from it down to genesis
(`path_eq_of_hash_eq`), in whatever replica the object lives, and a block's certificate is on a proper
ancestor (`justify_below_of_regular`).
-/
import Fred.Hotstuff.Saved

namespace Fred.Hotstuff

open Fred.Forest Fred.Transition Replica

variable {V : Type} {E : Setup V} {s s' : Replica V}

/-! ## Headers -/

/-- A header of `K` with hash `x` names `y` as the hash of its parent. -/
def ParentHash (C : Crypto) (K : Set HotstuffBlockHeader) (x y : Hash) : Prop :=
  ∃ b ∈ K, C.hashHeader b = x ∧ b.parentHash = y

/-- What is assumed of the headers in circulation. -/
structure Circulation (C : Crypto) (K : Set HotstuffBlockHeader) : Prop where
  injOn : Set.InjOn C.hashHeader K
  ne_zero : ∀ b ∈ K, C.hashHeader b ≠ 0#256
  qc_below : ∀ b ∈ K, Relation.TransGen (ParentHash C K) (C.hashHeader b) b.qc.justify

/-- The headers of a replica's objects are in circulation, and heights fit into 32 bits. -/
structure Regular (K : Set HotstuffBlockHeader) (s : Replica V) : Prop where
  header_mem : ∀ p, p ≠ genesisPtr → p < s.heap.next → s.heap.header p ∈ K
  height_lt : ∀ p, p < s.heap.next → s.heap.height p < 2 ^ 32

/-- The step leaves a regular replica. -/
def RegularStep (K : Set HotstuffBlockHeader) (E : Setup V) (s : Replica V) (i : Input) : Prop :=
  ∀ s', step E i s = .ok s' → Regular K s'

theorem regular_start (K : Set HotstuffBlockHeader) (E : Setup V) : Regular K (start E) where
  header_mem := fun _ hp hlt => absurd (Nat.lt_one_iff.mp hlt) hp
  height_lt := fun _ _ => Nat.two_pow_pos 32

theorem regular_of_reach {K : Set HotstuffBlockHeader}
    (h : Reach (step E) (RegularStep K E) (start E) s) : Regular K s :=
  h.invariant (regular_start K E) fun _ u _ _ hP hs => hP u hs

/-! ## Chains of hashes -/

/-- The hashes from an object down to the block of height 1. -/
def Heap.path (h : Heap) (p : BlockPtr) : List Hash := (trunk h.parent h.height p).map h.hash

namespace WellFormed

variable {K : Set HotstuffBlockHeader} {p q j : BlockPtr}

theorem path_genesis (W : WellFormed E s) : s.heap.path genesisPtr = [] := by
  unfold Heap.path
  rw [W.forest.trunk_of_root W.shape.parent_genesis, List.map_nil]

theorem path_of_parent (W : WellFormed E s) (hq : s.heap.parent p = some q) :
    s.heap.path p = s.heap.hash p :: s.heap.path q := by
  unfold Heap.path
  rw [W.forest.trunk_of_parent hq, List.map_cons]

@[simp] theorem length_path (W : WellFormed E s) : (s.heap.path p).length = s.heap.height p := by
  unfold Heap.path
  rw [List.length_map, W.forest.length_trunk]

/-- Descent shortens the chain of hashes from its front. -/
theorem path_suffix (W : WellFormed E s) (h : Descends s.heap.parent p q) :
    s.heap.path q <:+ s.heap.path p :=
  (W.forest.trunk_suffix h).map _

/-- Of two stored objects one descends from the other if its chain of hashes does. -/
theorem descends_of_path_suffix (W : WellFormed E s)
    (hp : s.blockStore.blockCache (s.heap.hash p) = some p)
    (hq : s.blockStore.blockCache (s.heap.hash q) = some q)
    (h : s.heap.path q <:+ s.heap.path p) : Descends s.heap.parent p q := by
  obtain ⟨x, hx, hmap⟩ := W.forest.exists_descends_of_suffix h
  have hpath : s.heap.path x = s.heap.path q := hmap
  suffices x = q by rwa [← this]
  have hsettled := W.shape.settled_descends (W.shape.settled_of_stored hp) hx
  have hlen : s.heap.height x = s.heap.height q := by
    rw [← W.length_path, hpath, W.length_path]
  rcases W.shape.settled_of_stored hq with rfl | ⟨r, hr⟩
  · by_contra hne
    have := W.shape.height_pos hsettled hne
    rw [W.shape.height_genesis] at hlen
    omega
  · -- above genesis the first hash of the chain is the object's own
    have hpos : 0 < s.heap.height x := by
      rw [hlen, W.shape.height_parent hr]
      omega
    obtain ⟨y, hy⟩ := W.forest.exists_parent hpos
    rw [W.path_of_parent hy, W.path_of_parent hr] at hpath
    exact Shape.eq_of_stored (W.shape.stored_descends hp hx) hq (List.cons.inj hpath).1

theorem header_mem (W : WellFormed E s) (R : Regular K s) (hp : s.heap.Settled p)
    (hne : p ≠ genesisPtr) : s.heap.header p ∈ K :=
  R.header_mem p hne (W.shape.lt_next_of_settled hp)

theorem hash_of_header (W : WellFormed E s) (hp : s.heap.Settled p) (hne : p ≠ genesisPtr) :
    s.heap.hash p = E.crypto.hashHeader (s.heap.header p) :=
  W.shape.hash_eq p hne (W.shape.lt_next_of_settled hp)

theorem hash_ne_zero (W : WellFormed E s) (R : Regular K s) (N : Circulation E.crypto K)
    (hp : s.heap.Settled p) (hne : p ≠ genesisPtr) : s.heap.hash p ≠ 0#256 := by
  rw [W.hash_of_header hp hne]
  exact N.ne_zero _ (W.header_mem R hp hne)

/-- The header a hash belongs to is the header of every object with that hash. -/
theorem header_eq (W : WellFormed E s) (R : Regular K s) (N : Circulation E.crypto K)
    (hp : s.heap.Settled p) {b : HotstuffBlockHeader} (hb : b ∈ K)
    (h : E.crypto.hashHeader b = s.heap.hash p) : p ≠ genesisPtr ∧ s.heap.header p = b := by
  have hne : p ≠ genesisPtr := by
    rintro rfl
    rw [W.shape.hash_genesis] at h
    exact N.ne_zero b hb h
  rw [W.hash_of_header hp hne] at h
  exact ⟨hne, (N.injOn hb (W.header_mem R hp hne) h).symm⟩

/-- **A block's certificate is on a proper ancestor.** -/
theorem justify_below_of_regular (W : WellFormed E s) (R : Regular K s)
    (N : Circulation E.crypto K) (hj : s.heap.justify p = some j) :
    Descends s.heap.parent p j ∧ s.heap.height j < s.heap.height p := by
  -- parent hashes lead where parent links lead
  have hfollow : ∀ {x y : Hash}, Relation.TransGen (ParentHash E.crypto K) x y →
      ∀ {p}, s.heap.Settled p → s.heap.hash p = x →
        ∃ q r, s.heap.parent p = some q ∧ Descends s.heap.parent q r ∧ s.heap.hash r = y := by
    have hone : ∀ {x y : Hash}, ParentHash E.crypto K x y → ∀ {p}, s.heap.Settled p →
        s.heap.hash p = x → ∃ q, s.heap.parent p = some q ∧ s.heap.hash q = y := by
      rintro x y ⟨b, hb, rfl, rfl⟩ p hp hx
      obtain ⟨hne, hheader⟩ := W.header_eq R N hp hb hx.symm
      obtain ⟨q, hq⟩ := hp.resolve_left hne
      exact ⟨q, hq, by rw [W.shape.hash_parent hq, hheader]⟩
    intro x y hxy
    induction hxy with
    | single h =>
        intro p hp hx
        obtain ⟨q, hq, hy⟩ := hone h hp hx
        exact ⟨q, q, hq, Descends.refl q, hy⟩
    | tail _ hlast ih =>
        intro p hp hx
        obtain ⟨q, r, hq, hqr, hr⟩ := ih hp hx
        have hset := W.shape.settled_descends (W.shape.settled_parent hq) hqr
        obtain ⟨t, ht, hy⟩ := hone hlast hset hr
        exact ⟨q, t, hq, hqr.trans (Descends.single ht), hy⟩
  obtain ⟨q₀, hq₀⟩ := W.shape.parent_of_justify hj
  have hp : s.heap.Settled p := Or.inr ⟨q₀, hq₀⟩
  have hne := W.shape.ne_genesis_of_parent hq₀
  have hbelow := N.qc_below _ (W.header_mem R hp hne)
  rw [← W.hash_of_header hp hne] at hbelow
  obtain ⟨q, r, hq, hqr, hr⟩ := hfollow hbelow hp rfl
  have hrj : r = j := by
    have hstored := W.shape.stored_descends (W.shape.stored_parent hq) hqr
    apply Shape.eq_of_stored hstored (W.shape.stored_justify hj)
    rw [hr, W.shape.hash_justify hj]
  rw [← hrj]
  refine ⟨Descends.head hq hqr, ?_⟩
  have hlt := W.shape.height_parent hq
  have hle := W.forest.height_le hqr
  omega

end WellFormed

/-- **The hash of a block fixes its chain**, across replicas. -/
theorem path_eq_of_hash_eq {K : Set HotstuffBlockHeader} {E₁ E₂ : Setup V} {s₁ s₂ : Replica V}
    (W₁ : WellFormed E₁ s₁) (R₁ : Regular K s₁) (W₂ : WellFormed E₂ s₂) (R₂ : Regular K s₂)
    (N : Circulation E₁.crypto K) (hcrypto : E₂.crypto = E₁.crypto) {p₁ p₂ : BlockPtr}
    (h₁ : s₁.heap.Settled p₁) (h₂ : s₂.heap.Settled p₂)
    (heq : s₁.heap.hash p₁ = s₂.heap.hash p₂) : s₁.heap.path p₁ = s₂.heap.path p₂ := by
  have N₂ : Circulation E₂.crypto K := hcrypto ▸ N
  induction p₁ using W₁.forest.induction generalizing p₂ with
  | root p₁ hroot =>
      have hgen : p₁ = genesisPtr := by
        rcases h₁ with h | ⟨q, hq⟩
        · exact h
        · rw [hroot] at hq
          cases hq
      subst hgen
      have hgen₂ : p₂ = genesisPtr := by
        by_contra hne
        rw [W₁.shape.hash_genesis] at heq
        exact W₂.hash_ne_zero R₂ N₂ h₂ hne heq.symm
      rw [hgen₂, W₁.path_genesis, W₂.path_genesis]
  | child p₁ q₁ hq₁ ih =>
      have hne₁ := W₁.shape.ne_genesis_of_parent hq₁
      have hhash : E₂.crypto.hashHeader (s₁.heap.header p₁) = s₂.heap.hash p₂ := by
        rw [hcrypto, ← W₁.hash_of_header h₁ hne₁, heq]
      obtain ⟨hne₂, hheader⟩ := W₂.header_eq R₂ N₂ h₂ (W₁.header_mem R₁ h₁ hne₁) hhash
      obtain ⟨q₂, hq₂⟩ := h₂.resolve_left hne₂
      have hparent : s₁.heap.hash q₁ = s₂.heap.hash q₂ := by
        rw [W₁.shape.hash_parent hq₁, W₂.shape.hash_parent hq₂, hheader]
      rw [W₁.path_of_parent hq₁, W₂.path_of_parent hq₂, heq,
        ih (W₁.shape.settled_parent hq₁) (W₂.shape.settled_parent hq₂) hparent]

/-- Objects of one block carry certificates on one block. -/
theorem path_justify_eq {K : Set HotstuffBlockHeader} {E₁ E₂ : Setup V} {s₁ s₂ : Replica V}
    (W₁ : WellFormed E₁ s₁) (R₁ : Regular K s₁) (W₂ : WellFormed E₂ s₂) (R₂ : Regular K s₂)
    (N : Circulation E₁.crypto K) (hcrypto : E₂.crypto = E₁.crypto) {p₁ p₂ j₁ j₂ : BlockPtr}
    (hj₁ : s₁.heap.justify p₁ = some j₁) (hj₂ : s₂.heap.justify p₂ = some j₂)
    (heq : s₁.heap.path p₁ = s₂.heap.path p₂) : s₁.heap.path j₁ = s₂.heap.path j₂ := by
  have N₂ : Circulation E₂.crypto K := hcrypto ▸ N
  obtain ⟨q₁, hq₁⟩ := W₁.shape.parent_of_justify hj₁
  obtain ⟨q₂, hq₂⟩ := W₂.shape.parent_of_justify hj₂
  have h₁ : s₁.heap.Settled p₁ := Or.inr ⟨q₁, hq₁⟩
  have h₂ : s₂.heap.Settled p₂ := Or.inr ⟨q₂, hq₂⟩
  have hne₁ := W₁.shape.ne_genesis_of_parent hq₁
  rw [W₁.path_of_parent hq₁, W₂.path_of_parent hq₂] at heq
  have hhash : E₂.crypto.hashHeader (s₁.heap.header p₁) = s₂.heap.hash p₂ := by
    rw [hcrypto, ← W₁.hash_of_header h₁ hne₁, (List.cons.inj heq).1]
  obtain ⟨-, hheader⟩ := W₂.header_eq R₂ N₂ h₂ (W₁.header_mem R₁ h₁ hne₁) hhash
  apply path_eq_of_hash_eq W₁ R₁ W₂ R₂ N hcrypto (W₁.shape.settled_justify hj₁)
    (W₂.shape.settled_justify hj₂)
  rw [W₁.shape.hash_justify hj₁, W₂.shape.hash_justify hj₂, hheader]

end Fred.Hotstuff
