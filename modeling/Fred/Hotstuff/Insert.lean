/-
# Fred.Hotstuff.Insert -- new objects and `insert_block` keep the shape

Two operations change the cores of objects: making an object and inserting one. Both extend the heap
and keep `Shape`. For `insert_block` there are two cases. An object that is linked already gets the
links it has, because cache entries never change. An object that is not linked is referred to by
nobody: every link and every cache entry points to a settled object. That is why its new links close
no cycle, neither through parents nor through a certificate.
-/
import Fred.Hotstuff.Shape

namespace Fred.Hotstuff

open Fred.Forest

variable {C : Crypto} {h : Heap} {cache : Hash → Option BlockPtr} {p q j : BlockPtr}

/-! ## New objects -/

/-- What every constructor but that of genesis makes: an unlinked object whose hash and certificate
come from its header. -/
structure HotstuffBlock.IsNew (C : Crypto) (b : HotstuffBlock) : Prop where
  hash_eq : b.getHash = C.hashHeader b.wireBlock.header
  parsedQc_eq : b.parsedQc = some (.ofWire b.wireBlock.header.qc)
  height_eq : b.blockHeight = 0
  parent_eq : b.parentBlockPtr = none
  justify_eq : b.justifyBlockPtr = none

/-- A block off the network. -/
theorem HotstuffBlock.isNew_receiveBlock (C : Crypto) (wire : HotstuffBlockWire)
    (source : ReplicaID) : (receiveBlock C wire source).IsNew C :=
  ⟨rfl, rfl, rfl, rfl, rfl⟩

/-- A block of the replica itself. -/
theorem HotstuffBlock.isNew_mintBlock (C : Crypto) (body : List UInt8)
    (qcWire : QuorumCertificateWire) (parentHash : Hash) (proposer : ReplicaID) :
    (mintBlock C body qcWire parentHash proposer).IsNew C :=
  isNew_receiveBlock C _ _

/-- A block from disk. -/
theorem HotstuffBlock.isNew_loadedBlock (C : Crypto) (wire : HotstuffBlockWire) :
    (loadedBlock C wire).IsNew C :=
  ⟨rfl, rfl, rfl, rfl, rfl⟩

namespace Shape

/-- Other objects are as before. -/
theorem core_alloc_of_ne (b : HotstuffBlock) (hp : p ≠ h.next) : (h.alloc b).core p = h.core p := by
  unfold Heap.core
  rw [Heap.get_alloc_of_ne h b hp]

/-- No object is lost. -/
theorem extends_alloc (S : Shape C h cache) (b : HotstuffBlock) : Heap.Extends h (h.alloc b) :=
  ⟨Nat.le_succ _, fun _ hp => core_alloc_of_ne b (Nat.ne_of_lt (S.lt_next_of_settled hp))⟩

/-- A new object has no links, so it adds none. -/
theorem parent_alloc (S : Shape C h cache) {b : HotstuffBlock} (hb : b.IsNew C) :
    (h.alloc b).parent = h.parent := by
  funext p
  by_cases hp : p = h.next
  · subst hp
    have hold : h.parent h.next = none := congrArg BlockCore.parent (S.fresh h.next le_rfl)
    rw [hold]
    show ((h.alloc b).get h.next).parentBlockPtr = none
    rw [Heap.get_alloc_next, hb.parent_eq]
  · exact congrArg BlockCore.parent (core_alloc_of_ne b hp)

/-- The same for the link to the certified block. -/
theorem justify_alloc (S : Shape C h cache) {b : HotstuffBlock} (hb : b.IsNew C) :
    (h.alloc b).justify = h.justify := by
  funext p
  by_cases hp : p = h.next
  · subst hp
    have hold : h.justify h.next = none := congrArg BlockCore.justify (S.fresh h.next le_rfl)
    rw [hold]
    show ((h.alloc b).get h.next).justifyBlockPtr = none
    rw [Heap.get_alloc_next, hb.justify_eq]
  · exact congrArg BlockCore.justify (core_alloc_of_ne b hp)

/-- No height changes: the new object is at 0 until it is linked. -/
theorem height_alloc (S : Shape C h cache) {b : HotstuffBlock} (hb : b.IsNew C) :
    (h.alloc b).height = h.height := by
  funext p
  by_cases hp : p = h.next
  · subst hp
    have hold : h.height h.next = 0 := congrArg BlockCore.height (S.fresh h.next le_rfl)
    rw [hold]
    show ((h.alloc b).get h.next).blockHeight = 0
    rw [Heap.get_alloc_next, hb.height_eq]
  · exact congrArg BlockCore.height (core_alloc_of_ne b hp)

/-- A new object keeps the shape: nothing links to it, and the store does not have it. -/
theorem alloc (S : Shape C h cache) {b : HotstuffBlock} (hb : b.IsNew C) :
    Shape C (h.alloc b) cache := by
  have hext := S.extends_alloc b
  have hlink : ∀ {p q}, (h.alloc b).parent p = some q → h.parent p = some q := by
    intro p q hq
    rw [S.parent_alloc hb] at hq
    exact hq
  refine
    { next_pos := Nat.succ_pos _
      genesis_core := (hext.core_eq _ (Or.inl rfl)).trans S.genesis_core
      fresh := ?_, hash_eq := ?_, parsedQc_eq := ?_, unlinked := ?_, parent_cached := ?_
      justify_cached := ?_, height_parent := ?_, linked_cached := ?_
      cache_genesis := S.cache_genesis, cached := ?_, justify_not_below := ?_ }
  · intro p hp
    have hle : h.next + 1 ≤ p := hp
    rw [core_alloc_of_ne b (Nat.ne_of_gt hle)]
    exact S.fresh p (Nat.le_of_succ_le hle)
  · intro p hp hlt
    by_cases hn : p = h.next
    · subst hn
      show ((h.alloc b).get h.next).getHash = C.hashHeader ((h.alloc b).get h.next).wireBlock.header
      rw [Heap.get_alloc_next]
      exact hb.hash_eq
    · have hcore := core_alloc_of_ne b hn
      show ((h.alloc b).core p).hash = C.hashHeader ((h.alloc b).core p).header
      rw [hcore]
      exact S.hash_eq p hp (Nat.lt_of_le_of_ne (Nat.le_of_lt_succ hlt) hn)
  · intro p hp hlt
    by_cases hn : p = h.next
    · subst hn
      show ((h.alloc b).get h.next).parsedQc = _
      unfold Heap.header Heap.core
      rw [Heap.get_alloc_next]
      exact hb.parsedQc_eq
    · unfold Heap.header
      rw [core_alloc_of_ne b hn]
      exact S.parsedQc_eq p hp (Nat.lt_of_le_of_ne (Nat.le_of_lt_succ hlt) hn)
  · rw [S.parent_alloc hb, S.justify_alloc hb, S.height_alloc hb]
    exact S.unlinked
  · intro p q hq
    rw [hext.header_eq (Or.inr ⟨q, hlink hq⟩)]
    exact S.parent_cached (hlink hq)
  · intro p q hq
    rw [hext.header_eq (Or.inr ⟨q, hlink hq⟩), S.justify_alloc hb]
    exact S.justify_cached (hlink hq)
  · rw [S.parent_alloc hb, S.height_alloc hb]
    exact S.height_parent
  · intro p q hq
    rw [hext.hash_eq (Or.inr ⟨q, hlink hq⟩)]
    exact S.linked_cached (hlink hq)
  · intro x p hp
    obtain ⟨hx, hset⟩ := S.cached hp
    exact ⟨(hext.hash_eq hset).trans hx, hext.settled hset⟩
  · rw [S.justify_alloc hb, S.parent_alloc hb]
    exact S.justify_not_below

end Shape

/-! ## `insert_block` -/

/-- The two link assignments of `insert_block`. -/
def Heap.link (h : Heap) (p q j : BlockPtr) : Heap := (h.setParent p q).setJustify p j

namespace Heap

theorem get_link_self (h : Heap) (p q j : BlockPtr) : (h.link p q j).get p =
    { h.get p with
      parentBlockPtr := some q, blockHeight := h.height q + 1, justifyBlockPtr := some j } := by
  simp [link, setJustify, setParent]

theorem get_link_of_ne (h : Heap) {p x : BlockPtr} (q j : BlockPtr) (hx : x ≠ p) :
    (h.link p q j).get x = h.get x := by
  simp [link, setJustify, setParent, get_modify_of_ne, hx]

theorem core_link_self (h : Heap) (p q j : BlockPtr) : (h.link p q j).core p =
    { h.core p with parent := some q, height := h.height q + 1, justify := some j } := by
  unfold core
  rw [get_link_self]
  rfl

theorem core_link_of_ne (h : Heap) {p x : BlockPtr} (q j : BlockPtr) (hx : x ≠ p) :
    (h.link p q j).core x = h.core x := by
  unfold core
  rw [get_link_of_ne h q j hx]

theorem hash_link (h : Heap) (p q j x : BlockPtr) : (h.link p q j).hash x = h.hash x := by
  by_cases hx : x = p
  · subst hx
    unfold hash
    rw [core_link_self]
  · exact congrArg BlockCore.hash (core_link_of_ne h q j hx)

theorem header_link (h : Heap) (p q j x : BlockPtr) : (h.link p q j).header x = h.header x := by
  by_cases hx : x = p
  · subst hx
    unfold header
    rw [core_link_self]
  · exact congrArg BlockCore.header (core_link_of_ne h q j hx)

theorem parsedQc_link (h : Heap) (p q j x : BlockPtr) :
    ((h.link p q j).core x).parsedQc = (h.core x).parsedQc := by
  by_cases hx : x = p
  · subst hx
    rw [core_link_self]
  · rw [core_link_of_ne h q j hx]

theorem parent_link_self (h : Heap) (p q j : BlockPtr) : (h.link p q j).parent p = some q :=
  congrArg BlockCore.parent (core_link_self h p q j)

theorem parent_link_of_ne (h : Heap) {p x : BlockPtr} (q j : BlockPtr) (hx : x ≠ p) :
    (h.link p q j).parent x = h.parent x :=
  congrArg BlockCore.parent (core_link_of_ne h q j hx)

/-- A parent link is the new one or an old one of another object. -/
theorem parent_link_cases {h : Heap} {p q j x y : BlockPtr} (hxy : (h.link p q j).parent x = some y) :
    (x = p ∧ y = q) ∨ (x ≠ p ∧ h.parent x = some y) := by
  by_cases hxp : x = p
  · subst hxp
    rw [parent_link_self] at hxy
    exact Or.inl ⟨rfl, (Option.some.inj hxy).symm⟩
  · exact Or.inr ⟨hxp, (parent_link_of_ne h q j hxp).symm.trans hxy⟩

theorem justify_link_self (h : Heap) (p q j : BlockPtr) : (h.link p q j).justify p = some j :=
  congrArg BlockCore.justify (core_link_self h p q j)

theorem justify_link_of_ne (h : Heap) {p x : BlockPtr} (q j : BlockPtr) (hx : x ≠ p) :
    (h.link p q j).justify x = h.justify x :=
  congrArg BlockCore.justify (core_link_of_ne h q j hx)

theorem height_link_self (h : Heap) (p q j : BlockPtr) : (h.link p q j).height p = h.height q + 1 :=
  congrArg BlockCore.height (core_link_self h p q j)

theorem height_link_of_ne (h : Heap) {p x : BlockPtr} (q j : BlockPtr) (hx : x ≠ p) :
    (h.link p q j).height x = h.height x :=
  congrArg BlockCore.height (core_link_of_ne h q j hx)

/-- A linked object stays linked. -/
theorem settled_link (h : Heap) {p q j x : BlockPtr} (hx : h.Settled x) :
    (h.link p q j).Settled x := by
  by_cases hxp : x = p
  · subst hxp
    exact Or.inr ⟨q, parent_link_self h x q j⟩
  · rcases hx with rfl | ⟨y, hy⟩
    · exact Or.inl rfl
    · exact Or.inr ⟨y, (parent_link_of_ne h q j hxp).trans hy⟩

end Heap

/-- What `insert_block` looks up is the hash in the header. -/
theorem getJustifyHash_eq (S : Shape C h cache) (hp : p ≠ genesisPtr) (hlt : p < h.next) :
    (h.get p).getJustifyHash = (h.header p).qc.justify := by
  have hqc : (h.get p).parsedQc = some (.ofWire (h.header p).qc) := S.parsedQc_eq p hp hlt
  unfold HotstuffBlock.getJustifyHash HotstuffBlock.getJustifyQc
  rw [hqc, Option.getD_some, QuorumCertificate.objHash_ofWire]

/-- With parent and certified block in the store, `insert_block` links the object and stores it. -/
theorem insertBlock_of_cached {st : BlockStore} (S : Shape C h st.blockCache) (hp : p ≠ genesisPtr)
    (hlt : p < h.next) (hq : st.blockCache (h.header p).parentHash = some q)
    (hj : st.blockCache (h.header p).qc.justify = some j) : st.insertBlock h p =
      ((st.emplace (h.hash p) p).addBlock p, h.link p q j, ⟨none, none⟩) := by
  have hparent : (h.get p).getParentHash = (h.header p).parentHash := rfl
  unfold BlockStore.insertBlock
  rw [hparent, getJustifyHash_eq S hp hlt]
  simp only [hq, hj]
  rfl

/-- What `insert_block` does to an object: nothing, and it names what is missing; or it links the
object to the stored blocks its header names and stores it. -/
theorem insertBlock_cases {st : BlockStore} (S : Shape C h st.blockCache) (hp : p ≠ genesisPtr)
    (hlt : p < h.next) :
    (∃ m : BlockStore.MissingDependencies, m.any = true ∧ st.insertBlock h p = (st, h, m)) ∨
    ∃ q j, st.blockCache (h.header p).parentHash = some q ∧
      st.blockCache (h.header p).qc.justify = some j ∧
      st.insertBlock h p = ((st.emplace (h.hash p) p).addBlock p, h.link p q j, ⟨none, none⟩) := by
  have hparent : (h.get p).getParentHash = (h.header p).parentHash := rfl
  rcases hcp : st.blockCache (h.header p).parentHash with _ | q <;>
    rcases hcj : st.blockCache (h.header p).qc.justify with _ | j
  · left
    unfold BlockStore.insertBlock
    rw [hparent, getJustifyHash_eq S hp hlt]
    exact ⟨_, rfl, by simp only [hcp, hcj]; rfl⟩
  · left
    unfold BlockStore.insertBlock
    rw [hparent, getJustifyHash_eq S hp hlt]
    exact ⟨_, rfl, by simp only [hcp, hcj]; rfl⟩
  · left
    unfold BlockStore.insertBlock
    rw [hparent, getJustifyHash_eq S hp hlt]
    exact ⟨⟨none, some (h.header p).qc.justify⟩, rfl, by simp only [hcp, hcj]; rfl⟩
  · exact Or.inr ⟨q, j, rfl, rfl, insertBlock_of_cached S hp hlt hcp hcj⟩

namespace Shape

/-- An object that is linked already gets the links it has. -/
theorem sameCores_link (S : Shape C h cache) (hlinked : ∃ r, h.parent p = some r)
    (hq : cache (h.header p).parentHash = some q)
    (hj : cache (h.header p).qc.justify = some j) : Heap.SameCores h (h.link p q j) := by
  obtain ⟨r, hr⟩ := hlinked
  have hrq : r = q := Option.some.inj ((S.parent_cached hr).symm.trans hq)
  subst hrq
  obtain ⟨j', hj', hc⟩ := S.justify_cached hr
  have hjj : j' = j := Option.some.inj (hc.symm.trans hj)
  subst hjj
  refine ⟨rfl, fun x => ?_⟩
  by_cases hx : x = p
  · subst hx
    rw [Heap.core_link_self]
    have hpar : (h.core x).parent = some r := hr
    have hjus : (h.core x).justify = some j' := hj'
    have hht : (h.core x).height = h.height r + 1 := S.height_parent hr
    rw [← hpar, ← hjus, ← hht]
  · exact Heap.core_link_of_ne h r j' hx

/-- Linking loses no object and no link of a linked one. -/
theorem extends_link (S : Shape C h cache) (hp : p ≠ genesisPtr)
    (hq : cache (h.header p).parentHash = some q)
    (hj : cache (h.header p).qc.justify = some j) : Heap.Extends h (h.link p q j) := by
  by_cases hlinked : ∃ r, h.parent p = some r
  · exact (S.sameCores_link hlinked hq hj).extends
  · refine ⟨le_rfl, fun x hx => Heap.core_link_of_ne h q j ?_⟩
    rintro rfl
    rcases hx with hx | hx
    · exact hp hx
    · exact hlinked hx

/-- Nothing refers to an object that is not settled. -/
theorem not_referred (S : Shape C h cache) (hp : ¬ h.Settled p) :
    (∀ x, h.parent x ≠ some p) ∧ (∀ x, h.justify x ≠ some p) ∧ ∀ x, cache x ≠ some p := by
  refine ⟨?_, ?_, ?_⟩
  · intro x hx
    exact hp (S.settled_parent hx)
  · intro x hx
    exact hp (S.settled_justify hx)
  · intro x hx
    exact hp (S.cached hx).2

/-- A path from another object does not meet the object that is being linked. -/
theorem descends_of_link (S : Shape C h cache) (hp : ¬ h.Settled p) {a b : BlockPtr}
    (hqp : q ≠ p) (ha : a ≠ p) (hd : Descends (h.link p q j).parent a b) :
    Descends h.parent a b ∧ b ≠ p := by
  induction hd with
  | refl => exact ⟨Descends.refl _, ha⟩
  | @tail x y _ hstep ih =>
      have hxy : h.parent x = some y := (Heap.parent_link_of_ne h q j ih.2).symm.trans hstep
      refine ⟨ih.1.trans (Descends.single hxy), ?_⟩
      rintro rfl
      exact (S.not_referred hp).1 x hxy

/-- Linking an object that is not linked yet. -/
theorem link_new {st : BlockStore} (S : Shape C h st.blockCache) (hset : ¬ h.Settled p)
    (hlt : p < h.next) (hq : st.blockCache (h.header p).parentHash = some q)
    (hj : st.blockCache (h.header p).qc.justify = some j) :
    Shape C (h.link p q j) (st.emplace (h.hash p) p).blockCache := by
  have hp : p ≠ genesisPtr := fun hp => hset (Or.inl hp)
  obtain ⟨hnopar, hnojus, hnocache⟩ := S.not_referred hset
  have hqp : q ≠ p := fun e => hnocache _ (e ▸ hq)
  have hjp : j ≠ p := fun e => hnocache _ (e ▸ hj)
  have hext := S.extends_link hp hq hj
  have hcache : ∀ {x y}, st.blockCache x = some y →
      (st.emplace (h.hash p) p).blockCache x = some y :=
    BlockStore.blockCache_emplace_of_some
  have hcore : ∀ {x}, x ≠ p → (h.link p q j).core x = h.core x := Heap.core_link_of_ne h q j
  refine
    { next_pos := S.next_pos
      genesis_core := (hext.core_eq _ (Or.inl rfl)).trans S.genesis_core
      fresh := ?_, hash_eq := ?_, parsedQc_eq := ?_, unlinked := ?_, parent_cached := ?_
      justify_cached := ?_, height_parent := ?_, linked_cached := ?_
      cache_genesis := hcache S.cache_genesis, cached := ?_, justify_not_below := ?_ }
  · intro x hx
    rw [hcore (Nat.ne_of_gt (lt_of_lt_of_le hlt hx))]
    exact S.fresh x hx
  · intro x hx hn
    rw [Heap.hash_link, Heap.header_link]
    exact S.hash_eq x hx hn
  · intro x hx hn
    rw [Heap.parsedQc_link, Heap.header_link]
    exact S.parsedQc_eq x hx hn
  · intro x hx
    have hxp : x ≠ p := by
      rintro rfl
      rw [Heap.parent_link_self] at hx
      cases hx
    rw [Heap.parent_link_of_ne h q j hxp] at hx
    rw [Heap.justify_link_of_ne h q j hxp, Heap.height_link_of_ne h q j hxp]
    exact S.unlinked x hx
  · intro x y hxy
    rw [Heap.header_link]
    rcases Heap.parent_link_cases hxy with ⟨rfl, rfl⟩ | ⟨-, hold⟩
    · exact hcache hq
    · exact hcache (S.parent_cached hold)
  · intro x y hxy
    rw [Heap.header_link]
    rcases Heap.parent_link_cases hxy with ⟨rfl, -⟩ | ⟨hxp, hold⟩
    · exact ⟨j, Heap.justify_link_self h x q j, hcache hj⟩
    · obtain ⟨i, hi, hc⟩ := S.justify_cached hold
      exact ⟨i, (Heap.justify_link_of_ne h q j hxp).trans hi, hcache hc⟩
  · intro x y hxy
    rcases Heap.parent_link_cases hxy with ⟨rfl, rfl⟩ | ⟨hxp, hold⟩
    · rw [Heap.height_link_self, Heap.height_link_of_ne h y j hqp]
    · -- no settled block has the new one as its parent
      have hyp : y ≠ p := fun e => hnopar x (e ▸ hold)
      rw [Heap.height_link_of_ne h q j hxp, Heap.height_link_of_ne h q j hyp]
      exact S.height_parent hold
  · intro x y hxy
    rw [Heap.hash_link]
    rcases Heap.parent_link_cases hxy with ⟨rfl, -⟩ | ⟨-, hold⟩
    · exact ⟨(st.blockCache (h.hash x)).getD x, by simp [BlockStore.emplace]⟩
    · obtain ⟨r, hr⟩ := S.linked_cached hold
      exact ⟨r, hcache hr⟩
  · intro x y hxy
    rw [Heap.hash_link]
    rcases BlockStore.blockCache_emplace_cases hxy with hold | ⟨rfl, rfl, -⟩
    · obtain ⟨hx, hy⟩ := S.cached hold
      exact ⟨hx, Heap.settled_link h hy⟩
    · exact ⟨rfl, Or.inr ⟨q, Heap.parent_link_self h y q j⟩⟩
  · intro x i hi hd
    by_cases hxp : x = p
    · subst hxp
      obtain rfl : j = i := Option.some.inj ((Heap.justify_link_self h x q j).symm.trans hi)
      exact (S.descends_of_link hset hqp hjp hd).2 rfl
    · have hi' : h.justify x = some i := (Heap.justify_link_of_ne h q j hxp).symm.trans hi
      have hip : i ≠ p := fun e => hnojus x (e ▸ hi')
      exact S.justify_not_below hi' (S.descends_of_link hset hqp hip hd).1

/-- **`insert_block` keeps the shape.** -/
theorem link {st : BlockStore} (S : Shape C h st.blockCache) (hp : p ≠ genesisPtr)
    (hlt : p < h.next) (hq : st.blockCache (h.header p).parentHash = some q)
    (hj : st.blockCache (h.header p).qc.justify = some j) :
    Shape C (h.link p q j) (st.emplace (h.hash p) p).blockCache := by
  by_cases hset : h.Settled p
  · obtain ⟨r, hr⟩ := hset.resolve_left hp
    have hsame := S.sameCores_link ⟨r, hr⟩ hq hj
    have hcache : (st.emplace (h.hash p) p).blockCache = st.blockCache := by
      obtain ⟨t, ht⟩ := S.linked_cached hr
      funext x
      unfold BlockStore.emplace
      by_cases hx : x = h.hash p
      · simp [hx, ht]
      · simp [hx]
    rw [hcache]
    exact S.congr hsame
  · exact S.link_new hset hlt hq hj

end Shape

end Fred.Hotstuff
