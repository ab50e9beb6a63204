/-
# Fred.Hotstuff.StoreRuns -- the block store under any sequence of insertions

The store by itself, with whatever block objects anyone makes and whichever of them are inserted, as
often and in whatever order. Every stored block hangs where its header says, and insertions leave
stored blocks alone (`block_store_shape`).
-/
import Fred.Hotstuff.Insert
import Fred.Hotstuff.Instance

namespace Fred.Hotstuff

open Fred.Forest Fred.Transition

/-! ## The store by itself -/

structure StoreState where
  heap : Heap
  store : BlockStore

/-- A new object, or a call of `insert_block`. -/
inductive StoreCall where
  | receiveBlock (wire : HotstuffBlockWire) (source : ReplicaID)
  | mintBlock (body : List UInt8) (qcWire : QuorumCertificateWire) (parentHash : Hash)
    (proposer : ReplicaID)
  | loadDecidedBlock (wire : HotstuffBlockWire)
  | insertBlock (p : BlockPtr)

namespace StoreState

variable {C : Crypto} {s s' : StoreState}

/-- The constructor of `BlockStore`, with the genesis block. -/
def init : StoreState := ⟨.init, .init⟩

/-- `insert_block` reads the certificate of the block, which genesis does not have. -/
def step (C : Crypto) : StoreCall → StoreState → Except Exn StoreState
  | .receiveBlock wire source, s =>
    .ok { s with heap := s.heap.alloc (HotstuffBlock.receiveBlock C wire source) }
  | .mintBlock body qcWire parentHash proposer, s =>
    .ok { s with heap := s.heap.alloc (HotstuffBlock.mintBlock C body qcWire parentHash proposer) }
  | .loadDecidedBlock wire, s => .ok { s with heap := s.heap.alloc (HotstuffBlock.loadedBlock C wire) }
  | .insertBlock p, s =>
    if p = genesisPtr ∨ s.heap.next ≤ p then .error .nullPointer
    else
      match s.store.insertBlock s.heap p with
      | (store, heap, _) => .ok ⟨heap, store⟩

/-- The call reads a block from its file. -/
def Loads : StoreCall → Prop
  | .loadDecidedBlock _ => True
  | _ => False

instance (call : StoreCall) : Decidable (Loads call) := by
  cases call <;> unfold Loads <;> infer_instance

/-- What a call does: it makes an object, which is flagged only if it was loaded; or it changes nothing;
or it links an object to the stored blocks its header names and stores it. -/
theorem step_cases {call : StoreCall} (S : Shape C s.heap s.store.blockCache)
    (h : step C call s = .ok s') :
    (∃ b, b.IsNew C ∧ (b.writtenToDisk = true → Loads call) ∧
      s' = { s with heap := s.heap.alloc b }) ∨
    s' = s ∨
    ∃ p q j, p ≠ genesisPtr ∧ p < s.heap.next ∧
      s.store.blockCache (s.heap.header p).parentHash = some q ∧
      s.store.blockCache (s.heap.header p).qc.justify = some j ∧
      s' = ⟨s.heap.link p q j, (s.store.emplace (s.heap.hash p) p).addBlock p⟩ := by
  cases call with
  | receiveBlock wire source =>
      obtain rfl := Except.ok.inj h
      exact Or.inl ⟨_, HotstuffBlock.isNew_receiveBlock C wire source, (nomatch ·), rfl⟩
  | mintBlock body qcWire parentHash proposer =>
      obtain rfl := Except.ok.inj h
      exact Or.inl ⟨_, HotstuffBlock.isNew_mintBlock C body qcWire parentHash proposer,
        (nomatch ·), rfl⟩
  | loadDecidedBlock wire =>
      obtain rfl := Except.ok.inj h
      exact Or.inl ⟨_, HotstuffBlock.isNew_loadedBlock C wire, fun _ => trivial, rfl⟩
  | insertBlock p =>
      by_cases hp : p = genesisPtr ∨ s.heap.next ≤ p
      · simp only [step, if_pos hp] at h
        cases h
      · simp only [step, if_neg hp] at h
        rw [not_or, Nat.not_le] at hp
        obtain rfl := Except.ok.inj h
        rcases insertBlock_cases S hp.1 hp.2 with ⟨m, -, hins⟩ | ⟨q, j, hq, hj, hins⟩
        · rw [hins]
          exact Or.inr (Or.inl rfl)
        · rw [hins]
          exact Or.inr (Or.inr ⟨p, q, j, hp.1, hp.2, hq, hj, rfl⟩)

/-- **Step lemma**: every call keeps the shape. -/
theorem shape_step {call : StoreCall} (S : Shape C s.heap s.store.blockCache)
    (h : step C call s = .ok s') : Shape C s'.heap s'.store.blockCache := by
  rcases step_cases S h with ⟨b, hb, -, rfl⟩ | rfl | ⟨p, q, j, hne, hlt, hq, hj, rfl⟩
  · exact S.alloc hb
  · exact S
  · exact S.link hne hlt hq hj

/-- Every call leaves linked objects where they are. -/
theorem extends_step {call : StoreCall} (S : Shape C s.heap s.store.blockCache)
    (h : step C call s = .ok s') : Heap.Extends s.heap s'.heap := by
  rcases step_cases S h with ⟨b, -, -, rfl⟩ | rfl | ⟨p, q, j, hne, -, hq, hj, rfl⟩
  · exact S.extends_alloc b
  · exact Heap.Extends.refl _
  · exact S.extends_link hne hq hj

theorem shape_of_reach (h : Reach (step C) anyInput init s) :
    Shape C s.heap s.store.blockCache :=
  h.invariant (I := fun s => Shape C s.heap s.store.blockCache) (Shape.init C)
    fun _ _ _ S _ hstep => shape_step S hstep

/-! ## What insertions do -/

/-- The block hangs below the stored block of its parent hash and its certificate is on the stored block
of that hash; its height is one more than its parent's, and is the number of links to genesis. -/
structure Placed (s : StoreState) (p : BlockPtr) : Prop where
  parent : ∃ q, s.heap.parent p = some q ∧ s.store.blockCache (s.heap.get p).getParentHash = some q ∧
    s.heap.height p = s.heap.height q + 1
  justify : ∃ j, s.heap.justify p = some j ∧
    s.store.blockCache (s.heap.get p).getJustifyHash = some j
  genesis : ∀ n, ancestor s.heap.parent n p = some genesisPtr ↔ n = s.heap.height p

/-- A call that reports missing blocks changes nothing; no call replaces a stored block, or changes one
in any of its fields. -/
structure InsertsOnly (s : StoreState) (p : BlockPtr) : Prop where
  missing : (s.store.insertBlock s.heap p).2.2.any = true →
    (s.store.insertBlock s.heap p).1 = s.store ∧ (s.store.insertBlock s.heap p).2.1 = s.heap
  stored : ∀ x q, s.store.blockCache x = some q →
    (s.store.insertBlock s.heap p).1.blockCache x = some q ∧
      (s.store.insertBlock s.heap p).2.1.get q = s.heap.get q

theorem placed (S : Shape C s.heap s.store.blockCache) {p : BlockPtr} (hp : s.heap.Settled p)
    (hne : p ≠ genesisPtr) : Placed s p := by
  obtain ⟨q, hq⟩ := hp.resolve_left hne
  obtain ⟨j, hj, hcached⟩ := S.justify_cached hq
  refine ⟨⟨q, hq, S.parent_cached hq, S.height_parent hq⟩, ⟨j, hj, ?_⟩, ?_⟩
  · rw [getJustifyHash_eq S hne (S.lt_next_of_parent hq)]
    exact hcached
  · exact S.forest.ancestor_eq_some_iff S.parent_genesis (S.descends_genesis hp)

/-- Linking a stored object again writes what is there. -/
theorem get_link_of_linked (S : Shape C s.heap s.store.blockCache) {p q j x : BlockPtr}
    (hx : s.heap.Settled x) (hp : p ≠ genesisPtr)
    (hq : s.store.blockCache (s.heap.header p).parentHash = some q)
    (hj : s.store.blockCache (s.heap.header p).qc.justify = some j) :
    (s.heap.link p q j).get x = s.heap.get x := by
  by_cases hxp : x = p
  · subst hxp
    obtain ⟨r, hr⟩ := hx.resolve_left hp
    obtain rfl : r = q := Option.some.inj ((S.parent_cached hr).symm.trans hq)
    obtain ⟨i, hi, hcached⟩ := S.justify_cached hr
    obtain rfl : i = j := Option.some.inj (hcached.symm.trans hj)
    have hparent : (s.heap.get x).parentBlockPtr = some r := hr
    have hjustify : (s.heap.get x).justifyBlockPtr = some i := hi
    have hheight : (s.heap.get x).blockHeight = s.heap.height r + 1 := S.height_parent hr
    rw [Heap.get_link_self, ← hparent, ← hjustify, ← hheight]
  · exact Heap.get_link_of_ne s.heap q j hxp

theorem insertsOnly (S : Shape C s.heap s.store.blockCache) {p : BlockPtr} (hne : p ≠ genesisPtr)
    (hlt : p < s.heap.next) : InsertsOnly s p := by
  rcases insertBlock_cases S hne hlt with ⟨m, -, hins⟩ | ⟨q, j, hq, hj, hins⟩
  · constructor <;> rw [hins]
    · exact fun _ => ⟨rfl, rfl⟩
    · exact fun x r hr => ⟨hr, rfl⟩
  · constructor <;> rw [hins]
    · intro hmissing
      cases hmissing
    · intro x r hr
      refine ⟨BlockStore.blockCache_emplace_of_some hr, ?_⟩
      exact get_link_of_linked S (S.cached hr).2 hne hq hj

end StoreState

/-- **Shape of the block store.** After any sequence of calls, every stored block but genesis is placed
where its header says, and an insertion of any block leaves stored blocks alone, and everything if it
reports a missing block. -/
theorem block_store_shape {C : Crypto} {s : StoreState}
    (h : Reach (StoreState.step C) anyInput .init s) :
    (∀ x p, s.store.blockCache x = some p → p ≠ genesisPtr → s.Placed p) ∧
      ∀ p, p ≠ genesisPtr → p < s.heap.next → s.InsertsOnly p := by
  have S := StoreState.shape_of_reach h
  exact ⟨fun x p hp hne => StoreState.placed S (S.cached hp).2 hne,
    fun p hne hlt => StoreState.insertsOnly S hne hlt⟩

/-- A block and one on top of it arrive, the second first and the first twice, and each is inserted as
soon as it arrives and again at the end. -/
def duplicateCalls : List StoreCall :=
  let onGenesis := Instance.blockOn 0#256 ⟨0#256, 0#32, []⟩ []
  let onFirst := Instance.blockOn 1#256 ⟨0#256, 0#32, []⟩ []
  [.receiveBlock onFirst 0, .insertBlock 1, .receiveBlock onGenesis 0, .insertBlock 2,
    .receiveBlock onGenesis 1, .insertBlock 3, .insertBlock 1, .insertBlock 1]

theorem block_store_shape_duplicates : ∃ s : StoreState, s.store.blockCache 1#256 = some 2 ∧
    s.store.blockCache 1001#256 = some 1 ∧ s.Placed 1 ∧ s.InsertsOnly 3 := by
  have hrun : (runList (StoreState.step Instance.crypto) duplicateCalls .init).toOption.map
      (fun s => (s.store.blockCache 1#256, s.store.blockCache 1001#256, s.heap.next)) =
      some (some 2, some 1, 4) := by
    decide +kernel
  cases hs : runList (StoreState.step Instance.crypto) duplicateCalls .init with
  | error e =>
      rw [hs] at hrun
      cases hrun
  | ok s =>
      rw [hs] at hrun
      obtain ⟨hfirst, hrest⟩ := Prod.mk.inj (Option.some.inj hrun)
      obtain ⟨hsecond, hnext⟩ := Prod.mk.inj hrest
      obtain ⟨hplaced, hinserts⟩ := block_store_shape (Reach.of_runList (fun _ _ => trivial) hs)
      exact ⟨s, hfirst, hsecond, hplaced _ 1 hsecond (by decide),
        hinserts 3 (by decide) (by rw [hnext]; decide)⟩

end Fred.Hotstuff
