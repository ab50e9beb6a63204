/-
# Fred.Hotstuff.StableLeader -- when a leader asks its machine for a block

`do_propose` asks the machine for a block when the last three blocks up to the leaf carry this replica's
id and each has its certificate on its parent. That is the three-chain that commits the block below it,
but the commit happens at the end of the leaf's own proposal event, and the id is whatever the message
said. While neither gets in the way, what the replica has not minted itself is decided by then, also when
it proposes in the middle of another event (`nonempty_on_settled_history`).
-/
import Fred.Hotstuff.Sections

namespace Fred.Hotstuff

open Fred.Forest Fred.Transition Replica

variable {V : Type} {E : Setup V} {s s' : Replica V}

/-! ## Direct chains -/

/-- The certificates of `p` and of its two next ancestors are on their parents. -/
structure Heap.DirectChain (h : Heap) (p p₂ p₁ p₀ : BlockPtr) : Prop where
  parent₃ : h.parent p = some p₂
  justify₃ : h.justify p = some p₂
  parent₂ : h.parent p₂ = some p₁
  justify₂ : h.justify p₂ = some p₁
  parent₁ : h.parent p₁ = some p₀
  justify₁ : h.justify p₁ = some p₀

namespace Heap.DirectChain

variable {C : Crypto} {cache : Hash → Option BlockPtr} {h h' : Heap} {p p₂ p₁ p₀ : BlockPtr}

theorem descends (c : h.DirectChain p p₂ p₁ p₀) : Descends h.parent p p₀ :=
  Descends.head c.parent₃ (Descends.head c.parent₂ (Descends.single c.parent₁))

theorem height_eq (S : Shape C h cache) (c : h.DirectChain p p₂ p₁ p₀) :
    h.height p = h.height p₀ + 3 := by
  rw [S.height_parent c.parent₃, S.height_parent c.parent₂, S.height_parent c.parent₁]

/-- The links of a settled object are the same in a heap with more links. -/
theorem of_extends (S : Shape C h cache) (H : Extends h h') (hp : h.Settled p)
    (c : h'.DirectChain p p₂ p₁ p₀) : h.DirectChain p p₂ p₁ p₀ := by
  have parent₃ := (H.parent_eq hp).symm.trans c.parent₃
  have h₂ := S.settled_parent parent₃
  have parent₂ := (H.parent_eq h₂).symm.trans c.parent₂
  have h₁ := S.settled_parent parent₂
  exact ⟨parent₃, (H.justify_eq hp).symm.trans c.justify₃, parent₂,
    (H.justify_eq h₂).symm.trans c.justify₂, (H.parent_eq h₁).symm.trans c.parent₁,
    (H.justify_eq h₁).symm.trans c.justify₁⟩

end Heap.DirectChain

section
variable {C : Crypto} {cache : Hash → Option BlockPtr} {h : Heap} (S : Shape C h cache)
include S

/-- One level of `supports_nonempty_child_proposal`. -/
theorem supports_succ {selfId : ReplicaID} {depth : ℕ} {p : BlockPtr}
    (hs : h.supportsNonemptyChildProposal selfId (depth + 1) p = true) :
    ∃ q, h.parent p = some q ∧ h.justify p = some q ∧
      h.supportsNonemptyChildProposal selfId depth q = true := by
  unfold Heap.supportsNonemptyChildProposal at hs
  split at hs
  · cases hs
  · split at hs
    · cases hs
    · split at hs
      · cases hs
      · rename_i q hq
        split at hs
        · cases hs
        · rename_i hhash
          obtain ⟨j, hj, hjc⟩ := S.justify_cached hq
          have hqc := S.parent_cached hq
          -- parent and certified block are stored under one hash
          rw [Decidable.not_not, getJustifyHash_eq S (S.ne_genesis_of_parent hq)
            (S.lt_next_of_parent hq)] at hhash
          rw [hhash] at hjc
          have hjq : j = q := Option.some.inj (hjc.symm.trans hqc)
          exact ⟨q, hq, hjq ▸ hj, hs⟩

theorem directChain_of_supports {selfId : ReplicaID} {p : BlockPtr}
    (hs : h.supportsNonemptyChildProposal selfId 3 p = true) :
    ∃ p₂ p₁ p₀, h.DirectChain p p₂ p₁ p₀ := by
  obtain ⟨p₂, hp₂, hj₂, hs⟩ := supports_succ S hs
  obtain ⟨p₁, hp₁, hj₁, hs⟩ := supports_succ S hs
  obtain ⟨p₀, hp₀, hj₀, -⟩ := supports_succ S hs
  exact ⟨p₂, p₁, p₀, hp₂, hj₂, hp₁, hj₁, hp₀, hj₀⟩

end

/-! ## What is decided -/

theorem IndexLog.decided_descends (L : IndexLog s) (W : WellFormed E s) {p q : BlockPtr}
    (hp : s.heap.Settled p) (hd : (s.heap.get p).decided = true)
    (hpq : Descends s.heap.parent p q) : (s.heap.get q).decided = true := by
  have hexec := (L.decided_iff p (W.shape.lt_next_of_settled hp)).mp hd
  have hq := W.shape.lt_next_of_settled (W.shape.settled_descends hp hpq)
  exact (L.decided_iff q hq).mpr (hexec.trans hpq)

/-- What is decided stays decided. -/
theorem decided_section {i : SectionInput V} {w w' : Midway V} (M : MidwayInv E w)
    (h : SectionForm E w i w') {p : BlockPtr} (hp : p < w.replica.heap.next)
    (hd : (w.replica.heap.get p).decided = true) : (w'.replica.heap.get p).decided = true := by
  refine (section_rule (I := fun t => p < t.heap.next ∧ (t.heap.get p).decided = true)
    ?_ ?_ M ⟨hp, hd⟩ h).2
  · intro t t' _ _ hstays ht
    exact ⟨lt_of_lt_of_le ht.1 hstays.heap.next_le, (hstays.decided_eq p ht.1).trans ht.2⟩
  · intro t t₂ t₃ nblk blk2 blk1 blk queue tx _ c _ ht
    have hcores := c.lock.spec.core_eq.trans c.apply.aged.cores
    refine ⟨lt_of_lt_of_le ht.1 hcores.next_eq.ge, (c.apply.decided_iff p).mpr (Or.inl ?_)⟩
    exact (Stays.decided_lockStage c.lock p).trans ht.2

theorem heap_section {i : SectionInput V} {w w' : Midway V} (M : MidwayInv E w)
    (h : SectionForm E w i w') : Heap.Extends w.replica.heap w'.replica.heap := by
  refine section_rule (I := fun t => Heap.Extends w.replica.heap t.heap) ?_ ?_ M
    (Heap.SameCores.refl _).extends h
  · exact fun _ _ hstays H => H.trans hstays.heap
  · exact fun _ c _ H => H.trans (c.lock.spec.core_eq.trans c.apply.aged.cores).extends

/-- **`update` commits the end of a direct chain**, if it is not decided yet. -/
theorem update_decides (W : WellFormed E s) (L : IndexLog s) {p p₂ p₁ p₀ : BlockPtr}
    (c : s.heap.DirectChain p p₂ p₁ p₀) (h : update E p s = .ok s') :
    (s'.heap.get p₀).decided = true ∨ s'.bExec = p₀ := by
  have h₂ : s.heap.Settled p₂ := W.shape.settled_parent c.parent₃
  have h₁ : s.heap.Settled p₁ := W.shape.settled_parent c.parent₂
  unfold update at h
  rw [c.justify₃] at h
  dsimp only at h
  split at h
  · rename_i hd
    rw [← Except.ok.inj h]
    exact Or.inl (L.decided_descends W h₂ hd (Descends.head c.parent₂ (Descends.single c.parent₁)))
  · rename_i hd₂
    rw [heap_updateHqc, c.justify₂] at h
    dsimp only at h
    split at h
    · rename_i hd
      rw [← Except.ok.inj h, heap_updateHqc]
      exact Or.inl (L.decided_descends W h₁ hd (Descends.single c.parent₁))
    · rename_i hd₁
      have l := lockStage W c.justify₃ (by simpa using hd₂) c.justify₂ (by simpa using hd₁)
      generalize lockAndWrite E p₁ (updateHqc p₂ (s.heap.get p).getJustifyQc s) = s₂ at h l
      have hcores := l.spec.core_eq
      rw [hcores.justify_eq, c.justify₁] at h
      dsimp only at h
      split at h
      · rename_i hd
        rw [← Except.ok.inj h]
        exact Or.inl hd
      · rw [hcores.parent_eq, c.parent₂, c.parent₁] at h
        simp only [ne_eq, not_true_eq_false, or_self, if_false] at h
        split at h
        · cases h
        · obtain ⟨tx, s₃, -, rfl⟩ := commitBlocks_ok l.wellFormed.collector h
          exact Or.inr rfl

/-! ## Own proposals that have been processed -/

/-- If the object has a direct chain below it, the end of the chain is decided. -/
def Handled (s : Replica V) (p : BlockPtr) : Prop :=
  ∀ p₂ p₁ p₀, s.heap.DirectChain p p₂ p₁ p₀ → (s.heap.get p₀).decided = true

theorem Handled.section {i : SectionInput V} {w w' : Midway V} {p : BlockPtr} (M : MidwayInv E w)
    (h : SectionForm E w i w') (hp : w.replica.heap.Settled p) (hh : Handled w.replica p) :
    Handled w'.replica p := by
  have S := M.wellFormed.shape
  intro p₂ p₁ p₀ c
  have c₀ := c.of_extends S (heap_section M h) hp
  have hset := S.settled_descends hp c₀.descends
  exact decided_section M h (S.lt_next_of_settled hset) (hh p₂ p₁ p₀ c₀)

/-- `update` handles its block. -/
theorem handled_update (W : WellFormed E s) (L : IndexLog s) {p : BlockPtr} (hp : s.heap.Settled p)
    (h : update E p s = .ok s') : Handled s' p := by
  obtain ⟨hup, W'⟩ := update_ok W h
  have L' : IndexLog s' := update_rule (I := IndexLog) IndexLog.frame
    (fun W c _ L => L.commit W c) W L h
  intro p₂ p₁ p₀ c
  rcases update_decides W L (c.of_extends W.shape hup.cores.extends hp) h with hd | hexec
  · exact hd
  · -- the new executed block is decided
    rw [← hexec]
    exact (L'.decided_iff _ (W'.shape.lt_next_of_settled W'.exec_settled)).mpr (Descends.refl _)

/-- The proposal event of every minted block is queued, or has been processed to its end. -/
def ProposalsHandled (E : Setup V) (s : Replica V) : Prop :=
  ∀ p ∈ s.minted, s.heap.Settled p ∧ (.proposal p E.selfId ∈ s.eventQueue ∨ Handled s p)

/-- Where nothing is minted. -/
theorem ProposalsHandled.keep (P : ProposalsHandled E s) (H : Heap.Extends s.heap s'.heap)
    (hminted : s'.minted = s.minted) (hhandled : ∀ p, s.heap.Settled p → Handled s p → Handled s' p)
    (hqueue : ∀ p, .proposal p E.selfId ∈ s.eventQueue →
      .proposal p E.selfId ∈ s'.eventQueue ∨ Handled s' p) : ProposalsHandled E s' := by
  intro p hp
  rw [hminted] at hp
  obtain ⟨hset, hqueued | hh⟩ := P p hp
  · exact ⟨H.settled hset, hqueue p hqueued⟩
  · exact ⟨H.settled hset, Or.inr (hhandled p hset hh)⟩

/-- A step that processes no proposal event. -/
theorem ProposalsHandled.step {i : Input} (P : ProposalsHandled E s) (W : WellFormed E s)
    (h : Hotstuff.step E i s = .ok s') (hhandled : ∀ p, s.heap.Settled p → Handled s p → Handled s' p)
    (hfront : ∀ schedule p rest, i = .event schedule →
      s.eventQueue ≠ .proposal p E.selfId :: rest) : ProposalsHandled E s' := by
  have H := heap_step W h
  have hqueue : ∀ p, .proposal p E.selfId ∈ s.eventQueue → .proposal p E.selfId ∈ s'.eventQueue := by
    intro p hp
    rcases eventQueue_step W h hp with hstays | ⟨schedule, rest, hi, hfirst⟩
    · exact hstays
    · exact absurd hfirst (hfront schedule p rest hi)
  cases leaf_step W h with
  | stay _ _ _ hminted => exact P.keep H hminted hhandled fun p hp => Or.inl (hqueue p hp)
  | raise _ _ _ hminted => exact P.keep H hminted hhandled fun p hp => Or.inl (hqueue p hp)
  | mint _ _ _ _ hminted hparent _ _ hevent =>
      intro p hp
      rw [hminted] at hp
      rcases List.mem_append.mp hp with hp | hp
      · obtain ⟨hset, hqueued | hh⟩ := P p hp
        · exact ⟨H.settled hset, Or.inl (hqueue p hqueued)⟩
        · exact ⟨H.settled hset, Or.inr (hhandled p hset hh)⟩
      · rw [List.mem_singleton.mp hp]
        exact ⟨Or.inr ⟨_, hparent⟩, Or.inl hevent⟩

/-- **Only the end of an event takes it from the queue**, and then its block is handled. -/
theorem ProposalsHandled.section {i : SectionInput V} {w w' : Midway V}
    (P : ProposalsHandled E w.replica) (M : MidwayInv E w) (L : IndexLog w.replica)
    (h : SectionForm E w i w') : ProposalsHandled E w'.replica := by
  have W := M.wellFormed
  have H := heap_section M h
  have hhandled : ∀ p, w.replica.heap.Settled p → Handled w.replica p → Handled w'.replica p :=
    fun p hset hh => hh.section M h hset
  cases h with
  | idle => exact P
  | input hi h => exact P.step W h hhandled fun schedule _ _ heq => absurd heq (hi schedule)
  | machine vm => exact P.keep H rfl hhandled fun p hp => Or.inl hp
  | voteEvent hqueue h =>
      refine P.step W h hhandled fun _ _ _ _ hfirst => ?_
      rw [hqueue] at hfirst
      cases hfirst
  | vote hqueue h =>
      have hminted := minted_voteOnProposal h
      refine P.keep H hminted hhandled fun p hp => Or.inl ?_
      rcases voteOnProposal_queue h with hsame | ⟨-, hsame⟩
      · rw [hsame]
        exact hp
      · rw [hsame]
        exact List.mem_append_left _ hp
  | raise _ _ _ =>
      refine P.keep H (minted_of_trace (updateHqc_trace _ _ _)) hhandled fun p hp => Or.inl ?_
      rw [(updateHqc_keeps _ _ _).2.2.2]
      exact hp
  | @finish _ schedule p rid rest s' hqueue h =>
      have W₀ := W.popEvent schedule hqueue
      have L₀ : IndexLog { w.replica with eventQueue := rest, schedule := schedule } :=
        L.frame W W₀ (Stays.of_sameCores (Heap.SameCores.refl _) rfl rfl rfl rfl fun _ => rfl)
      have he : Event.Ok w.replica.heap (.proposal p rid) := W.events _ (hqueue ▸ List.mem_cons_self)
      have hminted : s'.minted = w.replica.minted := ((closed_minted E _).update
        (s := { w.replica with eventQueue := rest, schedule := schedule }) p rfl).1 s' h
      refine P.keep H hminted hhandled fun x hx => ?_
      rw [hqueue] at hx
      rcases List.mem_cons.mp hx with hfirst | hrest
      · cases hfirst
        exact Or.inr (handled_update W₀ L₀ he.2 h)
      · left
        show _ ∈ s'.eventQueue
        rw [(update_ok W₀ h).1.frame.2.1]
        exact hrest

theorem proposalsHandled_of_reach {w : Midway V}
    (h : Reach (sectionStep E) anyInput (Midway.start E) w) :
    WellFormed E w.replica ∧ IndexLog w.replica ∧ ProposalsHandled E w.replica := by
  have hinv : MidwayInv E w ∧ IndexLog w.replica ∧ ProposalsHandled E w.replica := by
    refine h.invariant (I := fun w => MidwayInv E w ∧ IndexLog w.replica ∧ ProposalsHandled E w.replica)
      ⟨⟨WellFormed.start E, fun _ hstage => by cases hstage⟩, IndexLog.start E, ?_⟩ ?_
    · intro p hp
      cases hp
    · rintro t u i ⟨M, L, P⟩ - hstep
      have form := section_form M.raised hstep
      exact ⟨M.step form, section_rule (I := IndexLog) IndexLog.frame (fun W c _ L => L.commit W c) M L form,
        P.section M L form⟩
  exact ⟨hinv.1.wellFormed, hinv.2⟩

/-! ## The history below a block of the machine -/

/-- The replica has minted the block. -/
def Replica.Own (s : Replica V) (p : BlockPtr) : Prop :=
  ∃ m ∈ s.minted, s.heap.hash m = s.heap.hash p

/-- A block of the leaf's branch supports a non-empty child, its proposal event has been processed to its
end, and the replica has minted the branch from two blocks below it up to the leaf. -/
structure StableAt (E : Setup V) (s : Replica V) (a : BlockPtr) : Prop where
  minted : a ∈ s.minted
  branch : Descends s.heap.parent s.bLeaf a
  supports : s.heap.supportsNonemptyChildProposal E.selfId 3 a = true
  processed : .proposal a E.selfId ∉ s.eventQueue
  own : ∀ p, Descends s.heap.parent s.bLeaf p → s.heap.height a ≤ s.heap.height p + 2 → s.Own p

/-- Where `do_propose` asks for a non-empty block, the leader is stable at some block. -/
def AsksStable (E : Setup V) (s : Replica V) : Prop :=
  s.heap.supportsNonemptyChildProposal E.selfId 3 s.bLeaf = true → ∃ a, StableAt E s a

/-- Every block below the next one is the replica's own or decided. -/
def SettledHistory (s : Replica V) : Prop :=
  ∀ q, s.blockStore.blockCache (s.heap.hash s.bLeaf) = some q →
    ∀ p, Descends s.heap.parent q p → s.Own p ∨ (s.heap.get p).decided = true

theorem StableAt.settledHistory {a : BlockPtr} (A : StableAt E s a) (W : WellFormed E s)
    (L : IndexLog s) (P : ProposalsHandled E s) (N : NoCollision s) : SettledHistory s := by
  obtain ⟨hseta, hqueued | hhandled⟩ := P a A.minted
  · exact absurd hqueued A.processed
  obtain ⟨p₂, p₁, p₀, c⟩ := directChain_of_supports W.shape A.supports
  have hd := hhandled p₂ p₁ p₀ c
  have hheight := c.height_eq W.shape
  have hsetp₀ := W.shape.settled_descends hseta c.descends
  -- the branch of the leaf is own down to two below `a`, and decided from three below
  have hbranch : ∀ p, Descends s.heap.parent s.bLeaf p →
      s.Own p ∨ (s.heap.get p).decided = true := by
    intro p hp
    by_cases hle : s.heap.height a ≤ s.heap.height p + 2
    · exact Or.inl (A.own p hp hle)
    · have hp₀ : Descends s.heap.parent p₀ p :=
        W.forest.descends_of_height_le (A.branch.trans c.descends) hp (by omega)
      exact Or.inr (L.decided_descends W hsetp₀ hd hp₀)
  intro q hq p hp
  obtain ⟨hhash, hsetq⟩ := W.shape.cached hq
  rcases hr : s.heap.parent q with _ | r
  · -- the leaf is genesis
    obtain rfl := (descends_iff_of_root hr).mp hp
    have hgen : s.heap.parent s.bLeaf = none :=
      (N.parent_eq W hsetq W.leaf_settled hhash).symm.trans hr
    obtain rfl := (descends_iff_of_root hgen).mp A.branch
    rw [c.parent₃] at hgen
    cases hgen
  · rcases (descends_iff_of_parent hr).mp hp with rfl | hrp
    · left
      obtain ⟨m, hm, hmh⟩ := A.own s.bLeaf (Descends.refl _)
        ((W.forest.height_le A.branch).trans (Nat.le_add_right _ _))
      exact ⟨m, hm, hmh.trans hhash.symm⟩
    · have hr' : s.heap.parent s.bLeaf = some r :=
        (N.parent_eq W hsetq W.leaf_settled hhash).symm.trans hr
      exact hbranch p (Descends.head hr' hrp)

/-- **Non-empty proposals on settled history.** In every reached state in which `do_propose` would ask
the machine for a block, between two events or in the middle of one, every ancestor of the new block is
the replica's own or decided, provided that the leader is stable at some block of the leaf's branch. -/
theorem nonempty_on_settled_history {w : Midway V}
    (h : Reach (sectionStep E) anyInput (Midway.start E) w) (N : NoCollision w.replica)
    (hstable : AsksStable E w.replica)
    (hasks : w.replica.heap.supportsNonemptyChildProposal E.selfId 3 w.replica.bLeaf = true) :
    SettledHistory w.replica := by
  obtain ⟨W, L, P⟩ := proposalsHandled_of_reach h
  obtain ⟨a, A⟩ := hstable hasks
  exact A.settledHistory W L P N

/-! ### A leader that waits, and one that does not -/

namespace Instance

variable {α : Type}

/-- What a run of sections after a run of whole events shows through `f`. -/
def observeSections (E : Setup Unit) (inputs : List Input) (sections : List (SectionInput Unit))
    (f : Midway Unit → α) : Option α :=
  match runList (step E) inputs (Hotstuff.start E) with
  | .error _ => none
  | .ok s => (runList (sectionStep E) sections ⟨s, .fresh⟩).toOption.map f

theorem exists_of_observeSections {E : Setup Unit} {inputs : List Input}
    {sections : List (SectionInput Unit)} {f : Midway Unit → α} {a : α}
    (h : observeSections E inputs sections f = some a) :
    ∃ w, Reach (sectionStep E) anyInput (Midway.start E) w ∧ f w = a := by
  unfold observeSections at h
  rcases hs : runList (step E) inputs (Hotstuff.start E) with e | s
  · simp [hs] at h
  rcases hw : runList (sectionStep E) sections ⟨s, .fresh⟩ with e | w
  · simp [hs, hw, Except.toOption] at h
  simp only [hs, hw, Except.toOption, Option.map_some, Option.some.injEq] at h
  exact ⟨w, (reach_sections (Reach.of_runList (fun _ _ => trivial) hs)).trans
    (Reach.of_runList (fun _ _ => trivial) hw), h⟩

/-- The leader is stable at its leaf. -/
def stableCheck (E : Setup Unit) (s : Replica Unit) : Bool :=
  decide (s.bLeaf ∈ s.minted) && s.heap.supportsNonemptyChildProposal E.selfId 3 s.bLeaf &&
    decide (Event.proposal s.bLeaf E.selfId ∉ s.eventQueue) &&
    decide (2 < s.heap.height s.bLeaf) &&
    (trunk s.heap.parent s.heap.height s.bLeaf).all fun p =>
      decide (s.heap.height s.bLeaf ≤ s.heap.height p + 2 → p ∈ s.minted)

theorem stableAt_of_check {E : Setup Unit} {s : Replica Unit} (W : WellFormed E s)
    (h : stableCheck E s = true) : StableAt E s s.bLeaf := by
  simp only [stableCheck, Bool.and_eq_true, decide_eq_true_eq, List.all_eq_true] at h
  obtain ⟨⟨⟨⟨hminted, hsupports⟩, hprocessed⟩, hhigh⟩, hown⟩ := h
  refine ⟨hminted, Descends.refl _, hsupports, hprocessed, fun p hp hle => ?_⟩
  have hmem : p ∈ trunk s.heap.parent s.heap.height s.bLeaf :=
    W.forest.mem_trunk.mpr ⟨hp, by omega⟩
  exact ⟨p, hown p hmem hle, rfl⟩

/-- Below the next block there is one that was not minted here, and is decided or not. -/
def foreignCheck (decided : Bool) (s : Replica Unit) : Bool :=
  match s.blockStore.blockCache (s.heap.hash s.bLeaf) with
  | none => false
  | some q => (trunk s.heap.parent s.heap.height q).any fun p =>
      (s.heap.get p).decided == decided && s.minted.all fun m => s.heap.hash m != s.heap.hash p

theorem exists_of_foreignCheck {E : Setup Unit} {s : Replica Unit} (W : WellFormed E s) {decided : Bool}
    (h : foreignCheck decided s = true) :
    ∃ q, s.blockStore.blockCache (s.heap.hash s.bLeaf) = some q ∧ ∃ p, Descends s.heap.parent q p ∧
      ¬ s.Own p ∧ (s.heap.get p).decided = decided := by
  unfold foreignCheck at h
  rcases hq : s.blockStore.blockCache (s.heap.hash s.bLeaf) with _ | q
  · simp [hq] at h
  simp only [hq] at h
  obtain ⟨p, hp, hcheck⟩ := List.any_eq_true.mp h
  simp only [Bool.and_eq_true, beq_iff_eq, List.all_eq_true, bne_iff_ne] at hcheck
  exact ⟨q, rfl, p, (W.forest.mem_trunk.mp hp).1, fun ⟨m, hm, hhash⟩ => hcheck.2 m hm hhash, hcheck.1⟩

/-- A vote of another replica on the block `x` arrives and is processed. -/
def voteFrom (x : Hash) (rid : ReplicaID) : List Input :=
  [.voteMessage (PartialCertificate.create crypto x (BitVec.ofNat 512 rid)) rid,
    .netEvent (.vote (PartialCertificate.create crypto x (BitVec.ofNat 512 rid)) rid)]

/-- Replica 0 of four takes over after a block of replica 1: the votes on that block and on its own two
blocks arrive, and it proposes its third block. -/
def takesOver : List Input :=
  deliver 1 (blockOn 0#256 (certificate [] 0#256) []) 1 ++
  [1, 2, 3].flatMap (voteFrom 1#256) ++ List.replicate 3 (.event []) ++ [.doPropose] ++
  [1, 2, 3].flatMap (voteFrom 1001#256) ++ List.replicate 4 (.event []) ++ [.doPropose] ++
  [1, 2, 3].flatMap (voteFrom 1001001#256) ++ List.replicate 6 (.event []) ++ [.doPropose]

end Instance

/-- After the event of its third block the machine is asked for a block, and the block of replica 1 below
it is decided. -/
theorem nonempty_on_settled_history_four : ∃ w : Midway Unit,
    w.replica.heap.supportsNonemptyChildProposal 0 3 w.replica.bLeaf = true ∧
    SettledHistory w.replica ∧
    ∃ q, w.replica.blockStore.blockCache (w.replica.heap.hash w.replica.bLeaf) = some q ∧
      ∃ p, Descends w.replica.heap.parent q p ∧ ¬ w.replica.Own p ∧
        (w.replica.heap.get p).decided = true := by
  have hrun : Instance.observeSections (Instance.setup 4 0) Instance.takesOver
      (List.replicate 3 (.advance [])) (fun w =>
        (w.replica.heap.supportsNonemptyChildProposal 0 3 w.replica.bLeaf,
          Instance.noCollisionCheck w.replica, Instance.stableCheck (Instance.setup 4 0) w.replica,
          Instance.foreignCheck true w.replica)) = some (true, true, true, true) := by
    decide +kernel
  obtain ⟨w, hreach, hobs⟩ := Instance.exists_of_observeSections hrun
  simp only [Prod.mk.injEq] at hobs
  obtain ⟨hasks, hapart, hstable, hforeign⟩ := hobs
  have W := (proposalsHandled_of_reach hreach).1
  exact ⟨w, hasks, nonempty_on_settled_history hreach (Instance.noCollision_of_check hapart)
    (fun _ => ⟨_, Instance.stableAt_of_check W hstable⟩) hasks, Instance.exists_of_foreignCheck W hforeign⟩

/-- Half-way through the event of the third block the machine is asked as well, and the block of replica 1
is not decided. -/
theorem asks_on_unsettled_history : ¬ ∀ w : Midway Unit,
    Reach (sectionStep (Instance.setup 4 0)) anyInput (Midway.start (Instance.setup 4 0)) w →
      NoCollision w.replica →
      w.replica.heap.supportsNonemptyChildProposal 0 3 w.replica.bLeaf = true →
      SettledHistory w.replica := by
  intro hall
  have hrun : Instance.observeSections (Instance.setup 4 0) Instance.takesOver
      (List.replicate 2 (.advance [])) (fun w =>
        (w.replica.heap.supportsNonemptyChildProposal 0 3 w.replica.bLeaf,
          Instance.noCollisionCheck w.replica, Instance.foreignCheck false w.replica)) =
      some (true, true, true) := by
    decide +kernel
  obtain ⟨w, hreach, hobs⟩ := Instance.exists_of_observeSections hrun
  simp only [Prod.mk.injEq] at hobs
  obtain ⟨hasks, hapart, hforeign⟩ := hobs
  have W := (proposalsHandled_of_reach hreach).1
  obtain ⟨q, hq, p, hp, hown, hundecided⟩ := Instance.exists_of_foreignCheck W hforeign
  rcases hall w hreach (Instance.noCollision_of_check hapart) hasks q hq p hp with h | h
  · exact hown h
  · rw [hundecided] at h
    cases h

end Fred.Hotstuff
