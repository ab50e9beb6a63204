/-
# Fred.Hotstuff.Progress -- synchronous rounds

In a synchronous round the leader proposes and handles its block, every follower receives and handles
it, and the votes they send go back to the leader. If everybody has the leader's leaf and its highest
certified block and nobody has left the leaf's branch (`InStep`), the round goes through (`round_ok`),
and everybody is ready for the next. A round that begins with the leaf above all voting heights ends
with a certificate on the new block (`Rounded.chained`), and the fourth such round in a row commits
what the first proposed (`Rounded.executed`).
-/
import Fred.Hotstuff.Leading

namespace Fred.Hotstuff

open Fred.Forest Fred.Transition Replica

variable {V : Type}

namespace World

variable {N : System V} {w w₁ w' : World V} {ℓ : ReplicaID} {Q : List ReplicaID}

/-! ## A round -/

/-- Inputs that one replica takes one after another. -/
def act (r : ReplicaID) (is : List Input) : List Action := is.map (Action.mk r)

/-- The votes on `x` that were sent to `ℓ`, each with its sender. -/
def votesFor (ℓ : ReplicaID) (x : Hash) (Q : List ReplicaID) (w : World V) :
    List (ReplicaID × PartialCertificateWire) :=
  Q.filterMap fun q => ((w q).voteSent x ℓ).map fun cert => (q, cert)

/-- A synchronous round of `ℓ` with the followers `Q`: `ℓ` proposes (`i`) and handles its block, each
follower receives the broadcast and handles it, and `ℓ` handles its own vote, if it cast one, and those
it was sent. -/
def round (N : System V) (ℓ : ReplicaID) (Q : List ReplicaID) (i : Input) (w : World V) :
    Except (Exn × Replica V) (World V) :=
  match runList (step N) (act ℓ [i, .event []]) w with
  | .error e => .error e
  | .ok w₁ =>
    let wire := ((w₁ ℓ).heap.get (w₁ ℓ).bLeaf).wireBlock
    match runList (step N) (Q.flatMap fun q => act q (follow wire ℓ (w₁ q).heap.next)) w₁ with
    | .error e => .error e
    | .ok w₂ =>
      let votes := votesFor ℓ ((w₁ ℓ).heap.hash (w₁ ℓ).bLeaf) Q w₂
      runList (step N) (act ℓ (.event [] :: votes.flatMap count)) w₂

/-- What one replica does changes that replica alone. -/
theorem runList_act {r : ReplicaID} {is : List Input} : ∀ {w : World V} {s : Replica V},
    runList (Hotstuff.step (N.setup r)) is (w r) = .ok s →
    runList (step N) (act r is) w = .ok (Function.update w r s) := by
  induction is with
  | nil =>
      intro w s h
      rw [← Except.ok.inj h, Function.update_eq_self]
      rfl
  | cons i is ih =>
      intro w s h
      unfold runList at h
      split at h
      · cases h
      · rename_i t ht
        have hstep : step N ⟨r, i⟩ w = .ok (Function.update w r t) := by
          unfold step
          simp only [ht]
        have hnext := ih (w := Function.update w r t) (s := s)
          (by rw [Function.update_self]; exact h)
        rw [Function.update_idem] at hnext
        unfold act at hnext ⊢
        rw [List.map_cons, runList, hstep]
        exact hnext

/-- Each of several replicas does its part: what they do does not depend on the order. -/
theorem runList_each {f : ReplicaID → List Input} {g : ReplicaID → Replica V} :
    ∀ {Q : List ReplicaID} {w : World V}, Q.Nodup →
      (∀ q ∈ Q, runList (Hotstuff.step (N.setup q)) (f q) (w q) = .ok (g q)) →
      ∃ w', runList (step N) (Q.flatMap fun q => act q (f q)) w = .ok w' ∧
        (∀ q ∈ Q, w' q = g q) ∧ ∀ r, r ∉ Q → w' r = w r := by
  intro Q
  induction Q with
  | nil => exact fun {w} _ _ => ⟨w, rfl, by simp, fun _ _ => rfl⟩
  | cons q Q ih =>
      intro w hnodup hrun
      obtain ⟨hq, hQ⟩ := List.nodup_cons.mp hnodup
      have hfirst := runList_act (hrun q List.mem_cons_self)
      have hother : ∀ r, r ≠ q → Function.update w q (g q) r = w r := by
        intro r hr
        rw [Function.update_of_ne hr]
      obtain ⟨w', hw', hin, hout⟩ := ih (w := Function.update w q (g q)) hQ fun r hr => by
        rw [hother r fun heq => hq (by rw [← heq]; exact hr)]
        exact hrun r (List.mem_cons_of_mem _ hr)
      refine ⟨w', ?_, ?_, ?_⟩
      · rw [List.flatMap_cons, runList_append hfirst]
        exact hw'
      · intro r hr
        rcases List.mem_cons.mp hr with rfl | hr
        · rw [hout r hq, Function.update_self]
        · exact hin r hr
      · intro r hr
        rw [hout r fun hmem => hr (List.mem_cons_of_mem _ hmem)]
        exact hother r fun heq => hr (by rw [heq]; exact List.mem_cons_self)

/-! ## Ready for a round -/

/-- A leader and followers that are a quorum, sign with their configured keys and have machines whose
calls return. -/
structure Group (N : System V) (ℓ : ReplicaID) (Q : List ReplicaID) : Prop where
  nodup : Q.Nodup
  leader_not_mem : ℓ ∉ Q
  quorum : N.config.nmajority ≤ Q.length + 1
  keyed : ∀ r ∈ ℓ :: Q, Keyed (N.setup r)
  returns : ∀ r ∈ ℓ :: Q, (N.vm r).Returns

/-- The hash of the leader's leaf. -/
def leafHash (ℓ : ReplicaID) (w : World V) : Hash := (w ℓ).heap.hash (w ℓ).bLeaf

def leafHeight (ℓ : ReplicaID) (w : World V) : ℕ := (w ℓ).heap.height (w ℓ).bLeaf

/-- Everybody is ready for the leader's next block, and its leaf is the highest block it stores. -/
structure InStep (N : System V) (ℓ : ReplicaID) (Q : List ReplicaID) (w : World V) : Prop where
  ready : ∀ r ∈ ℓ :: Q, ∃ b j,
    Ready (N.setup r) N.blocks (leafHash ℓ w) (w ℓ).hqc.2.justify b j (w r)
  leaf_stored : (w ℓ).blockStore.blockCache (leafHash ℓ w) = some (w ℓ).bLeaf
  top : ∀ x p, (w ℓ).blockStore.blockCache x = some p → (w ℓ).heap.height p ≤ leafHeight ℓ w

/-- What a round leaves. -/
structure Rounded (N : System V) (ℓ : ReplicaID) (Q : List ReplicaID) (w w' : World V) : Prop where
  followed : ∀ r ∈ ℓ :: Q, ∃ b j c,
    (w r).blockStore.blockCache (leafHash ℓ w) = some b ∧
    (w r).blockStore.blockCache (w ℓ).hqc.2.justify = some j ∧
    Followed (N.setup r) N.blocks (leafHash ℓ w') b j c (w r) (w' r)
  idle : ∀ r ∈ ℓ :: Q, (w' r).eventQueue = []
  leaf_stored : (w' ℓ).blockStore.blockCache (leafHash ℓ w') = some (w' ℓ).bLeaf
  top : ∀ x p, (w' ℓ).blockStore.blockCache x = some p → (w' ℓ).heap.height p ≤ leafHeight ℓ w'
  hqc : (w' ℓ).hqc.2.justify = (w ℓ).hqc.2.justify ∨ (w' ℓ).hqc.2.justify = leafHash ℓ w'
  /-- If nobody has voted above the leaf before, everybody votes. -/
  certified : (∀ r ∈ ℓ :: Q, (w r).vheight.toNat ≤ leafHeight ℓ w) →
    (w' ℓ).hqc.2.justify = leafHash ℓ w'

/-! ## What a round does -/

/-- Two replicas that are ready for a block on the leaf have it at one height. -/
theorem InStep.height_eq (P : InStep N ℓ Q w) {r : ReplicaID} (hr : r ∈ ℓ :: Q) {b : BlockPtr}
    (hb : (w r).blockStore.blockCache (leafHash ℓ w) = some b) :
    (w r).heap.height b = leafHeight ℓ w := by
  obtain ⟨b', j, R⟩ := P.ready r hr
  obtain ⟨b₀, j₀, R₀⟩ := P.ready ℓ List.mem_cons_self
  have T := R.standing
  have T₀ := R₀.standing
  obtain ⟨hhash, hset⟩ := T.wellFormed.shape.cached hb
  have hpath := path_eq_of_hash_eq T.wellFormed T.regular T₀.wellFormed T₀.regular N.circulation rfl
    hset T₀.wellFormed.leaf_settled hhash
  rw [← T.wellFormed.length_path (p := b), hpath]
  exact T₀.wellFormed.length_path

/-- What a replica has executed is on the leader's branch. -/
theorem InStep.executed_branch (P : InStep N ℓ Q w) {r : ReplicaID} (hr : r ∈ ℓ :: Q) :
    (w r).heap.path (w r).bExec <:+ (w ℓ).heap.path (w ℓ).bLeaf := by
  obtain ⟨b, j, R⟩ := P.ready r hr
  obtain ⟨b₀, j₀, R₀⟩ := P.ready ℓ List.mem_cons_self
  have T := R.standing
  have T₀ := R₀.standing
  obtain ⟨hhash, hset⟩ := T.wellFormed.shape.cached R.parent
  have hpath := path_eq_of_hash_eq T.wellFormed T.regular T₀.wellFormed T₀.regular N.circulation rfl
    hset T₀.wellFormed.leaf_settled hhash
  rw [← hpath]
  exact T.wellFormed.path_suffix R.exec

/-- The votes the leader is handed are checked votes on the block. -/
theorem voteOn_of_mem {x : Hash} (hkeyed : ∀ q ∈ Q, Keyed (N.setup q))
    (hsent : ∀ q ∈ Q, Presentable (N.setup q) (w q)) {v : ReplicaID × PartialCertificateWire}
    (hv : v ∈ votesFor ℓ x Q w) : VoteOn (N.setup ℓ) x v := by
  unfold votesFor at hv
  obtain ⟨q, hq, hmap⟩ := List.mem_filterMap.mp hv
  obtain ⟨cert, hcert, rfl⟩ := Option.map_eq_some_iff.mp hmap
  obtain ⟨info, hinfo, hkey⟩ := (hkeyed q hq).key
  rw [voteSent_eq (hsent q hq) hcert]
  exact ⟨rfl, info, hinfo, hkey x⟩

/-- A round at a follower. -/
theorem follower_ok (G : Group N ℓ Q) (P : InStep N ℓ Q w) {wire : HotstuffBlockWire}
    (hwire : Sendable (N.setup ℓ) N.blocks (leafHash ℓ w) (w ℓ).hqc.2.justify wire)
    (hheight : leafHeight ℓ w + 1 < 2 ^ 32) {q : ReplicaID} (hq : q ∈ Q) :
    ∃ s', runList (Hotstuff.step (N.setup q)) (follow wire ℓ (w q).heap.next) (w q) = .ok s' ∧
      (∃ b j c, (w q).blockStore.blockCache (leafHash ℓ w) = some b ∧
        (w q).blockStore.blockCache (w ℓ).hqc.2.justify = some j ∧
        Followed (N.setup q) N.blocks (N.crypto.hashHeader wire.header) b j c (w q) s') ∧
      s'.eventQueue = [] ∧ ((w q).vheight.toNat ≤ leafHeight ℓ w →
        ∃ cert, s'.voteSent (N.crypto.hashHeader wire.header) ℓ = some cert) := by
  have hmem : q ∈ ℓ :: Q := List.mem_cons_of_mem _ hq
  obtain ⟨b, j, R⟩ := P.ready q hmem
  have hb := P.height_eq hmem R.parent
  have hne : ℓ ≠ q := by
    rintro rfl
    exact G.leader_not_mem hq
  have hvalid : N.config.isValidReplica ℓ = true := (G.keyed ℓ List.mem_cons_self).isValidReplica
  have hwire' : Sendable (N.setup q) N.blocks (leafHash ℓ w) (w ℓ).hqc.2.justify wire :=
    ⟨hwire.parentHash_eq, hwire.justify_eq, hwire.mem, hwire.body, hwire.passes⟩
  obtain ⟨s', c, hrun, F, hidle, hvote⟩ := follow_ok (G.keyed q hmem) N.circulation
    (G.returns q hmem) R hvalid hne hwire' (by rw [hb]; exact hheight)
  refine ⟨s', hrun, ⟨b, j, c, R.parent, R.justify, F⟩, hidle, fun hle => hvote ?_⟩
  rw [hb]
  exact Nat.lt_succ_of_le hle

/-- **A round goes through.** -/
theorem round_ok (G : Group N ℓ Q) (P : InStep N ℓ Q w) {i : Input}
    (hi : i = .doPropose ∨ i = .doEmptyPropose)
    (hregular : RegularStep N.blocks (N.setup ℓ) (w ℓ) i) :
    ∃ w', round N ℓ Q i w = .ok w' ∧ Rounded N ℓ Q w w' := by
  have hleader : ℓ ∈ ℓ :: Q := List.mem_cons_self
  have X := G.keyed ℓ hleader
  obtain ⟨b, j, R⟩ := P.ready ℓ hleader
  obtain rfl : b = (w ℓ).bLeaf := Option.some.inj (R.parent.symm.trans P.leaf_stored)
  have L : Leads (N.setup ℓ) N.blocks j (w ℓ) := ⟨R, P.top⟩
  obtain ⟨s₁, hs₁, D⟩ := lead_ok X N.circulation (G.returns ℓ hleader) L hi hregular
  set p := (w ℓ).heap.next with hp
  have hpheight : s₁.heap.height p = leafHeight ℓ w + 1 := by
    rw [D.followed.standing.wellFormed.shape.height_parent D.followed.parent,
      D.followed.heap.height_eq R.standing.wellFormed.leaf_settled]
    rfl
  have hplt : p < s₁.heap.next := D.followed.standing.wellFormed.shape.lt_next_of_settled
    (Or.inr ⟨_, D.followed.parent⟩)
  have hheight : leafHeight ℓ w + 1 < 2 ^ 32 := by
    rw [← hpheight]
    exact D.followed.standing.regular.height_lt p hplt
  have hlead := runList_act (N := N) hs₁
  -- the followers
  have hne : ∀ q ∈ Q, q ≠ ℓ := by
    rintro q hq rfl
    exact G.leader_not_mem hq
  have hfollow := fun q hq => follower_ok G P D.wire hheight (q := q) hq
  have : Nonempty (Replica V) := ⟨w ℓ⟩
  choose! g hrun hfollowed hidle hvote using hfollow
  obtain ⟨w₂, hw₂, hin, hout⟩ := runList_each (w := Function.update w ℓ s₁)
    (f := fun q => follow (s₁.heap.get p).wireBlock ℓ (Function.update w ℓ s₁ q).heap.next) (g := g)
    G.nodup fun q hq => by
      rw [Function.update_of_ne (hne q hq)]
      exact hrun q hq
  have hwℓ : w₂ ℓ = s₁ := by
    rw [hout ℓ G.leader_not_mem, Function.update_self]
  -- the votes
  have hvotes : ∀ v ∈ votesFor ℓ (s₁.heap.hash p) Q w₂, VoteOn (N.setup ℓ) (s₁.heap.hash p) v := by
    intro v hv
    refine voteOn_of_mem (fun q hq => G.keyed q (List.mem_cons_of_mem _ hq)) (fun q hq => ?_) hv
    obtain ⟨b, j, c, -, -, F⟩ := hfollowed q hq
    rw [hin q hq]
    exact F.standing.presentable
  have hmajority : 0 < N.config.nmajority := by
    have := N.quorums_meet
    omega
  obtain ⟨t, voters, ht, hidlet, C, hcounted, hown⟩ := D.count_ok X hmajority hvotes
  have hcount := runList_act (N := N) (r := ℓ) (w := w₂) (by rw [hwℓ]; exact ht)
  have hleaf : t.bLeaf = p := C.leaf_eq
  have hhash : t.heap.hash p = s₁.heap.hash p := by rw [C.cores.hash_eq]
  have hwhash : leafHash ℓ (Function.update w₂ ℓ t) = s₁.heap.hash p := by
    unfold leafHash
    rw [Function.update_self, hleaf, hhash]
  have hother : ∀ q ∈ Q, Function.update w₂ ℓ t q = g q := by
    intro q hq
    rw [Function.update_of_ne (hne q hq), hin q hq]
  have hqc_at : t.hqc.1 = p → t.hqc.2.justify = s₁.heap.hash p := by
    intro hat
    rw [C.standing.wellFormed.hqc_hash, hat, hhash]
  refine ⟨Function.update w₂ ℓ t, ?_, ?_, ?_, ?_, ?_, ?_, ?_⟩
  · unfold round
    rw [hlead]
    dsimp only
    rw [Function.update_self, D.leaf_eq, hw₂]
    exact hcount
  · intro r hr
    rw [hwhash]
    rcases List.mem_cons.mp hr with rfl | hr
    · rw [Function.update_self]
      exact ⟨_, j, p, R.parent, R.justify, C.followed D.followed⟩
    · rw [hother r hr, ← D.hash_eq]
      exact hfollowed r hr
  · intro r hr
    rcases List.mem_cons.mp hr with rfl | hr
    · rw [Function.update_self]
      exact hidlet
    · rw [hother r hr]
      exact hidle r hr
  · rw [hwhash, Function.update_self, C.cache_eq, hleaf]
    exact D.followed.stored
  · intro x q hq
    unfold leafHeight
    rw [Function.update_self, C.cache_eq] at hq
    rw [Function.update_self, C.cores.height_eq, hleaf]
    exact D.top x q hq
  · rw [hwhash, Function.update_self]
    rcases C.hqc with hold | hat
    · left
      rw [hold, D.hqc_eq]
    · exact Or.inr (hqc_at hat)
  · intro hbelow
    rw [hwhash, Function.update_self]
    apply hqc_at
    apply C.quorum
    have hnodup : (ℓ :: Q).Nodup := List.nodup_cons.mpr ⟨G.leader_not_mem, G.nodup⟩
    refine hasQuorum_of_voters (?_ : ∀ r ∈ (ℓ :: Q).toFinset, _) ?_
    · intro r hr
      apply C.voters
      rcases List.mem_cons.mp (List.mem_toFinset.mp hr) with rfl | hq
      · apply hown
        rw [hpheight]
        exact Nat.lt_succ_of_le (hbelow r hleader)
      · obtain ⟨cert, hcert⟩ := hvote r hq (hbelow r (List.mem_cons_of_mem _ hq))
        apply hcounted (r, cert)
        unfold votesFor
        refine List.mem_filterMap.mpr ⟨r, hq, ?_⟩
        rw [hin r hq, ← D.hash_eq]
        exact Option.map_eq_some_iff.mpr ⟨cert, hcert, rfl⟩
    · rw [List.toFinset_card_of_nodup hnodup]
      exact G.quorum

/-! ## What a round leaves -/

/-- `n` blocks in a row below `b` whose child is certified for them. -/
def Straight (h : Heap) : ℕ → BlockPtr → Prop
  | 0, _ => True
  | n + 1, b => ∃ a, h.parent b = some a ∧ h.justify b = some a ∧ Straight h n a

theorem Straight.mono {E : Setup V} {s s' : Replica V} (W : WellFormed E s)
    (H : Heap.Extends s.heap s'.heap) : ∀ {n : ℕ} {b : BlockPtr}, s.heap.Settled b →
      Straight s.heap n b → Straight s'.heap n b := by
  intro n
  induction n with
  | zero => exact fun _ _ => trivial
  | succ n ih =>
      rintro b hb ⟨a, hp, hj, hs⟩
      refine ⟨a, ?_, ?_, ih (W.shape.settled_parent hp) hs⟩
      · rw [H.parent_eq hb]
        exact hp
      · rw [H.justify_eq hb]
        exact hj

theorem Straight.le {h : Heap} {n : ℕ} : ∀ {m : ℕ} {b : BlockPtr}, m ≤ n → Straight h n b →
    Straight h m b := by
  induction n with
  | zero =>
      intro m b hle _
      obtain rfl : m = 0 := Nat.le_zero.mp hle
      trivial
  | succ n ih =>
      intro m b hle hs
      rcases m with _ | m
      · trivial
      · obtain ⟨a, hp, hj, hs⟩ := hs
        exact ⟨a, hp, hj, ih (Nat.le_of_succ_le_succ hle) hs⟩

/-- The leader holds a certificate on its leaf, and the `n` blocks below the leaf are certified by
their children, wherever the leaf is stored. -/
structure Chained (n : ℕ) (ℓ : ReplicaID) (Q : List ReplicaID) (w : World V) : Prop where
  fresh : (w ℓ).hqc.2.justify = leafHash ℓ w
  straight : ∀ r ∈ ℓ :: Q, ∀ b, (w r).blockStore.blockCache (leafHash ℓ w) = some b →
    Straight (w r).heap n b

theorem Chained.le {n m : ℕ} (C : Chained n ℓ Q w) (hle : m ≤ n) : Chained m ℓ Q w :=
  ⟨C.fresh, fun r hr b hb => (C.straight r hr b hb).le hle⟩

namespace Rounded

/-- **Everybody is ready for the next round**, whether the block got its certificate or not. -/
theorem inStep (h : Rounded N ℓ Q w w') : InStep N ℓ Q w' where
  ready := by
    intro r hr
    obtain ⟨b, j, c, -, hj, F⟩ := h.followed r hr
    rcases h.hqc with hold | hnew
    · refine ⟨c, j, F.standing, h.idle r hr, F.stored, ?_, F.exec, F.lock⟩
      rw [hold]
      exact F.cache hj
    · refine ⟨c, c, F.standing, h.idle r hr, F.stored, ?_, F.exec, Or.inl F.lock_lt⟩
      rw [hnew]
      exact F.stored
  leaf_stored := h.leaf_stored
  top := h.top

/-- The leaf is one higher, on the branch it was on. -/
theorem leaf (h : Rounded N ℓ Q w w') (P : InStep N ℓ Q w) :
    leafHeight ℓ w' = leafHeight ℓ w + 1 ∧
    (w ℓ).heap.path (w ℓ).bLeaf <:+ (w' ℓ).heap.path (w' ℓ).bLeaf := by
  obtain ⟨b, j, c, hb, -, F⟩ := h.followed ℓ List.mem_cons_self
  obtain ⟨_, _, R⟩ := P.ready ℓ List.mem_cons_self
  have W := R.standing.wellFormed
  have W' := F.standing.wellFormed
  obtain rfl : b = (w ℓ).bLeaf := Option.some.inj (hb.symm.trans P.leaf_stored)
  obtain rfl : c = (w' ℓ).bLeaf := Option.some.inj (F.stored.symm.trans h.leaf_stored)
  have hset := W.leaf_settled
  constructor
  · unfold leafHeight
    rw [W'.shape.height_parent F.parent, F.heap.height_eq hset]
  · have hkeep : (w' ℓ).heap.path (w ℓ).bLeaf = (w ℓ).heap.path (w ℓ).bLeaf :=
      path_eq_of_hash_eq W' F.standing.regular W R.standing.regular N.circulation rfl
        (W'.shape.settled_parent F.parent) hset (F.heap.hash_eq hset)
    rw [W'.path_of_parent F.parent, hkeep]
    exact List.suffix_cons _ _

/-- Nobody votes above the new leaf. -/
theorem vheight_le (h : Rounded N ℓ Q w w') {r : ReplicaID} (hr : r ∈ ℓ :: Q) :
    (w' r).vheight.toNat ≤ max (w r).vheight.toNat (leafHeight ℓ w') := by
  obtain ⟨b, j, c, -, -, F⟩ := h.followed r hr
  rw [← h.inStep.height_eq hr F.stored]
  exact F.vheight_le

/-- A round in which everybody votes lengthens the chain of certified blocks. -/
theorem chained (h : Rounded N ℓ Q w w') (P : InStep N ℓ Q w) {n : ℕ} (C : Chained n ℓ Q w)
    (hbelow : ∀ r ∈ ℓ :: Q, (w r).vheight.toNat ≤ leafHeight ℓ w) : Chained (n + 1) ℓ Q w' where
  fresh := h.certified hbelow
  straight := by
    intro r hr c' hc'
    obtain ⟨b, j, c, hb, hj, F⟩ := h.followed r hr
    obtain ⟨_, _, R⟩ := P.ready r hr
    rw [C.fresh] at hj
    obtain rfl : j = b := Option.some.inj (hj.symm.trans hb)
    obtain rfl : c' = c := Option.some.inj (hc'.symm.trans F.stored)
    have W := R.standing.wellFormed
    exact ⟨j, F.parent, F.justify,
      (C.straight r hr j hb).mono W F.heap (W.shape.cached hb).2⟩

/-- **The block of three rounds before is executed everywhere.** -/
theorem executed (h : Rounded N ℓ Q w w') (P : InStep N ℓ Q w) (C : Chained 2 ℓ Q w)
    {r : ReplicaID} (hr : r ∈ ℓ :: Q) :
    leafHeight ℓ w' ≤ (w' r).heap.height (w' r).bExec + 3 := by
  obtain ⟨b, j, c, hb, hj, F⟩ := h.followed r hr
  obtain ⟨_, _, R⟩ := P.ready r hr
  rw [C.fresh] at hj
  obtain rfl : j = b := Option.some.inj (hj.symm.trans hb)
  have W := R.standing.wellFormed
  have W' := F.standing.wellFormed
  have hset := (W.shape.cached hb).2
  obtain ⟨b₁, hp₁, hj₁, b₀, hp₀, hj₀, -⟩ := (C.straight r hr j hb).mono W F.heap hset
  have hbelow := W'.forest.height_le (F.reaches b₁ b₀ hj₁ hj₀ hp₁ hp₀)
  have hc := h.inStep.height_eq hr F.stored
  rw [W'.shape.height_parent F.parent, W'.shape.height_parent hp₁,
    W'.shape.height_parent hp₀] at hc
  omega

end Rounded

end World

end Fred.Hotstuff
