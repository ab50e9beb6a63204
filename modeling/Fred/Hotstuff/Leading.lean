/-
# Fred.Hotstuff.Leading -- a round at the proposer

The proposer mints a block on its leaf, handles it as everybody does, and then counts votes. If its
leaf is the highest block it stores, the new block is stored nowhere yet, so all votes on it go to one
certificate (`lead_ok`). While votes are counted the tree stays as it is; as soon as they make a
quorum, the certificate on the new block is the highest one (`Counting`).
-/
import Fred.Hotstuff.Following
import Fred.Hotstuff.SelfVotes

namespace Fred.Hotstuff

open Fred.Forest Fred.Transition Replica

variable {V : Type} {E : Setup V} {s s' t : Replica V} {K : Set HotstuffBlockHeader}

/-! ## The proposal -/

/-- The replica can propose: it is ready for its own next block, and its leaf is the highest block it
stores. -/
structure Leads (E : Setup V) (K : Set HotstuffBlockHeader) (j : BlockPtr) (s : Replica V) : Prop where
  ready : Ready E K (s.heap.hash s.bLeaf) s.hqc.2.justify s.bLeaf j s
  top : ∀ x p, s.blockStore.blockCache x = some p → s.heap.height p ≤ s.heap.height s.bLeaf

/-- The highest certified block is as high as the stored object of its hash. -/
theorem Standing.height_hqc (T : Standing E K s) (C : Circulation E.crypto K) {j : BlockPtr}
    (hj : s.blockStore.blockCache s.hqc.2.justify = some j) :
    s.heap.height s.hqc.1 = s.heap.height j := by
  have W := T.wellFormed
  obtain ⟨hhash, hset⟩ := W.shape.cached hj
  have hpath := path_eq_of_hash_eq W T.regular W T.regular C rfl W.hqc_settled hset
    (W.hqc_hash.symm.trans hhash.symm)
  rw [← W.length_path (p := s.hqc.1), ← W.length_path (p := j), hpath]

/-- What the proposer has done when it has handled its own block `p`. -/
structure Led (E : Setup V) (K : Set HotstuffBlockHeader) (j p : BlockPtr) (s s' : Replica V) :
    Prop where
  followed : Followed E K (s'.heap.hash p) s.bLeaf j p s s'
  leaf_eq : s'.bLeaf = p
  hqc_eq : s'.hqc = s.hqc
  hqc_lt : s'.heap.height s'.hqc.1 < s'.heap.height p
  top : ∀ x q, s'.blockStore.blockCache x = some q → s'.heap.height q ≤ s'.heap.height p
  wire : Sendable E K (s.heap.hash s.bLeaf) s.hqc.2.justify (s'.heap.get p).wireBlock
  hash_eq : E.crypto.hashHeader (s'.heap.get p).wireBlock.header = s'.heap.hash p
  no_votes : (s'.heap.get p).selfQc.sigs = []
  queue : s'.eventQueue = [] ∨ s'.eventQueue =
    [.vote (PartialCertificate.create E.crypto (s'.heap.hash p) E.secretKey) p E.selfId]
  own_vote : s.vheight.toNat < s'.heap.height p → s'.eventQueue =
    [.vote (PartialCertificate.create E.crypto (s'.heap.hash p) E.secretKey) p E.selfId]

/-- **The first half of a round at the proposer.** -/
theorem lead_ok (X : Keyed E) (C : Circulation E.crypto K) (hvm : E.vm.Returns) {j : BlockPtr}
    (L : Leads E K j s) {i : Input} (hi : i = .doPropose ∨ i = .doEmptyPropose)
    (hregular : RegularStep K E s i) :
    ∃ s', runList (step E) [i, .event []] s = .ok s' ∧ Led E K j s.heap.next s s' := by
  have T := L.ready.standing
  have W := T.wellFormed
  have hreturns : ∃ t, step E i s = .ok t := by
    rcases ht : step E i s with ⟨e, u⟩ | t
    · exfalso
      have hthrow : ∃ nonempty, proposeWith E nonempty s = .error (e, u) := by
        rcases hi with rfl | rfl
        · exact ⟨_, ht⟩
        · exact ⟨_, ht⟩
      obtain ⟨nonempty, hthrow⟩ := hthrow
      exact (proposeWith_throws W hthrow).2 hvm
    · exact ⟨t, rfl⟩
  obtain ⟨t, ht⟩ := hreturns
  have hform : ∃ body vm, t = ({ s with vm := vm } : Replica V).proposed E body s.bLeaf j := by
    cases step_form W ht with
    | @propose i nonempty body vm q j' _ _ hq hj =>
        obtain rfl : q = s.bLeaf := Option.some.inj (hq.symm.trans L.ready.parent)
        obtain rfl : j' = j := Option.some.inj (hj.symm.trans L.ready.justify)
        exact ⟨body, vm, rfl⟩
    | idle hidle =>
        rcases hi with rfl | rfl
        · exact absurd hidle id
        · exact absurd hidle id
    | _ => rcases hi with hi | hi <;> cases hi
  obtain ⟨body, vm, rfl⟩ := hform
  set p := s.heap.next with hp
  set t := ({ s with vm := vm } : Replica V).proposed E body s.bLeaf j with htdef
  have hnew := HotstuffBlock.isNew_mintBlock E.crypto body s.hqc.2 (s.heap.hash s.bLeaf) E.selfId
  have hpne : p ≠ genesisPtr := Nat.ne_of_gt W.shape.next_pos
  have hext := heap_step W ht
  have hcache : ∀ {x q}, s.blockStore.blockCache x = some q → t.blockStore.blockCache x = some q :=
    fun hq => cache_step W ht hq
  have hparent : t.heap.parent p = some s.bLeaf := Heap.parent_link_self _ _ _ _
  have hjustify : t.heap.justify p = some j := Heap.justify_link_self _ _ _ _
  have hheader : t.heap.header p = ⟨s.heap.hash s.bLeaf, s.hqc.2, E.crypto.hashBody body⟩ := by
    refine (Heap.header_link _ _ _ _ _).trans ?_
    show ((s.heap.alloc _).get s.heap.next).wireBlock.header = _
    rw [Heap.get_alloc_next]
    rfl
  have R : Regular K t := hregular t ht
  have T₁ := T.step X ht R
  have W₁ := T₁.wellFormed
  have hpset : t.heap.Settled p := Or.inr ⟨_, hparent⟩
  have hmem := W₁.header_mem R hpset hpne
  have hhash := W₁.hash_of_header hpset hpne
  -- the block is above all that is stored, so its hash is not
  have hfresh : s.blockStore.blockCache (t.heap.hash p) = none := by
    rcases hc : s.blockStore.blockCache (t.heap.hash p) with _ | c
    · rfl
    · exfalso
      obtain ⟨hchash, hcset⟩ := W.shape.cached hc
      obtain ⟨hcne, hcheader⟩ := W.header_eq T.regular C hcset hmem (hhash.symm.trans hchash.symm)
      have hlinks : s.Links c s.bLeaf j := by
        constructor
        · rw [hcheader, hheader]
          exact L.ready.parent
        · rw [hcheader, hheader]
          exact L.ready.justify
      have hle := L.top _ c hc
      rw [W.shape.height_parent (links_of_header W hcset hcne hlinks).1] at hle
      omega
  have hstore : t.blockStore.blockCache = (s.blockStore.emplace (t.heap.hash p) p).blockCache := by
    have hkey : t.heap.hash p = (({ s with vm := vm } : Replica V).withMinted E body).heap.hash p :=
      Heap.hash_link _ _ _ _ _
    rw [hkey]
    rfl
  have hstored : t.blockStore.blockCache (t.heap.hash p) = some p := by
    rw [hstore]
    unfold BlockStore.emplace
    simp [hfresh]
  have hpheight : t.heap.height p = s.heap.height s.bLeaf + 1 := by
    rw [W₁.shape.height_parent hparent, hext.height_eq W.leaf_settled]
  have htop : ∀ x q, t.blockStore.blockCache x = some q → t.heap.height q ≤ t.heap.height p := by
    intro x q hq
    rw [hstore] at hq
    rcases BlockStore.blockCache_emplace_cases hq with hold | ⟨-, rfl, -⟩
    · rw [hext.height_eq (W.shape.cached hold).2, hpheight]
      exact Nat.le_succ_of_le (L.top x q hold)
    · exact Nat.le_refl _
  have hqueue : t.eventQueue = [.proposal p E.selfId] := by
    show s.eventQueue ++ _ = _
    rw [L.ready.idle]
    rfl
  have hlock : LockAllows t s.bLeaf j := by
    unfold LockAllows
    rw [show t.bLock = s.bLock from rfl, hext.height_eq W.lock_settled,
      hext.height_eq (W.shape.cached L.ready.justify).2]
    exact L.ready.lock.imp_right hext.descends
  have hexec : Descends t.heap.parent s.bLeaf t.bExec := hext.descends L.ready.exec
  have hhqc : t.heap.height t.hqc.1 = t.heap.height j :=
    T₁.height_hqc C (hcache L.ready.justify)
  obtain ⟨s₁, s', hs', hstep⟩ := proposal_returns [] T₁ C hvm hqueue hparent hexec
  obtain ⟨F, hraise, hqueue'⟩ := hstep.frame W₁
  have T' := T₁.step X hs' (T₁.regular.sameCores F.cores)
  have hjlt := (W₁.justify_below_of_regular R C hjustify).2
  have hkeep : s'.hqc = s.hqc ∧ s'.bLeaf = p := by
    rcases hraise with ⟨h, h', -⟩ | ⟨blk2, h2, -, hlt, -, -⟩
    · exact ⟨h, h'⟩
    · obtain rfl : blk2 = j := Option.some.inj (h2.symm.trans hjustify)
      rw [hhqc] at hlt
      exact absurd hlt (Nat.lt_irrefl _)
  have hfollowed : Followed E K _ s.bLeaf j p s s' := hstep.followed T₁ T' C hext rfl hcache hparent
    hjustify hstored hparent hjustify hexec hlock
  have hhash' : s'.heap.hash p = t.heap.hash p := by rw [F.cores.hash_eq]
  have hheader' : s'.heap.header p = t.heap.header p := by rw [F.cores.header_eq]
  have hlt' : p < s'.heap.next := by
    rw [F.cores.next_eq]
    exact W₁.shape.lt_next_of_settled hpset
  have hunflushed : (s'.heap.get p).flushedFromMemory = false := by
    rcases hf : (s'.heap.get p).flushedFromMemory with _ | _
    · rfl
    · have hlow := (T'.bodies.flushed p hpne hlt' hf).2
      have hle := T'.wellFormed.forest.height_le hfollowed.exec
      omega
  refine ⟨s', ?_, ?_⟩
  · simp only [runList, ht, hs']
  · refine ⟨by rw [hhash']; exact hfollowed, hkeep.2, hkeep.1, ?_, ?_, ?_, ?_, ?_, ?_, ?_⟩
    · rw [hkeep.1, F.cores.height_eq, hpheight, show s.hqc = t.hqc from rfl, hhqc]
      omega
    · intro x q hq
      rw [F.cache_eq] at hq
      rw [F.cores.height_eq]
      exact htop x q hq
    · refine ⟨?_, ?_, ?_, T'.bodies.body p hpne hlt' hunflushed,
        T'.presentable.heap.headers p hpne hlt'⟩
      · show (s'.heap.header p).parentHash = _
        rw [hheader', hheader]
      · show (s'.heap.header p).qc.justify = _
        rw [hheader', hheader]
      · show s'.heap.header p ∈ K
        rw [hheader']
        exact hmem
    · show E.crypto.hashHeader (s'.heap.header p) = _
      rw [hheader', hhash', hhash]
    · rw [F.selfQc_eq]
      show ((((s.heap.alloc _).link p s.bLeaf j).get p)).selfQc.sigs = []
      rw [selfQc_link, hp, Heap.get_alloc_next]
      rfl
    · rw [hhash']
      rcases hqueue' with hq | ⟨-, hq⟩
      · exact Or.inl hq
      · exact Or.inr hq
    · intro habove
      rw [F.cores.height_eq] at habove
      rw [hhash']
      exact hstep.queue_voted W₁ hparent hjustify hlock habove

/-! ## Counting votes -/

/-- A vote message arrives, goes to the consensus thread and is handled. -/
def count (v : ReplicaID × PartialCertificateWire) : List Input :=
  [.voteMessage v.2 v.1, .netEvent (.vote v.2 v.1), .event []]

/-- The proposer of `p` has handled the votes of `voters` since state `s`. -/
structure Counting (E : Setup V) (K : Set HotstuffBlockHeader) (p : BlockPtr)
    (voters : Finset ReplicaID) (s t : Replica V) : Prop where
  standing : Standing E K t
  cores : Heap.SameCores s.heap t.heap
  cache_eq : t.blockStore.blockCache = s.blockStore.blockCache
  bExec_eq : t.bExec = s.bExec
  bLock_eq : t.bLock = s.bLock
  vheight_eq : t.vheight = s.vheight
  leaf_eq : t.bLeaf = p
  hqc : t.hqc = s.hqc ∨ t.hqc.1 = p
  quorum : (t.heap.get p).selfQc.hasQuorum E.config = true → t.hqc.1 = p
  voters : ∀ r ∈ voters, r ∈ (t.heap.get p).selfQc.voters

section
variable {p : BlockPtr} {voters : Finset ReplicaID}

/-- **A vote on `p` is counted**, and with the last of a quorum the certificate on `p` is the highest. -/
theorem Counting.vote (X : Keyed E) (D : Counting E K p voters s t)
    (hlt : s.heap.height s.hqc.1 < s.heap.height p) {cert : PartialCertificateWire}
    {rid : ReplicaID} (hq : t.eventQueue = [.vote cert p rid]) (hrid : E.config.isValidReplica rid) :
    ∃ t', step E (.event []) t = .ok t' ∧ t'.eventQueue = [] ∧
      Counting E K p (insert rid voters) s t' := by
  have W := D.standing.wellFormed
  have hok : Event.Ok t.heap (.vote cert p rid) := W.events _ (hq ▸ List.mem_singleton.mpr rfl)
  have hid := X.ids rid (ReplicaConfig.isValidReplica_iff.mp hrid)
  obtain ⟨t', ht'⟩ := onReceiveVote_returns (E := E)
    (s := { t with eventQueue := [], schedule := [] }) hok.2 hid
  have hstep : step E (.event []) t = .ok t' := by
    unfold step
    simp only [hq, onEvent]
    exact ht'
  obtain ⟨qc, hqc, rfl⟩ := StepForm.of_onReceiveVote ht'
  have hsame := voted_sameCores (E := E) (s := { t with eventQueue := [], schedule := [] }) hqc
  obtain ⟨hstore, -, hqueue⟩ :=
    voted_keeps (E := E) p qc { t with eventQueue := [], schedule := [] }
  have T' := D.standing.step X hstep (D.standing.regular.sameCores hsame)
  have hself : (({ t with eventQueue := [], schedule := [] } : Replica V).voted E p qc).heap.get p =
      { t.heap.get p with selfQc := qc } := by
    rw [heap_voted, heap_setSelfQc, Heap.get_modify_self]
  have hheight : t.heap.height = s.heap.height := D.cores.height_eq
  have hvoters : ∀ r ∈ insert rid voters, r ∈ qc.voters := by
    intro r hr
    apply (voters_addPartialCertificate hqc).mpr
    rcases Finset.mem_insert.mp hr with rfl | hr
    · exact Or.inl rfl
    · exact Or.inr (D.voters r hr)
  refine ⟨_, hstep, hqueue, ?_⟩
  -- where the certificate goes depends on whether the quorum is new
  unfold Replica.voted at T' hsame hself ⊢
  split at T'
  · rename_i hnew
    rw [if_pos hnew] at hsame hself ⊢
    have hH : (setSelfQc p qc { t with eventQueue := [], schedule := [] }).heap.height =
        t.heap.height := (label_setSelfQc (s := { t with eventQueue := [], schedule := [] })
      (QuorumCertificate.objHash_addPartialCertificate hqc)).height_eq
    rcases updateHqc_cases p qc (setSelfQc p qc { t with eventQueue := [], schedule := [] }) with
      ⟨hle, h⟩ | ⟨-, h⟩
    · rw [h] at T' hsame hself ⊢
      have hat : t.hqc.1 = p := by
        rcases D.hqc with hold | hat
        · rw [hH] at hle
          rw [show (setSelfQc p qc { t with eventQueue := [], schedule := [] }).hqc = t.hqc from rfl,
            hold, hheight] at hle
          exact absurd hlt (Nat.not_lt.mpr hle)
        · exact hat
      refine ⟨T', D.cores.trans hsame, D.cache_eq, D.bExec_eq, D.bLock_eq, D.vheight_eq, D.leaf_eq,
        Or.inr hat, fun _ => hat, fun r hr => ?_⟩
      rw [hself]
      exact hvoters r hr
    · rw [h] at T' hsame hself ⊢
      refine ⟨T', D.cores.trans hsame, D.cache_eq, D.bExec_eq, D.bLock_eq, D.vheight_eq, rfl,
        Or.inr rfl, fun _ => rfl, fun r hr => ?_⟩
      rw [hself]
      exact hvoters r hr
  · rename_i hold
    rw [if_neg hold] at hsame hself ⊢
    refine ⟨T', D.cores.trans hsame, D.cache_eq, D.bExec_eq, D.bLock_eq, D.vheight_eq, D.leaf_eq,
      D.hqc, fun hquorum => ?_, fun r hr => ?_⟩
    · rw [hself] at hquorum
      apply D.quorum
      by_contra hbefore
      apply hold
      rw [Bool.and_eq_true, Bool.not_eq_true']
      exact ⟨hquorum, by simpa using hbefore⟩
    · rw [hself]
      exact hvoters r hr

/-- A message with a vote on the stored block `p`. -/
theorem Counting.message (X : Keyed E) (D : Counting E K p voters s t)
    (hlt : s.heap.height s.hqc.1 < s.heap.height p) (hidle : t.eventQueue = [])
    (hstored : s.blockStore.blockCache (s.heap.hash p) = some p)
    {v : ReplicaID × PartialCertificateWire} {info : ReplicaInfo}
    (hinfo : E.config.getInfo v.1 = .ok info)
    (hvalid : PartialCertificate.validate E.crypto v.2 info = true)
    (hhash : v.2.hash = s.heap.hash p) :
    ∃ t', runList (step E) (count v) t = .ok t' ∧ t'.eventQueue = [] ∧
      Counting E K p (insert v.1 voters) s t' := by
  have hrid : E.config.isValidReplica v.1 = true := ReplicaConfig.isValidReplica_of_getInfo hinfo
  have h₁ : step E (.voteMessage v.2 v.1) t =
      .ok { t with netEvents := t.netEvents ++ [.vote v.2 v.1] } := by
    show receiveVote E v.2 v.1 t = _
    unfold receiveVote
    rw [hrid, hinfo]
    simp only [Bool.not_true, Bool.false_eq_true, if_false]
    rw [if_pos hvalid]
  have T₁ := D.standing.step X h₁ (D.standing.regular.sameCores (Heap.SameCores.refl _))
  have hcached : t.blockStore.blockCache v.2.hash = some p := by
    rw [D.cache_eq, hhash]
    exact hstored
  have h₂ : step E (.netEvent (.vote v.2 v.1)) { t with netEvents := t.netEvents ++ [.vote v.2 v.1] } =
      .ok (({ t with netEvents := t.netEvents ++ [.vote v.2 v.1] } : Replica V).enqueue
        (.vote v.2 p v.1)) := by
    have hmem : NetEvent.vote v.2 v.1 ∈ t.netEvents ++ [.vote v.2 v.1] :=
      List.mem_append_right _ (List.mem_singleton.mpr rfl)
    show (if _ ∈ t.netEvents ++ _ then onNetEvent _ _ else _) = _
    rw [if_pos hmem]
    unfold onNetEvent BlockStore.getBlock
    dsimp only
    rw [hcached]
    unfold validateAndAddEvent enqueue
    dsimp only
    split
    · rename_i hne
      exact absurd (D.standing.wellFormed.shape.cached hcached).1 hne
    · rfl
  have T₂ := T₁.step X h₂ (T₁.regular.sameCores (Heap.SameCores.refl _))
  have D₂ : Counting E K p voters s (({ t with
      netEvents := t.netEvents ++ [.vote v.2 v.1] } : Replica V).enqueue (.vote v.2 p v.1)) :=
    ⟨T₂, D.cores, D.cache_eq, D.bExec_eq, D.bLock_eq, D.vheight_eq, D.leaf_eq, D.hqc, D.quorum,
      D.voters⟩
  have hq : (({ t with netEvents := t.netEvents ++ [.vote v.2 v.1] } : Replica V).enqueue
      (.vote v.2 p v.1)).eventQueue = [.vote v.2 p v.1] := by
    show t.eventQueue ++ _ = _
    rw [hidle]
    rfl
  obtain ⟨t', ht', hidle', D'⟩ := D₂.vote X hlt hq hrid
  refine ⟨t', ?_, hidle', D'⟩
  unfold count
  simp only [runList, h₁, h₂, ht']

/-- Counting votes changes nothing of what was followed. -/
theorem Counting.followed {s₀ : Replica V} {z : Hash} {b j c : BlockPtr}
    (F : Followed E K z b j c s₀ s) (D : Counting E K p voters s t) : Followed E K z b j c s₀ t where
  standing := D.standing
  heap := F.heap.trans D.cores.extends
  cache := fun hq => by
    rw [D.cache_eq]
    exact F.cache hq
  stored := by
    rw [D.cache_eq]
    exact F.stored
  parent := by
    rw [D.cores.parent_eq]
    exact F.parent
  justify := by
    rw [D.cores.justify_eq]
    exact F.justify
  exec := by
    rw [D.cores.parent_eq, D.bExec_eq]
    exact F.exec
  lock := by
    unfold LockAllows
    rw [D.cores.height_eq, D.cores.parent_eq, D.bLock_eq]
    exact F.lock
  lock_lt := by
    rw [D.cores.height_eq, D.bLock_eq]
    exact F.lock_lt
  vheight_le := by
    rw [D.cores.height_eq, D.vheight_eq]
    exact F.vheight_le
  reaches := by
    intro blk1 blk
    rw [D.cores.justify_eq, D.cores.parent_eq, D.bExec_eq]
    exact F.reaches blk1 blk

/-- A checked vote on the hash. -/
def VoteOn (E : Setup V) (x : Hash) (v : ReplicaID × PartialCertificateWire) : Prop :=
  v.2.hash = x ∧ ∃ info, E.config.getInfo v.1 = .ok info ∧
    PartialCertificate.validate E.crypto v.2 info = true

/-- All messages of a list, one after another. -/
theorem Counting.messages (X : Keyed E) (hlt : s.heap.height s.hqc.1 < s.heap.height p)
    (hstored : s.blockStore.blockCache (s.heap.hash p) = some p)
    {votes : List (ReplicaID × PartialCertificateWire)} :
    ∀ {voters : Finset ReplicaID} {t : Replica V}, Counting E K p voters s t → t.eventQueue = [] →
      (∀ v ∈ votes, VoteOn E (s.heap.hash p) v) →
      ∃ t' voters', runList (step E) (votes.flatMap count) t = .ok t' ∧ t'.eventQueue = [] ∧
        Counting E K p voters' s t' ∧ voters ⊆ voters' ∧ ∀ v ∈ votes, v.1 ∈ voters' := by
  induction votes with
  | nil =>
      intro voters t D hidle _
      exact ⟨t, voters, rfl, hidle, D, subset_rfl, by simp⟩
  | cons v votes ih =>
      intro voters t D hidle hvotes
      obtain ⟨hhash, info, hinfo, hvalid⟩ := hvotes v List.mem_cons_self
      obtain ⟨t₁, ht₁, hidle₁, D₁⟩ := D.message X hlt hidle hstored hinfo hvalid hhash
      obtain ⟨t', voters', ht', hidle', D', hsub, hmem⟩ :=
        ih D₁ hidle₁ fun u hu => hvotes u (List.mem_cons_of_mem _ hu)
      refine ⟨t', voters', ?_, hidle', D', ?_, ?_⟩
      · rw [List.flatMap_cons, runList_append ht₁]
        exact ht'
      · exact (Finset.subset_insert _ _).trans hsub
      · intro u hu
        rcases List.mem_cons.mp hu with rfl | hu
        · exact hsub (Finset.mem_insert_self _ _)
        · exact hmem u hu

/-- **The second half of a round at the proposer**: its own vote, then those of the others. -/
theorem Led.count_ok (X : Keyed E) (hmajority : 0 < E.config.nmajority) {j : BlockPtr}
    {s₀ : Replica V} (D : Led E K j p s₀ s)
    {votes : List (ReplicaID × PartialCertificateWire)}
    (hvotes : ∀ v ∈ votes, VoteOn E (s.heap.hash p) v) :
    ∃ t voters, runList (step E) (.event [] :: votes.flatMap count) s = .ok t ∧
      t.eventQueue = [] ∧ Counting E K p voters s t ∧ (∀ v ∈ votes, v.1 ∈ voters) ∧
      (s₀.vheight.toNat < s.heap.height p → E.selfId ∈ voters) := by
  have hempty : (s.heap.get p).selfQc.hasQuorum E.config = false := by
    unfold QuorumCertificate.hasQuorum
    rw [D.no_votes]
    simpa using Nat.ne_of_gt hmajority
  have hself : E.config.isValidReplica E.selfId = true := X.isValidReplica
  have hstart : Counting E K p ∅ s s := by
    refine ⟨D.followed.standing, Heap.SameCores.refl _, rfl, rfl, rfl, rfl, D.leaf_eq, Or.inl rfl,
      fun hq => ?_, by simp⟩
    rw [hempty] at hq
    cases hq
  -- the replica's own vote comes first
  have hown : ∃ t voters, step E (.event []) s = .ok t ∧ t.eventQueue = [] ∧
      Counting E K p voters s t ∧ (s₀.vheight.toNat < s.heap.height p → E.selfId ∈ voters) := by
    rcases D.queue with hq | hq
    · refine ⟨s, ∅, ?_, hq, hstart, fun habove => ?_⟩
      · unfold step
        simp only [hq]
      · rw [D.own_vote habove] at hq
        cases hq
    · obtain ⟨t, ht, hidle, D'⟩ := hstart.vote X D.hqc_lt hq hself
      exact ⟨t, _, ht, hidle, D', fun _ => Finset.mem_insert_self _ _⟩
  obtain ⟨t₁, voters₁, ht₁, hidle₁, D₁, hown₁⟩ := hown
  obtain ⟨t, voters, ht, hidle, D', hsub, hmem⟩ :=
    D₁.messages X D.hqc_lt D.followed.stored hidle₁ hvotes
  refine ⟨t, voters, ?_, hidle, D', hmem, fun habove => hsub (hown₁ habove)⟩
  rw [runList, ht₁]
  exact ht

end

end Fred.Hotstuff
