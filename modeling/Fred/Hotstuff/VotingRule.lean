/-
# Fred.Hotstuff.VotingRule -- what a vote promises

Two rules of `on_receive_proposal`, for every reachable state and every admitted proposal.

* The vote test looks at the height of the certified block, not at where that block is. A vote may
  support a branch that contains neither the lock nor the certified block (`vote_off_branch`); what a
  vote does promise is `vote_rule`.
* `vheight` has 32 bits and block heights have 64. Below `2 ^ 32` the heights of the votes increase
  (`votes_increase`); a vote at `2 ^ 32` sets `vheight` back to zero (`two_votes_at_one_height`).
-/
import Fred.Hotstuff.Votes

namespace Fred.Hotstuff

open Fred.Forest Fred.Transition Replica

variable {V : Type} {E : Setup V} {s s' : Replica V}

/-- Handling the next event passes `p` to `do_vote`. -/
def VotesFor (E : Setup V) (s : Replica V) (schedule : List ℕ) (p : BlockPtr) : Prop :=
  (step E (.event schedule) s).state.votes = s.votes ++ [(p, s.heap.height p)]

/-- **The voting rule.** A replica votes for a proposal exactly when it is above `vheight` and
descends from the lock or carries a certificate on a block above the lock. -/
theorem vote_rule (h : Reach (step E) anyInput (start E) s) {p : BlockPtr} {rid : ReplicaID}
    {rest : List Event} (hq : s.eventQueue = .proposal p rid :: rest) (schedule : List ℕ) :
    ∃ j, s.heap.justify p = some j ∧ s.heap.hash j = (s.heap.header p).qc.justify ∧
      (VotesFor E s schedule p ↔ s.vheight.toNat < s.heap.height p ∧
        (Descends s.heap.parent p s.bLock ∨ s.heap.height s.bLock < s.heap.height j)) := by
  obtain ⟨W, -⟩ := wellFormed_commitLog_of_reach h
  have he : Event.Ok s.heap (.proposal p rid) := W.events _ (hq ▸ List.mem_cons_self)
  obtain ⟨j, -, hj, -⟩ := opinion_spec W he.1 he.2
  have hsup : s.Supports p ↔
      (Descends s.heap.parent p s.bLock ∨ s.heap.height s.bLock < s.heap.height j) := by
    unfold Supports
    simp [hj, or_comm]
  refine ⟨j, hj, W.shape.hash_justify hj, ?_⟩
  unfold VotesFor
  rw [← hsup]
  rcases step_proposal W schedule hq with v | ⟨hno, hsilent, -⟩
  · simp [v.height_lt, v.supports, v.votes_eq]
  · simp [hno, hsilent.votes_eq]

/-! ### A vote off the branch -/

namespace Instance

/-- Replica 0 of four handles three rounds of replica 1 and locks the first block. Replica 3 has a
fork of three blocks without certificates, and proposes on top of it with the certificate on the
second block of the other branch. -/
def forkRun : List Input :=
  let none := certificate [] 0#256
  deliver 1 (blockOn 0#256 none []) 1 ++
  deliver 2 (blockOn 1#256 (certificate [0, 1, 2] 1#256) []) 1 ++
  deliver 3 (blockOn 1001#256 (certificate [0, 1, 2] 1001#256) []) 1 ++
  deliver 4 (blockOn 0#256 none [1]) 3 ++
  deliver 5 (blockOn 2#256 none []) 3 ++
  deliver 6 (blockOn 2001#256 none []) 3 ++
  (deliver 7 (blockOn 2001001#256 (certificate [0, 1, 2] 1001#256) []) 3).take 2

end Instance

/-- The vote test does not ask that the certified block is on the branch voted for. -/
theorem vote_off_branch : ¬ ∀ (s : Replica Unit) (p j : BlockPtr) (rid : ReplicaID)
    (rest : List Event) (schedule : List ℕ),
    Reach (step (Instance.setup 4 0)) anyInput (start (Instance.setup 4 0)) s →
    s.eventQueue = .proposal p rid :: rest → s.heap.justify p = some j →
    VotesFor (Instance.setup 4 0) s schedule p →
    Descends s.heap.parent p s.bLock ∨
      (Descends s.heap.parent p j ∧ s.heap.height s.bLock < s.heap.height j) := by
  intro hclaim
  have hrun : Instance.observe (Instance.setup 4 0) Instance.forkRun (fun s => decide
      (s.eventQueue = [.proposal 7 3] ∧ s.bLock = 1 ∧ s.heap.justify 7 = some 2 ∧
        s.heap.height 1 = 1 ∧ s.heap.height 2 = 2 ∧
        trunk s.heap.parent s.heap.height 7 = [7, 6, 5, 4] ∧
        (step (Instance.setup 4 0) (.event []) s).state.votes =
          s.votes ++ [(7, s.heap.height 7)])) = some true := by
    decide +kernel
  obtain ⟨s, hreach, hobs⟩ := Instance.exists_of_observe hrun
  obtain ⟨hq, hlock, hj, h1, h2, htrunk, hvote⟩ := of_decide_eq_true hobs
  have F := (wellFormed_commitLog_of_reach hreach).1.forest
  have habove : ∀ x, 0 < s.heap.height x → Descends s.heap.parent 7 x → x ∈ [7, 6, 5, 4] := by
    intro x hx hd
    rw [← htrunk]
    exact F.mem_trunk.mpr ⟨hd, hx⟩
  rcases hclaim s 7 2 3 [] [] hreach hq hj hvote with hd | ⟨hd, -⟩
  · rw [hlock] at hd
    have := habove 1 (by omega) hd
    simp at this
  · have := habove 2 (by omega) hd
    simp at this

/-- The replica of the fork run, before its last event. -/
theorem vote_rule_fork : ∃ (s : Replica Unit) (j : BlockPtr), s.heap.justify 7 = some j ∧
    s.heap.hash j = (s.heap.header 7).qc.justify ∧
    (VotesFor (Instance.setup 4 0) s [] 7 ↔ s.vheight.toNat < s.heap.height 7 ∧
      (Descends s.heap.parent 7 s.bLock ∨ s.heap.height s.bLock < s.heap.height j)) := by
  have hrun : Instance.observe (Instance.setup 4 0) Instance.forkRun Replica.eventQueue =
      some [.proposal 7 3] := by
    decide +kernel
  obtain ⟨s, hreach, hq⟩ := Instance.exists_of_observe hrun
  exact ⟨s, vote_rule hreach hq []⟩

/-! ## One vote at a height -/

/-- The votes of a replica are cast at increasing heights, so no two are at one height. -/
structure VotesIncrease (s : Replica V) : Prop where
  heights : (s.votes.map Prod.snd).Pairwise (· < ·)
  unique : ∀ p q n, (p, n) ∈ s.votes → (q, n) ∈ s.votes → p = q

theorem VotesIncrease.of_pairwise (h : (s.votes.map Prod.snd).Pairwise (· < ·)) :
    VotesIncrease s := by
  refine ⟨h, fun p q n hp hq => ?_⟩
  have hnodup : (s.votes.map Prod.snd).Nodup := h.imp Nat.ne_of_lt
  exact congrArg Prod.fst (List.inj_on_of_nodup_map hnodup hp hq rfl)

/-- If the next event is a proposal that gets a vote, then its height fits into `vheight`. -/
def NarrowVote (s : Replica V) (i : Input) : Prop :=
  ∀ schedule p rid rest, i = .event schedule → s.eventQueue = .proposal p rid :: rest →
    s.vheight.toNat < s.heap.height p → s.Supports p → s.heap.height p < 2 ^ 32

/-- The votes so far, and that none was above `vheight`. -/
structure VoteLog (s : Replica V) : Prop where
  increase : (s.votes.map Prod.snd).Pairwise (· < ·)
  le_vheight : ∀ v ∈ s.votes, v.2 ≤ s.vheight.toNat

namespace VoteLog

theorem pairwise_append {n : ℕ} (L : VoteLog s) (hlt : s.vheight.toNat < n) {p : BlockPtr} :
    ((s.votes ++ [(p, n)]).map Prod.snd).Pairwise (· < ·) := by
  rw [List.map_append, List.pairwise_append]
  refine ⟨L.increase, by simp, ?_⟩
  intro x hx y hy
  obtain ⟨v, hv, rfl⟩ := List.mem_map.mp hx
  have := L.le_vheight v hv
  simp only [List.map_cons, List.map_nil, List.mem_singleton] at hy
  omega

/-- One step, returned from or not. -/
theorem state (W : WellFormed E s) (L : VoteLog s) {i : Input} :
    ((step E i s).state.votes.map Prod.snd).Pairwise (· < ·) := by
  by_cases h : ∃ schedule p rid rest, i = .event schedule ∧ s.eventQueue = .proposal p rid :: rest
  · obtain ⟨schedule, p, rid, rest, rfl, hq⟩ := h
    rcases step_proposal W schedule hq with v | ⟨-, hsilent, -⟩
    · rw [v.votes_eq]
      exact L.pairwise_append v.height_lt
    · rw [hsilent.votes_eq]
      exact L.increase
  · have hno := step_noVote (E := E) i
      fun schedule p rid rest hi hq => h ⟨schedule, p, rid, rest, hi, hq⟩
    rw [hno.1.votes_eq]
    exact L.increase

theorem step {i : Input} (W : WellFormed E s) (L : VoteLog s) (hi : NarrowVote s i)
    (h : step E i s = .ok s') : VoteLog s' := by
  have hinc := L.state (i := i) W
  rw [h] at hinc
  refine ⟨hinc, ?_⟩
  by_cases hprop : ∃ schedule p rid rest, i = .event schedule ∧
      s.eventQueue = .proposal p rid :: rest
  · obtain ⟨schedule, p, rid, rest, rfl, hq⟩ := hprop
    rcases step_proposal W schedule hq with v | ⟨-, hsilent, hheight⟩
    · -- below `2 ^ 32` the assignment keeps the height
      have hnarrow := hi schedule p rid rest rfl hq v.height_lt v.supports
      have hnew : s'.vheight.toNat = s.heap.height p := by
        rw [v.vheight_eq s' h, BitVec.toNat_ofNat]
        exact Nat.mod_eq_of_lt hnarrow
      have hvotes := v.votes_eq
      rw [h] at hvotes
      intro w hw
      rw [hnew]
      rw [show s'.votes = _ from hvotes] at hw
      rcases List.mem_append.mp hw with hw | hw
      · exact (L.le_vheight w hw).trans v.height_lt.le
      · rw [List.mem_singleton.mp hw]
    · rw [h] at hsilent
      rw [hheight s' h, show s'.votes = _ from hsilent.votes_eq]
      exact L.le_vheight
  · have hno := step_noVote (E := E) i
      fun schedule p rid rest hi hq => hprop ⟨schedule, p, rid, rest, hi, hq⟩
    have hsilent := hno.1
    rw [h] at hsilent
    rw [hno.2 s' h, show s'.votes = _ from hsilent.votes_eq]
    exact L.le_vheight

end VoteLog

theorem wellFormed_voteLog_of_reach (h : Reach (step E) NarrowVote (start E) s) :
    WellFormed E s ∧ VoteLog s := by
  refine h.invariant (I := fun s => WellFormed E s ∧ VoteLog s) ⟨WellFormed.start E, ?_⟩ ?_
  · exact ⟨List.Pairwise.nil, fun v hv => absurd hv List.not_mem_nil⟩
  · intro t u i ht hi hs
    exact ⟨(step_cases ht.1 hs).1, ht.2.step ht.1 hi hs⟩

/-- **One vote at a height.** In a run whose votes are all below `2 ^ 32` they are cast at increasing
heights, up to and including a last step that throws. -/
theorem votes_increase (h : Reach (step E) NarrowVote (start E) s) :
    VotesIncrease s ∧ ∀ i, VotesIncrease (step E i s).state := by
  obtain ⟨W, L⟩ := wellFormed_voteLog_of_reach h
  exact ⟨.of_pairwise L.increase, fun i => .of_pairwise (L.state W)⟩

/-- The proposals in the queue are at heights that fit into `vheight`. -/
def Instance.narrowCheck (s : Replica Unit) (_ : Input) : Bool :=
  s.eventQueue.all fun e =>
    match e with
    | .vote _ _ _ => true
    | .proposal p _ => decide (s.heap.height p < 2 ^ 32)

theorem Instance.narrowVote_of_check (s : Replica Unit) (i : Input)
    (h : Instance.narrowCheck s i = true) : NarrowVote s i := by
  intro schedule p rid rest _ hq _ _
  unfold Instance.narrowCheck at h
  rw [hq, List.all_cons, Bool.and_eq_true] at h
  exact of_decide_eq_true h.1

/-- A single replica that votes for four blocks of its own. -/
theorem votes_increase_solo : ∃ s : Replica Unit, s.votes = [(1, 1), (2, 2), (3, 3), (4, 4)] ∧
    VotesIncrease s ∧ ∀ i, VotesIncrease (step (Instance.setup 1 0) i s).state := by
  have hrun : Instance.observeIf (Instance.setup 1 0) Instance.narrowCheck (Instance.soloRounds 4)
      votes = some [(1, 1), (2, 2), (3, 3), (4, 4)] := by
    decide +kernel
  obtain ⟨s, hreach, hvotes⟩ := Instance.exists_of_observeIf Instance.narrowVote_of_check hrun
  exact ⟨s, hvotes, votes_increase hreach⟩

/-! ### A chain as high as `vheight` is wide -/

namespace Instance

/-- Replica 0 of four, where the hash of a block is the sum of its parent's hash and the hash of its
body: a chain of empty blocks from genesis has the hashes 1, 2, 3, .. -/
def tallSetup : Setup Unit :=
  { setup 4 0 with crypto := { crypto with hashHeader := fun h => h.parentHash + h.bodyHash } }

/-- The block on hash `x` with the given body and no votes on anything. -/
def bareBlock (x : Hash) (body : List UInt8) : HotstuffBlockWire :=
  blockOn x (certificate [] 0#256) body

/-- What one delivery of a block above `vheight` does to a replica that has locked nothing. -/
structure Delivered (x : Hash) (body : List UInt8) (q p : BlockPtr) (s s' : Replica Unit) :
    Prop where
  reach : Reach (step tallSetup) anyInput (start tallSetup) s'
  queue : s'.eventQueue = []
  lock : s'.bLock = genesisPtr
  cache : ∀ y, s'.blockStore.blockCache y =
    if y = x + crypto.hashBody body then some p else s.blockStore.blockCache y
  height : s'.heap.height p = s.heap.height q + 1
  extends' : Heap.Extends s.heap s'.heap
  votes : s'.votes = s.votes ++ [(p, s.heap.height q + 1)]
  vheight : s'.vheight = BitVec.ofNat 32 (s.heap.height q + 1)

/-- The object made for a bare block that replica 1 sends. -/
def bareObject (x : Hash) (body : List UInt8) : HotstuffBlock :=
  HotstuffBlock.receiveBlock tallSetup.crypto (bareBlock x body) 1

theorem bareObject_justifyHash (x : Hash) (body : List UInt8) :
    (bareObject x body).getJustifyHash = 0#256 :=
  QuorumCertificate.objHash_ofWire _

theorem receive_bareBlock (x : Hash) (body : List UInt8) (s : Replica Unit) :
    step tallSetup (.proposeMessage (bareBlock x body) 1) s = .ok { s with
      heap := s.heap.alloc (bareObject x body)
      netEvents := s.netEvents ++ [.proposal s.heap.next 1] } := by
  have hvalid : tallSetup.config.isValidReplica 1 = true := by decide
  have hcheck : (bareObject x body).validateHotstuff tallSetup.crypto tallSetup.config =
      .ok true := by
    have hbody : (bareObject x body).validateHash tallSetup.crypto = true := beq_self_eq_true _
    unfold HotstuffBlock.validateHotstuff QuorumCertificate.verify
    have hgen : (bareObject x body).getJustifyQc.objHash = 0#256 := bareObject_justifyHash x body
    rw [hbody, if_neg (by simp), if_pos hgen]
  show receivePropose tallSetup (bareBlock x body) 1 s = _
  unfold receivePropose acceptBlock
  rw [hvalid]
  simp only [Bool.not_true, Bool.false_eq_true, if_false]
  rw [show HotstuffBlock.receiveBlock tallSetup.crypto (bareBlock x body) 1 = bareObject x body
    from rfl, hcheck]

theorem insert_bareBlock {s : Replica Unit} {x : Hash} (body : List UInt8) {q : BlockPtr}
    (hq : s.blockStore.blockCache x = some q)
    (hgen : s.blockStore.blockCache 0#256 = some genesisPtr) :
    step tallSetup (.netEvent (.proposal s.heap.next 1)) { s with
      heap := s.heap.alloc (bareObject x body)
      netEvents := s.netEvents ++ [.proposal s.heap.next 1] } = .ok { s with
        heap := (s.heap.alloc (bareObject x body)).link s.heap.next q genesisPtr
        blockStore :=
          (s.blockStore.emplace (x + crypto.hashBody body) s.heap.next).addBlock s.heap.next
        netEvents := s.netEvents ++ [.proposal s.heap.next 1]
        eventQueue := s.eventQueue ++ [.proposal s.heap.next 1] } := by
  have hins : s.blockStore.insertBlock (s.heap.alloc (bareObject x body)) s.heap.next =
      ((s.blockStore.emplace (x + crypto.hashBody body) s.heap.next).addBlock s.heap.next,
        (s.heap.alloc (bareObject x body)).link s.heap.next q genesisPtr, ⟨none, none⟩) := by
    unfold BlockStore.insertBlock
    rw [Heap.get_alloc_next, bareObject_justifyHash]
    have hparent : (bareObject x body).getParentHash = x := rfl
    simp only [hparent, hq, hgen]
    rfl
  have hheight : ((s.heap.alloc (bareObject x body)).link s.heap.next q genesisPtr).height
      s.heap.next ≠ 0 := by
    unfold Heap.height
    rw [Heap.core_link_self]
    exact Nat.succ_ne_zero _
  unfold step
  simp only [List.mem_append, List.mem_singleton, or_true, if_true]
  unfold onNetEvent insertBlock
  dsimp only
  rw [hins]
  unfold validateAndAddEvent
  simp [BlockStore.MissingDependencies.any, hheight]

theorem vote_bareBlock {s : Replica Unit} {p : BlockPtr}
    (hreach : Reach (step tallSetup) anyInput (start tallSetup) s)
    (hqueue : s.eventQueue = [.proposal p 1]) (hj : s.heap.justify p = some genesisPtr)
    (hlock : s.bLock = genesisPtr) (hlt : s.vheight.toNat < s.heap.height p) :
    step tallSetup (.event []) s = .ok { s with
      eventQueue := [], schedule := []
      vheight := BitVec.ofNat 32 (s.heap.height p)
      trace := s.trace ++ [.voted p (s.heap.height p)
        (PartialCertificate.create tallSetup.crypto (s.heap.hash p) tallSetup.secretKey) 1] } := by
  obtain ⟨W, L⟩ := wellFormed_commitLog_of_reach hreach
  have he : Event.Ok s.heap (.proposal p 1) := W.events _ (hqueue ▸ List.mem_singleton_self _)
  have hdecided : (s.heap.get genesisPtr).decided = true :=
    (L.decided_iff _ W.shape.next_pos).mpr (W.shape.descends_genesis W.exec_settled)
  have W₀ := W.popEvent [] hqueue
  obtain ⟨j, o, -, ho, hiff⟩ := opinion_spec W₀ he.1 he.2
  obtain rfl : o = true := hiff.mpr (Or.inr (hlock ▸ W.shape.descends_genesis he.2))
  have hvote : voteOnProposal tallSetup p 1 { s with eventQueue := [], schedule := [] } =
      .ok { s with
        eventQueue := [], schedule := []
        vheight := BitVec.ofNat 32 (s.heap.height p)
        trace := s.trace ++ [.voted p (s.heap.height p)
          (PartialCertificate.create tallSetup.crypto (s.heap.hash p) tallSetup.secretKey) 1] } := by
    unfold voteOnProposal
    rw [if_pos hlt, ho]
    rfl
  unfold step
  rw [hqueue]
  show onReceiveProposal tallSetup p 1 { s with eventQueue := [], schedule := [] } = _
  unfold onReceiveProposal
  rw [hvote]
  -- the certificate is on genesis, which is decided
  unfold update
  dsimp only
  rw [hj]
  simp [hdecided]

/-- Delivering a bare block that is above `vheight` and new to the store. -/
theorem deliver_bareBlock {s : Replica Unit} {x : Hash} {body : List UInt8} {q : BlockPtr}
    (hreach : Reach (step tallSetup) anyInput (start tallSetup) s) (hqueue : s.eventQueue = [])
    (hlock : s.bLock = genesisPtr) (hq : s.blockStore.blockCache x = some q)
    (hnew : s.blockStore.blockCache (x + crypto.hashBody body) = none)
    (hlt : s.vheight.toNat < s.heap.height q + 1) : ∃ p s', Delivered x body q p s s' := by
  obtain ⟨W, -⟩ := wellFormed_commitLog_of_reach hreach
  have h₁ := receive_bareBlock x body s
  have h₂ := insert_bareBlock body hq W.shape.cache_genesis
  have hne : q ≠ s.heap.next :=
    Nat.ne_of_lt (W.shape.lt_next_of_settled (W.shape.cached hq).2)
  have hheight : ((s.heap.alloc (bareObject x body)).link s.heap.next q genesisPtr).height
      s.heap.next = s.heap.height q + 1 := by
    have hq' : (s.heap.alloc (bareObject x body)).height q = s.heap.height q :=
      congrArg BlockCore.height (Shape.core_alloc_of_ne _ hne)
    rw [← hq']
    exact congrArg BlockCore.height (Heap.core_link_self _ _ _ _)
  have hj : ((s.heap.alloc (bareObject x body)).link s.heap.next q genesisPtr).justify
      s.heap.next = some genesisPtr := by
    unfold Heap.justify
    rw [Heap.core_link_self]
  have hextends : Heap.Extends s.heap
      ((s.heap.alloc (bareObject x body)).link s.heap.next q genesisPtr) := by
    refine ⟨Nat.le_succ _, fun p hp => ?_⟩
    have hp' := Nat.ne_of_lt (W.shape.lt_next_of_settled hp)
    rw [Heap.core_link_of_ne _ _ _ hp', Shape.core_alloc_of_ne _ hp']
  have hreach₂ := (hreach.tail trivial h₁).tail trivial h₂
  have h₃ := vote_bareBlock (p := s.heap.next) hreach₂ (by simp [hqueue]) hj hlock (hheight ▸ hlt)
  refine ⟨s.heap.next, _,
    { reach := hreach₂.tail trivial h₃, queue := rfl, lock := hlock, cache := ?_
      height := hheight, extends' := hextends, votes := ?_
      vheight := congrArg (BitVec.ofNat 32) hheight }⟩
  · intro y
    show (s.blockStore.emplace _ _).blockCache y = _
    unfold BlockStore.emplace
    simp [hnew]
  · simp [votes, Effect.vote?, hheight]

/-- A replica that has voted for a chain of `k` blocks. -/
structure Tall (k : ℕ) (s : Replica Unit) : Prop where
  reach : Reach (step tallSetup) anyInput (start tallSetup) s
  queue : s.eventQueue = []
  lock : s.bLock = genesisPtr
  top : ∃ p, s.blockStore.blockCache (BitVec.ofNat 256 k) = some p ∧ s.heap.height p = k
  fresh : ∀ x p, s.blockStore.blockCache x = some p → x.toNat ≤ k
  vheight : s.vheight.toNat = k

theorem toNat_ofNat_add {k n : ℕ} (hk : k + n < 2 ^ 256) :
    (BitVec.ofNat 256 k + BitVec.ofNat 256 n).toNat = k + n := by
  rw [← BitVec.ofNat_add, BitVec.toNat_ofNat, Nat.mod_eq_of_lt hk]

theorem exists_tall : ∀ k : ℕ, k < 2 ^ 32 → ∃ s, Tall k s := by
  intro k
  induction k with
  | zero =>
      intro _
      refine ⟨start tallSetup, Reach.refl _, rfl, rfl, ⟨genesisPtr, rfl, rfl⟩, ?_, rfl⟩
      intro x p hp
      by_cases hx : x = 0#256
      · simp [hx]
      · exact absurd hp (by simp [start, Replica.make, BlockStore.init, hx])
  | succ k ih =>
      intro hk
      obtain ⟨s, T⟩ := ih (by omega)
      obtain ⟨q, hq, hheight⟩ := T.top
      have hone : crypto.hashBody [] = BitVec.ofNat 256 1 := rfl
      have hnat : (BitVec.ofNat 256 k + crypto.hashBody []).toNat = k + 1 := by
        rw [hone]
        exact toNat_ofNat_add (by omega)
      have hnew : s.blockStore.blockCache (BitVec.ofNat 256 k + crypto.hashBody []) = none := by
        rcases hc : s.blockStore.blockCache (BitVec.ofNat 256 k + crypto.hashBody []) with _ | p
        · rfl
        · have := T.fresh _ _ hc
          omega
      obtain ⟨p, s', D⟩ := deliver_bareBlock T.reach T.queue T.lock hq hnew
        (by rw [T.vheight, hheight]; omega)
      refine ⟨s', D.reach, D.queue, D.lock, ⟨p, ?_, ?_⟩, ?_, ?_⟩
      · rw [D.cache, BitVec.ofNat_add, hone]
        simp
      · rw [D.height, hheight]
      · intro x r hr
        rw [D.cache] at hr
        split at hr
        · rename_i hx
          rw [hx, hnat]
        · exact (T.fresh x r hr).trans (Nat.le_succ k)
      · rw [D.vheight, hheight, BitVec.toNat_ofNat]
        exact Nat.mod_eq_of_lt hk

/-- Two blocks of height `2 ^ 32` get a vote, one after the other. -/
theorem exists_two_votes : ∃ (s : Replica Unit) (v : List (BlockPtr × ℕ)) (p q : BlockPtr),
    Reach (step tallSetup) anyInput (start tallSetup) s ∧
      s.votes = v ++ [(p, 2 ^ 32), (q, 2 ^ 32)] ∧ p ≠ q := by
  obtain ⟨s, T⟩ := exists_tall (2 ^ 32 - 1) (by omega)
  obtain ⟨t, ht, hheight⟩ := T.top
  generalize hx : BitVec.ofNat 256 (2 ^ 32 - 1) = x at ht
  have hone : (x + crypto.hashBody []).toNat = 2 ^ 32 := by
    rw [← hx]
    exact toNat_ofNat_add (n := 1) (by omega)
  have htwo : (x + crypto.hashBody [1]).toNat = 2 ^ 32 + 1 := by
    rw [← hx]
    exact toNat_ofNat_add (n := 2) (by omega)
  have hnew : ∀ y : Hash, 2 ^ 32 - 1 < y.toNat → s.blockStore.blockCache y = none := by
    intro y hy
    rcases hc : s.blockStore.blockCache y with _ | p
    · rfl
    · have := T.fresh y p hc
      omega
  obtain ⟨p, s₁, D₁⟩ := deliver_bareBlock T.reach T.queue T.lock ht
    (hnew (x + crypto.hashBody []) (by omega)) (by rw [T.vheight, hheight]; omega)
  -- the assignment has cut the height to zero
  have hzero : s₁.vheight.toNat = 0 := by
    rw [D₁.vheight, hheight]
    rfl
  obtain ⟨W, -⟩ := wellFormed_commitLog_of_reach T.reach
  obtain ⟨W₁, -⟩ := wellFormed_commitLog_of_reach D₁.reach
  have hne : x + crypto.hashBody [1] ≠ x + crypto.hashBody [] := by
    intro h
    have := congrArg BitVec.toNat h
    omega
  have ht₁ : s₁.blockStore.blockCache x = some t := by
    rw [D₁.cache, if_neg, ht]
    intro h
    have := congrArg BitVec.toNat h
    have hxnat : x.toNat = 2 ^ 32 - 1 := by rw [← hx]; rfl
    omega
  have hheight₁ : s₁.heap.height t = 2 ^ 32 - 1 := by
    rw [D₁.extends'.height_eq (W.shape.cached ht).2, hheight]
  have hnew₁ : s₁.blockStore.blockCache (x + crypto.hashBody [1]) = none := by
    rw [D₁.cache, if_neg hne]
    exact hnew _ (by omega)
  obtain ⟨q, s₂, D₂⟩ := deliver_bareBlock D₁.reach D₁.queue D₁.lock ht₁ hnew₁
    (by rw [hzero]; omega)
  refine ⟨s₂, s.votes, p, q, D₂.reach, ?_, ?_⟩
  · rw [D₂.votes, D₁.votes, hheight₁, hheight]
    simp
  · rintro rfl
    obtain ⟨W₂, -⟩ := wellFormed_commitLog_of_reach D₂.reach
    have hp : s₂.blockStore.blockCache (x + crypto.hashBody []) = some p := by
      rw [D₂.cache, if_neg hne.symm, D₁.cache, if_pos rfl]
    have hq : s₂.blockStore.blockCache (x + crypto.hashBody [1]) = some p := by
      rw [D₂.cache, if_pos rfl]
    exact hne ((W₂.shape.cached hq).1.symm.trans (W₂.shape.cached hp).1)

end Instance

/-- With heights that do not fit into `vheight` a replica votes twice at one height. -/
theorem two_votes_at_one_height : ¬ ∀ s : Replica Unit,
    Reach (step Instance.tallSetup) anyInput (start Instance.tallSetup) s → VotesIncrease s := by
  intro hclaim
  obtain ⟨s, v, p, q, hreach, hvotes, hne⟩ := Instance.exists_two_votes
  have hp : (p, 2 ^ 32) ∈ s.votes := by simp [hvotes]
  have hq : (q, 2 ^ 32) ∈ s.votes := by simp [hvotes]
  exact hne ((hclaim s hreach).unique p q _ hp hq)

end Fred.Hotstuff
