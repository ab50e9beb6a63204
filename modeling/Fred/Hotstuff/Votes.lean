/-
# Fred.Hotstuff.Votes -- the votes of a replica

What a replica has passed to `do_vote` is read off its trace (`votes`). Only a proposal event adds to
it, and at most the one block the event is about (`step_proposal`); that holds of a step that throws as
well, since `update` runs after the vote. Two rules of consensus are settled from there: which blocks
a vote may be for (`vote_rule`), and at which heights votes are cast (`votes_increase`).
-/
import Fred.Hotstuff.CommitLog

namespace Fred.Hotstuff

open Fred.Forest Fred.Transition

variable {V : Type} {E : Setup V} {s s' : Replica V}

/-- The state a call ends in, whether it returns or throws. -/
def Result.state : Result V → Replica V
  | .ok s => s
  | .error (_, s) => s

@[simp] theorem Result.state_ok (s : Replica V) : Result.state (.ok s : Result V) = s := rfl

@[simp] theorem Result.state_error (e : Exn) (s : Replica V) :
    Result.state (.error (e, s) : Result V) = s := rfl

/-- The block of a vote and the height it is cast at. -/
def Effect.vote? : Effect → Option (BlockPtr × ℕ)
  | .voted block height _ _ => some (block, height)
  | _ => none

namespace Replica

/-- The blocks passed to `do_vote` so far, first vote first, each with its height. -/
def votes (s : Replica V) : List (BlockPtr × ℕ) := s.trace.filterMap Effect.vote?

/-- The vote test of `on_receive_proposal` past the height test. -/
def Supports (s : Replica V) (bnew : BlockPtr) : Prop :=
  ∃ j, s.heap.justify bnew = some j ∧
    (s.heap.height s.bLock < s.heap.height j ∨ Descends s.heap.parent bnew s.bLock)

/-- The trace has grown by effects that are no votes. -/
def Silent (s s' : Replica V) : Prop :=
  ∃ effs, s'.trace = s.trace ++ effs ∧ ∀ e ∈ effs, e.vote? = none

namespace Silent

theorem of_eq (h : s'.trace = s.trace) : Silent s s' := ⟨[], by simp [h], by simp⟩

theorem trans {s'' : Replica V} (h : Silent s s') (h' : Silent s' s'') : Silent s s'' := by
  obtain ⟨effs, htr, hno⟩ := h
  obtain ⟨effs', htr', hno'⟩ := h'
  refine ⟨effs ++ effs', by rw [htr', htr, List.append_assoc], ?_⟩
  intro e he
  exact (List.mem_append.mp he).elim (hno e) (hno' e)

theorem emit {e : Effect} (he : e.vote? = none) (h : Silent s s') : Silent s (s'.emit e) := by
  apply h.trans
  exact ⟨[e], rfl, by simpa using he⟩

theorem votes_eq (h : Silent s s') : s'.votes = s.votes := by
  obtain ⟨effs, htr, hno⟩ := h
  have hnil : effs.filterMap Effect.vote? = [] := by simpa [List.filterMap_eq_nil_iff] using hno
  unfold votes
  rw [htr, List.filterMap_append, hnil, List.append_nil]

end Silent

/-! ## Where votes come from -/

theorem trace_pause (s : Replica V) : s.pause.trace = s.trace := by
  have hcollectN : ∀ (n : ℕ) (t : Replica V), (collectN n t).trace = t.trace := by
    intro n
    induction n with
    | zero => exact fun _ => rfl
    | succ n ih => exact fun t => ih t.collect
  unfold pause
  split
  · rfl
  · exact hcollectN _ _

theorem closed_silent (E : Setup V) (s₀ : Replica V) : Closed E (Silent s₀) where
  updateHqc := fun b qc h => h.trans (.of_eq (updateHqc_trace b qc _))
  setLock := fun _ h => h
  pause := fun h => h.trans (.of_eq (trace_pause _))
  setWritten := fun _ h => h
  saveBlock := fun _ h => h.emit rfl
  decideBlock := fun _ h => h
  applied := fun _ h => h.emit rfl
  setVm := fun _ h => h
  setExec := fun _ h => h
  setIndex := fun _ h => h
  prune := fun _ h => h

/-- `update` casts no vote, whether it returns or throws. -/
theorem silent_update (E : Setup V) (nblk : BlockPtr) (s : Replica V) :
    Silent s (update E nblk s).state := by
  obtain ⟨hok, herr⟩ := (closed_silent E s).update nblk (.of_eq rfl)
  rcases hu : update E nblk s with ⟨e, s'⟩ | s'
  · exact herr e s' hu
  · exact hok s' hu

/-! ## The steps -/

/-- The effect of passing a block to `do_vote`. -/
def voteEffect (E : Setup V) (s : Replica V) (block : BlockPtr) (proposer : ReplicaID) : Effect :=
  .voted block (s.heap.height block)
    (PartialCertificate.create E.crypto (s.heap.hash block) E.secretKey) proposer

/-- `do_vote` records its block and then returns or throws. -/
theorem doVote_state (E : Setup V) (block : BlockPtr) (proposer : ReplicaID) (s : Replica V) :
    (doVote E block proposer s).state.trace = s.trace ++ [voteEffect E s block proposer] ∧
      (doVote E block proposer s).state.vheight = s.vheight := by
  unfold doVote
  dsimp only
  split
  · unfold validateAndAddEvent
    dsimp only
    split <;> exact ⟨rfl, rfl⟩
  · split <;> exact ⟨rfl, rfl⟩

/-- **The vote of a proposal event.** The block is passed to `do_vote` exactly when it is above
`vheight` and passes the vote test, and then `vheight` is its height cut to 32 bits. -/
theorem voteOnProposal_state (W : WellFormed E s) {bnew : BlockPtr} (proposer : ReplicaID)
    (hne : bnew ≠ genesisPtr) (hset : s.heap.Settled bnew) :
    (s.vheight.toNat < s.heap.height bnew ∧ s.Supports bnew ∧
      (voteOnProposal E bnew proposer s).state.trace =
        s.trace ++ [voteEffect E s bnew proposer] ∧
      (voteOnProposal E bnew proposer s).state.vheight = BitVec.ofNat 32 (s.heap.height bnew)) ∨
    (¬ (s.vheight.toNat < s.heap.height bnew ∧ s.Supports bnew) ∧
      voteOnProposal E bnew proposer s = .ok s) := by
  obtain ⟨j, o, hj, ho, hiff⟩ := opinion_spec W hne hset
  have hsup : o = true ↔ s.Supports bnew := by
    refine hiff.trans ⟨fun h => ⟨j, hj, h⟩, ?_⟩
    intro h
    obtain ⟨j', hj', h⟩ := h
    rw [hj] at hj'
    rwa [Option.some.inj hj']
  unfold voteOnProposal
  by_cases hlt : s.heap.height bnew > s.vheight.toNat
  · rw [if_pos hlt, ho]
    cases o with
    | true =>
        obtain ⟨htrace, hheight⟩ := doVote_state E bnew proposer
          { s with vheight := BitVec.ofNat 32 (s.heap.height bnew) }
        exact Or.inl ⟨hlt, hsup.mp rfl, htrace, hheight⟩
    | false =>
        refine Or.inr ⟨fun h => ?_, rfl⟩
        cases hsup.mpr h.2
  · rw [if_neg hlt]
    exact Or.inr ⟨fun h => hlt h.1, rfl⟩

theorem UpdateOk.vheight_eq {p : BlockPtr} (u : UpdateOk E p s s') : s'.vheight = s.vheight := by
  have hhqc : ∀ b qc, (updateHqc b qc s).vheight = s.vheight := by
    intro b qc
    unfold updateHqc
    split <;> rfl
  cases u with
  | early _ => rfl
  | hqcOnly _ _ _ => exact hhqc _ _
  | lockOnly l => exact l.spec.keeps.vheight_eq.trans (hhqc _ _)
  | commit c _ =>
      exact c.apply.keeps.vheight_eq.trans (c.lock.spec.keeps.vheight_eq.trans (hhqc _ _))

/-- What a step does to votes and voting height when it casts no vote. -/
def NoVote (s : Replica V) (r : Result V) : Prop :=
  Silent s r.state ∧ ∀ s', r = .ok s' → s'.vheight = s.vheight

theorem NoVote.of_state {r : Result V} (htrace : r.state.trace = s.trace)
    (hheight : r.state.vheight = s.vheight) : NoVote s r := by
  refine ⟨.of_eq htrace, ?_⟩
  rintro s' rfl
  exact hheight

theorem noVote_validateAndAddEvent (e : Event) : NoVote s (s.validateAndAddEvent e) := by
  unfold validateAndAddEvent
  split <;> split <;> exact .of_state rfl rfl

theorem noVote_acceptBlock {wire : HotstuffBlockWire} {source : ReplicaID}
    {event : BlockPtr → NetEvent} : NoVote s (acceptBlock E wire source event s) := by
  unfold acceptBlock
  dsimp only
  split <;> exact .of_state rfl rfl

theorem noVote_onNetEvent (e : NetEvent) : NoVote s (onNetEvent e s) := by
  have hins : ∀ p, (insertBlock p s).2.trace = s.trace ∧ (insertBlock p s).2.vheight = s.vheight :=
    fun _ => ⟨rfl, rfl⟩
  unfold onNetEvent
  split
  · split
    · exact .of_state rfl rfl
    · exact noVote_validateAndAddEvent _
  · rename_i blk proposer
    split
    · rename_i s₁ h₁
      have h := hins blk
      rw [h₁] at h
      exact .of_state h.1 h.2
    · rename_i s₁ h₁
      have h := hins blk
      rw [h₁] at h
      obtain ⟨hsilent, hheight⟩ := noVote_validateAndAddEvent (s := s₁) (.proposal blk proposer)
      exact ⟨(Silent.of_eq h.1).trans hsilent, fun s' hs' => (hheight s' hs').trans h.2⟩
  · exact .of_state rfl rfl

theorem noVote_onReceiveVote {cert : PartialCertificateWire} {b : BlockPtr} {rid : ReplicaID} :
    NoVote s (onReceiveVote E cert b rid s) := by
  unfold onReceiveVote
  dsimp only
  split
  · exact .of_state rfl rfl
  · split
    · unfold updateHqc
      split <;> exact .of_state rfl rfl
    · exact .of_state rfl rfl

theorem noVote_proposeBody {body : List UInt8} : NoVote s (proposeBody E body s) := by
  unfold proposeBody
  dsimp only
  split
  · exact .of_state rfl rfl
  · -- a proposal event is never refused with an exception
    unfold validateAndAddEvent
    dsimp only
    split
    · rename_i hadd
      split at hadd
      · cases hadd
      · cases hadd
    · rename_i s₁ hadd
      have hs₁ : s₁.trace = s.trace ∧ s₁.vheight = s.vheight := by
        split at hadd
        · obtain rfl := Except.ok.inj hadd
          exact ⟨rfl, rfl⟩
        · obtain rfl := Except.ok.inj hadd
          exact ⟨rfl, rfl⟩
      refine ⟨(Silent.of_eq hs₁.1).emit rfl, ?_⟩
      intro s' hs'
      rw [← Except.ok.inj hs']
      exact hs₁.2

/-- No input but an event casts a vote, and no event but a proposal. -/
theorem step_noVote (i : Input) (h : ∀ schedule p rid rest, i = .event schedule →
    s.eventQueue ≠ .proposal p rid :: rest) : NoVote s (step E i s) := by
  have hpropose : ∀ nonempty, NoVote s (proposeWith E nonempty s) := by
    intro nonempty
    unfold proposeWith
    split
    · exact .of_state rfl rfl
    · exact noVote_proposeBody
  cases i with
  | proposeMessage proposal proposer =>
      show NoVote s (receivePropose E proposal proposer s)
      unfold receivePropose
      split
      · exact .of_state rfl rfl
      · exact noVote_acceptBlock
  | voteMessage vote voter =>
      show NoVote s (receiveVote E vote voter s)
      unfold receiveVote
      split
      · exact .of_state rfl rfl
      · split
        · exact .of_state rfl rfl
        · split <;> exact .of_state rfl rfl
  | fetchResponse response sender =>
      show NoVote s (acceptBlock E response sender (.blockReceive · sender) s)
      exact noVote_acceptBlock
  | netEvent e =>
      show NoVote s (if e ∈ s.netEvents then onNetEvent e s else .ok s)
      split
      · exact noVote_onNetEvent e
      · exact .of_state rfl rfl
  | event schedule =>
      unfold step
      dsimp only
      split
      · exact .of_state rfl rfl
      · rename_i e rest hq
        cases e with
        | vote cert block rid => exact noVote_onReceiveVote
        | proposal p rid => exact absurd hq (h schedule p rid rest rfl)
  | doPropose => exact hpropose _
  | doEmptyPropose => exact hpropose _
  | collect => exact .of_state rfl rfl
  | runVm => exact .of_state rfl rfl

/-- An event that votes for `p`: the vote comes first in its trace. -/
structure Votes (E : Setup V) (s : Replica V) (schedule : List ℕ) (p : BlockPtr)
    (rid : ReplicaID) : Prop where
  height_lt : s.vheight.toNat < s.heap.height p
  supports : s.Supports p
  trace_eq : ∃ effs, (step E (.event schedule) s).state.trace =
    s.trace ++ voteEffect E s p rid :: effs ∧ ∀ e ∈ effs, e.vote? = none
  vheight_eq : ∀ s', step E (.event schedule) s = .ok s' →
    s'.vheight = BitVec.ofNat 32 (s.heap.height p)

theorem Votes.votes_eq {schedule : List ℕ} {p : BlockPtr} {rid : ReplicaID}
    (v : Votes E s schedule p rid) :
    (step E (.event schedule) s).state.votes = s.votes ++ [(p, s.heap.height p)] := by
  obtain ⟨effs, htr, hno⟩ := v.trace_eq
  have hnil : effs.filterMap Effect.vote? = [] := by simpa [List.filterMap_eq_nil_iff] using hno
  simp [votes, htr, hnil, voteEffect, Effect.vote?]

/-- **What a proposal event does to votes and voting height.** -/
theorem step_proposal (W : WellFormed E s) (schedule : List ℕ) {p : BlockPtr} {rid : ReplicaID}
    {rest : List Event} (hq : s.eventQueue = .proposal p rid :: rest) :
    Votes E s schedule p rid ∨
    (¬ (s.vheight.toNat < s.heap.height p ∧ s.Supports p) ∧
      NoVote s (step E (.event schedule) s)) := by
  have he : Event.Ok s.heap (.proposal p rid) := W.events _ (hq ▸ List.mem_cons_self)
  have W₀ := W.popEvent schedule hq
  have hstep : step E (.event schedule) s =
      onReceiveProposal E p rid { s with eventQueue := rest, schedule := schedule } := by
    unfold step
    rw [hq]
    rfl
  rcases voteOnProposal_state W₀ rid he.1 he.2 with
    ⟨hlt, hsup, htrace, hheight⟩ | ⟨hno, hv⟩
  · left
    refine ⟨hlt, hsup, ?_, ?_⟩
    · rw [hstep]
      unfold onReceiveProposal
      split
      · rename_i e hv
        rw [hv] at htrace
        exact ⟨[], htrace, by simp⟩
      · rename_i s₁ hv
        rw [hv] at htrace
        obtain ⟨effs, htr, hnone⟩ := silent_update E p s₁
        refine ⟨effs, ?_, hnone⟩
        rw [htr, show s₁.trace = _ from htrace, List.append_assoc]
        rfl
    · intro s' hs'
      rw [hstep] at hs'
      unfold onReceiveProposal at hs'
      split at hs'
      · cases hs'
      · rename_i s₁ hv
        have W₁ : WellFormed E s₁ := by
          rcases voteOnProposal_ok W₀ he.1 he.2 hv with v | ⟨rfl, -⟩
          · exact v.wellFormed W₀
          · exact W₀
        rw [hv] at hheight
        exact (update_ok W₁ hs').1.vheight_eq.trans hheight
  · refine Or.inr ⟨hno, ?_⟩
    rw [hstep]
    unfold onReceiveProposal
    rw [hv]
    exact ⟨silent_update E p _, fun s' hs' => (update_ok W₀ hs').1.vheight_eq⟩

end Replica

end Fred.Hotstuff
