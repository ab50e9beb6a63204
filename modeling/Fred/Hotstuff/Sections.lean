/-
# Fred.Hotstuff.Sections -- what can happen while an event is processed

`run` empties the queue before it processes the events, and of `on_event` only `update_hqc` takes
`proposal_mutex`, which `do_propose` holds from beginning to end. So a replica may propose when an event
is taken out of the queue and not processed yet, and also half-way. Here an event is processed in
sections, anything else happens between two of them (`sectionStep`), and an event stays at the front of
the queue until it has been processed to its end.

The sections of a proposal event end where `do_propose` can see the difference: the vote, the call of
`update_hqc`, the rest of `update`. A vote event is one section, since the certificate it adds to is not
the one a new block carries. What is decided in the last section only grows, so a proposal made inside it
has at least as much decided below it as one made before it. The machine may be found in any state
(`machine`): it can be in the middle of a call for the consensus thread.
-/
import Fred.Hotstuff.Leaf

namespace Fred.Hotstuff

open Fred.Forest Fred.Transition Replica

variable {V : Type} {E : Setup V} {s s' : Replica V}

/-! ## Sections -/

/-- `update` after the call of `update_hqc` for `blk2`. -/
def Replica.updateRest (E : Setup V) (blk2 : BlockPtr) (s : Replica V) : Result V :=
  match s.heap.justify blk2 with
  | none => .ok s
  | some blk1 =>
    if (s.heap.get blk1).decided then .ok s
    else
      let s := lockAndWrite E blk1 s
      match s.heap.justify blk1 with
      | none => .ok s
      | some blk =>
        if (s.heap.get blk).decided then .ok s
        -- commit requires direct parent
        else if s.heap.parent blk2 ≠ some blk1 ∨ s.heap.parent blk1 ≠ some blk then .ok s
        else
          match commitQueue blk s with
          | .error e => .error e
          | .ok queue => commitBlocks E blk1 blk queue s

theorem update_eq (E : Setup V) (nblk : BlockPtr) (s : Replica V) :
    update E nblk s = match s.heap.justify nblk with
      | none => .ok s
      | some blk2 =>
        if (s.heap.get blk2).decided then .ok s
        else updateRest E blk2 (updateHqc blk2 (s.heap.get nblk).getJustifyQc s) := rfl

/-- How far a proposal event has come. -/
inductive Stage where
  | fresh
  /-- The vote is cast, or not; `update` is called next. -/
  | voted
  /-- `update_hqc` has been called for `blk2`. -/
  | raised (blk2 : BlockPtr)
  deriving DecidableEq, Repr

/-- A replica and the event it is processing, which is the first of its queue. -/
structure Midway (V : Type) where
  replica : Replica V
  stage : Stage

inductive SectionInput (V : Type) where
  /-- Anything but the processing of an event. -/
  | input (i : Input)
  /-- The consensus thread runs the next section. -/
  | advance (schedule : List ℕ)
  /-- The machine gets into some state. -/
  | machine (vm : V)

/-- A section of the first event. -/
def advance (E : Setup V) (schedule : List ℕ) (w : Midway V) :
    Except (Exn × Replica V) (Midway V) :=
  match w.replica.eventQueue with
  | [] => .ok w
  | .vote cert block rid :: rest =>
    match onReceiveVote E cert block rid
      { w.replica with eventQueue := rest, schedule := schedule } with
    | .error e => .error e
    | .ok s => .ok ⟨s, .fresh⟩
  | .proposal p rid :: rest =>
    match w.stage with
    | .fresh =>
      match voteOnProposal E p rid { w.replica with schedule := schedule } with
      | .error e => .error e
      | .ok s => .ok ⟨s, .voted⟩
    | .voted =>
      -- the first two returns of `update` end the event
      match w.replica.heap.justify p with
      | none => .ok ⟨{ w.replica with eventQueue := rest }, .fresh⟩
      | some blk2 =>
        if (w.replica.heap.get blk2).decided then
          .ok ⟨{ w.replica with eventQueue := rest }, .fresh⟩
        else
          .ok ⟨updateHqc blk2 (w.replica.heap.get p).getJustifyQc w.replica, .raised blk2⟩
    | .raised blk2 =>
      match updateRest E blk2 { w.replica with eventQueue := rest, schedule := schedule } with
      | .error e => .error e
      | .ok s => .ok ⟨s, .fresh⟩

def sectionStep (E : Setup V) (i : SectionInput V) (w : Midway V) :
    Except (Exn × Replica V) (Midway V) :=
  match i with
  -- events are processed by `advance`
  | .input (.event _) => .ok w
  | .input i =>
    match step E i w.replica with
    | .error e => .error e
    | .ok s => .ok { w with replica := s }
  | .advance schedule => advance E schedule w
  | .machine vm => .ok { w with replica := { w.replica with vm := vm } }

def Midway.start (E : Setup V) : Midway V := ⟨Hotstuff.start E, .fresh⟩

/-! ## What a section has done -/

/-- Calling `update_hqc` again changes nothing. -/
theorem updateRest_eq_update {p blk2 : BlockPtr} (hj : s.heap.justify p = some blk2)
    (hd : (s.heap.get blk2).decided = false) (hle : s.heap.height blk2 ≤ s.heap.height s.hqc.1) :
    updateRest E blk2 s = update E p s := by
  have hsame : updateHqc blk2 (s.heap.get p).getJustifyQc s = s := by
    unfold updateHqc
    rw [if_neg (Nat.not_lt.mpr hle)]
  rw [update_eq, hj]
  simp only [hd, hsame, Bool.false_eq_true, if_false]

/-- `update` has called `update_hqc` for `blk2` and not returned. -/
structure Raised (s : Replica V) (blk2 : BlockPtr) : Prop where
  front : ∃ p rid rest, s.eventQueue = .proposal p rid :: rest ∧ s.heap.justify p = some blk2
  undecided : (s.heap.get blk2).decided = false
  height_le : s.heap.height blk2 ≤ s.heap.height s.hqc.1

/-- **What a step that returns has done.** -/
inductive SectionForm (E : Setup V) (w : Midway V) : SectionInput V → Midway V → Prop
  | idle {i : SectionInput V} : SectionForm E w i w
  | input {i : Input} {s' : Replica V} (hi : ∀ schedule, i ≠ .event schedule)
      (h : step E i w.replica = .ok s') : SectionForm E w (.input i) ⟨s', w.stage⟩
  | machine (vm : V) :
      SectionForm E w (.machine vm) ⟨{ w.replica with vm := vm }, w.stage⟩
  | voteEvent {schedule : List ℕ} {cert : PartialCertificateWire} {b : BlockPtr} {rid : ReplicaID}
      {rest : List Event} {s' : Replica V} (hqueue : w.replica.eventQueue = .vote cert b rid :: rest)
      (h : step E (.event schedule) w.replica = .ok s') :
      SectionForm E w (.advance schedule) ⟨s', .fresh⟩
  | vote {schedule : List ℕ} {p : BlockPtr} {rid : ReplicaID} {rest : List Event} {s' : Replica V}
      (hqueue : w.replica.eventQueue = .proposal p rid :: rest)
      (h : voteOnProposal E p rid { w.replica with schedule := schedule } = .ok s') :
      SectionForm E w (.advance schedule) ⟨s', .voted⟩
  | raise {schedule : List ℕ} {p blk2 : BlockPtr} {rid : ReplicaID} {rest : List Event}
      (hqueue : w.replica.eventQueue = .proposal p rid :: rest)
      (hjustify : w.replica.heap.justify p = some blk2)
      (hundecided : (w.replica.heap.get blk2).decided = false) :
      SectionForm E w (.advance schedule)
        ⟨updateHqc blk2 (w.replica.heap.get p).getJustifyQc w.replica, .raised blk2⟩
  /-- The last section: as far as the replica is concerned, all of `update` has been done. -/
  | finish {schedule c : List ℕ} {p : BlockPtr} {rid : ReplicaID} {rest : List Event}
      {s' : Replica V} (hqueue : w.replica.eventQueue = .proposal p rid :: rest)
      (h : update E p { w.replica with eventQueue := rest, schedule := c } = .ok s') :
      SectionForm E w (.advance schedule) ⟨s', .fresh⟩

theorem advance_form {schedule : List ℕ} {w w' : Midway V}
    (hraised : ∀ blk2, w.stage = .raised blk2 → Raised w.replica blk2)
    (h : advance E schedule w = .ok w') : SectionForm E w (.advance schedule) w' := by
  unfold advance at h
  split at h
  · rw [← Except.ok.inj h]
    exact .idle
  · rename_i cert b rid rest hqueue
    split at h
    · cases h
    · rename_i s' hs
      rw [← Except.ok.inj h]
      refine .voteEvent hqueue ?_
      unfold step
      rw [hqueue]
      exact hs
  · rename_i p rid rest hqueue
    split at h
    · split at h
      · cases h
      · rename_i s' hs
        rw [← Except.ok.inj h]
        exact .vote hqueue hs
    · split at h
      · rename_i hnone
        rw [← Except.ok.inj h]
        refine .finish (c := w.replica.schedule) hqueue ?_
        rw [update_eq]
        simp only [hnone]
      · rename_i blk2 hjustify
        split at h
        · rename_i hdecided
          rw [← Except.ok.inj h]
          refine .finish (c := w.replica.schedule) hqueue ?_
          rw [update_eq]
          simp only [hjustify, hdecided, if_true]
        · rename_i hundecided
          rw [← Except.ok.inj h]
          exact .raise hqueue hjustify (Bool.not_eq_true _ ▸ hundecided)
    · rename_i blk2 hstage
      split at h
      · cases h
      · rename_i s' hs
        rw [← Except.ok.inj h]
        obtain ⟨⟨p', rid', rest', hqueue', hjustify⟩, hundecided, hle⟩ := hraised blk2 hstage
        rw [hqueue] at hqueue'
        cases hqueue'
        refine .finish (c := schedule) hqueue ?_
        exact (updateRest_eq_update (s := { w.replica with eventQueue := rest, schedule := schedule })
          hjustify hundecided hle).symm.trans hs

theorem section_form {i : SectionInput V} {w w' : Midway V}
    (hraised : ∀ blk2, w.stage = .raised blk2 → Raised w.replica blk2)
    (h : sectionStep E i w = .ok w') : SectionForm E w i w' := by
  unfold sectionStep at h
  split at h
  · rw [← Except.ok.inj h]
    exact .idle
  · rename_i i hi
    split at h
    · cases h
    · rename_i s' hs
      rw [← Except.ok.inj h]
      exact .input (fun schedule heq => hi schedule heq) hs
  · exact advance_form hraised h
  · rename_i vm
    rw [← Except.ok.inj h]
    exact .machine vm

/-! ## What sections keep -/

/-- What is not the processing of an event appends to the event queue, and decides nothing. -/
theorem Raised.input {i : Input} {blk2 : BlockPtr} (R : Raised s blk2) (W : WellFormed E s)
    (hi : ∀ schedule, i ≠ .event schedule) (h : step E i s = .ok s') : Raised s' blk2 := by
  obtain ⟨⟨p, rid, rest, hqueue, hjustify⟩, hundecided, hle⟩ := R
  have H := heap_step W h
  have he : Event.Ok s.heap (.proposal p rid) := W.events _ (hqueue ▸ List.mem_cons_self)
  have hset := he.2
  have hset₂ := W.shape.settled_justify hjustify
  have hfront : ∃ new, s'.eventQueue = s.eventQueue ++ new := by
    cases step_form W h with
    | voteEvent => exact absurd rfl (hi _)
    | proposalEvent => exact absurd rfl (hi _)
    | netVote => exact ⟨_, rfl⟩
    | netProposal => exact ⟨_, rfl⟩
    | propose => exact ⟨_, rfl⟩
    | collect => exact ⟨[], by rw [(collect_spec W.collector).keeps.eventQueue_eq, List.append_nil]⟩
    | _ => exact ⟨[], (List.append_nil _).symm⟩
  obtain ⟨new, hnew⟩ := hfront
  refine ⟨⟨p, rid, rest ++ new, ?_, ?_⟩, ?_, ?_⟩
  · rw [hnew, hqueue, List.cons_append]
  · rw [H.justify_eq hset]
    exact hjustify
  · rcases (step_cases W h).2 with o | ⟨schedule, _, _, _, _, heq, -⟩
    · rw [(Stays.outside o).decided_eq _ (W.shape.lt_next_of_settled hset₂)]
      exact hundecided
    · exact absurd heq (hi schedule)
  · rw [H.height_eq hset₂]
    exact hle.trans (hqc_le_step W h)

theorem WellFormed.withSchedule (W : WellFormed E s) (schedule : List ℕ) :
    WellFormed E { s with schedule := schedule } :=
  W.withQueue (fun _ he => Or.inl he) _ _ _ _ _ _ _

/-- A replica in the middle of an event is as well formed as between two events. -/
structure MidwayInv (E : Setup V) (w : Midway V) : Prop where
  wellFormed : WellFormed E w.replica
  raised : ∀ blk2, w.stage = .raised blk2 → Raised w.replica blk2

theorem raised_updateHqc {p blk2 : BlockPtr} {rid : ReplicaID} {rest : List Event}
    (hqueue : s.eventQueue = .proposal p rid :: rest) (hjustify : s.heap.justify p = some blk2)
    (hundecided : (s.heap.get blk2).decided = false) :
    Raised (updateHqc blk2 (s.heap.get p).getJustifyQc s) blk2 := by
  obtain ⟨hheap, -, -, hqueue'⟩ := updateHqc_keeps blk2 (s.heap.get p).getJustifyQc s
  refine ⟨⟨p, rid, rest, hqueue'.trans hqueue, by rw [hheap]; exact hjustify⟩,
    by rw [hheap]; exact hundecided, ?_⟩
  rw [hheap]
  unfold updateHqc
  split
  · exact Nat.le_refl _
  · rename_i hle
    exact Nat.not_lt.mp hle

theorem MidwayInv.step {i : SectionInput V} {w w' : Midway V} (M : MidwayInv E w)
    (h : SectionForm E w i w') : MidwayInv E w' := by
  have W := M.wellFormed
  cases h with
  | idle => exact M
  | input hi h =>
      exact ⟨(step_cases W h).1, fun blk2 hstage => (M.raised blk2 hstage).input W hi h⟩
  | machine vm =>
      refine ⟨W.withQueue (fun _ he => Or.inl he) _ _ _ _ _ _ _, fun blk2 hstage => ?_⟩
      obtain ⟨hfront, hundecided, hle⟩ := M.raised blk2 hstage
      exact ⟨hfront, hundecided, hle⟩
  | voteEvent hqueue h => exact ⟨(step_cases W h).1, fun _ hstage => by cases hstage⟩
  | @vote schedule p rid rest s' hqueue h =>
      have he : Event.Ok w.replica.heap (.proposal p rid) := W.events _ (hqueue ▸ List.mem_cons_self)
      refine ⟨?_, fun _ hstage => by cases hstage⟩
      have W₀ := W.withSchedule schedule
      rcases voteOnProposal_ok W₀ he.1 he.2 h with v | ⟨rfl, -⟩
      · exact v.wellFormed W₀
      · exact W₀
  | raise hqueue hjustify hundecided =>
      refine ⟨W.updateHqc (W.shape.settled_justify hjustify) (W.shape.objHash_getJustifyQc hjustify),
        fun blk hstage => ?_⟩
      obtain rfl := Stage.raised.inj hstage
      exact raised_updateHqc hqueue hjustify hundecided
  | finish hqueue h =>
      exact ⟨(update_ok (W.popEvent _ hqueue) h).2, fun _ hstage => by cases hstage⟩

/-- The machine, the queue and the collector's schedule are no part of what was committed. -/
theorem Stays.aside (vm : V) (queue : List Event) (schedule : List ℕ) :
    Stays s { s with vm := vm, eventQueue := queue, schedule := schedule } :=
  .of_sameCores (Heap.SameCores.refl _) rfl rfl rfl rfl fun _ => rfl

/-- **The rule for what is committed**, for sections. -/
theorem section_rule {I : Replica V → Prop}
    (frame : ∀ {s s' : Replica V}, WellFormed E s → WellFormed E s' → Stays s s' → I s → I s')
    (commit : ∀ {s s₂ s₃ : Replica V} {nblk blk2 blk1 blk : BlockPtr} {queue : List BlockPtr}
      {tx : HotstuffLMDB.Txn}, WellFormed E s → CommitStage E nblk blk2 blk1 blk queue tx s s₂ s₃ →
      WellFormed E (committed blk1 blk tx s s₃) → I s → I (committed blk1 blk tx s s₃))
    {i : SectionInput V} {w w' : Midway V} (M : MidwayInv E w) (hI : I w.replica)
    (h : SectionForm E w i w') : I w'.replica := by
  have W := M.wellFormed
  have W' := (M.step h).wellFormed
  cases h with
  | idle => exact hI
  | input hi h => exact commit_rule frame commit W hI h
  | machine vm =>
      exact frame W W' (Stays.aside vm _ _) hI
  | voteEvent hqueue h => exact commit_rule frame commit W hI h
  | @vote schedule p rid rest s' hqueue h =>
      have he : Event.Ok w.replica.heap (.proposal p rid) := W.events _ (hqueue ▸ List.mem_cons_self)
      have W₀ := W.withSchedule schedule
      have hI₀ := frame W W₀ (Stays.aside _ _ schedule) hI
      rcases voteOnProposal_ok W₀ he.1 he.2 h with v | ⟨rfl, -⟩
      · exact frame W₀ W' (Stays.vote v) hI₀
      · exact hI₀
  | raise _ _ _ => exact frame W W' (Stays.updateHqc _ _) hI
  | @finish _ schedule p rid rest s' hqueue h =>
      have W₀ := W.popEvent schedule hqueue
      exact update_rule frame commit W₀
        (frame W W₀ (Stays.aside _ _ _) hI) h

/-! ## Whole events -/

theorem doVote_withQueue {p : BlockPtr} {rid : ReplicaID} {q : List Event}
    (h : doVote E p rid { s with eventQueue := q } = .ok s') :
    ∃ new, s'.eventQueue = q ++ new ∧
      doVote E p rid s = .ok { s' with eventQueue := s.eventQueue ++ new } := by
  have hadd : ∀ t : Replica V, t.heap = s.heap → t.validateAndAddEvent
      (.vote (PartialCertificate.create E.crypto (s.heap.hash p) E.secretKey) p E.selfId) =
        .ok { t with eventQueue := t.eventQueue ++
          [.vote (PartialCertificate.create E.crypto (s.heap.hash p) E.secretKey) p E.selfId] } := by
    intro t ht
    unfold validateAndAddEvent
    simp [PartialCertificate.create, ht]
  unfold doVote at h ⊢
  by_cases hself : rid = E.selfId
  · simp only [if_pos hself] at h ⊢
    rw [hadd] at h
    · rw [hadd]
      · obtain rfl := Except.ok.inj h
        exact ⟨_, rfl, rfl⟩
      · rfl
    · rfl
  · by_cases hvalid : E.config.isValidReplica rid = true
    · simp only [if_neg hself, if_pos hvalid] at h ⊢
      obtain rfl := Except.ok.inj h
      exact ⟨[], (List.append_nil _).symm, by rw [List.append_nil]; rfl⟩
    · simp only [if_neg hself, if_neg hvalid] at h
      cases h

theorem opinion_withQueue {p : BlockPtr} {q : List Event} {o : Bool}
    (h : opinion p { s with eventQueue := q } = .ok o) : opinion p s = .ok o := by
  unfold opinion at h ⊢
  rcases hj : s.heap.justify p with _ | j
  · simp [hj] at h
  · simp only [hj] at h ⊢
    by_cases hlt : s.heap.height j > s.heap.height s.bLock
    · rwa [if_pos hlt] at h ⊢
    · rw [if_neg hlt] at h ⊢
      rcases hwalk : walkDown s.heap.parent s.heap.height (s.heap.height s.bLock) (s.heap.height p) p
        with _ | ⟨passed, b⟩
      · simp [hwalk] at h
      · simpa only [hwalk] using h

/-- The vote does not depend on what is in the queue. -/
theorem voteOnProposal_withQueue {p : BlockPtr} {rid : ReplicaID} {q : List Event}
    (h : voteOnProposal E p rid { s with eventQueue := q } = .ok s') :
    ∃ new, s'.eventQueue = q ++ new ∧
      voteOnProposal E p rid s = .ok { s' with eventQueue := s.eventQueue ++ new } := by
  unfold voteOnProposal at h ⊢
  by_cases hlt : s.heap.height p > s.vheight.toNat
  · simp only [if_pos hlt] at h ⊢
    rcases ho : opinion p { s with eventQueue := q } with e | o
    · simp [ho] at h
    · rw [opinion_withQueue ho]
      cases o with
      | true =>
          simp only [ho] at h ⊢
          exact doVote_withQueue (s := { s with vheight := BitVec.ofNat 32 (s.heap.height p) }) h
      | false =>
          simp only [ho] at h ⊢
          obtain rfl := Except.ok.inj h
          exact ⟨[], (List.append_nil _).symm, by rw [List.append_nil]⟩
  · simp only [if_neg hlt] at h ⊢
    obtain rfl := Except.ok.inj h
    exact ⟨[], (List.append_nil _).symm, by rw [List.append_nil]⟩

/-- The sections after the vote. -/
theorem reach_of_update {p : BlockPtr} {rid : ReplicaID} {rest : List Event}
    (h : update E p s = .ok s') (hqueue : s.eventQueue = rest) :
    Reach (sectionStep E) anyInput ⟨{ s with eventQueue := .proposal p rid :: rest }, .voted⟩
      ⟨s', .fresh⟩ := by
  subst hqueue
  rw [update_eq] at h
  rcases hj : s.heap.justify p with _ | blk2
  · simp only [hj] at h
    refine (Reach.refl _).tail (i := .advance []) trivial ?_
    rw [← Except.ok.inj h]
    simp only [sectionStep, advance, hj]
  · rcases hd : (s.heap.get blk2).decided with _ | _
    · simp only [hj, hd, Bool.false_eq_true, if_false] at h
      -- `update_hqc` leaves the queue alone
      generalize hu : updateHqc blk2 (s.heap.get p).getJustifyQc
        { s with eventQueue := .proposal p rid :: s.eventQueue } = u
      have hqueue : u.eventQueue = .proposal p rid :: s.eventQueue := by
        rw [← hu]
        exact (updateHqc_keeps _ _ _).2.2.2
      have hsame : { u with eventQueue := s.eventQueue, schedule := s.schedule } =
          updateHqc blk2 (s.heap.get p).getJustifyQc s := by
        rw [← hu]
        unfold updateHqc
        split <;> rfl
      have hraise : sectionStep E (.advance [])
          ⟨{ s with eventQueue := .proposal p rid :: s.eventQueue }, .voted⟩ = .ok ⟨u, .raised blk2⟩ := by
        simp only [sectionStep, advance, hj, hd, ← hu, Bool.false_eq_true, if_false]
      have hrest : sectionStep E (.advance s.schedule) ⟨u, .raised blk2⟩ = .ok ⟨s', .fresh⟩ := by
        simp only [sectionStep, advance, hqueue, hsame, h]
      exact ((Reach.refl _).tail trivial hraise).tail trivial hrest
    · simp only [hj, hd, if_true] at h
      refine (Reach.refl _).tail (i := .advance []) trivial ?_
      rw [← Except.ok.inj h]
      simp only [sectionStep, advance, hj, hd, if_true]

/-- **An event is its sections**: what it does at once, they do one after another. -/
theorem reach_sections_of_event {schedule : List ℕ} (h : step E (.event schedule) s = .ok s') :
    Reach (sectionStep E) anyInput ⟨s, .fresh⟩ ⟨s', .fresh⟩ := by
  unfold step at h
  rcases hqueue : s.eventQueue with _ | ⟨⟨cert, b, rid⟩ | ⟨p, rid⟩, rest⟩
  · simp only [hqueue] at h
    rw [← Except.ok.inj h]
    exact Reach.refl _
  · simp only [hqueue, onEvent] at h
    refine (Reach.refl _).tail (i := .advance schedule) trivial ?_
    simp only [sectionStep, advance, hqueue, h]
  · simp only [hqueue, onEvent, onReceiveProposal] at h
    rcases hv : voteOnProposal E p rid { s with eventQueue := rest, schedule := schedule } with e | s₁
    · simp [hv] at h
    simp only [hv] at h
    -- the vote is cast with the event still in the queue
    obtain ⟨new, hnew, hvote⟩ := voteOnProposal_withQueue (s := { s with schedule := schedule }) hv
    simp only [hqueue] at hvote
    have hfirst : sectionStep E (.advance schedule) ⟨s, .fresh⟩ =
        .ok ⟨{ s₁ with eventQueue := .proposal p rid :: (rest ++ new) }, .voted⟩ := by
      simp only [sectionStep, advance, hqueue, hvote, List.cons_append]
    exact ((Reach.refl _).tail (i := .advance schedule) trivial hfirst).trans (reach_of_update h hnew)

theorem sectionStep_input {i : Input} {w : Midway V} (hi : ∀ schedule, i ≠ .event schedule)
    (h : step E i w.replica = .ok s') : sectionStep E (.input i) w = .ok ⟨s', w.stage⟩ := by
  cases i with
  | event schedule => exact absurd rfl (hi schedule)
  | _ => simp only [sectionStep, h]

/-- What a run of whole events reaches, a run of sections reaches. -/
theorem reach_sections {t : Replica V} (h : Reach (step E) anyInput s t) :
    Reach (sectionStep E) anyInput ⟨s, .fresh⟩ ⟨t, .fresh⟩ := by
  induction h with
  | refl => exact Reach.refl _
  | tail _ hlast ih =>
      obtain ⟨i, -, hs⟩ := hlast
      by_cases hi : ∃ schedule, i = .event schedule
      · obtain ⟨schedule, rfl⟩ := hi
        exact Reach.trans ih (reach_sections_of_event hs)
      · exact Reach.tail ih trivial (sectionStep_input (fun schedule heq => hi ⟨schedule, heq⟩) hs)

end Fred.Hotstuff
