/-
# Fred.Hotstuff.PaceMaker -- waiting for a certificate on the last proposal

`PaceMakerWaitQC` of `liveness.h` over an app: it proposes, and `wait_for_qc` waits until `on_new_qc`
has left a hash in the one slot there is for it, or the wait is cancelled. The slot holds whatever was
certified last and was not waited for, which need not be the last proposal, and the mark of a
cancellation stays when nobody waits. So a wait is right (`WaitResult.Sound`) just when it does not find
such a leftover (`waits_sound_iff`).

The wait lets go of its mutex, so `wait_for_qc` has two sections, and anything may come between them; the
hash waited for is the pacemaker's own field, read when the wait ends. Any number of calls may wait.
-/
import Fred.Hotstuff.Branch

namespace Fred.Hotstuff

open Fred.Transition Replica

variable {V : Type}

/-- What a call of `wait_for_qc` has returned. -/
structure WaitResult where
  /-- The hash of the last proposal then, if there was one. -/
  expected : Option Hash
  result : Bool
  /-- `cancel_wait_for_new_qc` was called while it waited. -/
  cancelled : Bool
  /-- A block with that hash had a quorum of votes then. -/
  formed : Bool
  deriving DecidableEq, Repr

/-- A wait for the last proposal that is not cancelled returns true, and `true` means that a certificate
has formed. -/
def WaitResult.Sound (r : WaitResult) : Prop :=
  r.expected ≠ none → (r.result = true → r.formed = true) ∧ (r.cancelled = false → r.result = true)

/-- A `PaceMakerWaitQC` and its app. -/
structure PaceMakerWaitQC (V : Type) where
  replica : Replica V
  cancelWait : Bool
  /-- `expected_hash`, which is the zero hash until the first proposal. -/
  expectedHash : Option Hash
  proposer : ReplicaID
  /-- The calls that wait, and whether `cancel_wait_for_new_qc` was called since. -/
  waits : List Bool
  results : List WaitResult

inductive PaceMakerAct where
  | doPropose
  | doEmptyPropose
  | setSelfAsProposer
  /-- `wait_for_qc` is called. -/
  | waitForQc
  /-- The `k`-th of the calls that wait is woken. -/
  | wake (k : ℕ)
  | cancelWaitForNewQc
  /-- Something else happens at the replica. -/
  | input (i : Input)
  deriving DecidableEq, Repr

namespace PaceMakerWaitQC

/-- `get_last_proposer`. -/
def getLastProposer (r : Replica V) : ReplicaID := (r.heap.get r.hqc.1).proposer

/-- The constructor, over an app after `init_clean`. -/
def start (E : Setup V) : PaceMakerWaitQC V :=
  ⟨Hotstuff.start E, false, none, getLastProposer (Hotstuff.start E), [], []⟩

/-- A block with the hash has a quorum of votes. -/
def formed (E : Setup V) (r : Replica V) (h : Hash) : Bool :=
  (List.range r.heap.next).any fun b => r.heap.hash b == h && (r.heap.get b).selfQc.hasQuorum E.config

variable (E : Setup V) (s : PaceMakerWaitQC V)

/-- The condition `wait_for_new_qc` waits for. -/
def ready : Bool := s.replica.latestNewQc.isSome || s.cancelWait

/-- `wait_for_new_qc` from the end of the wait on. -/
def waitForNewQc (expectedNextQc : Hash) : Bool × PaceMakerWaitQC V :=
  if s.cancelWait then (false, { s with cancelWait := false })
  else
    (s.replica.latestNewQc == some expectedNextQc,
      { s with replica := { s.replica with latestNewQc := none } })

/-- `wait_for_qc` from the end of the wait on. -/
def finishWait (cancelled : Bool) : PaceMakerWaitQC V :=
  let expectedHash := s.expectedHash.getD 0#256
  let (res, s') := s.waitForNewQc expectedHash
  { s' with
    proposer := if !res then getLastProposer s.replica else s.proposer
    results := s.results ++ [⟨s.expectedHash, res, cancelled, formed E s.replica expectedHash⟩] }

/-- A proposal has left the replica as `r`. -/
def proposed (r : Replica V) : PaceMakerWaitQC V :=
  { s with replica := r, proposer := E.selfId, expectedHash := some (r.heap.hash r.bLeaf) }

def step (a : PaceMakerAct) (s : PaceMakerWaitQC V) :
    Except (Exn × Replica V) (PaceMakerWaitQC V) :=
  match a with
  | .doPropose => (Hotstuff.step E .doPropose s.replica).map (s.proposed E)
  | .doEmptyPropose => (Hotstuff.step E .doEmptyPropose s.replica).map (s.proposed E)
  | .setSelfAsProposer => .ok { s with proposer := E.selfId }
  | .waitForQc =>
    .ok (if s.ready then s.finishWait E false else { s with waits := s.waits ++ [false] })
  | .wake k =>
    match s.waits[k]? with
    | none => .ok s
    | some cancelled =>
      .ok (if s.ready then { s with waits := s.waits.eraseIdx k }.finishWait E cancelled else s)
  | .cancelWaitForNewQc => .ok { s with cancelWait := true, waits := s.waits.map fun _ => true }
  | .input i => (Hotstuff.step E i s.replica).map fun r => { s with replica := r }

/-- All proposals go through the pacemaker. -/
def Allowed (_ : PaceMakerWaitQC V) (a : PaceMakerAct) : Prop :=
  a ≠ .input .doPropose ∧ a ≠ .input .doEmptyPropose

/-- What a wait for the last proposal does not find: the mark of an earlier cancellation, or a
notification on another block, unless it was cancelled itself. -/
def Undisturbed (s : PaceMakerWaitQC V) : PaceMakerAct → Prop
  | .waitForQc => s.expectedHash ≠ none → s.cancelWait = false ∧
      (s.replica.latestNewQc = none ∨ s.replica.latestNewQc = s.expectedHash)
  | .wake k => s.expectedHash ≠ none → s.waits[k]? = some false →
      s.replica.latestNewQc = none ∨ s.replica.latestNewQc = s.expectedHash
  | _ => True

/-! ## The slot -/

variable {E s} {s' : PaceMakerWaitQC V} {r r' : Replica V} {h : Hash}

/-- A linked block with the hash has a quorum of votes. -/
def Formed (E : Setup V) (r : Replica V) (h : Hash) : Prop :=
  ∃ b, r.heap.Settled b ∧ r.heap.hash b = h ∧ (r.heap.get b).selfQc.hasQuorum E.config = true

theorem Formed.check (W : WellFormed E r) (F : Formed E r h) : formed E r h = true := by
  obtain ⟨b, hset, hhash, hquorum⟩ := F
  apply List.any_eq_true.mpr
  refine ⟨b, List.mem_range.mpr (W.shape.lt_next_of_settled hset), ?_⟩
  simp [hhash, hquorum]

theorem length_emplace (rid : ReplicaID) (sig : Signature) (m : List (ReplicaID × Signature)) :
    m.length ≤ (emplace rid sig m).length := by
  induction m with
  | nil => simp
  | cons e m ih =>
      obtain ⟨rid', sig'⟩ := e
      unfold emplace
      split
      · simp
      · split
        · simp
        · simpa using ih

/-- Another vote does not break a quorum. -/
theorem hasQuorum_addPartialCertificate {c : ReplicaConfig} {qc qc' : QuorumCertificate}
    {rid : ReplicaID} {cert : PartialCertificateWire}
    (hadd : qc.addPartialCertificate rid cert = .ok qc') (hquorum : qc.hasQuorum c = true) :
    qc'.hasQuorum c = true := by
  unfold QuorumCertificate.addPartialCertificate at hadd
  split_ifs at hadd
  obtain rfl := Except.ok.inj hadd
  have hle := of_decide_eq_true hquorum
  apply decide_eq_true
  exact hle.trans (length_emplace rid cert.sig qc.sigs)

/-- **A certificate that has formed stays.** -/
theorem Formed.step (W : WellFormed E r) {i : Input} (hstep : Hotstuff.step E i r = .ok r')
    (F : Formed E r h) : Formed E r' h := by
  obtain ⟨b, hset, hhash, hquorum⟩ := F
  have H := heap_step W hstep
  refine ⟨b, H.settled hset, (H.hash_eq hset).trans hhash, ?_⟩
  obtain ⟨cert, b', rid, qc, -, hadd, hb', hother, -⟩ | ⟨-, hkeeps, -⟩ := selfQc_step W hstep
  · by_cases heq : b = b'
    · subst heq
      rw [hb']
      exact hasQuorum_addPartialCertificate hadd hquorum
    · rw [hother b heq]
      exact hquorum
  · rw [hkeeps b (W.shape.lt_next_of_settled hset)]
    exact hquorum

/-- What the runs keep: a notification in the slot is on a certificate that has formed, and a wait that was
not cancelled finds no mark of a cancellation. -/
structure Attends (E : Setup V) (s : PaceMakerWaitQC V) : Prop where
  wellFormed : WellFormed E s.replica
  slot : ∀ h, s.replica.latestNewQc = some h → Formed E s.replica h
  uncancelled : false ∈ s.waits → s.cancelWait = false

theorem Attends.start (E : Setup V) : Attends E (start E) where
  wellFormed := WellFormed.start E
  slot := fun _ h => by cases h
  uncancelled := fun h => absurd h List.not_mem_nil

/-- What a step of the replica leaves in the slot. -/
theorem slot_step (A : Attends E s) {i : Input} (hstep : Hotstuff.step E i s.replica = .ok r') :
    ∀ h, r'.latestNewQc = some h → Formed E r' h := by
  intro h hh
  obtain heq | ⟨b, hb, heq, hquorum⟩ := latestNewQc_step A.wellFormed hstep
  · exact (A.slot h (heq ▸ hh)).step A.wellFormed hstep
  · have hset := hb.settled A.wellFormed
    have H := heap_step A.wellFormed hstep
    obtain rfl := Option.some.inj (heq.symm.trans hh)
    exact ⟨b, H.settled hset, H.hash_eq hset, hquorum⟩

/-- A wait that ends leaves the replica with the slot it had, or an empty one. -/
theorem Attends.finishWait (A : Attends E s) (cancelled : Bool) :
    Attends E (s.finishWait E cancelled) := by
  unfold PaceMakerWaitQC.finishWait waitForNewQc
  split
  · exact ⟨A.wellFormed, A.slot, fun _ => rfl⟩
  · refine ⟨A.wellFormed.withQueue (fun _ he => Or.inl he) _ _ _ _ _ _ _, fun _ h => ?_, A.uncancelled⟩
    cases h

/-- **Step lemma.** -/
theorem Attends.step (A : Attends E s) {a : PaceMakerAct} (hstep : step E a s = .ok s') :
    Attends E s' := by
  cases a with
  | doPropose =>
      obtain ⟨r, hr, rfl⟩ := exists_of_map_ok hstep
      exact ⟨(step_cases A.wellFormed hr).1, slot_step A hr, A.uncancelled⟩
  | doEmptyPropose =>
      obtain ⟨r, hr, rfl⟩ := exists_of_map_ok hstep
      exact ⟨(step_cases A.wellFormed hr).1, slot_step A hr, A.uncancelled⟩
  | input i =>
      obtain ⟨r, hr, rfl⟩ := exists_of_map_ok hstep
      exact ⟨(step_cases A.wellFormed hr).1, slot_step A hr, A.uncancelled⟩
  | setSelfAsProposer =>
      obtain rfl := Except.ok.inj hstep
      exact ⟨A.wellFormed, A.slot, A.uncancelled⟩
  | cancelWaitForNewQc =>
      obtain rfl := Except.ok.inj hstep
      refine ⟨A.wellFormed, A.slot, fun h => ?_⟩
      obtain ⟨_, -, hfalse⟩ := List.mem_map.mp h
      cases hfalse
  | waitForQc =>
      obtain rfl := Except.ok.inj hstep
      split
      · exact A.finishWait false
      · -- the call waits: there was no mark
        rename_i hready
        refine ⟨A.wellFormed, A.slot, fun _ => ?_⟩
        simp only [ready, Bool.or_eq_true, not_or, Bool.not_eq_true] at hready
        exact hready.2
  | wake k =>
      unfold PaceMakerWaitQC.step at hstep
      dsimp only at hstep
      split at hstep
      · obtain rfl := Except.ok.inj hstep
        exact A
      · obtain rfl := Except.ok.inj hstep
        split
        · apply Attends.finishWait
          exact ⟨A.wellFormed, A.slot, fun h => A.uncancelled (List.mem_of_mem_eraseIdx h)⟩
        · exact A

/-! ## What the waits return -/

/-- The answer of a wait that ends now. -/
def answer (E : Setup V) (s : PaceMakerWaitQC V) (cancelled : Bool) : WaitResult where
  expected := s.expectedHash
  result := (s.waitForNewQc (s.expectedHash.getD 0#256)).1
  cancelled := cancelled
  formed := formed E s.replica (s.expectedHash.getD 0#256)

theorem results_finishWait (cancelled : Bool) :
    (s.finishWait E cancelled).results = s.results ++ [s.answer E cancelled] := by
  unfold PaceMakerWaitQC.finishWait answer waitForNewQc
  split <;> rfl

/-- **When an answer is right.** -/
theorem sound_answer_iff (A : Attends E s) (cancelled : Bool) :
    (s.answer E cancelled).Sound ↔ (s.expectedHash ≠ none → cancelled = false →
      s.cancelWait = false ∧ s.replica.latestNewQc = s.expectedHash) := by
  cases hexpected : s.expectedHash with
  | none =>
      constructor
      · exact fun _ hne => absurd rfl hne
      · exact fun _ hne => absurd hexpected hne
  | some h =>
      have hresult : (s.answer E cancelled).result = true ↔
          s.cancelWait = false ∧ s.replica.latestNewQc = some h := by
        unfold answer waitForNewQc
        rw [hexpected]
        split
        · rename_i hcancel
          simp [hcancel]
        · rename_i hcancel
          simp [hcancel]
      have hformed : s.replica.latestNewQc = some h → (s.answer E cancelled).formed = true := by
        intro hslot
        unfold answer
        rw [hexpected]
        exact (A.slot h hslot).check A.wellFormed
      have hne : (s.answer E cancelled).expected ≠ none := by
        show s.expectedHash ≠ none
        rw [hexpected]
        exact Option.some_ne_none h
      constructor
      · exact fun hsound _ hcancelled => hresult.mp ((hsound hne).2 hcancelled)
      · intro hright _
        refine ⟨fun htrue => hformed (hresult.mp htrue).2, fun hcancelled => ?_⟩
        exact hresult.mpr (hright (Option.some_ne_none h) hcancelled)

/-- A wait that does not go on finds a notification, or a mark. -/
theorem ready_iff : s.ready = true ↔ s.replica.latestNewQc ≠ none ∨ s.cancelWait = true := by
  simp [ready, Option.isSome_iff_ne_none]

/-- The results so far, and one more. -/
theorem sound_concat {rs : List WaitResult} {r : WaitResult} (hrs : ∀ x ∈ rs, x.Sound) :
    (∀ x ∈ rs ++ [r], x.Sound) ↔ r.Sound := by
  rw [List.forall_mem_append, List.forall_mem_singleton]
  exact and_iff_right hrs

/-- **Step lemma for `wait_for_qc`** up to where it waits. -/
theorem sound_waitForQc_iff (A : Attends E s) (hs : ∀ r ∈ s.results, r.Sound)
    (hstep : step E .waitForQc s = .ok s') :
    (∀ r ∈ s'.results, r.Sound) ↔ Undisturbed s .waitForQc := by
  obtain rfl := Except.ok.inj hstep
  by_cases hready : s.ready = true
  · rw [if_pos hready, results_finishWait, sound_concat hs, sound_answer_iff A]
    constructor
    · intro hright hne
      obtain ⟨hcancel, hslot⟩ := hright hne rfl
      exact ⟨hcancel, Or.inr hslot⟩
    · intro hundisturbed hne _
      obtain ⟨hcancel, hslot⟩ := hundisturbed hne
      refine ⟨hcancel, hslot.resolve_left fun hnone => ?_⟩
      -- without a notification or a mark the call would wait
      simp [ready, hnone, hcancel] at hready
  · rw [if_neg hready]
    have hidle : s.replica.latestNewQc = none ∧ s.cancelWait = false := by
      simpa [ready] using hready
    exact ⟨fun _ _ => ⟨hidle.2, Or.inl hidle.1⟩, fun _ => hs⟩

/-- **Step lemma for a wait that is woken.** -/
theorem sound_wake_iff (A : Attends E s) (hs : ∀ r ∈ s.results, r.Sound) {k : ℕ}
    (hstep : step E (.wake k) s = .ok s') :
    (∀ r ∈ s'.results, r.Sound) ↔ Undisturbed s (.wake k) := by
  unfold PaceMakerWaitQC.step at hstep
  dsimp only at hstep
  split at hstep
  · rename_i hnone
    obtain rfl := Except.ok.inj hstep
    refine ⟨fun _ _ hk => ?_, fun _ => hs⟩
    rw [hnone] at hk
    cases hk
  · rename_i cancelled hk
    obtain rfl := Except.ok.inj hstep
    by_cases hready : s.ready = true
    · have A' : Attends E { s with waits := s.waits.eraseIdx k } :=
        ⟨A.wellFormed, A.slot, fun h => A.uncancelled (List.mem_of_mem_eraseIdx h)⟩
      rw [if_pos hready, results_finishWait, sound_concat hs, sound_answer_iff A']
      constructor
      · intro hright hne hfalse
        obtain rfl := Option.some.inj (hk.symm.trans hfalse)
        exact Or.inr (hright hne rfl).2
      · rintro hundisturbed hne rfl
        have hcancel := A.uncancelled (List.mem_of_getElem? hk)
        refine ⟨hcancel, (hundisturbed hne hk).resolve_left fun hnone => ?_⟩
        simp [ready, hnone, hcancel] at hready
    · rw [if_neg hready]
      have hidle : s.replica.latestNewQc = none ∧ s.cancelWait = false := by
        simpa [ready] using hready
      exact ⟨fun _ _ _ => Or.inl hidle.1, fun _ => hs⟩

/-- **Step lemma.** -/
theorem sound_step_iff (A : Attends E s) (hs : ∀ r ∈ s.results, r.Sound) {a : PaceMakerAct}
    (hstep : step E a s = .ok s') : (∀ r ∈ s'.results, r.Sound) ↔ Undisturbed s a := by
  cases a with
  | waitForQc => exact sound_waitForQc_iff A hs hstep
  | wake k => exact sound_wake_iff A hs hstep
  | doPropose =>
      obtain ⟨r, -, rfl⟩ := exists_of_map_ok hstep
      exact iff_of_true hs trivial
  | doEmptyPropose =>
      obtain ⟨r, -, rfl⟩ := exists_of_map_ok hstep
      exact iff_of_true hs trivial
  | input i =>
      obtain ⟨r, -, rfl⟩ := exists_of_map_ok hstep
      exact iff_of_true hs trivial
  | setSelfAsProposer =>
      obtain rfl := Except.ok.inj hstep
      exact iff_of_true hs trivial
  | cancelWaitForNewQc =>
      obtain rfl := Except.ok.inj hstep
      exact iff_of_true hs trivial

/-- **Run lemma.** -/
theorem attends_of_reach {P : PaceMakerWaitQC V → PaceMakerAct → Prop}
    (h : Reach (PaceMakerWaitQC.step E) P (PaceMakerWaitQC.start E) s) : Attends E s :=
  h.invariant (Attends.start E) fun _ _ _ A _ hstep => A.step hstep

/-- A wait that is woken while a notification is there returns. -/
theorem returns_of_notified {k : ℕ} {cancelled : Bool} (hk : s.waits[k]? = some cancelled)
    (hslot : s.replica.latestNewQc ≠ none) (hstep : step E (.wake k) s = .ok s') :
    ∃ r, s'.results = s.results ++ [r] ∧ r.expected = s.expectedHash ∧ r.cancelled = cancelled := by
  unfold PaceMakerWaitQC.step at hstep
  dsimp only at hstep
  rw [hk] at hstep
  obtain rfl := Except.ok.inj hstep
  rw [if_pos (ready_iff.mpr (Or.inl hslot)), results_finishWait]
  exact ⟨_, rfl, rfl, rfl⟩

/-- **When waits for the last proposal are right.** In every run in which no wait found a leftover, every
wait for the last proposal that has returned and was not cancelled has returned `true`, and `true` was
returned only when a certificate on the proposal had formed; a wait that is woken while a notification is
there returns. The next act keeps the answers right just when it finds no leftover either. -/
theorem waits_sound_iff
    (h : Reach (PaceMakerWaitQC.step E) (fun s a => Allowed s a ∧ Undisturbed s a)
      (PaceMakerWaitQC.start E) s) :
    (∀ r ∈ s.results, r.Sound) ∧
    (∀ k cancelled s', s.waits[k]? = some cancelled → s.replica.latestNewQc ≠ none →
      PaceMakerWaitQC.step E (.wake k) s = .ok s' → ∃ r, s'.results = s.results ++ [r] ∧
        r.expected = s.expectedHash ∧ r.cancelled = cancelled) ∧
    ∀ a s', Allowed s a → PaceMakerWaitQC.step E a s = .ok s' →
      ((∀ r ∈ s'.results, r.Sound) ↔ Undisturbed s a) := by
  have hs : ∀ r ∈ s.results, r.Sound := by
    apply h.invariant_of_reach (I := fun s => ∀ r ∈ s.results, r.Sound)
    · exact fun r hr => absurd hr List.not_mem_nil
    · exact fun t u a ht htsound hcond hstep =>
        (sound_step_iff (attends_of_reach ht) htsound hstep).mpr hcond.2
  have A := attends_of_reach h
  exact ⟨hs, fun _ _ _ hk hslot hstep => returns_of_notified hk hslot hstep,
    fun a s' _ hstep => sound_step_iff A hs hstep⟩

/-! ### A pipelined proposal -/

/-- A proposal is voted on before the call waits for it. -/
def votedFirst : List PaceMakerAct :=
  [.setSelfAsProposer, .doEmptyPropose, .input (.event []), .waitForQc, .input (.event []), .wake 0]

/-- The certificate on the first proposal comes after the second proposal was made. -/
def pipelined : List PaceMakerAct :=
  [.setSelfAsProposer, .doEmptyPropose, .doEmptyPropose, .input (.event []), .input (.event []),
    .input (.event []), .waitForQc]

instance (s : PaceMakerWaitQC V) (a : PaceMakerAct) : Decidable (Allowed s a) :=
  inferInstanceAs (Decidable (_ ∧ _))

instance (s : PaceMakerWaitQC V) : (a : PaceMakerAct) → Decidable (Undisturbed s a)
  | .waitForQc => inferInstanceAs (Decidable (_ → _ ∧ (_ ∨ _)))
  | .wake _ => inferInstanceAs (Decidable (_ → _ → _ ∨ _))
  | .doPropose => .isTrue trivial
  | .doEmptyPropose => .isTrue trivial
  | .setSelfAsProposer => .isTrue trivial
  | .cancelWaitForNewQc => .isTrue trivial
  | .input _ => .isTrue trivial

/-- A single replica that waits for each proposal is told `true`. -/
theorem waits_sound_iff_solo : ∃ s : PaceMakerWaitQC Unit, s.results.map WaitResult.result = [true] ∧
    (∀ r ∈ s.results, r.Sound) ∧
    (∀ k cancelled s', s.waits[k]? = some cancelled → s.replica.latestNewQc ≠ none →
      PaceMakerWaitQC.step Instance.soloSetup (.wake k) s = .ok s' → ∃ r,
        s'.results = s.results ++ [r] ∧ r.expected = s.expectedHash ∧ r.cancelled = cancelled) ∧
    ∀ a s', Allowed s a → PaceMakerWaitQC.step Instance.soloSetup a s = .ok s' →
      ((∀ r ∈ s'.results, r.Sound) ↔ Undisturbed s a) := by
  have hrun : (runListIf (PaceMakerWaitQC.step Instance.soloSetup)
      (fun s a => decide (Allowed s a ∧ Undisturbed s a)) votedFirst
      (PaceMakerWaitQC.start Instance.soloSetup)).map (fun s => s.results.map WaitResult.result) =
        some [true] := by
    decide +kernel
  obtain ⟨s, hs, hresults⟩ := Option.map_eq_some_iff.mp hrun
  exact ⟨s, hresults, waits_sound_iff (Reach.of_runListIf (fun _ _ => of_decide_eq_true) hs)⟩

/-- The certificate on the first of two proposals ends the wait for the second with `false`. -/
theorem pipelined_wait_false : ¬ ∀ s : PaceMakerWaitQC Unit,
    Reach (PaceMakerWaitQC.step Instance.soloSetup) Allowed (PaceMakerWaitQC.start Instance.soloSetup) s →
      ∀ r ∈ s.results, r.Sound := by
  intro hall
  have hrun : (runListIf (PaceMakerWaitQC.step Instance.soloSetup) (fun s a => decide (Allowed s a))
      pipelined (PaceMakerWaitQC.start Instance.soloSetup)).map (fun s =>
        s.results.map fun r => (r.expected.isSome, r.result, r.cancelled)) =
        some [(true, false, false)] := by
    decide +kernel
  obtain ⟨s, hs, hresults⟩ := Option.map_eq_some_iff.mp hrun
  obtain ⟨r, hr, hfields⟩ := List.map_eq_singleton_iff.mp hresults
  have hsound := hall s (Reach.of_runListIf (fun _ _ => of_decide_eq_true) hs) r (by simp [hr])
  obtain ⟨hexpected, hrest⟩ := Prod.mk.inj hfields
  obtain ⟨hfalse, hcancelled⟩ := Prod.mk.inj hrest
  have htrue := (hsound (Option.isSome_iff_ne_none.mp hexpected)).2 hcancelled
  rw [hfalse] at htrue
  cases htrue

end PaceMakerWaitQC

end Fred.Hotstuff
