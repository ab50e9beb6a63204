/-
# Fred.Hotstuff.FetchQueues -- which requests reach the queues of replicas

`block_storage/block_fetch_manager.cc` once more, now with the queues of the replicas and with the
identity of request contexts: a context is made when its hash becomes outstanding and dropped on
delivery, so one context is one stretch of time in which the hash is outstanding. The calls of
`add_request` are written down (`addRequests`). The manager of `FetchManager` is what is left when
queues and identities are forgotten (`Refines`).

`requested_from` says which replicas a block was requested from. It is read by `was_requested_from`,
and nothing sets it, so every call of `add_fetch_request` ends in `add_request`
(`one_request_each_iff`).
-/
import Fred.Hotstuff.FetchManager
import Fred.Lib.SwapRemove

namespace Fred.Hotstuff

open Fred.SwapRemove

/-- A `request_ctx_ptr`: the address of a `RequestContext`. -/
abbrev RequestPtr := ℕ

/-! ## `ReplicaFetchQueue` -/

structure ReplicaFetchQueue where
  outstandingReqs : List RequestPtr
  worker : BlockFetchWorker
  deriving DecidableEq, Repr

namespace ReplicaFetchQueue

def init : ReplicaFetchQueue := ⟨[], .init⟩

/-- `GC_FREQ`. -/
def gcFreq : ℕ := 10

/-- The loop of `do_gc` at index `i`: a received request is overwritten by the last one. Every round
drops an entry or passes one, so the length bounds the number of rounds. -/
def doGcFrom (isReceived : RequestPtr → Bool) : ℕ → ℕ → List RequestPtr → List RequestPtr
  | 0, _, reqs => reqs
  | fuel + 1, i, reqs =>
    match reqs[i]? with
    | none => reqs
    | some req =>
      if isReceived req then doGcFrom isReceived fuel i ((reqs.set i (reqs.getLastD req)).dropLast)
      else doGcFrom isReceived fuel (i + 1) reqs

def doGc (isReceived : RequestPtr → Bool) (reqs : List RequestPtr) : List RequestPtr :=
  doGcFrom isReceived reqs.length 0 reqs

def addRequest (isReceived : RequestPtr → Bool) (req : RequestPtr) (requestedHash : Hash)
    (q : ReplicaFetchQueue) : ReplicaFetchQueue :=
  let outstandingReqs := q.outstandingReqs ++ [req]
  { outstandingReqs :=
      if outstandingReqs.length > gcFreq then doGc isReceived outstandingReqs else outstandingReqs
    worker := q.worker.addRequest requestedHash }

/-- The loop ends: a round for each entry from the position on is enough. -/
theorem sweeps_doGcFrom {isReceived : RequestPtr → Bool} {fuel : ℕ} :
    ∀ {i : ℕ} {reqs : List RequestPtr}, reqs.length - i ≤ fuel →
      ∃ visited, Sweeps (!isReceived ·) i reqs visited (doGcFrom isReceived fuel i reqs) := by
  induction fuel with
  | zero =>
      intro i reqs hfuel
      exact ⟨[], .done (List.getElem?_eq_none (by omega))⟩
  | succ fuel ih =>
      intro i reqs hfuel
      unfold doGcFrom
      split
      · rename_i hreq
        exact ⟨[], .done hreq⟩
      · rename_i req hreq
        split
        · rename_i hreceived
          -- the last request takes the place of the received one
          have hshort : (swapRemove reqs i req).length - i ≤ fuel := by
            rw [length_swapRemove]
            omega
          obtain ⟨visited, hrest⟩ := ih hshort
          exact ⟨req :: visited, .removed hreq (by simp [hreceived]) hrest⟩
        · rename_i hreceived
          obtain ⟨visited, hrest⟩ := @ih (i + 1) reqs (by omega)
          exact ⟨req :: visited, .passed hreq (by simpa using hreceived) hrest⟩

theorem sweeps_doGc (isReceived : RequestPtr → Bool) (reqs : List RequestPtr) :
    ∃ visited, Sweeps (!isReceived ·) 0 reqs visited (doGc isReceived reqs) :=
  sweeps_doGcFrom (Nat.sub_le _ _)

/-- **`do_gc` drops exactly the received requests.** -/
theorem doGc_perm (isReceived : RequestPtr → Bool) (reqs : List RequestPtr) :
    (doGc isReceived reqs).Perm (reqs.filter (!isReceived ·)) := by
  obtain ⟨visited, hsweeps⟩ := sweeps_doGc isReceived reqs
  exact hsweeps.spec.2

end ReplicaFetchQueue

/-! ## `BlockFetchManager`, with its queues -/

structure FetchQueues where
  outstandingReqs : Hash → Option (RequestPtr × RequestContext)
  /-- The address of the next context. -/
  next : RequestPtr
  isReceived : RequestPtr → Bool
  queues : ReplicaID → ReplicaFetchQueue
  /-- The calls of `add_request` so far: the replica of the queue, and the context. -/
  addRequests : List (ReplicaID × RequestPtr)

/-- What the network thread calls. -/
inductive FetchCall where
  | addFetchRequest (requestedBlock : Hash) (requestTarget : ReplicaID) (dependentEvents : List Copy)
  | deliverBlock (hash : Hash)
  deriving DecidableEq, Repr

namespace FetchQueues

def init : FetchQueues := ⟨fun _ => none, 0, fun _ => false, fun _ => .init, []⟩

/-- The context of a hash, a new one if the hash is not outstanding. -/
def context (requestedBlock : Hash) (m : FetchQueues) : RequestPtr × RequestContext :=
  (m.outstandingReqs requestedBlock).getD (m.next, .init)

def setContext (requestedBlock : Hash) (req : RequestPtr) (ctx : RequestContext) (m : FetchQueues) :
    FetchQueues :=
  { m with
    outstandingReqs := Function.update m.outstandingReqs requestedBlock (some (req, ctx))
    next := if req = m.next then m.next + 1 else m.next }

def addRequest (requestTarget : ReplicaID) (req : RequestPtr) (requestedHash : Hash)
    (m : FetchQueues) : FetchQueues :=
  { m with
    queues := Function.update m.queues requestTarget
      ((m.queues requestTarget).addRequest m.isReceived req requestedHash)
    addRequests := m.addRequests ++ [(requestTarget, req)] }

def addFetchRequest (config : ReplicaConfig) (requestedBlock : Hash) (requestTarget : ReplicaID)
    (dependentEvents : List Copy) (m : FetchQueues) : FetchQueues :=
  if !config.isValidReplica requestTarget then m
  else
    let (req, ctx) := m.context requestedBlock
    let m := if !ctx.wasRequestedFrom requestTarget then
        m.addRequest requestTarget req requestedBlock
      else m
    m.setContext requestedBlock req (ctx.addNetworkEvents dependentEvents)

def deliverBlock (hash : Hash) (m : FetchQueues) : List Copy × FetchQueues :=
  match m.outstandingReqs hash with
  | none => ([], m)
  | some (req, ctx) =>
    (ctx.dependentNetworkEvents, { m with
      isReceived := Function.update m.isReceived req true
      outstandingReqs := Function.update m.outstandingReqs hash none })

def call (config : ReplicaConfig) (m : FetchQueues) : FetchCall → FetchQueues
  | .addFetchRequest requestedBlock requestTarget dependentEvents =>
    m.addFetchRequest config requestedBlock requestTarget dependentEvents
  | .deliverBlock hash => (m.deliverBlock hash).2

def run (config : ReplicaConfig) (calls : List FetchCall) : FetchQueues :=
  calls.foldl (call config) init

/-! ## The manager without queues -/

/-- The manager of `FetchManager` is this one without queues and addresses. -/
structure Refines (m : FetchQueues) (m' : BlockFetchManager) : Prop where
  lookup_eq : ∀ h, m'.outstandingReqs.lookup h = (m.outstandingReqs h).map Prod.snd
  workers_eq : ∀ rid, m'.workers rid = (m.queues rid).worker

theorem refines_init : Refines init BlockFetchManager.init := ⟨fun _ => rfl, fun _ => rfl⟩

variable {m : FetchQueues} {m' : BlockFetchManager} {config : ReplicaConfig}

theorem Refines.context_eq (R : Refines m m') (h : Hash) :
    (m'.outstandingReqs.lookup h).getD .init = (m.context h).2 := by
  rw [R.lookup_eq]
  unfold context
  cases m.outstandingReqs h <;> rfl

theorem Refines.addFetchRequest (R : Refines m m') (h : Hash) (target : ReplicaID)
    (events : List Copy) :
    Refines (m.addFetchRequest config h target events) (m'.addFetchRequest config h target events) := by
  by_cases hvalid : config.isValidReplica target = true
  · constructor
    · intro x
      rw [BlockFetchManager.lookup_addFetchRequest hvalid, R.context_eq]
      unfold FetchQueues.addFetchRequest setContext addRequest
      simp only [hvalid, Bool.not_true, Bool.false_eq_true, if_false]
      by_cases hx : x = h
      · subst hx
        rw [if_pos rfl]
        split <;> simp
      · rw [if_neg hx, R.lookup_eq]
        split <;> simp [hx]
    · intro rid
      unfold FetchQueues.addFetchRequest BlockFetchManager.addFetchRequest
      simp only [hvalid, Bool.not_true, Bool.false_eq_true, if_false, R.context_eq]
      by_cases hasked : (m.context h).2.wasRequestedFrom target = true
      · simp [hasked, setContext, R.workers_eq]
      · simp only [hasked, setContext, addRequest, BlockFetchManager.modifyWorker]
        by_cases hrid : rid = target
        · subst hrid
          simp [R.workers_eq, ReplicaFetchQueue.addRequest]
        · simp [hrid, R.workers_eq]
  · unfold FetchQueues.addFetchRequest BlockFetchManager.addFetchRequest
    simp only [hvalid, Bool.not_false, if_true]
    exact R

/-- Delivering a block gives the same events and keeps the two managers together. -/
theorem Refines.deliverBlock (R : Refines m m') (h : Hash) :
    (m.deliverBlock h).1 = (m'.deliverBlock h).1 ∧
      Refines (m.deliverBlock h).2 (m'.deliverBlock h).2 := by
  have hlookup := R.lookup_eq h
  have hevents : (m.deliverBlock h).1 = (m'.deliverBlock h).1 := by
    unfold FetchQueues.deliverBlock BlockFetchManager.deliverBlock
    cases hctx : m.outstandingReqs h with
    | none => simp [hctx] at hlookup; simp [hlookup]
    | some c => simp [hctx] at hlookup; simp [hlookup]
  refine ⟨hevents, ?_, ?_⟩
  · intro x
    rw [BlockFetchManager.lookup_deliverBlock, R.lookup_eq]
    unfold FetchQueues.deliverBlock
    by_cases hx : x = h
    · subst hx
      cases hctx : m.outstandingReqs x <;> simp [hctx]
    · cases hctx : m.outstandingReqs h <;> simp [hx]
  · intro rid
    rw [BlockFetchManager.workers_deliverBlock, R.workers_eq]
    unfold FetchQueues.deliverBlock
    cases m.outstandingReqs h <;> rfl

/-! ## How often a replica is asked -/

/-- Since a context is one stretch of time in which its hash is outstanding: in each such stretch, each
queue gets at most one request for the hash. -/
def OneRequestEach (m : FetchQueues) : Prop := ∀ call, m.addRequests.count call ≤ 1

/-- No call asks a configured replica for a hash it was asked for since the hash became outstanding;
`asked` are the pairs that were. -/
def NoRepeats (config : ReplicaConfig) : List (ReplicaID × Hash) → List FetchCall → Prop
  | _, [] => True
  | asked, .addFetchRequest requestedBlock requestTarget _ :: calls =>
    if config.isValidReplica requestTarget then
      (requestTarget, requestedBlock) ∉ asked ∧
        NoRepeats config ((requestTarget, requestedBlock) :: asked) calls
    else NoRepeats config asked calls
  | asked, .deliverBlock hash :: calls => NoRepeats config (asked.filter (·.2 ≠ hash)) calls

/-- Contexts of outstanding hashes are apart, nothing is noted in them, and `asked` are the pairs that
were requested through them. -/
structure Keeps (asked : List (ReplicaID × Hash)) (m : FetchQueues) : Prop where
  lt_next : ∀ {h req ctx}, m.outstandingReqs h = some (req, ctx) → req < m.next
  unmarked : ∀ {h req ctx}, m.outstandingReqs h = some (req, ctx) → ctx.requestedFrom = 0#32
  apart : ∀ {h h' req ctx ctx'}, m.outstandingReqs h = some (req, ctx) →
    m.outstandingReqs h' = some (req, ctx') → h = h'
  made : ∀ e ∈ m.addRequests, e.2 < m.next
  asked_iff : ∀ rid h, (rid, h) ∈ asked ↔
    ∃ req ctx, m.outstandingReqs h = some (req, ctx) ∧ (rid, req) ∈ m.addRequests

/-- Nothing was requested through a new context. -/
theorem Keeps.requested_iff {asked : List (ReplicaID × Hash)} (K : Keeps asked m) (rid : ReplicaID)
    (h : Hash) : (rid, (m.context h).1) ∈ m.addRequests ↔ (rid, h) ∈ asked := by
  rw [K.asked_iff]
  unfold context
  cases hctx : m.outstandingReqs h with
  | none =>
      simp only [Option.getD_none, reduceCtorEq, false_and, exists_false, iff_false]
      exact fun hmem => Nat.lt_irrefl _ (K.made _ hmem)
  | some c =>
      constructor
      · exact fun hmem => ⟨c.1, c.2, rfl, hmem⟩
      · rintro ⟨req, ctx, heq, hmem⟩
        obtain rfl := Option.some.inj heq
        exact hmem

/-- The context a request goes through: nothing is noted in it, and no other hash has it. -/
theorem Keeps.context_spec {asked : List (ReplicaID × Hash)} (K : Keeps asked m) (h : Hash) :
    (m.context h).1 ≤ m.next ∧ (m.context h).2.requestedFrom = 0#32 ∧
      ∀ {x ctx}, x ≠ h → m.outstandingReqs x ≠ some ((m.context h).1, ctx) := by
  unfold context
  cases hctx : m.outstandingReqs h with
  | none => exact ⟨le_rfl, rfl, fun _ hx => Nat.lt_irrefl _ (K.lt_next hx)⟩
  | some c =>
      have hctx' : m.outstandingReqs h = some (c.1, c.2) := hctx
      exact ⟨(K.lt_next hctx').le, K.unmarked hctx', fun hne hx => hne (K.apart hx hctx')⟩

/-- **A request for a valid target always reaches the queue**: no context says that it was made. -/
theorem Keeps.addFetchRequest_eq {asked : List (ReplicaID × Hash)} (K : Keeps asked m)
    {target : ReplicaID} (hvalid : config.isValidReplica target = true) (h : Hash)
    (events : List Copy) : m.addFetchRequest config h target events =
      (m.addRequest target (m.context h).1 h).setContext h (m.context h).1
        ((m.context h).2.addNetworkEvents events) := by
  have hunmarked := (K.context_spec h).2.1
  unfold FetchQueues.addFetchRequest RequestContext.wasRequestedFrom
  simp [hvalid, hunmarked]

theorem outstandingReqs_setContext (m : FetchQueues) (target : ReplicaID) (req : RequestPtr)
    (h x : Hash) (ctx : RequestContext) :
    ((m.addRequest target req h).setContext h req ctx).outstandingReqs x =
      if x = h then some (req, ctx) else m.outstandingReqs x := by
  by_cases hx : x = h
  · subst hx
    simp [setContext]
  · simp [setContext, addRequest, hx]

/-- A new context takes the next address. -/
theorem next_setContext (m : FetchQueues) (target : ReplicaID) {req : RequestPtr} (h : Hash)
    (ctx : RequestContext) (hle : req ≤ m.next) :
    m.next ≤ ((m.addRequest target req h).setContext h req ctx).next ∧
      req < ((m.addRequest target req h).setContext h req ctx).next := by
  by_cases hfresh : req = m.next
  · simp [setContext, addRequest, hfresh]
  · simp [setContext, addRequest, hfresh, Nat.lt_of_le_of_ne hle hfresh]

/-- **Step lemma for a request.** -/
theorem Keeps.addFetchRequest {asked : List (ReplicaID × Hash)} (K : Keeps asked m)
    {target : ReplicaID} (hvalid : config.isValidReplica target = true) (h : Hash)
    (events : List Copy) :
    Keeps ((target, h) :: asked) (m.addFetchRequest config h target events) := by
  obtain ⟨hle, hunmarked, hother⟩ := K.context_spec h
  have hasked := K.requested_iff
  rw [K.addFetchRequest_eq hvalid]
  generalize hreq : (m.context h).1 = req at *
  generalize (m.context h).2 = ctx at *
  have hgrow := next_setContext m target h (ctx.addNetworkEvents events) hle
  constructor
  · intro x r c hx
    rw [outstandingReqs_setContext] at hx
    split at hx
    · obtain ⟨rfl, -⟩ := Prod.mk.inj (Option.some.inj hx)
      exact hgrow.2
    · exact (K.lt_next hx).trans_le hgrow.1
  · intro x r c hx
    rw [outstandingReqs_setContext] at hx
    split at hx
    · obtain ⟨-, rfl⟩ := Prod.mk.inj (Option.some.inj hx)
      exact hunmarked
    · exact K.unmarked hx
  · -- only the hash that is asked for has its context
    intro x x' r c c' hx hx'
    rw [outstandingReqs_setContext] at hx hx'
    split at hx <;> split at hx'
    · simp_all
    · rename_i hne
      obtain ⟨rfl, -⟩ := Prod.mk.inj (Option.some.inj hx)
      exact (hother hne hx').elim
    · rename_i hne _
      obtain ⟨rfl, -⟩ := Prod.mk.inj (Option.some.inj hx')
      exact (hother hne hx).elim
    · exact K.apart hx hx'
  · intro e he
    rcases List.mem_append.mp he with he | he
    · exact (K.made e he).trans_le hgrow.1
    · rw [List.mem_singleton.mp he]
      exact hgrow.2
  · -- the log grows by the new request, whose context is that of `h`
    intro rid x
    have hlog : ((m.addRequest target req h).setContext h req
        (ctx.addNetworkEvents events)).addRequests = m.addRequests ++ [(target, req)] := rfl
    simp only [hlog, outstandingReqs_setContext, List.mem_cons, List.mem_append, List.not_mem_nil,
      or_false, Prod.mk.injEq]
    by_cases hx : x = h
    · subst hx
      have hrid := hasked rid x
      rw [hreq] at hrid
      rw [← hrid]
      simp [or_comm]
    · -- the new request went through another context
      rw [K.asked_iff]
      simp only [hx, if_false, and_false, false_or]
      constructor
      · rintro ⟨r, c, hr, hmem⟩
        exact ⟨r, c, hr, Or.inl hmem⟩
      · rintro ⟨r, c, hr, hmem | ⟨-, rfl⟩⟩
        · exact ⟨r, c, hr, hmem⟩
        · exact (hother hx hr).elim

/-- **Step lemma for a delivery.** -/
theorem Keeps.deliverBlock {asked : List (ReplicaID × Hash)} (K : Keeps asked m) (h : Hash) :
    Keeps (asked.filter (·.2 ≠ h)) (m.deliverBlock h).2 ∧
      (m.deliverBlock h).2.addRequests = m.addRequests := by
  have hspec : (∀ x, (m.deliverBlock h).2.outstandingReqs x =
      if x = h then none else m.outstandingReqs x) ∧
      (m.deliverBlock h).2.next = m.next ∧ (m.deliverBlock h).2.addRequests = m.addRequests := by
    unfold FetchQueues.deliverBlock
    cases hctx : m.outstandingReqs h with
    | none =>
        refine ⟨fun x => ?_, rfl, rfl⟩
        by_cases hx : x = h
        · subst hx
          simp [hctx]
        · simp [hx]
    | some c =>
        refine ⟨fun x => ?_, rfl, rfl⟩
        by_cases hx : x = h
        · subst hx
          simp
        · simp [hx]
  obtain ⟨hlookup, hnext, hlog⟩ := hspec
  have hold : ∀ {x c}, (m.deliverBlock h).2.outstandingReqs x = some c →
      x ≠ h ∧ m.outstandingReqs x = some c := by
    intro x c hx
    rw [hlookup] at hx
    split at hx
    · cases hx
    · exact ⟨‹_›, hx⟩
  refine ⟨⟨?_, ?_, ?_, ?_, ?_⟩, hlog⟩
  · intro x r c hx
    rw [hnext]
    exact K.lt_next (hold hx).2
  · exact fun hx => K.unmarked (hold hx).2
  · exact fun hx hx' => K.apart (hold hx).2 (hold hx').2
  · rw [hlog, hnext]
    exact K.made
  · intro rid x
    rw [List.mem_filter, K.asked_iff, hlog, hlookup]
    by_cases hx : x = h
    · simp [hx]
    · simp [hx]

theorem Keeps.init : Keeps [] init where
  lt_next := fun h => by cases h
  unmarked := fun h => by cases h
  apart := fun h => by cases h
  made := fun e he => absurd he List.not_mem_nil
  asked_iff := by simp [FetchQueues.init]

/-- Calls of `add_request` are only added to. -/
theorem prefix_foldl_call (config : ReplicaConfig) (calls : List FetchCall) (m : FetchQueues) :
    m.addRequests <+: (calls.foldl (call config) m).addRequests := by
  induction calls generalizing m with
  | nil => exact List.prefix_refl _
  | cons c calls ih =>
      refine List.IsPrefix.trans ?_ (ih (call config m c))
      cases c with
      | addFetchRequest h target events =>
          show _ <+: (m.addFetchRequest config h target events).addRequests
          unfold FetchQueues.addFetchRequest
          split
          · exact List.prefix_refl _
          · dsimp only
            split
            · exact List.prefix_append _ _
            · exact List.prefix_refl _
      | deliverBlock h =>
          show _ <+: (m.deliverBlock h).2.addRequests
          unfold FetchQueues.deliverBlock
          split <;> exact List.prefix_refl _

/-- **Run lemma**, from any state where nothing was requested twice so far. -/
theorem Keeps.nodup_iff {calls : List FetchCall} :
    ∀ {asked : List (ReplicaID × Hash)} {m : FetchQueues}, Keeps asked m → m.addRequests.Nodup →
      ((calls.foldl (call config) m).addRequests.Nodup ↔ NoRepeats config asked calls) := by
  induction calls with
  | nil => exact fun _ hnodup => iff_of_true hnodup trivial
  | cons c calls ih =>
      intro asked m K hnodup
      rw [List.foldl_cons]
      cases c with
      | deliverBlock h =>
          obtain ⟨K', hlog⟩ := K.deliverBlock h
          exact ih K' (hlog.symm ▸ hnodup)
      | addFetchRequest h target events =>
          unfold NoRepeats
          by_cases hvalid : config.isValidReplica target = true
          · rw [if_pos hvalid]
            have K' := K.addFetchRequest hvalid h events
            have hlog : (m.addFetchRequest config h target events).addRequests =
                m.addRequests ++ [(target, (m.context h).1)] := by
              rw [K.addFetchRequest_eq hvalid]
              rfl
            have hnew : (m.addFetchRequest config h target events).addRequests.Nodup ↔
                (target, h) ∉ asked := by
              rw [hlog, ← K.requested_iff, List.nodup_append]
              simp only [List.nodup_singleton, List.mem_singleton, forall_eq, true_and, hnodup]
              exact ⟨fun hd hmem => hd _ hmem rfl, fun hno e he heq => hno (heq ▸ he)⟩
            -- the log only grows, so a repetition in it now stays to the end
            constructor
            · intro hall
              have hhead := hnew.mp (hall.sublist
                (prefix_foldl_call config calls (m.addFetchRequest config h target events)).sublist)
              exact ⟨hhead, (ih K' (hnew.mpr hhead)).mp hall⟩
            · exact fun hno => (ih K' (hnew.mpr hno.1)).mpr hno.2
          · rw [if_neg hvalid]
            have hsame : m.addFetchRequest config h target events = m := by
              unfold FetchQueues.addFetchRequest
              simp [hvalid]
            rw [show call config m (.addFetchRequest h target events) = m from hsame]
            exact ih K hnodup

/-- **When a replica is asked once.** After any sequence of calls, every queue has got at most one
request for each stretch of time in which a hash was outstanding, if and only if no call repeats hash
and target of an earlier one without a delivery between the two. -/
theorem one_request_each_iff (config : ReplicaConfig) (calls : List FetchCall) :
    (run config calls).OneRequestEach ↔ NoRepeats config [] calls := by
  unfold OneRequestEach
  rw [← List.nodup_iff_count_le_one]
  exact Keeps.init.nodup_iff List.nodup_nil

/-- Two events that wait for one block make its sender be asked twice. -/
theorem asked_twice : ¬ ∀ (config : ReplicaConfig) (calls : List FetchCall),
    (run config calls).OneRequestEach := by
  intro hall
  have honce := hall ⟨[⟨0, 0#256⟩], 1, 1⟩ [.addFetchRequest 7#256 0 [], .addFetchRequest 7#256 0 []]
  have hnodup := (Keeps.init.nodup_iff List.nodup_nil).mp (List.nodup_iff_count_le_one.mpr honce)
  exact hnodup.2.1 List.mem_cons_self

end FetchQueues

end Fred.Hotstuff
