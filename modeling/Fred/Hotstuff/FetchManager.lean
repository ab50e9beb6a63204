/-
# Fred.Hotstuff.FetchManager -- requests for missing blocks

`block_storage/block_fetch_manager.cc` and `block_storage/block_fetch_worker.cc`. A `RequestContext`
parks the network events that wait for one block; `outstanding_reqs` is a `std::map`, so at most one
context for each hash. There is a worker for each configured replica. A worker takes its set of
hashes, asks the replica for them in one call, and waits.

`ReplicaFetchQueue` also keeps its contexts in a vector, and drops the received ones from it now and
then. Nothing else reads that vector nor the flag `block_is_received`; both are left out.
-/
import Fred.Hotstuff.Replica
import Mathlib.Data.List.AList

namespace Fred.Hotstuff

/-- A `NetEvent` in the network queue. The code passes events by value; the number tells two equal
ones apart. -/
structure Copy where
  ticket : ℕ
  event : NetEvent
  deriving DecidableEq, Repr

/-! ## `RequestContext` -/

structure RequestContext where
  dependentNetworkEvents : List Copy
  requestedFrom : ReplicaIDBitMap
  deriving DecidableEq, Repr

namespace RequestContext

def init : RequestContext := ⟨[], 0#32⟩

def addNetworkEvents (ctx : RequestContext) (events : List Copy) : RequestContext :=
  { ctx with dependentNetworkEvents := ctx.dependentNetworkEvents ++ events }

def wasRequestedFrom (ctx : RequestContext) (rid : ReplicaID) : Bool :=
  ctx.requestedFrom.getLsbD rid

end RequestContext

/-! ## `BlockFetchWorker` -/

/-- Where the loop of `run` stands. -/
inductive FetchRound where
  | idle
  /-- `client -> fetch(req)` has been called. -/
  | waiting (req : List Hash)
  /-- The call has returned; these blocks are still to be passed to the network queue. -/
  | replied (req : List Hash) (responses : List HotstuffBlockWire)
  deriving DecidableEq, Repr

/-- The hashes of the request the loop is busy with. -/
def FetchRound.req : FetchRound → List Hash
  | .idle => []
  | .waiting req => req
  | .replied req _ => req

structure BlockFetchWorker where
  /-- A `std::set`. -/
  reqs : List Hash
  round : FetchRound
  deriving DecidableEq, Repr

namespace BlockFetchWorker

def init : BlockFetchWorker := ⟨[], .idle⟩

def addRequest (w : BlockFetchWorker) (request : Hash) : BlockFetchWorker :=
  { w with reqs := w.reqs.insert request }

/-- `readd_request`, after a call that failed. -/
def readdRequest (w : BlockFetchWorker) (req : List Hash) : BlockFetchWorker :=
  { w with reqs := w.reqs ∪ req }

/-- The top of the loop: with something to ask for, `extract_reqs` and the call. -/
def sendFetch (w : BlockFetchWorker) : BlockFetchWorker :=
  match w.round, w.reqs with
  | .idle, r :: rs => { reqs := [], round := .waiting (r :: rs) }
  | _, _ => w

/-- The call comes to nothing. -/
def fetchFailed (w : BlockFetchWorker) : BlockFetchWorker :=
  match w.round with
  | .waiting req => { w.readdRequest req with round := .idle }
  | _ => w

/-- The call returns a response. -/
def fetchReply (w : BlockFetchWorker) (responses : List HotstuffBlockWire) : BlockFetchWorker :=
  match w.round with
  | .waiting req => { w with round := .replied req responses }
  | _ => w

/-- The hash is in the pending set or in the request under way. -/
def Wants (w : BlockFetchWorker) (h : Hash) : Prop := h ∈ w.reqs ∨ h ∈ w.round.req

end BlockFetchWorker

/-! ## `BlockFetchManager` -/

structure BlockFetchManager where
  outstandingReqs : AList fun _ : Hash => RequestContext
  workers : ReplicaID → BlockFetchWorker

namespace BlockFetchManager

def init : BlockFetchManager := ⟨∅, fun _ => .init⟩

def modifyWorker (m : BlockFetchManager) (rid : ReplicaID)
    (f : BlockFetchWorker → BlockFetchWorker) : BlockFetchManager :=
  { m with workers := Function.update m.workers rid (f (m.workers rid)) }

def addFetchRequest (config : ReplicaConfig) (requestedBlock : Hash) (requestTarget : ReplicaID)
    (dependentEvents : List Copy) (m : BlockFetchManager) : BlockFetchManager :=
  if !config.isValidReplica requestTarget then m
  else
    let ctx := (m.outstandingReqs.lookup requestedBlock).getD .init
    let m := if !ctx.wasRequestedFrom requestTarget then
        m.modifyWorker requestTarget fun w => w.addRequest requestedBlock
      else m
    { m with
      outstandingReqs := m.outstandingReqs.insert requestedBlock
        (ctx.addNetworkEvents dependentEvents) }

/-- `deliver_block` for a block of the given hash: the events to run. -/
def deliverBlock (hash : Hash) (m : BlockFetchManager) : List Copy × BlockFetchManager :=
  match m.outstandingReqs.lookup hash with
  | none => ([], m)
  | some ctx =>
    (ctx.dependentNetworkEvents, { m with outstandingReqs := m.outstandingReqs.erase hash })

/-- All parked events. -/
def parked (m : BlockFetchManager) : List Copy :=
  m.outstandingReqs.entries.flatMap fun e => e.2.dependentNetworkEvents

theorem mem_parked {m : BlockFetchManager} {c : Copy} : c ∈ m.parked ↔
    ∃ h ctx, m.outstandingReqs.lookup h = some ctx ∧ c ∈ ctx.dependentNetworkEvents := by
  unfold parked
  rw [List.mem_flatMap]
  constructor
  · rintro ⟨⟨h, ctx⟩, he, hc⟩
    exact ⟨h, ctx, AList.mem_lookup_iff.mpr he, hc⟩
  · rintro ⟨h, ctx, hl, hc⟩
    exact ⟨⟨h, ctx⟩, AList.mem_lookup_iff.mp hl, hc⟩

/-- Taking a context out of the map takes its events out of the parked ones. -/
theorem parked_erase {m : BlockFetchManager} {h : Hash} {ctx : RequestContext}
    (hctx : m.outstandingReqs.lookup h = some ctx) :
    m.parked.Perm (ctx.dependentNetworkEvents ++
      (m.outstandingReqs.erase h).entries.flatMap fun e => e.2.dependentNetworkEvents) := by
  have hkey : h ∈ m.outstandingReqs.entries.keys :=
    AList.mem_keys.mp (AList.lookup_isSome.mp (by rw [hctx]; rfl))
  obtain ⟨b, l₁, l₂, -, hl, herase⟩ := List.exists_of_kerase hkey
  have hb : b = ctx := by
    have hmem : (⟨h, b⟩ : Sigma fun _ : Hash => RequestContext) ∈ m.outstandingReqs.entries := by
      rw [hl]
      simp
    exact Option.some.inj ((AList.mem_lookup_iff.mpr hmem).symm.trans hctx)
  have hentries : (m.outstandingReqs.erase h).entries = l₁ ++ l₂ := herase
  unfold parked
  rw [hentries, hl, hb]
  simp only [List.flatMap_append, List.flatMap_cons]
  rw [← List.append_assoc, ← List.append_assoc]
  exact List.Perm.append_right _ List.perm_append_comm

/-- **Delivering a block moves the events that wait for it, and no others.** -/
theorem parked_deliverBlock (m : BlockFetchManager) (h : Hash) :
    m.parked.Perm ((m.deliverBlock h).1 ++ (m.deliverBlock h).2.parked) := by
  unfold deliverBlock
  split
  · exact List.Perm.refl _
  · rename_i ctx hctx
    exact parked_erase hctx

theorem workers_deliverBlock (m : BlockFetchManager) (h : Hash) :
    (m.deliverBlock h).2.workers = m.workers := by
  unfold deliverBlock
  split <;> rfl

/-- After the delivery no request for the block is outstanding; the others are as before. -/
theorem lookup_deliverBlock (m : BlockFetchManager) (h x : Hash) :
    (m.deliverBlock h).2.outstandingReqs.lookup x =
      if x = h then none else m.outstandingReqs.lookup x := by
  unfold deliverBlock
  by_cases hx : x = h
  · subst hx
    split
    · rename_i hnone
      simpa using hnone
    · simp [AList.lookup_erase]
  · split
    · simp [hx]
    · simp [hx, AList.lookup_erase_ne]

/-- **A request parks its events**, behind those that wait for the same block. -/
theorem parked_addFetchRequest {config : ReplicaConfig} {target : ReplicaID}
    (hvalid : config.isValidReplica target = true) (h : Hash) (events : List Copy)
    (m : BlockFetchManager) :
    (m.addFetchRequest config h target events).parked.Perm (m.parked ++ events) := by
  have hnew : (m.addFetchRequest config h target events).parked =
      (((m.outstandingReqs.lookup h).getD .init).dependentNetworkEvents ++ events) ++
        (m.outstandingReqs.erase h).entries.flatMap fun e => e.2.dependentNetworkEvents := by
    unfold addFetchRequest
    simp only [hvalid, Bool.not_true, Bool.false_eq_true, if_false]
    split <;> rfl
  have hold : m.parked.Perm (((m.outstandingReqs.lookup h).getD .init).dependentNetworkEvents ++
      (m.outstandingReqs.erase h).entries.flatMap fun e => e.2.dependentNetworkEvents) := by
    rcases hctx : m.outstandingReqs.lookup h with _ | ctx
    · have hkey : h ∉ m.outstandingReqs.entries.keys := by
        have := AList.lookup_eq_none.mp hctx
        rwa [AList.mem_keys] at this
      have hsame : (m.outstandingReqs.erase h).entries = m.outstandingReqs.entries :=
        List.kerase_of_notMem_keys hkey
      rw [hsame]
      exact List.Perm.refl _
    · exact parked_erase hctx
  rw [hnew, List.append_assoc]
  refine List.Perm.trans ?_ (hold.append_right events).symm
  rw [List.append_assoc]
  exact List.Perm.append_left _ List.perm_append_comm

theorem lookup_addFetchRequest {config : ReplicaConfig} {target : ReplicaID}
    (hvalid : config.isValidReplica target = true) (h x : Hash) (events : List Copy)
    (m : BlockFetchManager) :
    (m.addFetchRequest config h target events).outstandingReqs.lookup x =
      if x = h then some (((m.outstandingReqs.lookup h).getD .init).addNetworkEvents events)
      else m.outstandingReqs.lookup x := by
  unfold addFetchRequest
  simp only [hvalid, Bool.not_true, Bool.false_eq_true, if_false]
  by_cases hx : x = h
  · subst hx
    split <;> simp [AList.lookup_insert]
  · split <;> simp [hx, AList.lookup_insert_ne, modifyWorker]

end BlockFetchManager

end Fred.Hotstuff
