/-
# Fred.Hotstuff.NetworkQueue -- the network thread

`network_event_queue.cc` over `generic_event_queue.h`. The queue is a buffer that other threads
append to (`events`) and the batch the network thread has taken and is running (`workList`). An event
that needs a missing block is parked with the fetch manager, one that needs nothing is passed to the
event queue of the core. `handed` records the latter.

`Fred.Hotstuff.App` lets an accepted network event run at any time; a node runs it when its queue
does. Every step of a node is a step of its replica, or leaves it alone (`Node.step_replica`), so what
holds of every reached replica holds of the replica of a node.
-/
import Fred.Hotstuff.FetchManager
import Fred.Hotstuff.Outside

namespace Fred.Hotstuff

open Fred.Transition

variable {V : Type}

/-- A replica with its network queue and fetch manager. -/
structure Node (V : Type) where
  replica : Replica V
  fetcher : BlockFetchManager
  /-- The rest of the batch being run. -/
  workList : List Copy
  events : List Copy
  /-- The events the event queue of the core has taken. -/
  handed : List Copy

namespace Node

abbrev Result (V : Type) := Except (Exn × Node V) (Node V)

/-- `add_events_`. -/
def addEvents (es : List Copy) (s : Node V) : Node V := { s with events := s.events ++ es }

/-- `add_fetch_request` and `deliver_block` of the fetch manager. -/
def addFetchRequest (E : Setup V) (h : Hash) (target : ReplicaID) (es : List Copy) (s : Node V) :
    Node V :=
  { s with fetcher := s.fetcher.addFetchRequest E.config h target es }

def deliverBlock (p : BlockPtr) (s : Node V) : List Copy × Node V :=
  let r := s.fetcher.deliverBlock (s.replica.heap.get p).getHash
  (r.1, { s with fetcher := r.2 })

/-- `validate_and_add_event` of the event queue on an event made from `c`. -/
def handToCore (c : Copy) (e : Event) (s : Node V) : Result V :=
  match s.replica.validateAndAddEvent e with
  | .error (x, r) => .error (x, { s with replica := r })
  | .ok r => .ok { s with
      replica := r
      handed := if r.eventQueue = s.replica.eventQueue then s.handed else s.handed ++ [c] }

/-- The branch of `on_event` where something is missing: what waited for the block waits with it, for
the parent if that is missing and for the certified block else. -/
def parkEvent (E : Setup V) (c : Copy) (blk : BlockPtr) (source : ReplicaID)
    (missing : BlockStore.MissingDependencies) (s : Node V) : Node V :=
  match s.deliverBlock blk with
  | (dep, s) =>
    let depEvents := dep ++ [c]
    match missing.parentHash, missing.justifyHash with
    | some parent, some justify =>
      (s.addFetchRequest E parent source depEvents).addFetchRequest E justify source []
    | some parent, none => s.addFetchRequest E parent source depEvents
    | none, some justify => s.addFetchRequest E justify source depEvents
    | none, none => s

/-- `insert_block` on the block of a proposal or an answer; then `add_events_(deliver_block(blk))`, or
the branch above. The flag says that nothing was missing. -/
def insertAndDeliver (E : Setup V) (c : Copy) (blk : BlockPtr) (source : ReplicaID) (s : Node V) :
    Bool × Node V :=
  match s.replica.blockStore.insertBlock s.replica.heap blk with
  | (store, heap, missing) =>
    let s := { s with replica := { s.replica with heap := heap, blockStore := store } }
    if missing.any then (false, s.parkEvent E c blk source missing)
    else
      match s.deliverBlock blk with
      | (dep, s) => (true, s.addEvents dep)

/-- `on_event`. -/
def onEvent (E : Setup V) (c : Copy) (s : Node V) : Result V :=
  match c.event with
  | .vote cert voter =>
    match s.replica.blockStore.getBlock cert.hash with
    | some blk => s.handToCore c (.vote cert blk voter)
    | none => .ok (s.addFetchRequest E cert.hash voter [c])
  | .proposal blk proposer =>
    match s.insertAndDeliver E c blk proposer with
    | (true, s) => s.handToCore c (.proposal blk proposer)
    | (false, s) => .ok s
  | .blockReceive blk sender => .ok (s.insertAndDeliver E c blk sender).2

/-! ## Steps -/

/-- The events accepted since there were `n`, each a copy of its own. -/
def copiesFrom (n : ℕ) (accepted : List NetEvent) : List Copy :=
  ((accepted.zipIdx).drop n).map fun e => ⟨e.2, e.1⟩

/-- The replica has taken a step, and what it accepted goes into the queue (`add_event_`). -/
def withReplica (r : Replica V) (s : Node V) : Node V :=
  { s with replica := r }.addEvents (copiesFrom s.replica.netEvents.length r.netEvents)

/-- A step of the replica in a node. -/
def liftStep (E : Setup V) (i : Input) (s : Node V) : Result V :=
  match step E i s.replica with
  | .error (x, r) => .error (x, { s with replica := r })
  | .ok r => .ok (s.withReplica r)

/-- What can happen next at a node. -/
inductive Action where
  /-- A message arrives, or a thread other than network and fetch threads does something. -/
  | replica (i : Input)
  /-- The network thread takes the buffered events as its next batch. -/
  | takeEvents
  /-- The network thread runs the next event of its batch. -/
  | runEvent
  | sendFetch (rid : ReplicaID)
  | fetchFailed (rid : ReplicaID)
  | fetchReply (rid : ReplicaID) (responses : List HotstuffBlockWire)
  /-- The worker passes the next block of its response to the network queue. -/
  | takeReply (rid : ReplicaID)
  deriving DecidableEq, Repr

/-- Network events are run by the network thread, and only the fetch workers receive answers. -/
def ownInput : Input → Bool
  | .netEvent _ => false
  | .fetchResponse _ _ => false
  | _ => true

def modifyWorker (rid : ReplicaID) (f : BlockFetchWorker → BlockFetchWorker) (s : Node V) : Node V :=
  { s with fetcher := s.fetcher.modifyWorker rid f }

/-- One round of the loop over the responses. -/
def takeReply (E : Setup V) (rid : ReplicaID) (s : Node V) : Result V :=
  match (s.fetcher.workers rid).round with
  | .replied req (wire :: responses) =>
    (s.modifyWorker rid fun w => { w with round := .replied req responses }).liftStep E
      (.fetchResponse wire rid)
  | .replied _ [] => .ok (s.modifyWorker rid fun w => { w with round := .idle })
  | _ => .ok s

def step (E : Setup V) (a : Action) (s : Node V) : Result V :=
  match a with
  | .replica i => if ownInput i then s.liftStep E i else .ok s
  | .takeEvents =>
    match s.workList with
    | [] => .ok { s with workList := s.events, events := [] }
    | _ => .ok s
  | .runEvent =>
    match s.workList with
    | [] => .ok s
    | c :: rest => onEvent E c { s with workList := rest }
  | .sendFetch rid => .ok (s.modifyWorker rid BlockFetchWorker.sendFetch)
  | .fetchFailed rid => .ok (s.modifyWorker rid BlockFetchWorker.fetchFailed)
  | .fetchReply rid responses => .ok (s.modifyWorker rid fun w => w.fetchReply responses)
  | .takeReply rid => s.takeReply E rid

/-- A node after `init_clean` on a fresh data directory. -/
def start (E : Setup V) : Node V := ⟨Hotstuff.start E, .init, [], [], []⟩

end Node

end Fred.Hotstuff
