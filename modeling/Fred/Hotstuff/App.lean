/-
# Fred.Hotstuff.App -- proposing, network events and the steps of a replica

`hotstuff.cc`, `network_event.cc`, `network_event_queue.cc`, `event.cc`, `hotstuff_server.cc` and the
self client of `hotstuff_protocol_manager.cc`. `Input` lists what can happen next at a replica and
`step` what it does then, as one piece: what one thread does between taking work up and being done with it.

The threads themselves overlap in finer ways. `run` takes all events out of the queue before it processes
the first, and of an event only `update_hqc` takes `proposal_mutex`, which `do_propose` holds from beginning
to end; so a block can be proposed while an event is under way. Of what `do_propose` reads, an event writes
the highest certificate and `b_leaf` in `update_hqc` only; no event reads `b_leaf` otherwise, and nothing
else in it depends on a block that has just been minted. The bridge is called by both, and what is proved of
bridges is proved of calls in any order. Where it matters how far an event has come, that is for what is
decided when a block is proposed, `Fred.Hotstuff.Sections` cuts events up at these points. The collector
runs inside an event as well (`schedule`).

The network queue and the fetch manager hold accepted network events until they run, and put one back
when a block it needs arrives. Here an accepted event may run at any time and any number of times,
which allows every order the queue and the fetch manager can produce.
-/
import Fred.Hotstuff.Consensus

namespace Fred.Hotstuff

variable {V : Type}

namespace Replica

/-! ## Proposing -/

/-- `mint_block`, `insert_block` and `broadcast_proposal`: the common end of `do_propose` and
`do_empty_propose`. -/
def proposeBody (E : Setup V) (body : List UInt8) (s : Replica V) : Result V :=
  let blk := HotstuffBlock.mintBlock E.crypto body s.hqc.2 (s.heap.hash s.bLeaf) E.selfId
  let p := s.heap.next
  let heap := s.heap.alloc blk
  match s.blockStore.insertBlock heap p with
  | (store, heap, missing) =>
    let s := { s with heap := heap, blockStore := store }
    if missing.any then .error (.runtimeError "failed to insert newly minted block?", s)
    else
      let s := { s with bLeaf := p }
      -- propose to self first
      match s.validateAndAddEvent (.proposal p E.selfId) with
      | .error e => .error e
      | .ok s => .ok (s.emit (.proposed p (s.heap.hash p)))

/-- Both proposing functions: they differ in whether the machine is asked for a block. -/
def proposeWith (E : Setup V) (nonempty : Bool) (s : Replica V) : Result V :=
  match E.vm.getNextVmBlock nonempty (s.heap.height s.bLeaf + 1) s.vm with
  | .error what => .error (.vm what, s)
  | .ok (body, vm) => proposeBody E body { s with vm := vm }

def doPropose (E : Setup V) (s : Replica V) : Result V :=
  proposeWith E (s.heap.supportsNonemptyChildProposal E.selfId 3 s.bLeaf) s

def doEmptyPropose (E : Setup V) (s : Replica V) : Result V := proposeWith E false s

/-! ## The network side -/

/-- `validate_and_add_event` of the network queue on a block from `source`: the block object is made,
and the event is accepted if the block passes `validate_hotstuff`. -/
def acceptBlock (E : Setup V) (wire : HotstuffBlockWire) (source : ReplicaID)
    (event : BlockPtr → NetEvent) (s : Replica V) : Result V :=
  let blk := HotstuffBlock.receiveBlock E.crypto wire source
  match blk.validateHotstuff E.crypto E.config with
  | .error e => .error (e, s)
  | .ok false => .ok s
  | .ok true =>
    .ok { s with
      heap := s.heap.alloc blk
      netEvents := s.netEvents ++ [event s.heap.next] }

/-- `propose` of the protocol server. -/
def receivePropose (E : Setup V) (proposal : HotstuffBlockWire) (proposer : ReplicaID)
    (s : Replica V) : Result V :=
  if !E.config.isValidReplica proposer then .ok s
  else acceptBlock E proposal proposer (.proposal · proposer) s

/-- A block in an answer of the replica `sender` to a fetch request. -/
def receiveFetched (E : Setup V) (response : HotstuffBlockWire) (sender : ReplicaID)
    (s : Replica V) : Result V :=
  acceptBlock E response sender (.blockReceive · sender) s

/-- `vote` of the protocol server. -/
def receiveVote (E : Setup V) (cert : PartialCertificateWire) (voter : ReplicaID) (s : Replica V) :
    Result V :=
  if !E.config.isValidReplica voter then .ok s
  else match E.config.getInfo voter with
    | .error e => .error (e, s)
    | .ok info =>
      if PartialCertificate.validate E.crypto cert info then
        .ok { s with netEvents := s.netEvents ++ [.vote cert voter] }
      else .ok s

/-- `insert_block` on an accepted block; the flag says that nothing was missing. -/
def insertBlock (p : BlockPtr) (s : Replica V) : Bool × Replica V :=
  match s.blockStore.insertBlock s.heap p with
  | (store, heap, missing) => (!missing.any, { s with heap := heap, blockStore := store })

/-- `on_event` of the network queue. Where something is missing the event waits for it. -/
def onNetEvent (e : NetEvent) (s : Replica V) : Result V :=
  match e with
  | .vote cert voter =>
    match s.blockStore.getBlock cert.hash with
    | none => .ok s
    | some blk => s.validateAndAddEvent (.vote cert blk voter)
  | .proposal blk proposer =>
    match insertBlock blk s with
    | (false, s) => .ok s
    | (true, s) => s.validateAndAddEvent (.proposal blk proposer)
  | .blockReceive blk _ => .ok (insertBlock blk s).2

/-! ## Steps -/

/-- `on_event` of the event queue. -/
def onEvent (E : Setup V) (e : Event) (s : Replica V) : Result V :=
  match e with
  | .vote cert block rid => onReceiveVote E cert block rid s
  | .proposal block rid => onReceiveProposal E block rid s

end Replica

/-- What can happen next at a replica. -/
inductive Input where
  /-- A `ProposeMessage` arrives. -/
  | proposeMessage (proposal : HotstuffBlockWire) (proposer : ReplicaID)
  /-- A `VoteMessage` arrives. -/
  | voteMessage (vote : PartialCertificateWire) (voter : ReplicaID)
  /-- A block arrives that `sender` was asked for. -/
  | fetchResponse (response : HotstuffBlockWire) (sender : ReplicaID)
  /-- The network thread runs an accepted event. -/
  | netEvent (e : NetEvent)
  /-- The consensus thread runs the next event, the collector thread as the schedule says. -/
  | event (schedule : List ℕ)
  | doPropose
  | doEmptyPropose
  /-- The collector thread takes a step between two events. -/
  | collect
  /-- The thread of the virtual machine takes a step. -/
  | runVm
  deriving DecidableEq, Repr

open Replica in
def step (E : Setup V) (i : Input) (s : Replica V) : Result V :=
  match i with
  | .proposeMessage proposal proposer => receivePropose E proposal proposer s
  | .voteMessage vote voter => receiveVote E vote voter s
  | .fetchResponse response sender => receiveFetched E response sender s
  | .netEvent e => if e ∈ s.netEvents then onNetEvent e s else .ok s
  | .event schedule =>
    match s.eventQueue with
    | [] => .ok s
    | e :: rest => onEvent E e { s with eventQueue := rest, schedule := schedule }
  | .doPropose => doPropose E s
  | .doEmptyPropose => doEmptyPropose E s
  | .collect => .ok s.collect
  | .runVm => .ok { s with vm := E.vm.run s.vm }

/-! ## Starting -/

/-- The data directory: the block files and the index. It outlives the process. -/
structure Disk where
  files : Hash → Option HotstuffBlockWire
  index : HotstuffLMDB

def Disk.fresh : Disk := ⟨fun _ => none, .fresh⟩

/-- The constructor of the app, then `init_clean`. -/
def initClean (E : Setup V) (disk : Disk) : Except Exn (Replica V) :=
  match disk.index.createDb with
  | .error e => .error e
  | .ok index => .ok (Replica.make disk.files index E.vm.initClean)

/-- The state after `init_clean` on a fresh data directory. -/
def start (E : Setup V) : Replica V := Replica.make (fun _ => none) ⟨[], none, some 0⟩ E.vm.initClean

theorem initClean_fresh (E : Setup V) : initClean E .fresh = .ok (start E) := rfl

end Fred.Hotstuff
