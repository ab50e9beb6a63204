/-
# Fred.Hotstuff.Replica -- the state of a replica and the calls consensus makes on it

The fields of `HotstuffCore` and `HotstuffAppBase`, the files of the data directory, and the virtual
functions through which `HotstuffCore` reaches the application. `HotstuffApp` and
`NonspeculativeHotstuffApp` differ in their bridge to the virtual machine only, so the bridge is a
parameter (`VmBridge`); `notify_vm_of_qc_on_nonself_block` does nothing in both and is left out.

A call that throws returns the exception with the state at the throw. What a replica does to the
outside is recorded in `trace`. `schedule` says how many steps the collector thread takes at the next
points where it can run while an event is being handled (`pause`).
-/
import Fred.Hotstuff.BlockStore
import Fred.Hotstuff.Lmdb

namespace Fred.Hotstuff

/-! ## Events -/

/-- `Event`: what the consensus thread works on. -/
inductive Event where
  | vote (cert : PartialCertificateWire) (block : BlockPtr) (rid : ReplicaID)
  | proposal (block : BlockPtr) (rid : ReplicaID)
  deriving DecidableEq, Repr

/-- `NetEvent`: a validated message from another replica. -/
inductive NetEvent where
  | vote (cert : PartialCertificateWire) (voter : ReplicaID)
  | proposal (block : BlockPtr) (proposer : ReplicaID)
  | blockReceive (block : BlockPtr) (sender : ReplicaID)
  deriving DecidableEq, Repr

/-- What a replica does to the outside, in the order it does it. -/
inductive Effect where
  /-- `send_vote_to`. -/
  | voted (block : BlockPtr) (height : ℕ) (cert : PartialCertificateWire) (target : ReplicaID)
  /-- `save_block`. -/
  | saved (hash : Hash) (wire : HotstuffBlockWire)
  /-- `apply_block`. -/
  | applied (block : BlockPtr) (hash : Hash) (height : ℕ)
  /-- `broadcast_proposal`. -/
  | proposed (block : BlockPtr) (hash : Hash)
  deriving DecidableEq, Repr

/-! ## The bridge to the virtual machine -/

/-- What the application does with its virtual machine, on a state `V` of bridge and machine. The
identifier of a block in the machine depends on the body alone. -/
structure VmBridge (V : Type) where
  initClean : V
  initFromDisk : HotstuffLMDB → (Hash → Option HotstuffBlockWire) → ℕ → Except String V
  getNextVmBlock : Bool → ℕ → V → Except String (List UInt8 × V)
  /-- `get_block_id(try_vm_parse(body)).serialize()`. -/
  blockId : List UInt8 → List UInt8
  applyBlock : ℕ → List UInt8 → V → Except String V
  notifyVmOfCommitment : ℕ → V → Except String V
  /-- The next thing the thread of the machine does. -/
  run : V → V

/-- What a replica is configured with. -/
structure Setup (V : Type) where
  crypto : Crypto
  config : ReplicaConfig
  selfId : ReplicaID
  secretKey : SecretKey
  vm : VmBridge V

/-! ## The state -/

structure Replica (V : Type) where
  heap : Heap
  /-- Highest QC. -/
  hqc : BlockPtr × QuorumCertificateWire
  /-- Locked block. -/
  bLock : BlockPtr
  /-- Last executed block. -/
  bExec : BlockPtr
  /-- Height of the block last voted for, a `uint32_t`. -/
  vheight : BitVec 32
  /-- Highest tail block. Build on this block. -/
  bLeaf : BlockPtr
  decidedHashIndex : HotstuffLMDB
  blockStore : BlockStore
  eventQueue : List Event
  /-- The network events accepted so far. One that is queued or parked can run at any time. -/
  netEvents : List NetEvent
  latestNewQc : Option Hash
  /-- The block files of the data directory, by the hash in their name. -/
  files : Hash → Option HotstuffBlockWire
  vm : V
  schedule : List ℕ
  trace : List Effect

abbrev Result (V : Type) := Except (Exn × Replica V) (Replica V)

variable {V : Type}

/-- The constructor of `HotstuffAppBase` over a data directory. -/
def Replica.make (files : Hash → Option HotstuffBlockWire) (index : HotstuffLMDB) (vm : V) :
    Replica V where
  heap := .init
  hqc := (genesisPtr, HotstuffBlock.genesisBlock.selfQc.serialize)
  bLock := genesisPtr
  bExec := genesisPtr
  vheight := 0#32
  bLeaf := genesisPtr
  decidedHashIndex := index
  blockStore := .init
  eventQueue := []
  netEvents := []
  latestNewQc := none
  files := files
  vm := vm
  schedule := []
  trace := []

namespace Replica

def emit (s : Replica V) (e : Effect) : Replica V := { s with trace := s.trace ++ [e] }

/-! ## The collector thread -/

/-- One step of the collector thread. -/
def collect (s : Replica V) : Replica V :=
  let r := s.blockStore.gcCollector.collect s.heap
  { s with blockStore := { s.blockStore with gcCollector := r.1 }, heap := r.2 }

def collectN : ℕ → Replica V → Replica V
  | 0, s => s
  | n + 1, s => collectN n s.collect

/-- A point inside an event where the collector thread runs as often as the schedule says. -/
def pause (s : Replica V) : Replica V :=
  match s.schedule with
  | [] => s
  | n :: rest => collectN n { s with schedule := rest }

/-! ## `write_to_disk` -/

/-- `save_block`: the file is named by the hash of the header. -/
def saveBlock (E : Setup V) (p : BlockPtr) (s : Replica V) : Replica V :=
  let wire := (s.heap.get p).wireBlock
  let name := E.crypto.hashHeader wire.header
  { s with files := fun h => if h = name then some wire else s.files h }.emit (.saved name wire)

def setWritten (p : BlockPtr) (s : Replica V) : Replica V :=
  { s with heap := s.heap.modify p fun b => { b with writtenToDisk := true } }

/-- `write_to_disk`: set the flag, save the block, go on with the parent. The first argument bounds
the number of blocks; a block's height is enough (`writeToDisk_spec`). -/
def writeToDisk (E : Setup V) : ℕ → BlockPtr → Replica V → Replica V
  | 0, _, s => s
  | n + 1, p, s =>
    if (s.heap.get p).writtenToDisk then s
    else
      let s := saveBlock E p (setWritten p s).pause
      match s.heap.parent p with
      | none => s
      | some q => writeToDisk E n q s

/-! ## The virtual functions of `HotstuffCore` -/

/-- `validate_and_add_event` of the event queue. -/
def validateAndAddEvent (e : Event) (s : Replica V) : Result V :=
  match e with
  | .vote cert block _ =>
    if s.heap.hash block ≠ cert.hash then
      .error (.runtimeError "built a VoteEvent where blk->get_hash() != cert.hash", s)
    else .ok { s with eventQueue := s.eventQueue ++ [e] }
  | .proposal block _ =>
    -- has not been entered into block storage yet
    if s.heap.height block = 0 then .ok s
    else .ok { s with eventQueue := s.eventQueue ++ [e] }

/-- `do_vote`: forward the vote to `proposer`, which is usually, but does not have to be, the proposer
of the block. -/
def doVote (E : Setup V) (block : BlockPtr) (proposer : ReplicaID) (s : Replica V) : Result V :=
  let cert := PartialCertificate.create E.crypto (s.heap.hash block) E.secretKey
  let s := s.emit (.voted block (s.heap.height block) cert proposer)
  if proposer = E.selfId then s.validateAndAddEvent (.vote cert block E.selfId)
  else if E.config.isValidReplica proposer then .ok s
  else .error (.outOfRange, s)

def onNewQc (hash : Hash) (s : Replica V) : Replica V := { s with latestNewQc := some hash }

/-- `apply_block` of the bridge: parse the body, write the index entry, hand the block to the
machine. -/
def applyBlock (E : Setup V) (blk : BlockPtr) (tx : HotstuffLMDB.Txn) (s : Replica V) :
    Except (Exn × Replica V) (HotstuffLMDB.Txn × Replica V) :=
  match (s.heap.get blk).hasBody with
  | .error e => .error (e, s)
  | .ok _ =>
    let body := (s.heap.get blk).wireBlock.body
    let tx := tx.addDecidedBlock (s.heap.height blk) (s.heap.hash blk) (E.vm.blockId body)
    let s := s.emit (.applied blk (s.heap.hash blk) (s.heap.height blk))
    match E.vm.applyBlock (s.heap.height blk) body s.vm with
    | .error what => .error (.vm what, s)
    | .ok vm => .ok (tx, { s with vm := vm })

def notifyVmOfCommitment (E : Setup V) (blk : BlockPtr) (s : Replica V) : Result V :=
  match E.vm.notifyVmOfCommitment (s.heap.height blk) s.vm with
  | .error what => .error (.vm what, s)
  | .ok vm => .ok { s with vm := vm }

/-- `keep_depth` of `notify_ok_to_prune_blocks`. -/
def keepDepth : ℕ := 100

def notifyOkToPruneBlocks (committedHotstuffHeight : ℕ) (s : Replica V) : Replica V :=
  let pruneHeight :=
    if committedHotstuffHeight > keepDepth then committedHotstuffHeight - keepDepth else 0
  { s with blockStore := s.blockStore.pruneBelowHeight pruneHeight }

end Replica

end Fred.Hotstuff
