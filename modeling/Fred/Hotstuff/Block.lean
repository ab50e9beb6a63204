/-
# Fred.Hotstuff.Block -- block objects and the pointers between them

`block.h` and `block.cc`. A `block_ptr_t` is a shared pointer, and the code compares blocks by
pointer: two deliveries of one proposal are two objects with one hash, each with its own parent
link, status flags and collected certificate. So a `BlockPtr` is an address in a `Heap` of
`HotstuffBlock` records, and a null pointer is `none`.

The fields of an object fall into two parts. The header, the certificate in it, the proposer, the
links and the height say where the block sits in the tree (`BlockCore`); the flags, the body and the
signatures collected on the block are its status, which changes while the block stays where it is.
`Heap.SameCores` says that only statuses differ.

`block_height` is a `uint64_t` and a natural number here: it is the length of a chain of objects in
memory, which stays far below `2 ^ 64`. The result of `validate_hash` is cached by the code in
`hash_checked` and `hash_valid`; the cache is left out.
-/
import Fred.Lib.Forest
import Fred.Hotstuff.Certs

namespace Fred.Hotstuff

open Fred.Forest

/-- `block_ptr_t` when it is not null: the address of a block object. -/
abbrev BlockPtr := ℕ

/-- The address of the genesis block, the first object a replica makes. -/
def genesisPtr : BlockPtr := 0

/-! ## `HotstuffBlock` -/

structure HotstuffBlock where
  wireBlock : HotstuffBlockWire
  /-- Genesis lacks this. -/
  parsedQc : Option QuorumCertificate
  proposer : ReplicaID
  blockHeight : ℕ
  parentBlockPtr : Option BlockPtr
  justifyBlockPtr : Option BlockPtr
  selfQc : QuorumCertificate
  decided : Bool
  writtenToDisk : Bool
  flushedFromMemory : Bool
  deriving DecidableEq, Repr

/-- What places a block in the tree of blocks. -/
structure BlockCore where
  header : HotstuffBlockHeader
  parsedQc : Option QuorumCertificate
  proposer : ReplicaID
  height : ℕ
  parent : Option BlockPtr
  justify : Option BlockPtr
  hash : Hash
  deriving DecidableEq, Repr

namespace HotstuffBlock

/-- The default-constructed wire block of genesis. -/
def genesisWire : HotstuffBlockWire := ⟨⟨0#256, ⟨0#256, 0#32, []⟩, 0#256⟩, []⟩

/-- `HotstuffBlock(genesis_block_t)`. -/
def genesisBlock : HotstuffBlock where
  wireBlock := genesisWire
  parsedQc := none
  proposer := unknownReplica
  blockHeight := 0
  parentBlockPtr := none
  justifyBlockPtr := none
  selfQc := .ofHash 0#256
  decided := true
  writtenToDisk := true
  flushedFromMemory := true

/-- `receive_block`: the constructor for blocks that come from a replica. -/
def receiveBlock (C : Crypto) (wire : HotstuffBlockWire) (source : ReplicaID) : HotstuffBlock where
  wireBlock := wire
  parsedQc := some (.ofWire wire.header.qc)
  proposer := source
  blockHeight := 0
  parentBlockPtr := none
  justifyBlockPtr := none
  selfQc := .ofHash (C.hashHeader wire.header)
  decided := false
  writtenToDisk := false
  flushedFromMemory := false

/-- `mint_block`. -/
def mintBlock (C : Crypto) (body : List UInt8) (qcWire : QuorumCertificateWire)
    (parentHash : Hash) (proposer : ReplicaID) : HotstuffBlock :=
  receiveBlock C ⟨⟨parentHash, qcWire, C.hashBody body⟩, body⟩ proposer

/-- The constructor behind `load_decided_block`. -/
def loadedBlock (C : Crypto) (wire : HotstuffBlockWire) : HotstuffBlock :=
  { receiveBlock C wire unknownReplica with decided := true, writtenToDisk := true }

def getHash (b : HotstuffBlock) : Hash := b.selfQc.objHash

/-- `*parsed_qc`. The code dereferences it only on blocks that are not genesis. -/
def getJustifyQc (b : HotstuffBlock) : QuorumCertificate := b.parsedQc.getD (.ofHash 0#256)

def getJustifyHash (b : HotstuffBlock) : Hash := b.getJustifyQc.objHash

def getParentHash (b : HotstuffBlock) : Hash := b.wireBlock.header.parentHash

/-- `has_body`, which throws once the body is flushed. -/
def hasBody (b : HotstuffBlock) : Except Exn Bool :=
  if b.flushedFromMemory then
    .error (.runtimeError "can't query body if flushed from memory")
  else .ok (decide (0 < b.wireBlock.body.length))

def validateHash (C : Crypto) (b : HotstuffBlock) : Bool :=
  C.hashBody b.wireBlock.body == b.wireBlock.header.bodyHash

def validateHotstuff (C : Crypto) (config : ReplicaConfig) (b : HotstuffBlock) :
    Except Exn Bool :=
  if !b.validateHash C then .ok false else b.getJustifyQc.verify C config

def flushFromMemory (b : HotstuffBlock) : HotstuffBlock :=
  if b.flushedFromMemory then b
  else { b with flushedFromMemory := true, wireBlock := { b.wireBlock with body := [] } }

def core (b : HotstuffBlock) : BlockCore where
  header := b.wireBlock.header
  parsedQc := b.parsedQc
  proposer := b.proposer
  height := b.blockHeight
  parent := b.parentBlockPtr
  justify := b.justifyBlockPtr
  hash := b.getHash

@[simp] theorem core_flushFromMemory (b : HotstuffBlock) : b.flushFromMemory.core = b.core := by
  unfold flushFromMemory
  split <;> rfl

@[simp] theorem flushFromMemory_flushFromMemory (b : HotstuffBlock) :
    b.flushFromMemory.flushFromMemory = b.flushFromMemory := by
  unfold flushFromMemory
  split <;> simp_all

end HotstuffBlock

/-! ## The heap of block objects -/

structure Heap where
  /-- The next address to hand out: objects live at the addresses below it. -/
  next : BlockPtr
  get : BlockPtr → HotstuffBlock

namespace Heap

/-- The heap of a fresh replica: genesis and nothing else. -/
def init : Heap := ⟨1, fun _ => HotstuffBlock.genesisBlock⟩

def modify (h : Heap) (p : BlockPtr) (f : HotstuffBlock → HotstuffBlock) : Heap :=
  { h with get := fun q => if q = p then f (h.get p) else h.get q }

/-- `new HotstuffBlock(..)`: the object is at address `h.next`. -/
def alloc (h : Heap) (b : HotstuffBlock) : Heap where
  next := h.next + 1
  get := fun q => if q = h.next then b else h.get q

def core (h : Heap) (p : BlockPtr) : BlockCore := (h.get p).core

def parent (h : Heap) (p : BlockPtr) : Option BlockPtr := (h.core p).parent

def justify (h : Heap) (p : BlockPtr) : Option BlockPtr := (h.core p).justify

def height (h : Heap) (p : BlockPtr) : ℕ := (h.core p).height

def hash (h : Heap) (p : BlockPtr) : Hash := (h.core p).hash

def header (h : Heap) (p : BlockPtr) : HotstuffBlockHeader := (h.core p).header

def setParent (h : Heap) (p parentBlock : BlockPtr) : Heap :=
  h.modify p fun b =>
    { b with parentBlockPtr := some parentBlock, blockHeight := h.height parentBlock + 1 }

def setJustify (h : Heap) (p justifyBlock : BlockPtr) : Heap :=
  h.modify p fun b => { b with justifyBlockPtr := some justifyBlock }

/-- `supports_nonempty_child_proposal`: the last `depth` blocks are this replica's own, and the
certificate of each is on its parent. -/
def supportsNonemptyChildProposal (h : Heap) (selfId : ReplicaID) : ℕ → BlockPtr → Bool
  | 0, _ => true
  | depth + 1, p =>
    if selfId ≠ (h.get p).proposer then false
    else if (h.justify p).isNone then false
    else match h.parent p with
      | none => false
      | some q =>
        if (h.get p).getJustifyHash ≠ (h.get p).getParentHash then false
        else h.supportsNonemptyChildProposal selfId depth q

/-! ### What the operations read back -/

@[simp] theorem get_modify_self (h : Heap) (p : BlockPtr) (f : HotstuffBlock → HotstuffBlock) :
    (h.modify p f).get p = f (h.get p) := by
  simp [modify]

theorem get_modify_of_ne (h : Heap) {p q : BlockPtr} (f : HotstuffBlock → HotstuffBlock)
    (hq : q ≠ p) : (h.modify p f).get q = h.get q := by
  simp [modify, hq]

@[simp] theorem next_modify (h : Heap) (p : BlockPtr) (f : HotstuffBlock → HotstuffBlock) :
    (h.modify p f).next = h.next := rfl

@[simp] theorem get_alloc_next (h : Heap) (b : HotstuffBlock) : (h.alloc b).get h.next = b := by
  simp [alloc]

theorem get_alloc_of_ne (h : Heap) (b : HotstuffBlock) {q : BlockPtr} (hq : q ≠ h.next) :
    (h.alloc b).get q = h.get q := by
  simp [alloc, hq]

@[simp] theorem next_alloc (h : Heap) (b : HotstuffBlock) : (h.alloc b).next = h.next + 1 := rfl

/-! ### Heaps that differ in statuses only -/

/-- The same objects at the same places in the tree. -/
structure SameCores (h h' : Heap) : Prop where
  next_eq : h'.next = h.next
  core_eq : ∀ p, h'.core p = h.core p

namespace SameCores

variable {h h' h'' : Heap}

theorem refl (h : Heap) : SameCores h h := ⟨rfl, fun _ => rfl⟩

theorem trans (H : SameCores h h') (H' : SameCores h' h'') : SameCores h h'' :=
  ⟨H'.next_eq.trans H.next_eq, fun p => (H'.core_eq p).trans (H.core_eq p)⟩

theorem parent_eq (H : SameCores h h') : h'.parent = h.parent :=
  funext fun p => congrArg BlockCore.parent (H.core_eq p)

theorem justify_eq (H : SameCores h h') : h'.justify = h.justify :=
  funext fun p => congrArg BlockCore.justify (H.core_eq p)

theorem height_eq (H : SameCores h h') : h'.height = h.height :=
  funext fun p => congrArg BlockCore.height (H.core_eq p)

theorem hash_eq (H : SameCores h h') : h'.hash = h.hash :=
  funext fun p => congrArg BlockCore.hash (H.core_eq p)

theorem header_eq (H : SameCores h h') : h'.header = h.header :=
  funext fun p => congrArg BlockCore.header (H.core_eq p)

end SameCores

theorem sameCores_modify {h : Heap} {p : BlockPtr} {f : HotstuffBlock → HotstuffBlock}
    (hf : (f (h.get p)).core = (h.get p).core) : SameCores h (h.modify p f) := by
  refine ⟨rfl, fun q => ?_⟩
  show ((h.modify p f).get q).core = (h.get q).core
  by_cases hq : q = p
  · subst hq
    rw [get_modify_self, hf]
  · rw [get_modify_of_ne h f hq]

end Heap

end Fred.Hotstuff
