/-
# Fred.Vm.CountingVM -- the machine that counts

`counting_vm.h` and `counting_vm.cc`, with `load_vm_block` of `lmdb.h`. A block is any byte string and
is its own identifier. `exec_block` does not look at its argument, so it does the same on a null
pointer. `last_committed_state` is set by `init_clean` alone.
-/
import Fred.Vm.Machine
import Fred.Lib.Opaque

namespace Fred.Hotstuff

/-- The state of a `CountingVM`. -/
structure CountingVM where
  state : UInt64
  lastCommittedState : UInt64
  deriving DecidableEq, Repr

namespace CountingVM

def make : CountingVM := ⟨0, 0⟩

def initClean (_vm : CountingVM) : CountingVM := ⟨0, 0⟩

/-- `propose`: the block made from the number `state` is an `opaque_vec` of that many zero bytes. -/
def propose (vm : CountingVM) : Option (List UInt8) × CountingVM :=
  let vm := { vm with state := vm.state + 1 }
  (some (List.replicate vm.state.toNat 0), vm)

def execBlock (vm : CountingVM) : CountingVM := { vm with state := vm.state + 1 }

def rewindToLastCommit (vm : CountingVM) : CountingVM := { vm with state := vm.lastCommittedState }

/-- `serialize` of a `CountingVMBlockID`. -/
def serializeId : Option (List UInt8) → List UInt8
  | none => []
  | some value => Opaque.encode value

/-- The constructor of a `CountingVMBlockID` from bytes. -/
def parseId (bytes : List UInt8) : Except String (Option (List UInt8)) :=
  if bytes.length > 0 then
    match Opaque.decode bytes with
    | none => .error "failed to parse block id"
    | some value => .ok (some value)
  else .ok none

/-- `load_vm_block` from the file named by the hash. -/
def loadVmBlock (files : Hash → Option HotstuffBlockWire) (hash : Hash) :
    Except String (List UInt8) :=
  match files hash with
  | none => .error "failed to load expected block"
  | some unparsed =>
    match Opaque.decode unparsed.body with
    | none => .error "failed to parse block"
    | some blk => .ok blk

/-- The loop of `init_from_disk` over the entries of the index. Logging a commitment changes nothing. -/
def replay (files : Hash → Option HotstuffBlockWire) :
    List IndexEntry → CountingVM → Except String CountingVM
  | [], vm => .ok vm
  | e :: es, vm =>
    match parseId e.vmBlockId with
    | .error what => .error what
    | .ok none => replay files es vm
    | .ok (some _) =>
      match loadVmBlock files e.hash with
      | .error what => .error what
      | .ok _ => replay files es vm.execBlock

/-- `CountingVM` as a `VMType`. -/
def vmType : VMType (List UInt8) (List UInt8) CountingVM where
  parse := Opaque.decode
  toOpaque := Opaque.encode
  nonemptyBlockId := id
  serialize := serializeId
  fresh := make
  initClean := initClean
  initFromDisk := fun index files vm => replay files index.data vm
  propose := propose
  execBlock := fun _ vm => vm.execBlock
  execNull := fun vm => .ok vm.execBlock
  logCommitment := fun _ vm => vm
  rewindToLastCommit := rewindToLastCommit

/-- The serialized identifier of a block that was parsed is read back. -/
theorem parseId_serializeId {body : List UInt8} :
    parseId (serializeId (vmType.getBlockId (vmType.tryVmParse body))) =
      .ok (vmType.tryVmParse body) := by
  cases hbody : vmType.tryVmParse body with
  | none => rfl
  | some blk =>
      have hparse : Opaque.decode body = some blk := vmType.parse_of_tryVmParse hbody
      have hround := Opaque.decode_encode (Opaque.length_lt_of_decode hparse)
      have hpos : (Opaque.encode blk).length > 0 := List.length_pos_iff.mpr (Opaque.encode_ne_nil blk)
      simp [parseId, serializeId, VMType.getBlockId, vmType, hround, hpos]

end CountingVM

end Fred.Hotstuff
