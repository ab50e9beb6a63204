/-
# Fred.Hotstuff.Types -- wire types, exceptions and the cryptographic primitives

The XDR types of `xdr/types.x` and `xdr/hotstuff.x`. An `opaque` field of fixed length is the bit
vector of that length, so that `Hash()` is the zero vector and equality is equality of bytes; a
variable-length `opaque` is a list of bytes.

`crypto_generichash` and `crypto_sign_*` are libsodium functions. They are the fields of `Crypto`, a
parameter of everything that hashes or checks a signature.
-/
import Mathlib.Tactic.Common

namespace Fred.Hotstuff

/-! ## Identifiers -/

/-- `typedef opaque Hash[32]`. -/
abbrev Hash := BitVec 256

/-- `typedef opaque Signature[64]`. -/
abbrev Signature := BitVec 512

/-- `typedef opaque PublicKey[32]`. -/
abbrev PublicKey := BitVec 256

/-- `typedef opaque SecretKey[64]`. -/
abbrev SecretKey := BitVec 512

/-- `typedef uint32 ReplicaID`. -/
abbrev ReplicaID := ℕ

/-- `typedef uint32 ReplicaIDBitMap`. -/
abbrev ReplicaIDBitMap := BitVec 32

/-- `const MAX_REPLICAS = 32`: the length of the bitmap. -/
def maxReplicas : ℕ := 32

/-- `const UNKNOWN_REPLICA = 32`: valid replicas have identifiers 0 to 31. -/
def unknownReplica : ReplicaID := 32

/-! ## Wire structures -/

structure PartialCertificateWire where
  hash : Hash
  sig : Signature
  deriving DecidableEq, Repr

structure QuorumCertificateWire where
  justify : Hash
  bmp : ReplicaIDBitMap
  sigs : List Signature
  deriving DecidableEq, Repr

structure HotstuffBlockHeader where
  parentHash : Hash
  /-- `qc.justify` need not be the direct parent. -/
  qc : QuorumCertificateWire
  bodyHash : Hash
  deriving DecidableEq, Repr

structure HotstuffBlockWire where
  header : HotstuffBlockHeader
  /-- The serialized VM block. -/
  body : List UInt8
  deriving DecidableEq, Repr

/-! ## Exceptions -/

/-- What a call may throw: the standard exceptions with their text, an exception that comes out of
the virtual machine's side of the bridge, and the undefined behaviour of following a null pointer. -/
inductive Exn where
  | runtimeError (what : String)
  | invalidArgument (what : String)
  | outOfRange
  | vm (what : String)
  | nullPointer
  deriving DecidableEq, Repr

/-! ## Cryptographic primitives -/

/-- The libsodium calls the code makes, through `hash_xdr`, `check_sig` and the signing constructor
of `PartialCertificate`. -/
structure Crypto where
  /-- `hash_xdr` of a block header. -/
  hashHeader : HotstuffBlockHeader → Hash
  /-- `hash_xdr` of a block body. -/
  hashBody : List UInt8 → Hash
  checkSig : Signature → Hash → PublicKey → Bool
  sign : Hash → SecretKey → Signature

end Fred.Hotstuff
