/-
# Fred.Hotstuff.Instance -- a concrete instance to run

Symbolic cryptography and a virtual machine without state, so that runs of a replica can be computed.
A signature is the hash next to the signer's key, so it checks under exactly that key. The hash of a
block is its parent's hash with the hash of its body appended, both read as decimal numbers of three
digits, so that blocks are told apart by their path of bodies.
-/
import Fred.Hotstuff.App
import Fred.Hotstuff.QuorumIntersection
import Fred.Lib.Transition

namespace Fred.Hotstuff

open Fred.Transition

namespace Instance

/-- The number a body stands for: one more than the sum of its bytes. -/
def bodyNumber (body : List UInt8) : ℕ := body.foldl (fun n b => n + b.toNat) 1

def crypto : Crypto where
  hashHeader := fun h => h.parentHash * 1000#256 + h.bodyHash
  hashBody := fun body => BitVec.ofNat 256 (bodyNumber body)
  checkSig := fun sig h pk => sig == (h ++ pk : BitVec 512)
  sign := fun h sk => (h ++ sk.setWidth 256 : BitVec 512)

/-- A signature checks under a key exactly when it was made with it. -/
theorem checkSig_sign_iff {h : Hash} {sk : SecretKey} {pk : PublicKey} :
    crypto.checkSig (crypto.sign h sk) h pk = true ↔ sk.setWidth 256 = pk := by
  show ((h ++ sk.setWidth 256 : BitVec 512) == (h ++ pk : BitVec 512)) = true ↔ _
  rw [beq_iff_eq]
  exact BitVec.append_right_inj h

/-- A machine without state that never has a block to propose. -/
def idleVm : VmBridge Unit where
  initClean := ()
  initFromDisk := fun _ _ _ => .ok ()
  getNextVmBlock := fun _ _ _ => .ok ([], ())
  blockId := id
  applyBlock := fun _ _ _ => .ok ()
  notifyVmOfCommitment := fun _ _ => .ok ()
  run := id

/-- The configuration of replicas 0 to `n - 1`. -/
def config (n : ℕ) : ReplicaConfig := ⟨numberedReplicas n, n, n - n / 3⟩

/-- Replica `rid` of `n`. -/
def setup (n : ℕ) (rid : ReplicaID) : Setup Unit :=
  ⟨crypto, config n, rid, BitVec.ofNat 512 rid, idleVm⟩

/-- What a run on a list of inputs shows through `f`, if it goes through. -/
def observe {V α : Type} (E : Setup V) (inputs : List Input) (f : Replica V → α) : Option α :=
  match runList (step E) inputs (start E) with
  | .error _ => none
  | .ok s => some (f s)

theorem exists_of_observe {V α : Type} {E : Setup V} {inputs : List Input} {f : Replica V → α}
    {a : α} (h : observe E inputs f = some a) :
    ∃ s, Reach (step E) anyInput (start E) s ∧ f s = a := by
  unfold observe at h
  split at h
  · cases h
  · rename_i s hs
    exact ⟨s, Reach.of_runList (fun _ _ => trivial) hs, Option.some.inj h⟩

/-- What a run that checks a condition before each input shows through `f`. -/
def observeIf {V α : Type} (E : Setup V) (guard : Replica V → Input → Bool) (inputs : List Input)
    (f : Replica V → α) : Option α :=
  (runListIf (step E) guard inputs (start E)).map f

theorem exists_of_observeIf {V α : Type} {E : Setup V} {guard : Replica V → Input → Bool}
    {P : Replica V → Input → Prop} {inputs : List Input} {f : Replica V → α} {a : α}
    (hP : ∀ s i, guard s i = true → P s i) (h : observeIf E guard inputs f = some a) :
    ∃ s, Reach (step E) P (start E) s ∧ f s = a := by
  obtain ⟨s, hs, hf⟩ := Option.map_eq_some_iff.mp h
  exact ⟨s, Reach.of_runListIf hP hs, hf⟩

/-- The block with the given body on a parent, carrying a certificate. -/
def blockOn (parentHash : Hash) (qc : QuorumCertificateWire) (body : List UInt8) :
    HotstuffBlockWire :=
  ⟨⟨parentHash, qc, crypto.hashBody body⟩, body⟩

/-- The certificate on `hash` that is made of the signatures of `voters`. -/
def certificate (voters : List ReplicaID) (hash : Hash) : QuorumCertificateWire :=
  let sigs := voters.foldl (fun m rid =>
    emplace rid (crypto.sign hash (BitVec.ofNat 512 rid)) m) []
  (QuorumCertificate.mk hash sigs).serialize

/-- `proposer` sends a block, which becomes object `p`, and the block is inserted and handled. -/
def deliver (p : BlockPtr) (wire : HotstuffBlockWire) (proposer : ReplicaID) : List Input :=
  [.proposeMessage wire proposer, .netEvent (.proposal p proposer), .event []]

/-- A single replica proposes `n` empty blocks, waiting for its own vote after each. -/
def soloRounds : ℕ → List Input
  | 0 => []
  | n + 1 => [.doEmptyPropose, .event [], .event []] ++ soloRounds n

end Instance

end Fred.Hotstuff
