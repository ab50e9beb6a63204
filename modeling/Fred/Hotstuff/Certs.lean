/-
# Fred.Hotstuff.Certs -- replica configuration and quorum certificates

`config/replica_config.cc`, `crypto/certs.cc` and the 32-bit instance of `utils/bitvector.h`.
`std::map<ReplicaID, Signature>` is an association list in ascending key order: `emplace` keeps the
order and does nothing when the key is present, and iteration is the list itself.
-/
import Fred.Hotstuff.Types
import Mathlib.Data.List.Nodup
import Mathlib.Data.Finset.Card

namespace Fred.Hotstuff

/-! ## `utils::BitVector<uint32_t>` -/

namespace BitVector

/-- `__builtin_ffsl(bv) - 1`, the lowest set bit; `0 - 1` is 255 as a `uint8_t`. -/
def getLowest (bv : ReplicaIDBitMap) : ℕ :=
  ((List.range 32).find? fun i => bv.getLsbD i).getD 255

/-- `__builtin_popcountl(bv)`. -/
def size (bv : ReplicaIDBitMap) : ℕ :=
  ((List.range 32).filter fun i => bv.getLsbD i).length

def add (bv : ReplicaIDBitMap) (loc : ℕ) : ReplicaIDBitMap :=
  bv ||| (1#32 <<< (loc % 256))

/-- `pop`: the lowest set bit, and the vector without it. -/
def pop (bv : ReplicaIDBitMap) : ℕ × ReplicaIDBitMap :=
  (getLowest bv, bv - (1#32 <<< getLowest bv))

end BitVector

/-! ## `ReplicaConfig` -/

/-- `ReplicaInfo`, without host name and ports, which only the sockets read, and without the data
directory: a replica has one directory and its contents are a field of the replica. -/
structure ReplicaInfo where
  id : ReplicaID
  pk : PublicKey
  deriving DecidableEq, Repr

structure ReplicaConfig where
  replicaMap : List ReplicaInfo
  nreplicas : ℕ
  nmajority : ℕ
  deriving DecidableEq, Repr

namespace ReplicaConfig

/-- `ReplicaConfig::ReplicaConfig`. -/
def empty : ReplicaConfig := ⟨[], 0, 0⟩

def find (c : ReplicaConfig) (rid : ReplicaID) : Option ReplicaInfo :=
  c.replicaMap.find? fun info => info.id == rid

def addReplica (c : ReplicaConfig) (info : ReplicaInfo) : Except Exn ReplicaConfig :=
  match c.find info.id with
  | some _ => .error (.runtimeError "can't add replicaid twice!")
  | none => .ok { c with replicaMap := c.replicaMap ++ [info], nreplicas := c.nreplicas + 1 }

/-- The number of faults `finish_init` announces: `size_t nfaulty = nreplicas / 3`. -/
def nfaulty (c : ReplicaConfig) : ℕ := c.nreplicas / 3

def finishInit (c : ReplicaConfig) : ReplicaConfig :=
  { c with nmajority := c.nreplicas - c.nfaulty }

def getInfo (c : ReplicaConfig) (rid : ReplicaID) : Except Exn ReplicaInfo :=
  match c.find rid with
  | none => .error (.runtimeError ("rid" ++ toString rid ++ "not found"))
  | some info => .ok info

def getPublickey (c : ReplicaConfig) (rid : ReplicaID) : Except Exn PublicKey :=
  (c.getInfo rid).map ReplicaInfo.pk

def isValidReplica (c : ReplicaConfig) (rid : ReplicaID) : Bool :=
  (c.find rid).isSome

/-- Adding replicas one after another to an empty configuration. -/
def addReplicas : List ReplicaInfo → ReplicaConfig → Except Exn ReplicaConfig
  | [], c => .ok c
  | info :: infos, c =>
    match c.addReplica info with
    | .error e => .error e
    | .ok c' => addReplicas infos c'

/-- `add_replica` for each entry, then `finish_init`. -/
def build (infos : List ReplicaInfo) : Except Exn ReplicaConfig :=
  (addReplicas infos empty).map finishInit

/-- The replica identifiers of a configuration. -/
def ids (c : ReplicaConfig) : Finset ReplicaID := (c.replicaMap.map ReplicaInfo.id).toFinset

theorem find_eq_none_iff {c : ReplicaConfig} {rid : ReplicaID} :
    c.find rid = none ↔ rid ∉ c.replicaMap.map ReplicaInfo.id := by
  simp [find, List.find?_eq_none]

theorem isValidReplica_iff {c : ReplicaConfig} {rid : ReplicaID} :
    c.isValidReplica rid = true ↔ rid ∈ c.ids := by
  unfold isValidReplica ids
  rw [List.mem_toFinset, ← not_iff_not, ← find_eq_none_iff]
  simp

theorem getPublickey_ok_iff {c : ReplicaConfig} {rid : ReplicaID} :
    (∃ pk, c.getPublickey rid = .ok pk) ↔ c.isValidReplica rid = true := by
  unfold getPublickey getInfo isValidReplica
  cases c.find rid with
  | none => simp [Except.map]
  | some info => simp [Except.map]

theorem isValidReplica_of_getPublickey {c : ReplicaConfig} {rid : ReplicaID} {pk : PublicKey}
    (h : c.getPublickey rid = .ok pk) : c.isValidReplica rid = true :=
  getPublickey_ok_iff.mp ⟨pk, h⟩

/-- Adding replicas records them all, in order, and keeps the identifiers distinct. -/
theorem addReplicas_ok {infos : List ReplicaInfo} :
    ∀ {c c' : ReplicaConfig}, addReplicas infos c = .ok c' →
      (c.replicaMap.map ReplicaInfo.id).Nodup →
      c'.replicaMap = c.replicaMap ++ infos ∧ c'.nreplicas = c.nreplicas + infos.length ∧
        (c'.replicaMap.map ReplicaInfo.id).Nodup := by
  induction infos with
  | nil =>
      intro c c' h hnd
      obtain rfl : c = c' := Except.ok.inj h
      exact ⟨by simp, by simp, hnd⟩
  | cons info infos ih =>
      intro c c' h hnd
      unfold addReplicas addReplica at h
      cases hf : c.find info.id with
      | some _ =>
          rw [hf] at h
          cases h
      | none =>
          rw [hf] at h
          have hnotMem := find_eq_none_iff.mp hf
          have hnd' : ((c.replicaMap ++ [info]).map ReplicaInfo.id).Nodup := by
            rw [List.map_append, List.nodup_append]
            refine ⟨hnd, by simp, ?_⟩
            intro x hx y hy hxy
            simp only [List.map_cons, List.map_nil, List.mem_singleton] at hy
            subst hy hxy
            exact hnotMem hx
          obtain ⟨hmap, hn, hnodup⟩ := ih h hnd'
          refine ⟨by rw [hmap]; simp, ?_, hnodup⟩
          rw [hn]
          simp only [List.length_cons]
          omega

/-- What a finished configuration holds: exactly the added replicas, under distinct identifiers,
with the counts `finish_init` computes from their number. -/
structure Built (infos : List ReplicaInfo) (c : ReplicaConfig) : Prop where
  replicaMap_eq : c.replicaMap = infos
  nreplicas_eq : c.nreplicas = infos.length
  nmajority_eq : c.nmajority = infos.length - infos.length / 3
  nodup : (infos.map ReplicaInfo.id).Nodup

theorem built_of_build {infos : List ReplicaInfo} {c : ReplicaConfig}
    (h : build infos = .ok c) : Built infos c := by
  unfold build at h
  cases ha : addReplicas infos empty with
  | error e =>
      rw [ha] at h
      cases h
  | ok c' =>
      rw [ha] at h
      obtain rfl : finishInit c' = c := Except.ok.inj h
      obtain ⟨hmap, hn, hnd⟩ := addReplicas_ok ha (by simp [empty])
      simp only [empty, List.nil_append, Nat.zero_add] at hmap hn
      refine ⟨hmap, hn, ?_, by rw [← hmap]; exact hnd⟩
      simp [finishInit, nfaulty, hn]

theorem Built.card_ids {infos : List ReplicaInfo} {c : ReplicaConfig} (h : Built infos c) :
    c.ids.card = infos.length := by
  unfold ids
  rw [h.replicaMap_eq, List.toFinset_card_of_nodup h.nodup, List.length_map]

end ReplicaConfig

/-! ## Certificates -/

/-- `PartialCertificate(hash, sk)`: sign a hash. -/
def PartialCertificate.create (C : Crypto) (hash : Hash) (sk : SecretKey) :
    PartialCertificateWire :=
  ⟨hash, C.sign hash sk⟩

def PartialCertificate.validate (C : Crypto) (cert : PartialCertificateWire)
    (info : ReplicaInfo) : Bool :=
  C.checkSig cert.sig cert.hash info.pk

/-- `std::map::emplace` on a list in ascending key order. -/
def emplace (rid : ReplicaID) (sig : Signature) :
    List (ReplicaID × Signature) → List (ReplicaID × Signature)
  | [] => [(rid, sig)]
  | (r, s) :: rest =>
    if rid < r then (rid, sig) :: (r, s) :: rest
    else if rid = r then (r, s) :: rest
    else (r, s) :: emplace rid sig rest

theorem mem_emplace {rid : ReplicaID} {sig : Signature} {m : List (ReplicaID × Signature)}
    {x : ReplicaID × Signature} (h : x ∈ emplace rid sig m) : x = (rid, sig) ∨ x ∈ m := by
  induction m with
  | nil => exact Or.inl (by simpa [emplace] using h)
  | cons e rest ih =>
      obtain ⟨r, s⟩ := e
      unfold emplace at h
      split_ifs at h with hlt heq
      · exact List.mem_cons.mp h
      · exact Or.inr h
      · rcases List.mem_cons.mp h with rfl | h
        · exact Or.inr List.mem_cons_self
        · exact (ih h).imp_right (List.mem_cons_of_mem _)

/-- Keys stay in strictly ascending order, so no replica is listed twice. -/
theorem pairwise_emplace {rid : ReplicaID} {sig : Signature} {m : List (ReplicaID × Signature)}
    (h : m.Pairwise fun x y => x.1 < y.1) :
    (emplace rid sig m).Pairwise fun x y => x.1 < y.1 := by
  induction m with
  | nil => simp [emplace]
  | cons e rest ih =>
      obtain ⟨r, s⟩ := e
      obtain ⟨hr, hrest⟩ := List.pairwise_cons.mp h
      unfold emplace
      split_ifs with hlt heq
      · refine List.pairwise_cons.mpr ⟨?_, h⟩
        intro x hx
        rcases List.mem_cons.mp hx with rfl | hx
        · exact hlt
        · exact lt_trans hlt (hr x hx)
      · exact h
      · refine List.pairwise_cons.mpr ⟨?_, ih hrest⟩
        intro x hx
        rcases mem_emplace hx with rfl | hx
        · show r < rid
          exact Nat.lt_of_le_of_ne (Nat.not_lt.mp hlt) (Ne.symm heq)
        · exact hr x hx

structure QuorumCertificate where
  objHash : Hash
  sigs : List (ReplicaID × Signature)
  deriving DecidableEq, Repr

namespace QuorumCertificate

/-- `QuorumCertificate(const Hash&)`. -/
def ofHash (h : Hash) : QuorumCertificate := ⟨h, []⟩

/-- The loop of the decoding constructor: pop a bit for each signature. -/
def popSigs : ReplicaIDBitMap → List Signature → List (ReplicaID × Signature) →
    List (ReplicaID × Signature)
  | _, [], m => m
  | bv, sig :: rest, m => popSigs (BitVector.pop bv).2 rest (emplace (BitVector.pop bv).1 sig m)

/-- `QuorumCertificate(QuorumCertificateWire const&)`: a bitmap that does not have as many bits as
there are signatures leaves the map empty. -/
def ofWire (w : QuorumCertificateWire) : QuorumCertificate :=
  if BitVector.size w.bmp ≠ w.sigs.length then ⟨w.justify, []⟩
  else ⟨w.justify, popSigs w.bmp w.sigs []⟩

def serialize (qc : QuorumCertificate) : QuorumCertificateWire where
  justify := qc.objHash
  bmp := qc.sigs.foldl (fun bv e => BitVector.add bv e.1) 0#32
  sigs := qc.sigs.map Prod.snd

def addPartialCertificate (qc : QuorumCertificate) (rid : ReplicaID)
    (pc : PartialCertificateWire) : Except Exn QuorumCertificate :=
  if pc.hash ≠ qc.objHash then
    .error (.invalidArgument "partial certificate merged into different quorum certificate")
  else if rid ≥ maxReplicas then .error (.invalidArgument "invalid replica id")
  else .ok { qc with sigs := emplace rid pc.sig qc.sigs }

/-- The counting loop of `verify`: the number of entries whose signature checks under the key
configured for their replica; a replica that is not configured makes `get_publickey` throw. -/
def countValid (C : Crypto) (config : ReplicaConfig) (h : Hash) :
    List (ReplicaID × Signature) → Except Exn ℕ
  | [] => .ok 0
  | (rid, sig) :: rest =>
    match config.getPublickey rid with
    | .error e => .error e
    | .ok pk => (countValid C config h rest).map fun n => if C.checkSig sig h pk then n + 1 else n

def verify (C : Crypto) (config : ReplicaConfig) (qc : QuorumCertificate) : Except Exn Bool :=
  -- check for genesis block
  if qc.objHash = 0#256 then .ok true
  else if qc.sigs.length < config.nmajority then .ok false
  else (countValid C config qc.objHash qc.sigs).map fun n => decide (config.nmajority ≤ n)

def hasQuorum (config : ReplicaConfig) (qc : QuorumCertificate) : Bool :=
  decide (config.nmajority ≤ qc.sigs.length)

@[simp] theorem objHash_ofHash (h : Hash) : (ofHash h).objHash = h := rfl

@[simp] theorem objHash_ofWire (w : QuorumCertificateWire) : (ofWire w).objHash = w.justify := by
  unfold ofWire
  split <;> rfl

@[simp] theorem justify_serialize (qc : QuorumCertificate) : qc.serialize.justify = qc.objHash :=
  rfl

theorem objHash_addPartialCertificate {qc qc' : QuorumCertificate} {rid : ReplicaID}
    {pc : PartialCertificateWire} (h : qc.addPartialCertificate rid pc = .ok qc') :
    qc'.objHash = qc.objHash := by
  unfold addPartialCertificate at h
  split_ifs at h
  rw [← Except.ok.inj h]

theorem pairwise_popSigs {bv : ReplicaIDBitMap} {sigs : List Signature}
    {m : List (ReplicaID × Signature)} (h : m.Pairwise fun x y => x.1 < y.1) :
    (popSigs bv sigs m).Pairwise fun x y => x.1 < y.1 := by
  induction sigs generalizing bv m with
  | nil => exact h
  | cons sig rest ih => exact ih (pairwise_emplace h)

theorem pairwise_ofWire (w : QuorumCertificateWire) :
    (ofWire w).sigs.Pairwise fun x y => x.1 < y.1 := by
  unfold ofWire
  split
  · exact List.Pairwise.nil
  · exact pairwise_popSigs List.Pairwise.nil

/-- The replicas whose entry in a certificate carries a valid signature of theirs. -/
def validVoters (C : Crypto) (config : ReplicaConfig) (qc : QuorumCertificate) :
    Finset ReplicaID :=
  ((qc.sigs.filter fun e => match config.getPublickey e.1 with
    | .error _ => false
    | .ok pk => C.checkSig e.2 qc.objHash pk).map Prod.fst).toFinset

theorem mem_validVoters {C : Crypto} {config : ReplicaConfig} {qc : QuorumCertificate}
    {rid : ReplicaID} : rid ∈ qc.validVoters C config ↔
      ∃ sig pk, (rid, sig) ∈ qc.sigs ∧ config.getPublickey rid = .ok pk ∧
        C.checkSig sig qc.objHash pk = true := by
  unfold validVoters
  simp only [List.mem_toFinset, List.mem_map, List.mem_filter]
  constructor
  · rintro ⟨⟨r, s⟩, ⟨hmem, hchk⟩, rfl⟩
    cases hk : config.getPublickey r with
    | error e => simp [hk] at hchk
    | ok pk => exact ⟨s, pk, hmem, rfl, by simpa [hk] using hchk⟩
  · rintro ⟨sig, pk, hmem, hk, hchk⟩
    exact ⟨(rid, sig), ⟨hmem, by simp [hk, hchk]⟩, rfl⟩

theorem validVoters_subset_ids {C : Crypto} {config : ReplicaConfig} {qc : QuorumCertificate} :
    qc.validVoters C config ⊆ config.ids := by
  intro rid h
  obtain ⟨sig, pk, -, hk, -⟩ := mem_validVoters.mp h
  exact ReplicaConfig.isValidReplica_iff.mp (ReplicaConfig.isValidReplica_of_getPublickey hk)

/-- The counting loop counts exactly the entries that check. -/
theorem countValid_eq {C : Crypto} {config : ReplicaConfig} {h : Hash} :
    ∀ {sigs : List (ReplicaID × Signature)} {n : ℕ}, countValid C config h sigs = .ok n →
      n = (sigs.filter fun e => match config.getPublickey e.1 with
        | .error _ => false
        | .ok pk => C.checkSig e.2 h pk).length
  | [], n, hn => (Except.ok.inj hn).symm
  | (rid, sig) :: rest, n, hn => by
      unfold countValid at hn
      cases hk : config.getPublickey rid with
      | error e =>
          rw [hk] at hn
          cases hn
      | ok pk =>
          rw [hk] at hn
          cases hr : countValid C config h rest with
          | error e =>
              simp only [hr] at hn
              cases hn
          | ok m =>
              simp only [hr] at hn
              have hm := countValid_eq hr
              rw [← Except.ok.inj hn, List.filter_cons]
              by_cases hc : C.checkSig sig h pk = true
              · simp [hk, hc, hm]
              · simp [hk, hc, hm]

/-- The loop returns exactly when every named replica is configured. -/
theorem countValid_ok_iff {C : Crypto} {config : ReplicaConfig} {h : Hash}
    {sigs : List (ReplicaID × Signature)} : (∃ n, countValid C config h sigs = .ok n) ↔
      ∀ e ∈ sigs, config.isValidReplica e.1 = true := by
  induction sigs with
  | nil => simp [countValid]
  | cons e sigs ih =>
      obtain ⟨rid, sig⟩ := e
      rw [List.forall_mem_cons, ← ih, ← ReplicaConfig.getPublickey_ok_iff, countValid]
      cases config.getPublickey rid with
      | error e => simp
      | ok pk => cases countValid C config h sigs <;> simp [Except.map]

/-- The number of valid entries is the number of valid voters. -/
theorem card_validVoters {C : Crypto} {config : ReplicaConfig} {qc : QuorumCertificate}
    (hkeys : qc.sigs.Pairwise fun x y => x.1 < y.1) {n : ℕ}
    (hn : countValid C config qc.objHash qc.sigs = .ok n) : (qc.validVoters C config).card = n := by
  have hnodup : ((qc.sigs.filter fun e => match config.getPublickey e.1 with
      | .error _ => false
      | .ok pk => C.checkSig e.2 qc.objHash pk).map Prod.fst).Nodup := by
    refine List.Nodup.sublist (List.Sublist.map _ List.filter_sublist) ?_
    rw [List.Nodup, List.pairwise_map]
    exact hkeys.imp fun hlt heq => absurd heq (Nat.ne_of_lt hlt)
  unfold validVoters
  rw [List.toFinset_card_of_nodup hnodup, List.length_map, countValid_eq hn]

/-- **An accepted certificate on a block other than genesis names a quorum of valid voters.** -/
theorem nmajority_le_card_of_verify {C : Crypto} {config : ReplicaConfig}
    {qc : QuorumCertificate} (hkeys : qc.sigs.Pairwise fun x y => x.1 < y.1)
    (h : qc.verify C config = .ok true) (hne : qc.objHash ≠ 0#256) :
    config.nmajority ≤ (qc.validVoters C config).card := by
  unfold verify at h
  rw [if_neg hne] at h
  split_ifs at h with hlen
  · cases h
  cases hc : countValid C config qc.objHash qc.sigs with
  | error e =>
      rw [hc] at h
      cases h
  | ok n =>
      rw [hc] at h
      rw [card_validVoters hkeys hc]
      exact of_decide_eq_true (Except.ok.inj h)

end QuorumCertificate

end Fred.Hotstuff
