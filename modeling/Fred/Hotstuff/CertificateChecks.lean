/-
# Fred.Hotstuff.CertificateChecks -- encoding and checking of certificates

The bitmap of a certificate on the wire names the signers and the list of signatures is positional, so
decoding pairs the set bits with the signatures, lowest bit first (`sigs_ofWire`). What is encoded is
decoded (`ofWire_serialize`), so a certificate built from validated votes is accepted wherever it is
checked (`built_certificate_accepted`). For a certificate that comes from elsewhere the check looks up
the key of every replica the bitmap names, and throws if one of them is not configured
(`verifies_exactly_iff`).
-/
import Fred.Hotstuff.Instance
import Fred.Lib.Bitmap

namespace Fred.Hotstuff

open Fred.Bitmap Fred.Transition

/-! ## The bitmap as a list of replicas -/

namespace BitVector

theorem size_eq (bv : ReplicaIDBitMap) : size bv = (bits bv).length := rfl

theorem pop_eq {bv : ReplicaIDBitMap} {k : ℕ} {ks : List ℕ} (h : bits bv = k :: ks) :
    (pop bv).1 = k ∧ bits (pop bv).2 = ks := by
  have hlowest : getLowest bv = k := by
    unfold getLowest
    rw [← List.head?_filter, show (List.range 32).filter _ = k :: ks from h]
    rfl
  unfold pop
  rw [hlowest]
  exact ⟨rfl, bits_sub_shiftLeft h⟩

theorem foldl_add {ks : List ReplicaID} (hks : ∀ k ∈ ks, k < maxReplicas) (bv : ReplicaIDBitMap) :
    ks.foldl add bv = setAll ks bv := by
  induction ks generalizing bv with
  | nil => rfl
  | cons k ks ih =>
      have hk : k < 256 := Nat.lt_trans (hks k List.mem_cons_self) (by decide)
      rw [List.foldl_cons, ih fun j hj => hks j (List.mem_cons_of_mem _ hj)]
      unfold add
      rw [Nat.mod_eq_of_lt hk]
      rfl

end BitVector

namespace QuorumCertificate

/-- An entry above all others goes to the end. -/
theorem emplace_of_lt {rid : ReplicaID} {sig : Signature} {m : List (ReplicaID × Signature)}
    (h : ∀ e ∈ m, e.1 < rid) : emplace rid sig m = m ++ [(rid, sig)] := by
  induction m with
  | nil => rfl
  | cons e m ih =>
      have he := h e List.mem_cons_self
      unfold emplace
      rw [if_neg (Nat.not_lt.mpr (Nat.le_of_lt he)), if_neg (Nat.ne_of_gt he),
        ih fun x hx => h x (List.mem_cons_of_mem _ hx)]
      rfl

/-- The loop of the decoding constructor pairs positions with signatures. -/
theorem popSigs_eq {sigs : List Signature} :
    ∀ {bv : ReplicaIDBitMap} {m : List (ReplicaID × Signature)},
      (bits bv).length = sigs.length → (∀ e ∈ m, ∀ k ∈ bits bv, e.1 < k) →
      popSigs bv sigs m = m ++ (bits bv).zip sigs := by
  induction sigs with
  | nil =>
      intro bv m _ _
      simp [popSigs]
  | cons sig sigs ih =>
      intro bv m hlength hbelow
      cases hbits : bits bv with
      | nil => simp [hbits] at hlength
      | cons k ks =>
          have hsorted := pairwise_bits bv
          rw [hbits] at hlength hbelow hsorted
          obtain ⟨hlowest, hrest⟩ := BitVector.pop_eq hbits
          rw [popSigs, hlowest, emplace_of_lt fun e he => hbelow e he k List.mem_cons_self, ih, hrest]
          · simp
          · rw [hrest]
            simpa using hlength
          · intro e he j hj
            rw [hrest] at hj
            rcases List.mem_append.mp he with he | he
            · exact hbelow e he j (List.mem_cons_of_mem _ hj)
            · rw [List.mem_singleton.mp he]
              exact (List.pairwise_cons.mp hsorted).1 j hj

/-- **Decoding**: replicas named by the bitmap next to their signatures, or nothing where the numbers
differ. -/
theorem sigs_ofWire (w : QuorumCertificateWire) : (ofWire w).sigs =
    if BitVector.size w.bmp = w.sigs.length then (bits w.bmp).zip w.sigs else [] := by
  unfold ofWire
  by_cases h : BitVector.size w.bmp = w.sigs.length
  · rw [if_neg (not_not_intro h), if_pos h]
    exact popSigs_eq h (fun e he => absurd he List.not_mem_nil)
  · rw [if_pos h, if_neg h]

/-- **What is encoded is decoded.** -/
theorem ofWire_serialize {qc : QuorumCertificate} (hkeys : qc.sigs.Pairwise fun x y => x.1 < y.1)
    (hids : ∀ e ∈ qc.sigs, e.1 < maxReplicas) : ofWire qc.serialize = qc := by
  have hids' : ∀ k ∈ qc.sigs.map Prod.fst, k < maxReplicas := by
    intro k hk
    obtain ⟨e, he, rfl⟩ := List.mem_map.mp hk
    exact hids e he
  have hbits : bits qc.serialize.bmp = qc.sigs.map Prod.fst := by
    have hsorted : (qc.sigs.map Prod.fst).Pairwise (· < ·) := List.pairwise_map.mpr hkeys
    have hfold : qc.serialize.bmp = (qc.sigs.map Prod.fst).foldl BitVector.add 0#32 :=
      (List.foldl_map).symm
    rw [hfold, BitVector.foldl_add hids']
    exact bits_setAll hsorted hids'
  have hsigs := sigs_ofWire qc.serialize
  rw [if_pos (by rw [BitVector.size_eq, hbits]; simp [serialize]), hbits,
    show qc.serialize.sigs = qc.sigs.map Prod.snd from rfl, ← List.unzip_fst, ← List.unzip_snd,
    List.zip_unzip] at hsigs
  calc ofWire qc.serialize = ⟨(ofWire qc.serialize).objHash, (ofWire qc.serialize).sigs⟩ := rfl
    _ = ⟨qc.objHash, qc.sigs⟩ := by rw [objHash_ofWire, justify_serialize, hsigs]

/-- **What is decoded is encoded as it was**, if every signature has its bit. -/
theorem serialize_ofWire {w : QuorumCertificateWire} (h : BitVector.size w.bmp = w.sigs.length) :
    (ofWire w).serialize = w := by
  have hlength : (bits w.bmp).length = w.sigs.length := h
  have hsigs : (ofWire w).sigs = (bits w.bmp).zip w.sigs := (sigs_ofWire w).trans (if_pos h)
  have hkeys : (ofWire w).sigs.map Prod.fst = bits w.bmp := by
    rw [hsigs]
    exact List.map_fst_zip hlength.le
  have hvalues : (ofWire w).sigs.map Prod.snd = w.sigs := by
    rw [hsigs]
    exact List.map_snd_zip hlength.ge
  have hbmp : (ofWire w).serialize.bmp = w.bmp := by
    have hlt : ∀ k ∈ bits w.bmp, k < maxReplicas := fun k hk =>
      List.mem_range.mp (List.mem_filter.mp hk).1
    have hfold : (ofWire w).serialize.bmp = ((ofWire w).sigs.map Prod.fst).foldl BitVector.add 0#32 :=
      (List.foldl_map).symm
    rw [hfold, hkeys, BitVector.foldl_add hlt]
    exact setAll_bits w.bmp
  calc (ofWire w).serialize
      = ⟨(ofWire w).objHash, (ofWire w).serialize.bmp, (ofWire w).sigs.map Prod.snd⟩ := rfl
    _ = ⟨w.justify, w.bmp, w.sigs⟩ := by rw [objHash_ofWire, hbmp, hvalues]

/-- A call of `add_partial_certificate`. -/
def addVote (v : ReplicaID × PartialCertificateWire) (qc : QuorumCertificate) :
    Except Exn QuorumCertificate :=
  qc.addPartialCertificate v.1 v.2

/-- **Run lemma**: votes keep the entries in order, each of a possible replica. -/
theorem entries_of_reach {P : QuorumCertificate → ReplicaID × PartialCertificateWire → Prop}
    {hash : Hash} {qc : QuorumCertificate} (h : Reach addVote P (ofHash hash) qc) :
    qc.objHash = hash ∧ (qc.sigs.Pairwise fun x y => x.1 < y.1) ∧ ∀ e ∈ qc.sigs, e.1 < maxReplicas := by
  apply h.invariant (I := fun qc => qc.objHash = hash ∧
    (qc.sigs.Pairwise fun x y => x.1 < y.1) ∧ ∀ e ∈ qc.sigs, e.1 < maxReplicas)
  · exact ⟨rfl, List.Pairwise.nil, fun e he => absurd he List.not_mem_nil⟩
  · rintro qc qc' ⟨rid, cert⟩ ⟨hhash, hkeys, hids⟩ - hstep
    have hobj := objHash_addPartialCertificate hstep
    unfold addVote addPartialCertificate at hstep
    split_ifs at hstep with hcert hrid
    obtain rfl := Except.ok.inj hstep
    refine ⟨hobj.trans hhash, pairwise_emplace hkeys, fun e he => ?_⟩
    obtain rfl | hold := mem_emplace he
    · exact Nat.lt_of_not_ge hrid
    · exact hids e hold

/-- **The wire format of certificates loses nothing.** A certificate that was built by adding votes to an
empty one is decoded as it was encoded, and a wire value with a bit for each signature is encoded as it
was decoded. -/
theorem wire_round_trip :
    (∀ hash qc, Reach addVote anyInput (ofHash hash) qc →
      (ofWire qc.serialize).objHash = hash ∧ ofWire qc.serialize = qc) ∧
    ∀ w : QuorumCertificateWire, BitVector.size w.bmp = w.sigs.length → (ofWire w).serialize = w := by
  refine ⟨fun hash qc h => ?_, fun w h => serialize_ofWire h⟩
  obtain ⟨hhash, hkeys, hids⟩ := entries_of_reach h
  exact ⟨(objHash_ofWire _).trans hhash, ofWire_serialize hkeys hids⟩

/-- The votes of the last and of the first possible replica. -/
def outerVotes : List (ReplicaID × PartialCertificateWire) :=
  [(31, ⟨1#256, 7#512⟩), (0, ⟨1#256, 8#512⟩), (31, ⟨1#256, 9#512⟩)]

theorem wire_round_trip_outer : ∃ qc : QuorumCertificate, qc.sigs = [(0, 8#512), (31, 7#512)] ∧
    ofWire qc.serialize = qc ∧ (ofWire qc.serialize).serialize = qc.serialize := by
  have hrun : (runList addVote outerVotes (ofHash 1#256)).map sigs =
      .ok [(0, 8#512), (31, 7#512)] := by
    decide +kernel
  obtain ⟨qc, hqc, hsigs⟩ := exists_of_map_ok hrun
  have hround := (wire_round_trip.1 1#256 qc (Reach.of_runList (fun _ _ => trivial) hqc)).2
  have hsize : BitVector.size qc.serialize.bmp = qc.serialize.sigs.length := by
    show BitVector.size (qc.sigs.foldl _ _) = (qc.sigs.map _).length
    rw [hsigs]
    decide
  exact ⟨qc, hsigs, hround, wire_round_trip.2 qc.serialize hsize⟩

/-! ## The counting loop -/

section
variable {C : Crypto} {config : ReplicaConfig} {h : Hash} {sigs : List (ReplicaID × Signature)}

/-- **The check, where it returns**: a quorum of valid voters. -/
theorem verify_eq {qc : QuorumCertificate} (hkeys : qc.sigs.Pairwise fun x y => x.1 < y.1)
    (hne : qc.objHash ≠ 0#256)
    (hconfigured : config.nmajority ≤ qc.sigs.length →
      ∀ e ∈ qc.sigs, config.isValidReplica e.1 = true) :
    qc.verify C config = .ok (decide (config.nmajority ≤ (qc.validVoters C config).card)) := by
  unfold verify
  rw [if_neg hne]
  by_cases hfew : qc.sigs.length < config.nmajority
  · rw [if_pos hfew]
    have hcard : (qc.validVoters C config).card ≤ qc.sigs.length := by
      refine (List.toFinset_card_le _).trans ?_
      rw [List.length_map]
      exact List.length_filter_le _ _
    rw [decide_eq_false (by omega)]
  · rw [if_neg hfew]
    obtain ⟨n, hn⟩ := countValid_ok_iff.mpr (hconfigured (Nat.not_lt.mp hfew))
    rw [hn, card_validVoters hkeys hn]
    rfl

end

end QuorumCertificate

/-! ## Certificates from elsewhere -/

section
variable (C : Crypto) (config : ReplicaConfig) (w : QuorumCertificateWire)

/-- The replica is configured, and the bitmap, read lowest bit first, pairs it with a valid signature of
its own. -/
def SignedBy (rid : ReplicaID) : Prop :=
  ∃ sig pk, (rid, sig) ∈ (bits w.bmp).zip w.sigs ∧ config.getPublickey rid = .ok pk ∧
    C.checkSig sig w.justify pk = true

/-- A verdict is returned, and on a block other than genesis it says whether a quorum has signed. -/
def VerifiesExactly : Prop :=
  ∃ verdict, (QuorumCertificate.ofWire w).verify C config = .ok verdict ∧
    (w.justify ≠ 0#256 → (verdict = true ↔ BitVector.size w.bmp = w.sigs.length ∧
      ∃ voters : Finset ReplicaID, config.nmajority ≤ voters.card ∧
        ∀ rid ∈ voters, SignedBy C config w rid))

/-- Where the numbers of bits and signatures agree and reach a quorum, every replica that the bitmap
names is configured; where they do not agree, a quorum is not empty. -/
def Checkable : Prop :=
  w.justify ≠ 0#256 →
    if BitVector.size w.bmp = w.sigs.length then
      config.nmajority ≤ w.sigs.length → ∀ rid ∈ bits w.bmp, config.isValidReplica rid = true
    else config.nmajority ≠ 0

variable {C config w}

theorem mem_validVoters_ofWire (h : BitVector.size w.bmp = w.sigs.length) {rid : ReplicaID} :
    rid ∈ (QuorumCertificate.ofWire w).validVoters C config ↔ SignedBy C config w rid := by
  rw [QuorumCertificate.mem_validVoters, QuorumCertificate.sigs_ofWire, if_pos h,
    QuorumCertificate.objHash_ofWire]
  rfl

/-- Where numbers agree, the check looks up every replica that the bitmap names. -/
theorem names_iff (config : ReplicaConfig) (h : BitVector.size w.bmp = w.sigs.length) :
    (QuorumCertificate.ofWire w).sigs.length = w.sigs.length ∧
      ((∀ e ∈ (QuorumCertificate.ofWire w).sigs, config.isValidReplica e.1 = true) ↔
        ∀ rid ∈ bits w.bmp, config.isValidReplica rid = true) := by
  rw [QuorumCertificate.sigs_ofWire, if_pos h]
  constructor
  · rw [List.length_zip, ← BitVector.size_eq, h, Nat.min_self]
  · rw [← List.forall_mem_map (f := Prod.fst) (P := fun rid => config.isValidReplica rid = true),
      List.map_fst_zip (Nat.le_of_eq (h.symm ▸ BitVector.size_eq w.bmp))]

/-- A certificate that does not decode has no voters, and gets a verdict. -/
theorem verify_of_mismatch (hne : w.justify ≠ 0#256)
    (h : BitVector.size w.bmp ≠ w.sigs.length) :
    (QuorumCertificate.ofWire w).verify C config = .ok (decide (config.nmajority = 0)) := by
  have hsigs := QuorumCertificate.sigs_ofWire w
  rw [if_neg h] at hsigs
  have hvoters : (QuorumCertificate.ofWire w).validVoters C config = ∅ := by
    unfold QuorumCertificate.validVoters
    rw [hsigs]
    rfl
  rw [QuorumCertificate.verify_eq (QuorumCertificate.pairwise_ofWire w)
    (by rwa [QuorumCertificate.objHash_ofWire]) (by rw [hsigs]; simp), hvoters, Finset.card_empty,
    decide_eq_decide.mpr Nat.le_zero]

theorem verifiesExactly_of_checkable (h : Checkable config w) : VerifiesExactly C config w := by
  unfold VerifiesExactly
  by_cases hne : w.justify = 0#256
  · refine ⟨true, ?_, fun h => absurd hne h⟩
    unfold QuorumCertificate.verify
    rw [QuorumCertificate.objHash_ofWire, if_pos hne]
  have hcheckable := h hne
  by_cases hsize : BitVector.size w.bmp = w.sigs.length
  · rw [if_pos hsize, ← (names_iff config hsize).2, ← (names_iff config hsize).1] at hcheckable
    refine ⟨_, QuorumCertificate.verify_eq (QuorumCertificate.pairwise_ofWire w)
      (by rwa [QuorumCertificate.objHash_ofWire]) hcheckable, fun _ => ?_⟩
    rw [decide_eq_true_eq]
    constructor
    · intro hquorum
      exact ⟨hsize, _, hquorum, fun rid hrid => (mem_validVoters_ofWire hsize).mp hrid⟩
    · rintro ⟨-, voters, hquorum, hvoters⟩
      refine hquorum.trans (Finset.card_le_card fun rid hrid => ?_)
      exact (mem_validVoters_ofWire hsize).mpr (hvoters rid hrid)
  · rw [if_neg hsize] at hcheckable
    refine ⟨_, verify_of_mismatch hne hsize, fun _ => ?_⟩
    simp [hcheckable, hsize]

theorem checkable_of_verifiesExactly (h : VerifiesExactly C config w) : Checkable config w := by
  obtain ⟨verdict, hverify, hexact⟩ := h
  intro hne
  by_cases hsize : BitVector.size w.bmp = w.sigs.length
  · rw [if_pos hsize]
    intro henough
    obtain ⟨hlength, hnames⟩ := names_iff config hsize
    rw [← hnames]
    -- the verdict was returned, so the loop was
    unfold QuorumCertificate.verify at hverify
    rw [if_neg (by rwa [QuorumCertificate.objHash_ofWire]), hlength,
      if_neg (Nat.not_lt.mpr henough)] at hverify
    obtain ⟨n, hn, -⟩ := Transition.exists_of_map_ok hverify
    exact QuorumCertificate.countValid_ok_iff.mp ⟨n, hn⟩
  · rw [if_neg hsize]
    intro hzero
    rw [verify_of_mismatch hne hsize, decide_eq_true hzero] at hverify
    exact hsize ((hexact hne).mp (Except.ok.inj hverify).symm).1

/-- **When a certificate is checked exactly.** The check returns the right verdict if and only if no
unknown replica is named by a certificate with enough signatures, and, for one that does not decode,
the configuration is not empty. -/
theorem verifies_exactly_iff : VerifiesExactly C config w ↔ Checkable config w :=
  ⟨checkable_of_verifiesExactly, verifiesExactly_of_checkable⟩

end

/-- Replicas 0, 1 and 2 of four have signed a block, and a fifth signature is in the name of a replica 4
that does not exist: the check throws. -/
theorem unknown_signer_throws : ¬ ∀ (config : ReplicaConfig) (w : QuorumCertificateWire),
    ReplicaConfig.build (numberedReplicas 4) = .ok config → w.sigs.length ≤ maxReplicas →
      VerifiesExactly Instance.crypto config w := by
  intro hall
  have hexact := hall (Instance.config 4) (Instance.certificate [0, 1, 2, 4] 1#256) rfl (by decide)
  have hunknown := checkable_of_verifiesExactly hexact (by decide)
  rw [if_pos (by decide)] at hunknown
  exact absurd (hunknown (by decide) 4 (by decide)) (by decide)

/-! ## Certificates that are built -/

/-- The vote was validated, or it was signed with the key that is configured for its voter. -/
def VotePassed (C : Crypto) (config : ReplicaConfig) (v : ReplicaID × PartialCertificateWire) : Prop :=
  ∃ info, config.getInfo v.1 = .ok info ∧ (PartialCertificate.validate C v.2 info = true ∨
    ∃ sk, v.2 = PartialCertificate.create C v.2.hash sk ∧
      ∀ h, C.checkSig (C.sign h sk) h info.pk = true)

/-- The votes of a block merged into its certificate one after another. -/
def collectVotes : List (ReplicaID × PartialCertificateWire) → QuorumCertificate →
    Except Exn QuorumCertificate
  | [], qc => .ok qc
  | v :: votes, qc =>
    match qc.addPartialCertificate v.1 v.2 with
    | .error e => .error e
    | .ok qc => collectVotes votes qc

section
variable {C : Crypto} {config : ReplicaConfig}

/-- A certificate as the collector builds it: ascending entries of configured replicas, each valid. -/
structure BuiltFrom (C : Crypto) (config : ReplicaConfig) (hash : Hash) (qc : QuorumCertificate) :
    Prop where
  objHash_eq : qc.objHash = hash
  keys : qc.sigs.Pairwise fun x y => x.1 < y.1
  valid : ∀ e ∈ qc.sigs, ∃ pk, config.getPublickey e.1 = .ok pk ∧ C.checkSig e.2 hash pk = true

theorem VotePassed.checks {v : ReplicaID × PartialCertificateWire} (h : VotePassed C config v) :
    ∃ pk, config.getPublickey v.1 = .ok pk ∧ C.checkSig v.2.sig v.2.hash pk = true := by
  obtain ⟨info, hinfo, hsig⟩ := h
  refine ⟨info.pk, by unfold ReplicaConfig.getPublickey; rw [hinfo]; rfl, ?_⟩
  rcases hsig with hsig | ⟨sk, hcert, hkey⟩
  · exact hsig
  · rw [hcert]
    exact hkey _

/-- **Step lemma**: a vote that passed is merged. -/
theorem BuiltFrom.addPartialCertificate {hash : Hash} {qc : QuorumCertificate}
    {v : ReplicaID × PartialCertificateWire} (b : BuiltFrom C config hash qc)
    (hids : ∀ rid ∈ config.ids, rid < maxReplicas) (hpassed : VotePassed C config v)
    (hhash : v.2.hash = hash) :
    ∃ qc', qc.addPartialCertificate v.1 v.2 = .ok qc' ∧ BuiltFrom C config hash qc' := by
  obtain ⟨pk, hpk, hsig⟩ := hpassed.checks
  have hid := hids v.1 (ReplicaConfig.isValidReplica_iff.mp
    (ReplicaConfig.isValidReplica_of_getPublickey hpk))
  refine ⟨{ qc with sigs := emplace v.1 v.2.sig qc.sigs }, ?_, b.objHash_eq, ?_, ?_⟩
  · unfold QuorumCertificate.addPartialCertificate
    rw [if_neg (not_not_intro (hhash.trans b.objHash_eq.symm)), if_neg (Nat.not_le.mpr hid)]
  · exact pairwise_emplace b.keys
  · intro e he
    rcases mem_emplace he with rfl | he
    · exact ⟨pk, hpk, hhash ▸ hsig⟩
    · exact b.valid e he

/-- **Run lemma**: so are all votes on a block. -/
theorem BuiltFrom.collectVotes {hash : Hash} {votes : List (ReplicaID × PartialCertificateWire)}
    (hids : ∀ rid ∈ config.ids, rid < maxReplicas) (hpassed : ∀ v ∈ votes, VotePassed C config v)
    (hhash : ∀ v ∈ votes, v.2.hash = hash) :
    ∀ qc : QuorumCertificate, BuiltFrom C config hash qc →
      ∃ qc', Hotstuff.collectVotes votes qc = .ok qc' ∧ BuiltFrom C config hash qc' := by
  induction votes with
  | nil => exact fun qc b => ⟨qc, rfl, b⟩
  | cons v votes ih =>
      intro qc b
      obtain ⟨qc₁, hadd, b₁⟩ := b.addPartialCertificate hids (hpassed v List.mem_cons_self)
        (hhash v List.mem_cons_self)
      obtain ⟨qc', hcollect, b'⟩ := ih (fun x hx => hpassed x (List.mem_cons_of_mem _ hx))
        (fun x hx => hhash x (List.mem_cons_of_mem _ hx)) _ b₁
      refine ⟨qc', ?_, b'⟩
      unfold Hotstuff.collectVotes
      rw [hadd]
      exact hcollect

/-- What was built and has a quorum is accepted after a trip over the wire. -/
theorem BuiltFrom.verify {hash : Hash} {qc : QuorumCertificate} (b : BuiltFrom C config hash qc)
    (hids : ∀ rid ∈ config.ids, rid < maxReplicas) (hquorum : qc.hasQuorum config = true) :
    (QuorumCertificate.ofWire qc.serialize).verify C config = .ok true := by
  have hconfigured : ∀ e ∈ qc.sigs, config.isValidReplica e.1 = true := by
    intro e he
    obtain ⟨pk, hpk, -⟩ := b.valid e he
    exact ReplicaConfig.isValidReplica_of_getPublickey hpk
  rw [QuorumCertificate.ofWire_serialize b.keys fun e he =>
    hids e.1 (ReplicaConfig.isValidReplica_iff.mp (hconfigured e he))]
  by_cases hne : qc.objHash = 0#256
  · unfold QuorumCertificate.verify
    rw [if_pos hne]
  · rw [QuorumCertificate.verify_eq b.keys hne fun _ => hconfigured]
    have hall : qc.validVoters C config = (qc.sigs.map Prod.fst).toFinset := by
      ext rid
      rw [QuorumCertificate.mem_validVoters, List.mem_toFinset, List.mem_map]
      constructor
      · rintro ⟨sig, pk, hmem, -⟩
        exact ⟨(rid, sig), hmem, rfl⟩
      · rintro ⟨⟨rid, sig⟩, hmem, rfl⟩
        obtain ⟨pk, hpk, hsig⟩ := b.valid _ hmem
        exact ⟨sig, pk, hmem, hpk, b.objHash_eq ▸ hsig⟩
    have hnodup : (qc.sigs.map Prod.fst).Nodup := by
      rw [List.Nodup, List.pairwise_map]
      exact b.keys.imp fun hlt heq => absurd heq (Nat.ne_of_lt hlt)
    rw [hall, List.toFinset_card_of_nodup hnodup, List.length_map]
    exact congrArg Except.ok hquorum

/-- **Certificates that are built are accepted.** Votes on a block that were validated or signed with
the replica's own configured key are merged in any order, however often a replica votes; as soon as
there is a quorum, the certificate passes the check of every replica with the same configuration. -/
theorem built_certificate_accepted (hids : ∀ rid ∈ config.ids, rid < maxReplicas) (hash : Hash)
    {votes : List (ReplicaID × PartialCertificateWire)}
    (hpassed : ∀ v ∈ votes, VotePassed C config v) (hhash : ∀ v ∈ votes, v.2.hash = hash) :
    ∃ qc, collectVotes votes (.ofHash hash) = .ok qc ∧ (qc.hasQuorum config = true →
      (QuorumCertificate.ofWire qc.serialize).verify C config = .ok true) := by
  obtain ⟨qc, hcollect, b⟩ := BuiltFrom.collectVotes (C := C) hids hpassed hhash
    (.ofHash hash) ⟨rfl, List.Pairwise.nil, fun e he => absurd he List.not_mem_nil⟩
  exact ⟨qc, hcollect, b.verify hids⟩

end

/-- The vote of a replica of four on a block. -/
def voteOfFour (rid : ReplicaID) : ReplicaID × PartialCertificateWire :=
  (rid, PartialCertificate.create Instance.crypto 1#256 (BitVec.ofNat 512 rid))

theorem votePassed_four {rid : ℕ} (h : rid < 4) :
    VotePassed Instance.crypto (Instance.config 4) (voteOfFour rid) := by
  have hcases : rid = 0 ∨ rid = 1 ∨ rid = 2 ∨ rid = 3 := by omega
  refine ⟨⟨rid, BitVec.ofNat 256 rid⟩, ?_, Or.inr ⟨BitVec.ofNat 512 rid, rfl, fun h => ?_⟩⟩
  · rcases hcases with rfl | rfl | rfl | rfl <;> rfl
  · rw [Instance.checkSig_sign_iff]
    exact BitVec.setWidth_ofNat_of_le (by decide) rid

/-- Votes of replicas 2, 0, 2 and 1 of four, in that order, make a certificate that is accepted. -/
theorem built_certificate_accepted_four : ∃ qc : QuorumCertificate,
    qc.hasQuorum (Instance.config 4) = true ∧
      (QuorumCertificate.ofWire qc.serialize).verify Instance.crypto (Instance.config 4) =
        .ok true := by
  have hpassed : ∀ v ∈ [2, 0, 2, 1].map voteOfFour,
      VotePassed Instance.crypto (Instance.config 4) v := by
    intro v hv
    obtain ⟨rid, hrid, rfl⟩ := List.mem_map.mp hv
    exact votePassed_four ((by decide : ∀ rid ∈ [2, 0, 2, 1], rid < 4) rid hrid)
  obtain ⟨qc, hcollect, haccepted⟩ :=
    built_certificate_accepted (by decide) 1#256 hpassed (by decide)
  have hquorum : qc.hasQuorum (Instance.config 4) = true := by
    obtain rfl := Except.ok.inj hcollect
    decide
  exact ⟨qc, hquorum, haccepted hquorum⟩

end Fred.Hotstuff
