/-
# Fred.Vm.ProposalBytes -- from the leader's proposal to the machines

A leader hands a proposal to its bridge, the bridge puts bytes into a block, and every replica that
commits the block parses them. The two bridges do not write the same bytes: `HotstuffVMBridge` marshals
the proposal, `NonspeculativeVMBridge` puts the bytes of `add_proposal` in as they are. `apply_block`
parses in both (`survives_iff`).

What `apply_block` of any replica is given under a hash is the body that was minted under it, unless
hashes collide (`body_of_committed`): a replica checks a body before it links the block. The bodies are
read off a bridge that writes them down (`VmBridge.logged`).
-/
import Fred.Vm.Replay
import Fred.Hotstuff.Instance

namespace Fred.Hotstuff

open Fred.Transition Replica

variable {V : Type}

/-! ## What `apply_block` is given -/

namespace VmBridge

/-- The bridge, writing down the heights and the bodies `apply_block` is called with. -/
def logged (E : VmBridge V) : VmBridge (V × List (ℕ × List UInt8)) where
  initClean := (E.initClean, [])
  initFromDisk := fun index files height => (E.initFromDisk index files height).map (·, [])
  getNextVmBlock := fun nonemptyProposal height v =>
    (E.getNextVmBlock nonemptyProposal height v.1).map fun (body, w) => (body, w, v.2)
  blockId := E.blockId
  applyBlock := fun height body v => (E.applyBlock height body v.1).map (·, v.2 ++ [(height, body)])
  notifyVmOfCommitment := fun height v => (E.notifyVmOfCommitment height v.1).map (·, v.2)
  run := fun v => (E.run v.1, v.2)

/-- Bodies with their heights, the first above height `k`. -/
def numbered (k : ℕ) (bodies : List (List UInt8)) : List (ℕ × List UInt8) :=
  (List.range' (k + 1) bodies.length).zip bodies

theorem numbered_append (k : ℕ) (bodies bodies' : List (List UInt8)) :
    numbered k (bodies ++ bodies') = numbered k bodies ++ numbered (k + bodies.length) bodies' := by
  unfold numbered
  rw [List.length_append, ← List.range'_append_1, List.zip_append (by simp), Nat.add_right_comm]

/-- Handing over decided blocks writes down their bodies. -/
theorem deliver_logged {E : VmBridge V} {bodies : List (List UInt8)} :
    ∀ {k : ℕ} {v v' : V × List (ℕ × List UInt8)}, E.logged.deliver k bodies v = .ok v' →
      v'.2 = v.2 ++ numbered k bodies := by
  induction bodies with
  | nil =>
      intro k v v' h
      rw [← Except.ok.inj h]
      exact (List.append_nil v.2).symm
  | cons body bodies ih =>
      intro k v v' h
      unfold deliver at h
      split at h
      · cases h
      · rename_i v₁ happly
        split at h
        · cases h
        · rename_i v₂ hnotify
          obtain ⟨w, -, rfl⟩ := exists_of_map_ok happly
          obtain ⟨w', -, rfl⟩ := exists_of_map_ok hnotify
          rw [ih h, List.append_assoc]
          rfl

end VmBridge

/-- The setup with a bridge that writes down what it is given. -/
def Setup.logged (E : Setup V) : Setup (V × List (ℕ × List UInt8)) := { E with vm := E.vm.logged }

/-- The log of a running app is the list of its decided bodies. -/
theorem Ledger.log_of_reach {E : VmBridge V} {s : Ledger (V × List (ℕ × List UInt8))}
    (h : Reach (Ledger.step E.logged) Ledger.running (Ledger.start E.logged) s) :
    s.vm.2 = VmBridge.numbered 0 (s.decided.map Prod.snd) := by
  refine h.invariant (I := fun s => s.vm.2 = VmBridge.numbered 0 (s.decided.map Prod.snd)) rfl ?_
  rintro t u i hlog hrunning hstep
  cases i with
  | commit blocks qc =>
      obtain ⟨vm, hdeliver, rfl⟩ := exists_of_map_ok hstep
      rw [VmBridge.deliver_logged hdeliver, hlog, List.map_append, VmBridge.numbered_append,
        List.length_map, Nat.zero_add]
  | getNextVmBlock nonemptyProposal height =>
      obtain ⟨r, hnext, rfl⟩ := exists_of_map_ok hstep
      obtain ⟨r', -, rfl⟩ := exists_of_map_ok hnext
      exact hlog
  | runVm =>
      obtain rfl := Except.ok.inj hstep
      exact hlog
  | restart files => exact absurd rfl (hrunning files)

/-- An index entry and a body of one height belong to one decided block. -/
theorem exists_decided {E : VmBridge V} {decided : List DecidedBlock} {k : ℕ} {e : IndexEntry}
    {body : List UInt8} (he : e ∈ E.entries k decided)
    (hbody : (e.height, body) ∈ VmBridge.numbered k (decided.map Prod.snd)) :
    (e.hash, body) ∈ decided := by
  induction decided generalizing k with
  | nil => cases he
  | cons d decided ih =>
      have hnumbered : VmBridge.numbered k ((d :: decided).map Prod.snd) =
          (k + 1, d.2) :: VmBridge.numbered (k + 1) (decided.map Prod.snd) := by
        simp [VmBridge.numbered, List.range'_succ]
      rw [hnumbered] at hbody
      -- what comes later is higher than what is first
      have hlater : ∀ e ∈ E.entries (k + 1) decided, k + 1 < e.height := by
        intro e he
        have hmem := List.mem_map_of_mem (f := IndexEntry.height) he
        rw [E.heights_entries] at hmem
        have := (List.mem_range'_1.mp hmem).1
        omega
      have hlater' : ∀ x ∈ VmBridge.numbered (k + 1) (decided.map Prod.snd), k + 1 < x.1 := by
        intro x hx
        have hmem := (List.of_mem_zip hx).1
        have := (List.mem_range'_1.mp hmem).1
        omega
      rcases List.mem_cons.mp he with rfl | he <;> rcases List.mem_cons.mp hbody with heq | hbody
      · obtain ⟨-, rfl⟩ := Prod.mk.inj heq
        exact List.mem_cons_self
      · exact absurd (hlater' _ hbody) (Nat.lt_irrefl _)
      · obtain ⟨hheight, -⟩ := Prod.mk.inj heq
        exact absurd (hlater e he) (by omega)
      · exact List.mem_cons_of_mem d (ih he hbody)

/-- **What `apply_block` is given goes with the hash in the index.** -/
theorem body_of_committed {E : Setup V} {t : Replica (V × List (ℕ × List UInt8))}
    (h : Reach (step E.logged) anyInput (start E.logged) t) {e : IndexEntry} {body : List UInt8}
    (he : e ∈ t.decidedHashIndex.data) (hbody : (e.height, body) ∈ t.vm.2) :
    Authentic E.crypto (e.hash, body) := by
  obtain ⟨decided, hreach, -, hauthentic⟩ := ledger_of_reach h
  have hlog := Ledger.log_of_reach hreach
  have hindex := Ledger.indexed_of_reach hreach
  simp only [Ledger.Indexed] at hindex hlog
  rw [hindex] at he
  rw [hlog] at hbody
  exact hauthentic _ (exists_decided he hbody)

/-! ## A leader whose bridge is fed -/

/-- A `NonspeculativeVMBridge` with the proposals that other threads will add to it. -/
structure Fed (σ : Type) where
  bridge : NonspeculativeVMBridge σ
  incoming : List (List UInt8)

namespace Fed

variable {B I σ : Type}

/-- The next call of `add_proposal`. -/
def receive (v : Fed σ) : Fed σ :=
  match v.incoming with
  | [] => v
  | proposal :: rest => ⟨v.bridge.addProposal proposal, rest⟩

/-- The bridge of a `NonspeculativeHotstuffApp` to which proposals are added. -/
def vmBridge (M : VMType B I σ) (incoming : List (List UInt8)) : VmBridge (Fed σ) where
  initClean := ⟨.initClean M, incoming⟩
  initFromDisk := fun index _ height => .ok ⟨.initFromDisk M index height, incoming⟩
  getNextVmBlock := fun nonemptyProposal height v =>
    .ok (if nonemptyProposal then
      ((v.bridge.getNextProposal height).1, { v with bridge := (v.bridge.getNextProposal height).2 })
    else (NonspeculativeVMBridge.makeEmptyProposal height, v))
  blockId := fun body => M.serialize (M.getBlockId (M.tryVmParse body))
  applyBlock := fun height body v => (v.bridge.applyBlock M height body).map fun bridge =>
    { v with bridge := bridge }
  notifyVmOfCommitment := fun height v =>
    .ok { v with bridge := v.bridge.notifyVmOfCommitment height }
  run := receive

end Fed

/-! ## Proposals and minted blocks -/

/-- The two apps, with what other threads will do to their bridges. -/
inductive LeaderApp where
  | hotstuffApp (schedule : List (List BridgeAct)) (waits : List ℕ)
  | nonspeculativeHotstuffApp (incoming : List (List UInt8))

namespace LeaderApp

variable {B I σ J τ : Type}

/-- The proposals of the app: blocks of its machine, or byte strings. -/
abbrev Proposal (B : Type) : LeaderApp → Type
  | hotstuffApp _ _ => B
  | nonspeculativeHotstuffApp _ => List UInt8

abbrev State (B I σ τ : Type) : LeaderApp → Type
  | hotstuffApp _ _ => Played B I σ
  | nonspeculativeHotstuffApp _ => Fed τ

variable (M : VMType B I σ) (N : VMType (List UInt8) J τ)

def bridge [DecidableEq I] : (a : LeaderApp) → VmBridge (a.State B I σ τ)
  | hotstuffApp schedule waits => Played.vmBridge M schedule waits
  | nonspeculativeHotstuffApp incoming => Fed.vmBridge N incoming

/-- `try_vm_parse` with the machine's type of blocks, which `apply_block` calls. -/
def tryVmParse : (a : LeaderApp) → List UInt8 → Option (a.Proposal B)
  | hotstuffApp _ _ => M.tryVmParse
  | nonspeculativeHotstuffApp _ => N.tryVmParse

/-- What the bridge takes as the next proposal when it is asked for a nonempty block. -/
def handsOver : (a : LeaderApp) → a.State B I σ τ → Option (a.Proposal B)
  | hotstuffApp _ _, v =>
    ((Played.others M v).bridge.vmInterface.getProposal M ((Played.others M v).waits.headD 0)).1
  | nonspeculativeHotstuffApp _, v => v.bridge.proposalBuffer.getLast?

/-- The bytes the bridge makes of a proposal. -/
def bytes : (a : LeaderApp) → a.Proposal B → List UInt8
  | hotstuffApp _ _, p => M.toOpaque p
  | nonspeculativeHotstuffApp _, p => p

/-- What is known of the marshaling library: the value of a machine's block comes back, and a byte
string is parsed as variable-length opaque data. -/
def StandardXdr : (a : LeaderApp) → a.Proposal B → Prop
  | hotstuffApp _ _, p => M.parse (M.toOpaque p) = some p
  | nonspeculativeHotstuffApp _, _ => N.parse = Opaque.decode

/-- The app marshals its proposals, and there are bytes to show for it. -/
def Marshals : (a : LeaderApp) → a.Proposal B → Prop
  | hotstuffApp _ _, p => M.toOpaque p ≠ []
  | nonspeculativeHotstuffApp _, _ => False

variable {M N} {a : LeaderApp}

theorem bytes_of_handsOver [DecidableEq I] {height : ℕ} {v v' : a.State B I σ τ} {body : List UInt8}
    {p : a.Proposal B} (hp : a.handsOver M v = some p)
    (h : (a.bridge M N).getNextVmBlock true height v = .ok (body, v')) : body = a.bytes M p := by
  cases a with
  | hotstuffApp schedule waits =>
      have hnext : Played.getNextVmBlock M true height v = .ok (body, v') := h
      unfold Played.getNextVmBlock at hnext
      simp only [if_true] at hnext
      obtain ⟨w, -, heq⟩ := exists_of_map_ok hnext
      rw [← (Prod.mk.inj heq).1]
      simp only [handsOver] at hp
      simp only [HotstuffVMBridge.getAndApplyNextProposal]
      rcases hget : (Played.others M v).bridge.vmInterface.getProposal M
        ((Played.others M v).waits.headD 0) with ⟨_ | proposal, c⟩
      · rw [hget] at hp
        cases hp
      · rw [hget] at hp
        rw [← Option.some.inj hp]
        rfl
  | nonspeculativeHotstuffApp incoming =>
      have hbody : (v.bridge.getNextProposal height).1 = body := (Prod.mk.inj (Except.ok.inj h)).1
      have hlast : v.bridge.proposalBuffer.getLast? = some p := hp
      rw [← hbody, NonspeculativeVMBridge.getNextProposal, hlast]
      rfl

/-- Raw bytes never parse to themselves: what parses is longer than its value. -/
theorem tryVmParse_raw_ne (hN : N.parse = Opaque.decode) (p : List UInt8) :
    N.tryVmParse p ≠ some p := by
  intro h
  have hdecode : Opaque.decode p = some p := hN ▸ N.parse_of_tryVmParse h
  have hlength := Opaque.length_of_decode hdecode
  rw [Opaque.length_encode] at hlength
  omega

theorem tryVmParse_bytes_iff {p : a.Proposal B} (hxdr : a.StandardXdr M N p) :
    a.tryVmParse M N (a.bytes M p) = some p ↔ a.Marshals M p := by
  cases a with
  | hotstuffApp schedule waits =>
      have hround : M.parse (M.toOpaque p) = some p := hxdr
      simp only [tryVmParse, bytes, Marshals, VMType.tryVmParse, gt_iff_lt, List.length_pos_iff]
      by_cases hnil : M.toOpaque p = []
      · simp [hnil]
      · simp [hnil, hround]
  | nonspeculativeHotstuffApp incoming =>
      simp only [Marshals, iff_false]
      exact tryVmParse_raw_ne hxdr p

end LeaderApp

/-- The block a proposing step mints has the body its bridge has given. -/
theorem minted_wireBlock {E : Setup V} {s s' : Replica V} (W : WellFormed E s)
    (h : step E .doPropose s = .ok s') :
    ∃ body vm, E.vm.getNextVmBlock (s.heap.supportsNonemptyChildProposal E.selfId 3 s.bLeaf)
        (s.heap.height s.bLeaf + 1) s.vm = .ok (body, vm) ∧
      (s'.heap.get s'.bLeaf).wireBlock =
        ⟨⟨s.heap.hash s.bLeaf, s.hqc.2, E.crypto.hashBody body⟩, body⟩ := by
  unfold step doPropose proposeWith at h
  dsimp only at h
  split at h
  · cases h
  · rename_i body vm hvm
    have W₁ : WellFormed E { s with vm := vm } := W.withQueue (fun _ he => Or.inl he) _ _ _ _ _ _ _
    obtain ⟨q, j, -, -, rfl⟩ := StepForm.of_proposeBody W₁ h
    refine ⟨body, vm, hvm, ?_⟩
    have hheap : (({ s with vm := vm } : Replica V).proposed E body q j).heap =
        (s.heap.alloc (HotstuffBlock.mintBlock E.crypto body s.hqc.2 (s.heap.hash s.bLeaf)
          E.selfId)).link s.heap.next q j := rfl
    have hleaf : (({ s with vm := vm } : Replica V).proposed E body q j).bLeaf = s.heap.next := rfl
    rw [hheap, hleaf, Heap.get_link_self, Heap.get_alloc_next]
    rfl

/-! ## Proposals survive the trip -/

/-- Hashes do not collide on a minted block and what another replica has under its hash. -/
def ApartFrom (C : Crypto) (w : HotstuffBlockWire) (body : List UInt8) : Prop :=
  (∀ header, C.hashHeader header = C.hashHeader w.header → C.hashBody body = header.bodyHash →
    header = w.header) ∧
    (C.hashBody body = C.hashBody w.body → body = w.body)

/-- The proposal is parsed out of the body of the minted block, and out of the body that `apply_block`
of any replica is given for the block. -/
def Survives {P : Type} (C : Crypto) (parse : List UInt8 → Option P) (w : HotstuffBlockWire) (p : P) :
    Prop :=
  parse w.body = some p ∧
    ∀ {V : Type} (E : Setup V) (t : Replica (V × List (ℕ × List UInt8))), E.crypto = C →
      Reach (step E.logged) anyInput (start E.logged) t →
      ∀ e ∈ t.decidedHashIndex.data, ∀ body, e.hash = C.hashHeader w.header →
        (e.height, body) ∈ t.vm.2 → ApartFrom C w body → parse body = some p

/-- A body that parses survives: no other body is committed under the hash. -/
theorem survives_of_parse {P : Type} {C : Crypto} {parse : List UInt8 → Option P}
    {w : HotstuffBlockWire} {p : P} (hw : C.hashBody w.body = w.header.bodyHash)
    (hparse : parse w.body = some p) : Survives C parse w p := by
  refine ⟨hparse, ?_⟩
  rintro V E t rfl hreach e he body hhash hbody ⟨hheaders, hbodies⟩
  obtain ⟨header, hheader, hnames⟩ := body_of_committed hreach he hbody
  have hsame : header = w.header := hheaders header (hheader.trans hhash) hnames
  have heq : body = w.body := hbodies (by rw [hnames, hsame, hw])
  rw [heq]
  exact hparse

section
variable {B I σ J τ : Type} [DecidableEq I] {M : VMType B I σ} {N : VMType (List UInt8) J τ}
  {a : LeaderApp} {E : Setup (a.State B I σ τ)} {s s' : Replica (a.State B I σ τ)}

/-- The block minted for a proposal holds the bytes the bridge makes of it. -/
theorem minted_body (hvm : E.vm = a.bridge M N) (h : Reach (step E) anyInput (start E) s)
    (hstep : step E .doPropose s = .ok s')
    (hnonempty : s.heap.supportsNonemptyChildProposal E.selfId 3 s.bLeaf = true) {p : a.Proposal B}
    (hp : a.handsOver M s.vm = some p) :
    (s'.heap.get s'.bLeaf).wireBlock.body = a.bytes M p ∧
      E.crypto.hashBody (s'.heap.get s'.bLeaf).wireBlock.body =
        (s'.heap.get s'.bLeaf).wireBlock.header.bodyHash := by
  obtain ⟨body, vm, hnext, hwire⟩ := minted_wireBlock (wellFormed_commitLog_of_reach h).1 hstep
  rw [hvm, hnonempty] at hnext
  rw [hwire]
  exact ⟨LeaderApp.bytes_of_handsOver hp hnext, rfl⟩

/-- **Proposals survive the trip exactly where the bridge marshals them.** In every run of a leader, a
proposal that is handed over to a nonempty block is parsed back, at the leader and by `apply_block` of
every replica that commits the block, if and only if the leader is a `HotstuffApp` and the marshaled
proposal is not empty. -/
theorem survives_iff (hvm : E.vm = a.bridge M N) (h : Reach (step E) anyInput (start E) s)
    (hstep : step E .doPropose s = .ok s')
    (hnonempty : s.heap.supportsNonemptyChildProposal E.selfId 3 s.bLeaf = true) {p : a.Proposal B}
    (hp : a.handsOver M s.vm = some p) (hxdr : a.StandardXdr M N p) :
    Survives E.crypto (a.tryVmParse M N) (s'.heap.get s'.bLeaf).wireBlock p ↔ a.Marshals M p := by
  obtain ⟨hbody, hhash⟩ := minted_body hvm h hstep hnonempty hp
  have hiff := LeaderApp.tryVmParse_bytes_iff hxdr
  rw [← hbody] at hiff
  exact ⟨fun hs => hiff.mp hs.1, fun hm => survives_of_parse hhash (hiff.mpr hm)⟩

end

/-! ### A single replica of a machine that counts -/

/-- The only replica, whose bridge is that of the app. -/
def countingLeader (a : LeaderApp) :
    Setup (a.State (List UInt8) (List UInt8) CountingVM CountingVM) :=
  ⟨Instance.crypto, Instance.config 1, 0, 0, a.bridge CountingVM.vmType CountingVM.vmType⟩

/-- The app whose machine is put in proposer mode before anything else. -/
abbrev speculativeLeader : LeaderApp := .hotstuffApp [[.putVmInProposerMode]] []

/-- The app to which the bytes `[7]` are added. -/
abbrev feedLeader : LeaderApp := .nonspeculativeHotstuffApp [[7]]

/-- The step goes through. -/
def goesThrough {V : Type} (E : Setup V) (i : Input) (s : Replica V) : Bool :=
  match step E i s with
  | .ok _ => true
  | .error _ => false

theorem exists_of_goesThrough {E : Setup V} {i : Input} {s : Replica V}
    (h : goesThrough E i s = true) : ∃ s', step E i s = .ok s' := by
  unfold goesThrough at h
  split at h
  · exact ⟨_, ‹_›⟩
  · cases h

/-- After three empty blocks the machine's first block, one zero byte, is proposed and survives. -/
theorem survives_counting : ∃ s s' : Replica (Played (List UInt8) (List UInt8) CountingVM),
    step (countingLeader speculativeLeader) .doPropose s = .ok s' ∧
      Survives Instance.crypto CountingVM.vmType.tryVmParse (s'.heap.get s'.bLeaf).wireBlock [0] := by
  have hrun : Instance.observe (countingLeader speculativeLeader) (Instance.soloRounds 3) (fun s =>
      (s.heap.supportsNonemptyChildProposal 0 3 s.bLeaf,
        speculativeLeader.handsOver CountingVM.vmType s.vm,
        goesThrough (countingLeader speculativeLeader) .doPropose s)) =
      some (true, some [0], true) := by
    decide +kernel
  obtain ⟨s, hreach, hobs⟩ := Instance.exists_of_observe hrun
  obtain ⟨hnonempty, hrest⟩ := Prod.mk.inj hobs
  obtain ⟨hp, hgoes⟩ := Prod.mk.inj hrest
  obtain ⟨s', hstep⟩ := exists_of_goesThrough hgoes
  have hxdr : speculativeLeader.StandardXdr CountingVM.vmType CountingVM.vmType [0] := by
    show CountingVM.vmType.parse (CountingVM.vmType.toOpaque [0]) = some [0]
    decide +kernel
  have hmarshals : speculativeLeader.Marshals CountingVM.vmType [0] := by
    show Opaque.encode [0] ≠ []
    exact Opaque.encode_ne_nil [0]
  exact ⟨s, s', hstep, (survives_iff rfl hreach hstep hnonempty hp hxdr).mpr hmarshals⟩

/-- After three empty blocks the bytes `[7]` are proposed, and nobody parses them out of the block. -/
theorem raw_bytes_lost : ∃ s s' : Replica (Fed CountingVM),
    Reach (step (countingLeader feedLeader)) anyInput (start (countingLeader feedLeader)) s ∧
      s.heap.supportsNonemptyChildProposal 0 3 s.bLeaf = true ∧
      feedLeader.handsOver CountingVM.vmType s.vm = some [7] ∧
      step (countingLeader feedLeader) .doPropose s = .ok s' ∧
      ¬ Survives Instance.crypto CountingVM.vmType.tryVmParse (s'.heap.get s'.bLeaf).wireBlock
        [7] := by
  have hrun : Instance.observe (countingLeader feedLeader) (.runVm :: Instance.soloRounds 3) (fun s =>
      (s.heap.supportsNonemptyChildProposal 0 3 s.bLeaf,
        feedLeader.handsOver CountingVM.vmType s.vm,
        goesThrough (countingLeader feedLeader) .doPropose s)) =
      some (true, some [7], true) := by
    decide +kernel
  obtain ⟨s, hreach, hobs⟩ := Instance.exists_of_observe hrun
  obtain ⟨hnonempty, hrest⟩ := Prod.mk.inj hobs
  obtain ⟨hp, hgoes⟩ := Prod.mk.inj hrest
  obtain ⟨s', hstep⟩ := exists_of_goesThrough hgoes
  refine ⟨s, s', hreach, hnonempty, hp, hstep, fun hsurvives => ?_⟩
  have hbody := (minted_body (N := CountingVM.vmType) rfl hreach hstep hnonempty hp).1
  have hparse := hsurvives.1
  rw [hbody] at hparse
  exact LeaderApp.tryVmParse_raw_ne rfl [7] hparse

end Fred.Hotstuff
