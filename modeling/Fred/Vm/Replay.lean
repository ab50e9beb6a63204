/-
# Fred.Vm.Replay -- what a restart rebuilds of the machine

The index of decided blocks survives a crash, and `init_from_disk` walks over it. A `Ledger` is an app
at its bridge and its index: blocks are committed in transactions, the machine runs and is asked for
proposals, and the process restarts. A replica is one (`ledger_of_reach`). `HotstuffVMBridge` has the
machine load its state, which replays the decided blocks that parse. `NonspeculativeVMBridge` leaves the
machine as it was constructed (`recovers_machine_iff`).

`init_from_disk` of the app reads the decided blocks into the block store before the bridge is set up;
that the block files can be read is assumed here.
-/
import Fred.Vm.Bridges
import Fred.Vm.CountingVM
import Fred.Vm.Delivery

namespace Fred.Hotstuff

open Fred.Transition

variable {V : Type}

/-! ## An app at its bridge and its index -/

structure Ledger (V : Type) where
  vm : V
  index : HotstuffLMDB
  /-- The blocks of all commit transactions, lowest first. -/
  decided : List DecidedBlock

inductive LedgerInput where
  /-- A commit transaction, from `open_txn` to the commit. -/
  | commit (blocks : List DecidedBlock) (qc : QuorumCertificateWire)
  | getNextVmBlock (nonemptyProposal : Bool) (height : ℕ)
  | runVm
  /-- A crash, and `init_from_disk` on the files there are. -/
  | restart (files : Hash → Option HotstuffBlockWire)

namespace Ledger

/-- After `init_clean` on a fresh data directory. -/
def start (E : VmBridge V) : Ledger V := ⟨E.initClean, ⟨[], none, some 0⟩, []⟩

def step (E : VmBridge V) : LedgerInput → Ledger V → Except String (Ledger V)
  | .commit blocks qc, s =>
    (E.deliver s.decided.length (blocks.map Prod.snd) s.vm).map fun vm =>
      { vm := vm
        index := s.index.commit ⟨(E.entries s.decided.length blocks).foldl
          (fun data e => HotstuffLMDB.put e data) s.index.data, some qc⟩
        decided := s.decided ++ blocks }
  | .getNextVmBlock nonemptyProposal height, s =>
    (E.getNextVmBlock nonemptyProposal height s.vm).map fun (_, vm) => { s with vm := vm }
  | .runVm, s => .ok { s with vm := E.run s.vm }
  | .restart files, s =>
    (E.initFromDisk s.index files s.decided.length).map fun vm => { s with vm := vm }

variable {E : VmBridge V} {s s' : Ledger V}

/-- The index has one entry for each decided block. -/
def Indexed (E : VmBridge V) (s : Ledger V) : Prop := s.index.data = E.entries 0 s.decided

theorem Indexed.step {i : LedgerInput} (I : Indexed E s) (h : Ledger.step E i s = .ok s') :
    Indexed E s' := by
  cases i with
  | commit blocks qc =>
      obtain ⟨vm, -, rfl⟩ := exists_of_map_ok h
      have happend := E.entries_append (k := 0) s.decided blocks
      rw [Nat.zero_add] at happend
      -- the keys of the index and of the transaction together are 1, 2, ..
      have hsorted : (E.entries 0 s.decided ++ E.entries s.decided.length blocks).Pairwise
          fun d e => d.height < e.height := by
        rw [← happend, ← List.pairwise_map (f := IndexEntry.height) (R := (· < ·)),
          E.heights_entries]
        exact List.pairwise_lt_range'
      show (E.entries s.decided.length blocks).foldl _ s.index.data = _
      rw [show s.index.data = E.entries 0 s.decided from I, HotstuffLMDB.foldl_put hsorted, happend]
  | getNextVmBlock nonemptyProposal height =>
      obtain ⟨r, -, rfl⟩ := exists_of_map_ok h
      exact I
  | runVm =>
      obtain rfl := Except.ok.inj h
      exact I
  | restart files =>
      obtain ⟨vm, -, rfl⟩ := exists_of_map_ok h
      exact I

theorem indexed_of_reach {P : Ledger V → LedgerInput → Prop} (h : Reach (step E) P (start E) s) :
    Indexed E s :=
  h.invariant (I := Indexed E) (show (start E).index.data = _ from rfl)
    fun _ _ _ I _ hstep => Indexed.step I hstep

end Ledger

/-! ## A replica is a ledger -/

/-- The process does not restart. -/
def Ledger.running (_ : Ledger V) (i : LedgerInput) : Prop := ∀ files, i ≠ .restart files

/-- The hash is that of some header, which names the hash of the body. -/
def Authentic (C : Crypto) (d : DecidedBlock) : Prop :=
  ∃ header : HotstuffBlockHeader, C.hashHeader header = d.1 ∧ C.hashBody d.2 = header.bodyHash

/-- A replica checks a body against its header before the object is linked, and keeps or drops it. -/
theorem authentic_of_presents {E : Setup V} {s : Replica V} {b : BlockPtr} {d : DecidedBlock}
    (W : WellFormed E s) (B : BodyLog E s) (hset : s.heap.Settled b) (hb : b ≠ genesisPtr)
    (hd : s.heap.Presents d b) : Authentic E.crypto d := by
  have hlt := W.shape.lt_next_of_settled hset
  refine ⟨s.heap.header b, ?_, ?_⟩
  · rw [hd.2, W.shape.hash_eq b hb hlt]
  · rw [hd.2]
    exact B.body b hb hlt hd.1

/-- What a replica does to its bridge and its index is a run of a ledger. What holds of the objects it can
hand over holds of the decided blocks. -/
theorem ledger_of_run {E : Setup V} {s : Replica V} {P : Replica V → Input → Prop}
    {G : Ledger V → LedgerInput → Prop} {Q : DecidedBlock → Prop}
    (hcommit : ∀ l blocks qc, G l (.commit blocks qc)) (hrun : ∀ l, G l .runVm)
    (hpropose : ∀ t i l nonempty height, P t i → i.Proposes →
      G l (.getNextVmBlock nonempty height))
    (hQ : ∀ t b d, Reach (Hotstuff.step E) P (Hotstuff.start E) t → t.heap.Settled b →
      b ≠ genesisPtr → t.heap.Presents d b → Q d)
    (h : Reach (Hotstuff.step E) P (Hotstuff.start E) s) :
    ∃ decided, Reach (Ledger.step E.vm) G (Ledger.start E.vm) ⟨s.vm, s.decidedHashIndex, decided⟩ ∧
      decided.length = s.heap.height s.bExec ∧ ∀ d ∈ decided, Q d := by
  refine h.invariant_of_reach (I := fun s => ∃ decided,
    Reach (Ledger.step E.vm) G (Ledger.start E.vm) ⟨s.vm, s.decidedHashIndex, decided⟩ ∧
      decided.length = s.heap.height s.bExec ∧ ∀ d ∈ decided, Q d)
    ⟨[], Reach.refl _, rfl, nofun⟩ ?_
  rintro t u i ht ⟨decided, hreach, hlength, hall⟩ hP hstep
  have W := (wellFormed_commitLog_of_reach ht).1
  rcases vm_step_cases W hstep with ⟨hi, nonempty, body, hvm, hindex, hexec⟩ | rfl | c
  · refine ⟨decided, hreach.tail (hpropose t i _ nonempty (t.heap.height t.bLeaf + 1) hP hi) ?_,
      hlength.trans hexec.symm, hall⟩
    simp only [Ledger.step]
    rw [hvm, hindex]
    rfl
  · exact ⟨decided, hreach.tail (hrun _) rfl, hlength, hall⟩
  · cases c with
    | stay hvm hindex hexec =>
        refine ⟨decided, ?_, hlength.trans hexec.symm, hall⟩
        rw [hvm, hindex]
        exact hreach
    | @commit blocks qc hvm hindex hexec hblocks =>
        refine ⟨decided ++ blocks, hreach.tail (hcommit _ blocks qc) ?_, ?_, ?_⟩
        · rw [← hlength] at hvm hindex
          simp only [Ledger.step]
          rw [hvm, hindex]
          rfl
        · rw [List.length_append, hlength, hexec]
        · intro d hd
          rcases List.mem_append.mp hd with hd | hd
          · exact hall d hd
          · obtain ⟨b, hset, hb, hpresents⟩ := hblocks d hd
            exact hQ t b d ht hset hb hpresents

/-- **Refinement**: what a replica does to its bridge and its index is a run of a ledger, with one
decided block for each height up to the executed block, and each with the body that goes with its
hash. -/
theorem ledger_of_reach {E : Setup V} {s : Replica V}
    (h : Reach (Hotstuff.step E) anyInput (Hotstuff.start E) s) :
    ∃ decided, Reach (Ledger.step E.vm) Ledger.running (Ledger.start E.vm)
        ⟨s.vm, s.decidedHashIndex, decided⟩ ∧
      decided.length = s.heap.height s.bExec ∧ ∀ d ∈ decided, Authentic E.crypto d := by
  refine ledger_of_run (by simp [Ledger.running]) (by simp [Ledger.running])
    (by simp [Ledger.running]) ?_ h
  intro t b d ht hset hb hd
  exact authentic_of_presents (wellFormed_commitLog_of_reach ht).1 (bodyLog_of_reach ht) hset hb hd

/-! ## Recovery of a `CountingVM` -/

/-- The two apps over a `CountingVM`. -/
inductive CountingApp where
  | hotstuffApp (schedule : List (List BridgeAct)) (waits : List ℕ)
  | nonspeculativeHotstuffApp

namespace CountingApp

def State : CountingApp → Type
  | .hotstuffApp _ _ => Played (List UInt8) (List UInt8) CountingVM
  | .nonspeculativeHotstuffApp => NonspeculativeVMBridge CountingVM

def bridge : (a : CountingApp) → VmBridge a.State
  | .hotstuffApp schedule waits => Played.vmBridge CountingVM.vmType schedule waits
  | .nonspeculativeHotstuffApp => NonspeculativeVMBridge.vmBridge CountingVM.vmType

def machine : (a : CountingApp) → a.State → CountingVM
  | .hotstuffApp _ _, v => v.bridge.vmInterface.vmInstance
  | .nonspeculativeHotstuffApp, v => v.vm

end CountingApp

/-- The file of every decided block holds its body. -/
def Readable (files : Hash → Option HotstuffBlockWire) (decided : List DecidedBlock) : Prop :=
  ∀ b ∈ decided, ∃ wire, files b.1 = some wire ∧ wire.body = b.2

/-- A freshly initialised machine on which blocks have been executed. -/
def CountingVM.executed (blks : List (List UInt8)) : CountingVM :=
  blks.foldl (fun vm blk => vmType.execBlock blk vm) (vmType.initClean vmType.fresh)

/-- The decided blocks with a non-empty body that parses. -/
def parsedBlocks (decided : List DecidedBlock) : List (List UInt8) :=
  CountingVM.vmType.parsed (decided.map Prod.snd)

/-- After a crash, `init_from_disk` gives the machine the state of a fresh one that has executed the
decided blocks. -/
def RecoversMachine (a : CountingApp) (files : Hash → Option HotstuffBlockWire)
    (s : Ledger a.State) : Prop :=
  ∃ v, a.bridge.initFromDisk s.index files s.decided.length = .ok v ∧
    a.machine v = CountingVM.executed (parsedBlocks s.decided)

namespace CountingVM

/-- A block that was parsed is read back from a file that holds it. -/
theorem loadVmBlock_eq {files : Hash → Option HotstuffBlockWire} {x : Hash}
    {wire : HotstuffBlockWire} {blk : List UInt8} (hfile : files x = some wire)
    (hparse : vmType.tryVmParse wire.body = some blk) : loadVmBlock files x = .ok blk := by
  have hdecode : Opaque.decode wire.body = some blk := vmType.parse_of_tryVmParse hparse
  simp [loadVmBlock, hfile, hdecode]

/-- **The walk over the index executes what was parsed when it was decided.** -/
theorem replay_entries {E : VmBridge V} {files : Hash → Option HotstuffBlockWire}
    (hid : E.blockId = fun body => vmType.serialize (vmType.getBlockId (vmType.tryVmParse body)))
    {decided : List DecidedBlock} (hr : Readable files decided) :
    ∀ (k : ℕ) (vm : CountingVM), replay files (E.entries k decided) vm =
      .ok ((parsedBlocks decided).foldl (fun vm blk => vmType.execBlock blk vm) vm) := by
  induction decided with
  | nil => exact fun k vm => rfl
  | cons b decided ih =>
      intro k vm
      have ih' := ih (fun b' hb' => hr b' (List.mem_cons_of_mem _ hb')) (k + 1)
      obtain ⟨wire, hfile, hbody⟩ := hr b List.mem_cons_self
      have hread : parseId (E.blockId b.2) = .ok (vmType.tryVmParse b.2) := by
        rw [hid]
        exact parseId_serializeId
      rw [VmBridge.entries, replay, hread]
      cases hparse : vmType.tryVmParse b.2 with
      | none =>
          dsimp only
          rw [ih' vm]
          simp [parsedBlocks, VMType.parsed, hparse]
      | some blk =>
          dsimp only
          rw [loadVmBlock_eq hfile (hbody ▸ hparse)]
          dsimp only
          rw [ih' vm.execBlock]
          simp [parsedBlocks, VMType.parsed, hparse]
          rfl

theorem state_foldl (blks : List (List UInt8)) (vm : CountingVM) :
    blks.foldl (fun vm blk => vmType.execBlock blk vm) vm =
      { vm with state := vm.state + UInt64.ofNat blks.length } := by
  induction blks generalizing vm with
  | nil => simp
  | cons blk blks ih =>
      rw [List.foldl_cons, ih, List.length_cons, Nat.add_comm, UInt64.ofNat_add, ← UInt64.add_assoc]
      rfl

/-- A machine that was only constructed has executed the blocks just when their number wraps to zero. -/
theorem make_eq_executed_iff (blks : List (List UInt8)) :
    make = executed blks ↔ 2 ^ 64 ∣ blks.length := by
  have hexecuted : executed blks = ⟨UInt64.ofNat blks.length, 0⟩ := by
    unfold executed
    rw [state_foldl]
    show (⟨0 + _, 0⟩ : CountingVM) = _
    rw [UInt64.zero_add]
  rw [hexecuted, make, CountingVM.mk.injEq, and_iff_left rfl, ← UInt64.toNat_inj,
    UInt64.toNat_ofNat', Nat.dvd_iff_mod_eq_zero]
  exact eq_comm

end CountingVM

section
variable {a : CountingApp} {files : Hash → Option HotstuffBlockWire} {s : Ledger a.State}

theorem blockId_bridge (a : CountingApp) : a.bridge.blockId = fun body =>
    CountingVM.vmType.serialize (CountingVM.vmType.getBlockId (CountingVM.vmType.tryVmParse body)) := by
  cases a <;> rfl

/-- `init_from_disk` of a `HotstuffVMBridge` has the machine replay the index. -/
theorem recoversMachine_hotstuffApp {schedule : List (List BridgeAct)} {waits : List ℕ}
    {s : Ledger (CountingApp.State (.hotstuffApp schedule waits))}
    (hindex : Ledger.Indexed (CountingApp.bridge (.hotstuffApp schedule waits)) s)
    (hr : Readable files s.decided) : RecoversMachine (.hotstuffApp schedule waits) files s := by
  have hreplay := CountingVM.replay_entries (blockId_bridge (.hotstuffApp schedule waits)) hr 0
    CountingVM.make
  rw [← show s.index.data = _ from hindex] at hreplay
  have hload : CountingVM.vmType.initFromDisk s.index files CountingVM.vmType.fresh =
      .ok (CountingVM.executed (parsedBlocks s.decided)) := hreplay
  refine ⟨⟨⟨.initFromDisk s.decided.length, { VMControlInterface.make CountingVM.make with
    vmInstance := CountingVM.executed (parsedBlocks s.decided) }⟩, schedule, waits, []⟩, ?_, rfl⟩
  simp only [CountingApp.bridge, Played.vmBridge, HotstuffVMBridge.initFromDisk,
    VMControlInterface.initFromDisk, VMControlInterface.make, hload]
  rfl

/-- `init_from_disk` of a `NonspeculativeVMBridge` does nothing to the machine. -/
theorem recoversMachine_nonspeculative_iff
    {s : Ledger (CountingApp.State .nonspeculativeHotstuffApp)} :
    RecoversMachine .nonspeculativeHotstuffApp files s ↔
      2 ^ 64 ∣ (parsedBlocks s.decided).length := by
  rw [← CountingVM.make_eq_executed_iff]
  constructor
  · rintro ⟨v, hv, hmachine⟩
    rw [← Except.ok.inj hv] at hmachine
    exact hmachine
  · exact fun h => ⟨_, rfl, h⟩

/-- **When a restart recovers the machine.** After every run, recovery equals the replay of the decided
blocks if the app is a `HotstuffApp`; the machine of a `NonspeculativeHotstuffApp` is as constructed, and
equals the replay only when the number of executed blocks is a multiple of 2^64. -/
theorem recovers_machine_iff
    (h : Reach (Ledger.step a.bridge) anyInput (Ledger.start a.bridge) s)
    (hr : Readable files s.decided) :
    RecoversMachine a files s ↔
      a ≠ .nonspeculativeHotstuffApp ∨ 2 ^ 64 ∣ (parsedBlocks s.decided).length := by
  cases a with
  | hotstuffApp schedule waits =>
      refine iff_of_true ?_ (Or.inl (by simp))
      exact recoversMachine_hotstuffApp (Ledger.indexed_of_reach h) hr
  | nonspeculativeHotstuffApp => simpa using recoversMachine_nonspeculative_iff

end

/-! ### One committed block -/

/-- A body that parses to the block 7. -/
def sevenBody : List UInt8 := Opaque.encode [7]

/-- A transaction that commits one block. -/
def commitSeven : LedgerInput := .commit [(1#256, sevenBody)] ⟨1#256, 0#32, []⟩

/-- Every file holds the block. -/
def sevenFiles (_ : Hash) : Option HotstuffBlockWire :=
  some ⟨⟨0#256, ⟨0#256, 0#32, []⟩, 0#256⟩, sevenBody⟩

theorem readable_seven : Readable sevenFiles [(1#256, sevenBody)] := by
  intro b hb
  rw [List.mem_singleton.mp hb]
  exact ⟨_, rfl, rfl⟩

/-- A `HotstuffApp` that has committed the block recovers its machine. -/
theorem recovers_machine_seven : ∃ s : Ledger (CountingApp.State (.hotstuffApp [] [])),
    s.decided = [(1#256, sevenBody)] ∧ RecoversMachine (.hotstuffApp [] []) sevenFiles s := by
  refine ⟨_, ?_, (recovers_machine_iff (a := .hotstuffApp [] [])
    (@Reach.of_runList _ _ _ _ _ (fun _ _ => trivial) [commitSeven] _ _ rfl) ?_).mpr (Or.inl (by simp))⟩
  · rfl
  · exact readable_seven

/-- A `NonspeculativeHotstuffApp` that has committed the block does not. -/
theorem machine_lost_on_restart : ¬ ∀ (a : CountingApp) (files : Hash → Option HotstuffBlockWire)
    (s : Ledger a.State),
    Reach (Ledger.step a.bridge) anyInput (Ledger.start a.bridge) s → Readable files s.decided →
      RecoversMachine a files s := by
  intro hall
  have hrecovers := hall .nonspeculativeHotstuffApp sevenFiles _
    (@Reach.of_runList _ _ _ _ _ (fun _ _ => trivial) [commitSeven] _ _ rfl) readable_seven
  have hdvd : 2 ^ 64 ∣ (parsedBlocks [(1#256, sevenBody)]).length :=
    recoversMachine_nonspeculative_iff.mp hrecovers
  rw [show (parsedBlocks [(1#256, sevenBody)]).length = 1 by decide] at hdvd
  omega

end Fred.Hotstuff
