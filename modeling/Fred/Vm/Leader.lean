/-
# Fred.Vm.Leader -- speculation at a leader, from call to call

The bridge of a `HotstuffApp` whose machine obeys the interface. Between two calls of consensus, bridge
and machine are in step (`Mirrors`); between `apply_block` and `notify_vm_of_commitment` the block either
is the first the map records, or was submitted (`Applied`). Every call that meets `Meets` keeps this, and
so a run does whose calls all meet it: what the machine has settled are the decided blocks that parse
(`speculation_invisible`).

The calls that do not meet `Meets` are those where the bridge loses track of the machine: a proposal
taken at a height the gadget drops, a null block applied while proposals wait in the buffer, a block
executed before the machine was told of a commitment, and a commitment replaced by one with the same
identifier.
-/
import Fred.Vm.Speculation
import Fred.Vm.DecidedBlocks
import Fred.Vm.Replay
import Fred.Hotstuff.Instance

namespace Fred.Hotstuff

open Fred.Transition

variable {B I σ V : Type} [DecidableEq I] {M : VMType B I σ}

namespace ObeysInterface

variable (N : ObeysInterface M)

/-! ## Between the calls of consensus -/

/-- A call that does not make the bridge lose track of the machine. -/
def Meets (b : HotstuffVMBridge B I σ) : BridgeCall → Prop
  | .act _ => True
  | .makeEmptyProposal _ => True
  | .getAndApplyNextProposal extra proposalHeight =>
    (b.vmInterface.getProposal M extra).1 ≠ none → proposalHeight = b.speculationMap.speculationHead
  | .applyBlock _ body => b.speculationMap.heightMap = [] →
    match M.tryVmParse body with
    | none => b.vmInterface.proposalBuffer.filterMap id = []
    | some _ => N.undelivered b.vmInterface = []
  | .notifyVmOfCommitment _ => ∀ entry ∈ b.speculationMap.heightMap.head?,
    ∀ blk ∈ N.undelivered b.vmInterface, some (M.nonemptyBlockId blk) ≠ entry.2

/-- **Bridge and machine are in step** after `k` commits of `decided` blocks. -/
structure Mirrors (k : ℕ) (decided : List B) (b : HotstuffVMBridge B I σ) : Prop where
  committed_eq : b.speculationMap.highestCommittedHeight = k
  tracks : ∃ owed recorded buffered, N.Tracks decided owed recorded buffered b.vmInterface ∧
    b.speculationMap.heightMap.filterMap Prod.snd = recorded.map M.nonemptyBlockId

/-- The block is submitted for execution, and nothing else is recorded. -/
structure Submitted (k : ℕ) (decided : List B) (blk : Option B) (b : HotstuffVMBridge B I σ) :
    Prop where
  committed_eq : b.speculationMap.highestCommittedHeight = k
  map_eq : b.speculationMap.heightMap = [(k + 1, M.getBlockId blk)]
  no_requests : b.vmInterface.additionalProposalRequests = 0
  tracks : ∃ owed, N.Tracks (decided ++ blk.toList) owed [] [] b.vmInterface ∧
    (blk ≠ none → owed = [])

/-- The block is applied: it is the first recorded, or it is submitted. -/
def Applied (k : ℕ) (decided : List B) (blk : Option B) (b : HotstuffVMBridge B I σ) : Prop :=
  (N.Mirrors k decided b ∧ ∃ rest, b.speculationMap.heightMap = (k + 1, M.getBlockId blk) :: rest) ∨
    N.Submitted k decided blk b

variable {N} {k : ℕ} {decided : List B} {b b' : HotstuffVMBridge B I σ}

theorem Mirrors.act (m : N.Mirrors k decided b) (a : BridgeAct) : N.Mirrors k decided (b.act M a) := by
  obtain ⟨hcommitted, owed, recorded, buffered, t, hmap⟩ := m
  cases a with
  | round =>
      obtain ⟨buffered', t', -⟩ := t.round
      exact ⟨hcommitted, [], recorded, buffered', t', hmap⟩
  | putVmInProposerMode =>
      exact ⟨hcommitted, owed, recorded, buffered, t.setProposer, hmap⟩
  | stopProposals =>
      exact ⟨hcommitted, owed, recorded, buffered, t.stopProposals, hmap⟩

theorem Submitted.act {blk : Option B} (m : N.Submitted k decided blk b) (a : BridgeAct) :
    N.Submitted k decided blk (b.act M a) := by
  obtain ⟨hcommitted, hmap, hrequests, owed, t, howed⟩ := m
  cases a with
  | round =>
      obtain ⟨buffered', t', hbuffered⟩ := t.round
      -- nothing is requested, so the thread does not speculate
      obtain rfl := hbuffered hrequests
      refine ⟨hcommitted, hmap, ?_, [], t', fun _ => rfl⟩
      have hround := (VMControlInterface.round_spec M b.vmInterface).2.2
      rw [hrequests] at hround
      exact hround
  | putVmInProposerMode =>
      exact ⟨hcommitted, hmap, hrequests, owed, t.setProposer, howed⟩
  | stopProposals =>
      exact ⟨hcommitted, hmap, hrequests, owed, t.stopProposals, howed⟩

theorem Applied.act {blk : Option B} (m : N.Applied k decided blk b) (a : BridgeAct) :
    N.Applied k decided blk (b.act M a) := by
  rcases m with ⟨m, hrest⟩ | m
  · exact Or.inl ⟨m.act a, hrest⟩
  · exact Or.inr (m.act a)

/-! ## Proposals -/

theorem Mirrors.makeEmptyProposal (m : N.Mirrors k decided b) (height : ℕ) :
    N.Mirrors k decided (b.makeEmptyProposal height).2 := by
  obtain ⟨hcommitted, owed, recorded, buffered, t, hmap⟩ := m
  refine ⟨?_, owed, recorded, buffered, t, ?_⟩
  · exact (b.speculationMap.highestCommittedHeight_addHeightPair height none).trans hcommitted
  · exact (b.speculationMap.filterMap_addHeightPair_none height).trans hmap

theorem Mirrors.getAndApplyNextProposal (m : N.Mirrors k decided b) {extra height : ℕ}
    (h : N.Meets b (.getAndApplyNextProposal extra height)) :
    N.Mirrors k decided (b.getAndApplyNextProposal M extra height).2 := by
  obtain ⟨hcommitted, owed, recorded, buffered, t, hmap⟩ := m
  obtain ⟨owed', buffered', t'⟩ := t.getProposal extra
  simp only [Meets] at h
  unfold HotstuffVMBridge.getAndApplyNextProposal
  cases hproposal : b.vmInterface.getProposal M extra with
  | mk proposal vmInterface =>
    rw [hproposal] at h t'
    cases proposal with
    | none =>
        -- an empty proposal leaves an entry that records no block
        rw [show recorded ++ (none : Option B).toList = recorded from List.append_nil _] at t'
        refine ⟨?_, owed', recorded, buffered', t', ?_⟩
        · exact (b.speculationMap.highestCommittedHeight_addHeightPair height none).trans hcommitted
        · exact (b.speculationMap.filterMap_addHeightPair_none height).trans hmap
    | some proposal =>
        have hhead : b.speculationMap.speculationHead = height := (h (by simp)).symm
        refine ⟨?_, owed', recorded ++ [proposal], buffered', t', ?_⟩
        · exact (b.speculationMap.highestCommittedHeight_addHeightPair height _).trans hcommitted
        · dsimp only
          rw [b.speculationMap.heightMap_addHeightPair, if_pos hhead, List.filterMap_append, hmap,
            List.map_append]
          rfl

/-! ## Commits -/

theorem Submitted.of_tracks {blk : Option B} {owed : List B} (hempty : b.speculationMap.heightMap = [])
    (hcommitted : b.speculationMap.highestCommittedHeight = k)
    (t : N.Tracks (decided ++ blk.toList) owed [] [] (b.vmInterface.submitBlockForExec blk))
    (howed : blk ≠ none → owed = []) :
    N.Submitted k decided blk (b.submitBlock M (k + 1) blk) := by
  refine ⟨?_, ?_, rfl, owed, t, howed⟩
  · exact (b.speculationMap.highestCommittedHeight_addHeightPair (k + 1) _).trans hcommitted
  · have hentry := b.speculationMap.heightMap_addHeightPair_empty hempty (M.getBlockId blk)
    rw [hcommitted] at hentry
    exact hentry

/-- **Step lemma for `apply_block`** of the next decided block. -/
theorem Mirrors.applyBlock (m : N.Mirrors k decided b) {body : List UInt8}
    (h : N.Meets b (.applyBlock (k + 1) body)) :
    N.Applied k decided (M.tryVmParse body) (b.applyBlock M (k + 1) body) := by
  obtain ⟨owed, recorded, buffered, t, hmap⟩ := m.tracks
  unfold HotstuffVMBridge.applyBlock
  dsimp only
  cases hentries : b.speculationMap.heightMap with
  | nil =>
      -- nothing is speculated: the block is handed to the thread
      have hrecorded : recorded = [] := by simpa [hentries] using hmap
      subst hrecorded
      have hmeets := h hentries
      refine Or.inr (.of_tracks hentries m.committed_eq
        (t.submitBlockForExec (M.tryVmParse body) ?_ ?_) ?_)
      · intro hnull
        rw [hnull] at hmeets
        exact t.buffer_eq.symm.trans hmeets
      all_goals
        intro hblock
        obtain ⟨blk, hblk⟩ := Option.ne_none_iff_exists'.mp hblock
        rw [hblk] at hmeets
        exact t.undelivered_eq.symm.trans hmeets
  | cons entry rest =>
      have hheight := b.speculationMap.front_height hentries
      rw [m.committed_eq] at hheight
      dsimp only
      -- the decided block is the one speculated next, or speculation is undone
      by_cases hid : M.getBlockId (M.tryVmParse body) = entry.2
      · rw [if_pos hid]
        refine Or.inl ⟨m, rest, ?_⟩
        rw [hentries, hid, ← hheight]
      · rw [if_neg hid]
        exact Or.inr (.of_tracks rfl m.committed_eq (t.finishWorkAndForceRewind (M.tryVmParse body))
          (fun _ => rfl))

/-- **Step lemma for `notify_vm_of_commitment`** on the block that was applied. -/
theorem Applied.notifyVmOfCommitment {blk : Option B} (m : N.Applied k decided blk b)
    (h : N.Meets b (.notifyVmOfCommitment (k + 1)))
    (hnotify : b.notifyVmOfCommitment (k + 1) = .ok b') :
    N.Mirrors (k + 1) (decided ++ blk.toList) b' := by
  obtain ⟨⟨committedBlockId, g⟩, hcommit, rfl⟩ := exists_of_map_ok hnotify
  obtain ⟨hentries, hcommitted⟩ := b.speculationMap.onCommitHotstuff_ok hcommit
  refine ⟨hcommitted, ?_⟩
  rcases m with ⟨⟨-, owed, recorded, buffered, t, hmap⟩, rest, hfront⟩ | m
  · -- the block was speculated: it is the first the map records
    obtain ⟨hid, hrest⟩ := List.cons.inj (hentries.symm.trans hfront)
    obtain rfl : committedBlockId = M.getBlockId blk := congrArg Prod.snd hid
    rw [hentries] at hmap
    cases blk with
    | none =>
        refine ⟨owed, recorded, buffered, ?_, hmap⟩
        rw [show decided ++ (none : Option B).toList = decided from List.append_nil _]
        exact t
    | some blk =>
        obtain ⟨blk', recorded', rfl, hid', hmap'⟩ : ∃ blk' recorded', recorded = blk' :: recorded' ∧
            M.nonemptyBlockId blk = M.nonemptyBlockId blk' ∧
            g.heightMap.filterMap Prod.snd = recorded'.map M.nonemptyBlockId := by
          cases recorded with
          | nil => cases hmap
          | cons blk' recorded' =>
              exact ⟨blk', recorded', rfl, (List.cons.inj hmap).1, (List.cons.inj hmap).2⟩
        obtain rfl := N.nonemptyBlockId_inj hid'
        refine ⟨owed ++ [blk], recorded', buffered, t.logCommitment ?_, hmap'⟩
        intro blk' hblk' heq
        rw [← t.undelivered_eq] at hblk'
        refine h (k + 1, some (M.nonemptyBlockId blk)) ?_ blk' hblk' (congrArg some heq)
        rw [hentries]
        rfl
  · -- the block was submitted: it is the only entry
    obtain ⟨-, hmap, -, owed, t, howed⟩ := m
    obtain ⟨hid, hrest⟩ := List.cons.inj (hentries.symm.trans hmap)
    obtain rfl : committedBlockId = M.getBlockId blk := congrArg Prod.snd hid
    refine ⟨owed, [], [], ?_, by rw [hrest]; rfl⟩
    cases blk with
    | none => exact t
    | some blk =>
        obtain rfl := howed (by simp)
        exact ⟨t.settled_eq, t.speculated_eq, fun id _ => rfl, fun _ => rfl, t.buffer_eq⟩

/-- Once the thread has worked off what it was handed, the machine has settled the decided blocks. -/
theorem Mirrors.settled_eq (m : N.Mirrors k decided b) :
    N.settled (b.vmInterface.waitForAsyncTask M).vmInstance = decided := by
  obtain ⟨-, owed, recorded, buffered, t, -⟩ := m
  obtain ⟨owed', buffered', t', howed⟩ := t.rounds (b.vmInterface.additionalProposalRequests + 1)
  obtain rfl := howed (Nat.succ_pos _)
  have hvalidated := (VMControlInterface.round_spec M
    (b.vmInterface.rounds M b.vmInterface.additionalProposalRequests)).1
  rw [← VMControlInterface.rounds_succ] at hvalidated
  have hsettled := t'.settled_eq
  rw [N.executed_of_validated hvalidated, List.append_nil] at hsettled
  exact hsettled

theorem Mirrors.initClean : N.Mirrors 0 [] (HotstuffVMBridge.initClean M) := by
  refine ⟨rfl, [], [], [], ⟨?_, N.speculated_initial, ?_, fun _ => rfl, rfl⟩, rfl⟩
  · exact (List.append_nil _).trans N.settled_initial
  · intro id hid
    cases hid

end ObeysInterface

/-! ## Runs -/

namespace Played

variable {v v' : Played B I σ}

/-- Every call so far meets the condition. -/
def Meets (N : ObeysInterface M) (v : Played B I σ) : Prop := ∀ e ∈ v.calls, N.Meets e.1 e.2

omit [DecidableEq I] in
theorem calls_others (M : VMType B I σ) (v : Played B I σ) :
    ∃ more, (others M v).calls = v.calls ++ more := by
  refine others_keeps (P := fun w => ∃ more, w.calls = v.calls ++ more) ?_
    fun _ => ⟨[], (List.append_nil _).symm⟩
  rintro w a ⟨more, hmore⟩
  refine ⟨more ++ [(w.bridge, .act a)], ?_⟩
  rw [← List.append_assoc, ← hmore]
  rfl

variable {N : ObeysInterface M}

theorem Meets.of_others (h : (others M v).Meets N) : v.Meets N := by
  obtain ⟨more, hmore⟩ := calls_others M v
  intro e he
  exact h e (hmore ▸ List.mem_append_left more he)

/-- A call that was played met the condition, and so did all before it. -/
theorem Meets.of_play {c : BridgeCall} (hplay : play M c v = .ok v') (h : v'.Meets N) :
    v.Meets N ∧ N.Meets v.bridge c ∧ v.bridge.call M c = .ok v'.bridge := by
  obtain ⟨b, hb, rfl⟩ := exists_of_map_ok hplay
  refine ⟨fun e he => h e (List.mem_append_left _ he), ?_, hb⟩
  exact h (v.bridge, c) (List.mem_append_right _ (List.mem_singleton.mpr rfl))

variable {schedule : List (List BridgeAct)} {waits : List ℕ}

/-- The call for a proposal, after other threads have done what the schedule says. -/
theorem getNextVmBlock_play {nonempty : Bool} {height : ℕ} {body : List UInt8}
    (h : getNextVmBlock M nonempty height v = .ok (body, v')) :
    ∃ c waits, (c = .makeEmptyProposal height ∨ ∃ extra, c = .getAndApplyNextProposal extra height) ∧
      play M c { others M v with waits := waits } = .ok v' := by
  unfold getNextVmBlock at h
  dsimp only at h
  cases nonempty with
  | false =>
      rw [if_neg Bool.false_ne_true] at h
      obtain ⟨w, hplay, heq⟩ := exists_of_map_ok h
      obtain rfl := congrArg Prod.snd heq
      exact ⟨_, (others M v).waits, Or.inl rfl, hplay⟩
  | true =>
      rw [if_pos rfl] at h
      obtain ⟨w, hplay, heq⟩ := exists_of_map_ok h
      obtain rfl := congrArg Prod.snd heq
      exact ⟨_, _, Or.inr ⟨_, rfl⟩, hplay⟩

/-- A proposal keeps bridge and machine in step. -/
theorem mirrors_getNextVmBlock {k height : ℕ} {decided : List B} {nonempty : Bool}
    {body : List UInt8} (hnext : getNextVmBlock M nonempty height v = .ok (body, v'))
    (h : v'.Meets N) :
    v.Meets N ∧ (N.Mirrors k decided v.bridge → N.Mirrors k decided v'.bridge) := by
  obtain ⟨c, waits, hc, hplay⟩ := getNextVmBlock_play hnext
  obtain ⟨hothers, hmeets, hcall⟩ := Meets.of_play hplay h
  refine ⟨Meets.of_others (M := M) hothers, fun m => ?_⟩
  have m' := others_induction (N := M) (fun b a m => m.act a) m
  rcases hc with rfl | ⟨extra, rfl⟩
  · rw [← Except.ok.inj hcall]
    exact m'.makeEmptyProposal height
  · rw [← Except.ok.inj hcall]
    exact m'.getAndApplyNextProposal hmeets

/-- **Run lemma**: handing over decided blocks keeps bridge and machine in step. -/
theorem mirrors_deliver {rest : List (List UInt8)} :
    ∀ {k : ℕ} {bodies : List (List UInt8)} {v v' : Played B I σ},
      (vmBridge M schedule waits).deliver k rest v = .ok v' → v'.Meets N →
      v.Meets N ∧ (N.Mirrors k (M.parsed bodies) v.bridge →
        N.Mirrors (k + rest.length) (M.parsed (bodies ++ rest)) v'.bridge) := by
  induction rest with
  | nil =>
      intro k bodies v v' hdeliver h
      obtain rfl := Except.ok.inj hdeliver
      exact ⟨h, fun m => by simpa using m⟩
  | cons body rest ih =>
      intro k bodies v v' hdeliver h
      unfold VmBridge.deliver at hdeliver
      split at hdeliver
      · cases hdeliver
      · rename_i v₁ happly
        split at hdeliver
        · cases hdeliver
        · rename_i v₂ hnotify
          obtain ⟨h₂, hrest⟩ := @ih _ (bodies ++ [body]) _ _ hdeliver h
          obtain ⟨h₁, hnotified, hcall₁⟩ := Meets.of_play (c := .notifyVmOfCommitment (k + 1))
            (v := others M v₁) hnotify h₂
          obtain ⟨h₀, happlied, hcall₀⟩ := Meets.of_play (c := .applyBlock (k + 1) body)
            (v := others M v) happly h₁.of_others
          refine ⟨h₀.of_others, fun m => ?_⟩
          -- what the other threads do comes before either call
          have m₀ := others_induction (N := M) (fun b a m => m.act a) m
          have m₁ := m₀.applyBlock happlied
          rw [show _ = v₁.bridge from Except.ok.inj hcall₀] at m₁
          have m₂ := others_induction (N := M) (fun b a m => m.act a) m₁
          have m₃ := m₂.notifyVmOfCommitment hnotified hcall₁
          rw [← M.parsed_concat] at m₃
          have m' := hrest m₃
          rw [List.append_assoc, List.singleton_append] at m'
          rw [List.length_cons, Nat.add_comm rest.length, ← Nat.add_assoc]
          exact m'

end Played

namespace Ledger

variable {N : ObeysInterface M} {schedule : List (List BridgeAct)} {waits : List ℕ}
  {s s' : Ledger (Played B I σ)}

/-- The blocks of the decided bodies that parse. -/
def parsedBlocks (M : VMType B I σ) (s : Ledger V) : List B := M.parsed (s.decided.map Prod.snd)

/-- **Step lemma**: a step whose calls meet the condition keeps bridge and machine in step. -/
theorem mirrors_step {i : LedgerInput} (hi : s.running i)
    (hstep : step (Played.vmBridge M schedule waits) i s = .ok s') (h : s'.vm.Meets N) :
    s.vm.Meets N ∧ (N.Mirrors s.decided.length (s.parsedBlocks M) s.vm.bridge →
      N.Mirrors s'.decided.length (s'.parsedBlocks M) s'.vm.bridge) := by
  cases i with
  | commit blocks qc =>
      obtain ⟨vm, hdeliver, rfl⟩ := exists_of_map_ok hstep
      obtain ⟨h₀, hm⟩ := @Played.mirrors_deliver _ _ _ _ _ _ _ _ _ _ (s.decided.map Prod.snd) _ _ hdeliver h
      refine ⟨h₀, fun m => ?_⟩
      simpa [parsedBlocks] using hm m
  | getNextVmBlock nonemptyProposal height =>
      obtain ⟨⟨body, vm⟩, hnext, rfl⟩ := exists_of_map_ok hstep
      exact Played.mirrors_getNextVmBlock hnext h
  | runVm =>
      obtain rfl := Except.ok.inj hstep
      exact ⟨h.of_others, Played.others_induction fun b a m => m.act a⟩
  | restart files => exact absurd rfl (hi files)

/-- **Run theorem**: over a run whose calls all meet the condition. -/
theorem mirrors_of_reach
    (h : Reach (step (Played.vmBridge M schedule waits)) running
      (start (Played.vmBridge M schedule waits)) s) (hcalls : s.vm.Meets N) :
    N.Mirrors s.decided.length (s.parsedBlocks M) s.vm.bridge :=
  h.invariant (I := fun s => s.vm.Meets N → N.Mirrors s.decided.length (s.parsedBlocks M) s.vm.bridge)
    (fun _ => ObeysInterface.Mirrors.initClean) (fun _ _ _ ih hi hstep hmeets =>
      (mirrors_step hi hstep hmeets).2 (ih (mirrors_step hi hstep hmeets).1)) hcalls

end Ledger

/-! ## Speculation is invisible -/

/-- The machine has settled exactly the decided blocks that parse, lowest first: the blocks of the
entries of the index, of which there is one for each height up to the executed block. The thread is
waited for, since it is told of a commitment some time after it. -/
def SettlesDecided (N : ObeysInterface M) (E : VmBridge (Played B I σ)) (s : Replica (Played B I σ)) :
    Prop :=
  ∃ decided : List DecidedBlock, s.decidedHashIndex.data = E.entries 0 decided ∧
    decided.length = s.heap.height s.bExec ∧
    N.settled (s.vm.bridge.vmInterface.waitForAsyncTask M).vmInstance =
      M.parsed (decided.map Prod.snd)

/-- **When speculation is invisible.** In every run all of whose calls on the bridge meet the condition,
the machine of the leader has settled the decided blocks. -/
theorem speculation_invisible {E : Setup (Played B I σ)} {N : ObeysInterface M}
    {schedule : List (List BridgeAct)} {waits : List ℕ} (hvm : E.vm = Played.vmBridge M schedule waits)
    {s : Replica (Played B I σ)} (h : Reach (step E) anyInput (start E) s) (hcalls : s.vm.Meets N) :
    SettlesDecided N E.vm s := by
  obtain ⟨decided, hreach, hlength, -⟩ := ledger_of_reach h
  refine ⟨decided, Ledger.indexed_of_reach (s := ⟨s.vm, s.decidedHashIndex, decided⟩) hreach,
    hlength, ?_⟩
  rw [hvm] at hreach
  exact (Ledger.mirrors_of_reach hreach hcalls).settled_eq

/-! ### A machine that proposes consecutive numbers -/

/-- A machine whose blocks are single bytes. It proposes 0, 1, .. and never the same number again. -/
structure NumberVM where
  settled : List UInt8
  speculated : List UInt8
  next : UInt8
  deriving DecidableEq, Repr

namespace NumberVM

def vmType : VMType UInt8 UInt8 NumberVM where
  parse := fun body => match body with
    | [n] => some n
    | _ => none
  toOpaque := fun n => [n]
  nonemptyBlockId := id
  serialize := Option.toList
  fresh := ⟨[], [], 0⟩
  initClean := id
  initFromDisk := fun _ _ vm => .ok vm
  propose := fun vm =>
    (some vm.next, { vm with speculated := vm.speculated ++ [vm.next], next := vm.next + 1 })
  execBlock := fun n vm => { vm with settled := vm.settled ++ [n], speculated := [] }
  execNull := .ok
  logCommitment := fun n vm => { vm with
    settled := vm.settled ++ (commitThrough id n vm.speculated).1
    speculated := (commitThrough id n vm.speculated).2 }
  rewindToLastCommit := fun vm => { vm with speculated := [] }

def obeysInterface : ObeysInterface vmType where
  settled := settled
  speculated := speculated
  nonemptyBlockId_inj := Function.injective_id
  settled_initial := rfl
  speculated_initial := rfl
  settled_propose := fun _ => rfl
  speculated_propose := fun _ => rfl
  settled_execBlock := fun _ _ => rfl
  speculated_execBlock := fun _ _ => rfl
  settled_rewind := fun _ => rfl
  speculated_rewind := fun _ => rfl
  settled_logCommitment := fun _ _ => rfl
  speculated_logCommitment := fun _ _ => rfl

/-- The blocks of decided bodies can be read off the index. -/
theorem parsed_eq_of_entries {E : VmBridge V}
    (hid : E.blockId = fun body => vmType.serialize (vmType.getBlockId (vmType.tryVmParse body)))
    (decided : List DecidedBlock) (k : ℕ) :
    (E.entries k decided).filterMap (fun e => e.vmBlockId.head?) =
      vmType.parsed (decided.map Prod.snd) := by
  induction decided generalizing k with
  | nil => rfl
  | cons b decided ih =>
      have ih' := ih (k + 1)
      unfold VMType.parsed at ih' ⊢
      rw [VmBridge.entries, List.map_cons, List.filterMap_cons, List.filterMap_cons, ih', hid]
      dsimp only
      cases vmType.tryVmParse b.2 <;> rfl

/-- A single replica, whose machine is put in proposer mode before anything else. -/
def setup : Setup (Played UInt8 UInt8 NumberVM) :=
  ⟨Instance.crypto, Instance.config 1, 0, 0, Played.vmBridge vmType [[.putVmInProposerMode]] []⟩

/-- One block of the machine on three empty ones, with a vote before the next proposal each time. -/
def waitingRun : List Input :=
  Instance.soloRounds 3 ++ [.doPropose, .event [], .event []] ++ Instance.soloRounds 3

/-- As `waitingRun`, but after the first block of the machine the leader does not wait: it proposes a
second block, then has the vote for the first and goes back to it, and proposes a third. -/
def pipelinedRun : List Input :=
  Instance.soloRounds 3 ++ [.doPropose, .event [], .doPropose, .event [], .doPropose] ++
    [.event [], .event [], .event []] ++ Instance.soloRounds 3 ++
    [.doPropose, .event [], .event []] ++ Instance.soloRounds 3

end NumberVM

instance [DecidableEq B] (N : ObeysInterface M) (b : HotstuffVMBridge B I σ) (c : BridgeCall) :
    Decidable (N.Meets b c) :=
  match c with
  | .act _ => inferInstanceAs (Decidable True)
  | .makeEmptyProposal _ => inferInstanceAs (Decidable True)
  | .getAndApplyNextProposal extra proposalHeight => inferInstanceAs (Decidable
      ((b.vmInterface.getProposal M extra).1 ≠ none →
        proposalHeight = b.speculationMap.speculationHead))
  | .applyBlock _ body =>
    match h : M.tryVmParse body with
    | none => decidable_of_iff (b.speculationMap.heightMap = [] →
        b.vmInterface.proposalBuffer.filterMap id = []) (by simp [ObeysInterface.Meets, h])
    | some _ => decidable_of_iff (b.speculationMap.heightMap = [] → N.undelivered b.vmInterface = [])
        (by simp [ObeysInterface.Meets, h])
  | .notifyVmOfCommitment _ => inferInstanceAs (Decidable
      (∀ entry ∈ b.speculationMap.heightMap.head?, ∀ blk ∈ N.undelivered b.vmInterface,
        some (M.nonemptyBlockId blk) ≠ entry.2))

instance [DecidableEq B] (N : ObeysInterface M) (v : Played B I σ) : Decidable (v.Meets N) :=
  inferInstanceAs (Decidable (∀ e ∈ v.calls, N.Meets e.1 e.2))

/-- A leader that waits for each vote has committed a block of its machine and settled it. -/
theorem speculation_invisible_waiting : ∃ s : Replica (Played UInt8 UInt8 NumberVM),
    s.appliedBlocks = [1, 2, 3, 4] ∧
      SettlesDecided NumberVM.obeysInterface NumberVM.setup.vm s := by
  have hrun : Instance.observe NumberVM.setup NumberVM.waitingRun (fun s =>
      (s.appliedBlocks, decide (s.vm.Meets NumberVM.obeysInterface))) = some ([1, 2, 3, 4], true) := by
    decide +kernel
  obtain ⟨s, hreach, hobs⟩ := Instance.exists_of_observe hrun
  obtain ⟨happlied, hmeets⟩ := Prod.mk.inj hobs
  exact ⟨s, happlied, speculation_invisible rfl hreach (of_decide_eq_true hmeets)⟩

/-- A leader that does not wait has settled a block that was never decided: the gadget has dropped the
block it proposed at a height for the second time, and the machine keeps it. -/
theorem speculation_visible : ¬ ∀ s : Replica (Played UInt8 UInt8 NumberVM),
    Reach (step NumberVM.setup) anyInput (start NumberVM.setup) s →
      SettlesDecided NumberVM.obeysInterface NumberVM.setup.vm s := by
  intro hall
  have hrun : Instance.observe NumberVM.setup NumberVM.pipelinedRun (fun s =>
      (s.decidedHashIndex.data.filterMap (fun e => e.vmBlockId.head?),
        (s.vm.bridge.vmInterface.waitForAsyncTask NumberVM.vmType).vmInstance.settled)) =
      some ([0, 1, 3], [0, 1, 2, 3]) := by
    decide +kernel
  obtain ⟨s, hreach, hobs⟩ := Instance.exists_of_observe hrun
  obtain ⟨hindex, hsettled⟩ := Prod.mk.inj hobs
  obtain ⟨decided, hentries, -, heq⟩ := hall s hreach
  rw [← NumberVM.parsed_eq_of_entries (E := NumberVM.setup.vm) rfl decided 0, ← hentries, hindex] at heq
  have hlists : ([0, 1, 2, 3] : List UInt8) = [0, 1, 3] := hsettled.symm.trans heq
  exact absurd hlists (by decide)

end Fred.Hotstuff
