/-
# Fred.Vm.Replication -- one log for all machines

Agreement is about hashes. A replica checks a body against its header before it links a block, so as long
as no two bodies in circulation have one hash, the decided blocks of correct replicas are the same, bodies
and all. There is one log, and what any of them has done to its application and its index is a run on a
beginning of it (`replicas_share_log`).

For the machines this means: those behind a `NonspeculativeVMBridge` are in the state the log leads to, and
those behind the `HotstuffVMBridge` of a replica that does not propose have executed what parses of the log
(`machines_follow_log`).
-/
import Fred.Hotstuff.Agreement
import Fred.Vm.DecidedBlocks
import Fred.Vm.Replay
import Mathlib.Data.Finset.Max

namespace Fred.Hotstuff

open Fred.Transition Replica

variable {V : Type} {N : System V} {w : World V} {Bs : Set (List UInt8)}

/-! ## Bodies in circulation -/

/-- The bodies a replica has in memory are in circulation. -/
def Replica.BodiesIn (Bs : Set (List UInt8)) (s : Replica V) : Prop :=
  ∀ p, p ≠ genesisPtr → p < s.heap.next → (s.heap.get p).flushedFromMemory = false →
    (s.heap.get p).wireBlock.body ∈ Bs

/-- An admissible step that leaves the replica with bodies in circulation. -/
structure World.Contained (N : System V) (Bs : Set (List UInt8)) (w : World V) (a : Action) : Prop where
  admissible : World.Admissible N w a
  bodies : ∀ s, Hotstuff.step (N.setup a.rid) a.input (w a.rid) = .ok s → s.BodiesIn Bs

/-- The decided block is one in circulation. -/
def System.Holds (N : System V) (Bs : Set (List UInt8)) (d : DecidedBlock) : Prop :=
  ∃ header ∈ N.blocks, N.crypto.hashHeader header = d.1 ∧ N.crypto.hashBody d.2 = header.bodyHash ∧
    d.2 ∈ Bs

/-- The hash of a block in circulation tells its body. -/
theorem System.Holds.eq (hBs : Set.InjOn N.crypto.hashBody Bs) {d d' : DecidedBlock}
    (hd : N.Holds Bs d) (hd' : N.Holds Bs d') (hhash : d.1 = d'.1) : d = d' := by
  obtain ⟨header, hheader, hd₁, hbody, hmem⟩ := hd
  obtain ⟨header', hheader', hd₁', hbody', hmem'⟩ := hd'
  obtain rfl : header = header' :=
    N.circulation.injOn hheader hheader' (by rw [hd₁, hd₁', hhash])
  exact Prod.ext hhash (hBs hmem hmem' (hbody.trans hbody'.symm))

/-- Where hashes are a beginning of other hashes, the blocks are a beginning of the other blocks. -/
theorem prefix_of_hashes (hBs : Set.InjOn N.crypto.hashBody Bs) :
    ∀ {ds ds' : List DecidedBlock}, (∀ d ∈ ds, N.Holds Bs d) → (∀ d ∈ ds', N.Holds Bs d) →
      ds.map Prod.fst <+: ds'.map Prod.fst → ds <+: ds'
  | [], _, _, _, _ => List.nil_prefix
  | d :: ds, [], _, _, h => by
      rw [List.map_cons, List.map_nil, List.prefix_nil] at h
      cases h
  | d :: ds, d' :: ds', hds, hds', h => by
      rw [List.map_cons, List.map_cons, List.cons_prefix_cons] at h
      obtain rfl : d = d' :=
        (hds d List.mem_cons_self).eq hBs (hds' d' List.mem_cons_self) h.1
      rw [List.prefix_cons_inj]
      exact prefix_of_hashes hBs (fun e he => hds e (List.mem_cons_of_mem _ he))
        (fun e he => hds' e (List.mem_cons_of_mem _ he)) h.2

/-! ## The ledger of a replica in a world -/

/-- What each replica does in a run of the world is a run of its own, on inputs of which holds what is known
of the actions. -/
theorem World.local_reach_of {P : World V → Action → Prop} {r : ReplicaID}
    {L : Replica V → Input → Prop} (hL : ∀ w a, P w a → a.rid = r → L (w r) a.input)
    (h : Reach (World.step N) P (World.start N) w) :
    Reach (Hotstuff.step (N.setup r)) L (Hotstuff.start (N.setup r)) (w r) := by
  refine h.invariant (I := fun w => Reach (Hotstuff.step (N.setup r)) L
    (Hotstuff.start (N.setup r)) (w r)) (Reach.refl _) ?_
  intro t u a ht ha hs
  obtain ⟨s, hstep, rfl⟩ := step_ok hs
  by_cases hr : a.rid = r
  · have hrun := ht.tail (hL t a ha hr) (hr ▸ hstep)
    rw [← hr, Function.update_self] at *
    exact hrun
  · rw [Function.update_of_ne (Ne.symm hr)]
    exact ht

/-- The decided blocks of a ledger are those of its index. -/
theorem Ledger.hashes_of_reach {E : VmBridge V} {G : Ledger V → LedgerInput → Prop} {l : Ledger V}
    (h : Reach (Ledger.step E) G (Ledger.start E) l) :
    l.index.data.map IndexEntry.hash = l.decided.map Prod.fst := by
  have hentries : ∀ (k : ℕ) (blocks : List DecidedBlock),
      (E.entries k blocks).map IndexEntry.hash = blocks.map Prod.fst := by
    intro k blocks
    induction blocks generalizing k with
    | nil => rfl
    | cons d blocks ih => rw [VmBridge.entries, List.map_cons, List.map_cons, ih]
  have hindexed : l.index.data = E.entries 0 l.decided := indexed_of_reach h
  rw [hindexed, hentries]

/-- **The ledger of a replica in a world**: its decided blocks are in circulation, and are the committed
ones. -/
theorem World.ledger_of_reach {P : World V → Action → Prop} {r : ReplicaID}
    {G : Ledger V → LedgerInput → Prop} (hP : ∀ w a, P w a → World.Contained N Bs w a)
    (hcommit : ∀ l blocks qc, G l (.commit blocks qc)) (hrun : ∀ l, G l .runVm)
    (hpropose : ∀ w a l nonempty height, P w a → a.rid = r → a.input.Proposes →
      G l (.getNextVmBlock nonempty height))
    (h : Reach (World.step N) P (World.start N) w) :
    ∃ decided, Reach (Ledger.step (N.vm r)) G (Ledger.start (N.vm r))
        ⟨(w r).vm, (w r).decidedHashIndex, decided⟩ ∧
      decided.map Prod.fst = (w r).committedHashes ∧ ∀ d ∈ decided, N.Holds Bs d := by
  -- what is known of the inputs of the replica
  let L : Replica V → Input → Prop := fun s i => RegularStep N.blocks (N.setup r) s i ∧
    (∀ s', Hotstuff.step (N.setup r) i s = .ok s' → s'.BodiesIn Bs) ∧
    ∀ l nonempty height, i.Proposes → G l (.getNextVmBlock nonempty height)
  have hlocal : Reach (Hotstuff.step (N.setup r)) L (Hotstuff.start (N.setup r)) (w r) := by
    refine World.local_reach_of ?_ h
    rintro w a ha rfl
    exact ⟨(hP w a ha).admissible.regular, (hP w a ha).bodies,
      fun l nonempty height => hpropose w a l nonempty height ha rfl⟩
  have hbodies : ∀ t, Reach (Hotstuff.step (N.setup r)) L (Hotstuff.start (N.setup r)) t →
      t.BodiesIn Bs := fun t ht =>
    ht.invariant (fun p hp hlt => absurd (Nat.lt_one_iff.mp hlt) hp) fun _ u _ _ hi hs => hi.2.1 u hs
  obtain ⟨decided, hledger, -, hall⟩ := ledger_of_run (Q := N.Holds Bs) hcommit hrun
    (fun _ _ l nonempty height hi => hi.2.2 l nonempty height) (fun t b d ht hset hb hd => by
      have W := (wellFormed_commitLog_of_reach ht).1
      have hlt := W.shape.lt_next_of_settled hset
      have R := regular_of_reach (ht.mono fun _ _ hi => hi.1)
      refine ⟨t.heap.header b, R.header_mem b hb hlt, ?_, ?_, ?_⟩
      · rw [hd.2, W.shape.hash_eq b hb hlt]
        rfl
      · rw [hd.2]
        exact (bodyLog_of_reach ht).body b hb hlt hd.1
      · rw [hd.2]
        exact hbodies t ht b hb hlt hd.1) hlocal
  refine ⟨decided, hledger, ?_, hall⟩
  obtain ⟨-, C⟩ := wellFormed_commitLog_of_reach hlocal
  have hindex : (w r).indexedHashes.map Prod.snd = (w r).committedHashes := by
    unfold committedHashes
    rw [C.indexed_eq, List.map_map, C.applied_eq]
    rfl
  rw [← Ledger.hashes_of_reach hledger, ← hindex]
  unfold indexedHashes
  rw [List.map_map]
  rfl

/-! ## One log -/

/-- Of lists that are beginnings of one another there is a longest. -/
theorem System.exists_log {α : Type*} {ds : ReplicaID → List α}
    (h : ∀ r r', N.Correct r → N.Correct r' → ds r <+: ds r' ∨ ds r' <+: ds r) :
    ∃ log, ∀ r, N.Correct r → ds r <+: log := by
  by_cases hnone : ∃ r, N.Correct r
  · obtain ⟨r₀, hr₀⟩ := hnone
    have hmem : ∀ r, r ∈ N.config.ids \ N.faulty ↔ N.Correct r := fun _ => Finset.mem_sdiff
    obtain ⟨r, hr, hlongest⟩ :=
      Finset.exists_max_image (N.config.ids \ N.faulty) (fun r => (ds r).length)
        ⟨r₀, (hmem r₀).mpr hr₀⟩
    refine ⟨ds r, fun r' hr' => ?_⟩
    rcases h r' r hr' ((hmem r).mp hr) with hle | hge
    · exact hle
    · rw [hge.eq_of_length_le (hlongest r' ((hmem r').mpr hr'))]
  · exact ⟨[], fun r hr => absurd ⟨r, hr⟩ hnone⟩

/-- The ledgers of correct replicas are on beginnings of one log, where `G` is what each of them does besides
committing. -/
theorem World.exists_ledgers {P : World V → Action → Prop}
    {G : ReplicaID → Ledger V → LedgerInput → Prop} (hBs : Set.InjOn N.crypto.hashBody Bs)
    (hP : ∀ w a, P w a → World.Contained N Bs w a)
    (hcommit : ∀ r l blocks qc, G r l (.commit blocks qc)) (hrun : ∀ r l, G r l .runVm)
    (hpropose : ∀ w a l nonempty height, P w a → a.input.Proposes →
      G a.rid l (.getNextVmBlock nonempty height))
    (h : Reach (World.step N) P (World.start N) w) :
    ∃ log : List DecidedBlock, ∀ r, N.Correct r → ∃ decided, decided <+: log ∧
      decided.map Prod.fst = (w r).committedHashes ∧
      Reach (Ledger.step (N.vm r)) (G r) (Ledger.start (N.vm r))
        ⟨(w r).vm, (w r).decidedHashIndex, decided⟩ := by
  have hledger : ∀ r, ∃ decided, Reach (Ledger.step (N.vm r)) (G r) (Ledger.start (N.vm r))
      ⟨(w r).vm, (w r).decidedHashIndex, decided⟩ ∧
      decided.map Prod.fst = (w r).committedHashes ∧ ∀ d ∈ decided, N.Holds Bs d := fun r =>
    World.ledger_of_reach hP (hcommit r) (hrun r)
      (fun w a l nonempty height ha hr hi => hr ▸ hpropose w a l nonempty height ha hi) h
  choose ds hds using hledger
  have hreach := h.mono fun w a ha => (hP w a ha).admissible
  have S := sane_of_reach hreach
  have hpath : ∀ r, (ds r).map Prod.fst = ((w r).heap.path (w r).bExec).reverse := fun r =>
    (hds r).2.1.trans (committedHashes_eq (World.local_reach hreach r))
  -- the hashes are comparable, and so are the blocks
  have hcomparable : ∀ r r', ds r <+: ds r' ∨ ds r' <+: ds r := by
    intro r r'
    have hcases : (w r).heap.path (w r).bExec <:+ (w r').heap.path (w r').bExec ∨
        (w r').heap.path (w r').bExec <:+ (w r).heap.path (w r).bExec := S.comparable_exec
    rcases hcases with hle | hge
    · left
      apply prefix_of_hashes hBs (hds r).2.2 (hds r').2.2
      rw [hpath, hpath, List.reverse_prefix]
      exact hle
    · right
      apply prefix_of_hashes hBs (hds r').2.2 (hds r).2.2
      rw [hpath, hpath, List.reverse_prefix]
      exact hge
  obtain ⟨log, hlog⟩ := N.exists_log fun r r' _ _ => hcomparable r r'
  exact ⟨log, fun r hr => ⟨ds r, hlog r hr, (hds r).2.1, (hds r).1⟩⟩

/-- **One log.** In every run of `3 * f + 1` replicas of which at most `f` are faulty, and in which no two
bodies in circulation have one hash, there is one log of decided blocks: what each correct replica has done
to its application and its index of decided blocks is a run on a beginning of that log, made of the blocks
that replica has committed. -/
theorem replicas_share_log (hBs : Set.InjOn N.crypto.hashBody Bs)
    (h : Reach (World.step N) (World.Contained N Bs) (World.start N) w) :
    ∃ log : List DecidedBlock, ∀ r, N.Correct r → ∃ decided, decided <+: log ∧
      decided.map Prod.fst = (w r).committedHashes ∧
      Reach (Ledger.step (N.vm r)) Ledger.running (Ledger.start (N.vm r))
        ⟨(w r).vm, (w r).decidedHashIndex, decided⟩ :=
  World.exists_ledgers (G := fun _ => Ledger.running) hBs (fun _ _ ha => ha)
    (by simp [Ledger.running]) (by simp [Ledger.running]) (by simp [Ledger.running]) h

/-! ## Machines -/

section
variable {B I σ : Type} {M : VMType B I σ}

/-- What a `NonspeculativeVMBridge` has its machine do for a list of bodies. -/
def VMType.execAll (M : VMType B I σ) (bodies : List (List UInt8)) (vm : σ) : Except String σ :=
  bodies.foldlM (fun vm body =>
    match M.tryVmParse body with
    | some blk => .ok (M.execBlock blk vm)
    | none => M.execNull vm) vm

theorem NonspeculativeVMBridge.deliver_execAll {bodies : List (List UInt8)} :
    ∀ {k : ℕ} {v v' : NonspeculativeVMBridge σ},
      (NonspeculativeVMBridge.vmBridge M).deliver k bodies v = .ok v' →
      M.execAll bodies v.vm = .ok v'.vm := by
  induction bodies with
  | nil =>
      intro k v v' h
      rw [← Except.ok.inj h]
      rfl
  | cons body bodies ih =>
      intro k v v' h
      simp only [VmBridge.deliver, vmBridge, applyBlock, notifyVmOfCommitment] at h
      unfold VMType.execAll
      rw [List.foldlM_cons]
      cases hbody : M.tryVmParse body with
      | some blk =>
          rw [hbody] at h
          exact ih h
      | none =>
          rw [hbody] at h
          cases hnull : M.execNull v.vm with
          | error what =>
              simp only [hnull] at h
              cases h
          | ok vm =>
              simp only [hnull] at h
              exact ih h

/-- The machine of a running `NonspeculativeHotstuffApp` has executed the decided blocks. -/
theorem Ledger.execAll_of_reach {l : Ledger (NonspeculativeVMBridge σ)}
    (h : Reach (Ledger.step (NonspeculativeVMBridge.vmBridge M)) Ledger.running
      (Ledger.start (NonspeculativeVMBridge.vmBridge M)) l) :
    M.execAll (l.decided.map Prod.snd) M.fresh = .ok l.vm.vm := by
  refine h.invariant (I := fun l => M.execAll (l.decided.map Prod.snd) M.fresh = .ok l.vm.vm) rfl ?_
  intro t u i ht hi hs
  cases i with
  | commit blocks qc =>
      obtain ⟨vm, hvm, rfl⟩ := exists_of_map_ok hs
      show M.execAll ((t.decided ++ blocks).map Prod.snd) M.fresh = _
      unfold VMType.execAll at ht ⊢
      rw [List.map_append, List.foldlM_append, ht]
      exact NonspeculativeVMBridge.deliver_execAll hvm
  | getNextVmBlock nonempty height =>
      obtain rfl := Except.ok.inj hs
      -- the buffer of proposals may be shorter, the machine is the same
      have hkept : (if nonempty then t.vm.getNextProposal height
          else (NonspeculativeVMBridge.makeEmptyProposal height, t.vm)).2.vm = t.vm.vm := by
        unfold NonspeculativeVMBridge.getNextProposal
        split_ifs
        · split <;> rfl
        · rfl
      exact ht.trans (congrArg Except.ok hkept.symm)
  | runVm =>
      obtain rfl := Except.ok.inj hs
      exact ht
  | restart files => exact absurd rfl (hi files)

/-- **The machines of `NonspeculativeHotstuffApp`s are replicas of one another.** There is one list of
bodies such that the machine of each correct replica is in the state that comes of executing, on a fresh
machine, as many of them as that replica has committed blocks. -/
theorem machines_agree {N : System (NonspeculativeVMBridge σ)} {w : World (NonspeculativeVMBridge σ)}
    (hvm : ∀ r, N.vm r = NonspeculativeVMBridge.vmBridge M)
    (hBs : Set.InjOn N.crypto.hashBody Bs)
    (h : Reach (World.step N) (World.Contained N Bs) (World.start N) w) :
    ∃ bodies : List (List UInt8), ∀ r, N.Correct r →
      M.execAll (bodies.take (w r).committedHashes.length) M.fresh = .ok (w r).vm.vm := by
  obtain ⟨log, hlog⟩ := World.exists_ledgers (G := fun _ => Ledger.running) hBs (fun _ _ ha => ha)
    (by simp [Ledger.running]) (by simp [Ledger.running]) (by simp [Ledger.running]) h
  refine ⟨log.map Prod.snd, fun r hr => ?_⟩
  obtain ⟨decided, hle, hhashes, hrun⟩ := hlog r hr
  rw [hvm r] at hrun
  have hexec := Ledger.execAll_of_reach hrun
  rw [← hhashes, List.length_map, ← List.map_take, ← List.prefix_iff_eq_take.mp hle]
  exact hexec

/-! ## Machines of replicas that do not propose -/

/-- The app is asked for no proposal and does not restart. -/
def Ledger.following (_ : Ledger V) (i : LedgerInput) : Prop :=
  (∀ files, i ≠ .restart files) ∧ ∀ nonempty height, i ≠ .getNextVmBlock nonempty height

variable [DecidableEq I]

/-- The bridge of a `HotstuffApp` that is asked for no proposal follows its decided blocks. -/
theorem Ledger.following_of_reach {schedule : List (List BridgeAct)} {waits : List ℕ}
    {l : Ledger (Played B I (σ × List (VmCall B I)))}
    (h : Reach (Ledger.step (Played.vmBridge M.recorded schedule waits)) Ledger.following
      (Ledger.start (Played.vmBridge M.recorded schedule waits)) l) :
    Following M l.decided.length (l.decided.map Prod.snd) l.vm.bridge := by
  refine (h.invariant (I := fun l => Following M l.decided.length (l.decided.map Prod.snd) l.vm.bridge ∧
    l.vm.bridge.speculationMap.heightMap = []) ?_ ?_).1
  · exact following_of_starts M (Or.inl ⟨rfl, rfl⟩)
  · rintro t u i ⟨F, hmap⟩ hi hs
    cases i with
    | commit blocks qc =>
        obtain ⟨vm, hvm, rfl⟩ := exists_of_map_ok hs
        obtain ⟨vm', hvm', F', hmap'⟩ :=
          Played.deliver_following schedule waits (blocks.map Prod.snd) F hmap
        obtain rfl : vm' = vm := Except.ok.inj (hvm'.symm.trans hvm)
        rw [List.length_map, ← List.map_append, ← List.length_append] at F'
        exact ⟨F', hmap'⟩
    | getNextVmBlock nonempty height => exact absurd rfl (hi.2 nonempty height)
    | runVm =>
        obtain rfl := Except.ok.inj hs
        exact Played.following_others F hmap
    | restart files => exact absurd rfl (hi.1 files)

/-- **The machine of a replica that does not propose executes the log.** There is one list of bodies such
that the machine behind the `HotstuffVMBridge` of each correct replica that does not propose has executed
nothing but the first of what parses of it, up to what the replica has committed, and has executed all of
that once its thread has worked off what it was handed. -/
theorem followers_execute_log {N : System (Played B I (σ × List (VmCall B I)))}
    {w : World (Played B I (σ × List (VmCall B I)))} {F : Set ReplicaID}
    (hvm : ∀ r, ∃ schedule waits, N.vm r = Played.vmBridge M.recorded schedule waits)
    (hBs : Set.InjOn N.crypto.hashBody Bs)
    (h : Reach (World.step N) (fun w a => World.Contained N Bs w a ∧ (a.rid ∈ F → ¬ a.input.Proposes))
      (World.start N) w) :
    ∃ bodies : List (List UInt8), ∀ r ∈ F, N.Correct r →
      let committed := bodies.take (w r).committedHashes.length
      (w r).vm.bridge.vmInterface.vmInstance.2.filterMap VmCall.executed <+:
        (M.parsed committed).map some ∧
      ExecutesParsed M committed (Played.machineCalls M (w r).vm) := by
  obtain ⟨log, hlog⟩ := World.exists_ledgers
    (G := fun r l i => Ledger.running l i ∧ (r ∈ F → Ledger.following l i)) hBs (fun _ _ ha => ha.1)
    (by simp [Ledger.running, Ledger.following]) (by simp [Ledger.running, Ledger.following])
    (fun w a l nonempty height ha hi => ⟨by simp [Ledger.running], fun hF => absurd hi (ha.2 hF)⟩) h
  refine ⟨log.map Prod.snd, fun r hF hr => ?_⟩
  obtain ⟨decided, hle, hhashes, hrun⟩ := hlog r hr
  obtain ⟨schedule, waits, hbridge⟩ := hvm r
  have hfollowing := hrun.mono fun _ _ hi => hi.2 hF
  rw [hbridge] at hfollowing
  have G := Ledger.following_of_reach hfollowing
  rw [← hhashes, List.length_map, ← List.map_take, ← List.prefix_iff_eq_take.mp hle]
  refine ⟨?_, G.executesParsed⟩
  rw [← G.executed_eq]
  exact List.prefix_append _ _

end

/-! ### Four replicas -/

namespace Instance

/-- A body that parses to the block 8. -/
def eightBody : List UInt8 := Opaque.encode [8]

/-- The blocks of the first five rounds of replica 1, with bodies that parse to 7 and 8 in turn: each
carries the votes of replicas 0, 1 and 2 on the block before. -/
def ledgerBlocks : List HotstuffBlockWire :=
  [blockOn 0#256 (certificate [] 0#256) sevenBody,
    blockOn 9#256 (certificate [0, 1, 2] 9#256) eightBody,
    blockOn 9010#256 (certificate [0, 1, 2] 9010#256) sevenBody,
    blockOn 9010009#256 (certificate [0, 1, 2] 9010009#256) eightBody,
    blockOn 9010009010#256 (certificate [0, 1, 2] 9010009010#256) sevenBody]

def ledgerHeaders : List HotstuffBlockHeader := ledgerBlocks.map HotstuffBlockWire.header

theorem circulation_ledgerHeaders : Circulation crypto {b | b ∈ ledgerHeaders} where
  injOn := by
    have h : ∀ b ∈ ledgerHeaders, ∀ b' ∈ ledgerHeaders,
        crypto.hashHeader b = crypto.hashHeader b' → b = b' := by
      decide +kernel
    exact fun b hb b' hb' => h b hb b' hb'
  ne_zero := by
    have h : ∀ b ∈ ledgerHeaders, crypto.hashHeader b ≠ 0#256 := by
      decide +kernel
    exact h
  qc_below := by
    -- every certificate is on the parent
    have h : ∀ b ∈ ledgerHeaders, b.qc.justify = b.parentHash := by
      decide +kernel
    intro b hb
    exact Relation.TransGen.single ⟨b, hb, rfl, (h b hb).symm⟩

/-- The bodies in circulation. -/
def ledgerBodies : Set (List UInt8) := {body | body ∈ [sevenBody, eightBody]}

theorem injOn_ledgerBodies : Set.InjOn crypto.hashBody ledgerBodies := by
  have h : ∀ b ∈ [sevenBody, eightBody], ∀ b' ∈ [sevenBody, eightBody],
      crypto.hashBody b = crypto.hashBody b' → b = b' := by
    decide
  exact fun b hb b' hb' => h b hb b' hb'

variable {V α : Type} {E : VmBridge V}

/-- Four replicas with the given bridge, of which replica 1 is faulty. -/
def ledgerSystem (E : VmBridge V) : System V where
  crypto := crypto
  infos := numberedReplicas 4
  config := config 4
  config_eq := fourSystem.config_eq
  secretKey := fun r => BitVec.ofNat 512 r
  vm := fun _ => E
  faults := 1
  replicas_eq := fourSystem.replicas_eq
  faulty := {1}
  faulty_le := fourSystem.faulty_le
  blocks := {b | b ∈ ledgerHeaders}
  circulation := circulation_ledgerHeaders

theorem correct_zero : (ledgerSystem E).Correct 0 :=
  ⟨show 0 ∈ (config 4).ids by decide, show 0 ∉ ({1} : Finset ReplicaID) by decide⟩

theorem correct_two : (ledgerSystem E).Correct 2 :=
  ⟨show 2 ∈ (config 4).ids by decide, show 2 ∉ ({1} : Finset ReplicaID) by decide⟩

/-- Blocks and bodies in memory are those in circulation. -/
def ledgerCheck (s : Replica V) : Bool :=
  (List.range s.heap.next).all fun p =>
    (p == genesisPtr || decide (s.heap.header p ∈ ledgerHeaders) &&
      decide ((s.heap.get p).wireBlock.body ∈ [sevenBody, eightBody])) &&
    decide (s.heap.height p < 2 ^ 32)

/-- Replica 0 or 2 acts, does not propose, is sent no forged signature and holds blocks in circulation. -/
def containedCheck (E : VmBridge V) (w : World V) (a : Action) : Bool :=
  (a.rid == 0 || a.rid == 2) && !decide a.input.Proposes && unforgedCheck w a.input &&
    match step ((ledgerSystem E).setup a.rid) a.input (w a.rid) with
    | .error _ => true
    | .ok s => ledgerCheck s

theorem contained_of_check (w : World V) (a : Action) (h : containedCheck E w a = true) :
    World.Contained (ledgerSystem E) ledgerBodies w a ∧ ¬ a.input.Proposes := by
  unfold containedCheck at h
  simp only [Bool.and_eq_true, Bool.or_eq_true, beq_iff_eq, Bool.not_eq_true',
    decide_eq_false_iff_not] at h
  obtain ⟨⟨⟨hrid, hi⟩, hunforged⟩, hstep⟩ := h
  have hcorrect : (ledgerSystem E).Correct a.rid := by
    rcases hrid with hrid | hrid
    · rw [hrid]
      exact correct_zero
    · rw [hrid]
      exact correct_two
  have hall : ∀ s, step ((ledgerSystem E).setup a.rid) a.input (w a.rid) = .ok s →
      ∀ p, p < s.heap.next → (p = genesisPtr ∨ s.heap.header p ∈ ledgerHeaders ∧
        (s.heap.get p).wireBlock.body ∈ [sevenBody, eightBody]) ∧ s.heap.height p < 2 ^ 32 := by
    intro s hs p hp
    rw [hs] at hstep
    have hone := List.all_eq_true.mp hstep p (List.mem_range.mpr hp)
    simpa only [Bool.and_eq_true, Bool.or_eq_true, beq_iff_eq, decide_eq_true_eq] using hone
  refine ⟨⟨⟨hcorrect, unforged_of_check rfl rfl rfl hunforged, fun s hs => ?_⟩, fun s hs => ?_⟩, hi⟩
  · exact ⟨fun p hp hlt => ((hall s hs p hlt).1.resolve_left hp).1, fun p hlt => (hall s hs p hlt).2⟩
  · exact fun p hp hlt _ => ((hall s hs p hlt).1.resolve_left hp).2

/-- Replica 0 handles five rounds of replica 1, and replica 2 the first four. -/
def ledgerActions : List Action :=
  ledgerBlocks.zipIdx.flatMap fun b =>
    (if b.2 = 4 then [0] else [0, 2]).flatMap fun rid => (deliver (b.2 + 1) b.1 1).map (Action.mk rid)

/-- What a replica shows after the run. -/
def ledgerRun (E : VmBridge V) (r : ReplicaID) (f : Replica V → α) : Option (List Hash × α) :=
  (runListIf (World.step (ledgerSystem E)) (containedCheck E) ledgerActions
    (World.start (ledgerSystem E))).map fun w => ((w r).committedHashes, f (w r))

/-- The run goes through; replica 0 has committed two blocks and replica 2 the first of them. -/
theorem exists_ledgerWorld {f : Replica V → α} {a b : α}
    (h₀ : ledgerRun E 0 f = some ([9#256, 9010#256], a)) (h₂ : ledgerRun E 2 f = some ([9#256], b)) :
    ∃ w : World V, Reach (World.step (ledgerSystem E))
      (fun w a => World.Contained (ledgerSystem E) ledgerBodies w a ∧ ¬ a.input.Proposes)
      (World.start (ledgerSystem E)) w ∧ (w 0).committedHashes = [9#256, 9010#256] ∧
      (w 2).committedHashes = [9#256] ∧ f (w 0) = a ∧ f (w 2) = b := by
  obtain ⟨w, hw, hobs₀⟩ := Option.map_eq_some_iff.mp h₀
  obtain ⟨w', hw', hobs₂⟩ := Option.map_eq_some_iff.mp h₂
  obtain rfl : w = w' := Option.some.inj (hw.symm.trans hw')
  obtain ⟨hcommitted₀, hf₀⟩ := Prod.mk.inj hobs₀
  obtain ⟨hcommitted₂, hf₂⟩ := Prod.mk.inj hobs₂
  exact ⟨w, Reach.of_runListIf contained_of_check hw, hcommitted₀, hcommitted₂, hf₀, hf₂⟩

end Instance

open Instance

/-- Two replicas of four that have committed two blocks and one: there is one log they are on. -/
theorem replicas_share_log_four : ∃ (w : World Unit) (log : List DecidedBlock),
    (w 0).committedHashes = [9#256, 9010#256] ∧ (w 2).committedHashes = [9#256] ∧
    (∃ decided, decided <+: log ∧ decided.map Prod.fst = [9#256, 9010#256]) ∧
    ∃ decided, decided <+: log ∧ decided.map Prod.fst = [9#256] := by
  obtain ⟨w, hreach, h₀, h₂, -⟩ := exists_ledgerWorld (E := idleVm) (f := fun _ => ()) (a := ())
    (b := ()) (by decide +kernel) (by decide +kernel)
  obtain ⟨log, hlog⟩ := replicas_share_log injOn_ledgerBodies (hreach.mono fun _ _ ha => ha.1)
  obtain ⟨decided₀, hle₀, hhashes₀, -⟩ := hlog 0 correct_zero
  obtain ⟨decided₂, hle₂, hhashes₂, -⟩ := hlog 2 correct_two
  exact ⟨w, log, h₀, h₂, ⟨decided₀, hle₀, hhashes₀.trans h₀⟩, decided₂, hle₂, hhashes₂.trans h₂⟩

/-- The machine of replica 0 has counted two blocks and that of replica 2 one, as a fresh machine does that
executes two bodies and the first of them. -/
theorem machines_agree_four : ∃ bodies : List (List UInt8),
    CountingVM.vmType.execAll (bodies.take 2) CountingVM.make = .ok ⟨2, 0⟩ ∧
    CountingVM.vmType.execAll (bodies.take 1) CountingVM.make = .ok ⟨1, 0⟩ := by
  obtain ⟨w, hreach, h₀, h₂, hvm₀, hvm₂⟩ := exists_ledgerWorld
    (E := NonspeculativeVMBridge.vmBridge CountingVM.vmType) (f := fun s => s.vm.vm) (a := ⟨2, 0⟩)
    (b := ⟨1, 0⟩) (by decide +kernel) (by decide +kernel)
  obtain ⟨bodies, hbodies⟩ := machines_agree (M := CountingVM.vmType) (fun _ => rfl)
    injOn_ledgerBodies (hreach.mono fun _ _ ha => ha.1)
  have hexec₀ := hbodies 0 correct_zero
  have hexec₂ := hbodies 2 correct_two
  rw [h₀, hvm₀] at hexec₀
  rw [h₂, hvm₂] at hexec₂
  exact ⟨bodies, hexec₀, hexec₂⟩

/-- Replicas 0 and 2 never propose; the machine of each is made to execute what it has committed. -/
theorem followers_execute_log_four : ∃ bodies : List (List UInt8),
    CountingVM.vmType.parsed (bodies.take 2) = [[7], [8]] ∧
    CountingVM.vmType.parsed (bodies.take 1) = [[7]] := by
  obtain ⟨w, hreach, h₀, h₂, hcalls₀, hcalls₂⟩ := exists_ledgerWorld
    (E := Played.vmBridge CountingVM.vmType.recorded [] [])
    (f := fun s => (Played.machineCalls CountingVM.vmType s.vm).filterMap VmCall.executed)
    (a := [some [7], some [8]]) (b := [some [7]]) (by decide +kernel) (by decide +kernel)
  obtain ⟨bodies, hbodies⟩ := followers_execute_log (F := {0, 2}) (fun _ => ⟨[], [], rfl⟩)
    injOn_ledgerBodies (hreach.mono fun _ _ ha => ⟨ha.1, fun _ => ha.2⟩)
  have hparsed : ∀ {bodies : List (List UInt8)} {blocks : List (List UInt8)},
      (CountingVM.vmType.parsed bodies).map some = blocks.map some →
        CountingVM.vmType.parsed bodies = blocks :=
    fun h => List.map_injective_iff.mpr (Option.some_injective _) h
  have hexec₀ := (hbodies 0 (Or.inl rfl) correct_zero).2.executed_eq.symm.trans hcalls₀
  have hexec₂ := (hbodies 2 (Or.inr rfl) correct_two).2.executed_eq.symm.trans hcalls₂
  rw [h₀] at hexec₀
  rw [h₂] at hexec₂
  exact ⟨bodies, hparsed hexec₀, hparsed hexec₂⟩

end Fred.Hotstuff
