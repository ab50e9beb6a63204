/-
# Fred.Hotstuff.Recovery -- starting again from the data directory

`load_decided_block`, `reload_decided_blocks`, `reload_state_from_index` and `init_from_disk`. The
index is replayed through `insert_block` in ascending order of height, so a block can be loaded only
when its parent and the block its certificate is on are loaded already. Since the objects are made in
that order, the block of height `h` becomes object `h` (`Loaded`).
-/
import Fred.Hotstuff.Lock

namespace Fred.Hotstuff

open Fred.Forest Fred.Transition Replica

variable {V : Type} {E : Setup V} {s t t' : Replica V} {k : ℕ} {p : BlockPtr}

/-! ## The code -/

/-- What a crash leaves of a replica. -/
def Replica.disk (s : Replica V) : Disk := ⟨s.files, s.decidedHashIndex⟩

def loadDecidedBlock (E : Setup V) (hash : Hash) (files : Hash → Option HotstuffBlockWire) :
    Except Exn HotstuffBlock :=
  match files hash with
  | none => .error (.runtimeError "failed to load an expected block!")
  | some wire => .ok (HotstuffBlock.loadedBlock E.crypto wire)

/-- One round of the loop of `reload_decided_blocks`, which also returns the block's height. -/
def reloadBlock (E : Setup V) (hash : Hash) (s : Replica V) : Except Exn (ℕ × Replica V) :=
  match loadDecidedBlock E hash s.files with
  | .error e => .error e
  | .ok blk =>
    match s.blockStore.insertBlock (s.heap.alloc blk) s.heap.next with
    | (store, heap, missing) =>
      if missing.any then
        .error (.runtimeError "unable to properly load data into block store")
      else .ok (heap.height s.heap.next, { s with heap := heap, blockStore := store })

/-- The loop over a forward cursor; the number is `highest_decision`. -/
def reloadLoop (E : Setup V) : List IndexEntry → ℕ × Replica V → Except Exn (ℕ × Replica V)
  | [], r => .ok r
  | e :: es, r =>
    match reloadBlock E e.hash r.2 with
    | .error e => .error e
    | .ok r => reloadLoop E es r

def findBlockByHash (hash : Hash) (s : Replica V) : Except Exn BlockPtr :=
  match s.blockStore.getBlock hash with
  | none => .error (.runtimeError "Failed to find block during initialization")
  | some p => .ok p

def reloadStateFromIndex (s : Replica V) : Except Exn (Replica V) :=
  match s.decidedHashIndex.getHighestQc with
  | .error e => .error e
  | .ok qc =>
    match findBlockByHash qc.justify s with
    | .error e => .error e
    | .ok b =>
      let s := updateHqc b (.ofWire qc) s
      .ok { s with vheight := BitVec.ofNat 32 (s.heap.height b), bExec := b, bLock := b }

def reloadDecidedBlocks (E : Setup V) (s : Replica V) : Except Exn (ℕ × Replica V) :=
  match reloadLoop E s.decidedHashIndex.data (0, s) with
  | .error e => .error e
  | .ok (highest, s) =>
    match reloadStateFromIndex s with
    | .error e => .error e
    | .ok s => .ok (highest, s)

/-- The constructor of the app, then `init_from_disk`. The machine is set up last, and nothing looks
at it before that. -/
def initFromDisk (E : Setup V) (disk : Disk) : Except Exn (Replica V) :=
  match disk.index.openDb with
  | .error e => .error e
  | .ok index =>
    match reloadDecidedBlocks E (Replica.make disk.files index E.vm.initClean) with
    | .error e => .error e
    | .ok (highest, s) =>
      match E.vm.initFromDisk index disk.files highest with
      | .error what => .error (.vm what)
      | .ok vm => .ok { s with vm := vm }

/-! ## Reloading the decided blocks -/

/-- The decided blocks of `s` up to height `k` are loaded into `t`: the block of height `h` is
object `h`, and nothing else is stored. -/
structure Loaded (E : Setup V) (s : Replica V) (k : ℕ) (t : Replica V) : Prop where
  shape : Shape E.crypto t.heap t.blockStore.blockCache
  next_eq : t.heap.next = k + 1
  files_eq : t.files = s.files
  index_eq : t.decidedHashIndex = s.decidedHashIndex
  hqc_eq : t.hqc.1 = genesisPtr
  find : ∀ p, Descends s.heap.parent s.bExec p → s.heap.height p ≤ k →
    t.blockStore.blockCache (s.heap.hash p) = some (s.heap.height p)
  found : ∀ x q, t.blockStore.blockCache x = some q →
    ∃ p, Descends s.heap.parent s.bExec p ∧ s.heap.height p ≤ k ∧ s.heap.hash p = x
  height_eq : ∀ n, n ≤ k → t.heap.height n = n

/-- What `init_from_disk` needs to load a decided block: its file, and that the block its certificate
is on is decided as well (genesis is). -/
structure Reloadable (s : Replica V) (p : BlockPtr) : Prop where
  file : ∃ w, s.files (s.heap.hash p) = some w
  justify : ∀ j, s.heap.justify p = some j → Descends s.heap.parent s.bExec j

theorem loaded_start (W : WellFormed E s) (vm : V) :
    Loaded E s 0 (Replica.make s.files s.decidedHashIndex vm) where
  shape := Shape.init E.crypto
  next_eq := rfl
  files_eq := rfl
  index_eq := rfl
  hqc_eq := rfl
  find := by
    intro p hd hle
    obtain rfl : p = genesisPtr := by
      by_contra hne
      have := W.shape.height_pos (W.shape.settled_descends W.exec_settled hd) hne
      omega
    rw [W.shape.hash_genesis, W.shape.height_genesis]
    rfl
  found := by
    intro x q hq
    obtain ⟨hx, -⟩ := (Shape.init E.crypto).cached hq
    refine ⟨genesisPtr, W.shape.descends_genesis W.exec_settled, W.shape.height_genesis.le, ?_⟩
    rw [W.shape.hash_genesis, ← hx]
    by_cases hx0 : x = 0#256
    · rw [hx]
      exact hx0.symm
    · exact absurd hq (by simp [Replica.make, BlockStore.init, hx0])
  height_eq := by
    intro n hn
    obtain rfl : n = 0 := Nat.le_zero.mp hn
    rfl

/-- The block a decided block's certificate is on, if decided itself, is lower. -/
theorem justify_below (W : WellFormed E s) {j : BlockPtr} (hp : Descends s.heap.parent s.bExec p)
    (hj : s.heap.justify p = some j) (hdj : Descends s.heap.parent s.bExec j) :
    s.heap.height j < s.heap.height p := by
  have hno := W.shape.justify_not_below hj
  by_contra hle
  exact hno (W.forest.descends_of_height_le hdj hp (Nat.not_lt.mp hle))

/-- The block after the loaded ones is not genesis. -/
theorem ne_genesisPtr_of_height (W : WellFormed E s) (hk : s.heap.height p = k + 1) :
    p ≠ genesisPtr := by
  rintro rfl
  rw [W.shape.height_genesis] at hk
  omega

theorem header_alloc_loaded {w : HotstuffBlockWire} (hheader : w.header = s.heap.header p) (h : Heap) :
    (h.alloc (HotstuffBlock.loadedBlock E.crypto w)).header h.next = s.heap.header p := by
  have hget : ((h.alloc (HotstuffBlock.loadedBlock E.crypto w)).get h.next).wireBlock.header =
      w.header := by
    rw [Heap.get_alloc_next]
    rfl
  exact hget.trans hheader

/-- The block loaded from the file of `p` has the hash of `p`. -/
theorem Loaded.hash_alloc (T : Loaded E s k t) (W : WellFormed E s)
    (hp : Descends s.heap.parent s.bExec p) (hne : p ≠ genesisPtr) {w : HotstuffBlockWire}
    (hheader : w.header = s.heap.header p) :
    (t.heap.alloc (HotstuffBlock.loadedBlock E.crypto w)).hash t.heap.next = s.heap.hash p := by
  have hset := W.shape.settled_descends W.exec_settled hp
  rw [(T.shape.alloc (HotstuffBlock.isNew_loadedBlock _ w)).hash_eq _ (Nat.ne_of_gt T.shape.next_pos)
    (Nat.lt_succ_self _), header_alloc_loaded hheader,
    W.shape.hash_eq p hne (W.shape.lt_next_of_settled hset)]

theorem Loaded.parent_cached (T : Loaded E s k t) (W : WellFormed E s)
    (hp : Descends s.heap.parent s.bExec p) (hk : s.heap.height p = k + 1) :
    t.blockStore.blockCache (s.heap.header p).parentHash = some k := by
  have hset := W.shape.settled_descends W.exec_settled hp
  obtain ⟨q, hq⟩ := hset.resolve_left (ne_genesisPtr_of_height W hk)
  have hqheight : s.heap.height q = k := by
    have := W.shape.height_parent hq
    omega
  rw [← W.shape.hash_parent hq, T.find q (hp.trans (Descends.single hq)) hqheight.le, hqheight]

theorem Loaded.justify_cached (T : Loaded E s k t) (W : WellFormed E s)
    (hp : Descends s.heap.parent s.bExec p) (hk : s.heap.height p = k + 1) {j : BlockPtr}
    (hj : s.heap.justify p = some j) (hdj : Descends s.heap.parent s.bExec j) :
    t.blockStore.blockCache (s.heap.header p).qc.justify = some (s.heap.height j) := by
  have hjle : s.heap.height j ≤ k := by
    have := justify_below W hp hj hdj
    omega
  rw [← W.shape.hash_justify hj]
  exact T.find j hdj hjle

/-- No other decided block has the hash of the next one, so it is not stored yet. -/
theorem Loaded.fresh (T : Loaded E s k t) (W : WellFormed E s)
    (hp : Descends s.heap.parent s.bExec p) (hk : s.heap.height p = k + 1) :
    t.blockStore.blockCache (s.heap.hash p) = none := by
  rcases hc : t.blockStore.blockCache (s.heap.hash p) with _ | r
  · rfl
  · obtain ⟨x, hx, hxk, hxhash⟩ := T.found _ _ hc
    have hxp : x = p := Shape.eq_of_stored (W.shape.stored_descends W.exec_stored hx)
      (W.shape.stored_descends W.exec_stored hp) hxhash
    rw [hxp] at hxk
    omega

theorem Loaded.height_link (T : Loaded E s k t) {b : HotstuffBlock} (hnew : b.IsNew E.crypto)
    (j : BlockPtr) : ((t.heap.alloc b).link t.heap.next k j).height t.heap.next = k + 1 := by
  rw [Heap.height_link_self, T.shape.height_alloc hnew, T.height_eq k le_rfl]

theorem Loaded.height_link_of_le (T : Loaded E s k t) {b : HotstuffBlock} (hnew : b.IsNew E.crypto)
    (j : BlockPtr) {n : ℕ} (hn : n ≤ k) : ((t.heap.alloc b).link t.heap.next k j).height n = n := by
  have hne : n ≠ t.heap.next := by
    rw [T.next_eq]
    omega
  rw [Heap.height_link_of_ne _ k j hne, T.shape.height_alloc hnew]
  exact T.height_eq n hn

/-- The replica after a round that inserted `b` under object `k`, with its certificate on `j`. -/
theorem Loaded.link (T : Loaded E s k t) (W : WellFormed E s)
    (hp : Descends s.heap.parent s.bExec p) (hk : s.heap.height p = k + 1) {b : HotstuffBlock}
    (hnew : b.IsNew E.crypto) (hheader : (t.heap.alloc b).header t.heap.next = s.heap.header p)
    (hhash : (t.heap.alloc b).hash t.heap.next = s.heap.hash p) {j : BlockPtr}
    (hj : t.blockStore.blockCache (s.heap.header p).qc.justify = some j) :
    Loaded E s (k + 1) { t with
      heap := (t.heap.alloc b).link t.heap.next k j
      blockStore := (t.blockStore.emplace ((t.heap.alloc b).hash t.heap.next)
        t.heap.next).addBlock t.heap.next } where
  shape := (T.shape.alloc hnew).link (Nat.ne_of_gt T.shape.next_pos) (Nat.lt_succ_self _)
    (hheader.symm ▸ T.parent_cached W hp hk) (hheader.symm ▸ hj)
  next_eq := by
    show t.heap.next + 1 = k + 1 + 1
    rw [T.next_eq]
  files_eq := T.files_eq
  index_eq := T.index_eq
  hqc_eq := T.hqc_eq
  find := by
    intro x hx hxk
    show (t.blockStore.emplace _ _).blockCache _ = _
    by_cases hxp : x = p
    · subst hxp
      rw [hhash, hk]
      unfold BlockStore.emplace
      simp [T.fresh W hp hk, T.next_eq]
    · -- heights are unique on the executed branch, so `x` was loaded before
      have hxle : s.heap.height x ≤ k := by
        by_contra hgt
        exact hxp (W.forest.eq_of_height_eq hx hp (by omega))
      exact BlockStore.blockCache_emplace_of_some (T.find x hx hxle)
  found := by
    intro x r hr
    rcases BlockStore.blockCache_emplace_cases hr with hold | ⟨rfl, -, -⟩
    · obtain ⟨y, hy, hyk, hyx⟩ := T.found x r hold
      exact ⟨y, hy, hyk.trans (Nat.le_succ k), hyx⟩
    · exact ⟨p, hp, hk.le, hhash.symm⟩
  height_eq := by
    intro n hn
    show ((t.heap.alloc b).link t.heap.next k j).height n = n
    rcases Nat.le_succ_iff.mp hn with hle | rfl
    · exact T.height_link_of_le hnew j hle
    · have := T.height_link hnew j
      rwa [T.next_eq] at this ⊢

/-- **One round of the loop.** The block of the next height is loaded if it is reloadable, and the
loop throws if not. -/
theorem reloadBlock_spec (W : WellFormed E s) (T : Loaded E s k t)
    (hp : Descends s.heap.parent s.bExec p) (hk : s.heap.height p = k + 1)
    (hfile : ∀ w, s.files (s.heap.hash p) = some w → w.header = s.heap.header p) :
    (Reloadable s p ∧ ∃ t', reloadBlock E (s.heap.hash p) t = .ok (k + 1, t') ∧
      Loaded E s (k + 1) t') ∨
    (¬ Reloadable s p ∧ ∃ e, reloadBlock E (s.heap.hash p) t = .error e) := by
  unfold reloadBlock loadDecidedBlock
  have hfiles := congrFun T.files_eq (s.heap.hash p)
  rcases hw : s.files (s.heap.hash p) with _ | w
  · rw [hfiles.trans hw]
    refine Or.inr ⟨fun h => ?_, _, rfl⟩
    obtain ⟨w, hfw⟩ := h.file
    rw [hw] at hfw
    cases hfw
  rw [hfiles.trans hw]
  have hne := ne_genesisPtr_of_height W hk
  have hheader := header_alloc_loaded (E := E) (hfile w hw) t.heap
  have hhash := T.hash_alloc W hp hne (hfile w hw)
  have hnew : (HotstuffBlock.loadedBlock E.crypto w).IsNew E.crypto :=
    HotstuffBlock.isNew_loadedBlock _ _
  generalize hb : HotstuffBlock.loadedBlock E.crypto w = b at hheader hhash hnew
  have S := T.shape.alloc hnew
  have hn0 : t.heap.next ≠ genesisPtr := Nat.ne_of_gt T.shape.next_pos
  have hlt : t.heap.next < (t.heap.alloc b).next := Nat.lt_succ_self _
  obtain ⟨q, hq⟩ := (W.shape.settled_descends W.exec_settled hp).resolve_left hne
  obtain ⟨j, hj, -⟩ := W.shape.justify_cached hq
  by_cases hdj : Descends s.heap.parent s.bExec j
  · -- the certified block is loaded: the block is linked and stored
    have hjcached := T.justify_cached W hp hk hj hdj
    have hins := insertBlock_of_cached S hn0 hlt (hheader.symm ▸ T.parent_cached W hp hk)
      (hheader.symm ▸ hjcached)
    refine Or.inl ⟨⟨⟨w, hw⟩, fun i hi => ?_⟩, _, ?_, T.link W hp hk hnew hheader hhash hjcached⟩
    · rw [hj] at hi
      rwa [← Option.some.inj hi]
    · dsimp only
      rw [hb, hins]
      simp only [BlockStore.MissingDependencies.any, Option.isSome_none, Bool.or_self,
        Bool.false_eq_true, if_false, T.height_link hnew]
  · -- the certified block is not loaded: the insertion names it as missing
    refine Or.inr ⟨fun h => hdj (h.justify j hj), ?_⟩
    dsimp only
    rw [hb]
    rcases insertBlock_cases S hn0 hlt with ⟨m, hany, hins⟩ | ⟨q', j', -, hj', -⟩
    · rw [hins]
      exact ⟨_, if_pos hany⟩
    · rw [hheader] at hj'
      obtain ⟨x, hx, -, hxhash⟩ := T.found _ _ hj'
      have hxj : x = j := Shape.eq_of_stored (W.shape.stored_descends W.exec_stored hx)
        (W.shape.stored_justify hj) (hxhash.trans (W.shape.hash_justify hj).symm)
      exact absurd (hxj ▸ hx) hdj

/-- The block at position `k` of the executed chain has height `k + 1`. -/
theorem drop_executedChain (W : WellFormed E s) {rest : List BlockPtr}
    (h : s.executedChain.drop k = p :: rest) : Descends s.heap.parent s.bExec p ∧
      s.heap.height p = k + 1 ∧ s.executedChain.drop (k + 1) = rest ∧
        k + 1 ≤ s.heap.height s.bExec := by
  have hmem : p ∈ s.executedChain := List.mem_of_mem_drop (h ▸ List.mem_cons_self)
  have hheights := congrArg (List.drop k) (heights_executedChain W)
  rw [← List.map_drop, h, List.drop_range', List.map_cons, eq_comm, List.range'_eq_cons_iff]
    at hheights
  obtain ⟨hhead, hpos, -⟩ := hheights
  refine ⟨((mem_executedChain W).mp hmem).1, by omega, ?_, by omega⟩
  rw [← List.tail_drop, h]
  rfl

/-- **The loop** loads the decided blocks if all of them are reloadable, and throws if not. -/
theorem reloadLoop_spec (W : WellFormed E s)
    (hfile : ∀ p ∈ s.executedChain, ∀ w, s.files (s.heap.hash p) = some w →
      w.header = s.heap.header p) {es : List IndexEntry} :
    ∀ {k : ℕ} {t : Replica V}, Loaded E s k t → k ≤ s.heap.height s.bExec →
      es.map IndexEntry.hash = (s.executedChain.drop k).map s.heap.hash →
      ((∀ p ∈ s.executedChain.drop k, Reloadable s p) ∧ ∃ t',
        reloadLoop E es (k, t) = .ok (s.heap.height s.bExec, t') ∧
          Loaded E s (s.heap.height s.bExec) t') ∨
      ((∃ p ∈ s.executedChain.drop k, ¬ Reloadable s p) ∧
        ∃ e, reloadLoop E es (k, t) = .error e) := by
  have hlen : s.executedChain.length = s.heap.height s.bExec := by
    have := congrArg List.length (heights_executedChain W)
    simpa using this
  induction es with
  | nil =>
      intro k t T hk hes
      have hnil : s.executedChain.drop k = [] := List.map_eq_nil_iff.mp hes.symm
      have hke : k = s.heap.height s.bExec := by
        have := List.drop_eq_nil_iff.mp hnil
        omega
      subst hke
      exact Or.inl ⟨by simp [hnil], t, rfl, T⟩
  | cons e es ih =>
      intro k t T hk hes
      rcases hdrop : s.executedChain.drop k with _ | ⟨p, rest⟩
      · rw [hdrop] at hes
        cases hes
      · rw [hdrop, List.map_cons, List.map_cons] at hes
        obtain ⟨hhash, hrest⟩ := List.cons.inj hes
        obtain ⟨hp, hheight, hnext, hle⟩ := drop_executedChain W hdrop
        have hmem : p ∈ s.executedChain := List.mem_of_mem_drop (hdrop ▸ List.mem_cons_self)
        unfold reloadLoop
        dsimp only
        rw [hhash]
        rcases reloadBlock_spec W T hp hheight (hfile p hmem) with ⟨hre, t₁, hok, T₁⟩ | ⟨hno, e', he⟩
        · rw [hok]
          dsimp only
          rcases ih T₁ hle (hnext.symm ▸ hrest) with ⟨hall, h⟩ | ⟨hbad, h⟩
          · rw [hnext] at hall
            refine Or.inl ⟨fun x hx => ?_, h⟩
            rcases List.mem_cons.mp hx with rfl | hx
            · exact hre
            · exact hall x hx
          · rw [hnext] at hbad
            obtain ⟨x, hx, hbad⟩ := hbad
            exact Or.inr ⟨⟨x, List.mem_cons_of_mem _ hx, hbad⟩, h⟩
        · rw [he]
          exact Or.inr ⟨⟨p, List.mem_cons_self, hno⟩, e', rfl⟩

/-! ## The state after `init_from_disk` -/

/-- What a recovery that returns has rebuilt: `b_exec`, `b_lock` and the voting height are those of the
last committed block, and the decided blocks are stored where they were. -/
structure Recovered (s t : Replica V) : Prop where
  hash_bExec : t.heap.hash t.bExec = s.heap.hash s.bExec
  height_bExec : t.heap.height t.bExec = s.heap.height s.bExec
  bLock_eq : t.bLock = t.bExec
  vheight_eq : t.vheight = BitVec.ofNat 32 (s.heap.height s.bExec)
  decided : ∀ p, Descends s.heap.parent s.bExec p → ∃ q,
    t.blockStore.blockCache (s.heap.hash p) = some q ∧ t.heap.height q = s.heap.height p

theorem file_header (W : WellFormed E s) (L : SaveLog s) {w : HotstuffBlockWire}
    (hp : p ∈ s.executedChain) (hw : s.files (s.heap.hash p) = some w) :
    w.header = s.heap.header p := by
  obtain ⟨hd, hne⟩ := (mem_executedChain W).mp hp
  have hstored := W.shape.stored_descends W.exec_stored hd
  have hset := W.shape.settled_of_stored hstored
  obtain ⟨w', hmem⟩ := L.of_file _ _ hw
  have hwritten := (savedToDisk_iff W L hstored hne).mp ⟨w', hmem⟩
  obtain ⟨w'', -, hfile, hheader⟩ := L.saved p hset hne hwritten
  rw [hw] at hfile
  rw [Option.some.inj hfile]
  exact hheader

/-- The index of a running replica can be opened. -/
theorem IndexLog.openDb_eq (I : IndexLog s) : s.decidedHashIndex.openDb = .ok s.decidedHashIndex := by
  obtain ⟨n, hn⟩ := Option.isSome_iff_exists.mp I.created
  simp [HotstuffLMDB.openDb, hn]

/-- The index lists the hashes of the executed chain. -/
theorem IndexLog.hashes_eq (I : IndexLog s) : s.decidedHashIndex.data.map IndexEntry.hash =
    (s.executedChain.drop 0).map s.heap.hash := by
  have h := congrArg (List.map Prod.snd) I.indexed_eq
  unfold indexedHashes at h
  rw [List.map_map, List.map_map] at h
  exact h

/-- What `reload_state_from_index` does once the blocks of the index are loaded. -/
theorem Loaded.reloadStateFromIndex (I : IndexLog s) {files : Hash → Option HotstuffBlockWire}
    (T : Loaded E { s with files := files } (s.heap.height s.bExec) t) :
    (s.bExec = genesisPtr ∧ reloadStateFromIndex t =
      .error (.runtimeError "failed to get highest qc when loading from db")) ∨
    (s.bExec ≠ genesisPtr ∧ ∃ qc, reloadStateFromIndex t =
      .ok { updateHqc (s.heap.height s.bExec) (.ofWire qc) t with
        vheight := BitVec.ofNat 32 (s.heap.height s.bExec)
        bExec := s.heap.height s.bExec
        bLock := s.heap.height s.bExec }) := by
  have hindex : t.decidedHashIndex = s.decidedHashIndex := T.index_eq
  unfold Hotstuff.reloadStateFromIndex HotstuffLMDB.getHighestQc findBlockByHash BlockStore.getBlock
  rw [hindex]
  by_cases hgen : s.bExec = genesisPtr
  · -- nothing is committed, so the index has no certificate
    rw [I.qc_none hgen]
    exact Or.inl ⟨hgen, rfl⟩
  · obtain ⟨qc, hqc, hjustify⟩ := I.qc_entry hgen
    have hfind : t.blockStore.blockCache (s.heap.hash s.bExec) = some (s.heap.height s.bExec) :=
      T.find s.bExec (Descends.refl _) le_rfl
    refine Or.inr ⟨hgen, qc, ?_⟩
    rw [hqc]
    dsimp only
    rw [hjustify, hfind]
    dsimp only
    rw [heap_updateHqc, T.height_eq _ le_rfl]

/-- **Recovery.** It returns exactly when a block has been committed, every decided block is
reloadable and the machine can be set up; what it rebuilds is `Recovered`. -/
theorem initFromDisk_spec (W : WellFormed E s) (L : SaveLog s) (I : IndexLog s) :
    (s.bExec ≠ genesisPtr ∧ (∀ p ∈ s.executedChain, Reloadable s p) ∧
      ∃ t, Recovered s t ∧ initFromDisk E s.disk =
        match E.vm.initFromDisk s.decidedHashIndex s.files (s.heap.height s.bExec) with
        | .error what => .error (.vm what)
        | .ok vm => .ok { t with vm := vm }) ∨
    (¬ (s.bExec ≠ genesisPtr ∧ ∀ p ∈ s.executedChain, Reloadable s p) ∧
      ∃ e, initFromDisk E s.disk = .error e) := by
  have hopen : s.disk.index.openDb = .ok s.decidedHashIndex := I.openDb_eq
  unfold initFromDisk reloadDecidedBlocks
  rw [hopen]
  dsimp only
  have T₀ := loaded_start W E.vm.initClean
  rcases reloadLoop_spec W (fun p hp w hw => file_header W L hp hw) T₀ (Nat.zero_le _)
    I.hashes_eq with ⟨hall, t, hok, T⟩ | ⟨⟨p, hp, hbad⟩, e, he⟩
  · have hloop : reloadLoop E (Replica.make s.disk.files s.decidedHashIndex
        E.vm.initClean).decidedHashIndex.data (0, Replica.make s.disk.files s.decidedHashIndex
        E.vm.initClean) = .ok (s.heap.height s.bExec, t) := hok
    rw [hloop]
    dsimp only
    rcases T.reloadStateFromIndex I with ⟨hgen, hstate⟩ | ⟨hgen, qc, hstate⟩
    · rw [hstate]
      exact Or.inr ⟨fun h => h.1 hgen, _, rfl⟩
    · have hfind := T.find s.bExec (Descends.refl _) le_rfl
      have hheight := T.height_eq _ (le_refl (s.heap.height s.bExec))
      have hhash := (T.shape.cached hfind).1
      refine Or.inl ⟨hgen, hall, { updateHqc (s.heap.height s.bExec) (.ofWire qc) t with
        vheight := BitVec.ofNat 32 (s.heap.height s.bExec)
        bExec := s.heap.height s.bExec
        bLock := s.heap.height s.bExec }, ?_, by rw [hstate]; rfl⟩
      have hheap := heap_updateHqc (s.heap.height s.bExec) (.ofWire qc) t
      have hstore := (updateHqc_frame (s.heap.height s.bExec) (.ofWire qc) t).2
      refine ⟨?_, ?_, rfl, rfl, fun p hp => ⟨s.heap.height p, ?_, ?_⟩⟩
      · show (updateHqc _ _ t).heap.hash _ = _
        rw [hheap, hhash]
      · show (updateHqc _ _ t).heap.height _ = _
        rw [hheap, hheight]
      · show (updateHqc _ _ t).blockStore.blockCache _ = _
        rw [hstore]
        exact T.find p hp (W.forest.height_le hp)
      · show (updateHqc _ _ t).heap.height _ = _
        rw [hheap]
        exact T.height_eq _ (W.forest.height_le hp)
  · have hloop : reloadLoop E (Replica.make s.disk.files s.decidedHashIndex
        E.vm.initClean).decidedHashIndex.data (0, Replica.make s.disk.files s.decidedHashIndex
        E.vm.initClean) = .error e := he
    rw [hloop]
    exact Or.inr ⟨fun h => hbad (h.2 p hp), e, rfl⟩

/-! ## Does recovery succeed? -/

/-- `init_from_disk` returns, `b_exec` is the last committed block, and every decided block is in the
block store at its height. -/
def Recovers (E : Setup V) (s : Replica V) : Prop :=
  ∃ t, initFromDisk E s.disk = .ok t ∧ t.heap.hash t.bExec = s.heap.hash s.bExec ∧
    ∀ p, Descends s.heap.parent s.bExec p → ∃ q,
      t.blockStore.blockCache (s.heap.hash p) = some q ∧ t.heap.height q = s.heap.height p

theorem reloadable_iff (W : WellFormed E s) (L : SaveLog s) (hp : p ∈ s.executedChain) :
    Reloadable s p ↔ s.SavedToDisk p ∧
      ∀ j, s.heap.justify p = some j → j = genesisPtr ∨ j ∈ s.executedChain := by
  obtain ⟨hd, hne⟩ := (mem_executedChain W).mp hp
  have hstored := W.shape.stored_descends W.exec_stored hd
  have hjustify : ∀ j, Descends s.heap.parent s.bExec j ↔
      j = genesisPtr ∨ j ∈ s.executedChain := by
    intro j
    rw [mem_executedChain W]
    by_cases hj : j = genesisPtr
    · simp [hj, W.shape.descends_genesis W.exec_settled]
    · simp [hj]
  constructor
  · intro h
    obtain ⟨w, hw⟩ := h.file
    obtain ⟨w', hmem⟩ := L.of_file _ _ hw
    exact ⟨⟨w', hmem⟩, fun j hj => (hjustify j).mp (h.justify j hj)⟩
  · intro h
    have hwritten := (savedToDisk_iff W L hstored hne).mp h.1
    obtain ⟨w, -, hfile, -⟩ := L.saved p (W.shape.settled_of_stored hstored) hne hwritten
    exact ⟨⟨w, hfile⟩, fun j hj => (hjustify j).mpr (h.2 j hj)⟩

/-- **When recovery succeeds.** Provided that the machine can be set up, it does exactly when a block
has been committed and every decided block is saved and carries a certificate on a decided block or
genesis. -/
theorem recovers_iff (h : Reach (step E) anyInput (start E) s)
    (hvm : ∃ vm, E.vm.initFromDisk s.decidedHashIndex s.files (s.heap.height s.bExec) = .ok vm) :
    Recovers E s ↔ s.bExec ≠ genesisPtr ∧ ∀ p ∈ s.executedChain, s.SavedToDisk p ∧
      ∀ j, s.heap.justify p = some j → j = genesisPtr ∨ j ∈ s.executedChain := by
  obtain ⟨W, L⟩ := wellFormed_saveLog_of_reach h
  have I := (wellFormed_commitLog_of_reach h).2.toIndexLog
  have hall : (∀ p ∈ s.executedChain, Reloadable s p) ↔ ∀ p ∈ s.executedChain, s.SavedToDisk p ∧
      ∀ j, s.heap.justify p = some j → j = genesisPtr ∨ j ∈ s.executedChain :=
    forall₂_congr fun p hp => reloadable_iff W L hp
  rw [← hall]
  obtain ⟨vm, hvm⟩ := hvm
  rcases initFromDisk_spec W L I with ⟨hne, hre, t, R, hinit⟩ | ⟨hno, e, hinit⟩
  · rw [hvm] at hinit
    refine ⟨fun _ => ⟨hne, hre⟩, fun _ => ⟨_, hinit, R.hash_bExec, R.decided⟩⟩
  · refine ⟨fun hr => ?_, fun hc => absurd hc hno⟩
    obtain ⟨t, ht, -⟩ := hr
    rw [hinit] at ht
    cases ht

/-- A single replica that has committed three blocks recovers. -/
theorem recovers_solo : ∃ s : Replica Unit, s.executedChain = [1, 2, 3] ∧
    (Recovers (Instance.setup 1 0) s ↔ s.bExec ≠ genesisPtr ∧
      ∀ p ∈ s.executedChain, s.SavedToDisk p ∧
        ∀ j, s.heap.justify p = some j → j = genesisPtr ∨ j ∈ s.executedChain) := by
  have hrun : Instance.observe (Instance.setup 1 0) (Instance.soloRounds 6) executedChain =
      some [1, 2, 3] := by
    decide +kernel
  obtain ⟨s, hreach, hchain⟩ := Instance.exists_of_observe hrun
  exact ⟨s, hchain, recovers_iff hreach ⟨(), rfl⟩⟩

/-- Before the first commit there is no `qc` entry, and recovery throws. -/
theorem recovery_throws_before_commit : ¬ ∀ s : Replica Unit,
    Reach (step (Instance.setup 1 0)) anyInput (start (Instance.setup 1 0)) s →
      Recovers (Instance.setup 1 0) s := by
  intro hclaim
  obtain ⟨t, ht, -⟩ := hclaim _ (Reach.refl _)
  have hthrows : initFromDisk (Instance.setup 1 0) (start (Instance.setup 1 0)).disk =
      .error (.runtimeError "failed to get highest qc when loading from db") := rfl
  rw [hthrows] at ht
  cases ht

/-! ## What a crash does to the promises of a vote -/

/-- The voting height after the crash covers every vote before it, and the lock is not lower. -/
structure KeepsPromises (s t : Replica V) : Prop where
  votes : ∀ v ∈ s.votes, v.2 ≤ t.vheight.toNat
  lock : s.heap.height s.bLock ≤ t.heap.height t.bLock

/-- Where a recovery that returns puts the lock and the voting height. -/
theorem recovered_lock (h : Reach (step E) anyInput (start E) s)
    (hrec : initFromDisk E s.disk = .ok t) :
    t.heap.height t.bLock = s.heap.height s.bExec ∧
      t.vheight = BitVec.ofNat 32 (s.heap.height s.bExec) := by
  obtain ⟨W, L⟩ := wellFormed_saveLog_of_reach h
  have I := (wellFormed_commitLog_of_reach h).2.toIndexLog
  rcases initFromDisk_spec W L I with ⟨-, -, t', R, hinit⟩ | ⟨-, e, hinit⟩
  · rw [hinit] at hrec
    split at hrec
    · cases hrec
    · obtain rfl := Except.ok.inj hrec
      exact ⟨by rw [R.bLock_eq, R.height_bExec], R.vheight_eq⟩
  · rw [hinit] at hrec
    cases hrec

/-- A commit leaves the lock above the committed block, so recovery lowers it. -/
theorem not_keepsPromises (h : Reach (step E) anyInput (start E) s) (hne : s.bExec ≠ genesisPtr)
    (hrec : initFromDisk E s.disk = .ok t) : ¬ KeepsPromises s t := by
  intro hk
  have hle : s.heap.height s.bLock ≤ t.heap.height t.bLock := hk.lock
  have hlt := lock_above_exec h hne
  have hlock := (recovered_lock h hrec).1
  omega

/-- **Recovery forgets.** After a commit a recovery that returns puts the lock on the committed block,
which is below the lock before the crash. -/
theorem recovery_forgets (h : Reach (step E) anyInput (start E) s) (hne : s.bExec ≠ genesisPtr)
    (hrec : initFromDisk E s.disk = .ok t) :
    t.heap.height t.bLock = s.heap.height s.bExec ∧
      t.vheight = BitVec.ofNat 32 (s.heap.height s.bExec) ∧
      s.heap.height s.bExec < s.heap.height s.bLock ∧ ¬ KeepsPromises s t := by
  obtain ⟨hlock, hvheight⟩ := recovered_lock h hrec
  exact ⟨hlock, hvheight, lock_above_exec h hne, not_keepsPromises h hne hrec⟩

namespace Instance

/-- Replica 0 of four handles four rounds of replica 1, which commits the first block. -/
def fourRounds : List Input :=
  deliver 1 (blockOn 0#256 (certificate [] 0#256) []) 1 ++
  deliver 2 (blockOn 1#256 (certificate [0, 1, 2] 1#256) []) 1 ++
  deliver 3 (blockOn 1001#256 (certificate [0, 1, 2] 1001#256) []) 1 ++
  deliver 4 (blockOn 1001001#256 (certificate [0, 1, 2] 1001001#256) []) 1

/-- A second block on the first, from replica 3. -/
def otherSecond : List Input :=
  deliver 2 (blockOn 1#256 (certificate [] 0#256) [1]) 3

/-- Whether recovery from the files of `s` returns a replica that handles `otherSecond` and then votes
again at height 2, for a block other than the one `s` voted for there. -/
def votesTwiceAcrossCrash (s : Replica Unit) : Bool :=
  match initFromDisk (setup 4 0) s.disk with
  | .error _ => false
  | .ok t =>
    match runList (step (setup 4 0)) otherSecond t with
    | .error _ => false
    | .ok u => decide ((2, 2) ∈ s.votes ∧ (2, 2) ∈ u.votes ∧ s.heap.hash 2 ≠ u.heap.hash 2)

end Instance

/-- A crash after the fourth round: recovery forgets the votes at heights 2 to 4, and the replica votes
for another block at height 2. -/
theorem votes_twice_across_crash : ∃ s t u : Replica Unit,
    Reach (step (Instance.setup 4 0)) anyInput (start (Instance.setup 4 0)) s ∧
    s.bExec ≠ genesisPtr ∧ initFromDisk (Instance.setup 4 0) s.disk = .ok t ∧
    ¬ KeepsPromises s t ∧ Reach (step (Instance.setup 4 0)) anyInput t u ∧
    (2, 2) ∈ s.votes ∧ (2, 2) ∈ u.votes ∧ s.heap.hash 2 ≠ u.heap.hash 2 := by
  have hrun : Instance.observe (Instance.setup 4 0) Instance.fourRounds
      (fun s => (s.bExec, Instance.votesTwiceAcrossCrash s)) = some (1, true) := by
    decide +kernel
  obtain ⟨s, hreach, hobs⟩ := Instance.exists_of_observe hrun
  obtain ⟨hexec, hvotes⟩ := Prod.mk.inj hobs
  have hne : s.bExec ≠ genesisPtr := by
    rw [hexec]
    decide
  unfold Instance.votesTwiceAcrossCrash at hvotes
  split at hvotes
  · cases hvotes
  · rename_i t ht
    split at hvotes
    · cases hvotes
    · rename_i u hu
      exact ⟨s, t, u, hreach, hne, ht, not_keepsPromises hreach hne ht,
        Reach.of_runList (fun _ _ => trivial) hu, of_decide_eq_true hvotes⟩

/-- The crash of the fourth round. -/
theorem recovery_forgets_four : ∃ s t : Replica Unit, t.heap.height t.bLock = s.heap.height s.bExec ∧
    t.vheight = BitVec.ofNat 32 (s.heap.height s.bExec) ∧
    s.heap.height s.bExec < s.heap.height s.bLock ∧ ¬ KeepsPromises s t := by
  have hrun : Instance.observe (Instance.setup 4 0) Instance.fourRounds
      (fun s => (s.bExec, (initFromDisk (Instance.setup 4 0) s.disk).toOption.isSome)) =
      some (1, true) := by
    decide +kernel
  obtain ⟨s, hreach, hobs⟩ := Instance.exists_of_observe hrun
  obtain ⟨hexec, hsome⟩ := Prod.mk.inj hobs
  have hne : s.bExec ≠ genesisPtr := by
    rw [hexec]
    decide
  rcases ht : initFromDisk (Instance.setup 4 0) s.disk with e | t
  · rw [ht] at hsome
    cases hsome
  · exact ⟨s, t, recovery_forgets hreach hne ht⟩

end Fred.Hotstuff
