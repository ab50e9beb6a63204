/-
# Fred.Hotstuff.BlockFiles -- the files of the data directory

`block_storage/io_utils.cc` over `utils/save_load_xdr.h`: a block is kept in a file that is named by the
hexadecimal digits of its header's hash and holds its encoding. Elsewhere in this development the data
directory is a partial function from hashes to blocks. Here is why it may be: different hashes have
different names, so loading a hash gives what was saved under it, in every run (`block_files`). A save
truncates the file before it writes, and a process that dies on the way leaves a part of the encoding.
That is never loaded as a block, and since no hash is saved twice it is never what was left of a good file.
-/
import Fred.Hotstuff.SaveRuns
import Fred.Hotstuff.Wire
import Mathlib.Logic.Function.Basic

namespace Fred.Hotstuff

open Fred.Transition Replica

variable {V : Type} {E : Setup V} {s s' : Replica V}

/-! ## Names -/

/-- A hexadecimal digit as `std::hex` writes it. -/
def hexDigit (n : ℕ) : Char :=
  if n < 10 then Char.ofNat ('0'.toNat + n) else Char.ofNat ('a'.toNat + (n - 10))

/-- `setw(2) << hex` with the fill character `0`. -/
def hexByte (b : UInt8) : List Char := [hexDigit (b.toNat / 16), hexDigit (b.toNat % 16)]

def arrayToStr (hash : Hash) : String :=
  String.ofList ((BigEndian.bytes 32 hash.toNat).flatMap hexByte)

/-- `block_filename` of a hash. -/
def blockFilename (hash : Hash) (dataDir : String) : String :=
  dataDir ++ "hotstuff_blocks/" ++ arrayToStr hash ++ ".block"

theorem hexByte_injective : Function.Injective hexByte := by
  have hdigit : ∀ m < 16, ∀ n < 16, hexDigit m = hexDigit n → m = n := by decide
  intro a b h
  obtain ⟨hhigh, hlow⟩ := List.cons_eq_cons.mp h
  obtain ⟨hlow, -⟩ := List.cons_eq_cons.mp hlow
  have ha := a.toNat_lt
  have hb := b.toNat_lt
  have h₁ := hdigit _ (by omega) _ (by omega) hhigh
  have h₂ := hdigit _ (by omega) _ (by omega) hlow
  apply UInt8.toNat_inj.mp
  omega

theorem flatMap_hexByte_injective {as bs : List UInt8} (h : as.flatMap hexByte = bs.flatMap hexByte) :
    as = bs := by
  induction as generalizing bs with
  | nil =>
      cases bs with
      | nil => rfl
      | cons b bs => simp [hexByte] at h
  | cons a as ih =>
      cases bs with
      | nil => simp [hexByte] at h
      | cons b bs =>
          rw [List.flatMap_cons, List.flatMap_cons] at h
          obtain ⟨hab, hrest⟩ := List.append_inj h rfl
          rw [hexByte_injective hab, ih hrest]

/-- **Different hashes have different files.** -/
theorem blockFilename_injective (dataDir : String) :
    Function.Injective fun hash => blockFilename hash dataDir := by
  intro x y h
  unfold blockFilename at h
  have hdigits := congrArg String.toList (String.append_right_inj _ |>.mp
    ((String.append_left_inj _).mp h))
  unfold arrayToStr at hdigits
  rw [String.toList_ofList, String.toList_ofList] at hdigits
  have hbytes := congrArg BigEndian.value (flatMap_hexByte_injective hdigits)
  have hlt : ∀ z : Hash, z.toNat < 256 ^ 32 := fun z => z.isLt
  rw [BigEndian.value_bytes_of_lt (hlt x), BigEndian.value_bytes_of_lt (hlt y)] at hbytes
  exact BitVec.eq_of_toNat_eq hbytes

/-! ## Saving and loading -/

/-- The contents of the files by their names. -/
abbrev Files := String → Option (List UInt8)

/-- `save_block`, where opening the file succeeds. -/
def saveFile (C : Crypto) (dataDir : String) (block : HotstuffBlockWire) (files : Files) : Files :=
  Function.update files (blockFilename (C.hashHeader block.header) dataDir)
    (some (Wire.hotstuffBlockWire.toOpaque block))

/-- A `save_block` that ends when `n` bytes are in the file. -/
def cutFile (C : Crypto) (dataDir : String) (block : HotstuffBlockWire) (n : ℕ) (files : Files) :
    Files :=
  Function.update files (blockFilename (C.hashHeader block.header) dataDir)
    (some ((Wire.hotstuffBlockWire.toOpaque block).take n))

/-- `load_block`: nothing if there is no file, and an exception if it holds something else. -/
def loadFile (dataDir : String) (hash : Hash) (files : Files) :
    Except Xdr.Exn (Option HotstuffBlockWire) :=
  match files (blockFilename hash dataDir) with
  | none => .ok none
  | some contents => (Wire.hotstuffBlockWire.fromOpaque contents).map some

/-- The files after what the trace says was saved. -/
def filesOf (C : Crypto) (dataDir : String) (trace : List Effect) : Files :=
  trace.foldl (fun files e => match e with
    | .saved _ block => saveFile C dataDir block files
    | _ => files) fun _ => none

theorem filesOf_append {C : Crypto} {dataDir : String} {trace : List Effect} {e : Effect} :
    filesOf C dataDir (trace ++ [e]) = match e with
      | .saved _ block => saveFile C dataDir block (filesOf C dataDir trace)
      | _ => filesOf C dataDir trace := by
  unfold filesOf
  rw [List.foldl_append]
  rfl

/-! ## What was saved -/

/-- The hashes saved within `effs`, in order. -/
def savedNames (effs : List Effect) : List Hash :=
  effs.filterMap fun e => match e with
    | .saved name _ => some name
    | _ => none

theorem mem_savedNames {effs : List Effect} {name : Hash} :
    name ∈ savedNames effs ↔ ∃ w, Effect.saved name w ∈ effs := by
  unfold savedNames
  rw [List.mem_filterMap]
  constructor
  · rintro ⟨e, he, hname⟩
    cases e with
    | saved x w =>
        obtain rfl := Option.some.inj hname
        exact ⟨w, he⟩
    | _ => cases hname
  · rintro ⟨w, he⟩
    exact ⟨_, he, rfl⟩

theorem savedNames_append (effs effs' : List Effect) :
    savedNames (effs ++ effs') = savedNames effs ++ savedNames effs' := List.filterMap_append

/-- Effects other than saves add no name. -/
theorem savedNames_append_of_not_saved {effs effs' : List Effect}
    (h : ∀ e ∈ effs', ∀ name w, e ≠ .saved name w) :
    savedNames (effs ++ effs') = savedNames effs := by
  have hnil : savedNames effs' = [] := by
    apply List.eq_nil_iff_forall_not_mem.mpr
    intro name hname
    obtain ⟨w, hw⟩ := mem_savedNames.mp hname
    exact h _ hw name w rfl
  rw [savedNames_append, hnil, List.append_nil]

theorem savedNames_of_savesOf {heap : Heap} {ps : List BlockPtr} {effs : List Effect}
    (h : SavesOf heap ps effs) : savedNames effs = ps.map heap.hash := by
  unfold SavesOf at h
  induction h with
  | nil => rfl
  | cons hsaved _ ih =>
      obtain ⟨wire, rfl⟩ := hsaved
      rw [List.map_cons, ← ih]
      rfl

/-- If no hash was saved twice, a hash was saved with one block. -/
theorem saved_unique {effs : List Effect} (hnd : (savedNames effs).Nodup) {name : Hash}
    {w w' : HotstuffBlockWire} (h : Effect.saved name w ∈ effs) (h' : Effect.saved name w' ∈ effs) :
    w = w' := by
  obtain ⟨pre, post, rfl⟩ := List.append_of_mem h
  rw [savedNames_append] at hnd
  have hpost : (name :: savedNames post).Nodup := hnd.of_append_right
  rcases List.mem_append.mp h' with hmem | hmem
  · exact absurd List.mem_cons_self
      (List.disjoint_of_nodup_append hnd (mem_savedNames.mpr ⟨w', hmem⟩))
  · rcases List.mem_cons.mp hmem with heq | hmem
    · exact (Effect.saved.inj heq).2.symm
    · exact absurd (mem_savedNames.mpr ⟨w', hmem⟩) (List.nodup_cons.mp hpost).1

/-- **The file of a hash holds the block that was saved under it**, if no hash was saved twice. -/
theorem filesOf_eq_some {C : Crypto} (dataDir : String) {effs : List Effect}
    (hnamed : ∀ name w, Effect.saved name w ∈ effs → name = C.hashHeader w.header)
    (hnd : (savedNames effs).Nodup) (hash : Hash) (contents : List UInt8) :
    filesOf C dataDir effs (blockFilename hash dataDir) = some contents ↔
      ∃ w, Effect.saved hash w ∈ effs ∧ contents = Wire.hotstuffBlockWire.toOpaque w := by
  induction effs using List.reverseRecOn with
  | nil => simp [filesOf]
  | append_singleton effs e ih =>
      have hold := ih (fun name w h => hnamed name w (List.mem_append_left _ h))
        ((savedNames_append effs [e] ▸ hnd).of_append_left)
      rw [filesOf_append]
      cases e with
      | saved name block =>
          have hname := hnamed name block (by simp)
          dsimp only
          unfold saveFile
          rw [← hname]
          by_cases hhash : hash = name
          · subst hhash
            rw [Function.update_self]
            constructor
            · intro h
              exact ⟨block, by simp, (Option.some.inj h).symm⟩
            · rintro ⟨w, hmem, rfl⟩
              rw [saved_unique hnd hmem (List.mem_append_right _ (List.mem_singleton.mpr rfl))]
          · rw [Function.update_of_ne fun h => hhash (blockFilename_injective dataDir h), hold]
            simp [hhash]
      | _ => simp [hold]

/-! ## No hash is saved twice -/

namespace Replica

/-- `write_to_disk` of a stored block saves different hashes, those of blocks not flagged. -/
theorem writeToDisk_names {bound : ℕ} {a : BlockPtr} {n : ℕ}
    (S : Shape E.crypto s.heap s.blockStore.blockCache)
    (hgc : s.blockStore.gcCollector.BoundedBy bound)
    (hstored : s.blockStore.blockCache (s.heap.hash a) = some a)
    (hgen : (s.heap.get genesisPtr).writtenToDisk = true)
    (hclosed : ∀ p q, s.heap.parent p = some q → (s.heap.get p).writtenToDisk = true →
      (s.heap.get q).writtenToDisk = true) (hn : s.heap.height a < n) :
    ∃ ps : List BlockPtr,
      savedNames (writeToDisk E n a s).trace = savedNames s.trace ++ ps.map s.heap.hash ∧
      (ps.map s.heap.hash).Nodup ∧ ∀ p ∈ ps,
        s.blockStore.blockCache (s.heap.hash p) = some p ∧ (s.heap.get p).writtenToDisk = false := by
  obtain ⟨r, hr, spec⟩ := S.forest.markUp_spec a s.heap.written fun p q _ hpq => hclosed p q hpq
  obtain ⟨-, effs, htrace, hsaves⟩ := writeToDisk_marks E S hgc (S.settled_of_stored hstored) hgen
    (hr n hn)
  have hps : ∀ p ∈ r.2, s.blockStore.blockCache (s.heap.hash p) = some p ∧
      (s.heap.get p).writtenToDisk = false := by
    intro p hp
    obtain ⟨hd, hw⟩ := (spec.mem_visited p).mp hp
    exact ⟨S.stored_descends hstored hd, hw⟩
  refine ⟨r.2, ?_, ?_, hps⟩
  · rw [htrace, savedNames_append, savedNames_of_savesOf hsaves]
  · exact spec.nodup.map_on fun p hp q hq => Shape.eq_of_stored (hps p hp).1 (hps q hq).1

theorem lockAndWrite_nodup (W : WellFormed E s) (L : SaveLog s) (hnd : (savedNames s.trace).Nodup)
    {blk1 : BlockPtr} (hblk1 : s.blockStore.blockCache (s.heap.hash blk1) = some blk1) :
    (savedNames (lockAndWrite E blk1 s).trace).Nodup := by
  have hstored : s.blockStore.blockCache (s.heap.hash (newLock blk1 s)) = some (newLock blk1 s) := by
    rcases newLock_cases blk1 s with ⟨h, -⟩ | ⟨h, -⟩
    · rw [h]
      exact hblk1
    · rw [h]
      exact W.lock_stored
  rw [lockAndWrite_eq]
  obtain ⟨ps, hnames, hps, hnew⟩ := writeToDisk_names (s := setLock (newLock blk1 s) s)
    (n := s.heap.height (newLock blk1 s) + 1) W.shape W.collector hstored W.genesis_written
    W.written_closed (Nat.lt_succ_self _)
  rw [hnames]
  refine List.nodup_append.mpr ⟨hnd, hps, ?_⟩
  rintro x hx y hy rfl
  -- a saved hash is that of a flagged block, and no other block is stored under it
  obtain ⟨w, hw⟩ := mem_savedNames.mp hx
  obtain ⟨q, -, hq, hwritten⟩ := L.of_saved x w hw
  obtain ⟨p, hp, rfl⟩ := List.mem_map.mp hy
  obtain ⟨hp, hunwritten⟩ := hnew p hp
  obtain rfl : p = q := Option.some.inj (hp.symm.trans hq)
  cases hunwritten.symm.trans hwritten

/-- **Step lemma**: `update` saves no hash that was saved before, and none twice. -/
theorem update_nodup {p : BlockPtr} (W : WellFormed E s) (L : SaveLog s)
    (hnd : (savedNames s.trace).Nodup) (h : update E p s = .ok s') :
    (savedNames s'.trace).Nodup := by
  have htrace : ∀ {blk2 qc}, (savedNames (updateHqc blk2 qc s).trace).Nodup := by
    intro blk2 qc
    rw [updateHqc_trace]
    exact hnd
  have hlocked : ∀ {blk2 blk1}, s.heap.justify p = some blk2 → s.heap.justify blk2 = some blk1 →
      (savedNames (lockAndWrite E blk1
        (updateHqc blk2 (s.heap.get p).getJustifyQc s)).trace).Nodup := by
    intro blk2 blk1 h2 h1
    have W₁ : WellFormed E (updateHqc blk2 (s.heap.get p).getJustifyQc s) :=
      W.updateHqc (W.shape.settled_justify h2) (W.shape.objHash_getJustifyQc h2)
    have L₁ : SaveLog (updateHqc blk2 (s.heap.get p).getJustifyQc s) := by
      unfold updateHqc
      split
      · exact L.frame_sameCores W (Heap.SameCores.refl _) rfl rfl rfl (fun _ => rfl) fun _ _ => Iff.rfl
      · exact L
    refine lockAndWrite_nodup W₁ L₁ htrace ?_
    rw [(updateHqc_frame _ _ _).2, heap_updateHqc]
    exact W.shape.stored_justify h1
  have hrun := update_run E p s
  rw [h] at hrun
  generalize hr : (Except.ok s' : Result V) = r at hrun
  cases hrun with
  | early _ =>
      obtain rfl := Except.ok.inj hr
      exact hnd
  | hqcOnly _ _ _ =>
      obtain rfl := Except.ok.inj hr
      exact htrace
  | lockOnly h2 _ h1 _ =>
      obtain rfl := Except.ok.inj hr
      exact hlocked h2 h1
  | @chain blk2 blk1 blk s₂ _ h2 hd2 h1 hd1 hs₂ _ _ _ _ hcommit =>
      subst hs₂
      have l := lockStage W h2 hd2 h1 hd1
      rcases hq : commitQueue blk (lockAndWrite E blk1
        (updateHqc blk2 (s.heap.get p).getJustifyQc s)) with e | queue
      · rw [hq, ← hr] at hcommit
        cases hcommit
      · rw [hq, ← hr] at hcommit
        obtain ⟨tx, s₃, A, rfl⟩ := commitBlocks_ok l.wellFormed.collector hcommit.symm
        show (savedNames s₃.trace).Nodup
        rw [A.trace_eq, savedNames_append_of_not_saved]
        · exact hlocked h2 h1
        · intro e he name w heq
          obtain ⟨q, -, rfl⟩ := List.mem_map.mp he
          cases heq

/-- **Step lemma**: no step saves a hash again. -/
theorem step_nodup {i : Input} (W : WellFormed E s) (L : SaveLog s)
    (hnd : (savedNames s.trace).Nodup) (h : step E i s = .ok s') :
    (savedNames s'.trace).Nodup := by
  obtain ⟨-, o | ⟨schedule, p, rid, rest, s₁, -, P⟩⟩ := step_cases W h
  · obtain ⟨effs, htrace, hproposed⟩ := o.trace_eq
    rw [htrace, savedNames_append_of_not_saved]
    · exact hnd
    · intro e he name w heq
      obtain ⟨q, x, rfl⟩ := hproposed e he
      cases heq
  · have W₀ := W.popEvent schedule P.queue_eq
    have L₀ : SaveLog { s with eventQueue := rest, schedule := schedule } :=
      L.frame_sameCores W (Heap.SameCores.refl _) rfl rfl rfl (fun _ => rfl) fun _ _ => Iff.rfl
    rcases voteOnProposal_ok W₀ P.ne_genesis P.settled P.vote with v | ⟨hs, -⟩
    · refine update_nodup P.wellFormed (L₀.vote W₀ v) ?_ P.call
      obtain ⟨_, -, rfl⟩ := v.eq
      rw [savedNames_append_of_not_saved]
      · exact hnd
      · simp
    · refine update_nodup P.wellFormed (hs ▸ L₀) ?_ P.call
      rw [hs]
      exact hnd

end Replica

theorem savedNames_nodup_of_reach {P : Replica V → Input → Prop}
    (h : Reach (step E) P (start E) s) : (savedNames s.trace).Nodup := by
  refine h.invariant_of_reach (I := fun s : Replica V => (savedNames s.trace).Nodup) ?_ ?_
  · exact List.nodup_nil
  intro t u i ht hnd _ hs
  obtain ⟨W, L⟩ := wellFormed_saveLog_of_reach ht
  exact step_nodup W L hnd hs

/-! ## What is loaded -/

/-- Loading returns exactly what was saved within `effs`. -/
def LoadsSaved (dataDir : String) (effs : List Effect) (files : Files) : Prop :=
  ∀ hash, ∃ r, loadFile dataDir hash files = .ok r ∧ ∀ w, r = some w ↔ Effect.saved hash w ∈ effs

theorem loadsSaved_filesOf {C : Crypto} (dataDir : String) {effs : List Effect}
    (hnamed : ∀ name w, Effect.saved name w ∈ effs → name = C.hashHeader w.header)
    (hfits : ∀ name w, Effect.saved name w ∈ effs → Wire.hotstuffBlockWire.Fits w)
    (hnd : (savedNames effs).Nodup) : LoadsSaved dataDir effs (filesOf C dataDir effs) := by
  intro hash
  have hfile := filesOf_eq_some dataDir hnamed hnd hash
  unfold loadFile
  rcases hcontents : filesOf C dataDir effs (blockFilename hash dataDir) with _ | contents
  · refine ⟨none, rfl, fun w => ⟨fun h => (by cases h), fun hw => ?_⟩⟩
    have := (hfile _).mpr ⟨w, hw, rfl⟩
    rw [hcontents] at this
    cases this
  · obtain ⟨w, hw, rfl⟩ := (hfile contents).mp hcontents
    refine ⟨some w, ?_, fun w' => ⟨fun h => Option.some.inj h ▸ hw, fun hw' => ?_⟩⟩
    · dsimp only
      rw [(Wire.hotstuffBlockWire.fromOpaque_eq_ok).mpr ⟨hfits hash w hw, rfl⟩]
      rfl
    · rw [saved_unique hnd hw hw']

/-- What the replica takes for its files is what it saved, each block under the hash of its header. -/
theorem files_eq_some_iff {P : Replica V → Input → Prop} (h : Reach (step E) P (start E) s)
    (hash : Hash) (w : HotstuffBlockWire) :
    (s.files hash = some w ↔ Effect.saved hash w ∈ s.trace) ∧
      (Effect.saved hash w ∈ s.trace → hash = E.crypto.hashHeader w.header) := by
  obtain ⟨W, L⟩ := wellFormed_saveLog_of_reach h
  have hnd := savedNames_nodup_of_reach h
  have hsaved : ∀ {w}, Effect.saved hash w ∈ s.trace →
      s.files hash = some w ∧ hash = E.crypto.hashHeader w.header := by
    intro w hw
    obtain ⟨p, hne, hp, hwritten⟩ := L.of_saved hash w hw
    have hset := (W.shape.cached hp).2
    obtain rfl : s.heap.hash p = hash := (W.shape.cached hp).1
    obtain ⟨w', hw', hfile, hheader⟩ := L.saved p hset hne hwritten
    obtain rfl := saved_unique hnd hw hw'
    refine ⟨hfile, ?_⟩
    rw [hheader]
    exact W.shape.hash_eq p hne (W.shape.lt_next_of_settled hset)
  refine ⟨⟨fun hfile => ?_, fun hw => (hsaved hw).1⟩, fun hw => (hsaved hw).2⟩
  obtain ⟨w', hw'⟩ := L.of_file hash w hfile
  obtain rfl : w' = w := Option.some.inj ((hsaved hw').1.symm.trans hfile)
  exact hw'

/-- **Block files survive a crash.** In every run on decoded messages loading a hash returns the block that
was saved under it, at each moment of the run. No hash is saved twice; so a process that dies while it
saves a block leaves one file that is not accepted, of a block that was not saved before, and every other
hash is loaded as if that save had not begun. -/
theorem block_files (hbody : BodiesFit E) (h : Reach (step E) (fun _ i => i.Fits) (start E) s)
    (dataDir : String) :
    (∀ hash, loadFile dataDir hash (filesOf E.crypto dataDir s.trace) = .ok (s.files hash)) ∧
    (∀ pre post, s.trace = pre ++ post →
      LoadsSaved dataDir pre (filesOf E.crypto dataDir pre)) ∧
    ∀ pre name w post n, s.trace = pre ++ .saved name w :: post →
      n < (Wire.hotstuffBlockWire.toOpaque w).length →
      (∃ e, loadFile dataDir name
        (cutFile E.crypto dataDir w n (filesOf E.crypto dataDir pre)) = .error e) ∧
      (∀ w', Effect.saved name w' ∉ pre) ∧
      ∀ hash, hash ≠ name →
        loadFile dataDir hash (cutFile E.crypto dataDir w n (filesOf E.crypto dataDir pre)) =
          loadFile dataDir hash (filesOf E.crypto dataDir pre) := by
  have D := fitting_of_reach hbody h
  have hnd := savedNames_nodup_of_reach h
  have hnamed : ∀ name w, Effect.saved name w ∈ s.trace → name = E.crypto.hashHeader w.header :=
    fun name w => (files_eq_some_iff h name w).2
  have hloads : ∀ pre post, s.trace = pre ++ post →
      LoadsSaved dataDir pre (filesOf E.crypto dataDir pre) := by
    intro pre post hsplit
    have hmem : ∀ {e}, e ∈ pre → e ∈ s.trace := fun he => hsplit ▸ List.mem_append_left _ he
    rw [hsplit, savedNames_append] at hnd
    exact loadsSaved_filesOf dataDir (fun name w hw => hnamed name w (hmem hw))
      (fun name w hw => D.saved name w (hmem hw)) hnd.of_append_left
  refine ⟨fun hash => ?_, hloads, ?_⟩
  · obtain ⟨r, hr, hsaved⟩ := hloads s.trace [] (List.append_nil _).symm hash
    rw [hr]
    congr 1
    apply Option.ext
    intro w
    rw [(files_eq_some_iff h hash w).1]
    exact hsaved w
  · intro pre name w post n hsplit hn
    have hmem : Effect.saved name w ∈ s.trace := by
      rw [hsplit]
      simp
    have hname := hnamed name w hmem
    rw [hsplit, savedNames_append] at hnd
    unfold cutFile loadFile
    rw [← hname]
    refine ⟨?_, fun w' hw' => ?_, fun hash hhash => ?_⟩
    · rw [Function.update_self]
      obtain ⟨e, he⟩ := Wire.hotstuffBlockWire.fromOpaque_of_prefix (D.saved name w hmem)
        (List.take_prefix n _) fun heq => by
          have := congrArg List.length heq
          rw [List.length_take] at this
          omega
      refine ⟨e, ?_⟩
      dsimp only
      rw [he]
      rfl
    · exact List.disjoint_of_nodup_append hnd (mem_savedNames.mpr ⟨w', hw'⟩) List.mem_cons_self
    · rw [Function.update_of_ne fun heq => hhash (blockFilename_injective dataDir heq)]

/-! ### A block of a single replica -/

open Instance in
/-- A process that dies 10 bytes into its first block leaves a file that is not accepted; the complete
file is loaded as the block. -/
theorem block_files_solo : ∃ s : Replica Unit,
    Reach (step (setup 1 0)) (fun _ i => i.Fits) (start (setup 1 0)) s ∧
    loadFile "data/" 1#256 (filesOf crypto "data/" s.trace) = .ok (some firstBlock) ∧
    ∃ e, loadFile "data/" 1#256
      (cutFile crypto "data/" firstBlock 10 (filesOf crypto "data/" (s.trace.take 6))) = .error e := by
  have hrun : observeIf (setup 1 0) unsentCheck (soloRounds 3)
      (fun s => (s.files 1#256, s.trace.drop 6)) =
      some (some firstBlock, [.saved 1#256 firstBlock]) := by decide +kernel
  obtain ⟨s, hreach, hrun⟩ := exists_of_observeIf fits_of_check hrun
  obtain ⟨hfile, htrace⟩ := Prod.mk.inj hrun
  obtain ⟨hload, -, hcut⟩ := block_files (E := setup 1 0) (bodiesFit_setup 1 0) hreach "data/"
  refine ⟨s, hreach, hfile ▸ hload 1#256, ?_⟩
  refine (hcut (s.trace.take 6) 1#256 firstBlock [] 10 ?_ (by decide +kernel)).1
  rw [← htrace, List.take_append_drop]

end Fred.Hotstuff
