/-
# Fred.Hotstuff.IndexKeys -- the keys of the index of decided blocks

The loops of `serialize_big_endian.h` as they stand, with their 8-bit counters and shifts, over buffers
that need not be as long as a number. They compute the byte functions of `Hotstuff/IndexRecords`
(`Utils.write_eq`, `Utils.append_eq`, `Utils.read_eq`), which have no loops.

The key of a height is read back, every string of eight bytes is the key of one height, and the byte-wise
order of the keys is the order of the heights. The database library keeps its records in the byte-wise
order of their keys, so a forward cursor over the index comes to the decided blocks in ascending height,
and `reload_decided_blocks`, which loads them in that order, loads a block after its parent.
-/
import Fred.Hotstuff.IndexRecords
import Fred.Hotstuff.UpdateRule
import Mathlib.Data.Set.List

namespace Fred.Hotstuff

open Fred.Forest Fred.Transition

/-! ## The loops -/

namespace Utils

/-- `for (uint8_t loc = 0; loc < sizeof(uint64_t); loc++)`, from `loc` on. -/
def forBytes {σ : Type} (body : UInt8 → σ → Except Exn σ) (loc : UInt8) (s : σ) : Except Exn σ :=
  if loc.toUInt64 < 8 then
    match body loc s with
    | .error e => .error e
    | .ok s => forBytes body (loc + 1) s
  else .ok s
termination_by 8 - loc.toNat
decreasing_by
  have hlt : loc.toNat < 8 := by simpa [UInt64.lt_iff_toNat_lt] using ‹loc.toUInt64 < 8›
  rw [UInt8.toNat_add, UInt8.toNat_one]
  omega

/-- The byte a writer takes at `loc`. The shift is computed in `size_t` and kept in a `uint8_t`. -/
def byteAt (value : UInt64) (loc : UInt8) : UInt8 :=
  let shift : UInt8 := ((8 - loc.toUInt64 - 1) * 8).toUInt8
  ((value >>> shift.toUInt64) &&& 0xFF).toUInt8

/-- A round of a writer; `e` is what happens behind the end of the buffer. -/
def writeByte (e : Exn) (value : UInt64) (offset : ℕ) (loc : UInt8) (buf : List UInt8) :
    Except Exn (List UInt8) :=
  if loc.toNat + offset < buf.length then .ok (buf.set (loc.toNat + offset) (byteAt value loc))
  else .error e

/-- `write_unsigned_big_endian` into an array, whose `at` throws. -/
def writeUnsignedBigEndian (buf : List UInt8) (value : UInt64) (offset : ℕ) :
    Except Exn (List UInt8) :=
  forBytes (writeByte .outOfRange value offset) 0 buf

/-- `write_unsigned_big_endian` to a pointer; a write behind the end is undefined. -/
def writeUnsignedBigEndianTo (buf : List UInt8) (value : UInt64) : Except Exn (List UInt8) :=
  forBytes (writeByte .nullPointer value 0) 0 buf

/-- A round of `append_unsigned_big_endian`. -/
def appendByte (value : UInt64) (loc : UInt8) (buf : List UInt8) : Except Exn (List UInt8) :=
  .ok (buf ++ [byteAt value loc])

def appendUnsignedBigEndian (buf : List UInt8) (value : UInt64) : Except Exn (List UInt8) :=
  forBytes (appendByte value) 0 buf

/-- A round of `read_unsigned_big_endian`; a read behind the end is undefined. -/
def readByte (buf : List UInt8) (loc : UInt8) (output : UInt64) : Except Exn UInt64 :=
  match buf[loc.toNat]? with
  | none => .error .nullPointer
  | some b => .ok ((output <<< 8) + b.toUInt64)

def readUnsignedBigEndian (buf : List UInt8) : Except Exn UInt64 := forBytes (readByte buf) 0 0

/-! ## What the loops compute -/

/-- The loop runs its body on 0, 1, .., 7: the counter does not wrap. -/
theorem forBytes_eq {σ : Type} (body : UInt8 → σ → Except Exn σ) (n : ℕ) :
    ∀ (k : ℕ) (s : σ), k + n = 8 →
      forBytes body (UInt8.ofNat k) s = runList body ((List.range' k n).map UInt8.ofNat) s := by
  induction n with
  | zero =>
      intro k s hk
      obtain rfl : k = 8 := hk
      unfold forBytes
      rw [if_neg (by decide)]
      rfl
  | succ n ih =>
      intro k s hk
      have hlt : (UInt8.ofNat k).toUInt64 < 8 := by
        rw [UInt64.lt_iff_toNat_lt, UInt8.toNat_toUInt64, UInt8.toNat_ofNat']
        show k % 2 ^ 8 < 8
        omega
      have hnext : UInt8.ofNat k + 1 = UInt8.ofNat (k + 1) := (UInt8.ofNat_add k 1).symm
      unfold forBytes
      rw [if_pos hlt, List.range'_succ, List.map_cons, runList, hnext]
      rcases body (UInt8.ofNat k) s with e | t
      · rfl
      · exact ih (k + 1) t (by omega)

/-- The bytes of a value from position `k` on, as the writers take them. -/
def bytesFrom (value : UInt64) (k n : ℕ) : List UInt8 :=
  (List.range' k n).map fun loc => byteAt value (UInt8.ofNat loc)

theorem bytesFrom_succ (value : UInt64) (k n : ℕ) :
    bytesFrom value k (n + 1) = byteAt value (UInt8.ofNat k) :: bytesFrom value (k + 1) n := by
  rw [bytesFrom, List.range'_succ, List.map_cons, bytesFrom]

/-- The 8-bit shift is the shift. -/
theorem bytesFrom_eq (value : UInt64) : bytesFrom value 0 8 = Hotstuff.writeUnsignedBigEndian value := by
  have hshift : ∀ loc < 8, (((8 - (UInt8.ofNat loc).toUInt64 - 1) * 8).toUInt8).toUInt64 =
      UInt64.ofNat ((8 - loc - 1) * 8) := by
    decide
  unfold bytesFrom Hotstuff.writeUnsignedBigEndian
  rw [← List.range_eq_range']
  apply List.map_congr_left
  intro loc hloc
  rw [byteAt, hshift loc (List.mem_range.mp hloc)]

theorem toNat_ofNat_of_lt {k : ℕ} (hk : k < 8) : (UInt8.ofNat k).toNat = k := by
  rw [UInt8.toNat_ofNat']
  omega

theorem writeByte_run (e : Exn) (value : UInt64) (offset n : ℕ) :
    ∀ (k : ℕ) (front mid back : List UInt8),
    k + n = 8 → front.length = k + offset → mid.length = n →
    runList (writeByte e value offset) ((List.range' k n).map UInt8.ofNat) (front ++ mid ++ back) =
      .ok (front ++ bytesFrom value k n ++ back) := by
  -- `front` ends with the bytes written so far, and `mid` is still to be written over
  induction n with
  | zero =>
      intro k front mid back _ _ hmid
      rw [List.length_eq_zero_iff.mp hmid]
      rfl
  | succ n ih =>
      intro k front mid back hk hfront hmid
      obtain ⟨old, mid, rfl⟩ := List.exists_cons_of_length_eq_add_one hmid
      have hloc := toNat_ofNat_of_lt (show k < 8 by omega)
      have hlt : k + offset < (front ++ old :: mid ++ back).length := by
        simp
        omega
      have hset : (front ++ old :: mid ++ back).set (k + offset) (byteAt value (UInt8.ofNat k)) =
          (front ++ [byteAt value (UInt8.ofNat k)]) ++ mid ++ back := by
        rw [← hfront]
        simp
      rw [List.range'_succ, List.map_cons, runList, writeByte, hloc, if_pos hlt, hset]
      dsimp only
      rw [ih (k + 1) _ mid back (by omega) (by simp; omega) (by simpa using hmid), bytesFrom_succ,
        List.append_assoc front, List.singleton_append]

/-- **Writing** puts the bytes of the value over the eight bytes from the offset on. -/
theorem forBytes_write (e : Exn) (buf : List UInt8) (value : UInt64) {offset : ℕ}
    (h : offset + 8 ≤ buf.length) : forBytes (writeByte e value offset) 0 buf =
      .ok (buf.take offset ++ Hotstuff.writeUnsignedBigEndian value ++ buf.drop (offset + 8)) := by
  have hfront : (buf.take offset).length = 0 + offset := by
    rw [Nat.zero_add]
    exact List.length_take_of_le (by omega)
  have hmid : ((buf.drop offset).take 8).length = 8 := by
    rw [List.length_take, List.length_drop]
    omega
  have hbuf : buf.take offset ++ (buf.drop offset).take 8 ++ buf.drop (offset + 8) = buf := by
    rw [← List.drop_drop, List.append_assoc, List.take_append_drop, List.take_append_drop]
  have hrun := writeByte_run e value offset 8 0 _ _ (buf.drop (offset + 8)) rfl hfront hmid
  rw [hbuf, bytesFrom_eq] at hrun
  exact (forBytes_eq _ 8 0 buf rfl).trans hrun

theorem write_eq (buf : List UInt8) (value : UInt64) {offset : ℕ} (h : offset + 8 ≤ buf.length) :
    writeUnsignedBigEndian buf value offset =
      .ok (buf.take offset ++ Hotstuff.writeUnsignedBigEndian value ++ buf.drop (offset + 8)) :=
  forBytes_write _ buf value h

theorem writeTo_eq (buf : List UInt8) (value : UInt64) (h : 8 ≤ buf.length) :
    writeUnsignedBigEndianTo buf value =
      .ok (Hotstuff.writeUnsignedBigEndian value ++ buf.drop 8) := by
  have hwrite := forBytes_write .nullPointer buf value (show 0 + 8 ≤ buf.length by omega)
  rwa [List.take_zero, List.nil_append, Nat.zero_add] at hwrite

/-- Into an array of eight bytes it writes the key. -/
theorem write_key {buf : List UInt8} (value : UInt64) (h : buf.length = 8) :
    writeUnsignedBigEndian buf value 0 = .ok (Hotstuff.writeUnsignedBigEndian value) := by
  rw [write_eq buf value (by omega), List.take_zero, List.nil_append,
    List.drop_eq_nil_of_le (by omega), List.append_nil]

theorem appendByte_run (value : UInt64) (n : ℕ) : ∀ (k : ℕ) (buf : List UInt8),
    runList (appendByte value) ((List.range' k n).map UInt8.ofNat) buf =
      .ok (buf ++ bytesFrom value k n) := by
  induction n with
  | zero =>
      intro k buf
      exact congrArg Except.ok (List.append_nil buf).symm
  | succ n ih =>
      intro k buf
      rw [List.range'_succ, List.map_cons, runList, appendByte]
      dsimp only
      rw [ih, bytesFrom_succ, List.append_assoc, List.singleton_append]

/-- **Appending** puts the bytes of the value behind the buffer. -/
theorem append_eq (buf : List UInt8) (value : UInt64) :
    appendUnsignedBigEndian buf value = .ok (buf ++ Hotstuff.writeUnsignedBigEndian value) := by
  have hrun := appendByte_run value 8 0 buf
  rw [bytesFrom_eq] at hrun
  exact (forBytes_eq _ 8 0 buf rfl).trans hrun

theorem readByte_run {buf : List UInt8} (h : 8 ≤ buf.length) (n : ℕ) :
    ∀ (k : ℕ) (output : UInt64), k + n = 8 →
      runList (readByte buf) ((List.range' k n).map UInt8.ofNat) output =
        .ok (((buf.drop k).take n).foldl (fun output b => (output <<< 8) + b.toUInt64) output) := by
  induction n with
  | zero =>
      intro k output _
      rfl
  | succ n ih =>
      intro k output hk
      have hlt : k < buf.length := by omega
      have hloc := toNat_ofNat_of_lt (show k < 8 by omega)
      rw [List.range'_succ, List.map_cons, runList, readByte, hloc, List.getElem?_eq_getElem hlt,
        List.drop_eq_getElem_cons hlt, List.take_succ_cons, List.foldl_cons]
      exact ih (k + 1) _ (by omega)

/-- **Reading** takes the first eight bytes. -/
theorem read_eq {buf : List UInt8} (h : 8 ≤ buf.length) :
    readUnsignedBigEndian buf = .ok (Hotstuff.readUnsignedBigEndian buf) :=
  (forBytes_eq _ 8 0 0 rfl).trans (readByte_run h 8 0 0 rfl)

/-- **Reading undoes writing**, whatever stands behind the bytes. -/
theorem read_write (value : UInt64) (back : List UInt8) :
    readUnsignedBigEndian (Hotstuff.writeUnsignedBigEndian value ++ back) = .ok value := by
  have hlength := length_writeUnsignedBigEndian value
  have htake : (Hotstuff.writeUnsignedBigEndian value ++ back).take 8 =
      Hotstuff.writeUnsignedBigEndian value := List.take_left' hlength
  have hsame := readUnsignedBigEndian_write value
  rw [Hotstuff.readUnsignedBigEndian, List.take_of_length_le hlength.le] at hsame
  rw [read_eq (by rw [List.length_append, hlength]; omega), Hotstuff.readUnsignedBigEndian, htake,
    hsame]

end Utils

/-! ## Keys -/

/-- A string of eight bytes is the key of the height it is read as. -/
theorem writeUnsignedBigEndian_read {key : List UInt8} (h : key.length = 8) :
    writeUnsignedBigEndian (readUnsignedBigEndian key) = key := by
  have hlt : BigEndian.value key < 2 ^ 64 := by
    have := BigEndian.value_lt key
    rwa [h] at this
  have hread : (readUnsignedBigEndian key).toNat = BigEndian.value key := by
    rw [readUnsignedBigEndian, List.take_of_length_le h.le, foldl_read, UInt64.toNat_zero,
      Nat.zero_mul, Nat.zero_add, Nat.mod_eq_of_lt hlt]
  rw [writeUnsignedBigEndian_eq, hread, BigEndian.bytes_value h]

/-- **Every string of eight bytes is the key of one height.** -/
theorem existsUnique_key {key : List UInt8} (h : key.length = 8) :
    ∃! height, writeUnsignedBigEndian height = key := by
  refine ⟨readUnsignedBigEndian key, writeUnsignedBigEndian_read h, fun height hheight => ?_⟩
  rw [← hheight, readUnsignedBigEndian_write]

/-! ## The cursor -/

namespace HotstuffLMDB

/-- What the loop over a forward cursor gets: the database library keeps the records in the ascending
order of their keys. -/
def forwardCursor (records : List Record) : Except String (List (UInt64 × Hash)) :=
  records.mapM derefRecord

theorem forwardCursor_map {α : Type} (height : α → UInt64) (hash : α → Hash)
    (bytes : α → List UInt8) (entries : List α) :
    forwardCursor (entries.map fun e => decidedRecord (height e) (hash e) (bytes e)) =
      .ok (entries.map fun e => (height e, hash e)) := by
  induction entries with
  | nil => rfl
  | cons e es ih =>
      unfold forwardCursor at ih ⊢
      rw [List.map_cons, List.mapM_cons, derefRecord_decidedRecord, ih]
      rfl

/-- **A forward cursor comes to ascending heights**, whatever was written in whatever order. -/
theorem forwardCursor_written (writes : List (UInt64 × Hash × List UInt8)) :
    ∃ visits, forwardCursor (written id writes) = .ok visits ∧
      (visits.map Prod.fst).Pairwise (· < ·) := by
  have hform : written id writes ∈ Set.range (List.map fun w : UInt64 × Hash × List UInt8 =>
      decidedRecord w.1 w.2.1 w.2.2) := by
    rw [Set.range_list_map]
    intro r hr
    obtain ⟨w, rfl⟩ := mem_written_form id hr
    exact ⟨w, rfl⟩
  obtain ⟨entries, hentries⟩ := hform
  have hordered := ordered_written id writes
  rw [← hentries] at hordered ⊢
  refine ⟨_, forwardCursor_map Prod.fst _ _ entries, ?_⟩
  -- the order of the keys is the order of the heights
  rw [List.map_map, List.pairwise_map]
  apply (List.pairwise_map.mp hordered).imp
  intro a b hlt
  exact UInt64.lt_iff_toNat_lt.mpr (writeUnsignedBigEndian_lt.mp hlt)

/-- The records of an index: what the calls of `add_decided_block_` for its entries leave. -/
def records (index : HotstuffLMDB) : List Record :=
  written id (index.data.map fun e => (UInt64.ofNat e.height, e.hash, e.vmBlockId))

/-- An entry above those that are there goes behind them. -/
theorem addDecidedBlock_records {ds : List IndexEntry} {e : IndexEntry}
    (hlt : ∀ d ∈ ds, d.height < e.height) (he : e.height < 2 ^ 64) :
    addDecidedBlock id (ds.map record) (UInt64.ofNat e.height) e.hash e.vmBlockId =
      (ds ++ [e]).map record := by
  rw [← put_of_lt hlt]
  exact (records_put he fun d hd => (hlt d hd).trans he).symm

theorem foldl_addDecidedBlock {es : List IndexEntry} : ∀ {ds : List IndexEntry},
    (ds ++ es).Pairwise (fun d e => d.height < e.height) → (∀ e ∈ es, e.height < 2 ^ 64) →
    (es.map fun e => (UInt64.ofNat e.height, e.hash, e.vmBlockId)).foldl
      (fun records w => addDecidedBlock id records w.1 w.2.1 w.2.2) (ds.map record) =
      (ds ++ es).map record := by
  induction es with
  | nil =>
      intro ds _ _
      rw [List.append_nil]
      rfl
  | cons e es ih =>
      intro ds hasc hheight
      have hlt : ∀ d ∈ ds, d.height < e.height := fun d hd =>
        (List.pairwise_append.mp hasc).2.2 d hd e List.mem_cons_self
      rw [List.append_cons] at hasc ⊢
      rw [List.map_cons, List.foldl_cons,
        addDecidedBlock_records hlt (hheight e List.mem_cons_self)]
      exact ih hasc fun x hx => hheight x (List.mem_cons_of_mem e hx)

/-- The entries of an index that holds 64-bit heights in ascending order are its records, parsed. -/
theorem records_eq {index : HotstuffLMDB}
    (hasc : index.data.Pairwise fun d e => d.height < e.height)
    (hheight : ∀ e ∈ index.data, e.height < 2 ^ 64) : index.records = index.data.map record :=
  @foldl_addDecidedBlock index.data [] hasc hheight

end HotstuffLMDB

/-! ## The index of a replica -/

open Replica

variable {V : Type} {E : Setup V} {s t : Replica V} {p : BlockPtr}

/-- A restart is from the replica's own disk. -/
def FromOwnDisk (s : Replica V) (a : Turn) : Prop := ∀ disk, a = .restart disk → OwnDisk s disk

/-- In every life the index holds the executed chain. -/
theorem indexLog_of_reach (h : Reach (turn E) FromOwnDisk (start E) s) :
    WellFormed E s ∧ IndexLog s := by
  refine h.invariant (I := fun s => WellFormed E s ∧ IndexLog s)
    ⟨WellFormed.start E, IndexLog.start E⟩ ?_
  rintro t u a ⟨W, I⟩ hown hturn
  cases a with
  | input i =>
      have hstep : step E i t = .ok u := hturn
      exact ⟨(step_cases W hstep).1, I.step W hstep⟩
  | restart disk =>
      have hinit := turn_restart_ok hturn
      have W' := (initFromDisk_wellFormed hinit).1
      exact ⟨W', (restored_of_ownDisk W I (hown disk rfl) hinit).index W I W'⟩

/-- The keys of the index are the heights 1, 2, .. -/
theorem IndexLog.heights_eq (I : IndexLog s) (W : WellFormed E s) :
    s.decidedHashIndex.data.map IndexEntry.height = List.range' 1 (s.heap.height s.bExec) := by
  have hindexed := congrArg (List.map Prod.fst) I.indexed_eq
  unfold indexedHashes at hindexed
  rw [List.map_map, List.map_map] at hindexed
  rw [← heights_executedChain W]
  exact hindexed

theorem IndexLog.ascending (I : IndexLog s) (W : WellFormed E s) :
    s.decidedHashIndex.data.Pairwise fun d e => d.height < e.height := by
  apply List.pairwise_map.mp
  rw [I.heights_eq W]
  exact List.pairwise_lt_range'

/-- What the cursor over the index of a replica comes to. -/
theorem IndexLog.forwardCursor_eq (I : IndexLog s) (W : WellFormed E s)
    (hheight : s.heap.height s.bExec < 2 ^ 64) :
    HotstuffLMDB.forwardCursor s.decidedHashIndex.records = .ok (s.executedChain.map fun p =>
      (UInt64.ofNat (s.heap.height p), s.heap.hash p)) := by
  have hlt : ∀ e ∈ s.decidedHashIndex.data, e.height < 2 ^ 64 := by
    intro e he
    have hmem : e.height ∈ List.range' 1 (s.heap.height s.bExec) := by
      rw [← I.heights_eq W]
      exact List.mem_map_of_mem he
    obtain ⟨-, hle⟩ := List.mem_range'_1.mp hmem
    omega
  have hentries : s.decidedHashIndex.data.map (fun e => (UInt64.ofNat e.height, e.hash)) =
      s.executedChain.map fun p => (UInt64.ofNat (s.heap.height p), s.heap.hash p) := by
    have hindexed := congrArg (List.map fun x : ℕ × Hash => (UInt64.ofNat x.1, x.2)) I.indexed_eq
    unfold indexedHashes at hindexed
    rwa [List.map_map, List.map_map] at hindexed
  rw [HotstuffLMDB.records_eq (I.ascending W) hlt, ← hentries]
  exact HotstuffLMDB.forwardCursor_map _ _ IndexEntry.vmBlockId _

/-- The parent of a decided block is decided before it. -/
theorem parent_before (W : WellFormed E s) {pre post : List BlockPtr}
    (h : s.executedChain = pre ++ p :: post) :
    ∃ q, s.heap.parent p = some q ∧ s.heap.height q = pre.length ∧
      Descends s.heap.parent s.bExec q ∧ (q = genesisPtr ∨ q ∈ pre) := by
  have hdrop : s.executedChain.drop pre.length = p :: post := by
    rw [h, List.drop_left]
  obtain ⟨hp, hheight, -, -⟩ := drop_executedChain W hdrop
  -- only genesis is settled without a parent
  obtain ⟨q, hq⟩ := (W.shape.settled_descends W.exec_settled hp).resolve_left
    (ne_genesisPtr_of_height W hheight)
  have hparent := W.shape.height_parent hq
  have hqd : Descends s.heap.parent s.bExec q := hp.trans (Descends.single hq)
  refine ⟨q, hq, by omega, hqd, ?_⟩
  by_cases hgen : q = genesisPtr
  · exact Or.inl hgen
  · have hmem := (mem_executedChain W).mpr ⟨hqd, hgen⟩
    have hasc := executedChain_ascending W
    rw [h] at hmem hasc
    rcases List.mem_append.mp hmem with hpre | hpost
    · exact Or.inr hpre
    · -- from the block on, nothing is lower than it
      rcases List.mem_cons.mp hpost with rfl | hpost
      · omega
      · have hlt := (List.pairwise_cons.mp (List.pairwise_append.mp hasc).2.1).1 q hpost
        omega

/-- **The loop on the first entries**: what it has loaded when it returns. -/
theorem Loaded.reloadLoop (W : WellFormed E s)
    (hfile : ∀ p ∈ s.executedChain, ∀ w, s.files (s.heap.hash p) = some w →
      w.header = s.heap.header p) {es : List IndexEntry} :
    ∀ {k : ℕ} {r r' : ℕ × Replica V}, Loaded E s k r.2 →
      es.map IndexEntry.hash <+: (s.executedChain.drop k).map s.heap.hash →
      Hotstuff.reloadLoop E es r = .ok r' → Loaded E s (k + es.length) r'.2 := by
  induction es with
  | nil =>
      intro k r r' T _ h
      rwa [← Except.ok.inj h]
  | cons e es ih =>
      intro k r r' T hes h
      rcases hdrop : s.executedChain.drop k with _ | ⟨p, rest⟩
      · rw [hdrop] at hes
        exact absurd (List.prefix_nil.mp hes) (List.cons_ne_nil _ _)
      · rw [hdrop, List.map_cons, List.map_cons, List.cons_prefix_cons] at hes
        obtain ⟨hhash, hrest⟩ := hes
        obtain ⟨hp, hheight, hnext, -⟩ := drop_executedChain W hdrop
        have hmem : p ∈ s.executedChain := List.mem_of_mem_drop (hdrop ▸ List.mem_cons_self)
        unfold Hotstuff.reloadLoop at h
        rw [hhash] at h
        rcases reloadBlock_spec W T hp hheight (hfile p hmem) with ⟨-, t₁, hok, T₁⟩ | ⟨-, e', he⟩
        · -- the entry was loaded: one block more of the executed chain is there
          rw [hok] at h
          have T' := ih (r := (k + 1, t₁)) T₁ (hnext.symm ▸ hrest) h
          rw [List.length_cons, Nat.add_comm es.length, ← Nat.add_assoc]
          exact T'
        · rw [he] at h
          cases h

/-! ## The result -/

/-- **Decided blocks are loaded in order.** A forward cursor over the index comes to them in ascending
height, to each after its parent; and when the loop of `reload_decided_blocks` comes to one, the block
store has its parent. -/
structure LoadsInOrder (E : Setup V) (s : Replica V) : Prop where
  decided_iff : ∀ p, p < s.heap.next →
    ((s.heap.get p).decided = true ↔ p = genesisPtr ∨ p ∈ s.executedChain)
  cursor_eq : HotstuffLMDB.forwardCursor s.decidedHashIndex.records = .ok (s.executedChain.map fun p =>
    (UInt64.ofNat (s.heap.height p), s.heap.hash p))
  ascending : (s.executedChain.map fun p => UInt64.ofNat (s.heap.height p)).Pairwise (· < ·)
  parent_before : ∀ pre p post, s.executedChain = pre ++ p :: post →
    ∃ q, s.heap.parent p = some q ∧ (q = genesisPtr ∨ q ∈ pre)
  parent_loaded : ∀ disk, OwnDisk s disk → ∀ es e rest, disk.index.data = es ++ e :: rest →
    ∃ p ∈ s.executedChain, e.hash = s.heap.hash p ∧ ∃ q, s.heap.parent p = some q ∧
      ∀ r, reloadLoop E es (0, Replica.make disk.files disk.index E.vm.initClean) = .ok r →
        ∃ q', r.2.blockStore.blockCache (s.heap.hash q) = some q'

theorem parent_loaded (W : WellFormed E s) (I : IndexLog s) {disk : Disk} (D : OwnDisk s disk)
    {es rest : List IndexEntry} {e : IndexEntry} (hdata : disk.index.data = es ++ e :: rest) :
    ∃ p ∈ s.executedChain, e.hash = s.heap.hash p ∧ ∃ q, s.heap.parent p = some q ∧
      ∀ r, reloadLoop E es (0, Replica.make disk.files disk.index E.vm.initClean) = .ok r →
        ∃ q', r.2.blockStore.blockCache (s.heap.hash q) = some q' := by
  obtain ⟨files, index⟩ := disk
  obtain rfl : index = s.decidedHashIndex := D.index_eq
  have hhashes := I.hashes_eq
  rw [List.drop_zero] at hhashes
  have hsplit := hhashes
  rw [hdata, List.map_append, List.map_cons] at hsplit
  obtain ⟨pre, tail, hchain, hpre, htail⟩ := List.map_eq_append_iff.mp hsplit.symm
  obtain ⟨p, post, rfl, hhash, -⟩ := List.map_eq_cons_iff.mp htail
  obtain ⟨q, hq, hheight, hqd, -⟩ := parent_before W hchain
  refine ⟨p, hchain ▸ List.mem_append_right _ List.mem_cons_self, hhash.symm, q, hq, fun r hr => ?_⟩
  have W' : WellFormed E { s with files := files } :=
    W.withQueue (fun _ he => Or.inl he) _ _ _ _ _ _ _
  have hprefix : es.map IndexEntry.hash <+:
      (({ s with files := files } : Replica V).executedChain.drop 0).map s.heap.hash := by
    rw [List.drop_zero, ← hpre]
    show pre.map s.heap.hash <+: s.executedChain.map s.heap.hash
    rw [hchain, List.map_append]
    exact List.prefix_append _ _
  have T := Loaded.reloadLoop W' D.files (loaded_start W' E.vm.initClean) hprefix hr
  have hlength := congrArg List.length hpre
  rw [List.length_map, List.length_map] at hlength
  refine ⟨_, T.find q hqd ?_⟩
  show s.heap.height q ≤ 0 + es.length
  omega

theorem loadsInOrder (W : WellFormed E s) (I : IndexLog s)
    (hheight : s.heap.height s.bExec < 2 ^ 64) : LoadsInOrder E s where
  decided_iff := by
    intro p hp
    rw [I.decided_iff p hp, mem_executedChain W]
    by_cases hgen : p = genesisPtr
    · simp [hgen, W.shape.descends_genesis W.exec_settled]
    · simp [hgen]
  cursor_eq := I.forwardCursor_eq W hheight
  ascending := by
    rw [List.pairwise_map]
    apply List.Pairwise.imp_of_mem _ (executedChain_ascending W)
    intro a b _ hb hlt
    -- no block of the chain is above `b_exec`, whose height is one of 64 bits
    have hle := W.forest.height_le ((mem_executedChain W).mp hb).1
    rw [UInt64.lt_iff_toNat_lt, UInt64.toNat_ofNat', UInt64.toNat_ofNat',
      Nat.mod_eq_of_lt (by omega), Nat.mod_eq_of_lt (by omega)]
    exact hlt
  parent_before := by
    intro pre p post h
    obtain ⟨q, hq, -, -, hbefore⟩ := Hotstuff.parent_before W h
    exact ⟨q, hq, hbefore⟩
  parent_loaded := fun _ D _ _ _ hdata => Hotstuff.parent_loaded W I D hdata

/-- **Index keys are invertible and keep the order.** Reading undoes writing and appending; an array of
eight bytes is written with the key, and every eight bytes are the key of one height; the byte order of
the keys is the order of the heights. So a forward cursor comes to ascending heights whatever was written;
and in every life of a replica that restarts from its own disk, decided blocks are loaded in order. -/
theorem index_keys (E : Setup V) :
    (∀ buf height offset, offset + 8 ≤ buf.length → ∃ buf',
      Utils.writeUnsignedBigEndian buf height offset = .ok buf' ∧
        Utils.readUnsignedBigEndian (buf'.drop offset) = .ok height) ∧
    (∀ buf height, 8 ≤ buf.length → ∃ buf', Utils.writeUnsignedBigEndianTo buf height = .ok buf' ∧
      Utils.readUnsignedBigEndian buf' = .ok height) ∧
    (∀ buf height, ∃ buf', Utils.appendUnsignedBigEndian buf height = .ok buf' ∧
      Utils.readUnsignedBigEndian (buf'.drop buf.length) = .ok height) ∧
    (∀ buf height, buf.length = 8 →
      Utils.writeUnsignedBigEndian buf height 0 = .ok (writeUnsignedBigEndian height)) ∧
    (∀ key : List UInt8, key.length = 8 →
      Utils.readUnsignedBigEndian key = .ok (readUnsignedBigEndian key) ∧
        ∃! height, writeUnsignedBigEndian height = key) ∧
    (∀ a b, writeUnsignedBigEndian a < writeUnsignedBigEndian b ↔ a < b) ∧
    (∀ writes, ∃ visits, HotstuffLMDB.forwardCursor (HotstuffLMDB.written id writes) = .ok visits ∧
      (visits.map Prod.fst).Pairwise (· < ·)) ∧
    ∀ s, Reach (turn E) FromOwnDisk (start E) s → s.heap.height s.bExec < 2 ^ 64 →
      LoadsInOrder E s := by
  refine ⟨fun buf height offset hbuf => ⟨_, Utils.write_eq buf height hbuf, ?_⟩,
    fun buf height hbuf => ⟨_, Utils.writeTo_eq buf height hbuf, Utils.read_write height _⟩,
    fun buf height => ⟨_, Utils.append_eq buf height, ?_⟩,
    fun buf height hbuf => Utils.write_key height hbuf,
    fun key hkey => ⟨Utils.read_eq hkey.ge, existsUnique_key hkey⟩,
    fun a b => writeUnsignedBigEndian_lt.trans UInt64.lt_iff_toNat_lt.symm,
    HotstuffLMDB.forwardCursor_written, fun s h hheight => ?_⟩
  · have hfront : (buf.take offset).length = offset := List.length_take_of_le (by omega)
    rw [List.append_assoc, List.drop_left' hfront]
    exact Utils.read_write height _
  · rw [List.drop_left, ← List.append_nil (writeUnsignedBigEndian height)]
    exact Utils.read_write height []
  · obtain ⟨W, I⟩ := indexLog_of_reach h
    exact loadsInOrder W I hheight

namespace Instance

def ownTurnCheck (s : Replica Unit) : Turn → Bool
  | .restart disk => ownDiskCheck s disk
  | .input _ => true

theorem fromOwnDisk_of_check (s : Replica Unit) (a : Turn) (h : ownTurnCheck s a = true) :
    FromOwnDisk s a := by
  rintro disk rfl
  exact ownDisk_of_check h

end Instance

/-- A single replica that has committed a block in its first life and another one in its second. -/
theorem index_keys_restarted : ∃ s : Replica Unit, s.executedChain.map s.heap.height = [1, 2] ∧
    LoadsInOrder Instance.soloSetup s := by
  have hrun : (runListIf (turn Instance.soloSetup) Instance.ownTurnCheck
      (Instance.restartedRounds ++ [.input (.event []), .input (.event [])])
      (start Instance.soloSetup)).map
      (fun s => (s.executedChain.map s.heap.height, s.heap.height s.bExec)) = some ([1, 2], 2) := by
    decide +kernel
  obtain ⟨s, hs, hobs⟩ := Option.map_eq_some_iff.mp hrun
  obtain ⟨hchain, hexec⟩ := Prod.mk.inj hobs
  have hreach := Reach.of_runListIf Instance.fromOwnDisk_of_check hs
  have hlt : s.heap.height s.bExec < 2 ^ 64 := by
    rw [hexec]
    decide
  exact ⟨s, hchain, (index_keys Instance.soloSetup).2.2.2.2.2.2.2 s hreach hlt⟩

end Fred.Hotstuff
