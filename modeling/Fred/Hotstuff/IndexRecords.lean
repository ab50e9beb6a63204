/-
# Fred.Hotstuff.IndexRecords -- the index of decided blocks as bytes

The writer and the readers of `lmdb.cc` and `lmdb.h` on the records of the data database, with the byte
functions of `serialize_big_endian.h` they use. The database is a list of records in the ascending
byte-wise order of their keys. `Hotstuff/Lmdb` is what this file is once the bytes are parsed:
`records_put` is the step from one to the other, and it needs that the byte order of the keys is the
order of the heights.

One writer puts the hash and the bytes of the identifier into one value. The cursor's readers cut the
value after the hash. The point lookup does not: it hands the whole value to the constructor of the
identifier.
-/
import Fred.Hotstuff.Lmdb
import Fred.Vm.CountingVM
import Fred.Lib.BigEndian
import Mathlib.Data.List.Induction

namespace Fred.Hotstuff

/-! ## Bytes -/

/-- `write_unsigned_big_endian` of a `uint64_t` into an array of eight bytes. -/
def writeUnsignedBigEndian (value : UInt64) : List UInt8 :=
  (List.range 8).map fun loc => ((value >>> UInt64.ofNat ((8 - loc - 1) * 8)) &&& 0xFF).toUInt8

/-- `read_unsigned_big_endian` into a `uint64_t`. -/
def readUnsignedBigEndian (buf : List UInt8) : UInt64 :=
  (buf.take 8).foldl (fun output b => (output <<< 8) + b.toUInt64) 0

/-- The 32 bytes of a `Hash`. -/
def hashBytes (hash : Hash) : List UInt8 := BigEndian.bytes 32 hash.toNat

/-- `xdr_from_opaque` to a `Hash`. -/
def hashOfBytes (bytes : List UInt8) : Except String Hash :=
  if bytes.length = 32 then .ok (BitVec.ofNat 256 (BigEndian.value bytes))
  else .error "bad message size"

theorem toUInt8_shiftRight (value : UInt64) {shift : ℕ} (h : shift < 64) :
    ((value >>> UInt64.ofNat shift) &&& 0xFF).toUInt8 = UInt8.ofNat (value.toNat / 2 ^ shift) := by
  have hmask : UInt64.toNat 0xFF = 2 ^ 8 - 1 := rfl
  have hshift : (UInt64.ofNat shift).toNat % 64 = shift := by
    rw [UInt64.toNat_ofNat']
    omega
  apply UInt8.toNat_inj.mp
  rw [UInt64.toNat_toUInt8, UInt64.toNat_and, UInt64.toNat_shiftRight, hmask, hshift,
    Nat.and_two_pow_sub_one_eq_mod, Nat.mod_mod, Nat.shiftRight_eq_div_pow, UInt8.toNat_ofNat']

theorem writeUnsignedBigEndian_eq (value : UInt64) :
    writeUnsignedBigEndian value = BigEndian.bytes 8 value.toNat := by
  rw [BigEndian.bytes_eq_map]
  apply List.map_congr_left
  intro loc hloc
  have hlt : (8 - loc - 1) * 8 < 64 := by
    have := List.mem_range.mp hloc
    omega
  rw [toUInt8_shiftRight value hlt, Nat.mul_comm, Nat.pow_mul]

@[simp] theorem length_writeUnsignedBigEndian (value : UInt64) :
    (writeUnsignedBigEndian value).length = 8 := by
  simp [writeUnsignedBigEndian]

/-- The loop of the reader, modulo the width of its accumulator. -/
theorem foldl_read (bs : List UInt8) (output : UInt64) :
    (bs.foldl (fun (output : UInt64) b => (output <<< 8) + b.toUInt64) output).toNat =
      (output.toNat * 256 ^ bs.length + BigEndian.value bs) % 2 ^ 64 := by
  induction bs generalizing output with
  | nil => simp [BigEndian.value, Nat.mod_eq_of_lt output.toNat_lt]
  | cons b bs ih =>
      have hstep : ((output <<< 8) + b.toUInt64).toNat =
          (output.toNat * 256 + b.toNat) % 2 ^ 64 := by
        simp only [UInt64.toNat_add, UInt64.toNat_shiftLeft, UInt8.toNat_toUInt64,
          Nat.shiftLeft_eq, Nat.mod_add_mod]
        rfl
      rw [List.foldl_cons, ih, hstep, BigEndian.value, List.length_cons, Nat.add_mod, Nat.mod_mul_mod,
        ← Nat.add_mod]
      ring_nf

/-- **A key is read back.** -/
theorem readUnsignedBigEndian_write (value : UInt64) :
    readUnsignedBigEndian (writeUnsignedBigEndian value) = value := by
  apply UInt64.toNat_inj.mp
  have hlt : value.toNat < 256 ^ 8 := value.toNat_lt
  rw [readUnsignedBigEndian, List.take_of_length_le (by simp), foldl_read,
    writeUnsignedBigEndian_eq, BigEndian.value_bytes_of_lt hlt]
  simp [Nat.mod_eq_of_lt value.toNat_lt]

theorem writeUnsignedBigEndian_inj {a b : UInt64} :
    writeUnsignedBigEndian a = writeUnsignedBigEndian b ↔ a = b := by
  refine ⟨fun h => ?_, fun h => by rw [h]⟩
  rw [← readUnsignedBigEndian_write a, h, readUnsignedBigEndian_write]

/-- **The byte order of the keys is the order of the heights.** -/
theorem writeUnsignedBigEndian_lt {a b : UInt64} :
    writeUnsignedBigEndian a < writeUnsignedBigEndian b ↔ a.toNat < b.toNat := by
  rw [writeUnsignedBigEndian_eq, writeUnsignedBigEndian_eq,
    BigEndian.bytes_lt_bytes_iff a.toNat_lt b.toNat_lt]

@[simp] theorem length_hashBytes (hash : Hash) : (hashBytes hash).length = 32 := by
  simp [hashBytes]

theorem hashOfBytes_hashBytes (hash : Hash) : hashOfBytes (hashBytes hash) = .ok hash := by
  have hlt : hash.toNat < 256 ^ 32 := hash.isLt
  rw [hashOfBytes, if_pos (length_hashBytes hash), hashBytes, BigEndian.value_bytes_of_lt hlt,
    BitVec.ofNat_toNat, BitVec.setWidth_eq]

/-! ## The data database -/

/-- A key with its value. -/
structure Record where
  key : List UInt8
  value : List UInt8
  deriving DecidableEq, Repr

namespace HotstuffLMDB

/-- `put` of the database library: records are kept in ascending order of keys. -/
def putRecord (r : Record) : List Record → List Record
  | [] => [r]
  | d :: ds =>
    if r.key < d.key then r :: d :: ds
    else if r.key = d.key then r :: ds
    else d :: putRecord r ds

/-- `get` of the database library. -/
def getRecord (records : List Record) (key : List UInt8) : Option (List UInt8) :=
  (records.find? fun r => r.key = key).map Record.value

/-- The record that `add_decided_block_` writes. -/
def decidedRecord (height : UInt64) (hash : Hash) (serializedVmBlkId : List UInt8) : Record :=
  ⟨writeUnsignedBigEndian height, hashBytes hash ++ serializedVmBlkId⟩

/-- `add_decided_block_`. -/
def addDecidedBlock_ (records : List Record) (height : UInt64) (hash : Hash)
    (serializedVmBlkId : List UInt8) : List Record :=
  putRecord (decidedRecord height hash serializedVmBlkId) records

/-- `get_decided_hash_id_pair_`: the bytes returned with the hash are the whole value. -/
def getDecidedHashIdPair_ (records : List Record) (height : UInt64) :
    Except String (Option (Hash × List UInt8)) :=
  match getRecord records (writeUnsignedBigEndian height) with
  | none => .ok none
  | some valueBytes => (hashOfBytes (valueBytes.take 32)).map fun hash => some (hash, valueBytes)

/-- `operator*` of the cursor's iterator, on the record it stands on. -/
def derefRecord (r : Record) : Except String (UInt64 × Hash) :=
  (hashOfBytes (r.value.take 32)).map fun hash => (readUnsignedBigEndian r.key, hash)

section
variable {I : Type} (serialize : I → List UInt8) (ofBytes : List UInt8 → Except String I)

/-- `add_decided_block` for identifiers of type `I`. -/
def addDecidedBlock (records : List Record) (height : UInt64) (hash : Hash) (id : I) :
    List Record :=
  addDecidedBlock_ records height hash (serialize id)

/-- `get_decided_hash_id_pair`; `ofBytes` is the constructor of an identifier from bytes. The template in
`lmdb.h` cannot be instantiated as written, since neither of its returns makes the declared optional; what
it is to hand on are the bytes of `get_decided_hash_id_pair_`, which is compiled. -/
def getDecidedHashIdPair (records : List Record) (height : UInt64) :
    Except String (Option (Hash × I)) :=
  match getDecidedHashIdPair_ records height with
  | .error what => .error what
  | .ok none => .ok none
  | .ok (some (hash, bytes)) => (ofBytes bytes).map fun id => some (hash, id)

/-- `get_hs_hash_and_vm_data` of the cursor's iterator, on the record it stands on. -/
def getHsHashAndVmData (r : Record) : Except String (Hash × I) :=
  match hashOfBytes (r.value.take 32) with
  | .error what => .error what
  | .ok hash => (ofBytes (r.value.drop 32)).map fun id => (hash, id)

/-- What calls of `add_decided_block` leave in an empty database. -/
def written (writes : List (UInt64 × Hash × I)) : List Record :=
  writes.foldl (fun records w => addDecidedBlock serialize records w.1 w.2.1 w.2.2) []

end

/-! ## Writes and lookups -/

theorem mem_putRecord {r x : Record} {records : List Record} (h : x ∈ putRecord r records) :
    x = r ∨ x ∈ records := by
  induction records with
  | nil => exact .inl (List.mem_singleton.mp h)
  | cons d ds ih =>
      simp only [putRecord] at h
      split at h
      · exact List.mem_cons.mp h
      · split at h
        · exact (List.mem_cons.mp h).imp_right (List.mem_cons_of_mem d)
        · rcases List.mem_cons.mp h with rfl | hx
          · exact .inr List.mem_cons_self
          · exact (ih hx).imp_right (List.mem_cons_of_mem d)

/-- A database has one record for each key, in ascending order. -/
def Ordered (records : List Record) : Prop := records.Pairwise fun r r' => r.key < r'.key

theorem Ordered.putRecord {r : Record} {records : List Record} (h : Ordered records) :
    Ordered (putRecord r records) := by
  induction records with
  | nil => exact List.pairwise_singleton _ _
  | cons d ds ih =>
      obtain ⟨hd, hds⟩ := List.pairwise_cons.mp h
      simp only [HotstuffLMDB.putRecord]
      split
      · rename_i hlt
        apply List.pairwise_cons.mpr
        refine ⟨fun x hx => ?_, h⟩
        rcases List.mem_cons.mp hx with rfl | hx
        · exact hlt
        · exact List.lt_trans hlt (hd x hx)
      · split
        · rename_i heq
          exact List.pairwise_cons.mpr ⟨fun x hx => heq ▸ hd x hx, hds⟩
        · rename_i hge hne
          have hgt : d.key < r.key := by
            by_contra hnot
            exact hne (List.le_antisymm (List.not_lt.mp hnot) (List.not_lt.mp hge))
          apply List.pairwise_cons.mpr
          refine ⟨fun x hx => ?_, ih hds⟩
          rcases mem_putRecord hx with rfl | hx
          · exact hgt
          · exact hd x hx

/-- The record that was put is in the database. -/
theorem putRecord_self (r : Record) (records : List Record) : r ∈ putRecord r records := by
  induction records with
  | nil => exact List.mem_singleton_self r
  | cons d ds ih =>
      simp only [putRecord]
      split
      · exact List.mem_cons_self
      · split
        · exact List.mem_cons_self
        · exact List.mem_cons_of_mem d ih

/-- A record stays until one is put under its key. -/
theorem mem_putRecord_of_ne {r x : Record} {records : List Record} (h : x ∈ records)
    (hne : x.key ≠ r.key) : x ∈ putRecord r records := by
  induction records with
  | nil => cases h
  | cons d ds ih =>
      simp only [putRecord]
      split
      · exact List.mem_cons_of_mem r h
      · split
        · rename_i heq
          rcases List.mem_cons.mp h with rfl | hx
          · exact absurd heq.symm hne
          · exact List.mem_cons_of_mem r hx
        · rcases List.mem_cons.mp h with rfl | hx
          · exact List.mem_cons_self
          · exact List.mem_cons_of_mem d (ih hx)

/-- Two records of one key are one. -/
theorem Ordered.unique {r r' : Record} {records : List Record} (h : Ordered records)
    (hr : r ∈ records) (hr' : r' ∈ records) (hkey : r.key = r'.key) : r = r' := by
  by_contra hne
  rcases List.pairwise_iff_getElem.mp h with hpair
  obtain ⟨i, hi, rfl⟩ := List.getElem_of_mem hr
  obtain ⟨j, hj, rfl⟩ := List.getElem_of_mem hr'
  rcases Nat.lt_trichotomy i j with hij | rfl | hij
  · exact List.lt_irrefl _ (hkey ▸ hpair i j hi hj hij)
  · exact hne rfl
  · exact List.lt_irrefl _ (hkey ▸ hpair j i hj hi hij)

theorem getRecord_eq {r : Record} {records : List Record} (h : Ordered records)
    (hr : r ∈ records) : getRecord records r.key = some r.value := by
  unfold getRecord
  cases hfind : records.find? fun x => x.key = r.key with
  | none => simpa using List.find?_eq_none.mp hfind r hr
  | some x =>
      have hx := List.find?_some hfind
      rw [h.unique (List.mem_of_find?_eq_some hfind) hr (by simpa using hx)]
      rfl

section
variable {I : Type} (serialize : I → List UInt8)

theorem written_append_singleton (writes : List (UInt64 × Hash × I)) (w : UInt64 × Hash × I) :
    written serialize (writes ++ [w]) =
      addDecidedBlock serialize (written serialize writes) w.1 w.2.1 w.2.2 := by
  unfold written
  rw [List.foldl_append]
  rfl

theorem ordered_written (writes : List (UInt64 × Hash × I)) : Ordered (written serialize writes) := by
  induction writes using List.reverseRecOn with
  | nil => exact List.Pairwise.nil
  | append_singleton writes w ih =>
      rw [written_append_singleton]
      exact ih.putRecord

theorem mem_written_form {writes : List (UInt64 × Hash × I)} {r : Record}
    (hr : r ∈ written serialize writes) :
    ∃ w : UInt64 × Hash × I, r = decidedRecord w.1 w.2.1 (serialize w.2.2) := by
  induction writes using List.reverseRecOn with
  | nil => cases hr
  | append_singleton writes w ih =>
      rw [written_append_singleton] at hr
      rcases mem_putRecord hr with rfl | hr
      · exact ⟨w, rfl⟩
      · exact ih hr

/-- The last write at a height is what the database holds there. -/
theorem mem_written {before after : List (UInt64 × Hash × I)} {height : UInt64} {hash : Hash} {id : I}
    (hafter : ∀ w ∈ after, w.1 ≠ height) :
    decidedRecord height hash (serialize id) ∈
      written serialize (before ++ (height, hash, id) :: after) := by
  induction after using List.reverseRecOn with
  | nil =>
      rw [written_append_singleton]
      exact putRecord_self _ _
  | append_singleton after w ih =>
      have ih' := ih fun x hx => hafter x (List.mem_append_left _ hx)
      rw [← List.cons_append, ← List.append_assoc, written_append_singleton]
      apply mem_putRecord_of_ne ih'
      intro hkey
      have hheight : height = w.1 := writeUnsignedBigEndian_inj.mp hkey
      exact hafter w (by simp) hheight.symm

end

/-! ## The readers -/

/-- The hash of a record that the writer made. -/
theorem hashOfBytes_decidedRecord (height : UInt64) (hash : Hash) (bytes : List UInt8) :
    hashOfBytes ((decidedRecord height hash bytes).value.take 32) = .ok hash := by
  rw [decidedRecord, List.take_left' (length_hashBytes hash), hashOfBytes_hashBytes]

theorem derefRecord_decidedRecord (height : UInt64) (hash : Hash) (bytes : List UInt8) :
    derefRecord (decidedRecord height hash bytes) = .ok (height, hash) := by
  have hkey : readUnsignedBigEndian (decidedRecord height hash bytes).key = height :=
    readUnsignedBigEndian_write height
  rw [derefRecord, hashOfBytes_decidedRecord, hkey]
  rfl

section
variable {I : Type} {serialize : I → List UInt8} {ofBytes : List UInt8 → Except String I}

theorem getHsHashAndVmData_decidedRecord {height : UInt64} {hash : Hash} {id : I}
    (hround : ofBytes (serialize id) = .ok id) :
    getHsHashAndVmData ofBytes (decidedRecord height hash (serialize id)) = .ok (hash, id) := by
  unfold getHsHashAndVmData
  rw [hashOfBytes_decidedRecord]
  simp only [decidedRecord, List.drop_left' (length_hashBytes hash), hround]
  rfl

/-- The point lookup gives the constructor the bytes of the hash as well. -/
theorem getDecidedHashIdPair_eq {records : List Record} {height : UInt64} {hash : Hash} {id : I}
    (hordered : Ordered records)
    (hr : decidedRecord height hash (serialize id) ∈ records) :
    getDecidedHashIdPair ofBytes records height =
      (ofBytes (hashBytes hash ++ serialize id)).map fun id => some (hash, id) := by
  have hget : getRecord records (writeUnsignedBigEndian height) =
      some (hashBytes hash ++ serialize id) := getRecord_eq hordered hr
  simp only [getDecidedHashIdPair, getDecidedHashIdPair_, hget,
    List.take_left' (length_hashBytes hash), hashOfBytes_hashBytes]
  rfl

variable (ofBytes)

/-- Every reader gives back the height, the hash and the identifier: the point lookup, and a cursor
that has come to the height on its way through the records. -/
def ReadersReturn (records : List Record) (height : UInt64) (hash : Hash) (id : I) : Prop :=
  getDecidedHashIdPair ofBytes records height = .ok (some (hash, id)) ∧
    (∃ r ∈ records, derefRecord r = .ok (height, hash)) ∧
    ∀ r ∈ records, readUnsignedBigEndian r.key = height →
      derefRecord r = .ok (height, hash) ∧ getHsHashAndVmData ofBytes r = .ok (hash, id)

variable {ofBytes}

/-- A point lookup that returns the identifier has read it behind the bytes of the hash. -/
theorem parse_of_lookup {records : List Record} {height : UInt64} {hash : Hash} {id : I}
    (hordered : Ordered records) (hr : decidedRecord height hash (serialize id) ∈ records)
    (hpair : getDecidedHashIdPair ofBytes records height = .ok (some (hash, id))) :
    ofBytes (hashBytes hash ++ serialize id) = .ok id := by
  rw [getDecidedHashIdPair_eq hordered hr] at hpair
  cases hparse : ofBytes (hashBytes hash ++ serialize id) with
  | error what =>
      rw [hparse] at hpair
      cases hpair
  | ok id' =>
      rw [hparse] at hpair
      simpa [Except.map] using hpair

/-- **The readers of the index.** The identifier type reads back what it serializes. Then the cursor is
right at every height, and the point lookup is right where the constructor of the identifier does not
mind the bytes of the hash in front of its own. -/
theorem readers_return_iff {before after : List (UInt64 × Hash × I)} {height : UInt64} {hash : Hash}
    {id : I} (hround : ofBytes (serialize id) = .ok id) (hafter : ∀ w ∈ after, w.1 ≠ height) :
    ReadersReturn ofBytes (written serialize (before ++ (height, hash, id) :: after)) height hash id ↔
      ofBytes (hashBytes hash ++ serialize id) = .ok id := by
  have hmem := @mem_written _ serialize before after height hash id hafter
  have hordered := ordered_written serialize (before ++ (height, hash, id) :: after)
  constructor
  · rintro ⟨hpair, -⟩
    exact parse_of_lookup hordered hmem hpair
  · intro hparse
    have hpair : getDecidedHashIdPair ofBytes
        (written serialize (before ++ (height, hash, id) :: after)) height =
          .ok (some (hash, id)) := by
      rw [getDecidedHashIdPair_eq hordered hmem, hparse]
      rfl
    refine ⟨hpair, ⟨_, hmem, derefRecord_decidedRecord height hash _⟩, ?_⟩
    intro r hr hkey
    obtain ⟨w, rfl⟩ := mem_written_form serialize hr
    -- there is one record under a key, so the cursor stands on the one that was written
    have hheight : w.1 = height := (readUnsignedBigEndian_write w.1).symm.trans hkey
    have hsame : decidedRecord w.1 w.2.1 (serialize w.2.2) =
        decidedRecord height hash (serialize id) :=
      hordered.unique hr hmem (congrArg writeUnsignedBigEndian hheight)
    rw [hsame]
    exact ⟨derefRecord_decidedRecord height hash _, getHsHashAndVmData_decidedRecord hround⟩

end

/-- The machine that counts never reads its identifiers behind the bytes of a hash: a message is as long
as the encoding of what it holds. -/
theorem parseId_hashBytes_ne (hash : Hash) (id : Option (List UInt8)) :
    CountingVM.parseId (hashBytes hash ++ CountingVM.serializeId id) ≠ .ok id := by
  have hpos : (hashBytes hash ++ CountingVM.serializeId id).length > 0 := by
    rw [List.length_append, length_hashBytes]
    omega
  rw [CountingVM.parseId, if_pos hpos]
  cases hdecode : Opaque.decode (hashBytes hash ++ CountingVM.serializeId id) with
  | none =>
      rintro ⟨⟩
  | some value =>
      rintro h
      obtain rfl : some value = id := Except.ok.inj h
      have hlength := Opaque.length_of_decode hdecode
      rw [List.length_append, length_hashBytes, CountingVM.serializeId] at hlength
      omega

/-- The identifier of the block `[7]`, and the index with nothing but it. -/
theorem readers_return_iff_counting :
    ReadersReturn CountingVM.parseId
        (written CountingVM.serializeId ([] ++ (1, 0#256, some [7]) :: [])) 1 0#256 (some [7]) ↔
      CountingVM.parseId (hashBytes 0#256 ++ CountingVM.serializeId (some [7])) = .ok (some [7]) :=
  readers_return_iff (by decide) nofun

/-- The point lookup does not return the identifier of the block `[7]`, which reads back what it
serializes. -/
theorem point_lookup_loses_id :
    CountingVM.parseId (CountingVM.serializeId (some [7])) = .ok (some [7]) ∧
      ¬ ReadersReturn CountingVM.parseId (written CountingVM.serializeId [(1, 0#256, some [7])])
        1 0#256 (some [7]) := by
  refine ⟨by decide, ?_⟩
  rintro ⟨hpair, -⟩
  have hmem := @mem_written _ CountingVM.serializeId [] [] 1 0#256 (some [7]) nofun
  exact parseId_hashBytes_ne 0#256 (some [7])
    (parse_of_lookup (ordered_written CountingVM.serializeId _) hmem hpair)

/-! ## The index of a replica -/

/-- The record of an entry. -/
def record (e : IndexEntry) : Record :=
  decidedRecord (UInt64.ofNat e.height) e.hash e.vmBlockId

/-- Writing an entry is writing its record: the keys are in the order of the heights. -/
theorem records_put {e : IndexEntry} {data : List IndexEntry} (he : e.height < 2 ^ 64)
    (hdata : ∀ d ∈ data, d.height < 2 ^ 64) :
    (put e data).map record = putRecord (record e) (data.map record) := by
  induction data with
  | nil => rfl
  | cons d ds ih =>
      have hd : d.height < 2 ^ 64 := hdata d List.mem_cons_self
      have hlt : (record e).key < (record d).key ↔ e.height < d.height := by
        simp only [record, decidedRecord, writeUnsignedBigEndian_lt, UInt64.toNat_ofNat']
        rw [Nat.mod_eq_of_lt he, Nat.mod_eq_of_lt hd]
      have heq : (record e).key = (record d).key ↔ e.height = d.height := by
        simp only [record, decidedRecord, writeUnsignedBigEndian_inj, ← UInt64.toNat_inj,
          UInt64.toNat_ofNat']
        rw [Nat.mod_eq_of_lt he, Nat.mod_eq_of_lt hd]
      simp only [put, List.map_cons, putRecord, hlt, heq,
        ← ih fun x hx => hdata x (List.mem_cons_of_mem d hx)]
      split
      · rfl
      · split <;> rfl

/-- **The index of `Hotstuff/Lmdb` is the index on disk**, parsed. -/
theorem records_addDecidedBlock (tx : Txn) {height : ℕ} (hash : Hash) (vmBlockId : List UInt8)
    (hheight : height < 2 ^ 64) (hdata : ∀ d ∈ tx.data, d.height < 2 ^ 64) :
    (tx.addDecidedBlock height hash vmBlockId).data.map record =
      addDecidedBlock_ (tx.data.map record) (UInt64.ofNat height) hash vmBlockId :=
  records_put hheight hdata

/-- What the loop of the machine's `init_from_disk` reads at an entry. -/
theorem getHsHashAndVmData_record {I : Type} (ofBytes : List UInt8 → Except String I)
    (e : IndexEntry) :
    getHsHashAndVmData ofBytes (record e) = (ofBytes e.vmBlockId).map fun id => (e.hash, id) := by
  unfold getHsHashAndVmData record
  rw [hashOfBytes_decidedRecord]
  simp only [decidedRecord, List.drop_left' (length_hashBytes e.hash)]

end HotstuffLMDB

end Fred.Hotstuff
