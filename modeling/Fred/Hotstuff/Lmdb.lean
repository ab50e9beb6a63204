/-
# Fred.Hotstuff.Lmdb -- the index of decided blocks

`lmdb.cc`, over the parts of `lmdb/lmdb_wrapper.cc` it uses. The data database maps a height to a
block hash followed by the serialized identifier of the block in the virtual machine. Its keys are
big-endian, so that a cursor meets them in ascending order: it is a list of entries in ascending
order of height. A write transaction is a copy of the database that replaces it on commit, which
makes a commit atomic and durable.
-/
import Fred.Hotstuff.Types
import Mathlib.Data.List.Basic

namespace Fred.Hotstuff

structure IndexEntry where
  height : ℕ
  hash : Hash
  vmBlockId : List UInt8
  deriving DecidableEq, Repr

structure HotstuffLMDB where
  /-- The data database. -/
  data : List IndexEntry
  /-- The entry `qc` of the metadata database. -/
  qc : Option QuorumCertificateWire
  /-- The entry `persisted block` of the metadata database, absent before `create_db`. -/
  persistedRound : Option ℕ
  deriving DecidableEq, Repr

namespace HotstuffLMDB

/-- A data directory nothing was written to. -/
def fresh : HotstuffLMDB := ⟨[], none, none⟩

def getPersistedRoundNumber (db : HotstuffLMDB) : ℕ := db.persistedRound.getD 0

def createDb (db : HotstuffLMDB) : Except Exn HotstuffLMDB :=
  match db.persistedRound with
  | some (_ + 1) => .error (.runtimeError "database already existed, can't create new")
  | _ => .ok { db with persistedRound := some 0 }

def openDb (db : HotstuffLMDB) : Except Exn HotstuffLMDB :=
  match db.persistedRound with
  | none => .error (.runtimeError "missing metadata contents")
  | some _ => .ok db

/-- A write transaction: what the databases will hold. -/
structure Txn where
  data : List IndexEntry
  qc : Option QuorumCertificateWire
  deriving DecidableEq, Repr

/-- `tx.put` on keys in ascending order: an entry of the same height is replaced. -/
def put (e : IndexEntry) : List IndexEntry → List IndexEntry
  | [] => [e]
  | d :: ds =>
    if e.height < d.height then e :: d :: ds
    else if e.height = d.height then e :: ds
    else d :: put e ds

def openTxn (db : HotstuffLMDB) : Txn := ⟨db.data, db.qc⟩

def Txn.addDecidedBlock (tx : Txn) (height : ℕ) (hash : Hash) (vmBlockId : List UInt8) : Txn :=
  { tx with data := put ⟨height, hash, vmBlockId⟩ tx.data }

def Txn.setQcOnTopBlock (tx : Txn) (qc : QuorumCertificateWire) : Txn := { tx with qc := some qc }

def commit (db : HotstuffLMDB) (tx : Txn) : HotstuffLMDB :=
  ⟨tx.data, tx.qc, some (db.getPersistedRoundNumber + 1)⟩

def getHighestQc (db : HotstuffLMDB) : Except Exn QuorumCertificateWire :=
  match db.qc with
  | none => .error (.runtimeError "failed to get highest qc when loading from db")
  | some qc => .ok qc

/-- Above every key of the database, `put` appends. -/
theorem put_of_lt {e : IndexEntry} :
    ∀ {ds : List IndexEntry}, (∀ d ∈ ds, d.height < e.height) → put e ds = ds ++ [e]
  | [], _ => rfl
  | d :: ds, h => by
      have hd : d.height < e.height := h d List.mem_cons_self
      have hds : put e ds = ds ++ [e] := put_of_lt fun x hx => h x (List.mem_cons_of_mem _ hx)
      simp [put, Nat.not_lt.mpr (Nat.le_of_lt hd), Nat.ne_of_gt hd, hds]

/-- Writing ascending keys above those of the database appends the entries. -/
theorem foldl_put {es : List IndexEntry} :
    ∀ {ds : List IndexEntry}, (ds ++ es).Pairwise (fun d e => d.height < e.height) →
      es.foldl (fun data e => put e data) ds = ds ++ es := by
  induction es with
  | nil =>
      intro ds _
      rw [List.append_nil]
      rfl
  | cons e es ih =>
      intro ds h
      have hlt : ∀ d ∈ ds, d.height < e.height := by
        intro d hd
        exact (List.pairwise_append.mp h).2.2 d hd e List.mem_cons_self
      rw [List.append_cons] at h
      rw [List.foldl_cons, put_of_lt hlt, ih h, ← List.append_cons]

end HotstuffLMDB

end Fred.Hotstuff
