/-
# Fred.Hotstuff.Consensus -- the consensus core

`consensus.cc`: `update_hqc`, `update`, `on_receive_vote`, `on_receive_proposal`. In `update` the
names are those of the code: `nblk` carries a certificate on `blk2`, `blk2` one on `blk1`, `blk1` one
on `blk`. Its body is cut where the code has a blank line: raising and saving the lock
(`lockAndWrite`), the backward walk that fills the commit queue and the check after it
(`commitQueue`), and the replay of the queue in one transaction (`applyQueue`, `commitBlocks`).
-/
import Fred.Hotstuff.Replica

namespace Fred.Hotstuff

open Fred.Forest

variable {V : Type}

namespace Replica

/-- `update_hqc`, where `qcBlock` is the block `qc` is on. -/
def updateHqc (qcBlock : BlockPtr) (qc : QuorumCertificate) (s : Replica V) : Replica V :=
  if s.heap.height qcBlock > s.heap.height s.hqc.1 then
    { s with hqc := (qcBlock, qc.serialize), bLeaf := qcBlock }
  else s

/-! ## `update` -/

/-- Raise `b_lock` to `blk1` if that is higher, and save the branch of `b_lock`. -/
def lockAndWrite (E : Setup V) (blk1 : BlockPtr) (s : Replica V) : Replica V :=
  let s := if s.heap.height blk1 > s.heap.height s.bLock then { s with bLock := blk1 } else s
  writeToDisk E (s.heap.height s.bLock + 1) s.bLock s

/-- The walk from `blk` down to the height of `b_exec`: the blocks it passes, lowest first, if it ends
at `b_exec`. The walk follows parents of blocks above the height of `b_exec`, which are not null. -/
def commitQueue (blk : BlockPtr) (s : Replica V) : Except (Exn × Replica V) (List BlockPtr) :=
  match walkDown s.heap.parent s.heap.height (s.heap.height s.bExec) (s.heap.height blk) blk with
  | none => .error (.nullPointer, s)
  | some (queue, b) =>
    if b ≠ s.bExec then .error (.runtimeError "safety breached", s) else .ok queue.reverse

/-- `blk -> decide()`. -/
def decideBlock (blk : BlockPtr) (s : Replica V) : Replica V :=
  { s with heap := s.heap.modify blk fun b => { b with decided := true } }

/-- The loop over the commit queue. The collector can run before each block. -/
def applyQueue (E : Setup V) : List BlockPtr → HotstuffLMDB.Txn → Replica V →
    Except (Exn × Replica V) (HotstuffLMDB.Txn × Replica V)
  | [], tx, s => .ok (tx, s)
  | b :: queue, tx, s =>
    match applyBlock E b tx (decideBlock b s.pause) with
    | .error e => .error e
    | .ok (tx, s) =>
      match notifyVmOfCommitment E b s with
      | .error e => .error e
      | .ok s => applyQueue E queue tx s

/-- From `open_txn` to the end of `update`. -/
def commitBlocks (E : Setup V) (blk1 blk : BlockPtr) (queue : List BlockPtr) (s : Replica V) :
    Result V :=
  match applyQueue E queue s.decidedHashIndex.openTxn s with
  | .error e => .error e
  | .ok (tx, s) =>
    let s := { s with bExec := blk }
    let tx := tx.setQcOnTopBlock (s.heap.get blk1).getJustifyQc.serialize
    let s := { s with decidedHashIndex := s.decidedHashIndex.commit tx }
    .ok (notifyOkToPruneBlocks (s.heap.height s.bExec) s)

def update (E : Setup V) (nblk : BlockPtr) (s : Replica V) : Result V :=
  match s.heap.justify nblk with
  | none => .ok s  -- only occurs in case of genesis block
  | some blk2 =>
    if (s.heap.get blk2).decided then .ok s
    else
      let s := updateHqc blk2 (s.heap.get nblk).getJustifyQc s
      match s.heap.justify blk2 with
      | none => .ok s
      | some blk1 =>
        if (s.heap.get blk1).decided then .ok s
        else
          let s := lockAndWrite E blk1 s
          match s.heap.justify blk1 with
          | none => .ok s
          | some blk =>
            if (s.heap.get blk).decided then .ok s
            -- commit requires direct parent
            else if s.heap.parent blk2 ≠ some blk1 ∨ s.heap.parent blk1 ≠ some blk then .ok s
            else
              match commitQueue blk s with
              | .error e => .error e
              | .ok queue => commitBlocks E blk1 blk queue s

/-! ## The two event handlers -/

def setSelfQc (p : BlockPtr) (qc : QuorumCertificate) (s : Replica V) : Replica V :=
  { s with heap := s.heap.modify p fun b => { b with selfQc := qc } }

def onReceiveVote (E : Setup V) (partialCert : PartialCertificateWire) (certifiedBlock : BlockPtr)
    (voterid : ReplicaID) (s : Replica V) : Result V :=
  let selfQc := (s.heap.get certifiedBlock).selfQc
  match selfQc.addPartialCertificate voterid partialCert with
  | .error e => .error (e, s)
  | .ok qc =>
    let s := setSelfQc certifiedBlock qc s
    if qc.hasQuorum E.config && !selfQc.hasQuorum E.config then
      .ok (onNewQc (s.heap.hash certifiedBlock) (updateHqc certifiedBlock qc s))
    else .ok s

/-- The vote test of `on_receive_proposal` past the height test: the certificate is on a block above
`b_lock`, or the walk from `bnew` down to the height of `b_lock` ends at `b_lock`. A null pointer is
followed only by a block that was never inserted. -/
def opinion (bnew : BlockPtr) (s : Replica V) : Except (Exn × Replica V) Bool :=
  match s.heap.justify bnew with
  | none => .error (.nullPointer, s)
  | some justifyBlock =>
    if s.heap.height justifyBlock > s.heap.height s.bLock then .ok true
    else
      match walkDown s.heap.parent s.heap.height (s.heap.height s.bLock) (s.heap.height bnew) bnew
        with
      | none => .error (.nullPointer, s)
      | some (_, b) => .ok (b == s.bLock)

/-- The part of `on_receive_proposal` before `update`. -/
def voteOnProposal (E : Setup V) (bnew : BlockPtr) (proposer : ReplicaID) (s : Replica V) :
    Result V :=
  if s.heap.height bnew > s.vheight.toNat then
    match opinion bnew s with
    | .error e => .error e
    | .ok true =>
      -- a `uint64_t` is assigned to a `uint32_t`
      doVote E bnew proposer { s with vheight := BitVec.ofNat 32 (s.heap.height bnew) }
    | .ok false => .ok s
  else .ok s

def onReceiveProposal (E : Setup V) (bnew : BlockPtr) (proposer : ReplicaID) (s : Replica V) :
    Result V :=
  match voteOnProposal E bnew proposer s with
  | .error e => .error e
  | .ok s => update E bnew s

end Replica

end Fred.Hotstuff
