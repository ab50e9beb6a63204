/-
# Fred.Vm.Machine -- the virtual machine, as the bridges see it

The bridges are templates over a `VMType`. `VMType` lists what they use of it: the parser of block
bodies, the identifiers of blocks, and the calls on a machine, as functions on its state. A `block_id`
is null, which is what `empty_block_id` gives and `operator bool` tells, or stands for a block.
`exec_block(*blk_value)` on a null pointer is not defined by the language; `execNull` stands for
whatever the machine does then.

A machine that also writes down the calls it gets is again a `VMType` (`recorded`), which is how a
statement speaks of the calls a bridge makes.
-/
import Fred.Hotstuff.Lmdb

namespace Fred.Hotstuff

/-- What the bridges use of a `VMType` with blocks `B`, block identifiers `I` and states `σ`. -/
structure VMType (B I σ : Type) where
  /-- `xdr_from_opaque` to a block, `none` where it throws. -/
  parse : List UInt8 → Option B
  /-- `xdr_to_opaque` of a block. -/
  toOpaque : B → List UInt8
  nonemptyBlockId : B → I
  serialize : Option I → List UInt8
  /-- The machine as it is constructed. -/
  fresh : σ
  initClean : σ → σ
  initFromDisk : HotstuffLMDB → (Hash → Option HotstuffBlockWire) → σ → Except String σ
  propose : σ → Option B × σ
  execBlock : B → σ → σ
  /-- `exec_block` on what a null pointer points to. -/
  execNull : σ → Except String σ
  logCommitment : I → σ → σ
  rewindToLastCommit : σ → σ

/-- A call a machine gets from a bridge. -/
inductive VmCall (B I : Type) where
  /-- `exec_block`; `none` is a null block. -/
  | exec (blk : Option B)
  | logCommitment (id : I)
  | propose
  | rewind
  deriving DecidableEq, Repr

namespace VMType

variable {B I σ : Type} (M : VMType B I σ)

/-- `try_vm_parse`: null for an empty body and for one that does not parse. -/
def tryVmParse (body : List UInt8) : Option B := if body.length > 0 then M.parse body else none

/-- `get_block_id` of a bridge. -/
def getBlockId : Option B → Option I
  | some blk => some (M.nonemptyBlockId blk)
  | none => none

/-- The machine with a record of the calls it gets. -/
def recorded : VMType B I (σ × List (VmCall B I)) where
  parse := M.parse
  toOpaque := M.toOpaque
  nonemptyBlockId := M.nonemptyBlockId
  serialize := M.serialize
  fresh := (M.fresh, [])
  initClean := fun s => (M.initClean s.1, s.2)
  initFromDisk := fun index files s => (M.initFromDisk index files s.1).map (·, s.2)
  propose := fun s => ((M.propose s.1).1, (M.propose s.1).2, s.2 ++ [.propose])
  execBlock := fun blk s => (M.execBlock blk s.1, s.2 ++ [.exec (some blk)])
  execNull := fun s => (M.execNull s.1).map (·, s.2 ++ [.exec none])
  logCommitment := fun id s => (M.logCommitment id s.1, s.2 ++ [.logCommitment id])
  rewindToLastCommit := fun s => (M.rewindToLastCommit s.1, s.2 ++ [.rewind])

@[simp] theorem recorded_tryVmParse (body : List UInt8) :
    M.recorded.tryVmParse body = M.tryVmParse body := rfl

@[simp] theorem recorded_getBlockId (blk : Option B) :
    M.recorded.getBlockId blk = M.getBlockId blk := by
  cases blk <;> rfl

@[simp] theorem tryVmParse_nil : M.tryVmParse [] = none := rfl

theorem parse_of_tryVmParse {body : List UInt8} {blk : B} (h : M.tryVmParse body = some blk) :
    M.parse body = some blk := by
  unfold tryVmParse at h
  split at h
  · exact h
  · cases h

/-- The blocks of the bodies that parse, in order. -/
def parsed (bodies : List (List UInt8)) : List B := bodies.filterMap M.tryVmParse

@[simp] theorem parsed_nil : M.parsed [] = [] := rfl

theorem parsed_append (bodies bodies' : List (List UInt8)) :
    M.parsed (bodies ++ bodies') = M.parsed bodies ++ M.parsed bodies' :=
  List.filterMap_append

theorem parsed_concat (bodies : List (List UInt8)) (body : List UInt8) :
    M.parsed (bodies ++ [body]) = M.parsed bodies ++ (M.tryVmParse body).toList := by
  rw [parsed_append]
  cases h : M.tryVmParse body <;> simp [parsed, h]

/-- Where every body parses, the parsed blocks are all there is. -/
theorem map_parsed {bodies : List (List UInt8)} (h : ∀ body ∈ bodies, M.tryVmParse body ≠ none) :
    (M.parsed bodies).map some = bodies.map M.tryVmParse := by
  induction bodies with
  | nil => rfl
  | cons body bodies ih =>
      obtain ⟨blk, hblk⟩ := Option.ne_none_iff_exists'.mp (h body List.mem_cons_self)
      have ih' := ih fun body' hbody' => h body' (List.mem_cons_of_mem _ hbody')
      unfold parsed at ih' ⊢
      rw [List.filterMap_cons_some hblk, List.map_cons, ih', List.map_cons, hblk]

end VMType

end Fred.Hotstuff
