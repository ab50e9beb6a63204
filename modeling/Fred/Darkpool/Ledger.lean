/-
# Fred.Darkpool.Ledger -- the ledger behind the REST handlers

What the two REST handlers of the leader (main/test.cc) do with `confirmed_hashes`: the text that an
`/append` body is cut to, the entry that a positive answer adds, and the position that `/get_index`
looks up. Entries are only ever added at the end, so a position, once given, is kept (`getIndex_append`).
-/
import Fred.Lib.Decimal

namespace Fred.Darkpool

open Fred.Decimal

/-- A byte string, `std::string`. -/
abbrev Text := List UInt8

/-! ## `/get_index` -/

/-- The scan of `getIndex`, from position `i`. -/
def getIndexFrom (i : ℕ) : List Text → Text → ℤ
  | [], _ => -1
  | entry :: v, K => if entry = K then i else getIndexFrom (i + 1) v K

/-- The first position of `K`, or `-1`. -/
def getIndex (v : List Text) (K : Text) : ℤ := getIndexFrom 0 v K

/-- The body of the answer to `/get_index`. -/
def get_method_handler (confirmed_hashes : List Text) (hash : Text) : Text :=
  text (getIndex confirmed_hashes hash)

theorem getIndexFrom_eq (i : ℕ) (v : List Text) (K : Text) :
    getIndexFrom i v K = if K ∈ v then ((i + v.idxOf K : ℕ) : ℤ) else -1 := by
  induction v generalizing i with
  | nil => simp [getIndexFrom]
  | cons entry v ih =>
      by_cases heq : entry = K
      · simp [getIndexFrom, heq]
      · have hne : K ≠ entry := fun h => heq h.symm
        have hshift : (entry :: v).idxOf K = v.idxOf K + 1 := by
          rw [List.idxOf_cons, beq_false_of_ne heq, cond_false]
        simp only [getIndexFrom, heq, if_false, ih, List.mem_cons, hne, false_or, hshift]
        congr 2
        omega

/-- **`getIndex` finds the first occurrence.** -/
theorem getIndex_eq (v : List Text) (K : Text) :
    getIndex v K = if K ∈ v then (v.idxOf K : ℤ) else -1 := by
  simp [getIndex, getIndexFrom_eq]

/-- A position is kept when entries are added. -/
theorem getIndex_append {v : List Text} {K : Text} (h : K ∈ v) (w : List Text) :
    getIndex (v ++ w) K = getIndex v K := by
  simp [getIndex_eq, h, List.idxOf_append]

/-! ## `/append` -/

/-- The order hash that `/append` cuts out of a request body: `substr(10)` and two `pop_back`s. The
handler throws on a body of fewer than 10 bytes; on fewer than 12 it pops from an empty string. -/
def hash_string_substr (body : Text) : Option Text :=
  if body.length < 12 then none else some ((body.drop 10).dropLast.dropLast)

/-- What the handler does once the quorum certificate is there or given up: the entry it adds. -/
def push_back (confirmed_hashes : List Text) (hash : Text) (res : Bool) : List Text :=
  if res then confirmed_hashes ++ [hash] else confirmed_hashes

/-- The body of the answer to `/append`. -/
def answer (res : Bool) : Text := if res then ascii "true" else ascii "false"

/-- The body of the client's `/append` request for an order hash of hex digits, comma and digits, which
JSON writes without escapes. -/
def appendBody (hashedOrder : Text) : Text :=
  ascii "\x7b\"order\":\"" ++ hashedOrder ++ ascii "\"\x7d"

/-- The handler cuts the client's body to the order hash. -/
theorem hash_string_substr_appendBody (hashedOrder : Text) :
    hash_string_substr (appendBody hashedOrder) = some hashedOrder := by
  have hopen : (ascii "\x7b\"order\":\"").length = 10 := by decide
  have hclose : ascii "\"\x7d" = [34, 125] := by decide
  have hlength : ¬ (appendBody hashedOrder).length < 12 := by
    simp only [appendBody, List.length_append, hopen, hclose, List.length_cons, List.length_nil]
    omega
  rw [hash_string_substr, if_neg hlength, appendBody, hclose, List.append_assoc,
    List.drop_left' hopen]
  have hsplit : hashedOrder ++ [34, 125] = (hashedOrder ++ [34]) ++ [125] := by simp
  rw [hsplit, List.dropLast_concat, List.dropLast_concat]

end Fred.Darkpool
