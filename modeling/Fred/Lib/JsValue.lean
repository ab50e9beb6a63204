/-
# Fred.Lib.JsValue -- values of JavaScript and their relational operators

The part of JavaScript that programs comparing parsed JSON rely on: the values such a program meets,
`ToNumber`, truthiness, and the relational operators with their two regimes. Two strings compare by
their UTF-16 code units, everything else compares as numbers, and a comparison with `NaN` is false
whichever operator asks.

The number type `N` and the reading `stringToNumber` of a string as a number are parameters: a reader
takes for `N` the numbers other than `NaN` (a linear order), and `none` for `NaN`.
-/
import Mathlib.Order.WithBot
import Mathlib.Data.Nat.Cast.Defs

namespace Fred.JsValue

/-- The UTF-16 code units of a text, which is what a JavaScript string is. -/
def codeUnits (text : String) : List UInt16 :=
  text.toList.flatMap fun c =>
    if c.toNat < 0x10000 then [c.toNat.toUInt16]
    else [(0xD800 + (c.toNat - 0x10000) / 0x400).toUInt16,
      (0xDC00 + (c.toNat - 0x10000) % 0x400).toUInt16]

/-- A value that a program reads from a parsed JSON text; a field that is not there is `undefined`. An
object or array stands by the string that its conversion to a primitive gives. -/
inductive Value (N : Type*) where
  | undefined
  | null
  | boolean (b : Bool)
  | number (x : N)
  | string (s : List UInt16)
  | object (text : List UInt16)
deriving DecidableEq, Repr

namespace Value

variable {N : Type*}

/-- The string value of a literal in the program's text. -/
def literal (text : String) : Value N :=
  .string (codeUnits text)

def toPrimitive : Value N → Value N
  | .object text => .string text
  | v => v

variable [NatCast N] (stringToNumber : List UInt16 → Option N)

/-- `ToNumber`, where `none` is `NaN`. -/
def toNumber : Value N → Option N
  | .undefined => none
  | .null => some (0 : ℕ)
  | .boolean b => some (b.toNat : ℕ)
  | .number x => some x
  | .string s => stringToNumber s
  | .object text => stringToNumber text

/-- What `!v` negates. -/
def truthy [DecidableEq N] : Value N → Bool
  | .undefined => false
  | .null => false
  | .boolean b => b
  | .number x => x ≠ (0 : ℕ)
  | .string s => s ≠ []
  | .object _ => true

variable [LinearOrder N]

/-- `IsLessThan`, where `none` is the result for a comparison with `NaN`. -/
def isLessThan (v w : Value N) : Option Bool :=
  match v.toPrimitive, w.toPrimitive with
  | .string s, .string t => some (s < t)
  | p, q =>
    match p.toNumber stringToNumber, q.toNumber stringToNumber with
    | some x, some y => some (x < y)
    | _, _ => none

/-- The operator `v < w`. -/
def lt (v w : Value N) : Bool :=
  isLessThan stringToNumber v w == some true

/-- The operator `v > w`. -/
def gt (v w : Value N) : Bool :=
  isLessThan stringToNumber w v == some true

/-- The operator `v >= w`. -/
def ge (v w : Value N) : Bool :=
  isLessThan stringToNumber v w == some false

/-! ## Prices: numbers and numeric strings -/

/-- The number that a number or a numeric string stands for; `⊥` for any other value. -/
def numeric : Value N → WithBot N
  | .number x => x
  | .string s => (stringToNumber s).elim ⊥ WithBot.some
  | _ => ⊥

/-- The value is a number or a string that reads as one. -/
inductive IsNumeric : Value N → Prop
  | number (x : N) : IsNumeric (.number x)
  | string (s : List UInt16) (x : N) (hread : stringToNumber s = some x) : IsNumeric (.string s)

/-- The operator `<` orders the two values as the numbers they stand for, from either side. -/
def OrderedAsNumbers (v w : Value N) : Prop :=
  (lt stringToNumber v w = true ↔ numeric stringToNumber v < numeric stringToNumber w) ∧
    (lt stringToNumber w v = true ↔ numeric stringToNumber w < numeric stringToNumber v)

variable {stringToNumber}

theorem OrderedAsNumbers.symm {v w : Value N} (h : OrderedAsNumbers stringToNumber v w) :
    OrderedAsNumbers stringToNumber w v :=
  ⟨h.2, h.1⟩

/-- Numbers and numeric strings always compare. -/
theorem isLessThan_of_isNumeric {v w : Value N} (hv : IsNumeric stringToNumber v)
    (hw : IsNumeric stringToNumber w) :
    isLessThan stringToNumber v w = some (lt stringToNumber v w) := by
  have hdefined : (isLessThan stringToNumber v w).isSome := by
    obtain x | ⟨s, x, hs⟩ := hv <;> obtain y | ⟨t, y, ht⟩ := hw <;>
      simp [isLessThan, toPrimitive, toNumber, *]
  obtain ⟨r, hr⟩ := Option.isSome_iff_exists.mp hdefined
  simp [lt, hr]

theorem orderedAsNumbers_self (v : Value N) : OrderedAsNumbers stringToNumber v v := by
  have hlt : lt stringToNumber v v = false := by
    cases v <;> simp [lt, isLessThan, toPrimitive, toNumber]
  simp [OrderedAsNumbers, hlt]

/-- **Away from a pair of strings, `<` is the order of the numbers.** -/
theorem orderedAsNumbers_of_number (x : N) {w : Value N} (hw : IsNumeric stringToNumber w) :
    OrderedAsNumbers stringToNumber (.number x) w := by
  obtain y | ⟨t, y, ht⟩ := hw <;>
    simp [OrderedAsNumbers, lt, isLessThan, toPrimitive, toNumber, numeric, *]

/-- `>=` is the order of the numbers wherever `<` is. -/
theorem ge_iff {v w : Value N} (hv : IsNumeric stringToNumber v) (hw : IsNumeric stringToNumber w)
    (h : OrderedAsNumbers stringToNumber v w) :
    ge stringToNumber v w = true ↔ numeric stringToNumber w ≤ numeric stringToNumber v := by
  rw [ge, isLessThan_of_isNumeric hv hw, ← not_lt, ← h.1]
  simp

end Value

end Fred.JsValue
