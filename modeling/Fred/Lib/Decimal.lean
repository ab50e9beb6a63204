/-
# Fred.Lib.Decimal -- integers as decimal text

Byte strings that spell an integer in decimal, as standard libraries print it: digits highest first, no
leading zero, a minus sign before a negative number. Reading the text of an integer gives it back
(`read_text`), whatever the integer.
-/
import Mathlib.Data.Nat.Digits.Defs
import Mathlib.Tactic.Common

namespace Fred.Decimal

/-- The bytes of a text of ASCII characters. -/
def ascii (text : String) : List UInt8 :=
  text.toList.map fun c => UInt8.ofNat c.toNat

/-! ## Natural numbers -/

/-- The byte of a digit. -/
def digit (d : ℕ) : UInt8 := UInt8.ofNat (48 + d)

def isDigit (c : UInt8) : Bool := 48 ≤ c && c ≤ 57

/-- The decimal text of a natural number. -/
def naturalText (n : ℕ) : List UInt8 :=
  if n = 0 then [digit 0] else ((Nat.digits 10 n).map digit).reverse

/-- The natural number that a text spells. -/
def readNatural (text : List UInt8) : Option ℕ :=
  if text ≠ [] ∧ text.all isDigit then
    some (Nat.ofDigits 10 (text.reverse.map fun c => c.toNat - 48))
  else none

theorem toNat_digit {d : ℕ} (hd : d < 10) : (digit d).toNat = 48 + d := by
  rw [digit, UInt8.toNat_ofNat']
  omega

theorem isDigit_digit {d : ℕ} (hd : d < 10) : isDigit (digit d) = true := by
  have hnat := toNat_digit hd
  simp only [isDigit, Bool.and_eq_true, decide_eq_true_eq, UInt8.le_iff_toNat_le, hnat]
  exact ⟨Nat.le_add_right _ _, show 48 + d ≤ 57 by omega⟩

/-- Reading the digits of a number back. -/
theorem readNatural_digits {ds : List ℕ} (hne : ds ≠ []) (hlt : ∀ d ∈ ds, d < 10) :
    readNatural (ds.map digit).reverse = some (Nat.ofDigits 10 ds) := by
  have hall : (ds.map digit).reverse.all isDigit = true := by
    simp only [List.all_reverse, List.all_map, List.all_eq_true, Function.comp_apply]
    exact fun d hd => isDigit_digit (hlt d hd)
  have hback : (ds.map digit).map (fun c => c.toNat - 48) = ds := by
    rw [List.map_map]
    conv_rhs => rw [← List.map_id ds]
    apply List.map_congr_left
    intro d hd
    simp [toNat_digit (hlt d hd)]
  rw [readNatural, if_pos ⟨by simpa using hne, hall⟩, List.reverse_reverse, hback]

@[simp] theorem readNatural_naturalText (n : ℕ) : readNatural (naturalText n) = some n := by
  unfold naturalText
  split
  · rename_i hzero
    rw [hzero]
    rfl
  · rename_i hne
    rw [readNatural_digits (Nat.digits_ne_nil_iff_ne_zero.mpr hne)
      (fun d hd => Nat.digits_lt_base (by omega) hd), Nat.ofDigits_digits]

/-- The text of a natural number starts with a digit. -/
theorem isDigit_of_mem_naturalText {n : ℕ} {c : UInt8} (hc : c ∈ naturalText n) :
    isDigit c = true := by
  have hread := readNatural_naturalText n
  unfold readNatural at hread
  split at hread
  · rename_i h
    exact List.all_eq_true.mp h.2 c hc
  · cases hread

/-! ## Integers -/

/-- The decimal text of an integer. -/
def text : ℤ → List UInt8
  | .ofNat n => naturalText n
  | .negSucc n => 45 :: naturalText (n + 1)

/-- The integer that a text spells. -/
def read : List UInt8 → Option ℤ
  | 45 :: digits => (readNatural digits).map fun n : ℕ => -(n : ℤ)
  | digits => (readNatural digits).map Int.ofNat

theorem read_of_isDigit {digits : List UInt8} (h : ∀ c ∈ digits, isDigit c = true) :
    read digits = (readNatural digits).map Int.ofNat := by
  unfold read
  split
  · -- a minus sign is no digit
    have hminus := h 45 List.mem_cons_self
    simp [isDigit] at hminus
  · rfl

/-- **Reading the text of an integer gives it back.** -/
@[simp] theorem read_text (n : ℤ) : read (text n) = some n := by
  cases n with
  | ofNat n =>
      rw [text, read_of_isDigit fun c hc => isDigit_of_mem_naturalText hc]
      simp
  | negSucc n =>
      simp only [text, read, readNatural_naturalText, Option.map_some, Option.some.injEq]
      exact (Int.negSucc_eq n).symm

end Fred.Decimal
