/-
# Fred.Lib.BigEndian -- numbers as bytes, highest byte first

Fixed-width big-endian numbers. Writing and reading are inverse at every width, and on strings of one
length the byte-wise lexicographic order is the order of the numbers, which is what lets such strings
serve as the keys of an ordered store.
-/
import Mathlib.Data.List.Basic
import Mathlib.Tactic.Common
import Mathlib.Tactic.Ring

namespace Fred.BigEndian

/-- The low `width` bytes of a number. -/
def bytes : ℕ → ℕ → List UInt8
  | 0, _ => []
  | width + 1, n => UInt8.ofNat (n / 256 ^ width) :: bytes width n

/-- The number a byte string stands for. -/
def value : List UInt8 → ℕ
  | [] => 0
  | b :: bs => b.toNat * 256 ^ bs.length + value bs

@[simp] theorem length_bytes (width n : ℕ) : (bytes width n).length = width := by
  induction width with
  | zero => rfl
  | succ width ih => simp [bytes, ih]

theorem value_lt (bs : List UInt8) : value bs < 256 ^ bs.length := by
  induction bs with
  | nil => simp [value]
  | cons b bs ih =>
      have hb : b.toNat < 256 := b.toNat_lt
      calc b.toNat * 256 ^ bs.length + value bs
          < b.toNat * 256 ^ bs.length + 256 ^ bs.length := Nat.add_lt_add_left ih _
        _ = (b.toNat + 1) * 256 ^ bs.length := by ring
        _ ≤ 256 * 256 ^ bs.length := Nat.mul_le_mul_right _ hb
        _ = 256 ^ (bs.length + 1) := by ring

/-- Reading after writing keeps the low bytes. -/
theorem value_bytes (width n : ℕ) : value (bytes width n) = n % 256 ^ width := by
  induction width with
  | zero => simp [bytes, value, Nat.mod_one]
  | succ width ih =>
      have htop : (UInt8.ofNat (n / 256 ^ width)).toNat = n / 256 ^ width % 256 := by
        simp [UInt8.toNat_ofNat']
      rw [bytes, value, length_bytes, ih, htop, pow_succ, Nat.mod_mul]
      ring

theorem value_bytes_of_lt {width n : ℕ} (h : n < 256 ^ width) : value (bytes width n) = n := by
  rw [value_bytes, Nat.mod_eq_of_lt h]

/-- **The order of the keys is the order of the numbers.** -/
theorem value_lt_value_iff {bs cs : List UInt8} (hlength : bs.length = cs.length) :
    value bs < value cs ↔ bs < cs := by
  induction bs generalizing cs with
  | nil => simp [List.length_eq_zero_iff.mp hlength.symm, value]
  | cons b bs ih =>
      obtain _ | ⟨c, cs⟩ := cs
      · simp at hlength
      · have hlen : bs.length = cs.length := by simpa using hlength
        have hbs := value_lt bs
        have hcs := value_lt cs
        rw [List.cons_lt_cons_iff, ← ih hlen]
        simp only [value]
        rw [hlen] at hbs ⊢
        rw [UInt8.lt_iff_toNat_lt, ← UInt8.toNat_inj]
        rcases Nat.lt_trichotomy b.toNat c.toNat with hbc | hbc | hbc
        · -- a smaller first byte cannot be made up for
          have hstep : (b.toNat + 1) * 256 ^ cs.length ≤ c.toNat * 256 ^ cs.length :=
            Nat.mul_le_mul_right _ hbc
          rw [Nat.add_mul, Nat.one_mul] at hstep
          simp only [hbc, true_or, iff_true]
          omega
        · simp [hbc]
        · have hstep : (c.toNat + 1) * 256 ^ cs.length ≤ b.toNat * 256 ^ cs.length :=
            Nat.mul_le_mul_right _ hbc
          rw [Nat.add_mul, Nat.one_mul] at hstep
          simp only [Nat.not_lt.mpr (Nat.le_of_lt hbc), Nat.ne_of_gt hbc, false_and, or_self,
            iff_false]
          omega

/-- Strings of one length that stand for one number are equal. -/
theorem value_injective {bs cs : List UInt8} (hlength : bs.length = cs.length)
    (h : value bs = value cs) : bs = cs := by
  have hbs := mt (value_lt_value_iff hlength).mpr (Nat.not_lt.mpr h.ge)
  have hcs := mt (value_lt_value_iff hlength.symm).mpr (Nat.not_lt.mpr h.le)
  exact List.le_antisymm (List.not_lt.mp hcs) (List.not_lt.mp hbs)

/-- Writing after reading gives the string back. -/
theorem bytes_value {width : ℕ} {bs : List UInt8} (hlength : bs.length = width) :
    bytes width (value bs) = bs := by
  have hlt : value bs < 256 ^ width := hlength ▸ value_lt bs
  exact value_injective ((length_bytes _ _).trans hlength.symm) (value_bytes_of_lt hlt)

theorem bytes_lt_bytes_iff {width m n : ℕ} (hm : m < 256 ^ width) (hn : n < 256 ^ width) :
    bytes width m < bytes width n ↔ m < n := by
  rw [← value_lt_value_iff (by simp), value_bytes_of_lt hm, value_bytes_of_lt hn]

/-! ## The loops of a writer and of a reader -/

/-- A writer that computes each byte by a shift. -/
theorem bytes_eq_map (width n : ℕ) :
    bytes width n = (List.range width).map fun loc => UInt8.ofNat (n / 256 ^ (width - loc - 1)) := by
  induction width with
  | zero => rfl
  | succ width ih =>
      rw [List.range_succ_eq_map, List.map_cons, List.map_map, bytes, ih]
      simp only [Nat.sub_zero, Nat.add_sub_cancel, List.cons.injEq, true_and]
      apply List.map_congr_left
      intro loc _
      rw [Function.comp_apply, Nat.succ_eq_add_one, Nat.add_sub_add_right]

end Fred.BigEndian
