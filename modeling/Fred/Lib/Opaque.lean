/-
# Fred.Lib.Opaque -- variable-length opaque data

The marshaling of a byte string in XDR (RFC 4506, 4.10): the length as four bytes in big-endian order,
the bytes, and zero bytes up to a multiple of four. The decoder takes a whole message and is strict:
whatever does not end with the padding is refused.
-/
import Mathlib.Algebra.Group.Nat.Defs
import Mathlib.Data.List.Basic
import Mathlib.Tactic.Common

namespace Fred.Opaque

/-- Four bytes in big-endian order. -/
def put32 (n : ℕ) : List UInt8 :=
  [UInt8.ofNat (n / 2 ^ 24), UInt8.ofNat (n / 2 ^ 16), UInt8.ofNat (n / 2 ^ 8), UInt8.ofNat n]

def get32 : List UInt8 → Option (ℕ × List UInt8)
  | a :: b :: c :: d :: rest =>
    some (a.toNat * 2 ^ 24 + b.toNat * 2 ^ 16 + c.toNat * 2 ^ 8 + d.toNat, rest)
  | _ => none

/-- The zero bytes after `n` bytes. -/
def padding (n : ℕ) : List UInt8 := List.replicate ((4 - n % 4) % 4) 0

def encode (bytes : List UInt8) : List UInt8 :=
  put32 bytes.length ++ bytes ++ padding bytes.length

/-- The value of a whole message. -/
def decode (message : List UInt8) : Option (List UInt8) :=
  if message.length % 4 ≠ 0 then none
  else match get32 message with
    | none => none
    | some (size, rest) =>
      if size > rest.length then none
      else if rest.drop size ≠ padding size then none
      else some (rest.take size)

theorem get32_put32 {n : ℕ} (h : n < 2 ^ 32) (rest : List UInt8) :
    get32 (put32 n ++ rest) = some (n, rest) := by
  unfold put32
  simp only [List.cons_append, List.nil_append, get32, UInt8.toNat_ofNat', Option.some.injEq,
    Prod.mk.injEq, and_true]
  omega

theorem encode_ne_nil (bytes : List UInt8) : encode bytes ≠ [] := by
  unfold encode put32
  simp

theorem length_encode (bytes : List UInt8) :
    (encode bytes).length = 4 + bytes.length + (4 - bytes.length % 4) % 4 := by
  unfold encode put32 padding
  simp only [List.length_append, List.length_cons, List.length_nil, List.length_replicate]

/-- **Round trip.** -/
theorem decode_encode {bytes : List UInt8} (h : bytes.length < 2 ^ 32) :
    decode (encode bytes) = some bytes := by
  have hlength : (encode bytes).length % 4 = 0 := by
    rw [length_encode]
    omega
  unfold decode
  rw [if_neg (not_not_intro hlength), encode, List.append_assoc, get32_put32 h]
  dsimp only
  rw [if_neg (by simp), List.drop_left, if_neg (not_not_intro rfl), List.take_left]

/-- What a message that decodes looks like behind its first four bytes. -/
theorem get32_of_decode {message bytes : List UInt8} (h : decode message = some bytes) :
    get32 message = some (bytes.length, bytes ++ padding bytes.length) := by
  unfold decode at h
  split at h
  · cases h
  · split at h
    · cases h
    · rename_i size rest hget
      split at h
      · cases h
      · rename_i hsize
        split at h
        · cases h
        · rename_i hpadding
          have hlength : (rest.take size).length = size :=
            List.length_take_of_le (Nat.not_lt.mp hsize)
          rw [hget, ← Option.some.inj h, hlength, ← Decidable.not_not.mp hpadding,
            List.take_append_drop]

theorem get32_eq_some {message rest : List UInt8} {n : ℕ} (h : get32 message = some (n, rest)) :
    n < 2 ^ 32 ∧ message.length = 4 + rest.length := by
  unfold get32 at h
  split at h
  · rename_i a b c d _
    simp only [Option.some.injEq, Prod.mk.injEq] at h
    have ha := a.toNat_lt
    have hb := b.toNat_lt
    have hc := c.toNat_lt
    have hd := d.toNat_lt
    simp only [List.length_cons, h.2]
    omega
  · cases h

/-- A value that comes out of a message can be put into one. -/
theorem length_lt_of_decode {message bytes : List UInt8} (h : decode message = some bytes) :
    bytes.length < 2 ^ 32 := (get32_eq_some (get32_of_decode h)).1

/-- A message is as long as the encoding of what comes out of it. -/
theorem length_of_decode {message bytes : List UInt8} (h : decode message = some bytes) :
    message.length = (encode bytes).length := by
  rw [(get32_eq_some (get32_of_decode h)).2, length_encode, List.length_append, padding,
    List.length_replicate, Nat.add_assoc]

end Fred.Opaque
