import Mathlib.Data.Nat.Digits.Defs
import Mathlib.Tactic.Ring

/-!
# Fixed-width numbers as bytes, low byte first

A number written by value to a byte stream is its low `w` bytes in memory
order. The reader takes however many bytes it was handed and reads them back
the same way, so the two facts worth having are about different widths: a
round trip at the width that was written, and a bound on what any string of
bytes can spell.
-/

namespace LittleEndian

/-- The low `w` bytes of `n`, least significant first. -/
def encode : Nat → Nat → List UInt8
  | 0, _ => []
  | w + 1, n => UInt8.ofNat n :: encode w (n / 256)

/-- The number a string of bytes spells. -/
def decode (bs : List UInt8) : Nat := Nat.ofDigits 256 (bs.map UInt8.toNat)

@[simp] theorem encode_length (w n : Nat) : (encode w n).length = w := by
  induction w generalizing n with
  | zero => rfl
  | succ w ih => rw [encode, List.length_cons, ih]

theorem take_encode (k w n : Nat) : (encode w n).take k = encode (min k w) n := by
  induction w generalizing k n with
  | zero => simp [encode]
  | succ w ih =>
      cases k with
      | zero => simp [encode]
      | succ k => rw [encode, List.take_succ_cons, ih, Nat.succ_min_succ, encode]

theorem encode_ne_nil {w : Nat} (n : Nat) (hw : 0 < w) : encode w n ≠ [] := by
  intro h
  have hlen := encode_length w n
  rw [h] at hlen
  exact absurd hlen (by simp; omega)

@[simp] theorem decode_nil : decode [] = 0 := rfl

theorem decode_cons (b : UInt8) (bs : List UInt8) :
    decode (b :: bs) = b.toNat + 256 * decode bs := by
  simp [decode, Nat.ofDigits_cons]

theorem decode_append (bs cs : List UInt8) :
    decode (bs ++ cs) = decode bs + 256 ^ bs.length * decode cs := by
  simp [decode, Nat.ofDigits_append]

theorem decode_encode (w n : Nat) : decode (encode w n) = n % 256 ^ w := by
  induction w generalizing n with
  | zero => simp [encode, Nat.mod_one]
  | succ w ih =>
      rw [encode, decode_cons, ih, pow_succ, mul_comm (256 ^ w) 256,
        Nat.mod_mul]
      simp

/-- The round trip for a number that fits the width it was written at. -/
theorem decode_encode_of_lt {w n : Nat} (h : n < 256 ^ w) :
    decode (encode w n) = n := by
  rw [decode_encode, Nat.mod_eq_of_lt h]

theorem decode_lt (bs : List UInt8) : decode bs < 256 ^ bs.length := by
  induction bs with
  | nil => simp
  | cons b bs ih =>
      have hb : b.toNat < 256 := b.toNat_lt
      rw [decode_cons, List.length_cons, pow_succ]
      omega

end LittleEndian
