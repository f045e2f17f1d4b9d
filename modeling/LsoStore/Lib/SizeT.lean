import Mathlib.Algebra.GroupWithZero.Nat
import Mathlib.Data.Nat.Basic

/-!
# Unsigned 64-bit arithmetic

`size_t` values as naturals below `2 ^ 64`, with the sum, the difference and the
product taken modulo it. The two laws at the end are the ones a proof needs: the
operations are the ordinary ones as long as nothing wraps, and adding a
wrapped difference comes back to the integer answer.
-/

namespace SizeT

/-- One past the largest `size_t`. -/
def bound : Nat := 2 ^ 64

def add (a b : Nat) : Nat := (a + b) % bound

def sub (a b : Nat) : Nat := (a + (bound - b % bound)) % bound

def mul (a b : Nat) : Nat := a * b % bound

theorem add_of_lt {a b : Nat} (h : a + b < bound) : add a b = a + b :=
  Nat.mod_eq_of_lt h

theorem mul_of_lt {a b : Nat} (h : a * b < bound) : mul a b = a * b :=
  Nat.mod_eq_of_lt h

theorem sub_of_le {a b : Nat} (hab : b ≤ a) (ha : a < bound) : sub a b = a - b := by
  have hb : b % bound = b := Nat.mod_eq_of_lt (by omega)
  have h : a + (bound - b) = (a - b) + bound := by omega
  rw [sub, hb, h, Nat.add_mod_right, Nat.mod_eq_of_lt (by omega)]

/-- A difference that wrapped is undone by the sum: the result is the exact
one whenever that fits. -/
theorem add_sub_of_le {a b c : Nat} (hc : c ≤ a) (ha : a < bound)
    (h : a - c + b < bound) : add a (sub b c) = a - c + b := by
  have hcb : c % bound = c := Nat.mod_eq_of_lt (by omega)
  rw [add, sub, hcb, Nat.add_mod_mod]
  have hsum : a + (b + (bound - c)) = (a - c + b) + bound := by omega
  rw [hsum, Nat.add_mod_right, Nat.mod_eq_of_lt h]

end SizeT
