import Mathlib.Algebra.GroupWithZero.Nat
import LsoStore.Lib.PrefixOrder
import Mathlib.Data.List.TakeWhile

/-!
# Strings and their comparison

A C string is the bytes before its terminator. `suStringCompare` is the
comparator every table of paths is built with: `strncmp` over the shorter of
the two lengths, so it says 0 as soon as one string is a prefix of the other.
The lemmas at the end put it in terms of `PrefixOrder.compare`.
-/

namespace LsoStore

/-- Bytes in numeric order, on the comparisons the core library defines. -/
instance byteLinearOrder : LinearOrder UInt8 where
  le_refl := UInt8.le_refl
  le_trans _ _ _ := UInt8.le_trans
  lt_iff_le_not_ge a b := by
    rw [UInt8.lt_iff_toNat_lt, UInt8.le_iff_toNat_le, UInt8.le_iff_toNat_le]
    omega
  le_antisymm _ _ := UInt8.le_antisymm
  le_total := UInt8.le_total
  toDecidableLE := inferInstance
  toDecidableEq := inferInstance
  toDecidableLT := inferInstance

/-- A string as a caller passes it: no terminator inside. -/
abbrev CStr := { s : List UInt8 // (0 : UInt8) ∉ s }

/-- The string in a zero-filled buffer that received `buf`. -/
def cString (buf : List UInt8) : List UInt8 := buf.takeWhile (· ≠ 0)

theorem not_mem_cString (s : List UInt8) : (0 : UInt8) ∉ cString s := fun h => by
  simpa using List.mem_takeWhile_imp h

theorem length_cString_le (s : List UInt8) : (cString s).length ≤ s.length :=
  (List.takeWhile_prefix _).length_le

theorem cString_of_not_mem {s : List UInt8} (h : (0 : UInt8) ∉ s) : cString s = s := by
  refine List.takeWhile_eq_self_iff.mpr fun b hb => ?_
  have hne : b ≠ 0 := fun h0 => h (h0 ▸ hb)
  simpa using hne

/-- `strncmp`: the difference of the first two bytes that differ, a
terminator counting as 0. -/
def strncmp : List UInt8 → List UInt8 → Nat → Int
  | _, _, 0 => 0
  | [], [], _ + 1 => 0
  | [], b :: _, _ + 1 => -(b.toNat : Int)
  | a :: _, [], _ + 1 => a.toNat
  | a :: as, b :: bs, n + 1 =>
      if a = b then strncmp as bs n else (a.toNat : Int) - b.toNat

def suStringCompare (a b : List UInt8) : Int := strncmp a b (min a.length b.length)

/-- `hu_hash_string`: `hash * 33 + c` over the bytes, `c` a signed `char`
widened to `size_t`. -/
def huHashString (key : List UInt8) : Nat :=
  key.foldl
    (fun hash c =>
      (hash * 33 + if c.toNat < 128 then c.toNat else c.toNat + (2 ^ 64 - 256)) % 2 ^ 64)
    5381

@[simp] theorem suStringCompare_cons (x y : UInt8) (as bs : List UInt8) :
    suStringCompare (x :: as) (y :: bs) =
      if x = y then suStringCompare as bs else (x.toNat : Int) - y.toNat := by
  simp [suStringCompare, strncmp]

@[simp] theorem suStringCompare_nil_left (bs : List UInt8) :
    suStringCompare [] bs = 0 := by
  simp [suStringCompare, strncmp]

@[simp] theorem suStringCompare_nil_right (as : List UInt8) :
    suStringCompare as [] = 0 := by
  simp [suStringCompare, strncmp]

/-- The sign of the comparator is the comparison up to the shorter length. -/
theorem suStringCompare_sign (a b : List UInt8) :
    (suStringCompare a b < 0 ↔ PrefixOrder.compare a b = .lt) ∧
    (suStringCompare a b = 0 ↔ PrefixOrder.compare a b = .eq) ∧
    (0 < suStringCompare a b ↔ PrefixOrder.compare a b = .gt) := by
  induction a generalizing b with
  | nil => simp
  | cons x as ih =>
      cases b with
      | nil => simp
      | cons y bs =>
          rw [suStringCompare_cons, PrefixOrder.compare_cons]
          by_cases hxy : x = y
          · subst hxy
            simpa using ih bs
          · rw [if_neg hxy]
            have hne : x.toNat ≠ y.toNat := fun h => hxy (UInt8.toNat_inj.mp h)
            rcases lt_or_gt_of_ne hne with h | h
            · have hlt : x < y := UInt8.lt_iff_toNat_lt.mpr h
              simp only [hlt, if_true]
              refine ⟨?_, ?_, ?_⟩ <;> simp <;> omega
            · have hgt : y < x := UInt8.lt_iff_toNat_lt.mpr h
              simp only [hgt, hgt.not_gt, if_true, if_false]
              refine ⟨?_, ?_, ?_⟩ <;> simp <;> omega

theorem suStringCompare_neg_iff {a b : List UInt8} :
    suStringCompare a b < 0 ↔ PrefixOrder.compare a b = .lt :=
  (suStringCompare_sign a b).1

theorem suStringCompare_eq_zero_iff {a b : List UInt8} :
    suStringCompare a b = 0 ↔ PrefixOrder.Comparable a b :=
  (suStringCompare_sign a b).2.1.trans PrefixOrder.compare_eq_eq_iff

theorem suStringCompare_pos_iff {a b : List UInt8} :
    0 < suStringCompare a b ↔ PrefixOrder.compare a b = .gt :=
  (suStringCompare_sign a b).2.2

@[simp] theorem suStringCompare_self (a : List UInt8) : suStringCompare a a = 0 :=
  suStringCompare_eq_zero_iff.mpr (.inl (List.prefix_refl a))

theorem suStringCompare_trans {a b c : List UInt8} (h₁ : suStringCompare a b < 0)
    (h₂ : suStringCompare b c < 0) : suStringCompare a c < 0 :=
  suStringCompare_neg_iff.mpr
    (PrefixOrder.compare_lt_trans (suStringCompare_neg_iff.mp h₁)
      (suStringCompare_neg_iff.mp h₂))

/-- Which of two strings comes first does not depend on who asks. -/
theorem suStringCompare_pos_iff_neg {a b : List UInt8} :
    0 < suStringCompare a b ↔ suStringCompare b a < 0 := by
  rw [suStringCompare_pos_iff, suStringCompare_neg_iff, PrefixOrder.compare_gt_iff_lt]

end LsoStore
