import Mathlib.Algebra.GroupWithZero.Nat
import Mathlib.Data.Int.Basic
import Mathlib.Data.List.Sort

/-!
# Comparing by subtracting

A comparator that returns the difference of two unsigned words, read back as a
signed one, gets the sign wrong where the difference does not fit. Written out
for words of any width: as long as two words are less than half the range
apart the sign is the one of their difference, and from there on it is not.

The rest is what a comparator has to satisfy for a sort to put an array in
order, on the elements of that array.
-/

namespace Difference

/-! ## The sign of a difference -/

section Bmod

variable {d : Int} {h : Nat}

theorem bmod_of_nonneg (h0 : 0 ≤ d) (hd : d < 2 * h) :
    d.bmod (2 * h) = if d < h then d else d - 2 * h := by
  have hmod : d % ((2 * h : Nat) : Int) = d := Int.emod_eq_of_lt h0 (by omega)
  rw [Int.bmod_def, hmod]
  split <;> split <;> omega

theorem bmod_of_neg (h0 : d < 0) (hd : -(2 * h) < d) :
    d.bmod (2 * h) = if -h ≤ d then d else d + 2 * h := by
  have hmod : d % ((2 * h : Nat) : Int) = d + 2 * h := by
    rw [← Int.add_emod_right, Int.emod_eq_of_lt (by omega) (by omega)]
    omega
  rw [Int.bmod_def, hmod]
  split <;> split <;> omega

end Bmod

variable {w : Nat} {a b : BitVec (w + 1)}

/-- Less than half the range apart. -/
def Near (a b : BitVec (w + 1)) : Prop :=
  a.toNat < b.toNat + 2 ^ w ∧ b.toNat < a.toNat + 2 ^ w

instance : Decidable (Near a b) := inferInstanceAs (Decidable (_ ∧ _))

theorem Near.symm (h : Near a b) : Near b a := ⟨h.2, h.1⟩

theorem toInt_sub (a b : BitVec (w + 1)) :
    (a - b).toInt = ((a.toNat : Int) - b.toNat).bmod (2 * 2 ^ w) := by
  rw [BitVec.toInt_sub, BitVec.toInt_eq_toNat_bmod, BitVec.toInt_eq_toNat_bmod,
    Int.sub_bmod_bmod, Int.bmod_sub_bmod, Nat.pow_succ, Nat.mul_comm]

theorem sub_eq_zero_iff : a - b = 0 ↔ a.toNat = b.toNat := by
  rw [BitVec.toNat_inj, BitVec.sub_eq_iff_eq_add]
  show a = 0#(w + 1) + b ↔ a = b
  rw [BitVec.zero_add]

/-- Words that are near compare like the numbers they stand for. -/
theorem toInt_sub_of_near (h : Near a b) : (a - b).toInt = (a.toNat : Int) - b.toNat := by
  rw [toInt_sub]
  obtain ⟨hab, hba⟩ := h
  rcases Nat.le_total b.toNat a.toNat with hle | hle
  · rw [bmod_of_nonneg (by omega) (by omega), if_pos (by omega)]
  · rcases Nat.eq_or_lt_of_le hle with heq | hlt
    · rw [heq, Int.sub_self, Int.zero_bmod]
    · rw [bmod_of_neg (by omega) (by omega), if_pos (by omega)]

/-- Words that are not near compare the wrong way round, or both ways the same
when they are exactly half the range apart. -/
theorem toInt_sub_neg_of_far (h : b.toNat + 2 ^ w ≤ a.toNat) : (a - b).toInt < 0 := by
  have ha := a.isLt
  rw [Nat.pow_succ] at ha
  rw [toInt_sub, bmod_of_nonneg (by omega) (by omega), if_neg (by omega)]
  omega

/-! ## Comparators -/

variable {α : Type}

/-- What a sort asks of a comparator, on the elements it is given. -/
structure Orders (compare : α → α → Int) (s : Set α) : Prop where
  total : ∀ a ∈ s, ∀ b ∈ s, compare a b ≤ 0 ∨ compare b a ≤ 0
  trans : ∀ a ∈ s, ∀ b ∈ s, ∀ c ∈ s, compare a b ≤ 0 → compare b c ≤ 0 → compare a c ≤ 0

namespace Orders

variable {compare : α → α → Int} {s t : Set α}

theorem mono (h : Orders compare s) (hts : t ⊆ s) : Orders compare t where
  total a ha b hb := h.total a (hts ha) b (hts hb)
  trans a ha b hb c hc := h.trans a (hts ha) b (hts hb) c (hts hc)

end Orders

/-- Insertion sort orders an array whose elements the comparator orders. -/
theorem pairwise_orderedInsert {r : α → α → Prop} [DecidableRel r] {x : α} {l : List α}
    (htotal : ∀ y ∈ l, r x y ∨ r y x) (htrans : ∀ y ∈ l, ∀ z ∈ l, r x y → r y z → r x z)
    (hl : l.Pairwise r) : (l.orderedInsert r x).Pairwise r := by
  induction hl with
  | nil => exact List.pairwise_singleton r x
  | @cons y l hy hl ih =>
      rw [List.orderedInsert_cons]
      split
      · next hxy =>
          refine List.pairwise_cons.mpr ⟨fun z hz => ?_, List.pairwise_cons.mpr ⟨hy, hl⟩⟩
          rcases List.mem_cons.mp hz with rfl | hz
          · exact hxy
          · exact htrans y (List.mem_cons_self ..) z (List.mem_cons_of_mem _ hz) hxy (hy z hz)
      · next hxy =>
          have hyx := (htotal y (List.mem_cons_self ..)).resolve_left hxy
          refine List.pairwise_cons.mpr ⟨fun z hz => ?_, ?_⟩
          · rcases List.mem_cons.mp ((List.perm_orderedInsert r x l).mem_iff.mp hz) with rfl | hz
            · exact hyx
            · exact hy z hz
          · exact ih (fun z hz => htotal z (List.mem_cons_of_mem _ hz))
              fun u hu v hv => htrans u (List.mem_cons_of_mem _ hu) v (List.mem_cons_of_mem _ hv)

theorem Orders.insertionSort {compare : α → α → Int} {l : List α}
    (h : Orders compare {a | a ∈ l}) :
    (l.insertionSort fun a b => compare a b ≤ 0).Pairwise fun a b => compare a b ≤ 0 := by
  induction l with
  | nil => exact List.Pairwise.nil
  | cons x l ih =>
      have hmem : ∀ {y}, y ∈ l.insertionSort (fun a b => compare a b ≤ 0) → y ∈ x :: l :=
        fun hy => List.mem_cons_of_mem _ ((List.perm_insertionSort _ l).mem_iff.mp hy)
      refine pairwise_orderedInsert (fun y hy => ?_) (fun y hy z hz => ?_)
        (ih (h.mono fun y hy => List.mem_cons_of_mem _ hy))
      · exact h.total x (List.mem_cons_self ..) y (hmem hy)
      · exact h.trans x (List.mem_cons_self ..) y (hmem hy) z (hmem hz)

end Difference
