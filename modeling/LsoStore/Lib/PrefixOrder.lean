import Mathlib.Order.Lattice
import Mathlib.Order.Basic
import Mathlib.Data.List.Infix

/-!
# Comparing lists up to the shorter one

The comparison that looks at two lists only as far as both reach: it answers
at the first place where they differ, and calls them equal when one runs out.
It is not an order. Equality means that one list is a prefix of the other,
which is not transitive, so a container sorted by it is sorted only while no
two of its keys compare equal. The strict half is well behaved on its own,
and that is what the lemmas here are about.
-/

namespace PrefixOrder

variable {α : Type*} [LinearOrder α]

/-- Where two lists first differ, as far as both of them go. -/
def compare : List α → List α → Ordering
  | a :: as, b :: bs => if a < b then .lt else if b < a then .gt else compare as bs
  | _, _ => .eq

/-- One of the two lists is a prefix of the other. -/
def Comparable (as bs : List α) : Prop := as <+: bs ∨ bs <+: as

@[simp] theorem compare_nil_left (bs : List α) : compare [] bs = .eq := rfl

@[simp] theorem compare_nil_right (as : List α) : compare as [] = .eq := by
  cases as <;> rfl

theorem compare_cons (a b : α) (as bs : List α) :
    compare (a :: as) (b :: bs) =
      if a < b then .lt else if b < a then .gt else compare as bs := rfl

@[simp] theorem compare_cons_self (a : α) (as bs : List α) :
    compare (a :: as) (a :: bs) = compare as bs := by
  simp [compare_cons]

theorem compare_eq_eq_iff {as bs : List α} :
    compare as bs = .eq ↔ Comparable as bs := by
  induction as generalizing bs with
  | nil => simp [Comparable]
  | cons a as ih =>
      cases bs with
      | nil => simp [Comparable]
      | cons b bs =>
          rcases lt_trichotomy a b with h | rfl | h
          · simp [compare_cons, Comparable, h, h.ne, h.ne']
          · simp [ih, Comparable]
          · simp [compare_cons, Comparable, h, h.not_gt, h.ne, h.ne']

theorem compare_swap (as bs : List α) : (compare as bs).swap = compare bs as := by
  induction as generalizing bs with
  | nil => simp
  | cons a as ih =>
      cases bs with
      | nil => simp
      | cons b bs =>
          rcases lt_trichotomy a b with h | rfl | h
          · simp [compare_cons, h, h.not_gt]
          · simpa using ih bs
          · simp [compare_cons, h, h.not_gt]

theorem compare_gt_iff_lt {as bs : List α} :
    compare as bs = .gt ↔ compare bs as = .lt := by
  rw [← compare_swap bs as]
  cases compare bs as <;> simp

/-- The strict half is transitive: whichever difference comes first decides. -/
theorem compare_lt_trans {as bs cs : List α} (h₁ : compare as bs = .lt)
    (h₂ : compare bs cs = .lt) : compare as cs = .lt := by
  induction as generalizing bs cs with
  | nil => simp at h₁
  | cons a as ih =>
      cases bs with
      | nil => simp at h₁
      | cons b bs =>
          cases cs with
          | nil => simp at h₂
          | cons c cs =>
              rw [compare_cons] at h₁ h₂ ⊢
              rcases lt_trichotomy a b with hab | rfl | hab
              · rcases lt_trichotomy b c with hbc | rfl | hbc
                · simp [hab.trans hbc]
                · simp [hab]
                · simp [hbc, hbc.not_gt] at h₂
              · rcases lt_trichotomy a c with hbc | rfl | hbc
                · simp [hbc]
                · simp only [lt_irrefl, if_false] at h₁ h₂ ⊢
                  exact ih h₁ h₂
                · simp [hbc, hbc.not_gt] at h₂
              · simp [hab, hab.not_gt] at h₁

end PrefixOrder
