import Mathlib.Algebra.Order.Monoid.Defs
import Mathlib.Logic.Function.Basic

/-!
# Promises on a budget

A shared amount that may not pass a cap. A party that wants to add to it is
promised so if there is room at that moment, and adds its share later; nothing
is put aside meanwhile.

Promises stay good exactly as long as whoever adds its share leaves room beside
it for each of the others'. That is less than room for all of them together,
since only one of them adds at a time.
-/

structure Budget (ι α : Type) where
  used : α
  cap : α
  promised : ι → Option α

namespace Budget

section Promise

variable {ι α : Type} [DecidableEq ι] {b : Budget ι α} {i : ι} {u : α}

/-- `i` comes to have the promise `p` when `u` is used. -/
def promise (b : Budget ι α) (i : ι) (p : Option α) (u : α) : Budget ι α :=
  ⟨u, b.cap, Function.update b.promised i p⟩

@[simp] theorem promised_promise_self (p : Option α) :
    (b.promise i p u).promised i = p := Function.update_self ..

theorem promised_promise_of_ne {j : ι} (h : j ≠ i) (p : Option α) :
    (b.promise i p u).promised j = b.promised j := Function.update_of_ne h ..

end Promise

variable {ι α : Type} [AddCommMonoid α] [PartialOrder α]

/-- Each promise could be made good now. -/
def Covered (b : Budget ι α) : Prop := ∀ i g, b.promised i = some g → b.used + g ≤ b.cap

/-- There is room for what `i` was promised together with any other promise. -/
def RoomBeside (b : Budget ι α) (i : ι) : Prop :=
  ∀ g, b.promised i = some g → ∀ j, j ≠ i → ∀ g', b.promised j = some g' →
    b.used + g + g' ≤ b.cap

variable [DecidableEq ι] {b : Budget ι α} {i : ι} {g u : α}

/-- `i` adds what it was promised. -/
def spend (b : Budget ι α) (i : ι) (g : α) : Budget ι α := b.promise i none (b.used + g)

theorem Covered.promise [IsOrderedAddMonoid α] {p : Option α} (h : b.Covered)
    (hu : u ≤ b.used) (hp : ∀ g, p = some g → u + g ≤ b.cap) : (b.promise i p u).Covered := by
  intro j g hj
  by_cases hji : j = i
  · subst hji
    exact hp g (by simpa using hj)
  · rw [promised_promise_of_ne hji] at hj
    calc u + g ≤ b.used + g := add_le_add_left hu g
      _ ≤ b.cap := h j g hj

/-- Promises outlast a party's share exactly if there is room beside it. -/
theorem covered_spend_iff (hg : b.promised i = some g) :
    (b.spend i g).Covered ↔ b.RoomBeside i := by
  constructor
  · intro h g₁ hg₁ j hji g' hj
    obtain rfl : g = g₁ := Option.some_inj.mp (hg.symm.trans hg₁)
    refine h j g' ?_
    rwa [spend, promised_promise_of_ne hji]
  · intro h j g' hj
    rw [spend] at hj
    by_cases hji : j = i
    · subst hji
      simp at hj
    · rw [promised_promise_of_ne hji] at hj
      exact h g hg j hji g' hj

end Budget
