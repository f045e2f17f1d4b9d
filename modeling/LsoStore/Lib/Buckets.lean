import Mathlib.Data.List.Perm.Basic
import Mathlib.Data.List.GetD

/-!
# Lists of buckets

A chained table is a list of lists, and an operation on it rewrites one
bucket. The contents are the concatenation, so adding or dropping one element
of one bucket adds or drops one element of the whole, up to order.
-/

namespace Buckets

variable {α : Type*}

theorem flatten_modify_perm_cons {l : List (List α)} {i : Nat} {b : List α} {x : α}
    {f : List α → List α} (hb : l[i]? = some b) (hf : (f b).Perm (x :: b)) :
    (l.modify i f).flatten.Perm (x :: l.flatten) := by
  induction l generalizing i with
  | nil => simp at hb
  | cons c l ih =>
      cases i with
      | zero =>
          rw [List.getElem?_cons_zero, Option.some.injEq] at hb
          subst hb
          simpa using hf.append_right l.flatten
      | succ i =>
          rw [List.getElem?_cons_succ] at hb
          simp only [List.modify_succ_cons, List.flatten_cons]
          exact ((ih hb).append_left c).trans List.perm_middle

theorem flatten_perm_cons_modify {l : List (List α)} {i : Nat} {b : List α} {x : α}
    {f : List α → List α} (hb : l[i]? = some b) (hf : b.Perm (x :: f b)) :
    l.flatten.Perm (x :: (l.modify i f).flatten) := by
  induction l generalizing i with
  | nil => simp at hb
  | cons c l ih =>
      cases i with
      | zero =>
          rw [List.getElem?_cons_zero, Option.some.injEq] at hb
          subst hb
          simpa using hf.append_right l.flatten
      | succ i =>
          rw [List.getElem?_cons_succ] at hb
          simp only [List.modify_succ_cons, List.flatten_cons]
          exact ((ih hb).append_left c).trans List.perm_middle

/-- The buckets after one of them was rewritten. -/
theorem getElem?_modify_eq_some {l : List (List α)} {i j : Nat} {b : List α}
    {f : List α → List α} :
    (l.modify i f)[j]? = some b ↔
      ∃ c, l[j]? = some c ∧ b = if i = j then f c else c := by
  rw [List.getElem?_modify]
  cases l[j]? with
  | none => simp
  | some c => simp [eq_comm]

/-- An element of the contents is an element of some bucket. -/
theorem mem_flatten_iff {l : List (List α)} {x : α} :
    x ∈ l.flatten ↔ ∃ (i : Nat) (b : List α), l[i]? = some b ∧ x ∈ b := by
  rw [List.mem_flatten]
  constructor
  · intro h
    obtain ⟨b, hb, hx⟩ := h
    obtain ⟨i, hi⟩ := List.mem_iff_getElem?.mp hb
    exact ⟨i, b, hi, hx⟩
  · intro h
    obtain ⟨i, b, hi, hx⟩ := h
    exact ⟨b, List.mem_of_getElem? hi, hx⟩

/-- What only one bucket can hold is found in that bucket. -/
theorem filter_flatten {l : List (List α)} {i : Nat} {b : List α} {p : α → Bool}
    (hb : l[i]? = some b)
    (h : ∀ (j : Nat) (c : List α), l[j]? = some c → ∀ x ∈ c, p x = true → j = i) :
    l.flatten.filter p = b.filter p := by
  induction l generalizing i with
  | nil => simp at hb
  | cons c l ih =>
      rw [List.flatten_cons, List.filter_append]
      cases i with
      | zero =>
          rw [List.getElem?_cons_zero, Option.some.injEq] at hb
          subst hb
          have hrest : l.flatten.filter p = [] := by
            rw [List.filter_eq_nil_iff]
            intro x hx hpx
            obtain ⟨j, d, hd, hxd⟩ := mem_flatten_iff.mp hx
            have hj := h (j + 1) d (by rwa [List.getElem?_cons_succ]) x hxd hpx
            omega
          rw [hrest, List.append_nil]
      | succ i =>
          rw [List.getElem?_cons_succ] at hb
          have hfirst : c.filter p = [] := by
            rw [List.filter_eq_nil_iff]
            intro x hx hpx
            have hj := h 0 c rfl x hx hpx
            omega
          rw [hfirst, List.nil_append]
          refine ih hb ?_
          intro j d hd x hx hpx
          have hj := h (j + 1) d (by rwa [List.getElem?_cons_succ]) x hx hpx
          omega

end Buckets
