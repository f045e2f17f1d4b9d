import Mathlib.Data.List.TakeWhile
import Mathlib.Data.Multiset.Sort

/-!
# Lists kept in order by a comparator

A comparator answers an integer whose sign says which of two keys comes first.
A list of elements with keys is kept in order by one walk: for a key `k` it
passes every element whose key `k` is greater than and reaches the rest. An
element put between the two parts keeps the order. What has the key `k` is all
in the second part, in front, so the walk reaches the first of it, and a list
without `k` is one whose second part does not begin with it.

Elements with one key may occur any number of times.
-/

/-- A comparator whose strict half is an order, whoever is asked. -/
structure StrictComparator {κ : Type} (compare : κ → κ → Int) : Prop where
  self : ∀ a, compare a a = 0
  swap : ∀ a b, 0 < compare a b ↔ compare b a < 0
  trans : ∀ a b c, compare a b < 0 → compare b c < 0 → compare a c < 0

/-- A total order, with the answer 0 on equal keys only. -/
structure TotalComparator {κ : Type} (compare : κ → κ → Int) : Prop
    extends StrictComparator compare where
  eq : ∀ a b, compare a b = 0 → a = b

namespace TotalComparator

variable {κ : Type} {compare : κ → κ → Int} {a b c : κ}

theorem eq_zero_iff (hc : TotalComparator compare) : compare a b = 0 ↔ a = b := by
  constructor
  · exact hc.eq a b
  · intro h
    rw [h, hc.self]

theorem le_swap (hc : TotalComparator compare) : compare a b ≤ 0 ↔ 0 ≤ compare b a := by
  have h := hc.swap a b
  have h' := hc.swap b a
  omega

theorem le_trans (hc : TotalComparator compare) (hab : compare a b ≤ 0)
    (hbc : compare b c ≤ 0) : compare a c ≤ 0 := by
  rcases Int.lt_or_eq_of_le hab with hab | hab
  · rcases Int.lt_or_eq_of_le hbc with hbc | hbc
    · exact Int.le_of_lt (hc.trans a b c hab hbc)
    · rw [← hc.eq b c hbc]
      exact Int.le_of_lt hab
  · rw [hc.eq a b hab]
    exact hbc

theorem isTrans (hc : TotalComparator compare) : IsTrans κ fun a b => compare a b ≤ 0 :=
  ⟨fun _ _ _ => hc.le_trans⟩

theorem antisymm (hc : TotalComparator compare) :
    Std.Antisymm fun a b => compare a b ≤ 0 where
  antisymm a b hab hba := by
    rw [hc.le_swap] at hba
    exact hc.eq a b (by omega)

theorem total (hc : TotalComparator compare) : Std.Total fun a b => compare a b ≤ 0 where
  total a b := by
    rw [hc.le_swap (a := b)]
    omega

/-- The elements of a multiset from the smallest to the greatest. -/
def sorted (hc : TotalComparator compare) (M : Multiset κ) : List κ :=
  have := hc.isTrans
  have := hc.antisymm
  have := hc.total
  M.sort fun a b => compare a b ≤ 0

theorem sorted_eq (hc : TotalComparator compare) (M : Multiset κ) :
    (hc.sorted M : Multiset κ) = M := by
  have := hc.isTrans
  have := hc.antisymm
  have := hc.total
  exact Multiset.sort_eq ..

theorem pairwise_sorted (hc : TotalComparator compare) (M : Multiset κ) :
    (hc.sorted M).Pairwise fun a b => compare a b ≤ 0 := by
  have := hc.isTrans
  have := hc.antisymm
  have := hc.total
  exact Multiset.pairwise_sort ..

/-- The difference of two numbers compares them. -/
theorem sub : TotalComparator fun a b : Int => a - b where
  self a := by omega
  swap a b := by omega
  trans a b c := by omega
  eq a b h := by omega

end TotalComparator

namespace SortedList

variable {κ α : Type} (compare : κ → κ → Int) (key : α → κ) (k : κ)

/-- The keys do not decrease. -/
def InOrder (l : List α) : Prop := l.Pairwise fun x y => compare (key x) (key y) ≤ 0

/-- What the walk for `k` goes past. -/
def passed (l : List α) : List α := l.takeWhile fun x => 0 < compare k (key x)

/-- What it stops in front of. -/
def reached (l : List α) : List α := l.dropWhile fun x => 0 < compare k (key x)

/-- The elements whose key is `k`, in the order of the list. -/
def withKey (l : List α) : List α := l.filter fun x => compare k (key x) = 0

variable {compare key k} {l next : List α} {x y : α}

@[simp] theorem passed_nil : passed compare key k ([] : List α) = [] := rfl

@[simp] theorem reached_nil : reached compare key k ([] : List α) = [] := rfl

@[simp] theorem passed_cons (x : α) (l : List α) :
    passed compare key k (x :: l) =
      if 0 < compare k (key x) then x :: passed compare key k l else [] := by
  simp [passed, List.takeWhile_cons]

@[simp] theorem reached_cons (x : α) (l : List α) :
    reached compare key k (x :: l) =
      if 0 < compare k (key x) then reached compare key k l else x :: l := by
  simp [reached, List.dropWhile_cons]

theorem passed_append_reached (compare : κ → κ → Int) (key : α → κ) (k : κ) (l : List α) :
    passed compare key k l ++ reached compare key k l = l :=
  List.takeWhile_append_dropWhile

theorem lt_of_mem_passed (h : x ∈ passed compare key k l) : 0 < compare k (key x) := by
  simpa using List.mem_takeWhile_imp h

theorem le_of_reached (h : reached compare key k l = x :: next) : compare k (key x) ≤ 0 := by
  have hstop := List.head?_dropWhile_not (fun x => decide (0 < compare k (key x))) l
  rw [reached] at h
  rw [h] at hstop
  simpa using hstop

/-- An element the walk does not go past hides what is behind it. -/
theorem passed_append_cons (h : compare k (key y) ≤ 0) :
    passed compare key k (l ++ y :: next) = passed compare key k l := by
  induction l with
  | nil => rw [List.nil_append, passed_cons, if_neg (by omega), passed_nil]
  | cons z l ih => rw [List.cons_append, passed_cons, passed_cons, ih]

theorem reached_append_cons (h : compare k (key y) ≤ 0) :
    reached compare key k (l ++ y :: next) = reached compare key k l ++ y :: next := by
  induction l with
  | nil => rw [List.nil_append, reached_cons, if_neg (by omega), reached_nil, List.nil_append]
  | cons z l ih =>
      rw [List.cons_append, reached_cons, reached_cons, ih]
      split
      · rfl
      · rfl

theorem passed_eq_self (h : ∀ x ∈ l, 0 < compare k (key x)) : passed compare key k l = l :=
  List.takeWhile_eq_self_iff.mpr fun x hx => decide_eq_true (h x hx)

theorem reached_eq_nil (h : ∀ x ∈ l, 0 < compare k (key x)) : reached compare key k l = [] :=
  List.dropWhile_eq_nil_iff.mpr fun x hx => decide_eq_true (h x hx)

theorem withKey_append (l l' : List α) :
    withKey compare key k (l ++ l') = withKey compare key k l ++ withKey compare key k l' :=
  List.filter_append ..

theorem withKey_cons_self (h : compare k (key x) = 0) :
    withKey compare key k (x :: l) = x :: withKey compare key k l := by
  simp [withKey, h]

theorem withKey_cons_of_ne (h : compare k (key x) ≠ 0) :
    withKey compare key k (x :: l) = withKey compare key k l := by
  simp [withKey, h]

theorem withKey_eq_nil : withKey compare key k l = [] ↔ ∀ x ∈ l, compare k (key x) ≠ 0 := by
  simp [withKey]

@[simp] theorem withKey_passed :
    withKey compare key k (passed compare key k l) = [] := by
  rw [withKey_eq_nil]
  intro x hx
  have := lt_of_mem_passed hx
  omega

theorem InOrder.nil : InOrder compare key ([] : List α) := List.Pairwise.nil

theorem InOrder.parts (h : InOrder compare key l) :
    InOrder compare key (passed compare key k l) ∧
    InOrder compare key (reached compare key k l) ∧
    ∀ x ∈ passed compare key k l, ∀ y ∈ reached compare key k l,
      compare (key x) (key y) ≤ 0 := by
  have happ := passed_append_reached compare key k l
  rw [← happ] at h
  exact List.pairwise_append.mp h

/-- Behind the point where the walk stops no key is smaller. -/
theorem InOrder.le_of_mem_reached (hc : TotalComparator compare) (h : InOrder compare key l)
    (hx : x ∈ reached compare key k l) : compare k (key x) ≤ 0 := by
  have hr := (h.parts (k := k)).2.1
  cases hcut : reached compare key k l with
  | nil =>
      rw [hcut] at hx
      cases hx
  | cons y next =>
      have hy : compare k (key y) ≤ 0 := le_of_reached hcut
      rw [hcut] at hx hr
      rcases List.mem_cons.mp hx with rfl | hx
      · exact hy
      · exact hc.le_trans hy (List.rel_of_pairwise_cons hr hx)

theorem InOrder.insert (hc : TotalComparator compare) (h : InOrder compare key l)
    (hk : key x = k) :
    InOrder compare key (passed compare key k l ++ x :: reached compare key k l) := by
  obtain ⟨hp, hr, hpr⟩ := h.parts (k := k)
  have hxr : ∀ y ∈ reached compare key k l, compare (key x) (key y) ≤ 0 := by
    intro y hy
    rw [hk]
    exact h.le_of_mem_reached hc hy
  refine List.pairwise_append.mpr ⟨hp, List.pairwise_cons.mpr ⟨hxr, hr⟩, ?_⟩
  intro y hy z hz
  rcases List.mem_cons.mp hz with rfl | hz
  · rw [hc.le_swap, hk]
    exact Int.le_of_lt (lt_of_mem_passed hy)
  · exact hpr y hy z hz

theorem InOrder.remove (h : InOrder compare key l)
    (hcut : reached compare key k l = x :: next) :
    InOrder compare key (passed compare key k l ++ next) := by
  have happ := passed_append_reached compare key k l
  rw [hcut] at happ
  have hsub : List.Sublist (passed compare key k l ++ next)
      (passed compare key k l ++ x :: next) :=
    List.Sublist.append_left (List.sublist_cons_self x next) _
  rw [happ] at hsub
  exact List.Pairwise.sublist hsub h

/-! ## What has one key -/

/-- Everything with the key `k` is in the second part. -/
theorem withKey_reached :
    withKey compare key k (reached compare key k l) = withKey compare key k l := by
  calc withKey compare key k (reached compare key k l)
      = withKey compare key k (passed compare key k l ++ reached compare key k l) := by
        rw [withKey_append, withKey_passed, List.nil_append]
    _ = withKey compare key k l := by rw [passed_append_reached]

theorem withKey_insert_self (h : compare k (key x) = 0) :
    withKey compare key k (passed compare key k l ++ x :: reached compare key k l) =
      x :: withKey compare key k l := by
  rw [withKey_append, withKey_passed, List.nil_append, withKey_cons_self h, withKey_reached]

theorem withKey_insert_of_ne {k' : κ} (h : compare k' (key x) ≠ 0) :
    withKey compare key k' (passed compare key k l ++ x :: reached compare key k l) =
      withKey compare key k' l := by
  rw [withKey_append, withKey_cons_of_ne h, ← withKey_append, passed_append_reached]

theorem withKey_remove_self (hcut : reached compare key k l = x :: next)
    (h : compare k (key x) = 0) :
    withKey compare key k l = x :: withKey compare key k (passed compare key k l ++ next) := by
  rw [← withKey_reached, hcut, withKey_cons_self h, withKey_append, withKey_passed,
    List.nil_append]

theorem withKey_remove_of_ne {k' : κ} (hcut : reached compare key k l = x :: next)
    (h : compare k' (key x) ≠ 0) :
    withKey compare key k' (passed compare key k l ++ next) = withKey compare key k' l := by
  calc withKey compare key k' (passed compare key k l ++ next)
      = withKey compare key k' (passed compare key k l ++ reached compare key k l) := by
        rw [hcut, withKey_append, withKey_append, withKey_cons_of_ne h]
    _ = withKey compare key k' l := by rw [passed_append_reached]

theorem withKey_eq_nil_of_reached_nil (hcut : reached compare key k l = []) :
    withKey compare key k l = [] := by
  rw [← withKey_reached, hcut]
  rfl

/-- The walk does not miss a key that is there. -/
theorem InOrder.withKey_eq_nil_of_reached_cons (hc : TotalComparator compare)
    (h : InOrder compare key l) (hcut : reached compare key k l = x :: next)
    (hne : compare k (key x) ≠ 0) : withKey compare key k l = [] := by
  have hx : compare k (key x) < 0 := by
    have := le_of_reached hcut
    omega
  have hr := (h.parts (k := k)).2.1
  rw [hcut] at hr
  rw [← withKey_reached, hcut, withKey_eq_nil]
  intro y hy
  rcases List.mem_cons.mp hy with rfl | hy
  · exact hne
  · -- an equal key behind a greater one would have to be greater too
    intro h0
    have hle := List.rel_of_pairwise_cons hr hy
    rw [← hc.eq _ _ h0, hc.le_swap] at hle
    omega

/-- When the walk does not stop at its key, the list does not have it. -/
theorem InOrder.not_mem_of_reached (hc : TotalComparator compare) (h : InOrder compare key l)
    (hcut : ∀ y next, reached compare key k l = y :: next → compare k (key y) ≠ 0) :
    ∀ x ∈ l, compare k (key x) ≠ 0 := by
  rw [← withKey_eq_nil]
  cases hr : reached compare key k l with
  | nil => exact withKey_eq_nil_of_reached_nil hr
  | cons y next => exact h.withKey_eq_nil_of_reached_cons hc hr (hcut y next hr)

/-- A list in order is its elements sorted. -/
theorem InOrder.eq_sorted {compare : α → α → Int} {l : List α} (h : InOrder compare id l)
    (hc : TotalComparator compare) : l = hc.sorted l := by
  have := hc.antisymm
  have hperm : List.Perm (hc.sorted l) l := Multiset.coe_eq_coe.mp (hc.sorted_eq l)
  have hl : l.Pairwise fun a b => compare a b ≤ 0 := h
  exact hperm.symm.eq_of_pairwise' hl (hc.pairwise_sorted l)

/-! ## Insertions one by one

They need no order. In front of an element that the walk for none of them goes
past, they do not see what is behind it. -/

/-- Where an insertion puts an element. -/
def place (compare : κ → κ → Int) (key : α → κ) (x : α) (l : List α) : List α :=
  passed compare key (key x) l ++ x :: reached compare key (key x) l

def placeAll (compare : κ → κ → Int) (key : α → κ) (l xs : List α) : List α :=
  xs.foldl (fun l x => place compare key x l) l

theorem perm_place : (place compare key x l).Perm (x :: l) := by
  rw [place]
  exact List.perm_middle.trans (List.Perm.of_eq (by rw [passed_append_reached]))

theorem perm_placeAll (l xs : List α) : (placeAll compare key l xs).Perm (xs ++ l) := by
  induction xs generalizing l with
  | nil => exact List.Perm.refl l
  | cons x xs ih =>
      have hx : (xs ++ place compare key x l).Perm (xs ++ x :: l) := perm_place.append_left xs
      exact (ih _).trans (hx.trans List.perm_middle)

theorem place_append_cons (h : compare (key x) (key y) ≤ 0) :
    place compare key x (l ++ y :: next) = place compare key x l ++ y :: next := by
  rw [place, place, passed_append_cons h, reached_append_cons h, List.append_assoc,
    List.cons_append]

theorem placeAll_append_cons {xs : List α} (h : ∀ x ∈ xs, compare (key x) (key y) ≤ 0) :
    placeAll compare key (l ++ y :: next) xs = placeAll compare key l xs ++ y :: next := by
  induction xs generalizing l with
  | nil => rfl
  | cons x xs ih =>
      rw [List.forall_mem_cons] at h
      rw [placeAll, List.foldl_cons, place_append_cons h.1]
      exact ih h.2

/-- The keys are placed as the elements are. -/
theorem map_place (x : α) (l : List α) :
    (place compare key x l).map key = place compare id (key x) (l.map key) := by
  rw [place, place, passed, passed, reached, reached, List.map_append, List.map_cons,
    List.takeWhile_map, List.dropWhile_map]
  rfl

theorem map_placeAll (l xs : List α) :
    (placeAll compare key l xs).map key = placeAll compare id (l.map key) (xs.map key) := by
  induction xs generalizing l with
  | nil => rfl
  | cons x xs ih =>
      have hx := ih (place compare key x l)
      rw [map_place] at hx
      exact hx

end SortedList
