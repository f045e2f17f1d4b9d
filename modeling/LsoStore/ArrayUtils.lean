import LsoStore.Lib.Difference

/-!
# The bounded array, its sort, and the allocator's limit

The part of `array_utils.c` that eviction uses, over a block of `len` slots
whose first `element_count` are filled. `qsort` is a parameter: the C library
promises a rearrangement of its input, sorted when the comparator is a total
preorder, and nothing else.
-/

namespace LsoStore

/-- The size above which `mu_malloc`, `mu_realloc` and `mu_calloc` exit. -/
def muLimit : Nat := 1 <<< 22

/-- `u_arr`: `len` slots, the first of which hold `elems`. The block is NULL
exactly when there are no slots. -/
structure UArr (α : Type) where
  len : Nat
  elems : List α
  isSorted : Bool

namespace UArr

variable {α : Type}

/-- `(u_arr){ 0 }`. -/
def zero : UArr α := ⟨0, [], false⟩

/-- `none` when `mu_calloc` exits. -/
def auInitArr (len elementSize : Nat) : Option (UArr α) :=
  if len = 0 ∨ elementSize = 0 then some zero
  else if len * elementSize > muLimit then none
  else some ⟨len, [], true⟩

def auIsFull (arr : UArr α) : Bool := arr.elems.length = arr.len

def auInsert (arr : UArr α) (newElement : α) : Int × UArr α :=
  if arr.auIsFull then (1, arr)
  else (0, { arr with elems := arr.elems ++ [newElement], isSorted := false })

/-- What the slots hold, in order; `none` is a slot still zeroed. -/
def slots (arr : UArr α) : List (Option α) :=
  arr.elems.map some ++ List.replicate (arr.len - arr.elems.length) none

/-- The walk that inserts a list of elements one by one. -/
def insertAll (arr : UArr α) (xs : List α) : UArr α :=
  xs.foldl (fun arr x => (arr.auInsert x).2) arr

/-- As long as they fit, the elements end up in the array in order. -/
theorem insertAll_elems {arr : UArr α} {xs : List α}
    (h : arr.elems.length + xs.length ≤ arr.len) :
    (arr.insertAll xs).elems = arr.elems ++ xs ∧ (arr.insertAll xs).len = arr.len := by
  induction xs generalizing arr with
  | nil => simp [insertAll]
  | cons x xs ih =>
      rw [List.length_cons] at h
      have hfull : arr.auIsFull = false := by
        simp only [auIsFull, decide_eq_false_iff_not]
        omega
      have hstep : (arr.auInsert x).2 =
          { arr with elems := arr.elems ++ [x], isSorted := false } := by
        simp [auInsert, hfull]
      have hrec := @ih (arr.auInsert x).2 (by rw [hstep]; simp; omega)
      rw [hstep] at hrec
      simp only [insertAll, List.foldl_cons, hstep] at hrec ⊢
      simpa using hrec

/-- Whatever fits, nothing else gets in. -/
theorem mem_insertAll {arr : UArr α} {xs : List α} {x : α}
    (h : x ∈ (arr.insertAll xs).elems) : x ∈ arr.elems ∨ x ∈ xs := by
  induction xs generalizing arr with
  | nil => exact .inl h
  | cons y xs ih =>
      rw [insertAll, List.foldl_cons] at h
      rcases ih h with h | h
      · rw [auInsert] at h
        split at h
        · exact .inl h
        · rcases List.mem_append.mp h with h | h
          · exact .inl h
          · exact .inr (List.mem_cons.mpr (.inl (List.mem_singleton.mp h)))
      · exact .inr (List.mem_cons_of_mem _ h)

theorem mem_slots {arr : UArr α} {x : α} (h : some x ∈ arr.slots) : x ∈ arr.elems := by
  rcases List.mem_append.mp h with h | h
  · obtain ⟨y, hy, he⟩ := List.mem_map.mp h
    injection he with he
    exact he ▸ hy
  · have := (List.mem_replicate.mp h).2
    cases this

theorem slots_of_full {arr : UArr α} (h : arr.elems.length = arr.len) :
    arr.slots = arr.elems.map some := by
  simp [slots, h]

end UArr

/-- `qsort` on elements of type `α`. -/
structure Qsort (α : Type) where
  sort : (α → α → Int) → List α → List α
  perm : ∀ compare l, (sort compare l).Perm l
  sorted : ∀ compare l, (∀ a b, compare a b ≤ 0 ∨ compare b a ≤ 0) →
    (∀ a b c, compare a b ≤ 0 → compare b c ≤ 0 → compare a c ≤ 0) →
    (sort compare l).Pairwise fun a b => compare a b ≤ 0

/-- An implementation of `qsort`. -/
def Qsort.insertion {α : Type} : Qsort α where
  sort compare l := l.insertionSort fun a b => compare a b ≤ 0
  perm _ l := List.perm_insertionSort _ l
  sorted compare l htotal htrans := by
    have : Std.Total fun a b => compare a b ≤ 0 := ⟨htotal⟩
    have : IsTrans α fun a b => compare a b ≤ 0 := ⟨htrans⟩
    exact List.pairwise_insertionSort _ l

/-- What the C library promises of an array whose own elements the comparator
orders, whatever it makes of others. -/
def Qsort.SortsArrays {α : Type} (qsort : Qsort α) : Prop :=
  ∀ compare l, Difference.Orders compare {a | a ∈ l} →
    (qsort.sort compare l).Pairwise fun a b => compare a b ≤ 0

theorem Qsort.insertion_sortsArrays {α : Type} : (Qsort.insertion (α := α)).SortsArrays :=
  fun _ _ h => h.insertionSort

end LsoStore
