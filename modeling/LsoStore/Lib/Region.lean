import Mathlib.Algebra.BigOperators.Group.List.Basic
import Mathlib.Data.List.Basic

/-!
# Regions of memory

What an allocator hands out, as the list of its cells. `store` and `load` answer
`none` where they would leave the region. `resize` keeps the front of a region;
what it is longer by holds whatever was there.

The second part is about a region that is cut into slots of one size. The first
slots are a list of elements, and an access to a slot is one to the element at
its place.
-/

namespace Region

variable {α : Type}

/-- The region after `cells` were stored from `i` on. -/
def store (region : List α) (i : Nat) (cells : List α) : Option (List α) :=
  if i + cells.length ≤ region.length then
    some (region.take i ++ cells ++ region.drop (i + cells.length))
  else none

def load (region : List α) (i n : Nat) : Option (List α) :=
  if i + n ≤ region.length then some ((region.drop i).take n) else none

/-- `fresh` is what the allocator left in its cells. -/
def resize (region : List α) (size : Nat) (fresh : Nat → α) : List α :=
  region.take size ++ (List.range' region.length (size - region.length)).map fresh

section Access

variable {region front middle behind cells : List α} {i n : Nat}

theorem store_of_le (h : i + cells.length ≤ region.length) :
    store region i cells =
      some (region.take i ++ cells ++ region.drop (i + cells.length)) := if_pos h

theorem store_length {region' : List α} (h : store region i cells = some region') :
    region'.length = region.length := by
  rw [store] at h
  split at h
  · cases h
    simp only [List.length_append, List.length_take, List.length_drop]
    omega
  · cases h

/-- What is behind the cells stays. -/
theorem store_drop {region' : List α} (h : store region i cells = some region') {k : Nat}
    (hk : i + cells.length ≤ k) : region'.drop k = region.drop k := by
  rw [store] at h
  split at h
  · next hle =>
      cases h
      have hfront : (region.take i ++ cells).length = i + cells.length := by
        rw [List.length_append, List.length_take, Nat.min_eq_left (by omega)]
      rw [List.drop_append, hfront, List.drop_eq_nil_of_le (by rw [hfront]; exact hk),
        List.nil_append, List.drop_drop, Nat.add_sub_cancel' hk]
  · cases h

theorem store_nil (h : i ≤ region.length) : store region i [] = some region := by
  rw [store_of_le h, List.append_nil, List.length_nil, Nat.add_zero, List.take_append_drop]

/-- Storing over as many cells. -/
theorem store_append (h : cells.length = middle.length) :
    store (front ++ middle ++ behind) front.length cells = some (front ++ cells ++ behind) := by
  have hle : front.length + cells.length ≤ (front ++ middle ++ behind).length := by
    simp only [List.length_append]
    omega
  rw [store_of_le hle, h, ← List.length_append, List.drop_left, List.append_assoc front middle,
    List.take_left]

theorem load_append :
    load (front ++ middle ++ behind) front.length middle.length = some middle := by
  have hle : front.length + middle.length ≤ (front ++ middle ++ behind).length := by
    simp only [List.length_append]
    omega
  rw [load, if_pos hle, List.append_assoc, List.drop_left, List.take_left]

@[simp] theorem resize_length (region : List α) (size : Nat) (fresh : Nat → α) :
    (resize region size fresh).length = size := by
  rw [resize, List.length_append, List.length_take, List.length_map, List.length_range']
  omega

/-- What is kept of a region is its front. -/
theorem resize_take (region : List α) {size : Nat} (fresh : Nat → α) (hn : n ≤ size)
    (hlen : n ≤ region.length) : (resize region size fresh).take n = region.take n := by
  rw [resize, List.take_append_of_le_length (by rw [List.length_take]; omega), List.take_take,
    Nat.min_eq_left hn]

end Access

/-! ## Slots -/

/-- The first `n` slots of a region. -/
def slots (size n : Nat) (region : List α) : List (List α) :=
  (List.range n).map fun i => (region.drop (i * size)).take size

section Slots

variable {size n i : Nat} {elems : List (List α)} {region rest : List α}

/-- Every element fills a slot. -/
def Sized (size : Nat) (elems : List (List α)) : Prop := ∀ e ∈ elems, e.length = size

theorem Sized.append {elems' : List (List α)} (h : Sized size elems) (h' : Sized size elems') :
    Sized size (elems ++ elems') := List.forall_mem_append.mpr ⟨h, h'⟩

theorem Sized.set {x : List α} (h : Sized size elems) (hx : x.length = size) (i : Nat) :
    Sized size (elems.set i x) := by
  intro e he
  rcases List.mem_or_eq_of_mem_set he with he | rfl
  · exact h e he
  · exact hx

theorem Sized.length_flatten (h : Sized size elems) :
    elems.flatten.length = elems.length * size := by
  induction elems with
  | nil => simp
  | cons e elems ih =>
      rw [Sized, List.forall_mem_cons] at h
      rw [List.flatten_cons, List.length_append, ih h.2, h.1, List.length_cons, Nat.succ_mul,
        Nat.add_comm]

@[simp] theorem slots_zero (size : Nat) (region : List α) : slots size 0 region = [] := rfl

@[simp] theorem slots_length (size n : Nat) (region : List α) :
    (slots size n region).length = n := by
  rw [slots, List.length_map, List.length_range]

theorem slots_succ (size n : Nat) (region : List α) :
    slots size (n + 1) region = region.take size :: slots size n (region.drop size) := by
  rw [slots, List.range_succ_eq_map, List.map_cons, Nat.zero_mul, List.drop_zero, List.map_map,
    slots]
  congr 1
  refine List.map_congr_left fun i _ => ?_
  rw [Function.comp_apply, List.drop_drop, Nat.succ_mul, Nat.add_comm]

/-- Elements laid one after the other are what the slots hold. -/
theorem Sized.slots_flatten (h : Sized size elems) (rest : List α) :
    slots size elems.length (elems.flatten ++ rest) = elems := by
  induction elems with
  | nil => rfl
  | cons e elems ih =>
      rw [Sized, List.forall_mem_cons] at h
      rw [List.length_cons, slots_succ, List.flatten_cons, List.append_assoc,
        List.take_left' h.1, List.drop_left' h.1, ih h.2]

theorem sized_slots (h : n * size ≤ region.length) : Sized size (slots size n region) := by
  intro e he
  obtain ⟨i, hi, rfl⟩ := List.mem_map.mp he
  have hmul := Nat.mul_le_mul_right size (Nat.succ_le_of_lt (List.mem_range.mp hi))
  rw [Nat.succ_mul] at hmul
  rw [List.length_take, List.length_drop]
  omega

/-- A region is what its slots hold and what is behind them. -/
theorem flatten_slots (h : n * size ≤ region.length) :
    (slots size n region).flatten ++ region.drop (n * size) = region := by
  induction n generalizing region with
  | zero => simp
  | succ n ih =>
      rw [Nat.succ_mul] at h
      have hdrop : n * size ≤ (region.drop size).length := by
        rw [List.length_drop]
        omega
      have hrec := ih hdrop
      rw [List.drop_drop] at hrec
      rw [slots_succ, List.flatten_cons, List.append_assoc, Nat.succ_mul, Nat.add_comm, hrec,
        List.take_append_drop]

/-- What lies on either side of a slot. -/
theorem Sized.split (h : Sized size elems) (hi : i < elems.length) (rest : List α) :
    elems.flatten ++ rest =
      (elems.take i).flatten ++ elems[i] ++ ((elems.drop (i + 1)).flatten ++ rest) ∧
    (elems.take i).flatten.length = i * size := by
  constructor
  · conv => lhs; rw [← List.take_append_drop i elems, List.drop_eq_getElem_cons hi]
    simp only [List.flatten_append, List.flatten_cons, List.append_assoc]
  · rw [Sized.length_flatten fun e he => h e (List.mem_of_mem_take he), List.length_take,
      Nat.min_eq_left (Nat.le_of_lt hi)]

/-- A store to a slot is one to the element at its place. -/
theorem Sized.store_slot {x : List α} (h : Sized size elems) (hi : i < elems.length)
    (hx : x.length = size) (rest : List α) :
    store (elems.flatten ++ rest) (i * size) x = some ((elems.set i x).flatten ++ rest) := by
  obtain ⟨hsplit, hfront⟩ := h.split hi rest
  have hx' : x.length = elems[i].length := by rw [hx, h _ (List.getElem_mem hi)]
  rw [hsplit, ← hfront, store_append hx', List.set_eq_take_append_cons_drop, if_pos hi]
  simp only [List.flatten_append, List.flatten_cons, List.append_assoc]

theorem Sized.load_slot (h : Sized size elems) (hi : i < elems.length) (rest : List α) :
    load (elems.flatten ++ rest) (i * size) size = some elems[i] := by
  obtain ⟨hsplit, hfront⟩ := h.split hi rest
  have hlen : size = elems[i].length := (h _ (List.getElem_mem hi)).symm
  rw [hsplit, ← hfront]
  conv => lhs; rw [hlen]
  exact load_append

/-- A store to the slot behind the elements. -/
theorem Sized.store_next {x : List α} (h : Sized size elems) (hrest : size ≤ rest.length)
    (hx : x.length = size) :
    store (elems.flatten ++ rest) (elems.length * size) x =
      some ((elems ++ [x]).flatten ++ rest.drop size) := by
  have hx' : x.length = (rest.take size).length := by
    rw [hx, List.length_take, Nat.min_eq_left hrest]
  conv => lhs; rw [← List.take_append_drop size rest, ← List.append_assoc, ← h.length_flatten]
  rw [store_append hx', List.flatten_append, List.flatten_singleton]

end Slots

end Region
