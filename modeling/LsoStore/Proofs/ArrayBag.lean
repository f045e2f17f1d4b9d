import LsoStore.Lib.Runs
import LsoStore.Lib.SortedList
import LsoStore.Lib.SwapRemove
import LsoStore.RawArray

/-!
# The bounded array as a multiset

The block of an array is its elements, laid one after the other, and the slots
that are still free. Every operation leaves it so, and says in terms of the list
of elements what it does: an insertion adds one at the end, a removal puts the
last one where the old one was, `au_extends` keeps a front of the list.

The `is_sorted` flag chooses the search. It is set by `au_init_arr` on no elements
and by `au_sort`, and only what keeps the order of the elements keeps the flag, so
a binary search always finds them in order.
-/

namespace LsoStore

open Region (Sized)

namespace RawArr

variable {arr arr' : RawArr} {l : List (List UInt8)} {x : List UInt8} {i : Nat}

/-! ## The list of elements -/

/-- The elements of the array are those of `l`, in this order. -/
structure Laid (arr : RawArr) (l : List (List UInt8)) : Prop where
  sized : Sized arr.elementSize l
  count : arr.elementCount = l.length
  fits : l.length ≤ arr.len
  block : arr.data.length = arr.len * arr.elementSize
  data : ∃ rest, arr.data = l.flatten ++ rest

/-- What no operation but `au_extends` and `au_shrinks` changes. -/
structure SameShape (arr arr' : RawArr) : Prop where
  len : arr'.len = arr.len
  elementSize : arr'.elementSize = arr.elementSize
  compare : arr'.compare = arr.compare

/-- What `au_extends` and `au_shrinks` do besides the elements they keep. -/
structure Resized (newLen : Nat) (arr arr' : RawArr) : Prop where
  len : arr'.len = newLen
  elementSize : arr'.elementSize = arr.elementSize
  compare : arr'.compare = arr.compare
  isSorted : arr'.isSorted = arr.isSorted

@[simp] theorem elems_length (arr : RawArr) : arr.elems.length = arr.elementCount :=
  Region.slots_length ..

theorem Laid.elems_eq (h : Laid arr l) : arr.elems = l := by
  obtain ⟨rest, hdata⟩ := h.data
  rw [elems, h.count, hdata, h.sized.slots_flatten]

theorem copyTo_of_store {dest : Nat} {source data : List UInt8}
    (hsource : source.length = arr.elementSize)
    (h : Region.store arr.data dest source = some data) :
    arr.copyTo (some dest) source = .ret { arr with data := data } := by
  rw [copyTo, Option.bind_some, List.take_of_length_le (Nat.le_of_eq hsource), h]

theorem auGet_of_lt (h : i < arr.len) : arr.auGet i = some (i * arr.elementSize) := by
  rw [auGet, if_neg (by omega)]

namespace Laid

theorem auInsert (h : Laid arr l) (hx : x.length = arr.elementSize) (hlt : l.length < arr.len) :
    ∃ arr', arr.auInsert x = .ret (0, arr') ∧ Laid arr' (l ++ [x]) ∧ SameShape arr arr' ∧
      arr'.isSorted = false := by
  obtain ⟨rest, hdata⟩ := h.data
  have hlen := congrArg List.length hdata
  rw [h.block, List.length_append, h.sized.length_flatten] at hlen
  have hroom : arr.elementSize ≤ rest.length := by
    have hmul := Nat.mul_le_mul_right arr.elementSize (Nat.succ_le_of_lt hlt)
    rw [Nat.succ_mul] at hmul
    omega
  have hstore := h.sized.store_next hroom hx
  rw [← hdata] at hstore
  have hfull : ¬ arr.auIsFull = true := by
    rw [auIsFull, h.count]
    simpa using Nat.ne_of_lt hlt
  have hget : arr.auGet arr.elementCount = some (l.length * arr.elementSize) := by
    rw [h.count, auGet_of_lt hlt]
  refine ⟨{ arr with
      data := (l ++ [x]).flatten ++ rest.drop arr.elementSize
      elementCount := arr.elementCount + 1
      isSorted := false },
    ?_, ⟨?_, ?_, ?_, ?_, rest.drop arr.elementSize, rfl⟩, ⟨rfl, rfl, rfl⟩, rfl⟩
  · rw [RawArr.auInsert, if_neg hfull, hget, copyTo_of_store hx hstore]
    rfl
  · exact h.sized.append fun e he => by rw [List.mem_singleton.mp he, hx]
  · rw [List.length_append, h.count]
    rfl
  · rw [List.length_append]
    exact hlt
  · exact (Region.store_length hstore).trans h.block

theorem auInsert_full (h : Laid arr l) (hfull : l.length = arr.len) (x : List UInt8) :
    arr.auInsert x = .ret (1, arr) := by
  rw [RawArr.auInsert, if_pos]
  rw [auIsFull, h.count, hfull]
  simp

theorem removeAt (h : Laid arr l) (hi : i < l.length) {last : List UInt8}
    (hlast : l.getLast? = some last) :
    ∃ arr', arr.removeAt i = .ret (0, arr') ∧ Laid arr' (l.set i last).dropLast ∧
      SameShape arr arr' ∧ arr'.isSorted = false := by
  obtain ⟨rest, hdata⟩ := h.data
  have hend : l.length - 1 < l.length := by omega
  rw [List.getLast?_eq_getElem?, List.getElem?_eq_getElem hend] at hlast
  injection hlast with hlast
  have hsize : last.length = arr.elementSize := by
    rw [← hlast]
    exact h.sized _ (List.getElem_mem hend)
  have hload := h.sized.load_slot hend rest
  have hmove := h.sized.store_slot hi hsize rest
  rw [← hdata] at hload hmove
  have hzero : (List.replicate arr.elementSize (0 : UInt8)).length = arr.elementSize :=
    List.length_replicate
  -- the slot that is cleared is the last one, of a list of the same length
  have hend' : l.length - 1 < (l.set i last).length := by rwa [List.length_set]
  have hclear := (h.sized.set hsize i).store_slot hend' hzero rest
  have hset : ((l.set i last).set (l.length - 1) (List.replicate arr.elementSize 0)) =
      (l.set i last).dropLast ++ [List.replicate arr.elementSize 0] :=
    List.set_eq_dropLast_append (by rw [List.length_set]; omega) _
  have hfits := h.fits
  have hget : arr.auGet (arr.elementCount - 1) =
      some ((l.length - 1) * arr.elementSize) := by
    rw [h.count, auGet_of_lt (by omega)]
  refine ⟨{ arr with
      data := (((l.set i last).set (l.length - 1) (List.replicate arr.elementSize 0)).flatten ++
        rest)
      elementCount := arr.elementCount - 1
      isSorted := false },
    ?_, ⟨?_, ?_, ?_, ?_, List.replicate arr.elementSize 0 ++ rest, ?_⟩, ⟨rfl, rfl, rfl⟩, rfl⟩
  · rw [RawArr.removeAt, hget, auGet_of_lt (i := i) (by omega), Option.bind_some, hload, hlast]
    dsimp only
    rw [copyTo_of_store hsize hmove, Course.ret_bind,
      @copyTo_of_store { arr with data := (l.set i last).flatten ++ rest } _ _ _ hzero hclear]
    rfl
  · exact fun e he => h.sized.set hsize i e ((List.dropLast_sublist _).subset he)
  · rw [List.length_dropLast, List.length_set, ← h.count]
  · rw [List.length_dropLast, List.length_set]
    exact (Nat.sub_le _ _).trans hfits
  · rw [← h.block, ← Region.store_length hmove, ← Region.store_length hclear]
  · dsimp only
    rw [hset, List.flatten_append, List.flatten_singleton, List.append_assoc]

/-- A new block holds as many of the elements as fit. -/
theorem resize (h : Laid arr l) {newLen : Nat} (fresh : Nat → UInt8)
    (hsize : newLen * arr.elementSize ≤ muLimit) :
    ∃ data, arr.reallocData newLen fresh = some data ∧
      Laid { arr with data := data, len := newLen, elementCount := min newLen l.length }
        (l.take newLen) := by
  have hmul : SizeT.mul newLen arr.elementSize = newLen * arr.elementSize :=
    SizeT.mul_of_lt (hsize.trans_lt (by decide))
  refine ⟨Region.resize arr.data (newLen * arr.elementSize) fresh, ?_, ?_, ?_, ?_, ?_, ?_⟩
  · rw [reallocData, hmul]
    exact if_neg (Nat.not_lt.mpr hsize)
  · exact fun e he => h.sized e (List.mem_of_mem_take he)
  · rw [List.length_take]
  · rw [List.length_take]
    exact Nat.min_le_left ..
  · rw [Region.resize_length]
  · obtain ⟨rest, hdata⟩ := h.data
    have hsized : Sized arr.elementSize (l.take newLen) :=
      fun e he => h.sized e (List.mem_of_mem_take he)
    have hlen := hsized.length_flatten
    rw [List.length_take] at hlen
    -- the elements that stay are a front of the old block, and of the new one
    have hfront : arr.data.take (min newLen l.length * arr.elementSize) =
        (l.take newLen).flatten := by
      rw [hdata, ← List.take_append_drop newLen l, List.flatten_append, List.append_assoc,
        List.take_append_drop]
      exact List.take_left' hlen
    have hnew := Region.resize_take arr.data (n := min newLen l.length * arr.elementSize) fresh
      (Nat.mul_le_mul_right _ (Nat.min_le_left ..))
      (by
        rw [h.block]
        exact Nat.mul_le_mul_right _ ((Nat.min_le_right ..).trans h.fits))
    refine ⟨(Region.resize arr.data (newLen * arr.elementSize) fresh).drop
      (min newLen l.length * arr.elementSize), ?_⟩
    rw [← hfront, ← hnew, List.take_append_drop]

theorem auExtends (h : Laid arr l) {newLen : Nat} (fresh : Nat → UInt8) (hpos : newLen ≠ 0)
    (hsize : newLen * arr.elementSize ≤ muLimit) :
    ∃ arr', arr.auExtends newLen fresh = .ret (0, arr') ∧ Laid arr' (l.take newLen) ∧
      Resized newLen arr arr' := by
  obtain ⟨data, hdata, hlaid⟩ := h.resize fresh hsize
  refine ⟨_, ?_, hlaid, rfl, rfl, rfl, rfl⟩
  rw [RawArr.auExtends, if_neg hpos]
  split
  · next hlt =>
      have hcut : ({ arr with elementCount := newLen } : RawArr).reallocData newLen fresh =
          some data := hdata
      rw [h.count] at hlt
      dsimp only
      rw [hcut, Nat.min_eq_left (Nat.le_of_lt hlt)]
  · next hge =>
      rw [h.count, Nat.not_lt] at hge
      dsimp only
      rw [hdata, Nat.min_eq_right hge, ← h.count]

theorem auShrinks (h : Laid arr l) (fresh : Nat → UInt8)
    (hsize : arr.len * arr.elementSize ≤ muLimit) :
    ∃ arr', arr.auShrinks fresh = .ret (0, arr') ∧ Laid arr' l ∧ Resized l.length arr arr' := by
  rw [RawArr.auShrinks]
  split
  · next heq =>
      rw [h.count] at heq
      exact ⟨arr, rfl, h, heq.symm, rfl, rfl, rfl⟩
  · have hcount : arr.elementCount ≤ arr.len := h.count ▸ h.fits
    obtain ⟨data, hdata, hlaid⟩ :=
      h.resize fresh ((Nat.mul_le_mul_right _ hcount).trans hsize)
    rw [hdata]
    rw [h.count, Nat.min_self, List.take_length] at hlaid
    exact ⟨_, rfl, h.count ▸ hlaid, h.count, rfl, rfl, rfl⟩

theorem auSort (h : Laid arr l) (lib : SearchFunctions (List UInt8))
    {compare : List UInt8 → List UInt8 → Int} (hcompare : arr.compare = some compare)
    (hunsorted : arr.isSorted = false) :
    Laid (arr.auSort lib) (lib.qsort.sort compare l) ∧ SameShape arr (arr.auSort lib) ∧
      (arr.auSort lib).isSorted = true := by
  have hperm := lib.qsort.perm compare l
  have hsized : Sized arr.elementSize (lib.qsort.sort compare l) :=
    fun e he => h.sized e (hperm.mem_iff.mp he)
  have hcut : l.length * arr.elementSize ≤ arr.data.length := by
    rw [h.block]
    exact Nat.mul_le_mul_right _ h.fits
  have heq : arr.auSort lib =
      { arr with
        data := (lib.qsort.sort compare l).flatten ++
          arr.data.drop (arr.elementCount * arr.elementSize)
        isSorted := true } := by
    rw [RawArr.auSort, hcompare]
    dsimp only
    rw [hunsorted, if_neg (by decide), h.elems_eq]
  rw [heq]
  refine ⟨⟨hsized, ?_, ?_, ?_, _, rfl⟩, ⟨rfl, rfl, rfl⟩, rfl⟩
  · rw [hperm.length_eq, ← h.count]
  · rw [hperm.length_eq]
    exact h.fits
  · rw [List.length_append, List.length_drop, hsized.length_flatten, hperm.length_eq, h.count,
      ← h.block]
    omega

end Laid

/-- The array without its block. -/
def toUArr (arr : RawArr) : UArr (List UInt8) := ⟨arr.len, arr.elems, arr.isSorted⟩

/-- On it an insertion is the one that eviction uses. -/
theorem auInsert_toUArr (h : Laid arr arr.elems) (hx : x.length = arr.elementSize) :
    ∃ r arr', arr.auInsert x = .ret (r, arr') ∧ arr.toUArr.auInsert x = (r, arr'.toUArr) := by
  by_cases hfull : arr.elems.length = arr.len
  · refine ⟨1, arr, h.auInsert_full hfull x, ?_⟩
    rw [UArr.auInsert, if_pos]
    simpa [UArr.auIsFull, toUArr] using hfull
  · obtain ⟨arr', hins, hlaid, hshape, hflag⟩ :=
      h.auInsert hx (lt_of_le_of_ne h.fits hfull)
    refine ⟨0, arr', hins, ?_⟩
    rw [UArr.auInsert, if_neg (by simpa [UArr.auIsFull, toUArr] using hfull)]
    simp only [toUArr, hlaid.elems_eq, hshape.len, hflag]

/-! ## The order of the elements -/

/-- What an array of elements of this size is for. -/
abbrev Element (size : Nat) := { e : List UInt8 // e.length = size }

/-- A total order on them, with the answer 0 on equal ones only. -/
def OrdersElements (size : Nat) (compare : List UInt8 → List UInt8 → Int) : Prop :=
  TotalComparator fun a b : Element size => compare a b

namespace OrdersElements

variable {size : Nat} {compare : List UInt8 → List UInt8 → Int} {obj : List UInt8}

theorem orders (hc : OrdersElements size compare) (hl : Sized size l) :
    Difference.Orders compare {a | a ∈ l} where
  total a ha b hb := by
    have htotal := hc.le_swap (a := ⟨a, hl a ha⟩) (b := ⟨b, hl b hb⟩)
    dsimp only at htotal
    omega
  trans a ha b hb c hd := hc.le_trans (a := ⟨a, hl a ha⟩) (b := ⟨b, hl b hb⟩) (c := ⟨c, hl c hd⟩)

/-- Elements in order lie in order around any of them. -/
theorem aroundKey (hc : OrdersElements size compare) (hl : Sized size l)
    (hobj : obj.length = size) (hsorted : l.Pairwise fun a b => compare a b ≤ 0) :
    AroundKey compare obj l := by
  refine hsorted.imp_of_mem fun {x y} hx hy hxy => ?_
  have htrans : compare obj x ≤ 0 → compare obj y ≤ 0 := fun h =>
    hc.le_trans (a := ⟨obj, hobj⟩) (b := ⟨x, hl x hx⟩) (c := ⟨y, hl y hy⟩) h hxy
  refine ⟨fun h => htrans (Int.le_of_eq h), fun h => ?_⟩
  refine lt_of_le_of_ne (htrans (Int.le_of_lt h)) fun h0 => ?_
  -- then `y` is `obj`, and `x` is at most `obj`
  have heq := congrArg Subtype.val (hc.eq ⟨obj, hobj⟩ ⟨y, hl y hy⟩ h0)
  have hswap := hc.swap ⟨x, hl x hx⟩ ⟨obj, hobj⟩
  dsimp only at heq hswap
  rw [← heq] at hxy
  have := hswap.mpr h
  omega

theorem eq_zero (hc : OrdersElements size compare) (hl : Sized size l) (hobj : obj.length = size)
    (hx : x ∈ l) : compare obj x = 0 ↔ x = obj := by
  have heq := hc.eq_zero_iff (a := ⟨obj, hobj⟩) (b := ⟨x, hl x hx⟩)
  rw [Subtype.mk.injEq] at heq
  exact heq.trans eq_comm

end OrdersElements

/-! ## What an array keeps -/

section Holds

variable {size : Nat} {compare : List UInt8 → List UInt8 → Int}
  {lib : SearchFunctions (List UInt8)}

/-- What `au_init_arr` hands out for parameters it takes. -/
structure Accepted (size : Nat) (compare : List UInt8 → List UInt8 → Int) (arr : RawArr) :
    Prop where
  size_ne : size ≠ 0
  elementSize : arr.elementSize = size
  compare_eq : arr.compare = some compare

/-- What it hands out for others, possibly extended since. -/
structure Refused (arr : RawArr) : Prop where
  elementSize : arr.elementSize = 0
  compare_eq : arr.compare = none
  count : arr.elementCount = 0
  unsorted : arr.isSorted = false

/-- An array within its block, with an honest flag. -/
structure Holds (size : Nat) (compare : List UInt8 → List UInt8 → Int) (arr : RawArr) :
    Prop where
  laid : Laid arr arr.elems
  small : arr.len * arr.elementSize ≤ muLimit
  sorted : arr.isSorted = true → arr.elems.Pairwise fun a b => compare a b ≤ 0
  made : arr.Accepted size compare ∨ arr.Refused

theorem Accepted.of_shape (h : arr.Accepted size compare) (hshape : SameShape arr arr') :
    arr'.Accepted size compare :=
  ⟨h.size_ne, hshape.elementSize.trans h.elementSize, hshape.compare.trans h.compare_eq⟩

theorem Laid.holds (h : Laid arr l) (hsmall : arr.len * arr.elementSize ≤ muLimit)
    (hsorted : arr.isSorted = true → l.Pairwise fun a b => compare a b ≤ 0)
    (hmade : arr.Accepted size compare ∨ arr.Refused) : Holds size compare arr := by
  have heq := h.elems_eq
  exact ⟨heq.symm ▸ h, hsmall, heq.symm ▸ hsorted, hmade⟩

theorem laid_zero : Laid zero [] :=
  ⟨fun _ he => (List.not_mem_nil he).elim, rfl, Nat.le_refl _, rfl, [], rfl⟩

/-- Where the block is small enough for the allocator, a new array is made. -/
theorem auInitArr_holds {len : Nat} (hfit : len * size ≤ muLimit) :
    ∃ arr, auInitArr len size (some compare) = some arr ∧ Holds size compare arr := by
  rw [auInitArr]
  split
  · refine ⟨zero, rfl, laid_zero.holds (by decide) (fun h => by cases h) (.inr ?_)⟩
    exact ⟨rfl, rfl, rfl, rfl⟩
  · next hne =>
      push Not at hne
      have hmul : SizeT.mul len size = len * size := SizeT.mul_of_lt (hfit.trans_lt (by decide))
      dsimp only
      rw [hmul, if_neg (Nat.not_lt.mpr hfit)]
      refine ⟨_, rfl, Laid.holds (l := []) ⟨fun _ he => (List.not_mem_nil he).elim, rfl,
        Nat.zero_le _, ?_, _, rfl⟩ hfit (fun _ => .nil) (.inl ⟨hne.2, rfl, rfl⟩)⟩
      exact List.length_replicate

theorem Refused.elems_eq (h : arr.Refused) : arr.elems = [] :=
  List.eq_nil_of_length_eq_zero (by rw [elems_length, h.count])

namespace Holds

/-- Whichever search the flag chooses, it finds what is there. -/
theorem search_found (h : Holds size compare arr) (hc : OrdersElements size compare)
    (hsized : Sized size arr.elems) (obj : Element size)
    (hi : arr.search lib compare obj = some i) : arr.elems[i]? = some obj.1 := by
  have hfound : ∃ x, arr.elems[i]? = some x ∧ compare obj x = 0 := by
    rw [search] at hi
    split at hi
    · next hs =>
        exact lib.bsearch.found _ _ _ i (hc.aroundKey hsized obj.2 (h.sorted hs)) hi
    · exact lib.lfind.found _ _ _ i hi
  obtain ⟨x, hx, h0⟩ := hfound
  rw [hx, (hc.eq_zero hsized obj.2 (List.mem_of_getElem? hx)).mp h0]

theorem search_missed (h : Holds size compare arr) (hc : OrdersElements size compare)
    (hsized : Sized size arr.elems) (obj : Element size)
    (hnone : arr.search lib compare obj = none) : obj.1 ∉ arr.elems := by
  have hmissed : ∀ x ∈ arr.elems, compare obj x ≠ 0 := by
    rw [search] at hnone
    split at hnone
    · next hs =>
        exact lib.bsearch.missed _ _ _ (hc.aroundKey hsized obj.2 (h.sorted hs)) hnone
    · exact lib.lfind.missed _ _ _ hnone
  intro hmem
  exact hmissed _ hmem ((hc.eq_zero hsized obj.2 hmem).mpr rfl)

/-- The index of an element, and -1 for what is none. -/
theorem auIndexOfObj (h : Holds size compare arr) (hc : OrdersElements size compare)
    (lib : SearchFunctions (List UInt8)) (obj : Element size) :
    (∃ k : Nat, arr.auIndexOfObj lib obj = .ret k ∧ arr.elems[k]? = some obj.1) ∨
      (arr.auIndexOfObj lib obj = .ret (-1) ∧ obj.1 ∉ arr.elems) := by
  rcases h.made with hacc | href
  · have hsized : Sized size arr.elems := hacc.elementSize ▸ h.laid.sized
    have hpos : arr.elementSize ≠ 0 := hacc.elementSize.symm ▸ hacc.size_ne
    rw [RawArr.auIndexOfObj, hacc.compare_eq]
    dsimp only
    split
    · next hnone => exact .inr ⟨rfl, h.search_missed hc hsized obj hnone⟩
    · next i hi =>
        refine .inl ⟨i, ?_, h.search_found hc hsized obj hi⟩
        rw [if_neg hpos, Nat.mul_div_cancel _ (Nat.pos_of_ne_zero hpos)]
  · refine .inr ⟨?_, ?_⟩
    · rw [RawArr.auIndexOfObj, href.compare_eq]
      exact if_pos href.count
    · rw [href.elems_eq]
      exact List.not_mem_nil

end Holds

/-! ## Any sequence of calls -/

/-- A call on an array of elements of one size. `fresh` is what the allocator
leaves in a block. -/
inductive ArrayCall (size : Nat) where
  | auInsert (newElement : Element size)
  | auRemove (oldElement : Element size)
  | auSort
  | auExtends (newLen : Nat) (fresh : Nat → UInt8)
  | auShrinks (fresh : Nat → UInt8)

/-- The result and the array; `au_sort` has no result. -/
def call (lib : SearchFunctions (List UInt8)) (arr : RawArr) :
    ArrayCall size → Course (Int × RawArr)
  | .auInsert newElement => arr.auInsert newElement
  | .auRemove oldElement => arr.auRemove lib oldElement
  | .auSort => .ret (0, arr.auSort lib)
  | .auExtends newLen fresh => arr.auExtends newLen fresh
  | .auShrinks fresh => arr.auShrinks fresh

/-- What a caller sees to: the allocator's limit, no shrinking to nothing, and no
insertion into an array that `au_init_arr` refused to make and `au_extends` gave a
length. -/
def Asks (arr : RawArr) : ArrayCall size → Prop
  | .auInsert _ => arr.compare = none → arr.len = 0
  | .auExtends newLen _ => newLen * arr.elementSize ≤ muLimit
  | .auShrinks _ => arr.elems ≠ []
  | _ => True

/-- The elements, without their order. -/
def bag (arr : RawArr) : Multiset (List UInt8) := arr.elems

/-- What a call is for. -/
def Does (arr : RawArr) (r : Int) (arr' : RawArr) : ArrayCall size → Prop
  | .auInsert newElement =>
      if arr.bag.card = arr.len then r = 1 ∧ arr' = arr
      else r = 0 ∧ arr'.bag = newElement.1 ::ₘ arr.bag ∧ arr'.len = arr.len
  | .auRemove oldElement =>
      if oldElement.1 ∈ arr.bag then
        r = 0 ∧ arr'.bag = arr.bag.erase oldElement ∧ arr'.len = arr.len
      else r = 1 ∧ arr' = arr
  | .auSort =>
      arr'.bag = arr.bag ∧ arr'.len = arr.len ∧ (arr.compare ≠ none → arr'.isSorted = true)
  | .auExtends newLen _ =>
      if newLen = 0 then r = 1 ∧ arr' = arr
      else r = 0 ∧ arr'.elems = arr.elems.take newLen ∧ arr'.len = newLen
  | .auShrinks _ => r = 0 ∧ arr'.elems = arr.elems ∧ arr'.len = arr.bag.card

namespace Holds

/-- An outcome on the elements is one on the array. -/
theorem of_laid (h : Holds size compare arr) (hlaid : Laid arr' l) (hshape : SameShape arr arr')
    (hsorted : arr'.isSorted = true → l.Pairwise fun a b => compare a b ≤ 0)
    (hmade : arr'.Accepted size compare ∨ arr'.Refused) : Holds size compare arr' := by
  refine hlaid.holds ?_ hsorted hmade
  rw [hshape.len, hshape.elementSize]
  exact h.small

/-- An array that is no longer sorted has nothing to say of its order. -/
theorem of_unsorted (h : Holds size compare arr) (hacc : arr.Accepted size compare)
    (hlaid : Laid arr' l) (hshape : SameShape arr arr') (hflag : arr'.isSorted = false) :
    Holds size compare arr' := by
  refine h.of_laid hlaid hshape (fun hsorted => ?_) (.inl (hacc.of_shape hshape))
  rw [hflag] at hsorted
  cases hsorted

/-- What both resizing functions leave: a front of the elements in their order. -/
theorem of_take (h : Holds size compare arr) {n newLen : Nat}
    (hlaid : Laid arr' (arr.elems.take n)) (hres : Resized newLen arr arr')
    (hsmall : newLen * arr.elementSize ≤ muLimit) : Holds size compare arr' := by
  refine hlaid.holds ?_ (fun hs => ?_) ?_
  · rwa [hres.len, hres.elementSize]
  · exact (h.sorted (hres.isSorted ▸ hs)).sublist (List.take_sublist ..)
  · rcases h.made with hacc | href
    · exact .inl ⟨hacc.size_ne, hres.elementSize.trans hacc.elementSize,
        hres.compare.trans hacc.compare_eq⟩
    · refine .inr ⟨hres.elementSize.trans href.elementSize, hres.compare.trans href.compare_eq, ?_,
        hres.isSorted.trans href.unsorted⟩
      rw [hlaid.count, href.elems_eq, List.take_nil, List.length_nil]

theorem after_insert (h : Holds size compare arr) (x : Element size)
    (hasks : arr.Asks (.auInsert x)) :
    ∃ r arr', arr.auInsert x = .ret (r, arr') ∧ arr.Does r arr' (.auInsert x) ∧
      Holds size compare arr' := by
  by_cases hfull : arr.bag.card = arr.len
  · exact ⟨1, arr, h.laid.auInsert_full hfull x, by rw [Does, if_pos hfull]; exact ⟨rfl, rfl⟩, h⟩
  · have hlt : arr.elems.length < arr.len := lt_of_le_of_ne h.laid.fits hfull
    have hacc : arr.Accepted size compare := by
      rcases h.made with hacc | href
      · exact hacc
      · have hlen := hasks href.compare_eq
        omega
    obtain ⟨arr', hins, hlaid, hshape, hflag⟩ :=
      h.laid.auInsert (x := x) (by rw [x.2, hacc.elementSize]) hlt
    refine ⟨0, arr', hins, ?_, h.of_unsorted hacc hlaid hshape hflag⟩
    rw [Does, if_neg hfull]
    refine ⟨rfl, ?_, hshape.len⟩
    rw [bag, hlaid.elems_eq, bag, Multiset.cons_coe, Multiset.coe_eq_coe]
    exact List.perm_append_singleton ..

theorem after_remove (h : Holds size compare arr) (hc : OrdersElements size compare)
    (lib : SearchFunctions (List UInt8)) (x : Element size) :
    ∃ r arr', arr.auRemove lib x = .ret (r, arr') ∧ arr.Does r arr' (.auRemove x) ∧
      Holds size compare arr' := by
  rcases h.auIndexOfObj hc lib x with ⟨k, hk, hget⟩ | ⟨hk, hnot⟩
  · have hmem : x.1 ∈ arr.bag := Multiset.mem_coe.mpr (List.mem_of_getElem? hget)
    have hlt : k < arr.elems.length := (List.getElem?_eq_some_iff.mp hget).1
    obtain ⟨last, hlast⟩ : ∃ last, arr.elems.getLast? = some last :=
      ⟨_, List.getLast?_eq_some_getLast (List.ne_nil_of_length_pos (by omega))⟩
    have hacc : arr.Accepted size compare := by
      rcases h.made with hacc | href
      · exact hacc
      · rw [href.elems_eq] at hlt
        cases hlt
    obtain ⟨arr', hrem, hlaid, hshape, hflag⟩ := h.laid.removeAt hlt hlast
    refine ⟨0, arr', ?_, ?_, h.of_unsorted hacc hlaid hshape hflag⟩
    · have hbusy : ¬ arr.auIsEmpty = true := by
        rw [elems_length] at hlt
        simp only [auIsEmpty, decide_eq_true_eq]
        omega
      rw [auRemove, if_neg hbusy, hk, Course.ret_bind, if_neg (by omega), Int.toNat_natCast, hrem]
    · rw [Does, if_pos hmem]
      refine ⟨rfl, ?_, hshape.len⟩
      have hperm := List.perm_set_dropLast hlast hget
      rw [bag, bag, Multiset.coe_eq_coe.mpr hperm, ← Multiset.cons_coe, Multiset.erase_cons_head,
        hlaid.elems_eq]
  · refine ⟨1, arr, ?_, ?_, h⟩
    · rw [auRemove]
      split
      · rfl
      · rw [hk, Course.ret_bind, if_pos rfl]
    · rw [Does, if_neg (show x.1 ∉ arr.bag from hnot)]
      exact ⟨rfl, rfl⟩

theorem after_sort (h : Holds size compare arr) (hc : OrdersElements size compare)
    (lib : SearchFunctions (List UInt8)) :
    arr.Does 0 (arr.auSort lib) (.auSort : ArrayCall size) ∧
      Holds size compare (arr.auSort lib) := by
  rw [Does]
  rcases h.made with hacc | href
  · cases hs : arr.isSorted with
    | true =>
        have heq : arr.auSort lib = arr := by
          rw [auSort, hacc.compare_eq]
          exact if_pos hs
        rw [heq]
        exact ⟨⟨rfl, rfl, fun _ => hs⟩, h⟩
    | false =>
        obtain ⟨hlaid, hshape, hflag⟩ := h.laid.auSort lib hacc.compare_eq hs
        have hsized : Sized size arr.elems := hacc.elementSize ▸ h.laid.sized
        refine ⟨⟨?_, hshape.len, fun _ => hflag⟩,
          h.of_laid hlaid hshape (fun _ => ?_) (.inl (hacc.of_shape hshape))⟩
        · rw [bag, hlaid.elems_eq, bag, Multiset.coe_eq_coe]
          exact lib.qsort.perm ..
        · exact lib.sorts _ _ (hc.orders hsized)
  · have heq : arr.auSort lib = arr := by rw [auSort, href.compare_eq]
    rw [heq]
    exact ⟨⟨rfl, rfl, fun hne => absurd href.compare_eq hne⟩, h⟩

theorem after_extends (h : Holds size compare arr) (newLen : Nat) (fresh : Nat → UInt8)
    (hasks : newLen * arr.elementSize ≤ muLimit) :
    ∃ r arr', arr.auExtends newLen fresh = .ret (r, arr') ∧
      arr.Does r arr' (.auExtends newLen fresh : ArrayCall size) ∧ Holds size compare arr' := by
  by_cases hzero : newLen = 0
  · refine ⟨1, arr, by rw [auExtends, if_pos hzero], ?_, h⟩
    rw [Does, if_pos hzero]
    exact ⟨rfl, rfl⟩
  · obtain ⟨arr', hext, hlaid, hres⟩ := h.laid.auExtends fresh hzero hasks
    refine ⟨0, arr', hext, ?_, h.of_take hlaid hres hasks⟩
    rw [Does, if_neg hzero]
    exact ⟨rfl, hlaid.elems_eq, hres.len⟩

theorem after_shrinks (h : Holds size compare arr) (fresh : Nat → UInt8) :
    ∃ r arr', arr.auShrinks fresh = .ret (r, arr') ∧
      arr.Does r arr' (.auShrinks fresh : ArrayCall size) ∧ Holds size compare arr' := by
  obtain ⟨arr', hshr, hlaid, hres⟩ := h.laid.auShrinks fresh h.small
  have hsmall : arr.elems.length * arr.elementSize ≤ muLimit :=
    (Nat.mul_le_mul_right _ h.laid.fits).trans h.small
  rw [← List.take_length (l := arr.elems)] at hlaid
  refine ⟨0, arr', hshr, ⟨rfl, ?_, hres.len⟩, h.of_take hlaid hres hsmall⟩
  rw [hlaid.elems_eq, List.take_length]

/-- No call fails to return, and each does what it is for. -/
theorem after_call (h : Holds size compare arr) (hc : OrdersElements size compare)
    (lib : SearchFunctions (List UInt8)) (c : ArrayCall size) (hasks : arr.Asks c) :
    ∃ r arr', arr.call lib c = .ret (r, arr') ∧ arr.Does r arr' c ∧ Holds size compare arr' := by
  cases c with
  | auInsert x => exact h.after_insert x hasks
  | auRemove x => exact h.after_remove hc lib x
  | auSort => exact ⟨0, _, rfl, h.after_sort hc lib⟩
  | auExtends newLen fresh => exact h.after_extends newLen fresh hasks
  | auShrinks fresh => exact h.after_shrinks fresh

end Holds

/-- What the index of an object says. -/
structure IsIndex (arr : RawArr) (obj : List UInt8) (i : Int) : Prop where
  found : obj ∈ arr.elems → ∃ k : Nat, i = k ∧ arr.elems[k]? = some obj
  missed : obj ∉ arr.elems → i = -1

theorem Holds.isIndex (h : Holds size compare arr) (hc : OrdersElements size compare)
    (lib : SearchFunctions (List UInt8)) (obj : Element size) :
    ∃ i, arr.auIndexOfObj lib obj = .ret i ∧ IsIndex arr obj i := by
  rcases h.auIndexOfObj hc lib obj with ⟨k, hk, hget⟩ | ⟨hk, hnot⟩
  · refine ⟨k, hk, fun _ => ⟨k, rfl, hget⟩, fun hnot => ?_⟩
    exact absurd (List.mem_of_getElem? hget) hnot
  · exact ⟨-1, hk, fun hmem => absurd hmem hnot, fun _ => rfl⟩

/-- `au_find` answers where such an element lies. -/
theorem Holds.auFind (h : Holds size compare arr) (hc : OrdersElements size compare)
    (lib : SearchFunctions (List UInt8)) (obj : Element size) :
    (∃ k : Nat, arr.auFind lib obj = .ret (some (k * arr.elementSize)) ∧
        arr.elems[k]? = some obj.1) ∨
      (arr.auFind lib obj = .ret none ∧ obj.1 ∉ arr.elems) := by
  rcases h.auIndexOfObj hc lib obj with ⟨k, hk, hget⟩ | ⟨hk, hnot⟩
  · have hlt := (List.getElem?_eq_some_iff.mp hget).1
    refine .inl ⟨k, ?_, hget⟩
    rw [RawArr.auFind, hk, Course.ret_bind, if_neg (by omega), Int.toNat_natCast,
      auGet_of_lt (hlt.trans_le h.laid.fits)]
  · refine .inr ⟨?_, hnot⟩
    rw [RawArr.auFind, hk, Course.ret_bind, if_pos (by decide)]

/-- A call that is asked for and returns. -/
def CallStep (size : Nat) (lib : SearchFunctions (List UInt8)) (arr : RawArr)
    (c : ArrayCall size) (arr' : RawArr) : Prop :=
  arr.Asks c ∧ ∃ r, arr.call lib c = .ret (r, arr')

/-- After any sequence of calls the array is a multiset of no more elements than it
has slots for, its flag is honest, the index of an object is that of an element
equal to it, and the next call does what it is for. -/
theorem array_is_bag {len : Nat} (hc : OrdersElements size compare)
    (hfit : len * size ≤ muLimit) (lib : SearchFunctions (List UInt8)) :
    ∃ arr₀, auInitArr len size (some compare) = some arr₀ ∧
      ∀ past arr, Run (· = arr₀) (CallStep size lib) past arr →
        arr.bag.card ≤ arr.len ∧
        (arr.isSorted = true → arr.elems.Pairwise fun a b => compare a b ≤ 0) ∧
        (∀ obj : Element size, ∃ i, arr.auIndexOfObj lib obj = .ret i ∧ IsIndex arr obj i) ∧
        ∀ c : ArrayCall size, arr.Asks c →
          ∃ r arr', arr.call lib c = .ret (r, arr') ∧ arr.Does r arr' c := by
  obtain ⟨arr₀, hinit, hholds⟩ := @auInitArr_holds _ compare _ hfit
  refine ⟨arr₀, hinit, fun past arr hrun => ?_⟩
  have hall := hrun.always (fun arr heq => heq ▸ hholds) fun arr c arr' h hstep => by
    obtain ⟨hasks, r, hcall⟩ := hstep
    obtain ⟨r', arr'', hret, -, hnext⟩ := Holds.after_call h hc lib c hasks
    rw [hcall] at hret
    cases hret
    exact hnext
  have h := hall arr (mem_visited_self past arr)
  refine ⟨h.laid.fits, h.sorted, h.isIndex hc lib, fun c hasks => ?_⟩
  obtain ⟨r, arr', hret, hdoes, -⟩ := h.after_call hc lib c hasks
  exact ⟨r, arr', hret, hdoes⟩

end Holds

/-- Bytes compared by subtracting them. -/
def byteCompare (a b : List UInt8) : Int := ((a.headD 0).toNat : Int) - (b.headD 0).toNat

theorem ordersElements_byteCompare : OrdersElements 1 byteCompare where
  self a := Int.sub_self _
  swap a b := by
    dsimp only [byteCompare]
    omega
  trans a b c := by
    dsimp only [byteCompare]
    omega
  eq a b h := by
    obtain ⟨x, hx⟩ := List.length_eq_one_iff.mp a.2
    obtain ⟨y, hy⟩ := List.length_eq_one_iff.mp b.2
    dsimp only [byteCompare] at h
    rw [hx, hy, List.headD_cons, List.headD_cons] at h
    refine Subtype.ext ?_
    rw [hx, hy, UInt8.toNat_inj.mp (show x.toNat = y.toNat by omega)]

/-- Two bytes. -/
theorem array_is_bag_bytes :
    ∃ arr₀, auInitArr 2 1 (some byteCompare) = some arr₀ ∧
      ∀ past arr, Run (· = arr₀) (CallStep 1 .linear) past arr →
        arr.bag.card ≤ arr.len ∧
        (arr.isSorted = true → arr.elems.Pairwise fun a b => byteCompare a b ≤ 0) ∧
        (∀ obj : Element 1, ∃ i, arr.auIndexOfObj .linear obj = .ret i ∧ IsIndex arr obj i) ∧
        ∀ c : ArrayCall 1, arr.Asks c →
          ∃ r arr', arr.call .linear c = .ret (r, arr') ∧ arr.Does r arr' c :=
  array_is_bag ordersElements_byteCompare (by decide) .linear

/-- An array of no slots, made longer: the element put into it is not there, and the
search for it calls a null pointer. -/
theorem refused_array_fails :
    ∃ arr₀ arr₁ arr₂, auInitArr 0 1 (some byteCompare) = some arr₀ ∧
      arr₀.auExtends 1 (fun _ => 0) = .ret (0, arr₁) ∧ arr₁.auInsert [7] = .ret (0, arr₂) ∧
      [7] ∉ arr₂.elems ∧ arr₂.auIndexOfObj .linear [7] = .fault :=
  ⟨zero, ⟨[], 1, 0, 0, none, false⟩, ⟨[], 1, 1, 0, none, false⟩, rfl, rfl, rfl, by decide, rfl⟩

end RawArr

end LsoStore
