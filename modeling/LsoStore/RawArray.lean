import LsoStore.Lib.CFile
import LsoStore.Lib.Region
import LsoStore.Lib.SizeT
import LsoStore.ArrayUtils

/-!
# The bounded array in memory

`array_utils.c` once more, over the bytes of the array's block: an element is
`element_size` bytes, whatever they mean, and its address is an offset in the
block. What `au_init_arr` hands back when it refuses its parameters is an array
too, of elements without bytes, with a null pointer for the comparator.

`bsearch` and `lfind` are parameters as `qsort` is. Each is promised to find an
element that compares equal, the first of them only where the elements lie in
order around the one that is looked for. The pointers that are passed are not
NULL, and what the functions print is left out.
-/

namespace LsoStore

/-- `lfind` on elements of type `α`, with the index of what it found. -/
structure Lfind (α : Type) where
  find : (α → α → Int) → α → List α → Option Nat
  found : ∀ compare key l i, find compare key l = some i →
    ∃ x, l[i]? = some x ∧ compare key x = 0
  missed : ∀ compare key l, find compare key l = none → ∀ x ∈ l, compare key x ≠ 0

/-- What is less than the key comes first, then what compares equal to it, then
what is greater. -/
def AroundKey {α : Type} (compare : α → α → Int) (key : α) (l : List α) : Prop :=
  l.Pairwise fun x y =>
    (compare key x = 0 → compare key y ≤ 0) ∧ (compare key x < 0 → compare key y < 0)

/-- `bsearch` on elements of type `α`. -/
structure Bsearch (α : Type) where
  find : (α → α → Int) → α → List α → Option Nat
  found : ∀ compare key l i, AroundKey compare key l → find compare key l = some i →
    ∃ x, l[i]? = some x ∧ compare key x = 0
  missed : ∀ compare key l, AroundKey compare key l → find compare key l = none →
    ∀ x ∈ l, compare key x ≠ 0

/-- The functions of the C library that an array uses. -/
structure SearchFunctions (α : Type) where
  qsort : Qsort α
  sorts : qsort.SortsArrays
  bsearch : Bsearch α
  lfind : Lfind α

section Linear

variable {α : Type} {compare : α → α → Int} {key : α} {l : List α} {i : Nat}

/-- The first element that compares equal. -/
def linearFind (compare : α → α → Int) (key : α) (l : List α) : Option Nat :=
  l.findIdx? fun x => compare key x = 0

theorem linearFind_found (h : linearFind compare key l = some i) :
    ∃ x, l[i]? = some x ∧ compare key x = 0 := by
  obtain ⟨hi, hx, -⟩ := List.findIdx?_eq_some_iff_getElem.mp h
  exact ⟨l[i], List.getElem?_eq_getElem hi, of_decide_eq_true hx⟩

theorem linearFind_missed (h : linearFind compare key l = none) :
    ∀ x ∈ l, compare key x ≠ 0 := by
  intro x hx h0
  have := List.findIdx?_eq_none_iff.mp h x hx
  simp [h0] at this

/-- An implementation of the three. -/
def SearchFunctions.linear : SearchFunctions α where
  qsort := Qsort.insertion
  sorts := Qsort.insertion_sortsArrays
  bsearch := ⟨linearFind, fun _ _ _ _ _ => linearFind_found, fun _ _ _ _ => linearFind_missed⟩
  lfind := ⟨linearFind, fun _ _ _ _ => linearFind_found, fun _ _ _ => linearFind_missed⟩

end Linear

/-- `u_arr`: `data` is empty for NULL, and `compare` is `none` for it. -/
structure RawArr where
  data : List UInt8
  len : Nat
  elementCount : Nat
  elementSize : Nat
  compare : Option (List UInt8 → List UInt8 → Int)
  isSorted : Bool

namespace RawArr

/-- `(u_arr){ 0 }`. -/
def zero : RawArr := ⟨[], 0, 0, 0, none, false⟩

/-- The elements, in the order in which they lie in the block. -/
def elems (arr : RawArr) : List (List UInt8) :=
  Region.slots arr.elementSize arr.elementCount arr.data

/-- `none` when `mu_calloc` exits. -/
def auInitArr (len elementSize : Nat)
    (compareFunc : Option (List UInt8 → List UInt8 → Int)) : Option RawArr :=
  if len = 0 ∨ elementSize = 0 then some zero
  else
    match compareFunc with
    | none => some zero
    | some compare =>
        let size := SizeT.mul len elementSize
        if size > muLimit then none
        else some ⟨List.replicate size 0, len, 0, elementSize, some compare, true⟩

/-- `mu_realloc` of the block; `fresh` is what the allocator left in its bytes. -/
def reallocData (arr : RawArr) (newLen : Nat) (fresh : Nat → UInt8) : Option (List UInt8) :=
  let size := SizeT.mul newLen arr.elementSize
  if size > muLimit then none else some (Region.resize arr.data size fresh)

def auIsFull (arr : RawArr) : Bool := arr.elementCount = arr.len

def auIsEmpty (arr : RawArr) : Bool := arr.elementCount = 0

/-- The offset of a slot; `none` for NULL. -/
def auGet (arr : RawArr) (index : Nat) : Option Nat :=
  if index ≥ arr.len then none else some (index * arr.elementSize)

/-- `memcpy` of one element to a pointer `au_get` returned. -/
def copyTo (arr : RawArr) (dest : Option Nat) (source : List UInt8) : Course RawArr :=
  match dest.bind fun offset => Region.store arr.data offset (source.take arr.elementSize) with
  | none => .fault
  | some data => .ret { arr with data := data }

def auInsert (arr : RawArr) (newElement : List UInt8) : Course (Int × RawArr) :=
  if arr.auIsFull then .ret (1, arr)
  else do
    let arr ← arr.copyTo (arr.auGet arr.elementCount) newElement
    .ret (0, { arr with elementCount := arr.elementCount + 1, isSorted := false })

/-- The search of `au_index_of_obj`, with the index of the element it finds. -/
def search (lib : SearchFunctions (List UInt8)) (arr : RawArr)
    (compare : List UInt8 → List UInt8 → Int) (obj : List UInt8) : Option Nat :=
  if arr.isSorted then lib.bsearch.find compare obj arr.elems
  else lib.lfind.find compare obj arr.elems

/-- The pointer that is found is the address of an element, and the difference to
the block's address is divided by the size of one. Neither search calls the
comparator when there are no elements. -/
def auIndexOfObj (lib : SearchFunctions (List UInt8)) (arr : RawArr) (obj : List UInt8) :
    Course Int :=
  match arr.compare with
  | none => if arr.elementCount = 0 then .ret (-1) else .fault
  | some compare =>
      match arr.search lib compare obj with
      | none => .ret (-1)
      | some i =>
          if arr.elementSize = 0 then .fault
          else .ret ((i * arr.elementSize / arr.elementSize : Nat) : Int)

/-- An index of -1 is the largest `size_t`, which no array has. -/
def auFind (lib : SearchFunctions (List UInt8)) (arr : RawArr) (obj : List UInt8) :
    Course (Option Nat) := do
  let i ← arr.auIndexOfObj lib obj
  .ret (if i < 0 then none else arr.auGet i.toNat)

/-- The last element is moved to where the old one was, and its slot cleared. -/
def removeAt (arr : RawArr) (i : Nat) : Course (Int × RawArr) :=
  let last := arr.auGet (arr.elementCount - 1)
  match last.bind (Region.load arr.data · arr.elementSize) with
  | none => .fault
  | some moved => do
      let arr ← arr.copyTo (arr.auGet i) moved
      let arr ← arr.copyTo last (List.replicate arr.elementSize 0)
      .ret (0, { arr with elementCount := arr.elementCount - 1, isSorted := false })

def auRemove (lib : SearchFunctions (List UInt8)) (arr : RawArr) (oldElement : List UInt8) :
    Course (Int × RawArr) :=
  if arr.auIsEmpty then .ret (1, arr)
  else do
    let i ← arr.auIndexOfObj lib oldElement
    if i = -1 then .ret (1, arr) else arr.removeAt i.toNat

def auSort (lib : SearchFunctions (List UInt8)) (arr : RawArr) : RawArr :=
  match arr.compare with
  | none => arr
  | some compare =>
      if arr.isSorted then arr
      else
        { arr with
          data := (lib.qsort.sort compare arr.elems).flatten ++
            arr.data.drop (arr.elementCount * arr.elementSize)
          isSorted := true }

def auExtends (arr : RawArr) (newLen : Nat) (fresh : Nat → UInt8) : Course (Int × RawArr) :=
  if newLen = 0 then .ret (1, arr)
  else
    let arr :=
      if newLen < arr.elementCount then { arr with elementCount := newLen } else arr
    match arr.reallocData newLen fresh with
    | none => .exit
    | some data => .ret (0, { arr with data := data, len := newLen })

def auShrinks (arr : RawArr) (fresh : Nat → UInt8) : Course (Int × RawArr) :=
  if arr.elementCount = arr.len then .ret (0, arr)
  else
    match arr.reallocData arr.elementCount fresh with
    | none => .exit
    | some data => .ret (0, { arr with data := data, len := arr.elementCount })

end RawArr

end LsoStore
