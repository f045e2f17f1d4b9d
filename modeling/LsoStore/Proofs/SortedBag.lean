import LsoStore.ListUtils
import LsoStore.Lib.Runs

/-!
# The list as a sorted multiset

With a comparator that is a total order the nodes are the elements of a
multiset from the smallest to the greatest, and the counter is their number,
after any sequence of calls on a new list.

The index of an element is where the walk for it stops. That is the element
when the list has it; when it does not, it is the first greater one, and only a
walk past the last node is reported as a failure.
-/

namespace LsoStore

open SortedList (InOrder passed reached)

/-- A call on a list. Data is not NULL. -/
inductive ListCall (α : Type) where
  | luInsert (data : α)
  | luRemove (data : α)
  | luGet (index : Int)
  | luFree

/-- What a call returns: an `int`, the data, `none` for NULL, or nothing. -/
inductive ListAnswer (α : Type) where
  | code (n : Int)
  | data (d : Option α)
  | done
deriving DecidableEq

namespace UList

variable {α : Type}

def call (list : UList α) : ListCall α → ListAnswer α × UList α
  | .luInsert data => (.code (list.luInsert data).1, (list.luInsert data).2)
  | .luRemove data => (.code (list.luRemove data).1, (list.luRemove data).2)
  | .luGet index => (.data (list.luGet index), list)
  | .luFree => (.done, list.luFree)

end UList

/-! ## The multiset -/

section Bag

variable {α : Type} {compare : α → α → Int}

/-- The element that `k` others come before, counting equal ones apart. -/
def kthSmallest (hc : TotalComparator compare) (bag : Multiset α) (k : Int) : Option α :=
  if k < 0 then none else (hc.sorted bag)[k.toNat]?

/-- What a list is for. -/
def bagCall [DecidableEq α] (hc : TotalComparator compare) (bag : Multiset α) :
    ListCall α → ListAnswer α × Multiset α
  | .luInsert data => (.code 0, data ::ₘ bag)
  | .luRemove data =>
      if data ∈ bag then (.code 0, bag.erase data) else (.code (-1), bag)
  | .luGet index => (.data (kthSmallest hc bag index), bag)
  | .luFree => (.done, 0)

end Bag

namespace UList

variable {α : Type} {compare : α → α → Int} {list : UList α} {bag : Multiset α}

/-- The nodes in order, the counter their number, the elements those of the
multiset. -/
structure Lists (compare : α → α → Int) (list : UList α) (bag : Multiset α) : Prop where
  compare_eq : list.compare = compare
  inOrder : InOrder compare id list.nodes
  len : list.len = list.nodes.length
  elements : (list.nodes : Multiset α) = bag

namespace Lists

theorem luInitList : Lists compare (luInitList compare) 0 := ⟨rfl, .nil, rfl, rfl⟩

theorem luInsert (h : Lists compare list bag) (hc : TotalComparator compare) (data : α) :
    Lists compare (list.luInsert data).2 (data ::ₘ bag) := by
  obtain ⟨rfl, hord, hlen, rfl⟩ := h
  refine ⟨rfl, ?_, Counted.luInsert hlen data, ?_⟩
  · rw [luInsert_nodes]
    exact hord.insert hc rfl
  · rw [luInsert_nodes, Multiset.cons_coe, Multiset.coe_eq_coe]
    exact SortedList.perm_place

theorem luRemove_fails (h : Lists compare list bag) (hc : TotalComparator compare) {data : α}
    (hcut : ∀ curr next, reached compare id data list.nodes = curr :: next →
      compare data curr ≠ 0) :
    data ∉ bag ∧ list.luRemove data = (-1, list) := by
  obtain ⟨rfl, hord, hlen, rfl⟩ := h
  constructor
  · intro hmem
    exact hord.not_mem_of_reached hc hcut data (Multiset.mem_coe.mp hmem) (hc.self data)
  · rw [UList.luRemove, luNavigate_eq]
    split
    · rfl
    · cases hr : reached list.compare id data list.nodes with
      | nil => rfl
      | cons curr next =>
          dsimp only
          rw [if_pos (hcut curr next hr)]

theorem luRemove_finds [DecidableEq α] (h : Lists compare list bag)
    (hc : TotalComparator compare) {data curr : α} {next : List α}
    (hr : reached compare id data list.nodes = curr :: next) (hz : compare data curr = 0) :
    data ∈ bag ∧ (list.luRemove data).1 = 0 ∧
      Lists compare (list.luRemove data).2 (bag.erase data) := by
  obtain ⟨rfl, hord, hlen, rfl⟩ := h
  have happ := SortedList.passed_append_reached list.compare id data list.nodes
  have heq : data = curr := hc.eq _ _ hz
  subst heq
  rw [hr] at happ
  have hperm : List.Perm list.nodes
      (data :: (passed list.compare id data list.nodes ++ next)) :=
    (List.Perm.of_eq happ.symm).trans List.perm_middle
  have hempty : list.luIsEmpty = false := by
    rw [luIsEmpty, hlen, hperm.length_eq]
    rfl
  have hrem : list.luRemove data =
      (0, { list with
        nodes := passed list.compare id data list.nodes ++ next, len := list.len - 1 }) := by
    rw [UList.luRemove, luNavigate_eq, hempty, hr]
    simp [hz]
  rw [hrem]
  refine ⟨hperm.mem_iff.mpr (List.mem_cons_self ..), rfl, rfl, hord.remove hr, ?_, ?_⟩
  · rw [hlen, hperm.length_eq]
    rfl
  · rw [Multiset.coe_eq_coe.mpr hperm, ← Multiset.cons_coe, Multiset.erase_cons_head]

/-- The two outcomes of a removal. -/
theorem luRemove_cases [DecidableEq α] (h : Lists compare list bag)
    (hc : TotalComparator compare) (data : α) :
    (data ∈ bag ∧ (list.luRemove data).1 = 0 ∧
      Lists compare (list.luRemove data).2 (bag.erase data)) ∨
    (data ∉ bag ∧ list.luRemove data = (-1, list)) := by
  by_cases hcut : ∀ curr next, reached compare id data list.nodes = curr :: next →
      compare data curr ≠ 0
  · exact .inr (h.luRemove_fails hc hcut)
  · push Not at hcut
    obtain ⟨curr, next, hr, hz⟩ := hcut
    exact .inl (h.luRemove_finds hc hr hz)

theorem luGet (h : Lists compare list bag) (hc : TotalComparator compare) (index : Int) :
    list.luGet index = kthSmallest hc bag index := by
  have hsorted : list.nodes = hc.sorted bag := by
    rw [← h.elements]
    exact h.inOrder.eq_sorted hc
  rw [UList.luGet, kthSmallest, ← hsorted, h.len]
  by_cases hneg : index < 0
  · rw [if_pos (.inl hneg), if_pos hneg]
  · rw [if_neg hneg]
    split
    · next hge =>
        have hlen : list.nodes.length ≤ index.toNat := by omega
        rw [List.getElem?_eq_none hlen]
    · rfl

/-- A freed list is a new one. -/
theorem luFree (h : Lists compare list bag) : list.luFree = UList.luInitList compare := by
  obtain ⟨nodes, len, cmp⟩ := list
  obtain ⟨rfl, -, hlen, -⟩ := h
  rw [UList.luFree]
  split
  · next he =>
      have hzero : len = 0 := by simpa [luIsEmpty] using he
      subst hzero
      have hnodes : nodes = [] := List.eq_nil_of_length_eq_zero hlen.symm
      rw [hnodes]
      rfl
  · rfl

end Lists

/-! ## Refinement -/

theorem call_refines [DecidableEq α] (hc : TotalComparator compare) (list : UList α)
    (bag : Multiset α) (c : ListCall α) (h : Lists compare list bag) :
    (list.call c).1 = (bagCall hc bag c).1 ∧
      Lists compare (list.call c).2 (bagCall hc bag c).2 := by
  cases c with
  | luInsert data => exact ⟨rfl, h.luInsert hc data⟩
  | luRemove data =>
      rw [call, bagCall]
      rcases h.luRemove_cases hc data with ⟨hmem, hcode, hlists⟩ | ⟨hmem, hrem⟩
      · rw [if_pos hmem, hcode]
        exact ⟨rfl, hlists⟩
      · rw [if_neg hmem, hrem]
        exact ⟨rfl, h⟩
  | luGet index =>
      rw [call, bagCall, h.luGet hc]
      exact ⟨rfl, h⟩
  | luFree =>
      rw [call, bagCall, h.luFree]
      exact ⟨rfl, .luInitList⟩

/-- Whatever is called on a new list, it answers as a sorted multiset would
and holds it: in order, counted, each occurrence once. A removal that fails
leaves the list as it is, and a freed list is a new one. -/
theorem list_of_bag [DecidableEq α] (hc : TotalComparator compare) (calls : List (ListCall α)) :
    let list := (callAll call (UList.luInitList compare) calls).2
    let bag := (callAll (bagCall hc) 0 calls).2
    (callAll call (UList.luInitList compare) calls).1 = (callAll (bagCall hc) 0 calls).1 ∧
    list.nodes.Pairwise (fun a b => compare a b ≤ 0) ∧
    list.len = list.nodes.length ∧
    (list.nodes : Multiset α) = bag ∧
    (∀ data, data ∉ bag → list.luRemove data = (-1, list)) ∧
    list.luFree = UList.luInitList compare := by
  intro list bag
  obtain ⟨hanswers, hend⟩ := callAll_simulates (call_refines hc) Lists.luInitList calls
  refine ⟨hanswers, hend.inOrder, hend.len, hend.elements, ?_, hend.luFree⟩
  intro data hmem
  rcases hend.luRemove_cases hc data with ⟨hin, -⟩ | ⟨-, hrem⟩
  · exact absurd hin hmem
  · exact hrem

/-- Two equal elements, one of them removed. -/
theorem list_of_bag_twice :
    let hc := TotalComparator.sub
    let calls : List (ListCall Int) :=
      [.luInsert 3, .luInsert 1, .luInsert 3, .luRemove 3, .luGet 1]
    let list := (callAll call (UList.luInitList fun a b => a - b) calls).2
    let bag := (callAll (bagCall hc) 0 calls).2
    (callAll call (UList.luInitList fun a b => a - b) calls).1 =
      (callAll (bagCall hc) 0 calls).1 ∧
    list.nodes.Pairwise (fun a b => a - b ≤ 0) ∧
    list.len = list.nodes.length ∧
    (list.nodes : Multiset Int) = bag ∧
    (∀ data, data ∉ bag → list.luRemove data = (-1, list)) ∧
    list.luFree = UList.luInitList fun a b => a - b :=
  list_of_bag TotalComparator.sub _

/-! ## The index of an element -/

/-- What the header promises of an index: the first position of the element,
-1 when there is none, and so a position that can be looked up. -/
structure IsIndexOf (list : UList α) (obj : α) (res : Int) : Prop where
  first : ∀ k : Nat, list.nodes[k]? = some obj → obj ∉ list.nodes.take k → res = k
  absent : obj ∉ list.nodes → res = -1
  get : 0 ≤ res → list.luGet res = some obj

theorem indexFrom_eq (obj : α) (nodes : List α) (res : Int) :
    indexFrom compare obj nodes res =
      if reached compare id obj nodes = [] then -1
      else res + (passed compare id obj nodes).length := by
  induction nodes generalizing res with
  | nil => rfl
  | cons curr next ih =>
      rw [indexFrom, SortedList.passed_cons, SortedList.reached_cons]
      dsimp only [id]
      split
      · rw [ih, List.length_cons]
        split
        · rfl
        · omega
      · simp

theorem luIndexOfObj_of_reached {obj curr : α} {next : List α}
    (hr : reached list.compare id obj list.nodes = curr :: next) :
    list.luIndexOfObj obj = (passed list.compare id obj list.nodes).length ∧
      list.nodes[(passed list.compare id obj list.nodes).length]? = some curr := by
  have happ := SortedList.passed_append_reached list.compare id obj list.nodes
  constructor
  · rw [luIndexOfObj, indexFrom_eq, hr, if_neg (List.cons_ne_nil _ _), Int.zero_add]
  · calc list.nodes[(passed list.compare id obj list.nodes).length]?
        = (passed list.compare id obj list.nodes ++ curr :: next)[
            (passed list.compare id obj list.nodes).length]? := by rw [← hr, happ]
      _ = some curr := by simp

namespace Lists

/-- An element of the list is found at its first position. -/
theorem isIndexOf_of_mem (h : Lists compare list bag) (hc : TotalComparator compare) {obj : α}
    (hmem : obj ∈ list.nodes) : IsIndexOf list obj (list.luIndexOfObj obj) := by
  obtain ⟨rfl, hord, hlen, -⟩ := h
  obtain ⟨curr, next, hr, hz⟩ : ∃ curr next,
      reached list.compare id obj list.nodes = curr :: next ∧ list.compare obj curr = 0 := by
    by_contra hnone
    push Not at hnone
    exact hord.not_mem_of_reached hc hnone obj hmem (hc.self obj)
  have heq : obj = curr := hc.eq _ _ hz
  subst heq
  obtain ⟨hidx, hget⟩ := luIndexOfObj_of_reached hr
  have happ := SortedList.passed_append_reached list.compare id obj list.nodes
  rw [hidx]
  constructor
  · intro k hk hfirst
    rcases Nat.lt_trichotomy k (passed list.compare id obj list.nodes).length with hlt | heq | hgt
    · -- what the walk passes is smaller
      rw [← happ, List.getElem?_append_left hlt] at hk
      have hpos := SortedList.lt_of_mem_passed (List.mem_of_getElem? hk)
      dsimp only [id] at hpos
      have hself := hc.self obj
      omega
    · rw [heq]
    · refine absurd ?_ hfirst
      rw [List.mem_take_iff_getElem]
      obtain ⟨hbound, hval⟩ := List.getElem?_eq_some_iff.mp hget
      exact ⟨_, by omega, hval⟩
  · intro habsent
    exact absurd hmem habsent
  · intro _
    have hbound := (List.getElem?_eq_some_iff.mp hget).1
    rw [UList.luGet, if_neg (by omega), Int.toNat_natCast, hget]

/-- An element greater than all is reported as missing. -/
theorem isIndexOf_of_greatest (h : Lists compare list bag) (hc : TotalComparator compare)
    {obj : α} (hgt : ∀ x ∈ list.nodes, 0 < compare obj x) :
    IsIndexOf list obj (list.luIndexOfObj obj) := by
  obtain ⟨rfl, -, -, -⟩ := h
  have hr : reached list.compare id obj list.nodes = [] := by
    rw [reached, List.dropWhile_eq_nil_iff]
    intro x hx
    exact decide_eq_true (hgt x hx)
  have hidx : list.luIndexOfObj obj = -1 := by
    rw [luIndexOfObj, indexFrom_eq, hr, if_pos rfl]
  have hnot : obj ∉ list.nodes := by
    intro hmem
    have hpos := hgt obj hmem
    have hself := hc.self obj
    omega
  rw [hidx]
  refine ⟨fun k hk _ => ?_, fun _ => rfl, fun hge => ?_⟩
  · exact absurd (List.mem_of_getElem? hk) hnot
  · omega

end Lists

/-- The index is the documented one exactly for an element of the list and for
one that is greater than all of them. -/
theorem index_of_obj_iff [DecidableEq α] (hc : TotalComparator compare)
    (calls : List (ListCall α)) (obj : α) :
    let list := (callAll call (UList.luInitList compare) calls).2
    IsIndexOf list obj (list.luIndexOfObj obj) ↔
      obj ∈ list.nodes ∨ ∀ x ∈ list.nodes, 0 < compare obj x := by
  intro list
  have hlists := (callAll_simulates (call_refines hc) Lists.luInitList calls).2
  constructor
  · intro hidx
    by_cases hmem : obj ∈ list.nodes
    · exact .inl hmem
    · right
      have hfail := hidx.absent hmem
      intro x hx
      cases hr : reached list.compare id obj list.nodes with
      | nil =>
          rw [reached, List.dropWhile_eq_nil_iff] at hr
          rw [← hlists.compare_eq]
          simpa using hr x hx
      | cons curr next =>
          have hpos := (luIndexOfObj_of_reached hr).1
          omega
  · intro h
    rcases h with hmem | hgt
    · exact hlists.isIndexOf_of_mem hc hmem
    · exact hlists.isIndexOf_of_greatest hc hgt

/-- 3 at position 1 is found there. -/
theorem index_of_obj_iff_found :
    let list := (callAll call (UList.luInitList fun a b : Int => a - b)
      [.luInsert 3, .luInsert 1]).2
    IsIndexOf list 3 (list.luIndexOfObj 3) ↔
      3 ∈ list.nodes ∨ ∀ x ∈ list.nodes, 0 < 3 - x :=
  index_of_obj_iff TotalComparator.sub _ 3

/-- 2 is not in the list of 1 and 3, and its index is that of 3. -/
theorem index_of_absent :
    let list := (callAll call (UList.luInitList fun a b : Int => a - b)
      [.luInsert 1, .luInsert 3]).2
    2 ∉ list.nodes ∧ list.luIndexOfObj 2 = 1 ∧ list.luGet (list.luIndexOfObj 2) = some 3 ∧
      ¬ IsIndexOf list 2 (list.luIndexOfObj 2) := by
  intro list
  have hfacts : 2 ∉ list.nodes ∧ list.luIndexOfObj 2 = 1 ∧
      list.luGet (list.luIndexOfObj 2) = some 3 := by decide
  obtain ⟨hmem, hidx, hget⟩ := hfacts
  refine ⟨hmem, hidx, hget, fun h => ?_⟩
  have hfail := h.absent hmem
  omega

end UList

end LsoStore
