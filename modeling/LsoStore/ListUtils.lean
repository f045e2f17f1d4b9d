import LsoStore.Lib.SortedList

/-!
# The sorted list

`list_utils.c` for any element type and comparator. The nodes are kept sorted
by the comparator, and beside them the list keeps their number in a field of
its own. `luNavigate` is the walk of the hash table's buckets; here too it
splits the nodes in the two parts on either side of the point it stops at.

Lists are made for an element size, a comparator and a free function that are
given, and no element is NULL.
-/

namespace LsoStore

/-- `u_list`. What a removal frees is its caller's business. -/
structure UList (α : Type) where
  nodes : List α
  len : Nat
  compare : α → α → Int

namespace UList

variable {α : Type}

def luInitList (compare : α → α → Int) : UList α := ⟨[], 0, compare⟩

def luNavigate (compare : α → α → Int) (data : α) : List α → List α × List α
  | [] => ([], [])
  | curr :: next =>
      if compare data curr > 0 then
        let (before, after) := luNavigate compare data next
        (curr :: before, after)
      else ([], curr :: next)

def luIsEmpty (list : UList α) : Bool := list.len = 0

def luInsert (list : UList α) (data : α) : Int × UList α :=
  let (before, after) := luNavigate list.compare data list.nodes
  (0, { list with nodes := before ++ data :: after, len := list.len + 1 })

def luRemove (list : UList α) (data : α) : Int × UList α :=
  if list.luIsEmpty then (-1, list)
  else
    match luNavigate list.compare data list.nodes with
    | (_, []) => (-1, list)
    | (before, curr :: next) =>
        if list.compare data curr ≠ 0 then (-1, list)
        else (0, { list with nodes := before ++ next, len := list.len - 1 })

/-- The walk of `lu_index_of_obj` from a node that `res` nodes come before. -/
def indexFrom (compare : α → α → Int) (obj : α) : List α → Int → Int
  | [], _ => -1
  | curr :: next, res =>
      if compare obj curr > 0 then indexFrom compare obj next (res + 1) else res

def luIndexOfObj (list : UList α) (obj : α) : Int :=
  indexFrom list.compare obj list.nodes 0

def luGet (list : UList α) (index : Int) : Option α :=
  if index < 0 ∨ index ≥ list.len then none else list.nodes[index.toNat]?

def luFree (list : UList α) : UList α :=
  if list.luIsEmpty then list else { list with nodes := [], len := 0 }

/-! The walk as the one of the library. -/

theorem luNavigate_eq (compare : α → α → Int) (data : α) (nodes : List α) :
    luNavigate compare data nodes =
      (SortedList.passed compare id data nodes, SortedList.reached compare id data nodes) := by
  induction nodes with
  | nil => rfl
  | cons curr next ih =>
      rw [luNavigate, ih, SortedList.passed_cons, SortedList.reached_cons]
      dsimp only [id]
      split
      · rfl
      · rfl

theorem luInsert_nodes (list : UList α) (data : α) :
    (list.luInsert data).2.nodes = SortedList.passed list.compare id data list.nodes ++
      data :: SortedList.reached list.compare id data list.nodes := by
  simp only [luInsert, luNavigate_eq]

/-! ## The counter -/

/-- The counter is the number of nodes. -/
def Counted (list : UList α) : Prop := list.len = list.nodes.length

theorem Counted.luInsert {list : UList α} (h : list.Counted) (data : α) :
    (list.luInsert data).2.Counted := by
  have hnodes := congrArg List.length
    (SortedList.passed_append_reached list.compare id data list.nodes)
  rw [List.length_append] at hnodes
  rw [Counted, luInsert_nodes, List.length_append, List.length_cons, ← Nat.add_assoc, hnodes]
  exact congrArg (· + 1) h

/-- A removal takes out the head whenever the head compares equal. -/
theorem luRemove_head {list : UList α} {data curr : α} {next : List α} (h : list.Counted)
    (hnodes : list.nodes = curr :: next) (h0 : list.compare data curr = 0) :
    list.luRemove data = (0, { list with nodes := next, len := list.len - 1 }) := by
  rw [Counted, hnodes, List.length_cons] at h
  have hempty : ¬ list.luIsEmpty = true := by simp [luIsEmpty, h]
  rw [luRemove, if_neg hempty, hnodes, luNavigate, if_neg (by omega)]
  simp [h0]

end UList

end LsoStore
