import LsoStore.Lib.Buckets
import LsoStore.Lib.SizeT
import LsoStore.Lib.SortedList
import LsoStore.ArrayUtils

/-!
# The chained hash table

`hash_utils.c` for any key and value type, hash function and comparator. A
bucket is a list kept sorted by the comparator; every operation walks it with
`huNavigateList`, which stops in front of the first key the searched one is
not greater than.

The C walk hands back a pointer to the element it stopped at and one to the
element before it. Here it splits the list in the two parts on either side of
that point, so `*curr` is the head of the second part and linking a new
element after `*prev` is putting it between the two.
-/

namespace LsoStore

/-- `u_hash_table`: the buckets, the hash function and the comparator. -/
structure HashTable (κ ν : Type) where
  table : List (List (κ × ν))
  hash : κ → Nat
  compare : κ → κ → Int

namespace HashTable

variable {κ ν : Type}

def nEntries (t : HashTable κ ν) : Nat := t.table.length

/-- `none` when `mu_calloc` exits over the size of the lists, which has wrapped.
The table has the lists of the block: `nEntries` of them, unless it did wrap. -/
def huInit (nEntries : Nat) (hash : κ → Nat) (compare : κ → κ → Int) :
    Option (HashTable κ ν) :=
  let size := SizeT.mul 8 nEntries
  if size > muLimit then none
  else some ⟨List.replicate (size / 8) [], hash, compare⟩

/-- What `hu_foreach` visits, in its order. -/
def items (t : HashTable κ ν) : List (κ × ν) := t.table.flatten

def huIndex (t : HashTable κ ν) (key : κ) : Nat := t.hash key % t.nEntries

def huNavigateList (compare : κ → κ → Int) (key : κ) :
    List (κ × ν) → List (κ × ν) × List (κ × ν)
  | [] => ([], [])
  | curr :: next =>
      if compare key curr.1 > 0 then
        let (before, after) := huNavigateList compare key next
        (curr :: before, after)
      else ([], curr :: next)

def huIsEmpty (t : HashTable κ ν) : Bool := t.table.all List.isEmpty

/-- The list a key belongs to. -/
def bucket (t : HashTable κ ν) (key : κ) : List (κ × ν) :=
  t.table.getD (t.huIndex key) []

def huInsert (t : HashTable κ ν) (key : κ) (data : ν) : HashTable κ ν :=
  { t with
    table := t.table.modify (t.huIndex key) fun list =>
      let (before, after) := huNavigateList t.compare key list
      before ++ (key, data) :: after }

/-- The item the table gives up and what is left of it, or `none` for -1. -/
def huRemove (t : HashTable κ ν) (key : κ) : Option ((κ × ν) × HashTable κ ν) :=
  if t.huIsEmpty then none
  else
    match huNavigateList t.compare key (t.bucket key) with
    | (_, []) => none
    | (before, curr :: next) =>
        if t.compare key curr.1 ≠ 0 then none
        else some (curr,
          { t with table := t.table.modify (t.huIndex key) fun _ => before ++ next })

def huGet (t : HashTable κ ν) (key : κ) : Option ν :=
  if t.huIsEmpty then none
  else
    match huNavigateList t.compare key (t.bucket key) with
    | (_, []) => none
    | (_, curr :: _) => if t.compare key curr.1 ≠ 0 then none else some curr.2

/-! ## The walk -/

variable {t t' : HashTable κ ν} {key : κ} {data : ν} {item : κ × ν}

theorem huNavigateList_eq (compare : κ → κ → Int) (key : κ) (list : List (κ × ν)) :
    huNavigateList compare key list =
      (SortedList.passed compare Prod.fst key list,
        SortedList.reached compare Prod.fst key list) := by
  induction list with
  | nil => rfl
  | cons curr next ih =>
      rw [huNavigateList, ih, SortedList.passed_cons, SortedList.reached_cons]
      split
      · rfl
      · rfl

theorem huNavigateList_append (compare : κ → κ → Int) (key : κ) (list : List (κ × ν)) :
    (huNavigateList compare key list).1 ++ (huNavigateList compare key list).2 = list := by
  rw [huNavigateList_eq]
  exact SortedList.passed_append_reached ..

theorem huNavigateList_before {compare : κ → κ → Int} (list : List (κ × ν))
    (h : item ∈ (huNavigateList compare key list).1) : 0 < compare key item.1 := by
  rw [huNavigateList_eq] at h
  exact SortedList.lt_of_mem_passed h

theorem huNavigateList_curr {compare : κ → κ → Int} (list : List (κ × ν)) {next : List (κ × ν)}
    (h : (huNavigateList compare key list).2 = item :: next) :
    ¬ 0 < compare key item.1 := by
  rw [huNavigateList_eq] at h
  have hle := SortedList.le_of_reached h
  omega

/-! ## Contents

What each operation does to the contents, whatever the hash function and the
comparator are. -/

theorem getElem?_huIndex (h : 0 < t.nEntries) (key : κ) :
    t.table[t.huIndex key]? = some (t.bucket key) := by
  have hi : t.huIndex key < t.table.length := Nat.mod_lt _ h
  rw [bucket, List.getD_eq_getElem?_getD, List.getElem?_eq_getElem hi, Option.getD_some]

theorem nEntries_pos_of_not_isEmpty (h : t.huIsEmpty = false) : 0 < t.nEntries := by
  cases ht : t.table with
  | nil => simp [huIsEmpty, ht] at h
  | cons b bs => simp [nEntries, ht]

theorem huIsEmpty_iff : t.huIsEmpty = true ↔ t.items = [] := by
  simp [huIsEmpty, items, List.flatten_eq_nil_iff]

/-- The table's `hu_get` and `hu_remove` find the same item. -/
theorem huRemove_eq_some_iff :
    t.huRemove key = some (item, t') ↔
      ∃ before next,
        huNavigateList t.compare key (t.bucket key) = (before, item :: next) ∧
        t.compare key item.1 = 0 ∧ 0 < t.nEntries ∧
        t' = { t with
          table := t.table.modify (t.huIndex key) fun _ => before ++ next } := by
  rw [huRemove]
  split
  · next he =>
      simp only [reduceCtorEq, false_iff, not_exists]
      intro before next h
      obtain ⟨hn, -, hpos, -⟩ := h
      have hb := List.mem_of_getElem? (getElem?_huIndex hpos key)
      have hnil : t.bucket key = [] := by
        simpa using (List.all_eq_true.mp he) _ hb
      rw [hnil, huNavigateList] at hn
      simp at hn
  · next he =>
      have hpos := nEntries_pos_of_not_isEmpty (by simpa using he)
      rcases hn : huNavigateList t.compare key (t.bucket key) with ⟨before, after⟩
      cases after with
      | nil => simp
      | cons curr next =>
          by_cases hc : t.compare key curr.1 = 0
          · simp only [hc, ne_eq, not_true_eq_false, if_false, Option.some.injEq, Prod.mk.injEq]
            constructor
            · intro h
              obtain ⟨rfl, rfl⟩ := h
              exact ⟨before, next, ⟨rfl, rfl⟩, hc, hpos, rfl⟩
            · intro h
              obtain ⟨_, _, ⟨rfl, hcons⟩, -, -, rfl⟩ := h
              injection hcons with h₁ h₂
              subst h₁ h₂
              exact ⟨rfl, rfl⟩
          · simp only [ne_eq, hc, not_false_eq_true, if_true, reduceCtorEq, false_iff, not_exists]
            intro _ _ h
            obtain ⟨hcons, hz, -⟩ := h
            injection hcons with _ hcons
            injection hcons with h₁
            subst h₁
            exact hc hz

theorem huGet_eq_map_huRemove : t.huGet key = (t.huRemove key).map fun x => x.1.2 := by
  rw [huGet, huRemove]
  split
  · rfl
  · rcases huNavigateList t.compare key (t.bucket key) with ⟨before, _ | ⟨curr, next⟩⟩
    · rfl
    · dsimp only
      split <;> rfl

theorem huGet_eq_some_iff :
    t.huGet key = some data ↔ ∃ k t', t.huRemove key = some ((k, data), t') := by
  rw [huGet_eq_map_huRemove]
  cases h : t.huRemove key with
  | none => simp
  | some x =>
      obtain ⟨⟨k, v⟩, t'⟩ := x
      simp

theorem huInsert_items (h : 0 < t.nEntries) (key : κ) (data : ν) :
    (t.huInsert key data).items.Perm ((key, data) :: t.items) := by
  refine Buckets.flatten_modify_perm_cons (getElem?_huIndex h key) ?_
  have happ := huNavigateList_append t.compare key (t.bucket key)
  rcases hn : huNavigateList t.compare key (t.bucket key) with ⟨before, after⟩
  rw [hn] at happ
  dsimp only at happ ⊢
  rw [← happ]
  exact List.perm_middle

theorem huRemove_items (h : t.huRemove key = some (item, t')) :
    t.items.Perm (item :: t'.items) := by
  obtain ⟨before, next, hn, -, hpos, rfl⟩ := huRemove_eq_some_iff.mp h
  refine Buckets.flatten_perm_cons_modify (getElem?_huIndex hpos key) ?_
  have happ := huNavigateList_append t.compare key (t.bucket key)
  rw [hn] at happ
  rw [← happ]
  exact List.perm_middle

theorem huGet_mem (h : t.huGet key = some data) :
    ∃ k, (k, data) ∈ t.items ∧ t.compare key k = 0 := by
  obtain ⟨k, t', hr⟩ := huGet_eq_some_iff.mp h
  obtain ⟨_, _, _, hc, _⟩ := huRemove_eq_some_iff.mp hr
  exact ⟨k, (huRemove_items hr).mem_iff.mpr (List.mem_cons_self ..), hc⟩

@[simp] theorem huInsert_nEntries (key : κ) (data : ν) :
    (t.huInsert key data).nEntries = t.nEntries := by
  simp [nEntries, huInsert]

@[simp] theorem huInsert_hash (key : κ) (data : ν) :
    (t.huInsert key data).hash = t.hash := rfl

@[simp] theorem huInsert_compare (key : κ) (data : ν) :
    (t.huInsert key data).compare = t.compare := rfl

theorem huRemove_fields (h : t.huRemove key = some (item, t')) :
    t'.nEntries = t.nEntries ∧ t'.hash = t.hash ∧ t'.compare = t.compare := by
  obtain ⟨_, _, _, _, _, rfl⟩ := huRemove_eq_some_iff.mp h
  exact ⟨by simp [nEntries], rfl, rfl⟩

end HashTable

end LsoStore
