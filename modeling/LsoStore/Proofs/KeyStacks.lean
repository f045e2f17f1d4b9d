import Mathlib.Logic.Function.Basic
import LsoStore.HashUtils
import LsoStore.Lib.Runs

/-!
# The hash table as a map from keys to stacks

With a comparator that is a total order, what is stored under one key lies
side by side in one bucket, the latest in front: the walk stops at the first
key the searched one is not greater than, so an item goes in before those with
its own key, and a lookup or a removal meets the latest of them first.

A bucket is in non-decreasing order, in contrast to the strictly increasing
buckets of a storage that never stores one path twice.
-/

namespace LsoStore

open SortedList (InOrder passed reached withKey)

/-- A call on a table. Keys and data are not NULL. -/
inductive TableCall (κ ν : Type) where
  | huInsert (key : κ) (data : ν)
  | huRemove (key : κ)
  | huGet (key : κ)
  | huIsEmpty

/-- What a call returns: an `int`, or the data, `none` for NULL. -/
inductive TableAnswer (ν : Type) where
  | code (n : Int)
  | data (d : Option ν)
deriving DecidableEq

namespace HashTable

variable {κ ν : Type} {t t' : HashTable κ ν} {key k : κ} {data : ν} {item : κ × ν}

def call (t : HashTable κ ν) : TableCall κ ν → TableAnswer ν × HashTable κ ν
  | .huInsert key data => (.code 0, t.huInsert key data)
  | .huRemove key =>
      match t.huRemove key with
      | none => (.code (-1), t)
      | some (_, t') => (.code 0, t')
  | .huGet key => (.data (t.huGet key), t)
  | .huIsEmpty => (.code (if t.huIsEmpty then 1 else 0), t)

/-- The data `hu_foreach` visits under a key, in its order. -/
def visitedUnder [DecidableEq κ] (t : HashTable κ ν) (key : κ) : List ν :=
  (t.items.filter fun it => it.1 = key).map Prod.snd

end HashTable

/-- What a table is for: a stack for every key. -/
def Stacks (κ ν : Type) : Type := κ → List ν

namespace Stacks

variable {κ ν : Type} [DecidableEq κ]

def empty : Stacks κ ν := fun _ => []

open Classical in
/-- A call pushes onto, pops or looks at the stack of its key. -/
noncomputable def call (S : Stacks κ ν) : TableCall κ ν → TableAnswer ν × Stacks κ ν
  | .huInsert key data => (.code 0, Function.update S key (data :: S key))
  | .huRemove key =>
      match S key with
      | [] => (.code (-1), S)
      | _ :: rest => (.code 0, Function.update S key rest)
  | .huGet key => (.data (S key).head?, S)
  | .huIsEmpty => (.code (if ∀ key, S key = [] then 1 else 0), S)

end Stacks

namespace HashTable

variable {κ ν : Type} {t t' : HashTable κ ν} {key k : κ} {data : ν} {item : κ × ν}

/-- Every key in its bucket, no bucket decreasing. -/
structure Filed (t : HashTable κ ν) : Prop where
  nEntries : 0 < t.nEntries
  placed : ∀ (i : Nat) (b : List (κ × ν)), t.table[i]? = some b →
    ∀ it ∈ b, t.huIndex it.1 = i
  sorted : ∀ b ∈ t.table, InOrder t.compare Prod.fst b

theorem huInit_filed {nEntries : Nat} {hash : κ → Nat} {compare : κ → κ → Int}
    (hn : 1 ≤ nEntries) (hsize : 8 * nEntries < SizeT.bound)
    (h : huInit (ν := ν) nEntries hash compare = some t) :
    t.Filed ∧ t.compare = compare ∧ t.items = [] := by
  rw [huInit, SizeT.mul_of_lt hsize, Nat.mul_div_cancel_left _ (by decide)] at h
  split at h
  · cases h
  · injection h with h
    subst h
    have hempty : ∀ b ∈ List.replicate nEntries ([] : List (κ × ν)), b = [] :=
      fun b hb => List.eq_of_mem_replicate hb
    refine ⟨⟨?_, ?_, ?_⟩, rfl, ?_⟩
    · rw [HashTable.nEntries, List.length_replicate]
      omega
    · intro i b hb it hit
      rw [hempty b (List.mem_of_getElem? hb)] at hit
      cases hit
    · intro b hb
      rw [hempty b hb]
      exact SortedList.InOrder.nil
    · rw [items, List.flatten_eq_nil_iff]
      exact hempty

/-! ## One bucket -/

namespace Filed

theorem bucket_sorted (h : t.Filed) (key : κ) : InOrder t.compare Prod.fst (t.bucket key) :=
  h.sorted _ (List.mem_of_getElem? (getElem?_huIndex h.nEntries key))

/-- What has a key is all in the key's bucket. -/
theorem visitedUnder_eq [DecidableEq κ] (h : t.Filed) (hc : TotalComparator t.compare)
    (key : κ) :
    t.visitedUnder key = (withKey t.compare Prod.fst key (t.bucket key)).map Prod.snd := by
  rw [visitedUnder, withKey]
  congr 1
  have hkey : ∀ it : κ × ν,
      decide (it.1 = key) = decide (t.compare key it.1 = 0) := by
    intro it
    exact decide_eq_decide.mpr (by rw [hc.eq_zero_iff, eq_comm])
  rw [List.filter_congr fun it _ => hkey it]
  refine Buckets.filter_flatten (getElem?_huIndex h.nEntries key) ?_
  intro i b hb it hit hz
  rw [← hkey, decide_eq_true_iff] at hz
  rw [← hz, h.placed i b hb it hit]

/-- Rewriting one bucket in place, with items of that bucket only, in order. -/
theorem modify (h : t.Filed) {f : List (κ × ν) → List (κ × ν)}
    (hplaced : ∀ it ∈ f (t.bucket key), t.huIndex it.1 = t.huIndex key)
    (hsorted : InOrder t.compare Prod.fst (f (t.bucket key))) :
    Filed { t with table := t.table.modify (t.huIndex key) f } := by
  have hbucket : ∀ l, t.table[t.huIndex key]? = some l → t.bucket key = l := by
    intro l hl
    rw [getElem?_huIndex h.nEntries] at hl
    exact Option.some.inj hl
  have hidx : ∀ k, HashTable.huIndex { t with table := t.table.modify (t.huIndex key) f } k =
      t.huIndex k := by
    intro k
    simp [huIndex, HashTable.nEntries]
  constructor
  · have := h.nEntries
    simpa [HashTable.nEntries] using this
  · intro i b hb it hit
    obtain ⟨l, hl, rfl⟩ := Buckets.getElem?_modify_eq_some.mp hb
    rw [hidx]
    split at hit
    · next heq =>
        rw [← heq] at hl ⊢
        rw [← hbucket l hl] at hit
        exact hplaced it hit
    · exact h.placed i l hl it hit
  · intro b hb
    obtain ⟨i, hi⟩ := List.mem_iff_getElem?.mp hb
    obtain ⟨l, hl, rfl⟩ := Buckets.getElem?_modify_eq_some.mp hi
    split
    · next heq =>
        rw [← heq] at hl
        rw [← hbucket l hl]
        exact hsorted
    · exact h.sorted l (List.mem_of_getElem? hl)

end Filed

theorem bucket_modify (hpos : 0 < t.nEntries) (f : List (κ × ν) → List (κ × ν)) (k : κ) :
    HashTable.bucket { t with table := t.table.modify (t.huIndex key) f } k =
      if t.huIndex k = t.huIndex key then f (t.bucket key) else t.bucket k := by
  have hidx : HashTable.huIndex { t with table := t.table.modify (t.huIndex key) f } k =
      t.huIndex k := by
    simp [huIndex, HashTable.nEntries]
  have hb := getElem?_huIndex hpos k
  rw [bucket, hidx, List.getD_eq_getElem?_getD, List.getElem?_modify, hb]
  split
  · next heq =>
      rw [if_pos heq.symm, bucket, ← heq]
      rfl
  · next hne =>
      rw [if_neg (Ne.symm hne)]
      rfl

/-! ## The calls -/

theorem huInsert_eq (t : HashTable κ ν) (key : κ) (data : ν) :
    t.huInsert key data = { t with
      table := t.table.modify (t.huIndex key) fun list =>
        passed t.compare Prod.fst key list ++
          (key, data) :: reached t.compare Prod.fst key list } := by
  simp only [huInsert, huNavigateList_eq]

theorem mem_bucket_of_mem_parts (h : item ∈ passed t.compare Prod.fst key (t.bucket key) ∨
    item ∈ reached t.compare Prod.fst key (t.bucket key)) : item ∈ t.bucket key := by
  rw [← SortedList.passed_append_reached t.compare Prod.fst key (t.bucket key)]
  exact List.mem_append.mpr h

namespace Filed

theorem index_of_mem_bucket (h : t.Filed) (hm : item ∈ t.bucket key) :
    t.huIndex item.1 = t.huIndex key :=
  h.placed _ _ (getElem?_huIndex h.nEntries key) item hm

theorem huInsert (h : t.Filed) (hc : TotalComparator t.compare) (key : κ) (data : ν) :
    (t.huInsert key data).Filed := by
  rw [huInsert_eq]
  refine h.modify ?_ ((h.bucket_sorted key).insert hc rfl)
  intro it hit
  rcases List.mem_append.mp hit with hit | hit
  · exact h.index_of_mem_bucket (mem_bucket_of_mem_parts (.inl hit))
  · rcases List.mem_cons.mp hit with rfl | hit
    · rfl
    · exact h.index_of_mem_bucket (mem_bucket_of_mem_parts (.inr hit))

/-- An insertion pushes onto the stack of its key. -/
theorem visitedUnder_huInsert [DecidableEq κ] (h : t.Filed) (hc : TotalComparator t.compare)
    (key : κ) (data : ν) (k : κ) :
    (t.huInsert key data).visitedUnder k =
      Function.update t.visitedUnder key (data :: t.visitedUnder key) k := by
  rw [(h.huInsert hc key data).visitedUnder_eq hc, huInsert_compare, huInsert_eq,
    bucket_modify h.nEntries]
  by_cases hk : k = key
  · subst hk
    rw [Function.update_self, if_pos rfl,
      SortedList.withKey_insert_self (hc.self k), List.map_cons, h.visitedUnder_eq hc]
  · have hne : t.compare k key ≠ 0 := fun h0 => hk (hc.eq _ _ h0)
    rw [Function.update_of_ne hk, h.visitedUnder_eq hc]
    split
    · next hi =>
        rw [SortedList.withKey_insert_of_ne hne, bucket, bucket, hi]
    · rfl

/-- A removal that fails finds the stack of its key empty. -/
theorem visitedUnder_of_huRemove_eq_none [DecidableEq κ] (h : t.Filed)
    (hc : TotalComparator t.compare) (hr : t.huRemove key = none) :
    t.visitedUnder key = [] := by
  rw [h.visitedUnder_eq hc, List.map_eq_nil_iff]
  rw [HashTable.huRemove] at hr
  split at hr
  · next hempty =>
      have hb := List.all_eq_true.mp hempty _
        (List.mem_of_getElem? (getElem?_huIndex h.nEntries key))
      rw [List.isEmpty_iff.mp hb]
      rfl
  · rw [huNavigateList_eq] at hr
    cases hcut : reached t.compare Prod.fst key (t.bucket key) with
    | nil => exact SortedList.withKey_eq_nil_of_reached_nil hcut
    | cons curr next =>
        rw [hcut] at hr
        dsimp only at hr
        split at hr
        · next hne => exact (h.bucket_sorted key).withKey_eq_nil_of_reached_cons hc hcut hne
        · cases hr

theorem huRemove_parts (hr : t.huRemove key = some (item, t')) :
    ∃ next, reached t.compare Prod.fst key (t.bucket key) = item :: next ∧
      t.compare key item.1 = 0 ∧
      t' = { t with
        table := t.table.modify (t.huIndex key) fun _ =>
          passed t.compare Prod.fst key (t.bucket key) ++ next } := by
  obtain ⟨before, next, hn, hz, -, rfl⟩ := huRemove_eq_some_iff.mp hr
  rw [huNavigateList_eq] at hn
  injection hn with hbefore hcut
  subst hbefore
  exact ⟨next, hcut, hz, rfl⟩

theorem huRemove (h : t.Filed) (hr : t.huRemove key = some (item, t')) : t'.Filed := by
  obtain ⟨next, hcut, -, rfl⟩ := huRemove_parts hr
  refine h.modify ?_ ((h.bucket_sorted key).remove hcut)
  intro it hit
  refine h.index_of_mem_bucket (mem_bucket_of_mem_parts ?_)
  rw [hcut]
  rcases List.mem_append.mp hit with hit | hit
  · exact .inl hit
  · exact .inr (List.mem_cons_of_mem _ hit)

/-- A removal pops the stack of its key. -/
theorem visitedUnder_huRemove [DecidableEq κ] (h : t.Filed) (hc : TotalComparator t.compare)
    (hr : t.huRemove key = some (item, t')) :
    t.visitedUnder key = item.2 :: t'.visitedUnder key ∧
    ∀ k, t'.visitedUnder k =
      Function.update t.visitedUnder key (t'.visitedUnder key) k := by
  have h' := h.huRemove hr
  obtain ⟨next, hcut, hz, rfl⟩ := huRemove_parts hr
  constructor
  · rw [h.visitedUnder_eq hc, h'.visitedUnder_eq hc, bucket_modify h.nEntries, if_pos rfl,
      SortedList.withKey_remove_self hcut hz, List.map_cons]
  · intro k
    by_cases hk : k = key
    · rw [hk, Function.update_self]
    · have hne : t.compare k item.1 ≠ 0 := by
        intro h0
        exact hk ((hc.eq _ _ h0).trans (hc.eq _ _ hz).symm)
      rw [Function.update_of_ne hk, h'.visitedUnder_eq hc, h.visitedUnder_eq hc,
        bucket_modify h.nEntries]
      split
      · next hi =>
          rw [SortedList.withKey_remove_of_ne hcut hne, bucket, bucket, hi]
      · rfl

/-- The table is empty exactly when all stacks are. -/
theorem huIsEmpty_iff_visitedUnder [DecidableEq κ] :
    t.huIsEmpty = true ↔ ∀ k, t.visitedUnder k = [] := by
  rw [huIsEmpty_iff]
  constructor
  · intro h k
    rw [visitedUnder, h]
    rfl
  · intro h
    cases hitems : t.items with
    | nil => rfl
    | cons it rest =>
        have hit := h it.1
        simp [visitedUnder, hitems] at hit

end Filed

/-! ## Refinement -/

/-- The table stands for the stacks that `hu_foreach` shows. -/
structure StandsFor [DecidableEq κ] (compare : κ → κ → Int) (t : HashTable κ ν)
    (S : Stacks κ ν) : Prop where
  filed : t.Filed
  compare_eq : t.compare = compare
  visited : ∀ k, t.visitedUnder k = S k

theorem call_refines [DecidableEq κ] {compare : κ → κ → Int}
    (hc : TotalComparator compare) (t : HashTable κ ν) (S : Stacks κ ν) (c : TableCall κ ν)
    (h : StandsFor compare t S) :
    (t.call c).1 = (S.call c).1 ∧ StandsFor compare (t.call c).2 (S.call c).2 := by
  obtain ⟨hf, rfl, hv⟩ := h
  have hS : S = t.visitedUnder := funext fun k => (hv k).symm
  subst hS
  cases c with
  | huInsert key data =>
      exact ⟨rfl, hf.huInsert hc key data, rfl, hf.visitedUnder_huInsert hc key data⟩
  | huRemove key =>
      simp only [call, Stacks.call]
      cases hr : t.huRemove key with
      | none =>
          rw [hf.visitedUnder_of_huRemove_eq_none hc hr]
          exact ⟨rfl, hf, rfl, fun _ => rfl⟩
      | some res =>
          obtain ⟨item, t'⟩ := res
          obtain ⟨hself, hall⟩ := hf.visitedUnder_huRemove hc hr
          rw [hself]
          exact ⟨rfl, hf.huRemove hr, (huRemove_fields hr).2.2, hall⟩
  | huGet key =>
      refine ⟨?_, hf, rfl, fun _ => rfl⟩
      simp only [call, Stacks.call]
      rw [huGet_eq_map_huRemove]
      cases hr : t.huRemove key with
      | none =>
          rw [hf.visitedUnder_of_huRemove_eq_none hc hr]
          rfl
      | some res =>
          obtain ⟨item, t'⟩ := res
          rw [(hf.visitedUnder_huRemove hc hr).1]
          rfl
  | huIsEmpty =>
      refine ⟨?_, hf, rfl, fun _ => rfl⟩
      simp only [call, Stacks.call]
      congr 2
      exact propext Filed.huIsEmpty_iff_visitedUnder

/-- Whatever is called on a new table, it answers as a stack for every key
would, shows exactly these stacks when walked, and is left as it is by a
removal for a key whose stack is empty. -/
theorem table_of_stacks [DecidableEq κ] {nEntries : Nat} {hash : κ → Nat}
    {compare : κ → κ → Int} (hn : 1 ≤ nEntries) (hsize : 8 * nEntries < SizeT.bound)
    (hc : TotalComparator compare) (hinit : huInit nEntries hash compare = some t)
    (calls : List (TableCall κ ν)) :
    (callAll call t calls).1 = (callAll Stacks.call Stacks.empty calls).1 ∧
    (∀ key, (callAll call t calls).2.visitedUnder key =
      (callAll Stacks.call Stacks.empty calls).2 key) ∧
    ∀ key, (callAll Stacks.call Stacks.empty calls).2 key = [] →
      (callAll call t calls).2.call (.huRemove key) =
        (.code (-1), (callAll call t calls).2) := by
  obtain ⟨hf, hcmp, hitems⟩ := huInit_filed hn hsize hinit
  have hstart : StandsFor compare t Stacks.empty := by
    refine ⟨hf, hcmp, fun key => ?_⟩
    rw [visitedUnder, hitems]
    rfl
  obtain ⟨hanswers, hend⟩ := callAll_simulates (call_refines hc) hstart calls
  refine ⟨hanswers, hend.visited, fun key hempty => ?_⟩
  have hcode := (call_refines hc _ _ (.huRemove key) hend).1
  simp only [Stacks.call, hempty] at hcode
  simp only [call] at hcode ⊢
  split at hcode
  · rfl
  · cases hcode

/-- Two keys that collide, one of them inserted twice. -/
theorem table_of_stacks_collide :
    let t : HashTable Int Nat := ⟨[[], []], Int.natAbs, fun a b => a - b⟩
    let calls := [.huInsert 3 10, .huInsert 1 20, .huInsert 3 30, .huRemove 5, .huRemove 3]
    (callAll call t calls).1 = (callAll Stacks.call Stacks.empty calls).1 ∧
    (∀ key, (callAll call t calls).2.visitedUnder key =
      (callAll Stacks.call Stacks.empty calls).2 key) ∧
    ∀ key, (callAll Stacks.call Stacks.empty calls).2 key = [] →
      (callAll call t calls).2.call (.huRemove key) =
        (.code (-1), (callAll call t calls).2) :=
  table_of_stacks (show 1 ≤ 2 by decide) (by decide) TotalComparator.sub rfl _

end HashTable

end LsoStore
