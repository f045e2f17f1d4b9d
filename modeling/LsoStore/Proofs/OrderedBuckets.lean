import LsoStore.HashUtils

/-!
# Sorted buckets

What the table's walk relies on: every key is in the bucket its hash picks,
and each bucket is strictly increasing. A strictly increasing bucket has no
two keys that compare equal, so a stored key is found at its own item and
nowhere else, and an insertion after a failed lookup lands between a smaller
and a greater key.

The comparator only needs its strict half to be an order. Two keys that
compare equal need not be the same key; that is why insertion asks for a
failed lookup and not for an absent key.
-/

namespace LsoStore

namespace HashTable

variable {κ ν : Type} {t t' : HashTable κ ν} {key : κ} {data : ν} {item : κ × ν}

/-- Each bucket's keys are strictly increasing. -/
def Increasing (compare : κ → κ → Int) (b : List (κ × ν)) : Prop :=
  b.Pairwise fun x y => compare x.1 y.1 < 0

/-- Every key in its bucket, every bucket strictly increasing. -/
structure Ordered (t : HashTable κ ν) : Prop where
  placed : ∀ (i : Nat) (b : List (κ × ν)), t.table[i]? = some b →
    ∀ it ∈ b, t.huIndex it.1 = i
  sorted : ∀ b ∈ t.table, Increasing t.compare b

/-! ## The walk in a sorted bucket -/

theorem huNavigateList_append_cons {compare : κ → κ → Int} {before after : List (κ × ν)}
    (hb : ∀ x ∈ before, 0 < compare key x.1) (hi : ¬ 0 < compare key item.1) :
    huNavigateList compare key (before ++ item :: after) = (before, item :: after) := by
  have hstop : compare key item.1 ≤ 0 := by omega
  rw [huNavigateList_eq, SortedList.passed_append_cons hstop,
    SortedList.reached_append_cons hstop, SortedList.passed_eq_self hb,
    SortedList.reached_eq_nil hb, List.nil_append]

theorem huNavigateList_of_mem {compare : κ → κ → Int} (hc : StrictComparator compare)
    {b : List (κ × ν)} (hs : Increasing compare b) (hm : item ∈ b) :
    ∃ before after, b = before ++ item :: after ∧
      huNavigateList compare item.1 b = (before, item :: after) := by
  obtain ⟨before, after, rfl⟩ := List.append_of_mem hm
  refine ⟨before, after, rfl, huNavigateList_append_cons ?_ ?_⟩
  · intro x hx
    rw [hc.swap]
    exact (List.pairwise_append.mp hs).2.2 x hx item (List.mem_cons_self ..)
  · simp [hc.self]

/-- A walk stops at a key that compares equal as soon as there is one. -/
theorem huNavigateList_of_eq_zero {compare : κ → κ → Int} (hc : StrictComparator compare)
    {b : List (κ × ν)} (hs : Increasing compare b) (hm : item ∈ b)
    (hz : compare key item.1 = 0) :
    ∃ before curr after, huNavigateList compare key b = (before, curr :: after) ∧
      compare key curr.1 = 0 := by
  have happ := huNavigateList_append compare key b
  rcases hn : huNavigateList compare key b with ⟨before, after⟩
  rw [hn] at happ
  dsimp only at happ
  subst happ
  have hafter : item ∈ after := by
    rcases List.mem_append.mp hm with h | h
    · have hpos : 0 < compare key item.1 :=
        huNavigateList_before (before ++ after) (by rw [hn]; exact h)
      omega
    · exact h
  cases after with
  | nil => cases hafter
  | cons curr after =>
      have hstop : ¬ 0 < compare key curr.1 :=
        huNavigateList_curr (before ++ curr :: after) (by rw [hn])
      refine ⟨before, curr, after, rfl, ?_⟩
      rcases List.mem_cons.mp hafter with rfl | h
      · exact hz
      · by_contra hne
        have hlt : compare key curr.1 < 0 := by omega
        have hnext : compare curr.1 item.1 < 0 :=
          List.rel_of_pairwise_cons (List.pairwise_append.mp hs).2.1 h
        have := hc.trans _ _ _ hlt hnext
        omega

namespace Ordered

theorem bucket_of_mem (h : t.Ordered) (hm : item ∈ t.items) :
    0 < t.nEntries ∧ item ∈ t.bucket item.1 := by
  obtain ⟨i, b, hi, hmem⟩ := Buckets.mem_flatten_iff.mp hm
  have hpos : 0 < t.nEntries := by
    have hlt := (List.getElem?_eq_some_iff.mp hi).1
    exact Nat.lt_of_le_of_lt (Nat.zero_le i) hlt
  have hb := getElem?_huIndex hpos item.1
  rw [h.placed i b hi item hmem, hi, Option.some.injEq] at hb
  exact ⟨hpos, hb ▸ hmem⟩

theorem bucket_sorted (h : t.Ordered) (key : κ) : Increasing t.compare (t.bucket key) := by
  rw [bucket, List.getD_eq_getElem?_getD]
  cases hb : t.table[t.huIndex key]? with
  | none => exact List.Pairwise.nil
  | some b => exact h.sorted b (List.mem_of_getElem? hb)

theorem mem_items_of_bucket (h : item ∈ t.bucket key) : item ∈ t.items := by
  rw [bucket, List.getD_eq_getElem?_getD] at h
  cases hb : t.table[t.huIndex key]? with
  | none => simp [hb] at h
  | some b =>
      rw [hb, Option.getD_some] at h
      exact Buckets.mem_flatten_iff.mpr ⟨_, b, hb, h⟩

theorem index_of_bucket (h : t.Ordered) (hm : item ∈ t.bucket key) :
    t.huIndex item.1 = t.huIndex key := by
  rw [bucket, List.getD_eq_getElem?_getD] at hm
  cases hb : t.table[t.huIndex key]? with
  | none => simp [hb] at hm
  | some b =>
      rw [hb, Option.getD_some] at hm
      exact h.placed _ b hb item hm

/-- Removing by a stored key takes out that key's item. -/
theorem huRemove_of_mem (h : t.Ordered) (hc : StrictComparator t.compare)
    (hm : item ∈ t.items) : ∃ t', t.huRemove item.1 = some (item, t') := by
  obtain ⟨hpos, hb⟩ := h.bucket_of_mem hm
  obtain ⟨before, after, -, hn⟩ := huNavigateList_of_mem hc (h.bucket_sorted item.1) hb
  exact ⟨_, huRemove_eq_some_iff.mpr ⟨before, after, hn, hc.self _, hpos, rfl⟩⟩

theorem huGet_of_mem (h : t.Ordered) (hc : StrictComparator t.compare)
    (hm : item ∈ t.items) : t.huGet item.1 = some item.2 := by
  obtain ⟨t', ht'⟩ := h.huRemove_of_mem hc hm
  exact huGet_eq_some_iff.mpr ⟨item.1, t', ht'⟩

/-- What a lookup finds has a key in the same bucket that compares equal. -/
theorem huGet_key (h : t.Ordered) (hg : t.huGet key = some data) :
    ∃ k, (k, data) ∈ t.items ∧ t.huIndex k = t.huIndex key ∧ t.compare key k = 0 := by
  obtain ⟨k, t', hr⟩ := huGet_eq_some_iff.mp hg
  obtain ⟨before, next, hn, hz, hpos, -⟩ := huRemove_eq_some_iff.mp hr
  have happ := huNavigateList_append t.compare key (t.bucket key)
  rw [hn] at happ
  have hb : (k, data) ∈ t.bucket key := by
    rw [← happ]
    simp
  exact ⟨k, mem_items_of_bucket hb, h.index_of_bucket hb, hz⟩

/-- A lookup succeeds as soon as a key in the same bucket compares equal. -/
theorem huGet_isSome (h : t.Ordered) (hc : StrictComparator t.compare)
    (hm : item ∈ t.items) (hi : t.huIndex item.1 = t.huIndex key)
    (hz : t.compare key item.1 = 0) : ∃ v, t.huGet key = some v := by
  obtain ⟨hpos, hb⟩ := h.bucket_of_mem hm
  rw [bucket, hi, ← bucket] at hb
  obtain ⟨before, curr, after, hn, hzc⟩ :=
    huNavigateList_of_eq_zero hc (h.bucket_sorted key) hb hz
  exact ⟨curr.2, huGet_eq_some_iff.mpr
    ⟨curr.1, _, huRemove_eq_some_iff.mpr ⟨before, after, hn, hzc, hpos, rfl⟩⟩⟩

/-! ## Keeping the order -/

/-- After a failed lookup everything behind the walk is greater: a key that
compares equal would have been found. -/
theorem lt_of_mem_after (h : t.Ordered) (hc : StrictComparator t.compare)
    (hn : t.huGet key = none) :
    ∀ x ∈ (huNavigateList t.compare key (t.bucket key)).2, t.compare key x.1 < 0 := by
  have happ := huNavigateList_append t.compare key (t.bucket key)
  have hs := h.bucket_sorted key
  rw [← happ] at hs
  cases hafter : (huNavigateList t.compare key (t.bucket key)).2 with
  | nil => simp
  | cons curr next =>
      rw [hafter] at happ hs
      have hmem : curr ∈ t.bucket key := by
        rw [← happ]
        simp
      have hne : t.compare key curr.1 ≠ 0 := fun hz => by
        obtain ⟨v, hv⟩ :=
          h.huGet_isSome hc (mem_items_of_bucket hmem) (h.index_of_bucket hmem) hz
        rw [hn] at hv
        cases hv
      have hstop := huNavigateList_curr _ hafter
      have hlt : t.compare key curr.1 < 0 := by omega
      intro x hx
      rcases List.mem_cons.mp hx with rfl | hx
      · exact hlt
      · exact hc.trans _ _ _ hlt
          (List.rel_of_pairwise_cons (List.pairwise_append.mp hs).2.1 hx)

theorem increasing_insert {compare : κ → κ → Int} {before after : List (κ × ν)}
    (hs : Increasing compare (before ++ after))
    (hb : ∀ x ∈ before, compare x.1 item.1 < 0) (ha : ∀ x ∈ after, compare item.1 x.1 < 0) :
    Increasing compare (before ++ item :: after) := by
  obtain ⟨hs₁, hs₂, hs₃⟩ := List.pairwise_append.mp hs
  refine List.pairwise_append.mpr ⟨hs₁, List.pairwise_cons.mpr ⟨ha, hs₂⟩, ?_⟩
  intro x hx y hy
  rcases List.mem_cons.mp hy with rfl | hy
  · exact hb x hx
  · exact hs₃ x hx y hy

theorem huInsert (h : t.Ordered) (hc : StrictComparator t.compare)
    (hn : t.huGet key = none) : (t.huInsert key data).Ordered := by
  have hidx : ∀ k, (t.huInsert key data).huIndex k = t.huIndex k := fun k => by
    simp [huIndex]
  have hbucket : ∀ l, t.table[t.huIndex key]? = some l → t.bucket key = l := fun l hl => by
    rw [bucket, List.getD_eq_getElem?_getD, hl, Option.getD_some]
  constructor
  · intro i b hi it hit
    obtain ⟨l, hl, rfl⟩ := Buckets.getElem?_modify_eq_some.mp hi
    rw [hidx]
    split at hit
    · next heq =>
        have happ := huNavigateList_append t.compare key l
        have hcases : it = (key, data) ∨ it ∈ l := by
          rw [← happ]
          simp only [List.mem_append, List.mem_cons] at hit ⊢
          tauto
        rcases hcases with rfl | hmem
        · exact heq
        · exact h.placed i l hl it hmem
    · exact h.placed i l hl it hit
  · intro b hb
    obtain ⟨i, hi⟩ := List.mem_iff_getElem?.mp hb
    obtain ⟨l, hl, rfl⟩ := Buckets.getElem?_modify_eq_some.mp hi
    have hls : Increasing t.compare l := h.sorted l (List.mem_of_getElem? hl)
    split
    · next heq =>
        have hafter := h.lt_of_mem_after hc hn
        rw [hbucket l (heq ▸ hl)] at hafter
        rw [← huNavigateList_append t.compare key l] at hls
        refine increasing_insert hls (fun x hx => ?_) hafter
        rw [huInsert_compare, ← hc.swap]
        exact huNavigateList_before _ hx
    · exact hls

theorem huRemove (h : t.Ordered) (hr : t.huRemove key = some (item, t')) : t'.Ordered := by
  obtain ⟨before, next, hn, -, hpos, rfl⟩ := huRemove_eq_some_iff.mp hr
  have happ := huNavigateList_append t.compare key (t.bucket key)
  rw [hn] at happ
  have hsub : List.Sublist (before ++ next) (t.bucket key) := by
    rw [← happ]
    exact List.Sublist.append_left (List.sublist_cons_self item next) before
  -- every bucket of the new table is part of the bucket it replaced
  have hold : ∀ (i : Nat) (b : List (κ × ν)),
      (t.table.modify (t.huIndex key) fun _ => before ++ next)[i]? = some b →
      ∃ l, t.table[i]? = some l ∧ List.Sublist b l := by
    intro i b hi
    obtain ⟨l, hl, rfl⟩ := Buckets.getElem?_modify_eq_some.mp hi
    refine ⟨l, hl, ?_⟩
    split
    · next heq =>
        have hb := getElem?_huIndex hpos key
        rw [heq, hl, Option.some.injEq] at hb
        exact hb ▸ hsub
    · exact List.Sublist.refl l
  constructor
  · intro i b hi it hit
    obtain ⟨l, hl, hbl⟩ := hold i b hi
    have hidx := h.placed i l hl it (hbl.subset hit)
    simpa [huIndex, nEntries] using hidx
  · intro b hb
    obtain ⟨i, hi⟩ := List.mem_iff_getElem?.mp hb
    obtain ⟨l, hl, hbl⟩ := hold i b hi
    exact (h.sorted l (List.mem_of_getElem? hl)).sublist hbl

end Ordered

end HashTable

end LsoStore
