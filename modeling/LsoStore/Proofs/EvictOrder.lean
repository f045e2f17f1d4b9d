import Mathlib.Data.BitVec
import LsoStore.FileUtils

/-!
# The order in which files are given up

`fu_evict_compare` is meant to put the most used file first, and of two used
equally often the longer one. It subtracts the use counts in an `unsigned int`
and reads the difference back as an `int`, so for counts 2^31 or more apart it
says the opposite. On files whose counts are closer it is the order it is meant
to be, and `qsort` sorts by it.
-/

namespace LsoStore

open FileStorage Difference

/-- `a` is to be given up before `b`. -/
def EvictBefore (a b : FileData) : Prop :=
  b.dataInfo.toNat < a.dataInfo.toNat ∨
    a.dataInfo.toNat = b.dataInfo.toNat ∧ b.dataLen < a.dataLen

instance (a b : FileData) : Decidable (EvictBefore a b) := inferInstanceAs (Decidable (_ ∨ _))

/-- `fu_evict_compare` is the order on these files. -/
structure EvictOrder (files : Set FileData) : Prop where
  antisymm : ∀ a ∈ files, ∀ b ∈ files, 0 < fuEvictCompare a b ↔ fuEvictCompare b a < 0
  trans : ∀ a ∈ files, ∀ b ∈ files, ∀ c ∈ files,
    fuEvictCompare a b ≤ 0 → fuEvictCompare b c ≤ 0 → fuEvictCompare a c ≤ 0
  before : ∀ a ∈ files, ∀ b ∈ files, fuEvictCompare a b < 0 ↔ EvictBefore a b

variable {a b c : FileData}

/-- The difference of two lengths survives the cast to `int`. -/
theorem truncate_neg_sub (ha : a.dataLen ≤ muLimit) (hb : b.dataLen ≤ muLimit) :
    ((-(BitVec.ofNat 64 a.dataLen - BitVec.ofNat 64 b.dataLen)).truncate 32).toInt =
      (b.dataLen : Int) - a.dataLen := by
  have hlimit : muLimit = 4194304 := rfl
  have htoNat : ∀ n ≤ muLimit, (BitVec.ofNat (31 + 1) n).toNat = n := fun n hn => by
    rw [BitVec.toNat_ofNat, Nat.mod_eq_of_lt (by omega)]
  have hsplit : (-(BitVec.ofNat 64 a.dataLen - BitVec.ofNat 64 b.dataLen)).truncate 32 =
      BitVec.ofNat (31 + 1) b.dataLen - BitVec.ofNat (31 + 1) a.dataLen := by
    apply BitVec.eq_of_toNat_eq
    simp only [BitVec.truncate_eq_setWidth, BitVec.toNat_setWidth, BitVec.toNat_neg,
      BitVec.toNat_sub, BitVec.toNat_ofNat]
    omega
  have hnear : Near (BitVec.ofNat (31 + 1) b.dataLen) (BitVec.ofNat (31 + 1) a.dataLen) := by
    rw [Near, htoNat _ ha, htoNat _ hb]
    omega
  rw [hsplit, toInt_sub_of_near hnear, htoNat _ ha, htoNat _ hb]

/-- Files whose counts are near are compared by count and then by length. -/
theorem fuEvictCompare_of_near (ha : a.dataLen ≤ muLimit) (hb : b.dataLen ≤ muLimit)
    (h : Near (w := 31) a.dataInfo b.dataInfo) :
    fuEvictCompare a b =
      if a.dataInfo.toNat = b.dataInfo.toNat then (b.dataLen : Int) - a.dataLen
      else (b.dataInfo.toNat : Int) - a.dataInfo.toNat := by
  have hneg : -(a.dataInfo - b.dataInfo) = b.dataInfo - a.dataInfo := by
    rw [BitVec.neg_sub, BitVec.add_comm, ← BitVec.sub_eq_add_neg]
  rw [fuEvictCompare, truncate_neg_sub ha hb, hneg, toInt_sub_of_near h.symm]
  exact if_congr (sub_eq_zero_iff (w := 31)) rfl rfl

/-- A file used at least 2^31 times more often is put behind. -/
theorem fuEvictCompare_neg_of_far (h : a.dataInfo.toNat + 2 ^ 31 ≤ b.dataInfo.toNat) :
    fuEvictCompare a b < 0 := by
  have hneg : -(a.dataInfo - b.dataInfo) = b.dataInfo - a.dataInfo := by
    rw [BitVec.neg_sub, BitVec.add_comm, ← BitVec.sub_eq_add_neg]
  have hne : ¬ a.dataInfo - b.dataInfo = 0 := fun h0 => by
    have := (sub_eq_zero_iff (w := 31)).mp h0
    omega
  rw [fuEvictCompare, hneg, if_neg hne]
  exact toInt_sub_neg_of_far (w := 31) h

section Files

variable {files : Set FileData} (hlen : ∀ f ∈ files, f.dataLen ≤ muLimit)

include hlen

theorem evictOrder_of_near
    (h : ∀ a ∈ files, ∀ b ∈ files, Near (w := 31) a.dataInfo b.dataInfo) : EvictOrder files where
  antisymm a ha b hb := by
    rw [fuEvictCompare_of_near (hlen a ha) (hlen b hb) (h a ha b hb),
      fuEvictCompare_of_near (hlen b hb) (hlen a ha) (h b hb a ha)]
    split <;> split <;> omega
  trans a ha b hb c hc := by
    rw [fuEvictCompare_of_near (hlen a ha) (hlen b hb) (h a ha b hb),
      fuEvictCompare_of_near (hlen b hb) (hlen c hc) (h b hb c hc),
      fuEvictCompare_of_near (hlen a ha) (hlen c hc) (h a ha c hc)]
    split <;> split <;> split <;> omega
  before a ha b hb := by
    rw [fuEvictCompare_of_near (hlen a ha) (hlen b hb) (h a ha b hb), EvictBefore]
    split <;> omega

omit hlen in
/-- Between counts that are far apart the comparator and the order disagree. -/
theorem EvictOrder.near (h : EvictOrder files) :
    ∀ a ∈ files, ∀ b ∈ files, Near (w := 31) a.dataInfo b.dataInfo := by
  have hside : ∀ a ∈ files, ∀ b ∈ files, b.dataInfo.toNat < a.dataInfo.toNat + 2 ^ 31 := by
    intro a ha b hb
    by_contra hfar
    have hneg := fuEvictCompare_neg_of_far (Nat.not_lt.mp hfar)
    have hbefore := (h.before a ha b hb).mp hneg
    rw [EvictBefore] at hbefore
    omega
  exact fun a ha b hb => ⟨hside b hb a ha, hside a ha b hb⟩

end Files

namespace EvictOrder

variable {files : Set FileData} {s : FileStorage}

theorem orders (h : EvictOrder files) (hs : ∀ a ∈ s.ptrs, s.file a ∈ files) :
    Orders (fun a b => fuEvictCompare (s.file a) (s.file b)) {a | a ∈ s.ptrs} where
  total a ha b hb := by
    rcases Int.lt_or_le 0 (fuEvictCompare (s.file a) (s.file b)) with hpos | hle
    · exact .inr (Int.le_of_lt ((h.antisymm _ (hs a ha) _ (hs b hb)).mp hpos))
    · exact .inl hle
  trans a ha b hb c hc := h.trans _ (hs a ha) _ (hs b hb) _ (hs c hc)

/-- The array that eviction goes through is sorted. -/
theorem pairwise_fuEvictFiles {qsort : Qsort Nat} (hq : qsort.SortsArrays)
    (h : EvictOrder files) (hs : ∀ a ∈ s.ptrs, s.file a ∈ files) {bytesToFree : Nat}
    {arr : UArr Nat} (harr : s.fuEvictFiles qsort bytesToFree = some arr) :
    arr.elems.Pairwise fun a b => ¬ EvictBefore (s.file b) (s.file a) := by
  rw [fuEvictFiles] at harr
  obtain ⟨empty, hinit, rfl⟩ := Option.map_eq_some_iff.mp harr
  have hempty : empty.elems = [] := by
    rw [UArr.auInitArr] at hinit
    split at hinit
    · injection hinit with hinit
      rw [← hinit]
      rfl
    · split at hinit
      · cases hinit
      · injection hinit with hinit
        rw [← hinit]
  have hsub : ∀ {a}, a ∈ (empty.insertAll (s.table.items.map Prod.snd)).elems → a ∈ s.ptrs := by
    intro a ha
    rcases UArr.mem_insertAll ha with ha | ha
    · rw [hempty] at ha
      cases ha
    · exact ha
  dsimp only
  split
  · exact List.Pairwise.nil
  · have hsorted := hq _ _ ((h.orders hs).mono fun a ha => hsub ha)
    refine hsorted.imp_of_mem fun ha hb hle hlater => ?_
    have hmem : ∀ {a}, a ∈ qsort.sort (fun a b => fuEvictCompare (s.file a) (s.file b))
        (empty.insertAll (s.table.items.map Prod.snd)).elems → s.file a ∈ files :=
      fun ha => hs _ (hsub ((qsort.perm _ _).mem_iff.mp ha))
    have hneg := (h.before _ (hmem hb) _ (hmem ha)).mpr hlater
    have hpos := (h.antisymm _ (hmem ha) _ (hmem hb)).mpr hneg
    omega

end EvictOrder

/-- `fu_evict_compare` is the order it is meant to be, and sorts every storage
of such files by it, exactly when no two use counts are 2^31 or more apart. -/
theorem evict_order_iff {qsort : Qsort Nat} (hq : qsort.SortsArrays) (files : Set FileData)
    (hlen : ∀ f ∈ files, f.dataLen ≤ muLimit) :
    (EvictOrder files ∧
      ∀ s : FileStorage, (∀ a ∈ s.ptrs, s.file a ∈ files) → ∀ bytesToFree arr,
        s.fuEvictFiles qsort bytesToFree = some arr →
        arr.elems.Pairwise fun a b => ¬ EvictBefore (s.file b) (s.file a)) ↔
      ∀ a ∈ files, ∀ b ∈ files, Near (w := 31) a.dataInfo b.dataInfo := by
  constructor
  · exact fun ⟨h, _⟩ => h.near
  · intro hnear
    have h := evictOrder_of_near hlen hnear
    exact ⟨h, fun s hs _ _ harr => h.pairwise_fuEvictFiles hq hs harr⟩

/-- A file of a given use count and contents. -/
def usedFile (count : BitVec 32) (data : List UInt8) : FileData := ⟨data, -1, count, []⟩

theorem evict_order_three :
    (Qsort.insertion (α := Nat)).SortsArrays ∧
      EvictOrder {usedFile 7 [], usedFile 7 [1, 2], usedFile 9 [1]} := by
  have h := evict_order_iff Qsort.insertion_sortsArrays
    {usedFile 7 [], usedFile 7 [1, 2], usedFile 9 [1]}
    (by simp [usedFile, FileData.dataLen, muLimit])
  exact ⟨Qsort.insertion_sortsArrays, (h.mpr (by simp [usedFile, Near])).1⟩

/-- One file used 2^31 times more often than the other comes before it and after
it, and three files can be in a circle. -/
theorem evict_order_fails :
    (fuEvictCompare (usedFile 0 []) (usedFile (2 ^ 31) []) < 0 ∧
      fuEvictCompare (usedFile (2 ^ 31) []) (usedFile 0 []) < 0) ∧
    fuEvictCompare (usedFile 0 []) (usedFile 0xAAAAAAAA []) < 0 ∧
    fuEvictCompare (usedFile 0xAAAAAAAA []) (usedFile 0x55555555 []) < 0 ∧
    fuEvictCompare (usedFile 0x55555555 []) (usedFile 0 []) < 0 ∧
    ¬ EvictOrder {f | f.dataLen ≤ muLimit} := by
  refine ⟨by decide, by decide, by decide, by decide, fun h => ?_⟩
  have hmem : ∀ n, usedFile n [] ∈ {f : FileData | f.dataLen ≤ muLimit} :=
    fun n => Nat.zero_le _
  exact absurd (h.near _ (hmem 0) _ (hmem (2 ^ 31))) (by decide)

end LsoStore
