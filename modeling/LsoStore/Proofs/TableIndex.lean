import LsoStore.Indexing

/-!
# The table is never indexed without entries

A lookup and a removal ask first whether the table is empty, which one without entries
is. An insertion does not: it is reached only where a file more is allowed, and a
storage whose table has no entries allows none and never gets one. So no call faults,
and what a call does is what it does with the division taken for granted.
-/

namespace LsoStore.Indexing

section Table

variable {κ ν : Type} {t : HashTable κ ν}

theorem huIndex_eq (h : 0 < t.nEntries) (key : κ) : huIndex t key = .ret (t.huIndex key) := by
  rw [huIndex, if_neg (Nat.ne_of_gt h)]
  rfl

/-- A table that is not empty has entries. -/
theorem huIndex_bind {β : Type} (h : ¬ t.huIsEmpty = true) (key : κ) (k : Nat → Course β) :
    huIndex t key >>= k = k (t.huIndex key) := by
  have hpos := HashTable.nEntries_pos_of_not_isEmpty (Bool.eq_false_of_not_eq_true h)
  rw [huIndex_eq hpos, Course.ret_bind]

theorem huInsert_eq (h : 0 < t.nEntries) (key : κ) (data : ν) :
    huInsert t key data = .ret (t.huInsert key data) := by
  rw [huInsert, huIndex_eq h]
  rfl

theorem huGet_eq (t : HashTable κ ν) (key : κ) : huGet t key = .ret (t.huGet key) := by
  rw [huGet, HashTable.huGet]
  split
  · rfl
  · next hne =>
      rw [huIndex_bind hne, HashTable.bucket]
      rcases HashTable.huNavigateList t.compare key (t.table.getD (t.huIndex key) []) with
        ⟨before, _ | ⟨curr, next⟩⟩
      · rfl
      · dsimp only
        split <;> rfl

theorem huRemove_eq (t : HashTable κ ν) (key : κ) : huRemove t key = .ret (t.huRemove key) := by
  rw [huRemove, HashTable.huRemove]
  split
  · rfl
  · next hne =>
      rw [huIndex_bind hne, HashTable.bucket]
      rcases HashTable.huNavigateList t.compare key (t.table.getD (t.huIndex key) []) with
        ⟨before, _ | ⟨curr, next⟩⟩
      · rfl
      · dsimp only
        split <;> rfl

end Table

/-- Without entries no file is allowed and none is counted. -/
def RoomHasEntries (s : FileStorage) : Prop :=
  s.table.nEntries = 0 → s.maxFiles = 0 ∧ s.currFiles = 0

section Storage

variable {s s' : FileStorage}

theorem RoomHasEntries.init {maxFiles maxBytes : Nat}
    (h : FileStorage.fuInitFileStorage maxFiles maxBytes = some s) : RoomHasEntries s := by
  rw [FileStorage.fuInitFileStorage, FileStorage.fuInitFileStorageWith] at h
  split at h
  · cases h
    exact fun _ => ⟨rfl, rfl⟩
  · dsimp only at h
    split at h
    · cases h
    · cases h
      intro hzero
      rw [HashTable.nEntries, List.length_replicate] at hzero
      exact absurd hzero (Nat.succ_ne_zero _)

theorem RoomHasEntries.no_room (h : RoomHasEntries s) (hzero : s.table.nEntries = 0) :
    s.fuStorageFilesAvailable = 0 := by
  obtain ⟨hmax, hcurr⟩ := h hzero
  rw [FileStorage.fuStorageFilesAvailable, hmax, hcurr]
  rfl

theorem fuAddFile_eq (h : RoomHasEntries s) (file : Nat) (filepath : List UInt8) :
    fuAddFile s (some file) (some filepath) = .ret (s.fuAddFile file filepath) := by
  rw [fuAddFile, FileStorage.fuAddFile]
  split
  · rfl
  · next hroom =>
      split
      · rfl
      · have hpos : 0 < s.table.nEntries :=
          Nat.pos_of_ne_zero fun hzero => hroom (h.no_room hzero)
        dsimp only
        rw [FileStorage.modifyFile_table, huInsert_eq hpos]
        rfl

theorem fuGetfile_eq (s : FileStorage) (path : List UInt8) :
    fuGetfile s (some path) = .ret (s.fuGetfile path) := by
  rw [fuGetfile, FileStorage.fuGetfile, huGet_eq, Course.ret_bind]
  cases s.table.huGet path <;> rfl

theorem fuRemoveFile_eq (s : FileStorage) (path : List UInt8) :
    fuRemoveFile s (some path) = .ret (s.fuRemoveFile path) := by
  rw [fuRemoveFile, FileStorage.fuRemoveFile, huGet_eq, Course.ret_bind]
  cases s.table.huGet path with
  | none => rfl
  | some a =>
      dsimp only
      rw [fuGetfile_eq, Course.ret_bind, huRemove_eq, Course.ret_bind, FileStorage.fuGetfile_table]
      cases s.table.huRemove path <;> rfl

theorem huGet_of_no_entries {κ ν : Type} {t : HashTable κ ν} (h : t.nEntries = 0) (key : κ) :
    t.huGet key = none := by
  have hempty : t.huIsEmpty = true := by
    rw [HashTable.huIsEmpty, List.eq_nil_of_length_eq_zero h]
    rfl
  rw [HashTable.huGet, if_pos hempty]

/-! What the calls leave of the invariant. -/

theorem RoomHasEntries.addFile (h : RoomHasEntries s) (file : Nat) (filepath : List UInt8) :
    RoomHasEntries (s.fuAddFile file filepath).2 := by
  rw [FileStorage.fuAddFile]
  split
  · exact h
  · next hroom =>
      split
      · exact h
      · intro hzero
        have hsame : s.table.nEntries = 0 := by
          rwa [← HashTable.huInsert_nEntries filepath file]
        exact absurd (h.no_room hsame) hroom

theorem RoomHasEntries.getfile (h : RoomHasEntries s) (path : List UInt8) :
    RoomHasEntries (s.fuGetfile path).2 := by
  intro hzero
  rw [FileStorage.fuGetfile_table] at hzero
  rw [(s.fuGetfile_limits path).1, FileStorage.fuGetfile_currFiles]
  exact h hzero

theorem RoomHasEntries.removeFile (h : RoomHasEntries s) (path : List UInt8) :
    RoomHasEntries (s.fuRemoveFile path).2 := by
  rw [FileStorage.fuRemoveFile]
  split
  · exact h
  · next a hget =>
      dsimp only
      rw [FileStorage.fuGetfile_table]
      split
      · exact h.getfile path
      · next item table hremove =>
          intro hzero
          have hsame : s.table.nEntries = 0 := by
            rw [← (HashTable.huRemove_fields hremove).1]
            exact hzero
          rw [huGet_of_no_entries hsame] at hget
          cases hget

/-- A call ends the process or returns, and keeps the invariant. -/
theorem RoomHasEntries.call (h : RoomHasEntries s) (qsort : Qsort Nat) (call : FuCall) :
    fuCall qsort s call = .exit ∨
      ∃ s', fuCall qsort s call = .ret s' ∧ RoomHasEntries s' := by
  cases call with
  | addFile file filepath =>
      rw [fuCall]
      match file, filepath with
      | some file, some filepath =>
          rw [fuAddFile_eq h]
          exact .inr ⟨_, rfl, h.addFile file filepath⟩
      | some file, none => exact .inr ⟨s, rfl, h⟩
      | none, _ => exact .inr ⟨s, rfl, h⟩
  | getfile path =>
      rw [fuCall]
      cases path with
      | none => exact .inr ⟨s, rfl, h⟩
      | some path =>
          rw [fuGetfile_eq]
          exact .inr ⟨_, rfl, h.getfile path⟩
  | removeFile path =>
      rw [fuCall]
      cases path with
      | none => exact .inr ⟨s, rfl, h⟩
      | some path =>
          rw [fuRemoveFile_eq]
          exact .inr ⟨_, rfl, h.removeFile path⟩
  | evictFiles bytesToFree =>
      rw [fuCall, fuEvictFiles]
      cases FileStorage.fuEvictFiles qsort s bytesToFree with
      | none => exact .inl rfl
      | some evictArr => exact .inr ⟨s, rfl, h⟩

theorem RoomHasEntries.calls (h : RoomHasEntries s) (qsort : Qsort Nat)
    (calls : List ((Nat → Option FileData) × FuCall)) : fuCalls qsort s calls ≠ .fault := by
  induction calls generalizing s with
  | nil =>
      intro hfault
      cases hfault
  | cons c calls ih =>
      obtain ⟨records, c⟩ := c
      -- the records are no part of the invariant
      have hrecords : RoomHasEntries { s with heap := records } := h
      rw [fuCalls]
      rcases hrecords.call qsort c with hexit | ⟨s', hret, hs'⟩
      · rw [hexit, Course.exit_bind]
        intro hfault
        cases hfault
      · rw [hret, Course.ret_bind]
        exact ih hs'

end Storage

/-- Whatever the limits a storage was made with, no sequence of calls comes to a division
by zero. -/
theorem never_divides_by_zero (qsort : Qsort Nat) {maxFiles maxBytes : Nat} {s : FileStorage}
    (h : FileStorage.fuInitFileStorage maxFiles maxBytes = some s)
    (calls : List ((Nat → Option FileData) × FuCall)) : fuCalls qsort s calls ≠ .fault :=
  (RoomHasEntries.init h).calls qsort calls

theorem never_divides_by_zero_no_room :
    ∃ s, FileStorage.fuInitFileStorage 0 0 = some s ∧ s.table.nEntries = 0 ∧
      fuCalls Qsort.insertion s
        [(fun _ => none, .addFile (some 0) (some [97])), (fun _ => none, .getfile (some [97])),
          (fun _ => none, .removeFile (some [97])), (fun _ => none, .evictFiles 1)] ≠ .fault :=
  ⟨_, rfl, rfl, @never_divides_by_zero Qsort.insertion 0 0 _ rfl _⟩

end LsoStore.Indexing
