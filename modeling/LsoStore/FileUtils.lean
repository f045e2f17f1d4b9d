import Mathlib.Data.Multiset.Basic
import LsoStore.Lib.SizeT
import LsoStore.ArrayUtils
import LsoStore.HashUtils
import LsoStore.StringUtils

/-!
# The file storage

`file_utils.c`: a table from paths to file records, two counters and two
limits. A record is known by its address. The table holds addresses and the
records live in `heap`, so a handler that kept a pointer sees what the others
did to the record, and a freed record is gone from the heap whatever still
points at it.

All counters are `size_t`; sums and differences are the ones of `SizeT`. A
function that can run into the allocator's limit answers `none` where the
process exits.
-/

namespace LsoStore

/-- `u_file_data`. The mutex is the address's, and `data_len` is the length
of `data`. -/
structure FileData where
  data : List UInt8
  client : Int
  dataInfo : BitVec 32
  path : List UInt8
deriving DecidableEq, Inhabited

def FileData.dataLen (f : FileData) : Nat := f.data.length

/-- `u_file_storage`, with the records its table points at and the address
the next record will get. -/
structure FileStorage where
  table : HashTable (List UInt8) Nat
  maxFiles : Nat
  currFiles : Nat
  maxBytes : Nat
  currBytes : Nat
  heap : Nat → Option FileData
  next : Nat

namespace FileStorage

/-- The record at an address the program has a right to look at. -/
def file (s : FileStorage) (a : Nat) : FileData := (s.heap a).getD default

/-- Assign to fields of the record at `a`. -/
def modifyFile (s : FileStorage) (a : Nat) (g : FileData → FileData) : FileStorage :=
  { s with heap := fun x => if x = a then (s.heap x).map g else s.heap x }

/-- `fu_free_file_data`. -/
def fuFreeFileData (s : FileStorage) (a : Nat) : FileStorage :=
  { s with heap := fun x => if x = a then none else s.heap x }

/-- `fu_init_file_storage` for any hash function and comparator. A storage
with no room for files or for bytes is the zeroed one, whose table has no
entries at all. `max_files` is an `unsigned int` where this is called, so the size
of the table does not wrap. -/
def fuInitFileStorageWith (hash : List UInt8 → Nat)
    (compare : List UInt8 → List UInt8 → Int) (maxFiles maxBytes : Nat) :
    Option FileStorage :=
  if maxFiles = 0 ∨ maxBytes = 0 then
    some ⟨⟨[], hash, compare⟩, 0, 0, 0, 0, fun _ => none, 0⟩
  else
    let nEntries := (maxFiles >>> 2) + 1
    if 8 * nEntries > muLimit then none
    else some ⟨⟨List.replicate nEntries [], hash, compare⟩, maxFiles, 0, maxBytes, 0,
      fun _ => none, 0⟩

def fuInitFileStorage (maxFiles maxBytes : Nat) : Option FileStorage :=
  fuInitFileStorageWith huHashString suStringCompare maxFiles maxBytes

/-- A new record `f` at an address no record has had before. -/
def place (s : FileStorage) (f : FileData) : Nat × FileStorage :=
  (s.next,
    { s with
      heap := fun x => if x = s.next then some f else s.heap x
      next := s.next + 1 })

/-- The `path` of a record is NULL until the record is stored. -/
def fuAllocFileData (s : FileStorage) (data : List UInt8) : Nat × FileStorage :=
  s.place ⟨data, -1, 0, []⟩

def fuStorageFilesAvailable (s : FileStorage) : Nat := SizeT.sub s.maxFiles s.currFiles

def fuStorageBytesAvailable (s : FileStorage) : Nat :=
  if s.currBytes > s.maxBytes then 0 else SizeT.sub s.maxBytes s.currBytes

def fuAddFile (s : FileStorage) (file : Nat) (filepath : List UInt8) :
    Int × FileStorage :=
  if s.fuStorageFilesAvailable = 0 then (-1, s.fuFreeFileData file)
  else if (s.file file).dataLen > s.fuStorageBytesAvailable then
    (-1, s.fuFreeFileData file)
  else
    let s := s.modifyFile file fun f => { f with path := filepath }
    (0,
      { s with
        table := s.table.huInsert filepath file
        currFiles := SizeT.add s.currFiles 1
        currBytes := SizeT.add s.currBytes (s.file file).dataLen })

/-- Every lookup counts as a use of the file it finds. -/
def fuGetfile (s : FileStorage) (path : List UInt8) : Option Nat × FileStorage :=
  match s.table.huGet path with
  | none => (none, s)
  | some a => (some a, s.modifyFile a fun f => { f with dataInfo := f.dataInfo + 1 })

def fuRemoveFile (s : FileStorage) (path : List UInt8) : Int × FileStorage :=
  match s.table.huGet path with
  | none => (-1, s)
  | some _ =>
      let (file, s) := s.fuGetfile path
      let fileDataLen := (file.map fun a => (s.file a).dataLen).getD 0
      match s.table.huRemove path with
      | none => (-1, s)
      | some (item, table) =>
          (0,
            { s.fuFreeFileData item.2 with
              table := table
              currFiles := SizeT.sub s.currFiles 1
              currBytes := SizeT.sub s.currBytes fileDataLen })

/-- `data` is `none` for NULL. `none` is the exit in `mu_realloc`. -/
def fuWritefile (s : FileStorage) (file i : Nat) (data : Option (List UInt8)) :
    Option (Int × FileStorage) :=
  match data with
  | none => some (-1, s)
  | some data =>
      if data.length = 0 then some (-1, s)
      else if i > (s.file file).dataLen then some (-1, s)
      else
        let s := s.modifyFile file fun f => { f with dataInfo := f.dataInfo + 1 }
        let newSize := SizeT.add i data.length
        let newBytes := SizeT.add s.currBytes (SizeT.sub newSize (s.file file).dataLen)
        if newBytes > s.maxBytes then some (-1, s)
        else if newSize > muLimit then none
        else
          some (0,
            { s.modifyFile file (fun f => { f with data := f.data.take i ++ data }) with
              currBytes := newBytes })

/-- `fu_evict_compare`: most used first, then longest first. Both differences
are unsigned and read back as `int`. -/
def fuEvictCompare (a b : FileData) : Int :=
  let compa := a.dataInfo - b.dataInfo
  let compb := BitVec.ofNat 64 a.dataLen - BitVec.ofNat 64 b.dataLen
  if compa = 0 then ((-compb).truncate 32).toInt else (-compa).toInt

/-- The countdown of `fu_evict_files`: how many of the bytes to free are left
when all the given files have been counted. -/
def evictCountdown (s : FileStorage) : List Nat → Nat → Nat
  | [], bytesToFree => bytesToFree
  | a :: rest, bytesToFree =>
      if bytesToFree = 0 then 0
      else if (s.file a).dataLen > bytesToFree then s.evictCountdown rest 0
      else s.evictCountdown rest (bytesToFree - (s.file a).dataLen)

/-- All stored files in the order in which they would be given up, or the
empty array when even all of them are too small. `none` is the exit in
`mu_calloc`, whose block holds one 8-byte pointer for every file. -/
def fuEvictFiles (qsort : Qsort Nat) (s : FileStorage) (bytesToFree : Nat) :
    Option (UArr Nat) :=
  (UArr.auInitArr s.currFiles 8).map fun evictArr =>
    let evictArr := evictArr.insertAll (s.table.items.map Prod.snd)
    let evictArr := { evictArr with
      elems := qsort.sort (fun a b => fuEvictCompare (s.file a) (s.file b)) evictArr.elems }
    if s.evictCountdown evictArr.elems bytesToFree > 0 then UArr.zero else evictArr

/-! ## Fields

What the operations on records leave alone, and the addresses in the table. -/

/-- The addresses of the stored files, in the order of the table. -/
def ptrs (s : FileStorage) : List Nat := s.table.items.map Prod.snd

section Fields

variable (s : FileStorage) (a : Nat) (g : FileData → FileData)

@[simp] theorem modifyFile_table : (s.modifyFile a g).table = s.table := rfl
@[simp] theorem modifyFile_maxFiles : (s.modifyFile a g).maxFiles = s.maxFiles := rfl
@[simp] theorem modifyFile_currFiles : (s.modifyFile a g).currFiles = s.currFiles := rfl
@[simp] theorem modifyFile_maxBytes : (s.modifyFile a g).maxBytes = s.maxBytes := rfl
@[simp] theorem modifyFile_currBytes : (s.modifyFile a g).currBytes = s.currBytes := rfl
@[simp] theorem modifyFile_next : (s.modifyFile a g).next = s.next := rfl
@[simp] theorem modifyFile_ptrs : (s.modifyFile a g).ptrs = s.ptrs := rfl

theorem modifyFile_heap (b : Nat) :
    (s.modifyFile a g).heap b = if b = a then (s.heap b).map g else s.heap b := rfl

@[simp] theorem modifyFile_heap_self :
    (s.modifyFile a g).heap a = (s.heap a).map g := by
  simp [modifyFile_heap]

theorem modifyFile_heap_of_ne {b : Nat} (h : b ≠ a) :
    (s.modifyFile a g).heap b = s.heap b := by
  simp [modifyFile_heap, h]

@[simp] theorem modifyFile_heap_eq_none {b : Nat} :
    (s.modifyFile a g).heap b = none ↔ s.heap b = none := by
  rw [modifyFile_heap]
  split <;> simp

theorem file_eq {a : Nat} {f : FileData} (h : s.heap a = some f) : s.file a = f := by
  simp [file, h]

theorem modifyFile_file_self {f : FileData} (h : s.heap a = some f) :
    (s.modifyFile a g).file a = g f := by
  simp [file, h]

theorem modifyFile_file_of_ne {b : Nat} (h : b ≠ a) :
    (s.modifyFile a g).file b = s.file b := by
  simp [file, modifyFile_heap_of_ne s a g h]

theorem modifyFile_data (hg : ∀ f, (g f).data = f.data) (b : Nat) :
    ((s.modifyFile a g).file b).data = (s.file b).data := by
  rw [file, modifyFile_heap]
  split
  · cases h : s.heap b with
    | none => simp [file, h]
    | some f => simp [file, h, hg]
  · rfl

/-- An assignment that leaves the contents alone changes no length. -/
theorem modifyFile_dataLen (hg : ∀ f, (g f).data = f.data) (b : Nat) :
    ((s.modifyFile a g).file b).dataLen = (s.file b).dataLen := by
  rw [FileData.dataLen, s.modifyFile_data a g hg b, FileData.dataLen]

theorem modifyFile_path (hg : ∀ f, (g f).path = f.path) (b : Nat) :
    ((s.modifyFile a g).file b).path = (s.file b).path := by
  rw [file, modifyFile_heap]
  split
  · cases h : s.heap b with
    | none => simp [file, h]
    | some f => simp [file, h, hg]
  · rfl

/-- Two assignments to one record. -/
theorem modifyFile_modifyFile (h : FileData → FileData) :
    (s.modifyFile a g).modifyFile a h = s.modifyFile a (h ∘ g) := by
  simp only [modifyFile]
  congr 1
  funext x
  split
  · rw [Option.map_map]
  · rfl

/-- An assignment to a record just made. -/
theorem place_modifyFile (f : FileData) :
    (s.place f).2.modifyFile s.next g = (s.place (g f)).2 := by
  simp only [place, modifyFile]
  congr 1
  funext x
  split <;> rfl

theorem place_file (f : FileData) : (s.place f).2.file s.next = f := by
  simp [place, file]

theorem fuGetfile_fst (path : List UInt8) :
    (s.fuGetfile path).1 = s.table.huGet path := by
  rw [fuGetfile]
  cases s.table.huGet path <;> rfl

/-- A lookup changes at most one record, and of that only the use count. -/
theorem fuGetfile_snd (path : List UInt8) :
    (s.fuGetfile path).2 =
      match s.table.huGet path with
      | none => s
      | some a => s.modifyFile a fun f => { f with dataInfo := f.dataInfo + 1 } := by
  rw [fuGetfile]
  cases s.table.huGet path <;> rfl

/-- A record looked at after a lookup is the one from before, one use up. -/
theorem fuGetfile_heap {path : List UInt8} {a : Nat} {f : FileData}
    (h : (s.fuGetfile path).2.heap a = some f) :
    ∃ f₀, s.heap a = some f₀ ∧ f.data = f₀.data ∧ f.client = f₀.client ∧
      f.path = f₀.path := by
  rw [fuGetfile_snd] at h
  cases hg : s.table.huGet path with
  | none =>
      rw [hg] at h
      exact ⟨f, h, rfl, rfl, rfl⟩
  | some b =>
      rw [hg] at h
      dsimp only at h
      rw [modifyFile_heap] at h
      split at h
      · obtain ⟨f₀, hf₀, rfl⟩ := Option.map_eq_some_iff.mp h
        exact ⟨f₀, hf₀, rfl, rfl, rfl⟩
      · exact ⟨f, h, rfl, rfl, rfl⟩

/-- Its owner is the one it had. -/
theorem fuGetfile_client {path : List UInt8} {a : Nat} {f : FileData}
    (h : (s.fuGetfile path).2.heap a = some f) : (s.file a).client = f.client := by
  obtain ⟨f₀, hf₀, -, hclient, -⟩ := fuGetfile_heap _ h
  rw [file_eq _ hf₀, hclient]

theorem fuGetfile_file (path : List UInt8) (a : Nat) :
    ((s.fuGetfile path).2.file a).data = (s.file a).data ∧
    ((s.fuGetfile path).2.file a).client = (s.file a).client ∧
    ((s.fuGetfile path).2.file a).path = (s.file a).path := by
  rw [fuGetfile_snd]
  split
  · exact ⟨rfl, rfl, rfl⟩
  · rw [file, modifyFile_heap, file]
    split
    · cases s.heap a with
      | none => exact ⟨rfl, rfl, rfl⟩
      | some f => exact ⟨rfl, rfl, rfl⟩
    · exact ⟨rfl, rfl, rfl⟩

@[simp] theorem fuGetfile_table (path : List UInt8) :
    (s.fuGetfile path).2.table = s.table := by
  rw [fuGetfile_snd]
  cases s.table.huGet path <;> rfl

@[simp] theorem fuGetfile_currFiles (path : List UInt8) :
    (s.fuGetfile path).2.currFiles = s.currFiles := by
  rw [fuGetfile_snd]
  split <;> rfl

@[simp] theorem fuGetfile_currBytes (path : List UInt8) :
    (s.fuGetfile path).2.currBytes = s.currBytes := by
  rw [fuGetfile_snd]
  split <;> rfl

@[simp] theorem fuGetfile_bytesAvailable (path : List UInt8) :
    (s.fuGetfile path).2.fuStorageBytesAvailable = s.fuStorageBytesAvailable := by
  rw [fuGetfile_snd]
  split <;> rfl

@[simp] theorem fuGetfile_ptrs (path : List UInt8) :
    (s.fuGetfile path).2.ptrs = s.ptrs := by
  rw [ptrs, fuGetfile_table, ptrs]

theorem fuWritefile_table {i : Nat} {data : Option (List UInt8)} {r : Int}
    {s' : FileStorage} (h : s.fuWritefile a i data = some (r, s')) : s'.table = s.table := by
  cases data with
  | none => cases h; rfl
  | some data =>
      simp only [fuWritefile] at h
      split at h
      · cases h; rfl
      · split at h
        · cases h; rfl
        · split at h
          · cases h; rfl
          · split at h
            · cases h
            · cases h; rfl

/-! The two limits never change. -/

theorem fuGetfile_limits (path : List UInt8) :
    (s.fuGetfile path).2.maxFiles = s.maxFiles ∧ (s.fuGetfile path).2.maxBytes = s.maxBytes := by
  rw [fuGetfile_snd]
  split
  · exact ⟨rfl, rfl⟩
  · exact ⟨rfl, rfl⟩

theorem fuAddFile_limits (path : List UInt8) :
    (s.fuAddFile a path).2.maxFiles = s.maxFiles ∧
      (s.fuAddFile a path).2.maxBytes = s.maxBytes := by
  rw [fuAddFile]
  split
  · exact ⟨rfl, rfl⟩
  · split
    · exact ⟨rfl, rfl⟩
    · exact ⟨rfl, rfl⟩

theorem fuRemoveFile_limits (path : List UInt8) :
    (s.fuRemoveFile path).2.maxFiles = s.maxFiles ∧
      (s.fuRemoveFile path).2.maxBytes = s.maxBytes := by
  rw [fuRemoveFile]
  split
  · exact ⟨rfl, rfl⟩
  · dsimp only
    split
    · exact s.fuGetfile_limits path
    · exact s.fuGetfile_limits path

theorem fuWritefile_limits {i : Nat} {data : Option (List UInt8)} {r : Int}
    {s' : FileStorage} (h : s.fuWritefile a i data = some (r, s')) :
    s'.maxFiles = s.maxFiles ∧ s'.maxBytes = s.maxBytes := by
  cases data with
  | none => cases h; exact ⟨rfl, rfl⟩
  | some data =>
      simp only [fuWritefile] at h
      split at h
      · cases h; exact ⟨rfl, rfl⟩
      · split at h
        · cases h; exact ⟨rfl, rfl⟩
        · split at h
          · cases h; exact ⟨rfl, rfl⟩
          · split at h
            · cases h
            · cases h; exact ⟨rfl, rfl⟩

end Fields

end FileStorage

end LsoStore
