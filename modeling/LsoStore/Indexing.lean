import LsoStore.Lib.CFile
import LsoStore.FileUtils

/-!
# The division in `hu_index`

`hu_index` divides by the number of entries, and the zeroed storage has none. The
functions of `hash_utils.c` and `file_utils.c` that come to it are written once more
with that division as one that can fault, and those of the storage with the arguments
that can be null.
-/

namespace LsoStore.Indexing

section Table

variable {κ ν : Type}

def huIndex (t : HashTable κ ν) (key : κ) : Course Nat :=
  if t.nEntries = 0 then .fault else .ret (t.hash key % t.nEntries)

def huInsert (t : HashTable κ ν) (key : κ) (data : ν) : Course (HashTable κ ν) := do
  let index ← huIndex t key
  .ret { t with
    table := t.table.modify index fun list =>
      let (before, after) := HashTable.huNavigateList t.compare key list
      before ++ (key, data) :: after }

def huRemove (t : HashTable κ ν) (key : κ) : Course (Option ((κ × ν) × HashTable κ ν)) :=
  if t.huIsEmpty then .ret none
  else do
    let index ← huIndex t key
    match HashTable.huNavigateList t.compare key (t.table.getD index []) with
    | (_, []) => .ret none
    | (before, curr :: next) =>
        if t.compare key curr.1 ≠ 0 then .ret none
        else .ret (some (curr,
          { t with table := t.table.modify index fun _ => before ++ next }))

def huGet (t : HashTable κ ν) (key : κ) : Course (Option ν) :=
  if t.huIsEmpty then .ret none
  else do
    let index ← huIndex t key
    match HashTable.huNavigateList t.compare key (t.table.getD index []) with
    | (_, []) => .ret none
    | (_, curr :: _) => if t.compare key curr.1 ≠ 0 then .ret none else .ret (some curr.2)

end Table

def fuAddFile (s : FileStorage) (file : Option Nat) (filepath : Option (List UInt8)) :
    Course (Int × FileStorage) :=
  match file, filepath with
  | some file, some filepath =>
      if s.fuStorageFilesAvailable = 0 then .ret (-1, s.fuFreeFileData file)
      else if (s.file file).dataLen > s.fuStorageBytesAvailable then
        .ret (-1, s.fuFreeFileData file)
      else do
        let s := s.modifyFile file fun f => { f with path := filepath }
        let table ← huInsert s.table filepath file
        .ret (0,
          { s with
            table := table
            currFiles := SizeT.add s.currFiles 1
            currBytes := SizeT.add s.currBytes (s.file file).dataLen })
  | _, _ => .ret (-1, s)

def fuGetfile (s : FileStorage) : Option (List UInt8) → Course (Option Nat × FileStorage)
  | none => .ret (none, s)
  | some path => do
      match ← huGet s.table path with
      | none => .ret (none, s)
      | some a => .ret (some a, s.modifyFile a fun f => { f with dataInfo := f.dataInfo + 1 })

def fuRemoveFile (s : FileStorage) : Option (List UInt8) → Course (Int × FileStorage)
  | none => .ret (-1, s)
  | some path => do
      match ← huGet s.table path with
      | none => .ret (-1, s)
      | some _ =>
          let (file, s) ← fuGetfile s (some path)
          let fileDataLen := (file.map fun a => (s.file a).dataLen).getD 0
          match ← huRemove s.table path with
          | none => .ret (-1, s)
          | some (item, table) =>
              .ret (0,
                { s.fuFreeFileData item.2 with
                  table := table
                  currFiles := SizeT.sub s.currFiles 1
                  currBytes := SizeT.sub s.currBytes fileDataLen })

/-- It walks the whole table and has no use for `hu_index`. -/
def fuEvictFiles (qsort : Qsort Nat) (s : FileStorage) (bytesToFree : Nat) :
    Course (UArr Nat) :=
  match FileStorage.fuEvictFiles qsort s bytesToFree with
  | none => .exit
  | some evictArr => .ret evictArr

inductive FuCall where
  | addFile (file : Option Nat) (filepath : Option (List UInt8))
  | getfile (path : Option (List UInt8))
  | removeFile (path : Option (List UInt8))
  | evictFiles (bytesToFree : Nat)

/-- The storage a call leaves. -/
def fuCall (qsort : Qsort Nat) (s : FileStorage) : FuCall → Course FileStorage
  | .addFile file filepath => do
      let (_, s) ← fuAddFile s file filepath
      .ret s
  | .getfile path => do
      let (_, s) ← fuGetfile s path
      .ret s
  | .removeFile path => do
      let (_, s) ← fuRemoveFile s path
      .ret s
  | .evictFiles bytesToFree => do
      let _ ← fuEvictFiles qsort s bytesToFree
      .ret s

/-- A sequence of calls. Each comes with the records as the program has them by then:
between the calls it makes new ones, writes to them and frees them. -/
def fuCalls (qsort : Qsort Nat) :
    FileStorage → List ((Nat → Option FileData) × FuCall) → Course FileStorage
  | s, [] => .ret s
  | s, (records, call) :: calls => do
      let s ← fuCall qsort { s with heap := records } call
      fuCalls qsort s calls

end LsoStore.Indexing
