import LsoStore.Lib.CFile
import LsoStore.Lib.FileTree
import LsoStore.ArrayUtils

/-!
# Files on disk

`fu_file_read`, with the buffer it grows. A byte of the buffer that nothing has
been written to is `none`, and an `fread` whose room does not lie inside the
buffer is a fault. The loop has a bound on its rounds.

`fu_ensure_path`, on a tree of directories and the directory the process works
in. What it prints and does to `errno` is left out.
-/

namespace LsoStore

/-- A block from the allocator. -/
abbrev Block := List (Option UInt8)

/-- `mu_realloc` to a larger or smaller block; `none` is its call to `exit`. No
caller asks for nothing. -/
def Block.muRealloc (data : Block) (size : Nat) : Option Block :=
  if size > muLimit then none
  else some (data.take size ++ List.replicate (size - data.length) none)

/-- The block after `bytes` were written to it from `i` on. -/
def Block.write (data : Block) (i : Nat) (bytes : List UInt8) : Block :=
  data.take i ++ bytes.map some ++ data.drop (i + bytes.length)

/-- `data` and `data_len` of a record, which may have nothing to do with each
other. -/
structure DestFile where
  data : Option Block
  dataLen : Nat
deriving DecidableEq

/-- What an opened file has beside its bytes: whether an `fread`, counted from 0,
fails, and whether `fclose` does. -/
structure OpenedFile where
  bytes : List UInt8
  ferror : Nat → Bool
  fclose : Bool

/-- The loop of `fu_file_read`, with the number of the next `fread`. It answers
with `datalen` and `data`, or with `none` after a read error. -/
def fuFileReadLoop (ferror : Nat → Bool) (datachunk : Nat) :
    Nat → Nat → CFile → Nat → Nat → Block → Course (Option (Nat × Block))
  | 0, _, _, _, _, _ => .running
  | rounds + 1, call, fileToRead, i, datalen, data =>
      if fileToRead.eof then .ret (some (datalen, data))
      else if i + datachunk > data.length then .fault
      else
        let (bytes, fileToRead) := fileToRead.fread datachunk
        let data := data.write i bytes
        let readlen := bytes.length
        if ferror call then .ret none
        else
          let datalen := datalen + readlen
          if readlen = datachunk then
            match data.muRealloc (datalen + datachunk) with
            | none => .exit
            | some data =>
                fuFileReadLoop ferror datachunk rounds (call + 1)
                fileToRead (i + readlen) datalen data
          else fuFileReadLoop ferror datachunk rounds (call + 1) fileToRead i datalen data

/-- `fu_file_read` on what `fopen` gave for the path. It returns the result and the
record; the block it frees when there is one of length 0 is not in use any more. -/
def fuFileRead (rounds : Nat) (fopen : Option OpenedFile) (destFile : DestFile) :
    Course (Int × DestFile) :=
  let destFile :=
    if destFile.data = none ∧ destFile.dataLen ≠ 0 then { destFile with dataLen := 0 }
    else destFile
  if destFile.data ≠ none ∧ destFile.dataLen ≠ 0 then .ret (-1, destFile)
  else
    match fopen with
    | none => .ret (-1, destFile)
    | some file =>
        match fuFileReadLoop file.ferror 1024 rounds 0 (.fopen file.bytes) 0 0
            (List.replicate 1024 none) with
        | .running => .running
        | .fault => .fault
        | .exit => .exit
        | .ret none => .ret (-1, destFile)
        | .ret (some (datalen, data)) =>
            let r := if file.fclose then -1 else 0
            if datalen = 0 then .ret (r, ⟨none, datalen⟩)
            else
              match data.muRealloc datalen with
              | none => .exit
              | some data => .ret (r, ⟨some data, datalen⟩)

/-! ## Directories -/

abbrev Name := List UInt8

/-- What `strtok_r` with `"/"` finds one after the other. -/
def tokens (path : List UInt8) : List Name := (path.splitOn 47).filter (· ≠ [])

/-- The moves along the folder part of a path, which the first loop of
`fu_ensure_path` cuts out: all up to the last slash. -/
def folderWay (path : List UInt8) : List (PathName.Move Name) :=
  (tokens (PathName.folder 47 path)).map (PathName.move 46)

/-- The absolute name of a directory. -/
def pathOf (dir : List Name) : List UInt8 :=
  if dir = [] then [47] else dir.flatMap (47 :: ·)

/-- `getcwd` into a buffer, of which it may use `size` bytes. -/
def getcwd (t : FileTree Name) (cwd : List Name) (size : Nat) : Option (List UInt8) :=
  if t.node cwd = some .dir ∧ (pathOf cwd).length + 1 ≤ size then some (pathOf cwd) else none

/-- `chdir` to an absolute path. -/
def chdirAbsolute (t : FileTree Name) (cwd : List Name) (path : List UInt8) : List Name :=
  let dir := PathName.resolve 47 46 path
  if t.node dir = some .dir then dir else cwd

/-- The tree and the working directory `fu_ensure_path` leaves. It copies the path
into a buffer of 256 bytes. The root can always be entered. -/
def fuEnsurePath (t : FileTree Name) (cwd : List Name) (path : List UInt8) :
    Course (FileTree Name × List Name) :=
  if path.length + 1 > 256 then .fault
  else
    match getcwd t cwd 255 with
    | none => .ret (t, cwd)
    | some oldPath =>
        match t.walk [] (folderWay path) with
        | (false, t, cwd) => .ret (t, cwd)
        | (true, t, cwd) => .ret (t, chdirAbsolute t cwd oldPath)

end LsoStore
