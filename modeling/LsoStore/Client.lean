import LsoStore.ArrayUtils
import LsoStore.DirUtils
import LsoStore.Message

/-!
# The client

From `client.c`, the upload of a directory, which is not NULL.
`write_files_list` is handed the files of one round at a time; its result is
not looked at.

The two loops over a list of files come after it. What the calls they make
answer is given beside each node, and the calls made are kept with their
answers. The pauses between them are left out.
-/

namespace LsoStore

/-- The loop of `write_nfiles_from_dir`, with its result and the files handed
to `write_files_list` in all its rounds. Without a bound on their number it
need not end. -/
def writeNfilesLoop (fs : FileSystem) :
    Nat → Int → UList (List UInt8) → UList (List UInt8) → Option (Int × List (List UInt8))
  | 0, _, _, _ => none
  | rounds + 1, nfiles, filelist, dirlist =>
      if dirlist.len ≠ 0 ∧ nfiles > 0 then
        let currdir := dirlist.luGet 0
        let (nfilesfound, filelist, dirlist) :=
          duGetfilepathsFromDir fs currdir nfiles filelist dirlist
        match currdir with
        | none => some (-1, [])
        | some currdir =>
            if nfilesfound = -1 then some (-1, [])
            else
              (writeNfilesLoop fs rounds (nfiles - nfilesfound) filelist.luFree
                (dirlist.luRemove currdir).2).map
                fun (res, written) => (res, filelist.nodes ++ written)
      else some (0, [])

/-- `write_nfiles_from_dir`, as far as `rounds` rounds take it. -/
def writeNfilesFromDir (fs : FileSystem) (rounds : Nat) (dirname : List UInt8) (nfiles : Int) :
    Option (Int × List (List UInt8)) :=
  if nfiles = 0 then some (0, [])
  else
    writeNfilesLoop fs rounds nfiles (UList.luInitList suStringCompare)
      ((UList.luInitList suStringCompare).luInsert dirname).2

/-! ## Lists of files -/

/-- What a call of the library answers: 0 or -1. -/
inductive Answer where
  | done
  | failed
deriving DecidableEq

def Answer.value : Answer → BitVec 32
  | .done => 0
  | .failed => -1

inductive ClientCall where
  | openFile (pathname : List UInt8) (flags : BitVec 32)
  | readFile (pathname : List UInt8)
  | writeFile (pathname : List UInt8) (dirname : Option (List UInt8))
  | fuWriteToPath (path : List UInt8)
  | closeFile (pathname : List UInt8)
deriving DecidableEq

/-- The calls made, each with its answer. -/
abbrev Calls := List (ClientCall × Answer)

/-- A node of the list `write_files_list` goes through. -/
structure FileToWrite where
  path : List UInt8
  openFile : Answer
  writeFile : Answer
  closeFile : Answer
deriving DecidableEq

/-- The loop of `write_files_list`; a `continue` goes on with the next node. -/
def writeFilesLoop (wbdir : Option (List UInt8)) :
    List FileToWrite → BitVec 32 → BitVec 32 × Calls
  | [], res => (res, [])
  | f :: rest, res =>
      let opened := (.openFile f.path (oCreate.zeroExtend 32), f.openFile)
      if f.openFile.value ≠ 0 then
        let (res, calls) := writeFilesLoop wbdir rest 1
        (res, opened :: calls)
      else
        let written := (.writeFile f.path wbdir, f.writeFile)
        if f.writeFile.value ≠ 0 then
          let (res, calls) := writeFilesLoop wbdir rest 1
          (res, opened :: written :: calls)
        else
          let closed := (.closeFile f.path, f.closeFile)
          let (res, calls) :=
            writeFilesLoop wbdir rest (if f.closeFile.value ≠ 0 then 1 else res)
          (res, opened :: written :: closed :: calls)

def writeFilesList (wbdir : Option (List UInt8)) (filelist : List FileToWrite) :
    BitVec 32 × Calls :=
  let (res, calls) := writeFilesLoop wbdir filelist 0
  (if res ≠ 0 then -1 else 0, calls)

/-- A node of the list `read_files_list` goes through. `fu_write_to_path` is
called when `readFile` answers 0. -/
structure FileToRead where
  path : List UInt8
  openFile : Answer
  readFile : Answer
  fuWriteToPath : Answer
  closeFile : Answer
deriving DecidableEq

/-- What `su_append_chars` makes of a string; NULL leaves it alone. `none` is the
exit in `mu_realloc`. -/
def appendChars (string : List UInt8) : Option (List UInt8) → Option (List UInt8)
  | none => some string
  | some literal =>
      if literal.length = 0 then some string
      else if string.length + literal.length + 1 > muLimit then none
      else some (string ++ literal)

/-- The loop of `read_files_list`. Every round leaves `temp` empty. -/
def readFilesLoop (destdir : Option (List UInt8)) :
    List FileToRead → BitVec 32 → List UInt8 → Option (BitVec 32 × Calls)
  | [], res, _ => some (res, [])
  | f :: rest, res, temp =>
      let opened := (.openFile f.path 0, f.openFile)
      let res := res + f.openFile.value
      let read := (.readFile f.path, f.readFile)
      let closed := (.closeFile f.path, f.closeFile)
      if f.readFile.value ≠ 0 then
        (readFilesLoop destdir rest (res + 1 + f.closeFile.value) []).map
          fun (res, calls) => (res, opened :: read :: closed :: calls)
      else
        ((appendChars temp destdir).bind (appendChars · (some f.path))).bind fun temp =>
          let stored := (.fuWriteToPath temp, f.fuWriteToPath)
          (readFilesLoop destdir rest (res + f.fuWriteToPath.value + f.closeFile.value) []).map
            fun (res, calls) => (res, opened :: read :: stored :: closed :: calls)

/-- `read_files_list`; `none` where the process exits over a path that is too
long. -/
def readFilesList (destdir : Option (List UInt8)) (filelist : List FileToRead) :
    Option (BitVec 32 × Calls) :=
  (readFilesLoop destdir filelist 0 []).map fun (res, calls) =>
    (if res ≠ 0 then -1 else 0, calls)

end LsoStore
