import LsoStore.Client
import LsoStore.ServerApi

/-!
# Lists of files over a connection

`write_files_list`, `read_files_list` and `write_nfiles_from_dir` once more, as
programs that make their calls over the connection. What the calls answer is not
given here: the server decides it.
-/

namespace LsoStore.Connected

/-- `readFile` with what it leaves in `*buf`, if it succeeds, and in `*size`. -/
def readFile (pathname : List UInt8) (size : Nat) : ClientM (Option (List UInt8) × Nat) := do
  if (← sapiPathOp sapiReadFile 0 pathname (.ret 0)) ≠ 0 then .ret (none, size)
  else sapiGetData size

/-- The loop of `write_files_list`; a `continue` goes on with the next node. -/
def writeFilesLoop (disk : Disk) (rounds : Nat) (wbdir : Option (List UInt8)) :
    List (List UInt8) → BitVec 32 → ClientM (BitVec 32)
  | [], res => .ret res
  | path :: rest, res => do
      if (← openFile path (oCreate.zeroExtend 32)) ≠ 0 then
        writeFilesLoop disk rounds wbdir rest 1
      else if (← writeFile disk rounds path wbdir) ≠ 0 then
        writeFilesLoop disk rounds wbdir rest 1
      else if (← closeFile path) ≠ 0 then
        writeFilesLoop disk rounds wbdir rest 1
      else writeFilesLoop disk rounds wbdir rest res

def writeFilesList (disk : Disk) (rounds : Nat) (wbdir : Option (List UInt8))
    (filelist : List (List UInt8)) : ClientM (BitVec 32) := do
  .ret (if (← writeFilesLoop disk rounds wbdir filelist 0) ≠ 0 then -1 else 0)

/-- What `read_files_list` makes of the file it has read: `temp`, which is
empty, becomes the path it is stored under. -/
def storeFile (disk : Disk) (destdir : Option (List UInt8)) (path : List UInt8)
    (res : BitVec 32) : Option (List UInt8) → ClientM (BitVec 32)
  | none => .ret (res + 1)
  | some buff =>
      suAppendChars [] (destdir.getD []) fun temp =>
      suAppendChars temp path fun temp => do
        .ret (res + BitVec.ofInt 32 (← fuWriteToPath disk temp buff))

/-- The loop of `read_files_list`. `size` is left from the file before. -/
def readFilesLoop (disk : Disk) (destdir : Option (List UInt8)) :
    List (List UInt8) → BitVec 32 → Nat → ClientM (BitVec 32)
  | [], res, _ => .ret res
  | path :: rest, res, size => do
      let opened ← openFile path 0
      let (buff, size) ← readFile path size
      let res ← storeFile disk destdir path (res + BitVec.ofInt 32 opened) buff
      let closed ← closeFile path
      readFilesLoop disk destdir rest (res + BitVec.ofInt 32 closed) size

def readFilesList (disk : Disk) (destdir : Option (List UInt8)) (filelist : List (List UInt8)) :
    ClientM (BitVec 32) := do
  .ret (if (← readFilesLoop disk destdir filelist 0 0) ≠ 0 then -1 else 0)

/-- The loop of `write_nfiles_from_dir`, as far as `k` rounds take it. The result of
`write_files_list` is not looked at. -/
def writeNfilesLoop (fs : FileSystem) (disk : Disk) (rounds : Nat) (wbdir : Option (List UInt8)) :
    Nat → Int → UList (List UInt8) → UList (List UInt8) → ClientM Int
  | 0, _, _, _ => .fault
  | k + 1, nfiles, filelist, dirlist =>
      if dirlist.len ≠ 0 ∧ nfiles > 0 then
        let currdir := dirlist.luGet 0
        let (nfilesfound, filelist, dirlist) :=
          duGetfilepathsFromDir fs currdir nfiles filelist dirlist
        match currdir with
        | none => .ret (-1)
        | some currdir =>
            if nfilesfound = -1 then .ret (-1)
            else do
              let _ ← writeFilesList disk rounds wbdir filelist.nodes
              writeNfilesLoop fs disk rounds wbdir k (nfiles - nfilesfound) filelist.luFree
                (dirlist.luRemove currdir).2
      else .ret 0

def writeNfilesFromDir (fs : FileSystem) (disk : Disk) (rounds : Nat)
    (wbdir : Option (List UInt8)) (k : Nat) (dirname : List UInt8) (nfiles : Int) :
    ClientM Int :=
  if nfiles = 0 then .ret 0
  else
    writeNfilesLoop fs disk rounds wbdir k nfiles (UList.luInitList suStringCompare)
      ((UList.luInitList suStringCompare).luInsert dirname).2

end LsoStore.Connected
