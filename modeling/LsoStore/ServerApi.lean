import LsoStore.Lib.Overwrite
import LsoStore.Lib.PathName
import LsoStore.Lib.Proc
import LsoStore.Message
import LsoStore.StringUtils
import LsoStore.ArrayUtils

/-!
# The client's library

`serverapi.c`: the calls a client makes and the helpers they share, as
programs over what the client has saved to its disk. They are connected, so
`server_socket_fd` is not 0; the checks of it and of NULL parameters that a
call can be told apart from are left out, and so are the diagnostics.

The two loops, of `sapi_evict` and of `readNFiles`, go round as long as the
server tells them to. They take a bound on the number of rounds here, and a
fault stands for reaching it.
-/

namespace LsoStore

/-- The bytes at a pointer, as many as a `size_t` can say. -/
abbrev Buf := { b : List UInt8 // b.length < 2 ^ 64 }

/-- The files a client can read, and the paths it can write to: `fu_ensure_path`
comes back to the directory the client works in, and `fopen` succeeds. -/
structure Disk where
  read : List UInt8 → Option (List UInt8)
  writable : List UInt8 → Bool

/-- What `fu_write_to_path` has written for the client, to which path, oldest first. -/
abbrev Saved := List (List UInt8 × List UInt8)

/-- The file a path leads to from the directory `cwd`. -/
def fileAt (cwd : List (List UInt8)) (path : List UInt8) : List (List UInt8) :=
  PathName.go (if path.head? = some 47 then [] else cwd) (PathName.moves 47 46 path)

/-- What is in the files of the disk once that is written: `fopen` with `"w"` begins a
file anew. -/
def Saved.onDisk (saved : Saved) (cwd : List (List UInt8))
    (before : List (List UInt8) → Option (List UInt8)) :
    List (List UInt8) → Option (List UInt8) :=
  Overwrite.after before (saved.map fun s => (fileAt cwd s.1, s.2))

/-- From `saved` to `saved'` the disk has changed by these writes: it holds them all,
and its other files are as they were. -/
structure Saved.Holds (cwd : List (List UInt8)) (writes saved saved' : Saved) : Prop where
  stored : ∀ before, ∀ e ∈ writes, saved'.onDisk cwd before (fileAt cwd e.1) = some e.2
  others : ∀ before file, (∀ e ∈ writes, fileAt cwd e.1 ≠ file) →
    saved'.onDisk cwd before file = saved.onDisk cwd before file

/-- Writes of which no two put different bytes in one file. -/
theorem Saved.holds_append {cwd : List (List UInt8)} {writes : Saved}
    (h : ∀ e ∈ writes, ∀ e' ∈ writes, fileAt cwd e.1 = fileAt cwd e'.1 → e.2 = e'.2)
    (saved : Saved) : Saved.Holds cwd writes saved (saved ++ writes) where
  stored before e he := by
    rw [Saved.onDisk, List.map_append, Overwrite.after_append]
    refine Overwrite.after_of_written ⟨_, List.mem_map_of_mem he, rfl⟩ ?_
    exact List.forall_mem_map.mpr fun e' he' heq => h e' he' e he heq
  others before file hfile := by
    rw [Saved.onDisk, List.map_append, Overwrite.after_append]
    exact Overwrite.after_of_unwritten (List.forall_mem_map.mpr hfile)

/-- One write for each item, in a file of its own. -/
theorem Saved.holds_map {α : Type} {cwd : List (List UInt8)} {items : List α}
    {dest data : α → List UInt8}
    (h : ∀ x ∈ items, ∀ y ∈ items, fileAt cwd (dest x) = fileAt cwd (dest y) → x = y)
    (saved : Saved) :
    Saved.Holds cwd (items.map fun x => (dest x, data x)) saved
      (saved ++ items.map fun x => (dest x, data x)) := by
  refine Saved.holds_append ?_ saved
  refine List.forall_mem_map.mpr fun x hx => List.forall_mem_map.mpr fun y hy heq => ?_
  rw [h x hx y hy heq]

abbrev ClientM := Proc Saved Empty

/-- `mu_realloc`, for its call to `exit`. -/
def muRealloc {α : Type} (size : Nat) (k : ClientM α) : ClientM α :=
  if size > muLimit then .exit else k

/-- `fu_read_from_path`. The buffer grows by 1024 bytes beyond every full
chunk, so a file of `muLimit` bytes is too large. -/
def fuReadFromPath {α : Type} (disk : Disk) (path : List UInt8)
    (k : Option (List UInt8) → ClientM α) : ClientM α :=
  match disk.read path with
  | none => k none
  | some data => if data.length ≥ muLimit then .exit else k (some data)

/-- `fu_write_to_path` with some data. `fu_ensure_path` copies the path into a
buffer of 256 bytes. -/
def fuWriteToPath (disk : Disk) (path data : List UInt8) : ClientM Int :=
  if path.length ≥ 256 then .fault
  else if disk.writable path then
    .get fun saved => .set (saved ++ [(path, data)]) (.ret 0)
  else .ret (-1)

/-- `su_append_chars` on two strings, which only fails by exiting. -/
def suAppendChars {α : Type} (string literal : List UInt8) (k : List UInt8 → ClientM α) :
    ClientM α :=
  if literal.length = 0 then k string
  else muRealloc (string.length + literal.length + 1) (k (string ++ literal))

/-! ## Messages -/

def sapiSendop (messlen : Nat) (op flags : BitVec 8) : ClientM Int :=
  .write (.word (sapiMessageLen flags op (BitVec.ofNat 32 messlen))) fun ok =>
    .ret (if ok then 0 else -1)

def sapiSenddatalen (datalen : Nat) : ClientM Int :=
  .write (.size datalen) fun ok => .ret (if ok then 0 else -1)

def sapiSenddata (data : List UInt8) : ClientM Int :=
  if data.length = 0 then .ret (-1)
  else .write (.block data) fun ok => .ret (if ok then 0 else -1)

/-- `message` is not initialised. -/
def sapiGetResponse : ClientM SMessage :=
  .read 4 fun
    | none => .ret (-1)
    | some bs =>
        if bs.length < 4 then
          .unspec fun junk => .ret (BitVec.ofNat 32 (LittleEndian.decode ((bs ++ junk).take 4)))
        else .ret (BitVec.ofNat 32 (LittleEndian.decode bs))

/-- `path_len` starts out as 0. The largest one makes the buffer's size wrap
to 0, and the terminator goes through a null pointer. -/
def sapiGetPath : ClientM (Option (List UInt8)) :=
  .read 8 fun
    | none => .ret none
    | some bs =>
        let pathLen := LittleEndian.decode bs
        if pathLen = 0 then .ret none
        else if pathLen + 1 = 2 ^ 64 then .fault
        else
          muRealloc (pathLen + 1) <|
          .read pathLen fun
            | none => .ret none
            | some bs =>
                if bs.length < pathLen then
                  .unspec fun junk => .ret (some (cString ((bs ++ junk).take pathLen)))
                else .ret (some (cString bs))

/-- The data, if there was any, and the caller's length variable, of which a
short read replaces only the low bytes. -/
def sapiGetData (datalen : Nat) : ClientM (Option (List UInt8) × Nat) :=
  .read 8 fun
    | none => .ret (none, datalen)
    | some bs =>
        let datalen :=
          LittleEndian.decode (bs ++ (LittleEndian.encode 8 datalen).drop bs.length)
        if datalen > 0 then
          muRealloc datalen <|
          .read datalen fun
            | none => .ret (none, datalen)
            | some bs => .ret (some (bs ++ List.replicate (datalen - bs.length) 0), datalen)
        else .ret (none, datalen)

/-- The loop of `sapi_evict`, from a given `tempdatalen`. -/
def sapiEvictLoop (disk : Disk) (dirname : List UInt8) : Nat → Nat → ClientM Int
  | 0, _ => .fault
  | rounds + 1, tempdatalen => do
      if (← sapiGetResponse) ≠ sapiEvictMsg then .ret 0
      else
        match ← sapiGetPath with
        | none => .ret (-1)
        | some path =>
            suAppendChars [] dirname fun destpath =>
            suAppendChars destpath [47] fun destpath =>
            suAppendChars destpath path fun destpath => do
              match ← sapiGetData tempdatalen with
              | (none, tempdatalen) => sapiEvictLoop disk dirname rounds tempdatalen
              | (some tempdata, tempdatalen) =>
                  let _ ← fuWriteToPath disk destpath tempdata
                  sapiEvictLoop disk dirname rounds tempdatalen

def sapiEvict (disk : Disk) (rounds : Nat) (dirname : List UInt8) : ClientM Int := do
  if (← sapiSenddatalen 1) ≠ 0 then .ret (-1)
  else sapiEvictLoop disk dirname rounds 0

/-! ## Calls -/

/-- The calls that send an operation and a path and wait for an answer. -/
def sapiPathOp (op flags : BitVec 8) (pathname : List UInt8) (k : ClientM Int) :
    ClientM Int := do
  if (← sapiSendop pathname.length op flags) = -1 then .ret (-1)
  else if (← sapiSenddata pathname) = -1 then .ret (-1)
  else if (← sapiGetResponse) ≠ sapiSuccess then .ret (-1)
  else k

def openFile (pathname : List UInt8) (flags : BitVec 32) : ClientM Int :=
  sapiPathOp sapiOpenFile (flags.truncate 8) pathname (.ret 0)

/-- `size` is what the caller's variable held. -/
def readFile (pathname : List UInt8) (size : Nat) : ClientM Int :=
  sapiPathOp sapiReadFile 0 pathname do
    match ← sapiGetData size with
    | (none, _) => .ret (-1)
    | (some _, _) => .ret 0

/-- The loop of `readNFiles`, with `nfiles_readen` and `size`. A path length of
0, which is how the server ends the list, makes it exit. -/
def readNFilesRounds (disk : Disk) (dirname : List UInt8) : Nat → Int → Nat → ClientM Int
  | 0, _, _ => .fault
  | rounds + 1, nfilesReaden, size => do
      match ← sapiGetPath with
      | none => .exit
      | some path =>
          if path.length = 0 then .ret nfilesReaden
          else
            suAppendChars [] dirname fun destpath =>
            suAppendChars destpath path fun destpath => do
              match ← sapiGetData size with
              | (none, size) => readNFilesRounds disk dirname rounds nfilesReaden size
              | (some buff, size) => do
                  if (← fuWriteToPath disk destpath buff) = -1 then
                    readNFilesRounds disk dirname rounds nfilesReaden size
                  else readNFilesRounds disk dirname rounds (nfilesReaden + 1) size

def readNFiles (disk : Disk) (rounds n : Nat) (dirname : Option (List UInt8)) :
    ClientM Int :=
  if n = 0 then .ret 0
  else
    match dirname with
    | none => .ret (-1)
    | some dirname => do
        if (← sapiSendop n sapiReadNFiles 0) = -1 then .ret (-1)
        else readNFilesRounds disk dirname rounds 0 0

/-- The data and the last answer of the two writing calls. -/
def sapiSendContents (data : List UInt8) : ClientM Int := do
  if (← sapiSenddata data) = -1 then .ret (-1)
  else if (← sapiGetResponse) ≠ sapiSuccess then .ret (-1)
  else .ret 0

/-- `writeFile` from its first answer on. `m` is not read again after an
eviction, so the call fails after one. -/
def writeFileAnswered (disk : Disk) (rounds : Nat) (data : List UInt8)
    (dirname : Option (List UInt8)) (m : SMessage) : ClientM Int :=
  let rest := if m ≠ sapiSuccess then .ret (-1) else sapiSendContents data
  if m = sapiEvictMsg then do
    if (← sapiSenddatalen (if dirname.isSome then 1 else 0)) ≠ 0 then .ret (-1)
    else
      match dirname with
      | none => rest
      | some dirname => do
          -- sends the flag once more
          if (← sapiEvict disk rounds dirname) = -1 then .ret (-1) else rest
  else rest

def writeFile (disk : Disk) (rounds : Nat) (pathname : List UInt8)
    (dirname : Option (List UInt8)) : ClientM Int :=
  fuReadFromPath disk pathname fun
    | none => .ret (-1)
    | some data => do
        if (← sapiSendop pathname.length sapiWriteFile 0) = -1 then .ret (-1)
        else if (← sapiSenddata pathname) = -1 then .ret (-1)
        else if (← sapiSenddatalen data.length) = -1 then .ret (-1)
        else sapiGetResponse >>= writeFileAnswered disk rounds data dirname

/-- `appendToFile` from its first answer on. -/
def appendToFileAnswered (disk : Disk) (rounds : Nat) (data : List UInt8)
    (dirname : Option (List UInt8)) (m : SMessage) : ClientM Int :=
  if m ≠ sapiSuccess then
    if m ≠ sapiEvictMsg then .ret (-1)
    else
      match dirname with
      | none => do
          -- the answer at the end of the eviction is not read
          if (← sapiSenddatalen 0) ≠ 0 then .ret (-1) else sapiSendContents data
      | some dirname => do
          if (← sapiEvict disk rounds dirname) = -1 then .ret (-1)
          else sapiSendContents data
  else sapiSendContents data

/-- `buf` is `none` for a null pointer with size 0. -/
def appendToFile (disk : Disk) (rounds : Nat) (pathname : List UInt8)
    (buf : Option (List UInt8)) (dirname : Option (List UInt8)) : ClientM Int :=
  match buf with
  | none => .ret 0
  | some data =>
      if data.length = 0 then .ret (-1)
      else do
        if (← sapiSendop pathname.length sapiAppendFile 0) = -1 then .ret (-1)
        else if (← sapiSenddata pathname) ≠ 0 then .ret (-1)
        else if (← sapiSenddatalen data.length) = -1 then .ret (-1)
        else sapiGetResponse >>= appendToFileAnswered disk rounds data dirname

def lockFile (pathname : List UInt8) : ClientM Int :=
  sapiPathOp sapiLockFile 0 pathname (.ret 0)

def unlockFile (pathname : List UInt8) : ClientM Int :=
  sapiPathOp sapiUnlockFile 0 pathname (.ret 0)

def closeFile (pathname : List UInt8) : ClientM Int :=
  sapiPathOp sapiCloseFile 0 pathname (.ret 0)

def removeFile (pathname : List UInt8) : ClientM Int :=
  sapiPathOp sapiRemoveFile 0 pathname (.ret 0)

/-- A call with its arguments. -/
inductive ApiCall where
  | openFile (pathname : CStr) (flags : BitVec 32)
  | closeFile (pathname : CStr)
  | readFile (pathname : CStr) (size : Nat)
  | readNFiles (n : BitVec 32) (dirname : Option CStr)
  | writeFile (pathname : CStr) (dirname : Option CStr)
  | appendToFile (pathname : CStr) (buf : Option Buf) (dirname : Option CStr)
  | lockFile (pathname : CStr)
  | unlockFile (pathname : CStr)
  | removeFile (pathname : CStr)

/-- The program a call runs. -/
def ApiCall.prog (disk : Disk) (rounds : Nat) : ApiCall → ClientM Int
  | .openFile pathname flags => LsoStore.openFile pathname flags
  | .closeFile pathname => LsoStore.closeFile pathname
  | .readFile pathname size => LsoStore.readFile pathname size
  | .readNFiles n dirname =>
      LsoStore.readNFiles disk rounds n.toNat (dirname.map Subtype.val)
  | .writeFile pathname dirname =>
      LsoStore.writeFile disk rounds pathname (dirname.map Subtype.val)
  | .appendToFile pathname buf dirname =>
      LsoStore.appendToFile disk rounds pathname (buf.map Subtype.val)
        (dirname.map Subtype.val)
  | .lockFile pathname => LsoStore.lockFile pathname
  | .unlockFile pathname => LsoStore.unlockFile pathname
  | .removeFile pathname => LsoStore.removeFile pathname

end LsoStore
