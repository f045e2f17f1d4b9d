import LsoStore.Lib.Proc
import LsoStore.FileUtils
import LsoStore.Message

/-!
# The request handlers

`server.c` from `serve` down, and one turn of `server_worker`'s loop. The
handlers are programs over the shared storage: they read from and write to
the client's socket, take the storage's and the files' mutexes, and look at a
record only through its address. A handler that follows a pointer to a record
which is no longer there runs into a fault.

The client's descriptor is an `int`; descriptor 0 is refused everywhere, as
in the code. Return values are the code's: 0, -1, or one of the answer codes.
The diagnostics printed on the way are left out.
-/

namespace LsoStore

/-- `storage->mutex`, or the mutex in the record at an address. -/
inductive Mutex where
  | storage
  | file (a : Nat)
deriving DecidableEq

abbrev ServerM := Proc FileStorage Mutex

/-- Follow a pointer to a record. -/
def deref {α : Type} (a : Nat) (k : FileData → ServerM α) : ServerM α :=
  .get fun s =>
    match s.heap a with
    | none => .fault
    | some f => k f

/-- Assign to fields of the record at `a`. -/
def assign {α : Type} (a : Nat) (g : FileData → FileData) (k : ServerM α) : ServerM α :=
  .get fun s => .set (s.modifyFile a g) k

/-- `mu_calloc` and `mu_malloc`, for their call to `exit`. -/
def muCalloc {α : Type} (size : Nat) (k : ServerM α) : ServerM α :=
  if size > muLimit then .exit else k

/-- `fu_getfile` on the server's storage. -/
def getfile {α : Type} (path : List UInt8) (k : Option Nat → ServerM α) : ServerM α :=
  .get fun s => .set (s.fuGetfile path).2 (k (s.fuGetfile path).1)

/-- `fu_remove_file` on the server's storage, its result ignored. -/
def removefile {α : Type} (path : List UInt8) (k : ServerM α) : ServerM α :=
  .get fun s => .set (s.fuRemoveFile path).2 k

/-! ## Messages -/

def serverRespond (message : SMessage) (client : Int) : ServerM Int :=
  if client = 0 then .ret (-1)
  else .write (.word message) fun ok => .ret (if ok then 0 else -1)

/-- `SAPI_RESPOND`: answer, and leave the handler with -1 if that fails. -/
def sapiRespond (message : SMessage) (client : Int) (k : ServerM Int) : ServerM Int := do
  if (← serverRespond message client) ≠ 0 then .ret (-1) else k

/-- The buffer has one byte more than is read, so the string ends where the
bytes received do. -/
def serverGetPath (message : SMessage) (client : Int) : ServerM (Option (List UInt8)) :=
  if message = 0 ∨ client = 0 then .ret none
  else
    let pathLen := lenOf message
    muCalloc (pathLen + 1) <|
      .read pathLen fun
        | none => .ret none
        | some path => .ret (some (cString path))

/-- The writes of `server_send_path` and `server_send_data`: a length and
then the bytes, given up at the first failure. -/
def sendBlock (bs : List UInt8) : ServerM Int :=
  .write (.size bs.length) fun
    | false => .ret (-1)
    | true => .write (.block bs) fun ok => .ret (if ok then 0 else -1)

def serverSendPath (client : Int) (path : List UInt8) : ServerM Int :=
  if client = 0 then .ret (-1) else sendBlock path

/-- An empty file is not sent at all, not even its length. -/
def serverSendData (client : Int) (data : List UInt8) : ServerM Int :=
  if client = 0 ∨ data.length = 0 then .ret (-1) else sendBlock data

/-- `res` is not initialised, so what a short read leaves in it is not
determined. -/
def serverGetLen (client : Int) : ServerM Nat :=
  if client = 0 then .ret 0
  else
    .read 8 fun
      | none => .ret 0
      | some bs =>
          if bs.length < 8 then
            .unspec fun junk => .ret (LittleEndian.decode ((bs ++ junk).take 8))
          else .ret (LittleEndian.decode bs)

/-- `CHECK_READ_RESPONSE` into an uninitialised `size_t`. The result of
`read` is compared with `sizeof` as an unsigned number, so -1 is not below it
and a failed read goes on with whatever the variable held. -/
def checkReadResponse (client : Int) (k : Nat → ServerM Int) : ServerM Int :=
  .read 8 fun
    | none => .unspec fun junk => k (LittleEndian.decode (junk.take 8))
    | some bs =>
        if bs.length < 8 then do
          let _ ← serverRespond sapiFailure client
          .ret 1
        else k (LittleEndian.decode bs)

/-! ## Handlers -/

/-- The assignments that make `client` the owner of a file it opens. -/
def takeOwnership (message : SMessage) (client : Int) (file : Nat) (k : ServerM Int) :
    ServerM Int :=
  assign file (fun f => { f with client := client }) <|
  if hasFlag message oLock then
    assign file (fun f => { f with dataInfo := f.dataInfo &&& oLock.zeroExtend 32 }) k
  else k

/-- The branch of `server_openFile` that stores a new file. -/
def serverCreateFile (message : SMessage) (client : Int) (path : List UInt8) :
    ServerM Int :=
  .get fun s =>
  let (newFile, s) := s.fuAllocFileData []
  .set s <|
  takeOwnership message client newFile <|
  .lock .storage <|
  .get fun s =>
  if s.fuStorageBytesAvailable = 0 ∨ s.fuStorageFilesAvailable = 0 then
    .unlock .storage <|
    .get fun s => .set (s.fuFreeFileData newFile) <|
    sapiRespond sapiFailure client (.ret (-1))
  else
    let (err, s) := s.fuAddFile newFile path
    .set s <|
    if err ≠ 0 then
      .unlock .storage <|
      -- freed by `fu_add_file` already
      deref newFile fun _ =>
      sapiRespond sapiFailure client (.ret (-1))
    else
      .unlock .storage <|
      sapiRespond sapiSuccess client (.ret 0)

def serverOpenFile (message : SMessage) (client : Int) : ServerM Int :=
  if message = 0 ∨ client = 0 then .ret (-1)
  else do
    match ← serverGetPath message client with
    | none => sapiRespond sapiFailure client (.ret (-1))
    | some path =>
        getfile path fun
          | none =>
              if !hasFlag message oCreate then
                sapiRespond sapiFnf client (.ret (-1))
              else serverCreateFile message client path
          | some file =>
              .lock (.file file) <|
              deref file fun f =>
              if f.client ≠ -1 then
                .unlock (.file file) <|
                sapiRespond sapiAlready client (.ret (-1))
              else
                takeOwnership message client file <|
                .unlock (.file file) <|
                sapiRespond sapiSuccess client (.ret 0)

def serverCloseFile (message : SMessage) (client : Int) : ServerM Int :=
  if message = 0 ∨ client = 0 then .ret (-1)
  else do
    match ← serverGetPath message client with
    | none => sapiRespond sapiFailure client (.ret 1)
    | some path =>
        getfile path fun
          | none => sapiRespond sapiFnf client (.ret 1)
          | some file =>
              .lock (.file file) <|
              deref file fun f =>
              if f.client ≠ client then
                .unlock (.file file) <|
                sapiRespond sapiLocked client (.ret 1)
              else
                assign file (fun f => { f with client := -1 }) <|
                .unlock (.file file) <|
                sapiRespond sapiSuccess client (.ret 0)

def serverReadFile (message : SMessage) (client : Int) : ServerM Int :=
  if message = 0 ∨ client = 0 then .ret (-1)
  else do
    match ← serverGetPath message client with
    | none => sapiRespond sapiFailure client (.ret 1)
    | some path =>
        getfile path fun
          | none => sapiRespond sapiFnf client (.ret 1)
          | some file =>
              .lock (.file file) <|
              deref file fun f =>
              if (f.client ≠ 0 ∧ f.client ≠ client) ∨
                  (hasFlag f.dataInfo oLock ∧ f.client ≠ client) then
                .unlock (.file file) <|
                sapiRespond sapiLocked client (.ret 3)
              else
                -- leaves with the file's mutex held if the answer fails
                sapiRespond sapiSuccess client do
                  let _ ← serverSendData client f.data
                  .unlock (.file file) (.ret 0)

/-- The end of `server_readNFiles`: a length of 0 closes the list. -/
def readNFilesEnd : ServerM Int :=
  .unlock .storage <|
  .write (.size 0) fun ok => .ret (if ok then 0 else -1)

/-- The `hu_foreach` of `server_readNFiles`, from any point of the walk. -/
def readNFilesLoop (client : Int) : List (List UInt8 × Nat) → Nat → ServerM Int
  | [], _ => readNFilesEnd
  | (fileName, file) :: hi, nFiles =>
      if nFiles = 0 then readNFilesEnd
      else
        deref file fun _ =>
        .trylock (.file file) fun
          | false => readNFilesLoop client hi nFiles
          | true =>
              deref file fun f =>
              if f.dataLen > 0 then
                assign file (fun f => { f with dataInfo := f.dataInfo + 1 }) do
                  if (← serverSendPath client fileName) ≠ 0 then
                    .unlock (.file file) <|
                    .unlock .storage <|
                    sapiRespond sapiFailure client (.ret (-1))
                  else if (← serverSendData client f.data) ≠ 0 then
                    .unlock (.file file) <|
                    .unlock .storage <|
                    sapiRespond sapiFailure client (.ret (-1))
                  else
                    .unlock (.file file) <|
                    readNFilesLoop client hi (nFiles - 1)
              else
                .unlock (.file file) <|
                readNFilesLoop client hi nFiles

def serverReadNFiles (message : SMessage) (client : Int) : ServerM Int :=
  if message = 0 ∨ client = 0 then .ret (-1)
  else
    .lock .storage <|
    .get fun s => readNFilesLoop client s.table.items (lenOf message)

/-- One file given up, its mutex held: the notice and the contents if the
client wants them, then the removal. `false` says that the notice failed and
`server_evict` returned on the spot. -/
def evictFile (client : Int) (sendFilesBack : Bool) (currFile : Nat) (f : FileData) :
    ServerM Bool :=
  let giveUp : ServerM Bool :=
    assign currFile (fun f => { f with client := -2 }) <|
    .unlock (.file currFile) <|
    removefile f.path (.ret true)
  if sendFilesBack then do
    -- leaves with this file's mutex held if the notice fails
    if (← serverRespond sapiEvictMsg client) ≠ 0 then .ret false
    else
      let _ ← serverSendPath client f.path
      let _ ← serverSendData client f.data
      giveUp
  else giveUp

/-- The loop of `server_evict` over the slots of its array. It answers with
the bytes still to be freed, or with `none` when it returned from inside the
loop. -/
def evictLoop (client : Int) (sendFilesBack : Bool) :
    List (Option Nat) → Nat → ServerM (Option Nat)
  | [], bytesToFree => .ret (some bytesToFree)
  | slot :: slots, bytesToFree =>
      if bytesToFree = 0 then .ret (some 0)
      else
        match slot with
        | none => .fault
        | some currFile =>
            deref currFile fun _ =>
            .trylock (.file currFile) fun
              | false => evictLoop client sendFilesBack slots bytesToFree
              | true =>
                  deref currFile fun f =>
                  if f.client ≠ -1 ∧ f.client ≠ client then
                    .unlock (.file currFile) <|
                    evictLoop client sendFilesBack slots bytesToFree
                  else do
                    if ← evictFile client sendFilesBack currFile f then
                      evictLoop client sendFilesBack slots
                        (if f.dataLen > bytesToFree then 0 else bytesToFree - f.dataLen)
                    else .ret none

def serverEvict (qsort : Qsort Nat) (client : Int) (bytesToFree : Nat) : ServerM Int :=
  .get fun s =>
  match s.fuEvictFiles qsort bytesToFree with
  | none => .exit
  | some evictArr =>
      if evictArr.len = 0 then .ret (-1)
      else do
        if (← serverRespond sapiEvictMsg client) ≠ 0 then .ret (-1)
        else
          let sendFilesBack := (← serverGetLen client) ≠ 0
          match ← evictLoop client sendFilesBack evictArr.slots bytesToFree with
          | none => .ret (-1)
          | some rest =>
              if rest = 0 then sapiRespond sapiSuccess client (.ret 0)
              else sapiRespond sapiFailure client (.ret (-1))

/-- The end of `server_writeFile` and `server_appendToFile`, once the client
has been told to send: read the data and write it from `offset` on. -/
def receiveData (client : Int) (file dataLen : Nat) (offset : FileData → Nat) :
    ServerM Int :=
  muCalloc dataLen <|
  .read dataLen fun
    | none =>
        .unlock (.file file) do
          let _ ← serverRespond sapiFailure client
          .ret 1
    | some bs =>
        let data :=
          if dataLen = 0 then none
          else some (bs ++ List.replicate (dataLen - bs.length) 0)
        deref file fun f =>
        .get fun s =>
        match s.fuWritefile file (offset f) data with
        | none => .exit
        | some (err, s) =>
            .set s <|
            if err ≠ 0 then
              .unlock (.file file) do
                let _ ← serverRespond sapiFailure client
                .ret 1
            else do
              if (← serverRespond sapiSuccess client) ≠ 0 then
                .unlock (.file file) (.ret 1)
              else .unlock (.file file) (.ret 0)

/-- What the two writing handlers do with the length they were sent: make
room for it or say that there is room, then receive that much. -/
def serverMakeRoom (qsort : Qsort Nat) (offset : FileData → Nat) (client : Int)
    (file dataLen : Nat) : ServerM Int :=
  .get fun s =>
  if s.fuStorageBytesAvailable < dataLen then do
    if (← serverEvict qsort client (dataLen - s.fuStorageBytesAvailable)) ≠ 0 then
      .unlock (.file file) <|
      .unlock .storage <|
      sapiRespond sapiFailure client (.ret 1)
    else
      .unlock .storage <|
      receiveData client file dataLen offset
  else do
    if (← serverRespond sapiSuccess client) ≠ 0 then
      .unlock (.file file) <|
      .unlock .storage (.ret 1)
    else
      .unlock .storage <|
      receiveData client file dataLen offset

/-- The two writing handlers, which differ in the offset they write at. -/
def serverWriteAt (qsort : Qsort Nat) (offset : FileData → Nat) (message : SMessage)
    (client : Int) : ServerM Int :=
  if message = 0 ∨ client = 0 then .ret (-1)
  else do
    match ← serverGetPath message client with
    | none => sapiRespond sapiFailure client (.ret 1)
    | some path =>
        .lock .storage <|
        getfile path fun
          | none =>
              .unlock .storage <|
              sapiRespond sapiFnf client (.ret 1)
          | some file =>
              .lock (.file file) <|
              deref file fun f =>
              if f.client ≠ client then
                -- the storage's mutex stays held
                .unlock (.file file) <|
                sapiRespond sapiLocked client (.ret 3)
              else
                checkReadResponse client fun dataLen =>
                serverMakeRoom qsort offset client file dataLen

def serverWriteFile (qsort : Qsort Nat) (message : SMessage) (client : Int) : ServerM Int :=
  serverWriteAt qsort (fun _ => 0) message client

def serverAppendToFile (qsort : Qsort Nat) (message : SMessage) (client : Int) :
    ServerM Int :=
  serverWriteAt qsort FileData.dataLen message client

/-- Neither reads the path nor answers. -/
def serverLockFile (message : SMessage) (client : Int) : ServerM Int :=
  if message = 0 ∨ client = 0 then .ret (-1) else .ret 0

def serverUnlockFile (message : SMessage) (client : Int) : ServerM Int :=
  if message = 0 ∨ client = 0 then .ret (-1) else .ret 0

/-- The path is freed before `fu_remove_file` looks at it: what that call
removes is up to the contents of freed memory. -/
def serverRemoveFile (message : SMessage) (client : Int) : ServerM Int :=
  if message = 0 ∨ client = 0 then .ret (-1)
  else do
    match ← serverGetPath message client with
    | none => sapiRespond sapiFailure client (.ret 1)
    | some path =>
        .lock .storage <|
        getfile path fun
          | none =>
              .unlock .storage <|
              sapiRespond sapiFnf client (.ret 0)
          | some file =>
              .lock (.file file) <|
              deref file fun f =>
              if f.client ≠ client then
                .unlock (.file file) <|
                .unlock .storage <|
                sapiRespond sapiLocked client (.ret 1)
              else
                .unlock (.file file) <|
                .unspec fun freed =>
                removefile (cString freed) <|
                .unlock .storage <|
                sapiRespond sapiSuccess client (.ret 0)

def serve (qsort : Qsort Nat) (request : SMessage) (client : Int) : ServerM Int :=
  let op := opOf request
  if op = sapiOpenFile then serverOpenFile request client
  else if op = sapiCloseFile then serverCloseFile request client
  else if op = sapiReadFile then serverReadFile request client
  else if op = sapiReadNFiles then serverReadNFiles request client
  else if op = sapiWriteFile then serverWriteFile qsort request client
  else if op = sapiAppendFile then serverAppendToFile qsort request client
  else if op = sapiLockFile then serverLockFile request client
  else if op = sapiUnlockFile then serverUnlockFile request client
  else if op = sapiRemoveFile then serverRemoveFile request client
  else do
    if (← serverRespond sapiFailure client) ≠ 0 then .ret 1 else .ret (-1)

/-- One turn of `server_worker` for the client it was assigned: read a
request, serve it if it is not 0, and say whether the client goes back to the
poll array. The request word starts out as 0, so a short read gives its low
bytes. -/
def serverWorker (qsort : Qsort Nat) (client : Int) : ServerM Bool :=
  .read 4 fun
    | none => .ret false
    | some bs =>
        let request := BitVec.ofNat 32 (LittleEndian.decode bs)
        if request = 0 then .ret false
        else do
          let _ ← serve qsort request client
          .ret true

/-- Up to `n` turns for one client, as long as it goes back to the poll
array. -/
def serverTurns (qsort : Qsort Nat) (client : Int) : Nat → ServerM Bool
  | 0 => .ret true
  | n + 1 => do
      if ← serverWorker qsort client then serverTurns qsort client n else .ret false

end LsoStore
