import LsoStore.Lib.Runs
import LsoStore.Server

/-!
# The handlers between their critical sections

Workers serve several clients at once, so between two of its critical sections
a handler sees what the others did. Each handler is cut here where it holds no
mutex of the storage: `server_openFile`, `server_closeFile` and
`server_readFile` after their lookup, `server_writeFile` and
`server_appendToFile` where they give the storage's mutex back. What a handler
keeps from one section to the next is its `Stage`, and put together again the
sections are the handler.

The path has been read, from the client's own socket, before the first section.
-/

namespace LsoStore

open Proc

/-- What a handler holds on to between two sections: the pointer its lookup
gave it, or the file and the length it told the client to send. -/
inductive Stage where
  | begun
  | looked (file : Option Nat)
  | granted (file dataLen : Nat)
  | returned (r : Int)
deriving DecidableEq

/-- The end of a handler. -/
def returning (p : ServerM Int) : ServerM Stage := do
  let r ← p
  .ret (.returned r)

/-! ## Sections -/

/-- `server_openFile` from its lookup on. -/
def openFound (message : SMessage) (client : Int) (path : List UInt8) :
    Option Nat → ServerM Int
  | none =>
      if !hasFlag message oCreate then
        sapiRespond sapiFnf client (.ret (-1))
      else serverCreateFile message client path
  | some file =>
      .lock (.file file) <|
      deref file fun f =>
      if f.client ≠ -1 then
        .unlock (.file file) <|
        sapiRespond sapiAlready client (.ret (-1))
      else
        takeOwnership message client file <|
        .unlock (.file file) <|
        sapiRespond sapiSuccess client (.ret 0)

/-- `server_closeFile` from its lookup on. -/
def closeFound (client : Int) : Option Nat → ServerM Int
  | none => sapiRespond sapiFnf client (.ret 1)
  | some file =>
      .lock (.file file) <|
      deref file fun f =>
      if f.client ≠ client then
        .unlock (.file file) <|
        sapiRespond sapiLocked client (.ret 1)
      else
        assign file (fun f => { f with client := -1 }) <|
        .unlock (.file file) <|
        sapiRespond sapiSuccess client (.ret 0)

/-- `server_readFile` from its lookup on. -/
def readFound (client : Int) : Option Nat → ServerM Int
  | none => sapiRespond sapiFnf client (.ret 1)
  | some file =>
      .lock (.file file) <|
      deref file fun f =>
      if (f.client ≠ 0 ∧ f.client ≠ client) ∨
          (hasFlag f.dataInfo oLock ∧ f.client ≠ client) then
        .unlock (.file file) <|
        sapiRespond sapiLocked client (.ret 3)
      else
        sapiRespond sapiSuccess client do
          let _ ← serverSendData client f.data
          .unlock (.file file) (.ret 0)

/-- `CHECK_READ_RESPONSE` inside a section. -/
def readLength (client : Int) (k : Nat → ServerM Stage) : ServerM Stage :=
  .read 8 fun
    | none => .unspec fun junk => k (LittleEndian.decode (junk.take 8))
    | some bs =>
        if bs.length < 8 then do
          let _ ← serverRespond sapiFailure client
          .ret (.returned 1)
        else k (LittleEndian.decode bs)

/-- What a writing handler does under the storage's mutex with the length it
was sent. -/
def grantRoom (qsort : Qsort Nat) (client : Int) (file dataLen : Nat) : ServerM Stage :=
  .get fun s =>
  if s.fuStorageBytesAvailable < dataLen then do
    if (← serverEvict qsort client (dataLen - s.fuStorageBytesAvailable)) ≠ 0 then
      .unlock (.file file) <|
      .unlock .storage <|
      returning (sapiRespond sapiFailure client (.ret 1))
    else .unlock .storage (.ret (.granted file dataLen))
  else do
    if (← serverRespond sapiSuccess client) ≠ 0 then
      .unlock (.file file) <|
      .unlock .storage (.ret (.returned 1))
    else .unlock .storage (.ret (.granted file dataLen))

/-- The section of the two writing handlers under the storage's mutex. -/
def writeSection (qsort : Qsort Nat) (client : Int) (path : List UInt8) : ServerM Stage :=
  .lock .storage <|
  getfile path fun
    | none =>
        .unlock .storage <|
        returning (sapiRespond sapiFnf client (.ret 1))
    | some file =>
        .lock (.file file) <|
        deref file fun f =>
        if f.client ≠ client then
          .unlock (.file file) <|
          returning (sapiRespond sapiLocked client (.ret 3))
        else readLength client fun dataLen => grantRoom qsort client file dataLen

/-- `server_removeFile` once it has read its path. -/
def removeSection (client : Int) (path : List UInt8) : ServerM Int :=
  .lock .storage <|
  getfile path fun
    | none =>
        .unlock .storage <|
        sapiRespond sapiFnf client (.ret 0)
    | some file =>
        .lock (.file file) <|
        deref file fun f =>
        if f.client ≠ client then
          .unlock (.file file) <|
          .unlock .storage <|
          sapiRespond sapiLocked client (.ret 1)
        else
          .unlock (.file file) <|
          .unspec fun freed =>
          removefile (cString freed) <|
          .unlock .storage <|
          sapiRespond sapiSuccess client (.ret 0)

/-! ## Handlers -/

inductive HandlerKind where
  | openFile (message : SMessage)
  | closeFile
  | readFile
  | writeFile
  | appendToFile
  | removeFile

/-- A handler that serves `client` and has read its path. -/
structure Handler where
  kind : HandlerKind
  client : Int
  path : List UInt8

namespace Handler

/-- Where a writing handler writes. -/
def offset (h : Handler) (f : FileData) : Nat :=
  match h.kind with
  | .appendToFile => f.dataLen
  | _ => 0

/-- The handler's first section. -/
def first (qsort : Qsort Nat) (h : Handler) : ServerM Stage :=
  match h.kind with
  | .openFile _ | .closeFile | .readFile => getfile h.path fun file => .ret (.looked file)
  | .writeFile | .appendToFile => writeSection qsort h.client h.path
  | .removeFile => returning (removeSection h.client h.path)

/-- The rest of the handler after a lookup that led to `file`. -/
def found (h : Handler) (file : Option Nat) : ServerM Int :=
  match h.kind with
  | .openFile message => openFound message h.client h.path file
  | .closeFile => closeFound h.client file
  | _ => readFound h.client file

/-- The handler's second section. -/
def second (h : Handler) : Stage → ServerM Int
  | .looked file => h.found file
  | .granted file dataLen => receiveData h.client file dataLen h.offset
  | .returned r => .ret r
  | .begun => .fault

/-- The section that comes next. -/
def next (qsort : Qsort Nat) (h : Handler) : Stage → ServerM Stage
  | .begun => h.first qsort
  | stage => returning (h.second stage)

/-- The mutexes a writing handler sees held while it makes room, its own and
everybody else's. -/
def holding (h : Handler) (w : World FileStorage Mutex) : Finset Mutex :=
  match w.st.table.huGet h.path with
  | none => insert .storage w.held
  | some file => insert (.file file) (insert .storage w.held)

/-- The handler runs its next section to the end with nobody in between. All
mutexes held are known, so a trylock fails on one of them. -/
structure Acts (qsort : Qsort Nat) (h : Handler) (tr : List (Event Mutex))
    (w : World FileStorage Mutex) (t : Stage) (w' : World FileStorage Mutex) (t' : Stage) :
    Prop where
  active : ∀ r, t ≠ .returned r
  runs : (h.next qsort t).Runs w tr (.ret t') w'
  trylock : ∀ m, .trylock m false ∈ tr → m ∈ h.holding w

/-- The handler without anybody in between. -/
def whole (qsort : Qsort Nat) (h : Handler) : ServerM Int := h.first qsort >>= h.second

end Handler

/-- Some handlers at work on one storage. -/
abbrev Handlers (ι : Type) := Threads ι (World FileStorage Mutex) Stage

/-- One of them runs a section. -/
abbrev Handlers.Step {ι : Type} [DecidableEq ι] (qsort : Qsort Nat) (handlers : ι → Handler) :
    Handlers ι → ι × List (Event Mutex) → Handlers ι → Prop :=
  Interleave fun i => (handlers i).Acts qsort

/-- The runs of some handlers that start together in a world that `start` allows. -/
abbrev HandlersRun {ι : Type} [DecidableEq ι] (qsort : Qsort Nat) (handlers : ι → Handler)
    (start : World FileStorage Mutex → Prop) :
    List ((ι × List (Event Mutex)) × Handlers ι) → Handlers ι → Prop :=
  Run (fun c => start c.shared ∧ ∀ i, c.stage i = .begun) (Handlers.Step qsort handlers)

/-! ## Inside `fu_writefile`

The storage's mutex is not held there, so another worker can come in between
the test of the space and the update of the counter. -/

/-- `fu_writefile` up to its test of the space, and whether it goes on. -/
def FileStorage.fuWritefileTest (s : FileStorage) (file i : Nat)
    (data : Option (List UInt8)) : Bool × FileStorage :=
  match data with
  | none => (false, s)
  | some data =>
      if data.length = 0 then (false, s)
      else if i > (s.file file).dataLen then (false, s)
      else
        let s := s.modifyFile file fun f => { f with dataInfo := f.dataInfo + 1 }
        let newSize := SizeT.add i data.length
        let newBytes := SizeT.add s.currBytes (SizeT.sub newSize (s.file file).dataLen)
        (newBytes ≤ s.maxBytes, s)

/-- `fu_writefile` from its update of the counter on. `none` is the exit in
`mu_realloc`. -/
def FileStorage.fuWritefileUpdate (s : FileStorage) (file i : Nat) (data : List UInt8) :
    Option FileStorage :=
  let newSize := SizeT.add i data.length
  let newBytes := SizeT.add s.currBytes (SizeT.sub newSize (s.file file).dataLen)
  if newSize > muLimit then none
  else
    some { s.modifyFile file (fun f => { f with data := f.data.take i ++ data }) with
      currBytes := newBytes }

theorem FileStorage.fuWritefile_eq (s : FileStorage) (file i : Nat)
    (data : Option (List UInt8)) :
    s.fuWritefile file i data =
      if (s.fuWritefileTest file i data).1 then
        ((s.fuWritefileTest file i data).2.fuWritefileUpdate file i (data.getD [])).map
          fun s => (0, s)
      else some (-1, (s.fuWritefileTest file i data).2) := by
  cases data with
  | none => rfl
  | some data =>
      simp only [fuWritefile, fuWritefileTest, fuWritefileUpdate, Option.getD_some]
      by_cases hlen : data.length = 0
      · simp [hlen]
      · by_cases hi : i > (s.file file).dataLen
        · simp [hlen, hi]
        · simp only [hlen, hi, if_false]
          generalize s.modifyFile file (fun f => { f with dataInfo := f.dataInfo + 1 }) = s'
          generalize SizeT.add s'.currBytes _ = newBytes
          by_cases hroom : newBytes ≤ s'.maxBytes
          · rw [decide_eq_true hroom, if_neg (Nat.not_lt.mpr hroom), if_pos rfl]
            by_cases hmax : SizeT.add i data.length > muLimit
            · simp only [if_pos hmax, Option.map_none]
            · simp only [if_neg hmax, Option.map_some]
          · rw [decide_eq_false hroom, if_pos (Nat.lt_of_not_le hroom)]
            rfl

/-- The stages of a writing handler with one more between the two steps. -/
inductive WriteStage where
  | outside (t : Stage)
  | tested (file i : Nat) (data : List UInt8)

/-- Up to the test. -/
def testSection (client : Int) (file dataLen : Nat) (offset : FileData → Nat) :
    ServerM WriteStage :=
  muCalloc dataLen <|
  .read dataLen fun
    | none =>
        .unlock (.file file) do
          let _ ← serverRespond sapiFailure client
          .ret (.outside (.returned 1))
    | some bs =>
        let data :=
          if dataLen = 0 then none
          else some (bs ++ List.replicate (dataLen - bs.length) 0)
        deref file fun f =>
        .get fun s =>
        let (goes, s) := s.fuWritefileTest file (offset f) data
        .set s <|
        if !goes then
          .unlock (.file file) do
            let _ ← serverRespond sapiFailure client
            .ret (.outside (.returned 1))
        else .ret (.tested file (offset f) (data.getD []))

/-- From the update on. -/
def updateSection (client : Int) (file i : Nat) (data : List UInt8) : ServerM Int :=
  .get fun s =>
  match s.fuWritefileUpdate file i data with
  | none => .exit
  | some s =>
      .set s do
        if (← serverRespond sapiSuccess client) ≠ 0 then
          .unlock (.file file) (.ret 1)
        else .unlock (.file file) (.ret 0)

namespace Handler

/-- The section of a writing handler that comes next. -/
def nextWrite (qsort : Qsort Nat) (h : Handler) : WriteStage → ServerM WriteStage
  | .outside (.granted file dataLen) => testSection h.client file dataLen h.offset
  | .outside t => do
      let t ← h.next qsort t
      .ret (.outside t)
  | .tested file i data => do
      let r ← updateSection h.client file i data
      .ret (.outside (.returned r))

/-- The handler runs that section to the end. -/
structure WriteActs (qsort : Qsort Nat) (h : Handler) (tr : List (Event Mutex))
    (w : World FileStorage Mutex) (t : WriteStage) (w' : World FileStorage Mutex)
    (t' : WriteStage) : Prop where
  active : ∀ r, t ≠ .outside (.returned r)
  runs : (h.nextWrite qsort t).Runs w tr (.ret t') w'
  trylock : ∀ m, .trylock m false ∈ tr → m ∈ h.holding w

end Handler

/-- Writing handlers at work, any of which may be stopped between its test and
its update. -/
abbrev Writers (ι : Type) := Threads ι (World FileStorage Mutex) WriteStage

abbrev WritersRun {ι : Type} [DecidableEq ι] (qsort : Qsort Nat) (handlers : ι → Handler)
    (start : World FileStorage Mutex → Prop) :
    List ((ι × List (Event Mutex)) × Writers ι) → Writers ι → Prop :=
  Run (fun c => start c.shared ∧ ∀ i, c.stage i = .outside .begun)
    (Interleave fun i => (handlers i).WriteActs qsort)

/-! ## The sections make up the handlers -/

section Whole

variable (qsort : Qsort Nat) (message : SMessage) (client : Int)

theorem returning_bind (p : ServerM Int) (h : Handler) : returning p >>= h.second = p := by
  rw [returning, bind_assoc]
  exact bind_ret p

/-- A handler from the path it read on. -/
def afterPath (failed : ServerM Int) (kind : HandlerKind) : ServerM Int :=
  if message = 0 ∨ client = 0 then .ret (-1)
  else do
    match ← serverGetPath message client with
    | none => failed
    | some path => Handler.whole qsort ⟨kind, client, path⟩

theorem serverOpenFile_eq : serverOpenFile message client =
    afterPath qsort message client (sapiRespond sapiFailure client (.ret (-1)))
      (.openFile message) := rfl

theorem serverCloseFile_eq : serverCloseFile message client =
    afterPath qsort message client (sapiRespond sapiFailure client (.ret 1)) .closeFile := rfl

theorem serverReadFile_eq : serverReadFile message client =
    afterPath qsort message client (sapiRespond sapiFailure client (.ret 1)) .readFile := rfl

theorem serverRemoveFile_eq : serverRemoveFile message client =
    afterPath qsort message client (sapiRespond sapiFailure client (.ret 1)) .removeFile := by
  rw [serverRemoveFile, afterPath]
  congr 2
  funext path
  cases path with
  | none => rfl
  | some path => exact (returning_bind _ _).symm

/-- The length is read in the section, and what is read of it decides where the
section ends. -/
theorem readLength_bind (h : Handler) (k : Nat → ServerM Stage) :
    readLength client k >>= h.second = checkReadResponse client fun n => k n >>= h.second := by
  rw [readLength, checkReadResponse, read_bind]
  congr 1
  funext r
  cases r with
  | none => rfl
  | some bs =>
      dsimp only
      rw [ite_bind, bind_assoc]
      rfl

theorem grantRoom_bind (h : Handler) (file dataLen : Nat) :
    grantRoom qsort h.client file dataLen >>= h.second =
      serverMakeRoom qsort h.offset h.client file dataLen := by
  rw [grantRoom, serverMakeRoom, get_bind]
  congr 1
  funext s
  rw [ite_bind, bind_assoc, bind_assoc]
  congr 2
  · funext r
    rw [ite_bind]
    simp only [unlock_bind, returning_bind]
    rfl
  · funext r
    rw [ite_bind]
    rfl

theorem writeSection_bind (h : Handler) :
    writeSection qsort h.client h.path >>= h.second =
      .lock .storage (getfile h.path fun
        | none =>
            .unlock .storage <|
            sapiRespond sapiFnf h.client (.ret 1)
        | some file =>
            .lock (.file file) <|
            deref file fun f =>
            if f.client ≠ h.client then
              .unlock (.file file) <|
              sapiRespond sapiLocked h.client (.ret 3)
            else
              checkReadResponse h.client fun dataLen =>
              serverMakeRoom qsort h.offset h.client file dataLen) := by
  rw [writeSection, lock_bind]
  congr 1
  rw [getfile, getfile, get_bind]
  congr 1
  funext s
  rw [set_bind]
  congr 1
  cases (s.fuGetfile h.path).1 with
  | none =>
      dsimp only
      rw [unlock_bind, returning_bind]
  | some file =>
      dsimp only
      rw [lock_bind, deref, deref, get_bind]
      congr 2
      funext s
      cases s.heap file with
      | none => rfl
      | some f =>
          dsimp only
          rw [ite_bind, unlock_bind, returning_bind, readLength_bind]
          simp only [grantRoom_bind]

theorem serverWriteFile_eq : serverWriteFile qsort message client =
    afterPath qsort message client (sapiRespond sapiFailure client (.ret 1)) .writeFile := by
  rw [serverWriteFile, serverWriteAt, afterPath]
  congr 2
  funext path
  cases path with
  | none => rfl
  | some path => exact (writeSection_bind qsort ⟨.writeFile, client, path⟩).symm

theorem serverAppendToFile_eq : serverAppendToFile qsort message client =
    afterPath qsort message client (sapiRespond sapiFailure client (.ret 1)) .appendToFile := by
  rw [serverAppendToFile, serverWriteAt, afterPath]
  congr 2
  funext path
  cases path with
  | none => rfl
  | some path => exact (writeSection_bind qsort ⟨.appendToFile, client, path⟩).symm

/-- What is left of a writing handler after its test. -/
def afterTest : WriteStage → ServerM Int
  | .tested file i data => updateSection client file i data
  | .outside (.returned r) => .ret r
  | .outside _ => .fault

/-- Cut at its test and put together again, the second section returns the
same. -/
theorem runs_testSection_bind (file dataLen : Nat) (offset : FileData → Nat)
    (w w' : World FileStorage Mutex) (tr : List (Event Mutex)) (r : Int) :
    (testSection client file dataLen offset >>= afterTest client).Runs w tr (.ret r) w' ↔
      (receiveData client file dataLen offset).Runs w tr (.ret r) w' := by
  rw [testSection, receiveData, muCalloc, muCalloc, ite_bind, exit_bind, read_bind]
  split
  · rfl
  · rw [runs_read, runs_read]
    refine exists_congr fun r => exists_congr fun tr' => and_congr_right fun _ =>
      and_congr_right fun _ => ?_
    cases r with
    | none =>
        dsimp only
        rw [unlock_bind, bind_assoc]
        rfl
    | some bs =>
        dsimp only
        rw [deref, deref, get_bind, runs_get, runs_get]
        cases w.st.heap file with
        | none => rfl
        | some f =>
            dsimp only
            rw [get_bind, runs_get, runs_get, FileStorage.fuWritefile_eq]
            generalize (if dataLen = 0 then none else
              some (bs ++ List.replicate (dataLen - bs.length) 0)) = data
            obtain ⟨goes, s'⟩ := w.st.fuWritefileTest file (offset f) data
            dsimp only
            rw [set_bind, ite_bind, unlock_bind, bind_assoc, runs_set]
            cases goes with
            | false => rfl
            | true =>
                simp only [Bool.not_true, Bool.false_eq_true, if_true, if_false, ret_bind]
                rw [afterTest, updateSection, runs_get]
                dsimp only
                cases s'.fuWritefileUpdate file (offset f) (data.getD []) with
                | none => simp
                | some s'' => simp

end Whole

end LsoStore
