import LsoStore.Lib.CFile
import LsoStore.FileUtils
import LsoStore.PollUtils

/-!
# The server's settings

`init_server_settings`, which reads the configuration file, and
`init_server_infos`, which sets the server up with what it has read. The file is
there and can be read, and `errno` is 0 where nothing has failed. The counts of
`%n` are taken exactly, and the loop has a bound on its rounds.
-/

namespace LsoStore

/-- `server_settings`. -/
structure ServerSettings where
  nWorkers : BitVec 16
  availableMemory : BitVec 32
  maxFileCount : BitVec 32
  socketName : List UInt8
  logfileName : List UInt8
  maxClientCount : BitVec 32
deriving DecidableEq

/-- `static server_settings settings`. -/
def ServerSettings.zero : ServerSettings :=
  ⟨0, 0, 0, List.replicate 64 0, List.replicate 64 0, 0⟩

/-- The settings that are read with `%d`. -/
inductive NumberSetting where
  | nWorkers
  | capacity
  | clientMax
  | fileCapacity
deriving DecidableEq

/-- The settings that are names. -/
inductive NameSetting where
  | socketName
  | logfileName
deriving DecidableEq

inductive Setting where
  | number (k : NumberSetting)
  | name (k : NameSetting)
deriving DecidableEq

/-- `"NWORKERS"` -/
def configNWorkers : List UInt8 := [78, 87, 79, 82, 75, 69, 82, 83]
/-- `"CAPACITY"` -/
def configCapacity : List UInt8 := [67, 65, 80, 65, 67, 73, 84, 89]
/-- `"CLIENT_MAX"` -/
def configClientMax : List UInt8 := [67, 76, 73, 69, 78, 84, 95, 77, 65, 88]
/-- `"FILECAPACITY"` -/
def configFileCapacity : List UInt8 := [70, 73, 76, 69, 67, 65, 80, 65, 67, 73, 84, 89]
/-- `"SOCKET_NAME"` -/
def configSocketName : List UInt8 := [83, 79, 67, 75, 69, 84, 95, 78, 65, 77, 69]
/-- `"LOGFILE_NAME"` -/
def configLogfileName : List UInt8 := [76, 79, 71, 70, 73, 76, 69, 95, 78, 65, 77, 69]

/-- The `strcmp`s of `get_setting`. -/
def settingOf (key : List UInt8) : Option Setting :=
  if key = configNWorkers then some (.number .nWorkers)
  else if key = configCapacity then some (.number .capacity)
  else if key = configClientMax then some (.number .clientMax)
  else if key = configFileCapacity then some (.number .fileCapacity)
  else if key = configSocketName then some (.name .socketName)
  else if key = configLogfileName then some (.name .logfileName)
  else none

namespace ServerSettings

/-- Assign `int_sett` to a setting. -/
def setNumber (setts : ServerSettings) (k : NumberSetting) (intSett : Int) : ServerSettings :=
  match k with
  | .nWorkers => { setts with nWorkers := BitVec.ofInt 16 intSett }
  | .capacity => { setts with availableMemory := BitVec.ofInt 32 intSett <<< 20 }
  | .clientMax => { setts with maxClientCount := BitVec.ofInt 32 intSett }
  | .fileCapacity => { setts with maxFileCount := BitVec.ofInt 32 intSett }

def buffer (setts : ServerSettings) : NameSetting → List UInt8
  | .socketName => setts.socketName
  | .logfileName => setts.logfileName

def setBuffer (setts : ServerSettings) (k : NameSetting) (bytes : List UInt8) :
    ServerSettings :=
  match k with
  | .socketName => { setts with socketName := bytes }
  | .logfileName => { setts with logfileName := bytes }

/-- `fread` into the buffer of a name: no terminator, and what was there behind the
bytes read stays. -/
def freadName (setts : ServerSettings) (k : NameSetting) (bytes : List UInt8) :
    ServerSettings :=
  setts.setBuffer k (bytes ++ (setts.buffer k).drop bytes.length)

end ServerSettings

/-- The set `[ ,;=\n\r]`. -/
def isSeparator (c : UInt8) : Bool :=
  c = 32 || c = 44 || c = 59 || c = 61 || c = 10 || c = 13

def serverSkipline (fstream : CFile) : CFile :=
  (fstream.scanSet (· ≠ 10)).2.2.scanChar

/-- The word and the file behind it, or `none` for the result -1. -/
def serverReadword (fstream : CFile) : Course (Option (List UInt8 × CFile)) :=
  let (r, wordLen, fstream) := fstream.scanSet fun c => !isSeparator c
  if r = -1 then .ret none
  else
    match fstream.fseek (-(wordLen : Int)) with
    | none => .ret none
    | some fstream =>
        if wordLen + 1 > muLimit then .exit
        else
          let (str, fstream) := fstream.fread wordLen
          if str.length < wordLen then .ret none else .ret (some (str, fstream))

/-- The branch of `get_setting` for a name. A name of more than 63 bytes is not
read whole, and the process exits. -/
def getName (fstream : CFile) (setts : ServerSettings) (k : NameSetting) :
    Course (ServerSettings × CFile) :=
  let (_, intSett, fstream) := fstream.scanSet fun c => !isSeparator c
  match fstream.fseek (-(intSett : Int)) with
  | none => .exit
  | some fstream =>
      if fstream.eof then .ret (setts, fstream)
      else
        let (bytes, fstream) := fstream.fread (if intSett < 64 then intSett else 63)
        if bytes.length < intSett then .exit else .ret (setts.freadName k bytes, fstream)

def getSetting (str : List UInt8) (fstream : CFile) (setts : ServerSettings) :
    Course (ServerSettings × CFile) :=
  let fstream := (fstream.scanSet isSeparator).2.2
  if fstream.eof then .ret (setts, fstream)
  else
    match settingOf (cString str) with
    | none => .ret (setts, fstream)
    | some (.number k) =>
        match fstream.scanInt with
        | (none, fstream) => .ret (setts, fstream)
        | (some intSett, fstream) => .ret (setts.setNumber k intSett, fstream)
    | some (.name k) => getName fstream setts k

/-- One round of the loop of `init_server_settings`; `none` where it returns -1. The
end of the file is read as the character -1. -/
def settingsRound (configFile : CFile) (setts : ServerSettings) :
    Course (Option (ServerSettings × CFile)) :=
  match configFile.fgetc with
  | (some 35, configFile) => .ret (some (setts, serverSkipline configFile))
  | (some 10, configFile) => .ret (some (setts, configFile))
  | (_, configFile) =>
      match configFile.fseek (-1) with
      | none => .exit
      | some configFile =>
          match serverReadword configFile with
          | .ret none => .ret none
          | .ret (some (tempRead, configFile)) =>
              match getSetting tempRead configFile setts with
              | .ret (setts, configFile) => .ret (some (setts, serverSkipline configFile))
              | .exit => .exit
              | .fault => .fault
              | .running => .running
          | .exit => .exit
          | .fault => .fault
          | .running => .running

def initServerSettingsLoop : Nat → CFile → ServerSettings → Course (Int × ServerSettings)
  | 0, _, _ => .running
  | rounds + 1, configFile, setts =>
      if configFile.eof then .ret (0, setts)
      else
        match settingsRound configFile setts with
        | .ret none => .ret (-1, setts)
        | .ret (some (setts, configFile)) => initServerSettingsLoop rounds configFile setts
        | .exit => .exit
        | .fault => .fault
        | .running => .running

/-- `init_server_settings` on what `./config.txt` holds. -/
def initServerSettings (rounds : Nat) (config : List UInt8) (setts : ServerSettings) :
    Course (Int × ServerSettings) :=
  initServerSettingsLoop rounds (.fopen config) setts

/-! ## The server that is set up -/

/-- `server_infos`, as far as it is set up from the settings. -/
structure ServerInfos where
  storage : FileStorage
  nWorkers : Nat
  workersClients : List Int
  pollArr : PollArr

/-- `mu_calloc` of an array, for its call to `exit`. -/
def callocArray {α : Type} (count size : Nat) (k : Option α) : Option α :=
  if count * size > muLimit then none else k

/-- `init_server_infos`; `none` where it exits. There is a socket. The sizes are
those of `pthread_t`, `int`, `pthread_mutex_t`, `pthread_cond_t` and
`struct pollfd`. -/
def initServerInfos (setts : ServerSettings) : Option ServerInfos :=
  let nWorkers := setts.nWorkers.toNat
  callocArray nWorkers 8 <|
  callocArray nWorkers 4 <|
  callocArray nWorkers 40 <|
  callocArray nWorkers 48 <|
  callocArray setts.maxClientCount.toNat 8 <|
  (FileStorage.fuInitFileStorage setts.maxFileCount.toNat setts.availableMemory.toNat).map
    fun storage =>
      ⟨storage, nWorkers, List.replicate nWorkers 0, .puInitarr setts.maxClientCount.toNat⟩

end LsoStore
