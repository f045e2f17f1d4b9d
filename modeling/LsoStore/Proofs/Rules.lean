import LsoStore.Server

/-!
# Rules for the helpers of the handlers

One equation for each helper that the handlers are made of, in the same form
as the rules for the nodes of a program. With them a handler is taken apart
without unfolding anything below it: an answer is sent or refused, a path
arrives or does not, a record is there or the handler faults.

All handlers refuse descriptor 0 before they do anything else, so the rules
are about a client that is not 0.
-/

namespace LsoStore

open Proc

variable {α : Type} {w : World FileStorage Mutex} {client : Int} {message : SMessage}
  {Q : List (Event Mutex) → Out α → World FileStorage Mutex → Prop}

theorem ensures_deref {a : Nat} {k : FileData → ServerM α} :
    (deref a k).Ensures w Q ↔
      (w.st.heap a = none → Q [] .fault w) ∧
      ∀ f, w.st.heap a = some f → (k f).Ensures w Q := by
  rw [deref, ensures_get]
  cases w.st.heap a with
  | none => simp
  | some f => simp

theorem runs_deref {a : Nat} {f : FileData} {k : FileData → ServerM α} {tr : List (Event Mutex)}
    {o : Out α} {w' : World FileStorage Mutex} (hf : w.st.heap a = some f) :
    (deref a k).Runs w tr o w' ↔ (k f).Runs w tr o w' := by
  rw [deref, runs_get, hf]

theorem runs_getfile {path : List UInt8} {k : Option Nat → ServerM α} {tr : List (Event Mutex)}
    {o : Out α} {w' : World FileStorage Mutex} :
    (getfile path k).Runs w tr o w' ↔
      (k (w.st.table.huGet path)).Runs { w with st := (w.st.fuGetfile path).2 } tr o w' := by
  rw [getfile, runs_get, runs_set, FileStorage.fuGetfile_fst]

@[simp] theorem ensures_assign {a : Nat} {g : FileData → FileData} {k : ServerM α} :
    (assign a g k).Ensures w Q ↔ k.Ensures { w with st := w.st.modifyFile a g } Q := by
  rw [assign, ensures_get, ensures_set]

theorem ensures_muCalloc {size : Nat} {k : ServerM α} :
    (muCalloc size k).Ensures w Q ↔
      (size > muLimit → Q [] .exit w) ∧ (¬ size > muLimit → k.Ensures w Q) := by
  rw [muCalloc]
  split
  · next h => simp [h]
  · next h => simp [h]

@[simp] theorem ensures_getfile {path : List UInt8} {k : Option Nat → ServerM α} :
    (getfile path k).Ensures w Q ↔
      (k (w.st.table.huGet path)).Ensures { w with st := (w.st.fuGetfile path).2 } Q := by
  rw [getfile, ensures_get, ensures_set, FileStorage.fuGetfile_fst]

@[simp] theorem ensures_removefile {path : List UInt8} {k : ServerM α} :
    (removefile path k).Ensures w Q ↔
      k.Ensures { w with st := (w.st.fuRemoveFile path).2 } Q := by
  rw [removefile, ensures_get, ensures_set]

/-- A handler takes the mutex of the file it found and looks into the record. -/
theorem Ensures.lockFile {a : Nat} {k : FileData → ServerM α}
    (hblocked : Mutex.file a ∈ w.held → Q [] .blocked w)
    (hfault : w.st.heap a = none → Q [] .fault { w with held := insert (.file a) w.held })
    (hk : Mutex.file a ∉ w.held → ∀ f, w.st.heap a = some f →
      (k f).Ensures { w with held := insert (.file a) w.held } Q) :
    (Proc.lock (.file a) (deref a k)).Ensures w Q := by
  rw [ensures_lock]
  refine ⟨hblocked, fun hm => ?_⟩
  rw [ensures_deref]
  exact ⟨hfault, hk hm⟩

/-! ## Messages -/

theorem ensures_serverRespond_bind (hc : client ≠ 0) {k : Int → ServerM α} :
    (serverRespond message client >>= k).Ensures w Q ↔
      (k (-1)).Ensures w (fun tr => Q (.write (.word message) false :: tr)) ∧
      (k 0).Ensures w (fun tr => Q (.write (.word message) true :: tr)) := by
  simp [serverRespond, hc]

theorem ensures_sapiRespond (hc : client ≠ 0) {k : ServerM Int}
    {Q : List (Event Mutex) → Out Int → World FileStorage Mutex → Prop} :
    (sapiRespond message client k).Ensures w Q ↔
      Q [.write (.word message) false] (.ret (-1)) w ∧
      k.Ensures w (fun tr => Q (.write (.word message) true :: tr)) := by
  simp [sapiRespond, ensures_serverRespond_bind hc]

theorem ensures_serverGetPath_bind (hm : message ≠ 0) (hc : client ≠ 0)
    {k : Option (List UInt8) → ServerM α} :
    (serverGetPath message client >>= k).Ensures w Q ↔
      (lenOf message + 1 > muLimit → Q [] .exit w) ∧
      (¬ lenOf message + 1 > muLimit →
        ∀ r, Fits (lenOf message) r →
          (k (r.map cString)).Ensures w fun tr => Q (.read (lenOf message) r :: tr)) := by
  simp only [serverGetPath, hm, hc, or_self, if_false, muCalloc]
  split
  · next h => simp [h]
  · next h =>
      simp only [read_bind, ensures_read, h, false_implies, true_and, not_false_eq_true,
        true_implies]
      refine forall_congr' fun r => imp_congr_right fun _ => ?_
      cases r <;> simp

/-- The handlers that read a path begin alike. -/
theorem Ensures.withPath {p : ServerM Int} {k : List UInt8 → ServerM Int} {r : Int}
    {Q : List (Event Mutex) → Out Int → World FileStorage Mutex → Prop}
    (hp : p = if message = 0 ∨ client = 0 then .ret (-1) else do
      match ← serverGetPath message client with
      | none => sapiRespond sapiFailure client (.ret r)
      | some path => k path)
    (hrefused : Q [] (.ret (-1)) w) (hexit : Q [] .exit w)
    (hnone : ∀ ok, Q [.read (lenOf message) none, .write (.word sapiFailure) ok]
      (.ret (if ok then r else -1)) w)
    (hk : client ≠ 0 → ∀ buf, (k (cString buf)).Ensures w fun tr =>
      Q (.read (lenOf message) (some buf) :: tr)) : p.Ensures w Q := by
  rw [hp]
  split
  · rw [ensures_ret]
    exact hrefused
  · next hmc =>
      obtain ⟨hm, hc⟩ := not_or.mp hmc
      rw [ensures_serverGetPath_bind hm hc]
      refine ⟨fun _ => hexit, fun _ buf _ => ?_⟩
      cases buf with
      | none =>
          rw [Option.map_none, ensures_sapiRespond hc, ensures_ret]
          exact ⟨hnone false, hnone true⟩
      | some buf => exact hk hc buf

theorem ensures_sendBlock_bind {bs : List UInt8} {k : Int → ServerM α} :
    (sendBlock bs >>= k).Ensures w Q ↔
      (k (-1)).Ensures w (fun tr => Q (.write (.size bs.length) false :: tr)) ∧
      (k (-1)).Ensures w
        (fun tr => Q (.write (.size bs.length) true :: .write (.block bs) false :: tr)) ∧
      (k 0).Ensures w
        (fun tr => Q (.write (.size bs.length) true :: .write (.block bs) true :: tr)) := by
  simp [sendBlock]

/-- No answer word was written and no mutex tried. -/
structure Quiet (tr : List (Event Mutex)) : Prop where
  word : ∀ (m : SMessage) (ok : Bool), .write (.word m) ok ∉ tr
  trylock : ∀ (m : Mutex) (ok : Bool), .trylock m ok ∉ tr

theorem Ensures.sendBlock_bind {bs : List UInt8} {k : Int → ServerM α}
    (hk : ∀ tr r, Quiet tr → (k r).Ensures w fun tr' => Q (tr ++ tr')) :
    (sendBlock bs >>= k).Ensures w Q := by
  rw [ensures_sendBlock_bind]
  exact ⟨hk [.write (.size bs.length) false] _ ⟨by simp, by simp⟩,
    hk [.write (.size bs.length) true, .write (.block bs) false] _ ⟨by simp, by simp⟩,
    hk [.write (.size bs.length) true, .write (.block bs) true] _ ⟨by simp, by simp⟩⟩

theorem Ensures.serverSendPath_bind {path : List UInt8} {k : Int → ServerM α}
    (hk : ∀ tr r, Quiet tr → (k r).Ensures w fun tr' => Q (tr ++ tr')) :
    (serverSendPath client path >>= k).Ensures w Q := by
  rw [serverSendPath]
  split
  · exact hk [] _ ⟨by simp, by simp⟩
  · exact Ensures.sendBlock_bind hk

theorem Ensures.serverSendData_bind {data : List UInt8} {k : Int → ServerM α}
    (hk : ∀ tr r, Quiet tr → (k r).Ensures w fun tr' => Q (tr ++ tr')) :
    (serverSendData client data >>= k).Ensures w Q := by
  rw [serverSendData]
  split
  · exact hk [] _ ⟨by simp, by simp⟩
  · exact Ensures.sendBlock_bind hk

theorem ensures_serverGetLen_bind (hc : client ≠ 0) {k : Nat → ServerM α} :
    (serverGetLen client >>= k).Ensures w Q ↔
      (k 0).Ensures w (fun tr => Q (.read 8 none :: tr)) ∧
      ∀ bs : List UInt8, bs.length ≤ 8 →
        (bs.length < 8 → ∀ junk,
          (k (LittleEndian.decode ((bs ++ junk).take 8))).Ensures w
            fun tr => Q (.read 8 (some bs) :: .unspec junk :: tr)) ∧
        (¬ bs.length < 8 →
          (k (LittleEndian.decode bs)).Ensures w fun tr => Q (.read 8 (some bs) :: tr)) := by
  simp only [serverGetLen, hc, if_false, read_bind, ensures_read, Option.forall, fits_none,
    true_implies, ret_bind, fits_some]
  refine and_congr_right fun _ => forall_congr' fun bs => imp_congr_right fun _ => ?_
  split
  · next h => simp [h]
  · next h => simp [h]

theorem ensures_checkReadResponse (hc : client ≠ 0) {k : Nat → ServerM Int}
    {Q : List (Event Mutex) → Out Int → World FileStorage Mutex → Prop} :
    (checkReadResponse client k).Ensures w Q ↔
      (∀ junk, (k (LittleEndian.decode (junk.take 8))).Ensures w
        fun tr => Q (.read 8 none :: .unspec junk :: tr)) ∧
      ∀ bs : List UInt8, bs.length ≤ 8 →
        (bs.length < 8 → ∀ ok,
          Q [.read 8 (some bs), .write (.word sapiFailure) ok] (.ret 1) w) ∧
        (¬ bs.length < 8 →
          (k (LittleEndian.decode bs)).Ensures w fun tr => Q (.read 8 (some bs) :: tr)) := by
  simp only [checkReadResponse, ensures_read, Option.forall, fits_none, true_implies,
    ensures_unspec, fits_some]
  refine and_congr_right fun _ => forall_congr' fun bs => imp_congr_right fun _ => ?_
  split
  · next h => simp [h, serverRespond, hc]
  · next h => simp [h]

/-! ## Evictions -/

/-- What `server_evict` answers when its loop is over. -/
def evictAnswer (client : Int) : Option Nat → ServerM Int
  | none => .ret (-1)
  | some rest =>
      if rest = 0 then sapiRespond sapiSuccess client (.ret 0)
      else sapiRespond sapiFailure client (.ret (-1))

/-- The loop is entered with a flag from whatever the client sends. -/
theorem Ensures.serverEvict {qsort : Qsort Nat} {n : Nat} (hc : client ≠ 0)
    {Q : List (Event Mutex) → Out Int → World FileStorage Mutex → Prop}
    (hexit : w.st.fuEvictFiles qsort n = none → Q [] .exit w)
    (hshort : ∀ arr, w.st.fuEvictFiles qsort n = some arr → arr.len = 0 → Q [] (.ret (-1)) w)
    (hrefused : ∀ arr, w.st.fuEvictFiles qsort n = some arr → arr.len ≠ 0 →
      Q [.write (.word sapiEvictMsg) false] (.ret (-1)) w)
    (hloop : ∀ arr, w.st.fuEvictFiles qsort n = some arr → arr.len ≠ 0 →
      ∀ (flag : Bool) (pre : List (Event Mutex)), Quiet pre →
        (evictLoop client flag arr.slots n >>= evictAnswer client).Ensures w fun tr =>
          Q (.write (.word sapiEvictMsg) true :: (pre ++ tr))) :
    (serverEvict qsort client n).Ensures w Q := by
  rw [LsoStore.serverEvict, ensures_get]
  cases harr : w.st.fuEvictFiles qsort n with
  | none => exact ensures_exit.mpr (hexit harr)
  | some arr =>
      dsimp only
      split
      · next hlen => exact ensures_ret.mpr (hshort arr harr hlen)
      · next hlen =>
          rw [ensures_serverRespond_bind hc, if_pos (by decide), if_neg (by decide), ensures_ret,
            ensures_serverGetLen_bind hc]
          refine ⟨hrefused arr harr hlen, ?_, fun bs _ => ⟨fun _ junk => ?_, fun _ => ?_⟩⟩
          · exact hloop arr harr hlen _ [.read 8 none] ⟨by simp, by simp⟩
          · exact hloop arr harr hlen _ [.read 8 (some bs), .unspec junk] ⟨by simp, by simp⟩
          · exact hloop arr harr hlen _ [.read 8 (some bs)] ⟨by simp, by simp⟩

/-! ## The dispatch -/

/-- The operation codes `serve` knows. -/
def knownOps : List (BitVec 8) :=
  [sapiOpenFile, sapiCloseFile, sapiReadFile, sapiReadNFiles, sapiWriteFile, sapiAppendFile,
    sapiLockFile, sapiUnlockFile, sapiRemoveFile]

/-- One case for each operation. -/
theorem Ensures.serve_cases {qsort : Qsort Nat} {request : SMessage}
    {Q : List (Event Mutex) → Out Int → World FileStorage Mutex → Prop}
    (hopen : opOf request = sapiOpenFile → (serverOpenFile request client).Ensures w Q)
    (hclose : opOf request = sapiCloseFile → (serverCloseFile request client).Ensures w Q)
    (hread : opOf request = sapiReadFile → (serverReadFile request client).Ensures w Q)
    (hreadN : opOf request = sapiReadNFiles → (serverReadNFiles request client).Ensures w Q)
    (hwrite : opOf request = sapiWriteFile →
      (serverWriteFile qsort request client).Ensures w Q)
    (happend : opOf request = sapiAppendFile →
      (serverAppendToFile qsort request client).Ensures w Q)
    (hlock : opOf request = sapiLockFile ∨ opOf request = sapiUnlockFile →
      Q [] (.ret (if request = 0 ∨ client = 0 then -1 else 0)) w)
    (hremove : opOf request = sapiRemoveFile → (serverRemoveFile request client).Ensures w Q)
    (hother : opOf request ∉ knownOps → if client = 0 then Q [] (.ret 1) w else
      ∀ ok, Q [.write (.word sapiFailure) ok] (.ret (if ok then -1 else 1)) w) :
    (serve qsort request client).Ensures w Q := by
  rw [serve]
  by_cases h₁ : opOf request = sapiOpenFile
  · rw [if_pos h₁]
    exact hopen h₁
  rw [if_neg h₁]
  by_cases h₂ : opOf request = sapiCloseFile
  · rw [if_pos h₂]
    exact hclose h₂
  rw [if_neg h₂]
  by_cases h₃ : opOf request = sapiReadFile
  · rw [if_pos h₃]
    exact hread h₃
  rw [if_neg h₃]
  by_cases h₄ : opOf request = sapiReadNFiles
  · rw [if_pos h₄]
    exact hreadN h₄
  rw [if_neg h₄]
  by_cases h₅ : opOf request = sapiWriteFile
  · rw [if_pos h₅]
    exact hwrite h₅
  rw [if_neg h₅]
  by_cases h₆ : opOf request = sapiAppendFile
  · rw [if_pos h₆]
    exact happend h₆
  rw [if_neg h₆]
  by_cases h₇ : opOf request = sapiLockFile
  · have hlock := hlock (.inl h₇)
    rw [if_pos h₇, serverLockFile]
    split at hlock
    · next hmc => rwa [if_pos hmc, ensures_ret]
    · next hmc => rwa [if_neg hmc, ensures_ret]
  rw [if_neg h₇]
  by_cases h₈ : opOf request = sapiUnlockFile
  · have hlock := hlock (.inr h₈)
    rw [if_pos h₈, serverUnlockFile]
    split at hlock
    · next hmc => rwa [if_pos hmc, ensures_ret]
    · next hmc => rwa [if_neg hmc, ensures_ret]
  rw [if_neg h₈]
  by_cases h₉ : opOf request = sapiRemoveFile
  · rw [if_pos h₉]
    exact hremove h₉
  rw [if_neg h₉]
  have hother := hother (by
    simp only [knownOps, List.mem_cons, List.not_mem_nil, or_false, not_or]
    exact ⟨h₁, h₂, h₃, h₄, h₅, h₆, h₇, h₈, h₉⟩)
  by_cases hc : client = 0
  · simpa [serverRespond, hc] using hother
  · rw [ensures_serverRespond_bind hc]
    simpa [hc] using hother

/-! ## Opening -/

/-- A record once `client` has opened it with the flags of `message`. -/
def FileData.openedBy (f : FileData) (message : SMessage) (client : Int) : FileData :=
  { f with
    client := client
    dataInfo :=
      if hasFlag message oLock then f.dataInfo &&& oLock.zeroExtend 32 else f.dataInfo }

theorem ensures_takeOwnership {a : Nat} {k : ServerM Int}
    {Q : List (Event Mutex) → Out Int → World FileStorage Mutex → Prop} :
    (takeOwnership message client a k).Ensures w Q ↔
      k.Ensures { w with st := w.st.modifyFile a (·.openedBy message client) } Q := by
  rw [takeOwnership, ensures_assign]
  split
  · next h =>
      rw [ensures_assign]
      dsimp only
      rw [FileStorage.modifyFile_modifyFile]
      simp only [Function.comp_def, FileData.openedBy, h, if_true]
  · next h => simp only [FileData.openedBy, h, Bool.false_eq_true, if_false]

/-- An empty record fits as soon as there is room for a file. -/
theorem fuAddFile_place {s : FileStorage} {f : FileData} (hd : f.data = [])
    (hf : s.fuStorageFilesAvailable ≠ 0) (path : List UInt8) :
    ((s.place f).2.fuAddFile s.next path).1 = 0 := by
  have havail : (s.place f).2.fuStorageFilesAvailable ≠ 0 := hf
  have hlen : ¬ ((s.place f).2.file s.next).dataLen >
      (s.place f).2.fuStorageBytesAvailable := by
    rw [FileStorage.place_file, FileData.dataLen, hd]
    exact Nat.not_lt_zero _
  rw [FileStorage.fuAddFile, if_neg havail, if_neg hlen]

/-- The new record is stored unless one of the two limits is reached; either
way the storage's mutex is given back and one answer is sent. -/
theorem ensures_serverCreateFile (hc : client ≠ 0) {path : List UInt8}
    {Q : List (Event Mutex) → Out Int → World FileStorage Mutex → Prop} :
    (serverCreateFile message client path).Ensures w Q ↔
      let f := FileData.openedBy ⟨[], -1, 0, []⟩ message client
      let s := (w.st.place f).2
      (Mutex.storage ∈ w.held → Q [] .blocked { w with st := s }) ∧
      (Mutex.storage ∉ w.held →
        (w.st.fuStorageBytesAvailable = 0 ∨ w.st.fuStorageFilesAvailable = 0 →
          ∀ ok, Q [.write (.word sapiFailure) ok] (.ret (-1))
            { w with st := s.fuFreeFileData w.st.next }) ∧
        (¬ (w.st.fuStorageBytesAvailable = 0 ∨ w.st.fuStorageFilesAvailable = 0) →
          ∀ ok, Q [.write (.word sapiSuccess) ok] (.ret (if ok then 0 else -1))
            { w with st := (s.fuAddFile w.st.next path).2 })) := by
  have hnew : (w.st.fuAllocFileData []).1 = w.st.next := rfl
  have hs : (w.st.fuAllocFileData []).2 = (w.st.place ⟨[], -1, 0, []⟩).2 := rfl
  rw [serverCreateFile, ensures_get]
  dsimp only
  rw [hnew, hs, ensures_set, ensures_takeOwnership, ensures_lock]
  dsimp only
  rw [FileStorage.place_modifyFile]
  set f := FileData.openedBy ⟨[], -1, 0, []⟩ message client
  refine and_congr Iff.rfl (forall_congr' fun hm => ?_)
  have herase : (insert Mutex.storage w.held).erase Mutex.storage = w.held :=
    Finset.erase_insert hm
  have hroom : (w.st.place f).2.fuStorageBytesAvailable = w.st.fuStorageBytesAvailable ∧
      (w.st.place f).2.fuStorageFilesAvailable = w.st.fuStorageFilesAvailable := ⟨rfl, rfl⟩
  rw [ensures_get]
  dsimp only
  rw [hroom.1, hroom.2]
  split
  · next hfull =>
      simp only [hfull, true_implies, not_true_eq_false, false_implies, and_true,
        ensures_unlock, ensures_get, ensures_set, ensures_sapiRespond hc, ensures_ret,
        Bool.forall_bool, herase]
  · next hfull =>
      have herr := fuAddFile_place (s := w.st) (f := f) rfl (fun h => hfull (.inr h)) path
      simp only [hfull, false_implies, true_and, not_false_eq_true, true_implies,
        ensures_set, herr, ne_eq, not_true_eq_false, if_false, ensures_unlock,
        ensures_sapiRespond hc, ensures_ret, Bool.forall_bool, herase, Bool.false_eq_true,
        if_true]

end LsoStore
