import LsoStore.Proofs.WellFormed

/-!
# Which mutexes a handler leaves held

Every handler gives back what it took, on every path but four. A write or an
append to a file the client does not own leaves the storage's mutex held. A
write or an append whose length word arrives short leaves both the storage's
and the file's. A read whose first answer is refused leaves the file's, and an
eviction whose notice for a file is refused leaves that file's.

`Leaks` is the disjunction of the four, in terms of the request, the storage
it met and what its calls returned. `lock_balance` says that a handler which
returned kept the set of held mutexes exactly when none of them happened. The
storage is arbitrary here, and so is the set of mutexes held at the start.
-/

namespace LsoStore

open Proc FileStorage

/-- The storage's mutex, and those of the files in the table. -/
def Tracked (s : FileStorage) (m : Mutex) : Prop := m = .storage ∨ ∃ a ∈ s.ptrs, m = .file a

/-- The tracked mutexes are held exactly as they were. -/
def Balanced (w w' : World FileStorage Mutex) : Prop :=
  ∀ m, Tracked w'.st m → (m ∈ w'.held ↔ m ∈ w.held)

/-- The path that was read finds a file somebody else owns. -/
def ForeignFile (s : FileStorage) (client : Int) (tr : List (Event Mutex)) : Prop :=
  ∃ n buf rest a, tr = .read n (some buf) :: rest ∧
    s.table.huGet (cString buf) = some a ∧ (s.file a).client ≠ client

/-- The word after the path came short of its eight bytes. -/
def ShortLength (tr : List (Event Mutex)) : Prop :=
  ∃ e bs rest, tr = e :: .read 8 (some bs) :: rest ∧ bs.length < 8

/-- An eviction was announced, and the notice of one of its files refused. -/
def NoticeRefused (tr : List (Event Mutex)) : Prop :=
  .write (.word sapiEvictMsg) true ∈ tr ∧ .write (.word sapiEvictMsg) false ∈ tr

/-- The four ways a handler returns with a mutex it did not enter with. -/
def Leaks (s : FileStorage) (request : SMessage) (client : Int)
    (tr : List (Event Mutex)) : Prop :=
  ((opOf request = sapiWriteFile ∨ opOf request = sapiAppendFile) ∧
    (ForeignFile s client tr ∨ ShortLength tr ∨ NoticeRefused tr)) ∨
  (opOf request = sapiReadFile ∧ .write (.word sapiSuccess) false ∈ tr)

/-- A tracked mutex was picked up for good. -/
def Leaked (held : Finset Mutex) (w' : World FileStorage Mutex) : Prop :=
  ∃ m, Tracked w'.st m ∧ m ∉ held ∧ m ∈ w'.held

/-- What a piece of a handler leaves held, against the set it is to end
with. -/
def Settles (leaks : Prop) (held : Finset Mutex) (w' : World FileStorage Mutex) : Prop :=
  (leaks ∧ Leaked held w') ∨ (¬ leaks ∧ w'.held = held)

theorem settles_congr {leaks leaks' : Prop} {held : Finset Mutex}
    {w' : World FileStorage Mutex} (h : leaks ↔ leaks') :
    Settles leaks held w' ↔ Settles leaks' held w' := by
  rw [Settles, Settles, h]

section Pieces

variable {w : World FileStorage Mutex} {client : Int} {message : SMessage}
  {H : Finset Mutex}

theorem sapiRespond_held (hc : client ≠ 0) (m : SMessage) (r : Int) (hH : w.held = H) :
    (sapiRespond m client (.ret r)).Ensures w (Returns fun w' => w'.held = H) := by
  rw [ensures_sapiRespond hc]
  simp [hH]

theorem sendBlock_held (bs : List UInt8) :
    (sendBlock bs).Ensures w (Returns fun w' => w'.held = w.held) := by
  simp [sendBlock]

theorem serverSendData_held (data : List UInt8) :
    (serverSendData client data).Ensures w (Returns fun w' => w'.held = w.held) := by
  rw [serverSendData]
  split
  · simp
  · exact sendBlock_held data

/-! ## The handlers that keep the balance -/

theorem readNFilesLoop_held (hc : client ≠ 0) (items : List (List UInt8 × Nat))
    (nFiles : Nat) (hH : w.held.erase .storage = H) :
    (readNFilesLoop client items nFiles).Ensures w (Returns fun w' => w'.held = H) := by
  have hend : ∀ w : World FileStorage Mutex, w.held.erase .storage = H →
      (readNFilesEnd).Ensures w (Returns fun w' => w'.held = H) := by
    intro w hw
    simp only [readNFilesEnd, ensures_unlock, ensures_write, ensures_ret]
    exact fun _ => hw
  induction items generalizing nFiles w with
  | nil => exact hend w hH
  | cons hi items ih =>
      obtain ⟨fileName, file⟩ := hi
      rw [readNFilesLoop]
      split
      · exact hend w hH
      · rw [ensures_deref]
        refine ⟨fun _ => trivial, fun _ _ => ensures_trylock.mpr ⟨ih nFiles hH, fun hm => ?_⟩⟩
        have hback : ∀ w' : World FileStorage Mutex, w'.held = insert (.file file) w.held →
            w'.held.erase (.file file) = w.held := by
          intro w' hw'
          rw [hw', Finset.erase_insert hm]
        have hfail : ∀ w' : World FileStorage Mutex, w'.held = insert (.file file) w.held →
            (Proc.unlock (.file file) <|
              .unlock .storage <|
              sapiRespond sapiFailure client (.ret (-1))).Ensures w'
              (Returns fun w' => w'.held = H) := by
          intro w' hw'
          rw [ensures_unlock, ensures_unlock]
          exact sapiRespond_held hc _ _ (by rw [hback w' hw', hH])
        rw [ensures_deref]
        refine ⟨fun _ => trivial, fun f _ => ?_⟩
        split
        · rw [ensures_assign, serverSendPath, if_neg hc]
          refine (sendBlock_held _).bind_returns fun r w' hw' => ?_
          split
          · exact hfail w' hw'
          · refine (serverSendData_held _).bind_returns fun r w'' hw'' => ?_
            rw [hw'] at hw''
            split
            · exact hfail w'' hw''
            · rw [ensures_unlock]
              exact ih _ (by rw [hback w'' hw'', hH])
        · rw [ensures_unlock]
          exact ih nFiles (by simpa only [Finset.erase_insert hm] using hH)

theorem serverReadNFiles_held (message : SMessage) (client : Int) :
    (serverReadNFiles message client).Ensures w (Returns fun w' => w'.held = w.held) := by
  rw [serverReadNFiles]
  split
  · simp
  · next hmc =>
      refine ensures_lock.mpr ⟨fun _ => trivial, fun hs => ?_⟩
      rw [ensures_get]
      exact readNFilesLoop_held (not_or.mp hmc).2 _ _ (Finset.erase_insert hs)

theorem serverOpenFile_held (message : SMessage) (client : Int) :
    (serverOpenFile message client).Ensures w (Returns fun w' => w'.held = w.held) := by
  refine Ensures.withPath rfl rfl trivial (fun _ => rfl) fun hc buf => ?_
  rw [ensures_getfile]
  cases w.st.table.huGet (cString buf) with
  | none =>
      dsimp only
      split
      · exact sapiRespond_held hc _ _ rfl
      · rw [ensures_serverCreateFile hc]
        exact ⟨fun _ => trivial, fun _ => ⟨fun _ _ => rfl, fun _ _ => rfl⟩⟩
  | some file =>
      refine Ensures.lockFile (fun _ => trivial) (fun _ => trivial) fun hf f _ => ?_
      split
      · rw [ensures_unlock]
        exact sapiRespond_held hc _ _ (Finset.erase_insert hf)
      · rw [ensures_takeOwnership, ensures_unlock]
        exact sapiRespond_held hc _ _ (Finset.erase_insert hf)

theorem serverCloseFile_held (message : SMessage) (client : Int) :
    (serverCloseFile message client).Ensures w (Returns fun w' => w'.held = w.held) := by
  refine Ensures.withPath rfl rfl trivial (fun _ => rfl) fun hc buf => ?_
  rw [ensures_getfile]
  cases w.st.table.huGet (cString buf) with
  | none => exact sapiRespond_held hc _ _ rfl
  | some file =>
      refine Ensures.lockFile (fun _ => trivial) (fun _ => trivial) fun hf f _ => ?_
      split
      · rw [ensures_unlock]
        exact sapiRespond_held hc _ _ (Finset.erase_insert hf)
      · rw [ensures_assign, ensures_unlock]
        exact sapiRespond_held hc _ _ (Finset.erase_insert hf)

theorem serverRemoveFile_held (message : SMessage) (client : Int) :
    (serverRemoveFile message client).Ensures w (Returns fun w' => w'.held = w.held) := by
  refine Ensures.withPath rfl rfl trivial (fun _ => rfl) fun hc buf => ?_
  refine ensures_lock.mpr ⟨fun _ => trivial, fun hs => ?_⟩
  rw [ensures_getfile]
  dsimp only
  cases w.st.table.huGet (cString buf) with
  | none =>
      rw [ensures_unlock]
      exact sapiRespond_held hc _ _ (Finset.erase_insert hs)
  | some file =>
      refine Ensures.lockFile (fun _ => trivial) (fun _ => trivial) fun hf f _ => ?_
      split
      · rw [ensures_unlock, ensures_unlock]
        exact sapiRespond_held hc _ _
          (by simp only [Finset.erase_insert hf, Finset.erase_insert hs])
      · rw [ensures_unlock, ensures_unspec]
        intro freed
        rw [ensures_removefile, ensures_unlock]
        exact sapiRespond_held hc _ _
          (by simp only [Finset.erase_insert hf, Finset.erase_insert hs])

/-! ## Reading one file -/

theorem huGet_tracked {s : FileStorage} {path : List UInt8} {a : Nat}
    (h : s.table.huGet path = some a) : Tracked s (.file a) := by
  obtain ⟨k, hm, -⟩ := HashTable.huGet_mem h
  exact .inr ⟨a, List.mem_map.mpr ⟨(k, a), hm, rfl⟩, rfl⟩

/-- The file's mutex stays held exactly when the answer that would bring the
data is refused. -/
theorem serverReadFile_settles (message : SMessage) (client : Int) :
    (serverReadFile message client).Ensures w
      fun tr => Returns (Settles (.write (.word sapiSuccess) false ∈ tr) w.held) tr := by
  refine Ensures.withPath rfl (by simp [Settles]) trivial
    (fun ok => by simp [Settles, sapiFailure, sapiSuccess]) fun hc buf => ?_
  rw [ensures_getfile]
  cases hg : w.st.table.huGet (cString buf) with
  | none => simp [ensures_sapiRespond hc, Settles, sapiFnf, sapiSuccess]
  | some file =>
      refine Ensures.lockFile (fun _ => trivial) (fun _ => trivial) fun hf f _ => ?_
      have herase := Finset.erase_insert hf
      dsimp only at herase
      split
      · simp [ensures_sapiRespond hc, Settles, sapiLocked, sapiSuccess, herase]
      · rw [ensures_sapiRespond hc]
        constructor
        · refine .inl ⟨by simp, .file file, ?_, hf, Finset.mem_insert_self _ _⟩
          have ht := huGet_tracked hg
          rwa [Tracked, ← fuGetfile_ptrs w.st (cString buf)] at ht
        · rw [serverSendData]
          split <;> simp [sendBlock, Settles, herase]

/-! ## Eviction

A record that is alive was in the table when the loop began and still is: the
loop removes items, and frees the record of each item it removes. -/

/-- Every record that may still be looked at is in the table. -/
def SlotsStored (s : FileStorage) (slots : List (Option Nat)) : Prop :=
  ∀ a, some a ∈ slots → s.heap a ≠ none → a ∈ s.ptrs

theorem fuRemoveFile_stored {s : FileStorage} {a : Nat} (path : List UInt8)
    (ha : s.heap a ≠ none → a ∈ s.ptrs) (hl : (s.fuRemoveFile path).2.heap a ≠ none) :
    a ∈ (s.fuRemoveFile path).2.ptrs := by
  cases hget : s.table.huGet path with
  | none =>
      have hsame : (s.fuRemoveFile path).2 = s := by simp [fuRemoveFile, hget]
      rw [hsame] at hl ⊢
      exact ha hl
  | some b =>
      obtain ⟨k, t, hrem⟩ := HashTable.huGet_eq_some_iff.mp hget
      have hptrs : s.ptrs.Perm (b :: t.items.map Prod.snd) :=
        (HashTable.huRemove_items hrem).map Prod.snd
      simp only [fuRemoveFile, fuGetfile, hget, modifyFile_table, hrem] at hl ⊢
      simp only [fuFreeFileData] at hl
      split at hl
      · exact absurd rfl hl
      · next hne =>
          have hlive : s.heap a ≠ none := by
            rwa [modifyFile_heap_of_ne _ _ _ hne] at hl
          rcases List.mem_cons.mp (hptrs.mem_iff.mp (ha hlive)) with h | h
          · exact absurd h hne
          · exact h

/-- How one file's eviction ends: given up with its mutex back, or left as it
was with its mutex held, after a notice that was refused. -/
def EvictFileOut (w : World FileStorage Mutex) (H : Finset Mutex) (a : Nat) (f : FileData)
    (tr : List (Event Mutex)) (o : Out Bool) (w' : World FileStorage Mutex) : Prop :=
  match o with
  | .ret true => w'.held = H ∧ .write (.word sapiEvictMsg) false ∉ tr ∧
      w'.st = ((w.st.modifyFile a fun f => { f with client := -2 }).fuRemoveFile f.path).2
  | .ret false => w'.held = insert (.file a) H ∧ w'.st = w.st ∧
      .write (.word sapiEvictMsg) false ∈ tr
  | _ => True

theorem evictFile_held (hc : client ≠ 0) {a : Nat} (f : FileData) (hm : .file a ∉ H)
    (hw : w.held = insert (.file a) H) (sendFilesBack : Bool) :
    (evictFile client sendFilesBack a f).Ensures w (EvictFileOut w H a f) := by
  have herase : w.held.erase (.file a) = H := by rw [hw, Finset.erase_insert hm]
  rw [evictFile]
  split
  · rw [ensures_serverRespond_bind hc]
    refine ⟨by simp [EvictFileOut, hw], ?_⟩
    refine Ensures.serverSendPath_bind fun tr _ htr => ?_
    refine Ensures.serverSendData_bind fun tr' _ htr' => ?_
    simp [EvictFileOut, herase, htr.word sapiEvictMsg, htr'.word sapiEvictMsg]
  · simp [EvictFileOut, herase]

/-- How the loop ends: all mutexes back and no notice refused, or one stored
file's mutex held after its notice was. -/
def EvictLoopOut (H : Finset Mutex) (tr : List (Event Mutex)) (o : Out (Option Nat))
    (w' : World FileStorage Mutex) : Prop :=
  match o with
  | .ret (some _) => w'.held = H ∧ .write (.word sapiEvictMsg) false ∉ tr
  | .ret none => (∃ a ∈ w'.st.ptrs, .file a ∉ H ∧ w'.held = insert (.file a) H) ∧
      .write (.word sapiEvictMsg) false ∈ tr
  | _ => True

theorem EvictLoopOut.append (tr : List (Event Mutex)) {tr' : List (Event Mutex)}
    {o : Out (Option Nat)} {w' : World FileStorage Mutex}
    (htr : .write (.word sapiEvictMsg) false ∉ tr)
    (h : EvictLoopOut H tr' o w') : EvictLoopOut H (tr ++ tr') o w' := by
  rcases o with (_ | _) | _ | _ | _
  · exact ⟨h.1, List.mem_append_right _ h.2⟩
  · exact ⟨h.1, by simp [htr, h.2]⟩
  · trivial
  · trivial
  · trivial

theorem evictLoop_held (hc : client ≠ 0) (sendFilesBack : Bool) (slots : List (Option Nat))
    (bytesToFree : Nat) (hs : SlotsStored w.st slots) (hH : w.held = H) :
    (evictLoop client sendFilesBack slots bytesToFree).Ensures w (EvictLoopOut H) := by
  induction slots generalizing bytesToFree w with
  | nil => simp [evictLoop, EvictLoopOut, hH]
  | cons slot slots ih =>
      have hrest : SlotsStored w.st slots := fun b hb => hs b (List.mem_cons_of_mem _ hb)
      cases slot with
      | none =>
          rw [evictLoop]
          split <;> simp [EvictLoopOut, hH]
      | some a =>
          rw [evictLoop]
          split
          · simp [EvictLoopOut, hH]
          · rw [ensures_deref]
            refine ⟨fun _ => trivial, fun f₀ hf₀ => ensures_trylock.mpr ⟨?_, fun hm => ?_⟩⟩
            · exact (ih bytesToFree hrest hH).mono fun tr o w' h =>
                h.append [.trylock (.file a) false] (by simp)
            · have herase : (insert (Mutex.file a) w.held).erase (.file a) = H := by
                rw [Finset.erase_insert hm, hH]
              rw [ensures_deref]
              refine ⟨fun _ => trivial, fun f _ => ?_⟩
              split
              · rw [ensures_unlock]
                exact (ih (w := ⟨w.st, (insert (.file a) w.held).erase (.file a)⟩)
                  bytesToFree hrest herase).mono fun tr o w' h =>
                  h.append [.trylock (.file a) true] (by simp)
              · refine ensures_bind.mpr ((evictFile_held (H := H) hc f (hH ▸ hm)
                  (by rw [hH]) sendFilesBack).mono fun tr o w' h => ?_)
                rcases o with (_ | _) | _ | _ | _
                · obtain ⟨hheld, hst, htr⟩ := h
                  simp only [After, Bool.false_eq_true, if_false, ensures_ret]
                  refine ⟨⟨a, ?_, hH ▸ hm, hheld⟩, by simp [htr]⟩
                  rw [hst]
                  exact hs a (List.mem_cons_self ..) (by simp [hf₀])
                · obtain ⟨hheld, htr, hst⟩ := h
                  simp only [After, if_true]
                  have hnext : SlotsStored w'.st slots := by
                    intro b hb hl
                    rw [hst] at hl ⊢
                    refine fuRemoveFile_stored _ (fun hlive => ?_) hl
                    exact hrest b hb (by simpa using hlive)
                  exact (ih _ hnext hheld).mono fun tr' o w'' h =>
                    h.append (.trylock (.file a) true :: tr) (by simp [htr])
                · trivial
                · trivial
                · trivial

/-- What the array holds was in the table. -/
theorem fuEvictFiles_stored {qsort : Qsort Nat} {s : FileStorage} {n : Nat} {arr : UArr Nat}
    (h : s.fuEvictFiles qsort n = some arr) : SlotsStored s arr.slots := by
  intro a ha _
  rw [fuEvictFiles] at h
  obtain ⟨arr₀, hinit, rfl⟩ := Option.map_eq_some_iff.mp h
  have hempty : arr₀.elems = [] := by
    rw [UArr.auInitArr] at hinit
    split at hinit
    · injection hinit with hinit
      rw [← hinit, UArr.zero]
    · split at hinit
      · cases hinit
      · injection hinit with hinit
        rw [← hinit]
  have hmem := UArr.mem_slots ha
  dsimp only at hmem
  split at hmem
  · cases hmem
  · rcases UArr.mem_insertAll ((qsort.perm _ _).mem_iff.mp hmem) with h | h
    · rw [hempty] at h
      cases h
    · exact h

/-- What `server_evict` leaves held: everything as it was, or one stored
file's mutex on top when that file's notice was refused. -/
def EvictOut (H : Finset Mutex) (tr : List (Event Mutex)) (o : Out Int)
    (w' : World FileStorage Mutex) : Prop :=
  ∀ r, o = .ret r →
    (NoticeRefused tr ∧ r ≠ 0 ∧
      ∃ a ∈ w'.st.ptrs, .file a ∉ H ∧ w'.held = insert (.file a) H) ∨
    (¬ NoticeRefused tr ∧ w'.held = H)

theorem serverEvict_held (qsort : Qsort Nat) (hc : client ≠ 0) (bytesToFree : Nat) :
    (serverEvict qsort client bytesToFree).Ensures w (EvictOut w.held) := by
  have hsuccess : sapiEvictMsg ≠ sapiSuccess := by decide
  have hfailure : sapiEvictMsg ≠ sapiFailure := by decide
  refine Ensures.serverEvict hc (fun _ => by simp [EvictOut])
    (fun _ _ _ => by simp [EvictOut, NoticeRefused])
    (fun _ _ _ => by simp [EvictOut, NoticeRefused]) fun arr harr _ flag pre hpre => ?_
  -- whatever the flag word was, the loop and the last answer decide
  refine ensures_bind.mpr ((evictLoop_held hc flag arr.slots bytesToFree
    (fuEvictFiles_stored harr) rfl).mono fun tr o w' h => ?_)
  have hpre' := hpre.word sapiEvictMsg false
  rcases o with (_ | rest) | _ | _ | _
  · obtain ⟨hleak, htr⟩ := h
    simp only [After, evictAnswer, ensures_ret]
    intro r hr
    injection hr with hr
    exact .inl ⟨by simp [NoticeRefused, htr], by omega, hleak⟩
  · obtain ⟨hheld, htr⟩ := h
    simp only [After, evictAnswer]
    split <;> simp [ensures_sapiRespond hc, EvictOut, NoticeRefused, hheld, htr, hpre',
      hsuccess, hfailure]
  · simp [After, EvictOut]
  · simp [After, EvictOut]
  · simp [After, EvictOut]

/-! ## Writing -/

theorem receiveData_held (hc : client ≠ 0) (file dataLen : Nat) (offset : FileData → Nat) :
    (receiveData client file dataLen offset).Ensures w fun tr o w' =>
      (∀ ok, .write (.word sapiEvictMsg) ok ∉ tr) ∧
      Returns (fun w' => w'.held = w.held.erase (.file file)) tr o w' := by
  have hsuccess : sapiEvictMsg ≠ sapiSuccess := by decide
  have hfailure : sapiEvictMsg ≠ sapiFailure := by decide
  rw [receiveData, ensures_muCalloc]
  refine ⟨by simp, fun _ => ?_⟩
  rw [ensures_read]
  intro r _
  cases r with
  | none => simp [ensures_serverRespond_bind hc, hfailure]
  | some bs =>
      dsimp only
      rw [ensures_deref]
      refine ⟨by simp, fun f _ => ?_⟩
      rw [ensures_get]
      split
      · simp
      · split
        · simp [ensures_serverRespond_bind hc, hfailure]
        · simp [ensures_serverRespond_bind hc, hsuccess]

theorem not_noticeRefused_of_forall {tr : List (Event Mutex)}
    (h : ∀ ok, .write (.word sapiEvictMsg) ok ∉ tr) : ¬ NoticeRefused tr :=
  fun hn => h true hn.1

/-- From inside the two mutexes a writing handler holds. -/
theorem serverMakeRoom_settles (qsort : Qsort Nat) (offset : FileData → Nat)
    (hc : client ≠ 0) (file dataLen : Nat) (hs : .storage ∉ H)
    (hf : .file file ∉ insert Mutex.storage H)
    (hw : w.held = insert (.file file) (insert .storage H)) :
    (serverMakeRoom qsort offset client file dataLen).Ensures w
      fun tr => Returns (Settles (NoticeRefused tr) H) tr := by
  have hback : (w.held.erase (.file file)).erase .storage = H := by
    rw [hw, Finset.erase_insert hf, Finset.erase_insert hs]
  have hsub : ∀ m, m ∉ w.held → m ∉ H := fun m hm hH =>
    hm (by simp [hw, hH])
  have hsuccess : sapiEvictMsg ≠ sapiSuccess := by decide
  have hfailure : sapiEvictMsg ≠ sapiFailure := by decide
  rw [serverMakeRoom, ensures_get]
  split
  · refine ensures_bind.mpr ((serverEvict_held qsort hc _).mono fun tr o w' h => ?_)
    cases o with
    | exit => trivial
    | fault => trivial
    | blocked => trivial
    | ret r =>
        simp only [After]
        rcases h r rfl with ⟨hnotice, hr, a, ha, hm, hheld⟩ | ⟨hnotice, hheld⟩
        · have hne : Mutex.file a ≠ .file file := fun e => hm (by simp [hw, e])
          have hleak : Leaked H ⟨w'.st, (w'.held.erase (.file file)).erase .storage⟩ :=
            ⟨.file a, .inr ⟨a, ha, rfl⟩, hsub _ hm, by simp [hheld, hne]⟩
          rw [if_pos hr, ensures_unlock, ensures_unlock, ensures_sapiRespond hc]
          have hboth : ∀ tr', NoticeRefused (tr ++ tr') := fun tr' =>
            ⟨List.mem_append_left _ hnotice.1, List.mem_append_left _ hnotice.2⟩
          rw [ensures_ret]
          exact ⟨.inl ⟨hboth _, hleak⟩, .inl ⟨hboth _, hleak⟩⟩
        · have hnone : ∀ tr', (∀ ok, .write (.word sapiEvictMsg) ok ∉ tr') →
              ¬ NoticeRefused (tr ++ tr') := by
            intro tr' htr h
            obtain ⟨h₁, h₂⟩ := h
            exact hnotice ⟨(List.mem_append.mp h₁).resolve_right (htr true),
              (List.mem_append.mp h₂).resolve_right (htr false)⟩
          split
          · rw [ensures_unlock, ensures_unlock, ensures_sapiRespond hc]
            refine ⟨.inr ⟨hnone _ (by simp [hfailure]), by rw [hheld, hback]⟩, ?_⟩
            rw [ensures_ret]
            exact .inr ⟨hnone _ (by simp [hfailure]), by rw [hheld, hback]⟩
          · rw [ensures_unlock]
            refine (receiveData_held hc file dataLen offset).mono fun tr' o w'' h =>
              h.2.imp fun hh => .inr ⟨hnone _ h.1, ?_⟩
            rw [hh, hheld, Finset.erase_right_comm, hback]
  · rw [ensures_serverRespond_bind hc]
    constructor
    · simp [Settles, NoticeRefused, hback]
    · simp only [ne_eq, not_true_eq_false, if_false]
      rw [ensures_unlock]
      refine (receiveData_held hc file dataLen offset).mono fun tr' o w'' h =>
        h.2.imp fun hh => .inr ⟨not_noticeRefused_of_forall fun ok => ?_, ?_⟩
      · simp [hsuccess, h.1 ok]
      · rw [hh, Finset.erase_right_comm, hback]

/-- The three leaks of the writing handlers. -/
theorem serverWriteAt_settles (qsort : Qsort Nat) (offset : FileData → Nat)
    (message : SMessage) (client : Int) :
    (serverWriteAt qsort offset message client).Ensures w fun tr =>
      Returns (Settles (ForeignFile w.st client tr ∨ ShortLength tr ∨ NoticeRefused tr)
        w.held) tr := by
  have hfailure : sapiEvictMsg ≠ sapiFailure := by decide
  have hfnf : sapiEvictMsg ≠ sapiFnf := by decide
  refine Ensures.withPath rfl (by simp [Settles, ForeignFile, ShortLength, NoticeRefused]) trivial
    (fun ok => by simp [Settles, ForeignFile, ShortLength, NoticeRefused, hfailure])
    fun hc buf => ?_
  refine ensures_lock.mpr ⟨fun _ => trivial, fun hs => ?_⟩
  rw [ensures_getfile]
  dsimp only
  cases hg : w.st.table.huGet (cString buf) with
  | none =>
      simp [ensures_sapiRespond hc, Settles, ForeignFile, ShortLength, NoticeRefused,
        hg, hs, hfnf]
  | some file =>
      refine Ensures.lockFile (fun _ => trivial) (fun _ => trivial) fun hf f hfile => ?_
      dsimp only at hf hfile
      have howner := (fuGetfile_client _ hfile).symm
      split
      · next hforeign =>
          rw [howner] at hforeign
          have hF : ∀ rest, ForeignFile w.st client
              (.read (lenOf message) (some buf) :: rest) :=
            fun rest => ⟨_, buf, rest, file, rfl, hg, hforeign⟩
          have hleak : ∀ st, Leaked w.held
              ⟨st, (insert (.file file) (insert .storage w.held)).erase (.file file)⟩ :=
            fun st => ⟨.storage, .inl rfl, hs, by simp⟩
          rw [ensures_unlock, ensures_sapiRespond hc, ensures_ret]
          exact ⟨.inl ⟨.inl (hF _), hleak _⟩, .inl ⟨.inl (hF _), hleak _⟩⟩
      · next hown =>
          rw [howner] at hown
          have hF : ∀ rest, ¬ ForeignFile w.st client
              (.read (lenOf message) (some buf) :: rest) := by
            intro rest h
            obtain ⟨n, buf', rest', a, htr, ha, hne⟩ := h
            injection htr with h₁ _
            injection h₁ with _ h₁
            injection h₁ with h₁
            rw [← h₁, hg, Option.some.injEq] at ha
            exact hown (ha ▸ hne)
          have hroom := fun n => serverMakeRoom_settles (w := ⟨(w.st.fuGetfile
            (cString buf)).2, insert (.file file) (insert .storage w.held)⟩)
            qsort offset hc file n hs hf rfl
          have hlift : ∀ (pre : List (Event Mutex)) (n : Nat), Quiet pre →
              (∀ tr, ¬ ShortLength (.read (lenOf message) (some buf) :: (pre ++ tr))) →
              (serverMakeRoom qsort offset client file n).Ensures
                ⟨(w.st.fuGetfile (cString buf)).2,
                  insert (.file file) (insert .storage w.held)⟩ fun tr =>
                Returns (Settles
                  (ForeignFile w.st client
                      (.read (lenOf message) (some buf) :: (pre ++ tr)) ∨
                    ShortLength (.read (lenOf message) (some buf) :: (pre ++ tr)) ∨
                    NoticeRefused (.read (lenOf message) (some buf) :: (pre ++ tr)))
                  w.held) (.read (lenOf message) (some buf) :: (pre ++ tr)) := by
            intro pre n hpre hshort
            refine (hroom n).mono fun tr o w' h => ?_
            refine h.imp (settles_congr ?_).mp
            simp [NoticeRefused, hF, hshort, hpre.word sapiEvictMsg]
          rw [ensures_checkReadResponse hc]
          refine ⟨fun junk => ?_, fun bs _ => ⟨fun hlt ok => ?_, fun hlt => ?_⟩⟩
          · exact hlift [.read 8 none, .unspec junk] _ ⟨by simp, by simp⟩
              (by simp [ShortLength])
          · exact .inl ⟨.inr (.inl ⟨_, bs, _, rfl, hlt⟩), .storage, .inl rfl, hs,
              by simp⟩
          · refine hlift [.read 8 (some bs)] _ ⟨by simp, by simp⟩ ?_
            intro tr h
            obtain ⟨e, bs', rest, htr, hlt'⟩ := h
            injection htr with _ htr
            injection htr with htr _
            injection htr with _ htr
            injection htr with htr
            exact hlt (htr ▸ hlt')

end Pieces

/-! ## The law -/

/-- What `serve` leaves held. -/
theorem serve_settles (qsort : Qsort Nat) (request : SMessage) (client : Int)
    (w : World FileStorage Mutex) :
    (serve qsort request client).Ensures w fun tr =>
      Returns (Settles (Leaks w.st request client tr) w.held) tr := by
  -- no other operation can leak
  have hnot : ∀ {op : BitVec 8} (tr : List (Event Mutex)), opOf request = op →
      op ≠ sapiWriteFile → op ≠ sapiAppendFile → op ≠ sapiReadFile →
      ¬ Leaks w.st request client tr := by
    intro op tr heq h₁ h₂ h₃
    subst heq
    simp [Leaks, h₁, h₂, h₃]
  have hquiet : ∀ {op : BitVec 8} {p : ServerM Int}, opOf request = op →
      op ≠ sapiWriteFile → op ≠ sapiAppendFile → op ≠ sapiReadFile →
      p.Ensures w (Returns fun w' => w'.held = w.held) →
      p.Ensures w fun tr => Returns (Settles (Leaks w.st request client tr) w.held) tr :=
    fun h h₁ h₂ h₃ hp => hp.mono fun tr o w' h' => h'.imp fun hh =>
      .inr ⟨hnot tr h h₁ h₂ h₃, hh⟩
  have hwrite : ∀ offset, opOf request = sapiWriteFile ∨ opOf request = sapiAppendFile →
      opOf request ≠ sapiReadFile →
      (serverWriteAt qsort offset request client).Ensures w fun tr =>
        Returns (Settles (Leaks w.st request client tr) w.held) tr :=
    fun offset h₁ h₂ => (serverWriteAt_settles qsort offset request client).mono
      fun tr o w' h => h.imp (settles_congr (by simp [Leaks, h₁, h₂])).mp
  refine Ensures.serve_cases
    (fun h => hquiet h (by decide) (by decide) (by decide) (serverOpenFile_held _ _))
    (fun h => hquiet h (by decide) (by decide) (by decide) (serverCloseFile_held _ _))
    (fun h => ?_)
    (fun h => hquiet h (by decide) (by decide) (by decide) (serverReadNFiles_held _ _))
    (fun h => hwrite _ (.inl h) (by rw [h]; decide))
    (fun h => hwrite _ (.inr h) (by rw [h]; decide))
    (fun h => ?_)
    (fun h => hquiet h (by decide) (by decide) (by decide) (serverRemoveFile_held _ _))
    (fun h => ?_)
  · refine (serverReadFile_settles request client).mono fun tr o w' hs =>
      hs.imp (settles_congr ?_).mp
    have h₁ : sapiReadFile ≠ sapiWriteFile := by decide
    have h₂ : sapiReadFile ≠ sapiAppendFile := by decide
    simp [Leaks, h, h₁, h₂]
  · rcases h with h | h
    · exact .inr ⟨hnot _ h (by decide) (by decide) (by decide), rfl⟩
    · exact .inr ⟨hnot _ h (by decide) (by decide) (by decide), rfl⟩
  · have hsame : ∀ tr, Settles (Leaks w.st request client tr) w.held w := by
      intro tr
      refine .inr ⟨hnot tr rfl ?_ ?_ ?_, rfl⟩
      all_goals
        intro he
        rw [he] at h
        exact absurd h (by decide)
    split
    · exact hsame _
    · exact fun ok => hsame _

/-- Lock balance: a handler that returned left the storage's mutex and those
of all stored files as they were exactly when none of the four leaks
happened. -/
theorem lock_balance {qsort : Qsort Nat} {request : SMessage} {client r : Int}
    {w w' : World FileStorage Mutex} {tr : List (Event Mutex)}
    (hr : (serve qsort request client).Runs w tr (.ret r) w') :
    Balanced w w' ↔ ¬ Leaks w.st request client tr := by
  rcases serve_settles qsort request client w tr _ w' hr with
    ⟨hleaks, m, hm, hnot, hin⟩ | ⟨hleaks, hheld⟩
  · constructor
    · intro hb
      exact absurd ((hb m hm).mp hin) hnot
    · intro hn
      exact absurd hleaks hn
  · refine ⟨fun _ => hleaks, fun _ m _ => ?_⟩
    rw [hheld]

/-- Client 5 has created "a", and client 6 asks to write it. -/
theorem write_foreign : ∃ w w', Reachable Qsort.insertion 1 10 w ∧ w.held = ∅ ∧
    (serve Qsort.insertion (sapiMessageLen 0 sapiWriteFile 1) 6).Runs w
      [.read 1 (some [97]), .write (.word sapiLocked) true] (.ret 3) w' ∧
    w'.held = {.storage} := by
  have hrun : ServerRun Qsort.insertion 1 10 [] ⟨_, ∅⟩ :=
    .init _ (by decide) (by decide) rfl
  refine ⟨_, _, ⟨_, hrun.serve [] _ _ (sapiMessageLen oCreate sapiOpenFile 1) 5
    [.read 1 (some [97]), .write (.word sapiSuccess) true] 0 rfl⟩, rfl, rfl, rfl⟩

theorem lock_balance_write : ∃ w w' : World FileStorage Mutex,
    Balanced w w' ↔ ¬ Leaks w.st (sapiMessageLen 0 sapiWriteFile 1) 6
      [.read 1 (some [97]), .write (.word sapiLocked) true] := by
  obtain ⟨w, w', -, -, hr, -⟩ := write_foreign
  exact ⟨w, w', lock_balance hr⟩

/-- A refused write leaves the storage's mutex held. -/
theorem lock_balance_foreign : ∃ w w', Reachable Qsort.insertion 1 10 w ∧
    (serve Qsort.insertion (sapiMessageLen 0 sapiWriteFile 1) 6).Runs w
      [.read 1 (some [97]), .write (.word sapiLocked) true] (.ret 3) w' ∧
    ¬ Balanced w w' := by
  obtain ⟨w, w', hw, hheld, hr, hheld'⟩ := write_foreign
  refine ⟨w, w', hw, hr, fun hb => ?_⟩
  have h := hb .storage (.inl rfl)
  simp [hheld, hheld'] at h

end LsoStore
