import LsoStore.Lib.Stream
import LsoStore.Proofs.Eviction

/-!
# Requests that are cut off

The client's bytes end in the middle of a request, and every read from there
on returns 0. The handlers only look for -1, so a request word, a path or a
body that was cut is taken as it is. `cut_off_request` says for every cut of
every request that can change contents when the stored files are the same
afterwards.
-/

namespace LsoStore

open Proc FileStorage

namespace FileStorage

/-- The same files are stored, under the same paths, with the same owners and
the same data. -/
def SameContents (s s' : FileStorage) : Prop :=
  (∀ a, a ∈ s'.ptrs ↔ a ∈ s.ptrs) ∧
  ∀ a ∈ s.ptrs, (s'.file a).path = (s.file a).path ∧
    (s'.file a).client = (s.file a).client ∧ (s'.file a).data = (s.file a).data

variable {s s' s'' : FileStorage} {a : Nat} {path : List UInt8}

theorem SameContents.refl (s : FileStorage) : SameContents s s :=
  ⟨fun _ => Iff.rfl, fun _ _ => ⟨rfl, rfl, rfl⟩⟩

theorem SameContents.symm (h : SameContents s s') : SameContents s' s :=
  ⟨fun a => (h.1 a).symm, fun a ha =>
    have h' := h.2 a ((h.1 a).mp ha)
    ⟨h'.1.symm, h'.2.1.symm, h'.2.2.symm⟩⟩

theorem SameContents.trans (h₁ : SameContents s s') (h₂ : SameContents s' s'') :
    SameContents s s'' := by
  refine ⟨fun a => (h₂.1 a).trans (h₁.1 a), fun a ha => ?_⟩
  have h := h₁.2 a ha
  have h' := h₂.2 a ((h₁.1 a).mpr ha)
  exact ⟨h'.1.trans h.1, h'.2.1.trans h.2.1, h'.2.2.trans h.2.2⟩

theorem SameContents.congr_left (h : SameContents s s') :
    SameContents s' s'' ↔ SameContents s s'' :=
  ⟨h.trans, h.symm.trans⟩

/-- A use of a file is not a change of its contents. -/
theorem sameContents_fuGetfile (s : FileStorage) (path : List UInt8) :
    SameContents s (s.fuGetfile path).2 := by
  rw [fuGetfile_snd]
  cases s.table.huGet path with
  | none => exact SameContents.refl s
  | some b =>
      refine ⟨fun _ => Iff.rfl, fun a _ => ?_⟩
      dsimp only
      rw [file, modifyFile_heap]
      split
      · cases hf : s.heap a with
        | none => simp [file, hf]
        | some f => simp [file, hf]
      · simp [file]

/-- An assignment to a stored file that keeps its path is no change exactly
when it keeps the owner and the data. -/
theorem sameContents_modifyFile {f : FileData} {g : FileData → FileData}
    (ha : a ∈ s.ptrs) (hf : s.heap a = some f) (hg : (g f).path = f.path) :
    SameContents s (s.modifyFile a g) ↔ (g f).client = f.client ∧ (g f).data = f.data := by
  constructor
  · intro h
    have h := (h.2 a ha).2
    rwa [modifyFile_file_self _ _ _ hf, file_eq _ hf] at h
  · intro h
    obtain ⟨hc, hd⟩ := h
    refine ⟨fun _ => Iff.rfl, fun b _ => ?_⟩
    by_cases hb : b = a
    · subst hb
      rw [modifyFile_file_self _ _ _ hf, file_eq _ hf]
      exact ⟨hg, hc, hd⟩
    · rw [modifyFile_file_of_ne _ _ _ hb]
      exact ⟨rfl, rfl, rfl⟩

/-- A stored file that is gone is a change. -/
theorem not_sameContents_of_removed (ha : a ∈ s.ptrs) (ha' : a ∉ s'.ptrs) :
    ¬ SameContents s s' :=
  fun h => ha' ((h.1 a).mpr ha)

end FileStorage

/-! ## Opening, closing and removing -/

section Handlers

variable {w : World FileStorage Mutex} {client : Int} {message : SMessage}
  {stream : List UInt8}

/-- The path a handler takes from the stream. -/
def pathOn (message : SMessage) (stream : List UInt8) : List UInt8 :=
  cString (stream.take (lenOf message))

/-- Opening `p` changes nothing: it is in use, or it is not stored and will
not be created. -/
def OpenHarmless (s : FileStorage) (message : SMessage) (p : List UInt8) : Prop :=
  match s.table.huGet p with
  | some a => (s.file a).client ≠ -1
  | none => hasFlag message oCreate = false ∨ s.fuStorageBytesAvailable = 0 ∨
      s.fuStorageFilesAvailable = 0

/-- No file the client owns is found at `p`. -/
def CloseHarmless (s : FileStorage) (client : Int) (p : List UInt8) : Prop :=
  ∀ a, s.table.huGet p = some a → (s.file a).client ≠ client

/-- No file the client owns is found at `p`, or what the freed path has become
finds none. -/
def RemoveHarmless (s : FileStorage) (client : Int) (p : List UInt8)
    (tr : List (Event Mutex)) : Prop :=
  ∀ a, s.table.huGet p = some a → (s.file a).client ≠ client ∨
    ∀ freed, .unspec freed ∈ tr → s.table.huGet (cString freed) = none

theorem ensures_serverGetPath_whole {α : Type} (hm : message ≠ 0) (hc : client ≠ 0)
    {k : Option (List UInt8) → ServerM α}
    {P : List (Event Mutex) → Out α → World FileStorage Mutex → Prop} :
    (serverGetPath message client >>= k).Ensures w
        (fun tr o w' => Whole stream tr → P tr o w') ↔
      (lenOf message + 1 > muLimit → P [] .exit w) ∧
      (¬ lenOf message + 1 > muLimit → (k (some (pathOn message stream))).Ensures w
        fun tr o w' => Whole (stream.drop (lenOf message)) tr →
          P (.read (lenOf message) (some (stream.take (lenOf message))) :: tr) o w') := by
  rw [ensures_serverGetPath_bind hm hc]
  refine and_congr (imp_congr_right fun _ => by simp) (imp_congr_right fun _ => ?_)
  have hfit : Fits (lenOf message) (some (stream.take (lenOf message))) := by simp
  constructor
  · intro h
    exact (h _ hfit).mono fun tr o w' hp hw => hp ⟨rfl, hw⟩
  · intro h r _ tr o w' hr h'
    obtain ⟨rfl, hw⟩ := h'
    exact h tr o w' hr hw

theorem serverOpenFile_sameContents (stream : List UInt8) (hclient : 0 < client) (hm : message ≠ 0)
    (hwf : w.st.WellFormed) :
    (serverOpenFile message client).Ensures w fun tr o w' => Whole stream tr →
      Returns (fun w' => SameContents w.st w'.st ↔
        OpenHarmless w.st message (pathOn message stream)) tr o w' := by
  have hc : client ≠ 0 := by omega
  rw [serverOpenFile, if_neg (not_or.mpr ⟨hm, hc⟩), ensures_serverGetPath_whole hm hc]
  refine ⟨fun _ => trivial, fun _ => ?_⟩
  simp only [ensures_getfile]
  have hsame := sameContents_fuGetfile w.st (pathOn message stream)
  rw [OpenHarmless]
  cases hg : w.st.table.huGet (pathOn message stream) with
  | none =>
      have hst : (w.st.fuGetfile (pathOn message stream)).2 = w.st := by
        rw [fuGetfile_snd, hg]
      rw [hst]
      dsimp only
      split
      · next hflag =>
          rw [ensures_sapiRespond hc, ensures_ret]
          have hno : hasFlag message oCreate = false := by simpa using hflag
          exact ⟨fun _ => ⟨fun _ => .inl hno, fun _ => SameContents.refl _⟩,
            fun _ => ⟨fun _ => .inl hno, fun _ => SameContents.refl _⟩⟩
      · next hflag =>
          rw [ensures_serverCreateFile hc]
          refine ⟨fun _ _ => trivial, fun _ => ⟨fun hfull _ _ => ?_, fun hroom _ _ => ?_⟩⟩
          · refine ⟨fun _ => .inr hfull, fun _ => ?_⟩
            show SameContents w.st (((w.st.place _).2).fuFreeFileData w.st.next)
            rw [hwf.place_fuFreeFileData]
            exact ⟨fun _ => Iff.rfl, fun _ _ => ⟨rfl, rfl, rfl⟩⟩
          · refine ⟨fun h => ?_, fun h => ?_⟩
            · have hnew := (h.1 w.st.next).mp (hwf.mem_ptrs_create rfl fun h => hroom (.inr h))
              exact absurd hnew (hwf.accounted.not_mem_of_next_le (Nat.le_refl _))
            · rcases h with h | h
              · simp [h] at hflag
              · exact absurd h hroom
  | some a =>
      have ha := WellFormed.huGet_mem_ptrs hg
      dsimp only
      refine Ensures.lockFile (fun _ _ => trivial) (fun _ _ => trivial) fun _ f hf => ?_
      rw [fuGetfile_client _ hf]
      split
      · next hopen =>
          rw [ensures_unlock, ensures_sapiRespond hc, ensures_ret]
          have hiff : SameContents w.st _ ↔ f.client ≠ -1 := ⟨fun _ => hopen, fun _ => hsame⟩
          exact ⟨fun _ => hiff, fun _ => hiff⟩
      · next hfree =>
          rw [ensures_takeOwnership, ensures_unlock, ensures_sapiRespond hc, ensures_ret]
          have hiff : SameContents w.st ((w.st.fuGetfile (pathOn message stream)).2.modifyFile
              a (·.openedBy message client)) ↔ f.client ≠ -1 := by
            rw [← hsame.congr_left, sameContents_modifyFile (by simpa using ha) hf rfl]
            simp only [FileData.openedBy]
            omega
          exact ⟨fun _ => hiff, fun _ => hiff⟩

theorem serverCloseFile_sameContents (stream : List UInt8) (hclient : 0 < client)
    (hm : message ≠ 0) :
    (serverCloseFile message client).Ensures w fun tr o w' => Whole stream tr →
      Returns (fun w' => SameContents w.st w'.st ↔
        CloseHarmless w.st client (pathOn message stream)) tr o w' := by
  have hc : client ≠ 0 := by omega
  rw [serverCloseFile, if_neg (not_or.mpr ⟨hm, hc⟩), ensures_serverGetPath_whole hm hc]
  refine ⟨fun _ => trivial, fun _ => ?_⟩
  simp only [ensures_getfile]
  have hsame := sameContents_fuGetfile w.st (pathOn message stream)
  cases hg : w.st.table.huGet (pathOn message stream) with
  | none =>
      dsimp only
      rw [ensures_sapiRespond hc, ensures_ret]
      have hiff : SameContents w.st _ ↔ CloseHarmless w.st client (pathOn message stream) :=
        ⟨fun _ a ha => by simp [hg] at ha, fun _ => hsame⟩
      exact ⟨fun _ => hiff, fun _ => hiff⟩
  | some a =>
      have ha := WellFormed.huGet_mem_ptrs hg
      dsimp only
      refine Ensures.lockFile (fun _ _ => trivial) (fun _ _ => trivial) fun _ f hf => ?_
      have howner := fuGetfile_client _ hf
      have hharm : CloseHarmless w.st client (pathOn message stream) ↔ f.client ≠ client := by
        rw [CloseHarmless, hg]
        simp [howner]
      rw [hharm]
      split
      · next hforeign =>
          rw [ensures_unlock, ensures_sapiRespond hc, ensures_ret]
          have hiff : SameContents w.st _ ↔ f.client ≠ client :=
            ⟨fun _ => hforeign, fun _ => hsame⟩
          exact ⟨fun _ => hiff, fun _ => hiff⟩
      · next hown =>
          rw [ensures_assign, ensures_unlock, ensures_sapiRespond hc, ensures_ret]
          have hiff : SameContents w.st ((w.st.fuGetfile (pathOn message stream)).2.modifyFile
              a fun f => { f with client := -1 }) ↔ f.client ≠ client := by
            rw [← hsame.congr_left, sameContents_modifyFile (by simpa using ha) hf rfl]
            simp only
            omega
          exact ⟨fun _ => hiff, fun _ => hiff⟩

/-- Removing a path is no change exactly when it finds nothing. -/
theorem sameContents_fuRemoveFile {s : FileStorage} (hwf : s.WellFormed)
    (path : List UInt8) :
    SameContents s (s.fuRemoveFile path).2 ↔ s.table.huGet path = none := by
  constructor
  · intro h
    cases hg : s.table.huGet path with
    | none => rfl
    | some a =>
        obtain ⟨k, t, hrem, hmem, heq⟩ := hwf.accounted.fuRemoveFile_of_huGet hg
        have hptrs : s.ptrs.Perm (a :: t.items.map Prod.snd) :=
          (HashTable.huRemove_items hrem).map Prod.snd
        obtain ⟨hnot, -⟩ := List.nodup_cons.mp (hptrs.nodup_iff.mp hwf.accounted.nodup)
        rw [heq] at h
        exact absurd h (not_sameContents_of_removed hmem hnot)
  · intro hn
    simpa [fuRemoveFile, hn] using SameContents.refl s

theorem serverRemoveFile_sameContents (stream : List UInt8) (hclient : 0 < client)
    (hm : message ≠ 0)
    (hwf : w.st.WellFormed) :
    (serverRemoveFile message client).Ensures w fun tr o w' => Whole stream tr →
      Returns (fun w' => SameContents w.st w'.st ↔
        RemoveHarmless w.st client (pathOn message stream) tr) tr o w' := by
  have hc : client ≠ 0 := by omega
  rw [serverRemoveFile, if_neg (not_or.mpr ⟨hm, hc⟩), ensures_serverGetPath_whole hm hc]
  refine ⟨fun _ => trivial, fun _ => ?_⟩
  dsimp only
  refine ensures_lock.mpr ⟨fun _ _ => trivial, fun _ => ?_⟩
  rw [ensures_getfile]
  dsimp only
  have hsame := sameContents_fuGetfile w.st (pathOn message stream)
  have hwf' : (w.st.fuGetfile (pathOn message stream)).2.WellFormed :=
    hwf.fuGetfile _
  cases hg : w.st.table.huGet (pathOn message stream) with
  | none =>
      have hharm : ∀ tr, RemoveHarmless w.st client (pathOn message stream) tr :=
        fun tr a ha => by simp [hg] at ha
      rw [ensures_unlock, ensures_sapiRespond hc, ensures_ret]
      exact ⟨fun _ => ⟨fun _ => hharm _, fun _ => hsame⟩,
        fun _ => ⟨fun _ => hharm _, fun _ => hsame⟩⟩
  | some a =>
      refine Ensures.lockFile (fun _ _ => trivial) (fun _ _ => trivial) fun _ f hf => ?_
      have howner := fuGetfile_client _ hf
      have hharm : ∀ tr, RemoveHarmless w.st client (pathOn message stream) tr ↔
          f.client ≠ client ∨
            ∀ freed, .unspec freed ∈ tr → w.st.table.huGet (cString freed) = none := by
        intro tr
        rw [RemoveHarmless, hg]
        simp [howner]
      simp only [hharm]
      split
      · next hforeign =>
          rw [ensures_unlock, ensures_unlock, ensures_sapiRespond hc, ensures_ret]
          exact ⟨fun _ => ⟨fun _ => .inl hforeign, fun _ => hsame⟩,
            fun _ => ⟨fun _ => .inl hforeign, fun _ => hsame⟩⟩
      · next hown =>
          rw [ensures_unlock, ensures_unspec]
          intro freed
          rw [ensures_removefile, ensures_unlock, ensures_sapiRespond hc, ensures_ret]
          have hiff : ∀ tr : List (Event Mutex),
              (∀ freed', .unspec freed' ∈ tr ↔ freed' = freed) →
              (SameContents w.st ((w.st.fuGetfile (pathOn message stream)).2.fuRemoveFile
                (cString freed)).2 ↔ f.client ≠ client ∨
                  ∀ freed, .unspec freed ∈ tr → w.st.table.huGet (cString freed) = none) := by
            intro tr htr
            rw [← hsame.congr_left, sameContents_fuRemoveFile hwf', fuGetfile_table]
            simp only [htr, forall_eq]
            exact ⟨.inr, fun h => h.resolve_left hown⟩
          exact ⟨fun _ => hiff _ (by simp), fun _ => hiff _ (by simp)⟩

/-! ## Writing -/

/-- A received body with zeros for what did not arrive. -/
def padded (body : List UInt8) (dataLen : Nat) : List UInt8 :=
  body ++ List.replicate (dataLen - body.length) 0

theorem receiveData_ptrs (hc : client ≠ 0) (file dataLen : Nat) (offset : FileData → Nat) :
    (receiveData client file dataLen offset).Ensures w
      (Returns fun w' => w'.st.ptrs = w.st.ptrs) := by
  rw [receiveData, ensures_muCalloc]
  refine ⟨fun _ => trivial, fun _ => ?_⟩
  rw [ensures_read]
  intro r _
  cases r with
  | none =>
      rw [ensures_unlock, ensures_serverRespond_bind hc]
      simp
  | some bs =>
      dsimp only
      rw [ensures_deref]
      refine ⟨fun _ => trivial, fun f _ => ?_⟩
      rw [ensures_get]
      cases hw : w.st.fuWritefile file (offset f) _ with
      | none => simp
      | some res =>
          have hptrs : res.2.ptrs = w.st.ptrs := by
            rw [ptrs, fuWritefile_table _ _ hw, ptrs]
          dsimp only
          rw [ensures_set]
          split
          · rw [ensures_unlock, ensures_serverRespond_bind hc]
            simpa using hptrs
          · rw [ensures_serverRespond_bind hc]
            simpa using hptrs

/-- With room for the body, writing is no change exactly when the file comes
out as it was. -/
theorem receiveData_sameContents (stream : List UInt8) (hc : client ≠ 0) {file dataLen : Nat}
    {offset : FileData → Nat} (hoff : ∀ f, offset f ≤ f.dataLen) (hn : 0 < dataLen)
    (hwf : w.st.WellFormed) (hfile : file ∈ w.st.ptrs)
    (hroom : dataLen ≤ w.st.maxBytes - w.st.currBytes) :
    (receiveData client file dataLen offset).Ensures w fun tr o w' => Whole stream tr →
      Returns (fun w' => SameContents w.st w'.st ↔
        (w.st.file file).data.take (offset (w.st.file file)) ++
          padded (stream.take dataLen) dataLen = (w.st.file file).data) tr o w' := by
  rw [receiveData, ensures_muCalloc]
  refine ⟨fun _ _ => trivial, fun hlim => ?_⟩
  rw [ensures_read_whole]
  dsimp only
  rw [ensures_deref]
  refine ⟨fun _ _ => trivial, fun f hf => ?_⟩
  have hff := file_eq _ hf
  rw [ensures_get, if_neg (by omega), hff]
  set d := padded (stream.take dataLen) dataLen with hd
  have hdlen : d.length = dataLen := by
    rw [hd, padded, List.length_append, List.length_replicate, List.length_take]
    omega
  have hi : offset f ≤ (w.st.file file).dataLen := hff ▸ hoff f
  have hle := hwf.accounted.dataLen_le hfile
  have hwrite := hwf.accounted.fuWritefile_of_fits hfile (d := d) (by omega) (by omega) hi
    (by omega)
  have hd' : stream.take dataLen ++ List.replicate (dataLen - (stream.take dataLen).length) 0
      = d := rfl
  rw [hd', hwrite]
  by_cases hmax : offset f + d.length > muLimit
  · rw [if_pos hmax]
    simp
  · rw [if_neg hmax]
    dsimp only
    have hiff : SameContents w.st
        { w.st.modifyFile file (fun f' => { f' with
            dataInfo := f'.dataInfo + 1, data := f'.data.take (offset f) ++ d }) with
          currBytes := w.st.currBytes - (w.st.file file).dataLen + (offset f + d.length) } ↔
        f.data.take (offset f) ++ d = f.data := by
      refine (sameContents_modifyFile (g := fun f' => { f' with
        dataInfo := f'.dataInfo + 1, data := f'.data.take (offset f) ++ d }) hfile hf rfl).trans
        ?_
      simp
    rw [ensures_set, if_neg (by simp), ensures_serverRespond_bind hc]
    simp only [ne_eq, Int.reduceNeg, neg_eq_zero, one_ne_zero, not_false_eq_true, if_true,
      not_true_eq_false, if_false, ensures_unlock, ensures_ret]
    exact ⟨fun _ => hiff, fun _ => hiff⟩

/-- A write or an append changes nothing: its length never arrived or it finds
no file of the client; or it needs room and the eviction gives nothing up; or
it has room and is not told so, or writes what is there already. -/
def WriteHarmless (s : FileStorage) (held : Finset Mutex) (client : Int)
    (offset : FileData → Nat) (p rest : List UInt8) (tr : List (Event Mutex)) : Prop :=
  rest.length < 8 ∨ ∀ a, s.table.huGet p = some a → (s.file a).client ≠ client ∨
    let dataLen := LittleEndian.decode (rest.take 8)
    if s.fuStorageBytesAvailable < dataLen then
      s.storedBytes < dataLen - s.fuStorageBytesAvailable ∨
      s.evictables (insert (.file a) (insert .storage held)) client s.ptrs = [] ∨
      [(sapiEvictMsg, false)] <+: answers tr ∨
      [(sapiEvictMsg, true), (sapiEvictMsg, false)] <+: answers tr
    else
      answers tr = [(sapiSuccess, false)] ∨
      (s.file a).data.take (offset (s.file a)) ++
        padded ((rest.drop 8).take dataLen) dataLen = (s.file a).data

/-- What an eviction of at least one byte gave up, and when that is
nothing. -/
theorem EvictReturn.gone {s s' : FileStorage} {H : Finset Mutex} {n : Nat}
    {ans : List (SMessage × Bool)} {r : Int} (hn : 0 < n) (hwf : s.WellFormed)
    (h : EvictReturn s H client n ans r s') (tail : List (SMessage × Bool)) :
    ∃ gone, Without s s' gone ∧ s'.WellFormed ∧ (r = 0 → gone ≠ []) ∧
      (gone = [] ↔ s.storedBytes < n ∨ s.evictables H client s.ptrs = [] ∨
        [(sapiEvictMsg, false)] <+: ans ++ tail ∨
        [(sapiEvictMsg, true), (sapiEvictMsg, false)] <+: ans ++ tail) := by
  have hfail : sapiFailure ≠ sapiEvictMsg := by decide
  have hsucc : sapiSuccess ≠ sapiEvictMsg := by decide
  cases h with
  | infeasible hshort =>
      refine ⟨[], Without.refl s, hwf, by simp, fun _ => ?_, fun _ => rfl⟩
      rcases hshort with hlt | hnil
      · exact .inl hlt
      · exact .inr (.inl (by rw [hnil]; rfl))
  | unannounced _ _ =>
      refine ⟨[], Without.refl s, hwf, by simp, fun _ => .inr (.inr (.inl ?_)), fun _ => rfl⟩
      exact List.prefix_append _ _
  | refused s' as gone hle hperm hend =>
      refine ⟨gone, hend.without, hend.wellFormed, by simp, fun hg => ?_, ?_⟩
      · subst hg
        exact .inr (.inr (.inr (List.prefix_append _ _)))
      · intro h
        rcases h with h | h | h | h
        · omega
        · have hpre := hend.isPrefix
          rw [evictables_eq_nil hperm h] at hpre
          exact List.prefix_nil.mp hpre
        · simp at h
        · cases gone with
          | nil => rfl
          | cons a gone => simp [List.replicate_succ] at h
  | done s' as gone notices ok hle hperm hend hdone =>
      refine ⟨gone, hend.without, hend.wellFormed, fun hr hg => ?_, fun hg => ?_, ?_⟩
      · subst hg
        have hlt : ¬ n ≤ s.bytesOf [] := by
          show ¬ n ≤ 0
          omega
        simp [hlt] at hr
      · subst hg
        rcases hdone with hz | he
        · have hz : n ≤ 0 := by simpa [bytesOf] using hz
          omega
        · have hperm' := evictables_perm hperm H client
          rw [← he] at hperm'
          exact .inr (.inl (List.perm_nil.mp hperm'.symm))
      · intro h
        rcases h with h | h | h | h
        · omega
        · have hpre := hend.isPrefix
          rw [evictables_eq_nil hperm h] at hpre
          exact List.prefix_nil.mp hpre
        · simp at h
        · exfalso
          cases notices with
          | zero =>
              simp only [List.replicate_zero, List.nil_append, List.cons_append,
                List.cons_prefix_cons, Prod.mk.injEq] at h
              split at h
              · exact hsucc h.2.1.1.symm
              · exact hfail h.2.1.1.symm
          | succ k => simp [List.replicate_succ] at h

/-- A file that is gone was stored and is not any more. -/
theorem FileStorage.Without.of_mem {s s' : FileStorage} {gone : List Nat} {a : Nat}
    (h : Without s s' gone) (hwf : s.WellFormed) (ha : a ∈ gone) :
    a ∈ s.ptrs ∧ a ∉ s'.ptrs := by
  have hnodup := h.ptrs.nodup_iff.mp hwf.accounted.nodup
  exact ⟨h.ptrs.mem_iff.mpr (List.mem_append_left _ ha), fun ha' =>
    (List.nodup_append.mp hnodup).2.2 a ha a ha' rfl⟩

theorem FileStorage.Without.sameContents_iff {s s' : FileStorage} {gone : List Nat}
    (h : Without s s' gone) (hwf : s.WellFormed) : SameContents s s' ↔ gone = [] := by
  constructor
  · intro hs
    cases gone with
    | nil => rfl
    | cons a gone =>
        obtain ⟨hin, hout⟩ := h.of_mem hwf (List.mem_cons_self ..)
        exact absurd hs (not_sameContents_of_removed hin hout)
  · intro heq
    subst heq
    refine ⟨fun a => ?_, fun a _ => ?_⟩
    · simpa using (h.ptrs.mem_iff (a := a)).symm
    · simp [file, h.heap a]

theorem FileStorage.SameContents.evictables_eq {s s' : FileStorage} (h : SameContents s s')
    (hp : s'.ptrs = s.ptrs) (held : Finset Mutex) (client : Int) :
    s'.evictables held client s'.ptrs = s.evictables held client s.ptrs := by
  rw [hp]
  refine List.filter_congr fun a ha => ?_
  rw [decide_eq_decide]
  simp only [Evictable, (h.2 a ha).2.1]

theorem FileStorage.SameContents.storedBytes_eq {s s' : FileStorage} (h : SameContents s s')
    (hp : s'.ptrs = s.ptrs) : s'.storedBytes = s.storedBytes :=
  storedBytes_congr s s' hp fun a ha => by
    rw [FileData.dataLen, (h.2 a ha).2.2, FileData.dataLen]

/-- No trylock failed but on a mutex that was held before, or on that of the
file at `p`, which the handler holds itself. -/
def AloneAt (s : FileStorage) (held : Finset Mutex) (p : List UInt8)
    (tr : List (Event Mutex)) : Prop :=
  ∀ m, .trylock m false ∈ tr → m ∈ held ∨ ∃ a, s.table.huGet p = some a ∧ m = .file a

theorem serverMakeRoom_sameContents (stream : List UInt8) (qsort : Qsort Nat) (hc : client ≠ 0)
    {offset : FileData → Nat} (hoff : ∀ f, offset f ≤ f.dataLen) {file dataLen : Nat}
    (hn : 0 < dataLen) (hwf : w.st.WellFormed) (hfile : file ∈ w.st.ptrs) :
    (serverMakeRoom qsort offset client file dataLen).Ensures w fun tr o w' =>
      Whole stream tr → Alone w.held tr → Returns (fun w' => SameContents w.st w'.st ↔
        if w.st.fuStorageBytesAvailable < dataLen then
          w.st.storedBytes < dataLen - w.st.fuStorageBytesAvailable ∨
          w.st.evictables w.held client w.st.ptrs = [] ∨
          [(sapiEvictMsg, false)] <+: answers tr ∨
          [(sapiEvictMsg, true), (sapiEvictMsg, false)] <+: answers tr
        else
          answers tr = [(sapiSuccess, false)] ∨
          (w.st.file file).data.take (offset (w.st.file file)) ++
            padded (stream.take dataLen) dataLen = (w.st.file file).data) tr o w' := by
  rw [serverMakeRoom, ensures_get]
  have havail := hwf.accounted.bytesAvailable
  split
  · next hshort =>
      refine ensures_bind.mpr ((serverEvict_return qsort hc _ hwf).mono fun tr o w' h => ?_)
      cases o with
      | exit => exact fun _ _ => trivial
      | fault => exact fun _ _ => trivial
      | blocked => exact fun _ _ => trivial
      | ret r =>
          simp only [After]
          have halone : ∀ tr', Alone w.held (tr ++ tr') → Alone w.held tr :=
            fun tr' ha m hm => ha m (List.mem_append_left _ hm)
          split
          · next hr =>
              rw [ensures_unlock, ensures_unlock, ensures_sapiRespond hc, ensures_ret]
              have hiff : ∀ ok, Alone w.held (tr ++ [.write (.word sapiFailure) ok]) →
                  (SameContents w.st w'.st ↔
                    w.st.storedBytes < dataLen - w.st.fuStorageBytesAvailable ∨
                    w.st.evictables w.held client w.st.ptrs = [] ∨
                    [(sapiEvictMsg, false)] <+:
                      answers (tr ++ [.write (.word sapiFailure) ok]) ∨
                    [(sapiEvictMsg, true), (sapiEvictMsg, false)] <+:
                      answers (tr ++ [.write (.word sapiFailure) ok])) := by
                intro ok ha
                obtain ⟨gone, hwo, -, -, hgone⟩ :=
                  (h r rfl (halone _ ha)).gone (by omega) hwf [(sapiFailure, ok)]
                rw [hwo.sameContents_iff hwf, hgone, answers_append]
                rfl
              exact ⟨fun _ ha => hiff _ ha, fun _ ha => hiff _ ha⟩
          · next hr =>
              have hr : r = 0 := not_not.mp hr
              rw [ensures_unlock]
              refine (receiveData_ptrs hc file dataLen offset).mono fun tr' o w'' hp =>
                fun _ ha => hp.imp fun hptrs => ?_
              obtain ⟨gone, hwo, hwf', hne, hgone⟩ :=
                (h r rfl (halone _ ha)).gone (by omega) hwf (answers tr')
              rw [answers_append, ← hgone]
              refine iff_of_false (fun hs => ?_) (hne hr)
              obtain ⟨a, ha⟩ := List.exists_mem_of_ne_nil _ (hne hr)
              obtain ⟨hin, hout⟩ := hwo.of_mem hwf ha
              exact not_sameContents_of_removed hin (hptrs ▸ hout) hs
  · next hroom =>
      rw [ensures_serverRespond_bind hc]
      constructor
      · simp only [ne_eq, Int.reduceNeg, neg_eq_zero, one_ne_zero, not_false_eq_true, if_true,
          ensures_unlock, ensures_ret]
        exact fun _ _ => ⟨fun _ => .inl rfl, fun _ => SameContents.refl _⟩
      · simp only [ne_eq, not_true_eq_false, if_false, ensures_unlock]
        refine (receiveData_sameContents (w := ⟨w.st, w.held.erase .storage⟩)
          stream hc hoff hn hwf hfile (by dsimp only; omega)).mono
          fun tr o w' h => fun hw _ => (h hw).imp fun hiff => ?_
        rw [hiff]
        exact ⟨.inr, fun h => h.resolve_left (by simp)⟩

/-- The length word of a write, from a stream that delivers whole. -/
theorem ensures_checkReadResponse_whole (hc : client ≠ 0) {k : Nat → ServerM Int}
    {P : List (Event Mutex) → Out Int → World FileStorage Mutex → Prop} :
    (checkReadResponse client k).Ensures w (fun tr o w' => Whole stream tr → P tr o w') ↔
      (stream.length < 8 → ∀ ok,
        P [.read 8 (some (stream.take 8)), .write (.word sapiFailure) ok] (.ret 1) w) ∧
      (¬ stream.length < 8 → (k (LittleEndian.decode (stream.take 8))).Ensures w
        fun tr o w' => Whole (stream.drop 8) tr →
          P (.read 8 (some (stream.take 8)) :: tr) o w') := by
  rw [checkReadResponse, ensures_read_whole]
  have hlen : (stream.take 8).length < 8 ↔ stream.length < 8 := by
    rw [List.length_take]
    omega
  dsimp only
  by_cases h : stream.length < 8
  · rw [if_pos (hlen.mpr h)]
    simp [h, ensures_serverRespond_bind hc]
  · rw [if_neg fun h' => h (hlen.mp h')]
    simp [h]

theorem serverWriteAt_sameContents (stream : List UInt8) (qsort : Qsort Nat) (hclient : 0 < client)
    (hm : message ≠ 0) {offset : FileData → Nat} (hoff : ∀ f, offset f ≤ f.dataLen)
    (hdata : ∀ f g : FileData, f.data = g.data → offset f = offset g)
    (hwf : w.st.WellFormed)
    (hlen : 8 ≤ (stream.drop (lenOf message)).length →
      0 < LittleEndian.decode ((stream.drop (lenOf message)).take 8)) :
    (serverWriteAt qsort offset message client).Ensures w fun tr o w' => Whole stream tr →
      AloneAt w.st w.held (pathOn message stream) tr →
      Returns (fun w' => SameContents w.st w'.st ↔ WriteHarmless w.st w.held client offset
        (pathOn message stream) (stream.drop (lenOf message)) tr) tr o w' := by
  have hc : client ≠ 0 := by omega
  rw [serverWriteAt, if_neg (not_or.mpr ⟨hm, hc⟩), ensures_serverGetPath_whole hm hc]
  refine ⟨fun _ _ => trivial, fun _ => ?_⟩
  dsimp only
  refine ensures_lock.mpr ⟨fun _ _ _ => trivial, fun _ => ?_⟩
  rw [ensures_getfile]
  set p := pathOn message stream with hp
  set rest := stream.drop (lenOf message) with hrest
  have hsame := sameContents_fuGetfile w.st p
  have hptrs : (w.st.fuGetfile p).2.ptrs = w.st.ptrs := fuGetfile_ptrs _ _
  cases hg : w.st.table.huGet p with
  | none =>
      have hharm : ∀ tr, WriteHarmless w.st w.held client offset p rest tr :=
        fun tr => .inr fun a ha => by simp [hg] at ha
      rw [ensures_unlock, ensures_sapiRespond hc, ensures_ret]
      exact ⟨fun _ _ => ⟨fun _ => hharm _, fun _ => hsame⟩,
        fun _ _ => ⟨fun _ => hharm _, fun _ => hsame⟩⟩
  | some a =>
      have ha := WellFormed.huGet_mem_ptrs hg
      refine Ensures.lockFile (fun _ _ _ => trivial) (fun _ _ _ => trivial) fun _ f hf => ?_
      have howner := fuGetfile_client _ hf
      split
      · next hforeign =>
          have hharm : ∀ tr, WriteHarmless w.st w.held client offset p rest tr := by
            refine fun tr => .inr fun b hb => .inl ?_
            obtain rfl : a = b := Option.some.inj (hg.symm.trans hb)
            rwa [howner]
          rw [ensures_unlock, ensures_sapiRespond hc, ensures_ret]
          exact ⟨fun _ _ => ⟨fun _ => hharm _, fun _ => hsame⟩,
            fun _ _ => ⟨fun _ => hharm _, fun _ => hsame⟩⟩
      · next hown =>
          rw [ensures_checkReadResponse_whole hc]
          refine ⟨fun hshort ok _ => ⟨fun _ => .inl hshort, fun _ => hsame⟩, fun hshort => ?_⟩
          set dataLen := LittleEndian.decode (rest.take 8)
          have hroom := serverMakeRoom_sameContents
            (w := ⟨(w.st.fuGetfile p).2, insert (.file a) (insert .storage w.held)⟩)
            (rest.drop 8) qsort hc hoff (hlen (by omega)) (hwf.fuGetfile p)
            (hptrs ▸ ha)
          refine hroom.mono fun tr o w' h => fun hw halone => ?_
          have hal : Alone (insert (.file a) (insert .storage w.held)) tr := by
            intro m hmem
            rcases halone m (by simp [hmem]) with hin | ⟨b, hb, rfl⟩
            · simp [hin]
            · obtain rfl : a = b := Option.some.inj (hg.symm.trans hb)
              simp
          refine (h hw hal).imp fun hiff => ?_
          dsimp only at hiff
          have hfile := (hsame.2 a ha).2.2
          rw [hsame.congr_left, hsame.evictables_eq hptrs, hsame.storedBytes_eq hptrs, hfile,
            hdata _ _ hfile, fuGetfile_bytesAvailable] at hiff
          rw [hiff, WriteHarmless]
          simp only [answers_read, hg, Option.some.injEq, forall_eq', howner, hown, ne_eq,
            false_or, hshort]
          rfl

/-! ## All the requests -/

/-- The requests that can change contents. -/
def contentOps : List (BitVec 8) :=
  [sapiOpenFile, sapiCloseFile, sapiWriteFile, sapiAppendFile, sapiRemoveFile]

/-- Serving the request with path `p`, and then `rest`, changes nothing. -/
def Harmless (s : FileStorage) (held : Finset Mutex) (client : Int) (message : SMessage)
    (p rest : List UInt8) (tr : List (Event Mutex)) : Prop :=
  (opOf message = sapiOpenFile → OpenHarmless s message p) ∧
  (opOf message = sapiCloseFile → CloseHarmless s client p) ∧
  (opOf message = sapiRemoveFile → RemoveHarmless s client p tr) ∧
  (opOf message = sapiWriteFile → WriteHarmless s held client (fun _ => 0) p rest tr) ∧
  (opOf message = sapiAppendFile →
    WriteHarmless s held client FileData.dataLen p rest tr)

/-- Only the low byte of the request word decides. -/
theorem Harmless.congr {s : FileStorage} {held : Finset Mutex} {m m' : SMessage}
    {p rest : List UInt8} {tr tr' : List (Event Mutex)} (h : m'.truncate 8 = m.truncate 8)
    (ha : answers tr' = answers tr) (hu : ∀ bs, .unspec bs ∈ tr' ↔ .unspec bs ∈ tr) :
    Harmless s held client m' p rest tr' ↔ Harmless s held client m p rest tr := by
  simp only [Harmless, OpenHarmless, RemoveHarmless, WriteHarmless, opOf_eq, hasFlag_eq, h, ha,
    hu]

theorem serve_sameContents (stream : List UInt8) (qsort : Qsort Nat) (hclient : 0 < client)
    (hop : opOf message ∈ contentOps) (hwf : w.st.WellFormed)
    (hlen : 8 ≤ (stream.drop (lenOf message)).length →
      0 < LittleEndian.decode ((stream.drop (lenOf message)).take 8)) :
    (serve qsort message client).Ensures w fun tr o w' => Whole stream tr →
      AloneAt w.st w.held (pathOn message stream) tr →
      Returns (fun w' => SameContents w.st w'.st ↔ Harmless w.st w.held client message
        (pathOn message stream) (stream.drop (lenOf message)) tr) tr o w' := by
  have hm : message ≠ 0 := by
    intro heq
    subst heq
    exact absurd hop (by decide)
  have hnot : ∀ op, op ∉ contentOps → opOf message ≠ op := fun op hn he => hn (he ▸ hop)
  refine Ensures.serve_cases (fun h => ?_) (fun h => ?_) (fun h => absurd h (hnot _ (by decide)))
    (fun h => absurd h (hnot _ (by decide))) (fun h => ?_) (fun h => ?_)
    (fun h => h.elim (fun h => absurd h (hnot _ (by decide)))
      fun h => absurd h (hnot _ (by decide))) (fun h => ?_) fun h => ?_
  · refine (serverOpenFile_sameContents stream hclient hm hwf).mono
      fun tr o w' hr hw _ => (hr hw).imp fun hiff => ?_
    rw [hiff]
    simp [Harmless, h, sapiOpenFile, sapiCloseFile, sapiRemoveFile, sapiWriteFile,
      sapiAppendFile]
  · refine (serverCloseFile_sameContents stream hclient hm).mono
      fun tr o w' hr hw _ => (hr hw).imp fun hiff => ?_
    rw [hiff]
    simp [Harmless, h, sapiOpenFile, sapiCloseFile, sapiRemoveFile, sapiWriteFile,
      sapiAppendFile]
  · refine (serverWriteAt_sameContents stream qsort hclient hm
      (fun _ => Nat.zero_le _) (fun _ _ _ => rfl) hwf hlen).mono
      fun tr o w' hr hw ha => (hr hw ha).imp fun hiff => ?_
    rw [hiff]
    simp [Harmless, h, sapiOpenFile, sapiCloseFile, sapiRemoveFile, sapiWriteFile,
      sapiAppendFile]
  · refine (serverWriteAt_sameContents stream qsort hclient hm
      (fun _ => Nat.le_refl _) (fun f g hd => by rw [FileData.dataLen, hd, FileData.dataLen])
      hwf hlen).mono fun tr o w' hr hw ha => (hr hw ha).imp fun hiff => ?_
    rw [hiff]
    simp [Harmless, h, sapiOpenFile, sapiCloseFile, sapiRemoveFile, sapiWriteFile,
      sapiAppendFile]
  · refine (serverRemoveFile_sameContents stream hclient hm hwf).mono
      fun tr o w' hr hw _ => (hr hw).imp fun hiff => ?_
    rw [hiff]
    simp [Harmless, h, sapiOpenFile, sapiCloseFile, sapiRemoveFile, sapiWriteFile,
      sapiAppendFile]
  · exact absurd (show opOf message ∈ knownOps by
      simp only [contentOps, knownOps, List.mem_cons, List.not_mem_nil, or_false] at hop ⊢
      tauto) h

end Handlers

/-! ## Cutting the bytes of a request -/

/-- What follows the path: for the two requests that write, the length of the
data, the word the server asks for when it is short of room, and the data. -/
def requestBody (s : FileStorage) (message : SMessage) (flag : Nat) (data : List UInt8) :
    List UInt8 :=
  if opOf message = sapiWriteFile ∨ opOf message = sapiAppendFile then
    LittleEndian.encode 8 data.length ++
      ((if s.fuStorageBytesAvailable < data.length then LittleEndian.encode 8 flag else []) ++
        data)
  else []

/-- All the bytes of a request. -/
def requestBytes (s : FileStorage) (message : SMessage) (path : List UInt8) (flag : Nat)
    (data : List UInt8) : List UInt8 :=
  LittleEndian.encode 4 message.toNat ++ (path ++ requestBody s message flag data)

variable {qsort : Qsort Nat} {maxFiles maxBytes : Nat} {w w' : World FileStorage Mutex}
  {client : Int} {message : SMessage} {path data : List UInt8} {flag k : Nat} {r : Bool}
  {tr : List (Event Mutex)}

/-- A cut request whose length word arrived announces at least one byte. -/
theorem requestBody_len_pos {s : FileStorage} (hdata : data.length < 2 ^ 64)
    (hk : k < (requestBytes s message path flag data).length) :
    8 ≤ ((requestBody s message flag data).take (k - 4 - path.length)).length →
      0 < LittleEndian.decode
        (((requestBody s message flag data).take (k - 4 - path.length)).take 8) := by
  intro h
  rw [requestBytes] at hk
  simp only [List.length_append, LittleEndian.encode_length] at hk
  rw [List.length_take] at h
  rw [List.take_take, Nat.min_eq_left (by omega)]
  rw [requestBody] at h hk ⊢
  split at h
  · next hwrite =>
      rw [if_pos hwrite] at hk ⊢
      rw [List.take_left' (LittleEndian.encode_length ..),
        LittleEndian.decode_encode_of_lt (by omega)]
      by_contra h0
      have hnil : data = [] := List.length_eq_zero_iff.mp (by omega)
      simp [hnil] at hk h
      omega
  · simp at h

/-- The first `k` bytes of a request, with nothing after them, leave the
contents alone exactly when no byte arrived, or when what is left of the path
names nothing that the request may change. -/
theorem cut_off_request (hw : Reachable qsort maxFiles maxBytes w) (hclient : 0 < client)
    (hop : opOf message ∈ contentOps) (hpath : lenOf message = path.length)
    (hdata : data.length < 2 ^ 64)
    (hk : k < (requestBytes w.st message path flag data).length)
    (hrun : (serverWorker qsort client).Runs w tr (.ret r) w')
    (hwhole : Whole ((requestBytes w.st message path flag data).take k) tr)
    (halone : AloneAt w.st w.held (cString (path.take (k - 4))) tr) :
    SameContents w.st w'.st ↔ k = 0 ∨
      Harmless w.st w.held client message (cString (path.take (k - 4)))
        ((requestBody w.st message flag data).take (k - 4 - path.length)) tr := by
  set body := requestBody w.st message flag data with hbody
  have htake : ((requestBytes w.st message path flag data).take k).take 4 =
      LittleEndian.encode (min k 4) message.toNat := by
    rw [List.take_take, requestBytes, List.take_append_of_le_length (by simp),
      LittleEndian.take_encode]
    congr 1
    omega
  have hdrop : ((requestBytes w.st message path flag data).take k).drop 4 =
      (path ++ body).take (k - 4) := by
    rw [List.drop_take, requestBytes, List.drop_left' (LittleEndian.encode_length ..)]
  refine (?_ : (serverWorker qsort client).Ensures w fun tr o w' =>
    Whole ((requestBytes w.st message path flag data).take k) tr →
    AloneAt w.st w.held (cString (path.take (k - 4))) tr →
    Returns (fun w' => SameContents w.st w'.st ↔ k = 0 ∨
      Harmless w.st w.held client message (cString (path.take (k - 4)))
        (body.take (k - 4 - path.length)) tr) tr o w') tr _ w' hrun hwhole halone
  rw [serverWorker, ensures_read_whole, htake, hdrop]
  dsimp only
  rw [LittleEndian.decode_encode]
  by_cases hk0 : k = 0
  · subst hk0
    simp [Nat.mod_one, SameContents.refl]
  · set request := BitVec.ofNat 32 (message.toNat % 256 ^ min k 4) with hreq
    have hlow : request.truncate 8 = message.truncate 8 := truncate_ofNat_mod _ (by omega)
    have hop' : opOf request ∈ contentOps := by rwa [opOf_eq, hlow, ← opOf_eq]
    have hreq0 : request ≠ 0 := by
      intro h0
      rw [h0] at hop'
      exact absurd hop' (by decide)
    have hcut : pathOn request ((path ++ body).take (k - 4)) = cString (path.take (k - 4)) ∧
        ((path ++ body).take (k - 4)).drop (lenOf request) =
          body.take (k - 4 - path.length) := by
      by_cases h4 : 4 ≤ k
      · have hfull : request = message := by
          have hlt : message.toNat < 256 ^ 4 := message.isLt
          rw [hreq, Nat.min_eq_right h4, Nat.mod_eq_of_lt hlt, BitVec.ofNat_toNat,
            BitVec.setWidth_eq]
        rw [hfull, pathOn, hpath, List.take_take, List.drop_take, List.drop_left,
          List.take_append_of_le_length (by omega), ← List.take_take,
          List.take_of_length_le (List.length_take_le' ..)]
        exact ⟨rfl, rfl⟩
      · have hz : k - 4 = 0 := by omega
        rw [hz]
        simp [pathOn]
    rw [if_neg hreq0]
    refine ensures_bind.mpr ((serve_sameContents ((path ++ body).take (k - 4)) qsort
      hclient hop' hw.wellFormed ?_).mono fun tr o w' h => ?_)
    · rw [hcut.2]
      exact requestBody_len_pos hdata hk
    · rw [hcut.1, hcut.2] at h
      cases o with
      | ret r =>
          simp only [After, ensures_ret, List.append_nil]
          intro hwh hal
          rw [returns_ret, returns_ret.mp (h hwh fun m hm => hal m (by simp [hm])),
            or_iff_right hk0]
          exact Harmless.congr hlow (by simp) (by simp)
      | exit => exact fun _ _ => trivial
      | fault => exact fun _ _ => trivial
      | blocked => exact fun _ _ => trivial

/-- A request to open "ab", creating it. -/
def openAb : SMessage := sapiMessageLen oCreate sapiOpenFile 2

/-- A file that was not there before is a change. -/
theorem not_sameContents_of_created {s s' : FileStorage} {a : Nat} (h : s.ptrs = [])
    (h' : s'.ptrs = [a]) : ¬ SameContents s s' := by
  intro hsame
  have hmem := (hsame.1 a).mp (by simp [h'])
  simp [h] at hmem

/-- That request with its last byte missing. -/
def openAbTrace : List (Event Mutex) :=
  [.read 4 (some (LittleEndian.encode 4 openAb.toNat)), .read 2 (some [97]),
    .write (.word sapiSuccess) true]

theorem length_openAb (s : FileStorage) :
    (requestBytes s openAb [97, 98] 0 []).length = 6 := by
  rw [requestBytes, requestBody, if_neg (by decide)]
  rfl

theorem open_ab_cut : ∃ w w', Reachable Qsort.insertion 1 10 w ∧
    (serverWorker Qsort.insertion 5).Runs w openAbTrace (.ret true) w' ∧
    Whole ((requestBytes w.st openAb [97, 98] 0 []).take 5) openAbTrace ∧
    AloneAt w.st w.held (cString ([97, 98].take (5 - 4))) openAbTrace ∧
    w.st.ptrs = [] ∧ w'.st.ptrs = [0] ∧ (w'.st.file 0).path = [97] := by
  have h₀ : Reachable Qsort.insertion 1 10 ⟨_, ∅⟩ := .init (by decide) (by decide) rfl
  refine ⟨_, _, h₀, rfl, ?_, by simp [AloneAt, openAbTrace], rfl, rfl, rfl⟩
  exact whole_read.mpr ⟨rfl, whole_read.mpr ⟨rfl, trivial⟩⟩

/-- It changes the contents, and what is left of its path is not harmless. -/
theorem cut_off_request_ab : ∃ (w w' : World FileStorage Mutex),
    ¬ SameContents w.st w'.st ∧
    ¬ Harmless w.st w.held 5 openAb (cString ([97, 98].take (5 - 4)))
        ((requestBody w.st openAb 0 []).take (5 - 4 - 2)) openAbTrace := by
  obtain ⟨w, w', hw, hrun, hwhole, halone, hnil, hone, -⟩ := open_ab_cut
  have hk : 5 < (requestBytes w.st openAb [97, 98] 0 []).length := by
    rw [length_openAb]
    decide
  have hiff := cut_off_request hw (by decide) (by decide) rfl (by decide) hk hrun hwhole halone
  have hchanged : ¬ SameContents w.st w'.st := not_sameContents_of_created hnil hone
  exact ⟨w, w', hchanged, fun hharmless => hchanged (hiff.mpr (.inr hharmless))⟩

/-- The cut request creates "a". -/
theorem cut_off_creates : ∃ w w' tr, Reachable Qsort.insertion 1 10 w ∧
    (serverWorker Qsort.insertion 5).Runs w tr (.ret true) w' ∧
    5 < (requestBytes w.st openAb [97, 98] 0 []).length ∧
    Whole ((requestBytes w.st openAb [97, 98] 0 []).take 5) tr ∧
    ¬ SameContents w.st w'.st := by
  obtain ⟨w, w', hw, hrun, hwhole, -, hnil, hone, -⟩ := open_ab_cut
  exact ⟨w, w', _, hw, hrun, by simp [length_openAb], hwhole,
    not_sameContents_of_created hnil hone⟩

end LsoStore
