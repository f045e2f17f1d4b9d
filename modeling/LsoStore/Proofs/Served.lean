import LsoStore.Lib.Exchange
import LsoStore.Transfer
import LsoStore.Proofs.Dialogues

/-!
# Calls that are answered

What one call comes to when no mutex is held before it: its answer, the storage
it leaves, and nothing left to read on either stream. Each handler is followed
to its end once, and `Exchanges` then puts the call and the server's turn
together.
-/

namespace LsoStore

open Proc Talk FileStorage

/-- The handler reads all of `ts`, sends `tc` and leaves `s'` with no mutex held. -/
def AnswersWith (q : ServerM Int) (s : FileStorage) (ts tc : Inbox) (s' : FileStorage) : Prop :=
  ∃ r, ∀ (p : ClientM Int) w,
    Leads ⟨p, w, q, ⟨s, ∅⟩, ts, []⟩ ⟨p, w, .ret r, ⟨s', ∅⟩, [], tc⟩

/-- The record at `a` belongs to `c` now and holds what it held, and nothing
else has changed. -/
def Touched (s : FileStorage) (a : Nat) (c : Int) (s' : FileStorage) : Prop :=
  ∃ g : FileData → FileData, (∀ f, (g f).data = f.data ∧ (g f).path = f.path) ∧
    (g (s.file a)).client = c ∧ s' = s.modifyFile a g

namespace Touched

variable {s s' s'' : FileStorage} {a x : Nat} {c c' : Int}

theorem wellFormed (h : Touched s a c s') (hwf : s.WellFormed) : s'.WellFormed := by
  obtain ⟨g, hg, -, rfl⟩ := h
  exact hwf.modifyFile a hg

theorem table (h : Touched s a c s') : s'.table = s.table := by
  obtain ⟨g, -, -, rfl⟩ := h
  rfl

theorem data (h : Touched s a c s') (x : Nat) : (s'.file x).data = (s.file x).data := by
  obtain ⟨g, hg, -, rfl⟩ := h
  exact s.modifyFile_data a g (fun f => (hg f).1) x

theorem heap (h : Touched s a c s') : s'.heap x = none ↔ s.heap x = none := by
  obtain ⟨g, -, -, rfl⟩ := h
  exact s.modifyFile_heap_eq_none a g

theorem client_self (h : Touched s a c s') (ha : s.heap a ≠ none) : (s'.file a).client = c := by
  obtain ⟨g, -, rfl, rfl⟩ := h
  obtain ⟨f, hf⟩ := Option.ne_none_iff_exists'.mp ha
  rw [modifyFile_file_self s a g hf, file_eq s hf]

theorem file_of_ne (h : Touched s a c s') (hx : x ≠ a) : s'.file x = s.file x := by
  obtain ⟨g, -, -, rfl⟩ := h
  exact s.modifyFile_file_of_ne a g hx

theorem client_eq (h : Touched s a c s') (ha : s.heap a ≠ none) (hc : c = (s.file a).client)
    (x : Nat) : (s'.file x).client = (s.file x).client := by
  by_cases hx : x = a
  · rw [hx, h.client_self ha, hc]
  · rw [h.file_of_ne hx]

theorem trans (h : Touched s a c s') (h' : Touched s' a c' s'') (ha : s.heap a ≠ none) :
    Touched s a c' s'' := by
  obtain ⟨g, hg, -, rfl⟩ := h
  obtain ⟨g', hg', hc, rfl⟩ := h'
  obtain ⟨f, hf⟩ := Option.ne_none_iff_exists'.mp ha
  refine ⟨g' ∘ g, fun f => ?_, ?_, s.modifyFile_modifyFile a g g'⟩
  · exact ⟨(hg' (g f)).1.trans (hg f).1, (hg' (g f)).2.trans (hg f).2⟩
  · rw [modifyFile_file_self s a g hf] at hc
    rwa [Function.comp_apply, file_eq s hf]

/-- A lookup. -/
theorem getfile {path : List UInt8} (hget : s.table.huGet path = some a)
    (hc : (s.file a).client = c) : Touched s a c (s.fuGetfile path).2 := by
  refine ⟨fun f => { f with dataInfo := f.dataInfo + 1 }, fun _ => ⟨rfl, rfl⟩, hc, ?_⟩
  rw [fuGetfile_snd, hget]

theorem modify (s : FileStorage) (a : Nat) {g : FileData → FileData}
    (hg : ∀ f, (g f).data = f.data ∧ (g f).path = f.path) (hc : ∀ f, (g f).client = c) :
    Touched s a c (s.modifyFile a g) :=
  ⟨g, hg, hc _, rfl⟩

end Touched

/-- There is one more file, at `a` under `path`, and the others are as they were. -/
structure Grown (s : FileStorage) (path data : List UInt8) (c : Int) (a : Nat)
    (s' : FileStorage) : Prop where
  wellFormed : s'.WellFormed
  ptrs : s'.ptrs.Perm (a :: s.ptrs)
  fresh : a ∉ s.ptrs
  currFiles : s'.currFiles = s.currFiles + 1
  currBytes : s'.currBytes = s.currBytes + data.length
  maxFiles : s'.maxFiles = s.maxFiles
  maxBytes : s'.maxBytes = s.maxBytes
  path : (s'.file a).path = path
  data : (s'.file a).data = data
  client : (s'.file a).client = c
  same : ∀ x ∈ s.ptrs, s'.file x = s.file x

namespace Grown

variable {s s' s'' : FileStorage} {path data : List UInt8} {c c' : Int} {a : Nat}

theorem mem (h : Grown s path data c a s') : a ∈ s'.ptrs :=
  h.ptrs.mem_iff.mpr (List.mem_cons_self ..)

theorem huGet (h : Grown s path data c a s') : s'.table.huGet path = some a := by
  have hget := h.wellFormed.huGet_path h.mem
  rwa [h.path] at hget

theorem create {f : FileData} (hwf : s.WellFormed) (hd : f.data = []) (hc : f.client = c)
    (hget : s.table.huGet path = none) (hroom : s.fuStorageFilesAvailable ≠ 0) :
    Grown s path [] c s.next ((s.place f).2.fuAddFile s.next path).2 := by
  have hadd := @WellFormed.fuAddFile_place_eq s path f hd hroom
  have hplaced : (s.place { f with path := path }).2.file s.next = { f with path := path } :=
    s.place_file _
  have hnext := hwf.accounted.not_mem_of_next_le (Nat.le_refl _)
  have hfiles := hwf.accounted.currFiles_lt
  have hbytes := hwf.accounted.currBytes_lt
  have havail := hwf.accounted.filesAvailable
  have hmax := hwf.accounted.maxFiles_lt
  rw [hadd]
  refine ⟨hadd ▸ hwf.create hd hget, hadd ▸ hwf.ptrs_create hd hroom, hnext,
    SizeT.add_of_lt (by simp only [SizeT.bound]; omega), SizeT.add_of_lt hbytes, rfl, rfl,
    congrArg FileData.path hplaced, (congrArg FileData.data hplaced).trans hd,
    (congrArg FileData.client hplaced).trans hc, fun x hx => ?_⟩
  have hne : x ≠ s.next := fun he => hnext (he ▸ hx)
  show (s.place { f with path := path }).2.file x = s.file x
  simp [FileStorage.place, FileStorage.file, hne]

/-- The new file changes hands. -/
theorem touched (h : Grown s path data c a s') (ht : Touched s' a c' s'') :
    Grown s path data c' a s'' := by
  have hpath : (s''.file a).path = (s'.file a).path := by
    obtain ⟨g, hg, -, rfl⟩ := ht
    exact s'.modifyFile_path a g (fun f => (hg f).2) a
  have hne : ∀ x ∈ s.ptrs, x ≠ a := fun x hx he => h.fresh (he ▸ hx)
  refine ⟨ht.wellFormed h.wellFormed, ?_, h.fresh, ?_, ?_, ?_, ?_, hpath.trans h.path,
    (ht.data a).trans h.data, ht.client_self (h.wellFormed.accounted.live a h.mem),
    fun x hx => (ht.file_of_ne (hne x hx)).trans (h.same x hx)⟩
  · rw [FileStorage.ptrs, ht.table]
    exact h.ptrs
  · obtain ⟨g, -, -, rfl⟩ := ht
    exact h.currFiles
  · obtain ⟨g, -, -, rfl⟩ := ht
    exact h.currBytes
  · obtain ⟨g, -, -, rfl⟩ := ht
    exact h.maxFiles
  · obtain ⟨g, -, -, rfl⟩ := ht
    exact h.maxBytes

end Grown

/-! ## The handlers -/

section Handlers

variable {σ μ α : Type} [DecidableEq μ] {Q : Talk σ μ α FileStorage Mutex Int → Prop}
  {p : Proc σ μ α} {w : World σ μ} {s : FileStorage} {ts tc : Inbox} {client : Int}
  {message : SMessage} {path : List UInt8} {a : Nat}

/-- The path of a request, as it is stored on the client's side. -/
structure SentPath (message : SMessage) (path : List UInt8) : Prop where
  ne : path ≠ []
  text : (0 : UInt8) ∉ path
  short : path.length + 1 ≤ muLimit
  len : lenOf message = path.length

theorem SentPath.flows_getPath (h : SentPath message path) (hm : message ≠ 0) (hc : client ≠ 0)
    {k : Option (List UInt8) → ServerM Int} {v : World FileStorage Mutex} :
    Flows Q ⟨p, w, serverGetPath message client >>= k, v, path :: ts, tc⟩ ↔
      Flows Q ⟨p, w, k (some path), v, ts, tc⟩ := by
  rw [flows_serverGetPath_bind hm hc h.len h.ne (by have := h.short; omega),
    cString_of_not_mem h.text]

/-- A handler that looks a file up, up to where it has the file's mutex. -/
theorem flows_found (hwf : s.WellFormed) (hc : client ≠ 0) (hm : message ≠ 0)
    (hp : SentPath message path) (hget : s.table.huGet path = some a)
    {k : Option (List UInt8) → ServerM Int} {k' : Option Nat → ServerM Int}
    {k'' : FileData → ServerM Int} (hk : k (some path) = LsoStore.getfile path k')
    (hk' : k' (some a) = .lock (.file a) (deref a k'')) :
    Flows Q ⟨p, w, serverGetPath message client >>= k, ⟨s, ∅⟩, path :: ts, tc⟩ ↔
      Flows Q ⟨p, w, k'' ((s.fuGetfile path).2.file a),
        ⟨(s.fuGetfile path).2, insert (.file a) ∅⟩, ts, tc⟩ := by
  have hlive : (s.fuGetfile path).2.heap a ≠ none := by
    rw [ne_eq, (Touched.getfile hget rfl).heap]
    exact hwf.accounted.live a (WellFormed.huGet_mem_ptrs hget)
  obtain ⟨f, hf⟩ := Option.ne_none_iff_exists'.mp hlive
  rw [hp.flows_getPath hm hc, hk, flows_getfile]
  dsimp only
  rw [hget, hk', flows_server_lock (Finset.notMem_empty _), flows_deref (f := f) hf,
    file_eq _ hf]

/-- And one that finds nothing. -/
theorem flows_missing (hc : client ≠ 0) (hm : message ≠ 0) (hp : SentPath message path)
    (hget : s.table.huGet path = none)
    {k : Option (List UInt8) → ServerM Int} {k' : Option Nat → ServerM Int}
    (hk : k (some path) = LsoStore.getfile path k') :
    Flows Q ⟨p, w, serverGetPath message client >>= k, ⟨s, ∅⟩, path :: ts, tc⟩ ↔
      Flows Q ⟨p, w, k' none, ⟨s, ∅⟩, ts, tc⟩ := by
  have hst : (s.fuGetfile path).2 = s := by rw [fuGetfile_snd, hget]
  rw [hp.flows_getPath hm hc, hk, flows_getfile]
  dsimp only
  rw [hget, hst]

theorem held_unlock (m : Mutex) : (insert m (∅ : Finset Mutex)).erase m = ∅ :=
  Finset.erase_insert (Finset.notMem_empty m)

end Handlers

section AnswersWith

variable {s : FileStorage} {client : Int} {message : SMessage} {path : List UInt8} {a : Nat}

/-- The word an answer is sent as. -/
def answerWord (m : SMessage) : Inbox := [LittleEndian.encode 4 m.toNat]

theorem openFile_missing (hc : client ≠ 0) (hm : message ≠ 0) (hp : SentPath message path)
    (hget : s.table.huGet path = none) (hflag : hasFlag message oCreate = false) :
    AnswersWith (serverOpenFile message client) s [path] (answerWord sapiFnf) s := by
  refine ⟨-1, fun p w Q hf => ?_⟩
  rw [serverOpenFile, if_neg (not_or.mpr ⟨hm, hc⟩), flows_missing hc hm hp hget rfl]
  dsimp only
  rw [if_pos (by rw [hflag]; rfl), flows_sapiRespond hc]
  exact hf

/-- A file that is open is not opened again, whoever has it open. -/
theorem openFile_busy (hwf : s.WellFormed) (hc : client ≠ 0) (hm : message ≠ 0)
    (hp : SentPath message path) (hget : s.table.huGet path = some a)
    (hbusy : (s.file a).client ≠ -1) :
    ∃ s', AnswersWith (serverOpenFile message client) s [path] (answerWord sapiAlready) s' ∧
      Touched s a (s.file a).client s' := by
  refine ⟨_, ⟨-1, fun p w Q hf => ?_⟩, .getfile hget rfl⟩
  rw [serverOpenFile, if_neg (not_or.mpr ⟨hm, hc⟩), flows_found hwf hc hm hp hget rfl rfl,
    if_pos (by rwa [(s.fuGetfile_file path a).2.1]), flows_server_unlock, flows_sapiRespond hc]
  dsimp only
  rw [held_unlock]
  exact hf

theorem openFile_free (hwf : s.WellFormed) (hc : client ≠ 0) (hm : message ≠ 0)
    (hp : SentPath message path) (hget : s.table.huGet path = some a)
    (hfree : (s.file a).client = -1) :
    ∃ s', AnswersWith (serverOpenFile message client) s [path] (answerWord sapiSuccess) s' ∧
      Touched s a client s' := by
  have hlive := hwf.accounted.live a (WellFormed.huGet_mem_ptrs hget)
  have hopened : Touched (s.fuGetfile path).2 a client
      ((s.fuGetfile path).2.modifyFile a (·.openedBy message client)) := by
    refine .modify _ a (fun f => ?_) fun f => ?_
    · rw [FileData.openedBy]
      split
      · exact ⟨rfl, rfl⟩
      · exact ⟨rfl, rfl⟩
    · rw [FileData.openedBy]
  refine ⟨_, ⟨0, fun p w Q hf => ?_⟩, (Touched.getfile hget rfl).trans hopened hlive⟩
  rw [serverOpenFile, if_neg (not_or.mpr ⟨hm, hc⟩), flows_found hwf hc hm hp hget rfl rfl,
    if_neg (by rwa [(s.fuGetfile_file path a).2.1, not_not]), flows_takeOwnership,
    flows_server_unlock, flows_sapiRespond hc]
  dsimp only
  rw [held_unlock]
  exact hf

theorem closeFile_missing (hc : client ≠ 0) (hm : message ≠ 0) (hp : SentPath message path)
    (hget : s.table.huGet path = none) :
    AnswersWith (serverCloseFile message client) s [path] (answerWord sapiFnf) s := by
  refine ⟨1, fun p w Q hf => ?_⟩
  rw [serverCloseFile, if_neg (not_or.mpr ⟨hm, hc⟩), flows_missing hc hm hp hget rfl]
  dsimp only
  rw [flows_sapiRespond hc]
  exact hf

theorem closeFile_foreign (hwf : s.WellFormed) (hc : client ≠ 0) (hm : message ≠ 0)
    (hp : SentPath message path) (hget : s.table.huGet path = some a)
    (hforeign : (s.file a).client ≠ client) :
    ∃ s', AnswersWith (serverCloseFile message client) s [path] (answerWord sapiLocked) s' ∧
      Touched s a (s.file a).client s' := by
  refine ⟨_, ⟨1, fun p w Q hf => ?_⟩, .getfile hget rfl⟩
  rw [serverCloseFile, if_neg (not_or.mpr ⟨hm, hc⟩), flows_found hwf hc hm hp hget rfl rfl,
    if_pos (by rwa [(s.fuGetfile_file path a).2.1]), flows_server_unlock, flows_sapiRespond hc]
  dsimp only
  rw [held_unlock]
  exact hf

theorem closeFile_own (hwf : s.WellFormed) (hc : client ≠ 0) (hm : message ≠ 0)
    (hp : SentPath message path) (hget : s.table.huGet path = some a)
    (hown : (s.file a).client = client) :
    ∃ s', AnswersWith (serverCloseFile message client) s [path] (answerWord sapiSuccess) s' ∧
      Touched s a (-1) s' := by
  have hlive := hwf.accounted.live a (WellFormed.huGet_mem_ptrs hget)
  have hclosed : Touched (s.fuGetfile path).2 a (-1)
      ((s.fuGetfile path).2.modifyFile a fun f => { f with client := -1 }) :=
    .modify _ a (fun _ => ⟨rfl, rfl⟩) fun _ => rfl
  refine ⟨_, ⟨0, fun p w Q hf => ?_⟩, (Touched.getfile hget rfl).trans hclosed hlive⟩
  rw [serverCloseFile, if_neg (not_or.mpr ⟨hm, hc⟩), flows_found hwf hc hm hp hget rfl rfl,
    if_neg (by rwa [(s.fuGetfile_file path a).2.1, not_not]), flows_assign,
    flows_server_unlock, flows_sapiRespond hc]
  dsimp only
  rw [held_unlock]
  exact hf

theorem readFile_missing (hc : client ≠ 0) (hm : message ≠ 0) (hp : SentPath message path)
    (hget : s.table.huGet path = none) :
    AnswersWith (serverReadFile message client) s [path] (answerWord sapiFnf) s := by
  refine ⟨1, fun p w Q hf => ?_⟩
  rw [serverReadFile, if_neg (not_or.mpr ⟨hm, hc⟩), flows_missing hc hm hp hget rfl]
  dsimp only
  rw [flows_sapiRespond hc]
  exact hf

theorem readFile_foreign (hwf : s.WellFormed) (hc : client ≠ 0) (hm : message ≠ 0)
    (hp : SentPath message path) (hget : s.table.huGet path = some a)
    (hzero : (s.file a).client ≠ 0) (hforeign : (s.file a).client ≠ client) :
    ∃ s', AnswersWith (serverReadFile message client) s [path] (answerWord sapiLocked) s' ∧
      Touched s a (s.file a).client s' := by
  refine ⟨_, ⟨3, fun p w Q hf => ?_⟩, .getfile hget rfl⟩
  rw [serverReadFile, if_neg (not_or.mpr ⟨hm, hc⟩), flows_found hwf hc hm hp hget rfl rfl,
    if_pos (.inl (by rw [(s.fuGetfile_file path a).2.1]; exact ⟨hzero, hforeign⟩)),
    flows_server_unlock, flows_sapiRespond hc]
  dsimp only
  rw [held_unlock]
  exact hf

theorem readFile_own (hwf : s.WellFormed) (hc : client ≠ 0) (hm : message ≠ 0)
    (hp : SentPath message path) (hget : s.table.huGet path = some a)
    (hown : (s.file a).client = client) :
    ∃ s', AnswersWith (serverReadFile message client) s [path]
        (answerWord sapiSuccess ++ dataChunks (s.file a).data) s' ∧
      Touched s a client s' := by
  obtain ⟨hdata, hclient, -⟩ := s.fuGetfile_file path a
  refine ⟨_, ⟨0, fun p w Q hf => ?_⟩, .getfile hget hown⟩
  rw [serverReadFile, if_neg (not_or.mpr ⟨hm, hc⟩), flows_found hwf hc hm hp hget rfl rfl,
    if_neg (by rw [hclient]; exact fun h => h.elim (fun h => h.2 hown) fun h => h.2 hown),
    flows_sapiRespond hc, flows_serverSendData_bind hc, flows_server_unlock, hdata]
  dsimp only
  rw [held_unlock]
  exact hf

/-- A new file, which the client has open. -/
theorem openFile_creates (hwf : s.WellFormed) (hc : client ≠ 0) (hm : message ≠ 0)
    (hp : SentPath message path) (hget : s.table.huGet path = none)
    (hflag : hasFlag message oCreate = true) (hfiles : s.currFiles < s.maxFiles)
    (hbytes : s.currBytes < s.maxBytes) :
    ∃ s', AnswersWith (serverOpenFile message client) s [path] (answerWord sapiSuccess) s' ∧
      Grown s path [] client s.next s' := by
  have hroom : s.fuStorageFilesAvailable ≠ 0 := by
    rw [hwf.accounted.filesAvailable]
    omega
  have hspace : s.fuStorageBytesAvailable ≠ 0 := by
    rw [hwf.accounted.bytesAvailable]
    omega
  set f := FileData.openedBy ⟨[], -1, 0, []⟩ message client
  have hdata : f.data = [] := rfl
  have herr := fuAddFile_place hdata hroom path
  have hfits : ¬ ((s.place f).2.fuStorageBytesAvailable = 0 ∨
      (s.place f).2.fuStorageFilesAvailable = 0) := not_or.mpr ⟨hspace, hroom⟩
  refine ⟨((s.place f).2.fuAddFile s.next path).2, ⟨0, fun p w Q hf => ?_⟩,
    .create hwf hdata rfl hget hroom⟩
  have hnew : (s.fuAllocFileData []).1 = s.next := rfl
  have hs : (s.fuAllocFileData []).2 = (s.place ⟨[], -1, 0, []⟩).2 := rfl
  rw [serverOpenFile, if_neg (not_or.mpr ⟨hm, hc⟩), flows_missing hc hm hp hget rfl]
  dsimp only
  rw [if_neg (by rw [hflag]; decide), serverCreateFile, flows_server_get]
  dsimp only
  rw [hnew, hs, flows_server_set, flows_takeOwnership]
  dsimp only
  rw [place_modifyFile, flows_server_lock (Finset.notMem_empty _), flows_server_get]
  dsimp only
  rw [if_neg hfits, flows_server_set, herr, if_neg (by decide),
    flows_server_unlock, flows_sapiRespond hc]
  dsimp only
  rw [held_unlock]
  exact hf

end AnswersWith

/-! ## Receiving contents -/

section Receive

variable {σ μ α : Type} [DecidableEq μ] {Q : Talk σ μ α FileStorage Mutex Int → Prop}
  {p : Proc σ μ α} {w : World σ μ} {v : World FileStorage Mutex} {ts tc : Inbox} {client : Int}
  {a : Nat} {data : List UInt8}

/-- The storage once the record at `a` holds `data` and nothing else. -/
def FileStorage.rewritten (s : FileStorage) (a : Nat) (data : List UInt8) : FileStorage :=
  { s.modifyFile a (fun f => { f with dataInfo := f.dataInfo + 1, data := data }) with
    currBytes := s.currBytes - (s.file a).dataLen + data.length }

/-- What the record at `a` holds once `data` has been put behind its first bytes, as
many as `offset` says. -/
def FileStorage.contentsAfter (s : FileStorage) (a : Nat) (offset : FileData → Nat)
    (data : List UInt8) : List UInt8 := (s.file a).data.take (offset (s.file a)) ++ data

/-- Of the change only what it makes of the record matters. -/
theorem FileStorage.modifyFile_congr {s : FileStorage} {f : FileData} {g g' : FileData → FileData}
    (hf : s.heap a = some f) (h : g f = g' f) : s.modifyFile a g = s.modifyFile a g' := by
  rw [modifyFile, modifyFile]
  congr 1
  funext x
  by_cases hx : x = a
  · rw [if_pos hx, if_pos hx, hx, hf, Option.map_some, Option.map_some, h]
  · rw [if_neg hx, if_neg hx]

theorem FileStorage.length_contentsAfter (s : FileStorage) (a : Nat) {offset : FileData → Nat}
    (hoff : ∀ f, offset f ≤ f.dataLen) (data : List UInt8) :
    (s.contentsAfter a offset data).length = offset (s.file a) + data.length := by
  have hle : offset (s.file a) ≤ (s.file a).data.length := hoff (s.file a)
  rw [contentsAfter, List.length_append, List.length_take, Nat.min_eq_left hle]

theorem flows_receiveData {offset : FileData → Nat} (hc : client ≠ 0) (hwf : v.st.WellFormed)
    (ha : a ∈ v.st.ptrs) (hoff : ∀ f, offset f ≤ f.dataLen) (hne : data ≠ [])
    (hlim : offset (v.st.file a) + data.length ≤ muLimit)
    (hroom : data.length ≤ v.st.maxBytes - v.st.currBytes) :
    Flows Q ⟨p, w, LsoStore.receiveData client a data.length offset, v, data :: ts, tc⟩ ↔
      Flows (β := Int) Q ⟨p, w, .ret 0,
        ⟨v.st.rewritten a (v.st.contentsAfter a offset data), v.held.erase (.file a)⟩, ts,
        tc ++ answerWord sapiSuccess⟩ := by
  have hpos : 0 < data.length := List.length_pos_of_ne_nil hne
  obtain ⟨f, hf⟩ := Option.ne_none_iff_exists'.mp (hwf.accounted.live a ha)
  have hle := hwf.accounted.dataLen_le ha
  have hoffset := hoff (v.st.file a)
  have hwrite := hwf.accounted.fuWritefile_of_fits ha (d := data) hpos (by omega) hoffset
    (by have := hwf.accounted.bytes_le; omega)
  have hstored : v.st.modifyFile a (fun f => { f with
        dataInfo := f.dataInfo + 1, data := f.data.take (offset (v.st.file a)) ++ data }) =
      v.st.modifyFile a (fun f => { f with
        dataInfo := f.dataInfo + 1, data := v.st.contentsAfter a offset data }) := by
    refine v.st.modifyFile_congr hf ?_
    rw [FileStorage.contentsAfter, file_eq _ hf]
  have hresult : { v.st.modifyFile a (fun f => { f with
        dataInfo := f.dataInfo + 1, data := f.data.take (offset (v.st.file a)) ++ data }) with
      currBytes := v.st.currBytes - (v.st.file a).dataLen +
        (offset (v.st.file a) + data.length) } =
      v.st.rewritten a (v.st.contentsAfter a offset data) := by
    rw [hstored, FileStorage.rewritten, FileStorage.length_contentsAfter _ _ hoff]
  rw [if_neg (by omega), hresult, file_eq _ hf] at hwrite
  rw [receiveData, muCalloc, if_neg (by omega), flows_server_read rfl hpos]
  dsimp only
  rw [flows_deref hf, flows_server_get, if_neg (by omega), Nat.sub_self, List.replicate_zero,
    List.append_nil, hwrite]
  dsimp only
  rw [flows_server_set, if_neg (by decide), flows_serverRespond_bind hc, if_neg (by decide),
    flows_server_unlock]
  rfl

end Receive

end LsoStore
