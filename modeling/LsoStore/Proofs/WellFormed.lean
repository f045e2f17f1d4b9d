import LsoStore.Proofs.Accounting
import LsoStore.Proofs.OrderedBuckets
import LsoStore.Proofs.Moves

/-!
# The storage a server can be in

`WellFormed` collects what holds of the server's storage between requests:
the counters are exact, the records alive are the stored ones, a file's key
in the table is its path, and the buckets are sorted. Every move a request
makes keeps it, so every run of the server does.

The bucket invariant is where the comparator's oddity shows. Two paths of
which one is a prefix of the other compare equal, so a bucket can be strictly
increasing only while it holds no such pair, and it stays so because the one
insertion of the program follows a failed lookup of the same path. From that,
looking up or removing a stored file's own path finds that very file.
-/

namespace LsoStore

open Proc FileStorage

theorem suStringCompare_strict : StrictComparator suStringCompare where
  self := suStringCompare_self
  swap _ _ := suStringCompare_pos_iff_neg
  trans _ _ _ := suStringCompare_trans

namespace FileStorage

/-- What holds of the server's storage between two requests. -/
structure WellFormed (s : FileStorage) : Prop where
  accounted : s.Accounted
  stored : ∀ a, s.heap a ≠ none → a ∈ s.ptrs
  paths : ∀ it ∈ s.table.items, (s.file it.2).path = it.1
  ordered : s.table.Ordered
  compare : s.table.compare = suStringCompare
  hash : s.table.hash = huHashString

namespace WellFormed

variable {s s' : FileStorage} {a : Nat} {path : List UInt8}

theorem strict (h : s.WellFormed) : StrictComparator s.table.compare :=
  h.compare ▸ suStringCompare_strict

theorem mem_ptrs_iff (h : s.WellFormed) : a ∈ s.ptrs ↔ s.heap a ≠ none :=
  ⟨h.accounted.live a, h.stored a⟩

/-- A stored file is in the table under its path. -/
theorem mem_items (h : s.WellFormed) (ha : a ∈ s.ptrs) :
    ((s.file a).path, a) ∈ s.table.items := by
  obtain ⟨⟨k, a⟩, hm, rfl⟩ := List.mem_map.mp ha
  have hk := h.paths _ hm
  dsimp only at hk ⊢
  rwa [hk]

theorem huGet_path (h : s.WellFormed) (ha : a ∈ s.ptrs) :
    s.table.huGet (s.file a).path = some a :=
  h.ordered.huGet_of_mem h.strict (h.mem_items ha)

/-- Removing a stored file's own path takes out that file, its record and its
share of the counters, and nothing else. -/
theorem fuRemoveFile_path (h : s.WellFormed) (ha : a ∈ s.ptrs) :
    (s.fuRemoveFile (s.file a).path).1 = 0 ∧
    s.ptrs.Perm (a :: (s.fuRemoveFile (s.file a).path).2.ptrs) ∧
    (∀ b, (s.fuRemoveFile (s.file a).path).2.heap b = if b = a then none else s.heap b) ∧
    s.currFiles = (s.fuRemoveFile (s.file a).path).2.currFiles + 1 ∧
    s.currBytes =
      (s.fuRemoveFile (s.file a).path).2.currBytes + (s.file a).dataLen := by
  obtain ⟨k, t, hrem, -, heq⟩ := h.accounted.fuRemoveFile_of_huGet (h.huGet_path ha)
  have hitems := HashTable.huRemove_items hrem
  have hfiles := h.accounted.files
  have hbytes := h.accounted.bytes
  have hle := dataLen_le_storedBytes ha
  rw [hitems.length_eq, List.length_cons] at hfiles
  rw [heq]
  refine ⟨rfl, hitems.map Prod.snd, fun b => ?_, ?_, ?_⟩
  · simp only [fuFreeFileData]
    split
    · rfl
    · next hne => exact modifyFile_heap_of_ne _ _ _ hne
  · show s.currFiles = s.currFiles - 1 + 1
    omega
  · show s.currBytes = s.currBytes - (s.file a).dataLen + (s.file a).dataLen
    omega

theorem huGet_mem_ptrs (hg : s.table.huGet path = some a) : a ∈ s.ptrs := by
  obtain ⟨k, hm, -⟩ := HashTable.huGet_mem hg
  exact List.mem_map.mpr ⟨(k, a), hm, rfl⟩

/-- A removal takes out the file the path leads to. -/
theorem mem_ptrs_fuRemoveFile (h : s.WellFormed) (path : List UInt8)
    {b : Nat} (hb : b ∈ s.ptrs) :
    b ∈ (s.fuRemoveFile path).2.ptrs ↔ b ∉ (s.table.huGet path).toList := by
  cases hget : s.table.huGet path with
  | none => simpa [FileStorage.fuRemoveFile, hget] using hb
  | some a =>
      obtain ⟨k, t, hrem, -, heq⟩ := h.accounted.fuRemoveFile_of_huGet hget
      have hperm : s.ptrs.Perm (a :: (s.fuRemoveFile path).2.ptrs) := by
        rw [heq]
        exact (HashTable.huRemove_items hrem).map Prod.snd
      obtain ⟨hnot, -⟩ := List.nodup_cons.mp (hperm.nodup_iff.mp h.accounted.nodup)
      rw [hperm.mem_iff, List.mem_cons] at hb
      rw [Option.toList_some, List.mem_singleton]
      constructor
      · intro hmem heq
        subst heq
        exact hnot hmem
      · exact hb.resolve_left

/-! ## The moves -/

theorem modifyFile (h : s.WellFormed) (a : Nat) {g : FileData → FileData}
    (hg : ∀ f, (g f).data = f.data ∧ (g f).path = f.path) :
    (s.modifyFile a g).WellFormed where
  accounted := h.accounted.modifyFile a fun f => (hg f).1
  stored b hb := h.stored b (by simpa using hb)
  paths it hit := by
    rw [← h.paths it hit, s.modifyFile_path a g (fun f => (hg f).2)]
  ordered := h.ordered
  compare := h.compare
  hash := h.hash

/-- A record made and given up again leaves a used address behind. -/
theorem place_fuFreeFileData (h : s.WellFormed) (f : FileData) :
    (s.place f).2.fuFreeFileData s.next = { s with next := s.next + 1 } := by
  simp only [place, fuFreeFileData]
  congr 1
  funext x
  split
  · next hx => rw [hx, h.accounted.fresh s.next (Nat.le_refl _)]
  · rfl

theorem discard (h : s.WellFormed) (f : FileData) :
    ((s.place f).2.fuFreeFileData s.next).WellFormed := by
  rw [h.place_fuFreeFileData f]
  refine ⟨?_, h.stored, h.paths, h.ordered, h.compare, h.hash⟩
  have ha := h.accounted
  exact ⟨ha.nodup, ha.live, fun a hle => ha.fresh a (Nat.le_of_succ_le hle), ha.files,
    ha.bytes, ha.files_le, ha.bytes_le, ha.maxFiles_lt, ha.maxBytes_lt, ha.entries⟩

/-- The storage after an empty record went in. -/
theorem fuAddFile_place_eq {f : FileData} (hd : f.data = [])
    (hf : s.fuStorageFilesAvailable ≠ 0) :
    ((s.place f).2.fuAddFile s.next path).2 =
      { (s.place { f with path := path }).2 with
        table := s.table.huInsert path s.next
        currFiles := SizeT.add s.currFiles 1
        currBytes := SizeT.add s.currBytes 0 } := by
  have havail : (s.place f).2.fuStorageFilesAvailable ≠ 0 := hf
  have hlen : ¬ ((s.place f).2.file s.next).dataLen >
      (s.place f).2.fuStorageBytesAvailable := by
    rw [place_file, FileData.dataLen, hd]
    exact Nat.not_lt_zero _
  rw [fuAddFile, if_neg havail, if_neg hlen]
  dsimp only
  rw [place_modifyFile, place_file]
  simp only [FileData.dataLen, hd, List.length_nil]
  rfl

theorem create (h : s.WellFormed) {f : FileData} (hd : f.data = [])
    (hn : s.table.huGet path = none) :
    ((s.place f).2.fuAddFile s.next path).2.WellFormed := by
  by_cases hfull : s.fuStorageFilesAvailable = 0
  · have havail : (s.place f).2.fuStorageFilesAvailable = 0 := hfull
    rw [fuAddFile, if_pos havail]
    exact h.discard f
  · have hacc := (h.accounted.place f).fuAddFile (f := f) (a := s.next)
      (h.accounted.not_mem_of_next_le (Nat.le_refl _)) (by simp [FileStorage.place]) path
    have hpos : 0 < s.table.nEntries := h.accounted.entries (by
      have := h.accounted.filesAvailable
      omega)
    rw [fuAddFile_place_eq hd hfull] at hacc ⊢
    have hitems := HashTable.huInsert_items hpos path s.next
    refine ⟨hacc, ?_, ?_, h.ordered.huInsert h.strict hn, h.compare, h.hash⟩
    · intro b hb
      show b ∈ (s.table.huInsert path s.next).items.map Prod.snd
      rw [(hitems.map Prod.snd).mem_iff, List.map_cons, List.mem_cons]
      by_cases hbn : b = s.next
      · exact .inl hbn
      · refine .inr (h.stored b ?_)
        simpa [FileStorage.place, hbn] using hb
    · intro it hit
      rcases List.mem_cons.mp (hitems.mem_iff.mp hit) with rfl | hit
      · simp [FileStorage.place, file]
      · have hne : it.2 ≠ s.next := fun e =>
          h.accounted.not_mem_of_next_le e.ge (List.mem_map.mpr ⟨it, hit, rfl⟩)
        rw [← h.paths it hit]
        simp [FileStorage.place, file, hne]

theorem ptrs_create (h : s.WellFormed) {f : FileData} (hd : f.data = [])
    (hf : s.fuStorageFilesAvailable ≠ 0) :
    ((s.place f).2.fuAddFile s.next path).2.ptrs.Perm (s.next :: s.ptrs) := by
  have hpos : 0 < s.table.nEntries := h.accounted.entries (by
    have := h.accounted.filesAvailable
    omega)
  rw [fuAddFile_place_eq hd hf]
  exact (HashTable.huInsert_items hpos path s.next).map Prod.snd

theorem mem_ptrs_create (h : s.WellFormed) {f : FileData} (hd : f.data = [])
    (hf : s.fuStorageFilesAvailable ≠ 0) :
    s.next ∈ ((s.place f).2.fuAddFile s.next path).2.ptrs :=
  (h.ptrs_create hd hf).mem_iff.mpr (List.mem_cons_self ..)

theorem fuRemoveFile (h : s.WellFormed) (path : List UInt8) :
    (s.fuRemoveFile path).2.WellFormed := by
  have hacc := h.accounted.fuRemoveFile path
  cases hget : s.table.huGet path with
  | none => simpa [FileStorage.fuRemoveFile, hget] using h
  | some a =>
      obtain ⟨k, t, hrem, hmem, heq⟩ := h.accounted.fuRemoveFile_of_huGet hget
      rw [heq] at hacc ⊢
      have hitems := HashTable.huRemove_items hrem
      have hptrs : s.ptrs.Perm (a :: t.items.map Prod.snd) := hitems.map Prod.snd
      obtain ⟨hnot, -⟩ := List.nodup_cons.mp (hptrs.nodup_iff.mp h.accounted.nodup)
      obtain ⟨-, hhash, hcomp⟩ := HashTable.huRemove_fields hrem
      refine ⟨hacc, ?_, ?_, h.ordered.huRemove hrem, hcomp.trans h.compare,
        hhash.trans h.hash⟩
      · intro b hb
        have hba : b ≠ a := fun e => hb (by simp [FileStorage.fuFreeFileData, e])
        have hlive : s.heap b ≠ none := by
          simpa [FileStorage.fuFreeFileData, hba, modifyFile_heap] using hb
        rcases List.mem_cons.mp (hptrs.mem_iff.mp (h.stored b hlive)) with rfl | hb'
        · exact absurd rfl hba
        · exact hb'
      · intro it hit
        have hne : it.2 ≠ a := fun e => hnot (e ▸ List.mem_map.mpr ⟨it, hit, rfl⟩)
        rw [← h.paths it (hitems.mem_iff.mpr (List.mem_cons_of_mem _ hit))]
        simp [FileStorage.fuFreeFileData, file, hne, modifyFile_heap]

theorem rewrite (h : s.WellFormed) {n : Nat} {g : FileData → FileData} (ha : s.heap a ≠ none)
    (hg : ∀ f, s.heap a = some f → (g f).dataLen = n) (hpath : ∀ f, (g f).path = f.path)
    (hfit : s.currBytes - (s.file a).dataLen + n ≤ s.maxBytes) :
    WellFormed
      { s.modifyFile a g with currBytes := s.currBytes - (s.file a).dataLen + n } where
  accounted := h.accounted.rewrite (h.stored a ha) hg hfit
  stored b hb := h.stored b (by simpa using hb)
  paths it hit := by
    rw [← h.paths it hit]
    exact s.modifyFile_path a g hpath it.2
  ordered := h.ordered
  compare := h.compare
  hash := h.hash

theorem fuWritefile (h : s.WellFormed) {i : Nat} {data : Option (List UInt8)} {r : Int}
    (ha : s.heap a ≠ none) (hlen : ∀ d, data = some d → d.length ≤ muLimit)
    (hw : s.fuWritefile a i data = some (r, s')) : s'.WellFormed := by
  rcases h.accounted.fuWritefile_cases (h.stored a ha) hlen hw with
    ⟨rfl, -⟩ | ⟨rfl, -⟩ | ⟨-, d, -, hi, hfit, -, rfl⟩
  · exact h
  · exact h.modifyFile a fun _ => ⟨rfl, rfl⟩
  · exact h.rewrite ha (fun f hf => Accounted.length_take_append s d hi hf) (fun _ => rfl) hfit

theorem move {opened : Option (List UInt8)} (h : s.WellFormed) (hm : Move opened s s') :
    s'.WellFormed := by
  cases hm with
  | touch a g hg => exact h.modifyFile a hg
  | create path f _ hn hd => exact h.create hd hn
  | discard f => exact h.discard f
  | remove path => exact h.fuRemoveFile path
  | write a i data r _ ha hlen hw => exact h.fuWritefile ha hlen hw

theorem moves {opened : Option (List UInt8)} (h : s.WellFormed) (hm : Moves opened s s') :
    s'.WellFormed := by
  induction hm with
  | refl => exact h
  | tail _ hlast ih => exact ih.move hlast

theorem fuGetfile (h : s.WellFormed) (path : List UInt8) : (s.fuGetfile path).2.WellFormed :=
  h.moves ((Moves.refl none s).getfile path)

/-- What `fu_init_file_storage` makes. -/
theorem fuInitFileStorage_empty {maxFiles maxBytes : Nat}
    (h : fuInitFileStorage maxFiles maxBytes = some s) :
    s.table.items = [] ∧ s.table.compare = suStringCompare ∧ s.table.hash = huHashString ∧
      (∀ a, s.heap a = none) ∧ ∀ b ∈ s.table.table, b = [] := by
  rw [fuInitFileStorage, fuInitFileStorageWith] at h
  split at h
  · injection h with h
    subst h
    simp [HashTable.items]
  · dsimp only at h
    split at h
    · cases h
    · injection h with h
      subst h
      simp [HashTable.items]

theorem init {maxFiles maxBytes : Nat} (hf : maxFiles < 2 ^ 32) (hb : maxBytes < 2 ^ 32)
    (h : fuInitFileStorage maxFiles maxBytes = some s) : s.WellFormed := by
  have hacc := accounted_init hf hb h
  obtain ⟨hitems, hcomp, hhash, hheap, htab⟩ := fuInitFileStorage_empty h
  refine ⟨hacc, fun a ha => absurd (hheap a) ha, ?_, ⟨?_, ?_⟩, hcomp, hhash⟩
  · simp [hitems]
  · intro i b hi it hit
    rw [htab b (List.mem_of_getElem? hi)] at hit
    cases hit
  · intro b hmem
    rw [htab b hmem]
    exact List.Pairwise.nil

/-- No stored contents are longer than what can be allocated. -/
theorem length_data_le_move {opened : Option (List UInt8)} (h : s.WellFormed)
    (hm : Move opened s s') (hs : ∀ b f, s.heap b = some f → f.data.length ≤ muLimit)
    {b : Nat} {f : FileData} (hf : s'.heap b = some f) : f.data.length ≤ muLimit := by
  have hmodify : ∀ (a : Nat) (g : FileData → FileData),
      (∀ f, s.heap a = some f → (g f).data.length ≤ muLimit) →
      (s.modifyFile a g).heap b = some f → f.data.length ≤ muLimit := by
    intro a g hg hf
    rw [modifyFile_heap] at hf
    split at hf
    · next hb =>
        obtain ⟨f₀, hf₀, rfl⟩ := Option.map_eq_some_iff.mp hf
        exact hg f₀ (hb ▸ hf₀)
    · exact hs b f hf
  cases hm with
  | touch a g hg => exact hmodify a g (fun f hf => (hg f).1 ▸ hs a f hf) hf
  | create path f₀ _ hn hd =>
      have hplace : (s.place { f₀ with path := path }).2.heap b = some f →
          f.data.length ≤ muLimit := by
        intro hf
        simp only [place] at hf
        split at hf
        · injection hf with hf
          simp [← hf, hd]
        · exact hs b f hf
      by_cases hfull : s.fuStorageFilesAvailable = 0
      · have havail : (s.place f₀).2.fuStorageFilesAvailable = 0 := hfull
        rw [fuAddFile, if_pos havail] at hf
        dsimp only at hf
        rw [h.place_fuFreeFileData] at hf
        exact hs b f hf
      · rw [fuAddFile_place_eq hd hfull] at hf
        exact hplace hf
  | discard f₀ =>
      rw [h.place_fuFreeFileData] at hf
      exact hs b f hf
  | remove path =>
      cases hget : s.table.huGet path with
      | none =>
          simp only [FileStorage.fuRemoveFile, hget] at hf
          exact hs b f hf
      | some a =>
          obtain ⟨k, t, -, -, heq⟩ := h.accounted.fuRemoveFile_of_huGet hget
          rw [heq] at hf
          simp only [fuFreeFileData] at hf
          split at hf
          · cases hf
          · exact hmodify a (fun f => { f with dataInfo := f.dataInfo + 1 }) (hs a) hf
  | write a i data r _ ha hlen hw =>
      rcases h.accounted.fuWritefile_cases (h.stored a ha) hlen hw with
        ⟨rfl, -⟩ | ⟨rfl, -⟩ | ⟨-, d, -, -, -, hmax, rfl⟩
      · exact hs b f hf
      · exact hmodify a (fun f => { f with dataInfo := f.dataInfo + 1 }) (hs a) hf
      · refine hmodify a _ (fun f₀ _ => ?_) hf
        simp only [List.length_append, List.length_take]
        omega

theorem length_data_le_moves {opened : Option (List UInt8)} (h : s.WellFormed)
    (hm : Moves opened s s') (hs : ∀ b f, s.heap b = some f → f.data.length ≤ muLimit) :
    ∀ b f, s'.heap b = some f → f.data.length ≤ muLimit := by
  induction hm with
  | refl => exact hs
  | tail hms hm ih => exact fun b f hf => (h.moves hms).length_data_le_move hm ih hf

end WellFormed

end FileStorage

/-! ## Runs of the server -/

/-- One request, what its calls returned, and the world around it. -/
structure ServedRequest where
  request : SMessage
  client : Int
  trace : List (Event Mutex)
  before : World FileStorage Mutex
  after : World FileStorage Mutex

/-- A server that started on an empty storage and has handled some requests,
one at a time. -/
inductive ServerRun (qsort : Qsort Nat) (maxFiles maxBytes : Nat) :
    List ServedRequest → World FileStorage Mutex → Prop where
  | init (s : FileStorage) : maxFiles < 2 ^ 32 → maxBytes < 2 ^ 32 →
      fuInitFileStorage maxFiles maxBytes = some s →
      ServerRun qsort maxFiles maxBytes [] ⟨s, ∅⟩
  | serve (past : List ServedRequest) (w w' : World FileStorage Mutex) (request : SMessage)
      (client : Int) (tr : List (Event Mutex)) (r : Int) :
      ServerRun qsort maxFiles maxBytes past w →
      (serve qsort request client).Runs w tr (.ret r) w' →
      ServerRun qsort maxFiles maxBytes (past ++ [⟨request, client, tr, w, w'⟩]) w'

/-- The worlds a server can be in between two requests. -/
def Reachable (qsort : Qsort Nat) (maxFiles maxBytes : Nat)
    (w : World FileStorage Mutex) : Prop :=
  ∃ past, ServerRun qsort maxFiles maxBytes past w

variable {qsort : Qsort Nat} {maxFiles maxBytes : Nat} {w : World FileStorage Mutex}

theorem Reachable.init {s : FileStorage} (hf : maxFiles < 2 ^ 32) (hb : maxBytes < 2 ^ 32)
    (hs : fuInitFileStorage maxFiles maxBytes = some s) :
    Reachable qsort maxFiles maxBytes ⟨s, ∅⟩ :=
  ⟨[], .init s hf hb hs⟩

theorem Reachable.serve {w' : World FileStorage Mutex} {r : Int}
    (h : Reachable qsort maxFiles maxBytes w) (request : SMessage) (client : Int)
    (tr : List (Event Mutex))
    (hr : (serve qsort request client).Runs w tr (.ret r) w') :
    Reachable qsort maxFiles maxBytes w' := by
  obtain ⟨past, hrun⟩ := h
  exact ⟨_, hrun.serve past w w' request client tr r hr⟩

/-! Requests of a client that go well, as the server sees them: a new file is
opened, a file is written where there is room for it, and closed. -/

section Requests

variable {w' : World FileStorage Mutex} (h : Reachable qsort maxFiles maxBytes w) (client : Int)
  (path : List UInt8)

include h

theorem Reachable.created
    (hr : (LsoStore.serve qsort
        (sapiMessageLen oCreate sapiOpenFile (BitVec.ofNat 32 path.length)) client).Runs w
      [.read path.length (some path), .write (.word sapiSuccess) true] (.ret 0) w') :
    Reachable qsort maxFiles maxBytes w' := h.serve _ client _ hr

theorem Reachable.written (data : List UInt8)
    (hr : (LsoStore.serve qsort
        (sapiMessageLen 0 sapiWriteFile (BitVec.ofNat 32 path.length)) client).Runs w
      [.read path.length (some path), .read 8 (some (LittleEndian.encode 8 data.length)),
        .write (.word sapiSuccess) true, .read data.length (some data),
        .write (.word sapiSuccess) true] (.ret 0) w') :
    Reachable qsort maxFiles maxBytes w' := h.serve _ client _ hr

theorem Reachable.closed
    (hr : (LsoStore.serve qsort
        (sapiMessageLen 0 sapiCloseFile (BitVec.ofNat 32 path.length)) client).Runs w
      [.read path.length (some path), .write (.word sapiSuccess) true] (.ret 0) w') :
    Reachable qsort maxFiles maxBytes w' := h.serve _ client _ hr

end Requests

theorem ServerRun.wellFormed {past : List ServedRequest}
    (h : ServerRun qsort maxFiles maxBytes past w) : w.st.WellFormed := by
  induction h with
  | init s hf hb hs => exact .init hf hb hs
  | serve past w w' request client tr r _ hr ih =>
      exact ih.moves (serve_moves qsort request client tr _ w' hr)

theorem Reachable.wellFormed (h : Reachable qsort maxFiles maxBytes w) :
    w.st.WellFormed := by
  obtain ⟨past, hrun⟩ := h
  exact hrun.wellFormed

theorem Reachable.length_data_le (h : Reachable qsort maxFiles maxBytes w) {a : Nat}
    {f : FileData} (hf : w.st.heap a = some f) : f.data.length ≤ muLimit := by
  obtain ⟨past, hrun⟩ := h
  induction hrun generalizing a f with
  | init s hmf hmb hs => simp [(WellFormed.fuInitFileStorage_empty hs).2.2.2.1] at hf
  | serve past w w' request client tr r hrun hr ih =>
      have hmoves := serve_moves qsort request client tr _ w' hr
      exact hrun.wellFormed.length_data_le_moves hmoves (fun _ _ hf => ih hf) a f hf

end LsoStore
