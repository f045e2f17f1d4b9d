import Mathlib.Algebra.BigOperators.Group.List.Basic
import Mathlib.Data.List.Nodup
import LsoStore.FileUtils

/-!
# The counters tell the truth

Three operations keep two counters next to a table, each with early returns
between the updates. `Accounted` is what ties them together: the counters are
the number and the total length of the stored files and stay below the
limits. It also carries what the counting rests on, that no record is stored
twice, that every stored record is alive, and that addresses from `next` on
have never been used.

Nothing here depends on the hash function or on the comparator. The one fact
about the table is that inserting and removing change its contents by one
item, and that `fu_remove_file`'s three walks stop at the same one.
-/

namespace LsoStore

namespace FileStorage

/-- The bytes of all stored files together. -/
def storedBytes (s : FileStorage) : Nat := (s.ptrs.map fun a => (s.file a).dataLen).sum

/-- The invariant of a storage whose limits are unsigned 32-bit settings. -/
structure Accounted (s : FileStorage) : Prop where
  nodup : s.ptrs.Nodup
  live : ∀ a ∈ s.ptrs, s.heap a ≠ none
  fresh : ∀ a, s.next ≤ a → s.heap a = none
  files : s.currFiles = s.table.items.length
  bytes : s.currBytes = s.storedBytes
  files_le : s.currFiles ≤ s.maxFiles
  bytes_le : s.currBytes ≤ s.maxBytes
  maxFiles_lt : s.maxFiles < 2 ^ 32
  maxBytes_lt : s.maxBytes < 2 ^ 32
  entries : 0 < s.maxFiles → 0 < s.table.nEntries

variable {s s' : FileStorage} {a : Nat} {path : List UInt8}

theorem length_ptrs (s : FileStorage) : s.ptrs.length = s.table.items.length := by
  simp [ptrs]

/-- Setting one stored file's length apart from the rest. -/
theorem storedBytes_split (ha : a ∈ s.ptrs) :
    s.storedBytes =
      (s.file a).dataLen + ((s.ptrs.erase a).map fun b => (s.file b).dataLen).sum := by
  have hp := (List.perm_cons_erase ha).map fun b => (s.file b).dataLen
  rw [storedBytes, hp.sum_eq, List.map_cons, List.sum_cons]

theorem dataLen_le_storedBytes (ha : a ∈ s.ptrs) :
    (s.file a).dataLen ≤ s.storedBytes := by
  rw [storedBytes_split ha]
  exact Nat.le_add_right _ _

theorem storedBytes_congr (s s' : FileStorage) (hp : s'.ptrs = s.ptrs)
    (hd : ∀ b ∈ s.ptrs, (s'.file b).dataLen = (s.file b).dataLen) :
    s'.storedBytes = s.storedBytes := by
  rw [storedBytes, storedBytes, hp, List.map_congr_left hd]

namespace Accounted

theorem currBytes_lt (h : s.Accounted) : s.currBytes < SizeT.bound := by
  have := h.bytes_le
  have := h.maxBytes_lt
  simp only [SizeT.bound]
  omega

theorem currFiles_lt (h : s.Accounted) : s.currFiles < SizeT.bound := by
  have := h.files_le
  have := h.maxFiles_lt
  simp only [SizeT.bound]
  omega

theorem dataLen_le (h : s.Accounted) (ha : a ∈ s.ptrs) : (s.file a).dataLen ≤ s.currBytes := by
  rw [h.bytes]
  exact dataLen_le_storedBytes ha

theorem not_mem_of_next_le (h : s.Accounted) (ha : s.next ≤ a) : a ∉ s.ptrs :=
  fun hm => h.live a hm (h.fresh a ha)

theorem filesAvailable (h : s.Accounted) :
    s.fuStorageFilesAvailable = s.maxFiles - s.currFiles := by
  have hmax : s.maxFiles < SizeT.bound := by
    have := h.maxFiles_lt
    simp only [SizeT.bound]
    omega
  exact SizeT.sub_of_le h.files_le hmax

theorem bytesAvailable (h : s.Accounted) :
    s.fuStorageBytesAvailable = s.maxBytes - s.currBytes := by
  have hmax : s.maxBytes < SizeT.bound := by
    have := h.maxBytes_lt
    simp only [SizeT.bound]
    omega
  rw [fuStorageBytesAvailable, if_neg (Nat.not_lt.mpr h.bytes_le),
    SizeT.sub_of_le h.bytes_le hmax]

/-! ## Records

Assignments to a record that leave its contents alone, new records, and
records freed without ever having been stored. -/

theorem modifyFile (h : s.Accounted) (a : Nat) {g : FileData → FileData}
    (hg : ∀ f, (g f).data = f.data) : (s.modifyFile a g).Accounted where
  nodup := h.nodup
  live b hb := by simpa using h.live b hb
  fresh b hb := by simpa using h.fresh b hb
  files := h.files
  bytes := h.bytes.trans
    (storedBytes_congr s (s.modifyFile a g) rfl
      fun b _ => s.modifyFile_dataLen a g hg b).symm
  files_le := h.files_le
  bytes_le := h.bytes_le
  maxFiles_lt := h.maxFiles_lt
  maxBytes_lt := h.maxBytes_lt
  entries := h.entries

theorem fuGetfile (h : s.Accounted) (path : List UInt8) :
    (s.fuGetfile path).2.Accounted := by
  rw [fuGetfile_snd]
  cases s.table.huGet path with
  | none => exact h
  | some a => exact h.modifyFile a fun _ => rfl

theorem place (h : s.Accounted) (f : FileData) : (s.place f).2.Accounted where
  nodup := h.nodup
  live b hb := by
    have hb' := h.live b hb
    simp only [FileStorage.place]
    split
    · simp
    · exact hb'
  fresh b hb := by
    simp only [FileStorage.place] at hb ⊢
    rw [if_neg (by omega)]
    exact h.fresh b (by omega)
  files := h.files
  bytes := by
    refine h.bytes.trans
      (storedBytes_congr s (s.place f).2 rfl fun b hb => ?_).symm
    have hne : b ≠ s.next := fun e => h.not_mem_of_next_le e.ge hb
    simp [FileStorage.place, file, hne]
  files_le := h.files_le
  bytes_le := h.bytes_le
  maxFiles_lt := h.maxFiles_lt
  maxBytes_lt := h.maxBytes_lt
  entries := h.entries

theorem fuFreeFileData (h : s.Accounted) (ha : a ∉ s.ptrs) :
    (s.fuFreeFileData a).Accounted where
  nodup := h.nodup
  live b hb := by
    have hne : b ≠ a := fun e => ha (e ▸ hb)
    simpa [FileStorage.fuFreeFileData, hne] using h.live b hb
  fresh b hb := by
    simp only [FileStorage.fuFreeFileData]
    split
    · rfl
    · exact h.fresh b hb
  files := h.files
  bytes := by
    refine h.bytes.trans
      (storedBytes_congr s (s.fuFreeFileData a) rfl fun b hb => ?_).symm
    have hne : b ≠ a := fun e => ha (e ▸ hb)
    simp [FileStorage.fuFreeFileData, file, hne]
  files_le := h.files_le
  bytes_le := h.bytes_le
  maxFiles_lt := h.maxFiles_lt
  maxBytes_lt := h.maxBytes_lt
  entries := h.entries

/-! ## The three operations -/

theorem fuAddFile (h : s.Accounted) {f : FileData} (ha : a ∉ s.ptrs)
    (hf : s.heap a = some f) (path : List UInt8) : (s.fuAddFile a path).2.Accounted := by
  rw [FileStorage.fuAddFile]
  split
  · exact h.fuFreeFileData ha
  · next hfiles =>
      split
      · exact h.fuFreeFileData ha
      · next hbytes =>
          rw [h.filesAvailable] at hfiles
          rw [h.bytesAvailable] at hbytes
          have hmf := h.maxFiles_lt
          have hmb := h.maxBytes_lt
          have hfl := h.files_le
          have hbl := h.bytes_le
          set s₁ := s.modifyFile a fun f => { f with path := path } with hs₁
          have h₁ : s₁.Accounted := h.modifyFile a fun _ => rfl
          have hlen : (s₁.file a).dataLen = (s.file a).dataLen :=
            s.modifyFile_dataLen a (fun f => { f with path := path }) (fun _ => rfl) a
          have hpos : 0 < s₁.table.nEntries := h.entries (by omega)
          have hitems := HashTable.huInsert_items hpos path a
          have hptrs : ∀ b, b ∈ (s₁.table.huInsert path a).items.map Prod.snd ↔
              b = a ∨ b ∈ s.ptrs := by
            intro b
            rw [(hitems.map Prod.snd).mem_iff, List.map_cons, List.mem_cons]
            rfl
          have hcf : SizeT.add s₁.currFiles 1 = s.currFiles + 1 :=
            SizeT.add_of_lt (by simp only [SizeT.bound, hs₁, modifyFile_currFiles]; omega)
          have hcb : SizeT.add s₁.currBytes (s₁.file a).dataLen =
              s.currBytes + (s.file a).dataLen := by
            rw [hlen]
            exact SizeT.add_of_lt
              (by simp only [SizeT.bound, hs₁, modifyFile_currBytes]; omega)
          constructor
          · show ((s₁.table.huInsert path a).items.map Prod.snd).Nodup
            rw [(hitems.map Prod.snd).nodup_iff, List.map_cons, List.nodup_cons]
            exact ⟨ha, h.nodup⟩
          · intro b hb
            rcases (hptrs b).mp hb with rfl | hb
            · simp [hs₁, hf]
            · exact h₁.live b hb
          · exact h₁.fresh
          · show SizeT.add s₁.currFiles 1 = (s₁.table.huInsert path a).items.length
            rw [hcf, hitems.length_eq, List.length_cons, h.files]
            rfl
          · show SizeT.add s₁.currBytes (s₁.file a).dataLen =
              (((s₁.table.huInsert path a).items.map Prod.snd).map
                fun b => (s₁.file b).dataLen).sum
            rw [hcb, ((hitems.map Prod.snd).map _).sum_eq, List.map_cons, List.map_cons,
              List.sum_cons, hlen, Nat.add_comm]
            exact congrArg _ h₁.bytes
          · show SizeT.add s₁.currFiles 1 ≤ s.maxFiles
            rw [hcf]
            omega
          · show SizeT.add s₁.currBytes (s₁.file a).dataLen ≤ s.maxBytes
            rw [hcb]
            omega
          · exact hmf
          · exact hmb
          · intro hp
            show 0 < (s₁.table.huInsert path a).nEntries
            rw [HashTable.huInsert_nEntries]
            exact h.entries hp

/-- `fu_remove_file` takes out the file its first lookup found: the length it
subtracts is that file's. -/
theorem fuRemoveFile_of_huGet (h : s.Accounted) {path : List UInt8} {a : Nat}
    (hget : s.table.huGet path = some a) :
    ∃ k t, s.table.huRemove path = some ((k, a), t) ∧ a ∈ s.ptrs ∧
      s.fuRemoveFile path =
        (0,
          { (s.modifyFile a fun f => { f with dataInfo := f.dataInfo + 1 }).fuFreeFileData a with
            table := t
            currFiles := s.currFiles - 1
            currBytes := s.currBytes - (s.file a).dataLen }) := by
  obtain ⟨k, t, hrem⟩ := HashTable.huGet_eq_some_iff.mp hget
  have hitems := HashTable.huRemove_items hrem
  have hmem : a ∈ s.ptrs :=
    List.mem_map.mpr ⟨(k, a), hitems.mem_iff.mpr (List.mem_cons_self ..), rfl⟩
  have hlen : ((s.modifyFile a fun f => { f with dataInfo := f.dataInfo + 1 }).file a).dataLen =
      (s.file a).dataLen :=
    s.modifyFile_dataLen a (fun f => { f with dataInfo := f.dataInfo + 1 }) (fun _ => rfl) a
  have hfiles : 1 ≤ s.currFiles := by
    rw [h.files, hitems.length_eq, List.length_cons]
    omega
  have hbytes := h.dataLen_le hmem
  refine ⟨k, t, hrem, hmem, ?_⟩
  simp only [FileStorage.fuRemoveFile, FileStorage.fuGetfile, hget, modifyFile_table, hrem,
    Option.map_some, Option.getD_some, hlen, modifyFile_currFiles, modifyFile_currBytes]
  rw [SizeT.sub_of_le hfiles h.currFiles_lt, SizeT.sub_of_le hbytes h.currBytes_lt]

theorem fuRemoveFile (h : s.Accounted) (path : List UInt8) :
    (s.fuRemoveFile path).2.Accounted := by
  cases hget : s.table.huGet path with
  | none => simpa [FileStorage.fuRemoveFile, hget] using h
  | some a =>
      obtain ⟨k, t, hrem, hmem, heq⟩ := h.fuRemoveFile_of_huGet hget
      have hitems := HashTable.huRemove_items hrem
      have hptrs : s.ptrs.Perm (a :: t.items.map Prod.snd) := hitems.map Prod.snd
      obtain ⟨hnot, hnodup⟩ := List.nodup_cons.mp (hptrs.nodup_iff.mp h.nodup)
      have hlen : s.table.items.length = t.items.length + 1 := hitems.length_eq
      have hsum : s.storedBytes =
          (s.file a).dataLen + ((t.items.map Prod.snd).map fun b => (s.file b).dataLen).sum := by
        rw [storedBytes, (hptrs.map _).sum_eq, List.map_cons, List.sum_cons]
      have hf := h.files
      have hb := h.bytes
      have hfl := h.files_le
      have hbl := h.bytes_le
      rw [heq]
      set s₁ := s.modifyFile a fun f => { f with dataInfo := f.dataInfo + 1 } with hs₁
      have h₁ : s₁.Accounted := h.modifyFile a fun _ => rfl
      constructor
      · exact hnodup
      · intro b hb
        have hne : b ≠ a := fun e => hnot (e ▸ hb)
        have hb' : b ∈ s.ptrs := hptrs.mem_iff.mpr (List.mem_cons_of_mem _ hb)
        simpa [FileStorage.fuFreeFileData, hne] using h₁.live b hb'
      · intro b hb
        simp only [FileStorage.fuFreeFileData]
        split
        · rfl
        · exact h₁.fresh b hb
      · show s.currFiles - 1 = t.items.length
        omega
      · show s.currBytes - (s.file a).dataLen =
          ((t.items.map Prod.snd).map fun b => ((s₁.fuFreeFileData a).file b).dataLen).sum
        rw [List.map_congr_left (g := fun b => (s.file b).dataLen)]
        · omega
        · intro b hb
          have hne : b ≠ a := fun e => hnot (e ▸ hb)
          have hd : (s₁.file b).dataLen = (s.file b).dataLen :=
            s.modifyFile_dataLen a (fun f => { f with dataInfo := f.dataInfo + 1 })
              (fun _ => rfl) b
          simpa [FileStorage.fuFreeFileData, file, hne] using hd
      · show s.currFiles - 1 ≤ s.maxFiles
        omega
      · show s.currBytes - (s.file a).dataLen ≤ s.maxBytes
        omega
      · exact h.maxFiles_lt
      · exact h.maxBytes_lt
      · intro hp
        show 0 < t.nEntries
        rw [(HashTable.huRemove_fields hrem).1]
        exact h.entries hp

theorem lt_of_le_muLimit {n : Nat} (h : n ≤ muLimit) : n < 2 ^ 32 :=
  Nat.lt_of_le_of_lt h (by decide)

/-- The new total as `fu_writefile` computes it: exact, the unsigned difference
having wrapped or not. -/
theorem newBytes_eq (h : s.Accounted) {i len : Nat} (ha : a ∈ s.ptrs) (hlen : len < 2 ^ 32)
    (hi : i ≤ (s.file a).dataLen) :
    SizeT.add i len = i + len ∧
    SizeT.add s.currBytes (SizeT.sub (i + len) (s.file a).dataLen) =
      s.currBytes - (s.file a).dataLen + (i + len) := by
  have hle := h.dataLen_le ha
  have hbl := h.bytes_le
  have hmb := h.maxBytes_lt
  exact ⟨SizeT.add_of_lt (by simp only [SizeT.bound]; omega),
    SizeT.add_sub_of_le hle h.currBytes_lt (by simp only [SizeT.bound]; omega)⟩

/-- A write that fits is carried out, unless it is too long to allocate. -/
theorem fuWritefile_of_fits (h : s.Accounted) {i : Nat} {d : List UInt8} (ha : a ∈ s.ptrs)
    (hd : 0 < d.length) (hlen : d.length ≤ muLimit) (hi : i ≤ (s.file a).dataLen)
    (hfit : s.currBytes - (s.file a).dataLen + (i + d.length) ≤ s.maxBytes) :
    s.fuWritefile a i (some d) =
      if i + d.length > muLimit then none
      else some (0,
        { s.modifyFile a (fun f =>
            { f with dataInfo := f.dataInfo + 1, data := f.data.take i ++ d }) with
          currBytes := s.currBytes - (s.file a).dataLen + (i + d.length) }) := by
  obtain ⟨hnew, htot⟩ := h.newBytes_eq ha (lt_of_le_muLimit hlen) hi
  have hdl : ((s.modifyFile a fun f => { f with dataInfo := f.dataInfo + 1 }).file
      a).dataLen = (s.file a).dataLen :=
    s.modifyFile_dataLen a (fun f => { f with dataInfo := f.dataInfo + 1 }) (fun _ => rfl) a
  rw [FileStorage.fuWritefile]
  dsimp only
  rw [if_neg (by omega), if_neg (by omega), hdl, hnew, modifyFile_currBytes, htot,
    modifyFile_maxBytes, if_neg (by omega), modifyFile_modifyFile]
  rfl

/-- A write that is accepted sets the counter to the exact new total. -/
theorem fuWritefile_cases (h : s.Accounted) {i : Nat} {data : Option (List UInt8)}
    {r : Int} (ha : a ∈ s.ptrs) (hlen : ∀ d, data = some d → d.length ≤ muLimit)
    (hw : s.fuWritefile a i data = some (r, s')) :
    (s' = s ∧ r = -1) ∨
    (s' = s.modifyFile a (fun f => { f with dataInfo := f.dataInfo + 1 }) ∧ r = -1) ∨
    (r = 0 ∧ ∃ d, data = some d ∧ i ≤ (s.file a).dataLen ∧
      s.currBytes - (s.file a).dataLen + (i + d.length) ≤ s.maxBytes ∧
      i + d.length ≤ muLimit ∧
      s' = { s.modifyFile a (fun f =>
              { f with dataInfo := f.dataInfo + 1, data := f.data.take i ++ d }) with
        currBytes := s.currBytes - (s.file a).dataLen + (i + d.length) }) := by
  cases data with
  | none =>
      injection hw with hw
      injection hw with h₁ h₂
      exact .inl ⟨h₂.symm, h₁.symm⟩
  | some d =>
      have hd : d.length ≤ muLimit := hlen d rfl
      simp only [FileStorage.fuWritefile] at hw
      split at hw
      · injection hw with hw
        injection hw with h₁ h₂
        exact .inl ⟨h₂.symm, h₁.symm⟩
      · split at hw
        · injection hw with hw
          injection hw with h₁ h₂
          exact .inl ⟨h₂.symm, h₁.symm⟩
        · next hi =>
            have hi : i ≤ (s.file a).dataLen := Nat.not_lt.mp hi
            obtain ⟨hnew, htot⟩ := h.newBytes_eq ha (lt_of_le_muLimit hd) hi
            have hdl : ((s.modifyFile a fun f => { f with dataInfo := f.dataInfo + 1 }).file
                a).dataLen = (s.file a).dataLen :=
              s.modifyFile_dataLen a (fun f => { f with dataInfo := f.dataInfo + 1 })
                (fun _ => rfl) a
            rw [hdl, hnew, modifyFile_currBytes, htot, modifyFile_maxBytes] at hw
            split at hw
            · injection hw with hw
              injection hw with h₁ h₂
              exact .inr (.inl ⟨h₂.symm, h₁.symm⟩)
            · next hfit =>
                split at hw
                · cases hw
                · next hmax =>
                    injection hw with hw
                    injection hw with h₁ h₂
                    refine .inr (.inr ⟨h₁.symm, d, rfl, hi, by omega, by omega, ?_⟩)
                    rw [← h₂, modifyFile_modifyFile]
                    rfl

/-- New contents for a stored file, with the counter following. -/
theorem rewrite (h : s.Accounted) {n : Nat} {g : FileData → FileData} (ha : a ∈ s.ptrs)
    (hg : ∀ f, s.heap a = some f → (g f).dataLen = n)
    (hfit : s.currBytes - (s.file a).dataLen + n ≤ s.maxBytes) :
    Accounted { s.modifyFile a g with currBytes := s.currBytes - (s.file a).dataLen + n } := by
  obtain ⟨f, hf⟩ := Option.ne_none_iff_exists'.mp (h.live a ha)
  have hself : ((s.modifyFile a g).file a).dataLen = n := by
    rw [s.modifyFile_file_self a g hf, hg f hf]
  have hrest : ((s.ptrs.erase a).map fun b => ((s.modifyFile a g).file b).dataLen) =
      (s.ptrs.erase a).map fun b => (s.file b).dataLen := by
    refine List.map_congr_left fun b hb => ?_
    have hne : b ≠ a := fun e => h.nodup.not_mem_erase (e ▸ hb)
    rw [s.modifyFile_file_of_ne a g hne]
  have hsplit := storedBytes_split (s := s) ha
  have hsplit' := storedBytes_split (s := s.modifyFile a g) ha
  rw [hself, modifyFile_ptrs, hrest] at hsplit'
  have hb := h.bytes
  constructor
  · exact h.nodup
  · intro b hb
    simpa using h.live b hb
  · intro b hb
    simpa using h.fresh b hb
  · exact h.files
  · show s.currBytes - (s.file a).dataLen + n = (s.modifyFile a g).storedBytes
    omega
  · exact h.files_le
  · exact hfit
  · exact h.maxFiles_lt
  · exact h.maxBytes_lt
  · exact h.entries

/-- Writing from within a file, or from its end, leaves it that long. -/
theorem length_take_append (s : FileStorage) {i : Nat} (d : List UInt8)
    (hi : i ≤ (s.file a).dataLen) {f : FileData} (hf : s.heap a = some f) :
    (f.data.take i ++ d).length = i + d.length := by
  rw [file_eq s hf, FileData.dataLen] at hi
  rw [List.length_append, List.length_take, Nat.min_eq_left hi]

theorem fuWritefile (h : s.Accounted) {i : Nat} {data : Option (List UInt8)} {r : Int}
    (ha : a ∈ s.ptrs) (hlen : ∀ d, data = some d → d.length ≤ muLimit)
    (hw : s.fuWritefile a i data = some (r, s')) : s'.Accounted := by
  rcases h.fuWritefile_cases ha hlen hw with
    ⟨rfl, -⟩ | ⟨rfl, -⟩ | ⟨-, d, -, hi, hfit, -, rfl⟩
  · exact h
  · exact h.modifyFile a fun _ => rfl
  · exact h.rewrite ha (fun f hf => length_take_append s d hi hf) hfit

end Accounted

/-! ## Runs of the storage functions -/

/-- A storage reached from `fu_init_file_storage` by the four functions that
touch the counters or the table, called with fresh records, any paths, and
writes of what the allocator can hold to stored files. -/
inductive FuReach (hash : List UInt8 → Nat) (compare : List UInt8 → List UInt8 → Int)
    (maxFiles maxBytes : Nat) : FileStorage → Prop where
  | init {s : FileStorage} : fuInitFileStorageWith hash compare maxFiles maxBytes = some s →
      FuReach hash compare maxFiles maxBytes s
  | add {s : FileStorage} (f : FileData) (path : List UInt8) :
      FuReach hash compare maxFiles maxBytes s →
      FuReach hash compare maxFiles maxBytes ((s.place f).2.fuAddFile (s.place f).1 path).2
  | remove {s : FileStorage} (path : List UInt8) : FuReach hash compare maxFiles maxBytes s →
      FuReach hash compare maxFiles maxBytes (s.fuRemoveFile path).2
  | getfile {s : FileStorage} (path : List UInt8) : FuReach hash compare maxFiles maxBytes s →
      FuReach hash compare maxFiles maxBytes (s.fuGetfile path).2
  | write {s s' : FileStorage} (a i : Nat) (data : Option (List UInt8)) {r : Int} :
      FuReach hash compare maxFiles maxBytes s → a ∈ s.ptrs →
      (∀ d, data = some d → d.length ≤ muLimit) →
      s.fuWritefile a i data = some (r, s') → FuReach hash compare maxFiles maxBytes s'

theorem accounted_init {hash : List UInt8 → Nat}
    {compare : List UInt8 → List UInt8 → Int} {maxFiles maxBytes : Nat}
    (hf : maxFiles < 2 ^ 32) (hb : maxBytes < 2 ^ 32)
    (h : fuInitFileStorageWith hash compare maxFiles maxBytes = some s) : s.Accounted := by
  rw [fuInitFileStorageWith] at h
  split at h
  · injection h with h
    subst h
    constructor <;> simp [ptrs, storedBytes, HashTable.items]
  · next hpos =>
      dsimp only at h
      split at h
      · cases h
      · injection h with h
        subst h
        constructor
        · simp [ptrs, HashTable.items]
        · simp [ptrs, HashTable.items]
        · simp
        · simp [HashTable.items]
        · simp [storedBytes, ptrs, HashTable.items]
        · exact Nat.zero_le _
        · exact Nat.zero_le _
        · exact hf
        · exact hb
        · simp [HashTable.nEntries]

theorem FuReach.accounted {hash : List UInt8 → Nat}
    {compare : List UInt8 → List UInt8 → Int} {maxFiles maxBytes : Nat}
    (hf : maxFiles < 2 ^ 32) (hb : maxBytes < 2 ^ 32)
    (h : FuReach hash compare maxFiles maxBytes s) : s.Accounted := by
  induction h with
  | init h => exact accounted_init hf hb h
  | @add s f path _ ih =>
      refine (ih.place f).fuAddFile (f := f) ?_ ?_ path
      · exact ih.not_mem_of_next_le (Nat.le_refl _)
      · simp [place]
  | remove path _ ih => exact ih.fuRemoveFile path
  | getfile path _ ih => exact ih.fuGetfile path
  | write _ _ _ _ ha hlen hw ih => exact ih.fuWritefile ha hlen hw

/-- Storage accounting: after any sequence of additions, removals, lookups
and writes the counters are exact and within the limits. -/
theorem storage_accounting {hash : List UInt8 → Nat}
    {compare : List UInt8 → List UInt8 → Int} {maxFiles maxBytes : Nat}
    (hf : maxFiles < 2 ^ 32) (hb : maxBytes < 2 ^ 32)
    (h : FuReach hash compare maxFiles maxBytes s) :
    s.currFiles = s.table.items.length ∧
    s.currBytes = (s.table.items.map fun it => (s.file it.2).dataLen).sum ∧
    s.currFiles ≤ s.maxFiles ∧ s.currBytes ≤ s.maxBytes := by
  have h := h.accounted hf hb
  refine ⟨h.files, ?_, h.files_le, h.bytes_le⟩
  rw [h.bytes, storedBytes, ptrs, List.map_map]
  rfl

/-- A file of two bytes, written over with three. -/
theorem storage_accounting_write :
    ∃ s : FileStorage, s.currBytes = 3 ∧
      s.currFiles = s.table.items.length ∧
      s.currBytes = (s.table.items.map fun it => (s.file it.2).dataLen).sum ∧
      s.currFiles ≤ s.maxFiles ∧ s.currBytes ≤ s.maxBytes := by
  obtain ⟨s₀, hs₀⟩ : ∃ s, fuInitFileStorage 1 10 = some s := ⟨_, rfl⟩
  have h₁ := (FuReach.init hs₀).add ⟨[1, 2], -1, 0, []⟩ [97]
  injection hs₀ with hs₀
  subst hs₀
  refine ⟨_, ?_, storage_accounting (by decide) (by decide)
    (h₁.write 0 0 (some [7, 8, 9]) ?_ ?_ rfl)⟩
  · rfl
  · decide
  · decide

end FileStorage

end LsoStore
