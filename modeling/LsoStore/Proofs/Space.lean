import LsoStore.Proofs.Eviction

/-!
# What a write needs and what an eviction can give

`fu_writefile` compares the total the storage would have after the write with
the limit, the bytes it overwrites given back. The handlers decide whether to
make room before that by what is free now, with nothing given back. The two
part exactly when the new contents are longer than the free space and not
longer than the free space and the old contents together.

What making room can give is settled by `fu_evict_files` alone: all stored
files if together they have the bytes, and nothing otherwise.
-/

namespace LsoStore

open Proc FileStorage

namespace FileStorage

variable {s s' : FileStorage} {a i : Nat} {d : List UInt8} {data : Option (List UInt8)}
  {r : Int}

/-! ## The write -/

/-- The write a caller may ask for: some data, from within the file or from its
end, and a total within the limit. -/
def Writable (s : FileStorage) (a i : Nat) (data : Option (List UInt8)) : Prop :=
  ∃ d, data = some d ∧ d ≠ [] ∧ i ≤ (s.file a).dataLen ∧
    (s.currBytes : Int) - (s.file a).dataLen + i + d.length ≤ s.maxBytes

/-- A write that does not fit counts as a use of the file and nothing else. -/
theorem Accounted.fuWritefile_of_full (h : s.Accounted) (ha : a ∈ s.ptrs)
    (hd : 0 < d.length) (hlen : d.length ≤ muLimit) (hi : i ≤ (s.file a).dataLen)
    (hfull : s.maxBytes < s.currBytes - (s.file a).dataLen + (i + d.length)) :
    s.fuWritefile a i (some d) =
      some (-1, s.modifyFile a fun f => { f with dataInfo := f.dataInfo + 1 }) := by
  obtain ⟨hnew, htot⟩ := h.newBytes_eq ha (lt_of_le_muLimit hlen) hi
  have hdl : ((s.modifyFile a fun f => { f with dataInfo := f.dataInfo + 1 }).file
      a).dataLen = (s.file a).dataLen :=
    s.modifyFile_dataLen a (fun f => { f with dataInfo := f.dataInfo + 1 }) (fun _ => rfl) a
  rw [FileStorage.fuWritefile]
  dsimp only
  rw [if_neg (by omega), if_neg (by omega), hdl, hnew, modifyFile_currBytes, htot,
    modifyFile_maxBytes, if_pos hfull]

/-- A write that is refused before its size is looked at changes nothing. -/
theorem fuWritefile_of_bad (hbad : ∀ d, data = some d → d = [] ∨ (s.file a).dataLen < i) :
    s.fuWritefile a i data = some (-1, s) := by
  cases data with
  | none => rfl
  | some d =>
      rw [fuWritefile]
      split
      · rfl
      · next hne =>
          rcases hbad d rfl with rfl | hi
          · exact absurd rfl hne
          · rw [if_pos hi]

/-- What a write did to the file at `a`. -/
structure Wrote (s s' : FileStorage) (a i : Nat) (d : List UInt8) : Prop where
  data : (s'.file a).data = (s.file a).data.take i ++ d
  currBytes : (s'.currBytes : Int) = (s.currBytes : Int) - (s.file a).dataLen + i + d.length

/-- What a refused write left as it was. -/
structure Refused (s s' : FileStorage) (a : Nat) : Prop where
  data : (s'.file a).data = (s.file a).data
  dataLen : (s'.file a).dataLen = (s.file a).dataLen
  currBytes : s'.currBytes = s.currBytes

/-- `fu_writefile` answers 0 exactly when the write is one that fits, the
difference of sizes having wrapped or not, and then carries it out; else it
answers -1 and leaves contents and counter alone. No other file is touched. -/
theorem writefile_exact (h : s.Accounted) (ha : a ∈ s.ptrs)
    (hlen : ∀ d, data = some d → d.length ≤ muLimit)
    (hsize : ∀ d, data = some d → i ≤ (s.file a).dataLen → i + d.length ≤ muLimit) :
    ∃ r s', s.fuWritefile a i data = some (r, s') ∧
      (r = 0 ∨ r = -1) ∧
      (r = 0 ↔ s.Writable a i data) ∧
      (r = 0 → ∀ d, data = some d → Wrote s s' a i d) ∧
      (r = -1 → Refused s s' a) ∧
      s'.table = s.table ∧ ∀ b, b ≠ a → s'.heap b = s.heap b := by
  obtain ⟨f, hf⟩ := Option.ne_none_iff_exists'.mp (h.live a ha)
  have hle := h.dataLen_le ha
  by_cases hbad : ∀ d, data = some d → d = [] ∨ (s.file a).dataLen < i
  · refine ⟨-1, s, fuWritefile_of_bad hbad, .inr rfl, ⟨fun h0 => by omega, ?_⟩,
      fun h0 => by omega, fun _ => ⟨rfl, rfl, rfl⟩, rfl, fun _ _ => rfl⟩
    intro h
    obtain ⟨d, hd, hne, hi, -⟩ := h
    rcases hbad d hd with rfl | hlt
    · exact absurd rfl hne
    · omega
  · push Not at hbad
    obtain ⟨d, rfl, hne, hi⟩ := hbad
    have hpos : 0 < d.length := List.length_pos_iff.mpr hne
    by_cases hfit : s.currBytes - (s.file a).dataLen + (i + d.length) ≤ s.maxBytes
    · have hw := h.fuWritefile_of_fits ha hpos (hlen d rfl) hi hfit
      have hmax : ¬ i + d.length > muLimit := Nat.not_lt.mpr (hsize d rfl hi)
      rw [if_neg hmax] at hw
      refine ⟨0, _, hw, .inl rfl, ⟨fun _ => ⟨d, rfl, hne, hi, by omega⟩, fun _ => rfl⟩,
        fun _ d' hd' => ?_, fun h0 => by omega, rfl, fun b hb => ?_⟩
      · injection hd' with hd'
        subst hd'
        refine ⟨?_, ?_⟩
        · have hself := s.modifyFile_file_self a
            (fun f => { f with dataInfo := f.dataInfo + 1, data := f.data.take i ++ d }) hf
          rw [file_eq s hf]
          exact congrArg FileData.data hself
        · dsimp only
          omega
      · exact modifyFile_heap_of_ne s a _ hb
    · have hw := h.fuWritefile_of_full ha hpos (hlen d rfl) hi (by omega)
      refine ⟨-1, _, hw, .inr rfl, ⟨fun h0 => by omega, ?_⟩, fun h0 => by omega, fun _ => ?_,
        rfl, fun b hb => modifyFile_heap_of_ne s a _ hb⟩
      · intro h
        obtain ⟨d', hd', -, -, hroom⟩ := h
        injection hd' with hd'
        subst hd'
        omega
      · exact ⟨s.modifyFile_data a (fun f => { f with dataInfo := f.dataInfo + 1 })
          (fun _ => rfl) a, s.modifyFile_dataLen a
          (fun f => { f with dataInfo := f.dataInfo + 1 }) (fun _ => rfl) a, rfl⟩

/-- A file of three bytes in a storage of three, written over with one: the
difference of the lengths wraps. -/
theorem writefile_exact_shrinks : ∃ (s s' : FileStorage) (r : Int),
    s.fuWritefile 0 0 (some [9]) = some (r, s') ∧
      (r = 0 ∨ r = -1) ∧
      (r = 0 ↔ s.Writable 0 0 (some [9])) ∧
      (r = 0 → ∀ d, some [9] = some d → Wrote s s' 0 0 d) ∧
      (r = -1 → Refused s s' 0) ∧
      s'.table = s.table ∧ ∀ b, b ≠ 0 → s'.heap b = s.heap b := by
  obtain ⟨s₀, hs₀⟩ : ∃ s, fuInitFileStorage 1 3 = some s := ⟨_, rfl⟩
  have h₁ := (FuReach.init hs₀).add ⟨[1, 2, 3], -1, 0, []⟩ [97]
  injection hs₀ with hs₀
  subst hs₀
  have hacc := h₁.accounted (by decide) (by decide)
  have hlen : ∀ d : List UInt8, some [9] = some d → d.length ≤ muLimit := by
    intro d hd
    cases hd
    decide
  have hsize : ∀ d : List UInt8, some [9] = some d → 0 + d.length ≤ muLimit := by
    intro d hd
    cases hd
    decide
  obtain ⟨r, s', h⟩ := writefile_exact (a := 0) hacc (by decide) hlen fun d hd _ => hsize d hd
  exact ⟨_, s', r, h⟩

/-! ## Asking for room -/

/-- The handler's question whether there is room and `fu_writefile`'s answer
are the same exactly when the new contents fit without the old ones' bytes or
do not fit with them either. -/
theorem space_checks_agree_iff (h : s.Accounted) (ha : a ∈ s.ptrs) (hd : 1 ≤ d.length)
    (hlen : d.length ≤ muLimit) :
    ((s.fuStorageBytesAvailable < d.length ↔
        ∃ s', s.fuWritefile a 0 (some d) = some (-1, s')) ↔
      ¬ (s.fuStorageBytesAvailable < d.length ∧
        d.length ≤ s.fuStorageBytesAvailable + (s.file a).dataLen)) := by
  have hle := h.dataLen_le ha
  have hmax := h.bytes_le
  rw [h.bytesAvailable]
  by_cases hfit : s.currBytes - (s.file a).dataLen + (0 + d.length) ≤ s.maxBytes
  · have hw := h.fuWritefile_of_fits ha hd hlen (Nat.zero_le _) hfit
    have hroom : d.length ≤ s.maxBytes - s.currBytes + (s.file a).dataLen := by omega
    have hnot : ¬ ∃ s', s.fuWritefile a 0 (some d) = some (-1, s') := by
      intro h
      obtain ⟨s', hs'⟩ := h
      rw [hw, if_neg (by omega)] at hs'
      injection hs' with hs'
      injection hs' with hs'
      omega
    simp only [hnot, hroom, iff_false, and_true]
  · have hw := h.fuWritefile_of_full ha hd hlen (Nat.zero_le _) (by omega)
    have hasks : s.maxBytes - s.currBytes < d.length := by omega
    have hroom : ¬ d.length ≤ s.maxBytes - s.currBytes + (s.file a).dataLen := by omega
    have hrefused : ∃ s', s.fuWritefile a 0 (some d) = some (-1, s') := ⟨_, hw⟩
    simp only [hasks, hrefused, hroom, and_false, not_false_eq_true, iff_self]

/-- A new file of a storage of three bytes, for which both say no to four. -/
theorem space_checks_agree_four : ∃ s : FileStorage,
    ((s.fuStorageBytesAvailable < 4 ↔
        ∃ s', s.fuWritefile 0 0 (some [1, 2, 3, 4]) = some (-1, s')) ↔
      ¬ (s.fuStorageBytesAvailable < 4 ∧
        4 ≤ s.fuStorageBytesAvailable + (s.file 0).dataLen)) := by
  obtain ⟨s₀, hs₀⟩ : ∃ s, fuInitFileStorage 1 3 = some s := ⟨_, rfl⟩
  have h₁ := (FuReach.init hs₀).add ⟨[], -1, 0, []⟩ [97]
  injection hs₀ with hs₀
  subst hs₀
  have hacc := h₁.accounted (by decide) (by decide)
  exact ⟨_, space_checks_agree_iff (a := 0) (d := [1, 2, 3, 4]) hacc (by decide) (by decide)
    (by decide)⟩

/-- Client 5 has two bytes in "b", the storage has one more, and the client
writes two new bytes over them: `fu_writefile` would take them, the handler
asks for an eviction, finds no file but "b" itself, and the write fails. -/
theorem fitting_write_fails : ∃ w w', Reachable Qsort.insertion 2 3 w ∧
    w.st.table.huGet [98] = some 0 ∧ (w.st.file 0).client = 5 ∧
    w.st.fuStorageBytesAvailable < 2 ∧
    (∃ s', w.st.fuWritefile 0 0 (some [5, 6]) = some (0, s')) ∧
    (serve Qsort.insertion (sapiMessageLen 0 sapiWriteFile 1) 5).Runs w
      [.read 1 (some [98]), .read 8 (some (LittleEndian.encode 8 2)),
        .write (.word sapiEvictMsg) true, .read 8 (some (LittleEndian.encode 8 0)),
        .trylock (.file 0) false, .write (.word sapiFailure) true,
        .write (.word sapiFailure) true] (.ret 1) w' := by
  have h₀ : Reachable Qsort.insertion 2 3 ⟨_, ∅⟩ := .init (by decide) (by decide) rfl
  have h₁ := h₀.created 5 [98] rfl
  have h₂ := h₁.written 5 [98] [7, 8] rfl
  exact ⟨_, _, h₂, rfl, rfl, by decide, ⟨_, rfl⟩, rfl⟩

/-! ## Giving room -/

/-- `fu_evict_files` gives the empty array exactly when all stored files are
too little, and otherwise all of them, each once. -/
theorem evict_files_feasible {qsort : Qsort Nat} {n : Nat}
    (hfiles : s.currFiles = s.table.items.length) (hmax : s.currFiles ≤ 2 ^ 19) (hn : 0 < n) :
    ∃ arr, s.fuEvictFiles qsort n = some arr ∧
      (arr = UArr.zero ↔ (s.table.items.map fun it => (s.file it.2).dataLen).sum < n) ∧
      (¬ (s.table.items.map fun it => (s.file it.2).dataLen).sum < n →
        arr.len = s.currFiles ∧ arr.elems.length = s.currFiles ∧
          arr.elems.Perm (s.table.items.map Prod.snd)) := by
  have hsum : (s.table.items.map fun it => (s.file it.2).dataLen).sum = s.storedBytes := by
    rw [storedBytes, ptrs, List.map_map]
    rfl
  rw [hsum]
  obtain ⟨arr, harr⟩ : ∃ arr, s.fuEvictFiles qsort n = some arr := by
    rw [← Option.ne_none_iff_exists', ne_eq, fuEvictFiles_eq_none_iff]
    simp only [muLimit]
    omega
  refine ⟨arr, harr, ?_⟩
  rcases fuEvictFiles_spec hfiles harr with ⟨hshort, rfl⟩ | ⟨henough, hlen, helems⟩
  · exact ⟨by simp [hshort], fun hnot => absurd hshort hnot⟩
  · have hperm := s.evictOrder_perm qsort
    have hcount : arr.elems.length = s.currFiles := by
      rw [helems, hperm.length_eq, length_ptrs, hfiles]
    have hne : arr ≠ UArr.zero := by
      intro h0
      -- no files have no bytes, and some are asked for
      have hnone : s.ptrs = [] := by
        have hzero : s.ptrs.length = 0 := by
          rw [length_ptrs, ← hfiles, ← hlen, h0]
          rfl
        exact List.eq_nil_of_length_eq_zero hzero
      rw [storedBytes, hnone] at henough
      simp at henough
      omega
    refine ⟨⟨fun h0 => absurd h0 hne, fun hlt => by omega⟩, fun _ => ⟨hlen, hcount, ?_⟩⟩
    rw [helems]
    exact hperm

/-- A storage with three files of three, no and two bytes, asked for four. -/
theorem evict_files_feasible_three : ∃ (s : FileStorage) (arr : UArr Nat),
    s.table.items.length = 3 ∧ s.fuEvictFiles Qsort.insertion 4 = some arr ∧
      (arr = UArr.zero ↔ (s.table.items.map fun it => (s.file it.2).dataLen).sum < 4) ∧
      (¬ (s.table.items.map fun it => (s.file it.2).dataLen).sum < 4 →
        arr.len = s.currFiles ∧ arr.elems.length = s.currFiles ∧
          arr.elems.Perm (s.table.items.map Prod.snd)) := by
  obtain ⟨s₀, hs₀⟩ : ∃ s, fuInitFileStorage 4 9 = some s := ⟨_, rfl⟩
  have h₁ := (FuReach.init hs₀).add ⟨[1, 2, 3], -1, 0, []⟩ [97]
  have h₂ := h₁.add ⟨[], -1, 0, []⟩ [98]
  have h₃ := h₂.add ⟨[4, 5], -1, 0, []⟩ [99]
  injection hs₀ with hs₀
  subst hs₀
  have hacc := h₃.accounted (by decide) (by decide)
  have hmany : FileStorage.currFiles _ ≤ 2 ^ 19 := hacc.files.trans_le (by decide)
  obtain ⟨arr, harr⟩ := evict_files_feasible (n := 4) hacc.files hmany (by decide)
  exact ⟨_, arr, rfl, harr⟩

end FileStorage

end LsoStore
