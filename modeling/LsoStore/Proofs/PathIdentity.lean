import Mathlib.Data.List.Pairwise
import LsoStore.Proofs.WellFormed

/-!
# Which file a path finds

In every state of a run a stored file's own path finds that file: the buckets
are sorted and prefix-free. A path that is not stored is another matter. The
lookup compares up to the shorter string, so it hands out any file of the same
bucket whose path is a prefix of the searched one or extends it.
`path_identity` says that this is the only way a lookup goes wrong.

Files are told apart by the address they were created at. No address is used
twice, so the request that created a stored file is determined, and the path
it named is the file's path for good.
-/

namespace LsoStore

open Proc FileStorage

/-- The request stored a new file at `a` under `path`. -/
def ServedRequest.Creates (x : ServedRequest) (a : Nat) (path : List UInt8) : Prop :=
  openedPath x.request x.trace = some path ∧
    a ∉ x.before.st.ptrs ∧ a ∈ x.after.st.ptrs

namespace FileStorage

/-- A file that is stored after some moves was there before, under the same
path, or is new and stored under the path that was opened. -/
def Origin (opened : Option (List UInt8)) (s s' : FileStorage) : Prop :=
  s.next ≤ s'.next ∧
    ∀ a ∈ s'.ptrs, (a ∈ s.ptrs ∧ (s'.file a).path = (s.file a).path) ∨
      (s.next ≤ a ∧ opened = some (s'.file a).path)

variable {opened : Option (List UInt8)} {s s' s'' : FileStorage}

theorem Origin.refl (opened : Option (List UInt8)) (s : FileStorage) : Origin opened s s :=
  ⟨Nat.le_refl _, fun _ ha => .inl ⟨ha, rfl⟩⟩

theorem Origin.trans (h₁ : Origin opened s s') (h₂ : Origin opened s' s'') :
    Origin opened s s'' := by
  refine ⟨h₁.1.trans h₂.1, fun a ha => ?_⟩
  rcases h₂.2 a ha with ⟨ha', hp⟩ | ⟨hn, ho⟩
  · rw [hp]
    exact h₁.2 a ha'
  · exact .inr ⟨h₁.1.trans hn, ho⟩

/-- Moves that store nothing new and leave every path alone. -/
theorem origin_of_subset (hn : s.next ≤ s'.next) (hp : ∀ a ∈ s'.ptrs, a ∈ s.ptrs)
    (hpath : ∀ a ∈ s'.ptrs, (s'.file a).path = (s.file a).path) : Origin opened s s' :=
  ⟨hn, fun a ha => .inl ⟨hp a ha, hpath a ha⟩⟩

theorem WellFormed.origin_discard (h : s.WellFormed) (f : FileData) :
    Origin opened s ((s.place f).2.fuFreeFileData s.next) := by
  refine origin_of_subset (Nat.le_succ _) (fun a ha => ha) fun a ha => ?_
  have hne : a ≠ s.next := fun e =>
    h.accounted.not_mem_of_next_le e.ge ha
  simp [place, fuFreeFileData, file, hne]

theorem WellFormed.origin_create (h : s.WellFormed) {f : FileData} {path : List UInt8}
    (ho : opened = some path) (hd : f.data = []) :
    Origin opened s ((s.place f).2.fuAddFile s.next path).2 := by
  by_cases hfull : s.fuStorageFilesAvailable = 0
  · have havail : (s.place f).2.fuStorageFilesAvailable = 0 := hfull
    rw [fuAddFile, if_pos havail]
    exact h.origin_discard f
  · have hpos : 0 < s.table.nEntries := h.accounted.entries (by
      have := h.accounted.filesAvailable
      omega)
    rw [WellFormed.fuAddFile_place_eq hd hfull]
    refine ⟨Nat.le_succ _, fun a ha => ?_⟩
    have hitems := (HashTable.huInsert_items hpos path s.next).map Prod.snd
    rcases List.mem_cons.mp (hitems.mem_iff.mp ha) with rfl | ha
    · exact .inr ⟨Nat.le_refl _, by simp [place, file, ho]⟩
    · have hne : a ≠ s.next := fun e => h.accounted.not_mem_of_next_le e.ge ha
      exact .inl ⟨ha, by simp [place, file, hne]⟩

theorem WellFormed.origin_remove (h : s.WellFormed) (path : List UInt8) :
    Origin opened s (s.fuRemoveFile path).2 := by
  cases hget : s.table.huGet path with
  | none => simpa [FileStorage.fuRemoveFile, hget] using Origin.refl opened s
  | some a =>
      obtain ⟨k, t, hrem, hmem, heq⟩ := h.accounted.fuRemoveFile_of_huGet hget
      have hptrs : s.ptrs.Perm (a :: t.items.map Prod.snd) :=
        (HashTable.huRemove_items hrem).map Prod.snd
      obtain ⟨hnot, -⟩ := List.nodup_cons.mp (hptrs.nodup_iff.mp h.accounted.nodup)
      rw [heq]
      refine origin_of_subset (Nat.le_refl _)
        (fun b hb => hptrs.mem_iff.mpr (List.mem_cons_of_mem _ hb)) fun b hb => ?_
      have hne : b ≠ a := fun e => hnot (e ▸ hb)
      simp [fuFreeFileData, file, hne, modifyFile_heap]

theorem WellFormed.origin_move (h : s.WellFormed) (hm : Move opened s s') :
    Origin opened s s' := by
  cases hm with
  | touch a g hg =>
      exact origin_of_subset (Nat.le_refl _) (fun a ha => ha) fun b _ =>
        s.modifyFile_path a g (fun f => (hg f).2) b
  | create path f ho hn hd => exact h.origin_create ho hd
  | discard f => exact h.origin_discard f
  | remove path => exact h.origin_remove path
  | write a i data r _ ha hlen hw =>
      rcases h.accounted.fuWritefile_cases (h.stored a ha) hlen hw with
        ⟨rfl, -⟩ | ⟨rfl, -⟩ | ⟨-, d, -, -, -, -, rfl⟩
      · exact Origin.refl opened _
      · exact origin_of_subset (Nat.le_refl _) (fun a ha => ha) fun b _ =>
          s.modifyFile_path a (fun f => { f with dataInfo := f.dataInfo + 1 })
            (fun _ => rfl) b
      · exact origin_of_subset (Nat.le_refl _) (fun a ha => ha) fun b _ =>
          s.modifyFile_path a
            (fun f => { f with dataInfo := f.dataInfo + 1, data := f.data.take i ++ d })
            (fun _ => rfl) b

theorem WellFormed.origin (h : s.WellFormed) (hm : Moves opened s s') :
    Origin opened s s' := by
  induction hm with
  | refl => exact Origin.refl opened s
  | tail hms hm ih => exact ih.trans ((h.moves hms).origin_move hm)

end FileStorage

variable {qsort : Qsort Nat} {maxFiles maxBytes : Nat} {w : World FileStorage Mutex}
  {past : List ServedRequest}

/-- A path a request opens is a string that fits the buffer it was read into. -/
theorem serve_openedPath_short (qsort : Qsort Nat) (request : SMessage) (client : Int) :
    (serve qsort request client).Ensures w fun tr _ _ => ∀ path,
      openedPath request tr = some path → (0 : UInt8) ∉ path ∧ path.length < muLimit := by
  by_cases hop : opOf request = sapiOpenFile
  · rw [serve, if_pos hop, serverOpenFile]
    split
    · simp [openedPath]
    · next hmc =>
        obtain ⟨hm, hc⟩ := not_or.mp hmc
        rw [ensures_serverGetPath_bind hm hc]
        refine ⟨by simp [openedPath], fun hlim r hr tr o w' _ path hpath => ?_⟩
        cases r with
        | none => simp [openedPath] at hpath
        | some buf =>
            simp only [openedPath, hop, if_true, Option.some.injEq] at hpath
            have hlen := hr buf rfl
            have hle := length_cString_le buf
            subst hpath
            exact ⟨not_mem_cString buf, by omega⟩
  · intro tr o w' _ path hpath
    unfold openedPath at hpath
    split at hpath
    · simp [hop] at hpath
    · cases hpath

/-- Every stored file was created by a request that named its path, and a
request creates at most the file that still carries its path. -/
theorem ServerRun.creation (h : ServerRun qsort maxFiles maxBytes past w) :
    (∀ a ∈ w.st.ptrs, ∃ x ∈ past, x.Creates a (w.st.file a).path) ∧
    ∀ x ∈ past, ∀ a path, x.Creates a path →
      a < w.st.next ∧ (a ∈ w.st.ptrs → (w.st.file a).path = path) := by
  induction h with
  | init s hf hb hs =>
      refine ⟨fun a ha => ?_, by simp⟩
      rw [ptrs, (WellFormed.fuInitFileStorage_empty hs).1] at ha
      cases ha
  | serve past w w' request client tr r hrun hr ih =>
      obtain ⟨hall, hone⟩ := ih
      have hwf := hrun.wellFormed
      have hmoves := serve_moves qsort request client tr _ w' hr
      have hwf' := hwf.moves hmoves
      obtain ⟨hnext, horigin⟩ := hwf.origin hmoves
      have hlt : ∀ a ∈ w'.st.ptrs, a < w'.st.next := fun a ha => by
        by_contra hle
        exact hwf'.accounted.not_mem_of_next_le (Nat.not_lt.mp hle) ha
      constructor
      · intro a ha
        rcases horigin a ha with ⟨ha', hp⟩ | ⟨hle, ho⟩
        · obtain ⟨x, hx, hc⟩ := hall a ha'
          exact ⟨x, List.mem_append_left _ hx, hp ▸ hc⟩
        · exact ⟨_, List.mem_append_right _ (List.mem_singleton_self _),
            ho, hwf.accounted.not_mem_of_next_le hle, ha⟩
      · intro x hx a path hc
        rcases List.mem_append.mp hx with hx | hx
        · obtain ⟨hlt', hpath⟩ := hone x hx a path hc
          refine ⟨hlt'.trans_le hnext, fun ha => ?_⟩
          rcases horigin a ha with ⟨ha', hp⟩ | ⟨hle, -⟩
          · rw [hp, hpath ha']
          · omega
        · obtain rfl := List.mem_singleton.mp hx
          obtain ⟨hopen, hnot, hin⟩ := hc
          refine ⟨hlt a hin, fun ha => ?_⟩
          rcases horigin a ha with ⟨ha', -⟩ | ⟨-, ho⟩
          · exact absurd ha' hnot
          · rw [ho] at hopen
            injection hopen

/-- Each past request is a run of `serve` to its end. -/
theorem ServerRun.served (h : ServerRun qsort maxFiles maxBytes past w) {x : ServedRequest}
    (hx : x ∈ past) :
    ∃ r, (LsoStore.serve qsort x.request x.client).Runs x.before x.trace (.ret r) x.after := by
  induction h with
  | init s hf hb hs => cases hx
  | serve past w w' request client tr r _ hr ih =>
      rcases List.mem_append.mp hx with hx | hx
      · exact ih hx
      · obtain rfl := List.mem_singleton.mp hx
        exact ⟨r, hr⟩

theorem Reachable.path_short (h : Reachable qsort maxFiles maxBytes w) {a : Nat}
    (ha : a ∈ w.st.ptrs) : (0 : UInt8) ∉ (w.st.file a).path ∧
      (w.st.file a).path.length < muLimit := by
  obtain ⟨past, hrun⟩ := h
  obtain ⟨x, hx, hopen, -⟩ := hrun.creation.1 a ha
  obtain ⟨r, hr⟩ := hrun.served hx
  exact serve_openedPath_short qsort x.request x.client _ _ _ hr _ hopen

/-- Two stored paths of one bucket that compare equal are the same. -/
theorem FileStorage.WellFormed.path_unique {s : FileStorage} (h : s.WellFormed)
    {x y : List UInt8 × Nat} (hx : x ∈ s.table.items) (hy : y ∈ s.table.items)
    (hi : s.table.huIndex x.1 = s.table.huIndex y.1)
    (hz : suStringCompare x.1 y.1 = 0) : x = y := by
  obtain ⟨-, hbx⟩ := h.ordered.bucket_of_mem hx
  obtain ⟨-, hby⟩ := h.ordered.bucket_of_mem hy
  rw [HashTable.bucket, hi, ← HashTable.bucket] at hbx
  by_contra hne
  have hsymm : Std.Symm fun u v : List UInt8 × Nat => suStringCompare u.1 v.1 ≠ 0 := by
    refine ⟨fun u v huv hvu => huv ?_⟩
    rw [suStringCompare_eq_zero_iff] at hvu ⊢
    exact hvu.symm
  have hsorted := (h.ordered.bucket_sorted y.1).imp
    (S := fun u v => suStringCompare u.1 v.1 ≠ 0) fun {u v} huv => by
      rw [h.compare] at huv
      omega
  exact hsorted.forall hbx hby hne hz

/-! ## The two laws -/

/-- The bucket invariant: every key in its bucket, every bucket strictly
increasing and prefix-free. So a stored file's path finds that file, and
removing it removes that file and nothing else. -/
theorem bucket_invariant (h : Reachable qsort maxFiles maxBytes w) :
    (∀ (i : Nat) (b : List (List UInt8 × Nat)), w.st.table.table[i]? = some b →
      (∀ it ∈ b, w.st.table.huIndex it.1 = i) ∧
      b.Pairwise fun x y => suStringCompare x.1 y.1 < 0 ∧
        ¬ x.1 <+: y.1 ∧ ¬ y.1 <+: x.1) ∧
    ∀ a ∈ w.st.ptrs,
      (w.st.fuGetfile (w.st.file a).path).1 = some a ∧
      (w.st.fuRemoveFile (w.st.file a).path).1 = 0 ∧
      w.st.ptrs.Perm (a :: (w.st.fuRemoveFile (w.st.file a).path).2.ptrs) ∧
      ∀ b, (w.st.fuRemoveFile (w.st.file a).path).2.heap b =
        if b = a then none else w.st.heap b := by
  have hwf := h.wellFormed
  constructor
  · intro i b hb
    refine ⟨hwf.ordered.placed i b hb, ?_⟩
    refine (hwf.ordered.sorted b (List.mem_of_getElem? hb)).imp fun {x y} hlt => ?_
    rw [hwf.compare] at hlt
    have hne : ¬ suStringCompare x.1 y.1 = 0 := by omega
    rw [suStringCompare_eq_zero_iff] at hne
    exact ⟨hlt, not_or.mp hne⟩
  · intro a ha
    obtain ⟨hret, hptrs, hheap, -⟩ := hwf.fuRemoveFile_path ha
    exact ⟨by rw [fuGetfile_fst, hwf.huGet_path ha], hret, hptrs, hheap⟩

/-- A server that stored "ab" and nothing else. -/
theorem run_open_ab : ∃ past w, ServerRun Qsort.insertion 1 10 past w ∧
    w.st.table.items = [([97, 98], 0)] ∧ (w.st.fuGetfile [97]).1 = some 0 ∧
    past.map (fun x => openedPath x.request x.trace) = [some [97, 98]] := by
  have hrun : ServerRun Qsort.insertion 1 10 [] ⟨_, ∅⟩ :=
    .init _ (by decide) (by decide) rfl
  refine ⟨_, _, hrun.serve [] _ _ (sapiMessageLen oCreate sapiOpenFile 2) 5
    [.read 2 (some [97, 98]), .write (.word sapiSuccess) true] 0 rfl, rfl, rfl, rfl⟩

/-- A server with "a" and "b", whose table has one bucket. -/
theorem bucket_invariant_ab : ∃ w : World FileStorage Mutex,
    w.st.table.table = [[([97], 0), ([98], 1)]] ∧
    [(([97] : List UInt8), 0), ([98], 1)].Pairwise (fun x y => suStringCompare x.1 y.1 < 0 ∧
      ¬ x.1 <+: y.1 ∧ ¬ y.1 <+: x.1) ∧
    (w.st.fuGetfile [98]).1 = some 1 ∧ (w.st.fuRemoveFile [98]).1 = 0 ∧
    w.st.ptrs.Perm (1 :: (w.st.fuRemoveFile [98]).2.ptrs) ∧
    ∀ b, (w.st.fuRemoveFile [98]).2.heap b = if b = 1 then none else w.st.heap b := by
  have h₀ : ServerRun Qsort.insertion 2 10 [] ⟨_, ∅⟩ := .init _ (by decide) (by decide) rfl
  have h₁ := h₀.serve [] _ _ (sapiMessageLen oCreate sapiOpenFile 1) 5
    [.read 1 (some [97]), .write (.word sapiSuccess) true] 0 rfl
  have h₂ := h₁.serve _ _ _ (sapiMessageLen oCreate sapiOpenFile 1) 5
    [.read 1 (some [98]), .write (.word sapiSuccess) true] 0 rfl
  obtain ⟨hbuckets, hfiles⟩ := bucket_invariant ⟨_, h₂⟩
  exact ⟨_, rfl, (hbuckets 0 _ rfl).2, hfiles 1 (by decide)⟩

/-- Path identity: a lookup of `path` finds a file created under exactly that
path, or nothing, precisely as long as no other stored path of the same bucket
is a prefix of `path` or extends it. -/
theorem path_identity (h : ServerRun qsort maxFiles maxBytes past w) (path : List UInt8) :
    (∀ a, (w.st.fuGetfile path).1 = some a → ∃ x ∈ past, x.Creates a path) ↔
    ∀ it ∈ w.st.table.items, it.1 ≠ path →
      w.st.table.huIndex it.1 = w.st.table.huIndex path →
      ¬ (it.1 <+: path ∨ path <+: it.1) := by
  have hwf := h.wellFormed
  obtain ⟨hall, hone⟩ := h.creation
  constructor
  · intro hlookup it hit hne hidx hpre
    have hz : suStringCompare path it.1 = 0 := suStringCompare_eq_zero_iff.mpr hpre.symm
    obtain ⟨a, ha⟩ := hwf.ordered.huGet_isSome hwf.strict hit hidx (hwf.compare ▸ hz)
    obtain ⟨x, hx, hc⟩ := hlookup a (by rw [fuGetfile_fst, ha])
    have hmem := WellFormed.huGet_mem_ptrs ha
    have hpath := (hone x hx a path hc).2 hmem
    have hstored := hwf.mem_items hmem
    rw [hpath] at hstored
    have heq := hwf.path_unique hit hstored hidx (suStringCompare_eq_zero_iff.mpr hpre)
    exact hne (congrArg Prod.fst heq)
  · intro hfree a ha
    rw [fuGetfile_fst] at ha
    obtain ⟨k, hm, hidx, hz⟩ := hwf.ordered.huGet_key ha
    rw [hwf.compare, suStringCompare_eq_zero_iff] at hz
    have hk : k = path := by
      by_contra hne
      exact hfree (k, a) hm hne hidx hz.symm
    obtain ⟨x, hx, hc⟩ := hall a (WellFormed.huGet_mem_ptrs ha)
    have hpath := hwf.paths (k, a) hm
    exact ⟨x, hx, by rwa [hpath, hk] at hc⟩

theorem path_identity_ab : ∃ past w, ServerRun Qsort.insertion 1 10 past w ∧
    ∀ a, (w.st.fuGetfile [97, 98]).1 = some a → ∃ x ∈ past, x.Creates a [97, 98] := by
  obtain ⟨past, w, hrun, hitems, -⟩ := run_open_ab
  refine ⟨past, w, hrun, (path_identity hrun [97, 98]).mpr ?_⟩
  simp [hitems]

/-- With "ab" stored, a lookup of "a" finds it, and no request ever named
"a". -/
theorem path_identity_prefix : ∃ past w, ServerRun Qsort.insertion 1 10 past w ∧
    (w.st.fuGetfile [97]).1 = some 0 ∧ ∀ x ∈ past, ¬ x.Creates 0 [97] := by
  obtain ⟨past, w, hrun, -, hget, hpast⟩ := run_open_ab
  refine ⟨past, w, hrun, hget, fun x hx hc => ?_⟩
  have hmem : openedPath x.request x.trace ∈ [some [97, 98]] :=
    hpast ▸ List.mem_map.mpr ⟨x, hx, rfl⟩
  rw [hc.1] at hmem
  simp at hmem

end LsoStore
