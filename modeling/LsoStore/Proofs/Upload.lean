import LsoStore.Client
import LsoStore.Lib.Worklist

/-!
# The upload of a directory

`write_nfiles_from_dir` keeps the directories it has not read yet in a sorted
list and reads the one at the head. The paths of its subdirectories compare
equal to its own path, so they go in front of it, and the removal of its path
that follows takes out the first of them instead. That one is never read, and a
directory with subdirectories stays in the list, to be read again once the ones
in front of it are gone.

So the files that are found without a repetition are those of `Dir.walk`: of
the directory itself, and then of its subdirectories but for the first, as far
as the first of these that has subdirectories, which takes over from there.
The upload does what it should exactly when these are enough.
-/

namespace LsoStore

/-- A directory as `readdir` goes through it: entries that are no directories,
the directory itself and its parent, and subdirectories. -/
inductive Dir where
  | done
  | dots (parent : Bool) (rest : Dir)
  | file (name : List UInt8) (mode : FileMode) (rest : Dir)
  | sub (name : List UInt8) (child rest : Dir)

namespace Dir

def readdir : Dir → List Dirent
  | done => []
  | dots parent rest => ⟨if parent then [46, 46] else [46], .dir⟩ :: rest.readdir
  | file name mode rest => ⟨name, mode⟩ :: rest.readdir
  | sub name _ rest => ⟨name, .dir⟩ :: rest.readdir

def names : Dir → List (List UInt8)
  | done => []
  | dots _ rest => rest.names
  | file name _ rest => name :: rest.names
  | sub name _ rest => name :: rest.names

/-- A name that an entry can have. -/
def Name (name : List UInt8) : Prop :=
  name ≠ [] ∧ 0 ∉ name ∧ 47 ∉ name ∧ name ≠ [46] ∧ name ≠ [46, 46]

/-- A tree without symbolic links. -/
def WellFormed : Dir → Prop
  | done => True
  | dots _ rest => rest.WellFormed
  | file name mode rest =>
      Name name ∧ name ∉ rest.names ∧ mode ≠ .dir ∧ mode ≠ .lnk ∧ rest.WellFormed
  | sub name child rest =>
      Name name ∧ name ∉ rest.names ∧ child.WellFormed ∧ rest.WellFormed

/-- The file system has the subdirectories of `path`, and all below them. -/
def SubdirsAt (fs : FileSystem) (path : List UInt8) : Dir → Prop
  | done => True
  | dots _ rest => rest.SubdirsAt fs path
  | file _ _ rest => rest.SubdirsAt fs path
  | sub name child rest =>
      fs (entryPath path name) = some child.readdir ∧
        child.SubdirsAt fs (entryPath path name) ∧ rest.SubdirsAt fs path

/-- The tree is at `path`. -/
def At (fs : FileSystem) (path : List UInt8) (d : Dir) : Prop :=
  fs path = some d.readdir ∧ d.SubdirsAt fs path

/-- The regular files of the tree. -/
def regularFiles (path : List UInt8) : Dir → List (List UInt8)
  | done => []
  | dots _ rest => rest.regularFiles path
  | file name mode rest =>
      if mode = .reg then entryPath path name :: rest.regularFiles path
      else rest.regularFiles path
  | sub name child rest => child.regularFiles (entryPath path name) ++ rest.regularFiles path

def hasSubdirs : Dir → Bool
  | done => false
  | dots _ rest => rest.hasSubdirs
  | file _ _ rest => rest.hasSubdirs
  | sub _ _ _ => true

end Dir

/-- What is taken for a file among the entries of a directory. -/
def fileEntries (dirpath : List UInt8) (dir : List Dirent) : List (List UInt8) :=
  (dir.filter fun file => duFilenodetype file.stMode = '-').map fun file =>
    entryPath dirpath file.dName

/-- A directory and what the upload finds from it on. -/
structure Walk where
  path : List UInt8
  goesOn : Bool
  files : List (List UInt8)

/-- Directories one after the other, as far as the first one that has
subdirectories. -/
def Walk.follow : List Walk → List (List UInt8)
  | [] => []
  | walk :: walks => if walk.goesOn then walk.files else walk.files ++ follow walks

/-- The list of directories after these went into it one by one. -/
def Walk.placed (walks : List Walk) : List Walk :=
  SortedList.placeAll suStringCompare Walk.path [] walks

namespace Dir

/-- The subdirectories, in the order of `readdir`. -/
def subwalks (path : List UInt8) : Dir → List Walk
  | done => []
  | dots _ rest => rest.subwalks path
  | file _ _ rest => rest.subwalks path
  | sub name child rest =>
      let childPath := entryPath path name
      ⟨childPath, child.hasSubdirs, fileEntries childPath child.readdir ++
        Walk.follow (Walk.placed (child.subwalks childPath)).tail⟩ :: rest.subwalks path

/-- What the upload finds before it finds anything again. -/
def walk (path : List UInt8) (d : Dir) : List (List UInt8) :=
  fileEntries path d.readdir ++ Walk.follow (Walk.placed (d.subwalks path)).tail

end Dir

/-- `write_nfiles_from_dir` returns, and has handed on `nfiles` regular files of
the tree, or all of them if there are fewer, none of them twice. -/
def Uploads (fs : FileSystem) (dirname : List UInt8) (d : Dir) (nfiles : Nat) : Prop :=
  ∃ rounds res written, writeNfilesFromDir fs rounds dirname nfiles = some (res, written) ∧
    written.length = min nfiles (d.regularFiles dirname).length ∧
    written ⊆ d.regularFiles dirname ∧ written.Nodup

/-! ## The loop as a worklist

Reading a directory in full: its files are found, and its subdirectories go in
front of it before the head is taken out. -/

section Loop

variable {fs : FileSystem} {dirpath : List UInt8} {dir : List Dirent} {n : Nat}
  {filelist dirlist : UList (List UInt8)}

def subdirEntries (dirpath : List UInt8) (dir : List Dirent) : List (List UInt8) :=
  (dir.filter fun file =>
    duFilenodetype file.stMode = 'd' ∧ file.dName ≠ [46] ∧ file.dName ≠ [46, 46]).map
      fun file => entryPath dirpath file.dName

theorem fileEntries_cons_of_file {file : Dirent} (h : duFilenodetype file.stMode = '-') :
    fileEntries dirpath (file :: dir) =
      entryPath dirpath file.dName :: fileEntries dirpath dir := by
  rw [fileEntries, List.filter_cons_of_pos (by simpa using h)]
  rfl

theorem fileEntries_cons_of_ne {file : Dirent} (h : duFilenodetype file.stMode ≠ '-') :
    fileEntries dirpath (file :: dir) = fileEntries dirpath dir := by
  rw [fileEntries, List.filter_cons_of_neg (by simpa using h)]
  rfl

theorem subdirEntries_cons_of_dir {file : Dirent}
    (h : duFilenodetype file.stMode = 'd' ∧ file.dName ≠ [46] ∧ file.dName ≠ [46, 46]) :
    subdirEntries dirpath (file :: dir) =
      entryPath dirpath file.dName :: subdirEntries dirpath dir := by
  rw [subdirEntries, List.filter_cons_of_pos (by simpa using h)]
  rfl

theorem subdirEntries_cons_of_not {file : Dirent}
    (h : ¬ (duFilenodetype file.stMode = 'd' ∧ file.dName ≠ [46] ∧ file.dName ≠ [46, 46])) :
    subdirEntries dirpath (file :: dir) = subdirEntries dirpath dir := by
  rw [subdirEntries, List.filter_cons_of_neg (by simpa using h)]
  rfl

def readHead (fs : FileSystem) :
    List (List UInt8) → Option (List (List UInt8) × List (List UInt8))
  | [] => none
  | currdir :: dirs =>
      (fs currdir).map fun dir =>
        (fileEntries currdir dir,
          (SortedList.placeAll suStringCompare id (currdir :: dirs)
            (subdirEntries currdir dir)).tail)

/-- The list of directories, with the paths `dirs` in it. -/
structure Dirlist (dirlist : UList (List UInt8)) (dirs : List (List UInt8)) : Prop where
  nodes : dirlist.nodes = dirs
  counted : dirlist.Counted
  compare : dirlist.compare = suStringCompare

theorem Dirlist.luInsert {dirs : List (List UInt8)} (h : Dirlist dirlist dirs)
    (path : List UInt8) :
    Dirlist (dirlist.luInsert path).2 (SortedList.place suStringCompare id path dirs) := by
  obtain ⟨rfl, hcounted, hcompare⟩ := h
  refine ⟨?_, hcounted.luInsert path, hcompare⟩
  rw [UList.luInsert_nodes, hcompare]
  rfl

theorem perm_luInsert (filelist : UList (List UInt8)) (data : List UInt8) :
    (filelist.luInsert data).2.nodes.Perm (data :: filelist.nodes) := by
  rw [UList.luInsert_nodes]
  exact SortedList.perm_place

/-- What the loop over the entries leaves when `n` paths are still wanted. The
directories matter only as long as it does not stop early. -/
structure EntriesRead (dirpath : List UInt8) (dir : List Dirent) (n : Nat)
    (filelist : UList (List UInt8)) (dirs : List (List UInt8))
    (r : Int × UList (List UInt8) × UList (List UInt8)) : Prop where
  wanted : r.1 = (n - (fileEntries dirpath dir).length : Nat)
  found : r.2.1.nodes.Perm ((fileEntries dirpath dir).take n ++ filelist.nodes)
  counted : r.2.1.Counted
  dirs : (fileEntries dirpath dir).length < n →
    Dirlist r.2.2 (SortedList.placeAll suStringCompare id dirs (subdirEntries dirpath dir))

theorem readEntries_spec (dirpath : List UInt8) (dir : List Dirent) (n : Nat)
    {dirs : List (List UInt8)} (hfiles : filelist.Counted)
    (hdirs : Dirlist dirlist dirs) :
    EntriesRead dirpath dir n filelist dirs
      (readEntries dirpath dir n filelist dirlist) := by
  induction dir generalizing n filelist dirlist dirs with
  | nil => exact ⟨rfl, by simp [readEntries, fileEntries], hfiles, fun _ => hdirs⟩
  | cons file dir ih =>
      rw [readEntries]
      split
      · next hn =>
          obtain rfl : n = 0 := by omega
          rw [Int.natCast_zero]
          exact ⟨by simp, List.Perm.refl _, hfiles, fun h => by omega⟩
      · next hn =>
          dsimp only
          split
          · next hd =>
              have hr := ih n hfiles (hdirs.luInsert (entryPath dirpath file.dName))
              have hne : duFilenodetype file.stMode ≠ '-' := by
                rw [hd.1]
                decide
              obtain ⟨hwanted, hfound, hcounted, hplaced⟩ := hr
              refine ⟨?_, ?_, hcounted, ?_⟩
              · rw [fileEntries_cons_of_ne hne, hwanted]
              · rwa [fileEntries_cons_of_ne hne]
              · rw [fileEntries_cons_of_ne hne, subdirEntries_cons_of_dir hd]
                exact hplaced
          · next hd =>
              split
              · next hfile =>
                  obtain ⟨m, rfl⟩ := Nat.exists_eq_succ_of_ne_zero (n := n) (by omega)
                  obtain ⟨hwanted, hfound, hcounted, hplaced⟩ :=
                    ih m (hfiles.luInsert (entryPath dirpath file.dName)) hdirs
                  have hm : ((m + 1 : Nat) : Int) - 1 = m := by omega
                  have hput := (perm_luInsert filelist (entryPath dirpath file.dName)).append_left
                    ((fileEntries dirpath dir).take m)
                  rw [show (filelist.luInsert (entryPath dirpath file.dName)).1 = 0 from rfl,
                    if_pos (by decide), hm]
                  refine ⟨?_, ?_, hcounted, ?_⟩
                  · rw [fileEntries_cons_of_file hfile, List.length_cons, Nat.succ_sub_succ]
                    exact hwanted
                  · rw [fileEntries_cons_of_file hfile, List.take_succ_cons, List.cons_append]
                    exact hfound.trans (hput.trans List.perm_middle)
                  · rw [fileEntries_cons_of_file hfile, subdirEntries_cons_of_not hd,
                      List.length_cons]
                    intro h
                    exact hplaced (by omega)
              · next hfile =>
                  obtain ⟨hwanted, hfound, hcounted, hplaced⟩ := ih n hfiles hdirs
                  refine ⟨?_, ?_, hcounted, ?_⟩
                  · rw [fileEntries_cons_of_ne hfile, hwanted]
                  · rwa [fileEntries_cons_of_ne hfile]
                  · rwa [fileEntries_cons_of_ne hfile, subdirEntries_cons_of_not hd]

theorem duGetfilepathsFromDir_spec {dirs : List (List UInt8)} (hdir : fs dirpath = some dir)
    (hn : n ≠ 0) (hfiles : filelist.Counted) (hdirs : Dirlist dirlist dirs) :
    ∃ filelist' dirlist', duGetfilepathsFromDir fs (some dirpath) n filelist dirlist =
        (((min (fileEntries dirpath dir).length n : Nat) : Int), filelist', dirlist') ∧
      filelist'.nodes.Perm ((fileEntries dirpath dir).take n ++ filelist.nodes) ∧
      filelist'.Counted ∧
      ((fileEntries dirpath dir).length < n → Dirlist dirlist'
        (SortedList.placeAll suStringCompare id dirs (subdirEntries dirpath dir))) := by
  obtain ⟨hwanted, hfound, hcounted, hplaced⟩ :=
    readEntries_spec dirpath dir n hfiles hdirs
  refine ⟨_, _, ?_, hfound, hcounted, hplaced⟩
  rw [duGetfilepathsFromDir]
  dsimp only
  rw [if_neg (by omega), hdir]
  dsimp only
  rw [hwanted]
  congr 1
  omega

/-- Everything in front of `currdir` is below it, so the head goes. -/
theorem luRemove_currdir {currdir : List UInt8} {front dirs : List (List UInt8)}
    (h : Dirlist dirlist (front ++ currdir :: dirs)) (hbelow : ∀ path ∈ front, currdir <+: path) :
    Dirlist (dirlist.luRemove currdir).2 (front ++ currdir :: dirs).tail := by
  obtain ⟨head, next, hnodes, hhead⟩ :
      ∃ head next, front ++ currdir :: dirs = head :: next ∧ currdir <+: head := by
    cases front with
    | nil => exact ⟨currdir, dirs, rfl, List.prefix_refl currdir⟩
    | cons head front => exact ⟨head, _, rfl, hbelow head List.mem_cons_self⟩
  rw [hnodes] at h ⊢
  have h0 : dirlist.compare currdir head = 0 := by
    rw [h.compare]
    exact suStringCompare_eq_zero_iff.mpr (.inl hhead)
  rw [UList.luRemove_head h.counted h.nodes h0]
  refine ⟨rfl, ?_, h.compare⟩
  have hlen := h.counted
  rw [UList.Counted, h.nodes, List.length_cons] at hlen
  rw [UList.Counted]
  show dirlist.len - 1 = next.length
  omega

theorem prefix_entryPath (path name : List UInt8) : path <+: entryPath path name :=
  ⟨[47] ++ name, by rw [entryPath, List.append_assoc]⟩

/-- The subdirectories of the head, put into the list. -/
theorem placeAll_subdirEntries (currdir : List UInt8) (dir : List Dirent)
    (dirs : List (List UInt8)) :
    SortedList.placeAll suStringCompare id (currdir :: dirs) (subdirEntries currdir dir) =
      SortedList.placeAll suStringCompare id [] (subdirEntries currdir dir) ++
        currdir :: dirs ∧
    ∀ path ∈ SortedList.placeAll suStringCompare id [] (subdirEntries currdir dir),
      currdir <+: path := by
  have hbelow : ∀ path ∈ subdirEntries currdir dir, currdir <+: path := by
    intro path hpath
    obtain ⟨file, _, rfl⟩ := List.mem_map.mp hpath
    exact prefix_entryPath currdir file.dName
  constructor
  · refine SortedList.placeAll_append_cons (l := []) fun path hpath => ?_
    exact (suStringCompare_eq_zero_iff.mpr (.inr (hbelow path hpath))).le
  · intro path hpath
    have hmem := (SortedList.perm_placeAll [] (subdirEntries currdir dir)).mem_iff.mp hpath
    rw [List.append_nil] at hmem
    exact hbelow path hmem

theorem luFree_filelist (h : filelist.Counted) :
    filelist.luFree.nodes = [] ∧ filelist.luFree.Counted := by
  rw [UList.luFree]
  split
  · next hempty =>
      have hlen : filelist.len = 0 := by simpa [UList.luIsEmpty] using hempty
      exact ⟨List.length_eq_zero_iff.mp (h.symm.trans hlen), h⟩
  · exact ⟨rfl, rfl⟩

/-- The loop finds the files that the worklist does, each round's in an order of
its own. -/
theorem writeNfilesLoop_eq_serve (rounds : Nat) {dirs : List (List UInt8)}
    (hempty : filelist.nodes = []) (hfiles : filelist.Counted)
    (hdirs : n ≠ 0 → Dirlist dirlist dirs) :
    (writeNfilesLoop fs rounds n filelist dirlist).map (fun r => Multiset.ofList r.2) =
      (Worklist.serve (readHead fs) rounds dirs n).map Multiset.ofList := by
  induction rounds generalizing n filelist dirlist dirs with
  | zero => rfl
  | succ rounds ih =>
      rw [writeNfilesLoop, Worklist.serve]
      by_cases hn : n = 0
      · subst hn
        simp
      · rw [if_neg hn]
        have hd := hdirs hn
        cases dirs with
        | nil =>
            have hlen : dirlist.len = 0 := by rw [hd.counted, hd.nodes, List.length_nil]
            simp [hlen, readHead]
        | cons currdir dirs =>
            have hlen : dirlist.len = dirs.length + 1 := by
              rw [hd.counted, hd.nodes, List.length_cons]
            have hget : dirlist.luGet 0 = some currdir := by
              rw [UList.luGet, if_neg (by omega), hd.nodes]
              rfl
            rw [if_pos ⟨by omega, by omega⟩, hget, readHead]
            dsimp only
            cases hdir : fs currdir with
            | none =>
                have hfails : duGetfilepathsFromDir fs (some currdir) n filelist dirlist =
                    (-1, filelist, dirlist) := by
                  simp [duGetfilepathsFromDir, hn, hdir]
                rw [hfails]
                rfl
            | some dir =>
                obtain ⟨filelist', dirlist', hread, hfound, hcounted, hplaced⟩ :=
                  duGetfilepathsFromDir_spec hdir hn hfiles hd
                rw [hread]
                dsimp only [Option.map_some]
                obtain ⟨hfreed, hfreed'⟩ := luFree_filelist hcounted
                obtain ⟨heq, hbelow⟩ := placeAll_subdirEntries currdir dir dirs
                rw [hempty, List.append_nil] at hfound
                rw [heq] at hplaced ⊢
                have hnext := ih (n := n - (fileEntries currdir dir).length) hfreed hfreed'
                  fun hleft => luRemove_currdir (hplaced (by omega)) hbelow
                have hbudget : (n : Int) - (min (fileEntries currdir dir).length n : Nat) =
                    (n - (fileEntries currdir dir).length : Nat) := by omega
                have hround : (fun r => Multiset.ofList r.2) ∘
                    (fun r : Int × List (List UInt8) => (r.1, filelist'.nodes ++ r.2)) =
                      (Multiset.ofList ((fileEntries currdir dir).take n) + ·) ∘
                        fun r : Int × List (List UInt8) => Multiset.ofList r.2 := by
                  funext r
                  exact Multiset.coe_eq_coe.mpr (hfound.append_right r.2)
                rw [if_neg (by omega), hbudget, Option.map_map, Option.map_map, hround,
                  ← Option.map_map, hnext, Option.map_map]
                rfl

end Loop

/-! ## What a directory comes to -/

section Served

variable {fs : FileSystem} {path : List UInt8} {dir : List Dirent} {walks : List Walk}

/-- From a directory at the head of the list the upload finds the files of its
walk. Then it goes on behind it, or it has come to where it reads the same
directories again and again. -/
def Served (fs : FileSystem) (walk : Walk) : Prop :=
  ∀ dirs, ∃ k dirs', Worklist.Passes (readHead fs) k (walk.path :: dirs) walk.files dirs' ∧
    if walk.goesOn then
      ∃ j cycle, Worklist.Passes (readHead fs) (j + 1) dirs' cycle dirs' ∧ cycle ⊆ walk.files
    else dirs' = dirs

theorem served_follow (h : ∀ walk ∈ walks, Served fs walk) (dirs : List (List UInt8)) :
    ∃ k dirs', Worklist.Passes (readHead fs) k (walks.map Walk.path ++ dirs)
        (Walk.follow walks) dirs' ∧
      (dirs' = dirs ∨ ∃ j cycle, Worklist.Passes (readHead fs) (j + 1) dirs' cycle dirs' ∧
        cycle ⊆ Walk.follow walks) := by
  induction walks with
  | nil => exact ⟨0, dirs, .refl dirs, .inl rfl⟩
  | cons walk walks ih =>
      rw [List.forall_mem_cons] at h
      obtain ⟨j, dirs', hwalk, hend⟩ := h.1 (walks.map Walk.path ++ dirs)
      rw [Walk.follow, List.map_cons, List.cons_append]
      split
      · next hgoes =>
          rw [if_pos hgoes] at hend
          exact ⟨j, dirs', hwalk, .inr hend⟩
      · next hgoes =>
          rw [if_neg hgoes] at hend
          subst hend
          obtain ⟨k, dirs', hwalks, hend⟩ := ih h.2
          refine ⟨j + k, dirs', hwalk.trans hwalks, hend.imp_right ?_⟩
          intro ⟨i, cycle, hcycle, hsub⟩
          exact ⟨i, cycle, hcycle, List.Subset.trans hsub (List.subset_append_right _ _)⟩

theorem perm_placed (walks : List Walk) : (Walk.placed walks).Perm walks := by
  have hperm : (Walk.placed walks).Perm (walks ++ []) := SortedList.perm_placeAll [] walks
  rwa [List.append_nil] at hperm

theorem served_of_subwalks (hdir : fs path = some dir)
    (hsubs : subdirEntries path dir = walks.map Walk.path) (h : ∀ walk ∈ walks, Served fs walk) :
    Served fs ⟨path, !walks.isEmpty,
      fileEntries path dir ++ Walk.follow (Walk.placed walks).tail⟩ := by
  intro dirs
  have hplaced : SortedList.placeAll suStringCompare id [] (subdirEntries path dir) =
      (Walk.placed walks).map Walk.path := by
    rw [hsubs, Walk.placed, SortedList.map_placeAll]
    rfl
  have hperm := perm_placed walks
  have hread : readHead fs (path :: dirs) = some (fileEntries path dir,
      ((Walk.placed walks).map Walk.path ++ path :: dirs).tail) := by
    rw [readHead, hdir, Option.map_some, (placeAll_subdirEntries path dir dirs).1, hplaced]
  cases hwalks : Walk.placed walks with
  | nil =>
      rw [hwalks] at hread hperm
      rw [hperm.nil_eq.symm, List.tail_nil, Walk.follow, List.append_nil]
      exact ⟨1, dirs, .one hread, rfl⟩
  | cons walk rest =>
      rw [hwalks] at hread hperm
      have hne : (!walks.isEmpty) = true := by
        cases walks with
        | nil => exact absurd hperm.eq_nil (List.cons_ne_nil _ _)
        | cons _ _ => rfl
      rw [hne, List.tail_cons]
      have hrest : ∀ walk ∈ rest, Served fs walk := by
        intro walk' hmem
        exact h walk' (hperm.mem_iff.mp (List.mem_cons_of_mem _ hmem))
      obtain ⟨k, dirs', hfollow, hend⟩ := served_follow hrest (path :: dirs)
      have hpass := (Worklist.Passes.one hread).trans hfollow
      refine ⟨1 + k, dirs', hpass, ?_⟩
      rw [if_pos rfl]
      rcases hend with rfl | ⟨j, cycle, hcycle, hsub⟩
      · exact ⟨k, _, Nat.add_comm 1 k ▸ hpass, List.Subset.refl _⟩
      · exact ⟨j, cycle, hcycle, List.Subset.trans hsub (List.subset_append_right _ _)⟩

namespace Dir

variable {d : Dir}

theorem hasSubdirs_eq (path : List UInt8) (d : Dir) :
    d.hasSubdirs = !(d.subwalks path).isEmpty := by
  induction d with
  | done => rfl
  | dots _ _ ih => exact ih
  | file _ _ _ ih => exact ih
  | sub _ _ _ _ _ => rfl

theorem subdirEntries_readdir (path : List UInt8) (hwf : d.WellFormed) :
    subdirEntries path d.readdir = (d.subwalks path).map Walk.path := by
  induction d with
  | done => rfl
  | dots parent rest ih =>
      rw [subwalks, ← ih hwf]
      cases parent <;> rfl
  | file name mode rest ih =>
      obtain ⟨_, _, hdir, _, hrest⟩ := hwf
      have hmode : duFilenodetype mode ≠ 'd' := by
        cases mode with
        | dir => exact absurd rfl hdir
        | sock => decide
        | lnk => decide
        | reg => decide
        | other => decide
      rw [subwalks, ← ih hrest]
      exact subdirEntries_cons_of_not fun h => hmode h.1
  | sub name child rest _ ih =>
      obtain ⟨⟨_, _, _, hdot, hdots⟩, _, _, hrest⟩ := hwf
      rw [subwalks, List.map_cons, ← ih hrest]
      exact subdirEntries_cons_of_dir ⟨rfl, hdot, hdots⟩

/-- The subdirectories of a tree, by induction on the tree. -/
theorem served_subwalks (hat : d.SubdirsAt fs path) (hwf : d.WellFormed) :
    ∀ walk ∈ d.subwalks path, Served fs walk := by
  induction d generalizing path with
  | done => exact fun _ h => absurd h List.not_mem_nil
  | dots _ _ ih => exact ih hat hwf
  | file _ _ _ ih => exact ih hat hwf.2.2.2.2
  | sub name child rest ihchild ihrest =>
      obtain ⟨hdir, hchild, hrest⟩ := hat
      obtain ⟨_, _, hwfchild, hwfrest⟩ := hwf
      rw [subwalks, List.forall_mem_cons]
      refine ⟨?_, ihrest hrest hwfrest⟩
      rw [hasSubdirs_eq (entryPath path name) child]
      exact served_of_subwalks hdir (subdirEntries_readdir _ hwfchild)
        (ihchild hchild hwfchild)

theorem At.served (hat : d.At fs path) (hwf : d.WellFormed) :
    Served fs ⟨path, d.hasSubdirs, d.walk path⟩ := by
  rw [hasSubdirs_eq path d]
  exact served_of_subwalks hat.1 (subdirEntries_readdir path hwf) (served_subwalks hat.2 hwf)

end Dir

end Served

/-! ## Nothing is found twice on the way -/

section Distinct

variable {path name t f : List UInt8} {walks : List Walk} {d : Dir}

/-- The entry of `path` that a path below it goes through. -/
def entryName (path f : List UInt8) : List UInt8 :=
  (f.drop (path.length + 1)).takeWhile (· ≠ 47)

theorem drop_entryPath (path name : List UInt8) :
    (entryPath path name).drop (path.length + 1) = name := by
  rw [entryPath, List.append_assoc, ← List.drop_drop, List.drop_left]
  rfl

theorem entryPath_entryPath (path name t : List UInt8) :
    entryPath (entryPath path name) t = entryPath path (name ++ [47] ++ t) := by
  simp only [entryPath, List.append_assoc]

theorem takeWhile_name (hname : 47 ∉ name) : name.takeWhile (· ≠ 47) = name := by
  rw [List.takeWhile_eq_self_iff]
  intro b hb
  have hne : b ≠ 47 := fun h => hname (h ▸ hb)
  simpa using hne

theorem entryName_entryPath (hname : 47 ∉ name) : entryName path (entryPath path name) = name := by
  rw [entryName, drop_entryPath, takeWhile_name hname]

theorem entryName_below (hname : 47 ∉ name) :
    entryName path (entryPath (entryPath path name) t) = name := by
  rw [entryPath_entryPath, entryName, drop_entryPath, List.append_assoc,
    List.takeWhile_append_of_pos]
  · simp
  · intro b hb
    have hne : b ≠ 47 := fun h => hname (h ▸ hb)
    simpa using hne

/-- A walk from a subdirectory of `path` finds files below it, and none twice. -/
structure Walk.Distinct (path : List UInt8) (walk : Walk) : Prop where
  named : ∃ name, 47 ∉ name ∧ walk.path = entryPath path name
  nodup : walk.files.Nodup
  below : ∀ f ∈ walk.files, ∃ t, f = entryPath walk.path t

theorem Walk.Distinct.entryName_eq {walk : Walk} (h : walk.Distinct path)
    (hf : f ∈ walk.files) : entryName path f = entryName path walk.path := by
  obtain ⟨name, hname, hpath⟩ := h.named
  obtain ⟨t, rfl⟩ := h.below f hf
  rw [hpath, entryName_below hname, entryName_entryPath hname]

theorem mem_follow (h : f ∈ Walk.follow walks) : ∃ walk ∈ walks, f ∈ walk.files := by
  induction walks with
  | nil => cases h
  | cons walk walks ih =>
      rw [Walk.follow] at h
      have hcases : f ∈ walk.files ∨ f ∈ Walk.follow walks := by
        split at h
        · exact .inl h
        · exact List.mem_append.mp h
      rcases hcases with h | h
      · exact ⟨walk, List.mem_cons_self, h⟩
      · obtain ⟨walk', hmem, hf⟩ := ih h
        exact ⟨walk', List.mem_cons_of_mem _ hmem, hf⟩

theorem nodup_follow (h : ∀ walk ∈ walks, walk.Distinct path)
    (hnames : (walks.map fun walk => entryName path walk.path).Nodup) :
    (Walk.follow walks).Nodup := by
  induction walks with
  | nil => exact List.nodup_nil
  | cons walk walks ih =>
      rw [List.forall_mem_cons] at h
      rw [List.map_cons, List.nodup_cons] at hnames
      rw [Walk.follow]
      split
      · exact h.1.nodup
      · refine List.nodup_append'.mpr ⟨h.1.nodup, ih h.2 hnames.2, fun f hf hf' => ?_⟩
        obtain ⟨walk', hmem, hwalk'⟩ := mem_follow hf'
        have heq := (h.1.entryName_eq hf).symm.trans ((h.2 walk' hmem).entryName_eq hwalk')
        exact hnames.1 (heq ▸ List.mem_map_of_mem hmem)

namespace Dir

/-- The names of what is found in a directory are different ones of its
entries. -/
theorem entryNames (path : List UInt8) (hwf : d.WellFormed) :
    ((fileEntries path d.readdir ++ (d.subwalks path).map Walk.path).map
      (entryName path)).Nodup ∧
    ∀ f ∈ fileEntries path d.readdir ++ (d.subwalks path).map Walk.path,
      entryName path f ∈ d.names := by
  induction d with
  | done => exact ⟨List.nodup_nil, fun _ h => absurd h List.not_mem_nil⟩
  | dots parent rest ih =>
      have hrest := ih hwf
      cases parent <;> exact hrest
  | file name mode rest ih =>
      obtain ⟨hname, hnew, _, _, hrest⟩ := hwf
      obtain ⟨hnodup, hmem⟩ := ih hrest
      by_cases hmode : duFilenodetype mode = '-'
      · have hfiles : fileEntries path (file name mode rest).readdir =
            entryPath path name :: fileEntries path rest.readdir :=
          fileEntries_cons_of_file hmode
        rw [hfiles, subwalks, List.cons_append, List.map_cons, List.nodup_cons,
          List.forall_mem_cons, entryName_entryPath hname.2.2.1]
        refine ⟨⟨fun h => ?_, hnodup⟩, List.mem_cons_self, fun f hf => ?_⟩
        · obtain ⟨f, hf, rfl⟩ := List.mem_map.mp h
          exact hnew (hmem f hf)
        · exact List.mem_cons_of_mem _ (hmem f hf)
      · have hfiles : fileEntries path (file name mode rest).readdir =
            fileEntries path rest.readdir := fileEntries_cons_of_ne hmode
        rw [hfiles, subwalks]
        exact ⟨hnodup, fun f hf => List.mem_cons_of_mem _ (hmem f hf)⟩
  | sub name child rest _ ih =>
      obtain ⟨hname, hnew, _, hrest⟩ := hwf
      obtain ⟨hnodup, hmem⟩ := ih hrest
      have hfiles : fileEntries path (sub name child rest).readdir =
          fileEntries path rest.readdir := fileEntries_cons_of_ne (show 'd' ≠ '-' by decide)
      rw [hfiles, subwalks, List.map_cons]
      have hmiddle : List.Perm (fileEntries path rest.readdir ++
            entryPath path name :: (rest.subwalks path).map Walk.path)
          (entryPath path name :: (fileEntries path rest.readdir ++
            (rest.subwalks path).map Walk.path)) := List.perm_middle
      rw [(hmiddle.map (entryName path)).nodup_iff, List.map_cons, List.nodup_cons,
        entryName_entryPath hname.2.2.1]
      refine ⟨⟨fun h => ?_, hnodup⟩, fun f hf => ?_⟩
      · obtain ⟨f, hf, rfl⟩ := List.mem_map.mp h
        exact hnew (hmem f hf)
      · rcases List.mem_cons.mp (hmiddle.mem_iff.mp hf) with rfl | hf
        · rw [entryName_entryPath hname.2.2.1]
          exact List.mem_cons_self
        · exact List.mem_cons_of_mem _ (hmem f hf)

theorem walk_distinct (hwf : d.WellFormed) (h : ∀ walk ∈ d.subwalks path, walk.Distinct path) :
    (d.walk path).Nodup ∧ ∀ f ∈ d.walk path, ∃ t, f = entryPath path t := by
  obtain ⟨hnodup, _⟩ := entryNames path hwf
  rw [List.map_append, List.map_map] at hnodup
  obtain ⟨hfiles, hsubs, hapart⟩ := List.nodup_append'.mp hnodup
  have hperm := perm_placed (d.subwalks path)
  have hmem : ∀ walk ∈ (Walk.placed (d.subwalks path)).tail, walk ∈ d.subwalks path :=
    fun walk hw => hperm.mem_iff.mp (List.mem_of_mem_tail hw)
  have hfollow : (Walk.follow (Walk.placed (d.subwalks path)).tail).Nodup := by
    refine nodup_follow (fun walk hw => h walk (hmem walk hw)) ?_
    have hplaced := (hperm.map (entryName path ∘ Walk.path)).nodup_iff.mpr hsubs
    exact hplaced.sublist ((List.tail_sublist _).map _)
  rw [walk]
  constructor
  · refine List.nodup_append'.mpr ⟨hfiles.of_map _, hfollow, fun f hf hf' => ?_⟩
    obtain ⟨walk, hw, hwalk⟩ := mem_follow hf'
    have hname := List.mem_map_of_mem (f := entryName path) hf
    rw [(h walk (hmem walk hw)).entryName_eq hwalk] at hname
    exact hapart hname (List.mem_map_of_mem (f := entryName path ∘ Walk.path) (hmem walk hw))
  · intro f hf
    rcases List.mem_append.mp hf with hf | hf
    · obtain ⟨file, _, rfl⟩ := List.mem_map.mp hf
      exact ⟨file.dName, rfl⟩
    · obtain ⟨walk, hw, hwalk⟩ := mem_follow hf
      obtain ⟨name, _, hpath⟩ := (h walk (hmem walk hw)).named
      obtain ⟨t, rfl⟩ := (h walk (hmem walk hw)).below f hwalk
      rw [hpath, entryPath_entryPath]
      exact ⟨_, rfl⟩

theorem subwalks_distinct (hwf : d.WellFormed) :
    ∀ walk ∈ d.subwalks path, walk.Distinct path := by
  induction d generalizing path with
  | done => exact fun _ h => absurd h List.not_mem_nil
  | dots _ _ ih => exact ih hwf
  | file _ _ _ ih => exact ih hwf.2.2.2.2
  | sub name child rest ihchild ihrest =>
      obtain ⟨hname, _, hwfchild, hwfrest⟩ := hwf
      rw [subwalks, List.forall_mem_cons]
      obtain ⟨hnodup, hbelow⟩ : (child.walk (entryPath path name)).Nodup ∧
          ∀ f ∈ child.walk (entryPath path name), ∃ t, f = entryPath (entryPath path name) t :=
        walk_distinct hwfchild (ihchild hwfchild)
      exact ⟨⟨⟨name, hname.2.2.1, rfl⟩, hnodup, hbelow⟩, ihrest hwfrest⟩

theorem nodup_walk (path : List UInt8) (hwf : d.WellFormed) : (d.walk path).Nodup :=
  (walk_distinct hwf (subwalks_distinct hwf)).1

/-- Without subdirectories the walk is the whole tree. -/
theorem regularFiles_sublist (path : List UInt8) (h : d.hasSubdirs = false) :
    List.Sublist (d.regularFiles path) (d.walk path) := by
  have hfiles : List.Sublist (d.regularFiles path) (fileEntries path d.readdir) := by
    induction d with
    | done => exact List.Sublist.slnil
    | dots parent _ ih => cases parent <;> exact ih h
    | file name mode rest ih =>
        by_cases hmode : mode = .reg
        · subst hmode
          exact (ih h).cons_cons _
        · rw [regularFiles, if_neg hmode]
          refine (ih h).trans (List.Sublist.map _ (List.Sublist.filter _ ?_))
          exact List.sublist_cons_self _ _
    | sub _ _ _ => cases h
  exact hfiles.trans (List.sublist_append_left _ _)

end Dir

end Distinct

/-! ## When the upload does what it should -/

section Upload

variable {fs : FileSystem} {dirname : List UInt8} {d : Dir} {nfiles : Nat}

/-- What the upload hands on, as far as the budget goes. -/
theorem writeNfilesFromDir_eq_serve (fs : FileSystem) (rounds : Nat) (dirname : List UInt8)
    (hn : nfiles ≠ 0) :
    (writeNfilesFromDir fs rounds dirname nfiles).map (fun r => Multiset.ofList r.2) =
      (Worklist.serve (readHead fs) rounds [dirname] nfiles).map Multiset.ofList := by
  rw [writeNfilesFromDir, if_neg (by omega)]
  exact writeNfilesLoop_eq_serve rounds rfl rfl fun _ => ⟨rfl, rfl, rfl⟩

/-- When the walk is the whole tree or has enough for the budget, it is what the
upload hands on. -/
theorem serve_walk (hat : d.At fs dirname) (hwf : d.WellFormed)
    (h : d.hasSubdirs = false ∨ nfiles ≤ (d.walk dirname).length) :
    ∃ rounds, Worklist.serve (readHead fs) rounds [dirname] nfiles =
      some ((d.walk dirname).take nfiles) := by
  obtain ⟨k, dirs', hpass, hend⟩ := hat.served hwf []
  refine ⟨k + 1, ?_⟩
  rcases h with hleaf | hle
  · rw [if_neg (by simp [hleaf])] at hend
    subst hend
    exact Worklist.serve_of_end hpass rfl
  · exact Worklist.serve_of_le hpass hle

/-- Beyond that it hands on some file twice, or never returns. -/
theorem serve_beyond (hat : d.At fs dirname) (hwf : d.WellFormed) (hsub : d.hasSubdirs = true)
    (hn : (d.walk dirname).length < nfiles) {rounds : Nat} {written : List (List UInt8)}
    (hr : Worklist.serve (readHead fs) rounds [dirname] nfiles = some written) :
    ¬ written.Nodup := by
  obtain ⟨k, dirs', hpass, hend⟩ := hat.served hwf []
  rw [if_pos hsub] at hend
  obtain ⟨j, cycle, hcycle, hcyc⟩ := hend
  exact Worklist.serve_repeats hpass hcycle hcyc hn hr

theorem uploads_of_walk (hat : d.At fs dirname) (hwf : d.WellFormed) (hn : nfiles ≠ 0)
    (h : d.hasSubdirs = false ∨ nfiles ≤ (d.walk dirname).length)
    (hregular : (d.walk dirname).take nfiles ⊆ d.regularFiles dirname) :
    Uploads fs dirname d nfiles := by
  obtain ⟨rounds, hserve⟩ := serve_walk hat hwf h
  have heq := writeNfilesFromDir_eq_serve fs rounds dirname hn
  rw [hserve, Option.map_some] at heq
  obtain ⟨⟨res, written⟩, hrun, hperm⟩ := Option.map_eq_some_iff.mp heq
  replace hperm : written.Perm ((d.walk dirname).take nfiles) := Multiset.coe_eq_coe.mp hperm
  have hnodup : ((d.walk dirname).take nfiles).Nodup :=
    (d.nodup_walk dirname hwf).sublist (List.take_sublist _ _)
  refine ⟨rounds, res, written, hrun, ?_, ?_, hperm.nodup_iff.mpr hnodup⟩
  · -- a walk that is too short for the budget is the whole tree
    have hle := (hnodup.subperm hregular).length_le
    have hwhole : (d.walk dirname).length < nfiles →
        (d.regularFiles dirname).length ≤ (d.walk dirname).length := by
      intro hlt
      rcases h with hleaf | hle
      · exact (Dir.regularFiles_sublist dirname hleaf).length_le
      · omega
    rw [hperm.length_eq, List.length_take] at *
    omega
  · exact fun f hf => hregular (hperm.subset hf)

theorem Uploads.fits (h : Uploads fs dirname d nfiles) (hat : d.At fs dirname)
    (hwf : d.WellFormed) (hn : nfiles ≠ 0) :
    (d.hasSubdirs = false ∨ nfiles ≤ (d.walk dirname).length) ∧
      (d.walk dirname).take nfiles ⊆ d.regularFiles dirname := by
  obtain ⟨rounds, res, written, hrun, _, hregular, hnodup⟩ := h
  have heq := writeNfilesFromDir_eq_serve fs rounds dirname hn
  rw [hrun, Option.map_some] at heq
  obtain ⟨served, hserve, hperm⟩ := Option.map_eq_some_iff.mp heq.symm
  replace hperm : served.Perm written := Multiset.coe_eq_coe.mp hperm
  have hfits : d.hasSubdirs = false ∨ nfiles ≤ (d.walk dirname).length := by
    by_contra h
    push Not at h
    exact serve_beyond hat hwf (by simpa using h.1) h.2 hserve (hperm.nodup_iff.mpr hnodup)
  refine ⟨hfits, fun f hf => ?_⟩
  obtain ⟨rounds', hserve'⟩ := serve_walk hat hwf hfits
  rw [Worklist.serve_unique hserve' hserve] at hf
  exact hregular (hperm.subset hf)

/-- The upload does what it should exactly when the walk is the whole tree, or
has as many files as are wanted, and what it takes for files are regular. -/
theorem uploads_iff (hat : d.At fs dirname) (hwf : d.WellFormed) (hn : 0 < nfiles) :
    Uploads fs dirname d nfiles ↔
      (d.hasSubdirs = false ∨ nfiles ≤ (d.walk dirname).length) ∧
      ∀ f ∈ (d.walk dirname).take nfiles, f ∈ d.regularFiles dirname := by
  constructor
  · intro h
    obtain ⟨hfits, hregular⟩ := h.fits hat hwf (by omega)
    exact ⟨hfits, fun f hf => hregular hf⟩
  · intro ⟨hfits, hregular⟩
    exact uploads_of_walk hat hwf (by omega) hfits fun f hf => hregular f hf

end Upload

/-- A file beside a directory with a file in it. -/
def nestedDir : Dir := .file [97] .reg (.sub [115] (.file [98] .reg .done) .done)

/-- It is at `/d`. -/
def nestedFs (path : List UInt8) : Option (List Dirent) :=
  if path = [47, 100] then some nestedDir.readdir
  else if path = [47, 100, 47, 115] then some (Dir.file [98] .reg .done).readdir
  else none

theorem nestedDir_at : nestedDir.At nestedFs [47, 100] ∧ nestedDir.WellFormed := by
  constructor
  · exact ⟨rfl, rfl, trivial, trivial⟩
  · simp [nestedDir, Dir.WellFormed, Dir.Name, Dir.names]

theorem uploads_iff_nested : Uploads nestedFs [47, 100] nestedDir 1 ↔
    (nestedDir.hasSubdirs = false ∨ 1 ≤ (nestedDir.walk [47, 100]).length) ∧
      ∀ f ∈ (nestedDir.walk [47, 100]).take 1, f ∈ nestedDir.regularFiles [47, 100] :=
  uploads_iff nestedDir_at.1 nestedDir_at.2 (by decide)

/-- When both files are wanted, the first is handed on twice and the other one
never. -/
theorem uploads_twice : nestedDir.At nestedFs [47, 100] ∧ nestedDir.WellFormed ∧
    writeNfilesFromDir nestedFs 3 [47, 100] 2 =
      some (0, [[47, 100, 47, 97], [47, 100, 47, 97]]) ∧
    ¬ Uploads nestedFs [47, 100] nestedDir 2 := by
  refine ⟨nestedDir_at.1, nestedDir_at.2, by decide, fun h => ?_⟩
  obtain ⟨hfits, _⟩ := h.fits nestedDir_at.1 nestedDir_at.2 (by decide)
  revert hfits
  decide

end LsoStore
