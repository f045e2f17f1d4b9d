import LsoStore.Proofs.Transfer
import LsoStore.Proofs.Upload

/-!
# A directory over a connection

`write_nfiles_from_dir` hands its files on in rounds, one directory at a time.
Over the connection each round is a `write_files_list`, and what they store
together is what the rounds find: the walk of the tree, as far as the wanted
number of files.
-/

namespace LsoStore

open Proc FileStorage Talk

section Rounds

variable {qsort : Qsort Nat} {client : Int} {s : FileStorage} {w : World Saved Empty}
  {disk : Disk} {rounds : Nat} {wbdir : Option (List UInt8)} {fs : FileSystem}

/-- Files that can be stored together in `s`. -/
structure Uploadable (disk : Disk) (s : FileStorage) (files : List LocalFile) : Prop where
  storable : ∀ f ∈ files, f.Storable disk
  apart : files.Pairwise fun f g => Apart f.path g.path
  new : ∀ f ∈ files, ∀ a ∈ s.ptrs, Apart f.path (s.file a).path
  fits : s.currFiles + files.length ≤ s.maxFiles
  bytes : s.currBytes + (files.map (·.data.length)).sum ≤ s.maxBytes

/-- The first of them can be, and then the others. -/
theorem Uploadable.append {front behind : List LocalFile}
    (h : Uploadable disk s (front ++ behind)) :
    Uploadable disk s front ∧ ∀ s', Stored front s s' → Uploadable disk s' behind := by
  obtain ⟨hstorable, hapart, hnew, hfiles, hbytes⟩ := h
  obtain ⟨hfront, hbehind⟩ := List.forall_mem_append.mp hstorable
  obtain ⟨hnew, hnew'⟩ := List.forall_mem_append.mp hnew
  obtain ⟨hapart, hapart', hboth⟩ := List.pairwise_append.mp hapart
  rw [List.length_append] at hfiles
  rw [List.map_append, List.sum_append] at hbytes
  refine ⟨⟨hfront, hapart, hnew, by omega, by omega⟩, fun s' hs => ?_⟩
  refine ⟨hbehind, hapart', fun g hg => hs.apart (hnew' g hg) fun f hf => ?_, ?_, ?_⟩
  · exact (hboth f hf g hg).symm
  · rw [hs.currFiles, hs.maxFiles]
    omega
  · rw [hs.currBytes, hs.maxBytes]
    omega

variable (qsort w rounds wbdir) in
/-- The rounds, one after the other, store what they find. -/
theorem exchanges_writeNfilesLoop (hc : client ≠ 0) (k : Nat) {nfiles : Int}
    {filelist dirlist : UList (List UInt8)} {res : Int} {files : List LocalFile}
    (hrun : writeNfilesLoop fs k nfiles filelist dirlist =
      some (res, files.map LocalFile.path)) (hwf : s.WellFormed) (h : Uploadable disk s files) :
    ∃ s', Stored files s s' ∧
      Exchanges (serverTurns qsort client) (3 * files.length)
        (Connected.writeNfilesLoop fs disk rounds wbdir k nfiles filelist dirlist) w ⟨s, ∅⟩ res w
        ⟨s', ∅⟩ := by
  induction k generalizing nfiles filelist dirlist files s with
  | zero => cases hrun
  | succ k ih =>
      have hstop : ∀ {r : Int}, some (r, []) = some (res, files.map LocalFile.path) →
          ∃ s', Stored files s s' ∧ Exchanges (serverTurns qsort client) (3 * files.length)
            (.ret r) w ⟨s, ∅⟩ res w ⟨s', ∅⟩ := by
        intro r hr
        injection hr with hr
        injection hr with hr hfiles
        obtain rfl := List.map_eq_nil_iff.mp hfiles.symm
        exact ⟨s, .refl hwf, hr ▸ Exchanges.ret _ r _ _⟩
      rw [writeNfilesLoop] at hrun
      rw [Connected.writeNfilesLoop]
      split at hrun
      · next hgo =>
          rw [if_pos hgo]
          dsimp only at hrun ⊢
          cases hdir : dirlist.luGet 0 with
          | none =>
              rw [hdir] at hrun
              exact hstop hrun
          | some currdir =>
              rw [hdir] at hrun
              dsimp only at hrun ⊢
              split at hrun
              · next hbad =>
                  rw [if_pos hbad]
                  exact hstop hrun
              · next hfound =>
                  rw [if_neg hfound]
                  obtain ⟨⟨res', written⟩, hrest, heq⟩ := Option.map_eq_some_iff.mp hrun
                  injection heq with hres hpaths
                  obtain rfl : res' = res := hres
                  obtain ⟨front, behind, rfl, hfront, hbehind⟩ :=
                    List.map_eq_append_iff.mp hpaths.symm
                  obtain ⟨hu, hu'⟩ := h.append
                  obtain ⟨s₁, hs₁, hlist⟩ := exchanges_writeFilesList qsort w rounds wbdir hc front
                    hu.storable hu.apart hwf hu.new hu.fits hu.bytes
                  obtain ⟨s₂, hs₂, hloop⟩ := ih (by rw [hrest, hbehind]) hs₁.wellFormed
                    (hu' s₁ hs₁)
                  refine ⟨s₂, hs₁.trans hs₂, ?_⟩
                  rw [List.length_append, Nat.mul_add, Nat.add_comm]
                  rw [hfront] at hlist
                  exact hlist.bind hloop
      · next hgo =>
          rw [if_neg hgo]
          exact hstop hrun

end Rounds

/-! ## A tree of files -/

section Tree

variable {qsort : Qsort Nat} {client : Int} {s : FileStorage} {disk : Disk}
  {files tree : List LocalFile}

/-- Some of them can be stored if all of them can. -/
theorem Uploadable.subperm (h : Uploadable disk s tree) (hsub : files.Subperm tree) :
    Uploadable disk s files := by
  obtain ⟨l, hperm, hl⟩ := hsub
  have hmem : ∀ f ∈ files, f ∈ tree := fun f hf => hl.subset (hperm.mem_iff.mpr hf)
  have hapart : l.Pairwise fun f g => Apart f.path g.path := h.apart.sublist hl
  have hsum : (files.map (·.data.length)).sum ≤ (tree.map (·.data.length)).sum := by
    rw [← (hperm.map (·.data.length)).sum_eq]
    exact (hl.map (·.data.length)).sum_le_sum fun _ _ => Nat.zero_le _
  have hlength : files.length ≤ tree.length := hperm.length_eq ▸ hl.length_le
  have hfits := h.fits
  have hbytes := h.bytes
  exact ⟨fun f hf => h.storable f (hmem f hf), (hperm.pairwise_iff fun h => h.symm).mp hapart,
    fun f hf => h.new f (hmem f hf), by omega, by omega⟩

/-- Some of the paths, in any order, are the paths of some of the files. -/
theorem files_of_paths {written : List (List UInt8)}
    (h : written.Subperm (tree.map LocalFile.path)) :
    ∃ files : List LocalFile, written = files.map LocalFile.path ∧ files.Subperm tree := by
  obtain ⟨l, hperm, hl⟩ := h
  obtain ⟨chosen, hchosen, rfl⟩ := List.sublist_map_iff.mp hl
  have hfiles := (congrFun₂ (List.eq_map_comp_perm LocalFile.path) written chosen).mpr hperm.symm
  obtain ⟨files, hpaths, hsame⟩ := hfiles
  exact ⟨files, hpaths, chosen, hsame.symm, hchosen⟩

variable (qsort) in
/-- The upload of a directory whose walk is the whole tree or has enough files,
against a server with room for the tree: however client and server take their
turns, they come to the one end where as many files of the tree as were wanted, or
all of them, are stored and closed, none of them twice, and nothing else has
changed. -/
theorem directory_uploaded {fs : FileSystem} {dirname : List UInt8} {d : Dir} {nfiles : Nat}
    (hat : d.At fs dirname) (hdir : d.WellFormed) (hn : 0 < nfiles)
    (hfits : d.hasSubdirs = false ∨ nfiles ≤ (d.walk dirname).length)
    (hregular : ∀ f ∈ (d.walk dirname).take nfiles, f ∈ d.regularFiles dirname)
    (hwf : s.WellFormed) (hclient : 0 < client)
    (htree : tree.map LocalFile.path = d.regularFiles dirname) (h : Uploadable disk s tree)
    (rounds : Nat) (wbdir : Option (List UInt8)) (saved : Saved) :
    ∃ k res files s', files.Subperm tree ∧ files.length = min nfiles tree.length ∧
      Stored files s s' ∧ ∀ n c,
        Reach (atStart qsort client (Connected.writeNfilesFromDir fs disk rounds wbdir k dirname
          nfiles) saved s (n + 3 * files.length)) c →
        Reach c (atRest qsort client res saved s' n) := by
  obtain ⟨k, res, written, hrun, hlength, hsubset, hnodup⟩ :=
    uploads_of_walk hat hdir (by omega) hfits hregular
  rw [← htree] at hlength hsubset
  obtain ⟨files, rfl, hsub⟩ := files_of_paths (hnodup.subperm hsubset)
  rw [writeNfilesFromDir, if_neg (by omega)] at hrun
  obtain ⟨s', hs, hloop⟩ := exchanges_writeNfilesLoop qsort ⟨saved, ∅⟩ rounds wbdir
    (by omega : client ≠ 0) k hrun hwf (h.subperm hsub)
  rw [List.length_map, List.length_map] at hlength
  refine ⟨k, res, files, s', hsub, hlength, hs, fun n c hr => ?_⟩
  rw [Connected.writeNfilesFromDir, if_neg (by omega)] at hr
  exact exchanges_ends hloop n hr

end Tree

/-- One file of `nestedDir`, for a server with room for both. -/
theorem directory_uploaded_nested : ∃ k res files s s', files.length = 1 ∧ Stored files s s' ∧
    ∀ c, Reach (atStart Qsort.insertion 5 (Connected.writeNfilesFromDir nestedFs
        ⟨fun _ => some [7], fun _ => true⟩ 0 none k [47, 100] 1) [] s 3) c →
      Reach c (atRest Qsort.insertion 5 res [] s' 0) := by
  have hinit : fuInitFileStorage 2 10 = some ⟨_, _, _, _, _, _, _⟩ := rfl
  have hstorable : ∀ f ∈ [(⟨[47, 100, 47, 97], [7]⟩ : LocalFile),
      ⟨[47, 100, 47, 115, 47, 98], [7]⟩],
      f.Storable ⟨fun _ => some [7], fun _ => true⟩ := by
    intro f hf
    rcases List.mem_pair.mp hf with rfl | rfl
    · exact ⟨⟨by decide, by decide, by decide⟩, rfl, by decide, by decide⟩
    · exact ⟨⟨by decide, by decide, by decide⟩, rfl, by decide, by decide⟩
  have hapart : [(⟨[47, 100, 47, 97], [7]⟩ : LocalFile), ⟨[47, 100, 47, 115, 47, 98], [7]⟩].Pairwise
      fun f g => Apart f.path g.path := List.pairwise_pair.mpr ⟨by decide, by decide⟩
  obtain ⟨k, res, files, s', -, hlength, hs, hends⟩ := directory_uploaded Qsort.insertion
    nestedDir_at.1 nestedDir_at.2 (by decide : 0 < 1) (by decide) (by decide)
    (WellFormed.init (by decide) (by decide) hinit) (by decide : (0 : Int) < 5) rfl
    ⟨hstorable, hapart, fun _ _ a ha => (by cases ha), by decide, by decide⟩ 0 none []
  have hone : files.length = 1 := hlength
  refine ⟨k, res, files, _, s', hone, hs, fun c hr => hends 0 c ?_⟩
  rwa [hone]

end LsoStore
