import LsoStore.FileIo

/-!
# What `fu_ensure_path` leaves

It walks from `/`, whatever the path starts with, and makes what is missing. A
refused component makes it return on the spot, from where it has got to. So the
working directory is the old one only if no component is refused, or the walk was
there when it stopped; and the folder of a relative path is made below `/`, and
not below the working directory, from which `fopen` will look for it.
-/

namespace LsoStore

open PathName FileTree

/-- What a directory entry can be called. -/
def IsName (n : Name) : Prop := n ≠ [] ∧ n ≠ [46] ∧ n ≠ [46, 46] ∧ 47 ∉ n

instance (n : Name) : Decidable (IsName n) := inferInstanceAs (Decidable (_ ∧ _))

/-- The working directory exists, and `getcwd` finds room for its name. -/
structure WorkingDir (t : FileTree Name) (cwd : List Name) : Prop where
  isDir : t.node cwd = some .dir
  names : ∀ n ∈ cwd, IsName n
  short : (pathOf cwd).length < 255

theorem move_of_isName {n : Name} (h : IsName n) : move 46 n = Move.enter n := by
  obtain ⟨hnil, hdot, hdots, -⟩ := h
  rw [move, if_neg (by simp [hnil, hdot]), if_neg hdots]

/-- The moves along a name that has no slash in it. -/
theorem moves_of_isName {n : Name} (h : IsName n) : moves 47 46 n = [Move.enter n] := by
  have hnone : ∀ c ∈ n, (c == 47) = false := fun c hc => by
    rw [beq_eq_false_iff_ne]
    exact fun heq => h.2.2.2 (heq ▸ hc)
  rw [moves, List.splitOn_eq_splitOnP, List.splitOnP_eq_singleton hnone, List.map_singleton,
    move_of_isName h]

/-- The name of a directory leads back to it. -/
theorem resolve_pathOf {dir : List Name} (h : ∀ n ∈ dir, IsName n) :
    resolve 47 46 (pathOf dir) = dir := by
  have hbody : resolve 47 46 (dir.flatMap (47 :: ·)) = dir := by
    induction dir using List.reverseRecOn with
    | nil => rfl
    | append_singleton dir n ih =>
        have hn := h n (List.mem_append_right _ (List.mem_singleton_self n))
        have hdir := ih fun m hm => h m (List.mem_append_left _ hm)
        rw [List.flatMap_append, List.flatMap_singleton, resolve_append_slash, hdir,
          moves_of_isName hn]
        rfl
  rw [pathOf]
  split
  · next hnil =>
      rw [hnil]
      rfl
  · exact hbody

variable {t : FileTree Name} {cwd : List Name} {path : List UInt8}

theorem getcwd_eq (h : t.node cwd = some .dir) :
    getcwd t cwd 255 = if (pathOf cwd).length < 255 then some (pathOf cwd) else none := by
  rw [getcwd]
  refine if_congr ?_ rfl rfl
  rw [Nat.lt_iff_add_one_le]
  exact ⟨fun hc => hc.2, fun hc => ⟨h, hc⟩⟩

/-- Going back works, as long as the directory is still there. -/
theorem chdirAbsolute_pathOf (hnames : ∀ n ∈ cwd, IsName n) (h : t.node cwd = some .dir)
    (here : List Name) : chdirAbsolute t here (pathOf cwd) = cwd := by
  rw [chdirAbsolute, resolve_pathOf hnames, if_pos h]

/-- A walk takes no directory away. -/
theorem walk_node_dir (h : t.node cwd = some .dir) (way : List (Move Name)) :
    (t.walk [] way).2.1.node cwd = some .dir := (walk_node t.root way cwd).mpr (.inl h)

/-- The leading components of a path, as `fopen` meets them from the working
directory. -/
def leading (cwd : List Name) (path : List UInt8) : List (List Name) :=
  places (if path.head? = some 47 then [] else cwd) (folderWay path)

/-- The components the walk of `fu_ensure_path` gets to. -/
def ensured (t : FileTree Name) (cwd : List Name) (path : List UInt8) : List (List Name) :=
  if (pathOf cwd).length < 255 then t.reached [] (folderWay path) else []

/-- The tree that is left. -/
theorem fuEnsurePath_tree (h : t.node cwd = some .dir) (hlen : path.length < 256) :
    ∃ t' cwd', fuEnsurePath t cwd path = .ret (t', cwd') ∧
      ∀ x, t'.node x = some .dir ↔
        t.node x = some .dir ∨ t.node x = none ∧ x ∈ ensured t cwd path := by
  have hfits : ¬ path.length + 1 > 256 := by omega
  rw [fuEnsurePath, if_neg hfits, getcwd_eq h]
  by_cases hshort : (pathOf cwd).length < 255
  · have hensured : ensured t cwd path = t.reached [] (folderWay path) := if_pos hshort
    rw [if_pos hshort]
    simp only [hensured]
    have hnode := walk_node t.root (folderWay path)
    generalize t.walk [] (folderWay path) = walked at hnode
    obtain ⟨finished, t', cwd'⟩ := walked
    cases finished with
    | false => exact ⟨t', cwd', rfl, hnode⟩
    | true => exact ⟨t', _, rfl, hnode⟩
  · have hensured : ensured t cwd path = [] := if_neg hshort
    rw [if_neg hshort]
    exact ⟨t, cwd, rfl, fun x => by simp [hensured]⟩

/-- `fu_ensure_path` returns to the working directory exactly when no leading
component of the path, as met from `/`, is refused (there and no directory, or
missing and not to be made), or the components in front of the first refused one
lead to the working directory. -/
theorem ensure_path_restores_iff (h : WorkingDir t cwd) (hlen : path.length < 256) :
    ∃ t' cwd', fuEnsurePath t cwd path = .ret (t', cwd') ∧
      (cwd' = cwd ↔
        (∀ x ∈ places [] (folderWay path), t.Passable x) ∨
          t.BlockedAt [] (folderWay path) cwd) := by
  have hfits : ¬ path.length + 1 > 256 := by omega
  have hpass := walk_fst t.root (folderWay path)
  have hstops := fun hstop : (t.walk [] (folderWay path)).1 = false => walk_snd t.root hstop
  have hdir := walk_node_dir h.isDir (folderWay path)
  rw [fuEnsurePath, if_neg hfits, getcwd_eq h.isDir, if_pos h.short]
  dsimp only
  generalize t.walk [] (folderWay path) = walked at hpass hstops hdir
  obtain ⟨finished, t', cwd'⟩ := walked
  cases finished with
  | false =>
      refine ⟨t', cwd', rfl, ?_⟩
      rw [hstops rfl cwd, ← hpass]
      simp
  | true =>
      refine ⟨t', _, rfl, ?_⟩
      rw [chdirAbsolute_pathOf h.names hdir, ← hpass]
      simp

/-- A tree with a directory `d` and a file `f`. -/
def smallTree : FileTree Name where
  node x := if x = [] ∨ x = [[100]] then some .dir else if x = [[102]] then some .other else none
  creatable _ := true
  root := rfl
  parent d n h := by
    have hnil : d = [] := by
      by_contra hne
      refine h ?_
      cases d with
      | nil => exact absurd rfl hne
      | cons a d => simp
    rw [hnil]
    rfl

theorem smallTree_workingDir : WorkingDir smallTree [[100]] where
  isDir := rfl
  names n hn := by
    rw [List.mem_singleton.mp hn]
    decide
  short := by decide

/-- Working in `/d`, with `/d/x` and then with `/f/x` to prepare. -/
theorem ensure_path_restores_small :
    smallTree.node [[100]] = some .dir ∧
      ∃ t', fuEnsurePath smallTree [[100]] [47, 100, 47, 120] = .ret (t', [[100]]) := by
  obtain ⟨t', cwd', hret, hiff⟩ :=
    @ensure_path_restores_iff _ _ [47, 100, 47, 120] smallTree_workingDir (by decide)
  exact ⟨rfl, t', by rw [hret, hiff.mpr (.inl (by decide))]⟩

theorem ensure_path_moves :
    WorkingDir smallTree [[100]] ∧
      ∃ t', fuEnsurePath smallTree [[100]] [47, 102, 47, 120] = .ret (t', []) :=
  ⟨smallTree_workingDir, _, rfl⟩

/-- Where no leading component is refused, the folder of the path is there
afterwards and nothing else was made exactly when the leading components that are
missing are the missing ones that the walk from `/` gets to. -/
theorem ensure_path_prepares_iff (h : t.node cwd = some .dir) (hlen : path.length < 256)
    (hlead : ∀ x ∈ leading cwd path, t.Passable x) :
    ∃ t' cwd', fuEnsurePath t cwd path = .ret (t', cwd') ∧
      (((t'.follow (if path.head? = some 47 then [] else cwd) (folderWay path)).isSome ∧
          ∀ x, t'.node x = some .dir → t.node x ≠ some .dir → x ∈ leading cwd path) ↔
        ∀ x, t.node x = none → (x ∈ leading cwd path ↔ x ∈ ensured t cwd path)) := by
  obtain ⟨t', cwd', hret, hnode⟩ := fuEnsurePath_tree h hlen
  refine ⟨t', cwd', hret, ?_⟩
  rw [follow_isSome_iff]
  constructor
  · intro h x hnone
    obtain ⟨hfollow, hmade⟩ := h
    constructor
    · intro hx
      rcases (hnode x).mp (hfollow x hx) with hdir | hmissing
      · rw [hnone] at hdir
        cases hdir
      · exact hmissing.2
    · intro hx
      refine hmade x ((hnode x).mpr (.inr ⟨hnone, hx⟩)) ?_
      rw [hnone]
      exact nofun
  · intro hsame
    constructor
    · intro x hx
      rw [hnode]
      rcases hlead x hx with hdir | ⟨hnone, -⟩
      · exact .inl hdir
      · exact .inr ⟨hnone, (hsame x hnone).mp hx⟩
    · intro x hdir hold
      rcases (hnode x).mp hdir with hdir | ⟨hnone, hx⟩
      · exact absurd hdir hold
      · exact (hsame x hnone).mpr hx

/-- Working in `/d`, with `/d/e/x` and then with `e/x` to prepare. -/
theorem ensure_path_prepares_small :
    smallTree.node [[100]] = some .dir ∧
      ∃ t' cwd', fuEnsurePath smallTree [[100]] [47, 100, 47, 101, 47, 120] = .ret (t', cwd') ∧
        (t'.follow [] [.enter [100], .enter [101]]).isSome := by
  obtain ⟨t', cwd', hret, hiff⟩ :=
    @ensure_path_prepares_iff _ _ [47, 100, 47, 101, 47, 120]
      smallTree_workingDir.isDir (by decide) (by decide)
  exact ⟨rfl, t', cwd', hret, (hiff.mpr fun x _ => Iff.rfl).1⟩

theorem ensure_path_elsewhere :
    (∀ x ∈ leading [[100]] [101, 47, 120], smallTree.Passable x) ∧
      ∃ t' cwd', fuEnsurePath smallTree [[100]] [101, 47, 120] = .ret (t', cwd') ∧
        t'.node [[101]] = some .dir ∧ smallTree.node [[101]] = none ∧
        [[101]] ∉ leading [[100]] [101, 47, 120] ∧
        (t'.follow [[100]] (folderWay [101, 47, 120])).isSome = false :=
  ⟨by decide, _, _, rfl, by decide, rfl, by decide, by decide⟩

end LsoStore
