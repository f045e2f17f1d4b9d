import LsoStore.Lib.PathName

/-!
# Directory trees

A tree of directories and other files without links, a place in it given by the
names that lead there from the root. `mkdir` adds a directory, `chdir` says where
a move leads. Walking along a way with a `mkdir` before every `chdir` is
described by the tree it starts on: it gets as far as the first place that it is
refused, and makes those directories on the way that were missing.
-/

open PathName

/-- What there is in a place. A directory that cannot be entered counts as
something else. -/
inductive Node where
  | dir
  | other
deriving DecidableEq

/-- What is in each place, and where a directory may be made. -/
structure FileTree (N : Type) where
  node : List N → Option Node
  creatable : List N → Bool
  root : node [] = some .dir
  parent : ∀ d n, node (d ++ [n]) ≠ none → node d = some .dir

namespace FileTree

variable {N : Type}

/-- `chdir` from the directory `cwd`. -/
def chdir (t : FileTree N) (cwd : List N) (m : Move N) : Option (List N) :=
  if t.node (m.apply cwd) = some .dir then some (m.apply cwd) else none

/-- Along a way, as a path name is followed. -/
def follow (t : FileTree N) (dir : List N) : List (Move N) → Option (List N)
  | [] => some dir
  | m :: way =>
      match t.chdir dir m with
      | none => none
      | some dir => t.follow dir way

/-- A directory, or a place for one. -/
def Passable (t : FileTree N) (d : List N) : Prop :=
  t.node d = some .dir ∨ t.node d = none ∧ t.creatable d = true

instance (t : FileTree N) (d : List N) : Decidable (t.Passable d) :=
  inferInstanceAs (Decidable (_ ∨ _))

/-- The places on a way. -/
def places (dir : List N) : List (Move N) → List (List N)
  | [] => []
  | m :: way => m.apply dir :: places (m.apply dir) way

/-- The places on a way, as far as one can get. -/
def reached (t : FileTree N) (dir : List N) : List (Move N) → List (List N)
  | [] => []
  | m :: way =>
      if t.Passable (m.apply dir) then m.apply dir :: t.reached (m.apply dir) way else []

/-- The way is blocked, behind the directory `d`. -/
def BlockedAt (t : FileTree N) (dir : List N) (way : List (Move N)) (d : List N) : Prop :=
  ∃ front m back, way = front ++ m :: back ∧ (∀ x ∈ places dir front, t.Passable x) ∧
    ¬ t.Passable (m.apply d) ∧ go dir front = d

section Ways

variable {t : FileTree N} {cwd : List N} {m : Move N}

/-- A place that is not below `cwd` is a directory. -/
theorem node_apply (h : t.node cwd = some .dir) (hm : ∀ n, m ≠ .enter n) :
    t.node (m.apply cwd) = some .dir := by
  cases m with
  | stay => exact h
  | enter n => exact absurd rfl (hm n)
  | up =>
      rcases List.eq_nil_or_concat cwd with rfl | ⟨d, n, rfl⟩
      · exact h
      · rw [List.concat_eq_append] at h ⊢
        show t.node ((d ++ [n]).dropLast) = some .dir
        rw [List.dropLast_concat]
        exact t.parent d n (by rw [h]; exact Option.some_ne_none _)

theorem blockedAt_cons (way : List (Move N)) (d : List N) :
    t.BlockedAt cwd (m :: way) d ↔
      if t.Passable (m.apply cwd) then t.BlockedAt (m.apply cwd) way d else cwd = d := by
  split
  · next hp =>
      constructor
      · intro h
        obtain ⟨front, m', back, hway, hfront, hblocked, hd⟩ := h
        cases front with
        | nil =>
            injection hway with hm
            subst hm hd
            exact absurd hp hblocked
        | cons m₀ front =>
            injection hway with hm hway
            subst hm
            exact ⟨front, m', back, hway, (List.forall_mem_cons.mp hfront).2, hblocked, hd⟩
      · intro h
        obtain ⟨front, m', back, rfl, hfront, hblocked, hd⟩ := h
        exact ⟨m :: front, m', back, rfl, List.forall_mem_cons.mpr ⟨hp, hfront⟩, hblocked, hd⟩
  · next hp =>
      constructor
      · intro h
        obtain ⟨front, m', back, hway, hfront, -, hd⟩ := h
        cases front with
        | nil => exact hd
        | cons m₀ front =>
            injection hway with hm
            subst hm
            exact absurd (List.forall_mem_cons.mp hfront).1 hp
      · intro heq
        subst heq
        exact ⟨[], m, way, rfl, by simp [places], hp, rfl⟩

theorem follow_isSome_iff {dir : List N} {way : List (Move N)} :
    (t.follow dir way).isSome ↔ ∀ x ∈ places dir way, t.node x = some .dir := by
  induction way generalizing dir with
  | nil => simp [follow, places]
  | cons m way ih =>
      rw [follow, places, List.forall_mem_cons, chdir]
      by_cases hm : t.node (m.apply dir) = some .dir
      · rw [if_pos hm]
        dsimp only
        rw [ih]
        exact ⟨fun h => ⟨hm, h⟩, fun h => h.2⟩
      · rw [if_neg hm]
        exact ⟨fun h => absurd h Bool.false_ne_true, fun h => absurd h.1 hm⟩

end Ways

/-! ## Walking -/

section Walk

variable [DecidableEq N]

/-- Add a directory where there is none. -/
def add (t : FileTree N) (d : List N) (n : N) (h : t.node d = some .dir) : FileTree N where
  node x := if x = d ++ [n] then some .dir else t.node x
  creatable := t.creatable
  root := by
    rw [if_neg (by simp)]
    exact t.root
  parent x m hx := by
    split
    · rfl
    · split at hx
      · next heq =>
          rw [(List.append_inj' heq rfl).1]
          exact h
      · exact t.parent x m hx

/-- `mkdir` in the directory `cwd`. Nothing happens when there is something
already, as there is in `.` and `..`. -/
def mkdir (t : FileTree N) (cwd : List N) : Move N → FileTree N
  | .enter n =>
      if h : t.node cwd = some .dir then
        if t.node (cwd ++ [n]) = none ∧ t.creatable (cwd ++ [n]) then t.add cwd n h else t
      else t
  | _ => t

/-- The walk: whether it got to the end, the tree it leaves, and where it is. -/
def walk (t : FileTree N) (cwd : List N) : List (Move N) → Bool × FileTree N × List N
  | [] => (true, t, cwd)
  | m :: way =>
      let t := t.mkdir cwd m
      match t.chdir cwd m with
      | none => (false, t, cwd)
      | some cwd => t.walk cwd way

variable {t : FileTree N} {cwd : List N} {m : Move N}

/-- One `mkdir` makes the place it is for, if that is missing and may be made. -/
theorem mkdir_node (h : t.node cwd = some .dir) (x : List N) :
    (t.mkdir cwd m).node x =
      if x = m.apply cwd ∧ t.node x = none ∧ t.creatable x = true then some .dir
      else t.node x := by
  cases m with
  | stay =>
      rw [if_neg fun hx => ?_]
      · rfl
      · rw [hx.1, Move.apply, h] at hx
        exact absurd hx.2.1 (Option.some_ne_none _)
  | up =>
      rw [if_neg fun hx => ?_]
      · rfl
      · rw [hx.1, node_apply h (by simp)] at hx
        exact absurd hx.2.1 (Option.some_ne_none _)
  | enter n =>
      rw [mkdir, dif_pos h]
      by_cases hmake : t.node (cwd ++ [n]) = none ∧ t.creatable (cwd ++ [n]) = true
      · rw [if_pos hmake]
        show (if x = cwd ++ [n] then some Node.dir else t.node x) = _
        by_cases hx : x = cwd ++ [n]
        · rw [if_pos hx, if_pos ⟨hx, by rwa [hx]⟩]
        · rw [if_neg hx, if_neg fun h => hx h.1]
      · rw [if_neg hmake, if_neg]
        intro h
        obtain ⟨rfl, hx⟩ := h
        exact hmake hx

@[simp] theorem mkdir_creatable : (t.mkdir cwd m).creatable = t.creatable := by
  cases m with
  | stay => rfl
  | up => rfl
  | enter n =>
      rw [mkdir]
      split
      · split
        · rfl
        · rfl
      · rfl

theorem passable_mkdir (h : t.node cwd = some .dir) (x : List N) :
    (t.mkdir cwd m).Passable x ↔ t.Passable x := by
  rw [Passable, Passable, mkdir_node h, mkdir_creatable]
  split
  · next hx => simp [hx.2]
  · rfl

theorem reached_mkdir (h : t.node cwd = some .dir) (dir : List N) (way : List (Move N)) :
    (t.mkdir cwd m).reached dir way = t.reached dir way := by
  induction way generalizing dir with
  | nil => rfl
  | cons m' way ih =>
      rw [reached, reached, ih]
      exact if_congr (passable_mkdir h _) rfl rfl

/-- In a passable place there is a directory after the `mkdir`. -/
theorem mkdir_node_apply (h : t.node cwd = some .dir) :
    (t.mkdir cwd m).node (m.apply cwd) = some .dir ↔ t.Passable (m.apply cwd) := by
  rw [mkdir_node h, Passable]
  split
  · next hx => simp [hx.2]
  · next hx => exact ⟨.inl, fun hp => hp.resolve_right fun hnone => hx ⟨rfl, hnone⟩⟩

theorem walk_cons_of_passable (h : t.node cwd = some .dir) (hp : t.Passable (m.apply cwd))
    (way : List (Move N)) :
    t.walk cwd (m :: way) = (t.mkdir cwd m).walk (m.apply cwd) way := by
  rw [walk, chdir, if_pos ((mkdir_node_apply h).mpr hp)]

theorem walk_cons_of_blocked (h : t.node cwd = some .dir) (hp : ¬ t.Passable (m.apply cwd))
    (way : List (Move N)) : t.walk cwd (m :: way) = (false, t.mkdir cwd m, cwd) := by
  rw [walk, chdir, if_neg fun hd => hp ((mkdir_node_apply h).mp hd)]

/-- The tree a walk leaves: the missing places it reached are directories now. -/
theorem walk_node (h : t.node cwd = some .dir) (way : List (Move N)) (x : List N) :
    (t.walk cwd way).2.1.node x = some .dir ↔
      t.node x = some .dir ∨ t.node x = none ∧ x ∈ t.reached cwd way := by
  induction way generalizing t cwd with
  | nil => simp [walk, reached]
  | cons m way ih =>
      rw [reached]
      by_cases hp : t.Passable (m.apply cwd)
      · rw [walk_cons_of_passable h hp, if_pos hp, ih ((mkdir_node_apply h).mpr hp),
          reached_mkdir h, mkdir_node h]
        by_cases hx : x = m.apply cwd
        · subst hx
          rcases hp with hd | ⟨hn, hc⟩
          · simp [hd]
          · simp [hn, hc]
        · simp [hx]
      · have hsame : ¬ (x = m.apply cwd ∧ t.node x = none ∧ t.creatable x = true) :=
          fun ⟨hx, hn⟩ => hp (.inr (by rwa [← hx]))
        rw [walk_cons_of_blocked h hp, if_neg hp, mkdir_node h, if_neg hsame]
        simp

/-- A walk that gets to the end has found every place passable. -/
theorem walk_fst (h : t.node cwd = some .dir) (way : List (Move N)) :
    (t.walk cwd way).1 = true ↔ ∀ x ∈ places cwd way, t.Passable x := by
  induction way generalizing t cwd with
  | nil => simp [walk, places]
  | cons m way ih =>
      rw [places, List.forall_mem_cons]
      by_cases hp : t.Passable (m.apply cwd)
      · rw [walk_cons_of_passable h hp, ih ((mkdir_node_apply h).mpr hp)]
        simp only [passable_mkdir h, hp, true_and]
      · rw [walk_cons_of_blocked h hp]
        simp [hp]

theorem blockedAt_mkdir (h : t.node cwd = some .dir) (dir : List N) (way : List (Move N))
    (d : List N) : (t.mkdir cwd m).BlockedAt dir way d ↔ t.BlockedAt dir way d := by
  simp only [BlockedAt, passable_mkdir h]

/-- Where a walk that does not get to the end stops. -/
theorem walk_snd (h : t.node cwd = some .dir) {way : List (Move N)}
    (hstop : (t.walk cwd way).1 = false) (d : List N) :
    (t.walk cwd way).2.2 = d ↔ t.BlockedAt cwd way d := by
  induction way generalizing t cwd with
  | nil => cases hstop
  | cons m way ih =>
      rw [blockedAt_cons]
      by_cases hp : t.Passable (m.apply cwd)
      · rw [walk_cons_of_passable h hp] at hstop ⊢
        rw [ih ((mkdir_node_apply h).mpr hp) hstop, blockedAt_mkdir h, if_pos hp]
      · rw [walk_cons_of_blocked h hp, if_neg hp]

end Walk

end FileTree
