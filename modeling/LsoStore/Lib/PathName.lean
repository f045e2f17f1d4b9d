import Mathlib.Data.List.DropRight
import Mathlib.Data.List.Infix

/-!
# Resolving path names

A path name is a string over an alphabet with a slash and a dot. Between its
slashes stand components, and going along it from a directory, each of them
stays, goes up, or enters something. Directories are the names that lead to
them from the root; going up from the root stays there, and nothing here looks
at what the names stand for.

Any way nets to going up some number of times and then down some names
(`go_eq_land`). That tells whether it ends below a directory it started from:
it must come down again by the names it went up, and further
(`below_land_iff`).
-/

namespace PathName

/-! ## Ways between directories -/

inductive Move (N : Type) where
  | stay
  | up
  | enter (name : N)

section Ways

variable {N : Type}

def Move.apply (dir : List N) : Move N → List N
  | .stay => dir
  | .up => dir.dropLast
  | .enter name => dir ++ [name]

def go (dir : List N) (way : List (Move N)) : List N := way.foldl Move.apply dir

theorem go_append (dir : List N) (way way' : List (Move N)) :
    go dir (way ++ way') = go (go dir way) way' := List.foldl_append

/-- `dir` is inside `base`, and not `base` itself. -/
def Below (base dir : List N) : Prop := base <+: dir ∧ base ≠ dir

instance [DecidableEq N] (base dir : List N) : Decidable (Below base dir) :=
  inferInstanceAs (Decidable (_ ∧ _))

/-- Up so many times, and then down. -/
structure Net (N : Type) where
  ups : Nat
  names : List N

def Net.move (net : Net N) : Move N → Net N
  | .stay => net
  | .up => if net.names = [] then ⟨net.ups + 1, []⟩ else ⟨net.ups, net.names.dropLast⟩
  | .enter name => ⟨net.ups, net.names ++ [name]⟩

def net (way : List (Move N)) : Net N := way.foldl Net.move ⟨0, []⟩

/-- Where it leads from a directory. -/
def Net.land (net : Net N) (dir : List N) : List N :=
  dir.take (dir.length - net.ups) ++ net.names

theorem apply_land (net : Net N) (dir : List N) (m : Move N) :
    Move.apply (net.land dir) m = (net.move m).land dir := by
  cases m with
  | stay => rfl
  | enter name => exact List.append_assoc _ _ _
  | up =>
      rw [Net.move]
      split
      · next hnames =>
          rw [Net.land, hnames, Net.land, List.append_nil, List.append_nil, Move.apply,
            List.dropLast_eq_take, List.take_take, List.length_take]
          congr 1
          dsimp only
          omega
      · next hnames => exact List.dropLast_append_of_ne_nil hnames

theorem go_eq_land (dir : List N) (way : List (Move N)) : go dir way = (net way).land dir := by
  have hfrom : ∀ start : Net N, go (start.land dir) way = (way.foldl Net.move start).land dir := by
    induction way with
    | nil => exact fun _ => rfl
    | cons m way ih =>
        intro start
        rw [List.foldl_cons, ← ih, ← apply_land]
        rfl
  have hstart := hfrom ⟨0, []⟩
  rwa [Net.land, Nat.sub_zero, List.take_length, List.append_nil] at hstart

/-- It comes down by the last names of `dir`, as many as it goes up, and on. -/
def Net.Returns (net : Net N) (dir : List N) : Prop :=
  Below (dir.drop (dir.length - net.ups)) net.names

instance [DecidableEq N] (net : Net N) (dir : List N) : Decidable (net.Returns dir) :=
  inferInstanceAs (Decidable (Below _ _))

theorem below_land_iff (net : Net N) (dir : List N) :
    Below dir (net.land dir) ↔ net.Returns dir := by
  have hdir := List.take_append_drop (dir.length - net.ups) dir
  rw [Net.Returns, Below, Below, Net.land]
  constructor
  · intro ⟨hpre, hne⟩
    refine ⟨?_, fun heq => hne ?_⟩
    · rw [← hdir, List.take_append_drop] at hpre
      nth_rewrite 1 [← hdir] at hpre
      exact (List.prefix_append_right_inj _).mp hpre
    · rw [← heq, hdir]
  · intro ⟨hpre, hne⟩
    constructor
    · nth_rewrite 1 [← hdir]
      exact (List.prefix_append_right_inj _).mpr hpre
    · intro heq
      nth_rewrite 1 [← hdir] at heq
      exact hne (List.append_cancel_left heq)

theorem below_go_iff (dir : List N) (way : List (Move N)) :
    Below dir (go dir way) ↔ (net way).Returns dir := by
  rw [go_eq_land, below_land_iff]

/-- The way back over a move from `dir`. -/
def back (dir : List N) : Move N → List (Move N)
  | .stay => []
  | .up => (dir.getLast?.map Move.enter).toList
  | .enter _ => [.up]

theorem go_back (dir : List N) (m : Move N) : go (m.apply dir) (back dir m) = dir := by
  cases m with
  | stay => rfl
  | enter name => exact List.dropLast_concat
  | up =>
      rw [back]
      cases h : dir.getLast? with
      | none =>
          rw [List.getLast?_eq_none_iff.mp h]
          rfl
      | some name =>
          obtain ⟨init, rfl⟩ := List.getLast?_eq_some_iff.mp h
          show (init ++ [name]).dropLast ++ [name] = init ++ [name]
          rw [List.dropLast_concat]

end Ways

/-! ## Strings -/

section Strings

variable {α : Type} [DecidableEq α] (slash dot : α) (s t : List α)

/-- What a component does. -/
def move (name : List α) : Move (List α) :=
  if name = [] ∨ name = [dot] then .stay
  else if name = [dot, dot] then .up
  else .enter name

def moves : List (Move (List α)) := (s.splitOn slash).map (move dot)

/-- The directory an absolute path name stands for. -/
def resolve : List (List α) := go [] (moves slash dot s)

/-- As far as the last slash, and what is behind it. -/
def folder : List α := s.rdropWhile (· ≠ slash)

def last : List α := s.rtakeWhile (· ≠ slash)

theorem moves_append_slash :
    moves slash dot (s ++ slash :: t) = moves slash dot s ++ moves slash dot t := by
  rw [moves, List.splitOn_eq_splitOnP, List.splitOnP_append_cons (p := (· == slash)) s t
      (beq_self_eq_true slash),
    List.map_append]
  rfl

theorem resolve_append_slash :
    resolve slash dot (s ++ slash :: t) = go (resolve slash dot s) (moves slash dot t) := by
  rw [resolve, moves_append_slash, go_append]
  rfl

theorem resolve_folder_append :
    resolve slash dot (folder slash s ++ t) =
      go (resolve slash dot (folder slash s)) (moves slash dot t) := by
  by_cases hnil : folder slash s = []
  · rw [hnil]
    rfl
  · have hlast : (folder slash s).getLast hnil = slash := by
      have hstop := List.rdropWhile_last_not (· ≠ slash) s hnil
      exact not_not.mp fun hne => hstop (decide_eq_true hne)
    have hsplit := List.dropLast_append_getLast hnil
    rw [hlast] at hsplit
    rw [← hsplit, List.append_assoc, List.singleton_append, resolve_append_slash,
      resolve_append_slash]
    rfl

theorem folder_append_last : folder slash s ++ last slash s = s :=
  List.rdropWhile_append_rtakeWhile

theorem moves_last : moves slash dot (last slash s) = [move dot (last slash s)] := by
  have hnone : ∀ c ∈ last slash s, (c == slash) = false := by
    intro c hc
    simpa using List.mem_rtakeWhile_imp hc
  rw [moves, List.splitOn_eq_splitOnP, List.splitOnP_eq_singleton hnone]
  rfl

/-- Two strings written together, from where the first one leads: back over its
last component, and then along that component and the second string as one. -/
theorem resolve_append :
    resolve slash dot (s ++ t) = go (resolve slash dot s)
      (back (resolve slash dot (folder slash s)) (move dot (last slash s)) ++
        moves slash dot (last slash s ++ t)) := by
  have hs : resolve slash dot s =
      Move.apply (resolve slash dot (folder slash s)) (move dot (last slash s)) := by
    have h := resolve_folder_append slash dot s (last slash s)
    rwa [folder_append_last, moves_last] at h
  rw [hs, go_append, go_back, ← resolve_folder_append, ← List.append_assoc, folder_append_last]

end Strings

end PathName
