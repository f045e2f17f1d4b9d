import LsoStore.Lib.SwapRemove

/-!
# The dispatcher's poll array

`poll_utils.c`. `pu_initarr` allocates zeroed entries and `pu_remove` clears
the one at the end that it gives up, so all entries past `len` are zero and the
array is the list of the first `len`. Of what `poll` reports of an entry, the
dispatcher looks at two flags.
-/

namespace LsoStore

structure PollFd where
  fd : Int
  hup : Bool
  inn : Bool
deriving DecidableEq

structure PollArr where
  arr : List PollFd
  maxlen : Nat
  empty : Bool
deriving DecidableEq

namespace PollArr

def puInitarr (maxlen : Nat) : PollArr := ⟨[], maxlen, true⟩

def puIsempty (a : PollArr) : Bool := a.arr.length = 0 && a.empty

def puIsfull (a : PollArr) : Bool := a.arr.length = a.maxlen

def puAdd (a : PollArr) (newfd : Int) : Int × PollArr :=
  if a.puIsfull then (-1, a)
  else (0, { a with arr := a.arr ++ [⟨newfd, false, false⟩] })

/-- The loop of `pu_remove`, from `i` down. -/
def findBack (arr : List PollFd) (oldfd : Int) : Nat → Option Nat
  | 0 => if arr[0]?.map PollFd.fd = some oldfd then some 0 else none
  | i + 1 =>
      if arr[i + 1]?.map PollFd.fd = some oldfd then some (i + 1) else findBack arr oldfd i

/-- The last entry takes the place of the one that goes. With `len` 0 the loop
looks at a zeroed entry, and no descriptor it is called with is 0. -/
def puRemove (a : PollArr) (oldfd : Int) : Int × PollArr :=
  if a.puIsempty then (-1, a)
  else
    match findBack a.arr oldfd (a.arr.length - 1), a.arr.getLast? with
    | some i, some last => (0, { a with arr := (a.arr.set i last).dropLast })
    | _, _ => (-1, a)

/-- The descriptors of the entries. -/
def fds (a : PollArr) : List Int := a.arr.map PollFd.fd

variable {a : PollArr} {fd : Int}

theorem puAdd_of_full (h : a.puIsfull = true) (fd : Int) : (a.puAdd fd).2 = a := by
  rw [puAdd, if_pos h]

theorem puAdd_fds (h : a.puIsfull = false) (fd : Int) : (a.puAdd fd).2.fds = a.fds ++ [fd] := by
  simp [puAdd, h, fds]

theorem findBack_some {arr : List PollFd} {n i : Nat} (h : findBack arr fd n = some i) :
    arr[i]?.map PollFd.fd = some fd := by
  induction n with
  | zero =>
      rw [findBack] at h
      split at h
      · next hfd =>
          injection h with h
          rwa [← h]
      · cases h
  | succ n ih =>
      rw [findBack] at h
      split at h
      · next hfd =>
          injection h with h
          rwa [← h]
      · exact ih h

theorem findBack_none {arr : List PollFd} {n : Nat} (h : findBack arr fd n = none) :
    ∀ i ≤ n, arr[i]?.map PollFd.fd ≠ some fd := by
  induction n with
  | zero =>
      rw [findBack] at h
      split at h
      · cases h
      · next hne =>
          intro i hi
          rwa [Nat.le_zero.mp hi]
  | succ n ih =>
      rw [findBack] at h
      split at h
      · cases h
      · next hne =>
          intro i hi
          rcases Nat.lt_or_eq_of_le hi with hi | rfl
          · exact ih h i (Nat.le_of_lt_succ hi)
          · exact hne

/-- A descriptor that is there is taken out once. -/
theorem puRemove_fds (h : fd ∈ a.fds) : a.fds.Perm (fd :: (a.puRemove fd).2.fds) := by
  obtain ⟨p, hp, hfd⟩ := List.mem_map.mp h
  have hne : a.arr ≠ [] := List.ne_nil_of_mem hp
  obtain ⟨i, hi, hget⟩ := List.getElem_of_mem hp
  have hpos : 0 < a.arr.length := List.length_pos_iff.mpr hne
  have hbusy : ¬ a.puIsempty = true := by simp [puIsempty, hne]
  rw [puRemove, if_neg hbusy]
  cases hfind : findBack a.arr fd (a.arr.length - 1) with
  | none =>
      refine absurd ?_ (findBack_none hfind i (by omega))
      rw [List.getElem?_eq_getElem hi, hget, Option.map_some, hfd]
  | some j =>
      obtain ⟨q, hq, hqfd⟩ := Option.map_eq_some_iff.mp (findBack_some hfind)
      rw [List.getLast?_eq_some_getLast hne]
      have hperm := (List.perm_set_dropLast (List.getLast?_eq_some_getLast hne) hq).map PollFd.fd
      rw [List.map_cons, hqfd] at hperm
      exact hperm

theorem puRemove_of_not_mem (h : fd ∉ a.fds) : (a.puRemove fd).2 = a := by
  rw [puRemove]
  split
  · rfl
  · split
    · next i last hfind _ =>
        obtain ⟨q, hq, hqfd⟩ := Option.map_eq_some_iff.mp (findBack_some hfind)
        exact absurd (List.mem_map.mpr ⟨q, List.mem_of_getElem? hq, hqfd⟩) h
    · rfl

@[simp] theorem puRemove_empty (a : PollArr) (fd : Int) : (a.puRemove fd).2.empty = a.empty := by
  rw [puRemove]
  split
  · rfl
  · split
    · rfl
    · rfl

end PollArr

end LsoStore
