import Mathlib.Data.List.Induction
import Mathlib.Logic.Function.Basic

/-!
# Writes to places

A write puts a value in a place, whatever that held. After some writes a place
holds what the last write to it put there; where all the writes to it put the same
value, their order does not matter.
-/

namespace Overwrite

variable {K V : Type} [DecidableEq K]

/-- What the places hold after the writes, oldest first. -/
def after (before : K → Option V) (writes : List (K × V)) : K → Option V :=
  writes.foldl (fun places write => Function.update places write.1 (some write.2)) before

variable {before : K → Option V} {writes : List (K × V)} {k : K} {v : V}

theorem after_append (writes' : List (K × V)) :
    after before (writes ++ writes') = after (after before writes) writes' :=
  List.foldl_append

theorem after_concat (write : K × V) :
    after before (writes ++ [write]) =
      Function.update (after before writes) write.1 (some write.2) :=
  after_append [write]

theorem after_of_unwritten (h : ∀ e ∈ writes, e.1 ≠ k) : after before writes k = before k := by
  induction writes using List.reverseRecOn with
  | nil => rfl
  | append_singleton writes e ih =>
      have he : e.1 ≠ k := h e (List.mem_append_right _ (List.mem_singleton_self e))
      rw [after_concat, Function.update_of_ne he.symm]
      exact ih fun e he => h e (List.mem_append_left _ he)

theorem after_of_written (hsome : ∃ e ∈ writes, e.1 = k)
    (hsame : ∀ e ∈ writes, e.1 = k → e.2 = v) : after before writes k = some v := by
  induction writes using List.reverseRecOn with
  | nil =>
      obtain ⟨e, he, -⟩ := hsome
      cases he
  | append_singleton writes e ih =>
      have hlast : e ∈ writes ++ [e] := List.mem_append_right _ (List.mem_singleton_self e)
      rw [after_concat]
      by_cases he : e.1 = k
      · rw [← hsame e hlast he, he, Function.update_self]
      · rw [Function.update_of_ne (Ne.symm he)]
        refine ih ?_ fun e' he' => hsame e' (List.mem_append_left _ he')
        obtain ⟨e', he', hk⟩ := hsome
        rcases List.mem_append.mp he' with hold | hnew
        · exact ⟨e', hold, hk⟩
        · exact absurd (List.mem_singleton.mp hnew ▸ hk) he

end Overwrite
