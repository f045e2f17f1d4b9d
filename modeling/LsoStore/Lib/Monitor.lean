import LsoStore.Lib.Runs
import Mathlib.Data.Fintype.Card
import Mathlib.Algebra.BigOperators.Group.Finset.Piecewise

/-!
# Threads that share data under a mutex

A monitor is shared data with one mutex and one condition variable. A thread takes
the mutex, runs a section of its code and gives the mutex back, at the end of the
section or by going to sleep on the condition; so a section is one atomic step. A
thread that was woken is in the middle of its wait until it runs again.

Two rules come with it. The number of threads at a place changes by the one that
ran, if threads that sleep there and threads woken there count alike. And a sleeper
still has the reason it went to sleep for, if no section takes that reason away
without a broadcast: no wake-up is lost.
-/

/-- Where a thread is between two sections: outside, or in one of the waits. -/
inductive Place (τ ω : Type) where
  | out (t : τ)
  | asleep (w : ω)
  | awake (w : ω)
deriving DecidableEq

/-- What a section leaves of the shared data, whether it broadcasts, and where its
thread goes. -/
structure Outcome (σ τ ω : Type) where
  shared : σ
  broadcast : Bool
  place : Place τ ω
deriving DecidableEq

namespace Monitor

variable {ι σ τ ω ℓ : Type}

def wake : Place τ ω → Place τ ω
  | .asleep w => .awake w
  | p => p

/-- After a section of thread `i`. -/
def after [DecidableEq ι] (c : Threads ι σ (Place τ ω)) (i : ι) (o : Outcome σ τ ω) :
    Threads ι σ (Place τ ω) where
  shared := o.shared
  stage := Function.update (if o.broadcast then wake ∘ c.stage else c.stage) i o.place

/-- A thread runs the section that `code` has for it where it is. With `spurious` a
sleeper may also wake by itself. -/
inductive Step [DecidableEq ι] (code : ℓ → σ → Place τ ω → Option (Outcome σ τ ω))
    (spurious : Bool) :
    Threads ι σ (Place τ ω) → ι × Option ℓ → Threads ι σ (Place τ ω) → Prop where
  | runs (c : Threads ι σ (Place τ ω)) (i : ι) (l : ℓ) (o : Outcome σ τ ω) :
      code l c.shared (c.stage i) = some o → Step code spurious c (i, some l) (after c i o)
  | wakes (c : Threads ι σ (Place τ ω)) (i : ι) (w : ω) :
      spurious = true → c.stage i = .asleep w →
      Step code spurious c (i, none) ⟨c.shared, Function.update c.stage i (.awake w)⟩

/-- All threads are outside, and nothing has been done yet. -/
def Started (s : σ) (t : τ) (c : Threads ι σ (Place τ ω)) : Prop :=
  c = ⟨s, fun _ => .out t⟩

section Count

variable [Fintype ι] {p : Place τ ω → Bool}

/-- How many threads are at a place of a kind. -/
def count (p : Place τ ω → Bool) (c : Threads ι σ (Place τ ω)) : Nat :=
  (Finset.univ.filter fun i => p (c.stage i) = true).card

theorem count_eq_sum (c : Threads ι σ (Place τ ω)) :
    count p c = ∑ i, (p (c.stage i)).toNat := by
  rw [count, Finset.card_filter]
  refine Finset.sum_congr rfl fun i _ => ?_
  cases p (c.stage i) <;> rfl

theorem count_pos {c : Threads ι σ (Place τ ω)} :
    0 < count p c ↔ ∃ i, p (c.stage i) = true := by
  rw [count, Finset.card_pos, Finset.filter_nonempty_iff]
  simp only [Finset.mem_univ, true_and]

theorem count_started {s : σ} {t : τ} {c : Threads ι σ (Place τ ω)} (h : Started s t c)
    (ht : p (.out t) = false) : count p c = 0 := by
  rw [h, count]
  simp [ht]

variable [DecidableEq ι]

/-- One thread moves. -/
theorem count_update (s : σ) (f : ι → Place τ ω) (i : ι) (t : Place τ ω) :
    count p ⟨s, Function.update f i t⟩ + (p (f i)).toNat = count p ⟨s, f⟩ + (p t).toNat := by
  rw [count_eq_sum, count_eq_sum, ← Finset.add_sum_erase _ _ (Finset.mem_univ i),
    ← Finset.add_sum_erase _ (fun j => (p (f j)).toNat) (Finset.mem_univ i)]
  have hrest : ∑ j ∈ Finset.univ.erase i, (p (Function.update f i t j)).toNat =
      ∑ j ∈ Finset.univ.erase i, (p (f j)).toNat :=
    Finset.sum_congr rfl fun j hj => by
      rw [Function.update_of_ne (Finset.ne_of_mem_erase hj)]
  simp only [Function.update_self, hrest]
  omega

/-- A section changes a count by its own thread. -/
theorem count_after (hwake : ∀ x, p (wake x) = p x) (c : Threads ι σ (Place τ ω)) (i : ι)
    (o : Outcome σ τ ω) :
    count p (after c i o) + (p (c.stage i)).toNat = count p c + (p o.place).toNat := by
  have hwoken : ∀ s : σ, count p ⟨s, wake ∘ c.stage⟩ = count p c := fun s => by
    simp only [count, Function.comp_apply, hwake]
  rw [after]
  split
  · have h := count_update (p := p) o.shared (wake ∘ c.stage) i o.place
    rwa [hwoken, Function.comp_apply, hwake] at h
  · exact count_update o.shared c.stage i o.place

/-- Waking by itself changes none. -/
theorem count_wakes (hwake : ∀ x, p (wake x) = p x) (c : Threads ι σ (Place τ ω)) {i : ι} {w : ω}
    (hi : c.stage i = .asleep w) :
    count p ⟨c.shared, Function.update c.stage i (.awake w)⟩ = count p c := by
  have h := count_update (p := p) c.shared c.stage i (.awake w)
  have hsame : p (.awake w) = p (c.stage i) := by rw [hi, ← hwake (.asleep w), wake]
  rw [hsame] at h
  exact Nat.add_right_cancel h

end Count

section Reason

variable {code : ℓ → σ → Place τ ω → Option (Outcome σ τ ω)} {spurious : Bool}
  {reason : ω → σ → Prop} {c c' : Threads ι σ (Place τ ω)} {l : ι × Option ℓ}

/-- Every sleeper has its reason to sleep. -/
def HasReason (reason : ω → σ → Prop) (c : Threads ι σ (Place τ ω)) : Prop :=
  ∀ i w, c.stage i = .asleep w → reason w c.shared

theorem hasReason_started {s : σ} {t : τ} (h : Started s t c) : HasReason reason c := by
  intro i w hi
  rw [h] at hi
  cases hi

/-- A section may take a reason away only with a broadcast, and one that goes to sleep
needs the reason. -/
theorem HasReason.step [DecidableEq ι] (h : HasReason reason c) (hs : Step code spurious c l c')
    (hcode : ∀ i l o, code l c.shared (c.stage i) = some o →
      (o.broadcast = false → ∀ w, reason w c.shared → reason w o.shared) ∧
        ∀ w, o.place = .asleep w → reason w o.shared) :
    HasReason reason c' := by
  cases hs with
  | runs i l o hrun =>
      obtain ⟨hkeeps, hsleeps⟩ := hcode i l o hrun
      intro j w hj
      show reason w o.shared
      rw [after] at hj
      dsimp only at hj
      rcases eq_or_ne j i with rfl | hne
      · rw [Function.update_self] at hj
        exact hsleeps w hj
      · rw [Function.update_of_ne hne] at hj
        cases hb : o.broadcast with
        | false =>
            rw [hb, if_neg Bool.false_ne_true] at hj
            exact hkeeps hb w (h j w hj)
        | true =>
            -- a broadcast leaves no sleeper
            rw [hb, if_pos rfl, Function.comp_apply] at hj
            cases hst : c.stage j <;> rw [hst] at hj <;> cases hj
  | wakes i w hspur hi =>
      intro j v hj
      show reason v c.shared
      rcases eq_or_ne j i with rfl | hne
      · simp only [Function.update_self] at hj
        cases hj
      · simp only [Function.update_of_ne hne] at hj
        exact h j v hj

end Reason

end Monitor
