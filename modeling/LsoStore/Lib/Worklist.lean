import Mathlib.Data.List.Nodup

/-!
# Worklists on a budget

A loop that takes what it has to do from a worklist, puts out what a visit of
the worklist finds, and stops when it has put out as much as its budget allows
or when there is nothing left to visit. A visit may add to the worklist, so
nothing says that the loop ends; it runs on fuel here, and has no result when
the fuel is gone.

`Passes` is the loop without a budget: a number of visits, all they find, and
the worklist they leave. What a budget makes of such a stretch is
`serve_passes`, from which the rest follows: a worklist that comes back to
itself either finds nothing, and then the loop never ends, or finds the same
things again.
-/

namespace Worklist

variable {W ω : Type} {visit : W → Option (List ω × W)} {j k n fuel : Nat} {w w' w'' : W}
  {out outs r : List ω}

/-- What the loop puts out from a worklist with a budget of `n`. -/
def serve (visit : W → Option (List ω × W)) : Nat → W → Nat → Option (List ω)
  | 0, _, _ => none
  | fuel + 1, w, n =>
      if n = 0 then some []
      else
        match visit w with
        | none => some []
        | some (out, w') => (serve visit fuel w' (n - out.length)).map (out.take n ++ ·)

/-- `k` visits in a row. -/
inductive Passes (visit : W → Option (List ω × W)) : Nat → W → List ω → W → Prop where
  | refl (w : W) : Passes visit 0 w [] w
  | visit {k : Nat} {w w' w'' : W} {out outs : List ω} : visit w = some (out, w') →
      Passes visit k w' outs w'' → Passes visit (k + 1) w (out ++ outs) w''

theorem Passes.one (h : visit w = some (out, w')) : Passes visit 1 w out w' := by
  have h₁ := Passes.visit h (.refl w')
  rwa [List.append_nil] at h₁

theorem Passes.trans (h₁ : Passes visit j w out w') (h₂ : Passes visit k w' outs w'') :
    Passes visit (j + k) w (out ++ outs) w'' := by
  induction h₁ with
  | refl w => rwa [Nat.zero_add]
  | visit hv _ ih =>
      rw [List.append_assoc, Nat.succ_add]
      exact .visit hv (ih h₂)

@[simp] theorem serve_zero_budget : serve visit (fuel + 1) w 0 = some [] := rfl

theorem serve_of_visit_none (h : visit w = none) : serve visit (fuel + 1) w n = some [] := by
  rw [serve]
  split
  · rfl
  · rw [h]

theorem serve_of_visit (h : visit w = some (out, w')) (hn : n ≠ 0) :
    serve visit (fuel + 1) w n =
      (serve visit fuel w' (n - out.length)).map (out.take n ++ ·) := by
  rw [serve, if_neg hn, h]

/-- More fuel changes no result. -/
theorem serve_mono (h : serve visit fuel w n = some r) (more : Nat) :
    serve visit (fuel + more) w n = some r := by
  induction fuel generalizing w n r with
  | zero => cases h
  | succ fuel ih =>
      rw [Nat.succ_add]
      rw [serve] at h ⊢
      split
      · next hn => rwa [if_pos hn] at h
      · next hn =>
          rw [if_neg hn] at h
          cases hv : visit w with
          | none => rwa [hv] at h
          | some p =>
              rw [hv] at h
              obtain ⟨r', hr', rfl⟩ := Option.map_eq_some_iff.mp h
              exact Option.map_eq_some_iff.mpr ⟨r', ih hr', rfl⟩

theorem serve_unique {fuel' : Nat} {r' : List ω} (h : serve visit fuel w n = some r)
    (h' : serve visit fuel' w n = some r') : r = r' := by
  have hr := serve_mono h fuel'
  rw [Nat.add_comm, serve_mono h' fuel] at hr
  exact (Option.some.inj hr).symm

/-- A budget over a stretch: as much of it as the budget allows, and what is
left of the budget for the rest. -/
theorem serve_passes (h : Passes visit k w out w') (fuel n : Nat) :
    serve visit (k + (fuel + 1)) w n =
      (serve visit (fuel + 1) w' (n - out.length)).map (out.take n ++ ·) := by
  induction h generalizing n with
  | refl w => simp
  | @visit k w w₁ w' out outs hv _ ih =>
      rw [Nat.succ_add]
      by_cases hn : n = 0
      · subst hn
        simp
      · rw [serve_of_visit hv hn, ih, List.length_append, Nat.sub_add_eq, Option.map_map,
          List.take_append]
        congr 1
        funext rest
        exact (List.append_assoc _ _ _).symm

theorem serve_of_le (h : Passes visit k w out w') (hn : n ≤ out.length) :
    serve visit (k + 1) w n = some (out.take n) := by
  have hs := serve_passes h 0 n
  rw [Nat.sub_eq_zero_of_le hn] at hs
  simpa using hs

/-- A stretch that leaves nothing to visit. -/
theorem serve_of_end (h : Passes visit k w out w') (hend : visit w' = none) :
    serve visit (k + 1) w n = some (out.take n) := by
  have hs := serve_passes h 0 n
  rw [serve_of_visit_none hend] at hs
  simpa using hs

/-- Visits that find nothing cost the loop fuel only. -/
theorem serve_idle (h : Passes visit k w out w') (hout : out = []) (hn : n ≠ 0) (fuel : Nat) :
    serve visit (k + fuel) w n = serve visit fuel w' n := by
  induction h with
  | refl w => rw [Nat.zero_add]
  | visit hv _ ih =>
      obtain ⟨rfl, rfl⟩ := List.append_eq_nil_iff.mp hout
      rw [Nat.succ_add, serve_of_visit hv hn, List.length_nil, Nat.sub_zero, ih rfl]
      simp

/-- A worklist that comes back to itself without finding anything is visited
for ever. -/
theorem serve_idle_cycle (h : Passes visit (k + 1) w [] w) (hn : n ≠ 0) (fuel : Nat) :
    serve visit fuel w n = none := by
  have hrounds : ∀ rounds, serve visit ((k + 1) * rounds) w n = none := by
    intro rounds
    induction rounds with
    | zero => rfl
    | succ rounds ih => rwa [Nat.mul_succ, Nat.add_comm, serve_idle h rfl hn]
  cases hr : serve visit fuel w n with
  | none => rfl
  | some r =>
      have hmore := serve_mono hr (k * fuel)
      have hfuel : fuel + k * fuel = (k + 1) * fuel := by rw [Nat.succ_mul, Nat.add_comm]
      rw [hfuel, hrounds] at hmore
      cases hmore

/-- A cycle puts out again something that is in it. -/
theorem serve_cycle (h : Passes visit (k + 1) w out w) (hn : n ≠ 0)
    (hr : serve visit fuel w n = some r) : ∃ x ∈ out, x ∈ r := by
  cases out with
  | nil =>
      rw [serve_idle_cycle h hn] at hr
      cases hr
  | cons x out =>
      refine ⟨x, List.mem_cons_self, ?_⟩
      have hmore := serve_mono hr (k + 2)
      rw [show fuel + (k + 2) = (k + 1) + (fuel + 1) by omega, serve_passes h] at hmore
      obtain ⟨rest, _, rfl⟩ := Option.map_eq_some_iff.mp hmore
      obtain ⟨m, rfl⟩ := Nat.exists_eq_succ_of_ne_zero hn
      rw [List.take_succ_cons]
      exact List.mem_append_left _ List.mem_cons_self

/-- With a budget beyond what is found before the worklist starts to come back
to itself, what the loop puts out is not without repetition. -/
theorem serve_repeats {cycle : List ω} (h : Passes visit j w out w')
    (hcycle : Passes visit (k + 1) w' cycle w') (hsub : cycle ⊆ out) (hn : out.length < n)
    (hr : serve visit fuel w n = some r) : ¬ r.Nodup := by
  intro hnodup
  have hmore := serve_mono hr (j + 1)
  rw [show fuel + (j + 1) = j + (fuel + 1) by omega, serve_passes h] at hmore
  obtain ⟨rest, hrest, rfl⟩ := Option.map_eq_some_iff.mp hmore
  rw [List.take_of_length_le (Nat.le_of_lt hn)] at hnodup
  obtain ⟨x, hx, hxrest⟩ := serve_cycle hcycle (by omega) hrest
  exact (List.nodup_append'.mp hnodup).2.2 (hsub hx) hxrest

end Worklist
