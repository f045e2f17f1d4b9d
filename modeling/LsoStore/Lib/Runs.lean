import Mathlib.Data.List.Basic
import Mathlib.Data.List.Induction
import Mathlib.Logic.Function.Basic

/-!
# Runs of a system that takes steps

A run is kept as the list of its steps, each with the state it was taken in.
`Run.always_iff` is the rule for a property that some steps break: if, from a
state that has the property, a step leads to another one exactly when it meets
a condition on the state before it, then all states of a run have the property
exactly when all its steps meet the condition.

An interleaving is a system of threads that share a state. Each has a stage
of its own, and a step is one atomic action of one of them.
-/

/-- A run from a state that satisfies `init`. -/
inductive Run {σ ℓ : Type} (init : σ → Prop) (step : σ → ℓ → σ → Prop) :
    List (ℓ × σ) → σ → Prop where
  | init (s : σ) : init s → Run init step [] s
  | step (past : List (ℓ × σ)) (s s' : σ) (l : ℓ) : Run init step past s → step s l s' →
      Run init step (past ++ [(l, s)]) s'

/-- The states of a run, from the first to the last. -/
def visited {σ ℓ : Type} (past : List (ℓ × σ)) (s : σ) : List σ := past.map Prod.snd ++ [s]

section Run

variable {σ ℓ : Type} {init I J : σ → Prop} {step : σ → ℓ → σ → Prop} {C : ℓ → σ → Prop}
  {past : List (ℓ × σ)} {s s' : σ} {l : ℓ}

theorem forall_visited_snoc {P : σ → Prop} :
    (∀ x ∈ visited (past ++ [(l, s)]) s', P x) ↔ (∀ x ∈ visited past s, P x) ∧ P s' := by
  simp only [visited, List.map_append, List.map_cons, List.map_nil, List.forall_mem_append,
    List.forall_mem_singleton]

theorem mem_visited_self (past : List (ℓ × σ)) (s : σ) : s ∈ visited past s :=
  List.mem_append_right _ (List.mem_singleton_self _)

/-- An invariant holds in all states of a run. -/
theorem Run.always (h : Run init step past s) (hinit : ∀ s, init s → I s)
    (hstep : ∀ s l s', I s → step s l s' → I s') : ∀ x ∈ visited past s, I x := by
  induction h with
  | init s hs => simpa [visited] using hinit s hs
  | step past s s' l _ hs ih =>
      exact forall_visited_snoc.mpr ⟨ih, hstep s l s' (ih s (mem_visited_self _ _)) hs⟩

/-- When `I` survives a step exactly if the step meets `C`. What else is known
of the states, `J`, may rest on `I`. -/
theorem Run.always_iff (h : Run init step past s) (hinit : ∀ s, init s → I s ∧ J s)
    (hstep : ∀ s l s', I s → J s → step s l s' → (I s' ↔ C l s) ∧ (I s' → J s')) :
    (∀ x ∈ visited past s, I x) ↔ ∀ e ∈ past, C e.1 e.2 := by
  suffices hboth : ((∀ x ∈ visited past s, I x) → J s) ∧
      ((∀ x ∈ visited past s, I x) ↔ ∀ e ∈ past, C e.1 e.2) from hboth.2
  induction h with
  | init s hs => exact ⟨fun _ => (hinit s hs).2, by simpa [visited] using (hinit s hs).1⟩
  | step past s s' l _ hs ih =>
      obtain ⟨ihJ, ihI⟩ := ih
      rw [forall_visited_snoc, List.forall_mem_append, List.forall_mem_singleton, ← ihI]
      have hlast : (∀ x ∈ visited past s, I x) → (I s' ↔ C l s) ∧ (I s' → J s') :=
        fun hI => hstep s l s' (hI s (mem_visited_self _ _)) (ihJ hI) hs
      exact ⟨fun hI => (hlast hI.1).2 hI.2, and_congr_right fun hI => (hlast hI).1⟩

/-- A run whose steps all satisfy `C` is a run of those steps. -/
theorem Run.restrict (h : Run init step past s) (hC : ∀ e ∈ past, C e.1 e.2) :
    Run init (fun s l s' => step s l s' ∧ C l s) past s := by
  induction h with
  | init s hs => exact .init s hs
  | step past s s' l _ hs ih =>
      rw [List.forall_mem_append, List.forall_mem_singleton] at hC
      exact .step past s s' l (ih hC.1) ⟨hs, hC.2⟩

/-- A run seen through `f`, where some steps do not show. -/
theorem Run.refines {τ κ : Type} {init' : τ → Prop} {step' : τ → κ → τ → Prop} {f : σ → τ}
    {label : ℓ → σ → Option κ} (h : Run init step past s) (hinit : ∀ s, init s → init' (f s))
    (hhidden : ∀ s l s', step s l s' → label l s = none → f s' = f s)
    (hshown : ∀ s l s' k, step s l s' → label l s = some k → step' (f s) k (f s')) :
    Run init' step' (past.filterMap fun e => (label e.1 e.2).map fun k => (k, f e.2)) (f s) := by
  induction h with
  | init s hs => exact .init _ (hinit s hs)
  | step past s s' l _ hs ih =>
      rw [List.filterMap_append]
      cases hl : label l s with
      | none =>
          rw [hhidden s l s' hs hl]
          simpa [hl] using ih
      | some k => simpa [hl] using ih.step _ _ _ _ (hshown s l s' k hs hl)

/-! Systems whose steps are computed. -/

/-- The steps with the given labels, each with its state, and where they end. -/
def stepsFrom (f : σ → ℓ → Option σ) : σ → List ℓ → Option (List (ℓ × σ) × σ)
  | s, [] => some ([], s)
  | s, l :: ls =>
      (f s l).bind fun s' => (stepsFrom f s' ls).map fun r => ((l, s) :: r.1, r.2)

theorem Run.append_stepsFrom {f : σ → ℓ → Option σ} {steps : List (ℓ × σ)}
    (h : Run init (fun s l s' => f s l = some s') past s) (ls : List ℓ)
    (hs : stepsFrom f s ls = some (steps, s')) :
    Run init (fun s l s' => f s l = some s') (past ++ steps) s' := by
  induction ls generalizing past s steps with
  | nil =>
      cases hs
      rwa [List.append_nil]
  | cons l ls ih =>
      rw [stepsFrom] at hs
      obtain ⟨s₁, hf, hs⟩ := Option.bind_eq_some_iff.mp hs
      obtain ⟨⟨rest, t⟩, hrest, heq⟩ := Option.map_eq_some_iff.mp hs
      cases heq
      have hall := ih (h.step _ _ _ _ hf) hrest
      rwa [List.append_assoc] at hall

end Run

/-! What stands before an element of a list, and the last element of a kind. -/

section IsLastOf

variable {α : Type} {p : α → Prop} {l : List α} {x y : α}

/-- `x` satisfies `p`, and nothing behind it does. -/
def IsLastOf (p : α → Prop) (l : List α) (x : α) : Prop :=
  ∃ front behind, l = front ++ x :: behind ∧ p x ∧ ∀ y ∈ behind, ¬ p y

theorem not_isLastOf_nil : ¬ IsLastOf p [] x := by
  intro h
  obtain ⟨front, behind, hl, -⟩ := h
  exact List.append_ne_nil_of_right_ne_nil front (List.cons_ne_nil x behind) hl.symm

/-- It is the element that was just added, or it was there before. -/
theorem isLastOf_snoc :
    IsLastOf p (l ++ [y]) x ↔ (p y ∧ x = y) ∨ (¬ p y ∧ IsLastOf p l x) := by
  constructor
  · intro h
    obtain ⟨front, behind, hl, hx, hbehind⟩ := h
    rcases List.eq_nil_or_concat' behind with rfl | ⟨behind, z, rfl⟩
    · obtain ⟨-, hxy⟩ := List.append_inj' hl rfl
      injection hxy with hxy
      exact .inl ⟨hxy ▸ hx, hxy.symm⟩
    · rw [← List.cons_append, ← List.append_assoc] at hl
      obtain ⟨hl, hyz⟩ := List.append_inj' hl rfl
      injection hyz with hyz
      refine .inr ⟨?_, front, behind, hl, hx, fun w hw => ?_⟩
      · rw [hyz]
        exact hbehind z (List.mem_append_right _ (List.mem_singleton_self z))
      · exact hbehind w (List.mem_append_left _ hw)
  · intro h
    rcases h with ⟨hy, rfl⟩ | ⟨hy, front, behind, rfl, hx, hbehind⟩
    · exact ⟨l, [], rfl, hy, fun _ h => by cases h⟩
    · refine ⟨front, behind ++ [y], by simp, hx, fun w hw => ?_⟩
      rcases List.mem_append.mp hw with hw | hw
      · exact hbehind w hw
      · exact List.mem_singleton.mp hw ▸ hy

/-- There is only one. -/
theorem IsLastOf.unique (hx : IsLastOf p l x) (hy : IsLastOf p l y) : x = y := by
  induction l using List.reverseRecOn with
  | nil => exact absurd hx not_isLastOf_nil
  | append_singleton l z ih =>
      rcases isLastOf_snoc.mp hx with ⟨hz, rfl⟩ | ⟨hz, hx⟩
      · rcases isLastOf_snoc.mp hy with ⟨-, rfl⟩ | ⟨hnot, -⟩
        · rfl
        · exact absurd hz hnot
      · rcases isLastOf_snoc.mp hy with ⟨hz', -⟩ | ⟨-, hy⟩
        · exact absurd hz' hz
        · exact ih hx hy

/-- A property of every element and what stands before it. -/
theorem forall_prefix_snoc {P : List α → α → Prop} :
    (∀ front x behind, l ++ [y] = front ++ x :: behind → P front x) ↔
      (∀ front x behind, l = front ++ x :: behind → P front x) ∧ P l y := by
  constructor
  · intro h
    refine ⟨fun front x behind hl => h front x (behind ++ [y]) ?_, h l y [] rfl⟩
    rw [hl, List.append_assoc, List.cons_append]
  · intro h front x behind heq
    obtain ⟨hl, hy⟩ := h
    rcases List.eq_nil_or_concat' behind with rfl | ⟨behind, z, rfl⟩
    · obtain ⟨rfl, hxy⟩ := List.append_inj' heq rfl
      injection hxy with hxy
      exact hxy ▸ hy
    · rw [← List.cons_append, ← List.append_assoc] at heq
      exact hl front x behind (List.append_inj' heq rfl).1

/-- A property of every element and what stands behind it. -/
theorem forall_suffix_cons {P : α → List α → Prop} :
    (∀ front x behind, y :: l = front ++ x :: behind → P x behind) ↔
      P y l ∧ ∀ front x behind, l = front ++ x :: behind → P x behind := by
  constructor
  · intro h
    refine ⟨h [] y l rfl, fun front x behind hl => h (y :: front) x behind ?_⟩
    rw [hl, List.cons_append]
  · intro h front x behind heq
    obtain ⟨hy, hl⟩ := h
    cases front with
    | nil =>
        injection heq with hxy hbehind
        rwa [← hxy, ← hbehind]
    | cons z front =>
        injection heq with _ heq
        exact hl front x behind heq

theorem forall_suffix_nil {P : α → List α → Prop} :
    ∀ front x behind, [] = front ++ x :: behind → P x behind := fun front x behind h =>
  absurd h.symm (List.append_ne_nil_of_right_ne_nil front (List.cons_ne_nil x behind))

theorem forall_prefix_nil {P : List α → α → Prop} :
    ∀ front x behind, [] = front ++ x :: behind → P front x := fun front x behind h =>
  absurd h.symm (List.append_ne_nil_of_right_ne_nil front (List.cons_ne_nil x behind))

end IsLastOf

/-- What is said of the state by way of a value that the steps work on: it stays
true of the value after them, and each step sees the value before it. -/
theorem Run.tracks {σ ℓ α : Type} {init : σ → Prop} {step : σ → ℓ → σ → Prop}
    {past : List (ℓ × σ)} {s : σ} {v : α} (h : Run init step past s) (I : α → σ → Prop)
    (C : ℓ → Prop) (sees : ℓ → α → Prop) (after : α → ℓ → α)
    (hinit : ∀ s, init s → I v s) (hC : ∀ e ∈ past, C e.1)
    (hstep : ∀ v s l s', I v s → C l → step s l s' → I (after v l) s' ∧ sees l v) :
    I ((past.map Prod.fst).foldl after v) s ∧ ∀ front e behind, past = front ++ e :: behind →
      sees e.1 ((front.map Prod.fst).foldl after v) := by
  induction h with
  | init s hs => exact ⟨hinit s hs, forall_prefix_nil⟩
  | step past s s' l _ hs ih =>
      rw [List.forall_mem_append, List.forall_mem_singleton] at hC
      obtain ⟨hI, hsees⟩ := ih hC.1
      obtain ⟨hI', hlast⟩ := hstep _ s l s' hI hC.2 hs
      refine ⟨?_, forall_prefix_snoc.mpr ⟨hsees, hlast⟩⟩
      rw [List.map_append, List.foldl_append]
      exact hI'

/-! ## Calls on an object

A call changes the object and answers. Two objects simulate one another when
related ones answer every call alike and stay related. -/

section Calls

variable {σ τ ℓ β : Type}

/-- What call after call answers, and the object they leave. -/
def callAll (call : σ → ℓ → β × σ) : σ → List ℓ → List β × σ
  | s, [] => ([], s)
  | s, l :: ls =>
      let (answer, s') := call s l
      let (answers, s'') := callAll call s' ls
      (answer :: answers, s'')

theorem callAll_simulates {R : σ → τ → Prop} {f : σ → ℓ → β × σ} {g : τ → ℓ → β × τ}
    (hstep : ∀ s t l, R s t → (f s l).1 = (g t l).1 ∧ R (f s l).2 (g t l).2)
    {s : σ} {t : τ} (h : R s t) (ls : List ℓ) :
    (callAll f s ls).1 = (callAll g t ls).1 ∧ R (callAll f s ls).2 (callAll g t ls).2 := by
  induction ls generalizing s t with
  | nil => exact ⟨rfl, h⟩
  | cons l ls ih =>
      obtain ⟨hanswer, hR⟩ := hstep s t l h
      obtain ⟨hanswers, hend⟩ := ih hR
      exact ⟨congrArg₂ List.cons hanswer hanswers, hend⟩

end Calls

/-! ## Interleavings -/

/-- Threads `ι` at stages in `τ`, over one shared state. -/
structure Threads (ι σ τ : Type) where
  shared : σ
  stage : ι → τ

/-- One thread takes an atomic action, which `act` relates to what came in from
outside while it did. -/
inductive Interleave {ι σ τ ε : Type} [DecidableEq ι]
    (act : ι → ε → σ → τ → σ → τ → Prop) :
    Threads ι σ τ → ι × ε → Threads ι σ τ → Prop where
  | act (c : Threads ι σ τ) (i : ι) (e : ε) (s : σ) (t : τ) :
      act i e c.shared (c.stage i) s t →
      Interleave act c (i, e) ⟨s, Function.update c.stage i t⟩
