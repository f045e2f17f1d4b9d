import LsoStore.Lib.Duplex

/-!
# Dialogues put together from parts

`Leads c c'` says that a pair of programs can be looked at in `c'` instead of in
`c`: what holds wherever it stops from there holds wherever it stops from here.
A part of a dialogue that was followed on its own can then be used with whatever
comes after it on either side, also where the two sides go on at different
times.

`Exchanges` is such a part for a server that takes turns: a program of the
client that uses up a number of them and leaves both streams empty.
-/

namespace Proc

variable {σ μ α γ : Type} [DecidableEq μ] {p p' : Proc σ μ α} {w w' : World σ μ}
  {i i' s : Inbox}

theorem Act.bind (h : Act p w i p' w' i' s) (k : α → Proc σ μ γ) :
    Act (p >>= k) w i (p' >>= k) w' i' s := by
  cases h with
  | get => exact .get ..
  | set => exact .set ..
  | lock _ _ hm => exact .lock _ _ hm
  | trylock => exact .trylock ..
  | unlock => exact .unlock ..
  | read _ _ hd => exact .read _ _ hd
  | write => exact .write ..
  | unspec => exact .unspec ..

end Proc

namespace Talk

open Proc

variable {σ μ α τ ν β γ : Type} [DecidableEq μ] [DecidableEq ν]

/-- The client's program goes on with `k`. -/
def onClient (c : Talk σ μ α τ ν β) (k : α → Proc σ μ γ) : Talk σ μ γ τ ν β :=
  ⟨c.client >>= k, c.here, c.server, c.there, c.toServer, c.toClient⟩

/-- The server's program goes on with `k`. -/
def onServer (c : Talk σ μ α τ ν β) (k : β → Proc τ ν γ) : Talk σ μ α τ ν γ :=
  ⟨c.client, c.here, c.server >>= k, c.there, c.toServer, c.toClient⟩

variable {c c' c'' : Talk σ μ α τ ν β}

theorem Step.onClient (h : Step c c') (k : α → Proc σ μ γ) :
    Step (c.onClient k) (c'.onClient k) := by
  cases h with
  | client _ _ _ ha => exact .client _ _ _ (ha.bind k)
  | server _ _ _ ha => exact .server _ _ _ ha

theorem Step.onServer (h : Step c c') (k : β → Proc τ ν γ) :
    Step (c.onServer k) (c'.onServer k) := by
  cases h with
  | client _ _ _ ha => exact .client _ _ _ ha
  | server _ _ _ ha => exact .server _ _ _ (ha.bind k)

theorem reach_onClient (h : Reach c c') (k : α → Proc σ μ γ) :
    Reach (c.onClient k) (c'.onClient k) := by
  induction h with
  | refl => exact .refl
  | tail _ hs ih => exact ih.tail (hs.onClient k)

theorem reach_onServer (h : Reach c c') (k : β → Proc τ ν γ) :
    Reach (c.onServer k) (c'.onServer k) := by
  induction h with
  | refl => exact .refl
  | tail _ hs ih => exact ih.tail (hs.onServer k)

/-- Run the first half of the client's program as if it were all of it, and go
on from where that leads. -/
theorem Flows.client_bind {Q : Talk σ μ α τ ν β → Prop} {R : Talk σ μ γ τ ν β → Prop}
    {k : α → Proc σ μ γ} (h : Flows Q c) (hk : ∀ c, Q c → Flows R (c.onClient k)) :
    Flows R (c.onClient k) := by
  induction h with
  | done hq => exact hk _ (hq _ .refl)
  | @client p w q v ts tc hr hnext ih =>
      refine .client (ready_bind hr) fun p' w' tc' s ha => ?_
      have hp : ∀ a, p ≠ .ret a := by
        intro a heq
        subst heq
        exact hr
      obtain ⟨r, hp', hr'⟩ := act_bind hp ha
      subst hp'
      exact ih _ _ _ _ hr'
  | server hr _ ih => exact .server hr ih

/-- What is asked of the pair from `c` on can be asked from `c'` on. -/
def Leads (c c' : Talk σ μ α τ ν β) : Prop :=
  ∀ ⦃Q : Talk σ μ α τ ν β → Prop⦄, Flows Q c' → Flows Q c

namespace Leads

theorem refl (c : Talk σ μ α τ ν β) : Leads c c := fun _ h => h

theorem trans (h : Leads c c') (h' : Leads c' c'') : Leads c c'' := fun _ hf => h (h' hf)

/-- The client goes on as soon as it has returned. -/
theorem onClient (h : Leads c c') (k : α → Proc σ μ γ) :
    Leads (c.onClient k) (c'.onClient k) := by
  intro R hf
  have hclosed : Flows (fun d => Flows R (d.onClient k)) c' :=
    .done fun _ hd => hf.reach (reach_onClient hd k)
  exact (h hclosed).client_bind fun _ hd => hd

/-- So does the server. -/
theorem onServer (h : Leads c c') (k : β → Proc τ ν γ) :
    Leads (c.onServer k) (c'.onServer k) := by
  intro R hf
  have hclosed : Flows (fun d => Flows R (d.onServer k)) c' :=
    .done fun _ hd => hf.reach (reach_onServer hd k)
  exact (h hclosed).bind fun _ _ _ _ _ _ hd => hd

/-- If the pair can stop there, then it always ends up there. -/
theorem ends (h : Leads c c') (hset : c'.Settled) {d : Talk σ μ α τ ν β} (hr : Reach c d) :
    Reach d c' := by
  have hstay : Flows (fun e => e = c') c' := by
    refine .done fun e he => ?_
    cases he.cases_head with
    | inl heq => exact heq.symm
    | inr hs =>
        obtain ⟨c₁, hs, -⟩ := hs
        exact absurd hs (hset c₁)
  obtain ⟨e, he, rfl⟩ := ((h hstay).reach hr).exists
  exact he

end Leads

/-- The client's program comes to `a` within `k` turns of the server. -/
def Exchanges (turns : Nat → Proc τ ν β) (k : Nat) (p : Proc σ μ α) (w : World σ μ)
    (v : World τ ν) (a : α) (w' : World σ μ) (v' : World τ ν) : Prop :=
  ∀ n, Leads ⟨p, w, turns (n + k), v, [], []⟩ ⟨.ret a, w', turns n, v', [], []⟩

namespace Exchanges

variable {turns : Nat → Proc τ ν β} {j k : Nat} {p : Proc σ μ α} {K : α → Proc σ μ γ}
  {w w' w'' : World σ μ} {v v' v'' : World τ ν} {a : α} {b : γ}

theorem ret (turns : Nat → Proc τ ν β) (a : α) (w : World σ μ) (v : World τ ν) :
    Exchanges turns 0 (.ret a) w v a w v := fun _ => .refl _

/-- One after the other. -/
theorem bind (h : Exchanges turns k p w v a w' v')
    (hk : Exchanges turns j (K a) w' v' b w'' v'') :
    Exchanges turns (j + k) (p >>= K) w v b w'' v'' := by
  intro n
  have hfirst := (h (n + j)).onClient K
  rw [Nat.add_assoc] at hfirst
  exact hfirst.trans (hk n)

end Exchanges

end Talk
