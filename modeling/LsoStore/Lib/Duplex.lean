import LsoStore.Lib.Proc
import Mathlib.Logic.Relation

/-!
# Two programs at the two ends of a connection

Each program has its own state and its own mutexes, and a stream runs each
way between them. A write is a chunk that arrives whole and in order. A read
waits while nothing has arrived, and then takes bytes off the front; where it
stops among the chunks that are there is not determined.

A statement about such a pair is about every way of interleaving the two.
`Flows Q` is about one: it follows a schedule in which each move is one that
nothing still to come can change, a read being such a move when the first
chunk is enough for it. `Flows.step` is why that is enough, since every other
move leads back onto the schedule, so whatever the pair does it can only stop
where `Q` holds.
-/

namespace Proc

/-- What has been written and not yet read, in order. -/
abbrev Inbox := List (List UInt8)

/-- A read of `n` bytes can come back with `bs` and leave `i'`. -/
inductive Delivers : Nat → Inbox → List UInt8 → Inbox → Prop where
  | none (i : Inbox) : Delivers 0 i [] i
  | part {n : Nat} {c : List UInt8} (cs : Inbox) : 0 < n → n < c.length →
      Delivers n (c :: cs) (c.take n) (c.drop n :: cs)
  | chunk {n : Nat} {c : List UInt8} (cs : Inbox) : 0 < n → c.length ≤ n →
      Delivers n (c :: cs) c cs
  | more {n : Nat} {c bs : List UInt8} {cs i : Inbox} : 0 < n → c.length ≤ n →
      Delivers (n - c.length) cs bs i → Delivers n (c :: cs) (c ++ bs) i

/-- A write puts one chunk on the stream, and nothing if it has no bytes. -/
def chunks (bs : List UInt8) : Inbox := if bs = [] then [] else [bs]

variable {σ μ α : Type} [DecidableEq μ] {p p' : Proc σ μ α} {w w' : World σ μ}
  {i i' e s : Inbox}

/-- One move of a program: what it becomes, what is left of its inbox, and
what it sends. Writes succeed, and a mutex is refused exactly if it is held. -/
inductive Act : Proc σ μ α → World σ μ → Inbox → Proc σ μ α → World σ μ → Inbox →
    Inbox → Prop where
  | get (k : σ → Proc σ μ α) (w : World σ μ) (i : Inbox) : Act (.get k) w i (k w.st) w i []
  | set (s : σ) (p : Proc σ μ α) (w : World σ μ) (i : Inbox) :
      Act (.set s p) w i p { w with st := s } i []
  | lock {m : μ} {w : World σ μ} (p : Proc σ μ α) (i : Inbox) : m ∉ w.held →
      Act (.lock m p) w i p { w with held := insert m w.held } i []
  | trylock (m : μ) (k : Bool → Proc σ μ α) (w : World σ μ) (i : Inbox) :
      Act (.trylock m k) w i (k (decide (m ∉ w.held)))
        { w with held := insert m w.held } i []
  | unlock (m : μ) (p : Proc σ μ α) (w : World σ μ) (i : Inbox) :
      Act (.unlock m p) w i p { w with held := w.held.erase m } i []
  | read {n : Nat} {i i' : Inbox} {bs : List UInt8} (k : Option (List UInt8) → Proc σ μ α)
      (w : World σ μ) : Delivers n i bs i' → Act (.read n k) w i (k (some bs)) w i' []
  | write (d : Payload) (k : Bool → Proc σ μ α) (w : World σ μ) (i : Inbox) :
      Act (.write d k) w i (k true) w i (chunks d.bytes)
  | unspec (junk : List UInt8) (k : List UInt8 → Proc σ μ α) (w : World σ μ) (i : Inbox) :
      Act (.unspec k) w i (k junk) w i []

/-- The first chunk is enough for a read of `n` bytes. -/
def Enough (n : Nat) (i : Inbox) : Prop := n = 0 ∨ ∃ c cs, i = c :: cs ∧ n ≤ c.length

/-- The program can move, and what arrives later makes no difference to it. -/
def Ready : Proc σ μ α → World σ μ → Inbox → Prop
  | .ret _, _, _ => False
  | .exit, _, _ => False
  | .fault, _, _ => False
  | .lock m _, w, _ => m ∉ w.held
  | .read n _, _, i => Enough n i
  | _, _, _ => True

theorem Delivers.append {n : Nat} {bs : List UInt8} (h : Delivers n i bs i') (e : Inbox) :
    Delivers n (i ++ e) bs (i' ++ e) := by
  induction h with
  | none i => exact .none _
  | part cs hn hlt => exact .part _ hn hlt
  | chunk cs hn hle => exact .chunk _ hn hle
  | more hn hle _ ih => exact .more hn hle ih

/-- A read of no bytes does not wait and takes nothing. -/
theorem Delivers.of_zero {bs : List UInt8} (h : Delivers 0 i bs i') : bs = [] ∧ i' = i := by
  cases h with
  | none => exact ⟨rfl, rfl⟩
  | part => omega
  | chunk => omega
  | more => omega

theorem Delivers.of_nil {n : Nat} {bs : List UInt8} (h : Delivers n [] bs i') : bs = [] := by
  cases h with
  | none => rfl

theorem Enough.of_append {n : Nat} {bs : List UInt8} {j : Inbox} (hn : Enough n i)
    (h : Delivers n (i ++ e) bs j) : ∃ i', j = i' ++ e ∧ Delivers n i bs i' := by
  rcases hn with rfl | ⟨c, cs, rfl, hle⟩
  · obtain ⟨rfl, rfl⟩ := h.of_zero
    exact ⟨i, rfl, .none _⟩
  · rw [List.cons_append] at h
    cases h with
    | none => exact ⟨_, rfl, .none _⟩
    | part _ hn hlt => exact ⟨c.drop n :: cs, rfl, .part _ hn hlt⟩
    | chunk _ hn hge => exact ⟨cs, rfl, .chunk _ hn hge⟩
    | more hn hge hrest =>
        rw [show n - c.length = 0 by omega] at hrest
        obtain ⟨rfl, rfl⟩ := hrest.of_zero
        rw [List.append_nil]
        exact ⟨cs, rfl, .chunk _ hn hge⟩

theorem Delivers.length_le {n : Nat} {bs : List UInt8} (h : Delivers n i bs i') :
    bs.length ≤ n := by
  induction h with
  | none => exact Nat.le_refl _
  | part => simp
  | chunk _ _ hle => exact hle
  | more _ hle _ ih =>
      rw [List.length_append]
      omega

/-- A move is one step of a run of the program on its own. -/
theorem Act.runs {tr : List (Event μ)} {o : Out α} {w'' : World σ μ}
    (h : Act p w i p' w' i' s) (hr : p'.Runs w' tr o w'') : ∃ tr', p.Runs w tr' o w'' := by
  cases h with
  | get => exact ⟨tr, runs_get.mpr hr⟩
  | set => exact ⟨tr, runs_set.mpr hr⟩
  | lock _ _ hm => exact ⟨tr, runs_lock.mpr (.inr ⟨hm, hr⟩)⟩
  | trylock m k =>
      refine ⟨_, runs_trylock.mpr ⟨decide (m ∉ w.held), tr, rfl, by simp, ?_⟩⟩
      by_cases hm : m ∈ w.held
      · rw [Finset.insert_eq_of_mem hm] at hr
        simpa [hm] using hr
      · simpa [hm] using hr
  | unlock => exact ⟨tr, runs_unlock.mpr hr⟩
  | read k _ hd =>
      exact ⟨_, runs_read.mpr ⟨_, tr, rfl, fits_some.mpr hd.length_le, hr⟩⟩
  | write d k => exact ⟨_, runs_write.mpr ⟨true, tr, rfl, hr⟩⟩
  | unspec junk => exact ⟨_, runs_unspec.mpr ⟨junk, tr, rfl, hr⟩⟩

theorem Act.append (h : Act p w i p' w' i' s) (e : Inbox) :
    Act p w (i ++ e) p' w' (i' ++ e) s := by
  cases h with
  | get => exact .get ..
  | set => exact .set ..
  | lock p _ hm => exact .lock _ _ hm
  | trylock => exact .trylock ..
  | unlock => exact .unlock ..
  | read k _ hd => exact .read _ _ (hd.append e)
  | write => exact .write ..
  | unspec => exact .unspec ..

omit [DecidableEq μ] in
theorem Ready.append (h : Ready p w i) (e : Inbox) : Ready p w (i ++ e) := by
  cases p with
  | read n k =>
      rcases h with h | ⟨c, cs, rfl, hle⟩
      · exact .inl h
      · exact .inr ⟨c, cs ++ e, rfl, hle⟩
  | ret a => exact h
  | exit => exact h
  | fault => exact h
  | lock m p => exact h
  | get k => trivial
  | set s p => trivial
  | trylock m k => trivial
  | unlock m p => trivial
  | write d k => trivial
  | unspec k => trivial

/-- What a ready program does next it could do before more arrived. -/
theorem Ready.of_append {j : Inbox} (hr : Ready p w i) (h : Act p w (i ++ e) p' w' j s) :
    ∃ i', j = i' ++ e ∧ Act p w i p' w' i' s := by
  cases h with
  | get => exact ⟨i, rfl, .get ..⟩
  | set => exact ⟨i, rfl, .set ..⟩
  | lock p _ hm => exact ⟨i, rfl, .lock _ _ hm⟩
  | trylock => exact ⟨i, rfl, .trylock ..⟩
  | unlock => exact ⟨i, rfl, .unlock ..⟩
  | read k _ hd =>
      obtain ⟨i', rfl, hd'⟩ := Enough.of_append hr hd
      exact ⟨i', rfl, .read _ _ hd'⟩
  | write => exact ⟨i, rfl, .write ..⟩
  | unspec => exact ⟨i, rfl, .unspec ..⟩

theorem Ready.exists (hr : Ready p w i) : ∃ p' w' i' s, Act p w i p' w' i' s := by
  cases p with
  | read n k =>
      rcases hr with rfl | ⟨c, cs, rfl, hle⟩
      · exact ⟨_, _, _, _, .read _ _ (.none _)⟩
      · rcases Nat.eq_zero_or_pos n with rfl | hn
        · exact ⟨_, _, _, _, .read _ _ (.none _)⟩
        · rcases Nat.lt_or_ge n c.length with hlt | hge
          · exact ⟨_, _, _, _, .read _ _ (.part _ hn hlt)⟩
          · exact ⟨_, _, _, _, .read _ _ (.chunk _ hn hge)⟩
  | ret a => exact hr.elim
  | exit => exact hr.elim
  | fault => exact hr.elim
  | lock m p => exact ⟨_, _, _, _, .lock _ _ hr⟩
  | get k => exact ⟨_, _, _, _, .get ..⟩
  | set s p => exact ⟨_, _, _, _, .set ..⟩
  | trylock m k => exact ⟨_, _, _, _, .trylock ..⟩
  | unlock m p => exact ⟨_, _, _, _, .unlock ..⟩
  | write d k => exact ⟨_, _, _, _, .write ..⟩
  | unspec k => exact ⟨_, _, _, _, .unspec [] ..⟩

end Proc

/-- A client and a server with what is on its way between them. -/
structure Talk (σ μ α τ ν β : Type) where
  client : Proc σ μ α
  here : World σ μ
  server : Proc τ ν β
  there : World τ ν
  toServer : Proc.Inbox
  toClient : Proc.Inbox

namespace Talk

open Proc

variable {σ μ α τ ν β : Type} [DecidableEq μ] [DecidableEq ν]

/-- One of the two moves. -/
inductive Step : Talk σ μ α τ ν β → Talk σ μ α τ ν β → Prop where
  | client {p p' : Proc σ μ α} {w w' : World σ μ} {tc tc' s : Inbox} (q : Proc τ ν β)
      (v : World τ ν) (ts : Inbox) : Act p w tc p' w' tc' s →
      Step ⟨p, w, q, v, ts, tc⟩ ⟨p', w', q, v, ts ++ s, tc'⟩
  | server {q q' : Proc τ ν β} {v v' : World τ ν} {ts ts' s : Inbox} (p : Proc σ μ α)
      (w : World σ μ) (tc : Inbox) : Act q v ts q' v' ts' s →
      Step ⟨p, w, q, v, ts, tc⟩ ⟨p, w, q', v', ts', tc ++ s⟩

/-- Any number of moves. -/
abbrev Reach : Talk σ μ α τ ν β → Talk σ μ α τ ν β → Prop := Relation.ReflTransGen Step

/-- Neither side can move. -/
def Settled (c : Talk σ μ α τ ν β) : Prop := ∀ c', ¬ Step c c'

/-- What the server does in a conversation is a run of its program. -/
theorem reach_server_runs {c c' : Talk σ μ α τ ν β} (h : Reach c c')
    {tr : List (Event ν)} {o : Out β} {v : World τ ν}
    (hr : c'.server.Runs c'.there tr o v) : ∃ tr', c.server.Runs c.there tr' o v := by
  induction h generalizing tr with
  | refl => exact ⟨tr, hr⟩
  | tail _ hs ih =>
      cases hs with
      | client => exact ih hr
      | server _ _ _ ha =>
          obtain ⟨tr', hr'⟩ := ha.runs hr
          exact ih hr'

/-- Some schedule of moves that nothing can change leads to where `Q` holds for
good, whatever undetermined memory holds. -/
inductive Flows (Q : Talk σ μ α τ ν β → Prop) : Talk σ μ α τ ν β → Prop where
  | done {c : Talk σ μ α τ ν β} : (∀ c', Reach c c' → Q c') → Flows Q c
  | client {p : Proc σ μ α} {w : World σ μ} {q : Proc τ ν β} {v : World τ ν}
      {ts tc : Inbox} : Ready p w tc →
      (∀ p' w' tc' s, Act p w tc p' w' tc' s → Flows Q ⟨p', w', q, v, ts ++ s, tc'⟩) →
      Flows Q ⟨p, w, q, v, ts, tc⟩
  | server {p : Proc σ μ α} {w : World σ μ} {q : Proc τ ν β} {v : World τ ν}
      {ts tc : Inbox} : Ready q v ts →
      (∀ q' v' ts' s, Act q v ts q' v' ts' s → Flows Q ⟨p, w, q', v', ts', tc ++ s⟩) →
      Flows Q ⟨p, w, q, v, ts, tc⟩

variable {Q : Talk σ μ α τ ν β → Prop} {c c' : Talk σ μ α τ ν β}

/-- A move off the schedule stays on it. The two sides' moves commute: what
one sends is at the far end of what the other reads from. -/
theorem Flows.step (h : Flows Q c) (hs : Step c c') : Flows Q c' := by
  induction h generalizing c' with
  | done hq => exact .done fun c'' hc => hq c'' (.head hs hc)
  | client hr hnext ih =>
      cases hs with
      | client _ _ _ ha => exact hnext _ _ _ _ ha
      | server _ _ _ ha =>
          refine .client (hr.append _) fun p' w' tc' s hc => ?_
          obtain ⟨tc'', rfl, hc'⟩ := hr.of_append hc
          exact ih _ _ _ _ hc' (.server _ _ _ (ha.append _))
  | server hr hnext ih =>
      cases hs with
      | server _ _ _ ha => exact hnext _ _ _ _ ha
      | client _ _ _ ha =>
          refine .server (hr.append _) fun q' v' ts' s hc => ?_
          obtain ⟨ts'', rfl, hc'⟩ := hr.of_append hc
          exact ih _ _ _ _ hc' (.client _ _ _ (ha.append _))

theorem Flows.reach (h : Flows Q c) (hr : Reach c c') : Flows Q c' := by
  induction hr with
  | refl => exact h
  | tail _ hs ih => exact ih.step hs

theorem Flows.of_settled (h : Flows Q c) (hset : c.Settled) : Q c := by
  cases h with
  | done hq => exact hq c .refl
  | client hr _ =>
      obtain ⟨p', w', i', s, ha⟩ := hr.exists
      exact absurd (.client _ _ _ ha) (hset _)
  | server hr _ =>
      obtain ⟨p', w', i', s, ha⟩ := hr.exists
      exact absurd (.server _ _ _ ha) (hset _)

/-- Wherever the pair stops, it stops in `Q`. -/
theorem Flows.settled (h : Flows Q c) (hr : Reach c c') (hset : c'.Settled) : Q c' :=
  (h.reach hr).of_settled hset

/-- And it can get to `Q`. -/
theorem Flows.exists (h : Flows Q c) : ∃ c', Reach c c' ∧ Q c' := by
  induction h with
  | done hq => exact ⟨_, .refl, hq _ .refl⟩
  | client hr _ ih =>
      obtain ⟨p', w', i', s, ha⟩ := hr.exists
      obtain ⟨c', hreach, hc⟩ := ih _ _ _ _ ha
      exact ⟨c', .head (.client _ _ _ ha) hreach, hc⟩
  | server hr _ ih =>
      obtain ⟨p', w', i', s, ha⟩ := hr.exists
      obtain ⟨c', hreach, hc⟩ := ih _ _ _ _ ha
      exact ⟨c', .head (.server _ _ _ ha) hreach, hc⟩

/-! ## One equation for each node -/

section Nodes

variable {p : Proc σ μ α} {w : World σ μ} {q : Proc τ ν β} {v : World τ ν} {ts tc : Inbox}

/-- A ready client with one possible move makes it. -/
theorem flows_client {p' : Proc σ μ α} {w' : World σ μ} {tc' s : Inbox}
    (hr : Ready p w tc) (ha : Act p w tc p' w' tc' s)
    (hu : ∀ p₁ w₁ tc₁ s₁, Act p w tc p₁ w₁ tc₁ s₁ → p₁ = p' ∧ w₁ = w' ∧ tc₁ = tc' ∧ s₁ = s) :
    Flows Q ⟨p, w, q, v, ts, tc⟩ ↔ Flows Q ⟨p', w', q, v, ts ++ s, tc'⟩ := by
  refine ⟨fun h => h.step (.client _ _ _ ha), fun h => .client hr fun p₁ w₁ tc₁ s₁ h₁ => ?_⟩
  obtain ⟨rfl, rfl, rfl, rfl⟩ := hu _ _ _ _ h₁
  exact h

/-- A ready server with one possible move makes it. -/
theorem flows_server {q' : Proc τ ν β} {v' : World τ ν} {ts' s : Inbox}
    (hr : Ready q v ts) (ha : Act q v ts q' v' ts' s)
    (hu : ∀ q₁ v₁ ts₁ s₁, Act q v ts q₁ v₁ ts₁ s₁ → q₁ = q' ∧ v₁ = v' ∧ ts₁ = ts' ∧ s₁ = s) :
    Flows Q ⟨p, w, q, v, ts, tc⟩ ↔ Flows Q ⟨p, w, q', v', ts', tc ++ s⟩ := by
  refine ⟨fun h => h.step (.server _ _ _ ha), fun h => .server hr fun q₁ v₁ ts₁ s₁ h₁ => ?_⟩
  obtain ⟨rfl, rfl, rfl, rfl⟩ := hu _ _ _ _ h₁
  exact h

theorem flows_client_silent {p' : Proc σ μ α} {w' : World σ μ} {tc' : Inbox}
    (hr : Ready p w tc) (ha : Act p w tc p' w' tc' [])
    (hu : ∀ p₁ w₁ tc₁ s₁, Act p w tc p₁ w₁ tc₁ s₁ → p₁ = p' ∧ w₁ = w' ∧ tc₁ = tc' ∧ s₁ = []) :
    Flows Q ⟨p, w, q, v, ts, tc⟩ ↔ Flows Q ⟨p', w', q, v, ts, tc'⟩ := by
  rw [flows_client hr ha hu, List.append_nil]

theorem flows_server_silent {q' : Proc τ ν β} {v' : World τ ν} {ts' : Inbox}
    (hr : Ready q v ts) (ha : Act q v ts q' v' ts' [])
    (hu : ∀ q₁ v₁ ts₁ s₁, Act q v ts q₁ v₁ ts₁ s₁ → q₁ = q' ∧ v₁ = v' ∧ ts₁ = ts' ∧ s₁ = []) :
    Flows Q ⟨p, w, q, v, ts, tc⟩ ↔ Flows Q ⟨p, w, q', v', ts', tc⟩ := by
  rw [flows_server hr ha hu, List.append_nil]

theorem flows_client_get {k : σ → Proc σ μ α} :
    Flows Q ⟨.get k, w, q, v, ts, tc⟩ ↔ Flows Q ⟨k w.st, w, q, v, ts, tc⟩ :=
  flows_client_silent trivial (.get ..) fun _ _ _ _ h => by cases h; exact ⟨rfl, rfl, rfl, rfl⟩

theorem flows_client_set {s : σ} :
    Flows Q ⟨.set s p, w, q, v, ts, tc⟩ ↔ Flows Q ⟨p, { w with st := s }, q, v, ts, tc⟩ :=
  flows_client_silent trivial (.set ..) fun _ _ _ _ h => by cases h; exact ⟨rfl, rfl, rfl, rfl⟩

theorem flows_client_write {d : Payload} {k : Bool → Proc σ μ α} :
    Flows Q ⟨.write d k, w, q, v, ts, tc⟩ ↔
      Flows Q ⟨k true, w, q, v, ts ++ chunks d.bytes, tc⟩ :=
  flows_client trivial (.write ..) fun _ _ _ _ h => by cases h; exact ⟨rfl, rfl, rfl, rfl⟩

theorem flows_server_get {k : τ → Proc τ ν β} :
    Flows Q ⟨p, w, .get k, v, ts, tc⟩ ↔ Flows Q ⟨p, w, k v.st, v, ts, tc⟩ :=
  flows_server_silent trivial (.get ..) fun _ _ _ _ h => by cases h; exact ⟨rfl, rfl, rfl, rfl⟩

theorem flows_server_set {s : τ} :
    Flows Q ⟨p, w, .set s q, v, ts, tc⟩ ↔ Flows Q ⟨p, w, q, { v with st := s }, ts, tc⟩ :=
  flows_server_silent trivial (.set ..) fun _ _ _ _ h => by cases h; exact ⟨rfl, rfl, rfl, rfl⟩

theorem flows_server_unlock {m : ν} :
    Flows Q ⟨p, w, .unlock m q, v, ts, tc⟩ ↔
      Flows Q ⟨p, w, q, { v with held := v.held.erase m }, ts, tc⟩ :=
  flows_server_silent trivial (.unlock ..) fun _ _ _ _ h => by cases h; exact ⟨rfl, rfl, rfl, rfl⟩

theorem flows_server_lock {m : ν} (hm : m ∉ v.held) :
    Flows Q ⟨p, w, .lock m q, v, ts, tc⟩ ↔
      Flows Q ⟨p, w, q, { v with held := insert m v.held }, ts, tc⟩ :=
  flows_server_silent hm (.lock _ _ hm) fun _ _ _ _ h => by cases h; exact ⟨rfl, rfl, rfl, rfl⟩

theorem flows_server_trylock {m : ν} {k : Bool → Proc τ ν β} :
    Flows Q ⟨p, w, .trylock m k, v, ts, tc⟩ ↔
      Flows Q ⟨p, w, k (decide (m ∉ v.held)), { v with held := insert m v.held }, ts, tc⟩ :=
  flows_server_silent trivial (.trylock ..) fun _ _ _ _ h => by cases h; exact ⟨rfl, rfl, rfl, rfl⟩

theorem flows_server_write {d : Payload} {k : Bool → Proc τ ν β} :
    Flows Q ⟨p, w, .write d k, v, ts, tc⟩ ↔
      Flows Q ⟨p, w, k true, v, ts, tc ++ chunks d.bytes⟩ :=
  flows_server trivial (.write ..) fun _ _ _ _ h => by cases h; exact ⟨rfl, rfl, rfl, rfl⟩

theorem flows_server_unspec {k : List UInt8 → Proc τ ν β} :
    Flows Q ⟨p, w, .unspec k, v, ts, tc⟩ ↔
      ∀ junk, Flows Q ⟨p, w, k junk, v, ts, tc⟩ := by
  constructor
  · intro h junk
    have h := h.step (.server _ _ _ (.unspec junk ..))
    rwa [List.append_nil] at h
  · refine fun h => .server trivial fun q₁ v₁ ts₁ s₁ h₁ => ?_
    cases h₁
    rw [List.append_nil]
    exact h _

/-- What is left of a chunk after `n` bytes of it. -/
def leftover (n : Nat) (b : List UInt8) : Inbox := if n < b.length then [b.drop n] else []

theorem leftover_of_eq {n : Nat} {b : List UInt8} (h : b.length = n) : leftover n b = [] :=
  if_neg (by omega)

/-- A read for no more than the first chunk. -/
theorem delivers_of_le {n : Nat} {b bs : List UInt8} {i i' : Inbox} (hne : b ≠ [])
    (hn : n ≤ b.length) (h : Delivers n (b :: i) bs i') :
    bs = b.take n ∧ i' = leftover n b ++ i := by
  cases h with
  | none => exact ⟨rfl, by rw [leftover, if_pos (List.length_pos_of_ne_nil hne)]; rfl⟩
  | part _ _ hlt => exact ⟨rfl, by rw [leftover, if_pos hlt]; rfl⟩
  | chunk _ _ hle =>
      exact ⟨(List.take_of_length_le hle).symm, by rw [leftover_of_eq (by omega)]; rfl⟩
  | more _ hle hrest =>
      rw [show n - b.length = 0 by omega] at hrest
      obtain ⟨rfl, rfl⟩ := hrest.of_zero
      rw [List.append_nil]
      exact ⟨(List.take_of_length_le hle).symm, by rw [leftover_of_eq (by omega)]; rfl⟩

/-- A read from one chunk. -/
theorem delivers_singleton {n : Nat} {b bs : List UInt8} {i' : Inbox}
    (h : Delivers n [b] bs i') : bs = b.take n := by
  cases h with
  | none => rfl
  | part => rfl
  | chunk _ _ hle => exact (List.take_of_length_le hle).symm
  | more _ hle hrest =>
      rw [hrest.of_nil, List.append_nil, List.take_of_length_le hle]

/-- A read for exactly the first chunk. -/
theorem delivers_of_eq {n : Nat} {b bs : List UInt8} {i i' : Inbox} (hn : b.length = n)
    (hpos : 0 < n) (h : Delivers n (b :: i) bs i') : bs = b ∧ i' = i := by
  obtain ⟨hbs, hi⟩ := delivers_of_le (by rintro rfl; exact hpos.ne hn) hn.ge h
  rw [leftover_of_eq hn] at hi
  exact ⟨hbs.trans (List.take_of_length_le hn.le), hi⟩

theorem flows_client_read {n : Nat} {k : Option (List UInt8) → Proc σ μ α} {b : List UInt8}
    (hn : b.length = n) (hpos : 0 < n) :
    Flows Q ⟨.read n k, w, q, v, ts, b :: tc⟩ ↔ Flows Q ⟨k (some b), w, q, v, ts, tc⟩ := by
  refine flows_client_silent (.inr ⟨b, tc, rfl, hn.ge⟩) (.read _ _ (.chunk _ hpos hn.le))
    fun _ _ _ _ h => ?_
  cases h with
  | read _ _ hd =>
      obtain ⟨rfl, rfl⟩ := delivers_of_eq hn hpos hd
      exact ⟨rfl, rfl, rfl, rfl⟩

/-- A read for no more than the first chunk takes it from there. -/
theorem flows_server_read_le {n : Nat} {k : Option (List UInt8) → Proc τ ν β} {b : List UInt8}
    (hne : b ≠ []) (hn : n ≤ b.length) :
    Flows Q ⟨p, w, .read n k, v, b :: ts, tc⟩ ↔
      Flows Q ⟨p, w, k (some (b.take n)), v, leftover n b ++ ts, tc⟩ := by
  have hact : Delivers n (b :: ts) (b.take n) (leftover n b ++ ts) := by
    rcases Nat.eq_zero_or_pos n with rfl | hpos
    · rw [leftover, if_pos (List.length_pos_of_ne_nil hne)]
      exact .none _
    · rcases Nat.lt_or_ge n b.length with hlt | hge
      · rw [leftover, if_pos hlt]
        exact .part _ hpos hlt
      · rw [leftover, if_neg (by omega), List.take_of_length_le hge]
        exact .chunk _ hpos hge
  refine flows_server_silent (.inr ⟨b, ts, rfl, hn⟩) (.read _ _ hact) fun _ _ _ _ h => ?_
  cases h with
  | read _ _ hd =>
      obtain ⟨rfl, rfl⟩ := delivers_of_le hne hn hd
      exact ⟨rfl, rfl, rfl, rfl⟩

theorem flows_server_read {n : Nat} {k : Option (List UInt8) → Proc τ ν β} {b : List UInt8}
    (hn : b.length = n) (hpos : 0 < n) :
    Flows Q ⟨p, w, .read n k, v, b :: ts, tc⟩ ↔ Flows Q ⟨p, w, k (some b), v, ts, tc⟩ := by
  rw [flows_server_read_le (by rintro rfl; exact hpos.ne hn) hn.ge, leftover_of_eq hn,
    List.take_of_length_le hn.le, List.nil_append]

end Nodes

/-! ## Sequencing on the server's side -/

section Bind

variable {γ : Type} {k : β → Proc τ ν γ} {q : Proc τ ν β} {v : World τ ν} {i : Inbox}

theorem act_bind {q' : Proc τ ν γ} {v' : World τ ν} {i' s : Inbox} (hq : ∀ b, q ≠ .ret b)
    (h : Act (q >>= k) v i q' v' i' s) : ∃ r, q' = r >>= k ∧ Act q v i r v' i' s := by
  cases q with
  | ret b => exact absurd rfl (hq b)
  | exit => cases h
  | fault => cases h
  | get f => cases h; exact ⟨_, rfl, .get ..⟩
  | set s q => cases h; exact ⟨_, rfl, .set ..⟩
  | lock m q =>
      cases h with
      | lock _ _ hm => exact ⟨_, rfl, .lock _ _ hm⟩
  | trylock m f => cases h; exact ⟨_, rfl, .trylock ..⟩
  | unlock m q => cases h; exact ⟨_, rfl, .unlock ..⟩
  | read n f =>
      cases h with
      | read _ _ hd => exact ⟨_, rfl, .read _ _ hd⟩
  | write d f => cases h; exact ⟨_, rfl, .write ..⟩
  | unspec f => cases h; exact ⟨_, rfl, .unspec ..⟩

omit [DecidableEq ν] in
theorem ready_bind (h : Ready q v i) : Ready (q >>= k) v i := by
  cases q with
  | ret b => exact h.elim
  | exit => exact h.elim
  | fault => exact h.elim
  | lock m q => exact h
  | read n f => exact h
  | get f => trivial
  | set s q => trivial
  | trylock m f => trivial
  | unlock m q => trivial
  | write d f => trivial
  | unspec f => trivial

end Bind

/-! ## Where a program stops -/

section Idle

variable {p : Proc σ μ α} {w : World σ μ} {q : Proc τ ν β} {v : World τ ν} {ts tc : Inbox}

/-- The program cannot move with what has arrived. -/
def Idle (p : Proc σ μ α) (w : World σ μ) (i : Inbox) : Prop :=
  ∀ p' w' i' s, ¬ Act p w i p' w' i' s

theorem settled_iff : Settled ⟨p, w, q, v, ts, tc⟩ ↔ Idle p w tc ∧ Idle q v ts := by
  constructor
  · exact fun h => ⟨fun p' w' i' s ha => h _ (.client _ _ _ ha),
      fun q' v' i' s ha => h _ (.server _ _ _ ha)⟩
  · intro h c' hs
    obtain ⟨hp, hq⟩ := h
    cases hs with
    | client _ _ _ ha => exact hp _ _ _ _ ha
    | server _ _ _ ha => exact hq _ _ _ _ ha

theorem idle_ret (a : α) (w : World σ μ) (i : Inbox) : Idle (.ret a) w i :=
  fun _ _ _ _ h => by cases h

theorem settled_ret (a : α) (b : β) (w : World σ μ) (v : World τ ν) (ts tc : Inbox) :
    Settled (⟨.ret a, w, .ret b, v, ts, tc⟩ : Talk σ μ α τ ν β) :=
  settled_iff.mpr ⟨idle_ret a w tc, idle_ret b v ts⟩

theorem idle_exit (w : World σ μ) (i : Inbox) : Idle (.exit : Proc σ μ α) w i :=
  fun _ _ _ _ h => by cases h

theorem idle_fault (w : World σ μ) (i : Inbox) : Idle (.fault : Proc σ μ α) w i :=
  fun _ _ _ _ h => by cases h

theorem idle_lock {m : μ} (hm : m ∈ w.held) (p : Proc σ μ α) (i : Inbox) :
    Idle (.lock m p) w i := fun _ _ _ _ h => by
  cases h with
  | lock _ _ hn => exact hn hm

theorem idle_read {n : Nat} (hn : 0 < n) (k : Option (List UInt8) → Proc σ μ α)
    (w : World σ μ) : Idle (.read n k) w [] := fun _ _ _ _ h => by
  cases h with
  | read _ _ hd =>
      cases hd with
      | none => omega

theorem idle_bind {γ : Type} {k : β → Proc τ ν γ} (hq : ∀ b, q ≠ .ret b)
    (h : Idle q v ts) : Idle (q >>= k) v ts := fun _ _ _ _ ha => by
  obtain ⟨r, -, ha⟩ := act_bind hq ha
  exact h _ _ _ _ ha

/-- Both sides have stopped. -/
theorem Flows.of_idle (hp : Idle p w tc) (hq : Idle q v ts) (h : Q ⟨p, w, q, v, ts, tc⟩) :
    Flows Q ⟨p, w, q, v, ts, tc⟩ := by
  refine .done fun c' hc => ?_
  cases hc.cases_head with
  | inl he => exact he ▸ h
  | inr hs =>
      obtain ⟨c₁, hs, -⟩ := hs
      exact absurd hs (settled_iff.mpr ⟨hp, hq⟩ c₁)

/-- The client's program is over, and what the server does is not looked at. -/
theorem Flows.of_client (hp : ∀ i, Idle p w i)
    (h : ∀ (q : Proc τ ν β) (v : World τ ν) (ts tc : Inbox), Q ⟨p, w, q, v, ts, tc⟩) :
    Flows Q ⟨p, w, q, v, ts, tc⟩ := by
  refine .done fun c' hc => ?_
  have hc : ∃ q v ts tc, c' = ⟨p, w, q, v, ts, tc⟩ := by
    induction hc with
    | refl => exact ⟨q, v, ts, tc, rfl⟩
    | tail _ hs ih =>
        obtain ⟨q, v, ts, tc, rfl⟩ := ih
        cases hs with
        | client _ _ _ ha => exact absurd ha (hp _ _ _ _ _)
        | server _ _ _ ha => exact ⟨_, _, _, _, rfl⟩
  obtain ⟨q, v, ts, tc, rfl⟩ := hc
  exact h q v ts tc

/-- A client that has returned does not do anything else. -/
theorem reach_client_ret {c c' : Talk σ μ α τ ν β} {a : α} (h : Reach c c')
    (hc : c.client = .ret a) : c'.client = .ret a := by
  induction h with
  | refl => exact hc
  | tail _ hs ih =>
      cases hs with
      | client _ _ _ ha =>
          dsimp only at ih
          rw [ih] at ha
          cases ha
      | server => exact ih

/-- What cannot stop with the client returned never gets there. -/
theorem Flows.client_ne_ret {c : Talk σ μ α τ ν β} (h : Flows (fun c => ∀ a, c.client ≠ .ret a) c)
    {c' : Talk σ μ α τ ν β} (hr : Reach c c') (a : α) : c'.client ≠ .ret a := by
  intro hret
  obtain ⟨c'', hreach, hne⟩ := (h.reach hr).exists
  exact hne a (reach_client_ret hreach hret)

/-- The server's program is over, and what the client does is not looked at. -/
theorem Flows.of_server (hq : ∀ i, Idle q v i)
    (h : ∀ (p : Proc σ μ α) (w : World σ μ) (ts tc : Inbox), Q ⟨p, w, q, v, ts, tc⟩) :
    Flows Q ⟨p, w, q, v, ts, tc⟩ := by
  refine .done fun c' hc => ?_
  have hc : ∃ p w ts tc, c' = ⟨p, w, q, v, ts, tc⟩ := by
    induction hc with
    | refl => exact ⟨p, w, ts, tc, rfl⟩
    | tail _ hs ih =>
        obtain ⟨p, w, ts, tc, rfl⟩ := ih
        cases hs with
        | client _ _ _ ha => exact ⟨_, _, _, _, rfl⟩
        | server _ _ _ ha => exact absurd ha (hq _ _ _ _ _)
  obtain ⟨p, w, ts, tc, rfl⟩ := hc
  exact h p w ts tc

/-- The client waits, and whatever the server does next leads on. What is
asked of the pair until it stops does not count. -/
theorem Flows.of_waiting (hQ : ∀ c, ¬ Settled c → Q c) (hp : Idle p w tc)
    (hq : ¬ Idle q v ts)
    (h : ∀ q' v' ts' s, Act q v ts q' v' ts' s → Flows Q ⟨p, w, q', v', ts', tc ++ s⟩) :
    Flows Q ⟨p, w, q, v, ts, tc⟩ := by
  refine .done fun c' hc => ?_
  rcases hc.cases_head with rfl | ⟨c₁, hs, hc⟩
  · exact hQ _ fun hset => hq (settled_iff.mp hset).2
  · by_cases hset : c'.Settled
    · cases hs with
      | client _ _ _ ha => exact absurd ha (hp _ _ _ _)
      | server _ _ _ ha => exact (h _ _ _ _ ha).settled hc hset
    · exact hQ _ hset

end Idle

section Bind

variable {γ : Type} {k : β → Proc τ ν γ} {q : Proc τ ν β} {v : World τ ν}

/-- Run the first half of the server's program as if it were all of it, and go
on from where that leads. -/
theorem Flows.bind {R : Talk σ μ α τ ν γ → Prop} {p : Proc σ μ α} {w : World σ μ}
    {ts tc : Inbox} (h : Flows Q ⟨p, w, q, v, ts, tc⟩)
    (hk : ∀ p w q v ts tc, Q ⟨p, w, q, v, ts, tc⟩ → Flows R ⟨p, w, q >>= k, v, ts, tc⟩) :
    Flows R ⟨p, w, q >>= k, v, ts, tc⟩ := by
  generalize hc : (⟨p, w, q, v, ts, tc⟩ : Talk σ μ α τ ν β) = c at h
  induction h generalizing p w q v ts tc with
  | done hq =>
      subst hc
      exact hk _ _ _ _ _ _ (hq _ .refl)
  | client hr _ ih =>
      injection hc
      subst_vars
      exact .client hr fun p' w' tc' s ha => ih _ _ _ _ ha rfl
  | server hr _ ih =>
      injection hc
      subst_vars
      refine .server (ready_bind hr) fun q' v' ts' s ha => ?_
      have hb : ∀ b, q ≠ .ret b := by
        intro b heq
        subst heq
        exact hr
      obtain ⟨r, rfl, hr'⟩ := act_bind hb ha
      exact ih _ _ _ _ hr' rfl

end Bind

/-! ## One schedule, computed -/

section Schedule

/-- A move of a program, if it has one. A read takes one chunk, and memory
that is not determined has nothing in it. -/
def move : Proc σ μ α → World σ μ → Inbox →
    Option (Proc σ μ α × World σ μ × Inbox × Inbox)
  | .ret _, _, _ => none
  | .exit, _, _ => none
  | .fault, _, _ => none
  | .get k, w, i => some (k w.st, w, i, [])
  | .set s p, w, i => some (p, { w with st := s }, i, [])
  | .lock m p, w, i =>
      if m ∈ w.held then none else some (p, { w with held := insert m w.held }, i, [])
  | .trylock m k, w, i =>
      some (k (decide (m ∉ w.held)), { w with held := insert m w.held }, i, [])
  | .unlock m p, w, i => some (p, { w with held := w.held.erase m }, i, [])
  | .read 0 k, w, i => some (k (some []), w, i, [])
  | .read (_ + 1) _, _, [] => none
  | .read (n + 1) k, w, c :: cs =>
      if n + 1 < c.length then some (k (some (c.take (n + 1))), w, c.drop (n + 1) :: cs, [])
      else some (k (some c), w, cs, [])
  | .write d k, w, i => some (k true, w, i, chunks d.bytes)
  | .unspec k, w, i => some (k [], w, i, [])

theorem act_of_move {p p' : Proc σ μ α} {w w' : World σ μ} {i i' s : Inbox}
    (h : move p w i = some (p', w', i', s)) : Act p w i p' w' i' s := by
  cases p with
  | ret a => cases h
  | exit => cases h
  | fault => cases h
  | get k => cases h; exact .get ..
  | set s p => cases h; exact .set ..
  | lock m p =>
      rw [move] at h
      split at h
      · cases h
      · next hm => cases h; exact .lock _ _ hm
  | trylock m k => cases h; exact .trylock ..
  | unlock m p => cases h; exact .unlock ..
  | read n k =>
      cases n with
      | zero => cases h; exact .read _ _ (.none _)
      | succ n =>
          cases i with
          | nil => cases h
          | cons c cs =>
              rw [move] at h
              split at h
              · next hlt => cases h; exact .read _ _ (.part _ (Nat.succ_pos n) hlt)
              · next hge =>
                  cases h
                  exact .read _ _ (.chunk _ (Nat.succ_pos n) (Nat.not_lt.mp hge))
  | write d k => cases h; exact .write ..
  | unspec k => cases h; exact .unspec ..

/-- The client moves if it can, and otherwise the server. -/
def next (c : Talk σ μ α τ ν β) : Option (Talk σ μ α τ ν β) :=
  match move c.client c.here c.toClient with
  | some (p', w', tc', s) => some ⟨p', w', c.server, c.there, c.toServer ++ s, tc'⟩
  | none =>
      match move c.server c.there c.toServer with
      | some (q', v', ts', s) => some ⟨c.client, c.here, q', v', ts', c.toClient ++ s⟩
      | none => none

/-- Up to `n` moves. -/
def run : Nat → Talk σ μ α τ ν β → Talk σ μ α τ ν β
  | 0, c => c
  | n + 1, c =>
      match next c with
      | some c' => run n c'
      | none => c

theorem step_of_next (h : next c = some c') : Step c c' := by
  rw [next] at h
  split at h
  · next hm =>
      cases h
      exact .client _ _ _ (act_of_move hm)
  · split at h
    · next hm =>
        cases h
        exact .server _ _ _ (act_of_move hm)
    · cases h

theorem reach_run (n : Nat) (c : Talk σ μ α τ ν β) : Reach c (run n c) := by
  induction n generalizing c with
  | zero => exact .refl
  | succ n ih =>
      rw [run]
      split
      · next c' hn => exact .head (step_of_next hn) (ih c')
      · exact .refl

end Schedule

end Talk
