import LsoStore.Lib.Proc
import LsoStore.Lib.Runs
import Mathlib.Data.Finset.Image
import Mathlib.Logic.Relation

/-!
# Threads that take their mutexes in order

A pool of threads, each with what is left of its program and the mutexes it
holds, takes one instruction at a time. Only the mutexes are kept in common:
what a thread reads from the shared state or gets from a call may be anything,
so a statement about a pool does not depend on what the memory held.

Every mutex has a rank. A program is `Ordered` if it locks a mutex only when
that ranks above all those it holds. A `trylock` does not wait, so its mutex may
have any rank. Where all threads are ordered, the mutexes that a chain of
waiting threads want get higher and higher, so the chain never closes, and with
a bound on the ranks it ends at a thread that does not wait.
-/

namespace Proc

variable {σ μ α β : Type} [DecidableEq μ] {rank : μ → Nat}

/-- From `held` on, the program locks nothing that ranks below what it holds.
`Q` is what it returns, and what it holds then. -/
def Ordered (rank : μ → Nat) : Proc σ μ α → Finset μ → (α → Finset μ → Prop) → Prop
  | .ret a, held, Q => Q a held
  | .exit, _, _ => True
  | .fault, _, _ => True
  | .get k, held, Q => ∀ s, (k s).Ordered rank held Q
  | .set _ p, held, Q => p.Ordered rank held Q
  | .lock m p, held, Q =>
      (∀ m' ∈ held, rank m' < rank m) ∧ p.Ordered rank (insert m held) Q
  | .trylock m k, held, Q =>
      (k false).Ordered rank held Q ∧ (m ∉ held → (k true).Ordered rank (insert m held) Q)
  | .unlock m p, held, Q => p.Ordered rank (held.erase m) Q
  | .read n k, held, Q => ∀ r, Fits n r → (k r).Ordered rank held Q
  | .write _ k, held, Q => ∀ ok, (k ok).Ordered rank held Q
  | .unspec k, held, Q => ∀ bs, (k bs).Ordered rank held Q

section Ordered

variable {held : Finset μ} {Q : α → Finset μ → Prop} {m : μ} {p : Proc σ μ α}

@[simp] theorem ordered_ret {a : α} :
    (Proc.ret a : Proc σ μ α).Ordered rank held Q ↔ Q a held := Iff.rfl

@[simp] theorem ordered_exit : (Proc.exit : Proc σ μ α).Ordered rank held Q := trivial

@[simp] theorem ordered_fault : (Proc.fault : Proc σ μ α).Ordered rank held Q := trivial

@[simp] theorem ordered_get {k : σ → Proc σ μ α} :
    (Proc.get k).Ordered rank held Q ↔ ∀ s, (k s).Ordered rank held Q := Iff.rfl

@[simp] theorem ordered_set {s : σ} :
    (Proc.set s p).Ordered rank held Q ↔ p.Ordered rank held Q := Iff.rfl

@[simp] theorem ordered_unlock :
    (Proc.unlock m p).Ordered rank held Q ↔ p.Ordered rank (held.erase m) Q := Iff.rfl

@[simp] theorem ordered_write {d : Payload} {k : Bool → Proc σ μ α} :
    (Proc.write d k).Ordered rank held Q ↔ ∀ ok, (k ok).Ordered rank held Q := Iff.rfl

@[simp] theorem ordered_unspec {k : List UInt8 → Proc σ μ α} :
    (Proc.unspec k).Ordered rank held Q ↔ ∀ bs, (k bs).Ordered rank held Q := Iff.rfl

theorem ordered_lock : (Proc.lock m p).Ordered rank held Q ↔
    (∀ m' ∈ held, rank m' < rank m) ∧ p.Ordered rank (insert m held) Q := Iff.rfl

theorem ordered_trylock {k : Bool → Proc σ μ α} : (Proc.trylock m k).Ordered rank held Q ↔
    (k false).Ordered rank held Q ∧
      (m ∉ held → (k true).Ordered rank (insert m held) Q) := Iff.rfl

theorem ordered_read {n : Nat} {k : Option (List UInt8) → Proc σ μ α} :
    (Proc.read n k).Ordered rank held Q ↔ ∀ r, Fits n r → (k r).Ordered rank held Q := Iff.rfl

theorem Ordered.mono {Q' : α → Finset μ → Prop} (h : p.Ordered rank held Q)
    (hQ : ∀ a held, Q a held → Q' a held) : p.Ordered rank held Q' := by
  induction p generalizing held with
  | ret a => exact hQ a held h
  | exit => trivial
  | fault => trivial
  | get k ih => exact fun s => ih s (h s)
  | set s p ih => exact ih h
  | lock m p ih => exact ⟨h.1, ih h.2⟩
  | trylock m k ih => exact ⟨ih false h.1, fun hm => ih true (h.2 hm)⟩
  | unlock m p ih => exact ih h
  | read n k ih => exact fun r hr => ih r (h r hr)
  | write d k ih => exact fun ok => ih ok (h ok)
  | unspec k ih => exact fun bs => ih bs (h bs)

theorem ordered_bind {k : α → Proc σ μ β} {Q : β → Finset μ → Prop} :
    (p >>= k).Ordered rank held Q ↔
      p.Ordered rank held fun a held => (k a).Ordered rank held Q := by
  induction p generalizing held with
  | ret a => rfl
  | exit => rfl
  | fault => rfl
  | get f ih => exact forall_congr' fun s => ih s
  | set s p ih => exact ih
  | lock m p ih => exact and_congr_right fun _ => ih
  | trylock m f ih => exact and_congr (ih false) (imp_congr_right fun _ => ih true)
  | unlock m p ih => exact ih
  | read n f ih => exact forall_congr' fun r => imp_congr_right fun _ => ih r
  | write d f ih => exact forall_congr' fun ok => ih ok
  | unspec f ih => exact forall_congr' fun bs => ih bs

end Ordered

/-! ## A program inside a larger one -/

section Zoom

variable {τ ν : Type} [DecidableEq ν] (view : τ → σ) (put : τ → σ → τ) (name : μ → ν)

/-- The same program where its state is a part of the state, and its mutexes go
by other names. -/
def zoom : Proc σ μ α → Proc τ ν α
  | .ret a => .ret a
  | .exit => .exit
  | .fault => .fault
  | .get k => .get fun t => (k (view t)).zoom
  | .set s p => .get fun t => .set (put t s) p.zoom
  | .lock m p => .lock (name m) p.zoom
  | .trylock m k => .trylock (name m) fun ok => (k ok).zoom
  | .unlock m p => .unlock (name m) p.zoom
  | .read n k => .read n fun r => (k r).zoom
  | .write d k => .write d fun ok => (k ok).zoom
  | .unspec k => .unspec fun bs => (k bs).zoom

variable {view put name}

/-- What a program holds among others' mutexes that rank below its own. -/
theorem Ordered.zoom {rank' : ν → Nat} {p : Proc σ μ α} {held : Finset μ} {base : Finset ν}
    (hname : Function.Injective name) (hrank : ∀ m m', rank m < rank m' → rank' (name m) <
      rank' (name m')) (hbase : ∀ n ∈ base, ∀ m, rank' n < rank' (name m))
    (h : p.Ordered rank held fun _ _ => True) :
    (p.zoom view put name).Ordered rank' (base ∪ held.image name)
      fun _ held' => base ⊆ held' := by
  have hnot : ∀ m, name m ∉ base := fun m hm => Nat.lt_irrefl _ (hbase _ hm m)
  have hinsert : ∀ (m : μ) (held : Finset μ),
      insert (name m) (base ∪ held.image name) = base ∪ (insert m held).image name := by
    intro m held
    rw [Finset.image_insert, Finset.union_insert]
  induction p generalizing held with
  | ret a => exact Finset.subset_union_left
  | exit => trivial
  | fault => trivial
  | get k ih => exact fun t => ih _ (h _)
  | set s p ih => exact fun t => ih h
  | lock m p ih =>
      refine ⟨fun n hn => ?_, hinsert m held ▸ ih h.2⟩
      rcases Finset.mem_union.mp hn with hn | hn
      · exact hbase n hn m
      · obtain ⟨m', hm', rfl⟩ := Finset.mem_image.mp hn
        exact hrank m' m (h.1 m' hm')
  | trylock m k ih =>
      refine ⟨ih false h.1, fun hn => hinsert m held ▸ ih true (h.2 fun hm => hn ?_)⟩
      exact Finset.mem_union_right _ (Finset.mem_image_of_mem name hm)
  | unlock m p ih =>
      have herase : (base ∪ held.image name).erase (name m) =
          base ∪ (held.erase m).image name := by
        rw [Finset.erase_union_distrib, Finset.erase_eq_of_notMem (hnot m),
          Finset.image_erase hname]
      exact ordered_unlock.mpr (herase ▸ ih h)
  | read n k ih => exact fun r hr => ih r (h r hr)
  | write d k ih => exact fun ok => ih ok (h ok)
  | unspec k ih => exact fun bs => ih bs (h bs)

end Zoom

/-! ## Instructions -/

/-- One instruction of a program that holds `held`, when the mutexes that
nobody holds are `free`. -/
inductive Instr (free : μ → Prop) :
    Proc σ μ α → Finset μ → Proc σ μ α → Finset μ → Prop where
  | get (s : σ) (k : σ → Proc σ μ α) (held : Finset μ) : Instr free (.get k) held (k s) held
  | set (s : σ) (p : Proc σ μ α) (held : Finset μ) : Instr free (.set s p) held p held
  | lock {m : μ} (p : Proc σ μ α) (held : Finset μ) : free m →
      Instr free (.lock m p) held p (insert m held)
  | acquired {m : μ} (k : Bool → Proc σ μ α) (held : Finset μ) : free m →
      Instr free (.trylock m k) held (k true) (insert m held)
  | busy {m : μ} (k : Bool → Proc σ μ α) (held : Finset μ) : ¬ free m →
      Instr free (.trylock m k) held (k false) held
  | unlock (m : μ) (p : Proc σ μ α) (held : Finset μ) :
      Instr free (.unlock m p) held p (held.erase m)
  | read {n : Nat} {r : Option (List UInt8)} (k : Option (List UInt8) → Proc σ μ α)
      (held : Finset μ) : Fits n r → Instr free (.read n k) held (k r) held
  | write (d : Payload) (ok : Bool) (k : Bool → Proc σ μ α) (held : Finset μ) :
      Instr free (.write d k) held (k ok) held
  | unspec (bs : List UInt8) (k : List UInt8 → Proc σ μ α) (held : Finset μ) :
      Instr free (.unspec k) held (k bs) held

section Instr

variable {free : μ → Prop} {p p' : Proc σ μ α} {held held' : Finset μ}

/-- What an ordered program becomes is ordered. -/
theorem Instr.ordered {Q : α → Finset μ → Prop} (h : Instr free p held p' held')
    (hfree : ∀ m, free m → m ∉ held) (hp : p.Ordered rank held Q) :
    p'.Ordered rank held' Q := by
  cases h with
  | get s => exact hp s
  | set => exact hp
  | lock => exact hp.2
  | acquired _ _ hm => exact hp.2 (hfree _ hm)
  | busy => exact hp.1
  | unlock => exact hp
  | read _ _ hr => exact hp _ hr
  | write _ ok => exact hp ok
  | unspec bs => exact hp bs

/-- It comes to hold only what was free. -/
theorem Instr.held_of_mem {m : μ} (h : Instr free p held p' held') (hm : m ∈ held') :
    m ∈ held ∨ free m := by
  cases h with
  | get => exact .inl hm
  | set => exact .inl hm
  | lock _ _ hfree =>
      rcases Finset.mem_insert.mp hm with rfl | hm
      · exact .inr hfree
      · exact .inl hm
  | acquired _ _ hfree =>
      rcases Finset.mem_insert.mp hm with rfl | hm
      · exact .inr hfree
      · exact .inl hm
  | busy => exact .inl hm
  | unlock => exact .inl (Finset.mem_of_mem_erase hm)
  | read => exact .inl hm
  | write => exact .inl hm
  | unspec => exact .inl hm

end Instr

end Proc

/-! ## Pools -/

/-- What is left of a thread's program, and the mutexes it holds. -/
structure PoolThread (σ μ α : Type) where
  rest : Proc σ μ α
  held : Finset μ

/-- The threads. -/
abbrev Pool (ι σ μ α : Type) := ι → PoolThread σ μ α

namespace Pool

open Proc Relation

variable {ι σ μ α : Type}

/-- Nobody holds the mutex. -/
def Free (c : Pool ι σ μ α) (m : μ) : Prop := ∀ i, m ∉ (c i).held

/-- Thread `i` is at a lock that `j` holds. -/
def Waits (c : Pool ι σ μ α) (i j : ι) : Prop :=
  ∃ m p, (c i).rest = .lock m p ∧ m ∈ (c j).held

/-- The thread waits for a mutex. -/
def Blocked (c : Pool ι σ μ α) (i : ι) : Prop := ∃ j, Waits c i j

/-- No mutex is held twice. -/
def Exclusive (c : Pool ι σ μ α) : Prop :=
  ∀ m i j, m ∈ (c i).held → m ∈ (c j).held → i = j

variable [DecidableEq ι] [DecidableEq μ]

/-- A thread that has returned begins a program, or one takes an instruction. -/
inductive Step (begins : ι → Proc σ μ α → Prop) :
    Pool ι σ μ α → ι × Option (Proc σ μ α) → Pool ι σ μ α → Prop where
  | start {c : Pool ι σ μ α} {i : ι} {a : α} {p : Proc σ μ α} : (c i).rest = .ret a →
      begins i p → Step begins c (i, some p) (Function.update c i ⟨p, (c i).held⟩)
  | instr {c : Pool ι σ μ α} {i : ι} {p : Proc σ μ α} {held : Finset μ} :
      Instr c.Free (c i).rest (c i).held p held →
      Step begins c (i, none) (Function.update c i ⟨p, held⟩)

/-- All threads have returned, and hold nothing. -/
def AtRest (c : Pool ι σ μ α) : Prop := ∀ i, ∃ a, c i = ⟨.ret a, ∅⟩

/-- A thread that begins a program holds nothing. -/
def BeginsClean (l : ι × Option (Proc σ μ α)) (c : Pool ι σ μ α) : Prop :=
  l.2 ≠ none → (c l.1).held = ∅

/-- All threads keep to the order. -/
def AllOrdered (rank : μ → Nat) (c : Pool ι σ μ α) : Prop :=
  ∀ i, (c i).rest.Ordered rank (c i).held fun _ _ => True

section Run

variable {begins : ι → Proc σ μ α → Prop} {rank : μ → Nat} {c c' : Pool ι σ μ α}
  {l : ι × Option (Proc σ μ α)} {past : List ((ι × Option (Proc σ μ α)) × Pool ι σ μ α)}

theorem Exclusive.step (h : c.Exclusive) (hs : Step begins c l c') : c'.Exclusive := by
  cases hs with
  | @start i a p _ _ =>
      have hheld : ∀ j, (Function.update c i ⟨p, (c i).held⟩ j).held = (c j).held := by
        intro j
        by_cases hj : j = i
        · rw [hj, Function.update_self]
        · rw [Function.update_of_ne hj]
      intro m j k hj hk
      rw [hheld] at hj hk
      exact h m j k hj hk
  | @instr i p held hinstr =>
      -- a mutex that is new to `i` was free, and so is nobody else's
      have hother : ∀ m j, m ∈ held → j ≠ i → m ∉ (c j).held := by
        intro m j hm hj hmj
        rcases hinstr.held_of_mem hm with hm | hfree
        · exact hj (h m j i hmj hm)
        · exact hfree j hmj
      intro m j k hj hk
      by_cases hji : j = i
      · subst hji
        by_cases hki : k = j
        · exact hki.symm
        · rw [Function.update_self] at hj
          rw [Function.update_of_ne hki] at hk
          exact absurd hk (hother m k hj hki)
      · rw [Function.update_of_ne hji] at hj
        by_cases hki : k = i
        · subst hki
          rw [Function.update_self] at hk
          exact absurd hj (hother m j hk hji)
        · rw [Function.update_of_ne hki] at hk
          exact h m j k hj hk

/-- In every state of a run no mutex is held twice. -/
theorem exclusive (h : Run AtRest (Step begins) past c) :
    ∀ x ∈ visited past c, x.Exclusive := by
  refine h.always (fun c hc m i j hi _ => ?_) fun _ _ _ hx hs => hx.step hs
  obtain ⟨a, ha⟩ := hc i
  rw [ha] at hi
  exact absurd hi (Finset.notMem_empty m)

theorem AllOrdered.step (hbegins : ∀ i p, begins i p → p.Ordered rank ∅ fun _ _ => True)
    (h : c.AllOrdered rank) (hs : Step begins c l c') (hl : BeginsClean l c) :
    c'.AllOrdered rank := by
  cases hs with
  | @start i a p _ hp =>
      intro j
      by_cases hj : j = i
      · subst hj
        rw [Function.update_self, hl (Option.some_ne_none p)]
        exact hbegins j p hp
      · rw [Function.update_of_ne hj]
        exact h j
  | @instr i p held hinstr =>
      intro j
      by_cases hj : j = i
      · subst hj
        rw [Function.update_self]
        exact hinstr.ordered (fun m hm => hm j) (h j)
      · rw [Function.update_of_ne hj]
        exact h j

/-- Threads that begin ordered programs, and hold nothing when they do, are
ordered in every state of a run. -/
theorem allOrdered (hbegins : ∀ i p, begins i p → p.Ordered rank ∅ fun _ _ => True)
    (h : Run AtRest (Step begins) past c) (hclean : ∀ e ∈ past, BeginsClean e.1 e.2) :
    ∀ x ∈ visited past c, x.AllOrdered rank := by
  refine (h.restrict hclean).always (fun c hc i => ?_) fun _ _ _ hx hs =>
    hx.step hbegins hs.1 hs.2
  obtain ⟨a, ha⟩ := hc i
  rw [ha]
  trivial

end Run

/-! ## Who waits for whom -/

section Waits

omit [DecidableEq ι]

variable {rank : μ → Nat} {c : Pool ι σ μ α} {i j : ι}

/-- What a thread that is waited for wants ranks above what it is waited for. -/
theorem AllOrdered.lt_of_held (h : c.AllOrdered rank) {m m' : μ} {p : Proc σ μ α}
    (hm : m ∈ (c j).held) (hj : (c j).rest = .lock m' p) : rank m < rank m' := by
  have hordered := h j
  rw [hj] at hordered
  exact hordered.1 m hm

/-- Along a chain of waiting threads the ranks go up. -/
theorem AllOrdered.lt_of_waits (h : c.AllOrdered rank) {m : μ} {p : Proc σ μ α}
    (hi : (c i).rest = .lock m p) (hw : TransGen (Waits c) i j) :
    ∀ m' p', (c j).rest = .lock m' p' → rank m < rank m' := by
  induction hw with
  | single hw =>
      intro m' p' hj
      obtain ⟨m₁, p₁, hi', hm₁⟩ := hw
      rw [hi] at hi'
      injection hi' with hm
      exact h.lt_of_held (hm ▸ hm₁) hj
  | tail _ hw ih =>
      intro m' p' hj
      obtain ⟨m₁, p₁, hk, hm₁⟩ := hw
      exact Nat.lt_trans (ih m₁ p₁ hk) (h.lt_of_held hm₁ hj)

/-- No thread waits for itself, however long the chain. -/
theorem AllOrdered.not_circular (h : c.AllOrdered rank) (i : ι) : ¬ TransGen (Waits c) i i := by
  intro hw
  obtain ⟨j, hij, -⟩ := TransGen.head'_iff.mp hw
  obtain ⟨m, p, hi, -⟩ := hij
  exact Nat.lt_irrefl _ (h.lt_of_waits hi hw m p hi)

/-- With a bound on the ranks, a thread that waits waits in the end for one that
does not. -/
theorem AllOrdered.ends (h : c.AllOrdered rank) {n : Nat} (hn : ∀ m, rank m ≤ n)
    (hi : Blocked c i) : ∃ j, TransGen (Waits c) i j ∧ ¬ Blocked c j := by
  obtain ⟨j, hij⟩ := hi
  obtain ⟨m, p, hrest, hm⟩ := hij
  -- by induction on how far below the bound the mutex ranks
  induction hd : n - rank m using Nat.strong_induction_on generalizing i j m p with
  | _ d ih =>
      have hwaits : Waits c i j := ⟨m, p, hrest, hm⟩
      by_cases hj : Blocked c j
      · obtain ⟨k, m', p', hrest', hm'⟩ := hj
        have hlt := h.lt_of_held hm hrest'
        have hle := hn m'
        obtain ⟨e, hje, he⟩ := ih (n - rank m') (by omega) k m' p' hrest' hm' rfl
        exact ⟨e, .head hwaits hje, he⟩
      · exact ⟨j, .single hwaits, hj⟩

end Waits

end Pool
