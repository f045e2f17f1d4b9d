import Mathlib.Data.Finset.Basic
import LsoStore.Lib.LittleEndian

/-!
# Programs that talk to a stream and take locks

A program here is the tree of everything it might do: at each node it reads
or replaces the shared state, takes or gives back a mutex, or performs a
system call and continues with whatever the call returned. What a call
returns is not the program's business, so a run is a program together with
the list of what its calls returned, in order; `Proc.replay` checks such a
list against the tree and answers with the state it leaves.

Proofs never handle those lists. `Ensures p w Q` says that every run of `p`
from `w` ends in `Q`, and each node has one equation for it, so a statement
about all runs is read off the program text node by node.

`Out` keeps the ways a run can end apart: a return, a call to `exit`, a
memory fault, and a `lock` that never comes back because the thread already
holds the mutex.
-/

/-- What a `write` call is given: a 32-bit word, a 64-bit size, or a block of
bytes. -/
inductive Payload where
  | word (m : BitVec 32)
  | size (n : Nat)
  | block (bs : List UInt8)
deriving DecidableEq

namespace Payload

/-- The bytes of a payload on the wire. -/
def bytes : Payload → List UInt8
  | .word m => LittleEndian.encode 4 m.toNat
  | .size n => LittleEndian.encode 8 n
  | .block bs => bs

@[simp] theorem bytes_word (m : BitVec 32) :
    (word m).bytes = LittleEndian.encode 4 m.toNat := rfl

@[simp] theorem bytes_size (n : Nat) :
    (size n).bytes = LittleEndian.encode 8 n := rfl

@[simp] theorem bytes_block (bs : List UInt8) : (block bs).bytes = bs := rfl

end Payload

/-- A program over a shared state `σ` and mutexes `μ`. `read` gets `none`
when the call failed and otherwise the bytes it returned, none of them at the
end of the stream. `unspec` is memory whose contents the program does not
determine. -/
inductive Proc (σ μ : Type) (α : Type) : Type where
  | ret (a : α)
  | exit
  | fault
  | get (k : σ → Proc σ μ α)
  | set (s : σ) (k : Proc σ μ α)
  | lock (m : μ) (k : Proc σ μ α)
  | trylock (m : μ) (k : Bool → Proc σ μ α)
  | unlock (m : μ) (k : Proc σ μ α)
  | read (n : Nat) (k : Option (List UInt8) → Proc σ μ α)
  | write (p : Payload) (k : Bool → Proc σ μ α)
  | unspec (k : List UInt8 → Proc σ μ α)

/-- What one call returned. -/
inductive Event (μ : Type) where
  | read (n : Nat) (r : Option (List UInt8))
  | write (p : Payload) (ok : Bool)
  | trylock (m : μ) (ok : Bool)
  | unspec (bs : List UInt8)
deriving DecidableEq

/-- How a run ended. -/
inductive Out (α : Type) where
  | ret (a : α)
  | exit
  | fault
  | blocked
deriving DecidableEq

/-- The shared state and the mutexes the thread holds. -/
structure World (σ μ : Type) where
  st : σ
  held : Finset μ

namespace Proc

variable {σ μ α β γ : Type}

/-- Sequencing: `k` continues wherever `p` returned. -/
protected def bind : Proc σ μ α → (α → Proc σ μ β) → Proc σ μ β
  | .ret a, k => k a
  | .exit, _ => .exit
  | .fault, _ => .fault
  | .get f, k => .get fun s => (f s).bind k
  | .set s p, k => .set s (p.bind k)
  | .lock m p, k => .lock m (p.bind k)
  | .trylock m f, k => .trylock m fun b => (f b).bind k
  | .unlock m p, k => .unlock m (p.bind k)
  | .read n f, k => .read n fun r => (f r).bind k
  | .write p f, k => .write p fun ok => (f ok).bind k
  | .unspec f, k => .unspec fun bs => (f bs).bind k

instance : Monad (Proc σ μ) where
  pure := .ret
  bind := Proc.bind

@[simp] theorem pure_eq (a : α) : (pure a : Proc σ μ α) = .ret a := rfl

@[simp] theorem ret_bind (a : α) (k : α → Proc σ μ β) : (Proc.ret a >>= k) = k a := rfl

@[simp] theorem exit_bind (k : α → Proc σ μ β) : (Proc.exit >>= k) = .exit := rfl

@[simp] theorem fault_bind (k : α → Proc σ μ β) : (Proc.fault >>= k) = .fault := rfl

@[simp] theorem get_bind (f : σ → Proc σ μ α) (k : α → Proc σ μ β) :
    (Proc.get f >>= k) = .get fun s => f s >>= k := rfl

@[simp] theorem set_bind (s : σ) (p : Proc σ μ α) (k : α → Proc σ μ β) :
    (Proc.set s p >>= k) = .set s (p >>= k) := rfl

@[simp] theorem lock_bind (m : μ) (p : Proc σ μ α) (k : α → Proc σ μ β) :
    (Proc.lock m p >>= k) = .lock m (p >>= k) := rfl

@[simp] theorem trylock_bind (m : μ) (f : Bool → Proc σ μ α) (k : α → Proc σ μ β) :
    (Proc.trylock m f >>= k) = .trylock m fun b => f b >>= k := rfl

@[simp] theorem unlock_bind (m : μ) (p : Proc σ μ α) (k : α → Proc σ μ β) :
    (Proc.unlock m p >>= k) = .unlock m (p >>= k) := rfl

@[simp] theorem read_bind (n : Nat) (f : Option (List UInt8) → Proc σ μ α)
    (k : α → Proc σ μ β) : (Proc.read n f >>= k) = .read n fun r => f r >>= k := rfl

@[simp] theorem write_bind (p : Payload) (f : Bool → Proc σ μ α) (k : α → Proc σ μ β) :
    (Proc.write p f >>= k) = .write p fun ok => f ok >>= k := rfl

@[simp] theorem unspec_bind (f : List UInt8 → Proc σ μ α) (k : α → Proc σ μ β) :
    (Proc.unspec f >>= k) = .unspec fun bs => f bs >>= k := rfl

theorem bind_assoc (p : Proc σ μ α) (f : α → Proc σ μ β) (g : β → Proc σ μ γ) :
    (p >>= f) >>= g = p >>= fun a => f a >>= g := by
  induction p with
  | ret a => rfl
  | exit => rfl
  | fault => rfl
  | get k ih => simp only [get_bind, ih]
  | set s p ih => simp only [set_bind, ih]
  | lock m p ih => simp only [lock_bind, ih]
  | trylock m k ih => simp only [trylock_bind, ih]
  | unlock m p ih => simp only [unlock_bind, ih]
  | read n k ih => simp only [read_bind, ih]
  | write d k ih => simp only [write_bind, ih]
  | unspec k ih => simp only [unspec_bind, ih]

@[simp] theorem bind_ret (p : Proc σ μ α) : (p >>= Proc.ret) = p := by
  induction p with
  | ret a => rfl
  | exit => rfl
  | fault => rfl
  | get k ih => simp only [get_bind, ih]
  | set s p ih => simp only [set_bind, ih]
  | lock m p ih => simp only [lock_bind, ih]
  | trylock m k ih => simp only [trylock_bind, ih]
  | unlock m p ih => simp only [unlock_bind, ih]
  | read n k ih => simp only [read_bind, ih]
  | write d k ih => simp only [write_bind, ih]
  | unspec k ih => simp only [unspec_bind, ih]

theorem bind_ne_ret {p : Proc σ μ α} (hp : ∀ a, p ≠ .ret a) (k : α → Proc σ μ β) (b : β) :
    (p >>= k) ≠ .ret b := by
  cases p with
  | ret a => exact absurd rfl (hp a)
  | exit => intro h; cases h
  | fault => intro h; cases h
  | get f => intro h; cases h
  | set s p => intro h; cases h
  | lock m p => intro h; cases h
  | trylock m f => intro h; cases h
  | unlock m p => intro h; cases h
  | read n f => intro h; cases h
  | write d f => intro h; cases h
  | unspec f => intro h; cases h

@[simp] theorem ite_bind (c : Prop) [Decidable c] (p q : Proc σ μ α)
    (k : α → Proc σ μ β) :
    ((if c then p else q) >>= k) = if c then p >>= k else q >>= k := by
  split <;> rfl

/-- A read returns at most what it asked for. -/
def Fits (n : Nat) (r : Option (List UInt8)) : Prop := ∀ bs, r = some bs → bs.length ≤ n

instance (n : Nat) : ∀ r : Option (List UInt8), Decidable (Fits n r)
  | none => isTrue fun _ h => by cases h
  | some bs => decidable_of_iff (bs.length ≤ n)
      ⟨fun h _ hbs => by cases hbs; exact h, fun h => h bs rfl⟩

@[simp] theorem fits_none (n : Nat) : Fits n none := fun _ h => by cases h

@[simp] theorem fits_some {n : Nat} {bs : List UInt8} :
    Fits n (some bs) ↔ bs.length ≤ n :=
  ⟨fun h => h bs rfl, fun h _ hbs => by cases hbs; exact h⟩

/-- A condition on the world a run left when it returned. -/
def Returns (I : World σ μ → Prop) (_tr : List (Event μ)) (o : Out α) (w : World σ μ) :
    Prop :=
  match o with
  | .ret _ => I w
  | _ => True

section Returns

variable {I : World σ μ → Prop} {tr : List (Event μ)} {w : World σ μ}

@[simp] theorem returns_ret {a : α} : Returns I tr (.ret a) w ↔ I w := Iff.rfl

@[simp] theorem returns_exit : Returns (α := α) I tr .exit w := trivial

@[simp] theorem returns_fault : Returns (α := α) I tr .fault w := trivial

@[simp] theorem returns_blocked : Returns (α := α) I tr .blocked w := trivial

theorem Returns.imp {J : World σ μ → Prop} {tr' : List (Event μ)} {o : Out α}
    (h : Returns I tr o w) (hIJ : I w → J w) : Returns J tr' o w := by
  cases o with
  | ret a => exact hIJ h
  | exit => trivial
  | fault => trivial
  | blocked => trivial

end Returns

variable [DecidableEq μ]

/-- Run the program against what its calls returned. The answer is `none`
when the list is not one this program can see: a call it does not make, more
bytes than it asked for, a lock granted twice, or a list that is too long or
too short. -/
def replay : Proc σ μ α → World σ μ → List (Event μ) → Option (Out α × World σ μ)
  | .ret a, w, [] => some (.ret a, w)
  | .exit, w, [] => some (.exit, w)
  | .fault, w, [] => some (.fault, w)
  | .get k, w, tr => (k w.st).replay w tr
  | .set s p, w, tr => p.replay { w with st := s } tr
  | .lock m p, w, tr =>
      if m ∈ w.held then
        match tr with
        | [] => some (.blocked, w)
        | _ :: _ => none
      else p.replay { w with held := insert m w.held } tr
  | .trylock m k, w, .trylock m' ok :: tr =>
      if m' = m ∧ (ok = true → m ∉ w.held) then
        (k ok).replay (if ok then { w with held := insert m w.held } else w) tr
      else none
  | .unlock m p, w, tr => p.replay { w with held := w.held.erase m } tr
  | .read n k, w, .read n' r :: tr =>
      if n' = n ∧ Fits n r then (k r).replay w tr else none
  | .write p k, w, .write p' ok :: tr =>
      if p' = p then (k ok).replay w tr else none
  | .unspec k, w, .unspec bs :: tr => (k bs).replay w tr
  | _, _, _ => none

/-- `p` can run from `w`, with its calls returning `tr`, and end as `o` in
`w'`. -/
def Runs (p : Proc σ μ α) (w : World σ μ) (tr : List (Event μ)) (o : Out α)
    (w' : World σ μ) : Prop :=
  p.replay w tr = some (o, w')

section Runs

attribute [local simp] replay

variable {w w' : World σ μ} {tr : List (Event μ)} {o : Out α}

@[simp] theorem runs_ret {a : α} :
    (Proc.ret a : Proc σ μ α).Runs w tr o w' ↔ tr = [] ∧ o = .ret a ∧ w' = w := by
  cases tr with
  | nil => simp [Runs, eq_comm]
  | cons e tr => simp [Runs]

@[simp] theorem runs_exit :
    (Proc.exit : Proc σ μ α).Runs w tr o w' ↔ tr = [] ∧ o = .exit ∧ w' = w := by
  cases tr with
  | nil => simp [Runs, eq_comm]
  | cons e tr => simp [Runs]

@[simp] theorem runs_fault :
    (Proc.fault : Proc σ μ α).Runs w tr o w' ↔ tr = [] ∧ o = .fault ∧ w' = w := by
  cases tr with
  | nil => simp [Runs, eq_comm]
  | cons e tr => simp [Runs]

@[simp] theorem runs_get {k : σ → Proc σ μ α} :
    (Proc.get k).Runs w tr o w' ↔ (k w.st).Runs w tr o w' := by
  rw [Runs, replay, Runs]

@[simp] theorem runs_set {s : σ} {p : Proc σ μ α} :
    (Proc.set s p).Runs w tr o w' ↔ p.Runs { w with st := s } tr o w' := by
  rw [Runs, replay, Runs]

@[simp] theorem runs_unlock {m : μ} {p : Proc σ μ α} :
    (Proc.unlock m p).Runs w tr o w' ↔
      p.Runs { w with held := w.held.erase m } tr o w' := by
  rw [Runs, replay, Runs]

theorem runs_lock {m : μ} {p : Proc σ μ α} :
    (Proc.lock m p).Runs w tr o w' ↔
      (m ∈ w.held ∧ tr = [] ∧ o = .blocked ∧ w' = w) ∨
      (m ∉ w.held ∧ p.Runs { w with held := insert m w.held } tr o w') := by
  by_cases hm : m ∈ w.held
  · cases tr with
    | nil => simp [Runs, hm, eq_comm]
    | cons e tr => simp [Runs, hm]
  · simp [Runs, hm]

@[simp] theorem runs_read {n : Nat} {k : Option (List UInt8) → Proc σ μ α} :
    (Proc.read n k).Runs w tr o w' ↔
      ∃ r tr', tr = .read n r :: tr' ∧ Fits n r ∧ (k r).Runs w tr' o w' := by
  constructor
  · intro h
    match tr with
    | [] | .write .. :: _ | .trylock .. :: _ | .unspec .. :: _ => cases h
    | .read n' r :: tr =>
        rw [Runs, replay] at h
        split at h
        · next hc => exact ⟨r, tr, by rw [hc.1], hc.2, h⟩
        · cases h
  · intro h
    obtain ⟨r, tr, rfl, hfit, h⟩ := h
    rw [Runs, replay, if_pos ⟨rfl, hfit⟩]
    exact h

theorem runs_lock_free {m : μ} {p : Proc σ μ α} (hm : m ∉ w.held) :
    (Proc.lock m p).Runs w tr o w' ↔ p.Runs { w with held := insert m w.held } tr o w' := by
  simp [runs_lock, hm]

theorem runs_read_cons {n : Nat} {k : Option (List UInt8) → Proc σ μ α}
    {r : Option (List UInt8)} (hfit : Fits n r) :
    (Proc.read n k).Runs w (.read n r :: tr) o w' ↔ (k r).Runs w tr o w' := by
  rw [Runs, replay, if_pos ⟨rfl, hfit⟩, Runs]

@[simp] theorem runs_write {p : Payload} {k : Bool → Proc σ μ α} :
    (Proc.write p k).Runs w tr o w' ↔
      ∃ ok tr', tr = .write p ok :: tr' ∧ (k ok).Runs w tr' o w' := by
  constructor
  · intro h
    match tr with
    | [] | .read .. :: _ | .trylock .. :: _ | .unspec .. :: _ => cases h
    | .write p' ok :: tr =>
        rw [Runs, replay] at h
        split at h
        · next hc => exact ⟨ok, tr, by rw [hc], h⟩
        · cases h
  · intro h
    obtain ⟨ok, tr, rfl, h⟩ := h
    rw [Runs, replay, if_pos rfl]
    exact h

@[simp] theorem runs_unspec {k : List UInt8 → Proc σ μ α} :
    (Proc.unspec k).Runs w tr o w' ↔
      ∃ bs tr', tr = .unspec bs :: tr' ∧ (k bs).Runs w tr' o w' := by
  constructor
  · intro h
    match tr with
    | [] | .read .. :: _ | .trylock .. :: _ | .write .. :: _ => cases h
    | .unspec bs :: tr => exact ⟨bs, tr, rfl, h⟩
  · intro h
    obtain ⟨bs, tr, rfl, h⟩ := h
    exact h

theorem runs_trylock {m : μ} {k : Bool → Proc σ μ α} :
    (Proc.trylock m k).Runs w tr o w' ↔
      ∃ ok tr', tr = .trylock m ok :: tr' ∧ (ok = true → m ∉ w.held) ∧
        (k ok).Runs (if ok then { w with held := insert m w.held } else w) tr' o w' := by
  constructor
  · intro h
    match tr with
    | [] | .read .. :: _ | .write .. :: _ | .unspec .. :: _ => cases h
    | .trylock m' ok :: tr =>
        rw [Runs, replay] at h
        split at h
        · next hc => exact ⟨ok, tr, by rw [hc.1], hc.2, h⟩
        · cases h
  · intro h
    obtain ⟨ok, tr, rfl, hm, h⟩ := h
    rw [Runs, replay, if_pos ⟨rfl, hm⟩]
    exact h

end Runs

/-- Every run of `p` from `w` ends in `Q`. -/
def Ensures (p : Proc σ μ α) (w : World σ μ)
    (Q : List (Event μ) → Out α → World σ μ → Prop) : Prop :=
  ∀ tr o w', p.Runs w tr o w' → Q tr o w'

section Ensures

variable {w : World σ μ} {Q Q' : List (Event μ) → Out α → World σ μ → Prop}

theorem Ensures.mono {p : Proc σ μ α} (h : p.Ensures w Q)
    (hQ : ∀ tr o w', Q tr o w' → Q' tr o w') : p.Ensures w Q' :=
  fun tr o w' hr => hQ tr o w' (h tr o w' hr)

theorem Ensures.and {p : Proc σ μ α} (h : p.Ensures w Q) (h' : p.Ensures w Q') :
    p.Ensures w fun tr o w' => Q tr o w' ∧ Q' tr o w' :=
  fun tr o w' hr => ⟨h tr o w' hr, h' tr o w' hr⟩

/-- A run that has ended has one outcome. -/
theorem ensures_end {p : Proc σ μ α} {o : Out α}
    (h : ∀ tr o' w', p.Runs w tr o' w' ↔ tr = [] ∧ o' = o ∧ w' = w) :
    p.Ensures w Q ↔ Q [] o w := by
  constructor
  · intro hp
    exact hp _ _ _ ((h _ _ _).mpr ⟨rfl, rfl, rfl⟩)
  · intro hq tr o' w' hr
    obtain ⟨rfl, rfl, rfl⟩ := (h _ _ _).mp hr
    exact hq

@[simp] theorem ensures_ret {a : α} :
    (Proc.ret a : Proc σ μ α).Ensures w Q ↔ Q [] (.ret a) w :=
  ensures_end fun _ _ _ => runs_ret

@[simp] theorem ensures_exit :
    (Proc.exit : Proc σ μ α).Ensures w Q ↔ Q [] .exit w :=
  ensures_end fun _ _ _ => runs_exit

@[simp] theorem ensures_fault :
    (Proc.fault : Proc σ μ α).Ensures w Q ↔ Q [] .fault w :=
  ensures_end fun _ _ _ => runs_fault

@[simp] theorem ensures_get {k : σ → Proc σ μ α} :
    (Proc.get k).Ensures w Q ↔ (k w.st).Ensures w Q := by
  simp only [Ensures, runs_get]

@[simp] theorem ensures_set {s : σ} {p : Proc σ μ α} :
    (Proc.set s p).Ensures w Q ↔ p.Ensures { w with st := s } Q := by
  simp only [Ensures, runs_set]

@[simp] theorem ensures_unlock {m : μ} {p : Proc σ μ α} :
    (Proc.unlock m p).Ensures w Q ↔ p.Ensures { w with held := w.held.erase m } Q := by
  simp only [Ensures, runs_unlock]

theorem ensures_lock {m : μ} {p : Proc σ μ α} :
    (Proc.lock m p).Ensures w Q ↔
      (m ∈ w.held → Q [] .blocked w) ∧
      (m ∉ w.held → p.Ensures { w with held := insert m w.held } Q) := by
  by_cases hm : m ∈ w.held
  · simpa [hm] using ensures_end (Q := Q) fun tr o w' => by simp [runs_lock, hm]
  · simp [Ensures, runs_lock, hm]

@[simp] theorem ensures_read {n : Nat} {k : Option (List UInt8) → Proc σ μ α} :
    (Proc.read n k).Ensures w Q ↔
      ∀ r, Fits n r → (k r).Ensures w fun tr => Q (.read n r :: tr) := by
  constructor
  · intro h r hfit tr o w' hr
    exact h _ o w' (runs_read.mpr ⟨r, tr, rfl, hfit, hr⟩)
  · intro h tr o w' hr
    obtain ⟨r, tr, rfl, hfit, hk⟩ := runs_read.mp hr
    exact h r hfit tr o w' hk

@[simp] theorem ensures_write {p : Payload} {k : Bool → Proc σ μ α} :
    (Proc.write p k).Ensures w Q ↔
      ∀ ok, (k ok).Ensures w fun tr => Q (.write p ok :: tr) := by
  constructor
  · intro h ok tr o w' hr
    exact h _ o w' (runs_write.mpr ⟨ok, tr, rfl, hr⟩)
  · intro h tr o w' hr
    obtain ⟨ok, tr, rfl, hk⟩ := runs_write.mp hr
    exact h ok tr o w' hk

@[simp] theorem ensures_unspec {k : List UInt8 → Proc σ μ α} :
    (Proc.unspec k).Ensures w Q ↔
      ∀ bs, (k bs).Ensures w fun tr => Q (.unspec bs :: tr) := by
  constructor
  · intro h bs tr o w' hr
    exact h _ o w' (runs_unspec.mpr ⟨bs, tr, rfl, hr⟩)
  · intro h tr o w' hr
    obtain ⟨bs, tr, rfl, hk⟩ := runs_unspec.mp hr
    exact h bs tr o w' hk

theorem ensures_trylock {m : μ} {k : Bool → Proc σ μ α} :
    (Proc.trylock m k).Ensures w Q ↔
      (k false).Ensures w (fun tr => Q (.trylock m false :: tr)) ∧
      (m ∉ w.held → (k true).Ensures { w with held := insert m w.held }
        fun tr => Q (.trylock m true :: tr)) := by
  constructor
  · intro h
    constructor
    · intro tr o w' hr
      exact h _ o w' (runs_trylock.mpr ⟨false, tr, rfl, by simp, hr⟩)
    · intro hm tr o w' hr
      exact h _ o w' (runs_trylock.mpr ⟨true, tr, rfl, fun _ => hm, hr⟩)
  · intro h tr o w' hr
    obtain ⟨hf, ht⟩ := h
    obtain ⟨ok, tr, rfl, hm, hk⟩ := runs_trylock.mp hr
    cases ok with
    | false => exact hf tr o w' hk
    | true => exact ht (hm rfl) tr o w' hk

/-- What has to hold where `p` stopped for `p >>= k` to end in `Q`: the rest
of the program runs after a return, and nothing runs after any other end. -/
def After (k : α → Proc σ μ β) (Q : List (Event μ) → Out β → World σ μ → Prop)
    (tr : List (Event μ)) (o : Out α) (w : World σ μ) : Prop :=
  match o with
  | .ret a => (k a).Ensures w fun tr' => Q (tr ++ tr')
  | .exit => Q tr .exit w
  | .fault => Q tr .fault w
  | .blocked => Q tr .blocked w

theorem ensures_bind {p : Proc σ μ α} {k : α → Proc σ μ β} {w : World σ μ}
    {Q : List (Event μ) → Out β → World σ μ → Prop} :
    (p >>= k).Ensures w Q ↔ p.Ensures w (After k Q) := by
  induction p generalizing w Q with
  | ret a => simp [After]
  | exit => simp [After]
  | fault => simp [After]
  | get f ih => simpa using ih w.st
  | set s p ih => simpa using ih
  | unlock m p ih => simpa using ih
  | lock m p ih => simp only [lock_bind, ensures_lock, ih]; rfl
  | trylock m f ih =>
      simp only [trylock_bind, ensures_trylock, ih]
      rfl
  | read n f ih => simp only [read_bind, ensures_read, ih]; rfl
  | write p f ih => simp only [write_bind, ensures_write, ih]; rfl
  | unspec f ih => simp only [unspec_bind, ensures_unspec, ih]; rfl

/-- A run of the first half and a run of the second half from what that left. -/
theorem Runs.bind {p : Proc σ μ α} {k : α → Proc σ μ β} {a : α} {w w' w'' : World σ μ}
    {tr tr' : List (Event μ)} {o : Out β} (hp : p.Runs w tr (.ret a) w')
    (hk : (k a).Runs w' tr' o w'') : (p >>= k).Runs w (tr ++ tr') o w'' := by
  by_contra hnot
  have hall : (p >>= k).Ensures w fun t o' v => ¬ (t = tr ++ tr' ∧ o' = o ∧ v = w'') := by
    intro t o' v hr h
    obtain ⟨rfl, rfl, rfl⟩ := h
    exact hnot hr
  exact (ensures_bind.mp hall tr _ w' hp tr' o w'' hk) ⟨rfl, rfl, rfl⟩

/-- A run of a program whose result is then wrapped up. -/
theorem Runs.of_bind_ret {p : Proc σ μ α} {f : α → β} {b : β} {w w' : World σ μ}
    {tr : List (Event μ)} (h : (p >>= fun a => .ret (f a)).Runs w tr (.ret b) w') :
    ∃ a, b = f a ∧ p.Runs w tr (.ret a) w' := by
  refine (ensures_bind.mpr ?_ : (p >>= fun a => .ret (f a)).Ensures w fun tr o w' =>
    ∀ b, o = .ret b → ∃ a, b = f a ∧ p.Runs w tr (.ret a) w') tr _ w' h b rfl
  intro tr o w' hp
  cases o with
  | ret a =>
      rw [After, ensures_ret]
      intro b hb
      cases hb
      exact ⟨a, rfl, by simpa using hp⟩
  | exit => exact fun b hb => by cases hb
  | fault => exact fun b hb => by cases hb
  | blocked => exact fun b hb => by cases hb

/-- What the first half leaves is what the second half starts from. -/
theorem Ensures.bind_returns {p : Proc σ μ α} {k : α → Proc σ μ β} {w : World σ μ}
    {I J : World σ μ → Prop} (hp : p.Ensures w (Returns I))
    (hk : ∀ a w', I w' → (k a).Ensures w' (Returns J)) :
    (p >>= k).Ensures w (Returns J) := by
  refine ensures_bind.mpr (hp.mono fun tr o w' h => ?_)
  cases o with
  | ret a => exact hk a w' h
  | exit => trivial
  | fault => trivial
  | blocked => trivial

/-- An invariant of the two halves is an invariant of the whole. -/
theorem Ensures.bind_inv {p : Proc σ μ α} {k : α → Proc σ μ β} {w : World σ μ}
    {I : World σ μ → Prop} (hp : p.Ensures w (Returns I))
    (hk : ∀ a w', I w' → (k a).Ensures w' (Returns I)) :
    (p >>= k).Ensures w (Returns I) :=
  hp.bind_returns hk

/-- What both halves keep is kept wherever the run ends. -/
theorem Ensures.bind_always {p : Proc σ μ α} {k : α → Proc σ μ β} {w : World σ μ}
    {I : World σ μ → Prop} (hp : p.Ensures w fun _ _ w' => I w')
    (hk : ∀ a w', I w' → (k a).Ensures w' fun _ _ w'' => I w'') :
    (p >>= k).Ensures w fun _ _ w' => I w' := by
  refine ensures_bind.mpr (hp.mono fun tr o w' h => ?_)
  cases o with
  | ret a => exact hk a w' h
  | exit => exact h
  | fault => exact h
  | blocked => exact h

end Ensures

end Proc
