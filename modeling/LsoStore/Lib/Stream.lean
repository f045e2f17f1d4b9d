import LsoStore.Lib.Proc

/-!
# Reads from one byte stream

A run's reads take bytes off the front of a stream, in order. How many each
one gets is up to the stream: `Cut` is all it promises, at least one byte while
there are any, and `Whole` is the stream that hands over everything a read
asked for, as far as there is that much. At the end of the stream every read
returns no bytes.

With whole reads, and with everything else a call can return fixed by an
environment, a program has at most one run. What its reads leave of the stream
is `unread`; a program all of whose reads ask for nothing leaves all of it.
-/

namespace Proc

variable {σ μ α : Type}

/-- Each read gets a piece from the front of what is left, and not an empty
one unless it asked for nothing or nothing is left. -/
def Cut : List UInt8 → List (Event μ) → Prop
  | _, [] => True
  | bs, .read n r :: tr => ∃ k ≤ n, (0 < n → bs ≠ [] → 0 < k) ∧
      r = some (bs.take k) ∧ Cut (bs.drop k) tr
  | bs, .write _ _ :: tr => Cut bs tr
  | bs, .trylock _ _ :: tr => Cut bs tr
  | bs, .unspec _ :: tr => Cut bs tr

/-- Each read gets all it asked for, as far as there is that much left. -/
def Whole : List UInt8 → List (Event μ) → Prop
  | _, [] => True
  | bs, .read n r :: tr => r = some (bs.take n) ∧ Whole (bs.drop n) tr
  | bs, .write _ _ :: tr => Whole bs tr
  | bs, .trylock _ _ :: tr => Whole bs tr
  | bs, .unspec _ :: tr => Whole bs tr

@[simp] theorem whole_nil (bs : List UInt8) : Whole (μ := μ) bs [] := trivial

@[simp] theorem whole_read {bs : List UInt8} {n : Nat} {r : Option (List UInt8)}
    {tr : List (Event μ)} :
    Whole bs (.read n r :: tr) ↔ r = some (bs.take n) ∧ Whole (bs.drop n) tr := Iff.rfl

@[simp] theorem whole_write {bs : List UInt8} {p : Payload} {ok : Bool}
    {tr : List (Event μ)} : Whole bs (.write p ok :: tr) ↔ Whole bs tr := Iff.rfl

@[simp] theorem whole_trylock {bs : List UInt8} {m : μ} {ok : Bool}
    {tr : List (Event μ)} : Whole bs (.trylock m ok :: tr) ↔ Whole bs tr := Iff.rfl

@[simp] theorem whole_unspec {bs junk : List UInt8} {tr : List (Event μ)} :
    Whole bs (.unspec junk :: tr) ↔ Whole bs tr := Iff.rfl

@[simp] theorem cut_nil (bs : List UInt8) : Cut (μ := μ) bs [] := trivial

theorem cut_read {bs : List UInt8} {n : Nat} {r : Option (List UInt8)}
    {tr : List (Event μ)} :
    Cut bs (.read n r :: tr) ↔ ∃ k ≤ n, (0 < n → bs ≠ [] → 0 < k) ∧
      r = some (bs.take k) ∧ Cut (bs.drop k) tr := Iff.rfl

@[simp] theorem cut_write {bs : List UInt8} {p : Payload} {ok : Bool}
    {tr : List (Event μ)} : Cut bs (.write p ok :: tr) ↔ Cut bs tr := Iff.rfl

theorem Whole.cut {bs : List UInt8} {tr : List (Event μ)} (h : Whole bs tr) : Cut bs tr := by
  induction tr generalizing bs with
  | nil => trivial
  | cons e tr ih =>
      cases e with
      | read n r =>
          obtain ⟨rfl, h⟩ := h
          exact ⟨n, Nat.le_refl n, fun hn _ => hn, rfl, ih h⟩
      | write p ok => exact @ih bs h
      | trylock m ok => exact @ih bs h
      | unspec junk => exact @ih bs h

/-- A read that came back short found the end of the stream: nothing that was
still to come was left out of its buffer. -/
def Filled : List UInt8 → List (Event μ) → Prop
  | _, [] => True
  | bs, .read n r :: tr => ∀ got, r = some got →
      (got.length < n → bs.drop got.length = []) ∧ Filled (bs.drop got.length) tr
  | bs, .write _ _ :: tr => Filled bs tr
  | bs, .trylock _ _ :: tr => Filled bs tr
  | bs, .unspec _ :: tr => Filled bs tr

theorem drop_length_take (bs : List UInt8) (k : Nat) :
    bs.drop (bs.take k).length = bs.drop k := by
  rw [List.length_take]
  rcases Nat.le_total k bs.length with hle | hle
  · rw [Nat.min_eq_left hle]
  · rw [Nat.min_eq_right hle, List.drop_length, List.drop_eq_nil_of_le hle]

theorem Cut.whole_iff {bs : List UInt8} {tr : List (Event μ)} (h : Cut bs tr) :
    Whole bs tr ↔ Filled bs tr := by
  induction tr generalizing bs with
  | nil => exact Iff.rfl
  | cons e tr ih =>
      cases e with
      | read n r =>
          obtain ⟨k, hk, -, rfl, h⟩ := h
          have hdrop := drop_length_take bs k
          constructor
          · intro h got hgot
            obtain ⟨htake, hw⟩ := h
            injection hgot with hgot
            subst hgot
            injection htake with htake
            rw [hdrop]
            have hlen := congrArg List.length htake
            simp only [List.length_take] at hlen
            refine ⟨fun hlt => ?_, (ih h).mp ?_⟩
            · rw [List.length_take] at hlt
              exact List.drop_eq_nil_of_le (by omega)
            · rcases Nat.le_total k bs.length with hle | hle
              · rcases Nat.le_total n bs.length with hn | hn
                · rwa [show k = n by omega]
                · rwa [List.drop_eq_nil_of_le hn,
                    ← List.drop_eq_nil_of_le (show bs.length ≤ k by omega)] at hw
              · rwa [List.drop_eq_nil_of_le (hle.trans hk),
                  ← List.drop_eq_nil_of_le hle] at hw
          · intro hf
            obtain ⟨hshort, hrest⟩ := hf _ rfl
            rw [hdrop] at hshort hrest
            have hw := (ih h).mpr hrest
            rcases Nat.lt_or_ge (bs.take k).length n with hlt | hge
            · have hnil := hshort hlt
              have hle : bs.length ≤ k := List.drop_eq_nil_iff.mp hnil
              refine ⟨by rw [List.take_of_length_le hle, List.take_of_length_le (hle.trans hk)],
                ?_⟩
              rwa [List.drop_eq_nil_of_le (hle.trans hk), ← hnil]
            · rw [List.length_take] at hge
              rw [show k = n by omega] at hw ⊢
              exact ⟨rfl, hw⟩
      | write p ok => exact @ih bs h
      | trylock m ok => exact @ih bs h
      | unspec junk => exact @ih bs h

@[simp] theorem filled_nil (bs : List UInt8) : Filled (μ := μ) bs [] := trivial

@[simp] theorem filled_write {bs : List UInt8} {p : Payload} {ok : Bool}
    {tr : List (Event μ)} : Filled bs (.write p ok :: tr) ↔ Filled bs tr := Iff.rfl

@[simp] theorem filled_read_some {bs got : List UInt8} {n : Nat} {tr : List (Event μ)} :
    Filled bs (.read n (some got) :: tr) ↔
      (got.length < n → bs.drop got.length = []) ∧ Filled (bs.drop got.length) tr := by
  constructor
  · exact fun h => h got rfl
  · intro h got' hgot
    cases hgot
    exact h

/-- A stream of at most one byte can only be handed over whole. -/
theorem Cut.whole_of_short {bs : List UInt8} {tr : List (Event μ)} (h : Cut bs tr)
    (hlen : bs.length ≤ 1) : Whole bs tr := by
  induction tr generalizing bs with
  | nil => trivial
  | cons e tr ih =>
      cases e with
      | read n r =>
          obtain ⟨k, hk, hpos, rfl, h⟩ := h
          have hrest : (bs.drop k).length ≤ 1 := by
            rw [List.length_drop]
            omega
          rcases Nat.lt_or_ge k n with hlt | hge
          · have hle : bs.length ≤ k := by
              rcases eq_or_ne bs [] with rfl | hne
              · exact Nat.zero_le k
              · have := hpos (by omega) hne
                omega
            refine whole_read.mpr ⟨?_, ?_⟩
            · rw [List.take_of_length_le hle, List.take_of_length_le (hle.trans hk)]
            · rw [List.drop_eq_nil_of_le (hle.trans hk), ← List.drop_eq_nil_of_le hle]
              exact ih h hrest
          · obtain rfl : k = n := Nat.le_antisymm hk hge
            exact whole_read.mpr ⟨rfl, ih h hrest⟩
      | write p ok => exact @ih bs h hlen
      | trylock m ok => exact @ih bs h hlen
      | unspec junk => exact @ih bs h hlen

/-- What the reads leave of a stream. -/
def unread : List UInt8 → List (Event μ) → List UInt8
  | bs, [] => bs
  | bs, .read _ none :: tr => unread bs tr
  | bs, .read _ (some got) :: tr => unread (bs.drop got.length) tr
  | bs, .write _ _ :: tr => unread bs tr
  | bs, .trylock _ _ :: tr => unread bs tr
  | bs, .unspec _ :: tr => unread bs tr

@[simp] theorem unread_nil (bs : List UInt8) : unread (μ := μ) bs [] = bs := rfl

@[simp] theorem unread_read_some {bs got : List UInt8} {n : Nat} {tr : List (Event μ)} :
    unread bs (.read n (some got) :: tr) = unread (bs.drop got.length) tr := rfl

@[simp] theorem unread_write {bs : List UInt8} {p : Payload} {ok : Bool}
    {tr : List (Event μ)} : unread bs (.write p ok :: tr) = unread bs tr := rfl

theorem unread_length_le (bs : List UInt8) (tr : List (Event μ)) :
    (unread bs tr).length ≤ bs.length := by
  induction tr generalizing bs with
  | nil => exact Nat.le_refl _
  | cons e tr ih =>
      cases e with
      | read n r =>
          cases r with
          | none => exact ih bs
          | some got =>
              refine (ih (bs.drop got.length)).trans ?_
              rw [List.length_drop]
              exact Nat.sub_le _ _
      | write p ok => exact ih bs
      | trylock m ok => exact ih bs
      | unspec junk => exact ih bs

/-- A stream cut for two traces in a row is cut for the first and, where that
leaves it, for the second. -/
theorem cut_append {bs : List UInt8} {tr tr' : List (Event μ)} :
    Cut bs (tr ++ tr') ↔ Cut bs tr ∧ Cut (unread bs tr) tr' := by
  induction tr generalizing bs with
  | nil => exact ⟨fun h => ⟨trivial, h⟩, And.right⟩
  | cons e tr ih =>
      cases e with
      | read n r =>
          constructor
          · intro h
            obtain ⟨k, hk, hpos, rfl, h⟩ := h
            obtain ⟨h, h'⟩ := ih.mp h
            rw [unread_read_some, drop_length_take]
            exact ⟨⟨k, hk, hpos, rfl, h⟩, h'⟩
          · intro h
            obtain ⟨⟨k, hk, hpos, rfl, h⟩, h'⟩ := h
            rw [unread_read_some, drop_length_take] at h'
            exact ⟨k, hk, hpos, rfl, ih.mpr ⟨h, h'⟩⟩
      | write p ok => exact @ih bs
      | trylock m ok => exact @ih bs
      | unspec junk => exact @ih bs

/-- Every read in the program asks for no bytes. -/
def ReadsNone : Proc σ μ α → Prop
  | .ret _ => True
  | .exit => True
  | .fault => True
  | .get k => ∀ s, (k s).ReadsNone
  | .set _ p => p.ReadsNone
  | .lock _ p => p.ReadsNone
  | .trylock _ k => ∀ ok, (k ok).ReadsNone
  | .unlock _ p => p.ReadsNone
  | .read n k => n = 0 ∧ ∀ r, (k r).ReadsNone
  | .write _ k => ∀ ok, (k ok).ReadsNone
  | .unspec k => ∀ bs, (k bs).ReadsNone

theorem ReadsNone.bind {β : Type} {p : Proc σ μ α} {k : α → Proc σ μ β}
    (hp : p.ReadsNone) (hk : ∀ a, (k a).ReadsNone) : (p >>= k).ReadsNone := by
  induction p with
  | ret a => exact hk a
  | exit => trivial
  | fault => trivial
  | get f ih => exact fun s => ih s (hp s)
  | set s p ih => exact ih hp
  | lock m p ih => exact ih hp
  | trylock m f ih => exact fun ok => ih ok (hp ok)
  | unlock m p ih => exact ih hp
  | read n f ih => exact ⟨hp.1, fun r => ih r (hp.2 r)⟩
  | write d f ih => exact fun ok => ih ok (hp ok)
  | unspec f ih => exact fun bs => ih bs (hp bs)

theorem ReadsNone.lock {m : μ} {p : Proc σ μ α} (h : p.ReadsNone) :
    (Proc.lock m p).ReadsNone := h

theorem ReadsNone.ite {c : Prop} [Decidable c] {p q : Proc σ μ α} (hp : c → p.ReadsNone)
    (hq : ¬ c → q.ReadsNone) : (if c then p else q).ReadsNone := by
  split
  · next hc => exact hp hc
  · next hc => exact hq hc

/-- What the calls other than `read` return, each numbered among them. -/
structure Env where
  ok : Nat → Bool
  junk : Nat → List UInt8

/-- The calls other than `read` return what the environment says, from its
`i`-th answer on. -/
def Env.Gives (env : Env) : Nat → List (Event μ) → Prop
  | _, [] => True
  | i, .read _ _ :: tr => env.Gives i tr
  | i, .write _ ok :: tr => ok = env.ok i ∧ env.Gives (i + 1) tr
  | i, .trylock _ ok :: tr => ok = env.ok i ∧ env.Gives (i + 1) tr
  | i, .unspec bs :: tr => bs = env.junk i ∧ env.Gives (i + 1) tr

@[simp] theorem gives_nil (env : Env) (i : Nat) : env.Gives (μ := μ) i [] := trivial

@[simp] theorem gives_read {env : Env} {i n : Nat} {r : Option (List UInt8)}
    {tr : List (Event μ)} : env.Gives i (.read n r :: tr) ↔ env.Gives i tr := Iff.rfl

@[simp] theorem gives_write {env : Env} {i : Nat} {p : Payload} {ok : Bool}
    {tr : List (Event μ)} :
    env.Gives i (.write p ok :: tr) ↔ ok = env.ok i ∧ env.Gives (i + 1) tr := Iff.rfl

variable [DecidableEq μ]

/-- A program that asks for no bytes leaves the stream as it was. -/
theorem ReadsNone.unread {p : Proc σ μ α} (h : p.ReadsNone) {w : World σ μ} :
    p.Ensures w fun tr _ _ => ∀ bs, unread bs tr = bs := by
  induction p generalizing w with
  | ret a => exact ensures_ret.mpr fun _ => rfl
  | exit => exact ensures_exit.mpr fun _ => rfl
  | fault => exact ensures_fault.mpr fun _ => rfl
  | get k ih => exact ensures_get.mpr (ih _ (h _))
  | set s p ih => exact ensures_set.mpr (ih h)
  | unlock m p ih => exact ensures_unlock.mpr (ih h)
  | lock m p ih => exact ensures_lock.mpr ⟨fun _ _ => rfl, fun _ => ih h⟩
  | trylock m k ih => exact ensures_trylock.mpr ⟨ih _ (h _), fun _ => ih _ (h _)⟩
  | read n k ih =>
      obtain ⟨rfl, h⟩ := h
      refine ensures_read.mpr fun r hfit => (ih r (h r)).mono fun tr o w' hr bs => ?_
      cases r with
      | none => exact hr bs
      | some got =>
          have hgot : got.length = 0 := Nat.le_zero.mp (fits_some.mp hfit)
          rw [unread_read_some, hgot]
          exact hr bs
  | write p k ih => exact ensures_write.mpr fun ok => ih ok (h ok)
  | unspec k ih => exact ensures_unspec.mpr fun bs => ih bs (h bs)

/-- Every other call fails, and memory that was never set reads as nothing. -/
def Env.refusing : Env := ⟨fun _ => false, fun _ => []⟩

/-- A stream that delivers whole to a program whose other calls fail. -/
theorem exists_whole (p : Proc σ μ α) (w : World σ μ) (bs : List UInt8) (i : Nat) :
    ∃ tr o w', p.Runs w tr o w' ∧ Whole bs tr ∧ Env.refusing.Gives i tr := by
  induction p generalizing w bs i with
  | ret a => exact ⟨_, _, _, runs_ret.mpr ⟨rfl, rfl, rfl⟩, trivial, trivial⟩
  | exit => exact ⟨_, _, _, runs_exit.mpr ⟨rfl, rfl, rfl⟩, trivial, trivial⟩
  | fault => exact ⟨_, _, _, runs_fault.mpr ⟨rfl, rfl, rfl⟩, trivial, trivial⟩
  | get k ih =>
      obtain ⟨tr, o, w', h, hrest⟩ := ih w.st w bs i
      exact ⟨tr, o, w', runs_get.mpr h, hrest⟩
  | set s p ih =>
      obtain ⟨tr, o, w', h, hrest⟩ := ih { w with st := s } bs i
      exact ⟨tr, o, w', runs_set.mpr h, hrest⟩
  | unlock m p ih =>
      obtain ⟨tr, o, w', h, hrest⟩ := ih { w with held := w.held.erase m } bs i
      exact ⟨tr, o, w', runs_unlock.mpr h, hrest⟩
  | lock m p ih =>
      by_cases hm : m ∈ w.held
      · exact ⟨[], .blocked, w, runs_lock.mpr (.inl ⟨hm, rfl, rfl, rfl⟩), trivial, trivial⟩
      · obtain ⟨tr, o, w', h, hrest⟩ := ih { w with held := insert m w.held } bs i
        exact ⟨tr, o, w', runs_lock.mpr (.inr ⟨hm, h⟩), hrest⟩
  | trylock m k ih =>
      obtain ⟨tr, o, w', h, hw, he⟩ := ih false w bs (i + 1)
      exact ⟨_, o, w', runs_trylock.mpr ⟨false, tr, rfl, by simp, h⟩, hw, rfl, he⟩
  | read n k ih =>
      obtain ⟨tr, o, w', h, hw, he⟩ := ih (some (bs.take n)) w (bs.drop n) i
      exact ⟨_, o, w', runs_read.mpr ⟨_, tr, rfl, by simp, h⟩, ⟨rfl, hw⟩, he⟩
  | write p k ih =>
      obtain ⟨tr, o, w', h, hw, he⟩ := ih false w bs (i + 1)
      exact ⟨_, o, w', runs_write.mpr ⟨false, tr, rfl, h⟩, hw, rfl, he⟩
  | unspec k ih =>
      obtain ⟨tr, o, w', h, hw, he⟩ := ih [] w bs (i + 1)
      exact ⟨_, o, w', runs_unspec.mpr ⟨[], tr, rfl, h⟩, hw, rfl, he⟩

/-- A read from a stream that delivers whole has one outcome. -/
theorem ensures_read_whole {n : Nat} {k : Option (List UInt8) → Proc σ μ α}
    {w : World σ μ} {bs : List UInt8} {P : List (Event μ) → Out α → World σ μ → Prop} :
    (Proc.read n k).Ensures w (fun tr o w' => Whole bs tr → P tr o w') ↔
      (k (some (bs.take n))).Ensures w fun tr o w' =>
        Whole (bs.drop n) tr → P (.read n (some (bs.take n)) :: tr) o w' := by
  have hfit : Fits n (some (bs.take n)) := by simp
  rw [ensures_read]
  constructor
  · intro h
    exact (h _ hfit).mono fun tr o w' hp hw => hp ⟨rfl, hw⟩
  · intro h r _ tr o w' hr h'
    obtain ⟨rfl, hw⟩ := h'
    exact h tr o w' hr hw

/-- Two runs from one world that read the same stream whole and otherwise see
the same environment are the same run. -/
theorem Runs.unique {p : Proc σ μ α} {w w₁ w₂ : World σ μ} {tr₁ tr₂ : List (Event μ)}
    {o₁ o₂ : Out α} {bs : List UInt8} {env : Env} {i : Nat}
    (h₁ : p.Runs w tr₁ o₁ w₁) (h₂ : p.Runs w tr₂ o₂ w₂)
    (hw₁ : Whole bs tr₁) (hw₂ : Whole bs tr₂)
    (he₁ : env.Gives i tr₁) (he₂ : env.Gives i tr₂) :
    tr₁ = tr₂ ∧ o₁ = o₂ ∧ w₁ = w₂ := by
  induction p generalizing w tr₁ tr₂ bs i with
  | ret a =>
      obtain ⟨rfl, rfl, rfl⟩ := runs_ret.mp h₁
      obtain ⟨rfl, rfl, rfl⟩ := runs_ret.mp h₂
      exact ⟨rfl, rfl, rfl⟩
  | exit =>
      obtain ⟨rfl, rfl, rfl⟩ := runs_exit.mp h₁
      obtain ⟨rfl, rfl, rfl⟩ := runs_exit.mp h₂
      exact ⟨rfl, rfl, rfl⟩
  | fault =>
      obtain ⟨rfl, rfl, rfl⟩ := runs_fault.mp h₁
      obtain ⟨rfl, rfl, rfl⟩ := runs_fault.mp h₂
      exact ⟨rfl, rfl, rfl⟩
  | get k ih => exact ih _ (runs_get.mp h₁) (runs_get.mp h₂) hw₁ hw₂ he₁ he₂
  | set s p ih => exact ih (runs_set.mp h₁) (runs_set.mp h₂) hw₁ hw₂ he₁ he₂
  | unlock m p ih => exact ih (runs_unlock.mp h₁) (runs_unlock.mp h₂) hw₁ hw₂ he₁ he₂
  | lock m p ih =>
      rcases runs_lock.mp h₁ with ⟨hm, rfl, rfl, rfl⟩ | ⟨hm, h₁⟩
      · rcases runs_lock.mp h₂ with ⟨-, rfl, rfl, rfl⟩ | ⟨hm', -⟩
        · exact ⟨rfl, rfl, rfl⟩
        · exact absurd hm hm'
      · rcases runs_lock.mp h₂ with ⟨hm', -⟩ | ⟨-, h₂⟩
        · exact absurd hm' hm
        · exact ih h₁ h₂ hw₁ hw₂ he₁ he₂
  | trylock m k ih =>
      obtain ⟨ok₁, tr₁, rfl, -, h₁⟩ := runs_trylock.mp h₁
      obtain ⟨ok₂, tr₂, rfl, -, h₂⟩ := runs_trylock.mp h₂
      obtain ⟨rfl, he₁⟩ := he₁
      obtain ⟨rfl, he₂⟩ := he₂
      obtain ⟨rfl, rfl, rfl⟩ :=
        ih _ h₁ h₂ (whole_trylock.mp hw₁) (whole_trylock.mp hw₂) he₁ he₂
      exact ⟨rfl, rfl, rfl⟩
  | read n k ih =>
      obtain ⟨r₁, tr₁, rfl, -, h₁⟩ := runs_read.mp h₁
      obtain ⟨r₂, tr₂, rfl, -, h₂⟩ := runs_read.mp h₂
      obtain ⟨rfl, hw₁⟩ := hw₁
      obtain ⟨rfl, hw₂⟩ := hw₂
      obtain ⟨rfl, rfl, rfl⟩ := ih _ h₁ h₂ hw₁ hw₂ he₁ he₂
      exact ⟨rfl, rfl, rfl⟩
  | write p k ih =>
      obtain ⟨ok₁, tr₁, rfl, hk₁⟩ := runs_write.mp h₁
      obtain ⟨ok₂, tr₂, rfl, hk₂⟩ := runs_write.mp h₂
      obtain ⟨rfl, he₁⟩ := he₁
      obtain ⟨rfl, he₂⟩ := he₂
      obtain ⟨rfl, rfl, rfl⟩ :=
        ih _ hk₁ hk₂ (whole_write.mp hw₁) (whole_write.mp hw₂) he₁ he₂
      exact ⟨rfl, rfl, rfl⟩
  | unspec k ih =>
      obtain ⟨junk₁, tr₁, rfl, hk₁⟩ := runs_unspec.mp h₁
      obtain ⟨junk₂, tr₂, rfl, hk₂⟩ := runs_unspec.mp h₂
      obtain ⟨rfl, he₁⟩ := he₁
      obtain ⟨rfl, he₂⟩ := he₂
      obtain ⟨rfl, rfl, rfl⟩ :=
        ih _ hk₁ hk₂ (whole_unspec.mp hw₁) (whole_unspec.mp hw₂) he₁ he₂
      exact ⟨rfl, rfl, rfl⟩

end Proc
