import Mathlib.Data.List.TakeWhile

/-!
# A file read through `stdio`

The bytes of a file, a position in them and the end-of-file mark, with the calls
that read one: `fgetc`, `fread`, `fseek` and three conversions of `fscanf`. A
call that looks for a byte behind the last one sets the mark, and only `fseek`
clears it. A conversion looks at one byte more than it takes.
-/

/-- How far a call with a loop in it has got. The loop is given a bound on its
rounds, and is still running where that is reached. -/
inductive Course (α : Type) where
  | ret (a : α)
  | exit
  | fault
  | running
deriving DecidableEq

namespace Course

variable {α β : Type}

/-- What comes after a call that did not return is not reached. -/
instance : Monad Course where
  pure := .ret
  bind
    | .ret a, f => f a
    | .exit, _ => .exit
    | .fault, _ => .fault
    | .running, _ => .running

@[simp] theorem ret_bind (a : α) (f : α → Course β) : (Course.ret a >>= f) = f a := rfl

@[simp] theorem fault_bind (f : α → Course β) : ((Course.fault : Course α) >>= f) = .fault := rfl

@[simp] theorem exit_bind (f : α → Course β) : ((Course.exit : Course α) >>= f) = .exit := rfl

end Course

structure CFile where
  bytes : List UInt8
  pos : Nat
  eof : Bool
deriving DecidableEq

namespace CFile

/-- Just opened. -/
def fopen (bytes : List UInt8) : CFile := ⟨bytes, 0, false⟩

/-- The bytes that are still to be read. -/
def rest (f : CFile) : List UInt8 := f.bytes.drop f.pos

/-- Past `n` bytes. -/
def advance (f : CFile) (n : Nat) : CFile := { f with pos := f.pos + n }

/-- Past `n` bytes, with a look at the one behind them. -/
def scanned (f : CFile) (n : Nat) : CFile :=
  { f.advance n with eof := f.eof || decide (f.rest.length ≤ n) }

def fgetc (f : CFile) : Option UInt8 × CFile :=
  match f.rest with
  | [] => (none, { f with eof := true })
  | c :: _ => (some c, f.advance 1)

def fread (f : CFile) (n : Nat) : List UInt8 × CFile :=
  (f.rest.take n,
    { f.advance (f.rest.take n).length with
      eof := f.eof || decide ((f.rest.take n).length < n) })

/-- `fseek` from the current position; `none` is its -1. -/
def fseek (f : CFile) (offset : Int) : Option CFile :=
  if f.pos + offset < 0 then none
  else some { f with pos := (f.pos + offset).toNat, eof := false }

/-- `fscanf` with a set to skip: what it returns, where -1 is for a file that has
nothing left, and how many bytes it took. -/
def scanSet (f : CFile) (p : UInt8 → Bool) : Int × Nat × CFile :=
  let n := (f.rest.takeWhile p).length
  (if f.rest = [] then -1 else 0, n, f.scanned n)

/-- `fscanf` with `%*c`. -/
def scanChar (f : CFile) : CFile := f.fgetc.2

def isSpace (c : UInt8) : Bool := c = 32 || (9 ≤ c && c ≤ 13)

def isDigit (c : UInt8) : Bool := 48 ≤ c && c ≤ 57

/-- The number some digits stand for. -/
def digitsValue (digits : List UInt8) : Nat :=
  digits.foldl (fun v c => 10 * v + (c.toNat - 48)) 0

/-- What `%d` makes of a text, and how many bytes it takes: white space, a sign
and digits. -/
def readInt (text : List UInt8) : Option Int × Nat :=
  let space := (text.takeWhile isSpace).length
  let number := text.drop space
  let negative := number.head? = some 45
  let sign := if negative ∨ number.head? = some 43 then 1 else 0
  let digits := (number.drop sign).takeWhile isDigit
  (if digits = [] then none
    else some (if negative then -(digitsValue digits : Int) else digitsValue digits),
    space + sign + digits.length)

/-- `fscanf` with `%d`. -/
def scanInt (f : CFile) : Option Int × CFile :=
  ((readInt f.rest).1, f.scanned (readInt f.rest).2)

section Lemmas

variable (f : CFile)

@[simp] theorem advance_rest (n : Nat) : (f.advance n).rest = f.rest.drop n := by
  rw [rest, rest, advance, List.drop_drop]

@[simp] theorem advance_eof (n : Nat) : (f.advance n).eof = f.eof := rfl

@[simp] theorem scanned_rest (n : Nat) : (f.scanned n).rest = f.rest.drop n :=
  f.advance_rest n

@[simp] theorem scanned_pos (n : Nat) : (f.scanned n).pos = f.pos + n := rfl

theorem scanned_eof (n : Nat) :
    (f.scanned n).eof = (f.eof || decide (f.rest.length ≤ n)) := rfl

@[simp] theorem fread_fst (n : Nat) : (f.fread n).1 = f.rest.take n := rfl

@[simp] theorem fread_rest (n : Nat) : (f.fread n).2.rest = f.rest.drop n := by
  show (f.advance (f.rest.take n).length).rest = f.rest.drop n
  rw [advance_rest, List.length_take]
  rcases Nat.le_total n f.rest.length with h | h
  · rw [Nat.min_eq_left h]
  · rw [Nat.min_eq_right h, List.drop_length, List.drop_eq_nil_of_le h]

theorem fread_eof (n : Nat) : (f.fread n).2.eof = (f.eof || decide (f.rest.length < n)) := by
  show (f.eof || decide ((f.rest.take n).length < n)) = _
  rw [List.length_take]
  congr 1
  rw [decide_eq_decide]
  omega

/-- Stepping back over what a conversion took. -/
theorem fseek_scanned (n : Nat) :
    (f.scanned n).fseek (-(n : Int)) = some { f with eof := false } := by
  have hpos : ((f.pos + n : Nat) : Int) + -(n : Int) = f.pos := by omega
  rw [fseek, scanned_pos, hpos, if_neg (by omega)]
  rfl

theorem drop_length_takeWhile (p : UInt8 → Bool) (l : List UInt8) :
    l.drop (l.takeWhile p).length = l.dropWhile p := by
  have h := congrArg (List.drop (l.takeWhile p).length)
    (List.takeWhile_append_dropWhile (p := p) (l := l))
  rwa [List.drop_left, eq_comm] at h

theorem readInt_le (text : List UInt8) : (readInt text).2 ≤ text.length := by
  rw [readInt]
  dsimp only
  generalize hnumber : text.drop (text.takeWhile isSpace).length = number
  have hlen := congrArg List.length hnumber
  have hspace := (List.takeWhile_prefix (l := text) isSpace).length_le
  rw [List.length_drop] at hlen
  split
  · next hsign =>
      have hpos : 0 < number.length := by
        cases number with
        | nil => simp at hsign
        | cons c l => exact Nat.succ_pos _
      have hdigits := (List.takeWhile_prefix (l := number.drop 1) isDigit).length_le
      rw [List.length_drop] at hdigits
      omega
  · have hdigits := (List.takeWhile_prefix (l := number.drop 0) isDigit).length_le
    rw [List.length_drop] at hdigits
    omega

/-! A set is skipped as far as it goes. -/

theorem scanSet_rest (p : UInt8 → Bool) :
    (f.scanned (f.rest.takeWhile p).length).rest = f.rest.dropWhile p := by
  rw [scanned_rest, drop_length_takeWhile]

theorem scanSet_eof_iff (p : UInt8 → Bool) :
    (f.scanned (f.rest.takeWhile p).length).eof = true ↔
      f.eof = true ∨ f.rest.dropWhile p = [] := by
  rw [scanned_eof, Bool.or_eq_true, decide_eq_true_iff, ← drop_length_takeWhile p f.rest,
    List.drop_eq_nil_iff]

theorem scanChar_rest : f.scanChar.rest = f.rest.drop 1 := by
  rw [scanChar, fgetc]
  cases h : f.rest with
  | nil => exact h
  | cons c l =>
      show (f.advance 1).rest = _
      rw [advance_rest, h]

theorem scanChar_eof_iff : f.scanChar.eof = true ↔ f.eof = true ∨ f.rest = [] := by
  rw [scanChar, fgetc]
  cases h : f.rest with
  | nil => simp
  | cons c l => simp

/-! A file `f'` that was read on from `f`, by calls that stay within it. -/

structure ReadOn (f f' : CFile) : Prop where
  bytes : f'.bytes = f.bytes
  pos : f.pos ≤ f'.pos
  within : f.pos ≤ f.bytes.length → f'.pos ≤ f'.bytes.length

namespace ReadOn

variable {f} {f' f'' : CFile}

theorem refl (f : CFile) : ReadOn f f := ⟨rfl, Nat.le_refl _, id⟩

theorem trans (h : ReadOn f f') (h' : ReadOn f' f'') : ReadOn f f'' where
  bytes := h'.bytes.trans h.bytes
  pos := Nat.le_trans h.pos h'.pos
  within hf := h'.within (h.within hf)

theorem length_rest_le (h : ReadOn f f') : f'.rest.length ≤ f.rest.length := by
  have hpos := h.pos
  rw [rest, rest, List.length_drop, List.length_drop, h.bytes]
  omega

theorem past {n : Nat} (h : n ≤ f.rest.length) (eof : Bool) :
    ReadOn f { f.advance n with eof := eof } where
  bytes := rfl
  pos := Nat.le_add_right _ _
  within hf := by
    rw [rest, List.length_drop] at h
    show f.pos + n ≤ f.bytes.length
    omega

theorem takeWhile (p : UInt8 → Bool) : ReadOn f (f.scanned (f.rest.takeWhile p).length) :=
  .past (List.takeWhile_prefix p).length_le _

theorem scanInt : ReadOn f f.scanInt.2 := .past (readInt_le f.rest) _

theorem scanChar : ReadOn f f.scanChar := by
  rw [CFile.scanChar, fgetc]
  cases h : f.rest with
  | nil => exact ⟨rfl, Nat.le_refl _, id⟩
  | cons c l =>
      refine ⟨rfl, Nat.le_add_right _ _, fun hf => ?_⟩
      have hlen := congrArg List.length h
      rw [rest, List.length_drop, List.length_cons] at hlen
      show f.pos + 1 ≤ f.bytes.length
      omega

end ReadOn

end Lemmas

end CFile
