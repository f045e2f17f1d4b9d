import LsoStore.Lib.CFile
import LsoStore.Lib.Region
import LsoStore.ArrayUtils
import LsoStore.StringUtils

/-!
# Strings in memory

`u_string` and its functions in `string_utils.c`, over the bytes of the block that
`data` points at. What an allocation leaves in its new bytes is a parameter of the
function that allocates. An access outside of the block is a fault.

The length of a string in memory and that of a block add up without a wrap.
-/

namespace LsoStore

/-- `u_string`. The block is empty for NULL. -/
structure UString where
  data : List UInt8
  len : Nat
deriving DecidableEq

namespace UString

def muMalloc (size : Nat) (fresh : Nat → UInt8) : Course (List UInt8) :=
  if size > muLimit then .exit else .ret (Region.resize [] size fresh)

def muRealloc (data : List UInt8) (size : Nat) (fresh : Nat → UInt8) : Course (List UInt8) :=
  if size > muLimit then .exit else .ret (Region.resize data size fresh)

/-- What `memcpy`, `strcpy` and an assignment do to a block. -/
def copy (data : List UInt8) (i : Nat) (bytes : List UInt8) : Course (List UInt8) :=
  match Region.store data i bytes with
  | none => .fault
  | some data => .ret data

/-- `strlen` of a block. -/
def strlen (data : List UInt8) : Course Nat :=
  match data.findIdx? (· = 0) with
  | none => .fault
  | some n => .ret n

/-- It allocates room for the terminator, and copies the characters. -/
def suStringFromLiteral (literal : Option CStr) (fresh : Nat → UInt8) : Course UString :=
  match literal with
  | none => .ret ⟨[], 0⟩
  | some literal => do
      let literalLen := literal.val.length
      let data ← muMalloc (literalLen + 1) fresh
      let data ← copy data 0 literal.val
      .ret ⟨data, literalLen⟩

def suRealloc (string : UString) (newsize : Nat) (fresh : Nat → UInt8) :
    Course (Int × UString) := do
  let data ← muRealloc string.data (newsize + 1) fresh
  let data ← copy data newsize [0]
  .ret (0, ⟨data, newsize⟩)

def suStringExtend (string : UString) (delta : Nat) (fresh : Nat → UInt8) :
    Course (Int × UString) :=
  if delta = 0 then .ret (0, string) else suRealloc string (string.len + delta) fresh

/-- `strcpy` copies the terminator of the literal too. -/
def suAppendChars (string : UString) (literal : Option CStr) (fresh : Nat → UInt8) :
    Course (Int × UString) :=
  match literal with
  | none => .ret (-1, string)
  | some literal => do
      let i := string.len
      let (res, string) ← suStringExtend string literal.val.length fresh
      if res ≠ 0 then .ret (-1, string)
      else do
        let data ← copy string.data i (literal.val ++ [0])
        .ret (0, { string with data := data })

/-- It sets `len` to what it returns. -/
def suStrlen (string : UString) : Course (Nat × UString) := do
  let len ← strlen string.data
  .ret (len, { string with len := len })

def suStringShrinktofit (string : UString) (fresh : Nat → UInt8) : Course (Int × UString) := do
  let (len, string) ← suStrlen string
  suRealloc string len fresh

inductive StringCall where
  | suAppendChars (literal : CStr)
  | suReallocZero
  | suStringShrinktofit
deriving DecidableEq

def stringCall (string : UString) (fresh : Nat → UInt8) : StringCall → Course (Int × UString)
  | .suAppendChars literal => suAppendChars string (some literal) fresh
  | .suReallocZero => suRealloc string 0 fresh
  | .suStringShrinktofit => suStringShrinktofit string fresh

/-- A sequence of calls, each with the bytes that its allocation comes with. -/
def stringCalls : UString → List ((Nat → UInt8) × StringCall) → Course UString
  | string, [] => .ret string
  | string, (fresh, call) :: calls => do
      let (_, string) ← stringCall string fresh call
      stringCalls string calls

end UString

end LsoStore
