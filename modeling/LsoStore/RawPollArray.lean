import LsoStore.Lib.CFile
import LsoStore.Lib.SizeT
import LsoStore.ArrayUtils

/-!
# The poll array in memory

`poll_utils.c` once more, over the entries of the block that `pu_initarr`
allocates. An access to an entry that is not in the block is a fault.
-/

namespace LsoStore

/-- `struct pollfd`, of 8 bytes. -/
structure PollEntry where
  fd : Int
  events : BitVec 16
  revents : BitVec 16
deriving DecidableEq

def PollEntry.zero : PollEntry := ⟨0, 0, 0⟩

/-- `u_pollarr`. The block is empty for NULL. -/
structure RawPollArr where
  arr : List PollEntry
  len : Nat
  maxlen : Nat
  empty : BitVec 8
deriving DecidableEq

namespace RawPollArr

/-- `none` when `mu_calloc` exits over the size, which has wrapped. -/
def puInitarr (maxlen : Nat) : Option RawPollArr :=
  if maxlen > 0 then
    let size := SizeT.mul maxlen 8
    if size > muLimit then none
    else some ⟨List.replicate (size / 8) PollEntry.zero, 0, maxlen, 1⟩
  else some ⟨[], 0, maxlen, 1⟩

def puIsempty (a : RawPollArr) : Bool := a.len = 0 && a.empty ≠ 0

def puIsfull (a : RawPollArr) : Bool := a.len = a.maxlen

def puAdd (a : RawPollArr) (newfd : Int) (events : BitVec 16) : Course (Int × RawPollArr) :=
  if a.puIsfull then .ret (-1, a)
  else if a.len < a.arr.length then
    .ret (0, { a with arr := a.arr.set a.len ⟨newfd, events, 0⟩, len := a.len + 1 })
  else .fault

/-- Where the loop of `pu_remove` stops, from `i` down. -/
def scanBack (arr : List PollEntry) (oldfd : Int) : Nat → Course Nat
  | 0 => .ret 0
  | i + 1 =>
      match arr[i + 1]? with
      | none => .fault
      | some entry => if entry.fd ≠ oldfd then scanBack arr oldfd i else .ret (i + 1)

/-- The last entry takes the place of the one that goes. With `len` 0 it would be
the one in front of the block. -/
def removeAt (a : RawPollArr) (i : Nat) : Course (Int × RawPollArr) :=
  let last := SizeT.sub a.len 1
  match a.arr[last]? with
  | none => .fault
  | some moved =>
      let arr := if i ≠ last then a.arr.set i moved else a.arr
      .ret (0, { a with arr := arr.set last PollEntry.zero, len := a.len - 1 })

def puRemove (a : RawPollArr) (oldfd : Int) : Course (Int × RawPollArr) :=
  if a.puIsempty then .ret (-1, a)
  else do
    let i ← scanBack a.arr oldfd (if a.len > 0 then a.len - 1 else 0)
    match a.arr[i]? with
    | none => .fault
    | some entry => if i = 0 ∧ entry.fd ≠ oldfd then .ret (-1, a) else a.removeAt i

end RawPollArr

end LsoStore
