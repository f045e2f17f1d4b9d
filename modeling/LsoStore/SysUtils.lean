import LsoStore.Lib.CFile
import LsoStore.Lib.Region

/-!
# Reading until a buffer is full

`su_read` of `sys_utils.c`, on a stream that hands over its bytes in pieces. A
`read` gets as much of the next piece as it has room for, and what it has no room
for stays the next piece; so each one gets at least a byte and at most as many as
it asked for. The descriptor is the stream's.
-/

namespace LsoStore

/-- What a stream has ready for a `read`: at least one byte, the end or an error. -/
inductive Ready where
  | bytes (first : UInt8) (rest : List UInt8)
  | eof
  | failed
deriving DecidableEq

/-- The largest `ssize_t`. No `read` gets more. -/
def ssizeMax : Nat := 2 ^ 63 - 1

/-- `read`: what it got, or `none` for -1, and what the stream has after it. -/
def sysRead (size : Nat) : List Ready → Option (List UInt8) × List Ready
  | [] => (some [], [])
  | .eof :: next => (some [], next)
  | .failed :: next => (none, next)
  | .bytes first rest :: next =>
      let n := min size ssizeMax
      match (first :: rest).drop n with
      | [] => (some (first :: rest), next)
      | b :: bs => (some ((first :: rest).take n), .bytes b bs :: next)

/-- The loop of `su_read`. It goes on at `bytes_readen` of the whole buffer. -/
def suReadLoop : Nat → List Ready → List UInt8 → Nat → Nat →
    Course (Int × List UInt8 × List Ready)
  | 0, _, _, _, _ => .running
  | rounds + 1, stream, buff, bytesReaden, size =>
      match sysRead size stream with
      | (none, stream) => .ret (-1, buff, stream)
      | (some got, stream) =>
          match Region.store buff bytesReaden got with
          | none => .fault
          | some buff =>
              if got.length = 0 then .ret (-1, buff, stream)
              else if size - got.length = 0 then .ret (0, buff, stream)
              else suReadLoop rounds stream buff got.length (size - got.length)

/-- The result of `su_read`, the buffer and the stream. It takes no more rounds than
there are bytes to read, and one for a `read` of none. -/
def suRead (stream : List Ready) (buff : List UInt8) (size : Nat) :
    Course (Int × List UInt8 × List Ready) :=
  suReadLoop (size + 1) stream buff 0 size

end LsoStore
