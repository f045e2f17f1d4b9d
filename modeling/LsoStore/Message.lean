import Mathlib.Algebra.GroupWithZero.Nat

/-!
# Requests and answers on the wire

The constants of `server_message.h`. A request is one 32-bit word: two flag
bits, an operation code in the rest of the low byte, and a length in the
upper three bytes. `sapiMessageLen` is the macro that packs them, with no
masking of any field.
-/

namespace LsoStore

/-- `s_message`, an `unsigned int`. -/
abbrev SMessage := BitVec 32

def sapiSuccess : SMessage := 0x00
def sapiFailure : SMessage := 0x01
def sapiEvictMsg : SMessage := 0x02
def sapiFnf : SMessage := 0x03
def sapiLocked : SMessage := 0x04
def sapiAlready : SMessage := 0x06

def oCreate : BitVec 8 := 0x01
def oLock : BitVec 8 := 0x02

def sapiStartRequest : BitVec 8 := 0x04
def sapiEndRequest : BitVec 8 := 0x08
def sapiOpenFile : BitVec 8 := 0x0C
def sapiReadFile : BitVec 8 := 0x10
def sapiReadNFiles : BitVec 8 := 0x14
def sapiWriteFile : BitVec 8 := 0x18
def sapiAppendFile : BitVec 8 := 0x1C
def sapiLockFile : BitVec 8 := 0x20
def sapiUnlockFile : BitVec 8 := 0x24
def sapiCloseFile : BitVec 8 := 0x28
def sapiRemoveFile : BitVec 8 := 0x2C

/-- The operation codes. The server knows no request with one of the first two. -/
def operations : List (BitVec 8) :=
  [sapiStartRequest, sapiEndRequest, sapiOpenFile, sapiReadFile, sapiReadNFiles, sapiWriteFile,
    sapiAppendFile, sapiLockFile, sapiUnlockFile, sapiCloseFile, sapiRemoveFile]

def sapiOpMask : SMessage := 0xFC
def sapiFlagMask : SMessage := 0x03
def sapiMssLenShft : Nat := 8

/-- `SAPI_MESSAGE_LEN(FLAG, OP, MESSAGELEN)`. -/
def sapiMessageLen (flag op : BitVec 8) (messagelen : SMessage) : SMessage :=
  flag.zeroExtend 32 ||| op.zeroExtend 32 ||| messagelen <<< sapiMssLenShft

/-- `request & SAPI_OPMASK`, kept in an `unsigned char`. -/
def opOf (request : SMessage) : BitVec 8 := (request &&& sapiOpMask).truncate 8

/-- `message >> SAPI_MSSLEN_SHFT`. -/
def lenOf (message : SMessage) : Nat := (message >>> sapiMssLenShft).toNat

/-- `message & FLAG` for one of the two flags. -/
def hasFlag (message : SMessage) (flag : BitVec 8) : Bool :=
  message &&& flag.zeroExtend 32 ≠ 0

/-! Operation and flags live in the low byte. -/

theorem opOf_eq (m : SMessage) : opOf m = m.truncate 8 &&& 0xFC := by
  rw [opOf, sapiOpMask, BitVec.truncate_eq_setWidth, BitVec.setWidth_and]
  rfl

theorem hasFlag_eq (m : SMessage) (flag : BitVec 8) :
    hasFlag m flag = decide (m.truncate 8 &&& flag ≠ 0) := by
  rw [hasFlag, decide_eq_decide]
  have h : m &&& flag.zeroExtend 32 = (m.truncate 8 &&& flag).zeroExtend 32 := by
    ext i hi
    by_cases h8 : i < 8
    · simp [h8, BitVec.getLsbD_eq_getElem hi]
    · simp [h8, BitVec.getLsbD_of_ge flag i (by omega)]
  rw [h]
  refine not_congr ⟨fun h0 => ?_, fun h0 => ?_⟩
  · have h0 := congrArg (BitVec.truncate 8) h0
    simpa using h0
  · rw [h0]
    rfl

theorem truncate_ofNat_mod (m : SMessage) {j : Nat} (hj : 0 < j) :
    (BitVec.ofNat 32 (m.toNat % 256 ^ j)).truncate 8 = m.truncate 8 := by
  apply BitVec.eq_of_toNat_eq
  simp only [BitVec.truncate_eq_setWidth, BitVec.toNat_setWidth, BitVec.toNat_ofNat]
  obtain ⟨j, rfl⟩ : ∃ i, j = i + 1 := ⟨j - 1, by omega⟩
  rw [Nat.mod_mod_of_dvd _ (by decide)]
  exact Nat.mod_mod_of_dvd _ (Nat.dvd_mul_left 256 (256 ^ j))

end LsoStore
