import LsoStore.Proofs.Sessions

/-!
# A request word and back

`sapi_sendop` packs flags, operation and length into one word without masking
any of them, and the server takes them apart with a mask and a shift. The word
has two bits for the flags and 24 for the length. A flag beyond the second runs
into the operation code, and the upper bits of a length are shifted out.
-/

namespace LsoStore

open Proc

/-- The server's reading of the word `m` is what the client meant. -/
structure Recovered (m : SMessage) (op : BitVec 8) (flags : BitVec 32) (messlen : Nat) :
    Prop where
  operation : opOf m = op
  flags : m &&& sapiFlagMask = flags
  length : lenOf m = messlen

theorem truncate_sapiMessageLen (flag op : BitVec 8) (len : SMessage) :
    (sapiMessageLen flag op len).truncate 8 = flag ||| op := by
  ext i hi
  simp [sapiMessageLen, sapiMssLenShft]

/-- The two lowest bits of the word. -/
theorem toNat_and_flagMask (m : SMessage) :
    (m &&& sapiFlagMask).toNat = (m.truncate 8).toNat % 4 := by
  rw [BitVec.toNat_and, BitVec.truncate_eq_setWidth, BitVec.toNat_setWidth]
  show m.toNat &&& (2 ^ 2 - 1) = m.toNat % 256 % 4
  rw [Nat.and_two_pow_sub_one_eq_mod, Nat.mod_mod_of_dvd _ (by decide)]

/-- No operation code uses a bit of the flags. -/
theorem operations_and_flags :
    ∀ op ∈ operations, ∀ flag : BitVec 8, flag.toNat < 4 →
      (flag ||| op) &&& 0xFC = op ∧ (flag ||| op).toNat % 4 = flag.toNat := by
  decide +kernel

section

variable {op : BitVec 8} {flags : BitVec 32} {messlen : Nat}

theorem toNat_truncate_of_lt (hf : flags.toNat < 4) : (flags.truncate 8).toNat = flags.toNat := by
  rw [BitVec.truncate_eq_setWidth, BitVec.toNat_setWidth, Nat.mod_eq_of_lt (by omega)]

theorem recovered_of_lt (hop : op ∈ operations) (hf : flags.toNat < 4)
    (hl : messlen < 2 ^ 24) :
    Recovered (sapiMessageLen (flags.truncate 8) op (BitVec.ofNat 32 messlen)) op flags
      messlen := by
  have htrunc := toNat_truncate_of_lt hf
  obtain ⟨hops, hflags⟩ := operations_and_flags op hop (flags.truncate 8) (by omega)
  refine ⟨?_, ?_, ?_⟩
  · rw [opOf_sapiMessageLen, hops]
  · apply BitVec.eq_of_toNat_eq
    rw [toNat_and_flagMask, truncate_sapiMessageLen, hflags, htrunc]
  · rw [lenOf_sapiMessageLen, Nat.mod_eq_of_lt hl]

theorem Recovered.lt {m : SMessage} (h : Recovered m op flags messlen) :
    flags.toNat < 4 ∧ messlen < 2 ^ 24 := by
  constructor
  · rw [← h.flags, toNat_and_flagMask]
    exact Nat.mod_lt _ (by decide)
  · rw [← h.length, lenOf, BitVec.toNat_ushiftRight, Nat.shiftRight_eq_div_pow]
    exact Nat.div_lt_of_lt_mul m.isLt

end

/-- What the client's `sapi_sendop` has written, read by the server, is the
operation, flags and length of the call exactly when the flags are the two there
are and the length fits into 24 bits. -/
theorem request_recovered_iff {op : BitVec 8} (hop : op ∈ operations) (flags : BitVec 32)
    (messlen : Nat) {w w' : World Saved Empty} {tr : List (Event Empty)}
    (hr : (sapiSendop messlen op (flags.truncate 8)).Runs w tr (.ret 0) w') :
    ∃ p, tr = [.write p true] ∧
      (Recovered (BitVec.ofNat 32 (LittleEndian.decode p.bytes)) op flags messlen ↔
        flags.toNat < 4 ∧ messlen < 2 ^ 24) := by
  rw [sapiSendop, runs_write] at hr
  obtain ⟨ok, tr', rfl, hr⟩ := hr
  rw [runs_ret] at hr
  obtain ⟨rfl, hout, -⟩ := hr
  cases ok with
  | false => cases hout
  | true =>
      refine ⟨_, rfl, ?_⟩
      rw [Payload.bytes_word, ofNat_decode_encode]
      exact ⟨fun h => h.lt, fun h => recovered_of_lt hop h.1 h.2⟩

theorem request_recovered_open :
    sapiOpenFile ∈ operations ∧
      Recovered (sapiMessageLen 3 sapiOpenFile 5) sapiOpenFile 3 5 := by
  have hr : (sapiSendop 5 sapiOpenFile ((3 : BitVec 32).truncate 8)).Runs
      ⟨[], ∅⟩ [.write (.word (sapiMessageLen 3 sapiOpenFile 5)) true] (.ret 0) ⟨[], ∅⟩ := rfl
  obtain ⟨p, hp, hiff⟩ := request_recovered_iff (by decide) 3 5 hr
  injection hp with hp
  injection hp with hp
  rw [← hp, Payload.bytes_word, ofNat_decode_encode] at hiff
  exact ⟨by decide, hiff.mpr (by decide)⟩

/-- An `openFile` with flag 0x20 is a `removeFile` to the server, and a
`readNFiles` of 2^24 files asks for none. -/
theorem request_lost :
    opOf (sapiMessageLen 0x20 sapiOpenFile 5) = sapiRemoveFile ∧
    ¬ Recovered (sapiMessageLen 0x20 sapiOpenFile 5) sapiOpenFile 0x20 5 ∧
    lenOf (sapiMessageLen 0 sapiReadNFiles (BitVec.ofNat 32 (2 ^ 24))) = 0 ∧
    ¬ Recovered (sapiMessageLen 0 sapiReadNFiles (BitVec.ofNat 32 (2 ^ 24))) sapiReadNFiles 0
      (2 ^ 24) :=
  ⟨by decide, fun h => absurd h.lt (by decide), by decide, fun h => absurd h.lt (by decide)⟩

end LsoStore
