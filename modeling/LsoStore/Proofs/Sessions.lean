import LsoStore.Lib.Duplex
import LsoStore.ServerApi
import LsoStore.Proofs.Rules

/-!
# A client and the server

The helpers of both sides, one equation for each, in the same form as the
rules for the nodes of the two programs: what a call sends is at the end of
one stream, and what it receives is the chunk at the front of the other.
-/

namespace LsoStore

open Proc Talk

/-! ## The words on the wire -/

@[simp] theorem chunks_word (m : SMessage) :
    chunks (Payload.word m).bytes = [LittleEndian.encode 4 m.toNat] :=
  if_neg (LittleEndian.encode_ne_nil _ (by decide))

@[simp] theorem chunks_size (n : Nat) :
    chunks (Payload.size n).bytes = [LittleEndian.encode 8 n] :=
  if_neg (LittleEndian.encode_ne_nil _ (by decide))

theorem chunks_block {bs : List UInt8} (h : bs ≠ []) : chunks (Payload.block bs).bytes = [bs] :=
  if_neg h

theorem ofNat_decode_encode (m : SMessage) :
    BitVec.ofNat 32 (LittleEndian.decode (LittleEndian.encode 4 m.toNat)) = m := by
  have hlt : m.toNat < 256 ^ 4 := m.isLt
  rw [LittleEndian.decode_encode_of_lt hlt, BitVec.ofNat_toNat, BitVec.setWidth_eq]

theorem decode_encode_size {n : Nat} (h : n < 2 ^ 64) :
    LittleEndian.decode (LittleEndian.encode 8 n) = n :=
  LittleEndian.decode_encode_of_lt h

theorem opOf_sapiMessageLen (flag op : BitVec 8) (len : SMessage) :
    opOf (sapiMessageLen flag op len) = (flag ||| op) &&& 0xFC := by
  rw [opOf_eq]
  congr 1
  ext i hi
  simp [sapiMessageLen, sapiMssLenShft]

theorem ne_zero_of_opOf {m : SMessage} {op : BitVec 8} (h : opOf m = op) (hop : op ≠ 0) :
    m ≠ 0 := by
  intro heq
  subst heq
  exact hop (h.symm.trans (by decide))

/-- The length loses what does not fit into the upper three bytes. -/
theorem lenOf_sapiMessageLen (flag op : BitVec 8) (len : Nat) :
    lenOf (sapiMessageLen flag op (BitVec.ofNat 32 len)) = len % 2 ^ 24 := by
  have hlow : (flag ||| op).toNat >>> 8 = 0 := by
    rw [Nat.shiftRight_eq_div_pow]
    exact Nat.div_eq_of_lt (flag ||| op).isLt
  rw [BitVec.toNat_or, Nat.shiftRight_or_distrib] at hlow
  rw [lenOf, sapiMessageLen, sapiMssLenShft, BitVec.toNat_ushiftRight, BitVec.toNat_or,
    BitVec.toNat_or, BitVec.toNat_shiftLeft, BitVec.toNat_ofNat, Nat.shiftRight_or_distrib,
    Nat.shiftRight_or_distrib, BitVec.zeroExtend_eq_setWidth,
    BitVec.zeroExtend_eq_setWidth, BitVec.toNat_setWidth_of_le (by decide),
    BitVec.toNat_setWidth_of_le (by decide), hlow, Nat.zero_or, Nat.shiftLeft_eq,
    Nat.shiftRight_eq_div_pow]
  omega

/-! ## The client's helpers -/

section Client

variable {α τ ν β : Type} [DecidableEq ν] {Q : Talk Saved Empty α τ ν β → Prop}
  {w : World Saved Empty} {q : Proc τ ν β} {v : World τ ν} {ts tc : Inbox}

/-- A string is put together, or the client exits over its length. -/
theorem flows_suAppendChars {string literal : List UInt8} {k : List UInt8 → ClientM α}
    (hexit : Flows Q ⟨.exit, w, q, v, ts, tc⟩)
    (hk : Flows Q ⟨k (string ++ literal), w, q, v, ts, tc⟩) :
    Flows Q ⟨suAppendChars string literal k, w, q, v, ts, tc⟩ := by
  rw [suAppendChars]
  split
  · next h0 =>
      rw [List.length_eq_zero_iff.mp h0, List.append_nil] at hk
      exact hk
  · rw [muRealloc]
    split
    · exact hexit
    · exact hk

theorem flows_sapiSendop_bind {len : Nat} {op flags : BitVec 8} {k : Int → ClientM α} :
    Flows Q ⟨sapiSendop len op flags >>= k, w, q, v, ts, tc⟩ ↔
      Flows Q ⟨k 0, w, q, v, ts ++
        [LittleEndian.encode 4 (sapiMessageLen flags op (BitVec.ofNat 32 len)).toNat], tc⟩ := by
  rw [sapiSendop, write_bind, flows_client_write, chunks_word]
  rfl

theorem flows_sapiSenddatalen_bind {n : Nat} {k : Int → ClientM α} :
    Flows Q ⟨sapiSenddatalen n >>= k, w, q, v, ts, tc⟩ ↔
      Flows Q ⟨k 0, w, q, v, ts ++ [LittleEndian.encode 8 n], tc⟩ := by
  rw [sapiSenddatalen, write_bind, flows_client_write, chunks_size]
  rfl

theorem flows_sapiSenddata_bind {data : List UInt8} (h : data ≠ []) {k : Int → ClientM α} :
    Flows Q ⟨sapiSenddata data >>= k, w, q, v, ts, tc⟩ ↔
      Flows Q ⟨k 0, w, q, v, ts ++ [data], tc⟩ := by
  rw [sapiSenddata, if_neg (by simpa using h), write_bind, flows_client_write, chunks_block h]
  rfl

theorem flows_sapiGetResponse_bind {m : SMessage} {k : SMessage → ClientM α} :
    Flows Q ⟨sapiGetResponse >>= k, w, q, v, ts, LittleEndian.encode 4 m.toNat :: tc⟩ ↔
      Flows Q ⟨k m, w, q, v, ts, tc⟩ := by
  rw [sapiGetResponse, read_bind,
    flows_client_read (LittleEndian.encode_length ..) (by decide)]
  simp only [LittleEndian.encode_length, Nat.lt_irrefl, if_false, ofNat_decode_encode]
  rfl

theorem flows_sapiGetPath_bind {path : List UInt8} (hne : path ≠ []) (h0 : (0 : UInt8) ∉ path)
    (hlen : path.length + 1 ≤ muLimit) {k : Option (List UInt8) → ClientM α} :
    Flows Q ⟨sapiGetPath >>= k, w, q, v, ts,
        LittleEndian.encode 8 path.length :: path :: tc⟩ ↔
      Flows Q ⟨k (some path), w, q, v, ts, tc⟩ := by
  have hlim : muLimit = 2 ^ 22 := rfl
  have hpos : path.length ≠ 0 := by simpa using hne
  rw [sapiGetPath, read_bind,
    flows_client_read (LittleEndian.encode_length ..) (by decide)]
  dsimp only
  rw [decode_encode_size (by omega), if_neg hpos, if_neg (by omega), muRealloc,
    if_neg (by omega), read_bind, flows_client_read rfl (by omega)]
  simp only [Nat.lt_irrefl, if_false, cString_of_not_mem h0]
  rfl

/-- The end of the list of `readNFiles`. -/
theorem flows_sapiGetPath_bind_zero {k : Option (List UInt8) → ClientM α} :
    Flows Q ⟨sapiGetPath >>= k, w, q, v, ts, LittleEndian.encode 8 0 :: tc⟩ ↔
      Flows Q ⟨k none, w, q, v, ts, tc⟩ := by
  rw [sapiGetPath, read_bind,
    flows_client_read (LittleEndian.encode_length ..) (by decide)]
  dsimp only
  rw [decode_encode_size (by decide), if_pos rfl]
  rfl

theorem flows_sapiGetData_bind {data : List UInt8} (hne : data ≠ [])
    (hlen : data.length ≤ muLimit) {n : Nat} {k : Option (List UInt8) × Nat → ClientM α} :
    Flows Q ⟨sapiGetData n >>= k, w, q, v, ts,
        LittleEndian.encode 8 data.length :: data :: tc⟩ ↔
      Flows Q ⟨k (some data, data.length), w, q, v, ts, tc⟩ := by
  have hlim : muLimit = 2 ^ 22 := rfl
  have hpos : data.length > 0 := List.length_pos_of_ne_nil hne
  rw [sapiGetData, read_bind,
    flows_client_read (LittleEndian.encode_length ..) (by decide)]
  dsimp only
  rw [LittleEndian.encode_length, List.drop_of_length_le (by simp), List.append_nil,
    decode_encode_size (by omega), if_pos hpos, muRealloc, if_neg (by omega), read_bind,
    flows_client_read rfl hpos]
  simp

/-- A client that waits for an answer. -/
theorem idle_sapiGetResponse (k : SMessage → ClientM α) (w : World Saved Empty) :
    Idle (sapiGetResponse >>= k) w [] := by
  rw [sapiGetResponse, read_bind]
  exact idle_read (by decide) _ _

end Client

/-! ## The server's helpers -/

section Server

variable {σ μ α β : Type} [DecidableEq μ] {Q : Talk σ μ α FileStorage Mutex β → Prop}
  {p : Proc σ μ α} {w : World σ μ} {v : World FileStorage Mutex} {ts tc : Inbox}
  {client : Int} {message : SMessage}

theorem flows_deref {a : Nat} {f : FileData} {k : FileData → ServerM β}
    (hf : v.st.heap a = some f) :
    Flows Q ⟨p, w, deref a k, v, ts, tc⟩ ↔ Flows Q ⟨p, w, k f, v, ts, tc⟩ := by
  rw [deref, flows_server_get, hf]

theorem deref_bind {γ : Type} {a : Nat} {k : FileData → ServerM β} {k' : β → ServerM γ} :
    (deref a k >>= k') = deref a fun f => k f >>= k' := by
  rw [deref, get_bind, deref]
  congr 1
  funext s
  cases s.heap a with
  | none => rfl
  | some f => rfl

theorem flows_assign {a : Nat} {g : FileData → FileData} {k : ServerM β} :
    Flows Q ⟨p, w, assign a g k, v, ts, tc⟩ ↔
      Flows Q ⟨p, w, k, { v with st := v.st.modifyFile a g }, ts, tc⟩ := by
  rw [assign, flows_server_get, flows_server_set]

theorem flows_getfile {path : List UInt8} {k : Option Nat → ServerM β} :
    Flows Q ⟨p, w, getfile path k, v, ts, tc⟩ ↔
      Flows Q ⟨p, w, k (v.st.table.huGet path), { v with st := (v.st.fuGetfile path).2 },
        ts, tc⟩ := by
  rw [getfile, flows_server_get, flows_server_set, FileStorage.fuGetfile_fst]

theorem flows_removefile {path : List UInt8} {k : ServerM β} :
    Flows Q ⟨p, w, removefile path k, v, ts, tc⟩ ↔
      Flows Q ⟨p, w, k, { v with st := (v.st.fuRemoveFile path).2 }, ts, tc⟩ := by
  rw [removefile, flows_server_get, flows_server_set]

theorem flows_serverRespond_bind (hc : client ≠ 0) {k : Int → ServerM β} :
    Flows Q ⟨p, w, serverRespond message client >>= k, v, ts, tc⟩ ↔
      Flows Q ⟨p, w, k 0, v, ts, tc ++ [LittleEndian.encode 4 message.toNat]⟩ := by
  rw [serverRespond, if_neg hc, write_bind, flows_server_write, chunks_word]
  rfl

theorem flows_sapiRespond (hc : client ≠ 0) {k : ServerM Int}
    {Q : Talk σ μ α FileStorage Mutex Int → Prop} :
    Flows Q ⟨p, w, sapiRespond message client k, v, ts, tc⟩ ↔
      Flows Q ⟨p, w, k, v, ts, tc ++ [LittleEndian.encode 4 message.toNat]⟩ := by
  rw [sapiRespond, flows_serverRespond_bind hc]
  simp

theorem flows_serverGetPath_bind (hm : message ≠ 0) (hc : client ≠ 0) {path : List UInt8}
    (hlen : lenOf message = path.length) (hne : path ≠ []) (hlim : ¬ path.length + 1 > muLimit)
    {k : Option (List UInt8) → ServerM β} :
    Flows Q ⟨p, w, serverGetPath message client >>= k, v, path :: ts, tc⟩ ↔
      Flows Q ⟨p, w, k (some (cString path)), v, ts, tc⟩ := by
  rw [serverGetPath, if_neg (not_or.mpr ⟨hm, hc⟩)]
  dsimp only
  rw [hlen, muCalloc, if_neg hlim, read_bind,
    flows_server_read rfl (List.length_pos_of_ne_nil hne)]
  rfl

theorem flows_sendBlock_bind {bs : List UInt8} {k : Int → ServerM β} :
    Flows Q ⟨p, w, sendBlock bs >>= k, v, ts, tc⟩ ↔
      Flows Q ⟨p, w, k 0, v, ts, tc ++ LittleEndian.encode 8 bs.length ::
        chunks (Payload.block bs).bytes⟩ := by
  rw [sendBlock, write_bind, flows_server_write, chunks_size]
  simp only [write_bind]
  rw [flows_server_write, List.append_assoc]
  rfl

/-- The two chunks of a file's contents, and none if it is empty. -/
def dataChunks (data : List UInt8) : Inbox :=
  if data = [] then [] else [LittleEndian.encode 8 data.length, data]

theorem flows_serverSendData_bind (hc : client ≠ 0) {data : List UInt8}
    {k : ServerM β} :
    Flows Q ⟨p, w, serverSendData client data >>= fun _ => k, v, ts, tc⟩ ↔
      Flows Q ⟨p, w, k, v, ts, tc ++ dataChunks data⟩ := by
  rw [serverSendData, dataChunks]
  by_cases h : data = []
  · rw [if_pos (.inr (by simp [h])), if_pos h, List.append_nil]
    rfl
  · rw [if_neg (by simp [hc, h]), if_neg h, flows_sendBlock_bind, chunks_block h]

theorem flows_serverSendPath_bind (hc : client ≠ 0) {path : List UInt8}
    {k : Int → ServerM β} :
    Flows Q ⟨p, w, serverSendPath client path >>= k, v, ts, tc⟩ ↔
      Flows Q ⟨p, w, k 0, v, ts, tc ++ LittleEndian.encode 8 path.length ::
        chunks (Payload.block path).bytes⟩ := by
  rw [serverSendPath, if_neg hc, flows_sendBlock_bind]

theorem flows_serverGetLen_bind (hc : client ≠ 0) {n : Nat} (hn : n < 2 ^ 64)
    {k : Nat → ServerM β} :
    Flows Q ⟨p, w, serverGetLen client >>= k, v, LittleEndian.encode 8 n :: ts, tc⟩ ↔
      Flows Q ⟨p, w, k n, v, ts, tc⟩ := by
  rw [serverGetLen, if_neg hc, read_bind,
    flows_server_read (LittleEndian.encode_length ..) (by decide)]
  simp only [LittleEndian.encode_length, Nat.lt_irrefl, if_false, decode_encode_size hn]
  rfl

theorem flows_checkReadResponse {n : Nat} (hn : n < 2 ^ 64) {k : Nat → ServerM Int}
    {Q : Talk σ μ α FileStorage Mutex Int → Prop} :
    Flows Q ⟨p, w, checkReadResponse client k, v, LittleEndian.encode 8 n :: ts, tc⟩ ↔
      Flows Q ⟨p, w, k n, v, ts, tc⟩ := by
  rw [checkReadResponse, flows_server_read (LittleEndian.encode_length ..) (by decide)]
  simp only [LittleEndian.encode_length, Nat.lt_irrefl, if_false, decode_encode_size hn]

theorem flows_takeOwnership {a : Nat} {k : ServerM Int}
    {Q : Talk σ μ α FileStorage Mutex Int → Prop} :
    Flows Q ⟨p, w, takeOwnership message client a k, v, ts, tc⟩ ↔
      Flows Q ⟨p, w, k, { v with st := v.st.modifyFile a (·.openedBy message client) },
        ts, tc⟩ := by
  rw [takeOwnership, flows_assign]
  split
  · next h =>
      rw [flows_assign]
      dsimp only
      rw [FileStorage.modifyFile_modifyFile]
      simp only [Function.comp_def, FileData.openedBy, h, if_true]
  · next h => simp only [FileData.openedBy, h, Bool.false_eq_true, if_false]

/-- One turn reads one request and goes on to the next. -/
theorem flows_serverTurns {qsort : Qsort Nat} {n : Nat} (hm : message ≠ 0)
    {Q : Talk σ μ α FileStorage Mutex Bool → Prop} :
    Flows Q ⟨p, w, serverTurns qsort client (n + 1), v,
        LittleEndian.encode 4 message.toNat :: ts, tc⟩ ↔
      Flows Q ⟨p, w, serve qsort message client >>= fun _ => serverTurns qsort client n, v,
        ts, tc⟩ := by
  rw [serverTurns, serverWorker, read_bind,
    flows_server_read (LittleEndian.encode_length ..) (by decide)]
  dsimp only
  rw [ofNat_decode_encode, if_neg hm, bind_assoc]
  rfl

end Server

end LsoStore
