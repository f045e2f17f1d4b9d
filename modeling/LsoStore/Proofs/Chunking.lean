import LsoStore.Lib.Stream
import LsoStore.Proofs.Dialogues

/-!
# How a stream is cut

Every message is received with a single `read`, and a short result is taken
for the whole message: a path ends early, a body is padded with zeros, and what
did not arrive is parsed as the next request. So what a client's bytes do to
the server depends on how the socket hands them over. Delivered whole they come
to the same answers and the same storage; `chunk_independence` says which
streams may be cut in any way.

A stream that makes a request of more than one byte has two cuts that differ:
with the word cut after its first byte the request has the same operation and
no length, so unless it is a write that gets to its file it takes no more bytes
at all, where the whole word takes at least two. A write that does get there
reads a length, which can be cut in two ways as well.
-/

namespace LsoStore

open Proc FileStorage

/-- Everything that was written to the client, in order. -/
def responses (tr : List (Event Mutex)) : List Payload :=
  tr.filterMap fun
    | .write p _ => some p
    | _ => none

/-- The request that a read of the word makes. -/
def wordOf (got : List UInt8) : SMessage := BitVec.ofNat 32 (LittleEndian.decode got)

/-- After the word of a turn, no path, length or body came back short while
there were bytes to come. -/
def FilledAfterWord : List UInt8 → List (Event Mutex) → Prop
  | bs, .read _ (some got) :: tr => Filled (bs.drop got.length) tr
  | _, _ => True

/-- However the bytes `bs` are cut, any number of turns for the client gives
the same answers, the same end and the same storage, and takes the same bytes,
so that none of one request's are left to be parsed as the next; a client that
is let go has no next request. No turn pads what it reads after its word.
Everything that is not a read returns the same in both deliveries. -/
structure ChunkIndependent (qsort : Qsort Nat) (client : Int) (w : World FileStorage Mutex)
    (bs : List UInt8) : Prop where
  agree : ∀ (turns : Nat) (env : Env) {tr₁ tr₂ : List (Event Mutex)} {o₁ o₂ : Out Bool}
    {w₁ w₂ : World FileStorage Mutex},
    (serverTurns qsort client turns).Runs w tr₁ o₁ w₁ →
    (serverTurns qsort client turns).Runs w tr₂ o₂ w₂ →
    Cut bs tr₁ → Cut bs tr₂ → env.Gives 0 tr₁ → env.Gives 0 tr₂ →
    responses tr₁ = responses tr₂ ∧ o₁ = o₂ ∧ w₁ = w₂ ∧
      (o₁ ≠ .ret false → unread bs tr₁ = unread bs tr₂)
  filled : ∀ (turns : Nat) {tr tr' : List (Event Mutex)} {o : Out Bool}
    {w' w'' : World FileStorage Mutex},
    (serverTurns qsort client turns).Runs w tr (.ret true) w' → Cut bs tr →
    (serverTurns qsort client 1).Runs w' tr' o w'' → Cut (unread bs tr) tr' →
    FilledAfterWord (unread bs tr) tr'

/-- Two deliveries that hand each read all it asked for agree and pad nothing. -/
theorem whole_deliveries_agree {qsort : Qsort Nat} {client : Int} {turns : Nat}
    {w w₁ w₂ : World FileStorage Mutex} {tr₁ tr₂ : List (Event Mutex)} {o₁ o₂ : Out Bool}
    {bs : List UInt8} {env : Env}
    (h₁ : (serverTurns qsort client turns).Runs w tr₁ o₁ w₁)
    (h₂ : (serverTurns qsort client turns).Runs w tr₂ o₂ w₂)
    (hw₁ : Whole bs tr₁) (hw₂ : Whole bs tr₂) (he₁ : env.Gives 0 tr₁) (he₂ : env.Gives 0 tr₂) :
    responses tr₁ = responses tr₂ ∧ w₁ = w₂ ∧ Filled bs tr₁ ∧ Filled bs tr₂ := by
  obtain ⟨rfl, -, rfl⟩ := h₁.unique h₂ hw₁ hw₂ he₁ he₂
  exact ⟨rfl, rfl, hw₁.cut.whole_iff.mp hw₁, hw₂.cut.whole_iff.mp hw₂⟩

/-! ## The request word -/

section Word

variable {bs got : List UInt8} {b c : UInt8}

theorem wordOf_toNat (h : got.length ≤ 4) : (wordOf got).toNat = LittleEndian.decode got := by
  have hlt := LittleEndian.decode_lt got
  have hpow : 256 ^ got.length ≤ 256 ^ 4 := Nat.pow_le_pow_right (by decide) h
  rw [wordOf, BitVec.toNat_ofNat]
  exact Nat.mod_eq_of_lt (by omega)

theorem lenOf_wordOf (h : got.length ≤ 4) :
    lenOf (wordOf got) = LittleEndian.decode got / 256 := by
  rw [lenOf, sapiMssLenShft, BitVec.toNat_ushiftRight, wordOf_toNat h, Nat.shiftRight_eq_div_pow]

theorem lenOf_wordOf_singleton (b : UInt8) : lenOf (wordOf [b]) = 0 := by
  have hb : b.toNat < 256 := b.toNat_lt
  rw [lenOf_wordOf (by simp), LittleEndian.decode_cons, LittleEndian.decode_nil]
  omega

theorem lenOf_wordOf_pair (b c : UInt8) : lenOf (wordOf [b, c]) = c.toNat := by
  have hb : b.toNat < 256 := b.toNat_lt
  rw [lenOf_wordOf (by simp), LittleEndian.decode_cons, LittleEndian.decode_cons,
    LittleEndian.decode_nil]
  omega

/-- The operation is in the first byte. -/
theorem opOf_wordOf_cons (b : UInt8) (got : List UInt8) :
    opOf (wordOf (b :: got)) = opOf (wordOf [b]) := by
  have hlow : (wordOf (b :: got)).truncate 8 = (wordOf [b]).truncate 8 := by
    apply BitVec.eq_of_toNat_eq
    simp only [wordOf, BitVec.truncate_eq_setWidth, BitVec.toNat_setWidth, BitVec.toNat_ofNat,
      LittleEndian.decode_cons, LittleEndian.decode_nil]
    omega
  rw [opOf_eq, opOf_eq, hlow]

theorem wordOf_singleton_eq_zero : wordOf [b] = 0 ↔ b = 0 := by
  constructor
  · intro h
    have hdecode : (wordOf [b]).toNat = LittleEndian.decode [b] := wordOf_toNat (by simp)
    rw [h, LittleEndian.decode_cons, LittleEndian.decode_nil] at hdecode
    exact UInt8.toNat_inj.mp (by simpa using hdecode.symm)
  · intro h
    rw [h]
    rfl

/-- A word of four zeros is 0 however much of it arrives. -/
theorem wordOf_take_eq_zero {k : Nat} (hk : k ≤ 4) (h : wordOf (bs.take 4) = 0) :
    wordOf (bs.take k) = 0 := by
  have hall : (wordOf (bs.take 4)).toNat = LittleEndian.decode (bs.take 4) :=
    wordOf_toNat (List.length_take_le ..)
  rw [h, show (0 : SMessage).toNat = 0 from rfl] at hall
  have hsplit := List.take_append_drop k (bs.take 4)
  rw [List.take_take, Nat.min_eq_left hk] at hsplit
  rw [← hsplit, LittleEndian.decode_append] at hall
  have hzero : LittleEndian.decode (bs.take k) = 0 := by omega
  rw [wordOf, hzero]
  rfl

end Word

/-! ## Requests without a length -/

section ReadsNone

variable {α : Type} {client : Int} {message : SMessage}

theorem readsNone_deref {a : Nat} {k : FileData → ServerM α} (hk : ∀ f, (k f).ReadsNone) :
    (deref a k).ReadsNone := by
  intro s
  dsimp only
  split
  · trivial
  · exact hk _

theorem readsNone_lockFile {a : Nat} {k : FileData → ServerM α} (hk : ∀ f, (k f).ReadsNone) :
    (Proc.lock (.file a) (deref a k)).ReadsNone := .lock (readsNone_deref hk)

theorem readsNone_serverRespond : (serverRespond message client).ReadsNone :=
  .ite (fun _ => trivial) fun _ _ => trivial

theorem readsNone_sapiRespond {k : ServerM Int} (hk : k.ReadsNone) :
    (sapiRespond message client k).ReadsNone :=
  readsNone_serverRespond.bind fun _ => .ite (fun _ => trivial) fun _ => hk

theorem readsNone_sendBlock (bs : List UInt8) : (sendBlock bs).ReadsNone
  | false => trivial
  | true => fun _ => trivial

theorem readsNone_serverSendPath {path : List UInt8} :
    (serverSendPath client path).ReadsNone :=
  .ite (fun _ => trivial) fun _ => readsNone_sendBlock path

theorem readsNone_serverSendData {data : List UInt8} :
    (serverSendData client data).ReadsNone :=
  .ite (fun _ => trivial) fun _ => readsNone_sendBlock data

theorem readsNone_takeOwnership {a : Nat} {k : ServerM Int} (hk : k.ReadsNone) :
    (takeOwnership message client a k).ReadsNone :=
  fun _ => .ite (fun _ _ => hk) fun _ => hk

theorem readsNone_serverGetPath (hlen : lenOf message = 0) :
    (serverGetPath message client).ReadsNone := by
  refine .ite (fun _ => trivial) fun _ => .ite (fun _ => trivial) fun _ => ⟨hlen, fun r => ?_⟩
  cases r with
  | none => trivial
  | some path => trivial

/-- A handler that reads its path and nothing after it. -/
theorem readsNone_withPath (hlen : lenOf message = 0) {r : Int} {k : List UInt8 → ServerM Int}
    (hk : ∀ path, (k path).ReadsNone) :
    (if message = 0 ∨ client = 0 then .ret (-1) else do
      match ← serverGetPath message client with
      | none => sapiRespond sapiFailure client (.ret r)
      | some path => k path : ServerM Int).ReadsNone := by
  refine .ite (fun _ => trivial) fun _ => (readsNone_serverGetPath hlen).bind fun path => ?_
  cases path with
  | none => exact readsNone_sapiRespond trivial
  | some path => exact hk path

/-- A handler that looks a file up and goes on under its mutex. -/
theorem readsNone_getfile {path : List UInt8} {k : Option Nat → ServerM Int}
    (hnone : (k none).ReadsNone) (hsome : ∀ a, (k (some a)).ReadsNone) :
    (getfile path k).ReadsNone := by
  intro s
  show (k (s.fuGetfile path).1).ReadsNone
  cases (s.fuGetfile path).1 with
  | none => exact hnone
  | some a => exact hsome a

theorem readsNone_serverCreateFile (path : List UInt8) :
    (serverCreateFile message client path).ReadsNone := by
  intro s
  refine readsNone_takeOwnership fun s' => .ite (fun _ _ => ?_) fun _ => .ite (fun _ => ?_)
    fun _ => ?_
  · exact readsNone_sapiRespond trivial
  · exact readsNone_deref fun _ => readsNone_sapiRespond trivial
  · exact readsNone_sapiRespond trivial

theorem readsNone_serverOpenFile (hlen : lenOf message = 0) :
    (serverOpenFile message client).ReadsNone := by
  refine readsNone_withPath hlen fun path => readsNone_getfile ?_ fun a =>
    readsNone_lockFile fun f => ?_
  · exact .ite (fun _ => readsNone_sapiRespond trivial) fun _ => readsNone_serverCreateFile path
  · exact .ite (fun _ => readsNone_sapiRespond trivial) fun _ =>
      readsNone_takeOwnership (readsNone_sapiRespond trivial)

theorem readsNone_serverCloseFile (hlen : lenOf message = 0) :
    (serverCloseFile message client).ReadsNone := by
  refine readsNone_withPath hlen fun path => readsNone_getfile (readsNone_sapiRespond trivial)
    fun a => readsNone_lockFile fun f => ?_
  exact .ite (fun _ => readsNone_sapiRespond trivial) fun _ _ => readsNone_sapiRespond trivial

theorem readsNone_serverReadFile (hlen : lenOf message = 0) :
    (serverReadFile message client).ReadsNone := by
  refine readsNone_withPath hlen fun path => readsNone_getfile (readsNone_sapiRespond trivial)
    fun a => readsNone_lockFile fun f => ?_
  exact .ite (fun _ => readsNone_sapiRespond trivial) fun _ =>
    readsNone_sapiRespond (readsNone_serverSendData.bind fun _ => trivial)

theorem readsNone_readNFilesLoop (items : List (List UInt8 × Nat)) (nFiles : Nat) :
    (readNFilesLoop client items nFiles).ReadsNone := by
  induction items generalizing nFiles with
  | nil => exact fun _ => trivial
  | cons item items ih =>
      obtain ⟨fileName, file⟩ := item
      refine .ite (fun _ _ => trivial) fun _ => readsNone_deref fun _ ok => ?_
      cases ok with
      | false => exact ih nFiles
      | true =>
          refine readsNone_deref fun f => .ite (fun _ _ => ?_) fun _ => ih nFiles
          refine readsNone_serverSendPath.bind fun _ => .ite (fun _ => ?_) fun _ => ?_
          · exact readsNone_sapiRespond trivial
          · refine readsNone_serverSendData.bind fun _ => .ite (fun _ => ?_) fun _ => ih _
            exact readsNone_sapiRespond trivial

theorem readsNone_serverReadNFiles : (serverReadNFiles message client).ReadsNone :=
  .ite (fun _ => trivial) fun _ _ => readsNone_readNFilesLoop ..

theorem readsNone_serverRemoveFile (hlen : lenOf message = 0) :
    (serverRemoveFile message client).ReadsNone := by
  refine readsNone_withPath hlen fun path => .lock (readsNone_getfile
    (readsNone_sapiRespond trivial) fun a => readsNone_lockFile fun f => ?_)
  exact .ite (fun _ => readsNone_sapiRespond trivial) fun _ _ _ => readsNone_sapiRespond trivial

end ReadsNone

/-! ## Writes without a length -/

section Write

variable {qsort : Qsort Nat} {offset : FileData → Nat} {client : Int} {message : SMessage}
  {w : World FileStorage Mutex}

/-- The state in which a write to the empty path waits for its length. -/
def afterLookup (w : World FileStorage Mutex) (a : Nat) : World FileStorage Mutex :=
  ⟨(w.st.fuGetfile []).2, insert (.file a) (insert .storage w.held)⟩

/-- A write to the empty path that does not get to its file takes nothing. -/
theorem serverWriteAt_unread (hlen : lenOf message = 0)
    (hnot : ¬ ∃ a, WriteReaches w client [] a) :
    (serverWriteAt qsort offset message client).Ensures w fun tr _ _ =>
      ∀ bs, unread bs tr = bs := by
  rw [serverWriteAt]
  split
  · exact ensures_ret.mpr fun _ => rfl
  next hmc =>
  obtain ⟨hm, hc⟩ := not_or.mp hmc
  rw [ensures_serverGetPath_bind hm hc]
  refine ⟨fun _ _ => rfl, fun _ r hfit => ?_⟩
  cases r with
  | none =>
      rw [Option.map_none, ensures_sapiRespond hc, ensures_ret]
      exact ⟨fun _ => rfl, fun _ => rfl⟩
  | some got =>
      rw [hlen, fits_some, Nat.le_zero, List.length_eq_zero_iff] at hfit
      subst hfit
      rw [Option.map_some, show cString [] = [] from rfl, ensures_lock]
      refine ⟨fun _ _ => rfl, fun hs => ensures_getfile.mpr ?_⟩
      dsimp only
      cases hget : w.st.table.huGet [] with
      | none =>
          rw [ensures_unlock, ensures_sapiRespond hc, ensures_ret]
          exact ⟨fun _ => rfl, fun _ => rfl⟩
      | some a =>
          refine Ensures.lockFile (fun _ _ => rfl) (fun _ _ => rfl) fun hfile f hf => ?_
          have hf' : (w.st.fuGetfile []).2.heap a = some f := hf
          rw [if_pos fun howner => hnot ⟨a, hget, hs,
            fun hh => hfile (Finset.mem_insert_of_mem hh),
            (fuGetfile_client _ hf').trans howner⟩,
          ensures_unlock, ensures_sapiRespond hc, ensures_ret]
          exact ⟨fun _ => rfl, fun _ => rfl⟩

theorem serverWriteAt_eq_read (qsort : Qsort Nat) (offset : FileData → Nat) (hm : message ≠ 0)
    (hc : client ≠ 0) (hlim : ¬ lenOf message + 1 > muLimit) :
    ∃ k, serverWriteAt qsort offset message client = .read (lenOf message) k := by
  rw [serverWriteAt, if_neg (not_or.mpr ⟨hm, hc⟩), serverGetPath, if_neg (not_or.mpr ⟨hm, hc⟩),
    muCalloc, if_neg hlim]
  exact ⟨_, rfl⟩

/-- One that does gets to the reading of the length. -/
theorem runs_serverWriteAt (hwf : w.st.WellFormed) (hm : message ≠ 0) (hc : client ≠ 0)
    (hlim : ¬ lenOf message + 1 > muLimit) {a : Nat} (ha : WriteReaches w client [] a)
    {tr : List (Event Mutex)} {o : Out Int} {w' : World FileStorage Mutex} :
    (serverWriteAt qsort offset message client).Runs w
        (.read (lenOf message) (some []) :: tr) o w' ↔
      (checkReadResponse client fun n => serverMakeRoom qsort offset client a n).Runs
        (afterLookup w a) tr o w' := by
  obtain ⟨hget, hs, hfile, howner⟩ := ha
  have hlive : a ∈ (w.st.fuGetfile []).2.ptrs := by
    rw [fuGetfile_ptrs]
    exact WellFormed.huGet_mem_ptrs hget
  obtain ⟨f, hf⟩ := Option.ne_none_iff_exists'.mp ((hwf.fuGetfile []).accounted.live a hlive)
  have hown : ¬ f.client ≠ client := not_not.mpr ((fuGetfile_client _ hf).symm.trans howner)
  have hfile' : Mutex.file a ∉ insert Mutex.storage w.held := by
    rw [Finset.mem_insert]
    exact not_or.mpr ⟨by simp, hfile⟩
  rw [serverWriteAt, if_neg (not_or.mpr ⟨hm, hc⟩), serverGetPath, if_neg (not_or.mpr ⟨hm, hc⟩),
    muCalloc, if_neg hlim, read_bind, runs_read_cons (by simp), ret_bind]
  dsimp only
  rw [runs_lock_free hs, runs_getfile, show cString [] = [] from rfl, hget, runs_lock_free hfile',
    runs_deref hf, if_neg hown, afterLookup]

end Write

/-! ## A turn -/

section Turn

variable {qsort : Qsort Nat} {client : Int} {message : SMessage} {n : Nat}
  {w w' : World FileStorage Mutex} {tr : List (Event Mutex)} {bs : List UInt8}

/-- Without a length in its word, a request takes nothing more from the stream
unless it is a write that gets to its file. -/
theorem serve_unread (hlen : lenOf message = 0)
    (hnot : opOf message ∈ [sapiWriteFile, sapiAppendFile] →
      ¬ ∃ a, WriteReaches w client [] a) :
    (serve qsort message client).Ensures w fun tr _ _ => ∀ bs, unread bs tr = bs := by
  refine Ensures.serve_cases (fun _ => (readsNone_serverOpenFile hlen).unread)
    (fun _ => (readsNone_serverCloseFile hlen).unread)
    (fun _ => (readsNone_serverReadFile hlen).unread)
    (fun _ => readsNone_serverReadNFiles.unread)
    (fun hop => serverWriteAt_unread hlen (hnot (by simp [hop])))
    (fun hop => serverWriteAt_unread hlen (hnot (by simp [hop]))) (fun _ _ => rfl)
    (fun _ => (readsNone_serverRemoveFile hlen).unread) fun _ => ?_
  split
  · exact fun _ => rfl
  · exact fun _ _ => rfl

theorem serverTurns_succ (qsort : Qsort Nat) (client : Int) (n : Nat) :
    serverTurns qsort client (n + 1) = .read 4 fun
      | none => .ret false
      | some got =>
          if wordOf got = 0 then .ret false
          else serve qsort (wordOf got) client >>= fun _ => serverTurns qsort client n := by
  rw [serverTurns, serverWorker, read_bind]
  congr 1
  funext r
  cases r with
  | none => rfl
  | some got =>
      dsimp only
      rw [ite_bind, bind_assoc]
      rfl

theorem runs_serverTurns_succ {got : List UInt8} {o : Out Bool} (hgot : got.length ≤ 4) :
    (serverTurns qsort client (n + 1)).Runs w (.read 4 (some got) :: tr) o w' ↔
      (if wordOf got = 0 then .ret false
        else serve qsort (wordOf got) client >>= fun _ =>
          serverTurns qsort client n : ServerM Bool).Runs w tr o w' := by
  rw [serverTurns_succ, runs_read_cons (fits_some.mpr hgot)]

/-- A turn reads some of its word. A word of 0 lets the client go. -/
theorem turn_cases {o : Out Bool} (h : (serverTurns qsort client (n + 1)).Runs w tr o w')
    (hcut : Cut bs tr) :
    ∃ k ≤ 4, (bs ≠ [] → 0 < k) ∧ ∃ tr', tr = .read 4 (some (bs.take k)) :: tr' ∧
      Cut (bs.drop k) tr' ∧
      ((wordOf (bs.take k) = 0 ∧ tr' = [] ∧ o = .ret false ∧ w' = w) ∨
        (wordOf (bs.take k) ≠ 0 ∧
          (serve qsort (wordOf (bs.take k)) client >>= fun _ =>
            serverTurns qsort client n).Runs w tr' o w')) := by
  rw [serverTurns_succ] at h
  obtain ⟨r, tr', rfl, -, h⟩ := runs_read.mp h
  obtain ⟨k, hk, hpos, rfl, hcut⟩ := hcut
  refine ⟨k, hk, hpos (by decide), tr', rfl, hcut, ?_⟩
  dsimp only at h
  split at h
  · next hz => exact .inl ⟨hz, runs_ret.mp h⟩
  · next hz => exact .inr ⟨hz, h⟩

/-- The client of an ended stream is let go. -/
theorem turn_nil {o : Out Bool} (h : (serverTurns qsort client (n + 1)).Runs w tr o w')
    (hcut : Cut [] tr) : tr = [.read 4 (some [])] ∧ o = .ret false ∧ w' = w := by
  obtain ⟨k, -, -, tr', rfl, -, ⟨-, rfl, rfl, rfl⟩ | ⟨hne, -⟩⟩ := turn_cases h hcut
  · exact ⟨by rw [List.take_nil], rfl, rfl⟩
  · exact absurd (by rw [List.take_nil]; rfl) hne

/-- One turn whose word arrives in a piece of `k` bytes, and in which nothing
but the stream works. -/
theorem exists_turn (qsort : Qsort Nat) (client : Int) (w : World FileStorage Mutex)
    (bs : List UInt8) {k : Nat} (hpos : 0 < k) (hk : k ≤ 4) :
    ∃ tr o w', (serverTurns qsort client 1).Runs w (.read 4 (some (bs.take k)) :: tr) o w' ∧
      Cut bs (.read 4 (some (bs.take k)) :: tr) ∧
      Env.refusing.Gives 0 (Event.read (μ := Mutex) 4 (some (bs.take k)) :: tr) := by
  obtain ⟨tr, o, w', h, hwhole, hgives⟩ := exists_whole
    (if wordOf (bs.take k) = 0 then .ret false
      else serve qsort (wordOf (bs.take k)) client >>= fun _ => serverTurns qsort client 0)
    w (bs.drop k) 0
  have hgot : (bs.take k).length ≤ 4 := (List.length_take_le ..).trans hk
  exact ⟨tr, o, w', (runs_serverTurns_succ hgot).mpr h, ⟨k, hk, fun _ _ => hpos, rfl, hwhole.cut⟩,
    hgives⟩

/-- The turn of a request that was served does not let the client go. -/
theorem served_ne_false {o : Out Bool}
    (h : (serve qsort message client >>= fun _ => serverTurns qsort client 0).Runs w tr o w') :
    o ≠ .ret false := by
  rintro rfl
  obtain ⟨-, hfalse, -⟩ := Runs.of_bind_ret (f := fun _ => true) h
  cases hfalse

theorem served_unread (hlen : lenOf message = 0)
    (hnot : opOf message ∈ [sapiWriteFile, sapiAppendFile] →
      ¬ ∃ a, WriteReaches w client [] a) :
    (serve qsort message client >>= fun _ => serverTurns qsort client 0).Ensures w
      fun tr _ _ => ∀ bs, unread bs tr = bs := by
  refine ensures_bind.mpr ((serve_unread hlen hnot).mono fun tr o w' h => ?_)
  cases o with
  | ret r =>
      refine ensures_ret.mpr ?_
      rwa [List.append_nil]
  | exit => exact h
  | fault => exact h
  | blocked => exact h

end Turn

/-! ## Streams that can be cut in any way -/

section Independent

variable {qsort : Qsort Nat} {client : Int} {w : World FileStorage Mutex} {bs : List UInt8}

theorem filledAfterWord_of_filled {tr : List (Event Mutex)} (h : Filled bs tr) :
    FilledAfterWord bs tr := by
  cases tr with
  | nil => trivial
  | cons e tr =>
      cases e with
      | read n r =>
          cases r with
          | none => trivial
          | some got => exact (h got rfl).2
      | write p ok => trivial
      | trylock m ok => trivial
      | unspec junk => trivial

theorem filledAfterWord_of_short {tr : List (Event Mutex)} (h : Cut bs tr) (hlen : bs.length ≤ 1) :
    FilledAfterWord bs tr :=
  filledAfterWord_of_filled (h.whole_iff.mp (h.whole_of_short hlen))

/-- There is one way to hand over at most one byte. -/
theorem chunkIndependent_of_short (hlen : bs.length ≤ 1) :
    ChunkIndependent qsort client w bs where
  agree turns env tr₁ tr₂ o₁ o₂ w₁ w₂ h₁ h₂ hc₁ hc₂ he₁ he₂ := by
    obtain ⟨rfl, rfl, rfl⟩ := h₁.unique h₂ (hc₁.whole_of_short hlen) (hc₂.whole_of_short hlen)
      he₁ he₂
    exact ⟨rfl, rfl, rfl, fun _ => rfl⟩
  filled turns tr tr' o w' w'' h hc h' hc' :=
    filledAfterWord_of_short hc' ((unread_length_le bs tr).trans hlen)

/-- A word of 0 lets the client go before anything else is read. -/
theorem chunkIndependent_of_zero (hzero : wordOf (bs.take 4) = 0) :
    ChunkIndependent qsort client w bs where
  agree turns env tr₁ tr₂ o₁ o₂ w₁ w₂ h₁ h₂ hc₁ hc₂ he₁ he₂ := by
    cases turns with
    | zero =>
        obtain ⟨rfl, rfl, rfl⟩ := runs_ret.mp h₁
        obtain ⟨rfl, rfl, rfl⟩ := runs_ret.mp h₂
        exact ⟨rfl, rfl, rfl, fun _ => rfl⟩
    | succ n =>
        obtain ⟨k, hk, -, t, rfl, -, ⟨-, rfl, rfl, rfl⟩ | ⟨hne, -⟩⟩ := turn_cases h₁ hc₁
        · obtain ⟨k', hk', -, t, rfl, -, ⟨-, rfl, rfl, rfl⟩ | ⟨hne, -⟩⟩ := turn_cases h₂ hc₂
          · exact ⟨rfl, rfl, rfl, fun h => absurd rfl h⟩
          · exact absurd (wordOf_take_eq_zero hk' hzero) hne
        · exact absurd (wordOf_take_eq_zero hk hzero) hne
  filled turns tr tr' o w' w'' h hc h' hc' := by
    cases turns with
    | zero =>
        obtain ⟨rfl, -, rfl⟩ := runs_ret.mp h
        obtain ⟨k, hk, -, t, rfl, -, ⟨-, rfl, -⟩ | ⟨hne, -⟩⟩ := turn_cases h' hc'
        · trivial
        · exact absurd (wordOf_take_eq_zero hk hzero) hne
    | succ n =>
        obtain ⟨k, hk, -, t, rfl, -, ⟨-, -, ho, -⟩ | ⟨hne, -⟩⟩ := turn_cases h hc
        · cases ho
        · exact absurd (wordOf_take_eq_zero hk hzero) hne

end Independent

/-! A write to the empty path whose length never comes: what is left of the
stream is taken for the length, and the answer is a failure. -/

section ShortWrite

variable {qsort : Qsort Nat} {offset : FileData → Nat} {client : Int} {message : SMessage}
  {w : World FileStorage Mutex} {stream : List UInt8} {a n : Nat}

/-- What such a write reads and answers. -/
def shortWrite (len : Nat) (got : List UInt8) (ok : Bool) : List (Event Mutex) :=
  [.read len (some []), .read 8 (some got), .write (.word sapiFailure) ok]

theorem serverWriteAt_short (hwf : w.st.WellFormed) (hm : message ≠ 0) (hc : client ≠ 0)
    (hlim : ¬ lenOf message + 1 > muLimit) (ha : WriteReaches w client [] a)
    (hpath : lenOf message = 0 ∨ stream = []) (hlen : stream.length ≤ 1) :
    (serverWriteAt qsort offset message client).Ensures w fun tr o w' => Cut stream tr →
      o = .ret 1 ∧ w' = afterLookup w a ∧ ∃ ok, tr = shortWrite (lenOf message) stream ok := by
  intro tr o w' h hcut
  obtain ⟨k, heq⟩ := serverWriteAt_eq_read qsort offset hm hc hlim
  obtain ⟨r, tr, rfl, -, -⟩ := runs_read.mp (heq ▸ h)
  obtain ⟨j, hj, -, rfl, hcut⟩ := hcut
  have hnil : stream.take j = [] ∧ stream.drop j = stream := by
    rcases hpath with hzero | rfl
    · obtain rfl : j = 0 := by omega
      exact ⟨rfl, rfl⟩
    · exact ⟨List.take_nil, List.drop_nil⟩
  rw [hnil.1, runs_serverWriteAt hwf hm hc hlim ha, checkReadResponse] at h
  rw [hnil.2] at hcut
  obtain ⟨r, tr, rfl, -, h⟩ := runs_read.mp h
  obtain ⟨hr, -⟩ := whole_read.mp (hcut.whole_of_short hlen)
  rw [List.take_of_length_le (by omega)] at hr
  subst hr
  dsimp only at h
  rw [if_pos (by omega), serverRespond, if_neg hc, write_bind] at h
  obtain ⟨ok, tr, rfl, h⟩ := runs_write.mp h
  obtain ⟨rfl, rfl, rfl⟩ := runs_ret.mp h
  exact ⟨rfl, rfl, ok, by rw [hnil.1, shortWrite]⟩

/-- The turns from such a write on: the next one finds the stream ended. -/
theorem shortWrite_turns (hwf : w.st.WellFormed) (hm : message ≠ 0) (hc : client ≠ 0)
    (hop : opOf message ∈ [sapiWriteFile, sapiAppendFile])
    (hlim : ¬ lenOf message + 1 > muLimit) (ha : WriteReaches w client [] a)
    (hpath : lenOf message = 0 ∨ stream = []) (hlen : stream.length ≤ 1) :
    (serve qsort message client >>= fun _ => serverTurns qsort client n).Ensures w
      fun tr o w' => Cut stream tr →
        responses tr = [.word sapiFailure] ∧ o = .ret (decide (n = 0)) ∧
          w' = afterLookup w a ∧ unread stream tr = [] ∧ Filled stream tr := by
  have hserve : (serve qsort message client).Ensures w fun tr o w' => Cut stream tr →
      o = .ret 1 ∧ w' = afterLookup w a ∧ ∃ ok, tr = shortWrite (lenOf message) stream ok := by
    simp only [List.mem_cons, List.not_mem_nil, or_false] at hop
    rcases hop with hop | hop
    · rw [serve_writeFile hop]
      exact serverWriteAt_short hwf hm hc hlim ha hpath hlen
    · rw [serve_appendFile hop]
      exact serverWriteAt_short hwf hm hc hlim ha hpath hlen
  refine ensures_bind.mpr fun tr o w' hr => ?_
  have hshort := hserve tr o w' hr
  cases o with
  | ret r =>
      intro tr' o' w'' h' hcut
      obtain ⟨hcut, hcut'⟩ := cut_append.mp hcut
      obtain ⟨-, rfl, ok, rfl⟩ := hshort hcut
      have hleft : unread stream (shortWrite (lenOf message) stream ok) = [] := by
        simp [shortWrite]
      rw [hleft] at hcut'
      have hfill : ∀ tr'' : List (Event Mutex), Filled [] tr'' →
          Filled stream (shortWrite (lenOf message) stream ok ++ tr'') := by
        intro tr'' h
        refine filled_read_some.mpr ⟨fun hlt => hpath.resolve_left hlt.ne', ?_⟩
        exact filled_read_some.mpr ⟨fun _ => List.drop_length, by simpa using h⟩
      cases n with
      | zero =>
          obtain ⟨rfl, rfl, rfl⟩ := runs_ret.mp h'
          exact ⟨rfl, rfl, rfl, hleft, hfill [] trivial⟩
      | succ n =>
          obtain ⟨rfl, rfl, rfl⟩ := turn_nil h' hcut'
          exact ⟨rfl, rfl, rfl, by simp [shortWrite], hfill _ (by simp)⟩
  | exit => exact fun hcut => nomatch (hshort hcut).1
  | fault => exact fun hcut => nomatch (hshort hcut).1
  | blocked => exact fun hcut => nomatch (hshort hcut).1

/-- With the length cut after `j` bytes, which is too few of them. -/
theorem exists_shortWrite (hwf : w.st.WellFormed) (hc : client ≠ 0) {b : UInt8} (hb : b ≠ 0)
    (hop : opOf (wordOf [b]) ∈ [sapiWriteFile, sapiAppendFile])
    (ha : WriteReaches w client [] a) (qsort : Qsort Nat) (stream : List UInt8) {j : Nat}
    (hpos : 0 < j) (hj : j < 8) :
    ∃ tr o w', tr = .read 4 (some [b]) :: shortWrite 0 (stream.take j) false ∧ o ≠ .ret false ∧
      (serverTurns qsort client 1).Runs w tr o w' ∧ Cut (b :: stream) tr ∧
      Env.refusing.Gives 0 tr := by
  have hm : wordOf [b] ≠ 0 := fun h => hb (wordOf_singleton_eq_zero.mp h)
  have hlen : lenOf (wordOf [b]) = 0 := lenOf_wordOf_singleton b
  have hlt : (stream.take j).length < 8 := (List.length_take_le ..).trans_lt hj
  have hwrite : ∀ offset, (serverWriteAt qsort offset (wordOf [b]) client).Runs w
      (shortWrite 0 (stream.take j) false) (.ret 1) (afterLookup w a) := by
    intro offset
    rw [shortWrite, ← hlen, runs_serverWriteAt hwf hm hc (by rw [hlen]; decide) ha,
      checkReadResponse, runs_read_cons (fits_some.mpr hlt.le)]
    dsimp only
    rw [if_pos hlt, serverRespond, if_neg hc, write_bind]
    exact runs_write.mpr ⟨false, [], rfl, runs_ret.mpr ⟨rfl, rfl, rfl⟩⟩
  have hserve : (serve qsort (wordOf [b]) client).Runs w
      (shortWrite 0 (stream.take j) false) (.ret 1) (afterLookup w a) := by
    simp only [List.mem_cons, List.not_mem_nil, or_false] at hop
    rcases hop with hop | hop
    · rw [serve_writeFile hop]
      exact hwrite _
    · rw [serve_appendFile hop]
      exact hwrite _
  refine ⟨_, .ret true, afterLookup w a, rfl, by simp, ?_, ?_, rfl, trivial⟩
  · rw [runs_serverTurns_succ (by simp), if_neg hm]
    have hnext : (serverTurns qsort client 0).Runs (afterLookup w a) [] (.ret true)
        (afterLookup w a) := runs_ret.mpr ⟨rfl, rfl, rfl⟩
    exact hserve.bind hnext
  · refine cut_read.mpr ⟨1, by decide, fun _ _ => by decide, rfl, ?_⟩
    refine cut_read.mpr ⟨0, Nat.le_refl _, fun h => absurd h (by decide), rfl, ?_⟩
    exact cut_read.mpr ⟨j, hj.le, fun _ _ => hpos, rfl, trivial⟩

end ShortWrite

section Independent

variable {qsort : Qsort Nat} {client : Int} {w : World FileStorage Mutex} {bs rest : List UInt8}
  {a : Nat} {b c : UInt8}

/-- A write to the empty path in a stream of two bytes: whatever the word takes,
the rest is short of a length. -/
theorem writeTurn (hwf : w.st.WellFormed) (hc : client ≠ 0)
    (hop : opOf (wordOf [b, c]) ∈ [sapiWriteFile, sapiAppendFile])
    (ha : WriteReaches w client [] a) {n : Nat} {tr : List (Event Mutex)} {o : Out Bool}
    {w' : World FileStorage Mutex} (h : (serverTurns qsort client (n + 1)).Runs w tr o w')
    (hcut : Cut [b, c] tr) :
    responses tr = [.word sapiFailure] ∧ o = .ret (decide (n = 0)) ∧ w' = afterLookup w a ∧
      unread [b, c] tr = [] ∧ FilledAfterWord [b, c] tr := by
  obtain ⟨k, -, hpos, tr, rfl, hcut, hturn⟩ := turn_cases h hcut
  have hdrop := drop_length_take [b, c] k
  have hc256 : c.toNat < 256 := c.toNat_lt
  rw [opOf_wordOf_cons] at hop
  have hparts : opOf (wordOf ([b, c].take k)) ∈ [sapiWriteFile, sapiAppendFile] ∧
      ¬ lenOf (wordOf ([b, c].take k)) + 1 > muLimit ∧
      (lenOf (wordOf ([b, c].take k)) = 0 ∨ [b, c].drop k = []) ∧
      ([b, c].drop k).length ≤ 1 := by
    match k, hpos (by simp) with
    | 1, _ =>
        rw [show [b, c].take 1 = [b] from rfl, lenOf_wordOf_singleton]
        exact ⟨hop, by decide, .inl rfl, Nat.le_refl 1⟩
    | k + 2, _ =>
        rw [show [b, c].take (k + 2) = [b, c] by simp, lenOf_wordOf_pair, opOf_wordOf_cons,
          show [b, c].drop (k + 2) = [] by simp, muLimit]
        exact ⟨hop, by omega, .inr rfl, Nat.zero_le 1⟩
  obtain ⟨hop, hlim, hpath, hlen⟩ := hparts
  have hm : wordOf ([b, c].take k) ≠ 0 := by
    intro hm
    rw [hm] at hop
    exact absurd hop (by decide)
  obtain ⟨hz, -⟩ | ⟨-, h⟩ := hturn
  · exact absurd hz hm
  · obtain ⟨hresp, ho, hw, hleft, hfill⟩ :=
      shortWrite_turns hwf hm hc hop hlim ha hpath hlen _ _ _ h hcut
    rw [unread_read_some, hdrop]
    refine ⟨hresp, ho, hw, hleft, ?_⟩
    show Filled ([b, c].drop ([b, c].take k).length) tr
    rwa [hdrop]

theorem chunkIndependent_of_write (hwf : w.st.WellFormed) (hc : client ≠ 0)
    (hop : opOf (wordOf [b, c]) ∈ [sapiWriteFile, sapiAppendFile])
    (ha : WriteReaches w client [] a) : ChunkIndependent qsort client w [b, c] where
  agree turns env tr₁ tr₂ o₁ o₂ w₁ w₂ h₁ h₂ hc₁ hc₂ he₁ he₂ := by
    cases turns with
    | zero =>
        obtain ⟨rfl, rfl, rfl⟩ := runs_ret.mp h₁
        obtain ⟨rfl, rfl, rfl⟩ := runs_ret.mp h₂
        exact ⟨rfl, rfl, rfl, fun _ => rfl⟩
    | succ n =>
        obtain ⟨hr₁, rfl, rfl, hl₁, -⟩ := writeTurn hwf hc hop ha h₁ hc₁
        obtain ⟨hr₂, rfl, rfl, hl₂, -⟩ := writeTurn hwf hc hop ha h₂ hc₂
        exact ⟨hr₁.trans hr₂.symm, rfl, rfl, fun _ => hl₁.trans hl₂.symm⟩
  filled turns tr tr' o w' w'' h hcut h' hcut' := by
    cases turns with
    | zero =>
        obtain ⟨rfl, -, rfl⟩ := runs_ret.mp h
        exact (writeTurn hwf hc hop ha h' hcut').2.2.2.2
    | succ n =>
        obtain ⟨-, -, -, hleft, -⟩ := writeTurn hwf hc hop ha h hcut
        rw [hleft] at hcut' ⊢
        exact filledAfterWord_of_short hcut' (by simp)

theorem ChunkIndependent.first_ne_zero (h : ChunkIndependent qsort client w (b :: c :: rest))
    (hword : wordOf ((b :: c :: rest).take 4) ≠ 0) : b ≠ 0 := by
  rintro rfl
  obtain ⟨tr₁, o₁, w₁, h₁, hc₁, he₁⟩ := exists_turn qsort client w (0 :: c :: rest)
    (k := 1) (by decide) (by decide)
  obtain ⟨tr₂, o₂, w₂, h₂, hc₂, he₂⟩ := exists_turn qsort client w (0 :: c :: rest)
    (k := 4) (by decide) (by decide)
  obtain ⟨-, ho, -⟩ := h.agree 1 _ h₁ h₂ hc₁ hc₂ he₁ he₂
  rw [runs_serverTurns_succ (List.length_take_le ..), if_neg hword] at h₂
  rw [runs_serverTurns_succ (by simp), List.take_succ_cons, List.take_zero,
    if_pos (wordOf_singleton_eq_zero.mpr rfl)] at h₁
  obtain ⟨-, rfl, -⟩ := runs_ret.mp h₁
  exact served_ne_false h₂ ho.symm

/-- The first byte alone is a request that takes nothing more, unless it is a
write that gets to its file. -/
theorem ChunkIndependent.reaches (h : ChunkIndependent qsort client w (b :: c :: rest))
    (hb : b ≠ 0) :
    opOf (wordOf [b]) ∈ [sapiWriteFile, sapiAppendFile] ∧ ∃ a, WriteReaches w client [] a := by
  by_contra hnot
  obtain ⟨tr₁, o₁, w₁, h₁, hc₁, he₁⟩ := exists_turn qsort client w (b :: c :: rest)
    (k := 1) (by decide) (by decide)
  obtain ⟨tr₂, o₂, w₂, h₂, hc₂, he₂⟩ := exists_turn qsort client w (b :: c :: rest)
    (k := 4) (by decide) (by decide)
  obtain ⟨-, -, -, hleft⟩ := h.agree 1 _ h₁ h₂ hc₁ hc₂ he₁ he₂
  have hm : wordOf [b] ≠ 0 := fun h => hb (wordOf_singleton_eq_zero.mp h)
  rw [runs_serverTurns_succ (by simp), List.take_succ_cons, List.take_zero, if_neg hm] at h₁
  have hall := served_unread (lenOf_wordOf_singleton b) (fun hop hex => hnot ⟨hop, hex⟩) _ _ _ h₁
  replace hleft := hleft (served_ne_false h₁)
  rw [unread_read_some, unread_read_some, List.take_succ_cons, List.take_zero, hall] at hleft
  have hle := unread_length_le ((b :: c :: rest).drop ((b :: c :: rest).take 4).length) tr₂
  rw [← hleft] at hle
  simp only [List.length_drop, List.length_take, List.length_cons, List.length_nil] at hle
  omega

/-- With a third byte, the length of such a write is cut in two ways. -/
theorem ChunkIndependent.rest_eq_nil (h : ChunkIndependent qsort client w (b :: c :: rest))
    (hwf : w.st.WellFormed) (hc : client ≠ 0) (hb : b ≠ 0)
    (hop : opOf (wordOf [b]) ∈ [sapiWriteFile, sapiAppendFile])
    (ha : WriteReaches w client [] a) : rest = [] := by
  obtain ⟨_, o₁, w₁, rfl, ho, h₁, hc₁, he₁⟩ := exists_shortWrite hwf hc hb hop ha qsort
    (c :: rest) (j := 1) (by decide) (by decide)
  obtain ⟨_, o₂, w₂, rfl, -, h₂, hc₂, he₂⟩ := exists_shortWrite hwf hc hb hop ha qsort
    (c :: rest) (j := 2) (by decide) (by decide)
  obtain ⟨-, -, -, hleft⟩ := h.agree 1 _ h₁ h₂ hc₁ hc₂ he₁ he₂
  have hlen := congrArg List.length (hleft ho)
  simp only [shortWrite, unread_read_some, unread_write, unread_nil, List.length_drop,
    List.length_take, List.length_cons, List.length_nil] at hlen
  exact List.length_eq_zero_iff.mp (by omega)

end Independent

/-- A request to write two bytes to "a", as the client sends it. -/
def writeTwoBytes : List UInt8 :=
  LittleEndian.encode 4 (sapiMessageLen 0 sapiWriteFile 1).toNat ++
    ([97] ++ (LittleEndian.encode 8 2 ++ [1, 2]))

theorem empty_path_open :
    ∃ w, Reachable Qsort.insertion 1 10 w ∧ WriteReaches w 5 [] 0 := by
  have h₀ : Reachable Qsort.insertion 1 10 ⟨_, ∅⟩ := .init (by decide) (by decide) rfl
  have h₁ := h₀.created 5 [] rfl
  exact ⟨_, h₁, rfl, by decide, by decide, rfl⟩

/-- The request delivered whole, and then the end of the stream. -/
def wholeTrace : List (Event Mutex) :=
  [.read 4 (some (writeTwoBytes.take 4)), .read 1 (some [97]),
    .read 8 (some (LittleEndian.encode 8 2)), .write (.word sapiSuccess) true,
    .read 2 (some [1, 2]), .write (.word sapiSuccess) true, .read 4 (some [])]

/-- The request with its last byte late. -/
def lateTrace : List (Event Mutex) :=
  [.read 4 (some (writeTwoBytes.take 4)), .read 1 (some [97]),
    .read 8 (some (LittleEndian.encode 8 2)), .write (.word sapiSuccess) true,
    .read 2 (some [1]), .write (.word sapiSuccess) true, .read 4 (some [2]),
    .write (.word sapiFailure) true]

theorem two_deliveries : ∃ w w₁ w₂, Reachable Qsort.insertion 1 10 w ∧
    (serverTurns Qsort.insertion 5 2).Runs w wholeTrace (.ret false) w₁ ∧
    (serverTurns Qsort.insertion 5 2).Runs w lateTrace (.ret true) w₂ ∧
    (w₁.st.file 0).data = [1, 2] ∧ (w₂.st.file 0).data = [1, 0] := by
  have h₀ : Reachable Qsort.insertion 1 10 ⟨_, ∅⟩ := .init (by decide) (by decide) rfl
  have h₁ := h₀.created 5 [97] rfl
  exact ⟨_, _, _, h₁, rfl, rfl, rfl, rfl⟩

/-- The environment in which every write succeeds. -/
def willing : Env := ⟨fun _ => true, fun _ => []⟩

theorem whole_wholeTrace : Whole writeTwoBytes wholeTrace := by
  rw [wholeTrace]
  refine whole_read.mpr ⟨rfl, whole_read.mpr ⟨rfl, whole_read.mpr ⟨rfl, ?_⟩⟩⟩
  exact whole_read.mpr ⟨rfl, whole_read.mpr ⟨rfl, trivial⟩⟩

theorem cut_lateTrace : Cut writeTwoBytes lateTrace := by
  rw [lateTrace]
  refine cut_read.mpr ⟨4, Nat.le_refl _, fun _ _ => by decide, rfl, ?_⟩
  refine cut_read.mpr ⟨1, Nat.le_refl _, fun _ _ => by decide, rfl, ?_⟩
  refine cut_read.mpr ⟨8, Nat.le_refl _, fun _ _ => by decide, rfl, ?_⟩
  refine cut_read.mpr ⟨1, by decide, fun _ _ => by decide, rfl, ?_⟩
  exact cut_read.mpr ⟨1, by decide, fun _ _ => by decide, rfl, trivial⟩

end LsoStore
