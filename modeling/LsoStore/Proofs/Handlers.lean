import LsoStore.Proofs.Sessions
import LsoStore.Proofs.WellFormed

/-!
# The handlers and a client that waits

What each handler does for a client that has sent its request and waits for
the answer, with nothing on its way to it. It sends its answers, or it does not
come back: the server exits, or it waits for a mutex it holds itself or for a
length that the client does not send.
-/

namespace LsoStore

open Proc Talk FileStorage

/-- The server does not come back from this while the client waits. -/
inductive Stopped : ServerM Int → World FileStorage Mutex → Inbox → Prop where
  | exit (v : World FileStorage Mutex) (ts : Inbox) : Stopped .exit v ts
  | lock {m : Mutex} {v : World FileStorage Mutex} (q : ServerM Int) (ts : Inbox) :
      m ∈ v.held → Stopped (.lock m q) v ts
  | read (k : Option (List UInt8) → ServerM Int) (v : World FileStorage Mutex) :
      Stopped (.read 8 k) v []

theorem Stopped.idle {q : ServerM Int} {v : World FileStorage Mutex} {ts : Inbox}
    (h : Stopped q v ts) : Idle q v ts := by
  cases h with
  | exit v ts => exact idle_exit v ts
  | lock q ts hm => exact idle_lock hm q ts
  | read k v => exact idle_read (by decide) k v

theorem Stopped.ne_ret {q : ServerM Int} {v : World FileStorage Mutex} {ts : Inbox}
    (h : Stopped q v ts) (r : Int) : q ≠ .ret r := by
  cases h with
  | exit => intro he; cases he
  | lock => intro he; cases he
  | read => intro he; cases he

/-- The client waits for an answer, and the server may fail to come back. -/
structure Waits (Q : Talk Saved Empty Int FileStorage Mutex Int → Prop) (p : ClientM Int)
    (w : World Saved Empty) : Prop where
  idle : Idle p w []
  stop : ∀ q v ts, Stopped q v ts → Q ⟨p, w, q, v, ts, []⟩

/-! ## The dispatch -/

section Dispatch

variable {qsort : Qsort Nat} {client : Int} {message : SMessage}

theorem serve_openFile (h : opOf message = sapiOpenFile) :
    serve qsort message client = serverOpenFile message client := by
  rw [serve, if_pos h]

theorem serve_closeFile (h : opOf message = sapiCloseFile) :
    serve qsort message client = serverCloseFile message client := by
  simp only [serve, h]
  rfl

theorem serve_readFile (h : opOf message = sapiReadFile) :
    serve qsort message client = serverReadFile message client := by
  simp only [serve, h]
  rfl

theorem serve_readNFiles (h : opOf message = sapiReadNFiles) :
    serve qsort message client = serverReadNFiles message client := by
  simp only [serve, h]
  rfl

theorem serve_writeFile (h : opOf message = sapiWriteFile) :
    serve qsort message client = serverWriteAt qsort (fun _ => 0) message client := by
  simp only [serve, h]
  rfl

theorem serve_appendFile (h : opOf message = sapiAppendFile) :
    serve qsort message client = serverWriteAt qsort FileData.dataLen message client := by
  simp only [serve, h]
  rfl

theorem serve_removeFile (h : opOf message = sapiRemoveFile) :
    serve qsort message client = serverRemoveFile message client := by
  simp only [serve, h]
  rfl

/-- Neither locking handler does anything. -/
theorem serve_lock (hc : client ≠ 0) (hm : message ≠ 0)
    (h : opOf message = sapiLockFile ∨ opOf message = sapiUnlockFile) :
    serve qsort message client = .ret 0 := by
  rcases h with h | h
  · simp only [serve, h]
    exact if_neg (not_or.mpr ⟨hm, hc⟩)
  · simp only [serve, h]
    exact if_neg (not_or.mpr ⟨hm, hc⟩)

end Dispatch

/-- Something is sent for the path, and its length gets through in the request
word, or the server exits on the length that does. -/
def PathFits (path : List UInt8) : Prop :=
  path ≠ [] ∧ (path.length < 2 ^ 24 ∨ path.length % 2 ^ 24 + 1 > muLimit)

/-- A request that is served with `i` before it is one for `name`, and leaves
`rest`, or the server exits on the length of the path. -/
def TakesPath (message : SMessage) (name : List UInt8) (i rest : Inbox) : Prop :=
  lenOf message + 1 > muLimit ∨ ∃ b i', i = b :: i' ∧ b ≠ [] ∧ lenOf message ≤ b.length ∧
    name = cString (b.take (lenOf message)) ∧ rest = leftover (lenOf message) b ++ i'

theorem takesPath_take {message : SMessage} {path : List UInt8} (hne : path ≠ [])
    (hlen : lenOf message = path.length % 2 ^ 24) (ts : Inbox) :
    TakesPath message (cString (path.take (path.length % 2 ^ 24))) (path :: ts)
      (leftover (path.length % 2 ^ 24) path ++ ts) := by
  rw [← hlen]
  exact .inr ⟨path, ts, rfl, hne, hlen ▸ Nat.mod_le .., rfl, rfl⟩

theorem PathFits.takesPath {message : SMessage} {path : List UInt8} (hfit : PathFits path)
    (hlen : lenOf message = path.length % 2 ^ 24) (ts : Inbox) :
    TakesPath message (cString path) (path :: ts) ts := by
  obtain ⟨hne, hshort | hlong⟩ := hfit
  · rw [Nat.mod_eq_of_lt hshort] at hlen
    refine .inr ⟨path, ts, rfl, hne, hlen.le, ?_, ?_⟩
    · rw [hlen, List.take_length]
    · rw [leftover_of_eq hlen.symm, List.nil_append]
  · exact .inl (hlen ▸ hlong)

section Waits

variable {Q : Talk Saved Empty Int FileStorage Mutex Int → Prop} {p : ClientM Int}
  {w : World Saved Empty} {q : ServerM Int} {v : World FileStorage Mutex} {ts rest : Inbox}
  {client : Int} {message : SMessage} {path : List UInt8}

theorem Waits.stopped (h : Waits Q p w) (hs : Stopped q v ts) :
    Flows Q ⟨p, w, q, v, ts, []⟩ :=
  .of_idle h.idle hs.idle (h.stop _ _ _ hs)

theorem Waits.lock (h : Waits Q p w) {m : Mutex}
    (hk : m ∉ v.held → Flows Q ⟨p, w, q, { v with held := insert m v.held }, ts, []⟩) :
    Flows Q ⟨p, w, .lock m q, v, ts, []⟩ := by
  by_cases hm : m ∈ v.held
  · exact h.stopped (.lock q ts hm)
  · exact (flows_server_lock hm).mpr (hk hm)

theorem Waits.getPath (h : Waits Q p w) (hm : message ≠ 0) (hc : client ≠ 0)
    (htakes : TakesPath message path ts rest) {k : Option (List UInt8) → ServerM Int}
    (hk : Flows Q ⟨p, w, k (some path), v, rest, []⟩) :
    Flows Q ⟨p, w, serverGetPath message client >>= k, v, ts, []⟩ := by
  rw [serverGetPath, if_neg (not_or.mpr ⟨hm, hc⟩), muCalloc]
  by_cases hlim : lenOf message + 1 > muLimit
  · rw [if_pos hlim]
    exact h.stopped (.exit v _)
  · obtain ⟨b, i, rfl, hne, hle, rfl, rfl⟩ := htakes.resolve_left hlim
    rw [if_neg hlim, read_bind, flows_server_read_le hne hle]
    exact hk

/-- The start of the handlers: look the file up, and lock it if it is there. -/
theorem Waits.withFile (h : Waits Q p w) (hwf : v.st.WellFormed) {k : Option Nat → ServerM Int}
    {k' : Nat → FileData → ServerM Int}
    (heq : ∀ a, k (some a) = .lock (.file a) (deref a (k' a)))
    (hnone : v.st.table.huGet path = none → Flows Q ⟨p, w, k none, v, ts, []⟩)
    (hsome : ∀ a f, v.st.table.huGet path = some a → Mutex.file a ∉ v.held →
      (v.st.fuGetfile path).2.heap a = some f →
      Flows Q ⟨p, w, k' a f, ⟨(v.st.fuGetfile path).2, insert (.file a) v.held⟩, ts, []⟩) :
    Flows Q ⟨p, w, getfile path k, v, ts, []⟩ := by
  rw [flows_getfile]
  cases hg : v.st.table.huGet path with
  | none =>
      have hst : (v.st.fuGetfile path).2 = v.st := by rw [fuGetfile_snd, hg]
      rw [hst]
      exact hnone hg
  | some a =>
      rw [heq]
      refine h.lock fun hm => ?_
      have hwf' : (v.st.fuGetfile path).2.WellFormed :=
        hwf.fuGetfile path
      have ha : a ∈ (v.st.fuGetfile path).2.ptrs := by
        rw [fuGetfile_ptrs]
        exact WellFormed.huGet_mem_ptrs hg
      obtain ⟨f, hf⟩ := Option.ne_none_iff_exists'.mp (hwf'.accounted.live a ha)
      exact (flows_deref hf).mpr (hsome a f hg hm hf)

end Waits

/-- However the client waits, the program sends it one word and returns with
`rest` unread, or it does not come back. -/
def Answers (q : ServerM Int) (v : World FileStorage Mutex) (ts rest : Inbox) : Prop :=
  ∀ ⦃Q : Talk Saved Empty Int FileStorage Mutex Int → Prop⦄ ⦃p : ClientM Int⦄
    ⦃w : World Saved Empty⦄, Waits Q p w →
    (∀ (m : SMessage) r v',
      Flows Q ⟨p, w, .ret r, v', rest, [LittleEndian.encode 4 m.toNat]⟩) →
    Flows Q ⟨p, w, q, v, ts, []⟩

section Answers

variable {v : World FileStorage Mutex} {ts rest : Inbox} {client : Int} {message : SMessage}
  {path : List UInt8}

theorem serverCloseFile_answers (hwf : v.st.WellFormed) (hc : client ≠ 0) (hm : message ≠ 0)
    (htakes : TakesPath message path ts rest) :
    Answers (serverCloseFile message client) v ts rest := by
  intro Q p w hw hans
  rw [serverCloseFile, if_neg (not_or.mpr ⟨hm, hc⟩)]
  refine hw.getPath hm hc htakes (hw.withFile hwf (fun _ => rfl) (fun _ => ?_)
    fun a f _ _ _ => ?_)
  · rw [flows_sapiRespond hc]
    exact hans ..
  · split
    · rw [flows_server_unlock, flows_sapiRespond hc]
      exact hans ..
    · rw [flows_assign, flows_server_unlock, flows_sapiRespond hc]
      exact hans ..

theorem serverCreateFile_answers (hc : client ≠ 0) :
    Answers (serverCreateFile message client path) v ts ts := by
  intro Q p w hw hans
  have hnew : (v.st.fuAllocFileData []).1 = v.st.next := rfl
  have hs : (v.st.fuAllocFileData []).2 = (v.st.place ⟨[], -1, 0, []⟩).2 := rfl
  rw [serverCreateFile, flows_server_get]
  dsimp only
  rw [hnew, hs, flows_server_set, flows_takeOwnership]
  dsimp only
  rw [FileStorage.place_modifyFile]
  set f := FileData.openedBy ⟨[], -1, 0, []⟩ message client
  refine hw.lock fun hm => ?_
  rw [flows_server_get]
  dsimp only
  split
  · rw [flows_server_unlock, flows_server_get, flows_server_set, flows_sapiRespond hc]
    exact hans ..
  · next hroom =>
      have hfiles : v.st.fuStorageFilesAvailable ≠ 0 := fun h => hroom (.inr h)
      have herr := fuAddFile_place (s := v.st) (f := f) rfl hfiles path
      rw [flows_server_set, herr, if_neg (by decide), flows_server_unlock,
        flows_sapiRespond hc]
      exact hans ..

theorem serverOpenFile_answers (hwf : v.st.WellFormed) (hc : client ≠ 0) (hm : message ≠ 0)
    (htakes : TakesPath message path ts rest) :
    Answers (serverOpenFile message client) v ts rest := by
  intro Q p w hw hans
  rw [serverOpenFile, if_neg (not_or.mpr ⟨hm, hc⟩)]
  refine hw.getPath hm hc htakes (hw.withFile hwf (fun _ => rfl) (fun _ => ?_)
    fun a f _ _ _ => ?_)
  · dsimp only
    split
    · rw [flows_sapiRespond hc]
      exact hans ..
    · exact serverCreateFile_answers hc hw hans
  · split
    · rw [flows_server_unlock, flows_sapiRespond hc]
      exact hans ..
    · rw [flows_takeOwnership, flows_server_unlock, flows_sapiRespond hc]
      exact hans ..

theorem serverRemoveFile_answers (hwf : v.st.WellFormed) (hc : client ≠ 0)
    (hm : message ≠ 0) (htakes : TakesPath message path ts rest) :
    Answers (serverRemoveFile message client) v ts rest := by
  intro Q p w hw hans
  rw [serverRemoveFile, if_neg (not_or.mpr ⟨hm, hc⟩)]
  refine hw.getPath hm hc htakes (hw.lock fun _ =>
    hw.withFile (v := ⟨v.st, insert .storage v.held⟩) hwf (fun _ => rfl) (fun _ => ?_)
      fun a f _ _ _ => ?_)
  · dsimp only
    rw [flows_server_unlock, flows_sapiRespond hc]
    exact hans ..
  · split
    · rw [flows_server_unlock, flows_server_unlock, flows_sapiRespond hc]
      exact hans ..
    · rw [flows_server_unlock, flows_server_unspec]
      intro freed
      rw [flows_removefile, flows_server_unlock, flows_sapiRespond hc]
      exact hans ..

end Answers

section Data

variable {Q : Talk Saved Empty Int FileStorage Mutex Int → Prop} {p : ClientM Int}
  {w : World Saved Empty} {v : World FileStorage Mutex} {ts rest : Inbox} {client : Int}
  {message : SMessage} {path : List UInt8}

/-- The client may read the file. -/
def Readable (f : FileData) (client : Int) : Prop :=
  ¬ ((f.client ≠ 0 ∧ f.client ≠ client) ∨ (hasFlag f.dataInfo oLock ∧ f.client ≠ client))

/-- A read is refused with one word, or granted with one and then the data. -/
theorem Waits.readFile (hw : Waits Q p w) (hwf : v.st.WellFormed) (hc : client ≠ 0)
    (hm : message ≠ 0) (htakes : TakesPath message path ts rest)
    (hno : ∀ m r v', m ≠ sapiSuccess →
      Flows Q ⟨p, w, .ret r, v', rest, [LittleEndian.encode 4 m.toNat]⟩)
    (hyes : ∀ a f v', v.st.table.huGet path = some a → Mutex.file a ∉ v.held →
      (v.st.fuGetfile path).2.heap a = some f → Readable f client →
      Flows Q ⟨p, w, .ret 0, v', rest,
        LittleEndian.encode 4 sapiSuccess.toNat :: dataChunks f.data⟩) :
    Flows Q ⟨p, w, serverReadFile message client, v, ts, []⟩ := by
  rw [serverReadFile, if_neg (not_or.mpr ⟨hm, hc⟩)]
  refine hw.getPath hm hc htakes (hw.withFile hwf (fun _ => rfl) (fun _ => ?_)
    fun a f ha hfree hf => ?_)
  · dsimp only
    rw [flows_sapiRespond hc]
    exact hno _ _ _ (by decide)
  · split
    · rw [flows_server_unlock, flows_sapiRespond hc]
      exact hno _ _ _ (by decide)
    · next hread =>
        rw [flows_sapiRespond hc, flows_serverSendData_bind hc, flows_server_unlock]
        exact hyes a f _ ha hfree hf hread

/-- A write is refused before its length is read, or goes on to read it. -/
theorem Waits.writeAt (hw : Waits Q p w) (hwf : v.st.WellFormed) (hc : client ≠ 0)
    (hm : message ≠ 0) (htakes : TakesPath message path ts rest)
    (qsort : Qsort Nat) (offset : FileData → Nat)
    (hno : ∀ m r v', Mutex.storage ∉ v.held →
      (∀ a, v.st.table.huGet path = some a →
        Mutex.file a ∉ v.held ∧ (v.st.file a).client ≠ client) →
      m ≠ sapiSuccess → m ≠ sapiEvictMsg →
      Flows Q ⟨p, w, .ret r, v', rest, [LittleEndian.encode 4 m.toNat]⟩)
    (hyes : ∀ a, v.st.table.huGet path = some a → Mutex.storage ∉ v.held →
      Mutex.file a ∉ v.held → (v.st.file a).client = client →
      Flows Q ⟨p, w, checkReadResponse client fun n =>
          serverMakeRoom qsort offset client a n,
        ⟨(v.st.fuGetfile path).2, insert (.file a) (insert .storage v.held)⟩,
        rest, []⟩) :
    Flows Q ⟨p, w, serverWriteAt qsort offset message client, v, ts, []⟩ := by
  rw [serverWriteAt, if_neg (not_or.mpr ⟨hm, hc⟩)]
  refine hw.getPath hm hc htakes (hw.lock fun hstorage =>
    hw.withFile (v := ⟨v.st, insert .storage v.held⟩) hwf (fun _ => rfl) (fun hnone => ?_)
      fun a f ha hfile hf => ?_)
  · dsimp only
    rw [flows_server_unlock, flows_sapiRespond hc]
    exact hno _ _ _ hstorage (fun a ha => by simp [hnone] at ha) (by decide) (by decide)
  · have hfile : Mutex.file a ∉ v.held := fun h => hfile (Finset.mem_insert_of_mem h)
    have howner := fuGetfile_client _ hf
    split
    · next hforeign =>
        rw [flows_server_unlock, flows_sapiRespond hc]
        refine hno _ _ _ hstorage (fun b hb => ?_) (by decide) (by decide)
        obtain rfl : a = b := Option.some.inj (ha.symm.trans hb)
        exact ⟨hfile, howner ▸ hforeign⟩
    · next hown => exact hyes a ha hstorage hfile (howner.trans (not_not.mp hown))

/-- A write whose length never comes is refused or waits for it. -/
theorem serverWriteAt_answers (hwf : v.st.WellFormed) (hc : client ≠ 0) (hm : message ≠ 0)
    (htakes : TakesPath message path ts []) (qsort : Qsort Nat) (offset : FileData → Nat) :
    Answers (serverWriteAt qsort offset message client) v ts [] := by
  intro Q p w hw hans
  refine hw.writeAt hwf hc hm htakes qsort offset (fun m r v' _ _ _ _ => hans m r v')
    fun a _ _ _ _ => ?_
  rw [checkReadResponse]
  exact hw.stopped (.read _ _)

/-- The requests that are a word and a path, and their one answer. -/
theorem serve_answers (hwf : v.st.WellFormed) (hc : client ≠ 0)
    (hop : opOf message ∈ [sapiOpenFile, sapiCloseFile, sapiRemoveFile])
    (htakes : TakesPath message path ts rest) (qsort : Qsort Nat) :
    Answers (serve qsort message client) v ts rest := by
  have hm : message ≠ 0 := by
    intro heq
    subst heq
    exact absurd hop (by decide)
  simp only [List.mem_cons, List.not_mem_nil, or_false] at hop
  rcases hop with h | h | h
  · rw [serve_openFile h]
    exact serverOpenFile_answers hwf hc hm htakes
  · rw [serve_closeFile h]
    exact serverCloseFile_answers hwf hc hm htakes
  · rw [serve_removeFile h]
    exact serverRemoveFile_answers hwf hc hm htakes

/-- An append without its length is one as well. -/
theorem serve_answers_append (hwf : v.st.WellFormed) (hc : client ≠ 0)
    (hop : opOf message = sapiAppendFile) (htakes : TakesPath message path ts [])
    (qsort : Qsort Nat) : Answers (serve qsort message client) v ts [] := by
  rw [serve_appendFile hop]
  exact serverWriteAt_answers hwf hc (ne_zero_of_opOf hop (by decide)) htakes qsort
    FileData.dataLen

/-- A request with an unknown operation is answered at once. -/
theorem serve_answers_unknown (hc : client ≠ 0) (hop : opOf message ∉ knownOps)
    (qsort : Qsort Nat) : Answers (serve qsort message client) v ts ts := by
  intro Q p w _ hans
  simp only [knownOps, List.mem_cons, List.not_mem_nil, or_false, not_or] at hop
  simp only [serve, hop, if_false]
  rw [flows_serverRespond_bind hc]
  exact hans ..

theorem flows_serverMakeRoom_fits (hc : client ≠ 0) {qsort : Qsort Nat}
    {offset : FileData → Nat} {file n : Nat} {tc : Inbox}
    (hfits : ¬ v.st.fuStorageBytesAvailable < n) :
    Flows Q ⟨p, w, serverMakeRoom qsort offset client file n, v, ts, tc⟩ ↔
      Flows Q ⟨p, w, receiveData client file n offset,
        { v with held := v.held.erase .storage }, ts,
        tc ++ [LittleEndian.encode 4 sapiSuccess.toNat]⟩ := by
  rw [serverMakeRoom, flows_server_get, if_neg hfits, flows_serverRespond_bind hc,
    if_neg (by decide), flows_server_unlock]

/-- With room for them, the bytes a client sends are stored. -/
theorem flows_receiveData_fits (hp : Idle p w [])
    (hexit : ∀ v ts, Q ⟨p, w, .exit, v, ts, []⟩) (hc : client ≠ 0) (hwf : v.st.WellFormed)
    {a : Nat} {data : List UInt8} {offset : FileData → Nat}
    (hoff : ∀ f, offset f ≤ f.dataLen) (hne : data ≠ []) (ha : a ∈ v.st.ptrs)
    (hroom : data.length ≤ v.st.maxBytes - v.st.currBytes)
    (hdone : ∀ v', v'.st.ptrs = v.st.ptrs →
      (v'.st.file a).data = (v.st.file a).data.take (offset (v.st.file a)) ++ data →
      Flows Q ⟨p, w, .ret 0, v', ts, [LittleEndian.encode 4 sapiSuccess.toNat]⟩) :
    Flows Q ⟨p, w, receiveData client a data.length offset, v, data :: ts, []⟩ := by
  have hpos : 0 < data.length := List.length_pos_of_ne_nil hne
  rw [receiveData, muCalloc]
  split
  · exact .of_idle hp (idle_exit _ _) (hexit _ _)
  rw [flows_server_read rfl hpos]
  dsimp only
  obtain ⟨f, hf⟩ := Option.ne_none_iff_exists'.mp (hwf.accounted.live a ha)
  have hff := file_eq _ hf
  rw [flows_deref hf, flows_server_get, if_neg (by omega), Nat.sub_self, List.replicate_zero,
    List.append_nil]
  have hi : offset f ≤ (v.st.file a).dataLen := hff ▸ hoff f
  have hle := hwf.accounted.dataLen_le ha
  have hwrite := hwf.accounted.fuWritefile_of_fits ha (d := data) hpos (by omega) hi (by omega)
  rw [hwrite]
  by_cases hmax : offset f + data.length > muLimit
  · rw [if_pos hmax]
    exact .of_idle hp (idle_exit _ _) (hexit _ _)
  · rw [if_neg hmax]
    dsimp only
    rw [flows_server_set, if_neg (by decide), flows_serverRespond_bind hc, if_neg (by decide),
      flows_server_unlock]
    refine hdone _ rfl ?_
    show (FileStorage.file _ a).data = _
    rw [hff]
    simp [FileStorage.file, hf]

end Data

end LsoStore
