import LsoStore.Proofs.EvictDialogue
import LsoStore.Proofs.Packing
import LsoStore.Proofs.Served

/-!
# Calls over a connection

Each call of the client's library with the turn the server takes for it, as an
exchange: from one storage with no mutex held to the next.
-/

namespace LsoStore

open Proc Talk FileStorage

variable {qsort : Qsort Nat} {client : Int} {s s' : FileStorage} {w : World Saved Empty}
  {path data : List UInt8} {a : Nat}

/-- A path the client can send. -/
structure Sendable (path : List UInt8) : Prop where
  ne : path ≠ []
  text : (0 : UInt8) ∉ path
  short : path.length + 1 ≤ muLimit

theorem Sendable.sent (h : Sendable path) (op flags : BitVec 8) :
    SentPath (pathRequest op flags path) path := by
  refine ⟨h.ne, h.text, h.short, ?_⟩
  have hlim : muLimit = 2 ^ 22 := rfl
  have hshort := h.short
  rw [lenOf_pathRequest, Nat.mod_eq_of_lt (by omega)]

/-- A call with a path and one answer, and what the server sends after it. -/
theorem leads_sapiPathOp {op flags : BitVec 8} {m : SMessage} {rest : Inbox}
    (hne : path ≠ []) (hm : pathRequest op flags path ≠ 0)
    (h : AnswersWith (serve qsort (pathRequest op flags path) client) s [path]
      (answerWord m ++ rest) s')
    (n : Nat) :
    Leads ⟨sapiPathOp op flags path (.ret 0), w, serverTurns qsort client (n + 1), ⟨s, ∅⟩, [], []⟩
      ⟨.ret (if m ≠ sapiSuccess then -1 else 0), w, serverTurns qsort client n, ⟨s', ∅⟩, [],
        rest⟩ := by
  intro Q hf
  obtain ⟨r, hr⟩ := h
  rw [flows_sapiPathOp hne hm]
  refine ((hr _ w).onServer fun _ => serverTurns qsort client n) ?_
  show Flows Q ⟨sapiGetResponse >>= _, w, serverTurns qsort client n, ⟨s', ∅⟩, [],
    LittleEndian.encode 4 m.toNat :: rest⟩
  rw [flows_sapiGetResponse_bind]
  by_cases hs : m ≠ sapiSuccess
  · rw [if_pos hs]
    rwa [if_pos hs] at hf
  · rw [if_neg hs]
    rwa [if_neg hs] at hf

theorem exchanges_sapiPathOp {op flags : BitVec 8} {m : SMessage}
    (hne : path ≠ []) (hm : pathRequest op flags path ≠ 0)
    (h : AnswersWith (serve qsort (pathRequest op flags path) client) s [path] (answerWord m) s') :
    Exchanges (serverTurns qsort client) 1 (sapiPathOp op flags path (.ret 0)) w ⟨s, ∅⟩
      (if m ≠ sapiSuccess then -1 else 0) w ⟨s', ∅⟩ :=
  leads_sapiPathOp hne hm (by rwa [List.append_nil])

theorem pathRequest_ne_zero {op flags : BitVec 8} (h : (flags ||| op) &&& 0xFC ≠ 0) :
    pathRequest op flags path ≠ 0 :=
  ne_zero_of_opOf (opOf_pathRequest op flags path) h

theorem hasFlag_pathRequest (op flags flag : BitVec 8) :
    hasFlag (pathRequest op flags path) flag = decide ((flags ||| op) &&& flag ≠ 0) := by
  rw [hasFlag_eq, pathRequest, truncate_sapiMessageLen]

/-! ## Opening and closing -/

section OpenClose

theorem openRequest_ne_zero (path : List UInt8) :
    pathRequest sapiOpenFile ((0 : BitVec 32).truncate 8) path ≠ 0 :=
  pathRequest_ne_zero (by decide)

theorem createRequest_ne_zero (path : List UInt8) :
    pathRequest sapiOpenFile ((oCreate.zeroExtend 32).truncate 8) path ≠ 0 :=
  pathRequest_ne_zero (by decide)

theorem closeRequest_ne_zero (path : List UInt8) : pathRequest sapiCloseFile 0 path ≠ 0 :=
  pathRequest_ne_zero (by decide)

theorem readRequest_ne_zero (path : List UInt8) : pathRequest sapiReadFile 0 path ≠ 0 :=
  pathRequest_ne_zero (by decide)

/-- What `server_openFile` answers is what the call makes of it. -/
theorem exchanges_openFile {flags : BitVec 32} {m : SMessage} (hp : Sendable path)
    (hop : (flags.truncate 8 ||| sapiOpenFile) &&& 0xFC = sapiOpenFile)
    (h : AnswersWith (serverOpenFile (pathRequest sapiOpenFile (flags.truncate 8) path) client) s
      [path] (answerWord m) s') :
    Exchanges (serverTurns qsort client) 1 (openFile path flags) w ⟨s, ∅⟩
      (if m ≠ sapiSuccess then -1 else 0) w ⟨s', ∅⟩ := by
  have hop := (opOf_pathRequest sapiOpenFile (flags.truncate 8) path).trans hop
  refine exchanges_sapiPathOp hp.ne (ne_zero_of_opOf hop (by decide)) ?_
  rwa [serve_openFile hop]

theorem exchanges_openFile_missing (hc : client ≠ 0) (hp : Sendable path)
    (hget : s.table.huGet path = none) :
    Exchanges (serverTurns qsort client) 1 (openFile path 0) w ⟨s, ∅⟩ (-1) w ⟨s, ∅⟩ := by
  refine exchanges_openFile hp (by decide) (openFile_missing hc (openRequest_ne_zero path)
    (hp.sent ..) hget ?_)
  rw [hasFlag_pathRequest]
  decide

variable (qsort w) in
theorem exchanges_openFile_busy (hwf : s.WellFormed) (hc : client ≠ 0) (hp : Sendable path)
    (hget : s.table.huGet path = some a) (hbusy : (s.file a).client ≠ -1) :
    ∃ s', Exchanges (serverTurns qsort client) 1 (openFile path 0) w ⟨s, ∅⟩ (-1) w ⟨s', ∅⟩ ∧
      Touched s a (s.file a).client s' := by
  obtain ⟨s', hs, ht⟩ := openFile_busy hwf hc (openRequest_ne_zero path) (hp.sent ..)
    hget hbusy
  exact ⟨s', exchanges_openFile hp (by decide) hs, ht⟩

variable (qsort w) in
theorem exchanges_openFile_free (hwf : s.WellFormed) (hc : client ≠ 0) (hp : Sendable path)
    (hget : s.table.huGet path = some a) (hfree : (s.file a).client = -1) :
    ∃ s', Exchanges (serverTurns qsort client) 1 (openFile path 0) w ⟨s, ∅⟩ 0 w ⟨s', ∅⟩ ∧
      Touched s a client s' := by
  obtain ⟨s', hs, ht⟩ := openFile_free hwf hc (openRequest_ne_zero path) (hp.sent ..)
    hget hfree
  exact ⟨s', exchanges_openFile hp (by decide) hs, ht⟩

variable (qsort w) in
theorem exchanges_openFile_creates (hwf : s.WellFormed) (hc : client ≠ 0) (hp : Sendable path)
    (hget : s.table.huGet path = none) (hfiles : s.currFiles < s.maxFiles)
    (hbytes : s.currBytes < s.maxBytes) :
    ∃ s', Exchanges (serverTurns qsort client) 1 (openFile path (oCreate.zeroExtend 32)) w
        ⟨s, ∅⟩ 0 w ⟨s', ∅⟩ ∧
      Grown s path [] client s.next s' := by
  have hflag : hasFlag (pathRequest sapiOpenFile ((oCreate.zeroExtend 32).truncate 8) path)
      oCreate = true := by
    rw [hasFlag_pathRequest]
    decide
  obtain ⟨s', hs, hg⟩ := openFile_creates hwf hc (createRequest_ne_zero path) (hp.sent ..)
    hget hflag hfiles hbytes
  exact ⟨s', exchanges_openFile hp (by decide) hs, hg⟩

theorem exchanges_closeFile {m : SMessage} (hp : Sendable path)
    (h : AnswersWith (serverCloseFile (pathRequest sapiCloseFile 0 path) client) s [path]
      (answerWord m) s') :
    Exchanges (serverTurns qsort client) 1 (closeFile path) w ⟨s, ∅⟩
      (if m ≠ sapiSuccess then -1 else 0) w ⟨s', ∅⟩ := by
  have hop : opOf (pathRequest sapiCloseFile 0 path) = sapiCloseFile := opOf_pathRequest ..
  refine exchanges_sapiPathOp hp.ne (ne_zero_of_opOf hop (by decide)) ?_
  rwa [serve_closeFile hop]

theorem exchanges_closeFile_missing (hc : client ≠ 0) (hp : Sendable path)
    (hget : s.table.huGet path = none) :
    Exchanges (serverTurns qsort client) 1 (closeFile path) w ⟨s, ∅⟩ (-1) w ⟨s, ∅⟩ :=
  exchanges_closeFile hp
    (closeFile_missing hc (closeRequest_ne_zero path) (hp.sent ..) hget)

variable (qsort w) in
theorem exchanges_closeFile_foreign (hwf : s.WellFormed) (hc : client ≠ 0) (hp : Sendable path)
    (hget : s.table.huGet path = some a) (hforeign : (s.file a).client ≠ client) :
    ∃ s', Exchanges (serverTurns qsort client) 1 (closeFile path) w ⟨s, ∅⟩ (-1) w ⟨s', ∅⟩ ∧
      Touched s a (s.file a).client s' := by
  obtain ⟨s', hs, ht⟩ := closeFile_foreign hwf hc (closeRequest_ne_zero path) (hp.sent ..)
    hget hforeign
  exact ⟨s', exchanges_closeFile hp hs, ht⟩

variable (qsort w) in
theorem exchanges_closeFile_own (hwf : s.WellFormed) (hc : client ≠ 0) (hp : Sendable path)
    (hget : s.table.huGet path = some a) (hown : (s.file a).client = client) :
    ∃ s', Exchanges (serverTurns qsort client) 1 (closeFile path) w ⟨s, ∅⟩ 0 w ⟨s', ∅⟩ ∧
      Touched s a (-1) s' := by
  obtain ⟨s', hs, ht⟩ := closeFile_own hwf hc (closeRequest_ne_zero path) (hp.sent ..)
    hget hown
  exact ⟨s', exchanges_closeFile hp hs, ht⟩

end OpenClose

/-! ## Reading -/

section Read

variable {size : Nat}

/-- What follows the answer can be put after the call. -/
theorem sapiPathOp_eq (op flags : BitVec 8) (path : List UInt8) (k : ClientM Int) :
    sapiPathOp op flags path k =
      sapiPathOp op flags path (.ret 0) >>= fun r => if r ≠ 0 then .ret (-1) else k := by
  simp only [sapiPathOp, bind_assoc]
  congr 1
  funext r
  split
  · rfl
  · rw [bind_assoc]
    congr 1
    funext r
    split
    · rfl
    · rw [bind_assoc]
      congr 1
      funext m
      split
      · rfl
      · rfl

/-- `readFile` as it stands in the library answers 0 with some data and -1
without. -/
theorem readFile_eq (path : List UInt8) (size : Nat) :
    LsoStore.readFile path size = Connected.readFile path size >>= fun r =>
      .ret (if r.1.isSome then 0 else -1) := by
  rw [LsoStore.readFile, Connected.readFile, sapiPathOp_eq, bind_assoc]
  congr 1
  funext r
  split
  · rfl
  · congr 1
    funext r
    obtain ⟨data, size⟩ := r
    cases data with
    | none => rfl
    | some data => rfl

theorem exchanges_readFile_refused {m : SMessage} (hp : Sendable path) (hne : m ≠ sapiSuccess)
    (h : AnswersWith (serverReadFile (pathRequest sapiReadFile 0 path) client) s [path]
      (answerWord m) s') :
    Exchanges (serverTurns qsort client) 1 (Connected.readFile path size) w ⟨s, ∅⟩ (none, size) w
      ⟨s', ∅⟩ := by
  have hop : opOf (pathRequest sapiReadFile 0 path) = sapiReadFile := opOf_pathRequest ..
  have hserve : serve qsort (pathRequest sapiReadFile 0 path) client = _ := serve_readFile hop
  rw [← hserve] at h
  have hfirst := exchanges_sapiPathOp (w := w) hp.ne (ne_zero_of_opOf hop (by decide)) h
  rw [if_pos hne] at hfirst
  exact hfirst.bind (j := 0) (Exchanges.ret _ (none, size) w ⟨s', ∅⟩)

theorem exchanges_readFile_missing (hc : client ≠ 0) (hp : Sendable path)
    (hget : s.table.huGet path = none) :
    Exchanges (serverTurns qsort client) 1 (Connected.readFile path size) w ⟨s, ∅⟩ (none, size) w
      ⟨s, ∅⟩ :=
  exchanges_readFile_refused hp (by decide)
    (readFile_missing hc (readRequest_ne_zero path) (hp.sent ..) hget)

variable (qsort w size) in
theorem exchanges_readFile_foreign (hwf : s.WellFormed) (hc : client ≠ 0) (hp : Sendable path)
    (hget : s.table.huGet path = some a) (hzero : (s.file a).client ≠ 0)
    (hforeign : (s.file a).client ≠ client) :
    ∃ s', Exchanges (serverTurns qsort client) 1 (Connected.readFile path size) w ⟨s, ∅⟩
        (none, size) w ⟨s', ∅⟩ ∧
      Touched s a (s.file a).client s' := by
  obtain ⟨s', hs, ht⟩ := readFile_foreign hwf hc (readRequest_ne_zero path) (hp.sent ..)
    hget hzero hforeign
  exact ⟨s', exchanges_readFile_refused hp (by decide) hs, ht⟩

variable (qsort w size) in
/-- The owner of a file gets its contents. -/
theorem exchanges_readFile_own (hwf : s.WellFormed) (hc : client ≠ 0) (hp : Sendable path)
    (hget : s.table.huGet path = some a) (hown : (s.file a).client = client)
    (hdata : (s.file a).data = data) (hne : data ≠ []) (hlim : data.length ≤ muLimit) :
    ∃ s', Exchanges (serverTurns qsort client) 1 (Connected.readFile path size) w ⟨s, ∅⟩
        (some data, data.length) w ⟨s', ∅⟩ ∧
      Touched s a client s' := by
  obtain ⟨s', hs, ht⟩ := readFile_own hwf hc (readRequest_ne_zero path) (hp.sent ..)
    hget hown
  have hop : opOf (pathRequest sapiReadFile 0 path) = sapiReadFile := opOf_pathRequest ..
  have hserve : serve qsort (pathRequest sapiReadFile 0 path) client = _ := serve_readFile hop
  rw [← hserve, hdata, dataChunks, if_neg hne] at hs
  refine ⟨s', fun n => ?_, ht⟩
  have hfirst := (leads_sapiPathOp (w := w) hp.ne (ne_zero_of_opOf hop (by decide)) hs n).onClient
    fun r => if r ≠ 0 then .ret (none, size) else sapiGetData size
  refine hfirst.trans fun Q hf => ?_
  show Flows Q ⟨sapiGetData size, w, _, _, [], [LittleEndian.encode 8 data.length, data]⟩
  rw [← bind_ret (sapiGetData size), flows_sapiGetData_bind hne hlim]
  exact hf

end Read

/-! ## Writing -/

section Write

variable {disk : Disk} {rounds : Nat} {dirname : Option (List UInt8)}

/-- The new file is filled. -/
theorem Grown.rewritten {c : Int} (h : Grown s path [] c a s')
    (hroom : s.currBytes + data.length ≤ s.maxBytes) :
    Grown s path data c a (s'.rewritten a data) := by
  obtain ⟨f, hf⟩ := Option.ne_none_iff_exists'.mp (h.wellFormed.accounted.live a h.mem)
  have hempty : (s'.file a).dataLen = 0 := by
    rw [FileData.dataLen, h.data]
    rfl
  have hbytes : s'.currBytes = s.currBytes := h.currBytes
  have hnew : s'.currBytes - (s'.file a).dataLen + data.length = s.currBytes + data.length := by
    omega
  have hfile : (s'.rewritten a data).file a =
      { f with dataInfo := f.dataInfo + 1, data := data } := by
    exact modifyFile_file_self s' a (fun f => { f with dataInfo := f.dataInfo + 1, data := data })
      hf
  have hold := file_eq s' hf
  refine ⟨?_, h.ptrs, h.fresh, h.currFiles, hnew, h.maxFiles, h.maxBytes, ?_, ?_, ?_,
    fun x hx => ?_⟩
  · refine h.wellFormed.rewrite (by rw [hf]; exact Option.some_ne_none f) (fun _ _ => rfl)
      (fun _ => rfl) ?_
    have := h.maxBytes
    omega
  · rw [hfile]
    exact (congrArg FileData.path hold).symm.trans h.path
  · rw [hfile]
  · rw [hfile]
    exact (congrArg FileData.client hold).symm.trans h.client
  · have hne : x ≠ a := fun he => h.fresh (he ▸ hx)
    exact (modifyFile_file_of_ne s' a _ hne).trans (h.same x hx)

section Own

variable {op : BitVec 8} {offset : FileData → Nat} {K : SMessage → ClientM Int}

/-- A request to write arrives at a file the client has open, and there is room. -/
theorem leads_serverWriteAt (hop : op &&& 0xFC ≠ 0) (hwf : s.WellFormed) (hc : client ≠ 0)
    (hp : Sendable path) (hget : s.table.huGet path = some a) (hown : (s.file a).client = client)
    (hlim : data.length ≤ muLimit) (hroom : data.length ≤ s.maxBytes - s.currBytes)
    (p : ClientM Int) (w : World Saved Empty) :
    Leads ⟨p, w, serverWriteAt qsort offset (pathRequest op 0 path) client,
        ⟨s, ∅⟩, [path, LittleEndian.encode 8 data.length], []⟩
      ⟨p, w, receiveData client a data.length offset,
        ⟨(s.fuGetfile path).2, {.file a}⟩, [], answerWord sapiSuccess⟩ := by
  intro Q hf
  have hzero : (0 : BitVec 8) ||| op = op := BitVec.zero_or
  have hm : pathRequest op 0 path ≠ 0 := pathRequest_ne_zero (by rwa [hzero])
  have hsent := hp.sent op 0
  have hshort := hp.short
  have hbig : muLimit < 2 ^ 64 := by decide
  have hreaches : WriteReaches ⟨s, ∅⟩ client (cString path) a := by
    rw [cString_of_not_mem hp.text]
    exact ⟨hget, Finset.notMem_empty _, Finset.notMem_empty _, hown⟩
  rw [flows_serverWriteAt_reaches hwf hc hm hsent.len hp.ne
    (by omega) (by omega) hreaches, cString_of_not_mem hp.text, flows_serverMakeRoom_fits hc]
  · have hheld : (insert (Mutex.file a) (insert .storage (∅ : Finset Mutex))).erase .storage =
        {.file a} := by
      ext m
      cases m <;> simp
    dsimp only
    rw [hheld]
    exact hf
  · rw [fuGetfile_bytesAvailable, hwf.accounted.bytesAvailable]
    omega

/-- The contents arrive. -/
theorem leads_receiveData (hwf : s.WellFormed) (hc : client ≠ 0) (ha : a ∈ s.ptrs)
    (hoff : ∀ f, offset f ≤ f.dataLen) (hne : data ≠ [])
    (hlim : offset (s.file a) + data.length ≤ muLimit)
    (hroom : data.length ≤ s.maxBytes - s.currBytes) (p : ClientM Int) (w : World Saved Empty) :
    Leads ⟨p, w, receiveData client a data.length offset, ⟨s, {.file a}⟩, [data], []⟩
      ⟨p, w, .ret 0, ⟨s.rewritten a (s.contentsAfter a offset data), ∅⟩, [],
        answerWord sapiSuccess⟩ := by
  intro Q hf
  have hheld : ({.file a} : Finset Mutex).erase (.file a) = ∅ := Finset.erase_singleton _
  rw [flows_receiveData hc hwf ha hoff hne hlim hroom]
  dsimp only
  rw [hheld]
  exact hf

/-- The client that has a file open is told to send and sends. -/
theorem leads_contents (hop : op &&& 0xFC ≠ 0) (hwf : s.WellFormed) (hc : client ≠ 0)
    (hp : Sendable path) (hget : s.table.huGet path = some a) (hown : (s.file a).client = client)
    (hoff : ∀ f, offset f ≤ f.dataLen) (hne : data ≠ [])
    (hlim : offset ((s.fuGetfile path).2.file a) + data.length ≤ muLimit)
    (hroom : data.length ≤ s.maxBytes - s.currBytes) (hK : K sapiSuccess = sapiSendContents data) :
    Leads ⟨sapiGetResponse >>= K, w, serverWriteAt qsort offset (pathRequest op 0 path) client,
        ⟨s, ∅⟩, [path, LittleEndian.encode 8 data.length], []⟩
      ⟨.ret 0, w, .ret 0, ⟨(s.fuGetfile path).2.rewritten a
        ((s.fuGetfile path).2.contentsAfter a offset data), ∅⟩, [], []⟩ := by
  have hmem : a ∈ (s.fuGetfile path).2.ptrs := by
    rw [fuGetfile_ptrs]
    exact WellFormed.huGet_mem_ptrs hget
  have hspace : data.length ≤
      (s.fuGetfile path).2.maxBytes - (s.fuGetfile path).2.currBytes := by
    have havail := s.fuGetfile_bytesAvailable path
    rw [(hwf.fuGetfile path).accounted.bytesAvailable, hwf.accounted.bytesAvailable] at havail
    omega
  refine (leads_serverWriteAt hop hwf hc hp hget hown (by omega) hroom _ w).trans
    fun Q hf => ?_
  rw [answerWord, flows_sapiGetResponse_bind, hK, sapiSendContents, flows_sapiSenddata_bind hne,
    if_neg (by decide), List.nil_append]
  refine leads_receiveData (hwf.fuGetfile path) hc hmem hoff hne hlim hspace _ w ?_
  rw [answerWord, flows_sapiGetResponse_bind, if_neg (not_not.mpr rfl)]
  exact hf

/-- `writeFile` by the client that has the file open. -/
theorem exchanges_writeFile_own (hwf : s.WellFormed) (hc : client ≠ 0) (hp : Sendable path)
    (hget : s.table.huGet path = some a) (hown : (s.file a).client = client)
    (hread : disk.read path = some data) (hne : data ≠ []) (hlim : data.length < muLimit)
    (hroom : data.length ≤ s.maxBytes - s.currBytes) :
    Exchanges (serverTurns qsort client) 1 (writeFile disk rounds path dirname) w ⟨s, ∅⟩
      0 w ⟨(s.fuGetfile path).2.rewritten a data, ∅⟩ := by
  intro n Q hf
  have hop : opOf (pathRequest sapiWriteFile 0 path) = sapiWriteFile := opOf_pathRequest ..
  rw [flows_writeFile hread hlim hp.ne, serve_writeFile hop]
  exact (leads_contents (by decide) hwf hc hp hget hown (fun _ => Nat.zero_le _) hne (by omega)
    hroom writeFileAnswered_success).onServer (fun _ => serverTurns qsort client n) hf

/-- `appendToFile` by the client that has the file open. -/
theorem exchanges_appendToFile_own (hwf : s.WellFormed) (hc : client ≠ 0) (hp : Sendable path)
    (hget : s.table.huGet path = some a) (hown : (s.file a).client = client) (hne : data ≠ [])
    (hlim : (s.file a).data.length + data.length ≤ muLimit)
    (hroom : data.length ≤ s.maxBytes - s.currBytes) :
    Exchanges (serverTurns qsort client) 1 (appendToFile disk rounds path (some data) dirname) w
      ⟨s, ∅⟩ 0 w ⟨(s.fuGetfile path).2.rewritten a ((s.file a).data ++ data), ∅⟩ := by
  intro n Q hf
  have hop : opOf (pathRequest sapiAppendFile 0 path) = sapiAppendFile := opOf_pathRequest ..
  have hold := (s.fuGetfile_file path a).1
  have hcontents : (s.fuGetfile path).2.contentsAfter a FileData.dataLen data =
      (s.file a).data ++ data := by
    rw [FileStorage.contentsAfter, FileData.dataLen, List.take_length, hold]
  rw [flows_appendToFile hne hp.ne, serve_appendFile hop]
  refine (leads_contents (by decide) hwf hc hp hget hown (fun _ => Nat.le_refl _) hne ?_
    hroom appendToFileAnswered_success).onServer (fun _ => serverTurns qsort client n) ?_
  · rwa [FileData.dataLen, hold]
  · rw [hcontents]
    exact hf

end Own

variable (qsort w rounds dirname) in
/-- The client that has a new file open fills it. -/
theorem exchanges_writeFile (hc : client ≠ 0) (hp : Sendable path)
    (hg : Grown s path [] client a s') (hread : disk.read path = some data) (hne : data ≠ [])
    (hlim : data.length < muLimit) (hroom : s.currBytes + data.length ≤ s.maxBytes) :
    ∃ s'', Exchanges (serverTurns qsort client) 1 (writeFile disk rounds path dirname) w ⟨s', ∅⟩
        0 w ⟨s'', ∅⟩ ∧
      Grown s path data client a s'' := by
  have hlooked := hg.touched (.getfile hg.huGet hg.client)
  have hspace : data.length ≤ s'.maxBytes - s'.currBytes := by
    have hbytes : s'.currBytes = s.currBytes := hg.currBytes
    have := hg.maxBytes
    omega
  exact ⟨_, exchanges_writeFile_own hg.wellFormed hc hp hg.huGet hg.client hread hne hlim hspace,
    hlooked.rewritten hroom⟩

end Write

end LsoStore
