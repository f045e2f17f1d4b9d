import LsoStore.Proofs.Handlers

/-!
# One call and the requests it makes

A call sends its request and waits, and from there on the handler and the rest
of the call talk to each other. The lemmas here follow that talk for the calls
that are one request and answer and for the two writing calls up to where the
server has to make room.
-/

namespace LsoStore

open Proc Talk FileStorage

/-- A client makes a call, and the server serves up to `n` requests. -/
def dialogue (qsort : Qsort Nat) (client : Int) (disk : Disk) (rounds n : Nat)
    (call : ApiCall) (saved : Saved) (w : World FileStorage Mutex) (ts tc : Inbox) :
    Talk Saved Empty Int FileStorage Mutex Bool :=
  ⟨call.prog disk rounds, ⟨saved, ∅⟩, serverTurns qsort client n, w, ts, tc⟩

/-- One client's calls, one after the other, from a connection with nothing on
it and any state of the server. Each call meets `ok`, and the next one begins
when the call and the handler it was for have returned. -/
inductive Session (qsort : Qsort Nat) (maxFiles maxBytes : Nat) (client : Int) (disk : Disk)
    (rounds : Nat) (ok : World FileStorage Mutex → ApiCall → Prop) :
    Saved → World FileStorage Mutex → Inbox → Inbox → Prop where
  | start (saved : Saved) {w : World FileStorage Mutex} : Reachable qsort maxFiles maxBytes w →
      Session qsort maxFiles maxBytes client disk rounds ok saved w [] []
  | call {saved : Saved} {here : World Saved Empty} {w w' : World FileStorage Mutex}
      {ts tc ts' tc' : Inbox} {call : ApiCall} {r : Int} {b : Bool} :
      Session qsort maxFiles maxBytes client disk rounds ok saved w ts tc → ok w call →
      Reach (dialogue qsort client disk rounds 1 call saved w ts tc)
        ⟨.ret r, here, .ret b, w', ts', tc'⟩ →
      Session qsort maxFiles maxBytes client disk rounds ok here.st w' ts' tc'

theorem serverWorker_reachable {qsort : Qsort Nat} {maxFiles maxBytes : Nat} (client : Int)
    {w : World FileStorage Mutex} (hw : Reachable qsort maxFiles maxBytes w) :
    (serverWorker qsort client).Ensures w (Returns (Reachable qsort maxFiles maxBytes)) := by
  rw [serverWorker, ensures_read]
  intro r _
  cases r with
  | none => exact ensures_ret.mpr hw
  | some bs =>
      dsimp only
      split
      · exact ensures_ret.mpr hw
      · refine Ensures.bind_inv (fun tr o w' hr => ?_) fun _ _ hw' => ensures_ret.mpr hw'
        cases o with
        | ret r => exact hw.serve _ client tr hr
        | exit => trivial
        | fault => trivial
        | blocked => trivial

/-- A handler that was part of a dialogue leaves a state the server can be in. -/
theorem reachable_of_dialogue {qsort : Qsort Nat} {maxFiles maxBytes : Nat} {client : Int}
    {disk : Disk} {rounds : Nat} {call : ApiCall} {saved : Saved}
    {w w' : World FileStorage Mutex} {here : World Saved Empty} {p : ClientM Int} {b : Bool}
    {ts tc ts' tc' : Inbox} (hw : Reachable qsort maxFiles maxBytes w)
    (h : Reach (dialogue qsort client disk rounds 1 call saved w ts tc)
      ⟨p, here, .ret b, w', ts', tc'⟩) : Reachable qsort maxFiles maxBytes w' := by
  obtain ⟨tr, hr⟩ := reach_server_runs h (runs_ret.mpr ⟨rfl, rfl, rfl⟩)
  refine (?_ : (serverTurns qsort client 1).Ensures w
    (Returns (Reachable qsort maxFiles maxBytes))) tr _ _ hr
  rw [serverTurns]
  refine Ensures.bind_inv (serverWorker_reachable client hw) fun ok _ hw' => ?_
  cases ok with
  | true => exact ensures_ret.mpr hw'
  | false => exact ensures_ret.mpr hw'

theorem Session.reachable {qsort : Qsort Nat} {maxFiles maxBytes : Nat} {client : Int}
    {disk : Disk} {rounds : Nat} {ok : World FileStorage Mutex → ApiCall → Prop}
    {saved : Saved} {w : World FileStorage Mutex} {ts tc : Inbox}
    (h : Session qsort maxFiles maxBytes client disk rounds ok saved w ts tc) :
    Reachable qsort maxFiles maxBytes w := by
  induction h with
  | start saved hw => exact hw
  | call _ _ hreach ih => exact reachable_of_dialogue ih hreach

/-- A write to the path gets as far as the file at `a`: the file is found, the
client has it open, and neither mutex is held. -/
def WriteReaches (w : World FileStorage Mutex) (client : Int) (path : List UInt8) (a : Nat) :
    Prop :=
  w.st.table.huGet path = some a ∧ .storage ∉ w.held ∧ .file a ∉ w.held ∧
    (w.st.file a).client = client

/-- The contents the call sends, if it sends any. -/
def ApiCall.contents (disk : Disk) : ApiCall → Option (List UInt8)
  | .writeFile pathname _ => (disk.read pathname).filter fun data => data.length < muLimit
  | .appendToFile _ (some buf) _ => if buf.1.length = 0 then none else some buf
  | _ => none

/-- The pathname of a call. -/
def ApiCall.pathname : ApiCall → List UInt8
  | .openFile pathname _ => pathname
  | .closeFile pathname => pathname
  | .readFile pathname _ => pathname
  | .readNFiles _ _ => []
  | .writeFile pathname _ => pathname
  | .appendToFile pathname _ _ => pathname
  | .lockFile pathname => pathname
  | .unlockFile pathname => pathname
  | .removeFile pathname => pathname

/-- The call makes the server look for files to evict. -/
def Evicts (w : World FileStorage Mutex) (client : Int) (disk : Disk) (call : ApiCall) : Prop :=
  ∃ data a, call.contents disk = some data ∧ WriteReaches w client call.pathname a ∧
    w.st.fuStorageBytesAvailable < data.length

/-- The request word that goes before a path. -/
def pathRequest (op flags : BitVec 8) (path : List UInt8) : SMessage :=
  sapiMessageLen flags op (BitVec.ofNat 32 path.length)

theorem lenOf_pathRequest (op flags : BitVec 8) (path : List UInt8) :
    lenOf (pathRequest op flags path) = path.length % 2 ^ 24 :=
  lenOf_sapiMessageLen flags op path.length

theorem opOf_pathRequest (op flags : BitVec 8) (path : List UInt8) :
    opOf (pathRequest op flags path) = (flags ||| op) &&& 0xFC :=
  opOf_sapiMessageLen flags op _

/-! ## Sending the request -/

section Request

variable {qsort : Qsort Nat} {client : Int} {n : Nat} {op flags : BitVec 8}
  {path : List UInt8} {k : ClientM Int} {w : World Saved Empty} {v : World FileStorage Mutex}
  {R : Talk Saved Empty Int FileStorage Mutex Bool → Prop}

theorem flows_sapiPathOp (hne : path ≠ []) (hm : pathRequest op flags path ≠ 0) :
    Flows R ⟨sapiPathOp op flags path k, w, serverTurns qsort client (n + 1), v, [], []⟩ ↔
      Flows R ⟨sapiGetResponse >>= fun m => if m ≠ sapiSuccess then .ret (-1) else k, w,
        serve qsort (pathRequest op flags path) client >>= fun _ => serverTurns qsort client n,
        v, [path], []⟩ := by
  rw [sapiPathOp, flows_sapiSendop_bind, if_neg (by decide), flows_sapiSenddata_bind hne,
    if_neg (by decide), List.nil_append, List.singleton_append]
  exact flows_serverTurns hm

/-- A call with an empty path sends a request and returns. -/
theorem flows_sapiPathOp_nil (h : ∀ q v ts tc, R ⟨.ret (-1), w, q, v, ts, tc⟩)
    {q : ServerM Bool} :
    Flows R ⟨sapiPathOp op flags [] k, w, q, v, [], []⟩ := by
  rw [sapiPathOp, flows_sapiSendop_bind, if_neg (by decide)]
  exact .of_client (idle_ret _ _) h

variable {disk : Disk} {rounds : Nat} {data : List UInt8} {dirname : Option (List UInt8)}

theorem flows_writeFile (hread : disk.read path = some data) (hlim : data.length < muLimit)
    (hne : path ≠ []) :
    Flows R ⟨writeFile disk rounds path dirname, w, serverTurns qsort client (n + 1), v, [],
        []⟩ ↔
      Flows R ⟨sapiGetResponse >>= writeFileAnswered disk rounds data dirname, w,
        serve qsort (pathRequest sapiWriteFile 0 path) client >>= fun _ =>
          serverTurns qsort client n,
        v, [path, LittleEndian.encode 8 data.length], []⟩ := by
  rw [writeFile, fuReadFromPath, hread]
  dsimp only
  rw [if_neg (by omega), flows_sapiSendop_bind, if_neg (by decide),
    flows_sapiSenddata_bind hne, if_neg (by decide), flows_sapiSenddatalen_bind,
    if_neg (by decide)]
  exact flows_serverTurns (ne_zero_of_opOf (opOf_pathRequest ..) (by decide))

theorem flows_appendToFile (hd : data ≠ []) (hne : path ≠ []) :
    Flows R ⟨appendToFile disk rounds path (some data) dirname, w,
        serverTurns qsort client (n + 1), v, [], []⟩ ↔
      Flows R ⟨sapiGetResponse >>= appendToFileAnswered disk rounds data dirname, w,
        serve qsort (pathRequest sapiAppendFile 0 path) client >>= fun _ =>
          serverTurns qsort client n,
        v, [path, LittleEndian.encode 8 data.length], []⟩ := by
  rw [appendToFile, if_neg (by simpa using hd), flows_sapiSendop_bind, if_neg (by decide),
    flows_sapiSenddata_bind hne, if_neg (by decide), flows_sapiSenddatalen_bind,
    if_neg (by decide)]
  exact flows_serverTurns (ne_zero_of_opOf (opOf_pathRequest ..) (by decide))

/-- A call that sends nothing is over at once. -/
theorem writeFile_silent {pathname : CStr} {dirname : Option CStr}
    (h : (ApiCall.writeFile pathname dirname).contents disk = none) :
    ∀ i, Idle (writeFile disk rounds pathname (dirname.map Subtype.val)) w i := by
  intro i
  rw [ApiCall.contents] at h
  rw [writeFile, fuReadFromPath]
  cases hread : disk.read pathname with
  | none => exact idle_ret _ _ _
  | some data =>
      have hlim : muLimit ≤ data.length := by simpa [hread] using h
      dsimp only
      rw [if_pos hlim]
      exact idle_exit _ _

theorem appendToFile_silent {pathname : CStr} {buf : Option Buf} {dirname : Option CStr}
    (h : (ApiCall.appendToFile pathname buf dirname).contents disk = none) :
    ∀ i, Idle (appendToFile disk rounds pathname (buf.map Subtype.val)
      (dirname.map Subtype.val)) w i := by
  intro i
  cases buf with
  | none => exact idle_ret _ _ _
  | some buf =>
      rw [ApiCall.contents] at h
      have hnil : buf.1.length = 0 := by simpa using h
      rw [Option.map_some, appendToFile, if_pos hnil]
      exact idle_ret _ _ _

theorem appendToFile_contents {pathname : CStr} {buf : Option Buf} {dirname : Option CStr}
    (h : (ApiCall.appendToFile pathname buf dirname).contents disk = some data) :
    ∃ b : Buf, buf = some b ∧ data = b.1 ∧ b.1 ≠ [] := by
  cases buf with
  | none => cases h
  | some b =>
      rw [ApiCall.contents] at h
      split at h
      · cases h
      · next hne =>
          injection h with h
          exact ⟨b, rfl, h.symm, by simpa using hne⟩

theorem idle_serverTurns : Idle (serverTurns qsort client (n + 1)) v [] := by
  rw [serverTurns, serverWorker, read_bind]
  exact idle_read (by decide) _ _

/-! ## The two writing calls from their first answer on -/

theorem writeFileAnswered_success :
    writeFileAnswered disk rounds data dirname sapiSuccess = sapiSendContents data := rfl

theorem writeFileAnswered_failure {m : SMessage} (h : m ≠ sapiSuccess) (h' : m ≠ sapiEvictMsg) :
    writeFileAnswered disk rounds data dirname m = .ret (-1) := by
  rw [writeFileAnswered.eq_def, if_neg h', if_pos h]

theorem appendToFileAnswered_success :
    appendToFileAnswered disk rounds data dirname sapiSuccess = sapiSendContents data := rfl

theorem appendToFileAnswered_failure {m : SMessage} (h : m ≠ sapiSuccess)
    (h' : m ≠ sapiEvictMsg) :
    appendToFileAnswered disk rounds data dirname m = .ret (-1) := by
  rw [appendToFileAnswered.eq_def, if_pos h, if_pos h']

end Request

/-! ## Until both sides are done -/

/-- What every call may come to. -/
structure CallEnds (Q : Talk Saved Empty Int FileStorage Mutex Int → Prop) : Prop where
  returned : ∀ r w b v, Q ⟨.ret r, w, .ret b, v, [], []⟩
  exited : ∀ w q v ts tc, Q ⟨.exit, w, q, v, ts, tc⟩
  stopped : ∀ p w q v ts, Idle p w [] → Stopped q v ts → Q ⟨p, w, q, v, ts, []⟩

/-- The call may return at any point. -/
def AnyReturn (Q : Talk Saved Empty Int FileStorage Mutex Int → Prop) : Prop :=
  ∀ r w q v ts tc, Q ⟨.ret r, w, q, v, ts, tc⟩

section Calls

variable {Q : Talk Saved Empty Int FileStorage Mutex Int → Prop} {w : World Saved Empty}
  {q : ServerM Int} {v : World FileStorage Mutex} {ts rest : Inbox} {client : Int}
  {message : SMessage} {path data : List UInt8}

theorem CallEnds.waits (hQ : CallEnds Q) (k : SMessage → ClientM Int) (w : World Saved Empty) :
    Waits Q (sapiGetResponse >>= k) w :=
  ⟨idle_sapiGetResponse k w, fun _ _ _ hs => hQ.stopped _ _ _ _ _ (idle_sapiGetResponse k w) hs⟩

theorem CallEnds.answered (hQ : CallEnds Q) (h : Answers q v ts rest)
    (hreturned : ∀ r w b v, Q ⟨.ret r, w, .ret b, v, rest, []⟩) :
    Flows Q ⟨sapiGetResponse >>= fun m => if m ≠ sapiSuccess then .ret (-1) else .ret 0, w, q,
      v, ts, []⟩ := by
  refine h (hQ.waits _ _) fun m r v' => ?_
  rw [flows_sapiGetResponse_bind]
  split
  · exact .of_idle (idle_ret _ _ _) (idle_ret _ _ _) (hreturned ..)
  · exact .of_idle (idle_ret _ _ _) (idle_ret _ _ _) (hreturned ..)

/-- Reading a file, unless it is empty: then the client waits for its length. -/
theorem CallEnds.readFile (hQ : CallEnds Q) (hwf : v.st.WellFormed) (hc : client ≠ 0)
    (hm : message ≠ 0) (htakes : TakesPath message path ts rest)
    (hshort : ∀ a f, v.st.heap a = some f → f.data.length ≤ muLimit) (size : Nat)
    (hreturned : ∀ r w b v, Q ⟨.ret r, w, .ret b, v, rest, []⟩)
    (hempty : ∀ a f, v.st.table.huGet path = some a → Mutex.file a ∉ v.held →
      (v.st.fuGetfile path).2.heap a = some f → Readable f client → f.data = [] →
      ∀ p w v', Idle p w [] → Q ⟨p, w, .ret 0, v', rest, []⟩) :
    Flows Q ⟨sapiGetResponse >>= fun m => if m ≠ sapiSuccess then .ret (-1) else
        sapiGetData size >>= fun r => match r with
          | (none, _) => .ret (-1)
          | (some _, _) => .ret 0,
      w, serverReadFile message client, v, ts, []⟩ := by
  refine (hQ.waits _ _).readFile hwf hc hm htakes (fun m r v' hne => ?_)
    fun a f v' ha hfree hf hread => ?_
  · rw [flows_sapiGetResponse_bind, if_pos hne]
    exact .of_idle (idle_ret _ _ _) (idle_ret _ _ _) (hreturned ..)
  · rw [flows_sapiGetResponse_bind, if_neg (not_not.mpr rfl), dataChunks]
    by_cases hnil : f.data = []
    · rw [if_pos hnil]
      have hidle : Idle (sapiGetData size >>= fun r => match r with
          | (none, _) => (.ret (-1) : ClientM Int)
          | (some _, _) => .ret 0) w [] := by
        rw [sapiGetData, read_bind]
        exact idle_read (by decide) _ _
      exact .of_idle hidle (idle_ret _ _ _) (hempty a f ha hfree hf hread hnil _ _ _ hidle)
    · obtain ⟨f₀, hf₀, hd, -⟩ := fuGetfile_heap _ hf
      rw [if_neg hnil, flows_sapiGetData_bind hnil (hd ▸ hshort a f₀ hf₀)]
      exact .of_idle (idle_ret _ _ _) (idle_ret _ _ _) (hreturned ..)

/-- The data that follows the answer that it may be sent. -/
theorem CallEnds.sendContents (hQ : CallEnds Q) (hwf : v.st.WellFormed) (hc : client ≠ 0)
    {a : Nat} {offset : FileData → Nat} (hoff : ∀ f, offset f ≤ f.dataLen) (hd : data ≠ [])
    (ha : a ∈ v.st.ptrs) (hroom : data.length ≤ v.st.maxBytes - v.st.currBytes) :
    Flows Q ⟨sapiSendContents data, w, receiveData client a data.length offset, v, [], []⟩ := by
  rw [sapiSendContents, flows_sapiSenddata_bind hd, if_neg (by decide), List.nil_append]
  have hwaits := hQ.waits (fun m => if m ≠ sapiSuccess then .ret (-1) else .ret 0) w
  refine flows_receiveData_fits hwaits.idle (fun v ts => hwaits.stop _ _ _ (.exit v ts)) hc hwf
    hoff hd ha hroom fun v' _ _ => ?_
  rw [flows_sapiGetResponse_bind, if_neg (not_not.mpr rfl)]
  exact .of_idle (idle_ret _ _ _) (idle_ret _ _ _) (hQ.returned ..)

/-- A writing call whose data there is room for. `K` is the call from its
first answer on. -/
theorem CallEnds.writeAt (hQ : CallEnds Q) (hwf : v.st.WellFormed) (hc : client ≠ 0)
    (hm : message ≠ 0) (htakes : TakesPath message path ts [LittleEndian.encode 8 data.length])
    (hdata : data.length < 2 ^ 64) (qsort : Qsort Nat) {offset : FileData → Nat}
    (hoff : ∀ f, offset f ≤ f.dataLen) {K : SMessage → ClientM Int}
    (hgo : K sapiSuccess = sapiSendContents data)
    (hstop : ∀ m, m ≠ sapiSuccess → m ≠ sapiEvictMsg → K m = .ret (-1))
    (hrefused : Mutex.storage ∉ v.held →
      (∀ a, v.st.table.huGet path = some a →
        Mutex.file a ∉ v.held ∧ (v.st.file a).client ≠ client) → AnyReturn Q)
    (hnil : ∀ a, v.st.table.huGet path = some a → Mutex.storage ∉ v.held →
      Mutex.file a ∉ v.held → (v.st.file a).client = client → data = [] → AnyReturn Q)
    (hevict : ∀ a, v.st.table.huGet path = some a → Mutex.storage ∉ v.held →
      Mutex.file a ∉ v.held → (v.st.file a).client = client →
      v.st.fuStorageBytesAvailable < data.length →
      Flows Q ⟨sapiGetResponse >>= K, w, serverMakeRoom qsort offset client a data.length,
        ⟨(v.st.fuGetfile path).2, insert (.file a) (insert .storage v.held)⟩,
        [], []⟩) :
    Flows Q ⟨sapiGetResponse >>= K, w, serverWriteAt qsort offset message client, v, ts,
      []⟩ := by
  refine (hQ.waits K w).writeAt hwf hc hm htakes qsort offset
    (fun m r v' hstorage hforeign hne hne' => ?_) fun a ha hstorage hfile hown => ?_
  · rw [flows_sapiGetResponse_bind, hstop m hne hne']
    exact .of_client (idle_ret _ _) fun q v ts tc => hrefused hstorage hforeign _ _ _ _ _ _
  · rw [flows_checkReadResponse hdata]
    set s := (v.st.fuGetfile path).2 with hs
    have havail : s.fuStorageBytesAvailable = v.st.fuStorageBytesAvailable :=
      v.st.fuGetfile_bytesAvailable _
    by_cases hroom : v.st.fuStorageBytesAvailable < data.length
    · exact hevict a ha hstorage hfile hown hroom
    · rw [flows_serverMakeRoom_fits hc (by rwa [havail]), List.nil_append,
        flows_sapiGetResponse_bind, hgo]
      by_cases hd : data = []
      · subst hd
        rw [sapiSendContents, sapiSenddata, if_pos List.length_nil]
        exact .of_client (idle_ret _ _) fun q v ts tc =>
          hnil a ha hstorage hfile hown rfl _ _ _ _ _ _
      · have hwf' : s.WellFormed := hwf.fuGetfile path
        refine hQ.sendContents hwf' hc hoff hd ?_ ?_
        · rw [hs, fuGetfile_ptrs]
          exact WellFormed.huGet_mem_ptrs ha
        · dsimp only
          rw [← hwf'.accounted.bytesAvailable, havail]
          exact Nat.not_lt.mp hroom

end Calls

end LsoStore
