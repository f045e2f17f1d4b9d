import LsoStore.Proofs.EvictDialogue
import LsoStore.Proofs.Listing

/-!
# Calls that do not get stuck

A call is stuck when the client waits in a read, nothing is on its way, and the
server has finished every request it read, so that nothing will ever come.
`no_stuck_call` says which calls cannot get there, from any state of the server
and for every way of interleaving the two. A call of these kinds comes to its
end, or the server is in the middle of the request: it has exited, it waits for
a mutex it holds itself, or it waits for a length.

What is left out has a message that is waited for and never sent. A file with
no contents is not sent at all, not even the length, to a client that reads or
saves it, and the two locking requests have no answer. Most of those are
answered all the same: the server takes the path for the next request, and
refuses an operation it does not know.
-/

namespace LsoStore

open Proc Talk FileStorage

/-- The client waits in a read, nothing is on its way, and the server has
finished every request it read. -/
def Stuck (qsort : Qsort Nat) (client : Int)
    (c : Talk Saved Empty Int FileStorage Mutex Bool) : Prop :=
  (∃ n k, 0 < n ∧ c.client = .read n k) ∧ c.toServer = [] ∧ c.toClient = [] ∧
    ((∃ b, c.server = .ret b) ∨ ∃ n, c.server = serverTurns qsort client n)

/-- The part of a path that the request word has room for. -/
def requested (path : List UInt8) : List UInt8 := path.take (path.length % 2 ^ 24)

/-- An eviction of `n` bytes begins: the server can list the files, and all
together are enough. -/
def EvictionBegins (s : FileStorage) (n : Nat) : Prop :=
  8 * s.currFiles ≤ muLimit ∧ n ≤ s.storedBytes

/-- If an eviction for the call begins, nothing is saved, or every file that is
given up has contents. -/
def EvictionHeard (qsort : Qsort Nat) (w : World FileStorage Mutex) (client : Int)
    (call : ApiCall) (a : Nat) (data : List UInt8) : Prop :=
  EvictionBegins w.st (data.length - w.st.fuStorageBytesAvailable) →
    call.dirname = none ∨
      ∀ x ∈ writeVictims qsort w client call.pathname a data.length, (w.st.file x).data ≠ []

/-- Every message the call waits for is sent. -/
def Heard (qsort : Qsort Nat) (w : World FileStorage Mutex) (client : Int) (disk : Disk)
    (call : ApiCall) : Prop :=
  match call with
  | .openFile pathname flags =>
      (flags.truncate 8 ||| sapiOpenFile) &&& 0xFC = sapiAppendFile →
        pathname.1 = [] ∨ PathFits pathname
  | .readFile pathname _ => ∀ a f, w.st.table.huGet (requested pathname) = some a →
      .file a ∉ w.held → (w.st.fuGetfile (requested pathname)).2.heap a = some f →
      Readable f client → pathname.1 = [] ∨ f.data ≠ []
  | .lockFile pathname => pathname.1 = [] ∨
      opOf (BitVec.ofNat 32 (LittleEndian.decode (pathname.1.take 4))) ∉ knownOps
  | .unlockFile pathname => pathname.1 = [] ∨
      opOf (BitVec.ofNat 32 (LittleEndian.decode (pathname.1.take 4))) ∉ knownOps
  | .writeFile pathname _ => ∀ data, call.contents disk = some data → pathname.1 = [] ∨
      PathFits pathname ∧ ∀ a, WriteReaches w client pathname a →
        w.st.fuStorageBytesAvailable < data.length → EvictionHeard qsort w client call a data
  | .appendToFile pathname _ _ => ∀ data, call.contents disk = some data → pathname.1 = [] ∨
      PathFits pathname ∧ ∀ a, WriteReaches w client pathname a →
        w.st.fuStorageBytesAvailable < data.length → EvictionHeard qsort w client call a data
  | _ => True

/-- How a handler and a call that is heard may end. -/
inductive HeardEnd : Talk Saved Empty Int FileStorage Mutex Int → Prop where
  | ended {p : ClientM Int} {w : World Saved Empty} (q : ServerM Int)
      (v : World FileStorage Mutex) (ts tc : Inbox) :
      (∀ i, Idle p w i) → HeardEnd ⟨p, w, q, v, ts, tc⟩
  | stopped {p : ClientM Int} {w : World Saved Empty} {q : ServerM Int}
      {v : World FileStorage Mutex} {ts : Inbox} :
      Idle p w [] → Stopped q v ts → HeardEnd ⟨p, w, q, v, ts, []⟩

theorem heardEnd_callEnds : CallEnds HeardEnd where
  returned r w _ _ := .ended _ _ _ _ (idle_ret r w)
  exited w q v ts tc := .ended q v ts tc (idle_exit w)
  stopped _ _ _ _ _ hp hq := .stopped hp hq

theorem heardEnd_anyReturn : AnyReturn HeardEnd := fun r w q v ts tc =>
  .ended q v ts tc (idle_ret r w)

theorem flows_heardEnd_of_over {p : ClientM Int} {w : World Saved Empty} (hp : ∀ i, Idle p w i)
    (q : ServerM Int) (v : World FileStorage Mutex) (ts tc : Inbox) :
    Flows HeardEnd ⟨p, w, q, v, ts, tc⟩ :=
  .of_client hp fun q v ts tc => .ended q v ts tc hp

section Stuck

variable {qsort : Qsort Nat} {client : Int} {w : World Saved Empty} {p : ClientM Int}
  {v : World FileStorage Mutex} {ts tc : Inbox}

theorem Stuck.settled {c : Talk Saved Empty Int FileStorage Mutex Bool}
    (h : Stuck qsort client c) : c.Settled := by
  obtain ⟨p, w, q, v, ts, tc⟩ := c
  obtain ⟨⟨n, k, hn, hp⟩, hts, htc, hq⟩ := h
  dsimp only at hp hts htc hq
  subst hp hts htc
  refine settled_iff.mpr ⟨idle_read hn _ _, ?_⟩
  rcases hq with ⟨b, rfl⟩ | ⟨n, rfl⟩
  · exact idle_ret _ _ _
  · cases n with
    | zero => exact idle_ret _ _ _
    | succ n => exact idle_serverTurns

/-- A client that is over does not wait. -/
theorem not_stuck_of_over (hp : ∀ i, Idle p w i) (q : ServerM Bool)
    (v : World FileStorage Mutex) (ts tc : Inbox) : ¬ Stuck qsort client ⟨p, w, q, v, ts, tc⟩ := by
  intro h
  obtain ⟨⟨n, k, hn, hpk⟩, -⟩ := h
  obtain rfl : p = .read n k := hpk
  exact hp [[0]] _ _ _ _ (.read _ _ (.chunk _ hn hn))

theorem flows_not_stuck_of_over (hp : ∀ i, Idle p w i) {q : ServerM Bool} :
    Flows (fun c => ¬ Stuck qsort client c) ⟨p, w, q, v, ts, tc⟩ :=
  .of_client hp fun q v ts tc => not_stuck_of_over hp q v ts tc

/-- A server that does not come back is in the middle of a request. -/
theorem not_stuck_of_stopped {q : ServerM Int} (hq : Stopped q v ts) (n : Nat) (tc : Inbox) :
    ¬ Stuck qsort client ⟨p, w, q >>= fun _ => serverTurns qsort client n, v, ts, tc⟩ := by
  intro h
  rcases h with ⟨-, -, -, ⟨b, hb⟩ | ⟨m, hm⟩⟩
  · exact bind_ne_ret hq.ne_ret _ b hb
  · cases m with
    | zero => exact bind_ne_ret hq.ne_ret _ true hm
    | succ m => cases hq <;> cases hm

theorem HeardEnd.not_stuck {q : ServerM Int} (n : Nat) (h : HeardEnd ⟨p, w, q, v, ts, tc⟩) :
    Flows (fun c => ¬ Stuck qsort client c)
      ⟨p, w, q >>= fun _ => serverTurns qsort client n, v, ts, tc⟩ := by
  cases h with
  | ended _ _ _ _ hp => exact flows_not_stuck_of_over hp
  | stopped hp hq =>
      exact .of_idle hp (idle_bind hq.ne_ret hq.idle) (not_stuck_of_stopped hq n [])

theorem not_stuck_of_heardEnd {q : ServerM Int} {n : Nat}
    (h : Flows HeardEnd ⟨p, w, q, v, ts, tc⟩) :
    Flows (fun c => ¬ Stuck qsort client c)
      ⟨p, w, q >>= fun _ => serverTurns qsort client n, v, ts, tc⟩ :=
  h.bind fun _ _ _ _ _ _ hend => hend.not_stuck n

end Stuck

section Calls

variable {qsort : Qsort Nat} {client : Int} {w : World Saved Empty} {v : World FileStorage Mutex}
  {path : List UInt8}

theorem request_ne_zero (hne : path ≠ []) (h0 : (0 : UInt8) ∉ path) :
    BitVec.ofNat 32 (LittleEndian.decode (path.take 4)) ≠ 0 := by
  have hlt := LittleEndian.decode_lt (path.take 4)
  have hpow : 256 ^ (path.take 4).length ≤ 256 ^ 4 :=
    Nat.pow_le_pow_right (by decide) (List.length_take_le ..)
  intro h
  have h := congrArg BitVec.toNat h
  rw [BitVec.toNat_ofNat, Nat.mod_eq_of_lt (by omega)] at h
  cases path with
  | nil => exact hne rfl
  | cons b path =>
      rw [List.take_succ_cons, LittleEndian.decode_cons] at h
      have hb : b.toNat = 0 := by
        have h : b.toNat + 256 * LittleEndian.decode (path.take 3) = 0 := h
        omega
      exact h0 (List.mem_cons.mpr (.inl (UInt8.toNat_inj.mp hb).symm))

/-- The client waits for an answer that no handler sends, and the server takes
the path for a request. It refuses an operation it does not know. -/
theorem flows_unanswered (hc : client ≠ 0) (hne : path ≠ []) (h0 : (0 : UInt8) ∉ path)
    (hop : opOf (BitVec.ofNat 32 (LittleEndian.decode (path.take 4))) ∉ knownOps) (n : Nat) :
    Flows (fun c => ¬ Stuck qsort client c)
      ⟨sapiGetResponse >>= fun m => if m ≠ sapiSuccess then .ret (-1) else .ret 0, w,
        serverTurns qsort client n, v, [path], []⟩ := by
  have hidle := idle_sapiGetResponse
    (fun m => if m ≠ sapiSuccess then .ret (-1) else .ret 0) w
  cases n with
  | zero =>
      refine .of_idle hidle (idle_ret _ _ _) ?_
      intro h
      obtain ⟨-, hts, -⟩ := h
      cases hts
  | succ n =>
      refine .of_waiting (fun c hset hstuck => hset hstuck.settled) hidle ?_ ?_
      · rw [serverTurns, serverWorker, read_bind]
        intro hread
        rcases Nat.lt_or_ge 4 path.length with hlong | hshort
        · exact hread _ _ _ _ (.read _ _ (.part _ (by decide) hlong))
        · exact hread _ _ _ _ (.read _ _ (.chunk _ (by decide) hshort))
      · intro q' v' ts' s ha
        rw [serverTurns, serverWorker, read_bind] at ha
        cases ha with
        | read _ _ hd =>
            obtain rfl := delivers_singleton hd
            dsimp only
            rw [if_neg (request_ne_zero hne h0), bind_assoc]
            refine not_stuck_of_heardEnd (heardEnd_callEnds.answered
              (serve_answers_unknown hc hop qsort) fun _ _ _ _ => ?_)
            exact .ended _ _ _ _ (idle_ret _ _)

end Calls

section Evict

variable {qsort : Qsort Nat} {client : Int} {w : World Saved Empty} {v : World FileStorage Mutex}
  {disk : Disk} {rounds a : Nat} {data dirname : List UInt8} {offset : FileData → Nat}
  {ts tc : Inbox} {p : ClientM Int} {K : SMessage → ClientM Int} {q : ServerM Int}
  {Q : Talk Saved Empty Int FileStorage Mutex Int → Prop}

theorem flows_writeFileAnswered_nosave :
    Flows Q ⟨writeFileAnswered disk rounds data none sapiEvictMsg, w, q, v, ts, tc⟩ ↔
      Flows Q ⟨.ret (-1), w, q, v, ts ++ [LittleEndian.encode 8 0], tc⟩ := by
  rw [writeFileAnswered.eq_def, if_pos rfl, flows_sapiSenddatalen_bind, if_neg (by decide)]
  rfl

theorem flows_writeFileAnswered_save :
    Flows Q ⟨writeFileAnswered disk rounds data (some dirname) sapiEvictMsg, w, q, v, ts, tc⟩ ↔
      Flows Q ⟨sapiEvictLoop disk dirname rounds 0 >>= fun r =>
          if r = -1 then .ret (-1) else .ret (-1),
        w, q, v, ts ++ [LittleEndian.encode 8 1, LittleEndian.encode 8 1], tc⟩ := by
  rw [writeFileAnswered.eq_def, if_pos rfl, flows_sapiSenddatalen_bind, if_neg (by decide)]
  dsimp only
  rw [sapiEvict, bind_assoc, flows_sapiSenddatalen_bind, if_neg (by decide), List.append_assoc]
  rfl

theorem flows_appendToFileAnswered_nosave :
    Flows Q ⟨appendToFileAnswered disk rounds data none sapiEvictMsg, w, q, v, ts, tc⟩ ↔
      Flows Q ⟨sapiSendContents data, w, q, v, ts ++ [LittleEndian.encode 8 0], tc⟩ := by
  rw [appendToFileAnswered, if_pos (by decide), if_neg (not_not.mpr rfl),
    flows_sapiSenddatalen_bind, if_neg (by decide)]

/-- The server makes room for a client that answers the announcement with
`flag` and goes on as `p`. -/
theorem flows_makeRoom_heard (flag : Nat) (ts : Inbox) (hc : client ≠ 0)
    (hwf : v.st.WellFormed) (ha : a ∈ v.st.ptrs)
    {n : Nat} (hn : n = data.length - v.st.fuStorageBytesAvailable) {gone : List Nat}
    (hgone : gone = v.st.victims qsort v.held client n)
    (hroom : v.st.fuStorageBytesAvailable < data.length) (hstop : K sapiFailure = .ret (-1))
    (hflag : flag < 2 ^ 64)
    (hK : ∀ q v, Flows HeardEnd ⟨K sapiEvictMsg, w, q, v, [], []⟩ ↔
      Flows HeardEnd ⟨p, w, q, v, LittleEndian.encode 8 flag :: ts, []⟩)
    (hyes : EvictionBegins v.st n → n ≤ v.st.bytesOf gone →
      Flows HeardEnd ⟨p, w, .unlock .storage (receiveData client a data.length offset),
        ⟨v.st.giveUps gone, v.held⟩, ts, (if flag ≠ 0 then gone.flatMap v.st.notice else []) ++
          [LittleEndian.encode 4 sapiSuccess.toNat]⟩)
    (hno : EvictionBegins v.st n → ¬ n ≤ v.st.bytesOf gone →
      Flows HeardEnd ⟨p, w, .unlock (.file a) <| .unlock .storage <|
          sapiRespond sapiFailure client (.ret 1),
        ⟨v.st.giveUps gone, v.held⟩, ts, (if flag ≠ 0 then gone.flatMap v.st.notice else []) ++
          [LittleEndian.encode 4 sapiFailure.toNat]⟩) :
    Flows HeardEnd ⟨sapiGetResponse >>= K, w,
      serverMakeRoom qsort offset client a data.length, v, [], []⟩ := by
  subst hn hgone
  rw [serverMakeRoom, flows_server_get, if_pos hroom]
  set n := data.length - v.st.fuStorageBytesAvailable
  cases harr : v.st.fuEvictFiles qsort n with
  | none =>
      rw [serverEvict, get_bind, flows_server_get]
      dsimp only
      rw [harr]
      have hidle := idle_sapiGetResponse K w
      exact .of_idle hidle (idle_exit _ _) (.stopped hidle (.exit _ _))
  | some arr =>
      by_cases hshort : v.st.storedBytes < n
      · rw [flows_serverEvict_short_bind hwf harr (.inl hshort), if_pos (by decide),
          flows_server_unlock, flows_server_unlock, flows_sapiRespond hc, List.nil_append,
          flows_sapiGetResponse_bind, hstop]
        exact flows_heardEnd_of_over (idle_ret _ _) ..
      · have hlist : ¬ 8 * v.st.currFiles > muLimit := fun h => by
          rw [fuEvictFiles_eq_none_iff.mpr h] at harr
          cases harr
        have hbegins : EvictionBegins v.st n := ⟨Nat.not_lt.mp hlist, Nat.not_lt.mp hshort⟩
        rw [flows_serverEvict_bind hc hwf harr hbegins.2 (List.ne_nil_of_mem ha) hflag hK]
        by_cases henough : n ≤ v.st.bytesOf (v.st.victims qsort v.held client n)
        · rw [if_pos henough, if_pos henough, if_neg (by decide)]
          exact hyes hbegins henough
        · rw [if_neg henough, if_neg henough, if_pos (by decide)]
          exact hno hbegins henough

/-- The client can read the notices of some files, if it gets that far. -/
def Noticed (s : FileStorage) (as : List Nat) : Prop :=
  ∀ x ∈ as, (s.file x).data ≠ [] ∧ (0 : UInt8) ∉ (s.file x).path ∧
    (s.file x).path.length < muLimit ∧ (s.file x).data.length ≤ muLimit

theorem flows_makeRoom_writeFile (hc : client ≠ 0) (hwf : v.st.WellFormed) (ha : a ∈ v.st.ptrs)
    {n : Nat} (hn : n = data.length - v.st.fuStorageBytesAvailable) {gone : List Nat}
    (hgone : gone = v.st.victims qsort v.held client n)
    (hroom : v.st.fuStorageBytesAvailable < data.length) {dirname : Option (List UInt8)}
    (hsave : EvictionBegins v.st n → dirname = none ∨ Noticed v.st gone) :
    Flows HeardEnd ⟨sapiGetResponse >>= writeFileAnswered disk rounds data dirname, w,
      serverMakeRoom qsort offset client a data.length, v, [], []⟩ := by
  have hstop : writeFileAnswered disk rounds data dirname sapiFailure = .ret (-1) :=
    writeFileAnswered_failure (by decide) (by decide)
  cases dirname with
  | none =>
      have hover := flows_heardEnd_of_over (idle_ret (-1) w)
      exact flows_makeRoom_heard 0 [] hc hwf ha hn hgone hroom hstop (by decide)
        (fun q v => flows_writeFileAnswered_nosave) (fun _ _ => hover ..) fun _ _ => hover ..
  | some dirname =>
      have hover : ∀ (m : SMessage) q v', m ≠ sapiEvictMsg → EvictionBegins v.st n →
          Flows HeardEnd ⟨sapiEvictLoop disk dirname rounds 0 >>= fun r =>
            if r = -1 then .ret (-1) else .ret (-1), w, q, v', [LittleEndian.encode 8 1],
            (if 1 ≠ 0 then gone.flatMap v.st.notice else []) ++
              [LittleEndian.encode 4 m.toNat]⟩ := by
        intro m q v' hm hbegins
        refine flows_sapiEvictLoop_over hm ((hsave hbegins).resolve_left (by simp)) ?_ ?_ ?_
        · intro p w tc h
          rcases h with rfl | rfl
          · exact flows_heardEnd_of_over (idle_exit _) ..
          · exact flows_heardEnd_of_over (idle_fault _) ..
        · exact fun _ => flows_heardEnd_of_over (idle_ret _ _) ..
        · exact fun _ _ => flows_heardEnd_of_over (idle_ret _ _) ..
      exact flows_makeRoom_heard 1 [LittleEndian.encode 8 1] hc hwf ha hn hgone
        hroom hstop (by decide) (fun q v => flows_writeFileAnswered_save)
        (fun h _ => hover _ _ _ (by decide) h) fun h _ => hover _ _ _ (by decide) h

theorem flows_makeRoom_appendToFile (hc : client ≠ 0) (hwf : v.st.WellFormed)
    (ha : a ∈ v.st.ptrs) (hheld : .file a ∈ v.held)
    {n : Nat} (hn : n = data.length - v.st.fuStorageBytesAvailable) {gone : List Nat}
    (hgone : gone = v.st.victims qsort v.held client n)
    (hroom : v.st.fuStorageBytesAvailable < data.length) {dirname : Option (List UInt8)}
    (hsave : EvictionBegins v.st n → dirname = none ∨ Noticed v.st gone) :
    Flows HeardEnd ⟨sapiGetResponse >>= appendToFileAnswered disk rounds data dirname, w,
      serverMakeRoom qsort FileData.dataLen client a data.length, v, [], []⟩ := by
  have hstop : appendToFileAnswered disk rounds data dirname sapiFailure = .ret (-1) :=
    appendToFileAnswered_failure (by decide) (by decide)
  have hd : data ≠ [] := by
    intro heq
    subst heq
    simp at hroom
  cases dirname with
  | none =>
      -- the answer to the data is the word that ends the eviction
      have hover : ∀ (m : SMessage) q v', Flows HeardEnd ⟨sapiSendContents data, w, q, v', [],
          (if 0 ≠ 0 then gone.flatMap v.st.notice else []) ++
            [LittleEndian.encode 4 m.toNat]⟩ := by
        intro m q v'
        rw [sapiSendContents, flows_sapiSenddata_bind hd, if_neg (by decide), if_neg (by decide),
          List.nil_append, List.nil_append, flows_sapiGetResponse_bind]
        split
        · exact flows_heardEnd_of_over (idle_ret _ _) ..
        · exact flows_heardEnd_of_over (idle_ret _ _) ..
      exact flows_makeRoom_heard 0 [] hc hwf ha hn hgone hroom hstop (by decide)
        (fun q v => flows_appendToFileAnswered_nosave) (fun _ _ => hover ..) fun _ _ => hover ..
  | some dirname =>
      have hloop : ∀ (m : SMessage) q v', m ≠ sapiEvictMsg → EvictionBegins v.st n →
          (∀ w, Flows HeardEnd ⟨sapiSendContents data, w, q, v', [], []⟩) →
          Flows HeardEnd ⟨sapiEvictLoop disk dirname rounds 0 >>= fun r =>
            if r = -1 then .ret (-1) else sapiSendContents data, w, q, v', [],
            (if 1 ≠ 0 then gone.flatMap v.st.notice else []) ++
              [LittleEndian.encode 4 m.toNat]⟩ := by
        intro m q v' hm hbegins hgo
        refine flows_sapiEvictLoop_over hm ((hsave hbegins).resolve_left (by simp)) ?_ hgo ?_
        · intro p w tc h
          rcases h with rfl | rfl
          · exact flows_heardEnd_of_over (idle_exit _) ..
          · exact flows_heardEnd_of_over (idle_fault _) ..
        · exact fun _ _ => flows_heardEnd_of_over (idle_ret _ _) ..
      refine flows_makeRoom_heard 1 [] hc hwf ha hn hgone hroom hstop
        (by decide) (fun q v => flows_appendToFileAnswered_evict) (fun hbegins henough => ?_)
        fun hbegins _ => hloop _ _ _ (by decide) hbegins fun w => ?_
      · obtain ⟨hwf', -, hfits, hin, -⟩ := hwf.room_of_victims hn hgone henough ha hheld
        refine hloop _ _ _ (by decide) hbegins fun w => ?_
        rw [flows_server_unlock]
        exact heardEnd_callEnds.sendContents hwf' hc (fun _ => Nat.le_refl _) hd hin hfits
      · rw [flows_server_unlock, flows_server_unlock, flows_sapiRespond hc, List.nil_append,
          sapiSendContents, flows_sapiSenddata_bind hd, if_neg (by decide),
          flows_sapiGetResponse_bind, if_pos (by decide)]
        exact flows_heardEnd_of_over (idle_ret _ _) ..

end Evict

section Dialogue

variable {qsort : Qsort Nat} {maxFiles maxBytes : Nat} {w : World FileStorage Mutex}
  {client : Int} {disk : Disk} {call : ApiCall}

theorem noticed_writeVictims (hw : Reachable qsort maxFiles maxBytes w) {path : List UInt8}
    {a len : Nat}
    (h : ∀ x ∈ writeVictims qsort w client path a len, (w.st.file x).data ≠ []) :
    Noticed (w.st.fuGetfile path).2 (writeVictims qsort w client path a len) := by
  intro x hx
  have hmem : x ∈ w.st.ptrs := w.st.fuGetfile_ptrs path ▸ victims_subset hx
  obtain ⟨f, hf⟩ := Option.ne_none_iff_exists'.mp (hw.wellFormed.accounted.live x hmem)
  obtain ⟨hdata, -, hpath⟩ := w.st.fuGetfile_file path x
  rw [hdata, hpath]
  exact ⟨h x hx, (hw.path_short hmem).1, (hw.path_short hmem).2,
    file_eq _ hf ▸ hw.length_data_le hf⟩

/-- A call with an empty path is over when it has sent its request. -/
theorem flows_not_stuck_nil {op flags : BitVec 8} {k : ClientM Int} {here : World Saved Empty}
    {q : ServerM Bool} :
    Flows (fun c => ¬ Stuck qsort client c) ⟨sapiPathOp op flags [] k, here, q, w, [], []⟩ :=
  flows_sapiPathOp_nil fun q v ts tc => not_stuck_of_over (idle_ret _ _) q v ts tc

theorem HeardEnd.returned (i : Inbox) (r : Int) (w : World Saved Empty) (b : Int)
    (v : World FileStorage Mutex) : HeardEnd ⟨.ret r, w, .ret b, v, i, []⟩ :=
  .ended _ _ _ _ (idle_ret r w)

theorem heard_pathOp (hw : Reachable qsort maxFiles maxBytes w) (hc : client ≠ 0)
    {op flags : BitVec 8} {path : List UInt8}
    (hop : (flags ||| op) &&& 0xFC ∈ [sapiOpenFile, sapiCloseFile, sapiRemoveFile])
    (here : World Saved Empty) (n : Nat) :
    Flows (fun c => ¬ Stuck qsort client c) ⟨sapiPathOp op flags path (.ret 0), here,
      serverTurns qsort client (n + 1), w, [], []⟩ := by
  by_cases hne : path = []
  · subst hne
    exact flows_not_stuck_nil
  · rw [← opOf_pathRequest op flags path] at hop
    have hm : pathRequest op flags path ≠ 0 := by
      intro h0
      rw [h0] at hop
      exact absurd hop (by decide)
    rw [flows_sapiPathOp hne hm]
    exact not_stuck_of_heardEnd (heardEnd_callEnds.answered (serve_answers hw.wellFormed hc hop
      (takesPath_take hne (lenOf_pathRequest ..) []) qsort) (HeardEnd.returned _))

/-- Flags can turn an open into a remove, an append or an unknown operation. -/
theorem openOp_cases : ∀ flags : BitVec 8,
    (flags ||| sapiOpenFile) &&& 0xFC ∈ [sapiOpenFile, sapiCloseFile, sapiRemoveFile] ∨
    (flags ||| sapiOpenFile) &&& 0xFC = sapiAppendFile ∨
    (flags ||| sapiOpenFile) &&& 0xFC ∉ knownOps ∧
      (flags ||| sapiOpenFile) &&& 0xFC ≠ 0 := by
  decide

theorem heard_openFile (hw : Reachable qsort maxFiles maxBytes w) (hc : client ≠ 0)
    {flags : BitVec 8} {path : List UInt8}
    (happend : (flags ||| sapiOpenFile) &&& 0xFC = sapiAppendFile → path = [] ∨ PathFits path)
    (here : World Saved Empty) (n : Nat) :
    Flows (fun c => ¬ Stuck qsort client c) ⟨sapiPathOp sapiOpenFile flags path (.ret 0), here,
      serverTurns qsort client (n + 1), w, [], []⟩ := by
  have hword := opOf_pathRequest sapiOpenFile flags path
  by_cases hne : path = []
  · subst hne
    exact flows_not_stuck_nil
  rcases openOp_cases flags with hop | hop | ⟨hop, hop0⟩
  · exact heard_pathOp hw hc hop here n
  · rw [flows_sapiPathOp hne (ne_zero_of_opOf (hword.trans hop) (by decide))]
    have htakes := ((happend hop).resolve_left hne).takesPath (lenOf_pathRequest sapiOpenFile
      flags path) []
    exact not_stuck_of_heardEnd (heardEnd_callEnds.answered (serve_answers_append hw.wellFormed hc
      (hword.trans hop) htakes qsort) (HeardEnd.returned _))
  · rw [flows_sapiPathOp hne (ne_zero_of_opOf hword hop0)]
    exact not_stuck_of_heardEnd (heardEnd_callEnds.answered
      (serve_answers_unknown hc (hword ▸ hop) qsort) (HeardEnd.returned _))

theorem heard_lockFile (hc : client ≠ 0) {op : BitVec 8}
    (hlock : op = sapiLockFile ∨ op = sapiUnlockFile) {path : CStr} (hop : path.1 = [] ∨
      opOf (BitVec.ofNat 32 (LittleEndian.decode (path.1.take 4))) ∉ knownOps)
    (here : World Saved Empty) (n : Nat) :
    Flows (fun c => ¬ Stuck qsort client c) ⟨sapiPathOp op 0 path (.ret 0), here,
      serverTurns qsort client (n + 1), w, [], []⟩ := by
  by_cases hne : path.1 = []
  · rw [hne]
    exact flows_not_stuck_nil
  have hword := opOf_pathRequest op 0 path.1
  have hlock : opOf (pathRequest op 0 path.1) = sapiLockFile ∨
      opOf (pathRequest op 0 path.1) = sapiUnlockFile := by
    rw [hword]
    rcases hlock with rfl | rfl
    · exact .inl (by decide)
    · exact .inr (by decide)
  have hm : pathRequest op 0 path.1 ≠ 0 :=
    hlock.elim (ne_zero_of_opOf · (by decide)) (ne_zero_of_opOf · (by decide))
  rw [flows_sapiPathOp hne hm, serve_lock hc hm hlock, ret_bind]
  exact flows_unanswered hc hne path.2 (hop.resolve_left hne) n

theorem heard_readFile (hw : Reachable qsort maxFiles maxBytes w) (hc : client ≠ 0)
    {path : CStr} {size : Nat}
    (hheard : ∀ a f, w.st.table.huGet (requested path) = some a → .file a ∉ w.held →
      (w.st.fuGetfile (requested path)).2.heap a = some f → Readable f client →
      path.1 = [] ∨ f.data ≠ [])
    (here : World Saved Empty) (n : Nat) :
    Flows (fun c => ¬ Stuck qsort client c) ⟨readFile path size, here,
      serverTurns qsort client (n + 1), w, [], []⟩ := by
  rw [readFile]
  by_cases hne : path.1 = []
  · rw [hne]
    exact flows_not_stuck_nil
  have hop := opOf_pathRequest sapiReadFile 0 path.1
  have hm := ne_zero_of_opOf hop (by decide)
  have htakes := takesPath_take hne (lenOf_pathRequest sapiReadFile 0 path.1) []
  rw [cString_of_not_mem fun h => path.2 (List.mem_of_mem_take h)] at htakes
  rw [flows_sapiPathOp hne hm, serve_readFile hop]
  refine not_stuck_of_heardEnd (heardEnd_callEnds.readFile hw.wellFormed hc hm htakes
    (fun a f hf => hw.length_data_le hf) size (HeardEnd.returned _)
    fun a f ha hfree hf hread hnil => ?_)
  exact absurd hnil ((hheard a f ha hfree hf hread).resolve_left hne)

theorem heard_readNFiles (hw : Reachable qsort maxFiles maxBytes w) (hc : client ≠ 0)
    {disk : Disk} {rounds : Nat} {len : BitVec 32} {dirname : Option (List UInt8)}
    (here : World Saved Empty) (n : Nat) :
    Flows (fun c => ¬ Stuck qsort client c) ⟨readNFiles disk rounds len.toNat dirname, here,
      serverTurns qsort client (n + 1), w, [], []⟩ := by
  have hwf := hw.wellFormed
  rw [readNFiles.eq_def]
  split
  · exact flows_not_stuck_of_over (idle_ret _ _)
  cases dirname with
  | none => exact flows_not_stuck_of_over (idle_ret _ _)
  | some dirname =>
      dsimp only
      set message := sapiMessageLen 0 sapiReadNFiles (BitVec.ofNat 32 len.toNat)
      have hop : opOf message = sapiReadNFiles := opOf_sapiMessageLen ..
      have hm := ne_zero_of_opOf hop (by decide)
      rw [flows_sapiSendop_bind, if_neg (by decide), List.nil_append, flows_serverTurns hm,
        serve_readNFiles hop]
      refine not_stuck_of_heardEnd ?_
      cases rounds with
      | zero => exact flows_heardEnd_of_over (idle_fault _) ..
      | succ rounds =>
          by_cases hstorage : .storage ∈ w.held
          · have hidle : Idle (readNFilesRounds disk dirname (rounds + 1) 0 0) here [] := by
              rw [readNFilesRounds, sapiGetPath, read_bind]
              exact idle_read (by decide) _ _
            rw [serverReadNFiles, if_neg (not_or.mpr ⟨hm, hc⟩)]
            exact .of_idle hidle (idle_lock hstorage _ _) (.stopped hidle (.lock _ _ hstorage))
          · rw [flows_serverReadNFiles hm hc hwf hstorage rfl, List.nil_append]
            refine flows_readNFilesRounds_over (fun it hit => hw.listed_fits hit) ?_
            intro p w tc h
            rcases h with rfl | rfl
            · exact flows_heardEnd_of_over (idle_exit _) ..
            · exact flows_heardEnd_of_over (idle_fault _) ..

/-- An eviction for a write that reaches its file. -/
theorem noticed_of_evictionHeard (hw : Reachable qsort maxFiles maxBytes w) {path : List UInt8}
    (hpath : call.pathname = path) {a : Nat} {data : List UInt8} {n : Nat}
    (hn : n = data.length - (w.st.fuGetfile path).2.fuStorageBytesAvailable)
    (h : EvictionHeard qsort w client call a data)
    (hbegins : EvictionBegins (w.st.fuGetfile path).2 n) :
    call.dirname = none ∨
      Noticed (w.st.fuGetfile path).2 (writeVictims qsort w client path a data.length) := by
  subst hpath
  have hwf := hw.wellFormed
  have hwf' : (w.st.fuGetfile call.pathname).2.WellFormed :=
    hwf.fuGetfile call.pathname
  obtain ⟨hlist, hstored⟩ := hbegins
  rw [fuGetfile_currFiles] at hlist
  rw [hn, fuGetfile_bytesAvailable, ← hwf'.accounted.bytes, fuGetfile_currBytes,
    hwf.accounted.bytes] at hstored
  exact (h ⟨hlist, hstored⟩).imp_right (noticed_writeVictims hw)

/-- The two writing calls. `K` is the call from its first answer on, and `hmake`
says that it gets through an eviction. -/
theorem heard_writeAt (hw : Reachable qsort maxFiles maxBytes w) (hc : client ≠ 0)
    {message : SMessage} (hm : message ≠ 0) {path : CStr}
    (hlen : lenOf message = path.1.length % 2 ^ 24) (hfit : PathFits path.1)
    {data : List UInt8} (hdata : data.length < 2 ^ 64) {offset : FileData → Nat}
    (hoff : ∀ f, offset f ≤ f.dataLen) {K : SMessage → ClientM Int}
    (hgo : K sapiSuccess = sapiSendContents data)
    (hstop : ∀ m, m ≠ sapiSuccess → m ≠ sapiEvictMsg → K m = .ret (-1))
    (hheard : ∀ a, WriteReaches w client path a →
      w.st.fuStorageBytesAvailable < data.length → EvictionHeard qsort w client call a data)
    (hpath : call.pathname = path) {here : World Saved Empty}
    (hmake : ∀ (v : World FileStorage Mutex) (gone : List Nat) {a n : Nat}, v.st.WellFormed →
      a ∈ v.st.ptrs → .file a ∈ v.held → n = data.length - v.st.fuStorageBytesAvailable →
      gone = v.st.victims qsort v.held client n →
      v.st.fuStorageBytesAvailable < data.length →
      (EvictionBegins v.st n → call.dirname = none ∨ Noticed v.st gone) →
      Flows HeardEnd ⟨sapiGetResponse >>= K, here,
        serverMakeRoom qsort offset client a data.length, v, [], []⟩) (n : Nat) :
    Flows (fun c => ¬ Stuck qsort client c) ⟨sapiGetResponse >>= K, here,
      serverWriteAt qsort offset message client >>= fun _ => serverTurns qsort client n, w,
      [path, LittleEndian.encode 8 data.length], []⟩ := by
  have hwf := hw.wellFormed
  have htakes := hfit.takesPath hlen [LittleEndian.encode 8 data.length]
  rw [cString_of_not_mem path.2] at htakes
  refine not_stuck_of_heardEnd (heardEnd_callEnds.writeAt hwf hc hm htakes hdata qsort hoff hgo
    hstop (fun _ _ => heardEnd_anyReturn) (fun _ _ _ _ _ _ => heardEnd_anyReturn) ?_)
  intro a ha hstorage hfile hown hroom
  have hwf' : (w.st.fuGetfile path).2.WellFormed :=
    hwf.fuGetfile path
  have hheard := hheard a ⟨ha, hstorage, hfile, hown⟩ hroom
  refine hmake ⟨(w.st.fuGetfile path).2, insert (.file a) (insert .storage w.held)⟩
    (writeVictims qsort w client path a data.length) hwf' ?_
    (Finset.mem_insert_self ..) rfl ?_ ?_ fun hbegins =>
      noticed_of_evictionHeard hw hpath rfl hheard hbegins
  · rw [fuGetfile_ptrs]
    exact WellFormed.huGet_mem_ptrs ha
  · rw [writeVictims, fuGetfile_bytesAvailable]
  · rwa [fuGetfile_bytesAvailable]

theorem heard_dialogue (hw : Reachable qsort maxFiles maxBytes w) (hclient : 0 < client)
    (hheard : Heard qsort w client disk call) (rounds n : Nat) (saved : Saved) :
    Flows (fun c => ¬ Stuck qsort client c)
      (dialogue qsort client disk rounds (n + 1) call saved w [] []) := by
  have hc : client ≠ 0 := by omega
  rw [dialogue]
  cases call with
  | openFile path flags => exact heard_openFile hw hc hheard _ n
  | closeFile path => exact heard_pathOp hw hc (by decide) _ n
  | removeFile path => exact heard_pathOp hw hc (by decide) _ n
  | readFile path size => exact heard_readFile hw hc hheard _ n
  | readNFiles len dirname => exact heard_readNFiles hw hc _ n
  | lockFile path => exact heard_lockFile hc (.inl rfl) hheard _ n
  | unlockFile path => exact heard_lockFile hc (.inr rfl) hheard _ n
  | writeFile path dirname =>
      rw [ApiCall.prog]
      cases hdata : (ApiCall.writeFile path dirname).contents disk with
      | none => exact flows_not_stuck_of_over (writeFile_silent hdata)
      | some data =>
          obtain ⟨hread, hlim⟩ := Option.filter_eq_some_iff.mp hdata
          have hlim : data.length < muLimit := by simpa using hlim
          by_cases hne : path.1 = []
          · rw [writeFile, fuReadFromPath, hread]
            dsimp only
            rw [if_neg (by omega), flows_sapiSendop_bind, if_neg (by decide), hne]
            exact flows_not_stuck_of_over (idle_ret _ _)
          · obtain ⟨hfit, hheard⟩ := (hheard data hdata).resolve_left hne
            have hop := opOf_pathRequest sapiWriteFile 0 path.1
            rw [flows_writeFile hread hlim hne, serve_writeFile hop]
            refine heard_writeAt hw hc (ne_zero_of_opOf hop (by decide)) (lenOf_pathRequest ..)
              hfit (hlim.trans (by decide)) (fun _ => Nat.zero_le _) writeFileAnswered_success
              (fun m hne hne' => writeFileAnswered_failure hne hne') hheard rfl ?_ n
            intro v gone a n hwf ha _ hn hgone hroom hsave
            exact flows_makeRoom_writeFile hc hwf ha hn hgone hroom hsave
  | appendToFile path buf dirname =>
      rw [ApiCall.prog]
      cases hdata : (ApiCall.appendToFile path buf dirname).contents disk with
      | none => exact flows_not_stuck_of_over (appendToFile_silent hdata)
      | some data =>
          obtain ⟨buf, rfl, rfl, hd⟩ := appendToFile_contents hdata
          rw [Option.map_some]
          by_cases hne : path.1 = []
          · rw [appendToFile, if_neg (by simpa using hd), flows_sapiSendop_bind,
              if_neg (by decide), hne]
            exact flows_not_stuck_of_over (idle_ret _ _)
          · obtain ⟨hfit, hheard⟩ := (hheard buf.1 hdata).resolve_left hne
            have hop := opOf_pathRequest sapiAppendFile 0 path.1
            rw [flows_appendToFile hd hne, serve_appendFile hop]
            refine heard_writeAt hw hc (ne_zero_of_opOf hop (by decide)) (lenOf_pathRequest ..)
              hfit buf.2 (fun _ => Nat.le_refl _) appendToFileAnswered_success
              (fun m hne hne' => appendToFileAnswered_failure hne hne') hheard rfl ?_ n
            intro v gone a n hwf ha hheld hn hgone hroom hsave
            exact flows_makeRoom_appendToFile hc hwf ha hheld hn hgone hroom hsave

/-- From any state of the server, a call that is heard does not get stuck, whatever
the client and the server have done so far. -/
theorem no_stuck_call (hw : Reachable qsort maxFiles maxBytes w) (hclient : 0 < client)
    (hheard : Heard qsort w client disk call) (rounds n : Nat) (saved : Saved)
    {c : Talk Saved Empty Int FileStorage Mutex Bool}
    (hreach : Reach (dialogue qsort client disk rounds (n + 1) call saved w [] []) c) :
    ¬ Stuck qsort client c := fun hstuck =>
  (heard_dialogue hw hclient hheard rounds n saved).settled hreach hstuck.settled hstuck

end Dialogue

theorem no_stuck_call_create : ∃ c, Reach openA c ∧ c.client = .ret 0 ∧
    ¬ Stuck Qsort.insertion 5 c := by
  obtain ⟨c, hreach, hr⟩ : ∃ c, Reach openA c ∧ c.client = .ret 0 := ⟨_, reach_run 40 _, rfl⟩
  have hheard : Heard Qsort.insertion emptyServer 5 oneFileDisk
      (.openFile ⟨[97], by decide⟩ 1) := fun happend => absurd happend (by decide)
  exact ⟨c, hreach, hr,
    no_stuck_call emptyServer_reachable (by decide) hheard 0 0 [] hreach⟩

/-- A file that was just created is empty, and a client that reads it waits for
its length. -/
theorem stuck_readFile : ∃ (w : World FileStorage Mutex)
    (c : Talk Saved Empty Int FileStorage Mutex Bool),
    Reachable Qsort.insertion 1 10 w ∧
    Reach (dialogue Qsort.insertion 5 oneFileDisk 0 2 (.readFile ⟨[97], by decide⟩ 0)
      [] w [] []) c ∧
    Stuck Qsort.insertion 5 c := by
  have h := emptyServer_reachable.created 5 [97] rfl
  exact ⟨_, _, h, reach_run 40 _, ⟨8, _, by decide, rfl⟩, rfl, rfl, .inr ⟨1, rfl⟩⟩

end LsoStore
