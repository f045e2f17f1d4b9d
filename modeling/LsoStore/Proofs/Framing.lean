import LsoStore.Proofs.Dialogues
import LsoStore.Proofs.PathIdentity

/-!
# Nothing is left on the wire

Client and server decide separately, branch by branch, how many messages they
send and read. A call is framed if they agree: when both have returned, both
directions of the connection are empty, and the next request begins at its
first byte. `no_unread_bytes` is that, for every call that does not make the
server evict, from any state of the server and for every way the two programs
can be interleaved.

They agree unless a call is given up with something still on its way. A
pathname of no bytes is refused by the client after the request word is sent.
The length of the contents, and contents of no bytes, are sent before the
server has looked at the file, and the branches that refuse the file do not
read them.
-/

namespace LsoStore

open Proc Talk FileStorage

/-- Contents the server reads: they are not empty and it does not refuse the
file, unless it waits for a mutex before that. -/
def TakesContents (w : World FileStorage Mutex) (client : Int) (path data : List UInt8) :
    Prop :=
  .storage ∈ w.held ∨ ∃ a, w.st.table.huGet path = some a ∧
    (.file a ∈ w.held ∨ (data ≠ [] ∧ (w.st.file a).client = client))

/-- The calls that open, close, read, write, append and remove, where client
and server agree on what is sent. -/
def Framed (w : World FileStorage Mutex) (client : Int) (disk : Disk) (call : ApiCall) : Prop :=
  match call with
  | .openFile pathname flags => PathFits pathname ∧
      (flags.truncate 8 ||| sapiOpenFile) &&& 0xFC ∈
        [sapiOpenFile, sapiRemoveFile, sapiAppendFile]
  | .closeFile pathname => PathFits pathname
  | .readFile pathname _ => PathFits pathname
  | .removeFile pathname => PathFits pathname
  | .writeFile pathname _ => ∀ data, call.contents disk = some data →
      PathFits pathname ∧ TakesContents w client pathname data
  | .appendToFile pathname _ _ => ∀ data, call.contents disk = some data →
      PathFits pathname ∧ TakesContents w client pathname data
  | _ => False

/-- How the handler and a framed call end. -/
inductive FramedEnd : Talk Saved Empty Int FileStorage Mutex Int → Prop where
  | quiet {p : ClientM Int} {w : World Saved Empty} (b : Int) (v : World FileStorage Mutex) :
      Idle p w [] → FramedEnd ⟨p, w, .ret b, v, [], []⟩
  | exited (w : World Saved Empty) (q : ServerM Int) (v : World FileStorage Mutex)
      (ts tc : Inbox) : FramedEnd ⟨.exit, w, q, v, ts, tc⟩
  | stopped {p : ClientM Int} {w : World Saved Empty} {q : ServerM Int}
      {v : World FileStorage Mutex} {ts : Inbox} :
      Idle p w [] → Stopped q v ts → FramedEnd ⟨p, w, q, v, ts, []⟩

theorem framedEnd_callEnds : CallEnds FramedEnd where
  returned r w b v := .quiet b v (idle_ret r w [])
  exited := .exited
  stopped _ _ _ _ _ hp hq := .stopped hp hq

/-- When both have returned, nothing is left unread. -/
def AllRead (c : Talk Saved Empty Int FileStorage Mutex Bool) : Prop :=
  ∀ r b, c.client = .ret r → c.server = .ret b → c.toServer = [] ∧ c.toClient = []

section Framing

variable {qsort : Qsort Nat} {client : Int} {w : World Saved Empty} {p : ClientM Int}
  {q : ServerM Int} {v : World FileStorage Mutex} {ts tc : Inbox}

theorem FramedEnd.allRead (h : FramedEnd ⟨p, w, q, v, ts, tc⟩) :
    Flows AllRead ⟨p, w, q >>= fun _ => serverTurns qsort client 0, v, ts, tc⟩ := by
  cases h with
  | quiet b v hp => exact .of_idle hp (idle_ret _ _ _) fun _ _ _ _ => ⟨rfl, rfl⟩
  | exited => exact .of_client (idle_exit _) fun _ _ _ _ _ _ hr => by cases hr
  | stopped hp hq =>
      refine .of_idle hp (idle_bind hq.ne_ret hq.idle) fun _ b _ hb => ?_
      exact absurd hb (bind_ne_ret hq.ne_ret _ b)

theorem allRead_of_framedEnd (h : Flows FramedEnd ⟨p, w, q, v, ts, tc⟩) :
    Flows AllRead ⟨p, w, q >>= fun _ => serverTurns qsort client 0, v, ts, tc⟩ :=
  h.bind fun _ _ _ _ _ _ hend => hend.allRead

end Framing

section Calls

variable {qsort : Qsort Nat} {maxFiles maxBytes : Nat} {w : World FileStorage Mutex}
  {client : Int} {disk : Disk} {rounds : Nat} {call : ApiCall} {saved : Saved}

theorem framed_dialogue (hw : Reachable qsort maxFiles maxBytes w) (hclient : 0 < client)
    (hevict : ¬ Evicts w client disk call) (hframed : Framed w client disk call)
    (rounds : Nat) (saved : Saved) :
    Flows AllRead (dialogue qsort client disk rounds 1 call saved w [] []) := by
  have hwf := hw.wellFormed
  have hc : client ≠ 0 := by omega
  have hpath : ∀ (op flags : BitVec 8) (pathname : CStr), PathFits pathname.1 →
      (flags ||| op) &&& 0xFC ∈
        [sapiOpenFile, sapiCloseFile, sapiRemoveFile, sapiAppendFile] →
      Flows AllRead ⟨sapiPathOp op flags pathname (.ret 0), ⟨saved, ∅⟩,
        serverTurns qsort client 1, w, [], []⟩ := by
    intro op flags pathname hfit hop
    rw [← opOf_pathRequest op flags pathname.1] at hop
    have hm : pathRequest op flags pathname.1 ≠ 0 := by
      intro h0
      rw [h0] at hop
      exact absurd hop (by decide)
    have htakes := hfit.takesPath (lenOf_pathRequest op flags pathname.1) []
    rw [flows_sapiPathOp hfit.1 hm]
    refine allRead_of_framedEnd (framedEnd_callEnds.answered ?_ framedEnd_callEnds.returned)
    by_cases happend : opOf (pathRequest op flags pathname.1) = sapiAppendFile
    · exact serve_answers_append hwf hc happend htakes qsort
    · refine serve_answers hwf hc ?_ htakes qsort
      simp only [List.mem_cons, List.not_mem_nil, or_false] at hop ⊢
      tauto
  have hcontents : ∀ {message : SMessage} {pathname : CStr} {data : List UInt8}
      {offset : FileData → Nat} {K : SMessage → ClientM Int}, PathFits pathname.1 →
      message ≠ 0 → lenOf message = pathname.1.length % 2 ^ 24 → data.length < 2 ^ 64 →
      TakesContents w client pathname data →
      (∀ a, WriteReaches w client pathname a →
        ¬ w.st.fuStorageBytesAvailable < data.length) →
      (∀ f, offset f ≤ f.dataLen) → K sapiSuccess = sapiSendContents data →
      (∀ m, m ≠ sapiSuccess → m ≠ sapiEvictMsg → K m = .ret (-1)) →
      Flows FramedEnd ⟨sapiGetResponse >>= K, ⟨saved, ∅⟩,
        serverWriteAt qsort offset message client, w,
        [pathname, LittleEndian.encode 8 data.length], []⟩ := by
    intro message pathname data offset K hfit hm hlen hdata htakes hroom hoff hgo hstop
    rw [TakesContents] at htakes
    have hstr := cString_of_not_mem pathname.2
    refine framedEnd_callEnds.writeAt hwf hc hm
      (hstr ▸ hfit.takesPath hlen _) hdata qsort hoff hgo hstop ?_ ?_ ?_
    · intro hstorage hforeign
      rcases htakes with h | ⟨a, ha, h | ⟨-, h⟩⟩
      · exact absurd h hstorage
      · exact absurd h (hforeign a ha).1
      · exact absurd h (hforeign a ha).2
    · intro a ha hstorage hfile _ hnil
      rcases htakes with h | ⟨b, hb, h | ⟨h, -⟩⟩
      · exact absurd h hstorage
      · exact absurd (Option.some.inj (ha.symm.trans hb) ▸ h) hfile
      · exact absurd hnil h
    · intro a ha hstorage hfile hown hlt
      exact absurd hlt (hroom a ⟨ha, hstorage, hfile, hown⟩)
  cases call with
  | openFile pathname flags =>
      obtain ⟨hfit, hop⟩ := hframed
      refine hpath _ _ _ hfit ?_
      simp only [List.mem_cons, List.not_mem_nil, or_false] at hop ⊢
      tauto
  | closeFile pathname => exact hpath _ _ _ hframed (by decide)
  | removeFile pathname => exact hpath _ _ _ hframed (by decide)
  | readFile pathname size =>
      have hop := opOf_pathRequest sapiReadFile 0 pathname.1
      have hm := ne_zero_of_opOf hop (by decide)
      rw [dialogue, ApiCall.prog, LsoStore.readFile, flows_sapiPathOp hframed.1 hm]
      refine allRead_of_framedEnd ?_
      rw [serve_readFile hop]
      exact framedEnd_callEnds.readFile hwf hc hm (hframed.takesPath (lenOf_pathRequest ..) [])
        (fun a f hf => hw.length_data_le hf) size framedEnd_callEnds.returned
        fun _ _ _ _ _ _ _ _ _ _ hp => .quiet _ _ hp
  | writeFile pathname dirname =>
      rw [dialogue, ApiCall.prog]
      cases hdata : (ApiCall.writeFile pathname dirname).contents disk with
      | none =>
          exact .of_idle (writeFile_silent hdata []) idle_serverTurns fun _ _ _ _ => ⟨rfl, rfl⟩
      | some data =>
          obtain ⟨hread, hlim⟩ := Option.filter_eq_some_iff.mp hdata
          obtain ⟨hfit, htakes⟩ := hframed data hdata
          have hop := opOf_pathRequest sapiWriteFile 0 pathname.1
          have hlim : data.length < muLimit := by simpa using hlim
          rw [flows_writeFile hread hlim hfit.1, serve_writeFile hop]
          refine allRead_of_framedEnd (hcontents hfit (ne_zero_of_opOf hop (by decide))
            (lenOf_pathRequest ..) (hlim.trans (by decide)) htakes
            (fun a ha hroom => hevict ⟨data, a, hdata, ha, hroom⟩) (fun _ => Nat.zero_le _)
            writeFileAnswered_success fun m hne hne' => writeFileAnswered_failure hne hne')
  | appendToFile pathname buf dirname =>
      rw [dialogue, ApiCall.prog]
      cases hdata : (ApiCall.appendToFile pathname buf dirname).contents disk with
      | none =>
          exact .of_idle (appendToFile_silent hdata []) idle_serverTurns fun _ _ _ _ => ⟨rfl, rfl⟩
      | some data =>
          obtain ⟨buf, rfl, rfl, hd⟩ := appendToFile_contents hdata
          obtain ⟨hfit, htakes⟩ := hframed buf.1 hdata
          have hop := opOf_pathRequest sapiAppendFile 0 pathname.1
          rw [Option.map_some, flows_appendToFile hd hfit.1, serve_appendFile hop]
          refine allRead_of_framedEnd (hcontents hfit (ne_zero_of_opOf hop (by decide))
            (lenOf_pathRequest ..) buf.2 htakes
            (fun a ha hroom => hevict ⟨buf.1, a, hdata, ha, hroom⟩) (fun _ => Nat.le_refl _)
            appendToFileAnswered_success fun m hne hne' => appendToFileAnswered_failure hne hne')
  | readNFiles n dirname => exact hframed.elim
  | lockFile pathname => exact hframed.elim
  | unlockFile pathname => exact hframed.elim

theorem Session.allRead {ts tc : Inbox} (hclient : 0 < client)
    (h : Session qsort maxFiles maxBytes client disk rounds
      (fun w call => ¬ Evicts w client disk call ∧ Framed w client disk call) saved w ts tc) :
    ts = [] ∧ tc = [] := by
  induction h with
  | start => exact ⟨rfl, rfl⟩
  | call hsession hok hreach ih =>
      obtain ⟨rfl, rfl⟩ := ih
      exact (framed_dialogue hsession.reachable hclient hok.1 hok.2 rounds _).settled hreach
        (settled_ret _ _ _ _ _ _) _ _ rfl rfl

/-- In a session of framed calls that do not evict, both directions are empty
whenever a call and its handler have returned. -/
theorem no_unread_bytes {ts tc : Inbox} (hclient : 0 < client)
    (hsession : Session qsort maxFiles maxBytes client disk rounds
      (fun w call => ¬ Evicts w client disk call ∧ Framed w client disk call) saved w ts tc)
    (hevict : ¬ Evicts w client disk call) (hframed : Framed w client disk call)
    {c : Talk Saved Empty Int FileStorage Mutex Bool} {r : Int} {b : Bool}
    (hreach : Reach (dialogue qsort client disk rounds 1 call saved w ts tc) c)
    (hr : c.client = .ret r) (hb : c.server = .ret b) :
    c.toServer = [] ∧ c.toClient = [] := by
  obtain ⟨p, here, q, there, ts', tc'⟩ := c
  obtain rfl : p = .ret r := hr
  obtain rfl : q = .ret b := hb
  exact (hsession.call ⟨hevict, hframed⟩ hreach).allRead hclient

end Calls

/-- A client with one file on its disk, "a" with one byte. -/
def oneFileDisk : Disk where
  read path := if path = [97] then some [1] else none
  writable _ := true

/-- A server with room for one file and ten bytes that stores nothing. -/
def emptyServer : World FileStorage Mutex :=
  ⟨⟨⟨[[]], huHashString, suStringCompare⟩, 1, 0, 10, 0, fun _ => none, 0⟩, ∅⟩

theorem emptyServer_reachable : Reachable Qsort.insertion 1 10 emptyServer :=
  .init (by decide) (by decide) rfl

theorem a_is_text : (0 : UInt8) ∉ [97] := by
  decide

/-- That client opens "a", creating it. -/
def openA : Talk Saved Empty Int FileStorage Mutex Bool :=
  dialogue Qsort.insertion 5 oneFileDisk 0 1 (.openFile ⟨[97], a_is_text⟩ 1) [] emptyServer
    [] []

theorem no_unread_bytes_create : ∃ c, Reach openA c ∧ c.client = .ret 0 ∧
    c.server = .ret true ∧ c.toServer = [] ∧ c.toClient = [] := by
  obtain ⟨c, hreach, hr, hb⟩ : ∃ c, Reach openA c ∧ c.client = .ret 0 ∧ c.server = .ret true :=
    ⟨_, reach_run 40 _, rfl, rfl⟩
  refine ⟨c, hreach, hr, hb, no_unread_bytes (by decide) (.start [] emptyServer_reachable)
    ?_ ?_ hreach hr hb⟩
  · intro h
    obtain ⟨data, a, hdata, -⟩ := h
    cases hdata
  · exact ⟨⟨by decide, .inl (by decide)⟩, by decide⟩

/-- The server has no file "a", and does not read the length of its contents. -/
theorem unread_length : ∃ (w : World FileStorage Mutex)
    (c : Talk Saved Empty Int FileStorage Mutex Bool),
    Reachable Qsort.insertion 1 10 w ∧
    ¬ Evicts w 5 oneFileDisk (.writeFile ⟨[97], by decide⟩ none) ∧
    Reach (dialogue Qsort.insertion 5 oneFileDisk 0 1 (.writeFile ⟨[97], by decide⟩ none) []
      w [] []) c ∧
    c.client = .ret (-1) ∧ c.server = .ret true ∧ c.toServer = [LittleEndian.encode 8 1] := by
  refine ⟨emptyServer, _, emptyServer_reachable, ?_, reach_run 40 _, rfl, rfl, rfl⟩
  intro h
  obtain ⟨data, a, -, ⟨ha, -⟩, -⟩ := h
  cases ha

end LsoStore
