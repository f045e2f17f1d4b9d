import LsoStore.Proofs.Notices
import LsoStore.Proofs.Framing

/-!
# A write that makes the server evict

When a write finds too little room, the server announces an eviction, the
client says whether it wants the files, the server sends a notice for each file
it gives up and a last word, and then the write goes on. `evict_dialogue` says
when client and server get through this in step: the call returns 0 exactly if
its bytes are stored, the client has saved exactly the files that are gone, and
nothing is left unread.

Two ways through it are in step. If all files together are too few bytes, the
server does not begin. And an append that saves the files works if the server
frees enough and no file it gives up is empty: an empty file's notice ends after
the path, while the client goes on to read a length. `writeFile` has no such
way. It looks at the announcement as if it were the last answer and fails, and
it has sent its flag twice by then. An append that does not save the files
takes the word that ends the eviction for the answer to its data.
-/

namespace LsoStore

open Proc Talk FileStorage

/-- The files given up for a write of `len` bytes to the file at `a`, which the
lookup has counted and the handler has locked. -/
def writeVictims (qsort : Qsort Nat) (w : World FileStorage Mutex) (client : Int)
    (path : List UInt8) (a len : Nat) : List Nat :=
  (w.st.fuGetfile path).2.victims qsort (insert (.file a) (insert .storage w.held)) client
    (len - w.st.fuStorageBytesAvailable)

/-- The directory for the files a call gets back. -/
def ApiCall.dirname : ApiCall → Option (List UInt8)
  | .readNFiles _ dirname => dirname.map Subtype.val
  | .writeFile _ dirname => dirname.map Subtype.val
  | .appendToFile _ _ dirname => dirname.map Subtype.val
  | _ => none

/-- What a file that held `old` holds once the call's bytes are stored. -/
def ApiCall.stored (old data : List UInt8) : ApiCall → List UInt8
  | .appendToFile _ _ _ => old ++ data
  | _ => data

/-- The destinations of the files lie below `dirname` and are different files. -/
structure SavesApart (cwd : List (List UInt8)) (dirname : List UInt8) (s : FileStorage)
    (gone : List Nat) : Prop where
  below : ∀ x ∈ gone, PathName.Below (fileAt cwd dirname)
    (fileAt cwd (destPath dirname (s.file x).path))
  apart : ∀ x ∈ gone, ∀ y ∈ gone, fileAt cwd (destPath dirname (s.file x).path) =
    fileAt cwd (destPath dirname (s.file y).path) → x = y

/-- The eviction does not begin, since all files together are too few bytes or
the server exits over their number, or it is for an append that can save every
file that is given up, each in a file of its own below the directory. -/
def EvictsInStep (qsort : Qsort Nat) (w : World FileStorage Mutex) (client : Int) (disk : Disk)
    (cwd : List (List UInt8)) (call : ApiCall) (a : Nat) (data : List UInt8) : Prop :=
  PathFits call.pathname ∧ (8 * w.st.currFiles > muLimit ∨
    w.st.storedBytes < data.length - w.st.fuStorageBytesAvailable ∨
    match call with
    | .appendToFile pathname _ (some dirname) =>
        data.length - w.st.fuStorageBytesAvailable ≤
          w.st.bytesOf (writeVictims qsort w client pathname a data.length) ∧
        (∀ x ∈ writeVictims qsort w client pathname a data.length,
          Savable disk dirname (w.st.file x)) ∧
        SavesApart cwd dirname w.st (writeVictims qsort w client pathname a data.length)
    | _ => False)

/-- The writes of the files that are gone. -/
def evictWrites (dirname : List UInt8) (s : FileStorage) (gone : List Nat) : Saved :=
  gone.map fun x => (destPath dirname (s.file x).path, (s.file x).data)

/-- From `saved` to `saved'` the disk has changed by the files that are gone, which
it holds below `dirname`, and by nothing else. -/
structure HoldsEvicted (cwd : List (List UInt8)) (dirname : List UInt8) (s : FileStorage)
    (gone : List Nat) (saved saved' : Saved) : Prop where
  below : ∀ x ∈ gone, PathName.Below (fileAt cwd dirname)
    (fileAt cwd (destPath dirname (s.file x).path))
  holds : Saved.Holds cwd (evictWrites dirname s gone) saved saved'

theorem SavesApart.holdsEvicted {cwd : List (List UInt8)} {dirname : List UInt8}
    {s : FileStorage} {gone : List Nat} (h : SavesApart cwd dirname s gone) (saved : Saved) :
    HoldsEvicted cwd dirname s gone saved (saved ++ evictWrites dirname s gone) :=
  ⟨h.below, Saved.holds_map h.apart saved⟩

/-- Both sides have returned and agree: the call returned 0 exactly if the file
at `a` is there with the contents `stored`, the client has written exactly the
files that are gone, and the disk holds them below `dirname`, if there is one,
and nothing is unread. -/
structure Agreed {β : Type} (s : FileStorage) (a : Nat) (stored : List UInt8)
    (cwd : List (List UInt8)) (dirname : Option (List UInt8)) (saved : Saved)
    (c : Talk Saved Empty Int FileStorage Mutex β) : Prop where
  returned : ∃ r b, c.client = .ret r ∧ c.server = .ret b ∧
    (r = 0 ↔ a ∈ c.there.st.ptrs ∧ (c.there.st.file a).data = stored)
  evicted : ∃ gone, s.ptrs.Perm (gone ++ c.there.st.ptrs) ∧
    c.here.st = saved ++ (dirname.map fun d => evictWrites d s gone).getD [] ∧
    ∀ d, dirname = some d → HoldsEvicted cwd d s gone saved c.here.st
  read : c.toServer = [] ∧ c.toClient = []

/-- The server has exited, or both sides have returned and agree. -/
def AgreedOrExited {β : Type} (s : FileStorage) (a : Nat) (stored : List UInt8)
    (cwd : List (List UInt8)) (dirname : Option (List UInt8)) (saved : Saved)
    (c : Talk Saved Empty Int FileStorage Mutex β) : Prop :=
  c.server = .exit ∨ Agreed s a stored cwd dirname saved c

section Handler

variable {α : Type} {Q : Talk Saved Empty α FileStorage Mutex Int → Prop}
  {p : ClientM α} {w : World Saved Empty} {v : World FileStorage Mutex} {ts tc : Inbox}
  {client : Int} {message : SMessage} {path : List UInt8} {a n : Nat}

/-- The handler of a write that reaches the file, up to making room. -/
theorem flows_serverWriteAt_reaches (hwf : v.st.WellFormed) (hc : client ≠ 0)
    (hm : message ≠ 0) (hlen : lenOf message = path.length) (hne : path ≠ [])
    (hlim : ¬ path.length + 1 > muLimit) (hn : n < 2 ^ 64)
    (ha : WriteReaches v client (cString path) a) (qsort : Qsort Nat)
    {offset : FileData → Nat} :
    Flows Q ⟨p, w, serverWriteAt qsort offset message client, v,
        path :: LittleEndian.encode 8 n :: ts, tc⟩ ↔
      Flows Q ⟨p, w, serverMakeRoom qsort offset client a n,
        ⟨(v.st.fuGetfile (cString path)).2, insert (.file a) (insert .storage v.held)⟩,
        ts, tc⟩ := by
  obtain ⟨hget, hstorage, hfile, hown⟩ := ha
  have hlive : ((v.st.fuGetfile (cString path)).2).heap a ≠ none := by
    refine (hwf.fuGetfile (cString path)).accounted.live a ?_
    rw [fuGetfile_ptrs]
    exact WellFormed.huGet_mem_ptrs hget
  obtain ⟨f, hf⟩ := Option.ne_none_iff_exists'.mp hlive
  have howner : f.client = client := (fuGetfile_client _ hf).symm.trans hown
  rw [serverWriteAt, if_neg (not_or.mpr ⟨hm, hc⟩),
    flows_serverGetPath_bind hm hc hlen hne hlim]
  dsimp only
  rw [flows_server_lock hstorage, flows_getfile]
  dsimp only
  rw [hget]
  dsimp only
  rw [flows_server_lock (by simpa using hfile), flows_deref (f := f) hf,
    if_neg (not_not.mpr howner), flows_checkReadResponse hn]

end Handler

section MakeRoom

variable {w : World Saved Empty} {v : World FileStorage Mutex} {s : FileStorage} {client : Int}
  {qsort : Qsort Nat} {disk : Disk} {rounds a : Nat} {data stored : List UInt8}
  {offset : FileData → Nat} {cwd : List (List UInt8)} {dirname : Option (List UInt8)}
  {K : SMessage → ClientM Int}

/-- The eviction does not begin, and the write is refused. -/
theorem flows_makeRoom_short (hc : client ≠ 0) (hwf : v.st.WellFormed)
    (hroom : v.st.fuStorageBytesAvailable < data.length) {arr : UArr Nat}
    (harr : v.st.fuEvictFiles qsort (data.length - v.st.fuStorageBytesAvailable) = some arr)
    (hshort : v.st.storedBytes < data.length - v.st.fuStorageBytesAvailable)
    (hstop : K sapiFailure = .ret (-1)) (hptrs : v.st.ptrs = s.ptrs)
    (hnot : (v.st.file a).data ≠ stored) :
    Flows (AgreedOrExited s a stored cwd dirname w.st)
      ⟨sapiGetResponse >>= K, w, serverMakeRoom qsort offset client a data.length, v, [],
        []⟩ := by
  rw [serverMakeRoom, flows_server_get, if_pos hroom,
    flows_serverEvict_short_bind hwf harr (.inl hshort), if_pos (by decide),
    flows_server_unlock, flows_server_unlock, flows_sapiRespond hc, List.nil_append,
    flows_sapiGetResponse_bind, hstop]
  refine .of_idle (idle_ret _ _ _) (idle_ret _ _ _) (.inr ⟨⟨-1, 1, rfl, rfl, ?_⟩,
    ⟨[], ?_, ?_, fun d hd => ?_⟩, rfl, rfl⟩)
  · exact iff_of_false (by decide) fun h => hnot h.2
  · rw [List.nil_append, hptrs]
  · cases dirname with
    | none => simp
    | some dirname => simp [evictWrites]
  · have hnone : ∀ x, x ∉ ([] : List Nat) := fun _ => List.not_mem_nil
    exact ⟨fun x hx => absurd hx (hnone x), fun _ _ he => absurd he List.not_mem_nil,
      fun _ _ _ => rfl⟩

/-- The eviction frees enough for an append, which saves all that is evicted. -/
theorem flows_makeRoom_saves (hc : client ≠ 0) (hwf : v.st.WellFormed)
    (hroom : v.st.fuStorageBytesAvailable < data.length) {arr : UArr Nat}
    (harr : v.st.fuEvictFiles qsort (data.length - v.st.fuStorageBytesAvailable) = some arr)
    (hn : data.length - v.st.fuStorageBytesAvailable ≤ v.st.bytesOf (v.st.victims qsort v.held
      client (data.length - v.st.fuStorageBytesAvailable)))
    {dirname : List UInt8}
    (hsave : ∀ x ∈ v.st.victims qsort v.held client
      (data.length - v.st.fuStorageBytesAvailable),
      Savable disk dirname (v.st.file x) ∧ (0 : UInt8) ∉ (v.st.file x).path ∧
        (v.st.file x).data.length ≤ muLimit)
    (hapart : SavesApart cwd dirname s (v.st.victims qsort v.held client
      (data.length - v.st.fuStorageBytesAvailable)))
    (hrounds : v.st.ptrs.length < rounds) (ha : a ∈ v.st.ptrs) (hheld : .file a ∈ v.held)
    (hptrs : v.st.ptrs = s.ptrs)
    (hfile : ∀ x, (v.st.file x).data = (s.file x).data ∧ (v.st.file x).path = (s.file x).path) :
    Flows (AgreedOrExited s a ((s.file a).data ++ data) cwd (some dirname) w.st)
      ⟨sapiGetResponse >>= appendToFileAnswered disk rounds data (some dirname), w,
        serverMakeRoom qsort FileData.dataLen client a data.length, v, [], []⟩ := by
  set n := data.length - v.st.fuStorageBytesAvailable with hndef
  set gone := v.st.victims qsort v.held client n with hgone
  obtain ⟨hwf', hwo, hfits, hin', hsame⟩ := hwf.room_of_victims hndef hgone hn ha hheld
  have hbytes := hwo.bytes
  have hstored := hwf.accounted.bytes
  have hd : data ≠ [] := by
    intro heq
    subst heq
    simp at hroom
  have hlength : gone.length < rounds := by
    have := hwo.ptrs.length_eq
    rw [List.length_append] at this
    omega
  rw [serverMakeRoom, flows_server_get, if_pos hroom, ← hndef,
    flows_serverEvict_bind hc hwf harr (by omega) (List.ne_nil_of_mem ha)
      (show 1 < 2 ^ 64 by decide) fun q v => flows_appendToFileAnswered_evict,
    ← hgone, if_pos hn, if_pos hn, if_neg (by decide), if_pos (by decide), flows_server_unlock,
    flows_sapiEvictLoop_bind hsave hlength (by decide), if_neg (by decide), sapiSendContents,
    flows_sapiSenddata_bind hd, if_neg (by decide), List.nil_append]
  refine flows_receiveData_fits (idle_sapiGetResponse _ _) (fun v ts => .inl rfl) hc hwf'
    (fun f => Nat.le_refl _) hd hin' hfits fun v' hkeep hcontents => ?_
  · rw [flows_sapiGetResponse_bind, if_neg (not_not.mpr rfl)]
    have hsaved : (gone.map fun x => (destPath dirname (v.st.file x).path, (v.st.file x).data)) =
        gone.map fun x => (destPath dirname (s.file x).path, (s.file x).data) :=
      List.map_congr_left fun x _ => by rw [(hfile x).1, (hfile x).2]
    rw [hsaved]
    refine .of_idle (idle_ret _ _ _) (idle_ret _ _ _) (.inr ⟨⟨0, 0, rfl, rfl, ?_⟩,
      ⟨gone, ?_, rfl, fun d hd => ?_⟩, rfl, rfl⟩)
    · refine iff_of_true rfl ⟨hkeep ▸ hin', ?_⟩
      rw [hcontents, hsame, FileData.dataLen, List.take_length, (hfile a).1]
    · rw [← hptrs, hkeep]
      exact hwo.ptrs
    · cases hd
      exact hapart.holdsEvicted w.st

end MakeRoom

theorem FileStorage.fuGetfile_bytesOf (s : FileStorage) (path : List UInt8) (as : List Nat) :
    (s.fuGetfile path).2.bytesOf as = s.bytesOf as := by
  simp only [bytesOf, FileData.dataLen, (s.fuGetfile_file path _).1]

section Dialogue

variable {qsort : Qsort Nat} {maxFiles maxBytes : Nat} {w : World FileStorage Mutex}
  {client : Int} {disk : Disk} {rounds a : Nat} {saved : Saved} {data stored : List UInt8}
  {cwd : List (List UInt8)} {dirname : Option (List UInt8)}

theorem AgreedOrExited.serverTurns {s : FileStorage} {p : ClientM Int} {here : World Saved Empty}
    {q : ServerM Int} {v : World FileStorage Mutex} {ts tc : Inbox}
    (h : Flows (AgreedOrExited s a stored cwd dirname saved) ⟨p, here, q, v, ts, tc⟩) :
    Flows (AgreedOrExited s a stored cwd dirname saved)
      ⟨p, here, q >>= fun _ => serverTurns qsort client 0, v, ts, tc⟩ := by
  refine h.bind fun p here q v ts tc hend => ?_
  rcases hend with hexit | ⟨⟨r, b, hr, hb, hiff⟩, hevicted, hread⟩
  · obtain rfl : q = .exit := hexit
    exact .of_server (idle_exit _) fun _ _ _ _ => .inl rfl
  · obtain rfl : p = .ret r := hr
    obtain rfl : q = .ret b := hb
    exact .of_idle (idle_ret _ _ _) (idle_ret _ _ _)
      (.inr ⟨⟨r, true, rfl, rfl, hiff⟩, hevicted, hread⟩)

/-- The handler of a write that evicts, if the eviction does not begin or is
known to end well. -/
theorem flows_serverWriteAt_evicts (hw : Reachable qsort maxFiles maxBytes w) (hc : client ≠ 0)
    {message : SMessage} (hm : message ≠ 0) {path : CStr}
    (hlen : lenOf message = path.1.length % 2 ^ 24) (hfit : PathFits path.1)
    (hdata : data.length < 2 ^ 64) (ha : WriteReaches w client path a)
    (hroom : w.st.fuStorageBytesAvailable < data.length) {offset : FileData → Nat}
    {K : SMessage → ClientM Int} (hstop : K sapiFailure = .ret (-1))
    (hstep : 8 * w.st.currFiles > muLimit ∨
      (w.st.storedBytes < data.length - w.st.fuStorageBytesAvailable ∧
        (w.st.file a).data ≠ stored) ∨
      ∀ arr, (w.st.fuGetfile path).2.fuEvictFiles qsort
          (data.length - w.st.fuStorageBytesAvailable) = some arr →
        Flows (AgreedOrExited w.st a stored cwd dirname saved) ⟨sapiGetResponse >>= K, ⟨saved, ∅⟩,
          serverMakeRoom qsort offset client a data.length,
          ⟨(w.st.fuGetfile path).2, insert (.file a) (insert .storage w.held)⟩, [], []⟩) :
    Flows (AgreedOrExited w.st a stored cwd dirname saved) ⟨sapiGetResponse >>= K, ⟨saved, ∅⟩,
      serverWriteAt qsort offset message client, w,
      [path, LittleEndian.encode 8 data.length], []⟩ := by
  have hwf := hw.wellFormed
  have hstr := cString_of_not_mem path.2
  by_cases hlim : lenOf message + 1 > muLimit
  · rw [serverWriteAt, if_neg (not_or.mpr ⟨hm, hc⟩), serverGetPath,
      if_neg (not_or.mpr ⟨hm, hc⟩), muCalloc, if_pos hlim]
    exact .of_server (idle_exit _) fun _ _ _ _ => .inl rfl
  have hlen : lenOf message = path.1.length := by
    rw [hlen] at hlim ⊢
    exact Nat.mod_eq_of_lt (hfit.2.resolve_right hlim)
  rw [flows_serverWriteAt_reaches hwf hc hm hlen hfit.1 (hlen ▸ hlim) hdata (hstr.symm ▸ ha), hstr]
  have havail := w.st.fuGetfile_bytesAvailable path
  have hwf' : (w.st.fuGetfile path).2.WellFormed :=
    hwf.fuGetfile path
  cases harr : (w.st.fuGetfile path).2.fuEvictFiles qsort
      (data.length - w.st.fuStorageBytesAvailable) with
  | none =>
      rw [serverMakeRoom, flows_server_get, if_pos (by rwa [havail]), serverEvict, get_bind,
        flows_server_get]
      dsimp only
      rw [havail, harr]
      exact .of_server (idle_exit _) fun _ _ _ _ => .inl rfl
  | some arr =>
      rcases hstep with hmany | ⟨hshort, hnot⟩ | hgood
      · rw [FileStorage.fuEvictFiles_eq_none_iff.mpr (by simpa using hmany)] at harr
        cases harr
      · rw [← havail] at harr hshort hroom
        refine flows_makeRoom_short (w := ⟨saved, ∅⟩)
          (v := ⟨(w.st.fuGetfile path).2, insert (.file a) (insert .storage w.held)⟩) hc hwf'
          hroom harr ?_ hstop (w.st.fuGetfile_ptrs path) ?_
        · rwa [← hwf'.accounted.bytes, fuGetfile_currBytes, hwf.accounted.bytes]
        · rwa [(w.st.fuGetfile_file path a).1]
      · exact hgood arr harr

theorem evicting_dialogue (hw : Reachable qsort maxFiles maxBytes w) (hclient : 0 < client)
    {call : ApiCall} (hdata : call.contents disk = some data)
    (ha : WriteReaches w client call.pathname a)
    (hroom : w.st.fuStorageBytesAvailable < data.length)
    (hstep : EvictsInStep qsort w client disk cwd call a data)
    (hrounds : w.st.ptrs.length < rounds) (saved : Saved) :
    Flows (AgreedOrExited w.st a (call.stored (w.st.file a).data data) cwd call.dirname saved)
      (dialogue qsort client disk rounds 1 call saved w [] []) := by
  have hwf := hw.wellFormed
  have hc : client ≠ 0 := by omega
  have hmem : a ∈ w.st.ptrs := WellFormed.huGet_mem_ptrs ha.1
  obtain ⟨hfit, hstep⟩ := hstep
  cases call with
  | writeFile path dirname =>
      have hfit : PathFits path.1 := hfit
      obtain ⟨hread, hlim⟩ := Option.filter_eq_some_iff.mp hdata
      have hlim : data.length < muLimit := by simpa using hlim
      have hop := opOf_pathRequest sapiWriteFile 0 path.1
      rw [dialogue, ApiCall.prog, flows_writeFile hread hlim hfit.1, serve_writeFile hop]
      refine AgreedOrExited.serverTurns (flows_serverWriteAt_evicts hw hc
        (ne_zero_of_opOf hop (by decide)) (lenOf_pathRequest ..) hfit (hlim.trans (by decide)) ha
        hroom (writeFileAnswered_failure (by decide) (by decide)) ?_)
      rcases hstep with hmany | hshort | hno
      · exact .inl hmany
      · refine .inr (.inl ⟨hshort, fun heq => ?_⟩)
        have heq : (w.st.file a).data = data := heq
        have hle := dataLen_le_storedBytes hmem
        rw [FileData.dataLen, heq] at hle
        omega
      · exact hno.elim
  | appendToFile path buf dirname =>
      obtain ⟨buf, rfl, rfl, hd⟩ := appendToFile_contents hdata
      have hfit : PathFits path.1 := hfit
      have ha : WriteReaches w client path.1 a := ha
      have hop := opOf_pathRequest sapiAppendFile 0 path.1
      rw [dialogue, ApiCall.prog, Option.map_some, flows_appendToFile hd hfit.1,
        serve_appendFile hop]
      refine AgreedOrExited.serverTurns (flows_serverWriteAt_evicts hw hc
        (ne_zero_of_opOf hop (by decide)) (lenOf_pathRequest ..) hfit buf.2 ha hroom
        (appendToFileAnswered_failure (by decide) (by decide)) ?_)
      rcases hstep with hmany | hshort | hsave
      · exact .inl hmany
      · exact .inr (.inl ⟨hshort, fun heq => hd (List.self_eq_append_right.mp heq)⟩)
      · refine .inr (.inr fun arr harr => ?_)
        cases dirname with
        | none => exact hsave.elim
        | some dirname =>
            obtain ⟨hn, hsave, hapart⟩ := hsave
            have havail := w.st.fuGetfile_bytesAvailable path.1
            have hbytes := w.st.fuGetfile_bytesOf path.1
            have hwf' : (w.st.fuGetfile path).2.WellFormed :=
              hwf.fuGetfile path.1
            rw [writeVictims, ← havail, ← hbytes] at hn
            rw [writeVictims, ← havail] at hapart
            rw [← havail] at harr hroom
            refine flows_makeRoom_saves (w := ⟨saved, ∅⟩)
              (v := ⟨(w.st.fuGetfile path).2, insert (.file a) (insert .storage w.held)⟩) hc hwf'
              hroom harr hn (fun x hx => ?_) hapart ?_ ?_ (Finset.mem_insert_self ..)
              (w.st.fuGetfile_ptrs path) fun x => ?_
            · have hmem : x ∈ w.st.ptrs := by
                rw [← w.st.fuGetfile_ptrs path.1]
                exact victims_subset hx
              obtain ⟨f, hf⟩ := Option.ne_none_iff_exists'.mp (hwf.accounted.live x hmem)
              obtain ⟨hdata, -, hpath⟩ := w.st.fuGetfile_file path.1 x
              obtain ⟨h0, -⟩ := hw.path_short hmem
              refine ⟨(hsave x (by rwa [havail] at hx)).congr hpath.symm hdata.symm, hpath ▸ h0, ?_⟩
              rw [hdata, file_eq _ hf]
              exact hw.length_data_le hf
            · simpa using hrounds
            · simpa using hmem
            · obtain ⟨hd, -, hp⟩ := w.st.fuGetfile_file path.1 x
              exact ⟨hd, hp⟩
  | openFile => cases hdata
  | closeFile => cases hdata
  | readFile => cases hdata
  | readNFiles => cases hdata
  | lockFile => cases hdata
  | unlockFile => cases hdata
  | removeFile => cases hdata

/-- What the next call of a session needs for client and server to keep in
step: it is framed, or it makes the server evict and gets through that. -/
def InStep (qsort : Qsort Nat) (client : Int) (disk : Disk) (cwd : List (List UInt8))
    (rounds : Nat) (w : World FileStorage Mutex) (call : ApiCall) : Prop :=
  (¬ Evicts w client disk call ∧ Framed w client disk call) ∨
  ∃ data a, call.contents disk = some data ∧ WriteReaches w client call.pathname a ∧
    w.st.fuStorageBytesAvailable < data.length ∧
    EvictsInStep qsort w client disk cwd call a data ∧ w.st.ptrs.length < rounds

theorem Session.inStep {ts tc : Inbox} (hclient : 0 < client)
    (h : Session qsort maxFiles maxBytes client disk rounds
      (InStep qsort client disk cwd rounds) saved w ts tc) : ts = [] ∧ tc = [] := by
  induction h with
  | start => exact ⟨rfl, rfl⟩
  | call hsession hok hreach ih =>
      obtain ⟨rfl, rfl⟩ := ih
      have hw := hsession.reachable
      rcases hok with ⟨hevict, hframed⟩ | ⟨data, a, hdata, ha, hroom, hstep, hrounds⟩
      · exact (framed_dialogue hw hclient hevict hframed rounds _).settled hreach
          (settled_ret _ _ _ _ _ _) _ _ rfl rfl
      · rcases (evicting_dialogue hw hclient hdata ha hroom hstep hrounds _).settled hreach
          (settled_ret _ _ _ _ _ _) with hexit | hagreed
        · cases hexit
        · exact hagreed.read

end Dialogue

/-- A client with one file on its disk, "a" with two bytes. -/
def twoByteDisk : Disk where
  read path := if path = [97] then some [1, 2] else none
  writable _ := true

/-- Client 5 appends those bytes to "a", and saves what is evicted in "d". -/
def appendA : ApiCall :=
  .appendToFile ⟨[97], by decide⟩ (some ⟨[1, 2], by decide⟩) (some ⟨[100], by decide⟩)

/-- Or it writes "a" from its disk. -/
def writeA : ApiCall := .writeFile ⟨[97], by decide⟩ (some ⟨[100], by decide⟩)

/-- A server with room for two files and three bytes. Client 5 stored "b" with
two bytes and closed it, and has "a" open, which is empty. Both calls evict "b",
and only the append comes to a good end. -/
theorem evict_b : ∃ w, Reachable Qsort.insertion 2 3 w ∧
    WriteReaches w 5 [97] 1 ∧ w.st.fuStorageBytesAvailable = 1 ∧ w.st.ptrs = [1, 0] ∧
    writeVictims Qsort.insertion w 5 [97] 1 2 = [0] ∧ (w.st.file 0).path = [98] ∧
    (w.st.file 0).data = [7, 8] ∧
    (∃ c, Reach (dialogue Qsort.insertion 5 twoByteDisk 4 1 appendA [] w [] []) c ∧
      c.client = .ret 0 ∧ c.server = .ret true) ∧
    ∃ c, Reach (dialogue Qsort.insertion 5 twoByteDisk 4 1 writeA [] w [] []) c ∧
      c.client = .ret (-1) ∧ c.server = .ret true ∧ c.toServer.length = 1 := by
  have h₀ : Reachable Qsort.insertion 2 3 ⟨_, ∅⟩ := .init (by decide) (by decide) rfl
  have h₁ := h₀.created 5 [98] rfl
  have h₂ := h₁.written 5 [98] [7, 8] rfl
  have h₃ := h₂.closed 5 [98] rfl
  have h₄ := h₃.created 5 [97] rfl
  exact ⟨_, h₄, ⟨rfl, by simp, by simp, rfl⟩, rfl, rfl, rfl, rfl, rfl,
    ⟨_, reach_run 90 _, rfl, rfl⟩, ⟨_, reach_run 90 _, rfl, rfl, rfl⟩⟩

end LsoStore
