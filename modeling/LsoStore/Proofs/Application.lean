import LsoStore.Application
import LsoStore.Proofs.StoreRefines

/-!
# Calls over a connection are calls on the store

An application that is alone with the server, makes only proper calls and has
room for what it sends gets from its calls what the store of owned files
answers, and leaves behind what the store comes to, however client and server
take their turns.
-/

namespace LsoStore

open Proc Talk FileStorage OwnedStore

/-- A storage whose files an application can load: each fits into memory. -/
structure Loadable (names : List UInt8 → Prop) (s : FileStorage) : Prop
    extends Hosts names s where
  short : ∀ a ∈ s.ptrs, (s.file a).data.length ≤ muLimit

theorem Reachable.loadable {qsort : Qsort Nat} {maxFiles maxBytes : Nat} {s : FileStorage}
    {names : List UInt8 → Prop} (h : Reachable qsort maxFiles maxBytes ⟨s, ∅⟩)
    (hs : s.Named names) : Loadable names s := by
  refine ⟨⟨h.wellFormed, hs, fun a ha => h.owner_ne_zero ha⟩, fun a ha => ?_⟩
  obtain ⟨f, hf⟩ := Option.ne_none_iff_exists'.mp (h.wellFormed.accounted.live a ha)
  rw [file_eq s hf]
  exact h.length_data_le hf

/-- The storage has become the entries `t`, by way of at most `files` more files
and `bytes` more bytes. -/
structure Becomes (names : List UInt8 → Prop) (s : FileStorage)
    (t : OwnedStore.Store (List UInt8) Int (List UInt8)) (files bytes : Nat)
    (s' : FileStorage) : Prop where
  loadable : Loadable names s'
  entries : s'.entries = t
  currFiles : s'.currFiles ≤ s.currFiles + files
  currBytes : s'.currBytes ≤ s.currBytes + bytes
  maxFiles : s'.maxFiles = s.maxFiles
  maxBytes : s'.maxBytes = s.maxBytes

section Becomes

variable {names : List UInt8 → Prop} {s s' : FileStorage} {path data : List UInt8}
  {a files bytes : Nat} {c : Int}

theorem Becomes.refl (h : Loadable names s) : Becomes names s s.entries files bytes s :=
  ⟨h, rfl, Nat.le_add_right .., Nat.le_add_right .., rfl, rfl⟩

theorem Becomes.trans {s'' : FileStorage} {t t' : OwnedStore.Store (List UInt8) Int (List UInt8)}
    {files' bytes' : Nat} (h : Becomes names s t files bytes s')
    (h' : Becomes names s' t' files' bytes' s'') :
    Becomes names s t' (files + files') (bytes + bytes') s'' := by
  refine ⟨h'.loadable, h'.entries, ?_, ?_, h'.maxFiles.trans h.maxFiles,
    h'.maxBytes.trans h.maxBytes⟩
  · have := h.currFiles
    have := h'.currFiles
    omega
  · have := h.currBytes
    have := h'.currBytes
    omega

/-- The owner of a file has changed, or not. -/
theorem Becomes.touched (h : Loadable names s) (ha : a ∈ s.ptrs) (ht : Touched s a c s')
    (hc : c ≠ 0) (hfile : (s.file a).path = path) :
    Becomes names s (s.entries.put path ⟨ownerOf c, (s.file a).data⟩) files bytes s' := by
  subst hfile
  have hwf := ht.wellFormed h.wellFormed
  have hself := ht.client_self (h.wellFormed.accounted.live a ha)
  have hpath : ∀ x, (s'.file x).path = (s.file x).path := by
    obtain ⟨g, hg, -, rfl⟩ := ht
    exact s.modifyFile_path a g fun f => (hg f).2
  have hptrs : s'.ptrs = s.ptrs := by
    rw [FileStorage.ptrs, ht.table]
    rfl
  have hentries := h.wellFormed.entries_modify hwf ha hptrs (hpath a) fun b hb => ht.file_of_ne hb
  rw [FileData.entry, hself, ht.data] at hentries
  refine ⟨⟨⟨hwf, fun x hx => ?_, fun x hx => ?_⟩, fun x hx => ?_⟩, hentries, ?_, ?_, ?_, ?_⟩
  · rw [hpath]
    exact h.named x (hptrs ▸ hx)
  · by_cases hxa : x = a
    · rwa [hxa, hself]
    · rw [ht.file_of_ne hxa]
      exact h.owner x (hptrs ▸ hx)
  · rw [ht.data]
    exact h.short x (hptrs ▸ hx)
  · obtain ⟨g, -, -, rfl⟩ := ht
    exact Nat.le_add_right ..
  · obtain ⟨g, -, -, rfl⟩ := ht
    exact Nat.le_add_right ..
  · obtain ⟨g, -, -, rfl⟩ := ht
    rfl
  · obtain ⟨g, -, -, rfl⟩ := ht
    rfl

/-- The owner is still the same. -/
theorem Becomes.looked (h : Loadable names s) (ha : a ∈ s.ptrs)
    (ht : Touched s a (s.file a).client s') : Becomes names s s.entries files bytes s' := by
  have hput : s.entries.put (s.file a).path ⟨ownerOf (s.file a).client, (s.file a).data⟩ =
      s.entries := Store.put_eq_self (h.wellFormed.entries_path ha)
  rw [← hput]
  exact .touched h ha ht (h.owner a ha) rfl

/-- A new file. -/
theorem Becomes.grown (h : Loadable names s) (hg : Grown s path [] c a s') (hname : names path)
    (hc : c ≠ 0) : Becomes names s (s.entries.put path ⟨ownerOf c, []⟩) 1 bytes s' := by
  refine ⟨⟨⟨hg.wellFormed, fun x hx => ?_, fun x hx => ?_⟩, fun x hx => ?_⟩,
    entries_grown h.wellFormed hg, hg.currFiles.le, ?_, hg.maxFiles, hg.maxBytes⟩
  · rcases List.mem_cons.mp (hg.ptrs.mem_iff.mp hx) with rfl | hold
    · rwa [hg.path]
    · rw [hg.same x hold]
      exact h.named x hold
  · rcases List.mem_cons.mp (hg.ptrs.mem_iff.mp hx) with rfl | hold
    · rwa [hg.client]
    · rw [hg.same x hold]
      exact h.owner x hold
  · rcases List.mem_cons.mp (hg.ptrs.mem_iff.mp hx) with rfl | hold
    · rw [hg.data]
      exact Nat.zero_le _
    · rw [hg.same x hold]
      exact h.short x hold
  · have hbytes := hg.currBytes
    rw [List.length_nil] at hbytes
    omega

/-- Other contents. -/
theorem Becomes.rewritten (h : Loadable names s) (ha : a ∈ s.ptrs)
    (hname : (s.file a).path = path) (hlim : data.length ≤ muLimit)
    (hgrows : data.length ≤ (s.file a).data.length + bytes)
    (hfit : s.currBytes + bytes ≤ s.maxBytes) :
    Becomes names s (s.entries.put path ⟨ownerOf (s.file a).client, data⟩) files bytes
      (s.rewritten a data) := by
  subst hname
  have hlive := h.wellFormed.accounted.live a ha
  obtain ⟨f, hf⟩ := Option.ne_none_iff_exists'.mp hlive
  have hle : (s.file a).data.length ≤ s.currBytes := h.wellFormed.accounted.dataLen_le ha
  have hfits : s.currBytes - (s.file a).dataLen + data.length ≤ s.maxBytes := by
    rw [FileData.dataLen]
    omega
  have hwf : (s.rewritten a data).WellFormed :=
    h.wellFormed.rewrite hlive (fun _ _ => rfl) (fun _ => rfl) hfits
  have hself : (s.rewritten a data).file a = { f with dataInfo := f.dataInfo + 1, data := data } :=
    modifyFile_file_self s a (fun f => { f with dataInfo := f.dataInfo + 1, data := data }) hf
  have hrest : ∀ x, x ≠ a → (s.rewritten a data).file x = s.file x :=
    fun x hx => modifyFile_file_of_ne s a _ hx
  have hfile := file_eq s hf
  have hentries := h.wellFormed.entries_modify hwf ha rfl (by rw [hself, hfile]) hrest
  rw [hself, FileData.entry] at hentries
  dsimp only at hentries
  refine ⟨⟨⟨hwf, fun x hx => ?_, fun x hx => ?_⟩, fun x hx => ?_⟩, by rw [hentries, hfile],
    Nat.le_add_right .., ?_, rfl, rfl⟩
  · have hpath := s.modifyFile_path a (fun f => { f with dataInfo := f.dataInfo + 1, data := data })
      (fun _ => rfl) x
    exact hpath ▸ h.named x hx
  · by_cases hxa : x = a
    · rw [hxa, hself]
      exact hfile ▸ h.owner a ha
    · rw [hrest x hxa]
      exact h.owner x hx
  · by_cases hxa : x = a
    · rwa [hxa, hself]
    · rw [hrest x hxa]
      exact h.short x hx
  · show s.currBytes - (s.file a).dataLen + data.length ≤ _
    rw [FileData.dataLen]
    omega

end Becomes

/-! ## One call -/

section Calls

variable {qsort : Qsort Nat} {client : Int} {disk : Disk} {rounds : Nat}
  {names : List UInt8 → Prop} {s s' : FileStorage} {call : ApiCall} {op : Op (List UInt8)}
  {path : CStr} {dirname : Option CStr}

/-- The call gets what the store answers, and the storage becomes what the store
comes to. -/
def Answered (qsort : Qsort Nat) (client : Int) (disk : Disk) (rounds : Nat)
    (names : List UInt8 → Prop) (s : FileStorage) (call : ApiCall) (op : Op (List UInt8)) :
    Prop :=
  ∀ w : World Saved Empty, ∃ s',
    Exchanges (serverTurns qsort client) 1 (call.run disk rounds) w ⟨s, ∅⟩
      (returned (op.result [] s.entries client call.pathname).1) w ⟨s', ∅⟩ ∧
    Becomes names s (op.result [] s.entries client call.pathname).2 call.newFiles
      (call.newBytes disk) s'

/-- A call that leaves nothing in a buffer. -/
theorem Answered.of_prog {reply : Reply (List UInt8)}
    {t : OwnedStore.Store (List UInt8) Int (List UInt8)} {r : Int}
    (hrun : call.run disk rounds = call.prog disk rounds >>= fun r => .ret (r, none))
    (hresult : op.result [] s.entries client call.pathname = (reply, t))
    (hreply : returned reply = (r, none))
    (h : ∀ w : World Saved Empty, ∃ s',
      Exchanges (serverTurns qsort client) 1 (call.prog disk rounds) w ⟨s, ∅⟩ r w ⟨s', ∅⟩ ∧
      Becomes names s t call.newFiles (call.newBytes disk) s') :
    Answered qsort client disk rounds names s call op := by
  intro w
  obtain ⟨s', hcall, hbecomes⟩ := h w
  rw [hresult, hreply, hrun]
  exact ⟨s', hcall.bind (j := 0) (.ret _ _ _ _), hbecomes⟩

/-- The entry of a file that is open to somebody, or to nobody. -/
theorem Hosts.entry_open {a : Nat} (hs : Hosts names s) (hnames : PrefixFree names)
    (hname : names path.1) (hget : s.table.huGet path.1 = some a)
    (hopen : (s.file a).client ≠ -1) :
    s.entries path.1 = some ⟨some (s.file a).client, (s.file a).data⟩ := by
  rw [hs.wellFormed.entries_huGet hnames hs.named hname hget, FileData.entry, ownerOf,
    if_neg hopen]

theorem Hosts.entry_closed {a : Nat} (hs : Hosts names s) (hnames : PrefixFree names)
    (hname : names path.1) (hget : s.table.huGet path.1 = some a)
    (hclosed : (s.file a).client = -1) :
    s.entries path.1 = some ⟨none, (s.file a).data⟩ := by
  rw [hs.wellFormed.entries_huGet hnames hs.named hname hget, FileData.entry, ownerOf,
    if_pos hclosed]

/-- The file that the client owns under a name. -/
theorem Hosts.own {old : List UInt8} (hs : Hosts names s) (hnames : PrefixFree names)
    (hname : names path.1) (hentry : s.entries path.1 = some ⟨some client, old⟩) :
    ∃ a, s.table.huGet path.1 = some a ∧ (s.file a).client = client ∧ (s.file a).data = old := by
  cases hget : s.table.huGet path.1 with
  | none =>
      rw [hs.wellFormed.entries_missing hget] at hentry
      cases hentry
  | some a =>
      refine ⟨a, rfl, ?_⟩
      by_cases hopen : (s.file a).client = -1
      · rw [hs.entry_closed hnames hname hget hopen] at hentry
        injection hentry with hentry
        injection hentry with howner
        cases howner
      · rw [hs.entry_open hnames hname hget hopen] at hentry
        injection hentry with hentry
        injection hentry with howner hdata
        injection howner with howner
        exact ⟨howner, hdata⟩

theorem openFile_answered {flags : BitVec 32} (hclient : 0 < client) (hs : Loadable names s)
    (hnames : PrefixFree names) (hname : names path.1) (hp : Sendable path.1)
    (hflags : flags.truncate 8 &&& (0xFC : BitVec 8) = 0)
    (hfiles : s.currFiles + (ApiCall.openFile path flags).newFiles ≤ s.maxFiles)
    (hbytes : s.currBytes < s.maxBytes) :
    Answered qsort client disk rounds names s (.openFile path flags)
      (.acquire (hasFlag flags oCreate)) := by
  have hc : client ≠ 0 := by omega
  have howner : ownerOf client = some client := if_neg (by omega)
  have hlow : ∀ f : BitVec 8, f &&& 0xFC = 0 → (f ||| sapiOpenFile) &&& 0xFC = sapiOpenFile := by
    decide
  have hcreate : ∀ f : BitVec 8, (f ||| sapiOpenFile) &&& oCreate = f &&& oCreate := by
    decide
  have hop := hlow _ hflags
  have hm : pathRequest sapiOpenFile (flags.truncate 8) path.1 ≠ 0 :=
    pathRequest_ne_zero (by rw [hop]; decide)
  have hflag : hasFlag (pathRequest sapiOpenFile (flags.truncate 8) path.1) oCreate =
      hasFlag flags oCreate := by
    rw [hasFlag_pathRequest, hcreate, hasFlag_eq]
  cases hget : s.table.huGet path.1 with
  | none =>
      have hnone := hs.wellFormed.entries_missing hget
      cases hcr : hasFlag flags oCreate with
      | false =>
          refine .of_prog rfl (Op.result_missing hnone ?_) rfl fun w => ⟨s, ?_, .refl hs⟩
          · intro heq
            cases heq
          · exact exchanges_openFile hp hop
              (openFile_missing hc hm (hp.sent ..) hget (hflag.trans hcr))
      | true =>
          refine .of_prog rfl (Op.result_created hnone) rfl fun w => ?_
          rw [ApiCall.newFiles, if_pos hcr] at hfiles ⊢
          obtain ⟨s', hanswer, hgrown⟩ := openFile_creates hs.wellFormed hc hm (hp.sent ..) hget
            (hflag.trans hcr) (by omega) hbytes
          exact ⟨s', exchanges_openFile hp hop hanswer, howner ▸ .grown hs hgrown hname hc⟩
  | some a =>
      have ha := WellFormed.huGet_mem_ptrs hget
      have hpath := (hs.wellFormed.huGet_name hnames hs.named hname hget).2
      by_cases hopen : (s.file a).client = -1
      · refine .of_prog rfl (Op.result_acquired (hs.entry_closed hnames hname hget hopen)) rfl
          fun w => ?_
        obtain ⟨s', hanswer, ht⟩ := openFile_free hs.wellFormed hc hm (hp.sent ..) hget hopen
        exact ⟨s', exchanges_openFile hp hop hanswer, howner ▸ .touched hs ha ht hc hpath⟩
      · refine .of_prog rfl (Op.result_taken (hs.entry_open hnames hname hget hopen)) rfl
          fun w => ?_
        obtain ⟨s', hanswer, ht⟩ := openFile_busy hs.wellFormed hc hm (hp.sent ..) hget hopen
        exact ⟨s', exchanges_openFile hp hop hanswer, .looked hs ha ht⟩

/-- A file that is there, but that the client does not have open. -/
theorem Hosts.foreign {a : Nat} (hclient : client ≠ -1) (hs : Hosts names s)
    (hnames : PrefixFree names) (hname : names path.1) (hget : s.table.huGet path.1 = some a)
    (hforeign : (s.file a).client ≠ client) (hop : ∀ create, op ≠ .acquire create) :
    op.result [] s.entries client path.1 = (.owned, s.entries) := by
  refine Op.result_foreign (hs.wellFormed.entries_huGet hnames hs.named hname hget) ?_ hop
  rw [FileData.entry, ne_eq, ownerOf_eq_some hclient]
  exact hforeign

theorem closeFile_answered (hclient : 0 < client) (hs : Loadable names s)
    (hnames : PrefixFree names) (hname : names path.1) (hp : Sendable path.1) :
    Answered qsort client disk rounds names s (.closeFile path) .release := by
  have hc : client ≠ 0 := by omega
  have hc' : client ≠ -1 := by omega
  cases hget : s.table.huGet path.1 with
  | none =>
      refine .of_prog rfl (Op.result_missing (hs.wellFormed.entries_missing hget) ?_) rfl
        fun w => ⟨s, exchanges_closeFile_missing hc hp hget, .refl hs⟩
      intro hop
      cases hop
  | some a =>
      have ha := WellFormed.huGet_mem_ptrs hget
      have hpath := (hs.wellFormed.huGet_name hnames hs.named hname hget).2
      by_cases hown : (s.file a).client = client
      · have hentry := hs.entry_open hnames hname hget (by omega)
        rw [hown] at hentry
        refine .of_prog rfl (Op.result_own hentry) rfl fun w => ?_
        obtain ⟨s', hcall, ht⟩ := exchanges_closeFile_own qsort w hs.wellFormed hc hp hget hown
        exact ⟨s', hcall, .touched hs ha ht (by decide) hpath⟩
      · refine .of_prog rfl (hs.foreign hc' hnames hname hget hown ?_) rfl fun w => ?_
        · intro create hop
          cases hop
        · obtain ⟨s', hcall, ht⟩ :=
            exchanges_closeFile_foreign qsort w hs.wellFormed hc hp hget hown
          exact ⟨s', hcall, .looked hs ha ht⟩

theorem readFile_answered {size : Nat} (hclient : 0 < client) (hs : Loadable names s)
    (hnames : PrefixFree names) (hname : names path.1) (hp : Sendable path.1)
    (hempty : s.entries path.1 ≠ some ⟨some client, []⟩) :
    Answered qsort client disk rounds names s (.readFile path size) .read := by
  have hc : client ≠ 0 := by omega
  have hc' : client ≠ -1 := by omega
  have hread : ∀ create, (.read : Op (List UInt8)) ≠ .acquire create := by
    intro create hop
    cases hop
  intro w
  cases hget : s.table.huGet path.1 with
  | none =>
      refine ⟨s, ?_, ?_⟩
      · rw [ApiCall.pathname, Op.result_missing (hs.wellFormed.entries_missing hget) (hread true)]
        exact (exchanges_readFile_missing hc hp hget).bind (j := 0) (.ret _ _ _ _)
      · rw [ApiCall.pathname, Op.result_missing (hs.wellFormed.entries_missing hget) (hread true)]
        exact .refl hs
  | some a =>
      have ha := WellFormed.huGet_mem_ptrs hget
      by_cases hown : (s.file a).client = client
      · have hentry := hs.entry_open hnames hname hget (by omega)
        rw [hown] at hentry
        have hne : (s.file a).data ≠ [] := by
          intro hnil
          rw [hnil] at hentry
          exact hempty hentry
        obtain ⟨s', hcall, ht⟩ := exchanges_readFile_own qsort w size hs.wellFormed hc hp hget
          hown rfl hne (hs.short a ha)
        refine ⟨s', ?_, ?_⟩
        · rw [ApiCall.pathname, Op.result_own hentry]
          exact hcall.bind (j := 0) (.ret _ _ _ _)
        · rw [ApiCall.pathname, Op.result_own hentry]
          exact .looked hs ha (hown.symm ▸ ht)
      · obtain ⟨s', hcall, ht⟩ := exchanges_readFile_foreign qsort w size hs.wellFormed hc hp hget
          (hs.owner a ha) hown
        refine ⟨s', ?_, ?_⟩
        · rw [ApiCall.pathname, hs.foreign hc' hnames hname hget hown hread]
          exact hcall.bind (j := 0) (.ret _ _ _ _)
        · rw [ApiCall.pathname, hs.foreign hc' hnames hname hget hown hread]
          exact .looked hs ha ht

/-- Looking a file up first makes no difference to what it is rewritten to. -/
theorem Becomes.written {a files bytes : Nat} {data : List UInt8} (hclient : 0 < client)
    (hs : Loadable names s) (hpath : (s.file a).path = path.1)
    (hget : s.table.huGet path.1 = some a) (hown : (s.file a).client = client)
    (hlim : data.length ≤ muLimit) (hgrows : data.length ≤ (s.file a).data.length + bytes)
    (hfit : s.currBytes + bytes ≤ s.maxBytes) :
    Becomes names s (s.entries.put path.1 ⟨some client, data⟩) files bytes
      ((s.fuGetfile path.1).2.rewritten a data) := by
  have ha := WellFormed.huGet_mem_ptrs hget
  have howner : ownerOf client = some client := if_neg (by omega)
  obtain ⟨hdata, hclient', hpath'⟩ := s.fuGetfile_file path.1 a
  have hlooked : Becomes names s s.entries 0 0 (s.fuGetfile path.1).2 :=
    .looked hs ha (.getfile hget rfl)
  have hcurr : (s.fuGetfile path.1).2.currBytes = s.currBytes := fuGetfile_currBytes ..
  have hwritten : Becomes names (s.fuGetfile path.1).2 _ files bytes _ :=
    .rewritten hlooked.loadable (by rwa [fuGetfile_ptrs]) (hpath'.trans hpath) hlim (by rwa [hdata])
      (by rwa [hcurr, hlooked.maxBytes])
  rw [hlooked.entries, hclient', hown, howner] at hwritten
  have hboth := hlooked.trans hwritten
  rwa [Nat.zero_add, Nat.zero_add] at hboth

theorem writeFile_answered {old data : List UInt8} (hclient : 0 < client) (hs : Loadable names s)
    (hnames : PrefixFree names) (hname : names path.1) (hp : Sendable path.1)
    (hentry : s.entries path.1 = some ⟨some client, old⟩) (hread : disk.read path.1 = some data)
    (hne : data ≠ []) (hlim : data.length < muLimit)
    (hbytes : s.currBytes + (ApiCall.writeFile path dirname).newBytes disk < s.maxBytes) :
    Answered qsort client disk rounds names s (.writeFile path dirname)
      (.update fun _ => data) := by
  have hc : client ≠ 0 := by omega
  obtain ⟨a, hget, hown, hold⟩ := hs.own hnames hname hentry
  have hpath := (hs.wellFormed.huGet_name hnames hs.named hname hget).2
  have hnew : (ApiCall.writeFile path dirname).newBytes disk = data.length := by
    rw [ApiCall.newBytes, ApiCall.contents, hread, Option.filter_some, if_pos (decide_eq_true hlim)]
    rfl
  rw [hnew] at hbytes
  refine .of_prog rfl (Op.result_own hentry) rfl fun w =>
    ⟨(s.fuGetfile path.1).2.rewritten a data, ?_, ?_⟩
  · exact exchanges_writeFile_own hs.wellFormed hc hp hget hown hread hne hlim (by omega)
  · rw [hnew]
    exact .written hclient hs hpath hget hown hlim.le (Nat.le_add_left ..) hbytes.le

theorem appendToFile_answered {old : List UInt8} {data : Buf} (hclient : 0 < client)
    (hs : Loadable names s) (hnames : PrefixFree names) (hname : names path.1)
    (hp : Sendable path.1) (hentry : s.entries path.1 = some ⟨some client, old⟩)
    (hne : data.1 ≠ []) (hlim : old.length + data.1.length ≤ muLimit)
    (hbytes : s.currBytes + (ApiCall.appendToFile path (some data) dirname).newBytes disk <
      s.maxBytes) :
    Answered qsort client disk rounds names s (.appendToFile path (some data) dirname)
      (.update fun old => old ++ data.1) := by
  have hc : client ≠ 0 := by omega
  obtain ⟨a, hget, hown, hold⟩ := hs.own hnames hname hentry
  have hpath := (hs.wellFormed.huGet_name hnames hs.named hname hget).2
  have hnew : (ApiCall.appendToFile path (some data) dirname).newBytes disk = data.1.length := by
    rw [ApiCall.newBytes, ApiCall.contents, if_neg (List.length_pos_of_ne_nil hne).ne']
    rfl
  rw [hnew] at hbytes
  subst hold
  refine .of_prog rfl (Op.result_own hentry) rfl fun w =>
    ⟨(s.fuGetfile path.1).2.rewritten a ((s.file a).data ++ data.1), ?_, ?_⟩
  · exact exchanges_appendToFile_own hs.wellFormed hc hp hget hown hne hlim (by omega)
  · rw [hnew]
    exact .written hclient hs hpath hget hown (by rwa [List.length_append])
      (List.length_append ..).le hbytes.le

theorem call_answered (hclient : 0 < client) (hs : Loadable names s) (hnames : PrefixFree names)
    (hname : names call.pathname) (hp : Sendable call.pathname)
    (hproper : call.Proper disk client s.entries)
    (hfiles : s.currFiles + call.newFiles ≤ s.maxFiles)
    (hbytes : s.currBytes + call.newBytes disk < s.maxBytes) :
    ∃ op, call.asks disk = some op ∧ Answered qsort client disk rounds names s call op := by
  have hroom : s.currBytes < s.maxBytes := by omega
  cases call with
  | openFile path flags =>
      exact ⟨_, rfl, openFile_answered hclient hs hnames hname hp hproper hfiles hroom⟩
  | closeFile path => exact ⟨_, rfl, closeFile_answered hclient hs hnames hname hp⟩
  | readFile path size => exact ⟨_, rfl, readFile_answered hclient hs hnames hname hp hproper⟩
  | writeFile path dirname =>
      obtain ⟨old, data, hentry, hread, hne, hlim⟩ := hproper
      refine ⟨.update fun _ => data, ?_, ?_⟩
      · rw [ApiCall.asks, hread]
        rfl
      · exact writeFile_answered hclient hs hnames hname hp hentry hread hne hlim hbytes
  | appendToFile path buf dirname =>
      obtain ⟨old, data, hentry, rfl, hne, hlim⟩ := hproper
      exact ⟨_, rfl, appendToFile_answered hclient hs hnames hname hp hentry hne hlim hbytes⟩
  | readNFiles n dirname => exact hproper.elim
  | lockFile path => exact hproper.elim
  | unlockFile path => exact hproper.elim
  | removeFile path => exact hproper.elim

/-! ## All the calls -/

theorem exchanges_makeCalls (hclient : 0 < client) (hnames : PrefixFree names)
    (calls : List ApiCall) (hcalls : ∀ call ∈ calls, names call.pathname ∧ Sendable call.pathname)
    (hs : Loadable names s) (hproper : ProperCalls disk client calls s.entries)
    (hfiles : s.currFiles + (calls.map (·.newFiles)).sum ≤ s.maxFiles)
    (hbytes : s.currBytes + (calls.map (·.newBytes disk)).sum < s.maxBytes)
    (w : World Saved Empty) :
    ∃ s', Exchanges (serverTurns qsort client) calls.length (makeCalls disk rounds calls) w ⟨s, ∅⟩
        ((perform [] client (asked disk calls) s.entries).1.map returned) w ⟨s', ∅⟩ ∧
      Becomes names s (perform [] client (asked disk calls) s.entries).2
        (calls.map (·.newFiles)).sum (calls.map (·.newBytes disk)).sum s' := by
  induction calls generalizing s with
  | nil => exact ⟨s, .ret _ _ _ _, .refl hs⟩
  | cons call rest ih =>
      rw [List.forall_mem_cons] at hcalls
      obtain ⟨⟨hname, hp⟩, hcalls⟩ := hcalls
      obtain ⟨hproper, hrest⟩ := hproper
      rw [List.map_cons, List.sum_cons] at hfiles hbytes
      obtain ⟨op, hop, hanswered⟩ :=
        call_answered hclient hs hnames hname hp hproper (by omega) (by omega)
      obtain ⟨s₁, hcall, hbecomes⟩ := hanswered w
      have hentries := hbecomes.entries
      have hfiles₁ := hbecomes.currFiles
      have hbytes₁ := hbecomes.currBytes
      obtain ⟨s₂, hcalls₂, hbecomes₂⟩ := ih hcalls hbecomes.loadable (hentries ▸ hrest op hop)
        (by have := hbecomes.maxFiles; omega) (by have := hbecomes.maxBytes; omega)
      rw [hentries] at hcalls₂ hbecomes₂
      have hasked : asked disk (call :: rest) = (call.pathname, op) :: asked disk rest := by
        rw [asked, List.filterMap_cons, hop]
        rfl
      have hlist : Exchanges (serverTurns qsort client) rest.length
          (makeCalls disk rounds rest >>= fun rs => .ret (_ :: rs)) w ⟨s₁, ∅⟩
          (returned (op.result [] s.entries client call.pathname).1 :: _) w ⟨s₂, ∅⟩ :=
        Nat.zero_add rest.length ▸ hcalls₂.bind (j := 0) (.ret _ (_ :: _) w ⟨s₂, ∅⟩)
      rw [hasked, List.map_cons, List.map_cons, List.sum_cons, List.sum_cons]
      exact ⟨s₂, hcall.bind hlist, hbecomes.trans hbecomes₂⟩

end Calls

theorem two_bytes_fit : ([2, 3] : List UInt8).length < 2 ^ 64 := by
  decide

/-- The file "a" is made, filled from the disk, added to, read and closed. -/
def fiveCalls : List ApiCall :=
  let a : CStr := ⟨[97], a_is_text⟩
  [.openFile a 1, .writeFile a none, .appendToFile a (some ⟨[2, 3], two_bytes_fit⟩) none,
    .readFile a 0, .closeFile a]

theorem fiveCalls_proper : ProperCalls oneFileDisk 5 fiveCalls fun _ => none := by
  refine ⟨rfl, fun _ hop => ?_⟩
  obtain rfl := Option.some.inj hop
  refine ⟨⟨[], [1], rfl, rfl, by decide, by decide⟩, fun _ hop => ?_⟩
  obtain rfl := Option.some.inj hop
  refine ⟨⟨[1], _, rfl, rfl, by decide, by decide⟩, fun _ hop => ?_⟩
  obtain rfl := Option.some.inj hop
  refine ⟨fun hread => ?_, fun _ hop => ?_⟩
  · have hread : some (⟨some 5, [1, 2, 3]⟩ : Entry Int (List UInt8)) = some ⟨some 5, []⟩ := hread
    cases hread
  · obtain rfl := Option.some.inj hop
    exact ⟨trivial, fun _ _ => trivial⟩

end LsoStore
