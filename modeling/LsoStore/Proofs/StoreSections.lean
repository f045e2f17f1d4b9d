import LsoStore.Store
import LsoStore.Proofs.SectionInvariants
import LsoStore.Proofs.Transfer

/-!
# The sections of the handlers as calls on the store

What each section of a handler does to the stored files, told by their entries:
the section in which a handler answers is a call on the store of owned files, and
the others leave the entries alone, but for what a write drops to make room.
Where a file was found by a name, it is the file of that name, as long as no name
is a prefix of another.
-/

namespace LsoStore

open Proc FileStorage OwnedStore

/-! ## Names -/

/-- No name is the beginning of another. -/
def PrefixFree (names : List UInt8 → Prop) : Prop :=
  ∀ p q, names p → names q → p <+: q → p = q

theorem prefixFree_one (path : List UInt8) : PrefixFree (· = path) := fun _ _ hp hq _ =>
  hp.trans hq.symm

namespace FileStorage

/-- The stored files carry names. -/
def Named (s : FileStorage) (names : List UInt8 → Prop) : Prop :=
  ∀ a ∈ s.ptrs, names (s.file a).path

variable {s s' : FileStorage} {names : List UInt8 → Prop} {a b : Nat} {path : List UInt8}

theorem WellFormed.path_injective (h : s.WellFormed) (ha : a ∈ s.ptrs) (hb : b ∈ s.ptrs)
    (hpath : (s.file a).path = (s.file b).path) : a = b := by
  have hget := h.huGet_path ha
  rw [hpath, h.huGet_path hb] at hget
  injection hget with hget
  exact hget.symm

/-- A name leads to the file that carries it. -/
theorem WellFormed.huGet_name (h : s.WellFormed) (hnames : PrefixFree names)
    (hs : s.Named names) (hpath : names path) (hget : s.table.huGet path = some a) :
    a ∈ s.ptrs ∧ (s.file a).path = path := by
  have ha := WellFormed.huGet_mem_ptrs hget
  obtain ⟨k, hmem, -, hzero⟩ := h.ordered.huGet_key hget
  have hk : (s.file a).path = k := h.paths _ hmem
  rw [h.compare, suStringCompare_eq_zero_iff, ← hk] at hzero
  refine ⟨ha, ?_⟩
  rcases hzero with hpre | hpre
  · exact (hnames _ _ hpath (hs a ha) hpre).symm
  · exact hnames _ _ (hs a ha) hpath hpre

/-! ## Entries -/

theorem WellFormed.entries_path (h : s.WellFormed) (ha : a ∈ s.ptrs) :
    s.entries (s.file a).path = some (s.file a).entry := by
  have hfind : s.ptrs.find? (fun b => (s.file b).path = (s.file a).path) = some a := by
    cases hfind : s.ptrs.find? fun b => (s.file b).path = (s.file a).path with
    | none => exact absurd (List.find?_eq_none.mp hfind a ha) (by simp)
    | some b =>
        have hb := List.mem_of_find?_eq_some hfind
        have hpath : (s.file b).path = (s.file a).path := by
          simpa using List.find?_some hfind
        rw [h.path_injective hb ha hpath]
  rw [entries, hfind]
  rfl

theorem entries_eq_none (h : ∀ a ∈ s.ptrs, (s.file a).path ≠ path) : s.entries path = none := by
  rw [entries, Option.map_eq_none_iff, List.find?_eq_none]
  exact fun a ha => by simpa using h a ha

/-- A storage has the entries `t` if each of its files is in `t` and nothing else. -/
theorem WellFormed.entries_eq (h : s.WellFormed)
    {t : OwnedStore.Store (List UInt8) Int (List UInt8)}
    (hfiles : ∀ a ∈ s.ptrs, t (s.file a).path = some (s.file a).entry)
    (hrest : ∀ path, (∀ a ∈ s.ptrs, (s.file a).path ≠ path) → t path = none) :
    s.entries = t := by
  funext path
  by_cases hpath : ∃ a ∈ s.ptrs, (s.file a).path = path
  · obtain ⟨a, ha, rfl⟩ := hpath
    rw [h.entries_path ha, hfiles a ha]
  · have hnone : ∀ a ∈ s.ptrs, (s.file a).path ≠ path := fun a ha heq => hpath ⟨a, ha, heq⟩
    rw [entries_eq_none hnone, hrest path hnone]

/-- The entry a lookup leads to. -/
theorem WellFormed.entries_huGet (h : s.WellFormed) (hnames : PrefixFree names)
    (hs : s.Named names) (hpath : names path) (hget : s.table.huGet path = some a) :
    s.entries path = some (s.file a).entry := by
  obtain ⟨ha, rfl⟩ := h.huGet_name hnames hs hpath hget
  exact h.entries_path ha

theorem WellFormed.entries_missing (h : s.WellFormed) (hget : s.table.huGet path = none) :
    s.entries path = none := by
  refine entries_eq_none fun a ha heq => ?_
  rw [← heq, h.huGet_path ha] at hget
  cases hget

/-- One record is changed, and keeps its path. -/
theorem WellFormed.entries_modify (h : s.WellFormed) (h' : s'.WellFormed) (ha : a ∈ s.ptrs)
    (hptrs : s'.ptrs = s.ptrs) (hpath : (s'.file a).path = (s.file a).path)
    (hrest : ∀ b, b ≠ a → s'.file b = s.file b) :
    s'.entries = s.entries.put (s.file a).path (s'.file a).entry := by
  refine h'.entries_eq (fun b hb => ?_) fun path hnone => ?_
  · rw [hptrs] at hb
    by_cases hba : b = a
    · rw [hba, hpath, Store.put_self]
    · have hne : (s.file b).path ≠ (s.file a).path := fun heq =>
        hba (h.path_injective hb ha heq)
      rw [hrest b hba, Store.put_of_ne _ _ hne, h.entries_path hb]
  · rw [hptrs] at hnone
    have hne : path ≠ (s.file a).path := fun heq => hnone a ha (hpath.trans heq.symm)
    rw [Store.put_of_ne _ _ hne]
    refine entries_eq_none fun b hb => ?_
    by_cases hba : b = a
    · exact hba ▸ fun heq => hne heq.symm
    · rw [← hrest b hba]
      exact hnone b hb

/-- Counting a use changes no entry. -/
theorem entries_count (s : FileStorage) (a : Nat) :
    (s.modifyFile a fun f => { f with dataInfo := f.dataInfo + 1 }).entries = s.entries := by
  have hpath := s.modifyFile_path a (fun f => { f with dataInfo := f.dataInfo + 1 }) fun _ => rfl
  have hentry : ∀ b,
      ((s.modifyFile a fun f => { f with dataInfo := f.dataInfo + 1 }).file b).entry =
        (s.file b).entry := by
    intro b
    rw [file, modifyFile_heap, file]
    split
    · cases s.heap b with
      | none => rfl
      | some f => rfl
    · rfl
  funext path
  simp only [entries, modifyFile_ptrs, hpath, hentry]

theorem entries_fuGetfile (s : FileStorage) (path : List UInt8) :
    (s.fuGetfile path).2.entries = s.entries := by
  rw [fuGetfile_snd]
  cases s.table.huGet path with
  | none => rfl
  | some a => exact entries_count s a

/-- A file more. -/
theorem entries_grown (h : s.WellFormed) {c : Int} {data : List UInt8}
    (hgrown : Grown s path data c a s') : s'.entries = s.entries.put path ⟨ownerOf c, data⟩ := by
  have hentry : (s'.file a).entry = ⟨ownerOf c, data⟩ := by
    rw [FileData.entry, hgrown.client, hgrown.data]
  refine hgrown.wellFormed.entries_eq (fun b hb => ?_) fun q hnone => ?_
  · rcases List.mem_cons.mp (hgrown.ptrs.mem_iff.mp hb) with rfl | hb'
    · rw [hgrown.path, Store.put_self, hentry]
    · have hne : (s.file b).path ≠ path := fun heq => by
        have hab : b = a := by
          refine hgrown.wellFormed.path_injective hb hgrown.mem ?_
          rw [hgrown.same b hb', hgrown.path, heq]
        exact hgrown.fresh (hab ▸ hb')
      rw [hgrown.same b hb', Store.put_of_ne _ _ hne, h.entries_path hb']
  · have hne : q ≠ path := fun heq => hnone a hgrown.mem (hgrown.path.trans heq.symm)
    rw [Store.put_of_ne _ _ hne]
    refine entries_eq_none fun b hb => ?_
    rw [← hgrown.same b hb]
    exact hnone b (hgrown.ptrs.mem_iff.mpr (List.mem_cons_of_mem a hb))

/-- A file less. -/
theorem WellFormed.entries_without (h : s.WellFormed) (h' : s'.WellFormed) (ha : a ∈ s.ptrs)
    (hw : Without s s' [a]) : s'.entries = s.entries.erase (s.file a).path := by
  have hnodup := hw.ptrs.nodup_iff.mp h.accounted.nodup
  have hnot : a ∉ s'.ptrs := (List.nodup_cons.mp hnodup).1
  have hmem : ∀ b, b ∈ s.ptrs ↔ b = a ∨ b ∈ s'.ptrs := fun b => by
    rw [hw.ptrs.mem_iff, List.singleton_append, List.mem_cons]
  have hfile : ∀ b ∈ s'.ptrs, s'.file b = s.file b := fun b hb =>
    hw.file_eq fun heq => hnot (heq ▸ hb)
  refine h'.entries_eq (fun b hb => ?_) fun q hnone => ?_
  · have hne : (s.file b).path ≠ (s.file a).path := fun heq =>
      hnot (h.path_injective ((hmem b).mpr (.inr hb)) ha heq ▸ hb)
    rw [hfile b hb, Store.erase_of_ne _ hne, h.entries_path ((hmem b).mpr (.inr hb))]
  · by_cases hq : q = (s.file a).path
    · rw [hq, Store.erase_self]
    · rw [Store.erase_of_ne _ hq]
      refine entries_eq_none fun b hb => ?_
      rcases (hmem b).mp hb with rfl | hb'
      · exact fun heq => hq heq.symm
      · rw [← hfile b hb']
        exact hnone b hb'

/-- One record of the table is modified. -/
theorem WellFormed.entries_modifyFile (h : s.WellFormed) {f : FileData} (ha : a ∈ s.ptrs)
    (hf : s.heap a = some f) {g : FileData → FileData}
    (hg : ∀ f, (g f).data = f.data ∧ (g f).path = f.path) :
    (s.modifyFile a g).entries = s.entries.put f.path (g f).entry := by
  rw [h.entries_modify (h.modifyFile a hg) ha (modifyFile_ptrs s a g)
    (s.modifyFile_path a g (fun f => (hg f).2) a) fun b hb => s.modifyFile_file_of_ne a g hb,
    modifyFile_file_self s a g hf, file_eq s hf]

end FileStorage

/-- A storage of named files, none of them open to descriptor 0. -/
structure Hosts (names : List UInt8 → Prop) (s : FileStorage) : Prop where
  wellFormed : s.WellFormed
  named : s.Named names
  owner : ∀ a ∈ s.ptrs, (s.file a).client ≠ 0

/-! ## Answers -/

section Answers

variable {tr : List (Event Mutex)} {op : Op (List UInt8)}

theorem replyOf_cons_read (op : Op (List UInt8)) (n : Nat) (r : Option (List UInt8))
    (tr : List (Event Mutex)) : replyOf op (.read n r :: tr) = replyOf op tr := by
  have hword : lastWord (.read n r :: tr) = lastWord tr := by
    rw [lastWord, List.reverse_cons, List.findSome?_append]
    exact Option.or_none
  have hblock : lastBlock (.read n r :: tr) = lastBlock tr := rfl
  have hrefusal : refusal (.read n r :: tr) = refusal tr := by rw [refusal, hword, refusal]
  unfold replyOf
  rw [hword, hblock, hrefusal, taken_cons_read]

theorem lastWord_word (tr : List (Event Mutex)) (m : SMessage) (ok : Bool) :
    lastWord (tr ++ [.write (.word m) ok]) = some m := by
  rw [lastWord, List.reverse_append]
  rfl

/-- The last thing that was sent tells the client to go on. -/
def toldToSend (tr : List (Event Mutex)) : Bool :=
  match tr.getLast? with
  | some (.write (.word m) true) => m = sapiSuccess
  | _ => false

theorem toldToSend_word (tr : List (Event Mutex)) (m : SMessage) (ok : Bool) :
    toldToSend (tr ++ [.write (.word m) ok]) = (ok && decide (m = sapiSuccess)) := by
  rw [toldToSend, List.getLast?_concat]
  cases ok with
  | false => rfl
  | true => rfl

end Answers

/-- What is done to the entries is what the call `op` does there, answered as it
was. -/
def Takes (op : Op (List UInt8)) (client : Int) (path : List UInt8) (s : FileStorage)
    (tr : List (Event Mutex)) (o : Out Int) (w' : World FileStorage Mutex) : Prop :=
  ∀ r, o = .ret r → Step [] s.entries ⟨client, path, op, replyOf op tr⟩ w'.st.entries

/-! ## Looking a file up -/

section Sections

variable {names : List UInt8 → Prop} {client : Int} {path : List UInt8} {a : Nat} {f : FileData}
  {message : SMessage} {w : World FileStorage Mutex} {op : Op (List UInt8)}

theorem ownerOf_eq_some {c : Int} (hc : client ≠ -1) : ownerOf c = some client ↔ c = client := by
  rw [ownerOf]
  split
  · next h =>
      refine ⟨fun hnone => (by cases hnone), fun heq => ?_⟩
      omega
  · exact Option.some_inj

theorem not_owner (hclient : client ≠ -1) (hne : f.client ≠ client) :
    f.entry.owner ≠ some client :=
  mt (ownerOf_eq_some hclient).mp hne

/-- The record at `a` is the file stored under `path`. -/
structure Found (s : FileStorage) (path : List UInt8) (a : Nat) (f : FileData) : Prop where
  wellFormed : s.WellFormed
  stored : s.heap a = some f
  path_eq : f.path = path

namespace Found

variable {s : FileStorage}

theorem mem (h : Found s path a f) : a ∈ s.ptrs :=
  h.wellFormed.stored a (by rw [h.stored]; exact Option.some_ne_none f)

theorem entry (h : Found s path a f) : s.entries path = some f.entry := by
  have hentry := h.wellFormed.entries_path h.mem
  rwa [file_eq _ h.stored, h.path_eq] at hentry

/-- The client has it open. -/
theorem own (h : Found s path a f) (hclient : client ≠ -1) (howner : f.client = client) :
    s.entries path = some ⟨some client, f.data⟩ := by
  rw [h.entry, FileData.entry, (ownerOf_eq_some hclient).mpr howner]

theorem modify (h : Found s path a f) {g : FileData → FileData}
    (hg : ∀ f, (g f).data = f.data ∧ (g f).path = f.path) :
    (s.modifyFile a g).entries = s.entries.put path (g f).entry := by
  rw [h.wellFormed.entries_modifyFile h.mem h.stored hg, h.path_eq]

theorem remove (h : Found s path a f) :
    (s.fuRemoveFile path).2.entries = s.entries.erase path := by
  have hpath : (s.file a).path = path := by rw [file_eq _ h.stored, h.path_eq]
  obtain ⟨-, hperm, hheap, hfiles, hbytes⟩ := h.wellFormed.fuRemoveFile_path h.mem
  rw [hpath] at hperm hheap hfiles hbytes
  rw [h.wellFormed.entries_without (h.wellFormed.fuRemoveFile path) h.mem
    ⟨hperm, fun b => by simpa using hheap b, hfiles, by simpa [bytesOf] using hbytes⟩, hpath]

end Found

/-- A handler that goes on with the file of its path. -/
theorem FileStorage.WellFormed.lockFound {α : Type} {k : FileData → ServerM α}
    {Q : List (Event Mutex) → Out α → World FileStorage Mutex → Prop} (hwf : w.st.WellFormed)
    (hpath : ∀ f, w.st.heap a = some f → f.path = path)
    (hblocked : ∀ w, Q [] .blocked w) (hfault : ∀ w, Q [] .fault w)
    (hk : Mutex.file a ∉ w.held → ∀ f, Found w.st path a f →
      (k f).Ensures { w with held := insert (.file a) w.held } Q) :
    (Proc.lock (.file a) (deref a k)).Ensures w Q :=
  Ensures.lockFile (fun _ => hblocked _) (fun _ => hfault _)
    fun hfree f hf => hk hfree f ⟨hwf, hf, hpath f hf⟩

/-- One answer at the end, delivered or not. -/
theorem Ensures.takes {s : FileStorage} {m : SMessage} {r : Int} (hc : client ≠ 0)
    (hstep : ∀ ok, Step [] s.entries ⟨client, path, op, replyOf op [.write (.word m) ok]⟩
      w.st.entries) :
    (sapiRespond m client (.ret r)).Ensures w (Takes op client path s) := by
  rw [ensures_sapiRespond hc, ensures_ret]
  exact ⟨fun _ _ => hstep false, fun _ _ => hstep true⟩

/-! ## Opening, closing, reading and removing -/

variable (hwf : w.st.WellFormed) (hc : client ≠ 0) (hclient : client ≠ -1)
  (hpath : ∀ f, w.st.heap a = some f → f.path = path)

section Found

include hwf hc hclient hpath

theorem openFound_takes :
    (openFound message client path (some a)).Ensures w
      (Takes (.acquire (hasFlag message oCreate)) client path w.st) := by
  rw [openFound]
  refine hwf.lockFound hpath (fun _ _ hr => by cases hr) (fun _ _ hr => by cases hr)
    fun _ f hfound => ?_
  split
  · next hbusy =>
      have hentry : w.st.entries path = some ⟨some f.client, f.data⟩ := by
        rw [hfound.entry, FileData.entry, ownerOf, if_neg hbusy]
      rw [ensures_unlock]
      exact Ensures.takes hc fun ok => .taken hentry
  · next hfree =>
      have hentry : w.st.entries path = some ⟨none, f.data⟩ := by
        rw [hfound.entry, FileData.entry, ownerOf, if_pos (not_not.mp hfree)]
      have hentry' : (f.openedBy message client).entry = ⟨some client, f.data⟩ := by
        rw [FileData.entry, FileData.openedBy, ownerOf, if_neg hclient]
      rw [ensures_takeOwnership, ensures_unlock]
      refine Ensures.takes hc fun ok => ?_
      dsimp only
      rw [hfound.modify (g := (·.openedBy message client)) fun _ => ⟨rfl, rfl⟩, hentry']
      exact .acquired hentry

theorem closeFound_takes :
    (closeFound client (some a)).Ensures w (Takes .release client path w.st) := by
  rw [closeFound]
  refine hwf.lockFound hpath (fun _ _ hr => by cases hr) (fun _ _ hr => by cases hr)
    fun _ f hfound => ?_
  split
  · next hother =>
      rw [ensures_unlock]
      exact Ensures.takes hc fun ok => .foreign hfound.entry (not_owner hclient hother) (by simp)
  · next hmine =>
      rw [ensures_assign, ensures_unlock]
      refine Ensures.takes hc fun ok => ?_
      dsimp only
      rw [hfound.modify (g := fun f => { f with client := -1 }) fun _ => ⟨rfl, rfl⟩]
      exact .released (hfound.own hclient (not_not.mp hmine))

theorem readFound_takes (hzero : ∀ f, w.st.heap a = some f → f.client ≠ 0) :
    (readFound client (some a)).Ensures w (Takes .read client path w.st) := by
  rw [readFound]
  refine hwf.lockFound hpath (fun _ _ hr => by cases hr) (fun _ _ hr => by cases hr)
    fun _ f hfound => ?_
  split
  · next hother =>
      have hne : f.client ≠ client := hother.elim (fun h => h.2) fun h => h.2
      rw [ensures_unlock]
      exact Ensures.takes hc fun ok => .foreign hfound.entry (not_owner hclient hne) (by simp)
  · next hmine =>
      have hmine : f.client = client := by
        by_contra hne
        exact hmine (.inl ⟨hzero f hfound.stored, hne⟩)
      have hentry := hfound.own hclient hmine
      have htakes : ∀ (tr : List (Event Mutex)) (o : Out Int) (held : Finset Mutex),
          replyOf .read tr = .value f.data ∨ replyOf .read tr = .failed →
          Takes .read client path w.st tr o ⟨w.st, held⟩ := by
        intro tr o held hreply r _
        rcases hreply with hreply | hreply
        · rw [hreply]
          exact .read hentry
        · rw [hreply]
          exact .unread hentry
      rw [ensures_sapiRespond hc]
      refine ⟨htakes _ _ _ (.inr rfl), ?_⟩
      rw [serverSendData]
      split
      · next hempty =>
          have hdata : f.data = [] := List.length_eq_zero_iff.mp (hempty.resolve_left hc)
          rw [ret_bind, ensures_unlock, ensures_ret]
          refine htakes _ _ _ (.inl ?_)
          rw [hdata]
          rfl
      · rw [ensures_sendBlock_bind, ensures_unlock, ensures_unlock, ensures_unlock, ensures_ret,
          ensures_ret, ensures_ret]
        exact ⟨htakes _ _ _ (.inr rfl), htakes _ _ _ (.inr rfl), htakes _ _ _ (.inl rfl)⟩

end Found

/-- A path that leads nowhere is answered so. -/
theorem found_none_replies {h : Handler} (hc : h.client ≠ 0) (hcreates : h.creates = false)
    (hop : ∀ g, op ≠ .update g) :
    (h.found none).Ensures w fun tr o w' => ∀ r, o = .ret r →
      w'.st = w.st ∧ replyOf op tr = .missing := by
  have hreply : ∀ ok, replyOf op [.write (.word sapiFnf) ok] = .missing := by
    intro ok
    cases op with
    | update g => exact absurd rfl (hop g)
    | acquire create => rfl
    | release => rfl
    | read => rfl
    | remove => rfl
  have hanswer : ∀ r, (sapiRespond sapiFnf h.client (.ret r)).Ensures w fun tr o w' =>
      ∀ r, o = .ret r → w'.st = w.st ∧ replyOf op tr = .missing := by
    intro r
    rw [ensures_sapiRespond hc, ensures_ret]
    exact ⟨fun _ _ => ⟨rfl, hreply false⟩, fun _ _ => ⟨rfl, hreply true⟩⟩
  rw [Handler.found]
  cases hkind : h.kind with
  | openFile message =>
      rw [Handler.creates, hkind] at hcreates
      dsimp only at hcreates ⊢
      rw [openFound, hcreates]
      exact hanswer _
  | closeFile => exact hanswer _
  | readFile => exact hanswer _
  | writeFile => exact hanswer _
  | appendToFile => exact hanswer _
  | removeFile => exact hanswer _

section Create

include hwf hc hclient

/-- A new file, if there is room for it. -/
theorem serverCreateFile_takes (hget : w.st.table.huGet path = none) :
    (serverCreateFile message client path).Ensures w
      (Takes (.acquire true) client path w.st) := by
  have hmissing := hwf.entries_missing hget
  rw [ensures_serverCreateFile hc]
  refine ⟨fun _ r hr => (by cases hr), fun _ =>
    ⟨fun _ ok r _ => ?_, fun hroom ok r _ => ?_⟩⟩
  · have hsame : ((w.st.place (.openedBy ⟨[], -1, 0, []⟩ message client)).2.fuFreeFileData
        w.st.next).entries = w.st.entries := by
      rw [hwf.place_fuFreeFileData]
      rfl
    rw [hsame]
    exact .full hmissing
  · have hgrown : Grown w.st path [] client w.st.next ((w.st.place
        (.openedBy ⟨[], -1, 0, []⟩ message client)).2.fuAddFile w.st.next path).2 :=
      .create hwf rfl rfl hget fun h => hroom (.inr h)
    have howner : ownerOf client = some client := (ownerOf_eq_some hclient).mpr rfl
    rw [entries_grown hwf hgrown, howner]
    exact .created hmissing

end Create

/-- Where a lookup leads, by a name. -/
theorem FileStorage.WellFormed.lookup {α : Type} {k : Option Nat → ServerM α}
    {Q : List (Event Mutex) → Out α → World FileStorage Mutex → Prop} (hwf : w.st.WellFormed)
    (hnames : PrefixFree names) (hs : w.st.Named names) (hname : names path)
    (hnone : w.st.table.huGet path = none → (k none).Ensures w Q)
    (hsome : ∀ a, (w.st.fuGetfile path).2.WellFormed →
      (∀ f, (w.st.fuGetfile path).2.heap a = some f → f.path = path) →
      (k (some a)).Ensures { w with st := (w.st.fuGetfile path).2 } Q) :
    (getfile path k).Ensures w Q := by
  rw [ensures_getfile]
  cases hget : w.st.table.huGet path with
  | none =>
      have hst : (w.st.fuGetfile path).2 = w.st := by rw [fuGetfile_snd, hget]
      rw [hst]
      exact hnone hget
  | some a =>
      refine hsome a (hwf.fuGetfile path) fun f hf => ?_
      obtain ⟨-, -, hpath⟩ := w.st.fuGetfile_file path a
      rw [file_eq _ hf] at hpath
      exact hpath.trans (hwf.huGet_name hnames hs hname hget).2

theorem removeSection_takes (hnames : PrefixFree names) (hs : w.st.Named names)
    (hname : names path) (hwf : w.st.WellFormed) (hc : client ≠ 0) (hclient : client ≠ -1) :
    (removeSection client path).Ensures w fun tr o w' =>
      (∀ freed, .unspec freed ∈ tr → cString freed = path) →
        Takes .remove client path w.st tr o w' := by
  have hanswer : ∀ {v : World FileStorage Mutex} (m : SMessage) (r : Int),
      (∀ ok, Step [] w.st.entries ⟨client, path, .remove, replyOf .remove [.write (.word m) ok]⟩
        v.st.entries) →
      (sapiRespond m client (.ret r)).Ensures v fun tr o w' =>
        (∀ freed, .unspec freed ∈ tr → cString freed = path) →
          Takes .remove client path w.st tr o w' := fun m r hstep =>
    (Ensures.takes hc hstep).mono fun _ _ _ htakes _ => htakes
  have hentries : (w.st.fuGetfile path).2.entries = w.st.entries := w.st.entries_fuGetfile path
  rw [removeSection]
  refine ensures_lock.mpr ⟨fun _ _ _ hr => (by cases hr), fun _ => ?_⟩
  set v : World FileStorage Mutex := { w with held := insert .storage w.held }
  refine WellFormed.lookup (w := v) hwf hnames hs hname (fun hget => ?_) fun a hwf' hpath => ?_
  · rw [ensures_unlock]
    exact hanswer _ _ fun ok => .missing (hwf.entries_missing hget) (by simp)
  · refine WellFormed.lockFound (w := { v with st := (w.st.fuGetfile path).2 }) hwf' hpath
      (fun _ _ _ hr => by cases hr) (fun _ _ _ hr => by cases hr) fun _ f hfound => ?_
    split
    · next hother =>
        have hentry := hfound.entry
        rw [ensures_unlock, ensures_unlock]
        refine hanswer _ _ fun ok => ?_
        dsimp only at hentry ⊢
        rw [hentries] at hentry ⊢
        exact .foreign hentry (not_owner hclient hother) (by simp)
    · next hmine =>
        have hown := hfound.own hclient (not_not.mp hmine)
        dsimp only at hown
        rw [hentries] at hown
        rw [ensures_unlock, ensures_unspec]
        intro freed
        have hremoved : ∀ (ok : Bool) (o : Out Int) (held : Finset Mutex),
            cString freed = path →
            Takes .remove client path w.st [.unspec freed, .write (.word sapiSuccess) ok] o
              ⟨((w.st.fuGetfile path).2.fuRemoveFile (cString freed)).2, held⟩ := by
          intro ok o held hfreed r _
          have hgone := hfound.remove
          dsimp only at hgone
          rw [hentries] at hgone
          rw [hfreed, hgone]
          exact .removed hown
        rw [ensures_removefile, ensures_unlock, ensures_sapiRespond hc, ensures_ret]
        exact ⟨fun hintact => hremoved _ _ _ (hintact freed (List.mem_cons_self ..)),
          fun hintact => hremoved _ _ _ (hintact freed (List.mem_cons_self ..))⟩

end Sections

/-! ## Writing -/

/-- The client has the file at `a` open with `v` in it, and its handler has the
file's mutex; some other entries are gone by now. -/
structure Holding (s₀ : FileStorage) (client : Int) (path : List UInt8) (a : Nat)
    (v : List UInt8) (w : World FileStorage Mutex) : Prop where
  wellFormed : w.st.WellFormed
  stored : a ∈ w.st.ptrs
  path_eq : (w.st.file a).path = path
  client_eq : (w.st.file a).client = client
  data_eq : (w.st.file a).data = v
  held : Mutex.file a ∈ w.held
  drops : Drops client path s₀.entries w.st.entries

section Writing

variable {s₀ : FileStorage} {client : Int} {path : List UInt8} {a : Nat}
  {v : List UInt8} {w : World FileStorage Mutex}

theorem Holding.withHeld (h : Holding s₀ client path a v w) {held : Finset Mutex}
    (hheld : Mutex.file a ∈ held) : Holding s₀ client path a v { w with held := held } :=
  ⟨h.wellFormed, h.stored, h.path_eq, h.client_eq, h.data_eq, hheld, h.drops⟩

/-- The mutex of another file is taken and given back. -/
theorem Holding.insert (h : Holding s₀ client path a v w) (m : Mutex) :
    Holding s₀ client path a v { w with held := insert m w.held } :=
  h.withHeld (Finset.mem_insert_of_mem h.held)

theorem Holding.erase (h : Holding s₀ client path a v w) {m : Mutex} (hm : m ≠ .file a) :
    Holding s₀ client path a v { w with held := w.held.erase m } :=
  h.withHeld (Finset.mem_erase.mpr ⟨hm.symm, h.held⟩)

/-- Another file that nobody else has open is given up. -/
theorem Holding.giveUp (h : Holding s₀ client path a v w) {b : Nat} {f : FileData} (hba : b ≠ a)
    (hf : w.st.heap b = some f) (howner : f.client = -1 ∨ f.client = client)
    (hclient : client ≠ -1) :
    Holding s₀ client path a v
      { w with st := ((w.st.modifyFile b fun f => { f with client := -2 }).fuRemoveFile
        f.path).2 } := by
  have hwf := h.wellFormed
  have hb := hwf.stored b (by simp [hf])
  have hfile : w.st.file b = f := file_eq _ hf
  have hwithout := hwf.without_giveUp hb
  have hwf' := hwf.giveUp b
  rw [hfile] at hwithout hwf'
  obtain ⟨hstored, hsame⟩ := hwithout.kept h.stored
    fun hmem => hba (List.mem_singleton.mp hmem).symm
  have hdrops := hwf.entries_without hwf' hb hwithout
  refine ⟨hwf', hstored, (congrArg FileData.path hsame).trans h.path_eq,
    (congrArg FileData.client hsame).trans h.client_eq,
    (congrArg FileData.data hsame).trans h.data_eq, h.held, h.drops.trans fun q => ?_⟩
  rw [hdrops, hfile]
  by_cases hq : q = f.path
  · refine .inr ⟨?_, fun heq => hba (hwf.path_injective hb h.stored ?_),
      (w.st.file b).entry, ?_, ?_⟩
    · rw [hq, Store.erase_self]
    · rw [hfile, h.path_eq, ← hq, heq]
    · rw [hq, ← hfile]
      exact hwf.entries_path hb
    · rw [hfile, FileData.entry]
      rcases howner with howner | howner
      · exact .inl (if_pos howner)
      · exact .inr ((ownerOf_eq_some hclient).mpr howner)
  · exact .inl (Store.erase_of_ne _ hq)

theorem evictFile_holding (hc : client ≠ 0) (hclient : client ≠ -1) (sendFilesBack : Bool) {b : Nat}
    {f : FileData} (h : Holding s₀ client path a v w) (hba : b ≠ a) (hf : w.st.heap b = some f)
    (howner : f.client = -1 ∨ f.client = client) :
    (evictFile client sendFilesBack b f).Ensures w fun _ _ w' =>
      Holding s₀ client path a v w' := by
  have hgone : Holding s₀ client path a v
      ⟨((w.st.modifyFile b fun f => { f with client := -2 }).fuRemoveFile f.path).2,
        w.held.erase (.file b)⟩ :=
    (h.giveUp hba hf howner hclient).erase fun heq => hba (Mutex.file.inj heq)
  rw [evictFile]
  split
  · rw [ensures_serverRespond_bind hc]
    refine ⟨by simpa using h, ?_⟩
    refine Ensures.serverSendPath_bind fun _ _ _ => Ensures.serverSendData_bind fun _ _ _ => ?_
    simpa using hgone
  · simpa using hgone

theorem evictLoop_holding (hc : client ≠ 0) (hclient : client ≠ -1) (sendFilesBack : Bool)
    (slots : List (Option Nat)) (n : Nat) (h : Holding s₀ client path a v w) :
    (evictLoop client sendFilesBack slots n).Ensures w fun _ _ w' =>
      Holding s₀ client path a v w' := by
  induction slots generalizing n w with
  | nil => simpa [evictLoop] using h
  | cons slot slots ih =>
      cases slot with
      | none =>
          rw [evictLoop]
          split
          · simpa using h
          · simpa using h
      | some b =>
          rw [evictLoop]
          split
          · simpa using h
          rw [ensures_deref]
          refine ⟨fun _ => h, fun _ _ => ensures_trylock.mpr ⟨ih n h, fun hfree => ?_⟩⟩
          -- the target's own mutex is held, so this is another file
          have hba : b ≠ a := fun heq => hfree (heq ▸ h.held)
          rw [ensures_deref]
          refine ⟨fun _ => h.insert _, fun f hf => ?_⟩
          split
          · rw [ensures_unlock]
            exact ih n ((h.insert _).erase fun heq => hba (Mutex.file.inj heq))
          · next hothers =>
              have howner : f.client = -1 ∨ f.client = client := by tauto
              refine Ensures.bind_always (I := fun w' => Holding s₀ client path a v w')
                (evictFile_holding hc hclient _ (h.insert _) hba hf howner) fun b w' h => ?_
              cases b with
              | false => simpa using h
              | true => exact ih _ h

theorem serverEvict_holding (qsort : Qsort Nat) (hc : client ≠ 0) (hclient : client ≠ -1) (n : Nat)
    (h : Holding s₀ client path a v w) :
    (serverEvict qsort client n).Ensures w fun _ _ w' => Holding s₀ client path a v w' := by
  refine Ensures.serverEvict hc (fun _ => h) (fun _ _ _ => h) (fun _ _ _ => h)
    fun arr _ _ flag _ _ => ?_
  refine Ensures.bind_always (I := fun w' => Holding s₀ client path a v w')
    (evictLoop_holding hc hclient flag arr.slots n h) fun rest w' h => ?_
  cases rest with
  | none => simpa [evictAnswer] using h
  | some rest =>
      rw [evictAnswer]
      split
      · rw [ensures_sapiRespond hc, ensures_ret]
        exact ⟨h, h⟩
      · rw [ensures_sapiRespond hc, ensures_ret]
        exact ⟨h, h⟩

/-- What a run comes to that has made the calls `pre` before: it took in no data
and refused, or it took in some and put it into the file, behind the part of the
old contents that `cut` says. -/
def Updates (s₀ : FileStorage) (client : Int) (path v : List UInt8) (cut : List UInt8 → Nat)
    (pre tr : List (Event Mutex)) (o : Out Int) (w' : World FileStorage Mutex) : Prop :=
  ∀ r, o = .ret r →
    (taken (pre ++ tr) = none ∧ refusal (pre ++ tr) = .failed ∧
      Drops client path s₀.entries w'.st.entries) ∨
    ∃ d s₁, taken (pre ++ tr) = some d ∧ Drops client path s₀.entries s₁ ∧
      w'.st.entries = s₁.put path ⟨some client, v.take (cut v) ++ d⟩

variable {cut : List UInt8 → Nat} {offset : FileData → Nat} {pre : List (Event Mutex)}

theorem refusal_failure (tr : List (Event Mutex)) (ok : Bool) :
    refusal (tr ++ [.write (.word sapiFailure) ok]) = .failed := by
  rw [refusal, lastWord_word]
  rfl

/-- A refusal at the end. -/
theorem Holding.updates_failure (h : Holding s₀ client path a v w) (mid : List (Event Mutex))
    (ok : Bool) (o : Out Int) (held : Finset Mutex) :
    Updates s₀ client path v cut pre (mid ++ [.write (.word sapiFailure) ok]) o
      { w with held := held } := by
  have hfailure : sapiFailure ≠ sapiSuccess := by decide
  intro r _
  rw [← List.append_assoc]
  exact .inl ⟨taken_of_refused _ ok hfailure, refusal_failure _ ok, h.drops⟩

/-- The contents are replaced from some place on. -/
theorem Holding.entries_rewrite (h : Holding s₀ client path a v w) (hclient : client ≠ -1)
    {i n : Nat} {d : List UInt8} {s' : FileStorage} (hwf' : s'.WellFormed)
    (hs' : s' = { w.st.modifyFile a (fun f =>
      { f with dataInfo := f.dataInfo + 1, data := f.data.take i ++ d }) with currBytes := n }) :
    s'.entries = w.st.entries.put path ⟨some client, v.take i ++ d⟩ := by
  obtain ⟨f, hf⟩ := Option.ne_none_iff_exists'.mp (h.wellFormed.accounted.live a h.stored)
  have hfile := file_eq _ hf
  have hself : s'.file a =
      { f with dataInfo := f.dataInfo + 1, data := f.data.take i ++ d } := by
    rw [hs']
    exact modifyFile_file_self w.st a _ hf
  have hrest : ∀ b, b ≠ a → s'.file b = w.st.file b := by
    intro b hb
    rw [hs']
    exact modifyFile_file_of_ne w.st a _ hb
  have hpath : (s'.file a).path = (w.st.file a).path := by rw [hself, hfile]
  have hentry : (s'.file a).entry = ⟨some client, v.take i ++ d⟩ := by
    have howner : ownerOf f.client = some client :=
      (ownerOf_eq_some hclient).mpr (hfile ▸ h.client_eq)
    rw [hself, FileData.entry, ← h.data_eq, hfile]
    dsimp only
    rw [howner]
  have hptrs : s'.ptrs = w.st.ptrs := by
    rw [hs']
    rfl
  rw [h.wellFormed.entries_modify hwf' h.stored hptrs hpath hrest, h.path_eq, hentry]

theorem receiveData_updates (hc : client ≠ 0) (hclient : client ≠ -1)
    (hoff : ∀ f, offset f = cut f.data) (n : Nat)
    (hpre : ∃ front, pre = front ++ [.write (.word sapiSuccess) true])
    (h : Holding s₀ client path a v w) :
    (receiveData client a n offset).Ensures w (Updates s₀ client path v cut pre) := by
  obtain ⟨front, rfl⟩ := hpre
  rw [receiveData, ensures_muCalloc]
  refine ⟨fun _ r hr => (by cases hr), fun hlim => ?_⟩
  rw [ensures_read]
  intro buf hbuf
  cases buf with
  | none =>
      rw [ensures_unlock, ensures_serverRespond_bind hc, ensures_ret, ensures_ret]
      exact ⟨h.updates_failure [_] _ _ _, h.updates_failure [_] _ _ _⟩
  | some bs =>
      dsimp only
      rw [ensures_deref]
      refine ⟨fun _ r hr => (by cases hr), fun f hf => ?_⟩
      have hfile := file_eq _ hf
      rw [ensures_get]
      set data := if n = 0 then none else some (bs ++ List.replicate (n - bs.length) 0) with hdata
      have hd : ∀ d, data = some d → d = bs ++ List.replicate (n - bs.length) 0 := by
        intro d hd
        rw [hdata] at hd
        split at hd
        · cases hd
        · injection hd with hd
          exact hd.symm
      have hlen : ∀ d, data = some d → d.length ≤ muLimit := by
        intro d hd'
        have hbs : bs.length ≤ n := fits_some.mp hbuf
        rw [hd d hd', List.length_append, List.length_replicate]
        omega
      cases hw : w.st.fuWritefile a (offset f) data with
      | none => exact ensures_exit.mpr fun r hr => by cases hr
      | some res =>
          obtain ⟨err, s'⟩ := res
          dsimp only
          rw [ensures_set]
          have hwf' := h.wellFormed.fuWritefile (h.wellFormed.accounted.live a h.stored) hlen hw
          have hrefused : s'.entries = w.st.entries → ∀ ok o held,
              Updates s₀ client path v cut (front ++ [.write (.word sapiSuccess) true])
                [.read n (some bs), .write (.word sapiFailure) ok] o ⟨s', held⟩ := by
            intro hentries ok o held r hr
            have hrefused : Updates s₀ client path v cut
                (front ++ [.write (.word sapiSuccess) true])
                [.read n (some bs), .write (.word sapiFailure) ok] o ⟨w.st, held⟩ :=
              h.updates_failure [.read n (some bs)] ok o held
            have hu := hrefused r hr
            dsimp only at hu ⊢
            rw [hentries]
            exact hu
          rcases h.wellFormed.accounted.fuWritefile_cases h.stored hlen hw with
            ⟨hs', herr⟩ | ⟨hs', herr⟩ | ⟨herr, d, hdata', -, -, -, hs'⟩
          · have hsame : s'.entries = w.st.entries := by rw [hs']
            rw [if_pos (by omega : err ≠ 0), ensures_unlock, ensures_serverRespond_bind hc,
              ensures_ret, ensures_ret]
            exact ⟨hrefused hsame _ _ _, hrefused hsame _ _ _⟩
          · have hsame : s'.entries = w.st.entries := by rw [hs', entries_count]
            rw [if_pos (by omega : err ≠ 0), ensures_unlock, ensures_serverRespond_bind hc,
              ensures_ret, ensures_ret]
            exact ⟨hrefused hsame _ _ _, hrefused hsame _ _ _⟩
          · have hstored : ∀ (ok : Bool) (o : Out Int) (held : Finset Mutex),
                Updates s₀ client path v cut (front ++ [.write (.word sapiSuccess) true])
                  [.read n (some bs), .write (.word sapiSuccess) ok] o ⟨s', held⟩ := by
              intro ok o held r _
              refine .inr ⟨d, w.st.entries, ?_, h.drops, ?_⟩
              · rw [List.append_assoc, hd d hdata']
                exact taken_of_stored front n bs ok
              · have hcut : offset f = cut v := by rw [hoff, ← h.data_eq, hfile]
                rw [h.entries_rewrite hclient hwf' hs', hcut]
            rw [if_neg (not_not.mpr herr), ensures_serverRespond_bind hc, if_pos (by decide),
              if_neg (by decide), ensures_unlock, ensures_unlock, ensures_ret, ensures_ret]
            exact ⟨hstored false _ _, hstored true _ _⟩

/-- What a write comes to under the storage's mutex: it is refused, or it holds
its file and has told the client to send. -/
def WriteBegins (client : Int) (path : List UInt8) (s : FileStorage) (tr : List (Event Mutex))
    (o : Out Stage) (w' : World FileStorage Mutex) : Prop :=
  ∀ t, o = .ret t →
    (∃ r, t = .returned r ∧ toldToSend tr = false ∧ taken tr = none ∧
      ∀ g, Step [] s.entries ⟨client, path, .update g, refusal tr⟩ w'.st.entries) ∨
    ∃ a n v, t = .granted a n ∧ (∃ front, tr = front ++ [.write (.word sapiSuccess) true]) ∧
      s.entries path = some ⟨some client, v⟩ ∧ Holding s client path a v w'

/-- An answer other than that it may go on. -/
theorem ensures_refuses (mid : List (Event Mutex)) {m : SMessage} {r : Int} (hc : client ≠ 0)
    (hm : m ≠ sapiSuccess)
    (hstep : ∀ ok g, Step [] s₀.entries
      ⟨client, path, .update g, refusal (mid ++ [.write (.word m) ok])⟩ w.st.entries) :
    (returning (sapiRespond m client (.ret r))).Ensures w fun tr =>
      WriteBegins client path s₀ (mid ++ tr) := by
  rw [ensures_returning_sapiRespond hc]
  refine ⟨fun t ht => ?_, fun t ht => ?_⟩
  · injection ht with ht
    refine .inl ⟨_, ht.symm, ?_, taken_of_refused _ _ hm, hstep false⟩
    rw [toldToSend_word]
    rfl
  · injection ht with ht
    refine .inl ⟨_, ht.symm, ?_, taken_of_refused _ _ hm, hstep true⟩
    rw [toldToSend_word, decide_eq_false hm]
    rfl

variable (pre) in
theorem grantRoom_begins (qsort : Qsort Nat) (hc : client ≠ 0) (hclient : client ≠ -1) (n : Nat)
    (hpre : ∀ ok, taken (pre ++ [.write (.word sapiSuccess) ok]) = none)
    (hentry : s₀.entries path = some ⟨some client, v⟩) (h : Holding s₀ client path a v w) :
    (grantRoom qsort client a n).Ensures w fun tr => WriteBegins client path s₀ (pre ++ tr) := by
  rw [grantRoom, ensures_get]
  split
  · refine ensures_bind.mpr (((serverEvict_shrinks qsort hc _).and
      (serverEvict_holding qsort hc hclient _ h)).mono fun tr o w' h' => ?_)
    obtain ⟨⟨-, hlast⟩, hw'⟩ := h'
    cases o with
    | ret r =>
        rw [After]
        split
        · rw [ensures_unlock, ensures_unlock]
          simp only [← List.append_assoc]
          refine ensures_refuses _ hc (by decide) fun ok g => ?_
          rw [refusal_failure]
          exact .dropped hentry hw'.drops
        · next hr =>
            obtain ⟨front, rfl⟩ := hlast (by rw [not_not.mp hr])
            rw [ensures_unlock, ensures_ret]
            intro t ht
            injection ht with ht
            refine .inr ⟨a, n, v, ht.symm, ⟨pre ++ front, ?_⟩, hentry,
              hw'.erase (by simp : Mutex.storage ≠ .file a)⟩
            rw [List.append_nil, List.append_assoc]
    | exit => exact fun t ht => by cases ht
    | fault => exact fun t ht => by cases ht
    | blocked => exact fun t ht => by cases ht
  · rw [ensures_serverRespond_bind hc, if_pos (by decide), if_neg (by decide), ensures_unlock,
      ensures_unlock, ensures_ret, ensures_unlock, ensures_ret]
    refine ⟨fun t ht => ?_, fun t ht => ?_⟩
    · injection ht with ht
      refine .inl ⟨_, ht.symm, ?_, hpre false, fun g => ?_⟩
      · rw [toldToSend_word]
        rfl
      · rw [refusal, lastWord_word]
        exact .dropped hentry h.drops
    · injection ht with ht
      exact .inr ⟨a, n, v, ht.symm, ⟨pre, rfl⟩, hentry,
        h.erase (by simp : Mutex.storage ≠ .file a)⟩

theorem writeSection_begins {names : List UInt8 → Prop} (qsort : Qsort Nat)
    (hwf : w.st.WellFormed) (hnames : PrefixFree names) (hs : w.st.Named names)
    (hname : names path) (hc : client ≠ 0) (hclient : client ≠ -1) :
    (writeSection qsort client path).Ensures w (WriteBegins client path w.st) := by
  have hentries : (w.st.fuGetfile path).2.entries = w.st.entries := w.st.entries_fuGetfile path
  rw [writeSection]
  refine ensures_lock.mpr ⟨fun _ _ ht => (by cases ht), fun _ => ?_⟩
  set v : World FileStorage Mutex := { w with held := insert .storage w.held }
  refine WellFormed.lookup (w := v) hwf hnames hs hname (fun hget => ?_) fun a hwf' hpath => ?_
  · rw [ensures_unlock]
    exact ensures_refuses [] hc (by decide) fun ok g =>
      .missing (hwf.entries_missing hget) (by simp)
  · refine WellFormed.lockFound (w := { v with st := (w.st.fuGetfile path).2 }) hwf' hpath
      (fun _ _ ht => by cases ht) (fun _ _ ht => by cases ht) fun _ f hfound => ?_
    have hentry := hfound.entry
    dsimp only at hentry
    rw [hentries] at hentry
    split
    · next hother =>
        rw [ensures_unlock]
        refine ensures_refuses [] hc (by decide) fun ok g => ?_
        dsimp only
        rw [hentries]
        exact .foreign hentry (not_owner hclient hother) (by simp)
    · next hmine =>
        have hown := hfound.own hclient (not_not.mp hmine)
        dsimp only at hown
        rw [hentries] at hown
        have hfile := file_eq _ hfound.stored
        dsimp only at hfile
        have hholding : Holding w.st client path a f.data
            ⟨(w.st.fuGetfile path).2, insert (.file a) (insert .storage w.held)⟩ :=
          ⟨hwf', hfound.mem, hfile ▸ hfound.path_eq, hfile ▸ not_not.mp hmine,
            congrArg FileData.data hfile, Finset.mem_insert_self .., hentries ▸ .refl _ _ _⟩
        rw [ensures_readLength hc]
        refine ⟨fun junk => ?_, fun bs _ => ⟨fun _ ok t ht => ?_, fun _ => ?_⟩⟩
        · exact grantRoom_begins [.read 8 none, .unspec junk] qsort hc hclient _
            (fun _ => rfl) hown hholding
        · injection ht with ht
          refine .inl ⟨_, ht.symm, ?_, taken_of_refused [_] ok (by decide), fun g => ?_⟩
          · cases ok with
            | false => rfl
            | true => rfl
          · dsimp only
            rw [hentries]
            exact .dropped hown (.refl _ _ _)
        · exact grantRoom_begins [.read 8 (some bs)] qsort hc hclient _
            (fun _ => rfl) hown hholding

end Writing

end LsoStore
