import LsoStore.Proofs.Exclusive
import LsoStore.Proofs.StoreSections

/-!
# Each section of a handler as a call

The section in which a handler answers is its call on the store of owned files, and
what it has found out before still holds then: the record it looked up carries its
path as long as it is there, and one that it was granted stays. A write makes room
in a turn of its own first. When a handler has come to its end, it has made one
call, with the answer that it gave.
-/

namespace LsoStore

open Proc FileStorage OwnedStore

/-! ## Where the records come from -/

/-- A record of `s'` is one of `s` under the same path, and open to descriptor 0
only if it was; or it is new and has a name. -/
structure Descends (names : List UInt8 → Prop) (s s' : FileStorage) : Prop where
  next : s.next ≤ s'.next
  records : ∀ a f', s'.heap a = some f' →
    (∃ f, s.heap a = some f ∧ f'.path = f.path ∧ (f.client ≠ 0 → f'.client ≠ 0)) ∨
      (s.next ≤ a ∧ names f'.path ∧ f'.client ≠ 0)

section Descends

variable {names : List UInt8 → Prop} {s s' s'' : FileStorage} {a : Nat} {path : List UInt8}

theorem Descends.refl (names : List UInt8 → Prop) (s : FileStorage) : Descends names s s :=
  ⟨Nat.le_refl _, fun _ f hf => .inl ⟨f, hf, rfl, fun h => h⟩⟩

/-- The records of `s''` are records of `s'`. -/
theorem Descends.shrink (h : Descends names s s') (hnext : s'.next ≤ s''.next)
    (hold : ∀ a f'', s''.heap a = some f'' → ∃ f', s'.heap a = some f' ∧ f''.path = f'.path ∧
      (f'.client ≠ 0 → f''.client ≠ 0)) : Descends names s s'' := by
  refine ⟨Nat.le_trans h.next hnext, fun a f'' hf'' => ?_⟩
  obtain ⟨f', hf', hpath, hclient⟩ := hold a f'' hf''
  rcases h.records a f' hf' with ⟨f, hf, hpath', hclient'⟩ | ⟨hnew, hname, hzero⟩
  · exact .inl ⟨f, hf, hpath.trans hpath', fun h => hclient (hclient' h)⟩
  · exact .inr ⟨hnew, hpath ▸ hname, hclient hzero⟩

theorem Descends.modify (h : Descends names s s') (a : Nat) {g : FileData → FileData}
    (hg : ∀ f, (g f).path = f.path ∧ (f.client ≠ 0 → (g f).client ≠ 0)) :
    Descends names s (s'.modifyFile a g) := by
  refine h.shrink (Nat.le_refl _) fun b f'' hf'' => ?_
  rw [modifyFile_heap] at hf''
  split at hf''
  · obtain ⟨f', hf', rfl⟩ := Option.map_eq_some_iff.mp hf''
    exact ⟨f', hf', hg f'⟩
  · exact ⟨f'', hf'', rfl, fun h => h⟩

theorem Descends.count (h : Descends names s s') (a : Nat) :
    Descends names s (s'.modifyFile a fun f => { f with dataInfo := f.dataInfo + 1 }) :=
  h.modify a fun _ => ⟨rfl, fun h => h⟩

/-- Some records are gone. -/
theorem Descends.of_heap (h : Descends names s s') (hnext : s'.next ≤ s''.next)
    (hheap : ∀ a f, s''.heap a = some f → s'.heap a = some f) : Descends names s s'' :=
  h.shrink hnext fun a f hf => ⟨f, hheap a f hf, rfl, fun h => h⟩

theorem Descends.remove (h : Descends names s s') (path : List UInt8) :
    Descends names s (s'.fuRemoveFile path).2 := by
  have hlooked : Descends names s (s'.fuGetfile path).2 := by
    rw [fuGetfile_snd]
    cases s'.table.huGet path with
    | none => exact h
    | some a => exact h.count a
  rw [fuRemoveFile]
  split
  · exact h
  · dsimp only
    split
    · exact hlooked
    · refine hlooked.of_heap (Nat.le_refl _) fun a f hf => ?_
      rw [fuFreeFileData] at hf
      dsimp only at hf
      split at hf
      · cases hf
      · exact hf

theorem Descends.create (h : Descends names s s') {c : Int} (hg : Grown s' path [] c s'.next s'')
    (hwf : s'.WellFormed) (hname : names path) (hc : c ≠ 0) (hnext : s'.next ≤ s''.next) :
    Descends names s s'' := by
  refine ⟨Nat.le_trans h.next hnext, fun a f hf => ?_⟩
  have hfile := file_eq _ hf
  rcases List.mem_cons.mp (hg.ptrs.mem_iff.mp (hg.wellFormed.stored a (by simp [hf])))
    with rfl | hold
  · refine .inr ⟨h.next, ?_, ?_⟩
    · rw [← hfile, hg.path]
      exact hname
    · rw [← hfile, hg.client]
      exact hc
  · obtain ⟨f', hf'⟩ := Option.ne_none_iff_exists'.mp (hwf.accounted.live a hold)
    have hsame : f = f' := by
      rw [← hfile, hg.same a hold, file_eq _ hf']
    exact hsame ▸ h.records a f' hf'

theorem Hosts.descends (h : Hosts names s) (hd : Descends names s s') (hwf : s'.WellFormed) :
    Hosts names s' := by
  have hfacts : ∀ a ∈ s'.ptrs, names (s'.file a).path ∧ (s'.file a).client ≠ 0 := by
    intro a ha
    obtain ⟨f', hf'⟩ := Option.ne_none_iff_exists'.mp (hwf.accounted.live a ha)
    rw [file_eq _ hf']
    rcases hd.records a f' hf' with ⟨f, hf, hpath, hclient⟩ | ⟨-, hname, hzero⟩
    · have hmem := h.wellFormed.stored a (by simp [hf])
      have hname := h.named a hmem
      have howner := h.owner a hmem
      rw [file_eq _ hf] at hname howner
      exact ⟨hpath ▸ hname, hclient howner⟩
    · exact ⟨hname, hzero⟩
  exact ⟨hwf, fun a ha => (hfacts a ha).1, fun a ha => (hfacts a ha).2⟩

end Descends

/-! ## What the sections keep -/

theorem descends_kept (names : List UInt8 → Prop) (s : FileStorage) :
    KeptBySections (fun w => w.st.WellFormed ∧ Descends names s w.st) fun _ => True where
  own _ _ := trivial
  lock _ h := h
  unlockStorage h := h
  unlockFile h _ := h
  count a h := ⟨h.1.modifyFile a fun _ => ⟨rfl, rfl⟩, h.2.count a⟩
  touch h _ hg := ⟨h.1.modifyFile _ fun f => ⟨(hg f).1, (hg f).2.1⟩,
    h.2.modify _ fun f => ⟨(hg f).2.1, fun _ => (hg f).2.2⟩⟩
  remove path h := ⟨h.1.fuRemoveFile path, h.2.remove path⟩

section Acts

variable {names : List UInt8 → Prop} {h : Handler} {qsort : Qsort Nat} {tr : List (Event Mutex)}
  {w w' : World FileStorage Mutex} {t t' : Stage}

/-- A file that nobody else has made. -/
theorem creation_descends (hw : w.st.WellFormed) (hc : h.client ≠ 0) (hname : names h.path)
    (hget : w.st.table.huGet h.path = none) :
    KeptByCreation (fun w' => w'.st.WellFormed ∧ Descends names w.st w'.st) w h.client h.path := by
  have hdiscard : ∀ f : FileData, f.data = [] →
      ((w.st.place f).2.fuFreeFileData w.st.next).WellFormed ∧
        Descends names w.st ((w.st.place f).2.fuFreeFileData w.st.next) := by
    intro f _
    refine ⟨hw.discard f, ?_⟩
    rw [hw.place_fuFreeFileData]
    exact (Descends.refl names w.st).of_heap (Nat.le_succ _) fun _ _ hf => hf
  refine ⟨fun f hd hclient => ?_, fun f hd _ => hdiscard f hd⟩
  by_cases hfull : w.st.fuStorageFilesAvailable = 0
  · have havail : (w.st.place f).2.fuStorageFilesAvailable = 0 := hfull
    dsimp only
    rw [fuAddFile, if_pos havail]
    exact hdiscard f hd
  · have hgrown := Grown.create (c := h.client) hw hd hclient hget hfull
    refine ⟨hgrown.wellFormed, (Descends.refl names w.st).create hgrown hw hname hc ?_⟩
    rw [WellFormed.fuAddFile_place_eq hd hfull]
    exact Nat.le_succ _

theorem Received.descends {a n : Nat} {offset : FileData → Nat}
    (hr : Received w a n offset tr w') (hw : w.st.WellFormed) :
    w'.st.WellFormed ∧ Descends names w.st w'.st := by
  cases hbody : bodyRead tr with
  | false =>
      rw [hr.unwritten hbody]
      exact ⟨hw, .refl _ _⟩
  | true =>
      obtain ⟨f, d, err, hf, hlen, -, hlim, hwrite⟩ := hr.written hbody
      have hlive : w.st.heap a ≠ none := by simp [hf]
      have hmem := hw.stored a hlive
      have hshort : ∀ d', some d = some d' → d'.length ≤ muLimit := by
        intro d' hd
        injection hd with hd
        rwa [← hd, hlen]
      refine ⟨hw.fuWritefile hlive hshort hwrite, ?_⟩
      rcases hw.accounted.fuWritefile_cases hmem hshort hwrite with
        ⟨hs, -⟩ | ⟨hs, -⟩ | ⟨-, d', -, -, -, -, hs⟩
      · rw [hs]
        exact .refl _ _
      · rw [hs]
        exact (Descends.refl names w.st).count a
      · rw [hs]
        exact ((Descends.refl names w.st).modify a (g := fun f' =>
          { f' with dataInfo := f'.dataInfo + 1, data := f'.data.take (offset f) ++ d' })
          fun _ => ⟨rfl, fun h => h⟩).of_heap (Nat.le_refl _) fun _ _ hf => hf

theorem Handler.Acts.descends (ha : h.Acts qsort tr w t w' t') (hc : h.client ≠ 0)
    (hname : names h.path) (hw : w.st.WellFormed)
    (hrace : t = .looked none → h.creates = true → w.st.table.huGet h.path = none) :
    w'.st.WellFormed ∧ Descends names w.st w'.st := by
  have hkept (ht : t.file = none) : w'.st.WellFormed ∧ Descends names w.st w'.st :=
    (descends_kept names w.st).acts hc ha ht
      (fun hlooked hcreates => creation_descends hw hc hname (hrace hlooked hcreates))
      ⟨hw, .refl _ _⟩
  have hruns := ha.runs
  cases t with
  | begun => exact hkept rfl
  | looked file => exact hkept rfl
  | returned r => exact hkept rfl
  | granted a n =>
      obtain ⟨r, -, hrun⟩ := runs_of_returning hruns
      exact (receiveData_received hc a n h.offset tr _ w' hrun r rfl).descends hw

end Acts

/-! ## What a section shows -/

/-- The file a handler will get back to. -/
def Stage.pointer : Stage → Option Nat
  | .looked file => file
  | .granted file _ => some file
  | _ => none

theorem Stage.pointer_of_file {t : Stage} {a : Nat} (h : t.file = some a) : t.pointer = some a := by
  obtain ⟨n, rfl⟩ := Stage.eq_granted h
  exact h

namespace Handler

/-- What a handler that looks its file up wants with it. -/
def asks (h : Handler) : Op (List UInt8) :=
  match h.kind with
  | .openFile message => .acquire (hasFlag message oCreate)
  | .closeFile => .release
  | _ => .read

def call (h : Handler) (op : Op (List UInt8)) (reply : Reply (List UInt8)) :
    Action (List UInt8) Int (List UInt8) := .call ⟨h.client, h.path, op, reply⟩

/-- A write of `d`. -/
def write (h : Handler) (d : List UInt8) : Op (List UInt8) := .update fun old => h.puts old d

/-- The call that a section is, or the room it makes. A lookup is a call if it leads
nowhere and the handler is not to make the file: then it is clear what will be
answered. -/
def action (h : Handler) (s : FileStorage) (t : Stage) (tr : List (Event Mutex)) :
    Option (Action (List UInt8) Int (List UInt8)) :=
  match t with
  | .begun =>
      match h.kind with
      | .writeFile | .appendToFile =>
          if toldToSend tr then some (.room h.client h.path)
          else some (h.call (h.write []) (refusal tr))
      | .removeFile => some (h.call .remove (replyOf .remove tr))
      | _ =>
          if s.table.huGet h.path = none ∧ h.creates = false then some (h.call h.asks .missing)
          else none
  | .looked file =>
      if file = none ∧ h.creates = false then none
      else some (h.call h.asks (replyOf h.asks tr))
  | .granted _ _ =>
      match taken (.write (.word sapiSuccess) true :: tr) with
      | some d => some (h.call (h.write d) .done)
      | none => some (h.call (h.write []) .failed)
  | .returned _ => none

/-- What has become of the entries is the action, if there is one. -/
def ShownBy (action : Option (Action (List UInt8) Int (List UInt8))) (s s' : FileStorage) : Prop :=
  match action with
  | none => s'.entries = s.entries
  | some e => Turn [] s.entries e s'.entries

/-- The entries are what the section's action makes of them. -/
def Shows (h : Handler) (t : Stage) (tr : List (Event Mutex)) (s s' : FileStorage) : Prop :=
  ShownBy (h.action s t tr) s s'

/-- The record the handler will get back to carries its path, and is there if it
was granted. -/
structure Ready (h : Handler) (s : FileStorage) (t : Stage) : Prop where
  below : ∀ a, t.pointer = some a → a < s.next
  path : ∀ a f, t.pointer = some a → s.heap a = some f → f.path = h.path
  stored : ∀ a, t.file = some a → a ∈ s.ptrs

/-- A handler at stage `t` of its work for a client, on a storage of named files. What it
was granted is locked and the client's. -/
structure At (h : Handler) (names : List UInt8 → Prop) (w : World FileStorage Mutex) (t : Stage) :
    Prop where
  hosts : Hosts names w.st
  prefixFree : PrefixFree names
  name : names h.path
  nonzero : h.client ≠ 0
  client : h.client ≠ -1
  ready : h.Ready w.st t
  held : ∀ a, t.file = some a → .file a ∈ w.held
  owner : ∀ a f, t.file = some a → w.st.heap a = some f → f.client = h.client

/-- A removal finds its path in the memory it has freed, and nobody has made the file
that the handler is about to make. -/
structure Undisturbed (h : Handler) (s : FileStorage) (t : Stage)
    (tr : List (Event Mutex)) : Prop where
  intact : h.kind = .removeFile → ∀ freed, .unspec freed ∈ tr → cString freed = h.path
  first : t = .looked none → h.creates = true → s.table.huGet h.path = none

section Sections

variable {h : Handler} {names : List UInt8 → Prop} {qsort : Qsort Nat} {tr : List (Event Mutex)}
  {w w' : World FileStorage Mutex} {s s' : FileStorage} {t t' : Stage} {a : Nat}

theorem Ready.of_none (ht : t.pointer = none) : h.Ready s t := by
  have hne : ∀ a, t.pointer ≠ some a := fun a ha => by
    rw [ht] at ha
    cases ha
  exact ⟨fun a ha => absurd ha (hne a), fun a f ha => absurd ha (hne a),
    fun a ha => absurd (Stage.pointer_of_file ha) (hne a)⟩

theorem Ready.of_mem (hwf : s.WellFormed) (ha : a ∈ s.ptrs) (hpath : (s.file a).path = h.path)
    (ht : t.pointer = some a) : h.Ready s t := by
  have hself : ∀ b, t.pointer = some b → b = a := fun b hb => by
    rw [ht] at hb
    exact (Option.some.inj hb).symm
  refine ⟨fun b hb => ?_, fun b f hb hf => ?_, fun b hb => ?_⟩
  · rw [hself b hb]
    by_contra hle
    exact hwf.accounted.live a ha (hwf.accounted.fresh a (Nat.not_lt.mp hle))
  · rw [hself b hb] at hf
    rw [← hpath, file_eq _ hf]
  · rw [hself b (Stage.pointer_of_file hb)]
    exact ha

/-- What others do leaves the record's path alone. -/
theorem Ready.descends (hr : h.Ready s t) (hd : Descends names s s')
    (hstored : ∀ a, t.file = some a → a ∈ s'.ptrs) : h.Ready s' t := by
  refine ⟨fun a ha => Nat.lt_of_lt_of_le (hr.below a ha) hd.next, fun a f' ha hf' => ?_, hstored⟩
  rcases hd.records a f' hf' with ⟨f, hf, hpath, -⟩ | ⟨hnew, -⟩
  · exact hpath.trans (hr.path a f ha hf)
  · have hbelow := hr.below a ha
    omega

theorem asks_ne_create (hcreates : h.creates = false) : h.asks ≠ .acquire true := by
  intro heq
  rw [asks] at heq
  cases hkind : h.kind with
  | openFile message =>
      rw [creates, hkind] at hcreates
      rw [hkind] at heq
      injection heq with heq
      exact Bool.noConfusion (hcreates.symm.trans heq)
  | closeFile => rw [hkind] at heq; cases heq
  | readFile => rw [hkind] at heq; cases heq
  | writeFile => rw [hkind] at heq; cases heq
  | appendToFile => rw [hkind] at heq; cases heq
  | removeFile => rw [hkind] at heq; cases heq

theorem asks_ne_update (g : List UInt8 → List UInt8) : h.asks ≠ .update g := by
  intro heq
  rw [asks] at heq
  split at heq
  · cases heq
  · cases heq
  · cases heq

/-! ## The first section -/

theorem action_looks (hlooks : h.Looks) : h.action s .begun tr =
    if s.table.huGet h.path = none ∧ h.creates = false then some (h.call h.asks .missing)
    else none := by
  rw [action]
  rcases hlooks.kinds with ⟨message, hkind⟩ | hkind | hkind
  · rw [hkind]
  · rw [hkind]
  · rw [hkind]

theorem action_writes (hkind : h.kind = .writeFile ∨ h.kind = .appendToFile) :
    h.action s .begun tr = if toldToSend tr then some (.room h.client h.path)
      else some (h.call (h.write []) (refusal tr)) := by
  rw [action]
  rcases hkind with hkind | hkind
  · rw [hkind]
  · rw [hkind]

theorem action_removes (hkind : h.kind = .removeFile) :
    h.action s .begun tr = some (h.call .remove (replyOf .remove tr)) := by
  rw [action, hkind]

/-- A lookup leads to the file of its path or nowhere. -/
theorem look_ready (hat : h.At names w .begun) :
    h.Ready (w.st.fuGetfile h.path).2 (.looked (w.st.table.huGet h.path)) := by
  cases hget : w.st.table.huGet h.path with
  | none => exact .of_none rfl
  | some a =>
      have hwf := hat.hosts.wellFormed
      obtain ⟨ha, hpath⟩ := hwf.huGet_name hat.prefixFree hat.hosts.named hat.name hget
      obtain ⟨-, -, hsame⟩ := w.st.fuGetfile_file h.path a
      refine .of_mem (a := a) (hwf.fuGetfile h.path) ?_ (hsame.trans hpath) rfl
      rwa [fuGetfile_ptrs]

/-- A write is refused, or it has made room for what is to come. -/
theorem write_shows (hat : h.At names w .begun)
    (hrun : (writeSection qsort h.client h.path).Runs w tr (.ret t') w') :
    (if toldToSend tr then Drops h.client h.path w.st.entries w'.st.entries
      else Step [] w.st.entries ⟨h.client, h.path, h.write [], refusal tr⟩ w'.st.entries) ∧
      h.Ready w'.st t' := by
  have hbegins := writeSection_begins qsort hat.hosts.wellFormed
    hat.prefixFree hat.hosts.named hat.name
    hat.nonzero hat.client
  rcases hbegins tr _ w' hrun t' rfl with
    ⟨r, rfl, htold, -, hstep⟩ | ⟨a, n, v, rfl, ⟨front, rfl⟩, -, hholding⟩
  · rw [htold]
    exact ⟨hstep _, .of_none rfl⟩
  · rw [toldToSend_word]
    exact ⟨hholding.drops, .of_mem hholding.wellFormed hholding.stored hholding.path_eq rfl⟩

/-- A removal takes away the file of its path. -/
theorem remove_shows (hat : h.At names w .begun)
    (hintact : ∀ freed, .unspec freed ∈ tr → cString freed = h.path)
    {r : Int} (hrun : (LsoStore.removeSection h.client h.path).Runs w tr (.ret r) w') :
    Step [] w.st.entries ⟨h.client, h.path, .remove, replyOf .remove tr⟩ w'.st.entries := by
  have htakes := removeSection_takes hat.prefixFree hat.hosts.named hat.name hat.hosts.wellFormed
    hat.nonzero hat.client
  exact htakes tr _ w' hrun hintact r rfl

theorem begun_shows (hat : h.At names w .begun) (hund : h.Undisturbed w.st .begun tr)
    (ha : h.Acts qsort tr w .begun w' t') : h.Shows .begun tr w.st w'.st ∧ h.Ready w'.st t' := by
  rw [Shows]
  rcases ha.begun_cases with ⟨hlooks, -, rfl, rfl⟩ | ⟨hkind, hwrite⟩ | ⟨hkind, r, rfl, hremove⟩
  · refine ⟨?_, look_ready hat⟩
    have hsame := w.st.entries_fuGetfile h.path
    rw [action_looks hlooks]
    by_cases hmissing : w.st.table.huGet h.path = none ∧ h.creates = false
    · have hnone := hat.hosts.wellFormed.entries_missing hmissing.1
      rw [if_pos hmissing, ShownBy, hsame]
      exact .call (.missing hnone (asks_ne_create hmissing.2))
    · rw [if_neg hmissing]
      exact hsame
  · obtain ⟨hentries, hready⟩ := write_shows hat hwrite
    refine ⟨?_, hready⟩
    rw [action_writes hkind]
    cases htold : toldToSend tr with
    | true =>
        rw [htold] at hentries
        exact Turn.room hentries
    | false =>
        rw [htold] at hentries
        exact Turn.call hentries
  · rw [action_removes hkind]
    exact ⟨Turn.call (remove_shows hat (hund.intact hkind) hremove), .of_none rfl⟩

/-! ## The second section -/

theorem found_some_takes (hat : h.At names w (.looked (some a))) :
    (h.found (some a)).Ensures w (Takes h.asks h.client h.path w.st) := by
  have hwf := hat.hosts.wellFormed
  have hc := hat.nonzero
  have hclient := hat.client
  have hpath : ∀ f, w.st.heap a = some f → f.path = h.path := fun f hf => hat.ready.path a f rfl hf
  have hzero : ∀ f, w.st.heap a = some f → f.client ≠ 0 := by
    intro f hf
    have howner := hat.hosts.owner a (hwf.stored a (by simp [hf]))
    rwa [file_eq _ hf] at howner
  have hread := readFound_takes hwf hc hclient hpath hzero
  rw [found, asks]
  cases hkind : h.kind with
  | openFile message => exact openFound_takes hwf hc hclient hpath
  | closeFile => exact closeFound_takes hwf hc hclient hpath
  | readFile => exact hread
  | writeFile => exact hread
  | appendToFile => exact hread
  | removeFile => exact hread

theorem found_none_creates (hat : h.At names w (.looked none)) (hcreates : h.creates = true)
    (hget : w.st.table.huGet h.path = none) :
    (h.found none).Ensures w (Takes h.asks h.client h.path w.st) := by
  rw [creates] at hcreates
  rw [found, asks]
  cases hkind : h.kind with
  | openFile message =>
      rw [hkind] at hcreates
      dsimp only at hcreates ⊢
      rw [openFound, hcreates]
      exact serverCreateFile_takes hat.hosts.wellFormed hat.nonzero hat.client hget
  | closeFile => rw [hkind] at hcreates; cases hcreates
  | readFile => rw [hkind] at hcreates; cases hcreates
  | writeFile => rw [hkind] at hcreates; cases hcreates
  | appendToFile => rw [hkind] at hcreates; cases hcreates
  | removeFile => rw [hkind] at hcreates; cases hcreates

theorem looked_shows {file : Option Nat} (hat : h.At names w (.looked file))
    (hund : h.Undisturbed w.st (.looked file) tr) {r : Int}
    (hrun : (h.found file).Runs w tr (.ret r) w') : h.Shows (.looked file) tr w.st w'.st := by
  by_cases hnone : file = none ∧ h.creates = false
  · rw [Shows, action, if_pos hnone]
    obtain ⟨rfl, hcreates⟩ := hnone
    exact congrArg entries
      (found_none_replies hat.nonzero hcreates (asks_ne_update (h := h)) tr _ w' hrun r rfl).1
  · rw [Shows, action, if_neg hnone]
    refine Turn.call ?_
    cases file with
    | some a => exact found_some_takes hat tr _ w' hrun r rfl
    | none =>
        have hcreates : h.creates = true := by
          cases hcreates : h.creates with
          | true => rfl
          | false => exact absurd ⟨rfl, hcreates⟩ hnone
        exact found_none_creates hat hcreates (hund.first rfl hcreates) tr _ w' hrun r rfl

/-- The data is read, and one answer ends the transfer. -/
theorem receiveData_answers {client : Int} {n : Nat} {offset : FileData → Nat} (hc : client ≠ 0) :
    (receiveData client a n offset).Ensures w fun tr o _ => ∀ r, o = .ret r →
      ∃ got m ok, tr = [.read n got, .write (.word m) ok] := by
  rw [receiveData, ensures_muCalloc]
  refine ⟨fun _ r hr => (by cases hr), fun _ => ?_⟩
  rw [ensures_read]
  intro got _
  cases got with
  | none =>
      rw [ensures_unlock, ensures_serverRespond_bind hc, ensures_ret, ensures_ret]
      exact ⟨fun _ _ => ⟨_, _, _, rfl⟩, fun _ _ => ⟨_, _, _, rfl⟩⟩
  | some bs =>
      dsimp only
      rw [ensures_deref]
      refine ⟨fun _ r hr => (by cases hr), fun f hf => ?_⟩
      rw [ensures_get]
      split
      · exact ensures_exit.mpr fun r hr => by cases hr
      · rw [ensures_set]
        split
        · rw [ensures_unlock, ensures_serverRespond_bind hc, ensures_ret, ensures_ret]
          exact ⟨fun _ _ => ⟨_, _, _, rfl⟩, fun _ _ => ⟨_, _, _, rfl⟩⟩
        · rw [ensures_serverRespond_bind hc, if_pos (by decide), if_neg (by decide), ensures_unlock,
            ensures_unlock, ensures_ret, ensures_ret]
          exact ⟨fun _ _ => ⟨_, _, _, rfl⟩, fun _ _ => ⟨_, _, _, rfl⟩⟩

/-- A refusal shows in the last call. -/
theorem refusal_word (tr tr' : List (Event Mutex)) (m : SMessage) (ok : Bool) :
    refusal (tr ++ [.write (.word m) ok]) = refusal (tr' ++ [.write (.word m) ok]) := by
  rw [refusal, refusal, lastWord_word, lastWord_word]

/-- What was taken in shows in the last three calls. -/
theorem taken_append_three (front : List (Event Mutex)) (x y z : Event Mutex) :
    taken (front ++ [x, y, z]) = taken [x, y, z] := by
  rw [taken, List.reverse_append]
  rfl

/-- What becomes of the file that was granted. -/
theorem granted_updates {n : Nat} (hat : h.At names w (.granted a n)) :
    ∃ v, w.st.entries h.path = some ⟨some h.client, v⟩ ∧
      (receiveData h.client a n h.offset).Ensures w (Updates w.st h.client h.path v
        (fun old => h.offset ⟨old, 0, 0, []⟩) [.write (.word sapiSuccess) true]) := by
  have hwf := hat.hosts.wellFormed
  have hmem := hat.ready.stored a rfl
  obtain ⟨f, hf⟩ := Option.ne_none_iff_exists'.mp (hwf.accounted.live a hmem)
  have hfile := file_eq _ hf
  have hpath := hat.ready.path a f rfl hf
  have howner := hat.owner a f rfl hf
  have hholding : Holding w.st h.client h.path a f.data w :=
    ⟨hwf, hmem, hfile ▸ hpath, hfile ▸ howner, by rw [hfile], hat.held a rfl, .refl _ _ _⟩
  exact ⟨f.data, Found.own ⟨hwf, hf, hpath⟩ hat.client howner,
    receiveData_updates hat.nonzero hat.client (fun f => h.offset_congr rfl) n ⟨[], rfl⟩ hholding⟩

theorem granted_shows {n : Nat} (hat : h.At names w (.granted a n)) {r : Int}
    (hrun : (receiveData h.client a n h.offset).Runs w tr (.ret r) w') :
    h.Shows (.granted a n) tr w.st w'.st := by
  obtain ⟨v, hentry, hreceive⟩ := granted_updates hat
  rw [Shows, action]
  rcases hreceive _ _ w' hrun r rfl with ⟨hnone, -, hdrops⟩ | ⟨d, s₁, hd, hdrops, hput⟩
  · rw [List.singleton_append] at hnone
    rw [hnone]
    exact Turn.call (.dropped hentry hdrops)
  · rw [List.singleton_append] at hd
    rw [hd, ShownBy, hput, ← h.puts_eq]
    exact Turn.call (.updated (g := fun old => h.puts old d) hentry hdrops)

/-! ## Files that are locked stay -/

/-- Opening, closing and reading take no file out of the table. -/
theorem stored_kept (a : Nat) : KeptByLocking (fun w => a ∈ w.st.ptrs) fun _ => True where
  own _ _ := trivial
  lock _ h := h
  unlockStorage h := h
  unlockFile h _ := h
  count _ h := h
  touch h _ _ := h

theorem creation_keeps {a : Nat} (hw : w.st.WellFormed) (hget : w.st.table.huGet h.path = none)
    (ha : a ∈ w.st.ptrs) : KeptByCreation (fun w => a ∈ w.st.ptrs) w h.client h.path := by
  have hdiscard : ∀ f : FileData, a ∈ ((w.st.place f).2.fuFreeFileData w.st.next).ptrs := by
    intro f
    rw [hw.place_fuFreeFileData]
    exact ha
  refine ⟨fun f hd hclient => ?_, fun f _ _ => hdiscard f⟩
  by_cases hfull : w.st.fuStorageFilesAvailable = 0
  · have havail : (w.st.place f).2.fuStorageFilesAvailable = 0 := hfull
    dsimp only
    rw [fuAddFile, if_pos havail]
    exact hdiscard f
  · have hgrown := Grown.create (c := h.client) hw hd hclient hget hfull
    exact hgrown.ptrs.mem_iff.mpr (List.mem_cons_of_mem _ ha)

/-- A removal that finds its path takes away the file it has locked. -/
theorem removeSection_keeps {a : Nat} (hat : h.At names w t) (ha : a ∈ w.st.ptrs)
    (hheld : .file a ∈ w.held) :
    (removeSection h.client h.path).Ensures w fun tr o w' =>
      (∀ freed, .unspec freed ∈ tr → cString freed = h.path) →
        ∀ r, o = .ret r → a ∈ w'.st.ptrs := by
  have hanswer : ∀ {v : World FileStorage Mutex} (m : SMessage) (r : Int), a ∈ v.st.ptrs →
      (sapiRespond m h.client (.ret r)).Ensures v fun tr o w' =>
        (∀ freed, .unspec freed ∈ tr → cString freed = h.path) → ∀ r, o = .ret r →
          a ∈ w'.st.ptrs := by
    intro v m r hv
    rw [ensures_sapiRespond hat.nonzero, ensures_ret]
    exact ⟨fun _ _ _ => hv, fun _ _ _ => hv⟩
  have hlooked : a ∈ (w.st.fuGetfile h.path).2.ptrs := by rwa [fuGetfile_ptrs]
  rw [removeSection]
  refine ensures_lock.mpr ⟨fun _ _ _ hr => (by cases hr), fun _ => ?_⟩
  set v : World FileStorage Mutex := { w with held := insert .storage w.held }
  refine WellFormed.lookup (w := v) hat.hosts.wellFormed hat.prefixFree hat.hosts.named hat.name
    (fun _ => ?_) fun b hwf' hpath => ?_
  · rw [ensures_unlock]
    exact hanswer _ _ ha
  · refine WellFormed.lockFound (w := { v with st := (w.st.fuGetfile h.path).2 }) hwf' hpath
      (fun _ _ _ hr => by cases hr) (fun _ _ _ hr => by cases hr) fun hfree f hfound => ?_
    split
    · rw [ensures_unlock, ensures_unlock]
      exact hanswer _ _ hlooked
    · rw [ensures_unlock, ensures_unspec]
      intro freed
      have hba : a ≠ b := fun heq => hfree (Finset.mem_insert_of_mem (heq ▸ hheld))
      have hkept : ∀ (ok : Bool) (r : Int) (held : Finset Mutex),
          (∀ freed', .unspec freed' ∈ ([.unspec freed, .write (.word sapiSuccess) ok] :
            List (Event Mutex)) → cString freed' = h.path) →
          a ∈ ((w.st.fuGetfile h.path).2.fuRemoveFile (cString freed)).2.ptrs := by
        intro ok r held hintact
        obtain ⟨-, hperm, -⟩ := hfound.wellFormed.fuRemoveFile_path hfound.mem
        rw [file_eq _ hfound.stored, hfound.path_eq] at hperm
        rw [hintact freed (List.mem_cons_self ..)]
        exact (List.mem_cons.mp (hperm.mem_iff.mp hlooked)).resolve_left hba
      rw [ensures_removefile, ensures_unlock, ensures_sapiRespond hat.nonzero, ensures_ret]
      exact ⟨fun hintact r _ => hkept false r ∅ hintact, fun hintact r _ => hkept true r ∅ hintact⟩

/-- A file that was locked before a section is stored after it. -/
theorem Acts.keeps_stored (ha : h.Acts qsort tr w t w' t') (hat : h.At names w t)
    (hund : h.Undisturbed w.st t tr)
    (hmem : a ∈ w.st.ptrs) (hheld : .file a ∈ w.held) : a ∈ w'.st.ptrs := by
  have hruns := ha.runs
  cases t with
  | begun =>
      rcases ha.begun_cases with ⟨-, -, rfl, -⟩ | ⟨hkind, -⟩ | ⟨hkind, r, -, hremove⟩
      · exact (stored_kept a).getfile hmem h.path
      · exact ((Writes.acts_begun ⟨hat.nonzero, hkind⟩ hat.hosts.wellFormed ha).keeps
          hat.hosts.wellFormed hmem (h.held_subset_holding w hheld)).1
      · exact removeSection_keeps hat hmem hheld tr _ w' hremove (hund.intact hkind) r rfl
  | looked file =>
      obtain ⟨r, -, hrun⟩ := runs_of_returning hruns
      exact (stored_kept a).found hat.nonzero hmem file (fun hnone hcreates =>
        creation_keeps hat.hosts.wellFormed (hund.first (hnone ▸ rfl) hcreates)
          hmem) tr _ w' hrun _ rfl
  | granted b n =>
      obtain ⟨r, -, hrun⟩ := runs_of_returning hruns
      rw [((receiveData_received hat.nonzero b n h.offset tr _ w' hrun r rfl).others
        hat.hosts.wellFormed).2.1]
      exact hmem
  | returned r => exact absurd rfl (ha.active r)

/-! ## One call for each request -/

/-- What a handler asks for that has taken in the data in `tr`. -/
def wants (h : Handler) (tr : List (Event Mutex)) : Op (List UInt8) :=
  match h.kind with
  | .writeFile | .appendToFile => h.write ((taken tr).getD [])
  | .removeFile => .remove
  | _ => h.asks

/-- What a handler has done when it has come to stage `t`: the calls its sections were,
and all that it has read and written in them. In the end there is one call, and
it is answered as it was. -/
def Progress (h : Handler) (t : Stage) (calls : List (Call (List UInt8) Int (List UInt8)))
    (tr : List (Event Mutex)) : Prop :=
  match t with
  | .begun => calls = [] ∧ tr = []
  | .looked file =>
      (∀ tr, h.wants tr = h.asks) ∧ tr = [] ∧
        calls = if file = none ∧ h.creates = false then
          [⟨h.client, h.path, h.asks, .missing⟩] else []
  | .granted _ _ =>
      (∀ tr, h.wants tr = h.write ((taken tr).getD [])) ∧ calls = [] ∧
        ∃ front, tr = front ++ [.write (.word sapiSuccess) true]
  | .returned _ => calls = [⟨h.client, h.path, h.wants tr, replyOf (h.wants tr) tr⟩]

/-- The call that a section is. -/
def sectionCall (h : Handler) (s : FileStorage) (t : Stage) (tr : List (Event Mutex)) :
    List (Call (List UInt8) Int (List UInt8)) := ((h.action s t tr).bind Action.toCall).toList

theorem wants_looks (hlooks : h.Looks) (tr : List (Event Mutex)) : h.wants tr = h.asks := by
  rw [wants]
  rcases hlooks.kinds with ⟨message, hkind⟩ | hkind | hkind
  · rw [hkind]
  · rw [hkind]
  · rw [hkind]

theorem wants_writes (hkind : h.kind = .writeFile ∨ h.kind = .appendToFile)
    (tr : List (Event Mutex)) : h.wants tr = h.write ((taken tr).getD []) := by
  rw [wants]
  rcases hkind with hkind | hkind
  · rw [hkind]
  · rw [hkind]

theorem begun_progress (hat : h.At names w .begun) (ha : h.Acts qsort tr w .begun w' t') :
    h.Progress t' (h.sectionCall w.st .begun tr) tr := by
  rw [sectionCall]
  rcases ha.begun_cases with ⟨hlooks, rfl, -, rfl⟩ | ⟨hkind, hwrite⟩ | ⟨hkind, r, rfl, -⟩
  · rw [action_looks hlooks]
    refine ⟨wants_looks hlooks, rfl, ?_⟩
    split
    · rfl
    · rfl
  · rw [action_writes hkind]
    have hbegins := writeSection_begins qsort hat.hosts.wellFormed hat.prefixFree hat.hosts.named
      hat.name hat.nonzero hat.client
    rcases hbegins tr _ w' hwrite t' rfl with ⟨r, rfl, htold, htaken, -⟩ |
      ⟨a, n, v, rfl, ⟨front, rfl⟩, -, -⟩
    · rw [htold]
      have hreply : replyOf (h.write []) tr = refusal tr := by
        rw [write, replyOf, htaken]
        rfl
      rw [Progress, wants_writes hkind, htaken, Option.getD_none, hreply]
      rfl
    · rw [toldToSend_word]
      exact ⟨wants_writes hkind, rfl, front, rfl⟩
  · have hwants : h.wants tr = .remove := by rw [wants, hkind]
    rw [action_removes hkind, Progress, hwants]
    rfl

theorem looked_progress {file : Option Nat} {calls : List (Call (List UInt8) Int (List UInt8))}
    {pre : List (Event Mutex)} (hat : h.At names w (.looked file))
    (hp : h.Progress (.looked file) calls pre) {r : Int}
    (hrun : (h.found file).Runs w tr (.ret r) w') :
    h.Progress (.returned r) (calls ++ h.sectionCall w.st (.looked file) tr) (pre ++ tr) := by
  obtain ⟨hwants, rfl, rfl⟩ := hp
  rw [Progress, hwants, sectionCall, action, List.nil_append]
  by_cases hnone : file = none ∧ h.creates = false
  · rw [if_pos hnone, if_pos hnone]
    obtain ⟨rfl, hcreates⟩ := hnone
    rw [(found_none_replies hat.nonzero hcreates (asks_ne_update (h := h)) tr _ w' hrun r rfl).2]
    rfl
  · rw [if_neg hnone, if_neg hnone]
    rfl

theorem granted_progress {n : Nat} {calls : List (Call (List UInt8) Int (List UInt8))}
    {pre : List (Event Mutex)} (hat : h.At names w (.granted a n))
    (hp : h.Progress (.granted a n) calls pre) {r : Int}
    (hrun : (receiveData h.client a n h.offset).Runs w tr (.ret r) w') :
    h.Progress (.returned r) (calls ++ h.sectionCall w.st (.granted a n) tr) (pre ++ tr) := by
  obtain ⟨hwants, rfl, front, rfl⟩ := hp
  obtain ⟨got, m, ok, rfl⟩ := receiveData_answers hat.nonzero tr _ w' hrun r rfl
  have hwhole : taken (front ++ [.write (.word sapiSuccess) true] ++
      [.read n got, .write (.word m) ok]) = taken [.write (.word sapiSuccess) true, .read n got,
        .write (.word m) ok] := by
    rw [List.append_assoc]
    exact taken_append_three _ _ _ _
  rw [Progress, hwants, hwhole, sectionCall, action, List.nil_append]
  cases htaken : taken [.write (.word sapiSuccess) true, .read n got, .write (.word m) ok] with
  | some d =>
      have hreply : replyOf (h.write d) (front ++ [.write (.word sapiSuccess) true] ++
          [.read n got, .write (.word m) ok]) = .done := by
        rw [write, replyOf, hwhole, htaken]
        rfl
      rw [Option.getD_some, hreply]
      rfl
  | none =>
      have hfailed : refusal [.write (.word sapiSuccess) true, .read n got, .write (.word m) ok] =
          .failed := by
        obtain ⟨v, -, hreceive⟩ := granted_updates hat
        rcases hreceive _ _ w' hrun r rfl with ⟨-, hfailed, -⟩ | ⟨d, s₁, hd, -⟩
        · exact hfailed
        · rw [List.singleton_append, htaken] at hd
          cases hd
      have hreply : replyOf (h.write []) (front ++ [.write (.word sapiSuccess) true] ++
          [.read n got, .write (.word m) ok]) = .failed := by
        have hlast := refusal_word (front ++ [.write (.word sapiSuccess) true, .read n got])
          [.write (.word sapiSuccess) true, .read n got] m ok
        rw [List.append_assoc] at hlast
        rw [write, replyOf, hwhole, htaken, List.append_assoc]
        exact hlast.trans hfailed
      rw [Option.getD_none, hreply]
      rfl

theorem Acts.progress (ha : h.Acts qsort tr w t w' t') (hat : h.At names w t)
    {calls : List (Call (List UInt8) Int (List UInt8))} {pre : List (Event Mutex)}
    (hp : h.Progress t calls pre) :
    h.Progress t' (calls ++ h.sectionCall w.st t tr) (pre ++ tr) := by
  have hruns := ha.runs
  cases t with
  | begun =>
      obtain ⟨rfl, rfl⟩ := hp
      exact begun_progress hat ha
  | looked file =>
      obtain ⟨r, rfl, hrun⟩ := runs_of_returning hruns
      exact looked_progress hat hp hrun
  | granted a n =>
      obtain ⟨r, rfl, hrun⟩ := runs_of_returning hruns
      exact granted_progress hat hp hrun
  | returned r => exact absurd rfl (ha.active r)

/-- Every section shows, and leaves its handler ready. -/
theorem Acts.shows (ha : h.Acts qsort tr w t w' t') (hat : h.At names w t)
    (hund : h.Undisturbed w.st t tr) :
    h.Shows t tr w.st w'.st ∧ h.Ready w'.st t' := by
  have hruns := ha.runs
  cases t with
  | begun => exact begun_shows hat hund ha
  | looked file =>
      obtain ⟨r, rfl, hrun⟩ := runs_of_returning hruns
      exact ⟨looked_shows hat hund hrun, .of_none rfl⟩
  | granted a n =>
      obtain ⟨r, rfl, hrun⟩ := runs_of_returning hruns
      exact ⟨granted_shows hat hrun, .of_none rfl⟩
  | returned r => exact absurd rfl (ha.active r)

end Sections

end Handler

end LsoStore
