import LsoStore.Proofs.Sections

/-!
# Pointers kept across sections

`server_openFile`, `server_closeFile` and `server_readFile` look their file up
without the storage's mutex and lock the file's own mutex later. Eviction and
removal unlock that mutex and free the file, so between the two a pointer that
a handler has in its hands can come to point at nothing.

A storing section takes such a file away exactly when one of the files it gives
up is a file that some handler has looked up and not locked yet. Which files a
section gives up is known from the storage it starts from, from the length it
is sent and from the answers it gets. This is so as long as no open stores a
file under a path that leads to a file by then, which is another matter.
-/

namespace LsoStore

open Proc FileStorage

/-- The file the freed path leads to, which is the one `server_removeFile`
removes. -/
def FileStorage.removeGone (s : FileStorage) : List (Event Mutex) → List Nat
  | .unspec freed :: _ => (s.table.huGet (cString freed)).toList
  | _ => []

/-- The files that the handler's next section gives up. -/
def Handler.gone (h : Handler) (qsort : Qsort Nat) (w : World FileStorage Mutex) (t : Stage)
    (tr : List (Event Mutex)) : List Nat :=
  match t, h.kind with
  | .begun, .writeFile => h.writeGone qsort w tr
  | .begun, .appendToFile => h.writeGone qsort w tr
  | .begun, .removeFile => w.st.removeGone tr
  | _, _ => []

/-- If the handler is about to store a file, its path leads to none. -/
def Handler.CreatesFresh (h : Handler) (s : FileStorage) (t : Stage) : Prop :=
  t = .looked none → (∃ message, h.kind = .openFile message ∧ hasFlag message oCreate = true) →
    s.HasRoom → s.table.huGet h.path = none

section Effect

variable {qsort : Qsort Nat} {message : SMessage} {client : Int} {path : List UInt8}
  {w w' : World FileStorage Mutex} {s : FileStorage}

/-- A section that takes no file away. -/
def KeepsFiles (w w' : World FileStorage Mutex) : Prop :=
  w'.st.WellFormed ∧ w.st.ptrs ⊆ w'.st.ptrs

theorem KeepsFiles.of_touch (hwf : w.st.WellFormed) (a : Nat) {g : FileData → FileData}
    (hg : ∀ f, (g f).data = f.data ∧ (g f).path = f.path) (hst : w'.st = w.st.modifyFile a g) :
    KeepsFiles w w' := by
  rw [KeepsFiles, hst]
  exact ⟨hwf.modifyFile a hg, List.Subset.refl _⟩

theorem KeepsFiles.of_eq (hwf : w.st.WellFormed) (hst : w'.st = w.st) : KeepsFiles w w' := by
  rw [KeepsFiles, hst]
  exact ⟨hwf, List.Subset.refl _⟩

theorem openFound_some_keeps (hc : client ≠ 0) (hwf : w.st.WellFormed) (file : Nat) :
    (openFound message client path (some file)).Ensures w fun _ _ w' => KeepsFiles w w' := by
  rw [openFound]
  refine Ensures.lockFile (fun _ => .of_eq hwf rfl) (fun _ => .of_eq hwf rfl) fun _ f _ => ?_
  split
  · rw [ensures_unlock, ensures_sapiRespond hc, ensures_ret]
    exact ⟨.of_eq hwf rfl, .of_eq hwf rfl⟩
  · rw [ensures_takeOwnership, ensures_unlock, ensures_sapiRespond hc, ensures_ret]
    have hopened : ∀ f : FileData, (f.openedBy message client).data = f.data ∧
        (f.openedBy message client).path = f.path := fun _ => ⟨rfl, rfl⟩
    exact ⟨.of_touch hwf file hopened rfl, .of_touch hwf file hopened rfl⟩

theorem closeFound_keeps (hc : client ≠ 0) (hwf : w.st.WellFormed) (file : Option Nat) :
    (closeFound client file).Ensures w fun _ _ w' => KeepsFiles w w' := by
  cases file with
  | none =>
      rw [closeFound, ensures_sapiRespond hc, ensures_ret]
      exact ⟨.of_eq hwf rfl, .of_eq hwf rfl⟩
  | some file =>
      rw [closeFound]
      refine Ensures.lockFile (fun _ => .of_eq hwf rfl) (fun _ => .of_eq hwf rfl) fun _ f _ => ?_
      split
      · rw [ensures_unlock, ensures_sapiRespond hc, ensures_ret]
        exact ⟨.of_eq hwf rfl, .of_eq hwf rfl⟩
      · rw [ensures_assign, ensures_unlock, ensures_sapiRespond hc, ensures_ret]
        have hclosed : ∀ f : FileData, ({ f with client := -1 } : FileData).data = f.data ∧
            ({ f with client := -1 } : FileData).path = f.path := fun _ => ⟨rfl, rfl⟩
        exact ⟨.of_touch hwf file hclosed rfl, .of_touch hwf file hclosed rfl⟩

theorem readFound_keeps (hc : client ≠ 0) (hwf : w.st.WellFormed) (file : Option Nat) :
    (readFound client file).Ensures w fun _ _ w' => KeepsFiles w w' := by
  cases file with
  | none =>
      rw [readFound, ensures_sapiRespond hc, ensures_ret]
      exact ⟨.of_eq hwf rfl, .of_eq hwf rfl⟩
  | some file =>
      rw [readFound]
      refine Ensures.lockFile (fun _ => .of_eq hwf rfl) (fun _ => .of_eq hwf rfl) fun _ f _ => ?_
      split
      · rw [ensures_unlock, ensures_sapiRespond hc, ensures_ret]
        exact ⟨.of_eq hwf rfl, .of_eq hwf rfl⟩
      · rw [ensures_sapiRespond hc]
        refine ⟨.of_eq hwf rfl, Ensures.serverSendData_bind fun tr _ _ => ?_⟩
        rw [ensures_unlock, ensures_ret]
        exact .of_eq hwf rfl

/-- An open that found nothing and stores its file if it may. -/
theorem openFound_none_keeps (hc : client ≠ 0) (hwf : w.st.WellFormed)
    (hfresh : hasFlag message oCreate = true → w.st.HasRoom → w.st.table.huGet path = none) :
    (openFound message client path none).Ensures w fun _ o w' => ∀ r, o = .ret r →
      KeepsFiles w w' := by
  rw [openFound]
  split
  · rw [ensures_sapiRespond hc, ensures_ret]
    exact ⟨fun _ _ => .of_eq hwf rfl, fun _ _ => .of_eq hwf rfl⟩
  · next hcreate =>
      rw [ensures_serverCreateFile hc]
      dsimp only
      refine ⟨fun _ r hr => (by cases hr), fun _ => ⟨fun hfull ok r _ => ?_,
        fun hroom ok r _ => ?_⟩⟩
      · refine ⟨hwf.discard _, ?_⟩
        rw [hwf.place_fuFreeFileData]
        exact List.Subset.refl _
      · have hroom : w.st.HasRoom := hroom
        have hn := hfresh (by simpa using hcreate) hroom
        refine ⟨hwf.create rfl hn, ?_⟩
        have hfiles : w.st.fuStorageFilesAvailable ≠ 0 := fun h => hroom (.inr h)
        exact fun a ha => (hwf.ptrs_create rfl hfiles).mem_iff.mpr (List.mem_cons_of_mem _ ha)

theorem receiveData_keeps (hc : client ≠ 0) (hwf : w.st.WellFormed) (file n : Nat)
    (offset : FileData → Nat) :
    (receiveData client file n offset).Ensures w fun _ o w' => ∀ r, o = .ret r →
      KeepsFiles w w' := by
  refine (receiveData_received hc file n offset).mono fun tr o w' h r hr => ?_
  cases hbody : bodyRead tr with
  | false => exact .of_eq hwf ((h r hr).unwritten hbody)
  | true =>
      obtain ⟨f, d, err, hf, hlen, -, hlim, hw⟩ := (h r hr).written hbody
      refine ⟨hwf.fuWritefile (by simp [hf]) (fun d' hd => ?_) hw, ?_⟩
      · injection hd with hd
        rwa [← hd, hlen]
      · rw [ptrs, ptrs, fuWritefile_table _ _ hw]
        exact List.Subset.refl _

/-- The files that are not in `gone` stay, and those in `gone` do not. -/
def TakesAway (w w' : World FileStorage Mutex) (gone : List Nat) : Prop :=
  w'.st.WellFormed ∧ ∀ a ∈ w.st.ptrs, (a ∈ w'.st.ptrs ↔ a ∉ gone)

theorem KeepsFiles.takesAway (h : KeepsFiles w w') : TakesAway w w' [] :=
  ⟨h.1, fun _ ha => iff_of_true (h.2 ha) List.not_mem_nil⟩

theorem removeSection_effect (hc : client ≠ 0) (hwf : w.st.WellFormed) :
    (removeSection client path).Ensures w fun tr o w' => ∀ r, o = .ret r →
      TakesAway w w' (w.st.removeGone tr) := by
  have hwf' := hwf.fuGetfile path
  rw [removeSection, ensures_lock]
  refine ⟨fun _ r hr => (by cases hr), fun _ => ?_⟩
  rw [ensures_getfile]
  have hkept : ∀ w' : World FileStorage Mutex, w'.st = (w.st.fuGetfile path).2 →
      TakesAway w w' [] := by
    intro w' hst
    refine KeepsFiles.takesAway ?_
    rw [KeepsFiles, hst, fuGetfile_ptrs]
    exact ⟨hwf', List.Subset.refl _⟩
  dsimp only
  cases w.st.table.huGet path with
  | none =>
      dsimp only
      rw [ensures_unlock, ensures_sapiRespond hc, ensures_ret]
      exact ⟨fun _ _ => hkept _ rfl, fun _ _ => hkept _ rfl⟩
  | some file =>
      dsimp only
      refine Ensures.lockFile (fun _ r hr => (by cases hr)) (fun _ r hr => (by cases hr))
        fun _ f _ => ?_
      split
      · rw [ensures_unlock, ensures_unlock, ensures_sapiRespond hc, ensures_ret]
        exact ⟨fun _ _ => hkept _ rfl, fun _ _ => hkept _ rfl⟩
      · rw [ensures_unlock, ensures_unspec]
        intro freed
        rw [ensures_removefile, ensures_unlock, ensures_sapiRespond hc, ensures_ret]
        have hremoved : ∀ b ∈ w.st.ptrs,
            b ∈ ((w.st.fuGetfile path).2.fuRemoveFile (cString freed)).2.ptrs ↔
              b ∉ (w.st.table.huGet (cString freed)).toList := by
          intro b hb
          rw [← fuGetfile_table w.st path]
          exact hwf'.mem_ptrs_fuRemoveFile _ (by rwa [fuGetfile_ptrs])
        exact ⟨fun _ _ => ⟨hwf'.fuRemoveFile _, hremoved⟩,
          fun _ _ => ⟨hwf'.fuRemoveFile _, hremoved⟩⟩

end Effect

/-! ## Sections -/

/-- A file that the handler has looked up is stored. -/
def Handlers.PointersStored {ι : Type} (c : Handlers ι) : Prop :=
  ∀ i a, c.stage i = .looked (some a) → a ∈ c.shared.st.ptrs

/-- The handler that acts gives up no file that another has looked up. -/
def Handlers.SparesPointers {ι : Type} (qsort : Qsort Nat) (handlers : ι → Handler)
    (l : ι × List (Event Mutex)) (c : Handlers ι) : Prop :=
  ∀ i a, c.stage i = .looked (some a) →
    a ∉ (handlers l.1).gone qsort c.shared (c.stage l.1) l.2

section Runs

variable {qsort : Qsort Nat} {h : Handler} {w w' : World FileStorage Mutex} {t t' : Stage}
  {tr : List (Event Mutex)}

theorem WriteSectionDone.takesAway (hd : WriteSectionDone h qsort w tr t w')
    (hwf : w.st.WellFormed) : TakesAway w w' (h.writeGone qsort w tr) := by
  obtain ⟨hwf', hwo, -⟩ := hwf.giveUps_writeGone h qsort tr
  have hnodup := hwf.accounted.nodup
  rw [← fuGetfile_ptrs w.st h.path, hwo.ptrs.nodup_iff] at hnodup
  rw [TakesAway, hd.st]
  refine ⟨hwf', fun a ha => ?_⟩
  rw [← fuGetfile_ptrs w.st h.path, hwo.ptrs.mem_iff, List.mem_append] at ha
  constructor
  · exact fun hmem hgone => (List.nodup_append'.mp hnodup).2.2 hgone hmem
  · exact ha.resolve_left

/-- Second sections take nothing away. -/
theorem Handler.second_keeps (hc : h.client ≠ 0) (hwf : w.st.WellFormed)
    (hfresh : h.CreatesFresh w.st t) :
    (h.second t).Ensures w fun _ o w' => ∀ r, o = .ret r → KeepsFiles w w' := by
  cases t with
  | begun =>
      rw [Handler.second, ensures_fault]
      exact fun r hr => by cases hr
  | granted file n => exact receiveData_keeps hc hwf file n h.offset
  | returned r =>
      rw [Handler.second, ensures_ret]
      exact fun _ _ => .of_eq hwf rfl
  | looked file =>
      rw [Handler.second, Handler.found]
      split
      · next message hkind =>
          cases file with
          | some file => exact (openFound_some_keeps hc hwf file).mono fun _ _ _ hk _ _ => hk
          | none =>
              exact openFound_none_keeps hc hwf fun hcreate =>
                hfresh rfl ⟨message, hkind, hcreate⟩
      · exact (closeFound_keeps hc hwf file).mono fun _ _ _ hk _ _ => hk
      · exact (readFound_keeps hc hwf file).mono fun _ _ _ hk _ _ => hk

/-- What a section takes away, and where its lookup leads. -/
theorem Handler.Acts.takesAway (ha : h.Acts qsort tr w t w' t') (hc : h.client ≠ 0)
    (hwf : w.st.WellFormed) (hfresh : h.CreatesFresh w.st t) :
    TakesAway w w' (h.gone qsort w t tr) ∧ ∀ a, t' = .looked (some a) → a ∈ w'.st.ptrs := by
  have hlookup : (getfile h.path fun file => (.ret (.looked file) : ServerM Stage)).Runs w tr
      (.ret t') w' → TakesAway w w' [] ∧ ∀ a, t' = .looked (some a) → a ∈ w'.st.ptrs := by
    rw [getfile, runs_get, runs_set, runs_ret]
    intro h
    obtain ⟨-, ht, rfl⟩ := h
    refine ⟨KeepsFiles.takesAway ⟨hwf.fuGetfile h.path, ?_⟩,
      fun a hlooked => ?_⟩
    · rw [fuGetfile_ptrs]
      exact List.Subset.refl _
    · injection ht with ht
      rw [hlooked, FileStorage.fuGetfile_fst] at ht
      injection ht with ht
      rw [fuGetfile_ptrs]
      exact WellFormed.huGet_mem_ptrs ht.symm
  have hwrite : (writeSection qsort h.client h.path).Runs w tr (.ret t') w' →
      TakesAway w w' (h.writeGone qsort w tr) ∧ ∀ a, t' = .looked (some a) → a ∈ w'.st.ptrs := by
    intro hruns
    have hd := writeSection_done hc hwf tr _ w' hruns t' rfl ha.trylock
    refine ⟨hd.takesAway hwf, fun a hlooked => ?_⟩
    rcases hd.stage with ⟨_, _, rfl, -⟩ | ⟨_, rfl⟩ <;> cases hlooked
  have hsecond : t ≠ .begun → TakesAway w w' [] ∧
      ∀ a, t' = .looked (some a) → a ∈ w'.st.ptrs := by
    intro ht
    have hruns : (returning (h.second t)).Runs w tr (.ret t') w' := by
      have hruns := ha.runs
      cases t with
      | begun => exact absurd rfl ht
      | _ => exact hruns
    obtain ⟨r, rfl, hrun⟩ := runs_of_returning hruns
    exact ⟨(Handler.second_keeps hc hwf hfresh tr _ w' hrun r rfl).takesAway,
      fun a hlooked => by cases hlooked⟩
  cases t with
  | begun =>
      have hruns := ha.runs
      rw [Handler.next, Handler.first] at hruns
      unfold Handler.gone
      cases hkind : h.kind with
      | openFile message => exact hlookup (by simpa only [hkind] using hruns)
      | closeFile => exact hlookup (by simpa only [hkind] using hruns)
      | readFile => exact hlookup (by simpa only [hkind] using hruns)
      | writeFile => exact hwrite (by simpa only [hkind] using hruns)
      | appendToFile => exact hwrite (by simpa only [hkind] using hruns)
      | removeFile =>
          simp only [hkind] at hruns
          obtain ⟨r, rfl, hrun⟩ := runs_of_returning hruns
          exact ⟨removeSection_effect hc hwf tr _ w' hrun r rfl,
            fun a hlooked => by cases hlooked⟩
  | looked file => exact hsecond (by simp)
  | granted file n => exact hsecond (by simp)
  | returned r => exact absurd rfl (ha.active r)

/-- Handlers that serve clients start from a well-formed storage. As long as no
open stores its file beside another one of the same path, every file that a
handler has looked up stays stored until the handler has locked it, if and only
if no handler gives such a file up. -/
theorem pointers_stored_iff {ι : Type} [DecidableEq ι] {handlers : ι → Handler}
    {past : List ((ι × List (Event Mutex)) × Handlers ι)} {c : Handlers ι}
    (hc : ∀ i, (handlers i).client ≠ 0)
    (hrun : HandlersRun qsort handlers (·.st.WellFormed) past c)
    (hfresh : ∀ e ∈ past, (handlers e.1.1).CreatesFresh e.2.shared.st (e.2.stage e.1.1)) :
    (∀ x ∈ visited past c, x.PointersStored) ↔
      ∀ e ∈ past, Handlers.SparesPointers qsort handlers e.1 e.2 := by
  refine (Run.restrict (C := fun l c =>
    (handlers l.1).CreatesFresh c.shared.st (c.stage l.1)) hrun hfresh).always_iff
    (J := (·.shared.st.WellFormed)) (C := Handlers.SparesPointers qsort handlers)
    (fun c hc => ⟨fun i a hi => by simp [hc.2 i] at hi, hc.1⟩) fun c l c' hI hJ hstep => ?_
  obtain ⟨hstep, hfresh⟩ := hstep
  cases hstep with
  | act i tr w t ha =>
      obtain ⟨⟨hwf, hptrs⟩, hnew⟩ := ha.takesAway (hc i) hJ hfresh
      refine ⟨⟨fun hI' j a hj => ?_, fun hspares j a hj => ?_⟩, fun _ => hwf⟩
      · by_cases hji : j = i
        · subst hji
          rw [hj]
          exact List.not_mem_nil
        · refine (hptrs a (hI j a hj)).mp (hI' j a ?_)
          simpa [Function.update_of_ne hji] using hj
      · by_cases hji : j = i
        · subst hji
          exact hnew a (by simpa using hj)
        · have hj : c.stage j = .looked (some a) := by simpa [Function.update_of_ne hji] using hj
          exact (hptrs a (hI j a hj)).mpr (hspares j a hj)

end Runs

/-- Client 5 creates "b" and removes it; client 4 reads it. -/
def openRemoveRead : Fin 3 → Handler
  | 0 => ⟨.openFile (sapiMessageLen oCreate sapiOpenFile 1), 5, [98]⟩
  | 1 => ⟨.removeFile, 5, [98]⟩
  | 2 => ⟨.readFile, 4, [98]⟩

theorem three_begun {s : FileStorage} (hs : fuInitFileStorage 4 8 = some s) :
    HandlersRun Qsort.insertion openRemoveRead (·.st.WellFormed) []
      ⟨⟨s, ∅⟩, fun _ => .begun⟩ :=
  .init _ ⟨WellFormed.init (by decide) (by decide) hs, fun _ => rfl⟩

/-- The file is removed after the reader has locked it and given it back. -/
theorem pointers_stored_in_turn : ∃ past c,
    HandlersRun Qsort.insertion openRemoveRead (·.st.WellFormed) past c ∧
      c.stage 1 = .returned 0 ∧ c.shared.st.ptrs = [] ∧
      ∀ x ∈ visited past c, x.PointersStored := by
  have h₀ := three_begun rfl
  have h₁ := HandlersRun.section h₀ 0 .begun [] rfl (by simp) (by simp) rfl
  have h₂ := HandlersRun.section h₁ 0 (.looked none) [.write (.word sapiSuccess) true] rfl
    (by simp) (by simp) rfl
  have h₃ := HandlersRun.section h₂ 2 .begun [] rfl (by simp) (by simp) rfl
  have h₄ := HandlersRun.section h₃ 2 (.looked (some 0)) [.write (.word sapiLocked) true] rfl
    (by simp) (by simp) rfl
  have h₅ := HandlersRun.section h₄ 1 .begun [.unspec [98], .write (.word sapiSuccess) true] rfl
    (by simp) (by simp) rfl
  refine ⟨_, _, h₅, rfl, rfl, (pointers_stored_iff ?_ h₅ fun e he => ?_).mpr fun e he => ?_⟩
  · decide
  · simp only [List.nil_append, List.append_assoc, List.mem_append, List.mem_singleton] at he
    rcases he with rfl | rfl | rfl | rfl | rfl
    · exact fun hlooked => by cases hlooked
    · exact fun _ _ _ => rfl
    · exact fun hlooked => by cases hlooked
    · exact fun hlooked => by cases hlooked
    · exact fun hlooked => by cases hlooked
  · simp only [List.nil_append, List.append_assoc, List.mem_append, List.mem_singleton] at he
    rcases he with rfl | rfl | rfl | rfl | rfl
    · exact fun _ _ _ => List.not_mem_nil
    · exact fun _ _ _ => List.not_mem_nil
    · exact fun _ _ _ => List.not_mem_nil
    · exact fun _ _ _ => List.not_mem_nil
    · intro i a hi
      match i with
      | 0 => cases hi
      | 1 => cases hi
      | 2 => cases hi

/-- The file is removed between the reader's lookup and its next section, which
then reads the freed record. -/
theorem pointer_dangles : ∃ past c,
    HandlersRun Qsort.insertion openRemoveRead (·.st.WellFormed) past c ∧
      ¬ c.PointersStored ∧
      ∃ w', ((openRemoveRead 2).next Qsort.insertion (c.stage 2)).Runs c.shared [] .fault w' := by
  have h₀ := three_begun rfl
  have h₁ := HandlersRun.section h₀ 0 .begun [] rfl (by simp) (by simp) rfl
  have h₂ := HandlersRun.section h₁ 0 (.looked none) [.write (.word sapiSuccess) true] rfl
    (by simp) (by simp) rfl
  have h₃ := HandlersRun.section h₂ 2 .begun [] rfl (by simp) (by simp) rfl
  have h₄ := HandlersRun.section h₃ 1 .begun [.unspec [98], .write (.word sapiSuccess) true] rfl
    (by simp) (by simp) rfl
  refine ⟨_, _, h₄, fun hstored => ?_, _, rfl⟩
  exact absurd (hstored 2 0 rfl) (by decide)

end LsoStore
