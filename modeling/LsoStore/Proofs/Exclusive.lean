import LsoStore.Proofs.Replay
import LsoStore.Proofs.SectionInvariants

/-!
# A file that was granted

A writing handler that told its client to send goes on holding the mutex of its
file, and gets back to it when the data has come. Whatever the other handlers do
in between, nobody else is granted the file, its owner stays the client, and its
contents stay what they were when the handler looked at them: an append goes
behind what it was measured against. The one thing that can happen to the file
is that a removal frees it.

So the contents of a file are told by the sections that stored something, in the
order in which they ran, whatever the interleaving is.
-/

namespace LsoStore

open Proc FileStorage

/-! ## What a section leaves alone -/

/-- Since `s₀`, contents were changed as `edit` says, and the files in `A` are
still locked and have the owners they had. -/
structure Spares (edit : Nat → List UInt8 → List UInt8) (A : Nat → Prop) (s₀ : FileStorage)
    (w : World FileStorage Mutex) : Prop where
  edited : Edited edit s₀ w.st
  fresh : ∀ a, w.st.next ≤ a → w.st.heap a = none
  below : ∀ a, A a → a < s₀.next
  held : ∀ a, A a → Mutex.file a ∈ w.held
  owner : ∀ a f, A a → w.st.heap a = some f →
    ∃ f₀, s₀.heap a = some f₀ ∧ f.client = f₀.client

section Spares

variable {edit : Nat → List UInt8 → List UInt8} {A : Nat → Prop} {s₀ : FileStorage}
  {w : World FileStorage Mutex} {a : Nat}
  {client : Int} {message : SMessage} {path : List UInt8} {qsort : Qsort Nat}

theorem Spares.refl (hfresh : ∀ a, w.st.next ≤ a → w.st.heap a = none)
    (hbelow : ∀ a, A a → a < w.st.next) (hheld : ∀ a, A a → Mutex.file a ∈ w.held) :
    Spares (fun _ old => old) A w.st w :=
  ⟨.refl _, hfresh, hbelow, hheld, fun _ f _ hf => ⟨f, hf, rfl⟩⟩

/-- The storage loses records, or others than those in `A` change hands. -/
theorem Spares.shrink (h : Spares edit A s₀ w) {s : FileStorage} (hs : Shrinks w.st s)
    (howner : ∀ b f, A b → s.heap b = some f →
      ∃ f₀, w.st.heap b = some f₀ ∧ f.client = f₀.client) :
    Spares edit A s₀ { w with st := s } := by
  refine ⟨h.edited.shrinks hs, fun b hle => ?_, h.below, h.held, fun b f hb hf => ?_⟩
  · cases hb : s.heap b with
    | none => rfl
    | some f =>
        obtain ⟨f₀, hf₀, -⟩ := hs.data b f hb
        rw [h.fresh b (Nat.le_trans hs.next hle)] at hf₀
        cases hf₀
  obtain ⟨f₁, hf₁, hclient⟩ := howner b f hb hf
  obtain ⟨f₀, hf₀, hclient'⟩ := h.owner b f₁ hb hf₁
  exact ⟨f₀, hf₀, hclient.trans hclient'⟩

theorem Spares.modify (h : Spares edit A s₀ w) (ha : ¬ A a) {g : FileData → FileData}
    (hg : ∀ f, (g f).data = f.data) : Spares edit A s₀ { w with st := w.st.modifyFile a g } := by
  refine h.shrink (shrinks_modifyFile _ a hg) fun b f hb hf => ?_
  have hne : b ≠ a := fun heq => ha (heq ▸ hb)
  rw [modifyFile_heap_of_ne _ _ _ hne] at hf
  exact ⟨f, hf, rfl⟩

theorem Spares.count (h : Spares edit A s₀ w) (a : Nat) :
    Spares edit A s₀
      { w with st := w.st.modifyFile a fun f => { f with dataInfo := f.dataInfo + 1 } } := by
  refine h.shrink (shrinks_modifyFile _ a fun _ => rfl) fun b f _ hf => ?_
  rw [modifyFile_heap] at hf
  split at hf
  · obtain ⟨f₀, hf₀, rfl⟩ := Option.map_eq_some_iff.mp hf
    exact ⟨f₀, hf₀, rfl⟩
  · exact ⟨f, hf, rfl⟩

theorem Spares.getfile (h : Spares edit A s₀ w) (path : List UInt8) :
    Spares edit A s₀ { w with st := (w.st.fuGetfile path).2 } := by
  rw [fuGetfile_snd]
  cases w.st.table.huGet path with
  | none => exact h
  | some a => exact h.count a

theorem Spares.free (h : Spares edit A s₀ w) (a : Nat) :
    Spares edit A s₀ { w with st := w.st.fuFreeFileData a } := by
  refine h.shrink (shrinks_fuFreeFileData _ a) fun b f _ hf => ?_
  rw [fuFreeFileData] at hf
  dsimp only at hf
  split at hf
  · cases hf
  · exact ⟨f, hf, rfl⟩

/-- Records do not know which of them are in the table. -/
theorem Spares.of_heap (h : Spares edit A s₀ w) {s : FileStorage} (hheap : s.heap = w.st.heap)
    (hnext : s.next = w.st.next) : Spares edit A s₀ { w with st := s } := by
  refine h.shrink ⟨hnext.symm.le, fun b f hf => ⟨f, hheap ▸ hf, rfl⟩⟩ fun b f _ hf => ?_
  exact ⟨f, hheap ▸ hf, rfl⟩

theorem Spares.removefile (h : Spares edit A s₀ w) (path : List UInt8) :
    Spares edit A s₀ { w with st := (w.st.fuRemoveFile path).2 } := by
  rw [fuRemoveFile]
  split
  · exact h
  · dsimp only
    split
    · exact h.getfile path
    · next item table _ => exact ((h.getfile path).free item.2).of_heap rfl rfl

/-- A new record is nobody's yet. -/
theorem Spares.place (h : Spares edit A s₀ w) {f : FileData} (hd : f.data = []) :
    Spares edit A s₀ { w with st := (w.st.place f).2 } := by
  refine ⟨h.edited.place hd, fun b hle => ?_, h.below, h.held, fun b g hb hg => ?_⟩
  · have hlt : w.st.next < b := hle
    rw [FileStorage.place]
    dsimp only
    rw [if_neg (by omega), h.fresh b (by omega)]
  have hlt : b < w.st.next := Nat.lt_of_lt_of_le (h.below b hb) h.edited.next
  have hne : b ≠ w.st.next := by omega
  refine h.owner b g hb ?_
  rw [FileStorage.place] at hg
  dsimp only at hg
  rwa [if_neg hne] at hg

theorem Spares.addFile (h : Spares edit A s₀ w) (ha : ¬ A a) (path : List UInt8) :
    Spares edit A s₀ { w with st := (w.st.fuAddFile a path).2 } := by
  rw [fuAddFile]
  split
  · exact h.free a
  · split
    · exact h.free a
    · exact (h.modify ha (g := fun f => { f with path := path }) fun _ => rfl).of_heap rfl rfl

theorem Spares.unlocked (h : Spares edit A s₀ w) {m : Mutex} (hm : ∀ a, A a → m ≠ .file a) :
    Spares edit A s₀ { w with held := w.held.erase m } :=
  ⟨h.edited, h.fresh, h.below, fun a ha => Finset.mem_erase.mpr ⟨(hm a ha).symm, h.held a ha⟩,
    h.owner⟩

/-- The next record is none of them. -/
theorem Spares.next_not (h : Spares edit A s₀ w) : ¬ A w.st.next := by
  intro ha
  have hlt : w.st.next < w.st.next := Nat.lt_of_lt_of_le (h.below _ ha) h.edited.next
  omega

/-- Every section spares the files in `A`. -/
theorem spares_kept : KeptBySections (Spares edit A s₀) (¬ A ·) where
  own h hfree ha := hfree (h.held _ ha)
  lock m h := ⟨h.edited, h.fresh, h.below, fun a ha => Finset.mem_insert_of_mem (h.held a ha),
    h.owner⟩
  unlockStorage h := h.unlocked fun _ _ heq => by cases heq
  unlockFile h ha := h.unlocked fun _ hb heq => ha (Mutex.file.inj heq ▸ hb)
  count a h := h.count a
  touch h ha hg := h.modify ha fun f => (hg f).1
  remove path h := h.removefile path

theorem Spares.creation (h : Spares edit A s₀ w) (client : Int) (path : List UInt8) :
    KeptByCreation (Spares edit A s₀) w client path where
  create _ hd _ := (h.place hd).addFile h.next_not path
  discard _ hd _ := (h.place hd).free _

end Spares

/-! ## Being granted a file -/

section Grant

variable {w : World FileStorage Mutex} {client : Int} {path : List UInt8} {qsort : Qsort Nat}

/-- The file was free and the client's own, and has not been touched. -/
theorem writeSection_grants (hc : client ≠ 0)
    (hfresh : ∀ a, w.st.next ≤ a → w.st.heap a = none) :
    (writeSection qsort client path).Ensures w fun _ o w' => ∀ a n, o = .ret (.granted a n) →
      .file a ∉ w.held ∧ (∃ f, w.st.heap a = some f ∧ f.client = client) ∧
        Spares (fun _ old => old) (· = a) w.st w' := by
  rw [writeSection]
  refine ensures_lock.mpr ⟨fun _ a n ho => (by cases ho), fun _ => ?_⟩
  rw [ensures_getfile]
  dsimp only
  cases hget : w.st.table.huGet path with
  | none =>
      dsimp only
      rw [ensures_unlock]
      exact returning_ungranted.mono fun _ _ _ hne b m ho => absurd ho (hne b m)
  | some file =>
      dsimp only
      refine Ensures.lockFile (fun _ a n ho => (by cases ho)) (fun _ a n ho => (by cases ho))
        fun hfree f hf => ?_
      dsimp only at hf ⊢
      split
      · rw [ensures_unlock]
        exact returning_ungranted.mono fun _ _ _ hne b m ho => absurd ho (hne b m)
      next howner =>
      obtain ⟨f₀, hf₀, -, hclient, -⟩ := fuGetfile_heap _ hf
      have hclient : f₀.client = client := hclient.symm.trans (not_not.mp howner)
      have hlocked : Spares (fun _ old => old) (· = file) w.st
          ⟨(w.st.fuGetfile path).2, insert (.file file) (insert .storage w.held)⟩ := by
        have hlooked := (Spares.refl (A := fun _ => False) hfresh (fun _ h => h.elim)
          fun _ h => h.elim).getfile path
        refine ⟨hlooked.edited, hlooked.fresh, ?_, ?_, ?_⟩
        · rintro a rfl
          by_contra hle
          rw [hfresh a (Nat.not_lt.mp hle)] at hf₀
          cases hf₀
        · rintro a rfl
          exact Finset.mem_insert_self _ _
        · rintro a g rfl hg
          obtain ⟨g₀, hg₀, -, hgclient, -⟩ := fuGetfile_heap _ hg
          exact ⟨g₀, hg₀, hgclient⟩
      have hgrants : ∀ m, (grantRoom qsort client file m).Ensures
          ⟨(w.st.fuGetfile path).2, insert (.file file) (insert .storage w.held)⟩
          fun _ o w' => ∀ a n, o = .ret (.granted a n) →
            .file a ∉ w.held ∧ (∃ f, w.st.heap a = some f ∧ f.client = client) ∧
              Spares (fun _ old => old) (· = a) w.st w' := by
        intro m
        refine (spares_kept.grants hc hlocked m).mono fun _ o w' hgrant a n ho => ?_
        obtain ⟨rfl, hspares⟩ := hgrant a n ho
        exact ⟨fun hmem => hfree (Finset.mem_insert_of_mem hmem), ⟨f₀, hf₀, hclient⟩, hspares⟩
      rw [ensures_readLength hc]
      exact ⟨fun _ => hgrants _, fun _ _ =>
        ⟨fun _ _ a n ho => (by cases ho), fun _ => hgrants _⟩⟩

end Grant

/-! ## Using it -/

/-- What a write makes of some contents. -/
def Handler.puts (h : Handler) (old d : List UInt8) : List UInt8 :=
  match h.kind with
  | .appendToFile => old ++ d
  | _ => d

/-- What becomes of the contents of the file at `a` when a handler at stage `t`
runs its section: it puts there what it took in, once that has been granted. -/
def Handler.edit (h : Handler) (t : Stage) (tr : List (Event Mutex)) (a : Nat)
    (old : List UInt8) : List UInt8 :=
  if t.file = some a then
    match taken (.write (.word sapiSuccess) true :: tr) with
    | none => old
    | some d => h.puts old d
  else old

theorem Handler.edit_of_ne (h : Handler) {t : Stage} (tr : List (Event Mutex)) {a : Nat}
    (ha : t.file ≠ some a) (old : List UInt8) : h.edit t tr a old = old := if_neg ha

theorem Handler.edit_of_none (h : Handler) {t : Stage} (tr : List (Event Mutex))
    (ht : t.file = none) : h.edit t tr = fun _ old => old := by
  funext a old
  exact h.edit_of_ne tr (by simp [ht]) old

theorem Handler.edit_of_refused (h : Handler) (t : Stage) {tr : List (Event Mutex)}
    (htaken : taken (.write (.word sapiSuccess) true :: tr) = none) (a : Nat) (old : List UInt8) :
    h.edit t tr a old = old := by
  rw [Handler.edit, htaken]
  split
  · rfl
  · rfl

theorem Handler.edit_of_taken (h : Handler) (a n : Nat) {tr : List (Event Mutex)} {d : List UInt8}
    (htaken : taken (.write (.word sapiSuccess) true :: tr) = some d) :
    h.edit (.granted a n) tr = fun b old => if b = a then h.puts old d else old := by
  funext b old
  by_cases hb : b = a
  · have hfile : (Stage.granted a n).file = some b := congrArg some hb.symm
    rw [Handler.edit, if_pos hfile, htaken, if_pos hb]
  · rw [if_neg hb]
    refine h.edit_of_ne tr (fun heq => hb ?_) old
    injection heq with heq
    exact heq.symm

/-- A call of `fu_writefile` makes and frees no records, and leaves the others alone. -/
theorem fuWritefile_heap {s s' : FileStorage} {a i : Nat} {data : Option (List UInt8)} {r : Int}
    (h : s.fuWritefile a i data = some (r, s')) :
    s'.next = s.next ∧ (∀ b, s.heap b = none → s'.heap b = none) ∧
      ∀ b, b ≠ a → s'.heap b = s.heap b := by
  have hmodify : ∀ (s : FileStorage) (g : FileData → FileData) (b : Nat), s.heap b = none →
      (s.modifyFile a g).heap b = none := by
    intro s g b hb
    rw [modifyFile_heap]
    split
    · rw [hb, Option.map_none]
    · exact hb
  cases data with
  | none =>
      cases h
      exact ⟨rfl, fun _ hb => hb, fun _ _ => rfl⟩
  | some d =>
      simp only [fuWritefile] at h
      split at h
      · cases h
        exact ⟨rfl, fun _ hb => hb, fun _ _ => rfl⟩
      split at h
      · cases h
        exact ⟨rfl, fun _ hb => hb, fun _ _ => rfl⟩
      split at h
      · cases h
        exact ⟨rfl, hmodify s _, fun b hb => modifyFile_heap_of_ne _ _ _ hb⟩
      split at h
      · cases h
      · cases h
        refine ⟨rfl, fun b hb => hmodify _ _ b (hmodify s _ b hb), fun b hb => ?_⟩
        dsimp only
        rw [modifyFile_heap_of_ne _ _ _ hb, modifyFile_heap_of_ne _ _ _ hb]

section Use

variable {qsort : Qsort Nat} {h : Handler} {tr : List (Event Mutex)} {t t' : Stage}
  {w w' : World FileStorage Mutex} {A : Nat → Prop}

/-- A write goes behind the part of the contents that is in front of its offset. -/
theorem Handler.puts_eq (h : Handler) (old d : List UInt8) :
    h.puts old d = old.take (h.offset ⟨old, 0, 0, []⟩) ++ d := by
  obtain ⟨kind, client, path⟩ := h
  cases kind with
  | appendToFile => exact congrArg (· ++ d) (List.take_length).symm
  | openFile message => rfl
  | closeFile => rfl
  | readFile => rfl
  | writeFile => rfl
  | removeFile => rfl

/-- No section does anything to files that are held, but for the one that the
handler was granted itself. -/
theorem Handler.Acts.spares (ha : h.Acts qsort tr w t w' t') (hc : h.client ≠ 0)
    (hfresh : ∀ a, w.st.next ≤ a → w.st.heap a = none) (hbelow : ∀ a, A a → a < w.st.next)
    (hheld : ∀ a, A a → .file a ∈ w.held) (hown : ∀ a, t.file = some a → ¬ A a) :
    Spares (h.edit t tr) A w.st w' := by
  have hother (ht : t.file = none) : Spares (h.edit t tr) A w.st w' := by
    rw [h.edit_of_none tr ht]
    have hself := Spares.refl hfresh hbelow hheld
    exact spares_kept.acts hc ha ht (fun _ _ => hself.creation _ _) hself
  have hruns := ha.runs
  cases t with
  | begun => exact hother rfl
  | looked file => exact hother rfl
  | returned r => exact hother rfl
  | granted a n =>
      obtain ⟨r, -, hrun⟩ := runs_of_returning hruns
      have hreceive : (receiveData h.client a n h.offset).Ensures w
          (Stores (fun old => h.offset ⟨old, 0, 0, []⟩) a w.st [.write (.word sapiSuccess) true]) :=
        receiveData_stores _ hc (fun f => h.offset_congr rfl) n ⟨[], rfl⟩ (.refl w.st)
      have hstores := hreceive tr _ w' hrun r rfl
      have hreceived := receiveData_received hc a n h.offset tr _ w' hrun r rfl
      have hother : w'.st.next = w.st.next ∧ (∀ b, w.st.heap b = none → w'.st.heap b = none) ∧
          ∀ b, b ≠ a → w'.st.heap b = w.st.heap b := by
        cases hbody : bodyRead tr with
        | false =>
            rw [hreceived.unwritten hbody]
            exact ⟨rfl, fun _ hb => hb, fun _ _ => rfl⟩
        | true =>
            obtain ⟨f, d, err, -, -, -, -, hw⟩ := hreceived.written hbody
            exact fuWritefile_heap hw
      obtain ⟨hnext, hnone, hsame⟩ := hother
      have hne : ∀ b, A b → b ≠ a := fun b hb heq => hown a rfl (heq ▸ hb)
      refine ⟨?_, fun b hle => hnone b (hfresh b (hnext ▸ hle)), hbelow, fun b hb => ?_,
        fun b f hb hf => ⟨f, hsame b (hne b hb) ▸ hf, rfl⟩⟩
      · rcases hstores with ⟨htaken, hshrinks⟩ | ⟨d, htaken, hedited⟩
        · exact .of_shrinks hshrinks (h.edit_of_refused _ htaken)
        · have hedit : h.edit (.granted a n) tr = _ := h.edit_of_taken a n htaken
          rw [hedit]
          simpa only [h.puts_eq] using hedited
      · rw [hreceived.held]
        exact Finset.mem_erase.mpr ⟨fun heq => hne b hb (Mutex.file.inj heq), hheld b hb⟩

/-- A grant ends the first section of a handler. -/
theorem Handler.Acts.grants {a n : Nat} (ha : h.Acts qsort tr w t w' (.granted a n))
    (hc : h.client ≠ 0) (hfresh : ∀ a, w.st.next ≤ a → w.st.heap a = none) :
    t = .begun ∧ .file a ∉ w.held ∧ (∃ f, w.st.heap a = some f ∧ f.client = h.client) ∧
      Spares (fun _ old => old) (· = a) w.st w' := by
  have hruns := ha.runs
  cases t with
  | begun =>
      rcases ha.begun_cases with ⟨-, -, -, ht'⟩ | ⟨-, hwrite⟩ | ⟨-, r, ht', -⟩
      · cases ht'
      · exact ⟨rfl, writeSection_grants hc hfresh tr _ w' hwrite a n rfl⟩
      · cases ht'
  | looked file => exact absurd rfl (returning_ungranted tr _ w' hruns a n)
  | granted b m => exact absurd rfl (returning_ungranted tr _ w' hruns a n)
  | returned r => exact absurd rfl (ha.active r)

end Use

/-! ## All interleavings -/

/-- Every file that was granted is locked, for one handler, whose client owns it. -/
structure Granted {ι : Type} (handlers : ι → Handler) (c : Handlers ι) : Prop where
  fresh : ∀ a, c.shared.st.next ≤ a → c.shared.st.heap a = none
  below : ∀ i a, (c.stage i).file = some a → a < c.shared.st.next
  held : ∀ i a, (c.stage i).file = some a → .file a ∈ c.shared.held
  distinct : ∀ i j a, (c.stage i).file = some a → (c.stage j).file = some a → i = j
  owner : ∀ i a f, (c.stage i).file = some a → c.shared.st.heap a = some f →
    f.client = (handlers i).client

theorem Stage.eq_granted {t : Stage} {a : Nat} (h : t.file = some a) : ∃ n, t = .granted a n := by
  cases t with
  | granted b n =>
      injection h with h
      exact ⟨n, h ▸ rfl⟩
  | begun => cases h
  | looked file => cases h
  | returned r => cases h

section Interleaving

variable {ι : Type} [DecidableEq ι] {handlers : ι → Handler} {qsort : Qsort Nat} {i : ι}
  {tr : List (Event Mutex)} {c c' : Handlers ι}
  {past : List ((ι × List (Event Mutex)) × Handlers ι)}

/-- The files granted to others. -/
def grantedToOthers (c : Handlers ι) (i : ι) (a : Nat) : Prop :=
  ∃ j, j ≠ i ∧ (c.stage j).file = some a

theorem Granted.spares (h : Granted handlers c) (hclients : ∀ i, (handlers i).client ≠ 0)
    (hs : Handlers.Step qsort handlers c (i, tr) c') :
    Spares ((handlers i).edit (c.stage i) tr) (grantedToOthers c i) c.shared.st c'.shared := by
  cases hs with
  | act _ _ w' t' ha =>
      refine ha.spares (hclients i) h.fresh ?_ ?_ ?_
      · rintro a ⟨j, -, hj⟩
        exact h.below j a hj
      · rintro a ⟨j, -, hj⟩
        exact h.held j a hj
      · rintro a hi ⟨j, hne, hj⟩
        exact hne (h.distinct j i a hj hi)

theorem Granted.step (h : Granted handlers c) (hclients : ∀ i, (handlers i).client ≠ 0)
    (hs : Handlers.Step qsort handlers c (i, tr) c') : Granted handlers c' := by
  have hspares := h.spares hclients hs
  cases hs with
  | act _ _ w' t' ha =>
      have hcases : ∀ j a, (Function.update c.stage i t' j).file = some a →
          (j = i ∧ .file a ∉ c.shared.held ∧ (∃ f, c.shared.st.heap a = some f ∧
            f.client = (handlers i).client) ∧ Spares (fun _ old => old) (· = a) c.shared.st w') ∨
          (j ≠ i ∧ (c.stage j).file = some a) := by
        intro j a hj
        by_cases hji : j = i
        · subst hji
          rw [Function.update_self] at hj
          obtain ⟨n, rfl⟩ := Stage.eq_granted hj
          exact .inl ⟨rfl, (ha.grants (hclients j) h.fresh).2⟩
        · exact .inr ⟨hji, by rwa [Function.update_of_ne hji] at hj⟩
      have hnext := hspares.edited.next
      refine ⟨hspares.fresh, fun j a hj => ?_, fun j a hj => ?_, fun j k a hj hk => ?_,
        fun j a f hj hf => ?_⟩
      · rcases hcases j a hj with ⟨-, -, -, hown⟩ | ⟨-, hj⟩
        · exact Nat.lt_of_lt_of_le (hown.below a rfl) hnext
        · exact Nat.lt_of_lt_of_le (h.below j a hj) hnext
      · rcases hcases j a hj with ⟨-, -, -, hown⟩ | ⟨hji, hj⟩
        · exact hown.held a rfl
        · exact hspares.held a ⟨j, hji, hj⟩
      · rcases hcases j a hj with ⟨rfl, hfree, -⟩ | ⟨-, hold⟩
        · rcases hcases k a hk with ⟨rfl, -⟩ | ⟨-, hold⟩
          · rfl
          · exact absurd (h.held k a hold) hfree
        · rcases hcases k a hk with ⟨rfl, hfree, -⟩ | ⟨-, hold'⟩
          · exact absurd (h.held j a hold) hfree
          · exact h.distinct j k a hold hold'
      · rcases hcases j a hj with ⟨rfl, -, ⟨f₀, hf₀, hclient⟩, hown⟩ | ⟨hji, hj⟩
        · obtain ⟨f₁, hf₁, heq⟩ := hown.owner a f rfl hf
          rw [hf₀] at hf₁
          injection hf₁ with hf₁
          exact heq.trans (hf₁ ▸ hclient)
        · obtain ⟨f₁, hf₁, heq⟩ := hspares.owner a f ⟨j, hji, hj⟩ hf
          exact heq.trans (h.owner j a f₁ hj hf₁)

theorem Handlers.Step.stage_of_ne (hs : Handlers.Step qsort handlers c (i, tr) c') {j : ι}
    (hj : j ≠ i) : c'.stage j = c.stage j := by
  cases hs with
  | act _ _ w' t' ha => exact Function.update_of_ne hj _ _

/-- Once granted, a handler has one more section. -/
theorem Handlers.Step.granted_returns (hs : Handlers.Step qsort handlers c (i, tr) c') :
    (∀ r, c.stage i ≠ .returned r) ∧
      ∀ a n, c.stage i = .granted a n → ∃ r, c'.stage i = .returned r := by
  cases hs with
  | act _ _ w' t' ha =>
      refine ⟨ha.active, fun a n hi => ?_⟩
      have hruns := ha.runs
      rw [hi] at hruns
      obtain ⟨r, rfl, -⟩ := runs_of_returning hruns
      exact ⟨r, Function.update_self _ _ _⟩

/-- What is known of a run: the files it was about were there, nobody is granted a
second file, and files have kept their contents since they were granted. -/
structure Kept (handlers : ι → Handler) (past : List ((ι × List (Event Mutex)) × Handlers ι))
    (c : Handlers ι) : Prop where
  granted : Granted handlers c
  below : ∀ e ∈ past, ∀ i a, (e.2.stage i).file = some a → a < c.shared.st.next
  once : ∀ e ∈ past, ∀ i a n, e.2.stage i = .granted a n →
    c.stage i = .granted a n ∨ ∃ r, c.stage i = .returned r
  contents : ∀ e ∈ past, ∀ i a n f, e.2.stage i = .granted a n → c.stage i = .granted a n →
    c.shared.st.heap a = some f → ∃ f₀, e.2.shared.st.heap a = some f₀ ∧ f₀.data = f.data

theorem Kept.step (h : Kept handlers past c) (hclients : ∀ i, (handlers i).client ≠ 0)
    (hs : Handlers.Step qsort handlers c (i, tr) c') :
    Kept handlers (past ++ [((i, tr), c)]) c' := by
  have hspares := h.granted.spares hclients hs
  obtain ⟨hactive, hreturns⟩ := hs.granted_returns
  have honce : ∀ j a n, c.stage j = .granted a n →
      c'.stage j = .granted a n ∨ ∃ r, c'.stage j = .returned r := by
    intro j a n hj
    by_cases hji : j = i
    · subst hji
      exact .inr (hreturns a n hj)
    · exact .inl ((hs.stage_of_ne hji).trans hj)
  -- a handler that is granted a file now or later has not moved
  have hcontents : ∀ j a n f, c.stage j = .granted a n → c'.stage j = .granted a n →
      c'.shared.st.heap a = some f →
      ∃ f₀, c.shared.st.heap a = some f₀ ∧ f₀.data = f.data := by
    intro j a n f hj hj' hf
    have hji : j ≠ i := by
      rintro rfl
      obtain ⟨r, hr⟩ := hreturns a n hj
      rw [hr] at hj'
      cases hj'
    have hfile : (c.stage j).file = some a := by rw [hj]; rfl
    rcases hspares.edited.data a f hf with ⟨f₀, hf₀, hd⟩ | ⟨hnew, -⟩
    · refine ⟨f₀, hf₀, ?_⟩
      rw [hd, (handlers i).edit_of_ne tr fun hi => hji (h.granted.distinct j i a hfile hi)]
    · have hlt : a < c.shared.st.next := h.granted.below j a hfile
      omega
  refine ⟨h.granted.step hclients hs, ?_, ?_, ?_⟩
  · refine List.forall_mem_append.mpr ⟨fun e he j a hj => ?_, List.forall_mem_singleton.mpr
      fun j a hj => ?_⟩
    · exact Nat.lt_of_lt_of_le (h.below e he j a hj) hspares.edited.next
    · exact Nat.lt_of_lt_of_le (h.granted.below j a hj) hspares.edited.next
  · refine List.forall_mem_append.mpr ⟨fun e he j a n hj => ?_, List.forall_mem_singleton.mpr
      honce⟩
    rcases h.once e he j a n hj with hj | ⟨r, hr⟩
    · exact honce j a n hj
    · refine .inr ⟨r, ?_⟩
      rw [hs.stage_of_ne fun hji => hactive r (hji ▸ hr), hr]
  · refine List.forall_mem_append.mpr ⟨fun e he j a n f hj hj' hf => ?_,
      List.forall_mem_singleton.mpr hcontents⟩
    have hcur : c.stage j = .granted a n := by
      rcases h.once e he j a n hj with hcur | ⟨r, hr⟩
      · exact hcur
      · rw [hs.stage_of_ne fun hji => hactive r (hji ▸ hr), hr] at hj'
        cases hj'
    obtain ⟨f₁, hf₁, hd₁⟩ := hcontents j a n f hcur hj' hf
    obtain ⟨f₀, hf₀, hd₀⟩ := h.contents e he j a n f₁ hj hcur hf₁
    exact ⟨f₀, hf₀, hd₀.trans hd₁⟩

theorem HandlersRun.kept {start : World FileStorage Mutex → Prop}
    (h : HandlersRun qsort handlers start past c) (hclients : ∀ i, (handlers i).client ≠ 0)
    (hstart : ∀ w, start w → ∀ a, w.st.next ≤ a → w.st.heap a = none) :
    Kept handlers past c := by
  induction h with
  | init c hc =>
      have hnone : ∀ i a, (c.stage i).file ≠ some a := fun i a hi => by
        rw [hc.2 i] at hi
        cases hi
      have hnil : ∀ e : (ι × List (Event Mutex)) × Handlers ι, e ∉ [] := fun _ =>
        List.not_mem_nil
      exact ⟨⟨hstart _ hc.1, fun i a hi => absurd hi (hnone i a),
        fun i a hi => absurd hi (hnone i a), fun i j a hi => absurd hi (hnone i a),
        fun i a f hi => absurd hi (hnone i a)⟩, fun e he => absurd he (hnil e),
        fun e he => absurd he (hnil e), fun e he => absurd he (hnil e)⟩
  | step past c c' l hrun hs ih => exact ih.step hclients hs

/-- A file that a handler was granted is locked, no other handler was granted it, and
as long as it is not freed, the handler's client owns it and it has the contents it
had at every moment since. -/
theorem granted_exclusive {w₀ : World FileStorage Mutex}
    (hclients : ∀ i, (handlers i).client ≠ 0)
    (hfresh : ∀ a, w₀.st.next ≤ a → w₀.st.heap a = none)
    (h : HandlersRun qsort handlers (· = w₀) past c) {a n : Nat}
    (hi : c.stage i = .granted a n) :
    .file a ∈ c.shared.held ∧ (∀ j m, c.stage j = .granted a m → j = i) ∧
      ∀ f, c.shared.st.heap a = some f → f.client = (handlers i).client ∧
        ∀ e ∈ past, e.2.stage i = .granted a n →
          ∃ f₀, e.2.shared.st.heap a = some f₀ ∧ f₀.data = f.data := by
  have hkept := h.kept hclients fun w hw => by rwa [hw]
  have hfile : (c.stage i).file = some a := by rw [hi]; rfl
  refine ⟨hkept.granted.held i a hfile, fun j m hj => ?_, fun f hf =>
    ⟨hkept.granted.owner i a f hfile hf, fun e he hthen =>
      hkept.contents e he i a n f hthen hi hf⟩⟩
  have hfile' : (c.stage j).file = some a := by rw [hj]; rfl
  exact hkept.granted.distinct j i a hfile' hfile

/-- What the sections make of the contents of the file at `a`. -/
def sectionsReplayed (handlers : ι → Handler)
    (past : List ((ι × List (Event Mutex)) × Handlers ι)) (a : Nat) (old : List UInt8) :
    List UInt8 :=
  past.foldl (fun old e => (handlers e.1.1).edit (e.2.stage e.1.1) e.1.2 a old) old

omit [DecidableEq ι] in
theorem sectionsReplayed_of_ne {a : Nat}
    (h : ∀ e ∈ past, (e.2.stage e.1.1).file ≠ some a) (old : List UInt8) :
    sectionsReplayed handlers past a old = old := by
  induction past generalizing old with
  | nil => rfl
  | cons e past ih =>
      obtain ⟨he, hpast⟩ := List.forall_mem_cons.mp h
      rw [sectionsReplayed, List.foldl_cons, (handlers e.1.1).edit_of_ne e.1.2 he,
        ← sectionsReplayed]
      exact ih hpast old

/-- In whatever order the sections run, the contents of a file are those it started
with, changed by every section that stored something in it, in that order. -/
theorem contents_interleaved {w₀ : World FileStorage Mutex}
    (hclients : ∀ i, (handlers i).client ≠ 0)
    (hfresh : ∀ a, w₀.st.next ≤ a → w₀.st.heap a = none)
    (h : HandlersRun qsort handlers (· = w₀) past c) {a : Nat} {f : FileData}
    (hf : c.shared.st.heap a = some f) :
    f.data = sectionsReplayed handlers past a (w₀.st.file a).data := by
  suffices hboth : w₀.st.next ≤ c.shared.st.next ∧ ∀ f, c.shared.st.heap a = some f →
      f.data = sectionsReplayed handlers past a (w₀.st.file a).data from hboth.2 f hf
  clear hf
  induction h with
  | init c hc =>
      rw [hc.1]
      exact ⟨Nat.le_refl _, fun f hf => by rw [file_eq _ hf]; rfl⟩
  | step past c c' l hrun hs ih =>
      obtain ⟨hle, hpast⟩ := ih
      obtain ⟨i, tr⟩ := l
      have hrun : HandlersRun qsort handlers (· = w₀) past c := hrun
      have hkept := hrun.kept hclients fun w hw => by rwa [hw]
      have hedited := (hkept.granted.spares hclients hs).edited
      refine ⟨Nat.le_trans hle hedited.next, fun f hf => ?_⟩
      rcases hedited.data a f hf with ⟨f₀, hf₀, hd⟩ | ⟨hnew, hd⟩
      · rw [sectionsReplayed, List.foldl_append, List.foldl_cons, List.foldl_nil,
          ← sectionsReplayed, ← hpast f₀ hf₀]
        exact hd
      · -- a new file, which no section was about yet
        have hempty : (w₀.st.file a).data = [] := by
          rw [file, hfresh a (Nat.le_trans hle hnew)]
          rfl
        rw [hd, hempty, sectionsReplayed_of_ne]
        refine List.forall_mem_append.mpr ⟨fun e he ha => ?_,
          List.forall_mem_singleton.mpr fun ha => ?_⟩
        · have hlt : a < c.shared.st.next := hkept.below e he _ a ha
          omega
        · have hlt : a < c.shared.st.next := hkept.granted.below i a ha
          omega

end Interleaving

/-- Client 4 has written its file, client 5 has been granted room for two bytes. -/
theorem twoWriters_between : ∃ w₀ past c, (∀ a, w₀.st.next ≤ a → w₀.st.heap a = none) ∧
    HandlersRun Qsort.insertion twoWriters (· = w₀) past c ∧ past.length = 3 ∧
    c.stage true = .granted 1 2 ∧ (∃ f, c.shared.st.heap 1 = some f) ∧
    (w₀.st.file 0).data = [] ∧ ∃ f, c.shared.st.heap 0 = some f ∧ f.data = [1, 2] := by
  have hwf := twoFiles_wellFormed (s := (fuInitFileStorage 4 5).get rfl) rfl
  have h₀ : HandlersRun Qsort.insertion twoWriters
      (· = ⟨(((fuInitFileStorage 4 5).get rfl).withFile 4 [97]).withFile 5 [98], ∅⟩) []
      ⟨⟨_, ∅⟩, fun _ => .begun⟩ := .init _ ⟨rfl, fun _ => rfl⟩
  have h₁ := HandlersRun.section h₀ false .begun
    [.read 8 (some [2, 0, 0, 0, 0, 0, 0, 0]), .write (.word sapiSuccess) true] rfl (by simp)
    (by simp) rfl
  have h₂ := HandlersRun.section h₁ true .begun
    [.read 8 (some [2, 0, 0, 0, 0, 0, 0, 0]), .write (.word sapiSuccess) true] rfl (by simp)
    (by simp) rfl
  have h₃ := HandlersRun.section h₂ false (.granted 0 2)
    [.read 2 (some [1, 2]), .write (.word sapiSuccess) true] rfl (by simp) (by simp) rfl
  exact ⟨_, _, _, hwf.accounted.fresh, h₃, rfl, rfl, ⟨_, rfl⟩, rfl, ⟨_, rfl, rfl⟩⟩

theorem granted_exclusive_two : ∃ c : Handlers Bool,
    .file 1 ∈ c.shared.held ∧ c.stage true = .granted 1 2 ∧ c.stage false ≠ .granted 1 2 ∧
      ∃ f, c.shared.st.heap 1 = some f ∧ f.client = 5 := by
  obtain ⟨w₀, past, c, hfresh, h, -, hstage, ⟨f, hf⟩, -⟩ := twoWriters_between
  have hclients : ∀ i, (twoWriters i).client ≠ 0 := fun i => (twoWriters_writes i).client
  obtain ⟨hheld, hothers, hfile⟩ := granted_exclusive hclients hfresh h hstage
  exact ⟨c, hheld, hstage, fun hfalse => (by cases hothers false 2 hfalse), f, hf, (hfile f hf).1⟩

theorem contents_interleaved_two : ∃ past : List ((Bool × List (Event Mutex)) × Handlers Bool),
    past.length = 3 ∧ [1, 2] = sectionsReplayed twoWriters past 0 [] := by
  obtain ⟨w₀, past, c, hfresh, h, hlen, -, -, hempty, f, hf, hd⟩ := twoWriters_between
  have hclients : ∀ i, (twoWriters i).client ≠ 0 := fun i => (twoWriters_writes i).client
  have hcontents := contents_interleaved hclients hfresh h hf
  rw [hd, hempty] at hcontents
  exact ⟨past, hlen, hcontents⟩

end LsoStore
