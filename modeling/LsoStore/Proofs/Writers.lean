import Mathlib.Data.Int.ConditionallyCompleteOrder
import LsoStore.Lib.Budget
import LsoStore.Proofs.Sections

/-!
# Writers at work on files of their own

A handler that has been told to receive data holds its file's mutex until it is
done, so no two of them have the same file and no eviction takes such a file
away. What one of them does changes nothing of another's file; all they share
is the count of the bytes, on which each counts for the growth of its own file.
-/

namespace LsoStore

open Proc FileStorage

/-- The file whose mutex a handler holds at a stage. -/
def Stage.file : Stage → Option Nat
  | .granted file _ => some file
  | _ => none

def WriteStage.file : WriteStage → Option Nat
  | .outside t => t.file
  | .tested file _ _ => some file

/-- How much longer `n` bytes at `i` make the file. -/
def FileStorage.growth (s : FileStorage) (a i n : Nat) : Int :=
  ((i + n : Nat) : Int) - (s.file a).dataLen

structure Handler.Writes (h : Handler) : Prop where
  client : h.client ≠ 0
  kind : h.kind = .writeFile ∨ h.kind = .appendToFile

theorem Handler.offset_le (h : Handler) (f : FileData) : h.offset f ≤ f.dataLen := by
  unfold Handler.offset
  split
  · exact Nat.le_refl _
  · exact Nat.zero_le _

/-- Of the file, only its length matters. -/
theorem Handler.offset_congr (h : Handler) {f f' : FileData} (hlen : f'.dataLen = f.dataLen) :
    h.offset f' = h.offset f := by
  unfold Handler.offset
  split
  · exact hlen
  · rfl

namespace FileStorage

variable {s : FileStorage} {a i n : Nat} {d : List UInt8}

/-! ## The two steps of `fu_writefile` -/

theorem Accounted.room_iff (h : s.Accounted) (ha : a ∈ s.ptrs) :
    s.currBytes - (s.file a).dataLen + (i + n) ≤ s.maxBytes ↔
      s.currBytes + s.growth a i n ≤ (s.maxBytes : Int) := by
  have hle := h.dataLen_le ha
  rw [growth]
  omega

/-- The test is exact. -/
theorem Accounted.fuWritefileTest_eq (h : s.Accounted) (ha : a ∈ s.ptrs) (hd : 0 < d.length)
    (hlen : d.length < 2 ^ 32) (hi : i ≤ (s.file a).dataLen) :
    s.fuWritefileTest a i (some d) =
      (decide (s.currBytes + s.growth a i d.length ≤ (s.maxBytes : Int)),
        s.modifyFile a fun f => { f with dataInfo := f.dataInfo + 1 }) := by
  obtain ⟨hnew, htot⟩ := h.newBytes_eq ha hlen hi
  have hdl : ((s.modifyFile a fun f => { f with dataInfo := f.dataInfo + 1 }).file
      a).dataLen = (s.file a).dataLen :=
    s.modifyFile_dataLen a (fun f => { f with dataInfo := f.dataInfo + 1 }) (fun _ => rfl) a
  unfold fuWritefileTest
  dsimp only
  rw [if_neg (Nat.ne_of_gt hd), if_neg (Nat.not_lt.mpr hi), hdl, hnew, modifyFile_currBytes,
    htot, modifyFile_maxBytes, decide_eq_decide.mpr (h.room_iff ha)]

theorem Accounted.fuWritefileUpdate_eq (h : s.Accounted) (ha : a ∈ s.ptrs)
    (hlen : d.length < 2 ^ 32) (hi : i ≤ (s.file a).dataLen) :
    s.fuWritefileUpdate a i d =
      if i + d.length > muLimit then none
      else some { s.modifyFile a (fun f => { f with data := f.data.take i ++ d }) with
        currBytes := s.currBytes - (s.file a).dataLen + (i + d.length) } := by
  obtain ⟨hnew, htot⟩ := h.newBytes_eq ha hlen hi
  rw [fuWritefileUpdate]
  simp only [hnew, htot]

/-- Of some data, `fu_writefile` refuses what there is no room for. -/
theorem Accounted.fuWritefile_refuses_iff (h : s.Accounted) (ha : a ∈ s.ptrs)
    (hd : 0 < d.length) (hlen : d.length < 2 ^ 32) (hi : i ≤ (s.file a).dataLen) :
    (∃ s', s.fuWritefile a i (some d) = some (-1, s')) ↔
      ¬ s.currBytes + s.growth a i d.length ≤ (s.maxBytes : Int) := by
  rw [fuWritefile_eq, h.fuWritefileTest_eq ha hd hlen hi]
  simp only [decide_eq_true_eq]
  split
  · next hroom => simp [hroom]
  · next hroom => simp [hroom]

end FileStorage

/-! ## Holding files -/

/-- Each of some parties holds the mutex of a stored file of its own, if of any. -/
structure HoldFiles {ι : Type} (w : World FileStorage Mutex) (files : ι → Option Nat) :
    Prop where
  wellFormed : w.st.WellFormed
  held : ∀ i a, files i = some a → .file a ∈ w.held
  stored : ∀ i a, files i = some a → a ∈ w.st.ptrs
  distinct : ∀ i j a, files i = some a → files j = some a → i = j

/-- The files that are held are as long as they were. -/
def SameLengths {ι : Type} (files : ι → Option Nat) (s s' : FileStorage) : Prop :=
  ∀ i a, files i = some a → (s'.file a).dataLen = (s.file a).dataLen

theorem Handler.held_subset_holding (h : Handler) (w : World FileStorage Mutex) :
    w.held ⊆ h.holding w := by
  rw [Handler.holding]
  split
  · exact Finset.subset_insert _ _
  · exact (Finset.subset_insert _ _).trans (Finset.subset_insert _ _)

/-- No file is given up whose mutex is held. -/
theorem Handler.free_of_mem_writeGone (h : Handler) {qsort : Qsort Nat}
    {w : World FileStorage Mutex} {tr : List (Event Mutex)} {a : Nat}
    (ha : a ∈ h.writeGone qsort w tr) : .file a ∉ h.holding w := by
  unfold Handler.writeGone at ha
  split at ha
  · cases ha
  · unfold roomGone at ha
    split at ha
    · exact (evictable_of_mem_givenUp ((evictGone_isPrefix ..).subset ha)).1
    · cases ha

section Holding

variable {ι : Type} [DecidableEq ι] {files : ι → Option Nat} {i : ι} {a : Nat}
  {w w' : World FileStorage Mutex}

/-- A party gives its file's mutex back, with the table as it was. -/
theorem HoldFiles.release (h : HoldFiles w files) (hi : files i = some a)
    (hheld : w'.held = w.held.erase (.file a)) (hwf : w'.st.WellFormed)
    (hptrs : w'.st.ptrs = w.st.ptrs) : HoldFiles w' (Function.update files i none) := by
  have hother : ∀ j b, Function.update files i none j = some b → j ≠ i ∧ files j = some b := by
    intro j b hj
    by_cases hji : j = i
    · subst hji
      simp at hj
    · exact ⟨hji, by simpa [Function.update_of_ne hji] using hj⟩
  refine ⟨hwf, fun j b hj => ?_, fun j b hj => ?_, fun j k b hj hk => ?_⟩
  · obtain ⟨hji, hj⟩ := hother j b hj
    have hba : b ≠ a := fun e => hji (h.distinct j i a (e ▸ hj) hi)
    rw [hheld]
    exact Finset.mem_erase_of_ne_of_mem (by simpa using hba) (h.held j b hj)
  · rw [hptrs]
    exact h.stored j b (hother j b hj).2
  · exact h.distinct j k b (hother j b hj).2 (hother k b hk).2

/-- A party that holds nothing may come to hold a file that was free. -/
theorem HoldFiles.take (h : HoldFiles w files) {p : Option Nat} (hwf : w'.st.WellFormed)
    (hheld : w.held ⊆ w'.held) (hptrs : ∀ j a, files j = some a → a ∈ w'.st.ptrs)
    (hp : ∀ a, p = some a → .file a ∉ w.held ∧ .file a ∈ w'.held ∧ a ∈ w'.st.ptrs) :
    HoldFiles w' (Function.update files i p) := by
  have hcases : ∀ j b, Function.update files i p j = some b →
      (j = i ∧ p = some b) ∨ (j ≠ i ∧ files j = some b) := by
    intro j b hj
    by_cases hji : j = i
    · subst hji
      exact .inl ⟨rfl, by simpa using hj⟩
    · exact .inr ⟨hji, by simpa [Function.update_of_ne hji] using hj⟩
  refine ⟨hwf, fun j b hj => ?_, fun j b hj => ?_, fun j k b hj hk => ?_⟩
  · rcases hcases j b hj with ⟨-, hb⟩ | ⟨-, hb⟩
    · exact (hp b hb).2.1
    · exact hheld (h.held j b hb)
  · rcases hcases j b hj with ⟨-, hb⟩ | ⟨-, hb⟩
    · exact (hp b hb).2.2
    · exact hptrs j b hb
  · rcases hcases j b hj with ⟨hji, hb⟩ | ⟨-, hb⟩
    · rcases hcases k b hk with ⟨hki, -⟩ | ⟨-, hb'⟩
      · exact hji.trans hki.symm
      · exact absurd (h.held k b hb') (hp b hb).1
    · rcases hcases k b hk with ⟨-, hb'⟩ | ⟨-, hb'⟩
      · exact absurd (h.held j b hb) (hp b hb').1
      · exact h.distinct j k b hb hb'

/-- A section leaves the files alone whose mutexes are held. -/
theorem WriteSectionDone.keeps {h : Handler} {qsort : Qsort Nat} {tr : List (Event Mutex)}
    {t : Stage} (hd : WriteSectionDone h qsort w tr t w') (hwf : w.st.WellFormed)
    (ha : a ∈ w.st.ptrs)
    (hheld : .file a ∈ h.holding w) :
    a ∈ w'.st.ptrs ∧ (w'.st.file a).dataLen = (w.st.file a).dataLen := by
  obtain ⟨-, hwo, -⟩ := hwf.giveUps_writeGone h qsort tr
  rw [← hd.st] at hwo
  have hnot : a ∉ h.writeGone qsort w tr := fun hgone => h.free_of_mem_writeGone hgone hheld
  rw [← fuGetfile_ptrs w.st h.path, hwo.ptrs.mem_iff, List.mem_append] at ha
  refine ⟨ha.resolve_left hnot, ?_⟩
  rw [FileData.dataLen, file, hwo.heap a, if_neg hnot, ← file, (w.st.fuGetfile_file h.path a).1,
    ← FileData.dataLen]

/-- A section that is granted its data takes its file, and leaves alone those
that others hold. -/
theorem WriteSectionDone.holdFiles {h : Handler} {qsort : Qsort Nat}
    {tr : List (Event Mutex)} {t : Stage} (hd : WriteSectionDone h qsort w tr t w')
    (hold : HoldFiles w files) :
    HoldFiles w' (Function.update files i t.file) ∧ SameLengths files w.st w'.st ∧
      w'.st.currBytes ≤ w.st.currBytes ∧ w'.st.maxBytes = w.st.maxBytes := by
  obtain ⟨hwf', hwo, hmax⟩ := hold.wellFormed.giveUps_writeGone h qsort tr
  rw [← hd.st] at hwf' hwo hmax
  have hothers : ∀ j a, files j = some a →
      a ∈ w'.st.ptrs ∧ (w'.st.file a).dataLen = (w.st.file a).dataLen := fun j a hj =>
    hd.keeps hold.wellFormed (hold.stored j a hj) (h.held_subset_holding w (hold.held j a hj))
  refine ⟨hold.take hwf' hd.held (fun j a hj => (hothers j a hj).1) fun a ha => ?_,
    fun j a hj => (hothers j a hj).2, ?_, ?_⟩
  · rcases hd.stage with ⟨file, n, rfl, hget, -, hfree, hheld, -⟩ | ⟨r, rfl⟩
    · injection ha with ha
      subst ha
      refine ⟨hfree, by simp [hheld],
        (hd.keeps hold.wellFormed (WellFormed.huGet_mem_ptrs hget) ?_).1⟩
      simp [Handler.holding, hget]
    · cases ha
  · have hbytes := hwo.bytes
    rw [fuGetfile_currBytes] at hbytes
    omega
  · rw [hmax, (w.st.fuGetfile_limits h.path).2]

end Holding

theorem HoldFiles.congr {w w' : World FileStorage Mutex} {ι : Type} {files : ι → Option Nat}
    (h : HoldFiles w files) (hheld : w'.held = w.held) (hwf : w'.st.WellFormed)
    (hptrs : w'.st.ptrs = w.st.ptrs) : HoldFiles w' files where
  wellFormed := hwf
  held i a hi := hheld ▸ h.held i a hi
  stored i a hi := hptrs ▸ h.stored i a hi
  distinct := h.distinct

/-! ## The count of the bytes -/

section Count

variable {ι τ : Type} [DecidableEq ι]

/-- The count of the bytes, and what some handlers are still going to add. -/
def bytesBudget (growth : ι → FileStorage → τ → Option Int)
    (c : Threads ι (World FileStorage Mutex) τ) : Budget ι Int where
  used := c.shared.st.currBytes
  cap := c.shared.st.maxBytes
  promised i := growth i c.shared.st (c.stage i)

variable {growth : ι → FileStorage → τ → Option Int} {file : τ → Option Nat}
  {c : Threads ι (World FileStorage Mutex) τ} {w' : World FileStorage Mutex} {i : ι} {t' : τ}

/-- A step of one handler changes the budget for it alone, if it leaves alone
what the others are going to add. -/
theorem bytesBudget_update (hmax : w'.st.maxBytes = c.shared.st.maxBytes)
    (hsame : ∀ j, j ≠ i → growth j w'.st (c.stage j) = growth j c.shared.st (c.stage j)) :
    bytesBudget growth ⟨w', Function.update c.stage i t'⟩ =
      (bytesBudget growth c).promise i (growth i w'.st t') w'.st.currBytes := by
  rw [Budget.promise, bytesBudget, bytesBudget, hmax]
  congr 1
  funext j
  by_cases hji : j = i
  · subst hji
    simp
  · dsimp only
    rw [Function.update_of_ne hji, Function.update_of_ne hji, hsame j hji]

/-- The files held at the stages after a step. -/
theorem HoldFiles.at_stages
    (h : HoldFiles w' (Function.update (fun j => file (c.stage j)) i (file t'))) :
    HoldFiles w' fun j => file (Function.update c.stage i t' j) := by
  have hcomp : (fun j => file (Function.update c.stage i t' j)) =
      Function.update (fun j => file (c.stage j)) i (file t') :=
    Function.comp_update file c.stage i t'
  rwa [hcomp]

end Count

/-! ## Sections -/

section Sections

variable {qsort : Qsort Nat} {h : Handler} {tr : List (Event Mutex)} {a n : Nat}
  {w w' : World FileStorage Mutex} {t' : Stage}

theorem Handler.Writes.acts_begun (hh : h.Writes) (hwf : w.st.WellFormed)
    (ha : h.Acts qsort tr w .begun w' t') : WriteSectionDone h qsort w tr t' w' := by
  have hfirst : h.first qsort = writeSection qsort h.client h.path := by
    rw [Handler.first]
    rcases hh.kind with hkind | hkind
    · rw [hkind]
    · rw [hkind]
  have hruns := ha.runs
  rw [Handler.next, hfirst] at hruns
  exact writeSection_done hh.client hwf tr _ w' hruns t' rfl ha.trylock

theorem Handler.Writes.acts_granted (hh : h.Writes) (ha : h.Acts qsort tr w (.granted a n) w' t') :
    (∃ r, t' = .returned r) ∧ Received w a n h.offset tr w' := by
  have hruns := ha.runs
  rw [Handler.next, Handler.second] at hruns
  · obtain ⟨r, rfl, hrun⟩ := runs_of_returning hruns
    exact ⟨⟨r, rfl⟩, receiveData_received hh.client a n h.offset tr _ w' hrun r rfl⟩
  · simp

/-- What a write leaves alone. -/
theorem Received.others {offset : FileData → Nat} (hr : Received w a n offset tr w')
    (hwf : w.st.WellFormed) :
    w'.st.WellFormed ∧ w'.st.ptrs = w.st.ptrs ∧ w'.st.maxBytes = w.st.maxBytes ∧
      ∀ b, b ≠ a → (w'.st.file b).dataLen = (w.st.file b).dataLen := by
  cases hbody : bodyRead tr with
  | false =>
      rw [hr.unwritten hbody]
      exact ⟨hwf, rfl, rfl, fun _ _ => rfl⟩
  | true =>
      obtain ⟨f, d, err, hf, hlen, -, hlim, hw⟩ := hr.written hbody
      have hlive : w.st.heap a ≠ none := by simp [hf]
      have hd : ∀ d', some d = some d' → d'.length ≤ muLimit := by
        intro d' heq
        cases heq
        rwa [hlen]
      refine ⟨hwf.fuWritefile hlive hd hw, by rw [ptrs, ptrs, fuWritefile_table _ _ hw], ?_⟩
      rcases hwf.accounted.fuWritefile_cases (hwf.stored a hlive) hd hw with
        ⟨hs, -⟩ | ⟨hs, -⟩ | ⟨-, d', -, -, -, -, hs⟩
      · rw [hs]
        exact ⟨rfl, fun _ _ => rfl⟩
      · rw [hs]
        exact ⟨rfl, fun b hb => by rw [w.st.modifyFile_file_of_ne a _ hb]⟩
      · rw [hs]
        exact ⟨rfl, fun b hb => congrArg FileData.dataLen (w.st.modifyFile_file_of_ne a _ hb)⟩

/-- What a write adds to the count when there is room for it. -/
theorem Received.currBytes {offset : FileData → Nat} (hr : Received w a n offset tr w')
    (hwf : w.st.WellFormed) (hbody : bodyRead tr = true)
    (hoff : offset (w.st.file a) ≤ (w.st.file a).dataLen)
    (hroom : w.st.currBytes + w.st.growth a (offset (w.st.file a)) n ≤ (w.st.maxBytes : Int)) :
    (w'.st.currBytes : Int) = w.st.currBytes + w.st.growth a (offset (w.st.file a)) n := by
  obtain ⟨f, d, err, hf, hlen, hn, hlim, hw⟩ := hr.written hbody
  subst hlen
  rw [← file_eq w.st hf] at hw
  have hacc := hwf.accounted
  have hmem := hwf.stored a (by simp [hf])
  have hgoes : err ≠ -1 := fun herr =>
    (hacc.fuWritefile_refuses_iff hmem hn (Accounted.lt_of_le_muLimit hlim) hoff).mp
      ⟨w'.st, herr ▸ hw⟩ hroom
  rcases hacc.fuWritefile_cases hmem (by rintro d' ⟨⟩; exact hlim) hw with
    ⟨-, herr⟩ | ⟨-, herr⟩ | ⟨-, d', ⟨⟩, -, -, -, hs⟩
  · exact absurd herr hgoes
  · exact absurd herr hgoes
  · have hle := hacc.dataLen_le hmem
    rw [hs, growth]
    show ((w.st.currBytes - (w.st.file a).dataLen +
      (offset (w.st.file a) + d.length) : Nat) : Int) = _
    omega

end Sections

/-- A storage with an empty file that a client has open. -/
def FileStorage.withFile (s : FileStorage) (client : Int) (path : List UInt8) : FileStorage :=
  ((s.place { data := [], client := client, dataInfo := 0, path := [] }).2.fuAddFile
    s.next path).2

/-- Client 4 writes its file "a", client 5 appends to its file "b". -/
def twoWriters (five : Bool) : Handler :=
  if five then ⟨.appendToFile, 5, [98]⟩ else ⟨.writeFile, 4, [97]⟩

theorem twoWriters_writes (five : Bool) : (twoWriters five).Writes := by
  cases five with
  | false => exact ⟨by decide, .inl rfl⟩
  | true => exact ⟨by decide, .inr rfl⟩

/-- There is room for five bytes. -/
theorem twoFiles_wellFormed {s : FileStorage} (hs : fuInitFileStorage 4 5 = some s) :
    ((s.withFile 4 [97]).withFile 5 [98]).WellFormed := by
  have hwf := WellFormed.init (by decide) (by decide) hs
  injection hs with hs
  subst hs
  exact (hwf.create rfl rfl).create rfl rfl

end LsoStore
