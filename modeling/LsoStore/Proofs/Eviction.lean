import Mathlib.Algebra.Order.BigOperators.Group.List
import LsoStore.Proofs.WellFormed

/-!
# What an eviction removes

`fu_evict_files` decides whether an eviction can succeed by adding up all
stored files. `server_evict` then walks the same files and skips those it may
not give up, so it can run out of files after it has given some up. The
theorem at the end says exactly when an eviction that fails has left
everything in place.

The loop is described by the list of files it gave up: a prefix of the files
that may be given up, in the order of the array. What it answers the client,
what it leaves in the table and what remains to be freed all follow from that
list.
-/

namespace LsoStore

open Proc FileStorage

instance answer_lawfulBEq : LawfulBEq (SMessage × Bool) := inferInstance

/-- The answer words of a run, each with whether the client took it. -/
def answers (tr : List (Event Mutex)) : List (SMessage × Bool) :=
  tr.filterMap fun
    | .write (.word m) ok => some (m, ok)
    | _ => none

@[simp] theorem answers_nil : answers [] = [] := rfl

@[simp] theorem answers_word (m : SMessage) (ok : Bool) (tr : List (Event Mutex)) :
    answers (.write (.word m) ok :: tr) = (m, ok) :: answers tr := rfl

@[simp] theorem answers_read (n : Nat) (r : Option (List UInt8)) (tr : List (Event Mutex)) :
    answers (.read n r :: tr) = answers tr := rfl

@[simp] theorem answers_trylock (m : Mutex) (ok : Bool) (tr : List (Event Mutex)) :
    answers (.trylock m ok :: tr) = answers tr := rfl

@[simp] theorem answers_unspec (bs : List UInt8) (tr : List (Event Mutex)) :
    answers (.unspec bs :: tr) = answers tr := rfl

@[simp] theorem answers_append (tr tr' : List (Event Mutex)) :
    answers (tr ++ tr') = answers tr ++ answers tr' := by
  simp [answers]

theorem answers_of_quiet {tr : List (Event Mutex)} (h : Quiet tr) : answers tr = [] := by
  rw [answers, List.filterMap_eq_nil_iff]
  intro e he
  cases e with
  | write p ok =>
      cases p with
      | word m => exact absurd he (h.word m ok)
      | size n => rfl
      | block bs => rfl
  | read n r => rfl
  | trylock m ok => rfl
  | unspec bs => rfl

/-- No trylock failed on a mutex that was free: nobody else is running. -/
def Alone (held : Finset Mutex) (tr : List (Event Mutex)) : Prop :=
  ∀ m, .trylock m false ∈ tr → m ∈ held

namespace FileStorage

/-- The total length of some files. -/
def bytesOf (s : FileStorage) (as : List Nat) : Nat := (as.map fun a => (s.file a).dataLen).sum

/-- The loop may give the file up: its mutex is free and nobody but the
client has it open. -/
def Evictable (s : FileStorage) (held : Finset Mutex) (client : Int) (a : Nat) : Prop :=
  .file a ∉ held ∧ ((s.file a).client = -1 ∨ (s.file a).client = client)

instance (s : FileStorage) (held : Finset Mutex) (client : Int) :
    DecidablePred (s.Evictable held client) := fun a =>
  inferInstanceAs
    (Decidable (.file a ∉ held ∧ ((s.file a).client = -1 ∨ (s.file a).client = client)))

/-- The files of a list that may be given up. -/
def evictables (s : FileStorage) (held : Finset Mutex) (client : Int) (as : List Nat) :
    List Nat := as.filter fun a => s.Evictable held client a

/-- `s'` is `s` without the files `gone`, and the counters know it. -/
structure Without (s s' : FileStorage) (gone : List Nat) : Prop where
  ptrs : s.ptrs.Perm (gone ++ s'.ptrs)
  heap : ∀ b, s'.heap b = if b ∈ gone then none else s.heap b
  files : s.currFiles = s'.currFiles + gone.length
  bytes : s.currBytes = s'.currBytes + s.bytesOf gone

variable {s s' s'' : FileStorage} {held : Finset Mutex} {client : Int} {a : Nat}

theorem Without.refl (s : FileStorage) : Without s s [] :=
  ⟨List.Perm.refl _, fun _ => by simp, by simp, by simp [bytesOf]⟩

theorem Without.file_eq (h : Without s s' [a]) {b : Nat} (hb : b ≠ a) :
    s'.file b = s.file b := by
  rw [file, h.heap b, if_neg (by simpa using hb), ← file]

/-- The other stored files are still stored. -/
theorem Without.subset_ptrs (h : Without s s' [a]) {as : List Nat} (ha : a ∉ as)
    (has : ∀ b ∈ as, b ∈ s.ptrs) : ∀ b ∈ as, b ∈ s'.ptrs := fun b hb =>
  (List.mem_append.mp (h.ptrs.mem_iff.mp (has b hb))).resolve_left fun hba =>
    ha (List.mem_singleton.mp hba ▸ hb)

theorem Without.cons {gone : List Nat} (h₁ : Without s s' [a]) (h₂ : Without s' s'' gone)
    (hne : a ∉ gone) : Without s s'' (a :: gone) where
  ptrs := h₁.ptrs.trans (h₂.ptrs.cons a)
  heap b := by
    rw [h₂.heap b, h₁.heap b]
    by_cases hb : b ∈ gone
    · simp [hb]
    · simp [hb]
  files := by
    have := h₁.files
    have := h₂.files
    simp only [List.length_cons, List.length_nil] at *
    omega
  bytes := by
    have hsame : s'.bytesOf gone = s.bytesOf gone := by
      rw [bytesOf, bytesOf, List.map_congr_left]
      intro b hb
      rw [h₁.file_eq fun e => hne (e ▸ hb)]
    have hb₁ := h₁.bytes
    have hb₂ := h₂.bytes
    rw [hsame] at hb₂
    simp only [bytesOf, List.map_cons, List.map_nil, List.sum_cons, List.sum_nil] at *
    omega

/-- Giving up a stored file takes that file out. -/
theorem WellFormed.without_giveUp (h : s.WellFormed) (ha : a ∈ s.ptrs) :
    Without s ((s.modifyFile a fun f => { f with client := -2 }).fuRemoveFile
      (s.file a).path).2 [a] := by
  set s₁ := s.modifyFile a fun f => { f with client := -2 } with hs₁
  have h₁ : s₁.WellFormed := h.modifyFile a fun _ => ⟨rfl, rfl⟩
  have hpath : (s₁.file a).path = (s.file a).path :=
    s.modifyFile_path a (fun f => { f with client := -2 }) (fun _ => rfl) a
  have hlen : (s₁.file a).dataLen = (s.file a).dataLen :=
    s.modifyFile_dataLen a (fun f => { f with client := -2 }) (fun _ => rfl) a
  have ha₁ : a ∈ s₁.ptrs := ha
  obtain ⟨-, hptrs, hheap, hfiles, hbytes⟩ := h₁.fuRemoveFile_path ha₁
  rw [hpath] at hptrs hheap hfiles hbytes
  rw [hlen] at hbytes
  refine ⟨hptrs, fun b => ?_, hfiles, ?_⟩
  · rw [hheap b]
    by_cases hb : b = a
    · simp [hb]
    · simp [hb, hs₁, modifyFile_heap]
  · have hcurr : s₁.currBytes = s.currBytes := rfl
    rw [hcurr] at hbytes
    simpa [bytesOf] using hbytes

theorem WellFormed.giveUp (h : s.WellFormed) (a : Nat) :
    ((s.modifyFile a fun f => { f with client := -2 }).fuRemoveFile
      (s.file a).path).2.WellFormed :=
  (h.modifyFile a (g := fun f => { f with client := -2 }) fun _ => ⟨rfl, rfl⟩).fuRemoveFile _

/-- Whether another file may be given up does not change. -/
theorem Without.evictables_eq (h : Without s s' [a]) {as : List Nat} (ha : a ∉ as) :
    s'.evictables held client as = s.evictables held client as := by
  refine List.filter_congr fun b hb => ?_
  rw [decide_eq_decide]
  simp only [Evictable, h.file_eq fun e => ha (e ▸ hb)]

theorem Without.bytesOf_eq (h : Without s s' [a]) {as : List Nat} (ha : a ∉ as) :
    s'.bytesOf as = s.bytesOf as := by
  rw [bytesOf, bytesOf, List.map_congr_left]
  intro b hb
  rw [h.file_eq fun e => ha (e ▸ hb)]

/-- What the countdown leaves is what all the files together fall short. -/
theorem evictCountdown_eq (s : FileStorage) (as : List Nat) (n : Nat) :
    s.evictCountdown as n = n - s.bytesOf as := by
  induction as generalizing n with
  | nil => simp [evictCountdown, bytesOf]
  | cons a as ih =>
      rw [evictCountdown]
      simp only [bytesOf, List.map_cons, List.sum_cons] at ih ⊢
      split
      · omega
      · split
        · rw [ih]
          omega
        · rw [ih]
          omega

/-- All files in the order in which they would be given up. -/
def evictOrder (s : FileStorage) (qsort : Qsort Nat) : List Nat :=
  qsort.sort (fun a b => fuEvictCompare (s.file a) (s.file b)) s.ptrs

theorem evictOrder_perm (s : FileStorage) (qsort : Qsort Nat) :
    (s.evictOrder qsort).Perm s.ptrs := qsort.perm _ _

/-- The array of `fu_evict_files` has a pointer for every stored file. -/
theorem fuEvictFiles_eq_none_iff {qsort : Qsort Nat} {n : Nat} :
    s.fuEvictFiles qsort n = none ↔ 8 * s.currFiles > muLimit := by
  rw [fuEvictFiles, Option.map_eq_none_iff, UArr.auInitArr]
  split
  · next h0 =>
      have h0 : s.currFiles = 0 := by omega
      simp [h0]
  · split
    · next hmany => exact iff_of_true rfl (by omega)
    · next hfew => exact iff_of_false (by simp) (by omega)

/-- What `fu_evict_files` computes when the counter is the number of files: the
empty array if all files together are too little, and all of them otherwise. -/
theorem fuEvictFiles_spec {qsort : Qsort Nat} {n : Nat} {arr : UArr Nat}
    (hfiles : s.currFiles = s.table.items.length) (harr : s.fuEvictFiles qsort n = some arr) :
    (s.storedBytes < n ∧ arr = UArr.zero) ∨
    (n ≤ s.storedBytes ∧ arr.len = s.currFiles ∧ arr.elems = s.evictOrder qsort) := by
  rw [fuEvictFiles] at harr
  obtain ⟨arr₀, hinit, rfl⟩ := Option.map_eq_some_iff.mp harr
  have hlen : arr₀.len = s.currFiles ∧ arr₀.elems = [] := by
    rw [UArr.auInitArr] at hinit
    split at hinit
    · next h0 =>
        injection hinit with hinit
        rw [← hinit, UArr.zero]
        refine ⟨?_, rfl⟩
        show 0 = s.currFiles
        omega
    · split at hinit
      · cases hinit
      · injection hinit with hinit
        rw [← hinit]
        exact ⟨rfl, rfl⟩
  have hfit : arr₀.elems.length + s.ptrs.length ≤ arr₀.len := by
    rw [hlen.1, hlen.2, length_ptrs, hfiles]
    simp
  obtain ⟨helems, hlen'⟩ := UArr.insertAll_elems hfit
  rw [hlen.2, List.nil_append] at helems
  have hbytes : s.bytesOf (s.evictOrder qsort) = s.storedBytes :=
    ((s.evictOrder_perm qsort).map _).sum_eq
  dsimp only
  rw [← ptrs, helems, ← evictOrder, evictCountdown_eq, hbytes]
  split
  · next hshort => exact .inl ⟨by omega, rfl⟩
  · next henough => exact .inr ⟨by omega, hlen'.trans hlen.1, rfl⟩

/-- `fu_evict_files` either says that all files together are too little, or
that there are none, or gives all of them. -/
theorem WellFormed.fuEvictFiles_cases (h : s.WellFormed) {qsort : Qsort Nat} {n : Nat}
    {arr : UArr Nat} (harr : s.fuEvictFiles qsort n = some arr) :
    (arr.len = 0 ∧ (s.storedBytes < n ∨ s.ptrs = [])) ∨
    (arr.len ≠ 0 ∧ n ≤ s.storedBytes ∧ s.ptrs ≠ [] ∧
      arr.slots = (s.evictOrder qsort).map some) := by
  have hfiles := h.accounted.files
  rcases fuEvictFiles_spec hfiles harr with ⟨hshort, rfl⟩ | ⟨henough, hlen, helems⟩
  · exact .inl ⟨rfl, .inl hshort⟩
  · rw [hfiles, ← length_ptrs] at hlen
    by_cases hnil : s.ptrs = []
    · refine .inl ⟨?_, .inr hnil⟩
      rw [hlen, hnil]
      rfl
    · refine .inr ⟨?_, henough, hnil, ?_⟩
      · rw [hlen]
        exact fun h0 => hnil (List.eq_nil_of_length_eq_zero h0)
      · rw [← helems]
        refine UArr.slots_of_full ?_
        rw [helems, (s.evictOrder_perm qsort).length_eq, hlen]

/-! The files that an eviction gives up. -/

/-- The storage after the file at `a` has been given up. -/
def giveUp (s : FileStorage) (a : Nat) : FileStorage :=
  ((s.modifyFile a fun f => { f with client := -2 }).fuRemoveFile (s.file a).path).2

/-- The storage after some files have been given up, in this order. -/
def giveUps (s : FileStorage) (as : List Nat) : FileStorage := as.foldl giveUp s

/-- The files the loop gives up, from the ones in `as`, to free `n` bytes. -/
def givenUp (s : FileStorage) (held : Finset Mutex) (client : Int) : List Nat → Nat → List Nat
  | [], _ => []
  | a :: as, n =>
      if n = 0 then []
      else if s.Evictable held client a then
        a :: s.givenUp held client as (n - (s.file a).dataLen)
      else s.givenUp held client as n

/-- The files an eviction of `n` bytes gives up. -/
def victims (s : FileStorage) (qsort : Qsort Nat) (held : Finset Mutex) (client : Int)
    (n : Nat) : List Nat := s.givenUp held client (s.evictOrder qsort) n

theorem givenUp_sublist (s : FileStorage) (held : Finset Mutex) (client : Int) (as : List Nat)
    (n : Nat) : (s.givenUp held client as n).Sublist as := by
  induction as generalizing n with
  | nil => exact List.Sublist.refl _
  | cons a as ih =>
      rw [givenUp]
      split
      · exact List.nil_sublist _
      · split
        · exact (ih _).cons_cons a
        · exact (ih _).cons a

theorem givenUp_zero (s : FileStorage) (held : Finset Mutex) (client : Int) (as : List Nat) :
    s.givenUp held client as 0 = [] := by
  cases as with
  | nil => rfl
  | cons a as => rw [givenUp, if_pos rfl]

/-- The loop takes the files it may take in order. -/
theorem givenUp_isPrefix (s : FileStorage) (held : Finset Mutex) (client : Int) (as : List Nat)
    (n : Nat) : s.givenUp held client as n <+: s.evictables held client as := by
  induction as generalizing n with
  | nil => exact List.prefix_refl _
  | cons a as ih =>
      rw [givenUp]
      split
      · exact List.nil_prefix
      · split
        · next he =>
            simp only [evictables, List.filter_cons, he, decide_true, if_true]
            exact List.cons_prefix_cons.mpr ⟨rfl, ih _⟩
        · next he =>
            simp only [evictables, List.filter_cons, he, decide_false, Bool.false_eq_true,
              if_false]
            exact ih n

/-- It stops short of the last one only when it has enough. -/
theorem givenUp_complete (s : FileStorage) (held : Finset Mutex) (client : Int) (as : List Nat)
    (n : Nat) : n ≤ s.bytesOf (s.givenUp held client as n) ∨
      s.givenUp held client as n = s.evictables held client as := by
  induction as generalizing n with
  | nil => exact .inr rfl
  | cons a as ih =>
      rw [givenUp]
      split
      · next h0 => exact .inl (h0 ▸ Nat.zero_le _)
      · split
        · next he =>
            simp only [evictables, List.filter_cons, he, decide_true, if_true, bytesOf,
              List.map_cons, List.sum_cons, List.cons.injEq, true_and]
            exact (ih _).imp_left fun h => by rw [bytesOf] at h; omega
        · next he =>
            simp only [evictables, List.filter_cons, he, decide_false, Bool.false_eq_true,
              if_false]
            exact ih n

theorem evictable_of_mem_givenUp {as : List Nat} {n : Nat}
    (h : a ∈ s.givenUp held client as n) : s.Evictable held client a := by
  induction as generalizing n with
  | nil => cases h
  | cons b as ih =>
      rw [givenUp] at h
      split at h
      · cases h
      · split at h
        · next he =>
            rcases List.mem_cons.mp h with rfl | h
            · exact he
            · exact ih h
        · exact ih h

theorem giveUp_maxBytes (s : FileStorage) (a : Nat) : (s.giveUp a).maxBytes = s.maxBytes :=
  (fuRemoveFile_limits _ _).2

/-- Giving up some of the stored files takes those files out. -/
theorem WellFormed.giveUps (h : s.WellFormed) {gone : List Nat} (hnodup : gone.Nodup)
    (hin : ∀ a ∈ gone, a ∈ s.ptrs) :
    (s.giveUps gone).WellFormed ∧ Without s (s.giveUps gone) gone ∧
      (s.giveUps gone).maxBytes = s.maxBytes := by
  induction gone generalizing s with
  | nil => exact ⟨h, .refl s, rfl⟩
  | cons a gone ih =>
      obtain ⟨hna, hnodup⟩ := List.nodup_cons.mp hnodup
      have hwo : Without s (s.giveUp a) [a] := h.without_giveUp (hin a (List.mem_cons_self ..))
      have hin' := hwo.subset_ptrs hna fun b hb => hin b (List.mem_cons_of_mem _ hb)
      obtain ⟨hwf, hrest, hmax⟩ := ih (h.giveUp a) hnodup hin'
      exact ⟨hwf, hwo.cons hrest hna, hmax.trans (s.giveUp_maxBytes a)⟩

theorem victims_subset {qsort : Qsort Nat} {n : Nat} (h : a ∈ s.victims qsort held client n) :
    a ∈ s.ptrs :=
  (s.evictOrder_perm qsort).mem_iff.mp ((givenUp_sublist ..).subset h)

theorem WellFormed.victims_nodup (h : s.WellFormed) (qsort : Qsort Nat) (n : Nat) :
    (s.victims qsort held client n).Nodup :=
  (givenUp_sublist ..).nodup
    ((s.evictOrder_perm qsort).nodup_iff.mpr h.accounted.nodup)

/-- Giving up enough bytes makes room for `len`. -/
theorem Without.room {gone : List Nat} {len : Nat} (h : Without s s' gone) (hwf : s.WellFormed)
    (hwf' : s'.WellFormed) (hmax : s'.maxBytes = s.maxBytes)
    (henough : len - s.fuStorageBytesAvailable ≤ s.bytesOf gone) :
    len ≤ s'.fuStorageBytesAvailable := by
  have hbytes := h.bytes
  have hle := hwf.accounted.bytes_le
  rw [hwf'.accounted.bytesAvailable]
  rw [hwf.accounted.bytesAvailable] at henough
  omega

/-- A stored file that is not given up stays as it is. -/
theorem Without.kept {gone : List Nat} (h : Without s s' gone) (ha : a ∈ s.ptrs)
    (hkept : a ∉ gone) : a ∈ s'.ptrs ∧ s'.file a = s.file a := by
  refine ⟨(List.mem_append.mp (h.ptrs.mem_iff.mp ha)).resolve_left hkept, ?_⟩
  rw [file, h.heap a, if_neg hkept, ← file]

/-- An eviction that frees enough bytes makes room for `len`, and leaves a file
alone whose mutex is held. -/
theorem WellFormed.room_of_victims (h : s.WellFormed) {qsort : Qsort Nat} {n len : Nat}
    (hn : n = len - s.fuStorageBytesAvailable) {gone : List Nat}
    (hgone : gone = s.victims qsort held client n) (henough : n ≤ s.bytesOf gone)
    (ha : a ∈ s.ptrs) (hheld : .file a ∈ held) :
    (s.giveUps gone).WellFormed ∧ Without s (s.giveUps gone) gone ∧
      len ≤ (s.giveUps gone).maxBytes - (s.giveUps gone).currBytes ∧
      a ∈ (s.giveUps gone).ptrs ∧ (s.giveUps gone).file a = s.file a := by
  obtain ⟨hwf', hwo, hmax⟩ := h.giveUps (hgone ▸ h.victims_nodup qsort n)
    fun b hb => victims_subset (hgone ▸ hb)
  have hkept : a ∉ gone := fun hmem => (evictable_of_mem_givenUp (hgone ▸ hmem)).1 hheld
  have hroom := hwo.room h hwf' hmax (hn ▸ henough)
  rw [hwf'.accounted.bytesAvailable] at hroom
  exact ⟨hwf', hwo, hroom, hwo.kept ha hkept⟩

theorem Without.givenUp_eq (h : Without s s' [a]) {as : List Nat} (ha : a ∉ as) (n : Nat) :
    s'.givenUp held client as n = s.givenUp held client as n := by
  induction as generalizing n with
  | nil => rfl
  | cons b as ih =>
      obtain ⟨hb, has⟩ := not_or.mp (mt List.mem_cons.mpr ha)
      have hfile : s'.file b = s.file b := h.file_eq fun e => hb e.symm
      have he : s'.Evictable held client b ↔ s.Evictable held client b := by
        simp only [Evictable, hfile]
      rw [givenUp, givenUp, hfile, ih has, ih has]
      refine if_congr Iff.rfl rfl (if_congr he rfl rfl)

end FileStorage

/-! ## The loop -/

section Loop

variable {w : World FileStorage Mutex} {client : Int} {H : Finset Mutex}

/-- How one file's eviction ends, its mutex having just been taken on top of
`H`. -/
def GaveUp (s : FileStorage) (H : Finset Mutex) (sendFilesBack : Bool) (a : Nat)
    (tr : List (Event Mutex)) (o : Out Bool) (w' : World FileStorage Mutex) : Prop :=
  match o with
  | .ret true => w'.held = H ∧
      w'.st = ((s.modifyFile a fun f => { f with client := -2 }).fuRemoveFile
        (s.file a).path).2 ∧
      (∀ m ok, .trylock m ok ∉ tr) ∧
      answers tr = if sendFilesBack then [(sapiEvictMsg, true)] else []
  | .ret false => w'.st = s ∧ sendFilesBack = true ∧ answers tr = [(sapiEvictMsg, false)]
  | _ => True

theorem evictFile_gaveUp (hc : client ≠ 0) {a : Nat} {f : FileData}
    (hf : w.st.heap a = some f) (hm : .file a ∉ H) (hw : w.held = insert (.file a) H)
    (sendFilesBack : Bool) :
    (evictFile client sendFilesBack a f).Ensures w (GaveUp w.st H sendFilesBack a) := by
  have herase : w.held.erase (.file a) = H := by rw [hw, Finset.erase_insert hm]
  have hpath : (w.st.file a).path = f.path := by rw [file_eq _ hf]
  rw [evictFile]
  split
  · next hflag =>
      rw [ensures_serverRespond_bind hc]
      refine ⟨by simp [GaveUp, hflag], ?_⟩
      refine Ensures.serverSendPath_bind fun tr _ htr => ?_
      refine Ensures.serverSendData_bind fun tr' _ htr' => ?_
      simp [GaveUp, herase, hpath, hflag, answers_of_quiet htr, answers_of_quiet htr',
        htr.trylock, htr'.trylock]
  · next hflag => simp [GaveUp, herase, hpath, hflag]

/-- How the loop over `as` ends: it gave up a prefix `gone` of the files it
may give up, telling the client about each if it was to send them back. -/
structure LoopEnd (s : FileStorage) (H : Finset Mutex) (client : Int)
    (as : List Nat) (n : Nat) (s' : FileStorage) (gone : List Nat) : Prop where
  isPrefix : gone <+: s.evictables H client as
  without : Without s s' gone
  wellFormed : s'.WellFormed
  stops : n = 0 → gone = []

/-- What the loop over `as` has given up when it ends, and its answers. It
leaves early at the notice that the client does not take. -/
def LoopGave (s : FileStorage) (H : Finset Mutex) (client : Int) (sendFilesBack : Bool)
    (as : List Nat) (n : Nat) (tr : List (Event Mutex)) (o : Out (Option Nat))
    (w' : World FileStorage Mutex) : Prop :=
  let gone := s.givenUp H client as n
  match o with
  | .ret (some rest) => w'.st = s.giveUps gone ∧ rest = n - s.bytesOf gone ∧
      answers tr = List.replicate (if sendFilesBack then gone.length else 0)
        (sapiEvictMsg, true)
  | .ret none => sendFilesBack = true ∧ ∃ k ≤ gone.length, w'.st = s.giveUps (gone.take k) ∧
      answers tr = List.replicate k (sapiEvictMsg, true) ++ [(sapiEvictMsg, false)]
  | _ => True

/-- The loop passed over `a`. -/
theorem LoopGave.skip {s : FileStorage} {sendFilesBack : Bool} {a n : Nat} {as : List Nat}
    {tr : List (Event Mutex)} {o : Out (Option Nat)} {w' : World FileStorage Mutex}
    {ok : Bool} (h : LoopGave s H client sendFilesBack as n tr o w')
    (ha : ¬ s.Evictable H client a) (hn : n ≠ 0) :
    LoopGave s H client sendFilesBack (a :: as) n (.trylock (.file a) ok :: tr) o w' := by
  have hgone : s.givenUp H client (a :: as) n = s.givenUp H client as n := by
    rw [givenUp, if_neg hn, if_neg ha]
  unfold LoopGave at h ⊢
  rwa [hgone, answers_trylock]

/-- The loop gave up `a` and went on from what that left. -/
theorem LoopGave.cons {s : FileStorage} {sendFilesBack : Bool} {a n len : Nat}
    {as : List Nat} {tr tr' : List (Event Mutex)} {o : Out (Option Nat)}
    {w' : World FileStorage Mutex}
    (h : LoopGave (s.giveUp a) H client sendFilesBack as (if len > n then 0 else n - len) tr'
      o w') (h₁ : Without s (s.giveUp a) [a]) (ha : a ∉ as) (he : s.Evictable H client a)
    (hn : n ≠ 0) (hlen : len = (s.file a).dataLen)
    (htr : answers tr = if sendFilesBack then [(sapiEvictMsg, true)] else []) :
    LoopGave s H client sendFilesBack (a :: as) n
      (.trylock (.file a) true :: (tr ++ tr')) o w' := by
  have hleft : (if len > n then 0 else n - len) = n - (s.file a).dataLen := by
    split <;> omega
  have hgone : s.givenUp H client (a :: as) n =
      a :: s.givenUp H client as (n - (s.file a).dataLen) := by
    rw [givenUp, if_neg hn, if_pos he]
  unfold LoopGave at h ⊢
  rw [hleft, h₁.givenUp_eq ha] at h
  rw [hgone]
  set gone := s.givenUp H client as (n - (s.file a).dataLen) with hdef
  have hnot : a ∉ gone := fun hm => ha ((givenUp_sublist ..).subset hm)
  have hbytes : s.bytesOf (a :: gone) = (s.file a).dataLen + (s.giveUp a).bytesOf gone := by
    rw [h₁.bytesOf_eq hnot]
    simp [bytesOf]
  rcases o with (_ | rest) | _ | _ | _
  · obtain ⟨hflag, k, hk, hst, htr'⟩ := h
    refine ⟨hflag, k + 1, Nat.succ_le_succ hk, hst, ?_⟩
    simp [htr, htr', hflag, List.replicate_succ]
  · obtain ⟨hst, hrest, htr'⟩ := h
    refine ⟨hst, by omega, ?_⟩
    cases sendFilesBack with
    | false => simp [htr, htr']
    | true => simp [htr, htr', List.replicate_succ]
  · trivial
  · trivial
  · trivial

theorem evictLoop_gave (hc : client ≠ 0) (sendFilesBack : Bool) (as : List Nat) (n : Nat)
    (hwf : w.st.WellFormed) (hnodup : as.Nodup) (has : ∀ a ∈ as, a ∈ w.st.ptrs)
    (hH : w.held = H) :
    (evictLoop client sendFilesBack (as.map some) n).Ensures w fun tr o w' =>
      Alone H tr → LoopGave w.st H client sendFilesBack as n tr o w' := by
  induction as generalizing n w with
  | nil => simp [evictLoop, LoopGave, givenUp, giveUps, bytesOf]
  | cons a as ih =>
      obtain ⟨hna, hnodup'⟩ := List.nodup_cons.mp hnodup
      have has' : ∀ b ∈ as, b ∈ w.st.ptrs := fun b hb => has b (List.mem_cons_of_mem _ hb)
      rw [List.map_cons, evictLoop]
      split
      · next h0 => simp [h0, LoopGave, givenUp, giveUps, bytesOf]
      · next h0 =>
          have ha := has a (List.mem_cons_self ..)
          obtain ⟨f, hf⟩ := Option.ne_none_iff_exists'.mp (hwf.accounted.live a ha)
          have hfile := file_eq _ hf
          rw [ensures_deref]
          refine ⟨fun hn => by simp [hf] at hn, fun _ _ => ensures_trylock.mpr
            ⟨?_, fun hm => ?_⟩⟩
          · refine (ih n hwf hnodup' has' hH).mono fun tr o w' h => fun halone => ?_
            refine (h fun m hm => halone m (List.mem_cons_of_mem _ hm)).skip (fun he => ?_) h0
            exact he.1 (halone (.file a) (List.mem_cons_self ..))
          · have herase : (insert (Mutex.file a) w.held).erase (.file a) = H := by
              rw [Finset.erase_insert hm, hH]
            rw [ensures_deref]
            refine ⟨fun hn => by simp [hf] at hn, fun f' hf' => ?_⟩
            obtain rfl : f = f' := by
              dsimp only at hf'
              rw [hf] at hf'
              exact Option.some.inj hf'
            split
            · next hskip =>
                rw [ensures_unlock]
                refine (ih (w := ⟨w.st, (insert (.file a) w.held).erase (.file a)⟩) n hwf
                  hnodup' has' herase).mono fun tr o w' h => fun halone => ?_
                refine (h fun m hm => halone m (List.mem_cons_of_mem _ hm)).skip (fun he => ?_) h0
                dsimp only at he
                rw [Evictable, hfile] at he
                tauto
            · next howner =>
                have he : w.st.Evictable H client a := by
                  rw [Evictable, hfile, ← hH]
                  exact ⟨hm, by tauto⟩
                have hgone := evictFile_gaveUp (w := ⟨w.st, insert (.file a) w.held⟩)
                  (H := H) hc hf (hH ▸ hm) (by rw [hH]) sendFilesBack
                refine ensures_bind.mpr (hgone.mono fun tr o w' h => ?_)
                rcases o with (_ | _) | _ | _ | _
                · obtain ⟨hst, hflag, htr⟩ := h
                  simp only [After, Bool.false_eq_true, if_false, ensures_ret]
                  intro _
                  exact ⟨hflag, 0, Nat.zero_le _, hst, by simp [htr]⟩
                · obtain ⟨hheld, hst, htry, htr⟩ := h
                  have hst : w'.st = w.st.giveUp a := hst
                  have hwo : Without w.st (w.st.giveUp a) [a] := hwf.without_giveUp ha
                  have hwf' : w'.st.WellFormed := hst ▸ hwf.giveUp a
                  have hin : ∀ b ∈ as, b ∈ w'.st.ptrs := hst ▸ hwo.subset_ptrs hna has'
                  simp only [After, if_true]
                  refine (ih _ hwf' hnodup' hin hheld).mono fun tr' o w'' h => fun halone => ?_
                  have h := h fun m hm => halone m
                    (List.mem_cons_of_mem _ (List.mem_append_right _ hm))
                  rw [hst] at h
                  exact h.cons hwo hna he h0 (by rw [hfile]) htr
                · exact fun _ => trivial
                · exact fun _ => trivial
                · exact fun _ => trivial

/-! ## The whole eviction -/

/-- How `server_evict` returns: it gave up on the spot, it was refused at its
announcement, or its loop ran to one of its two ends. -/
inductive EvictReturn (s : FileStorage) (H : Finset Mutex) (client : Int) (n : Nat) :
    List (SMessage × Bool) → Int → FileStorage → Prop where
  | infeasible : s.storedBytes < n ∨ s.ptrs = [] → EvictReturn s H client n [] (-1) s
  | unannounced : n ≤ s.storedBytes → s.ptrs ≠ [] →
      EvictReturn s H client n [(sapiEvictMsg, false)] (-1) s
  | refused (s' : FileStorage) (as gone : List Nat) : n ≤ s.storedBytes → as.Perm s.ptrs →
      LoopEnd s H client as n s' gone →
      EvictReturn s H client n
        ((sapiEvictMsg, true) :: (List.replicate gone.length (sapiEvictMsg, true) ++
          [(sapiEvictMsg, false)])) (-1) s'
  | done (s' : FileStorage) (as gone : List Nat) (notices : Nat) (ok : Bool) :
      n ≤ s.storedBytes → as.Perm s.ptrs → LoopEnd s H client as n s' gone →
      n ≤ s.bytesOf gone ∨ gone = s.evictables H client as →
      EvictReturn s H client n
        ((sapiEvictMsg, true) :: (List.replicate notices (sapiEvictMsg, true) ++
          [(if n ≤ s.bytesOf gone then sapiSuccess else sapiFailure, ok)]))
        (if n ≤ s.bytesOf gone ∧ ok then 0 else -1) s'

/-- The same with the files that were given up: the victims, or as many of
them as the client took notices for. -/
inductive EvictGave (s : FileStorage) (qsort : Qsort Nat) (H : Finset Mutex) (client : Int)
    (n : Nat) : List (SMessage × Bool) → Int → FileStorage → Prop where
  | infeasible : s.storedBytes < n ∨ s.ptrs = [] → EvictGave s qsort H client n [] (-1) s
  | unannounced : n ≤ s.storedBytes → s.ptrs ≠ [] →
      EvictGave s qsort H client n [(sapiEvictMsg, false)] (-1) s
  | refused (k : Nat) : n ≤ s.storedBytes → k ≤ (s.victims qsort H client n).length →
      EvictGave s qsort H client n
        ((sapiEvictMsg, true) :: (List.replicate k (sapiEvictMsg, true) ++
          [(sapiEvictMsg, false)])) (-1) (s.giveUps ((s.victims qsort H client n).take k))
  | done (notices : Nat) (ok : Bool) : n ≤ s.storedBytes →
      EvictGave s qsort H client n
        ((sapiEvictMsg, true) :: (List.replicate notices (sapiEvictMsg, true) ++
          [(if n ≤ s.bytesOf (s.victims qsort H client n) then sapiSuccess else sapiFailure,
            ok)]))
        (if n ≤ s.bytesOf (s.victims qsort H client n) ∧ ok then 0 else -1)
        (s.giveUps (s.victims qsort H client n))

/-- Some of the victims are a prefix of the files that may be given up. -/
theorem loopEnd_take {s : FileStorage} (hwf : s.WellFormed) (qsort : Qsort Nat) (n k : Nat) :
    LoopEnd s H client (s.evictOrder qsort) n
      (s.giveUps ((s.victims qsort H client n).take k)) ((s.victims qsort H client n).take k) := by
  have hsub := List.take_sublist k (s.victims qsort H client n)
  obtain ⟨hwf', hwo, -⟩ := hwf.giveUps (hsub.nodup (hwf.victims_nodup qsort n))
    fun a ha => victims_subset (hsub.subset ha)
  refine ⟨(List.take_prefix ..).trans (givenUp_isPrefix ..), hwo, hwf', fun hn => ?_⟩
  rw [hn, victims, givenUp_zero, List.take_nil]

theorem EvictGave.toReturn {s s' : FileStorage} {qsort : Qsort Nat} {n : Nat}
    {ans : List (SMessage × Bool)} {r : Int} (h : EvictGave s qsort H client n ans r s')
    (hwf : s.WellFormed) : EvictReturn s H client n ans r s' := by
  have hperm := s.evictOrder_perm qsort
  cases h with
  | infeasible h => exact .infeasible h
  | unannounced hn hne => exact .unannounced hn hne
  | refused k hn hk =>
      have hend : LoopEnd s H client _ n _ _ := loopEnd_take hwf qsort n k
      have hret := EvictReturn.refused _ _ _ hn hperm hend
      rwa [List.length_take, Nat.min_eq_left hk] at hret
  | done notices ok hn =>
      have hend : LoopEnd s H client _ n _ _ :=
        loopEnd_take hwf qsort n (s.victims qsort H client n).length
      rw [List.take_length] at hend
      exact .done _ _ _ notices ok hn hperm hend (givenUp_complete ..)

theorem serverEvict_gave (qsort : Qsort Nat) (hc : client ≠ 0) (n : Nat)
    (hwf : w.st.WellFormed) :
    (serverEvict qsort client n).Ensures w fun tr o w' => ∀ r, o = .ret r →
      Alone w.held tr → EvictGave w.st qsort w.held client n (answers tr) r w'.st := by
  have hperm := w.st.evictOrder_perm qsort
  refine Ensures.serverEvict hc (fun _ => by simp) (fun arr harr hlen => ?_)
    (fun arr harr hlen => ?_) fun arr harr hlen flag pre hpre => ?_
  · rcases hwf.fuEvictFiles_cases harr with ⟨-, hshort⟩ | ⟨hne, -⟩
    · intro r hr _
      injection hr with hr
      exact hr ▸ .infeasible hshort
    · exact absurd hlen hne
  · rcases hwf.fuEvictFiles_cases harr with ⟨hempty, -⟩ | ⟨-, hn, hne, -⟩
    · exact absurd hempty hlen
    · intro r hr _
      injection hr with hr
      exact hr ▸ .unannounced hn hne
  · -- whatever the flag word was, the loop and the last answer decide
    rcases hwf.fuEvictFiles_cases harr with ⟨hempty, -⟩ | ⟨-, hn, hne, hslots⟩
    · exact absurd hempty hlen
    set as := w.st.evictOrder qsort
    rw [hslots]
    refine ensures_bind.mpr ((evictLoop_gave hc flag as n hwf
      (hperm.nodup_iff.mpr hwf.accounted.nodup) (fun a ha => hperm.mem_iff.mp ha)
      rfl).mono fun tr o w' h => ?_)
    have halone : ∀ tr', Alone w.held
        (.write (.word sapiEvictMsg) true :: (pre ++ (tr ++ tr'))) →
        Alone w.held tr := fun tr' ha m hm => ha m (by simp [hm])
    rcases o with (_ | rest) | _ | _ | _
    · simp only [After, evictAnswer, ensures_ret]
      intro r hr ha
      injection hr with hr
      subst hr
      obtain ⟨-, k, hk, hst, htr⟩ := h (halone _ ha)
      simp only [answers_word, answers_append, answers_of_quiet hpre, htr,
        List.nil_append, List.append_nil]
      rw [hst]
      exact .refused k hn hk
    · simp only [After, evictAnswer]
      have hfinal : ∀ (m : SMessage) (ok : Bool) (r : Int),
          (rest = 0 → m = sapiSuccess ∧ r = if ok then 0 else -1) →
          (rest ≠ 0 → m = sapiFailure ∧ r = -1) →
          Alone w.held (.write (.word sapiEvictMsg) true ::
            (pre ++ (tr ++ [.write (.word m) ok]))) →
          EvictGave w.st qsort w.held client n (answers (.write (.word sapiEvictMsg) true ::
            (pre ++ (tr ++ [.write (.word m) ok])))) r w'.st := by
        intro m ok r hz hnz ha
        have hgave : LoopGave w.st w.held client flag as n tr (.ret (some rest)) w' :=
          h (halone _ ha)
        set gone := w.st.victims qsort w.held client n with hgone
        obtain ⟨hst, hrest, htr⟩ := hgave
        rw [← victims, ← hgone] at hst hrest htr
        have hiff : rest = 0 ↔ n ≤ w.st.bytesOf gone := by omega
        have hret : EvictGave w.st qsort w.held client n _
            (if n ≤ w.st.bytesOf gone ∧ ok then 0 else -1) (w.st.giveUps gone) :=
          .done (if flag then gone.length else 0) ok hn
        rw [← hgone] at hret
        rw [hst]
        simp only [answers_word, answers_append, answers_of_quiet hpre, htr,
          answers_nil, List.nil_append]
        by_cases h0 : rest = 0
        · obtain ⟨rfl, rfl⟩ := hz h0
          simpa [hiff.mp h0] using hret
        · obtain ⟨rfl, rfl⟩ := hnz h0
          have hlt : ¬ n ≤ w.st.bytesOf gone := fun hle => h0 (hiff.mpr hle)
          simp only [hlt, if_false, false_and] at hret
          simpa using hret
      split
      · next h0 =>
          rw [ensures_sapiRespond hc, ensures_ret]
          constructor
          · intro r hr
            injection hr with hr
            exact hfinal _ _ _ (fun _ => ⟨rfl, hr ▸ rfl⟩) fun hne => absurd h0 hne
          · intro r hr
            injection hr with hr
            exact hfinal _ _ _ (fun _ => ⟨rfl, hr ▸ rfl⟩) fun hne => absurd h0 hne
      · next h0 =>
          rw [ensures_sapiRespond hc, ensures_ret]
          constructor
          · intro r hr
            injection hr with hr
            exact hfinal _ _ _ (fun he => absurd he h0) fun _ => ⟨rfl, hr ▸ rfl⟩
          · intro r hr
            injection hr with hr
            exact hfinal _ _ _ (fun he => absurd he h0) fun _ => ⟨rfl, hr ▸ rfl⟩
    · simp [After]
    · simp [After]
    · simp [After]

theorem serverEvict_return (qsort : Qsort Nat) (hc : client ≠ 0) (n : Nat)
    (hwf : w.st.WellFormed) :
    (serverEvict qsort client n).Ensures w fun tr o w' => ∀ r, o = .ret r →
      Alone w.held tr → EvictReturn w.st w.held client n (answers tr) r w'.st :=
  (serverEvict_gave qsort hc n hwf).mono fun _ _ _ h r hr halone => (h r hr halone).toReturn hwf

end Loop

/-! ## All or nothing -/

namespace FileStorage

/-- The storage with each file's owner set from a table of owners. -/
def withOwners (s : FileStorage) (owner : Nat → Int) : FileStorage :=
  { s with heap := fun a => (s.heap a).map fun f => { f with client := owner a } }

theorem WellFormed.withOwners {s : FileStorage} (h : s.WellFormed) (owner : Nat → Int) :
    (s.withOwners owner).WellFormed := by
  have hfile : ∀ a, ((s.withOwners owner).file a).path = (s.file a).path ∧
      ((s.withOwners owner).file a).dataLen = (s.file a).dataLen := by
    intro a
    cases hf : s.heap a with
    | none => simp [FileStorage.withOwners, file, hf]
    | some f => simp [FileStorage.withOwners, file, hf, FileData.dataLen]
  have ha := h.accounted
  refine ⟨⟨ha.nodup, fun a hm => by simpa [FileStorage.withOwners] using ha.live a hm,
    fun a hle => by simp [FileStorage.withOwners, ha.fresh a hle], ha.files, ?_, ha.files_le,
    ha.bytes_le, ha.maxFiles_lt, ha.maxBytes_lt, ha.entries⟩,
    fun a hl => h.stored a (by simpa [FileStorage.withOwners] using hl),
    fun it hit => ?_, h.ordered, h.compare, h.hash⟩
  · exact ha.bytes.trans (storedBytes_congr s (s.withOwners owner) rfl
      fun b _ => (hfile b).2).symm
  · rw [(hfile it.2).1, h.paths it hit]

/-- What makes an eviction that returns -1 leave everything in place: it cannot
begin, it has nothing to do or nothing it may give up, the client refuses the
announcement or the first notice, or it does not return -1 at all because the
files it may give up suffice and the client takes every answer. -/
def EvictsCleanly (s : FileStorage) (held : Finset Mutex) (client : Int) (n : Nat)
    (tr : List (Event Mutex)) : Prop :=
  client = 0 ∨ s.storedBytes < n ∨ n = 0 ∨ s.evictables held client s.ptrs = [] ∨
  answers tr = [(sapiEvictMsg, false)] ∨
  answers tr = [(sapiEvictMsg, true), (sapiEvictMsg, false)] ∨
  (n ≤ s.bytesOf (s.evictables held client s.ptrs) ∧ ∀ x ∈ answers tr, x.2 = true)

/-- No file was removed and the counters are as they were. -/
def Untouched (s s' : FileStorage) : Prop :=
  (∀ a ∈ s.ptrs, a ∈ s'.ptrs) ∧ s'.currFiles = s.currFiles ∧ s'.currBytes = s.currBytes

theorem Without.untouched_iff {s s' : FileStorage} {gone : List Nat}
    (h : Without s s' gone) : Untouched s s' ↔ gone = [] := by
  have hfiles := h.files
  constructor
  · intro h
    obtain ⟨-, hcount, -⟩ := h
    exact List.length_eq_zero_iff.mp (by omega)
  · intro heq
    subst heq
    have hbytes := h.bytes
    refine ⟨fun a ha => by simpa using h.ptrs.mem_iff.mp ha, ?_, ?_⟩
    · simpa using hfiles.symm
    · simpa [bytesOf] using hbytes.symm

/-- The files that may be given up, in either order. -/
theorem evictables_perm {s : FileStorage} {as : List Nat} (h : as.Perm s.ptrs)
    (held : Finset Mutex) (client : Int) :
    (s.evictables held client as).Perm (s.evictables held client s.ptrs) :=
  h.filter _

theorem evictables_eq_nil {s : FileStorage} {as : List Nat} (h : as.Perm s.ptrs)
    {held : Finset Mutex} {client : Int} (hn : s.evictables held client s.ptrs = []) :
    s.evictables held client as = [] := by
  have hp := evictables_perm h held client
  rw [hn] at hp
  exact List.perm_nil.mp hp

theorem bytesOf_perm {s : FileStorage} {as bs : List Nat} (h : as.Perm bs) :
    s.bytesOf as = s.bytesOf bs := (h.map _).sum_eq

theorem bytesOf_le_of_sublist {s : FileStorage} {as bs : List Nat} (h : as.Sublist bs) :
    s.bytesOf as ≤ s.bytesOf bs :=
  (h.map _).sum_le_sum fun _ _ => Nat.zero_le _

end FileStorage

/-- The law for every way the eviction can return. -/
theorem EvictReturn.untouched_iff {s s' : FileStorage} {H : Finset Mutex} {client : Int}
    {n : Nat} {tr : List (Event Mutex)} {r : Int} (hc : client ≠ 0)
    (h : EvictReturn s H client n (answers tr) r s') :
    (r = -1 → Untouched s s') ↔ s.EvictsCleanly H client n tr := by
  have hsame : Untouched s s := ⟨fun _ ha => ha, rfl, rfl⟩
  generalize hans : answers tr = ans at h
  cases h with
  | infeasible hshort =>
      refine ⟨fun _ => ?_, fun _ _ => hsame⟩
      rcases hshort with hlt | hnil
      · exact .inr (.inl hlt)
      · exact .inr (.inr (.inr (.inl (by rw [hnil]; rfl))))
  | unannounced hn hne =>
      exact ⟨fun _ => .inr (.inr (.inr (.inr (.inl hans)))), fun _ _ => hsame⟩
  | refused s' as gone hn hperm hend =>
      rw [hend.without.untouched_iff]
      constructor
      · intro hg
        rw [hg rfl] at hans
        exact .inr (.inr (.inr (.inr (.inr (.inl hans)))))
      · intro h _
        rcases h with h | h | h | h | h | h | ⟨-, h⟩
        · exact absurd h hc
        · omega
        · exact hend.stops h
        · have hpre := hend.isPrefix
          rw [evictables_eq_nil hperm h] at hpre
          exact List.prefix_nil.mp hpre
        · rw [hans] at h
          simp at h
        · rw [hans] at h
          have hlen := congrArg List.length h
          simp only [List.length_cons, List.length_append, List.length_replicate,
            List.length_nil] at hlen
          exact List.length_eq_zero_iff.mp (by omega)
        · have := h (sapiEvictMsg, false) (by simp [hans])
          cases this
  | done s' as gone notices ok hn hperm hend hdone =>
      rw [hend.without.untouched_iff]
      have hle : s.bytesOf gone ≤ s.bytesOf (s.evictables H client s.ptrs) :=
        (bytesOf_le_of_sublist hend.isPrefix.sublist).trans
          (bytesOf_perm (evictables_perm hperm H client)).le
      have hall : gone = s.evictables H client as →
          s.bytesOf gone = s.bytesOf (s.evictables H client s.ptrs) := fun he => by
        rw [he, bytesOf_perm (evictables_perm hperm H client)]
      have hfail : sapiFailure ≠ sapiEvictMsg := by decide
      have hsucc : sapiSuccess ≠ sapiEvictMsg := by decide
      constructor
      · intro hg
        by_cases hret : n ≤ s.bytesOf gone ∧ ok = true
        · refine .inr (.inr (.inr (.inr (.inr (.inr ⟨hret.1.trans hle, ?_⟩)))))
          intro x hx
          rw [hans] at hx
          simp only [List.mem_cons, List.mem_append, List.mem_replicate, List.not_mem_nil,
            or_false] at hx
          rcases hx with rfl | ⟨-, rfl⟩ | rfl
          · rfl
          · rfl
          · exact hret.2
        · rw [if_neg hret] at hg
          have hnil := hg rfl
          subst hnil
          rcases hdone with hz | he
          · have hz : n ≤ 0 := by simpa [bytesOf] using hz
            exact .inr (.inr (.inl (by omega)))
          · refine .inr (.inr (.inr (.inl ?_)))
            have hperm' := evictables_perm hperm H client
            rw [← he] at hperm'
            exact List.perm_nil.mp hperm'.symm
      · intro h hr
        rcases h with h | h | h | h | h | h | ⟨hsuff, h⟩
        · exact absurd h hc
        · omega
        · exact hend.stops h
        · have hpre := hend.isPrefix
          rw [evictables_eq_nil hperm h] at hpre
          exact List.prefix_nil.mp hpre
        · rw [hans] at h
          simp at h
        · -- the last answer is not a notice
          rw [hans] at h
          have hlast := congrArg List.getLast? h
          rw [List.getLast?_cons, List.getLast?_append] at hlast
          simp only [List.getLast?_singleton, Option.some_or, Option.getD_some,
            List.getLast?_cons_cons, Option.some.injEq, Prod.mk.injEq] at hlast
          split at hlast
          · exact absurd hlast.1 hsucc
          · exact absurd hlast.1 hfail
        · exfalso
          have hok : ok = true :=
            h (if n ≤ s.bytesOf gone then sapiSuccess else sapiFailure, ok) (by
              rw [hans]
              simp)
          have hbytes : n ≤ s.bytesOf gone := by
            rcases hdone with hz | he
            · exact hz
            · rw [hall he]
              exact hsuff
          rw [if_pos ⟨hbytes, hok⟩] at hr
          cases hr

/-- Eviction is all or nothing exactly when `EvictsCleanly` says so: whatever
the owners of the files of a reachable storage are, and whatever the client
does with the answers. -/
theorem evict_all_or_nothing {qsort : Qsort Nat} {maxFiles maxBytes n : Nat}
    {w₀ w w' : World FileStorage Mutex} {owner : Nat → Int} {client r : Int}
    {tr : List (Event Mutex)} (hw₀ : Reachable qsort maxFiles maxBytes w₀)
    (hw : w.st = w₀.st.withOwners owner)
    (hr : (serverEvict qsort client n).Runs w tr (.ret r) w') (halone : Alone w.held tr) :
    (r = -1 → Untouched w.st w'.st) ↔ w.st.EvictsCleanly w.held client n tr := by
  have hwf : w.st.WellFormed := hw ▸ hw₀.wellFormed.withOwners owner
  by_cases hc : client = 0
  · have hsame : (serverEvict qsort client n).Ensures w
        fun _ o w' => o = .ret r → Untouched w.st w'.st := by
      rw [serverEvict, ensures_get]
      cases w.st.fuEvictFiles qsort n with
      | none => simp
      | some arr =>
          dsimp only
          split
          · simp [Untouched]
          · simp [serverRespond, hc, Untouched]
    exact ⟨fun _ => .inl hc, fun _ _ => hsame tr _ w' hr rfl⟩
  · exact (serverEvict_return qsort hc n hwf tr _ w' hr r rfl halone).untouched_iff hc

/-- Two stored files of two and three bytes, the second one in use, and an
eviction of four bytes: it gives up the first file and then runs out. -/
theorem evict_two_files : ∃ w₀ w', Reachable Qsort.insertion 4 5 w₀ ∧ w₀.held = ∅ ∧
    (serverEvict Qsort.insertion 5 4).Runs
      { w₀ with st := w₀.st.withOwners fun a => if a = 0 then -1 else 6 }
      [.write (.word sapiEvictMsg) true, .read 8 (some (LittleEndian.encode 8 0)),
        .trylock (.file 1) true, .trylock (.file 0) true, .write (.word sapiFailure) true]
      (.ret (-1)) w' ∧ w₀.st.ptrs = [0, 1] ∧ w'.st.ptrs = [1] := by
  have h₀ : Reachable Qsort.insertion 4 5 ⟨_, ∅⟩ := .init (by decide) (by decide) rfl
  have h₁ := h₀.created 5 [97] rfl
  have h₂ := h₁.written 5 [97] [1, 2] rfl
  have h₃ := h₂.created 5 [98] rfl
  have h₄ := h₃.written 5 [98] [3, 4, 5] rfl
  exact ⟨_, _, h₄, rfl, rfl, rfl, rfl⟩

theorem evict_all_or_nothing_two_files : ∃ (w w' : World FileStorage Mutex)
    (tr : List (Event Mutex)), ((-1 : Int) = -1 → Untouched w.st w'.st) ↔
      w.st.EvictsCleanly w.held 5 4 tr := by
  obtain ⟨w₀, w', hw₀, -, hr, -⟩ := evict_two_files
  exact ⟨_, w', _, evict_all_or_nothing hw₀ rfl hr (by simp [Alone])⟩

/-- An eviction that returns -1 and has removed a file. -/
theorem evict_runs_out : ∃ w₀ w' tr, Reachable Qsort.insertion 4 5 w₀ ∧
    (serverEvict Qsort.insertion 5 4).Runs
      { w₀ with st := w₀.st.withOwners fun a => if a = 0 then -1 else 6 } tr
      (.ret (-1)) w' ∧ Alone w₀.held tr ∧
    ¬ Untouched (w₀.st.withOwners fun a => if a = 0 then -1 else 6) w'.st := by
  obtain ⟨w₀, w', hw₀, -, hr, hptrs, hptrs'⟩ := evict_two_files
  refine ⟨w₀, w', _, hw₀, hr, by simp [Alone], fun hu => ?_⟩
  have hmem : 0 ∈ (w₀.st.withOwners fun a => if a = 0 then -1 else 6).ptrs := by
    show 0 ∈ w₀.st.ptrs
    simp [hptrs]
  have hin := hu.1 0 hmem
  simp [hptrs'] at hin

end LsoStore
