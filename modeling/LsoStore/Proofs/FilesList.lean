import LsoStore.Client
import LsoStore.Lib.Runs
import Mathlib.Data.BitVec
import Mathlib.Tactic.Ring

/-!
# What the loops over lists of files leave behind

`write_files_list` goes on with the next file as soon as a call for one fails,
so a file that could be opened and not written is never closed by its round.
`read_files_list` always closes. It adds up what its calls answer instead, and
a failed `readFile` counts 1 there while every other failure counts -1: the sum
is the difference of two numbers of failures.
-/

namespace LsoStore

namespace Answer

@[simp] theorem done_value : done.value = 0 := rfl

@[simp] theorem failed_value : failed.value = -1 := rfl

theorem value_ne_zero {a : Answer} : a.value ≠ 0 ↔ a = failed := by
  cases a with
  | done => simp
  | failed => simp

/-- How many failures an answer is. -/
def failures : Answer → Nat
  | done => 0
  | failed => 1

theorem ne_failed {a : Answer} : a ≠ failed ↔ a = done := by
  cases a with
  | done => simp
  | failed => simp

theorem failures_eq_zero {a : Answer} : a.failures = 0 ↔ a = done := by
  cases a with
  | done => simp [failures]
  | failed => simp [failures]

@[simp] theorem done_failures : done.failures = 0 := rfl

@[simp] theorem failed_failures : failed.failures = 1 := rfl

theorem value_eq (a : Answer) : a.value = -(a.failures : BitVec 32) := by
  cases a with
  | done => simp
  | failed => simp

end Answer

/-! ## Files left open -/

/-- Whenever a path was opened, it is passed to `closeFile` later on. -/
def Calls.LeavesNothingOpen (calls : Calls) : Prop :=
  ∀ front call behind, calls = front ++ call :: behind →
    ∀ path flags, call = (.openFile path flags, .done) →
      ∃ answer, (ClientCall.closeFile path, answer) ∈ behind

namespace Calls

variable {calls : Calls} {call : ClientCall × Answer} {path : List UInt8} {flags : BitVec 32}

theorem leavesNothingOpen_nil : LeavesNothingOpen [] := forall_suffix_nil

/-- A call that opens nothing does not matter. -/
theorem leavesNothingOpen_cons_of_ne
    (h : ∀ path flags, call ≠ (ClientCall.openFile path flags, Answer.done)) :
    LeavesNothingOpen (call :: calls) ↔ LeavesNothingOpen calls :=
  forall_suffix_cons.trans (and_iff_right fun path flags heq => absurd heq (h path flags))

theorem leavesNothingOpen_cons_open :
    LeavesNothingOpen ((.openFile path flags, .done) :: calls) ↔
      (∃ answer, (ClientCall.closeFile path, answer) ∈ calls) ∧ LeavesNothingOpen calls := by
  refine forall_suffix_cons.trans (and_congr_left' ⟨fun h => h path flags rfl, ?_⟩)
  intro h path' flags' heq
  injection heq with heq _
  injection heq with hpath _
  exact hpath ▸ h

end Calls

namespace FileToWrite

/-- It was opened, and no `writeFile` failed. -/
def Written (f : FileToWrite) : Prop := f.openFile = .done ∧ f.writeFile = .done

/-- It was opened and could not be written. -/
def Stuck (f : FileToWrite) : Prop := f.openFile = .done ∧ f.writeFile = .failed

/-- The calls of one round. -/
def calls (wbdir : Option (List UInt8)) (f : FileToWrite) : Calls :=
  (.openFile f.path (oCreate.zeroExtend 32), f.openFile) ::
    if f.openFile = .failed then []
    else
      (.writeFile f.path wbdir, f.writeFile) ::
        if f.writeFile = .failed then [] else [(.closeFile f.path, f.closeFile)]

end FileToWrite

theorem writeFilesLoop_calls (wbdir : Option (List UInt8)) (files : List FileToWrite)
    (res : BitVec 32) :
    (writeFilesLoop wbdir files res).2 = files.flatMap (FileToWrite.calls wbdir) := by
  induction files generalizing res with
  | nil => rfl
  | cons f rest ih =>
      rw [writeFilesLoop, List.flatMap_cons, FileToWrite.calls]
      simp only [Answer.value_ne_zero]
      split
      · rw [← ih 1]
        rfl
      · split
        · rw [← ih 1]
          rfl
        · rw [← ih]
          rfl

theorem writeFilesList_calls (wbdir : Option (List UInt8)) (files : List FileToWrite) :
    (writeFilesList wbdir files).2 = files.flatMap (FileToWrite.calls wbdir) :=
  writeFilesLoop_calls wbdir files 0

/-- Only a file that was written is closed. -/
theorem closeFile_mem_calls {wbdir : Option (List UInt8)} {files : List FileToWrite}
    {path : List UInt8} :
    (∃ answer, (ClientCall.closeFile path, answer) ∈ files.flatMap (FileToWrite.calls wbdir)) ↔
      ∃ f ∈ files, f.path = path ∧ f.Written := by
  simp only [List.mem_flatMap]
  constructor
  · intro h
    obtain ⟨answer, f, hf, hcall⟩ := h
    refine ⟨f, hf, ?_⟩
    rw [FileToWrite.calls] at hcall
    split at hcall
    · simp at hcall
    · next hopen =>
        split at hcall
        · simp at hcall
        · next hwrite =>
            simp only [List.mem_cons, Prod.mk.injEq, reduceCtorEq, false_and, false_or,
              List.not_mem_nil, or_false, ClientCall.closeFile.injEq] at hcall
            exact ⟨hcall.1.symm, Answer.ne_failed.mp hopen, Answer.ne_failed.mp hwrite⟩
  · intro h
    obtain ⟨f, hf, rfl, hopened, hwritten⟩ := h
    refine ⟨f.closeFile, f, hf, ?_⟩
    simp [FileToWrite.calls, hopened, hwritten]

/-- A file that is opened and not written stays open, unless the list has its path
once more, further on, and writes it then. -/
theorem files_closed_iff (wbdir : Option (List UInt8)) (files : List FileToWrite) :
    (writeFilesList wbdir files).2.LeavesNothingOpen ↔
      ∀ front f behind, files = front ++ f :: behind → f.Stuck →
        ∃ f' ∈ behind, f'.path = f.path ∧ f'.Written := by
  rw [writeFilesList_calls]
  induction files with
  | nil => exact iff_of_true Calls.leavesNothingOpen_nil forall_suffix_nil
  | cons f rest ih =>
      refine Iff.trans ?_ forall_suffix_cons.symm
      rw [← ih, List.flatMap_cons, FileToWrite.calls]
      cases hopen : f.openFile with
      | failed =>
          have hnot : ¬ f.Stuck := fun h => by simp [FileToWrite.Stuck, hopen] at h
          rw [if_pos rfl, List.cons_append, List.nil_append,
            Calls.leavesNothingOpen_cons_of_ne (by simp)]
          exact (and_iff_right fun h => absurd h hnot).symm
      | done =>
          rw [if_neg (by simp), List.cons_append, List.cons_append,
            Calls.leavesNothingOpen_cons_open, Calls.leavesNothingOpen_cons_of_ne (by simp)]
          cases hwrite : f.writeFile with
          | failed =>
              have hstuck : f.Stuck := ⟨hopen, hwrite⟩
              rw [if_pos rfl, List.nil_append]
              refine and_congr_left' ?_
              rw [← @closeFile_mem_calls wbdir]
              simp [hstuck]
          | done =>
              have hnot : ¬ f.Stuck := fun h => by simp [FileToWrite.Stuck, hwrite] at h
              rw [if_neg (by simp), List.cons_append, List.nil_append,
                Calls.leavesNothingOpen_cons_of_ne (by simp)]
              refine and_congr_left' (iff_of_true ⟨f.closeFile, ?_⟩ fun h => absurd h hnot)
              simp

/-- One file that can be opened and not written. -/
theorem file_left_open :
    ¬ (writeFilesList none [⟨[97], .done, .failed, .done⟩]).2.LeavesNothingOpen := by
  intro h
  obtain ⟨answer, hclose⟩ := h [] _ _ rfl [97] (oCreate.zeroExtend 32) rfl
  simp at hclose

/-! ## The rounds of `read_files_list` -/

namespace FileToRead

/-- The calls of one round. -/
def calls (destdir : Option (List UInt8)) (f : FileToRead) : Calls :=
  (.openFile f.path 0, f.openFile) :: (.readFile f.path, f.readFile) ::
    ((if f.readFile = .done then [(.fuWriteToPath (destdir.getD [] ++ f.path), f.fuWriteToPath)]
      else []) ++ [(.closeFile f.path, f.closeFile)])

end FileToRead

theorem appendChars_of_le {string : List UInt8} {literal : Option (List UInt8)}
    (h : string.length + (literal.getD []).length < muLimit) :
    appendChars string literal = some (string ++ literal.getD []) := by
  cases literal with
  | none => simp [appendChars]
  | some literal =>
      rw [Option.getD_some] at h ⊢
      rw [appendChars]
      split
      · next hnil => rw [List.eq_nil_of_length_eq_zero hnil, List.append_nil]
      · rw [if_neg (by omega)]

theorem appendChars_eq_some {string result : List UInt8} {literal : Option (List UInt8)}
    (h : appendChars string literal = some result) : result = string ++ literal.getD [] := by
  cases literal with
  | none =>
      cases h
      simp
  | some literal =>
      rw [appendChars] at h
      split at h
      · next hnil =>
          cases h
          rw [Option.getD_some, List.eq_nil_of_length_eq_zero hnil, List.append_nil]
      · split at h
        · cases h
        · cases h
          rfl

theorem readFilesLoop_calls {destdir : Option (List UInt8)} {files : List FileToRead}
    {res r : BitVec 32} {calls : Calls}
    (h : readFilesLoop destdir files res [] = some (r, calls)) :
    calls = files.flatMap (FileToRead.calls destdir) := by
  induction files generalizing res calls with
  | nil =>
      cases h
      rfl
  | cons f rest ih =>
      rw [List.flatMap_cons, FileToRead.calls]
      rw [readFilesLoop] at h
      dsimp only at h
      split at h
      · next hread =>
          obtain ⟨x, hloop, heq⟩ := Option.map_eq_some_iff.mp h
          cases heq
          rw [← ih hloop, Answer.value_ne_zero.mp hread]
          rfl
      · next hread =>
          obtain ⟨temp, htemp, h⟩ := Option.bind_eq_some_iff.mp h
          obtain ⟨x, hloop, heq⟩ := Option.map_eq_some_iff.mp h
          cases heq
          obtain ⟨dir, hdir, hpath⟩ := Option.bind_eq_some_iff.mp htemp
          rw [Answer.value_ne_zero] at hread
          rw [← ih hloop, Answer.ne_failed.mp hread, appendChars_eq_some hpath,
            appendChars_eq_some hdir]
          rfl

/-- Whatever fails, every file of the list is closed. -/
theorem read_files_closed {destdir : Option (List UInt8)} {files : List FileToRead}
    {r : BitVec 32} {calls : Calls} (h : readFilesList destdir files = some (r, calls)) :
    calls.LeavesNothingOpen := by
  obtain ⟨⟨res, calls⟩, hloop, heq⟩ := Option.map_eq_some_iff.mp h
  cases heq
  rw [readFilesLoop_calls hloop]
  clear hloop h
  induction files with
  | nil => exact Calls.leavesNothingOpen_nil
  | cons f rest ih =>
      rw [List.flatMap_cons, FileToRead.calls]
      have hclosed : Calls.LeavesNothingOpen ((.readFile f.path, f.readFile) ::
          ((if f.readFile = .done then
            [(.fuWriteToPath (destdir.getD [] ++ f.path), f.fuWriteToPath)] else []) ++
            [(.closeFile f.path, f.closeFile)]) ++ rest.flatMap (FileToRead.calls destdir)) := by
        rw [List.cons_append, List.append_assoc, Calls.leavesNothingOpen_cons_of_ne (by simp)]
        split
        · rw [List.cons_append, List.nil_append, Calls.leavesNothingOpen_cons_of_ne (by simp),
            List.cons_append, List.nil_append, Calls.leavesNothingOpen_cons_of_ne (by simp)]
          exact ih
        · rw [List.nil_append, List.cons_append, List.nil_append,
            Calls.leavesNothingOpen_cons_of_ne (by simp)]
          exact ih
      cases hopen : f.openFile with
      | failed =>
          rw [List.cons_append, Calls.leavesNothingOpen_cons_of_ne (by simp)]
          exact hclosed
      | done =>
          rw [List.cons_append, Calls.leavesNothingOpen_cons_open]
          refine ⟨⟨f.closeFile, ?_⟩, hclosed⟩
          simp

/-- The process exits over nothing but a path that is too long. -/
theorem readFilesList_returns {destdir : Option (List UInt8)} {files : List FileToRead}
    (h : ∀ f ∈ files, (destdir.getD []).length + f.path.length < muLimit) :
    ∃ r calls, readFilesList destdir files = some (r, calls) := by
  suffices hloop : ∀ res, ∃ x, readFilesLoop destdir files res [] = some x by
    obtain ⟨x, hx⟩ := hloop 0
    exact ⟨_, x.2, by rw [readFilesList, hx, Option.map_some]⟩
  induction files with
  | nil => exact fun res => ⟨(res, []), rfl⟩
  | cons f rest ih =>
      intro res
      rw [List.forall_mem_cons] at h
      rw [readFilesLoop]
      dsimp only
      split
      · obtain ⟨x, hx⟩ := ih h.2 (res + f.openFile.value + 1 + f.closeFile.value)
        exact ⟨_, by rw [hx, Option.map_some]⟩
      · have hdir : appendChars [] destdir = some (destdir.getD []) := by
          rw [appendChars_of_le (by rw [List.length_nil]; omega), List.nil_append]
        have hpath := @appendChars_of_le _ (some f.path) h.1
        obtain ⟨x, hx⟩ :=
          ih h.2 (res + f.openFile.value + f.fuWriteToPath.value + f.closeFile.value)
        rw [hdir, Option.bind_some, hpath, Option.bind_some, hx, Option.map_some]
        exact ⟨_, rfl⟩

/-! ## What is reported -/

namespace FileToRead

/-- All calls made for the file answered 0. -/
def Succeeds (f : FileToRead) : Prop :=
  f.openFile = .done ∧ f.readFile = .done ∧ f.fuWriteToPath = .done ∧ f.closeFile = .done

/-- The failures that are counted as -1. -/
def otherFailures (f : FileToRead) : Nat :=
  f.openFile.failures + (if f.readFile = .done then f.fuWriteToPath.failures else 0) +
    f.closeFile.failures

end FileToRead

/-- How many calls of `readFile` fail. -/
def failedReads (files : List FileToRead) : Nat :=
  (files.map fun f => f.readFile.failures).sum

/-- How many of the other calls fail. -/
def otherFailures (files : List FileToRead) : Nat := (files.map FileToRead.otherFailures).sum

theorem otherFailures_eq_zero {f : FileToRead} :
    f.readFile.failures = 0 ∧ f.otherFailures = 0 ↔ f.Succeeds := by
  rw [FileToRead.otherFailures, FileToRead.Succeeds, Answer.failures_eq_zero]
  by_cases hread : f.readFile = .done
  · simp [hread, Nat.add_eq_zero_iff, Answer.failures_eq_zero, and_assoc]
  · simp [hread]

/-- The sum is the number of failed reads less the number of the other failures. -/
theorem readFilesLoop_sum {destdir : Option (List UInt8)} {files : List FileToRead}
    {res r : BitVec 32} {temp : List UInt8} {calls : Calls}
    (h : readFilesLoop destdir files res temp = some (r, calls)) :
    r = res + (failedReads files : BitVec 32) - (otherFailures files : BitVec 32) := by
  induction files generalizing res temp calls with
  | nil =>
      cases h
      simp [failedReads, otherFailures]
  | cons f rest ih =>
      have hreads : failedReads (f :: rest) = f.readFile.failures + failedReads rest := rfl
      have hother : otherFailures (f :: rest) = f.otherFailures + otherFailures rest := rfl
      rw [hreads, hother, FileToRead.otherFailures]
      rw [readFilesLoop] at h
      dsimp only at h
      split at h
      · next hread =>
          obtain ⟨x, hloop, heq⟩ := Option.map_eq_some_iff.mp h
          cases heq
          rw [ih hloop, Answer.value_ne_zero.mp hread, Answer.value_eq, Answer.value_eq]
          simp only [Answer.failed_failures, reduceCtorEq, if_false, Nat.add_zero]
          push_cast
          ring
      · next hread =>
          obtain ⟨temp, -, h⟩ := Option.bind_eq_some_iff.mp h
          obtain ⟨x, hloop, heq⟩ := Option.map_eq_some_iff.mp h
          cases heq
          rw [Answer.value_ne_zero] at hread
          rw [ih hloop, Answer.ne_failed.mp hread, Answer.value_eq, Answer.value_eq,
            Answer.value_eq]
          simp only [Answer.done_failures, if_true, Nat.zero_add]
          push_cast
          ring

theorem natCast_sub_eq_zero {m n : Nat} :
    (m : BitVec 32) - (n : BitVec 32) = 0 ↔ m % 2 ^ 32 = n % 2 ^ 32 := by
  rw [sub_eq_zero, BitVec.natCast_eq_ofNat, BitVec.natCast_eq_ofNat, ← BitVec.toNat_inj,
    BitVec.toNat_ofNat, BitVec.toNat_ofNat]

/-- The result is 0 exactly when the two numbers of failures agree, as far as an
`int` can tell them apart. -/
theorem readFilesList_eq_zero {destdir : Option (List UInt8)} {files : List FileToRead}
    {r : BitVec 32} {calls : Calls} (h : readFilesList destdir files = some (r, calls)) :
    r = 0 ↔ failedReads files % 2 ^ 32 = otherFailures files % 2 ^ 32 := by
  obtain ⟨⟨res, calls⟩, hloop, heq⟩ := Option.map_eq_some_iff.mp h
  cases heq
  rw [← natCast_sub_eq_zero, readFilesLoop_sum hloop, zero_add]
  split
  · next hne => exact iff_of_false (by decide) hne
  · next heq => exact iff_of_true rfl (not_not.mp heq)

theorem all_succeed_iff {files : List FileToRead} :
    (∀ f ∈ files, f.Succeeds) ↔ failedReads files = 0 ∧ otherFailures files = 0 := by
  induction files with
  | nil => simp [failedReads, otherFailures]
  | cons f rest ih =>
      have hreads : failedReads (f :: rest) = f.readFile.failures + failedReads rest := rfl
      have hother : otherFailures (f :: rest) = f.otherFailures + otherFailures rest := rfl
      rw [List.forall_mem_cons, ih, ← otherFailures_eq_zero, hreads, hother]
      omega

/-- What it reports is right unless there are failures and the failed reads make up
for the others. -/
theorem read_reports_iff {destdir : Option (List UInt8)} {files : List FileToRead}
    {r : BitVec 32} {calls : Calls} (h : readFilesList destdir files = some (r, calls)) :
    (r = 0 ↔ ∀ f ∈ files, f.Succeeds) ↔
      (∀ f ∈ files, f.Succeeds) ∨ failedReads files % 2 ^ 32 ≠ otherFailures files % 2 ^ 32 := by
  rw [readFilesList_eq_zero h, all_succeed_iff]
  constructor
  · intro hiff
    by_cases heq : failedReads files % 2 ^ 32 = otherFailures files % 2 ^ 32
    · exact .inl (hiff.mp heq)
    · exact .inr heq
  · intro h
    rcases h with ⟨hreads, hother⟩ | hne
    · rw [hreads, hother]
      simp
    · refine iff_of_false hne fun ⟨hreads, hother⟩ => hne ?_
      rw [hreads, hother]

/-- A file that cannot be read, after two calls that answered 0, is reported. -/
theorem read_reports_one :
    (-1 = (0 : BitVec 32) ↔
        ∀ f ∈ [(⟨[97], .done, .failed, .done, .done⟩ : FileToRead)], f.Succeeds) ↔
      (∀ f ∈ [(⟨[97], .done, .failed, .done, .done⟩ : FileToRead)], f.Succeeds) ∨
        failedReads [⟨[97], .done, .failed, .done, .done⟩] % 2 ^ 32 ≠
          otherFailures [⟨[97], .done, .failed, .done, .done⟩] % 2 ^ 32 :=
  @read_reports_iff none _ _ _ rfl

/-- One that can be neither opened nor read is not. -/
theorem read_unreported :
    (readFilesList none [⟨[97], .failed, .failed, .done, .done⟩]).map Prod.fst = some 0 ∧
      ¬ ∀ f ∈ [(⟨[97], .failed, .failed, .done, .done⟩ : FileToRead)], f.Succeeds := by
  refine ⟨rfl, fun h => ?_⟩
  have hopened := (h _ (List.mem_singleton_self _)).1
  cases hopened

end LsoStore
