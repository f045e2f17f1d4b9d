import LsoStore.ThreadUtils

/-!
# Many readers or one writer, and no lost wake-up

The three fields of the lock are counts of threads: each section adds to a field
what it adds to the places its thread is counted at. From this and the tests of
the loops come exclusion and the priority of writers, with or without spurious
wake-ups. A sleeper's reason to sleep is the test of its loop, and no section makes
that false without a broadcast.
-/

namespace LsoStore

open Monitor

def isReader (p : MrswPlace) : Bool := decide (p = .out .reader)

def isWriter (p : MrswPlace) : Bool := decide (p = .out .writer)

/-- In `mrsw_lock_writer`, asleep or woken. -/
def waitsToWrite (p : MrswPlace) : Bool := decide (p = .asleep .writer ∨ p = .awake .writer)

/-- Any number of threads with one lock. -/
abbrev MrswThreads (ι : Type) := Threads ι MRSWMutex MrswPlace

abbrev MrswRun {ι : Type} [DecidableEq ι] (spurious : Bool)
    (past : List ((ι × Option MrswSection) × MrswThreads ι)) (c : MrswThreads ι) : Prop :=
  Run (Started MRSWMutex.zero .nothing) (Step mrswCode spurious) past c

section Code

variable {l : MrswSection} {mutex : MRSWMutex} {p : MrswPlace} {o : MrswOutcome}

/-- A lock function ends in its loop, which its thread enters from outside or after a
wait. -/
theorem mrswCode_cases (h : mrswCode l mutex p = some o) :
    ((p = .out .nothing ∨ p = .awake .reader) ∧ o = lockReaderLoop mutex) ∨
      (p = .out .reader ∧ o = mrswUnlockReader mutex) ∨
      (p = .out .nothing ∧ o = mrswLockWriter mutex) ∨
      (p = .awake .writer ∧ o = lockWriterLoop mutex) ∨
      (p = .out .writer ∧ o = mrswUnlockWriter mutex) := by
  unfold mrswCode at h
  split at h
  · cases h
    exact .inl ⟨.inl rfl, rfl⟩
  · cases h
    exact .inr (.inl ⟨rfl, rfl⟩)
  · cases h
    exact .inr (.inr (.inl ⟨rfl, rfl⟩))
  · cases h
    exact .inr (.inr (.inr (.inr ⟨rfl, rfl⟩)))
  · cases h
    exact .inl ⟨.inr rfl, rfl⟩
  · cases h
    exact .inr (.inr (.inr (.inl ⟨rfl, rfl⟩)))
  · cases h

/-- A section adds to each field what it adds to the threads counted there. -/
theorem mrswCode_counts (h : mrswCode l mutex p = some o)
    (hwriter : p = .out .writer → mutex.writing = 1) :
    o.shared.activeReaders + (isReader p).toNat =
        mutex.activeReaders + (isReader o.place).toNat ∧
      o.shared.waitingWriters + (waitsToWrite p).toNat =
        mutex.waitingWriters + (waitsToWrite o.place).toNat ∧
      o.shared.writing + (isWriter p).toNat = mutex.writing + (isWriter o.place).toNat := by
  rcases mrswCode_cases h with ⟨hp, rfl⟩ | ⟨rfl, rfl⟩ | ⟨rfl, rfl⟩ | ⟨rfl, rfl⟩ | ⟨rfl, rfl⟩
  · rw [lockReaderLoop]
    rcases hp with rfl | rfl <;> split <;> simp [isReader, isWriter, waitsToWrite]
  · simp [mrswUnlockReader, isReader, isWriter, waitsToWrite]
  · rw [mrswLockWriter, lockWriterLoop]
    split
    · simp [isReader, isWriter, waitsToWrite]
    · next htest => simp_all [isReader, isWriter, waitsToWrite]
  · rw [lockWriterLoop]
    split
    · simp [isReader, isWriter, waitsToWrite]
    · next htest => simp_all [isReader, isWriter, waitsToWrite]
  · simp [mrswUnlockWriter, hwriter rfl, isReader, isWriter, waitsToWrite]

/-- A section lets no reader and no second writer in beside a writer. -/
theorem mrswCode_excludes (h : mrswCode l mutex p = some o)
    (hreader : p = .out .reader → 0 < mutex.activeReaders) (hone : mutex.writing ≤ 1)
    (halone : mutex.writing = 0 ∨ mutex.activeReaders = 0) :
    o.shared.writing ≤ 1 ∧ (o.shared.writing = 0 ∨ o.shared.activeReaders = 0) := by
  rcases mrswCode_cases h with ⟨-, rfl⟩ | ⟨rfl, rfl⟩ | ⟨-, rfl⟩ | ⟨-, rfl⟩ | ⟨-, rfl⟩
  · rw [lockReaderLoop]
    split
    · exact ⟨hone, halone⟩
    · next htest =>
        rw [not_or, not_not, not_not] at htest
        exact ⟨hone, .inl htest.2⟩
  · have hpos := hreader rfl
    exact ⟨hone, .inl (halone.resolve_right (by omega))⟩
  · rw [mrswLockWriter, lockWriterLoop]
    split
    · exact ⟨hone, halone⟩
    · next htest =>
        rw [not_or, not_not, not_not] at htest
        exact ⟨Int.le_refl 1, .inr htest.1⟩
  · rw [lockWriterLoop]
    split
    · exact ⟨hone, halone⟩
    · next htest =>
        rw [not_or, not_not, not_not] at htest
        exact ⟨Int.le_refl 1, .inr htest.1⟩
  · exact ⟨Int.zero_le_ofNat 1, .inl rfl⟩

/-- A thread that comes to hold the lock as a reader finds no writer waiting. -/
theorem mrswCode_admits (h : mrswCode l mutex p = some o) (hp : p ≠ .out .reader)
    (ho : o.place = .out .reader) : mutex.waitingWriters = 0 := by
  rcases mrswCode_cases h with ⟨-, rfl⟩ | ⟨rfl, rfl⟩ | ⟨-, rfl⟩ | ⟨-, rfl⟩ | ⟨-, rfl⟩
  · rw [lockReaderLoop] at ho
    split at ho
    · cases ho
    · next htest =>
        rw [not_or, not_not, not_not] at htest
        exact htest.1
  · exact absurd rfl hp
  · rw [mrswLockWriter, lockWriterLoop] at ho
    split at ho <;> cases ho
  · rw [lockWriterLoop] at ho
    split at ho <;> cases ho
  · cases ho

/-- The tests of the two loops. -/
def lockReason : LockKind → MRSWMutex → Prop
  | .reader, mutex => mutex.waitingWriters ≠ 0 ∨ mutex.writing ≠ 0
  | .writer, mutex => mutex.activeReaders ≠ 0 ∨ mutex.writing ≠ 0

theorem mrswCode_reason (h : mrswCode l mutex p = some o) (hactive : 0 ≤ mutex.activeReaders)
    (hwaiting : 0 ≤ mutex.waitingWriters) :
    (o.broadcast = false → ∀ w, lockReason w mutex → lockReason w o.shared) ∧
      ∀ w, o.place = .asleep w → lockReason w o.shared := by
  rcases mrswCode_cases h with ⟨-, rfl⟩ | ⟨-, rfl⟩ | ⟨-, rfl⟩ | ⟨-, rfl⟩ | ⟨-, rfl⟩
  · rw [lockReaderLoop]
    split
    · next htest =>
        refine ⟨fun _ _ hw => hw, fun w hw => ?_⟩
        cases hw
        exact htest
    · refine ⟨fun _ w hw => ?_, fun w hw => by cases hw⟩
      cases w with
      | reader => exact hw
      | writer =>
          -- one more reader than before, and there were not less than none
          refine .inl ?_
          show mutex.activeReaders + 1 ≠ 0
          omega
  · refine ⟨fun hquiet w hw => ?_, fun w hw => by cases hw⟩
    cases w with
    | reader => exact hw
    | writer => exact .inl (of_decide_eq_false hquiet)
  · rw [mrswLockWriter, lockWriterLoop]
    split
    · next htest =>
        refine ⟨fun _ w hw => ?_, fun w hw => ?_⟩
        · cases w with
          | reader =>
              refine .inl ?_
              show mutex.waitingWriters + 1 ≠ 0
              omega
          | writer => exact hw
        · cases hw
          exact htest
    · exact ⟨fun _ w _ => by cases w <;> exact .inr Int.one_ne_zero, fun w hw => by cases hw⟩
  · rw [lockWriterLoop]
    split
    · next htest =>
        refine ⟨fun _ _ hw => hw, fun w hw => ?_⟩
        cases hw
        exact htest
    · exact ⟨fun _ w _ => by cases w <;> exact .inr Int.one_ne_zero, fun w hw => by cases hw⟩
  · refine ⟨fun hquiet => ?_, fun w hw => ?_⟩
    · cases hquiet
    · cases hw

end Code

section Runs

variable {ι : Type} [Fintype ι] {spurious : Bool} {c c' : MrswThreads ι}
  {past : List ((ι × Option MrswSection) × MrswThreads ι)} {l : ι × Option MrswSection}

theorem isReader_wake (p : MrswPlace) : isReader (wake p) = isReader p := by
  cases p <;> rfl

theorem isWriter_wake (p : MrswPlace) : isWriter (wake p) = isWriter p := by
  cases p <;> rfl

theorem waitsToWrite_wake (p : MrswPlace) : waitsToWrite (wake p) = waitsToWrite p := by
  cases p with
  | out t => rfl
  | asleep w => cases w <;> rfl
  | awake w => rfl

/-- The fields are counts of threads, and a writer is alone. -/
structure ThreadsCounted (c : MrswThreads ι) : Prop where
  activeReaders : c.shared.activeReaders = count isReader c
  waitingWriters : c.shared.waitingWriters = count waitsToWrite c
  writing : c.shared.writing = count isWriter c
  one : c.shared.writing ≤ 1
  alone : c.shared.writing = 0 ∨ c.shared.activeReaders = 0

theorem ThreadsCounted.started (h : Started MRSWMutex.zero .nothing c) : ThreadsCounted c := by
  have hshared : c.shared = MRSWMutex.zero := by rw [h]
  constructor
  · rw [hshared, count_started h rfl]
    rfl
  · rw [hshared, count_started h rfl]
    rfl
  · rw [hshared, count_started h rfl]
    rfl
  · rw [hshared]
    decide
  · rw [hshared]
    exact .inl rfl

/-- A thread that holds the lock as the one writer is counted. -/
theorem ThreadsCounted.writing_eq_one (h : ThreadsCounted c) {i : ι}
    (hi : c.stage i = .out .writer) : c.shared.writing = 1 := by
  have hpos : 0 < count isWriter c := count_pos.mpr ⟨i, by rw [hi]; rfl⟩
  have hone := h.one
  have heq := h.writing
  omega

theorem ThreadsCounted.activeReaders_pos (h : ThreadsCounted c) {i : ι}
    (hi : c.stage i = .out .reader) : 0 < c.shared.activeReaders := by
  have hpos : 0 < count isReader c := count_pos.mpr ⟨i, by rw [hi]; rfl⟩
  have heq := h.activeReaders
  omega

variable [DecidableEq ι]

theorem ThreadsCounted.step (h : ThreadsCounted c) (hs : Step mrswCode spurious c l c') :
    ThreadsCounted c' := by
  cases hs with
  | runs i l o hrun =>
      obtain ⟨hactive, hwaiting, hwriting⟩ := mrswCode_counts hrun h.writing_eq_one
      obtain ⟨hone, halone⟩ :=
        mrswCode_excludes hrun h.activeReaders_pos h.one h.alone
      have hreaders := count_after isReader_wake c i o
      have hwaiters := count_after waitsToWrite_wake c i o
      have hwriters := count_after isWriter_wake c i o
      have h₁ := h.activeReaders
      have h₂ := h.waitingWriters
      have h₃ := h.writing
      constructor
      · show o.shared.activeReaders = _
        omega
      · show o.shared.waitingWriters = _
        omega
      · show o.shared.writing = _
        omega
      · exact hone
      · exact halone
  | wakes i w hspur hi =>
      constructor
      · rw [count_wakes isReader_wake c hi]
        exact h.activeReaders
      · rw [count_wakes waitsToWrite_wake c hi]
        exact h.waitingWriters
      · rw [count_wakes isWriter_wake c hi]
        exact h.writing
      · exact h.one
      · exact h.alone

theorem ThreadsCounted.of_run (h : MrswRun spurious past c) : ThreadsCounted c :=
  h.always (fun _ => .started) (fun _ _ _ => .step) c (mem_visited_self past c)

theorem hasReason_of_run (h : MrswRun spurious past c) : HasReason lockReason c := by
  have hboth := h.always (I := fun c => ThreadsCounted c ∧ HasReason lockReason c)
    (fun c hc => ⟨.started hc, hasReason_started hc⟩)
    (fun c l c' hc hs => ⟨hc.1.step hs, hc.2.step hs fun i l o hrun =>
      mrswCode_reason hrun (by have := hc.1.activeReaders; omega)
        (by have := hc.1.waitingWriters; omega)⟩)
  exact (hboth c (mem_visited_self past c)).2

/-- What a thread that holds the lock can rely on. -/
theorem readers_writer_exclusion (h : MrswRun spurious past c) :
    c.shared.activeReaders = count isReader c ∧
      c.shared.writing = (if count isWriter c = 1 then 1 else 0) ∧
      count isWriter c ≤ 1 ∧
      (0 < count isWriter c → count isReader c = 0) ∧
      c.shared.waitingWriters = count waitsToWrite c ∧
      ∀ l c', Step mrswCode spurious c l c' → 0 < c.shared.waitingWriters →
        ∀ i, c'.stage i = .out .reader → c.stage i = .out .reader := by
  have hc := ThreadsCounted.of_run h
  have h₁ := hc.activeReaders
  have h₂ := hc.writing
  have h₃ := hc.one
  have h₄ := hc.alone
  refine ⟨h₁, ?_, by omega, by omega, hc.waitingWriters, ?_⟩
  · split <;> omega
  · intro l c' hs hwaiting i hi
    cases hs with
    | runs j l o hrun =>
        refine Classical.byContradiction fun hnew => ?_
        rw [after] at hi
        dsimp only at hi
        rcases eq_or_ne i j with rfl | hne
        · rw [Function.update_self] at hi
          have hzero := mrswCode_admits hrun hnew hi
          omega
        · rw [Function.update_of_ne hne] at hi
          split at hi
          · rw [Function.comp_apply] at hi
            cases hst : c.stage i <;> rw [hst] at hi hnew <;> cases hi
            exact hnew rfl
          · exact hnew hi
    | wakes j w hspur hj =>
        dsimp only at hi
        rcases eq_or_ne i j with rfl | hne
        · rw [Function.update_self] at hi
          cases hi
        · rwa [Function.update_of_ne hne] at hi

/-- A reader holds the lock, and a writer has come after it. -/
def readerThenWriter : MrswThreads Bool where
  shared := ⟨1, 1, 0⟩
  stage i := if i then .asleep .writer else .out .reader

theorem readerThenWriter_run (spurious : Bool) :
    ∃ past, MrswRun spurious past readerThenWriter := by
  let start : MrswThreads Bool := ⟨MRSWMutex.zero, fun _ => .out .nothing⟩
  let reading := after start false (mrswLockReader MRSWMutex.zero)
  have hread : MrswRun spurious [((false, some .lockReader), start)] reading :=
    .step [] start reading _ (.init start rfl) (.runs start false MrswSection.lockReader _ rfl)
  have hwrite := hread.step _ _ _ _ (.runs reading true MrswSection.lockWriter _ rfl)
  have hend : after reading true (mrswLockWriter ⟨1, 0, 0⟩) = readerThenWriter := by
    rw [after, readerThenWriter]
    congr 1
    funext i
    cases i <;> rfl
  exact ⟨_, hend ▸ hwrite⟩

theorem readers_writer_exclusion_two :
    count isReader readerThenWriter = 1 ∧ count isWriter readerThenWriter ≤ 1 := by
  obtain ⟨past, hrun⟩ := readerThenWriter_run true
  obtain ⟨hreaders, -, hwriters, -⟩ := readers_writer_exclusion hrun
  exact ⟨Int.ofNat.inj hreaders.symm, hwriters⟩

/-- A thread that sleeps waits for one that holds the lock or for one that was woken. -/
theorem readers_writer_wakes (h : MrswRun spurious past c)
    (hsleeps : ∃ i w, c.stage i = .asleep w) :
    0 < c.shared.activeReaders ∨ c.shared.writing = 1 ∨ ∃ i w, c.stage i = .awake w := by
  have hc := ThreadsCounted.of_run h
  have hreason := hasReason_of_run h
  have h₁ := hc.activeReaders
  have h₂ := hc.writing
  have h₃ := hc.one
  -- a writer that sleeps
  have hwriter : ∀ i, c.stage i = .asleep .writer →
      0 < c.shared.activeReaders ∨ c.shared.writing = 1 := by
    intro i hi
    rcases hreason i .writer hi with hactive | hwriting
    · exact .inl (by omega)
    · exact .inr (by omega)
  obtain ⟨i, w, hi⟩ := hsleeps
  cases w with
  | writer => exact (hwriter i hi).imp_right .inl
  | reader =>
      rcases hreason i .reader hi with hwaiting | hwriting
      · have hpos : 0 < count waitsToWrite c := by
          have := hc.waitingWriters
          omega
        obtain ⟨j, hj⟩ := count_pos.mp hpos
        rcases of_decide_eq_true hj with hasleep | hawake
        · exact (hwriter j hasleep).imp_right .inl
        · exact .inr (.inr ⟨j, .writer, hawake⟩)
      · exact .inr (.inl (by omega))

theorem readers_writer_wakes_two :
    0 < readerThenWriter.shared.activeReaders ∨ readerThenWriter.shared.writing = 1 ∨
      ∃ i w, readerThenWriter.stage i = .awake w := by
  obtain ⟨past, hrun⟩ := readerThenWriter_run false
  exact readers_writer_wakes hrun ⟨true, .writer, rfl⟩

end Runs

end LsoStore
