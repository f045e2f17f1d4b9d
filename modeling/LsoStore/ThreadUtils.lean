import LsoStore.Lib.Monitor

/-!
# The lock for many readers or one writer

`MRSW_mutex` of `thread_utils.c` and its four functions. Each takes the inner mutex
on entry and gives it up where it returns or sleeps in `cond_wait`, which stands in
the loop of the two lock functions; so a loop's test is the start of the section
that comes after a wait as well as part of the first one. The functions are given a
lock, not a null pointer.

What the functions do does not depend on the thread that calls them. A thread that
takes the lock again before it has given it back is two of the threads here. The
`int` fields count threads, and do not overflow.
-/

namespace LsoStore

structure MRSWMutex where
  activeReaders : Int
  waitingWriters : Int
  writing : Int
deriving DecidableEq

/-- As the fields are at first. -/
def MRSWMutex.zero : MRSWMutex := ⟨0, 0, 0⟩

/-- How a thread outside of the functions holds the lock. -/
inductive Holds where
  | nothing
  | reader
  | writer
deriving DecidableEq

/-- The function a thread sleeps in. -/
inductive LockKind where
  | reader
  | writer
deriving DecidableEq

abbrev MrswPlace := Place Holds LockKind

abbrev MrswOutcome := Outcome MRSWMutex Holds LockKind

/-- `mrsw_lock_reader` from the test of its loop on. -/
def lockReaderLoop (mutex : MRSWMutex) : MrswOutcome :=
  if mutex.waitingWriters ≠ 0 ∨ mutex.writing ≠ 0 then ⟨mutex, false, .asleep .reader⟩
  else ⟨{ mutex with activeReaders := mutex.activeReaders + 1 }, false, .out .reader⟩

def mrswLockReader (mutex : MRSWMutex) : MrswOutcome := lockReaderLoop mutex

def mrswUnlockReader (mutex : MRSWMutex) : MrswOutcome :=
  let mutex := { mutex with activeReaders := mutex.activeReaders - 1 }
  ⟨mutex, decide (mutex.activeReaders = 0), .out .nothing⟩

/-- `mrsw_lock_writer` from the test of its loop on. -/
def lockWriterLoop (mutex : MRSWMutex) : MrswOutcome :=
  if mutex.activeReaders ≠ 0 ∨ mutex.writing ≠ 0 then ⟨mutex, false, .asleep .writer⟩
  else
    ⟨{ mutex with waitingWriters := mutex.waitingWriters - 1, writing := 1 }, false, .out .writer⟩

def mrswLockWriter (mutex : MRSWMutex) : MrswOutcome :=
  lockWriterLoop { mutex with waitingWriters := mutex.waitingWriters + 1 }

def mrswUnlockWriter (mutex : MRSWMutex) : MrswOutcome :=
  ⟨{ mutex with writing := 0 }, true, .out .nothing⟩

/-- The sections: the four calls, and what comes after a wait. -/
inductive MrswSection where
  | lockReader
  | unlockReader
  | lockWriter
  | unlockWriter
  | resume
deriving DecidableEq

/-- What a section does where its thread is. Only a thread that holds the lock in a mode
unlocks it in that mode. -/
def mrswCode : MrswSection → MRSWMutex → MrswPlace → Option MrswOutcome
  | .lockReader, mutex, .out .nothing => some (mrswLockReader mutex)
  | .unlockReader, mutex, .out .reader => some (mrswUnlockReader mutex)
  | .lockWriter, mutex, .out .nothing => some (mrswLockWriter mutex)
  | .unlockWriter, mutex, .out .writer => some (mrswUnlockWriter mutex)
  | .resume, mutex, .awake .reader => some (lockReaderLoop mutex)
  | .resume, mutex, .awake .writer => some (lockWriterLoop mutex)
  | _, _, _ => none

end LsoStore
