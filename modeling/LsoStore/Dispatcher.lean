import Mathlib.Data.Finset.Basic
import LsoStore.Lib.Runs
import LsoStore.PollUtils

/-!
# The dispatcher and its workers

`server_dispatcher`, `server_worker` and `assign_client`, as steps on what they
share. A step is one call of a `pu_` function, one assignment to `empty` or to
an entry of `workers_clients`, or a call of the system. A worker holds its lock
from when it finds a client in its entry until it has cleared the entry, and
then `assign_client` passes it over.

The descriptors that were accepted and not closed yet are kept beside it all.
Descriptor 0 is open from the start, and so is the listening socket.
-/

namespace LsoStore

open PollArr

/-- Where `server_worker` is: at its outer loop, waiting for a client, or past
the step the name says. -/
inductive WorkerPc where
  | top
  | waiting
  | served
  | added
  | emptied
  | stopped
deriving DecidableEq

/-- The worker has a client that it has not put back. -/
def WorkerPc.keeps : WorkerPc → Bool
  | .added | .emptied => false
  | _ => true

/-- The worker's lock is free. -/
def WorkerPc.unlocked : WorkerPc → Bool
  | .served | .added | .emptied => false
  | _ => true

/-- Where `server_dispatcher` is: at the test of its loop, at what the loop
does first, at the call of `poll`, at entry `i`, past one of the steps taken for
entry `i`, or out of the loop. -/
inductive DispatcherPc where
  | testing
  | entering
  | polling
  | scanning (i : Nat)
  | hungUp (i : Nat)
  | accepting (i : Nat)
  | assigned (i : Nat)
  | cleared (i : Nat)
  | left
deriving DecidableEq

/-- What the threads share, and where each of them is. -/
structure Dispatch (ω : Type) where
  pollArr : PollArr
  workersClients : ω → Int
  serverHu : Bool
  serverQuit : Bool
  dispatcher : DispatcherPc
  worker : ω → WorkerPc
  opened : Finset Int

/-- What happens next: a signal, a step of the dispatcher, of which some have an
outcome from outside, or a step of a worker, which may read a request. -/
inductive DispatchLabel (ω : Type) where
  | signal (quit : Bool)
  | dispatch
  | poll (ready : Bool) (revents : Nat → Bool × Bool)
  | accept (fd : Int)
  | assign (w : ω)
  | work (w : ω) (request : Bool)

namespace PollArr

/-- `poll` skips entries with a negative descriptor. -/
def polled (a : PollArr) (revents : Nat → Bool × Bool) : PollArr :=
  { a with arr := a.arr.mapIdx fun i p =>
      if p.fd < 0 then ⟨p.fd, false, false⟩ else ⟨p.fd, (revents i).1, (revents i).2⟩ }

/-- `arr[i].revents &= 0` -/
def clearRevents (a : PollArr) (i : Nat) : PollArr :=
  { a with arr := a.arr.modify i fun p => ⟨p.fd, false, false⟩ }

/-- `arr[i].fd` -/
def fdAt (a : PollArr) (i : Nat) : Int := (a.arr[i]?.map PollFd.fd).getD 0

end PollArr

namespace Dispatch

variable {ω : Type}

/-- On to the next entry. -/
def advance (s : Dispatch ω) (a : PollArr) (i : Nat) : Dispatch ω :=
  { s with pollArr := a.clearRevents i, dispatcher := .scanning (i + 1) }

/-- The steps of the dispatcher that it takes on its own. -/
def dispatch (socket : Int) (s : Dispatch ω) : Option (Dispatch ω) :=
  match s.dispatcher with
  | .testing =>
      if (s.serverHu && s.pollArr.puIsempty) || s.serverQuit then
        some { s with dispatcher := .left, serverQuit := s.serverHu || s.serverQuit }
      else some { s with dispatcher := .entering }
  | .entering =>
      if s.serverHu then
        some { s with pollArr := (s.pollArr.puRemove socket).2, dispatcher := .polling }
      else some { s with dispatcher := .polling }
  | .scanning i =>
      match s.pollArr.arr[i]? with
      | none => some { s with dispatcher := .testing }
      | some p =>
          if p.hup then some { s with opened := s.opened.erase p.fd, dispatcher := .hungUp i }
          else if p.inn then
            if p.fd = socket then
              if s.pollArr.puIsfull then some (s.advance s.pollArr i)
              else some { s with dispatcher := .accepting i }
            else if p.fd < 0 then some (s.advance s.pollArr i)
            else none
          else some { s with dispatcher := .scanning (i + 1) }
  | .hungUp i =>
      some { s with
        pollArr := (s.pollArr.puRemove (s.pollArr.fdAt i)).2
        dispatcher := .scanning (i + 1) }
  | .assigned i =>
      some { s with pollArr := { s.pollArr with empty := false }, dispatcher := .cleared i }
  | .cleared i => some (s.advance (s.pollArr.puRemove (s.pollArr.fdAt i)).2 i)
  | .polling | .accepting _ | .left => none

variable [DecidableEq ω]

/-- The steps of worker `w`. -/
def work (s : Dispatch ω) (w : ω) (request : Bool) : Option (Dispatch ω) :=
  let goTo (s : Dispatch ω) (pc : WorkerPc) : Dispatch ω :=
    { s with worker := Function.update s.worker w pc }
  match s.worker w with
  | .top => some (goTo s (if s.serverQuit then .stopped else .waiting))
  | .waiting =>
      if s.workersClients w = 0 then
        if s.serverQuit then some (goTo s .stopped) else none
      else if request then some (goTo s .served)
      else some (goTo { s with workersClients := Function.update s.workersClients w 0 } .top)
  | .served =>
      some (goTo { s with pollArr := (s.pollArr.puAdd (s.workersClients w)).2 } .added)
  | .added => some (goTo { s with pollArr := { s.pollArr with empty := true } } .emptied)
  | .emptied =>
      some (goTo { s with workersClients := Function.update s.workersClients w 0 } .top)
  | .stopped => none

/-- One step. `accept` gives -1 or a descriptor that is not open, and
`assign_client` a worker that has nothing to do. -/
def step (socket : Int) (s : Dispatch ω) : DispatchLabel ω → Option (Dispatch ω)
  | .signal quit =>
      some (if quit then { s with serverQuit := true } else { s with serverHu := true })
  | .dispatch => s.dispatch socket
  | .poll ready revents =>
      if s.dispatcher = .polling then
        some { s with
          pollArr := s.pollArr.polled revents
          dispatcher := if ready then .scanning 0 else .testing }
      else none
  | .accept fd =>
      match s.dispatcher with
      | .accepting i =>
          if fd = -1 then some (s.advance (s.pollArr.puAdd fd).2 i)
          else if 0 < fd ∧ fd ≠ socket ∧ fd ∉ s.opened then
            some { s.advance (s.pollArr.puAdd fd).2 i with opened := insert fd s.opened }
          else none
      | _ => none
  | .assign w =>
      match s.dispatcher with
      | .scanning i =>
          match s.pollArr.arr[i]? with
          | none => none
          | some p =>
              if (!p.hup && p.inn) ∧ p.fd ≠ socket ∧ 0 ≤ p.fd ∧
                  (s.worker w).unlocked ∧ s.workersClients w = 0 then
                some { s with
                  workersClients := Function.update s.workersClients w p.fd
                  dispatcher := .assigned i }
              else none
      | _ => none
  | .work w request => s.work w request

/-- When the loop of the dispatcher starts. -/
def start (socket : Int) (maxlen : Nat) : Dispatch ω where
  pollArr := ((puInitarr maxlen).puAdd socket).2
  workersClients := fun _ => 0
  serverHu := false
  serverQuit := false
  dispatcher := .testing
  worker := fun _ => .top
  opened := ∅

end Dispatch

/-- The runs of a server with workers `ω` that listens on `socket`. -/
abbrev DispatchRun {ω : Type} [DecidableEq ω] (socket : Int) (maxlen : Nat) :
    List (DispatchLabel ω × Dispatch ω) → Dispatch ω → Prop :=
  Run (· = .start socket maxlen) fun s l s' => s.step socket l = some s'

end LsoStore
