import Mathlib.Data.Fin.Basic
import Mathlib.Data.Fintype.Basic
import LsoStore.Dispatcher

/-!
# The dispatcher with the loop of `assign_client`

The dispatcher of `Dispatcher.lean` gives a client to any worker that has
nothing to do. Here it looks for one as `assign_client` does, and everything
else goes on meanwhile: a step is one round of the loop, which tries one
worker's mutex and looks at its entry. The search begins where the last one
ended. `workers_busy` counts the mutexes that were not to be had, up to the
number of workers, and then starts again after a wait that is over at once.

A worker without a client is not always there to be found. It takes its mutex to
look at its entry and gives it back in a wait that is over at once, over and over,
and a round that comes while it holds the mutex passes it over.

There are `n + 1` workers.
-/

namespace LsoStore

/-- The dispatcher, the static `i`, whether it is in `assign_client`, `workers_busy`
there, and which of the workers that wait hold their mutex. -/
structure Assigning (n : Nat) where
  base : Dispatch (Fin (n + 1))
  i : Fin (n + 1)
  calling : Bool
  workersBusy : BitVec 16
  looking : Fin (n + 1) → Bool

/-- A step of anything else, a worker that takes its mutex to look at its entry or
gives it back to wait, a call of `assign_client`, or a round of its loop. -/
inductive AssignLabel (n : Nat) where
  | other (l : DispatchLabel (Fin (n + 1)))
  | look (w : Fin (n + 1))
  | wait (w : Fin (n + 1))
  | call
  | tryWorker

/-- A step of something else than `assign_client`. -/
def DispatchLabel.others {ω : Type} : DispatchLabel ω → Bool
  | .assign _ => false
  | _ => true

/-- It is a round of the loop. -/
def AssignLabel.tries {n : Nat} : AssignLabel n → Bool
  | .tryWorker => true
  | _ => false

namespace Assigning

variable {n : Nat}

/-- The client at hand, where the dispatcher calls `assign_client`. -/
def client (socket : Int) (s : Dispatch (Fin (n + 1))) : Option Int :=
  match s.dispatcher with
  | .scanning j =>
      match s.pollArr.arr[j]? with
      | none => none
      | some p =>
          if (!p.hup && p.inn) ∧ p.fd ≠ socket ∧ 0 ≤ p.fd then some p.fd else none
  | _ => none

/-- The worker's mutex is free. -/
def free (s : Assigning n) (w : Fin (n + 1)) : Bool :=
  (s.base.worker w).unlocked && !s.looking w

/-- A worker that waits goes on only while it holds its mutex. -/
def allows (s : Assigning n) : DispatchLabel (Fin (n + 1)) → Bool
  | .work w _ => s.base.worker w ≠ .waiting || s.looking w
  | l => l.others

/-- From there on its place says whether it holds it. -/
def lookingAfter (s : Assigning n) : DispatchLabel (Fin (n + 1)) → Fin (n + 1) → Bool
  | .work w _ => Function.update s.looking w false
  | _ => s.looking

/-- One round of the loop of `assign_client`. -/
def tryWorker (socket : Int) (s : Assigning n) : Option (Assigning n) :=
  if s.free s.i then
    if s.base.workersClients s.i ≠ 0 then some { s with i := s.i + 1 }
    else
      (s.base.step socket (.assign s.i)).map fun base =>
        { s with base := base, calling := false }
  else
    let workersBusy := s.workersBusy + 1
    if workersBusy = BitVec.ofNat 16 (n + 1) then some { s with i := s.i + 1, workersBusy := 0 }
    else some { s with i := s.i + 1, workersBusy := workersBusy }

/-- One step. -/
def step (socket : Int) (s : Assigning n) : AssignLabel n → Option (Assigning n)
  | .other l =>
      if s.allows l then
        (s.base.step socket l).map fun base =>
          { s with base := base, looking := s.lookingAfter l }
      else none
  | .look w =>
      if s.base.worker w = .waiting ∧ s.looking w = false then
        some { s with looking := Function.update s.looking w true }
      else none
  | .wait w =>
      if s.looking w ∧ s.base.workersClients w = 0 ∧ ¬ s.base.serverQuit then
        some { s with looking := Function.update s.looking w false }
      else none
  | .call =>
      if ¬ s.calling ∧ client socket s.base ≠ none then
        some { s with calling := true, workersBusy := 0 }
      else none
  | .tryWorker => if s.calling then s.tryWorker socket else none

/-- The static `i` starts out as 0. -/
def start (socket : Int) (maxlen n : Nat) : Assigning n where
  base := .start socket maxlen
  i := 0
  calling := false
  workersBusy := 0
  looking := fun _ => false

/-- The worker is there to be found: its mutex is free and its entry empty. -/
def Idle (s : Assigning n) (w : Fin (n + 1)) : Prop :=
  s.free w = true ∧ s.base.workersClients w = 0

/-- The step of the dispatcher that a step is, if it is one. -/
def shown (l : AssignLabel n) (s : Assigning n) : Option (DispatchLabel (Fin (n + 1))) :=
  match l with
  | .other l => some l
  | .look _ | .wait _ | .call => none
  | .tryWorker =>
      if s.free s.i ∧ s.base.workersClients s.i = 0 then some (.assign s.i) else none

end Assigning

/-- The runs of the server where the dispatcher searches for a worker. -/
abbrev AssignRun (socket : Int) (maxlen n : Nat) :
    List (AssignLabel n × Assigning n) → Assigning n → Prop :=
  Run (· = .start socket maxlen n) fun s l s' => s.step socket l = some s'

end LsoStore
