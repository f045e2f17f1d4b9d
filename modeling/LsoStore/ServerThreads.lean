import LsoStore.Lib.LockOrder
import LsoStore.PollUtils
import LsoStore.Server

/-!
# The programs of the server's threads

`server_worker` and `assign_client` with all the mutexes they take: each worker
has one of its own, which it holds while it serves a client, and the
dispatcher's is held in `assign_client` alone.

A turn of a worker is one round of its loop. A wait on its condition variable
gives the worker's mutex back, and ends the turn: the next one takes the mutex
again and looks at the entry again, as the loop around the wait does. The loop
of `assign_client` need not end, so it takes a bound on the number of rounds,
and a fault stands for reaching it. The texts printed on the way are left out.
-/

namespace LsoStore

/-- `dispatcher_lock`, an element of `worker_locks`, or a mutex of the storage. -/
inductive ServerMutex where
  | dispatcher
  | worker (id : Nat)
  | storage (m : Mutex)
deriving DecidableEq

/-- Of `server_infos` what these threads look at, and the static `i` of
`assign_client`. -/
structure Infos where
  nWorkers : BitVec 16
  workersClients : Nat → Int
  pollArr : PollArr
  storage : FileStorage
  i : Nat

abbrev ThreadM := Proc Infos ServerMutex

/-- An assignment to `workers_clients[id]`. -/
def setEntry {α : Type} (id : Nat) (client : Int) (k : ThreadM α) : ThreadM α :=
  .get fun infos =>
    .set { infos with workersClients := Function.update infos.workersClients id client } k

/-! ## Workers -/

/-- A request, on the storage of `infos`. -/
def serveOn (qsort : Qsort Nat) (request : SMessage) (client : Int) : ThreadM Int :=
  (serve qsort request client).zoom Infos.storage
    (fun infos storage => { infos with storage := storage }) .storage

/-- The end of a round: the entry is cleared and the mutex given back. -/
def workerFree (id : Nat) : ThreadM Int :=
  setEntry id 0 <|
  .unlock (.worker id) (.ret 0)

/-- A round once the worker has found a client in its entry. -/
def workerServe (qsort : Qsort Nat) (id : Nat) : ThreadM Int :=
  .read 4 fun
    | none => workerFree id
    | some bs =>
        let request := BitVec.ofNat 32 (LittleEndian.decode bs)
        if request = 0 then workerFree id
        else
          .get fun infos => do
            let _ ← serveOn qsort request (infos.workersClients id)
            .get fun infos =>
            .set { infos with pollArr := (infos.pollArr.puAdd (infos.workersClients id)).2 } <|
            .get fun infos =>
            .set { infos with pollArr := { infos.pollArr with empty := true } } <|
            workerFree id

/-- One round of `server_worker`. -/
def workerTurn (qsort : Qsort Nat) (id : Nat) : ThreadM Int :=
  .lock (.worker id) <|
  .get fun infos =>
  if infos.workersClients id = 0 then .unlock (.worker id) (.ret 0)
  else workerServe qsort id

/-! ## The dispatcher -/

/-- `i = (i + 1) % n_workers`, which faults without workers. -/
def nextWorker (k : ThreadM Int) : ThreadM Int :=
  .get fun infos =>
  if infos.nWorkers = 0 then .fault
  else .set { infos with i := (infos.i + 1) % infos.nWorkers.toNat } k

/-- The loop of `assign_client`. The time the wait is given lies in the past, so
all it does is to give the mutex back for a moment. -/
def assignLoop (client : Int) : Nat → BitVec 16 → ThreadM Int
  | 0, _ => .fault
  | rounds + 1, workersBusy =>
      .get fun infos =>
      .trylock (.worker infos.i) fun
        | true =>
            .get fun infos' =>
            if infos'.workersClients infos.i ≠ 0 then
              .unlock (.worker infos.i) <|
              nextWorker <|
              assignLoop client rounds workersBusy
            else
              setEntry infos.i client <|
              .unlock (.worker infos.i) <|
              .unlock .dispatcher (.ret 0)
        | false =>
            if workersBusy + 1 = infos.nWorkers then
              .unlock .dispatcher <|
              .lock .dispatcher <|
              nextWorker <|
              assignLoop client rounds 0
            else
              nextWorker <|
              assignLoop client rounds (workersBusy + 1)

def assignClient (client : Int) (rounds : Nat) : ThreadM Int :=
  if client < 0 then .ret (-1)
  else .lock .dispatcher (assignLoop client rounds 0)

/-- What a thread begins: the dispatcher a call of `assign_client`, worker `id` a
round. -/
def ThreadBegins (qsort : Qsort Nat) : Option Nat → ThreadM Int → Prop
  | none, p => ∃ client rounds, p = assignClient client rounds
  | some id, p => p = workerTurn qsort id

/-- The runs of the server's threads, from where all of them wait for work. -/
abbrev ThreadsRun (qsort : Qsort Nat) :
    List ((Option Nat × Option (ThreadM Int)) × Pool (Option Nat) Infos ServerMutex Int) →
    Pool (Option Nat) Infos ServerMutex Int → Prop :=
  Run Pool.AtRest (Pool.Step (ThreadBegins qsort))

end LsoStore
