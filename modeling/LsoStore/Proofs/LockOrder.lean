import LsoStore.ServerThreads

/-!
# The order of the mutexes

The dispatcher's mutex ranks below the workers', these below the storage's, and
that below the files'. Every thread of the server locks them in this order, and
where a mutex might be out of order it is only tried: by `assign_client` the
worker's, by `server_readNFiles` and `server_evict` the files'.

A request that leaves a mutex held is what breaks the order: the worker has it
still when it begins its next round.
-/

namespace LsoStore

open Proc Pool Relation

/-- The storage's mutex before the files'. -/
def Mutex.rank : Mutex → Nat
  | .storage => 0
  | .file _ => 1

def ServerMutex.rank : ServerMutex → Nat
  | .dispatcher => 0
  | .worker _ => 1
  | .storage m => 2 + m.rank

theorem ServerMutex.rank_le (m : ServerMutex) : m.rank ≤ 3 := by
  cases m with
  | dispatcher => exact Nat.zero_le _
  | worker id => exact Nat.le_of_ble_eq_true rfl
  | storage m =>
      cases m with
      | storage => exact Nat.le_of_ble_eq_true rfl
      | file a => exact Nat.le_refl _

/-! ## The handlers -/

/-- Whatever it holds, the program locks nothing out of order. -/
def KeepsOrder {α : Type} (p : ServerM α) : Prop :=
  ∀ held, p.Ordered Mutex.rank held fun _ _ => True

section KeepsOrder

variable {α β : Type} {client : Int} {message : SMessage} {held : Finset Mutex}

theorem KeepsOrder.ret (a : α) : KeepsOrder (.ret a) := fun _ => trivial

theorem KeepsOrder.exit : KeepsOrder (α := α) .exit := fun _ => trivial

theorem KeepsOrder.fault : KeepsOrder (α := α) .fault := fun _ => trivial

theorem KeepsOrder.bind {p : ServerM α} {k : α → ServerM β} (hp : KeepsOrder p)
    (hk : ∀ a, KeepsOrder (k a)) : KeepsOrder (p >>= k) := fun held =>
  ordered_bind.mpr ((hp held).mono fun a held' _ => hk a held')

theorem KeepsOrder.get {k : FileStorage → ServerM α} (h : ∀ s, KeepsOrder (k s)) :
    KeepsOrder (.get k) := fun held s => h s held

theorem KeepsOrder.set {p : ServerM α} (s : FileStorage) (h : KeepsOrder p) :
    KeepsOrder (.set s p) := h

theorem KeepsOrder.unlock {p : ServerM α} (m : Mutex) (h : KeepsOrder p) :
    KeepsOrder (.unlock m p) := fun held => h (held.erase m)

theorem KeepsOrder.trylock {k : Bool → ServerM α} (m : Mutex) (h : ∀ ok, KeepsOrder (k ok)) :
    KeepsOrder (.trylock m k) := fun held => ⟨h false held, fun _ => h true (insert m held)⟩

theorem KeepsOrder.read {k : Option (List UInt8) → ServerM α} (n : Nat)
    (h : ∀ r, KeepsOrder (k r)) : KeepsOrder (.read n k) := fun held r _ => h r held

theorem KeepsOrder.write {k : Bool → ServerM α} (d : Payload) (h : ∀ ok, KeepsOrder (k ok)) :
    KeepsOrder (.write d k) := fun held ok => h ok held

theorem KeepsOrder.unspec {k : List UInt8 → ServerM α} (h : ∀ bs, KeepsOrder (k bs)) :
    KeepsOrder (.unspec k) := fun held bs => h bs held

theorem KeepsOrder.ite {c : Prop} [Decidable c] {p q : ServerM α} (hp : KeepsOrder p)
    (hq : KeepsOrder q) : KeepsOrder (if c then p else q) := by
  split
  · exact hp
  · exact hq

theorem ordered_deref {a : Nat} {k : FileData → ServerM α} {Q : α → Finset Mutex → Prop}
    (h : ∀ f, (k f).Ordered Mutex.rank held Q) : (deref a k).Ordered Mutex.rank held Q := by
  intro s
  dsimp only
  cases s.heap a with
  | none => trivial
  | some f => exact h f

theorem KeepsOrder.deref {k : FileData → ServerM α} (a : Nat) (h : ∀ f, KeepsOrder (k f)) :
    KeepsOrder (deref a k) := fun held => ordered_deref fun f => h f held

theorem KeepsOrder.assign {k : ServerM α} (a : Nat) (g : FileData → FileData)
    (h : KeepsOrder k) : KeepsOrder (assign a g k) := .get fun _ => .set _ h

theorem KeepsOrder.muCalloc {k : ServerM α} (size : Nat) (h : KeepsOrder k) :
    KeepsOrder (muCalloc size k) := .ite .exit h

theorem ordered_getfile {path : List UInt8} {k : Option Nat → ServerM α}
    {Q : α → Finset Mutex → Prop} (h : ∀ a, (k a).Ordered Mutex.rank held Q) :
    (getfile path k).Ordered Mutex.rank held Q := fun _ => h _

theorem KeepsOrder.removefile {k : ServerM α} (path : List UInt8) (h : KeepsOrder k) :
    KeepsOrder (removefile path k) := .get fun _ => .set _ h

theorem keepsOrder_serverRespond : KeepsOrder (serverRespond message client) :=
  .ite (.ret _) (.write _ fun _ => .ret _)

theorem KeepsOrder.sapiRespond {k : ServerM Int} (h : KeepsOrder k) :
    KeepsOrder (sapiRespond message client k) :=
  keepsOrder_serverRespond.bind fun _ => .ite (.ret _) h

/-- The answer before a handler returns. -/
theorem keepsOrder_answer (r : Int) : KeepsOrder (sapiRespond message client (.ret r)) :=
  .sapiRespond (.ret r)

theorem keepsOrder_sendBlock (bs : List UInt8) : KeepsOrder (sendBlock bs) := by
  refine .write _ fun ok => ?_
  cases ok with
  | false => exact .ret _
  | true => exact .write _ fun _ => .ret _

theorem keepsOrder_serverSendPath (path : List UInt8) :
    KeepsOrder (serverSendPath client path) := .ite (.ret _) (keepsOrder_sendBlock path)

theorem keepsOrder_serverSendData (data : List UInt8) :
    KeepsOrder (serverSendData client data) := .ite (.ret _) (keepsOrder_sendBlock data)

theorem keepsOrder_serverGetLen : KeepsOrder (serverGetLen client) := by
  refine .ite (.ret _) (.read _ fun r => ?_)
  cases r with
  | none => exact .ret _
  | some bs => exact .ite (.unspec fun _ => .ret _) (.ret _)

theorem KeepsOrder.checkReadResponse {k : Nat → ServerM Int} (h : ∀ n, KeepsOrder (k n)) :
    KeepsOrder (checkReadResponse client k) := by
  refine .read _ fun r => ?_
  cases r with
  | none => exact .unspec fun _ => h _
  | some bs => exact .ite (keepsOrder_serverRespond.bind fun _ => .ret _) (h _)

theorem KeepsOrder.takeOwnership {k : ServerM Int} (file : Nat) (h : KeepsOrder k) :
    KeepsOrder (takeOwnership message client file k) := .assign _ _ (.ite (.assign _ _ h) h)

/-- A handler that reads a path first holds then what it held before. -/
theorem ordered_withPath {p : ServerM Int} {k : List UInt8 → ServerM Int} {r : Int}
    (hp : p = if message = 0 ∨ client = 0 then .ret (-1) else do
      match ← serverGetPath message client with
      | none => sapiRespond sapiFailure client (.ret r)
      | some path => k path)
    (hk : ∀ path, (k path).Ordered Mutex.rank held fun _ _ => True) :
    p.Ordered Mutex.rank held fun _ _ => True := by
  rw [hp]
  split
  · trivial
  · refine ordered_bind.mpr ?_
    have hnone : KeepsOrder (sapiRespond sapiFailure client (.ret r)) := keepsOrder_answer r
    rw [serverGetPath]
    split
    · exact hnone held
    · rw [LsoStore.muCalloc]
      split
      · trivial
      · intro buf _
        cases buf with
        | none => exact hnone held
        | some buf => exact hk _

/-- The mutex of a file may be locked where no file's is held. -/
theorem ordered_lockFile {a : Nat} {k : FileData → ServerM α}
    (hheld : ∀ m ∈ held, m = .storage) (h : ∀ f, KeepsOrder (k f)) :
    (Proc.lock (.file a) (deref a k)).Ordered Mutex.rank held fun _ _ => True := by
  refine ⟨fun m hm => ?_, KeepsOrder.deref a h _⟩
  rw [hheld m hm]
  exact Nat.zero_lt_one

theorem only_storage : ∀ m ∈ (insert .storage ∅ : Finset Mutex), m = Mutex.storage := fun m hm => by
  rcases Finset.mem_insert.mp hm with hm | hm
  · exact hm
  · exact absurd hm (Finset.notMem_empty m)

theorem none_held : ∀ m ∈ (∅ : Finset Mutex), m = Mutex.storage := fun m hm =>
  absurd hm (Finset.notMem_empty m)

/-- The storage's mutex may be locked where none is held. -/
theorem ordered_lockStorage {p : ServerM α}
    (h : p.Ordered Mutex.rank (insert .storage ∅) fun _ _ => True) :
    (Proc.lock .storage p).Ordered Mutex.rank ∅ fun _ _ => True :=
  ⟨fun m hm => absurd hm (Finset.notMem_empty m), h⟩

/-! ### One handler after the other -/

theorem ordered_serverCreateFile (path : List UInt8) :
    (serverCreateFile message client path).Ordered Mutex.rank ∅ fun _ _ => True := by
  intro s
  have hafter : ∀ (newFile : Nat), (Proc.lock Mutex.storage <|
      .get fun s =>
      if s.fuStorageBytesAvailable = 0 ∨ s.fuStorageFilesAvailable = 0 then
        .unlock .storage <|
        .get fun s => .set (s.fuFreeFileData newFile) <|
        sapiRespond sapiFailure client (.ret (-1))
      else
        .set (s.fuAddFile newFile path).2 <|
        if (s.fuAddFile newFile path).1 ≠ 0 then
          .unlock .storage <|
          deref newFile fun _ =>
          sapiRespond sapiFailure client (.ret (-1))
        else
          .unlock .storage <|
          sapiRespond sapiSuccess client (.ret 0) : ServerM Int).Ordered Mutex.rank ∅
        fun _ _ => True := by
    intro newFile
    refine ordered_lockStorage (KeepsOrder.get (fun s => .ite ?_ (.set _ (.ite ?_ ?_))) _)
    · exact .unlock _ (.get fun _ => .set _ (keepsOrder_answer _))
    · exact .unlock _ (.deref _ fun _ => keepsOrder_answer _)
    · exact .unlock _ (keepsOrder_answer _)
  show (takeOwnership message client _ _).Ordered Mutex.rank ∅ _
  rw [takeOwnership]
  split
  · exact fun _ _ => hafter _
  · exact fun _ => hafter _

theorem ordered_serverOpenFile :
    (serverOpenFile message client).Ordered Mutex.rank ∅ fun _ _ => True := by
  refine ordered_withPath rfl fun path => ordered_getfile fun file => ?_
  cases file with
  | none =>
      dsimp only
      split
      · exact keepsOrder_answer _ _
      · exact ordered_serverCreateFile path
  | some file =>
      refine ordered_lockFile none_held fun f => .ite ?_ ?_
      · exact .unlock _ (keepsOrder_answer _)
      · exact .takeOwnership _ (.unlock _ (keepsOrder_answer _))

theorem ordered_serverCloseFile :
    (serverCloseFile message client).Ordered Mutex.rank ∅ fun _ _ => True := by
  refine ordered_withPath rfl fun path => ordered_getfile fun file => ?_
  cases file with
  | none => exact keepsOrder_answer _ _
  | some file =>
      refine ordered_lockFile none_held fun f => .ite ?_ ?_
      · exact .unlock _ (keepsOrder_answer _)
      · exact .assign _ _ (.unlock _ (keepsOrder_answer _))

theorem ordered_serverReadFile :
    (serverReadFile message client).Ordered Mutex.rank ∅ fun _ _ => True := by
  refine ordered_withPath rfl fun path => ordered_getfile fun file => ?_
  cases file with
  | none => exact keepsOrder_answer _ _
  | some file =>
      refine ordered_lockFile none_held fun f => .ite ?_ ?_
      · exact .unlock _ (keepsOrder_answer _)
      · exact .sapiRespond ((keepsOrder_serverSendData _).bind fun _ => .unlock _ (.ret _))

theorem keepsOrder_readNFilesLoop (hi : List (List UInt8 × Nat)) (nFiles : Nat) :
    KeepsOrder (readNFilesLoop client hi nFiles) := by
  have hend : KeepsOrder readNFilesEnd := .unlock _ (.write _ fun _ => .ret _)
  induction hi generalizing nFiles with
  | nil => exact hend
  | cons entry hi ih =>
      obtain ⟨fileName, file⟩ := entry
      rw [readNFilesLoop]
      refine .ite hend (.deref _ fun _ => .trylock _ fun ok => ?_)
      cases ok with
      | false => exact ih nFiles
      | true =>
          have hfails : KeepsOrder (Proc.unlock (.file file) <| .unlock .storage <|
              sapiRespond sapiFailure client (.ret (-1)) : ServerM Int) :=
            .unlock _ (.unlock _ (keepsOrder_answer _))
          refine .deref _ fun f => .ite (.assign _ _ ?_) (.unlock _ (ih nFiles))
          refine (keepsOrder_serverSendPath _).bind fun _ => .ite hfails ?_
          refine (keepsOrder_serverSendData _).bind fun _ => .ite hfails ?_
          exact .unlock _ (ih (nFiles - 1))

theorem ordered_serverReadNFiles :
    (serverReadNFiles message client).Ordered Mutex.rank ∅ fun _ _ => True := by
  rw [serverReadNFiles]
  split
  · trivial
  · exact ordered_lockStorage fun s => keepsOrder_readNFilesLoop _ _ _

theorem keepsOrder_evictFile (sendFilesBack : Bool) (currFile : Nat) (f : FileData) :
    KeepsOrder (evictFile client sendFilesBack currFile f) := by
  have hgive : KeepsOrder (assign currFile (fun f => { f with client := -2 }) <|
      .unlock (.file currFile) <| removefile f.path (.ret true)) :=
    .assign _ _ (.unlock _ (.removefile _ (.ret _)))
  rw [evictFile]
  refine .ite (keepsOrder_serverRespond.bind fun _ => .ite (.ret _) ?_) hgive
  exact (keepsOrder_serverSendPath _).bind fun _ =>
    (keepsOrder_serverSendData _).bind fun _ => hgive

theorem keepsOrder_evictLoop (sendFilesBack : Bool) (slots : List (Option Nat))
    (bytesToFree : Nat) : KeepsOrder (evictLoop client sendFilesBack slots bytesToFree) := by
  induction slots generalizing bytesToFree with
  | nil => exact .ret _
  | cons slot slots ih =>
      cases slot with
      | none =>
          rw [evictLoop]
          exact .ite (.ret _) .fault
      | some currFile =>
          rw [evictLoop]
          refine .ite (.ret _) ?_
          refine .deref _ fun _ => .trylock _ fun ok => ?_
          cases ok with
          | false => exact ih bytesToFree
          | true =>
              refine .deref _ fun f => .ite (.unlock _ (ih bytesToFree)) ?_
              exact (keepsOrder_evictFile _ _ _).bind fun _ => .ite (ih _) (.ret _)

theorem keepsOrder_serverEvict (qsort : Qsort Nat) (bytesToFree : Nat) :
    KeepsOrder (serverEvict qsort client bytesToFree) := by
  refine .get fun s => ?_
  cases s.fuEvictFiles qsort bytesToFree with
  | none => exact .exit
  | some evictArr =>
      refine .ite (.ret _) (keepsOrder_serverRespond.bind fun _ => .ite (.ret _) ?_)
      refine keepsOrder_serverGetLen.bind fun _ => (keepsOrder_evictLoop _ _ _).bind fun rest => ?_
      cases rest with
      | none => exact .ret _
      | some rest => exact .ite (keepsOrder_answer _) (keepsOrder_answer _)

theorem keepsOrder_receiveData (file dataLen : Nat) (offset : FileData → Nat) :
    KeepsOrder (receiveData client file dataLen offset) := by
  have hrespond : ∀ message : SMessage, KeepsOrder (Proc.unlock (.file file) do
      let _ ← serverRespond message client
      .ret 1 : ServerM Int) :=
    fun _ => .unlock _ (keepsOrder_serverRespond.bind fun _ => .ret _)
  refine .muCalloc _ (.read _ fun r => ?_)
  cases r with
  | none => exact hrespond _
  | some bs =>
      refine .deref _ fun f => .get fun s => ?_
      cases s.fuWritefile file (offset f)
          (if dataLen = 0 then none
            else some (bs ++ List.replicate (dataLen - bs.length) 0)) with
      | none => exact .exit
      | some res =>
          refine .set _ (.ite (hrespond _) ?_)
          exact keepsOrder_serverRespond.bind fun _ => .ite (.unlock _ (.ret _))
            (.unlock _ (.ret _))

theorem keepsOrder_serverMakeRoom (qsort : Qsort Nat) (offset : FileData → Nat)
    (file dataLen : Nat) : KeepsOrder (serverMakeRoom qsort offset client file dataLen) := by
  refine .get fun s => .ite ?_ ?_
  · refine (keepsOrder_serverEvict _ _).bind fun _ => .ite ?_ ?_
    · exact .unlock _ (.unlock _ (keepsOrder_answer _))
    · exact .unlock _ (keepsOrder_receiveData _ _ _)
  · refine keepsOrder_serverRespond.bind fun _ => .ite ?_ ?_
    · exact .unlock _ (.unlock _ (.ret _))
    · exact .unlock _ (keepsOrder_receiveData _ _ _)

theorem ordered_serverWriteAt (qsort : Qsort Nat) (offset : FileData → Nat) :
    (serverWriteAt qsort offset message client).Ordered Mutex.rank ∅ fun _ _ => True := by
  refine ordered_withPath rfl fun path => ordered_lockStorage (ordered_getfile fun file => ?_)
  cases file with
  | none => exact KeepsOrder.unlock _ (keepsOrder_answer _) _
  | some file =>
      refine ordered_lockFile only_storage fun f => .ite ?_ ?_
      · exact .unlock _ (keepsOrder_answer _)
      · exact .checkReadResponse fun _ => keepsOrder_serverMakeRoom _ _ _ _

theorem ordered_serverRemoveFile :
    (serverRemoveFile message client).Ordered Mutex.rank ∅ fun _ _ => True := by
  refine ordered_withPath rfl fun path => ordered_lockStorage (ordered_getfile fun file => ?_)
  cases file with
  | none => exact KeepsOrder.unlock _ (keepsOrder_answer _) _
  | some file =>
      refine ordered_lockFile only_storage fun f => .ite ?_ ?_
      · exact .unlock _ (.unlock _ (keepsOrder_answer _))
      · exact .unlock _ (.unspec fun _ => .removefile _ (.unlock _ (keepsOrder_answer _)))

end KeepsOrder

/-- A request that is begun with no mutex held locks them in order. -/
theorem ordered_serve (qsort : Qsort Nat) (request : SMessage) (client : Int) :
    (serve qsort request client).Ordered Mutex.rank ∅ fun _ _ => True := by
  have hlock : (serverLockFile request client).Ordered Mutex.rank ∅ fun _ _ => True :=
    KeepsOrder.ite (.ret _) (.ret _) _
  have hunlock : (serverUnlockFile request client).Ordered Mutex.rank ∅ fun _ _ => True :=
    KeepsOrder.ite (.ret _) (.ret _) _
  rw [serve]
  split
  · exact ordered_serverOpenFile
  split
  · exact ordered_serverCloseFile
  split
  · exact ordered_serverReadFile
  split
  · exact ordered_serverReadNFiles
  split
  · exact ordered_serverWriteAt qsort _
  split
  · exact ordered_serverWriteAt qsort _
  split
  · exact hlock
  split
  · exact hunlock
  split
  · exact ordered_serverRemoveFile
  · exact keepsOrder_serverRespond.bind (fun _ => .ite (.ret _) (.ret _)) _

/-! ## The threads -/

section Threads

variable {held : Finset ServerMutex}

theorem ordered_serveOn (qsort : Qsort Nat) (request : SMessage) (client : Int) (id : Nat) :
    (serveOn qsort request client).Ordered ServerMutex.rank {.worker id}
      fun _ _ => True := by
  have hname : Function.Injective ServerMutex.storage := fun m m' h => by
    injection h
  have hbase : ∀ n ∈ ({.worker id} : Finset ServerMutex), ∀ m : Mutex,
      n.rank < (ServerMutex.storage m).rank := by
    intro n hn m
    rw [Finset.mem_singleton.mp hn]
    show 1 < 2 + m.rank
    omega
  have hrank : ∀ m m' : Mutex, m.rank < m'.rank →
      (ServerMutex.storage m).rank < (ServerMutex.storage m').rank :=
    fun m m' h => Nat.add_lt_add_left h 2
  have h : (serveOn qsort request client).Ordered ServerMutex.rank
      ({.worker id} ∪ (∅ : Finset Mutex).image .storage) fun _ held' => {.worker id} ⊆ held' :=
    (ordered_serve qsort request client).zoom hname hrank hbase
  rw [Finset.image_empty, Finset.union_empty] at h
  exact h.mono fun _ _ _ => trivial

theorem ordered_workerFree (id : Nat) :
    (workerFree id).Ordered ServerMutex.rank held fun _ _ => True := fun _ => trivial

theorem ordered_workerTurn (qsort : Qsort Nat) (id : Nat) :
    (workerTurn qsort id).Ordered ServerMutex.rank ∅ fun _ _ => True := by
  refine ⟨fun m hm => absurd hm (Finset.notMem_empty m), fun infos => ?_⟩
  dsimp only
  split
  · trivial
  · intro r _
    cases r with
    | none => exact ordered_workerFree id
    | some bs =>
        dsimp only
        split
        · exact ordered_workerFree id
        · intro infos
          refine ordered_bind.mpr ((ordered_serveOn qsort _ _ id).mono fun _ _ _ => ?_)
          exact fun _ _ => ordered_workerFree id

theorem ordered_nextWorker {k : ThreadM Int} (h : k.Ordered ServerMutex.rank held fun _ _ => True) :
    (nextWorker k).Ordered ServerMutex.rank held fun _ _ => True := by
  intro infos
  dsimp only
  split
  · trivial
  · exact h

theorem ordered_assignLoop (client : Int) (rounds : Nat) (workersBusy : BitVec 16) :
    (assignLoop client rounds workersBusy).Ordered ServerMutex.rank {.dispatcher}
      fun _ _ => True := by
  induction rounds generalizing workersBusy with
  | zero => trivial
  | succ rounds ih =>
      intro infos
      refine ⟨?_, fun hm infos' => ?_⟩
      · dsimp only
        split
        · refine ⟨fun m hm => ?_, ordered_nextWorker ?_⟩
          · simp at hm
          · simpa using ih 0
        · exact ordered_nextWorker (ih _)
      · dsimp only
        split
        · refine ordered_unlock.mpr (ordered_nextWorker ?_)
          rw [Finset.erase_insert hm]
          exact ih workersBusy
        · exact fun _ => trivial

theorem ordered_threadBegins (qsort : Qsort Nat) (i : Option Nat) (p : ThreadM Int)
    (h : ThreadBegins qsort i p) : p.Ordered ServerMutex.rank ∅ fun _ _ => True := by
  cases i with
  | some id =>
      rw [show p = workerTurn qsort id from h]
      exact ordered_workerTurn qsort id
  | none =>
      obtain ⟨client, rounds, rfl⟩ := h
      rw [assignClient]
      split
      · trivial
      · exact ⟨fun m hm => absurd hm (Finset.notMem_empty m), ordered_assignLoop client rounds 0⟩

end Threads

/-- However the dispatcher and the workers take their turns, and whatever their
memory holds and their clients send: as long as no worker begins a round with a
mutex it was left with, the threads never wait for each other in a circle, each
that waits waits in the end for one that does not, and no mutex is held twice. -/
theorem no_circular_wait {qsort : Qsort Nat}
    {past : List ((Option Nat × Option (ThreadM Int)) ×
      Pool (Option Nat) Infos ServerMutex Int)}
    {c : Pool (Option Nat) Infos ServerMutex Int} (h : ThreadsRun qsort past c)
    (hclean : ∀ e ∈ past, BeginsClean e.1 e.2) :
    ∀ x ∈ visited past c, x.Exclusive ∧ ∀ i, ¬ TransGen x.Waits i i ∧
      (x.Blocked i → ∃ j, TransGen x.Waits i j ∧ ¬ x.Blocked j) := by
  intro x hx
  have hordered := allOrdered (ordered_threadBegins qsort) h hclean x hx
  exact ⟨exclusive h x hx, fun i => ⟨hordered.not_circular i,
    hordered.ends ServerMutex.rank_le⟩⟩

/-- The dispatcher tries worker 0 and has its mutex, for which that worker waits to
begin a round. -/
theorem tried_and_waiting : ∃ past c, ThreadsRun Qsort.insertion past c ∧
    (∀ e ∈ past, BeginsClean e.1 e.2) ∧ past.length = 5 ∧ c.Blocked (some 0) := by
  let infos : Infos :=
    ⟨1, fun _ => 0, .puInitarr 1, ⟨⟨[], fun _ => 0, fun _ _ => 0⟩, 0, 0, 0, 0, fun _ => none, 0⟩, 0⟩
  have hothers : ∀ (p : ThreadM Int) (held : Finset ServerMutex) (m : ServerMutex), m ∉ held →
      Free (Function.update (fun _ => ⟨.ret 0, ∅⟩) none ⟨p, held⟩ :
        Pool (Option Nat) Infos ServerMutex Int) m := by
    intro p held m hm i
    by_cases hi : i = none
    · rw [hi, Function.update_self]
      exact hm
    · rw [Function.update_of_ne hi]
      exact Finset.notMem_empty m
  have h₀ : ThreadsRun Qsort.insertion [] fun _ => ⟨.ret 0, ∅⟩ :=
    .init _ fun _ => ⟨0, rfl⟩
  have h₁ := h₀.step _ _ _ _ (Step.start (i := none) rfl ⟨5, 1, rfl⟩)
  have h₂ := h₁.step _ _ _ _ (Step.instr (i := none) (.lock _ _ (hothers _ _ _ (by decide))))
  rw [Function.update_idem] at h₂
  have h₃ := h₂.step _ _ _ _ (Step.instr (i := none) (.get infos _ _))
  rw [Function.update_idem] at h₃
  have h₄ := h₃.step _ _ _ _ (Step.instr (i := none) (.acquired _ _ (hothers _ _ _ (by decide))))
  rw [Function.update_idem] at h₄
  have h₅ := h₄.step _ _ _ _ (Step.start (i := some 0) rfl rfl)
  refine ⟨_, _, h₅, fun e he => ?_, rfl, none, .worker 0, _, rfl, ?_⟩
  · simp only [List.nil_append, List.cons_append, List.mem_cons, List.not_mem_nil,
      or_false] at he
    rcases he with rfl | rfl | rfl | rfl | rfl
    · exact fun _ => rfl
    · exact fun hnone => absurd rfl hnone
    · exact fun hnone => absurd rfl hnone
    · exact fun hnone => absurd rfl hnone
    · exact fun _ => rfl
  · rw [Function.update_of_ne (by decide), Function.update_self]
    exact Finset.mem_insert_self _ _

theorem no_circular_wait_tried : ∃ c : Pool (Option Nat) Infos ServerMutex Int,
    c.Blocked (some 0) ∧ c.Exclusive ∧ (∀ i, ¬ TransGen c.Waits i i) ∧
    ∃ j, TransGen c.Waits (some 0) j ∧ ¬ c.Blocked j := by
  obtain ⟨past, c, h, hclean, -, hblocked⟩ := tried_and_waiting
  obtain ⟨hexclusive, hwaits⟩ := no_circular_wait h hclean c (mem_visited_self _ _)
  exact ⟨c, hblocked, hexclusive, fun i => (hwaits i).1, (hwaits (some 0)).2 hblocked⟩

end LsoStore
