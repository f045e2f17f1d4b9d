import LsoStore.Proofs.Ownership
import LsoStore.Proofs.Removal
import LsoStore.Proofs.UseCounts

/-!
# How often a request uses a file

What a request does to `data_info` is read off what its calls returned: the path
it was read with, the mutexes it got, and whether the data came. Everything else
it does to a record that it leaves in place is to the owner or to the contents.
Open requests are the exception, since they assign to the word as well.
-/

namespace LsoStore

open Proc FileStorage

instance (request : SMessage) : Decidable (Writes request) :=
  inferInstanceAs (Decidable (_ ∨ _))

/-- How often the request uses the file at `a`. -/
def ServedRequest.uses (r : ServedRequest) (a : Nat) : Nat :=
  if opOf r.request = sapiReadNFiles then
    if .trylock (.file a) true ∈ r.trace ∧ (r.before.st.file a).data ≠ [] then 1 else 0
  else if readPath r.trace >>= r.before.st.table.huGet = some a then
    if Writes r.request ∧ dataRead r.trace then 2 else 1
  else 0

namespace ServedRequest

/-- The request closes the file at `a`, which its client has open. -/
def Closes (r : ServedRequest) (a : Nat) : Prop :=
  opOf r.request = sapiCloseFile ∧ readPath r.trace >>= r.before.st.table.huGet = some a ∧
    (r.before.st.file a).client = r.client

/-- The request removes the file at `a`, which is the one that what was left of
its path leads to. -/
def Removes (r : ServedRequest) (a : Nat) : Prop :=
  opOf r.request = sapiRemoveFile ∧ ∃ freed, .unspec freed ∈ r.trace ∧
    r.before.st.table.huGet (cString freed) = some a

/-- The request has the file at `a` closed or removed. -/
def Ends (r : ServedRequest) (a : Nat) : Prop := r.Closes a ∨ r.Removes a

/-- What a request that opens nothing does to the open files. -/
structure UsesFiles (r : ServedRequest) : Prop where
  used : ∀ a f', r.after.st.heap a = some f' → f'.client ≠ -1 →
    ∃ f, r.before.st.heap a = some f ∧ f'.client = f.client ∧
      f'.dataInfo = f.dataInfo + BitVec.ofNat 32 (r.uses a)
  kept : ∀ a f, r.before.st.heap a = some f → r.uses a ≠ 0 → ¬ r.Ends a →
    ∃ f', r.after.st.heap a = some f' ∧ f'.client = f.client
  ended : ∀ a f', r.Ends a → r.after.st.heap a = some f' → f'.client = -1

variable {r : ServedRequest}

theorem uses_of_path (hop : opOf r.request ≠ sapiReadNFiles) (a : Nat) :
    r.uses a = if readPath r.trace >>= r.before.st.table.huGet = some a then
      (if Writes r.request ∧ dataRead r.trace then 2 else 1) else 0 := by
  rw [uses, if_neg hop]

theorem uses_of_looked (hop : opOf r.request ≠ sapiReadNFiles)
    (hdata : ¬ (Writes r.request ∧ dataRead r.trace)) {path : List UInt8}
    (hpath : readPath r.trace = some path) (a : Nat) :
    r.uses a = if r.before.st.table.huGet path = some a then 1 else 0 := by
  rw [uses_of_path hop, if_neg hdata, hpath]
  rfl

theorem not_ends_of_op (hclose : opOf r.request ≠ sapiCloseFile)
    (hremove : opOf r.request ≠ sapiRemoveFile) (a : Nat) : ¬ r.Ends a :=
  not_or.mpr ⟨fun h => hclose h.1, fun h => hremove h.1⟩

theorem not_ends_of_writes (hop : Writes r.request) (a : Nat) : ¬ r.Ends a :=
  not_ends_of_op (hop.ne (by decide)) (hop.ne (by decide)) a

/-- A request that did not get to a path ends nothing. -/
theorem not_ends_of_readPath (hpath : readPath r.trace = none)
    (hfreed : ∀ freed, .unspec freed ∉ r.trace) (a : Nat) : ¬ r.Ends a := by
  intro h
  rcases h with ⟨-, hget, -⟩ | ⟨-, freed, hin, -⟩
  · rw [hpath] at hget
    cases hget
  · exact hfreed freed hin

theorem UsesFiles.of_counted {keep : Nat → Prop} {n : Nat → Nat}
    (h : Counted keep n r.before.st r.after.st) (hn : ∀ a, n a = r.uses a)
    (hkeep : ∀ a, r.uses a ≠ 0 → ¬ r.Ends a → keep a)
    (hends : ∀ a, r.Ends a → r.after.st.heap a = none) : r.UsesFiles where
  used a f' hf' _ := by
    rw [← hn a]
    exact h.used a f' hf'
  kept a f hf huse hstays := by
    obtain ⟨f', hf', hclient, -⟩ := h.record (hkeep a huse hstays) hf
    exact ⟨f', hf', hclient⟩
  ended a f' ha hf' := by
    rw [hends a ha] at hf'
    cases hf'

/-- A request that changes nothing uses nothing. -/
theorem UsesFiles.of_same (hst : r.after.st = r.before.st) (hn : ∀ a, r.uses a = 0)
    (hends : ∀ a, ¬ r.Ends a) : r.UsesFiles := by
  refine .of_counted (n := fun _ => 0) ?_ (fun a => (hn a).symm) (fun _ _ _ => trivial)
    fun a ha => absurd ha (hends a)
  rw [hst]
  exact .refl (fun _ => True) _

/-- A request that did not get to a path. -/
theorem UsesFiles.of_readPath (hop : opOf r.request ≠ sapiReadNFiles)
    (hst : r.after.st = r.before.st) (hpath : readPath r.trace = none)
    (hfreed : ∀ freed, .unspec freed ∉ r.trace) : r.UsesFiles := by
  refine .of_same hst (fun a => ?_) (not_ends_of_readPath hpath hfreed)
  rw [uses_of_path hop, hpath]
  rfl

end ServedRequest

section Handlers

open ServedRequest

variable {w : World FileStorage Mutex} {request : SMessage} {client : Int}

/-- The request is done and the files have been used as its calls say. -/
def Used (request : SMessage) (client : Int) (w : World FileStorage Mutex)
    (tr : List (Event Mutex)) (o : Out Int) (w' : World FileStorage Mutex) : Prop :=
  ∀ ret, o = .ret ret → UsesFiles ⟨request, client, tr, w, w'⟩

/-- The handlers that read a path begin alike: without one nothing is used. -/
theorem used_of_path {p : ServerM Int} {k : List UInt8 → ServerM Int} {r : Int}
    (hnotN : opOf request ≠ sapiReadNFiles)
    (hp : p = if request = 0 ∨ client = 0 then .ret (-1) else do
      match ← serverGetPath request client with
      | none => sapiRespond sapiFailure client (.ret r)
      | some path => k path)
    (hk : client ≠ 0 → ∀ buf, (k (cString buf)).Ensures w fun tr =>
      Used request client w (.read (lenOf request) (some buf) :: tr)) :
    p.Ensures w (Used request client w) := by
  exact Ensures.withPath hp (fun _ _ => .of_readPath hnotN rfl rfl (by simp))
    (fun _ h => by cases h)
    (fun _ _ _ => .of_readPath hnotN rfl rfl (by simp)) hk

/-- A write adds the use that its data counts to the one of the lookup. -/
theorem used_of_write {r : ServedRequest} {path : List UInt8} (hop : Writes r.request)
    (hnotN : opOf r.request ≠ sapiReadNFiles) (hpath : readPath r.trace = some path)
    (h : Counted (fun a => r.before.st.table.huGet path = some a)
      (fun a => if r.before.st.table.huGet path = some a ∧ dataRead r.trace then 1 else 0)
      (r.before.st.fuGetfile path).2 r.after.st) : r.UsesFiles := by
  have hlook := counted_fuGetfile (fun a => r.before.st.table.huGet path = some a)
    r.before.st path
  have huses : ∀ a, r.uses a = if r.before.st.table.huGet path = some a then
      (if Writes r.request ∧ dataRead r.trace then 2 else 1) else 0 := by
    intro a
    rw [uses_of_path hnotN, hpath]
    rfl
  refine .of_counted (hlook.trans h) (fun a => ?_) (fun a huse _ => ?_)
    fun a ha => absurd ha (not_ends_of_writes hop a)
  · rw [huses]
    by_cases hget : r.before.st.table.huGet path = some a
    · by_cases hdata : dataRead r.trace = true
      · simp [hget, hdata, hop]
      · simp [hget, hdata]
    · simp [hget]
  · rw [huses] at huse
    exact of_not_not fun hget => huse (if_neg hget)

/-- A request that looks its file up and leaves it at that. -/
theorem used_of_looked {r : ServedRequest} {path : List UInt8}
    (hnotN : opOf r.request ≠ sapiReadNFiles) (hdata : ¬ (Writes r.request ∧ dataRead r.trace))
    (hends : ∀ a, ¬ r.Ends a) (hpath : readPath r.trace = some path)
    (hst : r.after.st = (r.before.st.fuGetfile path).2) : r.UsesFiles := by
  have hlook := counted_fuGetfile (fun _ => True) r.before.st path
  rw [← hst] at hlook
  exact .of_counted hlook (fun a => (uses_of_looked hnotN hdata hpath a).symm)
    (fun _ _ _ => trivial) fun a ha => absurd ha (hends a)

theorem serverWriteAt_used (qsort : Qsort Nat) {offset : FileData → Nat}
    (hoff : ∀ f, offset f ≤ f.dataLen) (hop : Writes request) (hwf : w.st.WellFormed) :
    (serverWriteAt qsort offset request client).Ensures w (Used request client w) := by
  have hnotN : opOf request ≠ sapiReadNFiles := hop.ne (by decide)
  refine used_of_path hnotN rfl fun hc buf => ?_
  refine ensures_lock.mpr ⟨fun _ _ h => (by cases h), fun _ => ?_⟩
  rw [ensures_getfile]
  dsimp only
  set tr₀ : List (Event Mutex) := [.read (lenOf request) (some buf)] with htr₀
  have hquiet : ∀ (tr : List (Event Mutex)) (w' : World FileStorage Mutex),
      (sapiSuccess, true) ∉ answers (tr₀ ++ tr) →
      w'.st = (w.st.fuGetfile (cString buf)).2 →
      UsesFiles ⟨request, client, tr₀ ++ tr, w, w'⟩ := by
    intro tr w' htold hst
    refine used_of_looked hnotN (fun h => ?_) (not_ends_of_writes hop) rfl hst
    rw [dataRead_eq_false htold] at h
    exact absurd h.2 (by decide)
  cases hget : w.st.table.huGet (cString buf) with
  | none =>
      rw [ensures_unlock, ensures_sapiRespond hc, ensures_ret]
      exact ⟨fun _ _ => hquiet [_] _ (by simp [htr₀]) rfl,
        fun _ _ => hquiet [_] _ (by simp [htr₀, sapiFnf, sapiSuccess]) rfl⟩
  | some file =>
      refine Ensures.lockFile (fun _ _ h => (by cases h)) (fun _ _ h => (by cases h))
        fun _ f _ => ?_
      split
      · rw [ensures_unlock, ensures_sapiRespond hc, ensures_ret]
        exact ⟨fun _ _ => hquiet [_] _ (by simp [htr₀]) rfl,
          fun _ _ => hquiet [_] _ (by simp [htr₀, sapiLocked, sapiSuccess]) rfl⟩
      · have hmake : ∀ (pre : List (Event Mutex)) (n : Nat), answers pre = [] →
            (serverMakeRoom qsort offset client file n).Ensures
              ⟨(w.st.fuGetfile (cString buf)).2,
                insert (.file file) (insert .storage w.held)⟩
              fun tr => Used request client w (tr₀ ++ (pre ++ tr)) := by
          intro pre n hpre
          refine (serverMakeRoom_counted qsort hc hoff (hwf.fuGetfile (cString buf))
            (tr₀ ++ pre) (by simp [htr₀, hpre])).mono
            fun tr o w' h ret hret => ?_
          have hcount := h ret hret
          rw [List.append_assoc] at hcount
          refine used_of_write hop hnotN rfl ((hcount.mono fun a ha => ?_).congr fun a => ?_)
          · rw [hget] at ha
            injection ha with ha
            exact ha ▸ Finset.mem_insert_self ..
          · dsimp only
            rw [hget, writeUse, useOf]
            by_cases ha : a = file
            · simp [ha]
            · simp [ha, Ne.symm ha]
        rw [ensures_checkReadResponse hc]
        refine ⟨fun junk => hmake [.read 8 none, .unspec junk] _ rfl,
          fun bs _ => ⟨fun _ ok ret _ => ?_, fun _ => hmake [.read 8 (some bs)] _ rfl⟩⟩
        have hfailed : (sapiSuccess, true) ≠ (sapiFailure, ok) := by
          revert ok
          decide
        exact hquiet [.read 8 (some bs), .write (.word sapiFailure) ok] _
          (by simp [htr₀, hfailed]) rfl

/-- A close that is refused, the path leading nowhere or to somebody else's file. -/
theorem used_of_not_closed {r : ServedRequest} {path : List UInt8}
    (hop : opOf r.request = sapiCloseFile) (hpath : readPath r.trace = some path)
    (hother : ∀ a, r.before.st.table.huGet path = some a →
      (r.before.st.file a).client ≠ r.client)
    (hst : r.after.st = (r.before.st.fuGetfile path).2) : r.UsesFiles := by
  have hends : ∀ a, ¬ r.Ends a := by
    intro a h
    rcases h with ⟨-, hget, howner⟩ | ⟨hremove, -⟩
    · rw [hpath] at hget
      exact hother a hget howner
    · rw [hop] at hremove
      cases hremove
  exact used_of_looked (hop.trans_ne (by decide)) (fun h => h.1.ne (by decide) hop) hends hpath hst

/-- A file that is closed is not open, and no other one is used. -/
theorem used_of_closed {r : ServedRequest} {path : List UInt8} {file : Nat}
    (hop : opOf r.request = sapiCloseFile) (hpath : readPath r.trace = some path)
    (hget : r.before.st.table.huGet path = some file)
    (howner : (r.before.st.file file).client = r.client)
    (hst : r.after.st = (r.before.st.fuGetfile path).2.modifyFile file
      fun f => { f with client := -1 }) : r.UsesFiles := by
  have hnotN : opOf r.request ≠ sapiReadNFiles := hop.trans_ne (by decide)
  have hnotW : ¬ Writes r.request := fun h => h.ne (by decide) hop
  have huses := uses_of_looked hnotN (fun h => hnotW h.1) hpath
  have hfile : ∀ a, r.uses a ≠ 0 → a = file := by
    intro a huse
    rw [huses] at huse
    have ha : r.before.st.table.huGet path = some a := of_not_not fun h => huse (if_neg h)
    rw [hget] at ha
    injection ha with ha
    exact ha.symm
  have hclosed : ∀ f', r.after.st.heap file = some f' → f'.client = -1 := by
    intro f' hf'
    rw [hst, modifyFile_heap, if_pos rfl] at hf'
    obtain ⟨f, -, rfl⟩ := Option.map_eq_some_iff.mp hf'
    rfl
  constructor
  · intro a f' hf' hopen
    have ha : a ≠ file := by
      intro heq
      subst heq
      exact hopen (hclosed f' hf')
    rw [hst, modifyFile_heap_of_ne _ _ _ ha] at hf'
    rw [huses]
    exact (counted_fuGetfile (fun _ => True) r.before.st path).used a f' hf'
  · intro a f _ huse hstays
    obtain rfl := hfile a huse
    refine absurd (.inl ⟨hop, ?_, howner⟩) hstays
    rw [hpath]
    exact hget
  · intro a f' h hf'
    rcases h with ⟨-, hget', -⟩ | ⟨hremove, -⟩
    · rw [hpath] at hget'
      obtain rfl : file = a := Option.some.inj (hget.symm.trans hget')
      exact hclosed f' hf'
    · rw [hop] at hremove
      cases hremove

theorem serverCloseFile_used (hop : opOf request = sapiCloseFile) :
    (serverCloseFile request client).Ensures w (Used request client w) := by
  have hnotN : opOf request ≠ sapiReadNFiles := hop.trans_ne (by decide)
  refine used_of_path hnotN rfl fun hc buf => ?_
  rw [ensures_getfile]
  cases hget : w.st.table.huGet (cString buf) with
  | none =>
      have hother : ∀ a, w.st.table.huGet (cString buf) = some a →
          (w.st.file a).client ≠ client := by
        intro a ha
        rw [hget] at ha
        cases ha
      rw [ensures_sapiRespond hc, ensures_ret]
      exact ⟨fun _ _ => used_of_not_closed hop rfl hother rfl,
        fun _ _ => used_of_not_closed hop rfl hother rfl⟩
  | some file =>
      refine Ensures.lockFile (fun _ _ h => (by cases h)) (fun _ _ h => (by cases h))
        fun _ f hf => ?_
      have howner := fuGetfile_client _ hf
      split
      · next hne =>
          have hother : ∀ a, w.st.table.huGet (cString buf) = some a →
              (w.st.file a).client ≠ client := by
            intro a ha
            rw [hget] at ha
            injection ha with ha
            rw [← ha, howner]
            exact hne
          rw [ensures_unlock, ensures_sapiRespond hc, ensures_ret]
          exact ⟨fun _ _ => used_of_not_closed hop rfl hother rfl,
            fun _ _ => used_of_not_closed hop rfl hother rfl⟩
      · next heq =>
          rw [not_not.mp heq] at howner
          rw [ensures_assign, ensures_unlock, ensures_sapiRespond hc, ensures_ret]
          exact ⟨fun _ _ => used_of_closed hop rfl hget howner rfl,
            fun _ _ => used_of_closed hop rfl hget howner rfl⟩

theorem serverReadFile_used (hop : opOf request = sapiReadFile) :
    (serverReadFile request client).Ensures w (Used request client w) := by
  have hnotN : opOf request ≠ sapiReadNFiles := hop.trans_ne (by decide)
  have hlooked : ∀ buf w', w'.st = (w.st.fuGetfile (cString buf)).2 → ∀ rest,
      UsesFiles ⟨request, client, .read (lenOf request) (some buf) :: rest, w, w'⟩ := by
    intro buf w' hst rest
    exact used_of_looked hnotN (fun h => h.1.ne (by decide) hop)
      (not_ends_of_op (hop.trans_ne (by decide)) (hop.trans_ne (by decide))) rfl hst
  refine used_of_path hnotN rfl fun hc buf => ?_
  rw [ensures_getfile]
  cases hget : w.st.table.huGet (cString buf) with
  | none =>
      rw [ensures_sapiRespond hc, ensures_ret]
      exact ⟨fun _ _ => hlooked _ _ rfl _, fun _ _ => hlooked _ _ rfl _⟩
  | some file =>
      refine Ensures.lockFile (fun _ _ h => (by cases h)) (fun _ _ h => (by cases h))
        fun _ f hf => ?_
      split
      · rw [ensures_unlock, ensures_sapiRespond hc, ensures_ret]
        exact ⟨fun _ _ => hlooked _ _ rfl _, fun _ _ => hlooked _ _ rfl _⟩
      · rw [ensures_sapiRespond hc]
        refine ⟨fun _ _ => hlooked _ _ rfl _, ?_⟩
        refine Ensures.serverSendData_bind fun tr _ _ => ?_
        rw [ensures_unlock, ensures_ret]
        exact fun _ _ => hlooked _ _ rfl _

/-- A removal that is refused. -/
theorem used_of_not_removed {r : ServedRequest} {path : List UInt8}
    (hop : opOf r.request = sapiRemoveFile) (hpath : readPath r.trace = some path)
    (hfreed : ∀ freed, .unspec freed ∉ r.trace)
    (hst : r.after.st = (r.before.st.fuGetfile path).2) : r.UsesFiles := by
  have hends : ∀ a, ¬ r.Ends a := by
    intro a h
    rcases h with ⟨hclose, -⟩ | ⟨-, freed, hin, -⟩
    · rw [hop] at hclose
      cases hclose
    · exact hfreed freed hin
  exact used_of_looked (hop.trans_ne (by decide)) (fun h => h.1.ne (by decide) hop) hends hpath hst

/-- A removal uses the file it looked up, and takes one away. -/
theorem used_of_removed {r : ServedRequest} {path : List UInt8} (freed : List UInt8)
    (hop : opOf r.request = sapiRemoveFile) (hwf : r.before.st.WellFormed)
    (hpath : readPath r.trace = some path)
    (hfreed : ∀ bs, .unspec bs ∈ r.trace ↔ bs = freed)
    (hst : r.after.st = ((r.before.st.fuGetfile path).2.fuRemoveFile (cString freed)).2) :
    r.UsesFiles := by
  have hnotN : opOf r.request ≠ sapiReadNFiles := hop.trans_ne (by decide)
  have hnotW : ¬ Writes r.request := fun h => h.ne (by decide) hop
  have huses := uses_of_looked hnotN (fun h => hnotW h.1) hpath
  have hlook := counted_fuGetfile (fun _ => True) r.before.st path
  have hwf₁ := hwf.fuGetfile path
  have hwf₂ := hwf₁.fuRemoveFile (cString freed)
  rw [← hst] at hwf₂
  have hgone : ∀ a, r.before.st.heap a ≠ none →
      (r.after.st.heap a ≠ none ↔ r.before.st.table.huGet (cString freed) ≠ some a) := by
    intro a ha
    have hin : a ∈ (r.before.st.fuGetfile path).2.ptrs :=
      hwf₁.mem_ptrs_iff.mpr (hlook.kept a trivial ha)
    rw [← hwf₂.mem_ptrs_iff, hst, hwf₁.mem_ptrs_fuRemoveFile _ hin, fuGetfile_table,
      Option.mem_toList]
  have hcount : Counted (fun a => ¬ r.Ends a)
      (fun a => if r.before.st.table.huGet path = some a then 1 else 0)
      r.before.st r.after.st := by
    refine ⟨fun a f' hf' => ?_, fun a hstays hf => (hgone a hf).mpr fun hq => ?_⟩
    · rw [hst] at hf'
      exact hlook.used a f' (hwf₁.heap_of_fuRemoveFile hf')
    · exact hstays (.inr ⟨hop, freed, (hfreed freed).mpr rfl, hq⟩)
  refine .of_counted hcount (fun a => (huses a).symm) (fun _ _ hstays => hstays) ?_
  intro a h
  rcases h with ⟨hclose, -⟩ | ⟨-, bs, hin, hq⟩
  · rw [hop] at hclose
    cases hclose
  · rw [(hfreed bs).mp hin] at hq
    exact of_not_not fun hstored =>
      (hgone a (hwf.mem_ptrs_iff.mp (WellFormed.huGet_mem_ptrs hq))).mp hstored hq

theorem serverRemoveFile_used (hop : opOf request = sapiRemoveFile) (hwf : w.st.WellFormed) :
    (serverRemoveFile request client).Ensures w (Used request client w) := by
  have hnotN : opOf request ≠ sapiReadNFiles := hop.trans_ne (by decide)
  refine used_of_path hnotN rfl fun hc buf => ?_
  refine ensures_lock.mpr ⟨fun _ _ h => (by cases h), fun _ => ?_⟩
  rw [ensures_getfile]
  dsimp only
  cases w.st.table.huGet (cString buf) with
  | none =>
      rw [ensures_unlock, ensures_sapiRespond hc, ensures_ret]
      exact ⟨fun _ _ => used_of_not_removed hop rfl (by simp) rfl,
        fun _ _ => used_of_not_removed hop rfl (by simp) rfl⟩
  | some file =>
      refine Ensures.lockFile (fun _ _ h => (by cases h)) (fun _ _ h => (by cases h))
        fun _ f _ => ?_
      split
      · rw [ensures_unlock, ensures_unlock, ensures_sapiRespond hc, ensures_ret]
        exact ⟨fun _ _ => used_of_not_removed hop rfl (by simp) rfl,
          fun _ _ => used_of_not_removed hop rfl (by simp) rfl⟩
      · rw [ensures_unlock, ensures_unspec]
        intro freed
        rw [ensures_removefile, ensures_unlock, ensures_sapiRespond hc, ensures_ret]
        exact ⟨fun _ _ => used_of_removed freed hop hwf rfl (by simp) rfl,
          fun _ _ => used_of_removed freed hop hwf rfl (by simp) rfl⟩

theorem serverReadNFiles_used (hop : opOf request = sapiReadNFiles) (hwf : w.st.WellFormed) :
    (serverReadNFiles request client).Ensures w (Used request client w) := by
  have huses : ∀ tr w' a, uses ⟨request, client, tr, w, w'⟩ a = listingUse w.st tr a :=
    fun tr w' a => if_pos hop
  have hends : ∀ tr w' a, ¬ Ends ⟨request, client, tr, w, w'⟩ a := by
    intro tr w'
    exact not_ends_of_op (hop.trans_ne (by decide)) (hop.trans_ne (by decide))
  rw [serverReadNFiles]
  split
  · rw [ensures_ret]
    exact fun _ _ => .of_same rfl
      (fun a => (huses [] w a).trans (listingUse_eq_zero (by simp))) (hends [] w)
  · next hmc =>
      refine ensures_lock.mpr ⟨fun _ _ h => (by cases h), fun _ => ?_⟩
      rw [ensures_get]
      refine (readNFilesLoop_listed (not_or.mp hmc).2 _ _ hwf.accounted.nodup).mono
        fun tr o w' h r hr => ?_
      exact .of_counted (h r hr).counted (fun a => (huses tr w' a).symm)
        (fun _ _ _ => trivial) fun a ha => absurd ha (hends tr w' a)

/-- Every request that opens nothing. -/
theorem serve_used (qsort : Qsort Nat) (hop : opOf request ≠ sapiOpenFile)
    (hwf : w.st.WellFormed) : (serve qsort request client).Ensures w (Used request client w) := by
  refine Ensures.serve_cases (fun h => absurd h hop) serverCloseFile_used serverReadFile_used
    (fun h => serverReadNFiles_used h hwf)
    (fun h => serverWriteAt_used qsort (fun f => Nat.zero_le _) (.inl h) hwf)
    (fun h => serverWriteAt_used qsort (fun f => Nat.le_refl _) (.inr h) hwf)
    (fun h _ _ => .of_readPath ?_ rfl rfl (by simp)) (fun h => serverRemoveFile_used h hwf)
    (fun h => ?_)
  · rcases h with h | h
    · rw [h]
      decide
    · rw [h]
      decide
  · have hnotN : opOf request ≠ sapiReadNFiles := by
      intro heq
      rw [heq] at h
      exact h (by decide)
    split
    · exact fun _ _ => .of_readPath hnotN rfl rfl (by simp)
    · exact fun _ _ _ => .of_readPath hnotN rfl rfl (by simp)

end Handlers

end LsoStore
