import Mathlib.Data.Nat.Bitwise
import LsoStore.Proofs.RequestUses
import LsoStore.Proofs.Sections

/-!
# The lock flag

O_LOCK is bit 1 of `data_info`, and `data_info` is also the counter of a file's
uses. `server_openFile` does not set the bit for a client that asks for it: it
clears all the others. So what the bit says of an open file is what the counter
happened to be when the file was opened, and from then on every second use
turns it over.
-/

namespace LsoStore

open Proc FileStorage

namespace ServedRequest

/-- The request opens the file at `a`, which was stored and which nobody had
open. -/
def OpensStored (r : ServedRequest) (a : Nat) : Prop :=
  opOf r.request = sapiOpenFile ∧ r.client ≠ -1 ∧
    readPath r.trace >>= r.before.st.table.huGet = some a ∧ (r.before.st.file a).client = -1

/-- The request opens a new file. -/
def OpensNew (r : ServedRequest) : Prop :=
  opOf r.request = sapiOpenFile ∧ r.client ≠ -1 ∧ hasFlag r.request oCreate = true ∧
    r.before.st.HasRoom ∧
    ∃ path, readPath r.trace = some path ∧ r.before.st.table.huGet path = none

/-- The request leaves the flag of every open file as it should be: it asks for
no lock on a new file, it asks for one on a stored file exactly if the lookup
turns the bit on, and a file that is open and stays open it uses at most once,
on an even count. -/
structure KeepsLockFlags (r : ServedRequest) : Prop where
  created : r.OpensNew → hasFlag r.request oLock = false
  taken : ∀ a, r.OpensStored a →
    hasFlag r.request oLock = hasFlag ((r.before.st.file a).dataInfo + 1) oLock
  used : ∀ a ∈ r.before.st.ptrs, (r.before.st.file a).client ≠ -1 → ¬ r.Ends a →
    r.uses a = 0 ∨ (r.uses a = 1 ∧ (r.before.st.file a).dataInfo.toNat % 2 = 0)

end ServedRequest

/-- Every open file has the flag that the request asked for which gave it its
owner. -/
def LockFlags (past : List ServedRequest) (s : FileStorage) : Prop :=
  ∀ a ∈ s.ptrs, (s.file a).client ≠ -1 →
    ∃ r, IsLastOf (fun r => r.Opened a) past r ∧
      hasFlag (s.file a).dataInfo oLock = hasFlag r.request oLock

/-! ## The bit -/

theorem hasFlag_oLock_iff (d : BitVec 32) : hasFlag d oLock = true ↔ d.toNat / 2 % 2 = 1 := by
  have hword : hasFlag d oLock = true ↔ d &&& 2#32 ≠ 0#32 := decide_eq_true_iff
  have hand : (d &&& 2#32).toNat = (d.toNat.testBit 1).toNat * 2 := by
    rw [BitVec.toNat_and]
    exact Nat.and_two_pow d.toNat 1
  have hbit : d.toNat.testBit 1 = decide (d.toNat / 2 % 2 = 1) := by
    rw [Nat.testBit_eq_decide_div_mod_eq, Nat.pow_one]
  rw [hword, ne_eq, ← BitVec.toNat_inj, hand, hbit]
  by_cases h : d.toNat / 2 % 2 = 1
  · simp [h]
  · simp [h]

/-- Clearing the other bits leaves the flag as it is. -/
theorem hasFlag_oLock_and (d : BitVec 32) :
    hasFlag (d &&& oLock.zeroExtend 32) oLock = hasFlag d oLock := by
  rw [hasFlag, hasFlag, BitVec.and_assoc, BitVec.and_self]

theorem hasFlag_oLock_openedBy (f : FileData) (request : SMessage) (client : Int) :
    hasFlag (f.openedBy request client).dataInfo oLock = hasFlag f.dataInfo oLock := by
  rw [FileData.openedBy]
  dsimp only
  split
  · exact hasFlag_oLock_and f.dataInfo
  · rfl

/-- One use turns the bit over if the count is odd, and two always do. -/
theorem hasFlag_oLock_add (d : BitVec 32) {n : Nat} (hn : n ≤ 2) :
    hasFlag (d + BitVec.ofNat 32 n) oLock = hasFlag d oLock ↔
      n = 0 ∨ (n = 1 ∧ d.toNat % 2 = 0) := by
  have hsum : (d + BitVec.ofNat 32 n).toNat = (d.toNat + n) % 2 ^ 32 := by
    rw [BitVec.toNat_add, BitVec.toNat_ofNat]
    omega
  rw [Bool.eq_iff_iff, hasFlag_oLock_iff, hasFlag_oLock_iff, hsum]
  have hlt := d.isLt
  omega

/-! ## Opening -/

section Open

variable {w : World FileStorage Mutex} {request : SMessage} {client : Int}

/-- What an open request for `path` makes of `s`. -/
inductive OpensTo (request : SMessage) (client : Int) (s : FileStorage) (path : List UInt8) :
    FileStorage → Prop where
  | refused (s' : FileStorage) : (∀ a, s'.heap a = (s.fuGetfile path).2.heap a) →
      (∀ a, s.table.huGet path = some a → (s.file a).client ≠ -1) →
      (s.table.huGet path = none → hasFlag request oCreate = true → ¬ s.HasRoom) →
      OpensTo request client s path s'
  | taken (a : Nat) : s.table.huGet path = some a → (s.file a).client = -1 →
      OpensTo request client s path
        ((s.fuGetfile path).2.modifyFile a (·.openedBy request client))
  | created : s.table.huGet path = none → hasFlag request oCreate = true → s.HasRoom →
      OpensTo request client s path
        ((s.place (.openedBy ⟨[], -1, 0, []⟩ request client)).2.fuAddFile s.next path).2

theorem serverOpenFile_opensTo (hwf : w.st.WellFormed) :
    (serverOpenFile request client).Ensures w fun tr o w' => ∀ ret, o = .ret ret →
      (readPath tr = none ∧ w'.st = w.st) ∨
      ∃ path, readPath tr = some path ∧ OpensTo request client w.st path w'.st := by
  refine Ensures.withPath rfl (fun _ _ => .inl ⟨rfl, rfl⟩)
    (fun _ h => by cases h)
    (fun _ _ _ => .inl ⟨rfl, rfl⟩) fun hc buf => ?_
  rw [ensures_getfile]
  cases hget : w.st.table.huGet (cString buf) with
  | none =>
      have hsame : (w.st.fuGetfile (cString buf)).2 = w.st := by
        rw [fuGetfile_snd, hget]
      dsimp only
      rw [hsame]
      split
      · next hflag =>
          have hno : OpensTo request client w.st (cString buf) w.st := by
            refine .refused _ (fun _ => by rw [hsame]) (fun a ha => ?_) fun _ hcreate => ?_
            · rw [hget] at ha
              cases ha
            · rw [hcreate] at hflag
              cases hflag
          rw [ensures_sapiRespond hc, ensures_ret]
          exact ⟨fun _ _ => .inr ⟨_, rfl, hno⟩, fun _ _ => .inr ⟨_, rfl, hno⟩⟩
      · next hflag =>
          have hflag : hasFlag request oCreate = true := by simpa using hflag
          rw [ensures_serverCreateFile hc]
          refine ⟨fun _ _ h => (by cases h), fun _ => ⟨fun hfull ok _ _ => ?_,
            fun hroom ok _ _ => .inr ⟨_, rfl, .created hget hflag hroom⟩⟩⟩
          refine .inr ⟨_, rfl, .refused _ (fun a => ?_) (fun a ha => ?_) fun _ _ => ?_⟩
          · rw [hsame, hwf.place_fuFreeFileData]
          · rw [hget] at ha
            cases ha
          · exact not_not.mpr hfull
  | some file =>
      refine Ensures.lockFile (fun _ _ h => (by cases h)) (fun _ _ h => (by cases h))
        fun _ f hf => ?_
      have howner := fuGetfile_client _ hf
      split
      · next hopen =>
          have hno : OpensTo request client w.st (cString buf)
              (w.st.fuGetfile (cString buf)).2 := by
            refine .refused _ (fun _ => rfl) (fun a ha => ?_) fun hnone => ?_
            · rw [hget] at ha
              injection ha with ha
              rw [← ha, howner]
              exact hopen
            · rw [hget] at hnone
              cases hnone
          rw [ensures_unlock, ensures_sapiRespond hc, ensures_ret]
          exact ⟨fun _ _ => .inr ⟨_, rfl, hno⟩, fun _ _ => .inr ⟨_, rfl, hno⟩⟩
      · next hfree =>
          rw [not_not.mp hfree] at howner
          have hyes : OpensTo request client w.st (cString buf) _ :=
            .taken file hget howner
          rw [ensures_takeOwnership, ensures_unlock, ensures_sapiRespond hc, ensures_ret]
          exact ⟨fun _ _ => .inr ⟨_, rfl, hyes⟩, fun _ _ => .inr ⟨_, rfl, hyes⟩⟩

end Open

/-! ## One request -/

namespace ServedRequest

variable {r : ServedRequest} {a : Nat} {path : List UInt8}

theorem openedPath_eq_readPath (hop : opOf r.request = sapiOpenFile) :
    openedPath r.request r.trace = readPath r.trace := by
  generalize r.trace = tr
  cases tr with
  | nil => rfl
  | cons e tr =>
      cases e with
      | read n buf =>
          cases buf with
          | none => rfl
          | some buf => exact if_pos hop
      | write p ok => rfl
      | trylock m ok => rfl
      | unspec bs => rfl

/-- Why a file is open after the request, and what its flag is then. -/
inductive LeavesOpen (r : ServedRequest) (a : Nat) (f' : FileData) : Prop where
  | stays (f : FileData) : ¬ r.Opened a → ¬ r.Ends a → r.before.st.heap a = some f →
      f'.client = f.client → f'.dataInfo = f.dataInfo + BitVec.ofNat 32 (r.uses a) →
      LeavesOpen r a f'
  | taken : r.Opened a → r.OpensStored a →
      hasFlag f'.dataInfo oLock = hasFlag ((r.before.st.file a).dataInfo + 1) oLock →
      LeavesOpen r a f'
  | created : r.Opened a → r.OpensNew → hasFlag f'.dataInfo oLock = false → LeavesOpen r a f'

/-- What a request does to the open files and their flags. -/
structure Effect (r : ServedRequest) : Prop where
  leavesOpen : ∀ a f', r.after.st.heap a = some f' → f'.client ≠ -1 → r.LeavesOpen a f'
  kept : ∀ a f, r.before.st.heap a = some f → f.client ≠ -1 → r.uses a ≠ 0 → ¬ r.Ends a →
    ∃ f', r.after.st.heap a = some f' ∧ f'.client = f.client
  taken : ∀ a, r.OpensStored a → ∃ f', r.after.st.heap a = some f' ∧ f'.client ≠ -1
  created : r.OpensNew →
    ∃ a f', r.before.st.heap a = none ∧ r.after.st.heap a = some f' ∧ f'.client ≠ -1

theorem UsesFiles.effect (h : r.UsesFiles) (hop : opOf r.request ≠ sapiOpenFile) : r.Effect where
  leavesOpen a f' hf' hopen := by
    obtain ⟨f, hf, hclient, hinfo⟩ := h.used a f' hf' hopen
    refine .stays f (fun ho => hop ho.op) (fun he => ?_) hf hclient hinfo
    exact hopen (h.ended a f' he hf')
  kept a f hf _ := h.kept a f hf
  taken _ ht := absurd ht.1 hop
  created hc := absurd hc.1 hop

theorem not_ends_of_open (hop : opOf r.request = sapiOpenFile) (a : Nat) : ¬ r.Ends a :=
  not_ends_of_op (hop.trans_ne (by decide)) (hop.trans_ne (by decide)) a

/-- A file that had an owner before was not opened. -/
theorem not_opened_of_owner {f : FileData} (hf : r.before.st.heap a = some f)
    (howner : f.client ≠ -1) : ¬ r.Opened a := fun ho => howner (ho.before f hf)

/-- An open request that leaves the owners alone. -/
theorem Effect.of_counted (hop : opOf r.request = sapiOpenFile)
    (h : Counted (fun _ => True) r.uses r.before.st r.after.st)
    (htaken : ∀ a, ¬ r.OpensStored a) (hcreated : ¬ r.OpensNew) : r.Effect where
  leavesOpen a f' hf' hopen := by
    obtain ⟨f, hf, hclient, hinfo⟩ := h.used a f' hf'
    exact .stays f (not_opened_of_owner hf (hclient ▸ hopen)) (not_ends_of_open hop a) hf hclient
      hinfo
  kept a f hf _ _ _ := by
    obtain ⟨f', hf', hclient, -⟩ := h.record trivial hf
    exact ⟨f', hf', hclient⟩
  taken a ht := absurd ht (htaken a)
  created hc := absurd hc hcreated

theorem uses_of_open (hop : opOf r.request = sapiOpenFile) (hpath : readPath r.trace = some path)
    (a : Nat) : r.uses a = if r.before.st.table.huGet path = some a then 1 else 0 :=
  uses_of_looked (hop.trans_ne (by decide)) (fun h => h.1.ne (by decide) hop) hpath a

/-- The lookup counted the use that the flag is then read from. -/
theorem Effect.of_taken {file : Nat} (hwf : r.before.st.WellFormed)
    (hop : opOf r.request = sapiOpenFile) (hpath : readPath r.trace = some path)
    (hget : r.before.st.table.huGet path = some file)
    (hfree : (r.before.st.file file).client = -1)
    (hst : r.after.st = (r.before.st.fuGetfile path).2.modifyFile file
      (·.openedBy r.request r.client)) : r.Effect := by
  have hlook := counted_fuGetfile (fun _ => True) r.before.st path
  have hlead : readPath r.trace >>= r.before.st.table.huGet = some file := by
    rw [hpath]
    exact hget
  obtain ⟨f, hf⟩ := Option.ne_none_iff_exists'.mp
    (hwf.mem_ptrs_iff.mp (WellFormed.huGet_mem_ptrs hget))
  obtain ⟨f₁, hf₁, -, hinfo⟩ := hlook.record trivial hf
  rw [if_pos hget] at hinfo
  have hafter : r.after.st.heap file = some (f₁.openedBy r.request r.client) := by
    rw [hst, modifyFile_heap, if_pos rfl, hf₁, Option.map_some]
  have hbefore : ∀ f, r.before.st.heap file = some f → f.client = -1 := by
    intro f' hf'
    rw [← file_eq _ hf', hfree]
  have hopened : r.Opened file := by
    refine ⟨hop, ⟨path, (openedPath_eq_readPath hop).trans hpath, ?_⟩, hbefore, ?_⟩
    · rw [hst, modifyFile_table, fuGetfile_table, hget]
    · rw [file_eq _ hafter]
      rfl
  have hothers : ∀ a, a ≠ file → r.after.st.heap a = (r.before.st.fuGetfile path).2.heap a := by
    intro a ha
    rw [hst, modifyFile_heap_of_ne _ _ _ ha]
  constructor
  · intro a f' hf' hopen
    by_cases ha : a = file
    · subst ha
      rw [hafter] at hf'
      injection hf' with hf'
      subst hf'
      refine .taken hopened ⟨hop, hopen, hlead, hfree⟩ ?_
      rw [hasFlag_oLock_openedBy, hinfo, file_eq _ hf]
      rfl
    · rw [hothers a ha] at hf'
      obtain ⟨g, hg, hsame, hcount⟩ := hlook.used a f' hf'
      rw [← uses_of_open hop hpath] at hcount
      exact .stays g (not_opened_of_owner hg (hsame ▸ hopen)) (not_ends_of_open hop a) hg hsame
        hcount
  · intro a g hg howner _ _
    have ha : a ≠ file := by
      intro heq
      subst heq
      exact howner (hbefore g hg)
    obtain ⟨g', hg', hsame, -⟩ := hlook.record trivial hg
    exact ⟨g', (hothers a ha).trans hg', hsame⟩
  · intro a h
    obtain ⟨-, hclient, hlead', -⟩ := h
    obtain rfl : file = a := Option.some.inj (hlead.symm.trans hlead')
    exact ⟨_, hafter, hclient⟩
  · intro h
    obtain ⟨-, -, -, -, path', hpath', hnone⟩ := h
    rw [hpath] at hpath'
    injection hpath' with hpath'
    rw [← hpath', hget] at hnone
    cases hnone

/-- A new file starts with the whole word at 0. -/
theorem Effect.of_created (hwf : r.before.st.WellFormed)
    (hop : opOf r.request = sapiOpenFile) (hpath : readPath r.trace = some path)
    (hget : r.before.st.table.huGet path = none)
    (hcreate : hasFlag r.request oCreate = true) (hroom : r.before.st.HasRoom)
    (hst : r.after.st = ((r.before.st.place
      (.openedBy ⟨[], -1, 0, []⟩ r.request r.client)).2.fuAddFile r.before.st.next path).2) :
    r.Effect := by
  set f := FileData.openedBy ⟨[], -1, 0, []⟩ r.request r.client
  have hfull : r.before.st.fuStorageFilesAvailable ≠ 0 := fun h => hroom (.inr h)
  have heq := hst.trans (WellFormed.fuAddFile_place_eq (f := f) rfl hfull)
  have hnew : r.after.st.heap r.before.st.next = some { f with path := path } := by
    rw [heq]
    simp [place]
  have hothers : ∀ a, a ≠ r.before.st.next → r.after.st.heap a = r.before.st.heap a := by
    intro a ha
    rw [heq]
    simp [place, ha]
  have hfresh : r.before.st.heap r.before.st.next = none :=
    hwf.accounted.fresh _ (Nat.le_refl _)
  have hopened : r.Opened r.before.st.next := by
    refine ⟨hop, ⟨path, (openedPath_eq_readPath hop).trans hpath, ?_⟩, fun g hg => ?_, ?_⟩
    · have hwf' : r.after.st.WellFormed := hst ▸ hwf.create rfl hget
      have hmem : r.before.st.next ∈ r.after.st.ptrs := hst ▸ hwf.mem_ptrs_create rfl hfull
      have hlead := hwf'.huGet_path hmem
      rwa [file_eq _ hnew] at hlead
    · rw [hfresh] at hg
      cases hg
    · rw [file_eq _ hnew]
      rfl
  have hnone : ∀ a, r.uses a = 0 := by
    intro a
    rw [uses_of_open hop hpath, hget]
    rfl
  constructor
  · intro a f' hf' hopen
    by_cases ha : a = r.before.st.next
    · subst ha
      rw [hnew] at hf'
      injection hf' with hf'
      subst hf'
      refine .created hopened ⟨hop, hopen, hcreate, hroom, path, hpath, hget⟩ ?_
      show hasFlag f.dataInfo oLock = false
      rw [hasFlag_oLock_openedBy]
      decide
    · rw [hothers a ha] at hf'
      refine .stays f' (not_opened_of_owner hf' hopen) (not_ends_of_open hop a) hf' rfl ?_
      rw [hnone]
      simp
  · intro a g _ _ huse
    exact absurd (hnone a) huse
  · intro a h
    obtain ⟨-, -, hlead, -⟩ := h
    rw [hpath] at hlead
    exact absurd (hget.symm.trans hlead) (Option.some_ne_none _).symm
  · intro h
    obtain ⟨-, hclient, -⟩ := h
    exact ⟨_, _, hfresh, hnew, hclient⟩

/-- Every request that returns. -/
theorem serve_effect {qsort : Qsort Nat} {ret : Int} (hwf : r.before.st.WellFormed)
    (hr : (serve qsort r.request r.client).Runs r.before r.trace (.ret ret) r.after) :
    r.Effect := by
  by_cases hop : opOf r.request = sapiOpenFile
  · have hopens : (readPath r.trace = none ∧ r.after.st = r.before.st) ∨
        ∃ path, readPath r.trace = some path ∧
          OpensTo r.request r.client r.before.st path r.after.st := by
      rw [serve, if_pos hop] at hr
      exact serverOpenFile_opensTo hwf _ _ _ hr ret rfl
    rcases hopens with ⟨hpath, hst⟩ | ⟨path, hpath, hto⟩
    · refine .of_counted hop ?_ (fun a ht => ?_) fun hc => ?_
      · rw [hst]
        refine (Counted.refl (fun _ => True) r.before.st).congr fun a => ?_
        rw [uses_of_path (hop.trans_ne (by decide)), hpath]
        rfl
      · obtain ⟨-, -, hlead, -⟩ := ht
        rw [hpath] at hlead
        cases hlead
      · obtain ⟨-, -, -, -, path, hpath', -⟩ := hc
        rw [hpath] at hpath'
        cases hpath'
    · generalize hs' : r.after.st = s' at hto
      cases hto with
      | refused s' hheap hothers hfull =>
          refine .of_counted hop ?_ (fun a ht => ?_) fun hc => ?_
          · have hlook := counted_fuGetfile (fun _ => True) r.before.st path
            rw [← hs'] at hheap
            refine Counted.congr ⟨fun b f' hf' => hlook.used b f' ?_, fun b hb hf => ?_⟩
              fun b => (uses_of_open hop hpath b).symm
            · rw [← hheap b]
              exact hf'
            · rw [hheap b]
              exact hlook.kept b hb hf
          · obtain ⟨-, -, hlead, hfree⟩ := ht
            rw [hpath] at hlead
            exact hothers a hlead hfree
          · obtain ⟨-, -, hcreate, hroom, path', hpath', hnone⟩ := hc
            rw [hpath] at hpath'
            injection hpath' with hpath'
            exact hfull (hpath' ▸ hnone) hcreate hroom
      | taken a hget hfree => exact .of_taken hwf hop hpath hget hfree hs'
      | created hget hcreate hroom => exact .of_created hwf hop hpath hget hcreate hroom hs'
  · exact (serve_used qsort hop hwf _ _ _ hr ret rfl).effect hop

theorem OpensStored.not_creates (h : r.OpensStored a) : ¬ r.OpensNew := by
  obtain ⟨-, -, hlead, -⟩ := h
  intro h
  obtain ⟨-, -, -, -, path, hpath, hnone⟩ := h
  rw [hpath] at hlead
  exact absurd (hnone.symm.trans hlead) (Option.some_ne_none _).symm

theorem uses_le_two (r : ServedRequest) (a : Nat) : r.uses a ≤ 2 := by
  rw [uses]
  split
  · split <;> omega
  · split
    · split <;> omega
    · omega

end ServedRequest

/-- A request after which every open file has the flag it should have, if every
one had it before. -/
theorem lockFlags_snoc_iff {past : List ServedRequest} {r : ServedRequest} (he : r.Effect)
    (hwf : r.before.st.WellFormed) (hwf' : r.after.st.WellFormed)
    (h : LockFlags past r.before.st) :
    LockFlags (past ++ [r]) r.after.st ↔ r.KeepsLockFlags := by
  have hlast : LockFlags (past ++ [r]) r.after.st ↔
      ∀ a f', r.after.st.heap a = some f' → f'.client ≠ -1 →
        ∃ x, IsLastOf (fun r => r.Opened a) (past ++ [r]) x ∧
          hasFlag f'.dataInfo oLock = hasFlag x.request oLock := by
    constructor
    · intro hall a f' hf' hopen
      have hflag := hall a (hwf'.mem_ptrs_iff.mpr (by simp [hf']))
      rw [file_eq _ hf'] at hflag
      exact hflag hopen
    · intro hall a ha hopen
      obtain ⟨f', hf'⟩ := Option.ne_none_iff_exists'.mp (hwf'.mem_ptrs_iff.mp ha)
      rw [file_eq _ hf'] at hopen ⊢
      exact hall a f' hf' hopen
  rw [hlast]
  constructor
  · intro hall
    have hself : ∀ a f', r.after.st.heap a = some f' → f'.client ≠ -1 → r.Opened a →
        hasFlag f'.dataInfo oLock = hasFlag r.request oLock := by
      intro a f' hf' hopen ho
      obtain ⟨x, hx, hflag⟩ := hall a f' hf' hopen
      rcases isLastOf_snoc.mp hx with ⟨-, rfl⟩ | ⟨hnot, -⟩
      · exact hflag
      · exact absurd ho hnot
    constructor
    · intro hc
      obtain ⟨a, f', hfresh, hf', hopen⟩ := he.created hc
      rcases he.leavesOpen a f' hf' hopen with
        ⟨f, -, -, hf, -⟩ | ⟨-, ht, -⟩ | ⟨ho, -, hflag⟩
      · rw [hfresh] at hf
        cases hf
      · exact absurd hc ht.not_creates
      · rw [← hself a f' hf' hopen ho, hflag]
    · intro a ht
      obtain ⟨f', hf', hopen⟩ := he.taken a ht
      rcases he.leavesOpen a f' hf' hopen with
        ⟨f, -, -, hf, hclient, -⟩ | ⟨ho, -, hflag⟩ | ⟨-, hc, -⟩
      · have hfree := ht.2.2.2
        rw [file_eq _ hf, ← hclient] at hfree
        exact absurd hfree hopen
      · rw [← hself a f' hf' hopen ho, hflag]
      · exact absurd hc ht.not_creates
    · intro a ha howner hstays
      by_cases huse : r.uses a = 0
      · exact .inl huse
      obtain ⟨f, hf⟩ := Option.ne_none_iff_exists'.mp (hwf.mem_ptrs_iff.mp ha)
      obtain ⟨y, hy, hbefore⟩ := h a ha howner
      rw [file_eq _ hf] at howner hbefore ⊢
      obtain ⟨f', hf', hclient⟩ := he.kept a f hf howner huse hstays
      have hopen : f'.client ≠ -1 := hclient ▸ howner
      rcases he.leavesOpen a f' hf' hopen with
        ⟨f₀, hnot, -, hf₀, -, hinfo⟩ | ⟨ho, -, -⟩ | ⟨ho, -, -⟩
      · obtain rfl : f = f₀ := Option.some.inj (hf.symm.trans hf₀)
        obtain ⟨x, hx, hafter⟩ := hall a f' hf' hopen
        have hx := (isLastOf_snoc.mp hx).resolve_left fun ho => hnot ho.1
        rw [hx.2.unique hy, ← hbefore, hinfo] at hafter
        exact (hasFlag_oLock_add f.dataInfo (r.uses_le_two a)).mp hafter
      · exact absurd ho (ServedRequest.not_opened_of_owner hf howner)
      · exact absurd ho (ServedRequest.not_opened_of_owner hf howner)
  · intro hkeeps a f' hf' hopen
    rcases he.leavesOpen a f' hf' hopen with
      ⟨f, hnot, hstays, hf, hclient, hinfo⟩ | ⟨ho, ht, hflag⟩ | ⟨ho, hc, hflag⟩
    · have ha : a ∈ r.before.st.ptrs := hwf.mem_ptrs_iff.mpr (by simp [hf])
      have howner : (r.before.st.file a).client ≠ -1 := by
        rw [file_eq _ hf, ← hclient]
        exact hopen
      obtain ⟨x, hx, hbefore⟩ := h a ha howner
      have huses := hkeeps.used a ha howner hstays
      rw [file_eq _ hf] at hbefore huses
      refine ⟨x, isLastOf_snoc.mpr (.inr ⟨hnot, hx⟩), ?_⟩
      rw [hinfo, (hasFlag_oLock_add f.dataInfo (r.uses_le_two a)).mpr huses, hbefore]
    · refine ⟨r, isLastOf_snoc.mpr (.inl ⟨ho, rfl⟩), ?_⟩
      rw [hflag, hkeeps.taken a ht]
    · refine ⟨r, isLastOf_snoc.mpr (.inl ⟨ho, rfl⟩), ?_⟩
      rw [hflag, hkeeps.created hc]

/-! ## Runs -/

section Runs

variable {qsort : Qsort Nat} {maxFiles maxBytes : Nat} {past : List ServedRequest}
  {w : World FileStorage Mutex}

/-- In every state of a run the flags of the open files are what their openers
asked for, if and only if all its requests keep them. -/
theorem lock_flags_iff (h : ServerRun qsort maxFiles maxBytes past w) :
    (∀ front r behind, past = front ++ r :: behind → LockFlags (front ++ [r]) r.after.st) ↔
      ∀ r ∈ past, r.KeepsLockFlags := by
  suffices hboth : ((∀ front r behind, past = front ++ r :: behind →
      LockFlags (front ++ [r]) r.after.st) → LockFlags past w.st) ∧
      ((∀ front r behind, past = front ++ r :: behind → LockFlags (front ++ [r]) r.after.st) ↔
        ∀ r ∈ past, r.KeepsLockFlags) from hboth.2
  induction h with
  | init s hf hb hs =>
      refine ⟨fun _ a ha => ?_, iff_of_true (fun front r behind hnil => ?_) (by simp)⟩
      · simp [ptrs, (WellFormed.fuInitFileStorage_empty hs).1] at ha
      · exact absurd hnil.symm
          (List.append_ne_nil_of_right_ne_nil front (List.cons_ne_nil r behind))
  | serve past w w' request client tr ret hrun hr ih =>
      obtain ⟨ihlast, ihall⟩ := ih
      have hwf' := (hrun.serve past w w' request client tr ret hr).wellFormed
      rw [forall_prefix_snoc, List.forall_mem_append, List.forall_mem_singleton, ← ihall]
      refine ⟨fun hall => hall.2, and_congr_right fun hall => ?_⟩
      exact lockFlags_snoc_iff (ServedRequest.serve_effect hrun.wellFormed hr) hrun.wellFormed
        hwf' (ihlast hall)

/-- A client opens "a" as a new file and asks for the lock. -/
theorem lock_flag_not_set : ∃ past w front r behind,
    ServerRun Qsort.insertion 2 8 past w ∧ past = front ++ r :: behind ∧
      ¬ LockFlags (front ++ [r]) r.after.st := by
  have hrun : ServerRun Qsort.insertion 2 8 [] ⟨_, ∅⟩ := .init _ (by decide) (by decide) rfl
  have hopen := hrun.serve [] _ _ (sapiMessageLen (oCreate ||| oLock) sapiOpenFile 1) 5
    [.read 1 (some [97]), .write (.word sapiSuccess) true] 0 rfl
  refine ⟨_, _, [], _, [], hopen, rfl, fun hflags => ?_⟩
  obtain ⟨x, hx, hflag⟩ := hflags 0 (List.mem_singleton_self 0) (by decide)
  rcases isLastOf_snoc.mp hx with ⟨-, rfl⟩ | ⟨-, hnil⟩
  · exact absurd hflag (by decide)
  · exact not_isLastOf_nil hnil

/-- It opens "a" without the lock and reads it once. -/
theorem lock_flags_read_once : ∃ past w,
    ServerRun Qsort.insertion 2 8 past w ∧ past.length = 2 ∧ (w.st.file 0).client = 5 ∧
      ∀ front r behind, past = front ++ r :: behind → LockFlags (front ++ [r]) r.after.st := by
  have hrun : ServerRun Qsort.insertion 2 8 [] ⟨_, ∅⟩ := .init _ (by decide) (by decide) rfl
  have hopen := hrun.serve [] _ _ (sapiMessageLen oCreate sapiOpenFile 1) 5
    [.read 1 (some [97]), .write (.word sapiSuccess) true] 0 rfl
  have hread := hopen.serve _ _ _ (sapiMessageLen 0 sapiReadFile 1) 5
    [.read 1 (some [97]), .write (.word sapiSuccess) true] 0 rfl
  refine ⟨_, _, hread, rfl, rfl, (lock_flags_iff hread).mpr fun r hr => ?_⟩
  simp only [List.nil_append, List.cons_append, List.mem_cons, List.not_mem_nil, or_false] at hr
  rcases hr with rfl | rfl
  · refine ⟨fun _ => by decide, fun a ht => absurd ht.2.2.1 (by nofun), fun a ha => by cases ha⟩
  · refine ⟨fun hc => absurd hc.1 (by decide), fun a ht => absurd ht.1 (by decide),
      fun a ha _ _ => .inr ?_⟩
    obtain rfl := List.mem_singleton.mp ha
    exact ⟨rfl, rfl⟩

end Runs

end LsoStore
