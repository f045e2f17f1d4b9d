import Mathlib.Data.Fintype.Basic
import LsoStore.Dispatcher

/-!
# Where the clients are

A client's descriptor moves from the poll array to a worker's entry and back,
and each move takes several steps: `assign_client` writes the entry before the
dispatcher takes the descriptor out of the array, and the worker puts it back
into the array before it clears the entry. In between the descriptor is in both
places, or in the array twice.

So a client is in one of the two places as long as it is really put into the
array when `pu_add` is called, and is in two entries at once only if
`assign_client` is called between the worker's two steps.
-/

namespace LsoStore

namespace PollArr

variable {a : PollArr} {fd : Int} {i : Nat}

@[simp] theorem fds_polled (a : PollArr) (revents : Nat → Bool × Bool) :
    (a.polled revents).fds = a.fds := by
  refine List.ext_getElem? fun i => ?_
  simp only [fds, polled, List.getElem?_map, List.getElem?_mapIdx, Option.map_map]
  congr 1
  funext p
  rw [Function.comp]
  split
  · rfl
  · rfl

@[simp] theorem fds_clearRevents (a : PollArr) (i : Nat) : (a.clearRevents i).fds = a.fds := by
  refine List.ext_getElem? fun j => ?_
  simp only [fds, clearRevents, List.getElem?_map, List.getElem?_modify]
  cases a.arr[j]? with
  | none => rfl
  | some p =>
      by_cases hij : i = j
      · simp [hij]
      · simp [hij]

theorem count_puRemove_of_ne {fd' : Int} (h : fd' ≠ fd) :
    (a.puRemove fd).2.fds.count fd' = a.fds.count fd' := by
  by_cases hmem : fd ∈ a.fds
  · rw [(puRemove_fds hmem).count_eq, List.count_cons_of_ne h.symm]
  · rw [puRemove_of_not_mem hmem]

theorem count_puRemove_self (a : PollArr) (fd : Int) :
    a.fds.count fd ≤ (a.puRemove fd).2.fds.count fd + 1 := by
  by_cases hmem : fd ∈ a.fds
  · rw [(puRemove_fds hmem).count_eq, List.count_cons_self]
  · rw [puRemove_of_not_mem hmem]
    exact Nat.le_succ _

theorem fdAt_mem (h : i < a.arr.length) : a.fdAt i ∈ a.fds := by
  rw [fdAt, List.getElem?_eq_getElem h]
  exact List.mem_map.mpr ⟨_, List.getElem_mem h, rfl⟩

/-- Adding an entry leaves those before it where they are. -/
theorem fdAt_puAdd (h : i < a.arr.length) (fd : Int) : (a.puAdd fd).2.fdAt i = a.fdAt i := by
  rw [puAdd]
  split
  · rfl
  · rw [fdAt, fdAt]
    dsimp only
    rw [List.getElem?_append_left h]

theorem count_le_puAdd (a : PollArr) (fd fd' : Int) :
    a.fds.count fd' ≤ (a.puAdd fd).2.fds.count fd' := by
  cases hfull : a.puIsfull with
  | true => rw [puAdd_of_full hfull]
  | false =>
      rw [puAdd_fds hfull, List.count_append]
      exact Nat.le_add_right ..

theorem length_le_puAdd (a : PollArr) (fd : Int) :
    a.arr.length ≤ (a.puAdd fd).2.arr.length := by
  rw [puAdd]
  split
  · exact Nat.le_refl _
  · simp

end PollArr

open PollArr

/-- Every client that was accepted and is not closed is in the poll array or in
a worker's entry, and not in those of two workers. -/
def Dispatch.NoneLost {ω : Type} (s : Dispatch ω) : Prop :=
  ∀ fd ∈ s.opened, (fd ∈ s.pollArr.fds ∨ ∃ w, s.workersClients w = fd) ∧
    ∀ v w, s.workersClients v = fd → s.workersClients w = fd → v = w

/-- A worker that reads gets a request. -/
def Dispatch.Requests {ω : Type} (l : DispatchLabel ω) (s : Dispatch ω) : Prop :=
  match l with
  | .work w request => s.worker w = .waiting → s.workersClients w ≠ 0 → request = true
  | _ => True

/-- There is room in the array when a client is added. -/
def Dispatch.AddsFit {ω : Type} (l : DispatchLabel ω) (s : Dispatch ω) : Prop :=
  match l with
  | .accept fd => 0 < fd → s.pollArr.puIsfull = false
  | .work w _ => s.worker w = .served → s.pollArr.puIsfull = false
  | _ => True

/-- The descriptor of the entry that the dispatcher looks at. -/
def Dispatch.scanned {ω : Type} (s : Dispatch ω) : Option Int :=
  match s.dispatcher with
  | .scanning i => some (s.pollArr.fdAt i)
  | _ => none

/-- A client is given to a worker when it is in no other worker's entry. -/
def Dispatch.AssignsOnce {ω : Type} (l : DispatchLabel ω) (s : Dispatch ω) : Prop :=
  match l with
  | .assign _ => ∀ w, s.scanned ≠ some (s.workersClients w)
  | _ => True

section Decidable

variable {ω : Type}

instance (l : DispatchLabel ω) (s : Dispatch ω) : Decidable (s.Requests l) :=
  match l with
  | .work _ _ => inferInstanceAs (Decidable (_ → _ → _ = _))
  | .signal _ | .dispatch | .poll .. | .accept _ | .assign _ => .isTrue trivial

instance (l : DispatchLabel ω) (s : Dispatch ω) : Decidable (s.AddsFit l) :=
  match l with
  | .accept _ => inferInstanceAs (Decidable (_ → _ = _))
  | .work _ _ => inferInstanceAs (Decidable (_ → _ = _))
  | .signal _ | .dispatch | .poll .. | .assign _ => .isTrue trivial

instance [Fintype ω] (l : DispatchLabel ω) (s : Dispatch ω) : Decidable (s.AssignsOnce l) :=
  match l with
  | .assign _ => inferInstanceAs (Decidable (∀ _, _ ≠ _))
  | .signal _ | .dispatch | .poll .. | .accept _ | .work .. => .isTrue trivial

end Decidable

/-- The entry the dispatcher is about to remove. -/
def DispatcherPc.entry : DispatcherPc → Option Nat
  | .hungUp i => some i
  | .assigned i => some i
  | .cleared i => some i
  | _ => none

/-- The entry whose client the dispatcher has given to a worker. -/
def DispatcherPc.given : DispatcherPc → Option Nat
  | .assigned i => some i
  | .cleared i => some i
  | _ => none

/-- How often a client that no worker keeps has to be in the array: the
dispatcher may be about to remove it once. -/
def Dispatch.needed {ω : Type} (s : Dispatch ω) (fd : Int) : Nat :=
  if s.dispatcher.given.map s.pollArr.fdAt = some fd then 2 else 1

/-- What the steps keep. A client that no worker has to put back is in the
array, once more if the dispatcher is about to remove it. -/
structure Dispatch.Kept {ω : Type} (socket : Int) (s : Dispatch ω) : Prop where
  opened : ∀ fd ∈ s.opened, 0 < fd ∧ fd ≠ socket
  present : ∀ fd ∈ s.opened,
    (∃ w, s.workersClients w = fd ∧ (s.worker w).keeps = true) ∨
      s.needed fd ≤ s.pollArr.fds.count fd
  once : ∀ v w, s.workersClients v ≠ 0 → s.workersClients v = s.workersClients w → v = w
  entry : ∀ i, s.dispatcher.entry = some i → i < s.pollArr.arr.length
  closed : ∀ i, s.dispatcher = .hungUp i → s.pollArr.fdAt i ∉ s.opened

section Kept

variable {ω : Type} {socket : Int} {maxlen : Nat} {s s' : Dispatch ω}

theorem Dispatch.entry_of_given (s : Dispatch ω) {i : Nat} (h : s.dispatcher.given = some i) :
    s.dispatcher.entry = some i := by
  cases hpc : s.dispatcher with
  | assigned j => rwa [hpc] at h
  | cleared j => rwa [hpc] at h
  | _ => rw [hpc] at h; cases h

theorem Dispatch.one_le_needed (s : Dispatch ω) (fd : Int) : 1 ≤ s.needed fd := by
  rw [Dispatch.needed]
  split
  · exact Nat.le_succ 1
  · exact Nat.le_refl 1

theorem Dispatch.needed_of_none (h : s.dispatcher.given = none) (fd : Int) : s.needed fd = 1 := by
  rw [Dispatch.needed, h, Option.map_none, if_neg (by simp)]

theorem Dispatch.needed_of_given {i : Nat} (h : s.dispatcher.given = some i) (fd : Int) :
    s.needed fd = if s.pollArr.fdAt i = fd then 2 else 1 := by
  rw [Dispatch.needed, h, Option.map_some]
  simp only [Option.some.injEq]

theorem Dispatch.Kept.noneLost (h : s.Kept socket) : s.NoneLost := by
  intro fd hfd
  refine ⟨?_, fun v w hv hw => h.once v w ?_ (hv.trans hw.symm)⟩
  · rcases h.present fd hfd with ⟨w, hw, -⟩ | hcount
    · exact .inr ⟨w, hw⟩
    · exact .inl (List.count_pos_iff.mp ((s.one_le_needed fd).trans hcount))
  · rw [hv]
    exact (h.opened fd hfd).1.ne'

theorem Dispatch.kept_start (socket : Int) (maxlen : Nat) :
    (Dispatch.start (ω := ω) socket maxlen).Kept socket where
  opened fd hfd := by simp [Dispatch.start] at hfd
  present fd hfd := by simp [Dispatch.start] at hfd
  once v w hv := absurd rfl hv
  entry i hi := by cases hi
  closed i hi := by cases hi

/-- A step that leaves the workers and their entries alone, and of the array
takes away no more than it owes. -/
theorem Dispatch.Kept.ofArray (h : s.Kept socket)
    (hclients : s'.workersClients = s.workersClients) (hworker : s'.worker = s.worker)
    (hopened : s'.opened ⊆ s.opened)
    (hcount : ∀ fd ∈ s'.opened, s.needed fd ≤ s.pollArr.fds.count fd →
      s'.needed fd ≤ s'.pollArr.fds.count fd)
    (hentry : ∀ i, s'.dispatcher.entry = some i → i < s'.pollArr.arr.length)
    (hclosed : ∀ i, s'.dispatcher = .hungUp i → s'.pollArr.fdAt i ∉ s'.opened) :
    s'.Kept socket where
  opened fd hfd := h.opened fd (hopened hfd)
  present fd hfd := by
    rw [hclients, hworker]
    exact (h.present fd (hopened hfd)).imp_right (hcount fd hfd)
  once := by
    rw [hclients]
    exact h.once
  entry := hentry
  closed := hclosed

/-- A step of the dispatcher between entries. -/
theorem Dispatch.Kept.quiet (h : s.Kept socket)
    (hclients : s'.workersClients = s.workersClients) (hworker : s'.worker = s.worker)
    (hopened : s'.opened = s.opened) (hfds : s'.pollArr.fds = s.pollArr.fds)
    (hpc : s'.dispatcher.entry = none) : s'.Kept socket := by
  have hgiven : s'.dispatcher.given = none := by
    cases hpc' : s'.dispatcher with
    | assigned i => rw [hpc'] at hpc; cases hpc
    | cleared i => rw [hpc'] at hpc; cases hpc
    | _ => rfl
  refine h.ofArray hclients hworker hopened.subset (fun fd _ hle => ?_) (fun i hi => ?_)
    fun i hi => ?_
  · rw [hfds, Dispatch.needed_of_none hgiven]
    exact (s.one_le_needed fd).trans hle
  · rw [hpc] at hi
    cases hi
  · rw [hi] at hpc
    cases hpc

/-- The dispatcher looks at an entry. -/
theorem Dispatch.Kept.scanning {i : Nat} (h : s.Kept socket) (hpc : s.dispatcher = .scanning i)
    (hs : s.dispatch socket = some s') : s'.Kept socket := by
  rw [Dispatch.dispatch, hpc] at hs
  dsimp only at hs
  split at hs
  · cases hs
    exact h.quiet rfl rfl rfl rfl rfl
  · next p hp =>
      obtain ⟨hi, -⟩ := List.getElem?_eq_some_iff.mp hp
      have hfd : s.pollArr.fdAt i = p.fd := by rw [fdAt, hp, Option.map_some, Option.getD_some]
      split at hs
      · cases hs
        refine h.ofArray rfl rfl (Finset.erase_subset _ _) (fun fd _ hle => ?_)
          (fun j hj => ?_) (fun j hj => ?_)
        · exact (s.one_le_needed fd).trans hle
        · injection hj with hj
          exact hj ▸ hi
        · injection hj with hj
          subst hj
          dsimp only
          rw [hfd]
          exact Finset.notMem_erase _ _
      · split at hs
        · split at hs
          · split at hs
            · cases hs
              exact h.quiet rfl rfl rfl (fds_clearRevents _ _) rfl
            · cases hs
              exact h.quiet rfl rfl rfl rfl rfl
          · split at hs
            · cases hs
              exact h.quiet rfl rfl rfl (fds_clearRevents _ _) rfl
            · cases hs
        · cases hs
          exact h.quiet rfl rfl rfl rfl rfl

theorem Dispatch.Kept.dispatch (h : s.Kept socket) (hs : s.dispatch socket = some s') :
    s'.Kept socket := by
  cases hpc : s.dispatcher with
  | testing =>
      rw [Dispatch.dispatch, hpc] at hs
      dsimp only at hs
      split at hs
      · cases hs
        exact h.quiet rfl rfl rfl rfl rfl
      · cases hs
        exact h.quiet rfl rfl rfl rfl rfl
  | entering =>
      rw [Dispatch.dispatch, hpc] at hs
      dsimp only at hs
      split at hs
      · cases hs
        refine h.ofArray rfl rfl (Finset.Subset.refl _) (fun fd hfd hle => ?_)
          (fun i hi => by cases hi) (fun i hi => by cases hi)
        rw [count_puRemove_of_ne (h.opened fd hfd).2]
        exact (s.one_le_needed fd).trans hle
      · cases hs
        exact h.quiet rfl rfl rfl rfl rfl
  | scanning i => exact h.scanning hpc hs
  | hungUp i =>
      rw [Dispatch.dispatch, hpc] at hs
      cases hs
      refine h.ofArray rfl rfl (Finset.Subset.refl _) (fun fd hfd hle => ?_)
        (fun j hj => by cases hj) (fun j hj => by cases hj)
      have hne : fd ≠ s.pollArr.fdAt i := fun e => h.closed i hpc (e ▸ hfd)
      rw [count_puRemove_of_ne hne]
      exact (s.one_le_needed fd).trans hle
  | assigned i =>
      rw [Dispatch.dispatch, hpc] at hs
      cases hs
      refine h.ofArray rfl rfl (Finset.Subset.refl _) (fun fd _ hle => ?_) (fun j hj => ?_)
        (fun j hj => by cases hj)
      · rwa [Dispatch.needed, hpc] at hle
      · exact h.entry j (by rw [hpc]; exact hj)
  | cleared i =>
      rw [Dispatch.dispatch, hpc] at hs
      cases hs
      refine h.ofArray rfl rfl (Finset.Subset.refl _) (fun fd _ hle => ?_)
        (fun j hj => by cases hj) (fun j hj => by cases hj)
      have hgiven : s.dispatcher.given = some i := by rw [hpc, DispatcherPc.given]
      rw [Dispatch.needed_of_given hgiven] at hle
      rw [Dispatch.needed_of_none rfl, Dispatch.advance, fds_clearRevents]
      by_cases hfd : s.pollArr.fdAt i = fd
      · rw [if_pos hfd, ← hfd] at hle
        have hself := count_puRemove_self s.pollArr (s.pollArr.fdAt i)
        rw [← hfd]
        omega
      · rw [if_neg hfd] at hle
        rwa [count_puRemove_of_ne (Ne.symm hfd)]
  | polling => rw [Dispatch.dispatch, hpc] at hs; cases hs
  | accepting i => rw [Dispatch.dispatch, hpc] at hs; cases hs
  | left => rw [Dispatch.dispatch, hpc] at hs; cases hs

variable [DecidableEq ω]

/-- A step of a worker that has not put a client back before or after it. -/
theorem Dispatch.Kept.ofWorker {w : ω} {pc : WorkerPc} (h : s.Kept socket)
    (hkeeps : pc.keeps = (s.worker w).keeps) :
    Dispatch.Kept socket { s with worker := Function.update s.worker w pc } where
  opened := h.opened
  present fd hfd := by
    refine (h.present fd hfd).imp_left fun ⟨v, hv, hkv⟩ => ⟨v, hv, ?_⟩
    by_cases hvw : v = w
    · subst hvw
      simpa [hkeeps] using hkv
    · simpa [Function.update_of_ne hvw] using hkv
  once := h.once
  entry := h.entry
  closed := h.closed

/-- A worker that has put its client back clears its entry. -/
theorem Dispatch.Kept.clear {w : ω} (h : s.Kept socket) (hw : (s.worker w).keeps = false) :
    Dispatch.Kept socket { s with
      workersClients := Function.update s.workersClients w 0
      worker := Function.update s.worker w .top } where
  opened := h.opened
  present fd hfd := by
    refine (h.present fd hfd).imp_left fun ⟨v, hv, hkv⟩ => ⟨v, ?_⟩
    have hvw : v ≠ w := by
      intro heq
      subst heq
      rw [hw] at hkv
      cases hkv
    dsimp only
    rw [Function.update_of_ne hvw, Function.update_of_ne hvw]
    exact ⟨hv, hkv⟩
  once u v hu huv := by
    dsimp only at hu huv
    by_cases huw : u = w
    · rw [huw, Function.update_self] at hu
      exact absurd rfl hu
    · rw [Function.update_of_ne huw] at hu huv
      by_cases hvw : v = w
      · rw [hvw, Function.update_self] at huv
        exact absurd huv hu
      · rw [Function.update_of_ne hvw] at huv
        exact h.once u v hu huv
  entry := h.entry
  closed := h.closed

/-- A worker puts its client back into an array that has room. -/
theorem Dispatch.Kept.add {w : ω} (h : s.Kept socket) (hroom : s.pollArr.puIsfull = false) :
    Dispatch.Kept socket { s with
      pollArr := (s.pollArr.puAdd (s.workersClients w)).2
      worker := Function.update s.worker w .added } := by
  have hneeded : ∀ fd, (if s.dispatcher.given.map
      (s.pollArr.puAdd (s.workersClients w)).2.fdAt = some fd then 2 else 1) = s.needed fd := by
    intro fd
    rw [Dispatch.needed]
    cases hgiven : s.dispatcher.given with
    | none => rfl
    | some i => rw [Option.map_some, Option.map_some,
        fdAt_puAdd (h.entry i (s.entry_of_given hgiven))]
  refine ⟨h.opened, fun fd hfd => ?_, h.once, fun i hi => ?_, fun i hi => ?_⟩
  · rw [Dispatch.needed]
    dsimp only
    rw [hneeded, puAdd_fds hroom, List.count_append]
    rcases h.present fd hfd with ⟨v, rfl, hkv⟩ | hle
    · by_cases hvw : v = w
      · subst hvw
        refine .inr ?_
        rw [List.count_singleton_self]
        cases hgiven : s.dispatcher.given with
        | none =>
            rw [s.needed_of_none hgiven]
            exact Nat.le_add_left ..
        | some i =>
            have hmem := fdAt_mem (h.entry i (s.entry_of_given hgiven))
            rw [s.needed_of_given hgiven]
            split
            · next hfd =>
                rw [hfd] at hmem
                have := List.count_pos_iff.mpr hmem
                omega
            · exact Nat.le_add_left ..
      · refine .inl ⟨v, rfl, ?_⟩
        rwa [Function.update_of_ne hvw]
    · exact .inr (hle.trans (Nat.le_add_right ..))
  · exact (h.entry i hi).trans_le (length_le_puAdd ..)
  · dsimp only at hi ⊢
    rw [fdAt_puAdd (h.entry i (by rw [hi]; rfl))]
    exact h.closed i hi

theorem Dispatch.Kept.work {w : ω} {request : Bool} (h : s.Kept socket)
    (hreq : s.Requests (.work w request)) (hfit : s.AddsFit (.work w request))
    (hs : s.work w request = some s') : s'.Kept socket := by
  unfold Dispatch.work at hs
  cases hpc : s.worker w with
  | top =>
      simp only [hpc, Option.some.injEq] at hs
      subst hs
      refine h.ofWorker ?_
      rw [hpc]
      split <;> rfl
  | waiting =>
      simp only [hpc] at hs
      split at hs
      · split at hs
        · cases hs
          exact h.ofWorker (by rw [hpc]; rfl)
        · cases hs
      · next hclient =>
          rw [hreq hpc hclient, if_pos rfl] at hs
          cases hs
          exact h.ofWorker (by rw [hpc]; rfl)
  | served =>
      simp only [hpc, Option.some.injEq] at hs
      subst hs
      exact h.add (hfit hpc)
  | added =>
      simp only [hpc, Option.some.injEq] at hs
      subst hs
      have hput : Dispatch.Kept socket { s with worker := Function.update s.worker w .emptied } :=
        h.ofWorker (by rw [hpc]; rfl)
      exact ⟨hput.opened, hput.present, hput.once, hput.entry, hput.closed⟩
  | emptied =>
      simp only [hpc, Option.some.injEq] at hs
      subst hs
      exact h.clear (by rw [hpc]; rfl)
  | stopped => simp [hpc] at hs

/-- A client comes in. -/
theorem Dispatch.Kept.accept {i : Nat} {fd : Int} (h : s.Kept socket)
    (hpc : s.dispatcher = .accepting i) (hfit : s.AddsFit (.accept fd))
    (hs : s.step socket (.accept fd) = some s') : s'.Kept socket := by
  have hcount : ∀ fd', s.needed fd' ≤ s.pollArr.fds.count fd' →
      1 ≤ (s.pollArr.puAdd fd).2.fds.count fd' := fun fd' hle =>
    ((s.one_le_needed fd').trans hle).trans (count_le_puAdd ..)
  simp only [Dispatch.step, hpc] at hs
  split at hs
  · cases hs
    refine h.ofArray rfl rfl (Finset.Subset.refl _) (fun fd' _ hle => ?_)
      (fun j hj => by cases hj) (fun j hj => by cases hj)
    rw [Dispatch.needed_of_none rfl, Dispatch.advance, fds_clearRevents]
    exact hcount fd' hle
  · split at hs
    · next hfresh =>
        cases hs
        refine ⟨fun fd' hfd' => ?_, fun fd' hfd' => ?_, h.once, fun j hj => (by cases hj),
          fun j hj => (by cases hj)⟩
        · rcases Finset.mem_insert.mp hfd' with rfl | hfd'
          · exact ⟨hfresh.1, hfresh.2.1⟩
          · exact h.opened fd' hfd'
        · rw [Dispatch.needed_of_none rfl, Dispatch.advance, fds_clearRevents]
          rcases Finset.mem_insert.mp hfd' with rfl | hfd'
          · refine .inr ?_
            rw [puAdd_fds (hfit hfresh.1), List.count_append, List.count_singleton_self]
            exact Nat.le_add_left ..
          · exact (h.present fd' hfd').imp_right (hcount fd')
    · cases hs

/-- A worker gets the client of an entry. -/
theorem Dispatch.Kept.assign {i : Nat} {w : ω} (h : s.Kept socket)
    (hpc : s.dispatcher = .scanning i) (honce : s.AssignsOnce (.assign w))
    (hs : s.step socket (.assign w) = some s') : s'.Kept socket := by
  simp only [Dispatch.step, hpc] at hs
  split at hs
  · cases hs
  · next p hp =>
      obtain ⟨hi, -⟩ := List.getElem?_eq_some_iff.mp hp
      have hfd : s.pollArr.fdAt i = p.fd := by rw [fdAt, hp, Option.map_some, Option.getD_some]
      have hnew : ∀ v, s.workersClients v ≠ p.fd := by
        intro v hv
        refine honce v ?_
        rw [Dispatch.scanned, hpc, hv, ← hfd]
      split at hs
      · next hcond =>
          obtain ⟨-, -, -, hfree, hzero⟩ := hcond
          cases hs
          refine ⟨h.opened, fun fd hmem => ?_, fun u v hu huv => ?_, fun j hj => ?_,
            fun j hj => by cases hj⟩
          · by_cases hfd' : fd = p.fd
            · refine .inl ⟨w, by simp [hfd'], ?_⟩
              cases hw : s.worker w with
              | added => rw [hw] at hfree; cases hfree
              | emptied => rw [hw] at hfree; cases hfree
              | _ => rfl
            · rcases h.present fd hmem with ⟨v, hv, hkv⟩ | hle
              · refine .inl ⟨v, ?_, hkv⟩
                have hvw : v ≠ w := by
                  intro heq
                  subst heq
                  exact (h.opened fd hmem).1.ne (hzero.symm.trans hv)
                dsimp only
                rwa [Function.update_of_ne hvw]
              · have hne : s.pollArr.fdAt i ≠ fd := hfd.trans_ne (Ne.symm hfd')
                refine .inr ?_
                rw [Dispatch.needed, DispatcherPc.given, Option.map_some,
                  if_neg (by simpa using hne)]
                exact (s.one_le_needed fd).trans hle
          · dsimp only at hu huv
            by_cases huw : u = w
            · subst huw
              by_cases hvu : v = u
              · exact hvu.symm
              · rw [Function.update_self, Function.update_of_ne hvu] at huv
                exact absurd huv.symm (hnew v)
            · by_cases hvw : v = w
              · subst hvw
                rw [Function.update_of_ne huw, Function.update_self] at huv
                exact absurd huv (hnew u)
              · rw [Function.update_of_ne huw] at hu huv
                rw [Function.update_of_ne hvw] at huv
                exact h.once u v hu huv
          · injection hj with hj
            exact hj ▸ hi
      · cases hs

theorem Dispatch.Kept.step {l : DispatchLabel ω} (h : s.Kept socket) (hreq : s.Requests l)
    (hfit : s.AddsFit l) (honce : s.AssignsOnce l) (hs : s.step socket l = some s') :
    s'.Kept socket := by
  cases l with
  | signal quit =>
      rw [Dispatch.step] at hs
      cases quit with
      | true => cases hs; exact ⟨h.opened, h.present, h.once, h.entry, h.closed⟩
      | false => cases hs; exact ⟨h.opened, h.present, h.once, h.entry, h.closed⟩
  | dispatch => exact h.dispatch hs
  | poll ready revents =>
      rw [Dispatch.step] at hs
      split at hs
      · cases hs
        refine h.quiet rfl rfl rfl (fds_polled _ _) ?_
        cases ready with
        | true => rfl
        | false => rfl
      · cases hs
  | accept fd =>
      cases hpc : s.dispatcher with
      | accepting i => exact h.accept hpc hfit hs
      | _ => simp [Dispatch.step, hpc] at hs
  | assign w =>
      cases hpc : s.dispatcher with
      | scanning i => exact h.assign hpc honce hs
      | _ => simp [Dispatch.step, hpc] at hs
  | work w request => exact h.work hreq hfit hs

/-- In a run whose workers get requests, in which each client that is added
finds room and each client that is given to a worker is in no other's entry, no
client is lost. -/
theorem none_lost {past : List (DispatchLabel ω × Dispatch ω)}
    (hrun : DispatchRun socket maxlen past s)
    (hreq : ∀ e ∈ past, e.2.Requests e.1)
    (hfit : ∀ e ∈ past, e.2.AddsFit e.1) (honce : ∀ e ∈ past, e.2.AssignsOnce e.1) :
    ∀ x ∈ visited past s, x.NoneLost := by
  have hrestricted := Run.restrict (C := fun l s =>
    s.Requests l ∧ s.AddsFit l ∧ s.AssignsOnce l) hrun
    fun e he => ⟨hreq e he, hfit e he, honce e he⟩
  refine fun x hx => (hrestricted.always (I := Dispatch.Kept socket) ?_ ?_ x hx).noneLost
  · intro s heq
    subst heq
    exact Dispatch.kept_start socket maxlen
  · exact fun s l s' h ⟨hs, hreq, hfit, honce⟩ => h.step hreq hfit honce hs

end Kept

/-- `poll` reports that entry `i` can be read. -/
def readable (i : Nat) : Nat → Bool × Bool := fun j => (false, j = i)

/-- A client connects. -/
def connects (fd : Int) : List (DispatchLabel Bool) :=
  [.dispatch, .dispatch, .poll true (readable 0), .dispatch, .accept fd, .dispatch, .dispatch]

/-- The client of entry 1 sends a request and is given to a worker. -/
def requests (w : Bool) : List (DispatchLabel Bool) :=
  [.dispatch, .dispatch, .poll true (readable 1), .dispatch, .assign w]

theorem dispatchRun_start {ω : Type} [DecidableEq ω] (socket : Int) (maxlen : Nat) :
    DispatchRun (ω := ω) socket maxlen [] (.start socket maxlen) := .init _ rfl

/-- The client is given to a worker, taken out of the array, served and put back. -/
theorem none_lost_served : ∃ past s,
    DispatchRun (ω := Bool) 3 2 past s ∧ s.pollArr.fds = [3, 5] ∧ s.workersClients false = 0 ∧
      ∀ x ∈ visited past s, x.NoneLost := by
  have hrun := (dispatchRun_start (ω := Bool) 3 2).append_stepsFrom
    (connects 5 ++ requests false ++ [.dispatch, .dispatch, .dispatch] ++
      List.replicate 5 (.work false true)) rfl
  exact ⟨_, _, hrun, rfl, rfl, none_lost hrun (by decide) (by decide) (by decide)⟩

/-- Client 6 fills the array while client 5 is served. Client 5 sends another
request when it is back in the array and still in its worker's entry. -/
theorem client_lost :
    (∃ past s, DispatchRun (ω := Bool) 3 2 past s ∧ (∀ e ∈ past, e.2.Requests e.1) ∧
      5 ∈ s.opened ∧ 5 ∉ s.pollArr.fds ∧ ∀ w, s.workersClients w ≠ 5) ∧
    ∃ past s, DispatchRun (ω := Bool) 3 3 past s ∧ (∀ e ∈ past, e.2.Requests e.1) ∧
      5 ∈ s.opened ∧ s.workersClients false = 5 ∧ s.workersClients true = 5 := by
  constructor
  · have hrun := (dispatchRun_start (ω := Bool) 3 2).append_stepsFrom
      (connects 5 ++ requests false ++ [.dispatch, .dispatch, .dispatch] ++
        List.replicate 2 (.work false true) ++ connects 6 ++
        List.replicate 3 (.work false true)) rfl
    exact ⟨_, _, hrun, by decide, by decide, by decide, by decide⟩
  · have hrun := (dispatchRun_start (ω := Bool) 3 3).append_stepsFrom
      (connects 5 ++ requests false ++ [.dispatch, .dispatch, .dispatch] ++
        List.replicate 3 (.work false true) ++ requests true) rfl
    exact ⟨_, _, hrun, by decide, by decide, rfl, rfl⟩

end LsoStore
