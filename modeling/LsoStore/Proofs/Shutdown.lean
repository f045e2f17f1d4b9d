import LsoStore.Proofs.Clients

/-!
# Leaving the loop

After a hangup signal the dispatcher goes on until `pu_isempty`, which asks
whether the array is empty and whether `empty` is set. The dispatcher clears
that flag when it has given a client to a worker, and each worker sets it when
it has put its client back: the flag knows of one worker at a time.

No client is left behind as long as the array does not lose its last entry with
the flag set while some worker has a client, and no worker sets the flag when
the client it put back is out of the array again.
-/

namespace LsoStore

open PollArr

theorem PollArr.puIsempty_iff {a : PollArr} :
    a.puIsempty = true ↔ a.fds = [] ∧ a.empty = true := by
  simp [puIsempty, fds]

/-- The step the dispatcher takes next ends its loop because of a hangup. -/
def Dispatch.HangsUp {ω : Type} (socket : Int) (s : Dispatch ω) : Prop :=
  s.dispatcher = .testing ∧ s.serverHu = true ∧ s.serverQuit = false ∧
    ∃ s', s.dispatch socket = some s' ∧ s'.dispatcher = .left

/-- No client is in the array or in a worker's entry. -/
def Dispatch.Idle {ω : Type} (s : Dispatch ω) : Prop :=
  s.pollArr.fds = [] ∧ ∀ w, s.workersClients w = 0

/-- When the array counts as empty, no worker has a client. -/
def Dispatch.EmptyMeansIdle {ω : Type} (s : Dispatch ω) : Prop :=
  s.pollArr.puIsempty = true → ∀ w, s.workersClients w = 0

/-- The descriptor that the dispatcher removes next. -/
def Dispatch.removes {ω : Type} (socket : Int) (s : Dispatch ω) : Option Int :=
  match s.dispatcher with
  | .entering => if s.serverHu then some socket else none
  | .hungUp i => some (s.pollArr.fdAt i)
  | .cleared i => some (s.pollArr.fdAt i)
  | _ => none

/-- The last entry is removed with the flag cleared or with no client at work,
and the flag is set with an entry in the array. -/
def Dispatch.FlagsWork {ω : Type} (socket : Int) (l : DispatchLabel ω) (s : Dispatch ω) : Prop :=
  match l with
  | .dispatch => ∀ fd, s.removes socket = some fd → s.pollArr.fds = [fd] →
      s.pollArr.empty = true → ∀ w, s.workersClients w = 0
  | .work w _ => s.worker w = .added → s.pollArr.fds ≠ []
  | _ => True

instance {ω : Type} [Fintype ω] (socket : Int) (l : DispatchLabel ω) (s : Dispatch ω) :
    Decidable (s.FlagsWork socket l) :=
  match l with
  | .dispatch => inferInstanceAs (Decidable (∀ fd ∈ s.removes socket, _ → _ → ∀ _, _ = _))
  | .work _ _ => inferInstanceAs (Decidable (_ → _ ≠ _))
  | .signal _ | .poll .. | .accept _ | .assign _ => .isTrue trivial

/-- A worker that holds its lock has a client. -/
def Dispatch.LocksServe {ω : Type} (s : Dispatch ω) : Prop :=
  ∀ w, (s.worker w).unlocked = false → s.workersClients w ≠ 0

section Shutdown

variable {ω : Type} {socket : Int} {maxlen : Nat} {s s' : Dispatch ω}

theorem Dispatch.EmptyMeansIdle.idle (h : s.EmptyMeansIdle) (hleave : s.HangsUp socket) :
    s.Idle := by
  obtain ⟨hpc, hhu, hquit, s', hs, hleft⟩ := hleave
  rw [Dispatch.dispatch, hpc] at hs
  simp only [hhu, hquit, Bool.true_and, Bool.or_false] at hs
  split at hs
  · next hempty => exact ⟨(puIsempty_iff.mp hempty).1, h hempty⟩
  · cases hs
    cases hleft

/-- A step that changes neither the descriptors nor the flag nor any entry. -/
theorem Dispatch.EmptyMeansIdle.congr (h : s.EmptyMeansIdle)
    (hfds : s'.pollArr.fds = s.pollArr.fds) (hempty : s'.pollArr.empty = s.pollArr.empty)
    (hclients : s'.workersClients = s.workersClients) : s'.EmptyMeansIdle := by
  rw [Dispatch.EmptyMeansIdle, puIsempty_iff, hfds, hempty, hclients, ← puIsempty_iff]
  exact h

/-- What a removal does to it. -/
theorem Dispatch.EmptyMeansIdle.remove_iff {fd : Int} (h : s.EmptyMeansIdle)
    (hfds : s'.pollArr.fds = (s.pollArr.puRemove fd).2.fds)
    (hempty : s'.pollArr.empty = s.pollArr.empty)
    (hclients : s'.workersClients = s.workersClients) :
    s'.EmptyMeansIdle ↔
      (s.pollArr.fds = [fd] → s.pollArr.empty = true → ∀ w, s.workersClients w = 0) := by
  rw [Dispatch.EmptyMeansIdle, puIsempty_iff, hfds, hempty, hclients]
  by_cases hmem : fd ∈ s.pollArr.fds
  · have hperm := puRemove_fds hmem
    have hnil : (s.pollArr.puRemove fd).2.fds = [] ↔ s.pollArr.fds = [fd] := by
      constructor
      · intro hnil
        rw [hnil] at hperm
        exact List.perm_singleton.mp hperm
      · intro hone
        rw [hone] at hperm
        have hlen := hperm.length_eq
        simpa using hlen
    rw [hnil, and_imp]
  · rw [puRemove_of_not_mem hmem, ← puIsempty_iff]
    refine iff_of_true h fun hone => ?_
    rw [hone] at hmem
    exact absurd (List.mem_singleton_self fd) hmem

/-- A step that removes nothing and changes nothing that matters. -/
theorem Dispatch.EmptyMeansIdle.quiet (h : s.EmptyMeansIdle)
    (hremoves : s.removes socket = none) (hfds : s'.pollArr.fds = s.pollArr.fds)
    (hempty : s'.pollArr.empty = s.pollArr.empty)
    (hclients : s'.workersClients = s.workersClients) :
    s'.EmptyMeansIdle ↔ s.FlagsWork socket .dispatch := by
  refine iff_of_true (h.congr hfds hempty hclients) fun fd hfd => ?_
  rw [hremoves] at hfd
  cases hfd

theorem Dispatch.dispatch_clients (hs : s.dispatch socket = some s') :
    s'.worker = s.worker ∧ s'.workersClients = s.workersClients := by
  unfold Dispatch.dispatch at hs
  repeat' split at hs
  all_goals cases hs <;> exact ⟨rfl, rfl⟩

theorem Dispatch.EmptyMeansIdle.dispatch (h : s.EmptyMeansIdle)
    (hs : s.dispatch socket = some s') :
    s'.EmptyMeansIdle ↔ s.FlagsWork socket .dispatch := by
  have hclients := (Dispatch.dispatch_clients hs).2
  have hremoval : ∀ fd, s.removes socket = some fd →
      s'.pollArr.fds = (s.pollArr.puRemove fd).2.fds →
      s'.pollArr.empty = s.pollArr.empty →
      (s'.EmptyMeansIdle ↔ s.FlagsWork socket .dispatch) := by
    intro fd hfd hfds hempty
    rw [h.remove_iff hfds hempty hclients, Dispatch.FlagsWork, hfd]
    simp only [Option.some.injEq, forall_eq']
  cases hpc : s.dispatcher with
  | testing =>
      have hnone : s.removes socket = none := by rw [Dispatch.removes, hpc]
      rw [Dispatch.dispatch, hpc] at hs
      dsimp only at hs
      split at hs
      · cases hs
        exact h.quiet hnone rfl rfl rfl
      · cases hs
        exact h.quiet hnone rfl rfl rfl
  | entering =>
      rw [Dispatch.dispatch, hpc] at hs
      dsimp only at hs
      split at hs
      · next hhu =>
          cases hs
          exact hremoval socket (by rw [Dispatch.removes, hpc]; exact if_pos hhu) rfl
            (puRemove_empty ..)
      · next hhu =>
          cases hs
          exact h.quiet (by rw [Dispatch.removes, hpc]; exact if_neg hhu) rfl rfl rfl
  | scanning i =>
      have hnone : s.removes socket = none := by rw [Dispatch.removes, hpc]
      rw [Dispatch.dispatch, hpc] at hs
      dsimp only at hs
      repeat' split at hs
      all_goals cases hs <;>
        first | exact h.quiet hnone rfl rfl rfl | exact h.quiet hnone (fds_clearRevents ..) rfl rfl
  | hungUp i =>
      rw [Dispatch.dispatch, hpc] at hs
      cases hs
      exact hremoval _ (by rw [Dispatch.removes, hpc]) rfl (puRemove_empty ..)
  | assigned i =>
      have hnone : s.removes socket = none := by rw [Dispatch.removes, hpc]
      rw [Dispatch.dispatch, hpc] at hs
      cases hs
      refine iff_of_true (fun hempty => ?_) fun fd hfd => ?_
      · exact absurd (puIsempty_iff.mp hempty).2 (by simp)
      · rw [hnone] at hfd
        cases hfd
  | cleared i =>
      rw [Dispatch.dispatch, hpc] at hs
      cases hs
      exact hremoval _ (by rw [Dispatch.removes, hpc]) (fds_clearRevents ..) (puRemove_empty ..)
  | polling => rw [Dispatch.dispatch, hpc] at hs; cases hs
  | accepting i => rw [Dispatch.dispatch, hpc] at hs; cases hs
  | left => rw [Dispatch.dispatch, hpc] at hs; cases hs

theorem PollArr.puAdd_of_fds_eq_nil {a : PollArr} {fd : Int} (h : (a.puAdd fd).2.fds = []) :
    (a.puAdd fd).2 = a := by
  cases hfull : a.puIsfull with
  | true => exact puAdd_of_full hfull fd
  | false =>
      rw [puAdd_fds hfull] at h
      exact absurd h (by simp)

/-- Adding does not make the array count as empty. -/
theorem Dispatch.EmptyMeansIdle.add {fd : Int} (h : s.EmptyMeansIdle)
    (hfds : s'.pollArr.fds = (s.pollArr.puAdd fd).2.fds)
    (hempty : s'.pollArr.empty = (s.pollArr.puAdd fd).2.empty)
    (hclients : s'.workersClients = s.workersClients) : s'.EmptyMeansIdle := by
  rw [Dispatch.EmptyMeansIdle, puIsempty_iff, hfds, hempty, hclients]
  intro h
  obtain ⟨hnil, hflag⟩ := h
  have hsame := puAdd_of_fds_eq_nil hnil
  rw [hsame] at hnil hflag
  exact h (puIsempty_iff.mpr ⟨hnil, hflag⟩)

variable [DecidableEq ω]

theorem Dispatch.EmptyMeansIdle.accept {fd : Int} (h : s.EmptyMeansIdle)
    (hs : s.step socket (.accept fd) = some s') : s'.EmptyMeansIdle ∧ s'.worker = s.worker ∧
      s'.workersClients = s.workersClients := by
  cases hpc : s.dispatcher with
  | accepting i =>
      simp only [Dispatch.step, hpc] at hs
      split at hs
      · cases hs
        exact ⟨h.add (fds_clearRevents ..) rfl rfl, rfl, rfl⟩
      · split at hs
        · cases hs
          exact ⟨h.add (fds_clearRevents ..) rfl rfl, rfl, rfl⟩
        · cases hs
  | _ => simp [Dispatch.step, hpc] at hs

/-- An entry is written while there is a descriptor in the array. -/
theorem Dispatch.LocksServe.assign {w : ω} (h : s.LocksServe)
    (hs : s.step socket (.assign w) = some s') : s'.EmptyMeansIdle ∧ s'.LocksServe := by
  cases hpc : s.dispatcher with
  | scanning i =>
      simp only [Dispatch.step, hpc] at hs
      split at hs
      · cases hs
      · next p hp =>
          split at hs
          · next hcond =>
              obtain ⟨-, -, -, hfree, -⟩ := hcond
              cases hs
              refine ⟨fun hempty => ?_, fun v hv => ?_⟩
              · have hnil := (puIsempty_iff.mp hempty).1
                rw [fds, List.map_eq_nil_iff] at hnil
                dsimp only at hnil
                rw [hnil] at hp
                cases hp
              · have hvw : v ≠ w := by
                  intro heq
                  subst heq
                  rw [hfree] at hv
                  cases hv
                dsimp only
                rw [Function.update_of_ne hvw]
                exact h v hv
          · cases hs
  | _ => simp [Dispatch.step, hpc] at hs

/-- Workers that hold their lock, after a step of one of them. -/
theorem Dispatch.LocksServe.goTo {w : ω} {pc : WorkerPc} (h : s.LocksServe)
    (hworker : s'.worker = Function.update s.worker w pc)
    (hothers : ∀ v, v ≠ w → s'.workersClients v = s.workersClients v)
    (hpc : pc.unlocked = false → s'.workersClients w ≠ 0) : s'.LocksServe := by
  intro v hv
  rw [hworker] at hv
  by_cases hvw : v = w
  · subst hvw
    exact hpc (by simpa using hv)
  · rw [hothers v hvw]
    rw [Function.update_of_ne hvw] at hv
    exact h v hv

/-- An entry is cleared. -/
theorem Dispatch.EmptyMeansIdle.clear (h : s.EmptyMeansIdle) (hlocks : s.LocksServe) (w : ω) :
    let s' : Dispatch ω := { s with
      workersClients := Function.update s.workersClients w 0
      worker := Function.update s.worker w .top }
    s'.EmptyMeansIdle ∧ s'.LocksServe := by
  refine ⟨fun hempty v => ?_,
    hlocks.goTo rfl (fun v hv => Function.update_of_ne hv ..) fun hlocked => by cases hlocked⟩
  by_cases hvw : v = w
  · subst hvw
    exact Function.update_self ..
  · exact (Function.update_of_ne hvw ..).trans (h hempty v)

theorem Dispatch.EmptyMeansIdle.work {w : ω} {request : Bool} (h : s.EmptyMeansIdle)
    (hlocks : s.LocksServe) (hs : s.work w request = some s') :
    (s'.EmptyMeansIdle ↔ s.FlagsWork socket (.work w request)) ∧ s'.LocksServe := by
  have hvacuous : s.worker w ≠ .added → s.FlagsWork socket (.work w request) :=
    fun hne hadded => absurd hadded hne
  unfold Dispatch.work at hs
  cases hpc : s.worker w with
  | top =>
      simp only [hpc, Option.some.injEq] at hs
      subst hs
      refine ⟨iff_of_true (h.congr rfl rfl rfl) (hvacuous (by simp [hpc])),
        hlocks.goTo rfl (fun _ _ => rfl) fun hlocked => ?_⟩
      split at hlocked <;> cases hlocked
  | waiting =>
      simp only [hpc] at hs
      split at hs
      · split at hs
        · cases hs
          exact ⟨iff_of_true (h.congr rfl rfl rfl) (hvacuous (by simp [hpc])),
            hlocks.goTo rfl (fun _ _ => rfl) fun hlocked => by cases hlocked⟩
        · cases hs
      · next hclient =>
          split at hs
          · cases hs
            exact ⟨iff_of_true (h.congr rfl rfl rfl) (hvacuous (by simp [hpc])),
              hlocks.goTo rfl (fun _ _ => rfl) fun _ => hclient⟩
          · cases hs
            exact (h.clear hlocks w).imp_left (iff_of_true · (hvacuous (by simp [hpc])))
  | served =>
      simp only [hpc, Option.some.injEq] at hs
      subst hs
      exact ⟨iff_of_true (h.add rfl rfl rfl) (hvacuous (by simp [hpc])),
        hlocks.goTo rfl (fun _ _ => rfl) fun _ => hlocks w (by rw [hpc]; rfl)⟩
  | added =>
      simp only [hpc, Option.some.injEq] at hs
      subst hs
      have hclient := hlocks w (by rw [hpc]; rfl)
      refine ⟨⟨fun hI _ hnil => ?_, fun hflag hempty => ?_⟩,
        hlocks.goTo rfl (fun _ _ => rfl) fun _ => hclient⟩
      · exact hclient (hI (puIsempty_iff.mpr ⟨hnil, rfl⟩) w)
      · exact absurd (puIsempty_iff.mp hempty).1 (hflag hpc)
  | emptied =>
      simp only [hpc, Option.some.injEq] at hs
      subst hs
      exact (h.clear hlocks w).imp_left (iff_of_true · (hvacuous (by simp [hpc])))
  | stopped => simp [hpc] at hs

theorem Dispatch.EmptyMeansIdle.step {l : DispatchLabel ω} (h : s.EmptyMeansIdle)
    (hlocks : s.LocksServe) (hs : s.step socket l = some s') :
    (s'.EmptyMeansIdle ↔ s.FlagsWork socket l) ∧ s'.LocksServe := by
  have hsame : s'.worker = s.worker → s'.workersClients = s.workersClients → s'.LocksServe := by
    intro hworker hclients
    rw [Dispatch.LocksServe, hworker, hclients]
    exact hlocks
  cases l with
  | signal quit =>
      rw [Dispatch.step] at hs
      cases quit with
      | true => cases hs; exact ⟨iff_of_true (h.congr rfl rfl rfl) trivial, hsame rfl rfl⟩
      | false => cases hs; exact ⟨iff_of_true (h.congr rfl rfl rfl) trivial, hsame rfl rfl⟩
  | dispatch =>
      obtain ⟨hworker, hclients⟩ := Dispatch.dispatch_clients hs
      exact ⟨h.dispatch hs, hsame hworker hclients⟩
  | poll ready revents =>
      rw [Dispatch.step] at hs
      split at hs
      · cases hs
        exact ⟨iff_of_true (h.congr (fds_polled ..) rfl rfl) trivial, hsame rfl rfl⟩
      · cases hs
  | accept fd =>
      obtain ⟨hI, hworker, hclients⟩ := h.accept hs
      exact ⟨iff_of_true hI trivial, hsame hworker hclients⟩
  | assign w =>
      obtain ⟨hI, hJ⟩ := hlocks.assign hs
      exact ⟨iff_of_true hI trivial, hJ⟩
  | work w request => exact h.work hlocks hs

/-- At all times an array that counts as empty means that no worker has a
client, if and only if each step keeps to what the flag stands for. -/
theorem empty_means_idle_iff {past : List (DispatchLabel ω × Dispatch ω)}
    (hrun : DispatchRun socket maxlen past s) :
    (∀ x ∈ visited past s, x.EmptyMeansIdle) ↔ ∀ e ∈ past, e.2.FlagsWork socket e.1 := by
  refine Run.always_iff (J := Dispatch.LocksServe) (C := fun l s => s.FlagsWork socket l) hrun ?_
    fun s l s' hI hJ hs => ?_
  · intro s heq
    subst heq
    exact ⟨fun _ _ => rfl, fun _ hw => by cases hw⟩
  · obtain ⟨hiff, hlocks⟩ := hI.step hJ hs
    exact ⟨hiff, fun _ => hlocks⟩

/-- In a run whose steps keep to what the flag stands for, the dispatcher leaves
its loop on a hangup when no client is left. -/
theorem leaves_when_idle {past : List (DispatchLabel ω × Dispatch ω)}
    (hrun : DispatchRun socket maxlen past s)
    (hflag : ∀ e ∈ past, e.2.FlagsWork socket e.1) :
    ∀ x ∈ visited past s, x.HangsUp socket → x.Idle := fun x hx =>
  ((empty_means_idle_iff hrun).mpr hflag x hx).idle

end Shutdown

/-- Clients 5 and 6 are with the two workers when a hangup signal comes. -/
def bothServed : List (DispatchLabel Bool) :=
  connects 5 ++ connects 6 ++ [.dispatch] ++ requests false ++ [.dispatch, .dispatch, .dispatch] ++
    requests true ++ [.dispatch, .dispatch, .dispatch] ++ [.signal false]

/-- The dispatcher goes round once, and the client of entry 0 hangs up. -/
def hangUp : List (DispatchLabel Bool) :=
  [.dispatch, .dispatch, .poll true fun i => (i = 0, false)] ++ List.replicate 3 .dispatch

/-- Both clients are served and put back, and hang up in turn. -/
theorem leaves_when_idle_served : ∃ past s,
    DispatchRun (ω := Bool) 3 3 past s ∧ s.HangsUp 3 ∧
      ∀ x ∈ visited past s, x.HangsUp 3 → x.Idle := by
  have hrun := (dispatchRun_start (ω := Bool) 3 3).append_stepsFrom
    (bothServed ++ List.replicate 5 (.work false true) ++ List.replicate 5 (.work true true) ++
      hangUp ++ hangUp) rfl
  exact ⟨_, _, hrun, ⟨rfl, rfl, rfl, _, rfl, rfl⟩, leaves_when_idle hrun (by decide)⟩

/-- Client 5 is served, put back and hangs up while client 6 is with the other worker. -/
theorem leaves_client_behind : ∃ past s,
    DispatchRun (ω := Bool) 3 3 past s ∧
      s.HangsUp 3 ∧ s.workersClients true = 6 ∧ 6 ∈ s.opened ∧ ¬ s.Idle := by
  have hrun := (dispatchRun_start (ω := Bool) 3 3).append_stepsFrom
    (bothServed ++ [.dispatch, .dispatch, .poll false fun _ => (false, false)] ++
      List.replicate 5 (.work false true) ++ List.replicate 2 (.work true true) ++ hangUp) rfl
  exact ⟨_, _, hrun, ⟨rfl, rfl, rfl, _, rfl, rfl⟩, rfl, by decide,
    fun hidle => absurd (hidle.2 true) (by decide)⟩

end LsoStore
