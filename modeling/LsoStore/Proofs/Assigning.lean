import LsoStore.Assigning

/-!
# The search for a worker

The loop of `assign_client` only ever gives a client to a worker that has
nothing to do, so the dispatcher that searches does nothing the other one could
not do: `assign_run_refines` drops the rounds that found nobody and is left with
a run of it, and what was proved of those runs holds of these.

The search goes from one worker to the next, so it comes to a worker whose mutex is
free and whose entry is empty whenever a round begins after at most as many rounds
as there are workers. One that holds its mutex just then is passed over.
-/

namespace LsoStore

namespace Assigning

variable {socket : Int} {maxlen n : Nat} {s s' : Assigning n} {l : AssignLabel n}
  {past : List (AssignLabel n × Assigning n)}

/-! ## What a step does -/

/-- A round that finds a worker is a step of the dispatcher, one that does not
goes on to the next worker. -/
theorem tryWorker_cases (h : s.tryWorker socket = some s') :
    (s.Idle s.i ∧ s.base.step socket (.assign s.i) = some s'.base ∧ s'.calling = false) ∨
    (¬ s.Idle s.i ∧ s'.base = s.base ∧ s'.calling = s.calling ∧ s'.i = s.i + 1) := by
  rw [tryWorker] at h
  split at h
  · next hfree =>
      split at h
      · next hentry =>
          injection h with h
          subst h
          exact .inr ⟨fun hidle => hentry hidle.2, rfl, rfl, rfl⟩
      · next hentry =>
          obtain ⟨base, hbase, rfl⟩ := Option.map_eq_some_iff.mp h
          exact .inl ⟨⟨hfree, not_not.mp hentry⟩, hbase, rfl⟩
  · next hbusy =>
      have hnot : ¬ s.Idle s.i := fun hidle => hbusy hidle.1
      dsimp only at h
      split at h
      · injection h with h
        subst h
        exact .inr ⟨hnot, rfl, rfl, rfl⟩
      · injection h with h
        subst h
        exact .inr ⟨hnot, rfl, rfl, rfl⟩

theorem others_of_allows {d : DispatchLabel (Fin (n + 1))} (h : s.allows d = true) :
    d.others = true := by
  cases d with
  | work w request => rfl
  | signal quit => rfl
  | dispatch => rfl
  | poll ready revents => rfl
  | accept fd => rfl
  | assign w => cases h

theorem step_cases (h : s.step socket l = some s') :
    (∃ d, l = .other d ∧ d.others = true ∧ s.base.step socket d = some s'.base ∧
      s'.calling = s.calling ∧ s'.i = s.i) ∨
    ((∃ w, l = .look w ∨ l = .wait w) ∧ s'.base = s.base ∧ s'.calling = s.calling ∧
      s'.i = s.i) ∨
    (l = .call ∧ s.calling = false ∧ client socket s.base ≠ none ∧ s'.base = s.base ∧
      s'.i = s.i) ∨
    (l = .tryWorker ∧ s.calling = true ∧ s.tryWorker socket = some s') := by
  cases l with
  | other d =>
      rw [step] at h
      split at h
      · next hallows =>
          obtain ⟨base, hbase, rfl⟩ := Option.map_eq_some_iff.mp h
          exact .inl ⟨d, rfl, others_of_allows hallows, hbase, rfl, rfl⟩
      · cases h
  | look w =>
      rw [step] at h
      split at h
      · injection h with h
        subst h
        exact .inr (.inl ⟨⟨w, .inl rfl⟩, rfl, rfl, rfl⟩)
      · cases h
  | wait w =>
      rw [step] at h
      split at h
      · injection h with h
        subst h
        exact .inr (.inl ⟨⟨w, .inr rfl⟩, rfl, rfl, rfl⟩)
      · cases h
  | call =>
      rw [step] at h
      split at h
      · next hcall =>
          injection h with h
          subst h
          exact .inr (.inr (.inl ⟨rfl, by simpa using hcall.1, hcall.2, rfl, rfl⟩))
      · cases h
  | tryWorker =>
      rw [step] at h
      split at h
      · next hcalling => exact .inr (.inr (.inr ⟨rfl, hcalling, h⟩))
      · cases h

/-! ## The refinement -/

/-- The steps of the dispatcher that a run takes, each with its state. -/
def shownSteps (past : List (AssignLabel n × Assigning n)) :
    List (DispatchLabel (Fin (n + 1)) × Dispatch (Fin (n + 1))) :=
  past.filterMap fun e => (shown e.1 e.2).map fun d => (d, e.2.base)

/-- A run of the dispatcher that searches is, without the rounds that found
nobody, a run of the one that is given a worker. -/
theorem assign_run_refines (h : AssignRun socket maxlen n past s) :
    DispatchRun socket maxlen (shownSteps past) s.base := by
  refine h.refines (fun s hs => ?_) (fun s l s' hs hl => ?_) fun s l s' d hs hl => ?_
  · rw [hs]
    rfl
  · rcases step_cases hs with ⟨d, rfl, -⟩ | ⟨-, hbase, -⟩ | ⟨rfl, -, -, hbase, -⟩ |
      ⟨rfl, -, htry⟩
    · cases hl
    · exact hbase
    · exact hbase
    · rw [shown] at hl
      split at hl
      · cases hl
      · next hnot =>
          rcases tryWorker_cases htry with ⟨hidle, -⟩ | ⟨-, hbase, -⟩
          · exact absurd hidle hnot
          · exact hbase
  · rcases step_cases hs with ⟨d', rfl, -, hbase, -⟩ | ⟨⟨w, hw⟩, -⟩ | ⟨rfl, -⟩ | ⟨rfl, -, htry⟩
    · injection hl with hl
      exact hl ▸ hbase
    · rcases hw with rfl | rfl
      · cases hl
      · cases hl
    · cases hl
    · rw [shown] at hl
      split at hl
      · next hidle =>
          injection hl with hl
          subst hl
          rcases tryWorker_cases htry with ⟨-, hbase, -⟩ | ⟨hnot, -⟩
          · exact hbase
          · exact absurd hidle hnot
      · cases hl

/-! ## How long a search takes -/

/-- The rounds of the loop among the steps. -/
def rounds (steps : List (AssignLabel n × Assigning n)) : Nat :=
  steps.countP fun e => e.1.tries

/-- How far the search is from a worker. -/
def distance (s : Assigning n) (w : Fin (n + 1)) : Nat :=
  if s.i.val ≤ w.val then w.val - s.i.val else w.val + (n + 1) - s.i.val

theorem distance_le (s : Assigning n) (w : Fin (n + 1)) : s.distance w ≤ n := by
  have hw := w.isLt
  rw [distance]
  split
  · omega
  · omega

/-- One worker on, one step closer. -/
theorem distance_next {w : Fin (n + 1)} (hne : s.i ≠ w) (hi : s'.i = s.i + 1) :
    s'.distance w + 1 = s.distance w := by
  have hval : s.i.val ≠ w.val := fun h => hne (Fin.ext h)
  have hw := w.isLt
  have hlt := s.i.isLt
  have hnext : s'.i.val = (s.i.val + 1) % (n + 1) := by
    rw [hi, Fin.val_add, Fin.val_one']
    simp
  rw [distance, distance]
  rcases Nat.lt_or_ge (s.i.val + 1) (n + 1) with hin | hlast
  · rw [Nat.mod_eq_of_lt hin] at hnext
    split
    · split
      · omega
      · omega
    · split
      · omega
      · omega
  · have hlast : s.i.val = n := by omega
    rw [hlast, Nat.mod_self] at hnext
    split
    · split
      · omega
      · omega
    · split
      · omega
      · omega

/-- The steps all belong to one call of `assign_client`, and `w` is idle whenever
a round begins. -/
def SearchesPast (w : Fin (n + 1)) (steps : List (AssignLabel n × Assigning n)) : Prop :=
  ∀ e ∈ steps, e.2.calling = true ∧ (e.1.tries = true → e.2.Idle w)

theorem rounds_add_distance {front : List (AssignLabel n × Assigning n)} {w : Fin (n + 1)}
    (h : AssignRun socket maxlen n past s) :
    ∀ steps, past = front ++ steps → SearchesPast w steps → s.calling = true →
      rounds steps + s.distance w ≤ n := by
  induction h with
  | init s hs =>
      intro steps hpast _ hcalling
      rw [hs] at hcalling
      cases hcalling
  | step past s s' l h hs ih =>
      intro steps hpast hsearch hcalling
      rcases List.eq_nil_or_concat' steps with rfl | ⟨steps, e, rfl⟩
      · rw [rounds, List.countP_nil, Nat.zero_add]
        exact s'.distance_le w
      rw [← List.append_assoc] at hpast
      obtain ⟨hfront, he⟩ := List.append_inj' hpast rfl
      injection he with he
      subst he
      have hlast := hsearch (l, s) (List.mem_append_right _ (List.mem_singleton_self _))
      have hbefore := ih steps hfront
        (fun e he => hsearch e (List.mem_append_left _ he)) hlast.1
      rw [rounds, List.countP_append]
      rw [rounds] at hbefore
      rcases step_cases hs with ⟨d, rfl, -, -, -, hi⟩ | ⟨⟨x, hx⟩, -, -, hi⟩ | ⟨rfl, hnot, -⟩ |
        ⟨rfl, -, htry⟩
      · rw [distance, hi, ← distance]
        simpa [AssignLabel.tries] using hbefore
      · rw [distance, hi, ← distance]
        rcases hx with rfl | rfl
        · simpa [AssignLabel.tries] using hbefore
        · simpa [AssignLabel.tries] using hbefore
      · rw [hnot] at hlast
        cases hlast.1
      · rcases tryWorker_cases htry with ⟨-, -, hover⟩ | ⟨hnot, -, -, hi⟩
        · rw [hover] at hcalling
          cases hcalling
        · have hne : s.i ≠ w := fun heq => hnot (heq ▸ hlast.2 rfl)
          have hcloser := distance_next hne hi
          have hone : List.countP (fun e : AssignLabel n × Assigning n => e.1.tries)
              [(.tryWorker, s)] = 1 := rfl
          omega

/-! ## The client at hand -/

/-- The dispatcher stands at an entry that has something to be read. -/
theorem client_ne_none {d : Dispatch (Fin (n + 1))} (h : client socket d ≠ none) :
    ∃ j p, d.dispatcher = .scanning j ∧ d.pollArr.arr[j]? = some p ∧
      (!p.hup && p.inn) = true ∧ p.fd ≠ socket ∧ 0 ≤ p.fd := by
  rw [client] at h
  split at h
  · next j hj =>
      split at h
      · exact absurd rfl h
      · next p hp =>
          split at h
          · next hready => exact ⟨j, p, hj, hp, hready⟩
          · exact absurd rfl h
  · exact absurd rfl h

theorem client_eq {d : Dispatch (Fin (n + 1))} {j : Nat} {p : PollFd}
    (hj : d.dispatcher = .scanning j) (hp : d.pollArr.arr[j]? = some p)
    (hready : (!p.hup && p.inn) = true ∧ p.fd ≠ socket ∧ 0 ≤ p.fd) :
    client socket d = some p.fd := by
  rw [client, hj]
  dsimp only
  rw [hp]
  exact if_pos hready

/-- A worker leaves the entries that are there as they are. -/
theorem work_entry {d d' : Dispatch (Fin (n + 1))} {w : Fin (n + 1)} {request : Bool} {j : Nat}
    {p : PollFd} (h : d.work w request = some d') (hp : d.pollArr.arr[j]? = some p) :
    d'.dispatcher = d.dispatcher ∧ d'.pollArr.arr[j]? = some p := by
  rw [Dispatch.work] at h
  cases hw : d.worker w with
  | top =>
      rw [hw] at h
      injection h with h
      exact h ▸ ⟨rfl, hp⟩
  | waiting =>
      rw [hw] at h
      dsimp only at h
      split at h
      · split at h
        · injection h with h
          exact h ▸ ⟨rfl, hp⟩
        · cases h
      · split at h
        · injection h with h
          exact h ▸ ⟨rfl, hp⟩
        · injection h with h
          exact h ▸ ⟨rfl, hp⟩
  | served =>
      rw [hw] at h
      injection h with h
      subst h
      refine ⟨rfl, ?_⟩
      dsimp only
      rw [PollArr.puAdd]
      split
      · exact hp
      · have hlt := (List.getElem?_eq_some_iff.mp hp).1
        dsimp only
        rw [List.getElem?_append_left hlt]
        exact hp
  | added =>
      rw [hw] at h
      injection h with h
      exact h ▸ ⟨rfl, hp⟩
  | emptied =>
      rw [hw] at h
      injection h with h
      exact h ▸ ⟨rfl, hp⟩
  | stopped =>
      rw [hw] at h
      cases h

/-- What goes on meanwhile does not take the client away. -/
theorem client_others {d d' : Dispatch (Fin (n + 1))} {l : DispatchLabel (Fin (n + 1))}
    (hl : l.others = true) (h : d.step socket l = some d') (hc : client socket d ≠ none) :
    client socket d' ≠ none := by
  obtain ⟨j, p, hj, hp, hready⟩ := client_ne_none hc
  suffices hsame : d'.dispatcher = d.dispatcher ∧ d'.pollArr.arr[j]? = some p by
    rw [client_eq (hsame.1.trans hj) hsame.2 hready]
    exact Option.some_ne_none _
  cases l with
  | signal quit =>
      cases quit with
      | true =>
          injection h with h
          exact h ▸ ⟨rfl, hp⟩
      | false =>
          injection h with h
          exact h ▸ ⟨rfl, hp⟩
  | dispatch =>
      obtain ⟨hin, hfd, hpos⟩ := hready
      have hhup : p.hup = false := by simpa using (Bool.and_eq_true_iff.mp hin).1
      have hinn : p.inn = true := (Bool.and_eq_true_iff.mp hin).2
      rw [Dispatch.step, Dispatch.dispatch, hj] at h
      dsimp only at h
      rw [hp] at h
      simp [hhup, hinn, hfd, Int.not_lt.mpr hpos] at h
  | poll ready revents =>
      rw [Dispatch.step, hj] at h
      simp at h
  | accept fd =>
      rw [Dispatch.step, hj] at h
      simp at h
  | assign w => cases hl
  | work w request => exact work_entry h hp

/-- In a call of `assign_client` there is a client at hand. -/
theorem calling_client (h : AssignRun socket maxlen n past s) (hcalling : s.calling = true) :
    client socket s.base ≠ none := by
  refine h.always (I := fun s => s.calling = true → client socket s.base ≠ none)
    (fun s hs hcalling => ?_) (fun s l s' hc hs hcalling => ?_) s (mem_visited_self _ _) hcalling
  · rw [hs] at hcalling
    cases hcalling
  · rcases step_cases hs with ⟨d, -, hothers, hbase, hsame, -⟩ | ⟨-, hbase, hsame, -⟩ |
      ⟨-, -, hclient, hbase, -⟩ | ⟨-, hbefore, htry⟩
    · exact client_others hothers hbase (hc (hsame ▸ hcalling))
    · rw [hbase]
      exact hc (hsame ▸ hcalling)
    · rw [hbase]
      exact hclient
    · rcases tryWorker_cases htry with ⟨-, -, hover⟩ | ⟨-, hbase, -⟩
      · rw [hover] at hcalling
        cases hcalling
      · rw [hbase]
        exact hc hbefore

/-- The next round can always be taken. -/
theorem tryWorker_ne_none (hc : client socket s.base ≠ none) : s.tryWorker socket ≠ none := by
  obtain ⟨j, p, hj, hp, hin, hfd, hpos⟩ := client_ne_none hc
  rw [tryWorker]
  split
  · next hfree =>
      split
      · exact Option.some_ne_none _
      · next hentry =>
          rw [Dispatch.step, hj]
          dsimp only
          rw [hp]
          dsimp only
          rw [if_pos ⟨hin, hfd, hpos, (Bool.and_eq_true_iff.mp hfree).1, not_not.mp hentry⟩]
          exact Option.some_ne_none _
  · dsimp only
    split
    · exact Option.some_ne_none _
    · exact Option.some_ne_none _

/-- While a call of `assign_client` goes on, with a worker whose mutex is free and
whose entry is empty at every round, it has tried fewer workers than there are,
whatever else happened meanwhile, and there is nothing that keeps it from trying
the next. -/
theorem assign_search_ends {front steps : List (AssignLabel n × Assigning n)}
    {w : Fin (n + 1)} (h : AssignRun socket maxlen n (front ++ steps) s)
    (hsearch : SearchesPast w steps) (hcalling : s.calling = true) :
    rounds steps < n + 1 ∧ s.step socket .tryWorker ≠ none := by
  have hrounds := rounds_add_distance h steps rfl hsearch hcalling
  refine ⟨by omega, ?_⟩
  rw [step, if_pos hcalling]
  exact tryWorker_ne_none (calling_client h hcalling)

/-- `poll` finds something to be read at one entry. -/
def readableAt (j : Nat) : Nat → Bool × Bool := fun i => (false, i = j)

/-- The next round of the dispatcher's loop, up to the entry that has something
to be read. -/
def polls (j : Nat) : List (AssignLabel n) :=
  [.other .dispatch, .other .dispatch, .other (.poll true (readableAt j))] ++
    List.replicate j (.other .dispatch)

/-- Clients 5 and 6 connect, client 5 is given to worker 0, and while that one serves
it client 6 sends a request. -/
def secondClient : List (AssignLabel 1) :=
  polls 0 ++ [.other .dispatch, .other (.accept 5), .other .dispatch, .other .dispatch] ++
    polls 0 ++ [.other .dispatch, .other (.accept 6)] ++ List.replicate 3 (.other .dispatch) ++
    polls 1 ++ [.call, .tryWorker] ++ List.replicate 3 (.other .dispatch) ++
    [.other (.work 0 true), .look 0, .other (.work 0 true)] ++ polls 1 ++ [.call]

/-- The search passes worker 0 over. -/
theorem second_search : ∃ front steps s, AssignRun 3 4 1 (front ++ steps) s ∧
    SearchesPast 1 steps ∧ s.calling = true ∧ rounds steps = 1 := by
  have hstart : AssignRun 3 4 1 [] (.start 3 4 1) := .init _ rfl
  have hfront := hstart.append_stepsFrom secondClient rfl
  have hrun := hfront.append_stepsFrom [.tryWorker] rfl
  refine ⟨_, _, _, hrun, fun e he => ?_, rfl, rfl⟩
  rw [List.mem_singleton.mp he]
  exact ⟨rfl, fun _ => ⟨rfl, rfl⟩⟩

/-- Worker 1 looks at its entry just when it is tried, and gets the client in the
next pass. -/
theorem assign_run_refines_second : ∃ past s, AssignRun 3 4 1 past s ∧
    rounds past = 5 ∧ s.base.workersClients 1 = 6 ∧
    DispatchRun 3 4 (shownSteps past) s.base := by
  have hstart : AssignRun 3 4 1 [] (.start 3 4 1) := .init _ rfl
  have hfront := hstart.append_stepsFrom secondClient rfl
  have hrun := hfront.append_stepsFrom [.other (.work 1 true), .look 1, .tryWorker, .tryWorker,
    .wait 1, .tryWorker, .tryWorker] rfl
  exact ⟨_, _, hrun, rfl, rfl, assign_run_refines hrun⟩

theorem assign_search_ends_second : ∃ (front steps : List (AssignLabel 1 × Assigning 1))
    (s : Assigning 1), AssignRun 3 4 1 (front ++ steps) s ∧ rounds steps = 1 ∧
    rounds steps < 1 + 1 ∧ s.step 3 .tryWorker ≠ none := by
  obtain ⟨front, steps, s, h, hsearch, hcalling, hrounds⟩ := second_search
  exact ⟨front, steps, s, h, hrounds, assign_search_ends h hsearch hcalling⟩

end Assigning

end LsoStore
