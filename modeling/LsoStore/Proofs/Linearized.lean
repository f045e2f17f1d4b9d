import LsoStore.Proofs.SectionCalls

/-!
# Handlers that overlap

The handlers of several clients, cut into their sections, in any interleaving:
each request takes effect in one of the sections of its own handler, and there it
is a call on the store of owned files. So what the clients are answered is what
they would have been answered one after the other, in an order in which no request
comes before one that had been answered when it arrived.

A file that is made must not have been made by somebody else since the handler
looked, and a removal has to find its path in the memory it has freed.
-/

namespace LsoStore

open Proc FileStorage OwnedStore

section Interleaving

variable {ι : Type} [DecidableEq ι] {handlers : ι → Handler} {names : List UInt8 → Prop}
  {qsort : Qsort Nat} {c c' : Handlers ι} {i : ι} {tr : List (Event Mutex)}
  {past : List ((ι × List (Event Mutex)) × Handlers ι)} {w₀ : World FileStorage Mutex}

/-- The handlers serve clients and have been given names, none of which is the
beginning of another. -/
structure Serving (names : List UInt8 → Prop) (handlers : ι → Handler) : Prop where
  prefixFree : PrefixFree names
  path : ∀ i, names (handlers i).path
  nonzero : ∀ i, (handlers i).client ≠ 0
  client : ∀ i, (handlers i).client ≠ -1

/-- No other handler spoils the section that handler `l.1` is about to run. -/
def Undisturbed (handlers : ι → Handler) (l : ι × List (Event Mutex)) (c : Handlers ι) : Prop :=
  (handlers l.1).Undisturbed c.shared.st (c.stage l.1) l.2

/-- What the handlers have found out still holds. -/
structure Consistent (names : List UInt8 → Prop) (handlers : ι → Handler) (c : Handlers ι) :
    Prop where
  hosts : Hosts names c.shared.st
  granted : Granted handlers c
  ready : ∀ i, (handlers i).Ready c.shared.st (c.stage i)

omit [DecidableEq ι] in
theorem Consistent.at (h : Consistent names handlers c)
    (hserving : Serving names handlers) (i : ι) :
    (handlers i).At names c.shared (c.stage i) :=
  ⟨h.hosts, hserving.prefixFree, hserving.path i, hserving.nonzero i, hserving.client i, h.ready i,
    fun a hi => h.granted.held i a hi, fun a f hi => h.granted.owner i a f hi⟩

theorem Consistent.shows (h : Consistent names handlers c) (hserving : Serving names handlers)
    (hs : Handlers.Step qsort handlers c (i, tr) c') (hund : Undisturbed handlers (i, tr) c) :
    (handlers i).Shows (c.stage i) tr c.shared.st c'.shared.st ∧
      (handlers i).Ready c'.shared.st (c'.stage i) := by
  cases hs with
  | act _ _ w' t' ha =>
      dsimp only
      rw [Function.update_self]
      exact ha.shows (h.at hserving i) hund

theorem Consistent.step (h : Consistent names handlers c) (hserving : Serving names handlers)
    (hs : Handlers.Step qsort handlers c (i, tr) c') (hund : Undisturbed handlers (i, tr) c) :
    Consistent names handlers c' := by
  have hready := (h.shows hserving hs hund).2
  have hgranted := h.granted.step hserving.nonzero hs
  cases hs with
  | act _ _ w' t' ha =>
      obtain ⟨hwf, hdescends⟩ :=
        ha.descends (hserving.nonzero i) (hserving.path i) h.hosts.wellFormed hund.first
      refine ⟨h.hosts.descends hdescends hwf, hgranted, fun j => ?_⟩
      by_cases hj : j = i
      · exact hj ▸ hready
      · have hstage : Function.update c.stage i t' j = c.stage j := Function.update_of_ne hj _ _
        dsimp only
        rw [hstage]
        refine (h.ready j).descends hdescends fun a hfile => ?_
        exact ha.keeps_stored (h.at hserving i) hund ((h.ready j).stored a hfile)
          (h.granted.held j a hfile)

/-- The action of the section that handler `l.1` is about to run. -/
def sectionAction (handlers : ι → Handler) (l : ι × List (Event Mutex)) (c : Handlers ι) :
    Option (Action (List UInt8) Int (List UInt8)) :=
  (handlers l.1).action c.shared.st (c.stage l.1) l.2

/-- The actions of the sections, each with the entries it found. -/
def actions (handlers : ι → Handler) (past : List ((ι × List (Event Mutex)) × Handlers ι)) :
    List (Action (List UInt8) Int (List UInt8) × OwnedStore.Store (List UInt8) Int (List UInt8)) :=
  past.filterMap fun e => (sectionAction handlers e.1 e.2).map
    fun action => (action, e.2.shared.st.entries)

/-- The sections of one handler. -/
def sectionsOf (past : List ((ι × List (Event Mutex)) × Handlers ι)) (i : ι) :
    List ((ι × List (Event Mutex)) × Handlers ι) := past.filter fun e => e.1.1 = i

/-- The calls that they are. -/
def callsOf (handlers : ι → Handler) (past : List ((ι × List (Event Mutex)) × Handlers ι)) (i : ι) :
    List (Call (List UInt8) Int (List UInt8)) :=
  (sectionsOf past i).flatMap fun e => (handlers i).sectionCall e.2.shared.st (e.2.stage i) e.1.2

/-- All that the handler has read and written. -/
def traceOf (past : List ((ι × List (Event Mutex)) × Handlers ι)) (i : ι) : List (Event Mutex) :=
  (sectionsOf past i).flatMap fun e => e.1.2

theorem sectionsOf_snoc (past : List ((ι × List (Event Mutex)) × Handlers ι))
    (e : (ι × List (Event Mutex)) × Handlers ι) (i : ι) :
    sectionsOf (past ++ [e]) i = sectionsOf past i ++ if e.1.1 = i then [e] else [] := by
  rw [sectionsOf, List.filter_append, sectionsOf]
  by_cases hi : e.1.1 = i
  · rw [if_pos hi, List.filter_singleton, decide_eq_true hi]
    rfl
  · rw [if_neg hi, List.filter_singleton, decide_eq_false hi]
    rfl

theorem HandlersRun.consistent (hserving : Serving names handlers)
    (hs : Hosts names w₀.st) (h : HandlersRun qsort handlers (· = w₀) past c)
    (hund : ∀ e ∈ past, Undisturbed handlers e.1 e.2) :
    ∀ x ∈ visited past c, Consistent names handlers x := by
  refine (h.restrict hund).always (fun c₀ hc₀ => ?_) fun _ _ _ hc hstep =>
    hc.step hserving hstep.1 hstep.2
  obtain ⟨rfl, hbegun⟩ := hc₀
  have hnone : ∀ i a, (c₀.stage i).file ≠ some a := fun i a hi => by
    rw [hbegun i] at hi
    cases hi
  exact ⟨hs, ⟨hs.wellFormed.accounted.fresh, fun i a hi => absurd hi (hnone i a),
    fun i a hi => absurd hi (hnone i a), fun i j a hi => absurd hi (hnone i a),
    fun i a f hi => absurd hi (hnone i a)⟩, fun i => .of_none (by rw [hbegun i]; rfl)⟩

/-- The sections of handlers that overlap are turns on the store of owned files, one
after the other. -/
theorem HandlersRun.turns (hserving : Serving names handlers)
    (hs : Hosts names w₀.st) (h : HandlersRun qsort handlers (· = w₀) past c)
    (hund : ∀ e ∈ past, Undisturbed handlers e.1 e.2) :
    Run (· = w₀.st.entries) (fun s e s' => Turn [] s e s') (actions handlers past)
      c.shared.st.entries := by
  have hconsistent := HandlersRun.consistent hserving hs h hund
  have hrun := h.restrict (C := fun l x => Consistent names handlers x ∧ Undisturbed handlers l x)
    fun e he => ⟨hconsistent e.2 (List.mem_append_left _ (List.mem_map_of_mem he)), hund e he⟩
  refine hrun.refines (f := fun x => x.shared.st.entries) (fun c₀ hc₀ => ?_)
    (fun x l x' hx hnone => ?_) fun x l x' action hx hsome => ?_
  · rw [hc₀.1]
  · have hshows := (hx.2.1.shows hserving hx.1 hx.2.2).1
    rw [sectionAction] at hnone
    rw [Handler.Shows, hnone] at hshows
    exact hshows
  · have hshows := (hx.2.1.shows hserving hx.1 hx.2.2).1
    rw [sectionAction] at hsome
    rw [Handler.Shows, hsome] at hshows
    exact hshows

theorem HandlersRun.progress (hserving : Serving names handlers)
    (hs : Hosts names w₀.st) (h : HandlersRun qsort handlers (· = w₀) past c)
    (hund : ∀ e ∈ past, Undisturbed handlers e.1 e.2) (i : ι) :
    (handlers i).Progress (c.stage i) (callsOf handlers past i) (traceOf past i) := by
  induction h with
  | init c hc =>
      rw [hc.2 i]
      exact ⟨rfl, rfl⟩
  | step past c c' l hrun hs' ih =>
      obtain ⟨j, tr⟩ := l
      rw [List.forall_mem_append, List.forall_mem_singleton] at hund
      have hpast := ih hund.1
      have hconsistent :=
        HandlersRun.consistent hserving hs hrun hund.1 c (mem_visited_self past c)
      rw [callsOf, traceOf, sectionsOf_snoc, List.flatMap_append, List.flatMap_append, ← callsOf,
        ← traceOf]
      cases hs' with
      | act _ _ w' t' ha =>
          dsimp only
          by_cases hij : j = i
          · subst hij
            rw [if_pos rfl, List.flatMap_singleton, List.flatMap_singleton, Function.update_self]
            exact ha.progress (hconsistent.at hserving j) hpast
          · rw [if_neg hij, List.flatMap_nil, List.flatMap_nil, List.append_nil, List.append_nil,
              Function.update_of_ne (Ne.symm hij)]
            exact hpast

/-- However handlers overlap, it is as if each of them had made its call on the store
of owned files at one moment of its own: the sections are a run of the store, and a
handler that has come to its end has made one call in it, for what it was asked and
with the answer that it gave. -/
theorem handlers_linearized (hserving : Serving names handlers)
    (hs : Hosts names w₀.st) (h : HandlersRun qsort handlers (· = w₀) past c)
    (hund : ∀ e ∈ past, Undisturbed handlers e.1 e.2) :
    Run (· = w₀.st.entries) (fun s e s' => Turn [] s e s') (actions handlers past)
        c.shared.st.entries ∧
      ∀ i r, c.stage i = .returned r → callsOf handlers past i =
        [⟨(handlers i).client, (handlers i).path, (handlers i).wants (traceOf past i),
          replyOf ((handlers i).wants (traceOf past i)) (traceOf past i)⟩] := by
  refine ⟨HandlersRun.turns hserving hs h hund, fun i r hi => ?_⟩
  have hprogress := HandlersRun.progress hserving hs h hund i
  rwa [hi] at hprogress

/-- A client that has a file open has it to itself, whatever the handlers of other
clients do in between: until it closes or removes the file, or writes to another
one, the contents are what its own writes make of them, its reads find just that,
and everybody else is turned away. -/
theorem session_interleaved {client : Int} {path old : List UInt8}
    (hserving : Serving names handlers)
    (hs : Hosts names w₀.st) (h : HandlersRun qsort handlers (· = w₀) past c)
    (hund : ∀ e ∈ past, Undisturbed handlers e.1 e.2)
    (hopen : w₀.st.entries path = some ⟨some client, old⟩)
    (hkeeps : ∀ e ∈ actions handlers past, ¬ e.1.MayEnd client path) :
    c.shared.st.entries path = some ⟨some client,
        ((actions handlers past).map Prod.fst).foldl (Action.valueAfter client path) old⟩ ∧
      ∀ front e behind, actions handlers past = front ++ e :: behind →
        e.1.Sees client path ((front.map Prod.fst).foldl (Action.valueAfter client path) old) :=
  turns_session (HandlersRun.turns hserving hs h hund) (fun _ hstart => hstart ▸ hopen) hkeeps

end Interleaving

/-- Client 4 writes to its file "a" while client 5 asks to read it. -/
def writerAndReader (five : Bool) : Handler :=
  if five then ⟨.readFile, 5, [97]⟩ else ⟨.writeFile, 4, [97]⟩

/-- Client 5's handler looks the file up while client 4's waits for its data, and
gets back to it when the data is there. -/
theorem writerAndReader_overlap : ∃ w₀ past c, Hosts (· = [97]) w₀.st ∧
    w₀.st.entries [97] = some ⟨some 4, []⟩ ∧
    HandlersRun Qsort.insertion writerAndReader (· = w₀) past c ∧
    (∀ e ∈ past, Undisturbed writerAndReader e.1 e.2) ∧
    (actions writerAndReader past).map Prod.fst = [.room 4 [97],
      .call ⟨4, [97], .update fun _ => [1, 2], .done⟩, .call ⟨5, [97], .read, .owned⟩] ∧
    c.stage true = .returned 3 ∧ traceOf past true = [.write (.word sapiLocked) true] := by
  obtain ⟨s, hs⟩ : ∃ s, fuInitFileStorage 4 5 = some s := ⟨_, rfl⟩
  have hwf := WellFormed.init (by decide) (by decide) hs
  cases hs
  have hhosts : Hosts (· = [97]) (((fuInitFileStorage 4 5).get rfl).withFile 4 [97]) := by
    refine ⟨hwf.create rfl rfl, fun a ha => ?_, fun a ha => ?_⟩
    · obtain rfl := List.mem_singleton.mp ha
      rfl
    · obtain rfl := List.mem_singleton.mp ha
      exact fun hzero => by cases hzero
  have h₀ : HandlersRun Qsort.insertion writerAndReader
      (· = ⟨((fuInitFileStorage 4 5).get rfl).withFile 4 [97], ∅⟩) []
      ⟨⟨_, ∅⟩, fun _ => .begun⟩ := .init _ ⟨rfl, fun _ => rfl⟩
  have h₁ := HandlersRun.section h₀ false .begun
    [.read 8 (some [2, 0, 0, 0, 0, 0, 0, 0]), .write (.word sapiSuccess) true] rfl (by simp)
    (by simp) rfl
  have h₂ := HandlersRun.section h₁ true .begun [] rfl (by simp) (by simp) rfl
  have h₃ := HandlersRun.section h₂ false (.granted 0 2)
    [.read 2 (some [1, 2]), .write (.word sapiSuccess) true] rfl (by simp) (by simp) rfl
  have h₄ := HandlersRun.section h₃ true (.looked (some 0)) [.write (.word sapiLocked) true] rfl
    (by simp) (by simp) rfl
  refine ⟨_, _, _, hhosts, rfl, h₄, ?_, rfl, rfl, rfl⟩
  have hund : ∀ (five : Bool) tr c, Undisturbed writerAndReader (five, tr) c := by
    intro five tr c
    cases five with
    | false => exact ⟨fun hkind => (by cases hkind), fun _ hcreates => by cases hcreates⟩
    | true => exact ⟨fun hkind => (by cases hkind), fun _ hcreates => by cases hcreates⟩
  exact fun e _ => hund e.1.1 e.1.2 e.2

theorem writerAndReader_serving : Serving (· = [97]) writerAndReader := by
  refine ⟨prefixFree_one [97], fun five => ?_, fun five => ?_, fun five => ?_⟩
  · cases five <;> rfl
  · cases five <;> decide
  · cases five <;> decide

theorem handlers_linearized_two : ∃ (past : List ((Bool × List (Event Mutex)) × Handlers Bool))
    (c : Handlers Bool) (t : OwnedStore.Store (List UInt8) Int (List UInt8)),
    (actions writerAndReader past).length = 3 ∧
      Run (· = t) (fun s e s' => Turn [] s e s') (actions writerAndReader past)
        c.shared.st.entries ∧
      callsOf writerAndReader past true = [⟨5, [97], .read, .owned⟩] := by
  obtain ⟨w₀, past, c, hhosts, -, h, hund, hactions, hstage, htrace⟩ := writerAndReader_overlap
  have hlin := handlers_linearized writerAndReader_serving hhosts h hund
  have hlen := congrArg List.length hactions
  rw [List.length_map] at hlen
  refine ⟨past, c, _, hlen, hlin.1, ?_⟩
  rw [hlin.2 true 3 hstage, htrace]
  rfl

theorem session_interleaved_two : ∃ past, ∃ c : Handlers Bool,
    (actions writerAndReader past).length = 3 ∧
    c.shared.st.entries [97] = some ⟨some 4, [1, 2]⟩ ∧
    ∀ front e behind, actions writerAndReader past = front ++ e :: behind →
      e.1.Sees 4 [97] ((front.map Prod.fst).foldl (Action.valueAfter 4 [97]) []) := by
  obtain ⟨w₀, past, c, hhosts, hopen, h, hund, hactions, -⟩ := writerAndReader_overlap
  have hkeeps : ∀ e ∈ (actions writerAndReader past).map Prod.fst, ¬ e.MayEnd 4 [97] := by
    rw [hactions]
    simp [Action.MayEnd, Call.MayEnd]
  have hsession := session_interleaved writerAndReader_serving hhosts h hund
    hopen fun e he => hkeeps e.1 (List.mem_map_of_mem he)
  refine ⟨past, c, ?_, ?_, hsession.2⟩
  · rw [← List.length_map Prod.fst, hactions]
    rfl
  · rw [hsession.1, hactions]
    rfl

end LsoStore
