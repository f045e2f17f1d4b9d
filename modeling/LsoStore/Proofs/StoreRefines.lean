import LsoStore.Proofs.StoreSections

/-!
# The server keeps a store with owners

As long as no path that the clients name is a prefix of another, each request is
one call on the store of owned files: what it is answered, and what it does to
the stored files, is what that call is answered and does there. The table finds a
file by a comparison up to the shorter length, so this is not so for other
paths; and a removal looks its path up in memory that it has freed, so it has to
find the path still there.

An owner then gets what the store promises it: from the request that opens the
file on, a read finds what the owner's own writes and appends have made of it,
and every other client is turned away.
-/

namespace LsoStore

open Proc FileStorage OwnedStore

/-! ## Answers -/

theorem callOf_cons_read (request : SMessage) (client : Int) (n : Nat) (buf : List UInt8)
    (tr : List (Event Mutex)) :
    callOf request client (.read n (some buf) :: tr) =
      (askedFor request ((taken tr).getD [])).map fun op =>
        ⟨client, cString buf, op, replyOf op tr⟩ := by
  rw [callOf, taken_cons_read]
  show ((askedFor request ((taken tr).getD [])).bind fun op =>
    some (⟨client, cString buf, op, replyOf op (.read n (some buf) :: tr)⟩ : Call _ _ _)) = _
  cases askedFor request ((taken tr).getD []) with
  | none => rfl
  | some op => rw [Option.bind_some, replyOf_cons_read, Option.map_some]

/-! ## The handlers -/

/-- What a request does to the entries is what its call does there. -/
def Follows (request : SMessage) (client : Int) (s : FileStorage) (tr : List (Event Mutex))
    (o : Out Int) (w' : World FileStorage Mutex) : Prop :=
  ∀ r, o = .ret r →
    match callOf request client tr with
    | none => w'.st.entries = s.entries
    | some x => Step [] s.entries x w'.st.entries

/-- The paths of a request: the one it was read with is a name, and a removal
finds it in the buffer that it has freed. -/
structure NamesKept (names : List UInt8 → Prop) (request : SMessage)
    (tr : List (Event Mutex)) : Prop where
  named : ∀ path, readPath tr = some path → names path
  intact : opOf request = sapiRemoveFile → ∀ path freed, readPath tr = some path →
    .unspec freed ∈ tr → cString freed = path

/-- What the rest of a handler does that has read `path`, and finds it there again. -/
def Serves (request : SMessage) (client : Int) (path : List UInt8) (s : FileStorage)
    (tr : List (Event Mutex)) (o : Out Int) (w' : World FileStorage Mutex) : Prop :=
  (opOf request = sapiRemoveFile → ∀ freed, .unspec freed ∈ tr → cString freed = path) →
  ∀ r, o = .ret r → ∃ op, askedFor request ((taken tr).getD []) = some op ∧
    Step [] s.entries ⟨client, path, op, replyOf op tr⟩ w'.st.entries

section Handlers

variable {names : List UInt8 → Prop} {request : SMessage} {client : Int} {path : List UInt8}
  {w : World FileStorage Mutex}

/-- A handler that reads a path first. Only names are read. -/
theorem Ensures.follows {p : ServerM Int} {k : List UInt8 → ServerM Int} {r : Int}
    (hp : p = if request = 0 ∨ client = 0 then .ret (-1) else do
      match ← serverGetPath request client with
      | none => sapiRespond sapiFailure client (.ret r)
      | some path => k path)
    (hk : client ≠ 0 → ∀ path, names path →
      (k path).Ensures w (Serves request client path w.st)) :
    p.Ensures w fun tr o w' => NamesKept names request tr →
      Follows request client w.st tr o w' := by
  refine Ensures.withPath hp (fun _ _ _ => rfl) (fun _ _ hr => by cases hr)
    (fun _ _ _ _ => rfl) fun hc buf => ?_
  by_cases hname : names (cString buf)
  · refine (hk hc _ hname).mono fun tr o w' h hkept r hr => ?_
    have hintact : opOf request = sapiRemoveFile → ∀ freed, .unspec freed ∈ tr →
        cString freed = cString buf := fun hop freed hmem =>
      hkept.intact hop _ freed rfl (List.mem_cons_of_mem _ hmem)
    obtain ⟨op, hop, hstep⟩ := h hintact r hr
    rw [callOf_cons_read, hop]
    exact hstep
  · exact fun tr o w' _ hkept => absurd (hkept.named _ rfl) hname

theorem Takes.serves {s s' : FileStorage} {op : Op (List UInt8)} {tr : List (Event Mutex)}
    {o : Out Int} {w' : World FileStorage Mutex} (hasks : ∀ data, askedFor request data = some op)
    (hs : s'.entries = s.entries) (h : Takes op client path s' tr o w') :
    Serves request client path s tr o w' := by
  intro _ r hr
  have hstep := h r hr
  rw [hs] at hstep
  exact ⟨op, hasks _, hstep⟩

theorem Ensures.serves {s s' : FileStorage} {op : Op (List UInt8)} {p : ServerM Int}
    (h : p.Ensures w (Takes op client path s')) (hasks : ∀ data, askedFor request data = some op)
    (hs : s'.entries = s.entries) : p.Ensures w (Serves request client path s) :=
  h.mono fun _ _ _ htakes => htakes.serves hasks hs

variable (hwf : w.st.WellFormed) (hnames : PrefixFree names) (hs : w.st.Named names)
  (hclient : client ≠ -1)

include hwf hnames hs hclient

theorem serverOpenFile_follows (hop : opOf request = sapiOpenFile) :
    (serverOpenFile request client).Ensures w fun tr o w' =>
      NamesKept names request tr → Follows request client w.st tr o w' := by
  have hasks : ∀ data, askedFor request data = some (.acquire (hasFlag request oCreate)) :=
    fun data => if_pos hop
  refine Ensures.follows rfl fun hc path hpath =>
    hwf.lookup hnames hs hpath (fun hget => ?_) fun a hwf' hpath' => ?_
  · dsimp only
    cases hflag : hasFlag request oCreate with
    | false =>
        rw [if_pos (by decide)]
        rw [hflag] at hasks
        exact Ensures.serves (Ensures.takes hc fun ok =>
          .missing (hwf.entries_missing hget) (by simp)) hasks rfl
    | true =>
        rw [if_neg (by decide)]
        rw [hflag] at hasks
        exact Ensures.serves (serverCreateFile_takes hwf hc hclient hget) hasks rfl
  · exact Ensures.serves (openFound_takes (w := ⟨_, w.held⟩) hwf' hc hclient hpath') hasks
      (w.st.entries_fuGetfile path)

theorem serverCloseFile_follows (hop : opOf request = sapiCloseFile) :
    (serverCloseFile request client).Ensures w fun tr o w' =>
      NamesKept names request tr → Follows request client w.st tr o w' := by
  have hasks : ∀ data, askedFor request data = some .release := fun data => by
    rw [askedFor, hop]
    rfl
  refine Ensures.follows rfl fun hc path hpath =>
    hwf.lookup hnames hs hpath (fun hget => ?_) fun a hwf' hpath' => ?_
  · exact Ensures.serves (Ensures.takes hc fun ok =>
      .missing (hwf.entries_missing hget) (by simp)) hasks rfl
  · exact Ensures.serves (closeFound_takes (w := ⟨_, w.held⟩) hwf' hc hclient hpath') hasks
      (w.st.entries_fuGetfile path)

theorem serverReadFile_follows (hop : opOf request = sapiReadFile)
    (hzero : ∀ a ∈ w.st.ptrs, (w.st.file a).client ≠ 0) :
    (serverReadFile request client).Ensures w fun tr o w' =>
      NamesKept names request tr → Follows request client w.st tr o w' := by
  have hasks : ∀ data, askedFor request data = some .read := fun data => by
    rw [askedFor, hop]
    rfl
  refine Ensures.follows rfl fun hc path hpath =>
    hwf.lookup hnames hs hpath (fun hget => ?_) fun a hwf' hpath' => ?_
  · exact Ensures.serves (Ensures.takes hc fun ok =>
      .missing (hwf.entries_missing hget) (by simp)) hasks rfl
  · refine Ensures.serves (readFound_takes (w := ⟨_, w.held⟩) hwf' hc hclient hpath' fun f hf => ?_)
      hasks (w.st.entries_fuGetfile path)
    have ha : a ∈ w.st.ptrs := by
      rw [← fuGetfile_ptrs w.st path]
      exact hwf'.stored a (by rw [hf]; exact Option.some_ne_none f)
    rw [← fuGetfile_client _ hf]
    exact hzero a ha

theorem serverRemoveFile_follows (hop : opOf request = sapiRemoveFile) :
    (serverRemoveFile request client).Ensures w fun tr o w' =>
      NamesKept names request tr → Follows request client w.st tr o w' := by
  have hasks : ∀ data, askedFor request data = some .remove := fun data => by
    rw [askedFor, hop]
    rfl
  refine Ensures.follows (k := removeSection client) rfl fun hc path hpath =>
    (removeSection_takes hnames hs hpath hwf hc hclient).mono fun _ _ _ h hintact => ?_
  exact (h (hintact hop)).serves hasks rfl hintact

/-- The two sections of a write, one after the other. -/
theorem write_serves {h : Handler} (cut : List UInt8 → Nat) (qsort : Qsort Nat)
    (hh : h.client = client) (hc : client ≠ 0) (hname : names h.path)
    (hfirst : h.first qsort = writeSection qsort h.client h.path)
    (hoff : ∀ f, h.offset f = cut f.data)
    (hasks : ∀ data, askedFor request data = some (.update fun old => old.take (cut old) ++ data)) :
    (h.whole qsort).Ensures w (Serves request client h.path w.st) := by
  subst hh
  rw [Handler.whole, hfirst]
  refine ensures_bind.mpr ((writeSection_begins qsort hwf hnames hs hname hc hclient).mono
    fun tr o w' hbegins => ?_)
  cases o with
  | ret t =>
      rw [After]
      rcases hbegins t rfl with
        ⟨r, rfl, -, htaken, hstep⟩ | ⟨a, n, v, rfl, ⟨front, rfl⟩, hentry, hholding⟩
      · rw [Handler.second, ensures_ret, List.append_nil]
        intro _ r _
        refine ⟨_, hasks _, ?_⟩
        rw [replyOf, htaken]
        exact hstep _
      · rw [Handler.second]
        refine (receiveData_updates hc hclient hoff n ⟨front, rfl⟩ hholding).mono
          fun tr o w' hupdates _ r hr => ⟨_, hasks _, ?_⟩
        rcases hupdates r hr with ⟨hnone, hrefusal, hdrops⟩ | ⟨d, s₁, hd, hdrops, hput⟩
        · rw [replyOf, hnone, hrefusal]
          exact .dropped hentry hdrops
        · rw [replyOf, hd, hput]
          exact .updated hentry hdrops
  | exit => exact fun _ r hr => by cases hr
  | fault => exact fun _ r hr => by cases hr
  | blocked => exact fun _ r hr => by cases hr

theorem serverWriteFile_follows (qsort : Qsort Nat) (hop : opOf request = sapiWriteFile) :
    (serverWriteFile qsort request client).Ensures w fun tr o w' =>
      NamesKept names request tr → Follows request client w.st tr o w' := by
  refine Ensures.follows (serverWriteFile_eq qsort request client) fun hc path hpath => ?_
  refine write_serves hwf hnames hs hclient (fun _ => 0) qsort rfl hc hpath rfl
    (fun _ => rfl) fun data => ?_
  rw [askedFor, hop]
  rfl

theorem serverAppendToFile_follows (qsort : Qsort Nat) (hop : opOf request = sapiAppendFile) :
    (serverAppendToFile qsort request client).Ensures w fun tr o w' =>
      NamesKept names request tr → Follows request client w.st tr o w' := by
  refine Ensures.follows (serverAppendToFile_eq qsort request client) fun hc path hpath => ?_
  refine write_serves hwf hnames hs hclient List.length qsort rfl hc hpath rfl
    (fun _ => rfl) fun data => ?_
  rw [askedFor, hop]
  simp only [List.take_length]
  rfl

omit hwf hnames hs hclient in
/-- A request that is no call changes no entry. -/
theorem serve_follows_other (qsort : Qsort Nat)
    (hasks : ∀ data, askedFor request data = none) :
    (serve qsort request client).Ensures w fun tr o w' => Follows request client w.st tr o w' := by
  have hne : opOf request ≠ sapiOpenFile ∧ opOf request ≠ sapiCloseFile ∧
      opOf request ≠ sapiRemoveFile ∧ ¬ Writes request := by
    have hask := hasks []
    rw [askedFor] at hask
    refine ⟨fun hop => ?_, fun hop => ?_, fun hop => ?_, fun hop => ?_⟩
    · rw [hop] at hask
      cases hask
    · rw [hop] at hask
      cases hask
    · rw [hop] at hask
      cases hask
    · rcases hop with hop | hop
      · rw [hop] at hask
        cases hask
      · rw [hop] at hask
        cases hask
  obtain ⟨hopen, hclose, hremove, hwrites⟩ := hne
  have hpreserved : PreservedBy request client
      (fun _ s => s.entries = w.st.entries) (fun _ => True) fun _ => True := {
    stops := fun _ => trivial
    stopsPlaced := fun _ _ => trivial
    count := fun a h => (entries_count _ a).trans h
    take := fun hop => absurd hop hopen
    create := fun hop => absurd hop hopen
    discard := fun hop => absurd hop hopen
    release := fun hop => absurd hop hclose
    remove := fun _ hop => absurd hop hremove
    giveUp := fun hop => absurd hop hwrites
    grant := fun hop => absurd hop hwrites
    write := fun hop => absurd hop hwrites }
  refine (serve_preserves qsort hpreserved fun _ => rfl).mono fun tr o w' h r hr => ?_
  subst hr
  have hcall : callOf request client tr = none := by
    rw [callOf, hasks]
    cases readPath tr with
    | none => rfl
    | some path => rfl
  rw [hcall]
  exact h

end Handlers

/-! ## Runs -/

theorem readPath_of_openedPath {request : SMessage} {tr : List (Event Mutex)} {path : List UInt8}
    (h : openedPath request tr = some path) : readPath tr = some path := by
  unfold openedPath at h
  split at h
  · split at h
    · exact h
    · cases h
  · cases h

section Run

variable {qsort : Qsort Nat} {maxFiles maxBytes : Nat} {names : List UInt8 → Prop}
  {past : List ServedRequest} {w w' : World FileStorage Mutex} {request : SMessage} {client : Int}

/-- One request, whatever its calls return. -/
theorem serve_follows (hw : Reachable qsort maxFiles maxBytes w) (hnames : PrefixFree names)
    (hs : w.st.Named names) (hclient : client ≠ -1) :
    (serve qsort request client).Ensures w fun tr o w' =>
      NamesKept names request tr → Follows request client w.st tr o w' := by
  have hwf := hw.wellFormed
  have hother : (∀ data, askedFor request data = none) → (serve qsort request client).Ensures w
      fun tr o w' => NamesKept names request tr → Follows request client w.st tr o w' :=
    fun hasks => (serve_follows_other qsort hasks).mono fun _ _ _ h _ => h
  by_cases hnone : ∀ data, askedFor request data = none
  · exact hother hnone
  · refine Ensures.serve_cases (serverOpenFile_follows hwf hnames hs hclient)
      (serverCloseFile_follows hwf hnames hs hclient)
      (fun hop => serverReadFile_follows hwf hnames hs hclient hop fun a ha => hw.owner_ne_zero ha)
      (fun hop => absurd (fun data => ?_) hnone)
      (serverWriteFile_follows hwf hnames hs hclient qsort)
      (serverAppendToFile_follows hwf hnames hs hclient qsort)
      (fun hop => absurd (fun data => ?_) hnone)
      (serverRemoveFile_follows hwf hnames hs hclient)
      (fun hop => absurd (fun data => ?_) hnone)
    · rw [askedFor, hop]
      rfl
    · rw [askedFor]
      rcases hop with hop | hop
      · rw [hop]
        rfl
      · rw [hop]
        rfl
    · simp only [knownOps, List.mem_cons, List.not_mem_nil, or_false, not_or] at hop
      simp [askedFor, hop]

/-- The calls of some requests, each with the entries it found. -/
def ServedRequest.calls (past : List ServedRequest) :
    List (Call (List UInt8) Int (List UInt8) ×
      OwnedStore.Store (List UInt8) Int (List UInt8)) :=
  past.filterMap fun e => e.call.map fun x => (x, e.before.st.entries)

/-- A run of the server goes on with the call that its last request is. -/
theorem ServerRun.follows_last
    {init : OwnedStore.Store (List UInt8) Int (List UInt8) → Prop} {served : List ServedRequest}
    {tr : List (Event Mutex)} {r : Int} (h : ServerRun qsort maxFiles maxBytes past w)
    (hr : (LsoStore.serve qsort request client).Runs w tr (.ret r) w') (hnames : PrefixFree names)
    (hkept : ∀ e ∈ past ++ [⟨request, client, tr, w, w'⟩], NamesKept names e.request e.trace)
    (hclient : client ≠ -1)
    (hrun : Run init (fun s x s' => Step [] s x s') (ServedRequest.calls served) w.st.entries) :
    Run init (fun s x s' => Step [] s x s')
      (ServedRequest.calls (served ++ [⟨request, client, tr, w, w'⟩])) w'.st.entries := by
  rw [List.forall_mem_append, List.forall_mem_singleton] at hkept
  have hnamed : w.st.Named names := by
    intro a ha
    obtain ⟨x, hx, hcreates⟩ := h.creation.1 a ha
    exact (hkept.1 x hx).named _ (readPath_of_openedPath hcreates.1)
  have hlast := serve_follows ⟨past, h⟩ hnames hnamed hclient tr _ w' hr hkept.2 r rfl
  have hcall : (⟨request, client, tr, w, w'⟩ : ServedRequest).call =
    callOf request client tr := rfl
  rw [ServedRequest.calls, List.filterMap_append, List.filterMap_cons, hcall]
  cases hx : callOf request client tr with
  | none =>
      rw [hx] at hlast
      rw [hlast]
      dsimp only [Option.map_none]
      rw [List.filterMap_nil, List.append_nil]
      exact hrun
  | some x =>
      rw [hx] at hlast
      exact hrun.step _ _ _ _ hlast

/-- The server is a store with owners, as far as the paths are names of which
none is the beginning of another. -/
theorem serves_owned_store (h : ServerRun qsort maxFiles maxBytes past w)
    (hnames : PrefixFree names) (hkept : ∀ e ∈ past, NamesKept names e.request e.trace)
    (hclients : ∀ e ∈ past, e.client ≠ -1) :
    Run (fun s => s = fun _ => none) (fun s x s' => Step [] s x s')
      (ServedRequest.calls past) w.st.entries := by
  induction h with
  | init s hf hb hs =>
      refine .init _ (funext fun path => entries_eq_none fun a ha => ?_)
      rw [ptrs, (WellFormed.fuInitFileStorage_empty hs).1] at ha
      cases ha
  | serve past w w' request client tr r hrun hr ih =>
      have hkept' := List.forall_mem_append.mp hkept
      rw [List.forall_mem_append, List.forall_mem_singleton] at hclients
      exact hrun.follows_last hr hnames hkept hclients.2 (ih hkept'.1 hclients.1)

/-- What was served before a request, and the request itself. -/
theorem ServerRun.split {front mid : List ServedRequest} {e : ServedRequest}
    (h : ServerRun qsort maxFiles maxBytes (front ++ e :: mid) w) :
    ServerRun qsort maxFiles maxBytes front e.before ∧
      ∃ r, (LsoStore.serve qsort e.request e.client).Runs e.before e.trace (.ret r) e.after := by
  generalize hpast : front ++ e :: mid = past at h
  induction h generalizing mid with
  | init s _ _ _ =>
      exact absurd hpast (List.append_ne_nil_of_right_ne_nil front (List.cons_ne_nil e mid))
  | serve past w w' request client tr r hrun hr ih =>
      rcases List.eq_nil_or_concat' mid with rfl | ⟨mid, z, rfl⟩
      · obtain ⟨rfl, hlast⟩ := List.append_inj' hpast rfl
        injection hlast with hlast
        subst hlast
        exact ⟨hrun, r, hr⟩
      · rw [← List.cons_append, ← List.append_assoc] at hpast
        exact ih (List.append_inj' hpast rfl).1

/-- The calls after a request, as a run of the store from there. -/
theorem ServerRun.follows_from {front mid : List ServedRequest} {e : ServedRequest}
    (h : ServerRun qsort maxFiles maxBytes (front ++ e :: mid) w) (hnames : PrefixFree names)
    (hkept : ∀ e' ∈ front ++ e :: mid, NamesKept names e'.request e'.trace)
    (hclients : ∀ e' ∈ front ++ e :: mid, e'.client ≠ -1) :
    Run (fun s => s = e.after.st.entries) (fun s x s' => Step [] s x s')
      (ServedRequest.calls mid) w.st.entries := by
  generalize hpast : front ++ e :: mid = past at h
  rw [hpast] at hkept hclients
  induction h generalizing mid with
  | init s _ _ _ =>
      exact absurd hpast (List.append_ne_nil_of_right_ne_nil front (List.cons_ne_nil e mid))
  | serve past w w' request client tr r hrun hr ih =>
      rcases List.eq_nil_or_concat' mid with rfl | ⟨mid, z, rfl⟩
      · obtain ⟨-, hlast⟩ := List.append_inj' hpast rfl
        injection hlast with hlast
        subst hlast
        exact .init _ rfl
      · rw [← List.cons_append, ← List.append_assoc] at hpast
        obtain ⟨hfront, hz⟩ := List.append_inj' hpast rfl
        injection hz with hz
        subst hz
        have hkept' := List.forall_mem_append.mp hkept
        rw [List.forall_mem_append, List.forall_mem_singleton] at hclients
        exact hrun.follows_last hr hnames hkept hclients.2 (ih hclients.1 hkept'.1 hfront)

/-- A client that has opened a file has it to itself until it closes or removes
it, or writes to another one: what a read finds is what the client's own writes
and appends have made of the contents, and nobody else gets at the file. -/
theorem open_file_session {front mid : List ServedRequest} {e : ServedRequest} {path : List UInt8}
    {create : Bool} (h : ServerRun qsort maxFiles maxBytes (front ++ e :: mid) w)
    (hnames : PrefixFree names)
    (hkept : ∀ e' ∈ front ++ e :: mid, NamesKept names e'.request e'.trace)
    (hclients : ∀ e' ∈ front ++ e :: mid, e'.client ≠ -1)
    (hopen : e.call = some ⟨client, path, .acquire create, .done⟩)
    (hkeeps : ∀ x ∈ ServedRequest.calls mid, ¬ x.1.MayEnd client path) :
    let old := ((e.before.st.entries path).map Entry.value).getD []
    w.st.entries path =
        some ⟨some client, valueAfter client path old ((ServedRequest.calls mid).map Prod.fst)⟩ ∧
      ∀ before x behind, ServedRequest.calls mid = before ++ x :: behind →
        x.1.Sees client path (valueAfter client path old (before.map Prod.fst)) := by
  obtain ⟨hbefore, r, hr⟩ := h.split
  have hrun := h.follows_from hnames hkept hclients
  have hkept' := List.forall_mem_append.mp hkept
  have hnamed : e.before.st.Named names := by
    intro a ha
    obtain ⟨x, hx, hcreates⟩ := hbefore.creation.1 a ha
    exact (hkept'.1 x hx).named _ (readPath_of_openedPath hcreates.1)
  have hmem : e ∈ front ++ e :: mid := List.mem_append_right _ (List.mem_cons_self ..)
  have hstep := serve_follows ⟨front, hbefore⟩ hnames hnamed (hclients e hmem) _ _ _ hr
    (hkept e hmem) r rfl
  rw [ServedRequest.call] at hopen
  rw [hopen] at hstep
  exact session hrun (fun s hs => hs ▸ hstep.of_acquire) hkeeps

end Run

/-- Client 5 creates "a" and writes two bytes to it, client 4 asks for it in
vain, and client 5 reads it back. -/
theorem owner_reads_back : ∃ mid e w, ServerRun Qsort.insertion 1 10 ([] ++ e :: mid) w ∧
    (∀ e' ∈ [] ++ e :: mid, NamesKept (· = [97]) e'.request e'.trace) ∧
    (∀ e' ∈ [] ++ e :: mid, e'.client ≠ -1) ∧
    e.call = some ⟨5, [97], .acquire true, .done⟩ ∧ e.before.st.entries [97] = none ∧
    (ServedRequest.calls mid).map Prod.fst =
      [⟨5, [97], .update fun _ => [7, 8], .done⟩, ⟨4, [97], .acquire false, .owned⟩,
        ⟨5, [97], .read, .value [7, 8]⟩] := by
  have h₀ : ServerRun Qsort.insertion 1 10 [] ⟨_, ∅⟩ := .init _ (by decide) (by decide) rfl
  have h₁ := h₀.serve _ _ _ (sapiMessageLen oCreate sapiOpenFile 1) 5
    [.read 1 (some [97]), .write (.word sapiSuccess) true] 0 rfl
  have h₂ := h₁.serve _ _ _ (sapiMessageLen 0 sapiWriteFile 1) 5
    [.read 1 (some [97]), .read 8 (some (LittleEndian.encode 8 2)),
      .write (.word sapiSuccess) true, .read 2 (some [7, 8]),
      .write (.word sapiSuccess) true] 0 rfl
  have h₃ := h₂.serve _ _ _ (sapiMessageLen 0 sapiOpenFile 1) 4
    [.read 1 (some [97]), .write (.word sapiAlready) true] (-1) rfl
  have h₄ := h₃.serve _ _ _ (sapiMessageLen 0 sapiReadFile 1) 5
    [.read 1 (some [97]), .write (.word sapiSuccess) true, .write (.size 2) true,
      .write (.block [7, 8]) true] 0 rfl
  have hkept : ∀ {request : SMessage} {tr : List (Event Mutex)},
      opOf request ≠ sapiRemoveFile → readPath tr = some [97] →
      NamesKept (· = [97]) request tr := fun hop hpath =>
    ⟨fun path hp => Option.some.inj (hp.symm.trans hpath), fun h => absurd h hop⟩
  refine ⟨[_, _, _], _, _, h₄, ?_, ?_, rfl, rfl, rfl⟩
  · exact List.forall_mem_cons.mpr ⟨hkept (by decide) rfl, List.forall_mem_cons.mpr
      ⟨hkept (by decide) rfl, List.forall_mem_cons.mpr ⟨hkept (by decide) rfl,
        List.forall_mem_singleton.mpr (hkept (by decide) rfl)⟩⟩⟩
  · exact List.forall_mem_cons.mpr ⟨by decide, List.forall_mem_cons.mpr
      ⟨by decide, List.forall_mem_cons.mpr ⟨by decide, List.forall_mem_singleton.mpr (by decide)⟩⟩⟩

theorem serves_owned_store_one : ∃ past w, ServerRun Qsort.insertion 1 10 past w ∧
    Run (fun s => s = fun _ => none) (fun s x s' => Step [] s x s')
      (ServedRequest.calls past) w.st.entries ∧ (ServedRequest.calls past).length = 4 := by
  obtain ⟨mid, e, w, h, hkept, hclients, he, -, hcalls⟩ := owner_reads_back
  refine ⟨_, w, h, serves_owned_store h (prefixFree_one [97]) hkept hclients, ?_⟩
  have hlen := congrArg List.length hcalls
  rw [List.length_map] at hlen
  rw [List.nil_append, ServedRequest.calls, List.filterMap_cons, he]
  exact congrArg Nat.succ hlen

theorem open_file_session_back : ∃ mid e w, ServerRun Qsort.insertion 1 10 ([] ++ e :: mid) w ∧
    w.st.entries [97] = some ⟨some 5, [7, 8]⟩ := by
  obtain ⟨mid, e, w, h, hkept, hclients, he, hnone, hcalls⟩ := owner_reads_back
  have hkeeps : ∀ y ∈ (ServedRequest.calls mid).map Prod.fst, ¬ y.MayEnd 5 [97] := by
    rw [hcalls]
    simp [Call.MayEnd]
  have hsession := open_file_session h (prefixFree_one [97]) hkept hclients he
    fun x hx => hkeeps x.1 (List.mem_map_of_mem hx)
  refine ⟨mid, e, w, h, ?_⟩
  rw [hsession.1, hcalls, hnone]
  rfl

end LsoStore
