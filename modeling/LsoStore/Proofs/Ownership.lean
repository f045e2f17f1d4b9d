import Mathlib.Order.Bounds.Basic
import LsoStore.Lib.Runs
import LsoStore.Proofs.Eviction

/-!
# Owners and connections

A file's owner is a bare descriptor number. Connections come and go in
`server_dispatcher`: a new one gets the lowest descriptor that is free, and the
descriptor is closed on POLLHUP. Nothing looks at the files then, so a file
that was open stays with the number, and the next connection that gets it has
the file open without having opened it.

The runs here take accepts, requests and hangups one at a time. With every
connection goes what it has asked for since it was accepted, so that "opened by
this connection" is about the connection and not about its number.
-/

namespace LsoStore

open Proc FileStorage

/-- The server's world, and for each descriptor a client is connected on the
requests that this connection has been served. -/
structure Connections where
  world : World FileStorage Mutex
  conns : Nat → Option (List ServedRequest)

namespace Connections

variable (c : Connections) (fd : Nat)

/-- `accept` in `server_dispatcher`. -/
def accepted : Connections := { c with conns := Function.update c.conns fd (some []) }

/-- `close` in `server_dispatcher`. -/
def closed : Connections := { c with conns := Function.update c.conns fd none }

/-- The connection has been served one more request. -/
def served (past : List ServedRequest) (r : ServedRequest) : Connections :=
  ⟨r.after, Function.update c.conns fd (some (past ++ [r]))⟩

variable (past : List ServedRequest) (r : ServedRequest)

@[simp] theorem accepted_conns_self : (c.accepted fd).conns fd = some [] :=
  Function.update_self ..

@[simp] theorem closed_conns_self : (c.closed fd).conns fd = none := Function.update_self ..

@[simp] theorem served_conns_self : (c.served fd past r).conns fd = some (past ++ [r]) :=
  Function.update_self ..

variable {fd} {n : Nat}

theorem accepted_conns_of_ne (h : n ≠ fd) : (c.accepted fd).conns n = c.conns n :=
  Function.update_of_ne h ..

theorem closed_conns_of_ne (h : n ≠ fd) : (c.closed fd).conns n = c.conns n :=
  Function.update_of_ne h ..

theorem served_conns_of_ne (h : n ≠ fd) : (c.served fd past r).conns n = c.conns n :=
  Function.update_of_ne h ..

end Connections

inductive ConnStep where
  | accept (fd : Nat)
  | serve (fd : Nat) (request : SMessage)
  | hangup (fd : Nat)

/-- A server that has just started, with no client connected. -/
def Connections.Started (maxFiles maxBytes : Nat) (c : Connections) : Prop :=
  ∃ s, maxFiles < 2 ^ 32 ∧ maxBytes < 2 ^ 32 ∧ fuInitFileStorage maxFiles maxBytes = some s ∧
    c = ⟨⟨s, ∅⟩, fun _ => none⟩

/-- What can happen next. The server's own descriptors are `reserved`. -/
inductive Connections.Takes (qsort : Qsort Nat) (reserved : Finset Nat) (c : Connections) :
    ConnStep → Connections → Prop where
  | accept (fd : Nat) : IsLeast {n | n ∉ reserved ∧ c.conns n = none} fd →
      c.Takes qsort reserved (.accept fd) (c.accepted fd)
  | serve (fd : Nat) (requests : List ServedRequest) (r : ServedRequest) (ret : Int) :
      c.conns fd = some requests → r.client = fd → r.before = c.world →
      (LsoStore.serve qsort r.request r.client).Runs r.before r.trace (.ret ret) r.after →
      c.Takes qsort reserved (.serve fd r.request) (c.served fd requests r)
  | hangup (fd : Nat) : c.conns fd ≠ none → c.Takes qsort reserved (.hangup fd) (c.closed fd)

/-- The runs of the server with its clients. -/
abbrev ConnRun (qsort : Qsort Nat) (maxFiles maxBytes : Nat) (reserved : Finset Nat) :
    List (ConnStep × Connections) → Connections → Prop :=
  Run (Connections.Started maxFiles maxBytes) (Connections.Takes qsort reserved)

/-- The request opened the file at `a`: it is an open request for a path that
leads there, nobody had the file open before, and its client has it now. -/
structure ServedRequest.Opened (r : ServedRequest) (a : Nat) : Prop where
  op : opOf r.request = sapiOpenFile
  path : ∃ path, openedPath r.request r.trace = some path ∧
    r.after.st.table.huGet path = some a
  before : ∀ f, r.before.st.heap a = some f → f.client = -1
  after : (r.after.st.file a).client = r.client

/-- A stored file is open nowhere, or on a connection that opened it. -/
def Connections.OwnersLive (c : Connections) : Prop :=
  ∀ a ∈ c.world.st.ptrs, (c.world.st.file a).client = -1 ∨
    ∃ fd requests, c.conns fd = some requests ∧ (c.world.st.file a).client = (fd : Int) ∧
      ∃ r ∈ requests, r.Opened a

/-- The step closes no descriptor that owns a file. -/
def Connections.LeavesNothing (c : Connections) (step : ConnStep) : Prop :=
  ∀ fd, step = .hangup fd → ∀ a ∈ c.world.st.ptrs, (c.world.st.file a).client ≠ (fd : Int)

/-! ## One request -/

section Request

variable {request : SMessage} {client : Int} {s₀ s s' : FileStorage}
  {o : Option (List UInt8)} {a : Nat}

/-- Where the owner of the file at `a` comes from: nobody has it open, and an
open request is not what closed it; or the request did not change it; or the
request is the one that opened it. -/
def OwnerFrom (s₀ : FileStorage) (request : SMessage) (client : Int)
    (o : Option (List UInt8)) (s : FileStorage) (a : Nat) (owner : Int) : Prop :=
  (owner = -1 ∧ (opOf request = sapiOpenFile → ∀ f₀, s₀.heap a = some f₀ → f₀.client = -1)) ∨
  (∃ f₀, s₀.heap a = some f₀ ∧ f₀.client = owner) ∨
  (opOf request = sapiOpenFile ∧ owner = client ∧
    (∀ f₀, s₀.heap a = some f₀ → f₀.client = -1) ∧
    ∃ path, o = some path ∧ s.table.huGet path = some a)

/-- The owners in `s`, some way into a request that started in `s₀`. -/
structure OwnersFrom (s₀ : FileStorage) (request : SMessage) (client : Int)
    (o : Option (List UInt8)) (s : FileStorage) : Prop where
  wellFormed : s.WellFormed
  next : s₀.next ≤ s.next
  owners : ∀ a f, s.heap a = some f → OwnerFrom s₀ request client o s a f.client

/-- Leaving records out and writing to the others moves no owner. -/
theorem OwnersFrom.keep (h : OwnersFrom s₀ request client o s) (hwf : s'.WellFormed)
    (hnext : s.next ≤ s'.next) (htable : opOf request = sapiOpenFile → s'.table = s.table)
    (hheap : ∀ a f', s'.heap a = some f' → ∃ f, s.heap a = some f ∧ f.client = f'.client) :
    OwnersFrom s₀ request client o s' where
  wellFormed := hwf
  next := h.next.trans hnext
  owners a f' hf' := by
    obtain ⟨f, hf, hclient⟩ := hheap a f' hf'
    rw [← hclient]
    rcases h.owners a f hf with hfree | hsame | ⟨hop, hmine, hfree, path, hpath, hget⟩
    · exact .inl hfree
    · exact .inr (.inl hsame)
    · exact .inr (.inr ⟨hop, hmine, hfree, path, hpath, by rwa [htable hop]⟩)

theorem OwnersFrom.modify (h : OwnersFrom s₀ request client o s) (a : Nat)
    {g : FileData → FileData}
    (hg : ∀ f, (g f).data = f.data ∧ (g f).path = f.path) (hclient : ∀ f, (g f).client = f.client) :
    OwnersFrom s₀ request client o (s.modifyFile a g) := by
  refine h.keep (h.wellFormed.modifyFile a hg) (Nat.le_refl _) (fun _ => rfl) fun b f' hf' => ?_
  rw [modifyFile_heap] at hf'
  split at hf'
  · obtain ⟨f, hf, rfl⟩ := Option.map_eq_some_iff.mp hf'
    exact ⟨f, hf, (hclient f).symm⟩
  · exact ⟨f', hf', rfl⟩

/-- What is free in an open request was free before it. -/
theorem OwnerFrom.free {owner : Int} (h : OwnerFrom s₀ request client o s a owner)
    (hop : opOf request = sapiOpenFile) (howner : owner = -1) :
    ∀ f₀, s₀.heap a = some f₀ → f₀.client = -1 := by
  rcases h with ⟨-, hfree⟩ | ⟨f₀, hf₀, hsame⟩ | ⟨-, -, hfree, -⟩
  · exact hfree hop
  · intro f₁ hf₁
    rw [hf₀] at hf₁
    injection hf₁ with hf₁
    rw [← hf₁, hsame, howner]
  · exact hfree

theorem fuRemoveFile_next (s : FileStorage) (path : List UInt8) :
    (s.fuRemoveFile path).2.next = s.next := by
  have hget : (s.fuGetfile path).2.next = s.next := by
    rw [fuGetfile_snd]
    split
    · rfl
    · rfl
  rw [fuRemoveFile]
  split
  · rfl
  · dsimp only
    split
    · exact hget
    · exact hget

/-- A record that is there after a removal was there before. -/
theorem FileStorage.WellFormed.heap_of_fuRemoveFile (h : s.WellFormed) {path : List UInt8}
    {f : FileData} (hf : (s.fuRemoveFile path).2.heap a = some f) : s.heap a = some f := by
  cases hget : s.table.huGet path with
  | none => simpa only [FileStorage.fuRemoveFile, hget] using hf
  | some b =>
      obtain ⟨k, t, -, -, heq⟩ := h.accounted.fuRemoveFile_of_huGet hget
      rw [heq] at hf
      simp only [fuFreeFileData] at hf
      split at hf
      · cases hf
      · next hne => rwa [modifyFile_heap_of_ne _ _ _ hne] at hf

theorem OwnersFrom.take {path : List UInt8} {f : FileData}
    (h : OwnersFrom s₀ request client (some path) s) (hop : opOf request = sapiOpenFile)
    (hget : s.table.huGet path = some a) (hf : s.heap a = some f) (hfree : f.client = -1) :
    OwnersFrom s₀ request client (some path) (s.modifyFile a (·.openedBy request client)) where
  wellFormed := h.wellFormed.modifyFile a fun _ => ⟨rfl, rfl⟩
  next := h.next
  owners b f' hf' := by
    rw [modifyFile_heap] at hf'
    split at hf'
    · next hb =>
        subst hb
        obtain ⟨g, -, rfl⟩ := Option.map_eq_some_iff.mp hf'
        exact .inr (.inr ⟨hop, rfl, (h.owners _ _ hf).free hop hfree, path, rfl, hget⟩)
    · exact h.owners b f' hf'

theorem OwnersFrom.discard (h : OwnersFrom s₀ request client o s) (f : FileData) :
    OwnersFrom s₀ request client o ((s.place f).2.fuFreeFileData s.next) := by
  refine h.keep (h.wellFormed.discard f) (Nat.le_succ _) (fun _ => rfl) fun b f' hf' => ?_
  rw [h.wellFormed.place_fuFreeFileData] at hf'
  exact ⟨f', hf', rfl⟩

/-- Nothing had the new record's address, and the path leads there now. -/
theorem OwnersFrom.create {path : List UInt8} (h₀ : s₀.WellFormed)
    (h : OwnersFrom s₀ request client (some path) s) (hop : opOf request = sapiOpenFile)
    (hn : s.table.huGet path = none) :
    OwnersFrom s₀ request client (some path)
      ((s.place (.openedBy ⟨[], -1, 0, []⟩ request client)).2.fuAddFile s.next path).2 := by
  set f := FileData.openedBy ⟨[], -1, 0, []⟩ request client
  have hd : f.data = [] := rfl
  by_cases hfull : s.fuStorageFilesAvailable = 0
  · have havail : (s.place f).2.fuStorageFilesAvailable = 0 := hfull
    rw [fuAddFile, if_pos havail]
    exact h.discard f
  · set s' := ((s.place f).2.fuAddFile s.next path).2 with hs'
    have hwf : s'.WellFormed := h.wellFormed.create hd hn
    have hmem : s.next ∈ s'.ptrs := h.wellFormed.mem_ptrs_create hd hfull
    have heq := hs'.trans (WellFormed.fuAddFile_place_eq hd hfull)
    have hget := hwf.huGet_path hmem
    have hnew : (s'.file s.next).path = path := by
      rw [heq]
      simp [place, file]
    rw [hnew] at hget
    refine ⟨hwf, ?_, fun b f' hf' => ?_⟩
    · rw [heq]
      exact h.next.trans (Nat.le_succ _)
    · rw [heq] at hf'
      by_cases hb : b = s.next
      · subst hb
        simp only [place, if_true] at hf'
        injection hf' with hf'
        have hmine : f'.client = client := by
          rw [← hf']
          rfl
        refine .inr (.inr ⟨hop, hmine, fun f₀ hf₀ => ?_, path, rfl, hget⟩)
        rw [h₀.accounted.fresh _ h.next] at hf₀
        cases hf₀
      · simp only [place, hb, if_false] at hf'
        rcases h.owners b f' hf' with hfree | hsame | ⟨-, -, -, path', hpath, hget'⟩
        · exact .inl hfree
        · exact .inr (.inl hsame)
        · injection hpath with hpath
          rw [← hpath, hn] at hget'
          cases hget'

theorem OwnersFrom.release (h : OwnersFrom s₀ request client o s)
    (hop : opOf request = sapiCloseFile) :
    OwnersFrom s₀ request client o (s.modifyFile a fun f => { f with client := -1 }) where
  wellFormed := h.wellFormed.modifyFile a fun _ => ⟨rfl, rfl⟩
  next := h.next
  owners b f' hf' := by
    rw [modifyFile_heap] at hf'
    split at hf'
    · obtain ⟨g, -, rfl⟩ := Option.map_eq_some_iff.mp hf'
      exact .inl ⟨rfl, fun hopen => absurd (hop.symm.trans hopen) (by decide)⟩
    · exact h.owners b f' hf'

theorem Writes.ne_openFile (h : Writes request) : opOf request ≠ sapiOpenFile :=
  h.ne (by decide)

theorem ownersFrom_preservedBy (h₀ : s₀.WellFormed) :
    PreservedBy request client (OwnersFrom s₀ request client) (fun _ => True) fun _ => True where
  stops _ := trivial
  stopsPlaced _ _ := trivial
  count a h := h.modify a (fun _ => ⟨rfl, rfl⟩) fun _ => rfl
  take hop h hget hf hfree := h.take hop hget hf hfree
  create hop h hn := h.create h₀ hop hn
  discard _ h := h.discard _
  release hop h _ _ := h.release hop
  remove path hop h := by
    refine h.keep (h.wellFormed.fuRemoveFile path) (fuRemoveFile_next _ path).ge
      (fun hopen => absurd (hop.symm.trans hopen) (by decide)) fun b f' hf' => ?_
    exact ⟨f', h.wellFormed.heap_of_fuRemoveFile hf', rfl⟩
  giveUp {o s a f} hop h hf _ := by
    have hpath : f = s.file a := (file_eq s hf).symm
    have hwithout := h.wellFormed.without_giveUp (h.wellFormed.stored a (by simp [hf]))
    have hnext := fuRemoveFile_next (s.modifyFile a fun f => { f with client := -2 })
      (s.file a).path
    rw [hpath]
    refine h.keep (h.wellFormed.giveUp a) hnext.ge
      (fun hopen => absurd hopen hop.ne_openFile) fun b f' hf' => ?_
    rw [hwithout.heap b] at hf'
    split at hf'
    · cases hf'
    · exact ⟨f', hf', rfl⟩
  grant _ _ _ _ := trivial
  write {o s s' a i data r} hop _ h ha hlen hw := by
    have hcases := h.wellFormed.accounted.fuWritefile_cases (h.wellFormed.stored a ha) hlen hw
    rcases hcases with ⟨rfl, -⟩ | ⟨rfl, -⟩ | ⟨-, d, -, -, -, -, heq⟩
    · exact h
    · exact h.modify a (fun _ => ⟨rfl, rfl⟩) fun _ => rfl
    · have hwf := h.wellFormed.fuWritefile ha hlen hw
      subst heq
      refine h.keep hwf (Nat.le_refl _) (fun _ => rfl) fun b f' hf' => ?_
      rw [modifyFile_heap] at hf'
      split at hf'
      · obtain ⟨f, hf, rfl⟩ := Option.map_eq_some_iff.mp hf'
        exact ⟨f, hf, rfl⟩
      · exact ⟨f', hf', rfl⟩

/-- What one request does to the owners. -/
theorem serve_owners {qsort : Qsort Nat} {r : ServedRequest} {ret : Int}
    (hwf : r.before.st.WellFormed)
    (hr : (serve qsort r.request r.client).Runs r.before r.trace (.ret ret) r.after)
    (ha : a ∈ r.after.st.ptrs) :
    (r.after.st.file a).client = -1 ∨
    (a ∈ r.before.st.ptrs ∧ (r.before.st.file a).client = (r.after.st.file a).client) ∨
    r.Opened a := by
  have hown : OwnersFrom r.before.st r.request r.client (openedPath r.request r.trace)
      r.after.st :=
    serve_preserves qsort (ownersFrom_preservedBy hwf)
      (fun _ => ⟨hwf, Nat.le_refl _, fun a f hf => .inr (.inl ⟨f, hf, rfl⟩)⟩) _ _ _ hr
  obtain ⟨f, hf⟩ := Option.ne_none_iff_exists'.mp ((hown.wellFormed.mem_ptrs_iff).mp ha)
  rw [file_eq _ hf]
  rcases hown.owners a f hf with ⟨hfree, -⟩ | ⟨f₀, hf₀, hsame⟩ | ⟨hop, hmine, hfree, hpath⟩
  · exact .inl hfree
  · refine .inr (.inl ⟨hwf.stored a (by simp [hf₀]), ?_⟩)
    rw [file_eq _ hf₀, hsame]
  · exact .inr (.inr ⟨hop, hpath, hfree, by rw [file_eq _ hf, hmine]⟩)

end Request

/-! ## Runs -/

section Runs

variable {qsort : Qsort Nat} {maxFiles maxBytes : Nat} {reserved : Finset Nat}
  {past : List (ConnStep × Connections)} {c : Connections}

/-- The server does not care which connection a request came from. -/
theorem Connections.Takes.reachable {step : ConnStep} {c' : Connections}
    (h : c.Takes qsort reserved step c') (hc : Reachable qsort maxFiles maxBytes c.world) :
    Reachable qsort maxFiles maxBytes c'.world := by
  cases h with
  | accept fd _ => exact hc
  | serve fd requests r ret _ _ hbefore hr =>
      exact (hbefore ▸ hc).serve r.request r.client r.trace hr
  | hangup fd _ => exact hc

theorem Connections.OwnersLive.accepted {fd : Nat} (h : c.OwnersLive)
    (hfree : c.conns fd = none) : (c.accepted fd).OwnersLive := by
  intro a ha
  rcases h a ha with hnobody | ⟨fd', requests, hconn, howner, hopened⟩
  · exact .inl hnobody
  · refine .inr ⟨fd', requests, ?_, howner, hopened⟩
    have hne : fd' ≠ fd := by
      intro heq
      subst heq
      rw [hfree] at hconn
      cases hconn
    rw [c.accepted_conns_of_ne hne, hconn]

/-- Serving a connection keeps the files of all connections theirs. -/
theorem Connections.OwnersLive.served {fd : Nat} {requests : List ServedRequest}
    {r : ServedRequest} {ret : Int} (h : c.OwnersLive) (hwf : c.world.st.WellFormed)
    (hconn : c.conns fd = some requests) (hclient : r.client = fd) (hbefore : r.before = c.world)
    (hr : (serve qsort r.request r.client).Runs r.before r.trace (.ret ret) r.after) :
    (c.served fd requests r).OwnersLive := by
  have hmore : ∀ fd' requests', c.conns fd' = some requests' →
      ∃ requests'', (c.served fd requests r).conns fd' = some requests'' ∧
        ∀ x ∈ requests', x ∈ requests'' := by
    intro fd' requests' hconn'
    by_cases hfd : fd' = fd
    · subst hfd
      rw [hconn] at hconn'
      injection hconn' with hconn'
      refine ⟨requests ++ [r], c.served_conns_self fd' requests r, fun x hx => ?_⟩
      exact List.mem_append_left _ (hconn' ▸ hx)
    · refine ⟨requests', ?_, fun x hx => hx⟩
      rw [c.served_conns_of_ne requests r hfd, hconn']
  intro a ha
  rcases serve_owners (hbefore ▸ hwf) hr ha with hnobody | ⟨hmem, hsame⟩ | hopened
  · exact .inl hnobody
  · rw [hbefore] at hmem hsame
    rcases h a hmem with hnobody | ⟨fd', requests', hconn', howner, x, hx, hopened⟩
    · exact .inl (hsame.symm.trans hnobody)
    · obtain ⟨requests'', hconn'', hsub⟩ := hmore fd' requests' hconn'
      exact .inr ⟨fd', requests'', hconn'', hsame.symm.trans howner, x, hsub x hx, hopened⟩
  · refine .inr ⟨fd, requests ++ [r], c.served_conns_self fd requests r, ?_, r, ?_, hopened⟩
    · exact hopened.after.trans hclient
    · exact List.mem_append_right _ (List.mem_cons_self ..)

/-- Closing a descriptor that owns nothing is harmless. -/
theorem Connections.OwnersLive.closed {fd : Nat} (h : c.OwnersLive)
    (hnone : ∀ a ∈ c.world.st.ptrs, (c.world.st.file a).client ≠ (fd : Int)) :
    (c.closed fd).OwnersLive := by
  intro a ha
  rcases h a ha with hnobody | ⟨fd', requests, hconn, howner, hopened⟩
  · exact .inl hnobody
  · refine .inr ⟨fd', requests, ?_, howner, hopened⟩
    have hne : fd' ≠ fd := by
      intro heq
      subst heq
      exact hnone a ha howner
    rw [c.closed_conns_of_ne hne, hconn]

/-- Closing a descriptor that owns a file leaves the file with nobody's number. -/
theorem Connections.OwnersLive.of_closed {fd : Nat} (h : (c.closed fd).OwnersLive) {a : Nat}
    (ha : a ∈ c.world.st.ptrs) : (c.world.st.file a).client ≠ (fd : Int) := by
  intro howner
  rcases h a ha with hnobody | ⟨fd', requests, hconn, howner', -⟩
  · have : (fd : Int) = -1 := howner.symm.trans hnobody
    omega
  · have hfd : (fd' : Int) = fd := howner'.symm.trans howner
    have hfd : fd' = fd := by omega
    rw [hfd, Connections.closed_conns_self] at hconn
    cases hconn

/-- In all states of a run every owner is a connection that opened the file,
if and only if no connection is closed while it owns a file. -/
theorem owners_live_iff (h : ConnRun qsort maxFiles maxBytes reserved past c) :
    (∀ x ∈ visited past c, x.OwnersLive) ↔ ∀ e ∈ past, e.2.LeavesNothing e.1 := by
  set J : Connections → Prop := fun c => Reachable qsort maxFiles maxBytes c.world
  refine Run.always_iff (J := J) (C := fun step c => c.LeavesNothing step) h ?_
    fun c step c' hI hJ hstep => ⟨?_, fun _ =>
    hstep.reachable hJ⟩
  · intro c h
    obtain ⟨s, hf, hb, hs, rfl⟩ := h
    refine ⟨fun a ha => ?_, .init hf hb hs⟩
    simp [ptrs, (WellFormed.fuInitFileStorage_empty hs).1] at ha
  · cases hstep with
    | accept fd hleast =>
        exact iff_of_true (hI.accepted hleast.1.2) fun _ hfd => by cases hfd
    | serve fd requests r ret hconn hclient hbefore hr =>
        exact iff_of_true (hI.served hJ.wellFormed hconn hclient hbefore hr)
          fun _ hfd => by cases hfd
    | hangup fd _ =>
        constructor
        · intro hlive fd' hfd
          cases hfd
          exact fun a ha => hlive.of_closed ha
        · exact fun hnone => hI.closed (hnone fd rfl)

/-- Descriptor 4 is the first that is not the server's own. -/
theorem isLeast_four {conns : Nat → Option (List ServedRequest)} (h : conns 4 = none) :
    IsLeast {n | n ∉ ({0, 1, 2, 3} : Finset Nat) ∧ conns n = none} 4 := by
  refine ⟨⟨by decide, h⟩, fun n hn => ?_⟩
  have hn := hn.1
  simp only [Finset.mem_insert, Finset.mem_singleton, not_or] at hn
  omega

/-- A request with the record of it spelled out. -/
theorem ConnRun.request {requests : List ServedRequest} {w' : World FileStorage Mutex} {r : Int}
    (h : ConnRun qsort maxFiles maxBytes reserved past c) (fd : Nat) (request : SMessage)
    (tr : List (Event Mutex)) (hconn : c.conns fd = some requests)
    (hr : (LsoStore.serve qsort request fd).Runs c.world tr (.ret r) w') :
    ConnRun qsort maxFiles maxBytes reserved (past ++ [(.serve fd request, c)])
      (c.served fd requests ⟨request, fd, tr, c.world, w'⟩) :=
  h.step _ _ _ _ (.serve fd requests ⟨request, fd, tr, c.world, w'⟩ r hconn rfl rfl hr)

/-- The first client connects and stores "a", and could close it again. -/
theorem connect_and_open : ∃ past c requests w,
    ConnRun Qsort.insertion 2 8 {0, 1, 2, 3} past c ∧
      (∀ e ∈ past, ∀ fd, e.1 ≠ .hangup fd) ∧ c.conns 4 = some requests ∧
      c.world.st.ptrs = [0] ∧ (c.world.st.file 0).client = 4 ∧
      (serve Qsort.insertion (sapiMessageLen 0 sapiCloseFile 1) 4).Runs c.world
        [.read 1 (some [97]), .write (.word sapiSuccess) true] (.ret 0) w ∧
      w.st.ptrs = [0] ∧ (w.st.file 0).client = -1 := by
  have h₀ : ConnRun Qsort.insertion 2 8 {0, 1, 2, 3} [] ⟨⟨_, ∅⟩, fun _ => none⟩ :=
    .init _ ⟨_, by decide, by decide, rfl, rfl⟩
  have h₁ := h₀.step _ _ _ _ (.accept 4 (isLeast_four rfl))
  have h₂ := ConnRun.request h₁ 4 (sapiMessageLen oCreate sapiOpenFile 1)
    [.read 1 (some [97]), .write (.word sapiSuccess) true] (r := 0)
    (Connections.accepted_conns_self ..) rfl
  exact ⟨_, _, _, _, h₂, fun e he fd => by aesop, Connections.served_conns_self .., rfl, rfl,
    rfl, rfl, rfl⟩

/-- It leaves without closing "a", and the next client gets its descriptor. -/
theorem owner_after_reuse : ∃ past c, ConnRun Qsort.insertion 2 8 {0, 1, 2, 3} past c ∧
    ¬ c.OwnersLive := by
  obtain ⟨past, c, requests, w, h, -, hconn, hptrs, howner, -⟩ := connect_and_open
  have h₁ := h.step _ _ _ _ (.hangup 4 (by simp [hconn]))
  have h₂ := h₁.step _ _ _ _ (.accept 4 (isLeast_four (c.closed_conns_self 4)))
  refine ⟨_, _, h₂, fun hlive => ?_⟩
  have hfile : (((c.closed 4).accepted 4).world.st.file 0).client = 4 := howner
  rcases hlive 0 (by simp [Connections.accepted, Connections.closed, hptrs]) with
    hnobody | ⟨fd, requests', hconn', howner', r, hr, -⟩
  · rw [hfile] at hnobody
    omega
  · rw [hfile] at howner'
    have hfd : fd = 4 := by omega
    rw [hfd, Connections.accepted_conns_self] at hconn'
    injection hconn' with hconn'
    rw [← hconn'] at hr
    cases hr

/-- It closes "a" and then leaves. -/
theorem owners_live_close_first : ∃ past c fd x,
    ConnRun Qsort.insertion 2 8 {0, 1, 2, 3} past c ∧ (.hangup fd, x) ∈ past ∧
      x.world.st.ptrs = [0] ∧ ∀ x ∈ visited past c, x.OwnersLive := by
  obtain ⟨past, c, requests, w, h, hstay, hconn, -, -, hr, hptrs, howner⟩ := connect_and_open
  have h₁ := h.request 4 _ _ hconn hr
  have h₂ := h₁.step _ _ _ _ (.hangup 4 (by simp))
  refine ⟨_, _, 4, _, h₂, List.mem_append_right _ (List.mem_singleton_self _), hptrs,
    (owners_live_iff h₂).mpr fun e he fd hfd a ha => ?_⟩
  have hx : e.2.world = w := by
    simp only [List.append_assoc, List.mem_append, List.mem_singleton] at he
    rcases he with he | rfl | rfl
    · exact absurd hfd (hstay e he fd)
    · cases hfd
    · rfl
  rw [hx, hptrs, List.mem_singleton] at ha
  rw [hx, ha, howner]
  omega

end Runs

end LsoStore
