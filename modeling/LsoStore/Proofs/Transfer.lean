import Mathlib.Data.BitVec
import LsoStore.Proofs.Calls
import LsoStore.Proofs.Ownership

/-!
# Lists of files

`write_files_list` and `read_files_list` against the server, from any state of
it with no mutex held. A list of new files that fit is stored whole. A list of
paths is fetched as far as other clients let it be, and a failure is never lost.
Together: what one client has uploaded another one can save, byte by byte.
-/

namespace LsoStore

open Proc Talk FileStorage

/-! ## Descriptor 0 -/

/-- The handlers refuse descriptor 0 before anything else. -/
theorem serve_zero (qsort : Qsort Nat) (request : SMessage) :
    ∃ r, serve qsort request 0 = .ret r := by
  simp only [serve, serverOpenFile, serverCloseFile, serverReadFile, serverReadNFiles,
    serverWriteFile, serverAppendToFile, serverWriteAt, serverLockFile, serverUnlockFile,
    serverRemoveFile, serverRespond, or_true, if_true, ret_bind]
  repeat' split
  all_goals exact ⟨_, rfl⟩

section Reachable

variable {qsort : Qsort Nat} {maxFiles maxBytes : Nat} {w : World FileStorage Mutex}

/-- So no file belongs to it. -/
theorem Reachable.owner_ne_zero (h : Reachable qsort maxFiles maxBytes w) {a : Nat}
    (ha : a ∈ w.st.ptrs) : (w.st.file a).client ≠ 0 := by
  obtain ⟨past, hrun⟩ := h
  induction hrun with
  | init s _ _ hs =>
      rw [FileStorage.ptrs, (WellFormed.fuInitFileStorage_empty hs).1] at ha
      cases ha
  | serve past w w' request client tr r hrun hr ih =>
      by_cases hzero : client = 0
      · subst hzero
        obtain ⟨r', hret⟩ := serve_zero qsort request
        rw [hret, runs_ret] at hr
        obtain ⟨-, -, rfl⟩ := hr
        exact ih ha
      rcases serve_owners (r := ⟨request, client, tr, w, w'⟩) hrun.wellFormed hr ha with
        hfree | ⟨hbefore, hsame⟩ | ⟨_, _, _, hmine⟩
      · rw [hfree]
        decide
      · exact hsame ▸ ih hbefore
      · rw [hmine]
        exact hzero

end Reachable

/-! ## Fetching -/

/-- What a client gets of a file that it opens, reads and closes: nothing of one
that another client has open. -/
def FileStorage.contentsFor (s : FileStorage) (client : Int) (path : List UInt8) :
    Option (List UInt8) :=
  (s.table.huGet path).bind fun a =>
    if (s.file a).client = -1 ∨ (s.file a).client = client then some (s.file a).data else none

/-- The file is there and nobody has it open. -/
def FileStorage.Free (s : FileStorage) (path : List UInt8) : Prop :=
  ∃ a, s.table.huGet path = some a ∧ (s.file a).client = -1

/-- Where `read_files_list` stores a file. -/
def savedPath (destdir : Option (List UInt8)) (path : List UInt8) : List UInt8 :=
  destdir.getD [] ++ path

/-- What `read_files_list` saves of one file. -/
def savedFor (disk : Disk) (destdir : Option (List UInt8)) (client : Int) (s : FileStorage)
    (path : List UInt8) : Saved :=
  match s.contentsFor client path with
  | none => []
  | some data =>
      if disk.writable (savedPath destdir path) then [(savedPath destdir path, data)] else []

theorem mem_savedFor {disk : Disk} {destdir : Option (List UInt8)} {client : Int}
    {s : FileStorage} {path : List UInt8} {e : List UInt8 × List UInt8}
    (h : e ∈ savedFor disk destdir client s path) :
    e.1 = savedPath destdir path ∧ s.contentsFor client path = some e.2 := by
  rw [savedFor] at h
  split at h
  · cases h
  · next data hdata =>
      split at h
      · obtain rfl := List.mem_singleton.mp h
        exact ⟨rfl, hdata⟩
      · cases h

/-- A client has opened, read and closed the files at `paths`, as far as the server
let it: its own ones among them are free now, and nothing else is different. -/
structure Visited (client : Int) (paths : List (List UInt8)) (s s' : FileStorage) : Prop where
  wellFormed : s'.WellFormed
  table : s'.table = s.table
  data : ∀ x, (s'.file x).data = (s.file x).data
  closed : ∀ path ∈ paths, ∀ x, s.table.huGet path = some x → (s.file x).client = client →
    (s'.file x).client = -1
  others : ∀ x, ((s.file x).client = client → ∀ path ∈ paths, s.table.huGet path ≠ some x) →
    (s'.file x).client = (s.file x).client

namespace Visited

variable {client c : Int} {s s' s'' : FileStorage} {path : List UInt8}
  {paths paths' : List (List UInt8)} {a : Nat}

/-- The owner of a file is the one it had, or the file was the client's and is free. -/
theorem owner (h : Visited client paths s s') (x : Nat) :
    (s'.file x).client = (s.file x).client ∨
      ((s.file x).client = client ∧ (s'.file x).client = -1) := by
  by_cases hlisted : ∃ path ∈ paths, s.table.huGet path = some x
  · obtain ⟨path, hp, hget⟩ := hlisted
    by_cases hown : (s.file x).client = client
    · exact .inr ⟨hown, h.closed path hp x hget hown⟩
    · exact .inl (h.others x fun hc => absurd hc hown)
  · exact .inl (h.others x fun _ path hp hget => hlisted ⟨path, hp, hget⟩)

theorem refl (hwf : s.WellFormed) (client : Int) : Visited client [] s s :=
  ⟨hwf, rfl, fun _ => rfl, fun _ hp => absurd hp List.not_mem_nil, fun _ _ => rfl⟩

theorem trans (h : Visited client paths s s') (h' : Visited client paths' s' s'')
    (hclient : client ≠ -1) : Visited client (paths ++ paths') s s'' := by
  refine ⟨h'.wellFormed, h'.table.trans h.table, fun x => (h'.data x).trans (h.data x),
    fun path hp x hget hown => ?_, fun x hx => ?_⟩
  · rcases h.owner x with hsame | ⟨-, hfree⟩
    · rcases List.mem_append.mp hp with hp | hp
      · have hfree := h.closed path hp x hget hown
        exact absurd (hown.symm.trans (hsame.symm.trans hfree)) hclient
      · exact h'.closed path hp x (h.table ▸ hget) (hsame.trans hown)
    · have hnot : (s'.file x).client ≠ client := fun heq => hclient (heq.symm.trans hfree)
      exact (h'.others x fun heq => absurd heq hnot).trans hfree
  · have hsame := h.others x fun hown path hp => hx hown path (List.mem_append_left _ hp)
    refine (h'.others x fun hown path hp => ?_).trans hsame
    rw [h.table]
    exact hx (hsame ▸ hown) path (List.mem_append_right _ hp)

/-- A call on the file at a path that leaves its owner, or frees the client's own. -/
theorem of_touched (hwf : s.WellFormed) (hget : s.table.huGet path = some a)
    (ht : Touched s a c s')
    (hc : (c = (s.file a).client ∧ (s.file a).client ≠ client) ∨
      ((s.file a).client = client ∧ c = -1)) :
    Visited client [path] s s' := by
  have ha := hwf.accounted.live a (WellFormed.huGet_mem_ptrs hget)
  refine ⟨ht.wellFormed hwf, ht.table, ht.data, List.forall_mem_singleton.mpr fun x hx hown => ?_,
    fun x hx => ?_⟩
  · obtain rfl : a = x := Option.some.inj (hget.symm.trans hx)
    rw [ht.client_self ha]
    rcases hc with ⟨-, hne⟩ | ⟨-, hfree⟩
    · exact absurd hown hne
    · exact hfree
  · by_cases hxa : x = a
    · subst hxa
      rw [ht.client_self ha]
      rcases hc with ⟨hsame, -⟩ | ⟨hown, -⟩
      · exact hsame
      · exact absurd hget (hx hown path (List.mem_singleton_self path))
    · exact congrArg FileData.client (ht.file_of_ne hxa)

/-- A call for a path that leads nowhere. -/
theorem of_missing (hwf : s.WellFormed) (hget : s.table.huGet path = none) (client : Int) :
    Visited client [path] s s := by
  refine ⟨hwf, rfl, fun _ => rfl, List.forall_mem_singleton.mpr fun x hx => ?_, fun _ _ => rfl⟩
  rw [hget] at hx
  cases hx

theorem contentsFor (h : Visited client paths s s') (path : List UInt8) :
    s'.contentsFor client path = s.contentsFor client path := by
  rw [FileStorage.contentsFor, FileStorage.contentsFor, h.table]
  congr 1
  funext a
  rw [h.data a]
  rcases h.owner a with hsame | ⟨hown, hfree⟩
  · rw [hsame]
  · rw [if_pos (.inl hfree), if_pos (.inr hown)]

theorem savedFor (h : Visited client paths s s') (disk : Disk)
    (destdir : Option (List UInt8)) (path : List UInt8) :
    LsoStore.savedFor disk destdir client s' path =
      LsoStore.savedFor disk destdir client s path := by
  rw [LsoStore.savedFor, LsoStore.savedFor, h.contentsFor]

theorem owner_ne_zero (h : Visited client paths s s')
    (hs : ∀ a ∈ s.ptrs, (s.file a).client ≠ 0) :
    ∀ a ∈ s'.ptrs, (s'.file a).client ≠ 0 := by
  intro a ha
  rw [FileStorage.ptrs, h.table] at ha
  rcases h.owner a with hsame | ⟨_, hfree⟩
  · exact hsame ▸ hs a ha
  · rw [hfree]
    decide

end Visited

section Fetch

variable {qsort : Qsort Nat} {client : Int} {s s' : FileStorage} {saved : Saved} {disk : Disk}
  {destdir : Option (List UInt8)} {path data : List UInt8} {size : Nat}

/-! The answers of the calls as they are added up. -/

theorem ofInt_done (res : BitVec 32) : res + BitVec.ofInt 32 0 = res := BitVec.add_zero res

theorem ofInt_failed (res : BitVec 32) : res + BitVec.ofInt 32 (-1) = res - 1 := by
  rw [BitVec.sub_eq_add_neg]
  rfl

theorem suAppendChars_of_le {α : Type} {string literal : List UInt8}
    (h : string.length + literal.length + 1 ≤ muLimit) (k : List UInt8 → ClientM α) :
    suAppendChars string literal k = k (string ++ literal) := by
  rw [suAppendChars]
  split
  · next h0 => rw [List.length_eq_zero_iff.mp h0, List.append_nil]
  · rw [muRealloc, if_neg (by omega)]

theorem exchanges_storeFile_none (res : BitVec 32) (w : World Saved Empty) (s : FileStorage) :
    Exchanges (serverTurns qsort client) 0 (Connected.storeFile disk destdir path res none) w
      ⟨s, ∅⟩ (res + 1) w ⟨s, ∅⟩ := by
  rw [Connected.storeFile]
  exact Exchanges.ret (serverTurns qsort client) (res + 1) w ⟨s, ∅⟩

/-- A path that `read_files_list` can fetch and store. -/
structure Fetchable (destdir : Option (List UInt8)) (path : List UInt8) : Prop where
  ne : path ≠ []
  text : (0 : UInt8) ∉ path
  short : (savedPath destdir path).length < 256

theorem Fetchable.sendable (h : Fetchable destdir path) : Sendable path := by
  refine ⟨h.ne, h.text, ?_⟩
  have hlim : muLimit = 2 ^ 22 := rfl
  have hshort := h.short
  rw [savedPath, List.length_append] at hshort
  omega

variable (qsort client saved disk data) in
theorem exchanges_storeFile_some (hp : Fetchable destdir path) (res : BitVec 32)
    (s : FileStorage) :
    Exchanges (serverTurns qsort client) 0 (Connected.storeFile disk destdir path res (some data))
      ⟨saved, ∅⟩ ⟨s, ∅⟩ (if disk.writable (savedPath destdir path) then res else res - 1)
      ⟨saved ++ if disk.writable (savedPath destdir path) then [(savedPath destdir path, data)]
        else [], ∅⟩ ⟨s, ∅⟩ := by
  intro n Q hf
  have hlim : muLimit = 2 ^ 22 := rfl
  have hshort := hp.short
  have hlen := hshort
  rw [savedPath, List.length_append] at hlen
  rw [Connected.storeFile, suAppendChars_of_le (by rw [List.length_nil]; omega), List.nil_append,
    suAppendChars_of_le (by omega), ← savedPath, fuWriteToPath, if_neg (by omega)]
  by_cases hw : disk.writable (savedPath destdir path)
  · rw [if_pos hw, if_pos hw] at hf
    rw [if_pos hw, get_bind, flows_client_get]
    dsimp only
    rw [set_bind, flows_client_set, ret_bind]
    dsimp only
    rw [ofInt_done]
    exact hf
  · rw [if_neg hw, if_neg hw, List.append_nil] at hf
    rw [if_neg hw, ret_bind, ofInt_failed]
    exact hf

/-- The four steps of a round and the rounds after it. -/
theorem exchanges_readFilesLoop_cons {opened closed : Int} {buff : Option (List UInt8)}
    {size' k : Nat} {res res' b : BitVec 32} {saved' : Saved} {s₁ s₂ s₃ : FileStorage}
    {w' : World Saved Empty} {v' : World FileStorage Mutex} {rest : List (List UInt8)}
    (hopen : Exchanges (serverTurns qsort client) 1 (openFile path 0) ⟨saved, ∅⟩ ⟨s, ∅⟩ opened
      ⟨saved, ∅⟩ ⟨s₁, ∅⟩)
    (hread : Exchanges (serverTurns qsort client) 1 (Connected.readFile path size) ⟨saved, ∅⟩
      ⟨s₁, ∅⟩ (buff, size') ⟨saved, ∅⟩ ⟨s₂, ∅⟩)
    (hstore : Exchanges (serverTurns qsort client) 0
      (Connected.storeFile disk destdir path (res + BitVec.ofInt 32 opened) buff) ⟨saved, ∅⟩
      ⟨s₂, ∅⟩ res' ⟨saved', ∅⟩ ⟨s₂, ∅⟩)
    (hclose : Exchanges (serverTurns qsort client) 1 (closeFile path) ⟨saved', ∅⟩ ⟨s₂, ∅⟩ closed
      ⟨saved', ∅⟩ ⟨s₃, ∅⟩)
    (hrest : Exchanges (serverTurns qsort client) k
      (Connected.readFilesLoop disk destdir rest (res' + BitVec.ofInt 32 closed) size')
      ⟨saved', ∅⟩ ⟨s₃, ∅⟩ b w' v') :
    Exchanges (serverTurns qsort client) (k + 3)
      (Connected.readFilesLoop disk destdir (path :: rest) res size) ⟨saved, ∅⟩ ⟨s, ∅⟩ b w'
      v' := by
  rw [Connected.readFilesLoop]
  exact hopen.bind (hread.bind (hstore.bind (hclose.bind hrest)))

/-- One round: up to two failures are counted, and none exactly if the file is
there, nobody has it open and it can be stored. -/
def RoundEnds (qsort : Qsort Nat) (client : Int) (disk : Disk) (destdir : Option (List UInt8))
    (path : List UInt8) (saved : Saved) (s : FileStorage) (res : BitVec 32) (size : Nat) : Prop :=
  ∃ (failures size' : Nat) (s' : FileStorage), failures ≤ 2 ∧
    (failures = 0 ↔ s.Free path ∧ disk.writable (savedPath destdir path)) ∧
    (failures = 0 → ∀ x, (s'.file x).client = (s.file x).client) ∧
    Visited client [path] s s' ∧
    ∀ {rest : List (List UInt8)} {b : BitVec 32} {k : Nat} {w' : World Saved Empty}
      {v' : World FileStorage Mutex},
      Exchanges (serverTurns qsort client) k
        (Connected.readFilesLoop disk destdir rest (res - (failures : BitVec 32)) size')
        ⟨saved ++ savedFor disk destdir client s path, ∅⟩ ⟨s', ∅⟩ b w' v' →
      Exchanges (serverTurns qsort client) (k + 3)
        (Connected.readFilesLoop disk destdir (path :: rest) res size) ⟨saved, ∅⟩ ⟨s, ∅⟩ b
        w' v'

section Round

variable {res : BitVec 32} {a : Nat}

theorem roundEnds_missing (hc : client ≠ 0) (hwf : s.WellFormed) (hp : Sendable path)
    (hget : s.table.huGet path = none) :
    RoundEnds qsort client disk destdir path saved s res size := by
  have hnot : s.contentsFor client path = none := by
    rw [FileStorage.contentsFor, hget, Option.bind_none]
  refine ⟨1, size, s, by omega, ?_, fun _ _ => rfl, .of_missing hwf hget client,
    fun hrest => ?_⟩
  · refine iff_of_false (by decide) fun h => ?_
    obtain ⟨⟨a, ha, -⟩, -⟩ := h
    rw [hget] at ha
    cases ha
  · rw [savedFor, hnot, List.append_nil] at hrest
    refine exchanges_readFilesLoop_cons (exchanges_openFile_missing hc hp hget)
      (exchanges_readFile_missing hc hp hget) (exchanges_storeFile_none _ _ _)
      (exchanges_closeFile_missing hc hp hget) ?_
    rw [ofInt_failed, ofInt_failed, sub_add_cancel]
    exact hrest

theorem roundEnds_foreign (hc : client ≠ 0) (hwf : s.WellFormed) (hp : Sendable path)
    (hget : s.table.huGet path = some a) (hzero : (s.file a).client ≠ 0)
    (hbusy : (s.file a).client ≠ -1) (hforeign : (s.file a).client ≠ client) :
    RoundEnds qsort client disk destdir path saved s res size := by
  have hlive := hwf.accounted.live a (WellFormed.huGet_mem_ptrs hget)
  have hnot : s.contentsFor client path = none := by
    rw [FileStorage.contentsFor, hget, Option.bind_some, if_neg (not_or.mpr ⟨hbusy, hforeign⟩)]
  obtain ⟨s₁, hopen, ht₁⟩ := exchanges_openFile_busy qsort ⟨saved, ∅⟩ hwf hc hp hget hbusy
  have hc₁ := ht₁.client_self hlive
  obtain ⟨s₂, hread, ht₂⟩ := exchanges_readFile_foreign qsort ⟨saved, ∅⟩ size
    (ht₁.wellFormed hwf) hc hp (ht₁.table ▸ hget) (hc₁ ▸ hzero) (hc₁ ▸ hforeign)
  have ht₂ := ht₁.trans (hc₁ ▸ ht₂) hlive
  have hc₂ := ht₂.client_self hlive
  obtain ⟨s₃, hclose, ht₃⟩ := exchanges_closeFile_foreign qsort ⟨saved, ∅⟩
    (ht₂.wellFormed hwf) hc hp (ht₂.table ▸ hget) (hc₂ ▸ hforeign)
  have ht₃ := ht₂.trans (hc₂ ▸ ht₃) hlive
  refine ⟨1, size, s₃, by omega, ?_, fun h => absurd h (by decide),
    .of_touched hwf hget ht₃ (.inl ⟨rfl, hforeign⟩), fun hrest => ?_⟩
  · refine iff_of_false (by decide) fun h => ?_
    obtain ⟨⟨b, hb, hfree⟩, -⟩ := h
    obtain rfl : a = b := Option.some.inj (hget.symm.trans hb)
    exact hbusy hfree
  · rw [savedFor, hnot, List.append_nil] at hrest
    refine exchanges_readFilesLoop_cons hopen hread (exchanges_storeFile_none _ _ _) hclose ?_
    rw [ofInt_failed, ofInt_failed, sub_add_cancel]
    exact hrest

/-- The client has the file open once it has tried to open it. -/
theorem roundEnds_of_open (hc : client ≠ 0) (hneg : client ≠ -1) (hwf : s.WellFormed)
    (hp : Fetchable destdir path)
    (hget : s.table.huGet path = some a) {opened : Int} {s₁ : FileStorage}
    (hopen : Exchanges (serverTurns qsort client) 1 (openFile path 0) ⟨saved, ∅⟩ ⟨s, ∅⟩ opened
      ⟨saved, ∅⟩ ⟨s₁, ∅⟩)
    (ht₁ : Touched s a client s₁) (hne : (s.file a).data ≠ [])
    (hlim : (s.file a).data.length ≤ muLimit)
    (hopened : opened = 0 ∧ (s.file a).client = -1 ∨
      opened = -1 ∧ (s.file a).client = client) :
    RoundEnds qsort client disk destdir path saved s res size := by
  have hlive := hwf.accounted.live a (WellFormed.huGet_mem_ptrs hget)
  have hsend := hp.sendable
  obtain ⟨s₂, hread, ht₂⟩ := exchanges_readFile_own qsort ⟨saved, ∅⟩ size
    (ht₁.wellFormed hwf) hc hsend (ht₁.table ▸ hget) (ht₁.client_self hlive) (ht₁.data a) hne hlim
  have ht₂ := ht₁.trans ht₂ hlive
  have hgot : s.contentsFor client path = some (s.file a).data := by
    rw [FileStorage.contentsFor, hget, Option.bind_some, if_pos]
    exact hopened.imp (·.2) (·.2)
  have hsaved : savedFor disk destdir client s path =
      if disk.writable (savedPath destdir path) then
        [(savedPath destdir path, (s.file a).data)] else [] := by
    rw [savedFor, hgot]
  have hstore := exchanges_storeFile_some qsort client saved disk (s.file a).data hp
    (res + BitVec.ofInt 32 opened) s₂
  rw [← hsaved] at hstore
  obtain ⟨s₃, hclose, ht₃⟩ := exchanges_closeFile_own qsort
    ⟨saved ++ savedFor disk destdir client s path, ∅⟩ (ht₂.wellFormed hwf) hc hsend
    (ht₂.table ▸ hget) (ht₂.client_self hlive)
  have ht₃ := ht₂.trans ht₃ hlive
  have hfree : s.Free path ↔ (s.file a).client = -1 := by
    refine ⟨fun h => ?_, fun h => ⟨a, hget, h⟩⟩
    obtain ⟨b, hb, hfree⟩ := h
    rwa [Option.some.inj (hget.symm.trans hb)]
  have hv : Visited client [path] s s₃ := by
    refine .of_touched hwf hget ht₃ (hopened.imp (fun h => ?_) fun h => ⟨h.2, rfl⟩)
    exact ⟨h.2.symm, fun heq => hneg (heq.symm.trans h.2)⟩
  rcases hopened with ⟨rfl, hown⟩ | ⟨rfl, hown⟩
  · by_cases hw : disk.writable (savedPath destdir path)
    · refine ⟨0, (s.file a).data.length, s₃, by omega, iff_of_true rfl ⟨hfree.mpr hown, hw⟩,
        fun _ => ht₃.client_eq hlive hown.symm, hv, fun hrest => ?_⟩
      refine exchanges_readFilesLoop_cons hopen hread hstore hclose ?_
      rw [Nat.cast_zero, sub_zero] at hrest
      rw [if_pos hw, ofInt_done, ofInt_done]
      exact hrest
    · refine ⟨1, (s.file a).data.length, s₃, by omega, iff_of_false (by decide) fun h => hw h.2,
        fun h => absurd h (by decide), hv, fun hrest => ?_⟩
      refine exchanges_readFilesLoop_cons hopen hread hstore hclose ?_
      rw [if_neg hw, ofInt_done, ofInt_done]
      exact hrest
  · have hnot : ¬ s.Free path := fun h => hneg (hown.symm.trans (hfree.mp h))
    by_cases hw : disk.writable (savedPath destdir path)
    · refine ⟨1, (s.file a).data.length, s₃, by omega, iff_of_false (by decide) fun h => hnot h.1,
        fun h => absurd h (by decide), hv, fun hrest => ?_⟩
      refine exchanges_readFilesLoop_cons hopen hread hstore hclose ?_
      rw [if_pos hw, ofInt_done, ofInt_failed]
      exact hrest
    · refine ⟨2, (s.file a).data.length, s₃, by omega, iff_of_false (by decide) fun h => hnot h.1,
        fun h => absurd h (by decide), hv, fun hrest => ?_⟩
      refine exchanges_readFilesLoop_cons hopen hread hstore hclose ?_
      rw [if_neg hw, ofInt_done, ofInt_failed, sub_sub]
      exact hrest

variable (qsort saved disk size res) in
theorem roundEnds (hc : client ≠ 0) (hneg : client ≠ -1) (hwf : s.WellFormed)
    (hp : Fetchable destdir path) (howner : ∀ a ∈ s.ptrs, (s.file a).client ≠ 0)
    (hdata : ∀ data, s.contentsFor client path = some data →
      data ≠ [] ∧ data.length ≤ muLimit) :
    RoundEnds qsort client disk destdir path saved s res size := by
  have hsend := hp.sendable
  cases hget : s.table.huGet path with
  | none => exact roundEnds_missing hc hwf hsend hget
  | some a =>
      have hgets : ((s.file a).client = -1 ∨ (s.file a).client = client) →
          (s.file a).data ≠ [] ∧ (s.file a).data.length ≤ muLimit := by
        intro h
        refine hdata _ ?_
        rw [FileStorage.contentsFor, hget, Option.bind_some, if_pos h]
      by_cases hfree : (s.file a).client = -1
      · obtain ⟨hne, hlim⟩ := hgets (.inl hfree)
        obtain ⟨s₁, hopen, ht⟩ := exchanges_openFile_free qsort ⟨saved, ∅⟩ hwf hc hsend hget hfree
        exact roundEnds_of_open hc hneg hwf hp hget hopen ht hne hlim (.inl ⟨rfl, hfree⟩)
      · by_cases hown : (s.file a).client = client
        · obtain ⟨hne, hlim⟩ := hgets (.inr hown)
          obtain ⟨s₁, hopen, ht⟩ := exchanges_openFile_busy qsort ⟨saved, ∅⟩ hwf hc
            hsend hget hfree
          exact roundEnds_of_open hc hneg hwf hp hget hopen (hown ▸ ht) hne hlim
            (.inr ⟨rfl, hown⟩)
        · exact roundEnds_foreign hc hwf hsend hget
            (howner a (WellFormed.huGet_mem_ptrs hget)) hfree hown

end Round

variable (qsort disk) in
/-- The loop, with the number of failures it counts. -/
theorem exchanges_readFilesLoop (hc : client ≠ 0) (hneg : client ≠ -1)
    (paths : List (List UInt8))
    (hpaths : ∀ path ∈ paths, Fetchable destdir path) (res : BitVec 32) (saved : Saved)
    (size : Nat) (hwf : s.WellFormed)
    (howner : ∀ a ∈ s.ptrs, (s.file a).client ≠ 0)
    (hdata : ∀ path ∈ paths, ∀ data, s.contentsFor client path = some data →
      data ≠ [] ∧ data.length ≤ muLimit) :
    ∃ (failures : Nat) (s' : FileStorage), failures ≤ 2 * paths.length ∧
      (failures = 0 ↔ ∀ path ∈ paths, s.Free path ∧ disk.writable (savedPath destdir path)) ∧
      Visited client paths s s' ∧
      Exchanges (serverTurns qsort client) (3 * paths.length)
        (Connected.readFilesLoop disk destdir paths res size) ⟨saved, ∅⟩ ⟨s, ∅⟩
        (res - (failures : BitVec 32))
        ⟨saved ++ paths.flatMap (savedFor disk destdir client s), ∅⟩ ⟨s', ∅⟩ := by
  induction paths generalizing s saved res size with
  | nil =>
      refine ⟨0, s, by omega, iff_of_true rfl (fun _ h => by cases h), .refl hwf client, ?_⟩
      rw [List.flatMap_nil, List.append_nil, Nat.cast_zero, sub_zero, Connected.readFilesLoop]
      exact Exchanges.ret _ res _ _
  | cons path rest ih =>
      obtain ⟨hpath, hrest⟩ := List.forall_mem_cons.mp hpaths
      obtain ⟨hmine, hothers⟩ := List.forall_mem_cons.mp hdata
      obtain ⟨f, size', s₁, hf, hnone, hsame, hv, hround⟩ := roundEnds qsort saved disk size res
        hc hneg hwf hpath howner hmine
      obtain ⟨f', s₂, hf', hnone', hv', hloop⟩ := ih hrest
        (res - (f : BitVec 32)) (saved ++ savedFor disk destdir client s path) size'
        hv.wellFormed (hv.owner_ne_zero howner)
        (fun path hp data hd => hothers path hp data (hv.contentsFor path ▸ hd))
      have hfree : f = 0 → ∀ path, s₁.Free path ↔ s.Free path := by
        intro h0 path
        rw [Free, Free, hv.table]
        simp only [hsame h0]
      refine ⟨f + f', s₂, by rw [List.length_cons]; omega, ?_, hv.trans hv' hneg, ?_⟩
      · rw [Nat.add_eq_zero_iff, List.forall_mem_cons, ← hnone]
        refine and_congr_right fun h0 => ?_
        rw [hnone']
        simp only [hfree h0]
      · have hloop := hround hloop
        have hsaved : savedFor disk destdir client s₁ = savedFor disk destdir client s := by
          funext path
          exact hv.savedFor disk destdir path
        rw [hsaved, sub_sub, ← Nat.cast_add, List.append_assoc, ← List.flatMap_cons] at hloop
        exact hloop

end Fetch

section FetchList

variable {qsort : Qsort Nat} {client : Int} {s : FileStorage} {disk : Disk}
  {destdir : Option (List UInt8)}

variable (qsort disk) in
/-- `read_files_list` in terms of the number of failures. -/
theorem exchanges_readFilesList (hc : client ≠ 0) (hneg : client ≠ -1)
    (paths : List (List UInt8)) (hpaths : ∀ path ∈ paths, Fetchable destdir path)
    (hwf : s.WellFormed)
    (howner : ∀ a ∈ s.ptrs, (s.file a).client ≠ 0)
    (hdata : ∀ path ∈ paths, ∀ data, s.contentsFor client path = some data →
      data ≠ [] ∧ data.length ≤ muLimit) (saved : Saved) :
    ∃ (failures : Nat) (s' : FileStorage), failures ≤ 2 * paths.length ∧
      (failures = 0 ↔ ∀ path ∈ paths, s.Free path ∧ disk.writable (savedPath destdir path)) ∧
      Visited client paths s s' ∧
      Exchanges (serverTurns qsort client) (3 * paths.length)
        (Connected.readFilesList disk destdir paths) ⟨saved, ∅⟩ ⟨s, ∅⟩
        (if failures % 2 ^ 32 ≠ 0 then -1 else 0)
        ⟨saved ++ paths.flatMap (savedFor disk destdir client s), ∅⟩ ⟨s', ∅⟩ := by
  obtain ⟨f, s', hf, hnone, hv, hloop⟩ := exchanges_readFilesLoop qsort disk hc hneg paths
    hpaths 0 saved 0 hwf howner hdata
  have hzero : 0 - (f : BitVec 32) = 0 ↔ f % 2 ^ 32 = 0 := by
    rw [zero_sub, neg_eq_zero, BitVec.natCast_eq_ofNat, ← BitVec.toNat_inj, BitVec.toNat_ofNat]
    rfl
  have hlist := hloop.bind (K := fun res => .ret (if res ≠ 0 then -1 else 0))
    (Exchanges.ret _ (if 0 - (f : BitVec 32) ≠ 0 then -1 else 0 : BitVec 32) _ _)
  simp only [ne_eq, hzero, Nat.zero_add] at hlist
  exact ⟨f, s', hf, hnone, hv, hlist⟩

end FetchList

/-! ## Storing -/

/-- Neither path is a prefix of the other. -/
def Apart (p q : List UInt8) : Prop := ¬ p <+: q ∧ ¬ q <+: p

theorem Apart.symm {p q : List UInt8} (h : Apart p q) : Apart q p := ⟨h.2, h.1⟩

/-- A path apart from all stored ones leads to no file. -/
theorem FileStorage.WellFormed.huGet_of_apart {s : FileStorage} (hwf : s.WellFormed)
    {path : List UInt8} (h : ∀ a ∈ s.ptrs, Apart path (s.file a).path) :
    s.table.huGet path = none := by
  cases hget : s.table.huGet path with
  | none => rfl
  | some a =>
      obtain ⟨k, hmem, -, hzero⟩ := hwf.ordered.huGet_key hget
      have hpath : (s.file a).path = k := hwf.paths _ hmem
      rw [hwf.compare, suStringCompare_eq_zero_iff] at hzero
      obtain ⟨hnot, hnot'⟩ := h a (WellFormed.huGet_mem_ptrs hget)
      rw [hpath] at hnot hnot'
      exact (hzero.elim hnot hnot').elim

/-- A file on the client's disk. -/
structure LocalFile where
  path : List UInt8
  data : List UInt8

/-- The client can read the file and send it in one piece. -/
structure LocalFile.Storable (disk : Disk) (f : LocalFile) : Prop where
  sendable : Sendable f.path
  read : disk.read f.path = some f.data
  ne : f.data ≠ []
  short : f.data.length < muLimit

/-- `files` are stored and nobody has them open, and what was there is as it was. -/
structure Stored (files : List LocalFile) (s s' : FileStorage) : Prop where
  wellFormed : s'.WellFormed
  kept : ∀ a ∈ s.ptrs, a ∈ s'.ptrs ∧ s'.file a = s.file a
  stored : ∀ f ∈ files, ∃ a ∈ s'.ptrs, (s'.file a).path = f.path ∧ (s'.file a).data = f.data ∧
    (s'.file a).client = -1
  only : ∀ a ∈ s'.ptrs, a ∈ s.ptrs ∨
    ∃ f ∈ files, (s'.file a).path = f.path ∧ (s'.file a).client = -1
  currFiles : s'.currFiles = s.currFiles + files.length
  currBytes : s'.currBytes = s.currBytes + (files.map (·.data.length)).sum
  maxFiles : s'.maxFiles = s.maxFiles
  maxBytes : s'.maxBytes = s.maxBytes

namespace Stored

variable {files files' : List LocalFile} {f : LocalFile} {s s' s'' : FileStorage} {a : Nat}
  {path : List UInt8}

theorem refl (hwf : s.WellFormed) : Stored [] s s :=
  ⟨hwf, fun _ ha => ⟨ha, rfl⟩, fun _ hf => absurd hf List.not_mem_nil, fun _ ha => .inl ha, rfl,
    rfl, rfl, rfl⟩

theorem of_grown (h : Grown s f.path f.data (-1) a s') : Stored [f] s s' := by
  have hmem : ∀ x ∈ s'.ptrs, x = a ∨ x ∈ s.ptrs := fun x hx =>
    List.mem_cons.mp (h.ptrs.mem_iff.mp hx)
  refine ⟨h.wellFormed, fun x hx => ⟨h.ptrs.mem_iff.mpr (List.mem_cons_of_mem a hx), h.same x hx⟩,
    List.forall_mem_singleton.mpr ⟨a, h.mem, h.path, h.data, h.client⟩, fun x hx => ?_,
    h.currFiles, h.currBytes, h.maxFiles, h.maxBytes⟩
  rcases hmem x hx with rfl | hx
  · exact .inr ⟨f, List.mem_singleton_self f, h.path, h.client⟩
  · exact .inl hx

theorem trans (h : Stored files s s') (h' : Stored files' s' s'') :
    Stored (files ++ files') s s'' := by
  refine ⟨h'.wellFormed, fun a ha => ?_, fun f hf => ?_, fun a ha => ?_, ?_, ?_,
    h'.maxFiles.trans h.maxFiles, h'.maxBytes.trans h.maxBytes⟩
  · obtain ⟨hmem, heq⟩ := h.kept a ha
    obtain ⟨hmem', heq'⟩ := h'.kept a hmem
    exact ⟨hmem', heq'.trans heq⟩
  · rcases List.mem_append.mp hf with hf | hf
    · obtain ⟨a, ha, hpath, hdata, hfree⟩ := h.stored f hf
      obtain ⟨hmem, heq⟩ := h'.kept a ha
      exact ⟨a, hmem, heq ▸ hpath, heq ▸ hdata, heq ▸ hfree⟩
    · exact h'.stored f hf
  · rcases h'.only a ha with ha' | ⟨f, hf, hpath, hfree⟩
    · rcases h.only a ha' with hold | ⟨f, hf, hpath, hfree⟩
      · exact .inl hold
      · have heq := (h'.kept a ha').2
        exact .inr ⟨f, List.mem_append_left _ hf, heq ▸ hpath, heq ▸ hfree⟩
    · exact .inr ⟨f, List.mem_append_right _ hf, hpath, hfree⟩
  · rw [h'.currFiles, h.currFiles, List.length_append, Nat.add_assoc]
  · rw [h'.currBytes, h.currBytes, List.map_append, List.sum_append, Nat.add_assoc]

/-- A path apart from what is stored and from `files` is apart from what is stored now. -/
theorem apart (h : Stored files s s') (hnew : ∀ a ∈ s.ptrs, Apart path (s.file a).path)
    (hapart : ∀ f ∈ files, Apart path f.path) : ∀ a ∈ s'.ptrs, Apart path (s'.file a).path := by
  intro a ha
  rcases h.only a ha with hold | ⟨f, hf, hpath, -⟩
  · rw [(h.kept a hold).2]
    exact hnew a hold
  · rw [hpath]
    exact hapart f hf

end Stored

section Store

variable {qsort : Qsort Nat} {client : Int} {s : FileStorage} {w : World Saved Empty}
  {disk : Disk} {rounds : Nat} {wbdir : Option (List UInt8)} {f : LocalFile}

variable (qsort w rounds wbdir) in
/-- One file: opened, written and closed. -/
theorem exchanges_writeFilesLoop_cons (hc : client ≠ 0) (hwf : s.WellFormed)
    (hf : f.Storable disk) (hnew : ∀ a ∈ s.ptrs, Apart f.path (s.file a).path)
    (hfiles : s.currFiles < s.maxFiles) (hbytes : s.currBytes + f.data.length ≤ s.maxBytes) :
    ∃ s' a, Grown s f.path f.data (-1) a s' ∧
      ∀ {rest : List (List UInt8)} {res b : BitVec 32} {k : Nat} {w' : World Saved Empty}
        {v' : World FileStorage Mutex},
        Exchanges (serverTurns qsort client) k
          (Connected.writeFilesLoop disk rounds wbdir rest res) w ⟨s', ∅⟩ b w' v' →
        Exchanges (serverTurns qsort client) (k + 3)
          (Connected.writeFilesLoop disk rounds wbdir (f.path :: rest) res) w ⟨s, ∅⟩ b w' v' := by
  have hpos := List.length_pos_of_ne_nil hf.ne
  obtain ⟨s₁, hopen, hg₁⟩ := exchanges_openFile_creates qsort w hwf hc hf.sendable
    (hwf.huGet_of_apart hnew) hfiles (by omega)
  obtain ⟨s₂, hwrite, hg₂⟩ := exchanges_writeFile qsort w rounds wbdir hc
    hf.sendable hg₁ hf.read hf.ne hf.short hbytes
  obtain ⟨s₃, hclose, ht⟩ := exchanges_closeFile_own qsort w hg₂.wellFormed hc
    hf.sendable hg₂.huGet hg₂.client
  refine ⟨s₃, _, hg₂.touched ht, fun hrest => ?_⟩
  rw [Connected.writeFilesLoop]
  exact hopen.bind (hwrite.bind (hclose.bind hrest))

variable (qsort w rounds wbdir) in
theorem exchanges_writeFilesLoop (hc : client ≠ 0) (files : List LocalFile)
    (hstorable : ∀ f ∈ files, f.Storable disk)
    (hapart : files.Pairwise fun f g => Apart f.path g.path)
    (hwf : s.WellFormed) (hnew : ∀ f ∈ files, ∀ a ∈ s.ptrs, Apart f.path (s.file a).path)
    (hfiles : s.currFiles + files.length ≤ s.maxFiles)
    (hbytes : s.currBytes + (files.map (·.data.length)).sum ≤ s.maxBytes) (res : BitVec 32) :
    ∃ s', Stored files s s' ∧
      Exchanges (serverTurns qsort client) (3 * files.length)
        (Connected.writeFilesLoop disk rounds wbdir (files.map LocalFile.path) res) w ⟨s, ∅⟩ res w
        ⟨s', ∅⟩ := by
  induction files generalizing s with
  | nil =>
      refine ⟨s, .refl hwf, ?_⟩
      rw [List.map_nil, Connected.writeFilesLoop]
      exact Exchanges.ret _ res _ _
  | cons f files ih =>
      obtain ⟨hf, hothers⟩ := List.forall_mem_cons.mp hstorable
      obtain ⟨hfnew, hnews⟩ := List.forall_mem_cons.mp hnew
      obtain ⟨hfapart, hapart⟩ := List.pairwise_cons.mp hapart
      rw [List.length_cons] at hfiles
      rw [List.map_cons, List.sum_cons] at hbytes
      obtain ⟨s₁, a, hg, hround⟩ := exchanges_writeFilesLoop_cons qsort w rounds wbdir
        hc hwf hf hfnew (by omega) (by omega)
      have hs₁ : Stored [f] s s₁ := .of_grown hg
      have hnext : ∀ g ∈ files, ∀ x ∈ s₁.ptrs, Apart g.path (s₁.file x).path := fun g hg' =>
        hs₁.apart (hnews g hg') (List.forall_mem_singleton.mpr (hfapart g hg').symm)
      obtain ⟨s', hs, hloop⟩ := ih hothers hapart hg.wellFormed hnext
        (by rw [hg.currFiles, hg.maxFiles]; omega) (by rw [hg.currBytes, hg.maxBytes]; omega)
      exact ⟨s', hs₁.trans hs, hround hloop⟩

variable (qsort w rounds wbdir) in
theorem exchanges_writeFilesList (hc : client ≠ 0) (files : List LocalFile)
    (hstorable : ∀ f ∈ files, f.Storable disk)
    (hapart : files.Pairwise fun f g => Apart f.path g.path)
    (hwf : s.WellFormed) (hnew : ∀ f ∈ files, ∀ a ∈ s.ptrs, Apart f.path (s.file a).path)
    (hfiles : s.currFiles + files.length ≤ s.maxFiles)
    (hbytes : s.currBytes + (files.map (·.data.length)).sum ≤ s.maxBytes) :
    ∃ s', Stored files s s' ∧
      Exchanges (serverTurns qsort client) (3 * files.length)
        (Connected.writeFilesList disk rounds wbdir (files.map LocalFile.path)) w ⟨s, ∅⟩ 0 w
        ⟨s', ∅⟩ := by
  obtain ⟨s', hs, hloop⟩ := exchanges_writeFilesLoop qsort w rounds wbdir hc files hstorable hapart
    hwf hnew hfiles hbytes 0
  have hlist := hloop.bind (K := fun res => .ret (if res ≠ 0 then -1 else 0))
    (Exchanges.ret _ (0 : BitVec 32) _ _)
  rw [Nat.zero_add] at hlist
  exact ⟨s', hs, hlist⟩

end Store

/-! ## The two lists -/

section Lists

variable {qsort : Qsort Nat} {maxFiles maxBytes : Nat} {client : Int} {s : FileStorage}
  {disk : Disk} {rounds : Nat} {destdir wbdir : Option (List UInt8)}

theorem idle_turns (n : Nat) (v : World FileStorage Mutex) :
    Idle (serverTurns qsort client n) v [] := by
  cases n with
  | zero => exact idle_ret true v []
  | succ n => exact idle_serverTurns

/-- A client that has come to its end and a server that waits for a request,
with nothing on its way. -/
def atRest {α : Type} (qsort : Qsort Nat) (client : Int) (r : α) (saved : Saved)
    (s : FileStorage) (n : Nat) : Talk Saved Empty α FileStorage Mutex Bool :=
  ⟨.ret r, ⟨saved, ∅⟩, serverTurns qsort client n, ⟨s, ∅⟩, [], []⟩

theorem settled_atRest {α : Type} (r : α) (saved : Saved) (s : FileStorage) (n : Nat) :
    (atRest qsort client r saved s n).Settled :=
  settled_iff.mpr ⟨idle_ret r _ _, idle_turns n _⟩

/-- A client's program on a connection with nothing on it, and a server that
takes up to `n` turns. -/
def atStart {α : Type} (qsort : Qsort Nat) (client : Int) (p : ClientM α) (saved : Saved)
    (s : FileStorage) (n : Nat) : Talk Saved Empty α FileStorage Mutex Bool :=
  ⟨p, ⟨saved, ∅⟩, serverTurns qsort client n, ⟨s, ∅⟩, [], []⟩

theorem exchanges_ends {α : Type} {p : ClientM α} {r : α} {saved saved' : Saved}
    {s' : FileStorage} {k : Nat}
    (h : Exchanges (serverTurns qsort client) k p ⟨saved, ∅⟩ ⟨s, ∅⟩ r ⟨saved', ∅⟩ ⟨s', ∅⟩)
    (n : Nat) {c : Talk Saved Empty α FileStorage Mutex Bool}
    (hr : Reach (atStart qsort client p saved s (n + k)) c) :
    Reach c (atRest qsort client r saved' s' n) :=
  (h n).ends (settled_atRest r saved' s' n) hr

variable (qsort rounds wbdir) in
/-- `write_files_list` from any state the storage can be in, for new files that
fit: it comes to the one end where all of them are stored and closed. -/
theorem write_files_list_stores (hwf : s.WellFormed) (hclient : 0 < client)
    (files : List LocalFile) (hstorable : ∀ f ∈ files, f.Storable disk)
    (hapart : files.Pairwise fun f g => Apart f.path g.path)
    (hnew : ∀ f ∈ files, ∀ a ∈ s.ptrs, Apart f.path (s.file a).path)
    (hfiles : s.currFiles + files.length ≤ s.maxFiles)
    (hbytes : s.currBytes + (files.map (·.data.length)).sum ≤ s.maxBytes)
    (saved : Saved) (n : Nat) :
    ∃ s', Stored files s s' ∧
      ∀ c, Reach (atStart qsort client (Connected.writeFilesList disk rounds wbdir
          (files.map LocalFile.path)) saved s (n + 3 * files.length)) c →
        Reach c (atRest qsort client 0 saved s' n) := by
  obtain ⟨s', hs, hlist⟩ := exchanges_writeFilesList qsort ⟨saved, ∅⟩ rounds wbdir
    (by omega : client ≠ 0) files hstorable hapart hwf hnew hfiles hbytes
  exact ⟨s', hs, fun c hr => exchanges_ends hlist n hr⟩

end Lists

/-- The files "a" and "b" into a server with room for two. -/
theorem write_files_list_stores_ab : ∃ s s', Stored [⟨[97], [1]⟩, ⟨[98], [2, 3]⟩] s s' ∧
    ∀ c, Reach (atStart Qsort.insertion 5 (Connected.writeFilesList
        ⟨fun path => if path = [97] then some [1] else some [2, 3], fun _ => true⟩ 0 none
        [[97], [98]]) [] s 6) c →
      Reach c (atRest Qsort.insertion 5 0 [] s' 0) := by
  have hinit : fuInitFileStorage 2 10 = some ⟨_, _, _, _, _, _, _⟩ := rfl
  have hstorable : ∀ f ∈ [(⟨[97], [1]⟩ : LocalFile), ⟨[98], [2, 3]⟩], f.Storable
      ⟨fun path => if path = [97] then some [1] else some [2, 3], fun _ => true⟩ := by
    intro f hf
    rcases List.mem_pair.mp hf with rfl | rfl
    · exact ⟨⟨by decide, by decide, by decide⟩, rfl, by decide, by decide⟩
    · exact ⟨⟨by decide, by decide, by decide⟩, rfl, by decide, by decide⟩
  have hapart : [(⟨[97], [1]⟩ : LocalFile), ⟨[98], [2, 3]⟩].Pairwise
      fun f g => Apart f.path g.path :=
    List.pairwise_pair.mpr ⟨by decide, by decide⟩
  obtain ⟨s', hs, hends⟩ := write_files_list_stores Qsort.insertion 0 none
    (WellFormed.init (by decide) (by decide) hinit) (by decide : (0 : Int) < 5)
    [⟨[97], [1]⟩, ⟨[98], [2, 3]⟩] hstorable hapart (fun _ _ a ha => by cases ha) (by decide)
    (by decide) [] 0
  exact ⟨_, s', hs, hends⟩

end LsoStore
