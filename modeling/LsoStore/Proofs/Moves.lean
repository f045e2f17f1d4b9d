import Mathlib.Logic.Relation
import LsoStore.Proofs.Rules

/-!
# What a request does to the storage

Whatever its calls return, a handler changes the storage by a handful of
moves: it assigns to a record without touching its contents or its path, it
stores a new record under a path nothing was found at, it gives such a record
up again, it removes a path, or it writes to a record that is there.
`serve_moves` says so for every run of `serve`, also for one that ends in an
exit, a fault, or a lock that never comes. An invariant of the storage is then
a fact about the five moves.

`openedPath` is the one path a request can store a new file under: the path
an open request was read with.
-/

namespace LsoStore

open Proc FileStorage

/-- The path an open request named, as far as the run got to reading it. -/
def openedPath (request : SMessage) : List (Event Mutex) → Option (List UInt8)
  | .read _ (some buf) :: _ =>
      if opOf request = sapiOpenFile then some (cString buf) else none
  | _ => none

/-- One change of the storage; `opened` is the path it may add. -/
inductive Move (opened : Option (List UInt8)) (s : FileStorage) : FileStorage → Prop where
  | touch (a : Nat) (g : FileData → FileData) :
      (∀ f, (g f).data = f.data ∧ (g f).path = f.path) → Move opened s (s.modifyFile a g)
  | create (path : List UInt8) (f : FileData) : opened = some path →
      s.table.huGet path = none → f.data = [] →
      Move opened s ((s.place f).2.fuAddFile s.next path).2
  | discard (f : FileData) : Move opened s ((s.place f).2.fuFreeFileData s.next)
  | remove (path : List UInt8) : Move opened s (s.fuRemoveFile path).2
  | write (a i : Nat) (data : Option (List UInt8)) (r : Int) (s' : FileStorage) :
      s.heap a ≠ none → (∀ d, data = some d → d.length ≤ muLimit) →
      s.fuWritefile a i data = some (r, s') → Move opened s s'

/-- Any number of changes. -/
def Moves (opened : Option (List UInt8)) : FileStorage → FileStorage → Prop :=
  Relation.ReflTransGen (Move opened)

namespace Moves

variable {opened : Option (List UInt8)} {s s' s'' : FileStorage}

theorem refl (opened : Option (List UInt8)) (s : FileStorage) : Moves opened s s :=
  Relation.ReflTransGen.refl

theorem move (h : Moves opened s s') (hm : Move opened s' s'') : Moves opened s s'' :=
  Relation.ReflTransGen.tail h hm

theorem touch (h : Moves opened s s') (a : Nat) {g : FileData → FileData}
    (hg : ∀ f, (g f).data = f.data ∧ (g f).path = f.path) :
    Moves opened s (s'.modifyFile a g) := h.move (.touch a g hg)

theorem remove (h : Moves opened s s') (path : List UInt8) :
    Moves opened s (s'.fuRemoveFile path).2 := h.move (.remove path)

theorem getfile (h : Moves opened s s') (path : List UInt8) :
    Moves opened s (s'.fuGetfile path).2 := by
  rw [fuGetfile_snd]
  cases s'.table.huGet path with
  | none => exact h
  | some a => exact h.touch a fun _ => ⟨rfl, rfl⟩

theorem limits (h : Moves opened s s') : s'.maxFiles = s.maxFiles ∧ s'.maxBytes = s.maxBytes := by
  induction h with
  | refl => exact ⟨rfl, rfl⟩
  | tail _ hm ih =>
      rw [← ih.1, ← ih.2]
      cases hm with
      | touch a g hg => exact ⟨rfl, rfl⟩
      | create path f _ _ _ => exact fuAddFile_limits _ _ path
      | discard f => exact ⟨rfl, rfl⟩
      | remove path => exact fuRemoveFile_limits _ path
      | write a i data r _ _ _ hw => exact fuWritefile_limits _ a hw

end Moves

/-! ## What the handlers preserve

An invariant of the storage is preserved by a request if each thing a handler
does to a record preserves it, in the place where the handler does it: it takes
a file nobody has open, releases one that the client has open, gives up one of
either kind, and writes to one that the client had open when it looked. A
handler that stops short, at a mutex it waits for or where the process ends,
leaves less behind: an open request may have a record in its hands that is not
stored yet. -/

/-- `I` of the storage a run returned with, `J` of the one it stopped short with. -/
def Rests {α : Type} (I J : FileStorage → Prop) (_tr : List (Event Mutex)) (o : Out α)
    (w : World FileStorage Mutex) : Prop :=
  match o with
  | .ret _ => I w.st
  | _ => J w.st

section Rests

variable {α β : Type} {I I' J : FileStorage → Prop} {tr : List (Event Mutex)}
  {w : World FileStorage Mutex}

@[simp] theorem rests_ret {a : α} : Rests I J tr (.ret a) w ↔ I w.st := Iff.rfl

@[simp] theorem rests_blocked : Rests (α := α) I J tr .blocked w ↔ J w.st := Iff.rfl

@[simp] theorem rests_exit : Rests (α := α) I J tr .exit w ↔ J w.st := Iff.rfl

@[simp] theorem rests_fault : Rests (α := α) I J tr .fault w ↔ J w.st := Iff.rfl

theorem Rests.returns {o : Out α} (h : Rests I J tr o w) :
    Returns (fun w' => I w'.st) tr o w := by
  cases o with
  | ret a => exact h
  | blocked => trivial
  | exit => trivial
  | fault => trivial

/-- What the first half leaves is what the second half starts from. -/
theorem Ensures.bind_rests {p : ServerM α} {k : α → ServerM β}
    (hp : p.Ensures w (Rests I J))
    (hk : ∀ a w', I w'.st → (k a).Ensures w' (Rests I' J)) :
    (p >>= k).Ensures w (Rests I' J) := by
  refine ensures_bind.mpr (hp.mono fun tr o w' h => ?_)
  cases o with
  | ret a => exact hk a w' h
  | blocked => exact h
  | exit => exact h
  | fault => exact h

end Rests

/-- The request writes contents. -/
def Writes (request : SMessage) : Prop :=
  opOf request = sapiWriteFile ∨ opOf request = sapiAppendFile

theorem Writes.ne {request : SMessage} {op : BitVec 8} (h : Writes request)
    (hop : op ≠ sapiWriteFile ∧ op ≠ sapiAppendFile) : opOf request ≠ op := by
  intro heq
  rcases h with h | h
  · exact hop.1 (heq.symm.trans h)
  · exact hop.2 (heq.symm.trans h)

/-- Everything `request` may do preserves `I`. The first argument of `I` is the
path it may store a file under, `J` holds where the handler stops short, and
`W` of the files that it was granted to write to. -/
structure PreservedBy (request : SMessage) (client : Int)
    (I : Option (List UInt8) → FileStorage → Prop) (J : FileStorage → Prop)
    (W : Nat → Prop) : Prop where
  stops {o : Option (List UInt8)} {s : FileStorage} : I o s → J s
  stopsPlaced {o : Option (List UInt8)} {s : FileStorage} : opOf request = sapiOpenFile →
    I o s → J (s.place (.openedBy ⟨[], -1, 0, []⟩ request client)).2
  count {o : Option (List UInt8)} {s : FileStorage} (a : Nat) : I o s →
    I o (s.modifyFile a fun f => { f with dataInfo := f.dataInfo + 1 })
  take {s : FileStorage} {path : List UInt8} {a : Nat} {f : FileData} :
    opOf request = sapiOpenFile → I (some path) s → s.table.huGet path = some a →
    s.heap a = some f → f.client = -1 →
    I (some path) (s.modifyFile a (·.openedBy request client))
  create {s : FileStorage} {path : List UInt8} : opOf request = sapiOpenFile →
    I (some path) s → s.table.huGet path = none →
    I (some path)
      ((s.place (.openedBy ⟨[], -1, 0, []⟩ request client)).2.fuAddFile s.next path).2
  discard {o : Option (List UInt8)} {s : FileStorage} : opOf request = sapiOpenFile → I o s →
    I o ((s.place (.openedBy ⟨[], -1, 0, []⟩ request client)).2.fuFreeFileData s.next)
  release {o : Option (List UInt8)} {s : FileStorage} {a : Nat} {f : FileData} :
    opOf request = sapiCloseFile → I o s → s.heap a = some f → f.client = client →
    I o (s.modifyFile a fun f => { f with client := -1 })
  remove {o : Option (List UInt8)} {s : FileStorage} (path : List UInt8) :
    opOf request = sapiRemoveFile → I o s → I o (s.fuRemoveFile path).2
  giveUp {o : Option (List UInt8)} {s : FileStorage} {a : Nat} {f : FileData} :
    Writes request → I o s → s.heap a = some f → f.client = -1 ∨ f.client = client →
    I o ((s.modifyFile a fun f => { f with client := -2 }).fuRemoveFile f.path).2
  grant {o : Option (List UInt8)} {s : FileStorage} {a : Nat} {f : FileData} :
    Writes request → I o s → s.heap a = some f → f.client = client → W a
  write {o : Option (List UInt8)} {s s' : FileStorage} {a i : Nat}
    {data : Option (List UInt8)} {r : Int} : Writes request → W a → I o s →
    s.heap a ≠ none → (∀ d, data = some d → d.length ≤ muLimit) →
    s.fuWritefile a i data = some (r, s') → I o s'

section Handlers

variable {request : SMessage} {client : Int} {I : Option (List UInt8) → FileStorage → Prop}
  {J : FileStorage → Prop} {W : Nat → Prop} {o : Option (List UInt8)} {w : World FileStorage Mutex}

theorem PreservedBy.getfile (hI : PreservedBy request client I J W) {s : FileStorage}
    (h : I o s) (path : List UInt8) : I o (s.fuGetfile path).2 := by
  rw [fuGetfile_snd]
  cases s.table.huGet path with
  | none => exact h
  | some a => exact hI.count a h

/-- Sending changes nothing here. -/
theorem sapiRespond_same {I : FileStorage → Prop} (hc : client ≠ 0) (m : SMessage)
    (r : Int) (h : I w.st) : (sapiRespond m client (.ret r)).Ensures w (Rests I J) := by
  rw [ensures_sapiRespond hc]
  exact ⟨h, by simpa using h⟩

theorem sendBlock_same {I : FileStorage → Prop} (bs : List UInt8) (h : I w.st) :
    (sendBlock bs).Ensures w (Rests I J) := by
  simpa [sendBlock] using h

theorem serverSendPath_same {I : FileStorage → Prop} (hc : client ≠ 0)
    (path : List UInt8) (h : I w.st) : (serverSendPath client path).Ensures w (Rests I J) := by
  rw [serverSendPath, if_neg hc]
  exact sendBlock_same path h

theorem serverSendData_same {I : FileStorage → Prop} (data : List UInt8) (h : I w.st) :
    (serverSendData client data).Ensures w (Rests I J) := by
  rw [serverSendData]
  split
  · simpa using h
  · exact sendBlock_same data h

theorem readNFilesLoop_preserves (hI : PreservedBy request client I J W) (hc : client ≠ 0)
    (items : List (List UInt8 × Nat)) (nFiles : Nat) (h : I o w.st) :
    (readNFilesLoop client items nFiles).Ensures w (Rests (I o) J) := by
  have hend : ∀ w, I o w.st → (readNFilesEnd).Ensures w (Rests (I o) J) := by
    intro w h
    simp only [readNFilesEnd, ensures_unlock, ensures_write, ensures_ret]
    exact fun _ => h
  induction items generalizing nFiles w with
  | nil => exact hend w h
  | cons hi items ih =>
      obtain ⟨fileName, file⟩ := hi
      rw [readNFilesLoop]
      split
      · exact hend w h
      · rw [ensures_deref]
        refine ⟨fun _ => hI.stops h, fun _ _ => ensures_trylock.mpr ⟨ih nFiles h, fun _ => ?_⟩⟩
        rw [ensures_deref]
        refine ⟨fun _ => hI.stops h, fun f _ => ?_⟩
        split
        · rw [ensures_assign]
          have ht := hI.count file h
          refine Ensures.bind_rests (serverSendPath_same hc _ ht) fun r w h => ?_
          split
          · exact sapiRespond_same hc _ _ h
          · refine Ensures.bind_rests (serverSendData_same _ h) fun r w h => ?_
            split
            · exact sapiRespond_same hc _ _ h
            · exact ih _ h
        · exact ih nFiles h

theorem evictFile_preserves (hI : PreservedBy request client I J W) (hop : Writes request)
    (hc : client ≠ 0) (sendFilesBack : Bool) {a : Nat} {f : FileData}
    (hf : w.st.heap a = some f) (howner : f.client = -1 ∨ f.client = client) (h : I o w.st) :
    (evictFile client sendFilesBack a f).Ensures w (Rests (I o) J) := by
  rw [evictFile]
  split
  · rw [ensures_serverRespond_bind hc]
    refine ⟨by simpa using h, ?_⟩
    set K : FileStorage → Prop := fun s => I o s ∧ s.heap a = some f
    have hK : K w.st := ⟨h, hf⟩
    refine Ensures.bind_rests (serverSendPath_same hc _ hK) fun _ w (hK : K w.st) =>
      Ensures.bind_rests (serverSendData_same _ hK) fun _ w (hK : K w.st) => ?_
    simpa using hI.giveUp hop hK.1 hK.2 howner
  · simpa using hI.giveUp hop h hf howner

theorem evictLoop_preserves (hI : PreservedBy request client I J W) (hop : Writes request)
    (hc : client ≠ 0) (sendFilesBack : Bool) (slots : List (Option Nat)) (bytesToFree : Nat)
    (h : I o w.st) :
    (evictLoop client sendFilesBack slots bytesToFree).Ensures w
      (Rests (I o) J) := by
  induction slots generalizing bytesToFree w with
  | nil => simpa [evictLoop] using h
  | cons slot slots ih =>
      cases slot with
      | none =>
          rw [evictLoop]
          split <;> simp [h, hI.stops h]
      | some a =>
          rw [evictLoop]
          split
          · simpa using h
          · rw [ensures_deref]
            refine ⟨fun _ => hI.stops h, fun _ _ => ensures_trylock.mpr ⟨ih _ h, fun _ => ?_⟩⟩
            rw [ensures_deref]
            refine ⟨fun _ => hI.stops h, fun f hf => ?_⟩
            split
            · exact ih _ h
            · next howner =>
                have howner : f.client = -1 ∨ f.client = client := by tauto
                refine Ensures.bind_rests (evictFile_preserves hI hop hc _ hf howner h)
                  fun b w h => ?_
                cases b with
                | false => simpa using h
                | true => exact ih _ h

theorem serverEvict_preserves (hI : PreservedBy request client I J W) (hop : Writes request)
    (qsort : Qsort Nat) (hc : client ≠ 0) (bytesToFree : Nat) (h : I o w.st) :
    (serverEvict qsort client bytesToFree).Ensures w (Rests (I o) J) := by
  rw [serverEvict, ensures_get]
  cases w.st.fuEvictFiles qsort bytesToFree with
  | none => simpa using hI.stops h
  | some evictArr =>
      dsimp only
      split
      · simpa using h
      · rw [ensures_serverRespond_bind hc]
        refine ⟨by simpa using h, ?_⟩
        refine Ensures.bind_rests (I := I o) ?_ fun len w h =>
          Ensures.bind_rests (evictLoop_preserves hI hop hc _ _ _ h) fun rest w h => ?_
        · simp only [serverGetLen, hc, if_false, ensures_read]
          intro r _
          cases r with
          | none => simpa using h
          | some bs =>
              dsimp only
              split <;> simpa using h
        · cases rest with
          | none => simpa using h
          | some rest =>
              dsimp only
              split <;> exact sapiRespond_same hc _ _ h

theorem receiveData_preserves (hI : PreservedBy request client I J W) (hop : Writes request)
    (hc : client ≠ 0) {file : Nat} (hW : W file) (dataLen : Nat) (offset : FileData → Nat)
    (h : I o w.st) :
    (receiveData client file dataLen offset).Ensures w (Rests (I o) J) := by
  rw [receiveData, ensures_muCalloc]
  refine ⟨fun _ => hI.stops h, fun hlim => ?_⟩
  rw [ensures_read]
  intro r hr
  cases r with
  | none =>
      rw [ensures_unlock, ensures_serverRespond_bind hc]
      simpa using h
  | some bs =>
      dsimp only
      rw [ensures_deref]
      refine ⟨fun _ => hI.stops h, fun f hf => ?_⟩
      rw [ensures_get]
      set data := if dataLen = 0 then none
        else some (bs ++ List.replicate (dataLen - bs.length) 0) with hdata
      have hlen : ∀ d, data = some d → d.length ≤ muLimit := by
        intro d hd
        rw [hdata] at hd
        split at hd
        · cases hd
        · have hbs : bs.length ≤ dataLen := fits_some.mp hr
          injection hd with hd
          rw [← hd, List.length_append, List.length_replicate]
          omega
      cases hw : w.st.fuWritefile file (offset f) data with
      | none => simpa using hI.stops h
      | some res =>
          obtain ⟨err, s'⟩ := res
          have h' : I o s' := hI.write hop hW h (by simp [hf]) hlen hw
          dsimp only
          rw [ensures_set]
          split
          · rw [ensures_unlock, ensures_serverRespond_bind hc]
            simpa using h'
          · rw [ensures_serverRespond_bind hc]
            simpa using h'

theorem serverMakeRoom_preserves (hI : PreservedBy request client I J W) (hop : Writes request)
    (qsort : Qsort Nat) (offset : FileData → Nat) (hc : client ≠ 0) {file : Nat}
    (hW : W file) (dataLen : Nat) (h : I o w.st) :
    (serverMakeRoom qsort offset client file dataLen).Ensures w
      (Rests (I o) J) := by
  rw [serverMakeRoom, ensures_get]
  split
  · refine Ensures.bind_rests (serverEvict_preserves hI hop qsort hc _ h) fun r w h => ?_
    split
    · exact sapiRespond_same hc _ _ h
    · exact receiveData_preserves hI hop hc hW dataLen offset h
  · rw [ensures_serverRespond_bind hc]
    exact ⟨by simpa using h, receiveData_preserves hI hop hc hW dataLen offset h⟩

theorem serverWriteAt_preserves (hI : PreservedBy request client I J W) (hop : Writes request)
    (qsort : Qsort Nat) (offset : FileData → Nat) (h : I o w.st) :
    (serverWriteAt qsort offset request client).Ensures w (Rests (I o) J) := by
  refine Ensures.withPath rfl h (hI.stops h) (fun _ => h) fun hc buf => ?_
  refine ensures_lock.mpr ⟨fun _ => hI.stops h, fun _ => ?_⟩
  rw [ensures_getfile]
  dsimp only
  have hg := hI.getfile h (cString buf)
  cases hf : w.st.table.huGet (cString buf) with
  | none => exact sapiRespond_same hc _ _ hg
  | some file =>
      refine Ensures.lockFile (fun _ => hI.stops hg) (fun _ => hI.stops hg) fun _ f hf => ?_
      split
      · exact sapiRespond_same hc _ _ hg
      · next howner =>
          have hW := hI.grant hop hg hf (not_not.mp howner)
          rw [ensures_checkReadResponse hc]
          exact ⟨fun _ => serverMakeRoom_preserves hI hop qsort offset hc hW _ hg,
            fun bs _ => ⟨fun _ _ => hg,
              fun _ => serverMakeRoom_preserves hI hop qsort offset hc hW _ hg⟩⟩

/-- The only handler that adds a path. -/
theorem serverOpenFile_preserves (hI : PreservedBy request client I J W)
    (hop : opOf request = sapiOpenFile) (h : ∀ o, I o w.st) :
    (serverOpenFile request client).Ensures w
      fun tr => Rests (I (openedPath request tr)) J tr := by
  refine Ensures.withPath rfl (h _) (hI.stops (h none)) (fun _ => h _) fun hc buf => ?_
  have hopened : ∀ tr, openedPath request
      (.read (lenOf request) (some buf) :: tr) = some (cString buf) := fun tr => by
    simp [openedPath, hop]
  simp only [hopened, ensures_getfile]
  have hg := hI.getfile (h (some (cString buf))) (cString buf)
  cases hfound : w.st.table.huGet (cString buf) with
  | none =>
      have hst : (w.st.fuGetfile (cString buf)).2 = w.st := by
        rw [fuGetfile_snd, hfound]
      rw [hst]
      dsimp only
      split
      · exact sapiRespond_same hc _ _ (h _)
      · rw [ensures_serverCreateFile hc]
        refine ⟨fun _ => ?_, fun _ => ⟨fun _ _ => ?_, fun _ _ => ?_⟩⟩
        · exact hI.stopsPlaced hop (h none)
        · exact hI.discard hop (h _)
        · exact hI.create hop (h _) hfound
  | some file =>
      refine Ensures.lockFile (fun _ => hI.stops hg) (fun _ => hI.stops hg) fun _ f hf => ?_
      split
      · exact sapiRespond_same hc _ _ hg
      · next hfree =>
          rw [ensures_takeOwnership]
          have htable : (w.st.fuGetfile (cString buf)).2.table.huGet (cString buf) =
              some file := by rwa [fuGetfile_table]
          exact sapiRespond_same hc _ _ (hI.take hop hg htable hf (not_not.mp hfree))

theorem serverCloseFile_preserves (hI : PreservedBy request client I J W)
    (hop : opOf request = sapiCloseFile) (h : I o w.st) :
    (serverCloseFile request client).Ensures w (Rests (I o) J) := by
  refine Ensures.withPath rfl h (hI.stops h) (fun _ => h) fun hc buf => ?_
  rw [ensures_getfile]
  have hg := hI.getfile h (cString buf)
  cases w.st.table.huGet (cString buf) with
  | none => exact sapiRespond_same hc _ _ hg
  | some file =>
      refine Ensures.lockFile (fun _ => hI.stops hg) (fun _ => hI.stops hg) fun _ f hf => ?_
      split
      · exact sapiRespond_same hc _ _ hg
      · next howner =>
          rw [ensures_assign]
          exact sapiRespond_same hc _ _ (hI.release hop hg hf (not_not.mp howner))

theorem serverReadFile_preserves (hI : PreservedBy request client I J W) (h : I o w.st) :
    (serverReadFile request client).Ensures w (Rests (I o) J) := by
  refine Ensures.withPath rfl h (hI.stops h) (fun _ => h) fun hc buf => ?_
  rw [ensures_getfile]
  have hg := hI.getfile h (cString buf)
  cases w.st.table.huGet (cString buf) with
  | none => exact sapiRespond_same hc _ _ hg
  | some file =>
      refine Ensures.lockFile (fun _ => hI.stops hg) (fun _ => hI.stops hg) fun _ f _ => ?_
      split
      · exact sapiRespond_same hc _ _ hg
      · rw [ensures_sapiRespond hc]
        exact ⟨hg, Ensures.bind_rests (serverSendData_same _ hg) fun _ _ h => by
          simpa using h⟩

theorem serverReadNFiles_preserves (hI : PreservedBy request client I J W) (h : I o w.st) :
    (serverReadNFiles request client).Ensures w (Rests (I o) J) := by
  rw [serverReadNFiles]
  split
  · simpa using h
  · next hmc =>
      refine ensures_lock.mpr ⟨fun _ => hI.stops h, fun _ => ?_⟩
      rw [ensures_get]
      exact readNFilesLoop_preserves hI (not_or.mp hmc).2 _ _ h

theorem serverRemoveFile_preserves (hI : PreservedBy request client I J W)
    (hop : opOf request = sapiRemoveFile) (h : I o w.st) :
    (serverRemoveFile request client).Ensures w (Rests (I o) J) := by
  refine Ensures.withPath rfl h (hI.stops h) (fun _ => h) fun hc buf => ?_
  refine ensures_lock.mpr ⟨fun _ => hI.stops h, fun _ => ?_⟩
  rw [ensures_getfile]
  have hg := hI.getfile h (cString buf)
  dsimp only
  cases w.st.table.huGet (cString buf) with
  | none => exact sapiRespond_same hc _ _ hg
  | some file =>
      refine Ensures.lockFile (fun _ => hI.stops hg) (fun _ => hI.stops hg) fun _ f _ => ?_
      split
      · exact sapiRespond_same hc _ _ hg
      · rw [ensures_unlock, ensures_unspec]
        intro freed
        rw [ensures_removefile]
        exact sapiRespond_same hc _ _ (hI.remove (cString freed) hop hg)

/-- An invariant that a request preserves holds where it returns. -/
theorem serve_preserves (qsort : Qsort Nat) (hI : PreservedBy request client I J W)
    (h : ∀ o, I o w.st) :
    (serve qsort request client).Ensures w
      fun tr => Rests (I (openedPath request tr)) J tr := by
  have hother : ∀ p : ServerM Int,
      (∀ o, p.Ensures w (Rests (I o) J)) →
      p.Ensures w fun tr => Rests (I (openedPath request tr)) J tr :=
    fun p hp tr o w' hr => hp (openedPath request tr) tr o w' hr
  refine Ensures.serve_cases (fun hop => serverOpenFile_preserves hI hop h)
    (fun hop => hother _ fun o => serverCloseFile_preserves hI hop (h o))
    (fun _ => hother _ fun o => serverReadFile_preserves hI (h o))
    (fun _ => hother _ fun o => serverReadNFiles_preserves hI (h o))
    (fun hop => hother _ fun o => serverWriteAt_preserves hI (.inl hop) qsort _ (h o))
    (fun hop => hother _ fun o => serverWriteAt_preserves hI (.inr hop) qsort _ (h o))
    (fun _ => h _)
    (fun hop => hother _ fun o => serverRemoveFile_preserves hI hop (h o))
    (fun _ => ?_)
  split
  · exact h _
  · exact fun _ => h _

/-! ## The moves -/

theorem moves_preservedBy (s : FileStorage) :
    PreservedBy request client (fun o s' => Moves o s s') (fun _ => True) fun _ => True where
  stops _ := trivial
  stopsPlaced _ _ := trivial
  count a h := h.touch a fun _ => ⟨rfl, rfl⟩
  take _ h _ _ _ := h.touch _ fun _ => ⟨rfl, rfl⟩
  create _ h hn := h.move (.create _ _ rfl hn rfl)
  discard _ h := h.move (.discard _)
  release _ h _ _ := h.touch _ fun _ => ⟨rfl, rfl⟩
  remove path _ h := h.remove path
  giveUp _ h _ _ :=
    (h.touch _ (g := fun f => { f with client := -2 }) fun _ => ⟨rfl, rfl⟩).remove _
  grant _ _ _ _ := trivial
  write _ _ h ha hlen hw := h.move (.write _ _ _ _ _ ha hlen hw)

/-- An eviction is part of a writing request. -/
theorem serverEvict_moves (qsort : Qsort Nat) (hc : client ≠ 0) (bytesToFree : Nat) :
    (serverEvict qsort client bytesToFree).Ensures w
      (Returns fun w' => Moves none w.st w'.st) :=
  (serverEvict_preserves (moves_preservedBy w.st)
    (show Writes (sapiMessageLen 0 sapiWriteFile 0) from .inl (by decide)) qsort hc bytesToFree
    (Moves.refl none w.st)).mono fun _ _ _ => Rests.returns

/-- What any request does to the storage before it returns. -/
theorem serve_moves (qsort : Qsort Nat) (request : SMessage) (client : Int) :
    (serve qsort request client).Ensures w
      fun tr => Returns (fun w' => Moves (openedPath request tr) w.st w'.st) tr :=
  (serve_preserves qsort (moves_preservedBy w.st) fun o => Moves.refl o w.st).mono
    fun _ _ _ => Rests.returns

end Handlers

end LsoStore
