import LsoStore.Proofs.Writers

/-!
# What every section keeps

A property of the world that locking, unlocking and each change of the storage
keep is kept by whole sections, up to the one in which a handler writes to the
file that it was granted: that one is left to the property in question.

A section changes a file only after locking it. What can be said of a file that
was free then is the second argument.
-/

namespace LsoStore

open Proc FileStorage

/-- Where `p` returns, `K` holds. -/
abbrev Leaves {α : Type} (p : ServerM α) (w : World FileStorage Mutex)
    (K : World FileStorage Mutex → Prop) : Prop :=
  p.Ensures w fun _ o w' => ∀ r, o = .ret r → K w'

/-- Whatever a section does that removes no file keeps `K`, and `Own` holds of a
file whose mutex it could take. -/
structure KeptByLocking (K : World FileStorage Mutex → Prop) (Own : Nat → Prop) : Prop where
  own {w : World FileStorage Mutex} {a : Nat} : K w → Mutex.file a ∉ w.held → Own a
  lock {w : World FileStorage Mutex} (m : Mutex) : K w → K { w with held := insert m w.held }
  unlockStorage {w : World FileStorage Mutex} : K w →
    K { w with held := w.held.erase .storage }
  unlockFile {w : World FileStorage Mutex} {a : Nat} : K w → Own a →
    K { w with held := w.held.erase (.file a) }
  count {w : World FileStorage Mutex} (a : Nat) : K w →
    K { w with st := w.st.modifyFile a fun f => { f with dataInfo := f.dataInfo + 1 } }
  touch {w : World FileStorage Mutex} {a : Nat} {g : FileData → FileData} : K w → Own a →
    (∀ f, (g f).data = f.data ∧ (g f).path = f.path ∧ (g f).client ≠ 0) →
    K { w with st := w.st.modifyFile a g }

/-- So does removing a file, whichever it is. -/
structure KeptBySections (K : World FileStorage Mutex → Prop) (Own : Nat → Prop) : Prop
    extends KeptByLocking K Own where
  remove {w : World FileStorage Mutex} (path : List UInt8) : K w →
    K { w with st := (w.st.fuRemoveFile path).2 }

/-- So does making a file for `client` under `path`, or failing to. -/
structure KeptByCreation (K : World FileStorage Mutex → Prop) (w : World FileStorage Mutex)
    (client : Int) (path : List UInt8) : Prop where
  create (f : FileData) : f.data = [] → f.client = client →
    K { w with st := ((w.st.place f).2.fuAddFile w.st.next path).2 }
  discard (f : FileData) : f.data = [] → f.client = client →
    K { w with st := (w.st.place f).2.fuFreeFileData w.st.next }

/-- An opening makes the file if it does not find it. -/
def Handler.creates (h : Handler) : Bool :=
  match h.kind with
  | .openFile message => hasFlag message oCreate
  | _ => false

/-- Opening, closing and reading begin with a lookup and nothing else. -/
def Handler.Looks (h : Handler) : Prop :=
  match h.kind with
  | .openFile _ | .closeFile | .readFile => True
  | _ => False

theorem Handler.Looks.kinds {h : Handler} (hlooks : h.Looks) :
    (∃ message, h.kind = .openFile message) ∨ h.kind = .closeFile ∨ h.kind = .readFile := by
  rw [Looks] at hlooks
  cases hkind : h.kind with
  | openFile message => exact .inl ⟨message, rfl⟩
  | closeFile => exact .inr (.inl rfl)
  | readFile => exact .inr (.inr rfl)
  | writeFile => rw [hkind] at hlooks; cases hlooks
  | appendToFile => rw [hkind] at hlooks; cases hlooks
  | removeFile => rw [hkind] at hlooks; cases hlooks

/-- What a handler begins with: it looks its file up, it gets as far as to tell its client
to send, or it removes the file. -/
theorem Handler.Acts.begun_cases {qsort : Qsort Nat} {h : Handler} {tr : List (Event Mutex)}
    {w w' : World FileStorage Mutex} {t' : Stage} (ha : h.Acts qsort tr w .begun w' t') :
    (h.Looks ∧ tr = [] ∧ w' = { w with st := (w.st.fuGetfile h.path).2 } ∧
        t' = .looked (w.st.table.huGet h.path)) ∨
      ((h.kind = .writeFile ∨ h.kind = .appendToFile) ∧
        (LsoStore.writeSection qsort h.client h.path).Runs w tr (.ret t') w') ∨
      (h.kind = .removeFile ∧ ∃ r, t' = .returned r ∧
        (LsoStore.removeSection h.client h.path).Runs w tr (.ret r) w') := by
  have hlook (hrun : (LsoStore.getfile h.path fun file => .ret (.looked file) :
      ServerM Stage).Runs w
      tr (.ret t') w') : tr = [] ∧ w' = { w with st := (w.st.fuGetfile h.path).2 } ∧
        t' = .looked (w.st.table.huGet h.path) := by
    have hend : (LsoStore.getfile h.path fun file => .ret (.looked file) : ServerM Stage).Ensures w
        fun tr o w' => tr = [] ∧ w' = { w with st := (w.st.fuGetfile h.path).2 } ∧
          o = .ret (.looked (w.st.table.huGet h.path)) := by
      rw [ensures_getfile, ensures_ret]
      exact ⟨rfl, rfl, rfl⟩
    obtain ⟨htr, hw', ho⟩ := hend tr _ w' hrun
    injection ho with ho
    exact ⟨htr, hw', ho⟩
  have hruns := ha.runs
  rw [Handler.next, Handler.first] at hruns
  rw [Handler.Looks]
  cases hkind : h.kind with
  | openFile message => exact .inl ⟨trivial, hlook (by rwa [hkind] at hruns)⟩
  | closeFile => exact .inl ⟨trivial, hlook (by rwa [hkind] at hruns)⟩
  | readFile => exact .inl ⟨trivial, hlook (by rwa [hkind] at hruns)⟩
  | writeFile => exact .inr (.inl ⟨.inl rfl, by rwa [hkind] at hruns⟩)
  | appendToFile => exact .inr (.inl ⟨.inr rfl, by rwa [hkind] at hruns⟩)
  | removeFile =>
      rw [hkind] at hruns
      exact .inr (.inr ⟨rfl, runs_of_returning hruns⟩)

section Leaves

variable {α β : Type} {p : ServerM α} {w : World FileStorage Mutex}
  {K : World FileStorage Mutex → Prop}

theorem Leaves.bind {k : α → ServerM β} (hp : Leaves p w K)
    (hk : ∀ a w', K w' → Leaves (k a) w' K) : Leaves (p >>= k) w K := by
  refine ensures_bind.mpr (hp.mono fun tr o w' h => ?_)
  cases o with
  | ret a => exact hk a w' (h a rfl)
  | exit => exact fun r hr => by cases hr
  | fault => exact fun r hr => by cases hr
  | blocked => exact fun r hr => by cases hr

theorem leaves_ret {a : α} (h : K w) : Leaves (.ret a) w K := ensures_ret.mpr fun _ _ => h

theorem leaves_returning {p : ServerM Int} (h : Leaves p w K) : Leaves (returning p) w K :=
  h.bind fun _ _ h => leaves_ret h

theorem leaves_respond {client : Int} {message : SMessage} (hc : client ≠ 0) {r : Int}
    (h : K w) : Leaves (sapiRespond message client (.ret r)) w K := by
  rw [Leaves, ensures_sapiRespond hc, ensures_ret]
  exact ⟨fun _ _ => h, fun _ _ => h⟩

/-- A handler that ends was granted nothing. -/
theorem returning_ungranted {p : ServerM Int} :
    (returning p).Ensures w fun _ o _ => ∀ b m, o ≠ .ret (.granted b m) := by
  refine ensures_bind.mpr fun tr o w' _ => ?_
  cases o with
  | ret r => exact ensures_ret.mpr fun b m h => by cases h
  | exit => exact fun b m h => by cases h
  | fault => exact fun b m h => by cases h
  | blocked => exact fun b m h => by cases h

end Leaves

namespace KeptByLocking

variable {K : World FileStorage Mutex → Prop} {Own : Nat → Prop} {w : World FileStorage Mutex}
  {a : Nat} {client : Int} {message : SMessage} {path : List UInt8} {qsort : Qsort Nat}

theorem getfile (hK : KeptByLocking K Own) (h : K w) (path : List UInt8) :
    K { w with st := (w.st.fuGetfile path).2 } := by
  rw [fuGetfile_snd]
  cases w.st.table.huGet path with
  | none => exact h
  | some a => exact hK.count a h

/-- A section goes on with a file only if it could lock it and it is there. -/
theorem lockFile (hK : KeptByLocking K Own) {α : Type} {k : FileData → ServerM α} (h : K w)
    (hk : Own a → ∀ f, Leaves (k f) { w with held := insert (.file a) w.held } K) :
    Leaves (Proc.lock (.file a) (deref a k)) w K :=
  Ensures.lockFile (fun _ r hr => by cases hr) (fun _ r hr => by cases hr)
    fun hfree f _ => hk (hK.own h hfree) f

/-! ## Opening, closing and reading -/

theorem openFound (hK : KeptByLocking K Own) (hc : client ≠ 0) (h : K w) (file : Option Nat)
    (hnew : file = none → hasFlag message oCreate = true → KeptByCreation K w client path) :
    Leaves (LsoStore.openFound message client path file) w K := by
  cases file with
  | none =>
      rw [LsoStore.openFound]
      cases hflag : hasFlag message oCreate with
      | false => exact leaves_respond hc h
      | true =>
          have hcreation := hnew rfl hflag
          show Leaves (serverCreateFile message client path) w K
          rw [Leaves, ensures_serverCreateFile hc]
          exact ⟨fun _ r hr => (by cases hr), fun _ =>
            ⟨fun _ _ _ _ => hcreation.discard _ rfl rfl, fun _ _ _ _ => hcreation.create _ rfl rfl⟩⟩
  | some file =>
      rw [LsoStore.openFound]
      refine hK.lockFile h fun hfile f => ?_
      have hlocked := hK.lock (.file file) h
      split
      · rw [Leaves, ensures_unlock]
        exact leaves_respond hc (hK.unlockFile hlocked hfile)
      · rw [Leaves, ensures_takeOwnership, ensures_unlock]
        have hopened := hK.touch (g := (·.openedBy message client)) hlocked hfile
          fun _ => ⟨rfl, rfl, hc⟩
        exact leaves_respond hc (hK.unlockFile hopened hfile)

theorem closeFound (hK : KeptByLocking K Own) (hc : client ≠ 0) (h : K w) (file : Option Nat) :
    Leaves (LsoStore.closeFound client file) w K := by
  cases file with
  | none =>
      rw [LsoStore.closeFound]
      exact leaves_respond hc h
  | some file =>
      rw [LsoStore.closeFound]
      refine hK.lockFile h fun hfile f => ?_
      have hlocked := hK.lock (.file file) h
      split
      · rw [Leaves, ensures_unlock]
        exact leaves_respond hc (hK.unlockFile hlocked hfile)
      · rw [Leaves, ensures_assign, ensures_unlock]
        have hclosed := hK.touch (g := fun f => { f with client := -1 }) hlocked hfile
          fun _ => ⟨rfl, rfl, (by decide : (-1 : Int) ≠ 0)⟩
        exact leaves_respond hc (hK.unlockFile hclosed hfile)

theorem readFound (hK : KeptByLocking K Own) (hc : client ≠ 0) (h : K w) (file : Option Nat) :
    Leaves (LsoStore.readFound client file) w K := by
  cases file with
  | none =>
      rw [LsoStore.readFound]
      exact leaves_respond hc h
  | some file =>
      rw [LsoStore.readFound]
      refine hK.lockFile h fun hfile f => ?_
      have hlocked := hK.lock (.file file) h
      split
      · rw [Leaves, ensures_unlock]
        exact leaves_respond hc (hK.unlockFile hlocked hfile)
      · rw [Leaves, ensures_sapiRespond hc]
        refine ⟨fun _ _ => hlocked, Ensures.serverSendData_bind fun _ _ _ => ?_⟩
        rw [ensures_unlock, ensures_ret]
        exact fun _ _ => hK.unlockFile hlocked hfile

theorem found (hK : KeptByLocking K Own) {h : Handler} (hc : h.client ≠ 0) (hw : K w)
    (file : Option Nat)
    (hnew : file = none → h.creates = true → KeptByCreation K w h.client h.path) :
    Leaves (h.found file) w K := by
  have hread : Leaves (LsoStore.readFound h.client file) w K := hK.readFound hc hw file
  rw [Handler.found]
  cases hkind : h.kind with
  | openFile message =>
      refine hK.openFound hc hw file fun hnone hflag => hnew hnone ?_
      rw [Handler.creates, hkind]
      exact hflag
  | closeFile => exact hK.closeFound hc hw file
  | readFile => exact hread
  | writeFile => exact hread
  | appendToFile => exact hread
  | removeFile => exact hread

end KeptByLocking

namespace KeptBySections

variable {K : World FileStorage Mutex → Prop} {Own : Nat → Prop} {w : World FileStorage Mutex}
  {a : Nat} {client : Int} {message : SMessage} {path : List UInt8} {qsort : Qsort Nat}

/-! ## Removing -/

theorem removeSection (hK : KeptBySections K Own) (hc : client ≠ 0) (h : K w) :
    Leaves (LsoStore.removeSection client path) w K := by
  rw [LsoStore.removeSection]
  refine ensures_lock.mpr ⟨fun _ r hr => (by cases hr), fun _ => ?_⟩
  rw [ensures_getfile]
  have hlooked := hK.getfile (hK.lock .storage h) path
  dsimp only at hlooked ⊢
  cases w.st.table.huGet path with
  | none =>
      dsimp only
      rw [ensures_unlock]
      exact leaves_respond hc (hK.unlockStorage hlooked)
  | some file =>
      dsimp only
      refine hK.lockFile hlooked fun hfile f => ?_
      have hfree := hK.unlockFile (hK.lock (.file file) hlooked) hfile
      split
      · rw [Leaves, ensures_unlock, ensures_unlock]
        exact leaves_respond hc (hK.unlockStorage hfree)
      · rw [Leaves, ensures_unlock, ensures_unspec]
        intro freed
        rw [ensures_removefile, ensures_unlock]
        exact leaves_respond hc (hK.unlockStorage (hK.remove _ hfree))

/-! ## Making room -/

theorem evictFile (hK : KeptBySections K Own) (hc : client ≠ 0) (sendFilesBack : Bool) (h : K w)
    (ha : Own a) (f : FileData) : Leaves (LsoStore.evictFile client sendFilesBack a f) w K := by
  have hgone := hK.unlockFile (hK.remove f.path (hK.touch
    (g := fun f => { f with client := -2 }) h ha
    fun _ => ⟨rfl, rfl, (by decide : (-2 : Int) ≠ 0)⟩)) ha
  rw [LsoStore.evictFile]
  split
  · rw [Leaves, ensures_serverRespond_bind hc]
    refine ⟨by simpa using h, ?_⟩
    refine Ensures.serverSendPath_bind fun _ _ _ => Ensures.serverSendData_bind fun _ _ _ => ?_
    simpa using hgone
  · simpa [Leaves] using hgone

theorem evictLoop (hK : KeptBySections K Own) (hc : client ≠ 0) (sendFilesBack : Bool)
    (slots : List (Option Nat)) (n : Nat) (h : K w) :
    Leaves (LsoStore.evictLoop client sendFilesBack slots n) w K := by
  induction slots generalizing n w with
  | nil => simpa [Leaves, LsoStore.evictLoop] using h
  | cons slot slots ih =>
      cases slot with
      | none =>
          rw [LsoStore.evictLoop]
          split
          · simpa [Leaves] using h
          · simp [Leaves]
      | some b =>
          rw [LsoStore.evictLoop]
          split
          · simpa [Leaves] using h
          rw [Leaves, ensures_deref]
          refine ⟨fun _ r hr => (by cases hr), fun _ _ => ensures_trylock.mpr
            ⟨ih n h, fun hfree => ?_⟩⟩
          have hb := hK.own h hfree
          have hlocked := hK.lock (.file b) h
          rw [ensures_deref]
          refine ⟨fun _ r hr => (by cases hr), fun f _ => ?_⟩
          split
          · rw [ensures_unlock]
            exact ih n (hK.unlockFile hlocked hb)
          · refine (hK.evictFile hc _ hlocked hb f).bind fun ok w' h => ?_
            cases ok with
            | false => exact leaves_ret h
            | true => exact ih _ h

theorem serverEvict (hK : KeptBySections K Own) (hc : client ≠ 0) (n : Nat) (h : K w) :
    Leaves (LsoStore.serverEvict qsort client n) w K := by
  refine Ensures.serverEvict hc (fun _ r hr => (by cases hr)) (fun _ _ _ _ _ => h)
    (fun _ _ _ _ _ => h) fun arr _ _ flag _ _ => ?_
  refine (hK.evictLoop hc flag arr.slots n h).bind fun rest w' h => ?_
  cases rest with
  | none => exact leaves_ret h
  | some rest =>
      rw [evictAnswer]
      split
      · exact leaves_respond hc h
      · exact leaves_respond hc h

/-! ## Writing -/

theorem grantRoom (hK : KeptBySections K Own) (hc : client ≠ 0) (h : K w) (ha : Own a) (n : Nat) :
    Leaves (LsoStore.grantRoom qsort client a n) w K := by
  rw [LsoStore.grantRoom, Leaves, ensures_get]
  split
  · refine (hK.serverEvict hc _ h).bind fun r w' h => ?_
    split
    · rw [Leaves, ensures_unlock, ensures_unlock]
      exact leaves_returning (leaves_respond hc (hK.unlockStorage (hK.unlockFile h ha)))
    · rw [Leaves, ensures_unlock]
      exact leaves_ret (hK.unlockStorage h)
  · rw [ensures_serverRespond_bind hc, if_pos (by decide), if_neg (by decide), ensures_unlock,
      ensures_unlock, ensures_ret, ensures_unlock, ensures_ret]
    exact ⟨fun _ _ => hK.unlockStorage (hK.unlockFile h ha), fun _ _ => hK.unlockStorage h⟩

theorem writeSection (hK : KeptBySections K Own) (hc : client ≠ 0) (h : K w) :
    Leaves (LsoStore.writeSection qsort client path) w K := by
  rw [LsoStore.writeSection]
  refine ensures_lock.mpr ⟨fun _ r hr => (by cases hr), fun _ => ?_⟩
  rw [ensures_getfile]
  have hlooked := hK.getfile (hK.lock .storage h) path
  dsimp only at hlooked ⊢
  cases w.st.table.huGet path with
  | none =>
      dsimp only
      rw [ensures_unlock]
      exact leaves_returning (leaves_respond hc (hK.unlockStorage hlooked))
  | some file =>
      dsimp only
      refine hK.lockFile hlooked fun hfile f => ?_
      have hlocked := hK.lock (.file file) hlooked
      split
      · rw [Leaves, ensures_unlock]
        exact leaves_returning (leaves_respond hc (hK.unlockFile hlocked hfile))
      · rw [Leaves, ensures_readLength hc]
        exact ⟨fun _ => hK.grantRoom hc hlocked hfile _, fun bs _ =>
          ⟨fun _ _ _ _ => hlocked, fun _ => hK.grantRoom hc hlocked hfile _⟩⟩

/-! ## Grants -/

/-- A handler that was granted a file has kept it locked while room was made. -/
theorem grants (hK : KeptBySections K Own) (hc : client ≠ 0) (h : K w) (n : Nat) :
    (LsoStore.grantRoom qsort client a n).Ensures w fun _ o w' =>
      ∀ b m, o = .ret (.granted b m) → b = a ∧ K w' := by
  have hgranted : ∀ {v : World FileStorage Mutex}, K v → ∀ b m,
      (Out.ret (.granted a n) : Out Stage) = .ret (.granted b m) →
      b = a ∧ K { v with held := v.held.erase .storage } := by
    intro v hv b m heq
    injection heq with heq
    injection heq with heq
    exact ⟨heq.symm, hK.unlockStorage hv⟩
  rw [LsoStore.grantRoom, ensures_get]
  split
  · refine ensures_bind.mpr ((hK.serverEvict hc _ h).mono fun tr o w' h => ?_)
    cases o with
    | ret r =>
        rw [After]
        split
        · rw [ensures_unlock, ensures_unlock]
          exact returning_ungranted.mono fun _ _ _ hne b m ho => absurd ho (hne b m)
        · rw [ensures_unlock, ensures_ret]
          exact hgranted (h r rfl)
    | exit => exact fun b m ho => by cases ho
    | fault => exact fun b m ho => by cases ho
    | blocked => exact fun b m ho => by cases ho
  · rw [ensures_serverRespond_bind hc, if_pos (by decide), if_neg (by decide), ensures_unlock,
      ensures_unlock, ensures_ret, ensures_unlock, ensures_ret]
    exact ⟨fun b m ho => (by cases ho), hgranted h⟩

/-! ## Whole sections -/

variable {h : Handler} {tr : List (Event Mutex)} {t t' : Stage} {w' : World FileStorage Mutex}

/-- Every section of a handler that was not granted a file before it keeps `K`, if
a file that it makes does. -/
theorem acts (hK : KeptBySections K Own) (hc : h.client ≠ 0) (ha : h.Acts qsort tr w t w' t')
    (ht : t.file = none)
    (hnew : t = .looked none → h.creates = true → KeptByCreation K w h.client h.path) (hw : K w) :
    K w' := by
  have hruns := ha.runs
  cases t with
  | begun =>
      rcases ha.begun_cases with ⟨-, -, rfl, -⟩ | ⟨-, hwrite⟩ | ⟨-, r, -, hremove⟩
      · exact hK.getfile hw h.path
      · exact hK.writeSection hc hw tr _ w' hwrite _ rfl
      · exact hK.removeSection hc hw tr _ w' hremove _ rfl
  | looked file =>
      obtain ⟨r, -, hrun⟩ := runs_of_returning hruns
      exact hK.found hc hw file (fun hnone => hnew (hnone ▸ rfl)) tr _ w' hrun _ rfl
  | granted a n => cases ht
  | returned r => exact absurd rfl (ha.active r)

end KeptBySections

end LsoStore
