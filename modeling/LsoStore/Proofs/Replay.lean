import LsoStore.Proofs.WellFormed

/-!
# What is in a file

The contents of a file are what its owners sent, and nothing else ever touches
them: they can be computed from the requests that were served, by going through
them from the first to the last. A write replaces what was there, an append adds
to it, and a request that was refused, or was for another file, leaves it alone.

A run of a writing request takes data exactly when the last three things it does
are to say that the client may send, to read what it sends, and to say that it
was stored. So what a request stored can be read off its calls.
-/

namespace LsoStore

open Proc FileStorage

/-! ## What a request stored -/

/-- What a read got. What is missing of it at the end is zero. -/
def readIn : Event Mutex → Option (List UInt8)
  | .read n (some bs) => some (bs ++ List.replicate (n - bs.length) 0)
  | _ => none

/-- The data taken in, from the calls that were made, the last one first. -/
def lastTaken : List (Event Mutex) → Option (List UInt8)
  | stored :: got :: granted :: _ =>
      if granted = .write (.word sapiSuccess) true ∧
          (stored = .write (.word sapiSuccess) true ∨ stored = .write (.word sapiSuccess) false)
      then readIn got
      else none
  | _ => none

/-- The data a writing request took in. -/
def taken (tr : List (Event Mutex)) : Option (List UInt8) := lastTaken tr.reverse

/-- Reading the path, or a length, is no part of it. -/
theorem taken_cons_read (tr : List (Event Mutex)) (n : Nat) (r : Option (List UInt8)) :
    taken (.read n r :: tr) = taken tr := by
  rw [taken, List.reverse_cons, taken]
  match tr.reverse with
  | [] => rfl
  | [e] => rfl
  | [e, e'] => simp [lastTaken]
  | e :: e' :: e'' :: tr => rfl

theorem taken_of_refused (tr : List (Event Mutex)) {m : SMessage} (ok : Bool)
    (hm : m ≠ sapiSuccess) : taken (tr ++ [.write (.word m) ok]) = none := by
  rw [taken, List.reverse_append, List.reverse_singleton, List.singleton_append]
  match tr.reverse with
  | [] => rfl
  | [e] => rfl
  | e :: e' :: tr =>
      refine if_neg fun h => hm ?_
      rcases h.2 with h | h
      · injection h with h
        injection h
      · injection h with h
        injection h

theorem taken_of_stored (tr : List (Event Mutex)) (n : Nat) (bs : List UInt8) (ok : Bool) :
    taken (tr ++ [.write (.word sapiSuccess) true, .read n (some bs),
      .write (.word sapiSuccess) ok]) = some (bs ++ List.replicate (n - bs.length) 0) := by
  rw [taken, List.reverse_append]
  refine if_pos ⟨rfl, ?_⟩
  cases ok with
  | true => exact .inl rfl
  | false => exact .inr rfl

/-- The file the request is for. -/
def ServedRequest.target (e : ServedRequest) : Option Nat :=
  match e.trace with
  | .read _ (some buf) :: _ => e.before.st.table.huGet (cString buf)
  | _ => none

/-- What becomes of the contents of the file at `a`. -/
def ServedRequest.edit (e : ServedRequest) (a : Nat) (old : List UInt8) : List UInt8 :=
  if e.target = some a then
    match taken e.trace with
    | none => old
    | some d =>
        if opOf e.request = sapiWriteFile then d
        else if opOf e.request = sapiAppendFile then old ++ d
        else old
  else old

/-! ## What a run does to the contents -/

/-- Every record of `s'` is one of `s` with its contents edited, or is new and
empty. -/
structure Edited (edit : Nat → List UInt8 → List UInt8) (s s' : FileStorage) : Prop where
  next : s.next ≤ s'.next
  data : ∀ a f', s'.heap a = some f' →
    (∃ f, s.heap a = some f ∧ f'.data = edit a f.data) ∨ (s.next ≤ a ∧ f'.data = [])

/-- Every record of `s'` is one of `s` with the same contents. -/
structure Shrinks (s s' : FileStorage) : Prop where
  next : s.next ≤ s'.next
  data : ∀ a f', s'.heap a = some f' → ∃ f, s.heap a = some f ∧ f'.data = f.data

section Edited

variable {edit : Nat → List UInt8 → List UInt8} {s s' s'' : FileStorage}

theorem Shrinks.refl (s : FileStorage) : Shrinks s s :=
  ⟨Nat.le_refl _, fun _ f' hf => ⟨f', hf, rfl⟩⟩

theorem Shrinks.trans (h : Shrinks s s') (h' : Shrinks s' s'') : Shrinks s s'' := by
  refine ⟨Nat.le_trans h.next h'.next, fun a f'' hf'' => ?_⟩
  obtain ⟨f', hf', hd'⟩ := h'.data a f'' hf''
  obtain ⟨f, hf, hd⟩ := h.data a f' hf'
  exact ⟨f, hf, hd'.trans hd⟩

theorem Shrinks.edited (h : Shrinks s s') (h' : Edited edit s' s'') : Edited edit s s'' := by
  refine ⟨Nat.le_trans h.next h'.next, fun a f'' hf'' => ?_⟩
  rcases h'.data a f'' hf'' with ⟨f', hf', hd'⟩ | ⟨hnew, hd⟩
  · obtain ⟨f, hf, hd⟩ := h.data a f' hf'
    exact .inl ⟨f, hf, hd ▸ hd'⟩
  · exact .inr ⟨Nat.le_trans h.next hnew, hd⟩

theorem Edited.shrinks (h : Edited edit s s') (h' : Shrinks s' s'') : Edited edit s s'' := by
  refine ⟨Nat.le_trans h.next h'.next, fun a f'' hf'' => ?_⟩
  obtain ⟨f', hf', hd'⟩ := h'.data a f'' hf''
  rcases h.data a f' hf' with ⟨f, hf, hd⟩ | ⟨hnew, hd⟩
  · exact .inl ⟨f, hf, hd'.trans hd⟩
  · exact .inr ⟨hnew, hd'.trans hd⟩

theorem Edited.refl (s : FileStorage) : Edited (fun _ old => old) s s :=
  ⟨Nat.le_refl _, fun _ f' hf => .inl ⟨f', hf, rfl⟩⟩

theorem shrinks_modifyFile (s : FileStorage) (a : Nat) {g : FileData → FileData}
    (hg : ∀ f, (g f).data = f.data) : Shrinks s (s.modifyFile a g) := by
  refine ⟨Nat.le_refl _, fun b f' hf' => ?_⟩
  rw [modifyFile_heap] at hf'
  split at hf'
  · obtain ⟨f, hf, rfl⟩ := Option.map_eq_some_iff.mp hf'
    exact ⟨f, hf, hg f⟩
  · exact ⟨f', hf', rfl⟩

theorem shrinks_fuFreeFileData (s : FileStorage) (a : Nat) : Shrinks s (s.fuFreeFileData a) := by
  refine ⟨Nat.le_refl _, fun b f' hf' => ?_⟩
  rw [fuFreeFileData] at hf'
  dsimp only at hf'
  split at hf'
  · cases hf'
  · exact ⟨f', hf', rfl⟩

theorem shrinks_fuGetfile (s : FileStorage) (path : List UInt8) :
    Shrinks s (s.fuGetfile path).2 := by
  rw [fuGetfile_snd]
  cases s.table.huGet path with
  | none => exact .refl s
  | some a => exact shrinks_modifyFile s a fun _ => rfl

theorem shrinks_fuRemoveFile (s : FileStorage) (path : List UInt8) :
    Shrinks s (s.fuRemoveFile path).2 := by
  rw [fuRemoveFile]
  split
  · exact .refl s
  · dsimp only
    split
    · exact shrinks_fuGetfile s path
    · next item table _ =>
        have h := (shrinks_fuGetfile s path).trans
          (shrinks_fuFreeFileData (s.fuGetfile path).2 item.2)
        exact ⟨h.next, h.data⟩

theorem shrinks_fuAddFile (s : FileStorage) (a : Nat) (path : List UInt8) :
    Shrinks s (s.fuAddFile a path).2 := by
  rw [fuAddFile]
  split
  · exact shrinks_fuFreeFileData s a
  · split
    · exact shrinks_fuFreeFileData s a
    · have h := shrinks_modifyFile s a (g := fun f => { f with path := path }) fun _ => rfl
      exact ⟨h.next, h.data⟩

/-- A new record is empty. -/
theorem Edited.place (h : Edited edit s s') {f : FileData} (hd : f.data = []) :
    Edited edit s (s'.place f).2 := by
  refine ⟨Nat.le_succ_of_le h.next, fun a f' hf' => ?_⟩
  rw [FileStorage.place] at hf'
  dsimp only at hf'
  split at hf'
  · next ha =>
      injection hf' with hf'
      exact .inr ⟨ha ▸ h.next, hf' ▸ hd⟩
  · exact h.data a f' hf'

/-- What `fu_writefile` does to the contents. -/
theorem fuWritefile_edited {a i : Nat} {data : Option (List UInt8)} {r : Int}
    (h : s.fuWritefile a i data = some (r, s')) :
    (r ≠ 0 ∧ Shrinks s s') ∨
    (r = 0 ∧ ∃ d, data = some d ∧
      Edited (fun b old => if b = a then old.take i ++ d else old) s s') := by
  cases data with
  | none =>
      injection h with h
      injection h with hr hs
      exact .inl ⟨by omega, hs ▸ .refl s⟩
  | some d =>
      rw [fuWritefile] at h
      split at h
      · injection h with h
        injection h with hr hs
        exact .inl ⟨by omega, hs ▸ .refl s⟩
      · split at h
        · injection h with h
          injection h with hr hs
          exact .inl ⟨by omega, hs ▸ .refl s⟩
        · dsimp only at h
          split at h
          · injection h with h
            injection h with hr hs
            exact .inl ⟨by omega, hs ▸ shrinks_modifyFile s a fun _ => rfl⟩
          · split at h
            · cases h
            · injection h with h
              injection h with hr hs
              refine .inr ⟨hr.symm, d, rfl, ?_⟩
              rw [modifyFile_modifyFile] at hs
              subst hs
              refine ⟨Nat.le_refl _, fun b f' hf' => .inl ?_⟩
              dsimp only at hf'
              rw [modifyFile_heap] at hf'
              split at hf'
              · next hb =>
                  obtain ⟨f, hf, rfl⟩ := Option.map_eq_some_iff.mp hf'
                  exact ⟨f, hf, (if_pos hb).symm⟩
              · next hb => exact ⟨f', hf', (if_neg hb).symm⟩

end Edited

/-! ## The requests that do not write -/

/-- No other request changes the contents of anything. -/
theorem edited_preservedBy {request : SMessage} (client : Int) (hop : ¬ Writes request)
    (s : FileStorage) :
    PreservedBy request client (fun _ s' => Edited (fun _ old => old) s s') (fun _ => True)
      fun _ => True where
  stops _ := trivial
  stopsPlaced _ _ := trivial
  count a h := h.shrinks (shrinks_modifyFile _ a fun _ => rfl)
  take _ h _ _ _ := h.shrinks (shrinks_modifyFile _ _ fun _ => rfl)
  create _ h _ := (h.place rfl).shrinks (shrinks_fuAddFile _ _ _)
  discard _ h := (h.place rfl).shrinks (shrinks_fuFreeFileData _ _)
  release _ h _ _ := h.shrinks (shrinks_modifyFile _ _ fun _ => rfl)
  remove path _ h := h.shrinks (shrinks_fuRemoveFile _ path)
  giveUp hwrites _ _ _ := absurd hwrites hop
  grant _ _ _ _ := trivial
  write hwrites _ _ _ _ _ := absurd hwrites hop

/-! ## The requests that write -/

section Writes

variable {client : Int} {w : World FileStorage Mutex} {s : FileStorage}

/-- A file that is given up is gone, and nothing else changes. -/
theorem evictFile_shrinks (hc : client ≠ 0) (sendFilesBack : Bool) (a : Nat) (f : FileData)
    (h : Shrinks s w.st) :
    (evictFile client sendFilesBack a f).Ensures w fun _ _ w' => Shrinks s w'.st := by
  have hgive : Shrinks s ((w.st.modifyFile a fun f => { f with client := -2 }).fuRemoveFile
      f.path).2 :=
    (h.trans (shrinks_modifyFile w.st a (g := fun f => { f with client := -2 })
      fun _ => rfl)).trans (shrinks_fuRemoveFile _ _)
  rw [evictFile]
  split
  · rw [ensures_serverRespond_bind hc]
    refine ⟨by simpa using h, ?_⟩
    refine Ensures.serverSendPath_bind fun _ _ _ => Ensures.serverSendData_bind fun _ _ _ => ?_
    simpa using hgive
  · simpa using hgive

theorem evictLoop_shrinks (hc : client ≠ 0) (sendFilesBack : Bool) (slots : List (Option Nat))
    (n : Nat) (h : Shrinks s w.st) :
    (evictLoop client sendFilesBack slots n).Ensures w fun _ _ w' => Shrinks s w'.st := by
  induction slots generalizing n w with
  | nil => simpa [evictLoop] using h
  | cons slot slots ih =>
      cases slot with
      | none =>
          rw [evictLoop]
          split
          · simpa using h
          · simpa using h
      | some a =>
          rw [evictLoop]
          split
          · simpa using h
          rw [ensures_deref]
          refine ⟨fun _ => h, fun _ _ => ensures_trylock.mpr ⟨ih n h, fun _ => ?_⟩⟩
          rw [ensures_deref]
          refine ⟨fun _ => h, fun f _ => ?_⟩
          split
          · exact ih n h
          · refine Ensures.bind_always (I := fun w' => Shrinks s w'.st)
              (evictFile_shrinks hc _ a f h) fun b w' h => ?_
            cases b with
            | false => simpa using h
            | true => exact ih _ h

/-- An eviction that makes room says so last. -/
theorem serverEvict_shrinks (qsort : Qsort Nat) (hc : client ≠ 0) (n : Nat) :
    (serverEvict qsort client n).Ensures w fun tr o w' => Shrinks w.st w'.st ∧
      (o = .ret 0 → ∃ pre, tr = pre ++ [.write (.word sapiSuccess) true]) := by
  have hfails : ∀ (tr : List (Event Mutex)) (o : Out Int), o ≠ .ret 0 →
      Shrinks w.st w.st ∧ (o = .ret 0 → ∃ pre, tr = pre ++ [.write (.word sapiSuccess) true]) :=
    fun _ _ ho => ⟨.refl _, fun h => absurd h ho⟩
  refine Ensures.serverEvict hc (fun _ => hfails _ _ (by simp))
    (fun _ _ _ => hfails _ _ (by simp)) (fun _ _ _ => hfails _ _ (by simp))
    fun arr _ _ flag pre _ => ?_
  refine ensures_bind.mpr ((evictLoop_shrinks hc flag arr.slots n (.refl _)).mono
    fun tr o w' h => ?_)
  cases o with
  | ret rest =>
      rw [After]
      cases rest with
      | none =>
          rw [evictAnswer, ensures_ret]
          exact ⟨h, fun h => by simp at h⟩
      | some rest =>
          rw [evictAnswer]
          split
          · rw [ensures_sapiRespond hc, ensures_ret]
            refine ⟨⟨h, fun h => by simp at h⟩, h, fun _ => ?_⟩
            exact ⟨.write (.word sapiEvictMsg) true :: (pre ++ tr), by simp⟩
          · rw [ensures_sapiRespond hc, ensures_ret]
            exact ⟨⟨h, fun h => by simp at h⟩, h, fun h => by simp at h⟩
  | exit => exact ⟨h, fun h => by cases h⟩
  | fault => exact ⟨h, fun h => by cases h⟩
  | blocked => exact ⟨h, fun h => by cases h⟩

/-- A run that has made the calls `pre` before it: what it returns with took in no
data and edited nothing, or took in some and put it into the file at `a`, behind
the part of the old contents that `cut` says. -/
def Stores (cut : List UInt8 → Nat) (a : Nat) (s : FileStorage) (pre : List (Event Mutex))
    (tr : List (Event Mutex)) (o : Out Int) (w' : World FileStorage Mutex) : Prop :=
  ∀ r, o = .ret r →
    (taken (pre ++ tr) = none ∧ Shrinks s w'.st) ∨
    ∃ d, taken (pre ++ tr) = some d ∧
      Edited (fun b old => if b = a then old.take (cut old) ++ d else old) s w'.st

variable {cut : List UInt8 → Nat} {offset : FileData → Nat} {a : Nat} {pre : List (Event Mutex)}

theorem Stores.cons {tr : List (Event Mutex)} {o : Out Int} {w' : World FileStorage Mutex}
    {e : Event Mutex} (h : Stores cut a s (pre ++ [e]) tr o w') :
    Stores cut a s pre (e :: tr) o w' := by
  rw [Stores, List.append_assoc] at h
  exact h

theorem Stores.shrinks {s' : FileStorage} {tr : List (Event Mutex)} {o : Out Int}
    {w' : World FileStorage Mutex} (hs : Shrinks s s') (h : Stores cut a s' pre tr o w') :
    Stores cut a s pre tr o w' := by
  intro r hr
  rcases h r hr with ⟨hnone, hshrinks⟩ | ⟨d, hd, hedited⟩
  · exact .inl ⟨hnone, hs.trans hshrinks⟩
  · exact .inr ⟨d, hd, hs.edited hedited⟩

/-- A refusal at the end. -/
theorem stores_refused (h : Shrinks s w.st) {m : SMessage} (hm : m ≠ sapiSuccess)
    (mid : List (Event Mutex)) (ok : Bool) (o : Out Int) :
    Stores cut a s pre (mid ++ [.write (.word m) ok]) o w := by
  intro r _
  refine .inl ⟨?_, h⟩
  rw [← List.append_assoc]
  exact taken_of_refused _ ok hm

variable (pre) in
theorem receiveData_stores (hc : client ≠ 0) (hoff : ∀ f, offset f = cut f.data) (n : Nat)
    (hpre : ∃ front, pre = front ++ [.write (.word sapiSuccess) true]) (h : Shrinks s w.st) :
    (receiveData client a n offset).Ensures w (Stores cut a s pre) := by
  obtain ⟨front, rfl⟩ := hpre
  have hfailure : sapiFailure ≠ sapiSuccess := by decide
  rw [receiveData, ensures_muCalloc]
  refine ⟨fun _ r hr => (by cases hr), fun _ => ?_⟩
  rw [ensures_read]
  intro buf hbuf
  cases buf with
  | none =>
      rw [ensures_unlock, ensures_serverRespond_bind hc, ensures_ret, ensures_ret]
      exact ⟨stores_refused h hfailure [_] _ _, stores_refused h hfailure [_] _ _⟩
  | some bs =>
      dsimp only
      rw [ensures_deref]
      refine ⟨fun _ r hr => (by cases hr), fun f hf => ?_⟩
      rw [ensures_get]
      cases hw : w.st.fuWritefile a (offset f)
          (if n = 0 then none else some (bs ++ List.replicate (n - bs.length) 0)) with
      | none => exact ensures_exit.mpr fun r hr => by cases hr
      | some res =>
          obtain ⟨err, s'⟩ := res
          dsimp only
          rw [ensures_set]
          rcases fuWritefile_edited hw with ⟨herr, hs'⟩ | ⟨herr, d, hd, hedited⟩
          · rw [if_pos herr, ensures_unlock, ensures_serverRespond_bind hc, ensures_ret,
              ensures_ret]
            exact ⟨stores_refused (h.trans hs') hfailure [_] _ _,
              stores_refused (h.trans hs') hfailure [_] _ _⟩
          · have hstored : ∀ (ok : Bool) (o : Out Int) (held : Finset Mutex),
                Stores cut a s (front ++ [.write (.word sapiSuccess) true])
                  [.read n (some bs), .write (.word sapiSuccess) ok] o ⟨s', held⟩ := by
              intro ok o held r _
              refine .inr ⟨bs ++ List.replicate (n - bs.length) 0, ?_, h.edited ?_⟩
              · rw [List.append_assoc]
                exact taken_of_stored front n bs ok
              · have hdata : d = bs ++ List.replicate (n - bs.length) 0 := by
                  split at hd
                  · cases hd
                  · injection hd with hd
                    exact hd.symm
                refine ⟨hedited.next, fun b f' hf' => ?_⟩
                rcases hedited.data b f' hf' with ⟨f₀, hf₀, hd₀⟩ | hnew
                · refine .inl ⟨f₀, hf₀, ?_⟩
                  rw [hd₀]
                  split
                  · next hb =>
                      rw [hb, hf] at hf₀
                      injection hf₀ with hf₀
                      rw [hoff, hf₀, hdata]
                  · rfl
                · exact .inr hnew
            rw [if_neg (not_not.mpr herr), ensures_serverRespond_bind hc, if_pos (by decide),
              if_neg (by decide), ensures_unlock, ensures_unlock, ensures_ret, ensures_ret]
            exact ⟨hstored false _ _, hstored true _ _⟩

variable (pre) in
theorem serverMakeRoom_stores (qsort : Qsort Nat) (hc : client ≠ 0)
    (hoff : ∀ f, offset f = cut f.data) (n : Nat)
    (hpre : ∀ ok, taken (pre ++ [.write (.word sapiSuccess) ok]) = none) :
    (serverMakeRoom qsort offset client a n).Ensures w (Stores cut a w.st pre) := by
  have hfailure : sapiFailure ≠ sapiSuccess := by decide
  rw [serverMakeRoom, ensures_get]
  split
  · refine ensures_bind.mpr ((serverEvict_shrinks qsort hc _).mono fun tr o w' h => ?_)
    obtain ⟨hshrinks, hlast⟩ := h
    cases o with
    | ret r =>
        rw [After]
        split
        · rw [ensures_unlock, ensures_unlock, ensures_sapiRespond hc, ensures_ret]
          exact ⟨stores_refused hshrinks hfailure tr _ _, stores_refused hshrinks hfailure tr _ _⟩
        · next hr =>
            obtain ⟨front, rfl⟩ := hlast (by rw [not_not.mp hr])
            rw [ensures_unlock]
            refine Ensures.mono (receiveData_stores _ (w := ⟨w'.st, _⟩) hc hoff n
              ⟨pre ++ front, rfl⟩ hshrinks) fun tr' o w'' h => ?_
            rw [Stores] at h ⊢
            simpa only [List.append_assoc] using h
    | exit => exact fun r hr => by cases hr
    | fault => exact fun r hr => by cases hr
    | blocked => exact fun r hr => by cases hr
  · rw [ensures_serverRespond_bind hc, if_pos (by decide), if_neg (by decide), ensures_unlock,
      ensures_unlock, ensures_ret, ensures_unlock]
    refine ⟨fun r _ => .inl ⟨hpre false, .refl _⟩, ?_⟩
    exact (receiveData_stores (pre ++ [.write (.word sapiSuccess) true]) hc hoff n
      ⟨pre, rfl⟩ (Shrinks.refl _)).mono fun _ _ _ h => h.cons

/-- A writing request, once it has read its path: it refuses, or it stores what it
took in, in a file that the client has open. -/
def WriteStores (cut : List UInt8 → Nat) (client : Int) (path : List UInt8) (s : FileStorage)
    (tr : List (Event Mutex)) (o : Out Int) (w' : World FileStorage Mutex) : Prop :=
  ∀ r, o = .ret r →
    (taken tr = none ∧ Shrinks s w'.st) ∨
    ∃ a d, taken tr = some d ∧ s.table.huGet path = some a ∧ (s.file a).client = client ∧
      Edited (fun b old => if b = a then old.take (cut old) ++ d else old) s w'.st

variable (cut) in
theorem serverWriteAt_stores (qsort : Qsort Nat) (hoff : ∀ f, offset f = cut f.data)
    {message : SMessage} :
    (serverWriteAt qsort offset message client).Ensures w fun tr o w' => ∀ r, o = .ret r →
      (taken tr = none ∧ Shrinks w.st w'.st) ∨
      ∃ k buf tr', tr = .read k (some buf) :: tr' ∧
        WriteStores cut client (cString buf) w.st tr' o w' := by
  have hlocked : sapiLocked ≠ sapiSuccess := by decide
  have hfnf : sapiFnf ≠ sapiSuccess := by decide
  have hfailure : sapiFailure ≠ sapiSuccess := by decide
  refine Ensures.withPath rfl (fun r _ => .inl ⟨rfl, .refl _⟩) (fun r hr => by cases hr)
    (fun ok r _ => .inl ⟨?_, .refl _⟩) fun hc buf => ?_
  · exact taken_of_refused [_] ok hfailure
  -- past the path: what the rest of the call does, from the world the request came in
  refine Ensures.mono (?_ : Ensures _ w (WriteStores cut client (cString buf) w.st))
    fun tr o w' h r hr => .inr ⟨_, buf, tr, rfl, h⟩
  rw [ensures_lock]
  refine ⟨fun _ r hr => (by cases hr), fun _ => ?_⟩
  rw [ensures_getfile]
  dsimp only
  have hget := shrinks_fuGetfile w.st (cString buf)
  have hrefused : ∀ {m : SMessage} (_ : m ≠ sapiSuccess) (ok : Bool) (o : Out Int)
      (held : Finset Mutex), WriteStores cut client (cString buf) w.st
        [.write (.word m) ok] o ⟨(w.st.fuGetfile (cString buf)).2, held⟩ :=
    fun hm ok o held r _ => .inl ⟨taken_of_refused [] ok hm, hget⟩
  cases hg : w.st.table.huGet (cString buf) with
  | none =>
      dsimp only
      rw [ensures_unlock, ensures_sapiRespond hc, ensures_ret]
      exact ⟨hrefused hfnf _ _ _, hrefused hfnf _ _ _⟩
  | some a =>
      refine Ensures.lockFile (fun _ r hr => by cases hr) (fun _ r hr => by cases hr)
        fun _ f hf => ?_
      have howner := fuGetfile_client _ hf
      split
      · rw [ensures_unlock, ensures_sapiRespond hc, ensures_ret]
        exact ⟨hrefused hlocked _ _ _, hrefused hlocked _ _ _⟩
      · next hmine =>
          have hclient : (w.st.file a).client = client := howner.trans (not_not.mp hmine)
          have hwrites : ∀ (pre tr : List (Event Mutex)) (o : Out Int)
              (w' : World FileStorage Mutex),
              Stores cut a (w.st.fuGetfile (cString buf)).2 pre tr o w' →
              WriteStores cut client (cString buf) w.st (pre ++ tr) o w' := by
            intro pre tr o w' h r hr
            rcases h.shrinks hget r hr with hnone | ⟨d, hd, hedited⟩
            · exact .inl hnone
            · exact .inr ⟨a, d, hd, hg, hclient, hedited⟩
          rw [ensures_checkReadResponse hc]
          refine ⟨fun junk => ?_, fun bs _ => ⟨fun _ ok r _ => .inl ⟨?_, hget⟩, fun _ => ?_⟩⟩
          · exact (serverMakeRoom_stores [.read 8 none, .unspec junk] qsort hc hoff _
              fun _ => rfl).mono fun tr o w' h => hwrites _ tr o w' h
          · exact taken_of_refused [_] ok hfailure
          · exact (serverMakeRoom_stores [.read 8 (some bs)] qsort hc hoff _
              fun _ => rfl).mono fun tr o w' h => hwrites _ tr o w' h

end Writes

/-! ## One request -/

theorem ServedRequest.edit_of_taken_none {e : ServedRequest} (h : taken e.trace = none) (a : Nat)
    (old : List UInt8) : e.edit a old = old := by
  rw [edit]
  split
  · rw [h]
  · rfl

theorem ServedRequest.edit_of_not_writes {e : ServedRequest} (h : ¬ Writes e.request) (a : Nat)
    (old : List UInt8) : e.edit a old = old := by
  rw [edit]
  split
  · cases taken e.trace with
    | none => rfl
    | some d =>
        dsimp only
        rw [if_neg fun hop => h (.inl hop), if_neg fun hop => h (.inr hop)]
  · rfl

/-- The request is for `a`, and puts something into it. -/
def ServedRequest.Fills (e : ServedRequest) (a : Nat) : Prop :=
  Writes e.request ∧ e.target = some a ∧ taken e.trace ≠ none

/-- What a request does to the contents, and who it does it for. -/
structure ServedRequest.Stored (e : ServedRequest) : Prop where
  edited : Edited e.edit e.before.st e.after.st
  owned : ∀ a, e.Fills a → (e.before.st.file a).client = e.client

theorem Edited.of_shrinks {edit : Nat → List UInt8 → List UInt8} {s s' : FileStorage}
    (h : Shrinks s s') (hid : ∀ a old, edit a old = old) : Edited edit s s' := by
  refine ⟨h.next, fun a f' hf' => .inl ?_⟩
  obtain ⟨f, hf, hd⟩ := h.data a f' hf'
  exact ⟨f, hf, hd.trans (hid a f.data).symm⟩

section Request

variable {qsort : Qsort Nat} {request : SMessage} {client r : Int}
  {w w' : World FileStorage Mutex} {tr : List (Event Mutex)}

theorem writes_stored {cut : List UInt8 → Nat}
    (hedit : ∀ (old d : List UInt8), old.take (cut old) ++ d =
      if opOf request = sapiWriteFile then d
      else if opOf request = sapiAppendFile then old ++ d else old)
    (h : (taken tr = none ∧ Shrinks w.st w'.st) ∨ ∃ k buf tr', tr = .read k (some buf) :: tr' ∧
      WriteStores cut client (cString buf) w.st tr' (.ret r) w') :
    (⟨request, client, tr, w, w'⟩ : ServedRequest).Stored := by
  rcases h with ⟨hnone, hshrinks⟩ | ⟨k, buf, tr', rfl, h⟩
  · exact ⟨.of_shrinks hshrinks (ServedRequest.edit_of_taken_none hnone),
      fun a hfills => absurd hnone hfills.2.2⟩
  have htaken := taken_cons_read tr' k (some buf)
  rcases h r rfl with ⟨hnone, hshrinks⟩ | ⟨a, d, hd, hg, howner, hedited⟩
  · rw [hnone] at htaken
    exact ⟨.of_shrinks hshrinks (ServedRequest.edit_of_taken_none htaken),
      fun a hfills => absurd htaken hfills.2.2⟩
  · rw [hd] at htaken
    refine ⟨?_, fun b hfills => ?_⟩
    · have heq : (⟨request, client, .read k (some buf) :: tr', w, w'⟩ : ServedRequest).edit =
          fun b old => if b = a then old.take (cut old) ++ d else old := by
        funext b old
        have htarget : (⟨request, client, .read k (some buf) :: tr', w, w'⟩ :
          ServedRequest).target = some a := hg
        rw [ServedRequest.edit, htarget]
        by_cases hb : b = a
        · rw [if_pos (congrArg some hb.symm), if_pos hb, htaken, hedit]
        · rw [if_neg fun h => hb (Option.some.inj h).symm, if_neg hb]
      exact heq ▸ hedited
    · have htarget : w.st.table.huGet (cString buf) = some b := hfills.2.1
      rw [hg] at htarget
      injection htarget with htarget
      exact htarget ▸ howner

theorem serve_stored (hr : (serve qsort request client).Runs w tr (.ret r) w') :
    (⟨request, client, tr, w, w'⟩ : ServedRequest).Stored := by
  by_cases hop : Writes request
  · rcases hop with hop | hop
    · have h : (serverWriteAt qsort (fun _ => 0) request client).Ensures w _ :=
        serverWriteAt_stores (fun _ => 0) qsort fun _ => rfl
      refine writes_stored (fun old d => ?_) (h tr _ w' ?_ r rfl)
      · rw [if_pos hop]
        rfl
      · have hserve : serve qsort request client =
            serverWriteAt qsort (fun _ => 0) request client := by
          simp [serve, hop, sapiOpenFile, sapiCloseFile, sapiReadFile, sapiReadNFiles,
            sapiWriteFile, serverWriteFile]
        exact hserve ▸ hr
    · have h : (serverWriteAt qsort FileData.dataLen request client).Ensures w _ :=
        serverWriteAt_stores List.length qsort fun _ => rfl
      have hne : sapiAppendFile ≠ sapiWriteFile := by decide
      refine writes_stored (fun old d => ?_) (h tr _ w' ?_ r rfl)
      · rw [hop, if_neg hne, if_pos rfl, List.take_length]
      · have hserve : serve qsort request client =
            serverWriteAt qsort FileData.dataLen request client := by
          simp [serve, hop, sapiOpenFile, sapiCloseFile, sapiReadFile, sapiReadNFiles,
            sapiWriteFile, sapiAppendFile, serverAppendToFile]
        exact hserve ▸ hr
  · have hedited := serve_preserves qsort (edited_preservedBy client hop w.st)
      (fun _ => Edited.refl w.st) tr _ w' hr
    refine ⟨⟨hedited.next, fun a f' hf' => ?_⟩, fun a hfills => absurd hfills.1 hop⟩
    rcases hedited.data a f' hf' with ⟨f, hf, hd⟩ | hnew
    · exact .inl ⟨f, hf, hd.trans (ServedRequest.edit_of_not_writes hop a f.data).symm⟩
    · exact .inr hnew

end Request

/-! ## All requests -/

/-- The contents that the requests make of an empty file at `a`. -/
def replayed (past : List ServedRequest) (a : Nat) : List UInt8 :=
  past.foldl (fun old e => e.edit a old) []

/-- A request that is for no file at `a` leaves it alone. -/
theorem replayed_of_no_target {past : List ServedRequest} {a : Nat}
    (h : ∀ e ∈ past, e.target ≠ some a) : replayed past a = [] := by
  induction past using List.reverseRecOn with
  | nil => rfl
  | append_singleton past e ih =>
      rw [replayed, List.foldl_append, List.foldl_cons, List.foldl_nil, ServedRequest.edit,
        if_neg (h e (List.mem_append_right _ (List.mem_singleton_self e)))]
      exact ih fun e he => h e (List.mem_append_left _ he)

section Run

variable {qsort : Qsort Nat} {maxFiles maxBytes : Nat} {past : List ServedRequest}
  {w : World FileStorage Mutex}

/-- A request is for a file that is there. -/
theorem ServedRequest.target_lt {e : ServedRequest} (hwf : e.before.st.WellFormed) {a : Nat}
    (h : e.target = some a) : a < e.before.st.next := by
  rw [target] at h
  split at h
  · have hmem := WellFormed.huGet_mem_ptrs h
    by_contra hge
    exact hwf.accounted.live a hmem (hwf.accounted.fresh a (Nat.not_lt.mp hge))
  · cases h

/-- No request was for a file that was not there yet. -/
theorem ServerRun.target_lt (h : ServerRun qsort maxFiles maxBytes past w) :
    ∀ e ∈ past, ∀ a, e.target = some a → a < w.st.next := by
  induction h with
  | init s hf hb hs => exact fun e he => absurd he List.not_mem_nil
  | serve past w w' request client tr r hrun hr ih =>
      have hnext := (serve_stored hr).edited.next
      intro e he a ha
      rcases List.mem_append.mp he with he | he
      · exact Nat.lt_of_lt_of_le (ih e he a ha) hnext
      · rw [List.mem_singleton.mp he] at ha
        exact Nat.lt_of_lt_of_le (ServedRequest.target_lt hrun.wellFormed ha) hnext

/-- The contents of a stored file are what the served requests make of an empty
one, and each that put something into it came from the client that had it open. -/
theorem contents_replayed (h : ServerRun qsort maxFiles maxBytes past w) {a : Nat} {f : FileData}
    (hf : w.st.heap a = some f) : f.data = replayed past a ∧
      ∀ e ∈ past, e.Fills a → (e.before.st.file a).client = e.client := by
  induction h generalizing f with
  | init s hmf hmb hs =>
      rw [(WellFormed.fuInitFileStorage_empty hs).2.2.2.1] at hf
      cases hf
  | serve past w w' request client tr r hrun hr ih =>
      have hstored := serve_stored hr
      rw [replayed, List.foldl_append, List.foldl_cons, List.foldl_nil, ← replayed]
      rcases hstored.edited.data a f hf with ⟨f₀, hf₀, hd⟩ | ⟨hnew, hd⟩
      · obtain ⟨hreplayed, howned⟩ := ih hf₀
        refine ⟨hreplayed ▸ hd, fun e he hfills => ?_⟩
        rcases List.mem_append.mp he with he | he
        · exact howned e he hfills
        · rw [List.mem_singleton.mp he] at hfills ⊢
          exact hstored.owned a hfills
      · -- nothing was for `a` while there was no file there
        have hnew : w.st.next ≤ a := hnew
        have hnone : ∀ e ∈ past, e.target ≠ some a := fun e he h => by
          have hlt : a < w.st.next := hrun.target_lt e he a h
          omega
        have hlast : (⟨request, client, tr, w, w'⟩ : ServedRequest).target ≠ some a := fun h => by
          have hlt : a < w.st.next := ServedRequest.target_lt hrun.wellFormed h
          omega
        rw [ServedRequest.edit, if_neg hlast, replayed_of_no_target hnone]
        refine ⟨hd, fun e he hfills => ?_⟩
        rcases List.mem_append.mp he with he | he
        · exact absurd hfills.2.1 (hnone e he)
        · rw [List.mem_singleton.mp he] at hfills
          exact absurd hfills.2.1 hlast

end Run

/-- Client 5 creates "a", writes two bytes to it, and appends a third. -/
theorem append_run : ∃ past w, ServerRun Qsort.insertion 1 10 past w ∧
    w.st.heap 0 = some ⟨[7, 8, 9], 5, 4, [97]⟩ ∧ past.length = 3 := by
  have h₀ : ServerRun Qsort.insertion 1 10 [] ⟨_, ∅⟩ := .init _ (by decide) (by decide) rfl
  have h₁ := h₀.serve _ _ _ (sapiMessageLen oCreate sapiOpenFile 1) 5
    [.read 1 (some [97]), .write (.word sapiSuccess) true] 0 rfl
  have h₂ := h₁.serve _ _ _ (sapiMessageLen 0 sapiWriteFile 1) 5
    [.read 1 (some [97]), .read 8 (some (LittleEndian.encode 8 2)),
      .write (.word sapiSuccess) true, .read 2 (some [7, 8]),
      .write (.word sapiSuccess) true] 0 rfl
  have h₃ := h₂.serve _ _ _ (sapiMessageLen 0 sapiAppendFile 1) 5
    [.read 1 (some [97]), .read 8 (some (LittleEndian.encode 8 1)),
      .write (.word sapiSuccess) true, .read 1 (some [9]),
      .write (.word sapiSuccess) true] 0 rfl
  exact ⟨_, _, h₃, rfl, rfl⟩

theorem contents_replayed_append : ∃ past : List ServedRequest, past.length = 3 ∧
    [7, 8, 9] = replayed past 0 := by
  obtain ⟨past, w, h, hf, hlen⟩ := append_run
  exact ⟨past, hlen, (contents_replayed h hf).1⟩

end LsoStore
