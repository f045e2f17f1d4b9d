import LsoStore.Proofs.Eviction

/-!
# Counting uses

`data_info` is counted up by every lookup, by every file of a listing, and once
more by a write that gets as far as its data. Here is what the helpers of the
handlers do to it: a write of some data, an eviction, and the walk of a listing.
Whether the data of a write came is read off what its calls returned.
-/

namespace LsoStore

open Proc FileStorage

/-- The client was told to send, and the data it sent is the last thing that was
read. -/
def dataRead (tr : List (Event Mutex)) : Bool :=
  match tr.reverse with
  | .write (.word _) _ :: .read n (some _) :: before =>
      n ≠ 0 && (sapiSuccess, true) ∈ answers before.reverse
  | _ => false

/-! ## Counts -/

/-- `s'` has records of `s` and no others, with the owners they had and the one at
`a` used `n a` times more. It still has those of `keep`. -/
structure Counted (keep : Nat → Prop) (n : Nat → Nat) (s s' : FileStorage) : Prop where
  used : ∀ a f', s'.heap a = some f' → ∃ f, s.heap a = some f ∧ f'.client = f.client ∧
    f'.dataInfo = f.dataInfo + BitVec.ofNat 32 (n a)
  kept : ∀ a, keep a → s.heap a ≠ none → s'.heap a ≠ none

/-- One use of the file at `a`. -/
def useOf (a b : Nat) : Nat := if b = a then 1 else 0

namespace Counted

variable {keep : Nat → Prop} {n m : Nat → Nat} {s s' s'' : FileStorage}

/-- What has become of a record that was to be kept. -/
theorem record (h : Counted keep n s s') {a : Nat} (ha : keep a) {f : FileData}
    (hf : s.heap a = some f) : ∃ f', s'.heap a = some f' ∧ f'.client = f.client ∧
      f'.dataInfo = f.dataInfo + BitVec.ofNat 32 (n a) := by
  have hkept : s'.heap a ≠ none := h.kept a ha (by simp [hf])
  obtain ⟨f', hf'⟩ := Option.ne_none_iff_exists'.mp hkept
  obtain ⟨f₀, hf₀, hsame⟩ := h.used a f' hf'
  obtain rfl : f = f₀ := Option.some.inj (hf.symm.trans hf₀)
  exact ⟨f', hf', hsame⟩

theorem refl (keep : Nat → Prop) (s : FileStorage) : Counted keep (fun _ => 0) s s where
  used a f' hf' := ⟨f', hf', rfl, by simp⟩
  kept _ _ h := h

theorem trans (h : Counted keep n s s') (h' : Counted keep m s' s'') :
    Counted keep (fun a => n a + m a) s s'' where
  used a f'' hf'' := by
    obtain ⟨f', hf', hclient', hinfo'⟩ := h'.used a f'' hf''
    obtain ⟨f, hf, hclient, hinfo⟩ := h.used a f' hf'
    refine ⟨f, hf, hclient'.trans hclient, ?_⟩
    rw [hinfo', hinfo, BitVec.add_assoc, ← BitVec.ofNat_add]
  kept a ha hs := h'.kept a ha (h.kept a ha hs)

theorem congr (h : Counted keep n s s') (hnm : ∀ a, n a = m a) : Counted keep m s s' := by
  rw [← funext hnm]
  exact h

theorem mono {keep' : Nat → Prop} (h : Counted keep n s s') (hkeep : ∀ a, keep' a → keep a) :
    Counted keep' n s s' :=
  ⟨h.used, fun a ha => h.kept a (hkeep a ha)⟩

/-- Files that were given up are gone, and nothing happened to the others. -/
theorem of_without {a : Nat} (h : Without s s' [a]) (ha : ¬ keep a) :
    Counted keep (fun _ => 0) s s' where
  used b f' hf' := by
    rw [h.heap b] at hf'
    split at hf'
    · cases hf'
    · exact ⟨f', hf', rfl, by simp⟩
  kept b hb hs := by
    rw [h.heap b, if_neg]
    · exact hs
    · intro hin
      rw [List.mem_singleton.mp hin] at hb
      exact ha hb

/-- An assignment that counts one use. -/
theorem modify (keep : Nat → Prop) (s : FileStorage) (a : Nat) {g : FileData → FileData}
    (hg : ∀ f, (g f).client = f.client ∧ (g f).dataInfo = f.dataInfo + 1) :
    Counted keep (useOf a) s (s.modifyFile a g) where
  used b f' hf' := by
    rw [modifyFile_heap] at hf'
    rw [useOf]
    split at hf'
    · next hb =>
        obtain ⟨f, hf, rfl⟩ := Option.map_eq_some_iff.mp hf'
        rw [if_pos hb]
        exact ⟨f, hf, (hg f).1, (hg f).2⟩
    · next hb =>
        rw [if_neg hb]
        exact ⟨f', hf', rfl, by simp⟩
  kept b _ hs := by
    rw [ne_eq, modifyFile_heap_eq_none]
    exact hs

end Counted

/-- The use that a lookup counts. -/
theorem counted_fuGetfile (keep : Nat → Prop) (s : FileStorage) (path : List UInt8) :
    Counted keep (fun a => if s.table.huGet path = some a then 1 else 0) s
      (s.fuGetfile path).2 := by
  rw [fuGetfile_snd]
  cases hget : s.table.huGet path with
  | none => exact (Counted.refl keep s).congr fun a => by simp
  | some a =>
      refine (Counted.modify keep s a (g := fun f => { f with dataInfo := f.dataInfo + 1 })
        fun _ => ⟨rfl, rfl⟩).congr fun b => ?_
      rw [useOf]
      exact if_congr (by rw [Option.some.injEq, eq_comm]) rfl rfl

/-! ## Writing -/

section Write

variable {w : World FileStorage Mutex} {client : Int}

/-- A write of some data uses the file once, whether it fits or not. -/
theorem counted_fuWritefile (keep : Nat → Prop) {s s' : FileStorage} {a i : Nat}
    {d : List UInt8} {r : Int} (hd : d ≠ []) (hi : i ≤ (s.file a).dataLen)
    (hw : s.fuWritefile a i (some d) = some (r, s')) : Counted keep (useOf a) s s' := by
  have hcount := Counted.modify keep s a (g := fun f => { f with dataInfo := f.dataInfo + 1 })
    fun _ => ⟨rfl, rfl⟩
  rw [fuWritefile, if_neg (by simpa using hd), if_neg (Nat.not_lt.mpr hi)] at hw
  dsimp only at hw
  split at hw
  · injection hw with hw
    rw [← (Prod.mk.inj hw).2]
    exact hcount
  · split at hw
    · cases hw
    · injection hw with hw
      rw [← (Prod.mk.inj hw).2, modifyFile_modifyFile]
      have hboth := Counted.modify keep s a
        (g := (fun f => { f with data := f.data.take i ++ d }) ∘
          fun f => { f with dataInfo := f.dataInfo + 1 }) fun _ => ⟨rfl, rfl⟩
      exact ⟨hboth.used, hboth.kept⟩

/-- The end of a write: the data came and the file is used once, or it is not used. -/
theorem receiveData_counted (keep : Nat → Prop) (hc : client ≠ 0) {file n : Nat}
    {offset : FileData → Nat}
    (hoff : ∀ f, offset f ≤ f.dataLen) :
    (receiveData client file n offset).Ensures w fun tr o w' => ∀ r, o = .ret r →
      (∃ buf answer ok, n ≠ 0 ∧ tr = [.read n (some buf), .write (.word answer) ok] ∧
        Counted keep (useOf file) w.st w'.st) ∨
      (∃ buf answer ok, (n ≠ 0 → buf = none) ∧
        tr = [.read n buf, .write (.word answer) ok] ∧ w'.st = w.st) := by
  rw [receiveData, ensures_muCalloc]
  refine ⟨fun _ _ h => (by cases h), fun _ => ?_⟩
  rw [ensures_read]
  intro buf hbuf
  cases buf with
  | none =>
      rw [ensures_unlock, ensures_serverRespond_bind hc, ensures_ret, ensures_ret]
      exact ⟨fun _ _ => .inr ⟨none, _, _, fun _ => rfl, rfl, rfl⟩,
        fun _ _ => .inr ⟨none, _, _, fun _ => rfl, rfl, rfl⟩⟩
  | some bs =>
      dsimp only
      rw [ensures_deref]
      refine ⟨fun _ _ h => (by cases h), fun f hf => ?_⟩
      have hlen : bs.length ≤ n := fits_some.mp hbuf
      have hfile := file_eq _ hf
      rw [ensures_get]
      by_cases hn : n = 0
      · have hnone : w.st.fuWritefile file (offset f) none = some (-1, w.st) := rfl
        rw [if_pos hn, hnone]
        dsimp only
        rw [ensures_set, if_pos (by decide), ensures_unlock, ensures_serverRespond_bind hc,
          ensures_ret, ensures_ret]
        exact ⟨fun _ _ => .inr ⟨_, _, _, fun hne => absurd hn hne, rfl, rfl⟩,
          fun _ _ => .inr ⟨_, _, _, fun hne => absurd hn hne, rfl, rfl⟩⟩
      · have hd : bs ++ List.replicate (n - bs.length) 0 ≠ [] := by
          intro hnil
          have hzero := congrArg List.length hnil
          rw [List.length_append, List.length_replicate, List.length_nil] at hzero
          omega
        rw [if_neg hn]
        cases hw : w.st.fuWritefile file (offset f)
            (some (bs ++ List.replicate (n - bs.length) 0)) with
        | none => exact ensures_exit.mpr fun _ h => by cases h
        | some res =>
            obtain ⟨err, s'⟩ := res
            have hcount : Counted keep (useOf file) w.st s' :=
              counted_fuWritefile keep hd (by rw [hfile]; exact hoff f) hw
            dsimp only
            rw [ensures_set]
            split
            · rw [ensures_unlock, ensures_serverRespond_bind hc, ensures_ret, ensures_ret]
              exact ⟨fun _ _ => .inl ⟨_, _, _, hn, rfl, hcount⟩,
                fun _ _ => .inl ⟨_, _, _, hn, rfl, hcount⟩⟩
            · rw [ensures_serverRespond_bind hc, if_pos (by decide), if_neg (by decide),
                ensures_unlock, ensures_ret, ensures_unlock, ensures_ret]
              exact ⟨fun _ _ => .inl ⟨_, _, _, hn, rfl, hcount⟩,
                fun _ _ => .inl ⟨_, _, _, hn, rfl, hcount⟩⟩

end Write

/-! ## Evicting -/

section Evict

variable {w : World FileStorage Mutex} {client : Int} {H : Finset Mutex}

/-- An eviction, or the part of it that a program does: where it returns, the
client has not been told to send, nothing was used, and the files whose mutexes
are in `H` are still there. -/
def Evicted {α : Type} (H : Finset Mutex) (s : FileStorage) (tr : List (Event Mutex))
    (o : Out α) (w' : World FileStorage Mutex) : Prop :=
  ∀ r, o = .ret r → (sapiSuccess, true) ∉ answers tr ∧
    Counted (fun a => .file a ∈ H) (fun _ => 0) s w'.st

theorem Evicted.trylock {α : Type} {s : FileStorage} {tr : List (Event Mutex)} {o : Out α}
    {w' : World FileStorage Mutex} {m : Mutex} {ok : Bool} (h : Evicted H s tr o w') :
    Evicted H s (.trylock m ok :: tr) o w' := fun r hr => by
  rw [answers_trylock]
  exact h r hr

theorem evictLoop_counted (hc : client ≠ 0) (sendFilesBack : Bool) (slots : List (Option Nat))
    (n : Nat) (hwf : w.st.WellFormed) (hH : w.held = H) :
    (evictLoop client sendFilesBack slots n).Ensures w (Evicted H w.st) := by
  have hstop : ∀ (w : World FileStorage Mutex) (x : Option Nat),
      Evicted H w.st [] (.ret x) w :=
    fun w x _ _ => ⟨List.not_mem_nil, .refl _ _⟩
  induction slots generalizing n w with
  | nil =>
      rw [evictLoop, ensures_ret]
      exact hstop w _
  | cons slot slots ih =>
      cases slot with
      | none =>
          rw [evictLoop]
          split
          · rw [ensures_ret]
            exact hstop w _
          · exact ensures_fault.mpr fun r hr => by cases hr
      | some a =>
          rw [evictLoop]
          split
          · rw [ensures_ret]
            exact hstop w _
          · rw [ensures_deref]
            refine ⟨fun _ _ h => (by cases h), fun f hf => ensures_trylock.mpr ⟨?_, fun hm => ?_⟩⟩
            · exact (ih n hwf hH).mono fun _ _ _ h => h.trylock
            · have herase : (insert (Mutex.file a) w.held).erase (.file a) = H := by
                rw [Finset.erase_insert hm, hH]
              rw [ensures_deref]
              refine ⟨fun _ _ h => (by cases h), fun f' hf' => ?_⟩
              obtain rfl : f = f' := Option.some.inj (hf.symm.trans hf')
              split
              · rw [ensures_unlock]
                exact (ih (w := ⟨w.st, (insert (.file a) w.held).erase (.file a)⟩) n hwf
                  herase).mono fun _ _ _ h => h.trylock
              · have hgone := evictFile_gaveUp (w := ⟨w.st, insert (.file a) w.held⟩)
                  (H := H) hc hf (hH ▸ hm) (by rw [hH]) sendFilesBack
                refine ensures_bind.mpr (hgone.mono fun tr o w' h => ?_)
                rcases o with (_ | _) | _ | _ | _
                · obtain ⟨hst, -, htr⟩ := h
                  rw [After, if_neg (by decide), ensures_ret]
                  intro _ _
                  rw [hst]
                  exact ⟨by simp [htr, sapiEvictMsg, sapiSuccess], .refl _ _⟩
                · obtain ⟨hheld, hst, -, htr⟩ := h
                  have ha : a ∈ w.st.ptrs := hwf.stored a (by simp [hf])
                  have hwo : Without w.st w'.st [a] := hst ▸ hwf.without_giveUp ha
                  have hwf' : w'.st.WellFormed := hst ▸ hwf.giveUp a
                  have hfirst : Counted (fun b => .file b ∈ H) (fun _ => 0) w.st w'.st :=
                    .of_without hwo (hH ▸ hm)
                  have hquiet : (sapiSuccess, true) ∉ answers tr := by
                    rw [htr]
                    split <;> simp [sapiEvictMsg, sapiSuccess]
                  rw [After, if_pos rfl]
                  refine (ih _ hwf' hheld).mono fun tr' o' w'' h' => ?_
                  refine Evicted.trylock fun r hr => ?_
                  obtain ⟨hanswers, hrest⟩ := h' r hr
                  rw [answers_append, List.mem_append, not_or]
                  exact ⟨⟨hquiet, hanswers⟩, hfirst.trans hrest⟩
                · exact fun r hr => by cases hr
                · exact fun r hr => by cases hr
                · exact fun r hr => by cases hr

/-- The client is told to send exactly if the eviction has made room. -/
theorem serverEvict_counted (qsort : Qsort Nat) (hc : client ≠ 0) (n : Nat)
    (hwf : w.st.WellFormed) :
    (serverEvict qsort client n).Ensures w fun tr o w' => ∀ r, o = .ret r →
      ((sapiSuccess, true) ∈ answers tr ↔ r = 0) ∧
        Counted (fun a => .file a ∈ w.held) (fun _ => 0) w.st w'.st := by
  have hsame : ∀ (tr : List (Event Mutex)), (sapiSuccess, true) ∉ answers tr →
      ((sapiSuccess, true) ∈ answers tr ↔ (-1 : Int) = 0) ∧
        Counted (fun a => .file a ∈ w.held) (fun _ => 0) w.st w.st :=
    fun tr h => ⟨iff_of_false h (by decide), .refl _ _⟩
  refine Ensures.serverEvict hc (fun _ r h => by cases h) (fun _ _ _ => ?_) (fun _ _ _ => ?_)
    fun arr _ _ flag pre hpre => ?_
  · intro r hr
    cases hr
    exact hsame [] List.not_mem_nil
  · intro r hr
    cases hr
    exact hsame _ (by simp)
  · have hfirst : (sapiSuccess, true) ≠ (sapiEvictMsg, true) := by decide
    refine ensures_bind.mpr ((evictLoop_counted hc flag arr.slots n hwf rfl).mono
      fun tr o w' h => ?_)
    rcases o with (_ | rest) | _ | _ | _
    · obtain ⟨hquiet, hcount⟩ := h _ rfl
      rw [After, evictAnswer, ensures_ret]
      intro r hr
      cases hr
      refine ⟨iff_of_false ?_ (by decide), hcount⟩
      simpa [answers_of_quiet hpre, hfirst] using hquiet
    · obtain ⟨hquiet, hcount⟩ := h _ rfl
      rw [After, evictAnswer]
      split
      · rw [ensures_sapiRespond hc, ensures_ret]
        constructor
        · intro r hr
          cases hr
          refine ⟨iff_of_false ?_ (by decide), hcount⟩
          simpa [answers_of_quiet hpre, hfirst] using hquiet
        · intro r hr
          cases hr
          exact ⟨iff_of_true (by simp) rfl, hcount⟩
      · rw [ensures_sapiRespond hc, ensures_ret]
        have hlast : ∀ ok, (sapiSuccess, true) ≠ (sapiFailure, ok) := by decide
        constructor
        · intro r hr
          cases hr
          refine ⟨iff_of_false ?_ (by decide), hcount⟩
          simpa [answers_of_quiet hpre, hfirst, hlast] using hquiet
        · intro r hr
          cases hr
          refine ⟨iff_of_false ?_ (by decide), hcount⟩
          simpa [answers_of_quiet hpre, hfirst, hlast] using hquiet
    · exact fun _ h => by cases h
    · exact fun _ h => by cases h
    · exact fun _ h => by cases h

end Evict

/-! ## The writing handlers -/

theorem dataRead_append (tr : List (Event Mutex)) (n : Nat) (buf : Option (List UInt8))
    (answer : SMessage) (ok : Bool) :
    dataRead (tr ++ [.read n buf, .write (.word answer) ok]) =
      (buf.isSome && (n ≠ 0 && (sapiSuccess, true) ∈ answers tr)) := by
  rw [dataRead, List.reverse_append]
  cases buf with
  | none => rfl
  | some bs => simp

/-- Nothing is read from a client that has not been told to send. -/
theorem dataRead_eq_false {tr : List (Event Mutex)} (h : (sapiSuccess, true) ∉ answers tr) :
    dataRead tr = false := by
  rw [dataRead]
  split
  · next m ok n bs before hrev =>
      have htr : tr = before.reverse ++ [.read n (some bs), .write (.word m) ok] := by
        rw [← List.reverse_reverse tr, hrev]
        simp
      have hbefore : (sapiSuccess, true) ∉ answers before.reverse := by
        intro hin
        rw [htr, answers_append] at h
        exact h (List.mem_append_left _ hin)
      simp [hbefore]
  · rfl

section WriteAt

variable {w : World FileStorage Mutex} {client : Int} {file n : Nat}
  {offset : FileData → Nat}

/-- The use that a write counts once its data is there. -/
def writeUse (file : Nat) (tr : List (Event Mutex)) (a : Nat) : Nat :=
  if dataRead tr then useOf file a else 0

theorem writeUse_eq_zero {tr : List (Event Mutex)} (h : (sapiSuccess, true) ∉ answers tr)
    (file : Nat) : writeUse file tr = fun _ => 0 := by
  funext a
  rw [writeUse, dataRead_eq_false h, if_neg (by decide)]

/-- What follows the message that tells the client to send. -/
theorem receiveData_writeUse (keep : Nat → Prop) (hc : client ≠ 0)
    (hoff : ∀ f, offset f ≤ f.dataLen) {told : List (Event Mutex)}
    (htold : (sapiSuccess, true) ∈ answers told) :
    (receiveData client file n offset).Ensures w fun tr o w' => ∀ r, o = .ret r →
      Counted keep (writeUse file (told ++ tr)) w.st w'.st := by
  refine (receiveData_counted keep hc hoff).mono fun tr o w' h r hr => ?_
  rcases h r hr with ⟨buf, answer, ok, hn, htr, hcount⟩ | ⟨buf, answer, ok, hbuf, htr, hst⟩
  · refine hcount.congr fun a => ?_
    rw [writeUse, htr, dataRead_append]
    simp [hn, htold]
  · rw [hst]
    refine (Counted.refl keep w.st).congr fun a => ?_
    rw [writeUse, htr, dataRead_append]
    by_cases hn : n = 0
    · simp [hn]
    · simp [hbuf hn]

theorem serverMakeRoom_counted (qsort : Qsort Nat) (hc : client ≠ 0)
    (hoff : ∀ f, offset f ≤ f.dataLen) (hwf : w.st.WellFormed) (told : List (Event Mutex))
    (hold : answers told = []) :
    (serverMakeRoom qsort offset client file n).Ensures w fun tr o w' => ∀ r, o = .ret r →
      Counted (fun a => .file a ∈ w.held) (writeUse file (told ++ tr)) w.st w'.st := by
  rw [serverMakeRoom, ensures_get]
  split
  · refine ensures_bind.mpr ((serverEvict_counted qsort hc _ hwf).mono fun tr o w' h => ?_)
    cases o with
    | ret r =>
        obtain ⟨htold, hcount⟩ := h r rfl
        rw [After]
        split
        · next hfailed =>
            have hnot : ∀ ok, (sapiSuccess, true) ∉
                answers (told ++ (tr ++ [.write (.word sapiFailure) ok])) := by
              intro ok
              have hquiet : (sapiSuccess, true) ∉ answers tr := mt htold.mp hfailed
              have hlast : (sapiSuccess, true) ≠ (sapiFailure, ok) := by
                revert ok
                decide
              simpa [hold, hlast] using hquiet
            rw [ensures_unlock, ensures_unlock, ensures_sapiRespond hc, ensures_ret]
            refine ⟨fun _ _ => ?_, fun _ _ => ?_⟩
            · rw [writeUse_eq_zero (hnot _)]
              exact hcount
            · rw [writeUse_eq_zero (hnot _)]
              exact hcount
        · next hdone =>
            have hin : (sapiSuccess, true) ∈ answers (told ++ tr) := by
              rw [answers_append]
              exact List.mem_append_right _ (htold.mpr (not_not.mp hdone))
            rw [ensures_unlock]
            refine (receiveData_writeUse (fun a => .file a ∈ w.held) hc hoff hin).mono
              fun tr' o w'' h' r' hr' => ?_
            rw [← List.append_assoc]
            exact (hcount.trans (h' r' hr')).congr fun a => Nat.zero_add _
    | exit => exact fun _ h => by cases h
    | fault => exact fun _ h => by cases h
    | blocked => exact fun _ h => by cases h
  · rw [ensures_serverRespond_bind hc]
    constructor
    · rw [if_pos (by decide), ensures_unlock, ensures_unlock, ensures_ret]
      intro _ _
      rw [writeUse_eq_zero (by simp [hold])]
      exact .refl _ _
    · rw [if_neg (by decide), ensures_unlock]
      have hin : (sapiSuccess, true) ∈
          answers (told ++ [.write (.word sapiSuccess) true]) := by simp
      refine (receiveData_writeUse (fun a => .file a ∈ w.held) hc hoff hin).mono
        fun tr' o w'' h' r' hr' => ?_
      have h' := h' r' hr'
      rwa [List.append_assoc] at h'

end WriteAt

/-! ## The listing -/

section ReadNFiles

variable {w : World FileStorage Mutex} {client : Int}

instance event_lawfulBEq : LawfulBEq (Event Mutex) := inferInstance

/-- A listing uses the files with contents whose mutexes it got. -/
def listingUse (s : FileStorage) (tr : List (Event Mutex)) (a : Nat) : Nat :=
  if .trylock (.file a) true ∈ tr ∧ (s.file a).data ≠ [] then 1 else 0

theorem listingUse_eq_zero {s : FileStorage} {tr : List (Event Mutex)} {a : Nat}
    (h : .trylock (.file a) true ∉ tr) : listingUse s tr a = 0 := if_neg fun h' => h h'.1

/-- What the rest of a listing does from `s`: only the mutexes of the files in
`as` are tried. -/
structure Listed (s : FileStorage) (as : List Nat) (tr : List (Event Mutex))
    (s' : FileStorage) : Prop where
  tried : ∀ a, .trylock (.file a) true ∈ tr → a ∈ as
  counted : Counted (fun _ => True) (listingUse s tr) s s'

theorem Listed.done (s : FileStorage) (as : List Nat) {tr : List (Event Mutex)}
    (h : ∀ m ok, .trylock m ok ∉ tr) : Listed s as tr s where
  tried _ ha := absurd ha (h _ _)
  counted := (Counted.refl _ s).congr fun _ => (listingUse_eq_zero (h _ _)).symm

theorem tried_cons {a b : Nat} {ok : Bool} {tr : List (Event Mutex)} :
    .trylock (.file b) true ∈ .trylock (.file a) ok :: tr ↔
      (b = a ∧ ok = true) ∨ .trylock (.file b) true ∈ tr := by
  simp [eq_comm]

/-- The file at `a` was passed over, or it was empty. -/
theorem Listed.skip {s s' : FileStorage} {a : Nat} {as : List Nat} {tr : List (Event Mutex)}
    {ok : Bool} (h : Listed s as tr s') (ha : ok = true → (s.file a).data = []) :
    Listed s (a :: as) (.trylock (.file a) ok :: tr) s' where
  tried b hb := by
    rcases tried_cons.mp hb with ⟨rfl, -⟩ | hb
    · exact List.mem_cons_self ..
    · exact List.mem_cons_of_mem _ (h.tried b hb)
  counted := h.counted.congr fun b => by
    rw [listingUse, listingUse]
    refine if_congr (and_congr_left fun hdata => ?_) rfl rfl
    rw [tried_cons]
    refine ⟨.inr, fun hb => hb.resolve_left ?_⟩
    intro h
    obtain ⟨rfl, hok⟩ := h
    exact hdata (ha hok)

/-- The file at `a` was used, and then the walk went on or stopped. -/
theorem Listed.use {s s' : FileStorage} {a : Nat} {as : List Nat}
    {sent tr : List (Event Mutex)} (hsent : ∀ m ok, .trylock m ok ∉ sent) (ha : a ∉ as)
    (hdata : (s.file a).data ≠ [])
    (h : Listed (s.modifyFile a fun f => { f with dataInfo := f.dataInfo + 1 }) as tr s') :
    Listed s (a :: as) (.trylock (.file a) true :: (sent ++ tr)) s' := by
  have hmem : ∀ b, .trylock (.file b) true ∈ .trylock (.file a) true :: (sent ++ tr) ↔
      b = a ∨ .trylock (.file b) true ∈ tr := by
    intro b
    rw [tried_cons, List.mem_append]
    have hquiet := hsent (.file b) true
    tauto
  have hfirst := Counted.modify (fun _ => True) s a
    (g := fun f => { f with dataInfo := f.dataInfo + 1 }) fun _ => ⟨rfl, rfl⟩
  refine ⟨fun b hb => ?_, (hfirst.trans h.counted).congr fun b => ?_⟩
  · rcases (hmem b).mp hb with rfl | hb
    · exact List.mem_cons_self ..
    · exact List.mem_cons_of_mem _ (h.tried b hb)
  · rw [useOf]
    by_cases hb : b = a
    · subst hb
      rw [listingUse_eq_zero fun hin => ha (h.tried b hin), if_pos rfl, listingUse,
        if_pos ⟨(hmem b).mpr (.inl rfl), hdata⟩]
    · rw [if_neg hb, Nat.zero_add, listingUse, listingUse, s.modifyFile_file_of_ne _ _ hb]
      refine if_congr (and_congr_left fun _ => ?_) rfl rfl
      rw [hmem]
      exact ⟨.inr, fun hin => hin.resolve_left hb⟩

theorem readNFilesLoop_listed (hc : client ≠ 0) (items : List (List UInt8 × Nat)) (n : Nat)
    (hnodup : (items.map Prod.snd).Nodup) :
    (readNFilesLoop client items n).Ensures w fun tr o w' => ∀ r, o = .ret r →
      Listed w.st (items.map Prod.snd) tr w'.st := by
  have hend : ∀ (w : World FileStorage Mutex) (as : List Nat),
      readNFilesEnd.Ensures w fun tr o w' => ∀ r, o = .ret r → Listed w.st as tr w'.st := by
    intro w as
    rw [readNFilesEnd, ensures_unlock, ensures_write]
    intro ok
    rw [ensures_ret]
    exact fun _ _ => .done _ _ (by simp)
  induction items generalizing n w with
  | nil => exact hend w _
  | cons item items ih =>
      obtain ⟨fileName, file⟩ := item
      rw [List.map_cons, List.nodup_cons] at hnodup
      obtain ⟨hnot, hnodup⟩ := hnodup
      rw [readNFilesLoop]
      split
      · exact hend w _
      · rw [ensures_deref]
        refine ⟨fun _ _ h => (by cases h), fun f hf => ensures_trylock.mpr ⟨?_, fun _ => ?_⟩⟩
        · refine (ih n hnodup).mono fun tr o w' h r hr => (h r hr).skip fun hfalse => ?_
          exact absurd hfalse Bool.false_ne_true
        · have hfile := file_eq _ hf
          rw [ensures_deref]
          refine ⟨fun _ _ h => (by cases h), fun f' hf' => ?_⟩
          obtain rfl : f = f' := Option.some.inj (hf.symm.trans hf')
          split
          · next hlen =>
              have hdata : (w.st.file file).data ≠ [] := by
                rw [hfile]
                exact List.ne_nil_of_length_pos hlen
              rw [ensures_assign]
              have hrefused : ∀ (w' : World FileStorage Mutex) (sent : List (Event Mutex)),
                  w'.st = w.st.modifyFile file
                    (fun f => { f with dataInfo := f.dataInfo + 1 }) →
                  (∀ m ok, .trylock m ok ∉ sent) →
                  (sapiRespond sapiFailure client (.ret (-1))).Ensures w' fun tr o w'' =>
                    ∀ r, o = .ret r → Listed w.st (file :: items.map Prod.snd)
                      (.trylock (.file file) true :: (sent ++ tr)) w''.st := by
                intro w' sent hst hsent
                rw [ensures_sapiRespond hc, ensures_ret, hst]
                exact ⟨fun _ _ => .use hsent hnot hdata (.done _ _ (by simp)),
                  fun _ _ => .use hsent hnot hdata (.done _ _ (by simp))⟩
              refine Ensures.serverSendPath_bind fun sent r hsent => ?_
              split
              · rw [ensures_unlock, ensures_unlock]
                exact hrefused _ sent rfl hsent.trylock
              · refine Ensures.serverSendData_bind fun sent' r' hsent' => ?_
                have hboth : ∀ m ok, .trylock m ok ∉ sent ++ sent' := by
                  simp [hsent.trylock, hsent'.trylock]
                split
                · rw [ensures_unlock, ensures_unlock]
                  refine (hrefused _ (sent ++ sent') rfl hboth).mono fun tr o w' h => ?_
                  rwa [List.append_assoc] at h
                · rw [ensures_unlock]
                  refine (ih _ hnodup).mono fun tr o w' h r hr => ?_
                  have h := (h r hr).use hboth hnot hdata
                  rwa [List.append_assoc] at h
          · next hlen =>
              rw [ensures_unlock]
              refine (ih n hnodup).mono fun tr o w' h r hr => (h r hr).skip fun _ => ?_
              rw [hfile]
              exact List.eq_nil_of_length_eq_zero (Nat.eq_zero_of_not_pos hlen)

end ReadNFiles

end LsoStore
