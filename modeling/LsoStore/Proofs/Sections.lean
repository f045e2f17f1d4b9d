import LsoStore.Interleaving
import LsoStore.Proofs.LockBalance
import LsoStore.Proofs.SafeEviction

/-!
# Rules for the handlers' sections

One lemma for each section: what it leaves of the storage and of the mutexes,
and which stage its handler gets to. The interleavings are reasoned about
through these.
-/

namespace LsoStore

open Proc FileStorage

section Sections

variable {qsort : Qsort Nat} {message : SMessage} {client : Int} {path : List UInt8}
  {w : World FileStorage Mutex}

/-- The last section of a handler is its own run. -/
theorem runs_of_returning {p : ServerM Int} {tr : List (Event Mutex)} {t : Stage}
    {w' : World FileStorage Mutex} (h : (returning p).Runs w tr (.ret t) w') :
    ∃ r, t = .returned r ∧ p.Runs w tr (.ret r) w' := h.of_bind_ret

/-- One more section of a run, in which no trylock failed. -/
theorem HandlersRun.section {ι : Type} [DecidableEq ι] {handlers : ι → Handler}
    {start : World FileStorage Mutex → Prop}
    {past : List ((ι × List (Event Mutex)) × Handlers ι)} {c : Handlers ι} {t' : Stage}
    {w' : World FileStorage Mutex} (h : HandlersRun qsort handlers start past c) (i : ι)
    (t : Stage) (tr : List (Event Mutex)) (hstage : c.stage i = t)
    (hactive : ∀ r, t ≠ .returned r) (htry : ∀ m, .trylock m false ∉ tr)
    (hr : ((handlers i).next qsort t).Runs c.shared tr (.ret t') w') :
    HandlersRun qsort handlers start (past ++ [((i, tr), c)])
      ⟨w', Function.update c.stage i t'⟩ :=
  h.step _ _ _ _
    (.act c i tr w' t' ⟨hstage ▸ hactive, hstage ▸ hr, fun m hm => absurd hm (htry m)⟩)

/-! ## Opening -/

/-- The two limits leave room for a file. -/
def FileStorage.HasRoom (s : FileStorage) : Prop :=
  ¬ (s.fuStorageBytesAvailable = 0 ∨ s.fuStorageFilesAvailable = 0)

instance (s : FileStorage) : Decidable s.HasRoom := inferInstanceAs (Decidable ¬ _)

/-- An open that found its file leaves the table alone. -/
theorem openFound_some_table (hc : client ≠ 0) (file : Nat) :
    (openFound message client path (some file)).Ensures w fun _ _ w' =>
      w'.st.table = w.st.table := by
  rw [openFound]
  refine Ensures.lockFile (fun _ => rfl) (fun _ => rfl) fun _ f _ => ?_
  split
  · simp [ensures_sapiRespond hc]
  · simp [ensures_takeOwnership, ensures_sapiRespond hc]

/-- An open that found nothing stores its file if there is room. -/
theorem openFound_none_table (hc : client ≠ 0) (hcreate : hasFlag message oCreate = true) :
    (openFound message client path none).Ensures w fun _ o w' => ∀ r, o = .ret r →
      w'.st.table =
        if w.st.HasRoom then w.st.table.huInsert path w.st.next else w.st.table := by
  rw [openFound, hcreate]
  simp only [Bool.not_true, Bool.false_eq_true, if_false]
  rw [ensures_serverCreateFile hc]
  refine ⟨fun _ r hr => (by cases hr), fun _ => ⟨fun hfull ok r _ => ?_, fun hroom ok r _ => ?_⟩⟩
  · have hnot : ¬ w.st.HasRoom := not_not.mpr hfull
    rw [if_neg hnot]
    rfl
  · have hroom : w.st.HasRoom := hroom
    have hfiles : w.st.fuStorageFilesAvailable ≠ 0 := fun h => hroom (.inr h)
    rw [if_pos hroom, WellFormed.fuAddFile_place_eq rfl hfiles]

end Sections

/-! ## Making room -/

/-- The files that an eviction gives up from `s` to free `n` bytes, read off the
answers it got: none if the client does not take the announcement, and as many
as it took notices for if it refuses one of those. -/
def FileStorage.evictGone (s : FileStorage) (qsort : Qsort Nat) (held : Finset Mutex)
    (client : Int) (n : Nat) : List (SMessage × Bool) → List Nat
  | (m, true) :: ans =>
      if m ≠ sapiEvictMsg then []
      else if (sapiEvictMsg, false) ∈ ans then
        (s.victims qsort held client n).take (ans.count (sapiEvictMsg, true))
      else s.victims qsort held client n
  | _ => []

namespace FileStorage

variable {s : FileStorage} {qsort : Qsort Nat} {held : Finset Mutex} {client : Int} {n : Nat}

theorem evictGone_isPrefix (s : FileStorage) (qsort : Qsort Nat) (held : Finset Mutex)
    (client : Int) (n : Nat) (ans : List (SMessage × Bool)) :
    s.evictGone qsort held client n ans <+: s.victims qsort held client n := by
  unfold evictGone
  split
  · split
    · exact List.nil_prefix
    · split
      · exact List.take_prefix ..
      · exact List.prefix_refl _
  · exact List.nil_prefix

/-- Giving those files up takes them out. -/
theorem WellFormed.giveUps_evictGone (h : s.WellFormed) (ans : List (SMessage × Bool)) :
    let gone := s.evictGone qsort held client n ans
    (s.giveUps gone).WellFormed ∧ Without s (s.giveUps gone) gone ∧
      (s.giveUps gone).maxBytes = s.maxBytes := by
  have hsub := (s.evictGone_isPrefix qsort held client n ans).sublist
  exact h.giveUps (hsub.nodup (h.victims_nodup qsort n)) fun a ha =>
    victims_subset (hsub.subset ha)

end FileStorage

/-- What goes on after the eviction does not matter, as the handler sends no
more `SAPI_EVICT`. -/
theorem EvictGave.st_eq {s s' : FileStorage} {qsort : Qsort Nat} {held : Finset Mutex}
    {client : Int} {n : Nat} {ans more : List (SMessage × Bool)} {r : Int}
    (h : EvictGave s qsort held client n ans r s')
    (hmore : ∀ x ∈ more, x.1 = sapiFailure) :
    s' = s.giveUps (s.evictGone qsort held client n (ans ++ more)) := by
  have hfail : sapiFailure ≠ sapiEvictMsg := by decide
  have hsucc : sapiSuccess ≠ sapiEvictMsg := by decide
  have hnot : ∀ ok, (sapiEvictMsg, ok) ∉ more := fun ok hm => hfail (hmore _ hm).symm
  cases h with
  | infeasible _ =>
      rw [List.nil_append]
      cases more with
      | nil => rfl
      | cons x more =>
          obtain ⟨m, ok⟩ := x
          have hm : m = sapiFailure := hmore _ (List.mem_cons_self ..)
          cases ok with
          | false => rfl
          | true => simp [FileStorage.evictGone, hm, hfail, giveUps]
  | unannounced _ _ => rfl
  | refused k _ _ =>
      have hcount : (List.replicate k (sapiEvictMsg, true) ++ [(sapiEvictMsg, false)] ++
          more).count (sapiEvictMsg, true) = k := by
        simp [List.count_append, List.count_eq_zero_of_not_mem (hnot true)]
      rw [List.cons_append, FileStorage.evictGone, if_neg (not_not.mpr rfl), if_pos (by simp),
        hcount]
  | done notices ok _ =>
      have hlast : (if n ≤ s.bytesOf (s.victims qsort held client n) then sapiSuccess
          else sapiFailure) ≠ sapiEvictMsg := by
        split
        · exact hsucc
        · exact hfail
      have hnone : (sapiEvictMsg, false) ∉ List.replicate notices (sapiEvictMsg, true) ++
          [(if n ≤ s.bytesOf (s.victims qsort held client n) then sapiSuccess
            else sapiFailure, ok)] ++ more := by
        simp [hnot, hlast.symm]
      rw [List.cons_append, FileStorage.evictGone, if_neg (not_not.mpr rfl), if_neg hnone]

section MakingRoom

variable {qsort : Qsort Nat} {client : Int} {v : World FileStorage Mutex}

/-- What a writing handler gives up for `n` bytes, when it has answered `ans`. -/
def FileStorage.roomGone (s : FileStorage) (qsort : Qsort Nat) (held : Finset Mutex)
    (client : Int) (n : Nat) (ans : List (SMessage × Bool)) : List Nat :=
  if s.fuStorageBytesAvailable < n then
    s.evictGone qsort held client (n - s.fuStorageBytesAvailable) ans
  else []

/-- How a writing handler leaves its section once it has the length: the files
given up are gone, nobody else's mutex has been given back, and if the client
may send there is room for it and the file's mutex is still held. -/
structure RoomMade (v : World FileStorage Mutex) (qsort : Qsort Nat) (H : Finset Mutex)
    (client : Int) (file n : Nat) (tr : List (Event Mutex)) (t : Stage)
    (w' : World FileStorage Mutex) : Prop where
  st : w'.st = v.st.giveUps (v.st.roomGone qsort v.held client n (answers tr))
  held : H ⊆ w'.held
  stage : (t = .granted file n ∧ w'.held = insert (.file file) H ∧
    n ≤ w'.st.fuStorageBytesAvailable) ∨ ∃ r, t = .returned r

/-- A section that ends with an answer. -/
theorem ensures_returning_sapiRespond (hc : client ≠ 0) {m : SMessage} {r : Int}
    {Q : List (Event Mutex) → Out Stage → World FileStorage Mutex → Prop} :
    (returning (sapiRespond m client (.ret r))).Ensures v Q ↔
      Q [.write (.word m) false] (.ret (.returned (-1))) v ∧
        Q [.write (.word m) true] (.ret (.returned r)) v := by
  rw [returning, ensures_bind, ensures_sapiRespond hc, ensures_ret]
  simp [After]

/-- Room for what is evicted for. -/
theorem FileStorage.WellFormed.room_of_success {s s' : FileStorage} {H : Finset Mutex} {n : Nat}
    {ans : List (SMessage × Bool)} (h : s.WellFormed)
    (hret : EvictReturn s H client (n - s.fuStorageBytesAvailable) ans 0 s')
    (hmax : s'.maxBytes = s.maxBytes) : n ≤ s'.fuStorageBytesAvailable := by
  obtain ⟨gone, hwo, hwf', henough, -⟩ := hret.success
  exact hwo.room h hwf' hmax henough

theorem grantRoom_made (hc : client ≠ 0) {H : Finset Mutex} {file : Nat} (n : Nat)
    (hs : .storage ∉ H) (hf : .file file ∉ insert Mutex.storage H)
    (hv : v.held = insert (.file file) (insert .storage H)) (hwf : v.st.WellFormed) :
    (grantRoom qsort client file n).Ensures v fun tr o w' => ∀ t, o = .ret t →
      Alone v.held tr → RoomMade v qsort H client file n tr t w' := by
  have hback : (v.held.erase (.file file)).erase .storage = H := by
    rw [hv, Finset.erase_insert hf, Finset.erase_insert hs]
  have hkeep : v.held.erase .storage = insert (.file file) H := by
    rw [hv, Finset.erase_insert_of_ne (by simp), Finset.erase_insert hs]
  rw [grantRoom, ensures_get]
  split
  · next hlt =>
      have hroom : ∀ ans, v.st.roomGone qsort v.held client n ans =
          v.st.evictGone qsort v.held client (n - v.st.fuStorageBytesAvailable) ans :=
        fun ans => if_pos hlt
      refine ensures_bind.mpr (((serverEvict_held qsort hc _).and
        (serverEvict_gave qsort hc _ hwf)).mono fun tr o w' h => ?_)
      cases o with
      | exit => exact fun t ht => by cases ht
      | fault => exact fun t ht => by cases ht
      | blocked => exact fun t ht => by cases ht
      | ret r =>
          obtain ⟨hheld, hgave⟩ := h
          simp only [After]
          split
          · next hr =>
              have hsub : H ⊆ (w'.held.erase (.file file)).erase .storage := by
                rcases hheld r rfl with ⟨-, -, a, -, -, ha⟩ | ⟨-, ha⟩
                · rw [ha]
                  exact hback ▸ Finset.erase_subset_erase _ (Finset.erase_subset_erase _
                    (Finset.subset_insert _ _))
                · rw [ha, hback]
              have hend : ∀ ok ret, Alone v.held (tr ++ [.write (.word sapiFailure) ok]) →
                  RoomMade v qsort H client file n (tr ++ [.write (.word sapiFailure) ok])
                    (.returned ret) ⟨w'.st, (w'.held.erase (.file file)).erase .storage⟩ := by
                intro ok ret halone
                have hgave := hgave r rfl fun m hm => halone m (List.mem_append_left _ hm)
                refine ⟨?_, hsub, .inr ⟨ret, rfl⟩⟩
                rw [hroom, answers_append]
                exact hgave.st_eq (by simp)
              rw [ensures_unlock, ensures_unlock, ensures_returning_sapiRespond hc]
              constructor
              · intro t ht halone
                cases ht
                exact hend false _ halone
              · intro t ht halone
                cases ht
                exact hend true _ halone
          · next hr =>
              have hr : r = 0 := not_not.mp hr
              subst hr
              rw [ensures_unlock, ensures_ret]
              intro t ht halone
              cases ht
              rw [List.append_nil] at halone ⊢
              have hgave := hgave 0 rfl halone
              have hnone : ∀ x ∈ ([] : List (SMessage × Bool)), x.1 = sapiFailure := by simp
              have hst := hgave.st_eq hnone
              rw [List.append_nil] at hst
              have hheld : w'.held = v.held :=
                ((hheld 0 rfl).resolve_left fun h => h.2.1 rfl).2
              refine ⟨by rw [hroom]; exact hst, ?_, .inl ⟨rfl, ?_, ?_⟩⟩
              · rw [hheld, hkeep]
                exact Finset.subset_insert _ _
              · rw [hheld, hkeep]
              · refine hwf.room_of_success (hgave.toReturn hwf) ?_
                rw [hst]
                exact (hwf.giveUps_evictGone _).2.2
  · next hge =>
      have hroom : ∀ ans, v.st.roomGone qsort v.held client n ans = [] := fun ans => if_neg hge
      rw [ensures_serverRespond_bind hc]
      constructor
      · simp only [ne_eq, Int.reduceNeg, neg_eq_zero, one_ne_zero, not_false_eq_true, if_true,
          ensures_unlock, ensures_ret]
        intro t ht _
        cases ht
        exact ⟨by rw [hroom]; rfl, hback.ge, .inr ⟨1, rfl⟩⟩
      · simp only [ne_eq, not_true_eq_false, if_false, ensures_unlock, ensures_ret]
        intro t ht _
        cases ht
        refine ⟨by rw [hroom]; rfl, ?_, .inl ⟨rfl, hkeep, Nat.not_lt.mp hge⟩⟩
        rw [hkeep]
        exact Finset.subset_insert _ _

end MakingRoom

/-! ## Writing -/

/-- The length word, when the section went on with one. -/
def sentLength : List (Event Mutex) → Option Nat
  | .read _ (some bs) :: _ =>
      if bs.length < 8 then none else some (LittleEndian.decode bs)
  | .read _ none :: .unspec junk :: _ => some (LittleEndian.decode (junk.take 8))
  | _ => none

/-- The files that the section of a writing handler gives up, read off the
length it is sent and the answers it gets. -/
def Handler.writeGone (h : Handler) (qsort : Qsort Nat) (w : World FileStorage Mutex)
    (tr : List (Event Mutex)) : List Nat :=
  match sentLength tr with
  | none => []
  | some n => (w.st.fuGetfile h.path).2.roomGone qsort (h.holding w) h.client n (answers tr)

theorem FileStorage.WellFormed.giveUps_writeGone {w : World FileStorage Mutex}
    (hwf : w.st.WellFormed) (h : Handler) (qsort : Qsort Nat) (tr : List (Event Mutex)) :
    let gone := h.writeGone qsort w tr
    let s := (w.st.fuGetfile h.path).2
    (s.giveUps gone).WellFormed ∧ Without s (s.giveUps gone) gone ∧
      (s.giveUps gone).maxBytes = s.maxBytes := by
  have hwf' := hwf.fuGetfile h.path
  unfold Handler.writeGone
  split
  · exact ⟨hwf', .refl _, rfl⟩
  · unfold roomGone
    split
    · exact hwf'.giveUps_evictGone _
    · exact ⟨hwf', .refl _, rfl⟩

/-- How a writing handler leaves its section. -/
structure WriteSectionDone (h : Handler) (qsort : Qsort Nat) (w : World FileStorage Mutex)
    (tr : List (Event Mutex)) (t : Stage) (w' : World FileStorage Mutex) : Prop where
  st : w'.st = (w.st.fuGetfile h.path).2.giveUps (h.writeGone qsort w tr)
  held : w.held ⊆ w'.held
  stage : (∃ file n, t = .granted file n ∧ w.st.table.huGet h.path = some file ∧
    (w.st.file file).client = h.client ∧ .file file ∉ w.held ∧
    w'.held = insert (.file file) w.held ∧ n ≤ w'.st.fuStorageBytesAvailable) ∨
    ∃ r, t = .returned r

section Writing

variable {qsort : Qsort Nat} {client : Int} {w : World FileStorage Mutex} {h : Handler}

theorem ensures_readLength (hc : client ≠ 0) {k : Nat → ServerM Stage}
    {Q : List (Event Mutex) → Out Stage → World FileStorage Mutex → Prop} :
    (readLength client k).Ensures w Q ↔
      (∀ junk, (k (LittleEndian.decode (junk.take 8))).Ensures w
        fun tr => Q (.read 8 none :: .unspec junk :: tr)) ∧
      ∀ bs : List UInt8, bs.length ≤ 8 →
        (bs.length < 8 → ∀ ok,
          Q [.read 8 (some bs), .write (.word sapiFailure) ok] (.ret (.returned 1)) w) ∧
        (¬ bs.length < 8 →
          (k (LittleEndian.decode bs)).Ensures w fun tr => Q (.read 8 (some bs) :: tr)) := by
  simp only [readLength, ensures_read, Option.forall, fits_none, true_implies,
    ensures_unspec, fits_some]
  refine and_congr_right fun _ => forall_congr' fun bs => imp_congr_right fun _ => ?_
  split
  · next h => simp [h, serverRespond, hc]
  · next h => simp [h]

/-- A section in which nothing was sent, or not all of it. -/
theorem WriteSectionDone.of_unsent {tr : List (Event Mutex)} {r : Int}
    {w' : World FileStorage Mutex} (hlen : sentLength tr = none)
    (hst : w'.st = (w.st.fuGetfile h.path).2) (hheld : w.held ⊆ w'.held) :
    WriteSectionDone h qsort w tr (.returned r) w' := by
  refine ⟨?_, hheld, .inr ⟨r, rfl⟩⟩
  rw [Handler.writeGone, hlen]
  exact hst

/-- A section in which the length arrived, as `pre` says. -/
theorem RoomMade.done {file n : Nat} {tr : List (Event Mutex)} {t : Stage}
    {w' : World FileStorage Mutex}
    (hm : RoomMade ⟨(w.st.fuGetfile h.path).2, h.holding w⟩ qsort w.held h.client file n tr t w')
    (pre : List (Event Mutex)) (hget : w.st.table.huGet h.path = some file)
    (howner : (w.st.file file).client = h.client) (hf : .file file ∉ w.held)
    (hlen : sentLength (pre ++ tr) = some n) (hpre : answers pre = []) :
    WriteSectionDone h qsort w (pre ++ tr) t w' where
  st := by
    rw [Handler.writeGone, hlen, answers_append, hpre, List.nil_append]
    exact hm.st
  held := hm.held
  stage := hm.stage.imp_left fun ⟨ht, hheld, hroom⟩ =>
    ⟨file, n, ht, hget, howner, hf, hheld, hroom⟩

theorem writeSection_done (hc : h.client ≠ 0) (hwf : w.st.WellFormed) :
    (writeSection qsort h.client h.path).Ensures w fun tr o w' => ∀ t, o = .ret t →
      Alone (h.holding w) tr → WriteSectionDone h qsort w tr t w' := by
  rw [writeSection]
  refine ensures_lock.mpr ⟨fun _ t ht => (by cases ht), fun hs => ?_⟩
  rw [ensures_getfile]
  dsimp only
  cases hget : w.st.table.huGet h.path with
  | none =>
      dsimp only
      rw [ensures_unlock, ensures_returning_sapiRespond hc]
      dsimp only
      rw [Finset.erase_insert hs]
      constructor
      · intro t ht _
        cases ht
        exact .of_unsent rfl rfl (Finset.Subset.refl _)
      · intro t ht _
        cases ht
        exact .of_unsent rfl rfl (Finset.Subset.refl _)
  | some file =>
      have hholding : h.holding w = insert (.file file) (insert .storage w.held) := by
        rw [Handler.holding, hget]
      refine Ensures.lockFile (fun _ t ht => (by cases ht)) (fun _ t ht => (by cases ht))
        fun hf f hfile => ?_
      dsimp only at hfile ⊢
      split
      · rw [ensures_unlock, ensures_returning_sapiRespond hc]
        dsimp only
        rw [Finset.erase_insert hf]
        constructor
        · intro t ht _
          cases ht
          exact .of_unsent rfl rfl (Finset.subset_insert _ _)
        · intro t ht _
          cases ht
          exact .of_unsent rfl rfl (Finset.subset_insert _ _)
      · next howner =>
          have howner : (w.st.file file).client = h.client :=
            (fuGetfile_client _ hfile).trans (not_not.mp howner)
          have hfree : .file file ∉ w.held := fun hm => hf (Finset.mem_insert_of_mem hm)
          have hmade : ∀ n, (grantRoom qsort h.client file n).Ensures
              ⟨(w.st.fuGetfile h.path).2, h.holding w⟩ _ := fun n =>
            grantRoom_made hc n hs hf hholding (hwf.fuGetfile h.path)
          rw [← hholding, ensures_readLength hc]
          refine ⟨fun junk => ?_, fun bs _ => ⟨fun hlt ok => ?_, fun hlt => ?_⟩⟩
          · refine (hmade _).mono fun tr o w' hm t ht halone => ?_
            have halone : Alone (h.holding w) tr := fun m hmem => halone m (by simp [hmem])
            exact (hm t ht halone).done [.read 8 none, .unspec junk] hget howner hfree rfl rfl
          · intro t ht _
            cases ht
            refine .of_unsent (by simp [sentLength, hlt]) rfl ?_
            rw [hholding]
            exact (Finset.subset_insert _ _).trans (Finset.subset_insert _ _)
          · refine (hmade _).mono fun tr o w' hm t ht halone => ?_
            have halone : Alone (h.holding w) tr := fun m hmem => halone m (by simp [hmem])
            exact (hm t ht halone).done [.read 8 (some bs)] hget howner hfree
              (by simp [sentLength, hlt]) rfl

/-- Whether some data came in. -/
def bodyRead : List (Event Mutex) → Bool
  | .read n (some _) :: _ => n ≠ 0
  | _ => false

/-- If data came in, it is written by one call of `fu_writefile`, with as many
bytes as were granted. That is all that happens but for the file's mutex, which
is given back. -/
structure Received (w : World FileStorage Mutex) (file n : Nat) (offset : FileData → Nat)
    (tr : List (Event Mutex)) (w' : World FileStorage Mutex) : Prop where
  held : w'.held = w.held.erase (.file file)
  unwritten : bodyRead tr = false → w'.st = w.st
  written : bodyRead tr = true → ∃ f d err, w.st.heap file = some f ∧ d.length = n ∧ 0 < n ∧
    n ≤ muLimit ∧ w.st.fuWritefile file (offset f) (some d) = some (err, w'.st)

theorem receiveData_received (hc : client ≠ 0) (file n : Nat) (offset : FileData → Nat) :
    (receiveData client file n offset).Ensures w fun tr o w' => ∀ r, o = .ret r →
      Received w file n offset tr w' := by
  rw [receiveData, ensures_muCalloc]
  refine ⟨fun _ r hr => (by cases hr), fun hlim => ?_⟩
  rw [ensures_read]
  intro r hr
  cases r with
  | none =>
      have hnone : ∀ tr, Received w file n offset (.read n none :: tr)
          { w with held := w.held.erase (.file file) } := fun tr =>
        ⟨rfl, fun _ => rfl, fun h => by cases h⟩
      rw [ensures_unlock, ensures_serverRespond_bind hc]
      simp only [ensures_ret]
      exact ⟨fun _ _ => hnone _, fun _ _ => hnone _⟩
  | some bs =>
      dsimp only
      rw [ensures_deref]
      refine ⟨fun _ r hr => (by cases hr), fun f hf => ?_⟩
      rw [ensures_get]
      set data := if n = 0 then none else some (bs ++ List.replicate (n - bs.length) 0) with hdata
      cases hw : w.st.fuWritefile file (offset f) data with
      | none => simp
      | some res =>
          obtain ⟨err, s'⟩ := res
          have hdone : ∀ tr, Received w file n offset (.read n (some bs) :: tr)
              ⟨s', w.held.erase (.file file)⟩ := by
            intro tr
            rw [hdata] at hw
            by_cases hn : n = 0
            · rw [if_pos hn] at hw
              injection hw with hw
              injection hw with _ hs
              exact ⟨rfl, fun _ => hs.symm, fun h => by simp [bodyRead, hn] at h⟩
            · rw [if_neg hn] at hw
              refine ⟨rfl, fun h => by simp [bodyRead, hn] at h, fun _ => ?_⟩
              have hbs : bs.length ≤ n := fits_some.mp hr
              refine ⟨f, _, err, hf, ?_, Nat.pos_of_ne_zero hn, Nat.not_lt.mp hlim, hw⟩
              rw [List.length_append, List.length_replicate, Nat.add_sub_cancel' hbs]
          dsimp only
          rw [ensures_set]
          split
          · rw [ensures_unlock, ensures_serverRespond_bind hc]
            simp only [ensures_ret]
            exact ⟨fun _ _ => hdone _, fun _ _ => hdone _⟩
          · rw [ensures_serverRespond_bind hc]
            simp only [ne_eq, Int.reduceNeg, neg_eq_zero, one_ne_zero, not_false_eq_true,
              if_true, not_true_eq_false, if_false, ensures_unlock, ensures_ret]
            exact ⟨fun _ _ => hdone _, fun _ _ => hdone _⟩

end Writing

end LsoStore
