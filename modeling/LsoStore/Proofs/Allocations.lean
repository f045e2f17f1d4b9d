import Mathlib.Data.BitVec
import LsoStore.Proofs.EvictDialogue
import LsoStore.Proofs.Sections

/-!
# Requests the allocator can serve

`mu_malloc`, `mu_calloc` and `mu_realloc` end the process when they are asked for
more than 2^22 bytes. A handler gets there with sizes that come from the client:
the length of the path, the length of the data, and what a file would be long
after an append. The first has 24 bits in the request word, and the other two are
compared with the storage's capacity, which may be larger than the limit.
-/

namespace LsoStore

open Proc FileStorage

/-- The run did not end in the allocator. -/
def Survives {α : Type} (_tr : List (Event Mutex)) (o : Out α) (_w : World FileStorage Mutex) :
    Prop := o ≠ .exit

section Survives

variable {α : Type} {tr : List (Event Mutex)} {w : World FileStorage Mutex} {client : Int}

@[simp] theorem survives_ret {a : α} : Survives tr (.ret a) w := fun h => by cases h

@[simp] theorem survives_blocked : Survives (α := α) tr .blocked w := fun h => by cases h

@[simp] theorem survives_fault : Survives (α := α) tr .fault w := fun h => by cases h

@[simp] theorem not_survives_exit : ¬ Survives (α := α) tr .exit w := fun h => h rfl

theorem sapiRespond_survives (hc : client ≠ 0) (m : SMessage) (r : Int) :
    (sapiRespond m client (.ret r)).Ensures w Survives := by
  rw [ensures_sapiRespond hc, ensures_ret]
  exact ⟨survives_ret, survives_ret⟩

end Survives

/-! ## Data -/

section Data

variable {qsort : Qsort Nat} {client : Int} {file n : Nat} {offset : FileData → Nat}
  {w : World FileStorage Mutex}

/-- Data that there is room for is written unless the file becomes too long. -/
theorem FileStorage.Accounted.fuWritefile_eq_none_iff {s : FileStorage} {i : Nat}
    {d : List UInt8} (h : s.Accounted) (hptr : file ∈ s.ptrs) (hd : 0 < d.length)
    (hlen : d.length ≤ muLimit) (hi : i ≤ (s.file file).dataLen)
    (hroom : d.length ≤ s.fuStorageBytesAvailable) :
    s.fuWritefile file i (some d) = none ↔ i + d.length > muLimit := by
  have hstored := dataLen_le_storedBytes hptr
  have hbytes := h.bytes
  have hmax := h.bytes_le
  rw [h.bytesAvailable] at hroom
  rw [h.fuWritefile_of_fits hptr hd hlen hi (by omega)]
  split
  · next hover => exact iff_of_true rfl hover
  · next hover => exact iff_of_false (by simp) hover

/-- Data that there is room for is received unless the file becomes too long. -/
theorem receiveData_survives_iff (hc : client ≠ 0) (hacc : w.st.Accounted)
    (hptr : file ∈ w.st.ptrs) (hlen : (w.st.file file).dataLen ≤ muLimit)
    (hoff : ∀ f : FileData, offset f ≤ f.dataLen) (hroom : n ≤ w.st.fuStorageBytesAvailable) :
    (receiveData client file n offset).Ensures w Survives ↔
      offset (w.st.file file) + n ≤ muLimit := by
  obtain ⟨f, hf⟩ := Option.ne_none_iff_exists'.mp (hacc.live file hptr)
  rw [file_eq _ hf] at hlen ⊢
  have hoffset := hoff f
  have hwrite : ∀ d : List UInt8, d.length = n → 0 < n → n ≤ muLimit →
      (w.st.fuWritefile file (offset f) (some d) = none ↔ offset f + n > muLimit) := by
    intro d heq hpos hle
    subst heq
    exact hacc.fuWritefile_eq_none_iff hptr hpos hle (by rw [file_eq _ hf]; exact hoff f) hroom
  rw [receiveData, ensures_muCalloc]
  constructor
  · intro h
    obtain ⟨hlong, hshort⟩ := h
    by_contra hover
    by_cases hlim : n > muLimit
    · exact not_survives_exit (hlong hlim)
    · have hbody := ensures_read.mp (hshort hlim) (some (List.replicate n 0)) (by simp)
      have hwritten := (ensures_deref.mp hbody).2 f hf
      have hnone := (hwrite (List.replicate n 0 ++ List.replicate (n - n) 0) (by simp)
        (by omega) (Nat.not_lt.mp hlim)).mpr (Nat.not_le.mp hover)
      rw [if_neg (by omega), ensures_get, List.length_replicate, hnone, ensures_exit] at hwritten
      exact not_survives_exit hwritten
  · intro hfit
    refine ⟨fun hlim => absurd hlim (by omega), fun hlim => ensures_read.mpr fun r hr => ?_⟩
    cases r with
    | none =>
        rw [ensures_unlock, ensures_serverRespond_bind hc]
        exact ⟨ensures_ret.mpr survives_ret, ensures_ret.mpr survives_ret⟩
    | some bs =>
        refine ensures_deref.mpr ⟨fun _ => survives_fault, fun f' hf' => ?_⟩
        obtain rfl : f = f' := Option.some.inj (hf.symm.trans hf')
        rw [ensures_get]
        split
        · next hnone =>
            exfalso
            split at hnone
            · cases hnone
            · next hn =>
                refine absurd ((hwrite _ ?_ (Nat.pos_of_ne_zero hn) (by omega)).mp hnone) (by omega)
                rw [List.length_append, List.length_replicate,
                  Nat.add_sub_cancel' (fits_some.mp hr)]
        · rw [ensures_set]
          split
          · rw [ensures_unlock, ensures_serverRespond_bind hc]
            exact ⟨ensures_ret.mpr survives_ret, ensures_ret.mpr survives_ret⟩
          · rw [ensures_serverRespond_bind hc]
            simp

end Data

/-! ## Making room -/

section Loop

variable {client : Int} {w : World FileStorage Mutex}

theorem evictFile_survives (hc : client ≠ 0) (sendFilesBack : Bool) (a : Nat) (f : FileData) :
    (evictFile client sendFilesBack a f).Ensures w Survives := by
  rw [evictFile]
  split
  · rw [ensures_serverRespond_bind hc]
    refine ⟨by simp, ?_⟩
    rw [if_neg (by decide)]
    refine Ensures.serverSendPath_bind fun _ _ _ => ?_
    refine Ensures.serverSendData_bind fun _ _ _ => ?_
    simp
  · simp

/-- What the loop over `as` has freed when it ends, whichever mutexes it got. -/
def LoopFreed (s : FileStorage) (held : Finset Mutex) (client : Int) (as : List Nat) (n : Nat)
    (_tr : List (Event Mutex)) (o : Out (Option Nat)) (w' : World FileStorage Mutex) : Prop :=
  match o with
  | .ret (some rest) => ∃ gone, gone.Sublist (s.evictables held client as) ∧
      Without s w'.st gone ∧ w'.st.WellFormed ∧ n ≤ rest + s.bytesOf gone
  | .exit => False
  | _ => True

theorem LoopFreed.skip {s : FileStorage} {held : Finset Mutex} {a n : Nat} {as : List Nat}
    {tr tr' : List (Event Mutex)} {o : Out (Option Nat)} {w' : World FileStorage Mutex}
    (h : LoopFreed s held client as n tr o w') : LoopFreed s held client (a :: as) n tr' o w' := by
  have hsub : (s.evictables held client as).Sublist (s.evictables held client (a :: as)) :=
    (List.sublist_cons_self a as).filter _
  rcases o with (_ | rest) | _ | _ | _
  · trivial
  · obtain ⟨gone, hgone, hrest⟩ := h
    exact ⟨gone, hgone.trans hsub, hrest⟩
  · exact h
  · trivial
  · trivial

theorem LoopFreed.cons {s s' : FileStorage} {held : Finset Mutex} {a n : Nat} {as : List Nat}
    {tr tr' : List (Event Mutex)} {o : Out (Option Nat)} {w' : World FileStorage Mutex}
    (h : LoopFreed s' held client as (n - (s.file a).dataLen) tr o w')
    (h₁ : Without s s' [a]) (ha : a ∉ as) (he : s.Evictable held client a) :
    LoopFreed s held client (a :: as) n tr' o w' := by
  rcases o with (_ | rest) | _ | _ | _
  · trivial
  · obtain ⟨gone, hgone, hwo, hwf, hn⟩ := h
    have hnot : a ∉ gone := fun hm => ha (List.mem_of_mem_filter (hgone.subset hm))
    rw [h₁.evictables_eq ha] at hgone
    rw [h₁.bytesOf_eq hnot] at hn
    refine ⟨a :: gone, ?_, h₁.cons hwo hnot, hwf, ?_⟩
    · rw [evictables, List.filter_cons, if_pos (decide_eq_true he)]
      exact hgone.cons_cons a
    · simp only [bytesOf, List.map_cons, List.sum_cons] at hn ⊢
      omega
  · exact h
  · trivial
  · trivial

theorem evictLoop_freed (hc : client ≠ 0) (sendFilesBack : Bool) (as : List Nat) (n : Nat)
    (hwf : w.st.WellFormed) (hnodup : as.Nodup) (has : ∀ a ∈ as, a ∈ w.st.ptrs) :
    (evictLoop client sendFilesBack (as.map some) n).Ensures w
      (LoopFreed w.st w.held client as n) := by
  induction as generalizing n w with
  | nil =>
      rw [List.map_nil, evictLoop, ensures_ret]
      exact ⟨[], List.Sublist.refl _, .refl _, hwf, Nat.le_add_right ..⟩
  | cons a as ih =>
      obtain ⟨hna, hnodup'⟩ := List.nodup_cons.mp hnodup
      have has' : ∀ b ∈ as, b ∈ w.st.ptrs := fun b hb => has b (List.mem_cons_of_mem _ hb)
      rw [List.map_cons, evictLoop]
      split
      · next h0 =>
          rw [ensures_ret]
          exact ⟨[], List.nil_sublist _, .refl _, hwf, by omega⟩
      · rw [ensures_deref]
        refine ⟨fun _ => trivial, fun f hf => ensures_trylock.mpr ⟨?_, fun hm => ?_⟩⟩
        · exact (ih n hwf hnodup' has').mono fun _ _ _ h => h.skip
        · have herase : (insert (Mutex.file a) w.held).erase (.file a) = w.held :=
            Finset.erase_insert hm
          rw [ensures_deref]
          refine ⟨fun _ => trivial, fun f' hf' => ?_⟩
          obtain rfl : f = f' := Option.some.inj (hf.symm.trans hf')
          split
          · rw [ensures_unlock]
            dsimp only
            rw [herase]
            exact (ih n hwf hnodup' has').mono fun _ _ _ h => h.skip
          · next howner =>
              have hfile := file_eq _ hf
              have he : w.st.Evictable w.held client a := by
                rw [Evictable, hfile]
                exact ⟨hm, by tauto⟩
              have hgone := evictFile_gaveUp (w := ⟨w.st, insert (.file a) w.held⟩) hc hf hm rfl
                sendFilesBack
              have hends := evictFile_survives (w := ⟨w.st, insert (.file a) w.held⟩) hc
                sendFilesBack a f
              refine ensures_bind.mpr ((hgone.and hends).mono fun tr o w' hboth => ?_)
              obtain ⟨h, hend⟩ := hboth
              rcases o with (_ | _) | _ | _ | _
              · rw [After, if_neg (by decide), ensures_ret]
                trivial
              · obtain ⟨hheld, hst, -⟩ := h
                have hwo : Without w.st w'.st [a] := hst ▸ hwf.without_giveUp
                  (has a (List.mem_cons_self ..))
                have hin := hwo.subset_ptrs hna has'
                have hleft : (if f.dataLen > n then 0 else n - f.dataLen) =
                    n - (w.st.file a).dataLen := by
                  rw [hfile]
                  split
                  · omega
                  · rfl
                rw [After, if_pos rfl, hleft]
                refine (ih _ (hst ▸ hwf.giveUp a) hnodup' hin).mono fun _ _ _ h => ?_
                rw [hheld] at h
                exact h.cons hwo hna he
              · exact absurd hend not_survives_exit
              · trivial
              · trivial

/-- A run in which nobody else has a mutex and the client does not want the files. -/
theorem evictLoop_runs (client : Int) (as : List Nat) (n : Nat) (hwf : w.st.WellFormed)
    (hnodup : as.Nodup) (has : ∀ a ∈ as, a ∈ w.st.ptrs) :
    ∃ tr rest w', (evictLoop client false (as.map some) n).Runs w tr (.ret (some rest)) w' ∧
      Alone w.held tr := by
  induction as generalizing n w with
  | nil => exact ⟨[], n, w, by simp [evictLoop], by simp [Alone]⟩
  | cons a as ih =>
      obtain ⟨hna, hnodup'⟩ := List.nodup_cons.mp hnodup
      have has' : ∀ b ∈ as, b ∈ w.st.ptrs := fun b hb => has b (List.mem_cons_of_mem _ hb)
      have ha := has a (List.mem_cons_self ..)
      obtain ⟨f, hf⟩ := Option.ne_none_iff_exists'.mp (hwf.accounted.live a ha)
      have hfile := file_eq _ hf
      rw [List.map_cons, evictLoop]
      by_cases h0 : n = 0
      · rw [if_pos h0]
        exact ⟨[], 0, w, by simp, by simp [Alone]⟩
      simp only [if_neg h0, runs_deref hf, runs_trylock]
      by_cases hm : .file a ∈ w.held
      · obtain ⟨tr, rest, w', hr, halone⟩ := ih n hwf hnodup' has'
        refine ⟨.trylock (.file a) false :: tr, rest, w', ⟨false, tr, rfl, by simp, hr⟩, ?_⟩
        intro m hmem
        rcases List.mem_cons.mp hmem with hmem | hmem
        · injection hmem with hmem
          exact hmem ▸ hm
        · exact halone m hmem
      · have herase : (insert (Mutex.file a) w.held).erase (.file a) = w.held :=
          Finset.erase_insert hm
        have hcons : ∀ {tr : List (Event Mutex)}, Alone w.held tr →
            Alone w.held (.trylock (.file a) true :: tr) := fun halone m hmem =>
          halone m ((List.mem_cons.mp hmem).resolve_left (by simp))
        by_cases howner : f.client ≠ -1 ∧ f.client ≠ client
        · obtain ⟨tr, rest, w', hr, halone⟩ := ih n hwf hnodup' has'
          refine ⟨.trylock (.file a) true :: tr, rest, w', ⟨true, tr, rfl, fun _ => hm, ?_⟩,
            hcons halone⟩
          dsimp only
          rw [if_pos rfl, runs_deref (w := ⟨w.st, insert (.file a) w.held⟩) hf, if_pos howner,
            runs_unlock]
          dsimp only
          rwa [herase]
        · have hst : ((w.st.modifyFile a fun f => { f with client := -2 }).fuRemoveFile
              f.path).2 = w.st.giveUp a := by rw [giveUp, hfile]
          have hwo : Without w.st (w.st.giveUp a) [a] := hwf.without_giveUp ha
          have hin := hwo.subset_ptrs hna has'
          obtain ⟨tr, rest, w', hr, halone⟩ := ih (w := ⟨w.st.giveUp a, w.held⟩)
            (if f.dataLen > n then 0 else n - f.dataLen) (hwf.giveUp a) hnodup' hin
          refine ⟨.trylock (.file a) true :: tr, rest, w', ⟨true, tr, rfl, fun _ => hm, ?_⟩,
            hcons halone⟩
          dsimp only
          rw [if_pos rfl, runs_deref (w := ⟨w.st, insert (.file a) w.held⟩) hf, if_neg howner,
            evictFile, if_neg (by decide)]
          simpa [assign, removefile, herase, hst] using hr

end Loop

/-- How an eviction of `n` bytes ends: in the allocator if there are too many
files, and with 0 only if it found enough among the files it may give up. -/
def EvictFreed (s : FileStorage) (held : Finset Mutex) (client : Int) (n : Nat)
    (_tr : List (Event Mutex)) (o : Out Int) (w' : World FileStorage Mutex) : Prop :=
  match o with
  | .ret r => r = 0 → ∃ gone, (∀ b ∈ gone, s.Evictable held client b) ∧ Without s w'.st gone ∧
      w'.st.WellFormed ∧ n ≤ s.bytesOf gone ∧
      s.bytesOf gone ≤ s.bytesOf (s.evictables held client s.ptrs)
  | .exit => 8 * s.currFiles > muLimit
  | _ => True

/-- The bytes that a write may ask for: those that are available and those of
the files that may be given up for it. -/
def FileStorage.roomFor (s : FileStorage) (held : Finset Mutex) (client : Int) : Nat :=
  s.fuStorageBytesAvailable + s.bytesOf (s.evictables held client s.ptrs)

section Evict

variable {qsort : Qsort Nat} {client : Int} {n : Nat} {w : World FileStorage Mutex}

theorem serverEvict_freed (hc : client ≠ 0) (hwf : w.st.WellFormed) :
    (serverEvict qsort client n).Ensures w (EvictFreed w.st w.held client n) := by
  have hfails : ∀ tr w', EvictFreed w.st w.held client n tr (.ret (-1)) w' :=
    fun _ _ h => by cases h
  have hperm := w.st.evictOrder_perm qsort
  refine Ensures.serverEvict hc fuEvictFiles_eq_none_iff.mp (fun _ _ _ => hfails _ _)
    (fun _ _ _ => hfails _ _) fun arr harr hlen flag pre _ => ?_
  rcases hwf.fuEvictFiles_cases harr with ⟨hempty, -⟩ | ⟨-, -, -, hslots⟩
  · exact absurd hempty hlen
  · rw [hslots]
    refine ensures_bind.mpr ((evictLoop_freed hc flag _ n hwf
      (hperm.nodup_iff.mpr hwf.accounted.nodup)
      fun a ha => hperm.mem_iff.mp ha).mono fun tr o w' h => ?_)
    rcases o with (_ | rest) | _ | _ | _
    · rw [After, evictAnswer, ensures_ret]
      exact hfails _ _
    · obtain ⟨gone, hsub, hwo, hwf', hn⟩ := h
      rw [After, evictAnswer]
      split
      · next h0 =>
          rw [ensures_sapiRespond hc, ensures_ret]
          refine ⟨hfails _ _, fun _ => ⟨gone, fun b hb => ?_, hwo, hwf', by omega, ?_⟩⟩
          · exact of_decide_eq_true (List.mem_filter.mp (hsub.subset hb)).2
          · rw [← bytesOf_perm (evictables_perm hperm w.held client)]
            exact bytesOf_le_of_sublist hsub
      · rw [ensures_sapiRespond hc, ensures_ret]
        exact ⟨hfails _ _, hfails _ _⟩
    · exact h.elim
    · trivial
    · trivial

/-- If the files that may be given up suffice, there is a run that returns 0. -/
theorem serverEvict_runs (hc : client ≠ 0) (hwf : w.st.WellFormed)
    (hfew : 8 * w.st.currFiles ≤ muLimit) (hpos : 0 < n)
    (henough : n ≤ w.st.bytesOf (w.st.evictables w.held client w.st.ptrs)) :
    ∃ tr w', (serverEvict qsort client n).Runs w tr (.ret 0) w' := by
  have hperm := w.st.evictOrder_perm qsort
  have hstored : n ≤ w.st.storedBytes := henough.trans (bytesOf_le_of_sublist List.filter_sublist)
  have hne : w.st.ptrs ≠ [] := by
    intro hnil
    rw [storedBytes, hnil] at hstored
    simp at hstored
    omega
  obtain ⟨arr, harr⟩ : ∃ arr, w.st.fuEvictFiles qsort n = some arr :=
    Option.ne_none_iff_exists'.mp fun h => absurd (fuEvictFiles_eq_none_iff.mp h) (by omega)
  rcases hwf.fuEvictFiles_cases harr with ⟨-, hshort⟩ | ⟨hlen, -, -, hslots⟩
  · exact absurd hshort (not_or.mpr ⟨by omega, hne⟩)
  · have hnodup := hperm.nodup_iff.mpr hwf.accounted.nodup
    have hin : ∀ a ∈ w.st.evictOrder qsort, a ∈ w.st.ptrs := fun a ha => hperm.mem_iff.mp ha
    obtain ⟨tr, rest, w', hloop, halone⟩ := evictLoop_runs client _ n hwf hnodup hin
    have hgave := evictLoop_gave hc false _ n hwf hnodup hin rfl tr _ w' hloop halone
    have hrest : rest = 0 := by
      obtain ⟨-, hrest, -⟩ := hgave
      have hall := bytesOf_perm (s := w.st) (evictables_perm hperm w.held client)
      rcases givenUp_complete w.st w.held client (w.st.evictOrder qsort) n with h | h
      · omega
      · rw [h] at hrest
        omega
    subst hrest
    rw [← hslots] at hloop
    have hend : (sapiRespond sapiSuccess client (.ret 0)).Runs w'
        [.write (.word sapiSuccess) true] (.ret 0) w' := by simp [sapiRespond, serverRespond, hc]
    refine ⟨.write (.word sapiEvictMsg) true :: .read 8 (some (List.replicate 8 0)) ::
      (tr ++ [.write (.word sapiSuccess) true]), w', ?_⟩
    simp only [serverEvict, runs_get, harr, if_neg hlen, serverRespond, if_neg hc, write_bind,
      runs_write]
    refine ⟨true, _, rfl, ?_⟩
    simp only [if_pos, ret_bind, ne_eq, not_true_eq_false, if_false, serverGetLen, if_neg hc,
      read_bind, runs_read]
    refine ⟨some (List.replicate 8 0), _, rfl, by simp, ?_⟩
    exact hloop.bind hend

/-- An eviction for a write that succeeds: what it says about the files that may
be given up, and about the file that is written to. -/
theorem EvictFreed.room {s : FileStorage} {held : Finset Mutex} {file : Nat}
    {tr : List (Event Mutex)} {w' : World FileStorage Mutex}
    (h : EvictFreed s held client (n - s.fuStorageBytesAvailable) tr (.ret 0) w')
    (hwf : s.WellFormed) (hmax : w'.st.maxBytes = s.maxBytes) (hptr : file ∈ s.ptrs)
    (hheld : .file file ∈ held) :
    n ≤ s.roomFor held client ∧ w'.st.WellFormed ∧ file ∈ w'.st.ptrs ∧
      w'.st.file file = s.file file ∧ n ≤ w'.st.fuStorageBytesAvailable := by
  obtain ⟨gone, hgone, hwo, hwf', henough, hle⟩ := h rfl
  obtain ⟨hmem, hsame⟩ := hwo.kept hptr fun hm => (hgone file hm).1 hheld
  refine ⟨?_, hwf', hmem, hsame, hwo.room hwf hwf' hmax henough⟩
  rw [roomFor]
  omega

theorem serverMakeRoom_survives_iff {file : Nat} {offset : FileData → Nat} (hc : client ≠ 0)
    (hwf : w.st.WellFormed) (hptr : file ∈ w.st.ptrs) (hheld : .file file ∈ w.held)
    (hlen : (w.st.file file).dataLen ≤ muLimit)
    (hoff : ∀ f : FileData, offset f ≤ f.dataLen) :
    (serverMakeRoom qsort offset client file n).Ensures w Survives ↔
      (w.st.fuStorageBytesAvailable < n → 8 * w.st.currFiles ≤ muLimit) ∧
        (n ≤ w.st.roomFor w.held client → offset (w.st.file file) + n ≤ muLimit) := by
  have hevict : ∀ {tr w'}, (serverEvict qsort client (n - w.st.fuStorageBytesAvailable)).Runs w
      tr (.ret 0) w' → n ≤ w.st.roomFor w.held client ∧
        ((receiveData client file n offset).Ensures { w' with held := w'.held.erase .storage }
          Survives ↔ offset (w.st.file file) + n ≤ muLimit) := by
    intro tr w' hr
    have hmoves : Moves none w.st w'.st := serverEvict_moves qsort hc _ tr _ w' hr
    obtain ⟨hle, hwf', hptr', hsame, hroom⟩ :=
      (serverEvict_freed hc hwf tr _ w' hr).room hwf hmoves.limits.2 hptr hheld
    refine ⟨hle, ?_⟩
    have hiff := receiveData_survives_iff (w := { w' with held := w'.held.erase .storage }) hc
      hwf'.accounted hptr' (hsame ▸ hlen) hoff hroom
    rwa [hsame] at hiff
  have hreceive : n ≤ w.st.fuStorageBytesAvailable →
      ((receiveData client file n offset).Ensures { w with held := w.held.erase .storage }
        Survives ↔ offset (w.st.file file) + n ≤ muLimit) := fun hroom =>
    receiveData_survives_iff (w := { w with held := w.held.erase .storage }) hc hwf.accounted
      hptr hlen hoff hroom
  rw [serverMakeRoom, ensures_get]
  by_cases hshort : w.st.fuStorageBytesAvailable < n
  · rw [if_pos hshort, ensures_bind]
    constructor
    · intro h
      have hfew : 8 * w.st.currFiles ≤ muLimit := by
        by_contra hmany
        have hnone : w.st.fuEvictFiles qsort (n - w.st.fuStorageBytesAvailable) = none :=
          fuEvictFiles_eq_none_iff.mpr (Nat.not_le.mp hmany)
        rw [serverEvict, ensures_get, hnone, ensures_exit, After] at h
        exact not_survives_exit h
      refine ⟨fun _ => hfew, fun hle => ?_⟩
      obtain ⟨tr, w', hr⟩ := serverEvict_runs hc hwf hfew
        (Nat.sub_pos_of_lt hshort) (by rw [roomFor] at hle; omega)
      have hafter := h tr _ w' hr
      rw [After, if_neg (by decide), ensures_unlock] at hafter
      exact (hevict hr).2.mp hafter
    · intro h tr o w' hr
      obtain ⟨hfew, hfit⟩ := h
      cases o with
      | ret r =>
          rw [After]
          split
          · rw [ensures_unlock, ensures_unlock]
            exact sapiRespond_survives hc _ _
          · next hr0 =>
              obtain rfl : r = 0 := not_not.mp hr0
              obtain ⟨hle, hiff⟩ := hevict hr
              rw [ensures_unlock]
              exact hiff.mpr (hfit hle)
      | exit =>
          have hmany : 8 * w.st.currFiles > muLimit := serverEvict_freed hc hwf tr _ w' hr
          exact absurd (hfew hshort) (Nat.not_le.mpr hmany)
      | fault => simp [After]
      | blocked => simp [After]
  · have hroom := Nat.not_lt.mp hshort
    rw [if_neg hshort, ensures_serverRespond_bind hc, if_pos (by decide), if_neg (by decide),
      ensures_unlock, ensures_unlock, ensures_unlock, ensures_ret]
    constructor
    · intro h
      obtain ⟨-, h⟩ := h
      exact ⟨fun hlt => absurd hlt hshort, fun _ => (hreceive hroom).mp h⟩
    · intro h
      obtain ⟨-, hfit⟩ := h
      exact ⟨survives_ret, (hreceive hroom).mpr (hfit (hroom.trans (Nat.le_add_right ..)))⟩

end Evict

/-! ## The other handlers -/

section Handlers

variable {client : Int} {message : SMessage} {path : List UInt8} {n : Nat}
  {w : World FileStorage Mutex}

/-- Handlers begin with a lookup and the file's mutex. -/
theorem lookup_survives {k : Option Nat → ServerM Int} {k' : Nat → FileData → ServerM Int}
    (heq : ∀ a, k (some a) = .lock (.file a) (deref a (k' a)))
    (hnone : ∀ w, (k none).Ensures w Survives) (hsome : ∀ a f w, (k' a f).Ensures w Survives)
    (path : List UInt8) (w : World FileStorage Mutex) :
    (getfile path k).Ensures w Survives := by
  rw [ensures_getfile]
  cases w.st.table.huGet path with
  | none => exact hnone _
  | some a =>
      rw [heq]
      exact Ensures.lockFile (fun _ => survives_blocked) (fun _ => survives_fault)
        fun _ f _ => hsome a f _

theorem serverCreateFile_survives (hc : client ≠ 0) :
    (serverCreateFile message client path).Ensures w Survives := by
  rw [ensures_serverCreateFile hc]
  exact ⟨fun _ => survives_blocked, fun _ => ⟨fun _ _ => survives_ret, fun _ _ => survives_ret⟩⟩

theorem readNFilesLoop_survives (hc : client ≠ 0) (items : List (List UInt8 × Nat)) (n : Nat) :
    (readNFilesLoop client items n).Ensures w Survives := by
  have hend : ∀ w, readNFilesEnd.Ensures w Survives := fun w => by simp [readNFilesEnd]
  induction items generalizing n w with
  | nil => exact hend w
  | cons it items ih =>
      rw [readNFilesLoop]
      split
      · exact hend w
      · refine ensures_deref.mpr ⟨fun _ => survives_fault, fun _ _ =>
          ensures_trylock.mpr ⟨ih n, fun _ => ensures_deref.mpr ⟨fun _ => survives_fault,
            fun f _ => ?_⟩⟩⟩
        have hfail : ∀ w, (Proc.unlock (.file it.2) <| .unlock .storage <|
            sapiRespond sapiFailure client (.ret (-1))).Ensures w Survives := fun w => by
          rw [ensures_unlock, ensures_unlock]
          exact sapiRespond_survives hc _ _
        split
        · rw [ensures_assign]
          refine Ensures.serverSendPath_bind fun _ _ _ => ?_
          split
          · exact hfail _
          · refine Ensures.serverSendData_bind fun _ _ _ => ?_
            split
            · exact hfail _
            · rw [ensures_unlock]
              exact ih (n - 1)
        · rw [ensures_unlock]
          exact ih n

/-- The path and the length that a handler gets, as far as it reads them. -/
def Sends (path : List UInt8) (n : Nat) : List (Event Mutex) → Prop
  | .read _ r :: tr => r = some path ∧ ∀ m, sentLength tr = some m → m = n
  | _ => True

/-- What a handler that reads a path allocates for it. -/
theorem serverGetPath_survives_iff {k : Option (List UInt8) → ServerM Int} (hm : message ≠ 0)
    (hc : client ≠ 0) (hk : ∀ r, (k r).Ensures w Survives) :
    ((serverGetPath message client >>= k).Ensures w fun tr o w' =>
      Sends path n tr → Survives tr o w') ↔ lenOf message + 1 ≤ muLimit := by
  rw [ensures_serverGetPath_bind hm hc]
  constructor
  · intro h
    obtain ⟨hlong, -⟩ := h
    exact Nat.not_lt.mp fun hlim => not_survives_exit (hlong hlim trivial)
  · intro hlim
    exact ⟨fun hlong => absurd hlong (Nat.not_lt.mpr hlim),
      fun _ r _ => (hk _).mono fun _ _ _ h _ => h⟩

theorem serverOpenFile_survives_iff (hm : message ≠ 0) (hc : client ≠ 0) :
    ((serverOpenFile message client).Ensures w fun tr o w' =>
      Sends path n tr → Survives tr o w') ↔ lenOf message + 1 ≤ muLimit := by
  rw [serverOpenFile, if_neg (not_or.mpr ⟨hm, hc⟩)]
  refine serverGetPath_survives_iff hm hc fun r => ?_
  cases r with
  | none => exact sapiRespond_survives hc _ _
  | some path =>
      refine lookup_survives (fun _ => rfl) (fun w => ?_) (fun a f w => ?_) path w
      · dsimp only
        split
        · exact sapiRespond_survives hc _ _
        · exact serverCreateFile_survives hc
      · split
        · exact sapiRespond_survives hc _ _
        · rw [ensures_takeOwnership, ensures_unlock]
          exact sapiRespond_survives hc _ _

theorem serverCloseFile_survives_iff (hm : message ≠ 0) (hc : client ≠ 0) :
    ((serverCloseFile message client).Ensures w fun tr o w' =>
      Sends path n tr → Survives tr o w') ↔ lenOf message + 1 ≤ muLimit := by
  rw [serverCloseFile, if_neg (not_or.mpr ⟨hm, hc⟩)]
  refine serverGetPath_survives_iff hm hc fun r => ?_
  cases r with
  | none => exact sapiRespond_survives hc _ _
  | some path =>
      refine lookup_survives (fun _ => rfl) (fun w => sapiRespond_survives hc _ _)
        (fun a f w => ?_) path w
      split
      · exact sapiRespond_survives hc _ _
      · rw [ensures_assign, ensures_unlock]
        exact sapiRespond_survives hc _ _

theorem serverReadFile_survives_iff (hm : message ≠ 0) (hc : client ≠ 0) :
    ((serverReadFile message client).Ensures w fun tr o w' =>
      Sends path n tr → Survives tr o w') ↔ lenOf message + 1 ≤ muLimit := by
  rw [serverReadFile, if_neg (not_or.mpr ⟨hm, hc⟩)]
  refine serverGetPath_survives_iff hm hc fun r => ?_
  cases r with
  | none => exact sapiRespond_survives hc _ _
  | some path =>
      refine lookup_survives (fun _ => rfl) (fun w => sapiRespond_survives hc _ _)
        (fun a f w => ?_) path w
      split
      · exact sapiRespond_survives hc _ _
      · rw [ensures_sapiRespond hc]
        refine ⟨survives_ret, Ensures.serverSendData_bind fun _ _ _ => ?_⟩
        rw [ensures_unlock, ensures_ret]
        exact survives_ret

theorem serverRemoveFile_survives_iff (hm : message ≠ 0) (hc : client ≠ 0) :
    ((serverRemoveFile message client).Ensures w fun tr o w' =>
      Sends path n tr → Survives tr o w') ↔ lenOf message + 1 ≤ muLimit := by
  rw [serverRemoveFile, if_neg (not_or.mpr ⟨hm, hc⟩)]
  refine serverGetPath_survives_iff hm hc fun r => ?_
  cases r with
  | none => exact sapiRespond_survives hc _ _
  | some path =>
      refine ensures_lock.mpr ⟨fun _ => survives_blocked, fun _ => ?_⟩
      refine lookup_survives (fun _ => rfl) (fun w => sapiRespond_survives hc _ _)
        (fun a f w => ?_) path _
      split
      · exact sapiRespond_survives hc _ _
      · rw [ensures_unlock, ensures_unspec]
        intro bs
        rw [ensures_removefile, ensures_unlock]
        exact sapiRespond_survives hc _ _

theorem roomFor_fuGetfile (s : FileStorage) (path : List UInt8) (held : Finset Mutex)
    (client : Int) : (s.fuGetfile path).2.roomFor held client = s.roomFor held client := by
  have hall : (s.fuGetfile path).2.evictables held client s.ptrs =
      s.evictables held client s.ptrs := by
    refine List.filter_congr fun a _ => ?_
    rw [decide_eq_decide]
    simp only [Evictable, (s.fuGetfile_file path a).2.1]
  rw [roomFor, roomFor, fuGetfile_bytesAvailable, fuGetfile_ptrs, fuGetfile_bytesOf, hall]

/-- A write allocates for its path, and if it reaches a file, for its data. -/
theorem serverWriteAt_reaches_iff {qsort : Qsort Nat} {offset : FileData → Nat}
    (hwf : w.st.WellFormed) (hm : message ≠ 0) (hc : client ≠ 0)
    (hpath : path.length ≤ lenOf message) (hn : n < 2 ^ 64) :
    ((serverWriteAt qsort offset message client).Ensures w fun tr o w' =>
      Sends path n tr → Survives tr o w') ↔ lenOf message + 1 ≤ muLimit ∧
        ∀ a, WriteReaches w client (cString path) a →
          (serverMakeRoom qsort offset client a n).Ensures (makingRoom w (cString path) a)
            Survives := by
  rw [serverWriteAt, if_neg (not_or.mpr ⟨hm, hc⟩), ensures_serverGetPath_bind hm hc]
  constructor
  · intro h
    obtain ⟨hlong, hshort⟩ := h
    have hlim : ¬ lenOf message + 1 > muLimit := fun hlim =>
      not_survives_exit (hlong hlim trivial)
    refine ⟨Nat.not_lt.mp hlim, fun a hreaches => ?_⟩
    obtain ⟨hget, hstorage, hfile, howner⟩ := hreaches
    obtain ⟨-, h⟩ := ensures_lock.mp (hshort hlim (some path) (fits_some.mpr hpath))
    have h := ensures_getfile.mp (h hstorage)
    dsimp only at h
    rw [hget] at h
    obtain ⟨-, h⟩ := ensures_lock.mp h
    obtain ⟨-, h⟩ := ensures_deref.mp (h (by simpa using hfile))
    have hptr : a ∈ (w.st.fuGetfile (cString path)).2.ptrs := by
      rw [fuGetfile_ptrs]
      exact WellFormed.huGet_mem_ptrs hget
    obtain ⟨f, hf⟩ := Option.ne_none_iff_exists'.mp
      ((hwf.fuGetfile _).accounted.live a hptr)
    have howner : f.client = client := (fuGetfile_client _ hf).symm.trans howner
    have h := h f hf
    rw [if_neg (not_not.mpr howner), ensures_checkReadResponse hc] at h
    have hsent := LittleEndian.decode_encode_of_lt (w := 8) hn
    have h := (h.2 (LittleEndian.encode 8 n) (by simp)).2 (by simp)
    rw [hsent] at h
    refine h.mono fun _ _ _ h => h ⟨rfl, fun m hlen => ?_⟩
    rw [sentLength, if_neg (by simp), hsent] at hlen
    exact (Option.some.inj hlen).symm
  · intro h
    obtain ⟨hlim, hmake⟩ := h
    have hlim := Nat.not_lt.mpr hlim
    refine ⟨fun hlong => absurd hlong hlim, fun _ r _ => ?_⟩
    have hresp : ∀ (m : SMessage) (r' : Int) (v : World FileStorage Mutex),
        (sapiRespond m client (.ret r')).Ensures v fun tr o w' =>
          Sends path n (.read (lenOf message) r :: tr) → Survives tr o w' := fun m r' v =>
      (sapiRespond_survives hc m r').mono fun _ _ _ h _ => h
    cases r with
    | none => exact hresp _ _ _
    | some buf =>
        refine ensures_lock.mpr ⟨fun _ _ => survives_blocked, fun hstorage => ?_⟩
        rw [ensures_getfile]
        dsimp only
        cases hget : w.st.table.huGet (cString buf) with
        | none => exact hresp _ _ _
        | some a =>
            refine Ensures.lockFile (fun _ _ => survives_blocked) (fun _ _ => survives_fault)
              fun hfile f hf => ?_
            split
            · exact hresp _ _ _
            · next howner =>
                obtain ⟨f₀, hf₀, -, hclient, -⟩ := fuGetfile_heap _ hf
                have hreach : WriteReaches w client (cString buf) a :=
                  ⟨hget, hstorage, by simpa using hfile,
                    by rw [file_eq _ hf₀, ← hclient, not_not.mp howner]⟩
                -- the section goes on with some length, and the client sent `n`
                have hgo : ∀ (m : Nat) (pre : List (Event Mutex)),
                    (∀ tr, sentLength (pre ++ tr) = some m) →
                    (serverMakeRoom qsort offset client a m).Ensures
                      (makingRoom w (cString buf) a) fun tr o w' =>
                        Sends path n (.read (lenOf message) (some buf) :: (pre ++ tr)) →
                          Survives tr o w' := by
                  intro m pre hlen tr o w' hr h
                  obtain ⟨hbuf, hsent⟩ := h
                  obtain rfl : buf = path := Option.some.inj hbuf
                  obtain rfl : m = n := hsent m (hlen tr)
                  exact hmake a hreach tr o w' hr
                rw [ensures_checkReadResponse hc]
                refine ⟨fun junk => hgo _ [.read 8 none, .unspec junk] fun _ => rfl,
                  fun bs _ => ⟨fun _ _ _ => survives_ret, fun hfull => ?_⟩⟩
                exact hgo _ [.read 8 (some bs)] fun _ => if_neg hfull

/-- A write of `n` bytes to the file at `a`: the array of an eviction, and the
file as long as it would become. -/
structure WriteFits (w : World FileStorage Mutex) (client : Int) (offset : FileData → Nat)
    (a n : Nat) : Prop where
  array : w.st.fuStorageBytesAvailable < n → 8 * w.st.currFiles ≤ muLimit
  file : n ≤ w.st.roomFor (insert (.file a) (insert .storage w.held)) client →
    offset (w.st.file a) + n ≤ muLimit

theorem serverWriteAt_survives_iff {qsort : Qsort Nat} {offset : FileData → Nat}
    (hwf : w.st.WellFormed) (hlen : ∀ a ∈ w.st.ptrs, (w.st.file a).dataLen ≤ muLimit)
    (hoff : ∀ f : FileData, offset f ≤ f.dataLen)
    (hdata : ∀ f g : FileData, f.data = g.data → offset f = offset g)
    (hm : message ≠ 0) (hc : client ≠ 0) (hpath : path.length ≤ lenOf message)
    (hn : n < 2 ^ 64) :
    ((serverWriteAt qsort offset message client).Ensures w fun tr o w' =>
      Sends path n tr → Survives tr o w') ↔ lenOf message + 1 ≤ muLimit ∧
        ∀ a, WriteReaches w client (cString path) a → WriteFits w client offset a n := by
  rw [serverWriteAt_reaches_iff hwf hm hc hpath hn]
  refine and_congr_right fun _ => forall_congr' fun a => imp_congr_right fun hreach => ?_
  have hptr := WellFormed.huGet_mem_ptrs hreach.1
  have hsame := (w.st.fuGetfile_file (cString path) a).1
  have hlen' : ((w.st.fuGetfile (cString path)).2.file a).dataLen ≤ muLimit := by
    rw [FileData.dataLen, hsame]
    exact hlen a hptr
  rw [serverMakeRoom_survives_iff (w := makingRoom w (cString path) a) hc
    (hwf.fuGetfile _) ((w.st.fuGetfile_ptrs _).symm ▸ hptr)
    (Finset.mem_insert_self ..) hlen' hoff]
  simp only [makingRoom, fuGetfile_bytesAvailable, fuGetfile_currFiles, roomFor_fuGetfile,
    hdata _ _ hsame]
  exact ⟨fun h => ⟨h.1, h.2⟩, fun h => ⟨h.array, h.file⟩⟩

end Handlers

/-! ## Requests -/

/-- The operations whose handlers read a path. -/
def pathOps : List (BitVec 8) :=
  [sapiOpenFile, sapiCloseFile, sapiReadFile, sapiWriteFile, sapiAppendFile, sapiRemoveFile]

/-- Where the request writes. -/
def writeOffset (request : SMessage) (f : FileData) : Nat :=
  if opOf request = sapiAppendFile then f.dataLen else 0

/-- What a request with this path and this length may ask the allocator for. -/
structure AllocationsFit (w : World FileStorage Mutex) (request : SMessage) (client : Int)
    (path : List UInt8) (n : Nat) : Prop where
  name : opOf request ∈ pathOps → lenOf request + 1 ≤ muLimit
  write : Writes request → ∀ a, WriteReaches w client (cString path) a →
    WriteFits w client (writeOffset request) a n

section Requests

variable {qsort : Qsort Nat} {maxFiles maxBytes n : Nat} {w : World FileStorage Mutex}
  {request : SMessage} {client : Int} {path : List UInt8}

theorem ne_zero_of_mem_pathOps (h : opOf request ∈ pathOps) : request ≠ 0 := by
  intro heq
  subst heq
  exact absurd h (by decide)

theorem allocationsFit_iff_path (h : opOf request ∈ pathOps) (hop : ¬ Writes request) :
    lenOf request + 1 ≤ muLimit ↔ AllocationsFit w request client path n :=
  ⟨fun hlim => ⟨fun _ => hlim, fun hwrites => absurd hwrites hop⟩, fun hfit => hfit.name h⟩

theorem allocationsFit_iff_write (h : opOf request ∈ pathOps) (hop : Writes request) :
    (lenOf request + 1 ≤ muLimit ∧ ∀ a, WriteReaches w client (cString path) a →
      WriteFits w client (writeOffset request) a n) ↔ AllocationsFit w request client path n :=
  ⟨fun hfit => ⟨fun _ => hfit.1, fun _ => hfit.2⟩, fun hfit => ⟨hfit.name h, hfit.write hop⟩⟩

theorem serve_survives_of_zero :
    (serve qsort request 0).Ensures w fun tr o w' => Sends path n tr → Survives tr o w' := by
  refine Ensures.serve_cases (fun _ => ?_) (fun _ => ?_) (fun _ => ?_) (fun _ => ?_) (fun _ => ?_)
    (fun _ => ?_) (fun _ _ => survives_ret) (fun _ => ?_) fun _ => ?_
  · simp [serverOpenFile]
  · simp [serverCloseFile]
  · simp [serverReadFile]
  · simp [serverReadNFiles]
  · simp [serverWriteFile, serverWriteAt]
  · simp [serverAppendToFile, serverWriteAt]
  · simp [serverRemoveFile]
  · rw [if_pos rfl]
    exact fun _ => survives_ret

/-- Requests without a path are served without the allocator. -/
theorem serve_survives_of_not_mem (hc : client ≠ 0) (h : opOf request ∉ pathOps) :
    (serve qsort request client).Ensures w fun tr o w' => Sends path n tr → Survives tr o w' := by
  have hnone : ∀ {op : BitVec 8} {P : Prop}, op ∈ pathOps → opOf request = op → P :=
    fun hop heq => absurd (heq ▸ hop) h
  refine Ensures.serve_cases (hnone (by decide)) (hnone (by decide)) (hnone (by decide))
    (fun _ => ?_) (hnone (by decide)) (hnone (by decide)) (fun _ _ => survives_ret)
    (hnone (by decide)) fun _ => ?_
  · rw [serverReadNFiles]
    split
    · simp
    · refine ensures_lock.mpr ⟨fun _ _ => survives_blocked, fun _ => ?_⟩
      rw [ensures_get]
      exact (readNFilesLoop_survives hc _ _).mono fun _ _ _ h _ => h
  · rw [if_neg hc]
    exact fun _ _ => survives_ret

/-- No run of a handler ends in the allocator, whatever it is sent, if and only
if what the request asks for fits. -/
theorem serve_survives_iff (hw : Reachable qsort maxFiles maxBytes w)
    (hpath : path.length ≤ lenOf request) (hn : n < 2 ^ 64) :
    (∀ tr o w', (serve qsort request client).Runs w tr o w' → Sends path n tr → o ≠ .exit) ↔
      client = 0 ∨ AllocationsFit w request client path n := by
  change (serve qsort request client).Ensures w
    (fun tr o w' => Sends path n tr → Survives tr o w') ↔ _
  by_cases hc : client = 0
  · subst hc
    exact iff_of_true serve_survives_of_zero (.inl rfl)
  rw [or_iff_right hc]
  by_cases hop : opOf request ∈ pathOps
  · have hm := ne_zero_of_mem_pathOps hop
    have hlen : ∀ a ∈ w.st.ptrs, (w.st.file a).dataLen ≤ muLimit := by
      intro a ha
      obtain ⟨f, hf⟩ := Option.ne_none_iff_exists'.mp (hw.wellFormed.accounted.live a ha)
      rw [file_eq _ hf]
      exact hw.length_data_le hf
    have hcases := hop
    simp only [pathOps, List.mem_cons, List.not_mem_nil, or_false] at hcases
    rcases hcases with h | h | h | h | h | h
    · rw [serve_openFile h]
      exact (serverOpenFile_survives_iff hm hc).trans
        (allocationsFit_iff_path hop (by rw [Writes, h]; decide))
    · rw [serve_closeFile h]
      exact (serverCloseFile_survives_iff hm hc).trans
        (allocationsFit_iff_path hop (by rw [Writes, h]; decide))
    · rw [serve_readFile h]
      exact (serverReadFile_survives_iff hm hc).trans
        (allocationsFit_iff_path hop (by rw [Writes, h]; decide))
    · have hoff : writeOffset request = fun _ => 0 := by
        funext f
        rw [writeOffset, h, if_neg (by decide)]
      rw [serve_writeFile h, ← hoff]
      refine (serverWriteAt_survives_iff hw.wellFormed hlen ?_ ?_ hm hc hpath hn).trans
        (allocationsFit_iff_write hop (.inl h))
      · exact fun f => hoff ▸ Nat.zero_le _
      · exact fun f g _ => hoff ▸ rfl
    · have hoff : writeOffset request = FileData.dataLen := by
        funext f
        rw [writeOffset, if_pos h]
      rw [serve_appendFile h, ← hoff]
      refine (serverWriteAt_survives_iff hw.wellFormed hlen ?_ ?_ hm hc hpath hn).trans
        (allocationsFit_iff_write hop (.inr h))
      · exact fun f => hoff ▸ Nat.le_refl _
      · exact fun f g hdata => hoff ▸ congrArg List.length hdata
    · rw [serve_removeFile h]
      exact (serverRemoveFile_survives_iff hm hc).trans
        (allocationsFit_iff_path hop (by rw [Writes, h]; decide))
  · refine iff_of_true (serve_survives_of_not_mem hc hop) ⟨fun h => absurd h hop, fun hwrites => ?_⟩
    rcases hwrites with h | h
    · exact absurd (h ▸ (by decide : sapiWriteFile ∈ pathOps)) hop
    · exact absurd (h ▸ (by decide : sapiAppendFile ∈ pathOps)) hop

end Requests

/-- A write of two bytes to a file that the client has open. -/
theorem serve_survives_write : ∃ w, Reachable Qsort.insertion 1 10 w ∧
    WriteReaches w 5 [97] 0 ∧
    ∀ tr o w', (serve Qsort.insertion (sapiMessageLen 0 sapiWriteFile 1) 5).Runs w tr o w' →
      Sends [97] 2 tr → o ≠ .exit := by
  have h₀ : Reachable Qsort.insertion 1 10 ⟨_, ∅⟩ := .init (by decide) (by decide) rfl
  have h₁ := h₀.created 5 [97] rfl
  refine ⟨_, h₁, ⟨rfl, by decide, by decide, rfl⟩,
    (serve_survives_iff h₁ (by decide) (by decide)).mpr (.inr ⟨fun _ => by decide,
      fun _ a _ => ⟨fun hshort => absurd hshort (by decide), fun _ => ?_⟩⟩)⟩
  rw [writeOffset, if_neg (by decide)]
  decide

/-- A path of 2^22 bytes, and data of more than 2^22 bytes for which a larger
storage has room. -/
theorem serve_exits :
    (∃ w, Reachable Qsort.insertion 1 10 w ∧
      (serve Qsort.insertion (sapiMessageLen oCreate sapiOpenFile (2 ^ 22)) 5).Runs w [] .exit w) ∧
    ∃ w w', Reachable Qsort.insertion 1 (2 ^ 23) w ∧
      (serve Qsort.insertion (sapiMessageLen 0 sapiWriteFile 1) 5).Runs w
        [.read 1 (some [97]), .read 8 (some (LittleEndian.encode 8 (2 ^ 22 + 1))),
          .write (.word sapiSuccess) true] .exit w' := by
  constructor
  · exact ⟨_, .init (by decide) (by decide) rfl, rfl⟩
  · have h₀ : Reachable Qsort.insertion 1 (2 ^ 23) ⟨_, ∅⟩ := .init (by decide) (by decide) rfl
    have h₁ := h₀.created 5 [97] rfl
    exact ⟨_, _, h₁, rfl⟩

end LsoStore
