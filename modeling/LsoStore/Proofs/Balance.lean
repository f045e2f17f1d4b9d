import LsoStore.Proofs.SectionInvariants
import LsoStore.Proofs.SingleEntry
import LsoStore.Teardown

/-!
# The counters in any interleaving

Handlers that overlap can store two files under one path, and can go on with a
pointer to a file that is gone. The books stay balanced all the same: the two
counters say what the table holds, no record is in it twice, and every record
that was made and not freed is in it. So none is lost and none is freed twice.
-/

namespace LsoStore

open Proc FileStorage

/-- What holds of the storage whatever runs at the same time. -/
structure FileStorage.Balanced (s : FileStorage) : Prop where
  accounted : s.Accounted
  stored : ∀ a, s.heap a ≠ none → a ∈ s.ptrs
  paths : ∀ it ∈ s.table.items, (s.file it.2).path = it.1

namespace FileStorage

variable {s s' : FileStorage} {a : Nat}

theorem WellFormed.balanced (h : s.WellFormed) : s.Balanced := ⟨h.accounted, h.stored, h.paths⟩

namespace Balanced

theorem modifyFile (h : s.Balanced) (a : Nat) {g : FileData → FileData}
    (hg : ∀ f, (g f).data = f.data ∧ (g f).path = f.path) : (s.modifyFile a g).Balanced where
  accounted := h.accounted.modifyFile a fun f => (hg f).1
  stored b hb := h.stored b (by simpa using hb)
  paths it hit := by rw [← h.paths it hit, s.modifyFile_path a g fun f => (hg f).2]

theorem discard (h : s.Balanced) (f : FileData) :
    ((s.place f).2.fuFreeFileData s.next).Balanced := by
  have hacc := (h.accounted.place f).fuFreeFileData
    (h.accounted.not_mem_of_next_le (Nat.le_refl s.next))
  have hheap : ∀ b, ((s.place f).2.fuFreeFileData s.next).heap b = s.heap b := by
    intro b
    simp only [FileStorage.place, FileStorage.fuFreeFileData]
    split
    · next hb => rw [hb, h.accounted.fresh s.next (Nat.le_refl _)]
    · rfl
  refine ⟨hacc, fun b hb => h.stored b (by rwa [hheap] at hb), fun it hit => ?_⟩
  rw [← h.paths it hit, file, hheap, ← file]

/-- A new file goes in beside whatever its path leads to already. -/
theorem create (h : s.Balanced) {f : FileData} (hd : f.data = []) (path : List UInt8) :
    ((s.place f).2.fuAddFile s.next path).2.Balanced := by
  by_cases hfull : s.fuStorageFilesAvailable = 0
  · have havail : (s.place f).2.fuStorageFilesAvailable = 0 := hfull
    rw [fuAddFile, if_pos havail]
    exact h.discard f
  have hnot : s.next ∉ s.ptrs := h.accounted.not_mem_of_next_le (Nat.le_refl _)
  have hacc := (h.accounted.place f).fuAddFile (f := f) (a := s.next) hnot
    (by simp [FileStorage.place]) path
  have hpos : 0 < s.table.nEntries := h.accounted.entries (by
    have := h.accounted.filesAvailable
    omega)
  rw [WellFormed.fuAddFile_place_eq hd hfull] at hacc ⊢
  have hitems := HashTable.huInsert_items hpos path s.next
  refine ⟨hacc, fun b hb => ?_, fun it hit => ?_⟩
  · show b ∈ (s.table.huInsert path s.next).items.map Prod.snd
    rw [(hitems.map Prod.snd).mem_iff, List.map_cons, List.mem_cons]
    by_cases hbn : b = s.next
    · exact .inl hbn
    · exact .inr (h.stored b (by simpa [FileStorage.place, hbn] using hb))
  · rcases List.mem_cons.mp (hitems.mem_iff.mp hit) with rfl | hit
    · simp [FileStorage.place, file]
    · have hne : it.2 ≠ s.next := fun heq => hnot (heq ▸ List.mem_map.mpr ⟨it, hit, rfl⟩)
      rw [← h.paths it hit]
      simp [FileStorage.place, file, hne]

theorem remove (h : s.Balanced) (path : List UInt8) : (s.fuRemoveFile path).2.Balanced := by
  have hacc := h.accounted.fuRemoveFile path
  cases hget : s.table.huGet path with
  | none => simpa [fuRemoveFile, hget] using h
  | some a =>
      obtain ⟨k, t, hrem, hmem, heq⟩ := h.accounted.fuRemoveFile_of_huGet hget
      rw [heq] at hacc ⊢
      have hitems := HashTable.huRemove_items hrem
      have hptrs : s.ptrs.Perm (a :: t.items.map Prod.snd) := hitems.map Prod.snd
      obtain ⟨hnot, -⟩ := List.nodup_cons.mp (hptrs.nodup_iff.mp h.accounted.nodup)
      refine ⟨hacc, fun b hb => ?_, fun it hit => ?_⟩
      · have hba : b ≠ a := fun heq => hb (by simp [FileStorage.fuFreeFileData, heq])
        have hlive : s.heap b ≠ none := by
          simpa [FileStorage.fuFreeFileData, hba, modifyFile_heap] using hb
        exact (List.mem_cons.mp (hptrs.mem_iff.mp (h.stored b hlive))).resolve_left hba
      · have hne : it.2 ≠ a := fun heq => hnot (heq ▸ List.mem_map.mpr ⟨it, hit, rfl⟩)
        rw [← h.paths it (hitems.mem_iff.mpr (List.mem_cons_of_mem _ hit))]
        simp [FileStorage.fuFreeFileData, file, hne, modifyFile_heap]

theorem write (h : s.Balanced) {i : Nat} {data : Option (List UInt8)} {r : Int}
    (ha : s.heap a ≠ none) (hlen : ∀ d, data = some d → d.length ≤ muLimit)
    (hw : s.fuWritefile a i data = some (r, s')) : s'.Balanced := by
  have hmem := h.stored a ha
  rcases h.accounted.fuWritefile_cases hmem hlen hw with
    ⟨rfl, -⟩ | ⟨rfl, -⟩ | ⟨-, d, -, hi, hfit, -, rfl⟩
  · exact h
  · exact h.modifyFile a fun _ => ⟨rfl, rfl⟩
  · refine ⟨h.accounted.rewrite hmem
      (fun f hf => Accounted.length_take_append s d hi hf) hfit, fun b hb =>
      h.stored b (by simpa using hb), fun it hit => ?_⟩
    rw [← h.paths it hit]
    exact s.modifyFile_path a
      (fun f => { f with dataInfo := f.dataInfo + 1, data := f.data.take i ++ d })
      (fun _ => rfl) it.2

end Balanced

end FileStorage

/-! ## Sections -/

theorem balanced_kept : KeptBySections (·.st.Balanced) fun _ => True where
  own _ _ := trivial
  lock _ h := h
  unlockStorage h := h
  unlockFile h _ := h
  count a h := h.modifyFile a fun _ => ⟨rfl, rfl⟩
  touch h _ hg := h.modifyFile _ fun f => ⟨(hg f).1, (hg f).2.1⟩
  remove path h := h.remove path

theorem Handler.Acts.balanced {h : Handler} {qsort : Qsort Nat} {tr : List (Event Mutex)}
    {w w' : World FileStorage Mutex} {t t' : Stage} (ha : h.Acts qsort tr w t w' t')
    (hc : h.client ≠ 0) (hw : w.st.Balanced) : w'.st.Balanced := by
  have hruns := ha.runs
  have hnew : KeptByCreation (·.st.Balanced) w h.client h.path :=
    ⟨fun _ hd _ => hw.create hd h.path, fun f _ _ => hw.discard f⟩
  cases t with
  | begun => exact balanced_kept.acts hc ha rfl (fun _ _ => hnew) hw
  | looked file => exact balanced_kept.acts hc ha rfl (fun _ _ => hnew) hw
  | returned r => exact absurd rfl (ha.active r)
  | granted a n =>
      obtain ⟨r, -, hrun⟩ := runs_of_returning hruns
      have hreceived := receiveData_received hc a n h.offset tr _ w' hrun r rfl
      cases hbody : bodyRead tr with
      | false => rwa [hreceived.unwritten hbody]
      | true =>
          obtain ⟨f, d, err, hf, hlen, -, hlim, hwrite⟩ := hreceived.written hbody
          refine hw.write (by simp [hf]) (fun d' hd => ?_) hwrite
          injection hd with hd
          rwa [← hd, hlen]

theorem HandlersRun.balanced {ι : Type} [DecidableEq ι] {handlers : ι → Handler}
    {qsort : Qsort Nat} {past : List ((ι × List (Event Mutex)) × Handlers ι)} {c : Handlers ι}
    (h : HandlersRun qsort handlers (·.st.Balanced) past c)
    (hclients : ∀ i, (handlers i).client ≠ 0) : ∀ x ∈ visited past c, x.shared.st.Balanced := by
  refine Run.always h (fun c hc => hc.1) fun c l c' hbal hs => ?_
  cases hs with
  | act i tr w' t' ha => exact ha.balanced (hclients i) hbal

/-! ## Freeing the storage -/

section Free

variable {w : World FileStorage Mutex}

/-- Different records that are all there are freed without a fault. -/
theorem ensures_huFreeItems {items : List (List UInt8 × Nat)}
    (hnodup : (items.map Prod.snd).Nodup) (hlive : ∀ it ∈ items, w.st.heap it.2 ≠ none) :
    (huFreeItems items).Ensures w fun _ o w' => o = .ret () ∧ w'.held = w.held ∧
      ∀ a, w'.st.heap a = if a ∈ items.map Prod.snd then none else w.st.heap a := by
  induction items generalizing w with
  | nil =>
      rw [huFreeItems, ensures_ret]
      exact ⟨rfl, rfl, fun a => (if_neg List.not_mem_nil).symm⟩
  | cons it items ih =>
      obtain ⟨hit, hitems⟩ := List.forall_mem_cons.mp hlive
      rw [List.map_cons, List.nodup_cons] at hnodup
      obtain ⟨hnot, hnodup⟩ := hnodup
      rw [huFreeItems, ensures_deref]
      refine ⟨fun hnone => absurd hnone hit, fun f _ => ?_⟩
      rw [ensures_get, ensures_set]
      have hother : ∀ b, b ≠ it.2 → (w.st.fuFreeFileData it.2).heap b = w.st.heap b :=
        fun b hb => if_neg hb
      have hlive' : ∀ x ∈ items, (w.st.fuFreeFileData it.2).heap x.2 ≠ none := by
        intro x hx
        have hne : x.2 ≠ it.2 := fun heq => hnot (heq ▸ List.mem_map.mpr ⟨x, hx, rfl⟩)
        rw [hother x.2 hne]
        exact hitems x hx
      refine (ih hnodup hlive').mono fun _ o w' h => ?_
      obtain ⟨ho, hheld, hheap⟩ := h
      refine ⟨ho, hheld, fun a => ?_⟩
      rw [hheap a, List.map_cons]
      by_cases ha : a ∈ items.map Prod.snd
      · rw [if_pos ha, if_pos (List.mem_cons_of_mem _ ha)]
      · by_cases hit' : a = it.2
        · rw [if_neg ha, if_pos (hit' ▸ List.mem_cons_self), hit']
          exact if_pos rfl
        · rw [if_neg ha, hother a hit', if_neg fun h => (List.mem_cons.mp h).elim hit' ha]

/-- With its mutex free, a balanced storage is freed and nothing is left of it. -/
theorem FileStorage.Balanced.ensures_fuStorageFree (h : w.st.Balanced) :
    fuStorageFree.Ensures w fun _ o w' =>
      (.storage ∈ w.held → o = .blocked) ∧
      (.storage ∉ w.held → o = .ret () ∧ w'.held = w.held ∧ ∀ a, w'.st.heap a = none) := by
  rw [fuStorageFree, ensures_lock]
  refine ⟨fun hm => ⟨fun _ => rfl, fun hn => absurd hm hn⟩, fun hn => ?_⟩
  have hfreed : huFree.Ensures { w with held := insert .storage w.held } fun _ o w' =>
      o = .ret () ∧ w'.held = insert .storage w.held ∧ ∀ a, w'.st.heap a = none := by
    rw [huFree, ensures_get]
    dsimp only
    split
    · next hempty =>
        have hitems : w.st.table.items = [] := by
          rw [HashTable.items, List.flatten_eq_nil_iff]
          intro b hb
          exact List.isEmpty_iff.mp (List.all_eq_true.mp hempty b hb)
        refine ensures_ret.mpr ⟨rfl, rfl, fun a => of_not_not fun hlive => ?_⟩
        have hmem := h.stored a hlive
        rw [ptrs, hitems] at hmem
        cases hmem
    · refine (ensures_huFreeItems (w := { w with held := insert .storage w.held })
        h.accounted.nodup fun it hit =>
        h.accounted.live it.2 (List.mem_map.mpr ⟨it, hit, rfl⟩)).mono fun _ o w' h' => ?_
      obtain ⟨ho, hheld, hheap⟩ := h'
      refine ⟨ho, hheld, fun a => ?_⟩
      rw [hheap a]
      split
      · rfl
      · next ha => exact of_not_not fun hlive => ha (h.stored a hlive)
  refine ensures_bind.mpr (hfreed.mono fun _ o w' h' => ?_)
  obtain ⟨rfl, hheld, hheap⟩ := h'
  rw [After, ensures_unlock, ensures_ret]
  refine ⟨fun hm => absurd hm hn, fun _ => ⟨rfl, ?_, hheap⟩⟩
  rw [hheld, Finset.erase_insert hn]

end Free

/-! ## Any interleaving -/

section Interleaving

variable {ι : Type} [DecidableEq ι] {handlers : ι → Handler} {qsort : Qsort Nat}
  {past : List ((ι × List (Event Mutex)) × Handlers ι)} {c : Handlers ι}

/-- Whatever handlers overlap, in every state they come to the counters say what the
table holds and keep within the limits, and the records in use are exactly those in
the table, each there once and under its own path. -/
theorem balanced_interleaved (hclients : ∀ i, (handlers i).client ≠ 0)
    (h : HandlersRun qsort handlers (·.st.Balanced) past c) :
    ∀ x ∈ visited past c,
      x.shared.st.currFiles = x.shared.st.table.items.length ∧
      x.shared.st.currBytes =
        (x.shared.st.table.items.map fun it => (x.shared.st.file it.2).dataLen).sum ∧
      x.shared.st.currFiles ≤ x.shared.st.maxFiles ∧
      x.shared.st.currBytes ≤ x.shared.st.maxBytes ∧
      x.shared.st.ptrs.Nodup ∧ (∀ a, a ∈ x.shared.st.ptrs ↔ x.shared.st.heap a ≠ none) ∧
      ∀ it ∈ x.shared.st.table.items, (x.shared.st.file it.2).path = it.1 := by
  intro x hx
  have hbal := h.balanced hclients x hx
  have hacc := hbal.accounted
  refine ⟨hacc.files, ?_, hacc.files_le, hacc.bytes_le, hacc.nodup,
    fun a => ⟨hacc.live a, hbal.stored a⟩, hbal.paths⟩
  rw [hacc.bytes, storedBytes, ptrs, List.map_map]
  rfl

/-- Wherever the handlers have come to, the storage can be freed with every record
freed once and none left, unless one of them has kept its mutex: then
`fu_storage_free` waits for good. -/
theorem storage_freed (hclients : ∀ i, (handlers i).client ≠ 0)
    (h : HandlersRun qsort handlers (·.st.Balanced) past c) :
    fuStorageFree.Ensures c.shared fun _ o w' =>
      (.storage ∈ c.shared.held → o = .blocked) ∧
      (.storage ∉ c.shared.held →
        o = .ret () ∧ w'.held = c.shared.held ∧ ∀ a, w'.st.heap a = none) :=
  (h.balanced hclients c (mem_visited_self past c)).ensures_fuStorageFree

end Interleaving

/-- Both look for "a" before either has stored it. -/
theorem twoCreators_overlap : ∃ past c,
    HandlersRun Qsort.insertion twoCreators (·.st.Balanced) past c ∧
      c.shared.st.table.items.map Prod.fst = [[97], [97]] ∧ .storage ∉ c.shared.held ∧
      ∃ w', fuStorageFree.Runs c.shared [] (.ret ()) w' := by
  obtain ⟨s, hs⟩ : ∃ s, fuInitFileStorage 4 8 = some s := ⟨_, rfl⟩
  have hwf : s.WellFormed := .init (by decide) (by decide) hs
  cases hs
  have h₀ : HandlersRun Qsort.insertion twoCreators (·.st.Balanced) []
      ⟨⟨_, ∅⟩, fun _ => .begun⟩ := .init _ ⟨hwf.balanced, fun _ => rfl⟩
  have h₁ := HandlersRun.section h₀ false .begun [] rfl (by simp) (by simp) rfl
  have h₂ := HandlersRun.section h₁ true .begun [] rfl (by simp) (by simp) rfl
  have h₃ := HandlersRun.section h₂ false (.looked none) [.write (.word sapiSuccess) true] rfl
    (by simp) (by simp) rfl
  have h₄ := HandlersRun.section h₃ true (.looked none) [.write (.word sapiSuccess) true] rfl
    (by simp) (by simp) rfl
  exact ⟨_, _, h₄, rfl, by decide, _, rfl⟩

theorem balanced_interleaved_two : ∃ c : Handlers Bool,
    c.shared.st.table.items.map Prod.fst = [[97], [97]] ∧
      c.shared.st.currFiles = c.shared.st.table.items.length := by
  obtain ⟨past, c, h, hitems, -⟩ := twoCreators_overlap
  have hbalanced := balanced_interleaved (fun i => (twoCreators_creates i).client) h c
    (mem_visited_self past c)
  exact ⟨c, hitems, hbalanced.1⟩

theorem storage_freed_two : ∃ (c : Handlers Bool) (w' : World FileStorage Mutex),
    c.shared.st.table.items.map Prod.fst = [[97], [97]] ∧
      fuStorageFree.Runs c.shared [] (.ret ()) w' ∧ ∀ a, w'.st.heap a = none := by
  obtain ⟨past, c, h, hitems, hfree, w', hrun⟩ := twoCreators_overlap
  have hfreed := storage_freed (fun i => (twoCreators_creates i).client) h [] _ w' hrun
  exact ⟨c, w', hitems, hrun, (hfreed.2 hfree).2.2⟩

end LsoStore
