import LsoStore.Proofs.Writers

/-!
# The count of the bytes

`fu_writefile` compares the new count with the limit and sets it some lines
later. A writer holds its own file's mutex there and no other, so several of
them can have made the comparison before any of them sets the count.

The count stays within the limit as long as a writer that sets it leaves room
for every other one that has made its comparison and has not set it yet.
-/

namespace LsoStore

open Proc FileStorage

/-- How many bytes the handler is about to add. -/
def WriteStage.growth : FileStorage → WriteStage → Option Int
  | s, .tested a i d => some (s.growth a i d.length)
  | _, _ => none

/-- The count of the bytes, with what has passed its test on it. -/
def Writers.budget {ι : Type} (c : Writers ι) : Budget ι Int :=
  bytesBudget (fun _ => WriteStage.growth) c

/-- If the handler that acts sets the count, there is room for it beside any
other that has passed its test. -/
def Writers.LeavesRoom {ι : Type} (l : ι × List (Event Mutex)) (c : Writers ι) : Prop :=
  c.budget.RoomBeside l.1

/-- Where writing handlers can be. -/
structure Writers.Writing {ι : Type} (c : Writers ι) : Prop where
  files : HoldFiles c.shared fun i => (c.stage i).file
  unlooked : ∀ i file, c.stage i ≠ .outside (.looked file)
  within : ∀ i a j d, c.stage i = .tested a j d →
    j ≤ (c.shared.st.file a).dataLen ∧ d.length < 2 ^ 32

section Sections

variable {client : Int} {a n i : Nat} {d : List UInt8} {offset : FileData → Nat}
  {w : World FileStorage Mutex}

/-- The test stops what cannot be written, and else says whether there is room. -/
theorem FileStorage.Accounted.fuWritefileTest_cases {s : FileStorage}
    {data : Option (List UInt8)} (h : s.Accounted) (ha : a ∈ s.ptrs)
    (hi : i ≤ (s.file a).dataLen) (hlen : ∀ d, data = some d → d.length < 2 ^ 32) :
    let touched := s.modifyFile a fun f => { f with dataInfo := f.dataInfo + 1 }
    (∃ s', s.fuWritefileTest a i data = (false, s') ∧ (s' = s ∨ s' = touched)) ∨
      ∃ d, data = some d ∧ s.fuWritefileTest a i data = (true, touched) ∧
        s.currBytes + s.growth a i d.length ≤ (s.maxBytes : Int) := by
  cases data with
  | none => exact .inl ⟨s, rfl, .inl rfl⟩
  | some d =>
      rcases Nat.eq_zero_or_pos d.length with hd | hd
      · exact .inl ⟨s, by simp [fuWritefileTest, hd], .inl rfl⟩
      · rw [h.fuWritefileTest_eq ha hd (hlen d rfl) hi]
        by_cases hroom : s.currBytes + s.growth a i d.length ≤ (s.maxBytes : Int)
        · exact .inr ⟨d, rfl, by rw [decide_eq_true hroom], hroom⟩
        · exact .inl ⟨_, by rw [decide_eq_false hroom], .inr rfl⟩

/-- How a writing handler leaves the section that ends with the test: it gives
its file back, or has passed the test. -/
inductive Tested (w : World FileStorage Mutex) (a : Nat) (offset : FileData → Nat)
    (w' : World FileStorage Mutex) : WriteStage → Prop where
  | failed (r : Int) : w'.held = w.held.erase (.file a) →
      w'.st = w.st ∨ w'.st = w.st.modifyFile a (fun f => { f with dataInfo := f.dataInfo + 1 }) →
      Tested w a offset w' (.outside (.returned r))
  | passed (d : List UInt8) : w'.held = w.held →
      w'.st = w.st.modifyFile a (fun f => { f with dataInfo := f.dataInfo + 1 }) →
      d.length < 2 ^ 32 →
      w.st.currBytes + w.st.growth a (offset (w.st.file a)) d.length ≤ (w.st.maxBytes : Int) →
      Tested w a offset w' (.tested a (offset (w.st.file a)) d)

theorem testSection_tested (hc : client ≠ 0) (hwf : w.st.WellFormed) (ha : a ∈ w.st.ptrs)
    (hoff : offset (w.st.file a) ≤ (w.st.file a).dataLen) :
    (testSection client a n offset).Ensures w fun _ o w' => ∀ t, o = .ret t →
      Tested w a offset w' t := by
  rw [testSection, ensures_muCalloc]
  refine ⟨fun _ t ht => (by cases ht), fun hlim => ?_⟩
  rw [ensures_read]
  intro r hr
  cases r with
  | none =>
      have hnone : Tested w a offset { w with held := w.held.erase (.file a) }
          (.outside (.returned 1)) := .failed 1 rfl (.inl rfl)
      rw [ensures_unlock, ensures_serverRespond_bind hc]
      simp only [ensures_ret]
      refine ⟨?_, ?_⟩
      · intro t ht
        cases ht
        exact hnone
      · intro t ht
        cases ht
        exact hnone
  | some bs =>
      dsimp only
      rw [ensures_deref]
      refine ⟨fun _ t ht => (by cases ht), fun f hf => ?_⟩
      rw [ensures_get, ← file_eq w.st hf]
      set data := if n = 0 then none else some (bs ++ List.replicate (n - bs.length) 0) with hdata
      have hlen : ∀ d, data = some d → d.length < 2 ^ 32 := by
        intro d hd
        rw [hdata] at hd
        split at hd
        · cases hd
        · have hbs : bs.length ≤ n := fits_some.mp hr
          injection hd with hd
          rw [← hd, List.length_append, List.length_replicate, Nat.add_sub_cancel' hbs]
          exact Accounted.lt_of_le_muLimit (Nat.not_lt.mp hlim)
      rcases hwf.accounted.fuWritefileTest_cases ha hoff hlen with
        ⟨s', htest, hs⟩ | ⟨d, hd, htest, hroom⟩
      · have hfailed : Tested w a offset ⟨s', w.held.erase (.file a)⟩ (.outside (.returned 1)) :=
          .failed 1 rfl hs
        rw [htest]
        simp only [Bool.not_false, if_true]
        rw [ensures_set, ensures_unlock, ensures_serverRespond_bind hc]
        simp only [ensures_ret]
        refine ⟨?_, ?_⟩
        · intro t ht
          cases ht
          exact hfailed
        · intro t ht
          cases ht
          exact hfailed
      · rw [htest]
        simp only [Bool.not_true, Bool.false_eq_true, if_false]
        rw [ensures_set, ensures_ret]
        intro t ht
        cases ht
        rw [hd, Option.getD_some]
        exact .passed d rfl rfl (hlen d hd) hroom

/-- How a writing handler sets the count. -/
theorem updateSection_updated (hc : client ≠ 0) (hwf : w.st.WellFormed) (ha : a ∈ w.st.ptrs)
    (hi : i ≤ (w.st.file a).dataLen) (hlen : d.length < 2 ^ 32) :
    (updateSection client a i d).Ensures w fun _ o w' => ∀ r, o = .ret r →
      w'.held = w.held.erase (.file a) ∧
      w'.st = { w.st.modifyFile a (fun f => { f with data := f.data.take i ++ d }) with
        currBytes := w.st.currBytes - (w.st.file a).dataLen + (i + d.length) } := by
  rw [updateSection, ensures_get, hwf.accounted.fuWritefileUpdate_eq ha hlen hi]
  by_cases hmax : i + d.length > muLimit
  · rw [if_pos hmax]
    exact ensures_exit.mpr fun r hr => by cases hr
  · rw [if_neg hmax]
    simp [ensures_serverRespond_bind hc]

end Sections

/-- One more section of a run, in which no trylock failed. -/
theorem WritersRun.section {ι : Type} [DecidableEq ι] {qsort : Qsort Nat} {handlers : ι → Handler}
    {start : World FileStorage Mutex → Prop}
    {past : List ((ι × List (Event Mutex)) × Writers ι)} {c : Writers ι} {t' : WriteStage}
    {w' : World FileStorage Mutex} (h : WritersRun qsort handlers start past c) (i : ι)
    (t : WriteStage) (tr : List (Event Mutex)) (hstage : c.stage i = t)
    (hactive : ∀ r, t ≠ .outside (.returned r)) (htry : ∀ m, .trylock m false ∉ tr)
    (hr : ((handlers i).nextWrite qsort t).Runs c.shared tr (.ret t') w') :
    WritersRun qsort handlers start (past ++ [((i, tr), c)])
      ⟨w', Function.update c.stage i t'⟩ :=
  h.step _ _ _ _
    (.act c i tr w' t' ⟨hstage ▸ hactive, hstage ▸ hr, fun m hm => absurd hm (htry m)⟩)

section Race

variable {ι : Type} [DecidableEq ι] {qsort : Qsort Nat} {handlers : ι → Handler} {c : Writers ι}
  {w' : World FileStorage Mutex} {t' : WriteStage} {i : ι} {tr : List (Event Mutex)}

theorem WriteStage.growth_congr {s s' : FileStorage} {t : WriteStage}
    (hlen : ∀ a, t.file = some a → (s'.file a).dataLen = (s.file a).dataLen) :
    t.growth s' = t.growth s := by
  cases t with
  | outside t => rfl
  | tested a k d =>
      rw [WriteStage.growth, WriteStage.growth, FileStorage.growth, FileStorage.growth, hlen a rfl]

theorem Writers.Writing.update (h : c.Writing)
    (hfiles : HoldFiles w' (Function.update (fun j => (c.stage j).file) i t'.file))
    (hlens : ∀ j, j ≠ i → ∀ a, (c.stage j).file = some a →
      (w'.st.file a).dataLen = (c.shared.st.file a).dataLen)
    (hunlooked : ∀ file, t' ≠ .outside (.looked file))
    (hwithin : ∀ a k d, t' = .tested a k d → k ≤ (w'.st.file a).dataLen ∧ d.length < 2 ^ 32) :
    Writers.Writing ⟨w', Function.update c.stage i t'⟩ where
  files := hfiles.at_stages
  unlooked := (Function.forall_update_iff
    (p := fun _ (t : WriteStage) => ∀ file, t ≠ .outside (.looked file)) _).mpr
    ⟨hunlooked, fun j _ => h.unlooked j⟩
  within := (Function.forall_update_iff (p := fun _ (t : WriteStage) => ∀ a k d,
    t = .tested a k d → k ≤ (w'.st.file a).dataLen ∧ d.length < 2 ^ 32) _).mpr
    ⟨hwithin, fun j hji a k d hj => by
      rw [hlens j hji a (by rw [hj, WriteStage.file])]
      exact h.within j a k d hj⟩

/-- The section under the storage's mutex. -/
theorem Writers.Writing.begun (h : c.Writing) (hh : (handlers i).Writes)
    (ha : (handlers i).WriteActs qsort tr c.shared (.outside .begun) w' t')
    (hcov : c.budget.Covered) :
    Writers.Writing ⟨w', Function.update c.stage i t'⟩ ∧
      (Writers.budget ⟨w', Function.update c.stage i t'⟩).Covered := by
  obtain ⟨t, rfl, hrun⟩ := ha.runs.of_bind_ret
  have hd := hh.acts_begun h.files.wellFormed ⟨by simp, hrun, ha.trylock⟩
  obtain ⟨hhold, hlens, hbytes, hmax⟩ := hd.holdFiles (i := i) h.files
  refine ⟨h.update hhold (fun j _ => hlens j) ?_ (by simp), ?_⟩
  · rcases hd.stage with ⟨_, _, rfl, -⟩ | ⟨_, rfl⟩ <;> simp
  · rw [Writers.budget, bytesBudget_update hmax fun j _ => WriteStage.growth_congr (hlens j)]
    exact hcov.promise (by simpa [Writers.budget, bytesBudget] using hbytes)
      (by simp [WriteStage.growth])

/-- The test promises what there is room for. -/
theorem Writers.Writing.granted {a n : Nat} (h : c.Writing) (hh : (handlers i).Writes)
    (hstage : c.stage i = .outside (.granted a n))
    (ha : (handlers i).WriteActs qsort tr c.shared (.outside (.granted a n)) w' t')
    (hcov : c.budget.Covered) :
    Writers.Writing ⟨w', Function.update c.stage i t'⟩ ∧
      (Writers.budget ⟨w', Function.update c.stage i t'⟩).Covered := by
  have hwf := h.files.wellFormed
  have hi : (c.stage i).file = some a := by rw [hstage, WriteStage.file, Stage.file]
  have hmem := h.files.stored i a hi
  have hruns : (testSection (handlers i).client a n (handlers i).offset).Runs c.shared tr
      (.ret t') w' := ha.runs
  have htouch : ∀ s, s = c.shared.st ∨
      s = c.shared.st.modifyFile a (fun f => { f with dataInfo := f.dataInfo + 1 }) →
      s.WellFormed ∧ s.ptrs = c.shared.st.ptrs ∧ s.maxBytes = c.shared.st.maxBytes ∧
        s.currBytes = c.shared.st.currBytes ∧
        ∀ b, (s.file b).dataLen = (c.shared.st.file b).dataLen := by
    intro s h
    rcases h with rfl | rfl
    · exact ⟨hwf, rfl, rfl, rfl, fun _ => rfl⟩
    · exact ⟨hwf.modifyFile a fun _ => ⟨rfl, rfl⟩, rfl, rfl, rfl, fun b =>
        c.shared.st.modifyFile_dataLen a (fun f => { f with dataInfo := f.dataInfo + 1 })
          (fun _ => rfl) b⟩
  cases testSection_tested hh.client hwf hmem ((handlers i).offset_le _) tr _ w' hruns t' rfl with
  | failed r hheld hst =>
      obtain ⟨hwf', hptrs, hmax, hbytes, hlens⟩ := htouch w'.st hst
      refine ⟨h.update (h.files.release hi hheld hwf' hptrs) (fun j _ b _ => hlens b) (by simp)
        (by simp), ?_⟩
      rw [Writers.budget,
        bytesBudget_update hmax fun j _ => WriteStage.growth_congr fun b _ => hlens b]
      exact hcov.promise (by simp [Writers.budget, bytesBudget, hbytes])
        (by simp [WriteStage.growth])
  | passed d hheld hst hlen hroom =>
      obtain ⟨hwf', hptrs, hmax, hbytes, hlens⟩ := htouch w'.st (.inr hst)
      have hoff := (handlers i).offset_le (c.shared.st.file a)
      refine ⟨h.update ?_ (fun j _ b _ => hlens b) (by simp) ?_, ?_⟩
      · have hsame : Function.update (fun j => (c.stage j).file) i (some a) =
            fun j => (c.stage j).file := by
          rw [← hi]
          exact Function.update_eq_self i _
        rw [WriteStage.file, hsame]
        exact h.files.congr hheld hwf' hptrs
      · intro b k e he
        cases he
        exact ⟨by rw [hlens]; exact hoff, hlen⟩
      · rw [Writers.budget,
          bytesBudget_update hmax fun j _ => WriteStage.growth_congr fun b _ => hlens b]
        refine hcov.promise (by simp [Writers.budget, bytesBudget, hbytes]) ?_
        intro g hg
        cases hg
        rw [hbytes, FileStorage.growth, hlens]
        exact hroom

/-- The update keeps the promises it leaves room for. -/
theorem Writers.Writing.tested {a k : Nat} {d : List UInt8} (h : c.Writing)
    (hh : (handlers i).Writes) (hstage : c.stage i = .tested a k d)
    (ha : (handlers i).WriteActs qsort tr c.shared (.tested a k d) w' t')
    (hcov : c.budget.Covered) :
    Writers.Writing ⟨w', Function.update c.stage i t'⟩ ∧
      ((Writers.budget ⟨w', Function.update c.stage i t'⟩).Covered ↔ c.budget.RoomBeside i) := by
  have hwf := h.files.wellFormed
  have hi : (c.stage i).file = some a := by rw [hstage, WriteStage.file]
  have hmem := h.files.stored i a hi
  obtain ⟨hk, hlen⟩ := h.within i a k d hstage
  obtain ⟨r, rfl, hrun⟩ := ha.runs.of_bind_ret
  obtain ⟨hheld, hst⟩ := updateSection_updated hh.client hwf hmem hk hlen tr _ w' hrun r rfl
  have hg : c.budget.promised i = some (c.shared.st.growth a k d.length) := by
    simp only [Writers.budget, bytesBudget, hstage, WriteStage.growth]
  have hroom : c.shared.st.currBytes + c.shared.st.growth a k d.length ≤
    (c.shared.st.maxBytes : Int) := hcov i _ hg
  have hlive : c.shared.st.heap a ≠ none := hwf.accounted.live a hmem
  have hwf' : w'.st.WellFormed := by
    rw [hst]
    exact hwf.rewrite hlive (fun f hf => Accounted.length_take_append _ d hk hf) (fun _ => rfl)
      ((hwf.accounted.room_iff hmem).mpr hroom)
  have hlens : ∀ j, j ≠ i → ∀ b, (c.stage j).file = some b →
      (w'.st.file b).dataLen = (c.shared.st.file b).dataLen := by
    intro j hji b hj
    have hba : b ≠ a := fun e => hji (h.files.distinct j i a (e ▸ hj) hi)
    rw [hst]
    exact congrArg FileData.dataLen (c.shared.st.modifyFile_file_of_ne a _ hba)
  refine ⟨h.update (h.files.release hi hheld hwf' (by rw [hst]; rfl)) hlens (by simp) (by simp), ?_⟩
  rw [Writers.budget, bytesBudget_update (by rw [hst]; rfl) fun j hji =>
    WriteStage.growth_congr (hlens j hji)]
  have hbytes : (w'.st.currBytes : Int) =
      c.shared.st.currBytes + c.shared.st.growth a k d.length := by
    have hle := hwf.accounted.dataLen_le hmem
    rw [hst, FileStorage.growth]
    show ((c.shared.st.currBytes - (c.shared.st.file a).dataLen + (k + d.length) : Nat) : Int) = _
    omega
  rw [hbytes]
  exact Budget.covered_spend_iff hg

/-- Writing handlers start from a well-formed storage. In all states of a run
the count is within its limit, and each handler that has passed its test would
pass it again, if and only if each handler that sets the count leaves room
beside it for any other that has passed its test. -/
theorem tests_hold_iff {past : List ((ι × List (Event Mutex)) × Writers ι)}
    (hh : ∀ i, (handlers i).Writes)
    (hrun : WritersRun qsort handlers (·.st.WellFormed) past c) :
    (∀ x ∈ visited past c, x.budget.Covered ∧ x.shared.st.currBytes ≤ x.shared.st.maxBytes) ↔
      ∀ e ∈ past, Writers.LeavesRoom e.1 e.2 := by
  refine Run.always_iff (J := Writers.Writing) (C := Writers.LeavesRoom) hrun
    (fun c hc => ?_) fun c l c' hI hJ hstep => ?_
  · have hbegun := hc.2
    refine ⟨⟨fun i g hg => ?_, hc.1.accounted.bytes_le⟩, ⟨⟨hc.1, ?_, ?_, ?_⟩, ?_, ?_⟩⟩
    · simp [Writers.budget, bytesBudget, WriteStage.growth, hbegun i] at hg
    all_goals simp [hbegun, WriteStage.file, Stage.file]
  · cases hstep with
    | act i tr w t ha =>
        have hboth : Writers.Writing ⟨w, Function.update c.stage i t⟩ ∧
            ((Writers.budget ⟨w, Function.update c.stage i t⟩).Covered ↔
              c.budget.RoomBeside i) := by
          cases hstage : c.stage i with
          | tested a k d => exact hJ.tested (hh i) hstage (hstage ▸ ha) hI.1
          | outside s =>
              have hnone : c.budget.RoomBeside i := fun g hg => by
                simp [Writers.budget, bytesBudget, WriteStage.growth, hstage] at hg
              cases s with
              | begun => exact (hJ.begun (hh i) (hstage ▸ ha) hI.1).imp_right (iff_of_true · hnone)
              | granted a n =>
                  exact (hJ.granted (hh i) hstage (hstage ▸ ha) hI.1).imp_right
                    (iff_of_true · hnone)
              | looked file => exact absurd hstage (hJ.unlooked i file)
              | returned r => exact absurd hstage (ha.active r)
        have hle := hboth.1.files.wellFormed.accounted.bytes_le
        exact ⟨(and_iff_left hle).trans hboth.2, fun _ => hboth.1⟩

/-- The count stays within its limit in every run in which each handler that
sets it leaves room for the others. -/
theorem bytes_bounded {past : List ((ι × List (Event Mutex)) × Writers ι)}
    (hh : ∀ i, (handlers i).Writes)
    (hrun : WritersRun qsort handlers (·.st.WellFormed) past c)
    (hroom : ∀ e ∈ past, Writers.LeavesRoom e.1 e.2) :
    ∀ x ∈ visited past c, x.shared.st.currBytes ≤ x.shared.st.maxBytes := fun x hx =>
  ((tests_hold_iff hh hrun).mpr hroom x hx).2

end Race

/-- Each is sent two bytes, and both test before either sets the count. -/
theorem bytes_bounded_small : ∃ past c,
    WritersRun Qsort.insertion twoWriters (·.st.WellFormed) past c ∧
      c.shared.st.currBytes = 4 ∧
      ∀ x ∈ visited past c, x.shared.st.currBytes ≤ x.shared.st.maxBytes := by
  have hwf := twoFiles_wellFormed rfl
  have h₀ : WritersRun Qsort.insertion twoWriters (·.st.WellFormed) []
      ⟨⟨_, ∅⟩, fun _ => .outside .begun⟩ := .init _ ⟨hwf, fun _ => rfl⟩
  have h₁ := WritersRun.section h₀ false (.outside .begun)
    [.read 8 (some [2, 0, 0, 0, 0, 0, 0, 0]), .write (.word sapiSuccess) true] rfl (by simp)
    (by simp) rfl
  have h₂ := WritersRun.section h₁ true (.outside .begun)
    [.read 8 (some [2, 0, 0, 0, 0, 0, 0, 0]), .write (.word sapiSuccess) true] rfl (by simp)
    (by simp) rfl
  have h₃ := WritersRun.section h₂ false (.outside (.granted 0 2)) [.read 2 (some [1, 2])] rfl
    (by simp) (by simp) rfl
  have h₄ := WritersRun.section h₃ true (.outside (.granted 1 2)) [.read 2 (some [3, 4])] rfl
    (by simp) (by simp) rfl
  have h₅ := WritersRun.section h₄ false (.tested 0 0 [1, 2]) [.write (.word sapiSuccess) true] rfl
    (by simp) (by simp) rfl
  have h₆ := WritersRun.section h₅ true (.tested 1 0 [3, 4]) [.write (.word sapiSuccess) true] rfl
    (by simp) (by simp) rfl
  refine ⟨_, _, h₆, rfl, bytes_bounded twoWriters_writes h₆ fun e he => ?_⟩
  simp only [List.nil_append, List.append_assoc, List.mem_append, List.mem_singleton] at he
  rcases he with rfl | rfl | rfl | rfl | rfl | rfl
  · intro g hg
    cases hg
  · intro g hg
    cases hg
  · intro g hg
    cases hg
  · intro g hg
    cases hg
  · intro g hg j hj g' hg'
    match j with
    | false => exact absurd rfl hj
    | true =>
        injection hg with hg
        injection hg' with hg'
        subst hg hg'
        decide
  · intro g hg j hj g' hg'
    match j with
    | false => cases hg'
    | true => exact absurd rfl hj

/-- Each is sent three bytes, where there is room for five. -/
theorem count_exceeds : ∃ past c,
    WritersRun Qsort.insertion twoWriters (·.st.WellFormed) past c ∧
      c.shared.st.currBytes = 6 ∧ c.shared.st.maxBytes = 5 := by
  have hwf := twoFiles_wellFormed rfl
  have h₀ : WritersRun Qsort.insertion twoWriters (·.st.WellFormed) []
      ⟨⟨_, ∅⟩, fun _ => .outside .begun⟩ := .init _ ⟨hwf, fun _ => rfl⟩
  have h₁ := WritersRun.section h₀ false (.outside .begun)
    [.read 8 (some [3, 0, 0, 0, 0, 0, 0, 0]), .write (.word sapiSuccess) true] rfl (by simp)
    (by simp) rfl
  have h₂ := WritersRun.section h₁ true (.outside .begun)
    [.read 8 (some [3, 0, 0, 0, 0, 0, 0, 0]), .write (.word sapiSuccess) true] rfl (by simp)
    (by simp) rfl
  have h₃ := WritersRun.section h₂ false (.outside (.granted 0 3)) [.read 3 (some [1, 2, 3])] rfl
    (by simp) (by simp) rfl
  have h₄ := WritersRun.section h₃ true (.outside (.granted 1 3)) [.read 3 (some [4, 5, 6])] rfl
    (by simp) (by simp) rfl
  have h₅ := WritersRun.section h₄ false (.tested 0 0 [1, 2, 3])
    [.write (.word sapiSuccess) true] rfl (by simp) (by simp) rfl
  have h₆ := WritersRun.section h₅ true (.tested 1 0 [4, 5, 6])
    [.write (.word sapiSuccess) true] rfl (by simp) (by simp) rfl
  exact ⟨_, _, h₆, rfl, rfl⟩

end LsoStore
