import LsoStore.Proofs.Writers

/-!
# Space that was granted

`server_writeFile` and `server_appendToFile` make sure under the storage's mutex
that there is room and tell the client to send. They call `fu_writefile` when
the data has come, without that mutex, and nothing is put aside for them in
between.

When a handler is told to receive there is room for it, whatever others were
told before. What can take the room away is another's call of `fu_writefile`:
all grants hold as long as each such call leaves room beside it for every other
handler that waits for its data.
-/

namespace LsoStore

open Proc FileStorage

/-- How many bytes the handler is still going to add. -/
def Handler.growth (h : Handler) (s : FileStorage) : Stage → Option Int
  | .granted a n => some (s.growth a (h.offset (s.file a)) n)
  | _ => none

/-- The count of the bytes, with what was granted on it. -/
def Handlers.budget {ι : Type} (handlers : ι → Handler) (c : Handlers ι) : Budget ι Int :=
  bytesBudget (fun i => (handlers i).growth) c

/-- `fu_writefile` would not refuse any data that a handler was told to
receive. -/
def Handlers.GrantsHold {ι : Type} (handlers : ι → Handler) (c : Handlers ι) : Prop :=
  ∀ i a n, c.stage i = .granted a n → ∀ d : List UInt8, 0 < n → d.length = n →
    ¬ ∃ s', c.shared.st.fuWritefile a ((handlers i).offset (c.shared.st.file a)) (some d) =
      some (-1, s')

/-- If the handler that acts has received its data, there is room for it beside
what any other was granted. -/
def Handlers.LeavesRoom {ι : Type} (handlers : ι → Handler) (l : ι × List (Event Mutex))
    (c : Handlers ι) : Prop :=
  bodyRead l.2 = true → (Handlers.budget handlers c).RoomBeside l.1

/-- Where writing handlers can be. -/
structure Handlers.Writing {ι : Type} (c : Handlers ι) : Prop where
  files : HoldFiles c.shared fun i => (c.stage i).file
  unlooked : ∀ i file, c.stage i ≠ .looked file
  bounded : ∀ i a n, c.stage i = .granted a n → n < 2 ^ 32

section Grants

variable {ι : Type} {qsort : Qsort Nat} {handlers : ι → Handler} {c : Handlers ι}
  {w' : World FileStorage Mutex} {t' : Stage} {i : ι}

theorem Handlers.Writing.grantsHold_iff (h : c.Writing) :
    c.GrantsHold handlers ↔ (Handlers.budget handlers c).Covered := by
  have hacc := h.files.wellFormed.accounted
  constructor
  · intro hg i g hi
    cases hstage : c.stage i with
    | begun => simp [Handlers.budget, bytesBudget, Handler.growth, hstage] at hi
    | looked file => simp [Handlers.budget, bytesBudget, Handler.growth, hstage] at hi
    | returned r => simp [Handlers.budget, bytesBudget, Handler.growth, hstage] at hi
    | granted a n =>
        simp only [Handlers.budget, bytesBudget, Handler.growth, hstage, Option.some.injEq] at hi
        subst hi
        have ha := h.files.stored i a (by simp [hstage, Stage.file])
        have hoff := (handlers i).offset_le (c.shared.st.file a)
        rcases Nat.eq_zero_or_pos n with rfl | hn
        · have hle := hacc.bytes_le
          rw [Handlers.budget, bytesBudget, FileStorage.growth]
          dsimp only
          omega
        · have hd : (List.replicate n (0 : UInt8)).length = n := List.length_replicate
          have hnot := hg i a n hstage _ hn hd
          rw [hacc.fuWritefile_refuses_iff ha (by rwa [hd])
            (by rw [hd]; exact h.bounded i a n hstage)
            hoff, not_not, hd] at hnot
          exact hnot
  · intro hcov i a n hstage d hn heq
    subst heq
    have ha := h.files.stored i a (by simp [hstage, Stage.file])
    rw [hacc.fuWritefile_refuses_iff ha hn (h.bounded i a _ hstage)
      ((handlers i).offset_le _), not_not]
    exact hcov i _ (by simp [Handlers.budget, bytesBudget, Handler.growth, hstage])

variable [DecidableEq ι] {tr : List (Event Mutex)}

/-- What a handler is going to add depends on its own file. -/
theorem Handler.growth_congr (h : Handler) {s s' : FileStorage} {t : Stage}
    (hlen : ∀ a, t.file = some a → (s'.file a).dataLen = (s.file a).dataLen) :
    h.growth s' t = h.growth s t := by
  cases t with
  | granted a n =>
      rw [Handler.growth, Handler.growth, FileStorage.growth, FileStorage.growth, hlen a rfl,
        h.offset_congr (hlen a rfl)]
  | begun => rfl
  | looked file => rfl
  | returned r => rfl

theorem Handlers.Writing.update (h : c.Writing)
    (hfiles : HoldFiles w' (Function.update (fun j => (c.stage j).file) i t'.file))
    (hunlooked : ∀ file, t' ≠ .looked file) (hbounded : ∀ a n, t' = .granted a n → n < 2 ^ 32) :
    Handlers.Writing ⟨w', Function.update c.stage i t'⟩ where
  files := hfiles.at_stages
  unlooked := (Function.forall_update_iff (p := fun _ (t : Stage) =>
      ∀ file, t ≠ .looked file) _).mpr
    ⟨hunlooked, fun j _ => h.unlooked j⟩
  bounded := (Function.forall_update_iff
    (p := fun _ (t : Stage) => ∀ a n, t = .granted a n → n < 2 ^ 32) _).mpr
    ⟨hbounded, fun j _ => h.bounded j⟩

/-- The section under the storage's mutex keeps all grants. -/
theorem Handlers.Writing.begun (h : c.Writing) (hh : (handlers i).Writes)
    (ha : (handlers i).Acts qsort tr c.shared .begun w' t')
    (hcov : (Handlers.budget handlers c).Covered) :
    Handlers.Writing ⟨w', Function.update c.stage i t'⟩ ∧
      (Handlers.budget handlers ⟨w', Function.update c.stage i t'⟩).Covered := by
  have hd := hh.acts_begun h.files.wellFormed ha
  obtain ⟨hhold, hlens, hbytes, hmax⟩ := hd.holdFiles (i := i) h.files
  have hacc := hhold.wellFormed.accounted
  have hle := hacc.bytes_le
  have hroom := hacc.bytesAvailable
  rw [Handlers.budget, bytesBudget_update hmax fun j _ => (handlers j).growth_congr (hlens j)]
  rcases hd.stage with ⟨file, n, rfl, -, -, -, -, hn⟩ | ⟨r, rfl⟩
  · refine ⟨h.update hhold (by simp) ?_,
      hcov.promise (by simpa [Handlers.budget, bytesBudget] using hbytes) ?_⟩
    · intro a n hn
      cases hn
      have hlt := hacc.maxBytes_lt
      omega
    · intro g hg
      cases hg
      have hoff := (handlers i).offset_le (w'.st.file file)
      rw [Handlers.budget, bytesBudget, FileStorage.growth, ← hmax]
      dsimp only
      omega
  · exact ⟨h.update hhold (by simp) (by simp),
      hcov.promise (by simpa [Handlers.budget, bytesBudget] using hbytes)
        (by simp [Handler.growth])⟩

/-- The call of `fu_writefile` keeps the grants it leaves room for. -/
theorem Handlers.Writing.granted {a n : Nat} (h : c.Writing) (hh : (handlers i).Writes)
    (hstage : c.stage i = .granted a n)
    (ha : (handlers i).Acts qsort tr c.shared (.granted a n) w' t')
    (hcov : (Handlers.budget handlers c).Covered) :
    Handlers.Writing ⟨w', Function.update c.stage i t'⟩ ∧
      ((Handlers.budget handlers ⟨w', Function.update c.stage i t'⟩).Covered ↔
        Handlers.LeavesRoom handlers (i, tr) c) := by
  obtain ⟨⟨r, rfl⟩, hr⟩ := hh.acts_granted ha
  have hi : (c.stage i).file = some a := by rw [hstage, Stage.file]
  obtain ⟨hwf', hptrs, hmax, hothers⟩ := hr.others h.files.wellFormed
  have hsame : ∀ j, j ≠ i → (handlers j).growth w'.st (c.stage j) =
      (handlers j).growth c.shared.st (c.stage j) := fun j hji =>
    (handlers j).growth_congr fun b hj =>
      hothers b fun hba => hji (h.files.distinct j i a (hba ▸ hj) hi)
  refine ⟨h.update (h.files.release hi hr.held hwf' hptrs) (by simp) (by simp), ?_⟩
  rw [Handlers.budget, bytesBudget_update hmax hsame]
  cases hbody : bodyRead tr with
  | false =>
      refine iff_of_true (hcov.promise ?_ (by simp [Handler.growth])) fun h => ?_
      · rw [hr.unwritten hbody]
        exact le_refl _
      · rw [hbody] at h
        cases h
  | true =>
      set g := c.shared.st.growth a ((handlers i).offset (c.shared.st.file a)) n
      have hg : (Handlers.budget handlers c).promised i = some g := by
        simp only [Handlers.budget, bytesBudget, Handler.growth, hstage, g]
      have hbytes := hr.currBytes h.files.wellFormed hbody ((handlers i).offset_le _)
        (hcov i g hg)
      rw [hbytes]
      exact (Budget.covered_spend_iff hg).trans ⟨fun h _ => h, fun h => h hbody⟩

/-- Writing handlers start from a well-formed storage. All that is granted
holds until it is written if and only if each handler that has received its
data leaves room beside it for what any other was granted. -/
theorem grants_hold_iff {past : List ((ι × List (Event Mutex)) × Handlers ι)}
    (hh : ∀ i, (handlers i).Writes)
    (hrun : HandlersRun qsort handlers (·.st.WellFormed) past c) :
    (∀ x ∈ visited past c, x.GrantsHold handlers) ↔
      ∀ e ∈ past, Handlers.LeavesRoom handlers e.1 e.2 := by
  refine Run.always_iff (J := Handlers.Writing) (C := Handlers.LeavesRoom handlers) hrun
    (fun c hc => ?_) fun c l c' hI hJ hstep => ?_
  · have hwriting : c.Writing := by
      have hbegun := hc.2
      refine ⟨⟨hc.1, ?_, ?_, ?_⟩, ?_, ?_⟩ <;> simp [hbegun, Stage.file]
    refine ⟨hwriting.grantsHold_iff.mpr fun i g hg => ?_, hwriting⟩
    simp [Handlers.budget, bytesBudget, Handler.growth, hc.2 i] at hg
  · cases hstep with
    | act i tr w t ha =>
        have hcov := hJ.grantsHold_iff.mp hI
        have hboth : Handlers.Writing ⟨w, Function.update c.stage i t⟩ ∧
            ((Handlers.budget handlers ⟨w, Function.update c.stage i t⟩).Covered ↔
              Handlers.LeavesRoom handlers (i, tr) c) := by
          cases hstage : c.stage i with
          | begun =>
              obtain ⟨hJ', hcov'⟩ := hJ.begun (hh i) (hstage ▸ ha) hcov
              refine ⟨hJ', iff_of_true hcov' fun _ g hg => ?_⟩
              simp [Handlers.budget, bytesBudget, Handler.growth, hstage] at hg
          | granted a n => exact hJ.granted (hh i) hstage (hstage ▸ ha) hcov
          | looked file => exact absurd hstage (hJ.unlooked i file)
          | returned r => exact absurd hstage (ha.active r)
        exact ⟨hboth.1.grantsHold_iff.trans hboth.2, fun _ => hboth.1⟩

end Grants

/-- Each is sent two bytes. -/
theorem grants_hold_small : ∃ past c,
    HandlersRun Qsort.insertion twoWriters (·.st.WellFormed) past c ∧
      c.stage false = .returned 0 ∧ c.stage true = .granted 1 2 ∧
      ∀ x ∈ visited past c, x.GrantsHold twoWriters := by
  have hwf := twoFiles_wellFormed rfl
  have h₀ : HandlersRun Qsort.insertion twoWriters (·.st.WellFormed) []
      ⟨⟨_, ∅⟩, fun _ => .begun⟩ := .init _ ⟨hwf, fun _ => rfl⟩
  have h₁ := HandlersRun.section h₀ false .begun
    [.read 8 (some [2, 0, 0, 0, 0, 0, 0, 0]), .write (.word sapiSuccess) true] rfl (by simp)
    (by simp) rfl
  have h₂ := HandlersRun.section h₁ true .begun
    [.read 8 (some [2, 0, 0, 0, 0, 0, 0, 0]), .write (.word sapiSuccess) true] rfl (by simp)
    (by simp) rfl
  have h₃ := HandlersRun.section h₂ false (.granted 0 2)
    [.read 2 (some [1, 2]), .write (.word sapiSuccess) true] rfl (by simp) (by simp) rfl
  refine ⟨_, _, h₃, rfl, rfl, (grants_hold_iff twoWriters_writes h₃).mpr fun e he => ?_⟩
  simp only [List.nil_append, List.append_assoc, List.mem_append, List.mem_singleton] at he
  rcases he with rfl | rfl | rfl
  · intro _ g hg
    cases hg
  · intro _ g hg
    cases hg
  · intro _ g hg j hj g' hg'
    match j with
    | false => exact absurd rfl hj
    | true =>
        injection hg with hg
        injection hg' with hg'
        subst hg hg'
        decide

/-- Each is sent three bytes, and told to send them before the other's are
written. -/
theorem grant_lost : ∃ past c w',
    HandlersRun Qsort.insertion twoWriters (·.st.WellFormed) past c ∧
      c.stage true = .granted 1 3 ∧ ¬ c.GrantsHold twoWriters ∧
      ((twoWriters true).next Qsort.insertion (c.stage true)).Runs c.shared
        [.read 3 (some [4, 5, 6]), .write (.word sapiFailure) true] (.ret (.returned 1)) w' := by
  have hwf := twoFiles_wellFormed rfl
  have h₀ : HandlersRun Qsort.insertion twoWriters (·.st.WellFormed) []
      ⟨⟨_, ∅⟩, fun _ => .begun⟩ := .init _ ⟨hwf, fun _ => rfl⟩
  have h₁ := HandlersRun.section h₀ false .begun
    [.read 8 (some [3, 0, 0, 0, 0, 0, 0, 0]), .write (.word sapiSuccess) true] rfl (by simp)
    (by simp) rfl
  have h₂ := HandlersRun.section h₁ true .begun
    [.read 8 (some [3, 0, 0, 0, 0, 0, 0, 0]), .write (.word sapiSuccess) true] rfl (by simp)
    (by simp) rfl
  have h₃ := HandlersRun.section h₂ false (.granted 0 3)
    [.read 3 (some [1, 2, 3]), .write (.word sapiSuccess) true] rfl (by simp) (by simp) rfl
  refine ⟨_, _, _, h₃, rfl, fun hg => ?_, rfl⟩
  exact hg true 1 3 rfl [4, 5, 6] (by decide) rfl ⟨_, rfl⟩

end LsoStore
