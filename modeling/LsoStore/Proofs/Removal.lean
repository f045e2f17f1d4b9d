import LsoStore.Proofs.Handlers

/-!
# What a removal removes

`server_removeFile` frees the path it read before it hands it on to
`fu_remove_file`, which looks the file up a second time. So two lookups have to
agree, one by the path and one by whatever the freed buffer holds by then, and
`fu_remove_file` may find another file or none. Its return code is not looked
at, and the client is told that the file is gone.
-/

namespace LsoStore

open Proc FileStorage

/-- The path the request was read with. -/
def readPath : List (Event Mutex) → Option (List UInt8)
  | .read _ (some buf) :: _ => some (cString buf)
  | _ => none

/-- The file at `a` is gone, and every other one is there as it was. -/
structure RemovedOnly (s s' : FileStorage) (a : Nat) : Prop where
  gone : a ∉ s'.ptrs
  others : ∀ b ∈ s.ptrs, b ≠ a → b ∈ s'.ptrs ∧ s'.heap b = s.heap b

/-- A removal that is answered with success removed the file that the path
leads to, and only that; with any other answer nothing left the table. -/
structure RemovesNamed (s s' : FileStorage) (tr : List (Event Mutex)) : Prop where
  success : (∃ ok, .write (.word sapiSuccess) ok ∈ tr) →
    ∃ path a, readPath tr = some path ∧ s.table.huGet path = some a ∧ RemovedOnly s s' a
  otherwise : (¬ ∃ ok, .write (.word sapiSuccess) ok ∈ tr) → s'.table = s.table

/-- If the path leads to a file that the client has open, so does what the
freed buffer holds. -/
def FreedLeadsBack (s : FileStorage) (client : Int) (tr : List (Event Mutex)) : Prop :=
  ∀ path a, readPath tr = some path → s.table.huGet path = some a →
    (s.file a).client = client →
    ∀ freed, .unspec freed ∈ tr → s.table.huGet (cString freed) = some a

namespace FileStorage

variable {s s' : FileStorage} {a : Nat} {path : List UInt8} {tr : List (Event Mutex)}
  {client : Int}

/-- After the path led to `a`, another path removes that file and no other
exactly when it leads there too. -/
theorem WellFormed.removedOnly_iff (h : s.WellFormed) (hget : s.table.huGet path = some a)
    (q : List UInt8) :
    RemovedOnly s ((s.fuGetfile path).2.fuRemoveFile q).2 a ↔ s.table.huGet q = some a := by
  have h₁ : (s.fuGetfile path).2.WellFormed := h.fuGetfile path
  have ha : a ∈ s.ptrs := WellFormed.huGet_mem_ptrs hget
  have hmem : ∀ b ∈ s.ptrs, (b ∈ ((s.fuGetfile path).2.fuRemoveFile q).2.ptrs ↔
      b ∉ (s.table.huGet q).toList) := by
    intro b hb
    rw [← fuGetfile_table s path]
    exact h₁.mem_ptrs_fuRemoveFile q (by rwa [fuGetfile_ptrs])
  constructor
  · intro hremoved
    have hgone := hremoved.gone
    rw [hmem a ha, not_not] at hgone
    exact Option.mem_toList.mp hgone
  · intro hq
    constructor
    · rw [hmem a ha, hq]
      simp
    · intro b hb hne
      constructor
      · rw [hmem b hb, hq]
        simpa using hne
      · obtain ⟨k, t, -, -, heq⟩ :=
          h₁.accounted.fuRemoveFile_of_huGet ((fuGetfile_table s path).symm ▸ hq)
        rw [heq]
        simp only [fuFreeFileData, if_neg hne]
        rw [modifyFile_heap_of_ne _ _ _ hne, fuGetfile_snd, hget]
        exact modifyFile_heap_of_ne _ _ _ hne

/-- A request that is refused is as it should be. -/
theorem removesNamed_iff_of_refused (hno : ¬ ∃ ok, .write (.word sapiSuccess) ok ∈ tr)
    (ht : s'.table = s.table) (hback : FreedLeadsBack s client tr) :
    RemovesNamed s s' tr ↔ FreedLeadsBack s client tr :=
  iff_of_true ⟨fun hyes => absurd hyes hno, fun _ => ht⟩ hback

/-- A request that gets to the removal removes the right file exactly when the
freed path leads back to it. -/
theorem removesNamed_iff_of_removed (h : s.WellFormed) {bs : List UInt8}
    (hget : s.table.huGet (cString bs) = some a) (hown : (s.file a).client = client) (n : Nat)
    (freed : List UInt8) (ok : Bool) :
    RemovesNamed s ((s.fuGetfile (cString bs)).2.fuRemoveFile (cString freed)).2
      [.read n (some bs), .unspec freed, .write (.word sapiSuccess) ok] ↔
    FreedLeadsBack s client
      [.read n (some bs), .unspec freed, .write (.word sapiSuccess) ok] := by
  have hback : FreedLeadsBack s client
      [.read n (some bs), .unspec freed, .write (.word sapiSuccess) ok] ↔
      s.table.huGet (cString freed) = some a := by
    constructor
    · intro hall
      exact hall _ a rfl hget hown freed (by simp)
    · intro hq path b hb' hb _ freed' hfreed
      cases hb'
      rw [hget, Option.some.injEq] at hb
      subst hb
      have heq : freed' = freed := by simpa using hfreed
      rw [heq]
      exact hq
  rw [hback, ← h.removedOnly_iff hget]
  constructor
  · intro hremoves
    obtain ⟨path, b, hp, hb, honly⟩ := hremoves.success ⟨ok, by simp⟩
    cases hp
    rw [hget, Option.some.injEq] at hb
    subst hb
    exact honly
  · intro honly
    exact ⟨fun _ => ⟨_, a, rfl, hget, honly⟩, fun hno => absurd ⟨ok, by simp⟩ hno⟩

end FileStorage

section Handler

variable {qsort : Qsort Nat} {maxFiles maxBytes : Nat} {w w' : World FileStorage Mutex}
  {message : SMessage} {client : Int} {tr : List (Event Mutex)} {r : Int}

theorem serverRemoveFile_removes (hm : message ≠ 0) (hc : client ≠ 0) (hwf : w.st.WellFormed) :
    (serverRemoveFile message client).Ensures w fun tr o w' => ∀ r, o = .ret r →
      (RemovesNamed w.st w'.st tr ↔ FreedLeadsBack w.st client tr) := by
  rw [serverRemoveFile, if_neg (not_or.mpr ⟨hm, hc⟩), ensures_serverGetPath_bind hm hc]
  refine ⟨fun _ r hr => (by cases hr), fun _ buf _ => ?_⟩
  cases buf with
  | none =>
      rw [Option.map_none, ensures_sapiRespond hc, ensures_ret]
      exact ⟨fun _ _ => removesNamed_iff_of_refused (by simp [sapiFailure, sapiSuccess]) rfl
          fun _ _ hp => (by cases hp),
        fun _ _ => removesNamed_iff_of_refused (by simp [sapiFailure, sapiSuccess]) rfl
          fun _ _ hp => (by cases hp)⟩
  | some bs =>
      rw [Option.map_some]
      dsimp only
      refine ensures_lock.mpr ⟨fun _ r hr => (by cases hr), fun _ => ?_⟩
      rw [ensures_getfile]
      dsimp only
      cases hget : w.st.table.huGet (cString bs) with
      | none =>
          dsimp only
          have hback : ∀ ok, FreedLeadsBack w.st client
              [.read (lenOf message) (some bs), .write (.word sapiFnf) ok] := by
            intro ok path a ha' ha
            cases ha'
            rw [hget] at ha
            cases ha
          rw [ensures_unlock, ensures_sapiRespond hc, ensures_ret]
          exact ⟨fun _ _ => removesNamed_iff_of_refused (by simp [sapiFnf, sapiSuccess])
              (fuGetfile_table ..) (hback false),
            fun _ _ => removesNamed_iff_of_refused (by simp [sapiFnf, sapiSuccess])
              (fuGetfile_table ..) (hback true)⟩
      | some a =>
          dsimp only
          refine Ensures.lockFile (fun _ r hr => (by cases hr)) (fun _ r hr => (by cases hr))
            fun _ f hf => ?_
          have hclient := (fuGetfile_client _ hf).symm
          split
          · next hforeign =>
              have hback : ∀ ok, FreedLeadsBack w.st client
                  [.read (lenOf message) (some bs), .write (.word sapiLocked) ok] := by
                intro ok path b hb' hb hown
                cases hb'
                rw [hget, Option.some.injEq] at hb
                subst hb
                exact absurd (hclient.trans hown) hforeign
              rw [ensures_unlock, ensures_unlock, ensures_sapiRespond hc, ensures_ret]
              exact ⟨fun _ _ => removesNamed_iff_of_refused (by simp [sapiLocked, sapiSuccess])
                  (fuGetfile_table ..) (hback false),
                fun _ _ => removesNamed_iff_of_refused (by simp [sapiLocked, sapiSuccess])
                  (fuGetfile_table ..) (hback true)⟩
          · next hown =>
              rw [ensures_unlock, ensures_unspec]
              intro freed
              rw [ensures_removefile, ensures_unlock, ensures_sapiRespond hc, ensures_ret]
              have hremoves : ∀ ok,
                  RemovesNamed w.st
                    ((w.st.fuGetfile (cString bs)).2.fuRemoveFile (cString freed)).2
                    [.read (lenOf message) (some bs), .unspec freed,
                      .write (.word sapiSuccess) ok] ↔
                  FreedLeadsBack w.st client
                    [.read (lenOf message) (some bs), .unspec freed,
                      .write (.word sapiSuccess) ok] :=
                fun ok => removesNamed_iff_of_removed hwf hget
                  (hclient.symm.trans (not_not.mp hown)) (lenOf message) freed ok
              exact ⟨fun _ _ => hremoves false, fun _ _ => hremoves true⟩

/-- A removal does what it is for exactly when the freed path still leads to
the file it led to before, or none of the client's was found. -/
theorem removal_iff (hw : Reachable qsort maxFiles maxBytes w)
    (hop : opOf message = sapiRemoveFile)
    (hr : (serve qsort message client).Runs w tr (.ret r) w') :
    RemovesNamed w.st w'.st tr ↔ FreedLeadsBack w.st client tr := by
  have hm := ne_zero_of_opOf hop (by decide)
  rw [serve_removeFile hop] at hr
  by_cases hc : client = 0
  · rw [serverRemoveFile, if_pos (.inr hc), runs_ret] at hr
    obtain ⟨rfl, -, rfl⟩ := hr
    exact removesNamed_iff_of_refused (by simp) rfl fun _ _ hp => (by cases hp)
  · exact serverRemoveFile_removes hm hc hw.wellFormed tr _ w' hr r rfl

/-- Client 5 has opened "a" and "b", and asks for the removal of "b". The freed
buffer holds `freed`. -/
theorem remove_b (freed : List UInt8) : ∃ w w', Reachable Qsort.insertion 2 3 w ∧
    w.st.ptrs = [0, 1] ∧ w.st.table.huGet [97] = some 0 ∧ w.st.table.huGet [98] = some 1 ∧
    (serve Qsort.insertion (sapiMessageLen 0 sapiRemoveFile 1) 5).Runs w
      [.read 1 (some [98]), .unspec freed, .write (.word sapiSuccess) true] (.ret 0) w' ∧
    w'.st = ((w.st.fuGetfile [98]).2.fuRemoveFile (cString freed)).2 := by
  have h₀ : Reachable Qsort.insertion 2 3 ⟨_, ∅⟩ := .init (by decide) (by decide) rfl
  have h₁ := h₀.created 5 [97] rfl
  have h₂ := h₁.created 5 [98] rfl
  exact ⟨_, _, h₂, rfl, rfl, rfl, rfl, rfl⟩

/-- The freed buffer still holds "b", and "b" is removed. -/
theorem removal_iff_intact : ∃ w w' : World FileStorage Mutex,
    FreedLeadsBack w.st 5
      [.read 1 (some [98]), .unspec [98], .write (.word sapiSuccess) true] ∧
    RemovesNamed w.st w'.st
      [.read 1 (some [98]), .unspec [98], .write (.word sapiSuccess) true] := by
  obtain ⟨w, w', hw, -, -, hb, hr, -⟩ := remove_b [98]
  have hback : FreedLeadsBack w.st 5
      [.read 1 (some [98]), .unspec [98], .write (.word sapiSuccess) true] := by
    intro path a hpath ha _ freed hfreed
    cases hpath
    have heq : freed = [98] := by simpa using hfreed
    rw [heq]
    exact ha
  exact ⟨w, w', hback, (removal_iff hw (by decide) hr).mpr hback⟩

/-- The freed buffer holds "a", and that is the file that goes. -/
theorem removes_another : ∃ w w', Reachable Qsort.insertion 2 3 w ∧
    (serve Qsort.insertion (sapiMessageLen 0 sapiRemoveFile 1) 5).Runs w
      [.read 1 (some [98]), .unspec [97], .write (.word sapiSuccess) true] (.ret 0) w' ∧
    w.st.ptrs = [0, 1] ∧ w.st.table.huGet [98] = some 1 ∧ 0 ∉ w'.st.ptrs ∧ 1 ∈ w'.st.ptrs ∧
    ¬ RemovesNamed w.st w'.st
      [.read 1 (some [98]), .unspec [97], .write (.word sapiSuccess) true] := by
  obtain ⟨w, w', hw, hptrs, ha, hb, hr, hst⟩ := remove_b [97]
  have hwf := hw.wellFormed.fuGetfile [98]
  have hleft : ∀ x ∈ w.st.ptrs, (x ∈ w'.st.ptrs ↔ x ≠ 0) := by
    intro x hx
    rw [← fuGetfile_ptrs w.st [98]] at hx
    rw [hst, hwf.mem_ptrs_fuRemoveFile _ hx, fuGetfile_table,
      show cString [97] = [97] from rfl, ha]
    simp
  have hzero : 0 ∉ w'.st.ptrs := fun h => (hleft 0 (by simp [hptrs])).mp h rfl
  have hone : 1 ∈ w'.st.ptrs := (hleft 1 (by simp [hptrs])).mpr (by decide)
  refine ⟨w, w', hw, hr, hptrs, hb, hzero, hone, fun hremoves => ?_⟩
  obtain ⟨path, x, hp, hx, honly⟩ := hremoves.success ⟨true, by simp⟩
  cases hp
  rw [show cString [98] = [98] from rfl, hb, Option.some.injEq] at hx
  subst hx
  exact honly.gone hone

end Handler

end LsoStore
