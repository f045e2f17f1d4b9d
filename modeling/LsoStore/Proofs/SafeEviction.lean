import LsoStore.Proofs.Eviction

/-!
# An eviction that succeeds

The writing handlers hold the mutex of the file they write to while they make
room, so the file they make room for is never one of the files given up, and
neither is a file that another client has open. When `server_evict` returns 0
the files it gave up had enough bytes, and the counters say so.
-/

namespace LsoStore

open Proc FileStorage

/-- Where a writing handler makes room: it has looked its file up and holds the
mutexes of the storage and of the file. -/
def makingRoom (w : World FileStorage Mutex) (path : List UInt8) (a : Nat) :
    World FileStorage Mutex :=
  ⟨(w.st.fuGetfile path).2, insert (.file a) (insert .storage w.held)⟩

/-- From `s` to `s'` there is now room for `len` bytes in the file at `a`, and
nothing is lost that `client` may not take. -/
structure MadeRoom (s s' : FileStorage) (client : Int) (a len : Nat) : Prop where
  room : len ≤ s'.fuStorageBytesAvailable
  target : a ∈ s'.ptrs ∧ (s'.file a).data = (s.file a).data
  others : ∀ b ∈ s.ptrs, (s.file b).client ≠ -1 → (s.file b).client ≠ client →
    b ∈ s'.ptrs ∧ (s'.file b).data = (s.file b).data ∧
      (s'.file b).client = (s.file b).client
  files : s'.currFiles = s'.table.items.length
  bytes : s'.currBytes = s'.storedBytes

section Success

variable {qsort : Qsort Nat} {client : Int} {n : Nat} {w w' : World FileStorage Mutex}
  {tr : List (Event Mutex)}

/-- Descriptor 0 is refused. -/
theorem serverEvict_zero (hr : (serverEvict qsort 0 n).Runs w tr (.ret 0) w') : False := by
  refine (?_ : (serverEvict qsort 0 n).Ensures w fun _ o _ => o ≠ .ret 0) tr _ w' hr rfl
  rw [serverEvict, ensures_get]
  cases w.st.fuEvictFiles qsort n with
  | none => simp
  | some arr =>
      dsimp only
      split
      · simp
      · simp [serverRespond]

/-- An eviction that returns 0 gave up files it may give up, and enough of them. -/
theorem EvictReturn.success {s s' : FileStorage} {H : Finset Mutex}
    {ans : List (SMessage × Bool)} (h : EvictReturn s H client n ans 0 s') :
    ∃ gone, Without s s' gone ∧ s'.WellFormed ∧ n ≤ s.bytesOf gone ∧
      ∀ b ∈ gone, s.Evictable H client b := by
  generalize hr : (0 : Int) = r at h
  cases h with
  | infeasible => cases hr
  | unannounced => cases hr
  | refused => cases hr
  | done s' as gone notices ok hle hperm hend hdone =>
      split at hr
      · next henough =>
          refine ⟨gone, hend.without, hend.wellFormed, henough.1, fun b hb => ?_⟩
          exact of_decide_eq_true (List.mem_filter.mp (hend.isPrefix.subset hb)).2
      · cases hr

end Success

/-- Whenever a writing handler makes room and the eviction returns 0, there is
room, the file is there with its contents, and so is every file that another
client has open. -/
theorem evict_makes_room {qsort : Qsort Nat} {maxFiles maxBytes : Nat}
    {w v' : World FileStorage Mutex} {client : Int} {path : List UInt8} {a len : Nat}
    {tr : List (Event Mutex)} (hw : Reachable qsort maxFiles maxBytes w)
    (ha : w.st.table.huGet path = some a)
    (hr : (serverEvict qsort client
      (len - (makingRoom w path a).st.fuStorageBytesAvailable)).Runs (makingRoom w path a) tr
        (.ret 0) v')
    (halone : Alone (makingRoom w path a).held tr) :
    MadeRoom w.st v'.st client a len := by
  set v := makingRoom w path a with hv
  set n := len - v.st.fuStorageBytesAvailable with hn
  have hc : client ≠ 0 := by
    intro heq
    subst heq
    exact serverEvict_zero hr
  have hwf : v.st.WellFormed :=
    hw.wellFormed.fuGetfile path
  have hptrs : v.st.ptrs = w.st.ptrs := w.st.fuGetfile_ptrs path
  have hfile : ∀ b, (v.st.file b).data = (w.st.file b).data ∧
      (v.st.file b).client = (w.st.file b).client :=
    fun b => (w.st.fuGetfile_file path b).imp_right And.left
  obtain ⟨gone, hwo, hwf', henough, hgone⟩ :=
    (serverEvict_return qsort hc n hwf tr _ v' hr 0 rfl halone).success
  have hkept : ∀ b ∈ w.st.ptrs, b ∉ gone → b ∈ v'.st.ptrs ∧
      (v'.st.file b).data = (w.st.file b).data ∧
      (v'.st.file b).client = (w.st.file b).client := by
    intro b hb hnot
    obtain ⟨hmem, hsame⟩ := hwo.kept (hptrs ▸ hb) hnot
    exact ⟨hmem, hsame ▸ hfile b⟩
  refine ⟨?_, ?_, fun b hb hfree hother => ?_, hwf'.accounted.files, hwf'.accounted.bytes⟩
  · have hmoves : Moves none v.st v'.st := serverEvict_moves qsort hc n tr _ v' hr
    exact hwo.room hwf hwf' hmoves.limits.2 henough
  · have hmem : a ∈ w.st.ptrs := WellFormed.huGet_mem_ptrs ha
    have hlocked : a ∉ gone := fun h => (hgone a h).1 (Finset.mem_insert_self ..)
    exact ⟨(hkept a hmem hlocked).1, (hkept a hmem hlocked).2.1⟩
  · refine hkept b hb fun h => ?_
    rcases (hgone b h).2 with h | h
    · exact hfree ((hfile b).2.symm.trans h)
    · exact hother ((hfile b).2.symm.trans h)

/-- Client 5 has stored "b" with two bytes and closed it, and makes room for two
bytes in "a". -/
theorem evict_b_for_a : ∃ w v', Reachable Qsort.insertion 2 3 w ∧
    w.st.table.huGet [97] = some 1 ∧
    (serverEvict Qsort.insertion 5
      (2 - (makingRoom w [97] 1).st.fuStorageBytesAvailable)).Runs (makingRoom w [97] 1)
      [.write (.word sapiEvictMsg) true, .read 8 (some (LittleEndian.encode 8 0)),
        .trylock (.file 0) true, .write (.word sapiSuccess) true] (.ret 0) v' := by
  have h₀ : Reachable Qsort.insertion 2 3 ⟨_, ∅⟩ := .init (by decide) (by decide) rfl
  have h₁ := h₀.created 5 [98] rfl
  have h₂ := h₁.written 5 [98] [7, 8] rfl
  have h₃ := h₂.closed 5 [98] rfl
  have h₄ := h₃.created 5 [97] rfl
  exact ⟨_, _, h₄, rfl, rfl⟩

theorem evict_makes_room_b : ∃ w v' : World FileStorage Mutex, Reachable Qsort.insertion 2 3 w ∧
    MadeRoom w.st v'.st 5 1 2 := by
  obtain ⟨w, v', hw, ha, hr⟩ := evict_b_for_a
  exact ⟨w, v', hw, evict_makes_room hw ha hr (by simp [Alone])⟩

end LsoStore
