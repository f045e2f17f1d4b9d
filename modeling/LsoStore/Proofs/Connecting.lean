import LsoStore.Connection

/-!
# What `openConnection` reports

The loop gives up a share of its budget at every failed attempt and looks at
what is left before it looks at what the attempt returned. With a share that is
not positive the budget is never used up. And the attempt at which the budget is
found to be used up counts as failed whatever it returned.
-/

namespace LsoStore

section Loop

variable {connect : Nat → Connect} {t : TimeSpec} {total : Int}

/-- What is left of the budget before attempt `k`. -/
def budget (total share : Int) (k : Nat) : Int := total - k * share

theorem budget_succ (total share : Int) (k : Nat) :
    budget total share k - share = budget total share (k + 1) := by
  rw [budget, budget, Nat.cast_succ, Int.add_mul]
  omega

/-- The loop goes on behind attempt `k`. -/
def GoesOn (connect : Nat → Connect) (total share : Int) (k : Nat) : Prop :=
  (connect k).tryAgain = true ∧ 0 < budget total share k

/-- Attempt `k` is the last one. -/
structure Stops (connect : Nat → Connect) (total share : Int) (k : Nat) : Prop where
  before : ∀ j < k, GoesOn connect total share j ∧ budget total share (j + 1) ≤ longMax
  here : ¬ GoesOn connect total share k

/-- What is returned after attempt `k`. -/
def answer (connect : Nat → Connect) (total share : Int) (k : Nat) : Int :=
  if connect k = .success ∧ 0 < budget total share k then 0 else -1

theorem openConnectionLoop_of_not_goesOn {k : Nat} (h : ¬ GoesOn connect total t.nsec k)
    (rounds : Nat) :
    openConnectionLoop connect t (rounds + 1) k (budget total t.nsec k) =
      .returned (answer connect total t.nsec k) (k + 1) := by
  rw [openConnectionLoop, answer]
  by_cases hb : 0 < budget total t.nsec k
  · have hno : (connect k).tryAgain = false := by simpa [GoesOn, hb] using h
    by_cases hs : connect k = .success
    · simp [hs, hb]
    · simp [hs, hb, hno]
  · simp [hb]

theorem openConnectionLoop_of_goesOn {k : Nat} (h : GoesOn connect total t.nsec k)
    (rounds : Nat) :
    openConnectionLoop connect t (rounds + 1) k (budget total t.nsec k) =
      if budget total t.nsec (k + 1) > longMax then .overflow
      else openConnectionLoop connect t rounds (k + 1) (budget total t.nsec (k + 1)) := by
  obtain ⟨hagain, hb⟩ := h
  have hs : connect k ≠ .success := fun hs => by
    rw [hs] at hagain
    cases hagain
  rw [openConnectionLoop, if_pos ⟨hs, hb⟩, if_pos hagain]
  dsimp only
  rw [budget_succ]

/-- From attempt `k` to the last one. -/
theorem openConnectionLoop_of_stops {k m : Nat} (h : Stops connect total t.nsec (k + m)) :
    openConnectionLoop connect t (m + 1) k (budget total t.nsec k) =
      .returned (answer connect total t.nsec (k + m)) (k + m + 1) := by
  induction m generalizing k with
  | zero => exact openConnectionLoop_of_not_goesOn h.here 0
  | succ m ih =>
      obtain ⟨hgo, hfits⟩ := h.before k (by omega)
      have hk : k + (m + 1) = k + 1 + m := by omega
      rw [hk] at h ⊢
      rw [openConnectionLoop_of_goesOn hgo, if_neg (by omega), ih h]

/-- A call that returns has made its last attempt. -/
theorem stops_of_returned {rounds k n : Nat} {r : Int}
    (hbefore : ∀ j < k, GoesOn connect total t.nsec j ∧ budget total t.nsec (j + 1) ≤ longMax)
    (h : openConnectionLoop connect t rounds k (budget total t.nsec k) = .returned r n) :
    ∃ last, Stops connect total t.nsec last ∧ n = last + 1 ∧
      r = answer connect total t.nsec last := by
  induction rounds generalizing k with
  | zero => cases h
  | succ rounds ih =>
      by_cases hgo : GoesOn connect total t.nsec k
      · rw [openConnectionLoop_of_goesOn hgo] at h
        split at h
        · cases h
        · next hfits =>
            refine ih (fun j hj => ?_) h
            rcases Nat.lt_or_eq_of_le (Nat.le_of_lt_succ hj) with hj | rfl
            · exact hbefore j hj
            · exact ⟨hgo, by omega⟩
      · rw [openConnectionLoop_of_not_goesOn hgo] at h
        injection h with hr hn
        exact ⟨k, ⟨hbefore, hgo⟩, hn.symm, hr.symm⟩

end Loop

/-- The call returns after finitely many attempts, and returns 0 exactly when the
last of them succeeded. -/
def Truthful (sockname : Option CStr) (msec : BitVec 32) (abstime : TimeSpec)
    (socket : Bool) (connect : Nat → Connect) : Prop :=
  ∃ rounds r n, openConnection sockname msec abstime socket connect rounds = .returned r n ∧
    (r = 0 ↔ 0 < n ∧ connect (n - 1) = .success)

/-- How many waits of `share` use up the budget. -/
def waits (total share : Int) : Nat := ((total + share - 1) / share).toNat

/-- With a share that uses the budget up, an attempt before that decides the call
or the one made then does not succeed. With one that does not, some attempt
decides the call while the budget is a `long`, or the first one does not succeed
if there was no budget to begin with. -/
def Decided (total share : Int) (connect : Nat → Connect) : Prop :=
  if 0 < share then
    (∃ j < waits total share, (connect j).tryAgain = false) ∨
      connect (waits total share) ≠ .success
  else if total = 0 then connect 0 ≠ .success
  else ∃ j, budget total share j ≤ longMax ∧ (connect j).tryAgain = false

section Decided

variable {connect : Nat → Connect} {total share : Int}

theorem budget_pos_iff (hs : 0 < share) {k : Nat} :
    0 < budget total share k ↔ k < waits total share := by
  have hle : ((k : Int) + 1) * share ≤ total + share - 1 ↔ 0 < budget total share k := by
    rw [budget, Int.add_mul]
    omega
  rw [← hle, ← Int.le_ediv_iff_mul_le hs, waits]
  omega

theorem budget_le {j k : Nat} (hs : 0 ≤ share) (hjk : j ≤ k) :
    budget total share k ≤ budget total share j := by
  have hmul : (j : Int) * share ≤ k * share := Int.mul_le_mul_of_nonneg_right (by omega) hs
  rw [budget, budget]
  omega

theorem le_budget {j k : Nat} (hs : share ≤ 0) (hjk : j ≤ k) :
    budget total share j ≤ budget total share k := by
  have hmul : (k : Int) * share ≤ j * share := Int.mul_le_mul_of_nonpos_right (by omega) hs
  rw [budget, budget]
  omega

theorem budget_zero (total share : Int) : budget total share 0 = total := by
  rw [budget, Nat.cast_zero, Int.zero_mul, Int.sub_zero]

theorem exists_first (p : Nat → Prop) {n : Nat} (h : p n) :
    ∃ k ≤ n, p k ∧ ∀ j < k, ¬ p j := by
  classical
  exact ⟨Nat.find ⟨n, h⟩, Nat.find_min' ⟨n, h⟩ h, Nat.find_spec ⟨n, h⟩,
    fun _ hj => Nat.find_min _ hj⟩

/-- The answer after the last attempt is right unless it succeeded with no budget
left. -/
theorem answer_eq_zero_iff {k : Nat} :
    (answer connect total share k = 0 ↔ connect k = .success) ↔
      ¬ (connect k = .success ∧ budget total share k ≤ 0) := by
  rw [answer]
  by_cases hc : connect k = .success
  · by_cases hb : 0 < budget total share k
    · simp [hc, hb]
    · simp [hc, hb, Int.not_lt.mp hb]
  · simp [hc]

section

variable (h0 : 0 ≤ total) (hmax : total ≤ longMax)

include hmax in
theorem decided_of_pos (hs : 0 < share) :
    ((∃ j < waits total share, (connect j).tryAgain = false) ∨
        connect (waits total share) ≠ .success) ↔
      ∃ k, Stops connect total share k ∧ ¬ (connect k = .success ∧ budget total share k ≤ 0) := by
  have hfits : ∀ j, budget total share j ≤ longMax := fun j => by
    have hle : budget total share j ≤ budget total share 0 :=
      budget_le (Int.le_of_lt hs) (Nat.zero_le j)
    rw [budget_zero] at hle
    omega
  have hlast : ¬ GoesOn connect total share (waits total share) := fun h =>
    Nat.lt_irrefl _ ((budget_pos_iff hs).mp h.2)
  constructor
  · intro h
    obtain ⟨k, hle, hk, hbefore⟩ := exists_first (¬ GoesOn connect total share ·) hlast
    have hgo : ∀ j < k, GoesOn connect total share j := fun j hj => not_not.mp (hbefore j hj)
    refine ⟨k, ⟨fun j hj => ⟨hgo j hj, hfits _⟩, hk⟩, fun ⟨hsucc, hused⟩ => ?_⟩
    obtain rfl : k = waits total share := by
      refine Nat.le_antisymm hle (Nat.not_lt.mp fun hlt => ?_)
      have := (budget_pos_iff hs).mpr hlt
      omega
    rcases h with ⟨j, hj, hno⟩ | hne
    · have hagain := (hgo j hj).1
      rw [hno] at hagain
      cases hagain
    · exact hne hsucc
  · intro h
    obtain ⟨k, hstops, hlate⟩ := h
    rcases Nat.lt_trichotomy k (waits total share) with hlt | rfl | hgt
    · have hpos := (budget_pos_iff hs).mpr hlt
      exact .inl ⟨k, hlt, by simpa [GoesOn, hpos] using hstops.here⟩
    · refine .inr fun hsucc => hlate ⟨hsucc, Int.not_lt.mp fun hpos => ?_⟩
      exact Nat.lt_irrefl _ ((budget_pos_iff hs).mp hpos)
    · exact absurd (hstops.before _ hgt).1 hlast

theorem decided_of_none (hs : total = 0) :
    connect 0 ≠ .success ↔
      ∃ k, Stops connect total share k ∧ ¬ (connect k = .success ∧ budget total share k ≤ 0) := by
  have hzero : budget total share 0 = 0 := by rw [budget_zero, hs]
  have hstop : ¬ GoesOn connect total share 0 := fun h => by
    have := h.2
    omega
  constructor
  · exact fun hne => ⟨0, ⟨fun j hj => absurd hj (Nat.not_lt_zero j), hstop⟩, fun h => hne h.1⟩
  · intro h hsucc
    obtain ⟨k, hstops, hlate⟩ := h
    rcases Nat.eq_zero_or_pos k with rfl | hpos
    · exact hlate ⟨hsucc, Int.le_of_eq hzero⟩
    · exact hstop (hstops.before 0 hpos).1

include h0 hmax in
theorem decided_of_nonpos (hs : ¬ 0 < share) (hne : total ≠ 0) :
    (∃ j, budget total share j ≤ longMax ∧ (connect j).tryAgain = false) ↔
      ∃ k, Stops connect total share k ∧ ¬ (connect k = .success ∧ budget total share k ≤ 0) := by
  have hpos : ∀ j, 0 < budget total share j := fun j => by
    have hle : budget total share 0 ≤ budget total share j :=
      le_budget (Int.not_lt.mp hs) (Nat.zero_le j)
    rw [budget_zero] at hle
    omega
  constructor
  · intro h
    obtain ⟨n, hn, hno⟩ := h
    obtain ⟨k, hle, hk, hbefore⟩ :=
      exists_first (fun j => (connect j).tryAgain = false) hno
    refine ⟨k, ⟨fun j hj => ⟨⟨by simpa using hbefore j hj, hpos j⟩, ?_⟩, fun h => ?_⟩,
      fun h => absurd h.2 (Int.not_le.mpr (hpos k))⟩
    · exact Int.le_trans (le_budget (Int.not_lt.mp hs) (by omega)) hn
    · have hagain := h.1
      rw [hk] at hagain
      cases hagain
  · intro h
    obtain ⟨k, hstops, -⟩ := h
    refine ⟨k, ?_, by simpa [GoesOn, hpos k] using hstops.here⟩
    cases k with
    | zero => rwa [budget_zero]
    | succ k => exact (hstops.before k (Nat.lt_succ_self k)).2

include h0 hmax in
/-- The calls that return the truth are the ones with a last attempt that does
not succeed too late. -/
theorem decided_iff :
    Decided total share connect ↔
      ∃ k, Stops connect total share k ∧ ¬ (connect k = .success ∧ budget total share k ≤ 0) := by
  rw [Decided]
  split
  · next hs => exact decided_of_pos hmax hs
  · next hs =>
      split
      · next htotal => exact decided_of_none htotal
      · next htotal => exact decided_of_nonpos h0 hmax hs htotal

end

end Decided

theorem truthful_iff_stops (sockname : CStr) (msec : BitVec 32) (abstime : TimeSpec)
    (connect : Nat → Connect) :
    Truthful (some sockname) msec abstime true connect ↔
      ∃ k, Stops connect abstime.nsec (interRequestsTime msec).nsec k ∧
        ¬ (connect k = .success ∧ budget abstime.nsec (interRequestsTime msec).nsec k ≤ 0) := by
  have hopen : ∀ rounds, openConnection (some sockname) msec abstime true connect rounds =
      openConnectionLoop connect (interRequestsTime msec) rounds 0
        (budget abstime.nsec (interRequestsTime msec).nsec 0) := fun rounds => by
    rw [budget_zero]
    rfl
  constructor
  · intro h
    obtain ⟨rounds, r, n, hret, htrue⟩ := h
    rw [hopen] at hret
    obtain ⟨k, hstops, rfl, rfl⟩ :=
      stops_of_returned (fun j hj => absurd hj (Nat.not_lt_zero j)) hret
    exact ⟨k, hstops, answer_eq_zero_iff.mp (by simpa using htrue)⟩
  · intro h
    obtain ⟨k, hstops, hlate⟩ := h
    rw [← Nat.zero_add k] at hstops
    refine ⟨k + 1, _, _, (hopen _).trans (openConnectionLoop_of_stops hstops), ?_⟩
    rw [Nat.zero_add]
    simpa using answer_eq_zero_iff.mpr hlate

/-- `openConnection` returns, and returns the truth, exactly when its budget is
used up at an attempt that does not succeed or an attempt decides the call
before. -/
theorem openConnection_iff (sockname : CStr) (msec : BitVec 32) (abstime : TimeSpec)
    (connect : Nat → Connect) (hsec : 0 ≤ abstime.tvSec) (hnsec : 0 ≤ abstime.tvNsec)
    (htotal : abstime.nsec ≤ longMax) :
    Truthful (some sockname) msec abstime true connect ↔
      Decided abstime.nsec (interRequestsTime msec).nsec connect := by
  have h0 : 0 ≤ abstime.nsec := by
    rw [TimeSpec.nsec]
    omega
  rw [truthful_iff_stops, decided_iff h0 htotal]

/-- When the share is not positive: the waits of 0 and of a negative second or
more. -/
theorem interRequestsTime_nsec_pos_iff (msec : BitVec 32) :
    0 < (interRequestsTime msec).nsec ↔ -1000 < msec.toInt ∧ msec.toInt ≠ 0 := by
  rw [interRequestsTime, TimeSpec.nsec]
  dsimp only
  generalize msec.toInt = m
  rcases Int.lt_or_le m 0 with hneg | hpos
  · obtain ⟨n, rfl⟩ : ∃ n : Nat, m = -n := ⟨m.natAbs, by omega⟩
    rw [Int.neg_tmod, Int.neg_tdiv, Int.tmod_eq_emod_of_nonneg (by omega),
      Int.tdiv_eq_ediv_of_nonneg (by omega)]
    split
    · omega
    · omega
  · rw [Int.tmod_eq_emod_of_nonneg hpos, Int.tdiv_eq_ediv_of_nonneg hpos]
    split
    · omega
    · omega

theorem openConnection_iff_refused :
    (0 : Int) ≤ 500000000 ∧
      Truthful (some ⟨[97], by decide⟩) 200 ⟨0, 500000000⟩ true (fun _ => .enoent) :=
  ⟨by decide, (openConnection_iff ⟨[97], by decide⟩ 200 ⟨0, 500000000⟩ (fun _ => .enoent)
    (by decide) (by decide) (by decide)).mpr (by
      rw [Decided, if_pos ((interRequestsTime_nsec_pos_iff 200).mpr (by decide))]
      exact .inr (by decide))⟩

/-- Without a wait the call never gives up. With a budget of a second and waits
of half a second, it does not report that the third attempt succeeded. -/
theorem openConnection_untrue :
    ¬ Truthful (some ⟨[97], by decide⟩) 0 ⟨0, 500000000⟩ true (fun _ => .enoent) ∧
    ¬ Truthful (some ⟨[97], by decide⟩) 500 ⟨1, 0⟩ true
      (fun n => if n < 2 then .enoent else .success) := by
  constructor
  · rw [truthful_iff_stops]
    intro h
    obtain ⟨k, hstops, -⟩ := h
    refine hstops.here ⟨rfl, ?_⟩
    show (0 : Int) < 500000000 - k * 0
    omega
  · rw [truthful_iff_stops]
    intro h
    obtain ⟨k, hstops, hlate⟩ := h
    rcases Nat.lt_trichotomy k 2 with hlt | rfl | hgt
    · refine hstops.here ⟨by simp [hlt, Connect.tryAgain], ?_⟩
      show (0 : Int) < 1000000000 - k * 500000000
      omega
    · exact hlate ⟨rfl, by decide⟩
    · exact absurd (hstops.before 2 hgt).1.1 (by decide)

end LsoStore
