import LsoStore.Lib.Runs
import LsoStore.Lib.SwapRemove
import LsoStore.PollUtils
import LsoStore.RawPollArray
import Mathlib.Data.Multiset.Basic

/-!
# The poll array as a multiset

The block is the entries and, behind them, zeroed ones. Every call leaves it so.
The scan of `pu_remove` ends at index 0 whether or not the entry there is the one
it looks for; with no entries at all that is a zeroed one, which no descriptor but
0 is taken for.

All this needs the block to have `maxlen` entries. Its size is a product of
`size_t`s, and where that wraps and the allocator still gives the block, the
array believes in more entries than there are.
-/

namespace LsoStore

open PollArr (findBack findBack_none)

namespace RawPollArr

variable {a a' : RawPollArr} {l : List PollEntry} {fd : Int} {i n : Nat}

/-! ## The block -/

/-- The descriptors with their events. -/
def entries (a : RawPollArr) : List PollEntry := a.arr.take a.len

/-- The entries of the array are those of `l`, and there is room up to `maxlen`. -/
structure Laid (a : RawPollArr) (l : List PollEntry) : Prop where
  len : a.len = l.length
  fits : l.length ≤ a.maxlen
  arr : a.arr = l ++ List.replicate (a.maxlen - l.length) PollEntry.zero

namespace Laid

theorem entries_eq (h : Laid a l) : a.entries = l := by
  rw [entries, h.arr, h.len, List.take_left]

theorem block (h : Laid a l) : a.arr.length = a.maxlen := by
  have hfits := h.fits
  rw [h.arr, List.length_append, List.length_replicate]
  omega

theorem zeroed (h : Laid a l) : a.arr.drop a.len = List.replicate (a.maxlen - a.len) .zero := by
  rw [h.arr, h.len, List.drop_left]

theorem puAdd (h : Laid a l) (hlt : l.length < a.maxlen) (fd : Int) (events : BitVec 16) :
    ∃ a', a.puAdd fd events = .ret (0, a') ∧ Laid a' (l ++ [⟨fd, events, 0⟩]) ∧
      a'.maxlen = a.maxlen ∧ a'.empty = a.empty := by
  have hroom : a.maxlen - l.length = (a.maxlen - (l.length + 1)) + 1 := by omega
  have hfull : ¬ a.puIsfull = true := by
    rw [puIsfull, h.len]
    simpa using Nat.ne_of_lt hlt
  refine ⟨{ a with arr := a.arr.set a.len ⟨fd, events, 0⟩, len := a.len + 1 },
    ?_, ⟨?_, ?_, ?_⟩, rfl, rfl⟩
  · rw [RawPollArr.puAdd, if_neg hfull, if_pos (by rw [h.len, h.block]; exact hlt)]
  · rw [List.length_append, h.len]
    rfl
  · rw [List.length_append]
    exact hlt
  · dsimp only
    rw [h.arr, h.len, List.set_append_right _ _ (Nat.le_refl _), Nat.sub_self, hroom,
      List.replicate_succ, List.set_cons_zero, List.length_append, List.length_singleton,
      List.append_assoc, List.singleton_append]

theorem puAdd_full (h : Laid a l) (hfull : l.length = a.maxlen) (fd : Int)
    (events : BitVec 16) : a.puAdd fd events = .ret (-1, a) := by
  rw [RawPollArr.puAdd, if_pos]
  rw [puIsfull, h.len]
  simpa using hfull

end Laid

/-! ## The scan -/

end RawPollArr

/-- An entry as the dispatcher sees it. -/
def PollEntry.toPollFd (e : PollEntry) : PollFd :=
  ⟨e.fd, e.revents &&& 0x10 ≠ 0, e.revents &&& 0x01 ≠ 0⟩

@[simp] theorem PollEntry.toPollFd_new (fd : Int) (events : BitVec 16) :
    (⟨fd, events, 0⟩ : PollEntry).toPollFd = ⟨fd, false, false⟩ := by
  simp [toPollFd]

namespace RawPollArr

variable {a a' : RawPollArr} {arr l : List PollEntry} {fd : Int} {i n : Nat}

/-- The loop stops at the entry it looks for, or at index 0. -/
theorem scanBack_eq (h : n < arr.length) :
    ∃ i e, scanBack arr fd n = .ret i ∧ i ≤ n ∧ arr[i]? = some e ∧
      ((e.fd = fd ∧ findBack (arr.map PollEntry.toPollFd) fd n = some i) ∨
        (e.fd ≠ fd ∧ i = 0 ∧ findBack (arr.map PollEntry.toPollFd) fd n = none)) := by
  induction n with
  | zero =>
      have hget := List.getElem?_eq_getElem h
      refine ⟨0, arr[0], rfl, Nat.le_refl 0, hget, ?_⟩
      have hfd : (arr.map PollEntry.toPollFd)[0]?.map PollFd.fd = some arr[0].fd := by
        rw [List.getElem?_map, hget]
        rfl
      rw [findBack, hfd]
      simp only [Option.some.injEq]
      by_cases heq : arr[0].fd = fd
      · exact .inl ⟨heq, if_pos heq⟩
      · exact .inr ⟨heq, trivial, if_neg heq⟩
  | succ n ih =>
      have hget := List.getElem?_eq_getElem h
      have hfd : (arr.map PollEntry.toPollFd)[n + 1]?.map PollFd.fd = some arr[n + 1].fd := by
        rw [List.getElem?_map, hget]
        rfl
      rw [findBack, hfd, scanBack, hget]
      simp only [Option.some.injEq]
      by_cases heq : arr[n + 1].fd = fd
      · rw [if_neg (not_not.mpr heq), if_pos heq]
        exact ⟨n + 1, _, rfl, Nat.le_refl _, hget, .inl ⟨heq, rfl⟩⟩
      · rw [if_pos heq, if_neg heq]
        obtain ⟨i, e, hscan, hi, hrest⟩ := ih (by omega)
        exact ⟨i, e, hscan, by omega, hrest⟩

theorem forall_ne_of_findBack (h : findBack (l.map PollEntry.toPollFd) fd (l.length - 1) = none) :
    ∀ e ∈ l, e.fd ≠ fd := by
  intro e he heq
  obtain ⟨j, hj, hget⟩ := List.getElem_of_mem he
  refine findBack_none h j (by omega) ?_
  rw [List.getElem?_map, List.getElem?_eq_getElem hj, hget, Option.map_some, Option.map_some]
  exact congrArg some heq

/-- The scan of the block ends within the entries. -/
theorem Laid.scanBack_eq (h : Laid a l) (hne : l ≠ []) (fd : Int) :
    ∃ i e, scanBack a.arr fd (a.len - 1) = .ret i ∧ a.arr[i]? = some e ∧ l[i]? = some e ∧
      ((e.fd = fd ∧ findBack (l.map PollEntry.toPollFd) fd (l.length - 1) = some i) ∨
        (e.fd ≠ fd ∧ i = 0 ∧ ∀ e ∈ l, e.fd ≠ fd)) := by
  have hpos := List.length_pos_iff.mpr hne
  have hfront : ∀ n < l.length, scanBack a.arr fd n = scanBack l fd n := by
    intro n
    induction n with
    | zero => exact fun _ => rfl
    | succ n ih =>
        intro hn
        rw [scanBack, scanBack, ih (by omega), h.arr, List.getElem?_append_left hn]
  obtain ⟨i, e, hscan, hi, hget, hcase⟩ :=
    @RawPollArr.scanBack_eq l fd (l.length - 1) (by omega)
  have hlt := (List.getElem?_eq_some_iff.mp hget).1
  refine ⟨i, e, ?_, ?_, hget, ?_⟩
  · rw [h.len, hfront _ (by omega), hscan]
  · rw [h.arr, List.getElem?_append_left hlt, hget]
  · rcases hcase with ⟨heq, hfind⟩ | ⟨hne, hzero, hfind⟩
    · exact .inl ⟨heq, hfind⟩
    · exact .inr ⟨hne, hzero, forall_ne_of_findBack hfind⟩

namespace Laid

/-- What is found is replaced by the last entry. -/
theorem removeAt (h : Laid a l) (hsize : a.maxlen < SizeT.bound) {last : PollEntry}
    (hlast : l.getLast? = some last) (hi : i < l.length) :
    ∃ a', a.removeAt i = .ret (0, a') ∧ Laid a' (l.set i last).dropLast ∧
      a'.maxlen = a.maxlen ∧ a'.empty = a.empty := by
  have hfits := h.fits
  have hend : SizeT.sub a.len 1 = l.length - 1 := by
    rw [h.len]
    exact SizeT.sub_of_le (by omega) (hfits.trans_lt hsize)
  have hmoved : a.arr[l.length - 1]? = some last := by
    rw [h.arr, List.getElem?_append_left (by omega), ← List.getLast?_eq_getElem?, hlast]
  -- the last entry is put in the place of itself when it is the one that goes
  have hset : (if i ≠ l.length - 1 then a.arr.set i last else a.arr) = a.arr.set i last := by
    split
    · rfl
    · next heq =>
        rw [not_not] at heq
        have hsame : a.arr[i]? = some last := heq ▸ hmoved
        obtain ⟨hlt, hval⟩ := List.getElem?_eq_some_iff.mp hsame
        rw [← hval, List.set_getElem_self]
  have hend' : l.length - 1 + 1 = (l.set i last).length := by
    rw [List.length_set]
    omega
  have hclear : (a.arr.set i last).set (l.length - 1) PollEntry.zero =
      (l.set i last).dropLast ++
        PollEntry.zero :: List.replicate (a.maxlen - l.length) PollEntry.zero := by
    rw [h.arr, List.set_append_left _ _ hi, List.set_append_left _ _ (by omega),
      List.set_eq_dropLast_append hend', List.append_assoc, List.singleton_append]
  refine ⟨{ a with
      arr := (a.arr.set i last).set (l.length - 1) PollEntry.zero, len := a.len - 1 },
    ?_, ⟨?_, ?_, ?_⟩, rfl, rfl⟩
  · rw [RawPollArr.removeAt, hend, hmoved]
    dsimp only
    rw [hset]
  · rw [List.length_dropLast, List.length_set, ← h.len]
  · rw [List.length_dropLast, List.length_set]
    exact (Nat.sub_le _ _).trans hfits
  · have hroom : a.maxlen - (l.length - 1) = (a.maxlen - l.length) + 1 := by omega
    dsimp only
    rw [hclear, List.length_dropLast, List.length_set, hroom, List.replicate_succ]

theorem puRemove_of_scan (h : Laid a l) (hne : l ≠ []) {e : PollEntry}
    (hscan : scanBack a.arr fd (a.len - 1) = .ret i) (hget : a.arr[i]? = some e) :
    a.puRemove fd = if i = 0 ∧ e.fd ≠ fd then .ret (-1, a) else a.removeAt i := by
  have hpos : 0 < a.len := h.len ▸ List.length_pos_iff.mpr hne
  have hbusy : ¬ a.puIsempty = true := by
    simp [puIsempty, Nat.ne_of_gt hpos]
  rw [RawPollArr.puRemove, if_neg hbusy, if_pos hpos, hscan, Course.ret_bind, hget]

/-- Without entries a descriptor is compared with a zeroed one. -/
theorem puRemove_nil (h : Laid a []) (hroom : 0 < a.maxlen) (hfd : fd ≠ 0) :
    a.puRemove fd = .ret (-1, a) := by
  have hlen : a.len = 0 := h.len
  have hget : a.arr[0]? = some PollEntry.zero := by
    rw [h.arr, List.nil_append, List.getElem?_replicate, List.length_nil, Nat.sub_zero,
      if_pos hroom]
  rw [RawPollArr.puRemove]
  split
  · rfl
  · rw [hlen, if_neg (Nat.lt_irrefl 0), scanBack, Course.ret_bind, hget]
    exact if_pos ⟨rfl, hfd.symm⟩

end Laid

/-! ## Any sequence of calls -/

/-- A call on the array, or an assignment to its `empty` flag. -/
inductive PollCall where
  | puAdd (newfd : Int) (events : BitVec 16)
  | puRemove (oldfd : { fd : Int // fd ≠ 0 })
  | setEmpty (value : BitVec 8)

/-- The result and the array; an assignment has no result. -/
def call (a : RawPollArr) : PollCall → Course (Int × RawPollArr)
  | .puAdd newfd events => a.puAdd newfd events
  | .puRemove oldfd => a.puRemove oldfd
  | .setEmpty value => .ret (0, { a with empty := value })

/-- What a call is for. -/
def Does (a : RawPollArr) (r : Int) (a' : RawPollArr) : PollCall → Prop
  | .puAdd newfd events =>
      if a.entries.length = a.maxlen then r = -1 ∧ a' = a
      else r = 0 ∧ a'.entries = a.entries ++ [⟨newfd, events, 0⟩]
  | .puRemove oldfd =>
      (∃ e : PollEntry, e.fd = oldfd ∧ r = 0 ∧
        (a.entries : Multiset PollEntry) = e ::ₘ a'.entries) ∨
        (∀ e ∈ a.entries, e.fd ≠ oldfd) ∧ r = -1 ∧ a' = a
  | .setEmpty value => a' = { a with empty := value }

/-- The array after some calls: `len` entries, zeroes behind them, and a next call
that returns and does what it is for. -/
structure Sound (maxlen : Nat) (a : RawPollArr) : Prop where
  maxlen_eq : a.maxlen = maxlen
  len : a.len = a.entries.length
  fits : a.len ≤ maxlen
  zeroed : a.arr.drop a.len = List.replicate (maxlen - a.len) PollEntry.zero
  next : ∀ c : PollCall, ∃ r a', a.call c = .ret (r, a') ∧ a.Does r a' c

theorem Laid.sound (h : Laid a a.entries) (hroom : 0 < a.maxlen)
    (hsize : a.maxlen < SizeT.bound) (c : PollCall) :
    ∃ r a', a.call c = .ret (r, a') ∧ a.Does r a' c ∧ Laid a' a'.entries ∧
      a'.maxlen = a.maxlen := by
  cases c with
  | puAdd newfd events =>
      by_cases hfull : a.entries.length = a.maxlen
      · refine ⟨-1, a, h.puAdd_full hfull newfd events, ?_, h, rfl⟩
        rw [Does, if_pos hfull]
        exact ⟨rfl, rfl⟩
      · obtain ⟨a', hadd, hlaid, hmax, -⟩ :=
          h.puAdd (lt_of_le_of_ne h.fits hfull) newfd events
        refine ⟨0, a', hadd, ?_, hlaid.entries_eq.symm ▸ hlaid, hmax⟩
        rw [Does, if_neg hfull]
        exact ⟨rfl, hlaid.entries_eq⟩
  | puRemove oldfd =>
      by_cases hnil : a.entries = []
      · refine ⟨-1, a, (hnil ▸ h).puRemove_nil hroom oldfd.2, .inr ⟨?_, rfl, rfl⟩, h, rfl⟩
        rw [hnil]
        exact fun e he => (List.not_mem_nil he).elim
      · obtain ⟨i, e, hscan, hblock, hget, hcase⟩ := h.scanBack_eq hnil oldfd
        rcases hcase with ⟨hfd, -⟩ | ⟨hne, rfl, hnone⟩
        · have hlast := List.getLast?_eq_some_getLast hnil
          obtain ⟨a', hrem, hlaid, hmax, -⟩ :=
            h.removeAt hsize hlast (List.getElem?_eq_some_iff.mp hget).1
          refine ⟨0, a', ?_, .inl ⟨e, hfd, rfl, ?_⟩, hlaid.entries_eq.symm ▸ hlaid, hmax⟩
          · rw [call, h.puRemove_of_scan hnil hscan hblock, if_neg fun hbad => hbad.2 hfd, hrem]
          · rw [hlaid.entries_eq, Multiset.cons_coe, Multiset.coe_eq_coe]
            exact List.perm_set_dropLast hlast hget
        · refine ⟨-1, a, ?_, .inr ⟨hnone, rfl, rfl⟩, h, rfl⟩
          rw [call, h.puRemove_of_scan hnil hscan hblock, if_pos ⟨rfl, hne⟩]
  | setEmpty value => exact ⟨0, _, rfl, rfl, ⟨h.len, h.fits, h.arr⟩, rfl⟩

/-- A call that returns. -/
def CallStep (a : RawPollArr) (c : PollCall) (a' : RawPollArr) : Prop :=
  ∃ r, a.call c = .ret (r, a')

/-- An array for `maxlen` entries is sound after any calls. -/
def Works (maxlen : Nat) : Prop :=
  ∀ a₀, puInitarr maxlen = some a₀ →
    ∀ past a, Run (· = a₀) CallStep past a → Sound maxlen a

theorem puInitarr_of_pos {maxlen : Nat} (hpos : 1 ≤ maxlen) :
    puInitarr maxlen =
      if muLimit < SizeT.mul maxlen 8 then none
      else some ⟨List.replicate (SizeT.mul maxlen 8 / 8) PollEntry.zero, 0, maxlen, 1⟩ :=
  if_pos hpos

/-- The block has an entry for every slot. -/
theorem laid_puInitarr {maxlen : Nat} {a₀ : RawPollArr} (hpos : 1 ≤ maxlen)
    (hsize : maxlen * 8 < SizeT.bound) (h : puInitarr maxlen = some a₀) :
    Laid a₀ a₀.entries ∧ a₀.maxlen = maxlen := by
  rw [puInitarr_of_pos hpos, SizeT.mul_of_lt hsize, Nat.mul_div_cancel _ (by decide)] at h
  split at h
  · cases h
  · cases h
    exact ⟨⟨rfl, Nat.zero_le _, rfl⟩, rfl⟩

/-- Any calls on such a block leave it sound. -/
theorem Laid.sound_of_run {maxlen : Nat} {a₀ : RawPollArr} (h : Laid a₀ a₀.entries)
    (hmaxlen : a₀.maxlen = maxlen) (hpos : 1 ≤ maxlen) (hsize : maxlen * 8 < SizeT.bound)
    {past : List (PollCall × RawPollArr)} (hrun : Run (· = a₀) CallStep past a) :
    Sound maxlen a := by
  have hmax : maxlen < SizeT.bound := by omega
  have hall := hrun.always (I := fun a => Laid a a.entries ∧ a.maxlen = maxlen)
    (fun a heq => heq ▸ ⟨h, hmaxlen⟩) fun a c a' ⟨hlaid, heq⟩ hstep => by
      obtain ⟨r, hcall⟩ := hstep
      obtain ⟨r', a'', hret, -, hnext, hsame⟩ :=
        hlaid.sound (heq.symm ▸ hpos) (heq.symm ▸ hmax) c
      rw [hcall] at hret
      cases hret
      exact ⟨hnext, hsame.trans heq⟩
  obtain ⟨hlaid, heq⟩ := hall a (mem_visited_self past a)
  refine ⟨heq, hlaid.len, ?_, heq ▸ hlaid.zeroed, fun c => ?_⟩
  · rw [hlaid.len, ← heq]
    exact hlaid.fits
  · obtain ⟨r, a', hret, hdoes, -, -⟩ := hlaid.sound (heq.symm ▸ hpos) (heq.symm ▸ hmax) c
    exact ⟨r, a', hret, hdoes⟩

/-- The array is the multiset of its entries after any calls, for every number of
them whose size in bytes is a `size_t`. -/
theorem poll_array_is_bag {maxlen : Nat} (hpos : 1 ≤ maxlen)
    (hsize : maxlen * 8 < SizeT.bound) : Works maxlen := by
  intro a₀ hinit past a hrun
  obtain ⟨hlaid, hmaxlen⟩ := laid_puInitarr hpos hsize hinit
  exact hlaid.sound_of_run hmaxlen hpos hsize hrun

/-- An array for three descriptors. -/
theorem poll_array_is_bag_three :
    (∃ a₀, puInitarr 3 = some a₀ ∧ a₀.arr.length = 3) ∧ Works 3 :=
  ⟨⟨_, rfl, rfl⟩, poll_array_is_bag (by decide) (by decide)⟩

/-- A block that is too short can be filled. -/
theorem run_puAdd {a₀ : RawPollArr} (hlen : a₀.len = 0) (hshort : a₀.arr.length < a₀.maxlen)
    (hn : n ≤ a₀.arr.length) :
    ∃ past a, Run (· = a₀) CallStep past a ∧ a.len = n ∧ a.arr.length = a₀.arr.length ∧
      a.maxlen = a₀.maxlen := by
  induction n with
  | zero => exact ⟨[], a₀, .init a₀ rfl, hlen, rfl, rfl⟩
  | succ n ih =>
      obtain ⟨past, a, hrun, hlen, harr, hmax⟩ := ih (by omega)
      have hroom : ¬ a.puIsfull = true := by
        simp only [puIsfull, decide_eq_true_eq]
        omega
      have hadd : a.puAdd 1 0 = .ret (0,
          { a with arr := a.arr.set a.len ⟨1, 0, 0⟩, len := a.len + 1 }) := by
        rw [puAdd, if_neg hroom, if_pos (by omega)]
      refine ⟨_, _, hrun.step past a _ (.puAdd 1 0) ⟨0, hadd⟩, ?_, ?_, hmax⟩
      · exact congrArg (· + 1) hlen
      · exact List.length_set.trans harr

/-- The addition behind the end of such a block is a fault. -/
theorem not_works_of_short {maxlen : Nat} {a₀ : RawPollArr} (h : puInitarr maxlen = some a₀)
    (hlen : a₀.len = 0) (hmax : a₀.maxlen = maxlen) (hshort : a₀.arr.length < maxlen) :
    ¬ Works maxlen := by
  intro hworks
  obtain ⟨past, a, hrun, hend, harr, hsame⟩ := run_puAdd hlen (hmax ▸ hshort) (Nat.le_refl _)
  obtain ⟨r, a', hcall, -⟩ := (hworks a₀ h past a hrun).next (.puAdd 1 0)
  have hroom : ¬ a.puIsfull = true := by
    simp only [puIsfull, decide_eq_true_eq]
    omega
  rw [call, puAdd, if_neg hroom, if_neg (by omega)] at hcall
  cases hcall

/-- The array works for every number of entries whose size in bytes is a `size_t`,
and for no other one that `pu_initarr` returns from. -/
theorem poll_array_iff {maxlen : Nat} (hpos : 1 ≤ maxlen) :
    Works maxlen ↔ maxlen * 8 < SizeT.bound ∨ muLimit < SizeT.mul maxlen 8 := by
  constructor
  · intro hworks
    by_contra hnot
    push Not at hnot
    obtain ⟨hwrap, hgiven⟩ := hnot
    have hless : SizeT.mul maxlen 8 < maxlen * 8 :=
      (Nat.mod_lt _ (by decide)).trans_le hwrap
    have hinit := puInitarr_of_pos hpos
    rw [if_neg (Nat.not_lt.mpr hgiven)] at hinit
    refine not_works_of_short hinit rfl rfl ?_ hworks
    dsimp only
    rw [List.length_replicate]
    omega
  · intro h
    rcases h with hsize | hexit
    · intro a₀ hinit past a hrun
      obtain ⟨hlaid, hmaxlen⟩ := laid_puInitarr hpos hsize hinit
      exact hlaid.sound_of_run hmaxlen hpos hsize hrun
    · intro a₀ hinit
      rw [puInitarr_of_pos hpos, if_pos hexit] at hinit
      cases hinit

/-- The size of `2 ^ 61` entries wraps to 0, and the first addition goes through a null
pointer. -/
example : ¬ Works (2 ^ 61) :=
  @not_works_of_short _ ⟨[], 0, 2 ^ 61, 1⟩ (by decide) rfl rfl (by decide)

/-! ## The array of the dispatcher -/

/-- The list of what the dispatcher looks at. -/
def toPollArr (a : RawPollArr) : PollArr :=
  ⟨a.entries.map PollEntry.toPollFd, a.maxlen, a.empty ≠ 0⟩

theorem Laid.toPollArr (h : Laid a l) :
    a.toPollArr = ⟨l.map PollEntry.toPollFd, a.maxlen, a.empty ≠ 0⟩ := by
  rw [RawPollArr.toPollArr, h.entries_eq]

theorem puAdd_toPollArr (h : Laid a l) (fd : Int) (events : BitVec 16) :
    ∃ r a', a.puAdd fd events = .ret (r, a') ∧ a.toPollArr.puAdd fd = (r, a'.toPollArr) := by
  rw [h.toPollArr]
  by_cases hfull : l.length = a.maxlen
  · refine ⟨-1, a, h.puAdd_full hfull fd events, ?_⟩
    rw [PollArr.puAdd, if_pos (by simpa [PollArr.puIsfull] using hfull), h.toPollArr]
  · obtain ⟨a', hadd, hlaid, hmax, hempty⟩ :=
      h.puAdd (lt_of_le_of_ne h.fits hfull) fd events
    refine ⟨0, a', hadd, ?_⟩
    rw [PollArr.puAdd, if_neg (by simpa [PollArr.puIsfull] using hfull), hlaid.toPollArr, hmax,
      hempty, List.map_append, List.map_singleton, PollEntry.toPollFd_new]

/-- A removal is the one on the list. -/
theorem puRemove_toPollArr (h : Laid a l) (hroom : 0 < a.maxlen) (hsize : a.maxlen < SizeT.bound)
    (hfd : fd ≠ 0) :
    ∃ r a', a.puRemove fd = .ret (r, a') ∧ a.toPollArr.puRemove fd = (r, a'.toPollArr) := by
  rw [h.toPollArr]
  by_cases hnil : l = []
  · subst hnil
    refine ⟨-1, a, h.puRemove_nil hroom hfd, ?_⟩
    rw [PollArr.puRemove, h.toPollArr]
    split
    · rfl
    · rfl
  · have hbusy : ¬ PollArr.puIsempty ⟨l.map PollEntry.toPollFd, a.maxlen, a.empty ≠ 0⟩ = true := by
      simp [PollArr.puIsempty, hnil]
    have hlast := List.getLast?_eq_some_getLast hnil
    have hlast' : (l.map PollEntry.toPollFd).getLast? =
        some (l.getLast hnil).toPollFd := by
      rw [List.getLast?_map, hlast, Option.map_some]
    obtain ⟨i, e, hscan, hblock, hget, hcase⟩ := h.scanBack_eq hnil fd
    rw [h.puRemove_of_scan hnil hscan hblock, PollArr.puRemove, if_neg hbusy]
    dsimp only
    rw [List.length_map, hlast']
    rcases hcase with ⟨heq, hfind⟩ | ⟨hne, rfl, hnone⟩
    · obtain ⟨a', hrem, hlaid, hmax, hempty⟩ :=
        h.removeAt hsize hlast (List.getElem?_eq_some_iff.mp hget).1
      refine ⟨0, a', ?_, ?_⟩
      · rw [if_neg fun hbad => hbad.2 heq, hrem]
      · rw [hfind, hlaid.toPollArr, hmax, hempty, List.map_dropLast, List.map_set]
    · refine ⟨-1, a, if_pos ⟨rfl, hne⟩, ?_⟩
      have hfind : findBack (l.map PollEntry.toPollFd) fd (l.length - 1) = none := by
        cases hfind : findBack (l.map PollEntry.toPollFd) fd (l.length - 1) with
        | none => rfl
        | some j =>
            obtain ⟨q, hq, hqfd⟩ := Option.map_eq_some_iff.mp (PollArr.findBack_some hfind)
            rw [List.getElem?_map] at hq
            obtain ⟨e, he, rfl⟩ := Option.map_eq_some_iff.mp hq
            exact absurd hqfd (hnone e (List.mem_of_getElem? he))
      rw [hfind, h.toPollArr]

end RawPollArr

end LsoStore
