import LsoStore.SysUtils

/-!
# What `su_read` leaves in the buffer

The loop consumes the right bytes and counts them rightly, and it returns whatever
the stream does. It writes each piece behind where the piece before it was written
to begin with, as if that had been the first: the third piece lands on the second,
and from then on the end of the buffer is out of reach.
-/

namespace LsoStore

/-- The bytes before the stream ends or fails. -/
def pending : List Ready → List UInt8
  | .bytes first rest :: next => first :: rest ++ pending next
  | _ => []

/-- What a `read` with room for a byte comes to. -/
theorem sysRead_spec {n : Nat} (hn : 0 < n) (stream : List Ready) :
    (∃ r next, sysRead n stream = (r, next) ∧ (r = none ∨ r = some []) ∧ pending stream = []) ∨
      ∃ got next, sysRead n stream = (some got, next) ∧ got ≠ [] ∧ got.length ≤ n ∧
        pending stream = got ++ pending next := by
  cases stream with
  | nil => exact .inl ⟨_, _, rfl, .inr rfl, rfl⟩
  | cons ready next =>
      cases ready with
      | eof => exact .inl ⟨_, _, rfl, .inr rfl, rfl⟩
      | failed => exact .inl ⟨_, _, rfl, .inl rfl, rfl⟩
      | bytes first rest =>
          have hpos : 0 < min n ssizeMax := by
            have : 0 < ssizeMax := by decide
            omega
          refine .inr ?_
          rw [sysRead]
          split
          · next hall =>
              have hle := List.drop_eq_nil_iff.mp hall
              exact ⟨_, _, rfl, List.cons_ne_nil _ _, by omega, rfl⟩
          · next b bs hrest =>
              refine ⟨_, _, rfl, ?_, ?_, ?_⟩
              · rw [ne_eq, List.take_eq_nil_iff]
                simp [Nat.ne_of_gt hpos]
              · rw [List.length_take]
                omega
              · rw [pending, pending, ← hrest, ← List.append_assoc, List.take_append_drop]

/-- A `read` of nothing gets nothing. -/
theorem sysRead_zero (stream : List Ready) : ((sysRead 0 stream).1.getD []).length = 0 := by
  cases stream with
  | nil => rfl
  | cons ready next =>
      cases ready with
      | eof => rfl
      | failed => rfl
      | bytes first rest => rfl

/-- One round of the loop, with room in the buffer. -/
theorem suReadLoop_round (rounds : Nat) {n m : Nat} (hm : 0 < m) {buff : List UInt8}
    (hroom : n + m ≤ buff.length) (stream : List Ready) :
    (∃ next, suReadLoop (rounds + 1) stream buff n m = .ret (-1, buff, next) ∧
        pending stream = []) ∨
      ∃ got next buff', sysRead m stream = (some got, next) ∧ got ≠ [] ∧ got.length ≤ m ∧
        pending stream = got ++ pending next ∧ Region.store buff n got = some buff' ∧
        suReadLoop (rounds + 1) stream buff n m =
          if m - got.length = 0 then .ret (0, buff', next)
          else suReadLoop rounds next buff' got.length (m - got.length) := by
  rcases sysRead_spec hm stream with ⟨r, next, hread, hr, hnone⟩ | ⟨got, next, hread, hne, hle, hp⟩
  · refine .inl ⟨next, ?_, hnone⟩
    rw [suReadLoop, hread]
    rcases hr with rfl | rfl
    · rfl
    · dsimp only
      rw [Region.store_nil (by omega)]
      rfl
  · have hstore := @Region.store_of_le _ buff got n (by omega)
    refine .inr ⟨got, next, _, hread, hne, hle, hp, hstore, ?_⟩
    have hpos : ¬ got.length = 0 := fun h => hne (List.eq_nil_of_length_eq_zero h)
    rw [suReadLoop, hread]
    dsimp only
    rw [hstore]
    dsimp only
    rw [if_neg hpos]

/-- The loop returns, with what it read or with -1 for a stream that ends or fails
too early. It does not write behind the `m` bytes after its first position. -/
theorem suReadLoop_returns {rounds n m : Nat} (hm : 0 < m) (hrounds : m ≤ rounds)
    {buff : List UInt8} (hroom : n + m ≤ buff.length) (stream : List Ready) :
    ∃ r buff' next, suReadLoop rounds stream buff n m = .ret (r, buff', next) ∧
      buff'.length = buff.length ∧ buff'.drop (n + m) = buff.drop (n + m) ∧
      ((r = 0 ∧ m ≤ (pending stream).length ∧ pending next = (pending stream).drop m) ∨
        (r = -1 ∧ (pending stream).length < m)) := by
  induction rounds generalizing stream buff n m with
  | zero => omega
  | succ rounds ih =>
      rcases suReadLoop_round rounds hm hroom stream with
        ⟨next, hret, hnone⟩ | ⟨got, next, buff₁, -, hne, hle, hp, hstore, hret⟩
      · refine ⟨-1, buff, next, hret, rfl, rfl, .inr ⟨rfl, ?_⟩⟩
        rw [hnone, List.length_nil]
        exact hm
      · have hpos := List.length_pos_iff.mpr hne
        have hlen := Region.store_length hstore
        have hbehind := Region.store_drop hstore (k := n + m) (by omega)
        rw [hret, hp]
        split
        · next hall =>
            have heq : got.length = m := by omega
            refine ⟨0, buff₁, next, rfl, hlen, hbehind, .inl ⟨rfl, ?_, ?_⟩⟩
            · rw [List.length_append]
              omega
            · rw [← heq, List.drop_left]
        · next hmore =>
            obtain ⟨r, buff', next', hloop, hlen', hbehind', hcase⟩ :=
              @ih got.length (m - got.length) (by omega) (by omega) buff₁ (by omega) next
            refine ⟨r, buff', next', hloop, hlen'.trans hlen, ?_, ?_⟩
            · have hcut := congrArg (List.drop n) hbehind'
              rw [List.drop_drop, List.drop_drop] at hcut
              have hend : got.length + (m - got.length) + n = n + m := by omega
              rw [hend] at hcut
              exact hcut.trans hbehind
            · rw [List.length_append]
              rcases hcase with ⟨hr, hle', hdrop⟩ | ⟨hr, hlt⟩
              · refine .inl ⟨hr, by omega, ?_⟩
                rw [hdrop, List.drop_append, List.drop_eq_nil_of_le hle, List.nil_append]
              · exact .inr ⟨hr, by omega⟩

/-- It returns 0 with the next `size` bytes in the buffer and taken off the stream,
or -1 where the stream has fewer. -/
def FillsBuffer (stream : List Ready) (buff : List UInt8) (size : Nat) : Prop :=
  ∃ r buff' next, suRead stream buff size = .ret (r, buff', next) ∧
    ((r = 0 ∧ size ≤ (pending stream).length ∧ buff'.take size = (pending stream).take size ∧
        pending next = (pending stream).drop size) ∨
      (r = -1 ∧ (pending stream).length < size))

/-- How many bytes the first two reads get. -/
def readTwice (stream : List Ready) (size : Nat) : Nat :=
  let (first, next) := sysRead size stream
  let n := (first.getD []).length
  n + ((sysRead (size - n) next).1.getD []).length

theorem readTwice_eq {size : Nat} {got : List UInt8} {stream next : List Ready}
    (h : sysRead size stream = (some got, next)) :
    readTwice stream size =
      got.length + ((sysRead (size - got.length) next).1.getD []).length := by
  rw [readTwice, h]
  rfl

theorem suRead_of_short {stream : List Ready} {buff : List UInt8} {size : Nat} (hsize : 0 < size)
    (hroom : size ≤ buff.length) (hshort : (pending stream).length < size) :
    FillsBuffer stream buff size := by
  obtain ⟨r, buff', next, hret, -, -, hcase⟩ :=
    @suReadLoop_returns _ 0 _ hsize (Nat.le_succ size) buff (by omega) stream
  refine ⟨r, buff', next, hret, .inr ?_⟩
  rcases hcase with ⟨-, hle, -⟩ | hfail
  · omega
  · exact hfail

section Enough

variable {stream : List Ready} {buff : List UInt8} {size : Nat}

/-- The first two rounds, on a stream with bytes enough. The second is there where the
first does not get all of them. -/
theorem suRead_rounds (hsize : 0 < size) (hroom : size ≤ buff.length)
    (henough : size ≤ (pending stream).length) :
    ∃ got next, sysRead size stream = (some got, next) ∧ got ≠ [] ∧
      pending stream = got ++ pending next ∧
      ((got.length = size ∧
          suRead stream buff size = .ret (0, got ++ buff.drop size, next)) ∨
        ∃ got' next' buff', got.length < size ∧
          sysRead (size - got.length) next = (some got', next') ∧
          got'.length ≤ size - got.length ∧ pending next = got' ++ pending next' ∧
          Region.store (got ++ buff.drop got.length) got.length got' = some buff' ∧
          suRead stream buff size =
            if size - got.length - got'.length = 0 then .ret (0, buff', next')
            else suReadLoop (size - 1) next' buff' got'.length
              (size - got.length - got'.length)) := by
  obtain ⟨rounds, rfl⟩ : ∃ rounds, size = rounds + 1 := ⟨size - 1, by omega⟩
  rcases @suReadLoop_round (rounds + 1) 0 _ hsize buff (by omega) stream
    with ⟨next, -, hnone⟩ | ⟨got, next, buff₁, hread, hne, hle, hp, hstore, hret⟩
  · rw [hnone, List.length_nil] at henough
    omega
  · have hfirst := @Region.store_of_le _ buff got 0 (by omega)
    rw [hstore, List.take_zero, List.nil_append, Nat.zero_add] at hfirst
    cases hfirst
    refine ⟨got, next, hread, hne, hp, ?_⟩
    by_cases hall : got.length = rounds + 1
    · refine .inl ⟨hall, ?_⟩
      rw [suRead, hret, if_pos (by omega), hall]
    · have hlen := Region.store_length hstore
      have hsplit := congrArg List.length hp
      rw [List.length_append] at hsplit
      rcases @suReadLoop_round rounds got.length (rounds + 1 - got.length) (by omega)
        (got ++ buff.drop got.length) (by omega) next
        with ⟨next', -, hnone⟩ | ⟨got', next', buff₂, hread', -, hle', hp', hstore', hret'⟩
      · rw [hnone, List.length_nil] at hsplit
        omega
      · refine .inr ⟨got', next', buff₂, by omega, hread', hle', hp', hstore', ?_⟩
        rw [suRead, hret, if_neg (by omega), hret']
        rfl

/-- Two reads that get everything fill the buffer. -/
theorem suRead_of_twice (hsize : 0 < size) (hroom : size ≤ buff.length)
    (henough : size ≤ (pending stream).length) (htwice : readTwice stream size = size) :
    FillsBuffer stream buff size := by
  obtain ⟨got, next, hread, hne, hp, hone | htwo⟩ := suRead_rounds hsize hroom henough
  · obtain ⟨hlen, hret⟩ := hone
    refine ⟨0, _, next, hret, .inl ⟨rfl, henough, ?_, ?_⟩⟩
    · rw [hp, List.take_left' hlen, List.take_left' hlen]
    · rw [hp, List.drop_left' hlen]
  · obtain ⟨got', next', buff', hlt, hread', hle', hp', hstore', hret⟩ := htwo
    rw [readTwice_eq hread, hread', Option.getD_some] at htwice
    rw [if_pos (by omega)] at hret
    have hboth : (got ++ got').length = size := by rw [List.length_append, htwice]
    have hfits : got.length + got'.length ≤ (got ++ buff.drop got.length).length := by
      rw [List.length_append, List.length_drop]
      omega
    rw [Region.store_of_le hfits, List.take_left] at hstore'
    cases hstore'
    rw [hp', ← List.append_assoc] at hp
    refine ⟨0, _, next', hret, .inl ⟨rfl, henough, ?_, ?_⟩⟩
    · rw [hp, List.take_left' hboth, List.take_left' hboth]
    · rw [hp, List.drop_left' hboth]

/-- With a third read to come, the last byte stays what it was. -/
theorem suRead_last_byte (hsize : 0 < size) (hroom : size ≤ buff.length)
    (henough : size ≤ (pending stream).length) (htwice : readTwice stream size ≠ size) :
    ∃ r buff' next, suRead stream buff size = .ret (r, buff', next) ∧
      buff'.drop (size - 1) = buff.drop (size - 1) := by
  obtain ⟨got, next, hread, hne, hp, hone | htwo⟩ := suRead_rounds hsize hroom henough
  · obtain ⟨hlen, -⟩ := hone
    rw [readTwice_eq hread, hlen, Nat.sub_self] at htwice
    exact absurd (sysRead_zero next) (by omega)
  · obtain ⟨got', next', buff', hlt, hread', hle', hp', hstore', hret⟩ := htwo
    rw [readTwice_eq hread, hread', Option.getD_some] at htwice
    have hpos := List.length_pos_iff.mpr hne
    have hlen := Region.store_length hstore'
    rw [List.length_append, List.length_drop] at hlen
    have hbehind := Region.store_drop hstore' (k := size - 1) (by omega)
    rw [if_neg (by omega)] at hret
    obtain ⟨r, buff'', next'', hloop, -, hkept, -⟩ :=
      @suReadLoop_returns (size - 1) got'.length (size - got.length - got'.length) (by omega)
        (by omega) buff' (by omega) next'
    refine ⟨r, buff'', next'', hret.trans hloop, ?_⟩
    have hcut := congrArg (List.drop (got.length - 1)) hkept
    have hend : got'.length + (size - got.length - got'.length) + (got.length - 1) = size - 1 := by
      omega
    rw [List.drop_drop, List.drop_drop, hend] at hcut
    rw [hcut, hbehind, List.drop_append, List.drop_eq_nil_of_le (by omega), List.nil_append,
      List.drop_drop]
    congr 1
    omega

end Enough

/-- `su_read` fills a buffer, whatever was in it, just where the stream ends or fails
too early or no third `read` is needed. -/
theorem su_read_iff {size : Nat} (hsize : 0 < size) (stream : List Ready) :
    (∀ buff : List UInt8, size ≤ buff.length → FillsBuffer stream buff size) ↔
      (pending stream).length < size ∨ readTwice stream size = size := by
  constructor
  · intro h
    rcases Nat.lt_or_ge (pending stream).length size with hshort | henough
    · exact .inl hshort
    · refine .inr (Classical.byContradiction fun htwice => ?_)
      -- a buffer whose last byte is not the one that belongs there
      obtain ⟨b, hb⟩ : ∃ b, (pending stream)[size - 1]? = some b :=
        ⟨_, List.getElem?_eq_getElem (by omega)⟩
      have hroom : size ≤ (List.replicate size (b + 1)).length := by
        rw [List.length_replicate]
      obtain ⟨r, buff', next, hret, hlast⟩ := suRead_last_byte hsize hroom henough htwice
      obtain ⟨r₁, buff₁, next₁, hret₁, hcase⟩ := h _ hroom
      rw [hret] at hret₁
      cases hret₁
      rcases hcase with ⟨-, -, hfilled, -⟩ | ⟨-, hshort⟩
      · have hbyte := congrArg (·[size - 1]?) hfilled
        have hkept := congrArg (·[0]?) hlast
        simp only [List.getElem?_drop, Nat.add_zero] at hkept
        rw [List.getElem?_replicate, if_pos (by omega)] at hkept
        simp only [List.getElem?_take, if_pos (Nat.sub_lt hsize Nat.one_pos)] at hbyte
        rw [hkept, hb, Option.some_inj] at hbyte
        exact absurd hbyte (by simp)
      · omega
  · intro h buff hroom
    rcases h with hshort | htwice
    · exact suRead_of_short hsize hroom hshort
    · rcases Nat.lt_or_ge (pending stream).length size with hshort | henough
      · exact suRead_of_short hsize hroom hshort
      · exact suRead_of_twice hsize hroom henough htwice

theorem su_read_two_pieces :
    0 < 3 ∧ ∀ buff : List UInt8, 3 ≤ buff.length →
      FillsBuffer [.bytes 1 [], .bytes 2 [3, 4]] buff 3 :=
  ⟨by decide, (su_read_iff (by decide) _).mpr (.inr (by decide))⟩

/-- Three pieces of one byte: the third is written over the second. -/
theorem third_piece_misplaced :
    suRead [.bytes 1 [], .bytes 2 [], .bytes 3 []] [0, 0, 0] 3 = .ret (0, [1, 3, 0], []) ∧
      ¬ FillsBuffer [.bytes 1 [], .bytes 2 [], .bytes 3 []] [0, 0, 0] 3 := by
  have hret : suRead [.bytes 1 [], .bytes 2 [], .bytes 3 []] [0, 0, 0] 3 =
      .ret (0, [1, 3, 0], []) := by decide
  refine ⟨hret, fun ⟨r, buff', next, hret', hcase⟩ => ?_⟩
  rw [hret] at hret'
  cases hret'
  rcases hcase with ⟨-, -, hfilled, -⟩ | ⟨hr, -⟩
  · exact absurd hfilled (by decide)
  · exact absurd hr (by decide)

end LsoStore
