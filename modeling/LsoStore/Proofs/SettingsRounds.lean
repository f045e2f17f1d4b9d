import LsoStore.Proofs.SettingsLoop

/-!
# The settings of a line

The reading that the rules of the configuration file describe takes a line at a
time. A round of `init_server_settings` does the same with a line that has a value
to stop at: the separators that `get_setting` skips contain the newline, so behind
a line without one it reads on.

`InLine` carries the calls of a round through the line.
-/

namespace LsoStore

open CFile

/-! ## The reading by lines -/

inductive Assignment where
  | number (k : NumberSetting) (value : Int)
  | name (k : NameSetting) (value : List UInt8)
deriving DecidableEq

def keyOf (line : List UInt8) : List UInt8 := line.takeWhile isWord

/-- What stands behind the key and the separators. -/
def valueOf (line : List UInt8) : List UInt8 := (line.dropWhile isWord).dropWhile isSeparator

/-- What a line assigns: KEY, separators and VALUE. A name ends at the next
separator. -/
def assigned (line : List UInt8) : Option Assignment :=
  if line.head? = some 35 then none
  else
    match settingOf (cString (keyOf line)) with
    | none => none
    | some (.number k) => (readInt (valueOf line)).1.map (.number k)
    | some (.name k) =>
        if valueOf line = [] then none else some (.name k ((valueOf line).takeWhile isWord))

def assignments (config : List UInt8) : List Assignment :=
  (config.splitOn 10).filterMap assigned

/-- A name in its buffer of 64 bytes: the first 63 of it, and zeros. -/
def cutName (value : List UInt8) : List UInt8 :=
  value.take 63 ++ List.replicate (64 - (value.take 63).length) 0

namespace ServerSettings

def assign (setts : ServerSettings) : Assignment → ServerSettings
  | .number k value => setts.setNumber k value
  | .name k value => setts.setBuffer k (cutName value)

end ServerSettings

def settingsByLine (config : List UInt8) : ServerSettings :=
  (assignments config).foldl ServerSettings.assign .zero

/-! ## Where the lines are read as they stand -/

/-- A line with a word to read: neither empty nor a comment. -/
def IsEntry (line : List UInt8) : Prop := line ≠ [] ∧ line.head? ≠ some 35

/-- The line has something that stops the reading of its value. -/
def HasValue (line : List UInt8) : Prop :=
  match settingOf (cString (keyOf line)) with
  | some (.number _) => ∃ c ∈ valueOf line, isSpace c = false
  | _ => valueOf line ≠ []

/-- Nothing but separators. -/
def Blank (bytes : List UInt8) : Prop := ∀ c ∈ bytes, isSeparator c = true

/-- Who lacks a value has nothing but separators behind it. -/
def ValuesStand (config : List UInt8) : Prop :=
  ∀ before line behind, config.splitOn 10 = before ++ line :: behind → IsEntry line →
    HasValue line ∨ ∀ l ∈ behind, Blank l

/-- The allocator has room for the key, and the buffer for the name. -/
def Fits (line : List UInt8) : Prop :=
  (IsEntry line → (keyOf line).length + 1 ≤ muLimit) ∧
    ∀ k value, assigned line = some (.name k value) → value.length ≤ 63

structure ReadByLine (config : List UInt8) : Prop where
  value : ValuesStand config
  fits : ∀ line ∈ config.splitOn 10, Fits line
  /-- No name that was assigned before is longer than the last one. -/
  longest : ∀ before k value behind, assignments config = before ++ .name k value :: behind →
    (∀ value', .name k value' ∉ behind) →
    ∀ value', .name k value' ∈ before → value'.length ≤ value.length

/-! ## Within a line -/

/-- What follows a line: a newline, or nothing. -/
def IsTail (tail : List UInt8) : Prop := ∀ c ∈ tail.head?, c = 10

theorem takeWhile_append_stop {p : UInt8 → Bool} {tail : List UInt8}
    (hstop : ∀ c ∈ tail.head?, p c = false) (line : List UInt8) :
    (line ++ tail).takeWhile p = line.takeWhile p := by
  have hnone : tail.takeWhile p = [] := by
    cases tail with
    | nil => rfl
    | cons c l =>
        rw [List.takeWhile_cons, hstop c rfl]
        rfl
  rw [List.takeWhile_append, hnone, List.append_nil]
  split
  · next hall => exact ((List.takeWhile_prefix p).eq_of_length hall).symm
  · rfl

theorem dropWhile_append_of_ne_nil {p : UInt8 → Bool} {line : List UInt8}
    (hline : line.dropWhile p ≠ []) (tail : List UInt8) :
    (line ++ tail).dropWhile p = line.dropWhile p ++ tail := by
  rw [List.dropWhile_append, if_neg (by simpa using hline)]

theorem dropWhile_append_stop {p : UInt8 → Bool} {tail : List UInt8}
    (hstop : ∀ c ∈ tail.head?, p c = false) (line : List UInt8) :
    (line ++ tail).dropWhile p = line.dropWhile p ++ tail := by
  rw [← drop_length_takeWhile, takeWhile_append_stop hstop, List.drop_append_of_le_length
    (List.takeWhile_prefix p).length_le, drop_length_takeWhile]

theorem IsTail.stops {tail : List UInt8} (h : IsTail tail) {p : UInt8 → Bool}
    (hp : p 10 = false) : ∀ c ∈ tail.head?, p c = false := by
  intro c hc
  rw [h c hc]
  exact hp

/-- Where the file is within a line. The mark can only be set where the line is the
last one. -/
structure InLine (f : CFile) (line tail : List UInt8) : Prop where
  rest : f.rest = line ++ tail
  within : f.pos ≤ f.bytes.length
  noNewline : 10 ∉ line
  ends : IsTail tail
  goesOn : tail ≠ [] → f.eof = false

namespace InLine

variable {f : CFile} {line tail : List UInt8}

theorem length_rest (h : InLine f line tail) : f.rest.length = line.length + tail.length := by
  rw [h.rest, List.length_append]

theorem rest_drop (h : InLine f line tail) {n : Nat} (hn : n ≤ line.length) :
    f.rest.drop n = line.drop n ++ tail := by
  rw [h.rest, List.drop_append_of_le_length hn]

theorem advance (h : InLine f line tail) {n : Nat} (hn : n ≤ line.length) :
    InLine { f.advance n with eof := false } (line.drop n) tail where
  rest := (f.advance_rest n).trans (h.rest_drop hn)
  within := (ReadOn.past (f := f) (by have := h.length_rest; omega) false).within h.within
  noNewline hin := h.noNewline (List.mem_of_mem_drop hin)
  ends := h.ends
  goesOn _ := rfl

/-- A conversion that stops within the line, or at its end, does not reach the end
of the file. -/
theorem scanned (h : InLine f line tail) {n : Nat} (hn : n ≤ line.length) :
    InLine (f.scanned n) (line.drop n) tail where
  rest := (f.scanned_rest n).trans (h.rest_drop hn)
  within := (ReadOn.past (f := f) (by have := h.length_rest; omega) _).within h.within
  noNewline hin := h.noNewline (List.mem_of_mem_drop hin)
  ends := h.ends
  goesOn htail := by
    have hlen := h.length_rest
    have hpos : 0 < tail.length := List.length_pos_iff.mpr htail
    rw [scanned_eof, h.goesOn htail, Bool.false_or, decide_eq_false_iff_not]
    omega

/-- The last line is skipped to the end of the file. -/
theorem skipline_last (h : InLine f line []) : (serverSkipline f).eof = true := by
  have hrest := h.rest
  rw [List.append_nil] at hrest
  rw [serverSkipline_eof_iff, hrest]
  exact .inr h.noNewline

/-- Any other line is skipped to the next one. -/
theorem skipline_next {next : List UInt8} (h : InLine f line (10 :: next)) :
    AtLine (serverSkipline f) ∧ (serverSkipline f).rest = next ∧
      (serverSkipline f).eof = false := by
  have heof : (serverSkipline f).eof = false := by
    rw [Bool.eq_false_iff, ne_eq, serverSkipline_eof_iff, h.goesOn (by nofun), h.rest]
    simp
  have hrest : (serverSkipline f).rest = next := by
    rw [serverSkipline_rest, h.rest, dropWhile_append_stop (h.ends.stops rfl),
      dropWhile_newline_eq_nil.mpr h.noNewline]
    rfl
  exact ⟨(serverSkipline_atLine h.within heof).1, hrest, heof⟩

end InLine

/-! ## Numbers -/

/-- A number is read within its line, or is found not to be one there. -/
theorem readInt_append {value tail : List UInt8} (hvalue : ∃ c ∈ value, isSpace c = false)
    (htail : IsTail tail) : readInt (value ++ tail) = readInt value := by
  have hnumber : value.dropWhile isSpace ≠ [] := by
    obtain ⟨c, hin, hc⟩ := hvalue
    rw [ne_eq, List.dropWhile_eq_nil_iff]
    intro hall
    rw [hall c hin] at hc
    cases hc
  have hspace : (value ++ tail).takeWhile isSpace = value.takeWhile isSpace := by
    rw [List.takeWhile_append, if_neg]
    intro hall
    rw [← drop_length_takeWhile, hall, List.drop_length] at hnumber
    exact hnumber rfl
  obtain ⟨c, l, hcons⟩ := List.exists_cons_of_ne_nil hnumber
  have hown : value.drop (value.takeWhile isSpace).length = c :: l := by
    rw [drop_length_takeWhile, hcons]
  have hlong : (value ++ tail).drop (value.takeWhile isSpace).length = c :: (l ++ tail) := by
    rw [← hspace, drop_length_takeWhile, dropWhile_append_of_ne_nil hnumber, hcons]
    rfl
  have hdigits : ∀ sign ≤ 1, ((c :: (l ++ tail)).drop sign).takeWhile isDigit =
      ((c :: l).drop sign).takeWhile isDigit := by
    intro sign hsign
    rw [← List.cons_append, List.drop_append_of_le_length (by simp; omega),
      takeWhile_append_stop (htail.stops rfl)]
  have hsign : (if some c = some 45 ∨ some c = some 43 then 1 else 0) ≤ 1 := by
    split <;> omega
  simp only [readInt, hspace, hown, hlong, List.head?_cons, hdigits _ hsign]

/-- Without a digit or a sign behind the white space there is no number, and only
the white space is taken. -/
theorem readInt_of_blank {text : List UInt8} (h : Blank (text.dropWhile isSpace)) :
    readInt text = (none, (text.takeWhile isSpace).length) := by
  have hhead : ∀ c, isSeparator c = false → (text.dropWhile isSpace).head? ≠ some c := by
    intro c hc heq
    rw [h c (List.mem_of_mem_head? heq)] at hc
    cases hc
  have hdigits : (text.dropWhile isSpace).takeWhile isDigit = [] := by
    cases hdrop : text.dropWhile isSpace with
    | nil => rfl
    | cons c l =>
        have hsep : isSeparator c = true := h c (by rw [hdrop]; exact List.mem_cons_self)
        have hdigit : isDigit c = false := by
          rw [isSeparator] at hsep
          simp only [Bool.or_eq_true, decide_eq_true_eq] at hsep
          obtain ((((rfl | rfl) | rfl) | rfl) | rfl) | rfl := hsep <;> rfl
        rw [List.takeWhile_cons, hdigit]
        rfl
  simp only [readInt, drop_length_takeWhile, hhead 45 rfl, hhead 43 rfl, or_self, if_false,
    List.drop_zero, hdigits, if_true, List.length_nil, Nat.add_zero]

/-! ## A round takes a line -/

namespace ServerSettings

/-- What the code makes of an assignment: a name is laid over the one before. -/
def readOver (setts : ServerSettings) : Assignment → ServerSettings
  | .number k value => setts.setNumber k value
  | .name k value => setts.freadName k value

end ServerSettings

/-- Where the line has a value, the separators in front of it are skipped. -/
theorem getSetting_value {f : CFile} {line tail : List UInt8}
    (hf : InLine f (line.dropWhile isWord) tail) (heof : f.eof = false) (hvalue : HasValue line)
    (setts : ServerSettings) :
    valueOf line ≠ [] ∧ ∃ g, ReadOn f g ∧ InLine g (valueOf line) tail ∧
      getSetting (keyOf line) f setts =
        match settingOf (cString (keyOf line)) with
        | none => .ret (setts, g)
        | some (.number k) =>
            match g.scanInt with
            | (none, h) => .ret (setts, h)
            | (some intSett, h) => .ret (setts.setNumber k intSett, h)
        | some (.name k) => getName g setts k := by
  have hne : valueOf line ≠ [] := by
    rw [HasValue] at hvalue
    split at hvalue
    · obtain ⟨c, hin, -⟩ := hvalue
      exact List.ne_nil_of_mem hin
    · exact hvalue
  have hdrop : f.rest.dropWhile isSeparator = valueOf line ++ tail := by
    rw [hf.rest]
    exact dropWhile_append_of_ne_nil hne tail
  obtain ⟨g, hread, hgeof, hgrest, hget⟩ := getSetting_eq (keyOf line) setts heof
    (by rw [hdrop]; exact List.append_ne_nil_of_left_ne_nil hne _)
  rw [hdrop] at hgrest
  refine ⟨hne, g, hread, ⟨hgrest, hread.within hf.within, ?_, hf.ends, fun _ => hgeof⟩, hget⟩
  exact fun hin => hf.noNewline ((List.dropWhile_suffix isSeparator).subset hin)

/-- The word that a name is read up to. -/
theorem InLine.word {f : CFile} {line tail : List UInt8} (hf : InLine f line tail) :
    f.rest.takeWhile isWord = line.takeWhile isWord := by
  rw [hf.rest]
  exact takeWhile_append_stop (hf.ends.stops rfl) _

/-- The assignment of a line that has a value is read within that line. -/
theorem getSetting_entry {f : CFile} {line tail : List UInt8}
    (hf : InLine f (line.dropWhile isWord) tail) (heof : f.eof = false)
    (hcomment : line.head? ≠ some 35) (hvalue : HasValue line)
    (hshort : ∀ k value, assigned line = some (.name k value) → value.length ≤ 63)
    (setts : ServerSettings) :
    ∃ g behind, ReadOn f g ∧ InLine g behind tail ∧
      getSetting (keyOf line) f setts =
        .ret (((assigned line).elim setts setts.readOver), g) := by
  obtain ⟨hne, g, hread, hg, hget⟩ := getSetting_value hf heof hvalue setts
  rw [hget]
  cases hkey : settingOf (cString (keyOf line)) with
  | none =>
      have hnone : assigned line = none := by
        rw [assigned, if_neg hcomment, hkey]
      rw [hnone]
      exact ⟨g, valueOf line, hread, hg, rfl⟩
  | some setting =>
      cases setting with
      | number k =>
          have hnumber : assigned line = (readInt (valueOf line)).1.map (.number k) := by
            rw [assigned, if_neg hcomment, hkey]
          have hint : readInt g.rest = readInt (valueOf line) := by
            rw [HasValue, hkey] at hvalue
            rw [hg.rest]
            exact readInt_append hvalue hf.ends
          have hscan : g.scanInt =
              ((readInt (valueOf line)).1, g.scanned (readInt (valueOf line)).2) := by
            rw [scanInt, hint]
          have hon : ReadOn g (g.scanned (readInt (valueOf line)).2) := by
            have hon : ReadOn g g.scanInt.2 := .scanInt
            rw [hscan] at hon
            exact hon
          rw [hnumber, hscan]
          refine ⟨_, _, hread.trans hon, hg.scanned (readInt_le (valueOf line)), ?_⟩
          cases (readInt (valueOf line)).1 <;> rfl
      | name k =>
          have hname : assigned line = some (.name k ((valueOf line).takeWhile isWord)) := by
            rw [assigned, if_neg hcomment, hkey]
            exact if_neg hne
          have hlen := hshort k _ hname
          have hon : ReadOn g
              { g.advance ((valueOf line).takeWhile isWord).length with eof := false } := by
            rw [← hg.word]
            exact .past (List.takeWhile_prefix isWord).length_le _
          rw [hname]
          refine ⟨_, _, hread.trans hon, hg.advance (List.takeWhile_prefix isWord).length_le, ?_⟩
          show getName g setts k = _
          rw [getName_eq, hg.word, if_pos (by omega)]
          rfl

/-- A name that is too long for the buffer ends the process. -/
theorem getSetting_long {f : CFile} {line tail : List UInt8}
    (hf : InLine f (line.dropWhile isWord) tail) (heof : f.eof = false) (hvalue : HasValue line)
    {k : NameSetting} {value : List UInt8} (hname : assigned line = some (.name k value))
    (hlong : ¬ value.length ≤ 63) (setts : ServerSettings) :
    getSetting (keyOf line) f setts = .exit := by
  obtain ⟨hne, g, hread, hg, hget⟩ := getSetting_value hf heof hvalue setts
  rw [assigned] at hname
  split at hname
  · cases hname
  · split at hname
    · cases hname
    · next k' _ =>
        cases hint : (readInt (valueOf line)).1 with
        | none => rw [hint] at hname; cases hname
        | some v => rw [hint] at hname; cases hname
    · next k' hkey =>
        obtain ⟨rfl, rfl⟩ := Assignment.name.inj (Option.some.inj hname)
        rw [hget, hkey]
        show getName g setts k' = _
        rw [getName_eq, hg.word, if_neg (by omega)]

/-- A line that lacks a value assigns nothing. -/
theorem assigned_of_noValue {line : List UInt8} (h : ¬ HasValue line) : assigned line = none := by
  rw [assigned]
  split
  · rfl
  · rw [HasValue] at h
    split
    · rfl
    · next k hkey =>
        rw [hkey] at h
        have hblank : (valueOf line).dropWhile isSpace = [] := by
          rw [List.dropWhile_eq_nil_iff]
          intro c hin
          by_contra hc
          exact h ⟨c, hin, by simpa using hc⟩
        rw [readInt_of_blank (by rw [hblank]; nofun)]
        rfl
    · next k hkey =>
        rw [hkey] at h
        exact if_pos (not_not.mp h)

theorem Blank.dropWhile_eq_nil {bytes : List UInt8} (h : Blank bytes) :
    bytes.dropWhile isSeparator = [] := List.dropWhile_eq_nil_iff.mpr h

/-- Whoever lacks a value looks for it behind the line, and finds none among
separators. -/
theorem getSetting_noValue {f : CFile} {line tail : List UInt8}
    (hf : InLine f (line.dropWhile isWord) tail) (heof : f.eof = false)
    (hvalue : ¬ HasValue line) (htail : Blank tail) (setts : ServerSettings) :
    ∃ g, ReadOn f g ∧ (g.eof = true ∨ Blank g.rest) ∧
      getSetting (keyOf line) f setts = .ret (setts, g) := by
  have hdrop : f.rest.dropWhile isSeparator =
      if valueOf line = [] then [] else valueOf line ++ tail := by
    rw [hf.rest, List.dropWhile_append, htail.dropWhile_eq_nil, valueOf]
    simp only [List.isEmpty_iff]
  by_cases hnil : valueOf line = []
  · rw [if_pos hnil] at hdrop
    obtain ⟨g, hread, hgeof, hget⟩ := getSetting_of_eof (keyOf line) setts hdrop
    exact ⟨g, hread, .inl hgeof, hget⟩
  · rw [if_neg hnil] at hdrop
    obtain ⟨g, hread, -, hgrest, hget⟩ :=
      getSetting_eq (keyOf line) setts heof
        (by rw [hdrop]; exact List.append_ne_nil_of_left_ne_nil hnil _)
    -- only white space in place of a number is a value, and not one to stop at
    obtain ⟨k, hkey⟩ : ∃ k, settingOf (cString (keyOf line)) = some (.number k) := by
      rw [HasValue] at hvalue
      split at hvalue
      · next k hkey => exact ⟨k, hkey⟩
      · exact absurd hnil hvalue
    rw [HasValue, hkey] at hvalue
    have hspace : (valueOf line).dropWhile isSpace = [] := by
      rw [List.dropWhile_eq_nil_iff]
      intro c hin
      by_contra hc
      exact hvalue ⟨c, hin, by simpa using hc⟩
    have hrest : g.rest.dropWhile isSpace = tail.dropWhile isSpace := by
      rw [hgrest, hdrop, List.dropWhile_append, hspace]
      rfl
    have hblank : Blank (g.rest.dropWhile isSpace) := by
      rw [hrest]
      exact fun c hc => htail c ((List.dropWhile_suffix isSpace).subset hc)
    have hscan : g.scanInt = (none, g.scanned (g.rest.takeWhile isSpace).length) := by
      rw [scanInt, readInt_of_blank hblank]
    rw [hget, hkey]
    refine ⟨_, hread.trans (.takeWhile isSpace), .inr ?_, ?_⟩
    · rw [scanSet_rest]
      exact hblank
    · show (match g.scanInt with
        | (none, h) => Course.ret (setts, h)
        | (some intSett, h) => .ret (setts.setNumber k intSett, h)) = _
      rw [hscan]

/-- The round of a line with a word to read. -/
theorem settingsRound_entry_eq {f : CFile} {line tail : List UInt8} (hf : InLine f line tail)
    (hentry : IsEntry line) (setts : ServerSettings) :
    ∃ g, ReadOn f g ∧ InLine g (line.dropWhile isWord) tail ∧ g.eof = false ∧
      settingsRound f setts =
        if (keyOf line).length + 1 > muLimit then .exit
        else
          match getSetting (keyOf line) g setts with
          | .ret (setts', h) => .ret (some (setts', serverSkipline h))
          | .exit => .exit
          | .fault => .fault
          | .running => .running := by
  obtain ⟨hne, hcomment⟩ := hentry
  obtain ⟨c, l, rfl⟩ := List.exists_cons_of_ne_nil hne
  have hc : c ≠ 10 := fun h => hf.noNewline (h ▸ List.mem_cons_self)
  have hget := fgetc_cons (hf.rest.trans (List.cons_append ..))
  have hword : ({ f with eof := false } : CFile).rest.takeWhile isWord = keyOf (c :: l) := hf.word
  have hline := hf.advance (List.takeWhile_prefix (l := c :: l) isWord).length_le
  rw [drop_length_takeWhile] at hline
  have hon : ReadOn f { f.advance (keyOf (c :: l)).length with eof := false } := by
    rw [← hword]
    exact .past (List.takeWhile_prefix isWord).length_le _
  refine ⟨_, hon, hline, rfl, ?_⟩
  rw [settingsRound_back (g := { f with eof := false })
    (by rw [hget]; exact fun h => hcomment h) (by rw [hget]; exact fun h => hc (Option.some.inj h))
    (by rw [hget]; exact advance_fseek 1)
    (by show f.rest ≠ []; rw [hf.rest]; nofun), hword]
  rfl

/-- A comment, or a line with a value: the round reads what the line assigns and
leaves the file within it, to be skipped. -/
theorem settingsRound_line {f : CFile} {line tail : List UInt8} (hf : InLine f line tail)
    (heof : f.eof = false) (hne : line ≠ []) (hvalue : IsEntry line → HasValue line)
    (hfits : Fits line) (setts : ServerSettings) :
    ∃ g behind, ReadOn f g ∧ InLine g behind tail ∧
      settingsRound f setts =
        .ret (some ((assigned line).elim setts setts.readOver, serverSkipline g)) := by
  by_cases hcomment : line.head? = some 35
  · obtain ⟨c, l, rfl⟩ := List.exists_cons_of_ne_nil hne
    obtain rfl : c = 35 := Option.some.inj hcomment
    have hadv : { f.advance 1 with eof := false } = f.advance 1 := by
      rw [← heof]
      rfl
    have hline := hf.advance (n := 1) (Nat.succ_le_succ (Nat.zero_le _))
    have hon : ReadOn f { f.advance 1 with eof := false } := .past (by rw [hf.rest]; simp) _
    rw [hadv] at hline hon
    have hnone : assigned (35 :: l) = none := if_pos rfl
    rw [hnone]
    exact ⟨_, _, hon, hline, settingsRound_comment (hf.rest.trans (List.cons_append ..)) setts⟩
  · have hentry : IsEntry line := ⟨hne, hcomment⟩
    have hkey := hfits.1 hentry
    obtain ⟨g, hread, hg, hgeof, hround⟩ := settingsRound_entry_eq hf hentry setts
    obtain ⟨h, behind, hread', hh, hget⟩ :=
      getSetting_entry hg hgeof hcomment (hvalue hentry) hfits.2 setts
    rw [hround, if_neg (by omega), hget]
    exact ⟨h, behind, hread.trans hread', hh, rfl⟩

/-- A line that does not fit ends the process. -/
theorem settingsRound_unfit {f : CFile} {line tail : List UInt8} (hf : InLine f line tail)
    (hne : line ≠ []) (hfits : ¬ Fits line) (setts : ServerSettings) :
    settingsRound f setts = .exit := by
  have hcomment : line.head? ≠ some 35 := by
    intro hcomment
    have hnone : assigned line = none := if_pos hcomment
    exact hfits ⟨fun hentry => absurd hcomment hentry.2, by rw [hnone]; nofun⟩
  have hentry : IsEntry line := ⟨hne, hcomment⟩
  obtain ⟨g, -, hg, hgeof, hround⟩ := settingsRound_entry_eq hf hentry setts
  rw [hround]
  by_cases hkey : (keyOf line).length + 1 > muLimit
  · rw [if_pos hkey]
  · obtain ⟨k, value, hname, hlong⟩ : ∃ k value,
        assigned line = some (.name k value) ∧ ¬ value.length ≤ 63 := by
      by_contra hall
      refine hfits ⟨fun _ => by omega, fun k value hname => ?_⟩
      by_contra hlong
      exact hall ⟨k, value, hname, hlong⟩
    have hvalue : HasValue line := by
      by_contra hvalue
      rw [assigned_of_noValue hvalue] at hname
      cases hname
    rw [if_neg hkey, getSetting_long hg hgeof hvalue hname hlong]

/-- The first line of what is left, and what stands behind it. -/
theorem exists_line (rest : List UInt8) :
    ∃ line tail, rest = line ++ tail ∧ 10 ∉ line ∧ IsTail tail := by
  have hstop : ∀ l : List UInt8, 10 ∉ l.takeWhile (fun c => decide (c ≠ 10)) := by
    intro l hin
    simpa using List.mem_takeWhile_imp hin
  refine ⟨_, _, (List.takeWhile_append_dropWhile (p := fun c => decide (c ≠ 10)) (l := rest)).symm,
    hstop rest, ?_⟩
  intro c hc
  have hhead := List.head?_dropWhile_not (fun c => decide (c ≠ 10)) rest
  rw [Option.mem_def.mp hc] at hhead
  simpa using hhead

theorem AtLine.exists_inLine {f : CFile} (hf : AtLine f) (heof : f.eof = false) :
    ∃ line tail, InLine f line tail := by
  obtain ⟨line, tail, hrest, hline, htail⟩ := exists_line f.rest
  exact ⟨line, tail, hrest, hf.within, hline, htail, fun _ => heof⟩

/-- A line that lacks a value, with nothing but separators behind it. -/
theorem settingsRound_noValue {f : CFile} {line tail : List UInt8} (hf : InLine f line tail)
    (hentry : IsEntry line) (hvalue : ¬ HasValue line)
    (hkey : (keyOf line).length + 1 ≤ muLimit) (htail : Blank tail) (setts : ServerSettings) :
    ∃ g, settingsRound f setts = .ret (some (setts, g)) ∧ ReadOn f g ∧
      (g.eof = true ∨ AtLine g ∧ Blank g.rest ∧ g.rest.length < f.rest.length) := by
  obtain ⟨g, hread, hg, hgeof, hround⟩ := settingsRound_entry_eq hf hentry setts
  obtain ⟨h, hread', hend, hget⟩ := getSetting_noValue hg hgeof hvalue htail setts
  have hon := hread.trans hread'
  rw [hround, if_neg (by omega), hget]
  refine ⟨_, rfl, hon.trans (serverSkipline_readOn h), ?_⟩
  cases heof : (serverSkipline h).eof with
  | true => exact .inl rfl
  | false =>
      obtain ⟨hline, hlt⟩ := serverSkipline_atLine (hon.within hf.within) heof
      have hrest : Blank h.rest := by
        refine hend.resolve_left fun htrue => ?_
        rw [(serverSkipline_eof_iff h).mpr (.inl htrue)] at heof
        cases heof
      refine .inr ⟨hline, ?_, Nat.lt_of_lt_of_le hlt hon.length_rest_le⟩
      rw [serverSkipline_rest]
      exact fun c hc => hrest c ((List.dropWhile_suffix _).subset (List.mem_of_mem_drop hc))

end LsoStore
