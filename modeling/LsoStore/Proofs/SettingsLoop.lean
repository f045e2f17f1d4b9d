import LsoStore.Settings

/-!
# The loop of `init_server_settings` ends

What each function does to the file, in terms of the bytes that are left, and
from that the end of the loop. Whoever leaves the loop's body before the end of
the file has just read a newline. So the byte that is stepped back over at the
end of the file is a newline, and a separator: `get_setting` skips it and runs
into the end again.
-/

namespace LsoStore

open CFile

variable {f : CFile} {setts : ServerSettings}

/-- At the beginning of a line. -/
structure AtLine (f : CFile) : Prop where
  within : f.pos ≤ f.bytes.length
  line : f.pos = 0 ∨ f.bytes[f.pos - 1]? = some 10

/-- A byte of a word. -/
def isWord (c : UInt8) : Bool := !isSeparator c

/-! ## What the functions read -/

theorem dropWhile_newline_eq_nil {l : List UInt8} :
    l.dropWhile (fun c => decide (c ≠ 10)) = [] ↔ 10 ∉ l := by
  rw [List.dropWhile_eq_nil_iff]
  simp only [decide_eq_true_eq]
  exact ⟨fun h hin => h 10 hin rfl, fun h c hc heq => h (heq ▸ hc)⟩

/-- A line is skipped with its newline, or to the end of the file. -/
theorem serverSkipline_rest (f : CFile) :
    (serverSkipline f).rest = (f.rest.dropWhile (· ≠ 10)).drop 1 := by
  show (f.scanned _).scanChar.rest = _
  rw [scanChar_rest, scanSet_rest]

theorem serverSkipline_eof_iff (f : CFile) :
    (serverSkipline f).eof = true ↔ f.eof = true ∨ 10 ∉ f.rest := by
  show (f.scanned _).scanChar.eof = true ↔ _
  rw [scanChar_eof_iff, scanSet_eof_iff, scanSet_rest, or_assoc, or_self,
    dropWhile_newline_eq_nil]

theorem serverSkipline_readOn (f : CFile) : ReadOn f (serverSkipline f) :=
  (ReadOn.takeWhile _).trans .scanChar

/-- Behind a newline that was skipped, a line begins. -/
theorem serverSkipline_atLine (hf : f.pos ≤ f.bytes.length)
    (heof : (serverSkipline f).eof = false) :
    AtLine (serverSkipline f) ∧ (serverSkipline f).rest.length < f.rest.length := by
  have hin : 10 ∈ f.rest := by
    by_contra hout
    rw [(serverSkipline_eof_iff f).mpr (.inr hout)] at heof
    cases heof
  have hne : f.rest.dropWhile (fun c => decide (c ≠ 10)) ≠ [] :=
    fun hnil => dropWhile_newline_eq_nil.mp hnil hin
  obtain ⟨c, tail, hdrop⟩ := List.exists_cons_of_ne_nil hne
  have hc : c = 10 := by
    have hhead := List.head_dropWhile_not (fun c => decide (c ≠ 10)) hne
    simp only [hdrop, List.head_cons] at hhead
    simpa using hhead
  have hg := scanSet_rest f (fun c => decide (c ≠ 10))
  have hskip : serverSkipline f =
      (f.scanned (f.rest.takeWhile fun c => decide (c ≠ 10)).length).advance 1 := by
    rw [serverSkipline, scanSet, scanChar, fgetc]
    dsimp only
    rw [hg, hdrop]
  refine ⟨⟨(serverSkipline_readOn f).within hf, .inr ?_⟩, ?_⟩
  · rw [hskip]
    show f.bytes[f.pos + (f.rest.takeWhile _).length + 1 - 1]? = some 10
    rw [Nat.add_sub_cancel, ← List.getElem?_drop]
    show f.rest[_]? = some 10
    rw [← Nat.add_zero (f.rest.takeWhile _).length, ← List.getElem?_drop, drop_length_takeWhile,
      hdrop, hc]
    rfl
  · rw [serverSkipline_rest, List.length_drop]
    have hle := (List.dropWhile_suffix (l := f.rest) fun c => decide (c ≠ 10)).length_le
    have hpos : 0 < f.rest.length := List.length_pos_of_mem hin
    omega

theorem take_length_takeWhile (p : UInt8 → Bool) (l : List UInt8) :
    l.take (l.takeWhile p).length = l.takeWhile p :=
  (List.prefix_iff_eq_take.mp (List.takeWhile_prefix p)).symm

/-- A read of what was scanned. -/
theorem fread_takeWhile (f : CFile) (p : UInt8 → Bool) :
    f.fread (f.rest.takeWhile p).length =
      (f.rest.takeWhile p, f.advance (f.rest.takeWhile p).length) := by
  have heof : decide ((f.rest.takeWhile p).length < (f.rest.takeWhile p).length) = false := by
    simp
  rw [fread, take_length_takeWhile, heof, Bool.or_false]
  rfl

/-- A word is read where there is one, up to its end, or the allocator exits. -/
theorem serverReadword_eq (h : f.rest ≠ []) :
    serverReadword f =
      if (f.rest.takeWhile isWord).length + 1 > muLimit then .exit
      else .ret (some (f.rest.takeWhile isWord,
        { f.advance (f.rest.takeWhile isWord).length with eof := false })) := by
  have hread := fread_takeWhile { f with eof := false } isWord
  rw [serverReadword, scanSet]
  show (if (if f.rest = [] then (-1 : Int) else 0) = -1 then _ else _) = _
  rw [if_neg h, if_neg (by decide), fseek_scanned]
  show (if (f.rest.takeWhile isWord).length + 1 > muLimit then _ else _) = _
  split
  · rfl
  · have hread' : ({ f with eof := false } : CFile).fread
          (f.rest.takeWhile fun c => !isSeparator c).length =
        (f.rest.takeWhile isWord, _) := hread
    rw [hread']
    exact if_neg (Nat.lt_irrefl _)

/-- A name is read where it is no longer than 63 bytes. -/
theorem getName_eq (f : CFile) (setts : ServerSettings) (k : NameSetting) :
    getName f setts k =
      if (f.rest.takeWhile isWord).length < 64 then
        .ret (setts.freadName k (f.rest.takeWhile isWord),
          { f.advance (f.rest.takeWhile isWord).length with eof := false })
      else .exit := by
  have hword : (fun c => !isSeparator c) = isWord := rfl
  rw [getName, scanSet, hword]
  dsimp only
  rw [fseek_scanned]
  dsimp only
  rw [if_neg Bool.false_ne_true]
  by_cases hlen : (f.rest.takeWhile isWord).length < 64
  · have hread : ({ f with eof := false } : CFile).fread
          (f.rest.takeWhile isWord).length = (f.rest.takeWhile isWord, _) :=
      fread_takeWhile { f with eof := false } isWord
    rw [if_pos hlen, if_pos hlen, hread]
    exact if_neg (Nat.lt_irrefl _)
  · have hshort : (({ f with eof := false } : CFile).fread 63).1.length <
        (f.rest.takeWhile isWord).length := by
      have htake := List.length_take_le 63 ({ f with eof := false } : CFile).rest
      rw [fread_fst]
      omega
    rw [if_neg hlen, if_neg hlen]
    exact if_pos hshort

/-- Behind the key: the separators, and then the value if the file goes on. -/
theorem getSetting_eq (str : List UInt8) (setts : ServerSettings) (heof : f.eof = false)
    (hne : f.rest.dropWhile isSeparator ≠ []) :
    ∃ g, ReadOn f g ∧ g.eof = false ∧ g.rest = f.rest.dropWhile isSeparator ∧
      getSetting str f setts =
        match settingOf (cString str) with
        | none => .ret (setts, g)
        | some (.number k) =>
            match g.scanInt with
            | (none, h) => .ret (setts, h)
            | (some intSett, h) => .ret (setts.setNumber k intSett, h)
        | some (.name k) => getName g setts k := by
  have hrest := scanSet_rest f isSeparator
  have hgo : (f.scanned (f.rest.takeWhile isSeparator).length).eof = false := by
    rw [Bool.eq_false_iff, ne_eq, scanSet_eof_iff, heof]
    simpa using hne
  refine ⟨_, .takeWhile isSeparator, hgo, hrest, ?_⟩
  rw [getSetting, scanSet]
  dsimp only
  rw [hgo]
  rfl

/-- No value at all: the end of the file is found. -/
theorem getSetting_of_eof (str : List UInt8) (setts : ServerSettings)
    (hnil : f.rest.dropWhile isSeparator = []) :
    ∃ g, ReadOn f g ∧ g.eof = true ∧ getSetting str f setts = .ret (setts, g) := by
  have heof := (scanSet_eof_iff f isSeparator).mpr (.inr hnil)
  refine ⟨_, .takeWhile isSeparator, heof, ?_⟩
  rw [getSetting, scanSet]
  dsimp only
  rw [heof]
  rfl

/-- A call of `get_setting` reads on, or exits. -/
theorem getSetting_readOn (str : List UInt8) (setts : ServerSettings) (heof : f.eof = false) :
    getSetting str f setts = .exit ∨
      ∃ setts' g, ReadOn f g ∧ getSetting str f setts = .ret (setts', g) := by
  by_cases hnil : f.rest.dropWhile isSeparator = []
  · obtain ⟨g, hread, -, hget⟩ := getSetting_of_eof str setts hnil
    exact .inr ⟨setts, g, hread, hget⟩
  · obtain ⟨g, hread, -, -, hget⟩ := getSetting_eq str setts heof hnil
    rw [hget]
    split
    · exact .inr ⟨setts, g, hread, rfl⟩
    · next k _ =>
        have hint := hread.trans (ReadOn.scanInt : ReadOn g g.scanInt.2)
        split
        · next h hscan => exact .inr ⟨setts, h, by rw [hscan] at hint; exact hint, rfl⟩
        · next v h hscan => exact .inr ⟨_, h, by rw [hscan] at hint; exact hint, rfl⟩
    · next k _ =>
        rw [getName_eq]
        split
        · exact .inr ⟨_, _, hread.trans (.past (List.takeWhile_prefix isWord).length_le _), rfl⟩
        · exact .inl rfl

/-! ## The rounds -/

/-- A round that steps back over the byte it has looked at. -/
theorem settingsRound_back {g : CFile} (hcomment : f.fgetc.1 ≠ some 35)
    (hempty : f.fgetc.1 ≠ some 10) (hback : f.fgetc.2.fseek (-1) = some g) (hne : g.rest ≠ []) :
    settingsRound f setts =
      if (g.rest.takeWhile isWord).length + 1 > muLimit then .exit
      else
        match getSetting (g.rest.takeWhile isWord)
          { g.advance (g.rest.takeWhile isWord).length with eof := false } setts with
        | .ret (setts', h) => .ret (some (setts', serverSkipline h))
        | .exit => .exit
        | .fault => .fault
        | .running => .running := by
  rw [settingsRound]
  split
  · next h hget => exact absurd (by rw [hget]) hcomment
  · next h hget => exact absurd (by rw [hget]) hempty
  · next c h _ _ hget =>
      rw [hget] at hback
      dsimp only at hback
      rw [hback]
      dsimp only
      rw [serverReadword_eq hne]
      by_cases hlimit : (g.rest.takeWhile isWord).length + 1 > muLimit
      · rw [if_pos hlimit, if_pos hlimit]
      · rw [if_neg hlimit]
        exact (if_neg hlimit).symm

theorem fgetc_cons {c : UInt8} {l : List UInt8} (h : f.rest = c :: l) :
    f.fgetc = (some c, f.advance 1) := by
  rw [fgetc, h]

theorem fgetc_nil (h : f.rest = []) : f.fgetc = (none, { f with eof := true }) := by
  rw [fgetc, h]

theorem advance_fseek (n : Nat) : (f.advance n).fseek (-(n : Int)) =
    some { f with eof := false } := f.fseek_scanned n

/-- What is left of a round once there is a byte to step back to: the word, the
setting and the rest of the line. -/
theorem settingsRound_back_progress {g : CFile} (hg : g.pos ≤ g.bytes.length)
    (hcomment : f.fgetc.1 ≠ some 35) (hempty : f.fgetc.1 ≠ some 10)
    (hback : f.fgetc.2.fseek (-1) = some g) (hne : g.rest ≠ []) (setts : ServerSettings) :
    settingsRound f setts = .exit ∨
      ∃ setts' g', settingsRound f setts = .ret (some (setts', g')) ∧
        (g'.eof = true ∨ AtLine g' ∧ g'.rest.length < g.rest.length) := by
  rw [settingsRound_back hcomment hempty hback hne]
  split
  · exact .inl rfl
  · have hword : ReadOn g { g.advance (g.rest.takeWhile isWord).length with eof := false } :=
      .past (List.takeWhile_prefix isWord).length_le _
    obtain hget | ⟨setts', h, hread, hget⟩ :=
      getSetting_readOn (f := { g.advance (g.rest.takeWhile isWord).length with eof := false })
        (g.rest.takeWhile isWord) setts rfl
    · rw [hget]
      exact .inl rfl
    · rw [hget]
      refine .inr ⟨setts', serverSkipline h, rfl, ?_⟩
      have hon := hword.trans hread
      cases heof : (serverSkipline h).eof with
      | true => exact .inl rfl
      | false =>
          obtain ⟨hline, hlt⟩ := serverSkipline_atLine (hon.within hg) heof
          exact .inr ⟨hline, Nat.lt_of_lt_of_le hlt hon.length_rest_le⟩

/-- At the end of the file the byte that is stepped back to is the newline of the
last line, which leads straight to the end again. -/
theorem settingsRound_atEnd (hf : AtLine f) (hrest : f.rest = []) (hpos : 0 < f.pos)
    (setts : ServerSettings) :
    ∃ g, settingsRound f setts = .ret (some (setts, g)) ∧ g.eof = true := by
  have hget := fgetc_nil hrest
  have hlast : f.bytes[f.pos - 1]? = some 10 := hf.line.resolve_left (Nat.pos_iff_ne_zero.mp hpos)
  have hback : ({ f with eof := true } : CFile).fseek (-1) =
      some { f with pos := f.pos - 1, eof := false } := by
    have hstep : ¬ ((f.pos : Int) + -1 < 0) := by omega
    have hprev : ((f.pos : Int) + -1).toNat = f.pos - 1 := by omega
    rw [fseek]
    show (if (f.pos : Int) + -1 < 0 then none
      else some (CFile.mk f.bytes ((f.pos : Int) + -1).toNat false)) = _
    rw [if_neg hstep, hprev]
  have hbyte : ({ f with pos := f.pos - 1, eof := false } : CFile).rest = [10] := by
    obtain ⟨hlt, hval⟩ := List.getElem?_eq_some_iff.mp hlast
    show f.bytes.drop (f.pos - 1) = [10]
    rw [List.drop_eq_getElem_cons hlt, hval, Nat.sub_add_cancel hpos]
    exact congrArg (List.cons 10) hrest
  have hskip : ∀ g : CFile, g.rest = [10] → g.rest.dropWhile isSeparator = [] := by
    intro g hg
    rw [hg]
    rfl
  rw [settingsRound_back (by rw [hget]; exact (Option.some_ne_none _).symm)
    (by rw [hget]; exact (Option.some_ne_none _).symm) (by rw [hget]; exact hback)
    (by rw [hbyte]; exact List.cons_ne_nil _ _), hbyte, if_neg (by decide)]
  obtain ⟨g, -, heof, hsetting⟩ := getSetting_of_eof
    (f := { ({ f with pos := f.pos - 1, eof := false } : CFile).advance 0 with eof := false })
    [] setts (hskip _ hbyte)
  have hround : (match getSetting ([10].takeWhile isWord)
        { ({ f with pos := f.pos - 1, eof := false } : CFile).advance
            ([10].takeWhile isWord).length with eof := false } setts with
      | .ret (setts', h) => Course.ret (some (setts', serverSkipline h))
      | .exit => .exit
      | .fault => .fault
      | .running => .running) = .ret (some (setts, serverSkipline g)) := by
    rw [show [10].takeWhile isWord = [] from rfl, List.length_nil, hsetting]
  rw [hround]
  exact ⟨serverSkipline g, rfl, (serverSkipline_eof_iff g).mpr (.inl heof)⟩

/-- Before the first byte of an empty file there is nothing to step back to. -/
theorem settingsRound_noByte (hpos : f.pos = 0) (hrest : f.rest = []) (setts : ServerSettings) :
    settingsRound f setts = .exit := by
  have hback : ({ f with eof := true } : CFile).fseek (-1) = none :=
    if_pos (by rw [hpos]; decide)
  rw [settingsRound, fgetc_nil hrest]
  dsimp only
  rw [hback]

/-- An empty line is taken as it is. -/
theorem settingsRound_newline {next : List UInt8} (hrest : f.rest = 10 :: next)
    (setts : ServerSettings) :
    settingsRound f setts = .ret (some (setts, f.advance 1)) ∧ (f.advance 1).rest = next ∧
      AtLine (f.advance 1) := by
  have hbyte : f.bytes[f.pos]? = some 10 := by
    rw [← Nat.add_zero f.pos, ← List.getElem?_drop]
    show f.rest[0]? = some 10
    rw [hrest]
    rfl
  refine ⟨?_, ?_, (List.getElem?_eq_some_iff.mp hbyte).1, .inr hbyte⟩
  · rw [settingsRound, fgetc_cons hrest]
    rfl
  · rw [advance_rest, hrest]
    rfl

theorem settingsRound_comment {next : List UInt8} (hrest : f.rest = 35 :: next)
    (setts : ServerSettings) :
    settingsRound f setts = .ret (some (setts, serverSkipline (f.advance 1))) := by
  rw [settingsRound, fgetc_cons hrest]
  rfl

/-- One round: the process exits, the mark is set, or a shorter rest begins with a
line. -/
theorem settingsRound_progress (hf : AtLine f) (setts : ServerSettings) :
    settingsRound f setts = .exit ∨
      ∃ setts' g, settingsRound f setts = .ret (some (setts', g)) ∧
        (g.eof = true ∨ AtLine g ∧ g.rest.length < f.rest.length) := by
  cases hrest : f.rest with
  | nil =>
      rcases Nat.eq_zero_or_pos f.pos with hzero | hpos
      · exact .inl (settingsRound_noByte hzero hrest setts)
      · obtain ⟨g, hround, hend⟩ := settingsRound_atEnd hf hrest hpos setts
        exact .inr ⟨setts, g, hround, .inl hend⟩
  | cons c l =>
      by_cases hcomment : c = 35
      · subst hcomment
        have hon : ReadOn f (f.advance 1) := .past (by rw [hrest]; simp) _
        have hshort : (f.advance 1).rest = l := by
          rw [advance_rest, hrest]
          rfl
        refine .inr ⟨setts, _, settingsRound_comment hrest setts, ?_⟩
        cases hend : (serverSkipline (f.advance 1)).eof with
        | true => exact .inl rfl
        | false =>
            obtain ⟨hline, hlt⟩ := serverSkipline_atLine (hon.within hf.within) hend
            rw [hshort] at hlt
            exact .inr ⟨hline, Nat.lt_succ_of_lt hlt⟩
      · by_cases hempty : c = 10
        · subst hempty
          obtain ⟨hround, hnext, hline⟩ := settingsRound_newline hrest setts
          refine .inr ⟨setts, _, hround, .inr ⟨hline, ?_⟩⟩
          rw [hnext]
          exact Nat.lt_succ_self _
        · have hget := fgetc_cons hrest
          have hcons : ({ f with eof := false } : CFile).rest = c :: l := hrest
          have hprogress := settingsRound_back_progress (f := f) (g := { f with eof := false })
            hf.within (by rw [hget]; exact fun h => hcomment (Option.some.inj h))
            (by rw [hget]; exact fun h => hempty (Option.some.inj h))
            (by rw [hget]; exact advance_fseek 1) (by rw [hcons]; exact List.cons_ne_nil _ _) setts
          rw [hcons] at hprogress
          exact hprogress

/-! ## The loop -/

theorem initServerSettingsLoop_of_eof {f : CFile} {setts : ServerSettings} {rounds : Nat}
    (hf : f.eof = true) (hrounds : 1 ≤ rounds) :
    initServerSettingsLoop rounds f setts = .ret (0, setts) := by
  cases rounds with
  | zero => exact absurd hrounds (by decide)
  | succ rounds => exact if_pos hf

theorem initServerSettingsLoop_of_round {f g : CFile} {setts setts' : ServerSettings}
    (heof : f.eof = false) (hround : settingsRound f setts = .ret (some (setts', g)))
    (rounds : Nat) :
    initServerSettingsLoop (rounds + 1) f setts = initServerSettingsLoop rounds g setts' := by
  rw [initServerSettingsLoop, heof, if_neg Bool.false_ne_true, hround]

theorem initServerSettingsLoop_ends {f : CFile} {setts : ServerSettings} {rounds : Nat}
    (hf : AtLine f) (heof : f.eof = false) (hrounds : f.rest.length + 2 ≤ rounds) :
    initServerSettingsLoop rounds f setts = .exit ∨
      ∃ setts', initServerSettingsLoop rounds f setts = .ret (0, setts') := by
  induction rounds generalizing f setts with
  | zero => exact absurd hrounds (by omega)
  | succ rounds ih =>
      obtain hexit | ⟨setts', g, hround, hnext⟩ := settingsRound_progress hf setts
      · rw [initServerSettingsLoop, heof, if_neg Bool.false_ne_true, hexit]
        exact .inl rfl
      · rw [initServerSettingsLoop_of_round heof hround]
        cases hend : g.eof with
        | true =>
            exact .inr ⟨setts', initServerSettingsLoop_of_eof hend (by omega)⟩
        | false =>
            obtain ⟨hline, hlt⟩ := hnext.resolve_left (by rw [hend]; exact Bool.false_ne_true)
            exact ih hline hend (by omega)

/-- The loop ends on every text, after at most two rounds more than it has bytes:
with the result 0, or with the process. -/
theorem settings_loop_ends (config : List UInt8) (setts : ServerSettings) (rounds : Nat)
    (hrounds : config.length + 2 ≤ rounds) :
    initServerSettings rounds config setts = .exit ∨
      ∃ setts', initServerSettings rounds config setts = .ret (0, setts') :=
  initServerSettingsLoop_ends ⟨Nat.zero_le _, .inl rfl⟩ rfl hrounds

/-- `CAPACITY=8` without a newline, with the rounds it takes. -/
theorem settings_loop_ends_short :
    [67, 65, 80, 65, 67, 73, 84, 89, 61, 56].length + 2 ≤ 12 ∧
      (initServerSettings 12 [67, 65, 80, 65, 67, 73, 84, 89, 61, 56] .zero = .exit ∨
        ∃ setts', initServerSettings 12 [67, 65, 80, 65, 67, 73, 84, 89, 61, 56] .zero =
          .ret (0, setts')) :=
  ⟨by decide, settings_loop_ends _ .zero 12 (by decide)⟩

end LsoStore
