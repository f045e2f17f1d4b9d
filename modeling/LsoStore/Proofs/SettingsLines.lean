import LsoStore.Proofs.SettingsRounds

/-!
# The settings, line by line

The loop takes the lines as they come where each has a value to stop at, or has
nothing but separators behind it. What is left between it and the reading by lines
are the names: each is read over the one before, and never past its 63 bytes.

`AtLine` carries the loop from line to line.
-/

namespace LsoStore

open CFile

/-! ## The loop takes the lines -/

theorem AtLine.pos_of_rest_nil {f : CFile} (hbytes : f.bytes ≠ []) (hrest : f.rest = []) :
    0 < f.pos := by
  have hlen : f.bytes.length ≤ f.pos := List.drop_eq_nil_iff.mp hrest
  have hpos := List.length_pos_iff.mpr hbytes
  omega

theorem Blank.keyOf_eq_nil {line : List UInt8} (h : Blank line) : keyOf line = [] := by
  cases line with
  | nil => rfl
  | cons c l =>
      rw [keyOf, List.takeWhile_cons, isWord, h c List.mem_cons_self]
      rfl

theorem Blank.not_hasValue {line : List UInt8} (h : Blank line) : ¬ HasValue line := by
  have hvalue : valueOf line = [] := by
    rw [valueOf, List.dropWhile_eq_nil_iff]
    exact fun c hc => h c ((List.dropWhile_suffix isWord).subset hc)
  rw [HasValue, h.keyOf_eq_nil, hvalue]
  exact fun hne => hne rfl

/-- An empty line that is not the end of the file is followed by another. -/
theorem InLine.next_of_nil {f : CFile} {tail : List UInt8} (hf : InLine f [] tail)
    (hrest : f.rest ≠ []) : ∃ next, tail = 10 :: next ∧ f.rest = 10 :: next := by
  have htail : f.rest = tail := hf.rest
  obtain ⟨c, next, hcons⟩ := List.exists_cons_of_ne_nil hrest
  rw [htail] at hcons
  obtain rfl : c = 10 := hf.ends c (by rw [hcons]; rfl)
  exact ⟨next, hcons, htail.trans hcons⟩

theorem loop_blank {f : CFile} {setts : ServerSettings} {rounds : Nat} (hf : AtLine f)
    (heof : f.eof = false) (hbytes : f.bytes ≠ []) (hblank : Blank f.rest)
    (hrounds : f.rest.length + 2 ≤ rounds) :
    initServerSettingsLoop rounds f setts = .ret (0, setts) := by
  induction rounds generalizing f with
  | zero => exact absurd hrounds (by omega)
  | succ rounds ih =>
      obtain ⟨line, tail, hline⟩ := hf.exists_inLine heof
      by_cases hrest : f.rest = []
      · obtain ⟨g, hround, hend⟩ :=
          settingsRound_atEnd hf hrest (AtLine.pos_of_rest_nil hbytes hrest) setts
        rw [initServerSettingsLoop_of_round heof hround]
        exact initServerSettingsLoop_of_eof hend (by omega)
      · cases line with
        | nil =>
            obtain ⟨next, -, hnext⟩ := hline.next_of_nil hrest
            obtain ⟨hround, hadv, hbegins⟩ := settingsRound_newline hnext setts
            rw [hnext] at hblank hrounds
            rw [initServerSettingsLoop_of_round heof hround]
            refine ih hbegins heof hbytes ?_ ?_
            · rw [hadv]
              exact fun c hc => hblank c (List.mem_cons_of_mem _ hc)
            · rw [hadv]
              rw [List.length_cons] at hrounds
              omega
        | cons c l =>
            rw [hline.rest] at hblank
            have hown : Blank (c :: l) := fun d hd => hblank d (List.mem_append_left _ hd)
            have hcomment : c ≠ 35 := by
              intro heq
              subst heq
              exact absurd (hown 35 List.mem_cons_self) (by decide)
            have hentry : IsEntry (c :: l) := ⟨by nofun, fun h => hcomment (Option.some.inj h)⟩
            obtain ⟨g, hround, hread, hnext⟩ := settingsRound_noValue hline hentry
              hown.not_hasValue (by rw [hown.keyOf_eq_nil]; decide)
              (fun d hd => hblank d (List.mem_append_right _ hd)) setts
            rw [initServerSettingsLoop_of_round heof hround]
            cases hend : g.eof with
            | true => exact initServerSettingsLoop_of_eof hend (by omega)
            | false =>
                obtain ⟨hbegins, hleft, hlt⟩ := hnext.resolve_left (by rw [hend]; nofun)
                exact ih hbegins hend (by rw [hread.bytes]; exact hbytes) hleft (by omega)

/-- From a line that lacks a value, with nothing but separators behind it, the loop
goes to the end of the file. -/
theorem loop_noValue {f : CFile} {line tail : List UInt8} {setts : ServerSettings} {rounds : Nat}
    (hline : InLine f line tail) (heof : f.eof = false) (hbytes : f.bytes ≠ [])
    (hentry : IsEntry line) (hnone : ¬ HasValue line) (hkey : (keyOf line).length + 1 ≤ muLimit)
    (htail : Blank tail) (hrounds : f.rest.length + 2 ≤ rounds + 1) :
    initServerSettingsLoop (rounds + 1) f setts = .ret (0, setts) := by
  obtain ⟨g, hround, hon, hgoes⟩ := settingsRound_noValue hline hentry hnone hkey htail setts
  rw [initServerSettingsLoop_of_round heof hround]
  cases hend : g.eof with
  | true => exact initServerSettingsLoop_of_eof hend (by omega)
  | false =>
      obtain ⟨hbegins, hleft, hlt⟩ := hgoes.resolve_left (by rw [hend]; nofun)
      exact loop_blank hbegins hend (by rw [hon.bytes]; exact hbytes) hleft (by omega)

/-- `ValuesStand`, line by line. -/
def LinesStand : List (List UInt8) → Prop
  | [] => True
  | line :: behind =>
      (IsEntry line → HasValue line ∨ ∀ l ∈ behind, Blank l) ∧ LinesStand behind

theorem blank_iff_lines {bytes : List UInt8} :
    Blank bytes ↔ ∀ l ∈ bytes.splitOn 10, Blank l := by
  induction bytes with
  | nil => simp [Blank]
  | cons c bytes ih =>
      rw [List.splitOn_cons_eq_if_modifyHead]
      by_cases hc : (c == 10) = true
      · have hsep : isSeparator c = true := by
          rw [beq_iff_eq] at hc
          rw [hc]
          rfl
        rw [if_pos hc, List.forall_mem_cons, ← ih, Blank, List.forall_mem_cons]
        simp [Blank, hsep]
      · obtain ⟨line, behind, hsplit⟩ := List.exists_cons_of_ne_nil (List.splitOn_ne_nil 10 bytes)
        rw [hsplit, List.forall_mem_cons] at ih
        rw [if_neg hc, hsplit, List.modifyHead_cons, List.forall_mem_cons, Blank, Blank,
          List.forall_mem_cons, List.forall_mem_cons, and_assoc, ← Blank, ih]
        rfl

theorem splitOn_line {line tail : List UInt8} (hline : 10 ∉ line) (htail : IsTail tail) :
    tail = [] ∧ (line ++ tail).splitOn 10 = [line] ∨
      ∃ next, tail = 10 :: next ∧ (line ++ tail).splitOn 10 = line :: next.splitOn 10 := by
  cases tail with
  | nil =>
      rw [List.append_nil]
      exact .inl ⟨rfl, List.splitOn_eq_singleton hline⟩
  | cons c next =>
      obtain rfl : c = 10 := htail c rfl
      exact .inr ⟨next, rfl, List.splitOn_append_cons_self_of_not_mem hline next⟩

/-- A line, and then the lines behind it. -/
theorem assignments_line {line tail : List UInt8} (hline : 10 ∉ line) (htail : IsTail tail) :
    assignments (line ++ tail) = (assigned line).toList ++ assignments (tail.drop 1) := by
  rw [assignments, assignments]
  obtain ⟨rfl, hsplit⟩ | ⟨next, rfl, hsplit⟩ := splitOn_line hline htail
  · rw [hsplit, List.filterMap_cons]
    cases assigned line <;> rfl
  · rw [hsplit, List.filterMap_cons]
    cases assigned line <;> rfl

theorem assignments_blank {bytes : List UInt8} (h : Blank bytes) : assignments bytes = [] := by
  rw [assignments, List.filterMap_eq_nil_iff]
  exact fun l hl => assigned_of_noValue (blank_iff_lines.mp h l hl).not_hasValue

theorem Blank.fits {line : List UInt8} (h : Blank line) : Fits line := by
  rw [Fits, h.keyOf_eq_nil, assigned_of_noValue h.not_hasValue]
  exact ⟨fun _ => by decide, nofun⟩

theorem fits_nil : ∀ l ∈ ([] : List UInt8).splitOn 10, Fits l :=
  fun l hl => (blank_iff_lines.mp (by nofun) l hl).fits

/-- What is known of the first line, and of those behind it. -/
theorem LinesStand.line {line tail : List UInt8} (hline : 10 ∉ line) (htail : IsTail tail)
    (h : LinesStand ((line ++ tail).splitOn 10)) :
    (IsEntry line → HasValue line ∨ Blank tail) ∧
      ∀ next, tail = 10 :: next → LinesStand (next.splitOn 10) := by
  obtain ⟨rfl, hsplit⟩ | ⟨next, rfl, hsplit⟩ := splitOn_line hline htail
  · exact ⟨fun _ => .inr nofun, nofun⟩
  · rw [hsplit] at h
    refine ⟨fun hentry => (h.1 hentry).imp_right fun hbehind => ?_, ?_⟩
    · exact List.forall_mem_cons.mpr ⟨rfl, blank_iff_lines.mpr hbehind⟩
    · intro next' heq
      obtain rfl : next = next' := (List.cons.inj heq).2
      exact h.2

theorem fits_line {line tail : List UInt8} (hline : 10 ∉ line) (htail : IsTail tail) :
    (∀ l ∈ (line ++ tail).splitOn 10, Fits l) ↔
      Fits line ∧ ∀ l ∈ (tail.drop 1).splitOn 10, Fits l := by
  obtain ⟨rfl, hsplit⟩ | ⟨next, rfl, hsplit⟩ := splitOn_line hline htail
  · rw [hsplit, List.forall_mem_singleton]
    exact ⟨fun h => ⟨h, fits_nil⟩, And.left⟩
  · rw [hsplit, List.forall_mem_cons]
    rfl

/-- Where the values stand, the loop reads the lines as they do, or exits at one that
does not fit. -/
theorem loop_lines {f : CFile} (setts : ServerSettings) {rounds : Nat} (hf : AtLine f)
    (heof : f.eof = false) (hbytes : f.bytes ≠ []) (hlines : LinesStand (f.rest.splitOn 10))
    (hrounds : f.rest.length + 2 ≤ rounds) :
    ((∀ l ∈ f.rest.splitOn 10, Fits l) ∧ initServerSettingsLoop rounds f setts =
        .ret (0, (assignments f.rest).foldl ServerSettings.readOver setts)) ∨
      (¬ ∀ l ∈ f.rest.splitOn 10, Fits l) ∧ initServerSettingsLoop rounds f setts = .exit := by
  induction rounds generalizing f setts with
  | zero => exact absurd hrounds (by omega)
  | succ rounds ih =>
      obtain ⟨line, tail, hline⟩ := hf.exists_inLine heof
      have hsplit := assignments_line hline.noNewline hline.ends
      have hfits := fits_line hline.noNewline hline.ends
      rw [hline.rest] at hlines
      obtain ⟨hvalue, hnext⟩ := hlines.line hline.noNewline hline.ends
      by_cases hrest : f.rest = []
      · obtain ⟨g, hround, hend⟩ :=
          settingsRound_atEnd hf hrest (AtLine.pos_of_rest_nil hbytes hrest) setts
        rw [initServerSettingsLoop_of_round heof hround, hrest]
        exact .inl ⟨fits_nil, initServerSettingsLoop_of_eof hend (by omega)⟩
      · rw [hline.rest, hfits, hsplit]
        by_cases hnil : line = []
        · -- an empty line
          subst hnil
          obtain ⟨next, rfl, hcons⟩ := hline.next_of_nil hrest
          obtain ⟨hround, hadv, hbegins⟩ := settingsRound_newline hcons setts
          have hempty : Fits [] := Blank.fits (by nofun)
          have hlen := congrArg List.length hcons
          rw [List.length_cons] at hlen
          have hloop := ih setts hbegins heof hbytes
            (by rw [hadv]; exact hnext next rfl) (by rw [hadv]; omega)
          rw [hadv] at hloop
          rw [initServerSettingsLoop_of_round heof hround]
          exact hloop.imp (fun h => ⟨⟨hempty, h.1⟩, h.2⟩) fun h => ⟨fun hall => h.1 hall.2, h.2⟩
        · by_cases hfit : Fits line
          · by_cases hread : IsEntry line → HasValue line
            · -- a comment, or a line with a value
              obtain ⟨g, behind, hon, hg, hround⟩ :=
                settingsRound_line hline heof hnil hread hfit setts
              have hbytes' : (serverSkipline g).bytes ≠ [] := by
                rw [(hon.trans (serverSkipline_readOn g)).bytes]
                exact hbytes
              have hfold : ∀ l, ((assigned line).toList ++ l).foldl ServerSettings.readOver setts =
                  l.foldl ServerSettings.readOver ((assigned line).elim setts setts.readOver) := by
                intro l
                cases assigned line <;> rfl
              rw [initServerSettingsLoop_of_round heof hround, hfold]
              obtain ⟨rfl, -⟩ | ⟨next, rfl, -⟩ := splitOn_line hline.noNewline hline.ends
              · rw [initServerSettingsLoop_of_eof hg.skipline_last (by omega)]
                exact .inl ⟨⟨hfit, fits_nil⟩, rfl⟩
              · obtain ⟨hbegins, hbehind, hend⟩ := hg.skipline_next
                have hlen := hline.length_rest
                rw [List.length_cons] at hlen
                have hloop := ih ((assigned line).elim setts setts.readOver) hbegins hend hbytes'
                  (by rw [hbehind]; exact hnext next rfl) (by rw [hbehind]; omega)
                rw [hbehind] at hloop
                exact hloop.imp (fun h => ⟨⟨hfit, h.1⟩, h.2⟩)
                  fun h => ⟨fun hall => h.1 hall.2, h.2⟩
            · -- nothing is assigned by a line without a value, or behind it
              obtain ⟨hentry, hnone⟩ := Classical.not_imp.mp hread
              have htail := (hvalue hentry).resolve_left hnone
              have hbehind : Blank (tail.drop 1) := fun c hc => htail c (List.mem_of_mem_drop hc)
              rw [assigned_of_noValue hnone, assignments_blank hbehind]
              exact .inl ⟨⟨hfit, fun l hl => (blank_iff_lines.mp hbehind l hl).fits⟩,
                loop_noValue hline heof hbytes hentry hnone (hfit.1 hentry) htail hrounds⟩
          · refine .inr ⟨fun hall => hfit hall.1, ?_⟩
            rw [initServerSettingsLoop, heof, if_neg Bool.false_ne_true,
              settingsRound_unfit hline hnil hfit]

theorem ValuesStand.of_hasValue {config : List UInt8}
    (h : ∀ line ∈ config.splitOn 10, HasValue line) : ValuesStand config := by
  intro before line behind hsplit _
  refine .inl (h line ?_)
  rw [hsplit]
  exact List.mem_append_right _ List.mem_cons_self

theorem ValuesStand.linesStand {config : List UInt8} (h : ValuesStand config) :
    LinesStand (config.splitOn 10) := by
  suffices hsuffix : ∀ lines before, config.splitOn 10 = before ++ lines → LinesStand lines from
    hsuffix _ [] rfl
  intro lines
  induction lines with
  | nil => exact fun _ _ => trivial
  | cons line behind ih =>
      intro before hsplit
      exact ⟨h before line behind hsplit,
        ih (before ++ [line]) (by rw [hsplit, List.append_assoc]; rfl)⟩

/-! ## The names in their buffers -/

/-- The names that are assigned to one setting. -/
def namesOf (k : NameSetting) (l : List Assignment) : List (List UInt8) :=
  l.filterMap fun
    | .name k' value => if k' = k then some value else none
    | .number _ _ => none

theorem namesOf_number (k : NameSetting) (k' : NumberSetting) (value : Int)
    (l : List Assignment) : namesOf k (.number k' value :: l) = namesOf k l := rfl

theorem namesOf_name (k k' : NameSetting) (value : List UInt8) (l : List Assignment) :
    namesOf k (.name k' value :: l) = if k' = k then value :: namesOf k l else namesOf k l := by
  rw [namesOf, List.filterMap_cons]
  dsimp only
  by_cases hk : k' = k
  · rw [if_pos hk, if_pos hk]
    rfl
  · rw [if_neg hk, if_neg hk]
    rfl

theorem mem_namesOf {k : NameSetting} {value : List UInt8} {l : List Assignment} :
    value ∈ namesOf k l ↔ .name k value ∈ l := by
  induction l with
  | nil => simp [namesOf]
  | cons a l ih =>
      cases a with
      | number k' v => simp [namesOf_number, ih]
      | name k' v =>
          rw [namesOf_name]
          split
          · next hk => simp [ih, hk]
          · next hk => simp [ih, Ne.symm hk]

/-- The last name that is assigned to a setting, and those before it. -/
theorem namesOf_last (k : NameSetting) (l : List Assignment) :
    namesOf k l = [] ∨ ∃ before value behind, l = before ++ .name k value :: behind ∧
      namesOf k behind = [] ∧ namesOf k l = namesOf k before ++ [value] := by
  induction l with
  | nil => exact .inl rfl
  | cons a l ih =>
      obtain hnone | ⟨before, value, behind, rfl, hbehind, hnames⟩ := ih
      · cases a with
        | number k' v => exact .inl hnone
        | name k' v =>
            by_cases hk : k' = k
            · subst hk
              refine .inr ⟨[], v, l, rfl, hnone, ?_⟩
              rw [namesOf_name, if_pos rfl, hnone]
              rfl
            · rw [namesOf_name, if_neg hk]
              exact .inl hnone
      · refine .inr ⟨a :: before, value, behind, rfl, hbehind, ?_⟩
        cases a with
        | number k' v => exact hnames
        | name k' v =>
            rw [namesOf_name, namesOf_name, hnames]
            split <;> rfl

def layOver (buffer value : List UInt8) : List UInt8 := value ++ buffer.drop value.length

namespace ServerSettings

/-- The settings that are numbers agree. -/
structure SameNumbers (s t : ServerSettings) : Prop where
  nWorkers : s.nWorkers = t.nWorkers
  availableMemory : s.availableMemory = t.availableMemory
  maxFileCount : s.maxFileCount = t.maxFileCount
  maxClientCount : s.maxClientCount = t.maxClientCount

theorem SameNumbers.eq {s t : ServerSettings} (h : SameNumbers s t)
    (hbuffer : ∀ k, s.buffer k = t.buffer k) : s = t := by
  have hsocket : s.socketName = t.socketName := hbuffer .socketName
  have hlogfile : s.logfileName = t.logfileName := hbuffer .logfileName
  calc
    s = ⟨s.nWorkers, s.availableMemory, s.maxFileCount, s.socketName, s.logfileName,
          s.maxClientCount⟩ := rfl
    _ = t := by
      rw [h.nWorkers, h.availableMemory, h.maxFileCount, h.maxClientCount, hsocket, hlogfile]

theorem SameNumbers.step {s t : ServerSettings} (h : SameNumbers s t) (a : Assignment) :
    SameNumbers (s.readOver a) (t.assign a) := by
  obtain ⟨hworkers, hmemory, hfiles, hclients⟩ := h
  cases a with
  | number k value =>
      cases k <;> dsimp only [readOver, assign, setNumber]
      · exact ⟨rfl, hmemory, hfiles, hclients⟩
      · exact ⟨hworkers, rfl, hfiles, hclients⟩
      · exact ⟨hworkers, hmemory, hfiles, rfl⟩
      · exact ⟨hworkers, hmemory, rfl, hclients⟩
  | name k value =>
      cases k <;> dsimp only [readOver, assign, freadName, setBuffer]
      · exact ⟨hworkers, hmemory, hfiles, hclients⟩
      · exact ⟨hworkers, hmemory, hfiles, hclients⟩

theorem SameNumbers.foldl (l : List Assignment) {s t : ServerSettings} (h : SameNumbers s t) :
    SameNumbers (l.foldl readOver s) (l.foldl assign t) := by
  induction l generalizing s t with
  | nil => exact h
  | cons a l ih => exact ih (h.step a)

theorem buffer_setBuffer (s : ServerSettings) (k k' : NameSetting) (bytes : List UInt8) :
    (s.setBuffer k' bytes).buffer k = if k' = k then bytes else s.buffer k := by
  cases k <;> cases k' <;> rfl

theorem buffer_setNumber (s : ServerSettings) (k : NameSetting) (k' : NumberSetting) (v : Int) :
    (s.setNumber k' v).buffer k = s.buffer k := by
  cases k <;> cases k' <;> dsimp only [setNumber, buffer]

theorem buffer_foldl_readOver (k : NameSetting) (l : List Assignment) (s : ServerSettings) :
    (l.foldl readOver s).buffer k = (namesOf k l).foldl layOver (s.buffer k) := by
  induction l generalizing s with
  | nil => rfl
  | cons a l ih =>
      rw [List.foldl_cons, ih]
      cases a with
      | number k' value => rw [readOver, buffer_setNumber, namesOf_number]
      | name k' value =>
          rw [readOver, freadName, buffer_setBuffer, namesOf_name]
          by_cases hk : k' = k
          · subst hk
            rw [if_pos rfl, if_pos rfl]
            rfl
          · rw [if_neg hk, if_neg hk]

theorem buffer_foldl_assign (k : NameSetting) (l : List Assignment) (s : ServerSettings) :
    (l.foldl assign s).buffer k =
      (namesOf k l).foldl (fun _ value => cutName value) (s.buffer k) := by
  induction l generalizing s with
  | nil => rfl
  | cons a l ih =>
      rw [List.foldl_cons, ih]
      cases a with
      | number k' value => rw [assign, buffer_setNumber, namesOf_number]
      | name k' value =>
          rw [assign, buffer_setBuffer, namesOf_name]
          by_cases hk : k' = k
          · subst hk
            rw [if_pos rfl, if_pos rfl]
            rfl
          · rw [if_neg hk, if_neg hk]

end ServerSettings

/-- Behind the longest of the names the buffer is what it was. -/
theorem drop_foldl_layOver {values : List (List UInt8)} {n : Nat}
    (h : ∀ value ∈ values, value.length ≤ n) (buffer : List UInt8) :
    (values.foldl layOver buffer).drop n = buffer.drop n := by
  induction values generalizing buffer with
  | nil => rfl
  | cons value values ih =>
      have hvalue := h value List.mem_cons_self
      rw [List.foldl_cons, ih fun v hv => h v (List.mem_cons_of_mem _ hv), layOver,
        List.drop_append, List.drop_eq_nil_of_le hvalue, List.drop_drop, List.nil_append,
        Nat.add_sub_cancel' hvalue]

/-- A byte of the longest name stays in the buffer, where the names are strings. -/
theorem getElem_foldl_layOver {values : List (List UInt8)} {n : Nat}
    (hlong : ∃ value ∈ values, n < value.length) (hstring : ∀ value ∈ values, 0 ∉ value)
    (buffer : List UInt8) : ∃ c, (values.foldl layOver buffer)[n]? = some c ∧ c ≠ 0 := by
  induction values using List.reverseRecOn with
  | nil =>
      obtain ⟨value, hin, -⟩ := hlong
      cases hin
  | append_singleton values value ih =>
      rw [List.foldl_append, List.foldl_cons, List.foldl_nil, layOver]
      by_cases hlen : n < value.length
      · refine ⟨value[n], ?_, fun hzero => ?_⟩
        · rw [List.getElem?_append_left hlen, List.getElem?_eq_getElem hlen]
        · exact hstring value (by simp) (hzero ▸ List.getElem_mem hlen)
      · obtain ⟨v, hin, hv⟩ := hlong
        have hbefore : v ∈ values := by
          rcases List.mem_append.mp hin with hin | hin
          · exact hin
          · rw [List.mem_singleton.mp hin] at hv
            exact absurd hv hlen
        obtain ⟨c, hc, hne⟩ := ih ⟨v, hbefore, hv⟩ fun w hw => hstring w (List.mem_append_left _ hw)
        refine ⟨c, ?_, hne⟩
        rw [List.getElem?_append_right (by omega), List.getElem?_drop,
          Nat.add_sub_cancel' (by omega), hc]

/-- The last of the names stands alone in the buffer exactly where none before it was
longer. -/
theorem foldl_layOver_iff (values : List (List UInt8)) {value : List UInt8}
    (hshort : value.length ≤ 63) :
    ((∀ v ∈ values, v.length ≤ value.length) →
      (values ++ [value]).foldl layOver (List.replicate 64 0) = cutName value) ∧
    ((∀ v ∈ values, 0 ∉ v) →
      (values ++ [value]).foldl layOver (List.replicate 64 0) = cutName value →
      ∀ v ∈ values, v.length ≤ value.length) := by
  rw [List.foldl_append, List.foldl_cons, List.foldl_nil, layOver, cutName,
    List.take_of_length_le hshort]
  refine ⟨fun h => ?_, fun hstring heq v hv => ?_⟩
  · rw [drop_foldl_layOver h, List.drop_replicate]
  · by_contra hlong
    obtain ⟨c, hc, hne⟩ := getElem_foldl_layOver ⟨v, hv, Nat.not_le.mp hlong⟩ hstring
      (List.replicate 64 0)
    have hbyte := congrArg (List.head?) (List.append_cancel_left heq)
    rw [List.head?_drop, hc, List.head?_replicate, if_neg (by omega)] at hbyte
    exact hne (Option.some.inj hbyte)

/-! ## The whole file -/

/-- The lines of a file whose values stand are read as they stand, and its names
laid one over the other. -/
theorem ValuesStand.initServerSettings {config : List UInt8} (hvalue : ValuesStand config)
    (hconfig : config ≠ []) {rounds : Nat} (hrounds : config.length + 2 ≤ rounds) :
    ((∀ l ∈ config.splitOn 10, Fits l) ∧ initServerSettings rounds config .zero =
        .ret (0, (assignments config).foldl ServerSettings.readOver .zero)) ∨
      (¬ ∀ l ∈ config.splitOn 10, Fits l) ∧ initServerSettings rounds config .zero = .exit :=
  loop_lines (f := .fopen config) _ ⟨Nat.zero_le _, .inl rfl⟩ rfl hconfig hvalue.linesStand
    hrounds

theorem short_of_fits {config : List UInt8} (h : ∀ l ∈ config.splitOn 10, Fits l)
    {k : NameSetting} {value : List UInt8} (hname : .name k value ∈ assignments config) :
    value.length ≤ 63 := by
  obtain ⟨line, hin, hassigned⟩ := List.mem_filterMap.mp hname
  exact (h line hin).2 k value hassigned

theorem buffer_zero (k : NameSetting) :
    ServerSettings.zero.buffer k = List.replicate 64 0 := by
  cases k <;> rfl

theorem readOver_eq_assign_iff (l : List Assignment) :
    l.foldl ServerSettings.readOver .zero = l.foldl ServerSettings.assign .zero ↔
      ∀ k, (namesOf k l).foldl layOver (List.replicate 64 0) =
        (namesOf k l).foldl (fun _ value => cutName value) (List.replicate 64 0) := by
  constructor
  · intro heq k
    have hbuffer := congrArg (·.buffer k) heq
    rw [ServerSettings.buffer_foldl_readOver, ServerSettings.buffer_foldl_assign,
      buffer_zero] at hbuffer
    exact hbuffer
  · intro h
    have hsame : ServerSettings.SameNumbers .zero .zero := ⟨rfl, rfl, rfl, rfl⟩
    refine (hsame.foldl l).eq fun k => ?_
    rw [ServerSettings.buffer_foldl_readOver, ServerSettings.buffer_foldl_assign, buffer_zero]
    exact h k

theorem ReadByLine.names {config : List UInt8} (h : ReadByLine config) (k : NameSetting) :
    (namesOf k (assignments config)).foldl layOver (List.replicate 64 0) =
      (namesOf k (assignments config)).foldl (fun _ value => cutName value)
        (List.replicate 64 0) := by
  obtain hnone | ⟨before, value, behind, hsplit, hbehind, hnames⟩ :=
    namesOf_last k (assignments config)
  · rw [hnone]
    rfl
  · have hshort : value.length ≤ 63 := short_of_fits h.fits (k := k) (by rw [hsplit]; simp)
    have hlongest := h.longest before k value behind hsplit fun value' hin => by
      rw [← mem_namesOf, hbehind] at hin
      cases hin
    rw [hnames, (foldl_layOver_iff _ hshort).1 fun v hv => hlongest v (mem_namesOf.mp hv),
      List.foldl_append]
    rfl

/-- Where the lines are read as they stand, the settings are those of the reading by
lines. Where the values stand, and the names are strings, only there. -/
theorem settings_by_line {config : List UInt8} (hconfig : config ≠ []) {rounds : Nat}
    (hrounds : config.length + 2 ≤ rounds) :
    (ReadByLine config →
      initServerSettings rounds config .zero = .ret (0, settingsByLine config)) ∧
    (ValuesStand config → (∀ k value, .name k value ∈ assignments config → 0 ∉ value) →
      initServerSettings rounds config .zero = .ret (0, settingsByLine config) →
      ReadByLine config) := by
  constructor
  · intro h
    obtain ⟨-, hread⟩ | ⟨hunfit, -⟩ := h.value.initServerSettings hconfig hrounds
    · rw [hread, (readOver_eq_assign_iff _).mpr h.names, settingsByLine]
    · exact absurd h.fits hunfit
  · intro hvalue hstring heq
    obtain ⟨hfits, hread⟩ | ⟨-, hexit⟩ := hvalue.initServerSettings hconfig hrounds
    · refine ⟨hvalue, hfits, ?_⟩
      intro before k value behind hsplit hlast value' hin
      have hsettings : (assignments config).foldl ServerSettings.readOver .zero =
          settingsByLine config := by
        rw [hread] at heq
        injection heq with heq
        exact (Prod.mk.inj heq).2
      have hnames : namesOf k (assignments config) = namesOf k before ++ [value] := by
        have hbehind : namesOf k behind = [] :=
          List.eq_nil_iff_forall_not_mem.mpr fun v hv => hlast v (mem_namesOf.mp hv)
        rw [hsplit, namesOf, List.filterMap_append, ← namesOf, ← namesOf, namesOf_name,
          if_pos rfl, hbehind]
      have hbuffer := (readOver_eq_assign_iff _).mp hsettings k
      have hcut : (namesOf k before ++ [value]).foldl (fun _ v => cutName v)
          (List.replicate 64 0) = cutName value := by
        rw [List.foldl_append]
        rfl
      rw [hnames, hcut] at hbuffer
      have hshort : value.length ≤ 63 := short_of_fits hfits (k := k) (by rw [hsplit]; simp)
      refine (foldl_layOver_iff (namesOf k before) hshort).2 ?_ hbuffer value'
        (mem_namesOf.mpr hin)
      · intro v hv
        refine hstring k v ?_
        rw [hsplit]
        exact List.mem_append_left _ (mem_namesOf.mp hv)
    · rw [hexit] at heq
      cases heq

/-- A comment, a blank line, `NWORKERS=4` and `LOGFILE_NAME=ab`. -/
def fourLines : List UInt8 :=
  [35, 97, 10, 10, 78, 87, 79, 82, 75, 69, 82, 83, 61, 52, 10,
    76, 79, 71, 70, 73, 76, 69, 95, 78, 65, 77, 69, 61, 97, 98]

theorem readByLine_fourLines : ReadByLine fourLines := by
  have hsplit : fourLines.splitOn 10 = [[35, 97], [], [78, 87, 79, 82, 75, 69, 82, 83, 61, 52],
      [76, 79, 71, 70, 73, 76, 69, 95, 78, 65, 77, 69, 61, 97, 98]] := by decide
  have hassigned : assignments fourLines =
      [.number .nWorkers 4, .name .logfileName [97, 98]] := by decide
  refine ⟨fun before line behind h hentry => .inl ?_, ?_, ?_⟩
  · have hmem : line ∈ fourLines.splitOn 10 := by
      rw [h]
      simp
    rw [hsplit] at hmem
    simp only [List.mem_cons, List.not_mem_nil, or_false] at hmem
    rcases hmem with rfl | rfl | rfl | rfl
    · exact absurd rfl hentry.2
    · exact absurd rfl hentry.1
    · exact ⟨52, by decide, by decide⟩
    · show valueOf _ ≠ []
      decide
  · rw [hsplit]
    simp only [List.forall_mem_cons, List.not_mem_nil, false_implies, implies_true, and_true]
    refine ⟨⟨fun _ => by decide, fun k value h => by cases h⟩,
      ⟨fun _ => by decide, fun k value h => by cases h⟩,
      ⟨fun _ => by decide, fun k value h => by cases h⟩, fun _ => by decide, fun k value h => ?_⟩
    cases h
    decide
  · intro before k value behind h _ value' hmem
    have hlast : value' ∈ [[97, 98]] := by
      have hin : Assignment.name k value' ∈ assignments fourLines := by
        rw [h]
        exact List.mem_append_left _ hmem
      rw [hassigned] at hin
      simp only [List.mem_cons, reduceCtorEq, Assignment.name.injEq, List.not_mem_nil, or_false,
        false_or] at hin
      exact List.mem_singleton.mpr hin.2
    have hvalue : value ∈ [[97, 98]] := by
      have hin : Assignment.name k value ∈ assignments fourLines := by
        rw [h]
        simp
      rw [hassigned] at hin
      simp only [List.mem_cons, reduceCtorEq, Assignment.name.injEq, List.not_mem_nil, or_false,
        false_or] at hin
      exact List.mem_singleton.mpr hin.2
    rw [List.mem_singleton.mp hlast, List.mem_singleton.mp hvalue]

theorem settings_by_line_four :
    initServerSettings 32 fourLines .zero = .ret (0, settingsByLine fourLines) ∧
      settingsByLine fourLines = ({ ServerSettings.zero with nWorkers := 4 }.setBuffer .logfileName
        (97 :: 98 :: List.replicate 62 0)) :=
  ⟨(settings_by_line (by nofun) (by decide)).1 readByLine_fourLines, by decide⟩

/-- A blank line before `NWORKERS = 4`, in a file whose lines end with a carriage
return and a newline: the separators that are skipped reach into the next line, and
the rest of that one is dropped. -/
theorem settings_line_swallowed :
    initServerSettings 18 [13, 10, 78, 87, 79, 82, 75, 69, 82, 83, 32, 61, 32, 52, 13, 10] .zero =
        .ret (0, .zero) ∧
      settingsByLine [13, 10, 78, 87, 79, 82, 75, 69, 82, 83, 32, 61, 32, 52, 13, 10] =
        { ServerSettings.zero with nWorkers := 4 } ∧
      { ServerSettings.zero with nWorkers := 4 } ≠ ServerSettings.zero := by
  decide

/-- `LOGFILE_NAME=ab` and then `LOGFILE_NAME=c`: the buffer holds `cb`. -/
example :
    initServerSettings 40
        [76, 79, 71, 70, 73, 76, 69, 95, 78, 65, 77, 69, 61, 97, 98, 10,
          76, 79, 71, 70, 73, 76, 69, 95, 78, 65, 77, 69, 61, 99] .zero =
        .ret (0, ServerSettings.zero.setBuffer .logfileName (99 :: 98 :: List.replicate 62 0)) ∧
      settingsByLine
        [76, 79, 71, 70, 73, 76, 69, 95, 78, 65, 77, 69, 61, 97, 98, 10,
          76, 79, 71, 70, 73, 76, 69, 95, 78, 65, 77, 69, 61, 99] =
        ServerSettings.zero.setBuffer .logfileName (99 :: List.replicate 63 0) := by
  decide

end LsoStore
