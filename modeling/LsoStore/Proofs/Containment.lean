import LsoStore.Lib.PathName
import LsoStore.Proofs.Notices

/-!
# Where delivered files are saved

`sapi_evict` and `readNFiles` put the destination of a file together from the
folder and the path the server delivers, the second without a slash in between,
and hand it to `fu_write_to_path` as it is. The path is another client's choice.

The two loops are taken apart from `fu_write_to_path` here, so that a run can
note what it is handed. In every run the destinations are inside the folder
exactly when each path, taken from the folder on, comes back into it from all
the directories it goes up to.
-/

namespace LsoStore

open Proc

/-! ## The loops for any `fu_write_to_path` -/

section With

variable (write : List UInt8 → List UInt8 → List UInt8 → ClientM Int)

/-- `sapiEvictLoop`, where `write` is told the path besides the destination. -/
def sapiEvictLoopWith (dirname : List UInt8) : Nat → Nat → ClientM Int
  | 0, _ => .fault
  | rounds + 1, tempdatalen => do
      if (← sapiGetResponse) ≠ sapiEvictMsg then .ret 0
      else
        match ← sapiGetPath with
        | none => .ret (-1)
        | some path =>
            suAppendChars [] dirname fun destpath =>
            suAppendChars destpath [47] fun destpath =>
            suAppendChars destpath path fun destpath => do
              match ← sapiGetData tempdatalen with
              | (none, tempdatalen) => sapiEvictLoopWith dirname rounds tempdatalen
              | (some tempdata, tempdatalen) =>
                  let _ ← write path destpath tempdata
                  sapiEvictLoopWith dirname rounds tempdatalen

def sapiEvictWith (rounds : Nat) (dirname : List UInt8) : ClientM Int := do
  if (← sapiSenddatalen 1) ≠ 0 then .ret (-1)
  else sapiEvictLoopWith write dirname rounds 0

/-- `readNFilesRounds` likewise. -/
def readNFilesRoundsWith (dirname : List UInt8) : Nat → Int → Nat → ClientM Int
  | 0, _, _ => .fault
  | rounds + 1, nfilesReaden, size => do
      match ← sapiGetPath with
      | none => .exit
      | some path =>
          if path.length = 0 then .ret nfilesReaden
          else
            suAppendChars [] dirname fun destpath =>
            suAppendChars destpath path fun destpath => do
              match ← sapiGetData size with
              | (none, size) => readNFilesRoundsWith dirname rounds nfilesReaden size
              | (some buff, size) => do
                  if (← write path destpath buff) = -1 then
                    readNFilesRoundsWith dirname rounds nfilesReaden size
                  else readNFilesRoundsWith dirname rounds (nfilesReaden + 1) size

def readNFilesWith (rounds n : Nat) (dirname : Option (List UInt8)) : ClientM Int :=
  if n = 0 then .ret 0
  else
    match dirname with
    | none => .ret (-1)
    | some dirname => do
        if (← sapiSendop n sapiReadNFiles 0) = -1 then .ret (-1)
        else readNFilesRoundsWith write dirname rounds 0 0

end With

section Same

variable (disk : Disk)

theorem sapiEvictLoop_eq_with (dirname : List UInt8) (rounds tempdatalen : Nat) :
    sapiEvictLoop disk dirname rounds tempdatalen =
      sapiEvictLoopWith (fun _ => fuWriteToPath disk) dirname rounds tempdatalen := by
  induction rounds generalizing tempdatalen with
  | zero => rfl
  | succ rounds ih =>
      have hrec := funext ih
      rw [sapiEvictLoop, sapiEvictLoopWith]
      generalize sapiEvictLoop disk dirname rounds = loop at hrec ⊢
      subst hrec
      rfl

/-- With the real `fu_write_to_path` they are the two calls. -/
theorem sapiEvict_eq_with (rounds : Nat) (dirname : List UInt8) :
    sapiEvict disk rounds dirname =
      sapiEvictWith (fun _ => fuWriteToPath disk) rounds dirname := by
  simp only [sapiEvict, sapiEvictWith, sapiEvictLoop_eq_with]

theorem readNFilesRounds_eq_with (dirname : List UInt8) (rounds : Nat) (nfilesReaden : Int)
    (size : Nat) :
    readNFilesRounds disk dirname rounds nfilesReaden size =
      readNFilesRoundsWith (fun _ => fuWriteToPath disk) dirname rounds nfilesReaden size := by
  induction rounds generalizing nfilesReaden size with
  | zero => rfl
  | succ rounds ih =>
      have hrec := funext₂ ih
      rw [readNFilesRounds, readNFilesRoundsWith]
      generalize readNFilesRounds disk dirname rounds = loop at hrec ⊢
      subst hrec
      rfl

theorem readNFiles_eq_with (rounds n : Nat) (dirname : Option (List UInt8)) :
    readNFiles disk rounds n dirname =
      readNFilesWith (fun _ => fuWriteToPath disk) rounds n dirname := by
  cases dirname with
  | none => rfl
  | some dirname =>
      rw [readNFiles, readNFilesWith, readNFilesRounds_eq_with]

end Same

/-! ## What a run hands on -/

/-- A `fu_write_to_path` that notes the path and the destination, and returns
what it likes. -/
def noteWrite (result : List UInt8 → List UInt8 → Int) (path destpath data : List UInt8) :
    ClientM Int :=
  .get fun handed => .set (handed ++ [(path, destpath)]) (.ret (result destpath data))

/-- Each destination is the one of its path. -/
def HandedAs (dest : List UInt8 → List UInt8) (w : World Saved Empty) : Prop :=
  ∀ s ∈ w.st, s.2 = dest s.1

section Runs

variable {α : Type} {w : World Saved Empty} {I : World Saved Empty → Prop} {rounds n size : Nat}
  {dirname string literal path destpath data : List UInt8} {nfilesReaden : Int}
  {result : List UInt8 → List UInt8 → Int} {dest : List UInt8 → List UInt8}

theorem suAppendChars_keeps {k : List UInt8 → ClientM α} (hw : I w)
    (hk : (k (string ++ literal)).Ensures w fun _ _ w' => I w') :
    (suAppendChars string literal k).Ensures w fun _ _ w' => I w' := by
  rw [suAppendChars]
  split
  · next h0 => rwa [List.length_eq_zero_iff.mp h0, List.append_nil] at hk
  · rw [muRealloc]
    split
    · exact ensures_exit.mpr hw
    · exact hk

theorem sapiGetResponse_keeps (hw : I w) : sapiGetResponse.Ensures w fun _ _ w' => I w' := by
  rw [sapiGetResponse, ensures_read]
  intro r _
  cases r with
  | none => exact ensures_ret.mpr hw
  | some bs =>
      dsimp only
      split
      · exact ensures_unspec.mpr fun _ => ensures_ret.mpr hw
      · exact ensures_ret.mpr hw

theorem sapiGetPath_keeps (hw : I w) : sapiGetPath.Ensures w fun _ _ w' => I w' := by
  rw [sapiGetPath, ensures_read]
  intro r _
  cases r with
  | none => exact ensures_ret.mpr hw
  | some bs =>
      dsimp only
      split
      · exact ensures_ret.mpr hw
      · split
        · exact ensures_fault.mpr hw
        · rw [muRealloc]
          split
          · exact ensures_exit.mpr hw
          · rw [ensures_read]
            intro r _
            cases r with
            | none => exact ensures_ret.mpr hw
            | some bs =>
                dsimp only
                split
                · exact ensures_unspec.mpr fun _ => ensures_ret.mpr hw
                · exact ensures_ret.mpr hw

theorem sapiGetData_keeps (hw : I w) (size : Nat) :
    (sapiGetData size).Ensures w fun _ _ w' => I w' := by
  rw [sapiGetData, ensures_read]
  intro r _
  cases r with
  | none => exact ensures_ret.mpr hw
  | some bs =>
      dsimp only
      split
      · rw [muRealloc]
        split
        · exact ensures_exit.mpr hw
        · rw [ensures_read]
          intro r _
          cases r with
          | none => exact ensures_ret.mpr hw
          | some bs => exact ensures_ret.mpr hw
      · exact ensures_ret.mpr hw

theorem noteWrite_keeps (hw : HandedAs dest w) (hdest : destpath = dest path) :
    (noteWrite result path destpath data).Ensures w fun _ _ w' => HandedAs dest w' := by
  rw [noteWrite, ensures_get, ensures_set, ensures_ret]
  intro s hs
  rcases List.mem_append.mp hs with hs | hs
  · exact hw s hs
  · obtain rfl := List.mem_singleton.mp hs
    exact hdest

theorem sapiEvictLoopWith_keeps (hw : HandedAs (destPath dirname) w) :
    (sapiEvictLoopWith (noteWrite result) dirname rounds n).Ensures w
      fun _ _ w' => HandedAs (destPath dirname) w' := by
  induction rounds generalizing n w with
  | zero => exact ensures_fault.mpr hw
  | succ rounds ih =>
      rw [sapiEvictLoopWith]
      refine (sapiGetResponse_keeps hw).bind_always fun m w hw => ?_
      split
      · exact ensures_ret.mpr hw
      · refine (sapiGetPath_keeps hw).bind_always fun path w hw => ?_
        cases path with
        | none => exact ensures_ret.mpr hw
        | some path =>
            refine suAppendChars_keeps hw (suAppendChars_keeps hw (suAppendChars_keeps hw ?_))
            refine (sapiGetData_keeps hw n).bind_always fun r w hw => ?_
            split
            · exact ih hw
            · exact (noteWrite_keeps hw rfl).bind_always fun _ w hw => ih hw

theorem readNFilesRoundsWith_keeps (hw : HandedAs (dirname ++ ·) w) :
    (readNFilesRoundsWith (noteWrite result) dirname rounds nfilesReaden size).Ensures w
      fun _ _ w' => HandedAs (dirname ++ ·) w' := by
  induction rounds generalizing nfilesReaden size w with
  | zero => exact ensures_fault.mpr hw
  | succ rounds ih =>
      rw [readNFilesRoundsWith]
      refine (sapiGetPath_keeps hw).bind_always fun path w hw => ?_
      cases path with
      | none => exact ensures_exit.mpr hw
      | some path =>
          dsimp only
          split
          · exact ensures_ret.mpr hw
          · refine suAppendChars_keeps hw (suAppendChars_keeps hw ?_)
            refine (sapiGetData_keeps hw size).bind_always fun r w hw => ?_
            split
            · exact ih hw
            · refine (noteWrite_keeps hw rfl).bind_always fun res w hw => ?_
              split
              · exact ih hw
              · exact ih hw

theorem sapiEvictWith_keeps (hw : HandedAs (destPath dirname) w) :
    (sapiEvictWith (noteWrite result) rounds dirname).Ensures w
      fun _ _ w' => HandedAs (destPath dirname) w' := by
  have hsend : (sapiSenddatalen 1).Ensures w fun _ _ w' => HandedAs (destPath dirname) w' :=
    ensures_write.mpr fun _ => ensures_ret.mpr hw
  rw [sapiEvictWith]
  refine hsend.bind_always fun sent w hw => ?_
  split
  · exact ensures_ret.mpr hw
  · exact sapiEvictLoopWith_keeps hw

theorem readNFilesWith_keeps (hw : HandedAs (dirname ++ ·) w) :
    (readNFilesWith (noteWrite result) rounds n (some dirname)).Ensures w
      fun _ _ w' => HandedAs (dirname ++ ·) w' := by
  have hsend : (sapiSendop n sapiReadNFiles 0).Ensures w
      fun _ _ w' => HandedAs (dirname ++ ·) w' :=
    ensures_write.mpr fun _ => ensures_ret.mpr hw
  rw [readNFilesWith]
  split
  · exact ensures_ret.mpr hw
  · refine hsend.bind_always fun sent w hw => ?_
    split
    · exact ensures_ret.mpr hw
    · exact readNFilesRoundsWith_keeps hw

end Runs

/-! ## Inside the folder -/

/-- The directory or file a path stands for, its `.` and `..` resolved. -/
def resolved (path : List UInt8) : List (List UInt8) := PathName.resolve 47 46 path

def SavedBelow (dirname destpath : List UInt8) : Prop :=
  PathName.Below (resolved dirname) (resolved destpath)

instance (dirname destpath : List UInt8) : Decidable (SavedBelow dirname destpath) :=
  inferInstanceAs (Decidable (PathName.Below _ _))

/-- Where `sapi_evict` goes from the folder. -/
def evictWay (path : List UInt8) : PathName.Net (List UInt8) :=
  PathName.net (PathName.moves 47 46 path)

/-- Where `readNFiles` goes from the folder: back over its last component, and
then along that component and the path as one. -/
def readWay (dirname path : List UInt8) : PathName.Net (List UInt8) :=
  PathName.net
    (PathName.back (resolved (PathName.folder 47 dirname))
        (PathName.move 46 (PathName.last 47 dirname)) ++
      PathName.moves 47 46 (PathName.last 47 dirname ++ path))

section Inside

variable {dirname path : List UInt8}

theorem savedBelow_destPath_iff :
    SavedBelow dirname (destPath dirname path) ↔ (evictWay path).Returns (resolved dirname) := by
  have hdest : destPath dirname path = dirname ++ 47 :: path := by
    rw [destPath, List.append_assoc, List.singleton_append]
  rw [SavedBelow, hdest, resolved, resolved, PathName.resolve_append_slash,
    PathName.below_go_iff]
  rfl

theorem savedBelow_append_iff :
    SavedBelow dirname (dirname ++ path) ↔
      (readWay dirname path).Returns (resolved dirname) := by
  rw [SavedBelow, resolved, resolved, PathName.resolve_append, PathName.below_go_iff]
  rfl

end Inside

/-- In every run, the destinations that `fu_write_to_path` is handed are inside
the folder exactly when the way of each path returns to it. -/
theorem saved_below_iff (result : List UInt8 → List UInt8 → Int) (rounds n : Nat)
    (dirname : List UInt8) :
    (∀ tr o w, (sapiEvictWith (noteWrite result) rounds dirname).Runs ⟨[], ∅⟩ tr o w →
      ((∀ s ∈ w.st, SavedBelow dirname s.2) ↔
        ∀ s ∈ w.st, (evictWay s.1).Returns (resolved dirname))) ∧
    ∀ tr o w,
      (readNFilesWith (noteWrite result) rounds n (some dirname)).Runs ⟨[], ∅⟩ tr o w →
      ((∀ s ∈ w.st, SavedBelow dirname s.2) ↔
        ∀ s ∈ w.st, (readWay dirname s.1).Returns (resolved dirname)) := by
  have hnone : ∀ dest, HandedAs dest ⟨[], ∅⟩ := fun _ _ h => absurd h List.not_mem_nil
  constructor
  · intro tr o w hr
    have hhanded := sapiEvictWith_keeps (hnone _) tr o w hr
    refine forall₂_congr fun s hs => ?_
    rw [hhanded s hs, savedBelow_destPath_iff]
  · intro tr o w hr
    have hhanded := readNFilesWith_keeps (hnone _) tr o w hr
    refine forall₂_congr fun s hs => ?_
    rw [hhanded s hs, savedBelow_append_iff]

/-- One file with the path `path` is delivered, in an eviction or on request. -/
def deliversOne (path : List UInt8) : List (Event Empty) :=
  [.read 8 (some (LittleEndian.encode 8 path.length)), .read path.length (some path),
    .read 8 (some (LittleEndian.encode 8 1)), .read 1 (some [1])]

def evictsOne (path : List UInt8) : List (Event Empty) :=
  [.write (.size 1) true, .read 4 (some (LittleEndian.encode 4 sapiEvictMsg.toNat))] ++
    deliversOne path ++ [.read 4 (some (LittleEndian.encode 4 sapiSuccess.toNat))]

def readsOne (path : List UInt8) : List (Event Empty) :=
  [.write (.word (sapiMessageLen 0 sapiReadNFiles 1)) true] ++ deliversOne path ++
    [.read 8 (some (LittleEndian.encode 8 0))]

theorem saved_below_iff_one :
    ((∀ s ∈ ([([97], [47, 100, 47, 97])] : Saved), SavedBelow [47, 100] s.2) ↔
      ∀ s ∈ ([([97], [47, 100, 47, 97])] : Saved),
        (evictWay s.1).Returns (resolved [47, 100])) ∧
    ((∀ s ∈ ([([97], [47, 100, 97])] : Saved), SavedBelow [47, 100] s.2) ↔
      ∀ s ∈ ([([97], [47, 100, 97])] : Saved),
        (readWay [47, 100] s.1).Returns (resolved [47, 100])) :=
  ⟨(saved_below_iff (fun _ _ => 0) 2 1 [47, 100]).1 (evictsOne [97]) (.ret 0)
      ⟨[([97], [47, 100, 47, 97])], ∅⟩ rfl,
    (saved_below_iff (fun _ _ => 0) 2 1 [47, 100]).2 (readsOne [97]) .exit
      ⟨[([97], [47, 100, 97])], ∅⟩ rfl⟩

/-- A disk that takes any file. -/
def writableDisk : Disk := ⟨fun _ => none, fun _ => true⟩

/-- Given the folder `/d`, an eviction saves `/../x` as `/x`, and `readNFiles`
saves `a` as `/da`. -/
theorem saved_outside :
    ((sapiEvict writableDisk 2 [47, 100]).Runs ⟨[], ∅⟩ (evictsOne [47, 46, 46, 47, 120]) (.ret 0)
        ⟨[([47, 100, 47, 47, 46, 46, 47, 120], [1])], ∅⟩ ∧
      ¬ SavedBelow [47, 100] [47, 100, 47, 47, 46, 46, 47, 120]) ∧
    (readNFiles writableDisk 2 1 (some [47, 100])).Runs ⟨[], ∅⟩ (readsOne [97]) .exit
        ⟨[([47, 100, 97], [1])], ∅⟩ ∧
      ¬ SavedBelow [47, 100] [47, 100, 97] :=
  ⟨⟨rfl, by decide⟩, rfl, by decide⟩

end LsoStore
