import Mathlib.Algebra.Group.Int.Defs
import LsoStore.Proofs.SettingsLines

/-!
# The numbers in the settings

A number is read as an `int`. `n_workers` keeps 16 bits of it, and the capacity is
shifted by 20 within 32; `init_server_infos` takes what is left. Nothing looks at
what was lost, so the server runs with other numbers than those it was given, from
2 ^ 16 workers and from 2 ^ 12 megabytes on.
-/

namespace LsoStore

open CFile

/-! ## What has been assigned -/

theorem getSetting_assigns {str : List UInt8} {f g : CFile} {setts setts' : ServerSettings}
    (h : getSetting str f setts = .ret (setts', g)) :
    ∃ l : List Assignment, setts' = l.foldl ServerSettings.readOver setts := by
  rw [getSetting] at h
  split at h
  · injection h with h
    exact ⟨[], (Prod.mk.inj h).1.symm⟩
  · split at h
    · injection h with h
      exact ⟨[], (Prod.mk.inj h).1.symm⟩
    · next k _ =>
        split at h
        · injection h with h
          exact ⟨[], (Prod.mk.inj h).1.symm⟩
        · next v _ _ =>
            injection h with h
            exact ⟨[.number k v], (Prod.mk.inj h).1.symm⟩
    · next k _ =>
        rw [getName_eq] at h
        split at h
        · injection h with h
          exact ⟨[.name k _], (Prod.mk.inj h).1.symm⟩
        · cases h

theorem settingsRound_assigns {f g : CFile} {setts setts' : ServerSettings}
    (h : settingsRound f setts = .ret (some (setts', g))) :
    ∃ l : List Assignment, setts' = l.foldl ServerSettings.readOver setts := by
  rw [settingsRound] at h
  split at h
  · injection h with h
    exact ⟨[], (Prod.mk.inj (Option.some.inj h)).1.symm⟩
  · injection h with h
    exact ⟨[], (Prod.mk.inj (Option.some.inj h)).1.symm⟩
  · split at h
    · cases h
    · split at h
      · cases h
      · split at h
        · next hget =>
            obtain ⟨l, hl⟩ := getSetting_assigns hget
            injection h with h
            exact ⟨l, (Prod.mk.inj (Option.some.inj h)).1.symm.trans hl⟩
        · cases h
        · cases h
        · cases h
      · cases h
      · cases h
      · cases h

/-- The settings are what has been assigned, one after the other. -/
theorem initServerSettingsLoop_assigns {rounds : Nat} {f : CFile} {r : Int}
    {setts setts' : ServerSettings}
    (h : initServerSettingsLoop rounds f setts = .ret (r, setts')) :
    ∃ l : List Assignment, setts' = l.foldl ServerSettings.readOver setts := by
  induction rounds generalizing f setts with
  | zero => cases h
  | succ rounds ih =>
      rw [initServerSettingsLoop] at h
      split at h
      · injection h with h
        exact ⟨[], (Prod.mk.inj h).2.symm⟩
      · split at h
        · injection h with h
          exact ⟨[], (Prod.mk.inj h).2.symm⟩
        · next hround =>
            obtain ⟨l, hl⟩ := settingsRound_assigns hround
            obtain ⟨l', hl'⟩ := ih h
            exact ⟨l ++ l', by rw [List.foldl_append, ← hl, ← hl']⟩
        · cases h
        · cases h
        · cases h

/-! ## The last number -/

/-- The numbers that are assigned to one setting. -/
def numbersOf (k : NumberSetting) (l : List Assignment) : List Int :=
  l.filterMap fun
    | .number k' value => if k' = k then some value else none
    | .name _ _ => none

theorem numbersOf_concat (k : NumberSetting) (l : List Assignment) (a : Assignment) :
    numbersOf k (l ++ [a]) = numbersOf k l ++
      match a with
      | .number k' value => if k' = k then [value] else []
      | .name _ _ => [] := by
  rw [numbersOf, List.filterMap_append, ← numbersOf]
  cases a with
  | number k' value =>
      by_cases hk : k' = k
      · subst hk
        simp
      · simp [hk]
  | name k' value => rfl

namespace ServerSettings

/-- What a setting holds once a number was assigned to it. -/
def Holds (setts : ServerSettings) (k : NumberSetting) (value : Int) : Prop :=
  match k with
  | .nWorkers => setts.nWorkers = BitVec.ofInt 16 value
  | .capacity => setts.availableMemory = BitVec.ofInt 32 value <<< 20
  | .clientMax => setts.maxClientCount = BitVec.ofInt 32 value
  | .fileCapacity => setts.maxFileCount = BitVec.ofInt 32 value

theorem holds_setNumber (setts : ServerSettings) (k : NumberSetting) (value : Int) :
    (setts.setNumber k value).Holds k value := by
  cases k <;> dsimp only [Holds, ServerSettings.setNumber]

theorem Holds.setNumber {setts : ServerSettings} {k k' : NumberSetting} {value : Int}
    (h : setts.Holds k value) (hk : k' ≠ k) (value' : Int) :
    (setts.setNumber k' value').Holds k value := by
  cases k <;> cases k' <;> dsimp only [Holds, ServerSettings.setNumber] at h ⊢ <;>
    first | exact absurd rfl hk | exact h

theorem Holds.freadName {setts : ServerSettings} {k : NumberSetting} {value : Int}
    (h : setts.Holds k value) (k' : NameSetting) (bytes : List UInt8) :
    (setts.freadName k' bytes).Holds k value := by
  cases k <;> cases k' <;> dsimp only [Holds, ServerSettings.freadName, setBuffer] at h ⊢ <;>
    exact h

/-- The last number that is assigned to a setting is the one it holds. -/
theorem holds_last {k : NumberSetting} {value : Int} {l : List Assignment}
    (h : (numbersOf k l).getLast? = some value) (setts : ServerSettings) :
    (l.foldl readOver setts).Holds k value := by
  induction l using List.reverseRecOn with
  | nil => cases h
  | append_singleton l a ih =>
      rw [List.foldl_append]
      show ((l.foldl readOver setts).readOver a).Holds k value
      rw [numbersOf_concat] at h
      cases a with
      | number k' v =>
          by_cases hk : k' = k
          · subst hk
            dsimp only at h
            rw [if_pos rfl, List.getLast?_concat] at h
            obtain rfl := Option.some.inj h
            exact holds_setNumber _ _ _
          · dsimp only at h
            rw [if_neg hk, List.append_nil] at h
            exact (ih h).setNumber hk v
      | name k' v =>
          dsimp only at h
          rw [List.append_nil] at h
          exact (ih h).freadName k' v

end ServerSettings

/-! ## The server that runs -/

theorem callocArray_eq_some {α : Type} {count size : Nat} {k : Option α} {a : α}
    (h : callocArray count size k = some a) : k = some a := by
  rw [callocArray] at h
  split at h
  · cases h
  · exact h

/-- A server that runs has taken its settings over. -/
theorem initServerInfos_some {setts : ServerSettings} {infos : ServerInfos}
    (h : initServerInfos setts = some infos) :
    infos.nWorkers = setts.nWorkers.toNat ∧ infos.pollArr.maxlen = setts.maxClientCount.toNat ∧
      FileStorage.fuInitFileStorage setts.maxFileCount.toNat setts.availableMemory.toNat =
        some infos.storage := by
  rw [initServerInfos] at h
  have h := callocArray_eq_some <| callocArray_eq_some <| callocArray_eq_some <|
    callocArray_eq_some <| callocArray_eq_some h
  obtain ⟨storage, hstorage, rfl⟩ := Option.map_eq_some_iff.mp h
  exact ⟨rfl, rfl, hstorage⟩

/-- A storage without room for files or bytes is the zeroed one. -/
theorem fuInitFileStorage_some {maxFiles maxBytes : Nat} {s : FileStorage}
    (h : FileStorage.fuInitFileStorage maxFiles maxBytes = some s) :
    s.maxBytes = (if maxFiles = 0 then 0 else maxBytes) ∧
      (maxBytes ≠ 0 → s.maxFiles = maxFiles) := by
  rw [FileStorage.fuInitFileStorage, FileStorage.fuInitFileStorageWith] at h
  split at h
  · next hzero =>
      obtain rfl := Option.some.inj h
      refine ⟨?_, fun hbytes => (hzero.resolve_right hbytes).symm⟩
      split
      · rfl
      · next hfiles => exact (hzero.resolve_left hfiles).symm
  · next hroom =>
      dsimp only at h
      split at h
      · cases h
      · obtain rfl := Option.some.inj h
        exact ⟨(if_neg fun hfiles => hroom (.inl hfiles)).symm, fun _ => rfl⟩

theorem toNat_ofInt_of_nonneg {w : Nat} {v : Int} (h : 0 ≤ v) :
    (BitVec.ofInt w v).toNat = v.toNat % 2 ^ w := by
  obtain ⟨n, rfl⟩ := Int.eq_ofNat_of_zero_le h
  rw [BitVec.toNat_ofInt, ← Int.natCast_emod, Int.toNat_natCast, Int.toNat_natCast]

/-- The numbers a running server has are those of its settings, exactly where they fit
the 16 bits of `n_workers` and, shifted, the 32 of `available_Memory`. -/
theorem running_numbers_iff {setts : ServerSettings} {n c f m : Int}
    (hn : setts.Holds .nWorkers n) (hc : setts.Holds .capacity c)
    (hf : setts.Holds .fileCapacity f) (hm : setts.Holds .clientMax m)
    (hnpos : 0 < n) (hcpos : 0 < c) (hfpos : 0 < f) (hmpos : 0 < m)
    (hf32 : f < 2 ^ 31) (hm32 : m < 2 ^ 31) {infos : ServerInfos}
    (hrun : initServerInfos setts = some infos) :
    ((infos.nWorkers = n ∧ infos.nWorkers ≠ 0) ∧ infos.storage.maxBytes = c * 2 ^ 20 ∧
      infos.storage.maxFiles = f ∧ infos.pollArr.maxlen = m) ↔ n < 2 ^ 16 ∧ c < 2 ^ 12 := by
  obtain ⟨hworkers, hpoll, hstorage⟩ := initServerInfos_some hrun
  obtain ⟨hbytes, hfiles⟩ := fuInitFileStorage_some hstorage
  have hworkers16 : setts.nWorkers.toNat = n.toNat % 2 ^ 16 := by
    rw [show setts.nWorkers = _ from hn, toNat_ofInt_of_nonneg hnpos.le]
  have hmemory : setts.availableMemory.toNat = c.toNat % 2 ^ 32 * 2 ^ 20 % 2 ^ 32 := by
    rw [show setts.availableMemory = _ from hc, BitVec.toNat_shiftLeft, Nat.shiftLeft_eq,
      toNat_ofInt_of_nonneg hcpos.le]
  have hcount : setts.maxFileCount.toNat = f.toNat := by
    rw [show setts.maxFileCount = _ from hf, toNat_ofInt_of_nonneg hfpos.le]
    omega
  have hclients : setts.maxClientCount.toNat = m.toNat := by
    rw [show setts.maxClientCount = _ from hm, toNat_ofInt_of_nonneg hmpos.le]
    omega
  rw [hmemory, hcount, if_neg (by omega)] at hbytes
  rw [hmemory, hcount] at hfiles
  rw [hworkers, hworkers16, hpoll, hclients, hbytes]
  constructor
  · intro h
    omega
  · intro h
    have hroom := hfiles (by omega)
    omega

/-- The settings are made of assignments, those of the lines where the values stand.
The last numbers that were assigned are those the running server has exactly where
they fit. -/
theorem settings_survive_iff {config : List UInt8} {rounds : Nat} {setts : ServerSettings}
    (hrounds : config.length + 2 ≤ rounds)
    (hread : initServerSettings rounds config .zero = .ret (0, setts)) :
    ∃ l : List Assignment, setts = l.foldl ServerSettings.readOver .zero ∧
      (ValuesStand config → l = assignments config) ∧
      ∀ n c f m : Int, ∀ infos : ServerInfos,
        (numbersOf .nWorkers l).getLast? = some n → (numbersOf .capacity l).getLast? = some c →
        (numbersOf .fileCapacity l).getLast? = some f →
        (numbersOf .clientMax l).getLast? = some m →
        (∀ value ∈ [n, c, f, m], 0 < value ∧ value < 2 ^ 31) →
        initServerInfos setts = some infos →
        (((infos.nWorkers = n ∧ infos.nWorkers ≠ 0) ∧ infos.storage.maxBytes = c * 2 ^ 20 ∧
            infos.storage.maxFiles = f ∧ infos.pollArr.maxlen = m) ↔
          n < 2 ^ 16 ∧ c < 2 ^ 12) := by
  obtain ⟨l, hl, hlines⟩ : ∃ l : List Assignment,
      setts = l.foldl ServerSettings.readOver .zero ∧
        (ValuesStand config → l = assignments config) := by
    by_cases hvalue : ValuesStand config
    · have hconfig : config ≠ [] := by
        intro heq
        subst heq
        have hexit : initServerSettings rounds [] .zero = .exit := by
          obtain ⟨n, rfl⟩ : ∃ n, rounds = n + 1 := ⟨rounds - 1, by omega⟩
          rfl
        rw [hexit] at hread
        cases hread
      obtain ⟨-, hassigned⟩ | ⟨-, hexit⟩ := hvalue.initServerSettings hconfig hrounds
      · rw [hassigned] at hread
        injection hread with hread
        exact ⟨_, (Prod.mk.inj hread).2.symm, fun _ => rfl⟩
      · rw [hexit] at hread
        cases hread
    · obtain ⟨l, hl⟩ := initServerSettingsLoop_assigns hread
      exact ⟨l, hl, fun h => absurd h hvalue⟩
  refine ⟨l, hl, hlines, ?_⟩
  intro n c f m infos hn hc hf hm hpos hrun
  have hholds : ∀ {k value}, (numbersOf k l).getLast? = some value → setts.Holds k value := by
    intro k value h
    rw [hl]
    exact ServerSettings.holds_last h .zero
  have hn' := hpos n (by simp)
  have hc' := hpos c (by simp)
  have hf' := hpos f (by simp)
  have hm' := hpos m (by simp)
  exact running_numbers_iff (hholds hn) (hholds hc) (hholds hf) (hholds hm) hn'.1 hc'.1 hf'.1
    hm'.1 hf'.2 hm'.2 hrun

/-- Two workers, 3 megabytes, 4 files and 5 clients. -/
theorem settings_survive_small :
    ∃ setts infos, initServerSettings 70
        (configNWorkers ++ [61, 50, 10] ++ configCapacity ++ [61, 51, 10] ++
          configFileCapacity ++ [61, 52, 10] ++ configClientMax ++ [61, 53]) .zero =
        .ret (0, setts) ∧
      initServerInfos setts = some infos ∧
      (infos.nWorkers = (2 : Int) ∧ infos.nWorkers ≠ 0) ∧
      infos.storage.maxBytes = (3 : Int) * 2 ^ 20 ∧ infos.storage.maxFiles = (4 : Int) ∧
      infos.pollArr.maxlen = (5 : Int) := by
  have hread : initServerSettings 70
      (configNWorkers ++ [61, 50, 10] ++ configCapacity ++ [61, 51, 10] ++
        configFileCapacity ++ [61, 52, 10] ++ configClientMax ++ [61, 53]) .zero =
      .ret (0, { ServerSettings.zero with
        nWorkers := 2, availableMemory := 3145728, maxFileCount := 4, maxClientCount := 5 }) := by
    decide
  have hsplit : (configNWorkers ++ [61, 50, 10] ++ configCapacity ++ [61, 51, 10] ++
      configFileCapacity ++ [61, 52, 10] ++ configClientMax ++ [61, 53]).splitOn 10 =
      [configNWorkers ++ [61, 50], configCapacity ++ [61, 51], configFileCapacity ++ [61, 52],
        configClientMax ++ [61, 53]] := by decide
  obtain ⟨infos, hrun⟩ := Option.isSome_iff_exists.mp (show (initServerInfos
    { ServerSettings.zero with
      nWorkers := 2, availableMemory := 3145728, maxFileCount := 4, maxClientCount := 5 }).isSome
      from by decide)
  obtain ⟨l, -, hlines, hall⟩ := settings_survive_iff (by decide) hread
  have hassigned : l = [.number .nWorkers 2, .number .capacity 3, .number .fileCapacity 4,
      .number .clientMax 5] := by
    refine (hlines (.of_hasValue ?_)).trans (by decide)
    rw [hsplit]
    simp only [List.forall_mem_cons]
    exact ⟨⟨50, by decide, by decide⟩, ⟨51, by decide, by decide⟩, ⟨52, by decide, by decide⟩,
      ⟨53, by decide, by decide⟩, nofun⟩
  subst hassigned
  exact ⟨_, infos, hread, hrun, (hall 2 3 4 5 infos (by decide) (by decide) (by decide) (by decide)
    (by decide) hrun).mpr (by decide)⟩

/-- `NWORKERS=65536`, `CAPACITY=4096`, `FILECAPACITY=1` and `CLIENT_MAX=1`: the server
runs with no workers, and with the zeroed storage. -/
theorem settings_narrowed :
    ∃ setts, initServerSettings 70
        (configNWorkers ++ [61, 54, 53, 53, 51, 54, 10] ++ configCapacity ++
          [61, 52, 48, 57, 54, 10] ++ configFileCapacity ++ [61, 49, 10] ++ configClientMax ++
          [61, 49]) .zero = .ret (0, setts) ∧
      (initServerInfos setts).map (fun infos =>
        (infos.nWorkers, infos.storage.maxBytes, infos.storage.maxFiles)) = some (0, 0, 0) :=
  ⟨{ ServerSettings.zero with maxFileCount := 1, maxClientCount := 1 }, by decide, by decide⟩

end LsoStore
