import LsoStore.Proofs.Sections

/-!
# One entry for a path

`server_openFile` looks a path up without the storage's mutex and stores a new
file under it later, and neither `fu_add_file` nor `hu_insert` looks again. Two
handlers that create the same path can both find nothing and then both store a
file.

The lookups may be in any order: a path gets its second entry exactly when a
handler that found nothing comes to store its file and the path is in the table
by then.
-/

namespace LsoStore

open Proc FileStorage

namespace HashTable

variable {κ ν : Type}

/-- The keys of a table. -/
def keys (t : HashTable κ ν) : List κ := t.items.map Prod.fst

/-- Insertion does not look whether the key is there. -/
theorem nodup_keys_huInsert {t : HashTable κ ν} (h : t.keys.Nodup) (key : κ) (data : ν) :
    (t.huInsert key data).keys.Nodup ↔ key ∉ t.keys := by
  rcases Nat.eq_zero_or_pos t.nEntries with hzero | hpos
  · have htable : t.table = [] := List.eq_nil_of_length_eq_zero hzero
    simp [keys, items, huInsert, htable]
  · have hperm := (huInsert_items hpos key data).map Prod.fst
    rw [keys, hperm.nodup_iff, List.map_cons, List.nodup_cons, ← keys]
    exact and_iff_left h

end HashTable

/-- No two items of the table have the same path. -/
def FileStorage.OneEntry (s : FileStorage) : Prop := s.table.keys.Nodup

instance (s : FileStorage) : Decidable s.OneEntry := inferInstanceAs (Decidable s.table.keys.Nodup)

/-- An open request that creates its file if need be. -/
structure Handler.Creates (h : Handler) : Prop where
  client : h.client ≠ 0
  kind : ∃ message, h.kind = .openFile message ∧ hasFlag message oCreate = true

/-- When the handler that acts found nothing and there is room for its file,
its path is not in the table. -/
def Handlers.NoRival {ι : Type} (handlers : ι → Handler) (l : ι × List (Event Mutex))
    (c : Handlers ι) : Prop :=
  c.stage l.1 = .looked none → c.shared.st.HasRoom →
    (handlers l.1).path ∉ c.shared.st.table.keys

section SingleEntry

variable {qsort : Qsort Nat} {w w' : World FileStorage Mutex} {tr : List (Event Mutex)}

/-- What a section of an opening handler does to the table. -/
theorem Handler.Creates.acts {h : Handler} (hh : h.Creates) {t t' : Stage}
    (ha : h.Acts qsort tr w t w' t') (hnot : ∀ file n, t ≠ .granted file n) :
    (∀ file n, t' ≠ .granted file n) ∧
    w'.st.table = if t = .looked none ∧ w.st.HasRoom then w.st.table.huInsert h.path w.st.next
      else w.st.table := by
  obtain ⟨message, hkind, hcreate⟩ := hh.kind
  have hruns := ha.runs
  cases t with
  | begun =>
      simp only [Handler.next, Handler.first, hkind, getfile, runs_get, runs_set,
        runs_ret] at hruns
      obtain ⟨-, ⟨⟩, rfl⟩ := hruns
      exact ⟨fun file n => by simp, by simp⟩
  | looked file =>
      simp only [Handler.next, Handler.second, Handler.found, hkind] at hruns
      obtain ⟨r, rfl, hrun⟩ := runs_of_returning hruns
      refine ⟨fun file n => by simp, ?_⟩
      cases file with
      | none => simpa using openFound_none_table hh.client hcreate _ _ _ hrun r rfl
      | some file => simpa using openFound_some_table hh.client file _ _ _ hrun
  | granted file n => exact absurd rfl (hnot file n)
  | returned r => exact absurd rfl (ha.active r)

/-- Handlers that create their files start from a table with one entry a path.
It stays so for the whole run if and only if no handler stores its file beside
another one of the same path. -/
theorem one_entry_iff {ι : Type} [DecidableEq ι] {handlers : ι → Handler}
    {past : List ((ι × List (Event Mutex)) × Handlers ι)} {c : Handlers ι}
    (hh : ∀ i, (handlers i).Creates)
    (hrun : HandlersRun qsort handlers (·.st.OneEntry) past c) :
    (∀ x ∈ visited past c, x.shared.st.OneEntry) ↔
      ∀ e ∈ past, Handlers.NoRival handlers e.1 e.2 := by
  set J : Handlers ι → Prop := fun c => ∀ i file n, c.stage i ≠ .granted file n
  refine Run.always_iff (J := J) (C := Handlers.NoRival handlers) hrun
    (fun c hc => ⟨hc.1, fun i file n => by simp [hc.2 i]⟩) fun c l c' hI hJ hstep => ?_
  cases hstep with
  | act i tr w t ha =>
      obtain ⟨hnot, htable⟩ := (hh i).acts ha (hJ i)
      refine ⟨?_, fun _ j file n => ?_⟩
      · by_cases hstore : c.stage i = .looked none ∧ c.shared.st.HasRoom
        · rw [if_pos hstore] at htable
          rw [FileStorage.OneEntry, htable, HashTable.nodup_keys_huInsert hI]
          simp [Handlers.NoRival, hstore]
        · rw [if_neg hstore] at htable
          rw [FileStorage.OneEntry, htable]
          exact iff_of_true hI fun hlooked hroom => absurd ⟨hlooked, hroom⟩ hstore
      · by_cases hj : j = i
        · subst hj
          simpa using hnot file n
        · simpa [Function.update_of_ne hj] using hJ j file n

end SingleEntry

/-- Clients 4 and 5 both create "a". -/
def twoCreators (five : Bool) : Handler :=
  ⟨.openFile (sapiMessageLen oCreate sapiOpenFile 1), if five then 5 else 4, [97]⟩

theorem twoCreators_creates (five : Bool) : (twoCreators five).Creates where
  client := by cases five <;> decide
  kind := ⟨_, rfl, by decide⟩

theorem two_begun {s : FileStorage} (hs : fuInitFileStorage 4 8 = some s) :
    HandlersRun Qsort.insertion twoCreators (·.st.OneEntry) [] ⟨⟨s, ∅⟩, fun _ => .begun⟩ := by
  refine .init _ ⟨?_, fun _ => rfl⟩
  simp [FileStorage.OneEntry, HashTable.keys, (WellFormed.fuInitFileStorage_empty hs).1]

/-- The second client looks when the first has stored the file. -/
theorem one_entry_in_turn : ∃ past c,
    HandlersRun Qsort.insertion twoCreators (·.st.OneEntry) past c ∧
      c.stage true = .returned (-1) ∧ ∀ x ∈ visited past c, x.shared.st.OneEntry := by
  have h₀ := two_begun rfl
  have h₁ := HandlersRun.section h₀ false .begun [] rfl (by simp) (by simp) rfl
  have h₂ := HandlersRun.section h₁ false (.looked none) [.write (.word sapiSuccess) true] rfl
    (by simp) (by simp) rfl
  have h₃ := HandlersRun.section h₂ true .begun [] rfl (by simp) (by simp) rfl
  have h₄ := HandlersRun.section h₃ true (.looked (some 0)) [.write (.word sapiAlready) true] rfl
    (by simp) (by simp) rfl
  refine ⟨_, _, h₄, rfl, (one_entry_iff twoCreators_creates h₄).mpr fun e he => ?_⟩
  simp only [List.nil_append, List.append_assoc, List.mem_append, List.mem_singleton] at he
  rcases he with rfl | rfl | rfl | rfl
  · exact fun hlooked => by cases hlooked
  · exact fun _ _ => List.not_mem_nil
  · exact fun hlooked => by cases hlooked
  · exact fun hlooked => by cases hlooked

/-- Both look before either has stored the file. -/
theorem two_entries : ∃ past c,
    HandlersRun Qsort.insertion twoCreators (·.st.OneEntry) past c ∧ ¬ c.shared.st.OneEntry := by
  have h₀ := two_begun rfl
  have h₁ := HandlersRun.section h₀ false .begun [] rfl (by simp) (by simp) rfl
  have h₂ := HandlersRun.section h₁ true .begun [] rfl (by simp) (by simp) rfl
  have h₃ := HandlersRun.section h₂ false (.looked none) [.write (.word sapiSuccess) true] rfl
    (by simp) (by simp) rfl
  have h₄ := HandlersRun.section h₃ true (.looked none) [.write (.word sapiSuccess) true] rfl
    (by simp) (by simp) rfl
  exact ⟨_, _, h₄, by decide⟩

end LsoStore
