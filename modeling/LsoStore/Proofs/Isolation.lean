import LsoStore.Proofs.Eviction

/-!
# Files that other clients have open

A handler takes only what nobody has open, and releases, writes to and gives
up only what its own client has open or nobody has. So a file that another
client has open stays where it is with everything in it, whatever the request
is and however its run ends, unless it asks for a removal: that one removes
whatever path freed memory spells.
-/

namespace LsoStore

open Proc FileStorage

/-- The file at `b` is in the table under its path, and is `f` except for its
use count. -/
structure Stays (b : Nat) (f : FileData) (s : FileStorage) : Prop where
  stored : (f.path, b) ∈ s.table.items
  record : ∃ n, s.heap b = some { f with dataInfo := n }

section Isolation

variable {b : Nat} {f : FileData} {s : FileStorage} {request : SMessage} {client : Int}

/-- Between two requests the record is enough. -/
theorem FileStorage.WellFormed.stays (h : s.WellFormed)
    (hb : ∃ n, s.heap b = some { f with dataInfo := n }) : Stays b f s := by
  obtain ⟨n, hn⟩ := hb
  have hmem := h.mem_items (h.stored b (by simp [hn]))
  rw [file_eq s hn] at hmem
  exact ⟨hmem, n, hn⟩

/-- A record with another owner is another record. -/
theorem ne_of_client {a : Nat} {g : FileData} (hb : ∃ n, s.heap b = some { f with dataInfo := n })
    (ha : s.heap a = some g) (hne : f.client ≠ g.client) : b ≠ a := by
  intro heq
  subst heq
  obtain ⟨n, hn⟩ := hb
  rw [hn] at ha
  injection ha with ha
  exact hne (by rw [← ha])

/-- A new record goes to an address of its own. -/
theorem FileStorage.WellFormed.ne_next (h : s.WellFormed)
    (hb : ∃ n, s.heap b = some { f with dataInfo := n }) : b ≠ s.next := by
  intro heq
  subst heq
  obtain ⟨n, hn⟩ := hb
  rw [h.accounted.fresh _ (Nat.le_refl _)] at hn
  cases hn

theorem stays_preservedBy (hop : opOf request ≠ sapiRemoveFile) (howner : f.client ≠ -1)
    (hother : f.client ≠ client) :
    PreservedBy request client
      (fun _ s => s.WellFormed ∧ ∃ n, s.heap b = some { f with dataInfo := n })
      (Stays b f) (fun a => b ≠ a) where
  stops h := h.1.stays h.2
  stopsPlaced _ h := by
    obtain ⟨hstored, n, hn⟩ := h.1.stays h.2
    refine ⟨hstored, n, ?_⟩
    simpa [place, h.1.ne_next h.2] using hn
  count a h := by
    refine ⟨h.1.modifyFile a fun _ => ⟨rfl, rfl⟩, ?_⟩
    obtain ⟨n, hn⟩ := h.2
    rw [modifyFile_heap]
    split
    · exact ⟨n + 1, by rw [hn, Option.map_some]⟩
    · exact ⟨n, hn⟩
  take _ h _ ha hfree := by
    have hne := ne_of_client h.2 ha (hfree ▸ howner)
    refine ⟨h.1.modifyFile _ fun _ => ⟨rfl, rfl⟩, ?_⟩
    rw [modifyFile_heap_of_ne _ _ _ hne]
    exact h.2
  create {s path} _ h hn := by
    refine ⟨h.1.create rfl hn, ?_⟩
    by_cases hfull : s.fuStorageFilesAvailable = 0
    · have havail : (s.place (.openedBy ⟨[], -1, 0, []⟩ request client)).2.fuStorageFilesAvailable
          = 0 := hfull
      rw [fuAddFile, if_pos havail]
      dsimp only
      rw [h.1.place_fuFreeFileData]
      exact h.2
    · rw [WellFormed.fuAddFile_place_eq rfl hfull]
      simpa [place, h.1.ne_next h.2] using h.2
  discard _ h := by
    refine ⟨h.1.discard _, ?_⟩
    rw [h.1.place_fuFreeFileData]
    exact h.2
  release _ h ha hmine := by
    have hne := ne_of_client h.2 ha (hmine ▸ hother)
    refine ⟨h.1.modifyFile _ fun _ => ⟨rfl, rfl⟩, ?_⟩
    rw [modifyFile_heap_of_ne _ _ _ hne]
    exact h.2
  remove _ hrem _ := absurd hrem hop
  giveUp {o s a g} _ h ha hmine := by
    have hne : b ≠ a := ne_of_client h.2 ha (by
      rcases hmine with hmine | hmine
      · exact hmine ▸ howner
      · exact hmine ▸ hother)
    have hg : g = s.file a := (file_eq s ha).symm
    have hwithout := h.1.without_giveUp (h.1.stored a (by simp [ha]))
    rw [hg]
    refine ⟨h.1.giveUp a, ?_⟩
    rw [hwithout.heap b, if_neg (by simpa using hne)]
    exact h.2
  grant _ h ha hmine := ne_of_client h.2 ha (hmine ▸ hother)
  write {o s s' a i data r} _ hne h ha hlen hw := by
    refine ⟨h.1.fuWritefile ha hlen hw, ?_⟩
    rcases h.1.accounted.fuWritefile_cases (h.1.stored a ha) hlen hw with
      ⟨rfl, -⟩ | ⟨rfl, -⟩ | ⟨-, d, -, -, -, -, rfl⟩
    · exact h.2
    · rw [modifyFile_heap_of_ne _ _ _ hne]
      exact h.2
    · rw [modifyFile_heap_of_ne _ _ _ hne]
      exact h.2

end Isolation

/-- Whatever a client asks for but a removal, and however that ends, a file
that another client has open keeps its place, its contents and its owner. -/
theorem open_file_isolated {qsort : Qsort Nat} {maxFiles maxBytes : Nat}
    {w w' : World FileStorage Mutex} {request : SMessage} {client : Int}
    {tr : List (Event Mutex)} {o : Out Int} {b : Nat} {f : FileData}
    (hw : Reachable qsort maxFiles maxBytes w) (hop : opOf request ≠ sapiRemoveFile)
    (hr : (serve qsort request client).Runs w tr o w') (hf : w.st.heap b = some f)
    (howner : 0 < f.client) (hother : f.client ≠ client) : Stays b f w'.st := by
  have hstays := serve_preserves qsort (stays_preservedBy (b := b) (f := f) hop (by omega) hother)
    (fun _ => ⟨hw.wellFormed, f.dataInfo, hf⟩) tr o w' hr
  cases o with
  | ret r => exact FileStorage.WellFormed.stays hstays.1 hstays.2
  | exit => exact hstays
  | fault => exact hstays
  | blocked => exact hstays

/-- Client 5 has "b" open with two bytes in it. Client 4 has stored and closed
"c", has "a" open, and is now writing two bytes to it, for which "c" goes. -/
theorem write_beside_open_file : ∃ w w', Reachable Qsort.insertion 3 5 w ∧
    w.st.heap 0 = some ⟨[7, 8], 5, 2, [98]⟩ ∧
    (serve Qsort.insertion (sapiMessageLen 0 sapiWriteFile 1) 4).Runs w
      [.read 1 (some [97]), .read 8 (some (LittleEndian.encode 8 2)),
        .write (.word sapiEvictMsg) true, .read 8 (some (LittleEndian.encode 8 0)),
        .trylock (.file 1) true, .write (.word sapiSuccess) true, .read 2 (some [7, 8]),
        .write (.word sapiSuccess) true] (.ret 0) w' := by
  have h₀ : Reachable Qsort.insertion 3 5 ⟨_, ∅⟩ := .init (by decide) (by decide) rfl
  have h₁ := h₀.created 5 [98] rfl
  have h₂ := h₁.written 5 [98] [7, 8] rfl
  have h₃ := h₂.created 4 [99] rfl
  have h₄ := h₃.written 4 [99] [7, 8] rfl
  have h₅ := h₄.closed 4 [99] rfl
  have h₆ := h₅.created 4 [97] rfl
  exact ⟨_, _, h₆, rfl, rfl⟩

theorem open_file_isolated_write : ∃ w w' : World FileStorage Mutex,
    Reachable Qsort.insertion 3 5 w ∧ Stays 0 ⟨[7, 8], 5, 2, [98]⟩ w'.st := by
  obtain ⟨w, w', hw, hf, hr⟩ := write_beside_open_file
  exact ⟨w, w', hw, open_file_isolated hw (by decide) hr hf (by decide) (by decide)⟩

end LsoStore
