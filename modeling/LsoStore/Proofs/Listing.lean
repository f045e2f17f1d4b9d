import LsoStore.Proofs.Dialogues
import LsoStore.Proofs.PathIdentity

/-!
# What a listing sends

`server_readNFiles` walks over the table and sends the path and the contents
of each file that is not locked and not empty, up to the number asked for, and
a length of 0 at the end. The client's loop takes them in one by one. It exits
at that length, at the latest: to `sapi_get_path` a length of 0 is an error, and
to `readNFiles` an error is the end of the process. The end of the list that the
loop looks for, an empty path, is never handed to it.
-/

namespace LsoStore

open Proc Talk FileStorage

namespace FileStorage

/-- The items of a walk whose files are sent. -/
def listed (s : FileStorage) (held : Finset Mutex) :
    List (List UInt8 × Nat) → Nat → List (List UInt8 × Nat)
  | [], _ => []
  | (name, a) :: hi, n =>
      if n = 0 then []
      else if .file a ∉ held ∧ 0 < (s.file a).dataLen then
        (name, a) :: s.listed held hi (n - 1)
      else s.listed held hi n

/-- The messages for one item. -/
def listing (s : FileStorage) (it : List UInt8 × Nat) : Inbox :=
  LittleEndian.encode 8 it.1.length ::
    (chunks (Payload.block it.1).bytes ++ dataChunks (s.file it.2).data)

/-- The files of some items are each used once more. -/
def countUses (s : FileStorage) (items : List (List UInt8 × Nat)) : FileStorage :=
  items.foldl (fun s it => s.modifyFile it.2 fun f => { f with dataInfo := f.dataInfo + 1 }) s

variable {s s' : FileStorage} {held : Finset Mutex}

theorem listed_subset (s : FileStorage) (held : Finset Mutex)
    (items : List (List UInt8 × Nat)) (n : Nat) {it : List UInt8 × Nat}
    (h : it ∈ s.listed held items n) :
    it ∈ items ∧ .file it.2 ∉ held ∧ 0 < (s.file it.2).dataLen := by
  induction items generalizing n with
  | nil => cases h
  | cons hi items ih =>
      obtain ⟨name, a⟩ := hi
      rw [listed] at h
      split at h
      · cases h
      · split at h
        · next hsent =>
            rcases List.mem_cons.mp h with rfl | h
            · exact ⟨List.mem_cons_self .., hsent⟩
            · exact ⟨List.mem_cons_of_mem _ (ih _ h).1, (ih _ h).2⟩
        · exact ⟨List.mem_cons_of_mem _ (ih _ h).1, (ih _ h).2⟩

theorem listed_congr (h : ∀ a, (s'.file a).data = (s.file a).data)
    (items : List (List UInt8 × Nat)) (n : Nat) :
    s'.listed held items n = s.listed held items n := by
  induction items generalizing n with
  | nil => rfl
  | cons hi items ih =>
      rw [listed, listed, ih, ih]
      exact if_congr Iff.rfl rfl (if_congr (by simp [FileData.dataLen, h]) rfl rfl)

theorem listing_congr (h : ∀ a, (s'.file a).data = (s.file a).data)
    (it : List UInt8 × Nat) : s'.listing it = s.listing it := by
  rw [listing, h, listing]

end FileStorage

section Server

variable {σ μ α : Type} [DecidableEq μ] {Q : Talk σ μ α FileStorage Mutex Int → Prop}
  {p : Proc σ μ α} {w : World σ μ} {v : World FileStorage Mutex} {ts tc : Inbox}
  {client : Int} {message : SMessage}

theorem flows_readNFilesEnd :
    Flows Q ⟨p, w, readNFilesEnd, v, ts, tc⟩ ↔
      Flows Q ⟨p, w, .ret 0, { v with held := v.held.erase .storage }, ts,
        tc ++ [LittleEndian.encode 8 0]⟩ := by
  rw [readNFilesEnd, flows_server_unlock, flows_server_write, chunks_size]
  rfl

/-- The server's walk, run to its end. -/
theorem flows_readNFilesLoop (hc : client ≠ 0) (hwf : v.st.WellFormed)
    {items : List (List UInt8 × Nat)} (hitems : ∀ it ∈ items, it.2 ∈ v.st.ptrs) (n : Nat) :
    Flows Q ⟨p, w, readNFilesLoop client items n, v, ts, tc⟩ ↔
      Flows Q ⟨p, w, .ret 0, ⟨v.st.countUses (v.st.listed v.held items n),
          v.held.erase .storage⟩, ts,
        tc ++ (v.st.listed v.held items n).flatMap v.st.listing ++
          [LittleEndian.encode 8 0]⟩ := by
  induction items generalizing n v tc with
  | nil =>
      rw [readNFilesLoop, flows_readNFilesEnd, listed, List.flatMap_nil, List.append_nil]
      rfl
  | cons hi items ih =>
      obtain ⟨name, a⟩ := hi
      have hrest : ∀ it ∈ items, it.2 ∈ v.st.ptrs := fun it hit =>
        hitems it (List.mem_cons_of_mem _ hit)
      have ha : a ∈ v.st.ptrs := hitems _ (List.mem_cons_self ..)
      obtain ⟨f, hf⟩ := Option.ne_none_iff_exists'.mp (hwf.accounted.live a ha)
      have hfile := file_eq _ hf
      rw [readNFilesLoop, listed]
      by_cases h0 : n = 0
      · rw [if_pos h0, if_pos h0, flows_readNFilesEnd, List.flatMap_nil, List.append_nil]
        rfl
      · rw [if_neg h0, if_neg h0, flows_deref hf, flows_server_trylock]
        by_cases hm : Mutex.file a ∈ v.held
        · rw [if_neg fun h => h.1 hm, Finset.insert_eq_of_mem hm]
          simp only [hm, not_true_eq_false, decide_false]
          exact ih hwf hrest n
        · simp only [hm, not_false_eq_true, decide_true]
          rw [flows_deref (v := ⟨v.st, insert (.file a) v.held⟩) hf]
          split
          · next hpos =>
              have hne : f.data.length ≠ 0 := Nat.pos_iff_ne_zero.mp hpos
              have hd : f.data ≠ [] := by simpa using hne
              have hsame := v.st.modifyFile_data a
                (fun f => { f with dataInfo := f.dataInfo + 1 }) fun _ => rfl
              set s := v.st.modifyFile a fun f => { f with dataInfo := f.dataInfo + 1 } with hs
              have hwf' : s.WellFormed := hwf.modifyFile a fun _ => ⟨rfl, rfl⟩
              rw [if_pos ⟨trivial, hfile.symm ▸ hpos⟩, flows_assign, flows_serverSendPath_bind hc,
                if_neg (by decide), serverSendData, if_neg (not_or.mpr ⟨hc, hne⟩),
                flows_sendBlock_bind, if_neg (by decide), flows_server_unlock]
              dsimp only
              rw [Finset.erase_insert hm, ih (v := ⟨s, v.held⟩) hwf' hrest (n - 1)]
              dsimp only
              rw [listed_congr hsame, funext (listing_congr hsame), List.flatMap_cons,
                listing, hfile, dataChunks, if_neg hd, chunks_block hd, countUses, countUses,
                List.foldl_cons, ← hs]
              simp only [List.append_assoc, List.cons_append, List.nil_append]
          · next hempty =>
              rw [if_neg fun h => hempty (hfile ▸ h.2), flows_server_unlock]
              dsimp only
              rw [Finset.erase_insert hm]
              exact ih hwf hrest n

/-- The whole handler. -/
theorem flows_serverReadNFiles (hm : message ≠ 0) (hc : client ≠ 0) (hwf : v.st.WellFormed)
    (hstorage : .storage ∉ v.held) {items : List (List UInt8 × Nat)}
    (hitems : v.st.listed (insert .storage v.held) v.st.table.items (lenOf message) = items) :
    Flows Q ⟨p, w, serverReadNFiles message client, v, ts, tc⟩ ↔
      Flows Q ⟨p, w, .ret 0, ⟨v.st.countUses items, v.held⟩, ts,
        tc ++ items.flatMap v.st.listing ++ [LittleEndian.encode 8 0]⟩ := by
  rw [serverReadNFiles, if_neg (not_or.mpr ⟨hm, hc⟩), flows_server_lock hstorage,
    flows_server_get]
  dsimp only
  rw [flows_readNFilesLoop (v := ⟨v.st, insert .storage v.held⟩) hc hwf
    (fun it hit => List.mem_map_of_mem hit)]
  dsimp only
  rw [Finset.erase_insert hstorage, hitems]

end Server

section Client

variable {α τ ν β : Type} [DecidableEq ν] {Q : Talk Saved Empty Int τ ν β → Prop}
  {w : World Saved Empty} {q : Proc τ ν β} {v : World τ ν} {ts tc : Inbox} {disk : Disk}
  {dirname : List UInt8} {s : FileStorage} {rounds size : Nat} {n : Int}

/-- The client's loop ends by its own exit. It can end early, at a destination
that is too long or a path that is empty. -/
theorem flows_readNFilesRounds_over {items : List (List UInt8 × Nat)}
    (hs : ∀ it ∈ items, (s.file it.2).data ≠ [] ∧ (0 : UInt8) ∉ it.1 ∧
      it.1.length < muLimit ∧ (s.file it.2).data.length ≤ muLimit)
    (hover : ∀ p w tc, (p = .exit ∨ p = .fault) → Flows Q ⟨p, w, q, v, ts, tc⟩) :
    Flows Q ⟨readNFilesRounds disk dirname rounds n size, w, q, v, ts,
      items.flatMap s.listing ++ [LittleEndian.encode 8 0]⟩ := by
  induction items generalizing rounds size n w with
  | nil =>
      cases rounds with
      | zero => exact hover _ _ _ (.inr rfl)
      | succ rounds =>
          rw [readNFilesRounds, List.flatMap_nil, List.nil_append,
            flows_sapiGetPath_bind_zero]
          exact hover _ _ _ (.inl rfl)
  | cons it items ih =>
      cases rounds with
      | zero => exact hover _ _ _ (.inr rfl)
      | succ rounds =>
          obtain ⟨hd, h0, hplen, hdlen⟩ := hs it (List.mem_cons_self ..)
          have ih := fun {rounds size n w} => @ih rounds size n w fun b hb =>
            hs b (List.mem_cons_of_mem _ hb)
          rw [readNFilesRounds, List.flatMap_cons, listing, List.cons_append,
            List.cons_append]
          by_cases hp : it.1 = []
          · rw [hp, List.length_nil, flows_sapiGetPath_bind_zero]
            exact hover _ _ _ (.inl rfl)
          · rw [chunks_block hp, List.append_assoc, List.append_assoc, List.singleton_append,
              flows_sapiGetPath_bind hp h0 (by omega)]
            dsimp only
            rw [if_neg (by simpa using hp)]
            have hexit := hover .exit w (dataChunks (s.file it.2).data ++
              (items.flatMap s.listing ++ [LittleEndian.encode 8 0])) (.inl rfl)
            refine flows_suAppendChars hexit (flows_suAppendChars hexit ?_)
            rw [dataChunks, if_neg hd, List.cons_append, List.singleton_append,
              flows_sapiGetData_bind hd hdlen]
            dsimp only
            rw [fuWriteToPath]
            split
            · exact hover _ _ _ (.inr rfl)
            · split
              · rw [get_bind, flows_client_get, set_bind, flows_client_set, ret_bind,
                  if_neg (by decide)]
                exact ih
              · exact ih

end Client

/-! ## The whole call -/

section Call

variable {qsort : Qsort Nat} {maxFiles maxBytes : Nat} {w : World FileStorage Mutex}
  {client : Int} {disk : Disk} {c : Talk Saved Empty Int FileStorage Mutex Bool}

/-- What a state of the server can list is short enough to be received. -/
theorem Reachable.listed_fits (hw : Reachable qsort maxFiles maxBytes w) {held : Finset Mutex}
    {n : Nat} {it : List UInt8 × Nat} (h : it ∈ w.st.listed held w.st.table.items n) :
    (w.st.file it.2).data ≠ [] ∧ (0 : UInt8) ∉ it.1 ∧ it.1.length < muLimit ∧
      (w.st.file it.2).data.length ≤ muLimit := by
  have hwf := hw.wellFormed
  obtain ⟨hin, -, hpos⟩ := listed_subset _ _ _ _ h
  have hmem : it.2 ∈ w.st.ptrs := List.mem_map_of_mem hin
  obtain ⟨f, hf⟩ := Option.ne_none_iff_exists'.mp (hwf.accounted.live _ hmem)
  rw [← hwf.paths it hin]
  exact ⟨List.ne_nil_of_length_pos hpos, (hw.path_short hmem).1, (hw.path_short hmem).2,
    file_eq _ hf ▸ hw.length_data_le hf⟩

/-- What `readNFiles` is for: the call returns the number of files asked for,
or of all that have contents if they are fewer, has saved so many different
files with their contents, and leaves nothing on the wire. -/
def FilesRead (w : World FileStorage Mutex) (saved : Saved) (n : Nat)
    (c : Talk Saved Empty Int FileStorage Mutex Bool) : Prop :=
  ∃ files : List Nat, files.Nodup ∧ (∀ a ∈ files, a ∈ w.st.ptrs ∧ (w.st.file a).data ≠ []) ∧
    files.length = min n (w.st.ptrs.countP fun a => 0 < (w.st.file a).dataLen) ∧
    c.client = .ret files.length ∧
    (c.here.st.drop saved.length).map Prod.snd = files.map (fun a => (w.st.file a).data) ∧
    c.toServer = [] ∧ c.toClient = []

theorem flows_readNFiles_over (hw : Reachable qsort maxFiles maxBytes w) (hc : client ≠ 0)
    {len : BitVec 32} (hlen : len ≠ 0) (rounds n : Nat) (dirname : List UInt8)
    (here : World Saved Empty) :
    Flows (fun c : Talk Saved Empty Int FileStorage Mutex Bool => ∀ k, c.client ≠ .ret k)
      ⟨readNFiles disk rounds len.toNat (some dirname), here,
        serverTurns qsort client (n + 1), w, [], []⟩ := by
  have hpos : len.toNat ≠ 0 := by
    intro h0
    exact hlen (BitVec.eq_of_toNat_eq h0)
  rw [readNFiles.eq_def, if_neg hpos]
  dsimp only
  set message := sapiMessageLen 0 sapiReadNFiles (BitVec.ofNat 32 len.toNat)
  have hop : opOf message = sapiReadNFiles := opOf_sapiMessageLen ..
  have hm := ne_zero_of_opOf hop (by decide)
  rw [flows_sapiSendop_bind, if_neg (by decide), List.nil_append, flows_serverTurns hm,
    serve_readNFiles hop]
  cases rounds with
  | zero =>
      refine .of_client (idle_fault _) fun _ _ _ _ k hk => ?_
      cases hk
  | succ rounds =>
      by_cases hstorage : .storage ∈ w.held
      · -- the handler waits for a mutex that nobody gives back
        rw [serverReadNFiles, if_neg (not_or.mpr ⟨hm, hc⟩), readNFilesRounds, sapiGetPath,
          read_bind]
        refine .of_idle (idle_read (by decide) _ _)
          (idle_bind (fun b hb => by cases hb) (idle_lock hstorage _ _)) fun k hk => ?_
        cases hk
      · refine Flows.bind (Q := fun c => c.client = .exit ∨ c.client = .fault) ?_ ?_
        · rw [flows_serverReadNFiles hm hc hw.wellFormed hstorage rfl, List.nil_append]
          refine flows_readNFilesRounds_over (fun it hit => hw.listed_fits hit) ?_
          intro p v tc h
          rcases h with rfl | rfl
          · exact .of_client (idle_exit _) fun _ _ _ _ => .inl rfl
          · exact .of_client (idle_fault _) fun _ _ _ _ => .inr rfl
        · intro p v q u ts tc h
          rcases h with hp | hp
          · dsimp only at hp
            subst hp
            refine .of_client (idle_exit _) fun _ _ _ _ k hk => ?_
            cases hk
          · dsimp only at hp
            subst hp
            refine .of_client (idle_fault _) fun _ _ _ _ k hk => ?_
            cases hk

/-- Whatever the server stores and however many files are asked for, the call
does not return at all, so it never does what it is for. -/
theorem files_never_read (hw : Reachable qsort maxFiles maxBytes w) (hclient : 0 < client)
    {n : BitVec 32} (hn : n ≠ 0) (dirname : CStr) (rounds turns : Nat) (saved : Saved)
    (hreach : Reach (dialogue qsort client disk rounds (turns + 1)
      (.readNFiles n (some dirname)) saved w [] []) c) :
    ¬ FilesRead w saved n.toNat c ∧ ∀ k, c.client ≠ .ret k := by
  have hc : client ≠ 0 := by omega
  have hover : ∀ k, c.client ≠ .ret k :=
    (flows_readNFiles_over hw hc hn rounds turns dirname.1 ⟨saved, ∅⟩).client_ne_ret hreach
  refine ⟨?_, hover⟩
  intro h
  obtain ⟨files, -, -, -, hret, -⟩ := h
  exact hover _ hret

/-- A client reads one file into "/d". -/
def readOne (w : World FileStorage Mutex) : Talk Saved Empty Int FileStorage Mutex Bool :=
  dialogue Qsort.insertion 5 ⟨fun _ => none, fun _ => true⟩ 3 1
    (.readNFiles 1 (some ⟨[47, 100], by decide⟩)) [] w [] []

/-- The server has the two bytes of "a". The client saves them, and exits. -/
theorem readOne_exits : ∃ (w : World FileStorage Mutex)
    (c : Talk Saved Empty Int FileStorage Mutex Bool),
    Reachable Qsort.insertion 1 10 w ∧ w.held = ∅ ∧ Reach (readOne w) c ∧
    c.Settled ∧ c.client = .exit ∧ c.here.st = [([47, 100, 97], [1, 2])] := by
  have h₀ : Reachable Qsort.insertion 1 10 ⟨_, ∅⟩ := .init (by decide) (by decide) rfl
  have h₁ := h₀.created 5 [97] rfl
  have h₂ := h₁.written 5 [97] [1, 2] rfl
  exact ⟨_, _, h₂, rfl, reach_run 60 _, settled_iff.mpr ⟨idle_exit _ _, idle_ret _ _ _⟩,
    rfl, rfl⟩

theorem files_never_read_one : ∃ (w : World FileStorage Mutex)
    (c : Talk Saved Empty Int FileStorage Mutex Bool), Reach (readOne w) c ∧
    ¬ FilesRead w [] 1 c ∧ ∀ k, c.client ≠ .ret k := by
  obtain ⟨w, c, hw, -, hreach, -⟩ := readOne_exits
  exact ⟨w, c, hreach, files_never_read hw (by decide) (by decide) _ _ _ _ hreach⟩

/-- One client, no mutex held, one file asked for and one stored: the pair stops
where the client has saved the file and exited. -/
theorem listing_exits : ∃ (w : World FileStorage Mutex)
    (c : Talk Saved Empty Int FileStorage Mutex Bool),
    Reachable Qsort.insertion 1 10 w ∧ w.held = ∅ ∧ Reach (readOne w) c ∧
    c.Settled ∧ c.client = .exit ∧ ¬ FilesRead w [] 1 c := by
  obtain ⟨w, c, hw, hheld, hreach, hset, hexit, -⟩ := readOne_exits
  refine ⟨w, c, hw, hheld, hreach, hset, hexit, ?_⟩
  intro h
  obtain ⟨files, -, -, -, hret, -⟩ := h
  rw [hexit] at hret
  cases hret

end Call

end LsoStore
