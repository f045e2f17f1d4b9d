import LsoStore.Proofs.Dialogues
import LsoStore.Proofs.Eviction

/-!
# The notices of an eviction

The two loops of an eviction. The server goes through the files in order and
gives up those it may until enough bytes are free, `givenUp` being the list.
If the client wants them back it sends a notice for each, which is a word, the
path and the contents. The client's loop reads the notices one by one and
saves the contents, up to a word that is not `SAPI_EVICT`.
-/

namespace LsoStore

open Proc Talk FileStorage

namespace FileStorage

/-- The message that gives up the file at `a`. -/
def notice (s : FileStorage) (a : Nat) : Inbox :=
  LittleEndian.encode 4 sapiEvictMsg.toNat :: LittleEndian.encode 8 (s.file a).path.length ::
    (chunks (Payload.block (s.file a).path).bytes ++ dataChunks (s.file a).data)

variable {s s' : FileStorage} {held : Finset Mutex} {client : Int} {a : Nat}

theorem Without.notice_eq (h : Without s s' [a]) {b : Nat} (hb : b ≠ a) :
    s'.notice b = s.notice b := by
  simp only [notice, h.file_eq hb]

end FileStorage

section Server

variable {σ μ α β : Type} [DecidableEq μ] {Q : Talk σ μ α FileStorage Mutex β → Prop}
  {p : Proc σ μ α} {w : World σ μ} {v : World FileStorage Mutex} {ts tc : Inbox}
  {client : Int} {H : Finset Mutex}

theorem flows_evictFile_bind (hc : client ≠ 0) {a : Nat} {f : FileData}
    (hf : v.st.heap a = some f) (hm : .file a ∉ H) (hv : v.held = insert (.file a) H)
    (sendFilesBack : Bool) {k : Bool → ServerM β} :
    Flows Q ⟨p, w, evictFile client sendFilesBack a f >>= k, v, ts, tc⟩ ↔
      Flows Q ⟨p, w, k true, ⟨v.st.giveUp a, H⟩, ts,
        tc ++ if sendFilesBack then v.st.notice a else []⟩ := by
  have herase : v.held.erase (.file a) = H := by rw [hv, Finset.erase_insert hm]
  have hfile := file_eq _ hf
  cases sendFilesBack with
  | false =>
      rw [evictFile, if_neg (by decide), assign, get_bind, flows_server_get, set_bind,
        flows_server_set, unlock_bind, flows_server_unlock, removefile, get_bind,
        flows_server_get, set_bind, flows_server_set, ret_bind, giveUp, hfile, herase]
      simp
  | true =>
      rw [evictFile, if_pos rfl, bind_assoc, flows_serverRespond_bind hc, if_neg (by decide),
        bind_assoc, flows_serverSendPath_bind hc, bind_assoc, flows_serverSendData_bind hc,
        assign, get_bind, flows_server_get, set_bind,
        flows_server_set, unlock_bind, flows_server_unlock, removefile, get_bind,
        flows_server_get, set_bind, flows_server_set, ret_bind, giveUp, hfile, herase]
      simp [notice, hfile]

/-- The server's loop, run to its end. -/
theorem flows_evictLoop_bind (hc : client ≠ 0) (hwf : v.st.WellFormed) (sendFilesBack : Bool)
    {as : List Nat} (hnodup : as.Nodup) (has : ∀ a ∈ as, a ∈ v.st.ptrs) (n : Nat)
    {k : Option Nat → ServerM β} :
    Flows Q ⟨p, w, evictLoop client sendFilesBack (as.map some) n >>= k, v, ts, tc⟩ ↔
      Flows Q ⟨p, w, k (some (n - v.st.bytesOf (v.st.givenUp v.held client as n))),
        ⟨v.st.giveUps (v.st.givenUp v.held client as n), v.held⟩, ts,
        tc ++ if sendFilesBack then
          (v.st.givenUp v.held client as n).flatMap v.st.notice else []⟩ := by
  induction as generalizing n v tc with
  | nil => simp [evictLoop, givenUp, bytesOf, giveUps]
  | cons a as ih =>
      obtain ⟨hna, hnodup'⟩ := List.nodup_cons.mp hnodup
      have has' : ∀ b ∈ as, b ∈ v.st.ptrs := fun b hb => has b (List.mem_cons_of_mem _ hb)
      have ha := has a (List.mem_cons_self ..)
      obtain ⟨f, hf⟩ := Option.ne_none_iff_exists'.mp (hwf.accounted.live a ha)
      have hfile := file_eq _ hf
      rw [List.map_cons, evictLoop, givenUp]
      by_cases h0 : n = 0
      · rw [if_pos h0, if_pos h0, ret_bind]
        simp [h0, giveUps]
      · rw [if_neg h0, if_neg h0, deref_bind, flows_deref hf, trylock_bind,
          flows_server_trylock]
        by_cases hm : Mutex.file a ∈ v.held
        · have hskip : ¬ v.st.Evictable v.held client a := fun he => he.1 hm
          rw [if_neg hskip, Finset.insert_eq_of_mem hm]
          simp only [hm, not_true_eq_false, decide_false]
          exact ih hwf hnodup' has' n
        · simp only [hm, not_false_eq_true, decide_true]
          rw [deref_bind, flows_deref (v := ⟨v.st, insert (.file a) v.held⟩) hf, ite_bind]
          split
          · next hother =>
              have hskip : ¬ v.st.Evictable v.held client a := by
                rw [Evictable, hfile]
                tauto
              rw [if_neg hskip, unlock_bind, flows_server_unlock]
              dsimp only
              rw [Finset.erase_insert hm]
              exact ih hwf hnodup' has' n
          · next howner =>
              have he : v.st.Evictable v.held client a := by
                rw [Evictable, hfile]
                exact ⟨hm, by tauto⟩
              have hwo : Without v.st (v.st.giveUp a) [a] := hwf.without_giveUp ha
              have hin : ∀ b ∈ as, b ∈ (v.st.giveUp a).ptrs := fun b hb => by
                refine (List.mem_append.mp (hwo.ptrs.mem_iff.mp (has' b hb))).resolve_left ?_
                exact fun hba => hna (List.mem_singleton.mp hba ▸ hb)
              set rest := v.st.givenUp v.held client as (n - (v.st.file a).dataLen) with hrest
              have hnotin : a ∉ rest := fun hm => hna ((givenUp_sublist ..).subset hm)
              have hless : (if f.dataLen > n then 0 else n - f.dataLen) =
                  n - (v.st.file a).dataLen := by
                rw [hfile]
                split <;> omega
              have hsum : n - (v.st.file a).dataLen - v.st.bytesOf rest =
                  n - v.st.bytesOf (a :: rest) := by
                simp only [bytesOf, List.map_cons, List.sum_cons]
                omega
              have hsent : (if sendFilesBack then v.st.notice a else []) ++
                  (if sendFilesBack then rest.flatMap (v.st.giveUp a).notice else []) =
                  if sendFilesBack then (a :: rest).flatMap v.st.notice else [] := by
                cases sendFilesBack with
                | false => rfl
                | true =>
                    simp only [if_true, List.flatMap_cons]
                    congr 1
                    exact List.flatMap_congr fun b hb => hwo.notice_eq fun e => hnotin (e ▸ hb)
              have ih := @ih ⟨v.st.giveUp a, v.held⟩
                (tc ++ if sendFilesBack then v.st.notice a else []) (hwf.giveUp a) hnodup' hin
                (n - (v.st.file a).dataLen)
              dsimp only at ih
              rw [if_pos he, bind_assoc, flows_evictFile_bind
                  (v := ⟨v.st, insert (.file a) v.held⟩) hc hf hm rfl, if_pos rfl, hless, ih,
                hwo.givenUp_eq hna, hwo.bytesOf_eq hnotin, ← hrest, hsum, List.append_assoc,
                hsent]
              rfl

end Server

section Client

variable {α τ ν β : Type} [DecidableEq ν] {Q : Talk Saved Empty α τ ν β → Prop}
  {w : World Saved Empty} {q : Proc τ ν β} {v : World τ ν} {ts tc : Inbox} {disk : Disk}
  {dirname : List UInt8} {s : FileStorage} {a : Nat} {rounds datalen : Nat}
  {k : Int → ClientM α}

/-- Where the client saves a file. -/
def destPath (dirname path : List UInt8) : List UInt8 := dirname ++ [47] ++ path

/-- The three calls that put a destination together exit if the last one does. -/
theorem suAppendChars_dest {dirname path : List UInt8} (hne : path ≠ [])
    (k : List UInt8 → ClientM α) :
    (suAppendChars [] dirname fun d => suAppendChars d [47] fun d => suAppendChars d path k) =
      muRealloc ((destPath dirname path).length + 1) (k (destPath dirname path)) := by
  have hlen : (destPath dirname path).length = dirname.length + 1 + path.length := by
    rw [destPath, List.length_append, List.length_append, List.length_singleton]
  have hpos : path.length ≠ 0 := by simpa using hne
  have hlast : ∀ d, d = dirname ++ [47] → suAppendChars d path k =
      muRealloc ((destPath dirname path).length + 1) (k (destPath dirname path)) := by
    intro d heq
    subst heq
    have hcat : (dirname ++ [47] ++ path).length = (dirname ++ [47]).length + path.length :=
      List.length_append
    rw [suAppendChars, if_neg hpos, destPath, hcat]
  have hslash : ∀ d, d = dirname → (suAppendChars d [47] fun d => suAppendChars d path k) =
      muRealloc ((destPath dirname path).length + 1) (k (destPath dirname path)) := by
    intro d heq
    subst heq
    rw [suAppendChars, if_neg (by decide), hlast _ rfl, muRealloc, muRealloc]
    split
    · next hlim =>
        rw [List.length_singleton] at hlim
        rw [if_pos (by omega)]
    · rfl
  rw [suAppendChars]
  split
  · next h0 => exact hslash _ (List.length_eq_zero_iff.mp h0).symm
  · rw [List.nil_append, hslash _ rfl, muRealloc, muRealloc]
    split
    · next hlim =>
        rw [List.length_nil] at hlim
        rw [if_pos (by omega)]
    · rfl

theorem flows_fuWriteToPath_bind {path data : List UInt8} (hshort : path.length < 256)
    (hwritable : disk.writable path = true) :
    Flows Q ⟨fuWriteToPath disk path data >>= k, w, q, v, ts, tc⟩ ↔
      Flows Q ⟨k 0, { w with st := w.st ++ [(path, data)] }, q, v, ts, tc⟩ := by
  rw [fuWriteToPath, if_neg (by omega), if_pos hwritable, get_bind, flows_client_get, set_bind,
    flows_client_set, ret_bind]

/-- The client reads the whole notice and can save what it says. -/
structure Savable (disk : Disk) (dirname : List UInt8) (f : FileData) : Prop where
  path_ne : f.path ≠ []
  data_ne : f.data ≠ []
  short : (destPath dirname f.path).length < 256
  writable : disk.writable (destPath dirname f.path) = true

theorem Savable.congr {f g : FileData} (h : Savable disk dirname f) (hp : f.path = g.path)
    (hd : f.data = g.data) : Savable disk dirname g :=
  ⟨hp ▸ h.path_ne, hd ▸ h.data_ne, hp ▸ h.short, hp ▸ h.writable⟩

theorem flows_sapiEvictLoop_notice_bind (hs : Savable disk dirname (s.file a))
    (h0 : (0 : UInt8) ∉ (s.file a).path) (hlen : (s.file a).data.length ≤ muLimit) :
    Flows Q ⟨sapiEvictLoop disk dirname (rounds + 1) datalen >>= k, w, q, v, ts,
        s.notice a ++ tc⟩ ↔
      Flows Q ⟨sapiEvictLoop disk dirname rounds (s.file a).data.length >>= k,
        { w with st := w.st ++ [(destPath dirname (s.file a).path, (s.file a).data)] },
        q, v, ts, tc⟩ := by
  have hlim : muLimit = 2 ^ 22 := rfl
  have hshort := hs.short
  simp only [destPath, List.length_append, List.length_cons, List.length_nil] at hshort
  rw [sapiEvictLoop, notice, bind_assoc, List.cons_append, flows_sapiGetResponse_bind,
    if_neg (not_not.mpr rfl), bind_assoc, chunks_block hs.path_ne, List.cons_append,
    List.append_assoc, List.singleton_append,
    flows_sapiGetPath_bind hs.path_ne h0 (by omega)]
  dsimp only
  rw [suAppendChars_dest hs.path_ne, muRealloc, if_neg (by have := hs.short; omega),
    bind_assoc, dataChunks, if_neg hs.data_ne, List.cons_append, List.singleton_append,
    flows_sapiGetData_bind hs.data_ne hlen]
  dsimp only
  rw [bind_assoc, flows_fuWriteToPath_bind hs.short hs.writable]

/-- The client's loop, over notices it can save and up to the last word. -/
theorem flows_sapiEvictLoop_bind {as : List Nat}
    (hs : ∀ a ∈ as, Savable disk dirname (s.file a) ∧ (0 : UInt8) ∉ (s.file a).path ∧
      (s.file a).data.length ≤ muLimit) (hrounds : as.length < rounds) {m : SMessage}
    (hm : m ≠ sapiEvictMsg) :
    Flows Q ⟨sapiEvictLoop disk dirname rounds datalen >>= k, w, q, v, ts,
        as.flatMap s.notice ++ LittleEndian.encode 4 m.toNat :: tc⟩ ↔
      Flows Q ⟨k 0, { w with st := w.st ++ as.map fun a =>
          (destPath dirname (s.file a).path, (s.file a).data) }, q, v, ts, tc⟩ := by
  induction as generalizing rounds datalen w with
  | nil =>
      obtain ⟨r, rfl⟩ : ∃ r, rounds = r + 1 := ⟨rounds - 1, by simp at hrounds; omega⟩
      rw [sapiEvictLoop, bind_assoc, List.flatMap_nil, List.nil_append,
        flows_sapiGetResponse_bind, if_pos hm, ret_bind, List.map_nil, List.append_nil]
  | cons a as ih =>
      obtain ⟨r, rfl⟩ : ∃ r, rounds = r + 1 := ⟨rounds - 1, by simp at hrounds; omega⟩
      obtain ⟨hsave, h0, hlen⟩ := hs a (List.mem_cons_self ..)
      rw [List.flatMap_cons, List.append_assoc, flows_sapiEvictLoop_notice_bind hsave h0 hlen,
        ih (fun b hb => hs b (List.mem_cons_of_mem _ hb)) (by simp at hrounds; omega),
        List.map_cons]
      dsimp only
      rw [List.append_assoc, List.singleton_append]

/-- The client's loop, over any notices with contents. It may end early, at a
destination that is too long or a path that is empty. -/
theorem flows_sapiEvictLoop_over {as : List Nat} {m : SMessage} (hm : m ≠ sapiEvictMsg)
    (hs : ∀ a ∈ as, (s.file a).data ≠ [] ∧ (0 : UInt8) ∉ (s.file a).path ∧
      (s.file a).path.length < muLimit ∧ (s.file a).data.length ≤ muLimit)
    (hover : ∀ p w tc, (p = .exit ∨ p = .fault) → Flows Q ⟨p, w, q, v, ts, tc⟩)
    (hdone : ∀ w, Flows Q ⟨k 0, w, q, v, ts, tc⟩)
    (hbad : ∀ w tc, Flows Q ⟨k (-1), w, q, v, ts, tc⟩) :
    Flows Q ⟨sapiEvictLoop disk dirname rounds datalen >>= k, w, q, v, ts,
      as.flatMap s.notice ++ LittleEndian.encode 4 m.toNat :: tc⟩ := by
  induction as generalizing rounds datalen w with
  | nil =>
      cases rounds with
      | zero => exact hover _ _ _ (.inr rfl)
      | succ rounds =>
          rw [sapiEvictLoop, bind_assoc, List.flatMap_nil, List.nil_append,
            flows_sapiGetResponse_bind, if_pos hm, ret_bind]
          exact hdone w
  | cons a as ih =>
      cases rounds with
      | zero => exact hover _ _ _ (.inr rfl)
      | succ rounds =>
          obtain ⟨hd, h0, hplen, hdlen⟩ := hs a (List.mem_cons_self ..)
          have ih := fun {rounds datalen w} => @ih rounds datalen w fun b hb =>
            hs b (List.mem_cons_of_mem _ hb)
          rw [sapiEvictLoop, List.flatMap_cons, notice, bind_assoc, List.cons_append,
            List.cons_append, flows_sapiGetResponse_bind, if_neg (not_not.mpr rfl), bind_assoc,
            List.cons_append, List.cons_append]
          by_cases hp : (s.file a).path = []
          · rw [hp, List.length_nil, flows_sapiGetPath_bind_zero]
            exact hbad _ _
          · rw [chunks_block hp, List.append_assoc, List.append_assoc, List.cons_append,
              flows_sapiGetPath_bind hp h0 (by omega)]
            dsimp only
            rw [suAppendChars_dest hp, muRealloc]
            split
            · exact hover _ _ _ (.inl rfl)
            · rw [bind_assoc, dataChunks, if_neg hd, List.nil_append, List.cons_append,
                List.singleton_append, flows_sapiGetData_bind hd hdlen]
              dsimp only
              rw [bind_assoc, fuWriteToPath]
              split
              · exact hover _ _ _ (.inr rfl)
              · split
                · rw [get_bind, flows_client_get, set_bind, flows_client_set, ret_bind]
                  exact ih
                · exact ih

theorem flows_appendToFileAnswered_evict {Q : Talk Saved Empty Int τ ν β → Prop}
    {data : List UInt8} :
    Flows Q ⟨appendToFileAnswered disk rounds data (some dirname) sapiEvictMsg, w, q, v, ts,
        tc⟩ ↔
      Flows Q ⟨sapiEvictLoop disk dirname rounds 0 >>= fun r =>
          if r = -1 then .ret (-1) else sapiSendContents data,
        w, q, v, ts ++ [LittleEndian.encode 8 1], tc⟩ := by
  rw [appendToFileAnswered, if_pos (by decide), if_neg (not_not.mpr rfl), sapiEvict, bind_assoc,
    flows_sapiSenddatalen_bind, if_neg (by decide)]

end Client

/-! ## The two sides of an eviction -/

section Evict

variable {α β : Type} {Q : Talk Saved Empty α FileStorage Mutex β → Prop}
  {w : World Saved Empty} {v : World FileStorage Mutex} {ts tc : Inbox} {client : Int}
  {qsort : Qsort Nat} {n : Nat} {arr : UArr Nat} {p : ClientM α} {k : Int → ServerM β}

/-- Too little is stored: the server does not begin. -/
theorem flows_serverEvict_short_bind (hwf : v.st.WellFormed)
    (harr : v.st.fuEvictFiles qsort n = some arr)
    (hshort : v.st.storedBytes < n ∨ v.st.ptrs = []) :
    Flows Q ⟨p, w, serverEvict qsort client n >>= k, v, ts, tc⟩ ↔
      Flows Q ⟨p, w, k (-1), v, ts, tc⟩ := by
  rw [serverEvict, get_bind, flows_server_get, harr]
  dsimp only
  rcases hwf.fuEvictFiles_cases harr with ⟨hlen, -⟩ | ⟨-, hn, hne, -⟩
  · rw [if_pos hlen]
    rfl
  · rcases hshort with h | h
    · omega
    · exact absurd h hne

/-- The server announces the eviction, the client answers with a flag and goes
on as `p`, and the server runs its loop and says how it ended. -/
theorem flows_serverEvict_bind (hc : client ≠ 0) (hwf : v.st.WellFormed)
    (harr : v.st.fuEvictFiles qsort n = some arr) (hn : n ≤ v.st.storedBytes)
    (hne : v.st.ptrs ≠ []) {flag : Nat} (hflag : flag < 2 ^ 64) {K : SMessage → ClientM α}
    (hK : ∀ q v, Flows Q ⟨K sapiEvictMsg, w, q, v, [], []⟩ ↔
      Flows Q ⟨p, w, q, v, LittleEndian.encode 8 flag :: ts, []⟩) :
    Flows Q ⟨sapiGetResponse >>= K, w, serverEvict qsort client n >>= k, v, [], []⟩ ↔
      Flows Q ⟨p, w,
        k (if n ≤ v.st.bytesOf (v.st.victims qsort v.held client n) then 0 else -1),
        ⟨v.st.giveUps (v.st.victims qsort v.held client n), v.held⟩, ts,
        (if flag ≠ 0 then (v.st.victims qsort v.held client n).flatMap v.st.notice else []) ++
          [LittleEndian.encode 4 (if n ≤ v.st.bytesOf (v.st.victims qsort v.held client n)
            then sapiSuccess else sapiFailure).toNat]⟩ := by
  rw [serverEvict, get_bind, flows_server_get, harr]
  dsimp only
  rcases hwf.fuEvictFiles_cases harr with ⟨-, h | h⟩ | ⟨hlen, -, -, hslots⟩
  · omega
  · exact absurd h hne
  · have hperm := v.st.evictOrder_perm qsort
    rw [if_neg hlen, bind_assoc, flows_serverRespond_bind hc, if_neg (by decide),
      List.nil_append, flows_sapiGetResponse_bind, hK, bind_assoc,
      flows_serverGetLen_bind hc hflag, bind_assoc, hslots,
      flows_evictLoop_bind hc hwf _ (hperm.nodup_iff.mpr hwf.accounted.nodup)
        (fun a ha => hperm.mem_iff.mp ha), ← victims]
    set gone := v.st.victims qsort v.held client n
    dsimp only
    by_cases henough : n ≤ v.st.bytesOf gone
    · rw [if_pos henough, if_pos henough, if_pos (by omega)]
      rw [sapiRespond, bind_assoc, flows_serverRespond_bind hc, if_neg (by decide), ret_bind,
        List.nil_append]
      simp only [decide_eq_true_eq]
    · rw [if_neg henough, if_neg henough, if_neg (by omega)]
      rw [sapiRespond, bind_assoc, flows_serverRespond_bind hc, if_neg (by decide), ret_bind,
        List.nil_append]
      simp only [decide_eq_true_eq]

end Evict

end LsoStore
