import LsoStore.FileIo
import LsoStore.ServerApi

/-!
# Reading a whole file

The loop of `fu_file_read` reads whole chunks until one comes back short. Before
every `fread` the buffer holds what was read and one chunk of room behind it, so
it never writes outside, and since what was read is a number of whole chunks, the
buffer stays within the allocator's limit exactly for files below it.
-/

namespace LsoStore

namespace Block

variable {data : Block} {done chunk junk : List UInt8} {room : Block}

theorem write_append (bytes : List UInt8) :
    (Block.write (done.map some ++ room) done.length bytes) =
      (done ++ bytes).map some ++ room.drop bytes.length := by
  have hdrop : (done.map some ++ room).drop (done.length + bytes.length) =
      room.drop bytes.length := by
    rw [List.drop_append, List.length_map, Nat.add_sub_cancel_left,
      List.drop_eq_nil_of_le (by simp), List.nil_append]
  rw [write, hdrop, List.map_append]
  congr 2
  rw [List.take_append_of_le_length (by simp), List.take_of_length_le (by simp)]

theorem muRealloc_grow (size : Nat) (h : data.length ≤ size) (hlimit : size ≤ muLimit) :
    data.muRealloc size = some (data ++ List.replicate (size - data.length) none) := by
  rw [muRealloc, if_neg (by omega), List.take_of_length_le h]

theorem muRealloc_exact (hlimit : done.length ≤ muLimit) :
    Block.muRealloc (done.map some ++ room) done.length = some (done.map some) := by
  have htake : (done.map some ++ room).take done.length = done.map some := by
    rw [List.take_append_of_le_length (by simp), List.take_of_length_le (by simp)]
  have hpad : done.length - (done.map some ++ room).length = 0 := by
    simp
  rw [muRealloc, if_neg (by omega), htake, hpad, List.replicate_zero, List.append_nil]

end Block

/-- The state of the loop before an `fread`: some whole chunks are read, and the
buffer has room for one more. -/
structure ReadingChunk (datachunk : Nat) (done left : List UInt8) (f : CFile)
    (data : Block) : Prop where
  rest : f.rest = left
  eof : f.eof = false
  chunks : done.length % datachunk = 0
  size : done.length + datachunk ≤ muLimit
  room : ∃ room : Block, room.length = datachunk ∧ data = done.map some ++ room

namespace ReadingChunk

variable {datachunk : Nat} {done left : List UInt8} {f : CFile} {data : Block}

theorem length (h : ReadingChunk datachunk done left f data) :
    data.length = done.length + datachunk := by
  obtain ⟨room, hroom, rfl⟩ := h.room
  rw [List.length_append, List.length_map, hroom]

theorem read (h : ReadingChunk datachunk done left f data) :
    (f.fread datachunk).1 = left.take datachunk ∧
      (f.fread datachunk).2.rest = left.drop datachunk ∧
      (f.fread datachunk).2.eof = decide (left.length < datachunk) := by
  rw [CFile.fread_fst, CFile.fread_rest, CFile.fread_eof, h.rest, h.eof, Bool.false_or]
  exact ⟨rfl, rfl, rfl⟩

/-- After a full chunk and the `mu_realloc` that follows it. -/
theorem next (h : ReadingChunk datachunk done left f data) (hfull : datachunk ≤ left.length)
    (hsize : done.length + datachunk + datachunk ≤ muLimit) :
    ∃ data', (data.write done.length (left.take datachunk)).muRealloc
        (done.length + datachunk + datachunk) = some data' ∧
      ReadingChunk datachunk (done ++ left.take datachunk) (left.drop datachunk)
        (f.fread datachunk).2
        data' := by
  obtain ⟨room, hroom, hdata⟩ := h.room
  have htake : (left.take datachunk).length = datachunk := by
    rw [List.length_take, Nat.min_eq_left hfull]
  have hwrite : data.write done.length (left.take datachunk) =
      (done ++ left.take datachunk).map some := by
    rw [hdata, Block.write_append, htake, ← hroom, List.drop_length,
      List.append_nil]
  have hlen : (data.write done.length (left.take datachunk)).length =
      done.length + datachunk := by
    rw [hwrite, List.length_map, List.length_append, htake]
  obtain ⟨-, hrest, heof⟩ := h.read
  refine ⟨_, Block.muRealloc_grow _ (by omega) hsize, hrest, ?_, ?_, ?_,
    ⟨_, ?_, by rw [hwrite]⟩⟩
  · rw [heof]
    simpa using hfull
  · have := h.chunks
    rw [List.length_append, htake, Nat.add_mod_right, this]
  · rw [List.length_append, htake]
    exact hsize
  · rw [List.length_replicate, ← hwrite, hlen]
    omega

end ReadingChunk

/-- From any `fread` on, the loop ends with all of the file in the buffer, or in the
allocator when the file is too large for it. -/
theorem fuFileReadLoop_spec {ferror : Nat → Bool} (herr : ∀ n, ferror n = false)
    {datachunk : Nat} (hchunk : datachunk = 1024) {done left : List UInt8} {f : CFile}
    {data : Block}
    (h : ReadingChunk datachunk done left f data) {rounds : Nat}
    (hrounds : left.length / 1024 + 2 ≤ rounds) (call : Nat) :
    (done.length + left.length < muLimit ∧
      ∃ room : Block, fuFileReadLoop ferror datachunk rounds call f done.length done.length data =
        .ret (some (done.length + left.length, (done ++ left).map some ++ room))) ∨
    (muLimit ≤ done.length + left.length ∧
      fuFileReadLoop ferror datachunk rounds call f done.length done.length data = .exit) := by
  have hlimit : muLimit = 4096 * 1024 := rfl
  induction rounds generalizing done left f data call with
  | zero => exact absurd hrounds (Nat.not_succ_le_zero _)
  | succ rounds ih =>
      have heof := h.eof
      have hfits : ¬ done.length + datachunk > data.length := by
        have := h.length
        omega
      obtain ⟨hbytes, hrest, heof'⟩ := h.read
      rw [fuFileReadLoop, heof, if_neg Bool.false_ne_true, if_neg hfits]
      dsimp only
      rw [herr call, if_neg Bool.false_ne_true, hbytes]
      rcases Nat.lt_or_ge left.length datachunk with hshort | hfull
      · -- the last, short chunk
        have htake : left.take datachunk = left := List.take_of_length_le (Nat.le_of_lt hshort)
        have hsize := h.size
        refine .inl ⟨by omega, ?_⟩
        obtain ⟨room, hroom, rfl⟩ := h.room
        obtain ⟨rounds, rfl⟩ : ∃ m, rounds = m + 1 := ⟨rounds - 1, by omega⟩
        have hne : ¬ left.length = datachunk := by omega
        refine ⟨room.drop left.length, ?_⟩
        rw [htake]
        simp only [hne, if_false]
        rw [fuFileReadLoop, heof', decide_eq_true hshort, if_pos rfl,
          Block.write_append]
      · have htake : (left.take datachunk).length = datachunk := by
          rw [List.length_take, Nat.min_eq_left hfull]
        have hdrop : (left.drop datachunk).length = left.length - datachunk := List.length_drop
        have hchunks : done.length % 1024 = 0 := hchunk ▸ h.chunks
        rw [if_pos htake, htake]
        rcases Nat.lt_or_ge muLimit (done.length + datachunk + datachunk) with hbig | hsmall
        · refine .inr ⟨by omega, ?_⟩
          rw [Block.muRealloc, if_pos hbig]
        · obtain ⟨data', hrealloc, hnext⟩ := h.next hfull hsmall
          have hlen : (done ++ left.take datachunk).length = done.length + datachunk := by
            rw [List.length_append, htake]
          have hrec := ih hnext (by rw [hdrop, hchunk]; omega) (call + 1)
          rw [hrealloc]
          dsimp only
          rw [hlen, hdrop, List.append_assoc, List.take_append_drop] at hrec
          have htotal : done.length + datachunk + (left.length - datachunk) =
              done.length + left.length := by omega
          rwa [htotal] at hrec

/-- `fu_file_read` of a file that can be read, into an empty record: all of it is
in the record, or it is too large for the allocator and the process exits. -/
theorem fuFileRead_eq (file : OpenedFile) (herr : ∀ n, file.ferror n = false) {rounds : Nat}
    (hrounds : file.bytes.length / 1024 + 2 ≤ rounds) :
    fuFileRead rounds (some file) ⟨none, 0⟩ =
      if file.bytes.length < muLimit then
        .ret (if file.fclose then -1 else 0,
          ⟨if file.bytes = [] then none else some (file.bytes.map some), file.bytes.length⟩)
      else .exit := by
  have hstart : ReadingChunk 1024 [] file.bytes (.fopen file.bytes)
      (List.replicate 1024 none) :=
    ⟨rfl, rfl, rfl, by decide, _, List.length_replicate, rfl⟩
  have hspec := fuFileReadLoop_spec herr rfl hstart hrounds 0
  rw [List.length_nil, Nat.zero_add, List.nil_append] at hspec
  simp only [fuFileRead, ne_eq, not_true_eq_false, and_false, if_false]
  rcases hspec with ⟨hlt, room, hloop⟩ | ⟨hge, hloop⟩
  · rw [hloop, if_pos hlt]
    dsimp only
    rcases List.eq_nil_or_concat file.bytes with hnil | ⟨_, _, hne⟩
    · rw [if_pos (by rw [hnil]; rfl), if_pos hnil]
    · have hpos : file.bytes ≠ [] := by simp [hne]
      rw [if_neg (by simpa using hpos), Block.muRealloc_exact (by omega), if_neg hpos]
  · rw [hloop, if_neg (Nat.not_lt.mpr hge)]

/-- A file of fewer than 2^22 bytes is read as it is, and no `fread` on the way
leaves the buffer. -/
theorem read_whole_file (file : OpenedFile) (herr : ∀ n, file.ferror n = false)
    (hclose : file.fclose = false) (hlen : file.bytes.length < 2 ^ 22) {rounds : Nat}
    (hrounds : file.bytes.length / 1024 + 2 ≤ rounds) :
    fuFileRead rounds (some file) ⟨none, 0⟩ =
      .ret (0, ⟨if file.bytes = [] then none else some (file.bytes.map some),
        file.bytes.length⟩) := by
  have hlimit : file.bytes.length < muLimit := hlen
  rw [fuFileRead_eq file herr hrounds, if_pos hlimit, hclose, if_neg Bool.false_ne_true]

/-- A file of more than one chunk, for which the buffer grows. -/
theorem read_whole_file_two_chunks :
    fuFileRead 3 (some ⟨List.replicate 1500 7, fun _ => false, false⟩) ⟨none, 0⟩ =
      .ret (0, ⟨some (List.replicate 1500 (some 7)), 1500⟩) := by
  have hlen : (List.replicate 1500 (7 : UInt8)).length = 1500 := List.length_replicate
  have hne : List.replicate 1500 (7 : UInt8) ≠ [] := List.ne_nil_of_length_eq_add_one hlen
  rw [read_whole_file ⟨List.replicate 1500 7, fun _ => false, false⟩ (fun _ => rfl) rfl
    (hlen.trans_lt (by decide)) (by dsimp only; rw [hlen])]
  dsimp only
  rw [if_neg hne, hlen, List.map_replicate]

/-- The client's calls see a file that can be read as `fu_file_read` reads it. -/
theorem fuReadFromPath_eq {α : Type} (disk : Disk) (path : List UInt8)
    (k : Option (List UInt8) → ClientM α) {bytes : List UInt8} (hread : disk.read path = some bytes)
    {rounds : Nat} (hrounds : bytes.length / 1024 + 2 ≤ rounds) :
    fuReadFromPath disk path k =
      match fuFileRead rounds (some ⟨bytes, fun _ => false, false⟩) ⟨none, 0⟩ with
      | .ret (_, file) => k (some ((file.data.getD []).filterMap id))
      | _ => .exit := by
  have hbytes : ((if bytes = [] then none else some (bytes.map some)).getD []).filterMap id =
      bytes := by
    split
    · next hnil => rw [hnil]; rfl
    · simp [List.filterMap_map]
  rw [fuReadFromPath, hread, fuFileRead_eq _ (fun _ => rfl) hrounds]
  dsimp only
  rcases Nat.lt_or_ge bytes.length muLimit with hlt | hge
  · rw [if_neg (Nat.not_le.mpr hlt), if_pos hlt]
    dsimp only
    rw [hbytes]
  · rw [if_pos hge, if_neg (Nat.not_lt.mpr hge)]

end LsoStore
