import VirtualNoah.Yaffs.Headers

/-!
# The pages of an image

Where every write is complete, the image is the row of the pages of the chunks, in
the order of their calls, and the chunks with the number of an object are its header
and then its data.
-/

namespace VirtualNoah

open ByteStore SortedTable

/-- Every write is complete. -/
def Env.Succeeds (env : Env) : Prop := ∀ call count, env.write call count = count

/-- The page a chunk makes under layout 1, in a buffer of 2112 bytes. -/
def Chunk.page (chunk : Chunk) : Buf := fun j =>
  if j < 2048 then chunk.data j
  else if j < 2112 then tagsSpare (yaffsPackTags2 chunk.tags) (j - 2048)
  else 0

/-- The pages of the chunks. -/
def chunkPages (chunks : List Chunk) : Nat → Buf := fun k =>
  (chunks[k]?.map Chunk.page).getD (fill 0)

theorem chunkPages_of_lt {chunks : List Chunk} {k : Nat} (inside : k < chunks.length) :
    chunkPages chunks k = chunks[k].page := by
  rw [chunkPages, List.getElem?_eq_getElem inside]
  rfl

/-- The output file holds the pages of the chunks. -/
structure Paged (out : Output) : Prop where
  file : out.outFile = ⟨ByteFile.empty.pwrite 0 (2112 * out.chunks.length)
    (cells 2112 (chunkPages out.chunks)), 2112 * out.chunks.length⟩
  nPages : out.nPages = out.chunks.length

theorem Paged.size {out : Output} (paged : Paged out) :
    out.outFile.file.size = out.nPages * 2112 := by
  rw [paged.file, paged.nPages]
  dsimp only
  rcases Nat.eq_zero_or_pos out.chunks.length with none | some
  · rw [none, Nat.mul_zero, ByteFile.pwrite_zero_len]
    rfl
  · rw [ByteFile.pwrite_size_of_pos (by omega), Nat.zero_add, Nat.mul_comm]
    exact Nat.max_eq_right (Nat.zero_le _)

theorem Paged.byte {out : Output} (paged : Paged out) {k j : Nat} (inside : k < out.chunks.length)
    (column : j < 2112) : out.outFile.file.byte (2112 * k + j) = out.chunks[k].page j := by
  have byte := @ByteFile.pwrite_cells_byte .empty 0 2112 _ _ _ (chunkPages out.chunks) inside column
  rw [Nat.zero_add] at byte
  rw [paged.file, byte, chunkPages_of_lt inside]

/-! ## Chunks of an object -/

/-- Data chunk `i` of a file. -/
def dataChunk (objId : Int) (content : ByteFile) (i : Nat) : Chunk :=
  let nBytes := min 2048 (content.size - 2048 * i)
  ⟨blit (fill 0xff) 0 (shift content.byte (2048 * i)) nBytes, objId, i + 1, nBytes⟩

/-- The number of data chunks of a file. -/
def dataCount (content : ByteFile) : Nat := (content.size + 2047) / 2048

/-- A read behind chunk `k` takes that chunk, in a buffer filled with ones. -/
theorem read_dataChunk (objId : Int) {content : ByteFile} {k : Nat}
    (inside : 2048 * k ≤ content.size) :
    (Fd.mk content (2048 * k)).read (fill 0xff) chunkSize =
      ((dataChunk objId content k).nBytes, (dataChunk objId content k).data,
        ⟨content, min (2048 * (k + 1)) content.size⟩) := by
  have next : 2048 * k + min 2048 (content.size - 2048 * k) =
      min (2048 * (k + 1)) content.size := by omega
  rw [← next]
  rfl

/-- The data chunks of an object, which only regular files have. -/
def contentChunks (h : Header) : List Chunk :=
  if h.type = .file then
    match h.entry.data with
    | none => []
    | some data => (List.range (dataCount data.content)).map (dataChunk h.objId data.content)
  else []

/-- The chunks of an object: its header, and its data. -/
def objectChunks (h : Header) : List Chunk := h.chunk :: contentChunks h

theorem mem_contentChunks {h : Header} {chunk : Chunk} (member : chunk ∈ contentChunks h) :
    chunk.objId = h.objId ∧ chunk.chunkId ≤ (contentChunks h).length := by
  unfold contentChunks at member ⊢
  split at member
  next file =>
    rw [if_pos file]
    split at member
    next => cases member
    next data _ =>
      obtain ⟨i, inside, rfl⟩ := List.mem_map.mp member
      rw [List.length_map, List.length_range]
      exact ⟨rfl, List.mem_range.mp inside⟩
  next => cases member

theorem mem_objectChunks {h : Header} {chunk : Chunk} (member : chunk ∈ objectChunks h) :
    chunk.objId = h.objId ∧ chunk.chunkId < (objectChunks h).length := by
  rcases List.mem_cons.mp member with rfl | content
  · exact ⟨rfl, Nat.succ_pos _⟩
  · obtain ⟨same, bound⟩ := mem_contentChunks content
    exact ⟨same, Nat.lt_succ_of_le bound⟩

/-! ## Writing the pages -/

section Success

variable {env : Env} {out : Output}

/-- A complete call of `write_chunk` appends the page of the chunk. -/
theorem writeChunk_success (succeeds : env.Succeeds) (layout : env.layoutNo = 1)
    (paged : Paged out) (chunk : Chunk) :
    ∃ out', writeChunk env out chunk = .ok (64, out') ∧ Paged out' ∧
      out'.chunks = out.chunks ++ [chunk] := by
  have spare : spareBuf env (yaffsPackTags2 chunk.tags) =
      .ok (tagsSpare (yaffsPackTags2 chunk.tags)) := by
    rw [spareBuf, layout, if_neg (by decide), nandmtd2Pt2buf_layout_one]
    rfl
  simp only [writeChunk, Output.write, spare, succeeds _ _]
  rw [if_neg (by rw [chunkSize]; omega)]
  refine ⟨_, rfl, ⟨?_, ?_⟩, rfl⟩
  · -- the two writes are the page, and the page extends the row
    have joined : ∀ j, j < 2112 → (if j < 2048 then chunk.data j
        else tagsSpare (yaffsPackTags2 chunk.tags) (j - 2048)) = chunk.page j := by
      intro j inside
      rw [Chunk.page, if_pos inside]
    have row : ∀ k, k < out.chunks.length → ∀ j, j < 2112 →
        chunkPages out.chunks k j = chunkPages (out.chunks ++ [chunk]) k j := by
      intro k inside j _
      rw [chunkPages_of_lt inside, chunkPages_of_lt (by rw [List.length_append]; omega),
        List.getElem_append_left inside]
    have last : chunkPages (out.chunks ++ [chunk]) out.chunks.length = chunk.page := by
      rw [chunkPages_of_lt (by rw [List.length_append]; exact Nat.lt_succ_self _),
        List.getElem_concat_length rfl]
    have append := @ByteFile.pwrite_cells_concat .empty 0 2112 out.chunks.length
      (chunkPages (out.chunks ++ [chunk]))
    rw [Nat.zero_add, last] at append
    rw [List.length_append, List.length_singleton, ← append,
      ← ByteFile.pwrite_cells_congr (by decide) row]
    simp only [paged.file, Fd.write, chunkSize, spareSize, Int.toNat_natCast,
      ByteFile.pwrite_pwrite_append, Nat.add_assoc, Nat.reduceAdd, ByteFile.pwrite_congr joined,
      Nat.mul_succ]
  · rw [List.length_append, ← paged.nPages]
    rfl

/-- The copy of a file from chunk `k` on; the last read finds the end of the file. -/
theorem copyFile_success (succeeds : env.Succeeds) (layout : env.layoutNo = 1)
    {objId : Int} {data : FileData} (readable : data.readFails = none) {rounds k n : Nat}
    (left : k + n = dataCount data.content) (enough : n < rounds) (paged : Paged out) :
    ∃ out', copyFile env objId data rounds k
        ⟨data.content, min (2048 * k) data.content.size⟩ out = .ok out' ∧ Paged out' ∧
      out'.chunks = out.chunks ++ (List.range' k n).map (dataChunk objId data.content) := by
  rw [dataCount] at left
  induction n generalizing rounds k out with
  | zero =>
    obtain ⟨rounds, rfl⟩ : ∃ r, rounds = r + 1 := ⟨rounds - 1, by omega⟩
    refine ⟨out, ?_, paged, (List.append_nil _).symm⟩
    rw [copyFile, readable, if_neg (by simp)]
    have none : ¬ 0 < min 2048 (data.content.size - min (2048 * k) data.content.size) := by omega
    exact if_neg none
  | succ n ih =>
    obtain ⟨rounds, rfl⟩ : ∃ r, rounds = r + 1 := ⟨rounds - 1, by omega⟩
    have inside : 2048 * k ≤ data.content.size := by omega
    have start : min (2048 * k) data.content.size = 2048 * k := Nat.min_eq_left inside
    obtain ⟨m, written, paged', chunks⟩ :=
      writeChunk_success succeeds layout paged (dataChunk objId data.content k)
    obtain ⟨out', rest, pagedEnd, chunks'⟩ :=
      ih (by omega : k + 1 + n = _) (by omega : n < rounds) paged'
    refine ⟨out', ?_, pagedEnd, ?_⟩
    · have some : 0 < (dataChunk objId data.content k).nBytes :=
        show 0 < min 2048 (data.content.size - 2048 * k) by omega
      have call : writeChunk env out ⟨(dataChunk objId data.content k).data, objId, k + 1,
          (dataChunk objId data.content k).nBytes⟩ = .ok (64, m) := written
      rw [copyFile, readable, if_neg (by simp), start, read_dataChunk objId inside]
      simp only [if_pos some, call]
      exact rest
    · rw [chunks', chunks, List.range'_succ, List.map_cons, List.append_assoc]
      rfl

/-- The contents of a regular file can be opened and read. -/
def Readable (entry : EntryInfo) : Prop :=
  ∃ data, entry.data = some data ∧ data.readFails = none

/-- An object leaves its chunks, and the error of `write_object_header` is its result. -/
theorem emitObject_success (succeeds : env.Succeeds) (layout : env.layoutNo = 1)
    (paged : Paged out) (h : Header) (readable : h.type = .file → Readable h.entry) :
    ∃ out', emitObject env out h = .ok out' ∧ Paged out' ∧
      out'.chunks = out.chunks ++ objectChunks h ∧
      (h.type ≠ .file → out'.error = 64) := by
  obtain ⟨m, written, paged', chunks⟩ := writeChunk_success succeeds layout
    (show Paged { out with headers := out.headers ++ [h] } from ⟨paged.file, paged.nPages⟩)
    h.chunk
  rw [Header.chunk] at written
  let m' : Output := { m with error := 64 }
  have pagedHeader : Paged m' := ⟨paged'.file, paged'.nPages⟩
  simp only [emitObject, writeObjectHeader, written]
  by_cases file : h.type = .file
  · obtain ⟨data, opened, reads⟩ := readable file
    have content : contentChunks h =
        (List.range (dataCount data.content)).map (dataChunk h.objId data.content) := by
      rw [contentChunks, if_pos file, opened]
    have enough : dataCount data.content < data.content.size / 2048 + 2 := by
      rw [dataCount]
      omega
    obtain ⟨out', copied, pagedEnd, chunks'⟩ := @copyFile_success env m' succeeds layout h.objId
      data reads (data.content.size / 2048 + 2) 0 _ (Nat.zero_add _) enough pagedHeader
    rw [Nat.mul_zero, Nat.zero_min] at copied
    refine ⟨out', ?_, pagedEnd, ?_, fun other => absurd file other⟩
    · rw [if_pos ⟨file, by decide⟩, opened]
      exact copied
    · rw [chunks', ← List.range_eq_range', ← content]
      exact congrArg (· ++ contentChunks h) chunks |>.trans (List.append_assoc _ _ _)
  · have content : contentChunks h = [] := if_neg file
    rw [if_neg fun both => file both.1]
    refine ⟨m', rfl, pagedHeader, ?_, fun _ => rfl⟩
    rw [objectChunks, content]
    exact chunks

end Success

/-! ## The walk -/

/-- The image so far, and the chunks of each object in it. -/
structure PagesInv (s : Mkyaffs) : Prop where
  paged : Paged s.out
  chunks : ∀ chunk ∈ s.out.chunks,
    0 < chunk.objId ∧ chunk.objId < s.objId ∧ chunk.chunkId < s.out.chunks.length
  headers : ∀ h ∈ s.out.headers, 0 < h.objId ∧ h.objId < s.objId ∧
    (h.type = .file → Readable h.entry) ∧
      s.out.chunks.filter (fun chunk => chunk.objId = h.objId) = objectChunks h
  number : 256 < s.objId ∧ s.objId ≤ 256 + s.out.chunks.length

namespace PagesInv

variable {env : Env} {s s' : Mkyaffs} {h : Header}

theorem filter_objectChunks {objId : Int} (same : h.objId = objId) :
    (objectChunks h).filter (fun chunk => chunk.objId = objId) = objectChunks h :=
  List.filter_eq_self.mpr fun _ member => decide_eq_true ((mem_objectChunks member).1.trans same)

/-- A new object adds its chunks, and those of the others stay. -/
theorem emit (inv : PagesInv s) (succeeds : env.Succeeds) (layout : env.layoutNo = 1)
    (readable : h.type = .file → Readable h.entry) (number : h.objId = s.objId)
    (next : s'.objId = s.objId + 1) (emitted : emitObject env s.out h = .ok s'.out) :
    PagesInv s' := by
  have headers : s'.out.headers = s.out.headers ++ [h] := (emitObject_headers emitted).1
  obtain ⟨out, emitted', paged, chunks, -⟩ :=
    emitObject_success succeeds layout inv.paged h readable
  obtain rfl := Except.ok.inj (emitted'.symm.trans emitted)
  have above := inv.number
  have length : s'.out.chunks.length = s.out.chunks.length + (objectChunks h).length := by
    rw [chunks, List.length_append]
  have some : 0 < (objectChunks h).length := Nat.succ_pos _
  refine ⟨paged, fun chunk given => ?_, fun g given => ?_, by omega⟩
  · rw [chunks, List.mem_append] at given
    rcases given with old | new
    · have := inv.chunks chunk old
      omega
    · have := mem_objectChunks new
      omega
  · rw [headers, List.mem_append, List.mem_singleton] at given
    rw [chunks, List.filter_append]
    rcases given with old | rfl
    · obtain ⟨positive, below, reads, held⟩ := inv.headers g old
      have others : (objectChunks h).filter (fun chunk => chunk.objId = g.objId) = [] := by
        refine List.filter_eq_nil_iff.mpr fun chunk member same => ?_
        have := (mem_objectChunks member).1
        have := of_decide_eq_true same
        omega
      exact ⟨positive, by omega, reads, by rw [held, others, List.append_nil]⟩
    · have none : s.out.chunks.filter (fun chunk => chunk.objId = g.objId) = [] := by
        refine List.filter_eq_nil_iff.mpr fun chunk member same => ?_
        have := inv.chunks chunk member
        have := of_decide_eq_true same
        omega
      exact ⟨by omega, by omega, readable, by rw [none, filter_objectChunks rfl, List.nil_append]⟩

theorem objectType_eq_file {mode : BitVec 32} (file : objectType mode = .file) : sIsReg mode := by
  unfold objectType at file
  split_ifs at file
  assumption

theorem visit {parent : Int} {entry : EntryInfo} {opened : Option Int} (inv : PagesInv s)
    (succeeds : env.Succeeds) (layout : env.layoutNo = 1)
    (readable : sIsReg entry.stats.mode → Readable entry)
    (visit : Visit env parent entry s s' opened) : PagesInv s' := by
  cases visit with
  | unhandled _ _ objId out =>
    obtain ⟨paged, chunks, headers, number⟩ := inv
    exact ⟨by rw [out]; exact paged, by rw [out, objId]; exact chunks,
      by rw [out, objId]; exact headers, by rw [out, objId]; exact number⟩
  | linked item _ _ _ objId emitted =>
    exact inv.emit succeeds layout (fun file => by cases file) rfl objId emitted
  | created _ _ _ _ objId emitted =>
    exact inv.emit succeeds layout (fun file => readable (objectType_eq_file file)) rfl objId
      emitted

theorem countDirectory (inv : PagesInv s) : PagesInv s.countDirectory :=
  ⟨inv.paged, inv.chunks, inv.headers, inv.number⟩

theorem clear (inv : PagesInv s) : PagesInv { s with out := { s.out with error := 0 } } :=
  ⟨⟨inv.paged.file, inv.paged.nPages⟩, inv.chunks, inv.headers, inv.number⟩

end PagesInv

/-- The header of the root is the first page. -/
theorem pagesInv_start {env : Env} (succeeds : env.Succeeds) (layout : env.layoutNo = 1)
    (root : EntryInfo) : ∃ out, emitObject env Mkyaffs.start.out (rootHeader root) = .ok out ∧
      PagesInv { Mkyaffs.start with out := out } ∧ out.headers = [rootHeader root] ∧
      out.error = 64 := by
  have empty : Paged Mkyaffs.start.out := by
    refine ⟨?_, rfl⟩
    rw [show 2112 * Mkyaffs.start.out.chunks.length = 0 from rfl, ByteFile.pwrite_zero_len]
    rfl
  obtain ⟨out, emitted, paged, chunks, error⟩ :=
    emitObject_success succeeds layout empty (rootHeader root) fun file => by cases file
  have headers := (emitObject_headers emitted).1
  have content : contentChunks (rootHeader root) = [] := if_neg (by simp [rootHeader])
  have single : out.chunks = objectChunks (rootHeader root) := chunks
  have length : out.chunks.length = 1 := by rw [single, objectChunks, content]; rfl
  refine ⟨out, emitted, ⟨paged, fun chunk given => ?_, fun h given => ?_, ?_⟩, headers,
    error (by simp [rootHeader])⟩
  · obtain ⟨same, bound⟩ := mem_objectChunks (single ▸ given)
    rw [same]
    exact ⟨show (0 : Int) < 1 by decide, show (1 : Int) < 257 by decide,
      by rw [single]; exact bound⟩
  · have root' : h ∈ [rootHeader root] := by
      rw [← List.nil_append [rootHeader root], ← show out.headers = [] ++ _ from headers]
      exact given
    obtain rfl := List.mem_singleton.mp root'
    refine ⟨show (0 : Int) < 1 by decide, show (1 : Int) < 257 by decide, fun file => ?_, ?_⟩
    · cases file
    · dsimp only
      rw [single]
      exact PagesInv.filter_objectChunks rfl
  · rw [length]
    exact ⟨show (256 : Int) < 257 by decide, show (257 : Int) ≤ 256 + 1 by decide⟩

end VirtualNoah
