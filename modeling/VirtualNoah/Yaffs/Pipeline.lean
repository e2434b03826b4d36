import VirtualNoah.Builder.ExactImage
import VirtualNoah.Yaffs.Pages

/-!
# From the directory tree to the flash

The image of the root file system goes through three programs: `mkyaffs2image`
makes its pages, the flash builder puts them into the flash file, and the kernel
finds the pages of an object by their tags.
-/

namespace VirtualNoah

open ByteStore

/-- Page `p` of the flash file with its OOB area, in a buffer of 2112 bytes. -/
def flashPage (file : ByteFile) (p : Nat) : Buf := fun j =>
  if j < 2112 then file.byte (2112 * p + j) else 0

/-- The tags the kernel reads from the spare area of a page, the free region of its
layout being `length` bytes long; `garbage` is what the buffer held before. -/
def pageTags (length : Nat) (garbage page : Buf) : ExtendedTags :=
  (nandmtd2ReadTags [(2, length)] (shift page 2048) garbage 0).getD yaffsInitialiseTags

/-- The first `byteCount` bytes of a page. -/
def pageBytes (length : Nat) (garbage page : Buf) : List Byte :=
  (List.range (pageTags length garbage page).byteCount.toNat).map page

/-- The pages with the number of an object among `count` pages, in flash order. -/
def objectPages (length : Nat) (garbage : Buf) (file : ByteFile) (first count : Nat)
    (objectId : BitVec 32) : List Buf :=
  ((List.range count).map fun k => flashPage file (first + k)).filter fun page =>
    (pageTags length garbage page).objectId = objectId

/-- The pages are the header of a file, with its type and its parent, and its data behind it: the
chunks are numbered from 0 on, and the bytes of the pages are those of the file. -/
structure HoldsFile (length : Nat) (garbage : Buf) (pages : List Buf) (h : Header)
    (content : ByteFile) : Prop where
  chunkIds : pages.map (fun page => (pageTags length garbage page).chunkId) =
    (List.range (dataCount content + 1)).map (BitVec.ofNat 32)
  header : ∀ page ∈ pages.head?, load32 page 0 = ObjectType.file.code ∧
    load32 page 4 = BitVec.ofInt 32 h.parent ∧ ∀ j, j < 2048 → page j = headerBytes h [] j
  bytes : pages.tail.flatMap (pageBytes length garbage) =
    (List.range content.size).map content.byte

/-! ## Reading a page -/

section Page

variable {length : Nat} {garbage : Buf} {chunk : Chunk}

theorem ofNat_and_extraHeaderInfoFlag {n : Nat} (small : n < 2 ^ 31) :
    BitVec.ofNat 32 n &&& extraHeaderInfoFlag = 0 := by
  have clear : n &&& 2 ^ 31 = 0 := by
    apply Nat.eq_of_testBit_eq
    intro i
    rw [Nat.testBit_and, Nat.testBit_two_pow, Nat.zero_testBit]
    by_cases top : 31 = i
    · rw [← top, Nat.testBit_lt_two_pow small, Bool.false_and]
    · rw [decide_eq_false top, Bool.and_false]
  have flag : extraHeaderInfoFlag.toNat = 2 ^ 31 := rfl
  apply BitVec.eq_of_toNat_eq
  rw [BitVec.toNat_and, BitVec.toNat_ofNat, Nat.mod_eq_of_lt (by omega), flag, clear]
  rfl

/-- The kernel finds the tags of the chunk. -/
theorem pageTags_page (room : 25 ≤ length) (small : chunk.chunkId < 2 ^ 31) :
    pageTags length garbage chunk.page = { yaffsInitialiseTags with
      eccResult := .noError, chunkUsed := 1, objectId := BitVec.ofInt 32 chunk.objId
      chunkId := BitVec.ofNat 32 chunk.chunkId, byteCount := BitVec.ofNat 32 chunk.nBytes
      sequenceNumber := yaffsLowestSequenceNumber } := by
  have spare : ∀ i, i < 25 → shift (shift chunk.page 2048) 2 i =
      shift (tagsSpare (yaffsPackTags2 chunk.tags)) 2 i := by
    intro i inside
    rw [shift_apply, shift_apply, shift_apply, Chunk.page, if_neg (by omega), if_pos (by omega),
      Nat.add_sub_cancel_left]
  rw [pageTags, nandmtd2ReadTags_region room, pt2OfByteBuf_congr spare, pt2OfByteBuf_tagsSpare,
    Option.getD_some]
  exact yaffsUnpackTags2_pack rfl (show yaffsLowestSequenceNumber ≠ 0xffffffff by decide)
    (ofNat_and_extraHeaderInfoFlag small)

end Page

/-! ## Placing the image -/

/-- The pages of the image are the first ones of the range. -/
theorem flashPage_putToFlash {flash : Fd} {out : Output} {imageStart imageEnd withOob : Int}
    (paged : Paged out) (oob : withOob ≠ 0) (nonneg : 0 ≤ imageStart) (int : imageStart < 2 ^ 31)
    (seek : SeekFits imageStart) (large : out.nPages ≤ pageCount imageStart imageEnd) {k : Nat}
    (inside : k < out.chunks.length) :
    flashPage (putToFlash flash out.outFile.file imageStart imageEnd withOob).file
      (firstPage imageStart + k) = out.chunks[k].page := by
  rw [paged.nPages] at large
  have nonneg' : 0 ≤ imageEnd := by
    rw [pageCount] at large
    omega
  have size : out.outFile.file.size = out.chunks.length * 2112 := by rw [paged.size, paged.nPages]
  have unit : unit withOob = 2112 := if_pos oob
  have row : k < pagesWritten out.outFile.file withOob (pageCount imageStart imageEnd) := by
    rw [pagesWritten, unit, size]
    omega
  rw [putToFlash_range nonneg int nonneg', seekBase, if_pos seek, Fd.write_file]
  funext j
  rw [flashPage]
  by_cases column : j < 2112
  · rw [if_pos column, Nat.mul_add, Nat.add_assoc, ByteFile.pwrite_cells_byte row column,
      writtenPage, unit, if_pos ⟨column, by omega⟩, paged.byte inside column]
  · rw [if_neg column, Chunk.page, if_neg (by omega), if_neg column]

theorem flashPages_putToFlash {flash : Fd} {out : Output} {imageStart imageEnd withOob : Int}
    (paged : Paged out) (oob : withOob ≠ 0) (nonneg : 0 ≤ imageStart) (int : imageStart < 2 ^ 31)
    (seek : SeekFits imageStart) (large : out.nPages ≤ pageCount imageStart imageEnd) :
    (List.range out.nPages).map (fun k =>
      flashPage (putToFlash flash out.outFile.file imageStart imageEnd withOob).file
        (firstPage imageStart + k)) = out.chunks.map Chunk.page := by
  refine List.ext_getElem (by simp [paged.nPages]) fun k inside inside' => ?_
  rw [List.length_map] at inside'
  rw [List.getElem_map, List.getElem_range, List.getElem_map]
  exact flashPage_putToFlash paged oob nonneg int seek large inside'

/-! ## The bytes of a file -/

/-- Pieces of 2048 bytes, the last one cut at the end, are the whole. -/
theorem flatMap_range_pieces (size n : Nat) (f : Nat → Byte) :
    (List.range n).flatMap (fun i =>
      (List.range (min 2048 (size - 2048 * i))).map fun j => f (2048 * i + j)) =
      (List.range (min (2048 * n) size)).map f := by
  induction n with
  | zero => simp
  | succ n ih =>
    rw [List.range_succ, List.flatMap_append, ih, List.flatMap_singleton]
    rcases Nat.le_total (2048 * n) size with before | past
    · have length : min (2048 * (n + 1)) size = 2048 * n + min 2048 (size - 2048 * n) := by omega
      rw [Nat.min_eq_left before, length, List.range_add, List.map_append, List.map_map]
      rfl
    · have none : size - 2048 * n = 0 := by omega
      have length : min (2048 * (n + 1)) size = min (2048 * n) size := by omega
      rw [none, length, Nat.min_zero, List.range_zero, List.map_nil, List.append_nil]

/-- The data chunks hold the bytes of the file. -/
theorem flatMap_pageBytes {length : Nat} {garbage : Buf} (room : 25 ≤ length) (objId : Int)
    (content : ByteFile) (small : dataCount content < 2 ^ 31) :
    ((List.range (dataCount content)).map fun i => (dataChunk objId content i).page).flatMap
        (pageBytes length garbage) = (List.range content.size).map content.byte := by
  have pieces := flatMap_range_pieces content.size (dataCount content) content.byte
  have whole : min (2048 * dataCount content) content.size = content.size := by
    rw [dataCount]
    omega
  rw [whole] at pieces
  rw [List.flatMap_map, ← pieces]
  refine List.flatMap_congr fun i inside => ?_
  have chunkId : (dataChunk objId content i).chunkId < 2 ^ 31 := by
    have := List.mem_range.mp inside
    exact Nat.lt_of_le_of_lt this small
  rw [pageBytes, pageTags_page room chunkId]
  have count : (BitVec.ofNat 32 (dataChunk objId content i).nBytes).toNat =
      min 2048 (content.size - 2048 * i) := by
    rw [BitVec.toNat_ofNat]
    exact Nat.mod_eq_of_lt (Nat.lt_of_le_of_lt (Nat.min_le_left _ _) (by decide))
  dsimp only
  rw [count]
  refine List.map_congr_left fun j wanted => ?_
  have within := List.mem_range.mp wanted
  have page : (dataChunk objId content i).page j = (dataChunk objId content i).data j :=
    if_pos (by omega)
  rw [page, dataChunk]
  dsimp only
  rw [blit_inside (Nat.zero_le j) (by omega), Nat.sub_zero, shift_apply]

/-- The chunks of a file are numbered from its header on. -/
theorem map_chunkId_objectChunks {length : Nat} {garbage : Buf} {h : Header} {content : ByteFile}
    (room : 25 ≤ length) (data : contentChunks h =
      (List.range (dataCount content)).map (dataChunk h.objId content))
    (small : dataCount content < 2 ^ 31) :
    ((objectChunks h).map Chunk.page).map (fun page => (pageTags length garbage page).chunkId) =
      (List.range (dataCount content + 1)).map (BitVec.ofNat 32) := by
  have tags : ∀ chunk ∈ objectChunks h,
      (pageTags length garbage chunk.page).chunkId = BitVec.ofNat 32 chunk.chunkId := by
    intro chunk member
    have bound := (mem_objectChunks member).2
    rw [objectChunks, data, List.length_cons, List.length_map, List.length_range] at bound
    rw [pageTags_page room (by omega)]
  have numbers : (objectChunks h).map ((fun page => (pageTags length garbage page).chunkId) ∘
      Chunk.page) = (objectChunks h).map fun chunk => BitVec.ofNat 32 chunk.chunkId :=
    List.map_congr_left tags
  rw [List.map_map, numbers, objectChunks, data, List.map_cons, List.map_map,
    List.range_succ_eq_map, List.map_cons, List.map_map]
  rfl

/-! ## The pipeline -/

/-- The pages with the number of an object are those of its chunks. -/
theorem objectPages_eq {s : Mkyaffs} {h : Header} {length : Nat} {garbage : Buf} {file : ByteFile}
    {first : Nat} (inv : PagesInv s) (room : 25 ≤ length) (small : s.out.chunks.length ≤ 2 ^ 20)
    (placed : (List.range s.out.nPages).map (fun k => flashPage file (first + k)) =
      s.out.chunks.map Chunk.page) (given : h ∈ s.out.headers) :
    objectPages length garbage file first s.out.nPages (BitVec.ofInt 32 h.objId) =
      (objectChunks h).map Chunk.page := by
  obtain ⟨positive, below, -, held⟩ := inv.headers h given
  have number := inv.number
  rw [objectPages, placed, List.filter_map, ← held]
  congr 1
  refine List.filter_congr fun chunk member => ?_
  have bounds := inv.chunks chunk member
  rw [Function.comp_apply, pageTags_page room (by omega), decide_eq_decide]
  constructor
  · intro same
    have toInt := congrArg BitVec.toNat same
    rw [BitVec.toNat_ofInt, BitVec.toNat_ofInt] at toInt
    omega
  · intro same
    exact congrArg (BitVec.ofInt 32) same

/-- Wherever the image is put, the pages with the number of a file hold it. -/
theorem PagesInv.holdsFile {s : Mkyaffs} {h : Header} {length : Nat} {garbage : Buf} {flash : Fd}
    {imageStart imageEnd withOob : Int} (inv : PagesInv s) (given : h ∈ s.out.headers)
    (file : h.type = .file) (oob : withOob ≠ 0) (nonneg : 0 ≤ imageStart)
    (int : imageEnd < 2 ^ 31) (seek : SeekFits imageStart)
    (large : s.out.nPages ≤ pageCount imageStart imageEnd) (room : 25 ≤ length) :
    ∃ data, h.entry.data = some data ∧ HoldsFile length garbage (objectPages length garbage
      (putToFlash flash s.out.outFile.file imageStart imageEnd withOob).file
      (firstPage imageStart) s.out.nPages (BitVec.ofInt 32 h.objId)) h data.content := by
  have nPages := inv.paged.nPages
  have number := inv.number
  have small : s.out.chunks.length ≤ 2 ^ 20 := by
    rw [pageCount] at large
    omega
  have int' : imageStart < 2 ^ 31 := by
    rw [pageCount] at large
    omega
  obtain ⟨-, -, reads, held⟩ := inv.headers h given
  obtain ⟨data, opened, -⟩ := reads file
  have content : contentChunks h =
      (List.range (dataCount data.content)).map (dataChunk h.objId data.content) := by
    rw [contentChunks, if_pos file, opened]
  have bound : dataCount data.content < 2 ^ 20 := by
    have length := congrArg List.length held
    have part := List.length_filter_le (fun chunk => decide (chunk.objId = h.objId)) s.out.chunks
    rw [objectChunks, content, List.length_cons, List.length_map, List.length_range] at length
    omega
  have pages := @objectPages_eq s h length garbage _ _ inv room small
    (@flashPages_putToFlash flash _ _ imageEnd _ inv.paged oob nonneg int' seek large) given
  rw [pages]
  refine ⟨data, opened, map_chunkId_objectChunks room content (by omega), fun page first => ?_, ?_⟩
  · have target : h.target = [] := by
      rw [Header.target, file]
      rfl
    rw [objectChunks, List.map_cons, List.head?_cons, Header.chunk, target] at first
    obtain rfl := Option.some.inj first
    obtain ⟨type, parent, -⟩ := headerBytes_links h []
    have same : ∀ j, j < 2048 → Chunk.page ⟨headerBytes h [], h.objId, 0, 0xffff⟩ j =
        headerBytes h [] j := fun j column => if_pos column
    rw [load32_congr fun j _ => same _ (by omega), load32_congr fun j _ => same _ (by omega)]
    exact ⟨type.trans (congrArg ObjectType.code file), parent, same⟩
  · rw [objectChunks, List.map_cons, List.tail_cons, content, List.map_map]
    exact flatMap_pageBytes room h.objId data.content (by omega)

/-- A tree whose regular files can be read, written without failures: the image is whole,
every entry the walk meets has its header (a second link to an object that of a link), and
wherever the image is put into the flash, the pages with the number of a regular file hold it. -/
theorem file_survives_pipeline (env : Env) (root : EntryInfo) (path : List Byte)
    (entries : List Entry) (succeeds : env.Succeeds) (layout : env.layoutNo = 1)
    (few : (inodes entries).card ≤ maxObjects)
    (readable : ∀ entry ∈ objectsOf entries, sIsReg entry.stats.mode → Readable entry) :
    ∃ s written, mkyaffs2image env root path entries = .ok s ∧
      s.out.outFile.file.size = s.out.nPages * 2112 ∧
      s.out.headers = rootHeader root :: written ∧
      (root.opendirOk = true → Walked written yaffsObjectIdRoot entries) ∧
      (∀ h ∈ written, h.type = .hardlink →
        ∃ g ∈ written, g.type ≠ .hardlink ∧ g.entry.inode = h.entry.inode) ∧
      ∀ (flash : Fd) (imageStart imageEnd withOob : Int) (length : Nat) (garbage : Buf),
        withOob ≠ 0 → 0 ≤ imageStart → imageEnd < 2 ^ 31 → SeekFits imageStart →
        s.out.nPages ≤ pageCount imageStart imageEnd → 25 ≤ length →
        ∀ h ∈ written, h.type ≠ .hardlink → sIsReg h.entry.stats.mode →
          ∃ data, h.entry.data = some data ∧ HoldsFile length garbage (objectPages length garbage
            (putToFlash flash s.out.outFile.file imageStart imageEnd withOob).file
            (firstPage imageStart) s.out.nPages (BitVec.ofInt 32 h.objId)) h data.content := by
  obtain ⟨m, first, start, headers, error⟩ := pagesInv_start succeeds layout root
  let Inv := fun s => HeadersInv (rootHeader root) (inodes entries) s ∧ PagesInv s
  have step : ∀ entry ∈ objectsOf entries, Step env Inv HasDirectory entry := by
    rintro entry member parent path s ⟨inv, pages⟩ given
    obtain ⟨opened, s', visited, visit, inv', rest⟩ := inv.visit given few member
    exact ⟨opened, s', visited, visit,
      ⟨inv', pages.visit succeeds layout (readable entry member) visit⟩, rest⟩
  obtain ⟨s, written, done, ⟨⟨⟨written', tree⟩, -⟩, inv⟩, behind, -, walked⟩ :=
    @mkyaffs2image_rule env Inv HasDirectory root path entries m step
      (fun s inv => ⟨⟨inv.1.countDirectory, inv.2.countDirectory⟩, fun _ => id⟩)
      (fun s inv => ⟨inv.1.clear, inv.2.clear⟩) first ⟨headersInv_start headers, start⟩ (Or.inl rfl)
  obtain rfl : written' = written := List.tail_eq_of_cons_eq (tree.headers.symm.trans behind)
  refine ⟨s, written', done, inv.paged.size, behind, walked (by rw [error]; decide),
    fun h given => tree.link_object given, ?_⟩
  intro flash imageStart imageEnd withOob length garbage oob nonneg int seek large room h given
    object regular
  have file : h.type = .file :=
    ((tree.typed h given).resolve_left object).trans (objectType_of_reg regular)
  exact inv.holdsFile (behind ▸ List.mem_cons_of_mem _ given) file oob nonneg int seek large room

/-- A file with a second link to it, in a range that starts at page 4. -/
theorem file_survives_pipeline_linked_tree :
    ∃ s written, mkyaffs2image wholeWrites linkedTreeRoot [0x2f] linkedTree = .ok s ∧
      Walked written yaffsObjectIdRoot linkedTree ∧
      ∀ h ∈ written, h.type ≠ .hardlink → sIsReg h.entry.stats.mode →
        ∃ data, h.entry.data = some data ∧ HoldsFile 26 (fill 0) (objectPages 26 (fill 0)
          (putToFlash blankFlash s.out.outFile.file 8192 0x40000000 1).file
          (firstPage 8192) s.out.nPages (BitVec.ofInt 32 h.objId)) h data.content := by
  have readable : ∀ entry ∈ objectsOf linkedTree, sIsReg entry.stats.mode → Readable entry := by
    have three : ∃ a b c, objectsOf linkedTree = [a, b, c] ∧ Readable a ∧
        ¬ sIsReg b.stats.mode ∧ Readable c :=
      ⟨_, _, _, rfl, ⟨_, rfl, rfl⟩, by decide, ⟨_, rfl, rfl⟩⟩
    obtain ⟨a, b, c, all, first, directory, second⟩ := three
    rw [all]
    intro entry member
    simp only [List.mem_cons, List.not_mem_nil, or_false] at member
    rcases member with rfl | rfl | rfl
    · exact fun _ => first
    · exact fun regular => absurd regular directory
    · exact fun _ => second
  obtain ⟨s, written, done, -, -, walked, -, survives⟩ := file_survives_pipeline wholeWrites
    linkedTreeRoot [0x2f] linkedTree (fun _ _ => rfl) rfl (by decide) readable
  have run : ((mkyaffs2image wholeWrites linkedTreeRoot [0x2f] linkedTree).toOption.map
      fun s => s.out.nPages) = some 6 := by decide +kernel
  rw [done] at run
  have nPages : s.out.nPages = 6 := Option.some.inj run
  exact ⟨s, written, done, walked rfl, survives blankFlash 8192 0x40000000 1 26 (fill 0)
    (by decide) (by decide) (by decide) (by decide) (by rw [nPages]; decide) (by decide)⟩

end VirtualNoah
