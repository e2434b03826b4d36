import VirtualNoah.Nand.PageArray

/-!
# What a program writes

A program copies what is staged in `io` to the latched column.  What is staged is
bounded by the size of a page and not by what the column leaves of it, so a program can
run into the pages after its own (`program_confined_iff`).  Random data input (0x85)
moves the column and empties the stage, but a data byte is stored under 0x80 only
(`random_input_iff`).
-/

namespace VirtualNoah

open ByteStore Lanes StepRun NandBflash

/-! ## The copy -/

section Copy

variable {s t : NandBflash} {ops : List BusOp} {p c n : Nat}

/-- A program copies `iolen` bytes to the latch; the file keeps its length exactly when
the six sectors it rewrites are sectors of the image. -/
theorem nandBlkWrite_copies (present : s.page < s.chip.pages) (copy : ProgramInBounds s)
    (size : s.bdrv.size = s.chip.imageSize) :
    ∃ bdrv, nandBlkWrite s = .ok { s with bdrv := bdrv } ∧
      (∀ i, i < s.chip.imageSize →
        bdrv.byte i = blit s.bdrv.byte s.offset s.io s.iolen.toNat i) ∧
      (bdrv.size = s.chip.imageSize ↔ SectorsInImage s) := by
  have sectors := s.chip.imageSectors_eq
  have fits := copy.2.1
  have nonneg := copy.1
  have written := nandBlkWrite_eq present copy
  rw [sectorSize] at sectors
  rw [NandChip.pageSectors_eq] at fits
  simp only [NandChip.pageSectors_eq, sectorSize, Nat.reduceAdd] at written
  refine ⟨_, written, fun i inImage => ?_, ?_⟩
  · rw [ByteFile.pwrite_byte]
    by_cases window : s.offset / 512 * 512 ≤ i ∧ i < s.offset / 512 * 512 + 6 * 512
    · rw [blit_inside window.1 window.2]
      by_cases copied : s.offset ≤ i ∧ i < s.offset + s.iolen.toNat
      · rw [blit_inside (by omega) (by omega), blit_inside copied.1 copied.2]
        congr 1
        omega
      · have read : (bdrvRead s.bdrv (s.offset / 512) (fill 0) 6).2 (i - s.offset / 512 * 512) =
            s.bdrv.byte (s.offset / 512 * 512 + (i - s.offset / 512 * 512)) :=
          bdrvRead_byte (by rw [sectorSize]; omega) (by rw [sectorSize]; omega)
        rw [Nat.add_sub_cancel' window.1] at read
        rw [blit_outside (by omega), blit_outside (by omega)]
        exact read
    · rw [blit_outside (by omega), blit_outside (by omega)]
  · rw [SectorsInImage, ByteFile.pwrite_size_of_pos (by omega)]
    omega

/-- What 0x10 makes of an image if `n` bytes of `io` are staged for column `c` of page
`p`; from a latch that is not clean the program is dropped. -/
structure Programmed (s t : NandBflash) (p c n : Nat) (io : Buf) : Prop where
  bytes : LatchClean s → ∀ i, i < s.chip.imageSize →
    t.bdrv.byte i = blit s.bdrv.byte (s.chip.pageOobSize * p + c) io n i
  size : LatchClean s → (t.bdrv.size = s.chip.imageSize ↔
    (s.chip.pageOobSize * p + c) / sectorSize + 6 ≤ s.chip.imageSectors)
  dropped : ¬ LatchClean s → t.bdrv = s.bdrv

/-- A staged program, and 0x10. -/
theorem transfer_program (staged : transfer s ops = .ok (t, [])) (bdrv : t.bdrv = s.bdrv)
    (chip : t.chip = s.chip) (page : t.page = p + 2 ^ 24 * (lane s.addrHigh 1).toNat)
    (column : t.column = c) (length : t.iolen = (n : Nat)) (short : n ≤ s.chip.pageOobSize)
    (size : s.bdrv.size = s.chip.imageSize) (present : p < s.chip.pages) :
    ∃ u, transfer s (ops ++ [.command 0x10]) = .ok (u, []) ∧ Programmed s u p c n t.io := by
  by_cases clean : LatchClean s
  case neg =>
    have missing : t.chip.pages ≤ t.page := by
      have below := pages_lt s.chip
      rw [LatchClean] at clean
      rw [page, chip]
      omega
    refine ⟨_, transfer_append staged
      (transfer_cons (busStep_program (nandBlkWrite_missing missing)) transfer_nil), ?_⟩
    exact ⟨fun clean' => absurd clean' clean, fun clean' => absurd clean' clean, fun _ => bdrv⟩
  rw [show (lane s.addrHigh 1).toNat = 0 from clean, Nat.mul_zero, Nat.add_zero] at page
  have offset : t.offset = s.chip.pageOobSize * p + c := by
    rw [NandBflash.offset, page, column, chip, Nat.mul_comm]
  have copy : ProgramInBounds t := by
    have sector : t.offset % 0x200 < 0x200 := Nat.mod_lt _ (by decide)
    have full := s.chip.pageOobSize_eq
    rw [ProgramInBounds, chip, length, s.chip.pageSectors_eq, ioSize_eq]
    omega
  obtain ⟨file, written, bytes, keeps⟩ := nandBlkWrite_copies
    (show t.page < t.chip.pages by rw [page, chip]; exact present) copy
    (by rw [bdrv, chip, size])
  refine ⟨_, transfer_append staged (transfer_cons (busStep_program written) transfer_nil), ?_⟩
  rw [chip, offset, bdrv, length] at bytes
  rw [SectorsInImage, chip, offset] at keeps
  exact ⟨fun _ => bytes, fun _ => keeps, fun dirty => absurd clean dirty⟩

end Copy

/-! ## One segment -/

section Confined

variable {s : NandBflash} {p c : Nat} {data : List Byte}

/-- No byte of the image outside page `p` has changed. -/
def Confined (chip : NandChip) (p : Nat) (before after : ByteFile) : Prop :=
  ∀ q, q < chip.pages → q ≠ p → ∀ j, j < chip.pageOobSize →
    imageBytes after q j = imageBytes before q j

/-- The bytes of a program that fall behind its page are in the image already. -/
def SpillHeld (chip : NandChip) (bdrv : ByteFile) (p c : Nat) (data : List Byte) : Prop :=
  ∀ k, k < min data.length chip.pageOobSize → chip.pageOobSize ≤ c + k →
    chip.pageOobSize * p + (c + k) < chip.imageSize →
      bdrv.byte (chip.pageOobSize * p + (c + k)) = listBuf data k

theorem confined_iff_spillHeld {t : NandBflash} {io : Buf} (clean : LatchClean s)
    (programmed : Programmed s t p c (min data.length s.chip.pageOobSize) io)
    (staged : ∀ i, i < min data.length s.chip.pageOobSize → io i = listBuf data i) :
    Confined s.chip p s.bdrv t.bdrv ↔ SpillHeld s.chip s.bdrv p c data := by
  have bytes := programmed.bytes clean
  have image := s.chip.imageSize_eq.1
  rw [blit_congr staged] at bytes
  rw [Confined, SpillHeld]
  rw [s.chip.pageOobSize_eq] at bytes ⊢
  generalize min data.length 2112 = n at bytes ⊢
  constructor
  · intro confined k inside behind inImage
    -- the byte as a column of a later page
    have place : 2112 * p + (c + k) = 2112 * ((2112 * p + (c + k)) / 2112) +
        (2112 * p + (c + k)) % 2112 := (Nat.div_add_mod _ _).symm
    have same := confined ((2112 * p + (c + k)) / 2112) (by omega) (by omega)
      ((2112 * p + (c + k)) % 2112) (by omega)
    rw [imageBytes, imageBytes, ← place, bytes _ inImage,
      blit_inside (by omega) (by omega)] at same
    rw [← same]
    congr 1
    omega
  · intro held q present other j column
    rw [imageBytes, imageBytes, bytes _ (by omega)]
    by_cases copied : 2112 * p + c ≤ 2112 * q + j ∧ 2112 * q + j < 2112 * p + c + n
    · have spilled := held (2112 * q + j - (2112 * p + c)) (by omega) (by omega) (by omega)
      rw [blit_inside copied.1 copied.2, ← spilled]
      congr 1
      omega
    · exact blit_outside (by omega)

/-- A program of any length at any column ends, and the image outside its page is unchanged
exactly when the latch was not clean or what falls behind the page is there already.  The
file keeps its length exactly when the latch was not clean or the sectors exist. -/
theorem program_confined_iff (s : NandBflash) (p c : Nat) (data : List Byte)
    (eightBit : s.chip.info.busWidth = 1) (size : s.bdrv.size = s.chip.imageSize)
    (present : p < s.chip.pages) (column : c < 2 ^ 16) :
    ∃ t, pageStep s (.program p c data) = .ok (t, []) ∧
      (Confined s.chip p s.bdrv t.bdrv ↔ ¬ LatchClean s ∨ SpillHeld s.chip s.bdrv p c data) ∧
      (t.bdrv.size = s.bdrv.size ↔ ¬ LatchClean s ∨
        (s.chip.pageOobSize * p + c) / sectorSize + 6 ≤ s.chip.imageSectors) := by
  obtain ⟨m, staged, bdrv, chip, page, column', length, -, io⟩ :=
    @transfer_stage s p c data eightBit (Nat.lt_trans present (pages_lt _)) column
  obtain ⟨t, done, programmed⟩ := transfer_program staged bdrv chip page column' length
    (Nat.min_le_right _ _) size present
  rw [List.append_assoc] at done
  refine ⟨t, done, ?_⟩
  by_cases clean : LatchClean s
  · rw [confined_iff_spillHeld clean programmed io, size, programmed.size clean]
    exact ⟨(or_iff_right (not_not.mpr clean)).symm, (or_iff_right (not_not.mpr clean)).symm⟩
  · have same := programmed.dropped clean
    refine ⟨iff_of_true ?_ (Or.inl clean), iff_of_true (by rw [same]) (Or.inl clean)⟩
    rw [same]
    intro q _ _ j _
    rfl

/-- Two bytes from the last but one column on. -/
theorem program_confined_page_end :
    ∃ t, pageStep (nandbPowerOn pavoChip (blankImage pavoChip)) (.program 0 2110 [0x5a, 0xa5]) =
        .ok (t, []) ∧
      Confined pavoChip 0 (blankImage pavoChip) t.bdrv ∧
      t.bdrv.size = (blankImage pavoChip).size := by
  obtain ⟨t, done, confined, length⟩ := program_confined_iff
    (nandbPowerOn pavoChip (blankImage pavoChip)) 0 2110 [0x5a, 0xa5] rfl rfl (by decide)
    (by decide)
  refine ⟨t, done, confined.mpr (Or.inr ?_), length.mpr (Or.inr (by decide))⟩
  intro k inside behind
  have short : k < 2 := inside
  have late : 2112 ≤ 2110 + k := behind
  omega

/-- The second of two bytes from the last column on is the first one of the next page. -/
theorem program_runs_into_next_page :
    ∃ t, pageStep (nandbPowerOn pavoChip (blankImage pavoChip)) (.program 0 2111 [0x5a, 0xa5]) =
        .ok (t, []) ∧
      imageBytes t.bdrv 1 0 = 0xa5 ∧ imageBytes (blankImage pavoChip) 1 0 = 0xff ∧
      ¬ Confined pavoChip 0 (blankImage pavoChip) t.bdrv := by
  have ran : ∃ t, pageStep (nandbPowerOn pavoChip (blankImage pavoChip))
      (.program 0 2111 [0x5a, 0xa5]) = .ok (t, []) ∧ imageBytes t.bdrv 1 0 = 0xa5 :=
    ⟨_, rfl, by decide⟩
  obtain ⟨t, done, spilled⟩ := ran
  have blank : imageBytes (blankImage pavoChip) 1 0 = 0xff := by decide
  refine ⟨t, done, spilled, blank, fun confined => ?_⟩
  have same := confined 1 (by decide) (by decide) 0 (by decide)
  rw [spilled, blank] at same
  cases same

end Confined

/-! ## Several segments -/

/-- A further segment: 0x85, two column bytes, data. -/
def encodeSegment (c : Nat) (data : List Byte) : List BusOp :=
  .command 0x85 :: [addressByte c, addressByte (c / 256)] ++ data.map .writeData8

/-- A program whose data comes in segments. -/
def encodeSegments (p c : Nat) (data : List Byte) (more : List (Nat × List Byte)) : List BusOp :=
  .command 0x80 :: latchBytes p c ++ data.map .writeData8 ++
    more.flatMap (fun (c', data') => encodeSegment c' data') ++ [.command 0x10]

/-- The array with the segments laid over page `p` in order. -/
def withSegments (p : Nat) (segments : List (Nat × List Byte)) (arr : PageArray) : PageArray :=
  segments.foldl (fun arr (c, data) => (PageOp.program p c data).apply arr) arr

/-- The column of the last segment. -/
def lastColumn (c : Nat) (more : List (Nat × List Byte)) : Nat :=
  more.foldl (fun _ segment => segment.1) c

section Segments

variable {s : NandBflash} {p c q j : Nat} {data : List Byte} {more : List (Nat × List Byte)}

/-- Segments are laid over one page only. -/
theorem withSegments_other {arr : PageArray} (other : q ≠ p) :
    withSegments p more arr q j = arr q j := by
  induction more generalizing arr with
  | nil => rfl
  | cons segment more ih =>
    rw [withSegments, List.foldl_cons]
    refine ih.trans ?_
    dsimp only
    rw [apply_program, if_neg fun both => other both.1]

/-- Segments of the value that is there change nothing. -/
theorem withSegments_same {arr : PageArray} {v : Byte}
    (same : ∀ segment ∈ more, ∀ b ∈ segment.2, b = v) (held : arr q j = v) :
    withSegments p more arr q j = v := by
  induction more generalizing arr with
  | nil => exact held
  | cons segment more ih =>
    obtain ⟨c, data⟩ := segment
    rw [withSegments, List.foldl_cons]
    refine ih (fun later member => same later (List.mem_cons_of_mem _ member)) ?_
    dsimp only
    rw [apply_program]
    split
    · next laid =>
      have inside : j - c < data.length := by omega
      rw [listBuf, List.getD_eq_getElem?_getD, List.getElem?_eq_getElem inside]
      exact same _ List.mem_cons_self _ (List.getElem_mem inside)
    · exact held

/-- The data of a further segment is dropped. -/
theorem transfer_segment (eightBit : s.chip.info.busWidth = 1) (column : c < 65536) :
    ∃ t, transfer s (encodeSegment c data) = .ok (t, []) ∧ t.bdrv = s.bdrv ∧ t.chip = s.chip ∧
      t.page = s.page ∧ t.column = c ∧ t.iolen = 0 := by
  let x : NandBflash := { s with ioaddr := some 0, iolen := 0, cmd := 0x85#16 }
  have command : busStep s (.command 0x85#16) = .ok (x.latch x.addrLow x.addrHigh 0, none) := rfl
  obtain ⟨low, address, page, column'⟩ := @transfer_newColumn x c eightBit column
  have dropped := @transfer_dropData (x.latch low x.addrHigh 2) data
    (Or.inl (show (0x85#16 : BitVec 16) ≠ 0x80#16 by decide))
  exact ⟨_, transfer_append (transfer_cons command address) dropped, rfl, rfl, page, column', rfl⟩

/-- Further segments move the column and leave nothing staged. -/
theorem transfer_segments (eightBit : s.chip.info.busWidth = 1)
    (within : ∀ segment ∈ more, segment.1 + segment.2.length ≤ s.chip.pageOobSize) :
    ∃ t, transfer s (more.flatMap fun (c', data') => encodeSegment c' data') = .ok (t, []) ∧
      t.bdrv = s.bdrv ∧ t.chip = s.chip ∧ t.page = s.page ∧
      t.column = lastColumn s.column more ∧ (more = [] ∧ t = s ∨ more ≠ [] ∧ t.iolen = 0) := by
  induction more generalizing s with
  | nil => exact ⟨s, rfl, rfl, rfl, rfl, rfl, Or.inl ⟨rfl, rfl⟩⟩
  | cons segment more ih =>
    obtain ⟨c', data'⟩ := segment
    have full := s.chip.pageOobSize_eq
    have inPage : c' + data'.length ≤ s.chip.pageOobSize := within _ List.mem_cons_self
    obtain ⟨m, first, bdrv, chip, page, column, length⟩ :=
      @transfer_segment s c' data' eightBit (by omega)
    obtain ⟨t, rest, bdrv', chip', page', column', staged⟩ := @ih m (by rw [chip]; exact eightBit)
      (by
        rw [chip]
        exact fun segment later => within segment (List.mem_cons_of_mem _ later))
    refine ⟨t, transfer_append first rest, by rw [bdrv', bdrv], by rw [chip', chip],
      by rw [page', page], ?_, Or.inr ⟨List.cons_ne_nil _ _, ?_⟩⟩
    · rw [column', column]
      rfl
    · rcases staged with ⟨-, same⟩ | ⟨-, none⟩
      · rw [same, length]
      · exact none

/-- Page `p` of the image holds the segments over what it held, and the other pages hold
what they held. -/
def Overlaid (chip : NandChip) (p : Nat) (segments : List (Nat × List Byte))
    (before after : ByteFile) : Prop :=
  ∀ q, q < chip.pages → ∀ j, j < chip.pageOobSize →
    imageBytes after q j = withSegments p segments (imageBytes before) q j

/-- The segments lay over page `p` what it holds already. -/
def OverlayHeld (chip : NandChip) (p : Nat) (segments : List (Nat × List Byte))
    (bdrv : ByteFile) : Prop :=
  ∀ j, j < chip.pageOobSize → withSegments p segments (imageBytes bdrv) p j = imageBytes bdrv p j

theorem overlaid_iff_of_unchanged {chip : NandChip} {before after : ByteFile}
    (present : p < chip.pages)
    (unchanged : ∀ q, q < chip.pages → ∀ j, j < chip.pageOobSize →
      imageBytes after q j = imageBytes before q j) :
    Overlaid chip p more before after ↔ OverlayHeld chip p more before := by
  constructor
  · intro overlaid j column
    rw [← overlaid p present j column, unchanged p present j column]
  · intro held q present' j column
    rw [unchanged q present' j column]
    by_cases same : q = p
    · rw [same, held j column]
    · rw [withSegments_other same]

/-- A program inside its page lays one segment over it. -/
theorem overlaid_single {t : NandBflash} {io : Buf} (clean : LatchClean s)
    (programmed : Programmed s t p c data.length io)
    (staged : ∀ i, i < data.length → io i = listBuf data i)
    (inPage : c + data.length ≤ s.chip.pageOobSize) :
    Overlaid s.chip p [(c, data)] s.bdrv t.bdrv := by
  have bytes := programmed.bytes clean
  have image := s.chip.imageSize_eq.1
  intro q present j column
  rw [s.chip.pageOobSize_eq] at bytes column inPage
  rw [withSegments, List.foldl_cons, List.foldl_nil]
  dsimp only
  rw [imageBytes, apply_program, bytes _ (by omega), blit_congr staged]
  by_cases programmed : q = p ∧ c ≤ j ∧ j < c + data.length
  · obtain ⟨rfl, lower, upper⟩ := programmed
    rw [if_pos ⟨rfl, lower, upper⟩, blit_inside (by omega) (by omega)]
    congr 1
    omega
  · rw [if_neg programmed, blit_outside]
    · rfl
    · rcases Nat.lt_trichotomy q p with before | rfl | after
      · omega
      · omega
      · omega

/-- A program whose data comes in segments ends, and lays the segments over the page
exactly when there is only one and the latch was clean, or they change nothing.  The file
keeps its length exactly when the latch was not clean or the sectors from the last column
on exist. -/
theorem random_input_iff (s : NandBflash) (p c : Nat) (data : List Byte)
    (more : List (Nat × List Byte)) (eightBit : s.chip.info.busWidth = 1)
    (size : s.bdrv.size = s.chip.imageSize) (present : p < s.chip.pages)
    (first : c + data.length ≤ s.chip.pageOobSize)
    (within : ∀ segment ∈ more, segment.1 + segment.2.length ≤ s.chip.pageOobSize) :
    ∃ t, transfer s (encodeSegments p c data more) = .ok (t, []) ∧
      (Overlaid s.chip p ((c, data) :: more) s.bdrv t.bdrv ↔
        LatchClean s ∧ more = [] ∨ OverlayHeld s.chip p ((c, data) :: more) s.bdrv) ∧
      (t.bdrv.size = s.bdrv.size ↔ ¬ LatchClean s ∨
        (s.chip.pageOobSize * p + lastColumn c more) / sectorSize + 6 ≤ s.chip.imageSectors) := by
  have full := s.chip.pageOobSize_eq
  have image := s.chip.imageSize_eq.1
  obtain ⟨m, staged, bdrv, chip, page, column, length, -, io⟩ :=
    @transfer_stage s p c data eightBit (Nat.lt_trans present (pages_lt _)) (by omega)
  rw [Nat.min_eq_left (by omega)] at length io
  obtain ⟨m', segments, bdrv', chip', page', column', ends⟩ :=
    @transfer_segments m more (by rw [chip]; exact eightBit) (by rw [chip]; exact within)
  have all := transfer_append staged segments
  have program : ∀ n : Nat, m'.iolen = n → n ≤ s.chip.pageOobSize →
      ∃ t, transfer s (encodeSegments p c data more) = .ok (t, []) ∧
        Programmed s t p (lastColumn c more) n m'.io := fun n length' short =>
    transfer_program all (bdrv'.trans bdrv) (chip'.trans chip) (page'.trans page)
      (by rw [column', column]) length' short size present
  have keeps : ∀ {t n io}, Programmed s t p (lastColumn c more) n io →
      (t.bdrv.size = s.bdrv.size ↔ ¬ LatchClean s ∨
        (s.chip.pageOobSize * p + lastColumn c more) / sectorSize + 6 ≤ s.chip.imageSectors) := by
    intro t n io programmed
    by_cases clean : LatchClean s
    · rw [size, programmed.size clean]
      exact (or_iff_right (not_not.mpr clean)).symm
    · rw [programmed.dropped clean]
      exact iff_of_true rfl (Or.inl clean)
  rcases ends with ⟨rfl, rfl⟩ | ⟨some, none⟩
  · obtain ⟨t, done, programmed⟩ := program data.length length (by omega)
    refine ⟨t, done, ?_, keeps programmed⟩
    by_cases clean : LatchClean s
    · exact iff_of_true (overlaid_single clean programmed io first) (Or.inl ⟨clean, rfl⟩)
    · rw [or_iff_right fun both => clean both.1, programmed.dropped clean]
      exact overlaid_iff_of_unchanged present fun _ _ _ _ => rfl
  · obtain ⟨t, done, programmed⟩ := program 0 none (Nat.zero_le _)
    refine ⟨t, done, ?_, keeps programmed⟩
    rw [or_iff_right fun both => some both.2]
    refine overlaid_iff_of_unchanged present fun q present' j column => ?_
    by_cases clean : LatchClean s
    · rw [imageBytes, imageBytes, programmed.bytes clean _ (by omega), blit_zero_len]
    · rw [programmed.dropped clean]

/-- Three segments of ones over a blank page. -/
theorem random_input_ones :
    ∃ t, transfer (nandbPowerOn pavoChip (blankImage pavoChip))
        (encodeSegments 3 7 [0xff] [(100, [0xff, 0xff]), (8, [0xff])]) = .ok (t, []) ∧
      Overlaid pavoChip 3 [(7, [0xff]), (100, [0xff, 0xff]), (8, [0xff])]
        (blankImage pavoChip) t.bdrv := by
  obtain ⟨t, done, overlaid, -⟩ := random_input_iff
    (nandbPowerOn pavoChip (blankImage pavoChip)) 3 7 [0xff] [(100, [0xff, 0xff]), (8, [0xff])]
    rfl rfl (by decide) (by decide) (by decide)
  have blank := (represents_blank pavoChip).2 3 (by decide)
  refine ⟨t, done, overlaid.mpr (Or.inr fun j column => ?_)⟩
  have held : imageBytes (blankImage pavoChip) 3 j = 0xff := blank j column
  exact (withSegments_same (by decide) held).trans held.symm

/-- With a second segment the first one is lost, too. -/
theorem two_segments_lost :
    ∃ t, transfer (nandbPowerOn pavoChip (blankImage pavoChip))
        (encodeSegments 0 0 [0x5a] [(5, [0xa5])]) = .ok (t, []) ∧
      imageBytes t.bdrv 0 0 = 0xff ∧ imageBytes t.bdrv 0 5 = 0xff ∧
      ¬ Overlaid pavoChip 0 [(0, [0x5a]), (5, [0xa5])] (blankImage pavoChip) t.bdrv := by
  have ran : ∃ t, transfer (nandbPowerOn pavoChip (blankImage pavoChip))
      (encodeSegments 0 0 [0x5a] [(5, [0xa5])]) = .ok (t, []) ∧
        imageBytes t.bdrv 0 0 = 0xff ∧ imageBytes t.bdrv 0 5 = 0xff :=
    ⟨_, rfl, by decide, by decide⟩
  obtain ⟨t, done, first, second⟩ := ran
  refine ⟨t, done, first, second, fun overlaid => ?_⟩
  have laid := overlaid 0 (by decide) 0 (by decide)
  rw [first] at laid
  exact absurd laid (by decide)

end Segments

end VirtualNoah
