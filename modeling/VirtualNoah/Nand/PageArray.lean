import VirtualNoah.Nand.Bounds
import VirtualNoah.Nand.Transfer

/-!
# The NAND model as an array of pages

What the component is for: an array of 2112-byte pages that is programmed and
read from any column and erased in blocks of 64.  `PageOp` is one complete
operation of the 8-bit chip, `PageOp.encode` its accesses on the bus, and
`RefinesPageArray` says that the device answers every operation of a list the
way the array does, and holds the array afterwards.

The five address bytes of a program or a read do not reach bits 8 to 15 of
`addr_high`.  Where these are not clear the device addresses another page than
the array, so the refinement needs them clear (`LatchClean`); an erase clears
them itself.
-/

namespace VirtualNoah

open ByteStore Lanes StepRun NandBflash

/-! ## The array -/

/-- Byte `j` of page `p`. -/
abbrev PageArray := Nat → Nat → Byte

/-- `count` bytes of page `p` from column `c` on. -/
def PageArray.bytes (arr : PageArray) (p c count : Nat) : List Byte :=
  (List.range count).map fun i => arr p (c + i)

/-- A complete operation; the random outputs of a read are columns and counts. -/
inductive PageOp where
  | program (p c : Nat) (data : List Byte)
  | erase (p : Nat)
  | read (p c count : Nat) (outputs : List (Nat × Nat))

def PageOp.apply (arr : PageArray) : PageOp → PageArray
  | .program p c data => fun q j =>
    if q = p ∧ c ≤ j ∧ j < c + data.length then listBuf data (j - c) else arr q j
  | .erase p => fun q j => if q / 64 = p / 64 then 0xff else arr q j
  | .read .. => arr

theorem apply_program (arr : PageArray) (p c : Nat) (data : List Byte) (q j : Nat) :
    (PageOp.program p c data).apply arr q j =
      if q = p ∧ c ≤ j ∧ j < c + data.length then listBuf data (j - c) else arr q j := rfl

theorem apply_erase (arr : PageArray) (p q j : Nat) :
    (PageOp.erase p).apply arr q j = if q / 64 = p / 64 then 0xff else arr q j := rfl

def PageOp.output (arr : PageArray) : PageOp → List Byte
  | .read p c count outputs =>
    arr.bytes p c count ++ outputs.flatMap fun (c', count') => arr.bytes p c' count'
  | _ => []

/-! ## The operations on the bus -/

/-- A random output: two column bytes between 0x05 and 0xe0. -/
def encodeOutput (c count : Nat) : List BusOp :=
  .command 0x05 :: [addressByte c, addressByte (c / 256)] ++
    .command 0xe0 :: List.replicate count .readData8

def PageOp.encode : PageOp → List BusOp
  | .program p c data =>
    .command 0x80 :: latchBytes p c ++ (data.map .writeData8 ++ [.command 0x10])
  | .erase p =>
    .command 0x60 :: [addressByte p, addressByte (p / 256), addressByte (p / 65536)] ++
      [.command 0xd0]
  | .read p c count outputs =>
    .command 0x00 :: latchBytes p c ++
      (.command 0x30 :: List.replicate count .readData8 ++
        outputs.flatMap fun (c', count') => encodeOutput c' count')

/-- One complete operation, with the bytes its reads deliver. -/
def pageStep (s : NandBflash) (op : PageOp) : Except Stop (NandBflash × List Byte) :=
  transfer s op.encode

/-- What an operation must respect: the page, and for a program the six sectors
it rewrites. -/
def PageOp.Fits (chip : NandChip) : PageOp → Prop
  | .program p c data =>
    c + data.length ≤ chip.pageOobSize ∧
      (chip.pageOobSize * p + c) / sectorSize + 6 ≤ chip.imageSectors
  | .erase p => p < 2 ^ 24
  | .read p c count outputs =>
    p < chip.pages ∧ c + count ≤ chip.pageOobSize ∧
      ∀ output ∈ outputs, output.1 + output.2 ≤ chip.pageOobSize

/-- An operation with five address bytes starts from a clean latch. -/
def StartsClean (s : NandBflash) : PageOp → Prop
  | .erase _ => True
  | _ => LatchClean s

theorem startsClean_of_latchClean {s : NandBflash} {op : PageOp} (clean : LatchClean s) :
    StartsClean s op := by
  cases op with
  | program => exact clean
  | erase => trivial
  | read => exact clean

/-! ## Refinement -/

/-- The image file holds the array. -/
def Represents (chip : NandChip) (bdrv : ByteFile) (arr : PageArray) : Prop :=
  bdrv.size = chip.imageSize ∧
    ∀ p, p < chip.pages → ∀ j, j < chip.pageOobSize →
      bdrv.byte (chip.pageOobSize * p + j) = arr p j

/-- The device completes every operation, delivers the bytes of the array, and
its image is the array after each of them. -/
def RefinesPageArray : NandBflash → PageArray → List PageOp → Prop
  | _, _, [] => True
  | s, arr, op :: ops =>
    ∃ t, pageStep s op = .ok (t, op.output arr) ∧ Represents s.chip t.bdrv (op.apply arr) ∧
      RefinesPageArray t (op.apply arr) ops

section Images

variable {chip : NandChip} {bdrv : ByteFile} {arr : PageArray} {p c : Nat} {data : List Byte}

/-- Bytes written inside one page at its place in the file. -/
theorem represents_program {io : Buf} (rep : Represents chip bdrv arr)
    (fits : (PageOp.program p c data).Fits chip)
    (staged : ∀ i, i < data.length → io i = listBuf data i) :
    Represents chip (bdrv.pwrite (chip.pageOobSize * p + c) data.length io)
      ((PageOp.program p c data).apply arr) := by
  obtain ⟨size, holds⟩ := rep
  obtain ⟨inPage, window⟩ := fits
  have sectors := chip.imageSectors_eq
  have image := chip.imageSize_eq.1
  rw [sectorSize] at sectors window
  rw [chip.pageOobSize_eq] at inPage window holds
  rw [chip.pageOobSize_eq]
  refine ⟨by rw [ByteFile.pwrite_size_of_le (by omega), size], fun q below j inside => ?_⟩
  rw [chip.pageOobSize_eq] at inside ⊢
  rw [ByteFile.pwrite_byte, apply_program]
  by_cases programmed : q = p ∧ c ≤ j ∧ j < c + data.length
  · obtain ⟨rfl, lower, upper⟩ := programmed
    rw [if_pos ⟨rfl, lower, upper⟩, blit_inside (by omega) (by omega), staged _ (by omega)]
    congr 1
    omega
  · rw [if_neg programmed, blit_outside, holds q below j inside]
    -- another page, or the programmed page outside the programmed columns
    rcases Nat.lt_trichotomy q p with before | rfl | after
    · omega
    · omega
    · omega

/-- A filled block at its place in the file. -/
theorem represents_erase (rep : Represents chip bdrv arr) :
    Represents chip
      (if p < chip.pages then bdrv.pwrite (p / 64 * 64 * 2112) (64 * 2112) (fill 0xff) else bdrv)
      ((PageOp.erase p).apply arr) := by
  obtain ⟨size, holds⟩ := rep
  obtain ⟨image, blocks⟩ := chip.imageSize_eq
  refine ⟨?_, fun q below j inside => ?_⟩
  · split
    · rw [ByteFile.pwrite_size_of_le (by omega), size]
    · exact size
  · have held := holds q below j inside
    rw [chip.pageOobSize_eq] at inside held ⊢
    rw [apply_erase]
    by_cases erased : q / 64 = p / 64
    · have present : p < chip.pages := by omega
      rw [if_pos erased, if_pos present, ByteFile.pwrite_byte,
        blit_inside (by omega) (by omega), fill_apply]
    · rw [if_neg erased]
      split
      · rw [ByteFile.pwrite_byte, blit_outside (by omega), held]
      · exact held

end Images

/-! ## The operations of the device -/

section Operations

variable {s : NandBflash} {p c count : Nat} {data : List Byte} {outputs : List (Nat × Nat)}

/-- The sectors of a program exist only when its page does. -/
theorem present_of_fits (fits : (PageOp.program p c data).Fits s.chip) : p < s.chip.pages := by
  have sectors := s.chip.imageSectors_eq
  have image := s.chip.imageSize_eq.1
  have window := fits.2
  rw [sectorSize] at sectors window
  rw [s.chip.pageOobSize_eq] at window
  omega

theorem pages_lt (chip : NandChip) : chip.pages < 2 ^ 24 := by
  rcases chip.pages_eq_or with h | h <;> rw [h] <;> decide

theorem busStep_program {t : NandBflash} (done : nandBlkWrite s = .ok t) :
    busStep s (.command 0x10#16) = .ok ({ t with cmd := 0x10#16 }, none) := by
  have command : nandbCommand s 0x10#16 = .ok t := done
  simp only [busStep, nandbWriteCommand, command]
  rfl

/-- The state before 0x10: as much of the data as a page holds is staged in `io`, and the
latch addresses its page below what bits 8 to 15 of `addr_high` add. -/
theorem transfer_stage (eightBit : s.chip.info.busWidth = 1)
    (page : p < 2 ^ 24) (column : c < 65536) :
    ∃ t, transfer s (.command 0x80 :: latchBytes p c ++ data.map .writeData8) = .ok (t, []) ∧
      t.bdrv = s.bdrv ∧ t.chip = s.chip ∧ t.page = p + 2 ^ 24 * (lane s.addrHigh 1).toNat ∧
      t.column = c ∧ t.iolen = (min data.length s.chip.pageOobSize : Nat) ∧
      lane t.addrHigh 1 = lane s.addrHigh 1 ∧
      ∀ i, i < min data.length s.chip.pageOobSize → t.io i = listBuf data i := by
  let x : NandBflash := { s with ioaddr := some 0, iolen := 0, cmd := 0x80#16 }
  have command : busStep s (.command 0x80#16) = .ok (x.latch s.addrLow x.addrHigh 0, none) := rfl
  have address := @transfer_latchBytes x p c s.addrLow eightBit
  have stage := @transfer_writeLong (x.latched p c) data rfl rfl
  have pageNumber : (x.latched p c).page = p + 2 ^ 24 * (lane s.addrHigh 1).toNat :=
    latched_page page
  have columnNumber : (x.latched p c).column = c := latched_column column
  have high : lane (x.latched p c).addrHigh 1 = lane s.addrHigh 1 := latched_lane
  refine ⟨_, transfer_append (transfer_cons command address) stage, rfl, rfl, pageNumber,
    columnNumber, rfl, high, fun i inside => ?_⟩
  have inside' : i < 0 + min data.length (x.latched p c).chip.pageOobSize := by
    rw [Nat.zero_add]
    exact inside
  dsimp only
  rw [blit_inside (Nat.zero_le i) inside', Nat.sub_zero]

theorem pageStep_program (eightBit : s.chip.info.busWidth = 1)
    (size : s.bdrv.size = s.chip.imageSize) (clean : LatchClean s)
    (fits : (PageOp.program p c data).Fits s.chip) :
    ∃ t io, pageStep s (.program p c data) = .ok (t, []) ∧ t.chip = s.chip ∧ LatchClean t ∧
      (∀ i, i < data.length → io i = listBuf data i) ∧
      t.bdrv = s.bdrv.pwrite (s.chip.pageOobSize * p + c) data.length io := by
  have present := present_of_fits fits
  have full := s.chip.pageOobSize_eq
  obtain ⟨inPage, window⟩ := fits
  obtain ⟨t, staged, bdrv, chip, page, column, length, high, io⟩ :=
    @transfer_stage s p c data eightBit (Nat.lt_trans present (pages_lt _)) (by omega)
  rw [Nat.min_eq_left (by omega)] at length io
  rw [clean, Nat.mul_zero, Nat.add_zero] at page
  have offset : t.offset = s.chip.pageOobSize * p + c := by
    rw [NandBflash.offset, page, column, chip, Nat.mul_comm]
  have copy : ProgramInBounds t := by
    have sector : t.offset % 0x200 < 0x200 := Nat.mod_lt _ (by decide)
    rw [ProgramInBounds, chip, length, s.chip.pageSectors_eq, ioSize_eq]
    omega
  have inside : SectorsInImage t := by
    rw [SectorsInImage, offset, chip]
    exact window
  have written := busStep_program
    (nandBlkWrite_inside (by rw [page, chip]; exact present) copy (by rw [bdrv, chip, size]) inside)
  have whole := transfer_append staged (transfer_cons written transfer_nil)
  rw [List.append_assoc] at whole
  refine ⟨_, t.io, whole, chip, by rw [LatchClean, high]; exact clean, io, ?_⟩
  dsimp only
  rw [bdrv, offset, length, Int.toNat_natCast]

/-- From a latch that is not clean a program is dropped. -/
theorem pageStep_program_dropped (eightBit : s.chip.info.busWidth = 1) (dirty : ¬ LatchClean s)
    (fits : (PageOp.program p c data).Fits s.chip) :
    ∃ t, pageStep s (.program p c data) = .ok (t, []) ∧ t.bdrv = s.bdrv := by
  have below := pages_lt s.chip
  have full := s.chip.pageOobSize_eq
  have inPage := fits.1
  obtain ⟨t, staged, bdrv, chip, page, -⟩ :=
    @transfer_stage s p c data eightBit (Nat.lt_trans (present_of_fits fits) below) (by omega)
  have missing : t.chip.pages ≤ t.page := by
    rw [LatchClean] at dirty
    rw [page, chip]
    omega
  have whole := transfer_append staged
    (transfer_cons (busStep_program (nandBlkWrite_missing missing)) transfer_nil)
  rw [List.append_assoc] at whole
  exact ⟨_, whole, bdrv⟩

/-- The state before 0xd0.  0x60 clears `addr_high`, so this latch is clean
whatever it was before. -/
theorem transfer_erasePage (eightBit : s.chip.info.busWidth = 1) (page : p < 2 ^ 24) :
    ∃ t, transfer s (.command 0x60 ::
        [addressByte p, addressByte (p / 256), addressByte (p / 65536)]) = .ok (t, []) ∧
      t.bdrv = s.bdrv ∧ t.chip = s.chip ∧ t.page = p ∧ LatchClean t := by
  let x : NandBflash := { s with cmd := 0x60#16 }
  have command : busStep s (.command 0x60#16) =
    .ok (x.latch (s.addrLow &&& ~~~0xffff#32) 0 2, none) := rfl
  have address := @transfer_pageBytes x p (s.addrLow &&& ~~~0xffff#32) 0 eightBit
  refine ⟨_, transfer_cons command address, rfl, rfl, (page_of_lanes page ?_ ?_ ?_).trans ?_, ?_⟩
  · rw [latch_addrLow, lane_setLane_two (by decide) (by decide)]
    rfl
  · rw [latch_addrLow, lane_setLane_two (by decide) (by decide)]
    rfl
  · rw [latch_addrHigh, lane_setLane_ofNat (by decide) (by decide)]
    rfl
  · rw [latch_addrHigh, lane_setLane_ofNat (by decide) (by decide)]
    rfl
  · rw [LatchClean, latch_addrHigh, lane_setLane_ofNat (by decide) (by decide)]
    rfl

theorem pageStep_erase (eightBit : s.chip.info.busWidth = 1) (page : p < 2 ^ 24) :
    ∃ t, pageStep s (.erase p) = .ok (t, []) ∧ t.chip = s.chip ∧ LatchClean t ∧
      t.bdrv = if p < s.chip.pages then
        s.bdrv.pwrite (p / 64 * 64 * 2112) (64 * 2112) (fill 0xff) else s.bdrv := by
  obtain ⟨t, addressed, bdrv, chip, rfl, clean⟩ := @transfer_erasePage s p eightBit page
  have erase : busStep t (.command 0xd0#16) =
    .ok ({ nandbBlkErase t with cmd := 0xd0#16 }, none) := rfl
  obtain ⟨file, addrLow, erased⟩ := nandbBlkErase_frame t
  refine ⟨_, transfer_append addressed (transfer_cons erase transfer_nil), ?_, ?_, ?_⟩
  · dsimp only
    rw [erased]
    exact chip
  · rw [erased]
    exact clean
  · dsimp only
    rw [nandbBlkErase_bdrv, bdrv, chip, blockPage]

/-- Two column bytes give a new column on the page that is already addressed. -/
theorem transfer_newColumn (eightBit : s.chip.info.busWidth = 1) (column : c < 65536) :
    ∃ low, transfer (s.latch s.addrLow s.addrHigh 0) [addressByte c, addressByte (c / 256)] =
        .ok (s.latch low s.addrHigh 2, []) ∧
      (s.latch low s.addrHigh 2).page = s.page ∧ (s.latch low s.addrHigh 2).column = c := by
  refine ⟨_, @transfer_columnBytes s c s.addrLow s.addrHigh eightBit, ?_,
    column_of_lanes column ?_ ?_⟩
  · rw [page_eq_lanes, s.page_eq_lanes]
    simp only [latch_addrLow, latch_addrHigh]
    rw [lane_setLane_two (by decide) (by decide), lane_setLane_two (by decide) (by decide)]
    rfl
  · rw [latch_addrLow, lane_setLane_two (by decide) (by decide)]
    rfl
  · rw [latch_addrLow, lane_setLane_two (by decide) (by decide)]
    rfl

/-- The state before 0xe0. -/
theorem transfer_column (eightBit : s.chip.info.busWidth = 1) (column : c < 65536) :
    ∃ t, transfer s (.command 0x05 :: [addressByte c, addressByte (c / 256)]) = .ok (t, []) ∧
      t.bdrv = s.bdrv ∧ t.chip = s.chip ∧ t.page = s.page ∧ t.addrHigh = s.addrHigh ∧
      t.column = c := by
  let x : NandBflash := { s with iolen := 0, cmd := 0x05#16 }
  have command : busStep s (.command 0x05#16) = .ok (x.latch x.addrLow x.addrHigh 0, none) := rfl
  obtain ⟨low, address, page, column'⟩ := @transfer_newColumn x c eightBit column
  exact ⟨_, transfer_cons command address, rfl, rfl, page, rfl, column'⟩

/-- The bytes of one page of the image. -/
def imageBytes (bdrv : ByteFile) : PageArray := fun p j => bdrv.byte (2112 * p + j)

/-- A load and its reads deliver the bytes of the addressed page. -/
theorem transfer_loadPage {value : BitVec 16} (load : value = 0x30#16 ∨ value = 0xe0#16)
    (size : s.bdrv.size = s.chip.imageSize) (present : s.page < s.chip.pages)
    (within : s.column + count ≤ s.chip.pageOobSize) :
    ∃ t, transfer s (.command value :: List.replicate count .readData8) =
        .ok (t, (imageBytes s.bdrv).bytes s.page s.column count) ∧
      t.bdrv = s.bdrv ∧ t.chip = s.chip ∧ t.page = s.page ∧ t.addrHigh = s.addrHigh := by
  obtain ⟨t, served, bdrv, chip, low, high⟩ := transfer_loaded load size.ge present within
  refine ⟨t, ?_, bdrv, chip, by rw [NandBflash.page, NandBflash.page, low, high], high⟩
  rw [transfer_cons (busStep_load load) served, PageArray.bytes, NandBflash.offset,
    s.chip.pageOobSize_eq]
  simp only [imageBytes, Nat.mul_comm s.page, Nat.add_assoc, Option.toList_none, List.nil_append]

/-- Random outputs move the column of the latch only. -/
theorem transfer_outputs (eightBit : s.chip.info.busWidth = 1)
    (size : s.bdrv.size = s.chip.imageSize) (present : s.page < s.chip.pages)
    (fits : ∀ output ∈ outputs, output.1 + output.2 ≤ s.chip.pageOobSize) :
    ∃ t, transfer s (outputs.flatMap fun (c', count') => encodeOutput c' count') =
        .ok (t, outputs.flatMap fun (c', count') =>
          (imageBytes s.bdrv).bytes s.page c' count') ∧
      t.chip = s.chip ∧ t.addrHigh = s.addrHigh ∧ t.bdrv = s.bdrv := by
  induction outputs generalizing s with
  | nil => exact ⟨s, rfl, rfl, rfl, rfl⟩
  | cons output outputs ih =>
    obtain ⟨c', count'⟩ := output
    have inPage : c' + count' ≤ s.chip.pageOobSize := fits _ List.mem_cons_self
    have full := s.chip.pageOobSize_eq
    obtain ⟨t, addressed, bdrv, chip, page, high, column⟩ :=
      @transfer_column s c' eightBit (by omega)
    obtain ⟨u, served, bdrv', chip', page', high'⟩ := @transfer_loadPage t count' _ (Or.inr rfl)
      (by rw [bdrv, chip, size]) (by rw [page, chip]; exact present)
      (by rw [column, chip]; exact inPage)
    obtain ⟨v, rest, chip'', high'', bdrv''⟩ := @ih u (by rw [chip', chip]; exact eightBit)
      (by rw [bdrv', chip', bdrv, chip, size]) (by rw [page', page, chip', chip]; exact present)
      (by
        rw [chip', chip]
        exact fun output later => fits output (List.mem_cons_of_mem _ later))
    have whole := transfer_append (transfer_append addressed served) rest
    rw [bdrv', page', bdrv, page, column] at whole
    exact ⟨v, whole, by rw [chip'', chip', chip], by rw [high'', high', high],
      by rw [bdrv'', bdrv', bdrv]⟩

theorem pageStep_read (eightBit : s.chip.info.busWidth = 1)
    (size : s.bdrv.size = s.chip.imageSize) (clean : LatchClean s)
    (fits : (PageOp.read p c count outputs).Fits s.chip) :
    ∃ t, pageStep s (.read p c count outputs) =
        .ok (t, (PageOp.read p c count outputs).output (imageBytes s.bdrv)) ∧
      t.chip = s.chip ∧ LatchClean t ∧ t.bdrv = s.bdrv := by
  obtain ⟨present, inPage, inPages⟩ := fits
  have full := s.chip.pageOobSize_eq
  let x : NandBflash := { s with iolen := 0, cmd := 0x00#16 }
  have command : busStep s (.command 0x00#16) = .ok (x.latch s.addrLow x.addrHigh 0, none) := rfl
  have address := @transfer_latchBytes x p c s.addrLow eightBit
  have page : (x.latched p c).page = p := by
    rw [latched_page (Nat.lt_trans present (pages_lt _))]
    exact congrArg (p + 2 ^ 24 * ·) clean
  have column : (x.latched p c).column = c := latched_column (by omega)
  obtain ⟨t, served, bdrv, chip, page', high⟩ :=
    @transfer_loadPage (x.latched p c) count _ (Or.inl rfl) size (by rw [page]; exact present)
      (by rw [column]; exact inPage)
  obtain ⟨u, rest, chip', high', bdrv'⟩ := @transfer_outputs t outputs
    (by rw [chip]; exact eightBit) (by rw [bdrv, chip]; exact size)
    (by rw [page', page, chip]; exact present) (by rw [chip]; exact inPages)
  have whole := transfer_append (transfer_append (transfer_cons command address) served) rest
  rw [bdrv, page', page, column, List.append_assoc] at whole
  refine ⟨u, whole, by rw [chip', chip]; rfl, ?_, by rw [bdrv', bdrv]; rfl⟩
  rw [LatchClean, high', high, latched_lane]
  exact clean

end Operations

/-! ## Every sequence of operations -/

section Refinement

variable {s : NandBflash} {arr : PageArray} {op : PageOp}

theorem bytes_eq_of_represents {chip : NandChip} {bdrv : ByteFile} {p c count : Nat}
    (rep : Represents chip bdrv arr) (present : p < chip.pages)
    (inPage : c + count ≤ chip.pageOobSize) :
    (imageBytes bdrv).bytes p c count = arr.bytes p c count := by
  refine List.map_congr_left fun i wanted => ?_
  rw [List.mem_range] at wanted
  have held := rep.2 p present (c + i) (by omega)
  rw [chip.pageOobSize_eq] at held
  exact held

/-- What an array stored in the image answers to a read. -/
theorem output_eq_of_represents {chip : NandChip} {bdrv : ByteFile}
    (rep : Represents chip bdrv arr) (fits : op.Fits chip) :
    op.output (imageBytes bdrv) = op.output arr := by
  cases op with
  | program p c data => rfl
  | erase p => rfl
  | read p c count outputs =>
    obtain ⟨present, inPage, inPages⟩ := fits
    simp only [PageOp.output, bytes_eq_of_represents rep present inPage]
    congr 1
    refine List.flatMap_congr fun output asked => ?_
    exact bytes_eq_of_represents rep present (inPages output asked)

/-- One operation from a clean latch answers as the array does, and leaves the latch
clean. -/
theorem pageStep_refines (eightBit : s.chip.info.busWidth = 1)
    (rep : Represents s.chip s.bdrv arr) (clean : StartsClean s op) (fits : op.Fits s.chip) :
    ∃ t, pageStep s op = .ok (t, op.output arr) ∧ t.chip = s.chip ∧ LatchClean t ∧
      Represents s.chip t.bdrv (op.apply arr) := by
  rw [← output_eq_of_represents rep fits]
  cases op with
  | program p c data =>
    obtain ⟨t, io, done, chip, clean', staged, bdrv⟩ := pageStep_program eightBit rep.1 clean fits
    exact ⟨t, done, chip, clean', bdrv ▸ represents_program rep fits staged⟩
  | erase p =>
    obtain ⟨t, done, chip, clean', bdrv⟩ := pageStep_erase eightBit fits
    exact ⟨t, done, chip, clean', bdrv ▸ represents_erase rep⟩
  | read p c count outputs =>
    obtain ⟨t, done, chip, clean', bdrv⟩ := pageStep_read eightBit rep.1 clean fits
    exact ⟨t, done, chip, clean', bdrv ▸ rep⟩

/-- From any state of an 8-bit device and any image, a sequence of complete
operations refines the page array whenever its first operation starts clean: the
later ones then do. -/
theorem refines_page_array (s : NandBflash) (arr : PageArray) (ops : List PageOp)
    (eightBit : s.chip.info.busWidth = 1) (rep : Represents s.chip s.bdrv arr)
    (fits : ∀ op ∈ ops, op.Fits s.chip) (clean : ∀ op ∈ ops.head?, StartsClean s op) :
    RefinesPageArray s arr ops := by
  induction ops generalizing s arr with
  | nil => trivial
  | cons op ops ih =>
    obtain ⟨t, done, chip, clean', rep'⟩ :=
      pageStep_refines eightBit rep (clean op rfl) (fits op List.mem_cons_self)
    refine ⟨t, done, rep', ih t _ (chip ▸ eightBit) (chip ▸ rep') ?_ fun op _ => ?_⟩
    · rw [chip]
      exact fun op later => fits op (List.mem_cons_of_mem _ later)
    · exact startsClean_of_latchClean clean'

/-- From a latch that is not clean, a program that changes a byte shows. -/
theorem not_refines_of_dirty {p c : Nat} {b : Byte} (eightBit : s.chip.info.busWidth = 1)
    (rep : Represents s.chip s.bdrv arr) (dirty : ¬ LatchClean s)
    (fits : (PageOp.program p c [b]).Fits s.chip) (changes : arr p c ≠ b) :
    ¬ RefinesPageArray s arr [.program p c [b]] := by
  rintro ⟨t, done, rep', -⟩
  obtain ⟨t', done', untouched⟩ := pageStep_program_dropped eightBit dirty fits
  cases done.symm.trans done'
  have present := present_of_fits fits
  have inPage : c < s.chip.pageOobSize := fits.1
  have held := rep'.2 p present c inPage
  rw [untouched, rep.2 p present c inPage, apply_program,
    if_pos ⟨rfl, Nat.le_refl c, Nat.lt_succ_self c⟩, Nat.sub_self, listBuf_cons_zero] at held
  exact changes held

/-- So the clean latch is needed: where every program of page 0 refines the array, the
latch is clean. -/
theorem latchClean_of_refines (eightBit : s.chip.info.busWidth = 1)
    (rep : Represents s.chip s.bdrv arr)
    (refines : ∀ b, RefinesPageArray s arr [.program 0 0 [b]]) : LatchClean s := by
  by_contra dirty
  have fits : (PageOp.program 0 0 [arr 0 0 + 1#8]).Fits s.chip := by
    have sectors := s.chip.imageSectors_eq
    have image := s.chip.imageSize_eq.1
    rw [sectorSize] at sectors
    rw [PageOp.Fits, s.chip.pageOobSize_eq, sectorSize, List.length_singleton]
    rcases s.chip.pages_eq_or with h | h <;> exact ⟨by decide, by omega⟩
  have changes : arr 0 0 ≠ arr 0 0 + 1#8 := by
    intro same
    have value := congrArg BitVec.toNat same
    rw [BitVec.toNat_add] at value
    have bound := (arr 0 0).isLt
    simp at value
    omega
  exact not_refines_of_dirty eightBit rep dirty fits changes (refines _)

end Refinement

theorem represents_blank (chip : NandChip) :
    Represents chip (blankImage chip) (fun _ _ => 0xff) := by
  refine ⟨rfl, fun p present j inPage => ?_⟩
  have size := chip.imageSize_eq.1
  rw [chip.pageOobSize_eq] at inPage ⊢
  exact ByteFile.ofBuf_byte _ (by omega)

/-- Bytes programmed into a blank chip, the page read, and its block erased. -/
theorem refines_page_array_blank :
    RefinesPageArray (nandbPowerOn pavoChip (blankImage pavoChip)) (fun _ _ => 0xff)
      [.program 70 2110 [0x5a, 0xa5], .read 70 0 3 [(2110, 2)], .erase 64] := by
  refine refines_page_array _ _ _ rfl (represents_blank pavoChip) ?_ ?_
  · simp only [List.forall_mem_cons, List.not_mem_nil, false_implies, implies_true, and_true]
    exact ⟨⟨by decide, by decide⟩, ⟨by decide, by decide, by decide⟩, show 64 < 2 ^ 24 by decide⟩
  · intro op first
    cases first
    exact startsClean_of_latchClean (by rw [LatchClean]; decide)

/-- 0x31 steps past page 0xffffff and carries into bit 8 of `addr_high`. -/
def carryIntoLatch : List BusOp :=
  .command 0x00 :: latchBytes 0xffffff 0xffff ++ [.command 0x31]

/-- The carry is reachable, and from there a program of page 0 is dropped. -/
theorem not_refines_after_carry :
    ∃ s outs, busRun (nandbPowerOn pavoChip (blankImage pavoChip)) carryIntoLatch =
        .ok (s, outs) ∧
      Represents s.chip s.bdrv (fun _ _ => 0xff) ∧
      (PageOp.program 0 0 [0x5a]).Fits s.chip ∧
      ¬ RefinesPageArray s (fun _ _ => 0xff) [.program 0 0 [0x5a]] := by
  have carried : ∃ s outs, busRun (nandbPowerOn pavoChip (blankImage pavoChip)) carryIntoLatch =
      .ok (s, outs) ∧ s.chip = pavoChip ∧ s.bdrv = blankImage pavoChip ∧ ¬ LatchClean s :=
    ⟨_, _, rfl, rfl, rfl, by rw [LatchClean]; decide⟩
  obtain ⟨s, outs, completed, chip, bdrv, dirty⟩ := carried
  have fits : (PageOp.program 0 0 [0x5a]).Fits s.chip := by
    rw [chip]
    exact ⟨by decide, by decide⟩
  have blank : Represents s.chip s.bdrv (fun _ _ => 0xff) := by
    rw [chip, bdrv]
    exact represents_blank pavoChip
  exact ⟨s, outs, completed, blank, fits,
    not_refines_of_dirty (by rw [chip]; rfl) blank dirty fits (by decide)⟩

end VirtualNoah
