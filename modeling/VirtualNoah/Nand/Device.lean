import Mathlib.Tactic.FinCases
import VirtualNoah.Lib.Lanes
import VirtualNoah.Lib.StepRun
import VirtualNoah.Nand.BlockLayer

/-!
# The big-page NAND model of the emulator

The state of `nand_bflash_s` and its operations.  What `nandb_init` copies out
of the chip table never changes afterwards and is a `NandChip`; a chip that is
not in the table cannot be built.

`ioaddr` points into `io` or is `NULL`, so it is an optional offset.  An access
that leaves its buffer is the outcome `Stop.outOfBounds`, and `exit(-1)` is
`Stop.exit`.
-/

namespace VirtualNoah

open ByteStore Lanes

/-! ## The chip table -/

structure NandFlashInfo where
  manfId : BitVec 8
  chipId : BitVec 8
  size : BitVec 32
  busWidth : Nat
  pageShift : Nat
  oobShift : Nat
  blockShift : Nat
  deriving DecidableEq

def nandFlashInfo : List NandFlashInfo :=
  [⟨0x2c, 0xba, 256, 2, 11, 6, 6⟩, ⟨0xec, 0xd3, 1024, 1, 11, 6, 6⟩]

def nandMfrMicron : BitVec 8 := 0x2c

def nandMfrSamsung : BitVec 8 := 0xec

/-- A chip of the table. -/
structure NandChip where
  info : NandFlashInfo
  listed : info ∈ nandFlashInfo

namespace NandChip

variable (chip : NandChip)

def pageSize : Nat := 1 <<< chip.info.pageShift
def oobSize : Nat := 1 <<< chip.info.oobShift
def blockShift : Nat := chip.info.blockShift
def blockPages : Nat := 1 <<< chip.info.blockShift
def pageOobSize : Nat := chip.pageSize + chip.oobSize
def pageSectors : Nat := 1 <<< (chip.info.pageShift - 9)
def size : BitVec 32 := chip.info.size <<< 20
def pages : Nat := chip.size.toNat / chip.pageSize

/-- The size `nandb_init` demands of the image. -/
def imageSize : Nat := chip.pages * chip.pageOobSize

/-- The sectors of an image of that size. -/
def imageSectors : Nat := chip.imageSize / sectorSize

theorem eq_or : chip.info = ⟨0x2c, 0xba, 256, 2, 11, 6, 6⟩ ∨
    chip.info = ⟨0xec, 0xd3, 1024, 1, 11, 6, 6⟩ := by
  simpa only [nandFlashInfo, List.mem_cons, List.not_mem_nil, or_false] using chip.listed

@[simp] theorem pageOobSize_eq : chip.pageOobSize = 2112 := by
  rcases chip.eq_or with h | h <;> simp only [pageOobSize, pageSize, oobSize, h] <;> rfl

@[simp] theorem pageSectors_eq : chip.pageSectors = 4 := by
  rcases chip.eq_or with h | h <;> simp only [pageSectors, h] <;> rfl

@[simp] theorem blockShift_eq : chip.blockShift = 6 := by
  rcases chip.eq_or with h | h <;> simp only [blockShift, h]

@[simp] theorem blockPages_eq : chip.blockPages = 64 := by
  rcases chip.eq_or with h | h <;> simp only [blockPages, h] <;> rfl

theorem pages_eq_or : chip.pages = 0x20000 ∨ chip.pages = 0x80000 := by
  rcases chip.eq_or with h | h
  · exact Or.inl (by simp only [pages, size, pageSize, h]; rfl)
  · exact Or.inr (by simp only [pages, size, pageSize, h]; rfl)

/-- The image is a whole number of erase blocks, and so of sectors. -/
theorem imageSize_eq : chip.imageSize = 2112 * chip.pages ∧ chip.pages % 64 = 0 := by
  rw [imageSize, pageOobSize_eq]
  rcases chip.pages_eq_or with h | h <;> rw [h] <;> simp

theorem imageSectors_eq : chip.imageSectors * sectorSize = chip.imageSize := by
  obtain ⟨size, blocks⟩ := chip.imageSize_eq
  rw [imageSectors, size, sectorSize]
  omega

end NandChip

/-! ## The device state -/

def maxPage : Nat := 0x800
def maxOob : Nat := 0x40

/-- `sizeof(s->io)`. -/
def ioSize : Nat := maxPage + maxOob + 0x400

@[simp] theorem ioSize_eq : ioSize = 3136 := rfl

structure NandBflash where
  bdrv : ByteFile
  chip : NandChip
  io : Buf
  ioaddr : Option Nat
  iolen : Int
  addrLow : BitVec 32
  addrHigh : BitVec 32
  addrCycle : Nat
  cmd : BitVec 16
  status : BitVec 32

/-- How an operation ends without reaching a state. -/
inductive Stop where
  | exit
  | outOfBounds
  deriving DecidableEq

/-- `s->addr_low & PAGE_MASK`. -/
def NandBflash.column (s : NandBflash) : Nat := (s.addrLow &&& 0xffff#32).toNat

def getPageNumber (addrLow addrHigh : BitVec 32) : BitVec 32 :=
  (addrHigh <<< 16) + ((addrLow >>> 16) &&& 0xffff#32)

/-- The page the latch addresses. -/
def NandBflash.page (s : NandBflash) : Nat := (getPageNumber s.addrLow s.addrHigh).toNat

/-- Program a single page.  `qemu_mallocz` hands out zeros; past the page check
`off` cannot exceed 32 bits. -/
def nandBlkWrite (s : NandBflash) : Except Stop NandBflash :=
  let pageNumber := s.page
  if pageNumber ≥ s.chip.pages then .ok s
  else
    let off := pageNumber * s.chip.pageOobSize + s.column
    let sector := off / 0x200
    let soff := off % 0x200
    let (ret, iobuf) := bdrvRead s.bdrv sector (fill 0) (s.chip.pageSectors + 2)
    if ret = -1 then .ok s
    -- `memcpy(iobuf + soff, s->io, s->iolen)`: a negative length becomes a huge `size_t`
    else if 0 ≤ s.iolen ∧ soff + s.iolen ≤ ((s.chip.pageSectors + 2) * 0x200 : Nat) ∧
        s.iolen ≤ ioSize then
      let iobuf := blit iobuf soff s.io s.iolen.toNat
      .ok { s with bdrv := (bdrvWrite s.bdrv sector iobuf (s.chip.pageSectors + 2)).2 }
    else .error .outOfBounds

/-- On a page that does not exist `ioaddr` and `io` stay as they are. -/
def nandbBlkLoad (s : NandBflash) : NandBflash :=
  let pageNumber := s.page
  if pageNumber ≥ s.chip.pages then s
  else
    let off := pageNumber * s.chip.pageOobSize + s.column
    { s with
      io := (bdrvRead s.bdrv (off / 0x200) s.io (s.chip.pageSectors + 2)).2
      ioaddr := some (off % 0x200) }

/-- `s->iolen = s->page_oob_size - (s->addr_low & PAGE_MASK)`, unsigned and then
stored in an `int`, followed by the load. -/
def nandbLoadPage (s : NandBflash) : NandBflash :=
  nandbBlkLoad
    { s with iolen := (BitVec.ofNat 32 s.chip.pageOobSize - (s.addrLow &&& 0xffff#32)).toInt }

/-- The middle sectors of an erase: `for (; i < addr; i += 0x200)`. -/
def eraseSectors (bdrv : ByteFile) (i addr : Nat) : ByteFile × Nat :=
  if i < addr then
    eraseSectors (bdrvWrite bdrv (i / 0x200) (fill 0xff) 1).2 (i + 0x200) addr
  else (bdrv, i)
termination_by addr - i
decreasing_by omega

/-- The sector writes of `nandb_blk_erase`: `length` bytes from the byte address
`addr` on, the first and the last sector through a read. -/
def eraseBytes (bdrv : ByteFile) (addr length : Nat) : ByteFile :=
  let sector := addr / 0x200
  let iobuf := (bdrvRead bdrv sector (fill 0xff) 1).2
  let iobuf := blit iobuf (addr % 0x200) (fill 0xff) (0x200 - addr % 0x200)
  let bdrv := (bdrvWrite bdrv sector iobuf 1).2
  let i := addr / 0x200 * 0x200 + 0x200
  let addr := addr + (length - 0x200)
  let (bdrv, i) := eraseSectors bdrv i addr
  let sector := i / 0x200
  let iobuf := (bdrvRead bdrv sector (fill 0xff) 1).2
  let iobuf := blit iobuf 0 (fill 0xff) ((addr - 1) % 0x200 + 1)
  (bdrvWrite bdrv sector iobuf 1).2

/-- Erase a single block. -/
def nandbBlkErase (s : NandBflash) : NandBflash :=
  let s := { s with addrLow := s.addrLow &&& ~~~((1#32 <<< (16 + s.chip.blockShift)) - 1#32) }
  let pageNumber := s.page
  if pageNumber ≥ s.chip.pages then s
  else
    { s with
      bdrv := eraseBytes s.bdrv (pageNumber * s.chip.pageOobSize)
        (s.chip.pageOobSize * s.chip.blockPages) }

def nandbNextPage (s : NandBflash) : NandBflash :=
  { s with
    addrHigh := if s.addrLow + 0x10000#32 < s.addrLow then s.addrHigh + 1#32 else s.addrHigh
    addrLow := s.addrLow + 0x10000#32 }

@[simp] theorem nandbNextPage_chip (s : NandBflash) : (nandbNextPage s).chip = s.chip := by
  rw [nandbNextPage]

@[simp] theorem nandbNextPage_bdrv (s : NandBflash) : (nandbNextPage s).bdrv = s.bdrv := by
  rw [nandbNextPage]

/-- The bytes command 0x90 leaves in `io`; the positions are `id_index`. -/
def readId (chip : NandChip) (io : Buf) : Buf :=
  let idIndex : Nat → Nat := fun k =>
    if chip.info.busWidth = 2 then [0, 2, 4, 6, 6].getD k 0 else k
  let set (io : Buf) (k : Nat) (v : Byte) : Buf := Function.update io (idIndex k) v
  let io := blit io 0 (fill 0) (5 * chip.info.busWidth)
  let io := set io 0 chip.info.manfId
  let io := set io 1 chip.info.chipId
  let io := set io 2 0x51
  let io := if chip.info.manfId = nandMfrMicron ∧ chip.info.chipId = 0xba then set io 3 0x55
    else io
  if chip.info.manfId = nandMfrSamsung ∧ chip.info.chipId = 0xd3 then
    set (set io 3 0x95) 4 0x48
  else io

/-- The status register after command 0x70. -/
def readStatus (chip : NandChip) (status : BitVec 32) : BitVec 32 :=
  let status :=
    if chip.info.manfId = nandMfrMicron ∧ chip.info.chipId = 0xba then
      status ||| 0x60#32 ||| 0x80#32
    else status
  if chip.info.manfId = nandMfrSamsung ∧ chip.info.chipId = 0xd3 then
    status ||| 0x40#32 ||| 0x80#32
  else status

/-- The `switch` of `nandb_write_command`. -/
def nandbCommand (s : NandBflash) (value : BitVec 16) : Except Stop NandBflash :=
  match value with
  | 0x00#16 | 0x05#16 => .ok { s with iolen := 0, addrCycle := 0 }
  | 0x60#16 =>
    .ok { s with addrLow := s.addrLow &&& ~~~0xffff#32, addrHigh := 0, addrCycle := 2 }
  | 0x30#16 | 0xe0#16 => .ok (nandbLoadPage s)
  | 0x31#16 | 0x3f#16 => .ok (nandbLoadPage (nandbNextPage s))
  | 0x90#16 =>
    .ok { s with
      iolen := (5 * s.chip.info.busWidth : Nat), io := readId s.chip s.io, ioaddr := some 0,
      addrCycle := 0 }
  | 0x70#16 =>
    let status := readStatus s.chip s.status
    .ok { s with
      status := status, io := Function.update s.io 0 (status.setWidth 8), ioaddr := some 0,
      iolen := 1 }
  | 0xd0#16 => .ok (nandbBlkErase s)
  | 0x80#16 | 0x85#16 => .ok { s with addrCycle := 0, ioaddr := some 0, iolen := 0 }
  | 0x10#16 => nandBlkWrite s
  | 0xff#16 =>
    .ok { s with addrCycle := 0, iolen := 0, addrLow := 0, addrHigh := 0, ioaddr := none }
  | _ => .error .exit

def nandbWriteCommand (s : NandBflash) (value : BitVec 16) : Except Stop NandBflash :=
  match nandbCommand s value with
  | .error e => .error e
  | .ok s => .ok { s with cmd := value }

/-- Byte lane `addr_cycle` of the 40-bit latch. -/
def latchAddress (s : NandBflash) (value : BitVec 16) : NandBflash :=
  if s.addrCycle < 4 then
    { s with addrLow := setLane s.addrLow s.addrCycle (value.setWidth 32) }
  else { s with addrHigh := setLane s.addrHigh (s.addrCycle - 4) (value.setWidth 32) }

/-- Wide chips count columns in words: after the second column byte the latch is
scaled to bytes. -/
def scaleColumn (s : NandBflash) : NandBflash :=
  if s.addrCycle = 1 ∧ s.chip.info.busWidth ≠ 1 then
    let columAddr := (s.addrLow &&& 0xffff#32) * BitVec.ofNat 32 s.chip.info.busWidth
    { s with addrLow := (s.addrLow &&& ~~~0xffff#32) + columAddr }
  else s

def nandbWriteAddress (s : NandBflash) (value : BitVec 16) : Except Stop NandBflash :=
  if s.addrCycle < 5 then
    let s := scaleColumn (latchAddress s value)
    .ok { s with addrCycle := s.addrCycle + 1 }
  else .error .exit

/-- The cache load at the head of a data read. -/
def nandbRefill (s : NandBflash) : NandBflash :=
  if s.iolen = 0 ∧ s.cmd = 0x31#16 then nandbLoadPage (nandbNextPage s) else s

def nandbReadData8 (s : NandBflash) : Except Stop (Byte × NandBflash) :=
  let s := nandbRefill s
  if s.iolen ≤ 0 then .error .exit
  else
    match s.ioaddr with
    | none => .error .outOfBounds
    | some k =>
      if k < ioSize then
        if s.cmd ≠ 0x70#16 then
          .ok (s.io k, { s with iolen := s.iolen - 1, ioaddr := some (k + 1) })
        else .ok (s.io k, s)
      else .error .outOfBounds

/-- `s->iolen < s->page_oob_size` compares as unsigned. -/
def nandbWriteData8 (s : NandBflash) (value : Byte) : Except Stop NandBflash :=
  if s.cmd = 0x80#16 ∧ (BitVec.ofInt 32 s.iolen).toNat < s.chip.pageOobSize then
    if 0 ≤ s.iolen ∧ s.iolen < ioSize then
      .ok { s with io := Function.update s.io s.iolen.toNat value, iolen := s.iolen + 1 }
    else .error .outOfBounds
  else .ok s

/-- The state `nandb_init` leaves: `qemu_mallocz` clears everything it does not set. -/
def nandbPowerOn (chip : NandChip) (bdrv : ByteFile) : NandBflash where
  bdrv := bdrv
  chip := chip
  io := fill 0
  ioaddr := none
  iolen := 0
  addrLow := 0
  addrHigh := 0
  addrCycle := 0
  cmd := 0
  status := 0

/-- The first row of the table with these ids. -/
def findChip (manfId chipId : BitVec 8) : Option NandChip :=
  match h : nandFlashInfo.find? (fun i => i.manfId = manfId ∧ i.chipId = chipId) with
  | none => none
  | some info => some ⟨info, List.mem_of_find?_eq_some h⟩

/-- `nandb_init` over the drive of `-mtdblock`.  The table loop is bounded by
the table's size in bytes, so ids that are not in the table run past its end. -/
def nandbInit (manfId chipId : BitVec 8) (drive : Option ByteFile) : Except Stop NandBflash :=
  match findChip manfId chipId with
  | none => .error .outOfBounds
  | some chip =>
    match drive with
    | none => .error .exit
    | some bdrv =>
      if bdrvGetlength bdrv ≠ chip.imageSize then .error .exit
      else .ok (nandbPowerOn chip bdrv)

/-! ## What each operation can do -/

section Effects

variable {s t : NandBflash} {value : BitVec 16}

/-- The byte offset of the latch in the image. -/
def NandBflash.offset (s : NandBflash) : Nat := s.page * s.chip.pageOobSize + s.column

/-- The `memcpy` of a program stays inside `iobuf` and inside `io`. -/
def ProgramInBounds (s : NandBflash) : Prop :=
  0 ≤ s.iolen ∧
    (s.offset % 0x200 : Nat) + s.iolen ≤ ((s.chip.pageSectors + 2) * 0x200 : Nat) ∧
    s.iolen ≤ ioSize

theorem nandBlkWrite_missing (missing : s.chip.pages ≤ s.page) : nandBlkWrite s = .ok s :=
  if_pos missing

/-- A program rewrites the six sectors its page and column fall into. -/
theorem nandBlkWrite_eq (present : s.page < s.chip.pages) (copy : ProgramInBounds s) :
    nandBlkWrite s = .ok { s with
      bdrv := s.bdrv.pwrite (s.offset / 0x200 * sectorSize)
        ((s.chip.pageSectors + 2) * sectorSize)
        (blit (bdrvRead s.bdrv (s.offset / 0x200) (fill 0) (s.chip.pageSectors + 2)).2
          (s.offset % 0x200) s.io s.iolen.toNat) } := by
  unfold nandBlkWrite
  rw [if_neg (by omega)]
  dsimp only
  rw [if_neg bdrvRead_ne_neg_one]
  exact if_pos copy

/-- A program of a page that exists stops exactly when its copy is out of bounds. -/
theorem nandBlkWrite_stops (present : s.page < s.chip.pages) (copy : ¬ ProgramInBounds s) :
    nandBlkWrite s = .error .outOfBounds := by
  unfold nandBlkWrite
  rw [if_neg (by omega)]
  dsimp only
  rw [if_neg bdrvRead_ne_neg_one]
  exact if_neg copy

theorem nandbBlkLoad_missing (missing : s.chip.pages ≤ s.page) : nandbBlkLoad s = s :=
  if_pos missing

theorem nandbBlkLoad_eq (present : s.page < s.chip.pages) :
    nandbBlkLoad s = { s with
      io := (bdrvRead s.bdrv (s.offset / 0x200) s.io (s.chip.pageSectors + 2)).2
      ioaddr := some (s.offset % 0x200) } :=
  if_neg (by omega)

/-- What a load offers to the reads after it. -/
def NandBflash.loadLength (s : NandBflash) : Int :=
  (BitVec.ofNat 32 s.chip.pageOobSize - (s.addrLow &&& 0xffff#32)).toInt

theorem nandbLoadPage_missing (missing : s.chip.pages ≤ s.page) :
    nandbLoadPage s = { s with iolen := s.loadLength } :=
  nandbBlkLoad_missing (s := { s with iolen := s.loadLength }) missing

theorem nandbLoadPage_eq (present : s.page < s.chip.pages) :
    nandbLoadPage s = { s with
      iolen := s.loadLength
      io := (bdrvRead s.bdrv (s.offset / 0x200) s.io (s.chip.pageSectors + 2)).2
      ioaddr := some (s.offset % 0x200) } :=
  nandbBlkLoad_eq (s := { s with iolen := s.loadLength }) present

/-- At a column inside the page the subtraction does not wrap. -/
theorem NandBflash.loadLength_eq (inside : s.column ≤ s.chip.pageOobSize) :
    s.loadLength = (s.chip.pageOobSize - s.column : Nat) := by
  have column : s.column = (s.addrLow &&& 0xffff#32).toNat := rfl
  rw [loadLength]
  rw [s.chip.pageOobSize_eq] at inside ⊢
  rw [column] at inside ⊢
  have difference := BitVec.toNat_sub_of_le (x := 2112#32) (y := s.addrLow &&& 0xffff#32)
    (BitVec.le_def.mpr inside)
  rw [BitVec.toNat_ofNat] at difference
  rw [BitVec.toInt_eq_toNat_of_lt (by omega), difference]

/-- The switch of `nandb_write_command`, read backwards: a command programs,
erases, loads, or only sets the latch, the status and the length to serve. -/
theorem nandbCommand_cases (done : nandbCommand s value = .ok t) :
    (value = 0x10#16 ∧ nandBlkWrite s = .ok t) ∨
    (value = 0xd0#16 ∧ t = nandbBlkErase s) ∨
    ((value = 0x30#16 ∨ value = 0xe0#16) ∧ t = nandbLoadPage s) ∨
    ((value = 0x31#16 ∨ value = 0x3f#16) ∧ t = nandbLoadPage (nandbNextPage s)) ∨
    (t.bdrv = s.bdrv ∧ t.chip = s.chip ∧
      (t.iolen = s.iolen ∧ t.ioaddr = s.ioaddr ∨ t.iolen = 0 ∨
        0 ≤ t.iolen ∧ t.iolen ≤ 10 ∧ t.ioaddr = some 0)) := by
  have idLength : (5 * s.chip.info.busWidth : Nat) ≤ 10 := by
    rcases s.chip.eq_or with h | h <;> rw [h] <;> decide
  unfold nandbCommand at done
  split at done
  case h_13 => exact Or.inl ⟨rfl, done⟩
  case h_10 =>
    cases done
    exact Or.inr (Or.inl ⟨rfl, rfl⟩)
  all_goals cases done <;> simp <;> omega

/-- A program changes the image only. -/
theorem nandBlkWrite_frame (done : nandBlkWrite s = .ok t) :
    ∃ bdrv, t = { s with bdrv := bdrv } := by
  rcases Nat.lt_or_ge s.page s.chip.pages with present | missing
  · by_cases copy : ProgramInBounds s
    · rw [nandBlkWrite_eq present copy] at done
      cases done
      exact ⟨_, rfl⟩
    · rw [nandBlkWrite_stops present copy] at done
      cases done
  · rw [nandBlkWrite_missing missing] at done
    cases done
    exact ⟨_, rfl⟩

/-- An erase changes the image and the low latch only. -/
theorem nandbBlkErase_frame (s : NandBflash) :
    ∃ bdrv addrLow, nandbBlkErase s = { s with bdrv := bdrv, addrLow := addrLow } := by
  unfold nandbBlkErase
  dsimp only
  split
  · exact ⟨_, _, rfl⟩
  · exact ⟨_, _, rfl⟩

theorem latchAddress_frame (s : NandBflash) (value : BitVec 16) :
    ∃ addrLow addrHigh, latchAddress s value =
      { s with addrLow := addrLow, addrHigh := addrHigh } := by
  unfold latchAddress
  split
  · exact ⟨_, _, rfl⟩
  · exact ⟨_, _, rfl⟩

theorem scaleColumn_frame (s : NandBflash) :
    ∃ addrLow, scaleColumn s = { s with addrLow := addrLow } := by
  unfold scaleColumn
  split
  · exact ⟨_, rfl⟩
  · exact ⟨_, rfl⟩

/-- An address byte changes the latch only. -/
theorem nandbWriteAddress_frame (done : nandbWriteAddress s value = .ok t) :
    ∃ addrLow addrHigh addrCycle, t = { s with
      addrLow := addrLow, addrHigh := addrHigh, addrCycle := addrCycle } := by
  unfold nandbWriteAddress at done
  split at done
  · obtain ⟨low, high, latched⟩ := latchAddress_frame s value
    obtain ⟨low', scaled⟩ := scaleColumn_frame (latchAddress s value)
    rw [scaled, latched] at done
    cases done
    exact ⟨_, _, _, rfl⟩
  · cases done

end Effects

/-! ## The bus -/

/-- One guest access to the 8-bit NAND port. -/
inductive BusOp where
  | command (value : BitVec 16)
  | address (value : BitVec 16)
  | readData8
  | writeData8 (value : Byte)
  deriving DecidableEq

/-- One bus access; only a data read has an output. -/
def busStep (s : NandBflash) : BusOp → Except Stop (NandBflash × Option Byte)
  | .command value => (nandbWriteCommand s value).map (·, none)
  | .address value => (nandbWriteAddress s value).map (·, none)
  | .readData8 => (nandbReadData8 s).map fun (v, s) => (s, some v)
  | .writeData8 value => (nandbWriteData8 s value).map (·, none)

/-! ## A completed access, read backwards -/

section Inversion

variable {s t : NandBflash} {value : BitVec 16} {byte : Byte} {out : Option Byte}

theorem of_busStep_command (done : busStep s (.command value) = .ok (t, out)) :
    ∃ m, nandbCommand s value = .ok m ∧ t = { m with cmd := value } ∧ out = none := by
  simp only [busStep, nandbWriteCommand] at done
  cases result : nandbCommand s value with
  | error e =>
    rw [result] at done
    cases done
  | ok m =>
    rw [result] at done
    cases done
    exact ⟨m, rfl, rfl, rfl⟩

theorem of_busStep_address (done : busStep s (.address value) = .ok (t, out)) :
    nandbWriteAddress s value = .ok t ∧ out = none := by
  simp only [busStep] at done
  cases result : nandbWriteAddress s value with
  | error e =>
    rw [result] at done
    cases done
  | ok m =>
    rw [result] at done
    cases done
    exact ⟨rfl, rfl⟩

/-- A served read delivers the byte under `ioaddr`; only the status register is
not consumed. -/
theorem of_busStep_readData8 (done : busStep s .readData8 = .ok (t, out)) :
    ∃ r k, r = nandbRefill s ∧ 0 < r.iolen ∧ r.ioaddr = some k ∧ k < ioSize ∧
      out = some (r.io k) ∧
      (t = r ∨ t = { r with iolen := r.iolen - 1, ioaddr := some (k + 1) }) := by
  simp only [busStep, nandbReadData8] at done
  split at done
  · cases done
  · next served =>
    split at done
    · cases done
    · next k cursor =>
      refine ⟨nandbRefill s, k, rfl, by omega, cursor, ?_⟩
      split at done
      · next inside =>
        split at done
        · cases done
          exact ⟨inside, rfl, Or.inr rfl⟩
        · cases done
          exact ⟨inside, rfl, Or.inl rfl⟩
      · cases done

theorem of_busStep_writeData8 (done : busStep s (.writeData8 byte) = .ok (t, out)) :
    out = none ∧ (t = s ∨
      s.cmd = 0x80#16 ∧ 0 ≤ s.iolen ∧ s.iolen < s.chip.pageOobSize ∧
        t = { s with io := Function.update s.io s.iolen.toNat byte, iolen := s.iolen + 1 }) := by
  simp only [busStep, nandbWriteData8] at done
  split at done
  · next stored =>
    split at done
    · next inside =>
      cases done
      have length : s.iolen.toNat < ioSize := by omega
      have small : (BitVec.ofInt 32 s.iolen).toNat = s.iolen.toNat := by
        rw [← Int.toNat_of_nonneg inside.1, BitVec.ofInt_natCast, BitVec.toNat_ofNat]
        exact Nat.mod_eq_of_lt (Nat.lt_trans length (by decide))
      exact ⟨rfl, Or.inr ⟨stored.1, inside.1, by have := stored.2; omega, rfl⟩⟩
    · cases done
  · cases done
    exact ⟨rfl, Or.inl rfl⟩

end Inversion

abbrev busRun : NandBflash → List BusOp → Except Stop (NandBflash × List (Option Byte)) :=
  StepRun.run busStep

end VirtualNoah
