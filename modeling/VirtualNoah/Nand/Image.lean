import VirtualNoah.Nand.Device

/-!
# What the operations do to the image file

The image is read and written in whole sectors, while pages of 2112 bytes start
anywhere in a sector.  Here the sector arithmetic is done once: an erase is one
fill of the addressed block, a program inside the image writes the programmed
bytes and nothing else, and the bytes a load offers are those of the file.
-/

namespace VirtualNoah

open ByteStore

variable {s t : NandBflash} {bdrv : ByteFile}

/-! ## The addressed page -/

theorem NandBflash.page_eq (s : NandBflash) :
    s.page = 65536 * (s.addrHigh.toNat % 65536) + s.addrLow.toNat / 65536 := by
  have low := s.addrLow.isLt
  have half : ((s.addrLow >>> 16) &&& 0xffff#32).toNat = s.addrLow.toNat / 65536 := by
    rw [Lanes.toNat_and_low_half, BitVec.toNat_ushiftRight, Nat.shiftRight_eq_div_pow]
    omega
  simp only [page, getPageNumber, BitVec.toNat_add, BitVec.toNat_shiftLeft, half,
    Nat.shiftLeft_eq]
  omega

/-- `addr_low & ~((1 << 22) - 1)`. -/
theorem toNat_clear_block (x : BitVec 32) :
    (x &&& ~~~((1#32 <<< 22) - 1#32)).toNat = x.toNat / 2 ^ 22 * 2 ^ 22 := by
  have shifted : x &&& ~~~((1#32 <<< 22) - 1#32) = (x >>> 22) <<< 22 := by
    apply BitVec.eq_of_getLsbD_eq
    intro i bit
    interval_cases i <;> simp
  have bound := x.isLt
  rw [shifted, BitVec.toNat_shiftLeft, BitVec.toNat_ushiftRight, Nat.shiftLeft_eq,
    Nat.shiftRight_eq_div_pow]
  omega

/-! ## Erase -/

theorem eraseSectors_eq (j k : Nat) :
    eraseSectors bdrv (512 * j) (512 * (j + k)) =
      (bdrv.pwrite (512 * j) (512 * k) (fill 0xff), 512 * (j + k)) := by
  induction k generalizing bdrv j with
  | zero =>
    rw [eraseSectors, if_neg (by omega)]
    simp only [Nat.add_zero, Nat.mul_zero, ByteFile.pwrite_zero_len]
  | succ k ih =>
    have next := @ih (bdrvWrite bdrv (512 * j / 0x200) (fill 0xff) 1).2 (j + 1)
    rw [eraseSectors, if_pos (by omega), show 512 * j + 0x200 = 512 * (j + 1) by omega,
      show j + (k + 1) = j + 1 + k by omega, next, bdrvWrite_eq]
    refine Prod.ext ?_ rfl
    dsimp only
    rw [sectorSize, show 512 * j / 512 * 512 = 512 * j by omega,
      show 512 * (j + 1) = 512 * j + 1 * 512 by omega, ByteFile.pwrite_fill_append]
    congr 1
    omega

/-- Over whole sectors an erase is one fill; the first and the last sector are
overwritten completely, whatever was read. -/
theorem eraseBytes_eq (j m : Nat) :
    eraseBytes bdrv (512 * j) (512 * (m + 2)) =
      bdrv.pwrite (512 * j) (512 * (m + 2)) (fill 0xff) := by
  have whole : ∀ {n : Nat} {buf : Buf}, n = 512 → ∀ i, i < 1 * sectorSize →
      blit buf 0 (fill 0xff) n i = fill 0xff i := by
    intro n buf full i inside
    rw [sectorSize] at inside
    rw [blit_inside (Nat.zero_le i) (by omega), fill_apply, fill_apply]
  simp only [eraseBytes, bdrvWrite_eq]
  rw [show 512 * j % 512 = 0 by omega, show 512 * j / 512 = j by omega,
    show j * 512 + 512 = 512 * (j + 1) by omega,
    show 512 * j + (512 * (m + 2) - 512) = 512 * (j + 1 + m) by omega, eraseSectors_eq]
  dsimp only
  rw [ByteFile.pwrite_congr (whole (by omega)), ByteFile.pwrite_congr (whole (by omega))]
  rw [sectorSize, show 512 * (j + 1 + m) / 512 * 512 = 512 * (j + 1) + 512 * m by omega,
    ByteFile.pwrite_fill_append, show 512 * (j + 1) = j * 512 + 1 * 512 by omega,
    ByteFile.pwrite_fill_append, show j * 512 = 512 * j by omega,
    show 1 * 512 + (512 * m + 1 * 512) = 512 * (m + 2) by omega]

/-- The first page of the block an erase addresses. -/
def NandBflash.blockPage (s : NandBflash) : Nat := s.page / 64 * 64

theorem blockPage_lt (present : s.page < s.chip.pages) : s.blockPage + 64 ≤ s.chip.pages := by
  have blocks := s.chip.imageSize_eq.2
  rw [NandBflash.blockPage]
  omega

/-- An erase fills the block of the addressed page; a missing page is left alone. -/
theorem nandbBlkErase_bdrv (s : NandBflash) :
    (nandbBlkErase s).bdrv =
      if s.page < s.chip.pages then s.bdrv.pwrite (s.blockPage * 2112) (64 * 2112) (fill 0xff)
      else s.bdrv := by
  have page : ∀ low : BitVec 32, low = s.addrLow &&& ~~~((1#32 <<< 22) - 1#32) →
      NandBflash.page { s with addrLow := low } = s.blockPage := by
    intro low cleared
    have bound := s.addrLow.isLt
    rw [NandBflash.blockPage, NandBflash.page_eq, NandBflash.page_eq]
    dsimp only
    rw [cleared, toNat_clear_block]
    omega
  have blocks := s.chip.imageSize_eq.2
  simp only [nandbBlkErase, NandChip.blockShift_eq, page _ rfl, NandChip.pageOobSize_eq,
    NandChip.blockPages_eq]
  have same : s.page < s.chip.pages ↔ s.blockPage < s.chip.pages := by
    rw [NandBflash.blockPage]
    omega
  by_cases present : s.page < s.chip.pages
  · rw [if_pos present, if_neg (by omega)]
    dsimp only
    rw [NandBflash.blockPage, show s.page / 64 * 64 * 2112 = 512 * (s.page / 64 * 264) by omega]
    exact eraseBytes_eq _ 262
  · rw [if_neg present, if_pos (by omega)]

/-! ## Program -/

/-- The sectors a program rewrites lie inside an image of the right size. -/
def SectorsInImage (s : NandBflash) : Prop := s.offset / 0x200 + 6 ≤ s.chip.imageSectors

/-- The program window is the six sectors from the one the latch points into. -/
theorem nandBlkWrite_extent (present : s.page < s.chip.pages) (done : nandBlkWrite s = .ok t) :
    ∃ src, t = { s with bdrv := s.bdrv.pwrite (s.offset / 512 * 512) (6 * 512) src } := by
  by_cases copy : ProgramInBounds s
  · rw [nandBlkWrite_eq present copy] at done
    cases done
    simp only [NandChip.pageSectors_eq, sectorSize, Nat.reduceAdd]
    exact ⟨_, rfl⟩
  · rw [nandBlkWrite_stops present copy] at done
    cases done

/-- Inside the image a program writes `iolen` bytes at the latch and nothing else. -/
theorem nandBlkWrite_inside (present : s.page < s.chip.pages) (copy : ProgramInBounds s)
    (size : s.bdrv.size = s.chip.imageSize) (inside : SectorsInImage s) :
    nandBlkWrite s = .ok { s with bdrv := s.bdrv.pwrite s.offset s.iolen.toNat s.io } := by
  have sectors := s.chip.imageSectors_eq
  have nonneg := copy.1
  have fits := copy.2.1
  rw [SectorsInImage] at inside
  rw [NandChip.pageSectors_eq] at fits
  rw [sectorSize] at sectors
  have window : s.offset / 512 * 512 + 6 * 512 ≤ s.bdrv.size := by omega
  rw [nandBlkWrite_eq present copy]
  simp only [NandChip.pageSectors_eq, sectorSize, Nat.reduceAdd]
  have read : ∀ i, i < 6 * 512 →
      blit (bdrvRead s.bdrv (s.offset / 512) (fill 0) 6).2 (s.offset % 512) s.io s.iolen.toNat i =
        blit (shift s.bdrv.byte (s.offset / 512 * 512)) (s.offset % 512) s.io s.iolen.toNat i := by
    intro i wanted
    by_cases copied : s.offset % 512 ≤ i ∧ i < s.offset % 512 + s.iolen.toNat
    · rw [blit_inside copied.1 copied.2, blit_inside copied.1 copied.2]
    · rw [blit_outside (by omega), blit_outside (by omega), shift_apply]
      exact bdrvRead_byte (by rw [sectorSize]; exact wanted) (by rw [sectorSize]; omega)
  have part : s.offset % 512 + s.iolen.toNat ≤ 6 * 512 := by omega
  rw [ByteFile.pwrite_congr read, ByteFile.pwrite_modified window part, Nat.div_add_mod']

/-! ## Load -/

/-- What a load offers at `ioaddr` are the bytes of the image from the latch on. -/
theorem nandbLoadPage_io {i : Nat} (present : s.page < s.chip.pages)
    (wanted : s.offset % 0x200 + i < 6 * 0x200) (within : s.offset + i < s.bdrv.size) :
    (nandbLoadPage s).io (s.offset % 0x200 + i) = s.bdrv.byte (s.offset + i) := by
  rw [nandbLoadPage_eq present]
  dsimp only
  rw [bdrvRead_byte]
  · congr 1
    rw [sectorSize]
    omega
  · rw [NandChip.pageSectors_eq, sectorSize]
    exact wanted
  · rw [sectorSize]
    omega

/-! ## Every access -/

/-- A load fills the buffer only. -/
theorem nandbLoadPage_image (s : NandBflash) :
    (nandbLoadPage s).chip = s.chip ∧ (nandbLoadPage s).bdrv = s.bdrv := by
  rcases Nat.lt_or_ge s.page s.chip.pages with present | missing
  · rw [nandbLoadPage_eq present]
    exact ⟨rfl, rfl⟩
  · rw [nandbLoadPage_missing missing]
    exact ⟨rfl, rfl⟩

theorem nandbNextPage_image (s : NandBflash) :
    (nandbLoadPage (nandbNextPage s)).chip = s.chip ∧
      (nandbLoadPage (nandbNextPage s)).bdrv = s.bdrv := by
  have next := nandbLoadPage_image (nandbNextPage s)
  simp only [nandbNextPage_chip, nandbNextPage_bdrv] at next
  exact next

theorem nandbRefill_image (s : NandBflash) :
    (nandbRefill s).chip = s.chip ∧ (nandbRefill s).bdrv = s.bdrv := by
  unfold nandbRefill
  split
  · exact nandbNextPage_image s
  · exact ⟨rfl, rfl⟩

/-- An access leaves the image alone, unless it programs or erases a page that
exists. -/
theorem busStep_bdrv {op : BusOp} {out : Option Byte} (done : busStep s op = .ok (t, out)) :
    t.chip = s.chip ∧
      (t.bdrv = s.bdrv ∨
        op = .command 0x10#16 ∧ s.page < s.chip.pages ∧
          (∃ src, t.bdrv = s.bdrv.pwrite (s.offset / 512 * 512) (6 * 512) src) ∨
        s.page < s.chip.pages ∧
          t.bdrv = s.bdrv.pwrite (s.blockPage * 2112) (64 * 2112) (fill 0xff)) := by
  cases op with
  | command value =>
    obtain ⟨m, command, rfl, -⟩ := of_busStep_command done
    rcases nandbCommand_cases command with
      ⟨rfl, program⟩ | ⟨-, rfl⟩ | ⟨-, rfl⟩ | ⟨-, rfl⟩ | ⟨bdrv, chip, -⟩
    · rcases Nat.lt_or_ge s.page s.chip.pages with present | missing
      · obtain ⟨src, rfl⟩ := nandBlkWrite_extent present program
        exact ⟨rfl, Or.inr (Or.inl ⟨rfl, present, src, rfl⟩)⟩
      · rw [nandBlkWrite_missing missing] at program
        cases program
        exact ⟨rfl, Or.inl rfl⟩
    · obtain ⟨file, addrLow, erased⟩ := nandbBlkErase_frame s
      dsimp only
      refine ⟨by rw [erased], ?_⟩
      rw [nandbBlkErase_bdrv]
      split
      · next present => exact Or.inr (Or.inr ⟨present, rfl⟩)
      · exact Or.inl rfl
    · exact (nandbLoadPage_image s).imp_right Or.inl
    · exact (nandbNextPage_image s).imp_right Or.inl
    · exact ⟨chip, Or.inl bdrv⟩
  | address value =>
    obtain ⟨addrLow, addrHigh, addrCycle, rfl⟩ :=
      nandbWriteAddress_frame (of_busStep_address done).1
    exact ⟨rfl, Or.inl rfl⟩
  | readData8 =>
    obtain ⟨r, k, rfl, -, -, -, -, unread | read⟩ := of_busStep_readData8 done
    · rw [unread]
      exact (nandbRefill_image s).imp_right Or.inl
    · rw [read]
      exact (nandbRefill_image s).imp_right Or.inl
  | writeData8 value =>
    obtain ⟨-, rfl | ⟨-, -, -, rfl⟩⟩ := of_busStep_writeData8 done
    · exact ⟨rfl, Or.inl rfl⟩
    · exact ⟨rfl, Or.inl rfl⟩

end VirtualNoah
