import VirtualNoah.NandSpl

/-!
# From the builder's flash to the next stage

The image at the start of the flash is the loader, padded to 256K, with the next stage behind
it.  The boot ROM leaves the chip as it was, so what it has loaded finds the flash of the
builder, and in it the stage at the offset the image has it at.
-/

namespace VirtualNoah

open ByteStore Fuel Lanes

/-! ## What the boot ROM leaves alone -/

/-- The boot ROM changes nothing on the flash. -/
theorem pavoBootPages_kept {count i : Nat} {pavo : MipsPavo}
    (eightBit : pavo.nand.chip.info.busWidth = 1) (clean : LatchClean pavo.nand)
    (size : pavo.nand.chip.imageSize ≤ pavo.nand.bdrv.size) (small : i + count ≤ 32) :
    ∃ t, pavoBootPages count i pavo = .ok t ∧ t.nand.bdrv = pavo.nand.bdrv ∧
      t.nand.chip = pavo.nand.chip := by
  induction count generalizing i pavo with
  | zero => exact ⟨pavo, rfl, rfl, rfl⟩
  | succ count ih =>
    obtain ⟨nand, read, bdrv, chip, clean'⟩ := pavoNandReadPage_spec eightBit clean size
      (show i < 32 by omega)
    let page := (List.range 0x800).map fun j => dataByte pavo.nand.bdrv (0x800 * i + j)
    let next : MipsPavo := { pavo with
      nand := nand, physRam := blit pavo.physRam (0x800 * i) (listBuf page) 0x800 }
    obtain ⟨t, booted, bdrv', chip'⟩ := @ih (i + 1) next (chip ▸ eightBit) clean'
      (chip ▸ bdrv ▸ size) (by omega)
    refine ⟨t, ?_, bdrv'.trans bdrv, chip'.trans chip⟩
    simp only [pavoBootPages, read]
    exact booted

theorem pavoBootFromNand_kept {pavo : MipsPavo} (eightBit : pavo.nand.chip.info.busWidth = 1)
    (clean : LatchClean pavo.nand) (size : pavo.nand.chip.imageSize ≤ pavo.nand.bdrv.size) :
    ∃ t, pavoBootFromNand pavo = .ok t ∧ t.nand.bdrv = pavo.nand.bdrv ∧
      t.nand.chip = pavo.nand.chip := by
  obtain ⟨t, booted, kept⟩ := @pavoBootPages_kept 4 0 pavo eightBit clean size (by decide)
  have pages : pavoBootPages (0x2000 / 0x800) 0 pavo = .ok t := booted
  refine ⟨{ t with pc := 0x80000004 }, ?_, kept⟩
  rw [pavoBootFromNand, pages]

/-! ## The flash of the builder -/

/-- Calls whose ranges start behind the first `n` pages, and on the flash, write behind them:
their seeks are not refused. -/
theorem foldl_run_after {calls : List PutCall} {n : Nat} {fd : Fd}
    (after : ∀ call ∈ calls, 2048 * n ≤ call.imageStart ∧ call.imageStart < 2 ^ 30) :
    ∀ x, x < 2112 * n → (calls.foldl PutCall.run fd).file.byte x = fd.file.byte x := by
  induction calls generalizing fd with
  | nil => exact fun _ _ => rfl
  | cons call calls ih =>
    intro x before
    obtain ⟨start, chip⟩ := after call List.mem_cons_self
    have seek := @lseek_start fd call.imageStart (by omega) (by omega)
    have place : call.base fd.pos = seekBase fd call.imageStart :=
      congrArg Fd.pos (PutCall.lseek_base.symm.trans seek)
    have fits : SeekFits call.imageStart := by
      rw [SeekFits, firstPage]
      omega
    have behind : 2112 * n ≤ call.base fd.pos := by
      rw [place, seekBase, if_pos fits, firstPage]
      omega
    rw [List.foldl_cons, ← (PutCall.run_behind behind).1 x before]
    exact ih (fun call later => after call (List.mem_cons_of_mem _ later)) x before

/-- A call without OOB data leaves a page unmarked that was unmarked before. -/
theorem oobMark_putToFlash {flash : Fd} {f : ByteFile} {e : Int} {q : Nat} (nonneg : 0 ≤ e)
    (mark : oobMark flash.file q = 0xff) : oobMark (putToFlash flash f 0 e 0).file q = 0xff := by
  have written : putToFlash flash f 0 e 0 = Fd.write ⟨flash.file, 0⟩ (cells 2112 (writtenPage f 0))
      (2112 * pagesWritten f 0 (pageCount 0 e)) :=
    putToFlash_range (Int.le_refl 0) (by decide) nonneg
  rw [written, oobMark, Fd.write_file]
  rcases Nat.lt_or_ge q (pagesWritten f 0 (pageCount 0 e)) with inside | outside
  · have byte := @ByteFile.pwrite_cells_byte flash.file 0 2112 _ _ 2048 (writtenPage f 0) inside
      (by decide)
    rw [Nat.zero_add] at byte
    rw [byte, writtenPage, if_neg fun data => absurd data.1 (by decide)]
    cases q with
    | zero => rfl
    | succ q =>
      rw [stalePage]
      exact if_neg (show ¬ 2048 < unit 0 by decide)
  · have behind : 0 + 2112 * pagesWritten f 0 (pageCount 0 e) ≤ 2112 * q + 2048 := by omega
    rw [ByteFile.pwrite_byte, blit_outside (Or.inr behind)]
    exact mark

/-- The chain of loaders on a flash the builder wrote, from every state of the registers and
of the memory: the boot ROM delivers the first 8K of the image, and what starts there delivers
the 1M behind the first 256K of it, as far as the image and its range go.  The marks of the
groups are those the flash had before, and no later range starts before the last of them. -/
theorem boot_chain_loads (flash : Fd) (f : ByteFile) (e : Int) (later : List PutCall)
    (ram : Buf) (pc : BitVec 32) (emc : Jz4740Emc) (gpio : Jz4740Gpio) (oobBuf stage : Buf)
    (right : flash.file.size = flashBytes) (good : StageGood flash.file) (nonneg : 0 ≤ e)
    (aligned : 2048 ∣ e)
    (after : ∀ call ∈ later, e ≤ call.imageStart ∧ 2048 * 736 ≤ call.imageStart ∧
      call.imageStart < 2 ^ 30) :
    ∃ rom spl, pavoBootFromNand ⟨nandbPowerOn pavoChip
        (later.foldl PutCall.run (putToFlash flash f 0 e 0)).file, ram, pc⟩ = .ok rom ∧
      Settles (fun fuel => splBoot fuel ⟨emc, gpio, rom.nand, oobBuf, stage⟩) (.ok spl) ∧
      (∀ i : Nat, i < f.size → (i : Int) < e → i < 8192 → rom.physRam i = f.byte i) ∧
      ∀ i : Nat, 0x40000 + i < f.size → ((0x40000 + i : Nat) : Int) < e → i < 0x100000 →
        spl.ram i = f.byte (0x40000 + i) := by
  let boot := putToFlash flash f 0 e 0
  let file := (later.foldl PutCall.run boot).file
  have size : pavoChip.imageSize ≤ file.size := by
    rw [show pavoChip.imageSize = flashBytes from rfl, ← right]
    exact Nat.le_trans (@PutCall.size_le_run ⟨f, 0, e, 0⟩ flash) size_le_foldl_run
  have clean : LatchClean (nandbPowerOn pavoChip file) := show (lane 0 1).toNat = 0 by decide
  obtain ⟨rom, booted, loaded⟩ :=
    @pavoBootFromNand_spec ⟨nandbPowerOn pavoChip file, ram, pc⟩ rfl clean size
  obtain ⟨rom', booted', bdrv, chip⟩ :=
    @pavoBootFromNand_kept ⟨nandbPowerOn pavoChip file, ram, pc⟩ rfl clean size
  cases booted.symm.trans booted'
  have marks : StageGood file := by
    intro g first last
    have before : 2112 * (32 * g + badBlockPage) + 2048 < 2112 * 736 := by
      rw [badBlockPage]
      omega
    rw [oobMark, foldl_run_after (n := 736) (fun call mem => (after call mem).2) _ before]
    exact oobMark_putToFlash nonneg (good g first last)
  obtain ⟨spl, ends, -, copied⟩ := splBoot_ok ⟨emc, gpio, rom.nand, oobBuf, stage⟩ chip
    (bdrv ▸ size) (bdrv ▸ marks.enough)
  have starts : ∀ call ∈ later, e ≤ call.imageStart ∧ call.imageStart < 2 ^ 31 :=
    fun call mem => ⟨(after call mem).1, Int.lt_trans (after call mem).2.2 (by decide)⟩
  refine ⟨rom, spl, booted, ⟨_, ends⟩, fun i inside range small => ?_, fun i inside range small => ?_⟩
  · rw [loaded i small]
    exact dataByte_boot_image aligned starts inside range
  · rw [copied i small, show rom.nand.bdrv = file from bdrv, marks.goodByte_eq small]
    exact dataByte_boot_image aligned starts inside range

/-- Loaders and a stage of 300000 bytes together, and a file system behind them. -/
theorem boot_chain_loads_small :
    ∃ rom spl, pavoBootFromNand ⟨nandbPowerOn pavoChip
        ([(⟨.ofBuf 100 (fill 3), 0x400000, 0x1000000, 1⟩ : PutCall)].foldl PutCall.run
          (putToFlash blankFlash (.ofBuf 300000 (fill 7)) 0 0x400000 0)).file, fill 0, 0⟩ =
        .ok rom ∧
      Settles (fun fuel => splBoot fuel
        ⟨jz4740EmcReset, jz4740GpioReset, rom.nand, fill 0, fill 0⟩) (.ok spl) ∧
      (∀ i : Nat, i < 300000 → (i : Int) < 0x400000 → i < 8192 →
        rom.physRam i = (ByteFile.ofBuf 300000 (fill 7)).byte i) ∧
      ∀ i : Nat, 0x40000 + i < 300000 → ((0x40000 + i : Nat) : Int) < 0x400000 → i < 0x100000 →
        spl.ram i = (ByteFile.ofBuf 300000 (fill 7)).byte (0x40000 + i) :=
  boot_chain_loads blankFlash (.ofBuf 300000 (fill 7)) 0x400000 _ (fill 0) 0 jz4740EmcReset
    jz4740GpioReset (fill 0) (fill 0) rfl (stageGood_blank (by decide)) (by decide) (by decide) (by
      simp only [List.mem_singleton, forall_eq]
      decide)

end VirtualNoah
