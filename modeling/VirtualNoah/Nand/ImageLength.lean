import VirtualNoah.Nand.Bounds
import VirtualNoah.Nand.Image

/-!
# The length of the image

A program rewrites six sectors from the one its latch points into, and a sector
write past the end of the file extends it.  The short read before it answers
`-EINVAL`, which the test against `-1` lets through.  So near the end of the
chip a program makes the image longer, and `nandb_init` refuses it ever after.
-/

namespace VirtualNoah

open ByteStore StepRun

/-- A program of a page that exists rewrites sectors of the image only. -/
def ProgramInImage (s : NandBflash) (op : BusOp) : Prop :=
  op = .command 0x10#16 → s.page < s.chip.pages → SectorsInImage s

section Step

variable {chip : NandChip} {s t : NandBflash} {op : BusOp} {out : Option Byte}

/-- The block an erase fills lies inside the image. -/
theorem block_in_image (present : s.page < s.chip.pages) :
    s.blockPage * 2112 + 64 * 2112 ≤ s.chip.imageSize := by
  have block := blockPage_lt present
  have size := s.chip.imageSize_eq.1
  omega

theorem image_length_keep (right : s.chip = chip ∧ s.bdrv.size = chip.imageSize)
    (inside : ProgramInImage s op) (done : busStep s op = .ok (t, out)) :
    t.chip = chip ∧ t.bdrv.size = chip.imageSize := by
  obtain ⟨rfl, size⟩ := right
  obtain ⟨same, untouched | ⟨program, present, src, written⟩ | ⟨present, erased⟩⟩ :=
    busStep_bdrv done
  · exact ⟨same, untouched ▸ size⟩
  · have sectors := inside program present
    have whole := s.chip.imageSectors_eq
    rw [SectorsInImage] at sectors
    rw [sectorSize] at whole
    refine ⟨same, ?_⟩
    rw [written, ByteFile.pwrite_size_of_le (by omega), size]
  · have block := block_in_image present
    refine ⟨same, ?_⟩
    rw [erased, ByteFile.pwrite_size_of_le (by omega), size]

theorem image_length_leave (right : s.chip = chip ∧ s.bdrv.size = chip.imageSize)
    (outside : ¬ ProgramInImage s op) (done : busStep s op = .ok (t, out)) :
    t.chip = chip ∧ chip.imageSize < t.bdrv.size := by
  obtain ⟨rfl, size⟩ := right
  simp only [ProgramInImage, SectorsInImage, not_forall, Nat.not_le] at outside
  obtain ⟨rfl, present, past⟩ := outside
  have whole := s.chip.imageSectors_eq
  rw [sectorSize] at whole
  obtain ⟨m, command, rfl, -⟩ := of_busStep_command done
  obtain ⟨src, rfl⟩ := nandBlkWrite_extent present command
  refine ⟨rfl, ?_⟩
  dsimp only
  rw [ByteFile.pwrite_size_of_pos (by omega)]
  omega

theorem image_length_stay (long : s.chip = chip ∧ chip.imageSize < s.bdrv.size)
    (done : busStep s op = .ok (t, out)) : t.chip = chip ∧ chip.imageSize < t.bdrv.size := by
  obtain ⟨rfl, size⟩ := long
  obtain ⟨same, untouched | ⟨-, -, src, written⟩ | ⟨-, erased⟩⟩ := busStep_bdrv done
  · exact ⟨same, untouched ▸ size⟩
  · exact ⟨same, written ▸ Nat.lt_of_lt_of_le size ByteFile.size_le_pwrite⟩
  · exact ⟨same, erased ▸ Nat.lt_of_lt_of_le size ByteFile.size_le_pwrite⟩

end Step

/-- `nandb_init` accepts a file for the chip exactly when its length is right. -/
theorem nandbInit_eq_ok_iff (chip : NandChip) (bdrv : ByteFile) :
    (∃ s, nandbInit chip.info.manfId chip.info.chipId (some bdrv) = .ok s) ↔
      bdrv.size = chip.imageSize := by
  have found : findChip chip.info.manfId chip.info.chipId = some chip := by
    rcases chip with ⟨info, listed⟩
    rcases NandChip.eq_or ⟨info, listed⟩ with h | h <;> (dsimp only at h; subst h; rfl)
  simp only [nandbInit, found, bdrvGetlength]
  by_cases right : bdrv.size = chip.imageSize
  · simp [right]
  · simp [right]

/-- No access exchanges the chip. -/
theorem run_chip {s t : NandBflash} {ops : List BusOp} {outs : List (Option Byte)}
    (completed : busRun s ops = .ok (t, outs)) : t.chip = s.chip :=
  run_invariant (fun t => t.chip = s.chip)
    (fun same _ done => (busStep_bdrv done).1.trans same) rfl
    (Along.of_forall fun _ _ => trivial) completed

/-- Starting from an image of the right length, a completed run leaves the right
length, and with it an image the next `nandb_init` accepts, exactly when every
program of a page that exists stayed inside the image. -/
theorem image_length_kept_iff (chip : NandChip) (bdrv : ByteFile) (ops : List BusOp)
    (s : NandBflash) (outs : List (Option Byte)) (right : bdrv.size = chip.imageSize)
    (completed : busRun (nandbPowerOn chip bdrv) ops = .ok (s, outs)) :
    (bdrvGetlength s.bdrv = chip.pages * chip.pageOobSize ∧
        ∃ t, nandbInit chip.info.manfId chip.info.chipId (some s.bdrv) = .ok t) ↔
      Along busStep ProgramInImage (nandbPowerOn chip bdrv) ops := by
  have run := run_iff_along (fun s => s.chip = chip ∧ s.bdrv.size = chip.imageSize)
    (fun s => s.chip = chip ∧ chip.imageSize < s.bdrv.size)
    image_length_keep image_length_leave image_length_stay
    (fun good bad => Nat.lt_irrefl _ (good.2 ▸ bad.2)) ⟨rfl, right⟩ completed
  rw [← run, nandbInit_eq_ok_iff, bdrvGetlength]
  exact ⟨fun kept => ⟨run_chip completed, kept.2⟩, fun kept => ⟨kept.2, kept.2⟩⟩

/-- One byte programmed at the start of page 0. -/
def programFirstPage : List BusOp :=
  .command 0x80 :: addressBytes 0 0 0 0 0 ++ [.writeData8 0x5a, .command 0x10]

theorem image_length_kept_first_page :
    ∃ s outs, busRun (nandbPowerOn pavoChip (blankImage pavoChip)) programFirstPage =
        .ok (s, outs) ∧
      bdrvGetlength s.bdrv = pavoChip.pages * pavoChip.pageOobSize ∧
      ∃ t, nandbInit 0xec 0xd3 (some s.bdrv) = .ok t := by
  have completes : ∃ s outs, busRun (nandbPowerOn pavoChip (blankImage pavoChip))
      programFirstPage = .ok (s, outs) := ⟨_, _, rfl⟩
  obtain ⟨s, outs, completed⟩ := completes
  refine ⟨s, outs, completed, (image_length_kept_iff pavoChip _ _ s outs rfl completed).mpr ?_⟩
  have only : ∀ s op, op ≠ .command 0x10#16 → ProgramInImage s op := fun _ _ other program =>
    absurd program other
  simp only [programFirstPage, addressBytes, List.cons_append, List.nil_append]
  iterate 7 refine .cons (only _ _ (by decide)) rfl ?_
  refine .cons (fun _ _ => ?_) rfl ?_
  · simp only [SectorsInImage]
    decide
  · trivial

/-- One byte programmed at the start of the last page of the chip. -/
def programLastPage : List BusOp :=
  .command 0x80 :: addressBytes 0 0 0xff 0xff 0x07 ++ [.writeData8 0x5a, .command 0x10]

/-- Page 0x7ffff is a page of the chip, but its six sectors end one sector past
the image, and the image is refused from then on. -/
theorem image_length_lost_last_page :
    ∃ s outs, busRun (nandbPowerOn pavoChip (blankImage pavoChip)) programLastPage =
        .ok (s, outs) ∧
      s.page < pavoChip.pages ∧ bdrvGetlength s.bdrv = pavoChip.imageSize + 0x200 ∧
      nandbInit 0xec 0xd3 (some s.bdrv) = .error .exit := by
  exact ⟨_, _, rfl, by decide, by decide, rfl⟩

end VirtualNoah
