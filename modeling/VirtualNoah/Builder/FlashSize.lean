import VirtualNoah.Builder.Config
import VirtualNoah.Nand.ImageLength

/-!
# Does the emulator accept what the builder leaves?

`nandb_init` demands a file of exactly 0x80000 pages.  `valid_conf` looks only at
the alignment of the ranges, so the file can grow: a range may reach past the
chip, or start where the seek fails and the pages go to wherever the image
before them ended.  `LayoutFits` follows the offsets of the calls and says
exactly which configurations are safe.
-/

namespace VirtualNoah

open ByteStore

/-! ## One call -/

namespace PutCall

/-- The offset a call starts to write at; a refused seek leaves the old one. -/
def base (pos : Nat) (call : PutCall) : Nat :=
  let off := toInt32 (call.imageStart.tdiv pavoNandPageSize *
    (pavoNandPageSize + pavoNandOobSize : Nat))
  if off < 0 then pos else off.toNat

/-- The offset a call ends at. -/
def nextPos (pos : Nat) (call : PutCall) : Nat := call.base pos + 2112 * call.written

/-- A call writes nothing, or ends inside the flash. -/
def Fits (pos : Nat) (call : PutCall) : Prop :=
  call.written = 0 ∨ call.nextPos pos ≤ flashBytes

variable {call : PutCall} {fd : Fd}

theorem lseek_base : fd.lseek (toInt32 (call.imageStart.tdiv 2048 * 2112)) =
    ⟨fd.file, call.base fd.pos⟩ := by
  rw [Fd.lseek]
  split
  next refused => exact congrArg (Fd.mk fd.file) (if_pos refused).symm
  next moved => exact congrArg (Fd.mk fd.file) (if_neg moved).symm

theorem run_eq : call.run fd =
    Fd.write ⟨fd.file, call.base fd.pos⟩ (cells 2112 (writtenPage call.image call.withOob))
      (2112 * call.written) := by
  rw [run, putToFlash_eq, lseek_base]
  rfl

theorem run_pos : (call.run fd).pos = call.nextPos fd.pos := by
  rw [run_eq]
  rfl

/-- No call makes the file shorter. -/
theorem size_le_run : fd.file.size ≤ (call.run fd).file.size := by
  rw [run_eq]
  exact ByteFile.size_le_pwrite

/-- A call keeps the length of a right-sized file exactly when it fits. -/
theorem run_size_iff (right : fd.file.size = flashBytes) :
    (call.run fd).file.size = flashBytes ↔ call.Fits fd.pos := by
  rw [run_eq, Fd.write_file, Fits, nextPos]
  dsimp only
  rcases Nat.eq_zero_or_pos call.written with none | some
  · rw [none, Nat.mul_zero, ByteFile.pwrite_zero_len]
    exact iff_of_true right (Or.inl rfl)
  · rw [ByteFile.pwrite_size_of_pos (by omega), right]
    omega

end PutCall

/-! ## A whole configuration -/

/-- Every call fits at the offset the calls before it leave. -/
def LayoutFits : Nat → List PutCall → Prop
  | _, [] => True
  | pos, call :: calls => call.Fits pos ∧ LayoutFits (call.nextPos pos) calls

theorem size_le_foldl_run {calls : List PutCall} {fd : Fd} :
    fd.file.size ≤ (calls.foldl PutCall.run fd).file.size := by
  induction calls generalizing fd with
  | nil => exact Nat.le_refl _
  | cons call calls ih => exact Nat.le_trans PutCall.size_le_run ih

theorem foldl_run_size_iff {calls : List PutCall} {fd : Fd} (right : fd.file.size = flashBytes) :
    (calls.foldl PutCall.run fd).file.size = flashBytes ↔ LayoutFits fd.pos calls := by
  induction calls generalizing fd with
  | nil => exact iff_of_true right trivial
  | cons call calls ih =>
    rw [List.foldl_cons, LayoutFits, ← PutCall.run_pos, ← PutCall.run_size_iff right]
    constructor
    · intro whole
      have kept : (call.run fd).file.size = flashBytes :=
        Nat.le_antisymm (whole ▸ size_le_foldl_run) (right ▸ PutCall.size_le_run)
      exact ⟨kept, (ih kept).mp whole⟩
    · rintro ⟨kept, rest⟩
      exact (ih kept).mpr rest

/-- Over every accepted command line, the builder leaves a file the emulator's size
check accepts exactly when the configured calls, one after the other, fit. -/
theorem builder_image_accepted_iff (args : List String) (files : Files) (flash : Option ByteFile)
    (file : ByteFile) (right : ∀ old, flash = some old → old.size = flashBytes)
    (built : builderMain args files flash = .ok file) :
    (file.size = pavoNandPages * 2112 ∧ ∃ s, nandbInit 0xec 0xd3 (some file) = .ok s) ↔
      LayoutFits (if flash.isSome then 0 else flashBytes)
        (configuredCalls (readConfigure args) files) := by
  obtain ⟨size, pos⟩ := createPavoNandflash_spec flash right
  rw [builderMain_eq] at built
  split at built
  · cases built
  · cases built
    have accepted := nandbInit_eq_ok_iff pavoChip
      ((configuredCalls (readConfigure args) files).foldl PutCall.run
        (createPavoNandflash flash)).file
    rw [← pos, ← foldl_run_size_iff size]
    exact ⟨fun both => both.1, fun whole => ⟨whole, accepted.mpr whole⟩⟩

/-- U-Boot in the first two pages of an existing flash. -/
theorem builder_image_accepted_boot :
    ∃ file, builderMain ["--NAND_Flash", "flash", "--U_boot", "boot", "0", "0x1000", "0"]
        (fun _ => some (.ofBuf 5000 (fill 0))) (some blankFlash.file) = .ok file ∧
      file.size = pavoNandPages * 2112 ∧ ∃ s, nandbInit 0xec 0xd3 (some file) = .ok s := by
  have builds : ∃ file, builderMain
      ["--NAND_Flash", "flash", "--U_boot", "boot", "0", "0x1000", "0"]
      (fun _ => some (.ofBuf 5000 (fill 0))) (some blankFlash.file) = .ok file := ⟨_, rfl⟩
  obtain ⟨file, built⟩ := builds
  refine ⟨file, built, (builder_image_accepted_iff _ _ _ file ?_ built).mpr ?_⟩
  · rintro old ⟨⟩
    rfl
  · exact ⟨Or.inr (by decide), trivial⟩

/-- An image in the first page past the chip: aligned, so accepted, and the file
grows by a page. -/
theorem builder_image_refused :
    ∃ file, builderMain
        ["--NAND_Flash", "flash", "--U_boot", "boot", "0x40000000", "0x40000800", "0"]
        (fun _ => some (.ofBuf 5000 (fill 0))) (some blankFlash.file) = .ok file ∧
      file.size = pavoNandPages * 2112 + 2112 ∧
      nandbInit 0xec 0xd3 (some file) = .error .exit := by
  exact ⟨_, rfl, by decide, by rfl⟩

end VirtualNoah
