import VirtualNoah.Builder.FlashSize
import VirtualNoah.Nand.PageArray

/-!
# Booting from the flash

The boot ROM of the emulated board reads the first four pages of the NAND, 2048
of their 2112 bytes each, into the first 8K of RAM.  It drives the NAND model
through the port of the board, with an address encoding of its own, and the
flash it reads was laid out by the builder.  What the two programs share is
`dataByte`, the flash without its OOB areas.
-/

namespace VirtualNoah

open ByteStore Lanes StepRun

/-! ## The port -/

/-- 0x8000, 0x10000 and 0x0 in the window of the port. -/
inductive NandPort where
  | command
  | address
  | data
  deriving DecidableEq

structure MipsPavo where
  nand : NandBflash
  physRam : Buf
  pc : BitVec 32

def pavoNandWrite8 (s : NandBflash) (port : NandPort) (value : BitVec 32) :
    Except Stop NandBflash :=
  match port with
  | .command => nandbWriteCommand s (value.setWidth 16)
  | .address => nandbWriteAddress s (value.setWidth 16)
  | .data => nandbWriteData8 s (value.setWidth 8)

/-- Read from the data address of the port. -/
def pavoNandRead8 (s : NandBflash) : Except Stop (Byte × NandBflash) := nandbReadData8 s

/-! ## The boot ROM -/

/-- Write accesses one after the other. -/
def pavoNandWrites (s : NandBflash) : List (NandPort × BitVec 32) → Except Stop NandBflash
  | [] => .ok s
  | (port, value) :: writes =>
    match pavoNandWrite8 s port value with
    | .error e => .error e
    | .ok s => pavoNandWrites s writes

/-- `for (i = 0; i < count; i++) *p++ = pavo_nand_read8(s, 0)`. -/
def pavoNandReads (s : NandBflash) : Nat → Except Stop (NandBflash × List Byte)
  | 0 => .ok (s, [])
  | count + 1 =>
    match pavoNandRead8 s with
    | .error e => .error e
    | .ok (value, s) =>
      match pavoNandReads s count with
      | .error e => .error e
      | .ok (s, bytes) => .ok (s, value :: bytes)

/-- The accesses that address a page, the parameter being a byte address. -/
def pageAddress (pageAddr : BitVec 16) : List (NandPort × BitVec 32) :=
  let addr : BitVec 32 := pageAddr.setWidth 32
  [(.command, 0x00), (.address, addr &&& 0xff#32), (.address, (addr >>> 8) &&& 0x7#32),
    (.address, (addr >>> 11) &&& 0xff#32), (.address, (addr >>> 19) &&& 0xff#32),
    (.address, (addr >>> 27) &&& 0xff#32), (.command, 0x30)]

def pavoNandReadPage (s : NandBflash) (pageAddr : BitVec 16) :
    Except Stop (NandBflash × List Byte) :=
  match pavoNandWrites s (pageAddress pageAddr) with
  | .error e => .error e
  | .ok s => pavoNandReads s 0x800

/-- The loop of the boot ROM from page `i` on. -/
def pavoBootPages : Nat → Nat → MipsPavo → Except Stop MipsPavo
  | 0, _, s => .ok s
  | count + 1, i, s =>
    match pavoNandReadPage s.nand (BitVec.ofNat 16 (i * 0x800)) with
    | .error e => .error e
    | .ok (nand, page) =>
      pavoBootPages count (i + 1)
        { s with nand := nand, physRam := blit s.physRam (0x800 * i) (listBuf page) 0x800 }

/-- Read the boot loader from NAND into RAM, and start it. -/
def pavoBootFromNand (s : MipsPavo) : Except Stop MipsPavo :=
  match pavoBootPages (0x2000 / 0x800) 0 s with
  | .error e => .error e
  | .ok s => .ok { s with pc := 0x80000004 }

/-! ## The accesses as bus transfers -/

/-- The bus access a write to the port is. -/
def portOp : NandPort × BitVec 32 → BusOp
  | (.command, value) => .command (value.setWidth 16)
  | (.address, value) => .address (value.setWidth 16)
  | (.data, value) => .writeData8 (value.setWidth 8)

section Transfers

variable {s t : NandBflash} {bytes : List Byte}

theorem pavoNandWrite8_of_busStep {port : NandPort} {value : BitVec 32} {out : Option Byte}
    (done : busStep s (portOp (port, value)) = .ok (t, out)) :
    pavoNandWrite8 s port value = .ok t := by
  cases port with
  | command =>
    obtain ⟨m, command, rfl, -⟩ := of_busStep_command done
    simp only [pavoNandWrite8, nandbWriteCommand, command]
  | address => exact (of_busStep_address done).1
  | data =>
    simp only [portOp, busStep] at done
    rw [pavoNandWrite8]
    cases result : nandbWriteData8 s (value.setWidth 8) with
    | error e =>
      rw [result] at done
      cases done
    | ok m =>
      rw [result] at done
      cases done
      rfl

theorem pavoNandWrites_of_transfer {writes : List (NandPort × BitVec 32)}
    (done : transfer s (writes.map portOp) = .ok (t, bytes)) :
    pavoNandWrites s writes = .ok t := by
  obtain ⟨out, completed, -⟩ := of_transfer done
  clear done
  induction writes generalizing s out with
  | nil =>
    cases completed
    rfl
  | cons write writes ih =>
    obtain ⟨port, value⟩ := write
    obtain ⟨m, b, rest, head, tail, -⟩ := of_run_cons completed
    simp only [pavoNandWrites, pavoNandWrite8_of_busStep head]
    exact ih rest tail

theorem pavoNandReads_of_transfer {count : Nat}
    (done : transfer s (List.replicate count .readData8) = .ok (t, bytes)) :
    pavoNandReads s count = .ok (t, bytes) := by
  obtain ⟨out, completed, rfl⟩ := of_transfer done
  clear done
  induction count generalizing s out with
  | zero =>
    cases completed
    rfl
  | succ count ih =>
    obtain ⟨m, b, rest, head, tail, rfl⟩ := of_run_cons completed
    simp only [busStep] at head
    simp only [pavoNandReads, pavoNandRead8]
    cases result : nandbReadData8 s with
    | error e =>
      rw [result] at head
      cases head
    | ok read =>
      obtain ⟨value, u⟩ := read
      rw [result] at head
      cases head
      simp only [ih rest tail]
      rfl

/-- One byte of the address, cut out of the promoted parameter. -/
theorem addressByte_of_mask {addr : BitVec 32} {n shift width : Nat}
    (same : addr.toNat / 2 ^ shift % 2 ^ width = n % 256) {mask : BitVec 32}
    (masked : mask.toNat = 2 ^ width - 1) :
    portOp (.address, (addr >>> shift) &&& mask) = addressByte n := by
  rw [portOp, addressByte]
  congr 1
  apply BitVec.eq_of_toNat_eq
  have value : ((addr >>> shift) &&& mask).toNat = n % 256 := by
    rw [BitVec.toNat_and, masked, Nat.and_two_pow_sub_one_eq_mod, BitVec.toNat_ushiftRight,
      Nat.shiftRight_eq_div_pow, same]
  rw [BitVec.toNat_setWidth, BitVec.toNat_setWidth, value, BitVec.toNat_ofNat]

/-- The board's page address is the five-byte latch of the page and column the byte
address falls into. -/
theorem pageAddress_eq (pageAddr : BitVec 16) :
    (pageAddress pageAddr).map portOp =
      .command 0x00 :: latchBytes (pageAddr.toNat / 2048) (pageAddr.toNat % 2048) ++
        [.command 0x30] := by
  have bound := pageAddr.isLt
  have promoted : (pageAddr.setWidth 32).toNat = pageAddr.toNat := by
    rw [BitVec.toNat_setWidth]
    omega
  have low : portOp (.address, pageAddr.setWidth 32 &&& 0xff#32) =
      addressByte (pageAddr.toNat % 2048) := by
    rw [← BitVec.ushiftRight_zero (pageAddr.setWidth 32)]
    exact @addressByte_of_mask _ _ 0 8 (by omega) 0xff#32 rfl
  simp only [pageAddress, List.map_cons, List.map_nil, latchBytes, List.cons_append,
    List.nil_append, low]
  rw [@addressByte_of_mask (pageAddr.setWidth 32) (pageAddr.toNat % 2048 / 256) 8 3 (by omega) _
      rfl,
    @addressByte_of_mask (pageAddr.setWidth 32) (pageAddr.toNat / 2048) 11 8 (by omega) _ rfl,
    @addressByte_of_mask (pageAddr.setWidth 32) (pageAddr.toNat / 2048 / 256) 19 8 (by omega) _
      rfl,
    @addressByte_of_mask (pageAddr.setWidth 32) (pageAddr.toNat / 2048 / 65536) 27 8 (by omega) _
      rfl]
  rfl

end Transfers

/-! ## The flash without its OOB areas -/

/-- Byte `i` of the data areas of the pages, one after the other. -/
def dataByte (bdrv : ByteFile) : Buf := fun i => bdrv.byte (2112 * (i / 2048) + i % 2048)

section Boot

variable {s : NandBflash} {pavo : MipsPavo}

/-- Reading page `i` delivers its data area. -/
theorem pavoNandReadPage_spec {i : Nat} (eightBit : s.chip.info.busWidth = 1)
    (clean : LatchClean s) (size : s.chip.imageSize ≤ s.bdrv.size) (small : i < 32) :
    ∃ t, pavoNandReadPage s (BitVec.ofNat 16 (i * 0x800)) =
        .ok (t, (List.range 0x800).map fun j => dataByte s.bdrv (0x800 * i + j)) ∧
      t.bdrv = s.bdrv ∧ t.chip = s.chip ∧ LatchClean t := by
  have number : (BitVec.ofNat 16 (i * 0x800)).toNat = i * 0x800 := by
    rw [BitVec.toNat_ofNat]
    omega
  have writes := pageAddress_eq (BitVec.ofNat 16 (i * 0x800))
  rw [number, show i * 0x800 / 2048 = i by omega, show i * 0x800 % 2048 = 0 by omega] at writes
  let x : NandBflash := { s with iolen := 0, cmd := 0x00#16 }
  have command : busStep s (.command 0x00#16) = .ok (x.latch s.addrLow x.addrHigh 0, none) := rfl
  have address := @transfer_latchBytes x i 0 s.addrLow eightBit
  have page : (x.latched i 0).page = i := by
    rw [latched_page (by omega)]
    exact congrArg (i + 2 ^ 24 * ·) clean
  have column : (x.latched i 0).column = 0 := latched_column (by omega)
  have present : (x.latched i 0).page < (x.latched i 0).chip.pages := by
    rw [page]
    rcases s.chip.pages_eq_or with h | h <;> exact Nat.lt_of_lt_of_le small (h ▸ by decide)
  have load := busStep_load (s := x.latched i 0) (Or.inl rfl)
  obtain ⟨t, served, bdrv, chip, -, high⟩ := @transfer_loaded (x.latched i 0) 0x800 _ (Or.inl rfl)
    size present (by rw [column]; exact s.chip.pageOobSize_eq ▸ by decide)
  have addressed := pavoNandWrites_of_transfer (writes ▸ transfer_append
    (transfer_cons command address) (transfer_cons load transfer_nil))
  have bytes : (List.range 0x800).map (fun j => (x.latched i 0).bdrv.byte
      ((x.latched i 0).offset + j)) =
        (List.range 0x800).map fun j => dataByte s.bdrv (0x800 * i + j) := by
    have offset : (x.latched i 0).offset = i * 2112 + 0 := by
      rw [NandBflash.offset, page, column, NandChip.pageOobSize_eq]
    refine List.map_congr_left fun j wanted => ?_
    rw [List.mem_range] at wanted
    rw [offset, dataByte, show (0x800 * i + j) / 2048 = i by omega,
      show (0x800 * i + j) % 2048 = j by omega, Nat.add_zero, Nat.mul_comm]
    rfl
  rw [bytes] at served
  refine ⟨t, ?_, bdrv, chip, by rw [LatchClean, high, latched_lane]; exact clean⟩
  simp only [pavoNandReadPage, addressed, pavoNandReads_of_transfer served]

/-- The pages from `i` on, put next to each other in RAM. -/
theorem pavoBootPages_spec {count i : Nat} (eightBit : pavo.nand.chip.info.busWidth = 1)
    (clean : LatchClean pavo.nand) (size : pavo.nand.chip.imageSize ≤ pavo.nand.bdrv.size)
    (small : i + count ≤ 32) :
    ∃ t, pavoBootPages count i pavo = .ok t ∧
      t.physRam = blit pavo.physRam (0x800 * i) (shift (dataByte pavo.nand.bdrv) (0x800 * i))
        (0x800 * count) := by
  induction count generalizing i pavo with
  | zero => exact ⟨pavo, rfl, blit_zero_len.symm⟩
  | succ count ih =>
    obtain ⟨nand, read, bdrv, chip, clean'⟩ := pavoNandReadPage_spec eightBit clean size
      (show i < 32 by omega)
    let page := (List.range 0x800).map fun j => dataByte pavo.nand.bdrv (0x800 * i + j)
    let next : MipsPavo := { pavo with
      nand := nand, physRam := blit pavo.physRam (0x800 * i) (listBuf page) 0x800 }
    obtain ⟨t, booted, ram⟩ := @ih next (i + 1) (chip ▸ eightBit) clean' (chip ▸ bdrv ▸ size)
      (by omega)
    refine ⟨t, ?_, ?_⟩
    · simp only [pavoBootPages, read]
      exact booted
    · have copied : ∀ j, j < 0x800 * count + 0x800 → (if j < 0x800 then listBuf page j
          else shift (dataByte nand.bdrv) (0x800 * (i + 1)) (j - 0x800)) =
            shift (dataByte pavo.nand.bdrv) (0x800 * i) j := by
        intro j _
        split
        next first => rw [listBuf_map_range first, shift_apply]
        next later =>
          rw [bdrv, shift_apply, shift_apply, Nat.mul_succ, Nat.add_assoc,
            Nat.add_sub_of_le (Nat.le_of_not_lt later)]
      rw [ram, show 0x800 * (i + 1) = 0x800 * i + 0x800 from Nat.mul_succ _ _, blit_blit_append,
        Nat.add_comm 0x800]
      exact blit_congr copied

/-- The boot ROM delivers the first 8K of the data areas. -/
theorem pavoBootFromNand_spec (eightBit : pavo.nand.chip.info.busWidth = 1)
    (clean : LatchClean pavo.nand) (size : pavo.nand.chip.imageSize ≤ pavo.nand.bdrv.size) :
    ∃ t, pavoBootFromNand pavo = .ok t ∧
      ∀ i, i < 8192 → t.physRam i = dataByte pavo.nand.bdrv i := by
  obtain ⟨t, booted, ram⟩ := @pavoBootPages_spec pavo 4 0 eightBit clean size (by omega)
  refine ⟨{ t with pc := 0x80000004 }, ?_, fun i inside => ?_⟩
  · have pages : pavoBootPages (0x2000 / 0x800) 0 pavo = .ok t := booted
    rw [pavoBootFromNand, pages]
  · dsimp only
    rw [ram, blit_inside (by omega) (by omega), shift_apply]
    exact congrArg _ (by omega)

end Boot

/-! ## What later images leave alone -/

namespace PutCall

variable {call : PutCall} {calls : List PutCall} {fd : Fd} {limit : Nat}

/-- A call that starts behind `limit` changes no byte before it. -/
theorem run_behind (behind : limit ≤ call.base fd.pos) :
    (∀ x, x < limit → (call.run fd).file.byte x = fd.file.byte x) ∧ limit ≤ (call.run fd).pos := by
  constructor
  · intro x before
    rw [run_eq]
    exact blit_outside (Or.inl (Nat.lt_of_lt_of_le before behind))
  · rw [run_pos]
    exact Nat.le_trans behind (Nat.le_add_right _ _)

/-- A range that starts behind the first `n` pages is written behind them.  Where its
seek is refused it goes behind the image before it, which is also there. -/
theorem le_base {n : Nat} {e : Int} (nonneg : 0 ≤ e) (pages : (n : Int) ≤ e / 2048)
    (after : e ≤ call.imageStart) (int : call.imageStart < 2 ^ 31)
    (behind : 2112 * n ≤ fd.pos) : 2112 * n ≤ call.base fd.pos := by
  have seek := @lseek_start fd _ (Int.le_trans nonneg after) int
  have place : call.base fd.pos = seekBase fd call.imageStart :=
    congrArg Fd.pos (lseek_base.symm.trans seek)
  rw [place, seekBase, firstPage]
  split <;> omega

theorem foldl_run_behind {n : Nat} {e : Int} (nonneg : 0 ≤ e) (pages : (n : Int) ≤ e / 2048)
    (after : ∀ call ∈ calls, e ≤ call.imageStart ∧ call.imageStart < 2 ^ 31)
    (behind : 2112 * n ≤ fd.pos) :
    ∀ x, x < 2112 * n → (calls.foldl run fd).file.byte x = fd.file.byte x := by
  induction calls generalizing fd with
  | nil => exact fun _ _ => rfl
  | cons call calls ih =>
    intro x before
    obtain ⟨start, int⟩ := after call List.mem_cons_self
    obtain ⟨kept, behind'⟩ := run_behind (le_base nonneg pages start int behind)
    rw [List.foldl_cons, ← kept x before]
    exact ih (fun call later => after call (List.mem_cons_of_mem _ later)) behind' x before

end PutCall

/-! ## The boot image -/

/-- The image at the start of the flash is what the boot ROM finds in the data areas, up to the
end of the image or of its range. -/
theorem dataByte_boot_image {flash : Fd} {f : ByteFile} {e : Int} {later : List PutCall}
    (aligned : 2048 ∣ e) (after : ∀ call ∈ later, e ≤ call.imageStart ∧ call.imageStart < 2 ^ 31)
    {i : Nat} (inside : i < f.size) (range : (i : Int) < e) :
    dataByte (later.foldl PutCall.run (putToFlash flash f 0 e 0)).file i = f.byte i := by
  have nonneg : 0 ≤ e := by omega
  have written : putToFlash flash f 0 e 0 = Fd.write ⟨flash.file, 0⟩ (cells 2112 (writtenPage f 0))
      (2112 * pagesWritten f 0 (pageCount 0 e)) :=
    putToFlash_range (Int.le_refl 0) (by decide) nonneg
  have pages : pagesWritten f 0 (pageCount 0 e) = min (e / 2048).toNat (f.size / 2048 + 1) := by
    rw [pageCount, Int.zero_ediv, Int.sub_zero]
    rfl
  have page : i / 2048 < pagesWritten f 0 (pageCount 0 e) := by omega
  have column : i % 2048 < 2048 := Nat.mod_lt _ (by decide)
  have place : 2048 * (i / 2048) + i % 2048 = i := Nat.div_add_mod i 2048
  rw [written, dataByte, PutCall.foldl_run_behind nonneg (by omega) after
    (Nat.le_add_left _ _) _ (by omega), Fd.write_file]
  have byte := @ByteFile.pwrite_cells_byte flash.file 0 2112 _ _ _ (writtenPage f 0) page
    (Nat.lt_trans column (by decide))
  rw [Nat.zero_add] at byte
  have unit : unit 0 = 2048 := rfl
  rw [byte, writtenPage, unit, if_pos ⟨column, by omega⟩, place]

/-- Booting from a flash the builder wrote: RAM holds the start of the U-boot image,
whatever the flash held before and whatever was written behind the image afterwards. -/
theorem boot_loads_image (flash : Fd) (f : ByteFile) (e : Int) (later : List PutCall) (ram : Buf)
    (pc : BitVec 32) (right : flash.file.size = flashBytes) (aligned : 2048 ∣ e)
    (after : ∀ call ∈ later, e ≤ call.imageStart ∧ call.imageStart < 2 ^ 31) :
    ∃ s, pavoBootFromNand ⟨nandbPowerOn pavoChip
        (later.foldl PutCall.run (putToFlash flash f 0 e 0)).file, ram, pc⟩ = .ok s ∧
      ∀ i : Nat, i < f.size → (i : Int) < e → i < 8192 → s.physRam i = f.byte i := by
  let file := (later.foldl PutCall.run (putToFlash flash f 0 e 0)).file
  have size : flashBytes ≤ file.size := by
    rw [← right]
    exact Nat.le_trans (@PutCall.size_le_run ⟨f, 0, e, 0⟩ flash) size_le_foldl_run
  have image : pavoChip.imageSize = flashBytes := by
    rw [pavoChip.imageSize_eq.1, flashBytes_eq]
    rfl
  have clean : LatchClean (nandbPowerOn pavoChip file) :=
    show (lane 0 1).toNat = 0 by decide
  obtain ⟨s, booted, loaded⟩ := @pavoBootFromNand_spec ⟨nandbPowerOn pavoChip file, ram, pc⟩ rfl
    clean (Nat.le_trans (Nat.le_of_eq image) size)
  refine ⟨s, booted, fun i inside range small => ?_⟩
  rw [loaded i small]
  exact dataByte_boot_image aligned after inside range

/-- A boot loader of 5000 bytes, and a file system behind it. -/
theorem boot_loads_small_image :
    ∃ s, pavoBootFromNand ⟨nandbPowerOn pavoChip ([(⟨.ofBuf 100 (fill 3), 8192, 0x40000000, 1⟩ :
        PutCall)].foldl PutCall.run (putToFlash blankFlash (.ofBuf 5000 (fill 7)) 0 8192 0)).file,
        fill 0, 0⟩ = .ok s ∧
      ∀ i : Nat, i < 5000 → (i : Int) < 8192 → i < 8192 →
        s.physRam i = (ByteFile.ofBuf 5000 (fill 7)).byte i :=
  boot_loads_image blankFlash (.ofBuf 5000 (fill 7)) 8192 _ (fill 0) 0 rfl (by decide) (by
    simp only [List.mem_singleton, forall_eq]
    decide)

end VirtualNoah
