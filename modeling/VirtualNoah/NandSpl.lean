import Mathlib
import VirtualNoah.Boot
import VirtualNoah.Lib.Fuel
import VirtualNoah.Soc.EccHandshake
import VirtualNoah.Soc.Gpio

/-!
# The secondary program loader

What the boot ROM has put into RAM is the loader of `nand_spl`.  It asks the NAND chip for
its geometry, and copies the next stage out of the chip page by page, with the ready line of
the GPIO and the Reed-Solomon registers of the memory controller at every page.  A group of
pages is skipped where its mark says that it is bad.
-/

namespace VirtualNoah

open ByteStore Fuel Lanes Outcome StepRun

/-! ## The machine under the loader -/

/-- How the loader ends without handing over. -/
inductive SplStop where
  | soc (fault : Fault)
  | nand (stop : Stop)

/-- What the loader works on: its buffer, and the memory it copies to. -/
structure Spl where
  emc : Jz4740Emc
  gpio : Jz4740Gpio
  nand : NandBflash
  oobBuf : Buf
  ram : Buf

def onSoc {α : Type} (x : Except Fault α) : Except SplStop α := x.mapError .soc

def onNand {α : Type} (x : Except Stop α) : Except SplStop α := x.mapError .nand

namespace Spl

/-- `REG_EMC_NFCSR |= ...` and `&= ...`. -/
def nfcsrModify (f : BitVec 32 → BitVec 32) (s : Spl) : Except SplStop Spl := do
  let v ← onSoc (jz4740EmcRead32 s.emc 0x50)
  let emc ← onSoc (jz4740EmcWrite32 s.emc 0x50 (f v))
  .ok { s with emc := emc }

def nandEnable : Spl → Except SplStop Spl := nfcsrModify (· ||| 0x1#32 ||| 0x2#32)

def nandDisable : Spl → Except SplStop Spl := nfcsrModify (· &&& ~~~0x2#32)

/-- Commands and addresses through the ports of the board. -/
def writes (s : Spl) (accesses : List (NandPort × BitVec 32)) : Except SplStop Spl := do
  let nand ← onNand (pavoNandWrites s.nand accesses)
  .ok { s with nand := nand }

/-- `nand_read_buf8` -/
def reads (s : Spl) (count : Nat) : Except SplStop (Spl × List Byte) := do
  let (nand, bytes) ← onNand (pavoNandReads s.nand count)
  .ok ({ s with nand := nand }, bytes)

end Spl

/-- `REG_GPIO_PXPIN(2) & 0x40000000` -/
def readyPin (s : Jz4740Gpio) : Except Fault (Jz4740Gpio × Bool) :=
  (jz4740GpioRead s 0x200).map fun (s, v) => (s, v &&& 0x40000000#32 ≠ 0#32)

/-- `while (pin && timeout--)` -/
def waitBusy : Nat → Jz4740Gpio → Except Fault Jz4740Gpio
  | 0, s => (readyPin s).map Prod.fst
  | timeout + 1, s => do
    let (s, high) ← readyPin s
    if high then waitBusy timeout s else .ok s

/-- `while (!pin)` -/
def waitReady : Nat → Jz4740Gpio → Except Fault Jz4740Gpio
  | 0, _ => .error .spin
  | fuel + 1, s => do
    let (s, high) ← readyPin s
    if high then .ok s else waitReady fuel s

/-- `__nand_sync` and `__nand_dev_ready`, which differ in their timeouts. -/
def Spl.sync (timeout fuel : Nat) (s : Spl) : Except SplStop Spl := do
  let gpio ← onSoc (waitBusy timeout s.gpio)
  let gpio ← onSoc (waitReady fuel gpio)
  .ok { s with gpio := gpio }

/-! ## The geometry -/

/-- `nand_query_4740` -/
def nandQuery4740 (fuel : Nat) (s : Spl) : Except SplStop (Spl × Buf) := do
  let s ← s.nandEnable
  let s ← s.writes [(.command, 0xff)]
  let s ← s.sync 100000 fuel
  let s ← s.writes [(.command, 0x90), (.address, 0)]
  let (s, id) ← s.reads 5
  let s ← s.nandDisable
  .ok (s, listBuf id)

structure NandGeometry where
  pageSize : Nat
  oobSize : Nat
  eccCount : Nat
  pagePerBlock : Nat
  badBlockPos : Nat
  deriving DecidableEq

/-- What `spl_boot` makes of the ids; a page of 512 bytes does not come out of it. -/
def nandGeometry (id : Buf) : NandGeometry :=
  let pageSize := 1024 <<< (id 3 &&& 0x3).toNat
  let blockSize := (64 * 1024) <<< (id 4 &&& 0x3).toNat
  { pageSize := pageSize
    oobSize := pageSize / 32
    eccCount := pageSize / 512
    pagePerBlock := blockSize / pageSize
    badBlockPos := if pageSize = 512 then 5 else 0 }

/-! ## Reading a page -/

/-- READ0, two column and three page bytes, and READSTART. -/
def readAccesses (column page : BitVec 32) : List (NandPort × BitVec 32) :=
  [(.command, 0x00), (.address, column &&& 0xff#32), (.address, (column >>> 8) &&& 0xff#32),
    (.address, page &&& 0xff#32), (.address, (page >>> 8) &&& 0xff#32),
    (.address, (page >>> 16) &&& 0xff#32), (.command, 0x30)]

/-- `nand_read_oob` -/
def nandReadOob (fuel : Nat) (g : NandGeometry) (page : Nat) (s : Spl) : Except SplStop Spl := do
  let s ← s.writes (readAccesses (BitVec.ofNat 32 g.pageSize) (BitVec.ofNat 32 page))
  let s ← s.sync 10000 fuel
  let (s, oob) ← s.reads g.oobSize
  .ok { s with oobBuf := blit s.oobBuf 0 (listBuf oob) g.oobSize }

/-- `CFG_NAND_ECC_POS` -/
def eccPos : Nat := 28

/-- The ECC registers for 512 bytes that have been read: parity, PRDY, the wait for the
decoder, and the correction of what it reports. -/
def rsDecode (fuel : Nat) (dat par : Buf) (s : Jz4740Emc) : Except Fault (Jz4740Emc × Buf) := do
  let s ← setParValues par s
  let s ← nfecrModify (· ||| 0x10#32) s
  nandEccSync 0x8#32 s fuel
  let s ← nandEccDisable s
  -- as in the driver, but nothing is returned
  let (_, dat) ← rsCheckDecoding dat s
  .ok (s, dat)

/-- The loop body of `nand_read_page`. -/
def readEccBlock (fuel dst : Nat) (s : Spl) (i : Nat) : Except SplStop Spl := do
  let emc ← onSoc (jz4740EmcWrite32 s.emc 0x114 0x0)
  let emc ← onSoc (jz4740EmcWrite32 emc 0x100 (0x1#32 ||| 0x2#32 ||| 0x4#32))
  let (s, dat) ← s.reads 512
  let (emc, dat) ← onSoc (rsDecode fuel (listBuf dat) (shift s.oobBuf (eccPos + i * 9)) emc)
  .ok { s with emc := emc, ram := blit s.ram (dst + 512 * i) dat 512 }

/-- `nand_read_page` -/
def nandReadPageSpl (fuel : Nat) (g : NandGeometry) (page dst : Nat) (s : Spl) :
    Except SplStop Spl := do
  let s ← nandReadOob fuel g page s
  let s ← s.writes (readAccesses 0 (BitVec.ofNat 32 page))
  let s ← s.sync 10000 fuel
  (List.range g.eccCount).foldlM (readEccBlock fuel dst) s

/-! ## Loading -/

/-- `CFG_NAND_BADBLOCK_PAGE` -/
def badBlockPage : Nat := 127

/-- The loop of `nand_load`; `dst` moves on with the pages that are copied. -/
def nandLoadLoop (wait : Nat) (g : NandGeometry) (count : Nat) :
    Nat → Spl → Nat → Nat → Except SplStop Spl
  | 0, _, _, _ => .error (.soc .spin)
  | fuel + 1, s, page, copied =>
    if copied < count then do
      let s ← if page % g.pagePerBlock = 0 then nandReadOob wait g (page + badBlockPage) s
        else .ok s
      if page % g.pagePerBlock = 0 ∧ s.oobBuf g.badBlockPos ≠ 0xff then
        nandLoadLoop wait g count fuel s (page + g.pagePerBlock) copied
      else do
        let s ← nandReadPageSpl wait g page (g.pageSize * copied) s
        nandLoadLoop wait g count fuel s (page + 1) (copied + 1)
    else .ok s

/-- `nand_load` -/
def nandLoad (fuel : Nat) (g : NandGeometry) (offs size : Nat) (s : Spl) : Except SplStop Spl := do
  let s ← s.nandEnable
  let s ← nandLoadLoop fuel g (size / g.pageSize) fuel s (offs / g.pageSize) 0
  s.nandDisable

/-- `CFG_NAND_U_BOOT_OFFS` and `CFG_NAND_U_BOOT_SIZE` -/
def uBootOffs : Nat := 256 <<< 10

def uBootSize : Nat := 512 <<< 11

/-- `spl_boot` from the query of the chip to the jump. -/
def splBoot (fuel : Nat) (s : Spl) : Except SplStop Spl := do
  let (s, id) ← nandQuery4740 fuel s
  nandLoad fuel (nandGeometry id) uBootOffs uBootSize s

/-! ## The registers -/

section Registers

variable {s : Spl} {α β : Type}

theorem onSoc_ok {x : Except Fault α} {a : α} (done : x = .ok a) : onSoc x = .ok a := by
  rw [done]
  rfl

theorem onNand_ok {x : Except Stop α} {a : α} (done : x = .ok a) : onNand x = .ok a := by
  rw [done]
  rfl

theorem nfcsrModify_ok (f : BitVec 32 → BitVec 32) (s : Spl) :
    ∃ emc, s.nfcsrModify f = .ok { s with emc := emc } :=
  ⟨_, rfl⟩

/-- The ports are counted from 0. -/
theorem gpioPorts : NeZero 4 := ⟨by decide⟩

attribute [local instance] gpioPorts

/-- What the ready line has read as last. -/
def readyLine (s : Jz4740Gpio) : Bool := s.reg .papin 2 &&& 0x40000000#32 ≠ 0#32

/-- Every read turns the line over. -/
theorem readyPin_eq (s : Jz4740Gpio) :
    ∃ t, readyPin s = .ok (t, !readyLine s) ∧ readyLine t = !readyLine s := by
  let pin := s.reg .papin 2 &&& 0x40000000#32
  let turned := if pin ≠ 0#32 then pin &&& ~~~0x40000000#32 else pin ||| 0x40000000#32
  have read : (s.set .papin 2 turned).reg .papin 2 = turned := by
    simp only [Jz4740Gpio.set, Function.update_self]
  have line : decide (turned &&& 0x40000000#32 ≠ 0#32) = !readyLine s := by
    have high : readyLine s = decide (pin ≠ 0#32) := rfl
    rw [high]
    by_cases low : pin = 0#32
    · simp only [turned, low]
      decide
    · have off : turned &&& 0x40000000#32 = 0#32 := by
        simp only [turned, if_pos low]
        rw [BitVec.and_assoc]
        exact BitVec.and_zero
      rw [off, decide_eq_true low]
      rfl
  refine ⟨s.set .papin 2 turned, ?_, ?_⟩
  · rw [← line, ← read]
    rfl
  · rw [← line, readyLine, read]

/-- A wait of two reads or more ends with the line low, wherever it starts. -/
theorem waitBusy_ok (timeout : Nat) (s : Jz4740Gpio) :
    ∃ t, waitBusy (timeout + 1) s = .ok t ∧ readyLine t = false := by
  obtain ⟨t, read, line⟩ := readyPin_eq s
  cases high : readyLine s with
  | true =>
    rw [high] at read line
    exact ⟨t, by rw [waitBusy, bind_ok read]; rfl, line⟩
  | false =>
    rw [high] at read line
    obtain ⟨u, again, low⟩ := readyPin_eq t
    rw [line] at again low
    refine ⟨u, ?_, low⟩
    rw [waitBusy, bind_ok read]
    cases timeout with
    | zero =>
      change (readyPin t).map Prod.fst = _
      rw [again]
      rfl
    | succ timeout =>
      change (readyPin t >>= _) = _
      rw [bind_ok again]
      rfl

theorem waitReady_ok {s : Jz4740Gpio} (low : readyLine s = false) :
    ∃ t, ∀ fuel, waitReady (fuel + 1) s = .ok t := by
  obtain ⟨t, read, -⟩ := readyPin_eq s
  rw [low] at read
  exact ⟨t, fun fuel => by rw [waitReady, bind_ok read]; rfl⟩

/-- The loader never waits for longer than the line takes to turn over twice. -/
theorem sync_ok (timeout : Nat) (s : Spl) :
    ∃ gpio, ∀ fuel, s.sync (timeout + 1) (fuel + 1) = .ok { s with gpio := gpio } := by
  obtain ⟨busy, waited, low⟩ := waitBusy_ok timeout s.gpio
  obtain ⟨gpio, ready⟩ := waitReady_ok low
  refine ⟨gpio, fun fuel => ?_⟩
  rw [Spl.sync, bind_ok (onSoc_ok waited), bind_ok (onSoc_ok (ready fuel))]

end Registers

/-! ## The chip -/

/-- What every access of the loader leaves as it is, once the chip has been reset. -/
structure FlashReady (bdrv : ByteFile) (s : NandBflash) : Prop where
  bdrv : s.bdrv = bdrv
  chip : s.chip = pavoChip
  clean : LatchClean s

/-- From `place` of the image on, the next `left` bytes can be read. -/
def Offers (bdrv : ByteFile) (s : NandBflash) (place left : Nat) : Prop :=
  ∃ k, s.ioaddr = some k ∧ s.cmd ≠ 0x70#16 ∧ (left : Int) ≤ s.iolen ∧ k + left ≤ ioSize ∧
    ∀ i, i < left → s.io (k + i) = bdrv.byte (place + i)

theorem writes_ok {s : Spl} {accesses : List (NandPort × BitVec 32)} {nand : NandBflash}
    (done : pavoNandWrites s.nand accesses = .ok nand) :
    s.writes accesses = .ok { s with nand := nand } := by
  rw [Spl.writes, bind_ok (onNand_ok done)]

theorem reads_ok {s : Spl} {n : Nat} {nand : NandBflash} {bytes : List Byte}
    (done : pavoNandReads s.nand n = .ok (nand, bytes)) :
    s.reads n = .ok ({ s with nand := nand }, bytes) := by
  rw [Spl.reads, bind_ok (onNand_ok done)]

section Chip

variable {bdrv : ByteFile} {s : Spl} {p c place n left : Nat}

theorem reads_offers (ready : FlashReady bdrv s.nand)
    (offers : Offers bdrv s.nand place (n + left)) :
    ∃ nand, s.reads n = .ok ({ s with nand := nand },
        (List.range n).map fun i => bdrv.byte (place + i)) ∧
      FlashReady bdrv nand ∧ Offers bdrv nand (place + n) left := by
  obtain ⟨k, ioaddr, data, iolen, inside, bytes⟩ := offers
  have served := pavoNandReads_of_transfer
    (transfer_readData ioaddr data (n := n) (by omega) (by omega))
  have same : (List.range n).map (fun i => s.nand.io (k + i)) =
      (List.range n).map fun i => bdrv.byte (place + i) := by
    refine List.map_congr_left fun i wanted => ?_
    rw [List.mem_range] at wanted
    exact bytes i (by omega)
  rw [same] at served
  refine ⟨_, reads_ok served, ⟨ready.bdrv, ready.chip, ready.clean⟩, k + n, rfl, data, ?_,
    by omega, fun i later => ?_⟩
  · dsimp only
    omega
  · dsimp only
    rw [Nat.add_assoc, bytes (n + i) (by omega), Nat.add_assoc]

/-- The column and the page go into the latch as five bytes. -/
theorem readAccesses_eq (column : c < 2 ^ 32) (page : p < 2 ^ 32) :
    (readAccesses (BitVec.ofNat 32 c) (BitVec.ofNat 32 p)).map portOp =
      .command 0x00 :: latchBytes p c ++ [.command 0x30] := by
  have c' : (BitVec.ofNat 32 c).toNat = c := Nat.mod_eq_of_lt column
  have p' : (BitVec.ofNat 32 p).toNat = p := Nat.mod_eq_of_lt page
  have low : ∀ {x : BitVec 32} {m : Nat}, x.toNat = m →
      portOp (.address, x &&& 0xff#32) = addressByte m := by
    intro x m same
    rw [← BitVec.ushiftRight_zero x]
    exact @addressByte_of_mask _ _ 0 8 (by omega) 0xff#32 rfl
  simp only [readAccesses, List.map_cons, List.map_nil, latchBytes, List.cons_append,
    List.nil_append, low c', low p']
  rw [@addressByte_of_mask (BitVec.ofNat 32 c) (c / 256) 8 8 (by omega) _ rfl,
    @addressByte_of_mask (BitVec.ofNat 32 p) (p / 256) 8 8 (by omega) _ rfl,
    @addressByte_of_mask (BitVec.ofNat 32 p) (p / 65536) 16 8 (by omega) _ rfl]
  rfl

/-- Addressing a page offers the rest of it. -/
theorem writes_readAccesses (ready : FlashReady bdrv s.nand)
    (size : pavoChip.imageSize ≤ bdrv.size) (page : p < pavoChip.pages) (column : c ≤ 2112) :
    ∃ nand, s.writes (readAccesses (BitVec.ofNat 32 c) (BitVec.ofNat 32 p)) =
        .ok { s with nand := nand } ∧
      FlashReady bdrv nand ∧ Offers bdrv nand (2112 * p + c) (2112 - c) := by
  obtain ⟨rfl, chip, clean⟩ := ready
  have pages : p < 0x80000 := page
  have eightBit : s.nand.chip.info.busWidth = 1 := chip ▸ rfl
  let x : NandBflash := { s.nand with iolen := 0, cmd := 0x00#16 }
  have command : busStep s.nand (.command 0x00#16) =
      .ok (x.latch s.nand.addrLow x.addrHigh 0, none) := rfl
  have address := @transfer_latchBytes x p c s.nand.addrLow eightBit
  have load := @busStep_load (x.latched p c) 0x30#16 (Or.inl rfl)
  have written := pavoNandWrites_of_transfer
    (readAccesses_eq (c := c) (p := p) (by omega) (by omega) ▸ transfer_append
      (transfer_cons command address) (transfer_cons load transfer_nil))
  have latchedPage : (x.latched p c).page = p := by
    rw [latched_page (by omega)]
    exact congrArg (p + 2 ^ 24 * ·) clean
  have latchedColumn : (x.latched p c).column = c := latched_column (by omega)
  have present : (x.latched p c).page < (x.latched p c).chip.pages := by
    rw [latchedPage]
    exact chip ▸ page
  have offset : (x.latched p c).offset = 2112 * p + c := by
    rw [NandBflash.offset, latchedPage, latchedColumn, NandChip.pageOobSize_eq, Nat.mul_comm]
  have length : (nandbLoadPage (x.latched p c)).iolen = (2112 - c : Nat) := by
    have left := (x.latched p c).loadLength_eq
      (by rw [latchedColumn, NandChip.pageOobSize_eq]; exact column)
    rw [latchedColumn, NandChip.pageOobSize_eq] at left
    rw [nandbLoadPage_eq present]
    exact left
  have image : (x.latched p c).bdrv.size = s.nand.bdrv.size := rfl
  have imageSize : pavoChip.imageSize = 2112 * 0x80000 := rfl
  have sector : (2112 * p + c) % 0x200 < 0x200 := Nat.mod_lt _ (by decide)
  refine ⟨_, writes_ok written, ⟨?_, ?_, ?_⟩,
    (2112 * p + c) % 0x200, ?_, ?_, ?_, ?_, fun i inside => ?_⟩
  · rw [nandbLoadPage_eq present]
    rfl
  · rw [nandbLoadPage_eq present]
    exact chip
  · rw [nandbLoadPage_eq present, LatchClean]
    dsimp only
    rw [latched_lane]
    exact clean
  · rw [nandbLoadPage_eq present, ← offset]
  · exact (by decide : (0x30#16 : BitVec 16) ≠ 0x70#16)
  · exact Int.le_of_eq length.symm
  · rw [ioSize_eq]
    omega
  · have loaded := @nandbLoadPage_io (x.latched p c) i present (by rw [offset]; omega)
      (by rw [offset, image]; omega)
    rw [offset] at loaded
    exact loaded

end Chip

/-! ## A page -/

/-- The decoder of the emulator reports nothing, so the bytes stay as they were read. -/
theorem rsDecode_ok (dat par : Buf) {s : Jz4740Emc} (eccr : s.nfeccr = 0x7#32) :
    ∃ t, ∀ fuel, rsDecode (fuel + 1) dat par s = .ok (t, dat) := by
  obtain ⟨given, set⟩ := setParValues_eq par s
  let r := { s with nfpar := given }
  let t := eccReset r 0x17 0x8 fun _ => 0
  have ready : nfecrModify (· ||| 0x10#32) r = .ok t :=
    nfecrModify_decode (e := 0x7#32) eccr (by decide) (Or.inl rfl)
  have flag : t.nfints &&& 0x8#32 ≠ 0#32 := show 0x8#32 &&& 0x8#32 ≠ 0#32 by decide
  have off : nandEccDisable t = .ok (eccReset t 0x16 0x8 fun _ => 0) :=
    nfecrModify_decode (e := 0x17#32) rfl (by decide) (Or.inr rfl)
  have clean : (eccReset t 0x16 0x8 fun _ => 0).nfints &&& 0x1#32 = 0#32 :=
    show 0x8#32 &&& 0x1#32 = 0#32 by decide
  refine ⟨eccReset t 0x16 0x8 fun _ => 0, fun fuel => ?_⟩
  rw [rsDecode, bind_ok set, bind_ok ready, bind_ok (nandEccSync_set flag), bind_ok off,
    bind_ok (rsCheckDecoding_clean dat clean)]

section Page

variable {bdrv : ByteFile} {s : Spl} {place left : Nat}

theorem readEccBlock_ok (dst i : Nat) (ready : FlashReady bdrv s.nand)
    (offers : Offers bdrv s.nand place (512 + left)) :
    ∃ t, (∀ fuel, readEccBlock (fuel + 1) dst s i = .ok t) ∧
      FlashReady bdrv t.nand ∧ Offers bdrv t.nand (place + 512) left ∧
      t.ram = blit s.ram (dst + 512 * i) (fun j => bdrv.byte (place + j)) 512 := by
  let quiet := jz4740EmcUpateInterrupt { s.emc with nfints := 0x0#32 &&& 0x1fffffff#32 }
  let on := jz4740EmcWriteEccr quiet (0x1#32 ||| 0x2#32 ||| 0x4#32)
  have first : jz4740EmcWrite32 s.emc 0x114 0x0 = .ok quiet := rfl
  have second : jz4740EmcWrite32 quiet 0x100 (0x1#32 ||| 0x2#32 ||| 0x4#32) = .ok on := rfl
  obtain ⟨nand, read, ready, rest⟩ := reads_offers ready offers
  let dat := listBuf ((List.range 512).map fun i => bdrv.byte (place + i))
  obtain ⟨emc, decoded⟩ := rsDecode_ok dat (shift s.oobBuf (eccPos + i * 9))
    (writeEccr_nfeccr quiet (by decide) : on.nfeccr = 0x7#32)
  refine ⟨{ s with emc := emc, nand := nand, ram := blit s.ram (dst + 512 * i) dat 512 },
    fun fuel => ?_, ready, rest, blit_congr fun j inside => listBuf_map_range inside⟩
  rw [readEccBlock, bind_ok (onSoc_ok first), bind_ok (onSoc_ok second), bind_ok read]
  dsimp only
  rw [bind_ok (onSoc_ok (decoded fuel))]

/-- Blocks that follow each other on the page follow each other in memory. -/
theorem readEccBlocks_ok (dst count i : Nat) (ready : FlashReady bdrv s.nand)
    (offers : Offers bdrv s.nand place (512 * count + left)) :
    ∃ t, (∀ fuel, (List.range' i count).foldlM (readEccBlock (fuel + 1) dst) s = .ok t) ∧
      FlashReady bdrv t.nand ∧
      t.ram = blit s.ram (dst + 512 * i) (fun j => bdrv.byte (place + j)) (512 * count) := by
  induction count generalizing i s place with
  | zero => exact ⟨s, fun _ => rfl, ready, blit_zero_len.symm⟩
  | succ count ih =>
    rw [Nat.mul_succ, Nat.add_comm (512 * count), Nat.add_assoc] at offers
    obtain ⟨m, head, ready, offers, ram⟩ := readEccBlock_ok dst i ready offers
    obtain ⟨t, tail, ready, ram'⟩ := ih (i + 1) ready offers
    refine ⟨t, fun fuel => foldlM_cons_ok (head fuel) (tail fuel), ready, ?_⟩
    rw [ram', ram, Nat.mul_succ, ← Nat.add_assoc, blit_blit_append, Nat.mul_succ,
      Nat.add_comm (512 * count)]
    refine blit_congr fun j _ => ?_
    split
    next => rfl
    next later => rw [Nat.add_assoc, Nat.add_sub_of_le (Nat.le_of_not_lt later)]

end Page

/-- What the ids of the chip on the board amount to: blocks of 64K, where the emulated
chip erases 128K. -/
def pavoGeometry : NandGeometry := ⟨2048, 64, 4, 32, 0⟩

/-- The mark of a page in its OOB area. -/
def oobMark (bdrv : ByteFile) (page : Nat) : Byte := bdrv.byte (2112 * page + 2048)

section Page

variable {bdrv : ByteFile} {s : Spl} {p : Nat}

theorem nandReadOob_ok (ready : FlashReady bdrv s.nand) (size : pavoChip.imageSize ≤ bdrv.size)
    (page : p < pavoChip.pages) :
    ∃ t, (∀ fuel, nandReadOob (fuel + 1) pavoGeometry p s = .ok t) ∧
      FlashReady bdrv t.nand ∧ t.ram = s.ram ∧ t.oobBuf 0 = oobMark bdrv p := by
  obtain ⟨nand, addressed, ready, offers⟩ :=
    writes_readAccesses (c := 2048) ready size page (by decide)
  obtain ⟨gpio, synced⟩ := sync_ok 9999 { s with nand := nand }
  obtain ⟨nand', read, ready, -⟩ :=
    @reads_offers bdrv { s with nand := nand, gpio := gpio } _ 64 0 ready offers
  refine ⟨{ s with gpio := gpio, nand := nand', oobBuf := blit s.oobBuf 0 (listBuf
    ((List.range 64).map fun i => bdrv.byte (2112 * p + 2048 + i))) 64 }, fun fuel => ?_, ready,
    rfl, ?_⟩
  · rw [nandReadOob, show pavoGeometry.pageSize = 2048 from rfl, bind_ok addressed,
      bind_ok (synced fuel), show pavoGeometry.oobSize = 64 from rfl, bind_ok read]
  · dsimp only
    rw [blit_inside (Nat.le_refl 0) (by decide), listBuf_map_range (by decide)]
    rfl

/-- A page arrives in memory as it is on the flash, without its OOB area. -/
theorem nandReadPageSpl_ok (dst : Nat) (ready : FlashReady bdrv s.nand)
    (size : pavoChip.imageSize ≤ bdrv.size) (page : p < pavoChip.pages) :
    ∃ t, (∀ fuel, nandReadPageSpl (fuel + 1) pavoGeometry p dst s = .ok t) ∧
      FlashReady bdrv t.nand ∧
      t.ram = blit s.ram dst (shift (dataByte bdrv) (2048 * p)) 2048 := by
  obtain ⟨m, oob, ready, ram, -⟩ := nandReadOob_ok ready size page
  obtain ⟨nand, addressed, ready, offers⟩ :=
    writes_readAccesses (c := 0) ready size page (by decide)
  obtain ⟨gpio, synced⟩ := sync_ok 9999 { m with nand := nand }
  obtain ⟨t, blocks, ready, ram'⟩ := @readEccBlocks_ok bdrv { m with nand := nand, gpio := gpio }
    _ 64 dst 4 0 ready offers
  refine ⟨t, fun fuel => ?_, ready, ?_⟩
  · rw [nandReadPageSpl, bind_ok (oob fuel), show (0 : BitVec 32) = BitVec.ofNat 32 0 from rfl,
      bind_ok addressed, bind_ok (synced fuel)]
    exact List.range_eq_range' ▸ blocks fuel
  · rw [ram', ← ram]
    refine blit_congr fun j inside => ?_
    rw [shift_apply, dataByte, show (2048 * p + j) / 2048 = p by omega,
      show (2048 * p + j) % 2048 = j by omega]
    rfl

end Page

/-! ## The chip is asked -/

theorem nandGeometry_eq {id : Buf} (third : id 3 = 0x95#8) (fourth : id 4 = 0x48#8) :
    nandGeometry id = pavoGeometry := by
  rw [nandGeometry, third, fourth]
  rfl

/-- The reset cleans the latch, whatever was in it, and the ids are offered behind it. -/
theorem pavoNandWrites_readId {s : NandBflash} (chip : s.chip = pavoChip) :
    ∃ reset t, pavoNandWrites s [(.command, 0xff)] = .ok reset ∧
      pavoNandWrites reset [(.command, 0x90), (.address, 0)] = .ok t ∧ FlashReady s.bdrv t ∧
      t.cmd = 0x90#16 ∧ t.ioaddr = some 0 ∧ t.iolen = 5 ∧ t.io = readId pavoChip s.io := by
  obtain ⟨bdrv, chip', io, ioaddr, iolen, low, high, cycle, cmd, status⟩ := s
  cases chip
  have clean : (lane 0 1).toNat = 0 := by decide
  exact ⟨_, _, rfl, rfl, ⟨rfl, rfl, clean⟩, rfl, rfl, rfl, rfl⟩

/-- The five ids, as the flash model puts them into its buffer. -/
def pavoId (io : Buf) : Buf := listBuf ((List.range 5).map (readId pavoChip io))

theorem nandGeometry_pavoId (io : Buf) : nandGeometry (pavoId io) = pavoGeometry := by
  apply nandGeometry_eq
  · rw [pavoId, listBuf_map_range (by decide)]
    rfl
  · rw [pavoId, listBuf_map_range (by decide)]
    rfl

theorem pavoNandReads_id {s : NandBflash} {io : Buf} (cmd : s.cmd = 0x90#16)
    (ioaddr : s.ioaddr = some 0) (iolen : s.iolen = 5) (filled : s.io = readId pavoChip io) :
    ∃ t, pavoNandReads s 5 = .ok (t, (List.range 5).map (readId pavoChip io)) ∧
      t.bdrv = s.bdrv ∧ t.chip = s.chip ∧ t.addrHigh = s.addrHigh := by
  have data : s.cmd ≠ 0x70#16 := by
    rw [cmd]
    decide
  have read := pavoNandReads_of_transfer
    (transfer_readData (n := 5) ioaddr data (Int.le_of_eq iolen.symm) (by decide))
  simp only [Nat.zero_add, filled] at read
  exact ⟨_, read, rfl, rfl, rfl⟩

theorem nandQuery4740_ok {s : Spl} (chip : s.nand.chip = pavoChip) :
    ∃ t, (∀ fuel, nandQuery4740 (fuel + 1) s = .ok (t, pavoId s.nand.io)) ∧
      FlashReady s.nand.bdrv t.nand := by
  obtain ⟨reset, asked, resets, asks, ready, cmd, ioaddr, iolen, io⟩ := pavoNandWrites_readId chip
  obtain ⟨emc, on⟩ := nfcsrModify_ok (· ||| 0x1#32 ||| 0x2#32) s
  obtain ⟨gpio, synced⟩ := sync_ok 99999 { s with emc := emc, nand := reset }
  obtain ⟨nand, read, bdrv, chip', high⟩ := pavoNandReads_id cmd ioaddr iolen io
  obtain ⟨emc', off⟩ := nfcsrModify_ok (· &&& ~~~0x2#32) { s with
    emc := emc, gpio := gpio, nand := nand }
  refine ⟨{ s with emc := emc', gpio := gpio, nand := nand }, fun fuel => ?_,
    bdrv.trans ready.bdrv, chip'.trans ready.chip, ?_⟩
  · rw [nandQuery4740, Spl.nandEnable, bind_ok on,
      bind_ok (writes_ok (s := { s with emc := emc }) resets), bind_ok (synced fuel),
      bind_ok (writes_ok (s := { s with emc := emc, gpio := gpio, nand := reset }) asks),
      bind_ok (reads_ok (s := { s with emc := emc, gpio := gpio, nand := asked }) read)]
    dsimp only
    rw [Spl.nandDisable, bind_ok off]
    rfl
  · rw [LatchClean, high]
    exact ready.clean

/-! ## The groups that are loaded -/

/-- The pages of the next stage start here, and the group of 32 pages they come in is marked
as good.  The mark is that of page 127 from its first page on, which belongs to the third
group behind it. -/
def GoodGroup (bdrv : ByteFile) (g : Nat) : Prop :=
  4 ≤ g ∧ oobMark bdrv (32 * g + badBlockPage) = 0xff

instance (bdrv : ByteFile) : DecidablePred (GoodGroup bdrv) := fun _ =>
  inferInstanceAs (Decidable (_ ∧ _))

/-- Byte `i` of the good groups, one after the other. -/
noncomputable def goodByte (bdrv : ByteFile) (i : Nat) : Byte :=
  dataByte bdrv (65536 * Nat.nth (GoodGroup bdrv) (i / 65536) + i % 65536)

/-- What holds at the head of the loop. -/
structure Loading (bdrv : ByteFile) (s : Spl) (page copied : Nat) : Prop where
  ready : FlashReady bdrv s.nand
  start : 128 ≤ page
  good : page % 32 ≠ 0 → GoodGroup bdrv (page / 32)
  count : copied = 32 * Nat.count (GoodGroup bdrv) (page / 32) + page % 32
  ram : ∀ i, i < 2048 * copied → s.ram i = goodByte bdrv i

section Load

variable {bdrv : ByteFile} {s t : Spl} {page copied : Nat}

/-- A group that is marked is passed over. -/
theorem Loading.skip (loading : Loading bdrv s page copied) (first : page % 32 = 0)
    (ready : FlashReady bdrv t.nand) (ram : t.ram = s.ram)
    (bad : oobMark bdrv (page + badBlockPage) ≠ 0xff) :
    Loading bdrv t (page + 32) copied where
  ready := ready
  start := Nat.le_add_right_of_le loading.start
  good := fun inside => absurd first (by omega)
  count := by
    have marked : ¬ GoodGroup bdrv (page / 32) := by
      rintro ⟨-, good⟩
      rw [Nat.mul_div_cancel' (Nat.dvd_of_mod_eq_zero first)] at good
      exact bad good
    rw [loading.count, Nat.add_div_right _ (by decide), Nat.add_mod_right, Nat.count_succ,
      if_neg marked, Nat.add_zero]
  ram := ram ▸ loading.ram

/-- A page of a good group goes behind those that are there. -/
theorem Loading.copy (loading : Loading bdrv s page copied)
    (good : GoodGroup bdrv (page / 32)) (ready : FlashReady bdrv t.nand)
    (ram : t.ram = blit s.ram (2048 * copied) (shift (dataByte bdrv) (2048 * page)) 2048) :
    Loading bdrv t (page + 1) (copied + 1) where
  ready := ready
  start := Nat.le_succ_of_le loading.start
  good := fun inside => by
    rw [show (page + 1) / 32 = page / 32 by omega]
    exact good
  count := by
    have count := loading.count
    rcases Nat.lt_or_ge (page % 32) 31 with more | last
    · rw [show (page + 1) / 32 = page / 32 by omega]
      omega
    · rw [show (page + 1) / 32 = page / 32 + 1 by omega, Nat.count_succ, if_pos good]
      omega
  ram := by
    intro i inside
    have count := loading.count
    rw [ram]
    rcases Nat.lt_or_ge i (2048 * copied) with before | here
    · rw [blit_outside (Or.inl before)]
      exact loading.ram i before
    · rw [blit_inside here (by omega), shift_apply, goodByte,
        show i / 65536 = Nat.count (GoodGroup bdrv) (page / 32) by omega, Nat.nth_count good]
      exact congrArg _ (by omega)

/-- One turn of the loop, in a group whose mark is on the chip. -/
theorem nandLoadLoop_turn (loading : Loading bdrv s page copied)
    (size : pavoChip.imageSize ≤ bdrv.size)
    (inside : 32 * (page / 32) + badBlockPage < pavoChip.pages) (more : copied < 512) :
    ∃ t page' copied', page < page' ∧ Loading bdrv t page' copied' ∧
      ∀ wait fuel, nandLoadLoop (wait + 1) pavoGeometry 512 (fuel + 1) s page copied =
        nandLoadLoop (wait + 1) pavoGeometry 512 fuel t page' copied' := by
  have present : page < pavoChip.pages := by
    rw [badBlockPage] at inside
    omega
  by_cases first : page % 32 = 0
  · have place : 32 * (page / 32) = page := Nat.mul_div_cancel' (Nat.dvd_of_mod_eq_zero first)
    rw [place] at inside
    obtain ⟨m, oob, ready, ram, mark⟩ := nandReadOob_ok loading.ready size inside
    by_cases bad : oobMark bdrv (page + badBlockPage) ≠ 0xff
    · refine ⟨m, page + 32, copied, by omega, loading.skip first ready ram bad,
        fun wait fuel => ?_⟩
      rw [nandLoadLoop, if_pos more, if_pos (show page % pavoGeometry.pagePerBlock = 0 from first),
        bind_ok (oob wait)]
      exact if_pos ⟨first, fun same => bad (mark.symm.trans same)⟩
    · have good : oobMark bdrv (page + badBlockPage) = 0xff := not_not.mp bad
      obtain ⟨t, read, ready, ram'⟩ := nandReadPageSpl_ok (2048 * copied) ready size present
      refine ⟨t, page + 1, copied + 1, Nat.lt_succ_self _,
        loading.copy ⟨?_, ?_⟩ ready (ram ▸ ram'), fun wait fuel => ?_⟩
      · have := loading.start
        omega
      · rw [place]
        exact good
      · rw [nandLoadLoop, if_pos more,
          if_pos (show page % pavoGeometry.pagePerBlock = 0 from first), bind_ok (oob wait)]
        refine (if_neg fun marked => marked.2 (mark.trans good)).trans ?_
        rw [show pavoGeometry.pageSize = 2048 from rfl, bind_ok (read wait)]
  · obtain ⟨t, read, ready, ram⟩ := nandReadPageSpl_ok (2048 * copied) loading.ready size present
    refine ⟨t, page + 1, copied + 1, Nat.lt_succ_self _, loading.copy (loading.good first) ready ram,
      fun wait fuel => ?_⟩
    rw [nandLoadLoop, if_pos more, if_neg (show ¬ page % pavoGeometry.pagePerBlock = 0 from first),
      bind_ok rfl]
    refine (if_neg fun marked => first marked.1).trans ?_
    rw [show pavoGeometry.pageSize = 2048 from rfl, bind_ok (read wait)]

/-- Before 16 good groups are there, the page is in one of the groups they are among. -/
theorem Loading.inside {groups : Nat} (loading : Loading bdrv s page copied)
    (enough : 16 ≤ Nat.count (GoodGroup bdrv) groups) (more : copied < 512) :
    page < 32 * groups := by
  by_contra beyond
  have monotone : Nat.count (GoodGroup bdrv) groups ≤ Nat.count (GoodGroup bdrv) (page / 32) :=
    Nat.count_monotone _ (by omega)
  have := loading.count
  omega

/-- The loop ends once 16 good groups have been found on the chip. -/
theorem nandLoadLoop_ok {groups : Nat} (size : pavoChip.imageSize ≤ bdrv.size)
    (enough : 16 ≤ Nat.count (GoodGroup bdrv) groups)
    (inside : 32 * groups + 95 < pavoChip.pages) (left : Nat)
    (loading : Loading bdrv s page copied) (measure : 32 * groups ≤ page + left) :
    ∃ t, (∀ wait fuel, left < fuel →
        nandLoadLoop (wait + 1) pavoGeometry 512 fuel s page copied = .ok t) ∧
      t.nand.bdrv = bdrv ∧ ∀ i, i < 0x100000 → t.ram i = goodByte bdrv i := by
  induction left generalizing s page copied with
  | zero =>
    have all : ¬ copied < 512 := fun more => by
      have := loading.inside enough more
      omega
    refine ⟨s, fun wait fuel some => ?_, loading.ready.bdrv, fun i small =>
      loading.ram i (by omega)⟩
    obtain ⟨fuel, rfl⟩ := Nat.exists_eq_add_one.mpr some
    rw [nandLoadLoop, if_neg all]
  | succ left ih =>
    by_cases more : copied < 512
    · have := loading.inside enough more
      obtain ⟨m, page', copied', moved, loading', turn⟩ := nandLoadLoop_turn loading size
        (by rw [badBlockPage]; omega) more
      obtain ⟨t, done, bdrv', ram⟩ := ih loading' (by omega)
      refine ⟨t, fun wait fuel some => ?_, bdrv', ram⟩
      obtain ⟨fuel, rfl⟩ := Nat.exists_eq_add_one.mpr (Nat.zero_lt_of_lt some)
      rw [turn]
      exact done wait fuel (Nat.lt_of_succ_lt_succ some)
    · refine ⟨s, fun wait fuel some => ?_, loading.ready.bdrv, fun i small =>
        loading.ram i (by omega)⟩
      obtain ⟨fuel, rfl⟩ := Nat.exists_eq_add_one.mpr (Nat.zero_lt_of_lt some)
      rw [nandLoadLoop, if_neg more]

end Load

/-! ## Flashes without marks -/

section Groups

variable {bdrv : ByteFile} {k i : Nat}

/-- The groups the stage takes up are good. -/
def StageGood (bdrv : ByteFile) : Prop :=
  ∀ g, 4 ≤ g → g < 20 → oobMark bdrv (32 * g + badBlockPage) = 0xff

theorem StageGood.count (good : StageGood bdrv) (few : k ≤ 16) :
    Nat.count (GoodGroup bdrv) (4 + k) = k := by
  induction k with
  | zero => exact Nat.count_of_forall_not fun _ small good => Nat.not_le_of_lt small good.1
  | succ k ih =>
    have marked : GoodGroup bdrv (4 + k) :=
      ⟨Nat.le_add_right 4 k, good _ (Nat.le_add_right 4 k) (by omega)⟩
    rw [← Nat.add_assoc, Nat.count_succ, ih (Nat.le_of_succ_le few), if_pos marked]

/-- Nothing is passed over, so the stage is the flash from 256K on. -/
theorem StageGood.goodByte_eq (good : StageGood bdrv) (inside : i < 0x100000) :
    goodByte bdrv i = dataByte bdrv (0x40000 + i) := by
  have group : i / 65536 < 16 := by omega
  have marked : GoodGroup bdrv (4 + i / 65536) :=
    ⟨Nat.le_add_right 4 _, good _ (Nat.le_add_right 4 _) (by omega)⟩
  have place := Nat.nth_count marked
  rw [good.count (Nat.le_of_lt group)] at place
  rw [goodByte, place]
  exact congrArg _ (by omega)

theorem StageGood.enough (good : StageGood bdrv) :
    16 ≤ Nat.count (GoodGroup bdrv) 16381 :=
  Nat.le_trans (Nat.le_of_eq (good.count (Nat.le_refl 16)).symm)
    (Nat.count_monotone _ (by decide))

/-- A blank flash that is large enough. -/
theorem stageGood_blank {n : Nat} (whole : 2112 * 736 ≤ n) :
    StageGood (.ofBuf n (fill 0xff)) := by
  intro g _ last
  have inside : 2112 * (32 * g + badBlockPage) + 2048 < n := by
    rw [badBlockPage]
    omega
  rw [oobMark, ByteFile.ofBuf_byte _ inside]
  rfl

end Groups

/-! ## The whole loader -/

theorem splBoot_ok (s : Spl) (chip : s.nand.chip = pavoChip)
    (size : pavoChip.imageSize ≤ s.nand.bdrv.size)
    (enough : 16 ≤ Nat.count (GoodGroup s.nand.bdrv) 16381) :
    ∃ t, (∀ fuel, 32 * 16381 + 1 ≤ fuel → splBoot fuel s = .ok t) ∧ t.nand.bdrv = s.nand.bdrv ∧
      ∀ i, i < 0x100000 → t.ram i = goodByte s.nand.bdrv i := by
  obtain ⟨m, asked, ready⟩ := nandQuery4740_ok chip
  obtain ⟨emc, on⟩ := nfcsrModify_ok (· ||| 0x1#32 ||| 0x2#32) m
  have start : Loading s.nand.bdrv { m with emc := emc } 128 0 := by
    have before : Nat.count (GoodGroup s.nand.bdrv) (128 / 32) = 0 :=
      Nat.count_of_forall_not fun _ small good => Nat.not_le_of_lt small good.1
    refine ⟨ready, Nat.le_refl _, fun inside => absurd rfl inside, ?_, fun i none => ?_⟩
    · rw [before]
    · exact absurd none (Nat.not_lt_zero i)
  obtain ⟨t, loaded, bdrv, ram⟩ := nandLoadLoop_ok size enough (by decide) (32 * 16381) start
    (Nat.le_add_left _ _)
  obtain ⟨emc', off⟩ := nfcsrModify_ok (· &&& ~~~0x2#32) t
  refine ⟨{ t with emc := emc' }, fun fuel some => ?_, bdrv, ram⟩
  obtain ⟨fuel, rfl⟩ := Nat.exists_eq_add_one.mpr (Nat.zero_lt_of_lt some)
  rw [splBoot, bind_ok (asked fuel)]
  dsimp only
  rw [nandGeometry_pavoId, nandLoad, Spl.nandEnable, bind_ok on,
    show uBootSize / pavoGeometry.pageSize = 512 from rfl,
    show uBootOffs / pavoGeometry.pageSize = 128 from rfl, bind_ok (loaded fuel _ some)]
  exact off

/-- From every state of the devices the loader ends, and it has copied the first 16 good
groups, one after the other, wherever on the chip they are; the flash is as it was. -/
theorem splBoot_loads (s : Spl) (chip : s.nand.chip = pavoChip)
    (size : pavoChip.imageSize ≤ s.nand.bdrv.size)
    (enough : 16 ≤ Nat.count (GoodGroup s.nand.bdrv) 16381) :
    ∃ t, Settles (fun fuel => splBoot fuel s) (.ok t) ∧ t.nand.bdrv = s.nand.bdrv ∧
      ∀ i, i < 0x100000 → t.ram i = goodByte s.nand.bdrv i := by
  obtain ⟨t, ends, rest⟩ := splBoot_ok s chip size enough
  exact ⟨t, ⟨_, ends⟩, rest⟩

/-- A flash with the number of its group in each byte of a page, and page 287 marked. -/
def markedImage : ByteFile := .ofBuf pavoChip.imageSize fun i =>
  if i % 2112 < 2048 then BitVec.ofNat 8 (i / (2112 * 32))
  else if i / 2112 = 287 then 0 else 0xff

/-- On a board that has just been reset group 4 is loaded, and group 6 behind it. -/
theorem splBoot_loads_marked :
    ∃ t, Settles (fun fuel => splBoot fuel ⟨jz4740EmcReset, jz4740GpioReset,
        nandbPowerOn pavoChip markedImage, fill 0, fill 0⟩) (.ok t) ∧
      t.nand.bdrv = markedImage ∧ (∀ i, i < 0x100000 → t.ram i = goodByte markedImage i) ∧
      t.ram 0xffff = 4 ∧ t.ram 0x10000 = 6 := by
  have groups : Nat.count (GoodGroup markedImage) 4 = 0 ∧
      Nat.count (GoodGroup markedImage) 6 = 1 ∧ Nat.count (GoodGroup markedImage) 21 = 16 := by
    decide +kernel
  have enough : 16 ≤ Nat.count (GoodGroup markedImage) 16381 :=
    groups.2.2.symm.le.trans (Nat.count_monotone _ (by decide))
  obtain ⟨t, ends, bdrv, ram⟩ := splBoot_loads ⟨jz4740EmcReset, jz4740GpioReset,
    nandbPowerOn pavoChip markedImage, fill 0, fill 0⟩ rfl (Nat.le_refl _) enough
  have copied : ∀ i, i < 0x100000 → t.ram i = goodByte markedImage i := ram
  have first : Nat.nth (GoodGroup markedImage) 0 = 4 := by
    rw [← groups.1]
    exact Nat.nth_count (by decide +kernel)
  have second : Nat.nth (GoodGroup markedImage) 1 = 6 := by
    rw [← groups.2.1]
    exact Nat.nth_count (by decide +kernel)
  refine ⟨t, ends, bdrv, copied, ?_, ?_⟩
  · rw [copied _ (by decide), goodByte, show 0xffff / 65536 = 0 from rfl, first]
    decide +kernel
  · rw [copied _ (by decide), goodByte, show 0x10000 / 65536 = 1 from rfl, second]
    decide +kernel

end VirtualNoah
