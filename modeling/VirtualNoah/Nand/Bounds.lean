import VirtualNoah.Nand.Device

/-!
# The memory accesses of the NAND model

`AccessInBounds s op` says what the access `op` may touch in state `s`: a
served data read stays inside `io`, a data write stores inside `io`, and the
`memcpy` of a program stays inside both of its buffers.  Guest traffic breaks
it in three ways, all of which leave `iolen` and `ioaddr` out of step:

* a load of a page that does not exist sets `iolen` and leaves `ioaddr` stale;
* a load at a column past the page makes `iolen` negative, and 0x10 copies it;
* data reads under 0x80 move `ioaddr` ahead, and the data writes between them
  keep `iolen` positive.

`Regular` excludes exactly these inputs, and along a regular run every access
is in bounds.
-/

namespace VirtualNoah

open ByteStore StepRun

/-! ## Accesses -/

def AccessInBounds (s : NandBflash) : BusOp → Prop
  | .command value => value = 0x10#16 → s.page < s.chip.pages → ProgramInBounds s
  | .address _ => True
  | .readData8 =>
    0 < (nandbRefill s).iolen → ∃ k, (nandbRefill s).ioaddr = some k ∧ k < ioSize
  | .writeData8 _ =>
    s.cmd = 0x80#16 → (BitVec.ofInt 32 s.iolen).toNat < s.chip.pageOobSize →
      0 ≤ s.iolen ∧ s.iolen < ioSize

/-- An access in bounds does not leave its buffer. -/
theorem busStep_ne_outOfBounds {s : NandBflash} {op : BusOp} (access : AccessInBounds s op) :
    busStep s op ≠ .error .outOfBounds := by
  cases op with
  | command value =>
    have switch : nandbCommand s value ≠ .error .outOfBounds := by
      unfold nandbCommand
      split
      case h_13 =>
        rcases Nat.lt_or_ge s.page s.chip.pages with present | missing
        · rw [nandBlkWrite_eq present (access rfl present)]
          simp
        · rw [nandBlkWrite_missing missing]
          simp
      all_goals simp
    simp only [busStep, nandbWriteCommand]
    cases result : nandbCommand s value with
    | ok t => simp [Except.map]
    | error e =>
      intro stopped
      cases stopped
      exact switch result
  | address value =>
    simp only [busStep, nandbWriteAddress]
    split <;> simp [Except.map]
  | readData8 =>
    simp only [busStep, nandbReadData8]
    split
    · simp [Except.map]
    · next served =>
      obtain ⟨k, cursor, inside⟩ := access (by omega)
      rw [cursor]
      dsimp only
      rw [if_pos inside]
      split <;> simp [Except.map]
  | writeData8 value =>
    simp only [busStep, nandbWriteData8]
    split
    · next stored =>
      rw [if_pos (access stored.1 stored.2)]
      simp [Except.map]
    · simp [Except.map]

/-! ## Regular traffic -/

/-- From `ioaddr` on, `io` still holds `n` bytes. -/
def Room (s : NandBflash) (n : Int) : Prop := ∃ k, s.ioaddr = some k ∧ k + n ≤ ioSize

/-- The column is inside the page, and either the page exists or the stale
`ioaddr` has room for what the load will offer. -/
def LoadFits (s : NandBflash) : Prop :=
  s.column ≤ s.chip.pageOobSize ∧
    (s.page < s.chip.pages ∨ Room s (s.chip.pageOobSize - s.column : Nat))

def Regular (s : NandBflash) : BusOp → Prop
  | .command value =>
    (value = 0x30#16 ∨ value = 0xe0#16 → LoadFits s) ∧
      (value = 0x31#16 ∨ value = 0x3f#16 → LoadFits (nandbNextPage s))
  | .address _ => True
  | .readData8 => s.iolen = 0 → s.cmd = 0x31#16 → LoadFits (nandbNextPage s)
  | .writeData8 _ => s.cmd = 0x80#16 → s.iolen < s.chip.pageOobSize → Room s (s.iolen + 1)

/-- Only loads can be irregular commands. -/
theorem Regular.of_not_load {s : NandBflash} {value : BitVec 16}
    (other : value ∉ [0x30#16, 0xe0#16, 0x31#16, 0x3f#16]) : Regular s (.command value) := by
  simp only [List.mem_cons, List.not_mem_nil, or_false, not_or] at other
  exact ⟨fun load => by simp_all, fun load => by simp_all⟩

/-- `ioaddr` and `iolen` are in step: whatever is still offered lies inside `io`. -/
structure InStep (s : NandBflash) : Prop where
  nonneg : 0 ≤ s.iolen
  short : s.iolen ≤ s.chip.pageOobSize
  room : 0 < s.iolen → Room s s.iolen

theorem inStep_powerOn (chip : NandChip) (bdrv : ByteFile) :
    InStep (nandbPowerOn chip bdrv) where
  nonneg := Int.le_refl 0
  short := by simp [nandbPowerOn]
  room := fun some => (Int.lt_irrefl 0 some).elim

/-- A fitting load leaves the device in step. -/
theorem inStep_loadPage {s : NandBflash} (fits : LoadFits s) : InStep (nandbLoadPage s) := by
  have length := s.loadLength_eq fits.1
  rcases Nat.lt_or_ge s.page s.chip.pages with present | missing
  · rw [nandbLoadPage_eq present, length]
    refine ⟨by simp, by simp, fun _ => ⟨_, rfl, ?_⟩⟩
    have offset : s.offset % 0x200 < 0x200 := Nat.mod_lt _ (by decide)
    dsimp only
    rw [s.chip.pageOobSize_eq, ioSize_eq]
    omega
  · rw [nandbLoadPage_missing missing, length]
    refine ⟨by simp, by simp, fun _ => ?_⟩
    rcases fits.2 with present | room
    · exact absurd present (by omega)
    · exact room

theorem inStep_refill {s : NandBflash} (inv : InStep s) (regular : Regular s .readData8) :
    InStep (nandbRefill s) := by
  unfold nandbRefill
  split
  · next cached => exact inStep_loadPage (regular cached.1 cached.2)
  · exact inv

/-- One regular access keeps the device in step. -/
theorem inStep_busStep {s t : NandBflash} {op : BusOp} {out : Option Byte} (inv : InStep s)
    (regular : Regular s op) (done : busStep s op = .ok (t, out)) : InStep t := by
  cases op with
  | command value =>
    obtain ⟨m, command, rfl, -⟩ := of_busStep_command done
    suffices InStep m from ⟨this.nonneg, this.short, this.room⟩
    rcases nandbCommand_cases command with
      ⟨-, program⟩ | ⟨-, rfl⟩ | ⟨load, rfl⟩ | ⟨load, rfl⟩ | ⟨-, chip, cursor⟩
    · obtain ⟨bdrv, rfl⟩ := nandBlkWrite_frame program
      exact ⟨inv.nonneg, inv.short, inv.room⟩
    · obtain ⟨bdrv, addrLow, erased⟩ := nandbBlkErase_frame s
      rw [erased]
      exact ⟨inv.nonneg, inv.short, inv.room⟩
    · exact inStep_loadPage (regular.1 load)
    · exact inStep_loadPage (regular.2 load)
    · have page := m.chip.pageOobSize_eq
      rcases cursor with ⟨length, addr⟩ | length | ⟨lower, upper, addr⟩
      · refine ⟨length ▸ inv.nonneg, by rw [length, chip]; exact inv.short, fun some => ?_⟩
        obtain ⟨k, cursor, room⟩ := inv.room (length ▸ some)
        exact ⟨k, addr.trans cursor, length ▸ room⟩
      · exact ⟨by omega, by omega, fun some => by omega⟩
      · refine ⟨lower, by omega, fun _ => ⟨0, addr, ?_⟩⟩
        rw [ioSize_eq]
        omega
  | address value =>
    obtain ⟨addrLow, addrHigh, addrCycle, rfl⟩ :=
      nandbWriteAddress_frame (of_busStep_address done).1
    exact ⟨inv.nonneg, inv.short, inv.room⟩
  | readData8 =>
    obtain ⟨r, k, rfl, served, cursor, -, -, unread | read⟩ := of_busStep_readData8 done
    · rw [unread]
      exact inStep_refill inv regular
    · obtain ⟨nonneg, short, room⟩ := inStep_refill inv regular
      obtain ⟨k', cursor', room⟩ := room served
      cases cursor.symm.trans cursor'
      rw [read]
      exact ⟨by dsimp only; omega, by dsimp only; omega, fun _ => ⟨k + 1, rfl, by
        dsimp only
        omega⟩⟩
  | writeData8 value =>
    obtain ⟨-, rfl | ⟨program, nonneg, short, rfl⟩⟩ := of_busStep_writeData8 done
    · exact inv
    · exact ⟨by dsimp only; omega, by dsimp only; omega, fun _ => regular program short⟩

/-- In step, every regular access is in bounds. -/
theorem InStep.accessInBounds {s : NandBflash} {op : BusOp} (inv : InStep s)
    (regular : Regular s op) : AccessInBounds s op := by
  have nonneg := inv.nonneg
  have short := inv.short
  rw [s.chip.pageOobSize_eq] at short
  cases op with
  | command value =>
    intro _ _
    refine ⟨nonneg, ?_, ?_⟩
    · rw [s.chip.pageSectors_eq]
      have offset : s.offset % 0x200 < 0x200 := Nat.mod_lt _ (by decide)
      omega
    · rw [ioSize_eq]
      omega
  | address value => trivial
  | readData8 =>
    intro served
    obtain ⟨k, cursor, room⟩ := (inStep_refill inv regular).room served
    exact ⟨k, cursor, by omega⟩
  | writeData8 value =>
    intro _ _
    refine ⟨nonneg, ?_⟩
    rw [ioSize_eq]
    omega

/-! ## Runs from power-on -/

/-- The chip of the board. -/
def pavoChip : NandChip := ⟨⟨0xec, 0xd3, 1024, 1, 11, 6, 6⟩, by decide⟩

def blankImage (chip : NandChip) : ByteFile := .ofBuf chip.imageSize (fill 0xff)

/-- Five address bytes. -/
def addressBytes (b₀ b₁ b₂ b₃ b₄ : BitVec 16) : List BusOp :=
  [.address b₀, .address b₁, .address b₂, .address b₃, .address b₄]

/-- Along regular traffic from power-on, every access is in bounds and the run
never leaves a buffer. -/
theorem regular_traffic_in_bounds (chip : NandChip) (bdrv : ByteFile) (ops : List BusOp)
    (regular : Along busStep Regular (nandbPowerOn chip bdrv) ops) :
    Along busStep AccessInBounds (nandbPowerOn chip bdrv) ops ∧
      busRun (nandbPowerOn chip bdrv) ops ≠ .error .outOfBounds := by
  have inBounds : Along busStep AccessInBounds (nandbPowerOn chip bdrv) ops :=
    Along.of_invariant InStep inStep_busStep InStep.accessInBounds
      (inStep_powerOn chip bdrv) regular
  exact ⟨inBounds, run_ne_error busStep_ne_outOfBounds inBounds⟩

/-- One byte of page 0 programmed and read back. -/
theorem program_then_read_in_bounds :
    Along busStep AccessInBounds (nandbPowerOn pavoChip (blankImage pavoChip))
        (.command 0x80 :: addressBytes 0 0 0 0 0 ++ .writeData8 0x5a :: .command 0x10 ::
          .command 0x00 :: addressBytes 0 0 0 0 0 ++ [.command 0x30, .readData8]) ∧
      busRun (nandbPowerOn pavoChip (blankImage pavoChip))
        (.command 0x80 :: addressBytes 0 0 0 0 0 ++ .writeData8 0x5a :: .command 0x10 ::
          .command 0x00 :: addressBytes 0 0 0 0 0 ++ [.command 0x30, .readData8]) ≠
        .error .outOfBounds := by
  apply regular_traffic_in_bounds
  simp only [addressBytes, List.cons_append, List.nil_append]
  refine .cons (.of_not_load (by decide)) rfl ?_
  iterate 5 refine .cons trivial rfl ?_
  refine .cons (fun _ _ => ⟨0, rfl, by decide⟩) rfl ?_
  refine .cons (.of_not_load (by decide)) rfl ?_
  refine .cons (.of_not_load (by decide)) rfl ?_
  iterate 5 refine .cons trivial rfl ?_
  refine .cons ⟨fun _ => ⟨by decide, Or.inl (by decide)⟩, fun other => absurd other (by decide)⟩
    rfl ?_
  refine .cons (fun _ cached => by cases cached) rfl ?_
  trivial

/-- A read of page 0x80000, the first one past the chip: `ioaddr` is still `NULL`. -/
def readMissingPage : List BusOp :=
  .command 0x00 :: addressBytes 0 0 0 0 8 ++ [.command 0x30, .readData8]

/-- A load at column 0x0fff of page 0, then a program: the length is negative. -/
def programPastColumn : List BusOp :=
  .command 0x00 :: addressBytes 0xff 0x0f 0 0 0 ++ [.command 0x30, .command 0x10]

/-- Known commands, address bytes and data reads that leave the buffers of a
device `nandb_init` has just set up. -/
theorem irregular_traffic_out_of_bounds :
    nandbInit 0xec 0xd3 (some (blankImage pavoChip)) =
        .ok (nandbPowerOn pavoChip (blankImage pavoChip)) ∧
      ¬ Along busStep AccessInBounds (nandbPowerOn pavoChip (blankImage pavoChip))
          readMissingPage ∧
      ¬ Along busStep AccessInBounds (nandbPowerOn pavoChip (blankImage pavoChip))
          programPastColumn := by
  refine ⟨rfl, fun inBounds => ?_, fun inBounds => ?_⟩
  · exact run_ne_error busStep_ne_outOfBounds inBounds rfl
  · exact run_ne_error busStep_ne_outOfBounds inBounds rfl

end VirtualNoah
