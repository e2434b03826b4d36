import VirtualNoah.Soc.PhysMem
import VirtualNoah.Soc.Cpm

/-!
# Accesses of an unsupported width

A register that does not support the width of an access has
`jz4740_badwidth_read`/`write` in its callback table.  These pass the address
they get, an offset in the region, on to `cpu_physical_memory_rw`, which takes a
physical address.  All regions are smaller than guest RAM, so what is read and
written is RAM.
-/

namespace VirtualNoah

open ByteStore Lanes StepRun

section Handlers

variable {σ : Type}

/-- `jz4740_badwidth_read8`, `16` and `32` but for the width. -/
def badwidthRead (w : Width) (io : IoMem σ) : ReadFunc σ := fun m addr =>
  (cpuPhysicalMemoryRead io m addr w.bytes).map fun (m', bytes) => (m', wordOf bytes)

/-- `jz4740_badwidth_write8`, `16` and `32` but for the width. -/
def badwidthWrite (w : Width) (io : IoMem σ) : WriteFunc σ := fun m addr value =>
  cpuPhysicalMemoryWrite io m addr (valueBytes w value)

def jz4740BadwidthRead8 : IoMem σ → ReadFunc σ := badwidthRead .byte
def jz4740BadwidthRead16 : IoMem σ → ReadFunc σ := badwidthRead .half
def jz4740BadwidthRead32 : IoMem σ → ReadFunc σ := badwidthRead .word
def jz4740BadwidthWrite8 : IoMem σ → WriteFunc σ := badwidthWrite .byte
def jz4740BadwidthWrite16 : IoMem σ → WriteFunc σ := badwidthWrite .half
def jz4740BadwidthWrite32 : IoMem σ → WriteFunc σ := badwidthWrite .word

end Handlers

/-! ## The callback tables -/

/-- The regions with a `jz4740_badwidth` handler in their tables. -/
inductive IoRegion where
  | cpm | intc | gpio | rtc | tcuIf
  | tcu (n : Fin 8)
  | lcdc | dma | nand
  deriving DecidableEq

/-- The size `cpu_register_physical_memory` maps the region with. -/
def IoRegion.size : IoRegion → Nat
  | .cpm | .intc | .rtc => 0x1000
  | .gpio | .lcdc | .dma => 0x10000
  | .tcuIf => 0x40
  | .tcu _ => 0x10
  | .nand => 0x20000

/-- An entry of a callback table: a handler for another width, or a function of
the device itself. -/
inductive IoEntry where
  | badwidth (w : Width)
  | own
  deriving DecidableEq

/-- The tables `readfn` and `writefn` of a region have the same shape. -/
structure IoTable where
  byte : IoEntry
  half : IoEntry
  word : IoEntry

def IoTable.entry (t : IoTable) : Width → IoEntry
  | .byte => t.byte
  | .half => t.half
  | .word => t.word

def jz4740CpmFn : IoTable := ⟨.badwidth .word, .badwidth .word, .own⟩
def jz4740IntcFn : IoTable := ⟨.badwidth .word, .badwidth .word, .own⟩
def jz4740GpioFn : IoTable := ⟨.badwidth .word, .badwidth .word, .own⟩
def jz4740RtcFn : IoTable := ⟨.badwidth .word, .badwidth .word, .own⟩
def jz4740TcuIfFn : IoTable := ⟨.own, .badwidth .word, .own⟩
def jz4740TcuFn : IoTable := ⟨.badwidth .half, .own, .badwidth .half⟩
def jz4740LcdcFn : IoTable := ⟨.badwidth .word, .badwidth .word, .own⟩
def jz4740DmaFn : IoTable := ⟨.badwidth .word, .badwidth .word, .own⟩
def pavoNandFn : IoTable := ⟨.own, .badwidth .half, .badwidth .word⟩

def IoRegion.table : IoRegion → IoTable
  | .cpm => jz4740CpmFn
  | .intc => jz4740IntcFn
  | .gpio => jz4740GpioFn
  | .rtc => jz4740RtcFn
  | .tcuIf => jz4740TcuIfFn
  | .tcu _ => jz4740TcuFn
  | .lcdc => jz4740LcdcFn
  | .dma => jz4740DmaFn
  | .nand => pavoNandFn

/-- What the devices themselves do: their own entries in the tables, and the
functions of the NAND chip that `pavo_nand_read8` and `pavo_nand_write8` call. -/
structure IoDevices (σ : Type) where
  read : IoRegion → Width → ReadFunc σ
  write : IoRegion → Width → WriteFunc σ
  nandbReadData8 : Machine σ → Except Fault (Machine σ × BitVec 32)
  nandbWriteCommand : Machine σ → BitVec 32 → Except Fault (Machine σ)
  nandbWriteAddress : Machine σ → BitVec 32 → Except Fault (Machine σ)
  nandbWriteData8 : Machine σ → BitVec 32 → Except Fault (Machine σ)

section Access

variable {σ : Type}

def IoDevices.pavoNandRead8 (dev : IoDevices σ) (io : IoMem σ) : ReadFunc σ := fun m addr =>
  match addr with
  | 0x8000 | 0x10000 => (jz4740BadwidthRead8 io m addr).map fun (m', _) => (m', 0)
  | 0x0 => dev.nandbReadData8 m
  | _ => (jz4740BadwidthRead8 io m addr).map fun (m', _) => (m', 0)

def IoDevices.pavoNandWrite8 (dev : IoDevices σ) (io : IoMem σ) : WriteFunc σ :=
  fun m addr value =>
  match addr with
  | 0x8000 => dev.nandbWriteCommand m value
  | 0x10000 => dev.nandbWriteAddress m value
  | 0x0 => dev.nandbWriteData8 m value
  | _ => jz4740BadwidthWrite8 io m addr value

def readEntry (dev : IoDevices σ) (io : IoMem σ) (r : IoRegion) (w : Width) : ReadFunc σ :=
  match r.table.entry w with
  | .badwidth .byte => jz4740BadwidthRead8 io
  | .badwidth .half => jz4740BadwidthRead16 io
  | .badwidth .word => jz4740BadwidthRead32 io
  | .own => if r = .nand then dev.pavoNandRead8 io else dev.read r w

def writeEntry (dev : IoDevices σ) (io : IoMem σ) (r : IoRegion) (w : Width) : WriteFunc σ :=
  match r.table.entry w with
  | .badwidth .byte => jz4740BadwidthWrite8 io
  | .badwidth .half => jz4740BadwidthWrite16 io
  | .badwidth .word => jz4740BadwidthWrite32 io
  | .own => if r = .nand then dev.pavoNandWrite8 io else dev.write r w

/-- An access of the guest to a region. -/
inductive IoAccess where
  | read (w : Width)
  | write (w : Width) (value : BitVec 32)

def IoAccess.width : IoAccess → Width
  | .read w => w
  | .write w _ => w

/-- The same access in another width. -/
def IoAccess.withWidth : IoAccess → Width → IoAccess
  | .read _, w => .read w
  | .write _ value, w => .write w value

/-- The access through the tables; a write has the result 0. -/
def ioAccess (dev : IoDevices σ) (io : IoMem σ) (r : IoRegion) (a : IoAccess) (offset : Nat)
    (m : Machine σ) : Except Fault (Machine σ × BitVec 32) :=
  match a with
  | .read w => readEntry dev io r w m offset
  | .write w value => (writeEntry dev io r w m offset value).map (·, 0)

/-- The offsets of the NAND port that a function of the chip answers. -/
def IoAccess.nandPort : IoAccess → List Nat
  | .read _ => [0x0]
  | .write _ _ => [0x8000, 0x10000, 0x0]

/-- The width of the handler an access is routed to, if it is routed to one. -/
def badwidthOf (r : IoRegion) (a : IoAccess) (offset : Nat) : Option Width :=
  match r.table.entry a.width with
  | .badwidth w => some w
  | .own => if r = .nand ∧ offset ∉ a.nandPort then some .byte else none

/-- The access leaves guest RAM alone, and is either without any effect, reading
as 0, or the same as an access that the device answers at that offset. -/
def StaysInside (dev : IoDevices σ) (io : IoMem σ) (r : IoRegion) (a : IoAccess) (offset : Nat)
    (m : Machine σ) : Prop :=
  ∃ m' v, ioAccess dev io r a offset m = .ok (m', v) ∧ m'.ram = m.ram ∧
    ((m', v) = (m, 0) ∨ ∃ w, badwidthOf r (a.withWidth w) offset = none ∧
      ioAccess dev io r (a.withWidth w) offset m = .ok (m', v))

/-- The value of some width in guest RAM. -/
def ramValue (m : Machine σ) (offset : Nat) (w : Width) : BitVec 32 :=
  wordOf ((List.range w.bytes).map (shift m.ram offset))

/-- What is written is there already; or what is read is dropped, is zero, or is
what the device reads there without changing. -/
def AlreadyThere (dev : IoDevices σ) (io : IoMem σ) (r : IoRegion) (a : IoAccess) (offset : Nat)
    (m : Machine σ) (w : Width) : Prop :=
  match a with
  | .write _ value => ∀ i < w.bytes, m.ram (offset + i) = lane value i
  | .read asked => r = .nand ∧ asked = .byte ∨ ramValue m offset w = 0 ∨
      ∃ w', badwidthOf r (.read w') offset = none ∧
        ioAccess dev io r (.read w') offset m = .ok (m, ramValue m offset w)

end Access

section Routed

variable {σ : Type} {dev : IoDevices σ} {io : IoMem σ} {r : IoRegion} {a : IoAccess}
  {asked w : Width} {m : Machine σ} {offset : Nat} {value : BitVec 32}

theorem Width.bytes_le (w : Width) : w.bytes ≤ 4 := by
  cases w <;> decide

theorem IoRegion.size_le (r : IoRegion) : r.size ≤ 0x20000 := by
  unfold IoRegion.size
  split <;> decide

/-- Every offset of every region, taken for a physical address, is in RAM. -/
theorem offset_in_ram (inside : offset < r.size) (w : Width) : offset + w.bytes ≤ 0x4004000 := by
  have size := r.size_le
  have bytes := w.bytes_le
  omega

theorem badwidthRead_eq (inside : offset < r.size) :
    badwidthRead w io m offset = .ok (m, ramValue m offset w) := by
  rw [badwidthRead, cpuPhysicalMemoryRead_ram (offset_in_ram inside w)]
  rfl

theorem valueBytes_length : (valueBytes w value).length = w.bytes := by
  rw [valueBytes, List.length_map, List.length_range]

theorem badwidthWrite_eq (inside : offset < r.size) :
    badwidthWrite w io m offset value =
      .ok { m with ram := blit m.ram offset (lane value) w.bytes } := by
  have mapped := offset_in_ram inside w
  rw [badwidthWrite, cpuPhysicalMemoryWrite_ram (valueBytes_length.symm ▸ mapped),
    valueBytes_length]
  refine congrArg (fun ram => Except.ok { m with ram := ram }) (blit_congr fun i part => ?_)
  exact listBuf_map_range part

theorem readEntry_badwidth (entry : r.table.entry asked = .badwidth w) :
    readEntry dev io r asked = badwidthRead w io := by
  unfold readEntry
  rw [entry]
  cases w <;> rfl

theorem writeEntry_badwidth (entry : r.table.entry asked = .badwidth w) :
    writeEntry dev io r asked = badwidthWrite w io := by
  unfold writeEntry
  rw [entry]
  cases w <;> rfl

/-- An entry of its own that ends in a handler is that of the NAND port. -/
theorem routed_cases (routed : badwidthOf r a offset = some w) :
    r.table.entry a.width = .badwidth w ∨
      r = .nand ∧ a.width = .byte ∧ w = .byte ∧ offset ∉ a.nandPort := by
  unfold badwidthOf at routed
  split at routed
  · next entry =>
    rw [← Option.some.inj routed]
    exact Or.inl entry
  · next entry =>
    split at routed
    · next port =>
      obtain ⟨rfl, outside⟩ := port
      refine Or.inr ⟨rfl, ?_, (Option.some.inj routed).symm, outside⟩
      -- the other two entries are handlers
      cases width : a.width with
      | byte => rfl
      | half =>
        rw [width] at entry
        cases entry
      | word =>
        rw [width] at entry
        cases entry
    · cases routed

theorem not_nand_byte (entry : r.table.entry asked = .badwidth w) :
    ¬ (r = .nand ∧ asked = .byte) := by
  rintro ⟨rfl, rfl⟩
  cases entry

/-- A read that is routed to a handler finds what guest RAM holds at the offset;
the NAND port drops it. -/
theorem routed_read (dev : IoDevices σ) (io : IoMem σ) (m : Machine σ)
    (routed : badwidthOf r (.read asked) offset = some w) (inside : offset < r.size) :
    ioAccess dev io r (.read asked) offset m =
      .ok (m, if r = .nand ∧ asked = .byte then 0 else ramValue m offset w) := by
  rcases routed_cases routed with entry | ⟨rfl, byte, rfl, outside⟩
  · have handler : r.table.entry asked = .badwidth w := entry
    change readEntry dev io r asked m offset = _
    rw [if_neg (not_nand_byte handler), readEntry_badwidth handler]
    exact badwidthRead_eq inside
  · cases byte
    have nonzero : offset ≠ 0 := fun zero => outside (zero ▸ List.mem_cons_self)
    have dropped : (jz4740BadwidthRead8 io m offset).map (fun (m', _) => (m', (0 : BitVec 32))) =
        .ok (m, 0) := by
      rw [jz4740BadwidthRead8, badwidthRead_eq inside]
      rfl
    rw [if_pos ⟨rfl, rfl⟩]
    change dev.pavoNandRead8 io m offset = _
    unfold IoDevices.pavoNandRead8
    split
    · exact dropped
    · exact dropped
    · exact absurd rfl nonzero
    · exact dropped

/-- A write that is routed to a handler lands in guest RAM at the offset. -/
theorem routed_write (dev : IoDevices σ) (io : IoMem σ) (m : Machine σ)
    (routed : badwidthOf r (.write asked value) offset = some w) (inside : offset < r.size) :
    ioAccess dev io r (.write asked value) offset m =
      .ok ({ m with ram := blit m.ram offset (lane value) w.bytes }, 0) := by
  have written : ioAccess dev io r (.write asked value) offset m =
      (badwidthWrite w io m offset value).map (·, 0) := by
    rcases routed_cases routed with entry | ⟨rfl, byte, rfl, outside⟩
    · have handler : r.table.entry asked = .badwidth w := entry
      change (writeEntry dev io r asked m offset value).map (·, 0) = _
      rw [writeEntry_badwidth handler]
    · cases byte
      change (dev.pavoNandWrite8 io m offset value).map (·, 0) = _
      have notPort : ∀ port ∈ [0x8000, 0x10000, 0x0], offset ≠ port := by
        intro port mem same
        exact outside (same ▸ mem)
      congr 1
      unfold IoDevices.pavoNandWrite8
      split
      · exact absurd rfl (notPort _ (by decide))
      · exact absurd rfl (notPort _ (by decide))
      · exact absurd rfl (notPort _ (by decide))
      · rfl
  rw [written, badwidthWrite_eq inside]
  rfl

end Routed

/-- For all devices, every state of them and of guest RAM, every region, offset
and value: an access that is routed to a handler stays inside the device exactly
when guest RAM happens to hold at the offset what the access needs. -/
theorem staysInside_iff {σ : Type} (dev : IoDevices σ) (io : IoMem σ) (r : IoRegion)
    (a : IoAccess) (offset : Nat) (m : Machine σ) {w : Width}
    (routed : badwidthOf r a offset = some w) (inside : offset < r.size) :
    StaysInside dev io r a offset m ↔ AlreadyThere dev io r a offset m w := by
  cases a with
  | write asked value =>
    have done := routed_write dev io m routed inside
    constructor
    · rintro ⟨m', v, access, kept, -⟩
      rw [done] at access
      cases access
      exact blit_eq_self_iff.mp kept
    · intro there
      rw [blit_eq_self_iff.mpr there] at done
      exact ⟨m, 0, done, rfl, Or.inl rfl⟩
  | read asked =>
    have done := routed_read dev io m routed inside
    by_cases dropped : r = .nand ∧ asked = .byte
    · rw [if_pos dropped] at done
      exact iff_of_true ⟨m, 0, done, rfl, Or.inl rfl⟩ (Or.inl dropped)
    · rw [if_neg dropped] at done
      constructor
      · rintro ⟨m', v, access, -, nothing | ⟨w', answered, same⟩⟩
        · rw [done] at access
          cases access
          exact Or.inr (Or.inl (congrArg Prod.snd nothing))
        · rw [done] at access
          cases access
          exact Or.inr (Or.inr ⟨w', answered, same⟩)
      · rintro (nand | zero | ⟨w', answered, same⟩)
        · exact absurd nand dropped
        · exact ⟨m, _, done, rfl, Or.inl (congrArg (Prod.mk m) zero)⟩
        · exact ⟨m, _, done, rfl, Or.inr ⟨w', answered, same⟩⟩

/-- The CPM on a board that has no other device. -/
def cpmBoard (fuel : Nat) : IoDevices Jz4740Cpm where
  read r _ m addr :=
    if r = .cpm then (jz474CpmRead m.dev addr).map (m, ·) else .error .cpuAbort
  write r _ m addr value :=
    if r = .cpm then (jz4740CpmWrite fuel m.dev addr value).map fun cpm => { m with dev := cpm }
    else .error .cpuAbort
  nandbReadData8 _ := .error .cpuAbort
  nandbWriteCommand _ _ := .error .cpuAbort
  nandbWriteAddress _ _ := .error .cpuAbort
  nandbWriteData8 _ _ := .error .cpuAbort

/-- Pages without a device read as 0 and ignore what is written. -/
def unassignedMem {σ : Type} : IoMem σ where
  page _ := none
  read _ _ m _ := .ok (m, 0)
  write _ _ m _ _ := .ok m

/-- Guest RAM starts with the bytes of CPCCR, and an 8-bit read of CPCCR finds them. -/
theorem byte_read_stays_inside : ∃ cpm, jz4740Init 60 12000000 = .ok cpm ∧
    StaysInside (cpmBoard 60) unassignedMem .cpm (.read .byte) 0x0
      ⟨listBuf [0x00, 0x00, 0x04, 0x42], cpm⟩ := by
  obtain ⟨cpm, started⟩ := exists_ok_of_isOk (x := jz4740Init 60 12000000) (by decide +kernel)
  have reset : cpm.cpccr = 0x42040000 := by
    unfold jz4740Init at started
    cases clks : jzClkInit 60 clockInJz4740 onchipClks 0 12000000 with
    | error fault =>
      rw [clks] at started
      cases started
    | ok soc =>
      rw [clks] at started
      cases started
      rfl
  obtain ⟨m, state⟩ : ∃ m : Machine Jz4740Cpm, m = ⟨listBuf [0x00, 0x00, 0x04, 0x42], cpm⟩ :=
    ⟨_, rfl⟩
  have answered : ioAccess (cpmBoard 60) unassignedMem .cpm (.read .word) 0x0 m =
      .ok (m, m.dev.cpccr) := rfl
  have there : m.dev.cpccr = ramValue m 0x0 .word := by
    have value : wordOf ((List.range 4).map (shift (listBuf [0x00, 0x00, 0x04, 0x42]) 0x0)) =
        0x42040000 := by decide
    rw [state, reset]
    exact value.symm
  rw [there] at answered
  exact ⟨cpm, started, state ▸ (staysInside_iff (cpmBoard 60) unassignedMem .cpm (.read .byte)
    0x0 m rfl (by decide)).mpr (Or.inr (Or.inr ⟨.word, rfl, answered⟩))⟩

/-- An 8-bit write of CPCCR leaves the CPM alone and changes the first bytes of guest RAM. -/
theorem byte_write_lands_in_ram : ∃ cpm m', jz4740Init 60 12000000 = .ok cpm ∧
    ioAccess (cpmBoard 60) unassignedMem .cpm (.write .byte 0xff) 0x0 ⟨fill 0, cpm⟩ =
      .ok (m', 0) ∧
    m'.dev.cpccr = cpm.cpccr ∧ m'.ram 0x0 = 0xff ∧
    ¬ StaysInside (cpmBoard 60) unassignedMem .cpm (.write .byte 0xff) 0x0 ⟨fill 0, cpm⟩ := by
  obtain ⟨cpm, started⟩ := exists_ok_of_isOk (x := jz4740Init 60 12000000) (by decide +kernel)
  have routed : badwidthOf .cpm (.write .byte 0xff) 0x0 = some .word := rfl
  have written := routed_write (cpmBoard 60) unassignedMem ⟨fill 0, cpm⟩ routed (by decide)
  have changed : blit (fill 0) 0x0 (lane 0xff) Width.word.bytes 0x0 = 0xff := by decide
  refine ⟨cpm, _, started, written, rfl, changed, ?_⟩
  rintro ⟨m', v, access, kept, -⟩
  rw [written] at access
  cases access
  have zero : blit (fill 0) 0x0 (lane 0xff) Width.word.bytes 0x0 = 0x00 := congrFun kept 0x0
  rw [changed] at zero
  cases zero

end VirtualNoah
