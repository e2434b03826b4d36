import Mathlib.Data.Fin.VecNotation
import VirtualNoah.Lib.StepRun
import VirtualNoah.Lib.Words
import VirtualNoah.Soc.Host

/-!
# The external memory controller

The registers of `mips_jz.c` with an access function for each width.  The parity
registers NFPAR0 to NFPAR2 can be read and written in all of them, but a narrow
write is or-ed into its lanes instead of replacing them.
-/

namespace VirtualNoah

open ByteStore Lanes

/-! ## State -/

structure Jz4740Emc where
  /-- the level of the interrupt line -/
  irq : BitVec 32
  bcr : BitVec 32
  smcr : Fin 4 → BitVec 32
  sacr : Fin 4 → BitVec 32
  nfcsr : BitVec 32
  nfeccr : BitVec 32
  nfecc : BitVec 32
  nfpar : Fin 3 → BitVec 32
  nfints : BitVec 32
  nfinte : BitVec 32
  nferr : Fin 4 → BitVec 32
  dmcr : BitVec 32
  rtcsr : BitVec 32
  rtcnt : BitVec 32
  rtcor : BitVec 32
  dmar : BitVec 32
  sdmr : BitVec 32

/-- `jz4740_emc_reset` on the memory `qemu_mallocz` has cleared. -/
def jz4740EmcReset : Jz4740Emc where
  irq := 0
  bcr := 0
  smcr := fun _ => 0xfff7700
  sacr := ![0x18fc, 0x16fe, 0x14fe, 0xcfc]
  nfcsr := 0
  nfeccr := 0
  nfecc := 0
  nfpar := fun _ => 0
  nfints := 0
  nfinte := 0
  nferr := fun _ => 0
  dmcr := 0
  rtcsr := 0
  rtcnt := 0
  rtcor := 0
  dmar := 0x20f8
  sdmr := 0

def Jz4740Emc.setPar (s : Jz4740Emc) (k : Fin 3) (value : BitVec 32) : Jz4740Emc :=
  { s with nfpar := Function.update s.nfpar k value }

/-- The register of a bank of `n` words that an address belongs to, and the byte of
it. -/
def emcBank (base n addr : Nat) : Option (Fin n × Nat) :=
  if inside : base ≤ addr ∧ addr < base + 4 * n then
    some (⟨(addr - base) / 4, by omega⟩, (addr - base) % 4)
  else none

/-- NFPAR0 to NFPAR2. -/
def nfparBank : Nat → Option (Fin 3 × Nat) := emcBank 0x108 3

/-- NFERR0 to NFERR3. -/
def nferrBank : Nat → Option (Fin 4 × Nat) := emcBank 0x11c 4

/-! ## Reads -/

def jz4740EmcRead8 (s : Jz4740Emc) (addr : Nat) : Except Fault (BitVec 32) :=
  match nfparBank addr with
  | some (k, i) => .ok (s.nfpar k >>> (i * 8) &&& 0xff#32)
  | none =>
    if 0xa000 ≤ addr ∧ addr ≤ 0xa003 then .ok (s.sdmr >>> ((addr - 0xa000) * 8) &&& 0xff#32)
    else .error .cpuAbort

/-- No odd address is in the switch. -/
def jz4740EmcRead16 (s : Jz4740Emc) (addr : Nat) : Except Fault (BitVec 32) :=
  if addr % 2 = 0 then
    match nfparBank addr, nferrBank addr with
    | some (k, i), _ => .ok (s.nfpar k >>> (i * 8) &&& 0xffff#32)
    | none, some (k, i) => .ok (s.nferr k >>> (i * 8) &&& 0xffff#32)
    | none, none => .error .cpuAbort
  else .error .cpuAbort

def jz4740EmcRead32 (s : Jz4740Emc) (addr : Nat) : Except Fault (BitVec 32) :=
  match addr with
  | 0x0 => .ok s.bcr
  | 0x14 => .ok (s.smcr 0)
  | 0x18 => .ok (s.smcr 1)
  | 0x1c => .ok (s.smcr 2)
  | 0x20 => .ok (s.smcr 3)
  | 0x34 => .ok (s.sacr 0)
  | 0x38 => .ok (s.sacr 1)
  | 0x3c => .ok (s.sacr 2)
  | 0x40 => .ok (s.sacr 3)
  | 0x50 => .ok s.nfcsr
  | 0x100 => .ok s.nfeccr
  | 0x104 => .ok s.nfecc
  | 0x108 => .ok (s.nfpar 0)
  | 0x10c => .ok (s.nfpar 1)
  | 0x110 => .ok (s.nfpar 2)
  | 0x114 => .ok s.nfints
  | 0x118 => .ok s.nfinte
  | 0x11c => .ok (s.nferr 0)
  | 0x120 => .ok (s.nferr 1)
  | 0x124 => .ok (s.nferr 2)
  | 0x128 => .ok (s.nferr 3)
  | 0x80 => .ok s.dmcr
  | 0x90 => .ok s.dmar
  | _ => .error .cpuAbort

/-! ## Writes -/

def jz4740EmcWrite8 (s : Jz4740Emc) (addr : Nat) (value : BitVec 32) : Except Fault Jz4740Emc :=
  match nfparBank addr with
  | some (k, i) => .ok (s.setPar k (s.nfpar k ||| (value &&& 0xff#32) <<< (i * 8)))
  | none => if 0xa000 ≤ addr ∧ addr ≤ 0xa3ff then .ok s else .error .cpuAbort

def jz4740EmcWrite16 (s : Jz4740Emc) (addr : Nat) (value : BitVec 32) : Except Fault Jz4740Emc :=
  if addr % 2 = 0 then
    match nfparBank addr with
    | some (k, i) => .ok (s.setPar k (s.nfpar k ||| (value &&& 0xffff#32) <<< (i * 8)))
    | none =>
      match addr with
      | 0x84 | 0x86 =>
        .ok { s with rtcsr := s.rtcsr ||| (value &&& 0xffff#32) <<< ((addr - 0x84) * 8) }
      | 0x88 | 0x8a =>
        .ok { s with rtcnt := s.rtcnt ||| (value &&& 0xffff#32) <<< ((addr - 0x88) * 8) }
      | 0x8c => .ok { s with rtcor := s.rtcor ||| (value &&& 0xffff#32) }
      | _ => .error .cpuAbort
  else .error .cpuAbort

/-- `jz4740_emc_upate_interrupt` -/
def jz4740EmcUpateInterrupt (s : Jz4740Emc) : Jz4740Emc := { s with irq := s.nfints &&& s.nfinte }

/-- The write of NFECCR.  There is no error correction behind it. -/
def jz4740EmcWriteEccr (s : Jz4740Emc) (value : BitVec 32) : Jz4740Emc :=
  let s := { s with nfeccr := value &&& 0x1f#32 }
  let s :=
    if s.nfeccr &&& 0x2#32 ≠ 0#32 then
      { s with nfecc := 0, nfpar := fun _ => 0, nfints := 0, nfinte := 0, nferr := fun _ => 0 }
    else s
  let s :=
    if s.nfeccr &&& 0x4#32 ≠ 0#32 then
      let s :=
        if s.nfeccr &&& 0x10#32 ≠ 0#32 ∧ s.nfeccr &&& 0x8#32 = 0#32 then
          -- NFERR3 is left alone
          { s with nfints := 0x8, nferr := ![0, 0, 0, s.nferr 3] }
        else s
      if s.nfeccr &&& 0x8#32 ≠ 0#32 then
        { s with nfints := 0x4, nfpar := ![0xffffffff, 0xffffffff, 0xff] }
      else s
    else { s with nfecc := 0xffffff }
  jz4740EmcUpateInterrupt s

def jz4740EmcWrite32 (s : Jz4740Emc) (addr : Nat) (value : BitVec 32) : Except Fault Jz4740Emc :=
  match addr with
  | 0x104 | 0x11c | 0x120 | 0x124 | 0x128 => .ok s
  | 0x0 => .ok { s with bcr := value }
  | 0x14 => .ok { s with smcr := Function.update s.smcr 0 (value &&& 0xfff77cf#32) }
  | 0x18 => .ok { s with smcr := Function.update s.smcr 1 (value &&& 0xfff77cf#32) }
  | 0x1c => .ok { s with smcr := Function.update s.smcr 2 (value &&& 0xfff77cf#32) }
  | 0x20 => .ok { s with smcr := Function.update s.smcr 3 (value &&& 0xfff77cf#32) }
  | 0x34 => .ok { s with sacr := Function.update s.sacr 0 (value &&& 0xffff#32) }
  | 0x38 => .ok { s with sacr := Function.update s.sacr 1 (value &&& 0xffff#32) }
  | 0x3c => .ok { s with sacr := Function.update s.sacr 2 (value &&& 0xffff#32) }
  | 0x40 => .ok { s with sacr := Function.update s.sacr 3 (value &&& 0xffff#32) }
  | 0x50 => .ok { s with nfcsr := value &&& 0xffff#32 }
  | 0x100 => .ok (jz4740EmcWriteEccr s value)
  | 0x108 => .ok (s.setPar 0 value)
  | 0x10c => .ok (s.setPar 1 value)
  | 0x110 => .ok (s.setPar 2 (value &&& 0xff#32))
  | 0x114 => .ok (jz4740EmcUpateInterrupt { s with nfints := value &&& 0x1fffffff#32 })
  | 0x118 => .ok (jz4740EmcUpateInterrupt { s with nfinte := value &&& 0x1f#32 })
  | 0x80 => .ok { s with dmcr := value &&& 0x9fbeff7f#32 }
  | 0x90 => .ok { s with dmar := value &&& 0xffff#32 }
  | _ => .error .cpuAbort

/-! ## Accesses of any width -/

inductive EmcWidth where
  | byte
  | half
  | word
  deriving DecidableEq

def EmcWidth.bytes : EmcWidth → Nat
  | .byte => 1
  | .half => 2
  | .word => 4

def emcRead (s : Jz4740Emc) : EmcWidth → Nat → Except Fault (BitVec 32)
  | .byte => jz4740EmcRead8 s
  | .half => jz4740EmcRead16 s
  | .word => jz4740EmcRead32 s

def emcWrite (s : Jz4740Emc) : EmcWidth → Nat → BitVec 32 → Except Fault Jz4740Emc
  | .byte => jz4740EmcWrite8 s
  | .half => jz4740EmcWrite16 s
  | .word => jz4740EmcWrite32 s

inductive EmcOp where
  | read (width : EmcWidth) (addr : Nat)
  | write (width : EmcWidth) (addr : Nat) (value : BitVec 32)

/-- Only reads have an output. -/
def emcStep (s : Jz4740Emc) : EmcOp → Except Fault (Jz4740Emc × Option (BitVec 32))
  | .read width addr => (emcRead s width addr).map fun v => (s, some v)
  | .write width addr value => (emcWrite s width addr value).map (·, none)

end VirtualNoah
