import Mathlib.Data.List.FinRange
import Mathlib.Logic.Function.Basic
import VirtualNoah.Lib.StepRun
import VirtualNoah.Soc.GuestRam
import VirtualNoah.Soc.Host

/-!
# The DMA controller

A write that starts channels returns only when all of them are done, and a chain
of descriptors need not end.  So the work a write has started is part of the
state: a list of channels to run and of descriptors to execute, which `proceed`
takes from the front one by one.  A guest access that comes before the list is
empty stands for a callback that has not returned.

`cpu_abort` ends the emulator, and no piece of work moves a byte before its last
check, so every access is found in the log of a state that has been reached.
-/

namespace VirtualNoah

open ByteStore

/-! ## State -/

structure DmaChannel where
  dsa : BitVec 32
  dta : BitVec 32
  dtc : BitVec 32
  drs : BitVec 32
  dcs : BitVec 32
  dcm : BitVec 32
  dda : BitVec 32

structure Jz4740Dma where
  irq : Bool
  dmac : BitVec 32
  dirqp : BitVec 32
  ddr : BitVec 32
  channels : Fin 6 → DmaChannel

/-- A physical address whose 16 bytes lie in one page. -/
structure DescAddr where
  phy : Nat
  inPage : phy % targetPageSize + 16 ≤ targetPageSize

/-- What a write to the controller has started and not finished. -/
inductive DmaWork where
  /-- `jz4740_dma_en_channel` -/
  | channel (ch : Fin 6)
  /-- one pass of the loop of `jz4740_dma_drun`, from the lookup of the descriptor on -/
  | descriptor (ch : Fin 6) (desc : DescAddr)

/-- What the controller has done to the host buffer, for the record only. -/
inductive DmaEntry where
  | descriptor (ch : Fin 6) (words : RamAccess)
  | transfer (ch : Fin 6) (src dest : RamAccess)

structure DmaState where
  dma : Jz4740Dma
  ram : Buf
  work : List DmaWork
  log : List DmaEntry

def DmaState.setChannel (s : DmaState) (ch : Fin 6) (c : DmaChannel) : DmaState :=
  { s with dma := { s.dma with channels := Function.update s.dma.channels ch c } }

/-- `if (cmd & 0x2) qemu_set_irq(s->irq, 1)` -/
def DmaState.raiseIrq (s : DmaState) (cmd : BitVec 32) : DmaState :=
  if cmd &&& 0x2#32 ≠ 0#32 then { s with dma := { s.dma with irq := true } } else s

/-- DMAC.DMAE -/
def Jz4740Dma.Enabled (d : Jz4740Dma) : Prop := d.dmac &&& 0x1#32 ≠ 0#32

/-- DCS.NDES -/
def DmaChannel.NonDescriptor (c : DmaChannel) : Prop := c.dcs &&& bitMask 31 ≠ 0#32

/-- DCS.EN -/
def DmaChannel.En (c : DmaChannel) : Prop := c.dcs &&& 0x1#32 ≠ 0#32

instance (d : Jz4740Dma) : Decidable d.Enabled := inferInstanceAs (Decidable (_ ≠ _))
instance (c : DmaChannel) : Decidable c.NonDescriptor := inferInstanceAs (Decidable (_ ≠ _))
instance (c : DmaChannel) : Decidable c.En := inferInstanceAs (Decidable (_ ≠ _))

/-! ## Transfers -/

/-- Both addresses are looked up before a byte is moved.  `range` is the length
before it was cut to 32 bits. -/
def jz4740DmaTransfer (s : DmaState) (ch : Fin 6) (src dest len : BitVec 32) (range : Nat) :
    Except Fault DmaState :=
  match ramAddr src.toNat with
  | none => .error .cpuAbort
  | some sr =>
    match ramAddr dest.toNat with
    | none => .error .cpuAbort
    | some de =>
      .ok { s with
        ram := blit s.ram de (shift s.ram sr) len.toNat
        log := .transfer ch ⟨src.toNat, sr, range, len.toNat⟩ ⟨dest.toNat, de, range, len.toNat⟩ ::
          s.log }

def jz4740DmaUnitSize (cmd : BitVec 32) : BitVec 32 :=
  match (cmd &&& 0x700#32) >>> 8 with
  | 0x0#32 => 4
  | 0x1#32 => 1
  | 0x2#32 => 2
  | 0x3#32 => 16
  | 0x4#32 => 32
  | _ => 0

/-- `len` of `jz4740_dma_ndrun`, before it is cut to 32 bits. -/
def DmaChannel.range (c : DmaChannel) : Nat := (jz4740DmaUnitSize c.dcs).toNat * c.dtc.toNat

def jz4740DmaNdrun (s : DmaState) (ch : Fin 6) : Except Fault DmaState :=
  let c := s.dma.channels ch
  let len := jz4740DmaUnitSize c.dcs * c.dtc
  match jz4740DmaTransfer s ch c.dsa c.dta len c.range with
  | .error e => .error e
  | .ok s =>
    let s := s.setChannel ch { c with dtc := 0, dcs := c.dcs &&& 0xffffffe7#32 }
    let s := { s with dma := { s.dma with
      dirqp := s.dma.dirqp ||| bitMask ch
      dmac := s.dma.dmac &&& 0xfffffffb#32 } }
    .ok (s.raiseIrq c.dcm)

def jz4740DmaEnChannel (s : DmaState) (ch : Fin 6) : Except Fault DmaState :=
  if s.dma.Enabled then
    if (s.dma.channels ch).NonDescriptor then jz4740DmaNdrun s ch else .ok s
  else .ok s

/-! ## Descriptors -/

/-- The four words of `struct jz4740_desc_s`. -/
structure DescWords where
  dcmd : BitVec 32
  dsadr : BitVec 32
  dtadr : BitVec 32
  ddadr : BitVec 32

def loadDesc (ram : Buf) (desc : Nat) : DescWords where
  dcmd := load32 ram desc
  dsadr := load32 ram (desc + 4)
  dtadr := load32 ram (desc + 8)
  ddadr := load32 ram (desc + 12)

/-- The length of the transfer, before it is cut to 32 bits. -/
def DescWords.range (w : DescWords) : Nat :=
  (w.ddadr &&& 0xffffff#32).toNat * (jz4740DmaUnitSize w.dcmd).toNat

/-- The valid bit is asked for and missing. -/
def DescWords.Invalid (w : DescWords) : Prop :=
  w.dcmd &&& 0x8#32 ≠ 0#32 ∧ w.dcmd &&& 0x10#32 = 0#32

instance (w : DescWords) : Decidable w.Invalid := inferInstanceAs (Decidable (_ ∧ _))

theorem toNat_and_mod_of_low {n : Nat} (x mask : BitVec 32) (low : mask.toNat % 2 ^ n = 0) :
    (x &&& mask).toNat % 2 ^ n = 0 := by
  rw [BitVec.toNat_and, Nat.and_mod_two_pow, low, Nat.and_zero]

theorem nextDesc_inPage (dda dtadr : BitVec 32) :
    ((dda &&& 0xfffff000#32).toNat + ((dtadr &&& 0xff000000#32) >>> 24).toNat) % targetPageSize +
      16 ≤ targetPageSize := by
  have block : (dda &&& 0xfffff000#32).toNat % 2 ^ 12 = 0 := toNat_and_mod_of_low _ _ rfl
  have byte : ((dtadr &&& 0xff000000#32) >>> 24).toNat < 2 ^ 8 := by
    rw [BitVec.toNat_ushiftRight, Nat.shiftRight_eq_div_pow]
    exact Nat.div_lt_of_lt_mul (BitVec.isLt _)
  rw [targetPageSize]
  omega

/-- The block of `dda`, and the byte of it that the top of `dtadr` selects. -/
def nextDesc (dda dtadr : BitVec 32) : DescAddr where
  phy := (dda &&& 0xfffff000#32).toNat + ((dtadr &&& 0xff000000#32) >>> 24).toNat
  inPage := nextDesc_inPage dda dtadr

/-- `if ((desc->dcmd) & (1 << 3)) desc->dcmd &= ~(1 << 4);` -/
def DmaState.clearValid (s : DmaState) (desc : Nat) : DmaState :=
  let dcmd := load32 s.ram desc
  if dcmd &&& bitMask 3 ≠ 0#32 then
    { s with ram := store32 s.ram desc (dcmd &&& ~~~ bitMask 4) }
  else s

/-- What the loop does behind a transfer.  The descriptor is a pointer into RAM, so
its words are read afresh, and a link puts the next pass in front of the work. -/
def drunFinish (s : DmaState) (ch : Fin 6) (desc : Nat) : DmaState :=
  let s := s.clearValid desc
  let w := loadDesc s.ram desc
  let c := s.dma.channels ch
  let s := s.setChannel ch { c with
    dcs := if w.dcmd &&& 0x1#32 ≠ 0#32 then c.dcs ||| 0x2#32 else c.dcs ||| 0x8#32 }
  let s := s.raiseIrq w.dcmd
  if w.dcmd &&& 0x1#32 ≠ 0#32 then
    { s with work := .descriptor ch (nextDesc c.dda w.dtadr) :: s.work }
  else s

/-- One pass of the `while` loop. -/
def drunPass (s : DmaState) (ch : Fin 6) (desc : DescAddr) : Except Fault DmaState :=
  match ramAddr desc.phy with
  | none => .error .cpuAbort
  | some host =>
    let s := { s with log := .descriptor ch ⟨desc.phy, host, 16, 16⟩ :: s.log }
    let w := loadDesc s.ram host
    if w.Invalid then
      let c := s.dma.channels ch
      .ok (s.setChannel ch { c with dcs := c.dcs ||| bitMask 6 })
    else
      let len := (w.ddadr &&& 0xffffff#32) * jz4740DmaUnitSize w.dcmd
      match jz4740DmaTransfer s ch w.dtadr w.dsadr len w.range with
      | .error e => .error e
      | .ok s => .ok (drunFinish s ch host)

theorem aligned_inPage {phy : BitVec 32} (aligned : phy &&& 0xf#32 = 0#32) :
    phy.toNat % targetPageSize + 16 ≤ targetPageSize := by
  have low : phy.toNat % 2 ^ 4 = 0 := by
    rw [← Nat.and_two_pow_sub_one_eq_mod]
    exact congrArg BitVec.toNat aligned
  rw [targetPageSize]
  omega

/-- The loop itself is left to the passes it has been given as work. -/
def jz4740DmaDrun (s : DmaState) (ch : Fin 6) : Except Fault DmaState :=
  let phy := (s.dma.channels ch).dda
  if aligned : phy &&& 0xf#32 = 0#32 then
    let desc : DescAddr := ⟨phy.toNat, aligned_inPage aligned⟩
    .ok { s with work := .descriptor ch desc :: s.work }
  else .error .cpuAbort

/-! ## Registers -/

/-- All channels are run in turn. -/
def jz4740DmaEnGlobal (s : DmaState) : DmaState :=
  { s with work := (List.finRange 6).map .channel ++ s.work }

def jz4740DmaEnDbn (s : DmaState) (ch : Fin 6) : Except Fault DmaState :=
  if s.dma.Enabled ∧ (s.dma.channels ch).NonDescriptor then jz4740DmaDrun s ch else .ok s

/-- The channel and the register an address below the common registers selects. -/
def dmaChannelReg (addr : Nat) : Option (Fin 6 × Nat) :=
  if inside : addr / 0x20 < 6 then some (⟨addr / 0x20, inside⟩, addr % 0x20) else none

def jz4740DmaRead (s : DmaState) (addr : Nat) : Except Fault (BitVec 32) :=
  match addr with
  | 0x300 => .ok s.dma.dmac
  | 0x304 => .ok s.dma.dirqp
  | 0x308 => .ok s.dma.ddr
  | _ =>
    match dmaChannelReg addr with
    | some (ch, 0x0) => .ok (s.dma.channels ch).dsa
    | some (ch, 0x4) => .ok (s.dma.channels ch).dta
    | some (ch, 0x8) => .ok (s.dma.channels ch).dtc
    | some (ch, 0xc) => .ok (s.dma.channels ch).drs
    | some (ch, 0x10) => .ok (s.dma.channels ch).dcs
    | some (ch, 0x14) => .ok (s.dma.channels ch).dcm
    | some (ch, 0x18) => .ok (s.dma.channels ch).dda
    | _ => .error .cpuAbort

/-- The lowest channel whose bit is set. -/
def rungChannel (ddr : BitVec 32) : Option (Fin 6) :=
  (List.finRange 6).find? fun ch => ddr &&& bitMask ch ≠ 0#32

def jz4740DmaWrite (s : DmaState) (addr : Nat) (value : BitVec 32) : Except Fault DmaState :=
  match addr with
  | 0x304 => .ok s
  | 0x300 =>
    let s := { s with dma := { s.dma with dmac := value &&& 0x30d#32 } }
    .ok (if s.dma.Enabled then jz4740DmaEnGlobal s else s)
  | 0x308 | 0x30c =>
    let s := { s with dma := { s.dma with ddr := value &&& 0xff#32 } }
    match rungChannel s.dma.ddr with
    | some ch => jz4740DmaEnDbn s ch
    | none => .ok s
  | _ =>
    match dmaChannelReg addr with
    | some (ch, 0x0) => .ok (s.setChannel ch { s.dma.channels ch with dsa := value })
    | some (ch, 0x4) => .ok (s.setChannel ch { s.dma.channels ch with dta := value })
    | some (ch, 0x8) => .ok (s.setChannel ch { s.dma.channels ch with dtc := value })
    | some (ch, 0xc) =>
      .ok (s.setChannel ch { s.dma.channels ch with drs := value &&& 0x10#32 })
    | some (ch, 0x10) =>
      let s := s.setChannel ch { s.dma.channels ch with dcs := value &&& 0x80ff005f#32 }
      .ok (if (s.dma.channels ch).En then { s with work := .channel ch :: s.work } else s)
    | some (ch, 0x14) =>
      .ok (s.setChannel ch { s.dma.channels ch with dcm := value &&& 0xcff79f#32 })
    -- the value is not looked at
    | some (ch, 0x18) => .ok (s.setChannel ch { s.dma.channels ch with dda := 0xfffffff0#32 })
    | _ => .error .cpuAbort

/-- `jz4740_dma_init`: the memory `qemu_mallocz` has cleared, over any guest RAM. -/
def jz4740DmaInit (ram : Buf) : DmaState where
  dma := ⟨false, 0, 0, 0, fun _ => ⟨0, 0, 0, 0, 0, 0, 0⟩⟩
  ram := ram
  work := []
  log := []

/-! ## Steps -/

inductive DmaInput where
  | read (addr : Nat)
  | write (addr : Nat) (value : BitVec 32)
  /-- the guest stores to its RAM -/
  | store (ram : Buf)
  /-- the callback goes on with the work it has started -/
  | proceed

def dmaWork (s : DmaState) : DmaWork → Except Fault DmaState
  | .channel ch => jz4740DmaEnChannel s ch
  | .descriptor ch desc => drunPass s ch desc

/-- Only reads have an output. -/
def dmaStep (s : DmaState) (input : DmaInput) : Except Fault (DmaState × Option (BitVec 32)) :=
  match input, s.work with
  | .read addr, [] => (jz4740DmaRead s addr).map fun v => (s, some v)
  | .write addr value, [] => (jz4740DmaWrite s addr value).map (·, none)
  | .store ram, [] => .ok ({ s with ram := ram }, none)
  | .proceed, [] => .ok (s, none)
  | .proceed, todo :: rest => (dmaWork { s with work := rest } todo).map (·, none)
  | _, _ :: _ => .error .spin

abbrev dmaRun : DmaState → List DmaInput →
    Except Fault (DmaState × List (Option (BitVec 32))) :=
  StepRun.run dmaStep

/-! ## What a piece of work does -/

structure DmaMove where
  ch : Fin 6
  src : BitVec 32
  dest : BitVec 32
  range : Nat

/-- The transfer a piece of work is about to make. -/
def DmaState.transferOf (s : DmaState) : DmaWork → Option DmaMove
  | .channel ch =>
    let c := s.dma.channels ch
    if s.dma.Enabled ∧ c.NonDescriptor then some ⟨ch, c.dsa, c.dta, c.range⟩ else none
  | .descriptor ch desc =>
    (ramAddr desc.phy).bind fun host =>
      let w := loadDesc s.ram host
      if w.Invalid then none else some ⟨ch, w.dtadr, w.dsadr, w.range⟩

/-- The record of a transfer between two host addresses. -/
def DmaMove.entry (m : DmaMove) (sr de : Nat) : DmaEntry :=
  .transfer m.ch ⟨m.src.toNat, sr, m.range, m.range % 2 ^ 32⟩
    ⟨m.dest.toNat, de, m.range, m.range % 2 ^ 32⟩

/-- The record of a descriptor that has been looked up. -/
def Fetched (e : DmaEntry) : Prop :=
  ∃ (ch : Fin 6) (desc : DescAddr) (host : Nat),
    ramAddr desc.phy = some host ∧ e = .descriptor ch ⟨desc.phy, host, 16, 16⟩

/-- The control bits and addresses that no piece of work changes. -/
structure SameControl (d e : Jz4740Dma) : Prop where
  enabled : e.Enabled ↔ d.Enabled
  nonDescriptor : ∀ ch, (e.channels ch).NonDescriptor ↔ (d.channels ch).NonDescriptor
  en : ∀ ch, (e.channels ch).En ↔ (d.channels ch).En
  dsa : ∀ ch, (e.channels ch).dsa = (d.channels ch).dsa
  dta : ∀ ch, (e.channels ch).dta = (d.channels ch).dta

section Effects

variable {s t : DmaState} {ch : Fin 6} {todo : DmaWork}

/-- Only one channel is updated, and its control bits and addresses are kept. -/
theorem sameControl_of_update (ch : Fin 6) {d e : Jz4740Dma} {c : DmaChannel}
    (dmac : e.dmac &&& 0x1#32 = d.dmac &&& 0x1#32)
    (channels : e.channels = Function.update d.channels ch c)
    (nonDescriptor : c.dcs &&& bitMask 31 = (d.channels ch).dcs &&& bitMask 31)
    (en : c.dcs &&& 0x1#32 = (d.channels ch).dcs &&& 0x1#32)
    (dsa : c.dsa = (d.channels ch).dsa) (dta : c.dta = (d.channels ch).dta) :
    SameControl d e := by
  have cases : ∀ k, k = ch ∧ e.channels k = c ∨ e.channels k = d.channels k := by
    intro k
    rw [channels]
    rcases eq_or_ne k ch with rfl | apart
    · exact Or.inl ⟨rfl, Function.update_self ..⟩
    · exact Or.inr (Function.update_of_ne apart ..)
  constructor
  · rw [Jz4740Dma.Enabled, dmac, Jz4740Dma.Enabled]
  · intro k
    rcases cases k with ⟨rfl, own⟩ | other
    · rw [own, DmaChannel.NonDescriptor, nonDescriptor, DmaChannel.NonDescriptor]
    · rw [other]
  · intro k
    rcases cases k with ⟨rfl, own⟩ | other
    · rw [own, DmaChannel.En, en, DmaChannel.En]
    · rw [other]
  · intro k
    rcases cases k with ⟨rfl, own⟩ | other
    · rw [own, dsa]
    · rw [other]
  · intro k
    rcases cases k with ⟨rfl, own⟩ | other
    · rw [own, dta]
    · rw [other]

@[simp] theorem raiseIrq_dmac (cmd : BitVec 32) : (s.raiseIrq cmd).dma.dmac = s.dma.dmac := by
  unfold DmaState.raiseIrq
  split <;> rfl

@[simp] theorem raiseIrq_channels (cmd : BitVec 32) :
    (s.raiseIrq cmd).dma.channels = s.dma.channels := by
  unfold DmaState.raiseIrq
  split <;> rfl

@[simp] theorem raiseIrq_work (cmd : BitVec 32) : (s.raiseIrq cmd).work = s.work := by
  unfold DmaState.raiseIrq
  split <;> rfl

@[simp] theorem raiseIrq_log (cmd : BitVec 32) : (s.raiseIrq cmd).log = s.log := by
  unfold DmaState.raiseIrq
  split <;> rfl

@[simp] theorem clearValid_dma (desc : Nat) : (s.clearValid desc).dma = s.dma := by
  unfold DmaState.clearValid
  dsimp only
  split <;> rfl

@[simp] theorem clearValid_work (desc : Nat) : (s.clearValid desc).work = s.work := by
  unfold DmaState.clearValid
  dsimp only
  split <;> rfl

@[simp] theorem clearValid_log (desc : Nat) : (s.clearValid desc).log = s.log := by
  unfold DmaState.clearValid
  dsimp only
  split <;> rfl

theorem jz4740DmaTransfer_ok {src dest len : BitVec 32} {range : Nat}
    (done : jz4740DmaTransfer s ch src dest len range = .ok t) :
    ∃ sr de, ramAddr src.toNat = some sr ∧ ramAddr dest.toNat = some de ∧
      t = { s with
        ram := blit s.ram de (shift s.ram sr) len.toNat
        log := .transfer ch ⟨src.toNat, sr, range, len.toNat⟩ ⟨dest.toNat, de, range, len.toNat⟩ ::
          s.log } := by
  unfold jz4740DmaTransfer at done
  split at done
  · cases done
  · next sr source =>
    split at done
    · cases done
    · next de destination =>
      exact ⟨sr, de, source, destination, (Except.ok.inj done).symm⟩

/-- Neither RAM nor what tells the guest of a transfer has changed. -/
structure Quiet (s t : DmaState) : Prop where
  ram : t.ram = s.ram
  irq : t.dma.irq = s.dma.irq
  dirqp : t.dma.dirqp = s.dma.dirqp
  dtc : ∀ ch, (t.dma.channels ch).dtc = (s.dma.channels ch).dtc

/-- A piece of work makes one transfer, behind which the next descriptor of the
channel may follow, or none. -/
inductive WorkOutcome (s t : DmaState) (todo : DmaWork) : Prop
  | quiet (nothing : s.transferOf todo = none) (same : Quiet s t) (work : t.work = s.work)
    {fetched : List DmaEntry} (all : ∀ e ∈ fetched, Fetched e) (log : t.log = fetched ++ s.log)
  | moves {m : DmaMove} {sr de : Nat} (wanted : s.transferOf todo = some m)
    (source : ramAddr m.src.toNat = some sr) (destination : ramAddr m.dest.toNat = some de)
    (work : t.work = s.work ∨ ∃ ch desc desc', todo = .descriptor ch desc ∧
      t.work = .descriptor ch desc' :: s.work)
    {fetched : List DmaEntry} (all : ∀ e ∈ fetched, Fetched e)
    (log : t.log = m.entry sr de :: (fetched ++ s.log))

structure WorkEffect (s t : DmaState) (todo : DmaWork) : Prop where
  control : SameControl s.dma t.dma
  outcome : WorkOutcome s t todo

theorem jz4740DmaNdrun_effect (enabled : s.dma.Enabled)
    (nonDescriptor : (s.dma.channels ch).NonDescriptor) (done : jz4740DmaNdrun s ch = .ok t) :
    WorkEffect s t (.channel ch) := by
  unfold jz4740DmaNdrun at done
  dsimp only at done
  split at done
  · cases done
  · next u moved =>
    obtain ⟨sr, de, source, destination, rfl⟩ := jz4740DmaTransfer_ok moved
    cases done
    constructor
    · refine sameControl_of_update ch ?_ (raiseIrq_channels _) ?_ ?_ rfl rfl
      · rw [raiseIrq_dmac]
        exact BitVec.and_assoc ..
      · exact BitVec.and_assoc ..
      · exact BitVec.and_assoc ..
    · refine .moves (if_pos ⟨enabled, nonDescriptor⟩) source destination
        (Or.inl (raiseIrq_work _)) (fun e none => absurd none List.not_mem_nil) ?_
      rw [raiseIrq_log, DmaMove.entry, DmaChannel.range, ← BitVec.toNat_mul]
      rfl

theorem WorkEffect.idle (nothing : s.transferOf todo = none) : WorkEffect s s todo where
  control := ⟨Iff.rfl, fun _ => Iff.rfl, fun _ => Iff.rfl, fun _ => rfl, fun _ => rfl⟩
  outcome := .quiet nothing ⟨rfl, rfl, rfl, fun _ => rfl⟩ rfl
    (fun _ none => absurd none List.not_mem_nil) rfl

theorem jz4740DmaEnChannel_effect (done : jz4740DmaEnChannel s ch = .ok t) :
    WorkEffect s t (.channel ch) := by
  unfold jz4740DmaEnChannel at done
  split at done
  · next enabled =>
    split at done
    · next nonDescriptor => exact jz4740DmaNdrun_effect enabled nonDescriptor done
    · next descriptor =>
      cases done
      exact WorkEffect.idle (if_neg fun both => descriptor both.2)
  · next disabled =>
    cases done
    exact WorkEffect.idle (if_neg fun both => disabled both.1)

/-- A status bit that is set does not touch a bit of the mask. -/
theorem or_and_of_disjoint {x bit mask : BitVec 32} (disjoint : bit &&& mask = 0#32) :
    (x ||| bit) &&& mask = x &&& mask := by
  rw [BitVec.and_comm, BitVec.and_or_distrib_left, BitVec.and_comm mask bit, disjoint,
    BitVec.or_zero, BitVec.and_comm]

theorem drunFinish_control (desc : Nat) : SameControl s.dma (drunFinish s ch desc).dma := by
  unfold drunFinish
  dsimp only
  split <;>
  · apply sameControl_of_update ch
    case channels =>
      simp only [raiseIrq_channels, DmaState.setChannel, clearValid_dma]
      rfl
    case dmac => simp only [raiseIrq_dmac, DmaState.setChannel, clearValid_dma]
    case nonDescriptor => exact or_and_of_disjoint rfl
    case en => exact or_and_of_disjoint rfl
    case dsa => rfl
    case dta => rfl

theorem drunFinish_work (desc : Nat) : (drunFinish s ch desc).work = s.work ∨
    ∃ desc', (drunFinish s ch desc).work = .descriptor ch desc' :: s.work := by
  unfold drunFinish
  dsimp only
  split
  · refine Or.inr ⟨?_, ?_⟩
    case refine_2 =>
      simp only [raiseIrq_work, DmaState.setChannel, clearValid_work]
      rfl
  · refine Or.inl ?_
    simp only [raiseIrq_work, DmaState.setChannel, clearValid_work]

theorem drunFinish_log (desc : Nat) : (drunFinish s ch desc).log = s.log := by
  unfold drunFinish
  dsimp only
  split <;> simp only [raiseIrq_log, DmaState.setChannel, clearValid_log]

theorem drunPass_effect {desc : DescAddr} (done : drunPass s ch desc = .ok t) :
    WorkEffect s t (.descriptor ch desc) := by
  unfold drunPass at done
  split at done
  · cases done
  · next host found =>
    have fetched : ∀ e ∈ [DmaEntry.descriptor ch ⟨desc.phy, host, 16, 16⟩], Fetched e := by
      intro e mem
      rw [List.mem_singleton] at mem
      exact ⟨ch, desc, host, found, mem⟩
    dsimp only at done
    split at done
    · next invalid =>
      cases done
      refine ⟨?_, .quiet ?_ ⟨rfl, rfl, rfl, fun k => ?_⟩ rfl fetched rfl⟩
      · refine sameControl_of_update ch rfl rfl ?_ ?_ rfl rfl
        · exact or_and_of_disjoint rfl
        · exact or_and_of_disjoint rfl
      · simp only [DmaState.transferOf, found, Option.bind_some, if_pos invalid]
      · rcases eq_or_ne k ch with rfl | apart
        · simp only [DmaState.setChannel, Function.update_self]
        · simp only [DmaState.setChannel, Function.update_of_ne apart]
    · next valid =>
      split at done
      · cases done
      · next u moved =>
        obtain ⟨sr, de, source, destination, same⟩ := jz4740DmaTransfer_ok moved
        cases done
        have dma : u.dma = s.dma := by rw [same]
        have work : u.work = s.work := by rw [same]
        have wanted : s.transferOf (.descriptor ch desc) = some ⟨ch, (loadDesc s.ram host).dtadr,
            (loadDesc s.ram host).dsadr, (loadDesc s.ram host).range⟩ := by
          simp only [DmaState.transferOf, found, Option.bind_some, if_neg valid]
        refine ⟨dma ▸ drunFinish_control host, .moves wanted source destination ?_ fetched ?_⟩
        · rw [← work]
          exact (drunFinish_work host).imp_right fun ⟨desc', pushed⟩ =>
            ⟨ch, desc, desc', rfl, pushed⟩
        · rw [drunFinish_log, same, DmaMove.entry, DescWords.range, ← BitVec.toNat_mul]
          rfl

theorem dmaWork_effect (done : dmaWork s todo = .ok t) : WorkEffect s t todo := by
  cases todo with
  | channel ch => exact jz4740DmaEnChannel_effect done
  | descriptor ch desc => exact drunPass_effect done

/-- Once both addresses have been found in RAM, nothing stops a transfer. -/
theorem dmaWork_ok {m : DmaMove} {sr de : Nat} (wanted : s.transferOf todo = some m)
    (source : ramAddr m.src.toNat = some sr) (destination : ramAddr m.dest.toNat = some de) :
    ∃ t, dmaWork s todo = .ok t := by
  have moves : ∀ (u : DmaState) (ch : Fin 6) (len : BitVec 32) (range : Nat),
      ∃ t, jz4740DmaTransfer u ch m.src m.dest len range = .ok t := by
    intro u ch len range
    simp only [jz4740DmaTransfer, source, destination]
    exact ⟨_, rfl⟩
  cases todo with
  | channel ch =>
    simp only [DmaState.transferOf] at wanted
    split at wanted
    · next runs =>
      cases wanted
      obtain ⟨u, moved⟩ := moves s ch
        (jz4740DmaUnitSize (s.dma.channels ch).dcs * (s.dma.channels ch).dtc)
        (s.dma.channels ch).range
      simp only [dmaWork, jz4740DmaEnChannel, if_pos runs.1, if_pos runs.2, jz4740DmaNdrun, moved]
      exact ⟨_, rfl⟩
    · cases wanted
  | descriptor ch desc =>
    cases found : ramAddr desc.phy with
    | none =>
      rw [DmaState.transferOf, found] at wanted
      cases wanted
    | some host =>
      simp only [DmaState.transferOf, found, Option.bind_some] at wanted
      split at wanted
      · cases wanted
      · next valid =>
        cases wanted
        obtain ⟨u, moved⟩ := moves
          { s with log := .descriptor ch ⟨desc.phy, host, 16, 16⟩ :: s.log } ch
          (((loadDesc s.ram host).ddadr &&& 0xffffff#32) *
            jz4740DmaUnitSize (loadDesc s.ram host).dcmd) (loadDesc s.ram host).range
        simp only [dmaWork, drunPass, found, if_neg valid, moved]
        exact ⟨_, rfl⟩

/-- What a step can be. -/
inductive DmaStepCase (s t : DmaState) : DmaInput → Prop
  | work {todo : DmaWork} {rest : List DmaWork} (next : s.work = todo :: rest)
    (done : dmaWork { s with work := rest } todo = .ok t) : DmaStepCase s t .proceed
  | idle (none : s.work = []) (same : t = s) : DmaStepCase s t .proceed
  | read {addr : Nat} (none : s.work = []) (same : t = s) : DmaStepCase s t (.read addr)
  | store {ram : Buf} (none : s.work = []) (same : t = { s with ram := ram }) :
    DmaStepCase s t (.store ram)
  | write {addr : Nat} {value : BitVec 32} (none : s.work = [])
    (done : jz4740DmaWrite s addr value = .ok t) : DmaStepCase s t (.write addr value)

theorem dmaStep_case {input : DmaInput} {out : Option (BitVec 32)}
    (done : dmaStep s input = .ok (t, out)) : DmaStepCase s t input := by
  unfold dmaStep at done
  split at done
  · next addr none =>
    obtain ⟨v, -, same⟩ := StepRun.of_map_eq_ok done
    cases same
    exact .read none rfl
  · next addr value none =>
    obtain ⟨u, written, same⟩ := StepRun.of_map_eq_ok done
    cases same
    exact .write none written
  · next ram none =>
    cases done
    exact .store none rfl
  · next none =>
    cases done
    exact .idle none rfl
  · next todo rest next =>
    obtain ⟨u, worked, same⟩ := StepRun.of_map_eq_ok done
    cases same
    exact .work next worked
  · cases done

theorem dmaStep_proceed {rest : List DmaWork} (next : s.work = todo :: rest) :
    dmaStep s .proceed = (dmaWork { s with work := rest } todo).map (·, none) := by
  simp only [dmaStep, next]

/-- What a write can be: three registers start work, and the others only hold
their value. -/
inductive DmaWriteCase (s t : DmaState) (addr : Nat) (value : BitVec 32) : Prop
  | holds (work : t.work = s.work)
  | dmac (place : addr = 0x300) (enables : value &&& 0x1#32 ≠ 0#32)
    (channels : t.dma.channels = s.dma.channels)
    (work : t.work = (List.finRange 6).map .channel ++ s.work)
  | doorbell (place : addr = 0x308 ∨ addr = 0x30c) {ch : Fin 6}
    (rung : rungChannel (value &&& 0xff#32) = some ch) (enabled : s.dma.Enabled)
    (nonDescriptor : (s.dma.channels ch).NonDescriptor) {desc : DescAddr}
    (aligned : (s.dma.channels ch).dda &&& 0xf#32 = 0#32)
    (phy : desc.phy = (s.dma.channels ch).dda.toNat)
    (same : t = { s with
      dma := { s.dma with ddr := value &&& 0xff#32 }, work := .descriptor ch desc :: s.work })
  | dcs {ch : Fin 6} (place : dmaChannelReg addr = some (ch, 0x10))
    (en : value &&& 0x1#32 ≠ 0#32) (own : (t.dma.channels ch).En)
    (work : t.work = .channel ch :: s.work)

theorem jz4740DmaEnDbn_case {addr : Nat} {value : BitVec 32}
    (place : addr = 0x308 ∨ addr = 0x30c) (rung : rungChannel (value &&& 0xff#32) = some ch)
    (done : jz4740DmaEnDbn { s with dma := { s.dma with ddr := value &&& 0xff#32 } } ch = .ok t) :
    DmaWriteCase s t addr value := by
  unfold jz4740DmaEnDbn at done
  split at done
  · next on =>
    unfold jz4740DmaDrun at done
    dsimp only at done
    split at done
    · next aligned =>
      cases done
      exact .doorbell place rung on.1 on.2 aligned rfl rfl
    · cases done
  · cases done
    exact .holds rfl

theorem jz4740DmaWrite_case {addr : Nat} {value : BitVec 32}
    (done : jz4740DmaWrite s addr value = .ok t) : DmaWriteCase s t addr value := by
  unfold jz4740DmaWrite at done
  dsimp only at done
  split at done
  · cases done
    exact .holds rfl
  · cases done
    split
    · next enabled =>
      refine .dmac rfl (fun off => enabled ?_) rfl rfl
      rw [BitVec.and_assoc]
      exact off
    · exact .holds rfl
  · split at done
    · next rung => exact jz4740DmaEnDbn_case (Or.inl rfl) rung done
    · cases done
      exact .holds rfl
  · split at done
    · next rung => exact jz4740DmaEnDbn_case (Or.inr rfl) rung done
    · cases done
      exact .holds rfl
  · split at done
    case h_5 ch place =>
      cases done
      split
      · next en =>
        refine .dcs place (fun off => en ?_) en rfl
        simp only [DmaState.setChannel, Function.update_self, BitVec.and_assoc]
        exact off
      · exact .holds rfl
    case h_8 => cases done
    all_goals
      cases done
      exact .holds rfl

/-- Only work adds to the record. -/
theorem jz4740DmaWrite_log {addr : Nat} {value : BitVec 32}
    (done : jz4740DmaWrite s addr value = .ok t) : t.log = s.log := by
  have rung : ∀ {u : DmaState} {ch : Fin 6}, jz4740DmaEnDbn u ch = .ok t → t.log = u.log := by
    intro u ch done
    unfold jz4740DmaEnDbn jz4740DmaDrun at done
    dsimp only at done
    split at done
    · split at done
      · cases done
        rfl
      · cases done
    · cases done
      rfl
  unfold jz4740DmaWrite at done
  dsimp only at done
  split at done
  · cases done
    rfl
  · cases done
    split <;> rfl
  · split at done
    · exact (rung done).trans rfl
    · cases done
      rfl
  · split at done
    · exact (rung done).trans rfl
    · cases done
      rfl
  · split at done
    case h_5 =>
      cases done
      split <;> rfl
    case h_8 => cases done
    all_goals
      cases done
      rfl

end Effects

end VirtualNoah
