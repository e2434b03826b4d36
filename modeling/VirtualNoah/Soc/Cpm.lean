import VirtualNoah.Clock.Params

/-!
# Clock reset and power control

The CPM registers and the clock tree they control.  `jz4740_cpm_reset` sets the
registers only, so the tree `jz_clk_init` leaves is not the one they describe; a
write of CPCCR, I2SCDR or MSCCDR repeats what the register holds without touching
the tree.
-/

namespace VirtualNoah

open StepRun

inductive ClkName where
  | oscExtal | lcdPclk | osc32K | pllOutput | pllDivider | cclk | pclk | hclk | mclk | ldclk
  | lpclk | i2sclk | mscclk | usbclk | ssiclk
  deriving DecidableEq

/-- `onchip_clks`; `lcd_pclk` has no flags yet and belongs to no SoC. -/
def onchipClks : List (Clk ClkName) :=
  let root : Clk ClkName := { Clk.zero with flags := alwaysEnabled ||| clockInJz4740 }
  let below (name : ClkName) (i : Nat) : Clk ClkName :=
    { root with name := some name, parent := some (.onchip i) }
  [{ root with name := some .oscExtal, rate := 12000000 },
   { Clk.zero with name := some .lcdPclk },
   { root with name := some .osc32K, rate := 32768 },
   below .pllOutput 0,
   below .pllDivider 3,
   below .cclk 3,
   below .pclk 3,
   below .hclk 3,
   below .mclk 3,
   below .ldclk 4,
   below .lpclk 4,
   below .i2sclk 4,
   below .mscclk 4,
   below .usbclk 4,
   below .ssiclk 4]

structure Jz4740Cpm where
  soc : JzClks ClkName
  cpccr : BitVec 32
  cppcr : BitVec 32
  i2scdr : BitVec 32
  lpcdr : BitVec 32
  msccdr : BitVec 32
  uhccdr : BitVec 32
  uhctst : BitVec 32
  ssicdr : BitVec 32
  lcr : BitVec 32
  clkgr : BitVec 32
  scr : BitVec 32

/-! ## Register fields -/

def cpccrI2cs : BitVec 32 := bitMask 31
def cpccrUcs : BitVec 32 := bitMask 29
def cpccrPcs : BitVec 32 := bitMask 21
def cpccrUdiv (v : BitVec 32) : BitVec 32 := (v &&& (0x3f#32 <<< 23)) >>> 23
def cpccrLdiv (v : BitVec 32) : BitVec 32 := (v &&& (0x1f#32 <<< 16)) >>> 16
def cpccrMdiv (v : BitVec 32) : BitVec 32 := (v &&& (0x0f#32 <<< 12)) >>> 12
def cpccrPdiv (v : BitVec 32) : BitVec 32 := (v &&& (0x0f#32 <<< 8)) >>> 8
def cpccrHdiv (v : BitVec 32) : BitVec 32 := (v &&& (0x0f#32 <<< 4)) >>> 4
def cpccrCdiv (v : BitVec 32) : BitVec 32 := (v &&& (0x0f#32 <<< 0)) >>> 0
def i2scdrI2sdivMask : BitVec 32 := 0x1ff#32
def lpcdrPixdivMask : BitVec 32 := 0x1ff#32
def msccdrMscdivMask : BitVec 32 := 0x1f#32
def cppcrPllm (v : BitVec 32) : BitVec 32 := (v &&& (0x1ff#32 <<< 23)) >>> 23
def cppcrPlln (v : BitVec 32) : BitVec 32 := (v &&& (0x1f#32 <<< 18)) >>> 18
def cppcrPllod (v : BitVec 32) : BitVec 32 := (v &&& (0x03#32 <<< 16)) >>> 16
def cppcrPlls : BitVec 32 := bitMask 10
def cppcrPllbp : BitVec 32 := bitMask 9
def cppcrPllen : BitVec 32 := bitMask 8

/-- `div_table` of `jz4740_cpccr_update` -/
def divTable : List (BitVec 32) := [1, 2, 3, 4, 6, 8, 12, 16, 24, 32]

/-- `pll0` of `jz4740_cppcr_update` -/
def pll0 : List (BitVec 32) := [1, 2, 2, 4]

def readTable (table : List (BitVec 32)) (i : BitVec 32) : Except Fault (BitVec 32) :=
  match table[i.toNat]? with
  | some x => .ok x
  | none => .error .outOfBounds

/-! ## The registers and the tree -/

/-- The walk of `jz4740_dump_clocks` prints nothing. -/
def jz4740DumpClocksFrom {ν : Type} : Nat → ClkHeap ν → Option ClkPtr → Except Fault Unit
  | 0, _, _ => .error .spin
  | _ + 1, _, none => .ok ()
  | fuel + 1, h, some i => do
    jz4740DumpClocksFrom fuel h (h i).child1
    jz4740DumpClocksFrom fuel h (h i).sibling

def jz4740DumpClocks {ν : Type} (fuel : Nat) (h : ClkHeap ν) (parent : ClkPtr) :
    Except Fault Unit :=
  jz4740DumpClocksFrom fuel h (h parent).child1

/-- `jz_clk_setrate(jz_findclk(soc, name), divide, multiply)` -/
def setrateNamed (fuel : Nat) (soc : JzClks ClkName) (name : ClkName)
    (divide multiply : BitVec 32) : Except Fault (JzClks ClkName) := do
  let clk ← jzFindclk soc name
  clkStep fuel soc (.setrate clk divide multiply)

/-- `jz_clk_reparent(jz_findclk(soc, name), jz_findclk(soc, parent))` -/
def reparentNamed (fuel : Nat) (soc : JzClks ClkName) (name parent : ClkName) :
    Except Fault (JzClks ClkName) := do
  let clk ← jzFindclk soc name
  let p ← jzFindclk soc parent
  clkStep fuel soc (.reparent clk (some p))

/-- `jz4740_dump_clocks(jz_findclk(soc, "osc_extal"))` -/
def dumpNamed (fuel : Nat) (soc : JzClks ClkName) : Except Fault Unit := do
  let osc ← jzFindclk soc .oscExtal
  jz4740DumpClocks fuel soc.heap osc

def jz4740CpccrUpdate (fuel : Nat) (s : Jz4740Cpm) (newValue : BitVec 32) :
    Except Fault Jz4740Cpm :=
  if newValue = s.cpccr then .ok s
  else do
    let soc ← (if newValue &&& cpccrPcs ≠ 0#32 then setrateNamed fuel s.soc .pllDivider 1 1
      else setrateNamed fuel s.soc .pllDivider 2 1)
    let ldiv := cpccrLdiv newValue + 1
    let mdiv ← readTable divTable (cpccrMdiv newValue)
    let pdiv ← readTable divTable (cpccrPdiv newValue)
    let hdiv ← readTable divTable (cpccrHdiv newValue)
    let cdiv ← readTable divTable (cpccrCdiv newValue)
    let udiv ← readTable divTable (cpccrUdiv newValue)
    let soc ← setrateNamed fuel soc .ldclk ldiv 1
    let soc ← setrateNamed fuel soc .mclk mdiv 1
    let soc ← setrateNamed fuel soc .pclk pdiv 1
    let soc ← setrateNamed fuel soc .hclk hdiv 1
    let soc ← setrateNamed fuel soc .cclk cdiv 1
    let soc ← setrateNamed fuel soc .usbclk udiv 1
    let soc ← (if newValue &&& cpccrUcs ≠ 0#32 then reparentNamed fuel soc .usbclk .pllDivider
      else reparentNamed fuel soc .usbclk .oscExtal)
    let soc ← (if newValue &&& cpccrI2cs ≠ 0#32 then reparentNamed fuel soc .i2sclk .pllDivider
      else reparentNamed fuel soc .i2sclk .oscExtal)
    dumpNamed fuel soc
    return { s with soc := soc, cpccr := newValue }

def jz4740CppcrUpdate (fuel : Nat) (s : Jz4740Cpm) (newValue : BitVec 32) :
    Except Fault Jz4740Cpm :=
  let pllen := newValue &&& cppcrPllen
  let pllbp := newValue &&& cppcrPllbp
  if pllen = 0#32 ∨ pllen ≠ 0#32 ∧ pllbp ≠ 0#32 then do
    let soc ← setrateNamed fuel s.soc .pllOutput 1 1
    return { s with soc := soc, cppcr := newValue ||| cppcrPlls }
  else do
    let pllm := cppcrPllm newValue
    let plln := cppcrPlln newValue
    let od ← readTable pll0 (cppcrPllod newValue)
    let soc ← setrateNamed fuel s.soc .pllOutput ((plln + 2) * od) (pllm + 2)
    dumpNamed fuel soc
    return { s with soc := soc, cppcr := newValue }

/-- A divider register with a clock of its own. -/
def cdrUpdate (fuel : Nat) (s : Jz4740Cpm) (clk : ClkName) (held value : BitVec 32)
    (store : JzClks ClkName → Jz4740Cpm) : Except Fault Jz4740Cpm :=
  if value = held then .ok s
  else do
    let soc ← setrateNamed fuel s.soc clk (value + 1) 1
    dumpNamed fuel soc
    return store soc

def jz4740I2scdrUpdate (fuel : Nat) (s : Jz4740Cpm) (newValue : BitVec 32) :
    Except Fault Jz4740Cpm :=
  let i2scdr := newValue &&& i2scdrI2sdivMask
  cdrUpdate fuel s .i2sclk s.i2scdr i2scdr fun soc => { s with soc := soc, i2scdr := i2scdr }

def jz4740LpcdrUpdate (s : Jz4740Cpm) (newValue : BitVec 32) : Jz4740Cpm :=
  { s with lpcdr := newValue &&& lpcdrPixdivMask }

def jz4740MsccdrUpdate (fuel : Nat) (s : Jz4740Cpm) (newValue : BitVec 32) :
    Except Fault Jz4740Cpm :=
  let msccdr := newValue &&& msccdrMscdivMask
  cdrUpdate fuel s .mscclk s.msccdr msccdr fun soc => { s with soc := soc, msccdr := msccdr }

def jz4740UhccdrUpdate (s : Jz4740Cpm) (newValue : BitVec 32) : Jz4740Cpm :=
  { s with uhccdr := newValue &&& 0xf }

def jz4740CpmWrite (fuel : Nat) (s : Jz4740Cpm) (addr : Nat) (value : BitVec 32) :
    Except Fault Jz4740Cpm :=
  match addr with
  | 0x0 => jz4740CpccrUpdate fuel s value
  | 0x4 => .ok { s with lcr := value &&& 0xff }
  | 0x20 => .ok { s with clkgr := value &&& 0xffff }
  | 0x24 => .ok { s with scr := value &&& 0xffff }
  | 0x10 => jz4740CppcrUpdate fuel s value
  | 0x60 => jz4740I2scdrUpdate fuel s value
  | 0x64 => .ok (jz4740LpcdrUpdate s value)
  | 0x68 => jz4740MsccdrUpdate fuel s value
  | 0x6c => .ok (jz4740UhccdrUpdate s value)
  | 0x70 => .ok { s with uhctst := value &&& 0x3f }
  | 0x74 => .ok { s with ssicdr := value &&& 0xf }
  | _ => .error .cpuAbort

def jz474CpmRead (s : Jz4740Cpm) (addr : Nat) : Except Fault (BitVec 32) :=
  match addr with
  | 0x0 => .ok s.cpccr
  | 0x4 => .ok s.lcr
  | 0x20 => .ok s.clkgr
  | 0x24 => .ok s.scr
  | 0x10 => .ok s.cppcr
  | 0x60 => .ok s.i2scdr
  | 0x64 => .ok s.lpcdr
  | 0x68 => .ok s.msccdr
  | 0x6c => .ok s.uhccdr
  | 0x70 => .ok s.uhctst
  | 0x74 => .ok s.ssicdr
  | _ => .error .cpuAbort

/-- `jz4740_cpm_reset` on a new `jz4740_cpm_s` -/
def jz4740CpmReset (soc : JzClks ClkName) : Jz4740Cpm where
  soc := soc
  cpccr := 0x42040000
  cppcr := 0x28080011
  i2scdr := 0x00000004
  lpcdr := 0x00000004
  msccdr := 0x00000004
  uhccdr := 0x00000004
  uhctst := 0x0
  ssicdr := 0x00000004
  lcr := 0xf8
  clkgr := 0x0
  scr := 0x1500

/-- What `jz4740_init` makes of the clocks and the CPM. -/
def jz4740Init (fuel : Nat) (oscExtalFreq : BitVec 32) : Except Fault Jz4740Cpm :=
  (jzClkInit fuel clockInJz4740 onchipClks 0 oscExtalFreq).map jz4740CpmReset

/-- A 32-bit access of the guest. -/
inductive CpmAccess where
  | read (addr : Nat)
  | write (addr : Nat) (value : BitVec 32)
  deriving DecidableEq

def cpmStep (fuel : Nat) (s : Jz4740Cpm) : CpmAccess →
    Except Fault (Jz4740Cpm × Option (BitVec 32))
  | .read addr => (jz474CpmRead s addr).map fun v => (s, some v)
  | .write addr value => (jz4740CpmWrite fuel s addr value).map (·, none)

abbrev cpmRun (fuel : Nat) : Jz4740Cpm → List CpmAccess →
    Except Fault (Jz4740Cpm × List (Option (BitVec 32))) :=
  StepRun.run (cpmStep fuel)

end VirtualNoah
