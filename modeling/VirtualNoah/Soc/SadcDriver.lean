import VirtualNoah.Lib.Outcome
import VirtualNoah.Soc.TouchSamples

/-!
# The SADC under its driver

What a guest access leaves in the registers, and when a pen event raises the
interrupt.  The driver stores its times, sets bits of ADCTRL to mask interrupts
and clears them to have them; the emulator stores ADWAIT in ADSDAT and takes the
bits of ADCTRL for enables.
-/

namespace VirtualNoah

open StepRun Outcome

/-! ## What a register holds -/

/-- The registers the read handlers serve. -/
inductive SadcRegister where
  | adena | adcfg | adctrl | adstate | adsame | adwait | adtch | adbdat | adsdat
  deriving DecidableEq

def SadcRegister.width : SadcRegister → Width
  | .adena | .adctrl | .adstate => .byte
  | .adsame | .adwait | .adbdat | .adsdat => .half
  | .adcfg | .adtch => .word

def SadcRegister.offset : SadcRegister → Nat
  | .adena => 0x0
  | .adcfg => 0x4
  | .adctrl => 0x8
  | .adstate => 0xc
  | .adsame => 0x10
  | .adwait => 0x14
  | .adtch => 0x18
  | .adbdat => 0x1c
  | .adsdat => 0x20

def SadcRegister.read (r : SadcRegister) (s : Jz4740Sadc) :
    Except Fault (Jz4740Sadc × BitVec 32) :=
  sadcRead s r.offset r.width

def SadcRegister.write (r : SadcRegister) (s : Jz4740Sadc) (v : BitVec 32) :
    Except Fault Jz4740Sadc :=
  sadcWrite s r.offset v r.width

/-- What a read of the register delivers. -/
def SadcRegister.value (r : SadcRegister) (s : Jz4740Sadc) : Except Fault (BitVec 32) :=
  (r.read s).map Prod.snd

/-- What a write is to leave: the implemented bits in a control register, nothing in a
data register.  ADTCH and ADSTATE are not said to hold anything. -/
def SadcRegister.held (v : BitVec 32) : SadcRegister → Option (BitVec 32)
  | .adena => some (v &&& 0x7#32)
  | .adctrl => some (v &&& 0x1f#32)
  | .adsame | .adwait => some (v &&& 0xffff#32)
  | .adcfg => some (v &&& 0xc007ffff#32)
  | .adbdat | .adsdat => some 0#32
  | .adtch | .adstate => none

/-- The register holds what was written, and no other one reads differently. -/
structure Held (r : SadcRegister) (v : BitVec 32) (s t : Jz4740Sadc) : Prop where
  held : ∀ u, r.held v = some u → r.value t = .ok u
  others : ∀ q, q ≠ r → q.value t = q.value s

/-- ADWAIT is not stored, and what is written to it goes to ADSDAT; the data registers
and ADTCH cannot be written. -/
def Holds (s : Jz4740Sadc) (v : BitVec 32) : SadcRegister → Prop
  | .adwait => s.adwait = v &&& 0xffff#32 ∧ s.adsdat = v &&& 0xffff#32
  | .adbdat | .adsdat | .adtch => False
  | _ => True

section Registers

variable {r q : SadcRegister} {s : Jz4740Sadc} {v u : BitVec 32}

/-- The fields the read handlers deliver. -/
def SadcRegister.contents (s : Jz4740Sadc) : SadcRegister → BitVec 32
  | .adena => s.adena
  | .adcfg => s.adcfg
  | .adctrl => s.adctrl
  | .adstate => s.adstate
  | .adsame => s.adsame
  | .adwait => s.adwait
  | .adtch => if s.readIndex = 0#8 then positionWord s else 0x3fff
  | .adbdat => s.adbdat
  | .adsdat => s.adsdat

theorem SadcRegister.value_eq (r : SadcRegister) (s : Jz4740Sadc) :
    r.value s = .ok (r.contents s) := by
  cases r with
  | adtch =>
    simp only [SadcRegister.value, SadcRegister.read, sadcRead, SadcRegister.offset,
      SadcRegister.width, sdacRead32_adtch, SadcRegister.contents, Except.map]
    split
    · rfl
    · rfl
  | _ => rfl

theorem SadcRegister.value_eq_iff : r.value s = .ok u ↔ r.contents s = u := by
  rw [SadcRegister.value_eq, Except.ok.injEq]

/-- A write that is kept in the field of its register. -/
theorem exists_held {t : Jz4740Sadc} (done : r.write s v = .ok t)
    (held : r.held v = some (r.contents t))
    (others : ∀ q, q ≠ r → q.contents t = q.contents s) :
    ∃ t, r.write s v = .ok t ∧ Held r v s t := by
  refine ⟨t, done, ⟨fun u same => ?_, fun q ne => ?_⟩⟩
  · exact SadcRegister.value_eq_iff.mpr (Option.some.inj (held.symm.trans same))
  · rw [SadcRegister.value_eq, SadcRegister.value_eq, others q ne]

theorem not_exists_held (aborts : r.write s v = .error .cpuAbort) :
    ¬ ∃ t, r.write s v = .ok t ∧ Held r v s t := by
  rintro ⟨t, done, -⟩
  cases aborts.symm.trans done

/-- The write of ADWAIT puts the value into ADSDAT. -/
theorem adwait_held_iff (s : Jz4740Sadc) (v : BitVec 32) :
    (∃ t, SadcRegister.adwait.write s v = .ok t ∧ Held .adwait v s t) ↔
      s.adwait = v &&& 0xffff#32 ∧ s.adsdat = v &&& 0xffff#32 := by
  have done : SadcRegister.adwait.write s v = .ok { s with adsdat := v &&& 0xffff#32 } := rfl
  constructor
  · rintro ⟨t, written, held, others⟩
    cases done.symm.trans written
    have data := others .adsdat nofun
    rw [SadcRegister.value_eq, SadcRegister.value_eq, Except.ok.injEq] at data
    exact ⟨SadcRegister.value_eq_iff.mp (held _ rfl), data.symm⟩
  · rintro ⟨wait, data⟩
    refine exists_held done (congrArg some wait.symm) fun q ne => ?_
    cases q with
    | adsdat => exact data.symm
    | _ => rfl

/-- Over every state and value: a write to a register does not abort, and is held there
and nowhere else, exactly when the register is not one of those. -/
theorem sadc_registers_hold_iff (s : Jz4740Sadc) (v : BitVec 32) (other : r ≠ .adstate) :
    (∃ t, r.write s v = .ok t ∧ Held r v s t) ↔ Holds s v r := by
  cases r with
  | adwait => exact adwait_held_iff s v
  | adbdat | adsdat | adtch => exact iff_of_false (not_exists_held rfl) id
  | adstate => exact absurd rfl other
  | _ =>
    refine iff_of_true (exists_held rfl rfl fun q ne => ?_) trivial
    cases q with
    | _ => first | rfl | exact absurd rfl ne

/-- What the driver stores in WAITTIME when it starts. -/
theorem adwait_not_held :
    ¬ ∃ t, SadcRegister.adwait.write jz4740SadcInit 2 = .ok t ∧ Held .adwait 2 jz4740SadcInit t :=
  fun held => nomatch ((adwait_held_iff _ _).mp held).1

theorem adctrl_held : ∃ t, SadcRegister.adctrl.write jz4740SadcInit 0xf = .ok t ∧
    Held .adctrl 0xf jz4740SadcInit t :=
  (sadc_registers_hold_iff (r := .adctrl) jz4740SadcInit 0xf nofun).mpr trivial

end Registers

/-! ## The driver and the interrupt masks -/

/-- The bits that ADCTRL masks and ADSTATE reports. -/
inductive SadcFlag where
  | pend | penu | tsrdy | pbatrdy | srdy
  deriving DecidableEq

def SadcFlag.bit : SadcFlag → Nat
  | .pend => 4
  | .penu => 3
  | .tsrdy => 2
  | .pbatrdy => 1
  | .srdy => 0

/-- `SADC_STATE_PEND` and so on, and `SADC_CTRL_PENDM` and so on. -/
def SadcFlag.mask (f : SadcFlag) : BitVec 32 := bitMask f.bit

/-- What a register of the width keeps of a value. -/
def Width.truncate : Width → BitVec 32 → BitVec 32
  | .byte => fun v => v &&& 0xff#32
  | .half => fun v => v &&& 0xffff#32
  | .word => id

/-- `REG |= v` and `REG &= v` -/
def SadcRegister.modify (r : SadcRegister) (f : BitVec 32 → BitVec 32) (s : Jz4740Sadc) :
    Except Fault Jz4740Sadc := do
  let (s, v) ← r.read s
  r.write s (r.width.truncate (f (r.width.truncate v)))

def startSadcin (s : Jz4740Sadc) : Except Fault Jz4740Sadc := do
  let s ← SadcRegister.adctrl.modify (· &&& ~~~SadcFlag.srdy.mask) s
  SadcRegister.adena.modify (· ||| 0x1#32) s

def startTsAdc (s : Jz4740Sadc) : Except Fault Jz4740Sadc := do
  let s ← SadcRegister.adsame.write s 10
  let s ← SadcRegister.adwait.write s 2
  let s ← SadcRegister.adcfg.modify (· &&& ~~~(0x8000#32 ||| 0x6000#32 ||| 0x1c00#32)) s
  let s ← SadcRegister.adcfg.modify (· ||| (0x40000000#32 ||| 0x2000#32 ||| 0x800#32)) s
  let s ← SadcRegister.adctrl.modify (· ||| (SadcFlag.tsrdy.mask ||| SadcFlag.pbatrdy.mask |||
    SadcFlag.penu.mask ||| SadcFlag.srdy.mask)) s
  let s ← SadcRegister.adctrl.modify (· &&& ~~~SadcFlag.pend.mask) s
  SadcRegister.adena.modify (· ||| 0x4#32) s

def tsEnableIrq (s : Jz4740Sadc) : Except Fault Jz4740Sadc :=
  SadcRegister.adctrl.modify (· &&& ~~~SadcFlag.pend.mask) s

def tsDisableIrq (s : Jz4740Sadc) : Except Fault Jz4740Sadc :=
  SadcRegister.adctrl.modify (· ||| (SadcFlag.pend.mask ||| SadcFlag.penu.mask)) s

def tsDataReady (s : Jz4740Sadc) : Except Fault Jz4740Sadc :=
  SadcRegister.adctrl.modify (· ||| SadcFlag.tsrdy.mask) s

/-- The test of `ts_irq_callback`: a flag that is reported and not masked. -/
def flagPending (f : SadcFlag) (s : Jz4740Sadc) : Except Fault Bool := do
  let (s, ctrl) ← SadcRegister.adctrl.read s
  if ctrl &&& f.mask = 0#32 then do
    let (_, state) ← SadcRegister.adstate.read s
    .ok (decide (state &&& f.mask ≠ 0#32))
  else .ok false

/-- The first test of `ts_irq_callback`; the pen is down after it. -/
def callbackPenDown (p : Bool) (s : Jz4740Sadc) : Except Fault (Bool × Jz4740Sadc) := do
  if ← flagPending .pend s then do
    let s ← SadcRegister.adstate.write s SadcFlag.pend.mask
    let s ← SadcRegister.adstate.write s SadcFlag.penu.mask
    let s ← SadcRegister.adctrl.modify (· ||| SadcFlag.pend.mask) s
    let s ← SadcRegister.adctrl.modify (· &&& ~~~SadcFlag.penu.mask) s
    .ok (true, s)
  else .ok (p, s)

def callbackPenUp (p : Bool) (s : Jz4740Sadc) : Except Fault (Bool × Jz4740Sadc) := do
  if ← flagPending .penu s then do
    let s ← SadcRegister.adstate.write s SadcFlag.penu.mask
    let s ← SadcRegister.adctrl.modify (· ||| SadcFlag.penu.mask) s
    let s ← SadcRegister.adctrl.modify (· &&& ~~~SadcFlag.pend.mask) s
    .ok (false, s)
  else .ok (p, s)

/-- `p` is what `PenIsDown` returns. -/
def tsIrqCallback (p : Bool) (s : Jz4740Sadc) : Except Fault (Bool × Jz4740Sadc) := do
  let (s, _) ← SadcRegister.adstate.read s
  let (p, s) ← callbackPenDown p s
  callbackPenUp p s

/-- `jz4740_adc_read` from where it is woken on. -/
def adcReadWoken (s : Jz4740Sadc) : Except Fault (Jz4740Sadc × DataSource) := do
  let (s, xybuf) ← jz4740SdacRead32 s 0x18
  let (s, z) ← jz4740SdacRead32 s 0x18
  let state ← jz4740SadcRead8 s 0xc
  let s ← jz4740SadcWrite8 s 0xc ((state.setWidth 8 &&& ~~~sadcStateTsrdy).setWidth 32)
  .ok (s, {
    xbuf := ((xybuf >>> 16) &&& 0xfff#32).setWidth 16
    ybuf := (xybuf &&& 0xfff#32).setWidth 16
    zbuf := (z &&& 0xfff#32).setWidth 16 })

/-- The two parts are all of `jz4740_adc_read`. -/
theorem jz4740AdcRead_eq (sleepOn : Jz4740Sadc → Jz4740Sadc) (s : Jz4740Sadc) :
    jz4740AdcRead sleepOn s = sleepUnlessReady sleepOn s >>= adcReadWoken := rfl

/-- The functions of the driver that write ADCTRL, and the rest of those they belong to.
Between the two parts of `jz4740_adc_read` the driver sleeps. -/
inductive DriverCall where
  | startSadcin | startTsAdc | adcReadSleep | adcReadWoken
  | tsEnableIrq | tsDisableIrq | tsDataReady | tsIrqCallback

/-- The device, and the pen as the driver has it. -/
structure TouchState where
  sadc : Jz4740Sadc
  p : Bool

def driverCall (w : TouchState) : DriverCall → Except Fault TouchState
  | .startSadcin => (startSadcin w.sadc).map ({ w with sadc := · })
  | .startTsAdc => (startTsAdc w.sadc).map ({ w with sadc := · })
  | .adcReadSleep => (sleepUnlessReady id w.sadc).map ({ w with sadc := · })
  | .adcReadWoken => (adcReadWoken w.sadc).map ({ w with sadc := ·.1 })
  | .tsEnableIrq => (tsEnableIrq w.sadc).map ({ w with sadc := · })
  | .tsDisableIrq => (tsDisableIrq w.sadc).map ({ w with sadc := · })
  | .tsDataReady => (tsDataReady w.sadc).map ({ w with sadc := · })
  | .tsIrqCallback => (tsIrqCallback w.p w.sadc).map fun (p, s) => ⟨s, p⟩

/-- A mouse event, an access to a register, or a call of the driver. -/
inductive TouchInput where
  | access (input : SadcInput)
  | call (c : DriverCall)

def sadcInput (s : Jz4740Sadc) : SadcInput → Except Fault (Jz4740Sadc × Option (BitVec 32))
  | .mouse x y buttons => .ok ((jz4740TouchscreenEvent s x y buttons).1, none)
  | .read width addr => (sadcRead s addr width).map fun (s, v) => (s, some v)
  | .write width addr value => (sadcWrite s addr value width).map (·, none)

def touchStep (w : TouchState) : TouchInput → Except Fault (TouchState × Option (BitVec 32))
  | .access input => (sadcInput w.sadc input).map fun (s, v) => ({ w with sadc := s }, v)
  | .call c => (driverCall w c).map (·, none)

def touchInit : TouchState := ⟨jz4740SadcInit, false⟩

/-- ADCTRL is written by the driver alone. -/
def DriverMasks (inputs : List TouchInput) : Prop :=
  ∀ v, .access (.write .byte 0x8 v) ∉ inputs

/-- The pen goes down or up at a mouse event. -/
def PenEvent (s : Jz4740Sadc) (x y : Int) (buttons : BitVec 32) (e : PenEdge) : Prop :=
  InScreen x y ∧ penEdge s buttons = some e

/-- What the event makes of the device, on a line that is low before it. -/
def penEventDone (s : Jz4740Sadc) (x y : Int) (buttons : BitVec 32) : Jz4740Sadc :=
  (jz4740TouchscreenEvent { s with irq := false } x y buttons).1

/-- The flag that is named for the event. -/
def PenEdge.flag : PenEdge → SadcFlag
  | .down => .pend
  | .up => .penu

def Masked (s : Jz4740Sadc) (f : SadcFlag) : Prop := s.adctrl.getLsbD f.bit = true

/-- A flag that ADSTATE reports after the event. -/
def Reported (s : Jz4740Sadc) (e : PenEdge) (f : SadcFlag) : Prop :=
  (s.adstate ||| e.status).getLsbD f.bit = true

/-- The interrupt is raised for the flags that are not masked; under the driver, for the
flag of the event. -/
structure MasksObeyed (driver : Prop) (s : Jz4740Sadc) (x y : Int) (buttons : BitVec 32)
    (e : PenEdge) : Prop where
  raised : (penEventDone s x y buttons).irq = true ↔
    ∃ f : SadcFlag, (penEventDone s x y buttons).adstate.getLsbD f.bit = true ∧ ¬ Masked s f
  driven : driver → ((penEventDone s x y buttons).irq = true ↔ ¬ Masked s e.flag)

/-- Of the flags reported after the event some are masked and some are not; under the
driver, that of the event is not. -/
structure MasksMixed (driver : Prop) (s : Jz4740Sadc) (e : PenEdge) : Prop where
  masked : ∃ f, Reported s e f ∧ Masked s f
  unmasked : ∃ f, Reported s e f ∧ ¬ Masked s f
  own : driver → ¬ Masked s e.flag

section Masks

variable {s t : Jz4740Sadc} {x y : Int} {buttons : BitVec 32} {e : PenEdge} {w : TouchState}
  {inputs : List TouchInput} {outs : List (Option (BitVec 32))}

/-- The masks are five bits. -/
def MaskFits (s : Jz4740Sadc) : Prop := s.adctrl.toNat < 2 ^ 5

/-- What an operation started in five bits leaves in five bits. -/
def DeliversFit (x : Except Fault Jz4740Sadc) : Prop := Delivers (fun _ => True) MaskFits x

theorem sadcWrite_fits (fits : MaskFits s) (addr : Nat) (v : BitVec 32) (width : Width) :
    DeliversFit (sadcWrite s addr v width) := by
  have masked : (v &&& 0x1f#32).toNat < 2 ^ 5 :=
    Nat.lt_of_le_of_lt (BitVec.toNat_and v 0x1f#32 ▸ Nat.and_le_right) (by decide)
  cases width with
  | byte =>
    simp only [sadcWrite, jz4740SadcWrite8]
    split
    · exact fits
    · exact masked
    · exact fits
    · trivial
  | half =>
    simp only [sadcWrite, jz4740SadcWrite16]
    split
    · exact fits
    · exact fits
    · trivial
  | word =>
    simp only [sadcWrite, jz4740SadcWrite32]
    split
    · exact fits
    · exact fits
    · trivial

theorem sadcRead_fits (fits : MaskFits s) (addr : Nat) (width : Width) :
    Delivers (fun _ => True) (fun r : Jz4740Sadc × BitVec 32 => MaskFits r.1)
      (sadcRead s addr width) := by
  have any : ∀ x : Except Fault (BitVec 32), Delivers (fun _ => True) (fun _ => True) x
    | .ok _ => trivial
    | .error _ => trivial
  cases width with
  | byte | half => exact (any _).map fun _ _ => fits
  | word =>
    simp only [sadcRead, jz4740SdacRead32]
    split
    · exact fits
    · split
      · exact fits
      · exact fits
    · trivial

theorem modify_fits (fits : MaskFits s) (r : SadcRegister) (f : BitVec 32 → BitVec 32) :
    DeliversFit (r.modify f s) :=
  (sadcRead_fits fits _ _).bind fun _ after => sadcWrite_fits after _ _ _

theorem startSadcin_fits (fits : MaskFits s) : DeliversFit (startSadcin s) :=
  (modify_fits fits _ _).bind fun _ fits => modify_fits fits _ _

theorem startTsAdc_fits (fits : MaskFits s) : DeliversFit (startTsAdc s) :=
  (sadcWrite_fits fits _ _ _).bind fun _ fits =>
  (sadcWrite_fits fits _ _ _).bind fun _ fits =>
  (modify_fits fits _ _).bind fun _ fits =>
  (modify_fits fits _ _).bind fun _ fits =>
  (modify_fits fits _ _).bind fun _ fits =>
  (modify_fits fits _ _).bind fun _ fits => modify_fits fits _ _

theorem flagPending_fits (f : SadcFlag) (s : Jz4740Sadc) :
    Delivers (fun _ => True) (fun _ => True) (flagPending f s) := by
  cases flagPending f s <;> trivial

theorem callbackPenDown_fits (fits : MaskFits s) (p : Bool) :
    Delivers (fun _ => True) (fun r => MaskFits r.2) (callbackPenDown p s) := by
  refine (flagPending_fits _ _).bind fun down _ => ?_
  cases down with
  | false => exact fits
  | true =>
    exact (sadcWrite_fits fits _ _ _).bind fun _ fits =>
      (sadcWrite_fits fits _ _ _).bind fun _ fits =>
      (modify_fits fits _ _).bind fun _ fits => (modify_fits fits _ _).bind fun _ fits => fits

theorem callbackPenUp_fits (fits : MaskFits s) (p : Bool) :
    Delivers (fun _ => True) (fun r => MaskFits r.2) (callbackPenUp p s) := by
  refine (flagPending_fits _ _).bind fun up _ => ?_
  cases up with
  | false => exact fits
  | true =>
    exact (sadcWrite_fits fits _ _ _).bind fun _ fits =>
      (modify_fits fits _ _).bind fun _ fits => (modify_fits fits _ _).bind fun _ fits => fits

theorem tsIrqCallback_fits (fits : MaskFits s) (p : Bool) :
    Delivers (fun _ => True) (fun r => MaskFits r.2) (tsIrqCallback p s) :=
  (sadcRead_fits fits _ _).bind fun _ fits =>
  (callbackPenDown_fits fits p).bind fun r fits => callbackPenUp_fits fits r.1

theorem sleepUnlessReady_fits (fits : MaskFits s) : DeliversFit (sleepUnlessReady id s) := by
  unfold sleepUnlessReady
  refine Delivers.bind (P := fun _ => True) trivial fun state _ => ?_
  split
  · refine Delivers.bind (P := fun _ => True) trivial fun ctrl _ => ?_
    exact (sadcWrite_fits fits 0x8 _ .byte).bind fun _ fits => fits
  · exact fits

theorem adcReadWoken_fits (fits : MaskFits s) :
    Delivers (fun _ => True) (fun r => MaskFits r.1) (adcReadWoken s) :=
  (sadcRead_fits fits 0x18 .word).bind fun _ fits =>
  (sadcRead_fits fits 0x18 .word).bind fun _ fits =>
  Delivers.bind (P := fun _ => True) trivial fun _ _ =>
  (sadcWrite_fits fits 0xc _ .byte).bind fun _ fits => fits

theorem map_sadc_fits {x : Except Fault Jz4740Sadc} (fits : DeliversFit x) :
    Delivers (fun _ => True) (fun w => MaskFits w.sadc)
      (x.map fun s => ({ w with sadc := s } : TouchState)) :=
  fits.map fun _ fits => fits

theorem driverCall_fits (fits : MaskFits w.sadc) (c : DriverCall) :
    Delivers (fun _ => True) (fun w => MaskFits w.sadc) (driverCall w c) := by
  cases c with
  | startSadcin => exact map_sadc_fits (startSadcin_fits fits)
  | startTsAdc => exact map_sadc_fits (startTsAdc_fits fits)
  | adcReadSleep => exact map_sadc_fits (sleepUnlessReady_fits fits)
  | adcReadWoken => exact (adcReadWoken_fits fits).map fun _ fits => fits
  | tsEnableIrq => exact map_sadc_fits (x := tsEnableIrq w.sadc) (modify_fits fits _ _)
  | tsDisableIrq => exact map_sadc_fits (x := tsDisableIrq w.sadc) (modify_fits fits _ _)
  | tsDataReady => exact map_sadc_fits (x := tsDataReady w.sadc) (modify_fits fits _ _)
  | tsIrqCallback => exact (tsIrqCallback_fits fits w.p).map fun _ fits => fits

theorem touchscreenEvent_adctrl (x y : Int) (buttons : BitVec 32) :
    (jz4740TouchscreenEvent s x y buttons).1.adctrl = s.adctrl := by
  unfold jz4740TouchscreenEvent jz4740TouchscreenInterrupt
  split
  · split
    · rfl
    · simp only
      split
      · split
        · rfl
        · split <;> rfl
      · rfl
  · rfl

theorem sadcInput_fits (fits : MaskFits s) (input : SadcInput) :
    Delivers (fun _ => True) (fun r => MaskFits r.1) (sadcInput s input) := by
  cases input with
  | mouse x y buttons =>
    have same := touchscreenEvent_adctrl (s := s) x y buttons
    exact (congrArg BitVec.toNat same).trans_lt fits
  | read width addr => exact (sadcRead_fits fits addr width).map fun _ fits => fits
  | write width addr v => exact (sadcWrite_fits fits addr v width).map fun _ fits => fits

theorem touchStep_fits (fits : MaskFits w.sadc) (input : TouchInput) :
    Delivers (fun _ => True) (fun r => MaskFits r.1.sadc) (touchStep w input) := by
  cases input with
  | access input => exact (sadcInput_fits fits input).map fun _ fits => fits
  | call c => exact (driverCall_fits fits c).map fun _ fits => fits

theorem touchRun_fits (reached : run touchStep touchInit inputs = .ok (w, outs)) :
    MaskFits w.sadc := by
  have start : MaskFits touchInit.sadc := show (0 : BitVec 32).toNat < 2 ^ 5 by decide
  exact run_keeps (fun w : TouchState => MaskFits w.sadc)
    (fun fits done => (touchStep_fits fits _).of_ok done) start reached

theorem SadcFlag.exists_bit {i : Nat} (inside : i < 5) : ∃ f : SadcFlag, f.bit = i := by
  match i, inside with
  | 0, _ => exact ⟨.srdy, rfl⟩
  | 1, _ => exact ⟨.pbatrdy, rfl⟩
  | 2, _ => exact ⟨.tsrdy, rfl⟩
  | 3, _ => exact ⟨.penu, rfl⟩
  | 4, _ => exact ⟨.pend, rfl⟩

/-- A mask of five bits meets a word in one of the flags. -/
theorem and_ne_zero_iff (fits : MaskFits s) (state : BitVec 32) :
    s.adctrl &&& state ≠ 0#32 ↔ ∃ f : SadcFlag, state.getLsbD f.bit = true ∧ Masked s f := by
  constructor
  · intro met
    by_contra none
    refine met (BitVec.eq_of_getLsbD_eq fun i _ => ?_)
    rw [BitVec.getLsbD_and, BitVec.getLsbD_zero]
    by_contra bit
    obtain ⟨mask, reported⟩ := Bool.and_eq_true_iff.mp (Bool.of_not_eq_false bit)
    have inside : i < 5 := by
      by_contra past
      have clear := Nat.testBit_lt_two_pow
        (Nat.lt_of_lt_of_le fits (Nat.pow_le_pow_right (by decide) (Nat.le_of_not_lt past)))
      cases clear.symm.trans mask
    obtain ⟨f, rfl⟩ := SadcFlag.exists_bit inside
    exact none ⟨f, reported, mask⟩
  · rintro ⟨f, reported, mask⟩ clear
    have bit := congrArg (·.getLsbD f.bit) clear
    simp only [BitVec.getLsbD_and, reported, show s.adctrl.getLsbD f.bit = true from mask] at bit
    cases bit.trans BitVec.getLsbD_zero

/-- The emulator raises the interrupt for the flags that are masked. -/
theorem penEventDone_irq (fits : MaskFits s) (enabled : s.tchen ≠ 0#8)
    (event : PenEvent s x y buttons e) :
    (penEventDone s x y buttons).irq = true ↔ ∃ f, Reported s e f ∧ Masked s f := by
  refine Iff.trans ?_ (and_ne_zero_iff fits (s.adstate ||| e.status))
  obtain ⟨screen, edge⟩ := event
  have edge' : penEdge { s with irq := false } buttons = some e := edge
  have enabled' : ({ s with irq := false } : Jz4740Sadc).tchen ≠ 0#8 := enabled
  simp only [penEventDone, jz4740TouchscreenEvent, if_pos screen, if_neg enabled', edge',
    jz4740TouchscreenInterrupt]
  by_cases masked : s.adctrl &&& (s.adstate ||| e.status) = 0#32
  · rw [if_neg (not_not.mpr masked)]
    exact iff_of_false Bool.false_ne_true (not_not.mpr masked)
  · rw [if_pos masked]
    exact iff_of_true rfl masked

theorem penEventDone_adstate (enabled : s.tchen ≠ 0#8) (event : PenEvent s x y buttons e) :
    (penEventDone s x y buttons).adstate = s.adstate ||| e.status := by
  obtain ⟨screen, edge⟩ := event
  have edge' : penEdge { s with irq := false } buttons = some e := edge
  have enabled' : ({ s with irq := false } : Jz4740Sadc).tchen ≠ 0#8 := enabled
  simp only [penEventDone, jz4740TouchscreenEvent, if_pos screen, if_neg enabled', edge',
    jz4740TouchscreenInterrupt]
  split
  · rfl
  · rfl

theorem reported_flag (s : Jz4740Sadc) (e : PenEdge) : Reported s e e.flag := by
  unfold Reported
  rw [BitVec.getLsbD_or]
  cases e with
  | down => exact Bool.or_true _
  | up => exact Bool.or_true _

/-- In every state a run of mouse events, accesses and driver calls reaches with the touch
screen enabled, and for every pen event in it, the masks are obeyed exactly when some of
the flags reported then are masked and some are not, and, if the driver alone has written
ADCTRL, the flag of the event is not. -/
theorem touch_masks_obeyed_iff (reached : run touchStep touchInit inputs = .ok (w, outs))
    (enabled : w.sadc.tchen ≠ 0#8) (event : PenEvent w.sadc x y buttons e) :
    MasksObeyed (DriverMasks inputs) w.sadc x y buttons e ↔
      MasksMixed (DriverMasks inputs) w.sadc e := by
  have raised := penEventDone_irq (touchRun_fits reached) enabled event
  have own := reported_flag w.sadc e
  have state := penEventDone_adstate enabled event
  constructor
  · rintro ⟨obeyed, driven⟩
    rw [state, raised] at obeyed
    rw [raised] at driven
    have masked : ∃ f, Reported w.sadc e f ∧ Masked w.sadc f := by
      by_cases mask : Masked w.sadc e.flag
      · exact ⟨e.flag, own, mask⟩
      · exact obeyed.mpr ⟨e.flag, own, mask⟩
    exact ⟨masked, obeyed.mp masked, fun driver => (driven driver).mp masked⟩
  · rintro ⟨masked, unmasked, clear⟩
    refine ⟨?_, fun driver => iff_of_true (raised.mpr masked) (clear driver)⟩
    rw [state]
    exact iff_of_true (raised.mpr masked) unmasked

/-- At the first touch after the driver has started, TSRDY is masked and PEND is not. -/
theorem first_touch_obeys : ∃ w outs,
    run touchStep touchInit [.call .startTsAdc] = .ok (w, outs) ∧
      MasksObeyed (DriverMasks [.call .startTsAdc]) w.sadc 100 100 1 .down := by
  refine ⟨_, _, rfl, ?_⟩
  refine (touch_masks_obeyed_iff (x := 100) (y := 100) rfl (by decide) ⟨by decide, rfl⟩).mpr ?_
  exact ⟨⟨.tsrdy, rfl, rfl⟩, ⟨.pend, rfl, Bool.false_ne_true⟩, fun _ => Bool.false_ne_true⟩

/-- The driver starts and disables its interrupts. -/
def disabledTouch : List TouchInput := [.call .startTsAdc, .call .tsDisableIrq]

/-- With all flags masked the pen still interrupts. -/
theorem masked_touch_interrupts : ∃ w outs,
    run touchStep touchInit disabledTouch = .ok (w, outs) ∧ w.sadc.tchen ≠ 0#8 ∧
      PenEvent w.sadc 100 100 1 .down ∧ (∀ f, Masked w.sadc f) ∧
      (penEventDone w.sadc 100 100 1).irq = true ∧
      ¬ MasksObeyed (DriverMasks disabledTouch) w.sadc 100 100 1 .down := by
  have masked : ∀ f, Masked { jz4740SadcInit with adctrl := 0x1f } f := fun f => by
    cases f <;> rfl
  refine ⟨_, _, rfl, by decide, ⟨by decide, rfl⟩, masked, rfl, fun obeyed => ?_⟩
  obtain ⟨f, -, clear⟩ := obeyed.raised.mp rfl
  exact clear (masked f)

end Masks

end VirtualNoah
