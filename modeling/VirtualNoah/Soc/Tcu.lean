import Mathlib.Logic.Function.Basic
import VirtualNoah.Lib.StepRun
import VirtualNoah.Soc.Host

/-!
# The timer and counter unit

The eight timers of `mips_jz_glue.h` are one definition with the index
`TCU_INDEX` as a parameter, and so are the half and the full match of a timer.
Every access and every callback happens at one instant `now` of `vm_clock`.

The QEMU timer behind a match is absent until `jz4740_tcu_init` allocates it;
then it is idle or due at an instant.
-/

namespace VirtualNoah

/-! ## State -/

structure TcuTimer where
  halfTimer : Option (Option (BitVec 64))
  fullTimer : Option (Option (BitVec 64))
  time : BitVec 64
  tdfr : BitVec 32
  tdhr : BitVec 32
  tcnt : BitVec 32
  tcsr : BitVec 32
  prescale : BitVec 32
  freq : BitVec 32
  deriving DecidableEq

structure Jz4740Tcu where
  tcuIrq0 : Bool
  tcuIrq1 : Bool
  tcuIrq2 : Bool
  tsr : BitVec 32
  ter : BitVec 32
  tfr : BitVec 32
  tmr : BitVec 32
  timers : Fin 8 → TcuTimer

def Jz4740Tcu.setTimer (s : Jz4740Tcu) (n : Fin 8) (tm : TcuTimer) : Jz4740Tcu :=
  { s with timers := Function.update s.timers n tm }

/-- The two compare registers of a timer. -/
inductive TcuMatch where
  | half
  | full
  deriving DecidableEq

/-- The bit of the match in `tsr`, `ter` and `tfr`. -/
def TcuMatch.bit (m : TcuMatch) (n : Fin 8) : Nat :=
  match m with
  | .half => n + 16
  | .full => n

def TcuTimer.timer (tm : TcuTimer) : TcuMatch → Option (Option (BitVec 64))
  | .half => tm.halfTimer
  | .full => tm.fullTimer

/-- `qemu_mod_timer` and `qemu_del_timer` on the timer of the match. -/
def TcuTimer.modTimer (tm : TcuTimer) (m : TcuMatch) (expire : Option (BitVec 64)) : TcuTimer :=
  match m with
  | .half => { tm with halfTimer := some expire }
  | .full => { tm with fullTimer := some expire }

def TcuTimer.compare (tm : TcuTimer) : TcuMatch → BitVec 32
  | .half => tm.tdhr
  | .full => tm.tdfr

/-- `(!(tsr & (1 << bit))) && (ter & (1 << bit)) && (freq[n] != 0)` -/
def Jz4740Tcu.Counts (s : Jz4740Tcu) (bit : Nat) (tm : TcuTimer) : Prop :=
  s.tsr &&& bitMask bit = 0#32 ∧ s.ter &&& bitMask bit ≠ 0#32 ∧ tm.freq ≠ 0#32

instance (s : Jz4740Tcu) (bit : Nat) (tm : TcuTimer) : Decidable (s.Counts bit tm) :=
  inferInstanceAs (Decidable (_ ∧ _ ∧ _))

/-! ## Interrupt lines -/

/-- One condition of `jz4740_tcu_update_interrupt`. -/
def tcuPending (s : Jz4740Tcu) (full half : BitVec 32) : Bool :=
  (s.tfr &&& full) &&& ~~~(s.tmr &&& full) ≠ 0#32 ∨
    (s.tfr &&& half) &&& ~~~(s.tmr &&& half) ≠ 0#32

def jz4740TcuUpdateInterrupt (s : Jz4740Tcu) : Jz4740Tcu :=
  { s with
    tcuIrq0 := tcuPending s 0x1 0x10000
    tcuIrq1 := tcuPending s 0x2 0x20000
    tcuIrq2 := tcuPending s 0xfc 0xfc0000 }

/-! ## Counting -/

def ticksPerSec : BitVec 32 := 1000000000

/-- The counts between the reference time and `now`. -/
def TcuTimer.ticks (tm : TcuTimer) (now : BitVec 64) : BitVec 64 :=
  muldiv64 (now - tm.time) 46875 ticksPerSec

/-- The body of `jz4740_tcu_time_sync`.  A reference time of zero means that the
timer has not been enabled before. -/
def TcuTimer.sync (tm : TcuTimer) (now : BitVec 64) : TcuTimer :=
  if tm.time = 0#64 then { tm with time := now, tcnt := 0 }
  else
    let temp := tm.ticks now
    let tm := if temp ≠ 0#64 then { tm with tcnt := tm.tcnt + temp.setWidth 32, time := now }
      else tm
    if 0x10000#32 ≤ tm.tcnt then { tm with tcnt := 0 } else tm

def TcuTimer.timeSync (tm : TcuTimer) (s : Jz4740Tcu) (n : Fin 8) (now : BitVec 64) : TcuTimer :=
  if s.Counts n tm then tm.sync now else tm

def jz4740TcuTimeSync (s : Jz4740Tcu) (n : Fin 8) (now : BitVec 64) : Jz4740Tcu :=
  s.setTimer n ((s.timers n).timeSync s n now)

/-- The time `count` input clocks take. -/
def TcuTimer.clocks (tm : TcuTimer) (count : BitVec 32) : BitVec 64 :=
  muldiv64 (count.setWidth 64) ticksPerSec tm.freq

/-- When the count reaches the compare register. -/
def TcuTimer.nextMatch (tm : TcuTimer) (m : TcuMatch) (now : BitVec 64) : BitVec 64 :=
  now + tm.clocks ((tm.compare m - tm.tcnt) * tm.prescale)

/-- Only a timer that has been initialised is started. -/
def TcuTimer.start (tm : TcuTimer) (m : TcuMatch) (s : Jz4740Tcu) (n : Fin 8)
    (now : BitVec 64) : TcuTimer :=
  if tm.timer m = none then tm
  else if s.Counts (m.bit n) tm then
    let tm := tm.timeSync s n now
    tm.modTimer m (some (tm.nextMatch m now))
  else tm.modTimer m none

/-- `jz4740_tcu_start_half` and `jz4740_tcu_start_full`. -/
def tcuStart (m : TcuMatch) (s : Jz4740Tcu) (n : Fin 8) (now : BitVec 64) : Jz4740Tcu :=
  s.setTimer n ((s.timers n).start m s n now)

abbrev jz4740TcuStartHalf := tcuStart .half
abbrev jz4740TcuStartFull := tcuStart .full

/-- `jz4740_tcu_half_cb` and `jz4740_tcu_full_cb`. -/
def tcuCallback (m : TcuMatch) (s : Jz4740Tcu) (n : Fin 8) (now : BitVec 64) :
    Except Fault Jz4740Tcu :=
  if (s.timers n).timer m = none then .error .segv
  else if s.Counts (m.bit n) (s.timers n) then
    let tm := s.timers n
    let count := tm.tdfr * tm.prescale
    let s := s.setTimer n (tm.modTimer m (some (now + tm.clocks count)))
    let s := jz4740TcuUpdateInterrupt { s with tfr := s.tfr ||| bitMask (m.bit n) }
    let tm := s.timers n
    .ok (s.setTimer n { tm with
      tcnt := match m with
        | .half => tm.tdhr
        | .full => 0
      time := now })
  else .ok (s.setTimer n ((s.timers n).modTimer m none))

/-- The macro `jz4740_tcu_start`. -/
def jz4740TcuStart (s : Jz4740Tcu) (now : BitVec 64) : Jz4740Tcu :=
  (List.finRange 8).foldl
    (fun s n => jz4740TcuStartFull (jz4740TcuStartHalf s n now) n now) s

/-! ## Registers of a timer -/

/-- The rates `jz_findclk` and `jz_clk_getrate` answer with. -/
structure TcuRates where
  pclk : BitVec 32
  osc32K : BitVec 32
  oscExtal : BitVec 32

def jz4740TcuRead (s : Jz4740Tcu) (n : Fin 8) (now addr : BitVec 64) :
    Except Fault (Jz4740Tcu × BitVec 32) :=
  match addr - (0x40#64 + BitVec.ofNat 64 n * 0x10#64) with
  | 0x0#64 => .ok (s, (s.timers n).tdfr)
  | 0x4#64 => .ok (s, (s.timers n).tdhr)
  | 0x8#64 =>
    let s := jz4740TcuTimeSync s n now
    .ok (s, (s.timers n).tcnt)
  | 0xc#64 => .ok (s, (s.timers n).tcsr)
  | _ => .error .cpuAbort

/-- The input clock that TCSR selects. -/
def tcsrFreq (rates : TcuRates) (value : BitVec 32) : BitVec 32 :=
  match value &&& 0x7#32 with
  | 0x1#32 => rates.pclk
  | 0x2#32 => rates.osc32K
  | 0x4#32 => rates.oscExtal
  | _ => 0

def tcsrPrescale (value : BitVec 32) : BitVec 32 :=
  bitMask (((value &&& 0x38#32) >>> 3).toNat * 2)

def jz4740TcuWrite (s : Jz4740Tcu) (n : Fin 8) (now addr : BitVec 64) (rates : TcuRates)
    (value : BitVec 32) : Except Fault Jz4740Tcu :=
  let tm := s.timers n
  match addr - (0x40#64 + BitVec.ofNat 64 n * 0x10#64) with
  | 0x0#64 =>
    .ok (jz4740TcuStartFull (s.setTimer n { tm with tdfr := value &&& 0xffff#32 }) n now)
  | 0x4#64 =>
    .ok (jz4740TcuStartHalf (s.setTimer n { tm with tdhr := value &&& 0xffff#32 }) n now)
  | 0x8#64 =>
    let s := s.setTimer n { tm with tcnt := value &&& 0xffff#32, time := now }
    .ok (jz4740TcuStartFull (jz4740TcuStartHalf s n now) n now)
  | 0xc#64 =>
    let s := s.setTimer n { tm with
      tcsr := value &&& 0x3bf#32, freq := tcsrFreq rates value, prescale := tcsrPrescale value }
    .ok (jz4740TcuStartFull (jz4740TcuStartHalf s n now) n now)
  | _ => .error .cpuAbort

/-! ## Registers of the unit -/

def jz4740TcuIfWrite8 (s : Jz4740Tcu) (now : BitVec 64) (addr : Nat) (value : BitVec 32) :
    Except Fault Jz4740Tcu :=
  match addr with
  | 0x14 => .ok (jz4740TcuStart { s with ter := s.ter ||| (value &&& 0xff#32) } now)
  | 0x18 => .ok (jz4740TcuStart { s with ter := s.ter &&& ~~~(value &&& 0xff#32) } now)
  | _ => .error .cpuAbort

def jz4740TcuIfWrite32 (s : Jz4740Tcu) (now : BitVec 64) (addr : Nat) (value : BitVec 32) :
    Except Fault Jz4740Tcu :=
  match addr with
  | 0x2c => .ok (jz4740TcuStart { s with tsr := s.tsr ||| (value &&& 0x100ff#32) } now)
  | 0x3c => .ok (jz4740TcuStart { s with tsr := s.tsr &&& ~~~(value &&& 0x100ff#32) } now)
  | 0x24 => .ok { s with tfr := s.tfr ||| (value &&& 0xff00ff#32) }
  | 0x28 => .ok { s with tfr := s.tfr &&& ~~~(value &&& 0xff00ff#32) }
  | 0x34 =>
    .ok (jz4740TcuUpdateInterrupt { s with tmr := s.tmr ||| (value &&& 0xff00ff#32) })
  | 0x38 =>
    .ok (jz4740TcuUpdateInterrupt { s with tmr := s.tmr &&& ~~~(value &&& 0xff00ff#32) })
  | _ => .error .cpuAbort

def jz4740TcuIfRead8 (s : Jz4740Tcu) (addr : Nat) : Except Fault (BitVec 32) :=
  match addr with
  | 0x10 => .ok s.ter
  | _ => .error .cpuAbort

def jz4740TcuIfRead32 (s : Jz4740Tcu) (addr : Nat) : Except Fault (BitVec 32) :=
  match addr with
  | 0x1c => .ok s.tsr
  | 0x20 => .ok s.tfr
  | 0x30 => .ok s.tmr
  | _ => .error .cpuAbort

/-- `jz4740_tcu_if_reset` on the memory `qemu_mallocz` has cleared. -/
def jz4740TcuIfReset : Jz4740Tcu where
  tcuIrq0 := false
  tcuIrq1 := false
  tcuIrq2 := false
  tsr := 0x0
  ter := 0x0
  tfr := 0x0
  tmr := 0x0
  timers := fun _ => ⟨none, none, 0, 0xffff, 0x8000, 0x0, 0x0, 0, 0⟩

/-- `jz4740_tcu_init`: the two timers of index `n` are allocated. -/
def jz4740TcuInit (s : Jz4740Tcu) (n : Fin 8) : Jz4740Tcu :=
  s.setTimer n { s.timers n with halfTimer := some none, fullTimer := some none }

/-- The timer that `jz4740_init` asks for. -/
abbrev timer0 : Fin 8 := 0

/-- The unit with some of its timers initialised. -/
def tcuPowerOn (inits : List (Fin 8)) : Jz4740Tcu := inits.foldl jz4740TcuInit jz4740TcuIfReset

/-! ## Events -/

inductive TcuOp where
  | callback (m : TcuMatch) (n : Fin 8)
  | read (n : Fin 8) (addr : BitVec 64)
  | write (n : Fin 8) (addr : BitVec 64) (rates : TcuRates) (value : BitVec 32)
  | ifRead8 (addr : Nat)
  | ifRead32 (addr : Nat)
  | ifWrite8 (addr : Nat) (value : BitVec 32)
  | ifWrite32 (addr : Nat) (value : BitVec 32)

structure TcuEvent where
  now : BitVec 64
  op : TcuOp

/-- A timer fires or the guest accesses a register; only reads have an output. -/
def tcuStep (s : Jz4740Tcu) (e : TcuEvent) : Except Fault (Jz4740Tcu × Option (BitVec 32)) :=
  match e.op with
  | .callback m n => (tcuCallback m s n e.now).map (·, none)
  | .read n addr => (jz4740TcuRead s n e.now addr).map fun (s, v) => (s, some v)
  | .write n addr rates value => (jz4740TcuWrite s n e.now addr rates value).map (·, none)
  | .ifRead8 addr => (jz4740TcuIfRead8 s addr).map fun v => (s, some v)
  | .ifRead32 addr => (jz4740TcuIfRead32 s addr).map fun v => (s, some v)
  | .ifWrite8 addr value => (jz4740TcuIfWrite8 s e.now addr value).map (·, none)
  | .ifWrite32 addr value => (jz4740TcuIfWrite32 s e.now addr value).map (·, none)

abbrev tcuRun : Jz4740Tcu → List TcuEvent →
    Except Fault (Jz4740Tcu × List (Option (BitVec 32))) :=
  StepRun.run tcuStep

/-! ## The two phases of an event -/

/-- The registers an event writes, before any timer is started. -/
def TcuEvent.latch (e : TcuEvent) (s : Jz4740Tcu) : Jz4740Tcu :=
  match e.op with
  | .write n addr rates value =>
    let tm := s.timers n
    match addr - (0x40#64 + BitVec.ofNat 64 n * 0x10#64) with
    | 0x0#64 => s.setTimer n { tm with tdfr := value &&& 0xffff#32 }
    | 0x4#64 => s.setTimer n { tm with tdhr := value &&& 0xffff#32 }
    | 0x8#64 => s.setTimer n { tm with tcnt := value &&& 0xffff#32, time := e.now }
    | 0xc#64 => s.setTimer n { tm with
      tcsr := value &&& 0x3bf#32, freq := tcsrFreq rates value, prescale := tcsrPrescale value }
    | _ => s
  | .ifWrite8 0x14 value => { s with ter := s.ter ||| (value &&& 0xff#32) }
  | .ifWrite8 0x18 value => { s with ter := s.ter &&& ~~~(value &&& 0xff#32) }
  | .ifWrite32 0x2c value => { s with tsr := s.tsr ||| (value &&& 0x100ff#32) }
  | .ifWrite32 0x3c value => { s with tsr := s.tsr &&& ~~~(value &&& 0x100ff#32) }
  | _ => s

/-- The matches of timer `n` an event starts, in this order. -/
def TcuEvent.starts (e : TcuEvent) (n : Fin 8) : List TcuMatch :=
  match e.op with
  | .write k addr _ _ =>
    if k = n then
      match addr - (0x40#64 + BitVec.ofNat 64 k * 0x10#64) with
      | 0x0#64 => [.full]
      | 0x4#64 => [.half]
      | 0x8#64 | 0xc#64 => [.half, .full]
      | _ => []
    else []
  | .ifWrite8 0x14 _ | .ifWrite8 0x18 _ | .ifWrite32 0x2c _ | .ifWrite32 0x3c _ => [.half, .full]
  | _ => []

/-- The address of TCNT. -/
def tcntAddr (n : Fin 8) : BitVec 64 := 0x40#64 + BitVec.ofNat 64 n * 0x10#64 + 0x8#64

def TcuEvent.ReadsTcnt (e : TcuEvent) (n : Fin 8) : Prop := e.op = .read n (tcntAddr n)

def TcuEvent.WritesTcnt (e : TcuEvent) (n : Fin 8) : Prop :=
  ∃ rates value, e.op = .write n (tcntAddr n) rates value

def TcuEvent.CallsBack (e : TcuEvent) (n : Fin 8) : Prop := ∃ m, e.op = .callback m n

/-! ## What each operation can do -/

section Effects

open StepRun

variable {s t : Jz4740Tcu} {n k : Fin 8} {tm : TcuTimer} {m : TcuMatch} {now : BitVec 64}

@[simp] theorem setTimer_timers_self : (s.setTimer n tm).timers n = tm := by
  simp only [Jz4740Tcu.setTimer, Function.update_self]

@[simp] theorem setTimer_timers_of_ne (apart : k ≠ n) :
    (s.setTimer n tm).timers k = s.timers k := by
  simp only [Jz4740Tcu.setTimer, Function.update_of_ne apart]

@[simp] theorem setTimer_tsr : (s.setTimer n tm).tsr = s.tsr := rfl
@[simp] theorem setTimer_ter : (s.setTimer n tm).ter = s.ter := rfl

/-- Of the unit, a start reads the two enable registers only. -/
theorem TcuTimer.start_congr (tsr : t.tsr = s.tsr) (ter : t.ter = s.ter) :
    tm.start m t n now = tm.start m s n now := by
  have counts : ∀ bit tm, t.Counts bit tm ↔ s.Counts bit tm := by
    intro bit tm
    simp only [Jz4740Tcu.Counts, tsr, ter]
  simp only [start, timeSync, counts]

/-- Both matches of a timer, in the order of `jz4740_tcu_start`. -/
def TcuTimer.startBoth (tm : TcuTimer) (s : Jz4740Tcu) (n : Fin 8) (now : BitVec 64) : TcuTimer :=
  (tm.start .half s n now).start .full s n now

theorem startFull_startHalf : jz4740TcuStartFull (jz4740TcuStartHalf s n now) n now =
    s.setTimer n ((s.timers n).startBoth s n now) := by
  simp only [tcuStart, TcuTimer.startBoth, setTimer_timers_self]
  rw [TcuTimer.start_congr setTimer_tsr setTimer_ter]
  simp only [Jz4740Tcu.setTimer, Function.update_idem]

/-- A start of all timers starts each of them on its own. -/
theorem jz4740TcuStart_eq (s : Jz4740Tcu) (now : BitVec 64) :
    jz4740TcuStart s now = { s with timers := fun n => (s.timers n).startBoth s n now } := by
  have walk : ∀ (ns : List (Fin 8)) (u : Jz4740Tcu), ns.Nodup →
      ns.foldl (fun s n => jz4740TcuStartFull (jz4740TcuStartHalf s n now) n now) u =
        { u with timers := fun n =>
            if n ∈ ns then (u.timers n).startBoth u n now else u.timers n } := by
    intro ns
    induction ns with
    | nil =>
      intro u _
      simp only [List.foldl_nil, List.not_mem_nil, if_false]
    | cons k ns ih =>
      intro u nodup
      rw [List.nodup_cons] at nodup
      rw [List.foldl_cons, startFull_startHalf, ih _ nodup.2]
      simp only [Jz4740Tcu.setTimer, Jz4740Tcu.mk.injEq, true_and]
      funext n
      by_cases same : n = k
      · subst same
        simp only [nodup.1, if_false, Function.update_self, List.mem_cons, true_or, if_true]
      · simp only [Function.update_of_ne same, List.mem_cons, same, false_or]
        rfl
  rw [jz4740TcuStart, walk _ s (List.nodup_finRange 8)]
  simp only [List.mem_finRange, if_true]

/-- Power-on allocates some timers and sets nothing else. -/
theorem tcuPowerOn_eq (inits : List (Fin 8)) :
    ∃ timer : Fin 8 → Option (Option (BitVec 64)),
      tcuPowerOn inits = { jz4740TcuIfReset with
        timers := fun n =>
          { jz4740TcuIfReset.timers n with halfTimer := timer n, fullTimer := timer n } } := by
  have walk : ∀ (ns : List (Fin 8)) (u : Jz4740Tcu) (timer : Fin 8 → Option (Option (BitVec 64))),
      u = { jz4740TcuIfReset with
        timers := fun n =>
          { jz4740TcuIfReset.timers n with halfTimer := timer n, fullTimer := timer n } } →
      ∃ timer : Fin 8 → Option (Option (BitVec 64)),
        ns.foldl jz4740TcuInit u = { jz4740TcuIfReset with
          timers := fun n =>
            { jz4740TcuIfReset.timers n with halfTimer := timer n, fullTimer := timer n } } := by
    intro ns
    induction ns with
    | nil =>
      intro u timer same
      exact ⟨timer, same⟩
    | cons k ns ih =>
      intro u timer same
      rw [List.foldl_cons]
      refine ih _ (Function.update timer k (some none)) ?_
      rw [same]
      simp only [jz4740TcuInit, Jz4740Tcu.setTimer, Jz4740Tcu.mk.injEq, true_and]
      funext n
      by_cases own : n = k
      · subst own
        simp only [Function.update_self]
      · simp only [Function.update_of_ne own]
  exact walk inits _ (fun _ => none) rfl

/-- The matches of the list, one after the other. -/
def TcuTimer.startAll (tm : TcuTimer) (ms : List TcuMatch) (s : Jz4740Tcu) (n : Fin 8)
    (now : BitVec 64) : TcuTimer :=
  ms.foldl (fun tm m => tm.start m s n now) tm

theorem tcntAddr_offset (n : Fin 8) :
    tcntAddr n - (0x40#64 + BitVec.ofNat 64 n * 0x10#64) = 0x8#64 := by
  rw [tcntAddr, BitVec.add_comm, BitVec.add_sub_cancel]

theorem eq_tcntAddr {addr : BitVec 64}
    (offset : addr - (0x40#64 + BitVec.ofNat 64 n * 0x10#64) = 0x8#64) : addr = tcntAddr n := by
  rw [tcntAddr, ← offset, BitVec.add_comm, BitVec.sub_add_cancel]

variable {e : TcuEvent} {out : Option (BitVec 32)}

/-- What an event does to the enable registers and to one timer. -/
structure TimerEffect (e : TcuEvent) (s t : Jz4740Tcu) (n : Fin 8) (out : Option (BitVec 32)) :
    Prop where
  tsr : t.tsr = (e.latch s).tsr
  ter : t.ter = (e.latch s).ter
  read : e.ReadsTcnt n →
    t.timers n = (s.timers n).timeSync s n e.now ∧ out = some (t.timers n).tcnt
  other : ¬ e.ReadsTcnt n →
    t.timers n = ((e.latch s).timers n).startAll (e.starts n) (e.latch s) n e.now

/-- What a callback does to its own timer: one that counts starts over, any other
loses its deadline. -/
inductive Expired (m : TcuMatch) (s t : Jz4740Tcu) (k : Fin 8) (now : BitVec 64) : Prop where
  | restarts (there : (s.timers k).timer m ≠ none) (counts : s.Counts (m.bit k) (s.timers k))
      (timer : t.timers k =
        { (s.timers k).modTimer m (some (now +
            (s.timers k).clocks ((s.timers k).tdfr * (s.timers k).prescale))) with
          tcnt := match m with
            | .half => (s.timers k).tdhr
            | .full => 0
          time := now })
  | idles (there : (s.timers k).timer m ≠ none) (idle : ¬ s.Counts (m.bit k) (s.timers k))
      (timer : t.timers k = (s.timers k).modTimer m none)

theorem tcuCallback_expired (called : tcuCallback m s k now = .ok t) : Expired m s t k now := by
  unfold tcuCallback at called
  split at called
  · cases called
  · next there =>
    split at called
    · next counts =>
      cases called
      refine .restarts there counts ?_
      simp only [setTimer_timers_self, jz4740TcuUpdateInterrupt]
      cases m <;> rfl
    · next idle =>
      cases called
      exact .idles there idle setTimer_timers_self

/-- A callback leaves the enable registers and the other timers alone. -/
theorem tcuCallback_effect (called : tcuCallback m s k now = .ok t) :
    t.tsr = s.tsr ∧ t.ter = s.ter ∧ (n ≠ k → t.timers n = s.timers n) := by
  unfold tcuCallback at called
  split at called
  · cases called
  · split at called
    · cases called
      refine ⟨rfl, rfl, fun apart => ?_⟩
      simp only [setTimer_timers_of_ne apart, jz4740TcuUpdateInterrupt]
    · cases called
      exact ⟨rfl, rfl, fun apart => setTimer_timers_of_ne apart⟩

/-- A read of another register of a timer, or of another timer, is no read of TCNT. -/
theorem readsTcnt_offset {addr : BitVec 64} (reads : TcuEvent.ReadsTcnt ⟨now, .read k addr⟩ n) :
    k = n ∧ addr - (0x40#64 + BitVec.ofNat 64 k * 0x10#64) = 0x8#64 := by
  simp only [TcuEvent.ReadsTcnt, TcuOp.read.injEq] at reads
  obtain ⟨rfl, rfl⟩ := reads
  exact ⟨rfl, tcntAddr_offset k⟩

theorem jz4740TcuRead_effect {addr : BitVec 64} {v : BitVec 32}
    (called : jz4740TcuRead s k now addr = .ok (t, v)) :
    TimerEffect ⟨now, .read k addr⟩ s t n (some v) := by
  unfold jz4740TcuRead at called
  split at called
  case h_3 offset =>
    cases called
    refine ⟨rfl, rfl, fun reads => ?_, fun other => ?_⟩
    · obtain ⟨rfl, -⟩ := readsTcnt_offset reads
      exact ⟨setTimer_timers_self, rfl⟩
    · refine setTimer_timers_of_ne fun same => other ?_
      rw [TcuEvent.ReadsTcnt, eq_tcntAddr offset, same]
  case h_5 => cases called
  all_goals
    next offset =>
      cases called
      refine ⟨rfl, rfl, fun reads => ?_, fun _ => rfl⟩
      exact absurd (offset.symm.trans (readsTcnt_offset reads).2) (by decide)

theorem jz4740TcuWrite_effect {addr : BitVec 64} {rates : TcuRates} {value : BitVec 32}
    (called : jz4740TcuWrite s k now addr rates value = .ok t) :
    TimerEffect ⟨now, .write k addr rates value⟩ s t n none := by
  have idle : ∀ ms : List TcuMatch, n ≠ k → (if k = n then ms else []) = [] := fun ms apart =>
    if_neg (Ne.symm apart)
  unfold jz4740TcuWrite at called
  split at called
  case h_5 => cases called
  all_goals
    next offset =>
      cases called
      refine ⟨?_, ?_, fun reads => ?_, fun _ => ?_⟩
      · simp only [TcuEvent.latch, offset]
        rfl
      · simp only [TcuEvent.latch, offset]
        rfl
      · cases reads
      · by_cases same : n = k
        · subst same
          simp only [TcuEvent.latch, TcuEvent.starts, offset, if_true, tcuStart,
            setTimer_timers_self, TcuTimer.startAll, List.foldl_cons, List.foldl_nil] <;>
          rfl
        · simp only [TcuEvent.latch, TcuEvent.starts, offset, if_neg (Ne.symm same), tcuStart,
            setTimer_timers_of_ne same, TcuTimer.startAll, List.foldl_nil]

theorem jz4740TcuIfWrite8_effect {addr : Nat} {value : BitVec 32}
    (called : jz4740TcuIfWrite8 s now addr value = .ok t) :
    TimerEffect ⟨now, .ifWrite8 addr value⟩ s t n none := by
  unfold jz4740TcuIfWrite8 at called
  split at called
  · cases called
    refine ⟨?_, ?_, nofun, fun _ => ?_⟩ <;> rw [jz4740TcuStart_eq] <;> rfl
  · cases called
    refine ⟨?_, ?_, nofun, fun _ => ?_⟩ <;> rw [jz4740TcuStart_eq] <;> rfl
  · cases called

theorem jz4740TcuIfWrite32_effect {addr : Nat} {value : BitVec 32}
    (called : jz4740TcuIfWrite32 s now addr value = .ok t) :
    TimerEffect ⟨now, .ifWrite32 addr value⟩ s t n none := by
  unfold jz4740TcuIfWrite32 at called
  split at called
  · cases called
    refine ⟨?_, ?_, nofun, fun _ => ?_⟩ <;> rw [jz4740TcuStart_eq] <;> rfl
  · cases called
    refine ⟨?_, ?_, nofun, fun _ => ?_⟩ <;> rw [jz4740TcuStart_eq] <;> rfl
  · cases called
    exact ⟨rfl, rfl, nofun, fun _ => rfl⟩
  · cases called
    exact ⟨rfl, rfl, nofun, fun _ => rfl⟩
  · cases called
    exact ⟨rfl, rfl, nofun, fun _ => rfl⟩
  · cases called
    exact ⟨rfl, rfl, nofun, fun _ => rfl⟩
  · cases called

/-- The two phases of every event but the callbacks of the timer itself. -/
theorem tcuStep_effect (done : tcuStep s e = .ok (t, out)) (quiet : ¬ e.CallsBack n) :
    TimerEffect e s t n out := by
  rcases e with ⟨now, op⟩
  cases op with
  | callback m k =>
    obtain ⟨u, called, same⟩ := of_map_eq_ok done
    cases same
    have apart : n ≠ k := by
      rintro rfl
      exact quiet ⟨m, rfl⟩
    obtain ⟨tsr, ter, timer⟩ := tcuCallback_effect called
    exact ⟨tsr, ter, nofun, fun _ => timer apart⟩
  | read k addr =>
    obtain ⟨u, called, same⟩ := of_map_eq_ok done
    cases same
    exact jz4740TcuRead_effect called
  | write k addr rates value =>
    obtain ⟨u, called, same⟩ := of_map_eq_ok done
    cases same
    exact jz4740TcuWrite_effect called
  | ifRead8 addr =>
    obtain ⟨v, -, same⟩ := of_map_eq_ok done
    cases same
    exact ⟨rfl, rfl, nofun, fun _ => rfl⟩
  | ifRead32 addr =>
    obtain ⟨v, -, same⟩ := of_map_eq_ok done
    cases same
    exact ⟨rfl, rfl, nofun, fun _ => rfl⟩
  | ifWrite8 addr value =>
    obtain ⟨u, called, same⟩ := of_map_eq_ok done
    cases same
    exact jz4740TcuIfWrite8_effect called
  | ifWrite32 addr value =>
    obtain ⟨u, called, same⟩ := of_map_eq_ok done
    cases same
    exact jz4740TcuIfWrite32_effect called

theorem latch_of_callback (op : e.op = .callback m n) : e.latch s = s := by
  rw [TcuEvent.latch, op]

theorem latch_of_read (reads : e.ReadsTcnt n) : e.latch s = s := by
  rw [TcuEvent.ReadsTcnt] at reads
  rw [TcuEvent.latch, reads]

theorem tcuStep_callback (done : tcuStep s e = .ok (t, out)) (noisy : e.CallsBack n) :
    ∃ m, e.op = .callback m n ∧ tcuCallback m s n e.now = .ok t := by
  obtain ⟨m, op⟩ := noisy
  refine ⟨m, op, ?_⟩
  rcases e with ⟨now, op⟩
  cases op
  obtain ⟨u, called, same⟩ := of_map_eq_ok done
  cases same
  exact called

/-- The three things a step can do to one timer. -/
inductive TimerStep (e : TcuEvent) (s t : Jz4740Tcu) (n : Fin 8) : Prop where
  | callback (m : TcuMatch) (op : e.op = .callback m n)
      (called : tcuCallback m s n e.now = .ok t)
  | read (reads : e.ReadsTcnt n) (timer : t.timers n = (s.timers n).timeSync s n e.now)
  | starts (quiet : ¬ e.CallsBack n) (other : ¬ e.ReadsTcnt n)
      (timer : t.timers n = ((e.latch s).timers n).startAll (e.starts n) (e.latch s) n e.now)

theorem tcuStep_timer (done : tcuStep s e = .ok (t, out)) (n : Fin 8) : TimerStep e s t n := by
  by_cases quiet : e.CallsBack n
  · obtain ⟨m, op, called⟩ := tcuStep_callback done quiet
    exact .callback m op called
  · have effect := tcuStep_effect done quiet
    by_cases reads : e.ReadsTcnt n
    · exact .read reads (effect.read reads).1
    · exact .starts quiet reads (effect.other reads)

theorem tcuStep_tsr_ter (done : tcuStep s e = .ok (t, out)) :
    t.tsr = (e.latch s).tsr ∧ t.ter = (e.latch s).ter := by
  by_cases quiet : e.CallsBack 0
  · obtain ⟨m, op, called⟩ := tcuStep_callback done quiet
    obtain ⟨tsr, ter, -⟩ := tcuCallback_effect (n := 0) called
    rw [latch_of_callback op]
    exact ⟨tsr, ter⟩
  · have effect := tcuStep_effect done quiet
    exact ⟨effect.tsr, effect.ter⟩

/-- An event latches into the enable registers or into a timer, not into both. -/
theorem latch_cases (e : TcuEvent) (s : Jz4740Tcu) :
    (e.latch s).timers = s.timers ∨
      (e.latch s).tsr = s.tsr ∧ (e.latch s).ter = s.ter := by
  rcases e with ⟨now, op⟩
  unfold TcuEvent.latch
  split
  · dsimp only
    split
    all_goals exact Or.inr ⟨rfl, rfl⟩
  all_goals exact Or.inl rfl

end Effects

end VirtualNoah
