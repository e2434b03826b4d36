import VirtualNoah.Lib.StepRun
import VirtualNoah.Soc.Host

/-!
# The real-time clock

`jz4740_rtc_hz` is called back once a second of `rt_clock`, which counts
milliseconds.  It looks for the alarm enable bit in the seconds instead of the
control register, and `jz4740_rtc_update_interrupt` returns early when the
seconds are zero.
-/

namespace VirtualNoah

/-! ## State -/

structure Jz4740Rtc where
  /-- when `hz_tm` is due, if it is pending -/
  hzTm : Option Int
  next : Int
  rtccr : BitVec 32
  rtcsr : BitVec 32
  rtcsar : BitVec 32
  rtcgr : BitVec 32
  hcr : BitVec 32
  hwfcr : BitVec 32
  hrcr : BitVec 32
  hwcr : BitVec 32
  hwrsr : BitVec 32
  hspr : BitVec 32

/-! ## The bits of RTCCR -/

def rtcRcr1Hz : BitVec 32 := 0x40
def rtcRcr1HzIe : BitVec 32 := 0x20
def rtcRcrAf : BitVec 32 := 0x10
def rtcRcrAie : BitVec 32 := 0x8
def rtcRcrAe : BitVec 32 := 0x4
def rtcRcrRtce : BitVec 32 := 0x1

/-- A bit of the control register is set. -/
def Jz4740Rtc.Flag (s : Jz4740Rtc) (bit : BitVec 32) : Prop := s.rtccr &&& bit ≠ 0#32

instance (s : Jz4740Rtc) (bit : BitVec 32) : Decidable (s.Flag bit) :=
  inferInstanceAs (Decidable (_ ≠ _))

/-! ## Functions -/

/-- `!x` -/
def lnot (x : BitVec 32) : BitVec 32 := if x = 0#32 then 1 else 0

/-- Whether `qemu_set_irq(s->irq, 1)` is called.  The negation binds to `rtcsr`. -/
def jz4740RtcUpdateInterrupt (s : Jz4740Rtc) : Bool :=
  if lnot s.rtcsr &&& 0x1#32 ≠ 0#32 then false
  else s.rtccr &&& 0x40#32 ≠ 0#32 ∧ s.rtccr &&& 0x20#32 ≠ 0#32 ∨
    s.rtccr &&& 0x10#32 ≠ 0#32 ∧ s.rtccr &&& 0x8#32 ≠ 0#32

def jz4740RtcStart (s : Jz4740Rtc) (now : Int) : Jz4740Rtc :=
  { s with next := now, hzTm := some now }

def jz4740RtcStop (s : Jz4740Rtc) (now : Int) : Jz4740Rtc :=
  { s with hzTm := none, next := if -now < 1 then 1 else -now }

/-- The new state, and whether the interrupt is raised. -/
def jz4740RtcHz (s : Jz4740Rtc) : Jz4740Rtc × Bool :=
  let s := { s with next := s.next + 1000, hzTm := some (s.next + 1000) }
  if s.rtccr &&& 0x1#32 ≠ 0#32 then
    let s := { s with rtcsr := s.rtcsr + 1, rtccr := s.rtccr ||| 0x40#32 }
    let s :=
      if s.rtcsr &&& 0x4#32 ≠ 0#32 then
        if s.rtcsr = s.rtcsar then { s with rtccr := s.rtccr ||| 0x10#32 } else s
      else s
    (s, jz4740RtcUpdateInterrupt s)
  else (s, false)

/-- `time` is what the C library answers with. -/
def jz4740RtcReset (s : Jz4740Rtc) (now : Int) (time : BitVec 32) : Jz4740Rtc :=
  jz4740RtcStart { s with rtccr := 0x81, next := 1000, rtcsr := time } now

/-- `jz4740_rtc_init` on the memory `qemu_mallocz` has cleared. -/
def jz4740RtcInit (now : Int) (time : BitVec 32) : Jz4740Rtc :=
  jz4740RtcReset ⟨none, 0, 0, 0, 0, 0, 0, 0, 0, 0, 0, 0⟩ now time

def jz4740RtcRead (s : Jz4740Rtc) (addr : Nat) : Except Fault (BitVec 32) :=
  match addr with
  | 0x0 => .ok (s.rtccr ||| 0x80#32)
  | 0x4 => .ok s.rtcsr
  | 0x8 => .ok s.rtcsar
  | 0xc => .ok s.rtcgr
  | 0x20 => .ok s.hcr
  | 0x24 => .ok s.hwfcr
  | 0x28 => .ok s.hrcr
  | 0x2c => .ok s.hwcr
  | 0x30 => .ok s.hwrsr
  | 0x34 => .ok s.hspr
  | _ => .error .cpuAbort

/-- The write of RTCCR.  Neither flag is ever taken out of the value: `!value` has
no bit but the lowest. -/
def jz4740RtcWriteCr (s : Jz4740Rtc) (now : Int) (value : BitVec 32) : Jz4740Rtc :=
  let s := { s with rtccr := value &&& 0x7d#32 }
  let s := if lnot value &&& 0x40#32 ≠ 0#32 then { s with rtccr := s.rtccr &&& ~~~0x40#32 } else s
  let s := if lnot value &&& 0x10#32 ≠ 0#32 then { s with rtccr := s.rtccr &&& ~~~0x10#32 } else s
  if s.rtccr &&& 0x1#32 ≠ 0#32 then jz4740RtcStart s now else jz4740RtcStop s now

def jz4740RtcWrite (s : Jz4740Rtc) (now : Int) (addr : Nat) (value : BitVec 32) :
    Except Fault Jz4740Rtc :=
  match addr with
  | 0x0 => .ok (jz4740RtcWriteCr s now value)
  | 0x4 => .ok { s with rtcsr := value }
  | 0x8 => .ok { s with rtcsar := value }
  | 0xc => .ok { s with rtcgr := value &&& 0x13ffffff#32 }
  | 0x20 => .ok { s with hcr := value &&& 0x1#32 }
  | 0x24 => .ok { s with hwfcr := value &&& 0xffe0#32 }
  | 0x28 => .ok { s with hrcr := value &&& 0xfe0#32 }
  | 0x2c => .ok { s with hwcr := value &&& 0x1#32 }
  | 0x30 => .ok { s with hwrsr := value &&& 0x33#32 }
  | 0x34 => .ok { s with hspr := value }
  | _ => .error .cpuAbort

/-! ## Events -/

inductive RtcOp where
  | read (addr : Nat)
  | write (addr : Nat) (value : BitVec 32)
  /-- one pass of the loop of `qemu_run_timers` -/
  | timers

structure RtcEvent where
  now : Int
  op : RtcOp

inductive RtcOut where
  | value (v : BitVec 32)
  | raised (irq : Bool)
  | nothing

def rtcStep (s : Jz4740Rtc) (e : RtcEvent) : Except Fault (Jz4740Rtc × RtcOut) :=
  match e.op with
  | .read addr => (jz4740RtcRead s addr).map fun v => (s, .value v)
  | .write addr value => (jz4740RtcWrite s e.now addr value).map (·, .nothing)
  | .timers =>
    match s.hzTm with
    | none => .ok (s, .nothing)
    | some due =>
      if due ≤ e.now then
        let (t, irq) := jz4740RtcHz { s with hzTm := none }
        .ok (t, .raised irq)
      else .ok (s, .nothing)

/-! ## One tick -/

/-- What the second tick of an enabled clock is to do. -/
structure TickRight (s : Jz4740Rtc) : Prop where
  seconds : (jz4740RtcHz s).1.rtcsr = s.rtcsr + 1
  hz : (jz4740RtcHz s).1.Flag rtcRcr1Hz
  alarm : (jz4740RtcHz s).1.Flag rtcRcrAf ↔
    s.Flag rtcRcrAf ∨ s.Flag rtcRcrAe ∧ s.rtcsr + 1 = s.rtcsar
  interrupt : (jz4740RtcHz s).2 = true ↔
    (jz4740RtcHz s).1.Flag rtcRcr1Hz ∧ (jz4740RtcHz s).1.Flag rtcRcr1HzIe ∨
      (jz4740RtcHz s).1.Flag rtcRcrAf ∧ (jz4740RtcHz s).1.Flag rtcRcrAie

/-- Bit 2 of the new seconds stands in for the alarm enable bit. -/
def SecondsAgree (s : Jz4740Rtc) : Prop :=
  s.Flag rtcRcrAf ∨ s.rtcsr + 1 ≠ s.rtcsar ∨
    (s.Flag rtcRcrAe ↔ (s.rtcsr + 1) &&& 0x4#32 ≠ 0#32)

/-- No interrupt is due when the seconds wrap. -/
def QuietAtWrap (s : Jz4740Rtc) : Prop :=
  s.rtcsr + 1 ≠ 0#32 ∨ ¬ (s.Flag rtcRcr1HzIe ∨ s.Flag rtcRcrAie ∧ s.Flag rtcRcrAf)

section Tick

variable {s : Jz4740Rtc}

theorem or_and_ne_zero_iff (x y bit : BitVec 32) :
    (x ||| y) &&& bit ≠ 0#32 ↔ x &&& bit ≠ 0#32 ∨ y &&& bit ≠ 0#32 := by
  rw [BitVec.and_or_distrib_right, ne_eq, BitVec.or_eq_zero_iff, not_and_or]

/-- The tick has found the alarm. -/
def AlarmFound (s : Jz4740Rtc) : Prop :=
  (s.rtcsr + 1) &&& 0x4#32 ≠ 0#32 ∧ s.rtcsr + 1 = s.rtcsar

/-- The seconds and the control register behind a tick. -/
theorem hz_enabled (enabled : s.Flag rtcRcrRtce) :
    (jz4740RtcHz s).1.rtcsr = s.rtcsr + 1 ∧
      (jz4740RtcHz s).2 = jz4740RtcUpdateInterrupt (jz4740RtcHz s).1 ∧
      ∀ bit, (jz4740RtcHz s).1.Flag bit ↔
        s.Flag bit ∨ 0x40#32 &&& bit ≠ 0#32 ∨ AlarmFound s ∧ 0x10#32 &&& bit ≠ 0#32 := by
  have on : s.rtccr &&& 0x1#32 ≠ 0#32 := enabled
  simp only [jz4740RtcHz, if_pos on, Jz4740Rtc.Flag, AlarmFound]
  split
  · next bit2 =>
    split
    · next same =>
      refine ⟨rfl, trivial, fun bit => ?_⟩
      rw [or_and_ne_zero_iff, or_and_ne_zero_iff]
      tauto
    · next apart =>
      refine ⟨rfl, trivial, fun bit => ?_⟩
      rw [or_and_ne_zero_iff]
      tauto
  · next clear =>
    refine ⟨rfl, trivial, fun bit => ?_⟩
    rw [or_and_ne_zero_iff]
    tauto

theorem updateInterrupt_iff : jz4740RtcUpdateInterrupt s = true ↔ s.rtcsr ≠ 0#32 ∧
    (s.Flag rtcRcr1Hz ∧ s.Flag rtcRcr1HzIe ∨ s.Flag rtcRcrAf ∧ s.Flag rtcRcrAie) := by
  have zero : lnot s.rtcsr &&& 0x1#32 ≠ 0#32 ↔ s.rtcsr = 0#32 := by
    unfold lnot
    split
    · next zero => exact iff_of_true (by decide) zero
    · next some => exact iff_of_false (by decide) some
  rw [jz4740RtcUpdateInterrupt]
  simp only [zero]
  split
  · next zero => exact iff_of_false nofun fun both => both.1 zero
  · next some => rw [decide_eq_true_eq]; exact (and_iff_right some).symm

/-- A bit that the tick does not set. -/
theorem hz_keeps (bit : BitVec 32) (enabled : s.Flag rtcRcrRtce) (hz : 0x40#32 &&& bit = 0#32)
    (af : 0x10#32 &&& bit = 0#32) : (jz4740RtcHz s).1.Flag bit ↔ s.Flag bit := by
  rw [(hz_enabled enabled).2.2, hz, af]
  simp only [ne_eq, not_true_eq_false, and_false, or_false]

theorem hz_sets_hz (enabled : s.Flag rtcRcrRtce) : (jz4740RtcHz s).1.Flag rtcRcr1Hz :=
  ((hz_enabled enabled).2.2 _).mpr (Or.inr (Or.inl (by decide)))

theorem hz_af_iff (enabled : s.Flag rtcRcrRtce) :
    (jz4740RtcHz s).1.Flag rtcRcrAf ↔ s.Flag rtcRcrAf ∨ AlarmFound s := by
  have apart : 0x40#32 &&& rtcRcrAf = 0#32 := by decide
  have own : 0x10#32 &&& rtcRcrAf ≠ 0#32 := by decide
  rw [(hz_enabled enabled).2.2, apart]
  simp only [ne_eq, not_true_eq_false, false_or, own, not_false_eq_true, and_true]

/-- At the wrap bit 2 is clear. -/
theorem AlarmFound.not_wrap (found : AlarmFound s) : s.rtcsr + 1 ≠ 0#32 := by
  intro zero
  refine found.1 ?_
  rw [zero]
  exact BitVec.zero_and

theorem alarm_right_iff (enabled : s.Flag rtcRcrRtce) : ((jz4740RtcHz s).1.Flag rtcRcrAf ↔
    s.Flag rtcRcrAf ∨ s.Flag rtcRcrAe ∧ s.rtcsr + 1 = s.rtcsar) ↔ SecondsAgree s := by
  rw [hz_af_iff enabled, SecondsAgree, AlarmFound]
  by_cases set : s.Flag rtcRcrAf
  · simp only [set, true_or]
  · rcases eq_or_ne (s.rtcsr + 1) s.rtcsar with same | apart
    · rw [and_iff_left same, and_iff_left same]
      simp only [set, same, false_or, ne_eq, not_true_eq_false]
      exact iff_comm
    · simp only [apart, and_false, or_false, ne_eq, not_false_eq_true, true_or, or_true]

theorem interrupt_right_iff (enabled : s.Flag rtcRcrRtce) : ((jz4740RtcHz s).2 = true ↔
    (jz4740RtcHz s).1.Flag rtcRcr1Hz ∧ (jz4740RtcHz s).1.Flag rtcRcr1HzIe ∨
      (jz4740RtcHz s).1.Flag rtcRcrAf ∧ (jz4740RtcHz s).1.Flag rtcRcrAie) ↔ QuietAtWrap s := by
  obtain ⟨seconds, irq, -⟩ := hz_enabled enabled
  have hz := hz_sets_hz enabled
  have hzIe := hz_keeps rtcRcr1HzIe enabled (by decide) (by decide)
  have aie := hz_keeps rtcRcrAie enabled (by decide) (by decide)
  rw [irq, updateInterrupt_iff, seconds, hzIe, aie, hz_af_iff enabled, QuietAtWrap]
  rcases eq_or_ne (s.rtcsr + 1) 0#32 with zero | some
  · have unfound : ¬ AlarmFound s := fun found => found.not_wrap zero
    simp only [zero, unfound, hz, ne_eq, not_true_eq_false, false_and, false_or, or_false,
      true_and, false_iff, and_comm]
  · exact iff_of_true (and_iff_right some) (Or.inl some)

/-- A tick is right exactly when the seconds happen to say what the alarm enable
bit says, and no interrupt is lost when they wrap. -/
theorem tick_right_iff (enabled : s.Flag rtcRcrRtce) :
    TickRight s ↔ SecondsAgree s ∧ QuietAtWrap s := by
  constructor
  · intro right
    exact ⟨(alarm_right_iff enabled).mp right.alarm,
      (interrupt_right_iff enabled).mp right.interrupt⟩
  · rintro ⟨agree, quiet⟩
    exact ⟨(hz_enabled enabled).1, hz_sets_hz enabled, (alarm_right_iff enabled).mpr agree,
      (interrupt_right_iff enabled).mpr quiet⟩

end Tick

/-- One second before an alarm at 0x100, with the alarm enabled. -/
def beforeAlarm : Jz4740Rtc := { jz4740RtcInit 0 0xff with rtccr := 0xd, rtcsar := 0x100 }

/-- The alarm is missed. -/
theorem tick_misses_alarm : beforeAlarm.Flag rtcRcrRtce ∧ ¬ TickRight beforeAlarm := by
  refine ⟨by decide, fun right => ?_⟩
  exact absurd (right.alarm.mpr (Or.inr ⟨by decide, by decide⟩)) (by decide)

/-- At an alarm at 4 the seconds have bit 2. -/
theorem tick_right_at_four : TickRight { beforeAlarm with rtcsr := 3, rtcsar := 4 } :=
  (tick_right_iff (by decide)).mpr ⟨Or.inr (Or.inr (by decide)), Or.inl (by decide)⟩

end VirtualNoah
