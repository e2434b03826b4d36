import Mathlib.Algebra.Order.Group.Unbundled.Int
import VirtualNoah.Soc.Rtc

/-!
# Seconds

The one-second timer keeps its phase by itself: `jz4740_rtc_hz` adds a second to
the time it was due at.  `jz4740_rtc_start`, which every write of RTCCR calls,
makes it due at once, so a write in the middle of a second is a second too many.
-/

namespace VirtualNoah

open StepRun

/-! ## Counting the seconds of a run -/

/-- The clock and, for the record only, the time of the last event and how often
RTCSR has changed. -/
structure RtcWatch where
  rtc : Jz4740Rtc
  clock : Int
  ticks : Nat

def rtcWatchStep (x : RtcWatch) (e : RtcEvent) : Except Fault (RtcWatch × RtcOut) :=
  (rtcStep x.rtc e).map fun (t, out) =>
    (⟨t, e.now, if t.rtcsr = x.rtc.rtcsr then x.ticks else x.ticks + 1⟩, out)

/-- Nothing happens before the present, and a timer that is due is served before
the clock goes on. -/
def Timely (x : RtcWatch) (e : RtcEvent) : Prop :=
  x.clock ≤ e.now ∧ ∀ due, x.rtc.hzTm = some due → e.now ≤ due

/-- The guest leaves the seconds and the enable bit as they are. -/
def KeepsEnabled (e : RtcEvent) : Prop :=
  ∀ addr value, e.op = .write addr value →
    addr ≠ 0x4 ∧ (addr = 0x0 → value &&& 0x1#32 ≠ 0#32)

/-- RTCCR is written only at the moment a second is due. -/
def WritesInPhase (x : RtcWatch) (e : RtcEvent) : Prop :=
  ∀ value, e.op = .write 0x0 value → x.rtc.next = e.now

/-- As many seconds have been counted as have passed, up to one. -/
structure KeepsTime (x y : RtcWatch) : Prop where
  lower : y.clock - x.clock ≤ 1000 * (y.ticks - x.ticks : Int) + 1000
  upper : 1000 * (y.ticks - x.ticks : Int) ≤ y.clock - x.clock + 1000

/-- Between events the timer is pending within the next second, unless the clock
is disabled. -/
structure Pending (x : RtcWatch) : Prop where
  timer : x.rtc.hzTm = if x.rtc.Flag rtcRcrRtce then some x.rtc.next else none
  ahead : x.rtc.Flag rtcRcrRtce → x.clock ≤ x.rtc.next
  near : x.rtc.Flag rtcRcrRtce → x.rtc.next ≤ x.clock + 1000

section Steps

variable {x y : RtcWatch} {s t : Jz4740Rtc} {e : RtcEvent} {out : RtcOut} {now : Int}

theorem Timely.of_due {due : Int} (later : x.clock ≤ e.now) (timer : x.rtc.hzTm = some due)
    (early : e.now ≤ due) : Timely x e :=
  ⟨later, fun _ pending => Option.some.inj (timer.symm.trans pending) ▸ early⟩

/-- What an event can be. -/
inductive RtcStepCase (s t : Jz4740Rtc) (e : RtcEvent) : Prop
  | cr {value : BitVec 32} (op : e.op = .write 0x0 value)
    (same : t = jz4740RtcWriteCr s e.now value)
  | seconds {value : BitVec 32} (op : e.op = .write 0x4 value)
    (same : t = { s with rtcsr := value })
  | tick {due : Int} (op : e.op = .timers) (pending : s.hzTm = some due) (late : due ≤ e.now)
    (same : t = (jz4740RtcHz { s with hzTm := none }).1)
  | keeps (timer : t.hzTm = s.hzTm) (next : t.next = s.next) (rtccr : t.rtccr = s.rtccr)
    (rtcsr : t.rtcsr = s.rtcsr)

theorem rtcStep_case (done : rtcStep s e = .ok (t, out)) : RtcStepCase s t e := by
  rcases e with ⟨now, op⟩
  cases op with
  | read addr =>
    obtain ⟨v, -, same⟩ := of_map_eq_ok done
    cases same
    exact .keeps rfl rfl rfl rfl
  | write addr value =>
    obtain ⟨u, written, same⟩ := of_map_eq_ok done
    cases same
    unfold jz4740RtcWrite at written
    split at written
    case h_1 => exact .cr rfl (Except.ok.inj written).symm
    case h_2 => exact .seconds rfl (Except.ok.inj written).symm
    case h_11 => cases written
    all_goals
      cases written
      exact .keeps rfl rfl rfl rfl
  | timers =>
    simp only [rtcStep] at done
    split at done
    · cases done
      exact .keeps rfl rfl rfl rfl
    · next due pending =>
      split at done
      · next late =>
        cases done
        exact .tick rfl pending late rfl
      · cases done
        exact .keeps rfl rfl rfl rfl

/-- A write of RTCCR starts the timer, or stops it. -/
theorem writeCr_eq (s : Jz4740Rtc) (now : Int) (value : BitVec 32) :
    jz4740RtcWriteCr s now value =
      if value &&& 0x1#32 ≠ 0#32 then jz4740RtcStart { s with rtccr := value &&& 0x7d#32 } now
      else jz4740RtcStop { s with rtccr := value &&& 0x7d#32 } now := by
  have lowest : ∀ bit : BitVec 32, 0x1#32 &&& bit = 0#32 → ¬ lnot value &&& bit ≠ 0#32 := by
    intro bit apart
    unfold lnot
    split
    · exact not_not_intro apart
    · exact not_not_intro BitVec.zero_and
  have own : (value &&& 0x7d#32) &&& 0x1#32 = value &&& 0x1#32 := BitVec.and_assoc ..
  simp only [jz4740RtcWriteCr, if_neg (lowest 0x40#32 (by decide)),
    if_neg (lowest 0x10#32 (by decide)), own]

theorem flag_rtce_of_value {value : BitVec 32} (rtccr : t.rtccr = value &&& 0x7d#32) :
    t.Flag rtcRcrRtce ↔ value &&& 0x1#32 ≠ 0#32 := by
  rw [Jz4740Rtc.Flag, rtccr, BitVec.and_assoc]
  rfl

/-- The timer keeps its phase, and the enable bit stays as it is. -/
theorem hz_timer (s : Jz4740Rtc) : (jz4740RtcHz s).1.hzTm = some (s.next + 1000) ∧
    (jz4740RtcHz s).1.next = s.next + 1000 ∧
      ((jz4740RtcHz s).1.Flag rtcRcrRtce ↔ s.Flag rtcRcrRtce) := by
  by_cases enabled : s.Flag rtcRcrRtce
  · obtain ⟨-, -, flag⟩ := hz_enabled enabled
    refine ⟨?_, ?_, iff_of_true ((flag _).mpr (Or.inl enabled)) enabled⟩
    all_goals
      simp only [jz4740RtcHz, if_pos (show s.rtccr &&& 0x1#32 ≠ 0#32 from enabled)]
      split
      · split <;> rfl
      · rfl
  · have off : ¬ s.rtccr &&& 0x1#32 ≠ 0#32 := enabled
    simp only [jz4740RtcHz, if_neg off]
    exact ⟨trivial, trivial, Iff.rfl⟩

/-- A timer that is pending is that of an enabled clock, and due at the next second. -/
theorem Pending.due {due : Int} (pending : Pending x) (timer : x.rtc.hzTm = some due) :
    x.rtc.Flag rtcRcrRtce ∧ x.rtc.next = due := by
  rw [pending.timer] at timer
  split at timer
  · next enabled => exact ⟨enabled, Option.some.inj timer⟩
  · cases timer

theorem pending_step (pending : Pending x) (timely : Timely x e)
    (done : rtcWatchStep x e = .ok (y, out)) : Pending y := by
  obtain ⟨⟨t, out'⟩, stepped, same⟩ := of_map_eq_ok done
  cases same
  have stays : t.hzTm = x.rtc.hzTm → t.next = x.rtc.next →
      (t.Flag rtcRcrRtce ↔ x.rtc.Flag rtcRcrRtce) →
      Pending ⟨t, e.now, if t.rtcsr = x.rtc.rtcsr then x.ticks else x.ticks + 1⟩ := by
    intro timer next flag
    refine ⟨?_, fun enabled => ?_, fun enabled => ?_⟩
    · rw [timer, pending.timer, next]
      simp only [flag]
    · rw [next]
      exact timely.2 _ (by rw [pending.timer, if_pos (flag.mp enabled)])
    · rw [next]
      have near := pending.near (flag.mp enabled)
      have later : x.clock ≤ e.now := timely.1
      exact near.trans (Int.add_le_add_right later 1000)
  cases rtcStep_case stepped with
  | seconds op same => exact stays (by rw [same]) (by rw [same]) (by rw [same]; rfl)
  | keeps timer next rtccr rtcsr => exact stays timer next (by rw [Jz4740Rtc.Flag, rtccr]; rfl)
  | tick op timer late same =>
    obtain ⟨enabled, due⟩ := pending.due timer
    obtain ⟨timer', next', flag⟩ := hz_timer { x.rtc with hzTm := none }
    have now : e.now = x.rtc.next := by
      have early := timely.2 _ timer
      omega
    have next : t.next = x.rtc.next + 1000 := by rw [same, next']
    refine ⟨?_, fun _ => ?_, fun _ => ?_⟩
    · rw [same, timer', next', if_pos (flag.mpr enabled)]
    · dsimp only
      omega
    · dsimp only
      omega
  | cr op same =>
    rw [writeCr_eq] at same
    split at same
    · next on =>
      have flag : t.Flag rtcRcrRtce := (flag_rtce_of_value (by rw [same]; rfl)).mpr on
      have next : t.next = e.now := by rw [same]; rfl
      refine ⟨?_, fun _ => next.ge, fun _ => ?_⟩
      · rw [if_pos flag, next, same]
        rfl
      · dsimp only
        rw [next]
        omega
    · next off =>
      have flag : ¬ t.Flag rtcRcrRtce := fun on =>
        off ((flag_rtce_of_value (by rw [same]; rfl)).mp on)
      refine ⟨?_, fun on => absurd on flag, fun on => absurd on flag⟩
      rw [if_neg flag, same]
      rfl

/-- From the first state on, the timer has moved on by a second for each one counted. -/
structure InPhase (x y : RtcWatch) : Prop where
  pending : Pending y
  enabled : y.rtc.Flag rtcRcrRtce
  phase : y.rtc.next - x.rtc.next = 1000 * (y.ticks - x.ticks : Int)

theorem InPhase.keepsTime (first : InPhase x x) (last : InPhase x y) : KeepsTime x y := by
  have near := first.pending.near first.enabled
  have ahead := first.pending.ahead first.enabled
  have near' := last.pending.near last.enabled
  have ahead' := last.pending.ahead last.enabled
  have phase := last.phase
  exact ⟨by omega, by omega⟩

theorem inPhase_step {z : RtcWatch} (inPhase : InPhase x y) (timely : Timely y e)
    (keeps : KeepsEnabled e) (phase : WritesInPhase y e) (done : rtcWatchStep y e = .ok (z, out)) :
    InPhase x z := by
  have pending := pending_step inPhase.pending timely done
  obtain ⟨⟨t, out'⟩, stepped, same⟩ := of_map_eq_ok done
  cases same
  cases rtcStep_case stepped with
  | seconds op same => exact absurd rfl (keeps 0x4 _ op).1
  | keeps timer next rtccr rtcsr =>
    refine ⟨pending, ?_, ?_⟩
    · rw [Jz4740Rtc.Flag, rtccr]
      exact inPhase.enabled
    · rw [if_pos rtcsr, next]
      exact inPhase.phase
  | tick op timer late same =>
    obtain ⟨enabled, -⟩ := inPhase.pending.due timer
    obtain ⟨-, next, flag⟩ := hz_timer { y.rtc with hzTm := none }
    obtain ⟨seconds, -, -⟩ := hz_enabled (s := { y.rtc with hzTm := none }) enabled
    have counted : t.rtcsr ≠ y.rtc.rtcsr := by
      rw [same, seconds]
      exact fun still => absurd (BitVec.add_right_eq_self.mp still) (by decide)
    refine ⟨pending, ?_, ?_⟩
    · rw [same]
      exact flag.mpr enabled
    · have before := inPhase.phase
      rw [if_neg counted, same, next]
      dsimp only
      omega
  | cr op same =>
    have on := (keeps 0x0 _ op).2 rfl
    rw [writeCr_eq, if_pos on] at same
    refine ⟨pending, (flag_rtce_of_value (by rw [same]; rfl)).mpr on, ?_⟩
    have next : t.next = y.rtc.next := by
      rw [same, phase _ op]
      rfl
    have rtcsr : t.rtcsr = y.rtc.rtcsr := by
      rw [same]
      rfl
    rw [next, if_pos rtcsr]
    exact inPhase.phase

end Steps

/-- The clock is initialised at some time, and started. -/
def rtcPowerOn (now : Int) (time : BitVec 32) : RtcWatch := ⟨jz4740RtcInit now time, now, 0⟩

theorem pending_powerOn (now : Int) (time : BitVec 32) : Pending (rtcPowerOn now time) := by
  have enabled : (rtcPowerOn now time).rtc.Flag rtcRcrRtce := show 0x81#32 &&& 0x1#32 ≠ 0#32 by
    decide
  refine ⟨?_, fun _ => le_refl now, fun _ => ?_⟩
  · rw [if_pos enabled]
    rfl
  · exact Int.le_add_of_nonneg_right (by decide)

/-- What the run is asked to do at each step: the timers are served in time, and the
guest keeps the clock enabled and writes RTCCR only when a second is due. -/
structure PhaseKept (x : RtcWatch) (e : RtcEvent) : Prop where
  timely : Timely x e
  keeps : KeepsEnabled e
  phase : WritesInPhase x e

/-- From any state of the clock that has been reached and is enabled, the seconds
keep time while every write of RTCCR comes when a second is due. -/
theorem rtc_keeps_time {start : Int} {time : BitVec 32} {before events : List RtcEvent}
    {x : RtcWatch} {outs : List RtcOut}
    (timely : Along rtcWatchStep Timely (rtcPowerOn start time) before)
    (reached : run rtcWatchStep (rtcPowerOn start time) before = .ok (x, outs))
    (enabled : x.rtc.Flag rtcRcrRtce) (kept : Along rtcWatchStep PhaseKept x events) :
    Always rtcWatchStep (KeepsTime x) x events := by
  have pending : Pending x := run_invariant Pending pending_step (pending_powerOn start time)
    timely reached
  have first : InPhase x x := by
    refine ⟨pending, enabled, ?_⟩
    rw [Int.sub_self, Int.sub_self, Int.mul_zero]
  refine always_of_along (InPhase x) ?_ first.keepsTime first kept
  intro y e z out inPhase kept done
  exact inPhase_step inPhase kept.timely kept.keeps kept.phase done

/-- Half a second behind the first second the guest acknowledges it. -/
def acknowledge : List RtcEvent :=
  [⟨0, .timers⟩, ⟨500, .write 0x0 0x1⟩, ⟨500, .timers⟩]

/-- Two seconds have been counted after half a second. -/
theorem rtc_counts_twice : (∀ e ∈ acknowledge, KeepsEnabled e) ∧
    Along rtcWatchStep Timely (rtcPowerOn 0 0) acknowledge ∧
      ¬ Always rtcWatchStep (KeepsTime (rtcPowerOn 0 0)) (rtcPowerOn 0 0) acknowledge := by
  refine ⟨?_, ?_, fun always => ?_⟩
  · intro e mem addr value op
    simp only [acknowledge, List.mem_cons, List.not_mem_nil, or_false] at mem
    rcases mem with rfl | rfl | rfl
    · cases op
    · cases op
      exact ⟨by decide, fun _ => by decide⟩
    · cases op
  · exact Along.cons (.of_due (by decide) rfl (by decide)) rfl
      (Along.cons (.of_due (by decide) rfl (by decide)) rfl
        (Along.cons (.of_due (by decide) rfl (by decide)) rfl trivial))
  · have reached : ∃ y outs, run rtcWatchStep (rtcPowerOn 0 0) acknowledge = .ok (y, outs) ∧
        y.clock = 500 ∧ y.ticks = 2 := ⟨_, _, rfl, rfl, rfl⟩
    obtain ⟨y, outs, completed, clock, ticks⟩ := reached
    have upper := (always.last completed).upper
    rw [clock, ticks] at upper
    exact absurd upper (by decide)

/-- An acknowledgement at the moment the second second is due. -/
theorem rtc_keeps_time_in_phase : Always rtcWatchStep (KeepsTime (rtcPowerOn 0 0)) (rtcPowerOn 0 0)
    [⟨0, .timers⟩, ⟨1000, .write 0x0 0x1⟩, ⟨1000, .timers⟩] := by
  have reached : run rtcWatchStep (rtcPowerOn 0 0) [] = .ok (rtcPowerOn 0 0, []) := rfl
  refine rtc_keeps_time (by trivial) reached (by decide) ?_
  refine Along.cons ⟨.of_due (by decide) rfl (by decide), nofun, nofun⟩ rfl
    (Along.cons ⟨.of_due (by decide) rfl (by decide), ?_, fun _ _ => rfl⟩ rfl
      (Along.cons ⟨.of_due (by decide) rfl (by decide), nofun, nofun⟩ rfl trivial))
  intro addr value op
  cases op
  exact ⟨by decide, fun _ => by decide⟩

end VirtualNoah
