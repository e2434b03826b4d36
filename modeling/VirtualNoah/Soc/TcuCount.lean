import VirtualNoah.Soc.Tcu

/-!
# Counting and stopping

A timer does not count by itself: a synchronisation adds the ticks of a fixed
46875 Hz clock since the reference time, and moves the reference time.  Nothing
does so when a timer is stopped, so the first synchronisation after a restart
adds the ticks of the time it was stopped for.
`stopped_timer_keeps_count_iff` says when that makes no difference.
-/

namespace VirtualNoah

open StepRun

/-- `qemu_get_clock` never goes back. -/
def ClockOrdered : BitVec 64 → List TcuEvent → Prop
  | _, [] => True
  | now, e :: es => now ≤ e.now ∧ ClockOrdered e.now es

theorem ClockOrdered.of_append {now : BitVec 64} {es es' : List TcuEvent}
    (ordered : ClockOrdered now (es ++ es')) : ClockOrdered now es := by
  induction es generalizing now with
  | nil => trivial
  | cons e es ih => exact ⟨ordered.1, ih ordered.2⟩

/-- TCNT starts over when a count does not fit. -/
def wrapCount (count : BitVec 32) : BitVec 32 := if 0x10000#32 ≤ count then 0 else count

/-- The timer is enabled and its clock is not stopped. -/
def Jz4740Tcu.Enabled (s : Jz4740Tcu) (n : Fin 8) : Prop :=
  s.tsr &&& bitMask n = 0#32 ∧ s.ter &&& bitMask n ≠ 0#32

section Sync

variable {s t u : Jz4740Tcu} {n k : Fin 8} {tm tm' : TcuTimer} {m : TcuMatch}
  {now : BitVec 64} {e : TcuEvent} {out : Option (BitVec 32)}

theorem counts_iff_enabled : s.Counts n tm ↔ s.Enabled n ∧ tm.freq ≠ 0#32 :=
  and_assoc.symm

theorem timeSync_of_enabled (enabled : s.Enabled n) :
    tm.timeSync s n now = if tm.freq = 0#32 then tm else tm.sync now := by
  rw [TcuTimer.timeSync]
  by_cases off : tm.freq = 0#32
  · rw [if_pos off, if_neg fun counts => (counts_iff_enabled.mp counts).2 off]
  · rw [if_neg off, if_pos (counts_iff_enabled.mpr ⟨enabled, off⟩)]

theorem timeSync_of_disabled (disabled : ¬ s.Enabled n) : tm.timeSync s n now = tm :=
  if_neg fun counts => disabled (counts_iff_enabled.mp counts).1

/-- The two timers agree on what a synchronisation reads. -/
structure SameCount (tm tm' : TcuTimer) : Prop where
  tcnt : tm'.tcnt = tm.tcnt
  time : tm'.time = tm.time
  freq : tm'.freq = tm.freq

theorem SameCount.refl (tm : TcuTimer) : SameCount tm tm := ⟨rfl, rfl, rfl⟩

theorem SameCount.symm (same : SameCount tm tm') : SameCount tm' tm :=
  ⟨same.tcnt.symm, same.time.symm, same.freq.symm⟩

theorem SameCount.trans {tm'' : TcuTimer} (first : SameCount tm tm')
    (second : SameCount tm' tm'') : SameCount tm tm'' :=
  ⟨second.tcnt.trans first.tcnt, second.time.trans first.time, second.freq.trans first.freq⟩

theorem sameCount_modTimer (tm : TcuTimer) (m : TcuMatch) (expire : Option (BitVec 64)) :
    SameCount tm (tm.modTimer m expire) := by
  cases m with
  | half => exact ⟨rfl, rfl, rfl⟩
  | full => exact ⟨rfl, rfl, rfl⟩

/-- A synchronisation adds the ticks since the reference time. -/
theorem sync_tcnt (tm : TcuTimer) (now : BitVec 64) : (tm.sync now).tcnt =
    if tm.time = 0#64 then 0 else wrapCount (tm.tcnt + (tm.ticks now).setWidth 32) := by
  unfold TcuTimer.sync
  split
  · rfl
  · by_cases short : tm.ticks now = 0#64
    · simp only [short, ne_eq, not_true_eq_false, if_false, BitVec.setWidth_zero, wrapCount,
        BitVec.add_zero]
      split <;> rfl
    · simp only [short, ne_eq, not_false_eq_true, if_true, wrapCount]
      split <;> rfl

@[simp] theorem sync_freq (tm : TcuTimer) (now : BitVec 64) : (tm.sync now).freq = tm.freq := by
  unfold TcuTimer.sync
  dsimp only
  split
  · rfl
  · split <;> split <;> rfl

/-- The reference time is moved to the present or left alone; it is left alone
when no tick has passed. -/
theorem sync_time (tm : TcuTimer) (now : BitVec 64) : (tm.sync now).time =
    if tm.time ≠ 0#64 ∧ tm.ticks now = 0#64 then tm.time else now := by
  unfold TcuTimer.sync
  dsimp only
  split
  · next first => rw [if_neg fun both => both.1 first]
  · next again =>
    by_cases short : tm.ticks now = 0#64
    · simp only [again, short, ne_eq, not_true_eq_false, not_false_eq_true, and_self, if_false,
        if_true]
      split <;> rfl
    · simp only [short, ne_eq, not_false_eq_true, and_false, if_false, if_true]
      split <;> rfl

theorem SameCount.sync_tcnt_eq (same : SameCount tm tm') (now : BitVec 64) :
    (tm'.sync now).tcnt = (tm.sync now).tcnt := by
  rw [sync_tcnt, sync_tcnt, TcuTimer.ticks, TcuTimer.ticks, same.time, same.tcnt]

theorem SameCount.sync (same : SameCount tm tm') (now : BitVec 64) :
    SameCount (tm.sync now) (tm'.sync now) := by
  refine ⟨same.sync_tcnt_eq now, ?_, ?_⟩
  · rw [sync_time, sync_time, TcuTimer.ticks, TcuTimer.ticks, same.time]
  · rw [sync_freq, sync_freq, same.freq]

theorem SameCount.timeSync (same : SameCount tm tm') :
    SameCount (tm.timeSync s n now) (tm'.timeSync s n now) := by
  have counts : s.Counts n tm' ↔ s.Counts n tm := by
    simp only [Jz4740Tcu.Counts, same.freq]
  simp only [TcuTimer.timeSync, counts]
  split
  · exact same.sync now
  · exact same

/-- Nothing passes between two synchronisations at one instant. -/
theorem ticks_self (present : tm.time = now) : tm.ticks now = 0#64 := by
  subst present
  rw [TcuTimer.ticks, BitVec.sub_self]
  decide

theorem wrapCount_wrapCount (count : BitVec 32) :
    wrapCount (wrapCount count) = wrapCount count := by
  by_cases beyond : 0x10000#32 ≤ count
  · rw [wrapCount, wrapCount, if_pos beyond]
    rfl
  · rw [wrapCount, wrapCount, if_neg beyond, if_neg beyond]

/-- The second of two synchronisations at one instant has no effect on the count. -/
theorem sync_sync_tcnt (started : now = 0#64 → tm.time = 0#64) :
    ((tm.sync now).sync now).tcnt = (tm.sync now).tcnt := by
  rw [sync_tcnt (tm.sync now)]
  by_cases first : tm.time = 0#64
  · have time : (tm.sync now).time = now := by
      rw [sync_time, if_neg fun both => both.1 first]
    have count : (tm.sync now).tcnt = 0 := by
      rw [sync_tcnt, if_pos first]
    rw [ticks_self time, count]
    split <;> rfl
  · have later : (tm.sync now).time ≠ 0#64 := by
      rw [sync_time]
      split
      · exact first
      · exact fun zero => first (started zero)
    have none : (tm.sync now).ticks now = 0#64 := by
      by_cases short : tm.ticks now = 0#64
      · rw [TcuTimer.ticks, sync_time, if_pos ⟨first, short⟩]
        exact short
      · exact ticks_self (by rw [sync_time, if_neg fun both => short both.2])
    rw [if_neg later, none, BitVec.setWidth_zero, BitVec.add_zero, sync_tcnt, if_neg first,
      wrapCount_wrapCount]

theorem timeSync_time (tm : TcuTimer) (s : Jz4740Tcu) (n : Fin 8) (now : BitVec 64) :
    (tm.timeSync s n now).time = tm.time ∨ (tm.timeSync s n now).time = now := by
  unfold TcuTimer.timeSync
  split
  · rw [sync_time]
    split
    · exact Or.inl rfl
    · exact Or.inr rfl
  · exact Or.inl rfl

theorem timeSync_timeSync_tcnt (started : now = 0#64 → tm.time = 0#64) :
    ((tm.timeSync s n now).timeSync s n now).tcnt = (tm.timeSync s n now).tcnt := by
  by_cases counts : s.Counts n tm
  · have again : s.Counts n (tm.sync now) := by
      simpa only [Jz4740Tcu.Counts, sync_freq] using counts
    rw [TcuTimer.timeSync, TcuTimer.timeSync, if_pos counts, if_pos again]
    exact sync_sync_tcnt started
  · rw [TcuTimer.timeSync, TcuTimer.timeSync, if_neg counts, if_neg counts]

/-- A start at most synchronises. -/
theorem start_sameCount (tm : TcuTimer) (m : TcuMatch) (s : Jz4740Tcu) (n : Fin 8)
    (now : BitVec 64) :
    SameCount tm (tm.start m s n now) ∨
      SameCount (tm.timeSync s n now) (tm.start m s n now) := by
  unfold TcuTimer.start
  split
  · exact Or.inl (SameCount.refl tm)
  · split
    · exact Or.inr (sameCount_modTimer _ m _)
    · exact Or.inl (sameCount_modTimer tm m none)

theorem start_time (tm : TcuTimer) (m : TcuMatch) (s : Jz4740Tcu) (n : Fin 8) (now : BitVec 64) :
    (tm.start m s n now).time = tm.time ∨ (tm.start m s n now).time = now := by
  rcases start_sameCount tm m s n now with same | synced
  · exact Or.inl same.time
  · rw [synced.time]
    exact timeSync_time tm s n now

theorem startAll_time (ms : List TcuMatch) (tm : TcuTimer) (s : Jz4740Tcu) (n : Fin 8)
    (now : BitVec 64) :
    (tm.startAll ms s n now).time = tm.time ∨ (tm.startAll ms s n now).time = now := by
  induction ms generalizing tm with
  | nil => exact Or.inl rfl
  | cons m ms ih =>
    rcases ih (tm.start m s n now) with kept | moved
    · rcases start_time tm m s n now with old | new
      · exact Or.inl (kept.trans old)
      · exact Or.inr (kept.trans new)
    · exact Or.inr moved

/-- Starts at the instant of a read do not change what it shows. -/
theorem startAll_timeSync_tcnt (ms : List TcuMatch) (started : now = 0#64 → tm.time = 0#64) :
    ((tm.startAll ms s n now).timeSync s n now).tcnt = (tm.timeSync s n now).tcnt := by
  induction ms generalizing tm with
  | nil => rfl
  | cons m ms ih =>
    have started' : now = 0#64 → (tm.start m s n now).time = 0#64 := by
      intro zero
      rcases start_time tm m s n now with old | new
      · rw [old, started zero]
      · rw [new, zero]
    refine (ih started').trans ?_
    rcases start_sameCount tm m s n now with same | synced
    · exact same.timeSync.tcnt
    · rw [synced.timeSync.tcnt]
      exact timeSync_timeSync_tcnt started

theorem startAll_of_disabled (ms : List TcuMatch) (tm : TcuTimer) (disabled : ¬ s.Enabled n) :
    SameCount tm (tm.startAll ms s n now) := by
  induction ms generalizing tm with
  | nil => exact SameCount.refl tm
  | cons m ms ih =>
    have one : SameCount tm (tm.start m s n now) := by
      rcases start_sameCount tm m s n now with same | synced
      · exact same
      · rwa [timeSync_of_disabled disabled] at synced
    exact one.trans (ih (tm.start m s n now))

/-! ## Invariants of every run -/

/-- TER has bits for the full matches only. -/
theorem latch_ter_full (full : s.ter &&& 0xff#32 = s.ter) :
    (e.latch s).ter &&& 0xff#32 = (e.latch s).ter := by
  rcases e with ⟨now, op⟩
  unfold TcuEvent.latch
  split
  · dsimp only
    split
    all_goals exact full
  · dsimp only
    rw [BitVec.and_or_distrib_right, BitVec.and_assoc, BitVec.and_self, full]
  · dsimp only
    rw [BitVec.and_assoc, BitVec.and_comm (~~~_), ← BitVec.and_assoc, full]
  all_goals exact full

theorem half_disabled (full : s.ter &&& 0xff#32 = s.ter) : s.ter &&& bitMask (n + 16) = 0#32 := by
  have apart : ∀ n : Fin 8, 0xff#32 &&& bitMask (n + 16) = 0#32 := by decide
  rw [← full, BitVec.and_assoc, apart n, BitVec.and_zero]

/-- What TDFR and TCSR can hold. -/
structure RegistersFit (tm : TcuTimer) : Prop where
  tdfr : tm.tdfr.toNat ≤ 0xffff
  prescale : tm.prescale.toNat ≤ 0x4000

/-- The half matches are off, no reference time lies ahead, and the counts and
the other registers are in range. -/
structure TcuSound (s : Jz4740Tcu) (now : BitVec 64) : Prop where
  full : s.ter &&& 0xff#32 = s.ter
  past : ∀ n, (s.timers n).time ≤ now
  fits : ∀ n, (s.timers n).tcnt < 0x10000#32
  registers : ∀ n, RegistersFit (s.timers n)

theorem latch_time (e : TcuEvent) (s : Jz4740Tcu) (n : Fin 8) :
    ((e.latch s).timers n).time = (s.timers n).time ∨
      ((e.latch s).timers n).time = e.now := by
  rcases e with ⟨now, op⟩
  cases op with
  | write k addr rates value =>
    by_cases same : n = k
    · subst same
      simp only [TcuEvent.latch]
      split <;> simp only [setTimer_timers_self, true_or, or_true]
    · simp only [TcuEvent.latch]
      split <;> simp only [setTimer_timers_of_ne same, true_or]
  | _ =>
    unfold TcuEvent.latch
    split <;> first | exact Or.inl rfl | contradiction

/-- A callback moves the reference time to the present or leaves it. -/
theorem Expired.time (expired : Expired m s t k now) :
    (t.timers k).time = (s.timers k).time ∨ (t.timers k).time = now := by
  cases expired with
  | restarts there counts timer =>
    rw [timer]
    exact Or.inr rfl
  | idles there idle timer =>
    rw [timer]
    exact Or.inl (sameCount_modTimer _ m none).time

/-- So does every other event, unless it writes TCNT, which moves it too. -/
theorem tcuStep_time (done : tcuStep s e = .ok (t, out)) (n : Fin 8) :
    (t.timers n).time = (s.timers n).time ∨ (t.timers n).time = e.now := by
  cases tcuStep_timer done n with
  | callback m op called => exact (tcuCallback_expired called).time
  | read reads timer =>
    rw [timer]
    exact timeSync_time _ s n e.now
  | starts quiet other timer =>
    rw [timer]
    have latched : ((e.latch s).timers n).time = (s.timers n).time ∨
        ((e.latch s).timers n).time = e.now := latch_time e s n
    rcases startAll_time (e.starts n) ((e.latch s).timers n) (e.latch s) n e.now with old | new
    · rcases latched with same | moved
      · exact Or.inl (old.trans same)
      · exact Or.inr (old.trans moved)
    · exact Or.inr new

theorem empty_fits : 0#32 < 0x10000#32 := by decide

theorem wrapCount_lt (count : BitVec 32) : wrapCount count < 0x10000#32 := by
  unfold wrapCount
  split
  · decide
  · next fits => exact BitVec.not_le.mp fits

theorem timeSync_fits (fits : tm.tcnt < 0x10000#32) :
    (tm.timeSync s n now).tcnt < 0x10000#32 := by
  unfold TcuTimer.timeSync
  split
  · rw [sync_tcnt]
    split
    · decide
    · exact wrapCount_lt _
  · exact fits

theorem startAll_fits (ms : List TcuMatch) (fits : tm.tcnt < 0x10000#32) :
    (tm.startAll ms s n now).tcnt < 0x10000#32 := by
  induction ms generalizing tm with
  | nil => exact fits
  | cons m ms ih =>
    refine ih ?_
    rcases start_sameCount tm m s n now with same | synced
    · rwa [same.tcnt]
    · rw [synced.tcnt]
      exact timeSync_fits fits

theorem latch_fits (fits : (s.timers n).tcnt < 0x10000#32) :
    ((e.latch s).timers n).tcnt < 0x10000#32 := by
  rcases e with ⟨now, op⟩
  cases op with
  | write k addr rates value =>
    by_cases same : n = k
    · subst same
      have written : value &&& 0xffff#32 < 0x10000#32 := by
        rw [BitVec.lt_def, BitVec.toNat_and]
        exact Nat.lt_succ_of_le Nat.and_le_right
      simp only [TcuEvent.latch]
      split <;> simp only [setTimer_timers_self, fits, written]
    · simp only [TcuEvent.latch]
      split <;> simp only [setTimer_timers_of_ne same, fits]
  | _ =>
    unfold TcuEvent.latch
    split <;> first | exact fits | contradiction

/-- Of the callbacks, the half match never counts, and the full match restarts. -/
theorem Expired.fits (expired : Expired m s t k now) (full : s.ter &&& 0xff#32 = s.ter)
    (fits : (s.timers k).tcnt < 0x10000#32) : (t.timers k).tcnt < 0x10000#32 := by
  cases expired with
  | restarts there counts timer =>
    rw [timer]
    cases m with
    | half => exact absurd (half_disabled full) counts.2.1
    | full => exact empty_fits
  | idles there idle timer => rwa [timer, (sameCount_modTimer _ m none).tcnt]

theorem tcuStep_fits (full : s.ter &&& 0xff#32 = s.ter)
    (fits : (s.timers n).tcnt < 0x10000#32) (done : tcuStep s e = .ok (t, out)) :
    (t.timers n).tcnt < 0x10000#32 := by
  cases tcuStep_timer done n with
  | callback m op called => exact (tcuCallback_expired called).fits full fits
  | read reads timer =>
    rw [timer]
    exact timeSync_fits fits
  | starts quiet other timer =>
    rw [timer]
    exact startAll_fits _ (latch_fits fits)

/-- The two timers agree on the registers a deadline is computed from. -/
structure SameRegisters (tm tm' : TcuTimer) : Prop where
  tdfr : tm'.tdfr = tm.tdfr
  prescale : tm'.prescale = tm.prescale
  freq : tm'.freq = tm.freq

theorem SameRegisters.trans {tm'' : TcuTimer} (first : SameRegisters tm tm')
    (second : SameRegisters tm' tm'') : SameRegisters tm tm'' :=
  ⟨second.tdfr.trans first.tdfr, second.prescale.trans first.prescale,
    second.freq.trans first.freq⟩

theorem sameRegisters_modTimer (tm : TcuTimer) (m : TcuMatch) (expire : Option (BitVec 64)) :
    SameRegisters tm (tm.modTimer m expire) := by
  cases m with
  | half => exact ⟨rfl, rfl, rfl⟩
  | full => exact ⟨rfl, rfl, rfl⟩

theorem SameRegisters.symm (same : SameRegisters tm tm') : SameRegisters tm' tm :=
  ⟨same.tdfr.symm, same.prescale.symm, same.freq.symm⟩

theorem sameRegisters_sync (tm : TcuTimer) (now : BitVec 64) :
    SameRegisters tm (tm.sync now) := by
  unfold TcuTimer.sync
  dsimp only
  split
  · exact ⟨rfl, rfl, rfl⟩
  · split <;> split <;> exact ⟨rfl, rfl, rfl⟩

theorem sameRegisters_timeSync (tm : TcuTimer) (s : Jz4740Tcu) (n : Fin 8) (now : BitVec 64) :
    SameRegisters tm (tm.timeSync s n now) := by
  rw [TcuTimer.timeSync]
  split
  · exact sameRegisters_sync tm now
  · exact ⟨rfl, rfl, rfl⟩

theorem sameRegisters_start (tm : TcuTimer) (m : TcuMatch) (s : Jz4740Tcu) (n : Fin 8)
    (now : BitVec 64) : SameRegisters tm (tm.start m s n now) := by
  unfold TcuTimer.start
  split
  · exact ⟨rfl, rfl, rfl⟩
  · split
    · exact (sameRegisters_timeSync tm s n now).trans (sameRegisters_modTimer _ m _)
    · exact sameRegisters_modTimer tm m none

theorem sameRegisters_startAll (ms : List TcuMatch) (tm : TcuTimer) (s : Jz4740Tcu) (n : Fin 8)
    (now : BitVec 64) : SameRegisters tm (tm.startAll ms s n now) := by
  induction ms generalizing tm with
  | nil => exact ⟨rfl, rfl, rfl⟩
  | cons m ms ih => exact (sameRegisters_start tm m s n now).trans (ih _)

theorem Expired.sameRegisters (expired : Expired m s t k now) :
    SameRegisters (s.timers k) (t.timers k) := by
  cases expired with
  | restarts there counts timer =>
    rw [timer]
    have armed := sameRegisters_modTimer (s.timers k) m
      (some (now + (s.timers k).clocks ((s.timers k).tdfr * (s.timers k).prescale)))
    exact ⟨armed.tdfr, armed.prescale, armed.freq⟩
  | idles there idle timer =>
    rw [timer]
    exact sameRegisters_modTimer _ m none

theorem RegistersFit.of_same (fit : RegistersFit tm) (same : SameRegisters tm tm') :
    RegistersFit tm' := by
  refine ⟨?_, ?_⟩
  · rw [same.tdfr]
    exact fit.tdfr
  · rw [same.prescale]
    exact fit.prescale

theorem tcsrPrescale_le (value : BitVec 32) : (tcsrPrescale value).toNat ≤ 0x4000 := by
  have field : ((value &&& 0x38#32) >>> 3).toNat ≤ 7 := by
    rw [BitVec.toNat_ushiftRight, Nat.shiftRight_eq_div_pow, BitVec.toNat_and]
    have bound : value.toNat &&& (0x38#32).toNat ≤ 0x38 := Nat.and_le_right
    omega
  have table : ∀ f ≤ 7, (bitMask (f * 2)).toNat ≤ 0x4000 := by decide
  exact table _ field

theorem latch_registers (fit : RegistersFit (s.timers n)) :
    RegistersFit ((e.latch s).timers n) := by
  rcases e with ⟨now, op⟩
  cases op with
  | write k addr rates value =>
    by_cases same : n = k
    · subst same
      have written : (value &&& 0xffff#32).toNat ≤ 0xffff := by
        rw [BitVec.toNat_and]
        exact Nat.and_le_right
      simp only [TcuEvent.latch]
      split
      · rw [setTimer_timers_self]
        exact ⟨written, fit.prescale⟩
      · rw [setTimer_timers_self]
        exact ⟨fit.tdfr, fit.prescale⟩
      · rw [setTimer_timers_self]
        exact ⟨fit.tdfr, fit.prescale⟩
      · rw [setTimer_timers_self]
        exact ⟨fit.tdfr, tcsrPrescale_le value⟩
      · exact fit
    · simp only [TcuEvent.latch]
      split <;> simp only [setTimer_timers_of_ne same, fit]
  | _ =>
    unfold TcuEvent.latch
    split <;> first | exact fit | contradiction

theorem tcuStep_registers (fit : RegistersFit (s.timers n))
    (done : tcuStep s e = .ok (t, out)) : RegistersFit (t.timers n) := by
  cases tcuStep_timer done n with
  | callback m op called => exact fit.of_same (tcuCallback_expired called).sameRegisters
  | read reads timer =>
    rw [timer]
    exact fit.of_same (sameRegisters_timeSync _ s n e.now)
  | starts quiet other timer =>
    rw [timer]
    exact (latch_registers fit).of_same (sameRegisters_startAll _ _ _ n e.now)

theorem tcuSound_step (sound : TcuSound s now) (later : now ≤ e.now)
    (done : tcuStep s e = .ok (t, out)) : TcuSound t e.now := by
  refine ⟨?_, fun n => ?_, fun n => tcuStep_fits sound.full (sound.fits n) done,
    fun n => tcuStep_registers (sound.registers n) done⟩
  · rw [(tcuStep_tsr_ter done).2]
    exact latch_ter_full sound.full
  · rcases tcuStep_time done n with same | moved
    · rw [same]
      exact BitVec.le_trans (sound.past n) later
    · rw [moved]
      exact BitVec.le_refl e.now

/-- A run whose clock never goes back keeps every reference time in the past. -/
theorem tcuSound_run {events : List TcuEvent} {outs : List (Option (BitVec 32))}
    (sound : TcuSound s now) (ordered : ClockOrdered now (events ++ [e]))
    (completed : tcuRun s events = .ok (t, outs)) : TcuSound t e.now := by
  induction events generalizing s now outs with
  | nil =>
    cases completed
    exact ⟨sound.full, fun n => BitVec.le_trans (sound.past n) ordered.1, sound.fits,
      sound.registers⟩
  | cons first events ih =>
    obtain ⟨u, b, rest, head, tail, -⟩ := of_run_cons completed
    exact ih (tcuSound_step sound ordered.1 head) ordered.2 tail

/-! ## A stopped timer -/

theorem enabled_congr (tsr : t.tsr = s.tsr) (ter : t.ter = s.ter) :
    t.Enabled n ↔ s.Enabled n := by
  rw [Jz4740Tcu.Enabled, Jz4740Tcu.Enabled, tsr, ter]

/-- Only a write of TCNT latches into the count. -/
theorem latch_count (kept : ¬ e.WritesTcnt n) :
    ((e.latch s).timers n).tcnt = (s.timers n).tcnt ∧
      ((e.latch s).timers n).time = (s.timers n).time := by
  rcases e with ⟨now, op⟩
  cases op with
  | write k addr rates value =>
    by_cases same : n = k
    · subst same
      simp only [TcuEvent.latch]
      split
      case h_3 offset =>
        have written : TcuEvent.WritesTcnt ⟨now, .write n addr rates value⟩ n := by
          refine ⟨rates, value, ?_⟩
          rw [eq_tcntAddr offset]
        exact absurd written kept
      all_goals simp only [setTimer_timers_self, and_self]
    · simp only [TcuEvent.latch]
      split <;> simp only [setTimer_timers_of_ne same, and_self]
  | _ =>
    unfold TcuEvent.latch
    split <;> first | exact ⟨rfl, rfl⟩ | contradiction

/-- A callback of a disabled timer only removes its deadline. -/
theorem Expired.sameCount (expired : Expired m s t k now) (full : s.ter &&& 0xff#32 = s.ter)
    (disabled : ¬ s.Enabled k) : SameCount (s.timers k) (t.timers k) := by
  cases expired with
  | restarts there counts timer =>
    cases m with
    | half => exact absurd (half_disabled full) counts.2.1
    | full => exact absurd (counts_iff_enabled.mp counts).1 disabled
  | idles there idle timer =>
    rw [timer]
    exact sameCount_modTimer _ m none

/-- Nothing but a write of TCNT moves the count or the reference time of a timer
that is disabled afterwards. -/
theorem tcuStep_disabled (full : s.ter &&& 0xff#32 = s.ter) (disabled : ¬ t.Enabled n)
    (kept : ¬ e.WritesTcnt n) (done : tcuStep s e = .ok (t, out)) :
    (t.timers n).tcnt = (s.timers n).tcnt ∧ (t.timers n).time = (s.timers n).time := by
  obtain ⟨tsr, ter⟩ := tcuStep_tsr_ter done
  have latched : ¬ (e.latch s).Enabled n := fun on => disabled ((enabled_congr tsr ter).mpr on)
  cases tcuStep_timer done n with
  | callback m op called =>
    rw [latch_of_callback op] at latched
    have count := (tcuCallback_expired called).sameCount full latched
    exact ⟨count.tcnt, count.time⟩
  | read reads timer =>
    rw [latch_of_read reads] at latched
    rw [timer, timeSync_of_disabled latched]
    exact ⟨rfl, rfl⟩
  | starts quiet other timer =>
    have started : SameCount ((e.latch s).timers n)
        (((e.latch s).timers n).startAll (e.starts n) (e.latch s) n e.now) :=
      startAll_of_disabled (e.starts n) ((e.latch s).timers n) latched
    have count := latch_count (s := s) kept
    rw [timer]
    exact ⟨started.tcnt.trans count.1, started.time.trans count.2⟩

theorem tcuRun_disabled {events : List TcuEvent} {outs : List (Option (BitVec 32))}
    (full : s.ter &&& 0xff#32 = s.ter) (disabled : Always tcuStep (fun s => ¬ s.Enabled n) s events)
    (kept : ∀ e ∈ events, ¬ e.WritesTcnt n) (completed : tcuRun s events = .ok (t, outs)) :
    (t.timers n).tcnt = (s.timers n).tcnt ∧ (t.timers n).time = (s.timers n).time := by
  induction events generalizing s outs with
  | nil =>
    cases completed
    exact ⟨rfl, rfl⟩
  | cons e events ih =>
    obtain ⟨u, b, rest, head, tail, -⟩ := of_run_cons completed
    have after := disabled.2 u b head
    have fullAfter : u.ter &&& 0xff#32 = u.ter := by
      rw [(tcuStep_tsr_ter head).2]
      exact latch_ter_full full
    obtain ⟨tcnt, time⟩ := ih fullAfter after
      (fun e mem => kept e (List.mem_cons_of_mem _ mem)) tail
    obtain ⟨tcnt', time'⟩ := tcuStep_disabled full after.first (kept e List.mem_cons_self) head
    exact ⟨tcnt.trans tcnt', time.trans time'⟩

/-- An event that enables a timer starts it and does nothing else to it. -/
theorem tcuStep_enables (disabled : ¬ s.Enabled n) (enabled : t.Enabled n)
    (done : tcuStep s e = .ok (t, out)) : (e.latch s).Enabled n ∧
      ∃ ms, t.timers n = (s.timers n).startAll ms (e.latch s) n e.now := by
  obtain ⟨tsr, ter⟩ := tcuStep_tsr_ter done
  have latched : (e.latch s).Enabled n := (enabled_congr tsr ter).mp enabled
  have changed : ∀ {u : Jz4740Tcu}, e.latch s = u → u.tsr = s.tsr → u.ter = s.ter → False := by
    rintro u rfl tsr ter
    exact disabled ((enabled_congr tsr ter).mp latched)
  have quiet : ¬ e.CallsBack n := by
    rintro ⟨m, calls⟩
    exact changed (by rw [TcuEvent.latch, calls]) rfl rfl
  have other : ¬ e.ReadsTcnt n := by
    intro reads
    rw [TcuEvent.ReadsTcnt] at reads
    exact changed (by rw [TcuEvent.latch, reads]) rfl rfl
  have effect := (tcuStep_effect done quiet).other other
  rcases latch_cases e s with same | ⟨tsr, ter⟩
  · rw [same] at effect
    exact ⟨latched, _, effect⟩
  · exact (changed rfl tsr ter).elim

theorem timeSync_congr (tsr : t.tsr = s.tsr) (ter : t.ter = s.ter) :
    tm.timeSync t n now = tm.timeSync s n now := by
  have counts : t.Counts n tm ↔ s.Counts n tm := by
    simp only [Jz4740Tcu.Counts, tsr, ter]
  simp only [TcuTimer.timeSync, counts]

/-! ## What a read shows -/

/-- What a read of TCNT shows at an instant while the timer is enabled. -/
def TcuTimer.shown (tm : TcuTimer) (freq : BitVec 32) (now : BitVec 64) : BitVec 32 :=
  if freq = 0#32 then tm.tcnt
  else if tm.time = 0#64 then 0
  else wrapCount (tm.tcnt + (tm.ticks now).setWidth 32)

theorem timeSync_shown (enabled : s.Enabled n) :
    (tm.timeSync s n now).tcnt = tm.shown tm.freq now := by
  rw [timeSync_of_enabled enabled, TcuTimer.shown, ← sync_tcnt]
  split <;> rfl

theorem of_readTcnt {v : BitVec 32}
    (done : tcuStep s ⟨now, .read n (tcntAddr n)⟩ = .ok (t, some v)) :
    v = ((s.timers n).timeSync s n now).tcnt := by
  have effect := tcuStep_effect (n := n) done nofun
  obtain ⟨timer, value⟩ := effect.read rfl
  cases value
  rw [timer]

/-- The ticks since the reference time, at an input clock that may be off. -/
def TcuTimer.ticksAt (tm : TcuTimer) (freq : BitVec 32) (now : BitVec 64) : BitVec 32 :=
  if freq = 0#32 then 0 else (tm.ticks now).setWidth 32

/-- The count is zero or has run out of its register. -/
def Spent (count : BitVec 32) : Prop := count = 0#32 ∨ 0x10000#32 ≤ count

/-- No tick of the 46875 Hz clock falls between the two instants, or the count
has run out at both.  A timer that has never been enabled counts from zero as
soon as its input clock is on. -/
def NoTickBetween (tm : TcuTimer) (freq : BitVec 32) (t₁ t₂ : BitVec 64) : Prop :=
  if tm.time = 0#64 then (tm.freq = 0#32 ↔ freq = 0#32) ∨ tm.tcnt = 0#32
  else tm.ticksAt tm.freq t₁ = tm.ticksAt freq t₂ ∨
    Spent (tm.tcnt + tm.ticksAt tm.freq t₁) ∧ Spent (tm.tcnt + tm.ticksAt freq t₂)

theorem wrapCount_eq_iff (a b : BitVec 32) :
    wrapCount a = wrapCount b ↔ a = b ∨ Spent a ∧ Spent b := by
  unfold wrapCount Spent
  constructor
  · intro same
    split at same
    · next overA =>
      split at same
      · next overB => exact Or.inr ⟨Or.inr overA, Or.inr overB⟩
      · exact Or.inr ⟨Or.inr overA, Or.inl same.symm⟩
    · split at same
      · next overB => exact Or.inr ⟨Or.inl same, Or.inr overB⟩
      · exact Or.inl same
  · have spent : ∀ c : BitVec 32, c = 0#32 ∨ 0x10000#32 ≤ c →
        (if 0x10000#32 ≤ c then 0#32 else c) = 0#32 := by
      rintro c (rfl | beyond)
      · rfl
      · exact if_pos beyond
    rintro (rfl | ⟨a, b⟩)
    · rfl
    · exact (spent _ a).trans (spent _ b).symm

/-- After the first start a fitting count is shown with the ticks added. -/
theorem shown_eq_wrapCount (fits : tm.tcnt < 0x10000#32) (first : tm.time ≠ 0#64)
    (freq : BitVec 32) : tm.shown freq now = wrapCount (tm.tcnt + tm.ticksAt freq now) := by
  unfold TcuTimer.shown TcuTimer.ticksAt
  split
  · rw [BitVec.ofNat_eq_ofNat, BitVec.add_zero, wrapCount, if_neg (BitVec.not_le.mpr fits)]
  · rfl

theorem shown_eq_iff {t₁ t₂ : BitVec 64} {freq : BitVec 32} (fits : tm.tcnt < 0x10000#32) :
    tm.shown freq t₂ = tm.shown tm.freq t₁ ↔ NoTickBetween tm freq t₁ t₂ := by
  rw [NoTickBetween]
  by_cases first : tm.time = 0#64
  · rw [if_pos first]
    simp only [TcuTimer.shown, first, if_true]
    have flip : (0#32 = tm.tcnt) = (tm.tcnt = 0#32) := propext eq_comm
    by_cases off₁ : tm.freq = 0#32 <;> by_cases off₂ : freq = 0#32 <;> simp [off₁, off₂, flip]
  · rw [if_neg first, shown_eq_wrapCount fits first, shown_eq_wrapCount fits first,
      wrapCount_eq_iff, BitVec.add_right_inj, eq_comm, and_comm]

end Sync

theorem tcuSound_powerOn (inits : List (Fin 8)) : TcuSound (tcuPowerOn inits) 0 := by
  obtain ⟨timer, same⟩ := tcuPowerOn_eq inits
  rw [same]
  have reset : RegistersFit (jz4740TcuIfReset.timers 0) := ⟨by decide, by decide⟩
  exact ⟨BitVec.zero_and, fun n => BitVec.le_refl _, fun n => empty_fits,
    fun n => ⟨reset.tdfr, reset.prescale⟩⟩

/-- From power-on, a timer that is disabled at one instant and enabled again at a
later one, without a write of TCNT in between, shows the count it had reached
exactly when the ticks of its reference clock say so. -/
theorem stopped_timer_keeps_count_iff (n : Fin 8) (inits : List (Fin 8))
    (before mid : List TcuEvent) (stop resume : TcuEvent) {s s₁ u t r r' : Jz4740Tcu}
    {outs outs' : List (Option (BitVec 32))} {out out' : Option (BitVec 32)} {v₁ v₂ : BitVec 32}
    (ordered : ClockOrdered 0 (before ++ stop :: (mid ++ [resume])))
    (reached : tcuRun (tcuPowerOn inits) before = .ok (s, outs)) (enabled : s.Enabled n)
    (stops : tcuStep s stop = .ok (s₁, out)) (rests : tcuRun s₁ mid = .ok (u, outs'))
    (disabled : Always tcuStep (fun s => ¬ s.Enabled n) s₁ mid)
    (kept : ∀ e ∈ mid, ¬ e.WritesTcnt n)
    (resumes : tcuStep u resume = .ok (t, out')) (again : t.Enabled n)
    (first : tcuStep s ⟨stop.now, .read n (tcntAddr n)⟩ = .ok (r, some v₁))
    (second : tcuStep t ⟨resume.now, .read n (tcntAddr n)⟩ = .ok (r', some v₂)) :
    v₂ = v₁ ↔ NoTickBetween (s.timers n) (u.timers n).freq stop.now resume.now := by
  have sound : TcuSound s stop.now := by
    have whole : ClockOrdered 0 ((before ++ [stop]) ++ (mid ++ [resume])) := by
      rwa [List.append_assoc]
    exact tcuSound_run (tcuSound_powerOn inits) whole.of_append reached
  have later : TcuSound u resume.now := by
    refine tcuSound_run (tcuSound_powerOn inits) ?_ (run_append reached (run_cons stops rests))
    rwa [List.append_assoc]
  -- the count and the reference time are those of the instant of the stop
  have stopped : (s₁.timers n).tcnt = (s.timers n).tcnt ∧
      (s₁.timers n).time = (s.timers n).time := by
    refine tcuStep_disabled sound.full disabled.first ?_ stops
    rintro ⟨rates, value, writes⟩
    have regs := tcuStep_tsr_ter stops
    have latched : (stop.latch s).tsr = s.tsr ∧ (stop.latch s).ter = s.ter := by
      rw [TcuEvent.latch, writes]
      dsimp only
      split <;> exact ⟨rfl, rfl⟩
    exact disabled.first ((enabled_congr (regs.1.trans latched.1) (regs.2.trans latched.2)).mpr
      enabled)
  have full : s₁.ter &&& 0xff#32 = s₁.ter := by
    rw [(tcuStep_tsr_ter stops).2]
    exact latch_ter_full sound.full
  have rested := tcuRun_disabled full disabled kept rests
  have tcnt : (u.timers n).tcnt = (s.timers n).tcnt := rested.1.trans stopped.1
  have time : (u.timers n).time = (s.timers n).time := rested.2.trans stopped.2
  -- the read after the restart synchronises from there
  obtain ⟨latched, ms, started⟩ := tcuStep_enables (disabled.last rests) again resumes
  obtain ⟨tsr, ter⟩ := tcuStep_tsr_ter resumes
  have origin : resume.now = 0#64 → (u.timers n).time = 0#64 := by
    intro zero
    have bound := later.past n
    rw [zero] at bound
    exact BitVec.le_zero_iff.mp bound
  have value₂ : v₂ = (s.timers n).shown (u.timers n).freq resume.now := by
    rw [of_readTcnt second, timeSync_congr tsr ter, started, startAll_timeSync_tcnt ms origin,
      timeSync_shown latched, TcuTimer.shown, TcuTimer.shown, TcuTimer.ticks, TcuTimer.ticks,
      tcnt, time]
  rw [value₂, of_readTcnt first, timeSync_shown enabled]
  exact shown_eq_iff (sound.fits n)

/-- Timer 0 on the crystal divided by 256, enabled at 1000 ns. -/
def startTimer0 : List TcuEvent :=
  [⟨1000, .write timer0 0x4c ⟨0, 0, 12000000⟩ 0x24⟩, ⟨1000, .ifWrite8 0x14 1⟩]

/-- A stop between two ticks is not noticed. -/
theorem stopped_timer_keeps_count_between_ticks :
    ∃ s s₁ t r r' outs v₂, tcuRun (tcuPowerOn [0]) startTimer0 = .ok (s, outs) ∧
      tcuStep s ⟨65000, .read 0 (tcntAddr 0)⟩ = .ok (r, some 3) ∧
      tcuStep s ⟨65000, .ifWrite8 0x18 1⟩ = .ok (s₁, none) ∧
      tcuStep s₁ ⟨66000, .ifWrite8 0x14 1⟩ = .ok (t, none) ∧
      tcuStep t ⟨66000, .read 0 (tcntAddr 0)⟩ = .ok (r', some v₂) ∧ v₂ = 3 := by
  refine ⟨_, _, _, _, _, _, _, rfl, rfl, rfl, rfl, rfl, ?_⟩
  refine (stopped_timer_keeps_count_iff 0 [0] startTimer0 [] ⟨65000, .ifWrite8 0x18 1⟩
    ⟨66000, .ifWrite8 0x14 1⟩ ?_ rfl ?_ rfl rfl ?_ ?_ rfl ?_ rfl rfl).mpr ?_
  · simp only [startTimer0, List.cons_append, List.nil_append, ClockOrdered]
    decide
  · exact ⟨by decide, by decide⟩
  · exact fun on => on.2 (by decide)
  · exact fun e mem => absurd mem List.not_mem_nil
  · exact ⟨by decide, by decide⟩
  · exact Or.inl (by decide)

/-- One second later a stopped timer shows 46875 counts more. -/
theorem stopped_timer_counts :
    ∃ t outs, tcuRun (tcuPowerOn [0]) (startTimer0 ++
        [⟨65000, .read 0 (tcntAddr 0)⟩, ⟨65000, .ifWrite8 0x18 1⟩,
          ⟨1000065000, .ifWrite8 0x14 1⟩, ⟨1000065000, .read 0 (tcntAddr 0)⟩]) = .ok (t, outs) ∧
      outs = [none, none, some 3, none, none, some 46878] :=
  ⟨_, _, rfl, by decide⟩

end VirtualNoah
