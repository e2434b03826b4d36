import VirtualNoah.Soc.TcuHalf

/-!
# The count and the deadline

The deadline of the full match is computed from the prescaler and from the rate
the input clock had when TCSR was written; TCNT advances at 46875 Hz whatever
the clock and the prescaler.  `count_meets_deadline` says under which conditions
the two agree along a run in which the rates of the clocks change as well.
-/

namespace VirtualNoah

open StepRun

/-! ## The unit in time -/

/-- The unit, the instant of the last event and the rates of the clocks. -/
structure TimedTcu where
  tcu : Jz4740Tcu
  now : BitVec 64
  rates : TcuRates

/-- Timer `n` counts, with TDFR above zero and a prescale field up to 5. -/
def Jz4740Tcu.Times (s : Jz4740Tcu) (n : Fin 8) : Prop :=
  (s.timers n).Initialised ∧ s.Counts n (s.timers n) ∧ (s.timers n).tdfr ≠ 0#32 ∧
    ((s.timers n).tcsr &&& 0x38#32) >>> 3 ≤ 5#32

instance (s : Jz4740Tcu) (n : Fin 8) : Decidable (s.Times n) :=
  inferInstanceAs (Decidable ((s.timers n).timer .full ≠ none ∧ _ ∧ _ ∧ _))

/-- What a read of TCNT gives at an instant. -/
def Jz4740Tcu.countAt (s : Jz4740Tcu) (n : Fin 8) (instant : BitVec 64) : Nat :=
  ((s.timers n).timeSync s n instant).tcnt.toNat

/-- The deadline lies less than a period ahead, and up to it the count stays below
TDFR and keeps pace with the prescaled rate of the selected clock, within one
count. -/
structure Agrees (x : TimedTcu) (n : Fin 8) (due : BitVec 64) : Prop where
  armed : (x.tcu.timers n).fullTimer = some (some due)
  ahead : x.now ≤ due
  period : (due.toNat - x.now.toNat) * (tcsrFreq x.rates (x.tcu.timers n).tcsr).toNat ≤
    (x.tcu.timers n).tdfr.toNat * (tcsrPrescale (x.tcu.timers n).tcsr).toNat * 1000000000
  count : ∀ a, x.now ≤ a → a ≤ due → x.tcu.countAt n a ≤ (x.tcu.timers n).tdfr.toNat
  pace : ∀ a b, x.now ≤ a → a ≤ b → b ≤ due →
    ∃ counts, x.tcu.countAt n b = x.tcu.countAt n a + counts ∧
      (b.toNat - a.toNat) * (tcsrFreq x.rates (x.tcu.timers n).tcsr).toNat <
        (counts + 1) * ((tcsrPrescale (x.tcu.timers n).tcsr).toNat * 1000000000) ∧
      counts * ((tcsrPrescale (x.tcu.timers n).tcsr).toNat * 1000000000) <
        (b.toNat - a.toNat) * (tcsrFreq x.rates (x.tcu.timers n).tcsr).toNat +
          (tcsrPrescale (x.tcu.timers n).tcsr).toNat * 1000000000
  last : x.now < due → x.tcu.countAt n (due - 1) = (x.tcu.timers n).tdfr.toNat ∨
    x.tcu.countAt n (due - 1) + 1 = (x.tcu.timers n).tdfr.toNat

/-- The rate that TCSR selects is the one that was read when it was written, and
the prescaler divides it down to 46875 Hz. -/
def TcuTimer.Paced (tm : TcuTimer) (rates : TcuRates) : Prop :=
  tcsrFreq rates tm.tcsr = tm.freq ∧ tm.freq.toNat = 46875 * (tcsrPrescale tm.tcsr).toNat

instance (tm : TcuTimer) (rates : TcuRates) : Decidable (tm.Paced rates) :=
  inferInstanceAs (Decidable (_ ∧ _))

/-- By how much the counts left last longer than the time left, in units of
1/46875 ns. -/
def TcuTimer.behind (tm : TcuTimer) (due : BitVec 64) : Int :=
  (tm.tdfr.toNat - tm.tcnt.toNat) * 1000000000 - (due.toNat - tm.time.toNat) * 46875

/-- The part of a tick that a synchronisation drops, in the same units. -/
def TcuTimer.dropped (tm : TcuTimer) (now : BitVec 64) : Nat :=
  if tm.ticks now = 0#64 then 0 else (now - tm.time).toNat * 46875 % 1000000000

/-- Time goes on, and only a timer's own callback comes after its deadline. -/
structure Punctual (x : TimedTcu) (now : BitVec 64) (own : Fin 8 → Prop) : Prop where
  later : x.now ≤ now
  started : now ≠ 0#64
  small : now.toNat < 2 ^ 62
  due : ∀ n, x.tcu.Times n → ¬ own n → ∀ due ∈ (x.tcu.timers n).fullTimer.join, now ≤ due

/-- A timer between two full matches that runs at 46875 Hz. -/
structure Phase (tm : TcuTimer) (due now : BitVec 64) : Prop where
  armed : tm.fullTimer = some (some due)
  started : tm.time ≠ 0#64
  past : tm.time ≤ now
  ahead : now ≤ due
  inside : tm.tcnt.toNat ≤ tm.tdfr.toNat
  period : (due.toNat - now.toNat) * 46875 ≤ tm.tdfr.toNat * 1000000000
  early : -1000000000 < tm.behind due
  late : now < due → tm.behind due ≤ 1000000000 - 46875

section Phase

variable {tm : TcuTimer} {s : Jz4740Tcu} {n : Fin 8} {due now later a b : BitVec 64}

theorem Phase.until (phase : Phase tm due now) (after : now ≤ later) (before : later ≤ due) :
    Phase tm due later := by
  have order : now.toNat ≤ later.toNat := after
  have less : (due.toNat - later.toNat) * 46875 ≤ (due.toNat - now.toNat) * 46875 :=
    Nat.mul_le_mul_right _ (Nat.sub_le_sub_left order _)
  exact { phase with
    past := BitVec.le_trans phase.past after
    ahead := before
    period := Nat.le_trans less phase.period
    late := fun short => phase.late (Nat.lt_of_le_of_lt order short) }

theorem Phase.join (phase : Phase tm due now) : tm.fullTimer.join = some due := by
  rw [phase.armed]
  rfl

/-- Up to the deadline the count does not pass TDFR. -/
theorem Phase.ticks_le (phase : Phase tm due now) (after : now ≤ a) (before : a ≤ due) :
    tm.tcnt.toNat + (tm.ticks a).toNat ≤ tm.tdfr.toNat := by
  have past : tm.time ≤ a := BitVec.le_trans phase.past after
  have order : tm.time.toNat ≤ a.toNat := past
  have bound : a.toNat ≤ due.toNat := before
  have early := phase.early
  have inside := phase.inside
  rw [TcuTimer.behind] at early
  rw [ticks_toNat, elapsed_toNat past]
  omega

theorem wrapCount_toNat {count : BitVec 32} (fits : count.toNat < 0x10000) :
    (wrapCount count).toNat = count.toNat := by
  rw [wrapCount, if_neg]
  exact Nat.not_le.mpr fits

theorem sync_tcnt_toNat (started : tm.time ≠ 0#64)
    (fits : tm.tcnt.toNat + (tm.ticks a).toNat < 0x10000) :
    (tm.sync a).tcnt.toNat = tm.tcnt.toNat + (tm.ticks a).toNat := by
  have sum : (tm.tcnt + (tm.ticks a).setWidth 32).toNat =
      tm.tcnt.toNat + (tm.ticks a).toNat := by
    rw [BitVec.toNat_add, BitVec.toNat_setWidth]
    omega
  rw [sync_tcnt, if_neg started, wrapCount_toNat, sum]
  rw [sum]
  exact fits

theorem Phase.sync_tcnt (phase : Phase tm due now) (fit : RegistersFit tm) (after : now ≤ a)
    (before : a ≤ due) :
    (tm.sync a).tcnt.toNat = tm.tcnt.toNat + (tm.ticks a).toNat := by
  have bound := phase.ticks_le after before
  have inside := fit.tdfr
  exact sync_tcnt_toNat phase.started (by omega)

/-- A synchronisation puts the count behind by what it drops. -/
theorem sync_behind (started : tm.time ≠ 0#64) (past : tm.time ≤ a)
    (count : (tm.sync a).tcnt.toNat = tm.tcnt.toNat + (tm.ticks a).toNat) :
    (tm.sync a).behind due = tm.behind due + tm.dropped a := by
  have order : tm.time.toNat ≤ a.toNat := past
  have ticks := ticks_toNat tm a
  rw [elapsed_toNat past] at ticks
  rw [TcuTimer.behind, TcuTimer.behind, TcuTimer.dropped, (sameRegisters_sync tm a).tdfr, count,
    sync_time, elapsed_toNat past]
  by_cases short : tm.ticks a = 0#64
  · have none := ticks_eq_zero_iff.mp short
    rw [if_pos ⟨started, short⟩, if_pos short, none]
    omega
  · rw [if_neg fun both => short both.2, if_neg short]
    omega

/-- A read before the deadline stays in phase when it does not drop too much. -/
theorem Phase.sync (phase : Phase tm due now) (fit : RegistersFit tm) (after : now ≤ later)
    (before : later ≤ due)
    (keeps : later < due → tm.behind due + tm.dropped later ≤ 1000000000 - 46875) :
    Phase (tm.sync later) due later := by
  have past : tm.time ≤ later := BitVec.le_trans phase.past after
  have count := phase.sync_tcnt fit after before
  have behind : (tm.sync later).behind due = tm.behind due + tm.dropped later :=
    sync_behind phase.started past count
  have registers := sameRegisters_sync tm later
  have there : later ≠ 0#64 := by
    rintro rfl
    exact phase.started (BitVec.le_zero_iff.mp past)
  refine ⟨?_, ?_, ?_, before, ?_, ?_, ?_, fun short => ?_⟩
  · exact (sync_timer tm later .full).trans phase.armed
  · rw [sync_time]
    split
    · exact phase.started
    · exact there
  · rw [sync_time]
    split
    · exact past
    · exact BitVec.le_refl later
  · rw [registers.tdfr, count]
    exact phase.ticks_le after before
  · rw [registers.tdfr]
    exact (phase.until after before).period
  · have early := phase.early
    rw [behind]
    omega
  · rw [behind]
    exact keeps short

end Phase

/-! ## From the phase to the deadline -/

section Agrees

variable {tm : TcuTimer} {s : Jz4740Tcu} {n : Fin 8} {due now a b : BitVec 64}

theorem Phase.countAt (phase : Phase (s.timers n) due now) (fit : RegistersFit (s.timers n))
    (counts : s.Counts n (s.timers n)) (after : now ≤ a) (before : a ≤ due) :
    s.countAt n a = (s.timers n).tcnt.toNat +
      (a.toNat - (s.timers n).time.toNat) * 46875 / 1000000000 := by
  have past : (s.timers n).time ≤ a := BitVec.le_trans phase.past after
  rw [Jz4740Tcu.countAt, TcuTimer.timeSync, if_pos counts, phase.sync_tcnt fit after before,
    ticks_toNat, elapsed_toNat past]

/-- Two instants and the ticks up to them. -/
theorem ticks_between {t x y : Nat} (first : t ≤ x) (second : x ≤ y) :
    ∃ counts, (y - t) * 46875 / 1000000000 = (x - t) * 46875 / 1000000000 + counts ∧
      (y - x) * 46875 < (counts + 1) * 1000000000 ∧
      counts * 1000000000 < (y - x) * 46875 + 1000000000 := by
  refine ⟨(y - t) * 46875 / 1000000000 - (x - t) * 46875 / 1000000000, ?_, ?_, ?_⟩ <;> omega

/-- One nanosecond before the deadline at most one count is missing. -/
theorem Phase.last (phase : Phase (s.timers n) due now) (fit : RegistersFit (s.timers n))
    (counts : s.Counts n (s.timers n)) (short : now < due) :
    s.countAt n (due - 1) = (s.timers n).tdfr.toNat ∨
      s.countAt n (due - 1) + 1 = (s.timers n).tdfr.toNat := by
  have one : (due - 1).toNat = due.toNat - 1 := by
    refine BitVec.toNat_sub_of_le (Nat.le_trans ?_ short)
    exact Nat.succ_le_succ (Nat.zero_le _)
  have later : now.toNat < due.toNat := short
  have past : (s.timers n).time.toNat ≤ now.toNat := phase.past
  have early := phase.early
  have late := phase.late short
  have inside := phase.inside
  rw [TcuTimer.behind] at early late
  rw [phase.countAt fit counts, one]
  · omega
  · rw [BitVec.le_def, one]
    exact Nat.le_sub_one_of_lt later
  · rw [BitVec.le_def, one]
    exact Nat.sub_le _ _

theorem TcuTimer.Paced.freq_eq {rates : TcuRates} (paced : tm.Paced rates) :
    (tcsrFreq rates tm.tcsr).toNat = 46875 * (tcsrPrescale tm.tcsr).toNat := by
  rw [paced.1]
  exact paced.2

theorem TcuTimer.Paced.prescale_pos {rates : TcuRates} (paced : tm.Paced rates)
    (clocked : tm.freq ≠ 0#32) : 0 < (tcsrPrescale tm.tcsr).toNat := by
  rw [Nat.pos_iff_ne_zero]
  intro zero
  have rate := paced.2
  rw [zero, Nat.mul_zero] at rate
  exact clocked (BitVec.eq_of_toNat_eq rate)

/-- A paced timer in phase meets its deadline. -/
theorem Phase.agrees {x : TimedTcu} (phase : Phase (x.tcu.timers n) due x.now)
    (fit : RegistersFit (x.tcu.timers n)) (times : x.tcu.Times n)
    (paced : (x.tcu.timers n).Paced x.rates) : Agrees x n due := by
  have counts := times.2.1
  have scale := paced.prescale_pos counts.2.2
  have rate := paced.freq_eq
  refine ⟨phase.armed, phase.ahead, ?_, fun a after before => ?_, fun a b after order before => ?_,
    phase.last fit counts⟩
  · rw [rate, ← Nat.mul_assoc, Nat.mul_right_comm _ (tcsrPrescale _).toNat]
    exact Nat.mul_le_mul_right _ phase.period
  · rw [phase.countAt fit counts after before]
    have bound := phase.ticks_le after before
    rwa [ticks_toNat, elapsed_toNat (BitVec.le_trans phase.past after)] at bound
  · have first : (x.tcu.timers n).time.toNat ≤ a.toNat := BitVec.le_trans phase.past after
    have second : a.toNat ≤ b.toNat := order
    obtain ⟨more, sum, slow, fast⟩ := ticks_between first second
    refine ⟨more, ?_, ?_, ?_⟩
    · rw [phase.countAt fit counts (BitVec.le_trans after order) before,
        phase.countAt fit counts after (BitVec.le_trans order before), sum, Nat.add_assoc]
    · rw [rate, ← Nat.mul_assoc, Nat.mul_comm (tcsrPrescale _).toNat, ← Nat.mul_assoc]
      exact Nat.mul_lt_mul_of_pos_right slow scale
    · rw [rate, Nat.mul_comm (tcsrPrescale _).toNat, ← Nat.mul_assoc, ← Nat.mul_assoc,
        ← Nat.add_mul]
      exact Nat.mul_lt_mul_of_pos_right fast scale

end Agrees

/-! ## What an event does to a timer -/

section Steps

variable {s t : Jz4740Tcu} {n : Fin 8} {tm : TcuTimer} {m : TcuMatch} {now due : BitVec 64}
  {e : TcuEvent} {out : Option (BitVec 32)}

/-- The prescaler is the one of TCSR once a clock has been selected. -/
def TcuTimer.Configured (tm : TcuTimer) : Prop :=
  tm.freq ≠ 0#32 → tm.prescale = tcsrPrescale tm.tcsr

@[simp] theorem modTimer_tcsr (tm : TcuTimer) (m : TcuMatch) (expire : Option (BitVec 64)) :
    (tm.modTimer m expire).tcsr = tm.tcsr := by
  cases m <;> rfl

theorem Expired.tcsr (expired : Expired m s t k now) :
    (t.timers k).tcsr = (s.timers k).tcsr := by
  cases expired with
  | restarts there counts timer =>
    rw [timer]
    exact modTimer_tcsr _ m _
  | idles there idle timer =>
    rw [timer]
    exact modTimer_tcsr _ m none

end Steps

/-! ## Runs -/

/-- Every timer that counts is paced and in phase. -/
structure KeepsPace (x : TimedTcu) : Prop where
  sound : TcuSound x.tcu x.now
  configured : ∀ n, (x.tcu.timers n).Configured
  phase : ∀ n, x.tcu.Times n →
    (x.tcu.timers n).Paced x.rates ∧ ∃ due, Phase (x.tcu.timers n) due x.now

section Runs

variable {x y : TimedTcu} {t : Jz4740Tcu} {n : Fin 8} {e : TcuEvent} {now : BitVec 64}
  {out : Option (BitVec 32)}

/-- A phase goes on up to an event that comes before its deadline. -/
theorem Punctual.phase {own : Fin 8 → Prop} (keepsPace : KeepsPace x)
    (punctual : Punctual x now own) (times : x.tcu.Times n) (other : ¬ own n) :
    ∃ due, Phase (x.tcu.timers n) due now := by
  obtain ⟨-, due, phase⟩ := keepsPace.phase n times
  exact ⟨due, phase.until punctual.later (punctual.due n times other due phase.join)⟩

theorem TcuTimer.Paced.rate {tm : TcuTimer} {rates : TcuRates} (paced : tm.Paced rates)
    (configured : tm.Configured) (clocked : tm.freq ≠ 0#32) :
    tm.freq.toNat = 46875 * tm.prescale.toNat := by
  rw [configured clocked]
  exact paced.2

end Runs

end VirtualNoah
