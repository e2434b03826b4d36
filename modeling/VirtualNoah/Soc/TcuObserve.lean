import VirtualNoah.Soc.TcuCount

/-!
# Observing a timer

A read of TCNT synchronises the timer, and so does a write to the enable
registers, which also computes the deadline of the full match anew.  Both drop
the time since the last tick: the reference time moves to the present.  Two
runs that differ in such observations agree when every synchronisation falls on
a tick or comes before the first one (`observed_timer_unchanged`).
-/

namespace VirtualNoah

open StepRun

/-- A synchronisation that loses nothing: it comes before the first tick or at
one, and the count still fits. -/
structure WholeSync (tm : TcuTimer) (now : BitVec 64) : Prop where
  started : tm.time ≠ 0#64
  fits : tm.tcnt.toNat + (tm.ticks now).toNat < 0x10000
  whole : tm.ticks now = 0#64 ∨ (now - tm.time).toNat * 46875 % 1000000000 = 0

/-- A new deadline that is the armed one: that one was computed at the reference
time, a whole number of ticks ago, and unless this is now, the input clock
divided by the prescaler is the 46875 Hz of the count. -/
structure RearmsOnTime (tm : TcuTimer) (now : BitVec 64) : Prop where
  deadline : tm.fullTimer = some (some (tm.nextMatch .full tm.time))
  whole : (now - tm.time).toNat * 46875 % 1000000000 = 0
  rate : now = tm.time ∨ tm.freq.toNat = 46875 * tm.prescale.toNat
  before : tm.tcnt.toNat + (tm.ticks now).toNat ≤ tm.tdfr.toNat

/-- The second timer is `k` counts ahead of the first, and its reference time by
as much time. -/
structure CountAhead (tm tm' : TcuTimer) (k : Nat) : Prop where
  tcnt : tm'.tcnt.toNat = tm.tcnt.toNat + k
  order : tm.time.toNat ≤ tm'.time.toNat
  time : (tm'.time.toNat - tm.time.toNat) * 46875 = k * 1000000000
  started : tm.time = 0#64 → tm'.time = 0#64

/-- The time since the earlier of two reference times, through the later one. -/
theorem elapsed_split {a b c k : Nat} (first : a ≤ b) (second : b ≤ c)
    (time : (b - a) * 46875 = k * 1000000000) :
    (c - a) * 46875 = (c - b) * 46875 + k * 1000000000 := by
  have whole : c - a = c - b + (b - a) := (Nat.sub_add_sub_cancel second first).symm
  rw [whole, Nat.add_mul, time]

section Arithmetic

variable {tm tm' : TcuTimer} {now : BitVec 64} {k : Nat}

theorem ticks_toNat (tm : TcuTimer) (now : BitVec 64) :
    (tm.ticks now).toNat = (now - tm.time).toNat * 46875 / 1000000000 := by
  have positive : 0 < ticksPerSec.toNat := by decide
  have frequency : (46875 : BitVec 32).toNat = 46875 := rfl
  have second : ticksPerSec.toNat = 1000000000 := rfl
  rw [TcuTimer.ticks, muldiv64_toNat _ positive, frequency, second]
  have bound := (now - tm.time).isLt
  exact Nat.mod_eq_of_lt (by omega)

theorem elapsed_toNat (past : tm.time ≤ now) :
    (now - tm.time).toNat = now.toNat - tm.time.toNat :=
  BitVec.toNat_sub_of_le past

theorem sync_of_short (exactly : WholeSync tm now) (short : tm.ticks now = 0#64) :
    tm.sync now = tm := by
  have fits := exactly.fits
  rw [TcuTimer.sync, if_neg exactly.started]
  simp only [short, ne_eq, not_true_eq_false, if_false]
  exact if_neg fun beyond => by
    rw [BitVec.le_def] at beyond
    simp only [BitVec.toNat_ofNat] at beyond
    omega

theorem sync_of_ticks (exactly : WholeSync tm now) (long : tm.ticks now ≠ 0#64) :
    tm.sync now = { tm with tcnt := tm.tcnt + (tm.ticks now).setWidth 32, time := now } ∧
      (tm.sync now).tcnt.toNat = tm.tcnt.toNat + (tm.ticks now).toNat := by
  have fits := exactly.fits
  have sum : (tm.tcnt + (tm.ticks now).setWidth 32).toNat =
      tm.tcnt.toNat + (tm.ticks now).toNat := by
    rw [BitVec.toNat_add, BitVec.toNat_setWidth]
    omega
  have small : ¬ 0x10000#32 ≤ tm.tcnt + (tm.ticks now).setWidth 32 := by
    rw [BitVec.le_def, sum]
    simp only [BitVec.toNat_ofNat]
    omega
  have value : tm.sync now =
      { tm with tcnt := tm.tcnt + (tm.ticks now).setWidth 32, time := now } := by
    rw [TcuTimer.sync, if_neg exactly.started]
    simp only [long, ne_eq, not_false_eq_true, if_true]
    exact if_neg small
  refine ⟨value, ?_⟩
  rw [value]
  exact sum

theorem CountAhead.ticks (ahead : CountAhead tm tm' k) (past : tm'.time ≤ now) :
    (tm.ticks now).toNat = k + (tm'.ticks now).toNat := by
  have past' : tm.time ≤ now := Nat.le_trans ahead.order past
  have second : 0 < 1000000000 := Nat.succ_pos _
  rw [ticks_toNat, ticks_toNat, elapsed_toNat past, elapsed_toNat past',
    elapsed_split ahead.order past ahead.time, Nat.add_mul_div_right _ _ second, Nat.add_comm]

/-- Nothing ahead means nothing different. -/
theorem CountAhead.eq_of_zero (ahead : CountAhead tm tm' 0) :
    tm'.tcnt = tm.tcnt ∧ tm'.time = tm.time := by
  have order := ahead.order
  have time := ahead.time
  exact ⟨BitVec.eq_of_toNat_eq ahead.tcnt, BitVec.eq_of_toNat_eq (by omega)⟩

theorem ticks_eq_zero_iff : tm.ticks now = 0#64 ↔ (tm.ticks now).toNat = 0 :=
  ⟨fun none => by rw [none]; rfl, fun none => BitVec.eq_of_toNat_eq none⟩

/-- A whole number of ticks, none of which is left, has passed at the reference time. -/
theorem time_eq_of_whole (past : tm.time ≤ now) (none : (tm.ticks now).toNat = 0)
    (whole : (now - tm.time).toNat * 46875 % 1000000000 = 0) : tm.time = now := by
  rw [ticks_toNat] at none
  have zero : (now - tm.time).toNat = 0 := by
    have parts := Nat.div_add_mod ((now - tm.time).toNat * 46875) 1000000000
    rw [none, whole, Nat.mul_zero] at parts
    exact (Nat.mul_eq_zero.mp parts.symm).resolve_right (Nat.succ_ne_zero _)
  rw [elapsed_toNat past] at zero
  have order : tm.time.toNat ≤ now.toNat := past
  exact BitVec.eq_of_toNat_eq (by omega)

/-- With the same ticks behind them, the two synchronisations meet. -/
theorem CountAhead.sync_both (ahead : CountAhead tm tm' k) (exactly : WholeSync tm now)
    (exactly' : WholeSync tm' now) (past : tm'.time ≤ now) :
    (tm'.sync now).tcnt = (tm.sync now).tcnt ∧ (tm'.sync now).time = (tm.sync now).time := by
  have split := ahead.ticks past
  by_cases short : tm.ticks now = 0#64
  · -- no tick since the earlier reference time: the timers are equal
    have none := ticks_eq_zero_iff.mp short
    have short' : tm'.ticks now = 0#64 := ticks_eq_zero_iff.mpr (by omega)
    obtain rfl : k = 0 := by omega
    rw [sync_of_short exactly short, sync_of_short exactly' short']
    exact ahead.eq_of_zero
  · obtain ⟨value, count⟩ := sync_of_ticks exactly short
    have tcnt := ahead.tcnt
    by_cases short' : tm'.ticks now = 0#64
    · -- the later reference time is the present
      have none' := ticks_eq_zero_iff.mp short'
      have whole := exactly.whole.resolve_left short
      have now' : tm'.time = now := by
        refine time_eq_of_whole past none' ?_
        have past' : tm.time ≤ now := Nat.le_trans ahead.order past
        rw [elapsed_toNat past', elapsed_split ahead.order past ahead.time,
          Nat.add_mul_mod_self_right] at whole
        rwa [elapsed_toNat past]
      rw [sync_of_short exactly' short']
      refine ⟨BitVec.eq_of_toNat_eq (by omega), ?_⟩
      rw [value, now']
    · obtain ⟨value', count'⟩ := sync_of_ticks exactly' short'
      refine ⟨BitVec.eq_of_toNat_eq (by omega), ?_⟩
      rw [value, value']

/-- A further synchronisation of the second timer puts it further ahead. -/
theorem CountAhead.sync_more (ahead : CountAhead tm tm' k) (exactly' : WholeSync tm' now)
    (past : tm'.time ≤ now) : ∃ k', CountAhead tm (tm'.sync now) k' := by
  by_cases short' : tm'.ticks now = 0#64
  · rw [sync_of_short exactly' short']
    exact ⟨k, ahead⟩
  · obtain ⟨value', count'⟩ := sync_of_ticks exactly' short'
    have whole := exactly'.whole.resolve_left short'
    have ticks := ticks_toNat tm' now
    have moved : (tm'.sync now).time = now := by rw [value']
    rw [elapsed_toNat past] at whole ticks
    refine ⟨k + (tm'.ticks now).toNat, ?_, ?_, ?_, fun first => ?_⟩
    · rw [count', ahead.tcnt, Nat.add_assoc]
    · rw [moved]
      exact Nat.le_trans ahead.order past
    · have parts := Nat.div_add_mod ((now.toNat - tm'.time.toNat) * 46875) 1000000000
      rw [← ticks, whole, Nat.add_zero] at parts
      rw [moved, elapsed_split ahead.order past ahead.time, ← parts, Nat.mul_comm, Nat.add_comm,
        Nat.add_mul]
    · exact absurd (ahead.started first) exactly'.started

/-- At the nominal rate a count lasts a 46875th of a second. -/
theorem clocks_toNat {r : Nat} {count : BitVec 32} (clocked : tm.freq ≠ 0#32)
    (rate : tm.freq.toNat = 46875 * tm.prescale.toNat)
    (counts : count.toNat = r * tm.prescale.toNat) :
    (tm.clocks count).toNat = r * 1000000000 / 46875 := by
  have small : count.toNat * 1000000000 < 2 ^ 64 := by
    have inside := count.isLt
    omega
  have positive : 0 < tm.freq.toNat := by
    rw [Nat.pos_iff_ne_zero]
    exact fun zero => clocked (BitVec.eq_of_toNat_eq zero)
  have scale : 0 < tm.prescale.toNat := by omega
  have second : ticksPerSec.toNat = 1000000000 := rfl
  have wide : (count.setWidth 64).toNat = count.toNat := by
    rw [BitVec.toNat_setWidth]
    exact Nat.mod_eq_of_lt (by omega)
  have quotient : count.toNat * 1000000000 / tm.freq.toNat = r * 1000000000 / 46875 := by
    rw [counts, rate, Nat.mul_right_comm, Nat.mul_div_mul_right _ _ scale]
  have bound : count.toNat * 1000000000 / tm.freq.toNat ≤ count.toNat * 1000000000 :=
    Nat.div_le_self _ _
  rw [TcuTimer.clocks, muldiv64_toNat _ positive, wide, second,
    Nat.mod_eq_of_lt (Nat.lt_of_le_of_lt bound small)]
  exact quotient

/-- The counts left, in input clocks. -/
theorem counts_left (fit : RegistersFit tm) (before : tm.tcnt.toNat ≤ tm.tdfr.toNat) :
    ((tm.tdfr - tm.tcnt) * tm.prescale).toNat =
      (tm.tdfr.toNat - tm.tcnt.toNat) * tm.prescale.toNat := by
  have bound : (tm.tdfr.toNat - tm.tcnt.toNat) * tm.prescale.toNat ≤ 0xffff * 0x4000 :=
    Nat.mul_le_mul (Nat.le_trans (Nat.sub_le _ _) fit.tdfr) fit.prescale
  rw [BitVec.toNat_mul, BitVec.toNat_sub_of_le before]
  exact Nat.mod_eq_of_lt (by omega)

/-- Two instants after different delays are one when the delays make up for it. -/
theorem add_eq_of_toNat_eq {a b x y : BitVec 64} (sum : x.toNat = y.toNat + (b - a).toNat) :
    b + y = a + x := by
  have delay : x = y + (b - a) := by
    apply BitVec.eq_of_toNat_eq
    rw [BitVec.toNat_add, ← sum]
    exact (Nat.mod_eq_of_lt x.isLt).symm
  have later : a + (b - a) = b := by
    rw [BitVec.add_comm, BitVec.sub_add_cancel]
  rw [delay, BitVec.add_comm y, ← BitVec.add_assoc, later]

theorem rearm_eq (fit : RegistersFit tm) (clocked : tm.freq ≠ 0#32) (past : tm.time ≤ now)
    (exactly : WholeSync tm now) (onTime : RearmsOnTime tm now) :
    (tm.sync now).nextMatch .full now = tm.nextMatch .full tm.time := by
  by_cases short : tm.ticks now = 0#64
  · have present : tm.time = now :=
      time_eq_of_whole past (ticks_eq_zero_iff.mp short) onTime.whole
    rw [sync_of_short exactly short, present]
  · have rate : tm.freq.toNat = 46875 * tm.prescale.toNat := by
      refine onTime.rate.resolve_left fun present => short (ticks_self present.symm)
    obtain ⟨value, count⟩ := sync_of_ticks exactly short
    have before := onTime.before
    -- the counts left now and at the reference time, in nanoseconds
    obtain ⟨synced, hsynced⟩ : ∃ synced, synced = tm.sync now := ⟨_, rfl⟩
    have fields : synced.tdfr = tm.tdfr ∧ synced.prescale = tm.prescale ∧
        synced.freq = tm.freq := by
      rw [hsynced, value]
      exact ⟨rfl, rfl, rfl⟩
    rw [← hsynced] at count ⊢
    have fit' : RegistersFit synced := by
      refine ⟨?_, ?_⟩
      · rw [fields.1]
        exact fit.tdfr
      · rw [fields.2.1]
        exact fit.prescale
    have inside : tm.tcnt.toNat ≤ tm.tdfr.toNat := Nat.le_trans (Nat.le_add_right _ _) before
    have inside' : synced.tcnt.toNat ≤ synced.tdfr.toNat := by
      rw [fields.1, count]
      exact before
    have counts : tm.tdfr.toNat - tm.tcnt.toNat =
        synced.tdfr.toNat - synced.tcnt.toNat + (tm.ticks now).toNat := by
      rw [fields.1, count, Nat.sub_add_eq, Nat.sub_add_cancel]
      exact Nat.le_sub_of_add_le' before
    have left := clocks_toNat clocked rate (counts_left fit inside)
    have left' : (synced.clocks ((synced.tdfr - synced.tcnt) * synced.prescale)).toNat =
        (synced.tdfr.toNat - synced.tcnt.toNat) * 1000000000 / 46875 := by
      refine clocks_toNat (fields.2.2 ▸ clocked) ?_ (counts_left fit' inside')
      rw [fields.2.2, fields.2.1, rate]
    have parts := Nat.div_add_mod ((now - tm.time).toNat * 46875) 1000000000
    rw [← ticks_toNat, onTime.whole, Nat.add_zero] at parts
    have split : (tm.tdfr.toNat - tm.tcnt.toNat) * 1000000000 =
        (synced.tdfr.toNat - synced.tcnt.toNat) * 1000000000 + (now - tm.time).toNat * 46875 := by
      rw [counts, Nat.add_mul, ← parts, Nat.mul_comm 1000000000]
    have divisor : 0 < 46875 := Nat.succ_pos _
    have sum : (tm.clocks ((tm.tdfr - tm.tcnt) * tm.prescale)).toNat =
        (synced.clocks ((synced.tdfr - synced.tcnt) * synced.prescale)).toNat +
          (now - tm.time).toNat := by
      rw [left, left', split, Nat.add_mul_div_right _ _ divisor]
    simp only [TcuTimer.nextMatch, TcuTimer.compare]
    exact add_eq_of_toNat_eq sum

end Arithmetic

/-! ## Two timers side by side -/

/-- The enable bits of timer `n`, for both of its matches. -/
structure SameBits (n : Fin 8) (s s' : Jz4740Tcu) : Prop where
  tsr : ∀ m : TcuMatch, s'.tsr &&& bitMask (m.bit n) = s.tsr &&& bitMask (m.bit n)
  ter : ∀ m : TcuMatch, s'.ter &&& bitMask (m.bit n) = s.ter &&& bitMask (m.bit n)

/-- The second of two timers that differ only in how often they were observed. -/
structure TimerAhead (tm tm' : TcuTimer) : Prop where
  half : tm'.halfTimer = none ↔ tm.halfTimer = none
  full : tm'.fullTimer = tm.fullTimer
  registers : SameRegisters tm tm'
  count : ∃ k, CountAhead tm tm' k

/-- Starting the match synchronises the timer. -/
def StartSyncs (tm : TcuTimer) (m : TcuMatch) (u : Jz4740Tcu) (n : Fin 8) : Prop :=
  tm.timer m ≠ none ∧ u.Counts (m.bit n) tm ∧ u.Counts n tm

section Starts

variable {s s' u u' : Jz4740Tcu} {n : Fin 8} {m : TcuMatch} {tm tm' : TcuTimer}
  {now : BitVec 64} {k : Nat}

theorem SameBits.counts (bits : SameBits n u u') (freq : tm'.freq = tm.freq) (m : TcuMatch) :
    u'.Counts (m.bit n) tm' ↔ u.Counts (m.bit n) tm := by
  rw [Jz4740Tcu.Counts, Jz4740Tcu.Counts, bits.tsr m, bits.ter m, freq]

theorem SameBits.timeSync (bits : SameBits n u u') :
    tm.timeSync u' n now = tm.timeSync u n now := by
  have counts : u'.Counts n tm ↔ u.Counts n tm := bits.counts rfl .full
  simp only [TcuTimer.timeSync, counts]

theorem TimerAhead.timer_none (ahead : TimerAhead tm tm') (m : TcuMatch) :
    tm'.timer m = none ↔ tm.timer m = none := by
  cases m with
  | half => exact ahead.half
  | full => exact iff_of_eq (congrArg (· = none) ahead.full)

theorem modTimer_timer_none (tm : TcuTimer) (m m' : TcuMatch) (expire : Option (BitVec 64))
    (present : tm.timer m ≠ none) :
    (tm.modTimer m expire).timer m' = none ↔ tm.timer m' = none := by
  cases m <;> cases m' <;> simp_all [TcuTimer.modTimer, TcuTimer.timer]

theorem sync_timer (tm : TcuTimer) (now : BitVec 64) (m : TcuMatch) :
    (tm.sync now).timer m = tm.timer m := by
  unfold TcuTimer.sync
  dsimp only
  split
  · cases m <;> rfl
  · split <;> split <;> cases m <;> rfl

theorem timeSync_timer (tm : TcuTimer) (u : Jz4740Tcu) (n : Fin 8) (now : BitVec 64)
    (m : TcuMatch) : (tm.timeSync u n now).timer m = tm.timer m := by
  rw [TcuTimer.timeSync]
  split
  · exact sync_timer tm now m
  · rfl

/-- A start allocates nothing. -/
theorem start_timer_none (tm : TcuTimer) (m m' : TcuMatch) (u : Jz4740Tcu) (n : Fin 8)
    (now : BitVec 64) : (tm.start m u n now).timer m' = none ↔ tm.timer m' = none := by
  unfold TcuTimer.start
  split
  · rfl
  · next present =>
    split
    · refine (modTimer_timer_none _ m m' _ ?_).trans ?_
      · rwa [timeSync_timer]
      · rw [timeSync_timer]
    · exact modTimer_timer_none tm m m' none present

/-- A start that does not synchronise leaves the count alone. -/
theorem start_of_not_syncs (idle : ¬ StartSyncs tm m u n) :
    SameCount tm (tm.start m u n now) := by
  unfold TcuTimer.start
  split
  · exact SameCount.refl tm
  · next present =>
    split
    · next counts =>
      have off : ¬ u.Counts n tm := fun on => idle ⟨present, counts, on⟩
      dsimp only
      rw [TcuTimer.timeSync, if_neg off]
      exact sameCount_modTimer tm m _
    · exact sameCount_modTimer tm m none

/-- A start that synchronises. -/
theorem start_of_syncs (syncs : StartSyncs tm m u n) : tm.start m u n now =
    (tm.sync now).modTimer m (some ((tm.sync now).nextMatch m now)) := by
  rw [TcuTimer.start, if_neg syncs.1, if_pos syncs.2.1]
  dsimp only
  rw [TcuTimer.timeSync, if_pos syncs.2.2]

theorem nextMatch_congr (count : SameCount tm tm') (registers : SameRegisters tm tm')
    (now : BitVec 64) : tm'.nextMatch .full now = tm.nextMatch .full now := by
  simp only [TcuTimer.nextMatch, TcuTimer.compare, TcuTimer.clocks, count.tcnt, registers.tdfr,
    registers.prescale, registers.freq]

/-- A start of the half match does not touch the full one. -/
theorem startHalf_fullTimer (tm : TcuTimer) (u : Jz4740Tcu) (n : Fin 8) (now : BitVec 64) :
    (tm.start .half u n now).fullTimer = tm.fullTimer := by
  unfold TcuTimer.start
  split
  · rfl
  · split
    · exact timeSync_timer tm u n now .full
    · rfl

/-- What a start of the full match leaves armed. -/
theorem startFull_fullTimer (tm : TcuTimer) (u : Jz4740Tcu) (n : Fin 8) (now : BitVec 64) :
    (tm.start .full u n now).fullTimer =
      if tm.fullTimer = none then none
      else if u.Counts n tm then some (some ((tm.sync now).nextMatch .full now))
      else some none := by
  by_cases absent : tm.fullTimer = none
  · have absent' : tm.timer .full = none := absent
    rw [if_pos absent, TcuTimer.start, if_pos absent', absent]
  · have present : tm.timer .full ≠ none := absent
    rw [if_neg absent]
    by_cases counts : u.Counts n tm
    · rw [if_pos counts, start_of_syncs ⟨present, counts, counts⟩]
      rfl
    · have counts' : ¬ u.Counts (TcuMatch.full.bit n) tm := counts
      rw [if_neg counts, TcuTimer.start, if_neg present, if_neg counts']
      rfl

theorem CountAhead.of_same (same : SameCount tm tm') : CountAhead tm tm' 0 := by
  refine ⟨?_, ?_, ?_, fun first => ?_⟩
  · rw [same.tcnt, Nat.add_zero]
  · exact Nat.le_of_eq (congrArg BitVec.toNat same.time.symm)
  · rw [same.time, Nat.sub_self, Nat.zero_mul]
  · rw [same.time, first]

theorem CountAhead.congr {x x' : TcuTimer} (ahead : CountAhead tm tm' k) (first : SameCount tm x)
    (second : SameCount tm' x') : CountAhead x x' k := by
  refine ⟨?_, ?_, ?_, fun zero => ?_⟩
  · rw [first.tcnt, second.tcnt, ahead.tcnt]
  · rw [first.time, second.time]
    exact ahead.order
  · rw [first.time, second.time]
    exact ahead.time
  · rw [second.time]
    exact ahead.started (first.time ▸ zero)

theorem WholeSync.congr (exactly : WholeSync tm now) (same : SameCount tm tm') :
    WholeSync tm' now := by
  have ticks : tm'.ticks now = tm.ticks now := by
    rw [TcuTimer.ticks, TcuTimer.ticks, same.time]
  refine ⟨?_, ?_, ?_⟩
  · rw [same.time]
    exact exactly.started
  · rw [same.tcnt, ticks]
    exact exactly.fits
  · rw [same.time, ticks]
    exact exactly.whole

theorem TimerAhead.startSyncs (bits : SameBits n u u') (ahead : TimerAhead tm tm')
    (m : TcuMatch) : StartSyncs tm' m u' n ↔ StartSyncs tm m u n := by
  rw [StartSyncs, StartSyncs, ne_eq, ne_eq, ahead.timer_none m,
    bits.counts ahead.registers.freq m]
  exact and_congr_right fun _ => and_congr_right fun _ => bits.counts ahead.registers.freq .full

/-- One start of a match in both runs, from timers that meet if it synchronises. -/
theorem start_ahead (bits : SameBits n u u') (ahead : TimerAhead tm tm')
    (meet : StartSyncs tm m u n → SameCount (tm.sync now) (tm'.sync now)) :
    TimerAhead (tm.start m u n now) (tm'.start m u' n now) ∧
      (StartSyncs tm m u n ∨ SameCount tm tm' →
        SameCount (tm.start m u n now) (tm'.start m u' n now)) := by
  have syncs := ahead.startSyncs bits m
  have met : StartSyncs tm m u n →
      SameCount (tm.start m u n now) (tm'.start m u' n now) := by
    intro both
    have first := sameCount_modTimer (tm.sync now) m (some ((tm.sync now).nextMatch m now))
    have second := sameCount_modTimer (tm'.sync now) m (some ((tm'.sync now).nextMatch m now))
    rw [start_of_syncs both, start_of_syncs (syncs.mpr both)]
    exact first.symm.trans ((meet both).trans second)
  have idle : ¬ StartSyncs tm m u n → SameCount tm (tm.start m u n now) ∧
      SameCount tm' (tm'.start m u' n now) := fun neither =>
    ⟨start_of_not_syncs neither, start_of_not_syncs fun one => neither (syncs.mp one)⟩
  refine ⟨⟨?_, ?_, ?_, ?_⟩, ?_⟩
  · exact (start_timer_none tm' m .half u' n now).trans
      (ahead.half.trans (start_timer_none tm m .half u n now).symm)
  · cases m with
    | half => rw [startHalf_fullTimer, startHalf_fullTimer, ahead.full]
    | full =>
      have counts : u'.Counts n tm' ↔ u.Counts n tm := bits.counts ahead.registers.freq .full
      rw [startFull_fullTimer, startFull_fullTimer, ahead.full]
      by_cases absent : tm.fullTimer = none
      · rw [if_pos absent, if_pos absent]
      · rw [if_neg absent, if_neg absent]
        by_cases on : u.Counts n tm
        · have registers : SameRegisters (tm.sync now) (tm'.sync now) :=
            (sameRegisters_sync tm now).symm.trans
              (ahead.registers.trans (sameRegisters_sync tm' now))
          rw [if_pos on, if_pos (counts.mpr on),
            nextMatch_congr (meet ⟨absent, on, on⟩) registers]
        · rw [if_neg on, if_neg fun off => on (counts.mp off)]
  · exact (sameRegisters_start tm m u n now).symm.trans
      (ahead.registers.trans (sameRegisters_start tm' m u' n now))
  · by_cases both : StartSyncs tm m u n
    · exact ⟨0, CountAhead.of_same (met both)⟩
    · obtain ⟨k, count⟩ := ahead.count
      exact ⟨k, count.congr (idle both).1 (idle both).2⟩
  · intro meets
    by_cases both : StartSyncs tm m u n
    · exact met both
    · have same := meets.resolve_left both
      obtain ⟨one, other⟩ := idle both
      exact one.symm.trans (same.trans other)

/-- Timers with one count stay so under the same starts. -/
theorem startAll_ahead_same (ms : List TcuMatch) (bits : SameBits n u u')
    (ahead : TimerAhead tm tm') (same : SameCount tm tm') :
    TimerAhead (tm.startAll ms u n now) (tm'.startAll ms u' n now) := by
  induction ms generalizing tm tm' with
  | nil => exact ahead
  | cons m ms ih =>
    obtain ⟨next, met⟩ := start_ahead (m := m) bits ahead fun _ => same.sync now
    exact ih next (met (Or.inr same))

/-- A start that does not synchronise leaves it open which later ones do. -/
theorem StartSyncs.of_start {m' : TcuMatch} (idle : ¬ StartSyncs tm m u n)
    (later : StartSyncs (tm.start m u n now) m' u n) : StartSyncs tm m' u n := by
  have same : SameCount tm (tm.start m u n now) := start_of_not_syncs idle
  obtain ⟨present, counts, on⟩ := later
  rw [ne_eq, start_timer_none] at present
  rw [Jz4740Tcu.Counts, same.freq] at counts on
  exact ⟨present, counts, on⟩

/-- Common starts of timers that differ in how often they were observed: the
first one that synchronises brings them together. -/
theorem startAll_ahead (ms : List TcuMatch) (bits : SameBits n u u') (ahead : TimerAhead tm tm')
    (past' : tm'.time ≤ now)
    (exactly : (∃ m ∈ ms, StartSyncs tm m u n) → WholeSync tm now ∧ WholeSync tm' now) :
    TimerAhead (tm.startAll ms u n now) (tm'.startAll ms u' n now) := by
  induction ms generalizing tm tm' with
  | nil => exact ahead
  | cons m ms ih =>
    by_cases syncs : StartSyncs tm m u n
    · obtain ⟨first, second⟩ := exactly ⟨m, List.mem_cons_self, syncs⟩
      obtain ⟨k, count⟩ := ahead.count
      have meet : SameCount (tm.sync now) (tm'.sync now) := by
        obtain ⟨tcnt, time⟩ := count.sync_both first second past'
        refine ⟨tcnt, time, ?_⟩
        rw [sync_freq, sync_freq, ahead.registers.freq]
      obtain ⟨next, met⟩ := start_ahead (m := m) bits ahead fun _ => meet
      exact startAll_ahead_same ms bits next (met (Or.inl syncs))
    · have next : TimerAhead (tm.start m u n now) (tm'.start m u' n now) :=
        (start_ahead bits ahead fun both => absurd both syncs).1
      have same : SameCount tm (tm.start m u n now) := start_of_not_syncs syncs
      have same' : SameCount tm' (tm'.start m u' n now) :=
        start_of_not_syncs fun one => syncs ((ahead.startSyncs bits m).mp one)
      refine ih next ?_ ?_
      · rw [same'.time]
        exact past'
      · rintro ⟨m', mem, later⟩
        obtain ⟨first, second⟩ := exactly
          ⟨m', List.mem_cons_of_mem m mem, StartSyncs.of_start syncs later⟩
        exact ⟨first.congr same, second.congr same'⟩

/-- A second synchronisation at the same instant has no effect. -/
theorem WholeSync.again (exactly : WholeSync tm now) (past : tm.time ≤ now) :
    (tm.sync now).sync now = tm.sync now := by
  by_cases short : tm.ticks now = 0#64
  · rw [sync_of_short exactly short, sync_of_short exactly short]
  · obtain ⟨value, count⟩ := sync_of_ticks exactly short
    have fits := exactly.fits
    have present : (tm.sync now).time = now := by rw [value]
    have none := ticks_self present
    refine sync_of_short ⟨?_, ?_, Or.inl none⟩ none
    · rw [present]
      rintro rfl
      exact exactly.started (BitVec.le_zero_iff.mp past)
    · rw [count, none, BitVec.toNat_ofNat, Nat.zero_mod, Nat.add_zero]
      exact fits

/-- Starts after the synchronisation of their instant leave the count alone. -/
theorem startAll_synced (ms : List TcuMatch) {base : TcuTimer} (exactly : WholeSync base now)
    (past : base.time ≤ now) (synced : SameCount (base.sync now) tm) :
    SameCount (base.sync now) (tm.startAll ms u n now) := by
  induction ms generalizing tm with
  | nil => exact synced
  | cons m ms ih =>
    have one : SameCount (base.sync now) (tm.start m u n now) := by
      by_cases syncs : StartSyncs tm m u n
      · have twice := synced.sync now
        rw [exactly.again past] at twice
        rw [start_of_syncs syncs]
        exact twice.trans (sameCount_modTimer _ m _)
      · exact synced.trans (start_of_not_syncs syncs)
    exact ih one

/-- The count after a list of starts is that of one synchronisation or of none. -/
theorem startAll_count (ms : List TcuMatch) (past : tm.time ≤ now)
    (exactly : (∃ m ∈ ms, StartSyncs tm m u n) → WholeSync tm now) :
    SameCount tm (tm.startAll ms u n now) ∨
      WholeSync tm now ∧ SameCount (tm.sync now) (tm.startAll ms u n now) := by
  induction ms generalizing tm with
  | nil => exact Or.inl (SameCount.refl tm)
  | cons m ms ih =>
    by_cases syncs : StartSyncs tm m u n
    · have whole := exactly ⟨m, List.mem_cons_self, syncs⟩
      have one : SameCount (tm.sync now) (tm.start m u n now) := by
        rw [start_of_syncs syncs]
        exact sameCount_modTimer _ m _
      exact Or.inr ⟨whole, startAll_synced ms whole past one⟩
    · have same : SameCount tm (tm.start m u n now) := start_of_not_syncs syncs
      have past' : (tm.start m u n now).time ≤ now := by
        rw [same.time]
        exact past
      rcases ih past' (fun ⟨m', mem, later⟩ => (exactly ⟨m', List.mem_cons_of_mem m mem,
        StartSyncs.of_start syncs later⟩).congr same) with rest | ⟨whole, rest⟩
      · exact Or.inl (same.trans rest)
      · exact Or.inr ⟨whole.congr same.symm, (same.sync now).trans rest⟩

/-- A start of both matches that only the second timer goes through. -/
theorem startBoth_ahead (ahead : TimerAhead tm tm') (fit : RegistersFit tm')
    (past' : tm'.time ≤ now)
    (exactly : (∃ m ∈ [.half, .full], StartSyncs tm' m u n) → WholeSync tm' now)
    (onTime : u.Counts n tm' → tm'.fullTimer ≠ none → RearmsOnTime tm' now)
    (idle : ¬ u.Counts n tm' → tm'.fullTimer = none ∨ tm'.fullTimer = some none) :
    TimerAhead tm (tm'.startAll [.half, .full] u n now) := by
  have registers := sameRegisters_startAll [.half, .full] tm' u n now
  refine ⟨?_, ?_, ahead.registers.trans registers, ?_⟩
  · exact ((start_timer_none _ .full .half u n now).trans
      (start_timer_none tm' .half .half u n now)).trans ahead.half
  · have half : SameRegisters tm' (tm'.start .half u n now) := sameRegisters_start tm' .half u n now
    have counts : u.Counts n (tm'.start .half u n now) ↔ u.Counts n tm' := by
      rw [Jz4740Tcu.Counts, Jz4740Tcu.Counts, half.freq]
    refine Eq.trans ?_ ahead.full
    simp only [TcuTimer.startAll, List.foldl_cons, List.foldl_nil]
    rw [startFull_fullTimer, startHalf_fullTimer]
    by_cases absent : tm'.fullTimer = none
    · rw [if_pos absent, absent]
    · rw [if_neg absent]
      by_cases on : u.Counts n tm'
      · have whole := exactly ⟨.full, by simp, absent, on, on⟩
        have again := onTime on absent
        have same : SameCount (tm'.sync now) ((tm'.start .half u n now).sync now) := by
          rcases startAll_count (u := u) (n := n) [.half] past' fun _ => whole with
            kept | ⟨-, met⟩
          · exact kept.sync now
          · have twice := met.sync now
            rwa [whole.again past'] at twice
        have regs : SameRegisters (tm'.sync now) ((tm'.start .half u n now).sync now) :=
          (sameRegisters_sync tm' now).symm.trans (half.trans (sameRegisters_sync _ now))
        rw [if_pos (counts.mpr on), nextMatch_congr same regs,
          rearm_eq fit on.2.2 past' whole again]
        exact again.deadline.symm
      · rw [if_neg fun off => on (counts.mp off)]
        exact ((idle on).resolve_left absent).symm
  · obtain ⟨k, count⟩ := ahead.count
    rcases startAll_count [.half, .full] past' exactly with kept | ⟨whole, met⟩
    · exact ⟨k, count.congr (SameCount.refl tm) kept⟩
    · obtain ⟨k', more⟩ := count.sync_more whole past'
      exact ⟨k', more.congr (SameCount.refl tm) met⟩

end Starts

/-! ## Observations and common events -/

/-- A write to TESR, TECR, TSSR or TSCR. -/
def TcuEvent.WritesEnable (e : TcuEvent) : Prop :=
  match e.op with
  | .ifWrite8 addr _ => addr = 0x14 ∨ addr = 0x18
  | .ifWrite32 addr _ => addr = 0x2c ∨ addr = 0x3c
  | _ => False

/-- A read of the count of timer `n`, or a write to the enable registers that
leaves its bits as they are. -/
def Observes (n : Fin 8) (s : Jz4740Tcu) (e : TcuEvent) : Prop :=
  e.ReadsTcnt n ∨ e.WritesEnable ∧ SameBits n s (e.latch s)

/-- If the event synchronises timer `n`, that loses no time. -/
def LosesNothing (n : Fin 8) (s : Jz4740Tcu) (e : TcuEvent) : Prop :=
  (∃ m ∈ e.starts n, StartSyncs ((e.latch s).timers n) m (e.latch s) n) ∨
      e.ReadsTcnt n ∧ s.Counts n (s.timers n) →
    WholeSync ((e.latch s).timers n) e.now

/-- If the event is a write that arms the full match of timer `n` again, the
deadline stays where it is. -/
def KeepsDeadline (n : Fin 8) (s : Jz4740Tcu) (e : TcuEvent) : Prop :=
  e.WritesEnable → s.Counts n (s.timers n) → (s.timers n).fullTimer ≠ none →
    RearmsOnTime (s.timers n) e.now

/-- Two states that differ in how often timer `n` was observed. -/
structure Observed (n : Fin 8) (s s' : Jz4740Tcu) : Prop where
  bits : SameBits n s s'
  timer : TimerAhead (s.timers n) (s'.timers n)
  idle : ¬ s'.Counts n (s'.timers n) →
    (s'.timers n).fullTimer = none ∨ (s'.timers n).fullTimer = some none

section Events

variable {s s' t t' : Jz4740Tcu} {n : Fin 8} {e : TcuEvent} {out out' : Option (BitVec 32)}

theorem SameBits.trans {s'' : Jz4740Tcu} (first : SameBits n s s') (second : SameBits n s' s'') :
    SameBits n s s'' :=
  ⟨fun m => (second.tsr m).trans (first.tsr m), fun m => (second.ter m).trans (first.ter m)⟩

theorem SameBits.of_regs (tsr : t.tsr = s.tsr) (ter : t.ter = s.ter) : SameBits n s t :=
  ⟨fun m => by rw [tsr], fun m => by rw [ter]⟩

theorem or_and_congr {x y : BitVec 32} (v m : BitVec 32) (same : y &&& m = x &&& m) :
    (y ||| v) &&& m = (x ||| v) &&& m := by
  rw [BitVec.and_or_distrib_right, BitVec.and_or_distrib_right, same]

theorem andNot_and_congr {x y : BitVec 32} (v m : BitVec 32) (same : y &&& m = x &&& m) :
    (y &&& ~~~v) &&& m = (x &&& ~~~v) &&& m := by
  rw [BitVec.and_assoc, BitVec.and_assoc, BitVec.and_comm (~~~v), ← BitVec.and_assoc,
    ← BitVec.and_assoc, same]

/-- A common event latches the same bits. -/
theorem SameBits.latch (bits : SameBits n s s') (e : TcuEvent) :
    SameBits n (e.latch s) (e.latch s') := by
  rcases e with ⟨now, op⟩
  unfold TcuEvent.latch
  split
  · dsimp only
    split <;> exact ⟨bits.tsr, bits.ter⟩
  · exact ⟨bits.tsr, fun m => or_and_congr _ _ (bits.ter m)⟩
  · exact ⟨bits.tsr, fun m => andNot_and_congr _ _ (bits.ter m)⟩
  · exact ⟨fun m => or_and_congr _ _ (bits.tsr m), bits.ter⟩
  · exact ⟨fun m => andNot_and_congr _ _ (bits.tsr m), bits.ter⟩
  · exact bits

/-- A common event latches the same values into the timers. -/
theorem TimerAhead.latch (ahead : TimerAhead (s.timers n) (s'.timers n)) (e : TcuEvent) :
    TimerAhead ((e.latch s).timers n) ((e.latch s').timers n) := by
  obtain ⟨k, count⟩ := ahead.count
  rcases e with ⟨now, op⟩
  cases op with
  | write j addr rates value =>
    by_cases same : n = j
    · subst same
      simp only [TcuEvent.latch]
      split
      · simp only [setTimer_timers_self]
        exact ⟨ahead.half, ahead.full, ⟨rfl, ahead.registers.prescale, ahead.registers.freq⟩,
          k, ⟨count.tcnt, count.order, count.time, count.started⟩⟩
      · simp only [setTimer_timers_self]
        exact ⟨ahead.half, ahead.full, ⟨ahead.registers.tdfr, ahead.registers.prescale,
          ahead.registers.freq⟩, k, ⟨count.tcnt, count.order, count.time, count.started⟩⟩
      · simp only [setTimer_timers_self]
        refine ⟨ahead.half, ahead.full, ⟨ahead.registers.tdfr, ahead.registers.prescale,
          ahead.registers.freq⟩, 0, CountAhead.of_same ⟨rfl, rfl, ahead.registers.freq⟩⟩
      · simp only [setTimer_timers_self]
        exact ⟨ahead.half, ahead.full, ⟨ahead.registers.tdfr, rfl, rfl⟩,
          k, ⟨count.tcnt, count.order, count.time, count.started⟩⟩
      · exact ahead
    · simp only [TcuEvent.latch]
      split <;> (try simp only [setTimer_timers_of_ne same]) <;> exact ahead
  | _ =>
    unfold TcuEvent.latch
    split <;> first | exact ahead | contradiction

/-- The events that write no register of a timer. -/
theorem enable_cases (e : TcuEvent) (s : Jz4740Tcu) (n : Fin 8)
    (other : ∀ k addr rates value, e.op ≠ .write k addr rates value) :
    e.WritesEnable ∧ e.starts n = [.half, .full] ∧ (e.latch s).timers = s.timers ∨
      ¬ e.WritesEnable ∧ e.starts n = [] ∧ e.latch s = s := by
  rcases e with ⟨now, op⟩
  cases op with
  | write k addr rates value => exact absurd rfl (other k addr rates value)
  | ifWrite8 addr value =>
    by_cases writes : addr = 0x14 ∨ addr = 0x18
    · refine Or.inl ⟨writes, ?_⟩
      rcases writes with rfl | rfl <;> exact ⟨rfl, rfl⟩
    · rw [not_or] at writes
      refine Or.inr ⟨not_or.mpr writes, ?_, ?_⟩
      · unfold TcuEvent.starts
        split <;> simp_all
      · unfold TcuEvent.latch
        split <;> simp_all
  | ifWrite32 addr value =>
    by_cases writes : addr = 0x2c ∨ addr = 0x3c
    · refine Or.inl ⟨writes, ?_⟩
      rcases writes with rfl | rfl <;> exact ⟨rfl, rfl⟩
    · rw [not_or] at writes
      refine Or.inr ⟨not_or.mpr writes, ?_, ?_⟩
      · unfold TcuEvent.starts
        split <;> simp_all
      · unfold TcuEvent.latch
        split <;> simp_all
  | _ => exact Or.inr ⟨id, rfl, rfl⟩

/-- An event starts the full match of a timer last, or it leaves open whether the
timer counts. -/
theorem starts_cases (e : TcuEvent) (s : Jz4740Tcu) (n : Fin 8) :
    (∃ ms, e.starts n = ms ++ [.full]) ∨
      (e.starts n = [] ∨ e.starts n = [.half]) ∧
        ((e.latch s).Counts n ((e.latch s).timers n) ↔ s.Counts n (s.timers n)) ∧
        ((e.latch s).timers n).fullTimer = (s.timers n).fullTimer := by
  by_cases written : ∃ k addr rates value, e.op = .write k addr rates value
  · obtain ⟨k, addr, rates, value, op⟩ := written
    rcases e with ⟨now, _⟩
    cases op
    by_cases same : k = n
    · subst same
      simp only [TcuEvent.starts, TcuEvent.latch, if_true]
      split
      · exact Or.inl ⟨[], rfl⟩
      · refine Or.inr ⟨Or.inr rfl, ?_, ?_⟩ <;> simp only [setTimer_timers_self]
        rfl
      · exact Or.inl ⟨[.half], rfl⟩
      · exact Or.inl ⟨[.half], rfl⟩
      · exact Or.inr ⟨Or.inl rfl, Iff.rfl, rfl⟩
    · have other : n ≠ k := Ne.symm same
      simp only [TcuEvent.starts, TcuEvent.latch, if_neg same]
      refine Or.inr ⟨Or.inl trivial, ?_, ?_⟩
      · split <;> simp only [Jz4740Tcu.Counts, setTimer_timers_of_ne other, setTimer_tsr,
          setTimer_ter]
      · split <;> simp only [setTimer_timers_of_ne other]
  · have other := fun k addr rates value op => written ⟨k, addr, rates, value, op⟩
    rcases enable_cases e s n other with ⟨-, starts, -⟩ | ⟨-, starts, same⟩
    · exact Or.inl ⟨[.half], starts⟩
    · rw [same]
      exact Or.inr ⟨Or.inl starts, Iff.rfl, rfl⟩

/-- A timer that does not count has no deadline, whatever happens to it but its
own callbacks. -/
theorem idle_step (idle : ¬ s.Counts n (s.timers n) →
      (s.timers n).fullTimer = none ∨ (s.timers n).fullTimer = some none)
    (quiet : ¬ e.CallsBack n) (done : tcuStep s e = .ok (t, out)) :
    ¬ t.Counts n (t.timers n) →
      (t.timers n).fullTimer = none ∨ (t.timers n).fullTimer = some none := by
  have effect := tcuStep_effect done quiet
  intro stopped
  by_cases reads : e.ReadsTcnt n
  · rcases e with ⟨now, op⟩
    cases reads
    have timer := (effect.read rfl).1
    have counts : t.Counts n (t.timers n) ↔ s.Counts n (s.timers n) := by
      rw [Jz4740Tcu.Counts, Jz4740Tcu.Counts, effect.tsr, effect.ter, timer,
        (sameRegisters_timeSync _ s n now).freq]
      rfl
    have same : (t.timers n).fullTimer = (s.timers n).fullTimer := by
      rw [timer]
      exact timeSync_timer _ s n now .full
    rw [same]
    exact idle fun on => stopped (counts.mpr on)
  · have timer := effect.other reads
    have counts : t.Counts n (t.timers n) ↔
        (e.latch s).Counts n ((e.latch s).timers n) := by
      rw [Jz4740Tcu.Counts, Jz4740Tcu.Counts, effect.tsr, effect.ter, timer,
        (sameRegisters_startAll _ _ _ n e.now).freq]
    rcases starts_cases e s n with ⟨ms, last⟩ | ⟨short, same, full⟩
    · have off : ¬ (e.latch s).Counts n
          (((e.latch s).timers n).startAll ms (e.latch s) n e.now) := by
        rw [Jz4740Tcu.Counts, (sameRegisters_startAll ms _ _ n e.now).freq]
        exact fun on => stopped (counts.mpr on)
      rw [timer, last, TcuTimer.startAll, List.foldl_append]
      simp only [List.foldl_cons, List.foldl_nil]
      rw [startFull_fullTimer]
      split
      · exact Or.inl rfl
      · rw [← TcuTimer.startAll, if_neg off]
        exact Or.inr rfl
    · have kept : (t.timers n).fullTimer = (s.timers n).fullTimer := by
        rcases short with none | half
        · rw [timer, none]
          exact full
        · rw [timer, half]
          exact (startHalf_fullTimer _ _ n e.now).trans full
      rw [kept]
      exact idle fun on => stopped (counts.mpr (same.mpr on))

/-- A synchronisation both runs make at one instant. -/
theorem timeSync_ahead {tm tm' : TcuTimer} {now : BitVec 64} (bits : SameBits n s s')
    (ahead : TimerAhead tm tm') (past' : tm'.time ≤ now)
    (exactly : s.Counts n tm → WholeSync tm now ∧ WholeSync tm' now) :
    TimerAhead (tm.timeSync s n now) (tm'.timeSync s' n now) := by
  have counts : s'.Counts n tm' ↔ s.Counts n tm := bits.counts ahead.registers.freq .full
  have registers := (sameRegisters_timeSync tm s n now).symm.trans
    (ahead.registers.trans (sameRegisters_timeSync tm' s' n now))
  have timer : ∀ m, (tm'.timeSync s' n now).timer m = tm'.timer m := timeSync_timer tm' s' n now
  have timer' : ∀ m, (tm.timeSync s n now).timer m = tm.timer m := timeSync_timer tm s n now
  refine ⟨?_, ?_, registers, ?_⟩
  · exact (iff_of_eq (congrArg (· = none) (timer .half))).trans
      (ahead.half.trans (iff_of_eq (congrArg (· = none) (timer' .half))).symm)
  · exact (timer .full).trans (ahead.full.trans (timer' .full).symm)
  · obtain ⟨k, count⟩ := ahead.count
    by_cases on : s.Counts n tm
    · obtain ⟨first, second⟩ := exactly on
      obtain ⟨tcnt, time⟩ := count.sync_both first second past'
      rw [TcuTimer.timeSync, TcuTimer.timeSync, if_pos on, if_pos (counts.mpr on)]
      refine ⟨0, CountAhead.of_same ⟨tcnt, time, ?_⟩⟩
      rw [sync_freq, sync_freq, ahead.registers.freq]
    · rw [TcuTimer.timeSync, TcuTimer.timeSync, if_neg on, if_neg fun off => on (counts.mp off)]
      exact ⟨k, count⟩

/-- A common event keeps the two runs apart by observations only. -/
theorem observed_shared (observed : Observed n s s') (past' : (s'.timers n).time ≤ e.now)
    (quiet : ¬ e.CallsBack n) (exactly : LosesNothing n s e) (exactly' : LosesNothing n s' e)
    (done : tcuStep s e = .ok (t, out)) (done' : tcuStep s' e = .ok (t', out')) :
    Observed n t t' := by
  have effect := tcuStep_effect done quiet
  have effect' := tcuStep_effect done' quiet
  have bits := observed.bits.latch e
  refine ⟨?_, ?_, idle_step observed.idle quiet done'⟩
  · exact ((SameBits.of_regs effect.tsr.symm effect.ter.symm).trans bits).trans
      (SameBits.of_regs effect'.tsr effect'.ter)
  · by_cases reads : e.ReadsTcnt n
    · rcases e with ⟨now, op⟩
      cases reads
      rw [(effect.read rfl).1, (effect'.read rfl).1]
      have counts : s'.Counts n (s'.timers n) ↔ s.Counts n (s.timers n) :=
        observed.bits.counts observed.timer.registers.freq .full
      exact timeSync_ahead observed.bits observed.timer past' fun on =>
        ⟨exactly (Or.inr ⟨rfl, on⟩), exactly' (Or.inr ⟨rfl, counts.mpr on⟩)⟩
    · rw [effect.other reads, effect'.other reads]
      have ahead := observed.timer.latch e
      refine startAll_ahead (e.starts n) bits ahead ?_ ?_
      · rcases latch_time e s' n with same | moved
        · rwa [same]
        · rw [moved]
          exact BitVec.le_refl e.now
      · rintro ⟨m, mem, syncs⟩
        exact ⟨exactly (Or.inl ⟨m, mem, syncs⟩),
          exactly' (Or.inl ⟨m, mem, (ahead.startSyncs bits m).mpr syncs⟩)⟩

/-- An additional observation puts the second run further ahead. -/
theorem observed_extra (observed : Observed n s s') (fit : RegistersFit (s'.timers n))
    (past' : (s'.timers n).time ≤ e.now) (observes : Observes n s' e)
    (exactly' : LosesNothing n s' e) (keeps : KeepsDeadline n s' e)
    (done' : tcuStep s' e = .ok (t', out')) : Observed n s t' := by
  have quiet : ¬ e.CallsBack n := by
    rintro ⟨m, calls⟩
    rcases e with ⟨now, op⟩
    cases calls
    rcases observes with reads | ⟨writes, -⟩
    · cases reads
    · exact writes
  have effect' := tcuStep_effect done' quiet
  have regs := SameBits.of_regs (n := n) effect'.tsr effect'.ter
  have idle := idle_step observed.idle quiet done'
  obtain ⟨k, count⟩ := observed.timer.count
  rcases observes with reads | ⟨writes, bits⟩
  · rcases e with ⟨now, op⟩
    cases reads
    refine ⟨observed.bits.trans regs, ?_, idle⟩
    rw [(effect'.read rfl).1]
    refine ⟨?_, ?_, observed.timer.registers.trans (sameRegisters_timeSync _ s' n now), ?_⟩
    · exact (iff_of_eq (congrArg (· = none) (timeSync_timer _ s' n now .half))).trans
        observed.timer.half
    · exact (timeSync_timer _ s' n now .full).trans observed.timer.full
    · rw [TcuTimer.timeSync]
      split
      · next on => exact count.sync_more (exactly' (Or.inr ⟨rfl, on⟩)) past'
      · exact ⟨k, count⟩
  · have other : ¬ e.ReadsTcnt n := by
      intro reads
      rcases e with ⟨now, op⟩
      cases reads
      exact writes
    have noWrite : ∀ j addr rates value, e.op ≠ .write j addr rates value := by
      intro j addr rates value written
      rcases e with ⟨now, op⟩
      cases written
      exact writes
    obtain ⟨-, starts, timers⟩ := (enable_cases e s' n noWrite).resolve_right
      fun none => none.1 writes
    refine ⟨(observed.bits.trans bits).trans regs, ?_, idle⟩
    have counts : (e.latch s').Counts n (s'.timers n) ↔ s'.Counts n (s'.timers n) :=
      bits.counts rfl .full
    rw [effect'.other other, starts, timers]
    refine startBoth_ahead observed.timer fit past' ?_ ?_ ?_
    · rintro ⟨m, mem, syncs⟩
      have whole := exactly' (Or.inl ⟨m, by rw [starts]; exact mem, by rw [timers]; exact syncs⟩)
      rwa [timers] at whole
    · exact fun on present => keeps writes (counts.mp on) present
    · exact fun off => observed.idle fun on => off (counts.mpr on)

end Events

/-- What a read shows at the end of two such runs. -/
theorem observed_read {s s' : Jz4740Tcu} {n : Fin 8} {now : BitVec 64}
    (observed : Observed n s s') (past' : (s'.timers n).time ≤ now)
    (settled : s.Counts n (s.timers n) ∨ (s'.timers n).time = (s.timers n).time) :
    ((s'.timers n).timeSync s' n now).tcnt = ((s.timers n).timeSync s n now).tcnt := by
  obtain ⟨k, count⟩ := observed.timer.count
  have counts : s'.Counts n (s'.timers n) ↔ s.Counts n (s.timers n) :=
    observed.bits.counts observed.timer.registers.freq .full
  by_cases on : s.Counts n (s.timers n)
  · rw [TcuTimer.timeSync, TcuTimer.timeSync, if_pos on, if_pos (counts.mpr on), sync_tcnt,
      sync_tcnt]
    by_cases first : (s.timers n).time = 0#64
    · rw [if_pos first, if_pos (count.started first)]
    · have again : (s'.timers n).time ≠ 0#64 := by
        intro zero
        have order := count.order
        rw [zero] at order
        exact first (BitVec.eq_of_toNat_eq (Nat.le_zero.mp order))
      have sum : (s'.timers n).tcnt + ((s'.timers n).ticks now).setWidth 32 =
          (s.timers n).tcnt + ((s.timers n).ticks now).setWidth 32 := by
        apply BitVec.eq_of_toNat_eq
        rw [BitVec.toNat_add, BitVec.toNat_add, BitVec.toNat_setWidth, BitVec.toNat_setWidth,
          count.ticks past', count.tcnt, Nat.add_mod_mod, Nat.add_mod_mod, Nat.add_assoc]
      rw [if_neg first, if_neg again, sum]
  · have same := settled.resolve_left on
    have none : k = 0 := by
      have time := count.time
      rw [same, Nat.sub_self, Nat.zero_mul] at time
      exact (Nat.mul_eq_zero.mp time.symm).resolve_right (Nat.succ_ne_zero _)
    subst none
    rw [TcuTimer.timeSync, TcuTimer.timeSync, if_neg on, if_neg fun off => on (counts.mp off)]
    exact count.eq_of_zero.1

/-- Timer `n` is enabled and clocked in a sound state.  Of two runs from there
without a match of the timer, the second making additional observations of it,
both end with the same count and the same deadline, when no synchronisation
loses time, no additional write moves the deadline, and a timer that has been
stopped was last synchronised at the same instant in both. -/
theorem observed_timer_unchanged (n : Fin 8) (es es' : List TcuEvent) (start now : BitVec 64)
    {s t t' r r' : Jz4740Tcu} {v v' : BitVec 32} (sound : TcuSound s start)
    (counting : s.Counts n (s.timers n))
    (ordered : ClockOrdered start (es ++ [⟨now, .read n (tcntAddr n)⟩]))
    (ordered' : ClockOrdered start (es' ++ [⟨now, .read n (tcntAddr n)⟩]))
    (runs : TwoRuns tcuStep (fun s e => ¬ e.CallsBack n ∧ LosesNothing n s e)
      (fun s e => Observes n s e ∧ LosesNothing n s e ∧ KeepsDeadline n s e) s s es es' t t')
    (settled : t.Counts n (t.timers n) ∨ (t'.timers n).time = (t.timers n).time)
    (first : tcuStep t ⟨now, .read n (tcntAddr n)⟩ = .ok (r, some v))
    (second : tcuStep t' ⟨now, .read n (tcntAddr n)⟩ = .ok (r', some v')) :
    v' = v ∧ (r'.timers n).fullTimer = (r.timers n).fullTimer := by
  have equal : Observed n s s := by
    refine ⟨SameBits.of_regs rfl rfl, ⟨Iff.rfl, rfl, ⟨rfl, rfl, rfl⟩, 0, ?_⟩, ?_⟩
    · exact CountAhead.of_same (SameCount.refl _)
    · exact fun off => absurd counting off
  obtain ⟨observed, a, a', -, sound', -, last⟩ := runs.related
    (fun s s' es es' => Observed n s s' ∧ ∃ a a', TcuSound s a ∧ TcuSound s' a' ∧
      ClockOrdered a (es ++ [⟨now, .read n (tcntAddr n)⟩]) ∧
      ClockOrdered a' (es' ++ [⟨now, .read n (tcntAddr n)⟩]))
    (by
      rintro s s' t t' e b b' es es' ⟨observed, a, a', sound, sound', later, later'⟩
        ⟨quiet, whole⟩ ⟨-, whole'⟩ done done'
      have past' : (s'.timers n).time ≤ e.now := BitVec.le_trans (sound'.past n) later'.1
      exact ⟨observed_shared observed past' quiet whole whole' done done', e.now, e.now,
        tcuSound_step sound later.1 done, tcuSound_step sound' later'.1 done', later.2, later'.2⟩)
    (by
      rintro s s' t' e b' es es' ⟨observed, a, a', sound, sound', later, later'⟩
        ⟨observes, whole, keeps⟩ done'
      have past' : (s'.timers n).time ≤ e.now := BitVec.le_trans (sound'.past n) later'.1
      exact ⟨observed_extra observed (sound'.registers n) past' observes whole keeps done',
        a, e.now, sound, tcuSound_step sound' later'.1 done', later, later'.2⟩)
    ⟨equal, start, start, sound, sound, ordered, ordered'⟩
  have past' : (t'.timers n).time ≤ now := BitVec.le_trans (sound'.past n) last.1
  refine ⟨?_, ?_⟩
  · rw [of_readTcnt first, of_readTcnt second]
    exact observed_read observed past' settled
  · have effect : TimerEffect _ t r n (some v) := tcuStep_effect first nofun
    have effect' : TimerEffect _ t' r' n (some v') := tcuStep_effect second nofun
    rw [(effect.read rfl).1, (effect'.read rfl).1]
    exact (timeSync_timer _ t' n now .full).trans
      (observed.timer.full.trans (timeSync_timer _ t n now .full).symm)

/-- A write of zero to TESR enables nothing. -/
theorem sameBits_tesr_zero (n : Fin 8) (now : BitVec 64) (s : Jz4740Tcu) :
    SameBits n s (TcuEvent.latch ⟨now, .ifWrite8 0x14 0⟩ s) :=
  SameBits.of_regs rfl BitVec.or_zero

/-- A read in the middle of a tick and a write that changes no bit: the count is
one short at the end and the deadline has moved. -/
theorem observed_timer_changed :
    ∃ s t t' r r' outs, tcuRun (tcuPowerOn [0]) startTimer0 = .ok (s, outs) ∧
      s.Counts 0 (s.timers 0) ∧
      TwoRuns tcuStep (fun _ e => ¬ e.CallsBack 0) (Observes 0) s s []
        [⟨41000, .read 0 (tcntAddr 0)⟩, ⟨41000, .ifWrite8 0x14 0⟩] t t' ∧
      tcuStep t ⟨65000, .read 0 (tcntAddr 0)⟩ = .ok (r, some 3) ∧
      tcuStep t' ⟨65000, .read 0 (tcntAddr 0)⟩ = .ok (r', some 2) ∧
      (r'.timers 0).fullTimer ≠ (r.timers 0).fullTimer := by
  refine ⟨_, _, _, _, _, _, rfl, ⟨by decide, by decide, by decide⟩,
    .more (Or.inl rfl) rfl (.more (Or.inr ⟨Or.inl rfl, sameBits_tesr_zero _ _ _⟩) rfl (.done _ _)),
    rfl, rfl, by decide⟩

/-- Observations of timer 0 three and six ticks after it was started. -/
theorem observed_timer_unchanged_on_ticks :
    ∃ s t t' r r' outs v v', tcuRun (tcuPowerOn [0]) startTimer0 = .ok (s, outs) ∧
      TwoRuns tcuStep (fun _ e => ¬ e.CallsBack 0) (Observes 0) s s []
        [⟨65000, .read 0 (tcntAddr 0)⟩, ⟨129000, .ifWrite8 0x14 0⟩] t t' ∧
      tcuStep t ⟨200000, .read 0 (tcntAddr 0)⟩ = .ok (r, some v) ∧
      tcuStep t' ⟨200000, .read 0 (tcntAddr 0)⟩ = .ok (r', some v') ∧
      v' = v ∧ (r'.timers 0).fullTimer = (r.timers 0).fullTimer := by
  refine ⟨_, _, _, _, _, _, _, _, rfl,
    .more (Or.inl rfl) rfl (.more (Or.inr ⟨Or.inl rfl, sameBits_tesr_zero _ _ _⟩) rfl (.done _ _)),
    rfl, rfl, ?_⟩
  refine observed_timer_unchanged 0 [] [⟨65000, .read 0 (tcntAddr 0)⟩, ⟨129000, .ifWrite8 0x14 0⟩]
    1000 200000 ?_ ?_ ?_ ?_ (.more ⟨Or.inl rfl, ?_, ?_⟩ rfl
      (.more ⟨Or.inr ⟨Or.inl rfl, sameBits_tesr_zero _ _ _⟩, ?_, ?_⟩ rfl (.done _ _))) ?_ rfl rfl
  · have ordered : ClockOrdered 0 (startTimer0 ++ [⟨1000, .ifRead8 0x10⟩]) := by
      simp only [startTimer0, List.cons_append, List.nil_append, ClockOrdered]
      decide
    exact tcuSound_run (tcuSound_powerOn [0]) ordered rfl
  · exact ⟨by decide, by decide, by decide⟩
  · simp only [List.nil_append, ClockOrdered]
    decide
  · simp only [List.cons_append, List.nil_append, ClockOrdered]
    decide
  · exact fun _ => ⟨by decide, by decide, Or.inr (by decide)⟩
  · exact fun writes => writes.elim
  · exact fun _ => ⟨by decide, by decide, Or.inr (by decide)⟩
  · exact fun _ _ _ => ⟨by decide, by decide, Or.inr (by decide), by decide⟩
  · exact Or.inl ⟨by decide, by decide, by decide⟩
end VirtualNoah
