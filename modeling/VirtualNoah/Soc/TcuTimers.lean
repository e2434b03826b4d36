import VirtualNoah.Soc.TcuObserve
import VirtualNoah.Soc.TimerQueue

/-!
# The TCU under QEMU's timers

The callbacks of the TCU arm their own timer again, a period after the clock they read.  With
periods of a nanosecond and more `qemu_run_timers` ends; with a period of zero it goes on until
the clock moves, and with `-icount` the clock stands still between instructions.
-/

namespace VirtualNoah

open QemuTimers

/-- `half_timer[n]` and `full_timer[n]` -/
abbrev TcuTimerId := Fin 8 × TcuMatch

/-- The unit, and what its callbacks are going to read from `vm_clock`. -/
structure TcuHost where
  tcu : Jz4740Tcu
  readings : Nat → BitVec 64

/-- What a callback has asked for: its own timer is armed or stopped. -/
def tcuCalls (ts : TcuTimerId) (t : Jz4740Tcu) : List (TimerCall TcuTimerId) :=
  match (t.timers ts.1).timer ts.2 with
  | some (some expire) => [.mod ts expire.toInt]
  | _ => [.del ts]

/-- A callback of the TCU as `qemu_run_timers` calls it.  A timer that has not been made is in no
list. -/
def tcuCb (ts : TcuTimerId) (_ : QemuTimers TcuTimerId) (h : TcuHost) :
    TcuHost × List (TimerCall TcuTimerId) :=
  match tcuCallback ts.2 h.tcu ts.1 (h.readings 0) with
  | .ok t => (⟨t, fun i => h.readings (i + 1)⟩, tcuCalls ts t)
  | .error _ => (h, [])

section Timers

variable {made : Finset TcuTimerId} {s t : Jz4740Tcu} {h : TcuHost} {ts : TcuTimerId}
  {now : Int} {reading : BitVec 64} {tm : TcuTimer}

theorem tcuCalls_timer : ∀ x ∈ tcuCalls ts t, x.timer = ts := by
  intro x mem
  unfold tcuCalls at mem
  split at mem <;> rw [List.mem_singleton.mp mem] <;> rfl

theorem tcuCb_timer (q : QemuTimers TcuTimerId) : ∀ x ∈ (tcuCb ts q h).2, x.timer = ts := by
  intro x mem
  unfold tcuCb at mem
  split at mem
  · exact tcuCalls_timer x mem
  · cases mem

/-- The deadline a period later, without a carry out of 64 bits. -/
theorem due_toInt (fit : RegistersFit tm) (clocked : tm.freq ≠ 0#32)
    (early : 0 ≤ reading.toInt) (small : reading.toInt < 2 ^ 62) :
    (reading + tm.clocks (tm.tdfr * tm.prescale)).toInt =
      reading.toInt + (tm.tdfr.toNat * tm.prescale.toNat * 1000000000 / tm.freq.toNat : Nat) := by
  have positive : 0 < tm.freq.toNat := by
    rw [Nat.pos_iff_ne_zero]
    exact fun zero => clocked (BitVec.eq_of_toNat_eq zero)
  have count : tm.tdfr.toNat * tm.prescale.toNat ≤ 0xffff * 0x4000 :=
    Nat.mul_le_mul fit.tdfr fit.prescale
  have product : (tm.tdfr * tm.prescale).toNat = tm.tdfr.toNat * tm.prescale.toNat := by
    rw [BitVec.toNat_mul]
    exact Nat.mod_eq_of_lt (by omega)
  have wide : ((tm.tdfr * tm.prescale).setWidth 64).toNat =
      tm.tdfr.toNat * tm.prescale.toNat := by
    rw [BitVec.toNat_setWidth, product]
    exact Nat.mod_eq_of_lt (by omega)
  have second : ticksPerSec.toNat = 1000000000 := rfl
  have bound : tm.tdfr.toNat * tm.prescale.toNat * 1000000000 / tm.freq.toNat ≤
      0xffff * 0x4000 * 1000000000 :=
    (Nat.div_le_self _ _).trans (Nat.mul_le_mul_right _ count)
  have clocks : (tm.clocks (tm.tdfr * tm.prescale)).toNat =
      tm.tdfr.toNat * tm.prescale.toNat * 1000000000 / tm.freq.toNat := by
    rw [TcuTimer.clocks, muldiv64_toNat _ positive, wide, second]
    exact Nat.mod_eq_of_lt (by omega)
  have signed : (tm.clocks (tm.tdfr * tm.prescale)).toInt =
      (tm.tdfr.toNat * tm.prescale.toNat * 1000000000 / tm.freq.toNat : Nat) := by
    rw [BitVec.toInt_eq_toNat_of_lt (by omega), clocks]
  rw [BitVec.toInt_add, signed]
  exact Int.bmod_eq_of_le (by omega) (by omega)

/-- A callback keeps the registers of every timer, and makes and frees none. -/
structure TcuKept (s t : Jz4740Tcu) : Prop where
  tsr : t.tsr = s.tsr
  ter : t.ter = s.ter
  registers : ∀ n, SameRegisters (s.timers n) (t.timers n)
  there : ∀ n m, (s.timers n).timer m ≠ none → (t.timers n).timer m ≠ none

theorem tcuCallback_kept {m : TcuMatch} {n : Fin 8} (called : tcuCallback m s n reading = .ok t) :
    TcuKept s t := by
  have own := tcuCallback_expired called
  obtain ⟨tsr, ter, -⟩ := tcuCallback_effect (n := n) called
  have others : ∀ k, k ≠ n → t.timers k = s.timers k := fun k => (tcuCallback_effect called).2.2
  refine ⟨tsr, ter, fun k => ?_, fun k m' there => ?_⟩
  · by_cases same : k = n
    · subst same
      exact own.sameRegisters
    · rw [others k same]
      exact ⟨rfl, rfl, rfl⟩
  · by_cases same : k = n
    · subst same
      cases own with
      | restarts present _ timer =>
        rw [timer]
        have kept := fun expire => (modTimer_timer_none _ _ m' expire present).not.mpr there
        cases m' <;> exact kept _
      | idles present _ timer =>
        rw [timer]
        exact (modTimer_timer_none _ _ m' none present).not.mpr there
    · rwa [others k same]

/-- The timers that may be armed are there, their registers are as a guest can write them, and
the clock does not go back behind `now`. -/
structure TcuReady (made : Finset TcuTimerId) (now : Int) (h : TcuHost) : Prop where
  there : ∀ ts ∈ made, (h.tcu.timers ts.1).timer ts.2 ≠ none
  fit : ∀ n, RegistersFit (h.tcu.timers n)
  started : ∀ i, 0 ≤ (h.readings i).toInt
  onwards : ∀ i, now ≤ (h.readings i).toInt
  small : ∀ i, (h.readings i).toInt < 2 ^ 62

/-- The nanoseconds of a period, as the callbacks round them. -/
def TcuTimer.period (tm : TcuTimer) : Nat :=
  tm.tdfr.toNat * tm.prescale.toNat * 1000000000 / tm.freq.toNat

theorem SameRegisters.period {tm' : TcuTimer} (same : SameRegisters tm tm') :
    tm'.period = tm.period := by
  rw [TcuTimer.period, same.tdfr, same.prescale, same.freq, TcuTimer.period]

theorem TcuReady.callback (ready : TcuReady made now h)
    (called : tcuCallback ts.2 h.tcu ts.1 (h.readings 0) = .ok t) :
    TcuReady made now ⟨t, fun i => h.readings (i + 1)⟩ where
  there ts mem := (tcuCallback_kept called).there _ _ (ready.there ts mem)
  fit n := (ready.fit n).of_same ((tcuCallback_kept called).registers n)
  started i := ready.started (i + 1)
  onwards i := ready.onwards (i + 1)
  small i := ready.small (i + 1)

/-- A callback of a timer that counts arms it again a period after the clock it reads. -/
theorem tcuCalls_of_counts (ready : TcuReady made now h) (counts : h.tcu.Counts (ts.2.bit ts.1)
      (h.tcu.timers ts.1))
    (called : tcuCallback ts.2 h.tcu ts.1 (h.readings 0) = .ok t) :
    tcuCalls ts t = [.mod ts ((h.readings 0).toInt + (h.tcu.timers ts.1).period)] := by
  have due := due_toInt (ready.fit ts.1) counts.2.2 (ready.started 0) (ready.small 0)
  obtain ⟨n, m⟩ := ts
  cases tcuCallback_expired called with
  | restarts _ _ timer =>
    rw [TcuTimer.period, ← due, tcuCalls, timer]
    cases m <;> rfl
  | idles _ idle _ => exact absurd counts idle

theorem tcuCalls_of_idle (idle : ¬ h.tcu.Counts (ts.2.bit ts.1) (h.tcu.timers ts.1))
    (called : tcuCallback ts.2 h.tcu ts.1 reading = .ok t) : tcuCalls ts t = [.del ts] := by
  obtain ⟨n, m⟩ := ts
  cases tcuCallback_expired called with
  | restarts _ counts _ => exact absurd counts idle
  | idles _ _ timer =>
    rw [tcuCalls, timer]
    cases m <;> rfl

theorem TcuKept.counts_iff (kept : TcuKept s t) {bit : Nat} {n : Fin 8} :
    t.Counts bit (t.timers n) ↔ s.Counts bit (s.timers n) := by
  rw [Jz4740Tcu.Counts, Jz4740Tcu.Counts, kept.tsr, kept.ter, (kept.registers n).freq]

theorem tcuCallback_ok {m : TcuMatch} {n : Fin 8} (there : (s.timers n).timer m ≠ none) :
    ∃ t, tcuCallback m s n reading = .ok t := by
  unfold tcuCallback
  rw [if_neg there]
  split <;> exact ⟨_, rfl⟩

theorem tcuCb_ok (ready : TcuReady made now h) (mem : ts ∈ made) (q : QemuTimers TcuTimerId) :
    ∃ t, tcuCallback ts.2 h.tcu ts.1 (h.readings 0) = .ok t ∧
      tcuCb ts q h = (⟨t, fun i => h.readings (i + 1)⟩, tcuCalls ts t) := by
  obtain ⟨t, called⟩ := tcuCallback_ok (ready.there ts mem)
  exact ⟨t, called, by rw [tcuCb, called]⟩

/-! ## Periods of a nanosecond and more -/

/-- No period of a timer with a clock is rounded to zero. -/
structure TcuPaced (made : Finset TcuTimerId) (now : Int) (h : TcuHost) : Prop
    extends TcuReady made now h where
  paced : ∀ n, (h.tcu.timers n).freq ≠ 0#32 → 0 < (h.tcu.timers n).period

theorem TcuPaced.turn (paced : TcuPaced made now h) (mem : ts ∈ made)
    (q : QemuTimers TcuTimerId) : TcuPaced made now (tcuCb ts q h).1 ∧
      ∀ x ∈ (tcuCb ts q h).2, x.timer ∈ made ∧ x.Later (fun _ => .virtual) .virtual now := by
  obtain ⟨t, called, result⟩ := tcuCb_ok paced.toTcuReady mem q
  rw [result]
  refine ⟨⟨paced.toTcuReady.callback called, fun n clocked => ?_⟩, fun x named => ⟨?_, ?_⟩⟩
  · have same := (tcuCallback_kept called).registers n
    rw [same.period]
    exact paced.paced n (same.freq ▸ clocked)
  · rwa [tcuCalls_timer x named]
  · rintro u e rfl -
    by_cases counts : h.tcu.Counts (ts.2.bit ts.1) (h.tcu.timers ts.1)
    · rw [tcuCalls_of_counts paced.toTcuReady counts called, List.mem_singleton] at named
      cases named
      have onwards := paced.onwards 0
      have pace := paced.paced ts.1 counts.2.2
      omega
    · rw [tcuCalls_of_idle counts called, List.mem_singleton] at named
      cases named

variable {fuel : Nat} {calls : List (TimerCall TcuTimerId)}

/-- Where no period is rounded to zero, `qemu_run_timers` ends.  It has fired exactly the timers of
the unit that were due, each of them once and in the order of their deadlines. -/
theorem tcuTimers_fire (paced : TcuPaced made now h) (known : ∀ x ∈ calls, x.timer ∈ made)
    (enough : made.card < fuel) :
    ∃ s s' h' fired later, calls.foldlM (call fuel) (newTimers fun _ => .virtual) = .ok s ∧
      qemuRunTimers tcuCb .virtual now fuel fuel s h = .ok (s', h', fired, later) ∧
      fired.Nodup ∧ fired.Pairwise (s.expireTime · ≤ s.expireTime ·) ∧
      (∀ ts, ts ∈ fired ↔ ∃ e ≤ now, asked (fun _ => none) calls ts = some e) ∧
      ∀ ts, s'.qemuTimerPending fuel ts = .ok true → now < s'.expireTime ts := by
  obtain ⟨s, q, done, holds, same, -⟩ :=
    calls_ok (newTimers_armed fun _ => TimerClock.virtual) known enough
  have same : s.clock = fun _ => .virtual := same
  have few : (expired s now (q .virtual)).length < fuel :=
    ((List.length_filter_le _ _).trans (holds.lists.length_le _)).trans_lt enough
  obtain ⟨s', h', fired, later, q', armed', ran, ends, same', empty, sub, each⟩ :=
    qemuRunTimers_ok holds (fun ts mem q h paced => by
      rw [same]
      exact TcuPaced.turn paced mem q) enough few paced
  have all : ∀ ts, ts ∈ fired ↔ ts ∈ expired s now (q .virtual) := by
    refine fun ts => ⟨fun mem => sub.subset mem, fun mem => ?_⟩
    rcases each ts mem with mem | ⟨x, named, rfl⟩
    · exact mem
    · exact later_timer (fun _ q h => tcuCb_timer q) ran x named
  refine ⟨s, s', h', fired, later, done, ran, ?_, ?_, fun ts => ?_, fun ts => ?_⟩
  · exact ((holds.lists.once _).sublist List.filter_sublist).sublist sub
  · exact ((holds.lists.sorted _).sublist List.filter_sublist).sublist sub
  · rw [all, holds.mem_expired]
    exact and_iff_right (congrFun same ts)
  · exact ends.late_of_pending empty enough (by rw [same', same])

/-- The full match of timer 0 counts at the rate of the reference clock. -/
def countingTcu (tdfr : BitVec 32) : TcuHost where
  tcu :=
    { jz4740TcuIfReset with
      ter := 1
      timers := fun _ =>
        { halfTimer := none, fullTimer := some none, time := 1, tdfr := tdfr, tdhr := 0
          tcnt := 0, tcsr := 0, prescale := 1, freq := 46875 } }
  readings _ := 10

theorem countingTcu_ready {tdfr : BitVec 32} (fits : tdfr.toNat ≤ 0xffff) :
    TcuReady {(timer0, .full)} 10 (countingTcu tdfr) where
  there ts mem := by
    rw [Finset.mem_singleton.mp mem]
    exact Option.some_ne_none _
  fit _ := ⟨fits, show (1#32).toNat ≤ 0x4000 by decide⟩
  started _ := show 0 ≤ (10#64).toInt by decide
  onwards _ := show 10 ≤ (10#64).toInt by decide
  small _ := show (10#64).toInt < 2 ^ 62 by decide

theorem tcuTimers_fire_full : ∃ s s' h' fired later,
    [TimerCall.mod (timer0, .full) 5].foldlM (call 2) (newTimers fun _ => .virtual) = .ok s ∧
      qemuRunTimers tcuCb .virtual 10 2 2 s (countingTcu 1) = .ok (s', h', fired, later) ∧
      (timer0, .full) ∈ fired := by
  have period : 0 < (1#32).toNat * (1#32).toNat * 1000000000 / (46875#32).toNat := by decide
  have paced : TcuPaced {(timer0, .full)} 10 (countingTcu 1) :=
    { countingTcu_ready (by decide) with paced := fun _ _ => period }
  have enough : ({(timer0, .full)} : Finset TcuTimerId).card < 2 := by decide
  have known : ∀ x ∈ [TimerCall.mod (timer0, .full) 5],
      x.timer ∈ ({(timer0, .full)} : Finset TcuTimerId) := by decide
  obtain ⟨s, s', h', fired, later, done, ran, -, -, exactly, -⟩ :=
    tcuTimers_fire paced known enough
  exact ⟨s, s', h', fired, later, done, ran, (exactly _).mpr ⟨5, by decide, rfl⟩⟩

/-! ## A period of zero -/

/-- The timer counts with a period that is rounded to zero, and the clock stands still. -/
structure TcuStill (made : Finset TcuTimerId) (now : Int) (ts : TcuTimerId) (h : TcuHost) : Prop
    extends TcuReady made now h where
  still : ∀ i, (h.readings i).toInt = now
  counts : h.tcu.Counts (ts.2.bit ts.1) (h.tcu.timers ts.1)
  zero : (h.tcu.timers ts.1).period = 0

theorem TcuStill.turn {u : TcuTimerId} (still : TcuStill made now ts h) (mem : u ∈ made)
    (q : QemuTimers TcuTimerId) :
    TcuStill made now ts (tcuCb u q h).1 ∧ ∀ x ∈ (tcuCb u q h).2, x.timer ∈ made := by
  obtain ⟨t, called, result⟩ := tcuCb_ok still.toTcuReady mem q
  have kept := tcuCallback_kept called
  rw [result]
  refine ⟨⟨still.toTcuReady.callback called, fun i => still.still (i + 1), ?_, ?_⟩,
    fun x named => ?_⟩
  · exact kept.counts_iff.mpr still.counts
  · exact (kept.registers ts.1).period.trans still.zero
  · rwa [tcuCalls_timer x named]

end Timers

end VirtualNoah
