import VirtualNoah.Soc.TcuObserve

/-!
# The half match

`jz4740_tcu_start_half` looks for the half match in bits 16 to 23 of TER, which
`jz4740_tcu_if_write8` masks out.  So no half match is ever armed, and its flag
is never set.
-/

namespace VirtualNoah

open StepRun

/-! ## Periods -/

/-- What has become of the current period of a timer. -/
structure HalfPeriod where
  /-- the count it has started with -/
  start : BitVec 32
  /-- how often the half-match flag has been set since -/
  halves : Nat
  /-- an earlier period has ended without exactly one half match -/
  missed : Prop

/-- The count passes TDHR before the full match. -/
def HalfPeriod.Due (p : HalfPeriod) (tm : TcuTimer) : Prop :=
  tm.tdhr < tm.tdfr ∧ p.start < tm.tdhr

/-- A full match ends a period, and a write that starts the timer begins one. -/
def HalfPeriod.next (p : HalfPeriod) (e : TcuEvent) (s t : Jz4740Tcu) (n : Fin 8) : HalfPeriod :=
  match e.op with
  | .callback m k =>
    if k = n ∧ s.Counts (m.bit n) (s.timers n) then
      match m with
      | .half => { p with halves := p.halves + 1 }
      | .full => ⟨0, 0, p.missed ∨ p.Due (s.timers n) ∧ p.halves ≠ 1⟩
    else p
  | _ =>
    if e.starts n = [] then p else ⟨((t.timers n).timeSync t n e.now).tcnt, 0, p.missed⟩

/-- The unit beside the periods of its timers. -/
structure HalfWatch where
  tcu : Jz4740Tcu
  period : Fin 8 → HalfPeriod

def halfStep (x : HalfWatch) (e : TcuEvent) :
    Except Fault (HalfWatch × Option (BitVec 32)) :=
  (tcuStep x.tcu e).map fun (t, out) =>
    (⟨t, fun n => (x.period n).next e x.tcu t n⟩, out)

/-- Power-on, before any period. -/
def watchHalf (inits : List (Fin 8)) : HalfWatch := ⟨tcuPowerOn inits, fun _ => ⟨0, 0, False⟩⟩

def TcuTimer.Initialised (tm : TcuTimer) : Prop := tm.timer .full ≠ none

def TcuTimer.Armed (tm : TcuTimer) (m : TcuMatch) : Prop := ∃ due, tm.timer m = some (some due)

/-- The half match is armed with the full one, and comes once in a period. -/
structure HalfArmed (x : HalfWatch) : Prop where
  armed : ∀ n, (x.tcu.timers n).Initialised → x.tcu.Counts n (x.tcu.timers n) →
    (x.tcu.timers n).Armed .half ∧ (x.tcu.timers n).Armed .full
  once : ∀ n, ¬ (x.period n).missed

/-- With the registers of the event no timer counts. -/
def LeavesStopped (s : Jz4740Tcu) (e : TcuEvent) : Prop :=
  ∀ n, ((e.latch s).timers n).Initialised → ¬ (e.latch s).Counts n ((e.latch s).timers n)

/-- The half matches cannot be enabled, and none is armed. -/
structure HalfOff (s : Jz4740Tcu) : Prop where
  full : s.ter &&& 0xff#32 = s.ter
  idle : ∀ n, ¬ (s.timers n).Armed .half

section Half

variable {s t : Jz4740Tcu} {n : Fin 8} {tm : TcuTimer} {m k : TcuMatch} {now : BitVec 64}
  {e : TcuEvent} {out : Option (BitVec 32)}

/-! ## What becomes of the QEMU timers -/

theorem modTimer_timer (tm : TcuTimer) (m k : TcuMatch) (expire : Option (BitVec 64)) :
    (tm.modTimer m expire).timer k = if k = m then some expire else tm.timer k := by
  cases m <;> cases k <;> rfl

theorem startAll_timer_eq_none_iff (ms : List TcuMatch) :
    (tm.startAll ms s n now).timer k = none ↔ tm.timer k = none := by
  induction ms generalizing tm with
  | nil => rfl
  | cons m ms ih => exact ih.trans (start_timer_none tm m k s n now)

/-- Without an enable bit for it, no start arms the half match. -/
theorem start_half_idle (full : s.ter &&& 0xff#32 = s.ter) (idle : ¬ tm.Armed .half) :
    ¬ (tm.start m s n now).Armed .half := by
  unfold TcuTimer.start
  split
  · exact idle
  · split
    · next counts =>
      cases m with
      | half => exact absurd (half_disabled full) counts.2.1
      | full =>
        rintro ⟨due, armed⟩
        rw [modTimer_timer, if_neg nofun, timeSync_timer] at armed
        exact idle ⟨due, armed⟩
    · rintro ⟨due, armed⟩
      rw [modTimer_timer] at armed
      split at armed
      · cases armed
      · exact idle ⟨due, armed⟩

theorem startAll_half_idle (ms : List TcuMatch) (full : s.ter &&& 0xff#32 = s.ter)
    (idle : ¬ tm.Armed .half) : ¬ (tm.startAll ms s n now).Armed .half := by
  induction ms generalizing tm with
  | nil => exact idle
  | cons m ms ih => exact ih (start_half_idle full idle)

/-- No register write touches a QEMU timer. -/
theorem latch_timer (e : TcuEvent) (s : Jz4740Tcu) (n : Fin 8) (k : TcuMatch) :
    ((e.latch s).timers n).timer k = (s.timers n).timer k := by
  rcases e with ⟨now, op⟩
  cases op with
  | write j addr rates value =>
    by_cases same : n = j
    · subst same
      simp only [TcuEvent.latch]
      split <;> simp only [setTimer_timers_self] <;> cases k <;> rfl
    · simp only [TcuEvent.latch]
      split <;> simp only [setTimer_timers_of_ne same]
  | _ =>
    unfold TcuEvent.latch
    split <;> first | rfl | contradiction

/-! ## One step -/

theorem Expired.half_idle {j : Fin 8} (expired : Expired m s t j now) (off : HalfOff s) :
    ¬ (t.timers j).Armed .half := by
  cases expired with
  | restarts there counts timer =>
    rw [timer]
    cases m with
    | half => exact absurd (half_disabled off.full) counts.2.1
    | full => exact off.idle j
  | idles there idle timer =>
    rw [timer]
    rintro ⟨due, armed⟩
    rw [modTimer_timer] at armed
    split at armed
    · cases armed
    · exact off.idle j ⟨due, armed⟩

theorem halfOff_step (off : HalfOff s) (done : tcuStep s e = .ok (t, out)) : HalfOff t := by
  refine ⟨?_, fun n => ?_⟩
  · rw [(tcuStep_tsr_ter done).2]
    exact latch_ter_full off.full
  · cases tcuStep_timer done n with
    | callback m op called => exact (tcuCallback_expired called).half_idle off
    | read reads timer =>
      rw [timer, TcuTimer.Armed, timeSync_timer]
      exact off.idle n
    | starts quiet other timer =>
      rw [timer]
      refine startAll_half_idle _ (latch_ter_full off.full) ?_
      rw [TcuTimer.Armed, latch_timer]
      exact off.idle n

/-- A callback comes to a timer that is there, and leaves its input clock. -/
theorem Expired.kept {j : Fin 8} (expired : Expired m s t j now) :
    (s.timers j).timer m ≠ none ∧
      ((t.timers j).timer .full = none ↔ (s.timers j).timer .full = none) := by
  have modified : ∀ expire, (s.timers j).timer m ≠ none →
      (((s.timers j).modTimer m expire).timer .full = none ↔
        (s.timers j).timer .full = none) := by
    intro expire there
    rw [modTimer_timer]
    split
    · next same => exact iff_of_false nofun (same ▸ there)
    · rfl
  cases expired with
  | restarts there counts timer =>
    rw [timer]
    exact ⟨there, modified _ there⟩
  | idles there idle timer =>
    rw [timer]
    exact ⟨there, modified _ there⟩

/-- A timer that is there and counts behind an event does so with the registers
of the event. -/
theorem tcuStep_counts (done : tcuStep s e = .ok (t, out)) :
    (t.timers n).Initialised ∧ t.Counts n (t.timers n) ↔
      ((e.latch s).timers n).Initialised ∧ (e.latch s).Counts n ((e.latch s).timers n) := by
  obtain ⟨tsr, ter⟩ := tcuStep_tsr_ter done
  have kept : ∀ {tm : TcuTimer}, (t.timers n).freq = tm.freq →
      ((t.timers n).timer .full = none ↔ tm.timer .full = none) →
      ((t.timers n).Initialised ∧ t.Counts n (t.timers n) ↔
        tm.Initialised ∧ (e.latch s).Counts n tm) := by
    intro tm freq timer
    rw [TcuTimer.Initialised, Jz4740Tcu.Counts, tsr, ter, freq, ne_eq, timer]
    rfl
  cases tcuStep_timer done n with
  | callback m op called =>
    have expired := tcuCallback_expired called
    rw [latch_of_callback op] at kept ⊢
    exact kept expired.sameRegisters.freq expired.kept.2
  | read reads timer =>
    rw [latch_of_read reads] at kept ⊢
    refine kept ?_ ?_
    · rw [timer]
      exact (sameRegisters_timeSync _ _ _ _).freq
    · rw [timer, timeSync_timer]
  | starts quiet other timer =>
    refine kept ?_ ?_
    · rw [timer]
      exact (sameRegisters_startAll _ _ _ _ _).freq
    · rw [timer]
      exact startAll_timer_eq_none_iff _

/-- An event that fails writes no register. -/
theorem latch_of_error {fault : Fault} (failed : tcuStep s e = .error fault) : e.latch s = s := by
  rcases e with ⟨now, op⟩
  cases op with
  | write j addr rates value =>
    simp only [tcuStep, jz4740TcuWrite] at failed
    simp only [TcuEvent.latch]
    split <;> simp_all only [Except.map, reduceCtorEq]
  | ifWrite8 addr value =>
    simp only [tcuStep, jz4740TcuIfWrite8] at failed
    split at failed
    · cases failed
    · cases failed
    · unfold TcuEvent.latch
      split <;> first | rfl | simp_all
  | ifWrite32 addr value =>
    simp only [tcuStep, jz4740TcuIfWrite32] at failed
    split at failed
    case h_7 =>
      unfold TcuEvent.latch
      split <;> first | rfl | simp_all
    all_goals cases failed
  | _ => rfl

/-! ## Runs -/

theorem halfArmed_keep {x y : HalfWatch} (good : HalfOff x.tcu ∧ HalfArmed x)
    (stopped : LeavesStopped x.tcu e) (done : halfStep x e = .ok (y, out)) :
    HalfOff y.tcu ∧ HalfArmed y := by
  obtain ⟨⟨t, out'⟩, stepped, same⟩ := of_map_eq_ok done
  cases same
  refine ⟨halfOff_step good.1 stepped, fun n there counts => ?_, fun n => ?_⟩
  · obtain ⟨there', counts'⟩ := (tcuStep_counts stepped).mp ⟨there, counts⟩
    exact absurd counts' (stopped n there')
  · rcases e with ⟨now, op⟩
    have before := good.2.once n
    cases op with
    | callback m j =>
      simp only [HalfPeriod.next]
      split
      · next matched =>
        obtain ⟨rfl, counts⟩ := matched
        obtain ⟨u, called, same⟩ := of_map_eq_ok stepped
        cases m with
        | half => exact before
        | full => exact absurd counts (stopped j (tcuCallback_expired called).kept.1)
      · exact before
    | _ =>
      simp only [HalfPeriod.next]
      split <;> exact before

theorem halfArmed_leave {x : HalfWatch} (good : HalfOff x.tcu ∧ HalfArmed x)
    (counting : ¬ LeavesStopped x.tcu e) :
    ∃ y out, halfStep x e = .ok (y, out) ∧ ¬ (HalfOff y.tcu ∧ HalfArmed y) := by
  simp only [LeavesStopped, not_forall, not_not] at counting
  obtain ⟨n, there, counts⟩ := counting
  cases stepped : tcuStep x.tcu e with
  | error fault =>
    rw [latch_of_error stepped] at there counts
    exact absurd (good.2.armed n there counts).1 (good.1.idle n)
  | ok result =>
    obtain ⟨t, out⟩ := result
    refine ⟨_, out, by rw [halfStep, stepped]; rfl, fun after => ?_⟩
    obtain ⟨there', counts'⟩ := (tcuStep_counts stepped).mpr ⟨there, counts⟩
    exact after.1.idle n (after.2.armed n there' counts').1

theorem halfOff_powerOn (inits : List (Fin 8)) : HalfOff (tcuPowerOn inits) := by
  have walk : ∀ (ns : List (Fin 8)) (u : Jz4740Tcu), (∀ n, ¬ (u.timers n).Armed .half) →
      ∀ n, ¬ ((ns.foldl jz4740TcuInit u).timers n).Armed .half := by
    intro ns
    induction ns with
    | nil => exact fun u idle => idle
    | cons k ns ih =>
      intro u idle
      refine ih _ fun n => ?_
      by_cases own : n = k
      · subst own
        simp only [jz4740TcuInit, setTimer_timers_self, TcuTimer.Armed, TcuTimer.timer,
          Option.some.injEq, reduceCtorEq, exists_false, not_false_eq_true]
      · simp only [jz4740TcuInit, setTimer_timers_of_ne own]
        exact idle n
  refine ⟨(tcuSound_powerOn inits).full, walk inits _ fun n => ?_⟩
  rintro ⟨due, armed⟩
  cases armed

end Half

/-- The half match keeps up with the full one, in every state of a run from
power-on, exactly when no register write leaves a timer counting. -/
theorem half_armed_iff (inits : List (Fin 8)) (events : List TcuEvent) :
    Always halfStep HalfArmed (watchHalf inits) events ↔
      Along halfStep (fun x e => LeavesStopped x.tcu e) (watchHalf inits) events := by
  have keeps : ∀ {x y : HalfWatch} {e : TcuEvent} {out : Option (BitVec 32)}, HalfOff x.tcu →
      halfStep x e = .ok (y, out) → HalfOff y.tcu := by
    intro x y e out off done
    obtain ⟨⟨t, out'⟩, stepped, same⟩ := of_map_eq_ok done
    cases same
    exact halfOff_step off stepped
  have disabled : ∀ n : Fin 8, (watchHalf inits).tcu.ter &&& bitMask n = 0#32 := by
    obtain ⟨timer, same⟩ := tcuPowerOn_eq inits
    intro n
    rw [watchHalf, same]
    exact BitVec.zero_and
  have start : HalfOff (watchHalf inits).tcu ∧ HalfArmed (watchHalf inits) :=
    ⟨halfOff_powerOn inits, fun n _ counts => absurd (disabled n) counts.2.1, fun _ => id⟩
  rw [← always_and_iff (fun x : HalfWatch => HalfOff x.tcu) keeps start.1]
  exact always_iff_along _ halfArmed_keep halfArmed_leave start

/-- Timer 0 counts, and only its full match is armed. -/
theorem half_not_armed : ¬ Always halfStep HalfArmed (watchHalf [0]) startTimer0 := by
  intro always
  have reached : ∃ x outs, run halfStep (watchHalf [0]) startTimer0 = .ok (x, outs) ∧
      (x.tcu.timers 0).timer .full ≠ none ∧ x.tcu.Counts 0 (x.tcu.timers 0) ∧
      (x.tcu.timers 0).timer .half = some none := by
    refine ⟨_, _, rfl, ?_⟩
    exact ⟨nofun, by decide, rfl⟩
  obtain ⟨x, outs, completed, there, counts, idle⟩ := reached
  obtain ⟨⟨due, armed⟩, -⟩ := (always.last completed).armed 0 there counts
  cases idle.symm.trans armed

end VirtualNoah
