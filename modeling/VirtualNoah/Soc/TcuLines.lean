import VirtualNoah.Soc.Tcu

/-!
# The interrupt lines of the timers

`jz4740_tcu_update_interrupt` recomputes the three lines from the flags and the
masks.  The mask registers and the callbacks call it; the flag registers TFSR
and TFCR do not, so a flag that the guest clears leaves its line high.
-/

namespace VirtualNoah

open StepRun

/-- Some flag of the group is set and not masked. -/
def Raised (tfr tmr group : BitVec 32) : Prop := tfr &&& ~~~tmr &&& group ≠ 0#32

instance (tfr tmr group : BitVec 32) : Decidable (Raised tfr tmr group) :=
  inferInstanceAs (Decidable (_ ≠ _))

/-- Each line is high exactly while its group has an unmasked flag. -/
structure LinesTrackFlags (s : Jz4740Tcu) : Prop where
  irq0 : s.tcuIrq0 = true ↔ Raised s.tfr s.tmr 0x10001
  irq1 : s.tcuIrq1 = true ↔ Raised s.tfr s.tmr 0x20002
  irq2 : s.tcuIrq2 = true ↔ Raised s.tfr s.tmr 0xfc00fc

/-- Both halves of a group decide its line. -/
theorem tcuPending_iff (s : Jz4740Tcu) (full half : BitVec 32) :
    tcuPending s full half = true ↔ Raised s.tfr s.tmr (full ||| half) := by
  have part : ∀ m : BitVec 32, (s.tfr &&& m) &&& ~~~(s.tmr &&& m) = s.tfr &&& ~~~s.tmr &&& m := by
    intro m
    apply BitVec.eq_of_getLsbD_eq
    intro i inside
    simp only [BitVec.getLsbD_and, BitVec.getLsbD_not, inside, decide_true, Bool.true_and]
    cases s.tfr.getLsbD i <;> cases s.tmr.getLsbD i <;> cases m.getLsbD i <;> rfl
  have whole : s.tfr &&& ~~~s.tmr &&& (full ||| half) =
      (s.tfr &&& ~~~s.tmr &&& full) ||| (s.tfr &&& ~~~s.tmr &&& half) :=
    BitVec.and_or_distrib_left
  rw [Raised, whole, tcuPending, part, part, decide_eq_true_iff, ne_eq, ne_eq, ne_eq,
    BitVec.or_eq_zero_iff, not_and_or]

theorem linesTrackFlags_update (s : Jz4740Tcu) :
    LinesTrackFlags (jz4740TcuUpdateInterrupt s) where
  irq0 := tcuPending_iff s 0x1 0x10000
  irq1 := tcuPending_iff s 0x2 0x20000
  irq2 := tcuPending_iff s 0xfc 0xfc0000

/-- Everything the three lines are computed from, and the lines. -/
def Jz4740Tcu.lines (s : Jz4740Tcu) : Bool × Bool × Bool × BitVec 32 × BitVec 32 :=
  (s.tcuIrq0, s.tcuIrq1, s.tcuIrq2, s.tfr, s.tmr)

theorem LinesTrackFlags.of_lines {s t : Jz4740Tcu} (tracks : LinesTrackFlags s)
    (same : t.lines = s.lines) : LinesTrackFlags t := by
  simp only [Jz4740Tcu.lines, Prod.mk.injEq] at same
  obtain ⟨irq0, irq1, irq2, tfr, tmr⟩ := same
  refine ⟨?_, ?_, ?_⟩
  · rw [irq0, tfr, tmr]
    exact tracks.irq0
  · rw [irq1, tfr, tmr]
    exact tracks.irq1
  · rw [irq2, tfr, tmr]
    exact tracks.irq2

/-- The flags a write to TFSR or TFCR leaves. -/
def flagWrite (tfr : BitVec 32) : TcuOp → Option (BitVec 32)
  | .ifWrite32 0x24 value => some (tfr ||| (value &&& 0xff00ff#32))
  | .ifWrite32 0x28 value => some (tfr &&& ~~~(value &&& 0xff00ff#32))
  | _ => none

/-- A write to TFSR or TFCR changes no group between having an unmasked flag
and having none. -/
def KeepsGroups (s : Jz4740Tcu) (e : TcuEvent) : Prop :=
  ∀ tfr, flagWrite s.tfr e.op = some tfr →
    (Raised tfr s.tmr 0x10001 ↔ Raised s.tfr s.tmr 0x10001) ∧
    (Raised tfr s.tmr 0x20002 ↔ Raised s.tfr s.tmr 0x20002) ∧
    (Raised tfr s.tmr 0xfc00fc ↔ Raised s.tfr s.tmr 0xfc00fc)

section Step

variable {s t : Jz4740Tcu} {e : TcuEvent} {n : Fin 8} {now : BitVec 64} {m : TcuMatch}
  {out : Option (BitVec 32)}

theorem jz4740TcuStart_lines : (jz4740TcuStart s now).lines = s.lines := by
  rw [jz4740TcuStart_eq]
  rfl

/-- A callback recomputes the lines or changes nothing they depend on. -/
theorem tcuCallback_lines (done : tcuCallback m s n now = .ok t) :
    t.lines = s.lines ∨ LinesTrackFlags t := by
  unfold tcuCallback at done
  split at done
  · cases done
  · split at done
    · cases done
      exact Or.inr ((linesTrackFlags_update _).of_lines rfl)
    · cases done
      exact Or.inl rfl

theorem jz4740TcuRead_lines {addr : BitVec 64} {v : BitVec 32}
    (done : jz4740TcuRead s n now addr = .ok (t, v)) : t.lines = s.lines := by
  unfold jz4740TcuRead at done
  split at done <;> cases done <;> rfl

theorem jz4740TcuWrite_lines {addr : BitVec 64} {rates : TcuRates} {value : BitVec 32}
    (done : jz4740TcuWrite s n now addr rates value = .ok t) : t.lines = s.lines := by
  unfold jz4740TcuWrite at done
  split at done <;> cases done <;> rfl

theorem jz4740TcuIfWrite8_lines {addr : Nat} {value : BitVec 32}
    (done : jz4740TcuIfWrite8 s now addr value = .ok t) : t.lines = s.lines := by
  unfold jz4740TcuIfWrite8 at done
  split at done <;> cases done <;> exact jz4740TcuStart_lines

/-- Of the 32-bit registers, TFSR and TFCR change the flags behind the lines. -/
theorem jz4740TcuIfWrite32_lines {addr : Nat} {value : BitVec 32}
    (done : jz4740TcuIfWrite32 s now addr value = .ok t) :
    t.lines = s.lines ∨ LinesTrackFlags t ∨
      ∃ tfr, flagWrite s.tfr (.ifWrite32 addr value) = some tfr ∧ t = { s with tfr := tfr } := by
  unfold jz4740TcuIfWrite32 at done
  split at done
  · cases done
    exact Or.inl jz4740TcuStart_lines
  · cases done
    exact Or.inl jz4740TcuStart_lines
  · cases done
    exact Or.inr (Or.inr ⟨_, rfl, rfl⟩)
  · cases done
    exact Or.inr (Or.inr ⟨_, rfl, rfl⟩)
  · cases done
    exact Or.inr (Or.inl (linesTrackFlags_update _))
  · cases done
    exact Or.inr (Or.inl (linesTrackFlags_update _))
  · cases done

/-- One event: the lines are untouched, recomputed, or left behind by a write to
the flags. -/
theorem tcuStep_lines (done : tcuStep s e = .ok (t, out)) :
    t.lines = s.lines ∨ LinesTrackFlags t ∨
      ∃ tfr, flagWrite s.tfr e.op = some tfr ∧ t = { s with tfr := tfr } := by
  rcases e with ⟨now, op⟩
  cases op with
  | callback m n =>
    obtain ⟨u, called, same⟩ := of_map_eq_ok done
    cases same
    exact (tcuCallback_lines called).imp id Or.inl
  | read n addr =>
    obtain ⟨u, called, same⟩ := of_map_eq_ok done
    cases same
    exact Or.inl (jz4740TcuRead_lines called)
  | write n addr rates value =>
    obtain ⟨u, called, same⟩ := of_map_eq_ok done
    cases same
    exact Or.inl (jz4740TcuWrite_lines called)
  | ifRead8 addr =>
    obtain ⟨v, -, same⟩ := of_map_eq_ok done
    cases same
    exact Or.inl rfl
  | ifRead32 addr =>
    obtain ⟨v, -, same⟩ := of_map_eq_ok done
    cases same
    exact Or.inl rfl
  | ifWrite8 addr value =>
    obtain ⟨u, called, same⟩ := of_map_eq_ok done
    cases same
    exact Or.inl (jz4740TcuIfWrite8_lines called)
  | ifWrite32 addr value =>
    obtain ⟨u, called, same⟩ := of_map_eq_ok done
    cases same
    exact jz4740TcuIfWrite32_lines called

/-- A write to the flags always completes. -/
theorem tcuStep_flagWrite {tfr : BitVec 32} (flags : flagWrite s.tfr e.op = some tfr) :
    tcuStep s e = .ok ({ s with tfr := tfr }, none) := by
  rcases e with ⟨now, op⟩
  unfold flagWrite at flags
  split at flags
  · next value written =>
    cases flags
    cases written
    rfl
  · next value written =>
    cases flags
    cases written
    rfl
  · cases flags

theorem linesTrackFlags_keep (tracks : LinesTrackFlags s) (guarded : KeepsGroups s e)
    (done : tcuStep s e = .ok (t, out)) : LinesTrackFlags t := by
  rcases tcuStep_lines done with same | updated | ⟨tfr, flags, rfl⟩
  · exact tracks.of_lines same
  · exact updated
  · obtain ⟨group0, group1, group2⟩ := guarded tfr flags
    exact ⟨tracks.irq0.trans group0.symm, tracks.irq1.trans group1.symm,
      tracks.irq2.trans group2.symm⟩

theorem linesTrackFlags_leave (tracks : LinesTrackFlags s) (unguarded : ¬ KeepsGroups s e) :
    ∃ t out, tcuStep s e = .ok (t, out) ∧ ¬ LinesTrackFlags t := by
  simp only [KeepsGroups, not_forall] at unguarded
  obtain ⟨tfr, flags, changed⟩ := unguarded
  refine ⟨_, _, tcuStep_flagWrite flags, fun still => changed ⟨?_, ?_, ?_⟩⟩
  · exact still.irq0.symm.trans tracks.irq0
  · exact still.irq1.symm.trans tracks.irq1
  · exact still.irq2.symm.trans tracks.irq2

end Step

theorem linesTrackFlags_powerOn (inits : List (Fin 8)) : LinesTrackFlags (tcuPowerOn inits) := by
  have low : LinesTrackFlags jz4740TcuIfReset := by
    constructor <;> decide
  obtain ⟨timer, same⟩ := tcuPowerOn_eq inits
  rw [same]
  exact low.of_lines rfl

/-- From power-on the three lines track the flags and masks in every state
reached exactly when no write to TFSR or TFCR changes what a group asks for. -/
theorem timer_lines_track_flags_iff (inits : List (Fin 8)) (events : List TcuEvent) :
    Always tcuStep LinesTrackFlags (tcuPowerOn inits) events ↔
      Along tcuStep KeepsGroups (tcuPowerOn inits) events :=
  always_iff_along LinesTrackFlags linesTrackFlags_keep linesTrackFlags_leave
    (linesTrackFlags_powerOn inits)

/-- The full match of timer 0 fires and the guest acknowledges it through TFCR. -/
def acknowledgeFullMatch : List TcuEvent :=
  [⟨1000, .write timer0 0x4c ⟨0, 0, 12000000⟩ 0x24⟩, ⟨1000, .ifWrite8 0x14 1⟩,
    ⟨1398081000, .callback .full timer0⟩, ⟨1398082000, .ifWrite32 0x28 1⟩]

/-- The line stays high behind a flag that has been cleared. -/
theorem timer_line_stuck_after_acknowledge :
    (∃ s outs, tcuRun (tcuPowerOn [0]) acknowledgeFullMatch = .ok (s, outs) ∧
      s.tfr = 0#32 ∧ s.tcuIrq0 = true) ∧
    ¬ Always tcuStep LinesTrackFlags (tcuPowerOn [0]) acknowledgeFullMatch := by
  have completed : ∃ s outs, tcuRun (tcuPowerOn [0]) acknowledgeFullMatch = .ok (s, outs) ∧
      s.tfr = 0#32 ∧ s.tcuIrq0 = true := ⟨_, _, rfl, by decide, by decide⟩
  refine ⟨completed, fun always => ?_⟩
  obtain ⟨s, outs, run, acknowledged, high⟩ := completed
  have raised := (always.last run).irq0.mp high
  rw [Raised, acknowledged, BitVec.zero_and, BitVec.zero_and] at raised
  exact raised rfl

end VirtualNoah
