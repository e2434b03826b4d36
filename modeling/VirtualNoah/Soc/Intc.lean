import VirtualNoah.Lib.StepRun
import VirtualNoah.Soc.Host

/-!
# The interrupt controller

`jz4740_intc_s` collects 32 device lines into one line of the CPU.  `icsr`
remembers which sources have been raised, `icmr` masks them, `icpr` holds the
requests the guest still has to acknowledge.

The line and `icpr` are kept apart: an acknowledge lowers the line whatever is
still pending, and a raise of a masked source drops the source's own pending
bit.  `parent_irq_tracks_pending_iff` says which runs the line survives, and
`masked_request_lost` that a request made while its source is masked never
reaches the CPU.
-/

namespace VirtualNoah

open StepRun

structure Jz4740Intc where
  icsr : BitVec 32
  icmr : BitVec 32
  icpr : BitVec 32
  parentIrq : Bool
  deriving DecidableEq

/-- The state of `jz4740_intc_init`; no line has been driven yet. -/
def jz4740IntcReset : Jz4740Intc where
  icsr := 0x0
  icmr := 0xffffffff
  icpr := 0x0
  parentIrq := false

/-- Lowering a source is not noticed. -/
def jz4740SetIrq (s : Jz4740Intc) (irq : Fin 32) (level : Int) : Jz4740Intc :=
  if level ≠ 0 then
    let s := { s with
      icsr := s.icsr ||| bitMask irq
      icpr := s.icpr &&& ~~~ bitMask irq }
    if s.icmr &&& bitMask irq = 0#32 then
      { s with icpr := s.icpr ||| bitMask irq, parentIrq := true }
    else s
  else s

/-- The write-only registers read as zero. -/
def jz4740IntcRead (s : Jz4740Intc) (addr : Nat) : Except Fault (BitVec 32) :=
  match addr with
  | 0x8 | 0xc => .ok 0
  | 0x0 => .ok s.icsr
  | 0x4 => .ok s.icmr
  | 0x10 => .ok s.icpr
  | _ => .error .cpuAbort

def jz4740IntcWrite (s : Jz4740Intc) (addr : Nat) (value : BitVec 32) :
    Except Fault Jz4740Intc :=
  match addr with
  | 0x0 => .ok s
  | 0x4 => .ok { s with icmr := value }
  | 0x8 => .ok { s with icmr := s.icmr ||| value }
  | 0xc => .ok { s with icmr := s.icmr &&& ~~~ value }
  | 0x10 => .ok { s with icpr := s.icpr &&& ~~~ value, parentIrq := false }
  | _ => .error .cpuAbort

/-- A device line changes, or the guest accesses a register. -/
inductive IntcOp where
  | setIrq (irq : Fin 32) (level : Int)
  | read (addr : Nat)
  | write (addr : Nat) (value : BitVec 32)

def intcStep (s : Jz4740Intc) : IntcOp → Except Fault (Jz4740Intc × Option (BitVec 32))
  | .setIrq irq level => .ok (jz4740SetIrq s irq level, none)
  | .read addr => (jz4740IntcRead s addr).map fun value => (s, some value)
  | .write addr value => (jz4740IntcWrite s addr value).map (·, none)

abbrev intcRun : Jz4740Intc → List IntcOp →
    Except Fault (Jz4740Intc × List (Option (BitVec 32))) :=
  StepRun.run intcStep

section Effects

variable {s t : Jz4740Intc} {op : IntcOp} {out : Option (BitVec 32)} {irq : Fin 32}
  {level : Int} {addr : Nat} {value : BitVec 32}

theorem jz4740SetIrq_low (s : Jz4740Intc) (irq : Fin 32) : jz4740SetIrq s irq 0 = s := by
  rw [jz4740SetIrq, if_neg (by decide)]

theorem jz4740SetIrq_unmasked (high : level ≠ 0) (unmasked : s.icmr.getLsbD irq = false) :
    jz4740SetIrq s irq level = { s with
      icsr := s.icsr ||| bitMask irq
      icpr := s.icpr &&& ~~~ bitMask irq ||| bitMask irq
      parentIrq := true } := by
  rw [jz4740SetIrq, if_pos high]
  exact if_pos ((and_bitMask_eq_zero_iff irq.isLt s.icmr).mpr unmasked)

theorem jz4740SetIrq_masked (high : level ≠ 0) (masked : s.icmr.getLsbD irq = true) :
    jz4740SetIrq s irq level = { s with
      icsr := s.icsr ||| bitMask irq
      icpr := s.icpr &&& ~~~ bitMask irq } := by
  rw [jz4740SetIrq, if_pos high]
  refine if_neg fun clear => ?_
  rw [and_bitMask_eq_zero_iff irq.isLt] at clear
  exact Bool.noConfusion (clear.symm.trans masked)

/-- What a source does to its own pending bit is all it does to `icpr`. -/
theorem jz4740SetIrq_icpr_other {other : Fin 32} (apart : other ≠ irq) :
    (jz4740SetIrq s irq level).icpr.getLsbD other = s.icpr.getLsbD other := by
  have clear : (bitMask irq).getLsbD other = false := by
    rw [getLsbD_bitMask irq.isLt, decide_eq_false]
    exact fun same => apart (Fin.ext same)
  unfold jz4740SetIrq
  split
  · dsimp only
    split <;> simp only [BitVec.getLsbD_or, BitVec.getLsbD_and, BitVec.getLsbD_not, clear,
      other.isLt, decide_true, Bool.not_false, Bool.and_true, Bool.or_false]
  · rfl

@[simp] theorem jz4740SetIrq_icmr : (jz4740SetIrq s irq level).icmr = s.icmr := by
  unfold jz4740SetIrq
  dsimp only
  split
  · split <;> rfl
  · rfl

/-- A completed access, read backwards: only an acknowledge touches the requests
and the line, and only the three mask registers touch the mask. -/
theorem of_intcStep_write (done : intcStep s (.write addr value) = .ok (t, out)) :
    out = none ∧
      (addr = 0x10 ∧ t = { s with icpr := s.icpr &&& ~~~ value, parentIrq := false } ∨
        addr ≠ 0x10 ∧ t.icsr = s.icsr ∧ t.icpr = s.icpr ∧ t.parentIrq = s.parentIrq ∧
          (addr = 0x4 ∧ t.icmr = value ∨ addr = 0x8 ∧ t.icmr = s.icmr ||| value ∨
            addr = 0xc ∧ t.icmr = s.icmr &&& ~~~ value ∨ addr = 0x0 ∧ t.icmr = s.icmr)) := by
  simp only [intcStep] at done
  unfold jz4740IntcWrite at done
  split at done <;> cases done <;> simp

theorem of_intcStep_read (done : intcStep s (.read addr) = .ok (t, out)) : t = s := by
  simp only [intcStep] at done
  cases result : jz4740IntcRead s addr with
  | error e =>
    rw [result] at done
    cases done
  | ok value =>
    rw [result] at done
    cases done
    rfl

end Effects

/-! ## The line and the pending requests -/

/-- The CPU sees an interrupt exactly while a request is pending. -/
def LineTracksPending (s : Jz4740Intc) : Prop := s.parentIrq = true ↔ s.icpr ≠ 0#32

/-- An acknowledge answers every pending request at once, and a source raised
while it is masked does not own the only pending request. -/
def KeepsLine (s : Jz4740Intc) : IntcOp → Prop
  | .write addr value => addr = 0x10 → s.icpr &&& ~~~ value = 0#32
  | .setIrq irq level => level ≠ 0 → s.icmr.getLsbD irq = true →
      s.icpr = 0#32 ∨ s.icpr &&& ~~~ bitMask irq ≠ 0#32
  | .read _ => True

section Line

variable {s t : Jz4740Intc} {op : IntcOp} {out : Option (BitVec 32)}

/-- A raise of an unmasked source leaves its bit. -/
theorem or_bitMask_ne_zero (x : BitVec 32) (irq : Fin 32) : x ||| bitMask irq ≠ 0#32 := by
  intro zero
  have bit : (x ||| bitMask irq).getLsbD irq = false := by
    rw [zero, BitVec.getLsbD_zero]
  rw [BitVec.getLsbD_or, getLsbD_bitMask irq.isLt, decide_eq_true rfl, Bool.or_true] at bit
  cases bit

theorem lineTracksPending_keep (tracks : LineTracksPending s) (guarded : KeepsLine s op)
    (done : intcStep s op = .ok (t, out)) : LineTracksPending t := by
  cases op with
  | setIrq irq level =>
    cases done
    by_cases high : level = 0
    · rw [high, jz4740SetIrq_low]
      exact tracks
    · cases mask : s.icmr.getLsbD irq with
      | false =>
        rw [jz4740SetIrq_unmasked high mask]
        exact ⟨fun _ => or_bitMask_ne_zero _ irq, fun _ => rfl⟩
      | true =>
        rw [jz4740SetIrq_masked high mask]
        rcases guarded high mask with none | other
        · refine tracks.trans ?_
          simp only [none, BitVec.zero_and]
        · refine tracks.trans ⟨fun _ => other, fun _ zero => other ?_⟩
          rw [zero, BitVec.zero_and]
  | read addr =>
    rw [of_intcStep_read done]
    exact tracks
  | write addr value =>
    rcases of_intcStep_write done with ⟨-, ⟨ack, rfl⟩ | ⟨-, -, pending, line, -⟩⟩
    · exact ⟨fun high => Bool.noConfusion high, fun left => absurd (guarded ack) left⟩
    · rw [LineTracksPending, pending, line]
      exact tracks

theorem lineTracksPending_leave (tracks : LineTracksPending s) (unguarded : ¬ KeepsLine s op) :
    ∃ t out, intcStep s op = .ok (t, out) ∧ ¬ LineTracksPending t := by
  cases op with
  | setIrq irq level =>
    simp only [KeepsLine, not_forall, not_or, not_not] at unguarded
    obtain ⟨high, mask, some, only⟩ := unguarded
    refine ⟨_, _, rfl, fun still => ?_⟩
    rw [jz4740SetIrq_masked high mask] at still
    exact still.mp (tracks.mpr some) only
  | read addr => exact (unguarded trivial).elim
  | write addr value =>
    simp only [KeepsLine, not_forall] at unguarded
    obtain ⟨rfl, left⟩ := unguarded
    exact ⟨_, _, rfl, fun still => Bool.noConfusion (still.mpr left)⟩

end Line

/-- From reset on, the line tracks the pending requests in every state reached
exactly when no step of the run breaks the tie between them. -/
theorem parent_irq_tracks_pending_iff (ops : List IntcOp) :
    Always intcStep LineTracksPending jz4740IntcReset ops ↔
      Along intcStep KeepsLine jz4740IntcReset ops :=
  always_iff_along LineTracksPending lineTracksPending_keep lineTracksPending_leave
    ⟨fun high => Bool.noConfusion high, fun left => absurd rfl left⟩

/-- Two sources are pending and the guest acknowledges one of them. -/
def acknowledgeOneOfTwo : List IntcOp :=
  [.write 0xc 0x60, .setIrq 5 1, .setIrq 6 1, .write 0x10 0x20]

/-- The other one stays pending behind a line that has gone low. -/
theorem parent_irq_low_while_pending :
    (∃ s outs, intcRun jz4740IntcReset acknowledgeOneOfTwo = .ok (s, outs) ∧
      s.icpr = 0x40#32 ∧ s.parentIrq = false) ∧
    ¬ Always intcStep LineTracksPending jz4740IntcReset acknowledgeOneOfTwo := by
  have completed : ∃ s outs, intcRun jz4740IntcReset acknowledgeOneOfTwo = .ok (s, outs) ∧
      s.icpr = 0x40#32 ∧ s.parentIrq = false := ⟨_, _, rfl, rfl, rfl⟩
  refine ⟨completed, fun always => ?_⟩
  obtain ⟨s, outs, run, pending, low⟩ := completed
  have tracks := always.last run
  rw [LineTracksPending, pending, low] at tracks
  exact Bool.noConfusion (tracks.mpr (by decide))

/-! ## Requests made while the source is masked -/

/-- The guest acknowledges the source, or its device lowers it. -/
def Answers (irq : Fin 32) : IntcOp → Prop
  | .setIrq other level => other = irq ∧ level = 0
  | .write addr value => addr = 0x10 ∧ value.getLsbD irq = true
  | .read _ => False

def Unmasks (irq : Fin 32) : IntcOp → Prop
  | .write addr value =>
    addr = 0x4 ∧ value.getLsbD irq = false ∨ addr = 0xc ∧ value.getLsbD irq = true
  | _ => False

def Masks (irq : Fin 32) : IntcOp → Prop
  | .write addr value => (addr = 0x4 ∨ addr = 0x8) ∧ value.getLsbD irq = true
  | _ => False

/-- The request of the source is presented to the CPU. -/
def Delivered (irq : Fin 32) (s : Jz4740Intc) : Prop :=
  s.icpr.getLsbD irq = true ∧ s.parentIrq = true

/-- The source is masked and its pending bit is clear. -/
def Withheld (irq : Fin 32) (s : Jz4740Intc) : Prop :=
  s.icmr.getLsbD irq = true ∧ s.icpr.getLsbD irq = false

section Masked

variable {s t : Jz4740Intc} {op : IntcOp} {out : Option (BitVec 32)} {irq : Fin 32}
  {level : Int}

/-- A raise of a masked source withholds its request. -/
theorem withheld_of_raise (masked : s.icmr.getLsbD irq = true) (high : level ≠ 0) :
    Withheld irq (jz4740SetIrq s irq level) := by
  rw [jz4740SetIrq_masked high masked]
  refine ⟨masked, ?_⟩
  dsimp only
  rw [BitVec.getLsbD_and, BitVec.getLsbD_not, getLsbD_bitMask irq.isLt, decide_eq_true rfl,
    Bool.not_true, Bool.and_false, Bool.and_false]

theorem withheld_keep (withheld : Withheld irq s) (masked : ¬ Unmasks irq op)
    (done : intcStep s op = .ok (t, out)) : Withheld irq t := by
  obtain ⟨mask, clear⟩ := withheld
  cases op with
  | setIrq other level =>
    cases done
    by_cases same : irq = other
    · subst same
      by_cases high : level = 0
      · rw [high, jz4740SetIrq_low]
        exact ⟨mask, clear⟩
      · exact withheld_of_raise mask high
    · refine ⟨by rw [jz4740SetIrq_icmr, mask], ?_⟩
      rw [jz4740SetIrq_icpr_other same, clear]
  | read addr =>
    rw [of_intcStep_read done]
    exact ⟨mask, clear⟩
  | write addr value =>
    rcases of_intcStep_write done with ⟨-, ⟨-, rfl⟩ | ⟨-, -, pending, -, masks⟩⟩
    · refine ⟨mask, ?_⟩
      dsimp only
      rw [BitVec.getLsbD_and, clear, Bool.false_and]
    · refine ⟨?_, pending ▸ clear⟩
      have inside := irq.isLt
      rcases masks with ⟨rfl, same⟩ | ⟨rfl, same⟩ | ⟨rfl, same⟩ | ⟨rfl, same⟩
      · rw [same]
        exact eq_true_of_ne_false fun off => masked (Or.inl ⟨rfl, off⟩)
      · rw [same, BitVec.getLsbD_or, mask, Bool.true_or]
      · have off : value.getLsbD irq = false :=
          eq_false_of_ne_true fun on => masked (Or.inr ⟨rfl, on⟩)
        rw [same, BitVec.getLsbD_and, BitVec.getLsbD_not, mask, off]
        simp [inside]
      · rw [same, mask]

/-- Unmasking does not look at the sources: nothing becomes pending. -/
theorem not_delivered_of_unmask (withheld : Withheld irq s) (unmasks : Unmasks irq op)
    (done : intcStep s op = .ok (t, out)) : ¬ Delivered irq t := by
  cases op with
  | setIrq other level => exact unmasks.elim
  | read addr => exact unmasks.elim
  | write addr value =>
    intro delivered
    rcases of_intcStep_write done with ⟨-, ⟨rfl, rfl⟩ | ⟨-, -, pending, -⟩⟩
    · rcases unmasks with ⟨wrong, -⟩ | ⟨wrong, -⟩ <;> cases wrong
    · rw [Delivered, pending, withheld.2] at delivered
      cases delivered.1

end Masked

/-- A request made while its source is masked is lost, whatever happens before
the unmasking and whatever comes after it. -/
theorem masked_request_lost (irq : Fin 32) (s t : Jz4740Intc) (level : Int)
    (wait after : List IntcOp) (unmask : IntcOp) (outs : List (Option (BitVec 32)))
    (masked : s.icmr.getLsbD irq = true) (raised : level ≠ 0)
    (waiting : ∀ op ∈ wait, ¬ Answers irq op ∧ ¬ Unmasks irq op) (unmasks : Unmasks irq unmask)
    (completed : intcRun s (.setIrq irq level :: (wait ++ [unmask])) = .ok (t, outs)) :
    ¬ Until intcStep (fun op => Answers irq op ∨ Masks irq op) (Delivered irq) t after := by
  intro promised
  obtain ⟨u, b, rest, head, tail, -⟩ := of_run_cons completed
  cases head
  obtain ⟨v, bs, bs', waited, last, -⟩ := of_run_append tail
  obtain ⟨w, b', rest', final, stop, -⟩ := of_run_cons last
  cases stop
  have withheld : Withheld irq v :=
    run_invariant (Withheld irq) withheld_keep (withheld_of_raise masked raised)
      (Along.of_forall_mem fun op mem _ => (waiting op mem).2) waited
  exact not_delivered_of_unmask withheld unmasks final promised.first

/-- Source 5 is raised right after reset, while everything is masked, and is
still silent when source 6 has come in and the guest has unmasked both. -/
theorem masked_request_lost_after_reset :
    ∃ t outs, intcRun jz4740IntcReset
        (.setIrq 5 1 :: ([.setIrq 6 1, .read 0x10] ++ [.write 0xc 0x60])) = .ok (t, outs) ∧
      ¬ Until intcStep (fun op => Answers 5 op ∨ Masks 5 op) (Delivered 5) t
        [.read 0x0, .read 0x10] := by
  refine ⟨_, _, rfl, masked_request_lost 5 jz4740IntcReset _ 1 [.setIrq 6 1, .read 0x10] _
    (.write 0xc 0x60) _ ?_ ?_ ?_ ?_ rfl⟩
  · decide
  · decide
  · intro op mem
    simp only [List.mem_cons, List.not_mem_nil, or_false] at mem
    rcases mem with rfl | rfl <;> simp [Answers, Unmasks]
  · exact Or.inr ⟨rfl, by decide⟩

/-- The first interrupt of source 5, up to the end of `mask_and_ack_intc_irq`. -/
def maskAndAck : List IntcOp :=
  [.write 0xc 0x20, .setIrq 5 1, .write 0x8 0x20, .write 0x10 0x20]

/-- The device raises its line again before `end_intc_irq` unmasks the source:
the second event has no effect. -/
theorem second_event_lost :
    ∃ s t outs outs', intcRun jz4740IntcReset maskAndAck = .ok (s, outs) ∧
      s.icmr.getLsbD 5 = true ∧
      intcRun s [.setIrq 5 1, .write 0xc 0x20] = .ok (t, outs') ∧
      t.icsr.getLsbD 5 = true ∧ t.icmr.getLsbD 5 = false ∧
      ¬ Until intcStep (fun op => Answers 5 op ∨ Masks 5 op) (Delivered 5) t [] := by
  refine ⟨_, _, _, _, rfl, by decide, rfl, by decide, by decide, fun promised => ?_⟩
  exact Bool.noConfusion promised.2

end VirtualNoah
