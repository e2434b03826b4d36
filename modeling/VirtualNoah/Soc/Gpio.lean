import Mathlib.Data.List.Induction
import VirtualNoah.Soc.Host

/-!
# The GPIO ports

Seven registers of each port are written through a pair of addresses, one to set
bits and one to clear them.  `jz4740_gpio_write` assigns the value of a set, so
the bits that other drivers have set are lost unless the value has them too.
-/

namespace VirtualNoah

/-! ## State -/

inductive GpioReg where
  | papin
  | padat
  | paim
  | pape
  | pafun
  | pasel
  | padir
  | patrg
  | paflg
  deriving DecidableEq

/-- The registers of the four ports. -/
@[ext] structure Jz4740Gpio where
  reg : GpioReg → Fin 4 → BitVec 32

def Jz4740Gpio.set (s : Jz4740Gpio) (r : GpioReg) (group : Fin 4) (value : BitVec 32) :
    Jz4740Gpio where
  reg := Function.update s.reg r (Function.update (s.reg r) group value)

def jz4740GpioReset : Jz4740Gpio where
  reg := fun r _ =>
    match r with
    | .paim => 0xffffffff
    | _ => 0

/-! ## Accesses -/

/-- The port an address belongs to, and the offset in it. -/
def gpioPlace (addr : Nat) : Option (Fin 4 × Nat) :=
  if inside : addr / 0x100 < 4 then some (⟨addr / 0x100, inside⟩, addr % 0x100) else none

/-- Pin 30 of port C, which is group 2 and at 0x200, is the ready line of the NAND
flash: each read turns it over. -/
def jz4740GpioReadPin (s : Jz4740Gpio) (addr : Nat) (group : Fin 4) : Jz4740Gpio × BitVec 32 :=
  let s :=
    if addr = 0x200 then
      let pin := s.reg .papin group &&& 0x40000000#32
      s.set .papin group (if pin ≠ 0#32 then pin &&& ~~~0x40000000#32 else pin ||| 0x40000000#32)
    else s
  (s, s.reg .papin group)

def jz4740GpioRead (s : Jz4740Gpio) (addr : Nat) : Except Fault (Jz4740Gpio × BitVec 32) :=
  match gpioPlace addr with
  | some (_, 0x14) | some (_, 0x18) | some (_, 0x24) | some (_, 0x28) | some (_, 0x34)
  | some (_, 0x38) | some (_, 0x44) | some (_, 0x48) | some (_, 0x54) | some (_, 0x58)
  | some (_, 0x64) | some (_, 0x68) | some (_, 0x74) | some (_, 0x78) | some (_, 0x84) =>
    .ok (s, 0)
  | some (group, 0x0) => .ok (jz4740GpioReadPin s addr group)
  | some (group, 0x10) => .ok (s, s.reg .padat group)
  | some (group, 0x20) => .ok (s, s.reg .paim group)
  | some (group, 0x30) => .ok (s, s.reg .pape group)
  | some (group, 0x40) => .ok (s, s.reg .pafun group)
  | some (group, 0x50) => .ok (s, s.reg .pasel group)
  | some (group, 0x60) => .ok (s, s.reg .padir group)
  | some (group, 0x70) => .ok (s, s.reg .patrg group)
  | some (group, 0x80) => .ok (s, s.reg .paflg group)
  | _ => .error .cpuAbort

/-- `&= ~value` -/
def Jz4740Gpio.clear (s : Jz4740Gpio) (r : GpioReg) (group : Fin 4) (value : BitVec 32) :
    Jz4740Gpio :=
  s.set r group (s.reg r group &&& ~~~value)

/-- The group of the flag register is taken from the offset of another one, which
makes no difference. -/
def jz4740GpioWrite (s : Jz4740Gpio) (addr : Nat) (value : BitVec 32) : Except Fault Jz4740Gpio :=
  match gpioPlace addr with
  | some (_, 0x0) | some (_, 0x10) | some (_, 0x20) | some (_, 0x30) | some (_, 0x40)
  | some (_, 0x50) | some (_, 0x60) | some (_, 0x70) | some (_, 0x80) => .ok s
  | some (group, 0x14) => .ok (s.set .padat group value)
  | some (group, 0x18) => .ok (s.clear .padat group value)
  | some (group, 0x24) => .ok (s.set .paim group value)
  | some (group, 0x28) => .ok (s.clear .paim group value)
  | some (group, 0x34) => .ok (s.set .pape group value)
  | some (group, 0x38) => .ok (s.clear .pape group value)
  | some (group, 0x44) => .ok (s.set .pafun group value)
  | some (group, 0x48) => .ok (s.clear .pafun group value)
  | some (group, 0x54) => .ok (s.set .pasel group value)
  | some (group, 0x58) => .ok (s.clear .pasel group value)
  | some (group, 0x64) => .ok (s.set .padir group value)
  | some (group, 0x68) => .ok (s.clear .padir group value)
  | some (group, 0x74) => .ok (s.set .patrg group value)
  | some (group, 0x78) => .ok (s.clear .patrg group value)
  | some (group, 0x84) => .ok (s.clear .paflg group value)
  | _ => .error .cpuAbort

/-! ## Writes of a pair -/

inductive GpioSide where
  | set
  | clear
  deriving DecidableEq

/-- A write to one of the two addresses of a register that has such a pair. -/
structure GpioWrite where
  reg : GpioReg
  group : Fin 4
  side : GpioSide
  value : BitVec 32
  paired : reg ≠ .papin ∧ reg ≠ .paflg

/-- Where a register is read. -/
def GpioReg.offset : GpioReg → Nat
  | .papin => 0x0
  | .padat => 0x10
  | .paim => 0x20
  | .pape => 0x30
  | .pafun => 0x40
  | .pasel => 0x50
  | .padir => 0x60
  | .patrg => 0x70
  | .paflg => 0x80

def GpioWrite.addr (w : GpioWrite) : Nat :=
  w.group * 0x100 + w.reg.offset + match w.side with
    | .set => 0x4
    | .clear => 0x8

/-- The ports after a sequence of guest writes from reset. -/
def gpioAfter (ws : List GpioWrite) : Except Fault Jz4740Gpio :=
  ws.foldlM (fun s w => jz4740GpioWrite s w.addr w.value) jz4740GpioReset

/-- The last write to the register with the bit set, if there is one: whether it
was a set. -/
def lastBit (r : GpioReg) (group : Fin 4) (b : Nat) : List GpioWrite → Option Bool
  | [] => none
  | w :: ws => (lastBit r group b ws).or
      (if w.reg = r ∧ w.group = group ∧ w.value.getLsbD b = true then
        some (decide (w.side = .set))
      else none)

/-- The two writes touch no bit in common. -/
def GpioWrite.Apart (w w' : GpioWrite) : Prop :=
  w.reg = w'.reg → w.group = w'.group → w.value &&& w'.value = 0#32

/-- The set and clear addresses act bitwise along the writes. -/
structure ActsBitwise (ws : List GpioWrite) : Prop where
  returns : ∃ s, gpioAfter ws = .ok s
  bits : ∀ before after s, before ++ after = ws → gpioAfter before = .ok s → ∀ r group b,
    (s.reg r group).getLsbD b =
      (lastBit r group b before).getD ((jz4740GpioReset.reg r group).getLsbD b)
  frame : ∀ before w after s t, before ++ w :: after = ws → gpioAfter before = .ok s →
    gpioAfter (before ++ [w]) = .ok t → ∀ r group, (r, group) ≠ (w.reg, w.group) →
      t.reg r group = s.reg r group
  commute : ∀ before w w' after, before ++ w :: w' :: after = ws → w.Apart w' →
    gpioAfter (before ++ [w, w']) = gpioAfter (before ++ [w', w])

section Writes

variable {s : Jz4740Gpio} {r : GpioReg} {group : Fin 4} {w w' : GpioWrite} {ws : List GpioWrite}

def GpioWrite.apply (s : Jz4740Gpio) (w : GpioWrite) : Jz4740Gpio :=
  match w.side with
  | .set => s.set w.reg w.group w.value
  | .clear => s.clear w.reg w.group w.value

theorem gpioPlace_add (group : Fin 4) {offset : Nat} (inside : offset < 0x100) :
    gpioPlace (group * 0x100 + offset) = some (group, offset) := by
  have port : (group * 0x100 + offset) / 0x100 = group := by omega
  have rest : (group * 0x100 + offset) % 0x100 = offset := by omega
  simp only [gpioPlace, port, group.isLt, dite_true, rest]

/-- The addresses of a pair are those of the switch. -/
theorem jz4740GpioWrite_pair (s : Jz4740Gpio) (w : GpioWrite) :
    jz4740GpioWrite s w.addr w.value = .ok (w.apply s) := by
  rcases w with ⟨r, group, side, value, paired⟩
  cases side <;> cases r
  case set.papin | clear.papin => exact absurd rfl paired.1
  case set.paflg | clear.paflg => exact absurd rfl paired.2
  all_goals
    simp only [GpioWrite.addr, GpioReg.offset, Nat.add_assoc]
    rw [jz4740GpioWrite, gpioPlace_add group (by decide)]
    rfl

/-- The state behind the writes. -/
def gpioState (ws : List GpioWrite) : Jz4740Gpio := ws.foldl GpioWrite.apply jz4740GpioReset

theorem gpioAfter_eq (ws : List GpioWrite) : gpioAfter ws = .ok (gpioState ws) := by
  have walk : ∀ (ws : List GpioWrite) (s : Jz4740Gpio),
      ws.foldlM (fun s w => jz4740GpioWrite s w.addr w.value) s =
        .ok (ws.foldl GpioWrite.apply s) := by
    intro ws
    induction ws with
    | nil => exact fun _ => rfl
    | cons w ws ih =>
      intro s
      rw [List.foldlM_cons, jz4740GpioWrite_pair, List.foldl_cons, ← ih]
      rfl
  exact walk ws jz4740GpioReset

theorem gpioState_concat (ws : List GpioWrite) (w : GpioWrite) :
    gpioState (ws ++ [w]) = w.apply (gpioState ws) := by
  rw [gpioState, List.foldl_append]
  rfl

theorem gpioState_pair (ws : List GpioWrite) (w w' : GpioWrite) :
    gpioState (ws ++ [w, w']) = w'.apply (w.apply (gpioState ws)) := by
  rw [gpioState, List.foldl_append]
  rfl

theorem set_reg (s : Jz4740Gpio) (r k : GpioReg) (group g : Fin 4) (value : BitVec 32) :
    (s.set r group value).reg k g = if k = r ∧ g = group then value else s.reg k g := by
  rcases eq_or_ne k r with rfl | apart
  · rcases eq_or_ne g group with rfl | apart
    · simp only [Jz4740Gpio.set, Function.update_self, and_self, if_true]
    · simp only [Jz4740Gpio.set, Function.update_self, Function.update_of_ne apart, apart,
        and_false, if_false]
  · simp only [Jz4740Gpio.set, Function.update_of_ne apart, apart, false_and, if_false]

/-- What a write makes of the value of its own register. -/
def GpioWrite.merge (w : GpioWrite) (old : BitVec 32) : BitVec 32 :=
  match w.side with
  | .set => w.value
  | .clear => old &&& ~~~w.value

theorem apply_eq (s : Jz4740Gpio) (w : GpioWrite) :
    w.apply s = s.set w.reg w.group (w.merge (s.reg w.reg w.group)) := by
  unfold GpioWrite.apply GpioWrite.merge
  split <;> rfl

theorem apply_reg (s : Jz4740Gpio) (w : GpioWrite) (r : GpioReg) (group : Fin 4) :
    (w.apply s).reg r group =
      if r = w.reg ∧ group = w.group then w.merge (s.reg r group) else s.reg r group := by
  rw [apply_eq, set_reg]
  split
  · next own => rw [own.1, own.2]
  · rfl

/-! ## The bits of a register -/

/-- A set has all the bits that are set already. -/
def Covers (s : Jz4740Gpio) (w : GpioWrite) : Prop :=
  w.side = .set → s.reg w.reg w.group &&& ~~~w.value = 0#32

theorem and_not_eq_zero_iff {x y : BitVec 32} :
    x &&& ~~~y = 0#32 ↔ ∀ b, x.getLsbD b = true → y.getLsbD b = true := by
  constructor
  · intro none b set
    have bit := congrArg (BitVec.getLsbD · b) none
    have inside : b < 32 := BitVec.lt_of_getLsbD set
    simp only [BitVec.getLsbD_and, BitVec.getLsbD_not, set, inside, decide_true, Bool.true_and,
      BitVec.getLsbD_zero, Bool.not_eq_false'] at bit
    exact bit
  · intro covers
    apply BitVec.eq_of_getLsbD_eq
    intro b inside
    rw [BitVec.getLsbD_and, BitVec.getLsbD_not, BitVec.getLsbD_zero]
    cases set : x.getLsbD b with
    | false => rfl
    | true => simp only [covers b set, Bool.not_true, Bool.and_false]

theorem lastBit_concat (r : GpioReg) (group : Fin 4) (b : Nat) (ws : List GpioWrite)
    (w : GpioWrite) : lastBit r group b (ws ++ [w]) =
      if w.reg = r ∧ w.group = group ∧ w.value.getLsbD b = true then
        some (decide (w.side = .set))
      else lastBit r group b ws := by
  induction ws with
  | nil =>
    simp only [List.nil_append, lastBit, Option.none_or]
  | cons v ws ih =>
    rw [List.cons_append, lastBit, ih, lastBit]
    split
    · rfl
    · rfl

/-- The bits of the registers are what the last writes to them say. -/
def BitsLast (ws : List GpioWrite) : Prop :=
  ∀ r group b, ((gpioState ws).reg r group).getLsbD b =
    (lastBit r group b ws).getD ((jz4740GpioReset.reg r group).getLsbD b)

theorem merge_bit (w : GpioWrite) (old : BitVec 32) (b : Nat) :
    (w.merge old).getLsbD b =
      match w.side with
      | .set => w.value.getLsbD b
      | .clear => old.getLsbD b && !w.value.getLsbD b := by
  unfold GpioWrite.merge
  split
  · rfl
  · rw [BitVec.getLsbD_and, BitVec.getLsbD_not]
    cases set : old.getLsbD b with
    | false => rfl
    | true => rw [decide_eq_true (BitVec.lt_of_getLsbD set), Bool.true_and]

/-- One more write keeps to its bits exactly when it covers the register. -/
theorem bitsLast_concat_iff (before : BitsLast ws) : BitsLast (ws ++ [w]) ↔
    Covers (gpioState ws) w := by
  constructor
  · intro after side
    refine and_not_eq_zero_iff.mpr fun b set => ?_
    by_contra lost
    have bit := after w.reg w.group b
    rw [gpioState_concat, apply_reg, if_pos ⟨rfl, rfl⟩, merge_bit, side, lastBit_concat,
      if_neg fun all => lost all.2.2, ← before, set] at bit
    exact lost bit
  · intro covers r group b
    rw [gpioState_concat, apply_reg, lastBit_concat]
    by_cases own : r = w.reg ∧ group = w.group
    · obtain ⟨rfl, rfl⟩ := own
      rw [if_pos ⟨rfl, rfl⟩, merge_bit]
      by_cases value : w.value.getLsbD b = true
      · rw [if_pos ⟨rfl, rfl, value⟩, value]
        cases w.side with
        | set => rfl
        | clear => exact Bool.and_false _
      · rw [if_neg fun all => value all.2.2, ← before, Bool.eq_false_iff.mpr value]
        cases side : w.side with
        | set =>
          have clear : ((gpioState ws).reg w.reg w.group).getLsbD b ≠ true :=
            fun set => value (and_not_eq_zero_iff.mp (covers side) b set)
          exact (Bool.eq_false_iff.mpr clear).symm
        | clear => exact Bool.and_true _
    · rw [if_neg own, if_neg fun all => own ⟨all.1.symm, all.2.1.symm⟩]
      exact before r group b

theorem bitsLast_nil : BitsLast [] := fun _ _ _ => rfl

/-! ## Whole sequences -/

/-- Every set covers the register it finds, and a set of nothing is followed by no
set of something. -/
structure SetsCover (ws : List GpioWrite) : Prop where
  covers : ∀ before w after s, before ++ w :: after = ws → gpioAfter before = .ok s → Covers s w
  empty : ∀ before w w' after, before ++ w :: w' :: after = ws → w.side = .set →
    w'.side = .set → w.reg = w'.reg → w.group = w'.group → w.value = 0#32 → w'.value = 0#32

theorem SetsCover.bitsLast (guard : SetsCover ws) : ∀ before after, before ++ after = ws →
    BitsLast before := by
  intro before
  induction before using List.reverseRecOn with
  | nil => exact fun _ _ => bitsLast_nil
  | append_singleton before w ih =>
    intro after whole
    rw [List.append_assoc, List.singleton_append] at whole
    exact (bitsLast_concat_iff (ih _ whole)).mpr
      (guard.covers before w after _ whole (gpioAfter_eq before))

theorem and_not_of_apart {x y : BitVec 32} (apart : x &&& y = 0#32) : x &&& ~~~y = x := by
  apply BitVec.eq_of_getLsbD_eq
  intro b inside
  have bit := congrArg (BitVec.getLsbD · b) apart
  simp only [BitVec.getLsbD_and, BitVec.getLsbD_zero] at bit
  rw [BitVec.getLsbD_and, BitVec.getLsbD_not, decide_eq_true inside, Bool.true_and]
  cases set : x.getLsbD b with
  | false => rfl
  | true =>
    rw [set, Bool.true_and] at bit
    rw [bit]
    rfl

/-- Two writes to one register commute when they touch no bit in common, unless
both are sets that differ. -/
theorem merge_comm (old : BitVec 32) (apart : w.value &&& w'.value = 0#32)
    (same : w.side = .set → w'.side = .set → w.value = w'.value) :
    w'.merge (w.merge old) = w.merge (w'.merge old) := by
  rcases w with ⟨r, group, side, value, paired⟩
  rcases w' with ⟨r', group', side', value', paired'⟩
  dsimp only at apart same
  cases side <;> cases side'
  case set.set => exact (same rfl rfl).symm
  case set.clear => exact and_not_of_apart apart
  case clear.set => exact (and_not_of_apart (BitVec.and_comm value value' ▸ apart)).symm
  case clear.clear =>
    simp only [GpioWrite.merge]
    rw [BitVec.and_assoc, BitVec.and_comm (~~~value), ← BitVec.and_assoc]

theorem apply_comm (s : Jz4740Gpio) (apart : w.Apart w')
    (same : w.reg = w'.reg → w.group = w'.group → w.side = .set → w'.side = .set →
      w.value = w'.value) : w'.apply (w.apply s) = w.apply (w'.apply s) := by
  refine Jz4740Gpio.ext (funext fun r => funext fun group => ?_)
  simp only [apply_reg]
  by_cases own : r = w.reg ∧ group = w.group
  · by_cases own' : r = w'.reg ∧ group = w'.group
    · have reg : w.reg = w'.reg := own.1.symm.trans own'.1
      have port : w.group = w'.group := own.2.symm.trans own'.2
      simp only [if_pos own, if_pos own']
      exact merge_comm _ (apart reg port) (same reg port)
    · simp only [if_pos own, if_neg own']
  · simp only [if_neg own]

/-- The set and clear addresses act bitwise along exactly those sequences of writes
whose sets cover the registers they find. -/
theorem actsBitwise_iff (ws : List GpioWrite) : ActsBitwise ws ↔ SetsCover ws := by
  constructor
  · intro acts
    refine ⟨fun before w after s whole reached => ?_, fun before w w' after whole side side' => ?_⟩
    · have first : BitsLast before := acts.bits before _ _ whole (gpioAfter_eq before)
      have next : BitsLast (before ++ [w]) :=
        acts.bits _ after _ (by rw [← whole, List.append_assoc]; rfl) (gpioAfter_eq _)
      cases (gpioAfter_eq before).symm.trans reached
      exact (bitsLast_concat_iff first).mp next
    · intro reg port zero
      have apart : w.Apart w' := by
        intro _ _
        rw [zero]
        exact BitVec.zero_and
      have swapped := acts.commute before w w' after whole apart
      rw [gpioAfter_eq, gpioAfter_eq, gpioState_pair, gpioState_pair] at swapped
      have value := congrArg (fun s : Jz4740Gpio => s.reg w'.reg w'.group) (Except.ok.inj swapped)
      simp only [apply_reg, reg, port, and_self, if_true] at value
      simp only [GpioWrite.merge, side, side'] at value
      exact value.trans zero
  · intro guard
    refine ⟨⟨_, gpioAfter_eq ws⟩, ?_, ?_, ?_⟩
    · intro before after s whole reached
      cases (gpioAfter_eq before).symm.trans reached
      exact guard.bitsLast before after whole
    · intro before w after s t whole reached written r group other
      cases (gpioAfter_eq before).symm.trans reached
      cases (gpioAfter_eq _).symm.trans written
      rw [gpioState_concat, apply_reg, if_neg fun own => other (Prod.ext own.1 own.2)]
    · intro before w w' after whole apart
      rw [gpioAfter_eq, gpioAfter_eq, gpioState_pair, gpioState_pair]
      refine congrArg Except.ok (apply_comm _ apart fun reg port side side' => ?_)
      have covers := guard.covers (before ++ [w]) w' after _
        (by rw [← whole, List.append_assoc]; rfl) (gpioAfter_eq _) side'
      rw [gpioState_concat, apply_reg, if_pos ⟨reg.symm, port.symm⟩] at covers
      simp only [GpioWrite.merge, side] at covers
      have zero : w.value = 0#32 := (and_not_of_apart (apart reg port)).symm.trans covers
      exact zero.trans (guard.empty before w w' after whole side side' reg port zero).symm

end Writes

/-- Two drivers set a pin each on port A, and the first pin is lost. -/
theorem set_loses_pin : ¬ ActsBitwise
    [⟨.padat, 0, .set, 0x1, by decide⟩, ⟨.padat, 0, .set, 0x2, by decide⟩] := by
  intro acts
  have bit := acts.bits _ [] _ (List.append_nil _) (gpioAfter_eq _) .padat 0 0
  exact absurd bit (by decide)

end VirtualNoah
