import Mathlib.Algebra.Group.Nat.Defs
import Mathlib.Tactic.Common

/-!
# What the SoC models share

The devices of `mips_jz.c` are step functions over their register files.  A
guest access that does not return is a `Fault`.  `muldiv64` is the emulator's
96-bit product and quotient; the timers and the clock tree round with it.
-/

namespace VirtualNoah

/-- How a device callback ends without reaching a state. -/
inductive Fault where
  /-- `cpu_abort` -/
  | cpuAbort
  /-- a table is read past its end -/
  | outOfBounds
  /-- a division by zero -/
  | divideByZero
  /-- a `NULL` dereference -/
  | segv
  /-- a loop that has not ended within its fuel -/
  | spin
  deriving DecidableEq

/-- `1 << n` -/
def bitMask (n : Nat) : BitVec 32 := 1#32 <<< n

theorem getLsbD_bitMask {n : Nat} (inside : n < 32) (k : Nat) :
    (bitMask n).getLsbD k = decide (k = n) := by
  simp only [bitMask, BitVec.getLsbD_shiftLeft, BitVec.getLsbD_one]
  grind

theorem and_bitMask_eq_zero_iff {n : Nat} (inside : n < 32) (x : BitVec 32) :
    x &&& bitMask n = 0#32 ↔ x.getLsbD n = false := by
  constructor
  · intro clear
    have bit : (x &&& bitMask n).getLsbD n = false := by
      rw [clear, BitVec.getLsbD_zero]
    rwa [BitVec.getLsbD_and, getLsbD_bitMask inside, decide_eq_true rfl, Bool.and_true] at bit
  · intro clear
    apply BitVec.eq_of_getLsbD_eq
    intro k _
    rw [BitVec.getLsbD_and, getLsbD_bitMask inside, BitVec.getLsbD_zero]
    by_cases same : k = n
    · rw [same, clear, Bool.false_and]
    · rw [decide_eq_false same, Bool.and_false]

/-- `vl.c`: compute with 96 bit intermediate result, `(a*b)/c`. -/
def muldiv64 (a : BitVec 64) (b c : BitVec 32) : BitVec 64 :=
  let rl := (a.setWidth 32).setWidth 64 * b.setWidth 64
  let rh := (a >>> 32) * b.setWidth 64 + (rl >>> 32)
  let high := (rh / c.setWidth 64).setWidth 32
  let low := ((((rh % c.setWidth 64) <<< 32) + (rl &&& 0xffffffff#64)) / c.setWidth 64).setWidth 32
  high ++ low

/-- Long division by one digit of base `n`. -/
theorem long_division (n high low c : Nat) (pos : 0 < c) :
    (high * n + low) / c = high / c * n + (high % c * n + low) / c := by
  have split : high * n + low = c * (high / c * n) + (high % c * n + low) := by
    conv_lhs => rw [← Nat.div_add_mod high c]
    rw [Nat.add_mul, Nat.mul_assoc, Nat.add_assoc]
  rw [split, Nat.mul_add_div pos]

/-- A remainder and one further digit leave a quotient of one digit. -/
theorem long_division_digit {n high low c : Nat} (pos : 0 < c) (digit : low < n) :
    (high % c * n + low) / c < n := by
  have rest : high % c + 1 ≤ c := Nat.mod_lt high pos
  have bound : (high % c + 1) * n ≤ c * n := Nat.mul_le_mul_right n rest
  rw [Nat.add_mul, Nat.one_mul] at bound
  exact Nat.div_lt_of_lt_mul (by omega)

/-- The quotient loses nothing but what does not fit in 64 bits. -/
theorem muldiv64_toNat (a : BitVec 64) {b c : BitVec 32} (pos : 0 < c.toNat) :
    (muldiv64 a b c).toNat = a.toNat * b.toNat / c.toNat % 2 ^ 64 := by
  have wide : ∀ x : BitVec 32, (x.setWidth 64).toNat = x.toNat := fun x => by
    rw [BitVec.toNat_setWidth]
    exact Nat.mod_eq_of_lt (by omega)
  have lowProduct : a.toNat % 2 ^ 32 * b.toNat ≤ (2 ^ 32 - 1) * (2 ^ 32 - 1) :=
    Nat.mul_le_mul (by omega) (by have := b.isLt; omega)
  have highProduct : a.toNat / 2 ^ 32 * b.toNat ≤ (2 ^ 32 - 1) * (2 ^ 32 - 1) :=
    Nat.mul_le_mul (by have := a.isLt; omega) (by have := b.isLt; omega)
  -- the two partial products, without a carry out of 64 bits
  obtain ⟨rl, hrl⟩ : ∃ rl, rl = (a.setWidth 32).setWidth 64 * b.setWidth 64 := ⟨_, rfl⟩
  have rl_eq : rl.toNat = a.toNat % 2 ^ 32 * b.toNat := by
    rw [hrl, BitVec.toNat_mul, wide, wide, BitVec.toNat_setWidth]
    exact Nat.mod_eq_of_lt (by omega)
  obtain ⟨rh, hrh⟩ : ∃ rh, rh = (a >>> 32) * b.setWidth 64 + (rl >>> 32) := ⟨_, rfl⟩
  have rh_eq : rh.toNat = a.toNat / 2 ^ 32 * b.toNat + rl.toNat / 2 ^ 32 := by
    rw [hrh, BitVec.toNat_add, BitVec.toNat_mul, wide, BitVec.toNat_ushiftRight,
      BitVec.toNat_ushiftRight, Nat.shiftRight_eq_div_pow, Nat.shiftRight_eq_div_pow,
      Nat.mod_eq_of_lt (a := a.toNat / 2 ^ 32 * b.toNat) (by omega)]
    exact Nat.mod_eq_of_lt (by omega)
  have product : a.toNat * b.toNat = rh.toNat * 2 ^ 32 + rl.toNat % 2 ^ 32 := by
    have halves : a.toNat * b.toNat = a.toNat / 2 ^ 32 * b.toNat * 2 ^ 32 + rl.toNat := by
      conv_lhs => rw [← Nat.div_add_mod a.toNat (2 ^ 32)]
      rw [rl_eq, Nat.add_mul, Nat.mul_assoc, Nat.mul_comm (2 ^ 32)]
    rw [halves, rh_eq, Nat.add_mul, Nat.add_assoc, Nat.div_add_mod']
  have lowDigit : rl.toNat % 2 ^ 32 < 2 ^ 32 := Nat.mod_lt _ (by decide)
  have digit : (rh.toNat % c.toNat * 2 ^ 32 + rl.toNat % 2 ^ 32) / c.toNat < 2 ^ 32 :=
    long_division_digit pos lowDigit
  rw [product, long_division _ _ _ _ pos]
  have high_eq : ((rh / c.setWidth 64).setWidth 32).toNat = rh.toNat / c.toNat % 2 ^ 32 := by
    rw [BitVec.toNat_setWidth, BitVec.toNat_udiv, wide]
  have low_eq : ((((rh % c.setWidth 64) <<< 32) + (rl &&& 0xffffffff#64)) /
        c.setWidth 64).setWidth 32 =
      BitVec.ofNat 32 ((rh.toNat % c.toNat * 2 ^ 32 + rl.toNat % 2 ^ 32) / c.toNat) := by
    apply BitVec.eq_of_toNat_eq
    have rest : rh.toNat % c.toNat < c.toNat := Nat.mod_lt _ pos
    have mask : (rl &&& 0xffffffff#64).toNat = rl.toNat % 2 ^ 32 := by
      rw [BitVec.toNat_and]
      exact Nat.and_two_pow_sub_one_eq_mod rl.toNat 32
    rw [BitVec.toNat_setWidth, BitVec.toNat_udiv, BitVec.toNat_add, BitVec.toNat_shiftLeft,
      BitVec.toNat_umod, wide, mask, Nat.shiftLeft_eq, BitVec.toNat_ofNat,
      Nat.mod_eq_of_lt (a := rh.toNat % c.toNat * 2 ^ 32) (by omega),
      Nat.mod_eq_of_lt (a := rh.toNat % c.toNat * 2 ^ 32 + rl.toNat % 2 ^ 32) (by omega)]
  unfold muldiv64
  rw [← hrl]
  dsimp only
  rw [← hrh, low_eq, BitVec.toNat_append, high_eq, BitVec.toNat_ofNat, Nat.mod_eq_of_lt digit,
    ← Nat.shiftLeft_add_eq_or_of_lt digit, Nat.shiftLeft_eq]
  generalize (rh.toNat % c.toNat * 2 ^ 32 + rl.toNat % 2 ^ 32) / c.toNat = low at digit ⊢
  generalize rh.toNat / c.toNat = high
  omega

end VirtualNoah
