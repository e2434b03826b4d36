import Mathlib.Algebra.Order.Group.Nat
import Mathlib.Logic.Function.Iterate
import Mathlib.Tactic.Common

/-!
# `do ... while` loops over a machine counter

`doWhile` runs its body, takes the counter down and goes on while a test of the
counter holds.  The body does not see the counter, so the loop is the body
iterated `passes` times, and what is left to count is the passes.  The two
forms counted here are `while (--n != 0)` and `n -= k; while (n > 0)`; both run
the body at least once.
-/

namespace DoWhile

variable {σ κ : Type}

/-- `do { body; k = left(k); } while (again(k))`, for at most `fuel` passes. -/
def doWhile (left : κ → κ) (again : κ → Bool) (body : σ → σ) : Nat → κ → σ → σ
  | 0, _, s => s
  | fuel + 1, k, s =>
    let s := body s
    let k := left k
    if again k then doWhile left again body fuel k s else s

/-- How often the body runs. -/
def passes (left : κ → κ) (again : κ → Bool) : Nat → κ → Nat
  | 0, _ => 0
  | fuel + 1, k => if again (left k) then passes left again fuel (left k) + 1 else 1

theorem doWhile_eq_iterate (left : κ → κ) (again : κ → Bool) (body : σ → σ) (fuel : Nat) (k : κ)
    (s : σ) : doWhile left again body fuel k s = body^[passes left again fuel k] s := by
  induction fuel generalizing k s with
  | zero => rfl
  | succ fuel ih =>
    simp only [doWhile, passes]
    split
    · rw [ih, Function.iterate_succ_apply]
    · rfl

section Passes

variable {left : κ → κ} {again : κ → Bool} {fuel : Nat} {k : κ}

theorem passes_more (more : again (left k) = true) :
    passes left again (fuel + 1) k = passes left again fuel (left k) + 1 :=
  if_pos more

theorem passes_last (last : again (left k) = false) : passes left again (fuel + 1) k = 1 :=
  if_neg (Bool.eq_false_iff.mp last)

theorem passes_pos : 0 < passes left again (fuel + 1) k := by
  cases more : again (left k) with
  | true =>
    rw [passes_more more]
    exact Nat.succ_pos _
  | false =>
    rw [passes_last more]
    exact Nat.one_pos

end Passes

/-- The test fails after `n` passes, and not before. -/
structure EndsAfter (left : κ → κ) (again : κ → Bool) (k : κ) (n : Nat) : Prop where
  pos : 0 < n
  before : ∀ m, 0 < m → m < n → again (left^[m] k) = true
  last : again (left^[n] k) = false

/-- A loop that does not use up its fuel ends by its test. -/
theorem endsAfter_passes {left : κ → κ} {again : κ → Bool} {fuel : Nat} {k : κ}
    (below : passes left again fuel k < fuel) :
    EndsAfter left again k (passes left again fuel k) := by
  induction fuel generalizing k with
  | zero => exact absurd below (Nat.not_lt_zero _)
  | succ fuel ih =>
    cases more : again (left k) with
    | true =>
      rw [passes_more more] at below ⊢
      obtain ⟨pos, before, last⟩ := ih (Nat.lt_of_succ_lt_succ below)
      refine ⟨Nat.succ_pos _, fun m some inside => ?_, last⟩
      match m, some with
      | 1, _ => exact more
      | m + 2, _ => exact before (m + 1) (Nat.succ_pos m) (Nat.lt_of_succ_lt_succ inside)
    | false =>
      rw [passes_last more]
      exact ⟨Nat.one_pos, fun m some inside => absurd inside (Nat.not_lt_of_le some), more⟩

/-- `while (--n != 0)` on a 32-bit counter. -/
def decrement (n : BitVec 32) : BitVec 32 := n - 1#32

def nonzero (n : BitVec 32) : Bool := n ≠ 0#32

/-- `n -= k; while (n > 0)` on a signed counter. -/
def subtract (k n : BitVec 32) : BitVec 32 := n - k

def positive (n : BitVec 32) : Bool := 0 < n.toInt

theorem passes_decrement {n : BitVec 32} {fuel : Nat} (some : n ≠ 0#32)
    (enough : n.toNat ≤ fuel) : passes decrement nonzero fuel n = n.toNat := by
  induction fuel generalizing n with
  | zero => exact absurd (BitVec.eq_of_toNat_eq (Nat.le_zero.mp enough)) some
  | succ fuel ih =>
    have pos : n.toNat ≠ 0 := fun zero => some (BitVec.eq_of_toNat_eq zero)
    have less : (decrement n).toNat = n.toNat - 1 := by
      unfold decrement
      bv_omega
    by_cases last : decrement n = 0#32
    · have done : nonzero (decrement n) = false := by
        rw [last]
        rfl
      rw [passes_last done]
      have : n.toNat - 1 = 0 := less.symm.trans (congrArg BitVec.toNat last)
      omega
    · have more : nonzero (decrement n) = true := decide_eq_true last
      rw [passes_more more, ih last (by omega), less]
      omega

/-- The passes that take `k` off a small counter until nothing is left. -/
theorem passes_subtract {k n : BitVec 32} {fuel : Nat} (pos : 0 < k.toNat)
    (step : k.toNat < 2 ^ 31) (small : n.toNat < 2 ^ 31) (enough : n.toNat < fuel) :
    passes (subtract k) positive fuel n = max 1 ((n.toNat + k.toNat - 1) / k.toNat) := by
  induction fuel generalizing n with
  | zero => omega
  | succ fuel ih =>
    by_cases more : k.toNat < n.toNat
    · have less : (subtract k n).toNat = n.toNat - k.toNat := by
        unfold subtract
        bv_omega
      have above : positive (subtract k n) = true := by
        refine decide_eq_true ?_
        rw [BitVec.toInt_eq_toNat_of_lt (by omega), less]
        omega
      rw [passes_more above, ih (by omega) (by omega), less]
      -- one pass more for `k` more
      have quotient : (n.toNat + k.toNat - 1) / k.toNat =
          (n.toNat - k.toNat + k.toNat - 1) / k.toNat + 1 := by
        rw [← Nat.add_div_right _ pos]
        congr 1
        omega
      have some : 1 ≤ (n.toNat - k.toNat + k.toNat - 1) / k.toNat :=
        (Nat.one_le_div_iff pos).mpr (by omega)
      rw [quotient, Nat.max_eq_right some, Nat.max_eq_right (Nat.le_add_left 1 _)]
    · have below : positive (subtract k n) = false := by
        refine decide_eq_false (Int.not_lt.mpr ?_)
        unfold subtract
        rw [BitVec.toInt_sub, BitVec.toInt_eq_toNat_of_lt (by omega),
          BitVec.toInt_eq_toNat_of_lt (by omega), Int.bmod_eq_of_le (by omega) (by omega)]
        omega
      rw [passes_last below]
      have quotient : (n.toNat + k.toNat - 1) / k.toNat < 2 :=
        Nat.div_lt_of_lt_mul (by omega)
      exact (Nat.max_eq_left (Nat.le_of_lt_succ quotient)).symm

end DoWhile
