import Mathlib.Tactic.Common
import Mathlib.Tactic.IntervalCases

/-!
# The byte lanes of a 32-bit word

`lane x j` is byte `j` of `x`, counted from the least significant one, and
`ofLanes` is the little-endian load.  `setLane` and `orLanes` are the two forms
in which C code usually writes and reads single lanes, and both are reduced to
lanes here, so that what follows is arithmetic on byte values.
-/

namespace Lanes

/-- Byte `j` of the word. -/
def lane (x : BitVec 32) (j : Nat) : BitVec 8 := x.extractLsb' (8 * j) 8

/-- The little-endian word of four bytes. -/
def ofLanes (b₀ b₁ b₂ b₃ : BitVec 8) : BitVec 32 :=
  BitVec.ofNat 32 (b₀.toNat + 2 ^ 8 * b₁.toNat + 2 ^ 16 * b₂.toNat + 2 ^ 24 * b₃.toNat)

/-- `x &= ~(0xff << 8k); x |= v << 8k`. -/
def setLane (x : BitVec 32) (k : Nat) (v : BitVec 32) : BitVec 32 :=
  (x &&& ~~~(0xff#32 <<< (k * 8))) ||| (v <<< (k * 8))

/-- `(b₀ & 0xff) | ((b₁ << 8) & 0xff00) | ((b₂ << 16) & 0xff0000) | ...`. -/
def orLanes (b₀ b₁ b₂ b₃ : BitVec 8) : BitVec 32 :=
  (b₀.setWidth 32 &&& 0x000000ff#32) ||| ((b₁.setWidth 32 <<< 8) &&& 0x0000ff00#32) |||
    ((b₂.setWidth 32 <<< 16) &&& 0x00ff0000#32) ||| ((b₃.setWidth 32 <<< 24) &&& 0xff000000#32)

theorem toNat_lane (x : BitVec 32) (j : Nat) :
    (lane x j).toNat = x.toNat / 2 ^ (8 * j) % 256 := by
  simp only [lane, BitVec.extractLsb'_toNat, Nat.shiftRight_eq_div_pow]

/-- A word is the weighted sum of its lanes. -/
theorem toNat_eq_lanes (x : BitVec 32) :
    x.toNat = (lane x 0).toNat + 2 ^ 8 * (lane x 1).toNat + 2 ^ 16 * (lane x 2).toNat +
      2 ^ 24 * (lane x 3).toNat := by
  have bound := x.isLt
  simp only [toNat_lane]
  omega

@[simp] theorem ofLanes_lane (x : BitVec 32) :
    ofLanes (lane x 0) (lane x 1) (lane x 2) (lane x 3) = x := by
  rw [ofLanes, ← toNat_eq_lanes, BitVec.ofNat_toNat, BitVec.setWidth_eq]

/-- Two words with the same lanes are equal. -/
theorem eq_of_lanes {x y : BitVec 32} (same : ∀ j, j < 4 → lane x j = lane y j) : x = y := by
  rw [← ofLanes_lane x, ← ofLanes_lane y, same 0 (by omega), same 1 (by omega),
    same 2 (by omega), same 3 (by omega)]

theorem lane_ofLanes (b₀ b₁ b₂ b₃ : BitVec 8) :
    lane (ofLanes b₀ b₁ b₂ b₃) 0 = b₀ ∧ lane (ofLanes b₀ b₁ b₂ b₃) 1 = b₁ ∧
      lane (ofLanes b₀ b₁ b₂ b₃) 2 = b₂ ∧ lane (ofLanes b₀ b₁ b₂ b₃) 3 = b₃ := by
  have h₀ := b₀.isLt
  have h₁ := b₁.isLt
  have h₂ := b₂.isLt
  have h₃ := b₃.isLt
  refine ⟨?_, ?_, ?_, ?_⟩ <;> apply BitVec.eq_of_toNat_eq <;>
    simp only [toNat_lane, ofLanes, BitVec.toNat_ofNat] <;> omega

/-- Writing a byte into one lane leaves the others alone. -/
theorem lane_setLane {x : BitVec 32} {b : BitVec 8} {j k : Nat} (read : j < 4) (written : k < 4) :
    lane (setLane x k (b.setWidth 32)) j = if j = k then b else lane x j := by
  interval_cases j <;> interval_cases k <;>
    (apply BitVec.eq_of_getLsbD_eq; intro i bit; interval_cases i <;> simp [lane, setLane])

theorem orLanes_eq_ofLanes (b₀ b₁ b₂ b₃ : BitVec 8) :
    orLanes b₀ b₁ b₂ b₃ = ofLanes b₀ b₁ b₂ b₃ := by
  obtain ⟨l₀, l₁, l₂, l₃⟩ := lane_ofLanes b₀ b₁ b₂ b₃
  apply eq_of_lanes
  intro j inside
  have cases : lane (orLanes b₀ b₁ b₂ b₃) j = [b₀, b₁, b₂, b₃].getD j 0 := by
    interval_cases j <;>
      (apply BitVec.eq_of_getLsbD_eq; intro i bit; interval_cases i <;> simp [lane, orLanes])
  rw [cases]
  interval_cases j
  · exact l₀.symm
  · exact l₁.symm
  · exact l₂.symm
  · exact l₃.symm

theorem lane_and (x y : BitVec 32) (j : Nat) : lane (x &&& y) j = lane x j &&& lane y j :=
  BitVec.extractLsb'_and ..

theorem lane_or (x y : BitVec 32) (j : Nat) : lane (x ||| y) j = lane x j ||| lane y j :=
  BitVec.extractLsb'_or ..

theorem lane_shiftRight (x : BitVec 32) (i j : Nat) : lane (x >>> (i * 8)) j = lane x (i + j) := by
  apply BitVec.eq_of_getLsbD_eq
  intro b _
  simp only [lane, BitVec.getLsbD_extractLsb', BitVec.getLsbD_ushiftRight]
  congr 2
  omega

theorem lane_shiftLeft (x : BitVec 32) (i : Nat) {j : Nat} (inside : j < 4) :
    lane (x <<< (i * 8)) j = if j < i then 0 else lane x (j - i) := by
  apply BitVec.eq_of_getLsbD_eq
  intro b bound
  simp only [lane, BitVec.getLsbD_extractLsb', BitVec.getLsbD_shiftLeft]
  split
  · next before =>
    rw [decide_eq_true (show 8 * j + b < i * 8 by omega)]
    simp only [Bool.not_true, Bool.and_false, Bool.false_and, BitVec.ofNat_eq_ofNat,
      BitVec.getLsbD_zero]
  · next past =>
    rw [decide_eq_false (show ¬ 8 * j + b < i * 8 by omega),
      decide_eq_true (show 8 * j + b < 32 by omega), BitVec.getLsbD_extractLsb',
      show 8 * j + b - i * 8 = 8 * (j - i) + b by omega]
    rfl

theorem toNat_and_low_half (x : BitVec 32) : (x &&& 0xffff#32).toNat = x.toNat % 65536 := by
  rw [BitVec.toNat_and]
  exact Nat.and_two_pow_sub_one_eq_mod x.toNat 16

end Lanes
