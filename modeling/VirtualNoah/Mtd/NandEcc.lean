import VirtualNoah.Yaffs.Ecc

/-!
# The ECC of the MTD layer

`nand_ecc.c` keeps the check bits of YAFFS under another table, with the line parities
the other way round, and the NAND driver has a decoder of its own for the same three bytes.
All three find the same faults.
-/

namespace VirtualNoah

open ByteStore ParityCode

attribute [local instance] eccBytes

/-! ## nand_ecc.c -/

/-- Bits 5 to 0 are the column parities of a byte, bit 6 is its parity. -/
def nandEccPrecalcTable : List Byte :=
  [0x00, 0x55, 0x56, 0x03, 0x59, 0x0c, 0x0f, 0x5a, 0x5a, 0x0f, 0x0c, 0x59, 0x03, 0x56, 0x55, 0x00,
    0x65, 0x30, 0x33, 0x66, 0x3c, 0x69, 0x6a, 0x3f, 0x3f, 0x6a, 0x69, 0x3c, 0x66, 0x33, 0x30, 0x65,
    0x66, 0x33, 0x30, 0x65, 0x3f, 0x6a, 0x69, 0x3c, 0x3c, 0x69, 0x6a, 0x3f, 0x65, 0x30, 0x33, 0x66,
    0x03, 0x56, 0x55, 0x00, 0x5a, 0x0f, 0x0c, 0x59, 0x59, 0x0c, 0x0f, 0x5a, 0x00, 0x55, 0x56, 0x03,
    0x69, 0x3c, 0x3f, 0x6a, 0x30, 0x65, 0x66, 0x33, 0x33, 0x66, 0x65, 0x30, 0x6a, 0x3f, 0x3c, 0x69,
    0x0c, 0x59, 0x5a, 0x0f, 0x55, 0x00, 0x03, 0x56, 0x56, 0x03, 0x00, 0x55, 0x0f, 0x5a, 0x59, 0x0c,
    0x0f, 0x5a, 0x59, 0x0c, 0x56, 0x03, 0x00, 0x55, 0x55, 0x00, 0x03, 0x56, 0x0c, 0x59, 0x5a, 0x0f,
    0x6a, 0x3f, 0x3c, 0x69, 0x33, 0x66, 0x65, 0x30, 0x30, 0x65, 0x66, 0x33, 0x69, 0x3c, 0x3f, 0x6a,
    0x6a, 0x3f, 0x3c, 0x69, 0x33, 0x66, 0x65, 0x30, 0x30, 0x65, 0x66, 0x33, 0x69, 0x3c, 0x3f, 0x6a,
    0x0f, 0x5a, 0x59, 0x0c, 0x56, 0x03, 0x00, 0x55, 0x55, 0x00, 0x03, 0x56, 0x0c, 0x59, 0x5a, 0x0f,
    0x0c, 0x59, 0x5a, 0x0f, 0x55, 0x00, 0x03, 0x56, 0x56, 0x03, 0x00, 0x55, 0x0f, 0x5a, 0x59, 0x0c,
    0x69, 0x3c, 0x3f, 0x6a, 0x30, 0x65, 0x66, 0x33, 0x33, 0x66, 0x65, 0x30, 0x6a, 0x3f, 0x3c, 0x69,
    0x03, 0x56, 0x55, 0x00, 0x5a, 0x0f, 0x0c, 0x59, 0x59, 0x0c, 0x0f, 0x5a, 0x00, 0x55, 0x56, 0x03,
    0x66, 0x33, 0x30, 0x65, 0x3f, 0x6a, 0x69, 0x3c, 0x3c, 0x69, 0x6a, 0x3f, 0x65, 0x30, 0x33, 0x66,
    0x65, 0x30, 0x33, 0x66, 0x3c, 0x69, 0x6a, 0x3f, 0x3f, 0x6a, 0x69, 0x3c, 0x66, 0x33, 0x30, 0x65,
    0x00, 0x55, 0x56, 0x03, 0x59, 0x0c, 0x0f, 0x5a, 0x5a, 0x0f, 0x0c, 0x59, 0x03, 0x56, 0x55, 0x00]

structure NandEccRegs where
  reg1 : Byte
  reg2 : Byte
  reg3 : Byte
  deriving DecidableEq

/-- The loop body of `nand_calculate_ecc`. -/
def nandEccStep (dat : Buf) (regs : NandEccRegs) (i : Nat) : NandEccRegs :=
  let idx := nandEccPrecalcTable.getD (dat i).toNat 0
  if idx &&& 0x40 ≠ 0 then
    { reg1 := regs.reg1 ^^^ (idx &&& 0x3f)
      reg2 := regs.reg2 ^^^ ~~~BitVec.ofNat 8 i
      reg3 := regs.reg3 ^^^ BitVec.ofNat 8 i }
  else { regs with reg1 := regs.reg1 ^^^ (idx &&& 0x3f) }

/-- Without `CONFIG_MTD_NAND_ECC_SMC`. -/
def nandCalculateEcc (dat : Buf) : Ecc :=
  let ⟨reg1, reg2, reg3⟩ := (List.range 256).foldl (nandEccStep dat) ⟨0, 0, 0⟩
  let tmp1 := (reg3 &&& 0x80) >>> 0 ||| (reg2 &&& 0x80) >>> 1 ||| (reg3 &&& 0x40) >>> 1 |||
    (reg2 &&& 0x40) >>> 2 ||| (reg3 &&& 0x20) >>> 2 ||| (reg2 &&& 0x20) >>> 3 |||
    (reg3 &&& 0x10) >>> 3 ||| (reg2 &&& 0x10) >>> 4
  let tmp2 := (reg3 &&& 0x08) <<< 4 ||| (reg2 &&& 0x08) <<< 3 ||| (reg3 &&& 0x04) <<< 3 |||
    (reg2 &&& 0x04) <<< 2 ||| (reg3 &&& 0x02) <<< 2 ||| (reg2 &&& 0x02) <<< 1 |||
    (reg3 &&& 0x01) <<< 1 ||| (reg2 &&& 0x01) <<< 0
  ![~~~tmp1, ~~~tmp2, ~~~reg1 <<< 2 ||| 0x03]

/-- `for (; byte; byte >>= 1) res += byte & 0x01` -/
def countbits (byte : BitVec 32) : Nat := countBitsLoop 32 byte

/-- `-EBADMSG` -/
def ebadmsg : Int := -74

/-- The result, and what is left in `dat`. -/
def nandCorrectData (dat : Buf) (readEcc calcEcc : Ecc) : Int × Buf :=
  let s1 := calcEcc 0 ^^^ readEcc 0
  let s0 := calcEcc 1 ^^^ readEcc 1
  let s2 := calcEcc 2 ^^^ readEcc 2
  if s0 ||| s1 ||| s2 = 0 then (0, dat)
  else if (s0 ^^^ s0 >>> 1) &&& 0x55 = 0x55 ∧ (s1 ^^^ s1 >>> 1) &&& 0x55 = 0x55 ∧
      (s2 ^^^ s2 >>> 1) &&& 0x54 = 0x54 then
    let w (s : Byte) : BitVec 32 := s.setWidth 32
    let byteoffs := w s1 <<< 0 &&& 0x80#32 ||| w s1 <<< 1 &&& 0x40#32 ||| w s1 <<< 2 &&& 0x20#32 |||
      w s1 <<< 3 &&& 0x10#32 ||| w s0 >>> 4 &&& 0x08#32 ||| w s0 >>> 3 &&& 0x04#32 |||
      w s0 >>> 2 &&& 0x02#32 ||| w s0 >>> 1 &&& 0x01#32
    let bitnum := w s2 >>> 5 &&& 0x04#32 ||| w s2 >>> 4 &&& 0x02#32 ||| w s2 >>> 3 &&& 0x01#32
    (1, flipBit dat byteoffs.toNat bitnum.toNat)
  else if countbits (s0.setWidth 32 ||| s1.setWidth 32 <<< 8 ||| s2.setWidth 32 <<< 16) = 1 then
    (1, dat)
  else (ebadmsg, dat)

/-! ## The decoder of the NAND driver -/

structure HmScan where
  add : Byte
  a : Byte
  c : Byte
  deriving DecidableEq

/-- `if (d & c) add |= a; c >>= 2; a >>= 1;` -/
def HmScan.step (d : Byte) (s : HmScan) : HmScan :=
  ⟨if d &&& s.c ≠ 0 then s.add ||| s.a else s.add, s.a >>> 1, s.c >>> 2⟩

/-- `for (i = 0; i < n; i++)` around it. -/
def hmScan (d : Byte) (n : Nat) (s : HmScan) : HmScan := (HmScan.step d)^[n] s

/-- The result, and what is left in `dat` and `read_ecc`. -/
def jzsocNandHmCorrectData (dat : Buf) (readEcc calcEcc : Ecc) : Int × Buf × Ecc :=
  let d1 := calcEcc 0 ^^^ readEcc 0
  let d2 := calcEcc 1 ^^^ readEcc 1
  let d3 := calcEcc 2 ^^^ readEcc 2
  if d1 ||| d2 ||| d3 = 0 then (0, dat, readEcc)
  else if (d1 ^^^ d1 >>> 1) &&& 0x55 = 0x55 ∧ (d2 ^^^ d2 >>> 1) &&& 0x55 = 0x55 ∧
      (d3 ^^^ d3 >>> 1) &&& 0x54 = 0x54 then
    let high := hmScan d1 4 ⟨0, 0x80, 0x80⟩
    let low := hmScan d2 4 { high with c := 0x80 }
    let bit := hmScan d3 3 ⟨0, 0x04, 0x80⟩
    (0, flipBit dat low.add.toNat bit.add.toNat, readEcc)
  else if yaffsCountBits d1 + yaffsCountBits d2 + yaffsCountBits d3 = 1 then (0, dat, calcEcc)
  else (-1, dat, readEcc)

/-! ## One code -/

/-- The two line bytes the other way round. -/
def swapEcc (e : Ecc) : Ecc := ![e 1, e 0, e 2]

section Tables

theorem nandEccPrecalcTable_eq (b : Byte) :
    nandEccPrecalcTable.getD b.toNat 0 &&& (0x3f : Byte) =
      columnParityTable.getD b.toNat 0 >>> 2 ∧
      (nandEccPrecalcTable.getD b.toNat 0 &&& 0x40 ≠ 0 ↔
        columnParityTable.getD b.toNat 0 &&& 0x01 ≠ 0) := by
  revert b
  decide +kernel

/-- The registers against the parities of YAFFS. -/
def NandEccRegs.ofParities (parity : LineParities) : NandEccRegs :=
  ⟨parity.colParity >>> 2, parity.lineParityPrime, parity.lineParity⟩

theorem nandEccStep_ofParities (dat : Buf) (parity : LineParities) (i : Nat) :
    nandEccStep dat (.ofParities parity) i = .ofParities (yaffsEccStep dat parity i) := by
  obtain ⟨columns, odd⟩ := nandEccPrecalcTable_eq (dat i)
  simp only [nandEccStep, yaffsEccStep, columns, NandEccRegs.ofParities]
  by_cases set : columnParityTable.getD (dat i).toNat 0 &&& 0x01 ≠ 0
  · rw [if_pos set, if_pos (odd.mpr set)]
    simp only [BitVec.ushiftRight_xor_distrib]
  · rw [if_neg set, if_neg fun other => set (odd.mp other)]
    simp only [BitVec.ushiftRight_xor_distrib]

theorem foldl_nandEccStep (dat : Buf) (n : Nat) :
    (List.range n).foldl (nandEccStep dat) ⟨0, 0, 0⟩ =
      .ofParities ((List.range n).foldl (yaffsEccStep dat) ⟨0, 0, 0⟩) := by
  induction n with
  | zero => exact congrArg (NandEccRegs.mk · 0 0) (BitVec.zero_ushiftRight (n := 2)).symm
  | succ n ih =>
    rw [List.range_succ, List.foldl_append, List.foldl_append, ih]
    exact nandEccStep_ofParities dat _ n

/-- A bit that is masked and moved. -/
theorem masked_eq (move : Byte → Byte) (zero : move 0 = 0) (x : Byte) (i : Fin 8) :
    move (x &&& 1#8 <<< (i : Nat)) =
      if x &&& 1#8 <<< (i : Nat) ≠ 0 then move (1#8 <<< (i : Nat)) else 0 := by
  by_cases set : x &&& 1#8 <<< (i : Nat) ≠ 0
  · have bit := (and_mask_ne_zero x i).mp set
    rw [if_pos set, ← BitVec.twoPow_eq, BitVec.and_twoPow, bit, if_pos rfl]
  · rw [if_neg set, not_not.mp set, zero]

theorem masked_high (x : Byte) :
    (x &&& 0x80) >>> 0 = (if x &&& 0x80 ≠ 0 then 0x80 else 0) ∧
      (x &&& 0x80) >>> 1 = (if x &&& 0x80 ≠ 0 then 0x40 else 0) ∧
      (x &&& 0x40) >>> 1 = (if x &&& 0x80 >>> 1 ≠ 0 then 0x20 else 0) ∧
      (x &&& 0x40) >>> 2 = (if x &&& 0x80 >>> 1 ≠ 0 then 0x10 else 0) ∧
      (x &&& 0x20) >>> 2 = (if x &&& 0x80 >>> 2 ≠ 0 then 0x08 else 0) ∧
      (x &&& 0x20) >>> 3 = (if x &&& 0x80 >>> 2 ≠ 0 then 0x04 else 0) ∧
      (x &&& 0x10) >>> 3 = (if x &&& 0x80 >>> 3 ≠ 0 then 0x02 else 0) ∧
      (x &&& 0x10) >>> 4 = (if x &&& 0x80 >>> 3 ≠ 0 then 0x01 else 0) :=
  ⟨masked_eq (· >>> 0) rfl x 7, masked_eq (· >>> 1) rfl x 7, masked_eq (· >>> 1) rfl x 6,
    masked_eq (· >>> 2) rfl x 6, masked_eq (· >>> 2) rfl x 5, masked_eq (· >>> 3) rfl x 5,
    masked_eq (· >>> 3) rfl x 4, masked_eq (· >>> 4) rfl x 4⟩

theorem masked_low (x : Byte) :
    (x &&& 0x08) <<< 4 = (if x &&& 0x08 ≠ 0 then 0x80 else 0) ∧
      (x &&& 0x08) <<< 3 = (if x &&& 0x08 ≠ 0 then 0x40 else 0) ∧
      (x &&& 0x04) <<< 3 = (if x &&& 0x08 >>> 1 ≠ 0 then 0x20 else 0) ∧
      (x &&& 0x04) <<< 2 = (if x &&& 0x08 >>> 1 ≠ 0 then 0x10 else 0) ∧
      (x &&& 0x02) <<< 2 = (if x &&& 0x08 >>> 2 ≠ 0 then 0x08 else 0) ∧
      (x &&& 0x02) <<< 1 = (if x &&& 0x08 >>> 2 ≠ 0 then 0x04 else 0) ∧
      (x &&& 0x01) <<< 1 = (if x &&& 0x08 >>> 3 ≠ 0 then 0x02 else 0) ∧
      (x &&& 0x01) <<< 0 = (if x &&& 0x08 >>> 3 ≠ 0 then 0x01 else 0) :=
  ⟨masked_eq (· <<< 4) rfl x 3, masked_eq (· <<< 3) rfl x 3, masked_eq (· <<< 3) rfl x 2,
    masked_eq (· <<< 2) rfl x 2, masked_eq (· <<< 2) rfl x 1, masked_eq (· <<< 1) rfl x 1,
    masked_eq (· <<< 1) rfl x 0, masked_eq (· <<< 0) rfl x 0⟩

/-- The check bytes are those of YAFFS. -/
theorem nandCalculateEcc_eq (dat : Buf) :
    nandCalculateEcc dat = swapEcc (yaffsEccCalculate dat) := by
  have columns : ∀ x : Byte, ~~~(x >>> 2) <<< 2 ||| 0x03 = ~~~x ||| 0x03 := by decide +kernel
  have high := masked_high
  have low := masked_low
  simp only [forall_and] at high low
  obtain ⟨a₁, a₂, a₃, a₄, a₅, a₆, a₇, a₈⟩ := high
  obtain ⟨b₁, b₂, b₃, b₄, b₅, b₆, b₇, b₈⟩ := low
  simp only [nandCalculateEcc, foldl_nandEccStep, yaffsEccCalculate, NandEccRegs.ofParities,
    columns, a₁, a₂, a₃, a₄, a₅, a₆, a₇, a₈, b₁, b₂, b₃, b₄, b₅, b₆, b₇, b₈]
  rfl

end Tables

section Decoders

variable (dat : Buf) (r t : Ecc)

/-- A byte among the bits of a word. -/
theorem getLsbD_byte_shiftLeft (d : Byte) (shift k : Nat) :
    ((d.setWidth 32 : BitVec 32) <<< shift).getLsbD k =
      (decide (shift ≤ k ∧ k < 32) && d.getLsbD (k - shift)) := by
  rw [BitVec.getLsbD_shiftLeft, BitVec.getLsbD_setWidth]
  by_cases inside : shift ≤ k ∧ k < 32
  · rw [decide_eq_true inside.2, decide_eq_false (Nat.not_lt.mpr inside.1), decide_eq_true inside,
      decide_eq_true (Nat.lt_of_le_of_lt (Nat.sub_le k shift) inside.2)]
    rfl
  · have outside : (decide (k < 32) && !decide (k < shift)) = false := by
      rw [Bool.and_eq_false_iff, Bool.not_eq_false', decide_eq_false_iff_not, decide_eq_true_iff]
      omega
    rw [outside, decide_eq_false inside, Bool.false_and, Bool.false_and]

theorem countbits_bytes (a b c : Byte) :
    countbits (a.setWidth 32 ||| b.setWidth 32 <<< 8 ||| c.setWidth 32 <<< 16) =
      yaffsCountBits a + yaffsCountBits b + yaffsCountBits c := by
  have bits : ∀ k, (a.setWidth 32 ||| b.setWidth 32 <<< 8 ||| c.setWidth 32 <<< 16).getLsbD k =
      (decide (k < 32) && (a.getLsbD k || decide (8 ≤ k) && b.getLsbD (k - 8) ||
        decide (16 ≤ k) && c.getLsbD (k - 16))) := by
    intro k
    rw [BitVec.getLsbD_or, BitVec.getLsbD_or, getLsbD_byte_shiftLeft, getLsbD_byte_shiftLeft,
      BitVec.getLsbD_setWidth]
    by_cases inside : k < 32 <;> simp [inside]
  have beyond : ∀ (d : Byte) (k : Nat), 8 ≤ k → d.getLsbD k = false := fun d k outside =>
    BitVec.getLsbD_of_ge d k outside
  simp only [countbits, yaffsCountBits, countBitsLoop_eq_sum, bits]
  rw [Finset.sum_range_add _ 24 8, Finset.sum_range_add _ 16 8, Finset.sum_range_add _ 8 8]
  refine (congrArg₂ (· + ·) (congrArg₂ (· + ·) (congrArg₂ (· + ·) (Finset.sum_congr rfl ?_)
    (Finset.sum_congr rfl ?_)) (Finset.sum_congr rfl ?_)) (Finset.sum_eq_zero ?_)).trans
    (Nat.add_zero _)
  all_goals
    intro k mem
    have below := Finset.mem_range.mp mem
    rw [decide_eq_true (by omega), Bool.true_and]
  · simp [Nat.not_le.mpr below, show ¬ 16 ≤ k by omega]
  · simp [show ¬ 16 ≤ 8 + k by omega]
  · simp [beyond a (16 + k) (by omega), beyond b (16 + k - 8) (by omega)]
  · simp [beyond a (24 + k) (by omega), beyond b (24 + k - 8) (by omega),
      beyond c (24 + k - 16) (by omega)]

/-- The bits of a byte that are moved within a word, for each value of the byte. -/
theorem moved_eq (d : Byte) :
    d.setWidth 32 <<< 0 &&& 0x80#32 ||| d.setWidth 32 <<< 1 &&& 0x40#32 |||
        d.setWidth 32 <<< 2 &&& 0x20#32 ||| d.setWidth 32 <<< 3 &&& 0x10#32 =
      (oddBits d 0x80).setWidth 32 ∧
    d.setWidth 32 >>> 4 &&& 0x08#32 ||| (d.setWidth 32 >>> 3 &&& 0x04#32 |||
        (d.setWidth 32 >>> 2 &&& 0x02#32 ||| d.setWidth 32 >>> 1 &&& 0x01#32)) =
      (oddBits d 0x08).setWidth 32 ∧
    (d.setWidth 32 >>> 5 &&& 0x04#32 ||| d.setWidth 32 >>> 4 &&& 0x02#32 |||
        d.setWidth 32 >>> 3 &&& 0x01#32).toNat = (eccBit d).toNat := by
  revert d
  decide +kernel

theorem byteoffs_eq (d0 d1 : Byte) :
    (d1.setWidth 32 <<< 0 &&& 0x80#32 ||| d1.setWidth 32 <<< 1 &&& 0x40#32 |||
      d1.setWidth 32 <<< 2 &&& 0x20#32 ||| d1.setWidth 32 <<< 3 &&& 0x10#32 |||
      d0.setWidth 32 >>> 4 &&& 0x08#32 ||| d0.setWidth 32 >>> 3 &&& 0x04#32 |||
      d0.setWidth 32 >>> 2 &&& 0x02#32 ||| d0.setWidth 32 >>> 1 &&& 0x01#32).toNat =
    (oddBits d1 0x80 ||| oddBits d0 0x08).toNat := by
  rw [(moved_eq d1).1, BitVec.or_assoc, BitVec.or_assoc, BitVec.or_assoc, (moved_eq d0).2.1,
    ← BitVec.setWidth_or, BitVec.toNat_setWidth]
  omega

theorem bitnum_eq (d2 : Byte) :
    (d2.setWidth 32 >>> 5 &&& 0x04#32 ||| d2.setWidth 32 >>> 4 &&& 0x02#32 |||
      d2.setWidth 32 >>> 3 &&& 0x01#32).toNat = (eccBit d2).toNat :=
  (moved_eq d2).2.2

/-- The kernel's decoder finds what that of YAFFS finds; the check bytes it leaves. -/
theorem nandCorrectData_eq : nandCorrectData dat (swapEcc r) (swapEcc t) =
    let found := yaffsEccCorrect dat r t
    (if found.1 = -1 then ebadmsg else found.1, found.2.1) := by
  have d₀ : swapEcc t 1 ^^^ swapEcc r 1 = r 0 ^^^ t 0 := BitVec.xor_comm _ _
  have d₁ : swapEcc t 0 ^^^ swapEcc r 0 = r 1 ^^^ t 1 := BitVec.xor_comm _ _
  have d₂ : swapEcc t 2 ^^^ swapEcc r 2 = r 2 ^^^ t 2 := BitVec.xor_comm _ _
  simp only [nandCorrectData, yaffsEccCorrect, d₀, d₁, d₂, byteoffs_eq, bitnum_eq, countbits_bytes]
  split
  · rfl
  split
  · rfl
  split <;> rfl

theorem step_add (d add a c : Byte) :
    HmScan.step d ⟨add, a, c⟩ = { HmScan.step d ⟨0, a, c⟩ with
      add := add ||| (HmScan.step d ⟨0, a, c⟩).add } := by
  simp only [HmScan.step]
  split
  · rw [BitVec.ofNat_eq_ofNat, BitVec.zero_or]
  · rw [BitVec.ofNat_eq_ofNat, BitVec.or_zero]

/-- What a scan finds is added to what was there. -/
theorem hmScan_add (d add a c : Byte) (n : Nat) :
    (hmScan d n ⟨add, a, c⟩).add = add ||| (hmScan d n ⟨0, a, c⟩).add := by
  induction n generalizing add a c with
  | zero => exact BitVec.or_zero.symm
  | succ n ih =>
    simp only [hmScan, Function.iterate_succ_apply] at ih ⊢
    rw [step_add, ih, BitVec.or_assoc, ← ih]

/-- The three scans, for each value of a byte. -/
theorem hmScan_eq (d : Byte) :
    hmScan d 4 ⟨0, 0x80, 0x80⟩ = ⟨oddBits d 0x80, 0x08, 0⟩ ∧
    (hmScan d 4 ⟨0, 0x08, 0x80⟩).add = oddBits d 0x08 ∧
    (hmScan d 3 ⟨0, 0x04, 0x80⟩).add = eccBit d := by
  revert d
  decide +kernel

theorem hmScan_low (d add : Byte) :
    (hmScan d 4 ⟨add, 0x08, 0x80⟩).add = add ||| oddBits d 0x08 := by
  rw [hmScan_add, (hmScan_eq d).2.1]

/-- The driver's decoder finds the same, and does not tell a correction from no fault. -/
theorem jzsocNandHmCorrectData_eq :
    jzsocNandHmCorrectData dat (swapEcc r) (swapEcc t) =
      let found := yaffsEccCorrect dat r t
      (if found.1 = -1 then -1 else 0, found.2.1, swapEcc found.2.2) := by
  have d₀ : swapEcc t 1 ^^^ swapEcc r 1 = r 0 ^^^ t 0 := BitVec.xor_comm _ _
  have d₁ : swapEcc t 0 ^^^ swapEcc r 0 = r 1 ^^^ t 1 := BitVec.xor_comm _ _
  have d₂ : swapEcc t 2 ^^^ swapEcc r 2 = r 2 ^^^ t 2 := BitVec.xor_comm _ _
  simp only [jzsocNandHmCorrectData, yaffsEccCorrect, d₀, d₁, d₂, (hmScan_eq _).1,
    hmScan_low, (hmScan_eq _).2.2]
  rw [BitVec.or_comm (r 1 ^^^ t 1), if_congr Iff.rfl rfl (if_congr and_left_comm rfl
    (if_congr (by rw [Nat.add_comm (yaffsCountBits (r 1 ^^^ t 1))]) rfl rfl))]
  split
  · rfl
  split
  · rfl
  split <;> rfl

/-- What the three read back from a block is the same data, and the same verdict. -/
theorem nandEcc_agrees (ecc : Ecc) :
    let found := yaffsEccRead (dat, ecc)
    nandCorrectData dat (swapEcc ecc) (nandCalculateEcc dat) =
        (if found.1 = -1 then ebadmsg else found.1, found.2.1) ∧
      jzsocNandHmCorrectData dat (swapEcc ecc) (nandCalculateEcc dat) =
        (if found.1 = -1 then -1 else 0, found.2.1, swapEcc found.2.2) := by
  rw [nandCalculateEcc_eq]
  exact ⟨nandCorrectData_eq dat ecc _, jzsocNandHmCorrectData_eq dat ecc _⟩

end Decoders

end VirtualNoah
