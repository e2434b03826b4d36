import Mathlib
import VirtualNoah.Lib.ParityCode
import VirtualNoah.Yaffs.PackedTags2

/-!
# The ECC of 256 bytes

Three bytes of check bits for a block of 256 bytes: the column and line parities of
`yaffs_ecc.c`.  The same code is in `nand_ecc.c`, with the first two bytes in the other
order, and once more in the NAND driver, for the ECC its hardware calculates.

One fault in the data or in the check bytes is corrected, and of two none is ever taken for
one; the two low bits of the last check byte, which carry no parity, are the exception.
-/

namespace VirtualNoah

open ByteStore ParityCode

/-! ## YAFFS -/

/-- `unsigned char ecc[3]` -/
abbrev Ecc := Fin 3 → Byte

/-- The check bytes are counted from 0. -/
theorem eccBytes : NeZero 3 := ⟨by decide⟩

attribute [local instance] eccBytes

structure LineParities where
  colParity : Byte
  lineParity : Byte
  lineParityPrime : Byte

/-- The loop body of `yaffs_ECCCalculate`. -/
def yaffsEccStep (data : Buf) (parity : LineParities) (i : Nat) : LineParities :=
  let b := columnParityTable.getD (data i).toNat 0
  if b &&& 0x01 ≠ 0 then
    { colParity := parity.colParity ^^^ b
      lineParity := parity.lineParity ^^^ BitVec.ofNat 8 i
      lineParityPrime := parity.lineParityPrime ^^^ ~~~BitVec.ofNat 8 i }
  else { parity with colParity := parity.colParity ^^^ b }

/-- `t` from four bits of both line parities, `mask` being the highest of them. -/
def eccByte (line prime mask : Byte) : Byte :=
  (if line &&& mask ≠ 0 then 0x80 else 0) ||| (if prime &&& mask ≠ 0 then 0x40 else 0) |||
    (if line &&& mask >>> 1 ≠ 0 then 0x20 else 0) |||
    (if prime &&& mask >>> 1 ≠ 0 then 0x10 else 0) |||
    (if line &&& mask >>> 2 ≠ 0 then 0x08 else 0) |||
    (if prime &&& mask >>> 2 ≠ 0 then 0x04 else 0) |||
    (if line &&& mask >>> 3 ≠ 0 then 0x02 else 0) |||
    (if prime &&& mask >>> 3 ≠ 0 then 0x01 else 0)

def yaffsEccCalculate (data : Buf) : Ecc :=
  let parity := (List.range 256).foldl (yaffsEccStep data) ⟨0, 0, 0⟩
  ![~~~eccByte parity.lineParity parity.lineParityPrime 0x08,
    ~~~eccByte parity.lineParity parity.lineParityPrime 0x80, ~~~parity.colParity ||| 0x03]

/-- Bits 7, 5, 3 and 1, from bit `mask` of the result down. -/
def oddBits (d mask : Byte) : Byte :=
  (if d &&& 0x80 ≠ 0 then mask else 0) ||| (if d &&& 0x20 ≠ 0 then mask >>> 1 else 0) |||
    (if d &&& 0x08 ≠ 0 then mask >>> 2 else 0) ||| (if d &&& 0x02 ≠ 0 then mask >>> 3 else 0)

/-- Bits 7, 5 and 3. -/
def eccBit (d : Byte) : Byte :=
  (if d &&& 0x80 ≠ 0 then 0x04 else 0) ||| (if d &&& 0x20 ≠ 0 then 0x02 else 0) |||
    (if d &&& 0x08 ≠ 0 then 0x01 else 0)

/-- `data[byte] ^= (1 << bit)` -/
def flipBit (data : Buf) (byte bit : Nat) : Buf :=
  Function.update data byte (data byte ^^^ 1#8 <<< bit)

/-- The result, and what is left in `data` and `read_ecc`. -/
def yaffsEccCorrect (data : Buf) (readEcc testEcc : Ecc) : Int × Buf × Ecc :=
  let d0 := readEcc 0 ^^^ testEcc 0
  let d1 := readEcc 1 ^^^ testEcc 1
  let d2 := readEcc 2 ^^^ testEcc 2
  if d0 ||| d1 ||| d2 = 0 then (0, data, readEcc)
  else if (d0 ^^^ d0 >>> 1) &&& 0x55 = 0x55 ∧ (d1 ^^^ d1 >>> 1) &&& 0x55 = 0x55 ∧
      (d2 ^^^ d2 >>> 1) &&& 0x54 = 0x54 then
    (1, flipBit data (oddBits d1 0x80 ||| oddBits d0 0x08).toNat (eccBit d2).toNat, readEcc)
  else if yaffsCountBits d0 + yaffsCountBits d1 + yaffsCountBits d2 = 1 then (1, data, testEcc)
  else (-1, data, readEcc)

/-! ## Pairs of check bits -/

/-- Three pairs for the number of a bit, four for either half of the number of a byte. -/
abbrev EccPair := Fin 3 ⊕ Fin 4 ⊕ Fin 4

/-- One bit of pair `k` of a check byte. -/
def pairBit (d : Byte) (k : Nat) (b : Bool) : Bool := d.getLsbD (2 * k + b.toNat)

/-- The bits in which two check words differ, the two low bits of the last byte being spare. -/
def eccSyndrome (e e' : Ecc) : Syndrome EccPair (Fin 2)
  | .inl (.inl k, b) => pairBit (e 2 ^^^ e' 2) (k + 1) b
  | .inl (.inr (.inl k), b) => pairBit (e 0 ^^^ e' 0) k b
  | .inl (.inr (.inr k), b) => pairBit (e 1 ^^^ e' 1) k b
  | .inr k => (e 2 ^^^ e' 2).getLsbD k

/-- Bit `bit` of byte `byte`. -/
def eccLabel (byte bit : Nat) : EccPair → Bool
  | .inl k => bit.testBit k
  | .inr (.inl k) => byte.testBit k
  | .inr (.inr k) => byte.testBit (4 + k)

/-- The numbers that a label spells out. -/
def eccByteOf (label : EccPair → Bool) : Nat :=
  16 * (Nat.ofBits fun k : Fin 4 => label (.inr (.inr k))) +
    Nat.ofBits fun k : Fin 4 => label (.inr (.inl k))

def eccBitOf (label : EccPair → Bool) : Nat := Nat.ofBits fun k : Fin 3 => label (.inl k)

section Pairs

variable {e e' e'' : Ecc} {data : Buf}

theorem pairBit_xor (d d' : Byte) (k : Nat) (b : Bool) :
    pairBit (d ^^^ d') k b = (pairBit d k b ^^ pairBit d' k b) :=
  BitVec.getLsbD_xor

/-- Differences add up. -/
theorem eccSyndrome_and (e e' e'' : Ecc) :
    (eccSyndrome e e').and (eccSyndrome e' e'') = eccSyndrome e e'' := by
  have add : ∀ x y z : Bool, ((x ^^ y) ^^ (y ^^ z)) = (x ^^ z) := by decide
  funext c
  obtain ⟨k | k | k, b⟩ | k := c
  all_goals simp only [Syndrome.and, eccSyndrome, pairBit_xor, BitVec.getLsbD_xor, add]

/-! ### One check byte -/

theorem eq_zero_iff_bits {w : Nat} (x : BitVec w) : x = 0 ↔ ∀ k : Fin w, x.getLsbD k = false := by
  constructor
  · rintro rfl k
    exact BitVec.getLsbD_zero
  · intro clear
    exact BitVec.eq_of_getLsbD_eq fun k inside => (clear ⟨k, inside⟩).trans BitVec.getLsbD_zero.symm

/-- Every bit of a byte is in a pair that counts, or spare. -/
theorem eq_zero_iff_pairs {n m : Nat} {pos : Fin n → Nat} {spare : Fin m → Nat}
    (all : ∀ i : Fin 8, (∃ k, ∃ b : Bool, (i : Nat) = 2 * pos k + b.toNat) ∨
      ∃ k, (i : Nat) = spare k) (d : Byte) :
    d = 0 ↔ (∀ k b, pairBit d (pos k) b = false) ∧ ∀ k, d.getLsbD (spare k) = false := by
  constructor
  · rintro rfl
    exact ⟨fun _ _ => BitVec.getLsbD_zero, fun _ => BitVec.getLsbD_zero⟩
  · rintro ⟨clear, clear'⟩
    refine (eq_zero_iff_bits d).mpr fun i => ?_
    rcases all i with ⟨k, b, same⟩ | ⟨k, same⟩
    · rw [same]
      exact clear k b
    · rw [same]
      exact clear' k

theorem byte_eq_zero_iff (d : Byte) : d = 0 ↔ ∀ (k : Fin 4) (b : Bool), pairBit d k b = false :=
  (@eq_zero_iff_pairs 4 0 (fun k => k) Fin.elim0 (by decide) d).trans (and_iff_left nofun)

theorem columnByte_eq_zero_iff (d : Byte) : d = 0 ↔
    (∀ (k : Fin 3) (b : Bool), pairBit d (k + 1) b = false) ∧
      ∀ k : Fin 2, d.getLsbD k = false :=
  @eq_zero_iff_pairs 3 2 (fun k => k + 1) (fun k => k) (by decide) d

theorem and_eq_mask_iff {w : Nat} {x mask : BitVec w} :
    x &&& mask = mask ↔ ∀ i, mask.getLsbD i = true → x.getLsbD i = true := by
  constructor
  · intro same i set
    rw [← same, BitVec.getLsbD_and] at set
    exact (Bool.and_eq_true_iff.mp set).1
  · intro sets
    refine BitVec.eq_of_getLsbD_eq fun i _ => ?_
    rw [BitVec.getLsbD_and]
    cases set : mask.getLsbD i
    · exact Bool.and_false _
    · rw [sets i set, Bool.and_self]

/-- A byte and itself shifted differ where the bits of a pair do; the mask has the low bits of
the pairs that count. -/
theorem paired_iff {n : Nat} {mask : Byte} {pos : Fin n → Nat}
    (low : ∀ i : Fin 8, mask.getLsbD i = true ↔ ∃ k, (i : Nat) = 2 * pos k)
    (inside : ∀ k, pos k < 4) (d : Byte) : (d ^^^ d >>> 1) &&& mask = mask ↔
      ∀ k, pairBit d (pos k) true ≠ pairBit d (pos k) false := by
  have differ : ∀ k, (d ^^^ d >>> 1).getLsbD (2 * pos k) = true ↔
      pairBit d (pos k) true ≠ pairBit d (pos k) false := by
    intro k
    rw [BitVec.getLsbD_xor, BitVec.getLsbD_ushiftRight, Nat.add_comm 1, pairBit, pairBit,
      Bool.toNat_true, Bool.toNat_false, Nat.add_zero, Bool.xor_comm]
    exact bne_iff_ne
  rw [and_eq_mask_iff]
  constructor
  · intro sets k
    have bound : 2 * pos k < 8 := Nat.mul_lt_mul_of_pos_left (inside k) (by decide)
    exact (differ k).mp (sets _ ((low ⟨_, bound⟩).mpr ⟨k, rfl⟩))
  · intro differs i set
    obtain ⟨k, rfl⟩ := (low ⟨i, BitVec.lt_of_getLsbD set⟩).mp set
    exact (differ k).mpr (differs k)

theorem byte_paired_iff (d : Byte) : (d ^^^ d >>> 1) &&& 0x55 = 0x55 ↔
    ∀ k : Fin 4, pairBit d k true ≠ pairBit d k false :=
  paired_iff (by decide) (by decide) d

theorem columnByte_paired_iff (d : Byte) : (d ^^^ d >>> 1) &&& 0x54 = 0x54 ↔
    ∀ k : Fin 3, pairBit d (k + 1) true ≠ pairBit d (k + 1) false :=
  @paired_iff 3 0x54 (fun k => k + 1) (by decide) (by decide) d

theorem countBitsLoop_eq_sum {w : Nat} (n : Nat) (x : BitVec w) :
    countBitsLoop n x = ∑ k ∈ Finset.range n, (x.getLsbD k).toNat := by
  induction n generalizing x with
  | zero => rfl
  | succ n ih =>
    rw [countBitsLoop, Finset.sum_range_succ', ih]
    simp only [BitVec.getLsbD_ushiftRight, Nat.add_comm 1]
    split
    · rename_i zero
      subst zero
      simp only [BitVec.ofNat_eq_ofNat, BitVec.getLsbD_zero, Bool.toNat_false,
        Finset.sum_const_zero]
    · rw [Nat.add_comm]

theorem yaffsCountBits_eq (d : Byte) : yaffsCountBits d =
    ∑ k : Fin 4, ((pairBit d k true).toNat + (pairBit d k false).toNat) := by
  rw [yaffsCountBits, countBitsLoop_eq_sum]
  simp [Finset.sum_range_succ, Fin.sum_univ_succ, pairBit]
  omega

theorem yaffsCountBits_column (d : Byte) : yaffsCountBits d =
    ∑ k : Fin 3, ((pairBit d (k + 1) true).toNat + (pairBit d (k + 1) false).toNat) +
      ∑ k : Fin 2, (d.getLsbD k).toNat := by
  rw [yaffsCountBits, countBitsLoop_eq_sum]
  simp [Finset.sum_range_succ, Fin.sum_univ_succ, pairBit]
  omega

/-- What the highest bits of pairs spell out, for each value of a byte. -/
theorem highBits_eq (d : Byte) :
    (oddBits d 0x80).toNat = 2 ^ 4 * (Nat.ofBits fun k : Fin 4 => pairBit d k true) ∧
    (oddBits d 0x08).toNat = (Nat.ofBits fun k : Fin 4 => pairBit d k true) ∧
    (eccBit d).toNat = Nat.ofBits fun k : Fin 3 => pairBit d (k + 1) true := by
  revert d
  decide +kernel

theorem oddBits_or (d d' : Byte) : (oddBits d 0x80 ||| oddBits d' 0x08).toNat =
    16 * (Nat.ofBits fun k : Fin 4 => pairBit d k true) +
      Nat.ofBits fun k : Fin 4 => pairBit d' k true := by
  rw [BitVec.toNat_or, (highBits_eq d).1, (highBits_eq d').2.1,
    ← Nat.two_pow_add_eq_or_of_lt (Nat.ofBits_lt_two_pow _)]

theorem eccBit_eq (d : Byte) :
    (eccBit d).toNat = Nat.ofBits fun k : Fin 3 => pairBit d (k + 1) true :=
  (highBits_eq d).2.2

end Pairs

/-! ## What the code decides -/

section Decisions

variable {data : Buf} {r t : Ecc}

theorem or_eq_zero_iff (a b c : Byte) : a ||| b ||| c = 0 ↔ a = 0 ∧ b = 0 ∧ c = 0 := by
  rw [BitVec.ofNat_eq_ofNat, BitVec.or_eq_zero_iff, BitVec.or_eq_zero_iff, and_assoc]

theorem forall_eccPair {p : EccPair → Prop} : (∀ i, p i) ↔ (∀ k : Fin 4, p (.inr (.inl k))) ∧
    (∀ k : Fin 4, p (.inr (.inr k))) ∧ ∀ k : Fin 3, p (.inl k) := by
  simp only [Sum.forall]
  tauto

theorem ecc_clean_iff : (r 0 ^^^ t 0) ||| (r 1 ^^^ t 1) ||| (r 2 ^^^ t 2) = 0 ↔
    ∀ c, eccSyndrome r t c = false := by
  rw [or_eq_zero_iff, byte_eq_zero_iff, byte_eq_zero_iff, columnByte_eq_zero_iff, Sum.forall,
    Prod.forall, forall_eccPair, and_assoc, and_assoc]
  rfl

theorem ecc_paired_iff :
    (((r 0 ^^^ t 0) ^^^ (r 0 ^^^ t 0) >>> 1) &&& 0x55 = 0x55 ∧
      ((r 1 ^^^ t 1) ^^^ (r 1 ^^^ t 1) >>> 1) &&& 0x55 = 0x55 ∧
      ((r 2 ^^^ t 2) ^^^ (r 2 ^^^ t 2) >>> 1) &&& 0x54 = 0x54) ↔ (eccSyndrome r t).Paired := by
  rw [byte_paired_iff, byte_paired_iff, columnByte_paired_iff, Syndrome.Paired, forall_eccPair]
  rfl

theorem ecc_weight : yaffsCountBits (r 0 ^^^ t 0) + yaffsCountBits (r 1 ^^^ t 1) +
    yaffsCountBits (r 2 ^^^ t 2) = (eccSyndrome r t).weight := by
  rw [weight_eq_sum, Fintype.sum_sum_type, Fintype.sum_sum_type, yaffsCountBits_eq,
    yaffsCountBits_eq, yaffsCountBits_column]
  simp only [eccSyndrome]
  omega

/-- The code decides by the pairs. -/
theorem yaffsEccCorrect_eq (data : Buf) (r t : Ecc) : yaffsEccCorrect data r t =
    match (eccSyndrome r t).verdict with
    | .clean => (0, data, r)
    | .position label => (1, flipBit data (eccByteOf label) (eccBitOf label), r)
    | .check => (1, data, t)
    | .uncorrectable => (-1, data, r) := by
  unfold yaffsEccCorrect Syndrome.verdict
  dsimp only
  rw [oddBits_or, eccBit_eq, if_congr ecc_clean_iff rfl
    (if_congr ecc_paired_iff rfl (if_congr (by rw [ecc_weight]) rfl rfl))]
  by_cases clean : ∀ c, eccSyndrome r t c = false
  · rw [if_pos clean, if_pos clean]
  rw [if_neg clean, if_neg clean]
  by_cases paired : (eccSyndrome r t).Paired
  · rw [if_pos paired, if_pos paired]
    rfl
  rw [if_neg paired, if_neg paired]
  by_cases one : (eccSyndrome r t).weight = 1
  · rw [if_pos one, if_pos one]
  · rw [if_neg one, if_neg one]

end Decisions

/-! ## The check bits of a block -/

/-- The line of a byte counts where the parity of the byte is odd. -/
def oddLine {w : Nat} (line : BitVec w) (b : Byte) : BitVec w :=
  if columnParityTable.getD b.toNat 0 &&& 0x01 ≠ 0 then line else 0#w

section Blocks

variable {data : Buf} {n j k : Nat}

/-- The table is linear: the entries of the bits of a byte add up to its own. -/
theorem columnParityTable_eq (b : Byte) : columnParityTable.getD b.toNat 0 =
    xorSum 8 fun k => if b.getLsbD k then columnParityTable.getD (2 ^ k) 0 else 0 := by
  revert b
  decide +kernel

theorem getLsbD_flip (b : Byte) (bit : Fin 8) :
    (b ^^^ 1#8 <<< (bit : Nat)).getLsbD =
      Function.update b.getLsbD bit !b.getLsbD bit := by
  funext k
  rw [BitVec.getLsbD_xor, ← BitVec.twoPow_eq, BitVec.getLsbD_twoPow, decide_eq_true bit.isLt]
  rcases eq_or_ne k bit with rfl | other
  · rw [Function.update_self, decide_eq_true rfl, Bool.true_and, Bool.xor_true]
  · rw [Function.update_of_ne other, decide_eq_false other.symm, Bool.and_false, Bool.xor_false]

/-- A flipped bit changes the columns by the entry of the table for that bit alone. -/
theorem columnParity_flip (b : Byte) (bit : Fin 8) :
    columnParityTable.getD (b ^^^ 1#8 <<< (bit : Nat)).toNat 0 =
      columnParityTable.getD b.toNat 0 ^^^ columnParityTable.getD (2 ^ (bit : Nat)) 0 := by
  rw [columnParityTable_eq, columnParityTable_eq b, getLsbD_flip,
    xorSum_update (fun k set => if set = true then columnParityTable.getD (2 ^ k) 0 else 0)
      b.getLsbD _ bit.isLt]
  congr 1
  cases b.getLsbD bit
  · exact BitVec.zero_xor
  · exact BitVec.xor_zero

theorem and_mask_ne_zero (x : Byte) (i : Fin 8) :
    x &&& 1#8 <<< (i : Nat) ≠ 0 ↔ x.getLsbD i = true := by
  have nonzero : ∀ i : Fin 8, BitVec.twoPow 8 i ≠ 0 := by decide
  rw [← BitVec.twoPow_eq, BitVec.and_twoPow]
  cases x.getLsbD i
  · exact iff_of_false (fun set => set rfl) Bool.false_ne_true
  · exact iff_of_true (nonzero i) rfl

/-- It turns the parity of its byte over. -/
theorem oddLine_flip {w : Nat} (line : BitVec w) (b : Byte) (bit : Fin 8) :
    oddLine line b ^^^ oddLine line (b ^^^ 1#8 <<< (bit : Nat)) = line := by
  have lowest : ∀ x : Byte, x &&& 0x01 ≠ 0 ↔ x.getLsbD 0 = true := fun x => and_mask_ne_zero x 0
  have odd : ∀ bit : Fin 8, (columnParityTable.getD (2 ^ (bit : Nat)) 0).getLsbD 0 = true := by
    decide
  simp only [oddLine, columnParity_flip, lowest, BitVec.getLsbD_xor, odd, Bool.xor_true]
  cases (columnParityTable.getD b.toNat 0).getLsbD 0
  · exact BitVec.zero_xor
  · exact BitVec.xor_zero

theorem foldl_yaffsEccStep (data : Buf) (n : Nat) :
    (List.range n).foldl (yaffsEccStep data) ⟨0, 0, 0⟩ =
      ⟨xorSum n fun i => columnParityTable.getD (data i).toNat 0,
        xorSum n fun i => oddLine (BitVec.ofNat 8 i) (data i),
        xorSum n fun i => oddLine (~~~BitVec.ofNat 8 i) (data i)⟩ := by
  induction n with
  | zero => rfl
  | succ n ih =>
    rw [List.range_succ, List.foldl_append, ih]
    simp only [List.foldl_cons, List.foldl_nil, yaffsEccStep, xorSum_succ, oddLine]
    split
    · rfl
    · simp only [BitVec.xor_zero]

/-- The bits of a line and of its complement stand next to each other. -/
theorem pairBit_eccByte (line prime : Byte) (n : Fin 5) (k : Fin 4) (b : Bool) :
    pairBit (eccByte line prime (1#8 <<< ((n : Nat) + 3))) k b =
      if b then line.getLsbD (n + k) else prime.getLsbD (n + k) := by
  have bits : ∀ (l₀ l₁ l₂ l₃ p₀ p₁ p₂ p₃ : Bool) (k : Fin 4) (b : Bool),
      pairBit ((if l₃ = true then 0x80 else 0) ||| (if p₃ = true then 0x40 else 0) |||
        (if l₂ = true then 0x20 else 0) ||| (if p₂ = true then 0x10 else 0) |||
        (if l₁ = true then 0x08 else 0) ||| (if p₁ = true then 0x04 else 0) |||
        (if l₀ = true then 0x02 else 0) ||| (if p₀ = true then 0x01 else 0)) k b =
      if b then ![l₀, l₁, l₂, l₃] k else ![p₀, p₁, p₂, p₃] k := by decide +kernel
  have lower : ∀ (n : Fin 5) (j : Fin 4), 1#8 <<< ((n : Nat) + 3) >>> (3 - (j : Nat)) =
      1#8 <<< ((n : Nat) + j) := by decide
  have test : ∀ (x : Byte) (j : Fin 4), x &&& 1#8 <<< ((n : Nat) + 3) >>> (3 - (j : Nat)) ≠ 0 ↔
      x.getLsbD (n + j) = true := by
    intro x j
    rw [lower]
    exact and_mask_ne_zero x ⟨n + j, by omega⟩
  have at₃ : ∀ x : Byte, x &&& 1#8 <<< ((n : Nat) + 3) ≠ 0 ↔ x.getLsbD (n + 3) = true :=
    fun x => test x 3
  have at₂ : ∀ x : Byte, x &&& 1#8 <<< ((n : Nat) + 3) >>> 1 ≠ 0 ↔ x.getLsbD (n + 2) = true :=
    fun x => test x 2
  have at₁ : ∀ x : Byte, x &&& 1#8 <<< ((n : Nat) + 3) >>> 2 ≠ 0 ↔ x.getLsbD (n + 1) = true :=
    fun x => test x 1
  have at₀ : ∀ x : Byte, x &&& 1#8 <<< ((n : Nat) + 3) >>> 3 ≠ 0 ↔ x.getLsbD (n + 0) = true :=
    fun x => test x 0
  have spread : ∀ (x : Byte) (k : Fin 4), ![x.getLsbD (n + 0), x.getLsbD (n + 1),
      x.getLsbD (n + 2), x.getLsbD (n + 3)] k = x.getLsbD (n + k) := by
    intro x k
    match k with
    | 0 | 1 | 2 | 3 => rfl
  unfold eccByte
  simp only [at₃, at₂, at₁, at₀]
  rw [bits, spread, spread]

/-- The two bits that carry no parity are always set. -/
theorem spare_equal (d d' : Byte) (k : Fin 2) :
    ((d ||| 0x03) ^^^ (d' ||| 0x03)).getLsbD k = false := by
  have set : ∀ k : Fin 2, (0x03 : Byte).getLsbD k = true := by decide
  rw [BitVec.getLsbD_xor, BitVec.getLsbD_or, BitVec.getLsbD_or, set, Bool.or_true, Bool.or_true]
  rfl

theorem pairBit_not_xor (d d' : Byte) (k : Fin 4) (b : Bool) :
    pairBit (~~~d ^^^ ~~~d') k b = (pairBit d k b ^^ pairBit d' k b) := by
  have inside : 2 * (k : Nat) + b.toNat < 8 := by
    have := k.isLt
    have := b.toNat_le
    omega
  rw [pairBit_xor, pairBit, pairBit, BitVec.getLsbD_not, BitVec.getLsbD_not,
    decide_eq_true inside, Bool.true_and, Bool.true_and, Bool.not_xor_not]
  rfl

section Sums

variable {w n : Nat} (data : Buf) (byte : Fin n) (bit : Fin 8)

theorem line_flipBit (line : Nat → BitVec w) :
    xorSum n (fun i => oddLine (line i) (flipBit data byte bit i)) =
      xorSum n (fun i => oddLine (line i) (data i)) ^^^ line byte := by
  rw [flipBit, xorSum_update (fun i b => oddLine (line i) b) data _ byte.isLt, oddLine_flip]

theorem column_flipBit :
    xorSum n (fun i => columnParityTable.getD (flipBit data byte bit i).toNat 0) =
      xorSum n (fun i => columnParityTable.getD (data i).toNat 0) ^^^
        columnParityTable.getD (2 ^ (bit : Nat)) 0 := by
  rw [flipBit, xorSum_update (fun _ b => columnParityTable.getD b.toNat 0) data _ byte.isLt,
    columnParity_flip, ← BitVec.xor_assoc (columnParityTable.getD (data byte).toNat 0),
    BitVec.xor_self, BitVec.zero_xor]

end Sums

section Flip

variable (data : Buf) (byte : Fin 256) (bit : Fin 8)

/-- Both halves of the number of a byte, each bit with its complement. -/
theorem pairBit_line (n : Fin 5) (k : Fin 4) (b : Bool) (line prime : Byte) :
    pairBit (~~~eccByte line prime (1#8 <<< ((n : Nat) + 3)) ^^^
      ~~~eccByte (line ^^^ BitVec.ofNat 8 byte) (prime ^^^ ~~~BitVec.ofNat 8 byte)
        (1#8 <<< ((n : Nat) + 3))) k b = ((byte : Nat).testBit (n + k) == b) := by
  have inside : (n : Nat) + k < 8 := by omega
  rw [pairBit_not_xor, pairBit_eccByte, pairBit_eccByte]
  simp only [BitVec.getLsbD_xor, BitVec.getLsbD_not, BitVec.getLsbD_ofNat, decide_eq_true inside,
    Bool.true_and]
  cases b <;> cases line.getLsbD (n + k) <;> cases prime.getLsbD (n + k) <;>
    cases (byte : Nat).testBit (n + k) <;> rfl

theorem pairBit_column (k : Fin 3) (b : Bool) (column : Byte) :
    pairBit ((~~~column ||| 0x03) ^^^
      (~~~(column ^^^ columnParityTable.getD (2 ^ (bit : Nat)) 0) ||| 0x03)) (k + 1) b =
        ((bit : Nat).testBit k == b) := by
  have entries : ∀ (bit : Fin 8) (k : Fin 3) (b : Bool),
      pairBit (columnParityTable.getD (2 ^ (bit : Nat)) 0) (k + 1) b =
        ((bit : Nat).testBit k == b) := by decide
  have above : ∀ (k : Fin 3) (b : Bool), pairBit 0x03 (k + 1) b = false ∧
      2 * ((k : Nat) + 1) + b.toNat < 8 := by decide
  obtain ⟨clear, inside⟩ := above k b
  rw [← entries bit k b]
  simp only [pairBit] at clear ⊢
  rw [BitVec.getLsbD_xor, BitVec.getLsbD_or, BitVec.getLsbD_or, clear, BitVec.getLsbD_not,
    BitVec.getLsbD_not, decide_eq_true inside, BitVec.getLsbD_xor]
  cases column.getLsbD (2 * ((k : Nat) + 1) + b.toNat) <;> simp

/-- A flipped bit of the data is seen as a fault at its position. -/
theorem eccSyndrome_flipBit :
    eccSyndrome (yaffsEccCalculate data) (yaffsEccCalculate (flipBit data byte bit)) =
      (BitFault.position (eccLabel byte bit)).syndrome := by
  funext c
  obtain ⟨k | k | k, b⟩ | k := c
  all_goals
    simp only [eccSyndrome, yaffsEccCalculate, foldl_yaffsEccStep, line_flipBit, column_flipBit]
  · exact pairBit_column bit k b _
  · refine (pairBit_line byte 0 k b _ _).trans ?_
    simp only [Fin.val_zero, Nat.zero_add]
    rfl
  · exact pairBit_line byte 4 k b _ _
  · exact spare_equal _ _ k

end Flip

end Blocks

/-! ## Faults of a block with its check bytes -/

/-- A flipped bit, of the data or of a check byte. -/
inductive EccFault where
  | data (byte : Fin 256) (bit : Fin 8)
  | check (byte : Fin 3) (bit : Fin 8)
  deriving DecidableEq

def EccFault.hit : EccFault → Buf × Ecc → Buf × Ecc
  | .data byte bit, block => (flipBit block.1 byte bit, block.2)
  | .check byte bit, block =>
    (block.1, Function.update block.2 byte (block.2 byte ^^^ 1#8 <<< (bit : Nat)))

def EccFault.inData : EccFault → Bool
  | .data _ _ => true
  | .check _ _ => false

/-- One of the two bits that carry no parity. -/
def EccFault.spare : EccFault → Bool
  | .data _ _ => false
  | .check byte bit => byte = 2 && (bit : Nat) < 2

/-- The check bytes are calculated again for what is read. -/
def yaffsEccRead (block : Buf × Ecc) : Int × Buf × Ecc :=
  yaffsEccCorrect block.1 block.2 (yaffsEccCalculate block.1)

/-- The place of a bit of a check byte in its pair. -/
def eccCheckBit (byte : Fin 3) (bit : Fin 8) : EccPair × Bool ⊕ Fin 2 :=
  let pair : Fin 4 := ⟨bit / 2, by omega⟩
  match byte with
  | 0 => .inl (.inr (.inl pair), bit.val.testBit 0)
  | 1 => .inl (.inr (.inr pair), bit.val.testBit 0)
  | 2 =>
    if low : (bit : Nat) < 2 then .inr ⟨bit, low⟩
    else .inl (.inl ⟨bit / 2 - 1, by omega⟩, bit.val.testBit 0)

/-- What the check bits show of a fault. -/
def EccFault.seen : EccFault → BitFault EccPair (Fin 2)
  | .data byte bit => .position (eccLabel byte bit)
  | .check byte bit => .check (eccCheckBit byte bit)

section Faults

variable {data : Buf} {f g : EccFault}

theorem eccSyndrome_self (e : Ecc) : eccSyndrome e e = Syndrome.none := by
  funext c
  obtain ⟨k | k | k, b⟩ | k := c
  all_goals
    simp only [eccSyndrome, BitVec.xor_self]
    exact BitVec.getLsbD_zero

/-- A flipped check bit differs from what it was at its own place only. -/
theorem update_xor (ecc : Ecc) (byte : Fin 3) (bit : Byte) (i : Fin 3) :
    Function.update ecc byte (ecc byte ^^^ bit) i ^^^ ecc i =
      Function.update (fun _ => (0 : Byte)) byte bit i ^^^ 0 := by
  rcases eq_or_ne i byte with rfl | other
  · rw [Function.update_self, Function.update_self, BitVec.xor_comm (ecc i), BitVec.xor_assoc,
      BitVec.xor_self]
    rfl
  · rw [Function.update_of_ne other, Function.update_of_ne other, BitVec.xor_self]
    rfl

theorem eccSyndrome_update (ecc : Ecc) (byte : Fin 3) (bit : Fin 8) :
    eccSyndrome (Function.update ecc byte (ecc byte ^^^ 1#8 <<< (bit : Nat))) ecc =
      (BitFault.check (eccCheckBit byte bit)).syndrome := by
  have bits : ∀ (byte : Fin 3) (bit : Fin 8), eccSyndrome (Function.update (fun _ => 0) byte
      (1#8 <<< (bit : Nat))) (fun _ => 0) = (BitFault.check (eccCheckBit byte bit)).syndrome := by
    decide +kernel
  rw [← bits byte bit]
  funext c
  obtain ⟨k | k | k, b⟩ | k := c
  all_goals simp only [eccSyndrome, update_xor]

/-- Each fault adds what it changes, whatever has happened before. -/
theorem eccSyndrome_hit (f : EccFault) (block : Buf × Ecc) :
    eccSyndrome (f.hit block).2 (yaffsEccCalculate (f.hit block).1) =
      (eccSyndrome block.2 (yaffsEccCalculate block.1)).and f.seen.syndrome := by
  cases f with
  | data byte bit =>
    rw [EccFault.hit, ← eccSyndrome_and _ (yaffsEccCalculate block.1), eccSyndrome_flipBit]
    rfl
  | check byte bit =>
    rw [EccFault.hit, ← eccSyndrome_and _ block.2, eccSyndrome_update, Syndrome.and_comm]
    rfl

theorem flipBit_flipBit (data : Buf) (byte bit : Nat) :
    flipBit (flipBit data byte bit) byte bit = data := by
  rw [flipBit, flipBit, Function.update_self, Function.update_idem, BitVec.xor_assoc,
    BitVec.xor_self, BitVec.xor_zero, Function.update_eq_self]

theorem eccByteOf_label (byte : Fin 256) (bit : Nat) : eccByteOf (eccLabel byte bit) = byte := by
  have spelt : ∀ byte : Fin 256, eccByteOf (eccLabel byte 0) = byte := by decide +kernel
  exact spelt byte

theorem eccBitOf_label (byte : Nat) (bit : Fin 8) : eccBitOf (eccLabel byte bit) = bit := by
  have spelt : ∀ bit : Fin 8, eccBitOf (eccLabel 0 bit) = bit := by decide
  exact spelt bit

/-- Different faults are seen as different. -/
theorem eccSeen_injective : Function.Injective EccFault.seen := by
  have places : ∀ (byte byte' : Fin 3) (bit bit' : Fin 8),
      eccCheckBit byte bit = eccCheckBit byte' bit' → byte = byte' ∧ bit = bit' := by
    decide +kernel
  intro f g same
  cases f with
  | data byte bit =>
    cases g with
    | data byte' bit' =>
      have labels := BitFault.position.inj same
      have bytes := congrArg eccByteOf labels
      have bits := congrArg eccBitOf labels
      rw [eccByteOf_label, eccByteOf_label] at bytes
      rw [eccBitOf_label, eccBitOf_label] at bits
      rw [Fin.ext bytes, Fin.ext bits]
    | check byte' bit' => cases same
  | check byte bit =>
    cases g with
    | data byte' bit' => cases same
    | check byte' bit' =>
      obtain ⟨rfl, rfl⟩ := places byte byte' bit bit' (BitFault.check.inj same)
      rfl

/-- The code of 256 bytes. -/
def eccCode : Coded Buf Ecc EccFault EccPair (Fin 2) where
  calculate := yaffsEccCalculate
  flip label data := some (flipBit data (eccByteOf label) (eccBitOf label))
  syndrome block := eccSyndrome block.2 (yaffsEccCalculate block.1)
  hit := EccFault.hit
  seen := EccFault.seen
  syndrome_calculate _ := eccSyndrome_self _
  syndrome_hit := eccSyndrome_hit
  seen_injective := eccSeen_injective
  hit_position f block label seen := by
    cases f with
    | data byte bit =>
      cases seen
      rw [eccByteOf_label, eccBitOf_label]
      exact ⟨rfl, congrArg some (flipBit_flipBit block.1 byte bit), rfl⟩
    | check byte bit => cases seen
  hit_check f block c seen := by
    cases f with
    | data byte bit => cases seen
    | check byte bit => rfl

theorem yaffsEccRead_eq (block : Buf × Ecc) : yaffsEccRead block = eccCode.read block := by
  rw [yaffsEccRead, yaffsEccCorrect_eq, Coded.read]
  dsimp only [eccCode]
  cases (eccSyndrome block.2 (yaffsEccCalculate block.1)).verdict <;> rfl

theorem seen_isPosition (f : EccFault) : f.seen.isPosition = f.inData := by
  cases f <;> rfl

theorem seen_isSpare (f : EccFault) : f.seen.isSpare = f.spare := by
  cases f with
  | data byte bit => rfl
  | check byte bit =>
    revert byte bit
    decide +kernel

/-- One fault, wherever it is, is put right. -/
theorem yaffsEccRead_hit (data : Buf) (f : EccFault) :
    yaffsEccRead (f.hit (data, yaffsEccCalculate data)) = (1, data, yaffsEccCalculate data) := by
  rw [yaffsEccRead_eq]
  exact eccCode.read_hit (by decide) f data

/-- Two faults are reported and nothing is changed, unless one is of the data and the
other carries no parity: then the data are put right. -/
theorem yaffsEccRead_hit_hit (data : Buf) {f g : EccFault} (apart : f ≠ g) :
    yaffsEccRead (g.hit (f.hit (data, yaffsEccCalculate data))) =
      if f.inData && g.spare || f.spare && g.inData then
        (1, data, (g.hit (f.hit (data, yaffsEccCalculate data))).2)
      else (-1, g.hit (f.hit (data, yaffsEccCalculate data))) := by
  rw [yaffsEccRead_eq, ← seen_isPosition, ← seen_isPosition, ← seen_isSpare, ← seen_isSpare]
  exact eccCode.read_hit_hit (by decide) apart data

/-- Two bits of a cleared block. -/
theorem yaffsEccRead_hit_hit_cleared :
    let stored := (fill 0, yaffsEccCalculate (fill 0))
    yaffsEccRead ((EccFault.data 3 5).hit ((EccFault.data 200 1).hit stored)) =
      (-1, (EccFault.data 3 5).hit ((EccFault.data 200 1).hit stored)) :=
  yaffsEccRead_hit_hit (fill 0) (by decide)

end Faults

end VirtualNoah
