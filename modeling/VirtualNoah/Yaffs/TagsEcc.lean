import VirtualNoah.Yaffs.Ecc

/-!
# The ECC of tags

The ECC of `yaffs_ECCCalculateOther` is for any number of bytes: a whole word for either line
parity, so that the number of a byte is spelt out by 32 pairs.  The tags of a chunk are stored
with it, and one fault in what is stored does not change the tags that are unpacked.
-/

namespace VirtualNoah

open ByteStore ParityCode

/-! ## Pairs of check bits -/

/-- Three pairs for the number of a bit, 32 for that of a byte. -/
abbrev OtherPair := Fin 3 ⊕ Fin 32

/-- The bits in which two check words differ, the two high bits of the column parity being
spare. -/
def otherSyndrome (e e' : EccOther) : Syndrome OtherPair (Fin 2)
  | .inl (.inl k, b) => pairBit (e.colParity ^^^ e'.colParity) k b
  | .inl (.inr k, true) => (e.lineParity ^^^ e'.lineParity).getLsbD k
  | .inl (.inr k, false) => (e.lineParityPrime ^^^ e'.lineParityPrime).getLsbD k
  | .inr k => (e.colParity ^^^ e'.colParity).getLsbD (6 + k)

/-- Bit `bit` of byte `byte`. -/
def otherLabel (byte bit : Nat) : OtherPair → Bool
  | .inl k => bit.testBit k
  | .inr k => byte.testBit k

/-- The numbers that a label spells out. -/
def otherByteOf (label : OtherPair → Bool) : Nat := Nat.ofBits fun k : Fin 32 => label (.inr k)

def otherBitOf (label : OtherPair → Bool) : Nat := Nat.ofBits fun k : Fin 3 => label (.inl k)

section Pairs

variable {r t : EccOther}

/-- Differences add up. -/
theorem otherSyndrome_and (e e' e'' : EccOther) :
    (otherSyndrome e e').and (otherSyndrome e' e'') = otherSyndrome e e'' := by
  have add : ∀ x y z : Bool, ((x ^^ y) ^^ (y ^^ z)) = (x ^^ z) := by decide
  funext c
  obtain ⟨k | k, _ | _⟩ | k := c
  all_goals simp only [Syndrome.and, otherSyndrome, pairBit_xor, BitVec.getLsbD_xor, add]

theorem otherColumn_eq_zero_iff (d : Byte) : d = 0 ↔
    (∀ (k : Fin 3) (b : Bool), pairBit d k b = false) ∧ ∀ k : Fin 2, d.getLsbD (6 + k) = false :=
  @eq_zero_iff_pairs 3 2 (fun k => k) (fun k => 6 + k) (by decide) d

theorem otherColumn_paired_iff (d : Byte) : (d ^^^ d >>> 1) &&& 0x15 = 0x15 ↔
    ∀ k : Fin 3, pairBit d k true ≠ pairBit d k false :=
  @paired_iff 3 0x15 (fun k => k) (by decide) (by decide) d

theorem otherColumn_count (d : Byte) : yaffsCountBits d =
    ∑ k : Fin 3, ((pairBit d k true).toNat + (pairBit d k false).toNat) +
      ∑ k : Fin 2, (d.getLsbD (6 + k)).toNat := by
  rw [yaffsCountBits, countBitsLoop_eq_sum]
  simp [Finset.sum_range_succ, Fin.sum_univ_succ, pairBit]
  omega

theorem word_eq_not_iff (x y : BitVec 32) :
    x = ~~~y ↔ ∀ k : Fin 32, x.getLsbD k ≠ y.getLsbD k := by
  constructor
  · rintro rfl k
    rw [BitVec.getLsbD_not, decide_eq_true k.isLt, Bool.true_and]
    exact Bool.not_ne_self _
  · intro differ
    refine BitVec.eq_of_getLsbD_eq fun k inside => ?_
    rw [BitVec.getLsbD_not, decide_eq_true inside, Bool.true_and]
    exact Bool.eq_not_of_ne (differ ⟨k, inside⟩)

theorem other_clean_iff :
    (r.colParity ^^^ t.colParity).setWidth 32 ||| (r.lineParity ^^^ t.lineParity) |||
        (r.lineParityPrime ^^^ t.lineParityPrime) = 0 ↔
      ∀ c, otherSyndrome r t c = false := by
  have widen : ∀ d : Byte, d.setWidth 32 = 0#32 ↔ d = 0 := by
    intro d
    bv_omega
  rw [BitVec.ofNat_eq_ofNat, BitVec.or_eq_zero_iff, BitVec.or_eq_zero_iff, widen,
    otherColumn_eq_zero_iff, Sum.forall, Prod.forall, Sum.forall]
  constructor
  · rintro ⟨⟨⟨columns, spare⟩, line⟩, prime⟩
    refine ⟨⟨columns, fun k b => ?_⟩, spare⟩
    cases b
    · exact (eq_zero_iff_bits _).mp prime k
    · exact (eq_zero_iff_bits _).mp line k
  · rintro ⟨⟨columns, lines⟩, spare⟩
    exact ⟨⟨⟨columns, spare⟩, (eq_zero_iff_bits _).mpr fun k => lines k true⟩,
      (eq_zero_iff_bits _).mpr fun k => lines k false⟩

theorem other_paired_iff :
    (r.lineParity ^^^ t.lineParity = ~~~(r.lineParityPrime ^^^ t.lineParityPrime) ∧
        ((r.colParity ^^^ t.colParity) ^^^ (r.colParity ^^^ t.colParity) >>> 1) &&& 0x15 = 0x15) ↔
      (otherSyndrome r t).Paired := by
  rw [word_eq_not_iff, otherColumn_paired_iff, Syndrome.Paired, Sum.forall, and_comm]
  rfl

theorem other_weight :
    yaffsCountBits32 (r.lineParity ^^^ t.lineParity) +
        yaffsCountBits32 (r.lineParityPrime ^^^ t.lineParityPrime) +
        yaffsCountBits (r.colParity ^^^ t.colParity) =
      (otherSyndrome r t).weight := by
  rw [weight_eq_sum, Fintype.sum_sum_type, otherColumn_count, yaffsCountBits32, yaffsCountBits32,
    countBitsLoop_eq_sum, countBitsLoop_eq_sum, Finset.sum_range, Finset.sum_range]
  simp only [otherSyndrome, Finset.sum_add_distrib]
  omega

end Pairs

/-! ## What the code decides -/

/-- The number of a bit, from the highest bits of the column pairs. -/
def otherBit (c : Byte) : Nat :=
  (if c &&& 0x20 ≠ 0 then 0x04 else 0) ||| (if c &&& 0x08 ≠ 0 then 0x02 else 0) |||
    (if c &&& 0x02 ≠ 0 then 0x01 else 0)

theorem otherBit_eq (c : Byte) :
    otherBit c = Nat.ofBits fun k : Fin 3 => pairBit c k true := by
  revert c
  decide +kernel

theorem toNat_eq_ofBits (x : BitVec 32) : x.toNat = Nat.ofBits fun k : Fin 32 => x.getLsbD k :=
  ((Nat.ofBits_testBit x.toNat 32).trans (Nat.mod_eq_of_lt x.isLt)).symm

/-- The code decides by the pairs, and by the number of bytes. -/
theorem yaffsEccCorrectOther_eq (data : Buf) (n : Nat) (r t : EccOther) :
    yaffsEccCorrectOther data n r t =
      match (otherSyndrome r t).verdict with
      | .clean => (0, data, r)
      | .position label =>
        if n ≤ otherByteOf label then (-1, data, r)
        else (1, flipBit data (otherByteOf label) (otherBitOf label), r)
      | .check => (1, data, t)
      | .uncorrectable => (-1, data, r) := by
  unfold yaffsEccCorrectOther Syndrome.verdict
  dsimp only
  rw [if_congr other_clean_iff rfl
    (if_congr other_paired_iff rfl (if_congr (by rw [other_weight]) rfl rfl))]
  by_cases clean : ∀ c, otherSyndrome r t c = false
  · rw [if_pos clean, if_pos clean]
  rw [if_neg clean, if_neg clean]
  by_cases paired : (otherSyndrome r t).Paired
  · have byte := toNat_eq_ofBits (r.lineParity ^^^ t.lineParity)
    have bit := otherBit_eq (r.colParity ^^^ t.colParity)
    rw [otherBit] at bit
    rw [if_pos paired, if_pos paired, byte, bit]
    rfl
  rw [if_neg paired, if_neg paired]
  by_cases one : (otherSyndrome r t).weight = 1
  · rw [if_pos one, if_pos one]
  · rw [if_neg one, if_neg one]

/-! ## The check bits of `n` bytes -/

theorem foldl_eccStep (data : Buf) (n : Nat) :
    (List.range n).foldl (eccStep data) ⟨0, 0, 0⟩ =
      ⟨xorSum n fun i => columnParityTable.getD (data i).toNat 0,
        xorSum n fun i => oddLine (BitVec.ofNat 32 i) (data i),
        xorSum n fun i => oddLine (~~~BitVec.ofNat 32 i) (data i)⟩ := by
  induction n with
  | zero => rfl
  | succ n ih =>
    rw [List.range_succ, List.foldl_append, ih]
    simp only [List.foldl_cons, List.foldl_nil, eccStep, xorSum_succ, oddLine]
    split
    · rfl
    · simp only [BitVec.xor_zero]

section Flip

variable {n : Nat} (data : Buf) (byte : Fin n) (bit : Fin 8)

theorem otherColumn_flip (column : Byte) :
    ((column >>> 2) &&& (0x3f : Byte)) ^^^
        (((column ^^^ columnParityTable.getD (2 ^ (bit : Nat)) 0) >>> 2) &&& (0x3f : Byte)) =
      (columnParityTable.getD (2 ^ (bit : Nat)) 0 >>> 2) &&& (0x3f : Byte) := by
  have cancel : ∀ x y m : Byte, (x &&& m) ^^^ ((x ^^^ y) &&& m) = y &&& m := by
    intro x y m
    ext i below
    simp only [BitVec.getElem_xor, BitVec.getElem_and]
    cases x[i] <;> cases y[i] <;> cases m[i] <;> rfl
  rw [BitVec.ushiftRight_xor_distrib, cancel]

/-- A flipped bit of the data is seen as a fault at its position. -/
theorem otherSyndrome_flipBit :
    otherSyndrome (yaffsEccCalculateOther data n)
        (yaffsEccCalculateOther (flipBit data byte bit) n) =
      (BitFault.position (otherLabel byte bit)).syndrome := by
  have entries : ∀ (bit : Fin 8) (k : Fin 3) (b : Bool),
      pairBit ((columnParityTable.getD (2 ^ (bit : Nat)) 0 >>> 2) &&& (0x3f : Byte)) k b =
        ((bit : Nat).testBit k == b) := by decide
  have spare : ∀ (bit : Fin 8) (k : Fin 2), ((columnParityTable.getD (2 ^ (bit : Nat)) 0 >>> 2) &&&
      0x3f).getLsbD (6 + k) = false := by decide
  funext c
  obtain ⟨k | k, b⟩ | k := c
  all_goals
    simp only [otherSyndrome, yaffsEccCalculateOther, foldl_eccStep, line_flipBit, column_flipBit]
  · rw [otherColumn_flip, entries]
    rfl
  · have inside : decide ((k : Nat) < 32) = true := decide_eq_true k.isLt
    cases b
    all_goals
      simp only [← BitVec.xor_assoc, BitVec.xor_self, BitVec.zero_xor,
        BitVec.getLsbD_not, BitVec.getLsbD_ofNat, inside, Bool.true_and]
      simp only [BitFault.syndrome, Sum.elim_inl, otherLabel]
      cases (byte : Nat).testBit k <;> rfl
  · rw [otherColumn_flip, spare]
    rfl

end Flip

/-! ## Faults of `n` bytes with their ECC -/

/-- A flipped bit, of the bytes or of a field of the ECC. -/
inductive OtherFault (n : Nat) where
  | data (byte : Fin n) (bit : Fin 8)
  | colParity (bit : Fin 8)
  | lineParity (bit : Fin 32)
  | lineParityPrime (bit : Fin 32)
  deriving DecidableEq

section Faults

variable {n : Nat}

def OtherFault.hit : OtherFault n → Buf × EccOther → Buf × EccOther
  | .data byte bit, block => (flipBit block.1 byte bit, block.2)
  | .colParity bit, block =>
    (block.1, { block.2 with colParity := block.2.colParity ^^^ 1#8 <<< (bit : Nat) })
  | .lineParity bit, block =>
    (block.1, { block.2 with lineParity := block.2.lineParity ^^^ 1#32 <<< (bit : Nat) })
  | .lineParityPrime bit, block =>
    (block.1, { block.2 with lineParityPrime := block.2.lineParityPrime ^^^ 1#32 <<< (bit : Nat) })

def OtherFault.inData : OtherFault n → Bool
  | .data _ _ => true
  | _ => false

/-- One of the two bits that carry no parity. -/
def OtherFault.spare : OtherFault n → Bool
  | .colParity bit => 6 ≤ bit.val
  | _ => false

/-- The ECC is calculated again for what is read. -/
def yaffsEccReadOther (n : Nat) (block : Buf × EccOther) : Int × Buf × EccOther :=
  yaffsEccCorrectOther block.1 n block.2 (yaffsEccCalculateOther block.1 n)

/-- The place of a bit of the column parity in its pair. -/
def otherColumnBit (bit : Fin 8) : OtherPair × Bool ⊕ Fin 2 :=
  if high : 6 ≤ (bit : Nat) then .inr ⟨bit - 6, by omega⟩
  else .inl (.inl ⟨bit / 2, by omega⟩, bit.val.testBit 0)

/-- What the check bits show of a fault. -/
def OtherFault.seen : OtherFault n → BitFault OtherPair (Fin 2)
  | .data byte bit => .position (otherLabel byte bit)
  | .colParity bit => .check (otherColumnBit bit)
  | .lineParity bit => .check (.inl (.inr bit, true))
  | .lineParityPrime bit => .check (.inl (.inr bit, false))

theorem otherSyndrome_self (e : EccOther) : otherSyndrome e e = Syndrome.none := by
  funext c
  obtain ⟨k | k, _ | _⟩ | k := c
  all_goals
    simp only [otherSyndrome, BitVec.xor_self]
    exact BitVec.getLsbD_zero

theorem xor_flip_self {w : Nat} (x m : BitVec w) : x ^^^ m ^^^ x = m := by
  rw [BitVec.xor_comm x, BitVec.xor_assoc, BitVec.xor_self, BitVec.xor_zero]

theorem getLsbD_one_shiftLeft (bit k : Fin 32) :
    (1#32 <<< (bit : Nat)).getLsbD k = decide (k = bit) := by
  rw [← BitVec.twoPow_eq, BitVec.getLsbD_twoPow, decide_eq_true bit.isLt, Bool.true_and]
  exact decide_eq_decide.mpr (by rw [Fin.ext_iff, eq_comm])

/-- A flipped check bit is seen at its own place. -/
theorem otherSyndrome_check (f : OtherFault n) (outside : f.inData = false)
    (block : Buf × EccOther) : otherSyndrome (f.hit block).2 block.2 = f.seen.syndrome := by
  funext c
  cases f with
  | data byte bit => cases outside
  | colParity bit =>
    have bits : ∀ bit : Fin 8, otherSyndrome ⟨1#8 <<< (bit : Nat), 0, 0⟩ ⟨0, 0, 0⟩ =
        (OtherFault.colParity bit : OtherFault 0).seen.syndrome := by
      decide +kernel
    refine Eq.trans ?_ (congrFun (bits bit) c)
    obtain ⟨k | k, _ | _⟩ | k := c
    all_goals simp only [otherSyndrome, OtherFault.hit, xor_flip_self, BitVec.xor_self,
      BitVec.ofNat_eq_ofNat, BitVec.xor_zero]
  | lineParity bit =>
    obtain ⟨k | k, _ | _⟩ | k := c
    all_goals
      simp only [otherSyndrome, OtherFault.hit, OtherFault.seen, BitFault.syndrome, xor_flip_self,
        BitVec.xor_self, pairBit, BitVec.getLsbD_zero, getLsbD_one_shiftLeft]
      simp
  | lineParityPrime bit =>
    obtain ⟨k | k, _ | _⟩ | k := c
    all_goals
      simp only [otherSyndrome, OtherFault.hit, OtherFault.seen, BitFault.syndrome, xor_flip_self,
        BitVec.xor_self, pairBit, BitVec.getLsbD_zero, getLsbD_one_shiftLeft]
      simp

/-- Each fault adds what it changes, whatever has happened before. -/
theorem otherSyndrome_hit (f : OtherFault n) (block : Buf × EccOther) :
    otherSyndrome (f.hit block).2 (yaffsEccCalculateOther (f.hit block).1 n) =
      (otherSyndrome block.2 (yaffsEccCalculateOther block.1 n)).and f.seen.syndrome := by
  cases inData : f.inData
  · have same : (f.hit block).1 = block.1 := by
      cases f with
      | data byte bit => cases inData
      | _ => rfl
    rw [same, ← otherSyndrome_and _ block.2, otherSyndrome_check f inData, Syndrome.and_comm]
  · cases f with
    | data byte bit =>
      rw [OtherFault.hit, ← otherSyndrome_and _ (yaffsEccCalculateOther block.1 n),
        otherSyndrome_flipBit]
      rfl
    | _ => cases inData

theorem otherByteOf_label {byte : Nat} (addressed : byte < 2 ^ 32) (bit : Nat) :
    otherByteOf (otherLabel byte bit) = byte :=
  (Nat.ofBits_testBit byte 32).trans (Nat.mod_eq_of_lt addressed)

theorem otherBitOf_label (byte : Nat) (bit : Fin 8) : otherBitOf (otherLabel byte bit) = bit :=
  (Nat.ofBits_testBit bit 3).trans (Nat.mod_eq_of_lt bit.isLt)

/-- Different faults are seen as different. -/
theorem otherSeen_injective (addressed : n ≤ 2 ^ 32) :
    Function.Injective (OtherFault.seen : OtherFault n → _) := by
  have columns : ∀ bit bit' : Fin 8, otherColumnBit bit = otherColumnBit bit' → bit = bit' := by
    decide
  have apart : ∀ (bit : Fin 8) (k : Fin 32) (b : Bool), otherColumnBit bit ≠ .inl (.inr k, b) := by
    decide
  intro f g same
  cases f with
  | data byte bit =>
    cases g with
    | data byte' bit' =>
      have labels := BitFault.position.inj same
      have bytes := congrArg otherByteOf labels
      have bits := congrArg otherBitOf labels
      rw [otherByteOf_label (by omega), otherByteOf_label (by omega)] at bytes
      rw [otherBitOf_label, otherBitOf_label] at bits
      rw [Fin.ext bytes, Fin.ext bits]
    | _ => cases same
  | colParity bit =>
    cases g with
    | data byte' bit' => cases same
    | colParity bit' => rw [columns bit bit' (BitFault.check.inj same)]
    | lineParity bit' => exact absurd (BitFault.check.inj same) (apart bit bit' true)
    | lineParityPrime bit' => exact absurd (BitFault.check.inj same) (apart bit bit' false)
  | lineParity bit =>
    cases g with
    | colParity bit' => exact absurd (BitFault.check.inj same).symm (apart bit' bit true)
    | _ => cases same <;> rfl
  | lineParityPrime bit =>
    cases g with
    | colParity bit' => exact absurd (BitFault.check.inj same).symm (apart bit' bit false)
    | _ => cases same <;> rfl

/-- The code of `n` bytes. -/
def otherCode (n : Nat) (addressed : n ≤ 2 ^ 32) :
    Coded Buf EccOther (OtherFault n) OtherPair (Fin 2) where
  calculate data := yaffsEccCalculateOther data n
  flip label data :=
    if n ≤ otherByteOf label then none
    else some (flipBit data (otherByteOf label) (otherBitOf label))
  syndrome block := otherSyndrome block.2 (yaffsEccCalculateOther block.1 n)
  hit := OtherFault.hit
  seen := OtherFault.seen
  syndrome_calculate _ := otherSyndrome_self _
  syndrome_hit := otherSyndrome_hit
  seen_injective := otherSeen_injective addressed
  hit_position f block label seen := by
    cases f with
    | data byte bit =>
      cases seen
      have inside : ¬ n ≤ (byte : Nat) := Nat.not_le.mpr byte.isLt
      rw [otherByteOf_label (by omega), otherBitOf_label, if_neg inside, if_neg inside]
      exact ⟨rfl, congrArg some (flipBit_flipBit block.1 byte bit), rfl⟩
    | _ => cases seen
  hit_check f block c seen := by
    cases f with
    | data byte bit => cases seen
    | _ => rfl

theorem yaffsEccReadOther_eq (addressed : n ≤ 2 ^ 32) (block : Buf × EccOther) :
    yaffsEccReadOther n block = (otherCode n addressed).read block := by
  rw [yaffsEccReadOther, yaffsEccCorrectOther_eq, Coded.read]
  dsimp only [otherCode]
  cases (otherSyndrome block.2 (yaffsEccCalculateOther block.1 n)).verdict with
  | position label => dsimp only; split <;> rfl
  | _ => rfl

theorem otherSeen_isPosition (f : OtherFault n) : f.seen.isPosition = f.inData := by
  cases f <;> rfl

theorem otherSeen_isSpare (f : OtherFault n) : f.seen.isSpare = f.spare := by
  cases f with
  | colParity bit =>
    have columns : ∀ bit : Fin 8, (BitFault.check (otherColumnBit bit)).isSpare =
        decide (6 ≤ bit.val) := by decide
    exact columns bit
  | _ => rfl

/-- One fault, wherever it is, is put right. -/
theorem yaffsEccReadOther_hit (addressed : n ≤ 2 ^ 32) (data : Buf) (f : OtherFault n) :
    yaffsEccReadOther n (f.hit (data, yaffsEccCalculateOther data n)) =
      (1, data, yaffsEccCalculateOther data n) := by
  rw [yaffsEccReadOther_eq addressed]
  exact (otherCode n addressed).read_hit (by decide) f data

/-- Two faults are reported and nothing is changed, unless one is of the bytes and the
other carries no parity: then the bytes are put right. -/
theorem yaffsEccReadOther_hit_hit (addressed : n ≤ 2 ^ 32) (data : Buf) {f g : OtherFault n}
    (apart : f ≠ g) :
    yaffsEccReadOther n (g.hit (f.hit (data, yaffsEccCalculateOther data n))) =
      if f.inData && g.spare || f.spare && g.inData then
        (1, data, (g.hit (f.hit (data, yaffsEccCalculateOther data n))).2)
      else (-1, g.hit (f.hit (data, yaffsEccCalculateOther data n))) := by
  rw [yaffsEccReadOther_eq addressed, ← otherSeen_isPosition, ← otherSeen_isPosition,
    ← otherSeen_isSpare, ← otherSeen_isSpare]
  exact (otherCode n addressed).read_hit_hit (by decide) apart data

end Faults

/-! ## Tags -/

/-- A fault of what is stored for a chunk. -/
def PackedTags2.hit (f : OtherFault 16) (pt : PackedTags2) : PackedTags2 :=
  let block := f.hit (pt.t.image, pt.ecc)
  ⟨TagsPart.ofImage block.1, block.2⟩

section Tags

variable {t : ExtendedTags} {part : TagsPart} {f g : OtherFault 16}

theorem image_beyond (part : TagsPart) {i : Nat} (beyond : 16 ≤ i) : part.image i = 0 := by
  simp (disch := omega) only [TagsPart.image, store32_outside, fill]

/-- The fields hold all of the image. -/
theorem image_ofImage {buf : Buf} (beyond : ∀ i, 16 ≤ i → buf i = 0) :
    (TagsPart.ofImage buf).image = buf := by
  funext i
  rcases Nat.lt_or_ge i 16 with inside | outside
  · simp only [TagsPart.image, TagsPart.ofImage]
    rcases (by omega : i < 4 ∨ 4 ≤ i ∧ i < 8 ∨ 8 ≤ i ∧ i < 12 ∨ 12 ≤ i) with h | h | h | h
    all_goals
      repeat rw [store32_outside (by omega)]
      exact store32_load32_inside (by omega) (by omega)
  · rw [image_beyond _ outside, beyond i outside]

theorem unpackTagsPart_eccResult (part : TagsPart) (result result' : EccResult) :
    unpackTagsPart part result = { unpackTagsPart part result' with eccResult := result } := by
  unfold unpackTagsPart
  dsimp only
  split
  · split <;> rfl
  · rfl

theorem hit_beyond (f : OtherFault 16) {block : Buf × EccOther} (beyond : ∀ i, 16 ≤ i →
    block.1 i = 0) : ∀ i, 16 ≤ i → (f.hit block).1 i = 0 := by
  intro i outside
  cases f with
  | data byte bit =>
    have other : i ≠ byte := by omega
    exact (Function.update_of_ne other _ _).trans (beyond i outside)
  | _ => exact beyond i outside

/-- The image and the ECC of a chunk are a block of the code. -/
def PackedTags2.block (pt : PackedTags2) : Buf × EccOther := (pt.t.image, pt.ecc)

theorem block_hit (f : OtherFault 16) (pt : PackedTags2) : (pt.hit f).block = f.hit pt.block := by
  rw [PackedTags2.block, PackedTags2.hit, image_ofImage (hit_beyond f fun _ => image_beyond pt.t)]
  rfl

theorem block_yaffsPackTags2 (t : ExtendedTags) : (yaffsPackTags2 t).block =
    ((packTagsPart t).image, yaffsEccCalculateOther (packTagsPart t).image 16) :=
  rfl

/-- What is unpacked depends on what the ECC makes of the image that is read. -/
theorem yaffsUnpackTags2_eq (pt : PackedTags2) (used : pt.t.sequenceNumber ≠ 0xffffffff) :
    yaffsUnpackTags2 pt =
      let found := yaffsEccReadOther 16 pt.block
      unpackTagsPart (TagsPart.ofImage found.2.1) (eccResultOf found.1) := by
  rw [yaffsUnpackTags2, if_pos used]
  rfl

theorem packTagsPart_sequenceNumber (t : ExtendedTags) :
    (packTagsPart t).sequenceNumber = t.sequenceNumber := by
  rw [packTagsPart]
  split <;> rfl

/-- A fault in what is stored for a chunk leaves its tags as they were, with a note of the
correction, unless what is read of the sequence number is that of an unused chunk. -/
theorem yaffsUnpackTags2_hit (t : ExtendedTags) (f : OtherFault 16)
    (used : t.sequenceNumber ≠ 0xffffffff) :
    yaffsUnpackTags2 ((yaffsPackTags2 t).hit f) =
      if ((yaffsPackTags2 t).hit f).t.sequenceNumber = 0xffffffff then yaffsInitialiseTags
      else { yaffsUnpackTags2 (yaffsPackTags2 t) with eccResult := .fixed } := by
  have packed : (packTagsPart t).sequenceNumber ≠ 0xffffffff := by
    rw [packTagsPart_sequenceNumber]
    exact used
  split
  · rename_i unused
    rw [yaffsUnpackTags2, if_neg (not_not.mpr unused)]
  · rename_i used'
    rw [yaffsUnpackTags2_eq _ used', block_hit, block_yaffsPackTags2,
      yaffsEccReadOther_hit (by decide), yaffsPackTags2, yaffsUnpackTags2_of_ecc packed,
      ← unpackTagsPart_eccResult]
    simp only [TagsPart.ofImage_image]
    rfl

/-- Chunk 1 of an object, with the lowest bit of its number flipped. -/
theorem yaffsUnpackTags2_hit_objectId :
    let t := { yaffsInitialiseTags with
      sequenceNumber := 0x1000, objectId := 0x101, chunkId := 1, byteCount := 0x800 }
    yaffsUnpackTags2 ((yaffsPackTags2 t).hit (.data 4 0)) =
      { yaffsUnpackTags2 (yaffsPackTags2 t) with eccResult := .fixed } :=
  (yaffsUnpackTags2_hit _ (.data 4 0) (by decide)).trans (if_neg (by decide))

/-- Of two faults the tags tell, as they are read, unless one of them carries no parity and
the other is corrected. -/
theorem yaffsUnpackTags2_hit_hit (t : ExtendedTags) {f g : OtherFault 16} (apart : f ≠ g)
    (used : t.sequenceNumber ≠ 0xffffffff) :
    yaffsUnpackTags2 (((yaffsPackTags2 t).hit f).hit g) =
      if (((yaffsPackTags2 t).hit f).hit g).t.sequenceNumber = 0xffffffff then yaffsInitialiseTags
      else if f.inData && g.spare || f.spare && g.inData then
        { yaffsUnpackTags2 (yaffsPackTags2 t) with eccResult := .fixed }
      else unpackTagsPart (((yaffsPackTags2 t).hit f).hit g).t .unfixed := by
  have packed : (packTagsPart t).sequenceNumber ≠ 0xffffffff := by
    rw [packTagsPart_sequenceNumber]
    exact used
  split
  · rename_i unused
    rw [yaffsUnpackTags2, if_neg (not_not.mpr unused)]
  · rename_i used'
    rw [yaffsUnpackTags2_eq _ used', block_hit, block_hit, block_yaffsPackTags2,
      yaffsEccReadOther_hit_hit (by decide) _ apart]
    split
    · rw [yaffsPackTags2, yaffsUnpackTags2_of_ecc packed, ← unpackTagsPart_eccResult]
      simp only [TagsPart.ofImage_image]
      rfl
    · rw [← block_yaffsPackTags2, ← block_hit, ← block_hit]
      simp only [PackedTags2.block, TagsPart.ofImage_image]
      rfl

/-- The same chunk with a bit of its line parity flipped as well. -/
theorem yaffsUnpackTags2_hit_hit_objectId :
    let t := { yaffsInitialiseTags with
      sequenceNumber := 0x1000, objectId := 0x101, chunkId := 1, byteCount := 0x800 }
    (yaffsUnpackTags2 (((yaffsPackTags2 t).hit (.data 4 0)).hit (.lineParity 7))).eccResult =
      .unfixed := by
  intro t
  rw [yaffsUnpackTags2_hit_hit t (by decide) (by decide), if_neg (by decide), if_neg (by decide),
    unpackTagsPart_eccResult _ _ .unknown]

end Tags

end VirtualNoah
