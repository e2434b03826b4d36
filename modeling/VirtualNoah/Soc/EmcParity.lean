import VirtualNoah.Soc.Emc

/-!
# The lanes of the parity registers

NFPAR0 to NFPAR2 are twelve bytes, of which only the first nine are implemented.
The accesses of all widths are compared with one memory of these bytes.
-/

namespace VirtualNoah

open ByteStore Lanes StepRun

/-! ## Twelve bytes -/

/-- Byte `p` of the parity registers. -/
def Jz4740Emc.parByte (s : Jz4740Emc) (p : Nat) : Byte :=
  if inside : p / 4 < 3 then lane (s.nfpar ⟨p / 4, inside⟩) (p % 4) else 0

/-- The implemented bits of byte `p`. -/
def nfparImplemented (p : Nat) : Byte := if p < 9 then 0xff else 0

/-- The word a read of `n` bytes returns. -/
def laneWord (mem : Buf) (o n : Nat) : BitVec 32 :=
  let byte := fun j => if j < n then mem (o + j) else 0
  ofLanes (byte 0) (byte 1) (byte 2) (byte 3)

/-- A write of `n` bytes replaces its lanes. -/
def replaceLanes (mem : Buf) (o n : Nat) (value : BitVec 32) : Buf :=
  blit mem o (fun j => lane value j &&& nfparImplemented (o + j)) n

/-- An aligned access to the parity registers, at offset `o` from NFPAR0. -/
structure ParPlace (width : EmcWidth) (o : Nat) : Prop where
  aligned : o % width.bytes = 0
  inside : o + width.bytes ≤ 12

instance (width : EmcWidth) (o : Nat) : Decidable (ParPlace width o) :=
  decidable_of_iff (o % width.bytes = 0 ∧ o + width.bytes ≤ 12)
    ⟨fun both => ⟨both.1, both.2⟩, fun place => ⟨place.aligned, place.inside⟩⟩

/-- The controller, and the bytes that have last been written. -/
structure ParWatch where
  emc : Jz4740Emc
  mem : Buf

/-- The bytes last written behind one more access. -/
def EmcOp.lanes (op : EmcOp) (mem : Buf) : Buf :=
  match op with
  | .read _ _ => mem
  | .write width addr value =>
    if 0x108 ≤ addr ∧ ParPlace width (addr - 0x108) then
      replaceLanes mem (addr - 0x108) width.bytes value
    else mem

def parStep (x : ParWatch) (op : EmcOp) : Except Fault (ParWatch × Option (BitVec 32)) :=
  (emcStep x.emc op).map fun (t, out) => (⟨t, op.lanes x.mem⟩, out)

def watchPar (s : Jz4740Emc) : ParWatch := ⟨s, s.parByte⟩

/-- Every read of the parity registers returns the bytes last written. -/
def ParCoherent (x : ParWatch) : Prop :=
  ∀ width o, ParPlace width o → emcRead x.emc width (0x108 + o) = .ok (laneWord x.mem o width.bytes)

/-- A narrow write has all the bits that are set in its lanes, and no bit that is
not implemented. -/
def LanesCovered (s : Jz4740Emc) (op : EmcOp) : Prop :=
  ∀ width o value, op = .write width (0x108 + o) value → width ≠ .word → ParPlace width o →
    ∀ j < width.bytes, s.parByte (o + j) &&& ~~~lane value j = 0#8 ∧
      lane value j &&& ~~~nfparImplemented (o + j) = 0#8

/-- A write of NFECCR, which may reset the parity registers. -/
def EmcOp.WritesEccr (op : EmcOp) : Prop := ∃ value, op = .write .word 0x100 value

section Parity

variable {s t : Jz4740Emc} {mem : Buf} {width : EmcWidth} {o p j n : Nat} {value : BitVec 32}

theorem lane_laneWord (inside : j < 4) :
    lane (laneWord mem o n) j = if j < n then mem (o + j) else 0 := by
  obtain ⟨l₀, l₁, l₂, l₃⟩ := lane_ofLanes (if 0 < n then mem (o + 0) else 0)
    (if 1 < n then mem (o + 1) else 0) (if 2 < n then mem (o + 2) else 0)
    (if 3 < n then mem (o + 3) else 0)
  rw [laneWord]
  interval_cases j
  · exact l₀
  · exact l₁
  · exact l₂
  · exact l₃

theorem laneWord_congr {mem' : Buf} : laneWord mem o n = laneWord mem' o n ↔
    ∀ j < n, j < 4 → mem (o + j) = mem' (o + j) := by
  constructor
  · intro same j part inside
    have byte := congrArg (lane · j) same
    simpa only [lane_laneWord inside, if_pos part] using byte
  · intro same
    apply eq_of_lanes
    intro j inside
    rw [lane_laneWord inside, lane_laneWord inside]
    split
    · next part => exact same j part inside
    · rfl

/-! ## What the accesses do to the lanes -/

theorem emcBank_add (base : Nat) {n o : Nat} (inside : o / 4 < n) :
    emcBank base n (base + o) = some (⟨o / 4, inside⟩, o % 4) := by
  have within : base ≤ base + o ∧ base + o < base + 4 * n := by omega
  simp only [emcBank, dif_pos within, Nat.add_sub_cancel_left]

theorem nfparBank_add (inside : o / 4 < 3) :
    nfparBank (0x108 + o) = some (⟨o / 4, inside⟩, o % 4) := emcBank_add 0x108 inside

theorem of_nfparBank {addr : Nat} {place : Fin 3 × Nat} (bank : nfparBank addr = some place) :
    0x108 ≤ addr ∧ addr < 0x114 := by
  unfold nfparBank emcBank at bank
  split at bank
  · next inside => exact inside
  · cases bank

/-- The bytes of one register. -/
theorem parByte_add (s : Jz4740Emc) (inside : o / 4 < 3) (part : o % 4 + j < 4) :
    s.parByte (o + j) = lane (s.nfpar ⟨o / 4, inside⟩) (o % 4 + j) := by
  have register : (o + j) / 4 = o / 4 := by omega
  have byte : (o + j) % 4 = o % 4 + j := by omega
  simp only [Jz4740Emc.parByte, register, inside, dite_true, byte]

theorem parByte_setPar (s : Jz4740Emc) (k : Fin 3) (value : BitVec 32) (inside : p < 12) :
    (s.setPar k value).parByte p = if p / 4 = k then lane value (p % 4) else s.parByte p := by
  have register : p / 4 < 3 := by omega
  simp only [Jz4740Emc.parByte, register, dite_true, Jz4740Emc.setPar]
  split
  · next own =>
    have same : (⟨p / 4, register⟩ : Fin 3) = k := Fin.ext own
    rw [same, Function.update_self]
  · next apart => rw [Function.update_of_ne fun same => apart (congrArg Fin.val same)]

/-- The mask of a narrow access. -/
structure NarrowMask (mask : BitVec 32) (n : Nat) : Prop where
  lanes : ∀ j < 4, lane mask j = if j < n then 0xff else 0

theorem narrowMask_byte : NarrowMask 0xff 1 := ⟨by decide⟩

theorem narrowMask_half : NarrowMask 0xffff 2 := ⟨by decide⟩

theorem and_ones (x : Byte) : x &&& 0xff = x := BitVec.and_allOnes

theorem shiftRight_eq_laneWord {mask : BitVec 32} (narrow : NarrowMask mask n) (s : Jz4740Emc)
    (register : o / 4 < 3) (part : o % 4 + n ≤ 4) :
    s.nfpar ⟨o / 4, register⟩ >>> (o % 4 * 8) &&& mask = laneWord s.parByte o n := by
  apply eq_of_lanes
  intro j inside
  rw [lane_and, lane_shiftRight, narrow.lanes j inside, lane_laneWord inside]
  split
  · next own => rw [and_ones, parByte_add s register (by omega)]
  · exact BitVec.and_zero

/-- Every aligned read returns the lanes it covers. -/
theorem emcRead_par (s : Jz4740Emc) (place : ParPlace width o) :
    emcRead s width (0x108 + o) = .ok (laneWord s.parByte o width.bytes) := by
  obtain ⟨aligned, inside⟩ := place
  cases width with
  | byte =>
    simp only [EmcWidth.bytes] at aligned inside ⊢
    have register : o / 4 < 3 := by omega
    simp only [emcRead, jz4740EmcRead8, nfparBank_add register]
    exact congrArg Except.ok (shiftRight_eq_laneWord narrowMask_byte s register (by omega))
  | half =>
    simp only [EmcWidth.bytes] at aligned inside ⊢
    have register : o / 4 < 3 := by omega
    have even : (0x108 + o) % 2 = 0 := by omega
    simp only [emcRead, jz4740EmcRead16, if_pos even, nfparBank_add register]
    exact congrArg Except.ok (shiftRight_eq_laneWord narrowMask_half s register (by omega))
  | word =>
    simp only [EmcWidth.bytes] at aligned inside ⊢
    have first : o = 0 ∨ o = 4 ∨ o = 8 := by omega
    rcases first with rfl | rfl | rfl
    all_goals exact congrArg Except.ok (ofLanes_lane _).symm

/-- A narrow write is or-ed into the lanes it covers. -/
def OrsLanes (s t : Jz4740Emc) (o n : Nat) (value : BitVec 32) : Prop :=
  ∀ p < 12, t.parByte p =
    if o ≤ p ∧ p < o + n then s.parByte p ||| lane value (p - o) else s.parByte p

theorem setPar_orsLanes {mask : BitVec 32} (narrow : NarrowMask mask n) (s : Jz4740Emc)
    (value : BitVec 32) (register : o / 4 < 3) (part : o % 4 + n ≤ 4) :
    OrsLanes s (s.setPar ⟨o / 4, register⟩
      (s.nfpar ⟨o / 4, register⟩ ||| (value &&& mask) <<< (o % 4 * 8))) o n value := by
  intro p inside
  rw [parByte_setPar s _ _ inside]
  split
  · next own =>
    have same : p / 4 = o / 4 := own
    have byte : s.parByte p = lane (s.nfpar ⟨o / 4, register⟩) (p % 4) := by
      simp only [Jz4740Emc.parByte, own, register, dite_true]
    rw [lane_or, lane_shiftLeft _ _ (Nat.mod_lt p (by omega)), lane_and, ← byte]
    split
    · next before => rw [if_neg (by omega), BitVec.ofNat_eq_ofNat, BitVec.or_zero]
    · next past =>
      have place : p % 4 - o % 4 = p - o := by omega
      rw [place, narrow.lanes (p - o) (by omega)]
      split
      · next within => rw [and_ones, if_pos (by omega)]
      · next beyond =>
        rw [if_neg (by omega), BitVec.ofNat_eq_ofNat, BitVec.and_zero, BitVec.or_zero]
  · next apart =>
    have differs : p / 4 ≠ o / 4 := apart
    rw [if_neg (by omega)]

theorem emcWrite_narrow (s : Jz4740Emc) (value : BitVec 32) (narrow : width ≠ .word)
    (place : ParPlace width o) :
    ∃ t, emcWrite s width (0x108 + o) value = .ok t ∧ OrsLanes s t o width.bytes value := by
  obtain ⟨aligned, inside⟩ := place
  cases width with
  | byte =>
    simp only [EmcWidth.bytes] at aligned inside ⊢
    have register : o / 4 < 3 := by omega
    simp only [emcWrite, jz4740EmcWrite8, nfparBank_add register]
    exact ⟨_, rfl, setPar_orsLanes narrowMask_byte s value register (by omega)⟩
  | half =>
    simp only [EmcWidth.bytes] at aligned inside ⊢
    have register : o / 4 < 3 := by omega
    have even : (0x108 + o) % 2 = 0 := by omega
    simp only [emcWrite, jz4740EmcWrite16, if_pos even, nfparBank_add register]
    exact ⟨_, rfl, setPar_orsLanes narrowMask_half s value register (by omega)⟩
  | word => exact absurd rfl narrow

/-- A write of a whole register replaces its lanes. -/
theorem emcWrite_word (s : Jz4740Emc) (value : BitVec 32) (place : ParPlace .word o) :
    ∃ t, emcWrite s .word (0x108 + o) value = .ok t ∧
      ∀ p < 12, t.parByte p = replaceLanes s.parByte o 4 value p := by
  obtain ⟨aligned, inside⟩ := place
  have replaces : ∀ (k : Fin 3) (v : BitVec 32),
      (∀ j < 4, lane v j = lane value j &&& nfparImplemented (4 * k + j)) →
      ∀ p < 12, (s.setPar k v).parByte p = replaceLanes s.parByte (4 * k) 4 value p := by
    intro k v lanes p bound
    rw [parByte_setPar s _ _ bound, replaceLanes]
    split
    · next own =>
      rw [blit_inside (by omega) (by omega), lanes _ (Nat.mod_lt p (by omega))]
      have byte : p % 4 = p - 4 * k := by omega
      rw [byte]
    · next apart => rw [blit_outside (by omega)]
  have full : ∀ (k : Fin 3), (k : Nat) < 2 → ∀ j < 4,
      lane value j = lane value j &&& nfparImplemented (4 * k + j) := by
    intro k first j part
    rw [nfparImplemented, if_pos (by omega), and_ones]
  simp only [EmcWidth.bytes] at aligned inside
  have register : o = 0 ∨ o = 4 ∨ o = 8 := by omega
  rcases register with rfl | rfl | rfl
  · exact ⟨_, rfl, replaces 0 value (full 0 (by decide))⟩
  · exact ⟨_, rfl, replaces 1 value (full 1 (by decide))⟩
  · refine ⟨_, rfl, replaces 2 (value &&& 0xff#32) fun j part => ?_⟩
    have mask : ∀ j < 4, lane 0xff#32 j = nfparImplemented (4 * (2 : Fin 3) + j) := by decide
    rw [lane_and, mask j part]

/-- Every other access leaves the parity registers alone, unless it writes NFECCR. -/
theorem emcWrite_other {addr : Nat} (done : emcWrite s width addr value = .ok t)
    (other : ¬ (0x108 ≤ addr ∧ ParPlace width (addr - 0x108)))
    (keeps : ¬ (EmcOp.write width addr value).WritesEccr) : t.nfpar = s.nfpar := by
  cases width with
  | byte =>
    simp only [emcWrite, jz4740EmcWrite8] at done
    split at done
    · next bank =>
      have inside := of_nfparBank bank
      exact absurd ⟨inside.1, ⟨Nat.mod_one _, by simp only [EmcWidth.bytes]; omega⟩⟩ other
    · split at done
      · cases done
        rfl
      · cases done
  | half =>
    simp only [emcWrite, jz4740EmcWrite16] at done
    split at done
    · next even =>
      split at done
      · next bank =>
        have inside := of_nfparBank bank
        have place : ParPlace .half (addr - 0x108) :=
          ⟨by simp only [EmcWidth.bytes]; omega, by simp only [EmcWidth.bytes]; omega⟩
        exact absurd ⟨inside.1, place⟩ other
      · split at done
        case h_6 => cases done
        all_goals
          cases done
          rfl
    · cases done
  | word =>
    simp only [emcWrite, jz4740EmcWrite32] at done
    split at done
    case h_16 => exact absurd ⟨value, rfl⟩ keeps
    case h_17 | h_18 | h_19 => exact absurd ⟨by decide, by decide⟩ other
    case h_24 => cases done
    all_goals
      cases done
      rfl

/-! ## Runs -/

variable {x y : ParWatch} {op : EmcOp} {out : Option (BitVec 32)}

/-- The reads of all widths agree with the memory when its bytes do. -/
theorem parCoherent_iff : ParCoherent x ↔ ∀ p < 12, x.emc.parByte p = x.mem p := by
  constructor
  · intro coherent p inside
    have read := coherent .byte p ⟨Nat.mod_one p, inside⟩
    rw [emcRead_par _ ⟨Nat.mod_one p, inside⟩] at read
    exact laneWord_congr.mp (Except.ok.inj read) 0 (by decide) (by decide)
  · intro same width o place
    rw [emcRead_par _ place]
    refine congrArg Except.ok (laneWord_congr.mpr fun j part _ => same (o + j) ?_)
    have inside := place.inside
    omega

/-- Or-ing a byte in is replacing it when it has all the bits that are set, and only
implemented ones. -/
theorem or_eq_and_iff {old new mask : Byte} :
    old ||| new = new &&& mask ↔ old &&& ~~~new = 0#8 ∧ new &&& ~~~mask = 0#8 := by
  have bits : ∀ a b c : Bool, (a || b) = (b && c) ↔ (a && !b) = false ∧ (b && !c) = false := by
    decide
  constructor
  · intro same
    have bit : ∀ i < 8, (old.getLsbD i && !new.getLsbD i) = false ∧
        (new.getLsbD i && !mask.getLsbD i) = false := by
      intro i _
      have both := congrArg (BitVec.getLsbD · i) same
      rwa [BitVec.getLsbD_or, BitVec.getLsbD_and, bits] at both
    constructor <;> apply BitVec.eq_of_getLsbD_eq <;> intro i inside
    · rw [BitVec.getLsbD_and, BitVec.getLsbD_not, decide_eq_true inside, Bool.true_and,
        (bit i inside).1, BitVec.getLsbD_zero]
    · rw [BitVec.getLsbD_and, BitVec.getLsbD_not, decide_eq_true inside, Bool.true_and,
        (bit i inside).2, BitVec.getLsbD_zero]
  · rintro ⟨covered, implemented⟩
    apply BitVec.eq_of_getLsbD_eq
    intro i inside
    have first := congrArg (BitVec.getLsbD · i) covered
    have second := congrArg (BitVec.getLsbD · i) implemented
    simp only [BitVec.getLsbD_and, BitVec.getLsbD_not, decide_eq_true inside, Bool.true_and,
      BitVec.getLsbD_zero] at first second
    rw [BitVec.getLsbD_or, BitVec.getLsbD_and, bits]
    exact ⟨first, second⟩

/-- The memory behind a write to the parity registers. -/
theorem lanes_write (mem : Buf) (value : BitVec 32) (place : ParPlace width o) :
    (EmcOp.write width (0x108 + o) value).lanes mem = replaceLanes mem o width.bytes value := by
  have written : 0x108 ≤ 0x108 + o ∧ ParPlace width (0x108 + o - 0x108) := by
    rw [Nat.add_sub_cancel_left]
    exact ⟨Nat.le_add_right _ _, place⟩
  rw [EmcOp.lanes, if_pos written, Nat.add_sub_cancel_left]

theorem replaceLanes_congr {mem' : Buf} (same : ∀ p < 12, mem p = mem' p) :
    ∀ p < 12, replaceLanes mem o n value p = replaceLanes mem' o n value p := by
  intro p inside
  unfold replaceLanes
  by_cases part : o ≤ p ∧ p < o + n
  · rw [blit_inside part.1 part.2, blit_inside part.1 part.2]
  · rw [blit_outside (by omega), blit_outside (by omega), same p inside]

theorem parCoherent_keep (coherent : ParCoherent x) (keeps : ¬ op.WritesEccr)
    (covered : LanesCovered x.emc op) (done : parStep x op = .ok (y, out)) : ParCoherent y := by
  rw [parCoherent_iff] at coherent ⊢
  obtain ⟨⟨t, out'⟩, stepped, same⟩ := of_map_eq_ok done
  cases same
  cases op with
  | read width addr =>
    obtain ⟨v, -, same⟩ := of_map_eq_ok stepped
    cases same
    exact coherent
  | write width addr value =>
    obtain ⟨u, written, same⟩ := of_map_eq_ok stepped
    cases same
    by_cases par : 0x108 ≤ addr ∧ ParPlace width (addr - 0x108)
    · obtain ⟨o, rfl⟩ := Nat.exists_eq_add_of_le par.1
      have place : ParPlace width o := by
        have place := par.2
        rwa [Nat.add_sub_cancel_left] at place
      intro p inside
      rw [lanes_write _ _ place]
      by_cases narrow : width = .word
      · subst narrow
        obtain ⟨t, written', lanes⟩ := emcWrite_word x.emc value place
        cases written'.symm.trans written
        exact (lanes p inside).trans (replaceLanes_congr coherent p inside)
      · obtain ⟨t, written', lanes⟩ := emcWrite_narrow x.emc value narrow place
        cases written'.symm.trans written
        dsimp only
        rw [lanes p inside, replaceLanes]
        split
        · next part =>
          obtain ⟨j, rfl⟩ := Nat.exists_eq_add_of_le part.1
          rw [blit_inside part.1 part.2, Nat.add_sub_cancel_left]
          exact or_eq_and_iff.mpr (covered width o value rfl narrow place j (by omega))
        · next outside => rw [blit_outside (by omega), coherent p inside]
    · intro p inside
      have registers := emcWrite_other written par keeps
      simp only [EmcOp.lanes, if_neg par, Jz4740Emc.parByte, registers]
      exact coherent p inside

theorem parCoherent_leave (_ : ParCoherent x) (uncovered : ¬ LanesCovered x.emc op) :
    ∃ y out, parStep x op = .ok (y, out) ∧ ¬ ParCoherent y := by
  simp only [LanesCovered, not_forall] at uncovered
  obtain ⟨width, o, value, rfl, narrow, place, j, part, broken⟩ := uncovered
  obtain ⟨t, written, lanes⟩ := emcWrite_narrow x.emc value narrow place
  have step : parStep x (.write width (0x108 + o) value) =
      .ok (⟨t, (EmcOp.write width (0x108 + o) value).lanes x.mem⟩, none) := by
    rw [parStep, emcStep, written]
    rfl
  refine ⟨_, none, step, fun after => broken (or_eq_and_iff.mp ?_)⟩
  have inside : o + j < 12 := by
    have whole := place.inside
    omega
  have byte := parCoherent_iff.mp after (o + j) inside
  dsimp only at byte
  rw [lanes _ inside, lanes_write _ _ place, replaceLanes,
    if_pos ⟨Nat.le_add_right o j, by omega⟩, blit_inside (by omega) (by omega),
    Nat.add_sub_cancel_left] at byte
  exact byte

end Parity

/-- From any state, all reads of the parity registers return the bytes last written
exactly when the narrow writes cover the bits they find. -/
theorem par_coherent_iff (s : Jz4740Emc) (ops : List EmcOp)
    (keeps : ∀ op ∈ ops, ¬ op.WritesEccr) :
    Always parStep ParCoherent (watchPar s) ops ↔
      Along parStep (fun x op => LanesCovered x.emc op) (watchPar s) ops :=
  always_iff_along_of_mem ParCoherent (fun op => ¬ op.WritesEccr) parCoherent_keep
    parCoherent_leave (parCoherent_iff.mpr fun _ _ => rfl) keeps

/-- The same byte is written twice. -/
def writeParityTwice : List EmcOp := [.write .byte 0x108 0x55, .write .byte 0x108 0xaa]

/-- Both values are in it. -/
theorem parity_byte_merged :
    ¬ Always parStep ParCoherent (watchPar jz4740EmcReset) writeParityTwice := by
  intro always
  have reached : ∃ x outs, run parStep (watchPar jz4740EmcReset) writeParityTwice =
      .ok (x, outs) ∧ x.emc.parByte 0 = 0xff ∧ x.mem 0 = 0xaa := ⟨_, _, rfl, rfl, rfl⟩
  obtain ⟨x, outs, completed, merged, last⟩ := reached
  have byte := parCoherent_iff.mp (always.last completed) 0 (by decide)
  rw [merged, last] at byte
  exact absurd byte (by decide)

/-- Each byte is written once. -/
theorem par_coherent_once : Always parStep ParCoherent (watchPar jz4740EmcReset)
      [.write .byte 0x108 0x55, .write .half 0x10a 0x1234] ↔
    Along parStep (fun x op => LanesCovered x.emc op) (watchPar jz4740EmcReset)
      [.write .byte 0x108 0x55, .write .half 0x10a 0x1234] := by
  refine par_coherent_iff jz4740EmcReset _ fun op mem => ?_
  rintro ⟨value, rfl⟩
  simp at mem

end VirtualNoah
