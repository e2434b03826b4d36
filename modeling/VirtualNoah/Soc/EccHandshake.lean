import VirtualNoah.Lib.Outcome
import VirtualNoah.Soc.EmcParity

/-!
# The Reed-Solomon handshake of the NAND driver

The driver switches the ECC on before each 512 bytes, waits for a flag of NFINTS
after them and takes or gives nine bytes of parity.  It works by read-modify-write
on NFECCR and leaves the reset bit set there, so every one of its writes resets
the ECC registers again; each of them also sets the flag that is waited for next.
-/

namespace VirtualNoah

open ByteStore StepRun Outcome Lanes

/-! ## The driver -/

/-- `NAND_ECC_READ`, `NAND_ECC_WRITE` and `NAND_ECC_READSYN` -/
inductive EccMode where
  | read | write | readSyn

/-- `REG_EMC_NFECR |= v` and `REG_EMC_NFECR &= v` -/
def nfecrModify (f : BitVec 32 → BitVec 32) (s : Jz4740Emc) : Except Fault Jz4740Emc := do
  let v ← jz4740EmcRead32 s 0x100
  jz4740EmcWrite32 s 0x100 (f v)

def nandEccEnable (s : Jz4740Emc) : Except Fault Jz4740Emc :=
  jz4740EmcWrite32 s 0x100 (0x1#32 ||| 0x2#32)

def nandEccDisable : Jz4740Emc → Except Fault Jz4740Emc := nfecrModify (· &&& ~~~0x1#32)

/-- `__nand_ecc_encode_sync` and `__nand_ecc_decode_sync`, which wait for a flag of
NFINTS. -/
def nandEccSync (flag : BitVec 32) (s : Jz4740Emc) : Nat → Except Fault Unit
  | 0 => .error .spin
  | fuel + 1 => do
    let ints ← jz4740EmcRead32 s 0x114
    if ints &&& flag ≠ 0#32 then .ok () else nandEccSync flag s fuel

/-- `jzsoc_nand_enable_rs_hwecc` -/
def enableRsHwecc (mode : EccMode) (s : Jz4740Emc) : Except Fault Jz4740Emc := do
  let s ← jz4740EmcWrite32 s 0x114 0x0
  let s ← nandEccEnable s
  let s ← nfecrModify (· ||| 0x4#32) s
  match mode with
  | .read => nfecrModify (· &&& ~~~0x8#32) s
  | .write => nfecrModify (· ||| 0x8#32) s
  | .readSyn => .ok s

/-- `jzsoc_rs_correct` -/
def rsCorrect (dat : Buf) (idx : Int) (mask : BitVec 32) : Except Fault Buf :=
  let idx := idx - 1
  let i := idx + idx >>> (3 : Nat)
  if 512 ≤ i then .ok dat
  else if i < 0 then .error .outOfBounds
  else
    let i := i.toNat
    let mask := mask <<< (idx % 8).toNat
    let dat := Function.update dat i (dat i ^^^ mask.setWidth 8)
    if i < 511 then
      .ok (Function.update dat (i + 1) (dat (i + 1) ^^^ (mask >>> 8).setWidth 8))
    else .ok dat

/-- The cases of the switch on the error count, which fall through: NFERR of `n - 1` down
to NFERR0. -/
def rsCorrectErrors (s : Jz4740Emc) : Nat → Buf → Except Fault Buf
  | 0, dat => .ok dat
  | n + 1, dat => do
    let index ← jz4740EmcRead32 s (0x11c + 4 * n)
    let mask ← jz4740EmcRead32 s (0x11c + 4 * n)
    let dat ← rsCorrect dat ((index &&& 0x1ff0000#32) >>> 16).toNat (mask &&& 0x1ff#32)
    rsCorrectErrors s n dat

/-- The nine parity bytes of a read are given to NFPAR. -/
def setParValues (readEcc : Buf) (s : Jz4740Emc) : Except Fault Jz4740Emc :=
  (List.range 9).foldlM (fun s k => jz4740EmcWrite8 s (0x108 + k) ((readEcc k).setWidth 32)) s

/-- The check of NFINTS at the end of `jzsoc_nand_rs_correct_data`: what it returns, and
the data it leaves. -/
def rsCheckDecoding (dat : Buf) (s : Jz4740Emc) : Except Fault (Int × Buf) := do
  let stat ← jz4740EmcRead32 s 0x114
  if stat &&& 0x1#32 ≠ 0#32 then
    if stat &&& 0x2#32 ≠ 0#32 then .ok (-1, dat)
    else
      let errcnt := (stat &&& 0xe0000000#32) >>> 29
      if 1 ≤ errcnt.toNat ∧ errcnt.toNat ≤ 4 then
        (rsCorrectErrors s errcnt.toNat dat).map (0, ·)
      else .ok (0, dat)
  else .ok (0, dat)

/-- `jzsoc_nand_rs_correct_data` -/
def rsCorrectData (fuel : Nat) (dat readEcc : Buf) (s : Jz4740Emc) :
    Except Fault (Jz4740Emc × Int × Buf) := do
  let s ← setParValues readEcc s
  let s ← nfecrModify (· ||| 0x10#32) s
  nandEccSync 0x8#32 s fuel
  let s ← nandEccDisable s
  (rsCheckDecoding dat s).map (s, ·)

/-- The nine bytes the driver reads of NFPAR. -/
def readPar (s : Jz4740Emc) : Except Fault (List Byte) :=
  (List.range 9).mapM fun i => (jz4740EmcRead8 s (0x108 + i)).map (·.setWidth 8)

/-- `jzsoc_nand_calculate_rs_ecc`, with the code it stores. -/
def calculateRsEcc (fuel : Nat) (s : Jz4740Emc) : Except Fault (Jz4740Emc × List Byte) := do
  nandEccSync 0x4#32 s fuel
  let s ← nandEccDisable s
  let eccCode ← readPar s
  .ok (s, eccCode)

/-! ## Steps over 512 bytes -/

/-- The data of a step goes through the data port of the chip, not through the
controller. -/
inductive EccStep where
  | write (dat : Buf)
  | read (dat readEcc : Buf)

/-- What a step ends with.  Of a write step, also the controller when the ECC has been
switched on. -/
inductive EccAnswer where
  | written (enabled : Jz4740Emc) (eccCode : List Byte)
  | checked (stat : Int) (dat : Buf)

def handshakeStep (fuel : Nat) (s : Jz4740Emc) : EccStep → Except Fault (Jz4740Emc × EccAnswer)
  | .write _ => do
    let enabled ← enableRsHwecc .write s
    let (s, eccCode) ← calculateRsEcc fuel enabled
    .ok (s, .written enabled eccCode)
  | .read dat readEcc => do
    let s ← enableRsHwecc .read s
    let (s, stat, dat) ← rsCorrectData fuel dat readEcc s
    .ok (s, .checked stat dat)

/-- The nine bytes of NFPAR a code has. -/
def Jz4740Emc.parity (s : Jz4740Emc) : List Byte := (List.range 9).map s.parByte

/-- The code is the parity the controller had when the ECC was switched on, and a controller
that has just been reset would have the same, whatever came before; a read step has no error to
report and leaves the data alone. -/
def EccRight : EccStep → EccAnswer → Prop
  | .write _, .written enabled eccCode => eccCode = enabled.parity ∧
      ∃ fresh, enableRsHwecc .write jz4740EmcReset = .ok fresh ∧ eccCode = fresh.parity
  | .read dat _, .checked stat dat' => stat = 0 ∧ dat' = dat
  | _, _ => False

section Handshake

variable {s : Jz4740Emc} {dat readEcc : Buf} {fuel : Nat} {v e : BitVec 32}
  {f : BitVec 32 → BitVec 32}

/-! ### What a write of NFECCR does -/

/-- The controller after a write of NFECCR that resets the ECC, with the flags and the
parity it sets. -/
def eccReset (s : Jz4740Emc) (eccr ints : BitVec 32) (par : Fin 3 → BitVec 32) : Jz4740Emc :=
  { s with
    irq := ints &&& 0, nfeccr := eccr, nfecc := 0, nfpar := par
    nfints := ints, nfinte := 0, nferr := fun _ => 0 }

/-- The parity of the emulator. -/
def fakePar : Fin 3 → BitVec 32 := ![0xffffffff, 0xffffffff, 0xff]

theorem writeEccr_nfeccr (s : Jz4740Emc) (fits : v &&& 0x1f#32 = v) :
    (jz4740EmcWriteEccr s v).nfeccr = v := by
  refine Eq.trans ?_ fits
  simp only [jz4740EmcWriteEccr, jz4740EmcUpateInterrupt]
  split <;> split <;> try split <;> split
  all_goals rfl

theorem nfecrModify_of (eccr : s.nfeccr = e) (value : f e = v) :
    nfecrModify f s = .ok (jz4740EmcWriteEccr s v) :=
  congrArg (fun w => Except.ok (jz4740EmcWriteEccr s w)) ((congrArg f eccr).trans value)

theorem writeEccr_encode (fits : v &&& 0x1f#32 = v) (reset : v &&& 0x2#32 ≠ 0#32)
    (rs : v &&& 0x4#32 ≠ 0#32) (encode : v &&& 0x8#32 ≠ 0#32) :
    jz4740EmcWriteEccr s v = eccReset s v 0x4 fakePar := by
  simp only [jz4740EmcWriteEccr, fits, if_pos reset, if_pos rs, if_pos encode, encode, and_false,
    if_false, jz4740EmcUpateInterrupt, eccReset, fakePar]

theorem writeEccr_decode (fits : v &&& 0x1f#32 = v) (reset : v &&& 0x2#32 ≠ 0#32)
    (rs : v &&& 0x4#32 ≠ 0#32) (decode : v &&& 0x8#32 = 0#32) (ready : v &&& 0x10#32 ≠ 0#32) :
    jz4740EmcWriteEccr s v = eccReset s v 0x8 fun _ => 0 := by
  have zero : (![0, 0, 0, (0 : BitVec 32)] : Fin 4 → BitVec 32) = fun _ => 0 := by
    funext k
    revert k
    decide
  simp only [jz4740EmcWriteEccr, fits, if_pos reset, if_pos rs, if_pos (And.intro ready decode),
    if_neg (not_not.mpr decode), jz4740EmcUpateInterrupt, eccReset, zero]

/-- A write of the driver that leaves the reset bit and encodes. -/
theorem nfecrModify_encode (eccr : s.nfeccr = e) (value : f e = v)
    (bits : v = 0xf#32 ∨ v = 0xe#32) : nfecrModify f s = .ok (eccReset s v 0x4 fakePar) := by
  rw [nfecrModify_of eccr value]
  rcases bits with rfl | rfl
  · rw [writeEccr_encode (by decide) (by decide) (by decide) (by decide)]
  · rw [writeEccr_encode (by decide) (by decide) (by decide) (by decide)]

/-- A write of the driver that leaves the reset bit and decodes. -/
theorem nfecrModify_decode (eccr : s.nfeccr = e) (value : f e = v)
    (bits : v = 0x17#32 ∨ v = 0x16#32) :
    nfecrModify f s = .ok (eccReset s v 0x8 fun _ => 0) := by
  rw [nfecrModify_of eccr value]
  rcases bits with rfl | rfl
  · rw [writeEccr_decode (by decide) (by decide) (by decide) (by decide) (by decide)]
  · rw [writeEccr_decode (by decide) (by decide) (by decide) (by decide) (by decide)]

/-! ### The sequences of the driver -/

/-- The ECC is on, reset and in Reed-Solomon mode before the mode is set. -/
theorem enableRsHwecc_eq (mode : EccMode) (s : Jz4740Emc) :
    ∃ t, t.nfeccr = 0x7#32 ∧ enableRsHwecc mode s = match mode with
      | .read => nfecrModify (· &&& ~~~0x8#32) t
      | .write => nfecrModify (· ||| 0x8#32) t
      | .readSyn => .ok t := by
  let quiet := jz4740EmcUpateInterrupt { s with nfints := 0x0#32 &&& 0x1fffffff#32 }
  let on := jz4740EmcWriteEccr quiet (0x1#32 ||| 0x2#32)
  have first : jz4740EmcWrite32 s 0x114 0x0 = .ok quiet := rfl
  have second : nandEccEnable quiet = .ok on := rfl
  have third : nfecrModify (· ||| 0x4#32) on = .ok (jz4740EmcWriteEccr on 0x7#32) :=
    nfecrModify_of (writeEccr_nfeccr quiet (by decide)) (by decide)
  refine ⟨jz4740EmcWriteEccr on 0x7#32, writeEccr_nfeccr on (by decide), ?_⟩
  rw [enableRsHwecc, bind_ok first, bind_ok second, bind_ok third]
  cases mode <;> rfl

theorem enableRsHwecc_write (s : Jz4740Emc) :
    ∃ t, enableRsHwecc .write s = .ok (eccReset t 0xf 0x4 fakePar) := by
  obtain ⟨t, eccr, done⟩ := enableRsHwecc_eq .write s
  exact ⟨t, done.trans (nfecrModify_encode eccr (by decide) (Or.inl rfl))⟩

theorem enableRsHwecc_read (s : Jz4740Emc) :
    ∃ t, enableRsHwecc .read s = .ok t ∧ t.nfeccr = 0x7#32 := by
  obtain ⟨t, eccr, done⟩ := enableRsHwecc_eq .read s
  exact ⟨_, done.trans (nfecrModify_of eccr (by decide)), writeEccr_nfeccr t (by decide)⟩

/-- A loop that finds its flag at the first read. -/
theorem nandEccSync_set {flag : BitVec 32} (set : s.nfints &&& flag ≠ 0#32) :
    nandEccSync flag s (fuel + 1) = .ok () :=
  if_pos set

/-- The driver reads the bytes of NFPAR. -/
theorem readPar_eq (s : Jz4740Emc) : readPar s = .ok s.parity := by
  have byte : ∀ i ∈ List.range 9,
      (jz4740EmcRead8 s (0x108 + i)).map (·.setWidth 8) = .ok (s.parByte i) := by
    intro i inside
    have place : ParPlace .byte i :=
      ⟨Nat.mod_one i, (List.mem_range.mp inside).trans (by decide)⟩
    have read : jz4740EmcRead8 s (0x108 + i) = .ok (laneWord s.parByte i 1) := emcRead_par s place
    have first : lane (laneWord s.parByte i 1) 0 = s.parByte i := lane_laneWord (by decide)
    have lowest : (laneWord s.parByte i 1).setWidth 8 = s.parByte i :=
      (BitVec.setWidth_eq_extractLsb' (by decide)).trans first
    rw [read]
    exact congrArg Except.ok lowest
  exact mapM_ok byte

theorem parity_eq {t : Jz4740Emc} (par : s.nfpar = t.nfpar) : s.parity = t.parity := by
  have bytes : s.parByte = t.parByte := by
    funext p
    rw [Jz4740Emc.parByte, Jz4740Emc.parByte, par]
  rw [Jz4740Emc.parity, Jz4740Emc.parity, bytes]

/-- The write of `nandEccDisable` resets the ECC and encodes once more. -/
theorem calculateRsEcc_eq (fuel : Nat) (eccr : s.nfeccr = 0xf#32)
    (set : s.nfints &&& 0x4#32 ≠ 0#32) (par : s.nfpar = fakePar) :
    ∃ t, calculateRsEcc (fuel + 1) s = .ok (t, s.parity) := by
  have off : nandEccDisable s = .ok (eccReset s 0xe 0x4 fakePar) :=
    nfecrModify_encode eccr (by decide) (Or.inr rfl)
  refine ⟨eccReset s 0xe 0x4 fakePar, ?_⟩
  rw [calculateRsEcc, bind_ok (nandEccSync_set set), bind_ok off, bind_ok (readPar_eq _),
    parity_eq par.symm]

/-- Giving the parity writes nothing but NFPAR. -/
theorem setParValues_eq (readEcc : Buf) (s : Jz4740Emc) :
    ∃ par, setParValues readEcc s = .ok { s with nfpar := par } := by
  have bytes : ∀ ks : List Nat, (∀ k ∈ ks, k < 9) → ∀ s : Jz4740Emc, ∃ par,
      ks.foldlM (fun s k => jz4740EmcWrite8 s (0x108 + k) ((readEcc k).setWidth 32)) s =
        .ok { s with nfpar := par } := by
    intro ks
    induction ks with
    | nil => exact fun _ s => ⟨s.nfpar, rfl⟩
    | cons k ks ih =>
      intro inside s
      have register : k / 4 < 3 := by
        have := inside k List.mem_cons_self
        omega
      have head : jz4740EmcWrite8 s (0x108 + k) ((readEcc k).setWidth 32) =
          .ok (s.setPar ⟨k / 4, register⟩ (s.nfpar ⟨k / 4, register⟩ |||
            ((readEcc k).setWidth 32 &&& 0xff#32) <<< (k % 4 * 8))) := by
        simp only [jz4740EmcWrite8, nfparBank_add register]
      obtain ⟨par, tail⟩ :=
        ih (fun k' mem => inside k' (List.mem_cons_of_mem k mem)) (s.setPar _ _)
      exact ⟨par, foldlM_cons_ok head tail⟩
  exact bytes _ (fun k => List.mem_range.mp) s

theorem rsCheckDecoding_clean (dat : Buf) (clean : s.nfints &&& 0x1#32 = 0#32) :
    rsCheckDecoding dat s = .ok (0, dat) :=
  if_neg (not_not.mpr clean)

/-- The write of PRDY resets the ECC and decodes, and so does that of
`nandEccDisable`. -/
theorem rsCorrectData_eq (fuel : Nat) (dat readEcc : Buf) (eccr : s.nfeccr = 0x7#32) :
    ∃ t, rsCorrectData (fuel + 1) dat readEcc s = .ok (t, 0, dat) := by
  obtain ⟨par, given⟩ := setParValues_eq readEcc s
  generalize same : { s with nfpar := par } = r at given
  have eccr' : r.nfeccr = 0x7#32 := same ▸ eccr
  have ready : nfecrModify (· ||| 0x10#32) r = .ok (eccReset r 0x17 0x8 fun _ => 0) :=
    nfecrModify_decode eccr' (by decide) (Or.inl rfl)
  generalize flagged : eccReset r 0x17 0x8 (fun _ => 0) = t at ready
  have set : t.nfints &&& 0x8#32 ≠ 0#32 := flagged ▸ (by decide : (0x8#32) &&& 0x8#32 ≠ 0#32)
  have off : nandEccDisable t = .ok (eccReset t 0x16 0x8 fun _ => 0) :=
    nfecrModify_decode (e := 0x17#32) (flagged ▸ rfl) (by decide) (Or.inr rfl)
  have clean : (eccReset t 0x16 0x8 fun _ => 0).nfints &&& 0x1#32 = 0#32 :=
    show 0x8#32 &&& 0x1#32 = 0#32 by decide
  refine ⟨eccReset t 0x16 0x8 fun _ => 0, ?_⟩
  rw [rsCorrectData, bind_ok given, bind_ok ready, bind_ok (nandEccSync_set set), bind_ok off,
    rsCheckDecoding_clean dat clean]
  rfl

theorem handshakeStep_right (fuel : Nat) (s : Jz4740Emc) (op : EccStep) :
    ∃ t out, handshakeStep (fuel + 1) s op = .ok (t, out) ∧ EccRight op out := by
  cases op with
  | write dat =>
    obtain ⟨t, on⟩ := enableRsHwecc_write s
    have set : (eccReset t 0xf 0x4 fakePar).nfints &&& 0x4#32 ≠ 0#32 :=
      show 0x4#32 &&& 0x4#32 ≠ 0#32 by decide
    obtain ⟨u, calculated⟩ :=
      calculateRsEcc_eq fuel (s := eccReset t 0xf 0x4 fakePar) rfl set rfl
    obtain ⟨r, fresh⟩ := enableRsHwecc_write jz4740EmcReset
    refine ⟨u, .written (eccReset t 0xf 0x4 fakePar) _, ?_, rfl, _, fresh, parity_eq rfl⟩
    rw [handshakeStep, bind_ok on, bind_ok calculated]
  | read dat readEcc =>
    obtain ⟨t, on, eccr⟩ := enableRsHwecc_read s
    obtain ⟨u, corrected⟩ := rsCorrectData_eq fuel dat readEcc eccr
    refine ⟨u, .checked 0 dat, ?_, rfl, rfl⟩
    rw [handshakeStep, bind_ok on, bind_ok corrected]

/-- From every state of the controller, every sequence of write and read steps goes
through, with loops that may read NFINTS once or more often: every code is the parity its
own step has produced, and every read step reports no error and leaves the data alone. -/
theorem ecc_handshake_completes (fuel : Nat) (s : Jz4740Emc) (ops : List EccStep) :
    ∃ t outs, run (handshakeStep (fuel + 1)) s ops = .ok (t, outs) ∧
      List.Forall₂ EccRight ops outs :=
  run_completes (handshakeStep_right fuel) s ops

end Handshake

end VirtualNoah
