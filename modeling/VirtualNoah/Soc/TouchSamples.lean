import Mathlib.Tactic.IntervalCases
import VirtualNoah.Soc.Sadc

/-!
# Samples of the touch screen

The guest driver takes three samples of the pen, two reads of ADTCH each, checks
that they are steady, averages them and maps them to the screen.  The emulator
delivers a position and a fixed pressure in turn, so all three samples are equal.
A sample of zero is a division by zero in the driver, and the map of the rows
clamps with the bounds of the columns.
-/

namespace VirtualNoah

open StepRun

/-! ## The driver -/

/-- `datasource_t` -/
structure DataSource where
  xbuf : BitVec 16
  ybuf : BitVec 16
  zbuf : BitVec 16

def sadcStateTsrdy : BitVec 8 := 1#8 <<< 2
def sadcCtrlTsrdym : BitVec 8 := 1#8 <<< 2

/-- The start of `jz4740_adc_read`.  `sleepOn` is what happens to the device until the
driver is woken. -/
def sleepUnlessReady (sleepOn : Jz4740Sadc → Jz4740Sadc) (s : Jz4740Sadc) :
    Except Fault Jz4740Sadc := do
  let state ← jz4740SadcRead8 s 0xc
  if state.setWidth 8 &&& sadcStateTsrdy = 0#8 then do
    let ctrl ← jz4740SadcRead8 s 0x8
    let s ← jz4740SadcWrite8 s 0x8 ((ctrl.setWidth 8 &&& ~~~sadcCtrlTsrdym).setWidth 32)
    .ok (sleepOn s)
  else .ok s

def jz4740AdcRead (sleepOn : Jz4740Sadc → Jz4740Sadc) (s : Jz4740Sadc) :
    Except Fault (Jz4740Sadc × DataSource) := do
  let s ← sleepUnlessReady sleepOn s
  let (s, xybuf) ← jz4740SdacRead32 s 0x18
  let (s, z) ← jz4740SdacRead32 s 0x18
  let state ← jz4740SadcRead8 s 0xc
  let s ← jz4740SadcWrite8 s 0xc ((state.setWidth 8 &&& ~~~sadcStateTsrdy).setWidth 32)
  .ok (s, {
    xbuf := ((xybuf >>> 16) &&& 0xfff#32).setWidth 16
    ybuf := (xybuf &&& 0xfff#32).setWidth 16
    zbuf := (z &&& 0xfff#32).setWidth 16 })

/-- An entry of `x_raw`, `y_raw` and `p_raw`. -/
structure Sample where
  x : BitVec 32
  y : BitVec 32
  p : BitVec 32

def DataSource.sample (ds : DataSource) : Sample :=
  ⟨ds.ybuf.setWidth 32, ds.xbuf.setWidth 32, ds.zbuf.setWidth 32⟩

/-- `DIFF` -/
def sampleDiff (a b : BitVec 32) : BitVec 32 := if b < a then a - b else b - a

/-- `MIN` -/
def sampleMin (a b : BitVec 32) : BitVec 32 := if a < b then a else b

/-- An unsigned division of the driver. -/
def divide (a b : BitVec 32) : Except Fault (BitVec 32) :=
  if b = 0#32 then .error .divideByZero else .ok (a / b)

/-- One of the tests against `MAX_DELTA`. -/
def steady (a b : BitVec 32) : Except Fault Bool :=
  (divide (100#32 * sampleDiff a b) (sampleMin a b)).map (decide <| · ≤ 20#32)

/-- The loop over neighbouring samples, left at the first unsteady one. -/
def steadySamples : List Sample → Except Fault Bool
  | a :: b :: samples => do
    if ← steady b.x a.x then
      if ← steady b.y a.y then
        if ← steady b.p a.p then steadySamples (b :: samples)
        else .ok false
      else .ok false
    else .ok false
  | _ => .ok true

/-- Samples `is`, in the loop at the start of `AcquireEvent`. -/
def takeSamples (sleepOn : Nat → Jz4740Sadc → Jz4740Sadc) :
    Jz4740Sadc → List Nat → Except Fault (Jz4740Sadc × List Sample)
  | s, [] => .ok (s, [])
  | s, i :: is => do
    let (s, ds) ← jz4740AdcRead (sleepOn i) s
    let (s, samples) ← takeSamples sleepOn s is
    .ok (s, ds.sample :: samples)

/-- The mean of three values. -/
def mean (values : List (BitVec 32)) : BitVec 32 := values.foldl (· + ·) 0#32 / 3#32

/-- `jz_ts_t`, as far as `AcquireEvent` uses it. -/
structure JzTs where
  minx : BitVec 32
  miny : BitVec 32
  maxx : BitVec 32
  maxy : BitVec 32
  filter : Bool
  firstRead : Bool

/-- The static variables of `sadc.c`. -/
structure SadcStatics where
  firstTime : Bool
  lastX : BitVec 32
  lastY : BitVec 32
  lastP : BitVec 32
  oldX : BitVec 32
  oldY : BitVec 32

/-- The averages replace the first sample. -/
def calibrateSamples (v : SadcStatics) (samples : List Sample) : SadcStatics × Sample × Bool :=
  let cal : Sample :=
    ⟨mean (samples.map (·.x)), mean (samples.map (·.y)), mean (samples.map (·.p))⟩
  let valid := v.firstTime ||
    !(50#32 < sampleDiff cal.x v.lastX || 50#32 < sampleDiff cal.y v.lastY)
  ({ v with firstTime := false, lastX := cal.x, lastY := cal.y, lastP := cal.p }, cal, valid)

def transformToScreenX (ts : JzTs) (x : BitVec 32) : Except Fault (BitVec 32) :=
  if ts.minx ≠ 0#32 then
    let x := if x < ts.minx then ts.minx else x
    let x := if ts.maxx < x then ts.maxx else x
    divide ((x - ts.minx) * 480#32) (ts.maxx - ts.minx)
  else
    let x := if x < 90#32 then 90#32 else x
    let x := if 945#32 < x then 945#32 else x
    divide ((x - 90#32) * 480#32) (945#32 - 90#32)

/-- The row is compared with the bounds of the columns. -/
def transformToScreenY (ts : JzTs) (y : BitVec 32) : Except Fault (BitVec 32) :=
  if ts.minx ≠ 0#32 then
    let y := if y < ts.minx then ts.miny else y
    let y := if ts.maxx < y then ts.maxy else y
    divide ((y - ts.miny) * 272#32) (ts.maxy - ts.miny)
  else
    let y := if y < 90#32 then 105#32 else y
    let y := if 945#32 < y then 830#32 else y
    divide ((y - 105#32) * 272#32) (830#32 - 105#32)

structure TsEvent where
  status : BitVec 16
  x : BitVec 16
  y : BitVec 16
  pressure : BitVec 16

/-- The test of the averages against the ones before. -/
def nearLast (ts : JzTs) (v : SadcStatics) (samples : List Sample) : JzTs × SadcStatics × Bool :=
  let avlX := mean (samples.map (·.x))
  let avlY := mean (samples.map (·.y))
  let v := if ts.firstRead then { v with oldX := avlX, oldY := avlY } else v
  let ts := { ts with firstRead := false }
  if sampleDiff v.oldX avlX < 100#32 ∧ sampleDiff v.oldY avlY < 100#32 then
    (ts, { v with oldX := avlX, oldY := avlY }, true)
  else (ts, v, false)

/-- The end of `AcquireEvent`, on the averages. -/
def screenEvent (ts : JzTs) (cal : Sample) : Except Fault TsEvent := do
  let (x, y) ← if ts.filter then do
      let x ← transformToScreenX ts cal.x
      let y ← transformToScreenY ts cal.y
      .ok (x, y)
    else .ok (cal.x, cal.y)
  .ok ⟨1, x.setWidth 16, y.setWidth 16, cal.p.setWidth 16⟩

def acquireEvent (sleepOn : Nat → Jz4740Sadc → Jz4740Sadc) (ts : JzTs) (v : SadcStatics)
    (s : Jz4740Sadc) : Except Fault (Jz4740Sadc × JzTs × SadcStatics × Option TsEvent) := do
  let (s, samples) ← takeSamples sleepOn s [0, 1, 2]
  if ← steadySamples samples then
    let (ts, v, valid) := nearLast ts v samples
    if valid then
      let (v, cal, valid) := calibrateSamples v samples
      if valid then do
        let event ← screenEvent ts cal
        .ok (s, ts, v, some event)
      else .ok (s, ts, v, none)
    else .ok (s, ts, v, none)
  else .ok (s, ts, v, none)

/-! ## What the driver relies on -/

/-- `jz4740_sdac_read32` of ADTCH, `n` times. -/
def adtchReads : Nat → Jz4740Sadc → Except Fault Jz4740Sadc
  | 0, s => .ok s
  | n + 1, s => do
    let (s, _) ← jz4740SdacRead32 s 0x18
    adtchReads n s

/-- The samples have 12 bits, the driver does not divide by zero on them, and the screen
position it makes of each of them, and the one it reports, is on the screen. -/
structure TouchSafe (sleepOn : Nat → Jz4740Sadc → Jz4740Sadc) (ts : JzTs) (v : SadcStatics)
    (s : Jz4740Sadc) : Prop where
  divides : acquireEvent sleepOn ts v s ≠ .error .divideByZero
  samples : ∃ s' samples, takeSamples sleepOn s [0, 1, 2] = .ok (s', samples) ∧
    ∀ sample ∈ samples,
      (sample.x.toNat < 4096 ∧ sample.y.toNat < 4096 ∧ sample.p.toNat < 4096) ∧
      (∃ column, transformToScreenX ts sample.x = .ok column ∧ column.toNat ≤ 480) ∧
      ∃ row, transformToScreenY ts sample.y = .ok row ∧ row.toNat ≤ 272
  event : ∀ s' ts' v' event, acquireEvent sleepOn ts v s = .ok (s', ts', v', some event) →
    ts.filter = true → event.x.toNat ≤ 480 ∧ event.y.toNat ≤ 272

/-- `0 < minx < maxx` and `miny < maxy`, as C integers. -/
structure Calibrated (ts : JzTs) : Prop where
  minx : 0 < ts.minx.toInt
  maxx : ts.minx.toInt < ts.maxx.toInt
  maxy : ts.miny.toInt < ts.maxy.toInt

/-- What sleeping leaves alone: no other position, and no other read of ADTCH. -/
def KeepsPosition (sleepOn : Nat → Jz4740Sadc → Jz4740Sadc) : Prop :=
  ∀ i s, (sleepOn i s).x = s.x ∧ (sleepOn i s).y = s.y ∧ (sleepOn i s).readIndex = s.readIndex

/-- The 12 bits a coordinate of the mouse is scaled to. -/
def touchSample (x : Int) : Int := x * 4096 / 32767

/-- A row sample outside the columns is clamped; one between them is mapped as it is,
modulo 2^32, and has to be among the rows. -/
def RowFits (ts : JzTs) (sample : Int) : Prop :=
  sample < ts.minx.toInt ∨ ts.maxx.toInt < sample ∨
    272 * (sample - ts.miny.toInt) % 2 ^ 32 < 273 * (ts.maxy.toInt - ts.miny.toInt)

/-! ## Reads of the device -/

section Device

variable {sleepOn : Nat → Jz4740Sadc → Jz4740Sadc} {s : Jz4740Sadc}

theorem setWidth_toNat (x : BitVec 16) : (x.setWidth 32).toNat = x.toNat := by
  rw [BitVec.toNat_setWidth]
  exact Nat.mod_eq_of_lt (by omega)

/-- A field of 12 bits is what the driver unpacks. -/
theorem and_mask_of_lt {x : BitVec 32} (small : x.toNat < 4096) : x &&& 0xfff#32 = x := by
  apply BitVec.eq_of_toNat_eq
  rw [BitVec.toNat_and]
  exact (Nat.and_two_pow_sub_one_eq_mod x.toNat 12).trans (Nat.mod_eq_of_lt small)

/-- The word a read of ADTCH delivers for a position. -/
def positionWord (s : Jz4740Sadc) : BitVec 32 :=
  (s.x.setWidth 32 &&& 0x7fff#32) ||| ((s.y.setWidth 32 &&& 0x7ffff#32) <<< 16)

theorem positionWord_low (small : s.x.toNat < 4096) :
    positionWord s &&& 0xfff#32 = s.x.setWidth 32 := by
  refine Eq.trans ?_ (and_mask_of_lt ((setWidth_toNat s.x).trans_lt small))
  unfold positionWord
  ext i inside
  simp only [BitVec.getElem_and, BitVec.getElem_or, BitVec.getElem_shiftLeft]
  interval_cases i <;> simp

theorem positionWord_high (small : s.y.toNat < 4096) :
    positionWord s >>> 16 &&& 0xfff#32 = s.y.setWidth 32 := by
  refine Eq.trans ?_ (and_mask_of_lt ((setWidth_toNat s.y).trans_lt small))
  unfold positionWord
  ext i inside
  simp only [BitVec.getElem_and, BitVec.getElem_ushiftRight, BitVec.getLsbD_or,
    BitVec.getLsbD_and, BitVec.getLsbD_shiftLeft]
  interval_cases i <;> simp

/-- What two reads in a row unpack to, and which of them is the position. -/
def pairRead (s : Jz4740Sadc) : Sample :=
  if s.readIndex = 0#8 then ⟨s.x.setWidth 32, s.y.setWidth 32, 0xfff#32⟩
  else ⟨0xfff#32, 0#32, s.x.setWidth 32⟩

/-- The state of the device that the samples depend on. -/
structure SamePosition (s t : Jz4740Sadc) : Prop where
  x : t.x = s.x
  y : t.y = s.y
  aligned : t.readIndex = 0#8 ↔ s.readIndex = 0#8

theorem SamePosition.trans {s t u : Jz4740Sadc} (first : SamePosition s t)
    (second : SamePosition t u) : SamePosition s u :=
  ⟨second.x.trans first.x, second.y.trans first.y, second.aligned.trans first.aligned⟩

theorem pairRead_congr {s t : Jz4740Sadc} (same : SamePosition s t) : pairRead t = pairRead s := by
  unfold pairRead
  rw [same.x, same.y, if_congr same.aligned rfl rfl]

theorem sdacRead32_adtch (s : Jz4740Sadc) :
    jz4740SdacRead32 s 0x18 = .ok (if s.readIndex = 0#8 then
      ({ s with readIndex := s.readIndex + 1 }, positionWord s)
    else ({ s with readIndex := 0 }, 0x3fff)) := by
  simp only [jz4740SdacRead32, positionWord]
  split
  · rfl
  · rfl

theorem sleepUnlessReady_keeps {sleepOn : Jz4740Sadc → Jz4740Sadc}
    (keeps : ∀ t, (sleepOn t).x = t.x ∧ (sleepOn t).y = t.y ∧ (sleepOn t).readIndex = t.readIndex) :
    ∃ t, sleepUnlessReady sleepOn s = .ok t ∧ t.x = s.x ∧ t.y = s.y ∧
      t.readIndex = s.readIndex := by
  unfold sleepUnlessReady
  by_cases ready : s.adstate.setWidth 8 &&& sadcStateTsrdy = 0#8
  · exact ⟨_, if_pos ready, keeps _⟩
  · exact ⟨s, if_neg ready, rfl, rfl, rfl⟩

/-- A sample is a pair of reads, and leaves the position and the turn as they were. -/
theorem adcRead_eq {sleepOn : Jz4740Sadc → Jz4740Sadc}
    (keeps : ∀ t, (sleepOn t).x = t.x ∧ (sleepOn t).y = t.y ∧ (sleepOn t).readIndex = t.readIndex)
    (smallX : s.x.toNat < 4096) (smallY : s.y.toNat < 4096) :
    ∃ t ds, jz4740AdcRead sleepOn s = .ok (t, ds) ∧ SamePosition s t ∧ ds.sample = pairRead s := by
  obtain ⟨r, slept, x, y, index⟩ := sleepUnlessReady_keeps (s := s) keeps
  have narrow : ∀ v : BitVec 16, ((v.setWidth 32).setWidth 16).setWidth 32 = v.setWidth 32 := by
    intro v
    rw [BitVec.setWidth_setWidth_of_le v (by decide), BitVec.setWidth_eq]
  have low := positionWord_low (s := r) (x ▸ smallX)
  have high := positionWord_high (s := r) (y ▸ smallY)
  have first := sdacRead32_adtch r
  unfold jz4740AdcRead pairRead
  rw [slept]
  by_cases turn : s.readIndex = 0#8
  · rw [if_pos (index.trans turn)] at first
    have second := sdacRead32_adtch { r with readIndex := r.readIndex + 1 }
    rw [if_neg (show r.readIndex + 1 ≠ 0#8 from by rw [index, turn]; decide)] at second
    simp only [bind, Except.bind, first, second]
    refine ⟨_, _, rfl, ⟨x, y, iff_of_true rfl turn⟩, ?_⟩
    rw [if_pos turn]
    simp only [DataSource.sample, low, high, x, y, narrow]
    rfl
  · rw [if_neg (index ▸ turn)] at first
    have second := sdacRead32_adtch { r with readIndex := 0 }
    rw [if_pos (show (0 : BitVec 8) = 0#8 from rfl)] at second
    simp only [bind, Except.bind, first, second]
    refine ⟨_, _, rfl, ⟨x, y, iff_of_false nofun turn⟩, ?_⟩
    rw [if_neg turn]
    have word : positionWord { r with readIndex := 0 } &&& 0xfff#32 = r.x.setWidth 32 := low
    simp only [DataSource.sample, word, narrow]
    rw [x]
    rfl

variable {sleepOn : Nat → Jz4740Sadc → Jz4740Sadc}

/-- All samples are the same. -/
theorem takeSamples_eq (keeps : KeepsPosition sleepOn) (is : List Nat) {s : Jz4740Sadc}
    (smallX : s.x.toNat < 4096) (smallY : s.y.toNat < 4096) :
    ∃ t, takeSamples sleepOn s is = .ok (t, is.map fun _ => pairRead s) := by
  induction is generalizing s with
  | nil => exact ⟨s, rfl⟩
  | cons i is ih =>
    obtain ⟨r, ds, read, same, sample⟩ := adcRead_eq (keeps i) smallX smallY
    obtain ⟨t, rest⟩ := ih (same.x ▸ smallX) (same.y ▸ smallY)
    refine ⟨t, ?_⟩
    simp only [takeSamples, read, rest, bind, Except.bind]
    rw [sample, pairRead_congr same, List.map_cons]

/-- Each read of ADTCH takes the other turn. -/
theorem adtchReads_eq (n : Nat) (s : Jz4740Sadc) :
    ∃ t, adtchReads n s = .ok t ∧ t.x = s.x ∧ t.y = s.y ∧
      (t.readIndex = 0#8 ↔ (s.readIndex = 0#8 ↔ Even n)) := by
  induction n generalizing s with
  | zero => exact ⟨s, rfl, rfl, rfl, (iff_true_right Even.zero).symm⟩
  | succ n ih =>
    have read := sdacRead32_adtch s
    by_cases turn : s.readIndex = 0#8
    · rw [if_pos turn] at read
      obtain ⟨t, reads, x, y, index⟩ := ih { s with readIndex := s.readIndex + 1 }
      refine ⟨t, ?_, x, y, index.trans ?_⟩
      · simp only [adtchReads, read, bind, Except.bind]
        exact reads
      · have odd : s.readIndex + 1 ≠ 0#8 := by rw [turn]; decide
        rw [iff_false_left odd, iff_true_left turn, Nat.even_add_one]
    · rw [if_neg turn] at read
      obtain ⟨t, reads, x, y, index⟩ := ih { s with readIndex := 0 }
      refine ⟨t, ?_, x, y, index.trans ?_⟩
      · simp only [adtchReads, read, bind, Except.bind]
        exact reads
      · have even : (0 : BitVec 8) = 0#8 := rfl
        rw [iff_true_left even, iff_false_left turn, Nat.even_add_one, not_not]

end Device

/-! ## Arithmetic of the driver -/

section Arithmetic

theorem divide_ok {a b : BitVec 32} (nonzero : b ≠ 0#32) : divide a b = .ok (a / b) :=
  if_neg nonzero

/-- Equal values are steady, unless they are zero. -/
theorem steady_self (a : BitVec 32) :
    steady a a = if a = 0#32 then .error .divideByZero else .ok true := by
  have diff : sampleDiff a a = 0#32 := by
    rw [sampleDiff, if_neg (BitVec.lt_irrefl a), BitVec.sub_self]
  have least : sampleMin a a = a := by
    rw [sampleMin, if_neg (BitVec.lt_irrefl a)]
  unfold steady divide
  rw [diff, least]
  by_cases zero : a = 0#32
  · rw [if_pos zero, if_pos zero]
    rfl
  · rw [if_neg zero, if_neg zero, BitVec.mul_zero, BitVec.zero_udiv]
    rfl

/-- Three equal samples pass, unless a part of them is zero. -/
theorem steadySamples_same (a : Sample) :
    steadySamples [a, a, a] =
      if a.x = 0#32 ∨ a.y = 0#32 ∨ a.p = 0#32 then .error .divideByZero else .ok true := by
  simp only [steadySamples, steady_self]
  by_cases x : a.x = 0#32
  · rw [if_pos x, if_pos (Or.inl x)]
    rfl
  · by_cases y : a.y = 0#32
    · rw [if_neg x, if_pos y, if_pos (Or.inr (Or.inl y))]
      rfl
    · by_cases p : a.p = 0#32
      · rw [if_neg x, if_neg y, if_pos p, if_pos (Or.inr (Or.inr p))]
        rfl
      · rw [if_neg x, if_neg y, if_neg p, if_neg (by simp only [x, y, p, or_self, not_false_iff])]
        rfl

theorem mean_same {a : BitVec 32} (small : a.toNat < 4096) : mean [a, a, a] = a := by
  have three : (3#32).toNat = 3 := rfl
  apply BitVec.eq_of_toNat_eq
  simp only [mean, List.foldl_cons, List.foldl_nil, BitVec.zero_add, BitVec.toNat_udiv,
    BitVec.toNat_add, three]
  omega

/-- A quotient of a product, on the screen when the product is. -/
theorem divide_le {d w : BitVec 32} (nonzero : w ≠ 0#32) (bound : Nat) :
    ∃ v, divide d w = .ok v ∧ (v.toNat ≤ bound ↔ d.toNat < (bound + 1) * w.toNat) := by
  refine ⟨d / w, divide_ok nonzero, ?_⟩
  have pos : 0 < w.toNat := BitVec.toNat_pos_of_ne_zero nonzero
  rw [BitVec.toNat_udiv, ← Nat.lt_add_one_iff, Nat.div_lt_iff_lt_mul pos]

/-- A part of a range is mapped to the screen, also when the product wraps. -/
theorem divide_part_le {d w : BitVec 32} (c : BitVec 32) (nonzero : w ≠ 0#32)
    (part : d.toNat ≤ w.toNat) :
    ∃ v, divide (d * c) w = .ok v ∧ v.toNat ≤ c.toNat := by
  obtain ⟨v, quotient, bounded⟩ := divide_le (d := d * c) nonzero c.toNat
  refine ⟨v, quotient, bounded.mpr ?_⟩
  have pos : 0 < w.toNat := BitVec.toNat_pos_of_ne_zero nonzero
  calc (d * c).toNat ≤ d.toNat * c.toNat := by
        rw [BitVec.toNat_mul]
        exact Nat.mod_le _ _
    _ ≤ w.toNat * c.toNat := Nat.mul_le_mul_right _ part
    _ = c.toNat * w.toNat := Nat.mul_comm _ _
    _ < (c.toNat + 1) * w.toNat := Nat.mul_lt_mul_of_pos_right (Nat.lt_succ_self _) pos

theorem toInt_of_pos {x : BitVec 32} (pos : 0 < x.toInt) : x.toInt = x.toNat := by
  rw [BitVec.toInt_eq_toNat_cond] at pos ⊢
  split at pos
  · next low => rw [if_pos low]
  · omega

theorem toNat_sub_of_toInt_lt {a b : BitVec 32} (lt : b.toInt < a.toInt) :
    ((a - b).toNat : Int) = a.toInt - b.toInt := by
  rw [BitVec.toInt_eq_toNat_cond, BitVec.toInt_eq_toNat_cond] at lt ⊢
  rw [BitVec.toNat_sub]
  split at lt <;> split at lt <;> omega

/-- The distance of a row from `miny`, as the driver computes it. -/
theorem toNat_row (y miny : BitVec 32) :
    (((y - miny) * 272#32).toNat : Int) = 272 * (y.toNat - miny.toInt) % 2 ^ 32 := by
  have factor : (272#32).toNat = 272 := rfl
  rw [BitVec.toInt_eq_toNat_cond, BitVec.toNat_mul, BitVec.toNat_sub, factor]
  split <;> omega

end Arithmetic

section Screen

variable {ts : JzTs} {x y : BitVec 32}

theorem Calibrated.columns (calibrated : Calibrated ts) :
    ts.minx ≠ 0#32 ∧ ts.minx.toInt = ts.minx.toNat ∧ ts.maxx.toInt = ts.maxx.toNat ∧
      ts.minx < ts.maxx := by
  have low := toInt_of_pos calibrated.minx
  have high := toInt_of_pos (calibrated.minx.trans calibrated.maxx)
  have ordered := calibrated.maxx
  have pos := calibrated.minx
  rw [low, high] at ordered
  rw [low] at pos
  refine ⟨fun zero => ?_, low, high, BitVec.lt_def.mpr (Int.ofNat_lt.mp ordered)⟩
  rw [zero] at pos
  exact absurd pos (Int.lt_irrefl 0)

theorem sub_ne_zero_of_toInt_lt {a b : BitVec 32} (lt : b.toInt < a.toInt) : a - b ≠ 0#32 := by
  intro zero
  have width := toNat_sub_of_toInt_lt lt
  rw [zero] at width
  have : ((0#32).toNat : Int) = 0 := rfl
  omega

/-- The map of the columns stays on the screen. -/
theorem transformToScreenX_le (calibrated : Calibrated ts) (x : BitVec 32) :
    ∃ column, transformToScreenX ts x = .ok column ∧ column.toNat ≤ 480 := by
  obtain ⟨nonzero, -, -, ordered⟩ := calibrated.columns
  have width := sub_ne_zero_of_toInt_lt calibrated.maxx
  unfold transformToScreenX
  rw [if_pos nonzero]
  refine divide_part_le 480#32 width ?_
  have range : (ts.maxx - ts.minx).toNat = ts.maxx.toNat - ts.minx.toNat :=
    BitVec.toNat_sub_of_le (BitVec.le_of_lt ordered)
  by_cases left : x < ts.minx
  · rw [if_pos left, if_neg (BitVec.not_lt.mpr (BitVec.le_of_lt ordered)), BitVec.sub_self]
    exact Nat.zero_le _
  · rw [if_neg left]
    by_cases right : ts.maxx < x
    · rw [if_pos right]
    · rw [if_neg right, range, BitVec.toNat_sub_of_le (BitVec.not_lt.mp left)]
      exact Nat.sub_le_sub_right (BitVec.le_def.mp (BitVec.not_lt.mp right)) _

theorem scaled_lt_iff {n w : Nat} {distance height : Int} (scaled : (n : Int) = distance)
    (range : (w : Int) = height) : n < (272 + 1) * w ↔ distance < 273 * height := by
  omega

/-- The map of the rows stays on the screen exactly when the row is clamped, or among
the rows. -/
theorem transformToScreenY_le_iff (calibrated : Calibrated ts) (y : BitVec 32) :
    ∃ row, transformToScreenY ts y = .ok row ∧ (row.toNat ≤ 272 ↔ RowFits ts y.toNat) := by
  obtain ⟨nonzero, minx, maxx, -⟩ := calibrated.columns
  have height := sub_ne_zero_of_toInt_lt calibrated.maxy
  have left_iff : y < ts.minx ↔ (y.toNat : Int) < ts.minx.toInt := by
    rw [minx, Int.ofNat_lt, BitVec.lt_def]
  have right_iff : ts.maxx < y ↔ ts.maxx.toInt < (y.toNat : Int) := by
    rw [maxx, Int.ofNat_lt, BitVec.lt_def]
  unfold transformToScreenY RowFits
  rw [if_pos nonzero]
  dsimp only
  -- either bound of the rows is mapped to the screen
  have top : ∃ row, divide ((ts.miny - ts.miny) * 272#32) (ts.maxy - ts.miny) = .ok row ∧
      row.toNat ≤ 272 :=
    divide_part_le 272#32 height (by rw [BitVec.sub_self]; exact Nat.zero_le _)
  have bottom : ∃ row, divide ((ts.maxy - ts.miny) * 272#32) (ts.maxy - ts.miny) = .ok row ∧
      row.toNat ≤ 272 :=
    divide_part_le 272#32 height (Nat.le_refl _)
  by_cases left : y < ts.minx
  · rw [if_pos left]
    by_cases past : ts.maxx < ts.miny
    · rw [if_pos past]
      obtain ⟨row, quotient, low⟩ := bottom
      exact ⟨row, quotient, iff_of_true low (Or.inl (left_iff.mp left))⟩
    · rw [if_neg past]
      obtain ⟨row, quotient, low⟩ := top
      exact ⟨row, quotient, iff_of_true low (Or.inl (left_iff.mp left))⟩
  · rw [if_neg left]
    by_cases right : ts.maxx < y
    · rw [if_pos right]
      obtain ⟨row, quotient, low⟩ := bottom
      exact ⟨row, quotient, iff_of_true low (Or.inr (Or.inl (right_iff.mp right)))⟩
    · rw [if_neg right]
      obtain ⟨row, quotient, low⟩ := divide_le (d := (y - ts.miny) * 272#32) height 272
      refine ⟨row, quotient, low.trans ?_⟩
      rw [or_iff_right (left_iff.not.mp left), or_iff_right (right_iff.not.mp right)]
      exact scaled_lt_iff (toNat_row y ts.miny) (toNat_sub_of_toInt_lt calibrated.maxy)

end Screen

/-! ## Safety -/

section Safety

variable {sleepOn : Nat → Jz4740Sadc → Jz4740Sadc} {ts : JzTs} {v : SadcStatics}
  {s s' : Jz4740Sadc} {a : Sample}

/-- An unsafe sample stops `AcquireEvent`. -/
theorem acquireEvent_zero (taken : takeSamples sleepOn s [0, 1, 2] = .ok (s', [a, a, a]))
    (zero : a.x = 0#32 ∨ a.y = 0#32 ∨ a.p = 0#32) :
    acquireEvent sleepOn ts v s = .error .divideByZero := by
  unfold acquireEvent
  simp only [taken, steadySamples_same, if_pos zero, bind, Except.bind]

theorem screenEvent_eq (ts : JzTs) (cal : Sample) {column row : BitVec 32}
    (columns : transformToScreenX ts cal.x = .ok column)
    (rows : transformToScreenY ts cal.y = .ok row) :
    ∃ event, screenEvent ts cal = .ok event ∧
      (ts.filter = true → event.x = column.setWidth 16 ∧ event.y = row.setWidth 16) := by
  unfold screenEvent
  cases filter : ts.filter with
  | true =>
    simp only [if_true, columns, rows, bind, Except.bind]
    exact ⟨_, rfl, fun _ => ⟨rfl, rfl⟩⟩
  | false => exact ⟨_, rfl, nofun⟩

theorem nearLast_eq (ts : JzTs) (v : SadcStatics) (samples : List Sample) :
    ∃ v' valid, nearLast ts v samples = ({ ts with firstRead := false }, v', valid) := by
  unfold nearLast
  dsimp only
  split
  · split
    · exact ⟨_, _, rfl⟩
    · exact ⟨_, _, rfl⟩
  · split
    · exact ⟨_, _, rfl⟩
    · exact ⟨_, _, rfl⟩

/-- The mean of equal samples is the sample. -/
theorem calibrateSamples_same (v : SadcStatics) (smallX : a.x.toNat < 4096)
    (smallY : a.y.toNat < 4096) :
    ∃ v' p valid, calibrateSamples v [a, a, a] = (v', ⟨a.x, a.y, p⟩, valid) := by
  unfold calibrateSamples
  simp only [List.map_cons, List.map_nil, mean_same smallX, mean_same smallY]
  exact ⟨_, _, _, rfl⟩

/-- With safe samples it ends, and reports the screen position of the sample. -/
theorem acquireEvent_same (taken : takeSamples sleepOn s [0, 1, 2] = .ok (s', [a, a, a]))
    (nonzero : ¬ (a.x = 0#32 ∨ a.y = 0#32 ∨ a.p = 0#32))
    (smallX : a.x.toNat < 4096) (smallY : a.y.toNat < 4096) {column row : BitVec 32}
    (columns : transformToScreenX ts a.x = .ok column)
    (rows : transformToScreenY ts a.y = .ok row) :
    ∃ ts' v' out, acquireEvent sleepOn ts v s = .ok (s', ts', v', out) ∧
      ∀ event ∈ out, ts.filter = true →
        event.x = column.setWidth 16 ∧ event.y = row.setWidth 16 := by
  obtain ⟨v₁, near, checked⟩ := nearLast_eq ts v [a, a, a]
  obtain ⟨v₂, p, valid, averaged⟩ := calibrateSamples_same v₁ smallX smallY
  obtain ⟨event, made, shown⟩ := screenEvent_eq { ts with firstRead := false } ⟨a.x, a.y, p⟩
    columns rows
  unfold acquireEvent
  simp only [taken, steadySamples_same, if_neg nonzero, checked, averaged, bind, Except.bind,
    if_true]
  cases near with
  | false => exact ⟨_, _, none, rfl, nofun⟩
  | true =>
    cases valid with
    | false => exact ⟨_, _, none, rfl, nofun⟩
    | true =>
      simp only [if_true, made]
      refine ⟨_, _, some event, rfl, fun e is => ?_⟩
      cases is
      exact shown

/-- The position is unpacked to twelve bits, in turn with a pressure, so that all of it is
safe exactly when nothing of it is zero and the row fits. -/
theorem touchSafe_iff (keeps : KeepsPosition sleepOn) (calibrated : Calibrated ts)
    (smallX : s.x.toNat < 4096) (smallY : s.y.toNat < 4096) :
    TouchSafe sleepOn ts v s ↔
      s.readIndex = 0#8 ∧ s.x ≠ 0#16 ∧ s.y ≠ 0#16 ∧ RowFits ts s.y.toNat := by
  obtain ⟨t, taken⟩ := takeSamples_eq keeps [0, 1, 2] smallX smallY
  have zero_iff : ∀ x : BitVec 16, x.setWidth 32 = 0#32 ↔ x = 0#16 := fun x =>
    ⟨fun zero => BitVec.eq_of_toNat_eq ((setWidth_toNat x).symm.trans (congrArg (·.toNat) zero)),
      fun zero => zero ▸ rfl⟩
  have y_eq := setWidth_toNat s.y
  obtain ⟨row, rows, fits⟩ := transformToScreenY_le_iff calibrated (s.y.setWidth 32)
  rw [y_eq] at fits
  by_cases aligned : s.readIndex = 0#8
  · have pair : pairRead s = ⟨s.x.setWidth 32, s.y.setWidth 32, 0xfff#32⟩ := if_pos aligned
    simp only [pair, List.map_cons, List.map_nil] at taken
    constructor
    · intro safe
      refine ⟨aligned, fun zero => ?_, fun zero => ?_, ?_⟩
      · exact safe.divides (acquireEvent_zero taken (Or.inl ((zero_iff _).mpr zero)))
      · exact safe.divides (acquireEvent_zero taken (Or.inr (Or.inl ((zero_iff _).mpr zero))))
      · obtain ⟨_, _, again, all⟩ := safe.samples
        cases taken.symm.trans again
        obtain ⟨-, -, row', rows', low⟩ := all _ List.mem_cons_self
        cases rows.symm.trans rows'
        exact fits.mp low
    · rintro ⟨-, x, y, fit⟩
      have small : (s.x.setWidth 32).toNat < 4096 ∧ (s.y.setWidth 32).toNat < 4096 :=
        ⟨(setWidth_toNat s.x).trans_lt smallX, y_eq.trans_lt smallY⟩
      have nonzero : ¬ (s.x.setWidth 32 = 0#32 ∨ s.y.setWidth 32 = 0#32 ∨ 0xfff#32 = 0#32) := by
        rintro (zero | zero | zero)
        · exact x ((zero_iff _).mp zero)
        · exact y ((zero_iff _).mp zero)
        · cases zero
      obtain ⟨column, columns, inside⟩ := transformToScreenX_le calibrated (s.x.setWidth 32)
      have low := fits.mpr fit
      obtain ⟨ts', v', out, done, shown⟩ :=
        acquireEvent_same (v := v) taken nonzero small.1 small.2 columns rows
      refine ⟨fun faults => ?_, ⟨t, _, taken, ?_⟩, fun t' ts'' v'' event is filter => ?_⟩
      · cases done.symm.trans faults
      · intro sample member
        have same : sample = ⟨s.x.setWidth 32, s.y.setWidth 32, 0xfff#32⟩ := by
          simpa only [List.mem_cons, List.not_mem_nil, or_false, or_self] using member
        have pressure : (0xfff#32).toNat < 4096 := by decide
        rw [same]
        exact ⟨⟨small.1, small.2, pressure⟩, ⟨column, columns, inside⟩, row, rows, low⟩
      · cases done.symm.trans is
        obtain ⟨x_eq, y_eq⟩ := shown event rfl filter
        rw [x_eq, y_eq, BitVec.toNat_setWidth, BitVec.toNat_setWidth]
        exact ⟨(Nat.mod_le _ _).trans inside, (Nat.mod_le _ _).trans low⟩
  · -- the pressure is taken for the position, whose row is zero
    have pair : pairRead s = ⟨0xfff#32, 0#32, s.x.setWidth 32⟩ := if_neg aligned
    simp only [pair, List.map_cons, List.map_nil] at taken
    refine iff_of_false (fun safe => ?_) fun all => aligned all.1
    exact safe.divides (acquireEvent_zero taken (Or.inr (Or.inl rfl)))

theorem touchscreenEvent_position {x y : Int} (buttons : BitVec 32) (enabled : s.tchen ≠ 0#8)
    (accepted : InScreen x y) :
    (jz4740TouchscreenEvent s x y buttons).1.x = touchScale x ∧
      (jz4740TouchscreenEvent s x y buttons).1.y = touchScale y ∧
      (jz4740TouchscreenEvent s x y buttons).1.readIndex = s.readIndex := by
  have raise : ∀ t : Jz4740Sadc, (jz4740TouchscreenInterrupt t).x = t.x ∧
      (jz4740TouchscreenInterrupt t).y = t.y ∧
      (jz4740TouchscreenInterrupt t).readIndex = t.readIndex := by
    intro t
    unfold jz4740TouchscreenInterrupt
    split
    · exact ⟨rfl, rfl, rfl⟩
    · split
      · exact ⟨rfl, rfl, rfl⟩
      · exact ⟨rfl, rfl, rfl⟩
  unfold jz4740TouchscreenEvent
  rw [if_pos accepted, if_neg enabled]
  dsimp only
  cases penEdge s buttons with
  | none => exact ⟨rfl, rfl, rfl⟩
  | some edge => exact raise _

theorem touchScale_toNat {x : Int} (pos : 0 < x) (inside : x < 32767) :
    ((touchScale x).toNat : Int) = touchSample x ∧ (touchScale x).toNat < 4096 := by
  have range : 0 ≤ x * 4096 / 32767 ∧ x * 4096 / 32767 < 4096 := by omega
  unfold touchScale touchSample
  rw [BitVec.toNat_ofInt, Int.tdiv_eq_ediv_of_nonneg (by omega), Int.emod_eq_of_lt range.1
    (range.2.trans (by decide))]
  omega

theorem touchScale_ne_zero_iff {x : Int} (pos : 0 < x) (inside : x < 32767) :
    touchScale x ≠ 0#16 ↔ 8 ≤ x := by
  have value := (touchScale_toNat pos inside).1
  unfold touchSample at value
  have zero_iff : touchScale x = 0#16 ↔ (touchScale x).toNat = 0 :=
    ⟨fun zero => congrArg (·.toNat) zero, fun zero => BitVec.eq_of_toNat_eq zero⟩
  rw [ne_eq, zero_iff]
  omega

end Safety

/-- Over every state of an enabled touch screen, every position the emulator accepts, every
number of reads of ADTCH and every calibration: the samples are safe for the driver exactly
when the reads so far come in pairs, both coordinates are at least 8 and the row fits. -/
theorem touch_samples_safe_iff {s : Jz4740Sadc} {x y : Int} (buttons : BitVec 32) (n : Nat)
    {sleepOn : Nat → Jz4740Sadc → Jz4740Sadc} {ts : JzTs} (v : SadcStatics)
    (enabled : s.tchen ≠ 0#8) (accepted : InScreen x y) (calibrated : Calibrated ts)
    (keeps : KeepsPosition sleepOn) :
    (∃ t, adtchReads n (jz4740TouchscreenEvent s x y buttons).1 = .ok t ∧
      TouchSafe sleepOn ts v t) ↔
    (s.readIndex = 0#8 ↔ Even n) ∧ 8 ≤ x ∧ 8 ≤ y ∧ RowFits ts (touchSample y) := by
  obtain ⟨posX, posY, insideX, insideY⟩ := accepted
  obtain ⟨at_x, at_y, turn⟩ :=
    touchscreenEvent_position buttons enabled ⟨posX, posY, insideX, insideY⟩
  obtain ⟨t, reads, x_eq, y_eq, aligned⟩ :=
    adtchReads_eq n (jz4740TouchscreenEvent s x y buttons).1
  rw [turn] at aligned
  have scaledX := touchScale_toNat posX insideX
  have scaledY := touchScale_toNat posY insideY
  rw [← at_x, ← x_eq] at scaledX
  rw [← at_y, ← y_eq] at scaledY
  have safe_iff := touchSafe_iff (v := v) keeps calibrated scaledX.2 scaledY.2
  rw [scaledY.1, aligned, x_eq, y_eq, at_x, at_y, touchScale_ne_zero_iff posX insideX,
    touchScale_ne_zero_iff posY insideY] at safe_iff
  rw [← safe_iff]
  constructor
  · rintro ⟨_, reads', safe⟩
    cases reads.symm.trans reads'
    exact safe
  · intro safe
    exact ⟨t, reads, safe⟩

/-- A touch screen that has just been enabled. -/
def enabledSadc : Jz4740Sadc := { jz4740SadcInit with adena := 4, tchen := 4 }

/-- The calibration the driver falls back to. -/
def defaultTs : JzTs where
  minx := 90
  miny := 105
  maxx := 945
  maxy := 830
  filter := true
  firstRead := true

def bootStatics : SadcStatics := ⟨true, 0, 0, 0, 0, 0⟩

theorem defaultTs_calibrated : Calibrated defaultTs := ⟨by decide, by decide, by decide⟩

/-- A touch in the middle of the screen. -/
theorem middle_touch_safe :
    ∃ t, adtchReads 2 (jz4740TouchscreenEvent enabledSadc 16000 3000 1).1 = .ok t ∧
      TouchSafe (fun _ s => s) defaultTs bootStatics t :=
  (touch_samples_safe_iff 1 2 bootStatics (by decide) (by decide) defaultTs_calibrated
    fun _ _ => ⟨rfl, rfl, rfl⟩).mpr
    ⟨iff_of_true rfl (by decide), by decide, by decide, Or.inr (Or.inr (by decide))⟩

/-- At column 7 the sample is 0 and the driver divides by it; at row 7200 the sample is 900,
past the rows but not past the columns, and is mapped to row 298 of 272. -/
theorem border_touch_unsafe :
    (∃ t, adtchReads 0 (jz4740TouchscreenEvent enabledSadc 7 7200 1).1 = .ok t ∧
      acquireEvent (fun _ s => s) defaultTs bootStatics t = .error .divideByZero ∧
      ¬ TouchSafe (fun _ s => s) defaultTs bootStatics t) ∧
    (∃ t t' ts' v' event, adtchReads 0 (jz4740TouchscreenEvent enabledSadc 16000 7200 1).1 = .ok t ∧
      acquireEvent (fun _ s => s) defaultTs bootStatics t = .ok (t', ts', v', some event) ∧
      event.y = 298 ∧ ¬ TouchSafe (fun _ s => s) defaultTs bootStatics t) := by
  have faults : acquireEvent (fun _ s => s) defaultTs bootStatics
      (jz4740TouchscreenEvent enabledSadc 7 7200 1).1 = .error .divideByZero := rfl
  obtain ⟨t', ts', v', event, maps, row⟩ : ∃ t' ts' v' event,
      acquireEvent (fun _ s => s) defaultTs bootStatics
        (jz4740TouchscreenEvent enabledSadc 16000 7200 1).1 = .ok (t', ts', v', some event) ∧
      event.y = 298 := ⟨_, _, _, _, rfl, rfl⟩
  constructor
  · exact ⟨_, rfl, faults, fun safe => safe.divides faults⟩
  · refine ⟨_, t', ts', v', event, rfl, maps, row, fun safe => ?_⟩
    have low := (safe.event _ _ _ _ maps rfl).2
    rw [row] at low
    exact absurd low (by decide)

end VirtualNoah
