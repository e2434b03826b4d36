import VirtualNoah.Nand.Image

/-!
# Transfers on the 8-bit bus

The phases every operation of the 8-bit chip is made of: address bytes into the
latch, data bytes into `io`, and data reads out of it.  `transfer` runs a list of
accesses and keeps the bytes the reads delivered.
-/

namespace VirtualNoah

open ByteStore Lanes StepRun

/-- Run the accesses and collect the bytes read. -/
def transfer (s : NandBflash) (ops : List BusOp) : Except Stop (NandBflash × List Byte) :=
  match busRun s ops with
  | .error e => .error e
  | .ok (t, out) => .ok (t, out.filterMap id)

/-- An address access with byte `n % 256`. -/
def addressByte (n : Nat) : BusOp := .address ((BitVec.ofNat 8 n).setWidth 16)

/-- The five address bytes of column `c` and page `p`. -/
def latchBytes (p c : Nat) : List BusOp :=
  [addressByte c, addressByte (c / 256), addressByte p, addressByte (p / 256),
    addressByte (p / 65536)]

variable {s t u : NandBflash} {op : BusOp} {ops ops' : List BusOp} {bytes bytes' : List Byte}

@[simp] theorem transfer_nil : transfer s [] = .ok (s, []) := rfl

theorem of_transfer (done : transfer s ops = .ok (t, bytes)) :
    ∃ out, busRun s ops = .ok (t, out) ∧ out.filterMap id = bytes := by
  unfold transfer at done
  split at done
  · cases done
  · next out completed =>
    cases done
    exact ⟨_, completed, rfl⟩

theorem transfer_append (first : transfer s ops = .ok (t, bytes))
    (second : transfer t ops' = .ok (u, bytes')) :
    transfer s (ops ++ ops') = .ok (u, bytes ++ bytes') := by
  obtain ⟨out, run₁, rfl⟩ := of_transfer first
  obtain ⟨out', run₂, rfl⟩ := of_transfer second
  simp only [transfer, busRun, run_append run₁ run₂, List.filterMap_append]

theorem transfer_cons {out : Option Byte} (head : busStep s op = .ok (t, out))
    (tail : transfer t ops = .ok (u, bytes)) :
    transfer s (op :: ops) = .ok (u, out.toList ++ bytes) := by
  obtain ⟨outs, rest, rfl⟩ := of_transfer tail
  simp only [transfer, busRun, run_cons head rest]
  cases out <;> rfl

/-- Once the first accesses have read nothing, the bytes are those of the others. -/
theorem of_transfer_append (first : transfer s ops = .ok (t, []))
    (whole : transfer s (ops ++ ops') = .ok (u, bytes)) : transfer t ops' = .ok (u, bytes) := by
  obtain ⟨out, run₁, none⟩ := of_transfer first
  obtain ⟨outs, run, rfl⟩ := of_transfer whole
  obtain ⟨t', out₁, out₂, run₁', run₂, rfl⟩ := of_run_append run
  cases run₁.symm.trans run₁'
  simp only [transfer, busRun, run₂, List.filterMap_append, none, List.nil_append]

/-- The first access of a transfer, and the rest of it. -/
theorem of_transfer_cons (whole : transfer s (op :: ops) = .ok (u, bytes)) :
    ∃ t out rest, busStep s op = .ok (t, out) ∧ transfer t ops = .ok (u, rest) ∧
      bytes = out.toList ++ rest := by
  obtain ⟨outs, run, rfl⟩ := of_transfer whole
  obtain ⟨t, out, rest, head, tail, rfl⟩ := of_run_cons run
  refine ⟨t, out, rest.filterMap id, head, by simp only [transfer, busRun, tail], ?_⟩
  cases out <;> rfl

/-! ## Address bytes -/

section Address

variable {n p c k : Nat} {low high : BitVec 32}

/-- The state with another latch. -/
def NandBflash.latch (s : NandBflash) (low high : BitVec 32) (cycle : Nat) : NandBflash :=
  { s with addrLow := low, addrHigh := high, addrCycle := cycle }

open NandBflash

@[simp] theorem latch_chip : (s.latch low high k).chip = s.chip := rfl

@[simp] theorem latch_addrLow : (s.latch low high k).addrLow = low := rfl

@[simp] theorem latch_addrHigh : (s.latch low high k).addrHigh = high := rfl

@[simp] theorem latch_addrCycle : (s.latch low high k).addrCycle = k := rfl

theorem setWidth_addressByte :
    ((BitVec.ofNat 8 n).setWidth 16).setWidth 32 = (BitVec.ofNat 8 n).setWidth 32 := by
  apply BitVec.eq_of_toNat_eq
  simp only [BitVec.toNat_setWidth, BitVec.toNat_ofNat]
  omega

theorem busStep_addressByte_low (eightBit : s.chip.info.busWidth = 1) (inside : k < 4) :
    busStep (s.latch low high k) (addressByte n) =
      .ok (s.latch (setLane low k ((BitVec.ofNat 8 n).setWidth 32)) high (k + 1), none) := by
  have latched : latchAddress (s.latch low high k) ((BitVec.ofNat 8 n).setWidth 16) =
      s.latch (setLane low k ((BitVec.ofNat 8 n).setWidth 32)) high k := by
    rw [latchAddress, if_pos (by exact inside), setWidth_addressByte]
    rfl
  simp only [addressByte, busStep, nandbWriteAddress, latched, scaleColumn, latch_chip, eightBit]
  rw [if_pos (by simp only [latch_addrCycle]; omega), if_neg (by simp)]
  rfl

theorem busStep_addressByte_high (eightBit : s.chip.info.busWidth = 1) :
    busStep (s.latch low high 4) (addressByte n) =
      .ok (s.latch low (setLane high 0 ((BitVec.ofNat 8 n).setWidth 32)) 5, none) := by
  have latched : latchAddress (s.latch low high 4) ((BitVec.ofNat 8 n).setWidth 16) =
      s.latch low (setLane high 0 ((BitVec.ofNat 8 n).setWidth 32)) 4 := by
    rw [latchAddress, if_neg (by simp), setWidth_addressByte]
    rfl
  simp only [addressByte, busStep, nandbWriteAddress, latched, scaleColumn, latch_chip, eightBit]
  rfl

/-- The address bytes put a run of lanes from `addr_cycle` on. -/
theorem setLane_four {x : BitVec 32} (b₀ b₁ b₂ b₃ : Byte) :
    setLane (setLane (setLane (setLane x 0 (b₀.setWidth 32)) 1 (b₁.setWidth 32)) 2
      (b₂.setWidth 32)) 3 (b₃.setWidth 32) = ofLanes b₀ b₁ b₂ b₃ := by
  obtain ⟨l₀, l₁, l₂, l₃⟩ := lane_ofLanes b₀ b₁ b₂ b₃
  apply eq_of_lanes
  intro j inside
  interval_cases j <;>
    simp only [lane_setLane, Nat.reduceLT, Nat.reduceEqDiff, if_true, if_false, l₀, l₁, l₂, l₃]

/-- The state after five address bytes: only the high bits of `addr_high` are
left of what the latch held before. -/
def NandBflash.latched (s : NandBflash) (p c : Nat) : NandBflash :=
  s.latch
    (ofLanes (BitVec.ofNat 8 c) (BitVec.ofNat 8 (c / 256)) (BitVec.ofNat 8 p)
      (BitVec.ofNat 8 (p / 256)))
    (setLane s.addrHigh 0 ((BitVec.ofNat 8 (p / 65536)).setWidth 32)) 5

theorem transfer_latchBytes (eightBit : s.chip.info.busWidth = 1) :
    transfer (s.latch low s.addrHigh 0) (latchBytes p c) = .ok (s.latched p c, []) := by
  rw [NandBflash.latched, ← setLane_four (x := low)]
  exact transfer_cons (busStep_addressByte_low eightBit (by decide)) <|
    transfer_cons (busStep_addressByte_low eightBit (by decide)) <|
    transfer_cons (busStep_addressByte_low eightBit (by decide)) <|
    transfer_cons (busStep_addressByte_low eightBit (by decide)) <|
    transfer_cons (busStep_addressByte_high eightBit) transfer_nil

/-- Two column bytes; the page bytes of the latch stay. -/
theorem transfer_columnBytes (eightBit : s.chip.info.busWidth = 1) :
    transfer (s.latch low high 0) [addressByte c, addressByte (c / 256)] = .ok (s.latch
      (setLane (setLane low 0 ((BitVec.ofNat 8 c).setWidth 32)) 1
        ((BitVec.ofNat 8 (c / 256)).setWidth 32)) high 2, []) :=
  transfer_cons (busStep_addressByte_low eightBit (by decide)) <|
    transfer_cons (busStep_addressByte_low eightBit (by decide)) transfer_nil

/-- The three page bytes of an erase. -/
theorem transfer_pageBytes (eightBit : s.chip.info.busWidth = 1) :
    transfer (s.latch low high 2)
        [addressByte p, addressByte (p / 256), addressByte (p / 65536)] = .ok (s.latch
      (setLane (setLane low 2 ((BitVec.ofNat 8 p).setWidth 32)) 3
        ((BitVec.ofNat 8 (p / 256)).setWidth 32))
      (setLane high 0 ((BitVec.ofNat 8 (p / 65536)).setWidth 32)) 5, []) :=
  transfer_cons (busStep_addressByte_low eightBit (by decide)) <|
    transfer_cons (busStep_addressByte_low eightBit (by decide)) <|
    transfer_cons (busStep_addressByte_high eightBit) transfer_nil

end Address

/-! ## What the latch addresses -/

theorem NandBflash.column_eq_lanes (s : NandBflash) :
    s.column = (lane s.addrLow 0).toNat + 256 * (lane s.addrLow 1).toNat := by
  have masked : s.column = s.addrLow.toNat % 65536 := toNat_and_low_half s.addrLow
  simp only [toNat_lane]
  omega

theorem NandBflash.page_eq_lanes (s : NandBflash) :
    s.page = (lane s.addrLow 2).toNat + 256 * (lane s.addrLow 3).toNat +
      65536 * (lane s.addrHigh 0).toNat + 2 ^ 24 * (lane s.addrHigh 1).toNat := by
  have bound := s.addrLow.isLt
  have page := s.page_eq
  simp only [toNat_lane]
  omega

/-- Bits 8 to 15 of `addr_high`, which no address byte reaches, are clear. -/
def LatchClean (s : NandBflash) : Prop := (lane s.addrHigh 1).toNat = 0

section Latched

variable {n p c k : Nat}

theorem lane_setLane_ofNat {x : BitVec 32} {j : Nat} (read : j < 4) (written : k < 4) :
    lane (setLane x k ((BitVec.ofNat 8 n).setWidth 32)) j =
      if j = k then BitVec.ofNat 8 n else lane x j :=
  lane_setLane read written

/-- Two address bytes in a row. -/
theorem lane_setLane_two {x : BitVec 32} {m j : Nat} (read : j < 4) (written : k + 1 < 4) :
    lane (setLane (setLane x k ((BitVec.ofNat 8 n).setWidth 32)) (k + 1)
        ((BitVec.ofNat 8 m).setWidth 32)) j =
      if j = k + 1 then BitVec.ofNat 8 m else if j = k then BitVec.ofNat 8 n else lane x j := by
  rw [lane_setLane_ofNat read written, lane_setLane_ofNat read (Nat.lt_of_succ_lt written)]

theorem column_of_lanes (small : c < 65536) (lane₀ : lane s.addrLow 0 = BitVec.ofNat 8 c)
    (lane₁ : lane s.addrLow 1 = BitVec.ofNat 8 (c / 256)) : s.column = c := by
  rw [s.column_eq_lanes, lane₀, lane₁]
  simp only [BitVec.toNat_ofNat]
  omega

/-- Above the three page bytes stand bits 8 to 15 of `addr_high`. -/
theorem page_of_lanes (small : p < 2 ^ 24) (lane₂ : lane s.addrLow 2 = BitVec.ofNat 8 p)
    (lane₃ : lane s.addrLow 3 = BitVec.ofNat 8 (p / 256))
    (lane₄ : lane s.addrHigh 0 = BitVec.ofNat 8 (p / 65536)) :
    s.page = p + 2 ^ 24 * (lane s.addrHigh 1).toNat := by
  rw [s.page_eq_lanes, lane₂, lane₃, lane₄]
  simp only [BitVec.toNat_ofNat]
  omega

theorem latched_column (column : c < 65536) : (s.latched p c).column = c := by
  obtain ⟨l₀, l₁, -, -⟩ := lane_ofLanes (BitVec.ofNat 8 c) (BitVec.ofNat 8 (c / 256))
    (BitVec.ofNat 8 p) (BitVec.ofNat 8 (p / 256))
  exact column_of_lanes column l₀ l₁

/-- No address byte reaches bits 8 to 15 of `addr_high`. -/
theorem latched_lane : lane (s.latched p c).addrHigh 1 = lane s.addrHigh 1 := by
  rw [NandBflash.latched, latch_addrHigh, lane_setLane_ofNat (by decide) (by decide)]
  rfl

/-- Five address bytes address their page only in a clean latch. -/
theorem latched_page (page : p < 2 ^ 24) :
    (s.latched p c).page = p + 2 ^ 24 * (lane s.addrHigh 1).toNat := by
  obtain ⟨-, -, l₂, l₃⟩ := lane_ofLanes (BitVec.ofNat 8 c) (BitVec.ofNat 8 (c / 256))
    (BitVec.ofNat 8 p) (BitVec.ofNat 8 (p / 256))
  rw [← latched_lane]
  refine page_of_lanes page l₂ l₃ ?_
  rw [NandBflash.latched, latch_addrHigh, lane_setLane_ofNat (by decide) (by decide)]
  rfl

end Latched

/-! ## Data -/

section Data

variable {k n : Nat} {d : List Byte}

theorem transfer_writeData (programming : s.cmd = 0x80#16) (length : s.iolen = k)
    (fits : k + d.length ≤ s.chip.pageOobSize) :
    transfer s (d.map .writeData8) = .ok ({ s with
      io := blit s.io k (listBuf d) d.length, iolen := (k + d.length : Nat) }, []) := by
  induction d generalizing s k with
  | nil =>
    simp only [List.map_nil, transfer_nil, List.length_nil, blit_zero_len, Nat.add_zero, ← length]
  | cons b d ih =>
    simp only [List.length_cons] at fits
    have page := s.chip.pageOobSize_eq
    have step : busStep s (.writeData8 b) =
        .ok ({ s with io := Function.update s.io k b, iolen := (k + 1 : Nat) }, none) := by
      have small : (BitVec.ofInt 32 s.iolen).toNat = k := by
        rw [length, BitVec.ofInt_natCast, BitVec.toNat_ofNat]
        omega
      simp only [busStep, nandbWriteData8, small]
      rw [if_pos ⟨programming, by omega⟩, if_pos ⟨by omega, by rw [ioSize_eq]; omega⟩, length]
      rfl
    have rest := @ih { s with io := Function.update s.io k b, iolen := (k + 1 : Nat) } (k + 1)
      programming rfl (by dsimp only; omega)
    have joined : blit (Function.update s.io k b) (k + 1) (listBuf d) d.length =
        blit s.io k (listBuf (b :: d)) (d.length + 1) := by
      rw [← blit_update, listBuf_cons_zero, shift_listBuf_cons]
    rw [List.map_cons, transfer_cons step rest]
    dsimp only
    rw [joined, List.length_cons, Nat.add_assoc, Nat.add_comm 1]
    rfl

/-- Outside 0x80, and once a page is full, a data byte is dropped. -/
theorem transfer_dropData (dropped : s.cmd ≠ 0x80#16 ∨ s.iolen = s.chip.pageOobSize) :
    transfer s (d.map .writeData8) = .ok (s, []) := by
  induction d with
  | nil => rfl
  | cons b d ih =>
    have step : busStep s (.writeData8 b) = .ok (s, none) := by
      have other : ¬ (s.cmd = 0x80#16 ∧
          (BitVec.ofInt 32 s.iolen).toNat < s.chip.pageOobSize) := by
        intro stored
        rcases dropped with outside | full
        · exact outside stored.1
        · have small := stored.2
          rw [full, s.chip.pageOobSize_eq, BitVec.ofInt_natCast, BitVec.toNat_ofNat] at small
          omega
      simp only [busStep, nandbWriteData8]
      rw [if_neg other]
      rfl
    exact transfer_cons step ih

/-- Data of any length: what does not fit in a page is dropped, wherever it starts. -/
theorem transfer_writeLong (programming : s.cmd = 0x80#16) (start : s.iolen = 0) :
    transfer s (d.map .writeData8) = .ok ({ s with
      io := blit s.io 0 (listBuf d) (min d.length s.chip.pageOobSize)
      iolen := (min d.length s.chip.pageOobSize : Nat) }, []) := by
  let n := min d.length s.chip.pageOobSize
  have taken : (d.take n).length = n := by
    rw [List.length_take]
    omega
  have stored := @transfer_writeData s 0 (d.take n) programming start (by omega)
  rw [taken, Nat.zero_add] at stored
  have same : ∀ i, i < n → listBuf (d.take n) i = listBuf d i := by
    intro i inside
    rw [listBuf, listBuf, List.getD_eq_getElem?_getD, List.getD_eq_getElem?_getD,
      List.getElem?_take_of_lt inside]
  rw [blit_congr same] at stored
  have rest : transfer { s with io := blit s.io 0 (listBuf d) n, iolen := (n : Nat) }
      ((d.drop n).map .writeData8) =
        .ok ({ s with io := blit s.io 0 (listBuf d) n, iolen := (n : Nat) }, []) := by
    by_cases fits : d.length ≤ s.chip.pageOobSize
    · rw [List.drop_eq_nil_of_le (by omega)]
      rfl
    · exact transfer_dropData (Or.inr (by dsimp only; omega))
  have whole := transfer_append stored rest
  rw [← List.map_append, List.take_append_drop] at whole
  exact whole

/-- As long as something is left to read, no page is loaded. -/
theorem transfer_readData (cursor : s.ioaddr = some k) (data : s.cmd ≠ 0x70#16)
    (length : n ≤ s.iolen) (room : k + n ≤ ioSize) :
    transfer s (List.replicate n .readData8) = .ok ({ s with
      iolen := s.iolen - n, ioaddr := some (k + n) },
      (List.range n).map fun i => s.io (k + i)) := by
  induction n generalizing s k with
  | zero =>
    simp only [List.replicate_zero, transfer_nil, List.range_zero, List.map_nil, Nat.add_zero,
      ← cursor, Int.ofNat_zero, Int.sub_zero]
  | succ n ih =>
    have step : busStep s .readData8 =
        .ok ({ s with iolen := s.iolen - 1, ioaddr := some (k + 1) }, some (s.io k)) := by
      have refill : nandbRefill s = s := if_neg fun cached => by omega
      simp only [busStep, nandbReadData8, refill, cursor]
      rw [if_neg (by omega), if_pos (by omega), if_pos data]
      rfl
    have rest := @ih { s with iolen := s.iolen - 1, ioaddr := some (k + 1) } (k + 1) rfl data
      (by dsimp only; omega) (by omega)
    have bytes : (List.range (n + 1)).map (fun i => s.io (k + i)) =
        s.io k :: (List.range n).map fun i => s.io (k + 1 + i) := by
      rw [List.range_succ_eq_map, List.map_cons, List.map_map, Nat.add_zero]
      congr 1
      refine List.map_congr_left fun i _ => ?_
      rw [Function.comp_apply, Nat.succ_eq_add_one, Nat.add_assoc, Nat.add_comm 1 i]
    have length : s.iolen - 1 - (n : Nat) = s.iolen - (n + 1 : Nat) := by omega
    rw [List.replicate_succ, transfer_cons step rest, bytes]
    dsimp only
    rw [length, Nat.add_assoc, Nat.add_comm 1 n]
    rfl

theorem busStep_load {value : BitVec 16} (load : value = 0x30#16 ∨ value = 0xe0#16) :
    busStep s (.command value) = .ok ({ nandbLoadPage s with cmd := value }, none) := by
  rcases load with rfl | rfl <;> rfl

/-- Data reads inside a loaded page deliver the bytes of the image from the latch
on.  No sector window is needed: the prefix of a short read is all that is
offered. -/
theorem transfer_loadedPage {value : BitVec 16} (data : value ≠ 0x70#16)
    (size : s.chip.imageSize ≤ s.bdrv.size) (present : s.page < s.chip.pages)
    (within : s.column + n ≤ s.chip.pageOobSize) :
    transfer { nandbLoadPage s with cmd := value } (List.replicate n .readData8) =
      .ok ({ nandbLoadPage s with
        cmd := value
        iolen := (s.chip.pageOobSize - s.column - n : Nat)
        ioaddr := some (s.offset % 0x200 + n) },
        (List.range n).map fun i => s.bdrv.byte (s.offset + i)) := by
  have page := s.chip.pageOobSize_eq
  have image := s.chip.imageSize_eq.1
  have sector : s.offset % 0x200 < 0x200 := Nat.mod_lt _ (by decide)
  have length : (nandbLoadPage s).iolen = (s.chip.pageOobSize - s.column : Nat) := by
    rw [nandbLoadPage_eq present]
    exact s.loadLength_eq (by omega)
  have reads := @transfer_readData { nandbLoadPage s with cmd := value } (s.offset % 0x200) n
    (by rw [nandbLoadPage_eq present]) data (by dsimp only; omega) (by rw [ioSize_eq]; omega)
  have bytes : (List.range n).map (fun i => (nandbLoadPage s).io (s.offset % 0x200 + i)) =
      (List.range n).map fun i => s.bdrv.byte (s.offset + i) := by
    refine List.map_congr_left fun i wanted => ?_
    rw [List.mem_range] at wanted
    have offset : s.offset = s.page * s.chip.pageOobSize + s.column := rfl
    rw [page] at offset
    exact nandbLoadPage_io present (by omega) (by omega)
  have left : (nandbLoadPage s).iolen - n = (s.chip.pageOobSize - s.column - n : Nat) := by omega
  dsimp only at reads
  rw [bytes, left] at reads
  exact reads

theorem transfer_loaded {value : BitVec 16} (load : value = 0x30#16 ∨ value = 0xe0#16)
    (size : s.chip.imageSize ≤ s.bdrv.size) (present : s.page < s.chip.pages)
    (within : s.column + n ≤ s.chip.pageOobSize) :
    ∃ t, transfer { nandbLoadPage s with cmd := value } (List.replicate n .readData8) =
        .ok (t, (List.range n).map fun i => s.bdrv.byte (s.offset + i)) ∧
      t.bdrv = s.bdrv ∧ t.chip = s.chip ∧ t.addrLow = s.addrLow ∧ t.addrHigh = s.addrHigh := by
  have data : value ≠ 0x70#16 := by rcases load with rfl | rfl <;> decide
  refine ⟨_, transfer_loadedPage data size present within, ?_⟩
  rw [nandbLoadPage_eq present]
  exact ⟨rfl, rfl, rfl, rfl⟩

end Data

end VirtualNoah
