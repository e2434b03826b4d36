import VirtualNoah.Soc.LcdDraw

/-!
# What a line shows

The line functions of the palette draw the pixels of whole source bytes, so they
show a line as it is when the width is a whole number of bytes and not zero.  The
loop of `draw_line24_` advances by three bytes where a pixel takes four, so only its
first pixel is that of the source.  At 24 bits a store is one byte longer than a
pixel.
-/

namespace VirtualNoah

open ByteStore DoWhile Lanes

/-! ## Pixels of a brush -/

/-- `m` pixels have been drawn from `d` on. -/
structure Drawn (depth : Depth) (pixel : Nat → BitVec 32) (d m : Nat) (b : Brush) : Prop where
  place : b.d = d + m * depth.bytes
  pixels : ∀ k < m, ∀ j < depth.bytes, b.surface (d + k * depth.bytes + j) = lane (pixel k) j

/-- A line about to be drawn. -/
def lineStart (d s : Nat) (surface : Buf) : Brush := ⟨d, s, surface, []⟩

section Drawn

variable {depth : Depth} {pixel : Nat → BitVec 32} {b : Brush} {d s m n : Nat} {surface : Buf}
  {color : BitVec 32}

theorem Depth.bytes_le_pixelType (depth : Depth) : depth.bytes ≤ depth.pixelType := by
  cases depth <;> decide

theorem drawn_start : Drawn depth pixel d 0 (lineStart d s surface) :=
  ⟨(Nat.add_zero d).symm.trans (congrArg (d + ·) (Nat.zero_mul _).symm),
    fun _ none => absurd none (Nat.not_lt_zero _)⟩

/-- A pixel more; the store may reach into the next one, which is drawn later. -/
theorem Drawn.put (drawn : Drawn depth pixel d m b) (same : pixel m = color) :
    Drawn depth pixel d (m + 1) (b.put depth color) := by
  obtain ⟨place, pixels⟩ := drawn
  have wide := depth.bytes_le_pixelType
  refine ⟨?_, fun k inside j part => ?_⟩
  · rw [put_d, place, Nat.succ_mul, Nat.add_assoc]
  · rcases Nat.lt_succ_iff_lt_or_eq.mp inside with lower | rfl
    · have before : (k + 1) * depth.bytes ≤ m * depth.bytes := Nat.mul_le_mul_right _ lower
      rw [Nat.succ_mul] at before
      refine (blit_outside (Or.inl ?_)).trans (pixels k lower j part)
      rw [place]
      omega
    · refine (blit_inside ?_ ?_).trans ?_
      · rw [place]
        omega
      · rw [place]
        omega
      · rw [place, same, Nat.add_sub_cancel_left]

theorem Drawn.load {len : Nat} (drawn : Drawn depth pixel d m b) :
    Drawn depth pixel d m (b.load len) :=
  ⟨drawn.place, drawn.pixels⟩

theorem Drawn.moveTo {place : Nat} (drawn : Drawn depth pixel d m b) :
    Drawn depth pixel d m { b with s := place } :=
  ⟨drawn.place, drawn.pixels⟩

theorem Drawn.foldl {color : Nat → BitVec 32} {count : Nat} (drawn : Drawn depth pixel d m b)
    (same : ∀ j < count, pixel (m + j) = color j) :
    Drawn depth pixel d (m + count)
      ((List.range count).foldl (fun b j => b.put depth (color j)) b) := by
  induction count with
  | zero => exact drawn
  | succ count ih =>
    rw [List.range_succ, List.foldl_append]
    exact (ih fun j lower => same j (Nat.lt_succ_of_lt lower)).put
      (same count (Nat.lt_succ_self count))

/-- Passes that draw `count` pixels each. -/
theorem Drawn.iterate {body : Brush → Brush} {p : LinePass} (spec : PassSpec p depth body)
    (pass : ∀ i b, b.s = s + i * p.stride → Drawn depth pixel d (i * p.pixels) b →
      Drawn depth pixel d (i * p.pixels + p.pixels) (body b)) (n : Nat) :
    Drawn depth pixel d (n * p.pixels) (body^[n] (lineStart d s surface)) := by
  induction n with
  | zero =>
    rw [Nat.zero_mul]
    exact drawn_start
  | succ n ih =>
    rw [Function.iterate_succ_apply', Nat.succ_mul]
    exact pass n _ spec.iterate.2.1 ih

end Drawn

/-! ## The palette -/

/-- The bits of a pixel that goes through the palette. -/
inductive PaletteBits where
  | two | four | eight

def PaletteBits.bits : PaletteBits → Nat
  | .two => 2
  | .four => 4
  | .eight => 8

/-- The pixels of a source byte. -/
def PaletteBits.count : PaletteBits → Nat
  | .two => 4
  | .four => 2
  | .eight => 1

def PaletteBits.line : PaletteBits → LineBits
  | .two => .line2
  | .four => .line4
  | .eight => .line8

/-- What a pass takes off the width. -/
def PaletteBits.left : PaletteBits → BitVec 32 → BitVec 32
  | .two => subtract 4
  | .four => subtract 2
  | .eight => decrement

/-- The test after a pass. -/
def PaletteBits.again : PaletteBits → BitVec 32 → Bool
  | .two | .four => positive
  | .eight => nonzero

/-- The palette entry of pixel `k`: bits `b * (k mod (8/b))` on of source byte
`floor(k * b / 8)`. -/
def paletteEntry (p : PaletteBits) (ram : Buf) (s k : Nat) : Nat :=
  ((ram (s + k * p.bits / 8)).extractLsb' (p.bits * (k % (8 / p.bits))) p.bits).toNat

/-- `draw_line2_`, `draw_line4_` or `draw_line8_` of a depth, on a line that starts at `d`
from the source at `s`. -/
def paletteLine (p : PaletteBits) (depth : Depth) (ram pal : Buf) (width : BitVec 32)
    (d s : Nat) (surface : Buf) : Brush :=
  (LineFn.mk depth p.line).draw ram pal width (lineStart d s surface)

/-- The loop ends by its test, every pixel of the line shows its palette entry, and
nothing behind the line is written or read. -/
structure PaletteExact (p : PaletteBits) (depth : Depth) (ram pal : Buf) (width : BitVec 32)
    (d s : Nat) (surface : Buf) : Prop where
  ends : ∃ n ≤ lineFuel, EndsAfter p.left p.again width n
  pixels : ∀ k < width.toNat, ∀ j < depth.bytes,
    (paletteLine p depth ram pal width d s surface).surface (d + k * depth.bytes + j) =
      lane (palPixel depth pal (paletteEntry p ram s k)) j
  stores : ∀ start len,
    .store start len ∈ (paletteLine p depth ram pal width d s surface).log →
      d ≤ start ∧ start + len ≤ d + width.toNat * depth.bytes
  loads : ∀ start len,
    .source start len ∈ (paletteLine p depth ram pal width d s surface).log →
      s ≤ start ∧ start + len ≤ s + (width.toNat * p.bits + 7) / 8

section Palette

variable {p : PaletteBits} {depth : Depth} {ram pal surface : Buf} {width : BitVec 32}
  {d s n : Nat} {e : LcdAccess}

theorem paletteLine_eq : paletteLine p depth ram pal width d s surface =
    (palettePass depth p.bits p.count ram pal)^[DoWhile.passes p.left p.again lineFuel width]
      (lineStart d s surface) := by
  rw [← doWhile_eq_iterate]
  cases p <;> rfl

theorem toNat_lt_of_nonneg (nonneg : 0 ≤ width.toInt) : width.toNat < 2 ^ 31 := by
  have bound := width.isLt
  rw [BitVec.toInt_eq_toNat_cond] at nonneg
  split at nonneg
  · omega
  · omega

/-- A width that is not zero takes as many passes as it has source bytes. -/
theorem passes_palette (nonneg : 0 ≤ width.toInt) (some : width ≠ 0#32) :
    DoWhile.passes p.left p.again lineFuel width = (width.toNat + p.count - 1) / p.count := by
  have small := toNat_lt_of_nonneg nonneg
  have pos : width.toNat ≠ 0 := fun zero => some (BitVec.eq_of_toNat_eq zero)
  have fuel : width.toNat < lineFuel := Nat.lt_trans small (by decide)
  cases p with
  | two =>
    refine (passes_subtract (by decide) (by decide) small fuel).trans ?_
    exact Nat.max_eq_right (show 1 ≤ (width.toNat + 4 - 1) / 4 by omega)
  | four =>
    refine (passes_subtract (by decide) (by decide) small fuel).trans ?_
    exact Nat.max_eq_right (show 1 ≤ (width.toNat + 2 - 1) / 2 by omega)
  | eight =>
    refine (passes_decrement some (Nat.le_of_lt fuel)).trans ?_
    rw [PaletteBits.count, Nat.add_sub_cancel, Nat.div_one]

theorem PaletteBits.count_pos (p : PaletteBits) : 0 < p.count := by cases p <;> decide

/-- What a line touches: its source bytes and its pixels. -/
theorem mem_paletteLine_log (passes : DoWhile.passes p.left p.again lineFuel width = n) :
    e ∈ (paletteLine p depth ram pal width d s surface).log ↔
      (∃ i < n, e = .source (s + i) 1) ∨
        ∃ k < n * p.count, e = .store (d + k * depth.bytes) depth.pixelType := by
  rw [paletteLine_eq, passes, (palettePass_spec p.bits p.count).iterate.2.2 e]
  simp only [lineStart, List.not_mem_nil, false_or, LinePass.Touches, Nat.mul_one]
  have some := p.count_pos
  constructor
  · rintro ⟨i, pass, rfl | ⟨j, part, rfl⟩⟩
    · exact Or.inl ⟨i, pass, rfl⟩
    · have upper : i * p.count + p.count ≤ n * p.count :=
        Nat.succ_mul i p.count ▸ Nat.mul_le_mul_right _ pass
      refine Or.inr ⟨i * p.count + j, by omega, ?_⟩
      rw [Nat.add_mul, Nat.mul_assoc, Nat.add_assoc]
  · rintro (⟨i, pass, rfl⟩ | ⟨k, inside, rfl⟩)
    · exact ⟨i, pass, Or.inl rfl⟩
    · refine ⟨k / p.count, Nat.div_lt_of_lt_mul (Nat.mul_comm n _ ▸ inside),
        Or.inr ⟨k % p.count, Nat.mod_lt k some, ?_⟩⟩
      rw [← Nat.mul_assoc, Nat.add_assoc, ← Nat.add_mul, Nat.div_add_mod']

/-- The pixels of a pass are those of its source byte. -/
theorem paletteEntry_pass {i j : Nat} (part : j < p.count) :
    (ram (s + i) >>> (p.bits * j)).toNat % 2 ^ p.bits = paletteEntry p ram s (i * p.count + j) := by
  have byte : (i * p.count + j) * p.bits / 8 = i := by
    cases p <;> simp only [PaletteBits.count, PaletteBits.bits] at part ⊢ <;> omega
  have place : (i * p.count + j) % (8 / p.bits) = j := by
    cases p <;> simp only [PaletteBits.count, PaletteBits.bits] at part ⊢ <;> omega
  rw [paletteEntry, byte, place, BitVec.extractLsb'_toNat, BitVec.toNat_ushiftRight]

theorem paletteLine_drawn (passes : DoWhile.passes p.left p.again lineFuel width = n) :
    Drawn depth (fun k => palPixel depth pal (paletteEntry p ram s k)) d (n * p.count)
      (paletteLine p depth ram pal width d s surface) := by
  rw [paletteLine_eq, passes]
  refine Drawn.iterate (s := s) (palettePass_spec p.bits p.count) (fun i b source drawn => ?_) n
  refine Drawn.moveTo (drawn.load.foldl fun j part => ?_)
  rw [source, Nat.mul_one, paletteEntry_pass part]

/-- The passes of a line draw all of it, and read its source bytes. -/
theorem passes_cover (nonneg : 0 ≤ width.toInt) (some : width ≠ 0#32)
    (passes : DoWhile.passes p.left p.again lineFuel width = n) :
    width.toNat ≤ n * p.count ∧ n = (width.toNat * p.bits + 7) / 8 := by
  rw [passes_palette nonneg some] at passes
  cases p <;> simp only [PaletteBits.count, PaletteBits.bits] at passes ⊢ <;> omega

/-- The last store of a line decides whether it stays in the line. -/
theorem last_store_iff (some : 0 < n) (whole : width.toNat ≤ n) :
    (n - 1) * depth.bytes + depth.pixelType ≤ width.toNat * depth.bytes ↔
      n = width.toNat ∧ depth ≠ .d24 := by
  cases depth <;> simp only [Depth.bytes, Depth.pixelType, ne_eq, reduceCtorEq, not_true,
    not_false_iff, and_true, and_false, iff_false] <;> omega

/-- A line that stays in its pixels has some, those of whole bytes. -/
theorem PaletteExact.condition (nonneg : 0 ≤ width.toInt)
    (exact : PaletteExact p depth ram pal width d s surface) :
    width ≠ 0#32 ∧ width.toNat % p.count = 0 ∧ depth ≠ .d24 := by
  have drawn : 0 < DoWhile.passes p.left p.again lineFuel width * p.count :=
    Nat.mul_pos passes_pos p.count_pos
  have last := (exact.stores _ _ ((mem_paletteLine_log rfl).mpr
    (Or.inr ⟨_, Nat.sub_one_lt_of_lt drawn, rfl⟩))).2
  rw [Nat.add_assoc, Nat.add_le_add_iff_left] at last
  have some : width ≠ 0#32 := by
    rintro rfl
    rw [BitVec.toNat_zero, Nat.zero_mul] at last
    cases depth <;> exact absurd last (Nat.not_le_of_lt (Nat.add_pos_right _ (by decide)))
  obtain ⟨same, depth⟩ := (last_store_iff drawn (passes_cover nonneg some rfl).1).mp last
  exact ⟨some, same ▸ Nat.mul_mod_left _ _, depth⟩

/-- For every width that is not negative, and every source, palette and depth: a palette
line is exact when the width is a whole number of source bytes, not zero, and the depth is
not 24, and only then. -/
theorem palette_line_exact_iff (p : PaletteBits) (depth : Depth) (ram pal : Buf) (d s : Nat)
    (surface : Buf) (nonneg : 0 ≤ width.toInt) :
    PaletteExact p depth ram pal width d s surface ↔
      width ≠ 0#32 ∧ width.toNat % p.count = 0 ∧ depth ≠ .d24 := by
  refine ⟨PaletteExact.condition nonneg, ?_⟩
  rintro ⟨some, whole, flush⟩
  have small := toNat_lt_of_nonneg nonneg
  obtain ⟨n, passes⟩ : ∃ n, DoWhile.passes p.left p.again lineFuel width = n := ⟨_, rfl⟩
  obtain ⟨covered, bytes⟩ := passes_cover nonneg some passes
  have pixels : n * p.count = width.toNat := by
    have ceiling := passes.symm.trans (passes_palette nonneg some)
    cases p <;> simp only [PaletteBits.count] at ceiling whole ⊢ <;> omega
  have below : n < lineFuel := by
    have : n ≤ width.toNat := pixels ▸ Nat.le_mul_of_pos_right n p.count_pos
    exact Nat.lt_of_le_of_lt this (Nat.lt_trans small (by decide))
  refine ⟨⟨n, Nat.le_of_lt below, ?_⟩, ?_, fun start len stored => ?_, fun start len read => ?_⟩
  · rw [← passes] at below ⊢
    exact endsAfter_passes below
  · exact pixels ▸ (paletteLine_drawn passes).pixels
  · rcases (mem_paletteLine_log passes).mp stored with ⟨i, -, other⟩ | ⟨k, inside, same⟩
    · cases other
    · cases same
      have upper : (k + 1) * depth.bytes ≤ width.toNat * depth.bytes :=
        Nat.mul_le_mul_right _ (pixels ▸ inside)
      have pixel : depth.pixelType = depth.bytes := by
        cases depth <;> first | rfl | exact absurd rfl flush
      rw [Nat.succ_mul] at upper
      exact ⟨Nat.le_add_right _ _, by omega⟩
  · rcases (mem_paletteLine_log passes).mp read with ⟨i, inside, same⟩ | ⟨k, -, other⟩
    · cases same
      exact ⟨Nat.le_add_right _ _, by omega⟩
    · cases other

/-- Two bytes of four pixels each: entries 0 to 3, and 3 to 0. -/
def upAndDown : Buf := listBuf [0xe4, 0x1b]

/-- The entries 0x123, 0x456, 0x789 and 0xabc. -/
def fourColours : Buf := listBuf [0x23, 0x01, 0x56, 0x04, 0x89, 0x07, 0xbc, 0x0a]

/-- Eight pixels of two bits each, drawn from place 4 of a surface on, and their blue. -/
theorem two_bytes_exact :
    0 ≤ (8#32).toInt ∧ PaletteExact .two .d32 upAndDown fourColours 8 4 0 (fill 0xaa) ∧
      (List.range 8).map (fun k => (paletteLine .two .d32 upAndDown fourColours 8 4 0
        (fill 0xaa)).surface (4 + k * 4)) = [0x30, 0x60, 0x90, 0xc0, 0xc0, 0x90, 0x60, 0x30] := by
  have nonneg : 0 ≤ (8#32).toInt := by decide
  have exact := (palette_line_exact_iff .two .d32 upAndDown fourColours 4 0 (fill 0xaa)
    nonneg).mpr ⟨by decide, by decide, nofun⟩
  refine ⟨nonneg, exact, ?_⟩
  have first : ∀ k ∈ List.range 8, (paletteLine .two .d32 upAndDown fourColours 8 4 0
      (fill 0xaa)).surface (4 + k * 4) =
        lane (palPixel .d32 fourColours (paletteEntry .two upAndDown 0 k)) 0 :=
    fun k inside => exact.pixels k (List.mem_range.mp inside) 0 (by decide)
  rw [List.map_congr_left first]
  decide

/-- A pixel of two bits is drawn with its three neighbours. -/
theorem single_pixel_overdrawn :
    0 ≤ (1#32).toInt ∧ ¬ PaletteExact .two .d32 (fill 0xe4) (fill 0) 1 0 0 (fill 0) :=
  ⟨by decide, fun exact => absurd (exact.condition (by decide)).2.1 (by decide)⟩

end Palette

/-! ## True colour -/

/-- The red, green and blue of a source word in the format of the display. -/
def trueColour (depth : Depth) (v : BitVec 32) : BitVec 32 :=
  rgbToPixel depth (((v >>> 16) &&& 0xff#32).setWidth 8) (((v >>> 8) &&& 0xff#32).setWidth 8)
    (((v >>> 0) &&& 0xff#32).setWidth 8)

/-- `draw_line24_` of a depth, on a line that starts at `d` from the source at `s`. -/
def trueColourLine (depth : Depth) (ram : Buf) (width : BitVec 32) (d s : Nat) (surface : Buf) :
    Brush :=
  drawLine24 depth ram width (lineStart d s surface)

/-- A byte of the source that the line reads. -/
def ReadsSource (log : List LcdAccess) (i : Nat) : Prop :=
  ∃ start len, .source start len ∈ log ∧ start ≤ i ∧ i < start + len

/-- Pixel `k` is loaded from source word `k` and shows its colours, the copy for a depth of
32 has that word there, and the bytes read are those of the row. -/
structure TrueColourAgrees (depth : Depth) (ram : Buf) (width : BitVec 32) (d s : Nat)
    (surface : Buf) : Prop where
  words : ∀ start len, .source start len ∈ (trueColourLine depth ram width d s surface).log ↔
    ∃ k < width.toNat, start = s + 4 * k ∧ len = 4
  pixels : ∀ k < width.toNat, ∀ j < depth.bytes,
    (trueColourLine depth ram width d s surface).surface (d + k * depth.bytes + j) =
      lane (trueColour depth (load32 ram (s + 4 * k))) j
  copied : ∀ k < width.toNat, ∀ j < 4,
    (trueColourLine .d32 ram width d s surface).surface (d + 4 * k + j) =
      lane (load32 ram (s + 4 * k)) j
  consumed : ∀ i, ReadsSource (trueColourLine depth ram width d s surface).log i ↔
    s ≤ i ∧ i < s + ((width * 32#32) >>> 3).toNat

/-- Pixel `k` is that of the word at byte `3 * k`, and the line ends at `3 * width`. -/
structure TrueColourDrawn (depth : Depth) (ram : Buf) (width : BitVec 32) (d s : Nat)
    (surface : Buf) : Prop where
  pixels : ∀ k < width.toNat, ∀ j < depth.bytes,
    (trueColourLine depth ram width d s surface).surface (d + k * depth.bytes + j) =
      lane (trueColour depth (load32 ram (s + 3 * k))) j
  words : ∀ start len, .source start len ∈ (trueColourLine depth ram width d s surface).log ↔
    ∃ k < width.toNat, start = s + 3 * k ∧ len = 4
  ends : (trueColourLine depth ram width d s surface).s = s + 3 * width.toNat

section TrueColour

variable {depth : Depth} {ram surface : Buf} {width : BitVec 32} {d s : Nat}

theorem trueColourLine_eq (other : depth ≠ .d32) (pos : 0 < width.toInt) :
    trueColourLine depth ram width d s surface =
      (pass24 depth ram)^[width.toNat] (lineStart d s surface) := by
  have some : width ≠ 0#32 := by
    rintro rfl
    exact absurd pos (by decide)
  have fuel : width.toNat ≤ lineFuel :=
    Nat.le_of_lt (Nat.lt_trans (toNat_lt_of_nonneg (Int.le_of_lt pos)) (by decide))
  rw [trueColourLine, drawLine24, if_neg other, doWhile_eq_iterate, passes_decrement some fuel]

theorem trueColourLine_drawn (other : depth ≠ .d32) (pos : 0 < width.toInt) :
    TrueColourDrawn depth ram width d s surface := by
  have spec : PassSpec ⟨4, 3, 1⟩ depth (pass24 depth ram) := pass24_spec
  have drawn : Drawn depth (fun k => trueColour depth (load32 ram (s + 3 * k))) d
      (width.toNat * 1) ((pass24 depth ram)^[width.toNat] (lineStart d s surface)) := by
    refine Drawn.iterate (s := s) spec (fun i b source drawn => ?_) width.toNat
    refine Drawn.moveTo (drawn.load.put (Eq.trans ?_ (trueColour.eq_1 depth (load32 ram b.s))))
    rw [source, Nat.mul_one, Nat.mul_comm 3 i]
  obtain ⟨-, ends, log⟩ := spec.iterate (n := width.toNat) (b := lineStart d s surface)
  constructor
  · rw [trueColourLine_eq other pos]
    exact fun k inside => drawn.pixels k (inside.trans_eq (Nat.mul_one _).symm)
  · intro start len
    rw [trueColourLine_eq other pos, log]
    simp only [lineStart, List.not_mem_nil, false_or, LinePass.Touches]
    constructor
    · rintro ⟨i, inside, same | ⟨j, -, other⟩⟩
      · cases same
        exact ⟨i, inside, congrArg (s + ·) (Nat.mul_comm i 3), rfl⟩
      · cases other
    · rintro ⟨k, inside, rfl, rfl⟩
      exact ⟨k, inside, Or.inl (congrArg (LcdAccess.source · 4)
        (congrArg (s + ·) (Nat.mul_comm 3 k)))⟩
  · rw [trueColourLine_eq other pos, ends]
    exact congrArg (s + ·) (Nat.mul_comm _ _)

theorem lane_load32 (ram : Buf) (off : Nat) {j : Nat} (inside : j < 4) :
    lane (load32 ram off) j = ram (off + j) := by
  obtain ⟨l₀, l₁, l₂, l₃⟩ := lane_ofLanes (ram off) (ram (off + 1)) (ram (off + 2)) (ram (off + 3))
  match j, inside with
  | 0, _ => exact l₀
  | 1, _ => exact l₁
  | 2, _ => exact l₂
  | 3, _ => exact l₃

/-- The second pixel is loaded from byte 3. -/
theorem TrueColourAgrees.single (other : depth ≠ .d32) (pos : 0 < width.toInt)
    (agrees : TrueColourAgrees depth ram width d s surface) : width = 1#32 := by
  have drawn : TrueColourDrawn depth ram width d s surface := trueColourLine_drawn other pos
  have small := toNat_lt_of_nonneg (Int.le_of_lt pos)
  by_contra more
  have two : 1 < width.toNat := by
    have ne_zero : width.toNat ≠ 0 := fun zero => by
      cases (BitVec.eq_of_toNat_eq zero : width = 0#32)
      exact absurd pos (by decide)
    have ne_one : width.toNat ≠ 1 := fun one => more (BitVec.eq_of_toNat_eq one)
    omega
  obtain ⟨k, -, same, -⟩ := (agrees.words _ _).mp ((drawn.words _ _).mpr ⟨1, two, rfl, rfl⟩)
  omega

/-- For every width above zero, every source row and every depth but 32: the loop draws
pixel `k` from the word at byte `3 * k`, so it agrees with the copy on a line of one pixel
and on no other. -/
theorem true_colour_agrees_iff (ram : Buf) (d s : Nat) (surface : Buf) (other : depth ≠ .d32)
    (pos : 0 < width.toInt) :
    TrueColourDrawn depth ram width d s surface ∧
      (TrueColourAgrees depth ram width d s surface ↔ width = 1#32) := by
  refine ⟨trueColourLine_drawn other pos, TrueColourAgrees.single other pos, ?_⟩
  rintro rfl
  obtain ⟨pixels, words, -⟩ : TrueColourDrawn depth ram 1#32 d s surface :=
    trueColourLine_drawn other pos
  have first : ∀ k < (1#32).toNat, 3 * k = 4 * k := fun k inside => by
    have : k < 1 := inside
    omega
  refine ⟨fun start len => ?_, fun k inside => ?_, fun k inside j part => ?_, fun i => ?_⟩
  · rw [words]
    exact exists_congr fun k => and_congr_right fun inside => by rw [first k inside]
  · rw [← first k inside]
    exact pixels k inside
  · rw [lane_load32 ram _ part, ← first k inside]
    cases Nat.lt_one_iff.mp inside
    refine (blit_inside (Nat.le_add_right d j) (Nat.add_lt_add_left part d)).trans ?_
    exact congrArg (fun off => ram (s + off)) (Nat.add_sub_cancel_left d j)
  · have step : ((1#32 * 32#32) >>> 3).toNat = 4 := by decide
    rw [step, ReadsSource]
    constructor
    · rintro ⟨start, len, read, lower, upper⟩
      obtain ⟨k, inside, rfl, rfl⟩ := (words _ _).mp read
      cases Nat.lt_one_iff.mp inside
      exact ⟨lower, upper⟩
    · rintro ⟨lower, upper⟩
      exact ⟨s, 4, (words _ _).mpr ⟨0, Nat.one_pos, rfl, rfl⟩, lower, upper⟩

/-- A line of one pixel. -/
theorem single_pixel_agrees : TrueColourAgrees .d16 (fill 0x55) 1 0 0 (fill 0) :=
  have other : Depth.d16 ≠ .d32 := nofun
  have pos : 0 < (1 : BitVec 32).toInt := by decide
  (true_colour_agrees_iff (fill 0x55) 0 0 (fill 0) other pos).2.mpr rfl

/-- A black pixel and a white one. -/
def blackWhite : Buf := listBuf [0, 0, 0, 0, 0xff, 0xff, 0xff, 0]

/-- The second pixel is drawn without its blue. -/
theorem second_pixel_shifted :
    (trueColourLine .d24 blackWhite 2 0 0 (fill 0)).surface 3 = 0 ∧
      lane (trueColour .d24 (load32 blackWhite 4)) 0 = 0xff ∧
      ¬ TrueColourAgrees .d24 blackWhite 2 0 0 (fill 0) := by
  have other : Depth.d24 ≠ .d32 := nofun
  have pos : 0 < (2 : BitVec 32).toInt := by decide
  have drawn : TrueColourDrawn .d24 blackWhite 2 0 0 (fill 0) := trueColourLine_drawn other pos
  refine ⟨(drawn.pixels 1 (by decide) 0 (by decide)).trans ?_, by decide, fun agrees => ?_⟩
  · decide
  · exact absurd (agrees.single other pos) (by decide)

end TrueColour

end VirtualNoah
