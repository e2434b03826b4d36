import VirtualNoah.Soc.Lcdc

/-!
# What a frame touches

A pass of a line function reads a few bytes and draws a few pixels; a line is
its passes, a frame its lines.  Whether a frame stays in bounds is decided by the
last pass of its last line: the width must be a whole number of passes, and the
last line must end in RAM.
-/

namespace VirtualNoah

open ByteStore DoWhile StepRun

/-! ## What is touched -/

/-- What one pass of a line function reads and draws. -/
structure LinePass where
  bytes : Nat
  stride : Nat
  pixels : Nat

def LineBits.pass : LineBits → LinePass
  | .line2 => ⟨1, 1, 4⟩
  | .line4 => ⟨1, 1, 2⟩
  | .line8 => ⟨1, 1, 1⟩
  | .line16 => ⟨2, 2, 1⟩
  | .line24 => ⟨4, 3, 1⟩

def LinePass.Touches (p : LinePass) (depth : Depth) (d s : Nat) (e : LcdAccess) : Prop :=
  e = .source s p.bytes ∨ ∃ j < p.pixels, e = .store (d + j * depth.bytes) depth.pixelType

/-- The length of the line, when the line function is a copy. -/
def LineFn.copied (fn : LineFn) (width : BitVec 32) : Option Nat :=
  match fn.bits, fn.depth with
  | .line16, .d16 => some ((width * 2#32).signExtend 64).toNat
  | .line24, .d32 => some ((width * 4#32).signExtend 64).toNat
  | _, _ => none

def LineFn.passes (fn : LineFn) (width : BitVec 32) : Nat :=
  match fn.bits with
  | .line2 => DoWhile.passes (subtract 4) positive lineFuel width
  | .line4 => DoWhile.passes (subtract 2) positive lineFuel width
  | _ => DoWhile.passes decrement nonzero lineFuel width

/-- What a line drawn at `d` from the source at `s` touches. -/
def LineFn.Touches (fn : LineFn) (width : BitVec 32) (d s : Nat) (e : LcdAccess) : Prop :=
  match fn.copied width with
  | some len => e = .store d len ∨ e = .source s len
  | none => ∃ i < fn.passes width, fn.bits.pass.Touches fn.depth
      (d + i * (fn.bits.pass.pixels * fn.depth.bytes)) (s + i * fn.bits.pass.stride) e

/-- One pass of a loop, as a step of the brush. -/
structure PassSpec (p : LinePass) (depth : Depth) (body : Brush → Brush) : Prop where
  d : ∀ b, (body b).d = b.d + p.pixels * depth.bytes
  s : ∀ b, (body b).s = b.s + p.stride
  log : ∀ b e, e ∈ (body b).log ↔ e ∈ b.log ∨ p.Touches depth b.d b.s e

section Passes

variable {p : LinePass} {depth : Depth} {body : Brush → Brush} {ram pal : Buf} {b : Brush}
  {e : LcdAccess} {n : Nat}

theorem foldl_put (pixel : Nat → BitVec 32) (count : Nat) (b : Brush) :
    let b' := (List.range count).foldl (fun b j => b.put depth (pixel j)) b
    b'.d = b.d + count * depth.bytes ∧ b'.s = b.s ∧
      ∀ e, e ∈ b'.log ↔
        e ∈ b.log ∨ ∃ j < count, e = .store (b.d + j * depth.bytes) depth.pixelType := by
  induction count with
  | zero => simp only [List.range_zero, List.foldl_nil, Nat.zero_mul, Nat.add_zero, true_and,
      Nat.not_lt_zero, false_and, exists_false, or_false, implies_true]
  | succ count ih =>
    obtain ⟨place, source, log⟩ := ih
    simp only [List.range_succ, List.foldl_append, List.foldl_cons, List.foldl_nil]
    refine ⟨?_, source, fun e => ?_⟩
    · rw [put_d, place, Nat.succ_mul, Nat.add_assoc]
    · rw [mem_put_log, place, log]
      constructor
      · rintro (rfl | old | ⟨j, lower, rfl⟩)
        · exact Or.inr ⟨count, Nat.lt_succ_self count, rfl⟩
        · exact Or.inl old
        · exact Or.inr ⟨j, Nat.lt_succ_of_lt lower, rfl⟩
      · rintro (old | ⟨j, upper, rfl⟩)
        · exact Or.inr (Or.inl old)
        · rcases Nat.lt_succ_iff_lt_or_eq.mp upper with lower | rfl
          · exact Or.inr (Or.inr ⟨j, lower, rfl⟩)
          · exact Or.inl rfl

theorem palettePass_spec (bits count : Nat) :
    PassSpec ⟨1, 1, count⟩ depth (palettePass depth bits count ram pal) := by
  constructor
  · intro b
    exact (foldl_put _ count (b.load 1)).1
  · intro b
    exact congrArg (· + 1) (foldl_put _ count (b.load 1)).2.1
  · intro b e
    refine ((foldl_put _ count (b.load 1)).2.2 e).trans ?_
    rw [mem_load_log]
    simp only [LinePass.Touches, load_d]
    tauto

theorem pass16_spec : PassSpec ⟨2, 2, 1⟩ depth (pass16 depth ram) := by
  constructor
  · intro b
    simp only [pass16, put_d, load_d, Nat.one_mul]
  · intro b
    rfl
  · intro b e
    simp only [pass16, mem_put_log, mem_load_log, load_d, LinePass.Touches, Nat.lt_one_iff,
      exists_eq_left, Nat.zero_mul, Nat.add_zero]
    tauto

theorem pass24_spec : PassSpec ⟨4, 3, 1⟩ depth (pass24 depth ram) := by
  constructor
  · intro b
    simp only [pass24, put_d, load_d, Nat.one_mul]
  · intro b
    rfl
  · intro b e
    simp only [pass24, mem_put_log, mem_load_log, load_d, LinePass.Touches, Nat.lt_one_iff,
      exists_eq_left, Nat.zero_mul, Nat.add_zero]
    tauto

/-- The passes of a loop, one behind the other. -/
theorem PassSpec.iterate (spec : PassSpec p depth body) :
    (body^[n] b).d = b.d + n * (p.pixels * depth.bytes) ∧
      (body^[n] b).s = b.s + n * p.stride ∧
      ∀ e, e ∈ (body^[n] b).log ↔ e ∈ b.log ∨ ∃ i < n, p.Touches depth
        (b.d + i * (p.pixels * depth.bytes)) (b.s + i * p.stride) e := by
  induction n with
  | zero => simp only [Function.iterate_zero, id_eq, Nat.zero_mul, Nat.add_zero, true_and,
      Nat.not_lt_zero, false_and, exists_false, or_false, implies_true]
  | succ n ih =>
    obtain ⟨place, source, log⟩ := ih
    rw [Function.iterate_succ_apply', spec.d, spec.s, place, source]
    refine ⟨?_, ?_, fun e => ?_⟩
    · rw [Nat.succ_mul, Nat.add_assoc]
    · rw [Nat.succ_mul, Nat.add_assoc]
    · rw [spec.log, log, place, source]
      constructor
      · rintro ((old | ⟨i, lower, touched⟩) | last)
        · exact Or.inl old
        · exact Or.inr ⟨i, Nat.lt_succ_of_lt lower, touched⟩
        · exact Or.inr ⟨n, Nat.lt_succ_self n, last⟩
      · rintro (old | ⟨i, upper, touched⟩)
        · exact Or.inl (Or.inl old)
        · rcases Nat.lt_succ_iff_lt_or_eq.mp upper with lower | rfl
          · exact Or.inl (Or.inr ⟨i, lower, touched⟩)
          · exact Or.inr touched

end Passes

section Lines

variable {fn : LineFn} {ram pal : Buf} {width : BitVec 32} {b : Brush} {e : LcdAccess}
  {step linesize : Nat}

theorem mem_doWhile {p : LinePass} {depth : Depth} {body : Brush → Brush}
    {left : BitVec 32 → BitVec 32} {again : BitVec 32 → Bool} (spec : PassSpec p depth body) :
    e ∈ (doWhile left again body lineFuel width b).log ↔
      e ∈ b.log ∨ ∃ i < DoWhile.passes left again lineFuel width, p.Touches depth
        (b.d + i * (p.pixels * depth.bytes)) (b.s + i * p.stride) e := by
  rw [doWhile_eq_iterate]
  exact spec.iterate.2.2 e

theorem mem_lineCopy {len : BitVec 32} :
    e ∈ (lineCopy len ram b).log ↔ e ∈ b.log ∨
      (e = .store b.d (len.signExtend 64).toNat ∨ e = .source b.s (len.signExtend 64).toNat) := by
  simp only [lineCopy, List.mem_cons]
  tauto

/-- A line adds to the log what it touches. -/
theorem mem_draw : e ∈ (fn.draw ram pal width b).log ↔ e ∈ b.log ∨ fn.Touches width b.d b.s e := by
  obtain ⟨depth, bits⟩ := fn
  cases bits with
  | line2 => exact mem_doWhile (palettePass_spec 2 4)
  | line4 => exact mem_doWhile (palettePass_spec 4 2)
  | line8 => exact mem_doWhile (palettePass_spec 8 1)
  | line16 =>
    by_cases copies : depth = .d16
    · subst copies
      exact mem_lineCopy
    · have loop : LineFn.copied ⟨depth, .line16⟩ width = none := by
        cases depth <;> first | rfl | exact absurd rfl copies
      simp only [LineFn.Touches, loop, LineFn.draw, drawLine16, if_neg copies]
      exact mem_doWhile pass16_spec
  | line24 =>
    by_cases copies : depth = .d32
    · subst copies
      exact mem_lineCopy
    · have loop : LineFn.copied ⟨depth, .line24⟩ width = none := by
        cases depth <;> first | rfl | exact absurd rfl copies
      simp only [LineFn.Touches, loop, LineFn.draw, drawLine24, if_neg copies]
      exact mem_doWhile pass24_spec

/-- A frame adds to the log what its lines touch. -/
theorem mem_drawLines {lines src dest : Nat} :
    e ∈ (drawLines fn ram pal width step linesize lines src dest b).log ↔
      e ∈ b.log ∨ ∃ y < lines, fn.Touches width (dest + y * linesize) (src + y * step) e := by
  induction lines generalizing src dest b with
  | zero => simp only [drawLines, Nat.not_lt_zero, false_and, exists_false, or_false]
  | succ lines ih =>
    simp only [drawLines, ih, mem_draw]
    constructor
    · rintro ((old | first) | ⟨y, inside, touched⟩)
      · exact Or.inl old
      · refine Or.inr ⟨0, Nat.succ_pos lines, ?_⟩
        rwa [Nat.zero_mul, Nat.zero_mul]
      · refine Or.inr ⟨y + 1, Nat.succ_lt_succ inside, ?_⟩
        rwa [Nat.succ_mul, Nat.succ_mul, Nat.add_comm (y * linesize), Nat.add_comm (y * step),
          ← Nat.add_assoc, ← Nat.add_assoc]
    · rintro (old | ⟨y, inside, touched⟩)
      · exact Or.inl (Or.inl old)
      · cases y with
        | zero =>
          rw [Nat.zero_mul, Nat.zero_mul] at touched
          exact Or.inl (Or.inr touched)
        | succ y =>
          refine Or.inr ⟨y, Nat.lt_of_succ_lt_succ inside, ?_⟩
          rwa [Nat.succ_mul, Nat.succ_mul, Nat.add_comm (y * linesize), Nat.add_comm (y * step),
            ← Nat.add_assoc, ← Nat.add_assoc] at touched

end Lines

/-! ## What is allowed -/

/-- A frame in guest RAM and the rows of the display surface it goes to.  Guest RAM
is mapped one to one, so an offset in the host buffer is a physical address. -/
structure LcdArea where
  fsadr : Nat
  lineBytes : Nat
  lines : Nat
  linesize : Nat
  rowBytes : Nat

/-- Source bytes of the frame, which are in guest RAM, and bytes of the rows. -/
def LcdArea.Allows (a : LcdArea) : LcdAccess → Prop
  | .source start len => a.fsadr ≤ start ∧ start + len ≤ a.fsadr + a.lines * a.lineBytes ∧
      ∀ i < len, ∃ r, ramRegion (start + i) = some r
  | .store start len => ∃ y < a.lines, y * a.linesize ≤ start ∧
      start + len ≤ y * a.linesize + a.rowBytes

section Area

variable {fsadr lineBytes linesize rowBytes start len last n : Nat} {p : LinePass} {depth : Depth}

theorem ramSpan_iff : (∀ i < len, ∃ r, ramRegion (start + i) = some r) ↔
    len = 0 ∨ start + len ≤ 0x4004000 := by
  simp only [ramRegion_isSome_iff]
  constructor
  · intro mapped
    rcases Nat.eq_zero_or_pos len with none | some
    · exact Or.inl none
    · have := mapped (len - 1) (by omega)
      omega
  · rintro (none | mapped) i inside <;> omega

/-- The last line decides over a frame of copied lines. -/
theorem copies_allowed_iff :
    (∀ y < last + 1, ∀ e, e = .store (0 + y * linesize) len ∨
        e = .source (fsadr + y * lineBytes) len →
      LcdArea.Allows ⟨fsadr, lineBytes, last + 1, linesize, rowBytes⟩ e) ↔
    len ≤ lineBytes ∧ len ≤ rowBytes ∧
      (len = 0 ∨ fsadr + last * lineBytes + len ≤ 0x4004000) := by
  constructor
  · intro allowed
    obtain ⟨-, inFrame, mapped⟩ :=
      allowed last (Nat.lt_succ_self last) _ (Or.inr rfl)
    obtain ⟨y, inside, -, inRow⟩ := allowed last (Nat.lt_succ_self last) _ (Or.inl rfl)
    dsimp only at inFrame inRow inside
    rw [Nat.succ_mul] at inFrame
    have lower : y * linesize ≤ last * linesize :=
      Nat.mul_le_mul_right linesize (Nat.le_of_lt_succ inside)
    exact ⟨by omega, by omega, ramSpan_iff.mp mapped⟩
  · rintro ⟨inLine, inRow, mapped⟩ y inside e (rfl | rfl)
    · exact ⟨y, inside, by dsimp only; omega, by dsimp only; omega⟩
    · have above : y * lineBytes ≤ last * lineBytes :=
        Nat.mul_le_mul_right lineBytes (Nat.le_of_lt_succ inside)
      refine ⟨by dsimp only; omega, ?_, ramSpan_iff.mpr ?_⟩
      · dsimp only
        rw [Nat.succ_mul]
        omega
      · exact mapped.imp id fun mapped => by omega

/-- The last pass of the last line decides over a frame drawn by a loop. -/
theorem passes_allowed_iff (some : 0 < p.bytes) (pixels : 0 < p.pixels) :
    (∀ y < last + 1, ∀ e, (∃ i < n + 1, p.Touches depth
        (0 + y * linesize + i * (p.pixels * depth.bytes))
        (fsadr + y * lineBytes + i * p.stride) e) →
      LcdArea.Allows ⟨fsadr, lineBytes, last + 1, linesize, rowBytes⟩ e) ↔
    n * p.stride + p.bytes ≤ lineBytes ∧
      n * (p.pixels * depth.bytes) + (p.pixels - 1) * depth.bytes + depth.pixelType ≤ rowBytes ∧
      fsadr + last * lineBytes + (n * p.stride + p.bytes) ≤ 0x4004000 := by
  constructor
  · intro allowed
    obtain ⟨-, inFrame, mapped⟩ := allowed last (Nat.lt_succ_self last) _
      ⟨n, Nat.lt_succ_self n, Or.inl rfl⟩
    obtain ⟨y, inside, -, inRow⟩ := allowed last (Nat.lt_succ_self last) _
      ⟨n, Nat.lt_succ_self n, Or.inr ⟨p.pixels - 1, by omega, rfl⟩⟩
    dsimp only at inFrame inRow inside
    rw [Nat.succ_mul] at inFrame
    have lower : y * linesize ≤ last * linesize :=
      Nat.mul_le_mul_right linesize (Nat.le_of_lt_succ inside)
    have ends := ramSpan_iff.mp mapped
    exact ⟨by omega, by omega, by omega⟩
  · rintro ⟨inLine, inRow, mapped⟩ y inside e ⟨i, pass, rfl | ⟨j, pixel, rfl⟩⟩
    · have above : y * lineBytes ≤ last * lineBytes :=
        Nat.mul_le_mul_right lineBytes (Nat.le_of_lt_succ inside)
      have before : i * p.stride ≤ n * p.stride :=
        Nat.mul_le_mul_right p.stride (Nat.le_of_lt_succ pass)
      refine ⟨by dsimp only; omega, ?_, ramSpan_iff.mpr (Or.inr (by omega))⟩
      dsimp only
      rw [Nat.succ_mul]
      omega
    · have before : i * (p.pixels * depth.bytes) ≤ n * (p.pixels * depth.bytes) :=
        Nat.mul_le_mul_right _ (Nat.le_of_lt_succ pass)
      have left : j * depth.bytes ≤ (p.pixels - 1) * depth.bytes :=
        Nat.mul_le_mul_right _ (by omega)
      exact ⟨y, inside, by dsimp only; omega, by dsimp only; omega⟩

end Area

/-! ## Frames that fit -/

def LineBits.bpp : LineBits → Nat
  | .line2 => 2
  | .line4 => 4
  | .line8 => 8
  | .line16 => 16
  | .line24 => 32

/-- The width is a whole number of passes; a loop has at least one. -/
def LineFn.WholePasses (fn : LineFn) (width : Nat) : Prop :=
  match fn.bits with
  | .line2 => width ≠ 0 ∧ width % 4 = 0
  | .line4 => width ≠ 0 ∧ width % 2 = 0
  | .line8 => width ≠ 0
  | .line16 => width ≠ 0 ∨ fn.depth = .d16
  | .line24 => width ≠ 0 ∨ fn.depth = .d32

/-- The source bytes of a line; the loop of `draw_line24_` advances by three bytes
and loads four. -/
def LineFn.lineBytes (fn : LineFn) (width : Nat) : Nat :=
  match fn.bits with
  | .line2 => width / 4
  | .line4 => width / 2
  | .line8 => width
  | .line16 => 2 * width
  | .line24 => if fn.depth = .d32 then 4 * width else 3 * width + 1

section Fits

variable {fn : LineFn} {width : BitVec 32} {fsadr lineBytes linesize last : Nat}

/-- A small length survives the way through `int`. -/
theorem toNat_signExtend_mul {k : Nat} (small : width.toNat ≤ 0x7ff) (factor : k ≤ 4) :
    ((width * BitVec.ofNat 32 k).signExtend 64).toNat = k * width.toNat := by
  have product : (width * BitVec.ofNat 32 k).toNat = k * width.toNat := by
    have bound : width.toNat * k ≤ 0x7ff * 4 := Nat.mul_le_mul small factor
    rw [BitVec.toNat_mul, BitVec.toNat_ofNat, Nat.mod_eq_of_lt (a := k) (by omega),
      Nat.mod_eq_of_lt (by omega), Nat.mul_comm]
  have bound : k * width.toNat ≤ 4 * 0x7ff := Nat.mul_le_mul factor small
  rw [BitVec.toNat_signExtend, BitVec.msb_eq_false_iff_two_mul_lt.mpr (by omega),
    BitVec.toNat_setWidth, product]
  simp only [Bool.false_eq_true, if_false, Nat.add_zero]
  exact Nat.mod_eq_of_lt (by omega)

theorem exists_passes (fn : LineFn) (width : BitVec 32) : ∃ n, fn.passes width = n + 1 := by
  refine Nat.exists_eq_add_one.mpr ?_
  unfold LineFn.passes
  split
  · exact passes_pos
  · exact passes_pos
  · exact passes_pos

theorem loop_allowed_iff {n : Nat} (loop : fn.copied width = none)
    (count : fn.passes width = n + 1) :
    (∀ y < last + 1, ∀ e, fn.Touches width (0 + y * linesize) (fsadr + y * lineBytes) e →
      LcdArea.Allows ⟨fsadr, lineBytes, last + 1, linesize, width.toNat * fn.depth.bytes⟩ e) ↔
    n * fn.bits.pass.stride + fn.bits.pass.bytes ≤ lineBytes ∧
      n * (fn.bits.pass.pixels * fn.depth.bytes) + (fn.bits.pass.pixels - 1) * fn.depth.bytes +
        fn.depth.pixelType ≤ width.toNat * fn.depth.bytes ∧
      fsadr + last * lineBytes + (n * fn.bits.pass.stride + fn.bits.pass.bytes) ≤ 0x4004000 := by
  simp only [LineFn.Touches, loop, count]
  refine passes_allowed_iff ?_ ?_
  · cases fn.bits <;> decide
  · cases fn.bits <;> decide

theorem copy_allowed_iff {len : Nat} (copies : fn.copied width = some len) :
    (∀ y < last + 1, ∀ e, fn.Touches width (0 + y * linesize) (fsadr + y * lineBytes) e →
      LcdArea.Allows ⟨fsadr, lineBytes, last + 1, linesize, width.toNat * fn.depth.bytes⟩ e) ↔
    len ≤ lineBytes ∧ len ≤ width.toNat * fn.depth.bytes ∧
      (len = 0 ∨ fsadr + last * lineBytes + len ≤ 0x4004000) := by
  simp only [LineFn.Touches, copies]
  exact copies_allowed_iff

/-- The passes of a loop that goes down to zero. -/
theorem decrement_count {n : Nat}
    (count : DoWhile.passes decrement nonzero lineFuel width = n + 1)
    (small : width.toNat ≤ 0x7ff) : width.toNat = 0 ∨ width.toNat = n + 1 := by
  by_cases zero : width = 0#32
  · exact Or.inl (congrArg BitVec.toNat zero)
  · have fuel : width.toNat ≤ lineFuel := Nat.le_trans small (by decide)
    exact Or.inr ((passes_decrement zero fuel).symm.trans count)

/-- How the passes of a loop go with the pixels of a line. -/
theorem passes_count {n : Nat} (count : fn.passes width = n + 1) (small : width.toNat ≤ 0x7ff) :
    match fn.bits with
    | .line2 => max 1 ((width.toNat + 4 - 1) / 4) = n + 1
    | .line4 => max 1 ((width.toNat + 2 - 1) / 2) = n + 1
    | .line8 | .line16 | .line24 => width.toNat = 0 ∨ width.toNat = n + 1 := by
  have fuel : width.toNat < lineFuel := Nat.lt_of_le_of_lt small (by decide)
  obtain ⟨depth, bits⟩ := fn
  cases bits with
  | line2 => exact (passes_subtract (by decide) (by decide) (by omega) fuel).symm.trans count
  | line4 => exact (passes_subtract (by decide) (by decide) (by omega) fuel).symm.trans count
  | line8 | line16 | line24 => exact decrement_count count small

theorem loop_fits_iff {n lines : Nat} (loop : fn.copied width = none)
    (count : fn.passes width = n + 1) (small : width.toNat ≤ 0x7ff)
    (bytes : lineBytes = width.toNat * fn.bits.bpp / 8) :
    n * fn.bits.pass.stride + fn.bits.pass.bytes ≤ lineBytes ∧
      n * (fn.bits.pass.pixels * fn.depth.bytes) + (fn.bits.pass.pixels - 1) * fn.depth.bytes +
        fn.depth.pixelType ≤ width.toNat * fn.depth.bytes ∧
      fsadr + lines + (n * fn.bits.pass.stride + fn.bits.pass.bytes) ≤ 0x4004000 ↔
    fn.depth ≠ .d24 ∧ fn.WholePasses width.toNat ∧
      fsadr + lines + fn.lineBytes width.toNat ≤ 0x4004000 := by
  have counted := passes_count count small
  obtain ⟨depth, bits⟩ := fn
  cases bits <;> cases depth <;> first
    | cases loop; done
    | simp only [LineBits.pass, LineBits.bpp, Depth.bytes, Depth.pixelType, LineFn.WholePasses,
        LineFn.lineBytes, ne_eq, reduceCtorEq, not_true, not_false_iff, or_false, if_false,
        true_and, false_and, iff_false] at counted bytes ⊢
      omega

/-- The two lines that are copied as a whole need no more than their pixels. -/
theorem copy_fits_iff {len lines : Nat} (copies : fn.copied width = some len)
    (small : width.toNat ≤ 0x7ff) (mapped : fsadr < 0x4004000)
    (bytes : lineBytes = width.toNat * fn.bits.bpp / 8) (flat : lineBytes = 0 → lines = 0) :
    len ≤ lineBytes ∧ len ≤ width.toNat * fn.depth.bytes ∧
      (len = 0 ∨ fsadr + lines + len ≤ 0x4004000) ↔
    fn.depth ≠ .d24 ∧ fn.WholePasses width.toNat ∧
      fsadr + lines + fn.lineBytes width.toNat ≤ 0x4004000 := by
  have copied16 : ((width * 2#32).signExtend 64).toNat = 2 * width.toNat :=
    toNat_signExtend_mul small (by decide)
  have copied24 : ((width * 4#32).signExtend 64).toNat = 4 * width.toNat :=
    toNat_signExtend_mul small (by decide)
  obtain ⟨depth, bits⟩ := fn
  cases bits <;> cases depth <;> first
    | cases copies; done
    | simp only [LineFn.copied, Option.some.injEq, copied16, copied24, LineBits.bpp, Depth.bytes,
        LineFn.WholePasses, LineFn.lineBytes, ne_eq, reduceCtorEq, not_false_iff, or_true, if_true,
        true_and] at copies bytes ⊢
      omega

/-- A frame of at least one line is drawn within its bounds exactly when it fits. -/
theorem frame_allowed_iff (last linesize : Nat) (small : width.toNat ≤ 0x7ff)
    (mapped : fsadr < 0x4004000) (bytes : lineBytes = width.toNat * fn.bits.bpp / 8) :
    (∀ y < last + 1, ∀ e, fn.Touches width (0 + y * linesize) (fsadr + y * lineBytes) e →
      LcdArea.Allows ⟨fsadr, lineBytes, last + 1, linesize, width.toNat * fn.depth.bytes⟩ e) ↔
    fn.depth ≠ .d24 ∧ fn.WholePasses width.toNat ∧
      fsadr + last * lineBytes + fn.lineBytes width.toNat ≤ 0x4004000 := by
  cases copies : fn.copied width with
  | none =>
    obtain ⟨n, count⟩ := exists_passes fn width
    exact (loop_allowed_iff copies count).trans (loop_fits_iff copies count small bytes)
  | some len =>
    have flat : lineBytes = 0 → last * lineBytes = 0 := fun none => none ▸ Nat.mul_zero last
    exact (copy_allowed_iff copies).trans (copy_fits_iff copies small mapped bytes flat)

end Fits

end VirtualNoah
