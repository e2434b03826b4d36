import VirtualNoah.Soc.LcdDraw

/-!
# The bounds of a screen refresh

The registers of the LCD controller do not check what they are given: an index
behind the two tables of LCDCTRL, an area that ends before it starts, a width
that no line function can draw.  `lcd_refresh_in_bounds_iff` says which writes
and which frame descriptors keep a refresh in bounds.
-/

namespace VirtualNoah

open ByteStore StepRun

/-! ## The registers behind a frame -/

/-- What the registers say about the fields decoded from them. -/
structure LcdDecoded (depth : Option Depth) (s : Jz4740Lcdc) : Prop where
  tab : s.lineFnTab = (jz4740LcdcInit depth).lineFnTab
  width : s.width = lcdExtent s.lcddah
  height : s.height = lcdExtent s.lcddav
  line : s.ena ≠ 0#32 → depth = none ∧ s.lineFn = none ∨
    ∃ fn, s.lineFn = some fn ∧ depth = some fn.depth ∧ s.bpp = BitVec.ofNat 32 fn.bits.bpp

/-- A write of LCDCTRL selects an entry of the two tables. -/
def IndexInTable (_ : Jz4740Lcdc) (input : LcdInput) : Prop :=
  ∀ value, input = .write 0x30 value → (value &&& 0x7#32).toNat < 6

section Registers

variable {depth : Option Depth} {s t : Jz4740Lcdc} {value : BitVec 32} {input : LcdInput}
  {out : Option (BitVec 32)} {inputs : List LcdInput} {outs : List (Option (BitVec 32))}

/-- The mask of the register keeps both ends of the area. -/
theorem lcdExtent_mask : lcdExtent (value &&& 0x7ff07ff#32) = lcdExtent value := by
  unfold lcdExtent
  rw [BitVec.ushiftRight_and_distrib, BitVec.and_assoc, BitVec.and_assoc]
  rfl

/-- The extent is small exactly when the area does not end before its start. -/
theorem lcdExtent_le_iff : (lcdExtent value).toNat ≤ 0x7ff ↔
    (value >>> 16) &&& 0x7ff#32 ≤ value &&& 0x7ff#32 := by
  have ends : (value &&& 0x7ff#32).toNat ≤ 0x7ff := by
    rw [BitVec.toNat_and]
    exact Nat.and_le_right
  have starts : ((value >>> 16) &&& 0x7ff#32).toNat ≤ 0x7ff := by
    rw [BitVec.toNat_and]
    exact Nat.and_le_right
  unfold lcdExtent
  generalize (value >>> 16) &&& 0x7ff#32 = start at starts ⊢
  generalize value &&& 0x7ff#32 = last at ends ⊢
  rw [BitVec.le_def]
  bv_omega

theorem lineFnTab_length (tab : s.lineFnTab = (jz4740LcdcInit depth).lineFnTab) :
    s.lineFnTab.length = 6 := by
  rw [tab]
  cases depth <;> rfl

theorem lcdctrlWrite_ne_outOfBounds_iff
    (tab : s.lineFnTab = (jz4740LcdcInit depth).lineFnTab) :
    lcdctrlWrite s value ≠ .error .outOfBounds ↔ (value &&& 0x7#32).toNat < 6 := by
  have length := lineFnTab_length tab
  unfold lcdctrlWrite
  generalize (value &&& 0x7#32).toNat = index
  by_cases inside : index < 6
  · have bpp : index < jz4740LcdBpp.length := inside
    have fn : index < s.lineFnTab.length := length ▸ inside
    simp only [List.getElem?_eq_getElem bpp, List.getElem?_eq_getElem fn, inside, iff_true]
    split <;> exact nofun
  · have past : jz4740LcdBpp[index]? = none :=
      List.getElem?_eq_none (Nat.le_of_not_lt inside)
    simp only [past, inside, ne_eq, not_true]

/-- The two tables agree on the bits of a pixel. -/
theorem tables_agree {index : Nat} {bpp : BitVec 32} {fn : Option LineFn}
    (entry : jz4740LcdBpp[index]? = some bpp) (supported : bpp ≠ 1#32)
    (line : (jz4740LcdcInit depth).lineFnTab[index]? = some fn) :
    depth = none ∧ fn = none ∨
      ∃ f, fn = some f ∧ depth = some f.depth ∧ bpp = BitVec.ofNat 32 f.bits.bpp := by
  cases depth with
  | none =>
    have mem := List.mem_of_getElem? line
    exact Or.inl ⟨rfl, List.eq_of_mem_replicate mem⟩
  | some depth =>
    refine Or.inr ?_
    match index with
    | 0 =>
      cases entry
      exact absurd rfl supported
    | 1 | 2 | 3 | 4 | 5 =>
      cases entry
      cases line
      exact ⟨_, rfl, rfl, rfl⟩
    | _ + 6 => cases entry

theorem lcdctrlWrite_decoded (decoded : LcdDecoded depth s)
    (done : lcdctrlWrite s value = .ok t) : LcdDecoded depth t := by
  have tab := decoded.tab
  unfold lcdctrlWrite at done
  generalize (value &&& 0x7#32).toNat = index at done
  dsimp only at done
  split at done
  · cases done
  · next bpp entry =>
    split at done
    · cases done
    · next supported =>
      split at done
      · cases done
      · next fn line =>
        cases done
        rw [tab] at line
        exact ⟨tab, decoded.width, decoded.height, fun _ => tables_agree entry supported line⟩

theorem jz4740LcdcWrite_decoded {addr : Nat} (decoded : LcdDecoded depth s)
    (done : jz4740LcdcWrite s addr value = .ok t) : LcdDecoded depth t := by
  obtain ⟨tab, width, height, line⟩ := decoded
  unfold jz4740LcdcWrite at done
  split at done
  case h_8 =>
    cases done
    exact ⟨tab, lcdExtent_mask.symm, height, line⟩
  case h_9 =>
    cases done
    exact ⟨tab, width, lcdExtent_mask.symm, line⟩
  case h_14 => exact lcdctrlWrite_decoded ⟨tab, width, height, line⟩ done
  case h_19 => cases done
  all_goals
    cases done
    exact ⟨tab, width, height, line⟩

theorem lcdcStep_decoded (decoded : LcdDecoded depth s)
    (done : lcdcStep s input = .ok (t, out)) : LcdDecoded depth t := by
  cases input with
  | read addr =>
    obtain ⟨v, -, same⟩ := of_map_eq_ok done
    cases same
    exact decoded
  | write addr value =>
    obtain ⟨t', written, same⟩ := of_map_eq_ok done
    cases same
    exact jz4740LcdcWrite_decoded decoded written

theorem jz4740LcdcInit_decoded : LcdDecoded depth (jz4740LcdcInit depth) := by
  refine ⟨rfl, ?_, ?_, fun enabled => absurd rfl enabled⟩
  · exact (by decide : (0#32 : BitVec 32) = lcdExtent 0#32)
  · exact (by decide : (0#32 : BitVec 32) = lcdExtent 0#32)

end Registers

/-! ## The refresh -/

/-- The source address of the frame descriptor. -/
def frameSource (ram : Buf) (s : Jz4740Lcdc) : Nat :=
  (load32 ram (s.lcdda0.toNat + 4)).toNat

/-- The frame descriptor asks for a palette instead of a frame. -/
def LoadsPalette (ram : Buf) (s : Jz4740Lcdc) : Prop :=
  load32 ram (s.lcdda0.toNat + 12) &&& bitMask 28 ≠ 0#32

/-- The frame in guest RAM, and the first `width` pixels of `height` rows of the
resized display surface. -/
def lcdArea (depth : Option Depth) (resize : DpyResize) (ram : Buf) (con : QemuConsole)
    (s : Jz4740Lcdc) : LcdArea where
  fsadr := frameSource ram s
  lineBytes := s.step
  lines := s.height.toNat
  linesize := (lcdResize resize s con).2.ds.linesize
  rowBytes := s.width.toNat * depth.elim 0 Depth.bytes

/-- The screen is at most 0x7ff pixels wide and high, the line function called is
not `NULL`, and all that is read and written is in the area of the frame. -/
structure RefreshInBounds (depth : Option Depth) (resize : DpyResize) (ram : Buf)
    (con : QemuConsole) (s : Jz4740Lcdc) : Prop where
  width : s.width.toNat ≤ 0x7ff
  height : s.height.toNat ≤ 0x7ff
  line : (jz4740LcdUpdateDisplay resize ram s con).outcome ≠ .error .nullCall
  inside : ∀ e ∈ (jz4740LcdUpdateDisplay resize ram s con).log,
    (lcdArea depth resize ram con s).Allows e

/-- The controller is enabled and both the descriptor and the first page of what it
points to are in RAM. -/
structure Refreshes (ram : Buf) (s : Jz4740Lcdc) : Prop where
  enabled : s.ena ≠ 0#32
  running : s.dis = 0#32
  descriptor : s.lcdda0 ≠ 0#32
  mapped : s.lcdda0.toNat < 0x4004000
  source : frameSource ram s < 0x4004000

/-- The frame can be drawn: there is a line function for its depth, not for a surface
of 24 bits, the width is a whole number of passes, and the last line ends in RAM. -/
def FrameFits (ram : Buf) (s : Jz4740Lcdc) : Prop :=
  ∃ fn, s.lineFn = some fn ∧ fn.depth ≠ .d24 ∧ fn.WholePasses s.width.toNat ∧
    frameSource ram s + (s.height.toNat - 1) * s.step + fn.lineBytes s.width.toNat ≤ 0x4004000

/-- Both areas end no earlier than they start; a palette is no longer than the frame
would be and ends in RAM; a frame has no lines or fits. -/
structure RefreshSafe (ram : Buf) (s : Jz4740Lcdc) : Prop where
  columns : (s.lcddah >>> 16) &&& 0x7ff#32 ≤ s.lcddah &&& 0x7ff#32
  rows : (s.lcddav >>> 16) &&& 0x7ff#32 ≤ s.lcddav &&& 0x7ff#32
  palette : Refreshes ram s → LoadsPalette ram s →
    512 ≤ s.height.toNat * s.step ∧ frameSource ram s + 512 ≤ 0x4004000
  frame : Refreshes ram s → ¬ LoadsPalette ram s → s.height = 0#32 ∨ FrameFits ram s

section Refresh

variable {depth : Option Depth} {resize : DpyResize} {ram : Buf} {con : QemuConsole}
  {s : Jz4740Lcdc}

theorem jz4740LcdGetBuffer_eq {addr : BitVec 32} (mapped : addr.toNat < 0x4004000) :
    jz4740LcdGetBuffer addr = some addr.toNat := by
  obtain ⟨pd, page, place⟩ := ramPage_eq mapped
  simp only [jz4740LcdGetBuffer, ramAddr, page, Option.map_some, place]

theorem jz4740LcdGetBuffer_eq_none {addr : BitVec 32} (outside : ¬ addr.toNat < 0x4004000) :
    jz4740LcdGetBuffer addr = none := by
  refine ramAddr_eq_none ?_
  cases region : ramRegion addr.toNat with
  | none => rfl
  | some r => exact absurd (ramRegion_isSome_iff.mp ⟨r, region⟩) outside

/-- A call that does not get as far as the frame touches nothing. -/
theorem update_idle (resize : DpyResize) (con : QemuConsole) (idle : ¬ Refreshes ram s) :
    (jz4740LcdUpdateDisplay resize ram s con).log = [] ∧
      (jz4740LcdUpdateDisplay resize ram s con).outcome ≠ .error .nullCall := by
  unfold jz4740LcdUpdateDisplay
  split
  · exact ⟨rfl, nofun⟩
  · next going =>
    simp only [not_or, Decidable.not_not] at going
    obtain ⟨enabled, running, descriptor⟩ := going
    by_cases mapped : s.lcdda0.toNat < 0x4004000
    · rw [jz4740LcdGetBuffer_eq mapped]
      have outside : ¬ frameSource ram s < 0x4004000 := fun source =>
        idle ⟨enabled, running, descriptor, mapped, source⟩
      have none : jz4740LcdGetBuffer (load32 ram (s.lcdda0.toNat + 4)) = none :=
        jz4740LcdGetBuffer_eq_none outside
      simp only [lcdLoadDescriptor, none]
      exact ⟨trivial, nofun⟩
    · rw [jz4740LcdGetBuffer_eq_none mapped]
      exact ⟨rfl, nofun⟩

/-- A call that gets as far as the frame loads its descriptor first. -/
theorem update_eq (refreshes : Refreshes ram s) :
    jz4740LcdUpdateDisplay resize ram s con =
      let t := lcdLoadDescriptor ram s.lcdda0.toNat s
      if t.lcdcmd0 &&& bitMask 28 ≠ 0#32 then
        ⟨[.source (frameSource ram s) 512],
          .ok ({ t with palette := blit t.palette 0 (shift ram (frameSource ram s)) 512 }, con,
            false)⟩
      else lcdDrawFrame ram (frameSource ram s) (lcdResize resize t con).1
        (lcdResize resize t con).2 := by
  obtain ⟨enabled, running, descriptor, mapped, source⟩ := refreshes
  have going : ¬ (s.ena = 0#32 ∨ s.dis ≠ 0#32 ∨ s.lcdda0 = 0#32) := by
    simp only [enabled, running, descriptor, ne_eq, not_true, or_self, not_false_iff]
  have found : jz4740LcdGetBuffer (lcdLoadDescriptor ram s.lcdda0.toNat s).lcdsa0 =
      some (frameSource ram s) := jz4740LcdGetBuffer_eq source
  unfold jz4740LcdUpdateDisplay
  rw [if_neg going, jz4740LcdGetBuffer_eq mapped]
  dsimp only
  rw [found]

/-- A palette is one copy of 512 bytes. -/
theorem update_palette (resize : DpyResize) (con : QemuConsole)
    (refreshes : Refreshes ram s) (palette : LoadsPalette ram s) :
    (jz4740LcdUpdateDisplay resize ram s con).log = [.source (frameSource ram s) 512] ∧
      (jz4740LcdUpdateDisplay resize ram s con).outcome ≠ .error .nullCall := by
  have loads : (lcdLoadDescriptor ram s.lcdda0.toNat s).lcdcmd0 &&& bitMask 28 ≠ 0#32 := palette
  rw [update_eq refreshes]
  dsimp only
  rw [if_pos loads]
  exact ⟨rfl, nofun⟩

/-- Anything else is a frame. -/
theorem update_frame (resize : DpyResize) (con : QemuConsole)
    (refreshes : Refreshes ram s) (frame : ¬ LoadsPalette ram s) :
    ∃ s' con', jz4740LcdUpdateDisplay resize ram s con =
        lcdDrawFrame ram (frameSource ram s) s' con' ∧
      s'.lineFn = s.lineFn ∧ s'.width = s.width ∧ s'.height = s.height ∧ s'.bpp = s.bpp ∧
      con'.ds.linesize = (lcdResize resize s con).2.ds.linesize := by
  have drawn : ¬ ((lcdLoadDescriptor ram s.lcdda0.toNat s).lcdcmd0 &&& bitMask 28 ≠ 0#32) := frame
  refine ⟨_, _, (update_eq refreshes).trans (if_neg drawn), ?_⟩
  unfold lcdResize lcdLoadDescriptor
  dsimp only
  split
  · exact ⟨rfl, rfl, rfl, rfl, rfl⟩
  · exact ⟨rfl, rfl, rfl, rfl, rfl⟩

/-- The bits of a line, while the width is small. -/
theorem step_eq {fn : LineFn} (small : s.width.toNat ≤ 0x7ff)
    (bpp : s.bpp = BitVec.ofNat 32 fn.bits.bpp) :
    s.step = s.width.toNat * fn.bits.bpp / 8 := by
  have factor : fn.bits.bpp ≤ 32 := by cases fn.bits <;> decide
  have bound : s.width.toNat * fn.bits.bpp ≤ 0x7ff * 32 := Nat.mul_le_mul small factor
  rw [Jz4740Lcdc.step, bpp, BitVec.toNat_ushiftRight, BitVec.toNat_mul, BitVec.toNat_ofNat,
    Nat.mod_eq_of_lt (a := fn.bits.bpp) (by omega), Nat.mod_eq_of_lt (by omega),
    Nat.shiftRight_eq_div_pow]

/-- A frame is drawn in bounds exactly when it has no lines or fits. -/
theorem drawFrame_inBounds_iff (decoded : LcdDecoded depth s) (refreshes : Refreshes ram s)
    (small : s.width.toNat ≤ 0x7ff) {s' : Jz4740Lcdc} {con' : QemuConsole}
    (line : s'.lineFn = s.lineFn) (width : s'.width = s.width) (height : s'.height = s.height)
    (bpp : s'.bpp = s.bpp)
    (linesize : con'.ds.linesize = (lcdResize resize s con).2.ds.linesize) :
    ((lcdDrawFrame ram (frameSource ram s) s' con').outcome ≠ .error .nullCall ∧
      ∀ e ∈ (lcdDrawFrame ram (frameSource ram s) s' con').log,
        (lcdArea depth resize ram con s).Allows e) ↔
    s.height = 0#32 ∨ FrameFits ram s := by
  have step : s'.step = s.step := by
    simp only [Jz4740Lcdc.step, width, bpp]
  unfold lcdDrawFrame
  rcases decoded.line refreshes.enabled with ⟨-, none⟩ | ⟨fn, some, surface, bits⟩
  · -- the table of a display without a depth holds no functions
    rw [line, none, height]
    have unfit : ¬ FrameFits ram s := by
      rintro ⟨fn, some, -⟩
      cases none.symm.trans some
    dsimp only
    split
    · next zero => exact iff_of_true ⟨nofun, nofun⟩ (Or.inl zero)
    · next lines =>
      refine iff_of_false (fun fine => fine.1 rfl) ?_
      rintro (zero | fits)
      · exact lines zero
      · exact unfit fits
  · rw [line, some]
    dsimp only
    simp only [mem_drawLines, List.not_mem_nil, false_or, width, height, linesize, step]
    rcases Nat.eq_zero_or_pos s.height.toNat with zero | lines
    · have none : s.height = 0#32 := BitVec.eq_of_toNat_eq zero
      refine iff_of_true ⟨nofun, ?_⟩ (Or.inl none)
      rintro e ⟨y, inside, -⟩
      exact absurd (zero ▸ inside) (Nat.not_lt_zero y)
    · obtain ⟨last, count⟩ := Nat.exists_eq_add_one.mpr lines
      have area : lcdArea depth resize ram con s =
          ⟨frameSource ram s, s.step, last + 1, (lcdResize resize s con).2.ds.linesize,
            s.width.toNat * fn.depth.bytes⟩ := by
        rw [lcdArea, count, surface]
        rfl
      have drawn := frame_allowed_iff last (lcdResize resize s con).2.ds.linesize small
        refreshes.source (step_eq small bits)
      rw [area, count]
      constructor
      · rintro ⟨-, allowed⟩
        obtain ⟨deep, whole, room⟩ := drawn.mp fun y inside e touched =>
          allowed e ⟨y, inside, touched⟩
        refine Or.inr ⟨fn, some, deep, whole, ?_⟩
        rwa [count, Nat.add_sub_cancel]
      · rintro (zero | ⟨fn', same, deep, whole, room⟩)
        · rw [zero] at count
          cases count
        · cases some.symm.trans same
          rw [count, Nat.add_sub_cancel] at room
          refine ⟨nofun, ?_⟩
          rintro e ⟨y, inside, touched⟩
          exact drawn.mpr ⟨deep, whole, room⟩ y inside e touched

/-- A refresh from decoded registers is in bounds exactly when it is safe. -/
theorem refresh_inBounds_iff (decoded : LcdDecoded depth s) :
    RefreshInBounds depth resize ram con s ↔ RefreshSafe ram s := by
  have columns : s.width.toNat ≤ 0x7ff ↔ _ := decoded.width ▸ lcdExtent_le_iff
  have rows : s.height.toNat ≤ 0x7ff ↔ _ := decoded.height ▸ lcdExtent_le_iff
  constructor
  · rintro ⟨width, height, line, inside⟩
    refine ⟨columns.mp width, rows.mp height, fun refreshes loads => ?_,
      fun refreshes frame => ?_⟩
    · rw [(update_palette resize con refreshes loads).1] at inside
      obtain ⟨-, inFrame, mapped⟩ := inside _ List.mem_cons_self
      exact ⟨Nat.le_of_add_le_add_left inFrame,
        (ramSpan_iff.mp mapped).resolve_left (by decide)⟩
    · obtain ⟨s', con', drawn, same, w, h, bpp, linesize⟩ :=
        update_frame resize con refreshes frame
      rw [drawn] at line inside
      exact (drawFrame_inBounds_iff decoded refreshes width same w h bpp linesize).mp
        ⟨line, inside⟩
  · rintro ⟨width, height, palette, frame⟩
    have small := columns.mpr width
    by_cases refreshes : Refreshes ram s
    · by_cases loads : LoadsPalette ram s
      · obtain ⟨log, line⟩ := update_palette resize con refreshes loads
        obtain ⟨short, mapped⟩ := palette refreshes loads
        refine ⟨small, rows.mpr height, line, ?_⟩
        rw [log]
        intro e mem
        cases List.mem_singleton.mp mem
        exact ⟨Nat.le_refl _, Nat.add_le_add_left short _, ramSpan_iff.mpr (Or.inr mapped)⟩
      · obtain ⟨s', con', drawn, same, w, h, bpp, linesize⟩ :=
          update_frame resize con refreshes loads
        obtain ⟨line, inside⟩ := (drawFrame_inBounds_iff decoded refreshes small same w h bpp
          linesize).mpr (frame refreshes loads)
        refine ⟨small, rows.mpr height, ?_, ?_⟩
        · rwa [drawn]
        · rwa [drawn]
    · obtain ⟨log, line⟩ := update_idle resize con refreshes
      refine ⟨small, rows.mpr height, line, ?_⟩
      rw [log]
      exact nofun

end Refresh

theorem lcdcStep_ne_outOfBounds_iff {depth : Option Depth} {s : Jz4740Lcdc} {input : LcdInput}
    (decoded : LcdDecoded depth s) :
    lcdcStep s input ≠ .error .outOfBounds ↔ IndexInTable s input := by
  cases input with
  | read addr =>
    refine iff_of_true ?_ nofun
    simp only [lcdcStep]
    unfold jz4740LcdcRead
    split <;> exact nofun
  | write addr value =>
    by_cases control : addr = 0x30
    · subst control
      have same : lcdcStep s (.write 0x30 value) = (lcdctrlWrite s value).map (·, none) := rfl
      have fits : IndexInTable s (.write 0x30 value) ↔ (value &&& 0x7#32).toNat < 6 :=
        ⟨fun index => index value rfl, fun index v written => by cases written; exact index⟩
      rw [same, fits, ← lcdctrlWrite_ne_outOfBounds_iff decoded.tab]
      cases lcdctrlWrite s value with
      | error e => simp only [Except.map, ne_eq, Except.error.injEq]
      | ok t => simp only [Except.map, ne_eq, reduceCtorEq, not_false_iff]
    · refine iff_of_true ?_ fun v written => ?_
      · simp only [lcdcStep]
        unfold jz4740LcdcWrite
        split
        case h_14 => exact absurd rfl control
        all_goals exact nofun
      · cases written
        exact absurd rfl control

/-- Whatever the guest has written to the controller of a display of any depth, over any
guest RAM, console and display driver: both tables are read within their six entries and
a refresh stays in its bounds, exactly when every write of LCDCTRL has an index in the
tables and the refresh is safe. -/
theorem lcd_refresh_in_bounds_iff (depth : Option Depth) (inputs : List LcdInput)
    (resize : DpyResize) (ram : Buf) (con : QemuConsole) :
    lcdcRun (jz4740LcdcInit depth) inputs ≠ .error .outOfBounds ∧
        (∀ s outs, lcdcRun (jz4740LcdcInit depth) inputs = .ok (s, outs) →
          RefreshInBounds depth resize ram con s) ↔
      Along lcdcStep IndexInTable (jz4740LcdcInit depth) inputs ∧
        ∀ s outs, lcdcRun (jz4740LcdcInit depth) inputs = .ok (s, outs) → RefreshSafe ram s := by
  have tables : lcdcRun (jz4740LcdcInit depth) inputs ≠ .error .outOfBounds ↔
      Along lcdcStep IndexInTable (jz4740LcdcInit depth) inputs :=
    run_ne_error_iff (LcdDecoded depth) (fun decoded done => lcdcStep_decoded decoded done)
      lcdcStep_ne_outOfBounds_iff jz4740LcdcInit_decoded
  refine and_congr tables (forall_congr' fun s => forall_congr' fun outs => ?_)
  refine imp_congr_right fun completed => refresh_inBounds_iff ?_
  exact run_keeps (LcdDecoded depth) (fun decoded done => lcdcStep_decoded decoded done)
    jz4740LcdcInit_decoded completed

/-- Two lines of 16 pixels of 16 bits, with a descriptor at 0x100. -/
def smallFrame : List LcdInput :=
  [.write 0x10 0x10, .write 0x14 0x2, .write 0x30 0xc, .write 0x40 0x100]

/-- The frame starts 16 bytes before the end of guest RAM. -/
def frameAtEnd : Buf := store32 (fill 0) 0x104 0x4003ff0

def smallConsole : QemuConsole := ⟨⟨fill 0, true, 0x20, 0x10, 0x2⟩, 0x10, 0x2, true⟩

/-- Both lines of the frame are read behind the end of guest RAM. -/
theorem frame_read_past_ram : ∃ s outs,
    lcdcRun (jz4740LcdcInit (some .d16)) smallFrame = .ok (s, outs) ∧
    (jz4740LcdUpdateDisplay (fun ds _ _ => ds) frameAtEnd s smallConsole).log =
      [.store 0x20 0x20, .source 0x4004010 0x20, .store 0x0 0x20, .source 0x4003ff0 0x20] ∧
    ¬ RefreshInBounds (some .d16) (fun ds _ _ => ds) frameAtEnd smallConsole s := by
  have drawn : ∃ s outs, lcdcRun (jz4740LcdcInit (some .d16)) smallFrame = .ok (s, outs) ∧
      (jz4740LcdUpdateDisplay (fun ds _ _ => ds) frameAtEnd s smallConsole).log =
        [.store 0x20 0x20, .source 0x4004010 0x20, .store 0x0 0x20, .source 0x4003ff0 0x20] :=
    ⟨_, _, rfl, by decide⟩
  obtain ⟨s, outs, completed, log⟩ := drawn
  refine ⟨s, outs, completed, log, fun bounds => ?_⟩
  have allowed := bounds.inside (.source 0x4004010 0x20) (log ▸ by decide)
  have mapped := (ramSpan_iff.mp allowed.2.2).resolve_left (by decide)
  exact absurd mapped (by decide)

end VirtualNoah
