import VirtualNoah.Lib.DoWhile
import VirtualNoah.Lib.StepRun
import VirtualNoah.Soc.PhysMem

/-!
# The LCD controller

`jz4740_lcdc_write` decodes the geometry, the depth of the source pixels and the
line function of the screen; `jz4740_lcd_update_display` follows one frame
descriptor and draws the frame line by line.  Each access a line function makes
to the frame and to the display surface is kept in a log.
-/

namespace VirtualNoah

open ByteStore DoWhile StepRun

/-- The depth of the display surface, `DEPTH` of `mips_jz_glue.h`. -/
inductive Depth where
  | d8 | d15 | d16 | d24 | d32
  deriving DecidableEq

/-- `BPP` -/
def Depth.bytes : Depth → Nat
  | .d8 => 1
  | .d15 | .d16 => 2
  | .d24 => 3
  | .d32 => 4

/-- `sizeof(PIXEL_TYPE)` -/
def Depth.pixelType : Depth → Nat
  | .d8 => 1
  | .d15 | .d16 => 2
  | .d24 | .d32 => 4

/-- `rgb_to_pixel8` to `rgb_to_pixel32`, of three colours of 8 bits. -/
def rgbToPixel (depth : Depth) (red green blue : BitVec 8) : BitVec 32 :=
  let r := red.setWidth 32
  let g := green.setWidth 32
  let b := blue.setWidth 32
  match depth with
  | .d8 => ((r >>> 5) <<< 5) ||| ((g >>> 5) <<< 2) ||| (b >>> 6)
  | .d15 => ((r >>> 3) <<< 10) ||| ((g >>> 3) <<< 5) ||| (b >>> 3)
  | .d16 => ((r >>> 3) <<< 11) ||| ((g >>> 2) <<< 5) ||| (b >>> 3)
  | .d24 | .d32 => (r <<< 16) ||| (g <<< 8) ||| b

/-! ## Line functions -/

/-- An access to the host buffer of guest RAM or to the display surface. -/
inductive LcdAccess where
  | source (start len : Nat)
  | store (start len : Nat)
  deriving DecidableEq

/-- Where a line function stands in its line and in its source, what it has
drawn and what it has accessed. -/
structure Brush where
  d : Nat
  s : Nat
  surface : Buf
  log : List LcdAccess

/-- `((PIXEL_TYPE *) d)[0] = pixel; d += BPP` -/
def Brush.put (depth : Depth) (pixel : BitVec 32) (b : Brush) : Brush where
  d := b.d + depth.bytes
  s := b.s
  surface := blit b.surface b.d (Lanes.lane pixel) depth.pixelType
  log := .store b.d depth.pixelType :: b.log

/-- A load of `len` bytes at `s`. -/
def Brush.load (len : Nat) (b : Brush) : Brush := { b with log := .source b.s len :: b.log }

section Brush

variable {depth : Depth} {pixel : BitVec 32} {b : Brush} {e : LcdAccess} {len : Nat}

@[simp] theorem put_d : (b.put depth pixel).d = b.d + depth.bytes := rfl

@[simp] theorem mem_put_log :
    e ∈ (b.put depth pixel).log ↔ e = .store b.d depth.pixelType ∨ e ∈ b.log :=
  List.mem_cons

@[simp] theorem load_d : (b.load len).d = b.d := rfl

@[simp] theorem mem_load_log : e ∈ (b.load len).log ↔ e = .source b.s len ∨ e ∈ b.log :=
  List.mem_cons

end Brush

def load16 (buf : Buf) (off : Nat) : BitVec 16 := buf (off + 1) ++ buf off

/-- The colour of a palette entry. -/
def palPixel (depth : Depth) (pal : Buf) (i : Nat) : BitVec 32 :=
  let p := load16 pal (2 * i)
  rgbToPixel depth (((p >>> 4) &&& 0xf0#16).setWidth 8) ((p &&& 0xf0#16).setWidth 8)
    (((p <<< 4) &&& 0xf0#16).setWidth 8)

/-- One pass of `draw_line2_`, `draw_line4_` or `draw_line8_`: a byte of `count`
pixels, each of so many bits. -/
def palettePass (depth : Depth) (bits count : Nat) (ram pal : Buf) (b : Brush) : Brush :=
  let v := ram b.s
  let pixel (j : Nat) := palPixel depth pal ((v >>> (bits * j)).toNat % 2 ^ bits)
  let b := (List.range count).foldl (fun b j => b.put depth (pixel j)) (b.load 1)
  { b with s := b.s + 1 }

/-- One pass of `draw_line16_`. -/
def pass16 (depth : Depth) (ram : Buf) (b : Brush) : Brush :=
  let v := load16 ram b.s
  let b := (b.load 2).put depth (rgbToPixel depth (((v >>> 8) &&& 0xf8#16).setWidth 8)
    (((v >>> 3) &&& 0xfc#16).setWidth 8) (((v <<< 3) &&& 0xf8#16).setWidth 8))
  { b with s := b.s + 2 }

/-- One pass of `draw_line24_`. -/
def pass24 (depth : Depth) (ram : Buf) (b : Brush) : Brush :=
  let v := load32 ram b.s
  let b := (b.load 4).put depth (rgbToPixel depth (((v >>> 16) &&& 0xff#32).setWidth 8)
    (((v >>> 8) &&& 0xff#32).setWidth 8) (((v >>> 0) &&& 0xff#32).setWidth 8))
  { b with s := b.s + 3 }

/-- `memcpy(d, s, len)` with a signed length. -/
def lineCopy (len : BitVec 32) (ram : Buf) (b : Brush) : Brush :=
  let size := (len.signExtend 64).toNat
  { b with
    surface := blit b.surface b.d (shift ram b.s) size
    log := .store b.d size :: .source b.s size :: b.log }

/-- No loop has more passes than the counter has values. -/
def lineFuel : Nat := 2 ^ 32

def drawLine2 (depth : Depth) (ram pal : Buf) (width : BitVec 32) : Brush → Brush :=
  doWhile (subtract 4) positive (palettePass depth 2 4 ram pal) lineFuel width

def drawLine4 (depth : Depth) (ram pal : Buf) (width : BitVec 32) : Brush → Brush :=
  doWhile (subtract 2) positive (palettePass depth 4 2 ram pal) lineFuel width

def drawLine8 (depth : Depth) (ram pal : Buf) (width : BitVec 32) : Brush → Brush :=
  doWhile decrement nonzero (palettePass depth 8 1 ram pal) lineFuel width

def drawLine16 (depth : Depth) (ram : Buf) (width : BitVec 32) : Brush → Brush :=
  if depth = .d16 then lineCopy (width * 2#32) ram
  else doWhile decrement nonzero (pass16 depth ram) lineFuel width

def drawLine24 (depth : Depth) (ram : Buf) (width : BitVec 32) : Brush → Brush :=
  if depth = .d32 then lineCopy (width * 4#32) ram
  else doWhile decrement nonzero (pass24 depth ram) lineFuel width

inductive LineBits where
  | line2 | line4 | line8 | line16 | line24
  deriving DecidableEq

/-- A function of the table `jz4740_lcd_draw_fn_`. -/
structure LineFn where
  depth : Depth
  bits : LineBits
  deriving DecidableEq

def LineFn.draw (fn : LineFn) (ram pal : Buf) (width : BitVec 32) : Brush → Brush :=
  match fn.bits with
  | .line2 => drawLine2 fn.depth ram pal width
  | .line4 => drawLine4 fn.depth ram pal width
  | .line8 => drawLine8 fn.depth ram pal width
  | .line16 => drawLine16 fn.depth ram width
  | .line24 => drawLine24 fn.depth ram width

/-- `jz4740_lcd_draw_fn_8` to `jz4740_lcd_draw_fn_32`; there is no function for one bit. -/
def jz4740LcdDrawFn (depth : Depth) : List (Option LineFn) :=
  [none, some ⟨depth, .line2⟩, some ⟨depth, .line4⟩, some ⟨depth, .line8⟩,
    some ⟨depth, .line16⟩, some ⟨depth, .line24⟩]

/-- bits per pixel; 24 bit colours take 32 -/
def jz4740LcdBpp : List (BitVec 32) := [1, 2, 4, 8, 16, 32]

/-! ## The registers -/

structure Jz4740Lcdc where
  lineFnTab : List (Option LineFn)
  lineFn : Option LineFn
  lcdcfg : BitVec 32
  lcdvsync : BitVec 32
  lcdhsync : BitVec 32
  lcdvat : BitVec 32
  lcddah : BitVec 32
  lcddav : BitVec 32
  lcdps : BitVec 32
  lcdcls : BitVec 32
  lcdspl : BitVec 32
  lcdrev : BitVec 32
  lcdctrl : BitVec 32
  lcdstate : BitVec 32
  lcdiid : BitVec 32
  lcdda0 : BitVec 32
  lcdsa0 : BitVec 32
  lcdfid0 : BitVec 32
  lcdcmd0 : BitVec 32
  lcdda1 : BitVec 32
  lcdsa1 : BitVec 32
  lcdfid1 : BitVec 32
  lcdcmd1 : BitVec 32
  ena : BitVec 32
  dis : BitVec 32
  width : BitVec 32
  height : BitVec 32
  bpp : BitVec 32
  palette : Buf
  invalidate : Bool

/-- How an access to the controller ends without reaching a state. -/
inductive LcdStop where
  /-- `exit` or `cpu_abort`: the emulator ends -/
  | exits
  /-- a table is read past its end -/
  | outOfBounds
  /-- a line function that is `NULL` is called -/
  | nullCall
  deriving DecidableEq

def jz4740LcdcRead (s : Jz4740Lcdc) (addr : Nat) : Except LcdStop (BitVec 32) :=
  match addr with
  | 0x0 => .ok s.lcdcfg
  | 0x4 => .ok s.lcdvsync
  | 0x8 => .ok s.lcdhsync
  | 0xc => .ok s.lcdvat
  | 0x10 => .ok s.lcddah
  | 0x14 => .ok s.lcddav
  | 0x18 => .ok s.lcdps
  | 0x1c => .ok s.lcdcls
  | 0x20 => .ok s.lcdspl
  | 0x24 => .ok s.lcdrev
  | 0x30 => .ok s.lcdctrl
  | 0x34 => .ok s.lcdstate
  | 0x38 => .ok s.lcdiid
  | 0x40 => .ok s.lcdda0
  | 0x44 => .ok s.lcdsa0
  | 0x48 => .ok s.lcdfid0
  | 0x4c => .ok s.lcdcmd0
  | 0x50 => .ok s.lcdda1
  | 0x54 => .ok s.lcdsa1
  | 0x58 => .ok s.lcdfid1
  | 0x5c => .ok s.lcdcmd1
  | _ => .error .exits

/-- The end of an active area less its start, both of 11 bits. -/
def lcdExtent (value : BitVec 32) : BitVec 32 :=
  (value &&& 0x7ff#32) - ((value >>> 16) &&& 0x7ff#32)

/-- The write of LCDCTRL. -/
def lcdctrlWrite (s : Jz4740Lcdc) (value : BitVec 32) : Except LcdStop Jz4740Lcdc :=
  let index := (value &&& 0x7#32).toNat
  match jz4740LcdBpp[index]? with
  | none => .error .outOfBounds
  | some bpp =>
    if bpp = 1#32 then .error .exits
    else match s.lineFnTab[index]? with
      | none => .error .outOfBounds
      | some fn => .ok { s with
          lcdctrl := value &&& 0x3fff3fff#32
          ena := (value &&& 0x8#32) >>> 3
          dis := (value &&& 0x10#32) >>> 4
          bpp := bpp
          lineFn := fn }

def jz4740LcdcWrite (s : Jz4740Lcdc) (addr : Nat) (value : BitVec 32) :
    Except LcdStop Jz4740Lcdc :=
  match addr with
  | 0x44 | 0x48 | 0x4c => .ok s
  | 0x0 => .ok { s with lcdcfg := value &&& 0x80ffffbf#32 }
  | 0x4 => .ok { s with lcdvsync := value &&& 0x7ff07ff#32 }
  | 0x8 => .ok { s with lcdhsync := value &&& 0x7ff07ff#32 }
  | 0xc => .ok { s with lcdvat := value &&& 0x7ff07ff#32 }
  | 0x10 => .ok { s with lcddah := value &&& 0x7ff07ff#32, width := lcdExtent value }
  | 0x14 => .ok { s with height := lcdExtent value, lcddav := value &&& 0x7ff07ff#32 }
  | 0x18 => .ok { s with lcdps := value &&& 0x7ff07ff#32 }
  | 0x1c => .ok { s with lcdcls := value &&& 0x7ff07ff#32 }
  | 0x20 => .ok { s with lcdspl := value &&& 0x7ff07ff#32 }
  | 0x24 => .ok { s with lcdrev := value &&& 0x7ff0000#32 }
  | 0x30 => lcdctrlWrite s value
  | 0x34 => .ok { s with lcdstate := value &&& 0xbf#32 }
  | 0x38 => .ok { s with lcdiid := value }
  | 0x40 => .ok { s with lcdda0 := value }
  | 0x50 => .ok { s with lcdda1 := value }
  | _ => .error .exits

/-- `jz4740_lcdc_init` on a display of some depth, or of none. -/
def jz4740LcdcInit (depth : Option Depth) : Jz4740Lcdc where
  lineFnTab := match depth with
    | none => List.replicate 6 none
    | some depth => jz4740LcdDrawFn depth
  lineFn := none
  lcdcfg := 0
  lcdvsync := 0
  lcdhsync := 0
  lcdvat := 0
  lcddah := 0
  lcddav := 0
  lcdps := 0
  lcdcls := 0
  lcdspl := 0
  lcdrev := 0
  lcdctrl := 0
  lcdstate := 0
  lcdiid := 0
  lcdda0 := 0
  lcdsa0 := 0
  lcdfid0 := 0
  lcdcmd0 := 0
  lcdda1 := 0
  lcdsa1 := 0
  lcdfid1 := 0
  lcdcmd1 := 0
  ena := 0
  dis := 0
  width := 0
  height := 0
  bpp := 0
  palette := fill 0
  invalidate := false

/-- A 32-bit access of the guest. -/
inductive LcdInput where
  | read (addr : Nat)
  | write (addr : Nat) (value : BitVec 32)

def lcdcStep (s : Jz4740Lcdc) : LcdInput → Except LcdStop (Jz4740Lcdc × Option (BitVec 32))
  | .read addr => (jz4740LcdcRead s addr).map fun v => (s, some v)
  | .write addr value => (jz4740LcdcWrite s addr value).map (·, none)

abbrev lcdcRun : Jz4740Lcdc → List LcdInput →
    Except LcdStop (Jz4740Lcdc × List (Option (BitVec 32))) := run lcdcStep

/-! ## The display -/

/-- A display surface; its bytes are counted from `data`. -/
structure DisplayState where
  data : Buf
  allocated : Bool
  linesize : Nat
  width : BitVec 32
  height : BitVec 32

structure QemuConsole where
  ds : DisplayState
  gWidth : BitVec 32
  gHeight : BitVec 32
  active : Bool

/-- `dpy_resize` of the display driver. -/
abbrev DpyResize := DisplayState → BitVec 32 → BitVec 32 → DisplayState

def qemuConsoleResize (resize : DpyResize) (con : QemuConsole) (width height : BitVec 32) :
    QemuConsole :=
  if con.gWidth ≠ width ∨ con.gHeight ≠ height ∨ ¬ con.ds.allocated then
    { con with
      gWidth := width
      gHeight := height
      ds := if con.active then resize con.ds width height else con.ds }
  else con

/-- `jz4740_lcd_get_buffer`, which aborts outside RAM. -/
def jz4740LcdGetBuffer (addr : BitVec 32) : Option Nat := ramAddr addr.toNat

/-- `for (y = 0; y < height; y++)`, with a pointer into the source and one into
the surface. -/
def drawLines (fn : LineFn) (ram pal : Buf) (width : BitVec 32) (step linesize : Nat) :
    Nat → Nat → Nat → Brush → Brush
  | 0, _, _, b => b
  | lines + 1, src, dest, b =>
    drawLines fn ram pal width step linesize lines (src + step) (dest + linesize)
      (fn.draw ram pal width { b with d := dest, s := src })

/-- What a call of `jz4740_lcd_update_display` has accessed and where it ends: in
the controller, the console and whether the interrupt is raised. -/
structure LcdRefresh where
  log : List LcdAccess
  outcome : Except LcdStop (Jz4740Lcdc × QemuConsole × Bool)

def Jz4740Lcdc.step (s : Jz4740Lcdc) : Nat := ((s.width * s.bpp) >>> 3).toNat

/-- The surface gets the size of the screen. -/
def lcdResize (resize : DpyResize) (s : Jz4740Lcdc) (con : QemuConsole) :
    Jz4740Lcdc × QemuConsole :=
  if s.width ≠ con.ds.width ∨ s.height ≠ con.ds.height then
    ({ s with invalidate := true }, qemuConsoleResize resize con s.width s.height)
  else (s, con)

/-- The frame has been drawn. -/
def lcdFrameDone (s : Jz4740Lcdc) (con : QemuConsole) (surface : Buf) :
    Jz4740Lcdc × QemuConsole × Bool :=
  ({ s with lcdstate := s.lcdstate ||| 0x20#32 },
    { con with ds := { con.ds with data := surface } },
    s.lcdcmd0 &&& 0x40000000#32 ≠ 0#32 ∧ s.lcdctrl &&& 0x2000#32 = 0#32)

def lcdDrawFrame (ram : Buf) (src : Nat) (s : Jz4740Lcdc) (con : QemuConsole) : LcdRefresh :=
  match s.lineFn with
  | none =>
    if s.height = 0#32 then ⟨[], .ok (lcdFrameDone s con con.ds.data)⟩
    else ⟨[], .error .nullCall⟩
  | some fn =>
    let b := drawLines fn ram s.palette s.width s.step con.ds.linesize s.height.toNat src 0
      ⟨0, src, con.ds.data, []⟩
    ⟨b.log, .ok (lcdFrameDone s con b.surface)⟩

/-- The registers that a frame descriptor is loaded into. -/
def lcdLoadDescriptor (ram : Buf) (desc : Nat) (s : Jz4740Lcdc) : Jz4740Lcdc :=
  { s with
    lcdda0 := load32 ram desc
    lcdsa0 := load32 ram (desc + 4)
    lcdfid0 := load32 ram (desc + 8)
    lcdcmd0 := load32 ram (desc + 12) }

def jz4740LcdUpdateDisplay (resize : DpyResize) (ram : Buf) (s : Jz4740Lcdc)
    (con : QemuConsole) : LcdRefresh :=
  if s.ena = 0#32 ∨ s.dis ≠ 0#32 ∨ s.lcdda0 = 0#32 then ⟨[], .ok (s, con, false)⟩
  else match jz4740LcdGetBuffer s.lcdda0 with
    | none => ⟨[], .error .exits⟩
    | some desc =>
      let s := lcdLoadDescriptor ram desc s
      match jz4740LcdGetBuffer s.lcdsa0 with
      | none => ⟨[], .error .exits⟩
      | some src =>
        if s.lcdcmd0 &&& bitMask 28 ≠ 0#32 then
          ⟨[.source src 512], .ok ({ s with palette := blit s.palette 0 (shift ram src) 512 },
            con, false)⟩
        else
          let (s, con) := lcdResize resize s con
          lcdDrawFrame ram src s con

end VirtualNoah
