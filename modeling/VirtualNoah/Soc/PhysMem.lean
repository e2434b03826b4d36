import VirtualNoah.Lib.Words
import VirtualNoah.Soc.GuestRam
import VirtualNoah.Soc.Host

/-!
# The physical address space

`cpu_physical_memory_rw` goes through a range of physical addresses page by
page.  What lies in a RAM page is copied; in any other page one callback is
called, of the widest access that the rest of the range and the address allow.
Guest RAM starts at physical address 0, so a small number taken for a physical
address is an address in RAM.
-/

namespace VirtualNoah

open ByteStore Lanes

/-- The width of an access, which is the index into an `io_mem_read` entry. -/
inductive Width where
  | byte | half | word
  deriving DecidableEq

def Width.bytes : Width → Nat
  | .byte => 1
  | .half => 2
  | .word => 4

/-- Guest RAM and the state of the devices. -/
structure Machine (σ : Type) where
  ram : Buf
  dev : σ

/-- `CPUReadMemoryFunc` -/
abbrev ReadFunc (σ : Type) := Machine σ → Nat → Except Fault (Machine σ × BitVec 32)

/-- `CPUWriteMemoryFunc` -/
abbrev WriteFunc (σ : Type) := Machine σ → Nat → BitVec 32 → Except Fault (Machine σ)

/-- The pages that are not RAM: the `io_index` and the `region_offset` of each
that `phys_page_find` finds, and the callbacks. -/
structure IoMem (σ : Type) where
  page : Nat → Option (Nat × Nat)
  read : Nat → Width → ReadFunc σ
  write : Nat → Width → WriteFunc σ

/-- `IO_MEM_UNASSIGNED >> IO_MEM_SHIFT` -/
def ioMemUnassigned : Nat := 2

section Transfer

variable {σ : Type}

/-- The callbacks an address belongs to and the address they are called with. -/
def IoMem.target (io : IoMem σ) (addr : Nat) : Nat × Nat :=
  match io.page (addr / targetPageSize) with
  | some (index, regionOffset) => (index, addr % targetPageSize + regionOffset)
  | none => (ioMemUnassigned, addr)

def ioWidth (l addr : Nat) : Width :=
  if 4 ≤ l ∧ addr % 4 = 0 then .word
  else if 2 ≤ l ∧ addr % 2 = 0 then .half
  else .byte

/-- `page + TARGET_PAGE_SIZE - addr`, at most `len` -/
def pagePart (addr len : Nat) : Nat :=
  min (addr / targetPageSize * targetPageSize + targetPageSize - addr) len

/-- The little-endian word of up to four bytes. -/
def wordOf (bytes : List Byte) : BitVec 32 :=
  let b := listBuf bytes
  ofLanes (b 0) (b 1) (b 2) (b 3)

/-- The bytes of a value of some width, as they lie in memory. -/
def valueBytes (w : Width) (value : BitVec 32) : List Byte :=
  (List.range w.bytes).map (lane value)

/-- The loop of `cpu_physical_memory_rw` with `is_write` clear. -/
def physReadLoop (io : IoMem σ) : Nat → Machine σ → Nat → Nat →
    Except Fault (Machine σ × List Byte)
  | _, m, _, 0 => .ok (m, [])
  | 0, _, _, _ + 1 => .error .spin
  | fuel + 1, m, addr, len@(_ + 1) =>
    let l := pagePart addr len
    match cpuGetPhysicalPageDesc addr with
    | some pd => do
      let (m', rest) ← physReadLoop io fuel m (addr + l) (len - l)
      return (m', (List.range l).map (shift m.ram (pd + addr % targetPageSize)) ++ rest)
    | none => do
      let (index, addr) := io.target addr
      let w := ioWidth l addr
      let (m', val) ← io.read index w m addr
      let (m', rest) ← physReadLoop io fuel m' (addr + w.bytes) (len - w.bytes)
      return (m', valueBytes w val ++ rest)

/-- The loop of `cpu_physical_memory_rw` with `is_write` set. -/
def physWriteLoop (io : IoMem σ) : Nat → Machine σ → Nat → List Byte → Except Fault (Machine σ)
  | _, m, _, [] => .ok m
  | 0, _, _, _ :: _ => .error .spin
  | fuel + 1, m, addr, buf@(_ :: _) =>
    let l := pagePart addr buf.length
    match cpuGetPhysicalPageDesc addr with
    | some pd =>
      let ram := blit m.ram (pd + addr % targetPageSize) (listBuf buf) l
      physWriteLoop io fuel { m with ram := ram } (addr + l) (buf.drop l)
    | none => do
      let (index, addr) := io.target addr
      let w := ioWidth l addr
      let m' ← io.write index w m addr (wordOf (buf.take w.bytes))
      physWriteLoop io fuel m' (addr + w.bytes) (buf.drop w.bytes)

def cpuPhysicalMemoryRead (io : IoMem σ) (m : Machine σ) (addr len : Nat) :
    Except Fault (Machine σ × List Byte) :=
  physReadLoop io len m addr len

def cpuPhysicalMemoryWrite (io : IoMem σ) (m : Machine σ) (addr : Nat) (buf : List Byte) :
    Except Fault (Machine σ) :=
  physWriteLoop io buf.length m addr buf

end Transfer

section Ram

variable {σ : Type} {io : IoMem σ} {m : Machine σ} {addr len fuel : Nat} {buf : List Byte}

/-- Guest RAM is one piece of the host buffer. -/
theorem ramPage_eq (mapped : addr < 0x4004000) :
    ∃ pd, cpuGetPhysicalPageDesc addr = some pd ∧ pd + addr % targetPageSize = addr := by
  obtain ⟨r, region⟩ := ramRegion_isSome_iff.mpr mapped
  have found := ramAddr_eq region
  obtain ⟨below, -⟩ := ramRegion_contains region
  have same : r.offset + (addr - r.base) = addr := by
    rcases sram_or_sdram region with rfl | rfl
    · exact (Nat.zero_add _).trans (Nat.sub_zero addr)
    · exact Nat.add_sub_cancel' below
  rw [same] at found
  exact Option.map_eq_some_iff.mp found

theorem pagePart_pos (some : 0 < len) : 0 < pagePart addr len := by
  have inPage := Nat.mod_lt addr (show 0 < targetPageSize by decide)
  have split := Nat.div_add_mod' addr targetPageSize
  unfold pagePart
  omega

theorem pagePart_le : pagePart addr len ≤ len := Nat.min_le_right _ _

theorem physReadLoop_ram (mapped : addr + len ≤ 0x4004000) (enough : len ≤ fuel) :
    physReadLoop io fuel m addr len = .ok (m, (List.range len).map (shift m.ram addr)) := by
  induction fuel generalizing addr len with
  | zero =>
    cases Nat.le_zero.mp enough
    rfl
  | succ fuel ih =>
    cases len with
    | zero => rfl
    | succ len =>
      obtain ⟨pd, page, place⟩ := ramPage_eq (show addr < 0x4004000 by omega)
      have pos : 0 < pagePart addr (len + 1) := pagePart_pos (Nat.succ_pos len)
      have part : pagePart addr (len + 1) ≤ len + 1 := pagePart_le
      have rest : physReadLoop io fuel m (addr + pagePart addr (len + 1))
          (len + 1 - pagePart addr (len + 1)) = _ := ih (by omega) (by omega)
      simp only [physReadLoop, page, place, rest]
      -- the part in this page and the rest make up the range
      have split := List.range_add (n := pagePart addr (len + 1))
        (m := len + 1 - pagePart addr (len + 1))
      rw [Nat.add_sub_cancel' part] at split
      rw [split, List.map_append, List.map_map]
      refine congrArg Except.ok (congrArg (Prod.mk m) (congrArg (_ ++ ·) ?_))
      refine List.map_congr_left fun i _ => ?_
      simp only [shift_apply, Function.comp_apply, Nat.add_assoc]

theorem physWriteLoop_ram (mapped : addr + buf.length ≤ 0x4004000)
    (enough : buf.length ≤ fuel) :
    physWriteLoop io fuel m addr buf =
      .ok { m with ram := blit m.ram addr (listBuf buf) buf.length } := by
  induction fuel generalizing m addr buf with
  | zero =>
    cases List.eq_nil_of_length_eq_zero (Nat.le_zero.mp enough)
    exact congrArg (fun ram => Except.ok { m with ram := ram }) blit_zero_len.symm
  | succ fuel ih =>
    cases buf with
    | nil => exact congrArg (fun ram => Except.ok { m with ram := ram }) blit_zero_len.symm
    | cons b bytes =>
      obtain ⟨buf, same⟩ : ∃ buf, buf = b :: bytes := ⟨_, rfl⟩
      have some : 0 < buf.length := same ▸ Nat.succ_pos _
      rw [← same] at mapped enough ⊢
      obtain ⟨pd, page, place⟩ := ramPage_eq (show addr < 0x4004000 by omega)
      have pos : 0 < pagePart addr buf.length := pagePart_pos some
      have part : pagePart addr buf.length ≤ buf.length := pagePart_le
      have left : (buf.drop (pagePart addr buf.length)).length =
          buf.length - pagePart addr buf.length := List.length_drop
      have rest : physWriteLoop io fuel
          { m with ram := blit m.ram addr (listBuf buf) (pagePart addr buf.length) }
          (addr + pagePart addr buf.length) (buf.drop (pagePart addr buf.length)) = _ :=
        ih (by omega) (by omega)
      have unfolded : physWriteLoop io (fuel + 1) m addr buf =
          physWriteLoop io fuel
            { m with ram := blit m.ram addr (listBuf buf) (pagePart addr buf.length) }
            (addr + pagePart addr buf.length) (buf.drop (pagePart addr buf.length)) := by
        subst same
        simp only [physWriteLoop, page, place]
      rw [unfolded, rest, left, blit_blit_append, Nat.add_sub_cancel' part]
      refine congrArg (fun ram => Except.ok { m with ram := ram }) (blit_congr fun i _ => ?_)
      split
      · rfl
      · simp only [listBuf, List.getD_eq_getElem?_getD, List.getElem?_drop]
        rw [Nat.add_sub_cancel' (by omega)]

/-- A range in guest RAM is read as it is. -/
theorem cpuPhysicalMemoryRead_ram (mapped : addr + len ≤ 0x4004000) :
    cpuPhysicalMemoryRead io m addr len = .ok (m, (List.range len).map (shift m.ram addr)) :=
  physReadLoop_ram mapped (Nat.le_refl len)

/-- A range in guest RAM is overwritten. -/
theorem cpuPhysicalMemoryWrite_ram (mapped : addr + buf.length ≤ 0x4004000) :
    cpuPhysicalMemoryWrite io m addr buf =
      .ok { m with ram := blit m.ram addr (listBuf buf) buf.length } :=
  physWriteLoop_ram mapped (Nat.le_refl _)

end Ram

end VirtualNoah
