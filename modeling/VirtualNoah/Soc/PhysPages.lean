import VirtualNoah.Soc.GuestRam
import VirtualNoah.Soc.Host

/-!
# The table of physical pages

`exec.c` finds the callbacks of a physical address in a table of two levels.  A page that
several regions share is a zone of its own, whose callbacks look the address up once more.
The functions and the pointers of the devices are left open.
-/

namespace VirtualNoah

/-! ## Zones -/

/-- `io_mem_read` and `io_mem_write` -/
inductive Dir where
  | read
  | write
  deriving DecidableEq

/-- A `CPUReadMemoryFunc` or `CPUWriteMemoryFunc`. -/
inductive IoFunc (φ : Type) where
  | device (f : φ)
  | unassigned
  /-- those of watchpoints and of clean pages, which only the TLB refers to -/
  | tlb
  /-- `subpage_readb` and so on, by the width they pass on -/
  | subpage (len : Nat)

/-- An entry of `io_mem_opaque`. -/
inductive IoPtr (ω : Type) where
  | null
  | device (o : ω)
  | subpage (id : Nat)

structure IoZone (φ ω : Type) where
  mem : Dir → Nat → Option (IoFunc φ)
  opaquePtr : IoPtr ω

/-- The pointers of a `subpage_t` for one byte, direction and width: `&io_mem_read[memory][i]`
is kept as `memory`. -/
structure SubpageEntry (ω : Type) where
  memory : Nat
  opaquePtr : IoPtr ω
  regionOffset : Nat

structure Subpage (ω : Type) where
  base : Nat
  entry : Nat → Dir → Nat → Option (SubpageEntry ω)

structure PhysPageDesc where
  physOffset : Nat
  regionOffset : Nat

/-- The table, the zones, and the subpages that have been allocated. -/
structure PhysMap (φ ω : Type) where
  l1PhysMap : Nat → Option (Nat → PhysPageDesc)
  ioMem : Nat → IoZone φ ω
  ioMemNb : Nat
  subpages : Nat → Subpage ω
  subpageNb : Nat

/-- `IO_MEM_UNASSIGNED`, as a `phys_offset` -/
def physUnassigned : Nat := 0x10

/-- `IO_MEM_ROM` -/
def physRom : Nat := 0x8

/-- `IO_MEM_ROMD`, `IO_MEM_SUBPAGE` and `IO_MEM_SUBWIDTH` -/
def ioMemRomd : Nat := 1
def ioMemSubpage : Nat := 2
def ioMemSubwidth : Nat := 4

def ioMemNbEntries : Nat := 0x200

/-- -1, as an unsigned offset of 64 bits -/
def physNone : Nat := 2 ^ 64 - 1

section Map

variable {φ ω : Type}

/-! ## The two levels -/

namespace PhysMap

def l1Index (index : Nat) : Nat := index / 0x400 % 0x400

def l2Index (index : Nat) : Nat := index % 0x400

/-- `phys_page_find` -/
def physPageFind (s : PhysMap φ ω) (index : Nat) : Option PhysPageDesc :=
  (s.l1PhysMap (l1Index index)).map fun pd => pd (l2Index index)

/-- `p && p->phys_offset != IO_MEM_UNASSIGNED` -/
def assigned (s : PhysMap φ ω) (index : Nat) : Option PhysPageDesc :=
  (s.physPageFind index).filter fun p => p.physOffset ≠ physUnassigned

/-- A store through the pointer that `phys_page_find` has returned. -/
def setPage (s : PhysMap φ ω) (index : Nat) (pd : PhysPageDesc) : PhysMap φ ω :=
  { s with
    l1PhysMap := Function.update s.l1PhysMap (l1Index index)
      ((s.l1PhysMap (l1Index index)).map fun l2 => Function.update l2 (l2Index index) pd) }

/-- `phys_page_find_alloc`: `qemu_vmalloc` clears nothing, so the `region_offset`s of a new
table are what was in memory. -/
def physPageFindAlloc (stale : Nat → Nat → Nat) (s : PhysMap φ ω) (index : Nat) : PhysMap φ ω :=
  match s.l1PhysMap (l1Index index) with
  | some _ => s
  | none =>
    { s with
      l1PhysMap := Function.update s.l1PhysMap (l1Index index)
        (some fun i => ⟨physUnassigned, stale (l1Index index) i⟩) }

section Table

variable {s : PhysMap φ ω} {m n : Nat} {pd : PhysPageDesc} {stale : Nat → Nat → Nat}

/-- Pages of 32-bit addresses share no entry of the table. -/
theorem index_ne (small : m < 2 ^ 20) (small' : n < 2 ^ 20) (other : m ≠ n)
    (same : l1Index m = l1Index n) : l2Index m ≠ l2Index n := by
  unfold l1Index at same
  unfold l2Index
  omega

theorem physPageFind_setPage (present : (s.physPageFind n).isSome) :
    (s.setPage n pd).physPageFind n = some pd := by
  rw [physPageFind, Option.isSome_map] at present
  obtain ⟨l2, table⟩ := Option.isSome_iff_exists.mp present
  simp only [physPageFind, setPage, Function.update_self, table, Option.map_some]

theorem physPageFind_setPage_ne (small : m < 2 ^ 20) (small' : n < 2 ^ 20) (other : m ≠ n) :
    (s.setPage n pd).physPageFind m = s.physPageFind m := by
  by_cases same : l1Index m = l1Index n
  · have column := index_ne small small' other same
    simp only [physPageFind, setPage, same, Function.update_self, Option.map_map]
    congr 1
    funext l2
    exact Function.update_of_ne column _ _
  · simp only [physPageFind, setPage, Function.update_of_ne same]

theorem assigned_setPage_ne (small : m < 2 ^ 20) (small' : n < 2 ^ 20) (other : m ≠ n) :
    (s.setPage n pd).assigned m = s.assigned m := by
  rw [assigned, assigned, physPageFind_setPage_ne small small' other]

theorem assigned_setPage (present : (s.physPageFind n).isSome)
    (mapped : pd.physOffset ≠ physUnassigned) : (s.setPage n pd).assigned n = some pd := by
  rw [assigned, physPageFind_setPage present]
  exact Option.filter_some_pos (decide_eq_true mapped)

/-- A new table has nothing assigned. -/
theorem assigned_physPageFindAlloc : (s.physPageFindAlloc stale n).assigned m = s.assigned m := by
  rw [physPageFindAlloc]
  cases table : s.l1PhysMap (l1Index n) with
  | some l2 => rfl
  | none =>
    by_cases same : l1Index m = l1Index n
    · simp only [assigned, physPageFind, same, Function.update_self, table, Option.map_some,
        Option.map_none, Option.filter_none]
      exact Option.filter_some_neg (by simp)
    · simp only [assigned, physPageFind, Function.update_of_ne same]

theorem isSome_physPageFindAlloc : ((s.physPageFindAlloc stale n).physPageFind n).isSome := by
  rw [physPageFindAlloc]
  cases table : s.l1PhysMap (l1Index n) with
  | some l2 => simp only [physPageFind, table, Option.map_some, Option.isSome_some]
  | none => simp only [physPageFind, Function.update_self, Option.map_some, Option.isSome_some]

theorem find_of_assigned (found : s.assigned n = some pd) : s.physPageFind n = some pd :=
  (Option.filter_eq_some_iff.mp found).1

end Table

/-! ## Zones and subpages -/

/-- `cpu_register_io_memory`, with the number of the zone for its return value. -/
def cpuRegisterIoMemory (s : PhysMap φ ω) (ioIndex : Nat) (mem : Dir → Nat → Option (IoFunc φ))
    (opaquePtr : IoPtr ω) : PhysMap φ ω × Nat :=
  let full := if ioIndex = 0 then ioMemNbEntries ≤ s.ioMemNb else ioMemNbEntries ≤ ioIndex
  if full then (s, physNone)
  else
    let (s, ioIndex) :=
      if ioIndex = 0 then ({ s with ioMemNb := s.ioMemNb + 1 }, s.ioMemNb) else (s, ioIndex)
    let subwidth :=
      if (List.range 3).all fun i => (mem .read i).isSome && (mem .write i).isSome then 0
      else ioMemSubwidth
    let old := s.ioMem ioIndex
    let zone : IoZone φ ω :=
      { mem := fun dir i => if i < 3 then mem dir i else old.mem dir i, opaquePtr := opaquePtr }
    ({ s with ioMem := Function.update s.ioMem ioIndex zone }, ioIndex <<< 3 ||| subwidth)

/-- `subpage_register`; the zones end at the last of `io_mem_read`. -/
def subpageRegister (s : PhysMap φ ω) (id start stop memory regionOffset : Nat) :
    Except Fault (PhysMap φ ω) :=
  if targetPageSize ≤ start ∨ targetPageSize ≤ stop then .ok s
  else
    let memory := memory >>> 3
    if ioMemNbEntries ≤ memory then .error .outOfBounds
    else
      let zone := s.ioMem memory
      let old := s.subpages id
      let entry := fun idx dir i =>
        if start ≤ idx ∧ idx ≤ stop ∧ i < 4 ∧ (zone.mem dir i).isSome then
          some ⟨memory, zone.opaquePtr, regionOffset⟩
        else old.entry idx dir i
      .ok { s with subpages := Function.update s.subpages id { old with entry := entry } }

/-- `subpage_read` and `subpage_write` -/
def subpageFn (_ : Dir) (i : Nat) : Option (IoFunc φ) := if i < 3 then some (.subpage i) else none

/-- `subpage_init`: the page becomes a zone that passes on to what it was before. -/
def subpageInit (s : PhysMap φ ω) (index origMemory regionOffset : Nat) :
    Except Fault (PhysMap φ ω × Nat) := do
  let id := s.subpageNb
  let s := { s with
    subpages := Function.update s.subpages id ⟨index * targetPageSize, fun _ _ _ => none⟩
    subpageNb := s.subpageNb + 1 }
  let (s, subpageMemory) := s.cpuRegisterIoMemory 0 subpageFn (.subpage id)
  let pd := (s.physPageFind index).getD ⟨physUnassigned, 0⟩
  let s := s.setPage index { pd with physOffset := subpageMemory ||| ioMemSubpage }
  let s ← s.subpageRegister id 0 (targetPageSize - 1) origMemory regionOffset
  .ok (s, id)

/-! ## Registering -/

/-- `CHECK_SUBPAGE`: the part of the page that the region takes, and `need_subpage`. -/
def checkSubpage (addr start size : Nat) : Nat × Nat × Bool :=
  let start2 := if start < addr then 0 else start % targetPageSize
  let part := start + size - addr
  let stop2 := if targetPageSize ≤ part then targetPageSize - 1
    else (start + size - 1) % targetPageSize
  (start2, stop2, 0 < start2 || stop2 < targetPageSize - 1)

/-- RAM and ROM go on with the next page of the host buffer. -/
def nextOffset (physOffset : Nat) : Nat :=
  if physOffset % targetPageSize ≤ physRom ∨ physOffset &&& ioMemRomd ≠ 0 then
    physOffset + targetPageSize
  else physOffset

/-- The loop body of `cpu_register_physical_memory_offset`, with the `phys_offset` of the next
page.  A page that has been assigned before keeps its `region_offset`. -/
def registerPage (stale : Nat → Nat → Nat) (start size addr physOffset regionOffset : Nat)
    (s : PhysMap φ ω) : Except Fault (PhysMap φ ω × Nat) :=
  let index := addr / targetPageSize
  let (start2, stop2, needSubpage) := checkSubpage addr start size
  let subpaged := needSubpage = true ∨ physOffset &&& ioMemSubwidth ≠ 0
  match s.assigned index with
  | some p =>
    if subpaged then do
      let (s, id) ←
        if p.physOffset &&& ioMemSubpage = 0 then
          s.subpageInit index p.physOffset p.regionOffset
        else
          match (s.ioMem ((p.physOffset % targetPageSize) >>> 3)).opaquePtr with
          | .subpage id => .ok (s, id)
          | _ => .error .segv
      let s ← s.subpageRegister id start2 stop2 physOffset regionOffset
      let pd := (s.physPageFind index).getD p
      .ok (s.setPage index { pd with regionOffset := 0 }, physOffset)
    else
      .ok (s.setPage index { p with physOffset := physOffset }, nextOffset physOffset)
  | none =>
    let s := (s.physPageFindAlloc stale index).setPage index ⟨physOffset, regionOffset⟩
    if physOffset % targetPageSize ≤ physRom ∨ physOffset &&& ioMemRomd ≠ 0 then
      .ok (s, nextOffset physOffset)
    else if subpaged then do
      let (s, id) ← s.subpageInit index physUnassigned 0
      let s ← s.subpageRegister id start2 stop2 physOffset regionOffset
      let pd := (s.physPageFind index).getD ⟨physOffset, regionOffset⟩
      .ok (s.setPage index { pd with regionOffset := 0 }, physOffset)
    else .ok (s, physOffset)

/-- The loop, from the page of `addr` on. -/
def registerLoop (stale : Nat → Nat → Nat) (start size : Nat) :
    Nat → Nat → Nat → Nat → PhysMap φ ω → Except Fault (PhysMap φ ω)
  | 0, _, _, _, s => .ok s
  | count + 1, addr, physOffset, regionOffset, s => do
    let (s, physOffset) ← s.registerPage stale start size addr physOffset regionOffset
    registerLoop stale start size count (addr + targetPageSize) physOffset
      (regionOffset + targetPageSize) s

/-- `cpu_register_physical_memory_offset` -/
def cpuRegisterPhysicalMemoryOffset (stale : Nat → Nat → Nat)
    (start size physOffset regionOffset : Nat) (s : PhysMap φ ω) : Except Fault (PhysMap φ ω) :=
  registerLoop stale start size ((size + targetPageSize - 1) / targetPageSize) start physOffset
    (regionOffset / targetPageSize * targetPageSize) s

/-! ## Before the devices -/

/-- The memory of a new process: no table, and every function `NULL`. -/
def noPages : PhysMap φ ω where
  l1PhysMap := fun _ => none
  ioMem := fun _ => ⟨fun _ _ => none, .null⟩
  ioMemNb := 0
  subpages := fun _ => ⟨0, fun _ _ _ => none⟩
  subpageNb := 0

def unassignedFn (_ : Dir) (_ : Nat) : Option (IoFunc φ) := some .unassigned

/-- `error_mem_read` with `unassigned_mem_write` -/
def romFn : Dir → Nat → Option (IoFunc φ)
  | .read, _ => none
  | .write, _ => some .unassigned

/-- `error_mem_read` with `notdirty_mem_write` -/
def notdirtyFn : Dir → Nat → Option (IoFunc φ)
  | .read, _ => none
  | .write, _ => some .tlb

def watchFn (_ : Dir) (_ : Nat) : Option (IoFunc φ) := some .tlb

/-- `io_mem_init`, up to the zone of the watchpoints. -/
def ioMemInit : PhysMap φ ω :=
  let s := (noPages.cpuRegisterIoMemory (physRom >>> 3) romFn .null).1
  let s := (s.cpuRegisterIoMemory (physUnassigned >>> 3) unassignedFn .null).1
  let s := (s.cpuRegisterIoMemory 3 notdirtyFn .null).1
  ({ s with ioMemNb := 5 }.cpuRegisterIoMemory 0 watchFn .null).1

/-! ## Accesses -/

end PhysMap

/-- Where an access ends. -/
inductive IoTarget (φ ω : Type) where
  /-- a byte of `phys_ram_base` -/
  | ram (offset : Nat)
  | call (f : φ) (o : IoPtr ω) (addr : Nat)
  | unassigned
  | tlb
  /-- a call through `NULL`, or a subpage function on something else -/
  | null
  | spin

namespace PhysMap

/-- A callback is called; a subpage looks the address up again. -/
def ioCall (s : PhysMap φ ω) (dir : Dir) : Nat → IoFunc φ → IoPtr ω → Nat → IoTarget φ ω
  | _, .device f, o, addr => .call f o addr
  | _, .unassigned, _, _ => .unassigned
  | _, .tlb, _, _ => .tlb
  | 0, .subpage _, _, _ => .spin
  | fuel + 1, .subpage len, .subpage id, addr =>
    match (s.subpages id).entry (addr % targetPageSize) dir len with
    | none => .null
    | some e =>
      match (s.ioMem e.memory).mem dir len with
      | none => .null
      | some f => ioCall s dir fuel f e.opaquePtr (addr + e.regionOffset)
  | _ + 1, .subpage _, _, _ => .null

/-- The zone at `index` of `io_mem_read` or `io_mem_write` is called. -/
def zoneCall (s : PhysMap φ ω) (fuel index : Nat) (dir : Dir) (len addr : Nat) : IoTarget φ ω :=
  match (s.ioMem index).mem dir len with
  | none => .null
  | some f => s.ioCall dir fuel f (s.ioMem index).opaquePtr addr

/-- What `cpu_physical_memory_rw` does at an address with a callback of index `len`: reads
find RAM also in what is not RAM for a write. -/
def physTarget (s : PhysMap φ ω) (fuel : Nat) (dir : Dir) (len addr : Nat) : IoTarget φ ω :=
  match s.physPageFind (addr / targetPageSize) with
  | none => s.zoneCall fuel (physUnassigned >>> 3) dir len addr
  | some p =>
    let io : Bool := match dir with
      | .write => p.physOffset % targetPageSize ≠ 0
      | .read => physRom < p.physOffset % targetPageSize ∧ p.physOffset &&& ioMemRomd = 0
    if io then
      s.zoneCall fuel ((p.physOffset >>> 3) % ioMemNbEntries) dir len
        (addr % targetPageSize + p.regionOffset)
    else .ram (p.physOffset / targetPageSize * targetPageSize + addr % targetPageSize)

end PhysMap

end Map

end VirtualNoah
