import VirtualNoah.Soc.PhysLayers

/-!
# What a board registers

At start a board registers its RAM and its devices one after the other.  For the pavo board
this gives the address map of the SoC: the two pieces of guest RAM, the register pages, and
the page that the TCU shares with its first timer.
-/

namespace VirtualNoah

open Outcome PhysMap StepRun

/-! ## Any board -/

section Board

variable {φ ω : Type}

/-- A call of `cpu_register_physical_memory_offset`, for a device with the zone that
`cpu_register_io_memory` has just returned. -/
structure Mapping (φ ω : Type) where
  start : Nat
  size : Nat
  kind : LayerKind φ ω

def Mapping.layer (m : Mapping φ ω) : Layer φ ω := ⟨m.start, m.start + m.size, m.kind⟩

/-- The three callbacks of a device in one direction. -/
def deviceFn (mem : Dir → Nat → φ) (dir : Dir) (i : Nat) : Option (IoFunc φ) :=
  if i < 3 then some (.device (mem dir i)) else none

def Mapping.install (stale : Nat → Nat → Nat) (s : PhysMap φ ω) (m : Mapping φ ω) :
    Except Fault (PhysMap φ ω) :=
  match m.kind with
  | .ram offset => s.cpuRegisterPhysicalMemoryOffset stale m.start m.size offset 0
  | .device mem o regionOffset =>
    let (s, iomemtype) := s.cpuRegisterIoMemory 0 (deviceFn mem) (.device o)
    s.cpuRegisterPhysicalMemoryOffset stale m.start m.size iomemtype regionOffset

def installAll (stale : Nat → Nat → Nat) (s : PhysMap φ ω) (ms : List (Mapping φ ω)) :
    Except Fault (PhysMap φ ω) :=
  ms.foldlM (Mapping.install stale) s

/-- The last mapping is on top. -/
def layersOf (ms : List (Mapping φ ω)) : List (Layer φ ω) := (ms.map Mapping.layer).reverse

section Install

variable {s : PhysMap φ ω} {m : Mapping φ ω} {layers : List (Layer φ ω)}

/-- A zone of which no page knows yet. -/
theorem refines_newZone (refines : Refines s layers) (mem : Dir → Nat → φ) (o : ω)
    (room : s.ioMemNb < ioMemNbEntries) :
    ∃ t, s.cpuRegisterIoMemory 0 (deviceFn mem) (.device o) = (t, 8 * s.ioMemNb) ∧
      Refines t layers ∧ DeviceAt t s.ioMemNb mem o ∧ t.ioMemNb = s.ioMemNb + 1 := by
  have whole : ∀ dir i, i < 3 → (deviceFn mem dir i).isSome := by
    intro dir i inside
    rw [deviceFn, if_pos inside]
    rfl
  obtain ⟨zone, slots, ptr, new⟩ :=
    @cpuRegisterIoMemory_new _ _ s (deviceFn mem) (.device o) room whole
  let t : PhysMap φ ω :=
    { s with ioMem := Function.update s.ioMem s.ioMemNb zone, ioMemNb := s.ioMemNb + 1 }
  have only : OnlyPage s t (2 ^ 20) := by
    constructor
    case page => exact fun _ _ _ => rfl
    case zones => exact fun z old => Function.update_of_ne (Nat.ne_of_lt old) _ _
    case more => exact Nat.le_succ _
    case subpages => exact fun _ _ _ => rfl
    case moreSubpages => exact Nat.le_refl _
  have here : t.ioMem s.ioMemNb = zone := Function.update_self ..
  have calls : ∀ dir i, i < 3 → (t.ioMem s.ioMemNb).mem dir i = some (.device (mem dir i)) := by
    intro dir i inside
    rw [here, slots dir i inside, deviceFn, if_pos inside]
  have later : 2 < s.ioMemNb := refines.unassigned.registered
  have leaf : Leaf t s.ioMemNb := ⟨Nat.lt_of_succ_lt later, Nat.lt_succ_self _, room,
    Or.inr fun dir i inside => ⟨_, calls dir i inside⟩⟩
  refine ⟨t, new, ?_, ⟨leaf, later, calls, ?_⟩, rfl⟩
  · constructor
    case unassigned => exact refines.unassigned.of_onlyPage only
    case none =>
      rw [only.zones 2 refines.unassigned.registered]
      exact refines.none
    case page =>
      intro n small
      obtain ⟨kind, before, rest⟩ := refines.page n small
      exact ⟨kind, before.of_onlyPage only small (Nat.ne_of_lt small), rest⟩
    case target =>
      intro fuel dir len addr width bound
      have small : addr / targetPageSize < 2 ^ 20 := by
        rw [targetPageSize]
        omega
      obtain ⟨kind, before, -⟩ := refines.page _ small
      rw [physTarget_onlyPage before only small (Nat.ne_of_lt small) refines.unassigned
        refines.none width]
      exact refines.target fuel dir len addr width bound
  · rw [here, ptr]

/-- A mapping takes two zones at most, one of them for a page it shares. -/
theorem install_refines (stale : Nat → Nat → Nat) (refines : Refines s layers)
    (shaped : m.layer.Shaped) (lies : ∀ below ∈ layers, m.layer.Over below)
    (room : s.ioMemNb + 1 < ioMemNbEntries) :
    ∃ t, m.install stale s = .ok t ∧ Refines t (m.layer :: layers) ∧
      t.ioMemNb ≤ s.ioMemNb + 2 := by
  have size : m.layer.stop - m.layer.start = m.size := Nat.add_sub_cancel_left _ _
  cases kind : m.kind with
  | ram offset =>
    obtain ⟨t, done, refines', same⟩ := register_ram stale refines shaped lies kind 0
    rw [size] at done
    refine ⟨t, ?_, refines', ?_⟩
    · simp only [Mapping.install, kind]
      exact done
    · rw [same]
      exact Nat.le_add_right _ 2
  | device mem o regionOffset =>
    obtain ⟨t, new, refines', device, grown⟩ :=
      refines_newZone refines mem o (Nat.lt_of_succ_lt room)
    obtain ⟨u, done, refines'', -, bound⟩ :=
      register_device stale refines' shaped lies kind device (grown ▸ room)
    rw [size] at done
    refine ⟨u, ?_, refines'', ?_⟩
    · simp only [Mapping.install, kind, new]
      exact done
    · rw [grown] at bound
      exact bound

theorem unassigned_ioMemInit (dir : Dir) {i : Nat} (inside : i < 3) :
    ((ioMemInit : PhysMap φ ω).ioMem 2).mem dir i = some .unassigned := by
  match i with
  | 0 | 1 | 2 => rfl

theorem ioMemNb_ioMemInit : (ioMemInit : PhysMap φ ω).ioMemNb = 6 := rfl

/-- Before the first device every access is unassigned. -/
theorem refines_ioMemInit : Refines (ioMemInit : PhysMap φ ω) [] where
  unassigned := ⟨by decide, ioMemNb_ioMemInit ▸ by decide, by decide,
    Or.inl fun dir _ => unassigned_ioMemInit dir⟩
  none := fun dir _ => unassigned_ioMemInit dir
  page := fun n _ => ⟨.empty, rfl, fun nonempty => absurd rfl nonempty, nofun⟩
  target := fun _ _ _ _ width _ =>
    physTarget_empty rfl (fun dir _ => unassigned_ioMemInit dir) width

/-- Any list of mappings that share no page but by parts. -/
theorem installAll_ok (stale : Nat → Nat → Nat) (ms : List (Mapping φ ω))
    (shaped : ∀ m ∈ ms, m.layer.Shaped)
    (apart : ms.Pairwise fun below m => m.layer.Over below.layer)
    (lies : ∀ m ∈ ms, ∀ below ∈ layers, m.layer.Over below) (refines : Refines s layers)
    (room : s.ioMemNb + 2 * ms.length ≤ ioMemNbEntries) :
    ∃ t, installAll stale s ms = .ok t ∧ Refines t (layersOf ms ++ layers) := by
  induction ms generalizing s layers with
  | nil => exact ⟨s, rfl, refines⟩
  | cons m ms ih =>
    obtain ⟨first, rest⟩ := List.pairwise_cons.mp apart
    rw [List.length_cons] at room
    obtain ⟨t, done, refines', bound⟩ := install_refines stale refines
      (shaped m List.mem_cons_self) (lies m List.mem_cons_self) (by omega)
    have lies' : ∀ m' ∈ ms, ∀ below ∈ m.layer :: layers, m'.layer.Over below := by
      intro m' later below mem
      rcases List.mem_cons.mp mem with rfl | older
      · exact first m' later
      · exact lies m' (List.mem_cons_of_mem _ later) below older
    obtain ⟨u, done', refines''⟩ := ih (fun m' later => shaped m' (List.mem_cons_of_mem _ later))
      rest lies' refines' (by omega)
    refine ⟨u, (bind_ok done).trans done', ?_⟩
    rw [layersOf, List.map_cons, List.reverse_cons, List.append_assoc]
    exact refines''

end Install

/-- For every list of mappings, whatever an unused part of the table holds, an access of any
width at any address ends where the last mapping of that address says. -/
theorem installAll_refines (stale : Nat → Nat → Nat) (ms : List (Mapping φ ω))
    (shaped : ∀ m ∈ ms, m.layer.Shaped)
    (apart : ms.Pairwise fun below m => m.layer.Over below.layer) (few : ms.length ≤ 253) :
    ∃ s, installAll stale ioMemInit ms = .ok s ∧
      ∀ fuel dir len addr, len < 3 → addr < 2 ^ 32 →
        s.physTarget (fuel + 1) dir len addr = Layer.lookup (layersOf ms) dir len addr := by
  obtain ⟨s, done, refines⟩ := installAll_ok stale ms shaped apart
    (fun _ _ _ none => absurd none List.not_mem_nil) refines_ioMemInit
    (by rw [ioMemNb_ioMemInit, ioMemNbEntries]; omega)
  rw [List.append_nil] at refines
  exact ⟨s, done, refines.target⟩

/-- A device in a page, and another over a part of it. -/
theorem installAll_refines_shared : ∃ s : PhysMap Nat Nat,
    installAll (fun _ i => i) ioMemInit
      [⟨0x1000, 0x1000, .device (fun _ len => len) 0 0⟩,
        ⟨0x1800, 0x10, .device (fun _ len => 8 + len) 1 0⟩] = .ok s ∧
    s.physTarget 1 .read 2 0x1804 = .call 10 (.device 1) 0x804 ∧
    s.physTarget 1 .read 2 0x1810 = .call 2 (.device 0) 0x810 := by
  obtain ⟨s, done, finds⟩ := installAll_refines (fun _ i => i)
    [⟨0x1000, 0x1000, .device (fun _ len => len) 0 0⟩,
      ⟨0x1800, 0x10, .device (fun _ len => 8 + len) 1 0⟩]
    (by
      refine List.forall_mem_cons.mpr ⟨⟨by decide, by decide, by decide, nofun⟩, ?_⟩
      exact List.forall_mem_singleton.mpr ⟨by decide, by decide, by decide, nofun⟩)
    (List.Pairwise.imp Layer.Apart.over (by decide)) (by decide)
  refine ⟨s, done, ?_, ?_⟩
  · rw [finds 0 .read 2 0x1804 (by decide) (by decide)]
    rfl
  · rw [finds 0 .read 2 0x1810 (by decide) (by decide)]
    rfl

end Board

/-! ## The pavo board -/

/-- The regions of registers, in the order of `jz4740_init` and `pavo_nand_setup`. -/
inductive JzRegion where
  | intc | cpm | emc | gpio | rtc | tcuIf | tcu0 | lcdc | dma | sadc | serial | nand
  deriving DecidableEq

namespace JzRegion

/-- `JZ4740_PHYS_BASE` of the base of a device -/
def base : JzRegion → Nat
  | intc => 0x10001000
  | cpm => 0x10000000
  | emc => 0x13010000
  | gpio => 0x10010000
  | rtc => 0x10003000
  | tcuIf => 0x10002000
  | tcu0 => 0x10002000 + 0x40 + 0 * 0x10
  | lcdc => 0x13050000
  | dma => 0x13020000
  | sadc => 0x10070000
  | serial => 0x10030000
  | nand => 0x18000000

def size : JzRegion → Nat
  | intc | cpm | rtc | sadc => 0x1000
  | emc | gpio | lcdc | dma => 0x10000
  | tcuIf => 0x40
  | tcu0 => 0x10
  | serial => 8 <<< 2
  | nand => 0x20000

/-- The device behind the region: the timer and the TCU are one. -/
def device : JzRegion → JzRegion
  | tcu0 => tcuIf
  | r => r

def Contains (r : JzRegion) (addr : Nat) : Prop := r.base ≤ addr ∧ addr < r.base + r.size

instance (r : JzRegion) (addr : Nat) : Decidable (r.Contains addr) :=
  inferInstanceAs (Decidable (_ ∧ _))

end JzRegion

/-- An entry of `jz4740_cpm_readfn`, `jz4740_cpm_writefn` and so on. -/
structure JzFunc where
  region : JzRegion
  dir : Dir
  width : Nat

def JzRegion.mapping (r : JzRegion) : Mapping JzFunc JzRegion :=
  ⟨r.base, r.size, .device (fun dir width => ⟨r, dir, width⟩) r.device 0⟩

/-- `qemu_ram_alloc`, with the next `phys_ram_alloc_offset`; without enough memory it aborts. -/
def qemuRamAlloc (physRamSize physRamAllocOffset size : Nat) : Option (Nat × Nat) :=
  if physRamSize < physRamAllocOffset + size then none
  else some (physRamAllocOffset,
    (physRamAllocOffset + size + targetPageSize - 1) / targetPageSize * targetPageSize)

/-- The regions of `jz4740_init`, which has a UART only with `serial_hds[0]`, and the NAND port. -/
def pavoRegions (serialHds : Bool) : List JzRegion :=
  [.intc, .cpm, .emc, .gpio, .rtc, .tcuIf, .tcu0, .lcdc, .dma, .sadc] ++
    (if serialHds then [.serial] else []) ++ [.nand]

/-- What `mips_pavo_init` registers. -/
def pavoMappings (physRamSize : Nat) (serialHds : Bool) :
    Option (List (Mapping JzFunc JzRegion)) := do
  let (sramBase, physRamAllocOffset) ← qemuRamAlloc physRamSize 0 sram.size
  let (sdramBase, _) ← qemuRamAlloc physRamSize physRamAllocOffset sdram.size
  return ⟨sram.base, sram.size, .ram sramBase⟩ :: ⟨sdram.base, sdram.size, .ram sdramBase⟩ ::
    (pavoRegions serialHds).map JzRegion.mapping

/-- A piece of guest RAM, at its offset in `phys_ram_base`. -/
def RamRegion.mapping (r : RamRegion) : Mapping JzFunc JzRegion := ⟨r.base, r.size, .ram r.offset⟩

/-- What is registered when there is enough memory. -/
def pavoLayout (serialHds : Bool) : List (Mapping JzFunc JzRegion) :=
  sram.mapping :: sdram.mapping :: (pavoRegions serialHds).map JzRegion.mapping

section Pavo

variable {r r' : JzRegion} {serialHds : Bool} {physRamSize addr host : Nat}
  {m : Mapping JzFunc JzRegion}

theorem qemuRamAlloc_sram (enough : sram.size ≤ physRamSize) :
    qemuRamAlloc physRamSize 0 sram.size = some (sram.offset, sdram.offset) := by
  rw [qemuRamAlloc, if_neg (Nat.not_lt_of_le ((Nat.zero_add _).symm ▸ enough))]
  decide

theorem qemuRamAlloc_sdram (enough : sdram.offset + sdram.size ≤ physRamSize) :
    qemuRamAlloc physRamSize sdram.offset sdram.size =
      some (sdram.offset, sdram.offset + sdram.size) := by
  rw [qemuRamAlloc, if_neg (Nat.not_lt_of_le enough)]
  decide

theorem pavoMappings_eq (enough : sdram.offset + sdram.size ≤ physRamSize) (serialHds : Bool) :
    pavoMappings physRamSize serialHds = some (pavoLayout serialHds) := by
  have below : sram.size ≤ physRamSize := by
    simp only [sram, sdram] at enough ⊢
    omega
  have first := qemuRamAlloc_sram below
  have second := qemuRamAlloc_sdram enough
  rw [pavoMappings, first, Option.bind_eq_bind, Option.bind_some]
  dsimp only
  rw [second]
  rfl

theorem region_shaped (r : JzRegion) : r.mapping.layer.Shaped where
  pages := by cases r <;> decide
  order := Nat.le_add_right _ _
  space := by cases r <;> decide
  ram := nofun

theorem mem_pavoLayout (mem : m ∈ pavoLayout serialHds) :
    (∃ ram : RamRegion, (ram = sram ∨ ram = sdram) ∧ m = ram.mapping) ∨
      ∃ r ∈ pavoRegions serialHds, m = r.mapping := by
  rcases List.mem_cons.mp mem with rfl | mem
  · exact Or.inl ⟨sram, Or.inl rfl, rfl⟩
  rcases List.mem_cons.mp mem with rfl | mem
  · exact Or.inl ⟨sdram, Or.inr rfl, rfl⟩
  obtain ⟨r, inside, rfl⟩ := List.mem_map.mp mem
  exact Or.inr ⟨r, inside, rfl⟩

theorem ram_shaped {ram : RamRegion} (one : ram = sram ∨ ram = sdram) :
    ram.mapping.layer.Shaped := by
  rcases one with rfl | rfl
  all_goals
    refine ⟨by decide, by decide, by decide, ?_⟩
    rintro offset same
    cases same
    decide

theorem pavoLayout_apart (serialHds : Bool) :
    (pavoLayout serialHds).Pairwise fun below m => m.layer.Apart below.layer := by
  cases serialHds <;> decide

/-- No two regions overlap. -/
theorem region_unique (inside : r.Contains addr) (inside' : r'.Contains addr) : r = r' := by
  have apart : r ≠ r' → r.base + r.size ≤ r'.base ∨ r'.base + r'.size ≤ r.base := by
    cases r <;> cases r' <;> decide
  by_contra other
  obtain ⟨low, high⟩ := inside
  obtain ⟨low', high'⟩ := inside'
  rcases apart other with before | after
  · omega
  · omega

theorem region_not_ram (inside : r.Contains addr) : 0x4004000 ≤ addr := by
  have base : 0x4004000 ≤ r.base := by
    cases r <;> decide
  exact Nat.le_trans base inside.1

theorem covers_region : r.mapping.layer.Covers addr ↔ r.Contains addr := Iff.rfl

theorem covers_ram {ram : RamRegion} : ram.mapping.layer.Covers addr ↔ ram.Contains addr := Iff.rfl

theorem ram_below {ram : RamRegion} (one : ram = sram ∨ ram = sdram) (inside : ram.Contains addr) :
    addr < 0x4004000 := by
  refine Nat.lt_of_lt_of_le inside.2 ?_
  rcases one with rfl | rfl <;> decide

theorem mem_layersOf {ms : List (Mapping JzFunc JzRegion)} {l : Layer JzFunc JzRegion} :
    l ∈ layersOf ms ↔ ∃ m ∈ ms, m.layer = l := by
  rw [layersOf, List.mem_reverse, List.mem_map]

/-- The layer of a piece of RAM or of a region is the only one at its addresses. -/
theorem only_layer {m' : Mapping JzFunc JzRegion} (mem : m ∈ pavoLayout serialHds)
    (mem' : m' ∈ pavoLayout serialHds) (covers : m.layer.Covers addr)
    (covers' : m'.layer.Covers addr) : m' = m := by
  rcases mem_pavoLayout mem with ⟨ram, one, rfl⟩ | ⟨r, -, rfl⟩
  · rcases mem_pavoLayout mem' with ⟨ram', one', rfl⟩ | ⟨r', -, rfl⟩
    · have low := covers_ram.mp covers
      have low' := covers_ram.mp covers'
      rcases one with rfl | rfl
      · rcases one' with rfl | rfl
        · rfl
        · exact absurd low'.1 (Nat.not_le_of_lt low.2)
      · rcases one' with rfl | rfl
        · exact absurd low.1 (Nat.not_le_of_lt low'.2)
        · rfl
    · exact absurd (region_not_ram (covers_region.mp covers'))
        (Nat.not_le_of_lt (ram_below one (covers_ram.mp covers)))
  · rcases mem_pavoLayout mem' with ⟨ram', one', rfl⟩ | ⟨r', -, rfl⟩
    · exact absurd (region_not_ram (covers_region.mp covers))
        (Nat.not_le_of_lt (ram_below one' (covers_ram.mp covers')))
    · rw [region_unique (covers_region.mp covers') (covers_region.mp covers)]

/-- After the start of the board, with or without a UART, an access of any width ends as the
memory map of the SoC says: guest RAM is where the devices that look up a page find it, a
register region gets the address from its page on, and everything else is unassigned. -/
theorem pavo_memory_map (stale : Nat → Nat → Nat) (serialHds : Bool)
    (enough : sdram.offset + sdram.size ≤ physRamSize) :
    ∃ ms s, pavoMappings physRamSize serialHds = some ms ∧
      installAll stale ioMemInit ms = .ok s ∧
      ∀ fuel dir len addr, len < 3 → addr < 2 ^ 32 →
        (∀ host, ramAddr addr = some host → s.physTarget (fuel + 1) dir len addr = .ram host) ∧
        (∀ r ∈ pavoRegions serialHds, r.Contains addr → s.physTarget (fuel + 1) dir len addr =
          .call ⟨r, dir, len⟩ (.device r.device)
            (addr - r.base / targetPageSize * targetPageSize)) ∧
        (ramAddr addr = none → (∀ r ∈ pavoRegions serialHds, ¬ r.Contains addr) →
          s.physTarget (fuel + 1) dir len addr = .unassigned) := by
  have shaped : ∀ m ∈ pavoLayout serialHds, m.layer.Shaped := by
    intro m mem
    rcases mem_pavoLayout mem with ⟨ram, one, rfl⟩ | ⟨r, -, rfl⟩
    · exact ram_shaped one
    · exact region_shaped r
  obtain ⟨s, done, refines⟩ := installAll_ok stale (pavoLayout serialHds) shaped
    ((pavoLayout_apart serialHds).imp Layer.Apart.over)
    (fun _ _ _ none => absurd none List.not_mem_nil) refines_ioMemInit
    (by cases serialHds <;> decide)
  rw [List.append_nil] at refines
  refine ⟨pavoLayout serialHds, s, pavoMappings_eq enough serialHds, done,
    fun fuel dir len addr width bound => ?_⟩
  rw [refines.target fuel dir len addr width bound]
  have top : ∀ m ∈ pavoLayout serialHds, m.layer.Covers addr →
      Layer.lookup (layersOf (pavoLayout serialHds)) dir len addr =
        m.layer.target dir len addr := by
    intro m mem covers
    refine lookup_eq_target (mem_layersOf.mpr ⟨m, mem, rfl⟩) covers fun l' inside covers' => ?_
    obtain ⟨m', mem', rfl⟩ := mem_layersOf.mp inside
    rw [only_layer mem mem' covers covers']
  refine ⟨fun host found => ?_, fun r inside contains => ?_, fun noRam noRegion => ?_⟩
  · obtain ⟨ram, region, rfl⟩ := of_ramAddr found
    have one := sram_or_sdram region
    have mem : ram.mapping ∈ pavoLayout serialHds := by
      rcases one with rfl | rfl
      · exact List.mem_cons_self
      · exact List.mem_cons_of_mem _ List.mem_cons_self
    rw [top _ mem (covers_ram.mpr (ramRegion_contains region))]
    simp only [Mapping.layer, RamRegion.mapping, Layer.target]
  · have mem : r.mapping ∈ pavoLayout serialHds := List.mem_cons_of_mem _
      (List.mem_cons_of_mem _ (List.mem_map_of_mem inside))
    rw [top _ mem (covers_region.mpr contains)]
    simp only [Mapping.layer, JzRegion.mapping, Layer.target, Nat.zero_div, Nat.zero_mul,
      Nat.add_zero]
  · refine lookup_eq_unassigned fun l layer covers => ?_
    obtain ⟨m, mem, rfl⟩ := mem_layersOf.mp layer
    rcases mem_pavoLayout mem with ⟨ram, one, rfl⟩ | ⟨r, inside, rfl⟩
    · obtain ⟨r, region⟩ := ramRegion_isSome_iff.mpr (ram_below one (covers_ram.mp covers))
      rw [ramAddr_eq region] at noRam
      cases noRam
    · exact noRegion r inside (covers_region.mp covers)

/-- The registers of timer 0 get the offset from the page of the TCU.  Those of timer 1, which
`jz4740_init` leaves out, are unassigned. -/
theorem pavo_memory_map_timers : ∃ ms s, pavoMappings 0x4004000 true = some ms ∧
    installAll (fun _ i => i) ioMemInit ms = .ok s ∧
    s.physTarget 1 .write 1 0x10002048 = .call ⟨.tcu0, .write, 1⟩ (.device .tcuIf) 0x48 ∧
    s.physTarget 1 .write 1 0x10002058 = .unassigned := by
  obtain ⟨ms, s, mapped, done, finds⟩ :=
    @pavo_memory_map 0x4004000 (fun _ i => i) true (Nat.le_refl _)
  refine ⟨ms, s, mapped, done, ?_, ?_⟩
  · have timer : JzRegion.Contains .tcu0 0x10002048 := ⟨by decide, by decide⟩
    exact (finds 0 .write 1 0x10002048 (by decide) (by decide)).2.1 .tcu0 (by decide) timer
  · refine (finds 0 .write 1 0x10002058 (by decide) (by decide)).2.2 ?_ ?_
    · refine ramAddr_eq_none ?_
      decide
    · decide

end Pavo

end VirtualNoah
