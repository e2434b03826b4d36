import VirtualNoah.Lib.Words

/-!
# Guest RAM

`jz4740_init` maps two pieces of `phys_ram_base` into the physical address
space, the SRAM and behind it the SDRAM; every other page is a device or
unassigned.  A device that takes a physical address looks up its page and goes
on with a host pointer, so what it does from there on is an access to the host
buffer that only the device itself keeps inside the region.
-/

namespace VirtualNoah

open ByteStore

def targetPageSize : Nat := 0x1000

/-- A range of physical addresses that `cpu_register_physical_memory` maps to
RAM, whole pages on both sides. -/
structure RamRegion where
  base : Nat
  size : Nat
  offset : Nat
  base_paged : base % targetPageSize = 0
  size_paged : size % targetPageSize = 0

def RamRegion.Contains (r : RamRegion) (addr : Nat) : Prop :=
  r.base ≤ addr ∧ addr < r.base + r.size

instance (r : RamRegion) (addr : Nat) : Decidable (r.Contains addr) :=
  inferInstanceAs (Decidable (_ ∧ _))

/-- What is left of the region from the address on. -/
def RamRegion.room (r : RamRegion) (addr : Nat) : Nat := r.base + r.size - addr

def sram : RamRegion := ⟨0x0, 0x4000, 0x0, rfl, rfl⟩

def sdram : RamRegion := ⟨0x4000, 0x4000000, 0x4000, rfl, rfl⟩

/-- The region an address belongs to, if it belongs to RAM at all. -/
def ramRegion (addr : Nat) : Option RamRegion :=
  if sram.Contains addr then some sram
  else if sdram.Contains addr then some sdram
  else none

/-- `cpu_get_physical_page_desc`: where the page of the address starts in
`phys_ram_base`, or nothing when the page is not `IO_MEM_RAM`. -/
def cpuGetPhysicalPageDesc (addr : Nat) : Option Nat :=
  (ramRegion addr).map fun r =>
    r.offset + (addr / targetPageSize * targetPageSize - r.base)

/-- `phys_ram_base + (pd & TARGET_PAGE_MASK) + (addr & ~TARGET_PAGE_MASK)` -/
def ramAddr (addr : Nat) : Option Nat :=
  (cpuGetPhysicalPageDesc addr).map (· + addr % targetPageSize)

/-- An access to the host buffer on behalf of the guest: the physical address it
starts at, where this is in `phys_ram_base`, how many bytes the guest asked for
and how many are touched. -/
structure RamAccess where
  start : Nat
  host : Nat
  range : Nat
  touched : Nat

/-- Every byte touched lies in the region of the start address, and none is
touched unless everything asked for is RAM. -/
structure RamAccess.Isolated (a : RamAccess) : Prop where
  inside : ∀ i < a.touched, ∃ r, ramRegion a.start = some r ∧
    r.offset ≤ a.host + i ∧ a.host + i < r.offset + r.size
  whole : 0 < a.touched → ∀ i < a.range, ∃ r, ramRegion (a.start + i) = some r

section Regions

variable {addr host i : Nat} {r : RamRegion}

theorem ramRegion_contains (region : ramRegion addr = some r) : r.Contains addr := by
  unfold ramRegion at region
  split at region
  · next mapped =>
    cases region
    exact mapped
  · split at region
    · next mapped =>
      cases region
      exact mapped
    · cases region

theorem sram_or_sdram (region : ramRegion addr = some r) : r = sram ∨ r = sdram := by
  unfold ramRegion at region
  split at region
  · exact Or.inl (Option.some.inj region).symm
  · split at region
    · exact Or.inr (Option.some.inj region).symm
    · cases region

/-- The two regions are adjacent. -/
theorem ramRegion_isSome_iff : (∃ r, ramRegion addr = some r) ↔ addr < 0x4004000 := by
  constructor
  · rintro ⟨r, region⟩
    obtain ⟨-, above⟩ := ramRegion_contains region
    rcases sram_or_sdram region with rfl | rfl
    · exact Nat.lt_of_lt_of_le above (by decide)
    · exact above
  · intro below
    unfold ramRegion
    split
    · exact ⟨sram, rfl⟩
    · next outside =>
      refine ⟨sdram, if_pos ⟨?_, below⟩⟩
      exact Nat.le_of_not_lt fun lower => outside ⟨Nat.zero_le addr, lower⟩

/-- The page is found through the region, the byte through the page. -/
theorem ramAddr_eq (region : ramRegion addr = some r) :
    ramAddr addr = some (r.offset + (addr - r.base)) := by
  obtain ⟨below, -⟩ := ramRegion_contains region
  have paged := r.base_paged
  simp only [ramAddr, cpuGetPhysicalPageDesc, region, Option.map_some, targetPageSize] at paged ⊢
  congr 1
  omega

theorem ramAddr_eq_none (region : ramRegion addr = none) : ramAddr addr = none := by
  simp only [ramAddr, cpuGetPhysicalPageDesc, region, Option.map_none]

theorem of_ramAddr (found : ramAddr addr = some host) :
    ∃ r, ramRegion addr = some r ∧ host = r.offset + (addr - r.base) := by
  cases region : ramRegion addr with
  | none =>
    rw [ramAddr_eq_none region] at found
    cases found
  | some r =>
    rw [ramAddr_eq region] at found
    exact ⟨r, rfl, (Option.some.inj found).symm⟩

theorem room_le (region : ramRegion addr = some r) : r.room addr ≤ 0x4004000 := by
  rcases sram_or_sdram region with rfl | rfl
  · exact Nat.le_trans (Nat.sub_le _ _) (by decide)
  · exact Nat.le_trans (Nat.sub_le _ _) (by decide)

/-- An access whose length is cut to 32 bits is isolated exactly when nothing is
left of it, or it ends inside its region. -/
theorem isolated_iff (range : Nat) (region : ramRegion addr = some r)
    (found : host = r.offset + (addr - r.base)) :
    RamAccess.Isolated ⟨addr, host, range, range % 2 ^ 32⟩ ↔
      range % 2 ^ 32 = 0 ∨ range ≤ r.room addr := by
  obtain ⟨below, above⟩ := ramRegion_contains region
  constructor
  · rintro ⟨inside, whole⟩
    refine (Nat.eq_zero_or_pos (range % 2 ^ 32)).imp_right fun some => ?_
    -- the range asked for is RAM, so nothing has been cut off
    have short : range < 2 ^ 32 := by
      by_contra long
      have last := ramRegion_isSome_iff.mp (whole some 0x4004000 (by dsimp only; omega))
      dsimp only at last
      omega
    simp only [Nat.mod_eq_of_lt short] at inside some
    obtain ⟨r', same, -, bound⟩ := inside (range - 1) (by omega)
    cases region.symm.trans same
    unfold RamRegion.room
    omega
  · rintro (none | fits)
    · refine ⟨fun i touched => ?_, fun some => ?_⟩
      · exact absurd (none ▸ touched) (Nat.not_lt_zero i)
      · exact absurd (none ▸ some) (Nat.lt_irrefl 0)
    · have small := room_le region
      have short : range < 2 ^ 32 := by omega
      unfold RamRegion.room at fits
      constructor
      · intro i touched
        dsimp only at touched ⊢
        rw [Nat.mod_eq_of_lt short] at touched
        exact ⟨r, region, by omega, by omega⟩
      · intro _ i asked
        dsimp only at asked
        have top : r.base + r.size ≤ 0x4004000 := by
          rcases sram_or_sdram region with rfl | rfl <;> decide
        exact ramRegion_isSome_iff.mpr (by dsimp only; omega)

end Regions

end VirtualNoah
