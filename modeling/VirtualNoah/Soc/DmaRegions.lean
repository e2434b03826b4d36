import VirtualNoah.Soc.Dma

/-!
# DMA and the bounds of guest RAM

`jz4740_dma_transfer` looks up the pages its two ranges start in and copies
`len` bytes from there, wherever they end.  A descriptor is read and updated
within its page.  `dma_isolated_iff` says which runs touch nothing but the
region an access starts in.
-/

namespace VirtualNoah

open ByteStore StepRun

def DmaEntry.Isolated : DmaEntry → Prop
  | .descriptor _ words => words.Isolated
  | .transfer _ src dest => src.Isolated ∧ dest.Isolated

/-- Nothing the controller has done to the host buffer leaves guest RAM. -/
def DmaIsolated (s : DmaState) : Prop := ∀ e ∈ s.log, e.Isolated

/-- When both ends start in RAM, nothing is left of the length in 32 bits or both
ranges end inside the region they start in. -/
def DmaMove.Fits (m : DmaMove) : Prop :=
  ∀ r r', ramRegion m.src.toNat = some r → ramRegion m.dest.toNat = some r' →
    m.range % 2 ^ 32 = 0 ∨ m.range ≤ r.room m.src.toNat ∧ m.range ≤ r'.room m.dest.toNat

/-- The transfer that the next piece of work is about to make fits. -/
def TransferFits (s : DmaState) (input : DmaInput) : Prop :=
  input = .proceed → ∀ todo rest m, s.work = todo :: rest → s.transferOf todo = some m → m.Fits

section Entries

variable {e : DmaEntry} {m : DmaMove} {sr de : Nat} {r r' : RamRegion}

/-- Regions consist of whole pages, and a descriptor lies in one. -/
theorem fetched_isolated (fetched : Fetched e) : e.Isolated := by
  obtain ⟨ch, desc, host, found, rfl⟩ := fetched
  obtain ⟨r, region, place⟩ := of_ramAddr found
  refine (isolated_iff 16 region place).mpr (Or.inr ?_)
  obtain ⟨below, above⟩ := ramRegion_contains region
  have page := desc.inPage
  have base := r.base_paged
  have size := r.size_paged
  simp only [targetPageSize] at page base size
  unfold RamRegion.room
  omega

theorem entry_isolated_iff (source : ramAddr m.src.toNat = some sr)
    (destination : ramAddr m.dest.toNat = some de) : (m.entry sr de).Isolated ↔ m.Fits := by
  obtain ⟨r, from_region, place⟩ := of_ramAddr source
  obtain ⟨r', to_region, place'⟩ := of_ramAddr destination
  simp only [DmaMove.entry, DmaEntry.Isolated]
  rw [isolated_iff m.range from_region place, isolated_iff m.range to_region place', ← or_and_left]
  constructor
  · intro fits q q' found found'
    cases from_region.symm.trans found
    cases to_region.symm.trans found'
    exact fits
  · intro fits
    exact fits r r' from_region to_region

end Entries

section Step

variable {s t : DmaState} {input : DmaInput} {out : Option (BitVec 32)}

theorem dmaIsolated_keep (isolated : DmaIsolated s) (guarded : TransferFits s input)
    (done : dmaStep s input = .ok (t, out)) : DmaIsolated t := by
  cases dmaStep_case done with
  | @work todo rest next worked =>
    intro e mem
    cases (dmaWork_effect worked).outcome with
    | quiet _ _ _ all log =>
      rw [log, List.mem_append] at mem
      exact mem.elim (fun new => fetched_isolated (all e new)) (isolated e)
    | @moves m sr de wanted source destination _ fetched all log =>
      rw [log, List.mem_cons, List.mem_append] at mem
      rcases mem with rfl | new | old
      · exact (entry_isolated_iff source destination).mpr (guarded rfl todo rest m next wanted)
      · exact fetched_isolated (all e new)
      · exact isolated e old
  | idle none same => exact same ▸ isolated
  | read none same => exact same ▸ isolated
  | store none same =>
    rw [same]
    exact isolated
  | write none written =>
    rw [DmaIsolated, jz4740DmaWrite_log written]
    exact isolated

theorem dmaIsolated_leave (unguarded : ¬ TransferFits s input) :
    ∃ t out, dmaStep s input = .ok (t, out) ∧ ¬ DmaIsolated t := by
  simp only [TransferFits, not_forall] at unguarded
  obtain ⟨rfl, todo, rest, m, next, wanted, outside⟩ := unguarded
  -- a transfer that does not fit starts in RAM on both sides
  have starts : ∃ sr de, ramAddr m.src.toNat = some sr ∧ ramAddr m.dest.toNat = some de := by
    simp only [DmaMove.Fits, not_forall] at outside
    obtain ⟨r, r', region, region', -⟩ := outside
    exact ⟨_, _, ramAddr_eq region, ramAddr_eq region'⟩
  obtain ⟨sr, de, source, destination⟩ := starts
  obtain ⟨t, worked⟩ := dmaWork_ok (s := { s with work := rest }) wanted source destination
  refine ⟨t, none, ?_, fun isolated => outside ?_⟩
  · rw [dmaStep_proceed next, worked]
    rfl
  · cases (dmaWork_effect worked).outcome with
    | quiet nothing => cases wanted.symm.trans nothing
    | moves wanted' source' destination' _ _ log =>
      cases wanted.symm.trans wanted'
      refine (entry_isolated_iff source' destination').mp (isolated _ ?_)
      rw [log]
      exact List.mem_cons_self

end Step

/-- From power-on and over any guest RAM, every access of the controller stays in
the region it starts in, in every state reached, exactly when every transfer fits
at the moment it is made. -/
theorem dma_isolated_iff (ram : Buf) (inputs : List DmaInput) :
    Always dmaStep DmaIsolated (jz4740DmaInit ram) inputs ↔
      Along dmaStep TransferFits (jz4740DmaInit ram) inputs :=
  always_iff_along DmaIsolated dmaIsolated_keep (fun _ => dmaIsolated_leave)
    fun _ none => absurd none List.not_mem_nil

/-- Channel 0 is told to copy 0x4000 bytes, of which the first 0x1000 are the
last of the SDRAM. -/
def copyPastSdram : List DmaInput :=
  [.write 0x0 0x4003000, .write 0x8 0x1000, .write 0x10 0x80000001, .proceed, .write 0x300 0x1,
    .proceed]

/-- The copy goes on behind the end of guest RAM. -/
theorem dma_reads_past_sdram :
    (∃ s outs, dmaRun (jz4740DmaInit (fill 0)) copyPastSdram = .ok (s, outs) ∧
      s.log = [.transfer 0 ⟨0x4003000, 0x4003000, 0x4000, 0x4000⟩ ⟨0, 0, 0x4000, 0x4000⟩] ∧
      ramAddr 0x4004000 = none) ∧
    ¬ Always dmaStep DmaIsolated (jz4740DmaInit (fill 0)) copyPastSdram := by
  have completed : ∃ s outs, dmaRun (jz4740DmaInit (fill 0)) copyPastSdram = .ok (s, outs) ∧
      s.log = [.transfer 0 ⟨0x4003000, 0x4003000, 0x4000, 0x4000⟩ ⟨0, 0, 0x4000, 0x4000⟩] ∧
      ramAddr 0x4004000 = none := ⟨_, _, rfl, rfl, by decide⟩
  refine ⟨completed, fun always => ?_⟩
  obtain ⟨s, outs, run, log, -⟩ := completed
  have isolated := always.last run
  obtain ⟨source, -⟩ := isolated _ (log ▸ List.mem_singleton_self _)
  obtain ⟨r, last⟩ := source.whole (by decide) 0x1000 (by decide)
  exact absurd (ramRegion_isSome_iff.mp ⟨r, last⟩) (by decide)

end VirtualNoah
