import Mathlib.Order.Interval.Set.Disjoint
import VirtualNoah.Soc.DmaNdrun

/-!
# Chains of descriptors

What a chain in guest RAM asks for, and what ringing the doorbell does.  The
doorbell starts only channels that are not in descriptor mode, and the address
the guest writes to DDA is not the one that is stored, so no chain is ever
walked.
-/

namespace VirtualNoah

open ByteStore StepRun

/-! ## What a chain asks for -/

/-- The next descriptor of the chain follows. -/
def DescWords.Links (w : DescWords) : Prop := w.dcmd &&& 0x1#32 ≠ 0#32

/-- The valid bit decides whether the descriptor is executed. -/
def DescWords.Vm (w : DescWords) : Prop := w.dcmd &&& bitMask 3 ≠ 0#32

instance (w : DescWords) : Decidable w.Links := inferInstanceAs (Decidable (_ ≠ _))
instance (w : DescWords) : Decidable w.Vm := inferInstanceAs (Decidable (_ ≠ _))

/-- A descriptor of a chain, and where it is. -/
structure ChainDesc where
  addr : Nat
  words : DescWords

/-- The block of DDA, and the descriptor of it that the top of `ddadr` selects. -/
def linkAddr (dda ddadr : BitVec 32) : Nat :=
  (dda &&& 0xfffff000#32).toNat + 16 * (ddadr >>> 24).toNat

/-- The chain in RAM from an address on. -/
inductive DescChain (ram : Buf) (dda : BitVec 32) : Nat → List ChainDesc → Prop
  | last {addr : Nat} (ends : ¬ (loadDesc ram addr).Links) :
    DescChain ram dda addr [⟨addr, loadDesc ram addr⟩]
  | link {addr : Nat} {rest : List ChainDesc} (links : (loadDesc ram addr).Links)
    (next : DescChain ram dda (linkAddr dda (loadDesc ram addr).ddadr) rest) :
    DescChain ram dda addr (⟨addr, loadDesc ram addr⟩ :: rest)

namespace ChainDesc

/-- Where the descriptor itself is. -/
def own (d : ChainDesc) : Set Nat := Set.Ico d.addr (d.addr + 16)

def source (d : ChainDesc) : Set Nat :=
  Set.Ico d.words.dsadr.toNat (d.words.dsadr.toNat + d.words.range)

def dest (d : ChainDesc) : Set Nat :=
  Set.Ico d.words.dtadr.toNat (d.words.dtadr.toNat + d.words.range)

/-- The bytes to be copied are at their destination already. -/
def Copied (ram : Buf) (d : ChainDesc) : Prop :=
  ∀ i < d.words.range, ram (d.words.dtadr.toNat + i) = ram (d.words.dsadr.toNat + i)

end ChainDesc

/-- RAM after one descriptor: the bytes go from `dsadr` to `dtadr`, and the valid
bit is used up. -/
def execDesc (ram : Buf) (d : ChainDesc) : Buf :=
  let ram := ramCopy ram d.words.dsadr.toNat d.words.dtadr.toNat d.words.range
  if d.words.Vm then store32 ram d.addr (d.words.dcmd &&& ~~~ bitMask 4) else ram

/-- The chain stops before the first invalid descriptor. -/
def executed (descs : List ChainDesc) : List ChainDesc :=
  descs.takeWhile fun d => ¬ d.words.Invalid

/-- RAM after the whole chain. -/
def chainRam (ram : Buf) (descs : List ChainDesc) : Buf := (executed descs).foldl execDesc ram

/-- Nothing that the chain writes is read, or written again, by another part of it. -/
structure RangesApart (descs : List ChainDesc) : Prop where
  written : (descs.flatMap fun d => [d.own, d.dest]).Pairwise Disjoint
  sources : ∀ d ∈ descs, ∀ e ∈ descs, Disjoint d.source e.own ∧ Disjoint d.source e.dest

/-- A chain in RAM, from the address that the guest has written to DDA. -/
structure ChainInRam (ram : Buf) (dda : BitVec 32) (descs : List ChainDesc) : Prop where
  aligned : dda &&& 0xf#32 = 0#32
  chain : DescChain ram dda dda.toNat descs
  descriptors : ∀ d ∈ descs, RangeInRam d.addr 16
  sources : ∀ d ∈ descs, RangeInRam d.words.dsadr.toNat d.words.range
  dests : ∀ d ∈ descs, RangeInRam d.words.dtadr.toNat d.words.range
  apart : RangesApart descs

/-- DCS.INV -/
def DmaState.Inv (s : DmaState) (ch : Fin 6) : Prop :=
  (s.dma.channels ch).dcs &&& bitMask 6 ≠ 0#32

/-- The chain has been walked. -/
structure ChainExecuted (s t : DmaState) (ch : Fin 6) (descs : List ChainDesc) : Prop where
  ram : t.ram = chainRam s.ram descs
  inv : (∃ d ∈ descs, d.words.Invalid) → t.Inv ch

section Chain

variable {ram : Buf} {dda : BitVec 32} {addr : Nat} {descs : List ChainDesc} {d : ChainDesc}

theorem DescChain.words (chain : DescChain ram dda addr descs) :
    ∀ d ∈ descs, d.words = loadDesc ram d.addr := by
  induction chain with
  | last ends =>
    intro d mem
    rw [List.mem_singleton.mp mem]
  | link links _ ih => exact List.forall_mem_cons.mpr ⟨rfl, ih⟩

theorem execDesc_frame (mem : Buf) (d : ChainDesc) (i : Nat) (outside : i ∉ d.own ∪ d.dest) :
    execDesc mem d i = mem i := by
  simp only [ChainDesc.own, ChainDesc.dest, Set.mem_union, Set.mem_Ico, not_or, not_and,
    Nat.not_lt] at outside
  obtain ⟨own, dest⟩ := outside
  have copy : ramCopy mem d.words.dsadr.toNat d.words.dtadr.toNat d.words.range i = mem i :=
    blit_outside (by omega)
  unfold execDesc
  split
  · rw [store32_outside (by omega), copy]
  · exact copy

/-- A valid descriptor leaves RAM as it is when it has no valid bit to use up and
nothing new to copy. -/
theorem execDesc_eq_self_iff (words : d.words = loadDesc ram d.addr)
    (valid : ¬ d.words.Invalid) : execDesc ram d = ram ↔ ¬ d.words.Vm ∧ d.Copied ram := by
  unfold execDesc
  split
  · next vm =>
    refine iff_of_false (fun same => ?_) (fun both => both.1 vm)
    -- the word would be read back without its valid bit
    have cleared : d.words.dcmd &&& ~~~ bitMask 4 = d.words.dcmd := by
      rw [← load32_store32 (v := d.words.dcmd &&& ~~~ bitMask 4), same, words]
      rfl
    refine valid ⟨vm, ?_⟩
    rw [← cleared, BitVec.and_assoc]
    exact BitVec.and_zero
  · next plain =>
    rw [ramCopy, blit_eq_self_iff]
    exact ⟨fun there => ⟨plain, there⟩, fun both => both.2⟩

theorem chainRam_eq_self_iff (chain : DescChain ram dda addr descs) (apart : RangesApart descs) :
    chainRam ram descs = ram ↔ ∀ d ∈ executed descs, ¬ d.words.Vm ∧ d.Copied ram := by
  have part : (executed descs).Sublist descs := List.takeWhile_sublist _
  have windows : (executed descs).Pairwise fun d e => Disjoint (d.own ∪ d.dest)
      (e.own ∪ e.dest) := by
    refine ((List.pairwise_flatMap.mp apart.written).2.sublist part).imp fun {d e} both => ?_
    simp only [List.mem_cons, List.not_mem_nil, or_false, forall_eq_or_imp, forall_eq] at both
    obtain ⟨⟨own, ownDest⟩, destOwn, dest⟩ := both
    exact Set.disjoint_union_left.mpr ⟨Set.disjoint_union_right.mpr ⟨own, ownDest⟩,
      Set.disjoint_union_right.mpr ⟨destOwn, dest⟩⟩
  rw [chainRam, foldl_eq_self_iff execDesc_frame windows]
  refine forall₂_congr fun d mem => ?_
  refine execDesc_eq_self_iff (chain.words d (part.subset mem)) ?_
  exact of_decide_eq_true (List.all_eq_true.mp List.all_takeWhile d mem)

end Chain

/-! ## What the guest has written to DDA -/

/-- The value the guest has written last. -/
def lastDda (ch : Fin 6) : List DmaInput → Option (BitVec 32)
  | [] => none
  | .write addr value :: inputs =>
    (lastDda ch inputs).or (if dmaChannelReg addr = some (ch, 0x18) then some value else none)
  | _ :: inputs => lastDda ch inputs

def WritesDda (ch : Fin 6) (input : DmaInput) : Prop :=
  ∃ addr value, input = .write addr value ∧ dmaChannelReg addr = some (ch, 0x18)

section Dda

variable {s t : DmaState} {ch k : Fin 6}

theorem writesDda_of_lastDda {inputs : List DmaInput} {a : BitVec 32}
    (last : lastDda ch inputs = some a) : ∃ input ∈ inputs, WritesDda ch input := by
  induction inputs with
  | nil => cases last
  | cons input inputs ih =>
    have before : lastDda ch inputs = some a → ∃ i ∈ input :: inputs, WritesDda ch i := by
      intro rest
      obtain ⟨i, mem, writes⟩ := ih rest
      exact ⟨i, List.mem_cons_of_mem _ mem, writes⟩
    cases input with
    | write addr value =>
      rw [lastDda, Option.or_eq_some_iff] at last
      rcases last with rest | ⟨-, now⟩
      · exact before rest
      · split at now
        · next place => exact ⟨_, List.mem_cons_self, addr, value, rfl, place⟩
        · cases now
    | read addr => exact before last
    | store ram => exact before last
    | proceed => exact before last

/-- An update of another field leaves DDA. -/
theorem update_dda {channels : Fin 6 → DmaChannel} {c : DmaChannel}
    (same : c.dda = (channels ch).dda) :
    (Function.update channels ch c k).dda = (channels k).dda := by
  rcases eq_or_ne k ch with rfl | apart
  · rw [Function.update_self, same]
  · rw [Function.update_of_ne apart]

theorem jz4740DmaNdrun_dda (done : jz4740DmaNdrun s ch = .ok t) :
    (t.dma.channels k).dda = (s.dma.channels k).dda := by
  unfold jz4740DmaNdrun at done
  dsimp only at done
  split at done
  · cases done
  · next moved =>
    obtain ⟨sr, de, -, -, rfl⟩ := jz4740DmaTransfer_ok moved
    cases done
    rw [raiseIrq_channels]
    exact update_dda rfl

theorem drunFinish_channels (s : DmaState) (ch : Fin 6) (desc : Nat) :
    ∃ dcs, (drunFinish s ch desc).dma.channels =
    Function.update s.dma.channels ch { s.dma.channels ch with dcs := dcs } := by
  unfold drunFinish
  dsimp only
  split
  all_goals
    simp only [raiseIrq_channels, DmaState.setChannel, clearValid_dma]
    exact ⟨_, rfl⟩

theorem drunPass_dda {desc : DescAddr} (done : drunPass s ch desc = .ok t) :
    (t.dma.channels k).dda = (s.dma.channels k).dda := by
  unfold drunPass at done
  split at done
  · cases done
  · next host _ =>
    dsimp only at done
    split at done
    · cases done
      exact update_dda rfl
    · split at done
      · cases done
      · next u moved =>
        obtain ⟨sr, de, -, -, same⟩ := jz4740DmaTransfer_ok moved
        have dma : u.dma = s.dma := by rw [same]
        obtain ⟨dcs, channels⟩ := drunFinish_channels u ch host
        cases done
        rw [channels, dma]
        exact update_dda rfl

theorem dmaWork_dda {todo : DmaWork} (done : dmaWork s todo = .ok t) :
    (t.dma.channels k).dda = (s.dma.channels k).dda := by
  cases todo with
  | descriptor ch desc => exact drunPass_dda done
  | channel ch =>
    simp only [dmaWork, jz4740DmaEnChannel] at done
    split at done
    · split at done
      · exact jz4740DmaNdrun_dda done
      · cases done
        rfl
    · cases done
      rfl

/-- The doorbell only adds to the work. -/
theorem jz4740DmaEnDbn_dma (done : jz4740DmaEnDbn s ch = .ok t) : t.dma = s.dma := by
  unfold jz4740DmaEnDbn jz4740DmaDrun at done
  dsimp only at done
  split at done
  · split at done
    · cases done
      rfl
    · cases done
  · cases done
    rfl

/-- A write leaves DDA, or puts the one value there that is ever stored. -/
theorem jz4740DmaWrite_dda {addr : Nat} {value : BitVec 32}
    (done : jz4740DmaWrite s addr value = .ok t) :
    (t.dma.channels k).dda = (s.dma.channels k).dda ∨ (t.dma.channels k).dda = 0xfffffff0#32 := by
  unfold jz4740DmaWrite at done
  dsimp only at done
  split at done
  · cases done
    exact Or.inl rfl
  · cases done
    split <;> exact Or.inl rfl
  · split at done
    · exact Or.inl (by rw [jz4740DmaEnDbn_dma done])
    · cases done
      exact Or.inl rfl
  · split at done
    · exact Or.inl (by rw [jz4740DmaEnDbn_dma done])
    · cases done
      exact Or.inl rfl
  · split at done
    case h_5 =>
      cases done
      split <;> exact Or.inl (update_dda rfl)
    case h_7 ch _ =>
      cases done
      rcases eq_or_ne k ch with rfl | apart
      · exact Or.inr (by simp only [DmaState.setChannel, Function.update_self])
      · exact Or.inl (by simp only [DmaState.setChannel, Function.update_of_ne apart])
    case h_8 => cases done
    all_goals
      cases done
      exact Or.inl (update_dda rfl)

theorem dmaStep_dda {input : DmaInput} {out : Option (BitVec 32)}
    (done : dmaStep s input = .ok (t, out)) :
    (t.dma.channels k).dda = (s.dma.channels k).dda ∨ (t.dma.channels k).dda = 0xfffffff0#32 := by
  cases dmaStep_case done with
  | work next worked => exact Or.inl ((dmaWork_dda worked).trans rfl)
  | idle none same => exact Or.inl (by rw [same])
  | read none same => exact Or.inl (by rw [same])
  | store none same => exact Or.inl (by rw [same])
  | write none written => exact jz4740DmaWrite_dda written

/-- Once it has been written, DDA is the same whatever the guest wrote. -/
theorem dda_of_run {inputs : List DmaInput} {outs : List (Option (BitVec 32))} {a : BitVec 32}
    (run : dmaRun s inputs = .ok (t, outs)) (last : lastDda ch inputs = some a) :
    (t.dma.channels ch).dda = 0xfffffff0#32 := by
  have latched := run_latch (WritesDda ch) (fun _ => True)
    (fun s => (s.dma.channels ch).dda = 0xfffffff0#32) (fun _ _ _ => trivial) ?_ ?_ trivial run
  · rcases latched with ⟨-, synced⟩ | ⟨none, -⟩
    · exact synced
    · obtain ⟨input, mem, writes⟩ := writesDda_of_lastDda last
      exact absurd writes (none input mem)
  · intro s input t out _ writes done
    obtain ⟨addr, value, rfl, place⟩ := writes
    cases dmaStep_case done with
    | write none written =>
      unfold jz4740DmaWrite at written
      split at written
      · cases place
      · cases place
      · cases place
      · cases place
      · simp only [place] at written
        cases written
        simp only [DmaState.setChannel, Function.update_self]
  · intro s input t out synced done
    rcases dmaStep_dda done with same | stored
    · exact same.trans synced
    · exact stored

end Dda

/-! ## The doorbell -/

/-- The guest rings a channel and no other one. -/
structure RingsOnly (ch : Fin 6) (addr : Nat) (value : BitVec 32) : Prop where
  bell : addr = 0x308 ∨ addr = 0x30c
  rung : value &&& 0x3f#32 = bitMask ch

/-- What the doorbell itself stores. -/
def DmaState.ringing (s : DmaState) (value : BitVec 32) : DmaState :=
  { s with dma := { s.dma with ddr := value &&& 0xff#32 } }

section Doorbell

variable {s t : DmaState} {ch : Fin 6} {addr : Nat} {value : BitVec 32}

/-- Only six bits of the doorbell belong to channels. -/
theorem rungChannel_mask (value : BitVec 32) :
    rungChannel (value &&& 0xff#32) = (List.finRange 6).find? fun ch : Fin 6 =>
      (value &&& 0x3f#32) &&& bitMask ch ≠ 0#32 := by
  have low : ∀ ch : Fin 6, 0xff#32 &&& bitMask ch = 0x3f#32 &&& bitMask ch := by decide
  rw [rungChannel]
  congr
  funext ch
  rw [BitVec.and_assoc, BitVec.and_assoc, low]

theorem RingsOnly.selects (rings : RingsOnly ch addr value) :
    rungChannel (value &&& 0xff#32) = some ch := by
  have own : ∀ ch : Fin 6,
      ((List.finRange 6).find? fun k : Fin 6 => bitMask ch &&& bitMask k ≠ 0#32) = some ch := by
    decide
  rw [rungChannel_mask, rings.rung]
  exact own ch

theorem write_doorbell (bell : addr = 0x308 ∨ addr = 0x30c) : jz4740DmaWrite s addr value =
    match rungChannel (value &&& 0xff#32) with
    | some ch => jz4740DmaEnDbn (s.ringing value) ch
    | none => .ok (s.ringing value) := by
  rcases bell with rfl | rfl <;> rfl

/-- A channel in descriptor mode does nothing. -/
theorem ring_descriptor_mode (idle : s.work = []) (rings : RingsOnly ch addr value)
    (mode : ¬ (s.dma.channels ch).NonDescriptor) :
    WriteReturns s addr value (s.ringing value) := by
  refine ⟨s.ringing value, ?_, .done idle⟩
  rw [write_doorbell rings.bell, rings.selects]
  exact if_neg fun both => mode both.2

/-- A channel out of descriptor mode looks for a descriptor outside RAM. -/
theorem ring_aborts (enabled : s.dma.Enabled) (rings : RingsOnly ch addr value)
    (mode : (s.dma.channels ch).NonDescriptor) (dda : (s.dma.channels ch).dda = 0xfffffff0#32) :
    ¬ WriteReturns s addr value t := by
  rintro ⟨u, written, drains⟩
  rw [write_doorbell rings.bell, rings.selects] at written
  have runs : jz4740DmaEnDbn (s.ringing value) ch = jz4740DmaDrun (s.ringing value) ch :=
    if_pos ⟨enabled, mode⟩
  have outside : ramAddr (0xfffffff0#32).toNat = none := by decide
  simp only [runs, jz4740DmaDrun, show ((s.ringing value).dma.channels ch).dda = 0xfffffff0#32
    from dda] at written
  cases written
  obtain ⟨v, worked, -⟩ := drains.of_work rfl
  rw [dmaWork, drunPass, outside] at worked
  cases worked

/-- A chain is executed exactly when the channel is in descriptor mode and the
chain asks for nothing that is not there already. -/
theorem chain_executed_iff {ram : Buf} {inputs : List DmaInput}
    {outs : List (Option (BitVec 32))} {dda : BitVec 32} {descs : List ChainDesc}
    (run : dmaRun (jz4740DmaInit ram) inputs = .ok (s, outs))
    (last : lastDda ch inputs = some dda) (chain : ChainInRam s.ram dda descs)
    (idle : s.work = []) (enabled : s.dma.Enabled) (rings : RingsOnly ch addr value) :
    (∃ t, WriteReturns s addr value t ∧ ChainExecuted s t ch descs) ↔
      ¬ (s.dma.channels ch).NonDescriptor ∧
        (∀ d ∈ executed descs, ¬ d.words.Vm ∧ d.Copied s.ram) ∧
        ((∃ d ∈ descs, d.words.Invalid) → s.Inv ch) := by
  rw [← chainRam_eq_self_iff chain.chain chain.apart]
  constructor
  · rintro ⟨t, returns, done⟩
    by_cases mode : (s.dma.channels ch).NonDescriptor
    · exact absurd returns (ring_aborts enabled rings mode (dda_of_run run last))
    · have same := (ring_descriptor_mode idle rings mode).unique returns
      subst same
      exact ⟨mode, done.ram.symm, done.inv⟩
  · rintro ⟨mode, same, inv⟩
    exact ⟨s.ringing value, ring_descriptor_mode idle rings mode, same.symm, inv⟩

end Doorbell

/-! ## Chains of one and of two descriptors -/

/-- One byte at 0x5000, and a descriptor at 0x4000 that asks for it at 0x6000. -/
def oneByteChain : Buf :=
  let desc := store32 (store32 (store32 (store32 (fill 0) 0x4000 0x100) 0x4004 0x5000)
    0x4008 0x6000) 0x400c 0x1
  Function.update desc 0x5000 0x7

/-- The guest enables the controller and gives the address of the descriptor. -/
def programChain : List DmaInput :=
  [.write 0x300 0x1, .proceed, .proceed, .proceed, .proceed, .proceed, .proceed,
    .write 0x18 0x4000]

def oneByteDesc : ChainDesc := ⟨0x4000, ⟨0x100, 0x5000, 0x6000, 0x1⟩⟩

theorem oneByteChain_inRam : ChainInRam oneByteChain 0x4000 [oneByteDesc] := by
  have words : loadDesc oneByteChain 0x4000 = oneByteDesc.words := by
    rw [loadDesc, oneByteDesc, DescWords.mk.injEq]
    decide
  have ends : ¬ (loadDesc oneByteChain 0x4000).Links := by
    rw [words]
    decide
  have chain : DescChain oneByteChain 0x4000 0x4000 [⟨0x4000, loadDesc oneByteChain 0x4000⟩] :=
    .last ends
  rw [words] at chain
  have only : ∀ {p : ChainDesc → Prop}, p oneByteDesc → ∀ d ∈ [oneByteDesc], p d :=
    fun own d mem => List.mem_singleton.mp mem ▸ own
  exact {
    aligned := by decide
    chain := chain
    descriptors := only (RangeInRam.of_le (by decide) (by decide))
    sources := only (RangeInRam.of_le (by decide) (by decide))
    dests := only (RangeInRam.of_le (by decide) (by decide))
    apart := {
      written := by
        rw [List.flatMap_singleton, List.pairwise_pair]
        exact Set.Ico_disjoint_Ico.mpr (by decide)
      sources := only (only
        ⟨Set.Ico_disjoint_Ico.mpr (by decide), Set.Ico_disjoint_Ico.mpr (by decide)⟩) } }

theorem programChain_runs : ∃ s outs, dmaRun (jz4740DmaInit oneByteChain) programChain =
    .ok (s, outs) ∧ s.ram = oneByteChain ∧ s.work = [] ∧ s.dma.Enabled ∧
      ¬ (s.dma.channels 0).NonDescriptor := by
  refine ⟨_, _, rfl, ?_⟩
  exact ⟨rfl, rfl, by decide, by decide⟩

/-- The byte the descriptor asks for is not copied. -/
theorem oneByteDesc_new : ¬ ∀ d ∈ executed [oneByteDesc],
    ¬ d.words.Vm ∧ d.Copied oneByteChain := by
  intro all
  have valid : executed [oneByteDesc] = [oneByteDesc] := rfl
  have there := (all oneByteDesc (valid ▸ List.mem_singleton_self _)).2 0 (by decide)
  exact absurd there (by decide)

/-- The doorbell of channel 0 returns, and the byte has not been copied. -/
theorem chain_not_executed : ∃ s outs t,
    dmaRun (jz4740DmaInit oneByteChain) programChain = .ok (s, outs) ∧
      lastDda 0 programChain = some 0x4000 ∧ ChainInRam s.ram 0x4000 [oneByteDesc] ∧
      s.dma.Enabled ∧ WriteReturns s 0x308 0x1 t ∧ ¬ ChainExecuted s t 0 [oneByteDesc] := by
  obtain ⟨s, outs, run, ram, idle, enabled, mode⟩ := programChain_runs
  have rings : RingsOnly 0 0x308 0x1 := ⟨Or.inl rfl, by decide⟩
  have chain := oneByteChain_inRam
  refine ⟨s, outs, s.ringing 0x1, run, rfl, ram ▸ chain, enabled,
    ring_descriptor_mode idle rings mode, fun done => ?_⟩
  have same : s.ram = chainRam s.ram [oneByteDesc] := done.ram
  rw [ram] at same
  exact oneByteDesc_new ((chainRam_eq_self_iff chain.chain chain.apart).mp same.symm)

/-- A descriptor in RAM. -/
def storeDesc (ram : Buf) (d : ChainDesc) : Buf :=
  store32 (store32 (store32 (store32 ram d.addr d.words.dcmd) (d.addr + 4) d.words.dsadr)
    (d.addr + 8) d.words.dtadr) (d.addr + 12) d.words.ddadr

/-- The first descriptor links to the second one, which is behind it. -/
def linkingDesc : ChainDesc := ⟨0x4000, ⟨0x101, 0x5000, 0x6000, 0x01000001⟩⟩
def linkedDesc : ChainDesc := ⟨0x4010, ⟨0x100, 0x5010, 0x6010, 0x2⟩⟩

def linkedChain : Buf :=
  let descs := storeDesc (storeDesc (fill 0) linkingDesc) linkedDesc
  Function.update (Function.update descs 0x5000 0x7) 0x5011 0x8

theorem linkedChain_inRam : ChainInRam linkedChain 0x4000 [linkingDesc, linkedDesc] := by
  have first : loadDesc linkedChain 0x4000 = linkingDesc.words := by
    rw [loadDesc, linkingDesc, DescWords.mk.injEq]
    decide
  have second : loadDesc linkedChain 0x4010 = linkedDesc.words := by
    rw [loadDesc, linkedDesc, DescWords.mk.injEq]
    decide
  have next : DescChain linkedChain 0x4000 0x4010 [⟨0x4010, loadDesc linkedChain 0x4010⟩] :=
    .last (by rw [second]; decide)
  have place : linkAddr 0x4000 (loadDesc linkedChain 0x4000).ddadr = 0x4010 := by
    rw [first]
    decide
  have chain : DescChain linkedChain 0x4000 0x4000 [⟨0x4000, loadDesc linkedChain 0x4000⟩,
      ⟨0x4010, loadDesc linkedChain 0x4010⟩] :=
    .link (by rw [first]; decide) (place ▸ next)
  rw [first, second] at chain
  have both : ∀ {p : ChainDesc → Prop}, p linkingDesc → p linkedDesc →
      ∀ d ∈ [linkingDesc, linkedDesc], p d := by
    intro p one two
    simp only [List.forall_mem_cons, List.not_mem_nil, false_implies, implies_true, and_true]
    exact ⟨one, two⟩
  exact {
    aligned := by decide
    chain := chain
    descriptors := both (.of_le (by decide) (by decide)) (.of_le (by decide) (by decide))
    sources := both (.of_le (by decide) (by decide)) (.of_le (by decide) (by decide))
    dests := both (.of_le (by decide) (by decide)) (.of_le (by decide) (by decide))
    apart := {
      written := by
        simp only [List.flatMap_cons, List.flatMap_nil, List.append_nil, List.cons_append,
          List.nil_append, List.pairwise_cons, List.mem_cons, List.not_mem_nil, or_false,
          forall_eq_or_imp, forall_eq, false_implies, implies_true, and_true, List.Pairwise.nil,
          ChainDesc.own, ChainDesc.dest, Set.Ico_disjoint_Ico]
        decide
      sources := by
        simp only [List.forall_mem_cons, List.not_mem_nil, false_implies, implies_true, and_true,
          ChainDesc.source, ChainDesc.own, ChainDesc.dest, Set.Ico_disjoint_Ico]
        decide } }

/-- The chain of two descriptors, which ask for what is not there. -/
theorem chain_executed_iff_linked : ∃ s outs,
    dmaRun (jz4740DmaInit linkedChain) programChain = .ok (s, outs) ∧
      ((∃ t, WriteReturns s 0x308 0x1 t ∧ ChainExecuted s t 0 [linkingDesc, linkedDesc]) ↔
        ¬ (s.dma.channels 0).NonDescriptor ∧
          (∀ d ∈ executed [linkingDesc, linkedDesc], ¬ d.words.Vm ∧ d.Copied s.ram) ∧
          ((∃ d ∈ [linkingDesc, linkedDesc], d.words.Invalid) → s.Inv 0)) := by
  have runs : ∃ s outs, dmaRun (jz4740DmaInit linkedChain) programChain = .ok (s, outs) ∧
      s.ram = linkedChain ∧ s.work = [] ∧ s.dma.Enabled := by
    refine ⟨_, _, rfl, ?_⟩
    exact ⟨rfl, rfl, by decide⟩
  obtain ⟨s, outs, run, ram, idle, enabled⟩ := runs
  have last : lastDda 0 programChain = some 0x4000 := rfl
  exact ⟨s, outs, run, chain_executed_iff run last (ram ▸ linkedChain_inRam) idle enabled
    ⟨Or.inl rfl, by decide⟩⟩

end VirtualNoah
