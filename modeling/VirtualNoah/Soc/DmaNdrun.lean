import VirtualNoah.Soc.Dma

/-!
# Transfers without descriptors

The driver programs a channel, starts it through DCS and waits for the
transfer-terminated bit.  `jz4740_dma_ndrun` takes the data unit from DCS instead
of the command register, where the guest's bits have been masked out, and clears
the bit the driver waits for.
-/

namespace VirtualNoah

open ByteStore StepRun

/-! ## Running to the end -/

/-- What has been started is carried through, from the first state to the second. -/
inductive Drains : DmaState → DmaState → Prop
  | done {s : DmaState} (idle : s.work = []) : Drains s s
  | work {s u t : DmaState} {todo : DmaWork} {rest : List DmaWork} (next : s.work = todo :: rest)
    (head : dmaWork { s with work := rest } todo = .ok u) (later : Drains u t) : Drains s t

/-- The callback of a guest write returns, and leaves this state. -/
def WriteReturns (s : DmaState) (addr : Nat) (value : BitVec 32) (t : DmaState) : Prop :=
  ∃ u, jz4740DmaWrite s addr value = .ok u ∧ Drains u t

section Drains

variable {s t t' u : DmaState} {todo : DmaWork} {rest : List DmaWork}

theorem Drains.idle (drains : Drains s t) : t.work = [] := by
  induction drains with
  | done idle => exact idle
  | work _ _ _ ih => exact ih

theorem Drains.of_idle (drains : Drains s t) (idle : s.work = []) : t = s := by
  cases drains with
  | done _ => rfl
  | work next _ _ => cases idle.symm.trans next

theorem Drains.of_work (drains : Drains s t) (next : s.work = todo :: rest) :
    ∃ u, dmaWork { s with work := rest } todo = .ok u ∧ Drains u t := by
  cases drains with
  | done idle => cases idle.symm.trans next
  | work next' head later =>
    cases next.symm.trans next'
    exact ⟨_, head, later⟩

theorem Drains.unique (first : Drains s t) (second : Drains s t') : t' = t := by
  induction first with
  | done idle => exact second.of_idle idle
  | work next head _ ih =>
    obtain ⟨u, head', later'⟩ := second.of_work next
    cases head.symm.trans head'
    exact ih later'

theorem WriteReturns.unique {addr : Nat} {value : BitVec 32}
    (first : WriteReturns s addr value t) (second : WriteReturns s addr value t') : t' = t := by
  obtain ⟨u, written, drains⟩ := first
  obtain ⟨u', written', drains'⟩ := second
  cases written.symm.trans written'
  exact drains.unique drains'

/-- The same as a run that goes on until nothing is left to do. -/
theorem drains_iff : Drains s t ↔ t.work = [] ∧
    ∃ n outs, dmaRun s (List.replicate n .proceed) = .ok (t, outs) := by
  constructor
  · intro drains
    induction drains with
    | done idle => exact ⟨idle, 0, [], rfl⟩
    | @work s u t todo rest next head later ih =>
      obtain ⟨idle, n, outs, run⟩ := ih
      have step : dmaStep s .proceed = .ok (u, none) := by
        rw [dmaStep_proceed next, head]
        rfl
      exact ⟨idle, n + 1, _, run_cons step run⟩
  · rintro ⟨idle, n, outs, run⟩
    induction n generalizing s outs with
    | zero =>
      cases run
      exact .done idle
    | succ n ih =>
      obtain ⟨u, out, outs, head, tail, -⟩ := of_run_cons run
      cases dmaStep_case head with
      | work next worked => exact .work next worked (ih _ tail)
      | idle none same =>
        subst same
        exact ih _ tail

end Drains

/-! ## A programmed transfer -/

/-- The address of DCS. -/
def dcsAddr (ch : Fin 6) : Nat := ch * 0x20 + 0x10

theorem dmaChannelReg_dcsAddr (ch : Fin 6) : dmaChannelReg (dcsAddr ch) = some (ch, 0x10) := by
  revert ch
  decide

/-- What DTC and the data unit of DCM ask for. -/
def DmaChannel.programmed (c : DmaChannel) : Nat := (jz4740DmaUnitSize c.dcm).toNat * c.dtc.toNat

/-- A range of physical addresses in RAM, an empty one with its start. -/
def RangeInRam (addr len : Nat) : Prop := ∀ i < max len 1, ∃ r, ramRegion (addr + i) = some r

/-- The channel is ready for a transfer from RAM to RAM. -/
structure NdProgrammed (s : DmaState) (ch : Fin 6) : Prop where
  idle : s.work = []
  enabled : s.dma.Enabled
  sourceIncrements : (s.dma.channels ch).dcm &&& bitMask 23 ≠ 0#32
  destIncrements : (s.dma.channels ch).dcm &&& bitMask 22 ≠ 0#32
  source : RangeInRam (s.dma.channels ch).dsa.toNat (s.dma.channels ch).programmed
  dest : RangeInRam (s.dma.channels ch).dta.toNat (s.dma.channels ch).programmed
  disjoint : (s.dma.channels ch).dsa.toNat + (s.dma.channels ch).programmed ≤
      (s.dma.channels ch).dta.toNat ∨
    (s.dma.channels ch).dta.toNat + (s.dma.channels ch).programmed ≤
      (s.dma.channels ch).dsa.toNat

/-- DCS.TT -/
def DmaState.Terminated (s : DmaState) (ch : Fin 6) : Prop :=
  (s.dma.channels ch).dcs &&& bitMask 3 ≠ 0#32

/-- The guest writes a zero to DCS.TT. -/
def ClearsTt (ch : Fin 6) (input : DmaInput) : Prop :=
  ∃ addr value, input = .write addr value ∧ dmaChannelReg addr = some (ch, 0x10) ∧
    value &&& bitMask 3 = 0#32

/-- RAM after a copy between two physical addresses. -/
def ramCopy (ram : Buf) (src dest len : Nat) : Buf := blit ram dest (shift ram src) len

/-- RAM holds the programmed copy. -/
def CopiesProgrammed (s t : DmaState) (ch : Fin 6) : Prop :=
  let c := s.dma.channels ch
  t.ram = ramCopy s.ram c.dsa.toNat c.dta.toNat c.programmed

/-- The transfer that a write of DCS starts moves the programmed amount and
signals its completion. -/
structure NdTransferDone (s t : DmaState) (ch : Fin 6) : Prop where
  copied : CopiesProgrammed s t ch
  counted : (t.dma.channels ch).dtc = 0#32
  terminated : ∀ inputs, Until dmaStep (ClearsTt ch) (·.Terminated ch) t inputs

section Ndrun

variable {s t : DmaState} {ch : Fin 6} {value : BitVec 32} {addr len : Nat}

/-- Guest RAM starts at the start of `phys_ram_base`. -/
theorem ramAddr_self (inside : addr < 0x4004000) : ramAddr addr = some addr := by
  obtain ⟨r, region⟩ := ramRegion_isSome_iff.mpr inside
  obtain ⟨below, -⟩ := ramRegion_contains region
  rw [ramAddr_eq region]
  rcases sram_or_sdram region with rfl | rfl
  · simp only [sram, Nat.zero_add, Nat.sub_zero]
  · exact congrArg some (Nat.add_sub_cancel' below)

theorem RangeInRam.ramAddr_eq (range : RangeInRam addr len) : ramAddr addr = some addr :=
  ramAddr_self (ramRegion_isSome_iff.mp (range 0 (by omega)))

theorem RangeInRam.of_le (start : addr < 0x4004000) (fits : addr + len ≤ 0x4004000) :
    RangeInRam addr len := by
  intro i inside
  exact ramRegion_isSome_iff.mpr (by omega)

/-- The data unit of a value the guest has written to DCS is a word. -/
theorem unitSize_dcs (value : BitVec 32) : jz4740DmaUnitSize (value &&& 0x80ff005f#32) = 4 := by
  have masked : (value &&& 0x80ff005f#32) &&& 0x700#32 = 0#32 := by
    rw [BitVec.and_assoc]
    exact BitVec.and_zero
  rw [jz4740DmaUnitSize, masked]
  rfl

theorem write_dcs (place : dmaChannelReg addr = some (ch, 0x10)) (en : value &&& 0x1#32 ≠ 0#32) :
    jz4740DmaWrite s addr value = .ok { s.setChannel ch { s.dma.channels ch with
      dcs := value &&& 0x80ff005f#32 } with work := .channel ch :: s.work } := by
  have on : DmaChannel.En { s.dma.channels ch with dcs := value &&& 0x80ff005f#32 } := by
    rw [DmaChannel.En, BitVec.and_assoc]
    exact en
  unfold jz4740DmaWrite
  split
  · cases place
  · cases place
  · cases place
  · cases place
  · simp only [place, DmaState.setChannel, Function.update_self, if_pos on]

@[simp] theorem raiseIrq_ram (cmd : BitVec 32) : (s.raiseIrq cmd).ram = s.ram := by
  unfold DmaState.raiseIrq
  split <;> rfl

/-- What `jz4740_dma_ndrun` leaves when both addresses are in RAM. -/
theorem jz4740DmaNdrun_ok {sr de : Nat} (source : ramAddr (s.dma.channels ch).dsa.toNat = some sr)
    (dest : ramAddr (s.dma.channels ch).dta.toNat = some de) :
    ∃ t, jz4740DmaNdrun s ch = .ok t ∧ t.work = s.work ∧
      (let c := s.dma.channels ch
       t.ram = ramCopy s.ram sr de (jz4740DmaUnitSize c.dcs * c.dtc).toNat) ∧
      t.dma.channels ch = { s.dma.channels ch with
        dtc := 0, dcs := (s.dma.channels ch).dcs &&& 0xffffffe7#32 } := by
  simp only [jz4740DmaNdrun, jz4740DmaTransfer, source, dest]
  refine ⟨_, rfl, ?_, ?_, ?_⟩
  · rw [raiseIrq_work]
    rfl
  · rw [raiseIrq_ram]
    rfl
  · rw [raiseIrq_channels]
    exact Function.update_self ..

/-- The transfer takes place, with words for its units, and no status is set. -/
theorem ndrun_returns (programmed : NdProgrammed s ch) (ndes : value &&& bitMask 31 ≠ 0#32)
    (en : value &&& 0x1#32 ≠ 0#32) : ∃ t, WriteReturns s (dcsAddr ch) value t ∧
      (let c := s.dma.channels ch
       t.ram = ramCopy s.ram c.dsa.toNat c.dta.toNat (4 * c.dtc.toNat % 2 ^ 32)) ∧
      (t.dma.channels ch).dtc = 0#32 ∧ ¬ t.Terminated ch := by
  let c : DmaChannel := { s.dma.channels ch with dcs := value &&& 0x80ff005f#32 }
  let started : DmaState := { s.setChannel ch c with work := [] }
  have own : started.dma.channels ch = c := Function.update_self ..
  have nonDescriptor : (started.dma.channels ch).NonDescriptor := by
    rw [own, DmaChannel.NonDescriptor, BitVec.and_assoc]
    exact ndes
  have source : ramAddr (started.dma.channels ch).dsa.toNat = some c.dsa.toNat := by
    rw [own]
    exact programmed.source.ramAddr_eq
  have dest : ramAddr (started.dma.channels ch).dta.toNat = some c.dta.toNat := by
    rw [own]
    exact programmed.dest.ramAddr_eq
  obtain ⟨t, runs, work, ram, channel⟩ := jz4740DmaNdrun_ok source dest
  have written := write_dcs (s := s) (dmaChannelReg_dcsAddr ch) en
  rw [programmed.idle] at written
  have worked : dmaWork started (.channel ch) = .ok t := by
    rw [dmaWork, jz4740DmaEnChannel, if_pos (show started.dma.Enabled from programmed.enabled),
      if_pos nonDescriptor, runs]
  refine ⟨t, ⟨_, written, .work rfl worked (.done work)⟩, ?_, ?_, ?_⟩
  · have len : (jz4740DmaUnitSize c.dcs * c.dtc).toNat = 4 * c.dtc.toNat % 2 ^ 32 := by
      rw [unitSize_dcs, BitVec.toNat_mul]
      rfl
    rw [own] at ram
    exact ram.trans (congrArg (ramCopy s.ram c.dsa.toNat c.dta.toNat) len)
  · rw [channel]
    rfl
  · have cleared : 0xffffffe7#32 &&& bitMask 3 = 0#32 := by decide
    rw [DmaState.Terminated, channel, BitVec.and_assoc, cleared, BitVec.and_zero]
    exact not_not_intro rfl

/-- A programmed transfer is never done: its completion is not signalled.  It has
moved the right bytes exactly when those that it leaves out, or moves beyond, are
there already. -/
theorem nd_transfer_never_done (programmed : NdProgrammed s ch)
    (ndes : value &&& bitMask 31 ≠ 0#32) (en : value &&& 0x1#32 ≠ 0#32) :
    ∃ t, WriteReturns s (dcsAddr ch) value t ∧
      (∀ t', WriteReturns s (dcsAddr ch) value t' → ¬ NdTransferDone s t' ch) ∧
      (CopiesProgrammed s t ch ↔
        let c := s.dma.channels ch
        ∀ i, min (4 * c.dtc.toNat % 2 ^ 32) c.programmed ≤ i →
          i < max (4 * c.dtc.toNat % 2 ^ 32) c.programmed →
          s.ram (c.dta.toNat + i) = s.ram (c.dsa.toNat + i)) := by
  obtain ⟨t, returns, ram, -, status⟩ := ndrun_returns programmed ndes en
  refine ⟨t, returns, fun t' returns' done => ?_, ?_⟩
  · rw [returns.unique returns'] at done
    exact status (done.terminated []).first
  · rw [CopiesProgrammed, ram]
    exact blit_len_eq_iff

end Ndrun

/-! ## A transfer of the driver's kind -/

/-- Channel 0 is to copy two units of 16 bytes behind the first page of SDRAM. -/
def programTransfer : List DmaInput :=
  [.write 0x300 0x1, .proceed, .proceed, .proceed, .proceed, .proceed, .proceed,
    .write 0x0 0x4000, .write 0x4 0x5000, .write 0x8 0x2, .write 0x14 0xc00300]

/-- The state these writes lead to. -/
theorem programTransfer_programmed :
    ∃ s outs, dmaRun (jz4740DmaInit (fill 0)) programTransfer = .ok (s, outs) ∧
      NdProgrammed s 0 := by
  refine ⟨_, _, rfl, ?_⟩
  exact {
    idle := rfl
    enabled := by decide
    sourceIncrements := by decide
    destIncrements := by decide
    source := RangeInRam.of_le (by decide) (by decide)
    dest := RangeInRam.of_le (by decide) (by decide)
    disjoint := Or.inl (by decide) }

/-- The bit the driver polls stays clear. -/
theorem nd_transfer_not_signalled :
    ∃ s outs t, dmaRun (jz4740DmaInit (fill 0)) programTransfer = .ok (s, outs) ∧
      NdProgrammed s 0 ∧ WriteReturns s (dcsAddr 0) 0x80000001 t ∧ ¬ NdTransferDone s t 0 := by
  obtain ⟨s, outs, run, programmed⟩ := programTransfer_programmed
  have ndes : 0x80000001#32 &&& bitMask 31 ≠ 0#32 := by decide
  have en : 0x80000001#32 &&& 0x1#32 ≠ 0#32 := by decide
  obtain ⟨t, returns, -, -, status⟩ := ndrun_returns programmed ndes en
  exact ⟨s, outs, t, run, programmed, returns, fun done => status (done.terminated []).first⟩

/-- The driver's write of DCS after this programming. -/
theorem nd_transfer_never_done_after_programming :
    ∃ s outs t, dmaRun (jz4740DmaInit (fill 0)) programTransfer = .ok (s, outs) ∧
      WriteReturns s (dcsAddr 0) 0x80000001 t ∧
      ∀ t', WriteReturns s (dcsAddr 0) 0x80000001 t' → ¬ NdTransferDone s t' 0 := by
  obtain ⟨s, outs, run, programmed⟩ := programTransfer_programmed
  have ndes : 0x80000001#32 &&& bitMask 31 ≠ 0#32 := by decide
  have en : 0x80000001#32 &&& 0x1#32 ≠ 0#32 := by decide
  obtain ⟨t, returns, never, -⟩ := nd_transfer_never_done programmed ndes en
  exact ⟨s, outs, t, run, returns, never⟩

end VirtualNoah
