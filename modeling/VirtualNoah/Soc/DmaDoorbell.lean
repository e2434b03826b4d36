import VirtualNoah.Soc.DmaChain

/-!
# The doorbell

The doorbell is to run the chain of every channel that is rung and in descriptor
mode.  `jz4740_dma_write` looks at the lowest channel only, and
`jz4740_dma_en_dbn` runs it when it is not in descriptor mode.  What has been run
is on the record, so that a chain that changes nothing counts too.
-/

namespace VirtualNoah

open ByteStore StepRun

/-! ## Serving channels in turn -/

/-- The chains of the channels are run to their ends, one after the other. -/
inductive ServeAll : DmaState → List (Fin 6) → DmaState → Prop
  | done (s : DmaState) : ServeAll s [] s
  | serve {s u v t : DmaState} {ch : Fin 6} {chs : List (Fin 6)}
    (starts : jz4740DmaDrun s ch = .ok u) (drains : Drains u v) (later : ServeAll v chs t) :
    ServeAll s (ch :: chs) t

/-- The channels that are rung and in descriptor mode, in ascending order. -/
def DmaState.toServe (s : DmaState) (value : BitVec 32) : List (Fin 6) :=
  (List.finRange 6).filter fun ch =>
    value &&& bitMask ch ≠ 0#32 ∧ ¬ (s.dma.channels ch).NonDescriptor

/-- A write of the doorbell leaves what serving the channels leaves. -/
def ServesAll (s : DmaState) (addr : Nat) (value : BitVec 32) : Prop :=
  ∃ t, WriteReturns s addr value t ∧ ServeAll (s.ringing value) (s.toServe value) t

def DmaEntry.channel : DmaEntry → Fin 6
  | .descriptor ch _ => ch
  | .transfer ch _ _ => ch

/-- What comes on the record between two states is of these channels. -/
structure Records (s t : DmaState) (chs : List (Fin 6)) (more : List DmaEntry) : Prop where
  log : t.log = more ++ s.log
  own : ∀ e ∈ more, e.channel ∈ chs

/-- Only descriptors of one channel are left to do. -/
def OwnWork (ch : Fin 6) (work : List DmaWork) : Prop :=
  ∀ todo ∈ work, ∃ desc, todo = .descriptor ch desc

section Records

variable {s t u : DmaState} {ch : Fin 6} {chs : List (Fin 6)}

theorem Records.trans {first second : List DmaEntry} (before : Records s u chs first)
    (after : Records u t chs second) : Records s t chs (second ++ first) where
  log := by rw [after.log, before.log, List.append_assoc]
  own := fun e mem => (List.mem_append.mp mem).elim (after.own e) (before.own e)

theorem Records.mono {chs' : List (Fin 6)} {more : List DmaEntry} (records : Records s t chs more)
    (subset : chs ⊆ chs') : Records s t chs' more :=
  ⟨records.log, fun e mem => subset (records.own e mem)⟩

theorem jz4740DmaTransfer_log {src dest len : BitVec 32} {range : Nat}
    (done : jz4740DmaTransfer s ch src dest len range = .ok t) :
    ∃ a b, t.log = .transfer ch a b :: s.log := by
  obtain ⟨sr, de, -, -, same⟩ := jz4740DmaTransfer_ok done
  exact ⟨_, _, congrArg DmaState.log same⟩

/-- A descriptor that is looked up is on the record. -/
theorem drunPass_records {desc : DescAddr} (done : drunPass s ch desc = .ok t) :
    ∃ more, Records s t [ch] more ∧ more ≠ [] := by
  unfold drunPass at done
  split at done
  · cases done
  · next host _ =>
    dsimp only at done
    split at done
    · cases done
      refine ⟨[.descriptor ch ⟨desc.phy, host, 16, 16⟩], ⟨rfl, fun e mem => ?_⟩, nofun⟩
      rw [List.mem_singleton.mp mem]
      exact List.mem_singleton_self ch
    · split at done
      · cases done
      · next u moved =>
        obtain ⟨src, dest, log⟩ := jz4740DmaTransfer_log moved
        cases done
        refine ⟨[.transfer ch src dest, .descriptor ch ⟨desc.phy, host, 16, 16⟩], ⟨?_, ?_⟩, nofun⟩
        · rw [drunFinish_log, log]
          rfl
        · simp only [List.mem_cons, List.not_mem_nil, or_false, forall_eq_or_imp, forall_eq]
          exact ⟨rfl, rfl⟩

theorem drunPass_own {desc : DescAddr} (done : drunPass s ch desc = .ok t)
    (own : OwnWork ch s.work) : OwnWork ch t.work := by
  rcases (drunPass_effect done).outcome with ⟨-, -, work⟩ | ⟨-, -, -, work⟩
  · rw [work]
    exact own
  · rcases work with work | ⟨k, desc', next, todo, work⟩
    · rw [work]
      exact own
    · cases todo
      rw [work]
      exact List.forall_mem_cons.mpr ⟨⟨next, rfl⟩, own⟩

/-- Descriptors of one channel put nothing but that channel on the record. -/
theorem drains_records (drains : Drains s t) (own : OwnWork ch s.work) :
    ∃ more, Records s t [ch] more ∧ (s.work ≠ [] → more ≠ []) := by
  induction drains with
  | done idle => exact ⟨[], ⟨rfl, nofun⟩, fun some => absurd idle some⟩
  | @work s u t todo rest next head later ih =>
    rw [next] at own
    obtain ⟨⟨desc, rfl⟩, others⟩ := List.forall_mem_cons.mp own
    obtain ⟨first, records, some⟩ := drunPass_records head
    obtain ⟨second, records', -⟩ := ih (drunPass_own head others)
    refine ⟨second ++ first, Records.trans ⟨records.log, records.own⟩ records', fun _ => ?_⟩
    exact List.append_ne_nil_of_right_ne_nil second some

/-- Running a chain to its end leaves its channel on the record, and no other one. -/
theorem drun_records (idle : s.work = []) (starts : jz4740DmaDrun s ch = .ok u)
    (drains : Drains u t) : ∃ more, Records s t [ch] more ∧ more ≠ [] := by
  unfold jz4740DmaDrun at starts
  dsimp only at starts
  split at starts
  · cases starts
    have own : OwnWork ch (.descriptor ch ⟨_, aligned_inPage ‹_›⟩ :: s.work) := by
      rw [idle]
      exact List.forall_mem_cons.mpr ⟨⟨_, rfl⟩, List.forall_mem_nil _⟩
    obtain ⟨more, records, some⟩ := drains_records drains own
    exact ⟨more, ⟨records.log, records.own⟩, some (List.cons_ne_nil _ _)⟩
  · cases starts

theorem serveAll_records (serves : ServeAll s chs t) (idle : s.work = []) :
    ∃ more, Records s t chs more ∧ (chs ≠ [] → more ≠ []) := by
  induction serves with
  | done s => exact ⟨[], ⟨rfl, nofun⟩, fun some => absurd rfl some⟩
  | @serve s u v t ch chs starts drains later ih =>
    obtain ⟨first, records, some⟩ := drun_records idle starts drains
    obtain ⟨second, records', -⟩ := ih drains.idle
    refine ⟨second ++ first, .trans (records.mono ?_) (records'.mono (List.subset_cons_self ..)),
      fun _ => List.append_ne_nil_of_right_ne_nil second some⟩
    exact List.cons_subset_cons ch (List.nil_subset chs)

end Records

/-! ## What the doorbell does -/

section Doorbell

variable {s t : DmaState} {ch : Fin 6} {addr : Nat} {value : BitVec 32}

theorem mem_toServe : ch ∈ s.toServe value ↔
    value &&& bitMask ch ≠ 0#32 ∧ ¬ (s.dma.channels ch).NonDescriptor := by
  simp only [DmaState.toServe, List.mem_filter, List.mem_finRange, true_and, decide_eq_true_eq]

/-- A channel's bit is one of the six. -/
theorem and_bitMask_channel (value : BitVec 32) (ch : Fin 6) :
    (value &&& 0x3f#32) &&& bitMask ch = value &&& bitMask ch := by
  have low : ∀ ch : Fin 6, 0x3f#32 &&& bitMask ch = bitMask ch := by decide
  rw [BitVec.and_assoc, low]

theorem rungChannel_eq_none (clear : value &&& 0x3f#32 = 0#32) :
    rungChannel (value &&& 0xff#32) = none := by
  rw [rungChannel_mask, clear]
  decide

/-- Some channel is the lowest of those rung. -/
theorem rungChannel_isSome (rings : value &&& 0x3f#32 ≠ 0#32) :
    ∃ ch, rungChannel (value &&& 0xff#32) = some ch ∧ value &&& bitMask ch ≠ 0#32 := by
  cases rung : rungChannel (value &&& 0xff#32) with
  | some ch =>
    rw [rungChannel_mask] at rung
    have own := List.find?_some rung
    rw [decide_eq_true_eq, and_bitMask_channel] at own
    exact ⟨ch, rfl, own⟩
  | none =>
    rw [rungChannel_mask, List.find?_eq_none] at rung
    have high : ∀ k < 32, 6 ≤ k → (0x3f#32).getLsbD k = false := by decide
    refine absurd (BitVec.eq_of_getLsbD_eq fun k bound => ?_) rings
    rw [BitVec.getLsbD_zero]
    rcases Nat.lt_or_ge k 6 with channel | past
    · have own := rung ⟨k, channel⟩ (List.mem_finRange _)
      rw [decide_eq_true_eq, not_not] at own
      exact (and_bitMask_eq_zero_iff bound _).mp own
    · rw [BitVec.getLsbD_and, high k bound past, Bool.and_false]

/-- The lowest channel is served in no case: it is run when it is not in
descriptor mode, and left alone when it is. -/
theorem not_servesAll (idle : s.work = []) (enabled : s.dma.Enabled)
    (bell : addr = 0x308 ∨ addr = 0x30c) (rings : value &&& 0x3f#32 ≠ 0#32) :
    ¬ ServesAll s addr value := by
  rintro ⟨t, ⟨u, written, drains⟩, serves⟩
  obtain ⟨ch, rung, own⟩ := rungChannel_isSome rings
  obtain ⟨more, records, all⟩ := serveAll_records serves idle
  rw [write_doorbell bell, rung] at written
  by_cases mode : (s.dma.channels ch).NonDescriptor
  · have starts : jz4740DmaDrun (s.ringing value) ch = .ok u := by
      rw [← written]
      exact (if_pos ⟨enabled, mode⟩).symm
    obtain ⟨more', records', some'⟩ := drun_records (s := s.ringing value) idle starts drains
    -- what has been run is of a channel that was not to be served
    have same : more = more' := List.append_cancel_right (records.log.symm.trans records'.log)
    obtain ⟨e, mem⟩ := List.exists_mem_of_ne_nil more' some'
    have wanted := records.own e (same ▸ mem)
    rw [List.mem_singleton.mp (records'.own e mem)] at wanted
    exact (mem_toServe.mp wanted).2 mode
  · have stays : jz4740DmaEnDbn (s.ringing value) ch = .ok (s.ringing value) :=
      if_neg fun both => mode both.2
    cases stays.symm.trans written
    have still := drains.of_idle idle
    subst still
    have wanted : ch ∈ s.toServe value := mem_toServe.mpr ⟨own, mode⟩
    refine all (List.ne_nil_of_mem wanted) ?_
    exact List.append_cancel_right (records.log.symm.trans (List.nil_append _).symm)

/-- The doorbell serves every channel it is to serve exactly when no channel is
rung. -/
theorem servesAll_iff (idle : s.work = []) (enabled : s.dma.Enabled)
    (bell : addr = 0x308 ∨ addr = 0x30c) :
    ServesAll s addr value ↔ value &&& 0x3f#32 = 0#32 := by
  constructor
  · intro serves
    by_contra rings
    exact not_servesAll idle enabled bell rings serves
  · intro clear
    have nothing : s.toServe value = [] := by
      refine List.eq_nil_iff_forall_not_mem.mpr fun ch wanted => (mem_toServe.mp wanted).1 ?_
      rw [← and_bitMask_channel, clear]
      exact BitVec.zero_and
    refine ⟨s.ringing value, ⟨s.ringing value, ?_, .done idle⟩, ?_⟩
    · rw [write_doorbell bell, rungChannel_eq_none clear]
    · rw [nothing]
      exact .done _

end Doorbell

/-! ## Ringing after power-on -/

/-- The guest enables the controller. -/
def enableDma : List DmaInput :=
  [.write 0x300 0x1, .proceed, .proceed, .proceed, .proceed, .proceed, .proceed]

theorem enableDma_runs : ∃ s outs, dmaRun (jz4740DmaInit (fill 0)) enableDma = .ok (s, outs) ∧
    s.work = [] ∧ s.dma.Enabled := by
  refine ⟨_, _, rfl, ?_⟩
  exact ⟨rfl, by decide⟩

/-- Channels 0 and 2 are rung. -/
theorem doorbell_serves_none : ∃ s outs,
    dmaRun (jz4740DmaInit (fill 0)) enableDma = .ok (s, outs) ∧ s.work = [] ∧ s.dma.Enabled ∧
      ¬ ServesAll s 0x308 0x5 := by
  obtain ⟨s, outs, run, idle, enabled⟩ := enableDma_runs
  exact ⟨s, outs, run, idle, enabled, not_servesAll idle enabled (Or.inl rfl) (by decide)⟩

theorem servesAll_iff_rung : ∃ s outs,
    dmaRun (jz4740DmaInit (fill 0)) enableDma = .ok (s, outs) ∧
      (ServesAll s 0x308 0x5 ↔ 0x5#32 &&& 0x3f#32 = 0#32) := by
  obtain ⟨s, outs, run, idle, enabled⟩ := enableDma_runs
  exact ⟨s, outs, run, servesAll_iff idle enabled (Or.inl rfl)⟩

end VirtualNoah
