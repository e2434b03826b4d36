import VirtualNoah.Soc.Dma

/-!
# Which channels a write starts

A channel is armed by a write of DCS with EN set, until it completes.  A run is
watched: beside the controller it carries the channels that are still pending.

`jz4740_dma_en_channel` looks at DMAE and NDES only, so a write of DMAC runs
every channel in non-descriptor mode, and the doorbell runs the descriptors of a
channel under the same condition.  `channels_run_when_armed` says what the guest
has to leave alone for every channel that runs to be armed.
-/

namespace VirtualNoah

open StepRun

/-! ## Watching a run -/

structure DmaWatched where
  dma : DmaState
  pending : Fin 6 → Prop

def DmaInput.WritesEn (input : DmaInput) (ch : Fin 6) : Prop :=
  ∃ addr value, input = .write addr value ∧ dmaChannelReg addr = some (ch, 0x10) ∧
    value &&& 0x1#32 ≠ 0#32

/-- The step has made a transfer for the channel. -/
def Transferred (s t : DmaState) (ch : Fin 6) : Prop :=
  ∃ new src dest, t.log = new ++ s.log ∧ DmaEntry.transfer ch src dest ∈ new

/-- The transfer was the last of its channel. -/
def Completes (s t : DmaState) (ch : Fin 6) : Prop :=
  Transferred s t ch ∧ ∀ desc, DmaWork.descriptor ch desc ∉ t.work

def watchStep (x : DmaWatched) (input : DmaInput) :
    Except Fault (DmaWatched × Option (BitVec 32)) :=
  (dmaStep x.dma input).map fun (t, out) =>
    (⟨t, fun ch => input.WritesEn ch ∨ x.pending ch ∧ ¬ Completes x.dma t ch⟩, out)

/-- Nothing has been armed before power-on. -/
def watchInit (ram : ByteStore.Buf) : DmaWatched := ⟨jz4740DmaInit ram, fun _ => False⟩

def DmaWork.ch : DmaWork → Fin 6
  | .channel ch => ch
  | .descriptor ch _ => ch

/-- The work of the channel makes a transfer, changes RAM, or tells the guest. -/
def Performs (s t : DmaState) (ch : Fin 6) : Prop :=
  (∃ todo rest, s.work = todo :: rest ∧ todo.ch = ch) ∧
    (Transferred s t ch ∨ t.ram ≠ s.ram ∨ t.dma.irq ≠ s.dma.irq ∨ t.dma.dirqp ≠ s.dma.dirqp ∨
      (t.dma.channels ch).dtc ≠ (s.dma.channels ch).dtc)

/-- Enabled by EN, and not completed since EN was written. -/
def DmaWatched.Armed (x : DmaWatched) (ch : Fin 6) : Prop :=
  (x.dma.dma.channels ch).En ∧ x.pending ch

/-- A channel that performs a transfer is armed, and DMAE and NDES are set. -/
def RunsArmed (x : DmaWatched) (input : DmaInput) : Prop :=
  ∀ y out, watchStep x input = .ok (y, out) → ∀ ch, Performs x.dma y.dma ch →
    x.dma.dma.Enabled ∧ (x.dma.dma.channels ch).NonDescriptor ∧ x.Armed ch

/-! ## What the guest has to leave alone -/

def DmaChannel.InRam (c : DmaChannel) : Prop :=
  (∃ sr, ramAddr c.dsa.toNat = some sr) ∧ ∃ de, ramAddr c.dta.toNat = some de

/-- The channel and all before it that run with it start in RAM on both sides, so
that the walk over the channels reaches it. -/
def Reached (s : DmaState) (ch : Fin 6) : Prop :=
  ∀ k ≤ ch, (s.dma.channels k).NonDescriptor → (s.dma.channels k).InRam

/-- The work is not stopped before it has made its transfer. -/
def Makes (s : DmaState) (todo : DmaWork) : Prop :=
  ∃ m sr de, s.transferOf todo = some m ∧ ramAddr m.src.toNat = some sr ∧
    ramAddr m.dest.toNat = some de

/-- A write that enables the controller finds every channel it runs armed, and a
ring of the doorbell the channel it selects. -/
structure StartsArmed (x : DmaWatched) (input : DmaInput) : Prop where
  dmac : ∀ value, input = .write 0x300 value → value &&& 0x1#32 ≠ 0#32 → ∀ ch,
    (x.dma.dma.channels ch).NonDescriptor → Reached x.dma ch → x.Armed ch
  doorbell : ∀ addr value, input = .write addr value → addr = 0x308 ∨ addr = 0x30c →
    ∀ ch desc, rungChannel (value &&& 0xff#32) = some ch → x.dma.dma.Enabled →
      (x.dma.dma.channels ch).NonDescriptor → (x.dma.dma.channels ch).dda &&& 0xf#32 = 0#32 →
      desc.phy = (x.dma.dma.channels ch).dda.toNat → Makes x.dma (.descriptor ch desc) →
      x.Armed ch

/-- The work in hand is a walk over channels or one chain, and what of it is going
to run is armed. -/
inductive Ready (x : DmaWatched) : Prop
  | walk (chs : List (Fin 6)) (work : x.dma.work = chs.map .channel)
    (ascending : chs.Pairwise (· < ·))
    (armed : ∀ ch ∈ chs, x.dma.dma.Enabled → (x.dma.dma.channels ch).NonDescriptor →
      (∀ k ∈ chs, k ≤ ch → (x.dma.dma.channels k).NonDescriptor → (x.dma.dma.channels k).InRam) →
      x.Armed ch)
  | chain {ch : Fin 6} {desc : DescAddr} (work : x.dma.work = [.descriptor ch desc])
    (enabled : x.dma.dma.Enabled) (nonDescriptor : (x.dma.dma.channels ch).NonDescriptor)
    (armed : Makes x.dma (.descriptor ch desc) → x.Armed ch)

section Step

variable {s t : DmaState} {x y : DmaWatched} {input : DmaInput} {out : Option (BitVec 32)}
  {ch : Fin 6} {todo : DmaWork}

theorem watchStep_ok (done : watchStep x input = .ok (y, out)) :
    dmaStep x.dma input = .ok (y.dma, out) ∧
      ∀ ch, y.pending ch ↔ input.WritesEn ch ∨ x.pending ch ∧ ¬ Completes x.dma y.dma ch := by
  obtain ⟨⟨t, out'⟩, stepped, same⟩ := of_map_eq_ok done
  cases same
  exact ⟨stepped, fun ch => Iff.rfl⟩

theorem not_transferred_of_log (log : t.log = s.log) : ¬ Transferred s t ch := by
  rintro ⟨new, src, dest, same, mem⟩
  rw [log] at same
  rw [List.self_eq_append_left.mp same] at mem
  exact List.not_mem_nil mem

theorem not_transferred_of_fetched {fetched : List DmaEntry} (all : ∀ e ∈ fetched, Fetched e)
    (log : t.log = fetched ++ s.log) : ¬ Transferred s t ch := by
  rintro ⟨new, src, dest, same, mem⟩
  rw [log] at same
  rw [← List.append_cancel_right same] at mem
  obtain ⟨ch', desc, host, -, wrong⟩ := all _ mem
  cases wrong

theorem transferred_ch {m : DmaMove} {sr de : Nat} {fetched : List DmaEntry}
    (all : ∀ e ∈ fetched, Fetched e) (log : t.log = m.entry sr de :: (fetched ++ s.log))
    (transferred : Transferred s t ch) : ch = m.ch := by
  obtain ⟨new, src, dest, same, mem⟩ := transferred
  rw [log, ← List.cons_append] at same
  rw [← List.append_cancel_right same, List.mem_cons] at mem
  rcases mem with entry | fetched
  · cases entry
    rfl
  · obtain ⟨ch', desc, host, -, wrong⟩ := all _ fetched
    cases wrong

theorem transferOf_ch {m : DmaMove} (wanted : s.transferOf todo = some m) : m.ch = todo.ch := by
  cases todo with
  | channel ch =>
    simp only [DmaState.transferOf] at wanted
    split at wanted
    · cases wanted
      rfl
    · cases wanted
  | descriptor ch desc =>
    obtain ⟨host, -, words⟩ := Option.bind_eq_some_iff.mp wanted
    simp only at words
    split at words
    · cases words
    · cases words
      rfl

/-- Work that performs anything has made its transfer. -/
theorem makes_of_performs {rest : List DmaWork} (next : s.work = todo :: rest)
    (worked : dmaWork { s with work := rest } todo = .ok t) (performs : Performs s t ch) :
    todo.ch = ch ∧ Makes s todo := by
  obtain ⟨⟨todo', rest', next', own⟩, effects⟩ := performs
  cases next.symm.trans next'
  refine ⟨own, ?_⟩
  cases (dmaWork_effect worked).outcome with
  | moves wanted source destination => exact ⟨_, _, _, wanted, source, destination⟩
  | quiet _ same _ all log =>
    rcases effects with transferred | ram | irq | dirqp | dtc
    · exact (not_transferred_of_fetched all log transferred).elim
    · exact (ram same.ram).elim
    · exact (irq same.irq).elim
    · exact (dirqp same.dirqp).elim
    · exact (dtc (same.dtc ch)).elim

theorem makes_channel (makes : Makes s (.channel ch)) :
    s.dma.Enabled ∧ (s.dma.channels ch).NonDescriptor ∧ (s.dma.channels ch).InRam := by
  obtain ⟨m, sr, de, wanted, source, destination⟩ := makes
  simp only [DmaState.transferOf] at wanted
  split at wanted
  · next runs =>
    cases wanted
    exact ⟨runs.1, runs.2, ⟨sr, source⟩, de, destination⟩
  · cases wanted

theorem SameControl.inRam {d e : Jz4740Dma} (same : SameControl d e) (k : Fin 6) :
    (e.channels k).InRam ↔ (d.channels k).InRam := by
  rw [DmaChannel.InRam, DmaChannel.InRam, same.dsa, same.dta]

theorem ready_of_idle (none : x.dma.work = []) : Ready x :=
  .walk [] none List.Pairwise.nil fun _ mem => absurd mem List.not_mem_nil

/-- The head of a walk, and the rest of it. -/
theorem of_walk {chs : List (Fin 6)} {rest : List DmaWork}
    (work : chs.map .channel = todo :: rest) :
    ∃ c cs, chs = c :: cs ∧ todo = .channel c ∧ rest = cs.map .channel := by
  cases chs with
  | nil => cases work
  | cons c cs =>
    cases work
    exact ⟨c, cs, rfl, rfl, rfl⟩

theorem ready_entails (ready : Ready x) : RunsArmed x input := by
  intro y out done ch performs
  obtain ⟨stepped, -⟩ := watchStep_ok done
  have busy : ∃ todo rest, x.dma.work = todo :: rest ∧
      dmaWork { x.dma with work := rest } todo = .ok y.dma := by
    obtain ⟨todo, rest, next, -⟩ := performs.1
    have idle : x.dma.work ≠ [] := fun none => by cases next.symm.trans none
    cases dmaStep_case stepped with
    | work next worked => exact ⟨_, _, next, worked⟩
    | idle none => exact (idle none).elim
    | read none => exact (idle none).elim
    | store none => exact (idle none).elim
    | write none => exact (idle none).elim
  obtain ⟨todo, rest, next, worked⟩ := busy
  obtain ⟨rfl, makes⟩ := makes_of_performs next worked performs
  cases ready with
  | walk chs work ascending armed =>
    obtain ⟨c, cs, rfl, rfl, rfl⟩ := of_walk (work.symm.trans next)
    obtain ⟨enabled, nonDescriptor, inRam⟩ := makes_channel makes
    refine ⟨enabled, nonDescriptor, armed c List.mem_cons_self enabled nonDescriptor ?_⟩
    intro k mem before _
    rcases List.mem_cons.mp mem with rfl | later
    · exact inRam
    · exact absurd (List.rel_of_pairwise_cons ascending later) (not_lt.mpr before)
  | chain work enabled nonDescriptor armed =>
    cases work.symm.trans next
    exact ⟨enabled, nonDescriptor, armed makes⟩

/-- A channel stays armed unless it completes. -/
theorem armed_keep (done : watchStep x input = .ok (y, out))
    (en : (y.dma.dma.channels ch).En ↔ (x.dma.dma.channels ch).En)
    (unfinished : ¬ Completes x.dma y.dma ch) (armed : x.Armed ch) : y.Armed ch :=
  ⟨en.mpr armed.1, ((watchStep_ok done).2 ch).mpr (Or.inr ⟨armed.2, unfinished⟩)⟩

/-- Work for one channel completes no other. -/
theorem not_completes_of_ne {rest : List DmaWork}
    (worked : dmaWork { s with work := rest } todo = .ok t) (apart : ch ≠ todo.ch) :
    ¬ Completes s t ch := by
  rintro ⟨transferred, -⟩
  cases (dmaWork_effect worked).outcome with
  | quiet _ _ _ all log => exact not_transferred_of_fetched all log transferred
  | moves wanted _ _ _ all log =>
    exact apart ((transferred_ch all log transferred).trans (transferOf_ch wanted))

theorem ready_work {rest : List DmaWork} (ready : Ready x) (next : x.dma.work = todo :: rest)
    (worked : dmaWork { x.dma with work := rest } todo = .ok y.dma)
    (done : watchStep x input = .ok (y, out)) : Ready y := by
  obtain ⟨control, outcome⟩ := dmaWork_effect worked
  cases ready with
  | walk chs work ascending armed =>
    obtain ⟨c, cs, rfl, rfl, rfl⟩ := of_walk (work.symm.trans next)
    have left : y.dma.work = cs.map .channel := by
      cases outcome with
      | quiet _ _ work => exact work
      | moves _ _ _ work =>
        rcases work with same | ⟨ch, desc, desc', wrong, -⟩
        · exact same
        · cases wrong
    -- the channel that has just run has not stopped the walk
    have passed : x.dma.dma.Enabled → (x.dma.dma.channels c).NonDescriptor →
        (x.dma.dma.channels c).InRam := by
      intro enabled nonDescriptor
      cases outcome with
      | quiet nothing =>
        simp only [DmaState.transferOf, if_pos (And.intro enabled nonDescriptor)] at nothing
        cases nothing
      | moves wanted source destination =>
        exact (makes_channel (s := x.dma) ⟨_, _, _, wanted, source, destination⟩).2.2
    refine .walk cs left (List.Pairwise.of_cons ascending) ?_
    intro k mem enabled nonDescriptor inRam
    have enabled' := control.enabled.mp enabled
    refine armed_keep done (control.en k) (not_completes_of_ne worked ?_)
      (armed k (List.mem_cons_of_mem c mem) enabled'
        ((control.nonDescriptor k).mp nonDescriptor) ?_)
    · exact (List.rel_of_pairwise_cons ascending mem).ne'
    · intro j memj before nonDescriptor'
      rcases List.mem_cons.mp memj with rfl | later
      · exact passed enabled' nonDescriptor'
      · exact (control.inRam j).mp
          (inRam j later before ((control.nonDescriptor j).mpr nonDescriptor'))
  | @chain c desc work enabled nonDescriptor armed =>
    cases work.symm.trans next
    cases outcome with
    | quiet _ _ left => exact ready_of_idle left
    | moves wanted source destination left =>
      rcases left with left | ⟨c', desc', desc'', same, left⟩
      · exact ready_of_idle left
      · cases same
        refine .chain left (control.enabled.mpr enabled)
          ((control.nonDescriptor c).mpr nonDescriptor) fun _ => ?_
        refine armed_keep done (control.en c) (fun completes => ?_)
          (armed ⟨_, _, _, wanted, source, destination⟩)
        exact completes.2 desc'' (left ▸ List.mem_cons_self)

theorem ready_write {addr : Nat} {value : BitVec 32} (guarded : StartsArmed x (.write addr value))
    (none : x.dma.work = []) (written : jz4740DmaWrite x.dma addr value = .ok y.dma)
    (done : watchStep x (.write addr value) = .ok (y, out)) : Ready y := by
  have unfinished : ∀ ch, ¬ Completes x.dma y.dma ch := fun ch completes =>
    not_transferred_of_log (jz4740DmaWrite_log written) completes.1
  cases jz4740DmaWrite_case written with
  | holds work => exact ready_of_idle (work.trans none)
  | dmac place enables channels work =>
    rw [none, List.append_nil] at work
    refine .walk _ work (List.pairwise_lt_finRange 6) fun ch _ _ nonDescriptor inRam => ?_
    rw [channels] at nonDescriptor inRam
    refine armed_keep done (by rw [channels]) (unfinished ch)
      (guarded.dmac value (place ▸ rfl) enables ch nonDescriptor fun k before =>
        inRam k (List.mem_finRange k) before)
  | @doorbell place ch rung enabled nonDescriptor desc aligned phy same =>
    have work : y.dma.work = [.descriptor ch desc] := by rw [same, none]
    have kept : y.dma.dma.channels = x.dma.dma.channels := by rw [same]
    refine .chain work (by rw [same]; exact enabled) (by rw [kept]; exact nonDescriptor) ?_
    intro makes
    refine armed_keep done (by rw [kept]) (unfinished ch) (guarded.doorbell addr value rfl place ch
      desc rung enabled nonDescriptor aligned phy ?_)
    rw [same] at makes
    exact makes
  | @dcs ch place en own work =>
    rw [none] at work
    refine .walk [ch] work (List.pairwise_singleton _ ch) fun k mem _ _ _ => ?_
    cases List.mem_singleton.mp mem
    exact ⟨own, ((watchStep_ok done).2 ch).mpr (Or.inl ⟨addr, value, rfl, place, en⟩)⟩

theorem ready_keep (ready : Ready x) (guarded : StartsArmed x input)
    (done : watchStep x input = .ok (y, out)) : Ready y := by
  have stepped := (watchStep_ok done).1
  cases dmaStep_case stepped with
  | work next worked => exact ready_work ready next worked done
  | idle none same => exact ready_of_idle (same ▸ none)
  | read none same => exact ready_of_idle (same ▸ none)
  | store none same => exact ready_of_idle (by rw [same]; exact none)
  | write none written => exact ready_write guarded none written done

end Step

/-- From power-on and over any guest RAM, only armed channels perform transfers,
as long as each write that starts channels finds what it starts armed. -/
theorem channels_run_when_armed (ram : ByteStore.Buf) (inputs : List DmaInput)
    (guarded : Along watchStep StartsArmed (watchInit ram) inputs) :
    Along watchStep RunsArmed (watchInit ram) inputs :=
  Along.of_invariant Ready ready_keep (fun ready _ => ready_entails ready)
    (ready_of_idle rfl) guarded

/-- Channel 0 is armed while the controller is off, and runs when it is enabled. -/
def armThenEnable : List DmaInput :=
  [.write 0x8 0x4, .write 0x10 0x80000001, .proceed, .write 0x300 0x1, .proceed]

theorem armed_channel_runs :
    (∃ y outs, run watchStep (watchInit (ByteStore.fill 0)) armThenEnable = .ok (y, outs) ∧
      y.dma.dma.dirqp = 0x1#32) ∧
    Along watchStep RunsArmed (watchInit (ByteStore.fill 0)) armThenEnable := by
  refine ⟨⟨_, _, rfl, rfl⟩, channels_run_when_armed (ByteStore.fill 0) armThenEnable ?_⟩
  have other : ∀ (x : DmaWatched) (input : DmaInput), input = .write 0x8 0x4 ∨
      input = .write 0x10 0x80000001 ∨ input = .proceed → StartsArmed x input := by
    rintro x input (rfl | rfl | rfl)
    · exact ⟨nofun, fun addr value same place => by cases same; cases place <;> contradiction⟩
    · exact ⟨nofun, fun addr value same place => by cases same; cases place <;> contradiction⟩
    · exact ⟨nofun, nofun⟩
  refine .cons (other _ _ (Or.inl rfl)) rfl (.cons (other _ _ (Or.inr (Or.inl rfl))) rfl
    (.cons (other _ _ (Or.inr (Or.inr rfl))) rfl (.cons ⟨?_, ?_⟩ rfl
      (.cons (other _ _ (Or.inr (Or.inr rfl))) rfl trivial))))
  · intro value _ _ ch nonDescriptor reached
    obtain rfl : ch = 0 := by
      clear reached
      revert ch
      decide
    exact ⟨by decide, Or.inr ⟨Or.inl ⟨0x10, 0x80000001, rfl, rfl, by decide⟩,
      fun completes => not_transferred_of_log rfl completes.1⟩⟩
  · intro addr value same place
    cases same
    cases place <;> contradiction

/-- Channel 0 is disabled when the controller is enabled, and yet its DIRQP bit is
set. -/
theorem disabled_channel_flagged :
    (∃ y outs, run watchStep (watchInit (ByteStore.fill 0))
        [.write 0x10 0x80000000, .write 0x300 0x1, .proceed] = .ok (y, outs) ∧
      y.dma.dma.dirqp = 0x1#32 ∧ ¬ (y.dma.dma.channels 0).En) ∧
    ¬ Along watchStep RunsArmed (watchInit (ByteStore.fill 0))
      [.write 0x10 0x80000000, .write 0x300 0x1, .proceed] := by
  refine ⟨⟨_, _, rfl, rfl, by decide⟩, fun along => ?_⟩
  obtain ⟨runs, -⟩ := (along.2 _ _ rfl).2 _ _ rfl
  obtain ⟨-, -, en, -⟩ := runs _ _ rfl 0
    ⟨⟨_, _, rfl, rfl⟩, Or.inl ⟨[_], _, _, rfl, List.mem_cons_self⟩⟩
  exact absurd en (by decide)

end VirtualNoah
