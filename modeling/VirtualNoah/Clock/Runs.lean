import VirtualNoah.Clock.Init
import VirtualNoah.Lib.StepRun

/-!
# Every run of the clock operations

`jz_clk_init` and then any sequence of the three operations: each of them ends,
and what it leaves is a forest.  A division by zero is the only way to stop.
-/

namespace VirtualNoah

open SiblingForest Fuel

variable {ν : Type}

/-- Each clock with a parent is in the list of that parent once and in no other,
a clock without one is in none, and no clock is below itself. -/
structure JzClks.WellFormed (s : JzClks ν) : Prop where
  lists : ∀ p ∈ clkNodes s.count, ∃ cs, Walks s.heap.links.sibling (s.heap p).child1 cs ∧
    (∀ c ∈ cs, c ∈ clkNodes s.count) ∧
    ∀ c ∈ clkNodes s.count, cs.count c = if (s.heap c).parent = some p then 1 else 0
  closed : ∀ c ∈ clkNodes s.count, ∀ p, (s.heap c).parent = some p → p ∈ clkNodes s.count
  rooted : ∀ c ∈ clkNodes s.count, Rooted s.heap.links c

theorem wellFormed_iff {s : JzClks ν} :
    s.WellFormed ↔ Forest s.heap.links (clkNodes s.count) := by
  constructor
  · intro well
    refine ⟨⟨fun p inside => ?_, well.closed⟩, well.rooted⟩
    obtain ⟨cs, walks, nodes, once⟩ := well.lists p inside
    refine ⟨cs, walks, fun c => ⟨fun mem => ⟨nodes c mem, ?_⟩, fun ⟨member, up⟩ => ?_⟩⟩
    · have listed := List.count_pos_iff.mpr mem
      rw [once c (nodes c mem)] at listed
      split at listed
      · assumption
      · exact absurd listed (Nat.lt_irrefl 0)
    · refine List.count_pos_iff.mp ?_
      rw [once c member, if_pos (show (s.heap c).parent = some p from up)]
      exact Nat.one_pos
  · intro forest
    refine ⟨fun p inside => ?_, forest.closed, forest.rooted⟩
    obtain ⟨cs, walks, mem⟩ := forest.list p inside
    refine ⟨cs, walks, fun c listed => ((mem c).mp listed).1, fun c member => ?_⟩
    split
    · next up => exact List.count_eq_one_of_mem walks.nodup ((mem c).mpr ⟨member, up⟩)
    · next other =>
      exact List.count_eq_zero_of_not_mem fun listed => other ((mem c).mp listed).2

inductive ClkOp where
  | reparent (clk : ClkPtr) (parent : Option ClkPtr)
  | setrate (clk : ClkPtr) (divide multiply : BitVec 32)
  | onoff (clk : ClkPtr) (on : Bool)

/-- The clock is one of the SoC, and a new parent is not inside its subtree. -/
def ClkOp.Allowed (op : ClkOp) (s : JzClks ν) : Prop :=
  match op with
  | .reparent clk parent => clk ∈ clkNodes s.count ∧
    ∀ p, parent = some p → p ∈ clkNodes s.count ∧ ¬ Below s.heap.links p clk
  | .setrate clk _ _ => clk ∈ clkNodes s.count
  | .onoff clk _ => clk ∈ clkNodes s.count

def clkStep (fuel : Nat) (s : JzClks ν) (op : ClkOp) : Except Fault (JzClks ν) :=
  (match op with
    | .reparent clk parent => jzClkReparent fuel s.heap clk parent
    | .setrate clk divide multiply => jzClkSetrate fuel s.heap clk divide multiply
    | .onoff clk on => jzClkOnoff fuel s.heap clk on).map fun h => { s with heap := h }

/-- The states of the runs on a table. -/
inductive ClkReachable [DecidableEq ν] (flag : BitVec 32) (table : List (Clk ν))
    (oscExtal : Nat) (freq : BitVec 32) : JzClks ν → Prop
  | init {s : JzClks ν} (settles : Settles (jzClkInit · flag table oscExtal freq) (.ok s)) :
    ClkReachable flag table oscExtal freq s
  | step {s t : JzClks ν} {op : ClkOp} (before : ClkReachable flag table oscExtal freq s)
    (allowed : op.Allowed s) (settles : Settles (clkStep · s op) (.ok t)) :
    ClkReachable flag table oscExtal freq t

theorem clkStep_ends {s : JzClks ν} {op : ClkOp} (well : s.WellFormed) (allowed : op.Allowed s) :
    Ends Fault.divideByZero (clkStep · s op) JzClks.WellFormed := by
  have forest := wellFormed_iff.mp well
  have finite := clkNodes_finite s.count
  have wrap : ∀ {f : Nat → Except Fault (ClkHeap ν)},
      Ends Fault.divideByZero f (fun h => Forest h.links (clkNodes s.count)) →
      (∀ fuel, clkStep fuel s op = (f fuel).map fun h => { s with heap := h }) →
      Ends Fault.divideByZero (clkStep · s op) JzClks.WellFormed := by
    intro f ends same
    refine ends.bind (k := fun h _ => .ok { s with heap := h }) (fun h forest' => ?_) ?_ ?_
    · exact .of_settles (.const _) (wellFormed_iff.mpr forest')
    · intro fuel e stopped
      rw [same, stopped]
      rfl
    · intro fuel h done
      rw [same, done]
      rfl
  cases op with
  | reparent clk parent =>
    exact wrap (jzClkReparent_ends forest finite allowed.1 allowed.2) fun _ => rfl
  | setrate clk divide multiply =>
    exact wrap (jzClkSetrate_ends forest finite allowed divide multiply) fun _ => rfl
  | onoff clk on => exact wrap (jzClkOnoff_ends forest finite allowed on) fun _ => rfl

theorem clkStep_count {fuel : Nat} {s t : JzClks ν} {op : ClkOp}
    (done : clkStep fuel s op = .ok t) : t.count = s.count := by
  obtain ⟨h, -, rfl⟩ := StepRun.of_map_eq_ok done
  rfl

section Runs

variable [DecidableEq ν] {flag : BitVec 32} {table : List (Clk ν)} {oscExtal : Nat}
  {freq : BitVec 32}

theorem ClkReachable.wellFormed {s : JzClks ν}
    (good : GoodTable (onchipHeap table oscExtal freq) flag table.length)
    (reachable : ClkReachable flag table oscExtal freq s) : s.WellFormed := by
  induction reachable with
  | init settles => exact wellFormed_iff.mpr ((jzClkInit_ends good).of_settles_ok settles).1
  | step _ allowed settles ih => exact (clkStep_ends ih allowed).of_settles_ok settles

/-- There are as many copies as clocks of the SoC, whatever the operations. -/
theorem ClkReachable.count {s : JzClks ν}
    (good : GoodTable (onchipHeap table oscExtal freq) flag table.length)
    (reachable : ClkReachable flag table oscExtal freq s) :
    s.count = ((onchipHeap table oscExtal freq).entries flag table.length).length := by
  induction reachable with
  | init settles => exact ((jzClkInit_ends good).of_settles_ok settles).2.count
  | step _ _ settles ih =>
    obtain ⟨least, done⟩ := settles
    exact (clkStep_count (done least le_rfl)).trans ih

/-- On a good table the initialisation and every operation of every run end, in a
well-formed state unless a rate is divided by zero.  The initialisation copies the clocks of the
SoC, and links them as the table says. -/
theorem clocks_stay_wellFormed
    (good : GoodTable (onchipHeap table oscExtal freq) flag table.length) :
    Ends Fault.divideByZero (jzClkInit · flag table oscExtal freq) (fun s => s.WellFormed ∧
      Copied (onchipHeap table oscExtal freq) flag table.length s) ∧
    ∀ s, ClkReachable flag table oscExtal freq s → s.WellFormed ∧
      s.count = ((onchipHeap table oscExtal freq).entries flag table.length).length ∧
      ∀ op : ClkOp, op.Allowed s → Ends Fault.divideByZero (clkStep · s op) JzClks.WellFormed := by
  constructor
  · exact (jzClkInit_ends good).mono fun s => And.imp_left wellFormed_iff.mpr
  · intro s reachable
    have well := reachable.wellFormed good
    exact ⟨well, reachable.count good, fun op allowed => clkStep_ends well allowed⟩

end Runs

/-- A table is good if all its clocks are of the SoC and each is ranked above its parent. -/
theorem goodTable_of_rank {h : ClkHeap ν} {flag : BitVec 32} {length : Nat} (rank : Nat → Nat)
    (named : ∀ i < length, (h (.onchip i)).name ≠ none)
    (distinct : ∀ i < length, ∀ j < length,
      (h (.onchip i)).name = (h (.onchip j)).name → i = j)
    (unlinked : ∀ i < length, (h (.onchip i)).child1 = none ∧ (h (.onchip i)).sibling = none)
    (parents : ∀ i < length, ∀ p, (h (.onchip i)).parent = some p →
      ∃ j, h.Selected flag length j ∧ p = .onchip j ∧ rank j < rank i) :
    GoodTable h flag length where
  named selected := named _ selected.1
  distinct selected selected' := distinct _ selected.1 _ selected'.1
  unlinked selected := unlinked _ selected.1
  inside selected up := by
    obtain ⟨j, selected', place, -⟩ := parents _ selected.1 _ up
    exact ⟨j, selected', place⟩
  acyclic {i} selected := by
    induction bound : rank i using Nat.strong_induction_on generalizing i with
    | _ n ih =>
      subst bound
      cases up : (h (.onchip i)).parent with
      | none => exact .root up
      | some p =>
        obtain ⟨j, selected', rfl, lower⟩ := parents i selected.1 p up
        exact .child up (ih _ lower selected' rfl)

/-- A clock listed before its parent. -/
def childFirst : List (Clk Nat) :=
  let c : Clk Nat := { Clk.zero with flags := alwaysEnabled ||| clockInJz4740 }
  [{ c with name := some 0, parent := some (.onchip 1) }, { c with name := some 1 }]

theorem childFirst_good : GoodTable (onchipHeap childFirst 1 12000000) clockInJz4740
    childFirst.length := by
  refine goodTable_of_rank (2 - ·) (by decide) (by decide) (by decide) fun i inside p up => ?_
  have place : i = 0 ∨ i = 1 := Nat.le_one_iff_eq_zero_or_eq_one.mp (Nat.le_of_lt_succ inside)
  rcases place with rfl | rfl
  · cases up
    exact ⟨1, ⟨by decide, by decide⟩, rfl, by decide⟩
  · cases up

/-- The clocks of this table stay well formed. -/
theorem childFirst_stays_wellFormed :
    Ends Fault.divideByZero (jzClkInit · clockInJz4740 childFirst 1 12000000) (fun s =>
      s.WellFormed ∧ Copied (onchipHeap childFirst 1 12000000) clockInJz4740 2 s) ∧
    ∀ s, ClkReachable clockInJz4740 childFirst 1 12000000 s → s.WellFormed ∧
      s.count = ((onchipHeap childFirst 1 12000000).entries clockInJz4740 2).length ∧
      ∀ op : ClkOp, op.Allowed s → Ends Fault.divideByZero (clkStep · s op) JzClks.WellFormed :=
  clocks_stay_wellFormed childFirst_good

/-- A divisor of zero stops the emulator: no state is left to be well formed. -/
theorem setrate_zero_leaves_no_state :
    ∃ s, ClkReachable clockInJz4740 childFirst 1 12000000 s ∧
      (ClkOp.setrate (.clks 0) 0 1).Allowed s ∧
      ¬ ∃ t, Settles (clkStep · s (.setrate (.clks 0) 0 1)) (.ok t) := by
  have count : ∀ fuel, (jzClkInit (fuel + 10) clockInJz4740 childFirst 1 12000000).map
      (·.count) = .ok 2 := fun _ => rfl
  have trap : ∀ fuel, (jzClkInit (fuel + 10) clockInJz4740 childFirst 1 12000000).bind
      (fun s => clkStep (fuel + 10) s (.setrate (.clks 0) 0 1)) = .error .divideByZero :=
    fun _ => rfl
  obtain ⟨r, ⟨least, settles⟩, rfl | ⟨s, rfl, -⟩⟩ := jzClkInit_ends childFirst_good
  · have two := congrArg (Except.map (·.count)) (settles (least + 10) (by omega))
    cases (count least).symm.trans two
  · have two := congrArg (Except.map (·.count)) (settles (least + 10) (by omega))
    have size : 2 = s.count := Except.ok.inj ((count least).symm.trans two)
    refine ⟨s, .init ⟨least, settles⟩, ⟨0, by omega, rfl⟩, ?_⟩
    rintro ⟨t, n, settled⟩
    have run := congrArg (Except.bind · fun s => clkStep (least + n + 10) s
      (.setrate (.clks 0) 0 1)) (settles (least + n + 10) (by omega))
    have stopped := (trap (least + n)).symm.trans run
    cases stopped.trans (settled (least + n + 10) (by omega))

end VirtualNoah
