import VirtualNoah.Clock.Rates
import VirtualNoah.Clock.Steady

/-!
# Running clocks have the right rate

Every operation leaves all flags right.  A change of a divisor or of a parent
goes down through running clocks only, and starting a clock refreshes no rate: a
clock below one that stands still keeps the rate of before the change, and has it
when it runs again.  When the clocks a change has to pass all run, every clock
keeps the right rate.
-/

namespace VirtualNoah

open SiblingForest Fuel

variable {ν : Type}

section Keep

variable {nodes : Set ClkPtr} {h h' : ClkHeap ν} {clk p x : ClkPtr}

/-- What a flag depends on. -/
theorem ClkHeap.Consistent.congr (right : h.Consistent p)
    (same : ∀ q, (h' q).running = (h q).running)
    (own : (h' p).parent = (h p).parent ∧ (h' p).enabled = (h p).enabled ∧
      (h' p).flags = (h p).flags) : h'.Consistent p := by
  unfold ClkHeap.Consistent
  rw [same, ticks_congr own.1 own.2.1 own.2.2 fun q _ => same q]
  exact right

/-- What a rate depends on. -/
theorem ClkHeap.RateRight.congr (right : h.RateRight x) (rate : ∀ y, (h' y).rate = (h y).rate)
    (same : ∀ y, Below h'.links x y → (h' y).parent = (h y).parent ∧
      (h' y).divisor = (h y).divisor ∧ (h' y).multiplier = (h y).multiplier) :
    h'.RateRight x := by
  intro r d k root path
  rw [rate, rate]
  refine right r d k ((same r path.lower).1.symm.trans root) (path.congr (fun y below => ?_)
    fun _ _ _ => trivial)
  obtain ⟨parent, divisor, multiplier⟩ := same y below
  exact ⟨parent.symm, divisor.symm, multiplier.symm⟩

theorem Updated.rateRight {start : ClkPtr → Prop} (updated : Updated nodes start h h')
    (right : h.RateRight x) : h'.RateRight x := by
  refine right.congr (fun y => ?_) fun y _ => ?_
  · rw [updated.rest y]
  · rw [updated.rest y]
    exact ⟨rfl, rfl, rfl⟩

theorem RateUpdated.consistent (updated : RateUpdated nodes clk h h') (right : h.Consistent p) :
    h'.Consistent p := by
  refine right.congr (fun y => ?_) ?_
  · rw [updated.rest y]
  · rw [updated.rest p]
    exact ⟨rfl, rfl, rfl⟩

/-- A way leads down to every clock below when the clocks on it run. -/
theorem path_of_below (below : Below h.links x clk)
    (runs : ∀ y c, Below h.links y clk → Below h.links x c → (h c).parent = some y → h.Runs y) :
    ∃ d k, Path h h.Runs x clk d k := by
  induction below with
  | refl => exact ⟨1, 1, .here⟩
  | @tail c top rest up ih =>
    obtain ⟨d, k, path⟩ := ih fun y c' lower =>
      runs y c' (Relation.ReflTransGen.tail lower up)
    exact ⟨_, _, .down up (runs top c .refl rest up) path⟩

/-- Below a clock that is fed, the clocks that are wanted run. -/
theorem runs_of_wanted (right : ∀ p ∈ nodes, h.Consistent p) (listed : Listed h.links nodes)
    (up : (h clk).parent = some p) (fed : h.Runs p) {y : ClkPtr} (below : Below h.links y clk)
    (inside : y ∈ nodes)
    (wanted : ∀ z, Below h.links y z → Below h.links z clk → h.Wanted z) : h.Runs y := by
  induction below using Relation.ReflTransGen.head_induction_on with
  | refl => exact (right clk inside).trans ((ticks_child up).mpr ⟨fed, wanted clk .refl .refl⟩)
  | @head y q upY rest ih =>
    have above : h.Runs q := ih (listed.closed y inside q upY) fun z lower lower' =>
      wanted z (lower.up upY) lower'
    exact (right y inside).trans
      ((ticks_child upY).mpr ⟨above, wanted y .refl (Below.up upY rest)⟩)

end Keep

/-! ## One operation -/

/-- The links are those of a forest, and every clock that is fed and wanted runs. -/
structure JzClks.Ticking (s : JzClks ν) : Prop where
  forest : Forest s.heap.links (clkNodes s.count)
  consistent : ∀ p ∈ clkNodes s.count, s.heap.Consistent p

/-- Every rate is right, also of the clocks that stand still. -/
def JzClks.RatesRight (s : JzClks ν) : Prop := ∀ p ∈ clkNodes s.count, s.heap.RateRight p

/-- The clock has clocks below it. -/
def JzClks.Feeds (s : JzClks ν) (p : ClkPtr) : Prop :=
  ∃ c ∈ clkNodes s.count, (s.heap c).parent = some p

/-- A new parent is given, not `NULL`. -/
def ClkOp.NonNull : ClkOp → Prop
  | .reparent _ parent => parent ≠ none
  | _ => True

/-- The clocks a change has to pass on its way down run, or run under the new
parent. -/
def ClkOp.Passes (s : JzClks ν) : ClkOp → Prop
  | .setrate clk _ _ => ∀ q, Below s.heap.links q clk → s.Feeds q → s.heap.Runs q
  | .reparent clk parent => ∀ q, Below s.heap.links q clk → s.Feeds q →
      s.heap.Wanted q ∧ ∀ p, parent = some p → s.heap.Runs p
  | .onoff _ _ => True

section Step

variable {fuel : Nat} {s t : JzClks ν} {op : ClkOp} {clk p : ClkPtr} {h : ClkHeap ν}

/-- The clock hangs below its new parent and nothing else has changed. -/
theorem of_relink {h' : ClkHeap ν} (forest : Forest s.heap.links (clkNodes s.count))
    (inside : clk ∈ clkNodes s.count) (inside' : p ∈ clkNodes s.count)
    (outside : ¬ Below s.heap.links p clk) (done : s.heap.unlink fuel clk = .ok h') :
    let h := h'.linkBelow clk p
    Forest h.links (clkNodes s.count) ∧ (h clk).parent = some p ∧
      (∀ q, q ≠ clk → (h q).parent = (s.heap q).parent) ∧
      ∀ q, (h q).unlinked = (s.heap q).unlinked := by
  intro h
  obtain ⟨root, apart, same⟩ := of_unlink forest inside done
  have links : h.links = (h'.links.without clk).attach clk p := by
    rw [without_attach]
    exact links_linkBelow h' clk p
  have parent : ∀ q, (h q).parent = Function.update (h'.links.without clk).parent clk (some p) q :=
    fun q => congrFun (congrArg Links.parent links) q
  refine ⟨?_, ?_, fun q other => ?_, fun q => ?_⟩
  · rw [links]
    exact root.attach (Function.update_self ..) inside inside' (apart p outside)
  · rw [parent, Function.update_self]
  · rw [parent, Function.update_of_ne other, ← (same q).2]
    exact Function.update_of_ne other ..
  · exact (linkBelow_unlinked h' clk p q).trans (same q).1

/-- One clock has been changed, and no flag or rate yet. -/
structure Altered (s : JzClks ν) (clk : ClkPtr) (h : ClkHeap ν) : Prop where
  forest : Forest h.links (clkNodes s.count)
  others : ∀ q, q ≠ clk → (h q).params = (s.heap q).params
  same : ∀ q, (h q).running = (s.heap q).running ∧ (h q).rate = (s.heap q).rate

theorem Altered.consistent (altered : Altered s clk h) (right : s.heap.Consistent p)
    (apart : p ≠ clk) : h.Consistent p := by
  have params := altered.others p apart
  exact right.congr (fun q => (altered.same q).1) ⟨congrArg ClkParams.parent params,
    congrArg ClkParams.enabled params, congrArg ClkParams.flags params⟩

theorem Altered.rateRight (altered : Altered s clk h) (right : s.heap.RateRight p)
    (outside : ¬ Below h.links p clk) : h.RateRight p := by
  refine right.congr (fun q => (altered.same q).2) fun y below => ?_
  have params := altered.others y fun same => outside (same ▸ below)
  exact ⟨congrArg ClkParams.parent params, congrArg ClkParams.divisor params,
    congrArg ClkParams.multiplier params⟩

/-- A change that keeps the links, the flags and the rate of the clock. -/
theorem altered_set {c : Clk ν} (forest : Forest s.heap.links (clkNodes s.count))
    (parent : c.parent = (s.heap clk).parent) (child1 : c.child1 = (s.heap clk).child1)
    (sibling : c.sibling = (s.heap clk).sibling) (running : c.running = (s.heap clk).running)
    (rate : c.rate = (s.heap clk).rate) : Altered s clk (s.heap.set clk c) := by
  refine ⟨?_, fun q other => ?_, fun q => ?_⟩
  · rw [links_set, parent, child1, sibling]
    simp only [ClkHeap.links, Function.update_eq_self_iff.mpr]
    exact forest
  · rw [set_apply_of_ne other]
  · rcases eq_or_ne q clk with rfl | other
    · rw [set_apply_self]
      exact ⟨running, rate⟩
    · rw [set_apply_of_ne other]
      exact ⟨rfl, rfl⟩

theorem altered_relink {h' : ClkHeap ν} (forest : Forest s.heap.links (clkNodes s.count))
    (inside : clk ∈ clkNodes s.count) (inside' : p ∈ clkNodes s.count)
    (outside : ¬ Below s.heap.links p clk) (done : s.heap.unlink fuel clk = .ok h') :
    Altered s clk (h'.linkBelow clk p) := by
  obtain ⟨forest', -, parent, rest⟩ := of_relink forest inside inside' outside done
  refine ⟨forest', fun q other => ?_, fun q => ?_⟩
  · have params := params_of_unlinked rest q
    rw [parent q other] at params
    exact params
  · have running := congrArg Clk.running (rest q)
    have rate := congrArg Clk.rate (rest q)
    exact ⟨running, rate⟩

/-- `jz_clk_setrate` changes the clock and sets the rates. -/
theorem of_setrate {h' : ClkHeap ν} {divide multiply : BitVec 32}
    (forest : Forest s.heap.links (clkNodes s.count)) (inside : clk ∈ clkNodes s.count)
    (done : jzClkSetrate fuel s.heap clk divide multiply = .ok h') :
    let h := s.heap.set clk { s.heap clk with divisor := divide, multiplier := multiply }
    Altered s clk h ∧ RateUpdated (clkNodes s.count) clk h h' := by
  intro h
  have altered : Altered s clk h := altered_set forest rfl rfl rfl rfl rfl
  exact ⟨altered, jzClkRateUpdate_updated altered.forest inside done⟩

/-- `jz_clk_onoff` changes the clock and corrects the flags. -/
theorem of_onoff {h' : ClkHeap ν} {on : Bool} (forest : Forest s.heap.links (clkNodes s.count))
    (inside : clk ∈ clkNodes s.count) (done : jzClkOnoff fuel s.heap clk on = .ok h') :
    let h := s.heap.set clk { s.heap clk with enabled := on }
    Altered s clk h ∧ Updated (clkNodes s.count) (· = clk) h h' := by
  intro h
  have altered : Altered s clk h := altered_set forest rfl rfl rfl rfl rfl
  exact ⟨altered, (jzClkUpdate_updated fuel).1 altered.forest inside done⟩

/-- `jz_clk_reparent` changes the links, corrects the flags and sets the rates. -/
theorem of_reparent {h' : ClkHeap ν} (forest : Forest s.heap.links (clkNodes s.count))
    (inside : clk ∈ clkNodes s.count) (inside' : p ∈ clkNodes s.count)
    (outside : ¬ Below s.heap.links p clk)
    (done : jzClkReparent fuel s.heap clk (some p) = .ok h') :
    ∃ h₁ h₂, (h₁ clk).parent = some p ∧ (∀ q, (h₁ q).unlinked = (s.heap q).unlinked) ∧
      Altered s clk h₁ ∧ Updated (clkNodes s.count) (· = clk) h₁ h₂ ∧
      RateUpdated (clkNodes s.count) clk h₂ h' := by
  unfold jzClkReparent at done
  split at done
  · cases done
  · next h₀ unlinked =>
    dsimp only at done
    split at done
    · cases done
    · next h₂ walked =>
      have altered := altered_relink forest inside inside' outside unlinked
      obtain ⟨-, up, -, rest⟩ := of_relink forest inside inside' outside unlinked
      have updated := (jzClkUpdate_updated fuel).1 altered.forest inside walked
      refine ⟨_, h₂, up, rest, altered, updated, ?_⟩
      exact jzClkRateUpdate_updated (updated.shape.links ▸ altered.forest) inside done

/-- Correcting the flags from the changed clock on makes all of them right. -/
theorem Altered.settle {h' : ClkHeap ν} (altered : Altered s clk h)
    (right : ∀ p ∈ clkNodes s.count, s.heap.Consistent p)
    (updated : Updated (clkNodes s.count) (· = clk) h h') :
    ∀ p ∈ clkNodes s.count, h'.Consistent p := by
  intro p inside
  refine updated.consistent p inside ?_
  rcases eq_or_ne p clk with same | apart
  · exact Or.inr same
  · exact Or.inl (altered.consistent (right p inside) apart)

/-- Every operation leaves all flags right. -/
theorem clkStep_ticking (ticking : s.Ticking) (allowed : op.Allowed s) (nonNull : op.NonNull)
    (done : clkStep fuel s op = .ok t) : t.Ticking := by
  obtain ⟨h, changed, rfl⟩ := StepRun.of_map_eq_ok done
  obtain ⟨forest, right⟩ := ticking
  cases op with
  | reparent clk parent =>
    obtain ⟨p, rfl⟩ := Option.ne_none_iff_exists'.mp nonNull
    obtain ⟨inside', outside⟩ := allowed.2 p rfl
    obtain ⟨h₁, h₂, -, -, altered, updated, rerated⟩ :=
      of_reparent forest allowed.1 inside' outside changed
    refine ⟨?_, fun q inside => rerated.consistent (altered.settle right updated q inside)⟩
    rw [rerated.shape.links, updated.shape.links]
    exact altered.forest
  | setrate clk divide multiply =>
    obtain ⟨altered, rerated⟩ := of_setrate forest allowed changed
    refine ⟨?_, fun q inside => rerated.consistent ?_⟩
    · rw [rerated.shape.links]
      exact altered.forest
    · refine (right q inside).congr (fun y => (altered.same y).1) ?_
      rcases eq_or_ne q clk with rfl | apart
      · rw [set_apply_self]
        exact ⟨rfl, rfl, rfl⟩
      · rw [set_apply_of_ne apart]
        exact ⟨rfl, rfl, rfl⟩
  | onoff clk on =>
    obtain ⟨altered, updated⟩ := of_onoff forest allowed changed
    refine ⟨?_, altered.settle right updated⟩
    rw [updated.shape.links]
    exact altered.forest

/-- The rates above a change are right still, and those below it when it gets there. -/
theorem RateUpdated.ratesRight {h' : ClkHeap ν} (rerated : RateUpdated (clkNodes s.count) clk h h')
    (above : ∀ x ∈ clkNodes s.count, ¬ Below h.links x clk → h.RateRight x)
    (listed : Listed h.links (clkNodes s.count))
    (runs : ∀ y, Below h.links y clk → (∃ c ∈ clkNodes s.count, (h c).parent = some y) →
      h.Runs y) :
    ∀ x ∈ clkNodes s.count, h'.RateRight x := by
  intro x member
  by_cases below : Below h.links x clk
  · obtain ⟨d, k, path⟩ := path_of_below below fun y c lower lower' up =>
      runs y lower ⟨c, listed.above member lower', up⟩
    exact rerated.reached x member d k path
  · exact rerated.kept x member (above x member below)

theorem ratesRight_setrate {h' : ClkHeap ν} {divide multiply : BitVec 32}
    (forest : Forest s.heap.links (clkNodes s.count)) (rates : s.RatesRight)
    (inside : clk ∈ clkNodes s.count) (passes : (ClkOp.setrate clk divide multiply).Passes s)
    (done : jzClkSetrate fuel s.heap clk divide multiply = .ok h') :
    ∀ x ∈ clkNodes s.count, h'.RateRight x := by
  obtain ⟨altered, rerated⟩ := of_setrate forest inside done
  refine rerated.ratesRight (fun x member => altered.rateRight (rates x member))
    altered.forest.toListed ?_
  have parent : ∀ q, (s.heap.set clk { s.heap clk with
      divisor := divide, multiplier := multiply } q).parent = (s.heap q).parent := by
    intro q
    rcases eq_or_ne q clk with rfl | apart
    · rw [set_apply_self]
    · rw [set_apply_of_ne apart]
  rintro y below ⟨c, member, up⟩
  rw [parent] at up
  exact (altered.same y).1.trans
    (passes y (below.congr fun q _ => (parent q).symm) ⟨c, member, up⟩)

theorem ratesRight_onoff {h' : ClkHeap ν} {on : Bool}
    (forest : Forest s.heap.links (clkNodes s.count)) (rates : s.RatesRight)
    (inside : clk ∈ clkNodes s.count) (done : jzClkOnoff fuel s.heap clk on = .ok h') :
    ∀ x ∈ clkNodes s.count, h'.RateRight x := by
  obtain ⟨altered, updated⟩ := of_onoff forest inside done
  intro x member
  refine updated.rateRight ((rates x member).congr (fun y => (altered.same y).2) fun y _ => ?_)
  rcases eq_or_ne y clk with rfl | apart
  · rw [set_apply_self]
    exact ⟨rfl, rfl, rfl⟩
  · rw [set_apply_of_ne apart]
    exact ⟨rfl, rfl, rfl⟩

/-- The clocks a rate has to pass below the new parent run. -/
theorem reparent_runs {h₁ h₂ : ClkHeap ν} (ticking : s.Ticking) (inside' : p ∈ clkNodes s.count)
    (passes : (ClkOp.reparent clk (some p)).Passes s) (up : (h₁ clk).parent = some p)
    (rest : ∀ q, (h₁ q).unlinked = (s.heap q).unlinked) (altered : Altered s clk h₁)
    (updated : Updated (clkNodes s.count) (· = clk) h₁ h₂) {y : ClkPtr}
    (below : Below h₁.links y clk) (fed : ∃ c ∈ clkNodes s.count, (h₁ c).parent = some y) :
    h₂.Runs y := by
  have links := updated.shape.links
  have notBelow := (altered.forest.rooted p inside').not_below_child up
  have parents : ∀ q, q ≠ clk → (s.heap q).parent = (h₁ q).parent :=
    fun q apart => (congrArg ClkParams.parent (altered.others q apart)).symm
  have parent₂ : (h₂ clk).parent = some p := by
    rw [updated.rest clk]
    exact up
  -- a clock with clocks below it had them before, too
  have feeds : ∀ {y c}, Below h₁.links y clk → c ∈ clkNodes s.count →
      (h₁ c).parent = some y → s.Feeds y := by
    intro y c below member upC
    have apart : c ≠ clk := by
      rintro rfl
      cases up.symm.trans upC
      exact notBelow below
    exact ⟨c, member, (parents c apart).trans upC⟩
  obtain ⟨c, member, upC⟩ := fed
  have runs : h₂.Runs p := by
    have before := (passes y (below.congr parents) (feeds below member upC)).2 p rfl
    unfold ClkHeap.Runs
    rw [updated.outside p fun c same => same ▸ notBelow, (altered.same p).1]
    exact before
  have inside : y ∈ clkNodes s.count := altered.forest.closed c member y upC
  refine runs_of_wanted (altered.settle ticking.consistent updated)
    (links ▸ altered.forest.toListed) parent₂ runs (links ▸ below) inside ?_
  rw [links]
  intro z lower lower'
  have feedsZ : s.Feeds z := by
    rcases Relation.ReflTransGen.cases_tail lower with rfl | ⟨c', lower'', upC'⟩
    · exact feeds below member upC
    · exact feeds lower' (altered.forest.toListed.above inside lower'') upC'
  have wanted := (passes z (lower'.congr parents) feedsZ).1
  have enabled := congrArg Clk.enabled (rest z)
  have flags := congrArg Clk.flags (rest z)
  unfold ClkHeap.Wanted
  rw [updated.rest z]
  change (h₁ z).enabled = true ∨ (h₁ z).flags &&& alwaysEnabled ≠ 0#32
  rw [show (h₁ z).enabled = (s.heap z).enabled from enabled,
    show (h₁ z).flags = (s.heap z).flags from flags]
  exact wanted

/-- An operation that passes the clocks below leaves all rates right. -/
theorem clkStep_ratesRight (ticking : s.Ticking) (rates : s.RatesRight) (allowed : op.Allowed s)
    (nonNull : op.NonNull) (passes : op.Passes s) (done : clkStep fuel s op = .ok t) :
    t.RatesRight := by
  obtain ⟨h, changed, rfl⟩ := StepRun.of_map_eq_ok done
  have forest := ticking.forest
  cases op with
  | setrate clk divide multiply =>
    exact ratesRight_setrate (s := s) forest rates allowed passes changed
  | onoff clk on => exact ratesRight_onoff (s := s) forest rates allowed changed
  | reparent clk parent =>
    obtain ⟨p, rfl⟩ := Option.ne_none_iff_exists'.mp nonNull
    obtain ⟨inside', outside⟩ := allowed.2 p rfl
    obtain ⟨h₁, h₂, up, rest, altered, updated, rerated⟩ :=
      of_reparent forest allowed.1 inside' outside changed
    have links := updated.shape.links
    have parent₂ : ∀ q, (h₂ q).parent = (h₁ q).parent := fun q => by rw [updated.rest q]
    refine rerated.ratesRight (fun x member out => updated.rateRight
      (altered.rateRight (rates x member) (links ▸ out))) (links ▸ altered.forest.toListed) ?_
    simp only [links, parent₂]
    exact fun y => reparent_runs ticking inside' passes up rest altered updated

/-- A clock that is a root afterwards has the rate of before. -/
theorem clkStep_root_rate {r : ClkPtr} (ticking : s.Ticking) (allowed : op.Allowed s)
    (nonNull : op.NonNull) (done : clkStep fuel s op = .ok t)
    (root : (t.heap r).parent = none) : (t.heap r).rate = (s.heap r).rate := by
  obtain ⟨h, changed, rfl⟩ := StepRun.of_map_eq_ok done
  have forest := ticking.forest
  change (h r).parent = none at root
  change (h r).rate = _
  cases op with
  | setrate clk divide multiply =>
    obtain ⟨altered, rerated⟩ := of_setrate forest allowed changed
    rw [rerated.roots r ?_]
    · exact (altered.same r).2
    · rw [rerated.rest r] at root
      exact root
  | onoff clk on =>
    obtain ⟨altered, updated⟩ := of_onoff forest allowed changed
    rw [updated.rest r]
    exact (altered.same r).2
  | reparent clk parent =>
    obtain ⟨p, rfl⟩ := Option.ne_none_iff_exists'.mp nonNull
    obtain ⟨inside', outside⟩ := allowed.2 p rfl
    obtain ⟨h₁, h₂, -, -, altered, updated, rerated⟩ :=
      of_reparent forest allowed.1 inside' outside changed
    rw [rerated.roots r ?_, updated.rest r]
    · exact (altered.same r).2
    · rw [rerated.rest r] at root
      exact root

end Step

/-! ## Initialisation -/

section Init

variable {fuel : Nat} {h h' : ClkHeap ν} {nodes : Set ClkPtr}

/-- What the loop that starts the clocks does to those it has reached. -/
structure Started (nodes : Set ClkPtr) (start : ClkPtr → Prop) (h h' : ClkHeap ν) : Prop where
  consistent : ∀ p ∈ nodes, h.Consistent p ∨ start p → h'.Consistent p
  rateRight : ∀ p ∈ nodes, h.RateRight p ∨ start p → h'.RateRight p
  roots : ∀ r, (h r).parent = none → (h' r).rate = (h r).rate

theorem clkStart_started {js : List Nat} (forest : Forest h.links nodes)
    (inside : ∀ j ∈ js, .clks j ∈ nodes) (done : clkStart fuel h js = .ok h') :
    Started nodes (fun p => ∃ j ∈ js, p = .clks j) h h' := by
  induction js generalizing h with
  | nil =>
    rw [clkStart] at done
    cases done
    have none' : ∀ {p : ClkPtr}, ¬ ∃ j ∈ ([] : List Nat), p = .clks j := by
      rintro p ⟨j, mem, -⟩
      exact List.not_mem_nil mem
    exact ⟨fun p _ right => right.resolve_right none', fun p _ right => right.resolve_right none',
      fun _ _ => rfl⟩
  | cons j js ih =>
    rw [clkStart] at done
    split at done
    · cases done
    · next h₁ walked =>
      split at done
      · cases done
      · next h₂ rated =>
        have member := inside j List.mem_cons_self
        have updated := (jzClkUpdate_updated fuel).1 forest member walked
        have forest₁ : Forest h₁.links nodes := updated.shape.links ▸ forest
        have rerated := jzClkRateUpdate_updated forest₁ member rated
        have started := ih (rerated.shape.links ▸ forest₁)
          (fun j' mem => inside j' (List.mem_cons_of_mem j mem)) done
        have parent₁ : ∀ r, (h₁ r).parent = (h r).parent := fun r => by rw [updated.rest r]
        have parent₂ : ∀ r, (h₂ r).parent = (h₁ r).parent := fun r => by rw [rerated.rest r]
        have cases' : ∀ {p : ClkPtr}, (∃ j' ∈ j :: js, p = .clks j') →
            p = .clks j ∨ ∃ j' ∈ js, p = .clks j' := by
          rintro p ⟨j', mem, rfl⟩
          rcases List.mem_cons.mp mem with rfl | mem
          · exact Or.inl rfl
          · exact Or.inr ⟨j', mem, rfl⟩
        refine ⟨fun p inP right => started.consistent p inP ?_,
          fun p inP right => started.rateRight p inP ?_, fun r top => ?_⟩
        · rcases right with right | reached
          · exact Or.inl (rerated.consistent (updated.consistent p inP (Or.inl right)))
          · refine (cases' reached).imp_left fun now => ?_
            exact rerated.consistent (updated.consistent p inP (Or.inr now))
        · rcases right with right | reached
          · exact Or.inl (rerated.kept p inP (updated.rateRight right))
          · refine (cases' reached).imp_left fun now => ?_
            exact rerated.reached p inP 1 1 (now ▸ .here)
        · have top₁ := (parent₁ r).trans top
          rw [started.roots r ((parent₂ r).trans top₁), rerated.roots r top₁, updated.rest r]

/-- `jz_clk_init` leaves all flags and all rates right, and the roots as they are in the
table. -/
theorem jzClkInit_right [DecidableEq ν] {table : List (Clk ν)} {flag : BitVec 32}
    {oscExtal : Nat} {freq : BitVec 32} {s : JzClks ν}
    (good : GoodTable (onchipHeap table oscExtal freq) flag table.length)
    (done : jzClkInit fuel flag table oscExtal freq = .ok s) :
    let h₀ := onchipHeap table oscExtal freq
    s.Ticking ∧ s.RatesRight ∧ ∀ j < s.count, (s.heap (.clks j)).parent = none →
      (s.heap (.clks j)).rate = (h₀ (.onchip (h₀.source flag table.length j))).rate := by
  intro h₀
  obtain ⟨count, linking⟩ := clkCopyAll_linking good le_rfl
  have forest := linking.forest (count ▸ good.sources)
  unfold jzClkInit at done
  set t := clkCopyAll flag ⟨h₀, 0⟩ table.length
  obtain ⟨h, started, rfl⟩ := StepRun.of_map_eq_ok done
  have shape := clkStart_shape started
  have all : ∀ p ∈ clkNodes t.count, ∃ j ∈ List.range t.count, p = .clks j := by
    rintro p ⟨j, hj, rfl⟩
    exact ⟨j, List.mem_range.mpr hj, rfl⟩
  have result := clkStart_started forest (fun j mem => ⟨j, List.mem_range.mp mem, rfl⟩) started
  refine ⟨⟨shape.links ▸ forest, ?_⟩, ?_, fun j hj top => ?_⟩
  · exact fun p inside => result.consistent p inside (Or.inr (all p inside))
  · exact fun p inside => result.rateRight p inside (Or.inr (all p inside))
  · have parent : (h (.clks j)).parent = (t.heap (.clks j)).parent := by
      rw [shape (.clks j)]
    have rate := congrArg Clk.rate (linking.copy j hj)
    rw [if_pos hj] at rate
    exact (result.roots _ (parent.symm.trans top)).trans rate

end Init

/-! ## Every run -/

/-- The states of the runs whose operations meet a guard. -/
inductive ClkRun [DecidableEq ν] (guard : ClkOp → JzClks ν → Prop) (flag : BitVec 32)
    (table : List (Clk ν)) (oscExtal : Nat) (freq : BitVec 32) : JzClks ν → Prop
  | init {s : JzClks ν} (settles : Settles (jzClkInit · flag table oscExtal freq) (.ok s)) :
    ClkRun guard flag table oscExtal freq s
  | step {s t : JzClks ν} {op : ClkOp} (before : ClkRun guard flag table oscExtal freq s)
    (allowed : op.Allowed s) (guarded : guard op s)
    (settles : Settles (clkStep · s op) (.ok t)) : ClkRun guard flag table oscExtal freq t

/-- A clock runs when it and all clocks above it are wanted. -/
def JzClks.RunningFlags (s : JzClks ν) : Prop :=
  ∀ p ∈ clkNodes s.count, s.heap.Runs p ↔ ∀ q, Below s.heap.links p q → s.heap.Wanted q

/-- A running clock has the rate of its root, multiplied and divided on the way, where
the products fit in 32 bits and the rate in the 64 bits of its field. -/
def JzClks.RunningRates (s : JzClks ν) : Prop :=
  ∀ p ∈ clkNodes s.count, s.heap.Runs p → ∃ r d k, (s.heap r).parent = none ∧
    Path s.heap Any p r d k ∧ (d < 2 ^ 32 → k < 2 ^ 32 →
      (s.heap r).rate.toNat * k / d < 2 ^ 64 →
      (s.heap p).rate.toNat = (s.heap r).rate.toNat * k / d)

theorem exists_path {h : ClkHeap ν} {x : ClkPtr} (rooted : Rooted h.links x) :
    ∃ r d k, (h r).parent = none ∧ Path h Any x r d k := by
  induction rooted with
  | @root x top => exact ⟨x, 1, 1, top, .here⟩
  | child up _ ih =>
    obtain ⟨r, d, k, root, path⟩ := ih
    exact ⟨r, _, _, root, path.step up trivial⟩

theorem ClkHeap.RateRight.toNat {h : ClkHeap ν} {x r : ClkPtr} {d k : Nat} (right : h.RateRight x)
    (root : (h r).parent = none) (path : Path h Any x r d k) (divisor : d < 2 ^ 32)
    (multiplier : k < 2 ^ 32) (fits : (h r).rate.toNat * k / d < 2 ^ 64) :
    (h x).rate.toNat = (h r).rate.toNat * k / d := by
  obtain ⟨nonzero, rate⟩ := right r d k root path
  have narrow : ∀ {n : Nat}, n < 2 ^ 32 → (BitVec.ofNat 32 n).toNat = n := fun lt =>
    (BitVec.toNat_ofNat ..).trans (Nat.mod_eq_of_lt lt)
  have pos : 0 < (BitVec.ofNat 32 d).toNat :=
    Nat.pos_of_ne_zero fun zero => nonzero (BitVec.eq_of_toNat_eq zero)
  rw [rate, muldiv64_toNat _ pos, narrow divisor, narrow multiplier, Nat.mod_eq_of_lt fits]

section Runs

variable [DecidableEq ν] {flag : BitVec 32} {table : List (Clk ν)} {oscExtal : Nat}
  {freq : BitVec 32} {guard : ClkOp → JzClks ν → Prop}

theorem ClkRun.ticking {s : JzClks ν}
    (good : GoodTable (onchipHeap table oscExtal freq) flag table.length)
    (nonNull : ∀ op s, guard op s → op.NonNull) (run : ClkRun guard flag table oscExtal freq s) :
    s.Ticking := by
  induction run with
  | init settles =>
    obtain ⟨least, done⟩ := settles
    exact (jzClkInit_right good (done least le_rfl)).1
  | step _ allowed guarded settles ih =>
    obtain ⟨least, done⟩ := settles
    exact clkStep_ticking ih allowed (nonNull _ _ guarded) (done least le_rfl)

theorem ClkRun.ratesRight {s : JzClks ν}
    (good : GoodTable (onchipHeap table oscExtal freq) flag table.length)
    (nonNull : ∀ op s, guard op s → op.NonNull) (passes : ∀ op s, guard op s → op.Passes s)
    (run : ClkRun guard flag table oscExtal freq s) : s.RatesRight := by
  induction run with
  | init settles =>
    obtain ⟨least, done⟩ := settles
    exact (jzClkInit_right good (done least le_rfl)).2.1
  | step before allowed guarded settles ih =>
    obtain ⟨least, done⟩ := settles
    exact clkStep_ratesRight (before.ticking good nonNull) ih allowed (nonNull _ _ guarded)
      (passes _ _ guarded) (done least le_rfl)

/-- In every run the right clocks run, and their rates are right as long as every
change of a divisor or a parent passes the clocks below. -/
theorem running_clocks_right
    (good : GoodTable (onchipHeap table oscExtal freq) flag table.length) :
    (∀ s, ClkRun (fun op _ => op.NonNull) flag table oscExtal freq s → s.RunningFlags) ∧
    ∀ s, ClkRun (fun op s => op.NonNull ∧ op.Passes s) flag table oscExtal freq s →
      s.RunningFlags ∧ s.RunningRates := by
  have flags : ∀ {s : JzClks ν}, s.Ticking → s.RunningFlags := fun ticking =>
    running_iff ticking.forest ticking.consistent
  constructor
  · exact fun s run => flags (run.ticking good fun _ _ nonNull => nonNull)
  · intro s run
    have ticking := run.ticking good fun _ _ both => both.1
    have rates := run.ratesRight good (fun _ _ both => both.1) fun _ _ both => both.2
    refine ⟨flags ticking, fun p inside _ => ?_⟩
    obtain ⟨r, d, k, root, path⟩ := exists_path (ticking.forest.rooted p inside)
    exact ⟨r, d, k, root, path, (rates p inside).toNat root path⟩

end Runs

/-- A root, a clock that can be switched below it, and one more below that. -/
def switchedBetween : List (Clk Nat) :=
  let c : Clk Nat := { Clk.zero with flags := alwaysEnabled ||| clockInJz4740 }
  [{ c with name := some 0 },
   { c with name := some 1, parent := some (.onchip 0), flags := clockInJz4740 },
   { c with name := some 2, parent := some (.onchip 1) }]

theorem switchedBetween_good : GoodTable (onchipHeap switchedBetween 0 12000000) clockInJz4740
    switchedBetween.length := by
  refine goodTable_of_rank id (by decide) (by decide) (by decide) fun i inside p up => ?_
  have place : i = 0 ∨ i = 1 ∨ i = 2 := by
    change i < 3 at inside
    omega
  rcases place with rfl | rfl | rfl
  · cases up
  · cases up
    exact ⟨0, ⟨by decide, by decide⟩, rfl, by decide⟩
  · cases up
    exact ⟨1, ⟨by decide, by decide⟩, rfl, by decide⟩

/-- On this table the running clocks are right, whether the second one is on or off. -/
theorem switchedBetween_running_clocks_right :
    (∀ s, ClkRun (fun op _ => op.NonNull) clockInJz4740 switchedBetween 0 12000000 s →
      s.RunningFlags) ∧
    ∀ s, ClkRun (fun op s => op.NonNull ∧ op.Passes s) clockInJz4740 switchedBetween 0
        12000000 s → s.RunningFlags ∧ s.RunningRates :=
  running_clocks_right switchedBetween_good

/-- The last clock is running with the rate it had before its parent was divided. -/
theorem started_clock_keeps_stale_rate : ∃ s t u,
    Settles (jzClkInit · clockInJz4740 switchedBetween 0 12000000) (.ok s) ∧
    Settles (clkStep · s (.setrate (.clks 1) 2 1)) (.ok t) ∧
    Settles (clkStep · t (.onoff (.clks 1) true)) (.ok u) ∧ ¬ u.RunningRates := by
  obtain ⟨u, done, seen⟩ := StepRun.of_map_eq_ok
    (x := (jzClkInit 20 clockInJz4740 switchedBetween 0 12000000).bind fun s =>
      (clkStep 20 s (.setrate (.clks 1) 2 1)).bind fun t => clkStep 20 t (.onoff (.clks 1) true))
    (f := fun u : JzClks Nat => decide (2 < u.count ∧ (u.heap (.clks 2)).running ∧
      (u.heap (.clks 0)).parent = none ∧ (u.heap (.clks 1)).parent = some (.clks 0) ∧
      (u.heap (.clks 2)).parent = some (.clks 1) ∧
      (u.heap (.clks 1)).divisor.toNat * (u.heap (.clks 2)).divisor.toNat = 2 ∧
      (u.heap (.clks 1)).multiplier.toNat * (u.heap (.clks 2)).multiplier.toNat = 1 ∧
      (u.heap (.clks 0)).rate = 12000000 ∧ (u.heap (.clks 2)).rate = 12000000))
    (c := true) (by decide +kernel)
  obtain ⟨s, started, done⟩ := StepRun.of_bind_eq_ok done
  obtain ⟨t, set, on⟩ := StepRun.of_bind_eq_ok done
  obtain ⟨count, runs, root, up₁, up₂, divisor, multiplier, fast, stale⟩ := of_decide_eq_true seen
  refine ⟨s, t, u, (jzClkInit_steady _ _ _ _).settles started, (clkStep_steady _ _).settles set,
    (clkStep_steady _ _).settles on, fun right => ?_⟩
  obtain ⟨r, d, k, top, path, rate⟩ := right (.clks 2) ⟨2, count, rfl⟩ runs
  have rooted : Rooted u.heap.links (.clks 2) := .child up₂ (.child up₁ (.root root))
  have way : Path u.heap Any (.clks 2) (.clks 0) _ _ := .down up₁ trivial (.down up₂ trivial .here)
  obtain ⟨rfl, rfl, rfl⟩ := path.unique rooted way top root
  rw [Nat.mul_one, Nat.mul_one, divisor, multiplier, fast, stale] at rate
  exact absurd (rate (by decide) (by decide) (by decide)) (by decide)

end VirtualNoah
