import VirtualNoah.Clock.Walks

/-!
# The operations keep the forest

A clock is taken out of its parent's list and put in front of another one; the
walks that follow find the links of a forest and end.
-/

namespace VirtualNoah

open SiblingForest Fuel

variable {ν : Type}

/-- The first `count` clocks of the array. -/
def clkNodes (count : Nat) : Set ClkPtr := { p | ∃ j < count, p = .clks j }

theorem clkNodes_finite (count : Nat) : (clkNodes count).Finite := by
  have image : clkNodes count = ClkPtr.clks '' { j | j < count } := by
    ext p
    simp only [clkNodes, Set.mem_ofPred_eq, Set.mem_image, eq_comm]
  rw [image]
  exact (Set.finite_lt_nat count).image _

section Links

variable {h : ClkHeap ν} {clk p : ClkPtr} {s : Slot ClkPtr} {v : Option ClkPtr}

theorem links_set (h : ClkHeap ν) (p : ClkPtr) (c : Clk ν) : (h.set p c).links =
    ⟨Function.update h.links.parent p c.parent, Function.update h.links.child1 p c.child1,
      Function.update h.links.sibling p c.sibling⟩ := by
  simp only [ClkHeap.links, Links.mk.injEq]
  refine ⟨?_, ?_, ?_⟩ <;>
  · funext q
    rcases eq_or_ne q p with rfl | apart
    · rw [set_apply_self, Function.update_self]
    · rw [set_apply_of_ne apart, Function.update_of_ne apart]

theorem links_put (h : ClkHeap ν) (s : Slot ClkPtr) (v : Option ClkPtr) :
    (h.put s v).links = h.links.put s v := by
  cases s with
  | child1 p =>
    rw [ClkHeap.put, links_set]
    simp only [Links.put, ClkHeap.links, Function.update_eq_self_iff, Links.mk.injEq, and_self]
  | sibling c =>
    rw [ClkHeap.put, links_set]
    simp only [Links.put, ClkHeap.links, Function.update_eq_self_iff, Links.mk.injEq, and_self]

theorem links_linkBelow (h : ClkHeap ν) (clk p : ClkPtr) :
    (h.linkBelow clk p).links = h.links.attach clk p := by
  simp only [ClkHeap.links, Links.attach, Links.mk.injEq]
  refine ⟨?_, ?_, ?_⟩ <;>
  · funext q
    rcases eq_or_ne q p with rfl | below
    · rcases eq_or_ne q clk with rfl | apart
      · simp [ClkHeap.linkBelow]
      · simp [ClkHeap.linkBelow, apart]
    · rcases eq_or_ne q clk with rfl | apart
      · simp [ClkHeap.linkBelow, below, below.symm]
      · simp [ClkHeap.linkBelow, below, apart]

theorem links_makeRoot (h : ClkHeap ν) (clk : ClkPtr) : (h.makeRoot clk).links =
    { h.links.without clk with
      sibling := Function.update (h.links.without clk).sibling clk none } := by
  rw [ClkHeap.makeRoot, links_set, links_set]
  simp only [set_apply_self, Links.without, Function.update_idem, ClkHeap.links, Links.mk.injEq,
    Function.update_eq_self_iff, true_and]

end Links

/-- A clock but for its links. -/
def Clk.unlinked (c : Clk ν) : Clk ν := { c with parent := none, child1 := none, sibling := none }

section Unlinked

variable {h : ClkHeap ν} {p : ClkPtr}

theorem set_unlinked {x : Clk ν} (same : x.unlinked = (h p).unlinked) (q : ClkPtr) :
    (h.set p x q).unlinked = (h q).unlinked := by
  rcases eq_or_ne q p with rfl | apart
  · rw [set_apply_self, same]
  · rw [set_apply_of_ne apart]

theorem put_unlinked (h : ClkHeap ν) (s : Slot ClkPtr) (v : Option ClkPtr) (q : ClkPtr) :
    (h.put s v q).unlinked = (h q).unlinked := by
  cases s <;>
  · refine set_unlinked ?_ q
    rfl

theorem linkBelow_unlinked (h : ClkHeap ν) (clk p q : ClkPtr) :
    (h.linkBelow clk p q).unlinked = (h q).unlinked := by
  refine (set_unlinked ?_ q).trans ((set_unlinked ?_ q).trans (set_unlinked ?_ q)) <;> rfl

end Unlinked

section Operations

variable {h : ClkHeap ν} {nodes : Set ClkPtr} {clk p : ClkPtr}

/-- Taken out through its slot, the clock is a root of a forest. -/
theorem put_forest {pre post : List ClkPtr} (forest : Forest h.links nodes)
    (up : (h clk).parent = some p)
    (walks : Walks h.links.sibling (h.links.child1 p) (pre ++ clk :: post))
    (mem : ∀ x, x ∈ pre ++ clk :: post ↔ x ∈ nodes ∧ h.links.parent x = some p) :
    let h' := h.put ((Slot.child1 p).after pre) (h clk).sibling
    Forest (h'.links.without clk) nodes ∧
      ∀ q, ¬ Below h.links q clk → ¬ Below (h'.links.without clk) q clk := by
  let slot := (Slot.child1 p).after pre
  have same : (h.put slot (h clk).sibling).links.without clk = h.links.detach clk slot := by
    rw [links_put]
    exact without_put
  intro h'
  rw [show h'.links.without clk = h.links.detach clk slot from same]
  exact ⟨forest.detach up walks mem, fun q outside => not_below_detach outside⟩

/-- Once its slot has been found, the clock is a root of a forest. -/
theorem unlink_settles (forest : Forest h.links nodes) (member : clk ∈ nodes) :
    ∃ h', Settles (h.unlink · clk) (.ok h') ∧ Forest (h'.links.without clk) nodes ∧
      ∀ q, ¬ Below h.links q clk → ¬ Below (h'.links.without clk) q clk := by
  cases up : (h clk).parent with
  | none =>
    refine ⟨h, (Settles.const _).congr fun fuel => ?_, ?_, ?_⟩
    · rw [ClkHeap.unlink, up]
    · rw [without_of_root up]
      exact forest
    · rw [without_of_root up]
      exact fun q outside => outside
  | some p =>
    obtain ⟨pre, post, walks, mem⟩ := forest.toListed.split member (p := p) up
    refine ⟨h.put ((Slot.child1 p).after pre) (h clk).sibling, ?_,
      put_forest forest up walks mem⟩
    obtain ⟨least, found⟩ := unlinkSlot_settles (h := h) (s := .child1 p) walks
    refine ⟨least, fun fuel enough => ?_⟩
    simp only [ClkHeap.unlink, up, found fuel enough]
    rfl

/-- Whenever the clock has been taken out, it is a root of a forest. -/
theorem of_unlink {fuel : Nat} {h' : ClkHeap ν} (forest : Forest h.links nodes)
    (member : clk ∈ nodes) (done : h.unlink fuel clk = .ok h') :
    Forest (h'.links.without clk) nodes ∧
      (∀ q, ¬ Below h.links q clk → ¬ Below (h'.links.without clk) q clk) ∧
      ∀ q, (h' q).unlinked = (h q).unlinked ∧ (h' q).parent = (h q).parent := by
  cases up : (h clk).parent with
  | none =>
    rw [ClkHeap.unlink, up] at done
    cases done
    rw [without_of_root up]
    exact ⟨forest, fun q outside => outside, fun q => ⟨rfl, rfl⟩⟩
  | some p =>
    obtain ⟨pre, post, walks, mem⟩ := forest.toListed.split member (p := p) up
    simp only [ClkHeap.unlink, up] at done
    cases found : unlinkSlot fuel h clk (.child1 p) with
    | error e =>
      rw [found] at done
      cases done
    | ok slot =>
      rw [found] at done
      cases done
      cases of_unlinkSlot (s := .child1 p) walks found
      obtain ⟨forest', outside⟩ := put_forest forest up walks mem
      refine ⟨forest', outside, fun q => ⟨put_unlinked h _ _ q, ?_⟩⟩
      have parent := congrArg Links.parent (links_put h ((Slot.child1 p).after pre)
        (h clk).sibling)
      rw [put_parent] at parent
      exact congrFun parent q

/-- What a walk over the dependants of a clock of a forest needs. -/
theorem jzClkUpdate_forest (forest : Forest h.links nodes) (finite : nodes.Finite)
    (member : clk ∈ nodes) : Ends Fault.divideByZero (jzClkUpdate · h clk) (SameShape h) :=
  jzClkUpdate_ends rfl fun h' links =>
    jzClkUpdateFrom_ends (forest.spans finite clk member) h' links

theorem jzClkRateUpdate_forest (forest : Forest h.links nodes) (finite : nodes.Finite)
    (member : clk ∈ nodes) : Ends Fault.divideByZero (jzClkRateUpdate · h clk) (SameShape h) :=
  jzClkRateUpdate_ends (forest.rooted clk member) (forest.spans finite clk member)

/-- The two walks, one after the other. -/
theorem jzClk_walks_forest (forest : Forest h.links nodes) (finite : nodes.Finite)
    (member : clk ∈ nodes) :
    Ends Fault.divideByZero (fun fuel => match jzClkUpdate fuel h clk with
      | .error e => .error e
      | .ok h' => jzClkRateUpdate fuel h' clk) (SameShape h) := by
  refine (jzClkUpdate_forest forest finite member).bind
    (k := fun h' fuel => jzClkRateUpdate fuel h' clk) (fun h' same => ?_) ?_ ?_
  · have forest' : Forest h'.links nodes := same.links ▸ forest
    exact (jzClkRateUpdate_forest forest' finite member).mono fun _ => same.trans
  · intro fuel e stopped
    simp only [stopped]
  · intro fuel h' done
    simp only [done]

theorem jzClkReparent_ends (forest : Forest h.links nodes) (finite : nodes.Finite)
    (member : clk ∈ nodes) {parent : Option ClkPtr}
    (below : ∀ p, parent = some p → p ∈ nodes ∧ ¬ Below h.links p clk) :
    Ends Fault.divideByZero (jzClkReparent · h clk parent) fun h' => Forest h'.links nodes := by
  obtain ⟨h', settles, root, outside⟩ := unlink_settles forest member
  have unlinked : Ends Fault.divideByZero (h.unlink · clk) (· = h') := .of_settles settles rfl
  have top : (h'.links.without clk).parent clk = none := Function.update_self ..
  cases parent with
  | none =>
    refine unlinked.bind (k := fun h' _ => .ok (h'.makeRoot clk)) ?_ ?_ ?_
    · intro h'' same
      refine .of_settles (.const _) ?_
      rw [links_makeRoot, same]
      exact root.set_sibling top
    · intro fuel e stopped
      simp only [jzClkReparent, stopped]
    · intro fuel h'' done
      simp only [jzClkReparent, done]
  | some p =>
    obtain ⟨inside, apart⟩ := below p rfl
    refine unlinked.bind (k := fun h' fuel => match jzClkUpdate fuel (h'.linkBelow clk p) clk with
      | .error e => .error e
      | .ok h'' => jzClkRateUpdate fuel h'' clk) ?_ ?_ ?_
    · intro h'' same
      have forest' : Forest (h''.linkBelow clk p).links nodes := by
        rw [same, links_linkBelow, ← without_attach]
        exact root.attach top member inside (outside p apart)
      refine (jzClk_walks_forest forest' finite member).mono fun h''' same' => ?_
      rw [same'.links]
      exact forest'
    · intro fuel e stopped
      simp only [jzClkReparent, stopped]
    · intro fuel h'' done
      cases walk : jzClkUpdate fuel (h''.linkBelow clk p) clk <;>
        simp only [jzClkReparent, done, walk]

theorem jzClkOnoff_ends (forest : Forest h.links nodes) (finite : nodes.Finite)
    (member : clk ∈ nodes) (on : Bool) :
    Ends Fault.divideByZero (jzClkOnoff · h clk on) fun h' => Forest h'.links nodes := by
  have links : (h.set clk { h clk with enabled := on }).links = h.links := by
    rw [links_set]
    simp only [ClkHeap.links, Function.update_eq_self_iff.mpr]
  have forest' : Forest (h.set clk { h clk with enabled := on }).links nodes := links ▸ forest
  exact (jzClkUpdate_forest forest' finite member).mono fun h' same => same.links ▸ forest'

theorem jzClkSetrate_ends (forest : Forest h.links nodes) (finite : nodes.Finite)
    (member : clk ∈ nodes) (divide multiply : BitVec 32) :
    Ends Fault.divideByZero (jzClkSetrate · h clk divide multiply)
      fun h' => Forest h'.links nodes := by
  have links : (h.set clk { h clk with divisor := divide, multiplier := multiply }).links =
      h.links := by
    rw [links_set]
    simp only [ClkHeap.links, Function.update_eq_self_iff.mpr]
  have forest' : Forest (h.set clk
      { h clk with divisor := divide, multiplier := multiply }).links nodes := links ▸ forest
  exact (jzClkRateUpdate_forest forest' finite member).mono fun h' same => same.links ▸ forest'

end Operations

end VirtualNoah
