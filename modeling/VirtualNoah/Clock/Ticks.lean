import VirtualNoah.Clock.Params

/-!
# Which clocks run

`jz_clk_update` corrects the flag of one clock and, when it has changed, those of
the clocks below.  Flags that were right stay right, so when every flag is right
before an operation but that of the clock it works on, every flag is right after
it: a clock runs when it and all clocks above it are enabled.
-/

namespace VirtualNoah

open SiblingForest

variable {ν : Type}

/-- The flag is what `jz_clk_update` would make it. -/
def ClkHeap.Consistent (h : ClkHeap ν) (p : ClkPtr) : Prop := (h p).running = h.ticks p

/-- The clock is enabled, whether its input ticks or not. -/
def ClkHeap.Wanted (h : ClkHeap ν) (p : ClkPtr) : Prop :=
  (h p).enabled = true ∨ (h p).flags &&& alwaysEnabled ≠ 0#32

section Ticks

variable {h h' : ClkHeap ν} {p q clk : ClkPtr}

theorem ticks_root (top : (h p).parent = none) : h.ticks p = true ↔ h.Wanted p := by
  simp only [ClkHeap.ticks, top, Bool.true_and, Bool.or_eq_true, decide_eq_true_eq,
    ClkHeap.Wanted]

theorem ticks_child (up : (h p).parent = some q) :
    h.ticks p = true ↔ (h q).running = true ∧ h.Wanted p := by
  simp only [ClkHeap.ticks, up, Bool.and_eq_true, Bool.or_eq_true, decide_eq_true_eq,
    ClkHeap.Wanted]

theorem ticks_congr (parent : (h' p).parent = (h p).parent)
    (enabled : (h' p).enabled = (h p).enabled) (flags : (h' p).flags = (h p).flags)
    (above : ∀ q, (h p).parent = some q → (h' q).running = (h q).running) :
    h'.ticks p = h.ticks p := by
  cases up : (h p).parent with
  | none => simp only [ClkHeap.ticks, parent, up, enabled, flags]
  | some q => simp only [ClkHeap.ticks, parent, up, enabled, flags, above q up]

/-- What a walk that corrects the clocks in `start` does. -/
structure Updated (nodes : Set ClkPtr) (start : ClkPtr → Prop) (h h' : ClkHeap ν) : Prop where
  rest : ∀ p, h' p = { h p with running := (h' p).running }
  consistent : ∀ p ∈ nodes, h.Consistent p ∨ start p → h'.Consistent p
  outside : ∀ p, (∀ c, start c → ¬ Below h.links p c) → h' p = h p

theorem Updated.shape {nodes : Set ClkPtr} {start : ClkPtr → Prop}
    (updated : Updated nodes start h h') : SameShape h h' := by
  intro p
  rw [updated.rest p]

/-- A new flag is wrong for the clocks right below it only. -/
theorem consistent_set (right : h.Consistent p ∨ p = clk) (apart : (h p).parent ≠ some clk) :
    (h.set clk { h clk with running := h.ticks clk }).Consistent p := by
  have same : SameShape h (h.set clk { h clk with running := h.ticks clk }) := sameShape_set rfl
  have ticks : (h.set clk { h clk with running := h.ticks clk }).ticks p = h.ticks p := by
    refine ticks_congr ?_ ?_ ?_ fun q up => ?_
    · rw [same p]
    · rw [same p]
    · rw [same p]
    · have other : q ≠ clk := fun same => apart (up.trans (congrArg some same))
      rw [set_apply_of_ne other]
  unfold ClkHeap.Consistent
  rw [ticks]
  rcases eq_or_ne p clk with rfl | other
  · rw [set_apply_self]
  · rw [set_apply_of_ne other]
    exact right.resolve_right other

/-- A new flag, and a walk over the clocks right below. -/
theorem Updated.down {nodes : Set ClkPtr} {cs : List ClkPtr}
    (mem : ∀ c, c ∈ cs ↔ c ∈ nodes ∧ h.links.parent c = some clk)
    (below : Updated nodes (· ∈ cs) (h.set clk { h clk with running := h.ticks clk }) h') :
    Updated nodes (· = clk) h h' := by
  have same : SameShape h (h.set clk { h clk with running := h.ticks clk }) := sameShape_set rfl
  refine ⟨fun p => ?_, fun p member right => ?_, fun p apart => ?_⟩
  · rw [below.rest p]
    rcases eq_or_ne p clk with rfl | other
    · rw [set_apply_self]
    · rw [set_apply_of_ne other]
  · refine below.consistent p member ?_
    by_cases child : (h p).parent = some clk
    · exact Or.inr ((mem p).mpr ⟨member, child⟩)
    · exact Or.inl (consistent_set right child)
  · rw [below.outside p fun c child lower => apart clk rfl ?_, set_apply_of_ne]
    · rintro rfl
      exact apart p rfl .refl
    · rw [same.links] at lower
      exact Relation.ReflTransGen.tail lower ((mem c).mp child).2

/-- A walk over a clock, and one over the rest of the list. -/
theorem Updated.cons {nodes : Set ClkPtr} {h₁ : ClkHeap ν} {c : ClkPtr} {cs : List ClkPtr}
    (head : Updated nodes (· = c) h h₁) (tail : Updated nodes (· ∈ cs) h₁ h') :
    Updated nodes (· ∈ c :: cs) h h' := by
  refine ⟨fun q => ?_, fun q member right => ?_, fun q apart => ?_⟩
  · rw [tail.rest q, head.rest q]
  · refine tail.consistent q member ?_
    rcases right with right | mem
    · exact Or.inl (head.consistent q member (Or.inl right))
    · rcases List.mem_cons.mp mem with rfl | mem
      · exact Or.inl (head.consistent q member (Or.inr rfl))
      · exact Or.inr mem
  · rw [tail.outside q fun c' mem => ?_, head.outside q fun c' same => ?_]
    · exact same ▸ apart c List.mem_cons_self
    · rw [head.shape.links]
      exact apart c' (List.mem_cons_of_mem c mem)

/-- The walks over the clock and over the list of clocks, by the fuel they share. -/
theorem jzClkUpdate_updated {nodes : Set ClkPtr} (fuel : Nat) :
    (∀ {h h' : ClkHeap ν} {clk}, Forest h.links nodes → clk ∈ nodes →
      jzClkUpdate fuel h clk = .ok h' → Updated nodes (· = clk) h h') ∧
    ∀ {h h' : ClkHeap ν} {start cs p}, Forest h.links nodes →
      Walks h.links.sibling start cs → (∀ c ∈ cs, c ∈ nodes ∧ h.links.parent c = some p) →
      jzClkUpdateFrom fuel h start = .ok h' → Updated nodes (· ∈ cs) h h' := by
  induction fuel with
  | zero => exact ⟨nofun, nofun⟩
  | succ fuel ih =>
    constructor
    · intro h h' clk forest inside done
      unfold jzClkUpdate at done
      split at done
      · next changed =>
        obtain ⟨cs, walks, mem⟩ := forest.list clk inside
        have same : SameShape h (h.set clk { h clk with running := h.ticks clk }) :=
          sameShape_set rfl
        rw [← same.links] at forest walks
        refine .down mem (ih.2 (p := clk) forest walks (fun c child => ?_) done)
        rw [same.links]
        exact (mem c).mp child
      · next unchanged =>
        cases done
        refine ⟨fun _ => rfl, fun p _ right => ?_, fun _ _ => rfl⟩
        rcases right with right | rfl
        · exact right
        · exact not_not.mp unchanged
    · intro h h' start cs p forest walks children done
      cases cs with
      | nil =>
        cases walks
        cases done
        exact ⟨fun _ => rfl, fun _ _ right => right.resolve_right (List.not_mem_nil),
          fun _ _ => rfl⟩
      | cons c cs =>
        obtain ⟨rfl, walks⟩ := walks
        unfold jzClkUpdateFrom at done
        split at done
        · cases done
        · next h₁ first =>
          have head := ih.1 forest (children c List.mem_cons_self).1 first
          have links := head.shape.links
          refine head.cons (ih.2 (p := p) (links ▸ forest) ?_ (fun c' mem => ?_) done)
          · rw [links]
            change Walks _ (h₁.links.sibling c) cs
            rw [links]
            exact walks
          · rw [links]
            exact children c' (List.mem_cons_of_mem c mem)

end Ticks

/-- When all flags are right, a clock runs when all from it to its root are wanted. -/
theorem running_iff {h : ClkHeap ν} {nodes : Set ClkPtr} (forest : Forest h.links nodes)
    (right : ∀ p ∈ nodes, h.Consistent p) :
    ∀ p ∈ nodes, (h p).running = true ↔ ∀ q, Below h.links p q → h.Wanted q := by
  intro p inside
  induction forest.rooted p inside with
  | @root p top =>
    rw [right p inside, ticks_root top]
    constructor
    · intro wanted q above
      exact above.eq_of_root top ▸ wanted
    · exact fun all => all p .refl
  | @child p q up _ ih =>
    rw [right p inside, ticks_child up, ih (forest.closed p inside q up)]
    constructor
    · rintro ⟨above, wanted⟩ r below
      rcases below.cases_parent with rfl | ⟨q', up', rest⟩
      · exact wanted
      · cases up.symm.trans up'
        exact above r rest
    · exact fun all => ⟨fun r above => all r (above.up up), all p .refl⟩

end VirtualNoah
