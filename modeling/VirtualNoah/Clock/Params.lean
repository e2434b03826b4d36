import VirtualNoah.Clock.Runs
import VirtualNoah.Lib.StepRun

/-!
# What the operations do to the parameters

The parameters of a clock are what it is asked to do: its name, its parent, its
divisor.  A walk leaves them alone, so an operation that returns has changed the
parameters of one clock.
-/

namespace VirtualNoah

open SiblingForest

variable {ν : Type}

structure ClkParams (ν : Type) where
  name : Option ν
  aliasName : Option ν
  parent : Option ClkPtr
  flags : BitVec 32
  enabled : Bool
  divisor : BitVec 32
  multiplier : BitVec 32

def Clk.params (c : Clk ν) : ClkParams ν :=
  ⟨c.name, c.aliasName, c.parent, c.flags, c.enabled, c.divisor, c.multiplier⟩

def ClkHeap.params (h : ClkHeap ν) (p : ClkPtr) : ClkParams ν := (h p).params

section Walks

/-- Both walks over the dependants, by the fuel they share. -/
theorem jzClkUpdate_shape (fuel : Nat) :
    (∀ {h h' : ClkHeap ν} {clk}, jzClkUpdate fuel h clk = .ok h' → SameShape h h') ∧
    ∀ {h h' : ClkHeap ν} {start}, jzClkUpdateFrom fuel h start = .ok h' → SameShape h h' := by
  induction fuel with
  | zero => exact ⟨nofun, nofun⟩
  | succ fuel ih =>
    constructor
    · intro h h' clk done
      unfold jzClkUpdate at done
      split at done
      · exact (sameShape_set rfl).trans (ih.2 done)
      · cases done
        exact SameShape.refl h
    · intro h h' start done
      cases start with
      | none =>
        cases done
        exact SameShape.refl h
      | some i =>
        unfold jzClkUpdateFrom at done
        split at done
        · cases done
        · next h₁ first => exact (ih.1 first).trans (ih.2 done)

theorem jzClkRateUpdateFull_shape (fuel : Nat) :
    (∀ {h h' : ClkHeap ν} {clk rate div mult},
      jzClkRateUpdateFull fuel h clk rate div mult = .ok h' → SameShape h h') ∧
    ∀ {h h' : ClkHeap ν} {start rate div mult},
      jzClkRateUpdateFullFrom fuel h start rate div mult = .ok h' → SameShape h h' := by
  induction fuel with
  | zero => exact ⟨nofun, nofun⟩
  | succ fuel ih =>
    constructor
    · intro h h' clk rate div mult done
      unfold jzClkRateUpdateFull at done
      split at done
      · cases done
      · dsimp only at done
        split at done
        · exact (sameShape_set rfl).trans (ih.2 done)
        · cases done
          exact sameShape_set rfl
    · intro h h' start rate div mult done
      cases start with
      | none =>
        cases done
        exact SameShape.refl h
      | some i =>
        unfold jzClkRateUpdateFullFrom at done
        split at done
        · cases done
        · next h₁ first => exact (ih.1 first).trans (ih.2 done)

theorem jzClkRateUpdate_shape {fuel : Nat} {h h' : ClkHeap ν} {clk : ClkPtr}
    (done : jzClkRateUpdate fuel h clk = .ok h') : SameShape h h' := by
  unfold jzClkRateUpdate at done
  split at done
  · cases done
  · exact (jzClkRateUpdateFull_shape fuel).1 done

end Walks

section Operations

variable {fuel : Nat} {h h' : ClkHeap ν} {clk p : ClkPtr}

theorem SameShape.params (same : SameShape h h') : h'.params = h.params := by
  funext p
  rw [ClkHeap.params, same p]
  rfl

theorem params_set (h : ClkHeap ν) (p : ClkPtr) (c : Clk ν) :
    (h.set p c).params = Function.update h.params p c.params := by
  funext q
  rcases eq_or_ne q p with rfl | apart
  · rw [ClkHeap.params, set_apply_self, Function.update_self]
  · rw [ClkHeap.params, set_apply_of_ne apart, Function.update_of_ne apart, ClkHeap.params]

theorem params_put (h : ClkHeap ν) (s : Slot ClkPtr) (v : Option ClkPtr) :
    (h.put s v).params = h.params := by
  cases s <;>
  · rw [ClkHeap.put, params_set]
    exact Function.update_eq_self ..

theorem params_unlink (done : h.unlink fuel clk = .ok h') : h'.params = h.params := by
  unfold ClkHeap.unlink at done
  split at done
  · cases done
    rfl
  · cases found : unlinkSlot fuel h clk (.child1 _) with
    | error e =>
      rw [found] at done
      cases done
    | ok slot =>
      rw [found] at done
      cases done
      exact params_put ..

/-- Links change the parent and no other parameter. -/
theorem params_of_unlinked (rest : ∀ q, (h' q).unlinked = (h q).unlinked) (q : ClkPtr) :
    h'.params q = { h.params q with parent := (h' q).parent } := by
  have whole : h'.params q = { (h' q).unlinked.params with parent := (h' q).parent } := rfl
  rw [whole, rest q]
  rfl

theorem params_linkBelow (h : ClkHeap ν) (clk p : ClkPtr) : (h.linkBelow clk p).params =
    Function.update h.params clk { h.params clk with parent := some p } := by
  have parents := congrFun (congrArg Links.parent (links_linkBelow h clk p))
  funext q
  rw [params_of_unlinked (linkBelow_unlinked h clk p) q]
  rcases eq_or_ne q clk with rfl | apart
  · rw [Function.update_self, show (h.linkBelow q p q).parent = some p from
      (parents q).trans (Function.update_self ..)]
  · rw [Function.update_of_ne apart, show (h.linkBelow clk p q).parent = (h q).parent from
      (parents q).trans (Function.update_of_ne apart ..)]
    rfl

theorem params_makeRoot (h : ClkHeap ν) (clk : ClkPtr) : (h.makeRoot clk).params =
    Function.update h.params clk { h.params clk with parent := none } := by
  rw [ClkHeap.makeRoot, params_set, params_set, set_apply_self, Function.update_idem]
  rfl

theorem jzClkSetrate_params {divide multiply : BitVec 32}
    (done : jzClkSetrate fuel h clk divide multiply = .ok h') : h'.params = Function.update
      h.params clk { h.params clk with divisor := divide, multiplier := multiply } := by
  rw [(jzClkRateUpdate_shape done).params, params_set]
  rfl

theorem jzClkOnoff_params {on : Bool} (done : jzClkOnoff fuel h clk on = .ok h') :
    h'.params = Function.update h.params clk { h.params clk with enabled := on } := by
  rw [((jzClkUpdate_shape fuel).1 done).params, params_set]
  rfl

theorem jzClkReparent_params {parent : Option ClkPtr}
    (done : jzClkReparent fuel h clk parent = .ok h') :
    h'.params = Function.update h.params clk { h.params clk with parent := parent } := by
  unfold jzClkReparent at done
  split at done
  · cases done
  · next h₁ unlinked =>
    have same := params_unlink unlinked
    cases parent with
    | none =>
      cases done
      rw [params_makeRoot, same]
    | some p =>
      dsimp only at done
      split at done
      · cases done
      · next h₂ updated =>
        rw [(jzClkRateUpdate_shape done).params, ((jzClkUpdate_shape fuel).1 updated).params,
          params_linkBelow, same]

end Operations

/-- What an operation does to the parameters. -/
def ClkOp.params (op : ClkOp) (f : ClkPtr → ClkParams ν) : ClkPtr → ClkParams ν :=
  match op with
  | .reparent clk parent => Function.update f clk { f clk with parent := parent }
  | .setrate clk divide multiply =>
    Function.update f clk { f clk with divisor := divide, multiplier := multiply }
  | .onoff clk on => Function.update f clk { f clk with enabled := on }

section Kept

variable {f : ClkPtr → ClkParams ν} {clk : ClkPtr}

/-- The names and the flags stay. -/
theorem ClkOp.params_kept (op : ClkOp) (p : ClkPtr) : (op.params f p).name = (f p).name ∧
    (op.params f p).aliasName = (f p).aliasName ∧ (op.params f p).flags = (f p).flags := by
  cases op with
  | _ clk =>
    rcases eq_or_ne p clk with rfl | apart
    · simp only [ClkOp.params, Function.update_self, and_self]
    · simp only [ClkOp.params, Function.update_of_ne apart, and_self]

theorem ClkOp.setrate_parent {divide multiply : BitVec 32} (p : ClkPtr) :
    ((ClkOp.setrate clk divide multiply).params f p).parent = (f p).parent := by
  rcases eq_or_ne p clk with rfl | apart
  · simp only [ClkOp.params, Function.update_self]
  · simp only [ClkOp.params, Function.update_of_ne apart]

theorem ClkOp.reparent_ratio (f : ClkPtr → ClkParams ν) (clk : ClkPtr) (parent : Option ClkPtr)
    (p : ClkPtr) :
    ((ClkOp.reparent clk parent).params f p).divisor = (f p).divisor ∧
      ((ClkOp.reparent clk parent).params f p).multiplier = (f p).multiplier := by
  rcases eq_or_ne p clk with rfl | apart
  · simp only [ClkOp.params, Function.update_self, and_self]
  · simp only [ClkOp.params, Function.update_of_ne apart, and_self]

end Kept

theorem clkStep_params {fuel : Nat} {s t : JzClks ν} {op : ClkOp}
    (done : clkStep fuel s op = .ok t) :
    t.count = s.count ∧ t.heap.params = op.params s.heap.params := by
  obtain ⟨h, changed, rfl⟩ := StepRun.of_map_eq_ok done
  refine ⟨rfl, ?_⟩
  cases op with
  | reparent clk parent => exact jzClkReparent_params changed
  | setrate clk divide multiply => exact jzClkSetrate_params changed
  | onoff clk on => exact jzClkOnoff_params changed

theorem foldlM_params {fuel : Nat} {s t : JzClks ν} {ops : List ClkOp}
    (done : ops.foldlM (clkStep fuel) s = .ok t) :
    t.heap.params = ops.foldl (fun f op => op.params f) s.heap.params := by
  induction ops generalizing s with
  | nil =>
    cases done
    rfl
  | cons op ops ih =>
    rw [List.foldlM_cons] at done
    obtain ⟨m, head, tail⟩ := StepRun.of_bind_eq_ok done
    rw [List.foldl_cons, ih tail, (clkStep_params head).2]

/-! ## Initialisation -/

section Init

variable {h h' : ClkHeap ν}

theorem clkStart_shape {fuel : Nat} {js : List Nat} (done : clkStart fuel h js = .ok h') :
    SameShape h h' := by
  induction js generalizing h with
  | nil =>
    rw [clkStart] at done
    cases done
    exact SameShape.refl _
  | cons j js ih =>
    rw [clkStart] at done
    split at done
    · cases done
    · next h₁ updated =>
      split at done
      · cases done
      · next h₂ rated =>
        exact ((jzClkUpdate_shape fuel).1 updated).trans
          ((jzClkRateUpdate_shape rated).trans (ih done))

/-- The clocks of the SoC, in the order of the table. -/
theorem jzClkInit_params [DecidableEq ν] {fuel : Nat} {table : List (Clk ν)} {flag : BitVec 32}
    {oscExtal : Nat} {freq : BitVec 32} {s : JzClks ν}
    (good : GoodTable (onchipHeap table oscExtal freq) flag table.length)
    (done : jzClkInit fuel flag table oscExtal freq = .ok s) :
    let h₀ := onchipHeap table oscExtal freq
    let src := h₀.source flag table.length
    s.count = (h₀.entries flag table.length).length ∧
    ∀ j < s.count,
      (h₀ (.onchip (src j))).parent = none ∧
        s.heap.params (.clks j) = { (h₀ (.onchip (src j))).defaults.params with parent := none } ∨
      ∃ k < s.count, (h₀ (.onchip (src j))).parent = some (.onchip (src k)) ∧
        s.heap.params (.clks j) =
          { (h₀ (.onchip (src j))).defaults.params with parent := some (.clks k) } := by
  intro h₀ src
  obtain ⟨count, linking⟩ := clkCopyAll_linking good le_rfl
  have sources := good.sources
  rw [← count] at sources
  unfold jzClkInit at done
  set t := clkCopyAll flag ⟨h₀, 0⟩ table.length
  obtain ⟨h, started, rfl⟩ := StepRun.of_map_eq_ok done
  refine ⟨count, fun j hj => ?_⟩
  have params : h.params (.clks j) =
      { (h₀ (.onchip (src j))).defaults.params with parent := (t.heap (.clks j)).parent } := by
    have whole : t.heap.params (.clks j) =
      { (t.heap (.clks j)).unlinked.params with parent := (t.heap (.clks j)).parent } := rfl
    rw [(clkStart_shape started).params, whole, linking.copy j hj, if_pos hj]
    rfl
  rcases linking.parents sources hj with ⟨top, now⟩ | ⟨k, hk, up, now⟩
  · exact Or.inl ⟨top, now ▸ params⟩
  · exact Or.inr ⟨k, hk, up, now ▸ params⟩

end Init

end VirtualNoah
