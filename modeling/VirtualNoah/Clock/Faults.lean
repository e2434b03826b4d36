import VirtualNoah.Clock.RunningRates
import VirtualNoah.Lib.Outcome

/-!
# When a rate is divided by zero

The walks run out of fuel or divide by zero.  They divide by the product of the
divisors on the way from the root, so they do not when none of these products
vanishes in 32 bits.
-/

namespace VirtualNoah

open SiblingForest Outcome

variable {ν : Type}

/-- The product of the divisors above a clock is not zero in 32 bits. -/
def ClkHeap.Divides (h : ClkHeap ν) (x : ClkPtr) : Prop :=
  ∀ r d k, (h r).parent = none → Path h Any x r d k → BitVec.ofNat 32 d ≠ 0#32

/-- Neither a memory fault of a table nor a division by zero. -/
def Fault.Harmless (e : Fault) : Prop := e ≠ .outOfBounds ∧ e ≠ .divideByZero

section Walks

variable {nodes : Set ClkPtr} {h₀ h h' : ClkHeap ν} {clk p : ClkPtr}

theorem jzClkUpdate_delivers (fuel : Nat) :
    (∀ (h : ClkHeap ν) clk, Delivers (· = .spin) (fun _ => True) (jzClkUpdate fuel h clk)) ∧
    ∀ (h : ClkHeap ν) start,
      Delivers (· = .spin) (fun _ => True) (jzClkUpdateFrom fuel h start) := by
  induction fuel with
  | zero => exact ⟨fun _ _ => rfl, fun _ _ => rfl⟩
  | succ fuel ih =>
    constructor
    · intro h clk
      unfold jzClkUpdate
      split
      · exact ih.2 _ _
      · trivial
    · intro h start
      cases start with
      | none => trivial
      | some i =>
        unfold jzClkUpdateFrom
        have first := ih.1 h i
        split
        · next e stopped => exact first.of_error stopped
        · exact ih.2 _ _

/-- Both walks over the rates, on a heap with the links of a forest. -/
theorem jzClkRateUpdateFull_delivers (forest : Forest h₀.links nodes) (rate : BitVec 64)
    (fuel : Nat) :
    (∀ {h : ClkHeap ν} {clk div mult}, SameShape h₀ h → clk ∈ nodes →
      (∀ x ∈ nodes, ∀ d k, Path h₀ Any x clk d k → (div * BitVec.ofNat 64 d).setWidth 32 ≠ 0#32) →
      Delivers (· = .spin) (SameShape h₀) (jzClkRateUpdateFull fuel h clk rate div mult)) ∧
    ∀ {h : ClkHeap ν} {start cs p div mult}, SameShape h₀ h →
      Walks h₀.links.sibling start cs → (∀ c ∈ cs, c ∈ nodes ∧ h₀.links.parent c = some p) →
      (∀ x ∈ nodes, ∀ d k, Path h₀ Any x p d k → (div * BitVec.ofNat 64 d).setWidth 32 ≠ 0#32) →
      Delivers (· = .spin) (SameShape h₀) (jzClkRateUpdateFullFrom fuel h start rate div mult) := by
  induction fuel with
  | zero => exact ⟨fun _ _ _ => rfl, fun _ _ _ _ => rfl⟩
  | succ fuel ih =>
    constructor
    · intro h clk div mult same inside divides
      have nonzero : div.setWidth 32 ≠ 0#32 := by
        have own := divides clk inside 1 1 .here
        rwa [BitVec.mul_one] at own
      unfold jzClkRateUpdateFull
      rw [if_neg nonzero]
      dsimp only
      have same' : SameShape h₀ (h.set clk
          { h clk with rate := muldiv64 rate (mult.setWidth 32) (div.setWidth 32) }) :=
        same.trans (sameShape_set rfl)
      split
      · obtain ⟨cs, walks, mem⟩ := forest.list clk inside
        refine ih.2 (p := clk) same' ?_ (fun c child => (mem c).mp child) divides
        rw [same' clk]
        exact walks
      · exact same'
    · intro h start cs p div mult same walks children divides
      cases cs with
      | nil =>
        cases walks
        exact same
      | cons c cs =>
        obtain ⟨rfl, walks⟩ := walks
        obtain ⟨member, up⟩ := children c List.mem_cons_self
        have first : Delivers (· = .spin) (SameShape h₀) (jzClkRateUpdateFull fuel h c rate
            (div * (h c).divisor.setWidth 64) (mult * (h c).multiplier.setWidth 64)) := by
          refine ih.1 same member fun x below d k path => ?_
          rw [same c, ← ofNat_mul_toNat]
          exact divides x below _ _ (.down up trivial path)
        unfold jzClkRateUpdateFullFrom
        split
        · next e stopped => exact first.of_error stopped
        · next h₁ walked =>
          have same' := first.of_ok walked
          refine ih.2 same' ?_ (fun c' mem => children c' (List.mem_cons_of_mem c mem)) divides
          rw [same' c]
          exact walks

theorem jzClkPathTotals_delivers (h : ClkHeap ν) (clk : ClkPtr) (div mult : BitVec 64)
    (fuel : Nat) :
    Delivers (· = .spin) (fun _ => True) (jzClkPathTotals fuel h clk div mult) := by
  induction fuel generalizing clk div mult with
  | zero => rfl
  | succ fuel ih =>
    unfold jzClkPathTotals
    split
    · trivial
    · exact ih _ _ _

theorem jzClkRateUpdate_delivers (forest : Forest h.links nodes) (inside : clk ∈ nodes)
    (divides : ∀ x ∈ nodes, h.Divides x) (fuel : Nat) :
    Delivers (· = .spin) (SameShape h) (jzClkRateUpdate fuel h clk) := by
  have totals := jzClkPathTotals_delivers h clk 1 1 fuel
  unfold jzClkRateUpdate
  split
  · next e stopped => exact totals.of_error stopped
  · next r div mult found =>
    obtain ⟨r, d₀, k₀, root, path₀, same⟩ := of_pathTotals found
    simp only [Prod.mk.injEq] at same
    obtain ⟨rfl, rfl, rfl⟩ := same
    refine (jzClkRateUpdateFull_delivers forest _ fuel).1 (SameShape.refl h) inside
      fun x member d k path => ?_
    rw [narrow]
    exact divides x member r _ _ root (path₀.append path)

end Walks

/-! ## Operations -/

section Operations

variable {fuel : Nat} {s : JzClks ν} {op : ClkOp} {h : ClkHeap ν} {clk p : ClkPtr}

theorem spin_harmless (e : Fault) (stopped : e = .spin) : e.Harmless := by
  rw [stopped]
  exact ⟨nofun, nofun⟩

theorem unlinkSlot_delivers (h : ClkHeap ν) (clk : ClkPtr) (slot : Slot ClkPtr) (fuel : Nat) :
    Delivers Fault.Harmless (fun _ => True) (unlinkSlot fuel h clk slot) := by
  induction fuel generalizing slot with
  | zero => exact spin_harmless _ rfl
  | succ fuel ih =>
    unfold unlinkSlot
    split
    · exact ⟨nofun, nofun⟩
    · split
      · trivial
      · exact ih _

theorem unlink_delivers (h : ClkHeap ν) (clk : ClkPtr) (fuel : Nat) :
    Delivers Fault.Harmless (fun _ => True) (h.unlink fuel clk) := by
  unfold ClkHeap.unlink
  split
  · trivial
  · exact (unlinkSlot_delivers h clk _ fuel).map fun _ _ => trivial

/-- A new parent is harmless when no rate below it is divided by zero. -/
theorem jzClkReparent_delivers (forest : Forest s.heap.links (clkNodes s.count))
    (inside : clk ∈ clkNodes s.count) (inside' : p ∈ clkNodes s.count)
    (outside : ¬ Below s.heap.links p clk)
    (divides : ∀ h : ClkHeap ν, h.params = (ClkOp.reparent clk (some p)).params s.heap.params →
      ∀ x ∈ clkNodes s.count, h.Divides x) :
    Delivers Fault.Harmless (fun _ => True) (jzClkReparent fuel s.heap clk (some p)) := by
  have first := unlink_delivers s.heap clk fuel
  unfold jzClkReparent
  split
  · next e stopped => exact first.of_error stopped
  · next h₁ unlinked =>
    have second := (jzClkUpdate_delivers fuel).1 (h₁.linkBelow clk p) clk
    obtain ⟨forest', -⟩ := of_relink forest inside inside' outside unlinked
    dsimp only
    split
    · next e stopped => exact spin_harmless e (second.of_error stopped)
    · next h₂ walked =>
      have same := (jzClkUpdate_shape fuel).1 walked
      refine ((jzClkRateUpdate_delivers (same.links ▸ forest') inside (divides h₂ ?_) fuel).also
        fun _ _ _ => trivial).weaken spin_harmless
      rw [same.params, params_linkBelow, params_unlink unlinked]
      rfl

theorem jzClkSetrate_delivers {divide multiply : BitVec 32}
    (forest : Forest s.heap.links (clkNodes s.count)) (inside : clk ∈ clkNodes s.count)
    (divides : ∀ h : ClkHeap ν,
      h.params = (ClkOp.setrate clk divide multiply).params s.heap.params →
      ∀ x ∈ clkNodes s.count, h.Divides x) :
    Delivers Fault.Harmless (fun _ => True) (jzClkSetrate fuel s.heap clk divide multiply) := by
  have altered : Altered s clk
      (s.heap.set clk { s.heap clk with divisor := divide, multiplier := multiply }) :=
    altered_set forest rfl rfl rfl rfl rfl
  refine ((jzClkRateUpdate_delivers altered.forest inside (divides _ ?_) fuel).also
    fun _ _ _ => trivial).weaken spin_harmless
  rw [params_set]
  rfl

/-- An operation is harmless when it leaves a tree in which no rate is divided by zero. -/
theorem clkStep_delivers (forest : Forest s.heap.links (clkNodes s.count))
    (allowed : op.Allowed s) (nonNull : op.NonNull)
    (divides : ∀ h : ClkHeap ν, h.params = op.params s.heap.params →
      ∀ x ∈ clkNodes s.count, h.Divides x) :
    Delivers Fault.Harmless (fun _ => True) (clkStep fuel s op) := by
  refine Delivers.map (P := fun _ => True) ?_ fun _ _ => trivial
  cases op with
  | reparent clk parent =>
    obtain ⟨p, rfl⟩ := Option.ne_none_iff_exists'.mp nonNull
    obtain ⟨inside', outside⟩ := allowed.2 p rfl
    exact jzClkReparent_delivers forest allowed.1 inside' outside divides
  | setrate clk divide multiply => exact jzClkSetrate_delivers forest allowed divides
  | onoff clk on =>
    exact ((jzClkUpdate_delivers fuel).1 _ clk).weaken spin_harmless

end Operations

end VirtualNoah
