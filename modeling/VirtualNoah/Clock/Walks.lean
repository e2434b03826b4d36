import VirtualNoah.Clock.Clk
import VirtualNoah.Lib.Fuel

/-!
# The walks end

The walks over a clock's dependants change `running` and `rate` and nothing else.
So the links they follow stay the same, and on a forest they end.
-/

namespace VirtualNoah

open SiblingForest Fuel

variable {ν : Type}

/-- The clocks differ in `running` and `rate` at most. -/
def SameShape (h h' : ClkHeap ν) : Prop :=
  ∀ p, h' p = { h p with running := (h' p).running, rate := (h' p).rate }

section Shape

variable {h h' h'' : ClkHeap ν} {p c : ClkPtr}

theorem SameShape.refl (h : ClkHeap ν) : SameShape h h := fun _ => rfl

theorem SameShape.trans (first : SameShape h h') (second : SameShape h' h'') :
    SameShape h h'' := by
  intro p
  rw [second p, first p]

theorem SameShape.links (same : SameShape h h') : h'.links = h.links := by
  simp only [ClkHeap.links, Links.mk.injEq]
  refine ⟨?_, ?_, ?_⟩ <;>
  · funext p
    rw [same p]

@[simp] theorem set_apply_self (x : Clk ν) : h.set p x p = x := Function.update_self ..

@[simp] theorem set_apply_of_ne (apart : c ≠ p) (x : Clk ν) : h.set p x c = h c :=
  Function.update_of_ne apart ..

theorem sameShape_set {x : Clk ν}
    (same : x = { h p with running := x.running, rate := x.rate }) : SameShape h (h.set p x) := by
  intro q
  rcases eq_or_ne q p with rfl | apart
  · rw [set_apply_self]
    exact same
  · rw [set_apply_of_ne apart]

end Shape

section Walks

variable {h : ClkHeap ν} {l : Links ClkPtr} {start : Option ClkPtr} {clk : ClkPtr}

/-- A clock whose dependants can be walked over can be updated itself. -/
theorem jzClkUpdate_ends (links : h.links = l)
    (down : ∀ h : ClkHeap ν, h.links = l →
      Ends Fault.divideByZero (jzClkUpdateFrom · h (l.child1 clk)) (SameShape h)) :
    Ends Fault.divideByZero (jzClkUpdate · h clk) (SameShape h) := by
  by_cases changed : (h clk).running ≠ h.ticks clk
  · have same : SameShape h (h.set clk { h clk with running := h.ticks clk }) :=
      sameShape_set rfl
    have links' := same.links.trans links
    refine ((down _ links').mono fun _ => same.trans).step fun fuel => ?_
    rw [jzClkUpdate, if_pos changed, ← links']
    rfl
  · refine (Ends.of_settles (.const (Except.ok h)) (SameShape.refl h)).step fun fuel => ?_
    rw [jzClkUpdate, if_neg changed]

theorem jzClkUpdateFrom_ends (spans : Spans l start) (h : ClkHeap ν) (links : h.links = l) :
    Ends Fault.divideByZero (jzClkUpdateFrom · h start) (SameShape h) := by
  induction spans generalizing h with
  | nil =>
    exact (Ends.of_settles (.const (Except.ok h)) (SameShape.refl h)).step fun fuel => rfl
  | @node c down along first next =>
    have update : Ends Fault.divideByZero (jzClkUpdate · h c) (SameShape h) :=
      jzClkUpdate_ends links first
    refine Ends.step (update.bind (k := fun h' fuel => jzClkUpdateFrom fuel h' (h' c).sibling)
      (fun h' same => ?_) ?_ ?_) (fun fuel => rfl)
    · have links' := same.links.trans links
      refine ((next h' links').mono fun _ => same.trans).congr fun fuel => ?_
      rw [← links']
      rfl
    · intro fuel e stopped
      rw [jzClkUpdateFrom, stopped]
    · intro fuel h' done
      rw [jzClkUpdateFrom, done]

variable {rate div mult : BitVec 64}

theorem jzClkRateUpdateFull_ends (links : h.links = l)
    (down : ∀ h : ClkHeap ν, h.links = l → ∀ div mult,
      Ends Fault.divideByZero (jzClkRateUpdateFullFrom · h (l.child1 clk) rate div mult)
        (SameShape h)) :
    Ends Fault.divideByZero (jzClkRateUpdateFull · h clk rate div mult) (SameShape h) := by
  by_cases zero : div.setWidth 32 = 0#32
  · refine (Ends.of_trap (.const (Except.error Fault.divideByZero))).step fun fuel => ?_
    rw [jzClkRateUpdateFull, if_pos zero]
  · let h' : ClkHeap ν := h.set clk
      { h clk with rate := muldiv64 rate (mult.setWidth 32) (div.setWidth 32) }
    have same : SameShape h h' := sameShape_set rfl
    have links' := same.links.trans links
    by_cases running : (h' clk).running = true
    · refine ((down _ links' div mult).mono fun _ => same.trans).step fun fuel => ?_
      rw [jzClkRateUpdateFull, if_neg zero, ← links']
      exact if_pos running
    · refine (Ends.of_settles (.const (Except.ok h')) same).step fun fuel => ?_
      rw [jzClkRateUpdateFull, if_neg zero]
      exact if_neg running

theorem jzClkRateUpdateFullFrom_ends (spans : Spans l start) (h : ClkHeap ν)
    (links : h.links = l) (div mult : BitVec 64) :
    Ends Fault.divideByZero (jzClkRateUpdateFullFrom · h start rate div mult) (SameShape h) := by
  induction spans generalizing h div mult with
  | nil => exact (Ends.of_settles (.const (Except.ok h)) (SameShape.refl h)).step fun fuel => rfl
  | @node c down along first next =>
    have update : Ends Fault.divideByZero (jzClkRateUpdateFull · h c rate
        (div * (h c).divisor.setWidth 64) (mult * (h c).multiplier.setWidth 64)) (SameShape h) :=
      jzClkRateUpdateFull_ends links first
    refine Ends.step (update.bind
      (k := fun h' fuel => jzClkRateUpdateFullFrom fuel h' (h' c).sibling rate div mult)
      (fun h' same => ?_) ?_ ?_) (fun fuel => rfl)
    · have links' := same.links.trans links
      refine ((next h' links' div mult).mono fun _ => same.trans).congr fun fuel => ?_
      rw [← links']
      rfl
    · intro fuel e stopped
      rw [jzClkRateUpdateFullFrom, stopped]
    · intro fuel h' done
      rw [jzClkRateUpdateFullFrom, done]

theorem jzClkPathTotals_settles (rooted : Rooted h.links clk) (div mult : BitVec 64) :
    ∃ totals, Settles (jzClkPathTotals · h clk div mult) (.ok totals) := by
  induction rooted generalizing div mult with
  | @root c top =>
    refine ⟨(c, div, mult), (Settles.const _).step fun fuel => ?_⟩
    rw [jzClkPathTotals, show (h c).parent = none from top]
  | @child c p up _ ih =>
    obtain ⟨totals, settles⟩ := ih (div * (h c).divisor.setWidth 64)
      (mult * (h c).multiplier.setWidth 64)
    refine ⟨totals, settles.step fun fuel => ?_⟩
    rw [jzClkPathTotals, show (h c).parent = some p from up]

theorem jzClkRateUpdate_ends (rooted : Rooted h.links clk)
    (spans : Spans h.links (h.links.child1 clk)) :
    Ends Fault.divideByZero (jzClkRateUpdate · h clk) (SameShape h) := by
  obtain ⟨⟨root, div, mult⟩, settles⟩ := jzClkPathTotals_settles rooted 1 1
  have totals : Ends Fault.divideByZero (jzClkPathTotals · h clk 1 1)
    (fun t => t = (root, div, mult)) := .of_settles settles rfl
  refine totals.bind (k := fun t fuel => jzClkRateUpdateFull fuel h clk (h t.1).rate t.2.1 t.2.2)
    (fun t _ => ?_) ?_ ?_
  · exact jzClkRateUpdateFull_ends rfl fun h' links' =>
      jzClkRateUpdateFullFrom_ends spans h' links'
  · intro fuel e stopped
    simp only [jzClkRateUpdate, stopped]
  · intro fuel t done
    simp only [jzClkRateUpdate, done]

/-- The loop finds the slot that points to the clock. -/
theorem unlinkSlot_settles {s : Slot ClkPtr} {pre post : List ClkPtr}
    (walks : Walks h.links.sibling (h.links.get s) (pre ++ clk :: post)) :
    Settles (unlinkSlot · h clk s) (.ok (s.after pre)) := by
  induction pre generalizing s with
  | nil =>
    refine (Settles.const _).step fun fuel => ?_
    simp only [unlinkSlot, walks.1, if_true]
    rfl
  | cons c pre ih =>
    have apart : c ≠ clk := fun same => (List.nodup_cons.mp walks.nodup).1
      (same ▸ List.mem_append_right pre List.mem_cons_self)
    refine (ih (s := .sibling c) walks.2).step fun fuel => ?_
    simp only [unlinkSlot, walks.1, if_neg apart]

theorem of_unlinkSlot {s slot : Slot ClkPtr} {pre post : List ClkPtr} {fuel : Nat}
    (walks : Walks h.links.sibling (h.links.get s) (pre ++ clk :: post))
    (found : unlinkSlot fuel h clk s = .ok slot) : s.after pre = slot := by
  induction fuel generalizing s pre with
  | zero => cases found
  | succ fuel ih =>
    cases pre with
    | nil =>
      simp only [unlinkSlot, walks.1, if_true] at found
      exact Except.ok.inj found
    | cons c pre =>
      have apart : c ≠ clk := fun same => (List.nodup_cons.mp walks.nodup).1
        (same ▸ List.mem_append_right pre List.mem_cons_self)
      simp only [unlinkSlot, walks.1, if_neg apart] at found
      exact ih (s := .sibling c) walks.2 found

end Walks

end VirtualNoah
