import VirtualNoah.Clock.Runs

/-!
# More fuel changes nothing

What the walks and the pointer loops deliver they deliver with more fuel too, so
a result on some fuel is the result.
-/

namespace VirtualNoah

open SiblingForest Fuel

variable {ν : Type}

theorem jzClkUpdate_steady :
    (∀ (h : ClkHeap ν) (clk), Steady (jzClkUpdate · h clk)) ∧
    ∀ (h : ClkHeap ν) (start), Steady (jzClkUpdateFrom · h start) := by
  have both : ∀ n, (∀ (h h' : ClkHeap ν) (clk), jzClkUpdate n h clk = .ok h' →
      jzClkUpdate (n + 1) h clk = .ok h') ∧
      ∀ (h h' : ClkHeap ν) (start), jzClkUpdateFrom n h start = .ok h' →
        jzClkUpdateFrom (n + 1) h start = .ok h' := by
    intro n
    induction n with
    | zero => exact ⟨nofun, nofun⟩
    | succ n ih =>
      constructor
      · intro h h' clk done
        rw [jzClkUpdate] at done ⊢
        split at done
        · next changed =>
          rw [if_pos changed]
          exact ih.2 _ _ _ done
        · next same =>
          rw [if_neg same]
          exact done
      · intro h h' start done
        cases start with
        | none => exact done
        | some i =>
          rw [jzClkUpdateFrom] at done ⊢
          split at done
          · cases done
          · next h₁ first =>
            simp only [ih.1 _ _ _ first]
            exact ih.2 _ _ _ done
  exact ⟨fun h clk _ _ done => (both _).1 h _ clk done, fun h start _ _ done =>
    (both _).2 h _ start done⟩

theorem jzClkRateUpdateFull_steady (rate : BitVec 64) :
    (∀ (h : ClkHeap ν) (clk div mult), Steady (jzClkRateUpdateFull · h clk rate div mult)) ∧
    ∀ (h : ClkHeap ν) (start div mult),
      Steady (jzClkRateUpdateFullFrom · h start rate div mult) := by
  have both : ∀ n, (∀ (h h' : ClkHeap ν) (clk div mult),
      jzClkRateUpdateFull n h clk rate div mult = .ok h' →
      jzClkRateUpdateFull (n + 1) h clk rate div mult = .ok h') ∧
      ∀ (h h' : ClkHeap ν) (start div mult),
        jzClkRateUpdateFullFrom n h start rate div mult = .ok h' →
        jzClkRateUpdateFullFrom (n + 1) h start rate div mult = .ok h' := by
    intro n
    induction n with
    | zero => exact ⟨nofun, nofun⟩
    | succ n ih =>
      constructor
      · intro h h' clk div mult done
        rw [jzClkRateUpdateFull] at done ⊢
        split at done
        · cases done
        · next nonzero =>
          rw [if_neg nonzero]
          dsimp only at done ⊢
          split at done
          · next runs =>
            rw [if_pos runs]
            exact ih.2 _ _ _ _ _ done
          · next stands =>
            rw [if_neg stands]
            exact done
      · intro h h' start div mult done
        cases start with
        | none => exact done
        | some i =>
          rw [jzClkRateUpdateFullFrom] at done ⊢
          split at done
          · cases done
          · next h₁ first =>
            simp only [ih.1 _ _ _ _ _ first]
            exact ih.2 _ _ _ _ _ done
  exact ⟨fun h clk div mult _ _ done => (both _).1 h _ clk div mult done,
    fun h start div mult _ _ done => (both _).2 h _ start div mult done⟩

theorem jzClkPathTotals_steady (h : ClkHeap ν) (clk : ClkPtr) (div mult : BitVec 64) :
    Steady (jzClkPathTotals · h clk div mult) := by
  intro n totals done
  induction n generalizing clk div mult with
  | zero => cases done
  | succ n ih =>
    dsimp only at done ⊢
    rw [jzClkPathTotals] at done ⊢
    cases up : (h clk).parent with
    | none =>
      rw [up] at done
      exact done
    | some p =>
      rw [up] at done
      exact ih _ _ _ done

theorem jzClkRateUpdate_steady (h : ClkHeap ν) (clk : ClkPtr) :
    Steady (jzClkRateUpdate · h clk) := by
  refine ((jzClkPathTotals_steady h clk 1 1).bind (k := fun t n =>
    jzClkRateUpdateFull n h clk (h t.1).rate t.2.1 t.2.2) fun t =>
    (jzClkRateUpdateFull_steady _).1 h clk _ _).congr fun n => ?_
  cases totals : jzClkPathTotals n h clk 1 1 <;> simp only [jzClkRateUpdate, totals] <;> rfl

theorem unlinkSlot_steady (h : ClkHeap ν) (clk : ClkPtr) (slot : Slot ClkPtr) :
    Steady (unlinkSlot · h clk slot) := by
  intro n found done
  induction n generalizing slot with
  | zero => cases done
  | succ n ih =>
    dsimp only at done ⊢
    rw [unlinkSlot] at done ⊢
    split at done
    · cases done
    · next c _ =>
      split at done
      · next same =>
        simp only [if_pos same]
        exact done
      · next other =>
        simp only [if_neg other]
        exact ih _ done

theorem unlink_steady (h : ClkHeap ν) (clk : ClkPtr) : Steady (h.unlink · clk) := by
  cases up : (h clk).parent with
  | none =>
    refine (Steady.const (.ok h)).congr fun n => ?_
    rw [ClkHeap.unlink, up]
  | some p =>
    refine ((unlinkSlot_steady h clk (.child1 p)).map (g := fun slot =>
      h.put slot (h clk).sibling)).congr fun n => ?_
    rw [ClkHeap.unlink, up]

theorem jzClkReparent_steady (h : ClkHeap ν) (clk : ClkPtr) (parent : Option ClkPtr) :
    Steady (jzClkReparent · h clk parent) := by
  cases parent with
  | none =>
    refine ((unlink_steady h clk).map (g := fun h => h.makeRoot clk)).congr fun n => ?_
    cases unlinked : h.unlink n clk <;> simp only [jzClkReparent, unlinked] <;> rfl
  | some p =>
    refine ((unlink_steady h clk).bind (k := fun h n => (jzClkUpdate n (h.linkBelow clk p) clk).bind
      (jzClkRateUpdate n · clk)) fun h => (jzClkUpdate_steady.1 _ clk).bind
      fun h => jzClkRateUpdate_steady h clk).congr fun n => ?_
    cases unlinked : h.unlink n clk with
    | error e => simp only [jzClkReparent, unlinked, Except.bind]
    | ok h =>
      cases walk : jzClkUpdate n (h.linkBelow clk p) clk <;>
        simp only [jzClkReparent, unlinked, walk, Except.bind]

theorem clkStep_steady (s : JzClks ν) (op : ClkOp) : Steady (clkStep · s op) := by
  cases op with
  | reparent clk parent => exact (jzClkReparent_steady s.heap clk parent).map
  | setrate clk divide multiply => exact (jzClkRateUpdate_steady _ clk).map
  | onoff clk on => exact (jzClkUpdate_steady.1 _ clk).map

theorem clkStart_steady (h : ClkHeap ν) (js : List Nat) : Steady (clkStart · h js) := by
  induction js generalizing h with
  | nil => exact (Steady.const (.ok h)).congr fun n => by rw [clkStart]
  | cons j js ih =>
    refine ((jzClkUpdate_steady.1 h (.clks j)).bind (k := fun h n =>
      (jzClkRateUpdate n h (.clks j)).bind (clkStart n · js)) fun h =>
      (jzClkRateUpdate_steady h (.clks j)).bind ih).congr fun n => ?_
    cases update : jzClkUpdate n h (.clks j) with
    | error e => simp only [clkStart, update, Except.bind]
    | ok h =>
      cases rated : jzClkRateUpdate n h (.clks j) <;>
        simp only [clkStart, update, rated, Except.bind]

theorem jzClkInit_steady [DecidableEq ν] (flag : BitVec 32) (table : List (Clk ν)) (oscExtal : Nat)
    (freq : BitVec 32) : Steady (jzClkInit · flag table oscExtal freq) :=
  (clkStart_steady _ _).map

end VirtualNoah
