import Mathlib.Tactic.Common

/-!
# Computations on fuel

A loop or a recursion that is not structural takes a bound on its steps, its
fuel, and stops with an error when it runs out.  `Settles f r` says that `f` does
not run out: from some fuel on its result is `r`.  `Ends trap f P` leaves open
whether it stops with the error `trap` or delivers something that satisfies `P`.
`Steady f` says that more fuel does not change what `f` delivers.
-/

namespace Fuel

variable {ε α β : Type}

/-- With enough fuel the result is `r`. -/
def Settles (f : Nat → α) (r : α) : Prop := ∃ least, ∀ fuel, least ≤ fuel → f fuel = r

/-- With enough fuel the computation traps, or delivers what satisfies `P`. -/
def Ends (trap : ε) (f : Nat → Except ε α) (P : α → Prop) : Prop :=
  ∃ r, Settles f r ∧ (r = .error trap ∨ ∃ a, r = .ok a ∧ P a)

section Rules

variable {f g : Nat → α} {r r' : α}

theorem Settles.const (a : α) : Settles (fun _ => a) a := ⟨0, fun _ _ => rfl⟩

theorem Settles.unique (first : Settles f r) (second : Settles f r') : r = r' := by
  obtain ⟨n, first⟩ := first
  obtain ⟨m, second⟩ := second
  rw [← first (max n m) (Nat.le_max_left n m), second (max n m) (Nat.le_max_right n m)]

/-- One unit of fuel is spent before the rest. -/
theorem Settles.step (rest : Settles g r) (unfold : ∀ fuel, f (fuel + 1) = g fuel) :
    Settles f r := by
  obtain ⟨least, rest⟩ := rest
  refine ⟨least + 1, fun fuel enough => ?_⟩
  cases fuel with
  | zero => omega
  | succ fuel =>
    rw [unfold]
    exact rest fuel (by omega)

theorem Settles.congr (rest : Settles g r) (same : ∀ fuel, f fuel = g fuel) : Settles f r := by
  obtain ⟨least, rest⟩ := rest
  exact ⟨least, fun fuel enough => (same fuel).trans (rest fuel enough)⟩

end Rules

section Ends

variable {trap : ε} {f g : Nat → Except ε α} {P Q : α → Prop} {a : α}

theorem Ends.of_settles (settles : Settles f (.ok a)) (holds : P a) : Ends trap f P :=
  ⟨.ok a, settles, Or.inr ⟨a, rfl, holds⟩⟩

theorem Ends.of_trap (settles : Settles f (.error trap)) : Ends trap f P :=
  ⟨.error trap, settles, Or.inl rfl⟩

theorem Ends.step (rest : Ends trap g P) (unfold : ∀ fuel, f (fuel + 1) = g fuel) :
    Ends trap f P := by
  obtain ⟨r, settles, outcome⟩ := rest
  exact ⟨r, settles.step unfold, outcome⟩

theorem Ends.congr (rest : Ends trap g P) (same : ∀ fuel, f fuel = g fuel) : Ends trap f P := by
  obtain ⟨r, settles, outcome⟩ := rest
  exact ⟨r, settles.congr same, outcome⟩

theorem Ends.mono (ends : Ends trap f P) (weaker : ∀ a, P a → Q a) : Ends trap f Q := by
  obtain ⟨r, settles, outcome⟩ := ends
  exact ⟨r, settles, outcome.imp_right fun ⟨a, same, holds⟩ => ⟨a, same, weaker a holds⟩⟩

/-- A computation goes on with the result of another one. -/
theorem Ends.bind {k : α → Nat → Except ε β} {h : Nat → Except ε β} {R : β → Prop}
    (first : Ends trap f P) (second : ∀ a, P a → Ends trap (k a) R)
    (stop : ∀ fuel e, f fuel = .error e → h fuel = .error e)
    (go : ∀ fuel a, f fuel = .ok a → h fuel = k a fuel) : Ends trap h R := by
  obtain ⟨r, ⟨least, settles⟩, rfl | ⟨a, rfl, holds⟩⟩ := first
  · exact .of_trap ⟨least, fun fuel enough => stop fuel trap (settles fuel enough)⟩
  · obtain ⟨r', ⟨least', settles'⟩, outcome⟩ := second a holds
    refine ⟨r', ⟨max least least', fun fuel enough => ?_⟩, outcome⟩
    rw [go fuel a (settles fuel (by omega))]
    exact settles' fuel (by omega)

/-- What a computation that ends delivers, when it delivers something. -/
theorem Ends.of_settles_ok (ends : Ends trap f P) (settles : Settles f (.ok a)) : P a := by
  obtain ⟨r, settles', rfl | ⟨a', rfl, holds⟩⟩ := ends
  · cases settles.unique settles'
  · cases settles.unique settles'
    exact holds

end Ends

/-- More fuel does not change a result. -/
def Steady (f : Nat → Except ε α) : Prop := ∀ n a, f n = .ok a → f (n + 1) = .ok a

section Steady

variable {f : Nat → Except ε α} {n : Nat} {a : α}

theorem Steady.settles (steady : Steady f) (done : f n = .ok a) : Settles f (.ok a) := by
  refine ⟨n, fun fuel enough => ?_⟩
  induction enough with
  | refl => exact done
  | step _ ih => exact steady _ a ih

theorem Steady.const (r : Except ε α) : Steady fun _ => r := fun _ _ done => done

theorem Steady.bind {k : α → Nat → Except ε β} (first : Steady f) (second : ∀ a, Steady (k a)) :
    Steady fun n => (f n).bind (k · n) := by
  intro n b done
  dsimp only at done ⊢
  cases result : f n with
  | error e =>
    rw [result] at done
    cases done
  | ok a =>
    rw [result] at done
    rw [first n a result]
    exact second a n b done

theorem Steady.map {g : α → β} (steady : Steady f) : Steady fun n => (f n).map g := by
  intro n b done
  dsimp only at done ⊢
  cases result : f n with
  | error e =>
    rw [result] at done
    cases done
  | ok a =>
    rw [result] at done
    rw [steady n a result]
    exact done

theorem Steady.congr {g : Nat → Except ε α} (steady : Steady f) (same : ∀ n, g n = f n) :
    Steady g := by
  intro n a done
  rw [same] at done ⊢
  exact steady n a done

end Steady

end Fuel
