import Mathlib.Tactic.Common

/-!
# How a computation may end

`Delivers may P x` says that `x` delivers something that satisfies `P`, or stops
with an error that satisfies `may`.  The rules follow the computation: what comes
first delivers what the rest starts from.
-/

namespace Outcome

variable {ε α β : Type} {may : ε → Prop} {P : α → Prop} {Q : β → Prop} {x : Except ε α}

def Delivers (may : ε → Prop) (P : α → Prop) : Except ε α → Prop
  | .ok a => P a
  | .error e => may e

theorem Delivers.bind {f : α → Except ε β} (first : Delivers may P x)
    (rest : ∀ a, P a → Delivers may Q (f a)) : Delivers may Q (x >>= f) := by
  cases x with
  | error e => exact first
  | ok a => exact rest a first

theorem Delivers.map {f : α → β} (first : Delivers may P x) (rest : ∀ a, P a → Q (f a)) :
    Delivers may Q (x.map f) := by
  cases x with
  | error e => exact first
  | ok a => exact rest a first

/-- What a result satisfies for another reason. -/
theorem Delivers.also {R : α → Prop} (delivers : Delivers may P x)
    (also : ∀ a, x = .ok a → P a → R a) : Delivers may R x := by
  cases x with
  | error e => exact delivers
  | ok a => exact also a rfl delivers

/-- A weaker demand on the errors. -/
theorem Delivers.weaken {may' : ε → Prop} (delivers : Delivers may P x)
    (weaker : ∀ e, may e → may' e) : Delivers may' P x := by
  cases x with
  | error e => exact weaker e delivers
  | ok a => exact delivers

theorem Delivers.of_ok {a : α} (delivers : Delivers may P x) (done : x = .ok a) : P a := by
  subst done
  exact delivers

theorem Delivers.of_error {e : ε} (delivers : Delivers may P x) (stopped : x = .error e) :
    may e := by
  subst stopped
  exact delivers

/-- The first error stops the computation. -/
theorem bind_error {f : α → Except ε β} {e : ε} (stopped : x = .error e) :
    x >>= f = .error e := by
  rw [stopped]
  rfl

theorem bind_ok {f : α → Except ε β} {a : α} (done : x = .ok a) : x >>= f = f a := by
  rw [done]
  rfl

/-- A computation for each of a list, none of which stops. -/
theorem mapM_ok {f : α → Except ε β} {g : α → β} {as : List α}
    (done : ∀ a ∈ as, f a = .ok (g a)) : as.mapM f = .ok (as.map g) := by
  induction as with
  | nil => rfl
  | cons a as ih =>
    have rest := ih fun b mem => done b (List.mem_cons_of_mem a mem)
    rw [List.mapM_cons, bind_ok (done a List.mem_cons_self), bind_ok rest]
    rfl

end Outcome
