import Mathlib.Data.List.GetD
import Mathlib.Data.List.TakeWhile
import Mathlib.Tactic.Common

/-!
# Strings in fields

A string ends at the first `zero` of its field, or with the field.  `copied` is a field
of `n + 1` places after `strncpy` of at most `n` of them, `last` being what the last
place held before.

* `readString_copied`: what is read from such a field.
* `readString_copied_eq_iff`: when that is the string that was copied.
-/

namespace CString

variable {α : Type} {zero last : α} {src rest field : List α} {n m : Nat}

def copied (zero : α) (src : List α) (n : Nat) (last : α) : List α :=
  src.take n ++ List.replicate (n - src.length) zero ++ [last]

/-- What is cut off behind the field does not matter. -/
theorem copied_take (within : n ≤ m) :
    copied zero (src.take m) n last = copied zero src n last := by
  have padding : n - (src.take m).length = n - src.length := by
    rw [List.length_take]
    omega
  unfold copied
  rw [List.take_take, Nat.min_eq_left within, padding]

/-- A field place by place. -/
theorem map_range_eq_copied {place : Nat → α} (inside : ∀ i < n, place i = src.getD i zero)
    (ends : place n = last) : (List.range (n + 1)).map place = copied zero src n last := by
  rw [List.range_succ, List.map_append, List.map_singleton, ends]
  refine congrArg (· ++ [last]) (List.ext_getElem ?_ fun i before after => ?_)
  · rw [List.length_map, List.length_range, List.length_append, List.length_take,
      List.length_replicate]
    omega
  · rw [List.length_map, List.length_range] at before
    rw [List.getElem_map, List.getElem_range, inside i before, List.getElem_append]
    split
    · next part =>
      rw [List.getElem_take]
      exact List.getD_eq_getElem ..
    · next past =>
      rw [List.length_take] at past
      rw [List.getElem_replicate]
      exact List.getD_eq_default _ _ (by omega)

variable [DecidableEq α]

def readString (zero : α) (field : List α) : List α := field.takeWhile fun a => decide (a ≠ zero)

theorem not_mem_readString : zero ∉ readString zero field := by
  intro member
  have kept := List.mem_takeWhile_imp member
  exact of_decide_eq_true kept rfl

theorem readString_of_not_mem (clean : zero ∉ src) : readString zero src = src := by
  refine List.takeWhile_eq_self_iff.mpr fun a member => decide_eq_true ?_
  exact ne_of_mem_of_not_mem member clean

theorem readString_append_zero (clean : zero ∉ src) :
    readString zero (src ++ zero :: rest) = src := by
  have all : ∀ a ∈ src, decide (a ≠ zero) = true :=
    fun a member => decide_eq_true (ne_of_mem_of_not_mem member clean)
  unfold readString
  rw [List.takeWhile_append_of_pos all, List.takeWhile_cons_of_neg (by simp), List.append_nil]

/-- Longer strings lose their end, and the last place is read as a part of them. -/
theorem readString_copied (clean : zero ∉ src) (nonzero : last ≠ zero) :
    readString zero (copied zero src n last) =
      if src.length < n then src else src.take n ++ [last] := by
  unfold copied
  split
  · next short =>
    obtain ⟨k, zeros⟩ := Nat.exists_eq_succ_of_ne_zero (Nat.sub_ne_zero_of_lt short)
    rw [List.take_of_length_le short.le, zeros, List.replicate_succ, List.append_assoc,
      List.cons_append]
    exact readString_append_zero clean
  · next long =>
    rw [Nat.sub_eq_zero_of_le (Nat.not_lt.mp long), List.replicate_zero, List.append_nil]
    refine readString_of_not_mem fun member => ?_
    rcases List.mem_append.mp member with before | is
    · exact clean (List.mem_of_mem_take before)
    · exact nonzero (List.mem_singleton.mp is).symm

/-- A string that a field of `n + 1` places, the last of them holding `last`, is read as. -/
def Fits (zero : α) (n : Nat) (last : α) (src : List α) : Prop :=
  zero ∉ src ∧ (src.length < n ∨ src.drop n = [last])

instance : Decidable (Fits zero n last src) := inferInstanceAs (Decidable (_ ∧ _))

theorem readString_copied_eq_iff (nonzero : last ≠ zero) :
    readString zero (copied zero src n last) = src ↔ Fits zero n last src := by
  by_cases clean : zero ∈ src
  · refine iff_of_false (fun same => ?_) fun fits => fits.1 clean
    exact not_mem_readString (same.symm ▸ clean)
  · rw [readString_copied clean nonzero, Fits, and_iff_right clean]
    split
    · next short => exact iff_of_true rfl (Or.inl short)
    · next long =>
      rw [or_iff_right long]
      constructor
      · intro same
        have split := same.trans (List.take_append_drop n src).symm
        exact (List.append_cancel_left split).symm
      · intro ends
        rw [← ends, List.take_append_drop]

end CString
