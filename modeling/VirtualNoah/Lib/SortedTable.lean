import Mathlib.Data.List.Pairwise
import Mathlib.Data.List.Sort

/-!
# Sorted tables

`qsort` and `bsearch` over a comparison function as C has it, one that returns an
`int`.  A table without two equal elements is sorted in one way only, and there
`bsearch` finds an element if and only if it is in the table.
-/

namespace SortedTable

/-- A comparison function that `qsort` may be called with. -/
structure Comparator (α : Type*) where
  compar : α → α → Int
  oriented : ∀ a b, compar a b < 0 ↔ 0 < compar b a
  trans : ∀ a b c, compar a b ≤ 0 → compar b c ≤ 0 → compar a c ≤ 0

variable {α : Type*} {c : Comparator α} {table : List α}

/-- `qsort`; the order it leaves equal elements in is not specified. -/
def qsort (c : Comparator α) (table : List α) : List α :=
  table.insertionSort fun a b => c.compar a b ≤ 0

/-- The loop of `bsearch` between `l` and `u`; a round at least halves what is left. -/
def bsearchLoop (test : α → Int) (table : List α) : Nat → Nat → Nat → Option α
  | 0, _, _ => none
  | rounds + 1, l, u =>
    if l < u then
      match table[(l + u) / 2]? with
      | none => none
      | some x =>
        if test x < 0 then bsearchLoop test table rounds l ((l + u) / 2)
        else if 0 < test x then bsearchLoop test table rounds ((l + u) / 2 + 1) u
        else some x
    else none

/-- `bsearch`, `test` being the comparison of the key with an element. -/
def bsearch (test : α → Int) (table : List α) : Option α :=
  bsearchLoop test table table.length 0 table.length

/-! ## Sorting -/

/-- No element is equal to another one, and the smaller one comes first. -/
def Ordered (c : Comparator α) (table : List α) : Prop := table.Pairwise fun a b => c.compar a b < 0

/-- Equal elements of an ordered table are one element. -/
theorem Ordered.eq_of_compar_eq_zero {a b : α} (ordered : Ordered c table) (first : a ∈ table)
    (second : b ∈ table) (equal : c.compar a b = 0) : a = b := by
  by_contra different
  have apart : table.Pairwise fun x y => c.compar x y ≠ 0 ∧ c.compar y x ≠ 0 := by
    refine ordered.imp fun {x y} smaller => ?_
    have := c.oriented x y
    omega
  have symmetric : Std.Symm fun x y : α => c.compar x y ≠ 0 ∧ c.compar y x ≠ 0 :=
    ⟨fun _ _ both => both.symm⟩
  exact (apart.forall first second different).1 equal

theorem mem_qsort {a : α} : a ∈ qsort c table ↔ a ∈ table := List.mem_insertionSort _

/-- Sorting a table without two equal elements. -/
theorem ordered_qsort (distinct : table.Pairwise fun a b => c.compar a b ≠ 0) :
    Ordered c (qsort c table) := by
  have total : Std.Total fun a b => c.compar a b ≤ 0 :=
    ⟨fun a b => by have := c.oriented b a; omega⟩
  have trans : IsTrans α fun a b => c.compar a b ≤ 0 := ⟨c.trans⟩
  have sorted := List.pairwise_insertionSort (fun a b => c.compar a b ≤ 0) table
  have kept : (qsort c table).Pairwise fun a b => c.compar a b ≠ 0 := by
    refine (List.perm_insertionSort _ table).symm.pairwise distinct @fun a b different => ?_
    have forth := c.oriented a b
    have back := c.oriented b a
    omega
  exact (sorted.and kept).imp fun both => by omega

/-! ## Searching -/

section Search

variable {test : α → Int} {x : α} {rounds l u i : Nat}

theorem of_bsearchLoop (found : bsearchLoop test table rounds l u = some x) :
    x ∈ table ∧ test x = 0 := by
  induction rounds generalizing l u with
  | zero => cases found
  | succ rounds ih =>
    rw [bsearchLoop] at found
    split at found
    next =>
      split at found
      next => cases found
      next y middle =>
        split at found
        next => exact ih found
        next =>
          split at found
          next => exact ih found
          next =>
            cases found
            exact ⟨List.mem_of_getElem? middle, by omega⟩
    next => cases found

/-- The element is never left out of the window, which shrinks in every round. -/
theorem bsearchLoop_of_sorted (hit : table[i]? = some x) (equal : test x = 0)
    (sorted : ∀ j y, table[j]? = some y → (j < i → 0 < test y) ∧ (i < j → test y < 0))
    (inside : l ≤ i ∧ i < u) (enough : u ≤ l + rounds) (bound : u ≤ table.length) :
    bsearchLoop test table rounds l u = some x := by
  induction rounds generalizing l u with
  | zero => omega
  | succ rounds ih =>
    have middle : (l + u) / 2 < table.length := by omega
    have order := sorted _ _ (List.getElem?_eq_getElem middle)
    rw [bsearchLoop, if_pos (by omega), List.getElem?_eq_getElem middle]
    dsimp only
    rcases Nat.lt_trichotomy ((l + u) / 2) i with before | rfl | after
    · rw [if_neg (by omega), if_pos (order.1 before)]
      exact ih (by omega) (by omega) bound
    · obtain rfl : table[(l + u) / 2] = x :=
        Option.some.inj ((List.getElem?_eq_getElem middle).symm.trans hit)
      rw [if_neg (by omega), if_neg (by omega)]
    · rw [if_pos (order.2 after)]
      exact ih (by omega) (by omega) (by omega)

/-- In an ordered table, `bsearch` is exact. -/
theorem bsearch_eq_some_iff {key : α} (ordered : Ordered c table) :
    bsearch (c.compar key) table = some x ↔ x ∈ table ∧ c.compar key x = 0 := by
  constructor
  · exact of_bsearchLoop
  · rintro ⟨member, equal⟩
    obtain ⟨i, inside, hit⟩ := List.getElem_of_mem member
    have place : table[i]? = some x := hit ▸ List.getElem?_eq_getElem inside
    refine bsearchLoop_of_sorted place equal (fun j y placed => ?_) ⟨Nat.zero_le i, inside⟩
      (by omega) (Nat.le_refl _)
    obtain ⟨inside', rfl⟩ := List.getElem?_eq_some_iff.mp placed
    rw [Ordered, List.pairwise_iff_getElem] at ordered
    subst hit
    -- an element on the wrong side of the key would be on the wrong side of `x`
    constructor
    · intro before
      by_contra reached
      have smaller := ordered j i inside' inside before
      have hit' := c.oriented key table[i]
      have wrong := c.trans table[i] key table[j] (by omega) (by omega)
      have := c.oriented table[j] table[i]
      omega
    · intro after
      by_contra reached
      have larger := ordered i j inside inside' after
      have missed := c.oriented key table[j]
      have wrong := c.trans table[j] key table[i] (by omega) (by omega)
      have := c.oriented table[i] table[j]
      omega

end Search

end SortedTable
