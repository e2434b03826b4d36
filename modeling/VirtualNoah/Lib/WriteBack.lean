import Mathlib.Logic.Function.Basic
import Mathlib.Tactic.Common

/-!
# Write-back caches

Lines that hold values of some keys in front of a store.  A line that is dirty is
newer than the store.  `Coherent c latest` says that lines and store together hold
the latest value of every key, whichever line is filled, rewritten or evicted.
-/

namespace WriteBack

variable {ι κ ν : Type*}

structure Line (κ ν : Type*) where
  key : κ
  value : ν
  dirty : Bool

structure Cache (ι κ ν : Type*) where
  line : ι → Option (Line κ ν)
  store : κ → ν

def Cache.Holds (c : Cache ι κ ν) (k : κ) : Prop := ∃ i a, c.line i = some a ∧ a.key = k

/-- One line a key at most; a line has the latest value, and the store has it when no
dirty line does. -/
structure Coherent (c : Cache ι κ ν) (latest : κ → ν) : Prop where
  unique : ∀ {i j a b}, c.line i = some a → c.line j = some b → a.key = b.key → i = j
  value : ∀ {i a}, c.line i = some a → a.value = latest a.key
  stored : ∀ {k}, (∀ {i a}, c.line i = some a → a.key = k → a.dirty = false) →
    c.store k = latest k

variable {c c' : Cache ι κ ν} {latest latest' : κ → ν} {i : ι} {a : Line κ ν} {k : κ} {v : ν}

theorem Coherent.store_eq (coherent : Coherent c latest) (absent : ¬ c.Holds k) :
    c.store k = latest k :=
  coherent.stored fun held same => (absent ⟨_, _, held, same⟩).elim

/-- A cache without lines leaves the store as the latest. -/
theorem Coherent.of_empty (empty : ∀ i, c.line i = none) : Coherent c c.store where
  unique held := by cases (empty _).symm.trans held
  value held := by cases (empty _).symm.trans held
  stored _ := rfl

/-- Keys that are dropped from the cache and written to the store at once. -/
theorem Coherent.bypass (coherent : Coherent c latest) (past : κ → Prop)
    (lines : ∀ i a, c'.line i = some a ↔ c.line i = some a ∧ ¬ past a.key)
    (written : ∀ k, past k → c'.store k = latest' k)
    (kept : ∀ k, ¬ past k → c'.store k = c.store k ∧ latest' k = latest k) :
    Coherent c' latest' where
  unique held held' same :=
    coherent.unique ((lines _ _).mp held).1 ((lines _ _).mp held').1 same
  value held := by
    obtain ⟨held, outside⟩ := (lines _ _).mp held
    rw [(kept _ outside).2]
    exact coherent.value held
  stored {k} clean := by
    by_cases inside : past k
    · exact written k inside
    · rw [(kept k inside).1, (kept k inside).2]
      exact coherent.stored fun held same =>
        clean ((lines _ _).mpr ⟨held, same ▸ inside⟩) same

section Lines

variable [DecidableEq ι]

def Cache.enter (c : Cache ι κ ν) (i : ι) (a : Line κ ν) : Cache ι κ ν :=
  { c with line := Function.update c.line i (some a) }

theorem Cache.enter_line (c : Cache ι κ ν) (i : ι) (a : Line κ ν) (j : ι) :
    (c.enter i a).line j = if j = i then some a else c.line j := Function.update_apply ..

/-- A line of the new cache is the new one, or an old one elsewhere. -/
theorem Cache.of_enter_line {j : ι} {b : Line κ ν} (held : (c.enter i a).line j = some b) :
    j = i ∧ b = a ∨ j ≠ i ∧ c.line j = some b := by
  rw [Cache.enter_line] at held
  split at held
  · next same => exact Or.inl ⟨same, (Option.some.inj held).symm⟩
  · next apart => exact Or.inr ⟨apart, held⟩

variable [DecidableEq κ]

/-- Write a dirty line back, and free it. -/
def Cache.evict (c : Cache ι κ ν) (i : ι) : Cache ι κ ν :=
  match c.line i with
  | none => c
  | some a =>
    { line := Function.update c.line i none
      store := if a.dirty then Function.update c.store a.key a.value else c.store }

/-- A line that takes the place of nothing, or of the line of the same key. -/
theorem Coherent.enter (coherent : Coherent c latest)
    (others : ∀ j b, c.line j = some b → b.key = a.key → j = i)
    (taken : ∀ b, c.line i = some b → b.key = a.key)
    (clean : a.dirty = false → c.store a.key = a.value) :
    Coherent (c.enter i a) (Function.update latest a.key a.value) where
  unique {j l b d} held held' same := by
    rcases Cache.of_enter_line held with ⟨at_i, new⟩ | ⟨-, old⟩
    · rcases Cache.of_enter_line held' with ⟨at_i', -⟩ | ⟨-, old'⟩
      · exact at_i.trans at_i'.symm
      · exact at_i.trans (others l d old' (same.symm.trans (congrArg Line.key new))).symm
    · rcases Cache.of_enter_line held' with ⟨at_i', new'⟩ | ⟨-, old'⟩
      · exact (others j b old (same.trans (congrArg Line.key new'))).trans at_i'.symm
      · exact coherent.unique old old' same
  value {j b} held := by
    rcases Cache.of_enter_line held with ⟨-, new⟩ | ⟨apart, old⟩
    · rw [new, Function.update_self]
    · rw [Function.update_of_ne fun same => apart (others j b old same)]
      exact coherent.value old
  stored {k} undirtied := by
    by_cases same : k = a.key
    · rw [same, Function.update_self]
      exact clean (undirtied ((c.enter_line i a i).trans (if_pos rfl)) same.symm)
    · rw [Function.update_of_ne same]
      refine coherent.stored fun {j b} held of_key => ?_
      have elsewhere : j ≠ i := by
        intro is
        exact same (of_key.symm.trans (taken b (is ▸ held)))
      exact undirtied ((c.enter_line i a j).trans ((if_neg elsewhere).trans held)) of_key

/-- A free line takes a value of a key that is in no line; a clean one the latest. -/
theorem Coherent.fill (coherent : Coherent c latest) (free : c.line i = none)
    (absent : ¬ c.Holds a.key) (clean : a.dirty = false → a.value = latest a.key) :
    Coherent (c.enter i a) (Function.update latest a.key a.value) :=
  coherent.enter (fun j b held same => (absent ⟨j, b, held, same⟩).elim)
    (fun b held => by cases free.symm.trans held)
    fun isClean => (coherent.store_eq absent).trans (clean isClean).symm

/-- A line takes a new value of its key. -/
theorem Coherent.rewrite (coherent : Coherent c latest) (held : c.line i = some a) :
    Coherent (c.enter i ⟨a.key, v, true⟩) (Function.update latest a.key v) := by
  refine coherent.enter (fun j b held' same => coherent.unique held' held same) ?_ nofun
  intro b held'
  cases held.symm.trans held'
  rfl

theorem Cache.evict_line (c : Cache ι κ ν) (i j : ι) :
    (c.evict i).line j = if j = i then none else c.line j := by
  unfold Cache.evict
  split
  · next free =>
    by_cases same : j = i
    · rw [if_pos same, same, free]
    · rw [if_neg same]
  · exact Function.update_apply ..

/-- Eviction changes what is stored for the key of the line only, to its value. -/
theorem Coherent.evict (coherent : Coherent c latest) (i : ι) : Coherent (c.evict i) latest := by
  have still : ∀ {j b}, (c.evict i).line j = some b → j ≠ i ∧ c.line j = some b := by
    intro j b held
    rw [Cache.evict_line] at held
    split at held
    · cases held
    · next apart => exact ⟨apart, held⟩
  refine ⟨fun held held' same => coherent.unique (still held).2 (still held').2 same,
    fun held => coherent.value (still held).2, fun {k} clean => ?_⟩
  have kept : ∀ {j b}, c.line j = some b → j ≠ i → (c.evict i).line j = some b := by
    intro j b held apart
    rw [Cache.evict_line, if_neg apart]
    exact held
  cases line : c.line i with
  | none =>
    have same : c.evict i = c := by
      unfold Cache.evict
      rw [line]
    rw [same] at clean ⊢
    exact coherent.stored clean
  | some a =>
    have store : (c.evict i).store =
        if a.dirty then Function.update c.store a.key a.value else c.store := by
      unfold Cache.evict
      rw [line]
    -- a key other than the line's, or a line that is not dirty, leaves the store
    have left : (∀ {b}, c.line i = some b → b.key = k → b.dirty = false) →
        c.store k = latest k := by
      intro here
      refine coherent.stored fun {j b} held same => ?_
      by_cases is : j = i
      · exact here (is ▸ held) same
      · exact clean (kept held is) same
    rw [store]
    cases dirty : a.dirty with
    | false =>
      rw [if_neg Bool.false_ne_true]
      refine left fun held _ => ?_
      cases line.symm.trans held
      exact dirty
    | true =>
      rw [if_pos rfl]
      by_cases same : k = a.key
      · rw [same, Function.update_self]
        exact coherent.value line
      · rw [Function.update_of_ne same]
        refine left fun held of_key => ?_
        cases line.symm.trans held
        exact (same of_key.symm).elim

end Lines

end WriteBack
