import Mathlib.Algebra.BigOperators.Ring.Finset
import Mathlib.Data.Fintype.BigOperators

/-!
# Codes with complementary check bits

Every position of the data carries a label of bits.  For each bit of a label the code keeps
two check bits: the parity of the positions whose label has it, and that of the others.  A
flipped position changes one bit of every pair, so what has changed spells out its label.
With three pairs or more, two faults never look like one.

What stores the check bits may have room for more than the pairs.  Such spare bits carry no
parity, but they can be flipped too, and hide nothing.
-/

namespace ParityCode

open Finset

/-! ## Faults and what they change -/

variable {ι κ : Type*}

/-- The check bits that have changed: `inl (i, b)` is the parity of the positions whose
label has `b` at `i`, `inr k` is a spare bit. -/
abbrev Syndrome (ι κ : Type*) := ι × Bool ⊕ κ → Bool

inductive BitFault (ι κ : Type*) where
  | position (label : ι → Bool)
  | check (bit : ι × Bool ⊕ κ)

/-- One bit of every pair for a position, and the bit itself for a check bit. -/
def BitFault.syndrome [DecidableEq ι] [DecidableEq κ] : BitFault ι κ → Syndrome ι κ
  | .position label => Sum.elim (fun c => label c.1 == c.2) fun _ => false
  | .check bit => fun c => decide (c = bit)

def BitFault.isPosition : BitFault ι κ → Bool
  | .position _ => true
  | .check _ => false

def BitFault.isSpare : BitFault ι κ → Bool
  | .check (.inr _) => true
  | _ => false

theorem exists_position {f : BitFault ι κ} (is : f.isPosition = true) :
    ∃ label, f = .position label := by
  cases f with
  | position label => exact ⟨label, rfl⟩
  | check bit => exact absurd is Bool.false_ne_true

theorem exists_spare {f : BitFault ι κ} (is : f.isSpare = true) : ∃ k, f = .check (.inr k) := by
  match f with
  | .position _ => exact absurd is Bool.false_ne_true
  | .check (.inl _) => exact absurd is Bool.false_ne_true
  | .check (.inr k) => exact ⟨k, rfl⟩

/-- Two faults change what exactly one of them changes. -/
def Syndrome.and (s t : Syndrome ι κ) : Syndrome ι κ := fun c => s c ^^ t c

/-- No change. -/
def Syndrome.none : Syndrome ι κ := fun _ => false

/-! ## Decoding -/

inductive Verdict (ι : Type*) where
  | clean
  | position (label : ι → Bool)
  | check
  | uncorrectable

/-- Exactly one bit of every pair has changed. -/
def Syndrome.Paired (s : Syndrome ι κ) : Prop := ∀ i, s (.inl (i, true)) ≠ s (.inl (i, false))

instance [Fintype ι] (s : Syndrome ι κ) : Decidable s.Paired :=
  inferInstanceAs (Decidable (∀ i, s (.inl (i, true)) ≠ s (.inl (i, false))))

section Verdicts

variable [Fintype ι] [Fintype κ]

def Syndrome.weight (s : Syndrome ι κ) : Nat := (univ.filter fun c => s c = true).card

def Syndrome.verdict (s : Syndrome ι κ) : Verdict ι :=
  if ∀ c, s c = false then .clean
  else if s.Paired then .position fun i => s (.inl (i, true))
  else if s.weight = 1 then .check
  else .uncorrectable

end Verdicts

section Decoding

variable {s t : Syndrome ι κ} {label label' : ι → Bool} {bit bit' : ι × Bool ⊕ κ}

theorem Syndrome.and_comm (s t : Syndrome ι κ) : s.and t = t.and s :=
  funext fun _ => Bool.xor_comm _ _

theorem Syndrome.none_and (s : Syndrome ι κ) : Syndrome.none.and s = s :=
  funext fun _ => Bool.false_xor _

section Weight

variable [Fintype ι] [Fintype κ]

/-- Two changed bits are more than one. -/
theorem weight_ne_one {c d : ι × Bool ⊕ κ} (apart : c ≠ d) (set : s c = true)
    (set' : s d = true) : s.weight ≠ 1 := by
  refine Nat.ne_of_gt (one_lt_card.mpr ⟨c, ?_, d, ?_, apart⟩)
  · exact mem_filter.mpr ⟨mem_univ c, set⟩
  · exact mem_filter.mpr ⟨mem_univ d, set'⟩

/-- The weight, pair by pair. -/
theorem weight_eq_sum (s : Syndrome ι κ) : s.weight =
    ∑ i, ((s (.inl (i, true))).toNat + (s (.inl (i, false))).toNat) +
      ∑ k, (s (.inr k)).toNat := by
  have count : ∀ c, (if s c = true then 1 else 0) = (s c).toNat := by
    intro c
    cases s c <;> rfl
  rw [Syndrome.weight, card_filter, Fintype.sum_sum_type, Fintype.sum_prod_type]
  simp only [count, Fintype.sum_bool]

theorem verdict_uncorrectable {c d : ι × Bool ⊕ κ} (apart : c ≠ d) (set : s c = true)
    (set' : s d = true) (unpaired : ¬ s.Paired) : s.verdict = .uncorrectable := by
  have changed : ¬ ∀ c, s c = false := fun none =>
    Bool.noConfusion ((none c).symm.trans set)
  rw [Syndrome.verdict, if_neg changed, if_neg unpaired, if_neg (weight_ne_one apart set set')]

/-- Paired bits spell out a label, whatever the spare bits are. -/
theorem verdict_of_paired [Nonempty ι] (paired : s.Paired) :
    s.verdict = .position fun i => s (.inl (i, true)) := by
  have changed : ¬ ∀ c, s c = false := by
    intro none
    obtain ⟨i⟩ := ‹Nonempty ι›
    exact paired i ((none _).trans (none _).symm)
  rw [Syndrome.verdict, if_neg changed, if_pos paired]

end Weight

variable [DecidableEq ι] [DecidableEq κ]

theorem paired_position (label : ι → Bool) :
    (BitFault.position label : BitFault ι κ).syndrome.Paired := by
  intro i
  simp only [BitFault.syndrome, Sum.elim_inl]
  cases label i <;> decide

theorem syndrome_position_true (label : ι → Bool) (i : ι) :
    (BitFault.position label : BitFault ι κ).syndrome (.inl (i, true)) = label i := by
  simp only [BitFault.syndrome, Sum.elim_inl]
  cases label i <;> rfl

theorem syndrome_check_self (bit : ι × Bool ⊕ κ) : (BitFault.check bit).syndrome bit = true :=
  decide_eq_true rfl

theorem syndrome_check_of_ne {c : ι × Bool ⊕ κ} (other : c ≠ bit) :
    (BitFault.check bit).syndrome c = false :=
  decide_eq_false other

variable [Fintype ι]

/-- Fewer bits than pairs leave a pair alone. -/
theorem exists_other_pair {n : Nat} (pairs : n < Fintype.card ι) (bits : Finset (ι × Bool ⊕ κ))
    (few : bits.card ≤ n) : ∃ i, ∀ b, (.inl (i, b) : ι × Bool ⊕ κ) ∉ bits := by
  by_contra! all
  choose b mem using all
  have inside : univ.image (fun i => (.inl (i, b i) : ι × Bool ⊕ κ)) ⊆ bits := by
    intro c found
    obtain ⟨i, -, rfl⟩ := mem_image.mp found
    exact mem i
  have distinct : Function.Injective fun i => (.inl (i, b i) : ι × Bool ⊕ κ) := fun i j same =>
    congrArg Prod.fst (Sum.inl.inj same)
  have counted := card_le_card inside
  rw [card_image_of_injective _ distinct, card_univ] at counted
  omega

variable [Fintype κ]

theorem weight_check (bit : ι × Bool ⊕ κ) : (BitFault.check bit).syndrome.weight = 1 := by
  refine card_eq_one.mpr ⟨bit, ?_⟩
  ext c
  simp only [BitFault.syndrome, mem_filter, mem_univ, true_and, decide_eq_true_eq, mem_singleton]

/-- A flipped position is found. -/
theorem verdict_position [Nonempty ι] (label : ι → Bool) :
    (BitFault.position label : BitFault ι κ).syndrome.verdict = .position label := by
  rw [verdict_of_paired (paired_position label)]
  simp only [syndrome_position_true]

/-- It is found beside a spare bit as well. -/
theorem verdict_position_spare [Nonempty ι] (label : ι → Bool) (k : κ) :
    ((BitFault.position label).syndrome.and (BitFault.check (.inr k)).syndrome).verdict =
      .position label := by
  have pairs : ∀ c, (BitFault.position label).syndrome.and (BitFault.check (.inr k)).syndrome (.inl c) =
      (BitFault.position label : BitFault ι κ).syndrome (.inl c) := fun c => by
    rw [Syndrome.and, syndrome_check_of_ne Sum.inl_ne_inr, Bool.xor_false]
  rw [verdict_of_paired fun i => by rw [pairs, pairs]; exact paired_position label i]
  simp only [pairs, syndrome_position_true]

/-- A flipped check bit is told from a flipped position. -/
theorem verdict_check (pairs : 2 ≤ Fintype.card ι) (bit : ι × Bool ⊕ κ) :
    (BitFault.check bit).syndrome.verdict = .check := by
  obtain ⟨i, other⟩ := exists_other_pair pairs {bit} (card_singleton bit).le
  have untouched : ∀ b, (BitFault.check bit).syndrome (.inl (i, b)) = false := fun b =>
    syndrome_check_of_ne fun same => other b (mem_singleton.mpr same)
  have changed : ¬ ∀ c, (BitFault.check bit).syndrome c = false := fun none =>
    Bool.noConfusion ((none bit).symm.trans (syndrome_check_self bit))
  have unpaired : ¬ (BitFault.check bit).syndrome.Paired := fun paired =>
    paired i ((untouched true).trans (untouched false).symm)
  rw [Syndrome.verdict, if_neg changed, if_neg unpaired, if_pos (weight_check bit)]

/-! ## Two faults -/

/-- A bit that only one of two labels has is changed in both of its parities, and a bit
that both have or lack in none. -/
theorem verdict_positions (apart : label ≠ label') :
    ((BitFault.position label : BitFault ι κ).syndrome.and (BitFault.position label').syndrome).verdict =
      .uncorrectable := by
  obtain ⟨i, differ⟩ := Function.ne_iff.mp apart
  have set : ∀ b, (BitFault.position label : BitFault ι κ).syndrome.and
      (BitFault.position label').syndrome (.inl (i, b)) = true := by
    intro b
    simp only [Syndrome.and, BitFault.syndrome, Sum.elim_inl]
    cases b <;> cases h : label i <;> cases h' : label' i <;> simp_all
  refine verdict_uncorrectable (c := .inl (i, true)) (d := .inl (i, false)) (by simp) (set _)
    (set _) ?_
  exact fun paired => paired i ((set true).trans (set false).symm)

/-- A check bit breaks its own pair, and the other pairs show that there is more. -/
theorem verdict_position_check (pairs : 3 ≤ Fintype.card ι) (label : ι → Bool) (c : ι × Bool) :
    ((BitFault.position label : BitFault ι κ).syndrome.and (BitFault.check (.inl c)).syndrome).verdict =
      .uncorrectable := by
  have two : 1 < (univ.erase c.1).card := by
    rw [card_erase_of_mem (mem_univ _), card_univ]
    omega
  obtain ⟨i, mem, j, mem', apart⟩ := one_lt_card.mp two
  have set : ∀ k, k ≠ c.1 → (BitFault.position label : BitFault ι κ).syndrome.and
      (BitFault.check (.inl c)).syndrome (.inl (k, label k)) = true := by
    intro k other
    rw [Syndrome.and, syndrome_check_of_ne fun same =>
      other (congrArg Prod.fst (Sum.inl.inj same))]
    simp only [BitFault.syndrome, Sum.elim_inl, BEq.rfl, Bool.xor_false]
  have broken : ¬ ((BitFault.position label : BitFault ι κ).syndrome.and
      (BitFault.check (.inl c)).syndrome).Paired := by
    intro paired
    refine paired c.1 ?_
    obtain ⟨k, b⟩ := c
    simp only [Syndrome.and, BitFault.syndrome, Sum.elim_inl, Sum.inl.injEq, Prod.mk.injEq, true_and]
    cases label k <;> cases b <;> decide
  refine verdict_uncorrectable (c := .inl (i, label i)) (d := .inl (j, label j)) ?_
    (set i (ne_of_mem_erase mem)) (set j (ne_of_mem_erase mem')) broken
  exact fun same => apart (congrArg Prod.fst (Sum.inl.inj same))

/-- Two check bits leave a pair alone. -/
theorem verdict_checks (pairs : 3 ≤ Fintype.card ι) (apart : bit ≠ bit') :
    ((BitFault.check bit).syndrome.and (BitFault.check bit').syndrome).verdict = .uncorrectable := by
  obtain ⟨i, other⟩ := exists_other_pair pairs {bit, bit'} card_le_two
  have untouched : ∀ b, (BitFault.check bit).syndrome.and (BitFault.check bit').syndrome (.inl (i, b)) =
      false := by
    intro b
    have apart := other b
    rw [mem_insert, mem_singleton, not_or] at apart
    rw [Syndrome.and, syndrome_check_of_ne apart.1, syndrome_check_of_ne apart.2, Bool.xor_false]
  have set : (BitFault.check bit).syndrome.and (BitFault.check bit').syndrome bit = true := by
    rw [Syndrome.and, syndrome_check_self, syndrome_check_of_ne apart, Bool.xor_false]
  have set' : (BitFault.check bit).syndrome.and (BitFault.check bit').syndrome bit' = true := by
    rw [Syndrome.and, syndrome_check_self, syndrome_check_of_ne apart.symm, Bool.false_xor]
  exact verdict_uncorrectable apart set set' fun paired =>
    paired i ((untouched true).trans (untouched false).symm)

/-- No two different faults look like one fault, or like none, but for a position that is
found beside a spare bit. -/
theorem verdict_two (pairs : 3 ≤ Fintype.card ι) {f g : BitFault ι κ} (apart : f ≠ g)
    (shown : (f.isPosition && g.isSpare || f.isSpare && g.isPosition) = false) :
    (f.syndrome.and g.syndrome).verdict = .uncorrectable := by
  match f, g with
  | .position label, .position label' =>
    exact verdict_positions fun same => apart (congrArg BitFault.position same)
  | .position label, .check (.inl c) => exact verdict_position_check pairs label c
  | .check (.inl c), .position label =>
    rw [Syndrome.and_comm]
    exact verdict_position_check pairs label c
  | .check bit, .check bit' =>
    exact verdict_checks pairs fun same => apart (congrArg BitFault.check same)
  | .position _, .check (.inr _) => exact absurd shown.symm Bool.false_ne_true
  | .check (.inr _), .position _ => exact absurd shown.symm Bool.false_ne_true

end Decoding

/-! ## Blocks under a code -/

/-- Data `D` under check words `C`, and the faults `F` that can hit a stored block.  Flipping
a position may have no place in the data. -/
structure Coded (D C F ι κ : Type*) [DecidableEq ι] [DecidableEq κ] where
  calculate : D → C
  flip : (ι → Bool) → D → Option D
  syndrome : D × C → Syndrome ι κ
  hit : F → D × C → D × C
  seen : F → BitFault ι κ
  syndrome_calculate : ∀ data, syndrome (data, calculate data) = .none
  syndrome_hit : ∀ f block, syndrome (hit f block) = (syndrome block).and (seen f).syndrome
  seen_injective : Function.Injective seen
  hit_position : ∀ f block label, seen f = .position label →
    flip label block.1 = some (hit f block).1 ∧ flip label (hit f block).1 = some block.1 ∧
      (hit f block).2 = block.2
  hit_check : ∀ f block c, seen f = .check c → (hit f block).1 = block.1

section Coded

variable {D C F : Type*} [DecidableEq ι] [DecidableEq κ] {code : Coded D C F ι κ}

def Coded.store (code : Coded D C F ι κ) (data : D) : D × C := (data, code.calculate data)

theorem Coded.syndrome_hit_store (code : Coded D C F ι κ) (f : F) (data : D) :
    code.syndrome (code.hit f (code.store data)) = (code.seen f).syndrome := by
  rw [code.syndrome_hit, store, code.syndrome_calculate, Syndrome.none_and]

variable [Fintype ι] [Fintype κ]

/-- What is read of a block: 0 without a fault, 1 when one is put right, and -1. -/
def Coded.read (code : Coded D C F ι κ) (block : D × C) : Int × D × C :=
  match (code.syndrome block).verdict with
  | .clean => (0, block)
  | .position label =>
    match code.flip label block.1 with
    | some data => (1, data, block.2)
    | .none => (-1, block)
  | .check => (1, block.1, code.calculate block.1)
  | .uncorrectable => (-1, block)

theorem Coded.read_of_position {block : D × C} {label : ι → Bool} {data : D}
    (found : (code.syndrome block).verdict = .position label)
    (flipped : code.flip label block.1 = some data) : code.read block = (1, data, block.2) := by
  rw [read, found]
  dsimp only
  rw [flipped]

/-- One fault, wherever it is, is put right. -/
theorem Coded.read_hit (pairs : 2 ≤ Fintype.card ι) (f : F) (data : D) :
    code.read (code.hit f (code.store data)) = (1, code.store data) := by
  have syndrome := code.syndrome_hit_store f data
  have : Nonempty ι := Fintype.card_pos_iff.mp (by omega)
  cases seen : code.seen f with
  | position label =>
    obtain ⟨-, back, same⟩ := code.hit_position f (code.store data) label seen
    rw [read_of_position (by rw [syndrome, seen, verdict_position]) back, same]
  | check c =>
    rw [read, syndrome, seen, verdict_check pairs, code.hit_check f _ c seen, store]

/-- Two faults are reported and nothing is changed, unless one is of a position and the
other of a spare bit: then the data are put right. -/
theorem Coded.read_hit_hit (pairs : 3 ≤ Fintype.card ι) {f g : F} (apart : f ≠ g) (data : D) :
    code.read (code.hit g (code.hit f (code.store data))) =
      if (code.seen f).isPosition && (code.seen g).isSpare ||
          (code.seen f).isSpare && (code.seen g).isPosition then
        (1, data, (code.hit g (code.hit f (code.store data))).2)
      else (-1, code.hit g (code.hit f (code.store data))) := by
  have syndrome : code.syndrome (code.hit g (code.hit f (code.store data))) =
      (code.seen f).syndrome.and (code.seen g).syndrome := by
    rw [code.syndrome_hit, code.syndrome_hit_store]
  have : Nonempty ι := Fintype.card_pos_iff.mp (by omega)
  split
  · rename_i hidden
    rw [Bool.or_eq_true, Bool.and_eq_true, Bool.and_eq_true] at hidden
    rcases hidden with ⟨position, spare⟩ | ⟨spare, position⟩
    · obtain ⟨label, is⟩ := exists_position position
      obtain ⟨k, is'⟩ := exists_spare spare
      refine read_of_position (by rw [syndrome, is, is', verdict_position_spare]) ?_
      rw [code.hit_check g _ _ is']
      exact (code.hit_position f _ label is).2.1
    · obtain ⟨label, is⟩ := exists_position position
      obtain ⟨k, is'⟩ := exists_spare spare
      refine read_of_position
        (by rw [syndrome, is, is', Syndrome.and_comm, verdict_position_spare]) ?_
      rw [(code.hit_position g _ label is).2.1, code.hit_check f _ _ is', store]
  · rename_i shown
    rw [read, syndrome, verdict_two pairs (fun same => apart (code.seen_injective same))
      (Bool.not_eq_true _ |>.mp shown)]

end Coded

/-! ## Parities of a whole block -/

section Sums

variable {w : Nat} {α : Type*} {n j : Nat}

/-- The exclusive or of `f i` for `i < n`. -/
def xorSum (n : Nat) (f : Nat → BitVec w) : BitVec w :=
  (List.range n).foldl (fun x i => x ^^^ f i) 0

theorem xorSum_succ (n : Nat) (f : Nat → BitVec w) : xorSum (n + 1) f = xorSum n f ^^^ f n := by
  rw [xorSum, List.range_succ, List.foldl_append]
  rfl

theorem xorSum_congr {f g : Nat → BitVec w} (same : ∀ i < n, f i = g i) :
    xorSum n f = xorSum n g := by
  induction n with
  | zero => rfl
  | succ n ih =>
    rw [xorSum_succ, xorSum_succ, same n (Nat.lt_succ_self n),
      ih fun i below => same i (Nat.lt_succ_of_lt below)]

/-- One byte changes a sum by what it was and what it is. -/
theorem xorSum_update (g : Nat → α → BitVec w) (d : Nat → α) (v : α) (inside : j < n) :
    xorSum n (fun i => g i (Function.update d j v i)) =
      xorSum n (fun i => g i (d i)) ^^^ (g j (d j) ^^^ g j v) := by
  induction n with
  | zero => exact absurd inside (Nat.not_lt_zero j)
  | succ n ih =>
    rw [xorSum_succ, xorSum_succ]
    rcases Nat.lt_succ_iff_lt_or_eq.mp inside with below | rfl
    · rw [ih below, Function.update_of_ne (Nat.ne_of_gt below)]
      ac_rfl
    · have same : xorSum j (fun i => g i (Function.update d j v i)) =
          xorSum j (fun i => g i (d i)) :=
        xorSum_congr fun i below => by rw [Function.update_of_ne (Nat.ne_of_lt below)]
      rw [same, Function.update_self, BitVec.xor_assoc, ← BitVec.xor_assoc (g j (d j)),
        BitVec.xor_self, BitVec.zero_xor]

end Sums

end ParityCode
