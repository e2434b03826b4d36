import VirtualNoah.Clock.Forest

/-!
# Linking the copies

`jz_clk_init` compares each new clock with the ones copied before, in both
directions, and links the two when one names the other as its parent.  A parent
points into the table until its pair has been compared; then the clock hangs
below the copy.  The links made so far list the children of each copy, and when
all pairs have been compared nothing points into the table any more.
-/

namespace VirtualNoah

open SiblingForest Fuel

variable {ν : Type}

/-- The clock of the table belongs to the SoC. -/
def ClkHeap.Selected (h : ClkHeap ν) (flag : BitVec 32) (length i : Nat) : Prop :=
  i < length ∧ (h (.onchip i)).flags &&& flag ≠ 0#32

/-- A table that describes a forest of the clocks of the SoC. -/
structure GoodTable (h : ClkHeap ν) (flag : BitVec 32) (length : Nat) : Prop where
  named : ∀ {i}, h.Selected flag length i → (h (.onchip i)).name ≠ none
  distinct : ∀ {i j}, h.Selected flag length i → h.Selected flag length j →
    (h (.onchip i)).name = (h (.onchip j)).name → i = j
  /-- `child1` and `sibling` are left out of the initialisers -/
  unlinked : ∀ {i}, h.Selected flag length i →
    (h (.onchip i)).child1 = none ∧ (h (.onchip i)).sibling = none
  inside : ∀ {i p}, h.Selected flag length i → (h (.onchip i)).parent = some p →
    ∃ j, h.Selected flag length j ∧ p = .onchip j
  acyclic : ∀ {i}, h.Selected flag length i → Rooted h.links (.onchip i)

/-- `src` gives the places in the table of the clocks that are copied. -/
structure Sources (h₀ : ClkHeap ν) (src : Nat → Nat) (total : Nat) : Prop where
  distinct : ∀ j < total, ∀ k < total,
    (h₀ (.onchip (src j))).name = (h₀ (.onchip (src k))).name → j = k
  unlinked : ∀ j < total,
    (h₀ (.onchip (src j))).child1 = none ∧ (h₀ (.onchip (src j))).sibling = none
  inside : ∀ j < total, ∀ p, (h₀ (.onchip (src j))).parent = some p →
    ∃ k < total, p = .onchip (src k)
  acyclic : ∀ j < total, Rooted h₀.links (.onchip (src j))

/-- Pointers into the table are no links yet. -/
def copiedParent : Option ClkPtr → Option ClkPtr
  | some (.clks k) => some (.clks k)
  | _ => none

def ClkHeap.copiedLinks (h : ClkHeap ν) : Links ClkPtr :=
  { h.links with parent := fun p => copiedParent (h p).parent }

/-- The parent of a copy that has been compared with the clocks in `done`; the
table has `up`. -/
inductive Resolved (src : Nat → Nat) (done : Nat → Prop) (up : Option ClkPtr) :
    Option ClkPtr → Prop
  | pending (still : ∀ k, done k → up ≠ some (.onchip (src k))) : Resolved src done up up
  | linked {k : Nat} (seen : done k) (named : up = some (.onchip (src k))) :
    Resolved src done up (some (.clks k))

/-- The first `m` clocks have been copied and the pairs in `done` compared; all but
the copies from `full` on have their default divisors. -/
structure Linking (h₀ : ClkHeap ν) (src : Nat → Nat) (full m : Nat) (done : Nat → Nat → Prop)
    (h : ClkHeap ν) : Prop where
  table : ∀ i, h (.onchip i) = h₀ (.onchip i)
  copy : ∀ j < m, (h (.clks j)).unlinked =
    (if j < full then (h₀ (.onchip (src j))).defaults else h₀ (.onchip (src j))).unlinked
  parent : ∀ j < m, Resolved src (done j) (h₀ (.onchip (src j))).parent (h (.clks j)).parent
  bounded : ∀ j k, done j k → k < m
  listed : Listed h.copiedLinks (clkNodes m)

section Compare

variable {h₀ h : ClkHeap ν} {src : Nat → Nat} {total full m : Nat} {done : Nat → Nat → Prop}
  {j k : Nat}

theorem onchip_ne_clks {i j : Nat} : ClkPtr.onchip i ≠ .clks j := nofun

/-- No two clocks are copies of the same one. -/
theorem Sources.src_inj (sources : Sources h₀ src total) (hj : j < total) (hk : k < total)
    (same : src j = src k) : j = k :=
  sources.distinct j hj k hk (by rw [same])

/-- No two clocks are below each other. -/
theorem Sources.not_both (sources : Sources h₀ src total) (hj : j < total)
    (up : (h₀ (.onchip (src j))).parent = some (.onchip (src k)))
    (back : (h₀ (.onchip (src k))).parent = some (.onchip (src j))) : False :=
  (sources.acyclic j hj).irrefl (.head up (.single back))

theorem Linking.name (linking : Linking h₀ src full m done h) {a : Nat} (ha : a < m) :
    (h (.clks a)).name = (h₀ (.onchip (src a))).name := by
  have copy := congrArg Clk.name (linking.copy a ha)
  split at copy <;> exact copy

theorem copiedLinks_linkBelow (h : ClkHeap ν) (j k : Nat) :
    (h.linkBelow (.clks j) (.clks k)).copiedLinks = h.copiedLinks.attach (.clks j) (.clks k) := by
  have links := links_linkBelow h (.clks j) (.clks k)
  simp only [ClkHeap.links, Links.attach, Links.mk.injEq] at links
  obtain ⟨parent, child1, sibling⟩ := links
  simp only [ClkHeap.copiedLinks, ClkHeap.links, Links.attach, Links.mk.injEq]
  refine ⟨?_, child1, sibling⟩
  funext p
  rw [congrFun parent p]
  rcases eq_or_ne p (.clks j) with rfl | apart
  · rw [Function.update_self, Function.update_self, copiedParent]
  · rw [Function.update_of_ne apart, Function.update_of_ne apart]

/-- One more pair has been compared. -/
def AndPair (done : Nat → Nat → Prop) (j k a b : Nat) : Prop :=
  done a b ∨ a = j ∧ b = k ∨ a = k ∧ b = j

/-- A pair that is not linked needs no step. -/
theorem Linking.skip (linking : Linking h₀ src full m done h) (hj : j < m) (hk : k < m)
    (one : (h₀ (.onchip (src j))).parent ≠ some (.onchip (src k)))
    (other : (h₀ (.onchip (src k))).parent ≠ some (.onchip (src j))) :
    Linking h₀ src full m (AndPair done j k) h where
  table := linking.table
  copy := linking.copy
  parent a ha := by
    have resolved := linking.parent a ha
    generalize (h (.clks a)).parent = now at resolved ⊢
    generalize up : (h₀ (.onchip (src a))).parent = place at resolved ⊢
    cases resolved with
    | pending still =>
      refine .pending fun b seen => ?_
      rcases seen with seen | ⟨rfl, rfl⟩ | ⟨rfl, rfl⟩
      · exact still b seen
      · exact up ▸ one
      · exact up ▸ other
    | linked seen named => exact .linked (Or.inl seen) named
  bounded a b seen := by
    rcases seen with seen | ⟨rfl, rfl⟩ | ⟨rfl, rfl⟩
    · exact linking.bounded a b seen
    · exact hk
    · exact hj
  listed := linking.listed

/-- The clock is put below the copy of its parent. -/
theorem Linking.link (linking : Linking h₀ src full m done h) (sources : Sources h₀ src total)
    (room : m ≤ total) (hj : j < m) (hk : k < m) (fresh : ¬ done j k)
    (up : (h₀ (.onchip (src j))).parent = some (.onchip (src k))) :
    Linking h₀ src full m (AndPair done j k) (h.linkBelow (.clks j) (.clks k)) := by
  have parent : ∀ p, ((h.linkBelow (.clks j) (.clks k)) p).parent =
      Function.update h.links.parent (.clks j) (some (.clks k)) p :=
    congrFun (congrArg Links.parent (links_linkBelow h (.clks j) (.clks k)))
  have open' : h.copiedLinks.parent (.clks j) = none := by
    have resolved := linking.parent j hj
    rw [up] at resolved
    change copiedParent (h (.clks j)).parent = none
    generalize (h (.clks j)).parent = now at resolved
    cases resolved with
    | pending still => rfl
    | @linked i seen named =>
      have hi := linking.bounded j i seen
      cases sources.src_inj (by omega) (by omega) (ClkPtr.onchip.inj (Option.some.inj named))
      exact (fresh seen).elim
  constructor
  · intro i
    rw [← linking.table i]
    simp [ClkHeap.linkBelow]
  · intro a ha
    rw [linkBelow_unlinked]
    exact linking.copy a ha
  · intro a ha
    rw [parent]
    rcases eq_or_ne a j with rfl | apart
    · rw [Function.update_self]
      exact .linked (Or.inr (Or.inl ⟨rfl, rfl⟩)) up
    · rw [Function.update_of_ne fun same => apart (ClkPtr.clks.inj same)]
      have resolved := linking.parent a ha
      change Resolved src _ _ (h (.clks a)).parent
      generalize (h (.clks a)).parent = now at resolved ⊢
      generalize named : (h₀ (.onchip (src a))).parent = place at resolved ⊢
      cases resolved with
      | pending still =>
        refine .pending fun b seen => ?_
        rcases seen with seen | ⟨rfl, rfl⟩ | ⟨rfl, rfl⟩
        · exact still b seen
        · exact (apart rfl).elim
        · exact fun same => sources.not_both (by omega) up (named.trans same)
      | linked seen named => exact .linked (Or.inl seen) named
  · intro a b seen
    rcases seen with seen | ⟨rfl, rfl⟩ | ⟨rfl, rfl⟩
    · exact linking.bounded a b seen
    · exact hk
    · exact hj
  · rw [copiedLinks_linkBelow]
    exact linking.listed.attach open' ⟨j, hj, rfl⟩ ⟨k, hk, rfl⟩

variable [DecidableEq ν]

/-- The comparison by name finds the clock the table means. -/
theorem Linking.parentNamed_iff (linking : Linking h₀ src full m done h)
    (sources : Sources h₀ src total) (room : m ≤ total) (hj : j < m) (hk : k < m) :
    h.parentNamed (.clks j) (.clks k) = true ↔
      (h₀ (.onchip (src j))).parent = some (.onchip (src k)) := by
  have same : ∀ i < total, (h₀ (.onchip (src i))).name = (h (.clks k)).name ↔ i = k := by
    intro i hi
    rw [linking.name hk]
    exact ⟨sources.distinct i hi k (by omega), fun same => same ▸ rfl⟩
  have resolved := linking.parent j hj
  rw [ClkHeap.parentNamed]
  cases up : (h (.clks j)).parent with
  | none =>
    rw [up] at resolved
    generalize (h₀ (.onchip (src j))).parent = named at resolved
    cases resolved with
    | pending still => simp only [Bool.false_eq_true, reduceCtorEq]
  | some q =>
    rw [up] at resolved
    simp only [decide_eq_true_eq]
    generalize named : (h₀ (.onchip (src j))).parent = place at resolved
    cases resolved with
    | pending still =>
      obtain ⟨i, hi, rfl⟩ := sources.inside j (by omega) q named
      rw [linking.table, same i hi, Option.some.injEq, ClkPtr.onchip.injEq]
      exact ⟨fun eq => eq ▸ rfl, sources.src_inj hi (by omega)⟩
    | @linked i seen place =>
      have hi := linking.bounded j i seen
      rw [linking.name hi, same i (by omega), place, Option.some.injEq, ClkPtr.onchip.injEq]
      exact ⟨fun eq => eq ▸ rfl, sources.src_inj (by omega) (by omega)⟩

theorem Linking.clkLink (linking : Linking h₀ src full m done h) (sources : Sources h₀ src total)
    (room : m ≤ total) (hj : j < m) (hk : k < m) (fresh : ¬ done j k) (fresh' : ¬ done k j) :
    Linking h₀ src full m (AndPair done j k) (VirtualNoah.clkLink h (.clks j) (.clks k)) := by
  have one := linking.parentNamed_iff sources room hj hk
  have other := linking.parentNamed_iff sources room hk hj
  unfold VirtualNoah.clkLink
  split
  · next named => exact linking.link sources room hj hk fresh (one.mp named)
  · next unnamed =>
    split
    · next named =>
      have swap : AndPair done j k = AndPair done k j := by
        funext a b
        exact propext (or_congr_right or_comm)
      rw [swap]
      exact linking.link sources room hk hj fresh' (other.mp named)
    · next unnamed' =>
      exact linking.skip hj hk (fun up => unnamed (one.mpr up)) fun up => unnamed' (other.mpr up)

/-! ## The loops -/

/-- All pairs of the first `m` clocks have been compared. -/
def AllPairs (m a b : Nat) : Prop := a < m ∧ b < m

/-- The next clock has been compared with the first `n` as well. -/
def SomePairs (m n a b : Nat) : Prop := AllPairs m a b ∨ a = m ∧ b < n ∨ b = m ∧ a < n

theorem clkNodes_succ : clkNodes (m + 1) = insert (.clks m) (clkNodes m) := by
  ext p
  simp only [clkNodes, Set.mem_insert_iff, Set.mem_ofPred_eq, Nat.lt_succ_iff_lt_or_eq]
  constructor
  · rintro ⟨j, low | rfl, rfl⟩
    · exact Or.inr ⟨j, low, rfl⟩
    · exact Or.inl rfl
  · rintro (rfl | ⟨j, low, rfl⟩)
    · exact ⟨m, Or.inr rfl, rfl⟩
    · exact ⟨j, Or.inl low, rfl⟩

theorem clks_notMem_clkNodes : ClkPtr.clks m ∉ clkNodes m := by
  rintro ⟨j, low, same⟩
  cases same
  exact Nat.lt_irrefl m low

omit [DecidableEq ν] in
/-- The next clock joins the copies without links. -/
theorem Sources.copiedLinks_copy (sources : Sources h₀ src total) (room : m < total) :
    (h.set (.clks m) (h₀ (.onchip (src m)))).copiedLinks =
      ⟨Function.update h.copiedLinks.parent (.clks m) none,
        Function.update h.copiedLinks.child1 (.clks m) none,
        Function.update h.copiedLinks.sibling (.clks m) none⟩ := by
  obtain ⟨child1, sibling⟩ := sources.unlinked m room
  have top : copiedParent (h₀ (.onchip (src m))).parent = none := by
    cases up : (h₀ (.onchip (src m))).parent with
    | none => rfl
    | some p =>
      obtain ⟨k, _, rfl⟩ := sources.inside m room p up
      rfl
  rw [ClkHeap.copiedLinks, links_set, child1, sibling]
  simp only [Links.mk.injEq]
  refine ⟨?_, rfl, rfl⟩
  funext p
  rcases eq_or_ne p (.clks m) with rfl | apart
  · rw [set_apply_self, Function.update_self, top]
  · rw [set_apply_of_ne apart, Function.update_of_ne apart]
    rfl

omit [DecidableEq ν] in
theorem Linking.copyNext (linking : Linking h₀ src m m (AllPairs m) h)
    (sources : Sources h₀ src total) (room : m < total) :
    Linking h₀ src m (m + 1) (SomePairs m 0) (h.set (.clks m) (h₀ (.onchip (src m)))) := by
  have other : ∀ a < m, h.set (.clks m) (h₀ (.onchip (src m))) (.clks a) = h (.clks a) := by
    intro a ha
    exact set_apply_of_ne (fun same => by cases same; omega) _
  have pairs : ∀ a < m, SomePairs m 0 a = AllPairs m a := by
    intro a ha
    funext b
    refine propext ⟨?_, Or.inl⟩
    rintro (both | ⟨rfl, _⟩ | ⟨_, none⟩)
    · exact both
    · omega
    · omega
  constructor
  · intro i
    rw [set_apply_of_ne onchip_ne_clks]
    exact linking.table i
  · intro a ha
    rcases Nat.lt_succ_iff_lt_or_eq.mp ha with ha | rfl
    · rw [other a ha]
      exact linking.copy a ha
    · rw [set_apply_self, if_neg (Nat.lt_irrefl a)]
  · intro a ha
    rcases Nat.lt_succ_iff_lt_or_eq.mp ha with ha | rfl
    · rw [other a ha, pairs a ha]
      exact linking.parent a ha
    · rw [set_apply_self]
      refine .pending fun b seen => ?_
      rcases seen with ⟨low, _⟩ | ⟨_, none⟩ | ⟨_, none⟩ <;> omega
  · rintro a b (⟨_, low⟩ | ⟨_, none⟩ | ⟨rfl, none⟩) <;> omega
  · rw [sources.copiedLinks_copy room, clkNodes_succ]
    exact linking.listed.newRoot clks_notMem_clkNodes

/-- The loop over the clocks copied before. -/
theorem Linking.compare (linking : Linking h₀ src m (m + 1) (SomePairs m 0) h)
    (sources : Sources h₀ src total) (room : m < total) {n : Nat} (low : n ≤ m) :
    Linking h₀ src m (m + 1) (SomePairs m n)
      ((List.range n).foldl (fun h k => VirtualNoah.clkLink h (.clks m) (.clks k)) h) := by
  induction n with
  | zero => exact linking
  | succ n ih =>
    have next : SomePairs m (n + 1) = AndPair (SomePairs m n) m n := by
      funext a b
      unfold SomePairs AndPair AllPairs
      exact propext (by omega)
    rw [List.range_succ, List.foldl_append, next]
    refine (ih (by omega)).clkLink sources room (by omega) (by omega) ?_ ?_ <;>
    · unfold SomePairs AllPairs
      omega

omit [DecidableEq ν] in
/-- The copy gets its default divisors. -/
theorem Linking.defaults (linking : Linking h₀ src m (m + 1) done h) :
    Linking h₀ src (m + 1) (m + 1) done (h.set (.clks m) (h (.clks m)).defaults) := by
  have parents : ∀ p, (h.set (.clks m) (h (.clks m)).defaults p).parent = (h p).parent := by
    intro p
    rcases eq_or_ne p (.clks m) with rfl | apart
    · rw [set_apply_self, Clk.defaults]
    · rw [set_apply_of_ne apart]
  constructor
  · intro i
    rw [set_apply_of_ne onchip_ne_clks]
    exact linking.table i
  · intro a ha
    have copy := linking.copy a ha
    rcases eq_or_ne a m with rfl | apart
    · rw [if_neg (Nat.lt_irrefl a)] at copy
      rw [set_apply_self, if_pos ha]
      exact congrArg Clk.defaults copy
    · rw [set_apply_of_ne fun same => apart (ClkPtr.clks.inj same), copy]
      simp only [show a < m by omega, ha, if_true]
  · intro a ha
    rw [parents]
    exact linking.parent a ha
  · exact linking.bounded
  · refine linking.listed.congr (fun p _ => ?_) ?_ ?_
    · change copiedParent _ = copiedParent _
      rw [parents]
    · change (h.set (.clks m) (h (.clks m)).defaults).links.child1 = _
      rw [links_set]
      exact Function.update_eq_self ..
    · change (h.set (.clks m) (h (.clks m)).defaults).links.sibling = _
      rw [links_set]
      exact Function.update_eq_self ..

theorem Linking.clkCopy (linking : Linking h₀ src m m (AllPairs m) h)
    (sources : Sources h₀ src total) (room : m < total) :
    Linking h₀ src (m + 1) (m + 1) (AllPairs (m + 1))
      (VirtualNoah.clkCopy h m (h₀ (.onchip (src m)))) := by
  have compared := ((linking.copyNext sources room).compare sources room le_rfl).skip
    (j := m) (k := m) (by omega) (by omega)
    (fun up => sources.not_both room up up) fun up => sources.not_both room up up
  have all : AndPair (SomePairs m m) m m = AllPairs (m + 1) := by
    funext a b
    unfold AndPair SomePairs AllPairs
    exact propext (by omega)
  rw [all] at compared
  exact compared.defaults

end Compare

section Table

variable {h : ClkHeap ν} {flag : BitVec 32} {length : Nat}

/-- The places in the table of the first clocks of the SoC. -/
def ClkHeap.entries (h : ClkHeap ν) (flag : BitVec 32) (n : Nat) : List Nat :=
  (List.range n).filter fun i => (h (.onchip i)).flags &&& flag ≠ 0#32

theorem mem_entries {n i : Nat} : i ∈ h.entries flag n ↔ h.Selected flag n i := by
  simp only [ClkHeap.entries, ClkHeap.Selected, List.mem_filter, List.mem_range,
    decide_eq_true_eq]

theorem entries_succ (n : Nat) : h.entries flag (n + 1) =
    h.entries flag n ++ if (h (.onchip n)).flags &&& flag ≠ 0#32 then [n] else [] := by
  simp only [ClkHeap.entries, List.range_succ, List.filter_append, List.filter_cons,
    List.filter_nil, decide_eq_true_eq]

theorem entries_extend (h : ClkHeap ν) (flag : BitVec 32) {n m : Nat} (le : n ≤ m) :
    h.entries flag n <+: h.entries flag m := by
  induction m, le using Nat.le_induction with
  | base => exact List.prefix_refl _
  | succ m le ih =>
    rw [entries_succ]
    exact ih.trans (List.prefix_append ..)

/-- The place in the table of the copy at `clks + j`. -/
def ClkHeap.source (h : ClkHeap ν) (flag : BitVec 32) (length j : Nat) : Nat :=
  (h.entries flag length).getD j 0

theorem source_eq {n : Nat} (lt : n < length)
    (selected : (h (.onchip n)).flags &&& flag ≠ 0#32) :
    h.source flag length (h.entries flag n).length = n := by
  obtain ⟨rest, same⟩ := entries_extend h flag (n := n + 1) lt
  rw [ClkHeap.source, ← same, entries_succ, if_pos selected, List.append_assoc,
    List.getD_eq_getElem?_getD, List.getElem?_append_right le_rfl, Nat.sub_self]
  rfl

theorem GoodTable.sources (good : GoodTable h flag length) :
    Sources h (h.source flag length) (h.entries flag length).length := by
  have get : ∀ {j} (lt : j < (h.entries flag length).length),
      h.source flag length j = (h.entries flag length)[j] := by
    intro j lt
    rw [ClkHeap.source, List.getD_eq_getElem?_getD, List.getElem?_eq_getElem lt, Option.getD_some]
  have selected : ∀ {j}, j < (h.entries flag length).length →
      h.Selected flag length (h.source flag length j) := by
    intro j lt
    rw [get lt]
    exact mem_entries.mp (List.getElem_mem lt)
  have nodup : (h.entries flag length).Nodup := List.nodup_range.filter _
  constructor
  · intro j hj k hk same
    have place := good.distinct (selected hj) (selected hk) same
    rw [get hj, get hk] at place
    exact (nodup.getElem_inj_iff).mp place
  · exact fun j hj => good.unlinked (selected hj)
  · intro j hj p up
    obtain ⟨i, inside, rfl⟩ := good.inside (selected hj) up
    obtain ⟨k, hk, place⟩ := List.getElem_of_mem (mem_entries.mpr inside)
    exact ⟨k, hk, by rw [get hk, place]⟩
  · exact fun j hj => good.acyclic (selected hj)

variable [DecidableEq ν]

theorem clkCopyAll_succ (s : JzClks ν) (n : Nat) : clkCopyAll flag s (n + 1) =
    let t := clkCopyAll flag s n
    if (t.heap (.onchip n)).flags &&& flag ≠ 0#32 then
      ⟨clkCopy t.heap t.count (t.heap (.onchip n)), t.count + 1⟩
    else t := by
  rw [clkCopyAll, List.range_succ, List.foldl_append]
  rfl

/-- The loop over the table. -/
theorem clkCopyAll_linking (good : GoodTable h flag length) {n : Nat} (le : n ≤ length) :
    (clkCopyAll flag ⟨h, 0⟩ n).count = (h.entries flag n).length ∧
    Linking h (h.source flag length) (clkCopyAll flag ⟨h, 0⟩ n).count
      (clkCopyAll flag ⟨h, 0⟩ n).count (AllPairs (clkCopyAll flag ⟨h, 0⟩ n).count)
      (clkCopyAll flag ⟨h, 0⟩ n).heap := by
  induction n with
  | zero =>
    refine ⟨rfl, fun _ => rfl, fun _ none => ?_, fun _ none => ?_, fun _ _ none => ?_, ?_⟩
    · exact absurd none (Nat.not_lt_zero _)
    · exact absurd none (Nat.not_lt_zero _)
    · exact none.2
    · constructor <;>
      · rintro p ⟨j, none, -⟩
        exact absurd none (Nat.not_lt_zero _)
  | succ n ih =>
    obtain ⟨count, linking⟩ := ih (by omega)
    rw [clkCopyAll_succ, entries_succ]
    dsimp only
    rw [linking.table]
    split
    · next selected =>
      have place : h.source flag length (h.entries flag n).length = n := source_eq le selected
      refine ⟨by rw [count, List.length_append, List.length_singleton], ?_⟩
      have more : (h.entries flag n).length < (h.entries flag length).length := by
        have longer := (entries_extend h flag (n := n + 1) le).length_le
        rw [entries_succ, if_pos selected, List.length_append, List.length_singleton] at longer
        omega
      have next := linking.clkCopy good.sources (count ▸ more)
      rw [count, place] at next
      rw [count]
      exact next
    · exact ⟨by rw [count, List.append_nil], linking⟩

section Compared

variable {h₀ : ClkHeap ν} {src : Nat → Nat} {total : Nat}

omit [DecidableEq ν] in
/-- When all pairs have been compared, no parent points into the table. -/
theorem Linking.parents (linking : Linking h₀ src total total (AllPairs total) h)
    (sources : Sources h₀ src total) {j : Nat} (hj : j < total) :
    (h₀ (.onchip (src j))).parent = none ∧ (h (.clks j)).parent = none ∨
    ∃ k < total, (h₀ (.onchip (src j))).parent = some (.onchip (src k)) ∧
      (h (.clks j)).parent = some (.clks k) := by
  have resolved := linking.parent j hj
  have inside := sources.inside j hj
  generalize (h (.clks j)).parent = now at resolved ⊢
  generalize (h₀ (.onchip (src j))).parent = place at resolved inside ⊢
  cases resolved with
  | linked seen named => exact Or.inr ⟨_, seen.2, named, rfl⟩
  | pending still =>
    cases now with
    | none => exact Or.inl ⟨rfl, rfl⟩
    | some p =>
      obtain ⟨k, hk, rfl⟩ := inside p rfl
      exact (still k ⟨hj, hk⟩ rfl).elim

omit [DecidableEq ν] in
theorem Linking.forest (linking : Linking h₀ src total total (AllPairs total) h)
    (sources : Sources h₀ src total) : Forest h.links (clkNodes total) := by
  constructor
  · refine linking.listed.congr ?_ rfl rfl
    rintro _ ⟨j, hj, rfl⟩
    change (h (.clks j)).parent = copiedParent (h (.clks j)).parent
    rcases linking.parents sources hj with ⟨-, now⟩ | ⟨k, -, -, now⟩ <;>
    · rw [now]
      rfl
  · rintro _ ⟨j, hj, rfl⟩
    have rooted := sources.acyclic j hj
    generalize place : ClkPtr.onchip (src j) = c at rooted
    induction rooted generalizing j with
    | root top =>
      subst place
      rcases linking.parents sources hj with ⟨-, now⟩ | ⟨k, -, up, -⟩
      · exact .root now
      · cases top.symm.trans up
    | child up _ ih =>
      subst place
      rcases linking.parents sources hj with ⟨none', -⟩ | ⟨k, hk, up', now⟩
      · cases none'.symm.trans up
      · cases up'.symm.trans up
        exact .child now (ih k hk rfl)

end Compared

omit [DecidableEq ν] in
theorem clkStart_ends {js : List Nat} {h : ClkHeap ν} {nodes : Set ClkPtr}
    (forest : Forest h.links nodes) (finite : nodes.Finite) (inside : ∀ j ∈ js, .clks j ∈ nodes) :
    Ends Fault.divideByZero (clkStart · h js) (SameShape h) := by
  induction js generalizing h with
  | nil =>
    exact (Ends.of_settles (.const (Except.ok h)) (SameShape.refl h)).congr fun fuel => by
      rw [clkStart]
  | cons j js ih =>
    refine (jzClk_walks_forest forest finite (inside j List.mem_cons_self)).bind
      (k := fun h' fuel => clkStart fuel h' js) (fun h' same => ?_) ?_ ?_
    · have rest := ih (same.links ▸ forest) fun j' mem => inside j' (List.mem_cons_of_mem j mem)
      exact rest.mono fun _ => same.trans
    · intro fuel e stopped
      rw [clkStart]
      cases update : jzClkUpdate fuel h (.clks j) with
      | error e' => simpa only [update] using stopped
      | ok h' =>
        simp only [update] at stopped ⊢
        rw [stopped]
    · intro fuel h' done
      rw [clkStart]
      cases update : jzClkUpdate fuel h (.clks j) with
      | error e' =>
        simp only [update] at done
        cases done
      | ok h'' =>
        simp only [update] at done ⊢
        rw [done]

end Table

/-- The clocks of the SoC have been copied, in the order of the table, and each copy has the copy
of its parent in the table as its parent. -/
structure Copied (h₀ : ClkHeap ν) (flag : BitVec 32) (length : Nat) (s : JzClks ν) : Prop where
  count : s.count = (h₀.entries flag length).length
  parent : ∀ j < s.count,
    (h₀ (.onchip (h₀.source flag length j))).parent = none ∧ (s.heap (.clks j)).parent = none ∨
    ∃ k < s.count, (h₀ (.onchip (h₀.source flag length j))).parent =
        some (.onchip (h₀.source flag length k)) ∧
      (s.heap (.clks j)).parent = some (.clks k)

/-- A good table gives the forest it describes, unless a rate is divided by zero. -/
theorem jzClkInit_ends [DecidableEq ν] {table : List (Clk ν)} {flag : BitVec 32}
    {oscExtal : Nat} {freq : BitVec 32}
    (good : GoodTable (onchipHeap table oscExtal freq) flag table.length) :
    Ends Fault.divideByZero (jzClkInit · flag table oscExtal freq) fun s =>
      Forest s.heap.links (clkNodes s.count) ∧
        Copied (onchipHeap table oscExtal freq) flag table.length s := by
  obtain ⟨count, linking⟩ := clkCopyAll_linking good le_rfl
  have sources := count ▸ good.sources
  have forest := linking.forest sources
  have parents := fun j => linking.parents sources (j := j)
  set s := clkCopyAll flag ⟨onchipHeap table oscExtal freq, 0⟩ table.length
  refine (clkStart_ends forest (clkNodes_finite _) fun j mem =>
    ⟨j, List.mem_range.mp mem, rfl⟩).bind (k := fun h _ => .ok ⟨h, s.count⟩)
    (fun h same => ?_) ?_ ?_
  · have parent : ∀ p, (h p).parent = (s.heap p).parent :=
      congrFun (congrArg Links.parent same.links)
    refine .of_settles (.const _) ⟨?_, count, fun j inside => ?_⟩
    · rw [same.links]
      exact forest
    · rw [parent]
      exact parents j inside
  · intro fuel e stopped
    rw [jzClkInit, stopped]
    rfl
  · intro fuel h done
    rw [jzClkInit, done]
    rfl

end VirtualNoah
