import VirtualNoah.Soc.Cpm

/-!
# The tree the registers describe

A CPM write finds its clocks by name and runs a list of clock operations on them.
Each of CPCCR, I2SCDR and MSCCDR describes its part of the tree from the first
write on that changes it; until then it holds its reset value and the clocks still
have the divisors of `jz_clk_init`.
-/

namespace VirtualNoah

open SiblingForest StepRun

/-! ## The table -/

section Onchip
variable (freq : BitVec 32)

/-- The places of the clocks of the JZ4740. -/
def onchipPlaces : List Nat := [0, 2, 3, 4, 5, 6, 7, 8, 9, 10, 11, 12, 13, 14]

theorem onchip_rest (i : Nat) : onchipHeap onchipClks 0 freq (.onchip i) =
    { onchipClks.getD i Clk.zero with
      rate := (onchipHeap onchipClks 0 freq (.onchip i)).rate } := by
  simp only [onchipHeap]
  split <;> rfl

theorem onchip_entries :
    (onchipHeap onchipClks 0 freq).entries clockInJz4740 onchipClks.length = onchipPlaces := by
  have flags : ∀ i, (onchipHeap onchipClks 0 freq (.onchip i)).flags =
      (onchipClks.getD i Clk.zero).flags := fun i => by rw [onchip_rest]
  simp only [ClkHeap.entries, flags]
  decide +kernel

/-- What `jz4740_init` gives `jz_clk_init` is a good table. -/
theorem onchip_good :
    GoodTable (onchipHeap onchipClks 0 freq) clockInJz4740 onchipClks.length := by
  have selected : ∀ {i}, (onchipHeap onchipClks 0 freq).Selected clockInJz4740 onchipClks.length i ↔
      i ∈ onchipPlaces := by
    intro i
    rw [← onchip_entries freq]
    exact mem_entries.symm
  have parents : ∀ i ∈ onchipPlaces, (onchipHeap onchipClks 0 freq (.onchip i)).parent = none ∨
      ∃ j ∈ [0, 3, 4], (onchipHeap onchipClks 0 freq (.onchip i)).parent = some (.onchip j) := by
    intro i mem
    rw [onchip_rest]
    dsimp only
    revert i
    decide +kernel
  have root : Rooted (onchipHeap onchipClks 0 freq).links (.onchip 0) := .root rfl
  have output : Rooted (onchipHeap onchipClks 0 freq).links (.onchip 3) := .child rfl root
  have divider : Rooted (onchipHeap onchipClks 0 freq).links (.onchip 4) := .child rfl output
  simp only [List.mem_cons, List.not_mem_nil, or_false, exists_eq_or_imp, exists_eq_left] at parents
  constructor
  · intro i mem
    rw [onchip_rest]
    dsimp only
    revert i
    simp only [selected]
    decide +kernel
  · intro i j mem mem' same
    rw [onchip_rest, onchip_rest freq j] at same
    dsimp only at same
    exact List.inj_on_of_nodup_map (f := fun i => (onchipClks.getD i Clk.zero).name)
      (l := onchipPlaces) (by decide +kernel) (selected.mp mem) (selected.mp mem') same
  · intro i mem
    rw [onchip_rest]
    dsimp only
    revert i
    simp only [selected]
    decide +kernel
  · intro i p mem up
    rcases parents i (selected.mp mem) with top | up' | up' | up'
    · cases top.symm.trans up
    · cases up'.symm.trans up
      exact ⟨0, selected.mpr (by decide), rfl⟩
    · cases up'.symm.trans up
      exact ⟨3, selected.mpr (by decide), rfl⟩
    · cases up'.symm.trans up
      exact ⟨4, selected.mpr (by decide), rfl⟩
  · intro i mem
    rcases parents i (selected.mp mem) with top | up | up | up
    · exact .root top
    · exact .child up root
    · exact .child up output
    · exact .child up divider
end Onchip

/-- Where `jz_clk_init` puts the clocks of the table. -/
def ClkName.index : ClkName → Nat
  | .oscExtal => 0
  | .osc32K => 1
  | .pllOutput => 2
  | .pllDivider => 3
  | .cclk => 4
  | .pclk => 5
  | .hclk => 6
  | .mclk => 7
  | .ldclk => 8
  | .lpclk => 9
  | .i2sclk => 10
  | .mscclk => 11
  | .usbclk => 12
  | .ssiclk => 13
  | .lcdPclk => 14

def ClkName.copy (n : ClkName) : ClkPtr := .clks n.index

/-- The parent a clock has in the table. -/
def ClkName.parent : ClkName → Option ClkName
  | .oscExtal | .osc32K | .lcdPclk => none
  | .pllOutput => some .oscExtal
  | .pllDivider | .cclk | .pclk | .hclk | .mclk => some .pllOutput
  | .ldclk | .lpclk | .i2sclk | .mscclk | .usbclk | .ssiclk => some .pllDivider

/-! ## Finding the clocks -/

section Find

variable {soc soc' : JzClks ClkName} {n m : ClkName} {fuel : Nat}

structure Named (soc : JzClks ClkName) : Prop where
  count : soc.count = 14
  name : ∀ n : ClkName, n ≠ .lcdPclk → (soc.heap.params n.copy).name = some n
  aliasName : ∀ n : ClkName, n ≠ .lcdPclk → (soc.heap.params n.copy).aliasName = none

theorem copy_inj (same : n.copy = m.copy) : n = m := by
  cases n <;> cases m <;> first | rfl | cases same

theorem copy_surj : ∀ {i : Nat}, i < 14 → ∃ n, n ≠ ClkName.lcdPclk ∧ n.copy = .clks i
  | 0, _ => ⟨.oscExtal, nofun, rfl⟩
  | 1, _ => ⟨.osc32K, nofun, rfl⟩
  | 2, _ => ⟨.pllOutput, nofun, rfl⟩
  | 3, _ => ⟨.pllDivider, nofun, rfl⟩
  | 4, _ => ⟨.cclk, nofun, rfl⟩
  | 5, _ => ⟨.pclk, nofun, rfl⟩
  | 6, _ => ⟨.hclk, nofun, rfl⟩
  | 7, _ => ⟨.mclk, nofun, rfl⟩
  | 8, _ => ⟨.ldclk, nofun, rfl⟩
  | 9, _ => ⟨.lpclk, nofun, rfl⟩
  | 10, _ => ⟨.i2sclk, nofun, rfl⟩
  | 11, _ => ⟨.mscclk, nofun, rfl⟩
  | 12, _ => ⟨.usbclk, nofun, rfl⟩
  | 13, _ => ⟨.ssiclk, nofun, rfl⟩
  | i + 14, lt => absurd lt (by omega)

theorem copy_lt (other : n ≠ .lcdPclk) : ∃ i < 14, n.copy = .clks i := by
  cases n <;> first | exact (other rfl).elim | exact ⟨_, by decide, rfl⟩

theorem Named.find (named : Named soc) (other : n ≠ .lcdPclk) : jzFindclk soc n = .ok n.copy := by
  obtain ⟨i, lt, place⟩ := copy_lt other
  have first : (List.range soc.count).find? (fun i => decide
      ((soc.heap (.clks i)).name = some n ∨ (soc.heap (.clks i)).aliasName = some n)) =
      some i := by
    rw [named.count, List.find?_range_eq_some]
    refine ⟨?_, List.mem_range.mpr lt, fun j before => ?_⟩
    · rw [decide_eq_true_eq, ← place]
      exact Or.inl (named.name n other)
    · obtain ⟨m, other', place'⟩ := copy_surj (Nat.lt_trans before lt)
      have name := named.name m other'
      have noAlias := named.aliasName m other'
      rw [place'] at name noAlias
      have apart : n ≠ m := by
        rintro rfl
        cases place.symm.trans place'
        exact absurd before (Nat.lt_irrefl i)
      simp only [ClkHeap.params, Clk.params] at name noAlias
      simp [name, noAlias, apart.symm]
  unfold jzFindclk
  rw [first, place]

/-- The clocks keep their names. -/
theorem Named.params {op : ClkOp} (named : Named soc) (done : clkStep fuel soc op = .ok soc') :
    Named soc' := by
  obtain ⟨count, params⟩ := clkStep_params done
  refine ⟨count.trans named.count, fun n other => ?_, fun n other => ?_⟩
  · rw [params, (op.params_kept n.copy).1]
    exact named.name n other
  · rw [params, (op.params_kept n.copy).2.1]
    exact named.aliasName n other

theorem Named.setrate {d k : BitVec 32} (named : Named soc)
    (done : setrateNamed fuel soc n d k = .ok soc') (other : n ≠ .lcdPclk) :
    Named soc' ∧ clkStep fuel soc (.setrate n.copy d k) = .ok soc' := by
  rw [setrateNamed, named.find other] at done
  change clkStep fuel soc (.setrate n.copy d k) = .ok soc' at done
  exact ⟨named.params done, done⟩

theorem Named.reparent (named : Named soc) (done : reparentNamed fuel soc n m = .ok soc')
    (other : n ≠ .lcdPclk) (other' : m ≠ .lcdPclk) :
    Named soc' ∧ clkStep fuel soc (.reparent n.copy (some m.copy)) = .ok soc' := by
  rw [reparentNamed, named.find other, named.find other'] at done
  change clkStep fuel soc (.reparent n.copy (some m.copy)) = .ok soc' at done
  exact ⟨named.params done, done⟩

end Find

section Init

variable {fuel : Nat} {freq : BitVec 32} {s : Jz4740Cpm}

/-- The entry of the table a clock is copied from. -/
def ClkName.place (n : ClkName) : Nat := onchipPlaces.getD n.index 0

theorem onchip_entry {n : ClkName} (other : n ≠ .lcdPclk) :
    let c := onchipClks.getD n.place Clk.zero
    c.params = ⟨some n, none, n.parent.map fun m => .onchip m.place,
      alwaysEnabled ||| clockInJz4740, false, 0, 0⟩ := by
  cases n <;> first | rfl | exact (other rfl).elim

theorem place_inj {n m : ClkName} (same : n.place = m.place) (other : n ≠ .lcdPclk)
    (other' : m ≠ .lcdPclk) : n = m := by
  have first := congrArg ClkParams.name (onchip_entry other)
  rw [same, congrArg ClkParams.name (onchip_entry other')] at first
  exact (Option.some.inj first).symm

theorem parent_ne {n m : ClkName} (up : n.parent = some m) : m ≠ .lcdPclk := by
  cases n <;> cases up <;> exact nofun

/-- Every clock has the divisor one and the parent the table names. -/
theorem jz4740Init_params (started : jz4740Init fuel freq = .ok s) :
    s.soc.count = 14 ∧ ∀ n : ClkName, n ≠ .lcdPclk → s.soc.heap.params n.copy =
      ⟨some n, none, n.parent.map ClkName.copy, alwaysEnabled ||| clockInJz4740, false, 1, 1⟩ := by
  obtain ⟨soc, done, rfl⟩ := of_map_eq_ok started
  obtain ⟨count, params⟩ := jzClkInit_params (onchip_good freq) done
  rw [onchip_entries] at count
  have source : ∀ m : ClkName, (onchipHeap onchipClks 0 freq).source clockInJz4740
      onchipClks.length m.index = m.place := by
    intro m
    rw [ClkHeap.source, onchip_entries, ClkName.place]
  refine ⟨count, fun n other => ?_⟩
  obtain ⟨i, lt, index⟩ := copy_lt other
  cases index
  have entry : (onchipHeap onchipClks 0 freq (.onchip n.place)).params =
      (onchipClks.getD n.place Clk.zero).params := by
    rw [onchip_rest]
    rfl
  rw [onchip_entry other] at entry
  have parent := congrArg ClkParams.parent entry
  have full : (onchipHeap onchipClks 0 freq (.onchip n.place)).defaults.params =
      { (onchipHeap onchipClks 0 freq (.onchip n.place)).params with
        divisor := 1, multiplier := 1 } := by
    have divisor := congrArg ClkParams.divisor entry
    have multiplier := congrArg ClkParams.multiplier entry
    change (onchipHeap onchipClks 0 freq (.onchip n.place)).divisor = 0 at divisor
    change (onchipHeap onchipClks 0 freq (.onchip n.place)).multiplier = 0 at multiplier
    simp only [Clk.defaults, Clk.params, divisor, multiplier]
    rfl
  rcases params n.index (count ▸ lt) with ⟨top, same⟩ | ⟨k, hk, up, same⟩
  · rw [source, full, entry] at same
    rw [source] at top
    have root := parent.symm.trans top
    rw [Option.map_eq_none_iff] at root
    rw [root]
    exact same
  · rw [source, full, entry] at same
    rw [source] at up
    obtain ⟨m, up', place⟩ := Option.map_eq_some_iff.mp (parent.symm.trans up)
    rw [count] at hk
    obtain ⟨m', other', index⟩ := copy_surj hk
    cases index
    rw [source] at place
    cases place_inj (ClkPtr.onchip.inj place) (parent_ne up') other'
    rw [up']
    exact same

theorem jz4740Init_named (started : jz4740Init fuel freq = .ok s) : Named s.soc := by
  obtain ⟨count, params⟩ := jz4740Init_params started
  exact ⟨count, fun n other => by rw [params n other], fun n other => by rw [params n other]⟩

end Init

/-! ## What a write does -/

/-- The clock operations of `jz4740_cpccr_update`. -/
def cpccrOps (v : BitVec 32) : List ClkOp :=
  let div (i : BitVec 32) := divTable.getD i.toNat 0
  [.setrate ClkName.pllDivider.copy (if v &&& cpccrPcs ≠ 0#32 then 1 else 2) 1,
   .setrate ClkName.ldclk.copy (cpccrLdiv v + 1) 1,
   .setrate ClkName.mclk.copy (div (cpccrMdiv v)) 1,
   .setrate ClkName.pclk.copy (div (cpccrPdiv v)) 1,
   .setrate ClkName.hclk.copy (div (cpccrHdiv v)) 1,
   .setrate ClkName.cclk.copy (div (cpccrCdiv v)) 1,
   .setrate ClkName.usbclk.copy (div (cpccrUdiv v)) 1,
   .reparent ClkName.usbclk.copy
     (some (if v &&& cpccrUcs ≠ 0#32 then ClkName.pllDivider else .oscExtal).copy),
   .reparent ClkName.i2sclk.copy
     (some (if v &&& cpccrI2cs ≠ 0#32 then ClkName.pllDivider else .oscExtal).copy)]

/-- The five lookups in `div_table` find an entry. -/
structure InDivTable (v : BitVec 32) : Prop where
  mdiv : (cpccrMdiv v).toNat < 10
  pdiv : (cpccrPdiv v).toNat < 10
  hdiv : (cpccrHdiv v).toNat < 10
  cdiv : (cpccrCdiv v).toNat < 10
  udiv : (cpccrUdiv v).toNat < 10

/-- The PLL multiplies the crystal. -/
def PllOn (v : BitVec 32) : Prop := v &&& cppcrPllen ≠ 0#32 ∧ v &&& cppcrPllbp = 0#32

instance (v : BitVec 32) : Decidable (PllOn v) := inferInstanceAs (Decidable (_ ∧ _))

/-- The clock operation of `jz4740_cppcr_update`. -/
def cppcrOp (v : BitVec 32) : ClkOp :=
  if PllOn v then .setrate ClkName.pllOutput.copy
    ((cppcrPlln v + 2) * pll0.getD (cppcrPllod v).toNat 0) (cppcrPllm v + 2)
  else .setrate ClkName.pllOutput.copy 1 1

section Effects

variable {fuel : Nat} {s t : Jz4740Cpm} {v : BitVec 32} {out : Option (BitVec 32)}

theorem of_readTable {table : List (BitVec 32)} {i x : BitVec 32}
    (done : readTable table i = .ok x) : i.toNat < table.length ∧ x = table.getD i.toNat 0 := by
  unfold readTable at done
  split at done
  · next y found =>
    cases done
    obtain ⟨lt, -⟩ := List.getElem?_eq_some_iff.mp found
    exact ⟨lt, by rw [List.getD_eq_getElem?_getD, found, Option.getD_some]⟩
  · cases done

theorem of_cpccrUpdate (named : Named s.soc) (done : jz4740CpccrUpdate fuel s v = .ok t) :
    v = s.cpccr ∧ t = s ∨
    v ≠ s.cpccr ∧ InDivTable v ∧ ∃ soc, Named soc ∧
      (cpccrOps v).foldlM (clkStep fuel) s.soc = .ok soc ∧
      t = { s with soc := soc, cpccr := v } := by
  unfold jz4740CpccrUpdate at done
  split at done
  · next same =>
    cases done
    exact Or.inl ⟨same, rfl⟩
  · next changed =>
    refine Or.inr ⟨changed, ?_⟩
    obtain ⟨soc₁, first, done⟩ := of_bind_eq_ok done
    obtain ⟨mdiv, mRead, done⟩ := of_bind_eq_ok done
    obtain ⟨pdiv, pRead, done⟩ := of_bind_eq_ok done
    obtain ⟨hdiv, hRead, done⟩ := of_bind_eq_ok done
    obtain ⟨cdiv, cRead, done⟩ := of_bind_eq_ok done
    obtain ⟨udiv, uRead, done⟩ := of_bind_eq_ok done
    obtain ⟨soc₂, second, done⟩ := of_bind_eq_ok done
    obtain ⟨soc₃, third, done⟩ := of_bind_eq_ok done
    obtain ⟨soc₄, fourth, done⟩ := of_bind_eq_ok done
    obtain ⟨soc₅, fifth, done⟩ := of_bind_eq_ok done
    obtain ⟨soc₆, sixth, done⟩ := of_bind_eq_ok done
    obtain ⟨soc₇, seventh, done⟩ := of_bind_eq_ok done
    obtain ⟨soc₈, eighth, done⟩ := of_bind_eq_ok done
    obtain ⟨soc₉, ninth, done⟩ := of_bind_eq_ok done
    obtain ⟨-, -, done⟩ := of_bind_eq_ok done
    cases done
    rw [← apply_ite (fun d => setrateNamed fuel s.soc .pllDivider d 1)] at first
    rw [← apply_ite (fun p => reparentNamed fuel soc₇ .usbclk p)] at eighth
    rw [← apply_ite (fun p => reparentNamed fuel soc₈ .i2sclk p)] at ninth
    obtain ⟨named, first⟩ := named.setrate first nofun
    obtain ⟨named, second⟩ := named.setrate second nofun
    obtain ⟨named, third⟩ := named.setrate third nofun
    obtain ⟨named, fourth⟩ := named.setrate fourth nofun
    obtain ⟨named, fifth⟩ := named.setrate fifth nofun
    obtain ⟨named, sixth⟩ := named.setrate sixth nofun
    obtain ⟨named, seventh⟩ := named.setrate seventh nofun
    obtain ⟨named, eighth⟩ := named.reparent eighth nofun (by split <;> exact nofun)
    obtain ⟨named, ninth⟩ := named.reparent ninth nofun (by split <;> exact nofun)
    obtain ⟨m, rfl⟩ := of_readTable mRead
    obtain ⟨p, rfl⟩ := of_readTable pRead
    obtain ⟨h, rfl⟩ := of_readTable hRead
    obtain ⟨c, rfl⟩ := of_readTable cRead
    obtain ⟨u, rfl⟩ := of_readTable uRead
    refine ⟨⟨m, p, h, c, u⟩, soc₉, named, ?_, rfl⟩
    exact foldlM_cons_ok first (foldlM_cons_ok second (foldlM_cons_ok third
      (foldlM_cons_ok fourth (foldlM_cons_ok fifth (foldlM_cons_ok sixth
      (foldlM_cons_ok seventh (foldlM_cons_ok eighth (foldlM_cons_ok ninth rfl))))))))

theorem of_cppcrUpdate (named : Named s.soc) (done : jz4740CppcrUpdate fuel s v = .ok t) :
    ∃ soc, Named soc ∧ clkStep fuel s.soc (cppcrOp v) = .ok soc ∧
      t = { s with soc := soc, cppcr := if PllOn v then v else v ||| cppcrPlls } := by
  unfold jz4740CppcrUpdate at done
  dsimp only at done
  split at done
  · next off =>
    have still : ¬ PllOn v := by
      unfold PllOn
      tauto
    obtain ⟨soc, first, done⟩ := of_bind_eq_ok done
    cases done
    obtain ⟨named, first⟩ := named.setrate first nofun
    rw [cppcrOp, if_neg still, if_neg still]
    exact ⟨soc, named, first, rfl⟩
  · next on =>
    have runs : PllOn v := by
      unfold PllOn
      tauto
    obtain ⟨od, read, done⟩ := of_bind_eq_ok done
    obtain ⟨-, rfl⟩ := of_readTable read
    obtain ⟨soc, first, done⟩ := of_bind_eq_ok done
    obtain ⟨-, -, done⟩ := of_bind_eq_ok done
    cases done
    obtain ⟨named, first⟩ := named.setrate first nofun
    rw [cppcrOp, if_pos runs, if_pos runs]
    exact ⟨soc, named, first, rfl⟩

theorem of_cdrUpdate {clk : ClkName} {held : BitVec 32} {store : JzClks ClkName → Jz4740Cpm}
    (named : Named s.soc) (done : cdrUpdate fuel s clk held v store = .ok t)
    (other : clk ≠ .lcdPclk) :
    v = held ∧ t = s ∨
    v ≠ held ∧ ∃ soc, Named soc ∧
      clkStep fuel s.soc (.setrate clk.copy (v + 1) 1) = .ok soc ∧ t = store soc := by
  unfold cdrUpdate at done
  split at done
  · next same =>
    cases done
    exact Or.inl ⟨same, rfl⟩
  · next changed =>
    obtain ⟨soc, first, done⟩ := of_bind_eq_ok done
    obtain ⟨-, -, done⟩ := of_bind_eq_ok done
    cases done
    obtain ⟨named, first⟩ := named.setrate first other
    exact Or.inr ⟨changed, soc, named, first, rfl⟩

/-- The divider registers with a clock of their own. -/
inductive Cdr where
  | i2scdr
  | msccdr
  deriving DecidableEq

def Cdr.addr : Cdr → Nat
  | .i2scdr => 0x60
  | .msccdr => 0x68

def Cdr.clk : Cdr → ClkName
  | .i2scdr => .i2sclk
  | .msccdr => .mscclk

def Cdr.mask : Cdr → BitVec 32
  | .i2scdr => i2scdrI2sdivMask
  | .msccdr => msccdrMscdivMask

def Cdr.held : Cdr → Jz4740Cpm → BitVec 32
  | .i2scdr, s => s.i2scdr
  | .msccdr, s => s.msccdr

def Cdr.store (s : Jz4740Cpm) (soc : JzClks ClkName) (v : BitVec 32) : Cdr → Jz4740Cpm
  | .i2scdr => { s with soc := soc, i2scdr := v }
  | .msccdr => { s with soc := soc, msccdr := v }

/-- The access changes nothing the tree depends on. -/
def CpmAccess.Quiet (a : CpmAccess) (s : Jz4740Cpm) : Prop :=
  ∀ v, (a = .write 0x0 v → v = s.cpccr) ∧ a ≠ .write 0x10 v ∧
    ∀ r : Cdr, a = .write r.addr v → v &&& r.mask = r.held s

/-- What an access can do to the tree and to the registers that describe it. -/
inductive CpmEffect (fuel : Nat) (s : Jz4740Cpm) : CpmAccess → Jz4740Cpm → Prop
  | quiet {a : CpmAccess} {t : Jz4740Cpm} (quiet : a.Quiet s) (soc : t.soc = s.soc)
    (cpccr : t.cpccr = s.cpccr) (cppcr : t.cppcr = s.cppcr)
    (cdrs : ∀ r : Cdr, r.held t = r.held s) : CpmEffect fuel s a t
  | cpccr {v : BitVec 32} {soc : JzClks ClkName} (changed : v ≠ s.cpccr) (fields : InDivTable v)
    (ops : (cpccrOps v).foldlM (clkStep fuel) s.soc = .ok soc) :
    CpmEffect fuel s (.write 0x0 v) { s with soc := soc, cpccr := v }
  | cppcr {v : BitVec 32} {soc : JzClks ClkName} (op : clkStep fuel s.soc (cppcrOp v) = .ok soc) :
    CpmEffect fuel s (.write 0x10 v)
      { s with soc := soc, cppcr := if PllOn v then v else v ||| cppcrPlls }
  | cdr {v : BitVec 32} {soc : JzClks ClkName} (r : Cdr) (changed : v &&& r.mask ≠ r.held s)
    (op : clkStep fuel s.soc (.setrate r.clk.copy ((v &&& r.mask) + 1) 1) = .ok soc) :
    CpmEffect fuel s (.write r.addr v) (r.store s soc (v &&& r.mask))

/-- A register without a clock is accessed. -/
theorem CpmEffect.other {addr : Nat} (soc : t.soc = s.soc) (cpccr : t.cpccr = s.cpccr)
    (cppcr : t.cppcr = s.cppcr) (cdrs : ∀ r : Cdr, r.held t = r.held s)
    (apart : addr ≠ 0x0 ∧ addr ≠ 0x10 ∧ ∀ r : Cdr, addr ≠ r.addr) :
    CpmEffect fuel s (.write addr v) t := by
  refine .quiet (fun v' => ⟨?_, ?_, fun r => ?_⟩) soc cpccr cppcr cdrs
  · rintro ⟨⟩
    exact (apart.1 rfl).elim
  · rintro ⟨⟩
    exact apart.2.1 rfl
  · intro same
    cases same
    exact (apart.2.2 r rfl).elim

theorem cdrUpdate_effect (r : Cdr) (named : Named s.soc)
    (done : cdrUpdate fuel s r.clk (r.held s) (v &&& r.mask)
      (fun soc => r.store s soc (v &&& r.mask)) = .ok t) :
    Named t.soc ∧ CpmEffect fuel s (.write r.addr v) t := by
  rcases of_cdrUpdate named done (by cases r <;> exact nofun) with
    ⟨same, rfl⟩ | ⟨changed, soc, named, op, rfl⟩
  · refine ⟨named, .quiet (fun v' => ⟨?_, ?_, fun r' => ?_⟩) rfl rfl rfl fun _ => rfl⟩
    · cases r <;> exact nofun
    · cases r <;> exact nofun
    · intro access
      obtain ⟨addr, rfl⟩ := CpmAccess.write.inj access
      cases r <;> cases r' <;> first | exact same | cases addr
  · refine ⟨?_, .cdr r changed op⟩
    cases r <;> exact named

theorem cpmStep_effect {a : CpmAccess} (named : Named s.soc)
    (done : cpmStep fuel s a = .ok (t, out)) : Named t.soc ∧ CpmEffect fuel s a t := by
  cases a with
  | read addr =>
    obtain ⟨v, -, same⟩ := of_map_eq_ok done
    cases same
    exact ⟨named, .quiet (fun _ => ⟨nofun, nofun, nofun⟩) rfl rfl rfl fun _ => rfl⟩
  | write addr value =>
    obtain ⟨t, written, same⟩ := of_map_eq_ok done
    cases same
    have other : ∀ {t : Jz4740Cpm}, t.soc = s.soc → t.cpccr = s.cpccr → t.cppcr = s.cppcr →
        (∀ r : Cdr, r.held t = r.held s) →
        (addr ≠ 0x0 ∧ addr ≠ 0x10 ∧ ∀ r : Cdr, addr ≠ r.addr) →
        Named t.soc ∧ CpmEffect fuel s (.write addr value) t := fun soc cpccr cppcr cdrs apart =>
      ⟨soc ▸ named, .other soc cpccr cppcr cdrs apart⟩
    have cdr : ∀ n, n ≠ 0x60 → n ≠ 0x68 → ∀ r : Cdr, n ≠ r.addr := by
      rintro n one two (_ | _) <;> assumption
    unfold jz4740CpmWrite at written
    split at written
    · rcases of_cpccrUpdate named written with ⟨same, rfl⟩ | ⟨changed, fields, soc, named, ops, rfl⟩
      · refine ⟨named, .quiet (fun v => ⟨?_, nofun, ?_⟩) rfl rfl rfl fun _ => rfl⟩
        · rintro ⟨⟩
          exact same
        · rintro (_ | _) <;> exact nofun
      · exact ⟨named, .cpccr changed fields ops⟩
    case h_5 =>
      obtain ⟨soc, named, op, rfl⟩ := of_cppcrUpdate named written
      exact ⟨named, .cppcr op⟩
    case h_6 => exact cdrUpdate_effect .i2scdr named written
    case h_8 => exact cdrUpdate_effect .msccdr named written
    case h_12 => cases written
    all_goals
      cases written
      exact other rfl rfl rfl (by rintro (_ | _) <;> rfl)
        ⟨by decide, by decide, cdr _ (by decide) (by decide)⟩

end Effects

end VirtualNoah
