import VirtualNoah.Clock.RunningRates
import VirtualNoah.Soc.CpmAgree

/-!
# The rates of the tree and the rates of the guest kernel

The kernel computes its clock rates from the registers it reads back.  All clocks
of the JZ4740 run, so the rates of the tree are right after every write; the tree
multiplies and divides the crystal's rate once, the kernel rounds the PLL's
reference first.  The two agree when that rounding loses nothing.
-/

namespace VirtualNoah

open SiblingForest StepRun

/-! ## The functions of the kernel -/

/-- The registers `clock.h` reads. -/
structure CpmRegs where
  cpccr : BitVec 32
  cppcr : BitVec 32
  i2scdr : BitVec 32
  msccdr : BitVec 32

def jzExtal : BitVec 32 := 12000000

section Kernel

variable (r : CpmRegs)

def cpmGetPllm : BitVec 32 := (r.cppcr &&& (0x1ff#32 <<< 23)) >>> 23
def cpmGetPlln : BitVec 32 := (r.cppcr &&& (0x1f#32 <<< 18)) >>> 18
def cpmGetPllod : BitVec 32 := (r.cppcr &&& (0x03#32 <<< 16)) >>> 16
def cpmGetCdiv : BitVec 32 := (r.cpccr &&& (0x0f#32 <<< 0)) >>> 0
def cpmGetHdiv : BitVec 32 := (r.cpccr &&& (0x0f#32 <<< 4)) >>> 4
def cpmGetPdiv : BitVec 32 := (r.cpccr &&& (0x0f#32 <<< 8)) >>> 8
def cpmGetMdiv : BitVec 32 := (r.cpccr &&& (0x0f#32 <<< 12)) >>> 12
def cpmGetLdiv : BitVec 32 := (r.cpccr &&& (0x1f#32 <<< 16)) >>> 16
def cpmGetUdiv : BitVec 32 := (r.cpccr &&& (0x3f#32 <<< 23)) >>> 23
def cpmGetI2sdiv : BitVec 32 := (r.i2scdr &&& (0x1ff#32 <<< 0)) >>> 0
def cpmGetMscdiv : BitVec 32 := (r.msccdr &&& (0x1f#32 <<< 0)) >>> 0

/-- `od` of `__cpm_get_pllout` -/
def pllOd : List (BitVec 32) := [1, 2, 2, 4]

/-- `div` of the four functions that look up their divisor -/
def cpmDiv : List (BitVec 32) := [1, 2, 3, 4, 6, 8, 12, 16, 24, 32]

def cpmGetPllout : Except Fault (BitVec 32) :=
  if r.cppcr &&& cppcrPllen ≠ 0#32 ∧ r.cppcr &&& cppcrPllbp = 0#32 then do
    let no ← readTable pllOd (cpmGetPllod r)
    return jzExtal / ((cpmGetPlln r + 2) * no) * (cpmGetPllm r + 2)
  else .ok jzExtal

def cpmGetPllout2 : Except Fault (BitVec 32) := do
  let pllout ← cpmGetPllout r
  return if r.cpccr &&& cpccrPcs ≠ 0#32 then pllout else pllout / 2

/-- `__cpm_get_pllout() / div[field]` -/
def cpmPlloutDiv (field : BitVec 32) : Except Fault (BitVec 32) := do
  let pllout ← cpmGetPllout r
  let d ← readTable cpmDiv field
  return pllout / d

def cpmGetCclk : Except Fault (BitVec 32) := cpmPlloutDiv r (cpmGetCdiv r)
def cpmGetHclk : Except Fault (BitVec 32) := cpmPlloutDiv r (cpmGetHdiv r)
def cpmGetMclk : Except Fault (BitVec 32) := cpmPlloutDiv r (cpmGetMdiv r)
def cpmGetPclk : Except Fault (BitVec 32) := cpmPlloutDiv r (cpmGetPdiv r)

/-- `__cpm_get_pllout2() / (field + 1)` -/
def cpmPllout2Div (field : BitVec 32) : Except Fault (BitVec 32) := do
  let pllout2 ← cpmGetPllout2 r
  return pllout2 / (field + 1)

def cpmGetLcdclk : Except Fault (BitVec 32) := cpmPllout2Div r (cpmGetLdiv r)
def cpmGetMscclk : Except Fault (BitVec 32) := cpmPllout2Div r (cpmGetMscdiv r)

def cpmGetI2sclk : Except Fault (BitVec 32) :=
  if r.cpccr &&& cpccrI2cs ≠ 0#32 then cpmPllout2Div r (cpmGetI2sdiv r) else .ok jzExtal

def cpmGetUsbclk : Except Fault (BitVec 32) :=
  if r.cpccr &&& cpccrUcs ≠ 0#32 then cpmPllout2Div r (cpmGetUdiv r) else .ok jzExtal

end Kernel

/-! ## The tree under CPM writes -/

/-- The flags and the parents of the JZ4740's clocks. -/
structure Wired (f : ClkPtr → ClkParams ClkName) : Prop where
  flags : ∀ n : ClkName, n ≠ .lcdPclk → (f n.copy).flags = alwaysEnabled ||| clockInJz4740
  parent : ∀ n : ClkName, n ≠ .lcdPclk → n ≠ .usbclk → n ≠ .i2sclk →
    (f n.copy).parent = n.parent.map ClkName.copy
  source : ∀ n : ClkName, n = .usbclk ∨ n = .i2sclk → Hangs f n .pllDivider ∨ Hangs f n .oscExtal

/-- What every CPM write keeps. -/
structure Clocked (soc : JzClks ClkName) : Prop where
  named : Named soc
  wired : Wired soc.heap.params
  ticking : soc.Ticking
  rates : soc.RatesRight
  crystal : (soc.heap ClkName.oscExtal.copy).rate = 12000000

/-- The clock operations of the CPM. -/
inductive CpmOp : ClkOp → Prop
  | setrate {n : ClkName} {d k : BitVec 32} (other : n ≠ .lcdPclk) : CpmOp (.setrate n.copy d k)
  | reparent {n p : ClkName} (clk : n = .usbclk ∨ n = .i2sclk)
    (source : p = .pllDivider ∨ p = .oscExtal) : CpmOp (.reparent n.copy (some p.copy))

section Ops

variable {fuel : Nat} {soc soc' : JzClks ClkName} {f : ClkPtr → ClkParams ClkName} {op : ClkOp}
  {n p : ClkName} {v d k : BitVec 32}

theorem Named.mem_nodes (named : Named soc) (other : n ≠ .lcdPclk) :
    n.copy ∈ clkNodes soc.count := by
  obtain ⟨i, lt, place⟩ := copy_lt other
  exact ⟨i, named.count ▸ lt, place⟩

theorem Named.of_mem_nodes (named : Named soc) {q : ClkPtr} (inside : q ∈ clkNodes soc.count) :
    ∃ n : ClkName, n ≠ .lcdPclk ∧ q = n.copy := by
  obtain ⟨i, lt, rfl⟩ := inside
  obtain ⟨n, other, place⟩ := copy_surj (named.count ▸ lt)
  exact ⟨n, other, place.symm⟩

theorem CpmOp.wired (cpm : CpmOp op) (wired : Wired f) : Wired (op.params f) := by
  obtain ⟨flags, parent, source⟩ := wired
  refine ⟨fun n lcd => ?_, fun n lcd usb i2s => ?_, fun n which => ?_⟩
  · rw [(op.params_kept n.copy).2.2]
    exact flags n lcd
  · rw [← parent n lcd usb i2s]
    cases cpm with
    | setrate other => exact ClkOp.setrate_parent n.copy
    | @reparent m p clk source' =>
      have apart : n ≠ m := by
        rcases clk with rfl | rfl
        · exact usb
        · exact i2s
      simp only [ClkOp.params, Function.update_of_ne fun same => apart (copy_inj same)]
  · cases cpm with
    | setrate other =>
      rw [hangs_setrate, hangs_setrate]
      exact source n which
    | @reparent m p clk source' =>
      rw [hangs_reparent, hangs_reparent]
      split
      · exact source'
      · exact source n which

/-- All clocks run. -/
theorem Clocked.runs (clocked : Clocked soc) {q : ClkPtr} (inside : q ∈ clkNodes soc.count) :
    soc.heap.Wanted q ∧ soc.heap.Runs q := by
  have wanted : ∀ q ∈ clkNodes soc.count, soc.heap.Wanted q := by
    intro q inside
    obtain ⟨n, other, rfl⟩ := clocked.named.of_mem_nodes inside
    refine Or.inr ?_
    rw [show (soc.heap n.copy).flags = _ from clocked.wired.flags n other]
    decide
  refine ⟨wanted q inside, ?_⟩
  refine (running_iff clocked.ticking.forest clocked.ticking.consistent q inside).mpr
    fun y above => wanted y ?_
  exact clocked.ticking.forest.toListed.above inside above

/-- The two clocks that change their parents are above none of these parents. -/
theorem Wired.not_below (wired : Wired soc.heap.params) (clk : n = .usbclk ∨ n = .i2sclk)
    (source : p = .pllDivider ∨ p = .oscExtal) : ¬ Below soc.heap.links p.copy n.copy := by
  have divider : (soc.heap ClkName.pllDivider.copy).parent = some ClkName.pllOutput.copy :=
    wired.parent .pllDivider nofun nofun nofun
  have output : (soc.heap ClkName.pllOutput.copy).parent = some ClkName.oscExtal.copy :=
    wired.parent .pllOutput nofun nofun nofun
  have osc : (soc.heap ClkName.oscExtal.copy).parent = none :=
    wired.parent .oscExtal nofun nofun nofun
  have apart : ∀ m : ClkName, m = .pllDivider ∨ m = .pllOutput ∨ m = .oscExtal →
      m.copy ≠ n.copy := by
    rintro m which same
    cases copy_inj same
    rcases clk with rfl | rfl <;> rcases which with same | same | same <;> cases same
  have top : ¬ Below soc.heap.links ClkName.oscExtal.copy n.copy := fun below =>
    apart .oscExtal (Or.inr (Or.inr rfl)) (below.eq_of_root osc)
  rcases source with rfl | rfl
  · intro below
    rcases below.cases_parent with same | ⟨q, up, below⟩
    · exact apart .pllDivider (Or.inl rfl) same
    · cases divider.symm.trans up
      rcases below.cases_parent with same | ⟨q, up, below⟩
      · exact apart .pllOutput (Or.inr (Or.inl rfl)) same
      · cases output.symm.trans up
        exact top below
  · exact top

theorem CpmOp.nonNull (cpm : CpmOp op) : op.NonNull := by
  cases cpm with
  | setrate _ => trivial
  | reparent _ _ => exact nofun

theorem CpmOp.allowed (cpm : CpmOp op) (named : Named soc) (wired : Wired soc.heap.params) :
    op.Allowed soc := by
  cases cpm with
  | setrate other => exact named.mem_nodes other
  | @reparent m p clk source =>
    refine ⟨named.mem_nodes (by rcases clk with rfl | rfl <;> exact nofun), fun q same => ?_⟩
    cases same
    exact ⟨named.mem_nodes (by rcases source with rfl | rfl <;> exact nofun),
      wired.not_below clk source⟩

theorem Clocked.step (clocked : Clocked soc) (cpm : CpmOp op)
    (done : clkStep fuel soc op = .ok soc') : Clocked soc' := by
  obtain ⟨count, params⟩ := clkStep_params done
  have named := clocked.named
  have wired : Wired soc'.heap.params := params ▸ cpm.wired clocked.wired
  have allowed := cpm.allowed named clocked.wired
  have nonNull := cpm.nonNull
  have fed : ∀ q, soc.Feeds q → q ∈ clkNodes soc.count := by
    rintro q ⟨c, inside, up⟩
    exact clocked.ticking.forest.closed c inside q up
  have passes : op.Passes soc := by
    cases cpm with
    | setrate other => exact fun q _ feeds => (clocked.runs (fed q feeds)).2
    | @reparent m p clk source =>
      refine fun q _ feeds => ⟨(clocked.runs (fed q feeds)).1, fun y same => ?_⟩
      exact (clocked.runs (allowed.2 y same).1).2
  refine ⟨named.params done, wired, clkStep_ticking clocked.ticking allowed nonNull done,
    clkStep_ratesRight clocked.ticking clocked.rates allowed nonNull passes done, ?_⟩
  rw [clkStep_root_rate clocked.ticking allowed nonNull done
    (wired.parent .oscExtal nofun nofun nofun)]
  exact clocked.crystal

theorem cpmOp_cpccrOps : ∀ op ∈ cpccrOps v, CpmOp op := by
  intro op mem
  simp only [cpccrOps, List.mem_cons, List.not_mem_nil, or_false] at mem
  rcases mem with rfl | rfl | rfl | rfl | rfl | rfl | rfl | rfl | rfl
  case inr.inr.inr.inr.inr.inr.inr.inl =>
    refine .reparent (Or.inl rfl) ?_
    split
    · exact Or.inl rfl
    · exact Or.inr rfl
  case inr.inr.inr.inr.inr.inr.inr.inr =>
    refine .reparent (Or.inr rfl) ?_
    split
    · exact Or.inl rfl
    · exact Or.inr rfl
  all_goals exact .setrate (by decide)

theorem cpmOp_cppcrOp : CpmOp (cppcrOp v) := by
  unfold cppcrOp
  split <;> exact .setrate nofun

end Ops

section Runs

variable {fuel : Nat} {s t : Jz4740Cpm} {a : CpmAccess} {accesses : List CpmAccess}
  {outs : List (Option (BitVec 32))}

theorem CpmEffect.clocked (effect : CpmEffect fuel s a t) (clocked : Clocked s.soc) :
    Clocked t.soc := by
  cases effect with
  | quiet quiet soc cpccr cppcr cdrs => exact soc ▸ clocked
  | cpccr changed fields ops =>
    exact foldlM_invariant Clocked (fun op mem clocked => clocked.step (cpmOp_cpccrOps op mem))
      clocked ops
  | cppcr op => exact clocked.step cpmOp_cppcrOp op
  | @cdr v soc r changed op =>
    rw [(store_rest r s soc (v &&& r.mask)).1]
    exact clocked.step (.setrate (by cases r <;> exact nofun)) op

/-- `jz4740_init` wires the clocks as the table says, and all flags are right. -/
theorem jz4740Init_wired {freq : BitVec 32} (started : jz4740Init fuel freq = .ok s) :
    Wired s.soc.heap.params ∧ s.soc.Ticking := by
  have params := (jz4740Init_params started).2
  obtain ⟨soc, done, rfl⟩ := of_map_eq_ok started
  refine ⟨⟨fun n lcd => ?_, fun n lcd _ _ => ?_, fun n which => Or.inl ?_⟩,
    (jzClkInit_right (onchip_good freq) done).1⟩
  · exact congrArg ClkParams.flags (params n lcd)
  · exact congrArg ClkParams.parent (params n lcd)
  · rcases which with rfl | rfl
    · exact congrArg ClkParams.parent (params .usbclk nofun)
    · exact congrArg ClkParams.parent (params .i2sclk nofun)

theorem jz4740Init_clocked (started : jz4740Init fuel 12000000 = .ok s) : Clocked s.soc := by
  have named := jz4740Init_named started
  obtain ⟨wired, ticking⟩ := jz4740Init_wired started
  obtain ⟨soc, done, rfl⟩ := of_map_eq_ok started
  obtain ⟨-, rates, roots⟩ := jzClkInit_right (onchip_good 12000000) done
  refine ⟨named, wired, ticking, rates, ?_⟩
  have count : 0 < soc.count := named.count ▸ (by decide)
  have rate := roots 0 count (wired.parent .oscExtal nofun nofun nofun)
  rw [ClkHeap.source, onchip_entries] at rate
  exact rate

theorem clocked_run (started : jz4740Init fuel 12000000 = .ok s)
    (completed : cpmRun fuel s accesses = .ok (t, outs)) : Clocked t.soc :=
  run_keeps (fun s => Clocked s.soc) (fun clocked done =>
    (cpmStep_effect clocked.named done).2.clocked clocked) (jz4740Init_clocked started) completed

end Runs

/-! ## Rates -/

section Rates

variable {soc : JzClks ClkName} {n p : ClkName} {d k : BitVec 32} {D K : Nat}

/-- The clock hangs below the crystal with these products. -/
def Fed (soc : JzClks ClkName) (n : ClkName) (D K : Nat) : Prop :=
  Path soc.heap Any n.copy ClkName.oscExtal.copy D K

theorem fed_crystal : Fed soc .oscExtal 1 1 := .here

theorem Fed.step (fed : Fed soc p D K) (hangs : Hangs soc.heap.params n p)
    (ratio : Ratio soc.heap.params n d k) : Fed soc n (D * d.toNat) (K * k.toNat) := by
  rw [← ratio.1, ← ratio.2]
  exact Path.step fed hangs trivial

theorem Clocked.rate (clocked : Clocked soc) (other : n ≠ .lcdPclk) (fed : Fed soc n D K)
    (divisor : D < 2 ^ 32) (multiplier : K < 2 ^ 32) :
    (soc.heap n.copy).rate.toNat = 12000000 * K / D := by
  have root : (soc.heap ClkName.oscExtal.copy).parent = none :=
    clocked.wired.parent .oscExtal nofun nofun nofun
  have crystal : (soc.heap ClkName.oscExtal.copy).rate.toNat = 12000000 := by
    rw [clocked.crystal]
    rfl
  have right := clocked.rates n.copy (clocked.named.mem_nodes other)
  rw [right.toNat root fed divisor multiplier, crystal]
  rw [crystal]
  exact Nat.lt_of_le_of_lt (Nat.div_le_self ..) (by omega)

/-- The rate of the clock is what the kernel computes. -/
def AgreesOn (soc : JzClks ClkName) (n : ClkName) (kernel : Except Fault (BitVec 32)) : Prop :=
  ∃ clk rate, jzFindclk soc n = .ok clk ∧ kernel = .ok rate ∧
    (soc.heap clk).rate = rate.setWidth 64

theorem Clocked.agreesOn_iff (clocked : Clocked soc) (other : n ≠ .lcdPclk) (fed : Fed soc n D K)
    (divisor : D < 2 ^ 32) (multiplier : K < 2 ^ 32) {kernel : Except Fault (BitVec 32)}
    {rate : BitVec 32} (computes : kernel = .ok rate) :
    AgreesOn soc n kernel ↔ rate.toNat = 12000000 * K / D := by
  have wide : (rate.setWidth 64).toNat = rate.toNat := by
    rw [BitVec.toNat_setWidth]
    exact Nat.mod_eq_of_lt (by omega)
  rw [← clocked.rate other fed divisor multiplier]
  constructor
  · rintro ⟨clk, rate', found, same, agrees⟩
    cases (clocked.named.find other).symm.trans found
    cases computes.symm.trans same
    rw [agrees, wide]
  · intro same
    refine ⟨n.copy, rate, clocked.named.find other, computes, BitVec.eq_of_toNat_eq ?_⟩
    rw [wide, same]

end Rates

/-! ## The PLL -/

section Pll

/-- Divisor of `pll_output` -/
def pllDiv (v : BitVec 32) : Nat :=
  if PllOn v then ((cppcrPlln v).toNat + 2) * (pll0.getD (cppcrPllod v).toNat 0).toNat else 1

/-- Multiplier of `pll_output` -/
def pllMul (v : BitVec 32) : Nat := if PllOn v then (cppcrPllm v).toNat + 2 else 1

/-- Rounding before the multiplication loses nothing. -/
def PllExact (v : BitVec 32) : Prop := 12000000 % pllDiv v * pllMul v < pllDiv v

instance (v : BitVec 32) : Decidable (PllExact v) := inferInstanceAs (Decidable (_ < _))

variable {v : BitVec 32}

theorem pll_fields (v : BitVec 32) : (cppcrPllm v).toNat ≤ 511 ∧ (cppcrPlln v).toNat ≤ 31 ∧
    1 ≤ (pll0.getD (cppcrPllod v).toNat 0).toNat ∧
    (pll0.getD (cppcrPllod v).toNat 0).toNat ≤ 4 := by
  have od : ∀ i < pll0.length, 1 ≤ (pll0.getD i 0).toNat ∧ (pll0.getD i 0).toNat ≤ 4 := by
    decide
  exact ⟨field_toNat_le v (0x1ff#32 <<< 23) 23, field_toNat_le v (0x1f#32 <<< 18) 18,
    od _ (pllod_lt v)⟩

theorem pllDiv_bounds (v : BitVec 32) : 0 < pllDiv v ∧ pllDiv v ≤ 132 := by
  obtain ⟨-, n, low, high⟩ := pll_fields v
  unfold pllDiv
  split
  · constructor
    · exact Nat.mul_pos (by omega) (by omega)
    · have bound : ((cppcrPlln v).toNat + 2) * (pll0.getD (cppcrPllod v).toNat 0).toNat ≤ 33 * 4 :=
        Nat.mul_le_mul (by omega) high
      exact bound
  · decide

theorem pllMul_le (v : BitVec 32) : pllMul v ≤ 513 := by
  obtain ⟨m, -⟩ := pll_fields v
  unfold pllMul
  split <;> omega

/-- Dividing first and multiplying first give the same when the remainder does not
count. -/
theorem div_mul_eq_iff {a d k : Nat} (pos : 0 < d) : a / d * k = a * k / d ↔ a % d * k < d := by
  have split : a * k = d * (a / d * k) + a % d * k := by
    conv_lhs => rw [← Nat.div_add_mod a d]
    rw [Nat.add_mul, Nat.mul_assoc]
  rw [split, Nat.mul_add_div pos, ← Nat.div_eq_zero_iff_lt pos]
  omega

theorem pll_numbers (on : PllOn v) :
    ((cppcrPlln v + 2) * pll0.getD (cppcrPllod v).toNat 0).toNat = pllDiv v ∧
      (cppcrPllm v + 2).toNat = pllMul v := by
  obtain ⟨m, n, low, high⟩ := pll_fields v
  have bound : ((cppcrPlln v).toNat + 2) * (pll0.getD (cppcrPllod v).toNat 0).toNat ≤ 33 * 4 :=
    Nat.mul_le_mul (by omega) high
  have sum : ∀ x : BitVec 32, x.toNat ≤ 511 → (x + 2).toNat = x.toNat + 2 := by
    intro x small
    rw [BitVec.toNat_add]
    exact Nat.mod_eq_of_lt (by change x.toNat + 2 < 2 ^ 32; omega)
  rw [pllDiv, pllMul, if_pos on, if_pos on, BitVec.toNat_mul, sum _ (by omega), sum _ m]
  exact ⟨Nat.mod_eq_of_lt (by omega), rfl⟩

/-- The kernel divides and then multiplies. -/
theorem cpmGetPllout_eq (r : CpmRegs) : ∃ x, cpmGetPllout r = .ok x ∧
    x.toNat = 12000000 / pllDiv r.cppcr * pllMul r.cppcr := by
  by_cases on : PllOn r.cppcr
  · obtain ⟨divisor, multiplier⟩ := pll_numbers on
    have read : readTable pllOd (cpmGetPllod r) =
        .ok (pll0.getD (cppcrPllod r.cppcr).toNat 0) := readTable_of_lt (pllod_lt r.cppcr)
    refine ⟨jzExtal / ((cppcrPlln r.cppcr + 2) * pll0.getD (cppcrPllod r.cppcr).toNat 0) *
      (cppcrPllm r.cppcr + 2), ?_, ?_⟩
    · refine (if_pos on).trans ?_
      rw [read]
      rfl
    · have two : 2 ≤ pllDiv r.cppcr := by
        obtain ⟨-, -, low, -⟩ := pll_fields r.cppcr
        have bound : 2 * 1 ≤ ((cppcrPlln r.cppcr).toNat + 2) *
            (pll0.getD (cppcrPllod r.cppcr).toNat 0).toNat := Nat.mul_le_mul (by omega) low
        rw [pllDiv, if_pos on]
        exact bound
      have fits : 12000000 / pllDiv r.cppcr * pllMul r.cppcr ≤ 6000000 * 513 :=
        Nat.mul_le_mul (Nat.div_le_div_left two (by decide)) (pllMul_le r.cppcr)
      rw [BitVec.toNat_mul, BitVec.toNat_udiv, divisor, multiplier]
      exact Nat.mod_eq_of_lt (by change 12000000 / _ * _ < _; omega)
  · refine ⟨jzExtal, ?_, ?_⟩
    · exact if_neg on
    · rw [pllDiv, pllMul, if_neg on, if_neg on]
      rfl

end Pll

/-! ## Agreement -/

/-- The registers as the guest reads them back. -/
def cpmRegs (s : Jz4740Cpm) : Except Fault CpmRegs := do
  let cpccr ← jz474CpmRead s 0x0
  let cppcr ← jz474CpmRead s 0x10
  let i2scdr ← jz474CpmRead s 0x60
  let msccdr ← jz474CpmRead s 0x68
  return ⟨cpccr, cppcr, i2scdr, msccdr⟩

/-- The clocks CPCCR divides have the kernel's rates. -/
structure CpccrAgrees (soc : JzClks ClkName) (r : CpmRegs) : Prop where
  pllDivider : AgreesOn soc .pllDivider (cpmGetPllout2 r)
  cclk : AgreesOn soc .cclk (cpmGetCclk r)
  hclk : AgreesOn soc .hclk (cpmGetHclk r)
  pclk : AgreesOn soc .pclk (cpmGetPclk r)
  mclk : AgreesOn soc .mclk (cpmGetMclk r)
  ldclk : AgreesOn soc .ldclk (cpmGetLcdclk r)

section Agreement

variable {soc : JzClks ClkName} {r : CpmRegs} {n : ClkName} {d x : BitVec 32}

/-- The divisor of `pll_divider` -/
def pcsDiv (v : BitVec 32) : Nat := if v &&& cpccrPcs ≠ 0#32 then 1 else 2

/-- What the PLL's clocks owe to the registers. -/
structure PllFeeds (soc : JzClks ClkName) (r : CpmRegs) : Prop where
  clocked : Clocked soc
  output : Fed soc .pllOutput (pllDiv r.cppcr) (pllMul r.cppcr)
  divider : Fed soc .pllDivider (pllDiv r.cppcr * pcsDiv r.cpccr) (pllMul r.cppcr)

theorem fed_output {v : BitVec 32} (clocked : Clocked soc) (part : PllPart soc.heap.params v) :
    Fed soc .pllOutput (pllDiv v) (pllMul v) := by
  have hangs : Hangs soc.heap.params .pllOutput .oscExtal :=
    clocked.wired.parent .pllOutput nofun nofun nofun
  unfold PllPart at part
  split at part
  · next on =>
    have fed := fed_crystal.step hangs part
    rwa [Nat.one_mul, Nat.one_mul, (pll_numbers on).1, (pll_numbers on).2] at fed
  · next off =>
    have fed := fed_crystal.step hangs part
    rw [pllDiv, pllMul, if_neg off, if_neg off]
    exact fed

theorem pllFeeds (clocked : Clocked soc) (pll : PllPart soc.heap.params r.cppcr)
    (part : CpccrPart soc.heap.params r.cpccr) : PllFeeds soc r := by
  have output := fed_output clocked pll
  have hangs : Hangs soc.heap.params .pllDivider .pllOutput :=
    clocked.wired.parent .pllDivider nofun nofun nofun
  have divider := output.step hangs part.pllDivider
  refine ⟨clocked, output, ?_⟩
  have divisor : (if r.cpccr &&& cpccrPcs ≠ 0#32 then 1 else 2 : BitVec 32).toNat =
      pcsDiv r.cpccr := by
    unfold pcsDiv
    split <;> rfl
  rw [divisor, show pllMul r.cppcr * (1 : BitVec 32).toNat = pllMul r.cppcr from Nat.mul_one _]
    at divider
  exact divider

/-- The products stay small. -/
theorem pllDiv_mul_lt {v : BitVec 32} {m : Nat} (small : m ≤ 1024) : pllDiv v * m < 2 ^ 32 := by
  have bound : pllDiv v * m ≤ 132 * 1024 := Nat.mul_le_mul (pllDiv_bounds v).2 small
  omega

theorem pllMul_lt (v : BitVec 32) : pllMul v < 2 ^ 32 :=
  Nat.lt_of_le_of_lt (pllMul_le v) (by decide)

theorem divEntry_le {i : BitVec 32} (inside : i.toNat < 10) : (divEntry i).toNat ≤ 512 := by
  have entries : ∀ j < 10, (divTable.getD j 0).toNat ≤ 512 := by decide
  exact entries _ inside

/-- The first four entries of the table count on. -/
theorem divEntry_eq {i : BitVec 32} (small : i.toNat ≤ 3) : divEntry i = i + 1 := by
  have entries : ∀ j ≤ 3, divTable.getD j 0 = BitVec.ofNat 32 j + 1 := by decide
  have entry := entries _ small
  rw [BitVec.ofNat_toNat, BitVec.setWidth_eq] at entry
  exact entry

theorem succ_le {i : BitVec 32} (small : i.toNat ≤ 511) : (i + 1).toNat ≤ 512 := by
  rw [BitVec.toNat_add]
  exact Nat.le_trans (Nat.mod_le ..) (by change i.toNat + 1 ≤ 512; omega)

theorem cpmGetPllout_exact (exact' : PllExact r.cppcr) : ∃ x, cpmGetPllout r = .ok x ∧
    x.toNat = 12000000 * pllMul r.cppcr / pllDiv r.cppcr := by
  obtain ⟨x, computes, value⟩ := cpmGetPllout_eq r
  exact ⟨x, computes, value.trans ((div_mul_eq_iff (pllDiv_bounds _).1).mpr exact')⟩

theorem cpmGetPllout2_exact (exact' : PllExact r.cppcr) : ∃ y, cpmGetPllout2 r = .ok y ∧
    y.toNat = 12000000 * pllMul r.cppcr / (pllDiv r.cppcr * pcsDiv r.cpccr) := by
  obtain ⟨x, computes, value⟩ := cpmGetPllout_exact exact'
  refine ⟨if r.cpccr &&& cpccrPcs ≠ 0#32 then x else x / 2, ?_, ?_⟩
  · rw [cpmGetPllout2, computes]
    rfl
  · rw [← Nat.div_div_eq_div_mul, ← value]
    unfold pcsDiv
    split
    · exact (Nat.div_one _).symm
    · exact BitVec.toNat_udiv

/-- A clock below `pll_output` with a divisor of the table. -/
theorem PllFeeds.agrees_output (feeds : PllFeeds soc r) (exact' : PllExact r.cppcr)
    {field : BitVec 32} (hangs : Hangs soc.heap.params n .pllOutput)
    (ratio : Ratio soc.heap.params n (divEntry field) 1) (other : n ≠ .lcdPclk)
    (inside : field.toNat < 10) : AgreesOn soc n (cpmPlloutDiv r field) := by
  obtain ⟨x, pllout, value⟩ := cpmGetPllout_exact exact'
  have computes : cpmPlloutDiv r field = .ok (x / divEntry field) := by
    rw [cpmPlloutDiv, pllout, show readTable cpmDiv field = .ok (divEntry field) from
      readTable_of_lt inside]
    rfl
  have fed := feeds.output.step hangs ratio
  rw [show pllMul r.cppcr * (1 : BitVec 32).toNat = pllMul r.cppcr from Nat.mul_one _] at fed
  have small := divEntry_le inside
  refine (feeds.clocked.agreesOn_iff other fed (pllDiv_mul_lt (by omega)) (pllMul_lt _)
    computes).mpr ?_
  rw [BitVec.toNat_udiv, value, Nat.div_div_eq_div_mul]

/-- A clock below `pll_divider` with a divisor that counts on. -/
theorem PllFeeds.agrees_divider (feeds : PllFeeds soc r) (exact' : PllExact r.cppcr)
    {field : BitVec 32} (hangs : Hangs soc.heap.params n .pllDivider)
    (ratio : Ratio soc.heap.params n (field + 1) 1) (other : n ≠ .lcdPclk)
    (small : field.toNat ≤ 511) : AgreesOn soc n (cpmPllout2Div r field) := by
  obtain ⟨y, pllout2, value⟩ := cpmGetPllout2_exact exact'
  have computes : cpmPllout2Div r field = .ok (y / (field + 1)) := by
    rw [cpmPllout2Div, pllout2]
    rfl
  have fed := feeds.divider.step hangs ratio
  rw [show pllMul r.cppcr * (1 : BitVec 32).toNat = pllMul r.cppcr from Nat.mul_one _] at fed
  have pcs : pcsDiv r.cpccr * (field + 1).toNat ≤ 2 * 512 :=
    Nat.mul_le_mul (by unfold pcsDiv; split <;> decide) (succ_le small)
  have bound := pllDiv_mul_lt (v := r.cppcr) pcs
  rw [← Nat.mul_assoc] at bound
  refine (feeds.clocked.agreesOn_iff other fed bound (pllMul_lt _) computes).mpr ?_
  rw [BitVec.toNat_udiv, value, Nat.div_div_eq_div_mul]

/-- A clock below the crystal and the kernel's constant. -/
theorem Clocked.agrees_crystal (clocked : Clocked soc) (hangs : Hangs soc.heap.params n .oscExtal)
    (ratio : Ratio soc.heap.params n 1 1) (other : n ≠ .lcdPclk) :
    AgreesOn soc n (.ok jzExtal) := by
  have fed := fed_crystal.step hangs ratio
  exact (clocked.agreesOn_iff other fed (by decide) (by decide) rfl).mpr rfl

theorem PllFeeds.cpccrAgrees (feeds : PllFeeds soc r) (exact' : PllExact r.cppcr)
    (part : CpccrPart soc.heap.params r.cpccr) : CpccrAgrees soc r := by
  have parent := feeds.clocked.wired.parent
  constructor
  · obtain ⟨y, pllout2, value⟩ := cpmGetPllout2_exact exact'
    refine (feeds.clocked.agreesOn_iff (n := .pllDivider) nofun feeds.divider (pllDiv_mul_lt ?_)
      (pllMul_lt _) pllout2).mpr value
    unfold pcsDiv
    split <;> decide
  · exact feeds.agrees_output exact' (parent .cclk nofun nofun nofun) part.cclk nofun
      part.fields.cdiv
  · exact feeds.agrees_output exact' (parent .hclk nofun nofun nofun) part.hclk nofun
      part.fields.hdiv
  · exact feeds.agrees_output exact' (parent .pclk nofun nofun nofun) part.pclk nofun
      part.fields.pdiv
  · exact feeds.agrees_output exact' (parent .mclk nofun nofun nofun) part.mclk nofun
      part.fields.mdiv
  · refine feeds.agrees_divider exact' (parent .ldclk nofun nofun nofun) part.ldclk nofun ?_
    exact Nat.le_trans (field_toNat_le r.cpccr (0x1f#32 <<< 16) 16) (by decide)

theorem PllFeeds.agrees_usb (feeds : PllFeeds soc r) (exact' : PllExact r.cppcr)
    (part : CpccrPart soc.heap.params r.cpccr)
    (plain : if r.cpccr &&& cpccrUcs ≠ 0#32 then (cpmGetUdiv r).toNat ≤ 3
      else cpmGetUdiv r = 0#32) : AgreesOn soc .usbclk (cpmGetUsbclk r) := by
  have source := part.usbSource
  have ratio := part.usbclk
  unfold cpmGetUsbclk
  split at plain
  · next ucs =>
    rw [if_pos ucs] at source
    rw [if_pos ucs]
    rw [show divEntry (cpccrUdiv r.cpccr) = cpccrUdiv r.cpccr + 1 from divEntry_eq plain] at ratio
    exact feeds.agrees_divider exact' source ratio nofun (Nat.le_trans plain (by decide))
  · next ucs =>
    rw [if_neg ucs] at source
    rw [if_neg ucs]
    rw [show cpccrUdiv r.cpccr = 0#32 from plain] at ratio
    exact feeds.clocked.agrees_crystal source ratio nofun

variable {t : Jz4740Cpm}

/-- A divider register holds its field. -/
theorem CdrPart.field {c : Cdr} (part : CdrPart c t) :
    (c.held t &&& (c.mask <<< 0)) >>> 0 = c.held t := by
  rw [BitVec.shiftLeft_zero, BitVec.ushiftRight_zero]
  exact part.1

theorem PllFeeds.agrees_cdr (feeds : PllFeeds t.soc r) (exact' : PllExact r.cppcr) {c : Cdr}
    (part : CdrPart c t) (hangs : Hangs t.soc.heap.params c.clk .pllDivider) :
    AgreesOn t.soc c.clk (cpmPllout2Div r ((c.held t &&& (c.mask <<< 0)) >>> 0)) := by
  have small : (c.held t).toNat ≤ 511 := by
    have below := field_toNat_le (c.held t) c.mask 0
    rw [BitVec.ushiftRight_zero, part.1] at below
    cases c <;> exact Nat.le_trans below (by decide)
  rw [part.field]
  exact feeds.agrees_divider exact' hangs part.2 (by cases c <;> exact nofun) small

variable {fuel : Nat} {s : Jz4740Cpm} {accesses : List CpmAccess}
  {outs : List (Option (BitVec 32))}

/-- In every state CPM accesses lead to, `pll_output` has the kernel's rate when the
kernel's rounding is exact and only then; in that case the other clocks have the
kernel's rates, too, as far as the registers and the tree say the same. -/
theorem kernel_rates_agree (started : jz4740Init fuel 12000000 = .ok s)
    (completed : cpmRun fuel s accesses = .ok (t, outs)) : ∃ r, cpmRegs t = .ok r ∧
    (AgreesOn t.soc .pllOutput (cpmGetPllout r) ↔ PllExact r.cppcr) ∧
    (PllExact r.cppcr → (∃ a ∈ accesses, SetsCpccr a) → CpccrAgrees t.soc r ∧
      ((∃ a ∈ accesses, SetsCdr .msccdr a) → AgreesOn t.soc .mscclk (cpmGetMscclk r)) ∧
      ((if r.cpccr &&& cpccrUcs ≠ 0#32 then (cpmGetUdiv r).toNat ≤ 3 else cpmGetUdiv r = 0#32) →
        AgreesOn t.soc .usbclk (cpmGetUsbclk r)) ∧
      ((if r.cpccr &&& cpccrI2cs ≠ 0#32 then ∃ a ∈ accesses, SetsCdr .i2scdr a
          else (∃ a ∈ accesses, SetsCdr .i2scdr a) → cpmGetI2sdiv r = 0#32) →
        AgreesOn t.soc .i2sclk (cpmGetI2sclk r))) := by
  have clocked := clocked_run started completed
  have pll := pllPart_run started completed
  have cdr := cdrPart_run started completed
  let r : CpmRegs := ⟨t.cpccr, t.cppcr, t.i2scdr, t.msccdr⟩
  refine ⟨r, rfl, ?_, fun exact' set => ?_⟩
  · obtain ⟨x, pllout, value⟩ := cpmGetPllout_eq r
    rw [clocked.agreesOn_iff (n := .pllOutput) nofun (fed_output clocked pll) ?_ (pllMul_lt _)
      pllout, value]
    · exact div_mul_eq_iff (pllDiv_bounds _).1
    · exact Nat.lt_of_le_of_lt (pllDiv_bounds _).2 (by decide)
  have part : CpccrPart t.soc.heap.params r.cpccr := by
    rcases cpccrPart_run started completed with ⟨-, part⟩ | ⟨unset, -⟩
    · exact part
    · obtain ⟨a, mem, sets⟩ := set
      exact (unset a mem sets).elim
  have set_cdr : ∀ c, (∃ a ∈ accesses, SetsCdr c a) → CdrPart c t := by
    intro c set
    rcases cdr c with ⟨-, part⟩ | ⟨unset, -⟩
    · exact part
    · obtain ⟨a, mem, sets⟩ := set
      exact (unset a mem sets).elim
  have feeds := pllFeeds clocked pll part
  refine ⟨feeds.cpccrAgrees exact' part, fun msc => ?_, feeds.agrees_usb exact' part,
    fun i2s => ?_⟩
  · exact feeds.agrees_cdr exact' (set_cdr .msccdr msc)
      (clocked.wired.parent .mscclk nofun nofun nofun)
  · have source := part.i2sSource
    unfold cpmGetI2sclk
    split at i2s
    · next i2cs =>
      rw [if_pos i2cs] at source
      rw [if_pos i2cs]
      exact feeds.agrees_cdr exact' (set_cdr .i2scdr i2s) source
    · next i2cs =>
      rw [if_neg i2cs] at source
      rw [if_neg i2cs]
      refine clocked.agrees_crystal source ?_ nofun
      rcases cdr .i2scdr with ⟨set, part⟩ | ⟨-, -, ratio⟩
      · have ratio := part.2
        rw [← part.field, show (Cdr.i2scdr.held t &&& (Cdr.i2scdr.mask <<< 0)) >>> 0 = 0#32 from
          i2s set] at ratio
        exact ratio
      · exact ratio

end Agreement

/-- Writes of the four registers, with i2sclk below the PLL. -/
def fourWrites (cppcr : BitVec 32) : List CpmAccess :=
  [.write 0x0 0x80000001, .write 0x10 cppcr, .write 0x60 0x1f, .write 0x68 0x3]

/-- The PLL multiplies by 2 and divides by 7, or it multiplies by 60 and divides by 2. -/
theorem fourWrites_complete : ∀ v ∈ [0x140100#32, 0x1d000100#32], ∃ s t outs,
    jz4740Init 60 12000000 = .ok s ∧ cpmRun 60 s (fourWrites v) = .ok (t, outs) ∧
    t.cpccr = 0x80000001 ∧ t.cppcr = v := by
  intro v mem
  have computed : ((jz4740Init 60 12000000).bind fun s => (cpmRun 60 s (fourWrites v)).map
      (·, s)).map (fun p => decide (p.1.1.cpccr = 0x80000001 ∧ p.1.1.cppcr = v)) =
      .ok true := by
    simp only [List.mem_cons, List.not_mem_nil, or_false] at mem
    rcases mem with rfl | rfl <;> decide +kernel
  obtain ⟨⟨⟨t, outs⟩, s⟩, both, values⟩ := of_map_eq_ok computed
  obtain ⟨s', started, both⟩ := of_bind_eq_ok both
  obtain ⟨⟨t, outs⟩, completed, same⟩ := of_map_eq_ok both
  cases same
  exact ⟨s, t, outs, started, completed, of_decide_eq_true values⟩

/-- The tree rounds 24 MHz / 7 once, the kernel rounds 12 MHz / 7 and doubles it. -/
theorem pll_by_seven_disagrees : ∃ s t outs r, jz4740Init 60 12000000 = .ok s ∧
    cpmRun 60 s (fourWrites 0x140100) = .ok (t, outs) ∧ cpmRegs t = .ok r ∧
    ¬ AgreesOn t.soc .pllOutput (cpmGetPllout r) := by
  obtain ⟨s, t, outs, started, completed, -, value⟩ :=
    fourWrites_complete 0x140100 List.mem_cons_self
  have clocked := clocked_run started completed
  have fed := fed_output clocked (pllPart_run started completed)
  obtain ⟨x, pllout, rate⟩ := cpmGetPllout_eq ⟨t.cpccr, t.cppcr, t.i2scdr, t.msccdr⟩
  refine ⟨s, t, outs, _, started, completed, rfl, ?_⟩
  rw [clocked.agreesOn_iff (n := .pllOutput) nofun fed ?_ (pllMul_lt _) pllout, rate]
  · rw [value]
    change ¬ 12000000 / pllDiv 0x140100 * pllMul 0x140100 =
      12000000 * pllMul 0x140100 / pllDiv 0x140100
    decide
  · exact Nat.lt_of_le_of_lt (pllDiv_bounds _).2 (by decide)

/-- With the PLL at 360 MHz all ten rates agree. -/
theorem pll_by_two_agrees : ∃ s t outs r, jz4740Init 60 12000000 = .ok s ∧
    cpmRun 60 s (fourWrites 0x1d000100) = .ok (t, outs) ∧ cpmRegs t = .ok r ∧
    AgreesOn t.soc .pllOutput (cpmGetPllout r) ∧ CpccrAgrees t.soc r ∧
    AgreesOn t.soc .mscclk (cpmGetMscclk r) ∧ AgreesOn t.soc .usbclk (cpmGetUsbclk r) ∧
    AgreesOn t.soc .i2sclk (cpmGetI2sclk r) := by
  obtain ⟨s, t, outs, started, completed, cpccr, cppcr⟩ :=
    fourWrites_complete 0x1d000100 (List.mem_cons_of_mem _ List.mem_cons_self)
  obtain ⟨r, regs, output, rest⟩ := kernel_rates_agree started completed
  have cpccr' : r.cpccr = 0x80000001 := by
    cases regs
    exact cpccr
  have exact' : PllExact r.cppcr := by
    cases regs
    change PllExact t.cppcr
    rw [cppcr]
    decide
  obtain ⟨agrees, msc, usb, i2s⟩ := rest exact' ⟨_, List.mem_cons_self, _, rfl, by decide⟩
  refine ⟨s, t, outs, r, started, completed, regs, output.mpr exact', agrees, msc ?_, usb ?_,
    i2s ?_⟩
  · exact ⟨.write 0x68 0x3, by decide, _, rfl, by decide⟩
  · rw [cpccr', if_neg (by decide), cpmGetUdiv, cpccr']
    decide
  · rw [cpccr', if_pos (by decide)]
    exact ⟨.write 0x60 0x1f, by decide, _, rfl, by decide⟩

end VirtualNoah
