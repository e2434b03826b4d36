import VirtualNoah.Clock.Faults
import VirtualNoah.Soc.CpmRates

/-!
# CPM writes and the soundness of the tree

A write of CPCCR looks four divisors up by 4-bit fields and one by a 6-bit field, in
a table of ten entries.  This is the only way in which an access harms the tree:
divisors and multipliers stay between 1 and 1000, and no clock has more than three
of them above it (`cpm_write_safe_iff`).
-/

namespace VirtualNoah

open SiblingForest StepRun Outcome

/-! ## Safe writes -/

/-- No divisor or multiplier is zero, and `muldiv64` gets the products as they are. -/
structure JzClks.Sound {ν : Type} (soc : JzClks ν) : Prop where
  ratios : ∀ x ∈ clkNodes soc.count,
    (soc.heap x).divisor ≠ 0#32 ∧ (soc.heap x).multiplier ≠ 0#32
  products : ∀ x ∈ clkNodes soc.count, ∀ r d k, (soc.heap r).parent = none →
    Path soc.heap Any x r d k → 0 < d ∧ d < 2 ^ 32 ∧ 0 < k ∧ k < 2 ^ 32

/-- The clock operation of a divider register. -/
def Cdr.ops (r : Cdr) (s : Jz4740Cpm) (v : BitVec 32) : List ClkOp :=
  if v &&& r.mask = r.held s then [] else [.setrate r.clk.copy ((v &&& r.mask) + 1) 1]

/-- The clock operations of an access. -/
def CpmAccess.ops (s : Jz4740Cpm) : CpmAccess → List ClkOp
  | .write 0x0 v => if v = s.cpccr then [] else cpccrOps v
  | .write 0x10 v => [cppcrOp v]
  | .write 0x60 v => Cdr.i2scdr.ops s v
  | .write 0x68 v => Cdr.msccdr.ops s v
  | _ => []

/-- Every lookup finds an entry, no rate is divided by zero, and every clock
operation leaves a sound tree. -/
structure WriteSafe (s : Jz4740Cpm) (a : CpmAccess) : Prop where
  harmless : ∀ fuel e, cpmStep fuel s a = .error e → e.Harmless
  sound : ∀ fuel ops soc, ops <+: a.ops s → ops.foldlM (clkStep fuel) s.soc = .ok soc → soc.Sound

/-! ## Small ratios -/

def SmallRatio (d k : BitVec 32) : Prop :=
  0 < d.toNat ∧ d.toNat ≤ 1000 ∧ 0 < k.toNat ∧ k.toNat ≤ 1000

instance (d k : BitVec 32) : Decidable (SmallRatio d k) :=
  inferInstanceAs (Decidable (_ ∧ _ ∧ _ ∧ _))

/-- The ratios of all clocks are small. -/
def Tame (f : ClkPtr → ClkParams ClkName) : Prop :=
  ∀ n : ClkName, n ≠ .lcdPclk → SmallRatio (f n.copy).divisor (f n.copy).multiplier

/-- The operation sets a small ratio, if any. -/
def ClkOp.Tame : ClkOp → Prop
  | .setrate _ d k => SmallRatio d k
  | _ => True

/-- How many clocks can be above a clock. -/
def ClkName.depth : ClkName → Nat
  | .oscExtal | .osc32K | .lcdPclk => 0
  | .pllOutput => 1
  | .pllDivider | .cclk | .pclk | .hclk | .mclk => 2
  | .ldclk | .lpclk | .i2sclk | .mscclk | .usbclk | .ssiclk => 3

section Ratios

variable {f : ClkPtr → ClkParams ClkName} {h : ClkHeap ClkName} {go : ClkPtr → Prop}
  {n : ClkName} {q top : ClkPtr} {op : ClkOp} {d k : Nat}

theorem Wired.parent_depth (wired : Wired f) (other : n ≠ .lcdPclk)
    (up : (f n.copy).parent = some q) : ∃ m : ClkName, m ≠ .lcdPclk ∧ q = m.copy ∧
      m.depth < n.depth := by
  by_cases moves : n = .usbclk ∨ n = .i2sclk
  · have deep : n.depth = 3 := by
      rcases moves with rfl | rfl <;> rfl
    rcases wired.source n moves with below | below <;> cases below.symm.trans up <;> rw [deep]
    · exact ⟨.pllDivider, nofun, rfl, by decide⟩
    · exact ⟨.oscExtal, nofun, rfl, by decide⟩
  · rw [not_or] at moves
    obtain ⟨m, above, place⟩ := Option.map_eq_some_iff.mp
      ((wired.parent n other moves.1 moves.2).symm.trans up)
    refine ⟨m, parent_ne above, place.symm, ?_⟩
    cases n <;> cases above <;> decide

/-- On the way to a clock every step multiplies by 1000 at most. -/
theorem path_bounds (wired : Wired h.params) (tame : Tame h.params) (other : n ≠ .lcdPclk)
    (path : Path h go n.copy top d k) :
    (0 < d ∧ d ≤ 1000 ^ n.depth) ∧ 0 < k ∧ k ≤ 1000 ^ n.depth := by
  induction deep : n.depth using Nat.strong_induction_on generalizing n d k with
  | _ depth ih =>
    rcases path.cases_step with ⟨-, rfl, rfl⟩ | ⟨p, d', k', up, -, path', rfl, rfl⟩
    · exact ⟨⟨Nat.one_pos, Nat.one_le_pow _ _ (by decide)⟩, Nat.one_pos,
        Nat.one_le_pow _ _ (by decide)⟩
    · obtain ⟨m, other', rfl, less⟩ := wired.parent_depth other up
      obtain ⟨⟨posD, leD⟩, posK, leK⟩ := ih m.depth (deep ▸ less) other' path' rfl
      obtain ⟨pos, le, pos', le'⟩ := tame n other
      have bound : 1000 ^ m.depth * 1000 ≤ 1000 ^ depth := by
        rw [← Nat.pow_succ]
        exact Nat.pow_le_pow_right (by decide) (deep ▸ less)
      exact ⟨⟨Nat.mul_pos posD pos, Nat.le_trans (Nat.mul_le_mul leD le) bound⟩,
        Nat.mul_pos posK pos', Nat.le_trans (Nat.mul_le_mul leK le') bound⟩

theorem depth_le (n : ClkName) : n.depth ≤ 3 := by
  cases n <;> decide

theorem ClkOp.Tame.params (small : op.Tame) (cpm : CpmOp op) (tame : VirtualNoah.Tame f) :
    VirtualNoah.Tame (op.params f) := by
  intro n other
  cases cpm with
  | @setrate m d k _ =>
    rcases eq_or_ne n m with rfl | apart
    · have ratio : SmallRatio d k := small
      simpa only [ClkOp.params, Function.update_self] using ratio
    · simpa only [ClkOp.params, Function.update_of_ne fun same => apart (copy_inj same)] using
        tame n other
  | @reparent m p _ _ =>
    obtain ⟨divisor, multiplier⟩ := ClkOp.reparent_ratio f m.copy (some p.copy) n.copy
    rw [divisor, multiplier]
    exact tame n other

end Ratios

/-! ## Trees with small ratios -/

/-- What every access keeps, whatever the rate of the crystal. -/
structure SmallTree (soc : JzClks ClkName) : Prop where
  named : Named soc
  wired : Wired soc.heap.params
  ticking : soc.Ticking
  tame : Tame soc.heap.params

section Trees

variable {fuel : Nat} {soc soc' : JzClks ClkName} {op : ClkOp} {ops : List ClkOp}
  {n p : ClkName} {d k : BitVec 32}

theorem lt_of_depth {x : Nat} (le : x ≤ 1000 ^ n.depth) : x < 2 ^ 32 := by
  have three : 1000 ^ n.depth ≤ 1000 ^ 3 := Nat.pow_le_pow_right (by decide) (depth_le n)
  omega

theorem SmallTree.sound (small : SmallTree soc) : soc.Sound := by
  refine ⟨fun x inside => ?_, fun x inside r d k root path => ?_⟩
  · obtain ⟨n, other, rfl⟩ := small.named.of_mem_nodes inside
    obtain ⟨posD, -, posK, -⟩ := small.tame n other
    refine ⟨fun zero => ?_, fun zero => ?_⟩
    · exact absurd (congrArg BitVec.toNat zero) (Nat.ne_of_gt posD)
    · exact absurd (congrArg BitVec.toNat zero) (Nat.ne_of_gt posK)
  · obtain ⟨n, other, rfl⟩ := small.named.of_mem_nodes inside
    obtain ⟨⟨posD, leD⟩, posK, leK⟩ := path_bounds small.wired small.tame other path
    exact ⟨posD, lt_of_depth leD, posK, lt_of_depth leK⟩

/-- An operation with a small ratio is harmless and keeps the ratios small. -/
theorem SmallTree.step (small : SmallTree soc) (cpm : CpmOp op) (tame : op.Tame) :
    Delivers Fault.Harmless SmallTree (clkStep fuel soc op) := by
  obtain ⟨named, wired, ticking, tame'⟩ := small
  have wired' := cpm.wired wired
  have tame'' := tame.params cpm tame'
  have allowed := cpm.allowed named wired
  refine (clkStep_delivers ticking.forest allowed cpm.nonNull fun h params x inside => ?_).also
    fun soc' done _ => ?_
  · obtain ⟨n, other, rfl⟩ := named.of_mem_nodes inside
    intro r d k root path zero
    obtain ⟨⟨pos, le⟩, -⟩ := path_bounds (params ▸ wired') (params ▸ tame'') other path
    have vanishes := congrArg BitVec.toNat zero
    rw [BitVec.toNat_ofNat, Nat.mod_eq_of_lt (lt_of_depth le)] at vanishes
    exact absurd vanishes (Nat.ne_of_gt pos)
  · have params := (clkStep_params done).2
    exact ⟨named.params done, params ▸ wired',
      clkStep_ticking ticking allowed cpm.nonNull done, params ▸ tame''⟩

theorem SmallTree.steps (small : SmallTree soc) (cpm : ∀ op ∈ ops, CpmOp op ∧ op.Tame)
    (done : ops.foldlM (clkStep fuel) soc = .ok soc') : SmallTree soc' :=
  foldlM_invariant SmallTree (fun op mem small done =>
    (small.step (cpm op mem).1 (cpm op mem).2).of_ok done) small done

theorem SmallTree.setrate (small : SmallTree soc) (other : n ≠ .lcdPclk) (ratio : SmallRatio d k) :
    Delivers Fault.Harmless SmallTree (setrateNamed fuel soc n d k) := by
  rw [setrateNamed, small.named.find other]
  exact small.step (.setrate other) ratio

theorem SmallTree.reparent (small : SmallTree soc) (clk : n = .usbclk ∨ n = .i2sclk)
    (source : p = .pllDivider ∨ p = .oscExtal) :
    Delivers Fault.Harmless SmallTree (reparentNamed fuel soc n p) := by
  have other : n ≠ .lcdPclk := by
    rcases clk with rfl | rfl <;> exact nofun
  have other' : p ≠ .lcdPclk := by
    rcases source with rfl | rfl <;> exact nofun
  rw [reparentNamed, small.named.find other, small.named.find other']
  exact small.step (.reparent clk source) trivial

theorem dumpClocksFrom_delivers {ν : Type} (h : ClkHeap ν) (start : Option ClkPtr) :
    Delivers Fault.Harmless (fun _ => True) (jz4740DumpClocksFrom fuel h start) := by
  induction fuel generalizing start with
  | zero => exact spin_harmless _ rfl
  | succ fuel ih =>
    cases start with
    | none => trivial
    | some i => exact (ih _).bind fun _ _ => ih _

theorem SmallTree.dump (small : SmallTree soc) :
    Delivers Fault.Harmless (fun _ => True) (dumpNamed fuel soc) := by
  rw [dumpNamed, small.named.find (n := .oscExtal) nofun]
  exact dumpClocksFrom_delivers _ _

end Trees

/-! ## The four registers -/

/-- A write that changes CPCCR finds its five divisors in the table. -/
def CpmAccess.InTable (a : CpmAccess) (s : Jz4740Cpm) : Prop :=
  ∀ v, a = .write 0x0 v → v ≠ s.cpccr → InDivTable v

section Registers

variable {fuel : Nat} {s t : Jz4740Cpm} {a : CpmAccess} {v i : BitVec 32}
  {table : List (BitVec 32)}

theorem one_small : SmallRatio 1 1 := by
  decide

theorem divEntry_small (inside : i.toNat < 10) : SmallRatio (divEntry i) 1 := by
  have entries : ∀ j < 10, SmallRatio (divTable.getD j 0) 1 := by decide
  exact entries _ inside

theorem succ_small (small : i.toNat ≤ 511) : SmallRatio (i + 1) 1 := by
  have sum : (i + 1).toNat = i.toNat + 1 := by
    rw [BitVec.toNat_add]
    exact Nat.mod_eq_of_lt (by change i.toNat + 1 < 2 ^ 32; omega)
  unfold SmallRatio
  rw [sum]
  exact ⟨Nat.succ_pos _, by omega, by decide, by decide⟩

theorem ldiv_small (v : BitVec 32) : SmallRatio (cpccrLdiv v + 1) 1 :=
  succ_small (Nat.le_trans (field_toNat_le v (0x1f#32 <<< 16) 16) (by decide))

theorem pcs_small (v : BitVec 32) : SmallRatio (if v &&& cpccrPcs ≠ 0#32 then 1 else 2) 1 := by
  split <;> decide

theorem cdr_small (r : Cdr) (v : BitVec 32) : SmallRatio ((v &&& r.mask) + 1) 1 := by
  refine succ_small (Nat.le_trans (BitVec.toNat_and v r.mask ▸ Nat.and_le_right) ?_)
  cases r <;> decide

theorem pll_small (on : PllOn v) :
    SmallRatio ((cppcrPlln v + 2) * pll0.getD (cppcrPllod v).toNat 0) (cppcrPllm v + 2) := by
  obtain ⟨divisor, multiplier⟩ := pll_numbers on
  obtain ⟨pos, le⟩ := pllDiv_bounds v
  have le' := pllMul_le v
  have pos' : 0 < pllMul v := by
    unfold pllMul
    split <;> omega
  unfold SmallRatio
  rw [divisor, multiplier]
  exact ⟨pos, by omega, pos', by omega⟩

theorem cppcrOp_tame (v : BitVec 32) : (cppcrOp v).Tame := by
  unfold cppcrOp
  split
  · next on => exact pll_small on
  · exact one_small

theorem cpccrOps_tame (fields : InDivTable v) : ∀ op ∈ cpccrOps v, op.Tame := by
  intro op mem
  simp only [cpccrOps, List.mem_cons, List.not_mem_nil, or_false] at mem
  rcases mem with rfl | rfl | rfl | rfl | rfl | rfl | rfl | rfl | rfl
  · exact pcs_small v
  · exact ldiv_small v
  · exact divEntry_small fields.mdiv
  · exact divEntry_small fields.pdiv
  · exact divEntry_small fields.hdiv
  · exact divEntry_small fields.cdiv
  · exact divEntry_small fields.udiv
  · trivial
  · trivial

theorem Cdr.ops_small (r : Cdr) : ∀ op ∈ r.ops s v, CpmOp op ∧ op.Tame := by
  intro op mem
  unfold Cdr.ops at mem
  split at mem
  · cases mem
  · cases List.mem_singleton.mp mem
    exact ⟨.setrate (by cases r <;> exact nofun), cdr_small r v⟩

theorem CpmAccess.ops_small (inside : a.InTable s) :
    ∀ op ∈ a.ops s, CpmOp op ∧ op.Tame := by
  intro op mem
  unfold CpmAccess.ops at mem
  split at mem
  · split at mem
    · cases mem
    · next changed =>
      exact ⟨cpmOp_cpccrOps op mem, cpccrOps_tame (inside _ rfl changed) op mem⟩
  · cases List.mem_singleton.mp mem
    exact ⟨cpmOp_cppcrOp, cppcrOp_tame _⟩
  · exact Cdr.ops_small .i2scdr op mem
  · exact Cdr.ops_small .msccdr op mem
  · cases mem

theorem ops_cdr (r : Cdr) : (CpmAccess.write r.addr v).ops s = r.ops s v := by
  cases r <;> rfl

/-- What a completed access does to the tree are its clock operations. -/
theorem cpmStep_ops {out : Option (BitVec 32)} (named : Named s.soc)
    (done : cpmStep fuel s a = .ok (t, out)) :
    a.InTable s ∧ (a.ops s).foldlM (clkStep fuel) s.soc = .ok t.soc := by
  have effect := (cpmStep_effect named done).2
  cases effect with
  | quiet quiet soc _ _ _ =>
    refine ⟨fun v same changed => (changed ((quiet v).1 same)).elim, ?_⟩
    rw [soc]
    unfold CpmAccess.ops
    split
    · rw [if_pos ((quiet _).1 rfl)]
      rfl
    · exact ((quiet _).2.1 rfl).elim
    · rw [Cdr.ops, if_pos ((quiet _).2.2 .i2scdr rfl)]
      rfl
    · rw [Cdr.ops, if_pos ((quiet _).2.2 .msccdr rfl)]
      rfl
    · rfl
  | cpccr changed fields ops =>
    refine ⟨fun v same _ => ?_, ?_⟩
    · cases same
      exact fields
    · rw [CpmAccess.ops, if_neg changed]
      exact ops
  | cppcr op => exact ⟨fun v same => (by cases same), foldlM_cons_ok op rfl⟩
  | @cdr v soc r changed op =>
    refine ⟨fun v same => ?_, ?_⟩
    · cases r <;> cases same
    · rw [ops_cdr, Cdr.ops, if_neg changed, (store_rest r s soc (v &&& r.mask)).1]
      exact foldlM_cons_ok op rfl

theorem readTable_delivers (lt : i.toNat < table.length) :
    Delivers Fault.Harmless (· = table.getD i.toNat 0) (readTable table i) := by
  rw [readTable_of_lt lt]
  rfl

theorem readTable_outside (outside : ¬ i.toNat < table.length) :
    readTable table i = .error .outOfBounds := by
  rw [readTable, List.getElem?_eq_none (Nat.le_of_not_lt outside)]

theorem cpccrUpdate_delivers (small : SmallTree s.soc) (inside : v ≠ s.cpccr → InDivTable v) :
    Delivers Fault.Harmless (fun _ => True) (jz4740CpccrUpdate fuel s v) := by
  unfold jz4740CpccrUpdate
  split
  · trivial
  · next changed =>
    obtain ⟨m, p, h, c, u⟩ := inside changed
    rw [← apply_ite (fun d => setrateNamed fuel s.soc .pllDivider d 1)]
    refine (small.setrate (n := .pllDivider) nofun (pcs_small v)).bind fun soc small => ?_
    refine (readTable_delivers m).bind fun mdiv mRead => ?_
    refine (readTable_delivers p).bind fun pdiv pRead => ?_
    refine (readTable_delivers h).bind fun hdiv hRead => ?_
    refine (readTable_delivers c).bind fun cdiv cRead => ?_
    refine (readTable_delivers u).bind fun udiv uRead => ?_
    subst mRead pRead hRead cRead uRead
    refine (small.setrate (n := .ldclk) nofun (ldiv_small v)).bind fun soc small => ?_
    refine (small.setrate (n := .mclk) nofun (divEntry_small m)).bind fun soc small => ?_
    refine (small.setrate (n := .pclk) nofun (divEntry_small p)).bind fun soc small => ?_
    refine (small.setrate (n := .hclk) nofun (divEntry_small h)).bind fun soc small => ?_
    refine (small.setrate (n := .cclk) nofun (divEntry_small c)).bind fun soc small => ?_
    refine (small.setrate (n := .usbclk) nofun (divEntry_small u)).bind fun soc small => ?_
    rw [← apply_ite (fun p => reparentNamed fuel soc .usbclk p)]
    refine (small.reparent (Or.inl rfl) (ite_eq_or_eq ..)).bind fun soc small => ?_
    rw [← apply_ite (fun p => reparentNamed fuel soc .i2sclk p)]
    refine (small.reparent (Or.inr rfl) (ite_eq_or_eq ..)).bind fun soc small => ?_
    exact small.dump.bind fun _ _ => trivial

theorem cppcrUpdate_delivers (small : SmallTree s.soc) :
    Delivers Fault.Harmless (fun _ => True) (jz4740CppcrUpdate fuel s v) := by
  unfold jz4740CppcrUpdate
  dsimp only
  split
  · exact (small.setrate (n := .pllOutput) nofun one_small).bind fun _ _ => trivial
  · next on =>
    have runs : PllOn v := by
      unfold PllOn
      tauto
    refine (readTable_delivers (pllod_lt v)).bind fun od read => ?_
    subst read
    refine (small.setrate (n := .pllOutput) nofun (pll_small runs)).bind fun soc small => ?_
    exact small.dump.bind fun _ _ => trivial

theorem cdrUpdate_delivers (small : SmallTree s.soc) (r : Cdr) (held : BitVec 32)
    (store : JzClks ClkName → Jz4740Cpm) :
    Delivers Fault.Harmless (fun _ => True)
      (cdrUpdate fuel s r.clk held (v &&& r.mask) store) := by
  unfold cdrUpdate
  split
  · trivial
  · refine (small.setrate (by cases r <;> exact nofun) (cdr_small r v)).bind fun soc small => ?_
    exact small.dump.bind fun _ _ => trivial

theorem cpmStep_delivers (small : SmallTree s.soc) (inside : a.InTable s) :
    Delivers Fault.Harmless (fun _ => True) (cpmStep fuel s a) := by
  have unmapped : Fault.cpuAbort.Harmless := ⟨nofun, nofun⟩
  cases a with
  | read addr =>
    refine Delivers.map (P := fun _ => True) ?_ fun _ _ => trivial
    unfold jz474CpmRead
    split
    case h_12 => exact unmapped
    all_goals trivial
  | write addr value =>
    refine Delivers.map (P := fun _ => True) ?_ fun _ _ => trivial
    unfold jz4740CpmWrite
    split
    case h_1 => exact cpccrUpdate_delivers small (inside value rfl)
    case h_5 => exact cppcrUpdate_delivers small
    case h_6 => exact cdrUpdate_delivers small .i2scdr _ _
    case h_8 => exact cdrUpdate_delivers small .msccdr _ _
    case h_12 => exact unmapped
    all_goals trivial

/-- The first field beyond the table stops the update. -/
theorem cpccrUpdate_outside {soc : JzClks ClkName} (changed : v ≠ s.cpccr)
    (first : setrateNamed fuel s.soc .pllDivider (if v &&& cpccrPcs ≠ 0#32 then 1 else 2) 1 =
      .ok soc) (outside : ¬ InDivTable v) :
    jz4740CpccrUpdate fuel s v = .error .outOfBounds := by
  unfold jz4740CpccrUpdate
  rw [if_neg changed, ← apply_ite (fun d => setrateNamed fuel s.soc .pllDivider d 1), bind_ok first]
  by_cases m : (cpccrMdiv v).toNat < 10
  case neg => exact bind_error (readTable_outside m)
  refine (bind_ok (readTable_of_lt m)).trans ?_
  by_cases p : (cpccrPdiv v).toNat < 10
  case neg => exact bind_error (readTable_outside p)
  refine (bind_ok (readTable_of_lt p)).trans ?_
  by_cases h : (cpccrHdiv v).toNat < 10
  case neg => exact bind_error (readTable_outside h)
  refine (bind_ok (readTable_of_lt h)).trans ?_
  by_cases c : (cpccrCdiv v).toNat < 10
  case neg => exact bind_error (readTable_outside c)
  refine (bind_ok (readTable_of_lt c)).trans ?_
  exact bind_error (readTable_outside fun u => outside ⟨m, p, h, c, u⟩)

/-- With enough fuel the update gets to the lookups. -/
theorem SmallTree.stops_outside (small : SmallTree s.soc) (changed : v ≠ s.cpccr)
    (outside : ¬ InDivTable v) :
    ∃ fuel, cpmStep fuel s (.write 0x0 v) = .error .outOfBounds := by
  have cpm : CpmOp (.setrate ClkName.pllDivider.copy
      (if v &&& cpccrPcs ≠ 0#32 then 1 else 2) 1) := .setrate nofun
  obtain ⟨r, ⟨fuel, settles⟩, rfl | ⟨soc, rfl, -⟩⟩ :=
    clkStep_ends (wellFormed_iff.mpr small.ticking.forest) (cpm.allowed small.named small.wired)
  · have harmless := (small.step cpm (pcs_small v)).of_error (settles fuel (Nat.le_refl fuel))
    exact (harmless.2 rfl).elim
  · have first : setrateNamed fuel s.soc .pllDivider
        (if v &&& cpccrPcs ≠ 0#32 then 1 else 2) 1 = .ok soc := by
      rw [setrateNamed, small.named.find (n := .pllDivider) nofun]
      exact settles fuel (Nat.le_refl fuel)
    refine ⟨fuel, ?_⟩
    change (jz4740CpccrUpdate fuel s v).map _ = _
    rw [cpccrUpdate_outside changed first outside]
    rfl

/-- An access of a small tree is safe when its lookups find an entry. -/
theorem SmallTree.writeSafe_iff (small : SmallTree s.soc) : WriteSafe s a ↔ a.InTable s := by
  constructor
  · rintro safe v rfl changed
    by_contra outside
    obtain ⟨fuel, stops⟩ := small.stops_outside changed outside
    exact (safe.harmless fuel _ stops).1 rfl
  · intro inside
    refine ⟨fun fuel e => (cpmStep_delivers small inside).of_error, ?_⟩
    intro fuel ops soc front done
    exact (small.steps (fun op mem => CpmAccess.ops_small inside op (front.subset mem)) done).sound

end Registers

/-! ## Every run -/

section Runs

variable {fuel : Nat} {freq : BitVec 32} {s t : Jz4740Cpm} {accesses : List CpmAccess}
  {outs : List (Option (BitVec 32))}

theorem jz4740Init_small (started : jz4740Init fuel freq = .ok s) : SmallTree s.soc := by
  obtain ⟨wired, ticking⟩ := jz4740Init_wired started
  refine ⟨jz4740Init_named started, wired, ticking, fun n other => ?_⟩
  rw [(jz4740Init_params started).2 n other]
  exact one_small

theorem small_run (started : jz4740Init fuel freq = .ok s)
    (completed : cpmRun fuel s accesses = .ok (t, outs)) : SmallTree t.soc := by
  refine run_keeps (fun s => SmallTree s.soc) (fun small done => ?_) (jz4740Init_small started)
    completed
  obtain ⟨inside, ops⟩ := cpmStep_ops small.named done
  exact small.steps (CpmAccess.ops_small inside) ops

/-- In every state CPM accesses lead to, an access harms the tree exactly when it
changes CPCCR to a value with a field beyond the table. -/
theorem cpm_write_safe_iff {a : CpmAccess} (started : jz4740Init fuel freq = .ok s)
    (completed : cpmRun fuel s accesses = .ok (t, outs)) :
    WriteSafe t a ↔ ∀ v, a = .write 0x0 v → v ≠ t.cpccr → InDivTable v :=
  (small_run started completed).writeSafe_iff

end Runs

/-- After the four writes a change of CPCCR with all fields in the table is safe. -/
theorem fourWrites_then_safe : ∃ s t outs, jz4740Init 60 12000000 = .ok s ∧
    cpmRun 60 s (fourWrites 0x1d000100) = .ok (t, outs) ∧
    WriteSafe t (.write 0x0 0x80009999) := by
  obtain ⟨s, t, outs, started, completed, -, -⟩ :=
    fourWrites_complete 0x1d000100 (List.mem_cons_of_mem _ List.mem_cons_self)
  refine ⟨s, t, outs, started, completed, (cpm_write_safe_iff started completed).mpr ?_⟩
  rintro v same -
  cases same
  exact ⟨by decide, by decide, by decide, by decide, by decide⟩

/-- A CDIV of 15, written after the reset, is beyond the table. -/
theorem cdiv_beyond_table : ∃ s fuel, jz4740Init 60 12000000 = .ok s ∧
    cpmStep fuel s (.write 0x0 0xf) = .error .outOfBounds ∧ ¬ WriteSafe s (.write 0x0 0xf) := by
  obtain ⟨s, started⟩ := exists_ok_of_isOk (x := jz4740Init 60 12000000) (by decide +kernel)
  have small := jz4740Init_small started
  obtain ⟨soc, -, rfl⟩ := of_map_eq_ok started
  have outside : ¬ InDivTable 0xf := fun fields => absurd fields.cdiv (by decide)
  obtain ⟨fuel, stops⟩ := small.stops_outside (v := 0xf) (by decide : (0xf#32) ≠ 0x42040000) outside
  exact ⟨_, fuel, started, stops, fun safe => (safe.harmless fuel _ stops).1 rfl⟩

end VirtualNoah
