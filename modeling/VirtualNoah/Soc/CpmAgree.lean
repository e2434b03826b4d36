import VirtualNoah.Soc.CpmTree

/-!
# The tree the registers describe

`CpccrPart`, `PllPart` and `CdrPart` say that a register describes its part of the
tree.  No access breaks any of them, and a write that changes the register makes
it true.  `jz4740_init` makes only `PllPart` true, so the tree and the registers
agree as soon as each of the other three has been changed once.
-/

namespace VirtualNoah

open StepRun

section Parts

/-- Divisor and multiplier of a clock. -/
def Ratio (f : ClkPtr → ClkParams ClkName) (n : ClkName) (d k : BitVec 32) : Prop :=
  (f n.copy).divisor = d ∧ (f n.copy).multiplier = k

def Hangs (f : ClkPtr → ClkParams ClkName) (n p : ClkName) : Prop :=
  (f n.copy).parent = some p.copy

variable {f : ClkPtr → ClkParams ClkName} {n m p p' : ClkName} {d k d' k' v : BitVec 32}

theorem copy_eq_iff : n.copy = m.copy ↔ n = m := ⟨copy_inj, fun same => same ▸ rfl⟩

@[simp] theorem ratio_setrate : Ratio ((ClkOp.setrate m.copy d k).params f) n d' k' ↔
    if n = m then d = d' ∧ k = k' else Ratio f n d' k' := by
  rcases eq_or_ne n m with rfl | apart
  · simp only [Ratio, ClkOp.params, Function.update_self, if_true]
  · simp only [Ratio, ClkOp.params, Function.update_of_ne fun same => apart (copy_inj same),
      if_neg apart]

@[simp] theorem hangs_setrate : Hangs ((ClkOp.setrate m.copy d k).params f) n p ↔
    Hangs f n p := by
  rw [Hangs, ClkOp.setrate_parent, Hangs]

@[simp] theorem ratio_reparent : Ratio ((ClkOp.reparent m.copy (some p.copy)).params f) n d' k' ↔
    Ratio f n d' k' := by
  obtain ⟨divisor, multiplier⟩ := ClkOp.reparent_ratio f m.copy (some p.copy) n.copy
  rw [Ratio, divisor, multiplier, Ratio]

@[simp] theorem hangs_reparent : Hangs ((ClkOp.reparent m.copy (some p.copy)).params f) n p' ↔
    if n = m then p = p' else Hangs f n p' := by
  rcases eq_or_ne n m with rfl | apart
  · simp only [Hangs, ClkOp.params, Function.update_self, if_true, Option.some.injEq, copy_eq_iff]
  · simp only [Hangs, ClkOp.params, Function.update_of_ne fun same => apart (copy_inj same),
      if_neg apart]

/-- The entry of `div_table` a field selects. -/
def divEntry (i : BitVec 32) : BitVec 32 := divTable.getD i.toNat 0

/-- The part of the tree CPCCR describes. -/
structure CpccrPart (f : ClkPtr → ClkParams ClkName) (v : BitVec 32) : Prop where
  fields : InDivTable v
  pllDivider : Ratio f .pllDivider (if v &&& cpccrPcs ≠ 0#32 then 1 else 2) 1
  ldclk : Ratio f .ldclk (cpccrLdiv v + 1) 1
  mclk : Ratio f .mclk (divEntry (cpccrMdiv v)) 1
  pclk : Ratio f .pclk (divEntry (cpccrPdiv v)) 1
  hclk : Ratio f .hclk (divEntry (cpccrHdiv v)) 1
  cclk : Ratio f .cclk (divEntry (cpccrCdiv v)) 1
  usbclk : Ratio f .usbclk (divEntry (cpccrUdiv v)) 1
  usbSource : Hangs f .usbclk (if v &&& cpccrUcs ≠ 0#32 then .pllDivider else .oscExtal)
  i2sSource : Hangs f .i2sclk (if v &&& cpccrI2cs ≠ 0#32 then .pllDivider else .oscExtal)

/-- The part of the tree CPPCR describes. -/
def PllPart (f : ClkPtr → ClkParams ClkName) (v : BitVec 32) : Prop :=
  if PllOn v then Ratio f .pllOutput ((cppcrPlln v + 2) * pll0.getD (cppcrPllod v).toNat 0)
    (cppcrPllm v + 2)
  else Ratio f .pllOutput 1 1

theorem cpccrOps_part (fields : InDivTable v) :
    CpccrPart ((cpccrOps v).foldl (fun f op => op.params f) f) v := by
  refine ⟨fields, ?_, ?_, ?_, ?_, ?_, ?_, ?_, ?_, ?_⟩ <;>
    simp only [cpccrOps, List.foldl_cons, List.foldl_nil, ratio_setrate, hangs_setrate,
      ratio_reparent, hangs_reparent, reduceCtorEq, if_true, if_false, divEntry, and_self]

theorem CpccrPart.setrate (part : CpccrPart f v)
    (apart : n = .pllOutput ∨ n = .i2sclk ∨ n = .mscclk) :
    CpccrPart ((ClkOp.setrate n.copy d k).params f) v := by
  obtain ⟨fields, pllDivider, ldclk, mclk, pclk, hclk, cclk, usbclk, usbSource, i2sSource⟩ := part
  rcases apart with rfl | rfl | rfl <;>
  · refine ⟨fields, ?_, ?_, ?_, ?_, ?_, ?_, ?_, ?_, ?_⟩ <;>
      simpa only [ratio_setrate, hangs_setrate, reduceCtorEq, if_false]

theorem CpccrPart.cppcrOp {v' : BitVec 32} (part : CpccrPart f v) :
    CpccrPart ((cppcrOp v').params f) v := by
  unfold VirtualNoah.cppcrOp
  split <;> exact part.setrate (Or.inl rfl)

theorem cppcrOp_part : PllPart ((cppcrOp v).params f) v := by
  unfold PllPart cppcrOp
  split <;> exact ratio_setrate.mpr ⟨rfl, rfl⟩

/-- The PLL status bit does not count. -/
theorem pllPart_stored : PllPart f (if PllOn v then v else v ||| cppcrPlls) ↔ PllPart f v := by
  by_cases on : PllOn v
  · rw [if_pos on]
  · have status : ∀ i, i = 8 ∨ i = 9 → (v ||| cppcrPlls) &&& bitMask i = v &&& bitMask i := by
      intro i bit
      rw [BitVec.and_or_distrib_right]
      rcases bit with rfl | rfl
      · rw [show cppcrPlls &&& bitMask 8 = 0#32 from rfl, BitVec.or_zero]
      · rw [show cppcrPlls &&& bitMask 9 = 0#32 from rfl, BitVec.or_zero]
    have off : ¬ PllOn (v ||| cppcrPlls) := by
      unfold PllOn cppcrPllen cppcrPllbp
      rw [status 8 (Or.inl rfl), status 9 (Or.inr rfl)]
      exact on
    rw [if_neg on, PllPart, PllPart, if_neg on, if_neg off]

theorem ratio_cpccrOps (apart : n = .pllOutput ∨ n = .i2sclk ∨ n = .mscclk) :
    Ratio ((cpccrOps v).foldl (fun f op => op.params f) f) n d k ↔ Ratio f n d k := by
  rcases apart with rfl | rfl | rfl <;>
    simp only [cpccrOps, List.foldl_cons, List.foldl_nil, ratio_setrate, ratio_reparent,
      reduceCtorEq, if_false]

theorem ratio_cppcrOp (apart : n ≠ .pllOutput) :
    Ratio ((cppcrOp v).params f) n d k ↔ Ratio f n d k := by
  unfold cppcrOp
  split <;> rw [ratio_setrate, if_neg apart]

end Parts

/-! ## What an access does to each part -/

section Cases

variable {fuel : Nat} {s t : Jz4740Cpm} {a : CpmAccess}

theorem clk_cases (r : Cdr) : r.clk = .pllOutput ∨ r.clk = .i2sclk ∨ r.clk = .mscclk := by
  cases r
  · exact Or.inr (Or.inl rfl)
  · exact Or.inr (Or.inr rfl)

theorem clk_ne (r : Cdr) : r.clk ≠ .pllOutput ∧ r.clk ≠ .pllDivider := by
  cases r <;> exact ⟨nofun, nofun⟩

theorem store_rest (r : Cdr) (s : Jz4740Cpm) (soc : JzClks ClkName) (v : BitVec 32) :
    (r.store s soc v).soc = soc ∧ (r.store s soc v).cpccr = s.cpccr ∧
    (r.store s soc v).cppcr = s.cppcr := by
  cases r <;> exact ⟨rfl, rfl, rfl⟩

theorem CpmEffect.pllPart (effect : CpmEffect fuel s a t)
    (part : PllPart s.soc.heap.params s.cppcr) : PllPart t.soc.heap.params t.cppcr := by
  cases effect with
  | quiet quiet soc cpccr cppcr cdrs =>
    rw [soc, cppcr]
    exact part
  | cpccr changed fields ops =>
    rw [foldlM_params ops]
    unfold PllPart at part ⊢
    simpa only [ratio_cpccrOps (Or.inl rfl)] using part
  | cppcr op =>
    rw [(clkStep_params op).2, pllPart_stored]
    exact cppcrOp_part
  | @cdr v soc r changed op =>
    obtain ⟨same, -, cppcr⟩ := store_rest r s soc (v &&& r.mask)
    rw [same, cppcr, (clkStep_params op).2]
    unfold PllPart at part ⊢
    simpa only [ratio_setrate, (clk_ne r).1.symm, if_false] using part

/-- CPCCR is changed, or its part of the tree is left alone. -/
theorem CpmEffect.cpccr_cases (effect : CpmEffect fuel s a t) :
    t.cpccr = s.cpccr ∧ (∀ v, a = .write 0x0 v → v = s.cpccr) ∧
      (∀ v, CpccrPart s.soc.heap.params v → CpccrPart t.soc.heap.params v) ∧
      (∀ d k, Ratio s.soc.heap.params .pllDivider d k → Ratio t.soc.heap.params .pllDivider d k) ∨
    ∃ v, a = .write 0x0 v ∧ v ≠ s.cpccr ∧ t.cpccr = v ∧ CpccrPart t.soc.heap.params v := by
  cases effect with
  | quiet quiet soc cpccr cppcr cdrs =>
    refine Or.inl ⟨cpccr, fun v => (quiet v).1, ?_, ?_⟩ <;>
    · rw [soc]
      intros
      assumption
  | cpccr changed fields ops =>
    refine Or.inr ⟨_, rfl, changed, rfl, ?_⟩
    rw [foldlM_params ops]
    exact cpccrOps_part fields
  | cppcr op =>
    refine Or.inl ⟨rfl, nofun, fun v part => ?_, fun d k ratio => ?_⟩
    · rw [(clkStep_params op).2]
      exact part.cppcrOp
    · rw [(clkStep_params op).2]
      exact (ratio_cppcrOp (n := .pllDivider) nofun).mpr ratio
  | @cdr v soc r changed op =>
    obtain ⟨same, cpccr, -⟩ := store_rest r s soc (v &&& r.mask)
    rw [same, (clkStep_params op).2]
    refine Or.inl ⟨cpccr, ?_, fun v' part => part.setrate (clk_cases r), fun d k ratio => ?_⟩
    · cases r <;> exact nofun
    · rw [ratio_setrate, if_neg (clk_ne r).2.symm]
      exact ratio

/-- A divider register is changed, or its clock is left alone. -/
theorem CpmEffect.cdr_cases (effect : CpmEffect fuel s a t) (r : Cdr) :
    r.held t = r.held s ∧ (∀ v, a = .write r.addr v → v &&& r.mask = r.held s) ∧
      (∀ d k, Ratio s.soc.heap.params r.clk d k → Ratio t.soc.heap.params r.clk d k) ∨
    ∃ v, a = .write r.addr v ∧ v &&& r.mask ≠ r.held s ∧ r.held t = v &&& r.mask ∧
      Ratio t.soc.heap.params r.clk ((v &&& r.mask) + 1) 1 := by
  cases effect with
  | quiet quiet soc cpccr cppcr cdrs =>
    rw [soc]
    exact Or.inl ⟨cdrs r, fun v => (quiet v).2.2 r, fun _ _ ratio => ratio⟩
  | cpccr changed fields ops =>
    rw [foldlM_params ops]
    refine Or.inl ⟨by cases r <;> rfl, by cases r <;> exact nofun, fun d k ratio => ?_⟩
    exact (ratio_cpccrOps (clk_cases r)).mpr ratio
  | cppcr op =>
    rw [(clkStep_params op).2]
    refine Or.inl ⟨by cases r <;> rfl, by cases r <;> exact nofun, fun d k ratio => ?_⟩
    exact (ratio_cppcrOp (clk_ne r).1).mpr ratio
  | @cdr v soc r' changed op =>
    rw [(store_rest r' s soc (v &&& r'.mask)).1, (clkStep_params op).2]
    rcases eq_or_ne r r' with rfl | apart
    · refine Or.inr ⟨v, rfl, changed, by cases r <;> rfl, ?_⟩
      exact ratio_setrate.mpr (by rw [if_pos rfl]; exact ⟨rfl, rfl⟩)
    · have held : r.held (r'.store s soc (v &&& r'.mask)) = r.held s := by
        cases r <;> cases r' <;> first | rfl | exact (apart rfl).elim
      have addr : ∀ v', CpmAccess.write r'.addr v ≠ .write r.addr v' := by
        intro v' same
        cases r <;> cases r' <;> first | exact (apart rfl).elim | cases same
      have clk : r.clk ≠ r'.clk := by
        cases r <;> cases r' <;> first | exact (apart rfl).elim | exact nofun
      refine Or.inl ⟨held, fun v' same => (addr v' same).elim, fun d k ratio => ?_⟩
      rw [ratio_setrate, if_neg clk]
      exact ratio

end Cases

/-! ## Runs -/

section Runs

variable {fuel : Nat} {freq : BitVec 32} {s t : Jz4740Cpm} {accesses : List CpmAccess}
  {outs : List (Option (BitVec 32))}

/-- CPCCR holds another value than after a reset. -/
def SetsCpccr (a : CpmAccess) : Prop := ∃ v, a = .write 0x0 v ∧ v ≠ 0x42040000

/-- A divider register holds another value than after a reset. -/
def SetsCdr (r : Cdr) (a : CpmAccess) : Prop := ∃ v, a = .write r.addr v ∧ v &&& r.mask ≠ 4

/-- The part of the tree a divider register describes. -/
def CdrPart (r : Cdr) (s : Jz4740Cpm) : Prop :=
  r.held s &&& r.mask = r.held s ∧ Ratio s.soc.heap.params r.clk (r.held s + 1) 1

theorem named_run (named : Named s.soc) (completed : cpmRun fuel s accesses = .ok (t, outs)) :
    Named t.soc :=
  run_keeps (fun s => Named s.soc) (fun named done => (cpmStep_effect named done).1) named
    completed

theorem pllPart_run (started : jz4740Init fuel freq = .ok s)
    (completed : cpmRun fuel s accesses = .ok (t, outs)) :
    PllPart t.soc.heap.params t.cppcr := by
  obtain ⟨soc, -, rfl⟩ := of_map_eq_ok started
  have start : PllPart soc.heap.params 0x28080011 := by
    rw [PllPart, if_neg (by decide)]
    have params := (jz4740Init_params started).2 .pllOutput nofun
    exact ⟨congrArg ClkParams.divisor params, congrArg ClkParams.multiplier params⟩
  refine (run_keeps (fun s => Named s.soc ∧ PllPart s.soc.heap.params s.cppcr)
    (fun held done => ?_) ⟨jz4740Init_named started, start⟩ completed).2
  obtain ⟨named, effect⟩ := cpmStep_effect held.1 done
  exact ⟨named, effect.pllPart held.2⟩

/-- CPCCR describes its part of the tree as soon as it has been changed. -/
theorem cpccrPart_run (started : jz4740Init fuel freq = .ok s)
    (completed : cpmRun fuel s accesses = .ok (t, outs)) :
    (∃ a ∈ accesses, SetsCpccr a) ∧ CpccrPart t.soc.heap.params t.cpccr ∨
    (∀ a ∈ accesses, ¬ SetsCpccr a) ∧ t.cpccr = 0x42040000 ∧
      Ratio t.soc.heap.params .pllDivider 1 1 := by
  obtain ⟨soc, -, rfl⟩ := of_map_eq_ok started
  have params := (jz4740Init_params started).2 .pllDivider nofun
  have start : Ratio soc.heap.params .pllDivider 1 1 :=
    ⟨congrArg ClkParams.divisor params, congrArg ClkParams.multiplier params⟩
  refine (run_latch SetsCpccr
    (fun s => Named s.soc ∧ s.cpccr = 0x42040000 ∧ Ratio s.soc.heap.params .pllDivider 1 1)
    (fun s => Named s.soc ∧ CpccrPart s.soc.heap.params s.cpccr)
    (fun fresh still done => ?_) (fun fresh now done => ?_) (fun synced done => ?_)
    ⟨jz4740Init_named started, rfl, start⟩ completed).imp (And.imp_right And.right)
    (And.imp_right And.right)
  · obtain ⟨named, reset, ratio⟩ := fresh
    obtain ⟨named, effect⟩ := cpmStep_effect named done
    rcases effect.cpccr_cases with ⟨same, -, -, kept⟩ | ⟨v, access, changed, -, -⟩
    · exact ⟨named, same.trans reset, kept 1 1 ratio⟩
    · exact (still ⟨v, access, reset ▸ changed⟩).elim
  · obtain ⟨named, reset, ratio⟩ := fresh
    obtain ⟨v, access, changed⟩ := now
    obtain ⟨named, effect⟩ := cpmStep_effect named done
    rcases effect.cpccr_cases with ⟨-, same, -, -⟩ | ⟨v', -, -, value, part⟩
    · exact (changed ((same v access).trans reset)).elim
    · exact ⟨named, value ▸ part⟩
  · obtain ⟨named, part⟩ := synced
    obtain ⟨named, effect⟩ := cpmStep_effect named done
    rcases effect.cpccr_cases with ⟨same, -, kept, -⟩ | ⟨v, -, -, value, part⟩
    · exact ⟨named, same ▸ kept _ part⟩
    · exact ⟨named, value ▸ part⟩

/-- So does a divider register. -/
theorem cdrPart_run (started : jz4740Init fuel freq = .ok s)
    (completed : cpmRun fuel s accesses = .ok (t, outs)) (r : Cdr) :
    (∃ a ∈ accesses, SetsCdr r a) ∧ CdrPart r t ∨
    (∀ a ∈ accesses, ¬ SetsCdr r a) ∧ r.held t = 4 ∧ Ratio t.soc.heap.params r.clk 1 1 := by
  obtain ⟨soc, -, rfl⟩ := of_map_eq_ok started
  have params := (jz4740Init_params started).2 r.clk (by cases r <;> exact nofun)
  have start : Ratio soc.heap.params r.clk 1 1 :=
    ⟨congrArg ClkParams.divisor params, congrArg ClkParams.multiplier params⟩
  have reset : r.held (jz4740CpmReset soc) = 4 := by
    cases r <;> rfl
  have written : ∀ {v : BitVec 32} {t : Jz4740Cpm}, r.held t = v &&& r.mask →
      Ratio t.soc.heap.params r.clk ((v &&& r.mask) + 1) 1 → CdrPart r t := by
    intro v t value ratio
    refine ⟨?_, value ▸ ratio⟩
    rw [value, BitVec.and_assoc, BitVec.and_self]
  refine (run_latch (SetsCdr r)
    (fun s => Named s.soc ∧ r.held s = 4 ∧ Ratio s.soc.heap.params r.clk 1 1)
    (fun s => Named s.soc ∧ CdrPart r s)
    (fun fresh still done => ?_) (fun fresh now done => ?_) (fun synced done => ?_)
    ⟨jz4740Init_named started, reset, start⟩ completed).imp (And.imp_right And.right)
    (And.imp_right And.right)
  · obtain ⟨named, reset, ratio⟩ := fresh
    obtain ⟨named, effect⟩ := cpmStep_effect named done
    rcases effect.cdr_cases r with ⟨same, -, kept⟩ | ⟨v, access, changed, -, -⟩
    · exact ⟨named, same.trans reset, kept 1 1 ratio⟩
    · exact (still ⟨v, access, reset ▸ changed⟩).elim
  · obtain ⟨named, reset, ratio⟩ := fresh
    obtain ⟨v, access, changed⟩ := now
    obtain ⟨named, effect⟩ := cpmStep_effect named done
    rcases effect.cdr_cases r with ⟨-, same, -⟩ | ⟨v', -, -, value, ratio⟩
    · exact (changed ((same v access).trans reset)).elim
    · exact ⟨named, written value ratio⟩
  · obtain ⟨named, masked, ratio⟩ := synced
    obtain ⟨named, effect⟩ := cpmStep_effect named done
    rcases effect.cdr_cases r with ⟨same, -, kept⟩ | ⟨v, -, -, value, ratio⟩
    · rw [CdrPart, same]
      exact ⟨named, masked, kept _ _ ratio⟩
    · exact ⟨named, written value ratio⟩

end Runs

/-! ## Agreement -/

section Agreement

variable {soc : JzClks ClkName} {n p : ClkName} {d k : BitVec 32}

def HasDivisor (soc : JzClks ClkName) (n : ClkName) (d : BitVec 32) : Prop :=
  ∃ clk, jzFindclk soc n = .ok clk ∧ (soc.heap clk).divisor = d

def HasMultiplier (soc : JzClks ClkName) (n : ClkName) (k : BitVec 32) : Prop :=
  ∃ clk, jzFindclk soc n = .ok clk ∧ (soc.heap clk).multiplier = k

def HangsBelow (soc : JzClks ClkName) (n p : ClkName) : Prop :=
  ∃ clk parent, jzFindclk soc n = .ok clk ∧ jzFindclk soc p = .ok parent ∧
    (soc.heap clk).parent = some parent

/-- The tree has the parameters the values of the registers stand for. -/
structure Decodes (soc : JzClks ClkName) (cpccr cppcr i2scdr msccdr : BitVec 32) : Prop where
  cclk : ∃ d, readTable divTable (cpccrCdiv cpccr) = .ok d ∧ HasDivisor soc .cclk d
  hclk : ∃ d, readTable divTable (cpccrHdiv cpccr) = .ok d ∧ HasDivisor soc .hclk d
  pclk : ∃ d, readTable divTable (cpccrPdiv cpccr) = .ok d ∧ HasDivisor soc .pclk d
  mclk : ∃ d, readTable divTable (cpccrMdiv cpccr) = .ok d ∧ HasDivisor soc .mclk d
  ldclk : HasDivisor soc .ldclk (cpccrLdiv cpccr + 1)
  pllDivider : HasDivisor soc .pllDivider (if cpccr &&& cpccrPcs ≠ 0#32 then 1 else 2)
  pllOutput : if PllOn cppcr then
      (∃ od, readTable pll0 (cppcrPllod cppcr) = .ok od ∧
        HasDivisor soc .pllOutput ((cppcrPlln cppcr + 2) * od)) ∧
      HasMultiplier soc .pllOutput (cppcrPllm cppcr + 2)
    else HasDivisor soc .pllOutput 1 ∧ HasMultiplier soc .pllOutput 1
  i2sclk : HasDivisor soc .i2sclk ((i2scdr &&& i2scdrI2sdivMask) + 1)
  mscclk : HasDivisor soc .mscclk ((msccdr &&& msccdrMscdivMask) + 1)
  usbSource :
    HangsBelow soc .usbclk (if cpccr &&& cpccrUcs ≠ 0#32 then .pllDivider else .oscExtal)
  i2sSource :
    HangsBelow soc .i2sclk (if cpccr &&& cpccrI2cs ≠ 0#32 then .pllDivider else .oscExtal)

/-- The tree has the parameters of the registers the guest reads back. -/
def RegistersDecode (s : Jz4740Cpm) : Prop :=
  ∃ cpccr cppcr i2scdr msccdr, jz474CpmRead s 0x0 = .ok cpccr ∧
    jz474CpmRead s 0x10 = .ok cppcr ∧ jz474CpmRead s 0x60 = .ok i2scdr ∧
    jz474CpmRead s 0x68 = .ok msccdr ∧ Decodes s.soc cpccr cppcr i2scdr msccdr

theorem Named.hasDivisor (named : Named soc) (ratio : Ratio soc.heap.params n d k)
    (other : n ≠ .lcdPclk) : HasDivisor soc n d :=
  ⟨n.copy, named.find other, ratio.1⟩

theorem Named.hasMultiplier (named : Named soc) (ratio : Ratio soc.heap.params n d k)
    (other : n ≠ .lcdPclk) : HasMultiplier soc n k :=
  ⟨n.copy, named.find other, ratio.2⟩

theorem Named.divisor (named : Named soc) (has : HasDivisor soc n d) (other : n ≠ .lcdPclk) :
    (soc.heap.params n.copy).divisor = d := by
  obtain ⟨clk, found, divisor⟩ := has
  cases (named.find other).symm.trans found
  exact divisor

theorem Named.hangsBelow (named : Named soc) (hangs : Hangs soc.heap.params n p)
    (other : n ≠ .lcdPclk) (other' : p ≠ .lcdPclk) : HangsBelow soc n p :=
  ⟨n.copy, p.copy, named.find other, named.find other', hangs⟩

theorem readTable_of_lt {table : List (BitVec 32)} {i : BitVec 32} (lt : i.toNat < table.length) :
    readTable table i = .ok (table.getD i.toNat 0) := by
  rw [readTable, List.getElem?_eq_getElem lt, List.getD_eq_getElem?_getD,
    List.getElem?_eq_getElem lt, Option.getD_some]

/-- A field is not larger than its mask. -/
theorem field_toNat_le (v mask : BitVec 32) (bit : Nat) :
    ((v &&& mask) >>> bit).toNat ≤ mask.toNat >>> bit := by
  rw [BitVec.toNat_ushiftRight, BitVec.toNat_and, Nat.shiftRight_eq_div_pow,
    Nat.shiftRight_eq_div_pow]
  exact Nat.div_le_div_right Nat.and_le_right

theorem pllod_lt (v : BitVec 32) : (cppcrPllod v).toNat < pll0.length :=
  Nat.lt_succ_of_le (field_toNat_le v (0x03#32 <<< 16) 16)

theorem decodes_of_parts {cpccr cppcr : BitVec 32} {s : Jz4740Cpm} (named : Named s.soc)
    (cpccrPart : CpccrPart s.soc.heap.params cpccr) (pllPart : PllPart s.soc.heap.params cppcr)
    (cdrPart : ∀ r, CdrPart r s) : Decodes s.soc cpccr cppcr s.i2scdr s.msccdr := by
  obtain ⟨fields, pllDivider, ldclk, mclk, pclk, hclk, cclk, -, usbSource, i2sSource⟩ := cpccrPart
  constructor
  · exact ⟨_, readTable_of_lt fields.cdiv, named.hasDivisor cclk nofun⟩
  · exact ⟨_, readTable_of_lt fields.hdiv, named.hasDivisor hclk nofun⟩
  · exact ⟨_, readTable_of_lt fields.pdiv, named.hasDivisor pclk nofun⟩
  · exact ⟨_, readTable_of_lt fields.mdiv, named.hasDivisor mclk nofun⟩
  · exact named.hasDivisor ldclk nofun
  · exact named.hasDivisor pllDivider nofun
  · unfold PllPart at pllPart
    split at pllPart
    · next on =>
      rw [if_pos on]
      exact ⟨⟨_, readTable_of_lt (pllod_lt cppcr), named.hasDivisor pllPart nofun⟩,
        named.hasMultiplier pllPart nofun⟩
    · next off =>
      rw [if_neg off]
      exact ⟨named.hasDivisor pllPart nofun, named.hasMultiplier pllPart nofun⟩
  · have part := cdrPart .i2scdr
    exact part.1.symm ▸ named.hasDivisor part.2 nofun
  · have part := cdrPart .msccdr
    exact part.1.symm ▸ named.hasDivisor part.2 nofun
  · exact named.hangsBelow usbSource nofun (by split <;> exact nofun)
  · exact named.hangsBelow i2sSource nofun (by split <;> exact nofun)

variable {fuel : Nat} {freq : BitVec 32} {s t : Jz4740Cpm} {accesses : List CpmAccess}
  {outs : List (Option (BitVec 32))}

/-- The tree is what the guest reads back exactly when each register that a reset
sets without the tree has been changed. -/
theorem registers_decode_iff (started : jz4740Init fuel freq = .ok s)
    (completed : cpmRun fuel s accesses = .ok (t, outs)) :
    RegistersDecode t ↔ (∃ a ∈ accesses, SetsCpccr a) ∧ (∃ a ∈ accesses, SetsCdr .i2scdr a) ∧
      ∃ a ∈ accesses, SetsCdr .msccdr a := by
  have named := named_run (jz4740Init_named started) completed
  have cdr := cdrPart_run started completed
  constructor
  · rintro ⟨_, _, _, _, ⟨⟩, ⟨⟩, ⟨⟩, ⟨⟩, decodes⟩
    refine ⟨?_, ?_, ?_⟩
    · rcases cpccrPart_run started completed with ⟨set, -⟩ | ⟨-, reset, ratio⟩
      · exact set
      · have divisor := named.divisor decodes.pllDivider nofun
        rw [reset, ratio.1] at divisor
        exact absurd divisor (by decide)
    · rcases cdr .i2scdr with ⟨set, -⟩ | ⟨-, reset, ratio⟩
      · exact set
      · have divisor := named.divisor decodes.i2sclk nofun
        rw [show t.i2scdr = 4 from reset] at divisor
        exact absurd (ratio.1.symm.trans divisor) (by decide)
    · rcases cdr .msccdr with ⟨set, -⟩ | ⟨-, reset, ratio⟩
      · exact set
      · have divisor := named.divisor decodes.mscclk nofun
        rw [show t.msccdr = 4 from reset] at divisor
        exact absurd (ratio.1.symm.trans divisor) (by decide)
  · rintro ⟨cpccrSet, i2sSet, mscSet⟩
    refine ⟨_, _, _, _, rfl, rfl, rfl, rfl, decodes_of_parts named ?_ ?_ ?_⟩
    · rcases cpccrPart_run started completed with ⟨-, part⟩ | ⟨unset, -⟩
      · exact part
      · obtain ⟨a, mem, sets⟩ := cpccrSet
        exact (unset a mem sets).elim
    · exact pllPart_run started completed
    · intro r
      rcases cdr r with ⟨-, part⟩ | ⟨unset, -⟩
      · exact part
      · cases r with
        | i2scdr =>
          obtain ⟨a, mem, sets⟩ := i2sSet
          exact (unset a mem sets).elim
        | msccdr =>
          obtain ⟨a, mem, sets⟩ := mscSet
          exact (unset a mem sets).elim

end Agreement

/-- After `jz4740_init` with the 12 MHz crystal the guest reads that PLL outputs are
halved, and the tree does not halve them. -/
theorem reset_does_not_decode : ∃ s, jz4740Init 60 12000000 = .ok s ∧ ¬ RegistersDecode s := by
  obtain ⟨s, started⟩ := exists_ok_of_isOk (x := jz4740Init 60 12000000) (by decide +kernel)
  refine ⟨s, started, ?_⟩
  rintro ⟨_, _, _, _, ⟨⟩, ⟨⟩, ⟨⟩, ⟨⟩, decodes⟩
  have divisor := (jz4740Init_named started).divisor decodes.pllDivider nofun
  rw [(jz4740Init_params started).2 .pllDivider nofun] at divisor
  obtain ⟨soc, -, rfl⟩ := of_map_eq_ok started
  change (1 : BitVec 32) = if 0x42040000#32 &&& cpccrPcs ≠ 0#32 then 1 else 2 at divisor
  exact absurd divisor (by decide)

/-- Three writes bring the tree and the registers together. -/
theorem three_writes_decode : ∃ s t outs, jz4740Init 60 12000000 = .ok s ∧
    cpmRun 60 s [.write 0x0 0x42040001, .write 0x60 0x1f, .write 0x68 0x3] = .ok (t, outs) ∧
    RegistersDecode t := by
  obtain ⟨⟨⟨t, outs⟩, s⟩, both⟩ := exists_ok_of_isOk
    (x := (jz4740Init 60 12000000).bind fun s => (cpmRun 60 s
      [.write 0x0 0x42040001, .write 0x60 0x1f, .write 0x68 0x3]).map (·, s)) (by decide +kernel)
  obtain ⟨s', started, both⟩ := of_bind_eq_ok both
  obtain ⟨⟨t, outs⟩, completed, same⟩ := of_map_eq_ok both
  cases same
  refine ⟨_, _, _, started, completed, (registers_decode_iff started completed).mpr ⟨?_, ?_, ?_⟩⟩
  · exact ⟨_, List.mem_cons_self, _, rfl, by decide⟩
  · exact ⟨.write 0x60 0x1f, by decide, _, rfl, by decide⟩
  · exact ⟨.write 0x68 0x3, by decide, _, rfl, by decide⟩

end VirtualNoah
