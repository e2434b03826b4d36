import VirtualNoah.Lib.SiblingForest
import VirtualNoah.Soc.Host

/-!
# The clocks of the SoC

`jz_clk_init` copies the clocks of one SoC out of the table of all SoCs and links
the copies by the names of their parents; the other operations change one clock
and walk over what depends on it.  The two recursive walks and the two pointer
loops of `mips_jz_clk.c` run on fuel.

Clock names are compared and nothing else, so their type is a parameter.  The
fields `running` and `enabled` are read as truth values only.
-/

namespace VirtualNoah

open SiblingForest

/-- A clock of the static table, or of the array `jz_clk_init` allocates. -/
inductive ClkPtr where
  | onchip (i : Nat)
  | clks (j : Nat)
  deriving DecidableEq

structure Clk (ν : Type) where
  name : Option ν
  aliasName : Option ν
  parent : Option ClkPtr
  child1 : Option ClkPtr
  sibling : Option ClkPtr
  flags : BitVec 32
  running : Bool
  enabled : Bool
  rate : BitVec 64
  divisor : BitVec 32
  multiplier : BitVec 32

abbrev ClkHeap (ν : Type) := ClkPtr → Clk ν

def alwaysEnabled : BitVec 32 := bitMask 0
def clockInJz4740 : BitVec 32 := bitMask 11

variable {ν : Type}

/-- The memory `qemu_mallocz` has cleared. -/
def Clk.zero : Clk ν := ⟨none, none, none, none, none, 0, false, false, 0, 0, 0⟩

def ClkHeap.set (h : ClkHeap ν) (p : ClkPtr) (c : Clk ν) : ClkHeap ν := Function.update h p c

def ClkHeap.links (h : ClkHeap ν) : Links ClkPtr where
  parent p := (h p).parent
  child1 p := (h p).child1
  sibling p := (h p).sibling

/-! ## Walks over what depends on a clock -/

/-- `running` as `jz_clk_update` computes it. -/
def ClkHeap.ticks (h : ClkHeap ν) (clk : ClkPtr) : Bool :=
  (match (h clk).parent with
    | some p => (h p).running
    | none => true) &&
  ((h clk).enabled || (h clk).flags &&& alwaysEnabled ≠ 0#32)

mutual

def jzClkUpdate : Nat → ClkHeap ν → ClkPtr → Except Fault (ClkHeap ν)
  | 0, _, _ => .error .spin
  | fuel + 1, h, clk =>
    if (h clk).running ≠ h.ticks clk then
      let h := h.set clk { h clk with running := h.ticks clk }
      jzClkUpdateFrom fuel h (h clk).child1
    else .ok h

/-- `for (i = start; i; i = i->sibling) jz_clk_update(i);` -/
def jzClkUpdateFrom : Nat → ClkHeap ν → Option ClkPtr → Except Fault (ClkHeap ν)
  | 0, _, _ => .error .spin
  | _ + 1, h, none => .ok h
  | fuel + 1, h, some i =>
    match jzClkUpdate fuel h i with
    | .error e => .error e
    | .ok h => jzClkUpdateFrom fuel h (h i).sibling

end

mutual

/-- `muldiv64` takes the products as 32-bit arguments. -/
def jzClkRateUpdateFull : Nat → ClkHeap ν → ClkPtr → BitVec 64 → BitVec 64 → BitVec 64 →
    Except Fault (ClkHeap ν)
  | 0, _, _, _, _, _ => .error .spin
  | fuel + 1, h, clk, rate, div, mult =>
    if div.setWidth 32 = 0#32 then .error .divideByZero
    else
      let h := h.set clk
        { h clk with rate := muldiv64 rate (mult.setWidth 32) (div.setWidth 32) }
      if (h clk).running then jzClkRateUpdateFullFrom fuel h (h clk).child1 rate div mult
      else .ok h

/-- The loop over the children in `jz_clk_rate_update_full`. -/
def jzClkRateUpdateFullFrom : Nat → ClkHeap ν → Option ClkPtr → BitVec 64 → BitVec 64 →
    BitVec 64 → Except Fault (ClkHeap ν)
  | 0, _, _, _, _, _ => .error .spin
  | _ + 1, h, none, _, _, _ => .ok h
  | fuel + 1, h, some i, rate, div, mult =>
    match jzClkRateUpdateFull fuel h i rate (div * (h i).divisor.setWidth 64)
        (mult * (h i).multiplier.setWidth 64) with
    | .error e => .error e
    | .ok h => jzClkRateUpdateFullFrom fuel h (h i).sibling rate div mult

end

/-- The loop of `jz_clk_rate_update`: the root above a clock and the products of
the divisors and multipliers on the way. -/
def jzClkPathTotals : Nat → ClkHeap ν → ClkPtr → BitVec 64 → BitVec 64 →
    Except Fault (ClkPtr × BitVec 64 × BitVec 64)
  | 0, _, _, _, _ => .error .spin
  | fuel + 1, h, i, div, mult =>
    match (h i).parent with
    | none => .ok (i, div, mult)
    | some p =>
      jzClkPathTotals fuel h p (div * (h i).divisor.setWidth 64)
        (mult * (h i).multiplier.setWidth 64)

def jzClkRateUpdate (fuel : Nat) (h : ClkHeap ν) (clk : ClkPtr) : Except Fault (ClkHeap ν) :=
  match jzClkPathTotals fuel h clk 1 1 with
  | .error e => .error e
  | .ok (root, div, mult) => jzClkRateUpdateFull fuel h clk (h root).rate div mult

/-! ## Operations -/

def ClkHeap.put (h : ClkHeap ν) (s : Slot ClkPtr) (v : Option ClkPtr) : ClkHeap ν :=
  match s with
  | .child1 p => h.set p { h p with child1 := v }
  | .sibling c => h.set c { h c with sibling := v }

/-- `for (p = slot; *p != clk; p = &(*p)->sibling);` -/
def unlinkSlot : Nat → ClkHeap ν → ClkPtr → Slot ClkPtr → Except Fault (Slot ClkPtr)
  | 0, _, _, _ => .error .spin
  | fuel + 1, h, clk, slot =>
    match h.links.get slot with
    | none => .error .segv
    | some c => if c = clk then .ok slot else unlinkSlot fuel h clk (.sibling c)

/-- The clock leaves the list of its parent, if it has one. -/
def ClkHeap.unlink (fuel : Nat) (h : ClkHeap ν) (clk : ClkPtr) : Except Fault (ClkHeap ν) :=
  match (h clk).parent with
  | none => .ok h
  | some p => (unlinkSlot fuel h clk (.child1 p)).map fun slot => h.put slot (h clk).sibling

/-- The clock becomes the first child of `p`. -/
def ClkHeap.linkBelow (h : ClkHeap ν) (clk p : ClkPtr) : ClkHeap ν :=
  let h := h.set clk { h clk with parent := some p }
  let h := h.set clk { h clk with sibling := (h p).child1 }
  h.set p { h p with child1 := some clk }

/-- The clock has no parent and no sibling any more. -/
def ClkHeap.makeRoot (h : ClkHeap ν) (clk : ClkPtr) : ClkHeap ν :=
  let h := h.set clk { h clk with parent := none }
  h.set clk { h clk with sibling := none }

def jzClkReparent (fuel : Nat) (h : ClkHeap ν) (clk : ClkPtr) (parent : Option ClkPtr) :
    Except Fault (ClkHeap ν) :=
  match h.unlink fuel clk with
  | .error e => .error e
  | .ok h =>
    match parent with
    | some p =>
      match jzClkUpdate fuel (h.linkBelow clk p) clk with
      | .error e => .error e
      | .ok h => jzClkRateUpdate fuel h clk
    | none => .ok (h.makeRoot clk)

def jzClkOnoff (fuel : Nat) (h : ClkHeap ν) (clk : ClkPtr) (on : Bool) :
    Except Fault (ClkHeap ν) :=
  jzClkUpdate fuel (h.set clk { h clk with enabled := on }) clk

def jzClkSetrate (fuel : Nat) (h : ClkHeap ν) (clk : ClkPtr) (divide multiply : BitVec 32) :
    Except Fault (ClkHeap ν) :=
  jzClkRateUpdate fuel (h.set clk { h clk with divisor := divide, multiplier := multiply }) clk

/-! ## Initialisation -/

/-- The clocks of the SoC: the first `count` of the array. -/
structure JzClks (ν : Type) where
  heap : ClkHeap ν
  count : Nat

section Init

variable [DecidableEq ν]

/-- `c->parent && !strcmp(c->parent->name, p->name)` -/
def ClkHeap.parentNamed (h : ClkHeap ν) (c p : ClkPtr) : Bool :=
  match (h c).parent with
  | some q => (h q).name = (h p).name
  | none => false

/-- The body of the loop over the clocks copied so far. -/
def clkLink (h : ClkHeap ν) (j k : ClkPtr) : ClkHeap ν :=
  if h.parentNamed j k then h.linkBelow j k
  else if h.parentNamed k j then h.linkBelow k j
  else h

/-- `j->divisor ? : 1` and the same for the multiplier. -/
def Clk.defaults (c : Clk ν) : Clk ν :=
  { c with
    divisor := if c.divisor = 0#32 then 1 else c.divisor
    multiplier := if c.multiplier = 0#32 then 1 else c.multiplier }

/-- One clock of the table is copied to `clks + j`. -/
def clkCopy (h : ClkHeap ν) (j : Nat) (c : Clk ν) : ClkHeap ν :=
  let h := h.set (.clks j) c
  let h := (List.range j).foldl (fun h k => clkLink h (.clks j) (.clks k)) h
  h.set (.clks j) (h (.clks j)).defaults

/-- The loop over the table. -/
def clkCopyAll (flag : BitVec 32) (s : JzClks ν) (n : Nat) : JzClks ν :=
  (List.range n).foldl (fun s i =>
    let c := s.heap (.onchip i)
    if c.flags &&& flag ≠ 0#32 then ⟨clkCopy s.heap s.count c, s.count + 1⟩ else s) s

/-- The loop that starts the clocks. -/
def clkStart (fuel : Nat) : ClkHeap ν → List Nat → Except Fault (ClkHeap ν)
  | h, [] => .ok h
  | h, j :: js =>
    match jzClkUpdate fuel h (.clks j) with
    | .error e => .error e
    | .ok h =>
      match jzClkRateUpdate fuel h (.clks j) with
      | .error e => .error e
      | .ok h => clkStart fuel h js

/-- The table in memory, with the rate of `osc_extal` set. -/
def onchipHeap (table : List (Clk ν)) (oscExtal : Nat) (freq : BitVec 32) : ClkHeap ν
  | .onchip i =>
    let c := table.getD i Clk.zero
    if i = oscExtal then { c with rate := freq.setWidth 64 } else c
  | .clks _ => Clk.zero

/-- `jz_clk_init` for the SoC with this flag, on a table whose end is marked. -/
def jzClkInit (fuel : Nat) (flag : BitVec 32) (table : List (Clk ν)) (oscExtal : Nat)
    (oscExtalFreq : BitVec 32) : Except Fault (JzClks ν) :=
  let s := clkCopyAll flag ⟨onchipHeap table oscExtal oscExtalFreq, 0⟩ table.length
  (clkStart fuel s.heap (List.range s.count)).map fun h => ⟨h, s.count⟩

/-- The scan ends at the cleared clock behind the last one. -/
def jzFindclk (s : JzClks ν) (name : ν) : Except Fault ClkPtr :=
  match (List.range s.count).find? fun i =>
      (s.heap (.clks i)).name = some name ∨ (s.heap (.clks i)).aliasName = some name with
  | some i => .ok (.clks i)
  | none => .error .cpuAbort

end Init

end VirtualNoah
