import VirtualNoah.Lib.Outcome
import VirtualNoah.Mtd.UdcCoherent

/-!
# Searches and evictions of the sector cache

The searches go down from `Cur_CacheCount` around the entries, the eviction goes up
through the sector numbers of a state.  Here the loops keep a log of the entries they
look at or free; the states are those between the sectors of the requests.
-/

namespace VirtualNoah

open Outcome StepRun WriteBack

/-! ## Loops with a log -/

/-- The entry below, around the start. -/
def entryBelow (i : Nat) : Nat := if i = 0 then 255 else i - 1

/-- The loop of `_NAND_LB_GetFromCache`, with the entries it looks at. -/
def getFromCacheLog (sector : BitVec 32) : Nat → Nat → (CachePtr → SsfdcLbCache) →
    Option CachePtr → Except Fault (((CachePtr → SsfdcLbCache) × Option CachePtr) × List Nat)
  | 0, _, caches, pUseCache => .ok ((caches, pUseCache), [])
  | left + 1, i, caches, pUseCache =>
    if inside : i < 256 then
      let p : CachePtr := ⟨i, inside⟩
      let (caches, pUseCache) :=
        if (caches p).cacheState ≠ .freeCache ∧ sector = (caches p).blockId then
          (Function.update caches p (caches p).touched, some p)
        else (caches, pUseCache)
      (getFromCacheLog sector left (entryBelow i) caches pUseCache).map fun (r, visited) =>
        (r, i :: visited)
    else .error .outOfBounds

/-- The loop of `_NAND_LB_UpdateInCache`, with the entries it looks at. -/
def updateInCacheLog (sector : BitVec 32) (buffer : SectorData) : Nat → Nat → UdcState →
    Except Fault ((UdcState × Bool) × List Nat)
  | 0, _, s => .ok ((s, false), [])
  | left + 1, i, s =>
    if inside : i < 256 then
      let e := s.ssfdcCache ⟨i, inside⟩
      if e.cacheState ≠ .freeCache ∧ e.blockId = sector then
        .ok ((s.setEntry ⟨i, inside⟩ (e.updated buffer), true), [i])
      else
        (updateInCacheLog sector buffer left (entryBelow i) s).map fun (r, visited) =>
          (r, i :: visited)
    else .error .outOfBounds

def nandLbGetFromCacheLog (s : UdcState) (sector : BitVec 32) :
    Except Fault (((CachePtr → SsfdcLbCache) × Option CachePtr) × List Nat) :=
  getFromCacheLog sector 256 (if 256 ≤ s.curCacheCount then 0 else s.curCacheCount)
    s.ssfdcCache none

def nandLbUpdateInCacheLog (s : UdcState) (sector : BitVec 32) (buffer : SectorData) :
    Except Fault ((UdcState × Bool) × List Nat) :=
  updateInCacheLog sector buffer 256 (if 256 < s.curCacheCount then 0 else s.curCacheCount) s

/-- An entry that is freed, and what is written to the device before. -/
structure Eviction where
  entry : CachePtr
  written : Option (BitVec 32 × SectorData)

/-- The write of `_NAND_LB_PreWiteToNand` for an entry. -/
def SsfdcLbCache.written (e : SsfdcLbCache) : Option (BitVec 32 × SectorData) :=
  if e.cacheChange then some (e.blockId, e.aBlockData) else none

/-- `_NAND_LB_PreWiteToNand`, with the entries it frees. -/
def preWiteToNandLog (update : CacheState) : Nat → UdcState → CachePtr →
    Except Fault (UdcState × List Eviction)
  | 0, _, _ => .error .spin
  | rounds + 1, s, pCache =>
    let (_, pCache, flag) := preWriteScan s pCache update
    if flag < 256 then
      (preWiteToNandLog update rounds (writeBack s pCache) pCache).map fun (t, freed) =>
        (t, ⟨pCache, (s.ssfdcCache pCache).written⟩ :: freed)
    else .ok (s, [])

/-- An entry in use that is for the sector. -/
def UdcState.InUseFor (s : UdcState) (sector : BitVec 32) (p : CachePtr) : Prop :=
  (s.ssfdcCache p).cacheState ≠ .freeCache ∧ (s.ssfdcCache p).blockId = sector

section Logs

variable {s : UdcState} {caches : CachePtr → SsfdcLbCache} {sector : BitVec 32}
  {buffer : SectorData} {update : CacheState} {left i : Nat} {use : Option CachePtr}

theorem entryBelow_lt (inside : i < 256) : entryBelow i < 256 := by
  unfold entryBelow
  split
  · decide
  · omega

theorem entryBelow_eq (inside : i < 256) :
    (⟨entryBelow i, entryBelow_lt inside⟩ : CachePtr) = (⟨i, inside⟩ : CachePtr) - 1 := by
  apply Fin.ext
  simp only [entryBelow, Fin.val_sub]
  split
  · next zero =>
    rw [zero]
    rfl
  · have : (1 : CachePtr).val = 1 := rfl
    omega

/-- The entries from one on, going down. -/
def entriesDown : Nat → Nat → List Nat
  | 0, _ => []
  | left + 1, i => i :: entriesDown left (entryBelow i)

/-- The log changes nothing, and no index is out of range. -/
theorem getFromCacheLog_eq (left : Nat) : ∀ {i : Nat} (inside : i < 256)
    (caches : CachePtr → SsfdcLbCache) (use : Option CachePtr),
    getFromCacheLog sector left i caches use =
      .ok (getFromCacheLoop sector left ⟨i, inside⟩ caches use, entriesDown left i) := by
  induction left with
  | zero => exact fun _ _ _ => rfl
  | succ left ih =>
    intro i inside caches use
    unfold getFromCacheLog getFromCacheLoop
    rw [dif_pos inside, ← entryBelow_eq inside]
    by_cases hit : (caches ⟨i, inside⟩).cacheState ≠ .freeCache ∧
        sector = (caches ⟨i, inside⟩).blockId
    · simp only [if_pos hit, ih (entryBelow_lt inside), Except.map, entriesDown]
    · simp only [if_neg hit, ih (entryBelow_lt inside), Except.map, entriesDown]

/-- The search for an update ends where it starts, at an entry of the sector. -/
theorem updateInCacheLog_here (inside : i < 256) (here : s.InUseFor sector ⟨i, inside⟩) :
    updateInCacheLog sector buffer (left + 1) i s =
      .ok ((s.setEntry ⟨i, inside⟩ ((s.ssfdcCache ⟨i, inside⟩).updated buffer), true), [i]) := by
  unfold updateInCacheLog
  rw [dif_pos inside]
  exact if_pos here

/-- The search for an update goes down to the entry it finds, and no further; or all the way, and
there is none. -/
theorem updateInCacheLog_eq (left : Nat) : ∀ {i : Nat}, i < 256 →
    ∃ r visited, updateInCacheLog sector buffer left i s = .ok (r, visited) ∧
      updateInCacheLoop sector buffer left i s = .ok r ∧ visited <+: entriesDown left i ∧
      ((∃ p, s.InUseFor sector p ∧ visited.getLast? = some p.val ∧
          r = (s.setEntry p ((s.ssfdcCache p).updated buffer), true)) ∨
        visited = entriesDown left i ∧ r = (s, false) ∧
          ∀ p, s.InUseFor sector p → p.val ∉ visited) := by
  induction left with
  | zero =>
    exact fun _ => ⟨_, _, rfl, rfl, List.prefix_rfl, Or.inr ⟨rfl, rfl, fun _ _ => List.not_mem_nil⟩⟩
  | succ left ih =>
    intro i inside
    obtain ⟨r, visited, look, same, part, ends⟩ := ih (entryBelow_lt inside)
    by_cases hit : s.InUseFor sector ⟨i, inside⟩
    · refine ⟨_, [i], updateInCacheLog_here inside hit, ?_, ?_, Or.inl ⟨_, hit, rfl, rfl⟩⟩
      · unfold updateInCacheLoop
        rw [dif_pos inside]
        exact if_pos hit
      · exact List.cons_prefix_cons.mpr ⟨rfl, List.nil_prefix⟩
    have miss : ¬ ((s.ssfdcCache ⟨i, inside⟩).cacheState ≠ .freeCache ∧
        (s.ssfdcCache ⟨i, inside⟩).blockId = sector) := hit
    unfold updateInCacheLog updateInCacheLoop
    rw [dif_pos inside, dif_pos inside]
    simp only [if_neg miss]
    refine ⟨r, i :: visited, ?_, same, List.cons_prefix_cons.mpr ⟨rfl, part⟩, ends.imp ?_ ?_⟩
    · rw [look]
      rfl
    · rintro ⟨p, found, last, answer⟩
      exact ⟨p, found, by rw [List.getLast?_cons, last]; rfl, answer⟩
    · rintro ⟨all, answer, none⟩
      refine ⟨congrArg (i :: ·) all, answer, fun p found member => ?_⟩
      rcases List.mem_cons.mp member with here | later
      · obtain rfl : p = ⟨i, inside⟩ := Fin.ext here
        exact hit found
      · exact none p found later

theorem entriesDown_eq (left : Nat) : ∀ {i : Nat}, i < 256 →
    entriesDown left i = (List.range left).map fun k => (i + 255 * k) % 256 := by
  induction left with
  | zero => exact fun _ => rfl
  | succ left ih =>
    intro i inside
    rw [entriesDown, ih (entryBelow_lt inside), List.range_succ_eq_map, List.map_cons,
      List.map_map]
    refine congrArg₂ List.cons (by omega) (List.map_congr_left fun k _ => ?_)
    simp only [entryBelow, Function.comp_apply]
    split <;> omega

/-- Down from any entry, 256 steps meet each entry once. -/
theorem entriesDown_all (inside : i < 256) :
    (entriesDown 256 i).Nodup ∧ ∀ j, j ∈ entriesDown 256 i ↔ j < 256 := by
  rw [entriesDown_eq 256 inside]
  constructor
  · refine List.Nodup.map_on (fun j first k second same => ?_) List.nodup_range
    have := List.mem_range.mp first
    have := List.mem_range.mp second
    omega
  · intro j
    rw [List.mem_map]
    constructor
    · rintro ⟨k, -, rfl⟩
      exact Nat.mod_lt _ (by decide)
    · intro below
      exact ⟨(i + 256 - j) % 256, List.mem_range.mpr (Nat.mod_lt _ (by decide)), by omega⟩

/-- The log of the eviction changes nothing. -/
theorem preWiteToNandLog_eq (rounds : Nat) : ∀ (s : UdcState) (pCache : CachePtr),
    nandLbPreWiteToNand update rounds s pCache =
      (preWiteToNandLog update rounds s pCache).map fun (t, freed) => (t, freed.length) := by
  induction rounds with
  | zero => exact fun _ _ => rfl
  | succ rounds ih =>
    intro s pCache
    unfold nandLbPreWiteToNand preWiteToNandLog
    dsimp only
    split
    · rw [ih]
      cases preWiteToNandLog update rounds (writeBack s (preWriteScan s pCache update).2.1)
        (preWriteScan s pCache update).2.1 <;> rfl
    · rfl

/-- What the scan has seen: no entry of the state is below the lowest sector so far, and
that is the sector of the entry it remembers, if it has seen one. -/
theorem preWriteLook_lowest (s : UdcState) (update : CacheState) (ps : List CachePtr)
    (seen : BitVec 32 × CachePtr × Nat) :
    (ps.foldl (preWriteLook s update) seen).1 ≤ seen.1 ∧
      (∀ p ∈ ps, (s.ssfdcCache p).cacheState = update →
        (ps.foldl (preWriteLook s update) seen).1 ≤ (s.ssfdcCache p).blockId) ∧
      ((ps.foldl (preWriteLook s update) seen).1 = seen.1 ∧
          (ps.foldl (preWriteLook s update) seen).2.1 = seen.2.1 ∨
        (ps.foldl (preWriteLook s update) seen).1 =
          (s.ssfdcCache (ps.foldl (preWriteLook s update) seen).2.1).blockId) := by
  induction ps generalizing seen with
  | nil => exact ⟨BitVec.le_refl _, nofun, Or.inl ⟨rfl, rfl⟩⟩
  | cons p ps ih =>
    obtain ⟨least, all, found⟩ := ih (preWriteLook s update seen p)
    rw [List.foldl_cons]
    generalize ps.foldl (preWriteLook s update) (preWriteLook s update seen p) = last
      at least all found ⊢
    unfold preWriteLook at least found
    by_cases state : (s.ssfdcCache p).cacheState = update
    · rw [if_pos state] at least found
      by_cases lower : (s.ssfdcCache p).blockId < seen.1
      · rw [if_pos lower] at least found
        refine ⟨BitVec.le_trans least (BitVec.le_of_lt lower),
          List.forall_mem_cons.mpr ⟨fun _ => least, all⟩, Or.inr ?_⟩
        rcases found with ⟨sector, entry⟩ | found
        · rw [entry]
          exact sector
        · exact found
      · rw [if_neg lower] at least found
        have above := BitVec.le_trans least (BitVec.not_lt.mp lower)
        exact ⟨least, List.forall_mem_cons.mpr ⟨fun _ => above, all⟩, found⟩
    · rw [if_neg state] at least found
      exact ⟨least, List.forall_mem_cons.mpr ⟨fun is => absurd is state, all⟩, found⟩

/-- A round finds the entry of the state with the lowest sector. -/
theorem preWriteScan_lowest (pCache : CachePtr)
    (below : ∀ p, (s.ssfdcCache p).cacheState = update →
      (s.ssfdcCache p).blockId ≠ 0xffffffff#32) {q : CachePtr}
    (state : (s.ssfdcCache q).cacheState = update) :
    (s.ssfdcCache (preWriteScan s pCache update).2.1).blockId ≤ (s.ssfdcCache q).blockId := by
  obtain ⟨-, all, found⟩ :=
    preWriteLook_lowest s update (List.finRange 256) (0xffffffff#32, pCache, 0)
  have least := all q (List.mem_finRange q) state
  rcases found with ⟨none, -⟩ | found
  · rw [none] at least
    have := below q state
    exact absurd least (by bv_omega)
  · exact found ▸ least

end Logs

/-! ## Evictions -/

/-- The entries of a state are freed, in ascending order of their sectors, and what is
written to the device are the changed ones among them. -/
structure EvictedAscending (s t : UdcState) (update : CacheState) (freed : List Eviction) :
    Prop where
  ascending : freed.Pairwise fun f g =>
    (s.ssfdcCache f.entry).blockId < (s.ssfdcCache g.entry).blockId
  all : ∀ p, p ∈ freed.map Eviction.entry ↔ (s.ssfdcCache p).cacheState = update
  written : ∀ f ∈ freed, f.written = (s.ssfdcCache f.entry).written
  entries : ∀ p, t.ssfdcCache p =
    if (s.ssfdcCache p).cacheState = update then (s.ssfdcCache p).released else s.ssfdcCache p
  device : t.nand = (freed.filterMap Eviction.written).foldl
    (fun nand w => Function.update nand w.1 w.2) s.nand

section Evictions

variable {s t : UdcState} {latest : BitVec 32 → SectorData} {update : CacheState}
  {freed : List Eviction} {p : CachePtr}

theorem evicted_none (none : inState s update = 0) : EvictedAscending s s update [] where
  ascending := .nil
  all p := iff_of_false List.not_mem_nil (inState_eq_zero_iff.mp none p)
  written := nofun
  entries p := (if_neg (inState_eq_zero_iff.mp none p)).symm
  device := rfl

theorem writeBack_nand (s : UdcState) (p : CachePtr) :
    (writeBack s p).nand = ((s.ssfdcCache p).written.toList).foldl
      (fun nand w => Function.update nand w.1 w.2) s.nand := by
  unfold writeBack SsfdcLbCache.written
  dsimp only
  split
  · rfl
  · rfl

/-- One round before the others. -/
theorem EvictedAscending.cons (used : update ≠ .freeCache)
    (state : (s.ssfdcCache p).cacheState = update)
    (lowest : ∀ q, q ≠ p → (s.ssfdcCache q).cacheState = update →
      (s.ssfdcCache p).blockId < (s.ssfdcCache q).blockId)
    (rest : EvictedAscending (writeBack s p) t update freed) :
    EvictedAscending s t update (⟨p, (s.ssfdcCache p).written⟩ :: freed) := by
  obtain ⟨ascending, all, written, entries, device⟩ := rest
  have later : ∀ f ∈ freed, f.entry ≠ p ∧ (s.ssfdcCache f.entry).cacheState = update := by
    intro f member
    have is := (all f.entry).mp (List.mem_map_of_mem member)
    rw [writeBack_entry] at is
    split at is
    · exact absurd is.symm used
    · next apart => exact ⟨apart, is⟩
  have same : ∀ f ∈ freed, (writeBack s p).ssfdcCache f.entry = s.ssfdcCache f.entry :=
    fun f member => by rw [writeBack_entry, if_neg (later f member).1]
  constructor
  · refine List.pairwise_cons.mpr ⟨fun f member => ?_, ?_⟩
    · exact lowest f.entry (later f member).1 (later f member).2
    · refine ascending.imp_of_mem fun first second order => ?_
      rwa [same _ first, same _ second] at order
  · intro q
    rw [List.map_cons, List.mem_cons]
    by_cases here : q = p
    · exact iff_of_true (Or.inl here) (here ▸ state)
    · have before := all q
      rw [writeBack_entry, if_neg here] at before
      exact (or_iff_right here).trans before
  · refine List.forall_mem_cons.mpr ⟨rfl, fun f member => ?_⟩
    rw [written f member, same f member]
  · intro q
    rw [entries, writeBack_entry]
    by_cases here : q = p
    · rw [if_pos here, here, if_pos state]
      exact if_neg used.symm
    · rw [if_neg here]
  · rw [device, writeBack_nand, List.filterMap_cons]
    cases (s.ssfdcCache p).written <;> rfl

theorem preWiteToNandLog_succ (update : CacheState) (rounds : Nat) (s : UdcState)
    (pCache : CachePtr) : preWiteToNandLog update (rounds + 1) s pCache =
      if (preWriteScan s pCache update).2.2 < 256 then
        (preWiteToNandLog update rounds (writeBack s (preWriteScan s pCache update).2.1)
          (preWriteScan s pCache update).2.1).map fun (t, freed) =>
            (t, ⟨(preWriteScan s pCache update).2.1,
              (s.ssfdcCache (preWriteScan s pCache update).2.1).written⟩ :: freed)
      else .ok (s, []) := rfl

/-- The rounds end, and free the entries of the state in ascending order. -/
theorem preWiteToNandLog_spec (used : update ≠ .freeCache) (rounds : Nat) :
    ∀ {s : UdcState} (pCache : CachePtr), Holding s latest → inState s update < rounds →
    ∃ t freed, preWiteToNandLog update rounds s pCache = .ok (t, freed) ∧
      EvictedAscending s t update freed := by
  induction rounds with
  | zero => exact fun _ _ few => absurd few (Nat.not_lt_zero _)
  | succ rounds ih =>
    intro s pCache holding few
    have below : ∀ p, (s.ssfdcCache p).cacheState = update →
        (s.ssfdcCache p).blockId ≠ 0xffffffff#32 :=
      fun p state => holding.below p (state.trans_ne used)
    obtain ⟨count, found⟩ := preWriteScan_spec pCache update below
    have lowest := fun q => preWriteScan_lowest pCache below (q := q)
    rw [preWiteToNandLog_succ]
    generalize (preWriteScan s pCache update).2.2 = flag at count
    by_cases none : inState s update = 0
    · rw [if_neg (by omega)]
      exact ⟨s, [], rfl, evicted_none none⟩
    · have state := found none
      rw [if_pos (by omega)]
      generalize (preWriteScan s pCache update).2.1 = p at state lowest
      have fewer := inState_writeBack state used
      obtain ⟨t, freed, rest, evicted⟩ :=
        ih p (holding.writtenBack (state.trans_ne used)) (by omega)
      refine ⟨t, _, congrArg (Except.map _) rest, evicted.cons used state fun q apart is => ?_⟩
      -- no two entries are for one sector
      have other : (s.ssfdcCache p).blockId ≠ (s.ssfdcCache q).blockId := fun same =>
        apart (holding.coherent.unique (line_used (is.trans_ne used))
          (line_used (state.trans_ne used)) same.symm)
      have := lowest q is
      bv_omega

end Evictions

/-! ## Calls -/

/-- What the requests call: the short ones once for each sector. -/
inductive SectorCall where
  | read (sector : BitVec 32)
  | write (sector : BitVec 32) (buffer : SectorData)
  | multiRead (sector sectorCount : BitVec 32)
  | multiWrite (sector : BitVec 32) (buffer : Nat → SectorData) (sectorCount : BitVec 32)
  | flashcache

def callStep (s : UdcState) : SectorCall → Except Fault (UdcState × List SectorData)
  | .read sector => (nandLbRead s sector).map fun (t, data) => (t, [data])
  | .write sector buffer => (nandLbWrite s sector buffer).map (·, [])
  | .multiRead sector sectorCount => .ok (nandLbMultiRead s sector sectorCount)
  | .multiWrite sector buffer sectorCount =>
    .ok (nandLbMultiWrite s sector buffer sectorCount, [])
  | .flashcache => (nandLbFlashcache s).map (·, [])

/-- The calls of a request. -/
def UdcOp.calls : UdcOp → List SectorCall
  | .read offset len _ =>
    if udcSectors len ≤ 8#32 then
      (sectorsFrom (udcBlock offset) (udcSectors len).toNat).map .read
    else [.multiRead (udcBlock offset) (udcSectors len)]
  | .write offset len buf =>
    if udcSectors len ≤ 8#32 then
      (List.range (udcSectors len).toNat).map fun k =>
        .write (udcBlock offset + BitVec.ofNat 32 k) (buf k)
    else [.multiWrite (udcBlock offset) buf (udcSectors len)]
  | .flashcache => [.flashcache]

/-- The request is for sector numbers below 2^32 - 1. -/
def SectorsBelow : UdcOp → Prop
  | .read offset len _ | .write offset len _ =>
    ∀ k ∈ sectorsFrom (udcBlock offset) (udcSectors len).toNat, k.toNat < 2 ^ 32 - 1
  | .flashcache => True

/-- Such sectors, by calls. -/
def SectorCall.Below : SectorCall → Prop
  | .read sector | .write sector _ => sector ≠ 0xffffffff#32
  | .multiRead _ _ | .flashcache => True
  | .multiWrite sector _ sectorCount => sector.toNat + sectorCount.toNat < 2 ^ 32

section Calls

variable {s t : UdcState} {op : UdcOp} {call : SectorCall}

theorem fits_of_below {sector : BitVec 32} {n : Nat}
    (below : ∀ k ∈ sectorsFrom sector n, k.toNat < 2 ^ 32 - 1) : sector.toNat + n < 2 ^ 32 := by
  refine Nat.lt_of_not_le fun beyond => ?_
  have inside : sector.toNat + (2 ^ 32 - 1 - sector.toNat) < 2 ^ 32 := by omega
  have last := below (sector + BitVec.ofNat 32 (2 ^ 32 - 1 - sector.toNat))
    (List.mem_map_of_mem (List.mem_range.mpr (by omega)))
  rw [toNat_sector inside] at last
  omega

theorem SectorsBelow.calls (below : SectorsBelow op) : ∀ call ∈ op.calls, call.Below := by
  have notLast : ∀ k : BitVec 32, k.toNat < 2 ^ 32 - 1 → k ≠ 0xffffffff#32 := by
    intro k small is
    rw [is] at small
    exact absurd small (by decide)
  intro call member
  cases op with
  | read offset len buf =>
    dsimp only [UdcOp.calls] at member
    split at member
    · obtain ⟨k, inside, rfl⟩ := List.mem_map.mp member
      exact notLast k (below k inside)
    · cases List.mem_singleton.mp member
      trivial
  | write offset len buf =>
    dsimp only [UdcOp.calls] at member
    split at member
    · obtain ⟨k, inside, rfl⟩ := List.mem_map.mp member
      exact notLast _ (below _ (List.mem_map_of_mem inside))
    · cases List.mem_singleton.mp member
      exact fits_of_below below
  | flashcache =>
    cases List.mem_singleton.mp member
    trivial

/-- Each call goes through and keeps the invariant, with some latest data. -/
theorem callStep_through (inv : ∃ latest, UdcInv s latest) (below : call.Below) :
    ∃ t out, callStep s call = .ok (t, out) ∧ ∃ latest, UdcInv t latest := by
  obtain ⟨latest, inv⟩ := inv
  cases call with
  | read sector =>
    obtain ⟨t, read, held⟩ := inv.read below
    exact ⟨t, _, congrArg (Except.map _) read, latest, held⟩
  | write sector buffer =>
    obtain ⟨t, written, held⟩ := inv.write below buffer
    exact ⟨t, _, congrArg (Except.map _) written, _, held⟩
  | multiRead sector sectorCount =>
    obtain ⟨holds, -, cur, -⟩ := inv.toHolding.flushCaches sector (sector + sectorCount)
    exact ⟨_, _, rfl, latest, holds, cur.trans_lt inv.cur⟩
  | multiWrite sector buffer sectorCount =>
    exact ⟨_, _, rfl, _, inv.multiWrite buffer below⟩
  | flashcache =>
    obtain ⟨t, flushed, -, -, held⟩ := inv.flashcache
    exact ⟨t, _, congrArg (Except.map _) flushed, latest, held⟩

theorem reads_of_calls {sectors : List (BitVec 32)} {answers : List (List SectorData)}
    (done : run callStep s (sectors.map .read) = .ok (t, answers)) :
    ∃ data, nandLbReads s sectors = .ok (t, data) := by
  induction sectors generalizing s answers with
  | nil =>
    cases done
    exact ⟨[], rfl⟩
  | cons sector sectors ih =>
    obtain ⟨m, _, _, head, tail, -⟩ := of_run_cons done
    obtain ⟨⟨_, data⟩, read, same⟩ := of_map_eq_ok head
    cases same
    obtain ⟨rest, reads⟩ := ih tail
    refine ⟨data :: rest, ?_⟩
    unfold nandLbReads
    rw [bind_ok read]
    exact bind_ok reads

theorem writes_of_calls {ks : List Nat} {sector : BitVec 32} {buf : Nat → SectorData}
    {answers : List (List SectorData)}
    (done : run callStep s (ks.map fun k => .write (sector + BitVec.ofNat 32 k) (buf k)) =
      .ok (t, answers)) :
    ks.foldlM (fun s k => nandLbWrite s (sector + BitVec.ofNat 32 k) (buf k)) s = .ok t := by
  induction ks generalizing s answers with
  | nil =>
    cases done
    rfl
  | cons k ks ih =>
    obtain ⟨m, _, _, head, tail, -⟩ := of_run_cons done
    obtain ⟨m, written, same⟩ := of_map_eq_ok head
    cases same
    exact foldlM_cons_ok written (ih tail)

/-- A request does what its calls do. -/
theorem udcStep_of_calls {answers : List (List SectorData)}
    (done : run callStep s op.calls = .ok (t, answers)) :
    ∃ out, udcStep s op = .ok (t, out) := by
  cases op with
  | read offset len buf =>
    dsimp only [UdcOp.calls] at done
    dsimp only [udcStep, udcRead]
    split at done
    · next short =>
      obtain ⟨data, reads⟩ := reads_of_calls done
      rw [if_pos short, bind_ok reads]
      exact ⟨_, rfl⟩
    · next long =>
      obtain ⟨_, _, _, head, tail, -⟩ := of_run_cons done
      cases tail
      have read := Except.ok.inj head
      rw [if_neg long, read]
      exact ⟨_, rfl⟩
  | write offset len buf =>
    dsimp only [UdcOp.calls] at done
    dsimp only [udcStep, udcWrite]
    split at done
    · next short =>
      rw [if_pos short, writes_of_calls done]
      exact ⟨_, rfl⟩
    · next long =>
      obtain ⟨_, _, _, head, tail, -⟩ := of_run_cons done
      cases tail
      cases head
      rw [if_neg long]
      exact ⟨_, rfl⟩
  | flashcache =>
    obtain ⟨_, out, _, head, tail, -⟩ := of_run_cons done
    cases tail
    exact ⟨out, head⟩

/-- Requests do what their calls do. -/
theorem run_of_calls {ops : List UdcOp} {answers : List (List SectorData)}
    (done : run callStep s (ops.flatMap UdcOp.calls) = .ok (t, answers)) :
    ∃ outs, run udcStep s ops = .ok (t, outs) := by
  induction ops generalizing s answers with
  | nil =>
    cases done
    exact ⟨[], rfl⟩
  | cons op ops ih =>
    obtain ⟨m, _, _, now, later, -⟩ := of_run_append done
    obtain ⟨out, head⟩ := udcStep_of_calls now
    obtain ⟨outs, tail⟩ := ih later
    exact ⟨out :: outs, run_cons head tail⟩

end Calls

/-! ## Safety -/

/-- Each entry is looked at once, and no other place is. -/
def EachOnce (visited : List Nat) : Prop := visited.Nodup ∧ ∀ i, i ∈ visited ↔ i < 256

/-- The search for an update goes through the entries, each at most once.  It updates the entry
of the sector and stops there, or looks at each entry when there is none. -/
structure UpdateSearch (s : UdcState) (sector : BitVec 32) (buffer : SectorData)
    (r : UdcState × Bool) (visited : List Nat) : Prop where
  nodup : visited.Nodup
  inside : ∀ i ∈ visited, i < 256
  hit : ∀ p, s.InUseFor sector p → visited.getLast? = some p.val ∧
    r = (s.setEntry p ((s.ssfdcCache p).updated buffer), true)
  miss : (∀ p, ¬ s.InUseFor sector p) → EachOnce visited ∧ r = (s, false)

/-- `_NAND_LB_PreWiteToNand` ends, and frees the entries of a state as it should. -/
def Evicts (s t : UdcState) (update : CacheState) (rounds : Nat) (pCache : CachePtr) : Prop :=
  ∃ freed, nandLbPreWiteToNand update rounds s pCache = .ok (t, freed.length) ∧
    preWiteToNandLog update rounds s pCache = .ok (t, freed) ∧
    EvictedAscending s t update freed

/-- The searches and evictions that may start in a state.  Evictions start with any
`Cur_CacheCount` up to 256, where the search for a free entry may leave it. -/
structure SearchSafe (s : UdcState) : Prop where
  cur : s.curCacheCount < 256
  getFromCache : ∀ sector, ∃ caches use visited,
    nandLbGetFromCacheLog s sector = .ok ((caches, use), visited) ∧
      nandLbGetFromCache s sector =
        ({ s with ssfdcCache := caches }, use.map fun p => (caches p).aBlockData) ∧
      EachOnce visited
  updateInCache : ∀ sector buffer, ∃ r visited,
    nandLbUpdateInCacheLog s sector buffer = .ok (r, visited) ∧
      nandLbUpdateInCache s sector buffer = .ok r ∧ UpdateSearch s sector buffer r visited
  preWiteToNand : ∀ cur ≤ 256, ∀ update ≠ .freeCache, ∀ rounds > 256, ∀ pCache, ∃ t u,
    Evicts { s with curCacheCount := cur } t update rounds pCache ∧
      Evicts t u .oftenUseCache rounds pCache
  freeCache : ∀ cur ≤ 256, ∀ rw, (∀ p, (s.ssfdcCache p).cacheState ≠ .freeCache) →
    ∃ t n, nandLbFreeCache { s with curCacheCount := cur } rw = .ok (t, n) ∧
      (nandLbGetFreeCache t).2 ≠ none

section Safety

variable {s : UdcState} {latest : BitVec 32 → SectorData} {update : CacheState} {rounds : Nat}

theorem Holding.evicts (holding : Holding s latest) (used : update ≠ .freeCache)
    (many : 256 < rounds) (pCache : CachePtr) :
    ∃ t, Evicts s t update rounds pCache ∧ Holding t latest := by
  have few : inState s update < rounds := (inState_le s update).trans_lt many
  obtain ⟨t, freed, log, evicted⟩ := preWiteToNandLog_spec used rounds pCache holding few
  obtain ⟨t', plain, holds, -⟩ := preWiteToNand_spec used rounds pCache holding few
  have counted := @preWiteToNandLog_eq update rounds s pCache
  rw [log] at counted
  cases Prod.ext_iff.mp (Except.ok.inj (plain.symm.trans counted)) |>.1
  exact ⟨t, ⟨freed, counted, log, evicted⟩, holds⟩

theorem UdcInv.searchSafe (inv : UdcInv s latest) : SearchSafe s where
  cur := inv.cur
  getFromCache sector := by
    have start : curPtr s.curCacheCount = ⟨s.curCacheCount, inv.cur⟩ := dif_pos inv.cur
    unfold nandLbGetFromCacheLog nandLbGetFromCache
    rw [if_neg (Nat.not_le.mpr inv.cur), getFromCacheLog_eq 256 inv.cur, start]
    exact ⟨_, _, _, rfl, rfl, entriesDown_all inv.cur⟩
  updateInCache sector buffer := by
    unfold nandLbUpdateInCacheLog nandLbUpdateInCache
    rw [if_neg (Nat.lt_asymm inv.cur)]
    obtain ⟨r, visited, log, same, part, ends⟩ := updateInCacheLog_eq 256 inv.cur
    obtain ⟨nodup, entries⟩ := entriesDown_all inv.cur
    refine ⟨r, visited, log, same, nodup.sublist part.sublist,
      fun i member => (entries i).mp (part.subset member), fun p found => ?_, fun none => ?_⟩
    · rcases ends with ⟨q, found', last, answer⟩ | ⟨all, -, none⟩
      · -- no two entries are for one sector
        obtain rfl : q = p := inv.coherent.unique (line_used found'.1) (line_used found.1)
          (found'.2.trans found.2.symm)
        exact ⟨last, answer⟩
      · exact absurd (all ▸ (entries p.val).mpr p.isLt) (none p found)
    · rcases ends with ⟨q, found, -⟩ | ⟨all, answer, -⟩
      · exact absurd found (none q)
      · rw [all]
        exact ⟨⟨nodup, entries⟩, answer⟩
  preWiteToNand cur _ update used rounds many pCache := by
    have moved := inv.toHolding.moveCur cur
    obtain ⟨t, first, holds⟩ := moved.evicts used many pCache
    have often : CacheState.oftenUseCache ≠ .freeCache := nofun
    obtain ⟨u, second, -⟩ := holds.evicts often many pCache
    exact ⟨t, u, first, second⟩
  freeCache cur inside rw _ := by
    have moved := inv.toHolding.moveCur cur
    obtain ⟨t, n, freed, -, -, cur_eq, p, free⟩ := moved.freeCache rw
    obtain ⟨cur', found, look, -, -, full⟩ := getFreeCache_spec (cur_eq.trans_le inside)
    refine ⟨t, n, freed, fun none => ?_⟩
    rw [look] at none
    exact full none p free

end Safety

/-- After `NAND_LB_Init`, over all requests for sectors below 2^32 - 1: they go through, by
calls that start with `Cur_CacheCount` at an entry and with searches and evictions as they
should be. -/
theorem searches_and_evictions_safe (s : UdcState) (ops : List UdcOp)
    (below : ∀ op ∈ ops, SectorsBelow op) :
    ∃ t outs answers, run udcStep (nandLbInit s) ops = .ok (t, outs) ∧
      run callStep (nandLbInit s) (ops.flatMap UdcOp.calls) = .ok (t, answers) ∧
      Always callStep SearchSafe (nandLbInit s) (ops.flatMap UdcOp.calls) := by
  have guarded : Along callStep (fun _ call => call.Below) (nandLbInit s)
      (ops.flatMap UdcOp.calls) := by
    refine .of_forall_mem fun call member _ => ?_
    obtain ⟨op, inside, within⟩ := List.mem_flatMap.mp member
    exact (below op inside).calls call within
  have start : ∃ latest, UdcInv (nandLbInit s) latest := ⟨_, UdcInv.init s⟩
  obtain ⟨t, answers, called, -⟩ := run_through _ callStep_through start guarded
  obtain ⟨outs, done⟩ := run_of_calls called
  refine ⟨t, outs, answers, done, called, always_of_along (fun s => ∃ latest, UdcInv s latest)
    ?_ (fun ⟨_, inv⟩ => inv.searchSafe) start guarded⟩
  intro s call s' out inv below head
  obtain ⟨s'', out', head', held⟩ := callStep_through inv below
  cases head.symm.trans head'
  exact held

theorem below_lastSector (buf : Nat → SectorData) : SectorsBelow (.write 0 0x200 buf) := by
  have only : sectorsFrom (udcBlock 0) (udcSectors 0x200).toNat = [0#32] := rfl
  intro k member
  rw [only] at member
  cases List.mem_singleton.mp member
  decide

/-- A sector is written twice, and the cache is flushed. -/
theorem written_twice_safe :
    ∃ t outs answers, run udcStep (nandLbInit blankDevice)
        [.write 0 0x200 fun _ => onesSector, .write 0 0x200 fun _ => onesSector, .flashcache] =
          .ok (t, outs) ∧
      run callStep (nandLbInit blankDevice)
        ([.write 0 0x200 fun _ => onesSector, .write 0 0x200 fun _ => onesSector,
          .flashcache].flatMap UdcOp.calls) = .ok (t, answers) ∧
      Always callStep SearchSafe (nandLbInit blankDevice)
        ([.write 0 0x200 fun _ => onesSector, .write 0 0x200 fun _ => onesSector,
          .flashcache].flatMap UdcOp.calls) := by
  refine searches_and_evictions_safe blankDevice _ fun op member => ?_
  rcases List.mem_cons.mp member with rfl | member
  · exact below_lastSector _
  · rcases List.mem_cons.mp member with rfl | member
    · exact below_lastSector _
    · cases List.mem_singleton.mp member
      trivial

/-- The second write of a sector finds it in the entry that is looked at first, and looks at
no other one. -/
theorem second_write_stops :
    SectorsBelow (.write 0 0x200 fun _ => onesSector) ∧
      ∃ t outs r, run callStep (nandLbInit blankDevice)
          (UdcOp.calls (.write 0 0x200 fun _ => onesSector)) = .ok (t, outs) ∧
        nandLbUpdateInCacheLog t 0 onesSector = .ok (r, [0]) ∧ ¬ EachOnce [0] := by
  have one : UdcOp.calls (.write 0 0x200 fun _ => onesSector) = [.write 0 onesSector] := rfl
  have inside : 0 < 256 := by decide
  have missed : nandLbUpdateInCache (nandLbInit blankDevice) 0 onesSector =
      .ok (nandLbInit blankDevice, false) := by
    rcases updateInCacheLoop_spec 0 onesSector (nandLbInit blankDevice) 256 inside with
      ⟨p, used, -⟩ | ⟨missed, -⟩
    · exact absurd (init_free blankDevice p) used
    · exact missed
  let p : CachePtr := ⟨0, inside⟩
  let t := (nandLbInit blankDevice).setEntry p ⟨.prewriteCache, 0, true, 0, onesSector⟩
  have written : nandLbWrite (nandLbInit blankDevice) 0 onesSector = .ok t := by
    unfold nandLbWrite
    rw [bind_ok missed]
    rfl
  have call : callStep (nandLbInit blankDevice) (.write 0 onesSector) = .ok (t, []) := by
    rw [callStep, written]
    rfl
  have entry : t.ssfdcCache p = ⟨.prewriteCache, 0, true, 0, onesSector⟩ :=
    (setEntry_entry ..).trans (if_pos rfl)
  have used : (t.ssfdcCache p).cacheState ≠ .freeCache := by
    rw [entry]
    nofun
  have same : (t.ssfdcCache p).blockId = 0 := congrArg SsfdcLbCache.blockId entry
  rw [one]
  refine ⟨below_lastSector _, t, _, _, run_cons call rfl,
    updateInCacheLog_here inside ⟨used, same⟩, fun each => ?_⟩
  have second : 1 ∈ [0] := (each.2 1).mpr (by decide)
  exact absurd second (by decide)

end VirtualNoah
