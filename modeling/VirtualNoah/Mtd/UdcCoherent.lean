import VirtualNoah.Mtd.UdcEntries

/-!
# Coherence of the sector cache

Short requests go through the entries, long ones past them.  Either way reads
answer with what was written last, on every device the sector numbers of the
long reads and of the eviction loop can deal with.
-/

namespace VirtualNoah

open StepRun WriteBack

/-! ## Requests -/

/-- The sectors as they are when `n` sectors from `sector` on are written. -/
def overlay (latest : BitVec 32 → SectorData) (sector : BitVec 32) (n : Nat)
    (buffer : Nat → SectorData) : BitVec 32 → SectorData := fun k =>
  if sector.toNat ≤ k.toNat ∧ k.toNat < sector.toNat + n then buffer (k.toNat - sector.toNat)
  else latest k

section Requests

variable {s : UdcState} {latest : BitVec 32 → SectorData} {sector : BitVec 32} {n : Nat}

theorem toNat_sector (fits : sector.toNat + n < 2 ^ 32) :
    (sector + BitVec.ofNat 32 n).toNat = sector.toNat + n := by
  rw [BitVec.toNat_add, BitVec.toNat_ofNat, Nat.mod_eq_of_lt (a := n) (by omega)]
  exact Nat.mod_eq_of_lt fits

theorem mem_sectorsFrom {k : BitVec 32} (fits : sector.toNat + n < 2 ^ 32) :
    k ∈ sectorsFrom sector n ↔ sector.toNat ≤ k.toNat ∧ k.toNat < sector.toNat + n := by
  unfold sectorsFrom
  rw [List.mem_map]
  constructor
  · rintro ⟨j, member, rfl⟩
    have few := List.mem_range.mp member
    have inside : sector.toNat + j < 2 ^ 32 := by omega
    rw [toNat_sector inside]
    omega
  · rintro ⟨low, high⟩
    refine ⟨k.toNat - sector.toNat, List.mem_range.mpr (by omega), ?_⟩
    have inside : sector.toNat + (k.toNat - sector.toNat) < 2 ^ 32 := by omega
    apply BitVec.eq_of_toNat_eq
    rw [toNat_sector inside]
    omega

theorem overlay_zero (latest : BitVec 32 → SectorData) (sector : BitVec 32)
    (buffer : Nat → SectorData) : overlay latest sector 0 buffer = latest :=
  funext fun _ => if_neg fun both => absurd both.1 (Nat.not_le.mpr both.2)

theorem overlay_succ (latest : BitVec 32 → SectorData) (buffer : Nat → SectorData)
    (fits : sector.toNat + n < 2 ^ 32) : overlay latest sector (n + 1) buffer =
      Function.update (overlay latest sector n buffer) (sector + BitVec.ofNat 32 n)
        (buffer n) := by
  have last := toNat_sector fits
  funext k
  by_cases same : k = sector + BitVec.ofNat 32 n
  · rw [same, Function.update_self, overlay, last, if_pos (by omega), Nat.add_sub_cancel_left]
  · have apart : k.toNat ≠ sector.toNat + n := fun is =>
      same (BitVec.eq_of_toNat_eq (is.trans last.symm))
    rw [Function.update_of_ne same]
    unfold overlay
    refine if_congr ?_ rfl rfl
    omega

theorem ne_last (fits : sector.toNat + n + 1 < 2 ^ 32) :
    sector + BitVec.ofNat 32 n ≠ 0xffffffff#32 := by
  intro is
  have last : sector.toNat + n = 0xffffffff := by
    rw [← toNat_sector (by omega), is]
    rfl
  omega

theorem UdcInv.reads (inv : UdcInv s latest) (sectors : List (BitVec 32))
    (below : ∀ k ∈ sectors, k ≠ 0xffffffff#32) :
    ∃ t, nandLbReads s sectors = .ok (t, sectors.map latest) ∧ UdcInv t latest := by
  induction sectors generalizing s with
  | nil => exact ⟨s, rfl, inv⟩
  | cons k sectors ih =>
    obtain ⟨now, later⟩ := List.forall_mem_cons.mp below
    obtain ⟨m, head, mid⟩ := inv.read now
    obtain ⟨t, tail, ends⟩ := ih mid later
    refine ⟨t, ?_, ends⟩
    simp only [nandLbReads, head, tail, bind, Except.bind, List.map_cons]

/-- The range of `_NAND_LB_FLUSHCACHES` and `_NAND_LB_CloseCACHES`. -/
theorem between_iff {k sectorCount : BitVec 32}
    (fits : sector.toNat + sectorCount.toNat < 2 ^ 32) :
    sector ≤ k ∧ k < sector + sectorCount ↔
      sector.toNat ≤ k.toNat ∧ k.toNat < sector.toNat + sectorCount.toNat := by
  rw [BitVec.le_def, BitVec.lt_def, BitVec.toNat_add, Nat.mod_eq_of_lt fits]

/-- The signed loop of `NAND_LB_MultiRead` reads all sectors, when it does not pass from
positive to negative numbers. -/
theorem signed_count {sectorCount : BitVec 32}
    (fits : sector.toNat + sectorCount.toNat < 2 ^ 32)
    (oneSign : ¬ (sector.toNat < 2 ^ 31 ∧ 2 ^ 31 ≤ sector.toNat + sectorCount.toNat)) :
    ((sector + sectorCount).toInt - sector.toInt).toNat = sectorCount.toNat := by
  rw [BitVec.toInt_eq_toNat_cond, BitVec.toInt_eq_toNat_cond, BitVec.toNat_add,
    Nat.mod_eq_of_lt fits]
  split <;> split <;> omega

theorem UdcInv.multiRead (inv : UdcInv s latest) {sectorCount : BitVec 32}
    (fits : sector.toNat + sectorCount.toNat < 2 ^ 32)
    (oneSign : ¬ (sector.toNat < 2 ^ 31 ∧ 2 ^ 31 ≤ sector.toNat + sectorCount.toNat)) :
    ∃ t, nandLbMultiRead s sector sectorCount =
        (t, (sectorsFrom sector sectorCount.toNat).map latest) ∧ UdcInv t latest := by
  have flush := inv.toHolding.flushCaches sector (sector + sectorCount)
  unfold nandLbMultiRead
  dsimp only
  rw [signed_count fits oneSign]
  generalize nandLbFlushCaches s sector (sector + sectorCount) = t at flush ⊢
  obtain ⟨holds, -, cur, out⟩ := flush
  have answers : ∀ k ∈ sectorsFrom sector sectorCount.toNat, t.nand k = latest k := by
    intro k member
    refine holds.coherent.store_eq ?_
    rintro ⟨p, a, line, key⟩
    obtain ⟨used, rfl⟩ := of_line line
    have inside := (between_iff fits).mpr ((mem_sectorsFrom fits).mp member)
    rw [← key] at inside
    exact out p ⟨used, inside⟩
  exact ⟨t, by rw [List.map_congr_left answers], ⟨holds, cur.trans_lt inv.cur⟩⟩

theorem UdcInv.writes (inv : UdcInv s latest) (buffer : Nat → SectorData)
    (fits : sector.toNat + n < 2 ^ 32) :
    ∃ t, (List.range n).foldlM
        (fun s k => nandLbWrite s (sector + BitVec.ofNat 32 k) (buffer k)) s = .ok t ∧
      UdcInv t (overlay latest sector n buffer) := by
  induction n with
  | zero => exact ⟨s, rfl, (overlay_zero latest sector buffer).symm ▸ inv⟩
  | succ n ih =>
    obtain ⟨m, before, mid⟩ := ih (by omega)
    obtain ⟨t, last, ends⟩ := mid.write (ne_last (by omega)) (buffer n)
    refine ⟨t, ?_, ?_⟩
    · rw [List.range_succ, List.foldlM_append, before]
      simp only [bind, Except.bind, List.foldlM_cons, List.foldlM_nil, last]
      rfl
    · rw [overlay_succ latest buffer (by omega)]
      exact ends

/-- The loop of `NAND_LB_MultiWrite` changes the device only. -/
theorem writesects_eq (s : UdcState) (buffer : Nat → SectorData)
    (fits : sector.toNat + n < 2 ^ 32) :
    (List.range n).foldl
        (fun s k => udcMtdblockWritesect s (sector + BitVec.ofNat 32 k) (buffer k)) s =
      { s with nand := overlay s.nand sector n buffer } := by
  induction n with
  | zero =>
    rw [overlay_zero]
    rfl
  | succ n ih =>
    rw [List.range_succ, List.foldl_append, ih (by omega), overlay_succ _ _ (by omega)]
    rfl

theorem UdcInv.multiWrite (inv : UdcInv s latest) {sectorCount : BitVec 32}
    (buffer : Nat → SectorData) (fits : sector.toNat + sectorCount.toNat < 2 ^ 32) :
    UdcInv (nandLbMultiWrite s sector buffer sectorCount)
      (overlay latest sector sectorCount.toNat buffer) := by
  have stop : (sector + sectorCount).toNat = sector.toNat + sectorCount.toNat := by
    rw [BitVec.toNat_add]
    exact Nat.mod_eq_of_lt fits
  have written : nandLbMultiWrite s sector buffer sectorCount =
      { nandLbCloseCaches s sector (sector + sectorCount) with
        nand := overlay s.nand sector sectorCount.toNat buffer } := by
    unfold nandLbMultiWrite
    dsimp only
    rw [stop, Nat.add_sub_cancel_left]
    exact writesects_eq _ buffer fits
  have freed : OnlyFreed s (nandLbMultiWrite s sector buffer sectorCount) := by
    intro p
    rw [written]
    simp only [nandLbCloseCaches]
    split
    · exact Or.inr rfl
    · exact Or.inl rfl
  refine ⟨inv.toHolding.of_onlyFreed freed ?_, ?_⟩
  · refine inv.coherent.bypass
      (fun k => sector.toNat ≤ k.toNat ∧ k.toNat < sector.toNat + sectorCount.toNat) ?_ ?_ ?_
    · intro p a
      rw [written]
      simp only [UdcState.cache, nandLbCloseCaches]
      split
      · next inside =>
        refine iff_of_false (fun held => by cases held) fun ⟨held, outside⟩ => outside ?_
        obtain ⟨-, rfl⟩ := of_line held
        exact (between_iff fits).mp inside.2
      · next outside =>
        refine ⟨fun held => ⟨held, fun inside => ?_⟩, And.left⟩
        obtain ⟨used, rfl⟩ := of_line held
        exact outside ⟨used, (between_iff fits).mpr inside⟩
    · intro k inside
      rw [written]
      exact (if_pos inside).trans (if_pos inside).symm
    · intro k outside
      rw [written]
      exact ⟨if_neg outside, if_neg outside⟩
  · rw [written]
    exact inv.cur

end Requests

/-- A request of the gadget. -/
inductive UdcOp where
  | read (offset : BitVec 64) (len : BitVec 32) (buf : Nat → SectorData)
  | write (offset : BitVec 64) (len : BitVec 32) (buf : Nat → SectorData)
  | flashcache

def udcStep (s : UdcState) : UdcOp → Except Fault (UdcState × List SectorData)
  | .read offset len buf => udcRead s offset len buf
  | .write offset len buf => (udcWrite s offset len buf).map (·, [])
  | .flashcache => (nandLbFlashcache s).map (·, [])

/-- What the gadget is for: sectors that hold what was written to them last. -/
def sectorStep (latest : BitVec 32 → SectorData) :
    UdcOp → Except Fault ((BitVec 32 → SectorData) × List SectorData)
  | .read offset len _ =>
    .ok (latest, (sectorsFrom (udcBlock offset) (udcSectors len).toNat).map latest)
  | .write offset len buf =>
    .ok (overlay latest (udcBlock offset) (udcSectors len).toNat buf, [])
  | .flashcache => .ok (latest, [])

/-- The request covers sectors below the last sector number. -/
def InSectors (offset : BitVec 64) (len : BitVec 32) : Prop :=
  offset.toNat / 512 + len.toNat / 512 < 2 ^ 32

/-- Requests that neither reach sector 2^32 - 1 nor read, past the entries, from below
sector 2^31 up to it or beyond. -/
def Cacheable : UdcOp → Prop
  | .read offset len _ => InSectors offset len ∧ (8 < len.toNat / 512 →
      ¬ (offset.toNat / 512 < 2 ^ 31 ∧ 2 ^ 31 ≤ offset.toNat / 512 + len.toNat / 512))
  | .write offset len _ => InSectors offset len
  | .flashcache => True

/-- At most one entry in use for a sector. -/
def OneEntryPerSector (s : UdcState) : Prop :=
  ∀ p q, (s.ssfdcCache p).cacheState ≠ .freeCache → (s.ssfdcCache q).cacheState ≠ .freeCache →
    (s.ssfdcCache p).blockId = (s.ssfdcCache q).blockId → p = q

section Runs

variable {s : UdcState} {latest : BitVec 32 → SectorData} {op : UdcOp}

theorem udcSectors_toNat (len : BitVec 32) : (udcSectors len).toNat = len.toNat / 512 := by
  rw [udcSectors, BitVec.toNat_ushiftRight, Nat.shiftRight_eq_div_pow]

theorem udcBlock_toNat {offset : BitVec 64} {len : BitVec 32} (inside : InSectors offset len) :
    (udcBlock offset).toNat = offset.toNat / 512 := by
  unfold InSectors at inside
  rw [udcBlock, BitVec.toNat_setWidth, BitVec.toNat_ushiftRight, Nat.shiftRight_eq_div_pow]
  exact Nat.mod_eq_of_lt (by omega)

/-- A buffer that is read in full. -/
theorem fill_buffer (data : List SectorData) {n : Nat} (full : data.length = n)
    (buf : Nat → SectorData) : (List.range n).map (fun k => data[k]?.getD (buf k)) = data := by
  apply List.ext_getElem
  · rw [List.length_map, List.length_range, full]
  · intro k _ inside
    rw [List.getElem_map, List.getElem_range, List.getElem?_eq_getElem inside, Option.getD_some]

theorem length_sectorsFrom (sector : BitVec 32) (n : Nat) :
    (sectorsFrom sector n).length = n := by
  rw [sectorsFrom, List.length_map, List.length_range]

theorem UdcInv.udcRead (inv : UdcInv s latest) {offset : BitVec 64} {len : BitVec 32}
    (buf : Nat → SectorData) (cacheable : Cacheable (.read offset len buf)) :
    ∃ t, udcRead s offset len buf =
        .ok (t, (sectorsFrom (udcBlock offset) (udcSectors len).toNat).map latest) ∧
      UdcInv t latest := by
  obtain ⟨inside, oneSign⟩ := cacheable
  have fits : (udcBlock offset).toNat + (udcSectors len).toNat < 2 ^ 32 := by
    rw [udcBlock_toNat inside, udcSectors_toNat]
    exact inside
  have full := fill_buffer ((sectorsFrom (udcBlock offset) (udcSectors len).toNat).map latest)
    (by rw [List.length_map, length_sectorsFrom]) buf
  unfold VirtualNoah.udcRead
  dsimp only
  by_cases short : udcSectors len ≤ 8#32
  · obtain ⟨t, read, held⟩ := inv.reads (sectorsFrom (udcBlock offset)
      (udcSectors len).toNat) fun k member last => by
        have high := ((mem_sectorsFrom fits).mp member).2
        rw [last] at high
        have : (0xffffffff#32).toNat = 2 ^ 32 - 1 := rfl
        omega
    refine ⟨t, ?_, held⟩
    simp only [if_pos short, read, bind, Except.bind, full]
  · have long : 8 < (udcSectors len).toNat := Nat.lt_of_not_le fun few =>
      short (BitVec.le_def.mpr few)
    obtain ⟨t, read, held⟩ := inv.multiRead fits (by
      rw [udcBlock_toNat inside, udcSectors_toNat]
      exact oneSign (udcSectors_toNat len ▸ long))
    refine ⟨t, ?_, held⟩
    simp only [if_neg short, read, bind, Except.bind, full]

theorem UdcInv.udcWrite (inv : UdcInv s latest) {offset : BitVec 64} {len : BitVec 32}
    (buf : Nat → SectorData) (inside : InSectors offset len) :
    ∃ t, udcWrite s offset len buf = .ok t ∧
      UdcInv t (overlay latest (udcBlock offset) (udcSectors len).toNat buf) := by
  have fits : (udcBlock offset).toNat + (udcSectors len).toNat < 2 ^ 32 := by
    rw [udcBlock_toNat inside, udcSectors_toNat]
    exact inside
  unfold VirtualNoah.udcWrite
  dsimp only
  by_cases short : udcSectors len ≤ 8#32
  · rw [if_pos short]
    exact inv.writes buf fits
  · rw [if_neg short]
    exact ⟨_, rfl, inv.multiWrite buf fits⟩

theorem UdcInv.flashcache (inv : UdcInv s latest) :
    ∃ t, nandLbFlashcache s = .ok t ∧ t.nand = latest ∧
      (∀ p, (t.ssfdcCache p).cacheState = .freeCache) ∧ UdcInv t latest := by
  obtain ⟨t, cleared, nand, free, cur⟩ := inv.toHolding.clearCache
  refine ⟨t, cleared, nand, free, ⟨⟨?_, fun p used => (used (free p)).elim⟩, cur ▸ inv.cur⟩⟩
  exact nand ▸ Coherent.of_empty fun p => line_free (free p)

/-- Each request does what it does on plain sectors, and answers the same. -/
theorem udcStep_refines (inv : UdcInv s latest) (cacheable : Cacheable op) :
    ∃ s' latest' out, udcStep s op = .ok (s', out) ∧
      sectorStep latest op = .ok (latest', out) ∧ UdcInv s' latest' := by
  cases op with
  | read offset len buf =>
    obtain ⟨t, read, held⟩ := inv.udcRead buf cacheable
    exact ⟨t, latest, _, read, rfl, held⟩
  | write offset len buf =>
    obtain ⟨t, written, held⟩ := inv.udcWrite buf cacheable
    exact ⟨t, _, [], congrArg (Except.map (·, [])) written, rfl, held⟩
  | flashcache =>
    obtain ⟨t, flushed, -, -, held⟩ := inv.flashcache
    exact ⟨t, latest, [], congrArg (Except.map (·, [])) flushed, rfl, held⟩

theorem init_free (s : UdcState) (p : CachePtr) :
    ((nandLbInit s).ssfdcCache p).cacheState = .freeCache := rfl

theorem UdcInv.init (s : UdcState) : UdcInv (nandLbInit s) s.nand where
  coherent := Coherent.of_empty fun p => line_free (init_free s p)
  below p used := (used (init_free s p)).elim
  cur := Nat.zero_lt_succ 255

theorem UdcInv.oneEntry (inv : UdcInv s latest) : OneEntryPerSector s :=
  fun _ _ used used' same => inv.coherent.unique (line_used used) (line_used used') same

end Runs

/-- Over every sequence of requests that can be cached, after `NAND_LB_Init` on whatever the
entries held and over every content of the device: the requests are answered as by plain
sectors, a sector has at most one entry, and `NAND_LB_FLASHCACHE` leaves the latest data on the
device and all entries free. -/
theorem sector_cache_coherent (s : UdcState) (ops : List UdcOp)
    (cacheable : ∀ op ∈ ops, Cacheable op) :
    ∃ t latest outs, run udcStep (nandLbInit s) ops = .ok (t, outs) ∧
      run sectorStep s.nand ops = .ok (latest, outs) ∧ OneEntryPerSector t ∧
      ∃ u, nandLbFlashcache t = .ok u ∧ u.nand = latest ∧
        ∀ p, (u.ssfdcCache p).cacheState = .freeCache := by
  obtain ⟨t, latest, outs, cached, plain, inv⟩ :=
    run_refines UdcInv Cacheable udcStep_refines (UdcInv.init s) cacheable
  obtain ⟨u, flushed, nand, free, -⟩ := inv.flashcache
  exact ⟨t, latest, outs, cached, plain, inv.oneEntry, u, flushed, nand, free⟩

/-! ## A large device -/

/-- A device on which every sector is erased to zero, before `NAND_LB_Init`. -/
def blankDevice : UdcState where
  ssfdcCache := fun _ => ⟨.freeCache, 0, false, 0, Vector.replicate 512 0⟩
  curCacheCount := 0
  nand := fun _ => Vector.replicate 512 0

def onesSector : SectorData := Vector.replicate 512 0xff

theorem onesSector_ne_zero : Vector.replicate 512 0 ≠ onesSector := by
  intro same
  have first := congrArg (fun data : SectorData => data.get 0) same
  exact absurd first (by decide)

/-- A write, a read of the same sector and a flush. -/
theorem write_read_coherent :
    ∃ t latest outs, run udcStep (nandLbInit blankDevice)
        [.write 0x200 0x200 fun _ => onesSector, .read 0x200 0x200 fun _ => onesSector,
          .flashcache] = .ok (t, outs) ∧
      run sectorStep blankDevice.nand
        [.write 0x200 0x200 fun _ => onesSector, .read 0x200 0x200 fun _ => onesSector,
          .flashcache] = .ok (latest, outs) ∧ OneEntryPerSector t ∧
      ∃ u, nandLbFlashcache t = .ok u ∧ u.nand = latest ∧
        ∀ p, (u.ssfdcCache p).cacheState = .freeCache := by
  refine sector_cache_coherent blankDevice _ fun op member => ?_
  have inside : InSectors 0x200 0x200 := by
    unfold InSectors
    decide
  rcases List.mem_cons.mp member with rfl | member
  · exact inside
  · rcases List.mem_cons.mp member with rfl | member
    · exact ⟨inside, fun long => absurd long (by decide)⟩
    · cases List.mem_singleton.mp member
      trivial

/-- The 32 sectors around sector 2^31 are not read: the buffer keeps what it held. -/
theorem long_read_of_large_device :
    ∃ t outs, run udcStep (nandLbInit blankDevice)
        [.read 0xffffffe000 0x4000 fun _ => onesSector] = .ok (t, outs) ∧
      outs = [List.replicate 32 onesSector] ∧
      ∃ latest answers, run sectorStep blankDevice.nand
        [.read 0xffffffe000 0x4000 fun _ => onesSector] = .ok (latest, answers) ∧
        answers ≠ outs := by
  have none : ∀ s, (nandLbMultiRead s (udcBlock 0xffffffe000) (udcSectors 0x4000)).2 = [] :=
    fun s => rfl
  have long : ¬ udcSectors 0x4000 ≤ 8#32 := by decide
  have answer : ∀ s, udcRead s 0xffffffe000 0x4000 (fun _ => onesSector) = .ok
      ((nandLbMultiRead s (udcBlock 0xffffffe000) (udcSectors 0x4000)).1,
        List.replicate 32 onesSector) := by
    intro s
    unfold udcRead
    simp only [if_neg long, bind, Except.bind, none]
    rfl
  refine ⟨_, _, run_cons (answer _) rfl, rfl, _, _, rfl, fun same => ?_⟩
  exact onesSector_ne_zero (List.cons.inj (List.cons.inj same).1).1

end VirtualNoah
