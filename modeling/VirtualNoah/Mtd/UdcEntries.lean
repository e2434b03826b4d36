import VirtualNoah.Lib.WriteBack
import VirtualNoah.Mtd.UdcCache

/-!
# Entries of the sector cache

The entries are the lines of a write-back cache in front of the device.  Freeing,
flushing, finding, filling and updating entries keep it coherent.
-/

namespace VirtualNoah

open WriteBack

def SsfdcLbCache.line (e : SsfdcLbCache) : Option (Line (BitVec 32) SectorData) :=
  if e.cacheState = .freeCache then none else some ⟨e.blockId, e.aBlockData, e.cacheChange⟩

/-- The entries as lines. -/
def UdcState.cache (s : UdcState) : Cache CachePtr (BitVec 32) SectorData :=
  ⟨fun p => (s.ssfdcCache p).line, s.nand⟩

/-- Lines and device hold the latest data, and no entry is for the last sector number, which
`_NAND_LB_PreWiteToNand` takes for none. -/
structure Holding (s : UdcState) (latest : BitVec 32 → SectorData) : Prop where
  coherent : Coherent s.cache latest
  below : ∀ p, (s.ssfdcCache p).cacheState ≠ .freeCache →
    (s.ssfdcCache p).blockId ≠ 0xffffffff#32

/-- Entries that are as they were, or have been freed. -/
def OnlyFreed (s t : UdcState) : Prop :=
  ∀ p, t.ssfdcCache p = s.ssfdcCache p ∨ (t.ssfdcCache p).cacheState = .freeCache

section Entries

variable {s t u : UdcState} {latest : BitVec 32 → SectorData} {p q : CachePtr}
  {e : SsfdcLbCache} {a : Line (BitVec 32) SectorData}

theorem line_free (free : e.cacheState = .freeCache) : e.line = none := if_pos free

theorem line_used (used : e.cacheState ≠ .freeCache) :
    e.line = some ⟨e.blockId, e.aBlockData, e.cacheChange⟩ := if_neg used

theorem of_line (held : e.line = some a) :
    e.cacheState ≠ .freeCache ∧ a = ⟨e.blockId, e.aBlockData, e.cacheChange⟩ := by
  unfold SsfdcLbCache.line at held
  split at held
  · cases held
  · next used => exact ⟨used, (Option.some.inj held).symm⟩

theorem OnlyFreed.refl (s : UdcState) : OnlyFreed s s := fun _ => Or.inl rfl

theorem OnlyFreed.trans (first : OnlyFreed s t) (second : OnlyFreed t u) : OnlyFreed s u := by
  intro p
  rcases second p with same | free
  · rw [same]
    exact first p
  · exact Or.inr free

/-- An entry in use afterwards was in use before. -/
theorem OnlyFreed.used (freed : OnlyFreed s t) (used : (t.ssfdcCache p).cacheState ≠ .freeCache) :
    t.ssfdcCache p = s.ssfdcCache p :=
  (freed p).resolve_right used

theorem OnlyFreed.absent {k : BitVec 32} (freed : OnlyFreed s t) (absent : ¬ s.cache.Holds k) :
    ¬ t.cache.Holds k := by
  rintro ⟨p, a, held, same⟩
  obtain ⟨used, -⟩ := of_line held
  exact absent ⟨p, a, (congrArg SsfdcLbCache.line (freed.used used)).symm.trans held, same⟩

theorem setEntry_entry (s : UdcState) (p q : CachePtr) (e : SsfdcLbCache) :
    (s.setEntry p e).ssfdcCache q = if q = p then e else s.ssfdcCache q :=
  Function.update_apply ..

theorem setEntry_cache (s : UdcState) (p : CachePtr) (line : e.line = some a) :
    (s.setEntry p e).cache = s.cache.enter p a := by
  have lines : (s.setEntry p e).cache.line = (s.cache.enter p a).line := by
    funext q
    refine (congrArg SsfdcLbCache.line (setEntry_entry s p q e)).trans ?_
    rw [Cache.enter_line]
    split
    · exact line
    · rfl
  exact Cache.mk.injEq .. ▸ ⟨lines, rfl⟩

theorem writeBack_entry (s : UdcState) (p q : CachePtr) :
    (writeBack s p).ssfdcCache q =
      if q = p then (s.ssfdcCache p).released else s.ssfdcCache q := by
  unfold writeBack
  dsimp only
  split
  · exact setEntry_entry ..
  · exact setEntry_entry ..

theorem writeBack_onlyFreed (s : UdcState) (p : CachePtr) : OnlyFreed s (writeBack s p) := by
  intro q
  rw [writeBack_entry]
  split
  · exact Or.inr rfl
  · exact Or.inl rfl

/-- Writing an entry back evicts its line. -/
theorem writeBack_cache (used : (s.ssfdcCache p).cacheState ≠ .freeCache) :
    (writeBack s p).cache = s.cache.evict p := by
  have held : s.cache.line p = some _ := line_used used
  have lines : (writeBack s p).cache.line = (s.cache.evict p).line := by
    funext q
    refine (congrArg SsfdcLbCache.line (writeBack_entry s p q)).trans ?_
    rw [Cache.evict_line]
    split
    · exact line_free rfl
    · rfl
  have stored : (writeBack s p).cache.store = (s.cache.evict p).store := by
    unfold Cache.evict writeBack
    rw [held]
    dsimp only
    split
    · rfl
    · rfl
  exact Cache.mk.injEq .. ▸ ⟨lines, stored⟩

theorem Holding.of_onlyFreed {latest' : BitVec 32 → SectorData} (holding : Holding s latest)
    (freed : OnlyFreed s t) (coherent : Coherent t.cache latest') : Holding t latest' := by
  refine ⟨coherent, fun p used => ?_⟩
  have same := freed.used used
  rw [same] at used ⊢
  exact holding.below p used

theorem Holding.writtenBack (holding : Holding s latest)
    (used : (s.ssfdcCache p).cacheState ≠ .freeCache) : Holding (writeBack s p) latest :=
  holding.of_onlyFreed (writeBack_onlyFreed s p)
    (writeBack_cache used ▸ holding.coherent.evict p)

/-- The cursor is not a part of the cache. -/
theorem Holding.moveCur (holding : Holding s latest) (cur : Nat) :
    Holding { s with curCacheCount := cur } latest := ⟨holding.coherent, holding.below⟩

theorem writeBack_cur (s : UdcState) (p : CachePtr) :
    (writeBack s p).curCacheCount = s.curCacheCount := by
  unfold writeBack
  dsimp only
  split
  · rfl
  · rfl

end Entries

/-! ## Flushing a range -/

section Flush

variable {s : UdcState} {latest : BitVec 32 → SectorData}

/-- A flush keeps the latest data, and leaves no entry of the range in use. -/
theorem Holding.flushCaches (holding : Holding s latest) (sectorstart sectorend : BitVec 32) :
    Holding (nandLbFlushCaches s sectorstart sectorend) latest ∧
      OnlyFreed s (nandLbFlushCaches s sectorstart sectorend) ∧
      (nandLbFlushCaches s sectorstart sectorend).curCacheCount = s.curCacheCount ∧
      ∀ p, ¬ inRange ((nandLbFlushCaches s sectorstart sectorend).ssfdcCache p)
        sectorstart sectorend := by
  have passes : ∀ (ps : List CachePtr) (s : UdcState), Holding s latest →
      ∃ t, t = ps.foldl (fun s p => if inRange (s.ssfdcCache p) sectorstart sectorend
          then writeBack s p else s) s ∧
        Holding t latest ∧ OnlyFreed s t ∧ t.curCacheCount = s.curCacheCount ∧
        ∀ p ∈ ps, ¬ inRange (t.ssfdcCache p) sectorstart sectorend := by
    intro ps
    induction ps with
    | nil => exact fun s holding => ⟨s, rfl, holding, .refl s, rfl, nofun⟩
    | cons p ps ih =>
      intro s holding
      rw [List.foldl_cons]
      -- an entry that is out of the range once stays so
      have out : ∀ {s t : UdcState}, OnlyFreed s t →
          ¬ inRange (s.ssfdcCache p) sectorstart sectorend →
          ¬ inRange (t.ssfdcCache p) sectorstart sectorend := by
        intro s t freed outside inside
        exact outside (freed.used inside.1 ▸ inside)
      by_cases inside : inRange (s.ssfdcCache p) sectorstart sectorend
      · rw [if_pos inside]
        have gone : ¬ inRange ((writeBack s p).ssfdcCache p) sectorstart sectorend := by
          rw [writeBack_entry, if_pos rfl]
          exact fun still => still.1 rfl
        obtain ⟨t, same, holds, freed, cur, rest⟩ := ih _ (holding.writtenBack inside.1)
        exact ⟨t, same, holds, (writeBack_onlyFreed s p).trans freed,
          cur.trans (writeBack_cur s p), List.forall_mem_cons.mpr ⟨out freed gone, rest⟩⟩
      · rw [if_neg inside]
        obtain ⟨t, same, holds, freed, cur, rest⟩ := ih s holding
        exact ⟨t, same, holds, freed, cur, List.forall_mem_cons.mpr ⟨out freed inside, rest⟩⟩
  obtain ⟨t, same, holds, freed, cur, all⟩ := passes (List.finRange 256) s holding
  unfold nandLbFlushCaches
  rw [← same]
  exact ⟨holds, freed, cur, fun p => all p (List.mem_finRange p)⟩

end Flush

/-! ## Freeing entries of a state -/

section PreWrite

variable {s : UdcState} {latest : BitVec 32 → SectorData} {update : CacheState}

/-- How many entries are in a state. -/
def inState (s : UdcState) (update : CacheState) : Nat :=
  (List.finRange 256).countP fun p => (s.ssfdcCache p).cacheState = update

theorem inState_le (s : UdcState) (update : CacheState) : inState s update ≤ 256 :=
  List.countP_le_length.trans_eq List.length_finRange

/-- The scan over some entries: those of another state are counted, and the entry it ends
with is of the state, unless it is the one it started with. -/
theorem preWriteLook_foldl (s : UdcState) (update : CacheState) (ps : List CachePtr)
    (seen : BitVec 32 × CachePtr × Nat) :
    (ps.foldl (preWriteLook s update) seen).2.2 +
        ps.countP (fun p => (s.ssfdcCache p).cacheState = update) = seen.2.2 + ps.length ∧
      ((s.ssfdcCache (ps.foldl (preWriteLook s update) seen).2.1).cacheState = update ∨
        (ps.foldl (preWriteLook s update) seen).2.1 = seen.2.1 ∧
        ∀ p ∈ ps, (s.ssfdcCache p).cacheState = update → ¬ (s.ssfdcCache p).blockId < seen.1) := by
  induction ps generalizing seen with
  | nil => exact ⟨rfl, Or.inr ⟨rfl, nofun⟩⟩
  | cons p ps ih =>
    obtain ⟨count, found⟩ := ih (preWriteLook s update seen p)
    rw [List.foldl_cons, List.countP_cons, List.length_cons]
    generalize ps.foldl (preWriteLook s update) (preWriteLook s update seen p) = last
      at count found ⊢
    unfold preWriteLook at count found
    by_cases state : (s.ssfdcCache p).cacheState = update
    · rw [if_pos state] at count found
      rw [if_pos (decide_eq_true state)]
      by_cases lower : (s.ssfdcCache p).blockId < seen.1
      · rw [if_pos lower] at count found
        dsimp only at count
        refine ⟨by omega, Or.inl ?_⟩
        rcases found with found | ⟨same, -⟩
        · exact found
        · rw [same]
          exact state
      · rw [if_neg lower] at count found
        refine ⟨by omega, found.imp_right fun ⟨same, rest⟩ => ⟨same, ?_⟩⟩
        exact List.forall_mem_cons.mpr ⟨fun _ => lower, rest⟩
    · rw [if_neg state] at count found
      rw [if_neg (by rw [decide_eq_true_iff]; exact state)]
      dsimp only at count
      refine ⟨by omega, found.imp_right fun ⟨same, rest⟩ => ⟨same, ?_⟩⟩
      exact List.forall_mem_cons.mpr ⟨fun is => (state is).elim, rest⟩

/-- A round finds an entry of the state, unless there is none. -/
theorem preWriteScan_spec (pCache : CachePtr) (update : CacheState)
    (below : ∀ p, (s.ssfdcCache p).cacheState = update →
      (s.ssfdcCache p).blockId ≠ 0xffffffff#32) :
    (preWriteScan s pCache update).2.2 + inState s update = 256 ∧
      (inState s update ≠ 0 →
        (s.ssfdcCache (preWriteScan s pCache update).2.1).cacheState = update) := by
  obtain ⟨count, found⟩ :=
    preWriteLook_foldl s update (List.finRange 256) (0xffffffff#32, pCache, 0)
  rw [List.length_finRange, Nat.zero_add] at count
  refine ⟨count, fun some => ?_⟩
  rcases found with found | ⟨-, none⟩
  · exact found
  · obtain ⟨p, -, state⟩ := List.countP_pos_iff.mp (Nat.pos_of_ne_zero some)
    have is := of_decide_eq_true state
    refine (none p (List.mem_finRange p) is ?_).elim
    have := below p is
    bv_omega

/-- One element less is counted. -/
theorem countP_leave {α : Type} {f g : α → Bool} {a : α} {as : List α} (nodup : as.Nodup)
    (member : a ∈ as) (was : f a = true) (is : g a = false) (others : ∀ b, b ≠ a → g b = f b) :
    as.countP g + 1 = as.countP f := by
  induction as with
  | nil => cases member
  | cons b as ih =>
    obtain ⟨fresh, nodup⟩ := List.nodup_cons.mp nodup
    rw [List.countP_cons, List.countP_cons]
    rcases List.mem_cons.mp member with rfl | later
    · have rest : as.countP g = as.countP f :=
        List.countP_congr fun c mem => by rw [others c fun same => fresh (same ▸ mem)]
      rw [was, is, rest]
      rfl
    · rw [others b fun same => fresh (same ▸ later), ← ih nodup later]
      omega

/-- An entry leaves the state when it is written back. -/
theorem inState_writeBack {p : CachePtr} (state : (s.ssfdcCache p).cacheState = update)
    (used : update ≠ .freeCache) : inState (writeBack s p) update + 1 = inState s update := by
  refine countP_leave (List.nodup_finRange 256) (List.mem_finRange p) (decide_eq_true state) ?_ ?_
  · rw [writeBack_entry, if_pos rfl]
    exact decide_eq_false used.symm
  · intro q apart
    rw [writeBack_entry, if_neg apart]

theorem preWiteToNand_succ (update : CacheState) (rounds : Nat) (s : UdcState)
    (pCache : CachePtr) : nandLbPreWiteToNand update (rounds + 1) s pCache =
      if (preWriteScan s pCache update).2.2 < 256 then
        (nandLbPreWiteToNand update rounds (writeBack s (preWriteScan s pCache update).2.1)
          (preWriteScan s pCache update).2.1).map fun (t, count) => (t, count + 1)
      else .ok (s, 0) := rfl

/-- The rounds end, and free the entries of the state and no others. -/
theorem preWiteToNand_spec (used : update ≠ .freeCache) (rounds : Nat) :
    ∀ {s : UdcState} (pCache : CachePtr), Holding s latest → inState s update < rounds →
    ∃ t, nandLbPreWiteToNand update rounds s pCache = .ok (t, inState s update) ∧
      Holding t latest ∧ t.curCacheCount = s.curCacheCount ∧ inState t update = 0 ∧
      ∀ p, t.ssfdcCache p = s.ssfdcCache p ∨
        (s.ssfdcCache p).cacheState = update ∧ (t.ssfdcCache p).cacheState = .freeCache := by
  induction rounds with
  | zero => exact fun _ _ few => (Nat.not_lt_zero _ few).elim
  | succ rounds ih =>
    intro s pCache holding few
    obtain ⟨count, found⟩ := preWriteScan_spec (s := s) pCache update fun p state =>
      holding.below p (state.trans_ne used)
    rw [preWiteToNand_succ]
    generalize (preWriteScan s pCache update).2.2 = flag at count
    by_cases none : inState s update = 0
    · rw [if_neg (by omega), none]
      exact ⟨s, rfl, holding, rfl, none, fun p => Or.inl rfl⟩
    · have state := found none
      generalize (preWriteScan s pCache update).2.1 = p at state
      rw [if_pos (by omega)]
      have fewer := inState_writeBack state used
      obtain ⟨t, rest, holds, cur, freed, entries⟩ :=
        ih p (holding.writtenBack (state.trans_ne used)) (by omega)
      refine ⟨t, ?_, holds, cur.trans (writeBack_cur s p), freed, fun q => ?_⟩
      · rw [rest, ← fewer]
        rfl
      · rcases entries q with same | ⟨was, free⟩
        · rw [same, writeBack_entry]
          split
          · next is => exact Or.inr ⟨is ▸ state, rfl⟩
          · exact Or.inl rfl
        · rw [writeBack_entry] at was
          split at was
          · exact (used was.symm).elim
          · exact Or.inr ⟨was, free⟩

/-- `_NAND_LB_PreWiteToNand` ends, and frees the entries of the state and no others. -/
theorem Holding.preWrite (holding : Holding s latest) (update : CacheState)
    (used : update ≠ .freeCache) :
    ∃ t, preWrite s update = .ok (t, inState s update) ∧ Holding t latest ∧
      t.curCacheCount = s.curCacheCount ∧ inState t update = 0 ∧
      ∀ p, t.ssfdcCache p = s.ssfdcCache p ∨
        (s.ssfdcCache p).cacheState = update ∧ (t.ssfdcCache p).cacheState = .freeCache := by
  exact preWiteToNand_spec used 257 0 holding (Nat.lt_succ_of_le (inState_le s update))

theorem inState_eq_zero_iff : inState s update = 0 ↔
    ∀ p, (s.ssfdcCache p).cacheState ≠ update := by
  rw [inState, List.countP_eq_zero]
  simp only [List.mem_finRange, forall_const, decide_eq_true_eq, ne_eq]

/-- What is left after the entries of a state have been freed. -/
theorem OnlyFreed.of_preWrite {t : UdcState}
    (entries : ∀ p, t.ssfdcCache p = s.ssfdcCache p ∨
      (s.ssfdcCache p).cacheState = update ∧ (t.ssfdcCache p).cacheState = .freeCache) :
    OnlyFreed s t := fun p => (entries p).imp_right And.right

/-- Freeing the entries of one state and then those of the other leaves none in use. -/
theorem free_of_preWrite {t u : UdcState} (first : inState t .prewriteCache = 0)
    (second : inState u .oftenUseCache = 0)
    (entries : ∀ p, u.ssfdcCache p = t.ssfdcCache p ∨
      (t.ssfdcCache p).cacheState = .oftenUseCache ∧ (u.ssfdcCache p).cacheState = .freeCache)
    (p : CachePtr) : (u.ssfdcCache p).cacheState = .freeCache := by
  cases state : (u.ssfdcCache p).cacheState with
  | freeCache => rfl
  | prewriteCache =>
    rcases entries p with same | ⟨-, gone⟩
    · exact (inState_eq_zero_iff.mp first p (same ▸ state)).elim
    · cases state.symm.trans gone
  | oftenUseCache => exact (inState_eq_zero_iff.mp second p state).elim

/-- `_NAND_LB_ClearCache` leaves the latest data on the device, and all entries free. -/
theorem Holding.clearCache (holding : Holding s latest) :
    ∃ t, nandLbClearCache s = .ok t ∧ t.nand = latest ∧
      (∀ p, (t.ssfdcCache p).cacheState = .freeCache) ∧ t.curCacheCount = s.curCacheCount := by
  obtain ⟨t, first, holds, cur, freed, entries⟩ :=
    holding.preWrite .prewriteCache nofun
  obtain ⟨u, second, holds', cur', freed', entries'⟩ :=
    holds.preWrite .oftenUseCache nofun
  have free := free_of_preWrite freed freed' entries'
  refine ⟨u, ?_, ?_, free, cur'.trans cur⟩
  · simp only [nandLbClearCache, first, second, bind, Except.bind]
  · funext k
    refine holds'.coherent.store_eq ?_
    rintro ⟨p, a, held, -⟩
    exact (of_line held).1 (free p)

/-- After `_NAND_LB_FreeCache` an entry is free. -/
theorem Holding.freeCache (holding : Holding s latest) (rw : Bool) :
    ∃ t n, nandLbFreeCache s rw = .ok (t, n) ∧ Holding t latest ∧ OnlyFreed s t ∧
      t.curCacheCount = s.curCacheCount ∧ ∃ p, (t.ssfdcCache p).cacheState = .freeCache := by
  obtain ⟨t, first, holds, cur, freed, entries⟩ :=
    holding.preWrite .prewriteCache nofun
  obtain ⟨u, second, holds', cur', freed', entries'⟩ :=
    holds.preWrite .oftenUseCache nofun
  have freedU := (OnlyFreed.of_preWrite entries).trans (.of_preWrite entries')
  unfold nandLbFreeCache
  simp only [first, bind, Except.bind]
  by_cases none : inState s .prewriteCache = 0
  · -- all entries are often used, and are freed now
    simp only [if_pos none, second, Bool.false_eq_true, false_and, if_false]
    exact ⟨u, _, rfl, holds', freedU, cur'.trans cur, 0,
      free_of_preWrite freed freed' entries' 0⟩
  · -- an entry that was to be written is free, whatever else is freed
    obtain ⟨p, -, state⟩ := List.countP_pos_iff.mp (Nat.pos_of_ne_zero none)
    have free : (t.ssfdcCache p).cacheState = .freeCache := by
      rcases entries p with same | ⟨-, gone⟩
      · exact (inState_eq_zero_iff.mp freed p (same ▸ of_decide_eq_true state)).elim
      · exact gone
    simp only [if_neg none]
    by_cases few : rw = true ∧ getNandCacheFreeCount t < 64
    · simp only [if_pos few, second]
      refine ⟨u, _, rfl, holds', freedU, cur'.trans cur, p, ?_⟩
      rcases entries' p with same | ⟨-, gone⟩
      · rw [same]
        exact free
      · exact gone
    · simp only [if_neg few]
      exact ⟨t, _, rfl, holds, .of_preWrite entries, cur, p, free⟩

end PreWrite

/-! ## Looking for entries -/

section Lookup

variable {s : UdcState} {latest : BitVec 32 → SectorData} {sector : BitVec 32}
  {caches : CachePtr → SsfdcLbCache} {p : CachePtr}

/-- The entry `k` steps above, or with `255 * k` below, around the end. -/
def aroundFrom (p k : Nat) : CachePtr := ⟨(p + k) % 256, Nat.mod_lt _ (by decide)⟩

/-- Every entry is met within 256 steps up. -/
theorem exists_up (p : Nat) (q : CachePtr) : ∃ k < 256, aroundFrom p k = q :=
  ⟨(q.val + 256 - p % 256) % 256, Nat.mod_lt _ (by decide), Fin.ext (by
    have := q.isLt
    simp only [aroundFrom]
    omega)⟩

/-- Every entry is met within 256 steps down. -/
theorem exists_down (p : Nat) (q : CachePtr) : ∃ k < 256, aroundFrom p (255 * k) = q :=
  ⟨(p + 256 - q.val) % 256, Nat.mod_lt _ (by decide), Fin.ext (by
    have := q.isLt
    simp only [aroundFrom]
    omega)⟩

theorem curPtr_eq {cur : Nat} (inside : cur ≤ 256) : curPtr cur = aroundFrom cur 0 := by
  apply Fin.ext
  unfold curPtr aroundFrom
  split
  · next small => exact (Nat.mod_eq_of_lt small).symm
  · have last : cur = 256 := by omega
    rw [last]
    rfl

theorem getFreeCacheLoop_some (left : Nat) : ∀ {cur : Nat} {p : CachePtr},
    (getFreeCacheLoop caches left cur).1 = some p →
      (caches p).cacheState = .freeCache ∧ (getFreeCacheLoop caches left cur).2 = p := by
  induction left with
  | zero => exact fun found => by cases found
  | succ left ih =>
    intro cur p found
    unfold getFreeCacheLoop at found ⊢
    by_cases free : (caches (curPtr cur)).cacheState = .freeCache
    · rw [if_pos free] at found ⊢
      cases found
      exact ⟨free, rfl⟩
    · rw [if_neg free] at found ⊢
      exact ih found

theorem getFreeCacheLoop_none (left : Nat) : ∀ {cur : Nat}, cur ≤ 256 →
    (getFreeCacheLoop caches left cur).1 = none →
      ∀ k < left, (caches (aroundFrom cur k)).cacheState ≠ .freeCache := by
  induction left with
  | zero => exact fun _ _ k few => (Nat.not_lt_zero k few).elim
  | succ left ih =>
    intro cur inside missed k few
    unfold getFreeCacheLoop at missed
    rw [curPtr_eq inside] at missed
    by_cases free : (caches (aroundFrom cur 0)).cacheState = .freeCache
    · rw [if_pos free] at missed
      cases missed
    · rw [if_neg free] at missed
      cases k with
      | zero => exact free
      | succ k =>
        have next := ih (Nat.succ_le_of_lt (aroundFrom cur 0).isLt) missed k
          (Nat.lt_of_succ_lt_succ few)
        have same : aroundFrom ((aroundFrom cur 0).val + 1) k = aroundFrom cur (k + 1) := by
          apply Fin.ext
          simp only [aroundFrom]
          omega
        rwa [same] at next

theorem getFreeCacheLoop_le (left : Nat) : ∀ {cur : Nat}, cur ≤ 256 →
    (getFreeCacheLoop caches left cur).2 ≤ 256 := by
  induction left with
  | zero => exact id
  | succ left ih =>
    intro cur _
    unfold getFreeCacheLoop
    split
    · exact (curPtr cur).isLt.le
    · exact ih (curPtr cur).isLt

/-- `_NAND_LB_GetFreeCache` finds a free entry, if there is one. -/
theorem getFreeCache_spec (inside : s.curCacheCount ≤ 256) :
    ∃ cur found, nandLbGetFreeCache s = ({ s with curCacheCount := cur }, found) ∧
      cur ≤ 256 ∧
      (∀ p, found = some p → (s.ssfdcCache p).cacheState = .freeCache ∧ cur = p) ∧
      (found = none → ∀ p, (s.ssfdcCache p).cacheState ≠ .freeCache) := by
  refine ⟨_, _, rfl, getFreeCacheLoop_le 256 inside,
    fun p found => getFreeCacheLoop_some 256 found, fun missed p => ?_⟩
  obtain ⟨k, few, rfl⟩ := exists_up s.curCacheCount p
  exact getFreeCacheLoop_none 256 inside missed k few

/-- What holds between the calls. -/
structure UdcInv (s : UdcState) (latest : BitVec 32 → SectorData) : Prop
    extends Holding s latest where
  cur : s.curCacheCount < 256

/-- A free entry takes a sector that is in no entry. -/
theorem Holding.fill {p : CachePtr} {buffer : SectorData} {rw : Bool} (holding : Holding s latest)
    (free : (s.ssfdcCache p).cacheState = .freeCache) (absent : ¬ s.cache.Holds sector)
    (below : sector ≠ 0xffffffff#32) (clean : rw = false → buffer = latest sector) :
    Holding (s.setEntry p ⟨.prewriteCache, 0, rw, sector, buffer⟩)
      (Function.update latest sector buffer) := by
  have used : CacheState.prewriteCache ≠ .freeCache := nofun
  constructor
  · rw [setEntry_cache s p (line_used used)]
    exact holding.coherent.fill (line_free free) absent clean
  · intro q used
    rw [setEntry_entry] at used ⊢
    split
    · exact below
    · next apart =>
      rw [if_neg apart] at used
      exact holding.below q used

theorem Holding.copyToCache (holding : Holding s latest) (inside : s.curCacheCount ≤ 256)
    (absent : ¬ s.cache.Holds sector) (below : sector ≠ 0xffffffff#32) (buffer : SectorData)
    (rw : Bool) (clean : rw = false → buffer = latest sector) :
    ∃ t, nandLbCopyToCache s sector buffer rw = .ok t ∧
      UdcInv t (Function.update latest sector buffer) := by
  obtain ⟨cur, found, look, le, free, -⟩ := getFreeCache_spec inside
  have moved := holding.moveCur cur
  unfold nandLbCopyToCache
  cases found with
  | some p =>
    obtain ⟨isFree, at_p⟩ := free p rfl
    simp only [look, bind, Except.bind]
    exact ⟨_, rfl, moved.fill isFree absent below clean, at_p ▸ p.isLt⟩
  | none =>
    obtain ⟨t, n, evicted, holds, freed, cur_eq, q, isFree⟩ := moved.freeCache rw
    obtain ⟨cur', found', again, -, free', full'⟩ :=
      getFreeCache_spec (s := t) (cur_eq.trans_le le)
    cases found' with
    | none => exact (full' rfl q isFree).elim
    | some p =>
      obtain ⟨isFree', at_p⟩ := free' p rfl
      have moved' := holds.moveCur cur'
      simp only [look, evicted, again, bind, Except.bind, Except.map]
      exact ⟨_, rfl, moved'.fill isFree' (freed.absent absent) below clean, at_p ▸ p.isLt⟩

/-- Entries that make up the same cache. -/
theorem Holding.of_cache {t : UdcState} (holding : Holding s latest) (same : t.cache = s.cache) :
    Holding t latest := by
  refine ⟨same ▸ holding.coherent, fun p used => ?_⟩
  have line : (s.ssfdcCache p).line = some _ :=
    (congrFun (congrArg Cache.line same) p).symm.trans (line_used used)
  obtain ⟨usedBefore, eq⟩ := of_line line
  have key : (t.ssfdcCache p).blockId = (s.ssfdcCache p).blockId := congrArg Line.key eq
  rw [key]
  exact holding.below p usedBefore

/-- An entry that is found once more holds the same line. -/
theorem touched_line (used : (caches p).cacheState ≠ .freeCache) (q : CachePtr) :
    (Function.update caches p (caches p).touched q).line = (caches q).line := by
  by_cases same : q = p
  · rw [same, Function.update_self, line_used used]
    exact line_used (e := (caches p).touched) nofun
  · rw [Function.update_of_ne same]

/-- The search keeps the lines, and ends with an entry of the sector unless there is none. -/
theorem getFromCacheLoop_spec (sector : BitVec 32) (left : Nat) :
    ∀ (p : CachePtr) (caches : CachePtr → SsfdcLbCache) (use : Option CachePtr),
    (∀ q, use = some q → ∃ a, (caches q).line = some a ∧ a.key = sector) →
    ∃ caches' use', getFromCacheLoop sector left p caches use = (caches', use') ∧
      (∀ q, (caches' q).line = (caches q).line) ∧
      (∀ q, use' = some q → ∃ a, (caches' q).line = some a ∧ a.key = sector) ∧
      (use' = none → use = none ∧ ∀ k < left, ∀ a,
        (caches (aroundFrom p (255 * k))).line = some a → a.key ≠ sector) := by
  induction left with
  | zero =>
    intro p caches use held
    exact ⟨caches, use, rfl, fun _ => rfl, held, fun none => ⟨none, fun k few => by cases few⟩⟩
  | succ left ih =>
    intro p caches use held
    have here : aroundFrom p (255 * 0) = p := Fin.ext (Nat.mod_eq_of_lt p.isLt)
    have down : ∀ k, aroundFrom (p - 1 : CachePtr) (255 * k) = aroundFrom p (255 * (k + 1)) := by
      intro k
      apply Fin.ext
      simp only [aroundFrom, Fin.val_sub]
      omega
    unfold getFromCacheLoop
    by_cases hit : (caches p).cacheState ≠ .freeCache ∧ sector = (caches p).blockId
    · rw [if_pos hit]
      have line := touched_line hit.1
      obtain ⟨caches', use', look, lines, found, missed⟩ := ih (p - 1)
        (Function.update caches p (caches p).touched) (some p) (by
          intro q is
          cases is
          exact ⟨_, (line p).trans (line_used hit.1), hit.2.symm⟩)
      refine ⟨caches', use', look, fun q => (lines q).trans (line q), found, fun none => ?_⟩
      cases (missed none).1
    · rw [if_neg hit]
      obtain ⟨caches', use', look, lines, found, missed⟩ := ih (p - 1) caches use held
      refine ⟨caches', use', look, lines, found, fun none => ?_⟩
      obtain ⟨start, rest⟩ := missed none
      refine ⟨start, fun k few a line => ?_⟩
      cases k with
      | zero =>
        rw [here] at line
        obtain ⟨used, rfl⟩ := of_line line
        exact fun same => hit ⟨used, same.symm⟩
      | succ k =>
        rw [← down] at line
        exact rest k (Nat.lt_of_succ_lt_succ few) a line

/-- `_NAND_LB_GetFromCache` keeps the cache, and delivers the latest data of a sector in it. -/
theorem UdcInv.getFromCache (inv : UdcInv s latest) (sector : BitVec 32) :
    ∃ t found, nandLbGetFromCache s sector = (t, found) ∧ UdcInv t latest ∧ t.nand = s.nand ∧
      (∀ data, found = some data → data = latest sector) ∧
      (found = none → ¬ t.cache.Holds sector) := by
  obtain ⟨caches, use, look, lines, found, missed⟩ :=
    getFromCacheLoop_spec sector 256 (curPtr s.curCacheCount) s.ssfdcCache none nofun
  have same : ({ s with ssfdcCache := caches } : UdcState).cache = s.cache := by
    unfold UdcState.cache
    rw [Cache.mk.injEq]
    exact ⟨funext lines, rfl⟩
  have holds := inv.toHolding.of_cache same
  refine ⟨{ s with ssfdcCache := caches }, use.map fun p => (caches p).aBlockData, ?_,
    ⟨holds, inv.cur⟩, rfl, fun data is => ?_, fun none => ?_⟩
  · unfold nandLbGetFromCache
    rw [look]
  · cases use with
    | none => cases is
    | some p =>
      cases is
      obtain ⟨a, line, key⟩ := found p rfl
      obtain ⟨used, rfl⟩ := of_line line
      rw [← key]
      exact holds.coherent.value line
  · cases use with
    | some p => cases none
    | none =>
      rintro ⟨q, a, line, key⟩
      obtain ⟨k, few, rfl⟩ := exists_down (curPtr s.curCacheCount) q
      exact (missed rfl).2 k few a ((lines _).symm.trans line) key

/-- `NAND_LB_Read` delivers the latest data. -/
theorem UdcInv.read (inv : UdcInv s latest) (below : sector ≠ 0xffffffff#32) :
    ∃ t, nandLbRead s sector = .ok (t, latest sector) ∧ UdcInv t latest := by
  obtain ⟨t, found, look, held, nand, hit, miss⟩ := inv.getFromCache sector
  unfold nandLbRead
  rw [look]
  cases found with
  | some data =>
    rw [hit data rfl]
    exact ⟨t, rfl, held⟩
  | none =>
    have absent := miss rfl
    have stored : t.nand sector = latest sector := held.coherent.store_eq absent
    obtain ⟨u, copied, inv'⟩ := held.toHolding.copyToCache held.cur.le absent below
      (t.nand sector) false fun _ => stored
    rw [stored, Function.update_eq_self] at inv'
    refine ⟨u, ?_, inv'⟩
    simp only [copied, Except.map]
    rw [stored]

/-- The search ends with the update of an entry of the sector, or there is none. -/
theorem updateInCacheLoop_spec (sector : BitVec 32) (buffer : SectorData) (s : UdcState)
    (left : Nat) : ∀ {i : Nat}, i < 256 →
      (∃ p, (s.ssfdcCache p).cacheState ≠ .freeCache ∧ (s.ssfdcCache p).blockId = sector ∧
        updateInCacheLoop sector buffer left i s =
          .ok (s.setEntry p ((s.ssfdcCache p).updated buffer), true)) ∨
      updateInCacheLoop sector buffer left i s = .ok (s, false) ∧
        ∀ k < left, ∀ a, (s.ssfdcCache (aroundFrom i (255 * k))).line = some a →
          a.key ≠ sector := by
  induction left with
  | zero => exact fun _ => Or.inr ⟨rfl, fun k few => by cases few⟩
  | succ left ih =>
    intro i inside
    have here : aroundFrom i (255 * 0) = ⟨i, inside⟩ := Fin.ext (Nat.mod_eq_of_lt inside)
    have down : ∀ k, aroundFrom (if i = 0 then 255 else i - 1) (255 * k) =
        aroundFrom i (255 * (k + 1)) := by
      intro k
      apply Fin.ext
      simp only [aroundFrom]
      split
      · omega
      · omega
    have lower : (if i = 0 then 255 else i - 1) < 256 := by
      split
      · decide
      · omega
    unfold updateInCacheLoop
    rw [dif_pos inside]
    by_cases hit : (s.ssfdcCache ⟨i, inside⟩).cacheState ≠ .freeCache ∧
        (s.ssfdcCache ⟨i, inside⟩).blockId = sector
    · exact Or.inl ⟨_, hit.1, hit.2, if_pos hit⟩
    · simp only [if_neg hit]
      refine (ih lower).imp_right fun ⟨look, rest⟩ => ⟨look, fun k few a line => ?_⟩
      cases k with
      | zero =>
        rw [here] at line
        obtain ⟨used, rfl⟩ := of_line line
        exact fun same => hit ⟨used, same⟩
      | succ k =>
        rw [← down] at line
        exact rest k (Nat.lt_of_succ_lt_succ few) a line

/-- `NAND_LB_Write` makes the buffer the latest data of the sector. -/
theorem UdcInv.write (inv : UdcInv s latest) (below : sector ≠ 0xffffffff#32)
    (buffer : SectorData) :
    ∃ t, nandLbWrite s sector buffer = .ok t ∧
      UdcInv t (Function.update latest sector buffer) := by
  have start : (if 256 < s.curCacheCount then 0 else s.curCacheCount) = s.curCacheCount :=
    if_neg (by have := inv.cur; omega)
  unfold nandLbWrite nandLbUpdateInCache
  rw [start]
  rcases updateInCacheLoop_spec sector buffer s 256 inv.cur with
    ⟨p, used, of_sector, found⟩ | ⟨missed, none⟩
  · have usedAfter : ((s.ssfdcCache p).updated buffer).cacheState ≠ .freeCache := nofun
    simp only [found, bind, Except.bind, if_true]
    refine ⟨_, rfl, ⟨⟨?_, fun q usedQ => ?_⟩, inv.cur⟩⟩
    · rw [setEntry_cache s p (line_used usedAfter), ← of_sector]
      exact inv.coherent.rewrite (line_used used)
    · rw [setEntry_entry] at usedQ ⊢
      split
      · exact of_sector.trans_ne below
      · next apart =>
        rw [if_neg apart] at usedQ
        exact inv.below q usedQ
  · have absent : ¬ s.cache.Holds sector := by
      rintro ⟨q, a, line, key⟩
      obtain ⟨k, few, rfl⟩ := exists_down s.curCacheCount q
      exact none k few a line key
    simp only [missed, bind, Except.bind, Bool.false_eq_true, if_false]
    exact inv.toHolding.copyToCache inv.cur.le absent below buffer true nofun

end Lookup

end VirtualNoah
