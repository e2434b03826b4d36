import Mathlib.Data.List.FinRange
import VirtualNoah.Lib.StepRun
import VirtualNoah.Soc.Host

/-!
# The sector cache of the USB gadget

`udc_cache.c`: 256 entries of one sector each in front of the MTD block device.
Requests of up to eight sectors go through the entries; longer ones flush or
close the entries they overlap and go to the device.
-/

namespace VirtualNoah

abbrev SectorData := Vector (BitVec 8) 512

inductive CacheState where
  | freeCache | prewriteCache | oftenUseCache
  deriving DecidableEq

structure SsfdcLbCache where
  cacheState : CacheState
  useCount : BitVec 16
  cacheChange : Bool
  blockId : BitVec 32
  aBlockData : SectorData

/-- A `SSFDC__LB_CACHE *` into `ssfdc_cache`. -/
abbrev CachePtr := Fin 256

/-- The cache, and the sectors `udc_mtdblock_readsect` and `udc_mtdblock_writesect` work on. -/
structure UdcState where
  ssfdcCache : CachePtr → SsfdcLbCache
  curCacheCount : Nat
  nand : BitVec 32 → SectorData

def UdcState.setEntry (s : UdcState) (p : CachePtr) (e : SsfdcLbCache) : UdcState :=
  { s with ssfdcCache := Function.update s.ssfdcCache p e }

def udcMtdblockWritesect (s : UdcState) (sector : BitVec 32) (data : SectorData) : UdcState :=
  { s with nand := Function.update s.nand sector data }

def nandLbInitCache (s : UdcState) : UdcState :=
  { s with
    ssfdcCache := fun p =>
      { s.ssfdcCache p with cacheState := .freeCache, useCount := 0, cacheChange := false }
    curCacheCount := 0 }

/-- The entry at `Cur_CacheCount`; past the end it is the first one. -/
def curPtr (cur : Nat) : CachePtr := if inside : cur < 256 then ⟨cur, inside⟩ else 0

/-- The loop from `Cur_CacheCount` on, with the entries that are left to look at. -/
def getFreeCacheLoop (caches : CachePtr → SsfdcLbCache) : Nat → Nat → Option CachePtr × Nat
  | 0, cur => (none, cur)
  | left + 1, cur =>
    if (caches (curPtr cur)).cacheState = .freeCache then (some (curPtr cur), curPtr cur)
    else getFreeCacheLoop caches left (curPtr cur + 1)

def nandLbGetFreeCache (s : UdcState) : UdcState × Option CachePtr :=
  let (p, cur) := getFreeCacheLoop s.ssfdcCache 256 s.curCacheCount
  ({ s with curCacheCount := cur }, p)

def inRange (e : SsfdcLbCache) (sectorstart sectorend : BitVec 32) : Prop :=
  e.cacheState ≠ .freeCache ∧ sectorstart ≤ e.blockId ∧ e.blockId < sectorend

instance (e : SsfdcLbCache) (sectorstart sectorend : BitVec 32) :
    Decidable (inRange e sectorstart sectorend) := inferInstanceAs (Decidable (_ ∧ _))

def SsfdcLbCache.released (e : SsfdcLbCache) : SsfdcLbCache :=
  { e with cacheChange := false, cacheState := .freeCache, useCount := 0 }

def nandLbCloseCaches (s : UdcState) (sectorstart sectorend : BitVec 32) : UdcState :=
  { s with ssfdcCache := fun p =>
      if inRange (s.ssfdcCache p) sectorstart sectorend then (s.ssfdcCache p).released
      else s.ssfdcCache p }

/-- Write a changed entry to the device and free it. -/
def writeBack (s : UdcState) (p : CachePtr) : UdcState :=
  let e := s.ssfdcCache p
  let s := if e.cacheChange then udcMtdblockWritesect s e.blockId e.aBlockData else s
  s.setEntry p e.released

def nandLbFlushCaches (s : UdcState) (sectorstart sectorend : BitVec 32) : UdcState :=
  (List.finRange 256).foldl
    (fun s p => if inRange (s.ssfdcCache p) sectorstart sectorend then writeBack s p else s) s

def getNandCacheFreeCount (s : UdcState) : Nat :=
  (List.finRange 256).countP fun p => (s.ssfdcCache p).cacheState = .freeCache

/-- One entry in the inner loop of `_NAND_LB_PreWiteToNand`: `sector`, `pCache` and `flag`. -/
def preWriteLook (s : UdcState) (update : CacheState) (seen : BitVec 32 × CachePtr × Nat)
    (p : CachePtr) : BitVec 32 × CachePtr × Nat :=
  if (s.ssfdcCache p).cacheState = update then
    if (s.ssfdcCache p).blockId < seen.1 then ((s.ssfdcCache p).blockId, p, seen.2.2)
    else seen
  else (seen.1, seen.2.1, seen.2.2 + 1)

def preWriteScan (s : UdcState) (pCache : CachePtr) (update : CacheState) :
    BitVec 32 × CachePtr × Nat :=
  (List.finRange 256).foldl (preWriteLook s update) (0xffffffff#32, pCache, 0)

/-- `_NAND_LB_PreWiteToNand`, for a number of rounds; it counts the entries it frees. -/
def nandLbPreWiteToNand (update : CacheState) : Nat → UdcState → CachePtr →
    Except Fault (UdcState × Nat)
  | 0, _, _ => .error .spin
  | rounds + 1, s, pCache =>
    let (_, pCache, flag) := preWriteScan s pCache update
    if flag < 256 then
      (nandLbPreWiteToNand update rounds (writeBack s pCache) pCache).map fun (s, count) =>
        (s, count + 1)
    else .ok (s, 0)

/-- One round for each entry, and one to see that there is none left. -/
def preWrite (s : UdcState) (update : CacheState) : Except Fault (UdcState × Nat) :=
  nandLbPreWiteToNand update 257 s 0

def nandLbFreeCache (s : UdcState) (update : Bool) : Except Fault (UdcState × Nat) := do
  let (s, totalfree) ← preWrite s .prewriteCache
  let (s, totalfree, update) ← if totalfree = 0 then do
      let (s, freecount) ← preWrite s .oftenUseCache
      .ok (s, totalfree + freecount, false)
    else .ok (s, totalfree, update)
  if update = true ∧ getNandCacheFreeCount s < 64 then do
    let (s, freecount) ← preWrite s .oftenUseCache
    .ok (s, totalfree + freecount)
  else .ok (s, totalfree)

/-- An entry that is found once more; `UseCount` stays at its greatest value. -/
def SsfdcLbCache.touched (e : SsfdcLbCache) : SsfdcLbCache :=
  { e with
    useCount := if e.useCount + 1 = 0#16 then 0xffff#16 else e.useCount + 1
    cacheState := .oftenUseCache }

/-- `pUseCache` and the entries, over the entries that are left, going down. -/
def getFromCacheLoop (sector : BitVec 32) : Nat → CachePtr → (CachePtr → SsfdcLbCache) →
    Option CachePtr → (CachePtr → SsfdcLbCache) × Option CachePtr
  | 0, _, caches, pUseCache => (caches, pUseCache)
  | left + 1, p, caches, pUseCache =>
    if (caches p).cacheState ≠ .freeCache ∧ sector = (caches p).blockId then
      getFromCacheLoop sector left (p - 1) (Function.update caches p (caches p).touched) (some p)
    else getFromCacheLoop sector left (p - 1) caches pUseCache

def nandLbGetFromCache (s : UdcState) (sector : BitVec 32) : UdcState × Option SectorData :=
  let (caches, pUseCache) :=
    getFromCacheLoop sector 256 (curPtr s.curCacheCount) s.ssfdcCache none
  ({ s with ssfdcCache := caches }, pUseCache.map fun p => (caches p).aBlockData)

def nandLbClearCache (s : UdcState) : Except Fault UdcState := do
  let (s, _) ← preWrite s .prewriteCache
  let (s, _) ← preWrite s .oftenUseCache
  .ok s

def nandLbCopyToCache (s : UdcState) (sector : BitVec 32) (buffer : SectorData) (rw : Bool) :
    Except Fault UdcState := do
  let (s, pCache) ← match nandLbGetFreeCache s with
    | (s, some p) => .ok (s, some p)
    | (s, none) => (nandLbFreeCache s rw).map fun (s, _) => nandLbGetFreeCache s
  match pCache with
  | none => .error .segv
  | some p => .ok (s.setEntry p ⟨.prewriteCache, 0, rw, sector, buffer⟩)

/-- The entry a sector is updated in. -/
def SsfdcLbCache.updated (e : SsfdcLbCache) (buffer : SectorData) : SsfdcLbCache :=
  { e with
    cacheState := .oftenUseCache
    useCount := e.useCount + 1
    cacheChange := true
    aBlockData := buffer }

/-- The loop of `_NAND_LB_UpdateInCache`, over the entries that are left, going down. -/
def updateInCacheLoop (sector : BitVec 32) (buffer : SectorData) : Nat → Nat → UdcState →
    Except Fault (UdcState × Bool)
  | 0, _, s => .ok (s, false)
  | left + 1, i, s =>
    if inside : i < 256 then
      let e := s.ssfdcCache ⟨i, inside⟩
      if e.cacheState ≠ .freeCache ∧ e.blockId = sector then
        .ok (s.setEntry ⟨i, inside⟩ (e.updated buffer), true)
      else updateInCacheLoop sector buffer left (if i = 0 then 255 else i - 1) s
    else .error .outOfBounds

/-- Whether the sector was in the cache; `Cur_CacheCount` may be 256. -/
def nandLbUpdateInCache (s : UdcState) (sector : BitVec 32) (buffer : SectorData) :
    Except Fault (UdcState × Bool) :=
  updateInCacheLoop sector buffer 256 (if 256 < s.curCacheCount then 0 else s.curCacheCount) s

/-- `n` sectors from `sector` on. -/
def sectorsFrom (sector : BitVec 32) (n : Nat) : List (BitVec 32) :=
  (List.range n).map fun k => sector + BitVec.ofNat 32 k

/-- `end` and the loop counter are of type `int`. -/
def nandLbMultiRead (s : UdcState) (sector sectorCount : BitVec 32) :
    UdcState × List SectorData :=
  let stop := sector + sectorCount
  let s := nandLbFlushCaches s sector stop
  (s, (sectorsFrom sector (stop.toInt - sector.toInt).toNat).map s.nand)

def nandLbRead (s : UdcState) (sector : BitVec 32) : Except Fault (UdcState × SectorData) :=
  match nandLbGetFromCache s sector with
  | (s, some data) => .ok (s, data)
  | (s, none) => (nandLbCopyToCache s sector (s.nand sector) false).map fun t => (t, s.nand sector)

/-- Here the loop counter is compared as an unsigned number. -/
def nandLbMultiWrite (s : UdcState) (sector : BitVec 32) (buffer : Nat → SectorData)
    (sectorCount : BitVec 32) : UdcState :=
  let s := nandLbCloseCaches s sector (sector + sectorCount)
  (List.range ((sector + sectorCount).toNat - sector.toNat)).foldl
    (fun s k => udcMtdblockWritesect s (sector + BitVec.ofNat 32 k) (buffer k)) s

def nandLbWrite (s : UdcState) (sector : BitVec 32) (buffer : SectorData) :
    Except Fault UdcState := do
  let (s, found) ← nandLbUpdateInCache s sector buffer
  if found then .ok s
  else nandLbCopyToCache s sector buffer true

def nandLbInit (s : UdcState) : UdcState := nandLbInitCache s

def nandLbFlashcache (s : UdcState) : Except Fault UdcState := nandLbClearCache s

/-- The short path of `udc_read`. -/
def nandLbReads : UdcState → List (BitVec 32) → Except Fault (UdcState × List SectorData)
  | s, [] => .ok (s, [])
  | s, sector :: sectors => do
    let (s, data) ← nandLbRead s sector
    let (s, rest) ← nandLbReads s sectors
    .ok (s, data :: rest)

def udcBlock (offset : BitVec 64) : BitVec 32 := (offset >>> 9).setWidth 32

def udcSectors (len : BitVec 32) : BitVec 32 := len >>> 9

/-- `buf`, by sectors; what is not read keeps what it held. -/
def udcRead (s : UdcState) (offset : BitVec 64) (len : BitVec 32) (buf : Nat → SectorData) :
    Except Fault (UdcState × List SectorData) := do
  let sector := udcSectors len
  let (s, data) ← if sector ≤ 8#32 then
      nandLbReads s (sectorsFrom (udcBlock offset) sector.toNat)
    else .ok (nandLbMultiRead s (udcBlock offset) sector)
  .ok (s, (List.range sector.toNat).map fun k => data[k]?.getD (buf k))

def udcWrite (s : UdcState) (offset : BitVec 64) (len : BitVec 32) (buf : Nat → SectorData) :
    Except Fault UdcState :=
  let sector := udcSectors len
  if sector ≤ 8#32 then
    (List.range sector.toNat).foldlM
      (fun s k => nandLbWrite s (udcBlock offset + BitVec.ofNat 32 k) (buf k)) s
  else .ok (nandLbMultiWrite s (udcBlock offset) buf sector)

end VirtualNoah
