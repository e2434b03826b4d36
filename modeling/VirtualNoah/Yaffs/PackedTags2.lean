import VirtualNoah.Lib.Words

/-!
# YAFFS2 tags

The tags of a chunk are packed into a 16-byte structure with an ECC over its
image, and unpacked again.  The image builder and the kernel share this code; the
kernel's copy is the same where it is configured for the Hamming ECC.
-/

namespace VirtualNoah

open ByteStore Lanes

/-! ## The ECC -/

/-- Bits 7 to 2 are the column parities of a byte, bit 0 is its parity. -/
def columnParityTable : List Byte :=
  [0x00, 0x55, 0x59, 0x0c, 0x65, 0x30, 0x3c, 0x69, 0x69, 0x3c, 0x30, 0x65, 0x0c, 0x59, 0x55, 0x00,
    0x95, 0xc0, 0xcc, 0x99, 0xf0, 0xa5, 0xa9, 0xfc, 0xfc, 0xa9, 0xa5, 0xf0, 0x99, 0xcc, 0xc0, 0x95,
    0x99, 0xcc, 0xc0, 0x95, 0xfc, 0xa9, 0xa5, 0xf0, 0xf0, 0xa5, 0xa9, 0xfc, 0x95, 0xc0, 0xcc, 0x99,
    0x0c, 0x59, 0x55, 0x00, 0x69, 0x3c, 0x30, 0x65, 0x65, 0x30, 0x3c, 0x69, 0x00, 0x55, 0x59, 0x0c,
    0xa5, 0xf0, 0xfc, 0xa9, 0xc0, 0x95, 0x99, 0xcc, 0xcc, 0x99, 0x95, 0xc0, 0xa9, 0xfc, 0xf0, 0xa5,
    0x30, 0x65, 0x69, 0x3c, 0x55, 0x00, 0x0c, 0x59, 0x59, 0x0c, 0x00, 0x55, 0x3c, 0x69, 0x65, 0x30,
    0x3c, 0x69, 0x65, 0x30, 0x59, 0x0c, 0x00, 0x55, 0x55, 0x00, 0x0c, 0x59, 0x30, 0x65, 0x69, 0x3c,
    0xa9, 0xfc, 0xf0, 0xa5, 0xcc, 0x99, 0x95, 0xc0, 0xc0, 0x95, 0x99, 0xcc, 0xa5, 0xf0, 0xfc, 0xa9,
    0xa9, 0xfc, 0xf0, 0xa5, 0xcc, 0x99, 0x95, 0xc0, 0xc0, 0x95, 0x99, 0xcc, 0xa5, 0xf0, 0xfc, 0xa9,
    0x3c, 0x69, 0x65, 0x30, 0x59, 0x0c, 0x00, 0x55, 0x55, 0x00, 0x0c, 0x59, 0x30, 0x65, 0x69, 0x3c,
    0x30, 0x65, 0x69, 0x3c, 0x55, 0x00, 0x0c, 0x59, 0x59, 0x0c, 0x00, 0x55, 0x3c, 0x69, 0x65, 0x30,
    0xa5, 0xf0, 0xfc, 0xa9, 0xc0, 0x95, 0x99, 0xcc, 0xcc, 0x99, 0x95, 0xc0, 0xa9, 0xfc, 0xf0, 0xa5,
    0x0c, 0x59, 0x55, 0x00, 0x69, 0x3c, 0x30, 0x65, 0x65, 0x30, 0x3c, 0x69, 0x00, 0x55, 0x59, 0x0c,
    0x99, 0xcc, 0xc0, 0x95, 0xfc, 0xa9, 0xa5, 0xf0, 0xf0, 0xa5, 0xa9, 0xfc, 0x95, 0xc0, 0xcc, 0x99,
    0x95, 0xc0, 0xcc, 0x99, 0xf0, 0xa5, 0xa9, 0xfc, 0xfc, 0xa9, 0xa5, 0xf0, 0x99, 0xcc, 0xc0, 0x95,
    0x00, 0x55, 0x59, 0x0c, 0x65, 0x30, 0x3c, 0x69, 0x69, 0x3c, 0x30, 0x65, 0x0c, 0x59, 0x55, 0x00]

structure EccOther where
  colParity : Byte
  lineParity : BitVec 32
  lineParityPrime : BitVec 32
  deriving DecidableEq

/-- The loop body, `colParity` being the whole column parity. -/
def eccStep (data : Buf) (parity : EccOther) (i : Nat) : EccOther :=
  let b := columnParityTable.getD (data i).toNat 0
  if b &&& 0x01 ≠ 0 then
    { colParity := parity.colParity ^^^ b
      lineParity := parity.lineParity ^^^ BitVec.ofNat 32 i
      lineParityPrime := parity.lineParityPrime ^^^ ~~~BitVec.ofNat 32 i }
  else { parity with colParity := parity.colParity ^^^ b }

def yaffsEccCalculateOther (data : Buf) (nBytes : Nat) : EccOther :=
  let parity := (List.range nBytes).foldl (eccStep data) ⟨0, 0, 0⟩
  { parity with colParity := (parity.colParity >>> 2) &&& 0x3f }

/-- `while (x) { if (x & 1) r++; x >>= 1; }`, which takes `w` rounds at most. -/
def countBitsLoop {w : Nat} : Nat → BitVec w → Nat
  | 0, _ => 0
  | n + 1, x => if x = 0 then 0 else (x.getLsbD 0).toNat + countBitsLoop n (x >>> 1)

def yaffsCountBits (x : Byte) : Nat := countBitsLoop 8 x
def yaffsCountBits32 (x : BitVec 32) : Nat := countBitsLoop 32 x

/-- The result, and what is left in `data` and `read_ecc`. -/
def yaffsEccCorrectOther (data : Buf) (nBytes : Nat) (readEcc testEcc : EccOther) :
    Int × Buf × EccOther :=
  let cDelta := readEcc.colParity ^^^ testEcc.colParity
  let lDelta := readEcc.lineParity ^^^ testEcc.lineParity
  let lDeltaPrime := readEcc.lineParityPrime ^^^ testEcc.lineParityPrime
  if cDelta.setWidth 32 ||| lDelta ||| lDeltaPrime = 0 then (0, data, readEcc)
  else if lDelta = ~~~lDeltaPrime ∧ (cDelta ^^^ (cDelta >>> 1)) &&& 0x15 = 0x15 then
    let bit := (if cDelta &&& 0x20 ≠ 0 then 0x04 else 0) |||
      (if cDelta &&& 0x08 ≠ 0 then 0x02 else 0) ||| (if cDelta &&& 0x02 ≠ 0 then 0x01 else 0)
    if nBytes ≤ lDelta.toNat then (-1, data, readEcc)
    else (1, Function.update data lDelta.toNat (data lDelta.toNat ^^^ (1#8 <<< bit)), readEcc)
  else if yaffsCountBits32 lDelta + yaffsCountBits32 lDeltaPrime + yaffsCountBits cDelta = 1 then
    (1, data, testEcc)
  else (-1, data, readEcc)

/-- Bytes with the ECC that was calculated for them need no correction. -/
theorem yaffsEccCorrectOther_self (data : Buf) (nBytes : Nat) (ecc : EccOther) :
    yaffsEccCorrectOther data nBytes ecc ecc = (0, data, ecc) := by
  rw [yaffsEccCorrectOther, BitVec.xor_self, BitVec.xor_self, BitVec.xor_self]
  exact if_pos rfl

/-! ## Tags -/

inductive EccResult where
  | unknown
  | noError
  | fixed
  | unfixed
  deriving DecidableEq

structure ExtendedTags where
  validMarker0 : BitVec 32
  chunkUsed : BitVec 32
  objectId : BitVec 32
  chunkId : BitVec 32
  byteCount : BitVec 32
  eccResult : EccResult
  blockBad : BitVec 32
  chunkDeleted : BitVec 32
  serialNumber : BitVec 32
  sequenceNumber : BitVec 32
  extraHeaderInfoAvailable : BitVec 32
  extraParentObjectId : BitVec 32
  extraIsShrinkHeader : BitVec 32
  extraShadows : BitVec 32
  extraObjectType : BitVec 32
  extraFileLength : BitVec 32
  extraEquivalentObjectId : BitVec 32
  validMarker1 : BitVec 32

/-- `yaffs_InitialiseTags`: cleared, but for the markers. -/
def yaffsInitialiseTags : ExtendedTags :=
  ⟨0xaaaaaaaa, 0, 0, 0, 0, .unknown, 0, 0, 0, 0, 0, 0, 0, 0, 0, 0, 0, 0x55555555⟩

/-- `yaffs_PackedTags2TagsPart`. -/
structure TagsPart where
  sequenceNumber : BitVec 32
  objectId : BitVec 32
  chunkId : BitVec 32
  byteCount : BitVec 32
  deriving DecidableEq

structure PackedTags2 where
  t : TagsPart
  ecc : EccOther
  deriving DecidableEq

/-- The image of the structure in memory, 16 bytes of it. -/
def TagsPart.image (t : TagsPart) : Buf :=
  store32 (store32 (store32 (store32 (fill 0) 0 t.sequenceNumber) 4 t.objectId) 8 t.chunkId)
    12 t.byteCount

def TagsPart.ofImage (buf : Buf) : TagsPart :=
  ⟨load32 buf 0, load32 buf 4, load32 buf 8, load32 buf 12⟩

@[simp] theorem TagsPart.ofImage_image (t : TagsPart) : TagsPart.ofImage t.image = t := by
  simp (disch := omega) only [TagsPart.ofImage, TagsPart.image, load32_store32,
    load32_store32_of_disjoint]

def extraHeaderInfoFlag : BitVec 32 := 0x80000000
def extraShrinkFlag : BitVec 32 := 0x40000000
def extraShadowsFlag : BitVec 32 := 0x20000000
def allExtraFlags : BitVec 32 := 0xf0000000
def extraObjectTypeShift : Nat := 28
def extraObjectTypeMask : BitVec 32 := 0x0f <<< extraObjectTypeShift

/-- `YAFFS_OBJECT_TYPE_...`. -/
inductive ObjectType where
  | unknown
  | file
  | symlink
  | directory
  | hardlink
  | special
  deriving DecidableEq

def ObjectType.code : ObjectType → BitVec 32
  | .unknown => 0
  | .file => 1
  | .symlink => 2
  | .directory => 3
  | .hardlink => 4
  | .special => 5

/-- The tags part, with the extra header information where there is some. -/
def packTagsPart (t : ExtendedTags) : TagsPart :=
  if t.chunkId = 0 ∧ t.extraHeaderInfoAvailable ≠ 0 then
    { sequenceNumber := t.sequenceNumber
      objectId := (t.objectId &&& ~~~extraObjectTypeMask) |||
        (t.extraObjectType <<< extraObjectTypeShift)
      chunkId := (extraHeaderInfoFlag ||| t.extraParentObjectId) |||
        (if t.extraIsShrinkHeader ≠ 0 then extraShrinkFlag else 0) |||
        (if t.extraShadows ≠ 0 then extraShadowsFlag else 0)
      byteCount :=
        if t.extraObjectType = ObjectType.hardlink.code then t.extraEquivalentObjectId
        else if t.extraObjectType = ObjectType.file.code then t.extraFileLength
        else 0 }
  else ⟨t.sequenceNumber, t.objectId, t.chunkId, t.byteCount⟩

def yaffsPackTags2 (t : ExtendedTags) : PackedTags2 :=
  ⟨packTagsPart t, yaffsEccCalculateOther (packTagsPart t).image 16⟩

def eccResultOf (result : Int) : EccResult :=
  if result = 0 then .noError
  else if result = 1 then .fixed
  else if result = -1 then .unfixed
  else .unknown

/-- The tags of a page in use, from the corrected tags part. -/
def unpackTagsPart (t : TagsPart) (eccResult : EccResult) : ExtendedTags :=
  let tags := { yaffsInitialiseTags with
    eccResult := eccResult, blockBad := 0, chunkUsed := 1, objectId := t.objectId
    chunkId := t.chunkId, byteCount := t.byteCount, chunkDeleted := 0, serialNumber := 0
    sequenceNumber := t.sequenceNumber }
  if t.chunkId &&& extraHeaderInfoFlag ≠ 0 then
    let tags := { tags with
      chunkId := 0, byteCount := 0, extraHeaderInfoAvailable := 1
      extraParentObjectId := t.chunkId &&& ~~~allExtraFlags
      extraIsShrinkHeader := if t.chunkId &&& extraShrinkFlag ≠ 0 then 1 else 0
      extraShadows := if t.chunkId &&& extraShadowsFlag ≠ 0 then 1 else 0
      extraObjectType := t.objectId >>> extraObjectTypeShift
      objectId := t.objectId &&& ~~~extraObjectTypeMask }
    if tags.extraObjectType = ObjectType.hardlink.code then
      { tags with extraEquivalentObjectId := t.byteCount }
    else { tags with extraFileLength := t.byteCount }
  else tags

def yaffsUnpackTags2 (pt : PackedTags2) : ExtendedTags :=
  if pt.t.sequenceNumber ≠ 0xffffffff then
    let ecc := yaffsEccCalculateOther pt.t.image 16
    let (result, image, _) := yaffsEccCorrectOther pt.t.image 16 pt.ecc ecc
    unpackTagsPart (TagsPart.ofImage image) (eccResultOf result)
  else yaffsInitialiseTags

/-! ## Unpacking what was packed -/

section RoundTrip

variable {t : ExtendedTags} {part : TagsPart}

theorem packTagsPart_plain (plain : t.extraHeaderInfoAvailable = 0) :
    packTagsPart t = ⟨t.sequenceNumber, t.objectId, t.chunkId, t.byteCount⟩ :=
  if_neg fun extra => extra.2 plain

/-- A tags part under its own ECC is unpacked as it is. -/
theorem yaffsUnpackTags2_of_ecc (used : part.sequenceNumber ≠ 0xffffffff) :
    yaffsUnpackTags2 ⟨part, yaffsEccCalculateOther part.image 16⟩ =
      unpackTagsPart part .noError := by
  rw [yaffsUnpackTags2, if_pos used]
  simp only [yaffsEccCorrectOther_self, TagsPart.ofImage_image]
  rfl

/-- Without extra header information, and the flag for it clear, the fields come back. -/
theorem yaffsUnpackTags2_pack (plain : t.extraHeaderInfoAvailable = 0)
    (used : t.sequenceNumber ≠ 0xffffffff) (flag : t.chunkId &&& extraHeaderInfoFlag = 0) :
    yaffsUnpackTags2 (yaffsPackTags2 t) = { yaffsInitialiseTags with
      eccResult := .noError, chunkUsed := 1, objectId := t.objectId, chunkId := t.chunkId
      byteCount := t.byteCount, sequenceNumber := t.sequenceNumber } := by
  rw [yaffsPackTags2, yaffsUnpackTags2_of_ecc (by rw [packTagsPart_plain plain]; exact used),
    packTagsPart_plain plain, unpackTagsPart, if_neg (not_not.mpr flag)]
  rfl

end RoundTrip

end VirtualNoah
