import VirtualNoah.Yaffs.PackedTags2

/-!
# Tags in the spare area

The image builder and the kernel each scatter the 25 bytes of the packed tags over
the free regions of a spare area, and each gather them again, the kernel either
from the whole area or from what the MTD layer gathered for it.
-/

namespace VirtualNoah

open ByteStore Lanes

def pt2Bytes : Nat := 25

/-! ## The bytes of the packed tags -/

/-- `pt2_byte_buf` as both writers fill it. -/
def pt2ByteBuf (pt : PackedTags2) : Buf :=
  let buf := store32 (fill 0) 0 pt.t.sequenceNumber
  let buf := store32 buf 4 pt.t.objectId
  let buf := store32 buf 8 pt.t.chunkId
  let buf := store32 buf 12 pt.t.byteCount
  let buf := blit buf 16 (fill pt.ecc.colParity) 1
  let buf := store32 buf 17 pt.ecc.lineParity
  store32 buf 21 pt.ecc.lineParityPrime

/-- The assignments both branches of the reader make. -/
def pt2OfByteBuf (buf : Buf) : PackedTags2 :=
  ⟨⟨load32 buf 0, load32 buf 4, load32 buf 8, load32 buf 12⟩,
    ⟨buf 16, orLanes (buf 17) (buf 18) (buf 19) (buf 20),
      orLanes (buf 21) (buf 22) (buf 23) (buf 24)⟩⟩

@[simp] theorem pt2OfByteBuf_pt2ByteBuf (pt : PackedTags2) : pt2OfByteBuf (pt2ByteBuf pt) = pt := by
  have parity : pt2ByteBuf pt 16 = pt.ecc.colParity := by
    rw [pt2ByteBuf, store32_outside (by omega), store32_outside (by omega),
      blit_inside (by omega) (by omega), fill_apply]
  rw [pt2OfByteBuf, parity]
  simp only [@orLanes_load32 (pt2ByteBuf pt) 17, @orLanes_load32 (pt2ByteBuf pt) 21]
  simp (disch := omega) only [pt2ByteBuf, load32_store32, load32_store32_of_disjoint,
    load32_blit_of_disjoint]

/-- The reader looks at the 25 bytes only. -/
theorem pt2OfByteBuf_congr {buf buf' : Buf} (same : ∀ i, i < 25 → buf i = buf' i) :
    pt2OfByteBuf buf = pt2OfByteBuf buf' := by
  simp only [pt2OfByteBuf]
  rw [load32_congr (by intro j _; exact same _ (by omega)),
    @load32_congr buf' buf 4 (by intro j _; exact same _ (by omega)),
    @load32_congr buf' buf 8 (by intro j _; exact same _ (by omega)),
    @load32_congr buf' buf 12 (by intro j _; exact same _ (by omega))]
  simp (disch := omega) only [same]

/-! ## Walking the free regions -/

/-- Offset and length of the free regions; the unused entries of the table are zero. -/
abbrev OobFree := List (Nat × Nat)

/-- The loop over the bytes `i`, `i + 1`, ... of the tags: `k` is the next free
offset, `n` what is left of region `j`, and `move` the assignment of the loop body.
There is no result where the space runs out. -/
def walkFree (oobfree : OobFree) (move : Nat → Nat → Buf → Buf) :
    Nat → Nat → Nat → Nat → Nat → Buf → Option Buf
  | 0, _, _, _, _, buf => some buf
  | count + 1, i, j, k, n, buf =>
    if n = 0 then
      let (k, n) := oobfree.getD (j + 1) (0, 0)
      if n = 0 then none
      else walkFree oobfree move count (i + 1) (j + 1) (k + 1) (n - 1) (move i k buf)
    else walkFree oobfree move count (i + 1) j (k + 1) (n - 1) (move i k buf)

/-- The whole loop, from the first region on. -/
def walkTags (oobfree : OobFree) (move : Nat → Nat → Buf → Buf) (buf : Buf) : Option Buf :=
  let (k, n) := oobfree.getD 0 (0, 0)
  if n = 0 then none else walkFree oobfree move pt2Bytes 0 0 k n buf

/-- Inside one region, the offsets are consecutive. -/
theorem walkFree_region {oobfree : OobFree} {move : Nat → Nat → Buf → Buf}
    {count i j k n : Nat} {buf : Buf} (room : count ≤ n) :
    walkFree oobfree move count i j k n buf =
      some ((List.range count).foldl (fun buf m => move (i + m) (k + m) buf) buf) := by
  induction count generalizing i k n buf with
  | zero => rfl
  | succ count ih =>
    rw [walkFree, if_neg (by omega), ih (by omega), List.range_succ_eq_map, List.foldl_cons,
      List.foldl_map]
    simp only [Nat.add_zero, Nat.succ_eq_add_one, Nat.add_assoc, Nat.add_comm 1]

/-- A first region with room for the tags is the only one that is used. -/
theorem walkTags_region {oobfree : OobFree} {move : Nat → Nat → Buf → Buf} {k n : Nat} {buf : Buf}
    (room : 25 ≤ n) : walkTags ((k, n) :: oobfree) move buf =
      some ((List.range 25).foldl (fun buf m => move m (k + m) buf) buf) := by
  have walk := @walkFree_region ((k, n) :: oobfree) move 25 0 0 k n buf room
  simp only [Nat.zero_add] at walk
  rw [← walk, walkTags]
  exact if_neg (show ¬ n = 0 by omega)

/-! ## The image builder -/

/-- `oob_layout`: all bytes free, and the layout of the kernel. -/
def oobLayout : List OobFree := [[(0, 64)], [(2, 38)]]

def nandmtd2Pt2buf (layoutNo : Nat) (buf : Buf) (pt : PackedTags2) : Option Buf :=
  walkTags (oobLayout.getD layoutNo []) (fun i k buf => Function.update buf k (pt2ByteBuf pt i)) buf

theorem nandmtd2Pt2buf_layout_one (buf : Buf) (pt : PackedTags2) :
    nandmtd2Pt2buf 1 buf pt = some (blit buf 2 (pt2ByteBuf pt) 25) := by
  rw [← foldl_update_eq_blit]
  exact walkTags_region (by omega)

/-! ## The kernel -/

/-- `nandmtd2_buf2pt`. -/
def nandmtd2Buf2pt (oobfree : OobFree) (spareBuffer : Buf) (isRaw : Bool) : Option PackedTags2 :=
  if isRaw then
    (walkTags oobfree (fun i k buf => Function.update buf i (spareBuffer k)) (fill 0)).map
      pt2OfByteBuf
  else some (pt2OfByteBuf spareBuffer)

/-- `nand_transfer_oob` in the mode `MTD_OOB_AUTO`: `roffs` bytes of the free regions
are skipped, `len` are gathered at offset `pos` of the client's buffer. -/
def nandTransferOob (oobPoi : Buf) : OobFree → Nat → Nat → Buf → Nat → Buf
  | [], _, _, oob, _ => oob
  | (offset, length) :: free, roffs, len, oob, pos =>
    if length = 0 ∨ len = 0 then oob
    else if roffs ≠ 0 then
      if length ≤ roffs then nandTransferOob oobPoi free (roffs - length) len oob pos
      else
        let bytes := min len (length - roffs)
        nandTransferOob oobPoi free 0 (len - bytes)
          (blit oob pos (shift oobPoi (offset + roffs)) bytes) (pos + bytes)
    else
      let bytes := min len length
      nandTransferOob oobPoi free 0 (len - bytes) (blit oob pos (shift oobPoi offset) bytes)
        (pos + bytes)

/-- `sizeof(yaffs_PackedTags2)`, the length the kernel asks for. -/
def packedTags2Size : Nat := 28

def eBadMsg : Int := 77

/-- The tags of `nandmtd2_ReadChunkWithTagsFromNAND`: `oobPoi` is the spare area of the
page, `spareBuffer` what the buffer held before, `retval` what the MTD layer
returned. -/
def nandmtd2ReadTags (oobfree : OobFree) (oobPoi spareBuffer : Buf) (retval : Int) :
    Option ExtendedTags :=
  let oobavail := (oobfree.map Prod.snd).sum
  let spareBuffer := nandTransferOob oobPoi oobfree 0 (min oobavail packedTags2Size) spareBuffer 0
  (nandmtd2Buf2pt oobfree spareBuffer false).map fun pt =>
    let tags := yaffsUnpackTags2 pt
    if retval = -eBadMsg ∧ tags.eccResult = .noError then { tags with eccResult := .unfixed }
    else tags

section Kernel

variable {length : Nat} {spare garbage : Buf}

/-- With one free region, the bytes the decoder looks at are those of the region. -/
theorem nandmtd2ReadTags_region (room : 25 ≤ length) :
    nandmtd2ReadTags [(2, length)] spare garbage 0 =
      some (yaffsUnpackTags2 (pt2OfByteBuf (shift spare 2))) := by
  have gathered : ∀ i, i < 25 → nandTransferOob spare [(2, length)] 0
      (min ([(2, length)].map Prod.snd).sum packedTags2Size) garbage 0 i = shift spare 2 i := by
    intro i inside
    rw [packedTags2Size, List.map_cons, List.map_nil, List.sum_cons, List.sum_nil, Nat.add_zero,
      nandTransferOob, if_neg (by omega), if_neg (not_not.mpr rfl), nandTransferOob,
      blit_inside (Nat.zero_le i) (by omega), Nat.sub_zero]
  rw [nandmtd2ReadTags, nandmtd2Buf2pt, if_neg (by decide), pt2OfByteBuf_congr gathered]
  rfl

theorem nandmtd2Buf2pt_raw_region (room : 25 ≤ length) :
    nandmtd2Buf2pt [(2, length)] spare true = some (pt2OfByteBuf (shift spare 2)) := by
  rw [nandmtd2Buf2pt, if_pos rfl, walkTags_region room, Option.map_some]
  refine congrArg some (pt2OfByteBuf_congr fun i inside => ?_)
  have copy := @foldl_update_eq_blit (fill 0) (shift spare 2) 0 25
  simp only [Nat.zero_add, shift_apply] at copy
  rw [copy, blit_inside (Nat.zero_le i) (by omega), Nat.sub_zero]

end Kernel

/-! ## From the builder to the kernel -/

/-- The spare area `write_chunk` makes for packed tags. -/
def tagsSpare (pt : PackedTags2) : Buf := blit (fill 0xff) 2 (pt2ByteBuf pt) 25

theorem pt2OfByteBuf_tagsSpare (pt : PackedTags2) :
    pt2OfByteBuf (shift (tagsSpare pt) 2) = pt := by
  refine Eq.trans (pt2OfByteBuf_congr fun i inside => ?_) (pt2OfByteBuf_pt2ByteBuf pt)
  rw [shift_apply, tagsSpare, blit_inside (by omega) (by omega), Nat.add_sub_cancel_left]

/-- The kernel finds the tags where the builder put them, field by field, under any
layout whose free region starts at offset 2 and holds them. -/
theorem tags_round_trip (t : ExtendedTags) (length : Nat) (garbage : Buf)
    (plain : t.extraHeaderInfoAvailable = 0) (used : t.sequenceNumber ≠ 0xffffffff)
    (flag : t.chunkId &&& extraHeaderInfoFlag = 0) (room : 25 ≤ length) :
    ∃ spare, nandmtd2Pt2buf 1 (fill 0xff) (yaffsPackTags2 t) = some spare ∧
      (∃ tags, nandmtd2ReadTags [(2, length)] spare garbage 0 = some tags ∧
        tags.objectId = t.objectId ∧ tags.chunkId = t.chunkId ∧ tags.byteCount = t.byteCount ∧
        tags.sequenceNumber = t.sequenceNumber ∧ tags.eccResult = .noError) ∧
      nandmtd2Buf2pt [(2, length)] spare true = some (yaffsPackTags2 t) ∧
      ∀ i, i < 2 ∨ 26 < i → spare i = 0xff := by
  refine ⟨tagsSpare (yaffsPackTags2 t), nandmtd2Pt2buf_layout_one _ _, ⟨_,
    nandmtd2ReadTags_region room, ?_⟩, ?_, fun i outside => blit_outside (by omega)⟩
  · rw [pt2OfByteBuf_tagsSpare, yaffsUnpackTags2_pack plain used flag]
    exact ⟨rfl, rfl, rfl, rfl, rfl⟩
  · rw [nandmtd2Buf2pt_raw_region room, pt2OfByteBuf_tagsSpare]

/-- A full data chunk of object 257, under the layout of the board. -/
theorem tags_round_trip_data_chunk :
    let t : ExtendedTags := { yaffsInitialiseTags with
      objectId := 257, chunkId := 3, byteCount := 2048, sequenceNumber := 0x1000 }
    ∃ spare, nandmtd2Pt2buf 1 (fill 0xff) (yaffsPackTags2 t) = some spare ∧
      (∃ tags, nandmtd2ReadTags [(2, 26)] spare (fill 0) 0 = some tags ∧
        tags.objectId = t.objectId ∧ tags.chunkId = t.chunkId ∧ tags.byteCount = t.byteCount ∧
        tags.sequenceNumber = t.sequenceNumber ∧ tags.eccResult = .noError) ∧
      nandmtd2Buf2pt [(2, 26)] spare true = some (yaffsPackTags2 t) ∧
      ∀ i, i < 2 ∨ 26 < i → spare i = 0xff :=
  tags_round_trip _ 26 (fill 0) rfl (by decide) (by decide) (by decide)

end VirtualNoah
