import Mathlib.Algebra.Group.Int.Defs
import Mathlib.Algebra.Group.Nat.Defs
import VirtualNoah.Lib.ByteFile

/-!
# Writing one image into the flash file

`put_to_flash` of the flash builder: seek to the start page, then copy page by
page, 2048 data bytes and 64 OOB bytes, until the range or the image ends.  The
two buffers are cleared once, before the loop, and a short read leaves what the
page before had put there; the end of the image is noticed only by the read that
runs into it.

`putToFlash_eq` says what a call writes: `pagesWritten` pages from the seek
position on, page `k` being `writtenPage k`.
-/

namespace VirtualNoah

open ByteStore

def pavoNandPageSize : Nat := 2048
def pavoNandOobSize : Nat := 64
def pavoNandPages : Nat := 0x80000

/-- The size of the flash file, OOB included. -/
def flashBytes : Nat := pavoNandPages * (pavoNandPageSize + pavoNandOobSize)

theorem flashBytes_eq : flashBytes = 1107296256 := rfl

/-- A 32-bit `int` from an integer that may not fit. -/
def toInt32 (x : Int) : Int := x.bmod (2 ^ 32)

/-! ## File descriptors -/

/-- An open regular file and its offset. -/
structure Fd where
  file : ByteFile
  pos : Nat

namespace Fd

/-- `lseek(fd, off, SEEK_SET)`; a negative offset is refused and nothing moves. -/
def lseek (fd : Fd) (off : Int) : Fd := if off < 0 then fd else { fd with pos := off.toNat }

/-- `read`: the count, the buffer, and the descriptor after it. -/
def read (fd : Fd) (buf : Buf) (count : Nat) : Nat × Buf × Fd :=
  let (n, buf) := fd.file.pread fd.pos count buf
  (n, buf, { fd with pos := fd.pos + n })

def write (fd : Fd) (buf : Buf) (count : Nat) : Fd :=
  { file := fd.file.pwrite fd.pos count buf, pos := fd.pos + count }

@[simp] theorem write_file (fd : Fd) (buf : Buf) (count : Nat) :
    (fd.write buf count).file = fd.file.pwrite fd.pos count buf := rfl

@[simp] theorem write_zero (fd : Fd) (buf : Buf) : fd.write buf 0 = fd := by
  simp only [write, ByteFile.pwrite_zero_len, Nat.add_zero]

theorem write_cells_succ (fd : Fd) (w n : Nat) (cell : Nat → Buf) (wide : 0 < w) :
    (fd.write (cell 0) w).write (cells w fun k => cell (k + 1)) (w * n) =
      fd.write (cells w cell) (w * (n + 1)) := by
  simp only [write, ByteFile.pwrite_cells_succ wide, Nat.mul_succ, Nat.add_assoc, Nat.add_comm w]

end Fd

/-! ## The copy loop -/

/-- One page read from the image: the buffers, the descriptor, and whether the
loop goes on. -/
def readPage (withOob : Int) (imageFd : Fd) (data oob : Buf) : Bool × Buf × Buf × Fd :=
  let (n, data, imageFd) := imageFd.read data pavoNandPageSize
  let isContinue := decide (pavoNandPageSize ≤ n)
  if withOob ≠ 0 then
    let (n, oob, imageFd) := imageFd.read oob pavoNandOobSize
    (isContinue && decide (pavoNandOobSize ≤ n), data, oob, imageFd)
  else (isContinue, data, oob, imageFd)

/-- The loop over the pages of the range; `count` of them are left. -/
def copyPages (withOob : Int) : Nat → Fd → Fd → Buf → Buf → Fd
  | 0, flashFd, _, _, _ => flashFd
  | count + 1, flashFd, imageFd, data, oob =>
    let (isContinue, data, oob, imageFd) := readPage withOob imageFd data oob
    let flashFd := flashFd.write data pavoNandPageSize
    let flashFd := flashFd.write oob pavoNandOobSize
    if isContinue then copyPages withOob count flashFd imageFd data oob else flashFd

/-- `put_to_flash`, on an image opened as `image`. -/
def putToFlash (flashFd : Fd) (image : ByteFile) (imageStart imageEnd withOob : Int) : Fd :=
  let startPage := imageStart.tdiv pavoNandPageSize
  let endPage := imageEnd.tdiv pavoNandPageSize
  let flashFd := flashFd.lseek (toInt32 (startPage * (pavoNandPageSize + pavoNandOobSize : Nat)))
  let imageFd := (Fd.mk image 0).lseek 0
  copyPages withOob (endPage - startPage).toNat flashFd imageFd (fill 0xff) (fill 0xff)

/-! ## The pages it writes -/

/-- The bytes of the image one page takes. -/
def unit (withOob : Int) : Nat :=
  if withOob ≠ 0 then pavoNandPageSize + pavoNandOobSize else pavoNandPageSize

/-- The bytes the two buffers hold before page `k` is read: the page before it. -/
def stalePage (image : ByteFile) (withOob : Int) : Nat → Buf
  | 0 => fill 0xff
  | k + 1 => fun j => if j < unit withOob then image.byte (unit withOob * k + j) else 0xff

/-- Page `k` as the loop writes it. -/
def writtenPage (image : ByteFile) (withOob : Int) (k : Nat) : Buf := fun j =>
  if j < unit withOob ∧ unit withOob * k + j < image.size then image.byte (unit withOob * k + j)
  else stalePage image withOob k j

/-- How many pages the loop writes for a range of `count`. -/
def pagesWritten (image : ByteFile) (withOob : Int) (count : Nat) : Nat :=
  min count (image.size / unit withOob + 1)

theorem unit_eq_or (withOob : Int) :
    withOob ≠ 0 ∧ unit withOob = 2112 ∨ withOob = 0 ∧ unit withOob = 2048 := by
  by_cases oob : withOob = 0
  · exact Or.inr ⟨oob, by rw [unit, if_neg (not_not.mpr oob)]; rfl⟩
  · exact Or.inl ⟨oob, by rw [unit, if_pos oob]; rfl⟩

/-- `data` and `oob` are the two halves of a page. -/
def Halves (page data oob : Buf) : Prop :=
  (∀ j, j < 2048 → data j = page j) ∧ ∀ j, j < 64 → oob j = page (2048 + j)

section Loop

variable {image : ByteFile} {withOob : Int} {k : Nat} {data oob : Buf}

theorem stalePage_past {j : Nat} (past : unit withOob ≤ j) :
    stalePage image withOob k j = 0xff := by
  cases k with
  | zero => rfl
  | succ k => exact if_neg (by omega)

theorem stalePage_succ {j : Nat} (inside : j < unit withOob) :
    stalePage image withOob (k + 1) j = image.byte (unit withOob * k + j) :=
  if_pos inside

/-- A page the image fills is what the buffers hold afterwards. -/
theorem writtenPage_full (full : unit withOob * (k + 1) ≤ image.size) :
    writtenPage image withOob k = stalePage image withOob (k + 1) := by
  funext j
  rw [Nat.mul_succ] at full
  by_cases inside : j < unit withOob
  · rw [writtenPage, if_pos ⟨inside, by omega⟩, stalePage_succ inside]
  · rw [writtenPage, if_neg (fun both => inside both.1), stalePage_past (by omega),
      stalePage_past (by omega)]

/-- A read brings a window of the buffered page up to date.  It starts at the
window's place in the image, or past the end, when an earlier read was short. -/
theorem read_window {buf : Buf} {first count pos : Nat} (window : first + count ≤ unit withOob)
    (stale : ∀ j, j < count → buf j = stalePage image withOob k (first + j))
    (start : pos = unit withOob * k + first ∨
      image.size ≤ pos ∧ pos ≤ unit withOob * k + first) :
    ∀ j, j < count → blit buf 0 (shift image.byte pos) (min count (image.size - pos)) j =
      writtenPage image withOob k (first + j) := by
  intro j inside
  rw [writtenPage]
  by_cases got : j < min count (image.size - pos)
  · have aligned : pos = unit withOob * k + first := by omega
    rw [blit_inside (Nat.zero_le j) (by omega), if_pos ⟨by omega, by omega⟩, shift_apply, aligned,
      Nat.sub_zero, Nat.add_assoc]
  · rw [blit_outside (by omega), if_neg (by omega), stale j inside]

/-- Reading page `k`: the buffers hold it, and the loop goes on exactly when the
image held all of it. -/
theorem readPage_spec (stale : Halves (stalePage image withOob k) data oob)
    (inside : unit withOob * k ≤ image.size) :
    ∃ data' oob' imageFd', readPage withOob ⟨image, unit withOob * k⟩ data oob =
        (decide (unit withOob * (k + 1) ≤ image.size), data', oob', imageFd') ∧
      Halves (writtenPage image withOob k) data' oob' ∧
      (unit withOob * (k + 1) ≤ image.size → imageFd' = ⟨image, unit withOob * (k + 1)⟩) := by
  rw [Nat.mul_succ]
  have first : ∀ j, j < 2048 → data j = stalePage image withOob k (0 + j) := fun j below => by
    rw [stale.1 j below, Nat.zero_add]
  have dataRead := read_window (by rcases unit_eq_or withOob with h | h <;> omega) first
    (Or.inl (Nat.add_zero (unit withOob * k)).symm)
  simp only [Nat.zero_add] at dataRead
  let pos := unit withOob * k
  let pos' := pos + min 2048 (image.size - pos)
  rcases unit_eq_or withOob with ⟨oobBytes, size⟩ | ⟨noOob, size⟩
  · have read : readPage withOob ⟨image, pos⟩ data oob =
        (decide (2048 ≤ min 2048 (image.size - pos)) && decide (64 ≤ min 64 (image.size - pos')),
          blit data 0 (shift image.byte pos) (min 2048 (image.size - pos)),
          blit oob 0 (shift image.byte pos') (min 64 (image.size - pos')),
          ⟨image, pos' + min 64 (image.size - pos')⟩) := by
      rw [readPage]
      exact if_pos oobBytes
    rw [← Bool.decide_and] at read
    have oobRead := @read_window image withOob k oob 2048 64 pos' (by omega) stale.2 (by omega)
    refine ⟨_, _, _, read.trans (Prod.ext (decide_eq_decide.mpr ?_) rfl), ⟨dataRead, oobRead⟩,
      fun full => congrArg (Fd.mk image) ?_⟩
    · omega
    · omega
  · have read : readPage withOob ⟨image, pos⟩ data oob =
        (decide (2048 ≤ min 2048 (image.size - pos)),
          blit data 0 (shift image.byte pos) (min 2048 (image.size - pos)), oob,
          ⟨image, pos + min 2048 (image.size - pos)⟩) := by
      rw [readPage]
      exact if_neg (not_not.mpr noOob)
    have oobKept : ∀ j, j < 64 → oob j = writtenPage image withOob k (2048 + j) := by
      intro j below
      rw [writtenPage, if_neg (by omega), stale.2 j below]
    refine ⟨_, _, _, read.trans (Prod.ext (decide_eq_decide.mpr ?_) rfl), ⟨dataRead, oobKept⟩,
      fun full => congrArg (Fd.mk image) ?_⟩
    · omega
    · omega

/-- The two writes of a page are one. -/
theorem write_halves {page : Buf} {flashFd : Fd} (halves : Halves page data oob) :
    (flashFd.write data pavoNandPageSize).write oob pavoNandOobSize = flashFd.write page 2112 := by
  have joined : ∀ i, i < 2112 → (if i < 2048 then data i else oob (i - 2048)) = page i := by
    intro i inside
    split
    next first => exact halves.1 i first
    next second =>
      rw [halves.2 (i - 2048) (by omega), Nat.add_sub_of_le (Nat.le_of_not_lt second)]
  simp only [Fd.write, pavoNandPageSize, pavoNandOobSize, ByteFile.pwrite_pwrite_append,
    Nat.add_assoc, Nat.reduceAdd, ByteFile.pwrite_congr joined]

theorem unit_pos (withOob : Int) : 0 < unit withOob := by
  rcases unit_eq_or withOob with h | h <;> omega

/-- The loop from page `k` on writes the pages up to the end of the range, or up
to the first page the image does not fill. -/
theorem copyPages_eq {count : Nat} {flashFd : Fd}
    (stale : Halves (stalePage image withOob k) data oob)
    (inside : unit withOob * k ≤ image.size) :
    copyPages withOob count flashFd ⟨image, unit withOob * k⟩ data oob =
      flashFd.write (cells 2112 fun i => writtenPage image withOob (k + i))
        (2112 * min count (image.size / unit withOob - k + 1)) := by
  induction count generalizing k flashFd data oob with
  | zero => simp only [copyPages, Nat.zero_min, Nat.mul_zero, Fd.write_zero]
  | succ count ih =>
    obtain ⟨data', oob', imageFd', read, halves, next⟩ := readPage_spec stale inside
    have quotient : unit withOob * (k + 1) ≤ image.size ↔ k + 1 ≤ image.size / unit withOob := by
      rw [Nat.le_div_iff_mul_le (unit_pos withOob), Nat.mul_comm]
    have page := fun n => flashFd.write_cells_succ 2112 n
      (fun i => writtenPage image withOob (k + i)) (by decide)
    simp only [Nat.add_zero] at page
    simp only [copyPages, read, write_halves halves]
    by_cases full : unit withOob * (k + 1) ≤ image.size
    · have more : min (count + 1) (image.size / unit withOob - k + 1) =
          min count (image.size / unit withOob - (k + 1) + 1) + 1 := by omega
      rw [if_pos (decide_eq_true full), next full, ih (writtenPage_full full ▸ halves) full, more,
        ← page]
      simp only [Nat.add_assoc, Nat.add_comm 1]
    · have last : min (count + 1) (image.size / unit withOob - k + 1) = 0 + 1 := by omega
      rw [if_neg (by simpa using full), last, ← page, Nat.mul_zero, Fd.write_zero]

end Loop

/-- What one call does to the flash file. -/
theorem putToFlash_eq (flashFd : Fd) (image : ByteFile) (imageStart imageEnd withOob : Int) :
    putToFlash flashFd image imageStart imageEnd withOob =
      (flashFd.lseek (toInt32 (imageStart.tdiv 2048 * 2112))).write
        (cells 2112 (writtenPage image withOob))
        (2112 * pagesWritten image withOob
          (imageEnd.tdiv 2048 - imageStart.tdiv 2048).toNat) := by
  have cleared : Halves (stalePage image withOob 0) (fill 0xff) (fill 0xff) :=
    ⟨fun _ _ => rfl, fun _ _ => rfl⟩
  have loop := @copyPages_eq image withOob 0 (fill 0xff) (fill 0xff)
    (imageEnd.tdiv 2048 - imageStart.tdiv 2048).toNat
    (flashFd.lseek (toInt32 (imageStart.tdiv 2048 * 2112))) cleared (Nat.zero_le _)
  simp only [Nat.zero_add, Nat.sub_zero, Nat.mul_zero] at loop
  exact loop

/-! ## The range of a call -/

/-- The first page of a range. -/
def firstPage (imageStart : Int) : Nat := (imageStart / 2048).toNat

/-- The number of pages of a range. -/
def pageCount (imageStart imageEnd : Int) : Nat := (imageEnd / 2048 - imageStart / 2048).toNat

/-- The seek offset of the first page fits in an `int`. -/
def SeekFits (imageStart : Int) : Prop := 2112 * firstPage imageStart < 2 ^ 31

instance (imageStart : Int) : Decidable (SeekFits imageStart) := inferInstanceAs (Decidable (_ < _))

/-- Where the writes of a call start. -/
def seekBase (flashFd : Fd) (imageStart : Int) : Nat :=
  if SeekFits imageStart then 2112 * firstPage imageStart else flashFd.pos

section Range

variable {flashFd : Fd} {image : ByteFile} {imageStart imageEnd withOob : Int}

/-- For a start that is not negative, the offset is the page's place, or wraps to a
negative `int`, which `lseek` refuses. -/
theorem lseek_start (nonneg : 0 ≤ imageStart) (int : imageStart < 2 ^ 31) :
    flashFd.lseek (toInt32 (imageStart.tdiv 2048 * 2112)) =
      ⟨flashFd.file, seekBase flashFd imageStart⟩ := by
  obtain ⟨page, number⟩ := Int.eq_ofNat_of_zero_le (show 0 ≤ imageStart / 2048 by omega)
  have first : firstPage imageStart = page := by rw [firstPage, number, Int.toNat_natCast]
  have seek : SeekFits imageStart ↔ 2112 * page < 2 ^ 31 := by rw [SeekFits, first]
  have unwrapped : (page * 2112 : Int) % (2 ^ 32 : Nat) = page * 2112 :=
    Int.emod_eq_of_lt (by omega) (by omega)
  rw [Int.tdiv_eq_ediv_of_nonneg nonneg, number, seekBase, first, Fd.lseek, toInt32]
  by_cases fits : SeekFits imageStart
  · have small := seek.mp fits
    have offset : Int.bmod (page * 2112 : Int) (2 ^ 32) = (2112 * page : Nat) := by
      rw [Int.bmod, unwrapped]
      omega
    rw [if_pos fits, offset, if_neg (by omega), Int.toNat_natCast]
  · have large := mt seek.mpr fits
    have offset : Int.bmod (page * 2112 : Int) (2 ^ 32) < 0 := by
      rw [Int.bmod, unwrapped]
      omega
    rw [if_neg fits, if_pos offset]

theorem putToFlash_range (nonneg : 0 ≤ imageStart) (int : imageStart < 2 ^ 31)
    (nonneg' : 0 ≤ imageEnd) :
    putToFlash flashFd image imageStart imageEnd withOob =
      Fd.write ⟨flashFd.file, seekBase flashFd imageStart⟩ (cells 2112 (writtenPage image withOob))
        (2112 * pagesWritten image withOob (pageCount imageStart imageEnd)) := by
  rw [putToFlash_eq, lseek_start nonneg int, Int.tdiv_eq_ediv_of_nonneg nonneg,
    Int.tdiv_eq_ediv_of_nonneg nonneg', pageCount]

end Range

end VirtualNoah
