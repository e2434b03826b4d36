import VirtualNoah.Builder.PutToFlash

/-!
# When the flash holds exactly the image

`WritesExactly` is what a call of `put_to_flash` is for: the pages of the range
hold the units of the image, filled up with 0xff, and no other byte of the flash
changes.  The loop misses it in two ways.  A last unit that is short is filled
up with bytes of the page before it, because the buffers are cleared only once;
and an image that is a whole number of units gets one more page, because its end
is noticed only by the next read.  `exact_image_iff` says exactly when neither
shows.
-/

namespace VirtualNoah

open ByteStore

/-- Unit `k` of the image, filled up with 0xff. -/
def imagePage (image : ByteFile) (withOob : Int) (k : Nat) : Buf := fun j =>
  if j < unit withOob ∧ unit withOob * k + j < image.size then image.byte (unit withOob * k + j)
  else 0xff

/-- The units of the image that fall into a range of `count` pages: the last one
may be short. -/
def imagePages (image : ByteFile) (withOob : Int) (count : Nat) : Nat :=
  min ((image.size + unit withOob - 1) / unit withOob) count

/-- From page `first` on the flash holds the image, and the rest of it is as before. -/
structure WritesExactly (before after image : ByteFile) (first count : Nat) (withOob : Int) :
    Prop where
  pages : ∀ i, i < imagePages image withOob count → ∀ j, j < 2112 →
    after.byte (2112 * (first + i) + j) = imagePage image withOob i j
  others : ∀ x, x < 2112 * first ∨ 2112 * (first + imagePages image withOob count) ≤ x →
    after.byte x = before.byte x
  size : after.size = if imagePages image withOob count = 0 then before.size
    else max before.size (2112 * (first + imagePages image withOob count))

/-- What the buffers hold when the range reaches beyond the image does not show:
the last unit is filled up with 0xff, or the page after the image holds it
already. -/
def EndsClean (flash image : ByteFile) (base count : Nat) (withOob : Int) : Prop :=
  let q := image.size / unit withOob
  let r := image.size % unit withOob
  count ≤ q ∨
    0 < r ∧ (∀ j, r ≤ j → j < unit withOob → stalePage image withOob q j = 0xff) ∨
    r = 0 ∧ base + 2112 * q + 2112 ≤ flash.size ∧
      ∀ j, j < 2112 → stalePage image withOob q j = flash.byte (base + 2112 * q + j)

section Spec

variable {before after image : ByteFile} {first count : Nat} {withOob : Int}

/-- The specification as one write. -/
theorem writesExactly_iff : WritesExactly before after image first count withOob ↔
    after = before.pwrite (2112 * first) (2112 * imagePages image withOob count)
      (cells 2112 (imagePage image withOob)) := by
  constructor
  · intro exact_
    apply ByteFile.ext
    · rw [exact_.size, ByteFile.pwrite]
      dsimp only
      split <;> split <;> omega
    · intro x _
      rw [ByteFile.pwrite_byte]
      by_cases inside : 2112 * first ≤ x ∧ x < 2112 * first + 2112 * imagePages image withOob count
      · have place : x = 2112 * (first + (x - 2112 * first) / 2112) +
            (x - 2112 * first) % 2112 := by omega
        rw [blit_inside inside.1 inside.2, cells_apply,
          ← exact_.pages _ (by omega) _ (Nat.mod_lt _ (by decide)), ← place]
      · rw [blit_outside (by omega), exact_.others x (by omega)]
  · rintro rfl
    refine ⟨fun i row j column => ?_, fun x outside => ?_, ?_⟩
    · rw [Nat.mul_add, Nat.add_assoc]
      exact ByteFile.pwrite_cells_byte row column
    · exact blit_outside (by omega)
    · rw [ByteFile.pwrite]
      dsimp only
      split <;> split <;> omega

/-- Full units are written as they are. -/
theorem writtenPage_eq_imagePage {k j : Nat} (full : k < image.size / unit withOob) :
    writtenPage image withOob k j = imagePage image withOob k j := by
  have held : unit withOob * k + unit withOob ≤ image.size := by
    rw [← Nat.mul_succ, Nat.mul_comm]
    exact (Nat.le_div_iff_mul_le (unit_pos withOob)).mp full
  rw [writtenPage, imagePage]
  by_cases inside : j < unit withOob
  · rw [if_pos ⟨inside, by omega⟩, if_pos ⟨inside, by omega⟩]
  · rw [if_neg (fun both => inside both.1), if_neg (fun both => inside both.1),
      stalePage_past (by omega)]

/-- The last unit, which may be short or missing. -/
theorem writtenPage_last {j : Nat} :
    writtenPage image withOob (image.size / unit withOob) j =
      if j < image.size % unit withOob then imagePage image withOob (image.size / unit withOob) j
      else stalePage image withOob (image.size / unit withOob) j := by
  have split := Nat.div_add_mod image.size (unit withOob)
  have short := Nat.mod_lt image.size (unit_pos withOob)
  rw [writtenPage, imagePage]
  by_cases got : j < image.size % unit withOob
  · rw [if_pos got, if_pos ⟨by omega, by omega⟩, if_pos ⟨by omega, by omega⟩]
  · rw [if_neg got, if_neg (by omega)]

theorem imagePage_past {j : Nat} (past : image.size % unit withOob ≤ j) :
    imagePage image withOob (image.size / unit withOob) j = 0xff := by
  have split := Nat.div_add_mod image.size (unit withOob)
  exact if_neg (by omega)

theorem imagePages_eq : imagePages image withOob count =
    min (image.size / unit withOob + if image.size % unit withOob = 0 then 0 else 1) count := by
  rcases unit_eq_or withOob with ⟨-, size⟩ | ⟨-, size⟩ <;> rw [imagePages, size] <;> split <;> omega

theorem imagePages_pos (filled : 0 < image.size) (some : 0 < count) :
    0 < imagePages image withOob count := by
  refine Nat.lt_min.mpr ⟨Nat.div_pos ?_ (unit_pos withOob), some⟩
  omega

/-- The last unit is written as it should be when what it lacks is 0xff. -/
theorem last_page_iff :
    (∀ j, j < 2112 → writtenPage image withOob (image.size / unit withOob) j =
      imagePage image withOob (image.size / unit withOob) j) ↔
    ∀ j, image.size % unit withOob ≤ j → j < unit withOob →
      stalePage image withOob (image.size / unit withOob) j = 0xff := by
  constructor
  · intro exact_ j past inside
    have same := exact_ j (by rcases unit_eq_or withOob with h | h <;> omega)
    rw [writtenPage_last, if_neg (by omega), imagePage_past past] at same
    exact same
  · intro clean j _
    rw [writtenPage_last]
    split
    next => rfl
    next past =>
      rw [imagePage_past (by omega)]
      by_cases inside : j < unit withOob
      · exact clean j (by omega) inside
      · exact stalePage_past (by omega)

section Ends

variable {flash : ByteFile} {base : Nat}

/-- A short last unit is the last page, and the page has to be filled up right. -/
theorem written_eq_image_short :
    flash.pwrite base (2112 * (image.size / unit withOob + 1))
        (cells 2112 (writtenPage image withOob)) =
      flash.pwrite base (2112 * (image.size / unit withOob + 1))
        (cells 2112 (imagePage image withOob)) ↔
    ∀ j, image.size % unit withOob ≤ j → j < unit withOob →
      stalePage image withOob (image.size / unit withOob) j = 0xff := by
  rw [← last_page_iff]
  constructor
  · intro same j column
    have byte := congrArg ByteFile.byte same
    have last := congrFun byte (base + (2112 * (image.size / unit withOob) + j))
    rw [ByteFile.pwrite_cells_byte (Nat.lt_succ_self _) column,
      ByteFile.pwrite_cells_byte (Nat.lt_succ_self _) column] at last
    exact last
  · intro last
    refine ByteFile.pwrite_cells_congr (by decide) fun k row j column => ?_
    rcases Nat.lt_succ_iff_lt_or_eq.mp row with full | rfl
    · exact writtenPage_eq_imagePage full
    · exact last j column

/-- After a whole number of units one page too many is written, and the flash has to
hold it already. -/
theorem written_eq_image_whole (whole : image.size % unit withOob = 0) :
    flash.pwrite base (2112 * (image.size / unit withOob + 1))
        (cells 2112 (writtenPage image withOob)) =
      flash.pwrite base (2112 * (image.size / unit withOob))
        (cells 2112 (imagePage image withOob)) ↔
    base + 2112 * (image.size / unit withOob) + 2112 ≤ flash.size ∧
      ∀ j, j < 2112 → stalePage image withOob (image.size / unit withOob) j =
        flash.byte (base + 2112 * (image.size / unit withOob) + j) := by
  have units : flash.pwrite base (2112 * (image.size / unit withOob))
      (cells 2112 (writtenPage image withOob)) =
      flash.pwrite base (2112 * (image.size / unit withOob))
        (cells 2112 (imagePage image withOob)) :=
    ByteFile.pwrite_cells_congr (by decide) fun k row j _ => writtenPage_eq_imagePage row
  rw [← ByteFile.pwrite_cells_concat, units, ByteFile.pwrite_eq_self_iff (by decide)]
  refine and_congr ?_ (forall_congr' fun j => imp_congr_right fun column => ?_)
  · rw [ByteFile.pwrite]
    dsimp only
    split <;> omega
  · rw [writtenPage_last, if_neg (by omega), ByteFile.pwrite_byte, blit_outside (by omega)]

/-- What the loop writes is the image, filled up, exactly when it ends clean. -/
theorem written_eq_image_iff :
    flash.pwrite base (2112 * pagesWritten image withOob count)
        (cells 2112 (writtenPage image withOob)) =
      flash.pwrite base (2112 * imagePages image withOob count)
        (cells 2112 (imagePage image withOob)) ↔
    EndsClean flash image base count withOob := by
  rw [imagePages_eq, pagesWritten]
  simp only [EndsClean]
  rcases Nat.lt_or_ge (image.size / unit withOob) count with reaches | ends
  · have written : min count (image.size / unit withOob + 1) = image.size / unit withOob + 1 := by
      omega
    rw [written]
    rcases Nat.eq_zero_or_pos (image.size % unit withOob) with whole | short
    · have wanted : min (image.size / unit withOob + 0) count = image.size / unit withOob := by
        omega
      rw [if_pos whole, wanted, written_eq_image_whole whole]
      refine ⟨fun held => Or.inr (Or.inr ⟨whole, held⟩), ?_⟩
      rintro (ends | ⟨short, -⟩ | ⟨-, held⟩)
      · omega
      · omega
      · exact held
    · have wanted : min (image.size / unit withOob + 1) count = image.size / unit withOob + 1 := by
        omega
      rw [if_neg (by omega), wanted, written_eq_image_short]
      refine ⟨fun clean => Or.inr (Or.inl ⟨short, clean⟩), ?_⟩
      rintro (ends | ⟨-, clean⟩ | ⟨whole, -⟩)
      · omega
      · exact clean
      · omega
  · -- the range ends first
    have wanted : min (image.size / unit withOob +
        if image.size % unit withOob = 0 then 0 else 1) count = count := by omega
    rw [Nat.min_eq_left (by omega), wanted]
    refine iff_of_true (ByteFile.pwrite_cells_congr (by decide) fun k row j _ => ?_) (Or.inl ends)
    exact writtenPage_eq_imagePage (by omega)

end Ends

end Spec

/-- A call writes exactly the image, filled up with 0xff, when its seek offset fits
in an `int` and the copy ends clean, and in no other case.  Only for the last part
has the flash to be no larger than the chip. -/
theorem exact_image_iff (flashFd : Fd) (image : ByteFile) (imageStart imageEnd withOob : Int)
    (right : SeekFits imageStart ∨
      flashFd.file.size ≤ flashBytes ∧ flashFd.pos ≤ flashFd.file.size)
    (nonneg : 0 ≤ imageStart) (nonempty : imageStart < imageEnd) (int : imageEnd < 2 ^ 31)
    (aligned : 2048 ∣ imageStart) (aligned' : 2048 ∣ imageEnd) :
    WritesExactly flashFd.file (putToFlash flashFd image imageStart imageEnd withOob).file image
        (firstPage imageStart) (pageCount imageStart imageEnd) withOob ↔
      (SeekFits imageStart ∨ image.size = 0) ∧
        EndsClean flashFd.file image (seekBase flashFd imageStart)
          (pageCount imageStart imageEnd) withOob := by
  have some : 0 < pageCount imageStart imageEnd := by
    rw [pageCount]
    omega
  rw [putToFlash_range nonneg (by omega) (by omega), writesExactly_iff, Fd.write_file,
    ← written_eq_image_iff]
  by_cases fits : SeekFits imageStart
  · have base : seekBase flashFd imageStart = 2112 * firstPage imageStart := if_pos fits
    rw [base]
    exact (and_iff_right (Or.inl fits)).symm
  · obtain ⟨right, within⟩ := right.resolve_left fits
    have base : seekBase flashFd imageStart = flashFd.pos := if_neg fits
    have far : 2 ^ 31 ≤ 2112 * firstPage imageStart := Nat.le_of_not_lt fits
    have last : firstPage imageStart + pageCount imageStart imageEnd < 2 ^ 20 := by
      rw [firstPage, pageCount]
      omega
    rw [base]
    rcases Nat.eq_zero_or_pos image.size with empty | filled
    · have none : imagePages image withOob (pageCount imageStart imageEnd) = 0 := by
        rw [imagePages_eq, empty, Nat.zero_mod, Nat.zero_div]
        simp
      rw [none, Nat.mul_zero, ByteFile.pwrite_zero_len, ByteFile.pwrite_zero_len]
      exact (and_iff_right (Or.inr empty)).symm
    · -- the image would have to lie past the end of the flash, where nothing is written
      refine iff_of_false (fun same => ?_) fun both => ?_
      · have pages : 0 < imagePages image withOob (pageCount imageStart imageEnd) :=
          imagePages_pos filled some
        have written : 0 < pagesWritten image withOob (pageCount imageStart imageEnd) :=
          Nat.lt_min.mpr ⟨some, Nat.succ_pos _⟩
        have ranged : pagesWritten image withOob (pageCount imageStart imageEnd) ≤
          pageCount imageStart imageEnd := Nat.min_le_left _ _
        have sizes := congrArg ByteFile.size same
        dsimp only at sizes
        rw [ByteFile.pwrite_size_of_pos (by omega), ByteFile.pwrite_size_of_pos (by omega)]
          at sizes
        rw [flashBytes_eq] at right
        omega
      · exact both.1.elim fits (by omega)

/-- An erased flash, as `create_pavo_nandflash` leaves it. -/
def blankFlash : Fd := ⟨.ofBuf flashBytes (fill 0xff), flashBytes⟩

/-- A range that ends with the image. -/
theorem exact_image_one_page :
    WritesExactly blankFlash.file (putToFlash blankFlash (.ofBuf 2048 (fill 0)) 0 2048 0).file
      (.ofBuf 2048 (fill 0)) 0 1 0 :=
  (exact_image_iff blankFlash (.ofBuf 2048 (fill 0)) 0 2048 0 (Or.inl (by decide)) (by decide)
    (by decide) (by decide) (by decide) (by decide)).mpr
    ⟨Or.inl (by decide), Or.inl (by decide)⟩

/-- 2049 zero bytes: the second page is filled up with bytes of the first.  2048 zero
bytes: the page after the image is written too. -/
theorem not_exact_image :
    ¬ WritesExactly blankFlash.file (putToFlash blankFlash (.ofBuf 2049 (fill 0)) 0 4096 0).file
        (.ofBuf 2049 (fill 0)) 0 2 0 ∧
      ¬ WritesExactly blankFlash.file (putToFlash blankFlash (.ofBuf 2048 (fill 0)) 0 4096 0).file
        (.ofBuf 2048 (fill 0)) 0 2 0 := by
  refine ⟨fun exact_ => ?_, fun exact_ => ?_⟩
  · exact absurd (exact_.pages 1 (by decide) 1 (by decide)) (by decide)
  · exact absurd (exact_.others 2112 (Or.inr (by decide))) (by decide)

end VirtualNoah
