import VirtualNoah.Lib.ByteFile

/-!
# The block layer under the NAND model

`bdrv_read` and `bdrv_write` over the raw POSIX driver: whole sectors, moved by
one `pread` or `pwrite` on the image file.  A short read has filled the prefix
it got and answers `-EINVAL`; a write past the end of the file extends it.  The
drive is attached read-write, so no other error arises.
-/

namespace VirtualNoah

open ByteStore

def sectorSize : Nat := 0x200

def einval : Int := 22

/-- The answer code and the buffer after the read. -/
def bdrvRead (bdrv : ByteFile) (sectorNum : Nat) (buf : Buf) (nbSectors : Nat) : Int × Buf :=
  let len := nbSectors * sectorSize
  let (ret, buf) := bdrv.pread (sectorNum * sectorSize) len buf
  if ret ≠ len then (-einval, buf) else (0, buf)

/-- The answer code and the file after the write. -/
def bdrvWrite (bdrv : ByteFile) (sectorNum : Nat) (buf : Buf) (nbSectors : Nat) :
    Int × ByteFile :=
  (0, bdrv.pwrite (sectorNum * sectorSize) (nbSectors * sectorSize) buf)

def bdrvGetlength (bdrv : ByteFile) : Nat := bdrv.size

variable {bdrv : ByteFile} {sector nb : Nat} {buf : Buf}

/-- No read of an attached drive answers `-1`, not even a short one. -/
theorem bdrvRead_ne_neg_one : (bdrvRead bdrv sector buf nb).1 ≠ -1 := by
  simp only [bdrvRead, einval]
  split <;> simp

/-- Every wanted byte below the end of the file is delivered. -/
theorem bdrvRead_byte {i : Nat} (wanted : i < nb * sectorSize)
    (within : sector * sectorSize + i < bdrv.size) :
    (bdrvRead bdrv sector buf nb).2 i = bdrv.byte (sector * sectorSize + i) := by
  simp only [bdrvRead]
  split <;> exact ByteFile.pread_byte wanted within

theorem bdrvWrite_eq :
    (bdrvWrite bdrv sector buf nb).2 =
      bdrv.pwrite (sector * sectorSize) (nb * sectorSize) buf := rfl

end VirtualNoah
