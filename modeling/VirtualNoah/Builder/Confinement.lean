import Mathlib
import VirtualNoah.Builder.ExactImage

/-!
# Several images in one flash file

Calls of `put_to_flash` over disjoint page ranges of the flash: a call touches no
byte outside its range, however long its image is, so the file keeps its length
and the order of the calls does not matter.  Only the file offset depends on the
order, and every call seeks first.
-/

namespace VirtualNoah

open ByteStore

/-- The arguments of one call. -/
structure PutCall where
  image : ByteFile
  imageStart : Int
  imageEnd : Int
  withOob : Int

namespace PutCall

def run (flashFd : Fd) (call : PutCall) : Fd :=
  putToFlash flashFd call.image call.imageStart call.imageEnd call.withOob

/-- The pages of the range, in the division of C. -/
def pages (call : PutCall) : Set Int :=
  Set.Ico (call.imageStart.tdiv pavoNandPageSize) (call.imageEnd.tdiv pavoNandPageSize)

/-- The range lies inside the flash. -/
def Inside (call : PutCall) : Prop := call.pages ⊆ Set.Ico 0 pavoNandPages

/-- The write a call amounts to. -/
def first (call : PutCall) : Nat := (call.imageStart.tdiv pavoNandPageSize).toNat

def written (call : PutCall) : Nat :=
  pagesWritten call.image call.withOob
    (call.imageEnd.tdiv pavoNandPageSize - call.imageStart.tdiv pavoNandPageSize).toNat

def apply (file : ByteFile) (call : PutCall) : ByteFile :=
  file.pwrite (2112 * call.first) (2112 * call.written)
    (cells 2112 (writtenPage call.image call.withOob))

variable {call other : PutCall} {flashFd : Fd} {file : ByteFile}

/-- A call that writes at all writes a prefix of its range, which lies in the flash. -/
theorem written_range (inside : call.Inside) : call.written = 0 ∨
    (call.first : Int) = call.imageStart.tdiv pavoNandPageSize ∧
      (call.first + call.written : Int) ≤ call.imageEnd.tdiv pavoNandPageSize ∧
      call.first + call.written ≤ pavoNandPages := by
  rcases Nat.eq_zero_or_pos call.written with none | some
  · exact Or.inl none
  · have bound : call.written ≤ (call.imageEnd.tdiv pavoNandPageSize -
        call.imageStart.tdiv pavoNandPageSize).toNat := Nat.min_le_left _ _
    have lower : call.imageStart.tdiv pavoNandPageSize ∈ call.pages := ⟨by omega, by omega⟩
    have upper : call.imageEnd.tdiv pavoNandPageSize - 1 ∈ call.pages := ⟨by omega, by omega⟩
    have first := (inside lower).1
    have last := (inside upper).2
    rw [PutCall.first]
    exact Or.inr ⟨by omega, by omega, by omega⟩

/-- Every page a call writes is a page of its range. -/
theorem mem_pages {page : Nat} (inside : call.Inside) (lower : call.first ≤ page)
    (upper : page < call.first + call.written) : (page : Int) ∈ call.pages := by
  rcases call.written_range inside with none | ⟨first, last, -⟩
  · omega
  · exact ⟨by omega, by omega⟩

/-- Inside the flash the seek succeeds, and a call is its write. -/
theorem run_file (inside : call.Inside) : (run flashFd call).file = apply flashFd.file call := by
  rw [run, putToFlash_eq, apply, Fd.write_file]
  rcases call.written_range inside with none | ⟨first, -, last⟩
  · have length : pagesWritten call.image call.withOob
        (call.imageEnd.tdiv 2048 - call.imageStart.tdiv 2048).toNat = 0 := none
    rw [length, none, Nat.mul_zero, ByteFile.pwrite_zero_len, ByteFile.pwrite_zero_len, Fd.lseek]
    split <;> rfl
  · have start : call.imageStart.tdiv 2048 = call.first := first.symm
    have small : call.first ≤ 0x80000 := by
      rw [pavoNandPages] at last
      omega
    have offset : toInt32 (call.first * 2112) = (2112 * call.first : Nat) := by
      have unwrapped : (call.first * 2112 : Int) % (2 ^ 32 : Nat) = call.first * 2112 :=
        Int.emod_eq_of_lt (by omega) (by omega)
      rw [toInt32, Int.bmod, unwrapped]
      omega
    rw [start, offset, Fd.lseek, if_neg (by omega), Int.toNat_natCast, written, first]
    rfl

theorem apply_of_none (none : call.written = 0) : apply file call = file := by
  rw [apply, none, Nat.mul_zero, ByteFile.pwrite_zero_len]

theorem apply_size (inside : call.Inside) (right : file.size = flashBytes) :
    (apply file call).size = flashBytes := by
  rcases call.written_range inside with none | ⟨-, -, last⟩
  · rw [apply_of_none none, right]
  · rw [pavoNandPages] at last
    rw [apply, ByteFile.pwrite_size_of_le (by rw [right, flashBytes_eq]; omega), right]

/-- A call changes no byte of a page outside its range. -/
theorem apply_byte_outside {x : Nat} (inside : call.Inside)
    (outside : ((x / 2112 : Nat) : Int) ∉ call.pages) : (apply file call).byte x = file.byte x := by
  refine blit_outside ?_
  by_contra within
  exact outside (mem_pages inside (by omega) (by omega))

/-- Calls over disjoint ranges commute. -/
theorem apply_comm (inside : call.Inside) (inside' : other.Inside)
    (disjoint : Disjoint call.pages other.pages) :
    apply (apply file call) other = apply (apply file other) call := by
  rcases Nat.eq_zero_or_pos call.written with none | some
  · rw [apply_of_none none, apply_of_none none]
  rcases Nat.eq_zero_or_pos other.written with none' | some'
  · rw [apply_of_none none', apply_of_none none']
  apply ByteFile.pwrite_comm
  by_contra overlap
  have page : max call.first other.first < call.first + call.written ∧
      max call.first other.first < other.first + other.written := by omega
  exact Set.disjoint_left.mp disjoint (mem_pages inside (Nat.le_max_left _ _) page.1)
    (mem_pages inside' (Nat.le_max_right _ _) page.2)

/-! ## Sequences of calls -/

variable {calls order : List PutCall}

/-- The flash file after a sequence of calls; the offset is forgotten. -/
theorem foldl_run_file (inside : ∀ call ∈ calls, call.Inside) :
    (calls.foldl run flashFd).file = calls.foldl apply flashFd.file := by
  induction calls generalizing flashFd with
  | nil => rfl
  | cons call calls ih =>
    rw [List.foldl_cons, List.foldl_cons, ← run_file (inside call List.mem_cons_self)]
    exact ih fun call later => inside call (List.mem_cons_of_mem _ later)

theorem foldl_apply_size (inside : ∀ call ∈ calls, call.Inside) (right : file.size = flashBytes) :
    (calls.foldl apply file).size = flashBytes := by
  induction calls generalizing file with
  | nil => exact right
  | cons call calls ih =>
    exact ih (fun call later => inside call (List.mem_cons_of_mem _ later))
      (apply_size (inside call List.mem_cons_self) right)

/-- The order of disjoint calls does not matter. -/
theorem foldl_apply_perm (inside : ∀ call ∈ calls, call.Inside)
    (disjoint : calls.Pairwise fun a b => Disjoint a.pages b.pages) (perm : order.Perm calls) :
    order.foldl apply file = calls.foldl apply file := by
  have commute : ∀ a ∈ calls, ∀ b ∈ calls, ∀ file,
      apply (apply file a) b = apply (apply file b) a := by
    have symmetric : Std.Symm fun a b : PutCall => Disjoint a.pages b.pages :=
      ⟨fun _ _ apart => apart.symm⟩
    intro a first b second file
    by_cases same : a = b
    · rw [same]
    · exact apply_comm (inside a first) (inside b second) (disjoint.forall first second same)
  exact (perm.symm.foldl_eq' commute file).symm

end PutCall

/-- Calls over disjoint ranges of the flash, in any order: each of them changes
bytes of its own pages only, the length of the file stays, and the contents
that are left are the same. -/
theorem calls_confined_and_commute (flashFd : Fd) (calls : List PutCall)
    (right : flashFd.file.size = flashBytes) (inside : ∀ call ∈ calls, call.Inside)
    (disjoint : calls.Pairwise fun a b => Disjoint a.pages b.pages) :
    ∀ order, order.Perm calls →
      (∀ done call todo, order = done ++ call :: todo →
        ∀ x, ((x / 2112 : Nat) : Int) ∉ call.pages →
          (call.run (done.foldl PutCall.run flashFd)).file.byte x =
            (done.foldl PutCall.run flashFd).file.byte x) ∧
      (order.foldl PutCall.run flashFd).file.size = flashBytes ∧
      (order.foldl PutCall.run flashFd).file = (calls.foldl PutCall.run flashFd).file := by
  intro order perm
  have inside' : ∀ call ∈ order, call.Inside :=
    fun call given => inside call (perm.mem_iff.mp given)
  refine ⟨?_, ?_, ?_⟩
  · rintro done call todo rfl x outside
    have given : call ∈ done ++ call :: todo := List.mem_append_right _ List.mem_cons_self
    rw [PutCall.run_file (inside' call given)]
    exact PutCall.apply_byte_outside (inside' call given) outside
  · rw [PutCall.foldl_run_file inside']
    exact PutCall.foldl_apply_size inside' right
  · rw [PutCall.foldl_run_file inside', PutCall.foldl_run_file inside]
    exact PutCall.foldl_apply_perm inside disjoint perm

/-- Two images, the longer one clipped by its range, in the other order. -/
theorem two_calls_commute :
    let boot : PutCall := ⟨.ofBuf 9000 (fill 0), 0, 4096, 0⟩
    let files : PutCall := ⟨.ofBuf 100 (fill 1), 8192, 0x40000000, 1⟩
    ([files, boot].foldl PutCall.run blankFlash).file =
      ([boot, files].foldl PutCall.run blankFlash).file := by
  intro boot files
  have ranges : boot.pages = Set.Ico 0 2 ∧ files.pages = Set.Ico 4 0x80000 := ⟨rfl, rfl⟩
  refine (calls_confined_and_commute blankFlash [boot, files] rfl ?_ ?_ [files, boot] ?_).2.2
  · simp only [List.forall_mem_cons, List.not_mem_nil, false_implies, implies_true, and_true,
      PutCall.Inside, ranges]
    exact ⟨Set.Ico_subset_Ico_right (by decide), Set.Ico_subset_Ico_left (by decide)⟩
  · simp only [List.pairwise_cons, List.mem_singleton, forall_eq, ranges, List.not_mem_nil,
      false_implies, implies_true, List.Pairwise.nil, and_true]
    exact Set.disjoint_left.mpr fun page low high => absurd low.2 (by have := high.1; omega)
  · exact List.Perm.swap _ _ _

end VirtualNoah
