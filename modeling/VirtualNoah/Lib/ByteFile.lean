import Mathlib.Data.Set.Lattice
import Mathlib.Order.CompletePartialOrder
import Mathlib.Order.Interval.Set.Basic
import Mathlib.Tactic.Common

/-!
# Memory buffers and sparse byte files

A `Buf` is the contents of a memory buffer, read by offset; the capacity of a
buffer is the business of the code that uses it.  A `ByteFile` is a regular
file: a length and its bytes, with nothing but zeros past the end, so that a
write past the end leaves the zero-filled hole POSIX promises.

The algebra is stated for `blit` (`memcpy` and `memset` are both instances) and
lifted to `pwrite`: consecutive writes join, disjoint writes commute, and a
write of what is already there does nothing.
-/

namespace ByteStore

abbrev Byte := BitVec 8

/-- The contents of a memory buffer. -/
abbrev Buf := Nat → Byte

/-- The buffer `memset` fills: every byte is `v`. -/
def fill (v : Byte) : Buf := fun _ => v

/-- The buffer starting at offset `off` of `src`. -/
def shift (src : Buf) (off : Nat) : Buf := fun i => src (off + i)

/-- `memcpy(dst + off, src, len)`. -/
def blit (dst : Buf) (off : Nat) (src : Buf) (len : Nat) : Buf :=
  fun i => if off ≤ i ∧ i < off + len then src (i - off) else dst i

/-- The bytes of a list. -/
def listBuf (bytes : List Byte) : Buf := fun i => bytes.getD i 0

@[simp] theorem listBuf_cons_zero (b : Byte) (bytes : List Byte) :
    listBuf (b :: bytes) 0 = b := rfl

/-- A row of cells, each `w` bytes wide. -/
def cells (w : Nat) (cell : Nat → Buf) : Buf := fun i => cell (i / w) (i % w)

theorem cells_apply (w : Nat) (cell : Nat → Buf) (i : Nat) :
    cells w cell i = cell (i / w) (i % w) := rfl

/-- Byte `j` of cell `k`. -/
theorem cells_mul_add {w : Nat} (cell : Nat → Buf) (k : Nat) {j : Nat} (inside : j < w) :
    cells w cell (w * k + j) = cell k j := by
  rw [cells_apply, Nat.mul_add_div (by omega), Nat.mul_add_mod, Nat.div_eq_of_lt inside,
    Nat.mod_eq_of_lt inside, Nat.add_zero]

@[simp] theorem fill_apply (v : Byte) (i : Nat) : fill v i = v := rfl

@[simp] theorem shift_apply (src : Buf) (off i : Nat) : shift src off i = src (off + i) := rfl

theorem listBuf_map_range {n i : Nat} {src : Buf} (inside : i < n) :
    listBuf ((List.range n).map src) i = src i := by
  rw [listBuf, List.getD_eq_getElem?_getD, List.getElem?_map, List.getElem?_range inside]
  rfl

theorem shift_listBuf_cons (b : Byte) (bytes : List Byte) :
    shift (listBuf (b :: bytes)) 1 = listBuf bytes := by
  funext i
  rw [shift_apply, Nat.add_comm]
  rfl

/-! ## Copies -/

section Blit

variable {dst src : Buf} {off len i : Nat}

theorem blit_inside (lower : off ≤ i) (upper : i < off + len) :
    blit dst off src len i = src (i - off) :=
  if_pos ⟨lower, upper⟩

theorem blit_outside (outside : i < off ∨ off + len ≤ i) : blit dst off src len i = dst i :=
  if_neg (by omega)

@[simp] theorem blit_zero_len : blit dst off src 0 = dst := by
  funext i
  exact blit_outside (by omega)

/-- Copying what the destination already holds changes nothing. -/
theorem blit_self (same : ∀ i, i < len → src i = dst (off + i)) : blit dst off src len = dst := by
  funext i
  by_cases inside : off ≤ i ∧ i < off + len
  · rw [blit_inside inside.1 inside.2, same _ (by omega)]
    congr 1
    omega
  · exact blit_outside (by omega)

/-- A copy changes nothing exactly when the bytes are there already. -/
theorem blit_eq_self_iff : blit dst off src len = dst ↔ ∀ i < len, dst (off + i) = src i := by
  constructor
  · intro same i part
    have moved := congrFun same (off + i)
    rw [blit_inside (Nat.le_add_right off i) (by omega), Nat.add_sub_cancel_left] at moved
    exact moved.symm
  · intro there
    exact blit_self fun i part => (there i part).symm

/-- Two copies of one source agree exactly when the bytes only the longer one moves
are there already. -/
theorem blit_len_eq_iff {len' : Nat} : blit dst off src len = blit dst off src len' ↔
    ∀ i, min len len' ≤ i → i < max len len' → dst (off + i) = src i := by
  have value : ∀ n i, blit dst off src n (off + i) = if i < n then src i else dst (off + i) := by
    intro n i
    split
    · next inside =>
      rw [blit_inside (Nat.le_add_right off i) (by omega), Nat.add_sub_cancel_left]
    · next past => exact blit_outside (by omega)
  constructor
  · intro same i past inside
    have moved := congrFun same (off + i)
    rw [value, value] at moved
    rcases Nat.le_total len len' with short | long
    · rwa [if_neg (by omega), if_pos (by omega)] at moved
    · rw [if_pos (by omega), if_neg (by omega)] at moved
      exact moved.symm
  · intro there
    funext i
    rcases Nat.lt_or_ge i off with before | start
    · rw [blit_outside (Or.inl before), blit_outside (Or.inl before)]
    · obtain ⟨j, rfl⟩ := Nat.exists_eq_add_of_le start
      rw [value, value]
      split <;> split
      · rfl
      · exact (there j (by omega) (by omega)).symm
      · exact there j (by omega) (by omega)
      · rfl

/-- A copy depends only on the bytes it moves. -/
theorem blit_congr {src' : Buf} (same : ∀ i, i < len → src i = src' i) :
    blit dst off src len = blit dst off src' len := by
  funext i
  by_cases inside : off ≤ i ∧ i < off + len
  · rw [blit_inside inside.1 inside.2, blit_inside inside.1 inside.2, same _ (by omega)]
  · rw [blit_outside (by omega), blit_outside (by omega)]

/-- Two consecutive copies are one copy of the joined source. -/
theorem blit_blit_append {next : Buf} {more : Nat} :
    blit (blit dst off src len) (off + len) next more =
      blit dst off (fun i => if i < len then src i else next (i - len)) (len + more) := by
  funext i
  rcases Nat.lt_or_ge i off with before | start
  · rw [blit_outside (by omega), blit_outside (by omega), blit_outside (by omega)]
  · rcases Nat.lt_or_ge i (off + len) with first | later
    · rw [blit_outside (by omega), blit_inside start first, blit_inside start (by omega),
        if_pos (by omega)]
    · rcases Nat.lt_or_ge i (off + len + more) with second | past
      · rw [blit_inside later second, blit_inside start (by omega), if_neg (by omega)]
        congr 1
        omega
      · rw [blit_outside (by omega), blit_outside (by omega), blit_outside (by omega)]

/-- Storing the first byte and copying the rest is the whole copy. -/
theorem blit_update :
    blit (Function.update dst off (src 0)) (off + 1) (shift src 1) len =
      blit dst off src (len + 1) := by
  funext i
  rcases Nat.lt_trichotomy i off with before | rfl | after
  · rw [blit_outside (by omega), blit_outside (by omega),
      Function.update_of_ne (Nat.ne_of_lt before)]
  · rw [blit_outside (by omega), blit_inside (by omega) (by omega), Function.update_self,
      Nat.sub_self]
  · rcases Nat.lt_or_ge i (off + 1 + len) with inside | past
    · rw [blit_inside (by omega) inside, blit_inside (by omega) (by omega), shift_apply]
      congr 1
      omega
    · rw [blit_outside (by omega), blit_outside (by omega),
        Function.update_of_ne (Nat.ne_of_gt after)]

/-- Copies into disjoint windows commute. -/
theorem blit_comm {src' : Buf} {off' len' : Nat}
    (disjoint : off + len ≤ off' ∨ off' + len' ≤ off) :
    blit (blit dst off src len) off' src' len' = blit (blit dst off' src' len') off src len := by
  funext i
  by_cases first : off ≤ i ∧ i < off + len
  · rw [blit_outside (by omega), blit_inside first.1 first.2, blit_inside first.1 first.2]
  · by_cases second : off' ≤ i ∧ i < off' + len'
    · rw [blit_inside second.1 second.2, blit_outside (by omega),
        blit_inside second.1 second.2]
    · rw [blit_outside (by omega), blit_outside (by omega), blit_outside (by omega),
        blit_outside (by omega)]

/-- Operations that write to disjoint places change nothing together exactly when
none of them changes anything. -/
theorem foldl_eq_self_iff {δ : Type} {op : Buf → δ → Buf} {writes : δ → Set Nat}
    (frame : ∀ mem d i, i ∉ writes d → op mem d i = mem i) {ds : List δ}
    (apart : ds.Pairwise fun d e => Disjoint (writes d) (writes e)) {mem : Buf} :
    ds.foldl op mem = mem ↔ ∀ d ∈ ds, op mem d = mem := by
  have untouched : ∀ {ds : List δ} {mem : Buf} {i : Nat}, (∀ d ∈ ds, i ∉ writes d) →
      ds.foldl op mem i = mem i := by
    intro ds
    induction ds with
    | nil => exact fun _ => rfl
    | cons d ds ih =>
      intro mem i outside
      obtain ⟨first, others⟩ := List.forall_mem_cons.mp outside
      exact (ih others).trans (frame mem d i first)
  induction ds with
  | nil => exact iff_of_true rfl nofun
  | cons d ds ih =>
    obtain ⟨first, others⟩ := List.pairwise_cons.mp apart
    rw [List.forall_mem_cons, List.foldl_cons]
    constructor
    · intro same
      have still : op mem d = mem := by
        funext i
        by_cases written : i ∈ writes d
        · have outside : ∀ e ∈ ds, i ∉ writes e :=
            fun e later => Set.disjoint_left.mp (first e later) written
          exact (untouched outside).symm.trans (congrFun same i)
        · exact frame mem d i written
      rw [still] at same
      exact ⟨still, (ih others).mp same⟩
    · rintro ⟨still, rest⟩
      rw [still]
      exact (ih others).mpr rest

end Blit

/-! ## Byte files -/

/-- A regular file.  Past the end there are only zeros, which is what a later
write past the end leaves in the hole. -/
structure ByteFile where
  size : Nat
  byte : Buf
  zero_past_end : ∀ i, size ≤ i → byte i = 0

namespace ByteFile

@[ext] theorem ext {f g : ByteFile} (size : f.size = g.size)
    (byte : ∀ i, i < f.size → f.byte i = g.byte i) : f = g := by
  rcases f with ⟨n, b, zero⟩
  rcases g with ⟨m, c, zero'⟩
  dsimp only at size byte
  subst size
  have same : b = c := by
    funext i
    rcases Nat.lt_or_ge i n with inside | past
    · exact byte i inside
    · rw [zero i past, zero' i past]
  subst same
  rfl

/-- The empty file. -/
def empty : ByteFile := ⟨0, fill 0, fun _ _ => rfl⟩

/-- The file of the first `n` bytes of a buffer. -/
def ofBuf (n : Nat) (src : Buf) : ByteFile where
  size := n
  byte := fun i => if i < n then src i else 0
  zero_past_end := fun _ past => if_neg (Nat.not_lt.mpr past)

theorem ofBuf_byte {n i : Nat} (src : Buf) (inside : i < n) : (ofBuf n src).byte i = src i :=
  if_pos inside

/-- `pread`: the number of bytes delivered, and the destination with that
prefix overwritten.  Only the end of the file makes the read short. -/
def pread (f : ByteFile) (off len : Nat) (dst : Buf) : Nat × Buf :=
  let n := min len (f.size - off)
  (n, blit dst 0 (shift f.byte off) n)

/-- `pwrite`: the file grows when the window reaches past its end. -/
def pwrite (f : ByteFile) (off len : Nat) (src : Buf) : ByteFile where
  size := if len = 0 then f.size else max f.size (off + len)
  byte := blit f.byte off src len
  zero_past_end := by
    intro i past
    split at past
    next none =>
      rw [blit_outside (by omega)]
      exact f.zero_past_end i past
    next =>
      rw [blit_outside (by omega)]
      exact f.zero_past_end i (by omega)

variable {f : ByteFile} {off len : Nat} {src : Buf}

/-- The bytes a read delivers, short or not. -/
theorem pread_byte {dst : Buf} {i : Nat} (wanted : i < len) (within : off + i < f.size) :
    (f.pread off len dst).2 i = f.byte (off + i) := by
  simp only [pread]
  rw [blit_inside (Nat.zero_le i) (by omega), Nat.sub_zero, shift_apply]

@[simp] theorem pwrite_byte : (f.pwrite off len src).byte = blit f.byte off src len := rfl

theorem pwrite_size_of_pos (some : 0 < len) :
    (f.pwrite off len src).size = max f.size (off + len) :=
  if_neg (by omega)

theorem pwrite_size_of_le (within : off + len ≤ f.size) :
    (f.pwrite off len src).size = f.size := by
  simp only [pwrite]
  split <;> omega

theorem size_le_pwrite : f.size ≤ (f.pwrite off len src).size := by
  simp only [pwrite]
  split <;> omega

@[simp] theorem pwrite_zero_len : f.pwrite off 0 src = f := by
  apply ByteFile.ext
  · rfl
  · intro i _
    simp only [pwrite_byte, blit_zero_len]

theorem pwrite_congr {src' : Buf} (same : ∀ i, i < len → src i = src' i) :
    f.pwrite off len src = f.pwrite off len src' := by
  apply ByteFile.ext
  · rfl
  · intro i _
    simp only [pwrite_byte, blit_congr same]

/-- Writing the bytes the file already holds changes nothing. -/
theorem pwrite_self (within : off + len ≤ f.size)
    (same : ∀ i, i < len → src i = f.byte (off + i)) : f.pwrite off len src = f := by
  apply ByteFile.ext
  · exact pwrite_size_of_le within
  · intro i _
    rw [pwrite_byte, blit_self same]

/-- Two consecutive writes are one write of the joined source. -/
theorem pwrite_pwrite_append {next : Buf} {more : Nat} :
    (f.pwrite off len src).pwrite (off + len) more next =
      f.pwrite off (len + more) (fun i => if i < len then src i else next (i - len)) := by
  apply ByteFile.ext
  · simp only [pwrite]
    split <;> split <;> split <;> omega
  · intro i _
    simp only [pwrite_byte, blit_blit_append]

/-- Two consecutive fills are one fill. -/
theorem pwrite_fill_append {v : Byte} {more : Nat} :
    (f.pwrite off len (fill v)).pwrite (off + len) more (fill v) =
      f.pwrite off (len + more) (fill v) := by
  rw [pwrite_pwrite_append]
  apply pwrite_congr
  intro i _
  split <;> rfl

/-- Only a write of what is there already changes nothing. -/
theorem pwrite_eq_self_iff (some : 0 < len) :
    f.pwrite off len src = f ↔
      off + len ≤ f.size ∧ ∀ i, i < len → src i = f.byte (off + i) := by
  refine ⟨fun same => ?_, fun held => pwrite_self held.1 held.2⟩
  have size := congrArg ByteFile.size same
  rw [pwrite_size_of_pos some] at size
  refine ⟨by omega, fun i inside => ?_⟩
  rw [← congrFun (congrArg ByteFile.byte same) (off + i), pwrite_byte,
    blit_inside (by omega) (by omega), Nat.add_sub_cancel_left]

/-- Read a window, change a part of it and write the window back: only that part
of the file is written. -/
theorem pwrite_modified {n k : Nat} (window : off + n ≤ f.size) (part : k + len ≤ n) :
    f.pwrite off n (blit (shift f.byte off) k src len) = f.pwrite (off + k) len src := by
  apply ByteFile.ext
  · rw [pwrite_size_of_le window, pwrite_size_of_le (by omega)]
  · intro i _
    rw [pwrite_byte, pwrite_byte]
    by_cases inside : off + k ≤ i ∧ i < off + k + len
    · rw [blit_inside (by omega) (by omega), blit_inside (by omega) (by omega),
        blit_inside inside.1 inside.2]
      congr 1
      omega
    · have unwritten : blit f.byte (off + k) src len i = f.byte i := blit_outside (by omega)
      rw [unwritten]
      by_cases read : off ≤ i ∧ i < off + n
      · rw [blit_inside read.1 read.2, blit_outside (by omega), shift_apply]
        congr 1
        omega
      · exact blit_outside (by omega)

/-- Writing the first cell of a row and then the others is writing the row. -/
theorem pwrite_cells_succ {w n : Nat} {cell : Nat → Buf} (wide : 0 < w) :
    (f.pwrite off w (cell 0)).pwrite (off + w) (w * n) (cells w fun k => cell (k + 1)) =
      f.pwrite off (w * (n + 1)) (cells w cell) := by
  rw [pwrite_pwrite_append, Nat.mul_succ, Nat.add_comm w]
  apply pwrite_congr
  intro i _
  split
  next first =>
    rw [cells_apply, Nat.div_eq_of_lt first, Nat.mod_eq_of_lt first]
  next later =>
    have past : w ≤ i := Nat.le_of_not_lt later
    rw [cells_apply, cells_apply, ← Nat.mod_eq_sub_mod past, ← Nat.div_eq_sub_div wide past]

/-- Writing a row and then one more cell is writing the longer row. -/
theorem pwrite_cells_concat {w n : Nat} {cell : Nat → Buf} :
    (f.pwrite off (w * n) (cells w cell)).pwrite (off + w * n) w (cell n) =
      f.pwrite off (w * (n + 1)) (cells w cell) := by
  rw [pwrite_pwrite_append, Nat.mul_succ]
  apply pwrite_congr
  intro i inside
  split
  next => rfl
  next last =>
    have place : i = w * n + (i - w * n) := by omega
    have column : i - w * n < w := by omega
    rw [place, cells_mul_add cell n column, Nat.add_sub_cancel_left]

/-- A row depends only on the bytes inside its cells. -/
theorem pwrite_cells_congr {w n : Nat} {cell cell' : Nat → Buf} (wide : 0 < w)
    (same : ∀ k, k < n → ∀ j, j < w → cell k j = cell' k j) :
    f.pwrite off (w * n) (cells w cell) = f.pwrite off (w * n) (cells w cell') := by
  apply pwrite_congr
  intro i inside
  exact same _ (Nat.div_lt_of_lt_mul inside) _ (Nat.mod_lt i wide)

/-- Byte `j` of cell `k` of a written row. -/
theorem pwrite_cells_byte {w n k j : Nat} {cell : Nat → Buf} (row : k < n) (column : j < w) :
    (f.pwrite off (w * n) (cells w cell)).byte (off + (w * k + j)) = cell k j := by
  have inside : w * k + j < w * n :=
    Nat.lt_of_lt_of_le (by rw [Nat.mul_succ]; omega) (Nat.mul_le_mul_left w row)
  rw [pwrite_byte, blit_inside (by omega) (by omega), Nat.add_sub_cancel_left,
    cells_mul_add cell k column]

/-- Writes into disjoint windows commute. -/
theorem pwrite_comm {src' : Buf} {off' len' : Nat}
    (disjoint : off + len ≤ off' ∨ off' + len' ≤ off) :
    (f.pwrite off len src).pwrite off' len' src' =
      (f.pwrite off' len' src').pwrite off len src := by
  apply ByteFile.ext
  · simp only [pwrite]
    split <;> split <;> omega
  · intro i _
    simp only [pwrite_byte, blit_comm disjoint]

end ByteFile

end ByteStore
