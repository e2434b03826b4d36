import Mathlib.Logic.Function.Basic
import VirtualNoah.Lib.ByteFile
import VirtualNoah.Lib.Lanes

/-!
# Little-endian words in a buffer

`load32` and `store32` are what a little-endian C program does through a pointer
to a 32-bit word at any offset, aligned or not.  Offsets are literals where they
are used, so the side conditions of the lemmas are left to `omega`.
-/

namespace ByteStore

open Lanes

/-- `*(uint32_t *) (buf + off)`. -/
def load32 (buf : Buf) (off : Nat) : BitVec 32 :=
  ofLanes (buf off) (buf (off + 1)) (buf (off + 2)) (buf (off + 3))

/-- `*(uint32_t *) (buf + off) = v`. -/
def store32 (buf : Buf) (off : Nat) (v : BitVec 32) : Buf := blit buf off (lane v) 4

section Words

variable {buf src : Buf} {off place i count : Nat} {v : BitVec 32}

theorem store32_outside (outside : i < off ∨ off + 4 ≤ i) : store32 buf off v i = buf i :=
  blit_outside outside

@[simp] theorem load32_store32 : load32 (store32 buf off v) off = v := by
  simp only [load32, store32]
  rw [blit_inside (Nat.le_refl off) (by omega), blit_inside (by omega) (by omega),
    blit_inside (by omega) (by omega), blit_inside (by omega) (by omega), Nat.sub_self,
    Nat.add_sub_cancel_left, Nat.add_sub_cancel_left, Nat.add_sub_cancel_left, ofLanes_lane]

theorem load32_store32_of_disjoint (disjoint : place + 4 ≤ off ∨ off + 4 ≤ place) :
    load32 (store32 buf off v) place = load32 buf place := by
  simp only [load32]
  rw [store32_outside (by omega), store32_outside (by omega), store32_outside (by omega),
    store32_outside (by omega)]

/-- A word that is stored where it was loaded from brings its bytes along. -/
theorem store32_load32_inside (lower : off ≤ i) (upper : i < off + 4) :
    store32 buf off (load32 src off) i = src i := by
  obtain ⟨b₀, b₁, b₂, b₃⟩ :=
    lane_ofLanes (src off) (src (off + 1)) (src (off + 2)) (src (off + 3))
  rw [store32, blit_inside lower upper, load32]
  obtain ⟨j, rfl⟩ := Nat.exists_eq_add_of_le lower
  rw [Nat.add_sub_cancel_left]
  have four : j < 4 := by omega
  match j, four with
  | 0, _ => exact b₀
  | 1, _ => exact b₁
  | 2, _ => exact b₂
  | 3, _ => exact b₃

theorem load32_blit_of_disjoint (disjoint : place + 4 ≤ off ∨ off + count ≤ place) :
    load32 (blit buf off src count) place = load32 buf place := by
  simp only [load32]
  rw [blit_outside (by omega), blit_outside (by omega), blit_outside (by omega),
    blit_outside (by omega)]

theorem load32_congr (same : ∀ j, j < 4 → src (off + j) = buf (off + j)) :
    load32 src off = load32 buf off := by
  have first : src off = buf off := same 0 (by omega)
  simp only [load32]
  rw [first, same 1 (by omega), same 2 (by omega), same 3 (by omega)]

/-- A load that puts the word together from its bytes. -/
theorem orLanes_load32 :
    orLanes (buf off) (buf (off + 1)) (buf (off + 2)) (buf (off + 3)) = load32 buf off :=
  orLanes_eq_ofLanes _ _ _ _

end Words

/-- Storing one byte after the other is a copy. -/
theorem foldl_update_eq_blit {dst src : Buf} {off count : Nat} :
    (List.range count).foldl (fun buf i => Function.update buf (off + i) (src i)) dst =
      blit dst off src count := by
  induction count with
  | zero => exact blit_zero_len.symm
  | succ count ih =>
    rw [List.range_succ, List.foldl_append, ih, List.foldl_cons, List.foldl_nil]
    funext i
    rcases Nat.lt_trichotomy i (off + count) with before | rfl | after
    · rw [Function.update_of_ne (Nat.ne_of_lt before)]
      by_cases start : off ≤ i
      · rw [blit_inside start before, blit_inside start (by omega)]
      · rw [blit_outside (by omega), blit_outside (by omega)]
    · rw [Function.update_self, blit_inside (by omega) (by omega), Nat.add_sub_cancel_left]
    · rw [Function.update_of_ne (Nat.ne_of_gt after), blit_outside (by omega),
        blit_outside (by omega)]

end ByteStore
