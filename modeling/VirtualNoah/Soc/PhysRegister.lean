import VirtualNoah.Lib.Outcome
import VirtualNoah.Lib.StepRun
import VirtualNoah.Soc.PhysPages

/-!
# Registering one page

What the loop body of `cpu_register_physical_memory_offset` does to the page it is at, for
the zones of devices and for RAM: the page is RAM, it goes to one zone, or it goes to a zone
of its own that keeps an entry for each byte.  Every other page is left as it was.
-/

namespace VirtualNoah

open Outcome PhysMap StepRun

variable {φ ω : Type}

/-! ## Zones without subpages -/

/-- Every callback of the zone is that of a device, or every one is unassigned. -/
structure Leaf (s : PhysMap φ ω) (z : Nat) : Prop where
  started : 1 < z
  registered : z < s.ioMemNb
  inside : z < ioMemNbEntries
  ends : (∀ dir i, i < 3 → (s.ioMem z).mem dir i = some .unassigned) ∨
    ∀ dir i, i < 3 → ∃ f, (s.ioMem z).mem dir i = some (.device f)

/-- What the callback of a leaf does. -/
def leafTarget (s : PhysMap φ ω) (z : Nat) (dir : Dir) (len addr : Nat) : IoTarget φ ω :=
  s.zoneCall 0 z dir len addr

section Zones

variable {s t : PhysMap φ ω} {z fuel len addr : Nat} {dir : Dir}

theorem Leaf.zoneCall_eq (leaf : Leaf s z) (width : len < 3) :
    s.zoneCall fuel z dir len addr = leafTarget s z dir len addr := by
  rcases leaf.ends with none | device
  · simp only [leafTarget, zoneCall, none dir len width]
    cases fuel <;> rfl
  · obtain ⟨f, slot⟩ := device dir len width
    simp only [leafTarget, zoneCall, slot]
    cases fuel <;> rfl

/-- The widths of a full zone are all that is looked at. -/
theorem Leaf.of_same (leaf : Leaf s z) (same : t.ioMem z = s.ioMem z)
    (more : s.ioMemNb ≤ t.ioMemNb) : Leaf t z where
  started := leaf.started
  registered := Nat.lt_of_lt_of_le leaf.registered more
  inside := leaf.inside
  ends := by
    rw [same]
    exact leaf.ends

theorem leafTarget_of_same (same : t.ioMem z = s.ioMem z) :
    leafTarget t z dir len addr = leafTarget s z dir len addr := by
  simp only [leafTarget, zoneCall, same]
  cases (s.ioMem z).mem dir len with
  | none => rfl
  | some f => cases f <;> rfl

/-- A new zone with all its callbacks. -/
theorem cpuRegisterIoMemory_new {mem : Dir → Nat → Option (IoFunc φ)} {ptr : IoPtr ω}
    (room : s.ioMemNb < ioMemNbEntries) (whole : ∀ dir i, i < 3 → (mem dir i).isSome) :
    ∃ zone : IoZone φ ω, (∀ dir i, i < 3 → zone.mem dir i = mem dir i) ∧ zone.opaquePtr = ptr ∧
      s.cpuRegisterIoMemory 0 mem ptr = ({ s with
        ioMem := Function.update s.ioMem s.ioMemNb zone, ioMemNb := s.ioMemNb + 1 },
        8 * s.ioMemNb) := by
  have subwidth : (List.range 3).all (fun i => (mem .read i).isSome && (mem .write i).isSome) =
      true := by
    refine List.all_eq_true.mpr fun i inside => ?_
    rw [List.mem_range] at inside
    rw [whole .read i inside, whole .write i inside]
    rfl
  have number : s.ioMemNb <<< 3 ||| 0 = 8 * s.ioMemNb := by
    rw [Nat.or_zero, Nat.shiftLeft_eq, Nat.mul_comm]
  refine ⟨⟨fun dir i => if i < 3 then mem dir i else (s.ioMem s.ioMemNb).mem dir i, ptr⟩,
    fun dir i inside => if_pos inside, rfl, ?_⟩
  simp only [cpuRegisterIoMemory, if_true, if_neg (Nat.not_le_of_lt room), subwidth, number]

end Zones

/-! ## Pages -/

/-- `t` is `s` with more zones, and with another page `n`. -/
structure OnlyPage (s t : PhysMap φ ω) (n : Nat) : Prop where
  page : ∀ m, m < 2 ^ 20 → m ≠ n → t.assigned m = s.assigned m
  zones : ∀ z, z < s.ioMemNb → t.ioMem z = s.ioMem z
  more : s.ioMemNb ≤ t.ioMemNb
  subpages : ∀ id, id < s.subpageNb → (s.subpages id).base ≠ n * targetPageSize →
    t.subpages id = s.subpages id
  moreSubpages : s.subpageNb ≤ t.subpageNb

/-- Page `n` passes on to the zones of subpage `id`. -/
structure SubpageAt (s : PhysMap φ ω) (n id z regionOffset : Nat) : Prop where
  page : s.physPageFind n = some ⟨8 * z ||| ioMemSubpage, regionOffset⟩
  started : 0 < z
  registered : z < s.ioMemNb
  inside : z < ioMemNbEntries
  mem : ∀ dir i, i < 3 → (s.ioMem z).mem dir i = some (.subpage i)
  ptr : (s.ioMem z).opaquePtr = .subpage id
  allocated : id < s.subpageNb
  base : (s.subpages id).base = n * targetPageSize
  entries : ∀ idx dir i, idx < targetPageSize → i < 3 →
    ∃ e, (s.subpages id).entry idx dir i = some e ∧ Leaf s e.memory ∧
      e.opaquePtr = (s.ioMem e.memory).opaquePtr

/-- What a page can be in a map that keeps to leaves. -/
inductive PageKind where
  | empty
  | ram
  | zone
  | subpage
  deriving DecidableEq

def PageKind.At (s : PhysMap φ ω) (n : Nat) : PageKind → Prop
  | .empty => s.assigned n = none
  | .ram => ∃ p, s.assigned n = some p ∧ p.physOffset % targetPageSize = 0
  | .zone => ∃ z regionOffset, s.assigned n = some ⟨8 * z, regionOffset⟩ ∧ Leaf s z
  | .subpage => ∃ id z, SubpageAt s n id z 0

section Pages

variable {s t u : PhysMap φ ω} {n m id z regionOffset fuel len addr : Nat} {dir : Dir}
  {p : PhysPageDesc}

theorem OnlyPage.refl (s : PhysMap φ ω) (n : Nat) : OnlyPage s s n :=
  ⟨fun _ _ _ => rfl, fun _ _ => rfl, Nat.le_refl _, fun _ _ _ => rfl, Nat.le_refl _⟩

theorem OnlyPage.trans (first : OnlyPage s t n) (second : OnlyPage t u n) : OnlyPage s u n where
  page := fun m small other => (second.page m small other).trans (first.page m small other)
  zones := fun z registered => (second.zones z (Nat.lt_of_lt_of_le registered first.more)).trans
    (first.zones z registered)
  more := Nat.le_trans first.more second.more
  subpages := fun id allocated other => by
    have same := first.subpages id allocated other
    rw [← same] at other
    exact (second.subpages id (Nat.lt_of_lt_of_le allocated first.moreSubpages) other).trans same
  moreSubpages := Nat.le_trans first.moreSubpages second.moreSubpages

theorem Leaf.of_onlyPage (leaf : Leaf s z) (only : OnlyPage s t n) : Leaf t z :=
  leaf.of_same (only.zones z leaf.registered) only.more

/-- The number of a shared page's zone. -/
theorem subpage_flags (z : Nat) : 8 * z ||| ioMemSubpage = 8 * z + 2 := by
  have shifted : 8 * z = z <<< 3 := by rw [Nat.shiftLeft_eq, Nat.mul_comm]
  rw [shifted]
  exact (Nat.shiftLeft_add_eq_or_of_lt (by decide) z).symm

/-- In a zone's page, an access goes to the callbacks at its `phys_offset`. -/
theorem physTarget_io (found : s.physPageFind (addr / targetPageSize) = some p)
    (io : physRom < p.physOffset % targetPageSize) (device : p.physOffset &&& ioMemRomd = 0) :
    s.physTarget fuel dir len addr =
      s.zoneCall fuel ((p.physOffset >>> 3) % ioMemNbEntries) dir len
        (addr % targetPageSize + p.regionOffset) := by
  have nonzero : p.physOffset % targetPageSize ≠ 0 := Nat.ne_of_gt (Nat.zero_lt_of_lt io)
  rw [physTarget, found]
  cases dir with
  | read => exact if_pos (decide_eq_true ⟨io, device⟩)
  | write => exact if_pos (decide_eq_true nonzero)

theorem physTarget_empty (empty : s.assigned (addr / targetPageSize) = none)
    (unassigned : ∀ dir i, i < 3 → (s.ioMem 2).mem dir i = some .unassigned)
    (width : len < 3) : s.physTarget fuel dir len addr = .unassigned := by
  have calls : ∀ addr, s.zoneCall fuel 2 dir len addr = .unassigned := fun addr => by
    simp only [zoneCall, unassigned dir len width]
    cases fuel <;> rfl
  cases found : s.physPageFind (addr / targetPageSize) with
  | none =>
    rw [physTarget, found]
    exact calls addr
  | some p =>
    have offset : p.physOffset = physUnassigned := by
      by_contra mapped
      rw [assigned, found] at empty
      have kept : none = some p :=
        empty.symm.trans (Option.filter_some_pos (decide_eq_true mapped))
      exact Option.some_ne_none p kept.symm
    rw [physTarget_io found (by rw [offset]; decide) (by rw [offset]; decide), offset]
    exact calls _

theorem physTarget_ram (found : s.assigned (addr / targetPageSize) = some p)
    (aligned : p.physOffset % targetPageSize = 0) :
    s.physTarget fuel dir len addr = .ram (p.physOffset + addr % targetPageSize) := by
  rw [physTarget, find_of_assigned found]
  have page : p.physOffset / targetPageSize * targetPageSize = p.physOffset :=
    Nat.div_mul_cancel (Nat.dvd_of_mod_eq_zero aligned)
  cases dir with
  | read =>
    refine (if_neg fun io => ?_).trans (congrArg (fun x => IoTarget.ram (x + _)) page)
    have rom := (of_decide_eq_true io).1
    rw [aligned] at rom
    exact absurd rom (by decide)
  | write =>
    refine (if_neg fun io => ?_).trans (congrArg (fun x => IoTarget.ram (x + _)) page)
    exact of_decide_eq_true io aligned

theorem physTarget_zone (found : s.assigned (addr / targetPageSize) = some ⟨8 * z, regionOffset⟩)
    (leaf : Leaf s z) (width : len < 3) : s.physTarget fuel dir len addr =
      leafTarget s z dir len (addr % targetPageSize + regionOffset) := by
  have mapped : 8 * z ≠ physUnassigned :=
    of_decide_eq_true (Option.filter_eq_some_iff.mp found).2
  have started := leaf.started
  have inside := leaf.inside
  simp only [physUnassigned, ioMemNbEntries] at mapped inside
  have low : 8 * z % targetPageSize = 8 * z := Nat.mod_eq_of_lt (by rw [targetPageSize]; omega)
  have number : (8 * z) >>> 3 = z := by
    rw [Nat.shiftRight_eq_div_pow]
    omega
  have device : 8 * z &&& ioMemRomd = 0 := by
    rw [ioMemRomd, Nat.and_one_is_mod]
    omega
  rw [physTarget_io (find_of_assigned found) (by dsimp only; rw [low, physRom]; omega) device]
  dsimp only
  rw [number, Nat.mod_eq_of_lt leaf.inside, leaf.zoneCall_eq width]

theorem physTarget_subpage {e : SubpageEntry ω}
    (shared : SubpageAt s (addr / targetPageSize) id z 0)
    (entry : (s.subpages id).entry (addr % targetPageSize) dir len = some e)
    (leaf : Leaf s e.memory) (ptr : e.opaquePtr = (s.ioMem e.memory).opaquePtr) (width : len < 3) :
    s.physTarget (fuel + 1) dir len addr =
      leafTarget s e.memory dir len (addr % targetPageSize + e.regionOffset) := by
  have started := shared.started
  have inside := shared.inside
  simp only [ioMemNbEntries] at inside
  have low : (8 * z + 2) % targetPageSize = 8 * z + 2 :=
    Nat.mod_eq_of_lt (by rw [targetPageSize]; omega)
  have number : (8 * z + 2) >>> 3 = z := by
    rw [Nat.shiftRight_eq_div_pow]
    omega
  have device : 8 * z + 2 &&& ioMemRomd = 0 := by
    rw [ioMemRomd, Nat.and_one_is_mod]
    omega
  have page := shared.page
  rw [subpage_flags] at page
  rw [physTarget_io page (by dsimp only; rw [low, physRom]; omega) device]
  dsimp only
  rw [number, Nat.mod_eq_of_lt shared.inside]
  simp only [zoneCall, shared.mem dir len width, shared.ptr, ioCall, Nat.add_zero, Nat.mod_mod,
    entry]
  rw [← leaf.zoneCall_eq width, zoneCall, ptr]

theorem subpage_mapped (z : Nat) : 8 * z ||| ioMemSubpage ≠ physUnassigned := by
  rw [subpage_flags, physUnassigned]
  omega

theorem SubpageAt.assigned (shared : SubpageAt s n id z regionOffset) :
    s.assigned n = some ⟨8 * z ||| ioMemSubpage, regionOffset⟩ := by
  rw [PhysMap.assigned, shared.page]
  exact Option.filter_some_pos (decide_eq_true (subpage_mapped z))

theorem SubpageAt.base_ne (shared : SubpageAt s m id z regionOffset) (other : m ≠ n) :
    (s.subpages id).base ≠ n * targetPageSize := fun same =>
  other (Nat.eq_of_mul_eq_mul_right (show 0 < targetPageSize by decide)
    (shared.base.symm.trans same))

theorem SubpageAt.of_onlyPage (shared : SubpageAt s m id z regionOffset)
    (only : OnlyPage s t n) (small : m < 2 ^ 20) (other : m ≠ n) :
    SubpageAt t m id z regionOffset where
  page := find_of_assigned ((only.page m small other).trans shared.assigned)
  started := shared.started
  registered := Nat.lt_of_lt_of_le shared.registered only.more
  inside := shared.inside
  mem := by
    rw [only.zones z shared.registered]
    exact shared.mem
  ptr := by
    rw [only.zones z shared.registered]
    exact shared.ptr
  allocated := Nat.lt_of_lt_of_le shared.allocated only.moreSubpages
  base := by
    rw [only.subpages id shared.allocated (shared.base_ne other)]
    exact shared.base
  entries := fun idx dir i inside width => by
    rw [only.subpages id shared.allocated (shared.base_ne other)]
    obtain ⟨e, entry, leaf, ptr⟩ := shared.entries idx dir i inside width
    refine ⟨e, entry, leaf.of_onlyPage only, ?_⟩
    rw [only.zones e.memory leaf.registered]
    exact ptr

/-- Another page is what it was. -/
theorem PageKind.At.of_onlyPage {kind : PageKind} (before : kind.At s m) (only : OnlyPage s t n)
    (small : m < 2 ^ 20) (other : m ≠ n) : kind.At t m := by
  have same := only.page m small other
  cases kind with
  | empty => exact same.trans before
  | ram =>
    obtain ⟨p, found, aligned⟩ := before
    exact ⟨p, same.trans found, aligned⟩
  | zone =>
    obtain ⟨z, regionOffset, found, leaf⟩ := before
    exact ⟨z, regionOffset, same.trans found, leaf.of_onlyPage only⟩
  | subpage =>
    obtain ⟨id, z, shared⟩ := before
    exact ⟨id, z, shared.of_onlyPage only small other⟩

/-- An access to another page ends where it did. -/
theorem physTarget_onlyPage {kind : PageKind} (before : kind.At s (addr / targetPageSize))
    (only : OnlyPage s t n) (small : addr / targetPageSize < 2 ^ 20)
    (other : addr / targetPageSize ≠ n) (unassigned : Leaf s 2)
    (none : ∀ dir i, i < 3 → (s.ioMem 2).mem dir i = some .unassigned) (width : len < 3) :
    t.physTarget (fuel + 1) dir len addr = s.physTarget (fuel + 1) dir len addr := by
  have same := only.page _ small other
  cases kind with
  | empty =>
    have none' : ∀ dir i, i < 3 → (t.ioMem 2).mem dir i = some .unassigned := by
      rw [only.zones 2 unassigned.registered]
      exact none
    rw [physTarget_empty before none width, physTarget_empty (same.trans before) none' width]
  | ram =>
    obtain ⟨p, found, aligned⟩ := before
    rw [physTarget_ram found aligned, physTarget_ram (same.trans found) aligned]
  | zone =>
    obtain ⟨z, regionOffset, found, leaf⟩ := before
    rw [physTarget_zone found leaf width,
      physTarget_zone (same.trans found) (leaf.of_onlyPage only) width,
      leafTarget_of_same (only.zones z leaf.registered)]
  | subpage =>
    obtain ⟨id, z, shared⟩ := before
    obtain ⟨e, entry, leaf, ptr⟩ := shared.entries (addr % targetPageSize) dir len
      (Nat.mod_lt _ (by decide)) width
    have own := only.subpages id shared.allocated (shared.base_ne other)
    have zone := only.zones e.memory leaf.registered
    rw [physTarget_subpage shared entry leaf ptr width,
      physTarget_subpage (shared.of_onlyPage only small other) (own ▸ entry)
        (leaf.of_onlyPage only) (zone ▸ ptr) width, leafTarget_of_same zone]

/-! ## One page -/

/-- What `subpage_register` stores for a zone. -/
def zoneEntry (s : PhysMap φ ω) (z regionOffset : Nat) : SubpageEntry ω :=
  ⟨z, (s.ioMem z).opaquePtr, regionOffset⟩

theorem Leaf.isSome_mem {i : Nat} (leaf : Leaf s z) (dir : Dir) (inside : i < 3) :
    ((s.ioMem z).mem dir i).isSome := by
  rcases leaf.ends with none | device
  · rw [none dir i inside]
    rfl
  · obtain ⟨f, slot⟩ := device dir i inside
    rw [slot]
    rfl

/-- A zone of which nothing is missing goes into every entry from `start` to `stop`. -/
theorem subpageRegister_ok {start stop : Nat} (first : start < targetPageSize)
    (last : stop < targetPageSize) (leaf : Leaf s z) :
    ∃ entry, s.subpageRegister id start stop (8 * z) regionOffset =
        .ok { s with
          subpages := Function.update s.subpages id { s.subpages id with entry := entry } } ∧
      ∀ idx dir i, i < 3 → entry idx dir i =
        if start ≤ idx ∧ idx ≤ stop then some (zoneEntry s z regionOffset)
        else (s.subpages id).entry idx dir i := by
  have number : (8 * z) >>> 3 = z := by
    rw [Nat.shiftRight_eq_div_pow]
    omega
  refine ⟨fun idx dir i =>
    if start ≤ idx ∧ idx ≤ stop ∧ i < 4 ∧ ((s.ioMem z).mem dir i).isSome then
      some (zoneEntry s z regionOffset)
    else (s.subpages id).entry idx dir i, ?_, fun idx dir i inside => ?_⟩
  · rw [subpageRegister, if_neg (by omega)]
    dsimp only
    rw [number, if_neg (Nat.not_le_of_lt leaf.inside)]
    rfl
  · simp only [leaf.isSome_mem dir inside, Nat.lt_succ_of_lt inside, and_true]

/-- The zone that takes the place of what the page was passes everything on to it. -/
theorem subpageInit_ok (found : s.physPageFind n = some p) (small : n < 2 ^ 20)
    (room : s.ioMemNb < ioMemNbEntries) (leaf : Leaf s z) (regionOffset : Nat) :
    ∃ t, s.subpageInit n (8 * z) regionOffset = .ok (t, s.subpageNb) ∧
      SubpageAt t n s.subpageNb s.ioMemNb p.regionOffset ∧ OnlyPage s t n ∧
      t.ioMemNb = s.ioMemNb + 1 ∧ ∀ idx dir i, idx < targetPageSize → i < 3 →
        (t.subpages s.subpageNb).entry idx dir i = some (zoneEntry s z regionOffset) := by
  let blank : Subpage ω := ⟨n * targetPageSize, fun _ _ _ => none⟩
  let s₁ : PhysMap φ ω := { s with
    subpages := Function.update s.subpages s.subpageNb blank, subpageNb := s.subpageNb + 1 }
  obtain ⟨zone, mem, ptr, registered⟩ := @cpuRegisterIoMemory_new _ _ s₁ subpageFn
    (.subpage s.subpageNb) room (fun _ i inside => by rw [subpageFn, if_pos inside]; rfl)
  let s₂ : PhysMap φ ω := { s₁ with
    ioMem := Function.update s.ioMem s.ioMemNb zone, ioMemNb := s.ioMemNb + 1 }
  let s₃ := s₂.setPage n { p with physOffset := 8 * s.ioMemNb ||| ioMemSubpage }
  have old : s₃.ioMem z = s.ioMem z := Function.update_of_ne (Nat.ne_of_lt leaf.registered) _ _
  have leaf' : Leaf s₃ z := leaf.of_same old (Nat.le_succ _)
  obtain ⟨entry, done, entries⟩ := @subpageRegister_ok _ _ s₃ s.subpageNb z regionOffset 0
    (targetPageSize - 1) (by decide) (by decide) leaf'
  let t : PhysMap φ ω := { s₃ with
    subpages := Function.update s₃.subpages s.subpageNb
      { s₃.subpages s.subpageNb with entry := entry } }
  have own : t.subpages s.subpageNb = ⟨n * targetPageSize, entry⟩ := by
    have stored : s₃.subpages s.subpageNb = blank := by
      change Function.update s.subpages s.subpageNb blank s.subpageNb = blank
      exact Function.update_self ..
    refine (Function.update_self _ _ _).trans ?_
    rw [stored]
  have filled : ∀ idx dir i, idx < targetPageSize → i < 3 →
      entry idx dir i = some (zoneEntry s z regionOffset) := fun idx dir i inside width => by
    rw [entries idx dir i width, if_pos ⟨Nat.zero_le idx, Nat.le_sub_one_of_lt inside⟩, zoneEntry,
      zoneEntry, old]
  have new : t.ioMem s.ioMemNb = zone := Function.update_self _ _ _
  refine ⟨t, ?_, ?_, ?_, rfl, fun idx dir i inside width => ?_⟩
  · have page : (s₂.physPageFind n).getD ⟨physUnassigned, 0⟩ = p := by
      rw [show s₂.physPageFind n = some p from found]
      rfl
    rw [subpageInit]
    dsimp only
    rw [registered]
    dsimp only
    rw [page, bind_ok done]
  · constructor
    case page => exact physPageFind_setPage (s := s₂) (Option.isSome_of_eq_some found)
    case started => exact Nat.zero_lt_of_lt leaf.registered
    case registered => exact Nat.lt_succ_self _
    case inside => exact room
    case mem =>
      intro dir i inside
      rw [new, mem dir i inside, subpageFn, if_pos inside]
    case ptr => rw [new, ptr]
    case allocated => exact Nat.lt_succ_self _
    case base => rw [own]
    case entries =>
      intro idx dir i inside width
      rw [own]
      refine ⟨_, filled idx dir i inside width, leaf'.of_same rfl (Nat.le_refl _), ?_⟩
      exact congrArg IoZone.opaquePtr old.symm
  · constructor
    case page =>
      intro m small' other
      exact assigned_setPage_ne (s := s₂) small' small other
    case zones =>
      intro z' registered'
      exact Function.update_of_ne (Nat.ne_of_lt registered') _ _
    case more => exact Nat.le_succ _
    case subpages =>
      intro id allocated _
      have older := Nat.ne_of_lt allocated
      exact (Function.update_of_ne older _ _).trans (Function.update_of_ne older _ _)
    case moreSubpages => exact Nat.le_succ _
  · rw [own]
    exact filled idx dir i inside width

/-- A part of a shared page goes to another zone, and the page's own offset is cleared. -/
theorem subpageRegister_into {start stop z' : Nat} (shared : SubpageAt s n id z regionOffset)
    (small : n < 2 ^ 20) (leaf : Leaf s z') (first : start < targetPageSize)
    (last : stop < targetPageSize) (offset physOffset : Nat) (pd : PhysPageDesc) :
    ∃ t, (do
          let s ← s.subpageRegister id start stop (8 * z') offset
          let pd := (s.physPageFind n).getD pd
          .ok (s.setPage n { pd with regionOffset := 0 }, physOffset)) = .ok (t, physOffset) ∧
      SubpageAt t n id z 0 ∧ OnlyPage s t n ∧ t.ioMemNb = s.ioMemNb ∧
      ∀ idx dir i, i < 3 → (t.subpages id).entry idx dir i =
        if start ≤ idx ∧ idx ≤ stop then some (zoneEntry s z' offset)
        else (s.subpages id).entry idx dir i := by
  obtain ⟨entry, done, entries⟩ :=
    @subpageRegister_ok _ _ s id z' offset start stop first last leaf
  let new : Subpage ω := { s.subpages id with entry := entry }
  let s₁ : PhysMap φ ω := { s with subpages := Function.update s.subpages id new }
  let t := s₁.setPage n ⟨8 * z ||| ioMemSubpage, 0⟩
  have own : t.subpages id = new := by
    change Function.update s.subpages id new id = new
    exact Function.update_self ..
  refine ⟨t, ?_, ?_, ?_, rfl, fun idx dir i width => ?_⟩
  · have page : (s₁.physPageFind n).getD pd = ⟨8 * z ||| ioMemSubpage, regionOffset⟩ := by
      rw [show s₁.physPageFind n = _ from shared.page]
      rfl
    rw [bind_ok done]
    dsimp only
    rw [page]
  · constructor
    case page => exact physPageFind_setPage (s := s₁) (Option.isSome_of_eq_some shared.page)
    case started => exact shared.started
    case registered => exact shared.registered
    case inside => exact shared.inside
    case mem => exact shared.mem
    case ptr => exact shared.ptr
    case allocated => exact shared.allocated
    case base =>
      rw [own]
      exact shared.base
    case entries =>
      intro idx dir i inside width
      rw [own]
      simp only [new, entries idx dir i width]
      split
      · exact ⟨_, rfl, leaf.of_same rfl (Nat.le_refl _), rfl⟩
      · obtain ⟨e, old, leaf', ptr⟩ := shared.entries idx dir i inside width
        exact ⟨e, old, leaf'.of_same rfl (Nat.le_refl _), ptr⟩
  · constructor
    case page =>
      intro m small' other
      exact assigned_setPage_ne (s := s₁) small' small other
    case zones => exact fun _ _ => rfl
    case more => exact Nat.le_refl _
    case subpages =>
      intro id' _ other
      have older : id' ≠ id := fun same => other (by rw [same]; exact shared.base)
      exact Function.update_of_ne older _ _
    case moreSubpages => exact Nat.le_refl _
  · rw [own]
    exact entries idx dir i width

/-- The entries of the subpage in `t` do what the page does in `s`. -/
def PassesOn (s t : PhysMap φ ω) (n id : Nat) : Prop :=
  ∀ fuel dir len addr, len < 3 → addr / targetPageSize = n →
    ∃ e, (t.subpages id).entry (addr % targetPageSize) dir len = some e ∧ Leaf s e.memory ∧
      s.physTarget (fuel + 1) dir len addr =
        leafTarget s e.memory dir len (addr % targetPageSize + e.regionOffset)

/-- What is left after a part of page `n` has gone to zone `z`. -/
structure PartAt (s t : PhysMap φ ω) (n z start stop offset : Nat) : Prop where
  kind : PageKind.subpage.At t n
  only : OnlyPage s t n
  more : t.ioMemNb ≤ s.ioMemNb + 1
  target : ∀ fuel dir len addr, len < 3 → addr / targetPageSize = n →
    t.physTarget (fuel + 1) dir len addr =
      if start ≤ addr % targetPageSize ∧ addr % targetPageSize ≤ stop then
        leafTarget s z dir len (addr % targetPageSize + offset)
      else s.physTarget (fuel + 1) dir len addr

theorem partAt_of_shared {start stop z' : Nat} (shared : SubpageAt t n id z' regionOffset)
    (only : OnlyPage s t n) (passes : PassesOn s t n id) (more : t.ioMemNb ≤ s.ioMemNb + 1)
    (small : n < 2 ^ 20) (leaf : Leaf s z) (first : start < targetPageSize)
    (last : stop < targetPageSize) (offset physOffset : Nat) (pd : PhysPageDesc) :
    ∃ u, (do
          let s ← t.subpageRegister id start stop (8 * z) offset
          let pd := (s.physPageFind n).getD pd
          .ok (s.setPage n { pd with regionOffset := 0 }, physOffset)) = .ok (u, physOffset) ∧
      PartAt s u n z start stop offset := by
  obtain ⟨u, done, shared', only', same, entries⟩ := subpageRegister_into shared small
    (leaf.of_onlyPage only) first last offset physOffset pd
  have whole := only.trans only'
  refine ⟨u, done, ⟨id, z', shared'⟩, whole, same ▸ more, fun fuel dir len addr width page => ?_⟩
  subst page
  have inside : addr % targetPageSize < targetPageSize := Nat.mod_lt _ (by decide)
  obtain ⟨e, entry, leaf', ptr⟩ := shared'.entries _ dir len inside width
  rw [physTarget_subpage shared' entry leaf' ptr width]
  rw [entries _ dir len width] at entry
  split at entry
  next part =>
    cases entry
    rw [if_pos part]
    exact leafTarget_of_same (whole.zones z leaf.registered)
  next rest =>
    obtain ⟨e', old, leaf'', target⟩ := passes fuel dir len addr width rfl
    cases old.symm.trans entry
    rw [if_neg rest, target]
    exact leafTarget_of_same (whole.zones _ leaf''.registered)

theorem leafTarget_unassigned
    (none : ∀ dir i, i < 3 → (s.ioMem 2).mem dir i = some .unassigned) (width : len < 3) :
    leafTarget s 2 dir len addr = .unassigned := by
  simp only [leafTarget, zoneCall, none dir len width, ioCall]

theorem ioMemNb_physPageFindAlloc {stale : Nat → Nat → Nat} :
    (s.physPageFindAlloc stale n).ioMemNb = s.ioMemNb := by
  rw [physPageFindAlloc]
  split <;> rfl

/-- A descriptor that has been allocated and written. -/
theorem onlyPage_alloc (stale : Nat → Nat → Nat) (small : n < 2 ^ 20) (pd : PhysPageDesc) :
    OnlyPage s ((s.physPageFindAlloc stale n).setPage n pd) n := by
  have rest : (s.physPageFindAlloc stale n).ioMem = s.ioMem ∧
      (s.physPageFindAlloc stale n).subpages = s.subpages ∧
      (s.physPageFindAlloc stale n).subpageNb = s.subpageNb := by
    rw [physPageFindAlloc]
    split <;> exact ⟨rfl, rfl, rfl⟩
  obtain ⟨zones, subpages, subpageNb⟩ := rest
  constructor
  case page =>
    intro m small' other
    rw [assigned_setPage_ne small' small other, assigned_physPageFindAlloc]
  case zones => exact fun z _ => congrFun zones z
  case more => exact Nat.le_of_eq ioMemNb_physPageFindAlloc.symm
  case subpages => exact fun id _ _ => congrFun subpages id
  case moreSubpages => exact Nat.le_of_eq subpageNb.symm

/-- No flag is in a zone's number. -/
theorem and_flag (z flag : Nat) (low : 7 &&& flag = flag) : 8 * z &&& flag = 0 := by
  have zero : 8 * z &&& 7 = 0 := by
    rw [show 7 = 2 ^ 3 - 1 by decide, Nat.and_two_pow_sub_one_eq_mod]
    exact Nat.mul_mod_right 8 z
  rw [← low, ← Nat.and_assoc, zero, Nat.zero_and]

theorem registerPage_part {start size start2 stop2 : Nat} {kind : PageKind}
    (stale : Nat → Nat → Nat) (offset : Nat) (index : addr / targetPageSize = n)
    (checked : checkSubpage addr start size = (start2, stop2, true))
    (first : start2 < targetPageSize) (last : stop2 < targetPageSize) (small : n < 2 ^ 20)
    (before : kind.At s n) (other : kind ≠ .ram) (leaf : Leaf s z) (unassigned : Leaf s 2)
    (none : ∀ dir i, i < 3 → (s.ioMem 2).mem dir i = some .unassigned)
    (room : s.ioMemNb < ioMemNbEntries) :
    ∃ t, s.registerPage stale start size addr (8 * z) offset = .ok (t, 8 * z) ∧
      PartAt s t n z start2 stop2 offset := by
  cases kind with
  | empty =>
    let s₁ := (s.physPageFindAlloc stale n).setPage n ⟨8 * z, offset⟩
    have only₁ : OnlyPage s s₁ n := onlyPage_alloc stale small _
    have found : s₁.physPageFind n = some ⟨8 * z, offset⟩ :=
      physPageFind_setPage isSome_physPageFindAlloc
    have same : s₁.ioMemNb = s.ioMemNb := ioMemNb_physPageFindAlloc
    obtain ⟨m, init, shared, only, nb, entries⟩ :=
      subpageInit_ok found small (same ▸ room) (unassigned.of_onlyPage only₁) 0
    have passes : PassesOn s m n s₁.subpageNb := fun fuel dir len a width page =>
      ⟨_, entries _ dir len (Nat.mod_lt _ (by decide)) width, unassigned,
        (physTarget_empty (page ▸ before) none width).trans
          (leafTarget_unassigned none width).symm⟩
    obtain ⟨t, done, part⟩ := partAt_of_shared shared (only₁.trans only) passes
      (Nat.le_of_eq (nb.trans (congrArg (· + 1) same))) small leaf first last offset (8 * z)
      ⟨8 * z, offset⟩
    refine ⟨t, ?_, part⟩
    have started := leaf.started
    have inside := leaf.inside
    simp only [ioMemNbEntries] at inside
    have io : ¬ (8 * z % targetPageSize ≤ physRom ∨ 8 * z &&& ioMemRomd ≠ 0) := by
      rw [and_flag z _ (by decide), targetPageSize, physRom]
      omega
    have empty : s.assigned n = Option.none := before
    simp only [registerPage, checked, index, empty, if_neg io, true_or, if_true]
    exact (bind_ok init).trans done
  | ram => exact absurd rfl other
  | zone =>
    obtain ⟨z₀, r, found, leaf₀⟩ := before
    obtain ⟨m, init, shared, only, nb, entries⟩ :=
      subpageInit_ok (find_of_assigned found) small room leaf₀ r
    have passes : PassesOn s m n s.subpageNb := fun fuel dir len a width page =>
      ⟨_, entries _ dir len (Nat.mod_lt _ (by decide)) width, leaf₀,
        physTarget_zone (page ▸ found) leaf₀ width⟩
    obtain ⟨t, done, part⟩ := partAt_of_shared shared only passes (Nat.le_of_eq nb) small leaf
      first last offset (8 * z) ⟨8 * z₀, r⟩
    refine ⟨t, ?_, part⟩
    simp only [registerPage, checked, index, found, and_flag z₀ ioMemSubpage (by decide),
      true_or, if_true, bind_ok init]
    exact done
  | subpage =>
    obtain ⟨id, z', shared⟩ := before
    have passes : PassesOn s s n id := by
      intro fuel dir len a width page
      subst page
      obtain ⟨e, entry, leaf', ptr⟩ := shared.entries (a % targetPageSize) dir len
        (Nat.mod_lt _ (by decide)) width
      exact ⟨e, entry, leaf', physTarget_subpage shared entry leaf' ptr width⟩
    obtain ⟨t, done, part⟩ := partAt_of_shared shared (OnlyPage.refl s _) passes (Nat.le_succ _)
      small leaf first last offset (8 * z) ⟨8 * z' ||| ioMemSubpage, 0⟩
    refine ⟨t, ?_, part⟩
    have inside := shared.inside
    simp only [ioMemNbEntries] at inside
    have flag : ¬ (8 * z' ||| ioMemSubpage) &&& ioMemSubpage = 0 := by
      rw [Nat.and_or_distrib_right, and_flag z' _ (by decide), Nat.zero_or, Nat.and_self]
      decide
    have number : ((8 * z' ||| ioMemSubpage) % targetPageSize) >>> 3 = z' := by
      rw [subpage_flags, targetPageSize, Nat.shiftRight_eq_div_pow]
      omega
    simp only [registerPage, checked, index, shared.assigned, true_or, if_true, if_neg flag, number,
      shared.ptr]
    exact done

/-- What is left after all of page `n` has gone to `target`. -/
structure WholeAt (s t : PhysMap φ ω) (n : Nat) (kind : PageKind)
    (target : Dir → Nat → Nat → IoTarget φ ω) : Prop where
  kind : kind.At t n
  only : OnlyPage s t n
  same : t.ioMemNb = s.ioMemNb
  target : ∀ fuel dir len addr, len < 3 → addr / targetPageSize = n →
    t.physTarget fuel dir len addr = target dir len (addr % targetPageSize)

section Whole

variable {start size physOffset offset : Nat} (stale : Nat → Nat → Nat)
  (index : addr / targetPageSize = n)
  (checked : checkSubpage addr start size = (0, targetPageSize - 1, false)) (small : n < 2 ^ 20)
  (before : PageKind.empty.At s n)

include index checked small before

/-- A page that goes to one zone. -/
theorem registerPage_zone (leaf : Leaf s z) (device : 2 < z) (offset : Nat) :
    ∃ t, s.registerPage stale start size addr (8 * z) offset = .ok (t, 8 * z) ∧
      WholeAt s t n .zone fun dir len at_ => leafTarget s z dir len (at_ + offset) := by
  let t := (s.physPageFindAlloc stale n).setPage n ⟨8 * z, offset⟩
  have only : OnlyPage s t n := onlyPage_alloc stale small _
  have mapped : 8 * z ≠ physUnassigned := by
    rw [physUnassigned]
    omega
  have found : t.assigned n = some ⟨8 * z, offset⟩ :=
    assigned_setPage isSome_physPageFindAlloc mapped
  have leaf' := leaf.of_onlyPage only
  refine ⟨t, ?_, ⟨z, offset, found, leaf'⟩, only, ioMemNb_physPageFindAlloc,
    fun fuel dir len addr width page => ?_⟩
  · have inside := leaf.inside
    simp only [ioMemNbEntries] at inside
    have io : ¬ (8 * z % targetPageSize ≤ physRom ∨ 8 * z &&& ioMemRomd ≠ 0) := by
      rw [and_flag z _ (by decide), targetPageSize, physRom]
      omega
    have full : ¬ (false = true ∨ 8 * z &&& ioMemSubwidth ≠ 0) := by
      rw [and_flag z _ (by decide)]
      decide
    have empty : s.assigned n = none := before
    simp only [registerPage, checked, index, empty, if_neg io, if_neg full]
    rfl
  · rw [physTarget_zone (page ▸ found) leaf' width,
      leafTarget_of_same (only.zones z leaf.registered)]

/-- A page of RAM. -/
theorem registerPage_ram (aligned : physOffset % targetPageSize = 0) (offset : Nat) :
    ∃ t, s.registerPage stale start size addr physOffset offset =
        .ok (t, physOffset + targetPageSize) ∧
      WholeAt s t n .ram fun _ _ at_ => .ram (physOffset + at_) := by
  let t := (s.physPageFindAlloc stale n).setPage n ⟨physOffset, offset⟩
  have mapped : physOffset ≠ physUnassigned := by
    intro same
    rw [same] at aligned
    exact absurd aligned (by decide)
  have found : t.assigned n = some ⟨physOffset, offset⟩ :=
    assigned_setPage isSome_physPageFindAlloc mapped
  refine ⟨t, ?_, ⟨_, found, aligned⟩, onlyPage_alloc stale small _, ioMemNb_physPageFindAlloc,
    fun fuel dir len addr width page => physTarget_ram (page ▸ found) aligned⟩
  have ram : physOffset % targetPageSize ≤ physRom ∨ physOffset &&& ioMemRomd ≠ 0 :=
    Or.inl (aligned ▸ Nat.zero_le _)
  have empty : s.assigned n = none := before
  simp only [registerPage, checked, index, empty, nextOffset, if_pos ram]
  rfl

end Whole

end Pages

end VirtualNoah
