import VirtualNoah.Soc.PhysRegister

/-!
# The physical address space as layers

Registering a region lays it over what was there.  The page table, the zones of shared pages
and the addresses the callbacks get amount to just that, as long as no whole page is given
away twice and no part of RAM.
-/

namespace VirtualNoah

open Outcome PhysMap StepRun

variable {φ ω : Type}

/-! ## Layers -/

inductive LayerKind (φ ω : Type) where
  | ram (offset : Nat)
  /-- the callbacks by direction and width, and their pointer -/
  | device (mem : Dir → Nat → φ) (o : ω) (regionOffset : Nat)

def LayerKind.IsRam : LayerKind φ ω → Prop
  | .ram _ => True
  | .device _ _ _ => False

instance : DecidablePred (LayerKind.IsRam : LayerKind φ ω → Prop)
  | .ram _ => isTrue trivial
  | .device _ _ _ => isFalse id

/-- A range of physical addresses that has been registered. -/
structure Layer (φ ω : Type) where
  start : Nat
  stop : Nat
  kind : LayerKind φ ω

namespace Layer

def Covers (l : Layer φ ω) (addr : Nat) : Prop := l.start ≤ addr ∧ addr < l.stop

instance (l : Layer φ ω) (addr : Nat) : Decidable (l.Covers addr) :=
  inferInstanceAs (Decidable (_ ∧ _))

/-- Where an access in the layer ends.  Offsets count from the page the region starts in. -/
def target (l : Layer φ ω) (dir : Dir) (len addr : Nat) : IoTarget φ ω :=
  match l.kind with
  | .ram offset => .ram (offset + (addr - l.start))
  | .device mem o regionOffset => .call (mem dir len) (.device o)
      (addr - l.start / targetPageSize * targetPageSize +
        regionOffset / targetPageSize * targetPageSize)

/-- The layer on top that covers the address. -/
def lookup : List (Layer φ ω) → Dir → Nat → Nat → IoTarget φ ω
  | [], _, _, _ => .unassigned
  | l :: ls, dir, len, addr =>
    if l.Covers addr then l.target dir len addr else lookup ls dir len addr

def Touches (l : Layer φ ω) (n : Nat) : Prop := ∃ addr, l.Covers addr ∧ addr / targetPageSize = n

def Whole (l : Layer φ ω) (n : Nat) : Prop := ∀ addr, addr / targetPageSize = n → l.Covers addr

/-- The layer starts with a page or is inside one; RAM has whole pages, on both sides. -/
structure Shaped (l : Layer φ ω) : Prop where
  pages : l.start % targetPageSize = 0 ∨
    l.start % targetPageSize + (l.stop - l.start) ≤ targetPageSize
  order : l.start ≤ l.stop
  space : l.stop ≤ 2 ^ 32
  ram : ∀ offset, l.kind = .ram offset → l.start % targetPageSize = 0 ∧
    l.stop % targetPageSize = 0 ∧ offset % targetPageSize = 0

/-- Of a page that is in both, neither was RAM before nor takes the new layer all of it. -/
def Over (l below : Layer φ ω) : Prop :=
  ∀ n, l.Touches n → below.Touches n → ¬ below.kind.IsRam ∧ ¬ l.kind.IsRam ∧ ¬ l.Whole n

end Layer

/-! ## Page by page -/

/-- The layer up to page `n`. -/
def Layer.upTo (l : Layer φ ω) (n : Nat) : Layer φ ω :=
  { l with stop := min l.stop (n * targetPageSize) }

section Shape

variable {l : Layer φ ω} {n k addr : Nat}

theorem covers_upTo : (l.upTo n).Covers addr ↔ l.Covers addr ∧ addr / targetPageSize < n := by
  simp only [Layer.Covers, Layer.upTo, targetPageSize]
  omega

/-- What `CHECK_SUBPAGE` makes of the page `k` after the first: the part of it that the layer
covers.  A part that is not the page ends the loop. -/
theorem checkSubpage_eq (shaped : l.Shaped) (more : l.start + k * targetPageSize < l.stop) :
    ∃ start2 stop2 need, checkSubpage (l.start + k * targetPageSize) l.start (l.stop - l.start) =
        (start2, stop2, need) ∧
      start2 < targetPageSize ∧ stop2 < targetPageSize ∧
      (∀ addr, addr / targetPageSize = l.start / targetPageSize + k →
        (start2 ≤ addr % targetPageSize ∧ addr % targetPageSize ≤ stop2 ↔ l.Covers addr)) ∧
      (need = false → start2 = 0 ∧ stop2 = targetPageSize - 1) ∧
      (need = true → l.stop ≤ l.start + (k + 1) * targetPageSize ∧
        ¬ (start2 = 0 ∧ stop2 = targetPageSize - 1)) := by
  have pages := shaped.pages
  obtain ⟨start2, start2_eq⟩ : ∃ x, x =
    if l.start < l.start + k * targetPageSize then 0 else l.start % targetPageSize := ⟨_, rfl⟩
  obtain ⟨stop2, stop2_eq⟩ : ∃ x, x =
    if targetPageSize ≤ l.stop - (l.start + k * targetPageSize) then targetPageSize - 1
    else (l.stop - 1) % targetPageSize := ⟨_, rfl⟩
  have checked : checkSubpage (l.start + k * targetPageSize) l.start (l.stop - l.start) =
      (start2, stop2, decide (0 < start2) || decide (stop2 < targetPageSize - 1)) := by
    rw [checkSubpage, Nat.add_sub_of_le shaped.order, start2_eq, stop2_eq]
  have first : start2 = 0 ∧ 0 < k ∨ start2 = l.start % targetPageSize ∧ k = 0 := by
    rcases Nat.eq_zero_or_pos k with rfl | later
    · exact Or.inr ⟨start2_eq.trans (if_neg (by omega)), rfl⟩
    · exact Or.inl ⟨start2_eq.trans (if_pos (by rw [targetPageSize]; omega)), later⟩
  have last : stop2 = targetPageSize - 1 ∧
        targetPageSize ≤ l.stop - (l.start + k * targetPageSize) ∨
      stop2 = (l.stop - 1) % targetPageSize ∧
        l.stop - (l.start + k * targetPageSize) < targetPageSize := by
    by_cases full : targetPageSize ≤ l.stop - (l.start + k * targetPageSize)
    · exact Or.inl ⟨stop2_eq.trans (if_pos full), full⟩
    · exact Or.inr ⟨stop2_eq.trans (if_neg full), Nat.lt_of_not_le full⟩
  clear start2_eq stop2_eq
  refine ⟨start2, stop2, _, checked, ?_, ?_, fun addr page => ?_, fun whole => ?_, fun part => ?_⟩
  case refine_4 =>
    obtain ⟨low, high⟩ := Bool.or_eq_false_iff.mp whole
    have low := of_decide_eq_false low
    have high := of_decide_eq_false high
    simp only [targetPageSize] at *
    omega
  case refine_5 =>
    have part : 0 < start2 ∨ stop2 < targetPageSize - 1 := by
      rcases Bool.or_eq_true_iff.mp part with low | high
      · exact Or.inl (of_decide_eq_true low)
      · exact Or.inr (of_decide_eq_true high)
    simp only [targetPageSize] at *
    omega
  all_goals
    simp only [targetPageSize, Layer.Covers] at *
    omega

end Shape

/-! ## The table refines the layers -/

/-- What is at page `n` comes from a layer that touches it. -/
def Accounted (s : PhysMap φ ω) (layers : List (Layer φ ω)) (n : Nat) : Prop :=
  ∃ kind : PageKind, kind.At s n ∧ (kind ≠ .empty → ∃ l ∈ layers, l.Touches n) ∧
    (kind = .ram → ∃ l ∈ layers, l.kind.IsRam ∧ l.Touches n)

/-- The table finds what the layer on top says. -/
structure Refines (s : PhysMap φ ω) (layers : List (Layer φ ω)) : Prop where
  unassigned : Leaf s 2
  none : ∀ dir i, i < 3 → (s.ioMem 2).mem dir i = some .unassigned
  page : ∀ n, n < 2 ^ 20 → Accounted s layers n
  target : ∀ fuel dir len addr, len < 3 → addr < 2 ^ 32 →
    s.physTarget (fuel + 1) dir len addr = Layer.lookup layers dir len addr

/-- A zone with the callbacks of a device. -/
structure DeviceAt (s : PhysMap φ ω) (z : Nat) (mem : Dir → Nat → φ) (o : ω) : Prop where
  leaf : Leaf s z
  later : 2 < z
  mem : ∀ dir i, i < 3 → (s.ioMem z).mem dir i = some (.device (mem dir i))
  ptr : (s.ioMem z).opaquePtr = .device o

section Steps

variable {s t : PhysMap φ ω} {l : Layer φ ω} {layers : List (Layer φ ω)} {n z addr len : Nat}
  {mem : Dir → Nat → φ} {o : ω} {dir : Dir}

theorem DeviceAt.leafTarget_eq (device : DeviceAt s z mem o) (width : len < 3) :
    leafTarget s z dir len addr = .call (mem dir len) (.device o) addr := by
  simp only [leafTarget, zoneCall, device.mem dir len width, device.ptr, ioCall]

theorem DeviceAt.of_onlyPage (device : DeviceAt s z mem o) (only : OnlyPage s t n) :
    DeviceAt t z mem o where
  leaf := device.leaf.of_onlyPage only
  later := device.later
  mem := by
    rw [only.zones z device.leaf.registered]
    exact device.mem
  ptr := by
    rw [only.zones z device.leaf.registered]
    exact device.ptr

theorem touches_upTo {m : Nat} : (l.upTo n).Touches m ↔ l.Touches m ∧ m < n := by
  constructor
  · rintro ⟨addr, covers, page⟩
    obtain ⟨covers, before⟩ := covers_upTo.mp covers
    exact ⟨⟨addr, covers, page⟩, page ▸ before⟩
  · rintro ⟨⟨addr, covers, page⟩, before⟩
    exact ⟨addr, covers_upTo.mpr ⟨covers, page ▸ before⟩, page⟩

theorem target_upTo : (l.upTo n).target dir len addr = l.target dir len addr := rfl

/-- Away from page `n` the next page makes no difference. -/
theorem lookup_upTo_succ (other : addr / targetPageSize ≠ n) :
    Layer.lookup (l.upTo (n + 1) :: layers) dir len addr =
      Layer.lookup (l.upTo n :: layers) dir len addr := by
  refine if_congr ?_ (target_upTo.trans target_upTo.symm) rfl
  rw [covers_upTo, covers_upTo, Nat.lt_succ_iff_lt_or_eq, or_iff_left other]

/-- On page `n` the layer up to it says nothing. -/
theorem lookup_upTo_self (page : addr / targetPageSize = n) :
    Layer.lookup (l.upTo n :: layers) dir len addr = Layer.lookup layers dir len addr :=
  if_neg fun covers => absurd page (Nat.ne_of_lt (covers_upTo.mp covers).2)

theorem lookup_upTo_next (page : addr / targetPageSize = n) :
    Layer.lookup (l.upTo (n + 1) :: layers) dir len addr =
      if l.Covers addr then l.target dir len addr else Layer.lookup layers dir len addr := by
  refine if_congr ?_ rfl rfl
  rw [covers_upTo]
  exact and_iff_left (page ▸ Nat.lt_succ_self n)

theorem Accounted.mono {layers' : List (Layer φ ω)} (accounted : Accounted s layers n)
    (grown : ∀ below ∈ layers, below.Touches n →
      ∃ above ∈ layers', above.kind = below.kind ∧ above.Touches n) :
    Accounted s layers' n := by
  obtain ⟨kind, at_, used, isRam⟩ := accounted
  refine ⟨kind, at_, fun nonempty => ?_, fun ram => ?_⟩
  · obtain ⟨below, mem, touches⟩ := used nonempty
    obtain ⟨above, mem', -, touches'⟩ := grown below mem touches
    exact ⟨above, mem', touches'⟩
  · obtain ⟨below, mem, ramBelow, touches⟩ := isRam ram
    obtain ⟨above, mem', same, touches'⟩ := grown below mem touches
    exact ⟨above, mem', same ▸ ramBelow, touches'⟩

/-- Page `n` is registered; the others are as they were. -/
theorem Refines.next {kind : PageKind} (refines : Refines s (l.upTo n :: layers))
    (only : OnlyPage s t n) (now : kind.At t n) (touches : l.Touches n)
    (ram : kind = .ram → l.kind.IsRam)
    (target : ∀ fuel dir len addr, len < 3 → addr / targetPageSize = n →
      t.physTarget (fuel + 1) dir len addr =
        if l.Covers addr then l.target dir len addr else Layer.lookup layers dir len addr) :
    Refines t (l.upTo (n + 1) :: layers) where
  unassigned := refines.unassigned.of_onlyPage only
  none := by
    rw [only.zones 2 refines.unassigned.registered]
    exact refines.none
  page := by
    intro m small
    by_cases here : m = n
    · subst here
      have touches' : (l.upTo (m + 1)).Touches m := touches_upTo.mpr ⟨touches, Nat.lt_succ_self m⟩
      exact ⟨kind, now, fun _ => ⟨_, List.mem_cons_self, touches'⟩,
        fun isRam => ⟨_, List.mem_cons_self, ram isRam, touches'⟩⟩
    · obtain ⟨kind', before, used, isRam⟩ := refines.page m small
      refine Accounted.mono ⟨kind', before.of_onlyPage only small here, used, isRam⟩ ?_
      intro below mem touched
      rcases List.mem_cons.mp mem with rfl | older
      · obtain ⟨touched, before⟩ := touches_upTo.mp touched
        exact ⟨_, List.mem_cons_self, rfl, touches_upTo.mpr ⟨touched, Nat.lt_succ_of_lt before⟩⟩
      · exact ⟨below, List.mem_cons_of_mem _ older, rfl, touched⟩
  target := by
    intro fuel dir len addr width small
    by_cases here : addr / targetPageSize = n
    · rw [target fuel dir len addr width here, lookup_upTo_next here]
    · have page : addr / targetPageSize < 2 ^ 20 := by
        rw [targetPageSize]
        omega
      obtain ⟨kind', before, -⟩ := refines.page _ page
      rw [physTarget_onlyPage before only page here refines.unassigned refines.none width,
        refines.target fuel dir len addr width small, lookup_upTo_succ here]

/-- Before its first page the layer changes nothing. -/
theorem Refines.begin (refines : Refines s layers) (l : Layer φ ω) :
    Refines s (l.upTo (l.start / targetPageSize) :: layers) where
  unassigned := refines.unassigned
  none := refines.none
  page := fun m small => (refines.page m small).mono fun below mem touched =>
    ⟨below, List.mem_cons_of_mem _ mem, rfl, touched⟩
  target := by
    intro fuel dir len addr width small
    rw [refines.target fuel dir len addr width small]
    refine (if_neg fun covers => ?_).symm
    obtain ⟨⟨above, -⟩, before⟩ := covers_upTo.mp covers
    exact absurd before (Nat.not_lt_of_le (Nat.div_le_div_right above))

/-- After its last page it is the whole layer. -/
theorem Refines.finish (refines : Refines s (l.upTo n :: layers))
    (all : ∀ addr, l.Covers addr → addr / targetPageSize < n) : Refines s (l :: layers) where
  unassigned := refines.unassigned
  none := refines.none
  page := by
    refine fun m small => (refines.page m small).mono fun below mem touched => ?_
    rcases List.mem_cons.mp mem with rfl | older
    · exact ⟨l, List.mem_cons_self, rfl, (touches_upTo.mp touched).1⟩
    · exact ⟨below, List.mem_cons_of_mem _ older, rfl, touched⟩
  target := by
    intro fuel dir len addr width small
    rw [refines.target fuel dir len addr width small]
    refine if_congr ?_ target_upTo rfl
    rw [covers_upTo]
    exact and_iff_left_of_imp (all addr)

/-- A page that the layer takes all of was empty, and any other was not RAM. -/
theorem Refines.before (refines : Refines s (l.upTo n :: layers)) (small : n < 2 ^ 20)
    (touches : l.Touches n) (lies : ∀ below ∈ layers, l.Over below) :
    ∃ kind : PageKind, kind.At s n ∧ (kind ≠ .empty → ¬ l.kind.IsRam ∧ ¬ l.Whole n) ∧
      kind ≠ .ram := by
  obtain ⟨kind, at_, used, isRam⟩ := refines.page n small
  have older : ∀ below ∈ l.upTo n :: layers, below.Touches n → below ∈ layers := by
    intro below mem touched
    rcases List.mem_cons.mp mem with rfl | older
    · exact absurd (touches_upTo.mp touched).2 (Nat.lt_irrefl n)
    · exact older
  refine ⟨kind, at_, fun nonempty => ?_, fun ram => ?_⟩
  · obtain ⟨below, mem, touched⟩ := used nonempty
    exact (lies below (older below mem touched) n touches touched).2
  · obtain ⟨below, mem, ramBelow, touched⟩ := isRam ram
    exact (lies below (older below mem touched) n touches touched).1 ramBelow

end Steps

/-! ## The loop -/

section Loop

variable {s : PhysMap φ ω} {l : Layer φ ω} {layers : List (Layer φ ω)} {n k z : Nat}
  {mem : Dir → Nat → φ} {o : ω} {regionOffset : Nat} (stale : Nat → Nat → Nat)

/-- The pages of a region one after the other. -/
theorem registerLoop_run {start size total : Nat} (holds : Nat → PhysMap φ ω → Nat → Prop)
    (step : ∀ k s physOffset, k < total → holds k s physOffset → ∃ t physOffset',
      s.registerPage stale start size (start + k * targetPageSize) physOffset
        (regionOffset + k * targetPageSize) = .ok (t, physOffset') ∧ holds (k + 1) t physOffset')
    (count k : Nat) (s : PhysMap φ ω) (physOffset : Nat) (rest : k + count = total)
    (before : holds k s physOffset) : ∃ t physOffset', registerLoop stale start size count
        (start + k * targetPageSize) physOffset (regionOffset + k * targetPageSize) s = .ok t ∧
      holds total t physOffset' := by
  induction count generalizing k s physOffset with
  | zero => exact ⟨s, physOffset, rfl, rest ▸ before⟩
  | succ count ih =>
    obtain ⟨t, physOffset', page, after⟩ := step k s physOffset (by omega) before
    obtain ⟨u, last, loop, done⟩ := ih (k + 1) t physOffset' (by omega) after
    refine ⟨u, last, ?_, done⟩
    rw [registerLoop, bind_ok page, ← loop, Nat.succ_mul, Nat.add_assoc start,
      Nat.add_assoc regionOffset]

/-- The page `k` of the region. -/
theorem page_of_more (space : l.stop ≤ 2 ^ 32) (more : l.start + k * targetPageSize < l.stop) :
    (l.start + k * targetPageSize) / targetPageSize = l.start / targetPageSize + k ∧
      l.start / targetPageSize + k < 2 ^ 20 ∧ l.Touches (l.start / targetPageSize + k) := by
  have index : (l.start + k * targetPageSize) / targetPageSize = l.start / targetPageSize + k :=
    Nat.add_mul_div_right _ _ (by decide)
  refine ⟨index, ?_, _, ⟨Nat.le_add_right _ _, more⟩, index⟩
  rw [← index, targetPageSize]
  rw [targetPageSize] at more
  omega

/-- One page of a device. -/
theorem registerPage_device (refines : Refines s (l.upTo (l.start / targetPageSize + k) :: layers))
    (shaped : l.Shaped) (lies : ∀ below ∈ layers, l.Over below)
    (kind : l.kind = .device mem o regionOffset) (device : DeviceAt s z mem o)
    (room : s.ioMemNb < ioMemNbEntries) (more : l.start + k * targetPageSize < l.stop) :
    ∃ t, s.registerPage stale l.start (l.stop - l.start) (l.start + k * targetPageSize) (8 * z)
        (regionOffset / targetPageSize * targetPageSize + k * targetPageSize) = .ok (t, 8 * z) ∧
      Refines t (l.upTo (l.start / targetPageSize + (k + 1)) :: layers) ∧ DeviceAt t z mem o ∧
      (t.ioMemNb = s.ioMemNb ∨
        t.ioMemNb ≤ s.ioMemNb + 1 ∧ l.stop ≤ l.start + (k + 1) * targetPageSize) := by
  obtain ⟨index, small, touches⟩ := page_of_more shaped.space more
  obtain ⟨start2, stop2, need, checked, first, last, part, whole, ends⟩ :=
    checkSubpage_eq shaped more
  obtain ⟨kind', before, empty, other⟩ := refines.before small touches lies
  have offset : ∀ addr, addr / targetPageSize = l.start / targetPageSize + k →
      addr % targetPageSize +
          (regionOffset / targetPageSize * targetPageSize + k * targetPageSize) =
        addr - l.start / targetPageSize * targetPageSize +
          regionOffset / targetPageSize * targetPageSize := by
    intro addr page
    have split := Nat.div_add_mod' addr targetPageSize
    rw [page, Nat.add_mul] at split
    omega
  have target : ∀ dir len addr, addr / targetPageSize = l.start / targetPageSize + k → len < 3 →
      leafTarget s z dir len (addr % targetPageSize +
        (regionOffset / targetPageSize * targetPageSize + k * targetPageSize)) =
        l.target dir len addr := by
    intro dir len addr page width
    rw [device.leafTarget_eq width, offset addr page, Layer.target, kind]
  cases need with
  | false =>
    obtain ⟨rfl, rfl⟩ := whole rfl
    have all : l.Whole (l.start / targetPageSize + k) := fun addr page => (part addr page).mp
      ⟨Nat.zero_le _, Nat.le_sub_one_of_lt (Nat.mod_lt _ (by decide))⟩
    have isEmpty : kind' = .empty := by
      by_contra nonempty
      exact (empty nonempty).2 all
    subst isEmpty
    obtain ⟨t, page, now, only, same, finds⟩ := registerPage_zone stale index checked small before
      device.leaf device.later (regionOffset / targetPageSize * targetPageSize + k * targetPageSize)
    refine ⟨t, page, ?_, device.of_onlyPage only, Or.inl same⟩
    refine refines.next only now touches nofun fun fuel dir len addr width here => ?_
    rw [finds _ dir len addr width here, target dir len addr here width, if_pos (all addr here)]
  | true =>
    obtain ⟨t, page, now, only, more, finds⟩ := registerPage_part stale
      (regionOffset / targetPageSize * targetPageSize + k * targetPageSize) index checked first last
      small before other device.leaf refines.unassigned refines.none room
    refine ⟨t, page, ?_, device.of_onlyPage only, Or.inr ⟨more, (ends rfl).1⟩⟩
    refine refines.next only now touches nofun fun fuel dir len addr width here => ?_
    have bound : addr < 2 ^ 32 := by
      rw [← here, targetPageSize] at small
      omega
    rw [finds fuel dir len addr width here, target dir len addr here width,
      refines.target fuel dir len addr width bound, lookup_upTo_self here]
    exact if_congr (part addr here) rfl rfl

/-- One page of RAM. -/
theorem registerPage_layerRam {offset : Nat}
    (refines : Refines s (l.upTo (l.start / targetPageSize + k) :: layers)) (shaped : l.Shaped)
    (lies : ∀ below ∈ layers, l.Over below) (kind : l.kind = .ram offset)
    (more : l.start + k * targetPageSize < l.stop) :
    ∃ t, s.registerPage stale l.start (l.stop - l.start) (l.start + k * targetPageSize)
        (offset + k * targetPageSize) (regionOffset + k * targetPageSize) =
        .ok (t, offset + (k + 1) * targetPageSize) ∧
      Refines t (l.upTo (l.start / targetPageSize + (k + 1)) :: layers) ∧
      t.ioMemNb = s.ioMemNb := by
  obtain ⟨index, small, touches⟩ := page_of_more shaped.space more
  obtain ⟨paged, paged', aligned⟩ := shaped.ram offset kind
  obtain ⟨start2, stop2, need, checked, first, last, part, whole, ends⟩ :=
    checkSubpage_eq shaped more
  obtain ⟨kind', before, empty, other⟩ := refines.before small touches lies
  have isEmpty : kind' = .empty := by
    by_contra nonempty
    refine (empty nonempty).1 ?_
    rw [kind]
    trivial
  subst isEmpty
  have all : l.Whole (l.start / targetPageSize + k) := by
    intro addr page
    simp only [targetPageSize, Layer.Covers] at *
    omega
  cases need with
  | true =>
    have low := (part (l.start + k * targetPageSize) index).mpr (all _ index)
    have high := (part (l.start + k * targetPageSize + (targetPageSize - 1)) ?_).mpr (all _ ?_)
    · refine absurd ⟨?_, ?_⟩ (ends rfl).2
      all_goals
        simp only [targetPageSize] at *
        omega
    all_goals
      simp only [targetPageSize] at *
      omega
  | false =>
    obtain ⟨rfl, rfl⟩ := whole rfl
    have aligned' : (offset + k * targetPageSize) % targetPageSize = 0 := by
      rw [Nat.add_mul_mod_self_right, aligned]
    obtain ⟨t, page, now, only, same, finds⟩ := registerPage_ram stale index checked small before
      aligned' (regionOffset + k * targetPageSize)
    refine ⟨t, ?_, ?_, same⟩
    · rw [page, Nat.succ_mul, Nat.add_assoc]
    refine refines.next only now touches (fun _ => ?_) fun fuel dir len addr width here => ?_
    · rw [kind]
      trivial
    · rw [finds _ dir len addr width here, if_pos (all addr here), Layer.target, kind]
      refine congrArg IoTarget.ram ?_
      simp only [targetPageSize] at *
      omega

/-- The number of pages of a region. -/
theorem pages_of_shaped (shaped : l.Shaped) :
    (∀ k, k < (l.stop - l.start + targetPageSize - 1) / targetPageSize →
      l.start + k * targetPageSize < l.stop) ∧
    (∀ k, l.stop ≤ l.start + k * targetPageSize →
      (l.stop - l.start + targetPageSize - 1) / targetPageSize ≤ k) ∧
    ∀ addr, l.Covers addr → addr / targetPageSize <
      l.start / targetPageSize + (l.stop - l.start + targetPageSize - 1) / targetPageSize := by
  have pages := shaped.pages
  refine ⟨fun k inside => ?_, fun k past => ?_, fun addr covers => ?_⟩
  all_goals
    simp only [targetPageSize, Layer.Covers] at *
    omega

/-- A device's range goes on top. -/
theorem register_device (refines : Refines s layers) (shaped : l.Shaped)
    (lies : ∀ below ∈ layers, l.Over below) (kind : l.kind = .device mem o regionOffset)
    (device : DeviceAt s z mem o) (room : s.ioMemNb < ioMemNbEntries) :
    ∃ t, s.cpuRegisterPhysicalMemoryOffset stale l.start (l.stop - l.start) (8 * z) regionOffset =
        .ok t ∧ Refines t (l :: layers) ∧ DeviceAt t z mem o ∧ t.ioMemNb ≤ s.ioMemNb + 1 := by
  obtain ⟨inside, past, all⟩ := pages_of_shaped shaped
  let total := (l.stop - l.start + targetPageSize - 1) / targetPageSize
  let holds (k : Nat) (t : PhysMap φ ω) (physOffset : Nat) : Prop := physOffset = 8 * z ∧
    Refines t (l.upTo (l.start / targetPageSize + k) :: layers) ∧ DeviceAt t z mem o ∧
    (t.ioMemNb = s.ioMemNb ∨ t.ioMemNb ≤ s.ioMemNb + 1 ∧ total ≤ k)
  have step : ∀ k t physOffset, k < total → holds k t physOffset → ∃ u physOffset',
      t.registerPage stale l.start (l.stop - l.start) (l.start + k * targetPageSize) physOffset
        (regionOffset / targetPageSize * targetPageSize + k * targetPageSize) =
          .ok (u, physOffset') ∧ holds (k + 1) u physOffset' := by
    rintro k t _ more ⟨rfl, refines, device, zones⟩
    have same : t.ioMemNb = s.ioMemNb :=
      zones.resolve_right fun done => absurd more (Nat.not_lt_of_le done.2)
    obtain ⟨u, page, refines', device', zones'⟩ :=
      registerPage_device stale refines shaped lies kind device (same ▸ room) (inside k more)
    refine ⟨u, 8 * z, page, rfl, refines', device', ?_⟩
    rw [← same]
    exact zones'.imp_right fun done => ⟨done.1, past (k + 1) done.2⟩
  have before : holds 0 s (8 * z) := ⟨rfl, refines.begin l, device, Or.inl rfl⟩
  obtain ⟨t, physOffset, loop, -, refines', device', zones⟩ :=
    registerLoop_run stale holds step total 0 s (8 * z) (Nat.zero_add total) before
  simp only [Nat.zero_mul, Nat.add_zero] at loop
  refine ⟨t, loop, refines'.finish all, device', ?_⟩
  rcases zones with same | grown
  · exact Nat.le_succ_of_le (Nat.le_of_eq same)
  · exact grown.1

/-- RAM goes where nothing is. -/
theorem register_ram {offset : Nat} (refines : Refines s layers) (shaped : l.Shaped)
    (lies : ∀ below ∈ layers, l.Over below) (kind : l.kind = .ram offset) (regionOffset : Nat) :
    ∃ t, s.cpuRegisterPhysicalMemoryOffset stale l.start (l.stop - l.start) offset regionOffset =
        .ok t ∧ Refines t (l :: layers) ∧ t.ioMemNb = s.ioMemNb := by
  obtain ⟨inside, -, all⟩ := pages_of_shaped shaped
  let total := (l.stop - l.start + targetPageSize - 1) / targetPageSize
  let holds (k : Nat) (t : PhysMap φ ω) (physOffset : Nat) : Prop :=
    physOffset = offset + k * targetPageSize ∧
    Refines t (l.upTo (l.start / targetPageSize + k) :: layers) ∧ t.ioMemNb = s.ioMemNb
  have step : ∀ k t physOffset, k < total → holds k t physOffset → ∃ u physOffset',
      t.registerPage stale l.start (l.stop - l.start) (l.start + k * targetPageSize) physOffset
        (regionOffset / targetPageSize * targetPageSize + k * targetPageSize) =
          .ok (u, physOffset') ∧ holds (k + 1) u physOffset' := by
    rintro k t _ more ⟨rfl, refines, same⟩
    obtain ⟨u, page, refines', same'⟩ :=
      registerPage_layerRam stale refines shaped lies kind (inside k more)
    exact ⟨u, _, page, rfl, refines', same'.trans same⟩
  have before : holds 0 s offset :=
    ⟨by rw [Nat.zero_mul, Nat.add_zero], refines.begin l, rfl⟩
  obtain ⟨t, physOffset, loop, -, refines', same⟩ :=
    registerLoop_run stale holds step total 0 s offset (Nat.zero_add total) before
  simp only [Nat.zero_mul, Nat.add_zero] at loop
  exact ⟨t, loop, refines'.finish all, same⟩

end Loop

/-! ## Layers that share nothing -/

section Lookup

variable {l : Layer φ ω} {layers : List (Layer φ ω)} {dir : Dir} {len addr : Nat}

theorem lookup_eq_target (mem : l ∈ layers) (covers : l.Covers addr)
    (only : ∀ l' ∈ layers, l'.Covers addr → l' = l) :
    Layer.lookup layers dir len addr = l.target dir len addr := by
  induction layers with
  | nil => exact absurd mem List.not_mem_nil
  | cons top rest ih =>
    by_cases above : top.Covers addr
    · rw [Layer.lookup, if_pos above, only top List.mem_cons_self above]
    · rw [Layer.lookup, if_neg above]
      rcases List.mem_cons.mp mem with rfl | older
      · exact absurd covers above
      · exact ih older fun l' mem' => only l' (List.mem_cons_of_mem _ mem')

theorem lookup_eq_unassigned (none : ∀ l ∈ layers, ¬ l.Covers addr) :
    Layer.lookup layers dir len addr = .unassigned := by
  induction layers with
  | nil => rfl
  | cons top rest ih =>
    rw [Layer.lookup, if_neg (none top List.mem_cons_self)]
    exact ih fun l mem => none l (List.mem_cons_of_mem _ mem)

/-- Two layers whose pages are apart, or a device's in less than a page over a device's. -/
def Layer.Apart (l below : Layer φ ω) : Prop :=
  (l.stop + (targetPageSize - 1)) / targetPageSize ≤ below.start / targetPageSize ∨
  (below.stop + (targetPageSize - 1)) / targetPageSize ≤ l.start / targetPageSize ∨
  ¬ below.kind.IsRam ∧ ¬ l.kind.IsRam ∧ l.stop - l.start < targetPageSize

instance (l below : Layer φ ω) : Decidable (l.Apart below) :=
  inferInstanceAs (Decidable (_ ∨ _))

theorem Layer.Apart.over {below : Layer φ ω} (apart : l.Apart below) : l.Over below := by
  rintro n ⟨addr, covers, rfl⟩ ⟨addr', covers', page⟩
  have above := covers.2
  have above' := covers'.2
  have under := covers.1
  have under' := covers'.1
  rcases apart with before | after | ⟨device, device', short⟩
  · simp only [targetPageSize] at *
    omega
  · simp only [targetPageSize] at *
    omega
  · refine ⟨device, device', fun whole => ?_⟩
    obtain ⟨low, -⟩ := whole (addr / targetPageSize * targetPageSize)
      (Nat.mul_div_cancel _ (by decide))
    obtain ⟨-, high⟩ := whole (addr / targetPageSize * targetPageSize + (targetPageSize - 1))
      (by simp only [targetPageSize]; omega)
    omega

end Lookup

end VirtualNoah
