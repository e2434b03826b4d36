import VirtualNoah.Nand.PageArray

/-!
# Sequential cache read

After 0x31 a data read that finds nothing left steps the latch to the next page and
loads it from the same column on.  From a clean latch the reads deliver the pages one
after the other; from another one no page is ever loaded, and they deliver whatever the
buffer holds (`cache_read_streams_iff`).
-/

namespace VirtualNoah

open ByteStore Lanes StepRun NandBflash

/-- `count` pages from page `p` on, each from column `c` to its end, one after the other. -/
def PageArray.stream (arr : PageArray) (p c count : Nat) : List Byte :=
  (List.range count).flatMap fun k => arr.bytes (p + k) c (2112 - c)

/-- A read of page `p`, 0x31, and `n` data reads. -/
def cacheRead (p c n : Nat) : List BusOp :=
  .command 0x00 :: latchBytes p c ++ [.command 0x30, .command 0x31] ++
    List.replicate n .readData8

theorem PageArray.stream_succ (arr : PageArray) (p c count : Nat) :
    arr.stream p c (count + 1) = arr.bytes p c (2112 - c) ++ arr.stream (p + 1) c count := by
  rw [stream, stream, List.range_succ_eq_map, List.flatMap_cons, List.flatMap_map, Nat.add_zero]
  congr 1
  refine List.flatMap_congr fun k _ => ?_
  rw [Nat.succ_eq_add_one, Nat.add_assoc, Nat.add_comm 1 k]

theorem PageArray.take_bytes (arr : PageArray) {p c n count : Nat} (less : n ≤ count) :
    (arr.bytes p c count).take n = arr.bytes p c n := by
  rw [bytes, bytes, ← List.map_take, List.take_range, Nat.min_eq_left less]

theorem PageArray.length_bytes (arr : PageArray) (p c count : Nat) :
    (arr.bytes p c count).length = count := by
  rw [bytes, List.length_map, List.length_range]

/-- The first page of a stream. -/
theorem PageArray.take_stream (arr : PageArray) {p c n count : Nat} (short : n ≤ 2112 - c) :
    (arr.stream p c (count + 1)).take n = arr.bytes p c n := by
  rw [stream_succ, List.take_append_of_le_length (by rw [length_bytes]; exact short),
    take_bytes _ short]

/-- The rest of a stream. -/
theorem PageArray.take_stream_add (arr : PageArray) (p c n count : Nat) :
    (arr.stream p c (count + 1)).take (2112 - c + n) =
      arr.bytes p c (2112 - c) ++ (arr.stream (p + 1) c count).take n := by
  have taken := @List.take_length_add_append _ (arr.bytes p c (2112 - c))
    (arr.stream (p + 1) c count) n
  rw [length_bytes] at taken
  rw [stream_succ, taken]

section Streams

variable {s t : NandBflash} {n m k w : Nat} {data : List Byte}

/-! ## The next page -/

theorem column_nextPage (s : NandBflash) : (nandbNextPage s).column = s.column := by
  have before : s.column = s.addrLow.toNat % 65536 := toNat_and_low_half s.addrLow
  have after : (nandbNextPage s).column = (s.addrLow + 0x10000#32).toNat % 65536 :=
    toNat_and_low_half (s.addrLow + 0x10000#32)
  rw [before, after, BitVec.toNat_add, BitVec.toNat_ofNat]
  omega

/-- The step carries from the low word of the latch into the high one. -/
theorem page_nextPage (inside : s.page + 1 < 2 ^ 32) : (nandbNextPage s).page = s.page + 1 := by
  have low := s.addrLow.isLt
  have sum : (s.addrLow + 0x10000#32).toNat = (s.addrLow.toNat + 65536) % 2 ^ 32 := by
    rw [BitVec.toNat_add, BitVec.toNat_ofNat]
  have high : (s.addrHigh + 1#32).toNat = (s.addrHigh.toNat + 1) % 2 ^ 32 := by
    rw [BitVec.toNat_add, BitVec.toNat_ofNat]
  rw [page_eq, page_eq] at *
  simp only [nandbNextPage, BitVec.lt_def]
  by_cases carry : (s.addrLow + 0x10000#32).toNat < s.addrLow.toNat
  · rw [if_pos carry, high]
    omega
  · rw [if_neg carry]
    omega

theorem with_cmd {value : BitVec 16} (same : s.cmd = value) : { s with cmd := value } = s := by
  subst same
  rfl

theorem nandbNextPage_cmd (s : NandBflash) : (nandbNextPage s).cmd = s.cmd := by
  rw [nandbNextPage]

/-- A load changes the buffer, the cursor and what is left only. -/
theorem nandbLoadPage_frame (s : NandBflash) :
    ∃ io ioaddr iolen, nandbLoadPage s = { s with io := io, ioaddr := ioaddr, iolen := iolen } := by
  rcases Nat.lt_or_ge s.page s.chip.pages with present | missing
  · exact ⟨_, _, _, nandbLoadPage_eq present⟩
  · exact ⟨_, _, _, nandbLoadPage_missing missing⟩

theorem nandbLoadPage_cmd (s : NandBflash) : (nandbLoadPage s).cmd = s.cmd := by
  obtain ⟨io, ioaddr, iolen, loaded⟩ := nandbLoadPage_frame s
  rw [loaded]

theorem nandbLoadPage_iolen (s : NandBflash) : (nandbLoadPage s).iolen = s.loadLength := by
  rcases Nat.lt_or_ge s.page s.chip.pages with present | missing
  · rw [nandbLoadPage_eq present]
  · rw [nandbLoadPage_missing missing]

/-- What is left after 0x31 or a refill. -/
theorem nextPage_loadLength (column : s.column + w = 2112) :
    (nandbNextPage s).loadLength = w := by
  have full := (nandbNextPage s).chip.pageOobSize_eq
  rw [NandBflash.loadLength_eq (by rw [column_nextPage, full]; omega), full, column_nextPage,
    ← column, Nat.add_sub_cancel_left]

theorem nandbRefill_eq (empty : s.iolen = 0) (cached : s.cmd = 0x31#16) :
    nandbRefill s = nandbLoadPage (nandbNextPage s) :=
  if_pos ⟨empty, cached⟩

theorem nandbRefill_of_left (left : s.iolen ≠ 0) : nandbRefill s = s :=
  if_neg fun both => left both.1

/-- Reads that find nothing left are reads after the refill. -/
theorem transfer_refill (empty : s.iolen = 0) (cached : s.cmd = 0x31#16)
    (column : s.column < 2112) :
    transfer s (List.replicate (n + 1) .readData8) =
      transfer (nandbLoadPage (nandbNextPage s)) (List.replicate (n + 1) .readData8) := by
  have left : (nandbLoadPage (nandbNextPage s)).iolen ≠ 0 := by
    rw [nandbLoadPage_iolen, nextPage_loadLength (Nat.add_sub_cancel' (Nat.le_of_lt column))]
    exact Int.natCast_ne_zero.mpr (Nat.sub_ne_zero_of_lt column)
  have same : busStep s .readData8 =
      busStep (nandbLoadPage (nandbNextPage s)) .readData8 := by
    simp only [busStep, nandbReadData8, nandbRefill_eq empty cached, nandbRefill_of_left left]
  rw [List.replicate_succ]
  simp only [transfer, busRun, run, same]

/-! ## Pages of the image -/

/-- Reads inside a loaded page. -/
theorem transfer_page (size : s.bdrv.size = s.chip.imageSize) (present : s.page < s.chip.pages)
    (column : s.column < 2112) (within : n ≤ 2112 - s.column) :
    ∃ t, transfer { nandbLoadPage s with cmd := 0x31#16 } (List.replicate n .readData8) =
        .ok (t, (imageBytes s.bdrv).bytes s.page s.column n) ∧
      t.bdrv = s.bdrv ∧ t.chip = s.chip ∧ t.page = s.page ∧ t.column = s.column ∧
      t.cmd = 0x31#16 ∧ t.iolen = (2112 - s.column - n : Nat) := by
  have full := s.chip.pageOobSize_eq
  have bytes : (List.range n).map (fun i => s.bdrv.byte (s.offset + i)) =
      (imageBytes s.bdrv).bytes s.page s.column n := by
    refine List.map_congr_left fun i _ => ?_
    rw [imageBytes, NandBflash.offset, full, Nat.mul_comm, Nat.add_assoc]
  have reads := @transfer_loadedPage s n 0x31#16 (by decide) size.ge present (by omega)
  rw [bytes, full] at reads
  refine ⟨_, reads, ?_⟩
  rw [nandbLoadPage_eq present]
  exact ⟨rfl, rfl, rfl, rfl, rfl, rfl⟩

/-- From a loaded page on, the reads deliver the pages one after the other. -/
theorem transfer_stream (size : s.bdrv.size = s.chip.imageSize) (column : s.column < 2112)
    (present : s.page + m < s.chip.pages) (within : n ≤ (m + 1) * (2112 - s.column)) :
    ∃ t, transfer { nandbLoadPage s with cmd := 0x31#16 } (List.replicate n .readData8) =
      .ok (t, ((imageBytes s.bdrv).stream s.page s.column (m + 1)).take n) := by
  induction m generalizing s n with
  | zero =>
    rw [Nat.zero_add, Nat.one_mul] at within
    obtain ⟨t, reads, -⟩ := transfer_page size present column within
    exact ⟨t, by rw [PageArray.take_stream _ within]; exact reads⟩
  | succ m ih =>
    rcases Nat.lt_or_ge (2112 - s.column) n with long | short
    case inr =>
      obtain ⟨t, reads, -⟩ := transfer_page size (by omega) column short
      exact ⟨t, by rw [PageArray.take_stream _ short]; exact reads⟩
    obtain ⟨r, rfl⟩ : ∃ r, n = 2112 - s.column + (r + 1) := ⟨n - (2112 - s.column) - 1, by omega⟩
    obtain ⟨y, reads, bdrv, chip, page, column', cmd, empty⟩ :=
      transfer_page size (by omega) column (Nat.le_refl (2112 - s.column))
    rw [Nat.sub_self] at empty
    have below := pages_lt s.chip
    have nextPage : (nandbNextPage y).page = s.page + 1 := by
      rw [page_nextPage (by omega), page]
    have nextColumn : (nandbNextPage y).column = s.column := by rw [column_nextPage, column']
    have stays : (nandbLoadPage (nandbNextPage y)).cmd = 0x31#16 := by
      rw [nandbLoadPage_cmd, nandbNextPage_cmd, cmd]
    rw [Nat.succ_mul] at within
    obtain ⟨t, rest⟩ := @ih (nandbNextPage y) (r + 1)
      (by rw [nandbNextPage_bdrv, nandbNextPage_chip, bdrv, chip, size])
      (by rw [nextColumn]; exact column) (by rw [nextPage, nandbNextPage_chip, chip]; omega)
      (by rw [nextColumn]; omega)
    rw [with_cmd stays, ← transfer_refill empty cmd (by rw [column']; exact column),
      nandbNextPage_bdrv, bdrv, nextPage, nextColumn] at rest
    have whole := transfer_append reads rest
    rw [← List.replicate_add] at whole
    exact ⟨t, by rw [PageArray.take_stream_add]; exact whole⟩

/-! ## Pages that do not exist -/

/-- `n` reads are to come, `w` of them from each page, with at most `m` refills, none of
which finds a page. -/
structure Astray (s : NandBflash) (w m n : Nat) : Prop where
  cmd : s.cmd = 0x31#16
  column : s.column + w = 2112
  wide : 0 < w
  nonneg : 0 ≤ s.iolen
  missing : s.chip.pages ≤ s.page
  below : s.page + m < 2 ^ 32
  enough : (n : Int) ≤ s.iolen + (m * w : Nat)

theorem nandbLoadPage_astray (missing : s.chip.pages ≤ s.page) :
    (nandbLoadPage s).page = s.page ∧ (nandbLoadPage s).column = s.column ∧
      (nandbLoadPage s).chip = s.chip ∧ (nandbLoadPage s).ioaddr = s.ioaddr ∧
      (nandbLoadPage s).io = s.io := by
  rw [nandbLoadPage_missing missing]
  exact ⟨rfl, rfl, rfl, rfl, rfl⟩

/-- A load that finds no page. -/
theorem astray_load (missing : s.chip.pages ≤ s.page) (column : s.column + w = 2112)
    (wide : 0 < w) (below : s.page + m < 2 ^ 32) (enough : n ≤ (m + 1) * w) :
    Astray { nandbLoadPage s with cmd := 0x31#16 } w m n := by
  have full := s.chip.pageOobSize_eq
  have length : s.loadLength = w := by
    rw [NandBflash.loadLength_eq (by rw [full]; omega), full, ← column, Nat.add_sub_cancel_left]
  rw [Nat.succ_mul] at enough
  rw [nandbLoadPage_missing missing, length]
  refine ⟨rfl, column, wide, Int.natCast_nonneg w, missing, below, ?_⟩
  dsimp only
  omega

/-- A refill that finds no page leaves the buffer and the cursor alone. -/
theorem Astray.refill (astray : Astray s w m (n + 1)) :
    ∃ m', Astray (nandbRefill s) w m' (n + 1) ∧ 0 < (nandbRefill s).iolen ∧
      (nandbRefill s).ioaddr = s.ioaddr ∧ (nandbRefill s).io = s.io := by
  obtain ⟨cmd, column, wide, nonneg, missing, below, enough⟩ := astray
  by_cases empty : s.iolen = 0
  case neg =>
    rw [nandbRefill_of_left empty]
    exact ⟨m, ⟨cmd, column, wide, nonneg, missing, below, enough⟩, by omega, rfl, rfl⟩
  obtain ⟨m, rfl⟩ : ∃ m', m = m' + 1 := by
    refine ⟨m - 1, (Nat.succ_pred_eq_of_pos (Nat.pos_of_ne_zero fun none => ?_)).symm⟩
    rw [none, Nat.zero_mul] at enough
    omega
  rw [Nat.succ_mul, empty] at enough
  have enough' : ((n + 1 : Nat) : Int) ≤ w + (m * w : Nat) := by omega
  have nextPage := @page_nextPage s (by omega)
  have missing' : (nandbNextPage s).chip.pages ≤ (nandbNextPage s).page := by
    rw [nextPage, nandbNextPage_chip]
    omega
  have length := nextPage_loadLength column
  obtain ⟨page', column', chip', ioaddr, io⟩ := nandbLoadPage_astray missing'
  rw [nextPage] at page'
  rw [column_nextPage] at column'
  rw [nandbNextPage_chip] at chip'
  rw [nandbRefill_eq empty cmd]
  have left : 0 < (nandbLoadPage (nandbNextPage s)).iolen := by
    rw [nandbLoadPage_iolen, length]
    exact Int.natCast_pos.mpr wide
  refine ⟨m, ⟨?_, ?_, wide, Int.le_of_lt left, ?_, ?_, ?_⟩, left, ioaddr.trans ?_, io.trans ?_⟩
  · rw [nandbLoadPage_cmd, nandbNextPage_cmd, cmd]
  · rw [column']
    exact column
  · rw [page', chip']
    omega
  · rw [page']
    omega
  · rw [nandbLoadPage_iolen, length]
    exact enough'
  · rw [nandbNextPage]
  · rw [nandbNextPage]

/-- One byte has been read behind the cursor `k`. -/
def NandBflash.consume (s : NandBflash) (k : Nat) : NandBflash :=
  { s with iolen := s.iolen - 1, ioaddr := some (k + 1) }

theorem Astray.consume (astray : Astray s w m (n + 1)) (left : 0 < s.iolen) :
    Astray (s.consume k) w m n := by
  obtain ⟨cmd, column, wide, nonneg, missing, below, enough⟩ := astray
  have length : (s.consume k).iolen = s.iolen - 1 := rfl
  exact ⟨cmd, column, wide, by omega, missing, below, by omega⟩

/-- The reads deliver what is behind the cursor in the buffer, and nothing else. -/
theorem transfer_astray (astray : Astray s w m n) :
    (∃ t, transfer s (List.replicate n .readData8) = .ok (t, data)) ↔
      n = 0 ∧ data = [] ∨ ∃ k, s.ioaddr = some k ∧ k + n ≤ ioSize ∧
        data = (List.range n).map fun i => s.io (k + i) := by
  induction n generalizing s m data with
  | zero =>
    rw [List.replicate_zero, transfer_nil]
    constructor
    · intro read
      obtain ⟨t, done⟩ := read
      cases done
      exact Or.inl ⟨rfl, rfl⟩
    · intro given
      rcases given with ⟨-, rfl⟩ | ⟨k, -, -, rfl⟩
      · exact ⟨s, rfl⟩
      · exact ⟨s, rfl⟩
  | succ n ih =>
    obtain ⟨m', refilled, left, ioaddr, io⟩ := astray.refill
    -- the step at a cursor inside the buffer
    have step : ∀ k, s.ioaddr = some k → k < ioSize → busStep s .readData8 =
        .ok ((nandbRefill s).consume k, some (s.io k)) := by
      intro k cursor inside
      simp only [busStep, nandbReadData8, ioaddr, cursor]
      rw [if_neg (by omega), if_pos inside, if_pos (by rw [refilled.cmd]; decide), ← io]
      rfl
    have rest : ∀ k (rest : List Byte),
        (∃ t, transfer ((nandbRefill s).consume k) (List.replicate n .readData8) =
          .ok (t, rest)) ↔ n = 0 ∧ rest = [] ∨ ∃ k', some (k + 1) = some k' ∧
            k' + n ≤ ioSize ∧ rest = (List.range n).map fun i => s.io (k' + i) := by
      intro k rest
      rw [← io]
      exact ih (refilled.consume left)
    have bytes : ∀ k, (List.range (n + 1)).map (fun i => s.io (k + i)) =
        s.io k :: (List.range n).map fun i => s.io (k + 1 + i) := by
      intro k
      rw [List.range_succ_eq_map, List.map_cons, List.map_map, Nat.add_zero]
      congr 1
      refine List.map_congr_left fun i _ => ?_
      rw [Function.comp_apply, Nat.succ_eq_add_one, Nat.add_assoc, Nat.add_comm 1 i]
    rw [List.replicate_succ]
    constructor
    · intro read
      obtain ⟨t, done⟩ := read
      obtain ⟨y, out, later, head, tail, rfl⟩ := of_transfer_cons done
      obtain ⟨r, k, rfl, -, cursor, inside, -⟩ := of_busStep_readData8 head
      rw [ioaddr] at cursor
      cases head.symm.trans (step k cursor inside)
      refine Or.inr ⟨k, cursor, ?_⟩
      rcases (rest k later).mp ⟨t, tail⟩ with ⟨rfl, rfl⟩ | ⟨k', same, room, rfl⟩
      · exact ⟨inside, rfl⟩
      · cases same
        exact ⟨by omega, (bytes k).symm⟩
    · intro given
      rcases given with none | ⟨k, cursor, room, rfl⟩
      · exact absurd none.1 (Nat.succ_ne_zero n)
      · obtain ⟨t, tail⟩ := (rest k _).mpr (Or.inr ⟨k + 1, rfl, by omega, rfl⟩)
        exact ⟨t, by
          rw [bytes k]
          exact transfer_cons (step k cursor (by omega)) tail⟩

/-! ## The whole sequence -/

/-- The load of 0x30 leaves the latch as it is, and the buffer too if there is no page. -/
theorem busStep_load30 (s : NandBflash) :
    ∃ t, busStep s (.command 0x30#16) = .ok (t, none) ∧ t.bdrv = s.bdrv ∧ t.chip = s.chip ∧
      t.page = s.page ∧ t.column = s.column ∧
      (s.chip.pages ≤ s.page → t.io = s.io ∧ t.ioaddr = s.ioaddr) := by
  refine ⟨_, busStep_load (Or.inl rfl), ?_⟩
  rcases Nat.lt_or_ge s.page s.chip.pages with present | missing
  · rw [nandbLoadPage_eq present]
    exact ⟨rfl, rfl, rfl, rfl, fun missing => absurd present (not_lt.mpr missing)⟩
  · rw [nandbLoadPage_missing missing]
    exact ⟨rfl, rfl, rfl, rfl, fun _ => ⟨rfl, rfl⟩⟩

/-- The state before the reads: both pages have been loaded if they exist. -/
theorem transfer_openCache {p c : Nat} (eightBit : s.chip.info.busWidth = 1)
    (page : p < 2 ^ 24 - 1) (column : c < 65536) :
    ∃ y, transfer s (.command 0x00 :: latchBytes p c ++ [.command 0x30, .command 0x31]) =
        .ok ({ nandbLoadPage y with cmd := 0x31#16 }, []) ∧
      y.bdrv = s.bdrv ∧ y.chip = s.chip ∧ y.column = c ∧
      y.page = p + 1 + 2 ^ 24 * (lane s.addrHigh 1).toNat ∧
      (s.chip.pages ≤ p + 2 ^ 24 * (lane s.addrHigh 1).toNat →
        y.io = s.io ∧ y.ioaddr = s.ioaddr) := by
  let x : NandBflash := { s with iolen := 0, cmd := 0x00#16 }
  have command : busStep s (.command 0x00#16) = .ok (x.latch x.addrLow x.addrHigh 0, none) := rfl
  have address := @transfer_latchBytes x p c s.addrLow eightBit
  have page' : (x.latched p c).page = p + 2 ^ 24 * (lane s.addrHigh 1).toNat :=
    latched_page (by omega)
  have column' : (x.latched p c).column = c := latched_column column
  have same : (x.latched p c).bdrv = s.bdrv ∧ (x.latched p c).chip = s.chip ∧
      (x.latched p c).io = s.io ∧ (x.latched p c).ioaddr = s.ioaddr := ⟨rfl, rfl, rfl, rfl⟩
  have latched := transfer_cons command address
  generalize x.latched p c = y at latched page' column' same
  obtain ⟨bdrv, chip, io, ioaddr⟩ := same
  obtain ⟨z, load, bdrv', chip', page'', column'', buffer⟩ := busStep_load30 y
  have next : busStep z (.command 0x31#16) =
      .ok ({ nandbLoadPage (nandbNextPage z) with cmd := 0x31#16 }, none) := rfl
  have lane := (lane s.addrHigh 1).isLt
  refine ⟨nandbNextPage z,
    transfer_append latched (transfer_cons load (transfer_cons next transfer_nil)), ?_, ?_, ?_, ?_,
    fun missing => ?_⟩
  · rw [nandbNextPage_bdrv, bdrv', bdrv]
  · rw [nandbNextPage_chip, chip', chip]
  · rw [column_nextPage, column'', column']
  · rw [page_nextPage (by omega), page'', page']
    omega
  · obtain ⟨io', ioaddr'⟩ := buffer (by rw [chip, page']; exact missing)
    rw [nandbNextPage]
    exact ⟨io'.trans io, ioaddr'.trans ioaddr⟩

/-- The reads deliver the pages after page `p` exactly when the latch was clean, nothing is
read, or the buffer happens to hold the same bytes behind the cursor. -/
theorem cache_read_streams_iff (s : NandBflash) (p c n : Nat)
    (eightBit : s.chip.info.busWidth = 1) (size : s.bdrv.size = s.chip.imageSize)
    (present : p < s.chip.pages) (column : c < 2112)
    (within : n ≤ (s.chip.pages - (p + 1)) * (2112 - c)) :
    (∃ t, transfer s (cacheRead p c n) =
        .ok (t, ((imageBytes s.bdrv).stream (p + 1) c (s.chip.pages - (p + 1))).take n)) ↔
      LatchClean s ∨ n = 0 ∨ ∃ k, s.ioaddr = some k ∧ k + n ≤ ioSize ∧
        ((imageBytes s.bdrv).stream (p + 1) c (s.chip.pages - (p + 1))).take n =
          (List.range n).map fun i => s.io (k + i) := by
  have below := pages_lt s.chip
  obtain ⟨y, opened, bdrv, chip, column', page, buffer⟩ :=
    @transfer_openCache s p c eightBit (by omega) (by omega)
  have whole : ∀ data, (∃ t, transfer s (cacheRead p c n) = .ok (t, data)) ↔
      ∃ t, transfer { nandbLoadPage y with cmd := 0x31#16 } (List.replicate n .readData8) =
        .ok (t, data) := fun data =>
    ⟨fun ⟨t, done⟩ => ⟨t, of_transfer_append opened done⟩,
      fun ⟨t, done⟩ => ⟨t, transfer_append opened done⟩⟩
  rw [whole]
  by_cases clean : LatchClean s
  · refine iff_of_true ?_ (Or.inl clean)
    rw [show (lane s.addrHigh 1).toNat = 0 from clean, Nat.mul_zero, Nat.add_zero] at page
    rcases Nat.lt_or_ge (p + 1) s.chip.pages with more | last
    case inr =>
      rw [Nat.sub_eq_zero_of_le last, Nat.zero_mul, Nat.le_zero] at within
      rw [within]
      exact ⟨_, rfl⟩
    have count : s.chip.pages - (p + 1) = s.chip.pages - (p + 1) - 1 + 1 := by omega
    rw [count] at within ⊢
    obtain ⟨t, done⟩ := @transfer_stream y n (s.chip.pages - (p + 1) - 1)
      (by rw [bdrv, chip, size]) (by rw [column']; exact column) (by rw [page, chip]; omega)
      (by rw [column']; exact within)
    rw [bdrv, page, column'] at done
    exact ⟨t, done⟩
  · rw [or_iff_right clean]
    -- neither page exists, and none of the later ones does
    have high : 1 ≤ (lane s.addrHigh 1).toNat := Nat.pos_of_ne_zero clean
    have bound := (lane s.addrHigh 1).isLt
    obtain ⟨io, ioaddr⟩ := buffer (by omega)
    have missing : y.chip.pages ≤ y.page := by
      rw [page, chip]
      omega
    have astray := @astray_load y n (s.chip.pages - (p + 1)) (2112 - c) missing
      (by omega) (by omega) (by omega) (by rw [Nat.succ_mul]; omega)
    obtain ⟨-, -, -, ioaddr', io'⟩ := nandbLoadPage_astray missing
    have cursor : NandBflash.ioaddr { nandbLoadPage y with cmd := 0x31#16 } = s.ioaddr :=
      ioaddr'.trans ioaddr
    have held : NandBflash.io { nandbLoadPage y with cmd := 0x31#16 } = s.io := io'.trans io
    rw [transfer_astray astray, cursor, held]
    refine or_congr_left (and_iff_left_of_imp fun none => ?_)
    rw [none, List.take_zero]

/-- Only page 0x10000 differs from a blank one. -/
def carryImage : ByteFile :=
  .ofBuf pavoChip.imageSize fun i => if i / 2112 = 0x10000 then 0x5a else 0xff

/-- Two bytes of page 0xffff and two of page 0x10000. -/
theorem cache_read_carries :
    ∃ t, transfer (nandbPowerOn pavoChip carryImage) (cacheRead 0xfffe 2110 4) =
      .ok (t, [0xff, 0xff, 0x5a, 0x5a]) := by
  have clean : LatchClean (nandbPowerOn pavoChip carryImage) := by
    rw [LatchClean]
    decide
  obtain ⟨t, done⟩ := (cache_read_streams_iff (nandbPowerOn pavoChip carryImage) 0xfffe 2110 4 rfl
    rfl (by decide) (by decide) (by decide)).mpr (Or.inl clean)
  have streamed : ((imageBytes carryImage).stream (0xfffe + 1) 2110 (458751 + 1 + 1)).take
      (2112 - 2110 + (2112 - 2110 + 0)) = [0xff, 0xff, 0x5a, 0x5a] := by
    rw [PageArray.take_stream_add, PageArray.take_stream_add, List.take_zero]
    decide
  have count : pavoChip.pages - (0xfffe + 1) = 458751 + 1 + 1 := by decide
  have chip : (nandbPowerOn pavoChip carryImage).chip = pavoChip := rfl
  have bdrv : (nandbPowerOn pavoChip carryImage).bdrv = carryImage := rfl
  rw [chip, bdrv, count] at done
  rw [← streamed]
  exact ⟨t, done⟩

/-- After the carry into bit 8 of `addr_high` the first read finds no page and no cursor. -/
theorem cache_read_after_carry :
    transfer (nandbPowerOn pavoChip (blankImage pavoChip)) (carryIntoLatch ++ cacheRead 0 0 1) =
        .error .outOfBounds ∧
      ∃ s, transfer (nandbPowerOn pavoChip (blankImage pavoChip)) carryIntoLatch = .ok (s, []) ∧
        s.chip = pavoChip ∧ s.bdrv = blankImage pavoChip ∧
        ¬ ∃ t, transfer s (cacheRead 0 0 1) =
          .ok (t, ((imageBytes s.bdrv).stream 1 0 (s.chip.pages - 1)).take 1) := by
  have stops : transfer (nandbPowerOn pavoChip (blankImage pavoChip))
      (carryIntoLatch ++ cacheRead 0 0 1) = .error .outOfBounds := rfl
  have carries : ∃ s, transfer (nandbPowerOn pavoChip (blankImage pavoChip)) carryIntoLatch =
      .ok (s, []) ∧ s.chip = pavoChip ∧ s.bdrv = blankImage pavoChip := ⟨_, rfl, rfl, rfl⟩
  obtain ⟨s, carried, chip, bdrv⟩ := carries
  refine ⟨stops, s, carried, chip, bdrv, fun read => ?_⟩
  obtain ⟨t, done⟩ := read
  cases stops.symm.trans (transfer_append carried done)

end Streams

end VirtualNoah
