import VirtualNoah.Yaffs.Pages

/-!
# The plan of an image

What the walk would do without a failure depends on the tree alone: the entries it
meets, what it reads of them and the chunks it writes.  A part of a run is in step with
its plan (`OnPlan`): as long as nothing is missed, chunk `k` is written by calls `2 * k`
and `2 * k + 1` of `write`, and the part misses nothing if and only if nothing of its
plan fails.
-/

namespace VirtualNoah

open ByteStore

/-! ## The plan -/

/-- An entry of a walk on which nothing fails: its path, and the type of its object unless
it is of no type that is handled. -/
structure Met where
  path : List Byte
  entry : EntryInfo
  type : Option ObjectType

mutual

/-- The entries met, and the inodes with an object, the ones before included. -/
def Entry.met (path : List Byte) (seen : List (BitVec 64 × BitVec 64)) :
    Entry → List Met × List (BitVec 64 × BitVec 64)
  | .mk entry children =>
    if Ignored entry.name then ([], seen)
    else if ¬ Handled entry.stats.mode then ([⟨fullName path entry.name, entry, none⟩], seen)
    else if entry.inode ∈ seen then
      ([⟨fullName path entry.name, entry, some .hardlink⟩], seen)
    else if objectType entry.stats.mode = .directory ∧ entry.opendirOk = true then
      let (below, seen) := metOf (fullName path entry.name) (entry.inode :: seen) children
      (⟨fullName path entry.name, entry, some .directory⟩ :: below, seen)
    else
      ([⟨fullName path entry.name, entry, some (objectType entry.stats.mode)⟩],
        entry.inode :: seen)

def metOf (path : List Byte) (seen : List (BitVec 64 × BitVec 64)) :
    List Entry → List Met × List (BitVec 64 × BitVec 64)
  | [] => ([], seen)
  | entry :: entries =>
    let (first, seen) := entry.met path seen
    let (rest, seen) := metOf path seen entries
    (first ++ rest, seen)

end

/-- The file opens, and no read up to the one that finds its end fails. -/
def FileReads (entry : EntryInfo) : Prop :=
  ∃ data, entry.data = some data ∧ ∀ n, data.readFails = some n → dataCount data.content < n

/-- The chunks of an object. -/
def objectCount (type : ObjectType) (entry : EntryInfo) : Nat :=
  if type = .file then 1 + (entry.data.map fun data => dataCount data.content).getD 0 else 1

structure Met.Reads (lstat : List Byte → Int) (m : Met) : Prop where
  lstat : 0 ≤ lstat m.path
  content : m.type = some .file → FileReads m.entry
  opendir : m.type = some .directory → m.entry.opendirOk = true

def Met.chunks (m : Met) : Nat := (m.type.map (objectCount · m.entry)).getD 0

def chunkTotal (mets : List Met) : Nat := (mets.map Met.chunks).sum

/-- `count` chunks from chunk `first` on are written completely, if chunk `k` is written by
calls `2 * k` and `2 * k + 1`. -/
def WritesWhole (env : Env) (first count : Nat) : Prop :=
  ∀ k, first ≤ k → k < first + count →
    env.write (2 * k) chunkSize = chunkSize ∧ env.write (2 * k + 1) spareSize = spareSize

/-- Nothing that is planned fails. -/
def Untroubled (env : Env) (lstat : List Byte → Int) (root : EntryInfo) (path : List Byte)
    (entries : List Entry) : Prop :=
  root.opendirOk = true ∧ (∀ m ∈ (metOf path [] entries).1, m.Reads lstat) ∧
    WritesWhole env 0 (1 + chunkTotal (metOf path [] entries).1)

/-- The walk takes place, and meets more inodes than the object table has room for. -/
def TableFull (env : Env) (root : EntryInfo) (path : List Byte) (entries : List Entry) : Prop :=
  (env.write 0 chunkSize < 0 ∨ env.write 1 spareSize ≠ 0) ∧ root.opendirOk = true ∧
    maxObjects < (metOf path [] entries).2.length

/-! ## What an object misses -/

/-- The data or the spare bytes of the next chunk are not written completely. -/
def chunkMissed (env : Env) (out : Output) : Prop :=
  env.write out.calls chunkSize < chunkSize ∨ env.write (out.calls + 1) spareSize < spareSize

/-- A read of the file fails, or a chunk of it is missed. -/
def copyMissed (env : Env) (objId : Int) (data : FileData) : Nat → Nat → Fd → Output → Prop
  | 0, _, _, _ => False
  | rounds + 1, chunk, h, out =>
    data.readFails = some chunk ∨
      0 < (h.read (fill 0xff) chunkSize).1 ∧ (chunkMissed env out ∨ ∃ error out',
        writeChunk env out ⟨(h.read (fill 0xff) chunkSize).2.1, objId, chunk + 1,
          (h.read (fill 0xff) chunkSize).1⟩ = .ok (error, out') ∧
        copyMissed env objId data rounds (chunk + 1) (h.read (fill 0xff) chunkSize).2.2 out')

/-- The header of an object is missed, or the content of a regular file. -/
def emitMissed (env : Env) (out : Output) (h : Header) : Prop :=
  chunkMissed env out ∨ ∃ error out',
    writeObjectHeader env out h h.target = .ok (error, out') ∧ h.type = .file ∧ 0 ≤ error ∧
    (h.entry.data = none ∨ ∃ data, h.entry.data = some data ∧
      copyMissed env h.objId data (data.content.size / chunkSize + 2) 0 ⟨data.content, 0⟩
        { out' with error := error })

/-! ## In step with the plan -/

theorem writesWhole_zero {env : Env} {first : Nat} : WritesWhole env first 0 := by
  intro k low high
  omega

theorem writesWhole_add {env : Env} {first a b : Nat} :
    WritesWhole env first (a + b) ↔ WritesWhole env first a ∧ WritesWhole env (first + a) b := by
  constructor
  · intro whole
    exact ⟨fun k low high => whole k low (by omega), fun k low high =>
      whole k (by omega) (by omega)⟩
  · intro whole k low high
    by_cases early : k < first + a
    · exact whole.1 k low early
    · exact whole.2 k (by omega) (by omega)

/-- A part of a run that starts at call `calls` of `write` and ends at `calls'`: if all
calls before it belong to whole chunks, it misses nothing if and only if what it has to
read can be read and its `count` chunks are written completely. -/
structure OnPlan (env : Env) (calls calls' : Nat) (missed reads : Prop) (count : Nat) : Prop where
  whole : ∀ n, calls = 2 * n → (¬ missed ↔ reads ∧ WritesWhole env n count)
  next : ∀ n, calls = 2 * n → ¬ missed → calls' = 2 * (n + count)

namespace OnPlan

variable {env : Env} {calls mid calls' count a b : Nat} {missed first rest reads r r' : Prop}

theorem congr (step : OnPlan env calls calls' first r a) (same : missed ↔ first)
    (reads' : reads ↔ r) (count' : count = a) : OnPlan env calls calls' missed reads count := by
  cases propext same
  cases propext reads'
  cases count'
  exact step

/-- Nothing is written. -/
theorem refl (decided : ¬ missed ↔ reads) : OnPlan env calls calls missed reads 0 where
  whole := fun n _ => by rw [decided, and_iff_left writesWhole_zero]
  next := fun n start _ => start

theorem seq (one : OnPlan env calls mid first r a) (two : OnPlan env mid calls' rest r' b) :
    OnPlan env calls calls' (first ∨ rest) (r ∧ r') (a + b) where
  whole := by
    intro n start
    have whole := one.whole n start
    rw [not_or, writesWhole_add]
    by_cases early : first
    · have left : ¬ (r ∧ WritesWhole env n a) := fun both => whole.mpr both early
      constructor
      · intro none
        exact absurd early none.1
      · intro all
        exact absurd ⟨all.1.1, all.2.1⟩ left
    · rw [two.whole (n + a) (one.next n start early), whole]
      tauto
  next := by
    intro n start none
    rw [not_or] at none
    rw [two.next (n + a) (one.next n start none.1) none.2, Nat.add_assoc]

/-- Once something is missed, the rest does not matter. -/
theorem of_missed (one : OnPlan env calls mid first r a) (early : first) :
    OnPlan env calls calls' (first ∨ rest) (r ∧ r') (a + b) where
  whole := by
    intro n start
    rw [writesWhole_add]
    constructor
    · intro none
      exact absurd (Or.inl early) none
    · intro all
      exact absurd early ((one.whole n start).mpr ⟨all.1.1, all.2.1⟩)
  next := fun _ _ none => absurd (Or.inl early) none

/-- What cannot be read is missed, whatever is written. -/
theorem of_unread (missed' : missed) (unread : ¬ reads) :
    OnPlan env calls calls' missed reads count where
  whole := fun _ _ => ⟨fun none => absurd missed' none, fun all => absurd all.1 unread⟩
  next := fun _ _ none => absurd missed' none

end OnPlan

section Chunks

variable {env : Env} {out out' : Output}

theorem not_chunkMissed_iff {n : Nat} (start : out.calls = 2 * n) :
    ¬ chunkMissed env out ↔ WritesWhole env n 1 := by
  have data := env.bound (2 * n) chunkSize
  have spare := env.bound (2 * n + 1) spareSize
  rw [chunkMissed, start]
  constructor
  · intro none k low high
    obtain rfl : k = n := by omega
    rw [not_or] at none
    exact ⟨le_antisymm data (not_lt.mp none.1), le_antisymm spare (not_lt.mp none.2)⟩
  · intro whole
    obtain ⟨data, spare⟩ := whole n (Nat.le_refl n) (Nat.lt_succ_self n)
    rw [data, spare]
    omega

/-- A chunk that is not missed takes two calls, and the result is that of the second one. -/
theorem writeChunk_whole {chunk : Chunk} (whole : ¬ chunkMissed env out) :
    ∃ out', writeChunk env out chunk = .ok (64, out') ∧ out'.calls = out.calls + 2 := by
  rw [chunkMissed, not_or] at whole
  have data := le_antisymm (env.bound out.calls chunkSize) (not_lt.mp whole.1)
  have spare := le_antisymm (env.bound (out.calls + 1) spareSize) (not_lt.mp whole.2)
  obtain ⟨buf, room⟩ := spareBuf_ok env (yaffsPackTags2 chunk.tags)
  simp only [writeChunk, Output.write, room, data, spare]
  rw [if_neg (by rw [chunkSize]; omega)]
  exact ⟨_, rfl, rfl⟩

theorem writeChunk_onPlan {chunk : Chunk} {error : Int}
    (written : writeChunk env out chunk = .ok (error, out')) :
    OnPlan env out.calls out'.calls (chunkMissed env out) True 1 where
  whole := fun n start => by rw [not_chunkMissed_iff start, true_and]
  next := by
    intro n start whole
    obtain ⟨m, written', calls⟩ := @writeChunk_whole env out chunk whole
    cases written.symm.trans written'
    omega

/-- The copy of a file from chunk `k` on: the read after the last chunk is the one that
finds the end. -/
theorem copyFile_onPlan {objId : Int} {data : FileData} {rounds k m : Nat}
    (left : k + m = dataCount data.content) (enough : m < rounds) :
    ∃ out', copyFile env objId data rounds k
        ⟨data.content, min (2048 * k) data.content.size⟩ out = .ok out' ∧
      OnPlan env out.calls out'.calls
        (copyMissed env objId data rounds k
          ⟨data.content, min (2048 * k) data.content.size⟩ out)
        (∀ j, data.readFails = some j → j < k ∨ k + m < j) m := by
  rw [dataCount] at left
  induction m generalizing rounds k out with
  | zero =>
    obtain ⟨rounds, rfl⟩ : ∃ r, rounds = r + 1 := ⟨rounds - 1, by omega⟩
    have done : ¬ 0 < ((Fd.mk data.content (min (2048 * k) data.content.size)).read
        (fill 0xff) chunkSize).1 :=
      show ¬ 0 < min 2048 (data.content.size - min (2048 * k) data.content.size) by omega
    by_cases fails : data.readFails = some k
    · refine ⟨{ out with error := -1 }, if_pos fails, OnPlan.of_unread (Or.inl fails) ?_⟩
      intro reads
      have := reads k fails
      omega
    · refine ⟨out, ?_, OnPlan.refl ?_⟩
      · rw [copyFile, if_neg fails]
        exact if_neg done
      · rw [copyMissed]
        constructor
        · intro _ j at_j
          have other : j ≠ k := fun same => fails (same ▸ at_j)
          omega
        · intro _ missed
          rcases missed with now | later
          · exact fails now
          · exact done later.1
  | succ m ih =>
    obtain ⟨rounds, rfl⟩ : ∃ r, rounds = r + 1 := ⟨rounds - 1, by omega⟩
    have inside : 2048 * k ≤ data.content.size := by omega
    have start : min (2048 * k) data.content.size = 2048 * k := Nat.min_eq_left inside
    have some : 0 < (dataChunk objId data.content k).nBytes :=
      show 0 < min 2048 (data.content.size - 2048 * k) by omega
    by_cases fails : data.readFails = Option.some k
    · refine ⟨{ out with error := -1 }, if_pos fails, OnPlan.of_unread (Or.inl fails) ?_⟩
      intro reads
      have := reads k fails
      omega
    obtain ⟨error, mid, written, -⟩ := @writeChunk_ok env out
      ⟨(dataChunk objId data.content k).data, objId, k + 1, (dataChunk objId data.content k).nBytes⟩
    obtain ⟨out', copied, rest⟩ := @ih mid rounds (k + 1) (by omega) (by omega)
    refine ⟨out', ?_, ((writeChunk_onPlan written).seq rest).congr ?_ ?_ (Nat.add_comm m 1)⟩
    · rw [copyFile, if_neg fails, start, read_dataChunk objId inside]
      dsimp only
      rw [if_pos some, written]
      exact copied
    · rw [copyMissed, start, read_dataChunk objId inside, or_iff_right fails,
        and_iff_right some]
      refine or_congr_right ?_
      constructor
      · intro missed
        obtain ⟨error', mid', written', later⟩ := missed
        cases written.symm.trans written'
        exact later
      · intro later
        exact ⟨error, mid, written, later⟩
    · rw [true_and]
      refine forall_congr' fun j => forall_congr' fun at_j => ?_
      have other : j ≠ k := fun same => fails (same ▸ at_j)
      omega

theorem fileReads_iff {entry : EntryInfo} {data : FileData} (opened : entry.data = some data) :
    FileReads entry ↔
      ∀ j, data.readFails = some j → j < 0 ∨ 0 + dataCount data.content < j := by
  constructor
  · intro reads j at_j
    obtain ⟨data', opened', late⟩ := reads
    cases opened.symm.trans opened'
    rw [Nat.zero_add]
    exact Or.inr (late j at_j)
  · intro late
    refine ⟨data, opened, fun j at_j => ?_⟩
    have := late j at_j
    omega

/-- An object is in step if its chunks are written and, for a file, its content is read. -/
theorem emitObject_onPlan (h : Header) :
    ∃ out', emitObject env out h = .ok out' ∧
      OnPlan env out.calls out'.calls (emitMissed env out h)
        (h.type = .file → FileReads h.entry) (objectCount h.type h.entry) := by
  let logged : Output := { out with headers := out.headers ++ [h] }
  obtain ⟨error, mid, written, -⟩ := @writeChunk_ok env logged h.chunk
  have header : writeObjectHeader env out h h.target = .ok (error, mid) := written
  have chunk : OnPlan env out.calls mid.calls (chunkMissed env out) True 1 :=
    @writeChunk_onPlan env logged mid _ error written
  have missed : emitMissed env out h ↔ chunkMissed env out ∨ h.type = .file ∧ 0 ≤ error ∧
      (h.entry.data = none ∨ ∃ data, h.entry.data = some data ∧
        copyMissed env h.objId data (data.content.size / chunkSize + 2) 0 ⟨data.content, 0⟩
          { mid with error := error }) := by
    refine or_congr_right ?_
    constructor
    · intro given
      obtain ⟨error', mid', written', rest⟩ := given
      cases header.symm.trans written'
      exact rest
    · intro rest
      exact ⟨error, mid, header, rest⟩
  rw [emitObject, show writeObjectHeader env out h _ = _ from header]
  dsimp only
  by_cases file : h.type = .file
  case neg =>
    rw [if_neg fun both => file both.1]
    refine ⟨_, rfl, chunk.congr ?_ ?_ (if_neg file)⟩
    · rw [missed, or_iff_left fun rest => file rest.1]
    · exact iff_of_true (fun is => absurd is file) trivial
  have reads : (h.type = .file → FileReads h.entry) ↔ FileReads h.entry := forall_prop_of_true file
  rw [objectCount, if_pos file]
  by_cases failed : error < 0
  · -- the header is missed, and the content is not tried
    rw [if_neg fun both => absurd both.2 (not_le.mpr failed)]
    have early : chunkMissed env out := by
      by_contra whole
      obtain ⟨m, written', -⟩ := @writeChunk_whole env logged h.chunk whole
      cases written.symm.trans written'
      omega
    exact ⟨_, rfl, (chunk.of_missed early).congr missed (by rw [reads, true_and]) rfl⟩
  rw [if_pos ⟨file, not_lt.mp failed⟩]
  rw [and_iff_right file, and_iff_right (not_lt.mp failed)] at missed
  cases opened : h.entry.data with
  | none =>
    refine ⟨_, rfl, OnPlan.of_unread (missed.mpr (Or.inr (Or.inl opened))) fun reads' => ?_⟩
    obtain ⟨data, opened', -⟩ := reads' file
    cases opened.symm.trans opened'
  | some data =>
    have enough : dataCount data.content < data.content.size / 2048 + 2 := by
      rw [dataCount]
      omega
    obtain ⟨out', copied, copy⟩ := @copyFile_onPlan env { mid with error := error } h.objId data
      _ 0 _ (Nat.zero_add _) enough
    rw [Nat.mul_zero, Nat.zero_min] at copied copy
    refine ⟨out', copied, (chunk.seq copy).congr ?_ ?_ rfl⟩
    · rw [missed, opened]
      simp only [reduceCtorEq, false_or, Option.some.injEq, exists_eq_left']
      exact Iff.rfl
    · rw [reads, true_and]
      exact fileReads_iff opened

end Chunks

end VirtualNoah
