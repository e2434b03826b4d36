import VirtualNoah.Yaffs.Mkyaffs2image

/-!
# What the walk does

`Visit` says everything one entry does to the state, whatever the writes return,
and `processEntries_rule` is the induction over the tree: an invariant that the
visits of the entries keep holds after the walk, which completes.
-/

namespace VirtualNoah

open ByteStore SortedTable

variable {env : Env} {out : Output}

/-! ## Emitting objects -/

/-- Both layouts have room for the tags. -/
theorem spareBuf_ok (env : Env) (pt : PackedTags2) : ∃ spare, spareBuf env pt = .ok spare := by
  rw [spareBuf]
  split
  next => exact ⟨_, rfl⟩
  next tags =>
    have layout : env.layoutNo = 1 := by
      have bound : env.layoutNo < 2 := env.layout
      omega
    rw [layout, nandmtd2Pt2buf_layout_one]
    exact ⟨_, rfl⟩

theorem writeChunk_ok (chunk : Chunk) : ∃ error out', writeChunk env out chunk = .ok (error, out') ∧
    out'.headers = out.headers ∧ out'.chunks = out.chunks ++ [chunk] := by
  obtain ⟨spare, room⟩ := spareBuf_ok env (yaffsPackTags2 chunk.tags)
  simp only [writeChunk, Output.write, room]
  split
  · exact ⟨_, _, rfl, rfl, rfl⟩
  · exact ⟨_, _, rfl, rfl, rfl⟩

/-- The chunks of headers, by their number. -/
def Output.headerChunks (out : Output) : List Chunk :=
  out.chunks.filter fun chunk => chunk.chunkId = 0

/-- The copy of a file has chunks of data only. -/
theorem copyFile_ok {objId : Int} {data : FileData} {rounds chunk : Nat} {h : Fd} :
    ∃ out', copyFile env objId data rounds chunk h out = .ok out' ∧
      out'.headers = out.headers ∧ out'.headerChunks = out.headerChunks := by
  induction rounds generalizing chunk h out with
  | zero => exact ⟨out, rfl, rfl, rfl⟩
  | succ rounds ih =>
    rw [copyFile]
    split
    next => exact ⟨_, rfl, rfl, rfl⟩
    next =>
      dsimp only
      split
      next =>
        obtain ⟨error, m, written, headers, chunks⟩ := @writeChunk_ok env out
          ⟨(h.read (fill 0xff) chunkSize).2.1, objId, chunk + 1, (h.read (fill 0xff) chunkSize).1⟩
        obtain ⟨out', copied, headers', chunks'⟩ :=
          @ih m (chunk + 1) (h.read (fill 0xff) chunkSize).2.2
        have same : m.headerChunks = out.headerChunks := by
          rw [Output.headerChunks, chunks, List.filter_append]
          exact List.append_nil _
        simp only [written]
        exact ⟨out', copied, headers'.trans headers, chunks'.trans same⟩
      next => exact ⟨_, rfl, rfl, rfl⟩

/-- More headers have been written, and their chunks are the ones that are more. -/
def Output.Adds (out out' : Output) (more : List Header) : Prop :=
  out'.headers = out.headers ++ more ∧
    out'.headerChunks = out.headerChunks ++ more.map Header.chunk

theorem Output.Adds.none (out : Output) : out.Adds out [] :=
  ⟨(List.append_nil _).symm, (List.append_nil _).symm⟩

theorem Output.Adds.trans {m out' : Output} {some more : List Header} (first : out.Adds m some)
    (second : m.Adds out' more) : out.Adds out' (some ++ more) := by
  refine ⟨?_, ?_⟩
  · rw [second.1, first.1, List.append_assoc]
  · rw [second.2, first.2, List.map_append, List.append_assoc]

/-- Nothing has been written at the start. -/
theorem Output.Adds.of_start {written : List Header} (added : Mkyaffs.start.out.Adds out written) :
    out.headers = written ∧ out.headerChunks = out.headers.map Header.chunk := by
  obtain ⟨headers, chunks⟩ := added
  exact ⟨headers, chunks.trans (congrArg (List.map Header.chunk) headers).symm⟩

theorem emitObject_ok (h : Header) :
    ∃ out', emitObject env out h = .ok out' ∧ out.Adds out' [h] := by
  obtain ⟨error, m, written, headers, chunks⟩ :=
    @writeChunk_ok env { out with headers := out.headers ++ [h] } h.chunk
  have added : m.headerChunks = out.headerChunks ++ [h.chunk] := by
    rw [Output.headerChunks, chunks, List.filter_append]
    rfl
  rw [Header.chunk] at written
  simp only [emitObject, writeObjectHeader, written]
  split
  next =>
    split
    next => exact ⟨_, rfl, headers, added⟩
    next data _ =>
      obtain ⟨out', copied, headers', chunks'⟩ := @copyFile_ok env { m with error := error }
        h.objId data (data.content.size / chunkSize + 2) 0 ⟨data.content, 0⟩
      exact ⟨out', copied, headers'.trans headers, chunks'.trans added⟩
  next => exact ⟨_, rfl, headers, added⟩

/-- An object that was emitted has left its header. -/
theorem emitObject_headers {out' : Output} {h : Header}
    (emitted : emitObject env out h = .ok out') : out.Adds out' [h] := by
  obtain ⟨m, emitted', headers⟩ := @emitObject_ok env out h
  cases emitted.symm.trans emitted'
  exact headers

/-! ## The object table -/

section Table

variable {objList : List ObjItem} {dev ino : BitVec 64}

/-- The table has the object for the inode. -/
def Known (objList : List ObjItem) (dev ino : BitVec 64) (item : ObjItem) : Prop :=
  item ∈ objList ∧ item.dev = dev ∧ item.ino = ino

theorem findObjInList_cases (ordered : Ordered objComparator objList) :
    (∃ item, Known objList dev ino item ∧ findObjInList objList dev ino = item.obj) ∨
      (∀ item, ¬ Known objList dev ino item) ∧ findObjInList objList dev ino = -1 := by
  have exactly := @bsearch_eq_some_iff _ objComparator objList
  cases search : bsearch (objCompare ⟨dev, ino, 0⟩) objList with
  | some item =>
    obtain ⟨member, equal⟩ := (exactly ordered).mp search
    obtain ⟨dev', ino'⟩ := objCompare_eq_zero.mp equal
    exact Or.inl ⟨item, ⟨member, dev'.symm, ino'.symm⟩, by rw [findObjInList, search]⟩
  | none =>
    refine Or.inr ⟨?_, by rw [findObjInList, search]⟩
    rintro item ⟨member, rfl, rfl⟩
    have found := (@exactly item ⟨item.dev, item.ino, 0⟩ ordered).mpr
      ⟨member, objCompare_eq_zero.mpr ⟨rfl, rfl⟩⟩
    exact absurd (search.symm.trans found) (by simp)

/-- An inode that is not in the table is added, and the table stays ordered. -/
theorem addObjToList_spec {obj : Int} (ordered : Ordered objComparator objList)
    (fresh : ∀ item, ¬ Known objList dev ino item) (room : objList.length < maxObjects) :
    ∃ objList', addObjToList objList dev ino obj = .ok objList' ∧
      Ordered objComparator objList' ∧
      ∀ item, item ∈ objList' ↔ item ∈ objList ∨ item = ⟨dev, ino, obj⟩ := by
  refine ⟨_, if_pos room, ordered_qsort ?_, fun item => ?_⟩
  · rw [List.pairwise_append]
    refine ⟨ordered.imp fun smaller => ne_of_lt smaller, List.pairwise_singleton _ _, ?_⟩
    intro item member new added
    rw [List.mem_singleton] at added
    subst added
    intro equal
    obtain ⟨dev', ino'⟩ := objCompare_eq_zero.mp equal
    exact fresh item ⟨member, dev', ino'⟩
  · rw [mem_qsort, List.mem_append, List.mem_singleton]

end Table

/-! ## One entry -/

/-- What an entry does: nothing, or a hard link to the object of its inode, or a new object. -/
inductive Visit (env : Env) (parent : Int) (entry : EntryInfo) (s s' : Mkyaffs) :
    Option Int → Prop
  | unhandled : ¬ Handled entry.stats.mode → s'.objList = s.objList → s'.objId = s.objId →
      s'.out = s.out → Visit env parent entry s s' none
  | linked (item : ObjItem) : Handled entry.stats.mode →
      Known s.objList entry.stats.dev entry.stats.ino item →
      s'.objList = s.objList → s'.objId = s.objId + 1 →
      emitObject env s.out ⟨s.objId, .hardlink, parent, item.obj, entry⟩ = .ok s'.out →
      Visit env parent entry s s' none
  | created : Handled entry.stats.mode →
      (∀ item, ¬ Known s.objList entry.stats.dev entry.stats.ino item) →
      Ordered objComparator s'.objList →
      (∀ item, item ∈ s'.objList ↔
        item ∈ s.objList ∨ item = ⟨entry.stats.dev, entry.stats.ino, s.objId⟩) →
      s'.objId = s.objId + 1 →
      emitObject env s.out ⟨s.objId, objectType entry.stats.mode, parent, -1, entry⟩ =
        .ok s'.out →
      Visit env parent entry s s'
        (if objectType entry.stats.mode = .directory then some s.objId else none)

/-- An entry is visited if the table is in order and has room for a new inode. -/
theorem processObject_visit {parent : Int} {path : List Byte} {entry : EntryInfo} {s : Mkyaffs}
    (ordered : Ordered objComparator s.objList) (positive : ∀ item ∈ s.objList, 0 < item.obj)
    (room : Handled entry.stats.mode →
      (∀ item, ¬ Known s.objList entry.stats.dev entry.stats.ino item) →
      s.objList.length < maxObjects) :
    ∃ opened s', processObject env parent path entry s = .ok (opened, s') ∧
      Visit env parent entry s s' opened := by
  rw [processObject]
  dsimp only
  split
  next unhandled => exact ⟨_, _, rfl, .unhandled unhandled rfl rfl rfl⟩
  next handled =>
    rw [not_not] at handled
    rcases @findObjInList_cases _ entry.stats.dev entry.stats.ino ordered with
      ⟨item, known, found⟩ | ⟨fresh, found⟩
    · obtain ⟨out, emitted, -⟩ := @emitObject_ok env s.out
        ⟨s.objId, .hardlink, parent, item.obj, entry⟩
      rw [if_pos (by rw [found]; exact positive item known.1), found, emitted]
      exact ⟨_, _, rfl, .linked item handled known rfl rfl emitted⟩
    · obtain ⟨objList, added, ordered', members⟩ :=
        @addObjToList_spec _ _ _ s.objId ordered fresh (room handled fresh)
      obtain ⟨out, emitted, -⟩ := @emitObject_ok env s.out
        ⟨s.objId, objectType entry.stats.mode, parent, -1, entry⟩
      rw [if_neg (by rw [found]; decide), added]
      dsimp only
      rw [emitted]
      exact ⟨_, _, rfl, .created handled fresh ordered' members rfl emitted⟩

/-! ## The tree -/

/-- A directory that the walk goes into. -/
def Opened (info : EntryInfo) : Prop := sIsDir info.stats.mode ∧ info.opendirOk = true

instance (info : EntryInfo) : Decidable (Opened info) := inferInstanceAs (Decidable (_ ∧ _))

mutual

def Entry.objects : Entry → List EntryInfo
  | .mk info children =>
    if Ignored info.name then []
    else info :: (if Opened info then objectsOf children else [])

/-- The entries of a tree but for `.` and `..`, the subdirectories opened included. -/
def objectsOf : List Entry → List EntryInfo
  | [] => []
  | entry :: entries => entry.objects ++ objectsOf entries

end

mutual

/-- The entry has its header below `parent`.  A header that is no hard link is that of a file
for a regular file and that of a directory for a directory, and what is below the directory has
its headers, too. -/
def Entry.Walked (headers : List Header) (parent : Int) : Entry → Prop
  | .mk info children =>
    Ignored info.name ∨ ¬ Handled info.stats.mode ∨ ∃ h ∈ headers, h.entry = info ∧
      h.parent = parent ∧ (h.type = .hardlink ∨ (sIsReg info.stats.mode → h.type = .file) ∧
        (sIsDir info.stats.mode → h.type = .directory ∧
          (info.opendirOk = true → Walked headers h.objId children)))

/-- All entries of a directory have their headers. -/
def Walked (headers : List Header) (parent : Int) : List Entry → Prop
  | [] => True
  | entry :: entries => entry.Walked headers parent ∧ Walked headers parent entries

end

mutual

theorem Entry.Walked.mono {headers more : List Header} {parent : Int} (part : headers ⊆ more) :
    ∀ {entry : Entry}, entry.Walked headers parent → entry.Walked more parent
  | .mk info children => by
    rw [Entry.Walked, Entry.Walked]
    refine Or.imp_right (Or.imp_right ?_)
    rintro ⟨h, member, same, below, types⟩
    refine ⟨h, part member, same, below, types.imp_right (And.imp_right fun inside directory => ?_)⟩
    exact (inside directory).imp_right fun walked opens => Walked.mono part (walked opens)

theorem Walked.mono {headers more : List Header} {parent : Int} (part : headers ⊆ more) :
    ∀ {entries : List Entry}, Walked headers parent entries → Walked more parent entries
  | [] => fun _ => trivial
  | _ :: _ => fun walked => ⟨walked.1.mono part, Walked.mono part walked.2⟩

end

theorem objectType_eq_directory {mode : BitVec 32} (directory : objectType mode = .directory) :
    sIsDir mode := by
  unfold objectType at directory
  split_ifs at directory
  assumption

theorem objectType_of_reg {mode : BitVec 32} (regular : sIsReg mode) : objectType mode = .file := by
  have other : ¬ sIsLnk mode := fun link => absurd (regular.symm.trans link) (by decide)
  rw [objectType, if_neg other, if_pos regular]

theorem objectType_of_dir {mode : BitVec 32} (directory : sIsDir mode) :
    objectType mode = .directory := by
  have link : ¬ sIsLnk mode := fun link => absurd (directory.symm.trans link) (by decide)
  have regular : ¬ sIsReg mode := fun regular => absurd (directory.symm.trans regular) (by decide)
  rw [objectType, if_neg link, if_neg regular, if_pos directory]

theorem objectType_ne_hardlink {mode : BitVec 32} : objectType mode ≠ .hardlink := by
  unfold objectType
  split_ifs <;> simp

/-- A visit of an entry of a handled type leaves its header. -/
theorem Visit.header {parent : Int} {entry : EntryInfo} {s s' : Mkyaffs} {opened : Option Int}
    (visit : Visit env parent entry s s' opened) (handled : Handled entry.stats.mode) :
    ∃ h, s.out.Adds s'.out [h] ∧ h.entry = entry ∧ h.parent = parent ∧
      (h.type = .hardlink ∨ h.type = objectType entry.stats.mode) ∧
      opened = if h.type = .directory then some h.objId else none := by
  cases visit with
  | unhandled unhandled => exact absurd handled unhandled
  | linked _ _ _ _ _ emitted =>
    exact ⟨_, emitObject_headers emitted, rfl, rfl, Or.inl rfl, rfl⟩
  | created _ _ _ _ _ emitted =>
    exact ⟨_, emitObject_headers emitted, rfl, rfl, Or.inr rfl, rfl⟩

/-- What a visit adds to the headers. -/
theorem Visit.headers {parent : Int} {entry : EntryInfo} {s s' : Mkyaffs} {opened : Option Int}
    (visit : Visit env parent entry s s' opened) :
    ∃ more, s.out.Adds s'.out more := by
  cases visit with
  | unhandled _ _ _ out => exact ⟨[], out ▸ .none s.out⟩
  | linked _ _ _ _ _ emitted => exact ⟨_, emitObject_headers emitted⟩
  | created _ _ _ _ _ emitted => exact ⟨_, emitObject_headers emitted⟩

section Rule

variable {Inv : Mkyaffs → Prop} {Parent : Mkyaffs → Int → Prop} {tree : List EntryInfo}

/-- A step of an invariant: the entry is visited, the invariant and the directories
seen so far stay, and the directory to process is one of them. -/
def Step (env : Env) (Inv : Mkyaffs → Prop) (Parent : Mkyaffs → Int → Prop)
    (entry : EntryInfo) : Prop :=
  ∀ parent path s, Inv s → Parent s parent →
    ∃ opened s', processObject env parent path entry s = .ok (opened, s') ∧
      Visit env parent entry s s' opened ∧ Inv s' ∧ (∀ p, Parent s p → Parent s' p) ∧
      ∀ newObj, opened = some newObj → sIsDir entry.stats.mode ∧ Parent s' newObj

/-- Counting a directory is no step. -/
def Counts (Inv : Mkyaffs → Prop) (Parent : Mkyaffs → Int → Prop) : Prop :=
  ∀ s, Inv s → Inv s.countDirectory ∧ ∀ p, Parent s p → Parent s.countDirectory p

/-- What a walk over entries leads to: the invariant, with the directories of before, and more
headers, which are those of the entries. -/
def Arrives (Inv : Mkyaffs → Prop) (Parent : Mkyaffs → Int → Prop) (s s' : Mkyaffs)
    (walked : List Header → Prop) : Prop :=
  Inv s' ∧ (∀ p, Parent s p → Parent s' p) ∧ ∃ more, s.out.Adds s'.out more ∧ walked more

mutual

theorem processEntry_rule (step : ∀ entry ∈ tree, Step env Inv Parent entry)
    (count : Counts Inv Parent) :
    ∀ (entry : Entry), entry.objects ⊆ tree → ∀ parent path s, Inv s → Parent s parent →
      ∃ s', processEntry env parent path entry s = .ok s' ∧
        Arrives Inv Parent s s' fun headers => entry.Walked headers parent
  | .mk info children => by
    intro within parent path s inv given
    rw [processEntry]
    split
    next ignored =>
      have walked : (Entry.mk info children).Walked [] parent := by
        rw [Entry.Walked]
        exact Or.inl ignored
      exact ⟨s, rfl, inv, fun _ => id, [], .none s.out, walked⟩
    next kept =>
      rw [Entry.objects, if_neg kept, List.cons_subset] at within
      obtain ⟨opened, m, visited, visit, inv', grown, new⟩ :=
        step info within.1 parent path s inv given
      obtain ⟨more, headers⟩ := visit.headers
      -- the header is there, and what is left to show is about the children
      have walked : ∀ all, (∀ newObj, opened = some newObj → info.opendirOk = true →
          Walked all newObj children) → (Entry.mk info children).Walked (more ++ all) parent := by
        intro all below
        rw [Entry.Walked]
        refine Or.inr (or_iff_not_imp_left.mpr fun handled => ?_)
        obtain ⟨h, added, same, above, type, opens⟩ := visit.header (not_not.mp handled)
        obtain rfl : more = [h] := List.append_cancel_left (headers.1.symm.trans added.1)
        refine ⟨h, List.mem_append_left all List.mem_cons_self, same, above,
          type.imp_right fun type => ⟨fun regular => ?_, fun directory => ?_⟩⟩
        · exact type.trans (objectType_of_reg regular)
        · have is := type.trans (objectType_of_dir directory)
          refine ⟨is, fun open' => ?_⟩
          exact (below _ (opens.trans (if_pos is)) open').mono (List.subset_append_right _ _)
      rw [visited]
      cases opened with
      | none =>
        have done := walked [] fun _ none => by cases none
        rw [List.append_nil] at done
        exact ⟨m, rfl, inv', grown, more, headers, done⟩
      | some newObj =>
        obtain ⟨directory, given'⟩ := new newObj rfl
        obtain ⟨counted, same⟩ := count m inv'
        dsimp only
        split
        next opens =>
          rw [if_pos ⟨directory, opens⟩] at within
          obtain ⟨s', done, inv'', grown', all, headers', below⟩ :=
            processEntries_rule step count children within.2 newObj (fullName path info.name)
              m.countDirectory counted (same _ given')
          exact ⟨s', done, inv'', fun p known => grown' p (same p (grown p known)), more ++ all,
            headers.trans headers', walked all fun _ this _ => Option.some.inj this ▸ below⟩
        next closed =>
          have done := walked [] fun _ _ opens => absurd opens closed
          rw [List.append_nil] at done
          exact ⟨_, rfl, counted, fun p known => same p (grown p known), more, headers, done⟩

theorem processEntries_rule (step : ∀ entry ∈ tree, Step env Inv Parent entry)
    (count : Counts Inv Parent) :
    ∀ (entries : List Entry), objectsOf entries ⊆ tree → ∀ parent path s, Inv s →
      Parent s parent → ∃ s', processEntries env parent path entries s = .ok s' ∧
        Arrives Inv Parent s s' fun headers => Walked headers parent entries
  | [] => fun _ _ _ s inv _ => ⟨s, rfl, inv, fun _ => id, [], .none s.out, trivial⟩
  | entry :: entries => by
    intro within parent path s inv given
    rw [objectsOf, List.append_subset] at within
    obtain ⟨m, first, inv', grown, some, headers, walked⟩ :=
      processEntry_rule step count entry within.1 parent path s inv given
    obtain ⟨s', rest, inv'', grown', more, headers', walked'⟩ :=
      processEntries_rule step count entries within.2 parent path m inv' (grown parent given)
    refine ⟨s', ?_, inv'', fun p known => grown' p (grown p known), some ++ more,
      headers.trans headers', walked.mono (List.subset_append_left _ _),
      walked'.mono (List.subset_append_right _ _)⟩
    rw [processEntries, first]
    exact rest

end

/-- The header of the root. -/
def rootHeader (root : EntryInfo) : Header := ⟨yaffsObjectIdRoot, .directory, 1, -1, root⟩

/-- The whole program completes.  Behind the root's header it writes those of the tree, if the
root's header did not end in a write of zero bytes. -/
theorem mkyaffs2image_rule {root : EntryInfo} {path : List Byte} {entries : List Entry}
    {m : Output} (step : ∀ entry ∈ objectsOf entries, Step env Inv Parent entry)
    (count : Counts Inv Parent)
    (clear : ∀ s, Inv s → Inv { s with out := { s.out with error := 0 } })
    (first : emitObject env Mkyaffs.start.out (rootHeader root) = .ok m)
    (start : Inv { Mkyaffs.start with out := m })
    (given : Parent { Mkyaffs.start with out := m } yaffsObjectIdRoot) :
    ∃ s written, mkyaffs2image env root path entries = .ok s ∧ Inv s ∧
      s.out.headers = rootHeader root :: written ∧
      s.out.headerChunks = s.out.headers.map Header.chunk ∧
      (m.error ≠ 0 → root.opendirOk = true → Walked written yaffsObjectIdRoot entries) := by
  have rootAdded := emitObject_headers first
  rw [rootHeader] at first
  obtain ⟨counted, same⟩ := count _ start
  simp only [mkyaffs2image, first]
  by_cases failed : m.error = 0
  · rw [if_neg (not_not.mpr failed)]
    obtain ⟨headers, chunks⟩ := rootAdded.of_start
    exact ⟨_, [], rfl, start, headers, chunks, fun other => absurd failed other⟩
  rw [if_pos failed, processDirectory]
  by_cases opens : root.opendirOk = true
  · rw [if_pos opens]
    obtain ⟨s, walk, inv, -, written, added, walked⟩ := processEntries_rule step count entries
      (List.Subset.refl _) yaffsObjectIdRoot path _ counted (same _ given)
    rw [walk]
    obtain ⟨headers, chunks⟩ := (rootAdded.trans added).of_start
    exact ⟨_, written, rfl, clear s inv, headers, chunks, fun _ _ => walked⟩
  · rw [if_neg opens]
    obtain ⟨headers, chunks⟩ := rootAdded.of_start
    exact ⟨_, [], rfl, clear _ counted, headers, chunks, fun _ opens' => absurd opens' opens⟩

end Rule

end VirtualNoah
