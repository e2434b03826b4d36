import VirtualNoah.Lib.CString
import VirtualNoah.Yaffs.ExitStatus

/-!
# Names and link targets

A path goes into `full_name[500]`, the target of a link into `symname[500]`, and from
there into the 256 bytes of `name` and the 160 bytes of `alias`, the last of which
`strncpy` never writes.  Nothing of this is checked: which entries keep their names
is read off the plan.
-/

namespace VirtualNoah

open ByteStore CString SortedTable

/-! ## The fields of a header -/

/-- A member of a structure, `size` bytes from `off` on. -/
def bytesAt (page : Buf) (off size : Nat) : List Byte :=
  (List.range size).map (shift page off)

def ImageHeader.name (h : ImageHeader) : List Byte :=
  readString 0 (bytesAt h.chunk.data 10 (yaffsMaxNameLength + 1))

def ImageHeader.alias (h : ImageHeader) : List Byte :=
  readString 0 (bytesAt h.chunk.data 300 (yaffsMaxAliasLength + 1))

/-- The header in the image has the name of its entry and, for a symbolic link, all of the
target. -/
def ImageHeader.Keeps (h : ImageHeader) : Prop :=
  h.name = h.entry.name ∧ (h.type = ObjectType.symlink.code → h.entry.target = some h.alias)

section Fields

variable {h : Header} {entry : EntryInfo} {i : Nat}

theorem page_name (inside : i < 255) : shift h.chunk.data 10 i = h.entry.name.getD i 0 := by
  have place : 10 + i - 10 = i := Nat.add_sub_cancel_left 10 i
  rw [Header.chunk, headerBytes, shift_apply]
  dsimp only
  split_ifs <;> simp (disch := omega) only [strncpy, yaffsMaxNameLength, yaffsMaxAliasLength,
    store32_outside, blit_outside, blit_inside, place] <;> rfl

theorem page_name_last : shift h.chunk.data 10 255 = 0xff := by
  rw [Header.chunk, headerBytes, shift_apply]
  dsimp only
  split_ifs <;> simp (disch := omega) only [strncpy, yaffsMaxNameLength, yaffsMaxAliasLength,
    store32_outside, blit_outside] <;> rfl

theorem page_alias (link : h.type = .symlink) (inside : i < 159) :
    shift h.chunk.data 300 i = (symname h.entry).getD i 0 := by
  have place : 300 + i - 300 = i := Nat.add_sub_cancel_left 300 i
  rw [Header.chunk, headerBytes, shift_apply, link]
  simp (disch := omega) only [strncpy, yaffsMaxAliasLength, blit_inside, place, if_true]
  rw [Header.target, if_pos link]
  rfl

theorem page_alias_last (link : h.type = .symlink) : shift h.chunk.data 300 159 = 0xff := by
  rw [Header.chunk, headerBytes, shift_apply, link]
  simp (disch := omega) only [strncpy, yaffsMaxNameLength, yaffsMaxAliasLength, store32_outside,
    blit_outside, if_true, reduceCtorEq, if_false, ne_eq, not_false_eq_true]
  rfl

/-- Shorter names are kept, and those of 256 bytes of which the last is what the page is
filled with. -/
theorem name_eq_iff : h.image.name = h.entry.name ↔ Fits 0 255 0xff h.entry.name := by
  have field : bytesAt h.image.chunk.data 10 (yaffsMaxNameLength + 1) = copied 0 h.entry.name 255 0xff :=
    map_range_eq_copied (fun _ inside => page_name inside) page_name_last
  rw [ImageHeader.name, field]
  exact readString_copied_eq_iff (by decide)

theorem alias_eq_iff {target : List Byte} (link : h.type = .symlink)
    (given : h.entry.target = some target) : h.image.alias = target ↔ Fits 0 159 0xff target := by
  have whole : symname h.entry = target.take 499 := by rw [symname, given, Option.getD_some]
  have field : bytesAt h.image.chunk.data 300 (yaffsMaxAliasLength + 1) =
      copied 0 (symname h.entry) 159 0xff :=
    map_range_eq_copied (fun _ inside => page_alias link inside) (page_alias_last link)
  rw [ImageHeader.alias, field, whole, copied_take (by decide)]
  exact readString_copied_eq_iff (by decide)

/-- `readlink` leaves room for the zero. -/
theorem symname_length (entry : EntryInfo) : (symname entry).length < 500 :=
  Nat.lt_succ_of_le (List.length_take_le 499 _)

end Fields

/-! ## Paths -/

/-- The entry is met with a path that `full_name` has no room for, or a target that
`symname` has none for. -/
def EntryInfo.Overruns (path : List Byte) (entry : EntryInfo) : Prop :=
  500 ≤ (fullName path entry.name).length ∨ 500 ≤ (symname entry).length

mutual

/-- The walk of an entry, which may stop, comes to one that overruns a buffer. -/
def entryOverruns (env : Env) (parent : Int) (path : List Byte) : Entry → Mkyaffs → Prop
  | .mk entry children, s => ¬ Ignored entry.name ∧ (entry.Overruns path ∨
      ∃ newObj s', processObject env parent path entry s = .ok (some newObj, s') ∧
        entry.opendirOk = true ∧ entriesOverrun env newObj (fullName path entry.name) children
          s'.countDirectory)

def entriesOverrun (env : Env) (parent : Int) (path : List Byte) : List Entry → Mkyaffs → Prop
  | [], _ => False
  | entry :: entries, s => entryOverruns env parent path entry s ∨
      ∃ s', processEntry env parent path entry s = .ok s' ∧
        entriesOverrun env parent path entries s'

end

/-- `process_directory` overruns a buffer in a run. -/
def runOverruns (env : Env) (root : EntryInfo) (path : List Byte) (entries : List Entry) : Prop :=
  ∃ out, emitObject env Mkyaffs.start.out (rootHeader root) = .ok out ∧ out.error ≠ 0 ∧
    root.opendirOk = true ∧ entriesOverrun env yaffsObjectIdRoot path entries
      { Mkyaffs.start with out := out }.countDirectory

/-- How many objects an entry adds to the table. -/
def Met.added (m : Met) : Nat := if m.type = none ∨ m.type = some .hardlink then 0 else 1

def addedBy (mets : List Met) : Nat := (mets.map Met.added).sum

/-- What is met with `n` objects in the table before, up to the entry that finds it full. -/
def reached : Nat → List Met → List Met
  | _, [] => []
  | n, m :: mets => if n ≤ maxObjects then m :: reached (n + m.added) mets else []

/-- A path that is too long is reached. -/
def LongPath (n : Nat) (mets : List Met) : Prop := ∃ m ∈ reached n mets, 500 ≤ m.path.length

section Plans

variable {n : Nat} {m : Met} {a b mets : List Met}

theorem not_longPath_nil : ¬ LongPath n [] := fun long => by
  obtain ⟨m, member, -⟩ := long
  cases member

theorem not_longPath_of_full (full : maxObjects < n) : ¬ LongPath n mets := by
  intro long
  obtain ⟨m, member, -⟩ := long
  cases mets with
  | nil => cases member
  | cons m mets =>
    rw [reached, if_neg (Nat.not_le.mpr full)] at member
    cases member

theorem longPath_cons (room : n ≤ maxObjects) :
    LongPath n (m :: mets) ↔ 500 ≤ m.path.length ∨ LongPath (n + m.added) mets := by
  rw [LongPath, reached, if_pos room, List.exists_mem_cons_iff]
  rfl

theorem added_object {path : List Byte} {entry : EntryInfo} {type : ObjectType}
    (other : type ≠ .hardlink) : Met.added ⟨path, entry, some type⟩ = 1 :=
  if_neg (by simp [other])

theorem added_directory {path : List Byte} {entry : EntryInfo} :
    Met.added ⟨path, entry, some .directory⟩ = 1 := rfl

theorem addedBy_cons : addedBy (m :: mets) = m.added + addedBy mets := List.sum_cons

theorem addedBy_append : addedBy (a ++ b) = addedBy a + addedBy b := by
  rw [addedBy, List.map_append, List.sum_append]
  rfl

theorem longPath_append :
    LongPath n (a ++ b) ↔ LongPath n a ∨ LongPath (n + addedBy a) b := by
  induction a generalizing n with
  | nil => exact (or_iff_right not_longPath_nil).symm
  | cons m a ih =>
    by_cases room : n ≤ maxObjects
    · rw [List.cons_append, longPath_cons room, longPath_cons room, ih, or_assoc, addedBy_cons,
        Nat.add_assoc]
    · have full := Nat.not_le.mp room
      exact iff_of_false (not_longPath_of_full full) fun long =>
        long.elim (not_longPath_of_full full)
          (not_longPath_of_full (full.trans_le (Nat.le_add_right n _)))

/-- Nothing is left out when there is room for all. -/
theorem reached_eq_self (room : n + addedBy mets ≤ maxObjects) : reached n mets = mets := by
  induction mets generalizing n with
  | nil => rfl
  | cons m mets ih =>
    rw [addedBy_cons] at room
    rw [reached, if_pos (by omega), ih (by omega)]

end Plans

/-! ## The walk -/

/-- The type and the entry of an object. -/
def Header.object (h : Header) : ObjectType × EntryInfo := (h.type, h.entry)

def Met.object (m : Met) : Option (ObjectType × EntryInfo) := m.type.map (·, m.entry)

/-- A part of a walk that comes to its end emits the headers of what it meets, and
`full_name` is overrun if one of the paths is too long. -/
structure Emits (s s' : Mkyaffs) (mets : List Met) : Prop where
  headers : ∃ hs, s.out.Adds s'.out hs ∧ hs.map Header.object = mets.filterMap Met.object
  overrun : s'.overrun = true ↔ s.overrun = true ∨ ∃ m ∈ mets, 500 ≤ m.path.length

section Walk

variable {env : Env} {parent : Int} {path : List Byte} {entry : EntryInfo} {s s' u : Mkyaffs}
  {seen : List (BitVec 64 × BitVec 64)} {opened : Option Int} {a b : List Met}
  {type : ObjectType}

theorem Emits.refl (s : Mkyaffs) : Emits s s [] :=
  ⟨⟨[], .none s.out, rfl⟩, (or_iff_left fun long => by
    obtain ⟨m, member, -⟩ := long
    cases member).symm⟩

theorem Emits.trans (one : Emits s s' a) (two : Emits s' u b) : Emits s u (a ++ b) := by
  obtain ⟨⟨hs, first, objects⟩, overrun⟩ := one
  obtain ⟨⟨hs', second, objects'⟩, overrun'⟩ := two
  refine ⟨⟨hs ++ hs', first.trans second, ?_⟩, ?_⟩
  · rw [List.map_append, List.filterMap_append, objects, objects']
  · rw [overrun', overrun, or_assoc]
    refine or_congr_right ?_
    simp only [List.mem_append, or_and_right, exists_or]

theorem Emits.countDirectory (one : Emits s s' a) : Emits s s'.countDirectory a :=
  ⟨one.headers, one.overrun⟩

/-- Each entry has its path checked by nothing but the flag. -/
theorem processObject_overrun (visited : processObject env parent path entry s = .ok (opened, s')) :
    s'.overrun = true ↔
      s.overrun = true ∨ 500 ≤ (fullName path entry.name).length := by
  have same : s'.overrun =
      (s.overrun || decide (500 ≤ (fullName path entry.name).length)) := by
    rw [processObject] at visited
    dsimp only at visited
    split at visited
    · cases visited
      rfl
    · split at visited
      · split at visited
        · cases visited
        · cases visited
          rfl
      · split at visited
        · cases visited
        · split at visited
          · cases visited
          · cases visited
            rfl
  rw [same, Bool.or_eq_true, decide_eq_true_iff]

/-- An entry without an object. -/
theorem Emits.of_unhandled (visited : processObject env parent path entry s = .ok (opened, s'))
    (out : s'.out = s.out) : Emits s s' [⟨fullName path entry.name, entry, none⟩] := by
  refine ⟨⟨[], out ▸ .none s.out, rfl⟩, ?_⟩
  rw [processObject_overrun visited]
  simp only [List.mem_singleton, exists_eq_left]

/-- An entry with an object. -/
theorem Emits.of_object (visited : processObject env parent path entry s = .ok (opened, s'))
    (emitted : emitObject env s.out (emittedHeader parent entry s) = .ok s'.out)
    (type' : (emittedHeader parent entry s).type = type) :
    Emits s s' [⟨fullName path entry.name, entry, some type⟩] := by
  refine ⟨⟨[emittedHeader parent entry s], emitObject_headers emitted, ?_⟩, ?_⟩
  · rw [List.map_singleton, Header.object, type', emittedHeader_entry]
    rfl
  · rw [processObject_overrun visited]
    simp only [List.mem_singleton, exists_eq_left]

theorem entry_emits {children : List Entry}
    (below : ∀ parent path s s' seen, Seen s seen →
      processEntries env parent path children s = .ok s' →
      Emits s s' (metOf path seen children).1)
    (inv : Seen s seen) (done : processEntry env parent path (.mk entry children) s = .ok s') :
    Emits s s' ((Entry.mk entry children).met path seen).1 := by
  rw [processEntry] at done
  by_cases ignored : Ignored entry.name
  · rw [if_pos ignored] at done
    cases done
    rw [Entry.met, if_pos ignored]
    exact .refl s
  obtain ⟨m, seen', result, visited, meets, plan⟩ :=
    @entry_meets env entry s seen parent path children inv ignored
  rw [if_neg ignored, visited] at done
  rw [plan]
  cases meets with
  | unhandled _ _ out =>
    cases done
    rw [if_neg fun both => by cases both.1]
    exact .of_unhandled visited out
  | full => cases done
  | @object type _ m _ type' inv' emitted =>
    have object := Emits.of_object visited emitted type'
    by_cases directory : type = .directory
    case neg =>
      rw [if_neg directory] at done
      cases done
      rw [if_neg fun both => directory (Option.some.inj both.1)]
      exact object
    rw [if_pos directory] at done
    dsimp only at done
    by_cases opens : entry.opendirOk = true
    · rw [if_pos opens] at done
      rw [if_pos ⟨congrArg some directory, opens⟩]
      exact object.countDirectory.trans
        (below _ _ _ _ _ (inv'.congr rfl (Int.le_refl _)) done)
    · rw [if_neg opens] at done
      cases done
      rw [if_neg fun both => opens both.2]
      exact object.countDirectory

mutual

/-- A walk that comes to its end emits what the plan says. -/
theorem Entry.emits : ∀ (entry : Entry) parent path s s' seen, Seen s seen →
    processEntry env parent path entry s = .ok s' → Emits s s' (entry.met path seen).1
  | .mk _ children => fun _ _ _ _ _ inv => entry_emits (entries_emit children) inv

theorem entries_emit : ∀ (entries : List Entry) parent path s s' seen, Seen s seen →
    processEntries env parent path entries s = .ok s' → Emits s s' (metOf path seen entries).1
  | [] => by
    intro parent path s s' seen inv done
    cases done
    exact .refl s
  | entry :: entries => by
    intro parent path s s' seen inv done
    have follows := @Entry.follows env (fun _ => 0) entry parent path s seen inv
    rw [processEntries] at done
    by_cases room : (entry.met path seen).2.length ≤ maxObjects
    · obtain ⟨m, went, inv', -⟩ := follows.done room
      rw [went] at done
      exact (entry.emits parent path s m seen inv went).trans
        (entries_emit entries parent path m s' _ inv' done)
    · rw [follows.full (Nat.not_le.mp room)] at done
      cases done

end

mutual

/-- Each object that is met takes a place in the table. -/
theorem Entry.length_met : ∀ (entry : Entry) path (seen : List (BitVec 64 × BitVec 64)),
    (entry.met path seen).2.length = seen.length + addedBy (entry.met path seen).1
  | .mk entry children => by
    intro path seen
    have below := length_metOf children (fullName path entry.name) (entry.inode :: seen)
    rw [Entry.met]
    split_ifs with ignored handled old directory
    · rfl
    · rfl
    · dsimp only
      rw [below, addedBy_cons, added_directory, List.length_cons, Nat.add_assoc]
    · dsimp only
      rw [addedBy_cons, added_object objectType_ne_hardlink]
      rfl
    · rfl

theorem length_metOf : ∀ (entries : List Entry) path (seen : List (BitVec 64 × BitVec 64)),
    (metOf path seen entries).2.length = seen.length + addedBy (metOf path seen entries).1
  | [] => fun _ _ => rfl
  | entry :: entries => fun path seen => by
    rw [metOf]
    dsimp only
    rw [length_metOf entries path (entry.met path seen).2, entry.length_met path seen,
      addedBy_append, Nat.add_assoc]

end

theorem overruns_iff : entry.Overruns path ↔ 500 ≤ (fullName path entry.name).length :=
  or_iff_left (Nat.not_le.mpr (symname_length entry))

theorem entry_overruns {children : List Entry}
    (below : ∀ parent path s seen, Seen s seen →
      (entriesOverrun env parent path children s ↔
        LongPath seen.length (metOf path seen children).1))
    (inv : Seen s seen) :
    entryOverruns env parent path (.mk entry children) s ↔
      LongPath seen.length ((Entry.mk entry children).met path seen).1 := by
  rw [entryOverruns, overruns_iff]
  by_cases ignored : Ignored entry.name
  · rw [Entry.met, if_pos ignored]
    exact iff_of_false (fun both => both.1 ignored) not_longPath_nil
  obtain ⟨m, seen', result, visited, meets, plan⟩ :=
    @entry_meets env entry s seen parent path children inv ignored
  have length := (Entry.mk entry children).length_met path seen
  have first : LongPath seen.length ((Entry.mk entry children).met path seen).1 ↔
      500 ≤ m.path.length ∨ (m.type = some .directory ∧ entry.opendirOk = true) ∧
        LongPath (seen.length + m.added) (metOf (fullName path entry.name) seen' children).1 := by
    rw [plan]
    split
    · next opens => rw [longPath_cons inv.room, and_iff_right opens]
    · next closed =>
      rw [longPath_cons inv.room]
      exact or_congr_right (iff_of_false not_longPath_nil fun given => closed given.1)
  rw [and_iff_right ignored, first, visited]
  cases meets with
  | unhandled =>
    refine or_congr_right (iff_of_false (fun given => ?_) fun given => ?_)
    · obtain ⟨_, _, other, -⟩ := given
      cases other
    · cases given.1.1
  | full full =>
    -- the walk stops behind this entry
    refine or_congr_right (iff_of_false (fun given => ?_) fun given => ?_)
    · obtain ⟨_, _, other, -⟩ := given
      cases other
    · rw [added_object objectType_ne_hardlink] at given
      exact not_longPath_of_full (Nat.lt_succ_of_le full) given.2
  | @object type _ s' _ _ inv' _ =>
    refine or_congr_right ?_
    by_cases opens : type = .directory ∧ entry.opendirOk = true
    case neg =>
      refine iff_of_false (fun given => ?_) fun given => ?_
      · obtain ⟨_, _, same, opens', -⟩ := given
        split at same
        · next directory => exact opens ⟨directory, opens'⟩
        · cases same
      · exact opens ⟨Option.some.inj given.1.1, given.1.2⟩
    have both : some type = some .directory ∧ entry.opendirOk = true :=
      ⟨congrArg some opens.1, opens.2⟩
    rw [plan, if_pos both, length_metOf, addedBy_cons] at length
    have count :
        seen'.length = seen.length + Met.added ⟨fullName path entry.name, entry, type⟩ := by
      omega
    rw [if_pos opens.1, and_iff_right both, ← count, ← below s.objId (fullName path entry.name)
      s'.countDirectory _ (inv'.congr rfl (Int.le_refl _))]
    constructor
    · intro given
      obtain ⟨newObj, m', same, -, later⟩ := given
      cases same
      exact later
    · intro later
      exact ⟨s.objId, s', rfl, opens.2, later⟩

mutual

/-- Paths that are too long are the only overruns. -/
theorem Entry.overruns : ∀ (entry : Entry) parent path s seen, Seen s seen →
    (entryOverruns env parent path entry s ↔ LongPath seen.length (entry.met path seen).1)
  | .mk _ children => fun _ _ _ _ inv => entry_overruns (entries_overrun children) inv

theorem entries_overrun : ∀ (entries : List Entry) parent path s seen, Seen s seen →
    (entriesOverrun env parent path entries s ↔ LongPath seen.length (metOf path seen entries).1)
  | [] => fun _ _ _ _ _ => by
    rw [entriesOverrun, metOf]
    exact iff_of_false id not_longPath_nil
  | entry :: entries => by
    intro parent path s seen inv
    have follows := @Entry.follows env (fun _ => 0) entry parent path s seen inv
    rw [entriesOverrun, metOf, entry.overruns parent path s seen inv]
    dsimp only
    rw [longPath_append, ← entry.length_met]
    refine or_congr_right ?_
    by_cases room : (entry.met path seen).2.length ≤ maxObjects
    · obtain ⟨m, went, inv', -⟩ := follows.done room
      rw [went]
      refine Iff.trans ?_ (entries_overrun entries parent path m _ inv')
      simp only [Except.ok.injEq, exists_eq_left']
    · have full := Nat.not_le.mp room
      rw [follows.full full]
      refine iff_of_false (fun given => ?_) (not_longPath_of_full full)
      obtain ⟨_, other, -⟩ := given
      cases other

end

end Walk

/-! ## The run -/

/-- The walk takes place. -/
def Walks (env : Env) (root : EntryInfo) : Prop :=
  (env.write 0 chunkSize < 0 ∨ env.write 1 spareSize ≠ 0) ∧ root.opendirOk = true

/-- The name of an object fits into its header, and so does the target of a link, which
`readlink` gives. -/
def Met.Fits (m : Met) : Prop := ∀ type, m.type = some type →
  CString.Fits 0 255 0xff m.entry.name ∧ (type = .symlink →
    ∃ target, m.entry.target = some target ∧ CString.Fits 0 159 0xff target)

section Run

variable {env : Env} {root : EntryInfo} {path : List Byte} {entries : List Entry} {s : Mkyaffs}

theorem keeps_iff {h : Header} : h.image.Keeps ↔ CString.Fits 0 255 0xff h.entry.name ∧
    (h.type = .symlink → ∃ target, h.entry.target = some target ∧
      CString.Fits 0 159 0xff target) := by
  rw [ImageHeader.Keeps, image_type, code_inj]
  refine and_congr name_eq_iff (forall_congr' fun link => ?_)
  constructor
  · intro kept
    exact ⟨h.image.alias, kept, (alias_eq_iff link kept).mp rfl⟩
  · intro given
    obtain ⟨target, target', fits⟩ := given
    rw [(alias_eq_iff link target').mpr fits]
    exact target'

/-- The headers of a walk keep what they should if and only if what it meets fits. -/
theorem all_keep_iff {hs : List Header} {mets : List Met}
    (objects : hs.map Header.object = mets.filterMap Met.object) :
    (∀ h ∈ hs.map Header.image, h.Keeps) ↔ ∀ m ∈ mets, m.Fits := by
  rw [List.forall_mem_map]
  have same : ∀ object : ObjectType × EntryInfo,
      (∃ h ∈ hs, h.object = object) ↔ ∃ m ∈ mets, m.object = some object := by
    intro object
    rw [← List.mem_map, objects, List.mem_filterMap]
  constructor
  · intro kept m member type is
    obtain ⟨h, given, object⟩ := (same (type, m.entry)).mpr
      ⟨m, member, by rw [Met.object, is, Option.map_some]⟩
    obtain ⟨type', entry⟩ := Prod.mk.inj object
    rw [← type', ← entry]
    exact keeps_iff.mp (kept h given)
  · intro fits h given
    obtain ⟨m, member, object⟩ := (same h.object).mp ⟨h, given, rfl⟩
    obtain ⟨type, is, object'⟩ := Option.map_eq_some_iff.mp object
    obtain ⟨type', entry⟩ := Prod.mk.inj object'
    refine keeps_iff.mpr ?_
    rw [← type', ← entry]
    exact fits m member type is

theorem runOverruns_iff : runOverruns env root path entries ↔
    Walks env root ∧ LongPath 0 (metOf path [] entries).1 := by
  obtain ⟨out, emitted, -⟩ := @emitObject_ok env Mkyaffs.start.out (rootHeader root)
  have walk := @entries_overrun env entries yaffsObjectIdRoot path _ [] (@seen_start out)
  rw [runOverruns, emitted, Walks, ← root_error emitted, and_assoc]
  simp only [Except.ok.injEq, exists_eq_left', walk, List.length_nil]

/-- The headers in the image of a run that comes to its end, but for the one of the root. -/
theorem mkyaffs2image_emits (done : mkyaffs2image env root path entries = .ok s) :
    (Walks env root → ∃ hs : List Header, s.out.imageHeaders.tail = hs.map Header.image ∧
          hs.map Header.object = (metOf path [] entries).1.filterMap Met.object) ∧
      (¬ Walks env root → s.out.imageHeaders.tail = []) ∧
      (s.overrun = true ↔ runOverruns env root path entries) := by
  obtain ⟨out, emitted, added⟩ := @emitObject_ok env Mkyaffs.start.out (rootHeader root)
  have walks := root_error emitted
  have tail : out.imageHeaders.tail = [] := by
    obtain ⟨headers, chunks⟩ := added.of_start
    rw [imageHeaders_eq chunks, headers]
    rfl
  rw [runOverruns_iff]
  rw [rootHeader] at emitted
  rw [mkyaffs2image, emitted] at done
  dsimp only at done
  by_cases zero : out.error = 0
  · have still : ¬ Walks env root := fun both => walks.mpr both.1 zero
    rw [if_neg (not_not.mpr zero)] at done
    cases done
    exact ⟨fun walk => absurd walk still, fun _ => tail, iff_of_false Bool.false_ne_true
      fun both => still both.1⟩
  rw [if_pos zero, processDirectory] at done
  by_cases opens : root.opendirOk = true
  case neg =>
    have still : ¬ Walks env root := fun both => opens both.2
    rw [if_neg opens] at done
    cases done
    exact ⟨fun walk => absurd walk still, fun _ => tail, iff_of_false Bool.false_ne_true
      fun both => still both.1⟩
  have walk : Walks env root := ⟨walks.mp zero, opens⟩
  rw [if_pos opens] at done
  have follows := @entries_follow env (fun _ => 0) entries yaffsObjectIdRoot path _ []
    (@seen_start out)
  by_cases room : (metOf path [] entries).2.length ≤ maxObjects
  · obtain ⟨m, went, -, -⟩ := follows.done room
    obtain ⟨⟨hs, added', objects⟩, overrun⟩ :=
      entries_emit entries yaffsObjectIdRoot path _ m [] (@seen_start out) went
    obtain ⟨headers, chunks⟩ := (added.trans added').of_start
    rw [went] at done
    cases done
    have all : reached 0 (metOf path [] entries).1 = (metOf path [] entries).1 := by
      refine reached_eq_self ?_
      rwa [length_metOf] at room
    refine ⟨fun _ => ⟨hs, ?_, objects⟩, fun still => absurd walk still, ?_⟩
    · exact congrArg List.tail
        ((imageHeaders_eq chunks).trans (congrArg (List.map Header.image) headers))
    · rw [and_iff_right walk, LongPath, all]
      exact overrun.trans (or_iff_right Bool.false_ne_true)
  · rw [follows.full (Nat.not_le.mp room)] at done
    cases done

end Run

/-- No buffer is overrun, and the headers have the names and the link targets, or a failure is
reported. -/
def NamesPreserved (inv : Invocation) : Prop := ∀ env root, inv.started = some (env, root) →
  ¬ runOverruns env root inv.path inv.entries ∧
    ((mkyaffs2imageMain inv).1 ≠ 0 ∨ ∀ s, mkyaffs2image env root inv.path inv.entries = .ok s →
      ∀ h ∈ s.out.imageHeaders.tail, h.Keeps)

/-- Where the walk takes place, no path is too long of those it reaches, and if there is room
for all objects, all names and targets fit. -/
def NamesFit (inv : Invocation) : Prop := ∀ env root, inv.started = some (env, root) →
  Walks env root → (∀ m ∈ reached 0 (metOf inv.path [] inv.entries).1, m.path.length < 500) ∧
    ((metOf inv.path [] inv.entries).2.length ≤ maxObjects →
      ∀ m ∈ (metOf inv.path [] inv.entries).1, m.Fits)

theorem names_preserved_iff (inv : Invocation) : NamesPreserved inv ↔ NamesFit inv := by
  refine forall_congr' fun env => forall_congr' fun root => forall_congr' fun started => ?_
  have short : ¬ runOverruns env root inv.path inv.entries ↔ (Walks env root →
      ∀ m ∈ reached 0 (metOf inv.path [] inv.entries).1, m.path.length < 500) := by
    rw [runOverruns_iff, not_and]
    refine forall_congr' fun _ => ?_
    simp only [LongPath, not_exists, not_and, Nat.not_le]
  have kept : ((mkyaffs2imageMain inv).1 ≠ 0 ∨
      ∀ s, mkyaffs2image env root inv.path inv.entries = .ok s →
        ∀ h ∈ s.out.imageHeaders.tail, h.Keeps) ↔
      (Walks env root → (metOf inv.path [] inv.entries).2.length ≤ maxObjects →
        ∀ m ∈ (metOf inv.path [] inv.entries).1, m.Fits) := by
    obtain ⟨full, done⟩ := @mkyaffs2image_follows env inv.lstat root inv.path inv.entries
    by_cases tableFull : TableFull env root inv.path inv.entries
    · rw [mkyaffs2imageMain_error started (full tableFull)]
      refine iff_of_true (Or.inl (by decide)) fun _ room => ?_
      exact absurd room (Nat.not_le.mpr tableFull.2.2)
    · obtain ⟨s, ended, clear, -⟩ := done tableFull
      obtain ⟨walked, still, -⟩ := mkyaffs2image_emits ended
      rw [mkyaffs2imageMain_ok started ended clear, or_iff_right (not_not.mpr rfl), ended]
      simp only [Except.ok.injEq, forall_eq']
      by_cases walks : Walks env root
      · have room : (metOf inv.path [] inv.entries).2.length ≤ maxObjects :=
          Nat.not_lt.mp fun full => tableFull ⟨walks.1, walks.2, full⟩
        obtain ⟨hs, headers, objects⟩ := walked walks
        rw [headers, all_keep_iff objects]
        exact ⟨fun fits _ _ => fits, fun fits => fits walks room⟩
      · rw [still walks]
        exact iff_of_true (List.forall_mem_nil _) fun walks' => absurd walks' walks
  rw [short, kept]
  exact forall_and.symm

/-- An empty file with a name of 255 bytes, in a directory of its own. -/
def longNamed : Invocation where
  argc := 4
  layoutNo := some 1
  small := fullDisk.small
  convert := false
  root := some linkedTreeRoot
  outFile := 3
  path := [0x2f]
  entries := [.mk ⟨List.replicate 255 0x61, ⟨8, 20, 0o100644, 0, 0, 0, 0, 0, 0, 0⟩, none,
    some ⟨.empty, none⟩, false⟩ []]
  lstat := fun _ => 0
  write := wholeWrites.write
  bound := wholeWrites.bound
  padding := fill 0

/-- The name has no zero at its end in the header, and the byte behind it is read as a part
of it. -/
theorem long_name_changed : ¬ NamesPreserved longNamed := by
  let env : Env := ⟨1, by decide, longNamed.write, longNamed.bound, longNamed.padding⟩
  have started : longNamed.started = some (env, linkedTreeRoot) := rfl
  have walks : Walks env linkedTreeRoot := ⟨Or.inr (by decide), rfl⟩
  have room : ¬ TableFull env linkedTreeRoot longNamed.path longNamed.entries :=
    fun full => absurd full.2.2 (by decide)
  obtain ⟨s, ended, clear, -⟩ :=
    (@mkyaffs2image_follows env longNamed.lstat linkedTreeRoot _ _).2 room
  intro preserved
  rcases (preserved env linkedTreeRoot started).2 with failed | kept
  · rw [mkyaffs2imageMain_ok started ended clear] at failed
    exact failed rfl
  · obtain ⟨hs, headers, objects⟩ := (mkyaffs2image_emits ended).1 walks
    have fits := (all_keep_iff objects).mp (headers ▸ kept s ended)
    obtain ⟨⟨-, short | ends⟩, -⟩ := fits _ List.mem_cons_self .file rfl
    · rw [List.length_replicate] at short
      exact Nat.lt_irrefl _ short
    · rw [List.drop_replicate] at ends
      cases ends

end VirtualNoah
