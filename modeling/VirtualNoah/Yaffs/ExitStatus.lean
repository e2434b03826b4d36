import VirtualNoah.Yaffs.Plan

/-!
# The exit status of mkyaffs2image

`main` overwrites the result of the root's header by that of `process_directory`,
which is always 0.  So whatever fails during the walk, the exit status is 0 unless
the object table is full.  Whether anything fails is read off the plan: up to the
first failure the walk follows it.
-/

namespace VirtualNoah

open ByteStore SortedTable

/-! ## main -/

/-- The command line, what the system calls before the walk give for it, and what `lstat`
returns for a path and `write` for a call. -/
structure Invocation where
  argc : Nat
  /-- `sscanf(argv[1], "%u", &layout_no)` -/
  layoutNo : Option Nat
  /-- A number that is negative as an `int` passes the check and is no index of the table. -/
  small : ∀ n, layoutNo = some n → n < 2 ^ 31
  /-- `argv[4]` starts with `convert`. -/
  convert : Bool
  /-- `stat(argv[2], &stats)` -/
  root : Option EntryInfo
  outFile : Int
  path : List Byte
  entries : List Entry
  lstat : List Byte → Int
  write : Nat → Nat → Int
  bound : ∀ call count, write call count ≤ count
  padding : Buf

/-- The walk `main` starts, unless it exits before. -/
def Invocation.started (inv : Invocation) : Option (Env × EntryInfo) :=
  if inv.argc < 4 then none
  else
    match inv.layoutNo with
    | none => none
    | some layoutNo =>
      if layout : layoutNo < oobLayout.length then
        if inv.argc = 5 ∧ inv.convert = true then none
        else
          match inv.root with
          | none => none
          | some root =>
            if ¬ sIsDir root.stats.mode then none
            else if inv.outFile < 0 then none
            else some (⟨layoutNo, layout, inv.write, inv.bound, inv.padding⟩, root)
      else none

/-- The exit status, and whether the success is printed. -/
def mkyaffs2imageMain (inv : Invocation) : Int × Bool :=
  match inv.started with
  | none => (1, false)
  | some (env, root) =>
    match mkyaffs2image env root inv.path inv.entries with
    | .error e => (e, false)
    | .ok s => if s.out.error < 0 then (1, false) else (0, true)

/-! ## What the walk misses -/

/-- The header `process_directory` writes for an entry. -/
def emittedHeader (parent : Int) (entry : EntryInfo) (s : Mkyaffs) : Header :=
  let equivalentObj := findObjInList s.objList entry.stats.dev entry.stats.ino
  if 0 < equivalentObj then ⟨s.objId, .hardlink, parent, equivalentObj, entry⟩
  else ⟨s.objId, objectType entry.stats.mode, parent, -1, entry⟩

mutual

/-- Something of an entry, or of what is below it, is not read or not written. -/
def entryMissed (env : Env) (lstat : List Byte → Int) (parent : Int) (path : List Byte) :
    Entry → Mkyaffs → Prop
  | .mk entry children, s =>
    ¬ Ignored entry.name ∧ (lstat (fullName path entry.name) < 0 ∨
      Handled entry.stats.mode ∧ emitMissed env s.out (emittedHeader parent entry s) ∨
      ∃ newObj s', processObject env parent path entry s = .ok (some newObj, s') ∧
        (entry.opendirOk = false ∨ entriesMissed env lstat newObj (fullName path entry.name)
          children s'.countDirectory))

def entriesMissed (env : Env) (lstat : List Byte → Int) (parent : Int) (path : List Byte) :
    List Entry → Mkyaffs → Prop
  | [], _ => False
  | entry :: entries, s => entryMissed env lstat parent path entry s ∨
      ∃ s', processEntry env parent path entry s = .ok s' ∧
        entriesMissed env lstat parent path entries s'

end

/-- Something is not read or not written completely from the root's header on. -/
def runMissed (env : Env) (lstat : List Byte → Int) (root : EntryInfo) (path : List Byte)
    (entries : List Entry) : Prop :=
  emitMissed env Mkyaffs.start.out (rootHeader root) ∨
    ∃ out, emitObject env Mkyaffs.start.out (rootHeader root) = .ok out ∧ out.error ≠ 0 ∧
      (root.opendirOk = false ∨ entriesMissed env lstat yaffsObjectIdRoot path entries
        { Mkyaffs.start with out := out }.countDirectory)

def Missed (inv : Invocation) : Prop :=
  ∃ env root, inv.started = some (env, root) ∧ runMissed env inv.lstat root inv.path inv.entries

/-! ## The walk -/

/-- The object table holds one object for each inode seen. -/
structure Seen (s : Mkyaffs) (seen : List (BitVec 64 × BitVec 64)) : Prop where
  ordered : Ordered objComparator s.objList
  positive : ∀ item ∈ s.objList, 0 < item.obj
  next : 0 < s.objId
  known : ∀ dev ino, (dev, ino) ∈ seen ↔ ∃ item, Known s.objList dev ino item
  length : s.objList.length = seen.length
  room : seen.length ≤ maxObjects

namespace Seen

variable {s s' : Mkyaffs} {seen : List (BitVec 64 × BitVec 64)} {entry : EntryInfo}

theorem congr (inv : Seen s seen) (objList : s'.objList = s.objList)
    (objId : s.objId ≤ s'.objId) : Seen s' seen := by
  obtain ⟨ordered, positive, next, known, length, room⟩ := inv
  rw [← objList] at ordered positive length
  rw [← objList] at known
  exact ⟨ordered, positive, by omega, known, length, room⟩

theorem find_of_mem (inv : Seen s seen) (old : entry.inode ∈ seen) :
    0 < findObjInList s.objList entry.stats.dev entry.stats.ino := by
  rcases @findObjInList_cases _ entry.stats.dev entry.stats.ino inv.ordered with
    ⟨item, known, found⟩ | ⟨fresh, -⟩
  · rw [found]
    exact inv.positive item known.1
  · obtain ⟨item, known⟩ := (inv.known _ _).mp old
    exact absurd known (fresh item)

theorem find_of_not_mem (inv : Seen s seen) (new : entry.inode ∉ seen) :
    (∀ item, ¬ Known s.objList entry.stats.dev entry.stats.ino item) ∧
      ¬ 0 < findObjInList s.objList entry.stats.dev entry.stats.ino := by
  rcases @findObjInList_cases _ entry.stats.dev entry.stats.ino inv.ordered with
    ⟨item, known, -⟩ | ⟨fresh, found⟩
  · exact absurd ((inv.known _ _).mpr ⟨item, known⟩) new
  · exact ⟨fresh, by rw [found]; decide⟩

/-- A new inode gets its object if there is room. -/
theorem add (inv : Seen s seen) (new : entry.inode ∉ seen) (more : seen.length < maxObjects) :
    ∃ objList, addObjToList s.objList entry.stats.dev entry.stats.ino s.objId = .ok objList ∧
      ∀ s', s'.objList = objList → s'.objId = s.objId + 1 → Seen s' (entry.inode :: seen) := by
  have fresh := (inv.find_of_not_mem new).1
  obtain ⟨objList, added, ordered, members⟩ :=
    @addObjToList_spec _ _ _ s.objId inv.ordered fresh (inv.length.trans_lt more)
  have length : objList.length = s.objList.length + 1 := by
    rw [addObjToList, if_pos (inv.length.trans_lt more)] at added
    cases added
    exact (List.perm_insertionSort _ _).length_eq.trans List.length_append
  refine ⟨objList, added, fun s' table number => ?_⟩
  subst table
  refine ⟨ordered, fun item member => ?_, ?_, fun dev ino => ?_, ?_, more⟩
  · rcases (members item).mp member with old | rfl
    · exact inv.positive item old
    · exact inv.next
  · have := inv.next
    omega
  · rw [List.mem_cons, inv.known]
    simp only [Known, members]
    constructor
    · intro given
      rcases given with same | ⟨item, member, rest⟩
      · refine ⟨⟨entry.stats.dev, entry.stats.ino, s.objId⟩, Or.inr rfl, ?_⟩
        exact ⟨(Prod.mk.inj same).1.symm, (Prod.mk.inj same).2.symm⟩
      · exact ⟨item, Or.inl member, rest⟩
    · intro given
      obtain ⟨item, old | rfl, dev', ino'⟩ := given
      · exact Or.inr ⟨item, old, dev', ino'⟩
      · exact Or.inl (Prod.ext dev'.symm ino'.symm)
  · rw [length, inv.length, List.length_cons]

/-- There is no room for a new inode in a full table. -/
theorem add_full (inv : Seen s seen) (full : ¬ seen.length < maxObjects) :
    addObjToList s.objList entry.stats.dev entry.stats.ino s.objId = .error 2 :=
  if_neg (inv.length ▸ full)

end Seen

/-- A part of the walk that starts in `s` comes to the end of its plan in step with it, or
stops where the object table is full. -/
structure FollowsPlan (env : Env) (lstat : List Byte → Int) (s : Mkyaffs)
    (result : Except Int Mkyaffs) (missed : Prop)
    (plan : List Met × List (BitVec 64 × BitVec 64)) : Prop where
  full : maxObjects < plan.2.length → result = .error 2
  done : plan.2.length ≤ maxObjects → ∃ s', result = .ok s' ∧ Seen s' plan.2 ∧
    OnPlan env s.out.calls s'.out.calls missed (∀ m ∈ plan.1, m.Reads lstat)
      (chunkTotal plan.1)

theorem chunkTotal_append {a b : List Met} : chunkTotal (a ++ b) = chunkTotal a + chunkTotal b := by
  rw [chunkTotal, List.map_append, List.sum_append]
  rfl

section Walk

variable {env : Env} {lstat : List Byte → Int} {parent : Int} {path : List Byte}
  {entry : EntryInfo} {s s' : Mkyaffs} {seen : List (BitVec 64 × BitVec 64)}

namespace FollowsPlan

variable {result first : Except Int Mkyaffs} {missed early : Prop} {a b : List Met}
  {seen' : List (BitVec 64 × BitVec 64)}

/-- The part that ends in `s'`. -/
theorem of_ok (inv : Seen s' seen) (step : OnPlan env s.out.calls s'.out.calls missed
    (∀ m ∈ a, m.Reads lstat) (chunkTotal a)) :
    FollowsPlan env lstat s (.ok s') missed (a, seen) where
  full := fun full => absurd inv.room (not_le.mpr full)
  done := fun _ => ⟨s', rfl, inv, step⟩

theorem of_full (full : maxObjects < seen.length) :
    FollowsPlan env lstat s (.error 2) missed (a, seen) where
  full := fun _ => rfl
  done := fun room => absurd full (not_lt.mpr room)

/-- One part after the other. -/
theorem seq {rest : Mkyaffs → Except Int Mkyaffs} {late : Mkyaffs → Prop}
    (one : FollowsPlan env lstat s first early (a, seen))
    (two : ∀ s', Seen s' seen → FollowsPlan env lstat s' (rest s') (late s') (b, seen'))
    (grown : seen.length ≤ seen'.length)
    (stop : ∀ e, first = .error e → result = .error e)
    (next : ∀ s', first = .ok s' → result = rest s' ∧ (missed ↔ early ∨ late s')) :
    FollowsPlan env lstat s result missed (a ++ b, seen') := by
  by_cases room : seen.length ≤ maxObjects
  case neg =>
    have full := not_le.mp room
    rw [stop 2 (one.full full)]
    exact of_full (full.trans_le grown)
  obtain ⟨m, went, inv, step⟩ := one.done room
  obtain ⟨same, missed'⟩ := next m went
  rw [same]
  refine ⟨(two m inv).full, fun room' => ?_⟩
  obtain ⟨s', went', inv', step'⟩ := (two m inv).done room'
  exact ⟨s', went', inv', (step.seq step').congr missed' List.forall_mem_append chunkTotal_append⟩

end FollowsPlan

mutual

theorem Entry.length_le_met : ∀ (entry : Entry) path (seen : List (BitVec 64 × BitVec 64)),
    seen.length ≤ (entry.met path seen).2.length
  | .mk entry children => by
    intro path seen
    have below := length_le_metOf children (fullName path entry.name) (entry.inode :: seen)
    rw [List.length_cons] at below
    rw [Entry.met]
    split_ifs
    · exact Nat.le_refl _
    · exact Nat.le_refl _
    · exact (Nat.le_succ _).trans below
    · exact Nat.le_succ _
    · exact Nat.le_refl _

theorem length_le_metOf : ∀ (entries : List Entry) path (seen : List (BitVec 64 × BitVec 64)),
    seen.length ≤ (metOf path seen entries).2.length
  | [] => fun _ _ => Nat.le_refl _
  | entry :: entries => fun path seen =>
    (entry.length_le_met path seen).trans (length_le_metOf entries path (entry.met path seen).2)

end

/-! ### One object -/

theorem processObject_unhandled (inv : Seen s seen) (unhandled : ¬ Handled entry.stats.mode) :
    ∃ s', processObject env parent path entry s = .ok (none, s') ∧ Seen s' seen ∧
      s'.out = s.out := by
  rw [processObject]
  dsimp only
  rw [if_pos unhandled]
  exact ⟨_, rfl, inv.congr rfl (Int.le_refl _), rfl⟩

theorem processObject_old (inv : Seen s seen) (handled : Handled entry.stats.mode)
    (old : entry.inode ∈ seen) :
    (emittedHeader parent entry s).type = .hardlink ∧
      ∃ s', processObject env parent path entry s = .ok (none, s') ∧ Seen s' seen ∧
        emitObject env s.out (emittedHeader parent entry s) = .ok s'.out := by
  have found := inv.find_of_mem old
  have header : emittedHeader parent entry s = ⟨s.objId, .hardlink, parent,
      findObjInList s.objList entry.stats.dev entry.stats.ino, entry⟩ := if_pos found
  obtain ⟨out, emitted, -⟩ := @emitObject_ok env s.out (emittedHeader parent entry s)
  rw [header] at emitted ⊢
  rw [processObject]
  dsimp only
  rw [if_neg (not_not.mpr handled), if_pos found, emitted]
  exact ⟨rfl, _, rfl, inv.congr rfl (Int.le_add_one (Int.le_refl _)), rfl⟩

theorem processObject_full (inv : Seen s seen) (handled : Handled entry.stats.mode)
    (new : entry.inode ∉ seen) (full : ¬ seen.length < maxObjects) :
    processObject env parent path entry s = .error 2 := by
  rw [processObject]
  dsimp only
  rw [if_neg (not_not.mpr handled), if_neg (inv.find_of_not_mem new).2, inv.add_full full]

theorem processObject_new (inv : Seen s seen) (handled : Handled entry.stats.mode)
    (new : entry.inode ∉ seen) (more : seen.length < maxObjects) :
    (emittedHeader parent entry s).type = objectType entry.stats.mode ∧
      ∃ s', processObject env parent path entry s =
          .ok (if objectType entry.stats.mode = .directory then some s.objId else none, s') ∧
        Seen s' (entry.inode :: seen) ∧
        emitObject env s.out (emittedHeader parent entry s) = .ok s'.out := by
  have fresh := (inv.find_of_not_mem new).2
  have header : emittedHeader parent entry s =
      ⟨s.objId, objectType entry.stats.mode, parent, -1, entry⟩ := if_neg fresh
  obtain ⟨objList, added, inv'⟩ := inv.add new more
  obtain ⟨out, emitted, -⟩ := @emitObject_ok env s.out (emittedHeader parent entry s)
  rw [header] at emitted ⊢
  rw [processObject]
  dsimp only
  rw [if_neg (not_not.mpr handled), if_neg fresh, added]
  dsimp only
  rw [emitted]
  exact ⟨rfl, _, rfl, inv' _ rfl rfl, rfl⟩

/-- What the walk does with an entry, in step with the plan: the entry as it is met, the
inodes seen after it, and the result of `processObject`. -/
inductive Meets (env : Env) (parent : Int) (path : List Byte) (entry : EntryInfo) (s : Mkyaffs)
    (seen : List (BitVec 64 × BitVec 64)) :
    Met → List (BitVec 64 × BitVec 64) → Except Int (Option Int × Mkyaffs) → Prop
  | unhandled {s' : Mkyaffs} : ¬ Handled entry.stats.mode → Seen s' seen → s'.out = s.out →
      Meets env parent path entry s seen ⟨fullName path entry.name, entry, none⟩ seen
        (.ok (none, s'))
  | full : maxObjects ≤ seen.length →
      Meets env parent path entry s seen
        ⟨fullName path entry.name, entry, some (objectType entry.stats.mode)⟩
        (entry.inode :: seen) (.error 2)
  | object {type : ObjectType} {seen' : List (BitVec 64 × BitVec 64)} {s' : Mkyaffs} :
      Handled entry.stats.mode → (emittedHeader parent entry s).type = type → Seen s' seen' →
      emitObject env s.out (emittedHeader parent entry s) = .ok s'.out →
      Meets env parent path entry s seen ⟨fullName path entry.name, entry, some type⟩ seen'
        (.ok (if type = .directory then some s.objId else none, s'))

/-- Each entry that is not ignored is met, and what the plan has below it is below a
directory that opens. -/
theorem entry_meets (parent : Int) (path : List Byte) (children : List Entry) (inv : Seen s seen)
    (kept : ¬ Ignored entry.name) :
    ∃ m seen' result, processObject env parent path entry s = result ∧
      Meets env parent path entry s seen m seen' result ∧
      (Entry.mk entry children).met path seen =
        if m.type = some .directory ∧ entry.opendirOk = true then
          (m :: (metOf (fullName path entry.name) seen' children).1,
            (metOf (fullName path entry.name) seen' children).2)
        else ([m], seen') := by
  rw [Entry.met, if_neg kept]
  by_cases handled : Handled entry.stats.mode
  case neg =>
    obtain ⟨s', visited, inv', out⟩ :=
      @processObject_unhandled env parent path entry s _ inv handled
    refine ⟨_, _, _, visited, .unhandled handled inv' out, ?_⟩
    rw [if_pos handled]
    exact (if_neg fun both => by cases both.1).symm
  rw [if_neg (not_not.mpr handled)]
  by_cases old : entry.inode ∈ seen
  · obtain ⟨link, s', visited, inv', emitted⟩ :=
      @processObject_old env parent path entry s _ inv handled old
    refine ⟨_, _, _, visited, .object handled link inv' emitted, ?_⟩
    rw [if_pos old]
    exact (if_neg fun both => by cases both.1).symm
  rw [if_neg old]
  have descends : objectType entry.stats.mode = .directory ∧ entry.opendirOk = true ↔
      some (objectType entry.stats.mode) = some .directory ∧ entry.opendirOk = true := by
    rw [Option.some.injEq]
  have plan : ∀ p seen', (if objectType entry.stats.mode = .directory ∧ entry.opendirOk = true
      then ((⟨p, entry, some .directory⟩ : Met) :: (metOf p seen' children).1,
        (metOf p seen' children).2)
      else ([⟨p, entry, some (objectType entry.stats.mode)⟩], seen')) =
      if some (objectType entry.stats.mode) = some .directory ∧ entry.opendirOk = true
      then (⟨p, entry, some (objectType entry.stats.mode)⟩ :: (metOf p seen' children).1,
        (metOf p seen' children).2)
      else ([⟨p, entry, some (objectType entry.stats.mode)⟩], seen') := by
    intro p seen'
    by_cases opens : objectType entry.stats.mode = .directory ∧ entry.opendirOk = true
    · rw [if_pos opens, if_pos (descends.mp opens), opens.1]
    · rw [if_neg opens, if_neg (mt descends.mpr opens)]
  by_cases more : seen.length < maxObjects
  · obtain ⟨type, s', visited, inv', emitted⟩ :=
      @processObject_new env parent path entry s _ inv handled old more
    exact ⟨_, _, _, visited, .object handled type inv' emitted, plan _ _⟩
  · exact ⟨_, _, _, processObject_full inv handled old more, .full (Nat.not_lt.mp more),
      plan _ _⟩

theorem emittedHeader_entry : (emittedHeader parent entry s).entry = entry := by
  unfold emittedHeader
  dsimp only
  split
  · rfl
  · rfl

/-- The object of an entry, with the `lstat` before it and the `opendir` after it. -/
theorem object_onPlan {type : ObjectType}
    (type' : (emittedHeader parent entry s).type = type)
    (emitted : emitObject env s.out (emittedHeader parent entry s) = .ok s'.out)
    (p : List Byte) :
    OnPlan env s.out.calls s'.out.calls
      (lstat p < 0 ∨ emitMissed env s.out (emittedHeader parent entry s) ∨
        type = .directory ∧ entry.opendirOk = false)
      (∀ m ∈ [(⟨p, entry, some type⟩ : Met)], m.Reads lstat)
      (chunkTotal [(⟨p, entry, some type⟩ : Met)]) := by
  obtain ⟨out, emitted', step⟩ := @emitObject_onPlan env s.out (emittedHeader parent entry s)
  cases emitted.symm.trans emitted'
  rw [type', emittedHeader_entry] at step
  have stats : ¬ lstat p < 0 ↔ 0 ≤ lstat p := not_lt
  have opens : ¬ (type = .directory ∧ entry.opendirOk = false) ↔
      (type = .directory → entry.opendirOk = true) := by
    rw [not_and, Bool.not_eq_false]
  refine ((OnPlan.refl stats).seq (step.seq (OnPlan.refl opens))).congr Iff.rfl ?_ ?_
  · rw [List.forall_mem_singleton]
    constructor
    · intro reads
      exact ⟨reads.lstat, fun file => reads.content (congrArg some file),
        fun directory => reads.opendir (congrArg some directory)⟩
    · intro reads
      exact ⟨reads.1, fun file => reads.2.1 (Option.some.inj file),
        fun directory => reads.2.2 (Option.some.inj directory)⟩
  · rw [Nat.zero_add]
    rfl

/-- An entry follows its plan if its children, which may be walked, follow theirs. -/
theorem entry_follows {children : List Entry}
    (below : ∀ parent path s seen, Seen s seen →
      FollowsPlan env lstat s (processEntries env parent path children s)
        (entriesMissed env lstat parent path children s) (metOf path seen children))
    (inv : Seen s seen) :
    FollowsPlan env lstat s (processEntry env parent path (.mk entry children) s)
      (entryMissed env lstat parent path (.mk entry children) s)
      ((Entry.mk entry children).met path seen) := by
  rw [processEntry, entryMissed]
  by_cases ignored : Ignored entry.name
  · rw [Entry.met, if_pos ignored, if_pos ignored]
    refine FollowsPlan.of_ok inv (OnPlan.refl (iff_of_true ?_ (List.forall_mem_nil _)))
    exact fun given => given.1 ignored
  obtain ⟨m, seen', result, visited, meets, plan⟩ :=
    @entry_meets env entry s seen parent path children inv ignored
  rw [if_neg ignored, and_iff_right ignored, plan, visited]
  cases meets with
  | unhandled unhandled inv' out =>
    rw [if_neg fun both => by cases both.1]
    refine FollowsPlan.of_ok inv' ?_
    rw [out]
    refine OnPlan.refl ?_
    simp only [Except.ok.injEq, Prod.mk.injEq, reduceCtorEq, false_and, exists_false, or_false,
      unhandled, not_lt, List.forall_mem_singleton]
    constructor
    · intro stats
      exact ⟨stats, fun none => absurd none (by simp), fun none => absurd none (by simp)⟩
    · exact Met.Reads.lstat
  | full full =>
    have grown := length_le_metOf children (fullName path entry.name) (entry.inode :: seen)
    rw [List.length_cons] at grown
    dsimp only
    split
    · exact FollowsPlan.of_full (full.trans_lt grown)
    · exact FollowsPlan.of_full (Nat.lt_succ_of_le full)
  | @object type _ s' handled type' inv' emitted =>
    have step := @object_onPlan env lstat parent entry s s' _ type' emitted
      (fullName path entry.name)
    rw [and_iff_right handled]
    by_cases directory : type = .directory
    case neg =>
      rw [if_neg directory, if_neg fun both => directory (Option.some.inj both.1)]
      refine FollowsPlan.of_ok inv' (step.congr ?_ Iff.rfl rfl)
      simp only [Except.ok.injEq, Prod.mk.injEq, reduceCtorEq, false_and, exists_false, directory]
    rw [if_pos directory]
    by_cases opens : entry.opendirOk = true
    · have first : FollowsPlan env lstat s (.ok s'.countDirectory)
          (lstat (fullName path entry.name) < 0 ∨
            emitMissed env s.out (emittedHeader parent entry s))
          ([⟨fullName path entry.name, entry, some type⟩], seen') := by
        refine FollowsPlan.of_ok (inv'.congr rfl (Int.le_refl _)) (step.congr ?_ Iff.rfl rfl)
        simp only [opens, Bool.true_eq_false, and_false, or_false]
      rw [if_pos ⟨congrArg some directory, opens⟩]
      refine first.seq (below s.objId (fullName path entry.name) · _) (length_le_metOf _ _ _)
        (fun e stop => by cases stop) fun m went => ?_
      cases went
      dsimp only
      rw [if_pos opens]
      refine ⟨rfl, ?_⟩
      rw [or_assoc]
      refine or_congr_right (or_congr_right ?_)
      simp only [Except.ok.injEq, Prod.mk.injEq, Option.some.injEq, opens, Bool.true_eq_false,
        false_or, and_assoc, exists_and_left, exists_eq_left']
    · rw [if_neg fun both => opens both.2]
      dsimp only
      rw [if_neg opens]
      refine FollowsPlan.of_ok (inv'.congr rfl (Int.le_refl _)) (step.congr ?_ Iff.rfl rfl)
      have closed : entry.opendirOk = false := Bool.eq_false_of_not_eq_true opens
      refine or_congr_right (or_congr_right (iff_of_true ?_ ⟨directory, closed⟩))
      exact ⟨s.objId, s', rfl, Or.inl closed⟩

mutual

/-- The walk of an entry follows its plan. -/
theorem Entry.follows : ∀ (entry : Entry) parent path s seen, Seen s seen →
    FollowsPlan env lstat s (processEntry env parent path entry s)
      (entryMissed env lstat parent path entry s) (entry.met path seen)
  | .mk _ children => fun _ _ _ _ inv => entry_follows (entries_follow children) inv

theorem entries_follow : ∀ (entries : List Entry) parent path s seen, Seen s seen →
    FollowsPlan env lstat s (processEntries env parent path entries s)
      (entriesMissed env lstat parent path entries s) (metOf path seen entries)
  | [] => by
    intro parent path s seen inv
    exact FollowsPlan.of_ok inv (OnPlan.refl (iff_of_true id (List.forall_mem_nil _)))
  | entry :: entries => by
    intro parent path s seen inv
    have rest := fun s' => entries_follow entries parent path s' (entry.met path seen).2
    refine (entry.follows parent path s seen inv).seq rest (length_le_metOf _ _ _)
      (fun e stop => ?_) fun s' went => ?_
    · rw [processEntries, stop]
    · rw [processEntries, entriesMissed, went]
      refine ⟨rfl, or_congr_right ?_⟩
      simp only [Except.ok.injEq, exists_eq_left']

end

end Walk

/-! ## The run -/

section Run

variable {env : Env} {lstat : List Byte → Int} {root : EntryInfo} {path : List Byte}
  {entries : List Entry}

/-- The result of `write_chunk` is that of its last write. -/
theorem writeChunk_error {out out' : Output} {chunk : Chunk} {error : Int}
    (written : writeChunk env out chunk = .ok (error, out')) :
    error ≠ 0 ↔ env.write out.calls chunkSize < 0 ∨ env.write (out.calls + 1) spareSize ≠ 0 := by
  obtain ⟨spare, room⟩ := spareBuf_ok env (yaffsPackTags2 chunk.tags)
  simp only [writeChunk, Output.write, room] at written
  by_cases failed : env.write out.calls chunkSize < 0
  · rw [if_pos failed] at written
    cases written
    exact iff_of_true (ne_of_lt failed) (Or.inl failed)
  · rw [if_neg failed] at written
    cases written
    exact (or_iff_right failed).symm

theorem root_error {out : Output}
    (emitted : emitObject env Mkyaffs.start.out (rootHeader root) = .ok out) :
    out.error ≠ 0 ↔ env.write 0 chunkSize < 0 ∨ env.write 1 spareSize ≠ 0 := by
  obtain ⟨error, mid, written, -⟩ := @writeChunk_ok env
    { Mkyaffs.start.out with headers := [rootHeader root] } (rootHeader root).chunk
  have emitted' : emitObject env Mkyaffs.start.out (rootHeader root) =
      .ok { mid with error := error } := by
    have header : writeObjectHeader env Mkyaffs.start.out (rootHeader root)
        (rootHeader root).target = .ok (error, mid) := written
    have directory : (rootHeader root).type ≠ .file := by simp [rootHeader]
    rw [emitObject, header]
    exact if_neg fun both => directory both.1
  cases emitted.symm.trans emitted'
  exact writeChunk_error written

theorem seen_start {out : Output} : Seen { Mkyaffs.start with out := out }.countDirectory [] where
  ordered := List.Pairwise.nil
  positive := List.forall_mem_nil _
  next := show (0 : Int) < 257 by decide
  known := fun dev ino => iff_of_false List.not_mem_nil fun given => by
    obtain ⟨item, member, -⟩ := given
    cases member
  length := rfl
  room := Nat.zero_le _

/-- A run that does not fill the table ends without an error, whatever it has missed. -/
theorem mkyaffs2image_follows :
    (TableFull env root path entries → mkyaffs2image env root path entries = .error 2) ∧
      (¬ TableFull env root path entries → ∃ s, mkyaffs2image env root path entries = .ok s ∧
        s.out.error = 0 ∧
        (¬ runMissed env lstat root path entries ↔ Untroubled env lstat root path entries)) := by
  obtain ⟨out, emitted, header⟩ := @emitObject_onPlan env Mkyaffs.start.out (rootHeader root)
  have walks := root_error emitted
  have follows := @entries_follow env lstat entries yaffsObjectIdRoot path _ [] (@seen_start out)
  have missed : runMissed env lstat root path entries ↔
      emitMissed env Mkyaffs.start.out (rootHeader root) ∨ out.error ≠ 0 ∧
        (root.opendirOk = false ∨ entriesMissed env lstat yaffsObjectIdRoot path entries
          { Mkyaffs.start with out := out }.countDirectory) := by
    rw [runMissed, emitted]
    simp only [Except.ok.injEq, exists_eq_left']
  have first := header.whole 0 rfl
  have walked : WritesWhole env 0 1 → out.error ≠ 0 := by
    intro whole
    rw [walks, (whole 0 (Nat.le_refl 0) Nat.one_pos).2]
    exact Or.inr (by decide)
  rw [rootHeader] at emitted
  rw [missed, mkyaffs2image, emitted]
  dsimp only
  by_cases zero : out.error = 0
  · rw [if_neg (not_not.mpr zero)]
    refine ⟨fun full => absurd zero (walks.mpr full.1), fun _ => ⟨_, rfl, zero, iff_of_false ?_ ?_⟩⟩
    · intro none
      rw [not_or] at none
      exact walked (first.mp none.1).2 zero
    · intro all
      exact walked (writesWhole_add.mp all.2.2).1 zero
  rw [if_pos zero, processDirectory]
  by_cases opens : root.opendirOk = true
  case neg =>
    rw [if_neg opens]
    refine ⟨fun full => absurd full.2.1 opens, fun _ => ⟨_, rfl, rfl, iff_of_false ?_ ?_⟩⟩
    · intro none
      exact none (Or.inr ⟨zero, Or.inl (Bool.eq_false_of_not_eq_true opens)⟩)
    · exact fun all => opens all.1
  rw [if_pos opens]
  constructor
  · intro full
    rw [follows.full full.2.2]
  · intro room
    have room' : (metOf path [] entries).2.length ≤ maxObjects := by
      by_contra full
      exact room ⟨walks.mp zero, opens, not_le.mp full⟩
    obtain ⟨s, went, -, step⟩ := follows.done room'
    rw [went]
    refine ⟨_, rfl, rfl, ?_⟩
    have both := (header.seq step).whole 0 rfl
    have type : (rootHeader root).type ≠ .file := by simp [rootHeader]
    rw [objectCount, if_neg type, and_iff_right fun file => absurd file type] at both
    rw [Untroubled, and_iff_right opens, ← both]
    simp only [zero, opens, ne_eq, not_false_eq_true, true_and, Bool.true_eq_false, false_or]

theorem mkyaffs2imageMain_ok {inv : Invocation} {s : Mkyaffs}
    (started : inv.started = some (env, root))
    (ended : mkyaffs2image env root inv.path inv.entries = .ok s) (clear : s.out.error = 0) :
    mkyaffs2imageMain inv = (0, true) := by
  rw [mkyaffs2imageMain, started]
  dsimp only
  rw [ended]
  exact if_neg (by rw [clear]; decide)

theorem mkyaffs2imageMain_error {inv : Invocation} {e : Int}
    (started : inv.started = some (env, root))
    (ended : mkyaffs2image env root inv.path inv.entries = .error e) :
    mkyaffs2imageMain inv = (e, false) := by
  rw [mkyaffs2imageMain, started]
  dsimp only
  rw [ended]

end Run

/-- The failure of a run that misses something is reported if and only if nothing that is
planned fails, so that there is no such run, or the object table is full. -/
theorem main_reports_failure_iff (inv : Invocation) :
    (Missed inv → (mkyaffs2imageMain inv).1 ≠ 0 ∧ (mkyaffs2imageMain inv).2 = false) ↔
      ∀ env root, inv.started = some (env, root) →
        Untroubled env inv.lstat root inv.path inv.entries ∨
          TableFull env root inv.path inv.entries := by
  cases started : inv.started with
  | none => simp [Missed, started]
  | some run =>
    obtain ⟨env, root⟩ := run
    obtain ⟨full, done⟩ := @mkyaffs2image_follows env inv.lstat root inv.path inv.entries
    have missed : Missed inv ↔ runMissed env inv.lstat root inv.path inv.entries := by
      simp only [Missed, started, Option.some.injEq, Prod.mk.injEq, and_assoc, exists_and_left,
        exists_eq_left']
    by_cases tableFull : TableFull env root inv.path inv.entries
    · rw [mkyaffs2imageMain_error started (full tableFull)]
      refine iff_of_true (fun _ => ⟨by decide, rfl⟩) fun env' root' given => ?_
      cases given
      exact Or.inr tableFull
    · obtain ⟨s, ended, clear, untroubled⟩ := done tableFull
      rw [mkyaffs2imageMain_ok started ended clear, missed]
      constructor
      · intro reported env' root' given
        cases given
        exact Or.inl (untroubled.mp fun given => (reported given).1 rfl)
      · intro holds given
        rcases holds env root rfl with all | full'
        · exact absurd given (untroubled.mpr all)
        · exact absurd full' tableFull

/-- The disk fills up after the headers of the root and of the first file. -/
def fullDisk : Invocation where
  argc := 4
  layoutNo := some 1
  small := by
    intro n given
    cases given
    decide
  convert := false
  root := some linkedTreeRoot
  outFile := 3
  path := [0x2f]
  entries := linkedTree
  lstat := fun _ => 0
  write := fun call count => if call < 4 then count else -1
  bound := by
    intro call count
    split <;> omega
  padding := fill 0

/-- No content of the file gets into the image, and the operation is complete. -/
theorem full_disk_succeeds :
    (Missed fullDisk ∧ mkyaffs2imageMain fullDisk = (0, true)) ∧
      ¬ (Missed fullDisk →
        (mkyaffs2imageMain fullDisk).1 ≠ 0 ∧ (mkyaffs2imageMain fullDisk).2 = false) := by
  let env : Env := ⟨1, by decide, fullDisk.write, fullDisk.bound, fullDisk.padding⟩
  have started : fullDisk.started = some (env, linkedTreeRoot) := rfl
  have room : ¬ TableFull env linkedTreeRoot [0x2f] linkedTree :=
    fun full => absurd full.2.2 (by decide)
  obtain ⟨s, ended, clear, same⟩ :=
    (@mkyaffs2image_follows env fullDisk.lstat linkedTreeRoot [0x2f] linkedTree).2 room
  have missed : Missed fullDisk := by
    refine ⟨env, linkedTreeRoot, started, ?_⟩
    by_contra none
    -- the data of the third chunk are written by call 4
    have third := (same.mp none).2.2 2 (Nat.zero_le 2) (by decide)
    exact absurd third.1 (by decide)
  have success := mkyaffs2imageMain_ok started ended clear
  refine ⟨⟨missed, success⟩, fun reported => ?_⟩
  rw [success] at reported
  exact (reported missed).1 rfl

end VirtualNoah
