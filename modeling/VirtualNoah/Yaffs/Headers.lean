import Mathlib.Data.Finset.Card
import VirtualNoah.Yaffs.Walk

/-!
# The headers of an image

The headers form a tree: each is below the root or below a directory whose header
comes before it, and a hard link names the one object its inode got when it was met
first.  What the walk keeps is about the calls of `write_object_header` and the object
table, ordered by inode, which links the headers that are not hard links to the
searches (`HeaderTree.table`).  What follows from it is read off the chunks that have
been written (`ImageHeader`).
-/

namespace VirtualNoah

open ByteStore SortedTable

def EntryInfo.inode (entry : EntryInfo) : BitVec 64 × BitVec 64 :=
  (entry.stats.dev, entry.stats.ino)

/-- The inodes of the objects of a tree. -/
def inodes (entries : List Entry) : Finset (BitVec 64 × BitVec 64) :=
  (((objectsOf entries).filter fun entry => Handled entry.stats.mode).map EntryInfo.inode).toFinset

/-! ## Headers in the image -/

/-- A chunk with an object header, and the entry the header is about. -/
structure ImageHeader where
  chunk : Chunk
  entry : EntryInfo

namespace ImageHeader

/-- `objectId` of the tags -/
def objectId (h : ImageHeader) : BitVec 32 := h.chunk.tags.objectId

/-- `type`, `parentObjectId` and `equivalentObjectId` of the page -/
def type (h : ImageHeader) : BitVec 32 := load32 h.chunk.data 0
def parentObjectId (h : ImageHeader) : BitVec 32 := load32 h.chunk.data 4
def equivalentObjectId (h : ImageHeader) : BitVec 32 := load32 h.chunk.data 296

end ImageHeader

/-- The chunks of headers with the entries they have been written for. -/
def Output.imageHeaders (out : Output) : List ImageHeader :=
  List.zipWith ImageHeader.mk out.headerChunks (out.headers.map Header.entry)

def Header.image (h : Header) : ImageHeader := ⟨h.chunk, h.entry⟩

section Image

variable {h : Header} {out : Output} {type type' : ObjectType}

theorem code_inj : type.code = type'.code ↔ type = type' := by
  constructor
  · cases type <;> cases type' <;> decide
  · exact congrArg ObjectType.code

@[simp] theorem image_objectId : h.image.objectId = BitVec.ofInt 32 h.objId := rfl

@[simp] theorem image_type : h.image.type = h.type.code := (headerBytes_links h h.target).1

@[simp] theorem image_parentObjectId : h.image.parentObjectId = BitVec.ofInt 32 h.parent :=
  (headerBytes_links h h.target).2.1

theorem image_equivalentObjectId (link : h.type = .hardlink) :
    h.image.equivalentObjectId = BitVec.ofInt 32 h.equivalentObj :=
  (headerBytes_links h h.target).2.2 link

/-- The image has the headers that have been written. -/
theorem imageHeaders_eq (chunks : out.headerChunks = out.headers.map Header.chunk) :
    out.imageHeaders = out.headers.map Header.image := by
  rw [Output.imageHeaders, chunks]
  induction out.headers with
  | nil => rfl
  | cons h hs ih => exact congrArg (h.image :: ·) ih

end Image

/-- What holds between a header and the ones before it, the root's aside. -/
structure Linked (earlier : List ImageHeader) (h : ImageHeader) : Prop where
  /-- The parent is the root, or a directory before it. -/
  parent : h.parentObjectId = BitVec.ofInt 32 yaffsObjectIdRoot ∨
    ∃ d ∈ earlier, d.type = ObjectType.directory.code ∧ d.objectId = h.parentObjectId
  /-- A hard link names the only object of its inode. -/
  link : h.type = ObjectType.hardlink.code → ∃ g ∈ earlier,
    (g.type ≠ ObjectType.hardlink.code ∧ g.entry.inode = h.entry.inode ∧
      g.objectId = h.equivalentObjectId) ∧
      ∀ g' ∈ earlier, g'.type ≠ ObjectType.hardlink.code → g'.entry.inode = h.entry.inode →
        g' = g
  /-- Any other object is the first one of its inode. -/
  first : h.type ≠ ObjectType.hardlink.code →
    ∀ g ∈ earlier, g.type ≠ ObjectType.hardlink.code → g.entry.inode ≠ h.entry.inode

/-- Each header is linked to the ones before it. -/
def AllLinked (written : List ImageHeader) : Prop :=
  ∀ earlier h later, written = earlier ++ h :: later → Linked earlier h

theorem AllLinked.concat {written : List ImageHeader} {h : ImageHeader} (all : AllLinked written)
    (last : Linked written h) : AllLinked (written ++ [h]) := by
  intro earlier g later split
  rcases List.eq_nil_or_concat later with rfl | ⟨later, h', rfl⟩
  · obtain ⟨rfl, rfl⟩ := List.append_inj' split rfl |>.imp id List.head_eq_of_cons_eq
    exact last
  · rw [List.concat_eq_append, ← List.cons_append, ← List.append_assoc] at split
    exact all earlier g later (List.append_inj' split rfl).1

/-! ## The invariant -/

/-- The object a header puts into the table. -/
def Header.item (h : Header) : ObjItem := ⟨h.entry.stats.dev, h.entry.stats.ino, h.objId⟩

/-- The state of the walk after the headers `written` behind the root's. -/
structure HeaderTree (root : Header) (written : List Header) (s : Mkyaffs) : Prop where
  headers : s.out.headers = root :: written
  increasing : written.Pairwise fun g h => g.objId < h.objId
  range : 256 < s.objId ∧ ∀ h ∈ written, 256 < h.objId ∧ h.objId < s.objId
  count : s.objId = 257 + written.length
  typed : ∀ h ∈ written, h.type = .hardlink ∨ h.type = objectType h.entry.stats.mode
  linked : AllLinked (written.map Header.image)
  ordered : Ordered objComparator s.objList
  table : ∀ item, item ∈ s.objList ↔ ∃ h ∈ written, h.type ≠ .hardlink ∧ item = h.item

namespace HeaderTree

variable {root h : Header} {written : List Header} {s s' : Mkyaffs}

theorem positive (tree : HeaderTree root written s) : ∀ item ∈ s.objList, 0 < item.obj := by
  intro item member
  obtain ⟨h, given, -, rfl⟩ := (tree.table item).mp member
  exact lt_trans (by decide) (tree.range.2 h given).1

theorem nodup (tree : HeaderTree root written s) : (written.map Header.objId).Nodup :=
  List.pairwise_map.mpr (tree.increasing.imp fun smaller => ne_of_lt smaller)

/-- Two objects of one inode are one object. -/
theorem object_unique (tree : HeaderTree root written s) {g g' : Header} (given : g ∈ written)
    (given' : g' ∈ written) (object : g.type ≠ .hardlink) (object' : g'.type ≠ .hardlink)
    (same : g'.entry.inode = g.entry.inode) : g' = g := by
  have equal : g'.item = g.item := by
    refine tree.ordered.eq_of_compar_eq_zero ((tree.table _).mpr ⟨g', given', object', rfl⟩)
      ((tree.table _).mpr ⟨g, given, object, rfl⟩) (objCompare_eq_zero.mpr ?_)
    exact Prod.mk.inj same
  exact List.inj_on_of_nodup_map tree.nodup given' given (congrArg ObjItem.obj equal)

/-- The object a hard link is a link to has a header, too. -/
theorem link_object (tree : HeaderTree root written s) (given : h ∈ written)
    (link : h.type = .hardlink) :
    ∃ g ∈ written, g.type ≠ .hardlink ∧ g.entry.inode = h.entry.inode := by
  have image : h.image ∈ written.map Header.image := List.mem_map_of_mem given
  obtain ⟨earlier, later, split⟩ := List.append_of_mem image
  have linked := tree.linked earlier h.image later split
  obtain ⟨g', before, ⟨object, same, -⟩, -⟩ :=
    linked.link (image_type.trans (congrArg ObjectType.code link))
  have member : g' ∈ written.map Header.image := split ▸ List.mem_append_left _ before
  obtain ⟨g, given', rfl⟩ := List.mem_map.mp member
  rw [image_type, ne_eq, code_inj] at object
  exact ⟨g, given', object, same⟩

/-- One more header, and its object in the table unless it is a hard link. -/
theorem concat (tree : HeaderTree root written s) (number : h.objId = s.objId)
    (next : s'.objId = s.objId + 1) (headers : s'.out.headers = s.out.headers ++ [h])
    (typed : h.type = .hardlink ∨ h.type = objectType h.entry.stats.mode)
    (linked : Linked (written.map Header.image) h.image)
    (ordered : Ordered objComparator s'.objList)
    (table : ∀ item, item ∈ s'.objList ↔
      item ∈ s.objList ∨ h.type ≠ .hardlink ∧ item = h.item) :
    HeaderTree root (written ++ [h]) s' where
  headers := by rw [headers, tree.headers, List.cons_append]
  increasing := by
    rw [List.pairwise_append]
    refine ⟨tree.increasing, List.pairwise_singleton _ _, fun g given last new => ?_⟩
    rw [List.mem_singleton.mp new, number]
    exact (tree.range.2 g given).2
  range := by
    refine ⟨by rw [next]; have := tree.range.1; omega, fun g given => ?_⟩
    rw [next]
    rcases List.mem_append.mp given with old | new
    · have := tree.range.2 g old
      omega
    · rw [List.mem_singleton.mp new, number]
      have := tree.range.1
      omega
  count := by
    rw [next, tree.count, List.length_append, List.length_singleton, Nat.cast_add, Nat.cast_one,
      add_assoc]
  typed := by
    intro g given
    rcases List.mem_append.mp given with old | new
    · exact tree.typed g old
    · exact List.mem_singleton.mp new ▸ typed
  linked := by
    rw [List.map_append]
    exact tree.linked.concat linked
  ordered := ordered
  table := by
    intro item
    rw [table, tree.table]
    simp only [List.mem_append, List.mem_singleton, or_and_right, exists_or, exists_eq_left]

/-- The tree reads the headers, the table and the next id. -/
theorem congr (tree : HeaderTree root written s) (headers : s'.out.headers = s.out.headers)
    (objList : s'.objList = s.objList) (objId : s'.objId = s.objId) :
    HeaderTree root written s' := by
  refine ⟨headers.trans tree.headers, tree.increasing, ?_, objId.trans tree.count, tree.typed,
    tree.linked, ?_, ?_⟩
  · rw [objId]
    exact tree.range
  · rw [objList]
    exact tree.ordered
  · rw [objList]
    exact tree.table

/-- The objects of the table are of different inodes, so there is room for another one. -/
theorem room {known : Finset (BitVec 64 × BitVec 64)} {dev ino : BitVec 64}
    (tree : HeaderTree root written s) (within : ∀ item ∈ s.objList, (item.dev, item.ino) ∈ known)
    (fresh : ∀ item, ¬ Known s.objList dev ino item) (new : (dev, ino) ∈ known)
    (few : known.card ≤ maxObjects) : s.objList.length < maxObjects := by
  let keys := s.objList.map fun item => (item.dev, item.ino)
  have distinct : keys.Nodup := by
    refine List.pairwise_map.mpr (tree.ordered.imp fun {a b} smaller same => ?_)
    exact absurd (objCompare_eq_zero.mpr (Prod.mk.inj same)) (ne_of_lt smaller)
  have inside : keys.toFinset ⊆ known.erase (dev, ino) := by
    intro key member
    obtain ⟨item, given, rfl⟩ := List.mem_map.mp (List.mem_toFinset.mp member)
    refine Finset.mem_erase.mpr ⟨fun same => ?_, within item given⟩
    exact fresh item ⟨given, (Prod.mk.inj same).1, (Prod.mk.inj same).2⟩
  have count := Finset.card_le_card inside
  have pos := Finset.card_pos.mpr ⟨_, new⟩
  rw [List.toFinset_card_of_nodup distinct, List.length_map, Finset.card_erase_of_mem new] at count
  omega

end HeaderTree

/-! ## The walk keeps it -/

/-- The headers so far form a tree, and the table holds inodes of the tree only. -/
def HeadersInv (root : Header) (known : Finset (BitVec 64 × BitVec 64)) (s : Mkyaffs) : Prop :=
  (∃ written, HeaderTree root written s) ∧ ∀ item ∈ s.objList, (item.dev, item.ino) ∈ known

/-- The root, or a directory that has its header. -/
def HasDirectory (s : Mkyaffs) (p : Int) : Prop :=
  p = yaffsObjectIdRoot ∨ ∃ d ∈ s.out.headers.tail, d.type = .directory ∧ d.objId = p

section Visits

variable {env : Env} {root : Header} {known : Finset (BitVec 64 × BitVec 64)} {parent : Int}
  {entry : EntryInfo} {s s' : Mkyaffs} {opened : Option Int} {written : List Header}

/-- The parent of a header is found in the image. -/
theorem image_parent {h : Header} (directory : h.parent = yaffsObjectIdRoot ∨
    ∃ d ∈ written, d.type = .directory ∧ d.objId = h.parent) :
    h.image.parentObjectId = BitVec.ofInt 32 yaffsObjectIdRoot ∨
      ∃ d ∈ written.map Header.image,
        d.type = ObjectType.directory.code ∧ d.objectId = h.image.parentObjectId := by
  rw [image_parentObjectId]
  refine directory.imp (congrArg _) ?_
  rintro ⟨d, member, type, number⟩
  refine ⟨d.image, List.mem_map_of_mem member, ?_, ?_⟩
  · rw [image_type, type]
  · rw [image_objectId, number]

/-- The links of a header that is no hard link. -/
theorem Linked.object {h : Header}
    (directory : h.parent = yaffsObjectIdRoot ∨
      ∃ d ∈ written, d.type = .directory ∧ d.objId = h.parent)
    (object : h.type ≠ .hardlink)
    (fresh : ∀ g ∈ written, g.type ≠ .hardlink → g.entry.inode ≠ h.entry.inode) :
    Linked (written.map Header.image) h.image where
  parent := image_parent directory
  link same := absurd (code_inj.mp (image_type.symm.trans same)) object
  first _ := by
    simp only [List.forall_mem_map, image_type, ne_eq, code_inj]
    exact fresh

/-- The links of a hard link to the object `g`. -/
theorem Linked.hardlink {h g : Header}
    (directory : h.parent = yaffsObjectIdRoot ∨
      ∃ d ∈ written, d.type = .directory ∧ d.objId = h.parent)
    (type : h.type = .hardlink) (member : g ∈ written) (object : g.type ≠ .hardlink)
    (same : g.entry.inode = h.entry.inode) (number : h.equivalentObj = g.objId)
    (unique : ∀ g' ∈ written, g'.type ≠ .hardlink → g'.entry.inode = h.entry.inode → g' = g) :
    Linked (written.map Header.image) h.image where
  parent := image_parent directory
  link _ := by
    refine ⟨g.image, List.mem_map_of_mem member, ⟨?_, same, ?_⟩, ?_⟩
    · rwa [image_type, ne_eq, code_inj]
    · rw [image_objectId, image_equivalentObjectId type, number]
    · simp only [List.forall_mem_map, image_type, ne_eq, code_inj]
      exact fun g' member' object' same' => congrArg Header.image (unique g' member' object' same')
  first other := absurd (image_type.trans (congrArg ObjectType.code type)) other

/-- The headers a visit adds to a tree. -/
theorem HeaderTree.visit (tree : HeaderTree root written s) (given : HasDirectory s parent)
    (visit : Visit env parent entry s s' opened) :
    (s'.out.headers = s.out.headers ∧ s'.objList = s.objList ∧ HeaderTree root written s' ∧
      opened = none) ∨
    ∃ h, h.objId = s.objId ∧ s'.out.headers = s.out.headers ++ [h] ∧
      HeaderTree root (written ++ [h]) s' ∧
      (∀ newObj, opened = some newObj →
        newObj = h.objId ∧ h.type = .directory ∧ sIsDir entry.stats.mode) ∧
      ∀ item ∈ s'.objList, item ∈ s.objList ∨ Handled entry.stats.mode ∧
        (item.dev, item.ino) = entry.inode := by
  have directory : parent = yaffsObjectIdRoot ∨
      ∃ d ∈ written, d.type = .directory ∧ d.objId = parent := by
    rw [HasDirectory, tree.headers] at given
    exact given
  cases visit with
  | unhandled _ objList objId out =>
    have headers : s'.out.headers = s.out.headers := by rw [out]
    exact Or.inl ⟨headers, objList, tree.congr headers objList objId, rfl⟩
  | linked item _ found objList objId emitted =>
    let h : Header := ⟨s.objId, .hardlink, parent, item.obj, entry⟩
    have headers : s'.out.headers = s.out.headers ++ [h] := (emitObject_headers emitted).1
    obtain ⟨g, member, object, rfl⟩ := (tree.table item).mp found.1
    have same : g.entry.inode = entry.inode := Prod.ext found.2.1 found.2.2
    have linked : Linked (written.map Header.image) h.image :=
      .hardlink directory rfl member object same rfl fun g' member' object' same' =>
        tree.object_unique member member' object object' (same'.trans same.symm)
    refine Or.inr ⟨h, rfl, headers, tree.concat rfl objId headers (Or.inl rfl) linked
      (by rw [objList]; exact tree.ordered) fun item => ?_, fun _ none => ?_, fun item old => ?_⟩
    · rw [objList]
      exact (or_iff_left fun new => new.1 rfl).symm
    · cases none
    · exact Or.inl (objList ▸ old)
  | created handled fresh ordered members objId emitted =>
    let h : Header := ⟨s.objId, objectType entry.stats.mode, parent, -1, entry⟩
    have headers : s'.out.headers = s.out.headers ++ [h] := (emitObject_headers emitted).1
    have object : h.type ≠ .hardlink := objectType_ne_hardlink
    have linked : Linked (written.map Header.image) h.image := by
      refine .object directory object fun g member object' same => ?_
      exact fresh g.item ⟨(tree.table _).mpr ⟨g, member, object', rfl⟩, (Prod.mk.inj same).1,
        (Prod.mk.inj same).2⟩
    refine Or.inr ⟨h, rfl, headers, tree.concat rfl objId headers (Or.inr rfl) linked ordered
      fun item => ?_, fun newObj opens => ?_, fun item new => ?_⟩
    · rw [members]
      exact or_congr_right (and_iff_right object).symm
    · split at opens
      next directory =>
        cases opens
        exact ⟨rfl, directory, objectType_eq_directory directory⟩
      next => cases opens
    · refine ((members item).mp new).imp id fun added => ⟨handled, ?_⟩
      rw [added]
      rfl

theorem HasDirectory.mono {p : Int} (known : HasDirectory s p)
    (grown : ∃ more, s'.out.headers.tail = s.out.headers.tail ++ more) : HasDirectory s' p := by
  obtain ⟨more, tail⟩ := grown
  rcases known with root | ⟨d, member, directory⟩
  · exact Or.inl root
  · exact Or.inr ⟨d, tail ▸ List.mem_append_left more member, directory⟩

theorem mem_inodes {entries : List Entry} (member : entry ∈ objectsOf entries)
    (handled : Handled entry.stats.mode) : entry.inode ∈ inodes entries :=
  List.mem_toFinset.mpr (List.mem_map_of_mem
    (List.mem_filter.mpr ⟨member, decide_eq_true handled⟩))

/-- An entry of the tree is visited, and the invariant stays. -/
theorem HeadersInv.visit {entries : List Entry} {path : List Byte}
    (inv : HeadersInv root (inodes entries) s) (given : HasDirectory s parent)
    (few : (inodes entries).card ≤ maxObjects) (member : entry ∈ objectsOf entries) :
    ∃ opened s', processObject env parent path entry s = .ok (opened, s') ∧
      Visit env parent entry s s' opened ∧ HeadersInv root (inodes entries) s' ∧
      (∀ p, HasDirectory s p → HasDirectory s' p) ∧
      ∀ newObj, opened = some newObj → sIsDir entry.stats.mode ∧ HasDirectory s' newObj := by
  obtain ⟨⟨written, tree⟩, within⟩ := inv
  obtain ⟨opened, s', visited, visit⟩ := @processObject_visit env parent path entry s tree.ordered
    tree.positive fun handled fresh => tree.room within fresh (mem_inodes member handled) few
  refine ⟨opened, s', visited, visit, ?_⟩
  rcases tree.visit given visit with
    ⟨headers, objList, tree', rfl⟩ | ⟨h, -, headers, tree', opens, added⟩
  · refine ⟨⟨⟨written, tree'⟩, by rw [objList]; exact within⟩, fun p known => ?_, fun _ none => ?_⟩
    · exact known.mono ⟨[], by rw [headers, List.append_nil]⟩
    · cases none
  · have tail : s'.out.headers.tail = s.out.headers.tail ++ [h] := by
      rw [tree'.headers, tree.headers]
      rfl
    refine ⟨⟨⟨_, tree'⟩, fun item new => ?_⟩, fun p known => known.mono ⟨[h], tail⟩,
      fun newObj opening => ?_⟩
    · rcases added item new with old | ⟨handled, same⟩
      · exact within item old
      · exact same ▸ mem_inodes member handled
    · obtain ⟨rfl, directory, mode⟩ := opens newObj opening
      refine ⟨mode, Or.inr ⟨h, ?_, directory, rfl⟩⟩
      rw [tail]
      exact List.mem_append_right _ List.mem_cons_self

theorem HeadersInv.countDirectory (inv : HeadersInv root known s) :
    HeadersInv root known s.countDirectory := by
  obtain ⟨⟨written, tree⟩, within⟩ := inv
  exact ⟨⟨written, tree.congr rfl rfl rfl⟩, within⟩

theorem HeadersInv.clear (inv : HeadersInv root known s) :
    HeadersInv root known { s with out := { s.out with error := 0 } } := by
  obtain ⟨⟨written, tree⟩, within⟩ := inv
  exact ⟨⟨written, tree.congr rfl rfl rfl⟩, within⟩

end Visits

/-! ## Every run -/

/-- The invariant holds once the root's header is out. -/
theorem headersInv_start {root : Header} {known : Finset (BitVec 64 × BitVec 64)} {out : Output}
    (headers : out.headers = [root]) :
    HeadersInv root known { Mkyaffs.start with out := out } := by
  refine ⟨⟨[], headers, List.Pairwise.nil,
    ⟨show (256 : Int) < 257 by decide, by simp⟩, rfl, by simp, ?_, List.Pairwise.nil, ?_⟩, ?_⟩
  · intro earlier h later none
    simp at none
  · simp [Mkyaffs.start]
  · simp [Mkyaffs.start]

namespace HeaderTree

variable {root : Header} {written : List Header} {s : Mkyaffs}

/-- No two headers, the root's included, have one id. -/
theorem nodup_root (tree : HeaderTree root written s) (number : root.objId = 1) :
    ((root :: written).map Header.objId).Nodup := by
  rw [List.map_cons, List.nodup_cons]
  refine ⟨fun repeated => ?_, tree.nodup⟩
  obtain ⟨h, given, same⟩ := List.mem_map.mp repeated
  have above := (tree.range.2 h given).1
  omega

/-- The ids in the tags are those of the objects, as far as an `int` counts them. -/
theorem objectId_toNat (tree : HeaderTree root written s) (number : root.objId = 1)
    (few : written.length ≤ 2 ^ 31 - 257) :
    ∀ h ∈ root :: written, (h.image.objectId.toNat : Int) = h.objId := by
  intro h member
  have bounds : 0 ≤ h.objId ∧ h.objId < 2 ^ 32 := by
    rcases List.mem_cons.mp member with rfl | member
    · omega
    · have range := tree.range.2 h member
      have count := tree.count
      omega
  rw [image_objectId, BitVec.toNat_ofInt]
  omega

end HeaderTree

/-- The image builder completes, and the headers in the image form a tree, whatever the writes
return. -/
theorem headers_consistent (env : Env) (root : EntryInfo) (path : List Byte) (entries : List Entry)
    (few : (inodes entries).card ≤ maxObjects) :
    ∃ s written, mkyaffs2image env root path entries = .ok s ∧
      s.out.imageHeaders.map ImageHeader.chunk =
        s.out.chunks.filter (fun chunk => chunk.chunkId = 0) ∧
      s.out.imageHeaders = (rootHeader root).image :: written ∧
      (rootHeader root).image.objectId = 1 ∧
      (s.out.imageHeaders.map fun h => h.chunk.objId).Nodup ∧
      (∀ h ∈ written, 256 < h.chunk.objId) ∧
      (written.length ≤ 2 ^ 31 - 257 →
        (s.out.imageHeaders.map ImageHeader.objectId).Nodup ∧
          ∀ h ∈ written, 256 < h.objectId.toNat) ∧
      AllLinked written := by
  obtain ⟨m, first, headers, -⟩ := @emitObject_ok env Mkyaffs.start.out (rootHeader root)
  have step : ∀ entry ∈ objectsOf entries,
      Step env (HeadersInv (rootHeader root) (inodes entries)) HasDirectory entry :=
    fun entry member parent path s inv given => inv.visit given few member
  obtain ⟨s, -, done, ⟨⟨written, tree⟩, -⟩, -, chunks, -⟩ := @mkyaffs2image_rule env _ _ root path
    entries m step (fun s inv => ⟨inv.countDirectory, fun _ => id⟩) (fun s inv => inv.clear) first
    (headersInv_start headers) (Or.inl rfl)
  have images := imageHeaders_eq chunks
  rw [tree.headers] at images
  have distinct := tree.nodup_root rfl
  refine ⟨s, written.map Header.image, done, ?_, images, rfl, ?_, ?_, fun few => ?_, tree.linked⟩
  · rw [← Output.headerChunks, chunks, images, tree.headers, List.map_map]
    rfl
  · rw [images, List.map_map]
    exact distinct
  · exact List.forall_mem_map.mpr fun h given => (tree.range.2 h given).1
  · rw [List.length_map] at few
    have toNat := tree.objectId_toNat rfl few
    refine ⟨?_, List.forall_mem_map.mpr fun h given => ?_⟩
    · rw [images, List.map_map]
      refine List.Nodup.map_on (fun g given h given' same => ?_) (List.Nodup.of_map _ distinct)
      have number : g.objId = h.objId := by
        rw [← toNat g given, ← toNat h given']
        exact congrArg _ (congrArg BitVec.toNat same)
      exact List.inj_on_of_nodup_map distinct given given' number
    · have above := (tree.range.2 h given).1
      have number := toNat h (List.mem_cons_of_mem _ given)
      omega

/-- Every `write` writes everything. -/
def wholeWrites : Env := ⟨1, by decide, fun _ count => count, fun _ _ => Int.le_refl _, fill 0⟩

/-- A file of 3000 bytes, and a directory with a second link to it. -/
def linkedTree : List Entry :=
  let file : Stat := ⟨8, 20, 0o100644, 0, 0, 0, 3000, 0, 0, 0⟩
  let data : FileData := ⟨.ofBuf 3000 (fill 0x41), none⟩
  let directory : Stat := ⟨8, 21, 0o040755, 0, 0, 0, 0, 0, 0, 0⟩
  [.mk ⟨[0x61], file, none, some data, false⟩ [],
    .mk ⟨[0x62], directory, none, none, true⟩ [.mk ⟨[0x63], file, none, some data, false⟩ []]]

def linkedTreeRoot : EntryInfo := ⟨[], ⟨8, 2, 0o040755, 0, 0, 0, 0, 0, 0, 0⟩, none, none, true⟩

theorem headers_consistent_linked_tree :
    ∃ s written, mkyaffs2image wholeWrites linkedTreeRoot [0x2f] linkedTree = .ok s ∧
      s.out.imageHeaders.map ImageHeader.chunk =
        s.out.chunks.filter (fun chunk => chunk.chunkId = 0) ∧
      s.out.imageHeaders = (rootHeader linkedTreeRoot).image :: written ∧
      (rootHeader linkedTreeRoot).image.objectId = 1 ∧
      (s.out.imageHeaders.map fun h => h.chunk.objId).Nodup ∧
      (∀ h ∈ written, 256 < h.chunk.objId) ∧
      (written.length ≤ 2 ^ 31 - 257 →
        (s.out.imageHeaders.map ImageHeader.objectId).Nodup ∧
          ∀ h ∈ written, 256 < h.objectId.toNat) ∧
      AllLinked written :=
  headers_consistent wholeWrites linkedTreeRoot [0x2f] linkedTree (by decide)

end VirtualNoah
