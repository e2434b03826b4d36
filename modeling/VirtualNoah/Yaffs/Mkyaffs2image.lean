import VirtualNoah.Builder.PutToFlash
import VirtualNoah.Lib.SortedTable
import VirtualNoah.Yaffs.Mtdif2

/-!
# mkyaffs2image

The image builder of the root file system: a recursive walk over a directory tree
that writes one page for the header of each object, and the pages of the contents
after the headers of regular files.  An object met before, by device and inode
number, becomes a hard link.

The tree is what the system calls of the walk return: `readdir` gives the entries
in any order, and each entry carries what `lstat`, `readlink`, `open` and `opendir`
give for it.  The results of `write` are in `Env`.  The state logs the calls of
`write_object_header` and of `write_chunk`.
-/

namespace VirtualNoah

open ByteStore SortedTable

/-! ## The tree -/

/-- The members of `struct stat` that are used. -/
structure Stat where
  dev : BitVec 64
  ino : BitVec 64
  mode : BitVec 32
  uid : BitVec 32
  gid : BitVec 32
  rdev : BitVec 64
  size : BitVec 64
  atime : BitVec 64
  mtime : BitVec 64
  ctime : BitVec 64

/-- An opened regular file; the read after `n` complete ones fails if `readFails` is
`some n`. -/
structure FileData where
  content : ByteFile
  readFails : Option Nat

/-- One entry of a directory: its name, what `lstat` leaves in `stats`, the target if
`readlink` gives one, the contents if `open` succeeds. -/
structure EntryInfo where
  name : List Byte
  stats : Stat
  target : Option (List Byte)
  data : Option FileData
  opendirOk : Bool

inductive Entry where
  | mk (info : EntryInfo) (children : List Entry)

/-- `S_IFMT` and the file types under it. -/
def sIfmt : BitVec 32 := 0o170000

def sIsLnk (mode : BitVec 32) : Prop := mode &&& sIfmt = 0o120000
def sIsReg (mode : BitVec 32) : Prop := mode &&& sIfmt = 0o100000
def sIsDir (mode : BitVec 32) : Prop := mode &&& sIfmt = 0o040000
def sIsFifo (mode : BitVec 32) : Prop := mode &&& sIfmt = 0o010000
def sIsBlk (mode : BitVec 32) : Prop := mode &&& sIfmt = 0o060000
def sIsChr (mode : BitVec 32) : Prop := mode &&& sIfmt = 0o020000
def sIsSock (mode : BitVec 32) : Prop := mode &&& sIfmt = 0o140000

instance : DecidablePred sIsLnk := fun _ => inferInstanceAs (Decidable (_ = _))
instance : DecidablePred sIsReg := fun _ => inferInstanceAs (Decidable (_ = _))
instance : DecidablePred sIsDir := fun _ => inferInstanceAs (Decidable (_ = _))
instance : DecidablePred sIsFifo := fun _ => inferInstanceAs (Decidable (_ = _))
instance : DecidablePred sIsBlk := fun _ => inferInstanceAs (Decidable (_ = _))
instance : DecidablePred sIsChr := fun _ => inferInstanceAs (Decidable (_ = _))
instance : DecidablePred sIsSock := fun _ => inferInstanceAs (Decidable (_ = _))

/-- The types the walk creates an object for. -/
def Handled (mode : BitVec 32) : Prop :=
  sIsLnk mode ∨ sIsReg mode ∨ sIsDir mode ∨ sIsFifo mode ∨ sIsBlk mode ∨ sIsChr mode ∨ sIsSock mode

instance : DecidablePred Handled := fun mode => by
  unfold Handled
  infer_instance

/-! ## The object table -/

def maxObjects : Nat := 10000

structure ObjItem where
  dev : BitVec 64
  ino : BitVec 64
  obj : Int

def objCompare (a b : ObjItem) : Int :=
  if a.dev < b.dev then -1
  else if b.dev < a.dev then 1
  else if a.ino < b.ino then -1
  else if b.ino < a.ino then 1
  else 0

theorem objCompare_oriented (a b : ObjItem) : objCompare a b < 0 ↔ 0 < objCompare b a := by
  simp only [objCompare, BitVec.lt_def]
  split_ifs <;> omega

theorem objCompare_trans (a b c : ObjItem) (first : objCompare a b ≤ 0)
    (second : objCompare b c ≤ 0) : objCompare a c ≤ 0 := by
  simp only [objCompare, BitVec.lt_def] at *
  split_ifs at * <;> omega

theorem objCompare_eq_zero {a b : ObjItem} :
    objCompare a b = 0 ↔ a.dev = b.dev ∧ a.ino = b.ino := by
  simp only [objCompare, BitVec.lt_def, ← BitVec.toNat_inj]
  constructor
  · intro equal
    split_ifs at equal <;> omega
  · rintro ⟨dev, ino⟩
    rw [if_neg (by omega), if_neg (by omega), if_neg (by omega), if_neg (by omega)]

def objComparator : Comparator ObjItem := ⟨objCompare, objCompare_oriented, objCompare_trans⟩

/-- `exit(2)` where the table is full. -/
def addObjToList (objList : List ObjItem) (dev ino : BitVec 64) (obj : Int) :
    Except Int (List ObjItem) :=
  if objList.length < maxObjects then .ok (qsort objComparator (objList ++ [⟨dev, ino, obj⟩]))
  else .error 2

def findObjInList (objList : List ObjItem) (dev ino : BitVec 64) : Int :=
  match bsearch (objCompare ⟨dev, ino, 0⟩) objList with
  | some i => i.obj
  | none => -1

/-! ## Chunks -/

def chunkSize : Nat := 2048
def spareSize : Nat := 64
def yaffsLowestSequenceNumber : BitVec 32 := 0x00001000

/-- What a run is given from outside: the layout on the command line, what `write`
returns for the call of a number and a count, and what a stack slot holds between
the members of a structure. -/
structure Env where
  layoutNo : Nat
  layout : layoutNo < oobLayout.length
  write : Nat → Nat → Int
  bound : ∀ call count, write call count ≤ count
  padding : Buf

/-- The arguments of a call of `write_chunk`. -/
structure Chunk where
  data : Buf
  objId : Int
  chunkId : Nat
  nBytes : Nat

/-- The arguments of a call of `write_object_header`, with the entry they are about. -/
structure Header where
  objId : Int
  type : ObjectType
  parent : Int
  equivalentObj : Int
  entry : EntryInfo

/-- The output file and the globals around it, and the two logs. -/
structure Output where
  outFile : Fd
  calls : Nat
  nPages : Nat
  error : Int
  chunks : List Chunk
  headers : List Header

/-- `write(outFile, buf, count)`: the result, and what of the buffer got into the file. -/
def Output.write (env : Env) (out : Output) (buf : Buf) (count : Nat) : Int × Output :=
  let n := env.write out.calls count
  (n, { out with outFile := out.outFile.write buf n.toNat, calls := out.calls + 1 })

def Chunk.tags (chunk : Chunk) : ExtendedTags :=
  { yaffsInitialiseTags with
    chunkId := BitVec.ofNat 32 chunk.chunkId
    serialNumber := 1
    byteCount := BitVec.ofNat 32 chunk.nBytes
    objectId := BitVec.ofInt 32 chunk.objId
    sequenceNumber := yaffsLowestSequenceNumber
    chunkUsed := 1 }

/-- The structure in memory, the three bytes after `colParity` being whatever is there. -/
def PackedTags2.image (padding : Buf) (pt : PackedTags2) : Buf :=
  let buf := blit padding 0 pt.t.image 16
  let buf := blit buf 16 (fill pt.ecc.colParity) 1
  store32 (store32 buf 20 pt.ecc.lineParity) 24 pt.ecc.lineParityPrime

/-- The spare bytes of a chunk; `exit(-1)` where the layout has no room for them. -/
def spareBuf (env : Env) (pt : PackedTags2) : Except Int Buf :=
  if env.layoutNo = 0 then .ok (blit (fill 0xff) 0 (pt.image env.padding) packedTags2Size)
  else
    match nandmtd2Pt2buf env.layoutNo (fill 0xff) pt with
    | some buf => .ok buf
    | none => .error (-1)

def writeChunk (env : Env) (out : Output) (chunk : Chunk) : Except Int (Int × Output) :=
  let out := { out with chunks := out.chunks ++ [chunk] }
  let (error, out) := out.write env chunk.data chunkSize
  let out := { out with error := error }
  if error < 0 then .ok (error, out)
  else
    let out := { out with nPages := out.nPages + 1 }
    match spareBuf env (yaffsPackTags2 chunk.tags) with
    | .error e => .error e
    | .ok spare => .ok (out.write env spare spareSize)

/-! ## Object headers -/

def yaffsMaxNameLength : Nat := 255
def yaffsMaxAliasLength : Nat := 159

/-- `strncpy(dst + off, src, n)`: short strings are filled up with zeros. -/
def strncpy (dst : Buf) (off : Nat) (src : List Byte) (n : Nat) : Buf :=
  blit dst off (listBuf src) n

/-- `yaffs_ObjectHeader` in a page of 0xff, member by member. -/
def headerBytes (h : Header) (target : List Byte) : Buf :=
  let s := h.entry.stats
  let oh := store32 (fill 0xff) 0 h.type.code
  let oh := store32 oh 4 (BitVec.ofInt 32 h.parent)
  let oh := strncpy oh 10 h.entry.name yaffsMaxNameLength
  let oh :=
    if h.type ≠ .hardlink then
      let oh := store32 oh 268 s.mode
      let oh := store32 oh 272 s.uid
      let oh := store32 oh 276 s.gid
      let oh := store32 oh 280 (s.atime.setWidth 32)
      let oh := store32 oh 284 (s.mtime.setWidth 32)
      let oh := store32 oh 288 (s.ctime.setWidth 32)
      store32 oh 460 (s.rdev.setWidth 32)
    else oh
  let oh := if h.type = .file then store32 oh 292 (s.size.setWidth 32) else oh
  let oh := if h.type = .hardlink then store32 oh 296 (BitVec.ofInt 32 h.equivalentObj) else oh
  if h.type = .symlink then strncpy oh 300 target yaffsMaxAliasLength else oh

/-- The members the tree is made of are in the page, whatever else is. -/
theorem headerBytes_links (h : Header) (target : List Byte) :
    load32 (headerBytes h target) 0 = h.type.code ∧
      load32 (headerBytes h target) 4 = BitVec.ofInt 32 h.parent ∧
      (h.type = .hardlink →
        load32 (headerBytes h target) 296 = BitVec.ofInt 32 h.equivalentObj) := by
  refine ⟨?_, ?_, fun link => ?_⟩
  case refine_3 =>
    rw [headerBytes, link]
    simp
  -- the members after the first two are stored behind them
  all_goals
    rw [headerBytes]
    dsimp only
    split_ifs <;> simp (disch := omega) only [strncpy, yaffsMaxNameLength, yaffsMaxAliasLength,
      load32_store32, load32_store32_of_disjoint, load32_blit_of_disjoint]

/-- `write_object_header`; the name and the `struct stat` are those of the entry. -/
def writeObjectHeader (env : Env) (out : Output) (h : Header) (target : List Byte) :
    Except Int (Int × Output) :=
  writeChunk env { out with headers := out.headers ++ [h] }
    ⟨headerBytes h target, h.objId, 0, 0xffff⟩

/-! ## Objects -/

/-- The loop that copies a file, `chunk` chunks being written; a file has no more than
`rounds` reads in it. -/
def copyFile (env : Env) (objId : Int) (data : FileData) :
    Nat → Nat → Fd → Output → Except Int Output
  | 0, _, _, out => .ok out
  | rounds + 1, chunk, h, out =>
    if data.readFails = some chunk then .ok { out with error := -1 }
    else
      let (nBytes, bytes, h) := h.read (fill 0xff) chunkSize
      if 0 < nBytes then
        match writeChunk env out ⟨bytes, objId, chunk + 1, nBytes⟩ with
        | .error e => .error e
        | .ok (_, out) => copyFile env objId data rounds (chunk + 1) h out
      else .ok out

/-- `symname`, which `readlink` fills up to its last byte. -/
def symname (entry : EntryInfo) : List Byte := (entry.target.getD []).take 499

/-- The `alias` of the call, which only symbolic links have. -/
def Header.target (h : Header) : List Byte := if h.type = .symlink then symname h.entry else []

/-- The chunk of a header. -/
def Header.chunk (h : Header) : Chunk := ⟨headerBytes h h.target, h.objId, 0, 0xffff⟩

/-- `error = write_object_header(...)`, and the contents after it if it is that of a
regular file. -/
def emitObject (env : Env) (out : Output) (h : Header) : Except Int Output :=
  match writeObjectHeader env out h h.target with
  | .error e => .error e
  | .ok (error, out) =>
    let out := { out with error := error }
    if h.type = .file ∧ 0 ≤ error then
      match h.entry.data with
      | none => .ok out
      | some data =>
        copyFile env h.objId data (data.content.size / chunkSize + 2) 0 ⟨data.content, 0⟩ out
    else .ok out

/-- The type of an object that is not a hard link; sockets, fifos and devices are
special. -/
def objectType (mode : BitVec 32) : ObjectType :=
  if sIsLnk mode then .symlink
  else if sIsReg mode then .file
  else if sIsDir mode then .directory
  else .special

/-! ## The walk -/

structure Mkyaffs where
  objList : List ObjItem
  /-- The next id, an `int`: overflowing it takes more than 2^31 entries. -/
  objId : Int
  nObjects : Nat
  nDirectories : Nat
  /-- `full_name` was written past its end. -/
  overrun : Bool
  out : Output

def fullName (path name : List Byte) : List Byte := path ++ 0x2f :: name

/-- The body of the loop over the entries, up to the recursive call: the object of the
directory to process, if it is one, and the state. -/
def processObject (env : Env) (parent : Int) (path : List Byte) (entry : EntryInfo)
    (s : Mkyaffs) : Except Int (Option Int × Mkyaffs) :=
  let s := { s with overrun := s.overrun || decide (500 ≤ (fullName path entry.name).length) }
  if ¬ Handled entry.stats.mode then .ok (none, s)
  else
    let newObj := s.objId
    let s := { s with objId := s.objId + 1, nObjects := s.nObjects + 1 }
    let equivalentObj := findObjInList s.objList entry.stats.dev entry.stats.ino
    if 0 < equivalentObj then
      match emitObject env s.out ⟨newObj, .hardlink, parent, equivalentObj, entry⟩ with
      | .error e => .error e
      | .ok out => .ok (none, { s with out := out })
    else
      match addObjToList s.objList entry.stats.dev entry.stats.ino newObj with
      | .error e => .error e
      | .ok objList =>
        let type := objectType entry.stats.mode
        match emitObject env s.out ⟨newObj, type, parent, -1, entry⟩ with
        | .error e => .error e
        | .ok out =>
          .ok (if type = .directory then some newObj else none,
            { s with objList := objList, out := out })

/-- `.` and `..` -/
def Ignored (name : List Byte) : Prop := name = [0x2e] ∨ name = [0x2e, 0x2e]

instance : DecidablePred Ignored := fun _ => inferInstanceAs (Decidable (_ ∨ _))

def Mkyaffs.countDirectory (s : Mkyaffs) : Mkyaffs := { s with nDirectories := s.nDirectories + 1 }

mutual

def processEntry (env : Env) (parent : Int) (path : List Byte) :
    Entry → Mkyaffs → Except Int Mkyaffs
  | .mk entry children, s =>
    if Ignored entry.name then .ok s
    else
      match processObject env parent path entry s with
      | .error e => .error e
      | .ok (none, s) => .ok s
      | .ok (some newObj, s) =>
        if entry.opendirOk then
          processEntries env newObj (fullName path entry.name) children s.countDirectory
        else .ok s.countDirectory

def processEntries (env : Env) (parent : Int) (path : List Byte) :
    List Entry → Mkyaffs → Except Int Mkyaffs
  | [], s => .ok s
  | entry :: entries, s =>
    match processEntry env parent path entry s with
    | .error e => .error e
    | .ok s => processEntries env parent path entries s

end

/-- `process_directory`, which `processEntry` calls for the directories it meets. -/
def processDirectory (env : Env) (parent : Int) (path : List Byte) (opendirOk : Bool)
    (entries : List Entry) (s : Mkyaffs) : Except Int Mkyaffs :=
  if opendirOk then processEntries env parent path entries s.countDirectory
  else .ok s.countDirectory

def yaffsObjectIdRoot : Int := 1

/-- `obj_id` starts at `YAFFS_NOBJECT_BUCKETS + 1`. -/
def Mkyaffs.start : Mkyaffs :=
  ⟨[], 257, 0, 0, false, ⟨⟨.empty, 0⟩, 0, 0, 0, [], []⟩⟩

/-- `main` from the root header on, `root` being the directory on the command line
with an empty name. -/
def mkyaffs2image (env : Env) (root : EntryInfo) (path : List Byte) (entries : List Entry) :
    Except Int Mkyaffs :=
  let s := Mkyaffs.start
  match emitObject env s.out ⟨yaffsObjectIdRoot, .directory, 1, -1, root⟩ with
  | .error e => .error e
  | .ok out =>
    let s := { s with out := out }
    if out.error ≠ 0 then
      match processDirectory env yaffsObjectIdRoot path root.opendirOk entries s with
      | .error e => .error e
      | .ok s => .ok { s with out := { s.out with error := 0 } }
    else .ok s

end VirtualNoah
