import VirtualNoah.Builder.Confinement

/-!
# The command line of the flash builder

`read_configure`, `valid_conf`, `create_pavo_nandflash` and `main`.  The nine
images are nine values of `Part`; those with an OOB flag take one argument more.
The scan of the arguments is a fold whose state keeps the fields the last option
still has to take.
-/

namespace VirtualNoah

open ByteStore

/-! ## Numbers -/

/-- The value of a digit, or 36 for any other character. -/
def digitValue (c : Char) : Nat :=
  let n := c.toNat
  if 48 ≤ n ∧ n ≤ 57 then n - 48
  else if 97 ≤ n ∧ n ≤ 122 then n - 87
  else if 65 ≤ n ∧ n ≤ 90 then n - 55
  else 36

def digits (base acc : Nat) : List Char → Nat
  | [] => acc
  | c :: cs =>
    if digitValue c < base then digits base (base * acc + digitValue c) cs else acc

/-- The digits after the sign; base 0 looks at the prefix. -/
def magnitude : List Char → Nat
  | '0' :: x :: d :: cs =>
    if (x = 'x' ∨ x = 'X') ∧ digitValue d < 16 then digits 16 0 (d :: cs)
    else digits 8 0 (x :: d :: cs)
  | '0' :: cs => digits 8 0 cs
  | cs => digits 10 0 cs

def isSpace (c : Char) : Bool := c.toNat = 32 ∨ 9 ≤ c.toNat ∧ c.toNat ≤ 13

/-- `strtol(s, NULL, 0)`, clamped to 64 bits. -/
def strtol (s : String) : Int :=
  match s.toList.dropWhile isSpace with
  | '-' :: cs => max (-magnitude cs) (-2 ^ 63)
  | '+' :: cs => min (magnitude cs) (2 ^ 63 - 1)
  | cs => min (magnitude cs) (2 ^ 63 - 1)

/-- The value assigned to a `uint32_t`. -/
def strtoul32 (s : String) : BitVec 32 := BitVec.ofInt 32 (strtol s)

/-! ## The configuration -/

inductive Part where
  | uBoot | serial | kernel | rootFs | settings | programFs | dataFs | userFs | userDisk
  deriving DecidableEq

/-- In the order of `main`. -/
def Part.all : List Part :=
  [.uBoot, .serial, .kernel, .rootFs, .settings, .programFs, .dataFs, .userFs, .userDisk]

def Part.option : Part → String
  | .uBoot => "--U_boot"
  | .serial => "--Serial"
  | .kernel => "--Kernel"
  | .rootFs => "--ROOT_FS"
  | .settings => "--Settings"
  | .programFs => "--Program_FS"
  | .dataFs => "--Data_FS"
  | .userFs => "--User_FS"
  | .userDisk => "--User_Disk"

/-- The images with an OOB flag of their own; the others have none. -/
def Part.hasOob : Part → Bool
  | .uBoot | .serial | .kernel => false
  | _ => true

structure PartConf where
  image : Option String
  start : BitVec 32
  stop : BitVec 32
  oob : BitVec 32
  addEcc : BitVec 32

structure Conf where
  nandFlash : Option String
  part : Part → PartConf

/-- The global variables before the scan. -/
def initialConf : Conf := ⟨none, fun _ => ⟨none, 0, 0, 0, 0⟩⟩

/-- One variable an argument can be stored to. -/
inductive Field where
  | nandFlash
  | image (p : Part)
  | start (p : Part)
  | stop (p : Part)
  | oob (p : Part)
  | addEcc (p : Part)

def Conf.setPart (conf : Conf) (p : Part) (value : PartConf) : Conf :=
  { conf with part := Function.update conf.part p value }

def Conf.set (conf : Conf) (arg : String) : Field → Conf
  | .nandFlash => { conf with nandFlash := some arg }
  | .image p => conf.setPart p { conf.part p with image := some arg }
  | .start p => conf.setPart p { conf.part p with start := strtoul32 arg }
  | .stop p => conf.setPart p { conf.part p with stop := strtoul32 arg }
  | .oob p => conf.setPart p { conf.part p with oob := strtoul32 arg }
  | .addEcc p => conf.setPart p { conf.part p with addEcc := strtoul32 arg }

/-- What an option takes from the arguments after it. -/
def optionFields (arg : String) : List Field :=
  if arg = "--NAND_Flash" then [.nandFlash]
  else
    match Part.all.find? (fun p => p.option = arg) with
    | none => []
    | some p =>
      if p.hasOob then [.image p, .start p, .stop p, .oob p, .addEcc p]
      else [.image p, .start p, .stop p, .addEcc p]

/-- One argument: a field of the last option, or the next option. -/
def readArgument : Conf × List Field → String → Conf × List Field
  | (conf, field :: pending), arg => (conf.set arg field, pending)
  | (conf, []), arg => (conf, optionFields arg)

/-- `read_configure` over the arguments after the program name. -/
def readConfigure (args : List String) : Conf := (args.foldl readArgument (initialConf, [])).1

/-! ## Validation -/

/-- The check a configuration fails. -/
inductive ConfError where
  | nandFlashUnset
  | cannotOpen (p : Part)
  | startUnaligned (p : Part)
  | endUnaligned (p : Part)
  deriving DecidableEq

/-- The image files by name. -/
abbrev Files := String → Option ByteFile

def validPart (conf : Conf) (files : Files) (p : Part) : Except ConfError Unit :=
  match (conf.part p).image with
  | none => .ok ()
  | some name =>
    if (files name).isNone then .error (.cannotOpen p)
    else if (conf.part p).start.toNat % pavoNandPageSize ≠ 0 then .error (.startUnaligned p)
    else if (conf.part p).stop.toNat % pavoNandPageSize ≠ 0 then .error (.endUnaligned p)
    else .ok ()

/-- `valid_conf`: the images are checked in order, the first failed check counts. -/
def validConf (conf : Conf) (files : Files) : Except ConfError Unit :=
  if conf.nandFlash.isNone then .error .nandFlashUnset
  else Part.all.forM (validPart conf files)

/-! ## Building -/

/-- The erased pages of a new flash file. -/
def createPages : Nat → Fd → Fd
  | 0, fd => fd
  | count + 1, fd => createPages count (fd.write (fill 0xff) (pavoNandPageSize + pavoNandOobSize))

/-- `create_pavo_nandflash`: the existing file from its start, or a new one, left
at its end. -/
def createPavoNandflash : Option ByteFile → Fd
  | some file => ⟨file, 0⟩
  | none => createPages pavoNandPages ⟨.empty, 0⟩

/-- The arguments of `put_to_flash` for one image.  Every `uint32_t` becomes an
`int`; a file that cannot be opened reads like an empty one. -/
def partCall (conf : Conf) (files : Files) (p : Part) : Option PutCall :=
  (conf.part p).image.map fun name =>
    { image := (files name).getD .empty
      imageStart := (conf.part p).start.toInt
      imageEnd := (conf.part p).stop.toInt
      withOob := if p.hasOob then (conf.part p).oob.toInt else 0 }

/-- `if (X) put_X(nand_flash_fd)`. -/
def putPart (p : Part) (conf : Conf) (files : Files) (fd : Fd) : Fd :=
  match partCall conf files p with
  | none => fd
  | some call => call.run fd

def putUBoot := putPart .uBoot
def putSerial := putPart .serial
def putKernel := putPart .kernel
def putRootFs := putPart .rootFs
def putSettings := putPart .settings
def putProgramFs := putPart .programFs
def putDataFs := putPart .dataFs
def putUserFs := putPart .userFs
def putUserDisk := putPart .userDisk

/-- The calls a configuration amounts to, in order. -/
def configuredCalls (conf : Conf) (files : Files) : List PutCall :=
  Part.all.filterMap (partCall conf files)

/-- `main` of the builder: the flash file it leaves. -/
def builderMain (args : List String) (files : Files) (flash : Option ByteFile) :
    Except ConfError ByteFile :=
  let conf := readConfigure args
  match validConf conf files with
  | .error e => .error e
  | .ok () =>
    let fd := createPavoNandflash flash
    let fd := putUBoot conf files fd
    let fd := putSerial conf files fd
    let fd := putKernel conf files fd
    let fd := putRootFs conf files fd
    let fd := putSettings conf files fd
    let fd := putProgramFs conf files fd
    let fd := putDataFs conf files fd
    let fd := putUserFs conf files fd
    let fd := putUserDisk conf files fd
    .ok fd.file

/-! ## What main does -/

theorem createPages_eq (count : Nat) (fd : Fd) :
    createPages count fd = fd.write (fill 0xff) (2112 * count) := by
  induction count generalizing fd with
  | zero => exact (Fd.write_zero fd _).symm
  | succ count ih =>
    have joined := @ByteFile.pwrite_fill_append fd.file fd.pos 2112 0xff (2112 * count)
    have length : 2112 + 2112 * count = 2112 * (count + 1) := by omega
    rw [createPages, ih]
    simp only [Fd.write, pavoNandPageSize, pavoNandOobSize, Nat.reduceAdd, joined, length,
      Nat.add_assoc]

/-- Where the builder starts, and with which length. -/
theorem createPavoNandflash_spec (flash : Option ByteFile)
    (right : ∀ file, flash = some file → file.size = flashBytes) :
    (createPavoNandflash flash).file.size = flashBytes ∧
      (createPavoNandflash flash).pos = if flash.isSome then 0 else flashBytes := by
  cases flash with
  | some file => exact ⟨right file rfl, rfl⟩
  | none =>
    rw [createPavoNandflash, createPages_eq]
    refine ⟨?_, ?_⟩
    · rw [Fd.write_file, ByteFile.pwrite_size_of_pos (by decide)]
      rfl
    · rfl

theorem foldl_putPart (conf : Conf) (files : Files) (fd : Fd) (parts : List Part) :
    parts.foldl (fun fd p => putPart p conf files fd) fd =
      (parts.filterMap (partCall conf files)).foldl PutCall.run fd := by
  induction parts generalizing fd with
  | nil => rfl
  | cons p parts ih =>
    rw [List.foldl_cons, ih, List.filterMap_cons, putPart]
    split <;> simp [*]

/-- `main` is the configured calls on the file it opens or creates. -/
theorem builderMain_eq (args : List String) (files : Files) (flash : Option ByteFile) :
    builderMain args files flash =
      match validConf (readConfigure args) files with
      | .error e => .error e
      | .ok () => .ok ((configuredCalls (readConfigure args) files).foldl PutCall.run
          (createPavoNandflash flash)).file := by
  rw [configuredCalls, ← foldl_putPart]
  rfl

end VirtualNoah
