import TinyMultiCore.File.Model

/-!
# Opening and closing files

The rest of `src/file.c` that processes use: the root directory and the search in
it, `open_file` and `close_file`, and what `fork` and `wait` of `src/process.c` do
to the descriptors of a process.

A path is the bytes behind the pointer. A pointer into one of the two tables stays
the index of its entry: an FCB has that of its file in the root directory, and there
are `numFileDescs` descriptors.
-/

namespace TinyMultiCore

open ByteMemory

-- ---------------------------------------------------------------------------
-- The root directory
-- ---------------------------------------------------------------------------

/-- The fields of `struct DirEntry` that the kernel reads. -/
structure DirEntry where
  name : List (BitVec 8)
  ext : List (BitVec 8)
  attributes : BitVec 8
  clusterIndex : U16
  fileSize : U32

/-- The `n` bytes at `p`. -/
def readBytes (m : Memory) (p : U64) (n : Nat) : List (BitVec 8) :=
  (List.range n).map fun i => m (p + BitVec.ofNat 64 i)

/-- The (packed) structure at `p`. -/
def readDirEntry (image : Memory) (p : U64) : DirEntry where
  name := readBytes image p 8
  ext := readBytes image (p + 8) 3
  attributes := image (p + 11)
  clusterIndex := read16 image (p + 26)
  fileSize := read32 image (p + 28)

def getRootDirectoryCount (image : Memory) : U32 := (fsBpb image).rootEntryCount.setWidth 32

def getRootDirectory (image : Memory) : U64 :=
  let p := fsBpb image
  let offset : U32 :=
    (p.reservedSectorCount.setWidth 32 + p.fatCount.setWidth 32 * p.sectorsPerFat.setWidth 32) *
      p.bytesPerSector.setWidth 32
  getFsBpb image + offset.setWidth 64

/-- `get_root_directory()[i]` -/
def dirEntry (image : Memory) (i : Nat) : DirEntry :=
  readDirEntry image (getRootDirectory image + 32 * BitVec.ofNat 64 i)

/-- `ENTRY_EMPTY` -/
def entryEmpty : BitVec 8 := 0

/-- `ENTRY_DELETED` -/
def entryDeleted : BitVec 8 := 0xe5

def isFileNameEqual (e : DirEntry) (name ext : List (BitVec 8)) : Prop :=
  e.name = name ∧ e.ext = ext

instance (e : DirEntry) (name ext : List (BitVec 8)) : Decidable (isFileNameEqual e name ext) :=
  inferInstanceAs (Decidable (_ ∧ _))

-- ---------------------------------------------------------------------------
-- Paths
-- ---------------------------------------------------------------------------

/-- The bytes of a C string, and the zeros behind it. -/
def cString (s : String) : Nat → BitVec 8 :=
  fun i => BitVec.ofNat 8 ((s.toList.map Char.toNat).getD i 0)

/-- The characters from `i` on, `n` at most, up to the first one with `stop`: where
they end, and what they are. A `/` among them fails. -/
def splitPart (path : Nat → BitVec 8) (stop : BitVec 8 → Prop) [DecidablePred stop] :
    Nat → Nat → Option (Nat × List (BitVec 8))
  | 0, i => some (i, [])
  | n + 1, i =>
    if stop (path i) then some (i, [])
    else if path i = 0x2f then none
    else do
      let (j, cs) ← splitPart path stop n (i + 1)
      return (j, path i :: cs)

/-- A buffer of `n` blanks with `cs` written to its beginning. -/
def padded (n : Nat) (cs : List (BitVec 8)) : List (BitVec 8) :=
  cs ++ List.replicate (n - cs.length) 0x20

/-- `split_path`, with the name and the extension that it fills in. -/
def splitPath (path : Nat → BitVec 8) : Option (List (BitVec 8) × List (BitVec 8)) := do
  let (i, name) ← splitPart path (fun c => c = 0x2e ∨ c = 0) 8 0
  let (i, ext) ← if path i = 0x2e then splitPart path (fun c => c = 0) 3 (i + 1)
    else some (i, [])
  if path i ≠ 0 then none else some (padded 8 name, padded 3 ext)

/-- `search_file`, with `none` for `0xffffffff`. -/
def searchFile (image : Memory) (path : Nat → BitVec 8) : Option Nat := do
  let (name, ext) ← splitPath path
  scan (fun i =>
    let e := dirEntry image i
    ¬(e.name.headD 0 = entryEmpty ∨ e.name.headD 0 = entryDeleted) ∧ e.attributes ≠ 0xf ∧
      isFileNameEqual e name ext) (getRootDirectoryCount image).toNat 0

-- ---------------------------------------------------------------------------
-- Descriptors
-- ---------------------------------------------------------------------------

/-- `PAGE_SIZE / sizeof(struct FileDesc)` -/
def numFileDescs : Nat := 131072

/-- The descriptor numbers of a process: `file[100]`. -/
def numFiles : Nat := 100

/-- `get_fcb` -/
def getFcb (image : Memory) (t : FileTables) (index : Nat) : FileTables :=
  let fcb := t.fcb index
  let fcb := if fcb.count = 0 then
      let e := dirEntry image index
      { fcb with
        dirIndex := BitVec.ofNat 32 index
        fileSize := e.fileSize
        clusterIndex := e.clusterIndex.setWidth 32
        name := e.name
        ext := e.ext }
    else fcb
  t.setFcb index { fcb with count := fcb.count + 1 }

def getFileSize (t : FileTables) (file : FileSlots) (fd : Nat) : Except Halt U32 := do
  let d ← deref (file fd)
  let f ← deref (t.desc d).fcb
  return (t.fcb f).fileSize

/-- `open_file`, with `none` for `-1`: the descriptor number and what has changed. -/
def openFile (image : Memory) (t : FileTables) (file : FileSlots) (path : Nat → BitVec 8) :
    Option (Nat × FileTables × FileSlots) := do
  let fd ← scan (fun i => file i = none) numFiles 0
  let d ← scan (fun i => (t.desc i).fcb = none) numFileDescs 0
  let index ← searchFile image path
  let t := getFcb image t index
  let t := t.setDesc d { fcb := some index, position := 0, count := 1 }
  return (fd, t, Function.update file fd (some d))

/-- `put_fcb` -/
def putFcb (t : FileTables) (f : Nat) : Except Halt FileTables := do
  kernelAssert ((t.fcb f).count > 0)
  return t.setFcb f { t.fcb f with count := (t.fcb f).count - 1 }

/-- `count--` of a descriptor, and `fcb = NULL` when it was the last one. -/
def putDesc (t : FileTables) (d : Nat) : FileTables :=
  let desc := t.desc d
  let desc := { desc with count := desc.count - 1 }
  t.setDesc d (if desc.count = 0 then { desc with fcb := none } else desc)

def closeFile (t : FileTables) (file : FileSlots) (fd : Nat) :
    Except Halt (FileTables × FileSlots) := do
  let d ← deref (file fd)
  let f ← deref (t.desc d).fcb
  let t ← putFcb t f
  return (putDesc t d, Function.update file fd none)

-- ---------------------------------------------------------------------------
-- The loops over the descriptors of a process
-- ---------------------------------------------------------------------------

/-- The body of the loop of `fork`. -/
def shareFile (t : FileTables) (d : Nat) : Except Halt FileTables := do
  let t := t.setDesc d { t.desc d with count := (t.desc d).count + 1 }
  let f ← deref (t.desc d).fcb
  return t.setFcb f { t.fcb f with count := (t.fcb f).count + 1 }

/-- The body of the loop of `wait`: a `close_file` by hand, without the `ASSERT`. -/
def dropFile (t : FileTables) (d : Nat) : Except Halt FileTables := do
  let f ← deref (t.desc d).fcb
  let t := t.setFcb f { t.fcb f with count := (t.fcb f).count - 1 }
  return putDesc t d

/-- `for (i = 0; i < n; i++) if (file[i] != NULL)` -/
def eachFile (body : FileTables → Nat → Except Halt FileTables) (file : FileSlots) :
    Nat → FileTables → Except Halt FileTables
  | 0, t => .ok t
  | n + 1, t => do
    let t ← eachFile body file n t
    match file n with
    | some d => body t d
    | none => return t

end TinyMultiCore
