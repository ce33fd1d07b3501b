import TinyMultiCore.Kernel.Machine

/-!
# The FAT16 file system

The code of `src/file.c`. The volume is a RAM disk: the `image` is the memory from
`FS_BASE` on, which lies behind all memory that is allocated or mapped for users,
and is only read. The two tables `fcb_table` and `file_desc_table` fill one page
each; a pointer into one of them is the index of its entry, `none` for `NULL`, and
a process's `file[]` is a function from its 100 descriptor numbers.

The `int` counts are integers: they stay below the number of slots there are.
-/

namespace TinyMultiCore

open ByteMemory

/-- `FS_BASE` -/
def fsBase : U64 := p2v 0x30000000#64

/-! ## The volume -/

/-- The fields of `struct BPB` that the kernel reads. -/
structure BPB where
  bytesPerSector : U16
  sectorsPerCluster : BitVec 8
  reservedSectorCount : U16
  fatCount : BitVec 8
  rootEntryCount : U16
  sectorsPerFat : U16

/-- The (packed) structure at `p`. -/
def readBPB (image : Memory) (p : U64) : BPB where
  bytesPerSector := read16 image (p + 11)
  sectorsPerCluster := image (p + 13)
  reservedSectorCount := read16 image (p + 14)
  fatCount := image (p + 16)
  rootEntryCount := read16 image (p + 17)
  sectorsPerFat := read16 image (p + 22)

/-- `get_fs_bpb`: the first partition's first sector. -/
def getFsBpb (image : Memory) : U64 :=
  let lba := read32 image (fsBase + 0x1be + 8)
  fsBase + (lba * 512).setWidth 64

/-- The structure that the result of `get_fs_bpb` points at. -/
def fsBpb (image : Memory) : BPB := readBPB image (getFsBpb image)

def getFatTable (image : Memory) : U64 :=
  let p := fsBpb image
  let offset : U32 := p.reservedSectorCount.setWidth 32 * p.bytesPerSector.setWidth 32
  getFsBpb image + offset.setWidth 64

def getClusterValue (image : Memory) (clusterIndex : U32) : U16 :=
  read16 image (getFatTable image + 2 * clusterIndex.setWidth 64)

/-- `sizeof(struct DirEntry)` -/
def dirEntrySize : U32 := 32

def getClusterOffset (image : Memory) (index : U32) : Except Halt U32 := do
  kernelAssert (index ≥ 2)
  let p := fsBpb image
  let resSize := p.reservedSectorCount.setWidth 32 * p.bytesPerSector.setWidth 32
  let fatSize := p.fatCount.setWidth 32 * p.sectorsPerFat.setWidth 32 * p.bytesPerSector.setWidth 32
  let dirSize := p.rootEntryCount.setWidth 32 * dirEntrySize
  return resSize + fatSize + dirSize +
    (index - 2) * (p.sectorsPerCluster.setWidth 32 * p.bytesPerSector.setWidth 32)

def getClusterSize (image : Memory) : U32 :=
  let bpb := fsBpb image
  bpb.bytesPerSector.setWidth 32 * bpb.sectorsPerCluster.setWidth 32

/-! ## `read_raw_data` -/

/-- `for (i = 0; i < count; i++)`: follow the chain, `count` links still to go. -/
def skipClusters (image : Memory) : Nat → U32 → Except Halt U32
  | 0, index => .ok index
  | count + 1, index => do
    let index := (getClusterValue image index).setWidth 32
    kernelAssert (index < 0xfff7)
    skipClusters image count index

/-- `(char*)(get_cluster_offset(index) + (uint64_t)bpb)` -/
def clusterData (image : Memory) (index : U32) : Except Halt U64 := do
  let offset ← getClusterOffset image index
  return offset.setWidth 64 + getFsBpb image

/-- The variables of `read_raw_data`, with the memory it writes to. -/
structure RawRead where
  mem : Memory
  buffer : U64
  readSize : U32
  index : U32

/-- `if (offset != 0)`: the rest of the first cluster. -/
def readFirst (image : Memory) (clusterSize offset size : U32) (r : RawRead) :
    Except Halt RawRead :=
  if offset ≠ 0 then do
    let readSize := if offset + size ≤ clusterSize then size else clusterSize - offset
    let data ← clusterData image r.index
    return {
      mem := memcpy r.mem r.buffer image (data + offset.setWidth 64) readSize
      buffer := r.buffer + readSize.setWidth 64
      readSize
      index := (getClusterValue image r.index).setWidth 32 }
  else return r

/-- `while (read_size < size && index < 0xfff7)` -/
def readClusters (image : Memory) (clusterSize size : U32) : Nat → RawRead → Except Halt RawRead
  | 0, _ => .error .runaway
  | fuel + 1, r =>
    if r.readSize < size ∧ r.index < 0xfff7 then do
      let data ← clusterData image r.index
      if r.readSize + clusterSize ≥ size then
        return { r with
          mem := memcpy r.mem r.buffer image data (size - r.readSize)
          readSize := size }
      else
        readClusters image clusterSize size fuel {
          mem := memcpy r.mem r.buffer image data clusterSize
          buffer := r.buffer + clusterSize.setWidth 64
          readSize := r.readSize + clusterSize
          index := (getClusterValue image r.index).setWidth 32 }
    else return r

/-- More turns than `read_size` and `index` have values: a loop that is still
going after as many is in a cycle. -/
def readBound : Nat := 2 ^ 64

def readRawData (image : Memory) (clusterIndex : U32) (mem : Memory) (buffer : U64)
    (position size : U32) : Except Halt (U32 × Memory) := do
  let clusterSize := getClusterSize image
  let count := position / clusterSize
  let offset := position % clusterSize
  let index ← skipClusters image count.toNat clusterIndex
  let r ← readFirst image clusterSize offset size { mem, buffer, readSize := 0, index }
  let r ← readClusters image clusterSize size readBound r
  return (r.readSize, r.mem)

/-! ## The tables -/

/-- `struct FCB`, without the `offset` that nothing reads. -/
structure FCB where
  name : List (BitVec 8)
  ext : List (BitVec 8)
  clusterIndex : U32
  dirIndex : U32
  fileSize : U32
  count : Int

/-- `struct FileDesc` -/
structure FileDesc where
  fcb : Option Nat
  position : U32
  count : Int

/-- `fcb_table` and `file_desc_table` -/
structure FileTables where
  fcb : Nat → FCB
  desc : Nat → FileDesc

/-- `process->file` -/
abbrev FileSlots := Nat → Option Nat

def FileTables.setDesc (t : FileTables) (d : Nat) (x : FileDesc) : FileTables :=
  { t with desc := Function.update t.desc d x }

def FileTables.setFcb (t : FileTables) (f : Nat) (x : FCB) : FileTables :=
  { t with fcb := Function.update t.fcb f x }

/-- `file_desc_table[d].position += n` -/
def FileTables.advance (t : FileTables) (d : Nat) (n : U32) : FileTables :=
  t.setDesc d { t.desc d with position := (t.desc d).position + n }

/-! ## `read_file` -/

/-- The `-1` that `read_file` returns as an `uint32_t`. -/
def readFailed : U32 := 0xffffffff

def readFile (image : Memory) (t : FileTables) (file : FileSlots) (fd : Nat) (mem : Memory)
    (buffer : U64) (size : U32) : Except Halt (U32 × FileTables × Memory) := do
  let d ← deref (file fd)
  let f ← deref (t.desc d).fcb
  let position := (t.desc d).position
  let fileSize := (t.fcb f).fileSize
  if position + size > fileSize then return (readFailed, t, mem)
  else
    let (readSize, mem) ← readRawData image (t.fcb f).clusterIndex mem buffer position size
    return (readSize, t.advance d readSize, mem)

end TinyMultiCore
