import TinyMultiCore.Kernel.Frames

/-!
# Page tables

The page-table code of `src/memory.c` on the byte memory. A table has 512 entries
of eight bytes; an access to a table outside the frames in use is a fault. The
functions that may allocate take the allocator's `FrameSource`.
-/

namespace TinyMultiCore

variable {K : KernelImage}

/-! ## Entries -/

/-- `PDE_ADDR(p)` -/
def pdeAddr (p : U64) : U64 := p &&& 0xfffffffff000#64

/-- `PTE_ADDR(p)` -/
def pteAddr (p : U64) : U64 := p &&& 0xffffffe00000#64

/-- `ENTRY_V` -/
def entryV : U64 := 1
/-- `TABLE_ENTRY` -/
def tableEntry : U64 := 2
/-- `BLOCK_ENTRY` -/
def blockEntry : U64 := 0
/-- `ENTRY_ACCESSED` -/
def entryAccessed : U64 := 0x400
/-- `NORMAL_MEMORY` -/
def normalMemory : U64 := 4
/-- `USER` -/
def userEntry : U64 := 0x40

/-- `PA_DOWN(v)` -/
def paDown (v : U64) : U64 := (v >>> pageShift) <<< pageShift

abbrev TableIndex := BitVec 9

/-- `(v >> 39) & 0x1ff` -/
def pgdIndex (v : U64) : TableIndex := (v >>> 39).setWidth 9
/-- `(v >> 30) & 0x1ff` -/
def pudIndex (v : U64) : TableIndex := (v >>> 30).setWidth 9
/-- `(v >> 21) & 0x1ff` -/
def pmdIndex (v : U64) : TableIndex := (v >>> 21).setWidth 9

/-- `&table[i]` -/
def entryAddr (table : U64) (i : TableIndex) : U64 := table + 8 * i.setWidth 64

def readEntry (h : Heap) (table : U64) (i : TableIndex) : Except Halt U64 :=
  if table ∈ h.inUse then .ok (read64 h.mem (entryAddr table i)) else .error .fault

def writeEntry (h : Heap) (table : U64) (i : TableIndex) (e : U64) : Heap :=
  { h with mem := write64 h.mem (entryAddr table i) e }

/-! ## Finding and creating tables -/

/-- What `find_pgd_entry` and `find_pud_entry` do with the entry `index` of the
table `ptr`: the table it points at, a new one, or `NULL`. -/
def findTable (src : FrameSource K) (h : Heap) (ptr : U64) (index : TableIndex) (alloc : Bool)
    (attr : U64) : Except Halt (U64 × Heap) := do
  let entry ← readEntry h ptr index
  if entry &&& entryV ≠ 0 then return (p2v (pdeAddr entry), h)
  else if alloc then
    let (addr, h) := h.kalloc src
    if addr ≠ 0 then
      let h := h.memsetPage addr
      return (addr, writeEntry h ptr index (v2p addr ||| attr ||| tableEntry))
    else return (0, h)
  else return (0, h)

def findPgdEntry (src : FrameSource K) (h : Heap) (map v : U64) (alloc : Bool) (attr : U64) :
    Except Halt (U64 × Heap) :=
  findTable src h map (pgdIndex v) alloc attr

def findPudEntry (src : FrameSource K) (h : Heap) (map v : U64) (alloc : Bool) (attr : U64) :
    Except Halt (U64 × Heap) := do
  let (ptr, h) ← findPgdEntry src h map v alloc attr
  if ptr = 0 then return (0, h)
  else findTable src h ptr (pudIndex v) alloc attr

/-! ## Mapping and unmapping pages -/

def mapPage (src : FrameSource K) (h : Heap) (map v pa attr : U64) :
    Except Halt (Bool × Heap) := do
  let vstart := paDown v
  kernelAssert (vstart + pageSize < memoryEnd)
  kernelAssert (pa % pageSize = 0)
  kernelAssert (pa + pageSize ≤ v2p memoryEnd)
  let (ptr, h) ← findPudEntry src h map vstart true attr
  if ptr = 0 then return (false, h)
  else
    let index := pmdIndex vstart
    let entry ← readEntry h ptr index
    kernelAssert (entry &&& entryV = 0)
    return (true, writeEntry h ptr index (pa ||| attr ||| blockEntry))

def freePage (src : FrameSource K) (h : Heap) (map vstart : U64) : Except Halt Heap := do
  let (ptr, h) ← findPudEntry src h map vstart false 0
  if ptr ≠ 0 then
    let index := pmdIndex vstart
    let entry ← readEntry h ptr index
    if entry &&& entryV ≠ 0 then
      let h ← h.kfree K (p2v (pteAddr entry))
      return writeEntry h ptr index 0
    else return h
  else return h

/-! ## Freeing a map -/

/-- The entries `0` to `n - 1` in the loop of `free_table`, where `below` frees what
is under a table. -/
def freeEntries (K : KernelImage) (below : Heap → U64 → Except Halt Heap) (table : U64) :
    Nat → Heap → Except Halt Heap
  | 0, h => .ok h
  | n + 1, h => do
    let h ← freeEntries K below table n h
    let entry ← readEntry h table (BitVec.ofNat 9 n)
    if entry &&& entryV ≠ 0 then
      let child := p2v (pdeAddr entry)
      let h ← below h child
      h.kfree K child
    else return h

/-- `free_table(table, level)`, with `left = 2 - level` levels of tables to go. -/
def freeTable (K : KernelImage) : Nat → Heap → U64 → Except Halt Heap
  | 0, h, table => freeEntries K (fun h _ => .ok h) table 512 h
  | left + 1, h, table => freeEntries K (freeTable K left) table 512 h

/-- The address that user programs are loaded at. -/
def userBase : U64 := 0x400000

def freeVm (src : FrameSource K) (h : Heap) (map : U64) : Except Halt Heap := do
  let h ← freePage src h map userBase
  let h ← freeTable K 2 h map
  h.kfree K map

end TinyMultiCore
