import TinyMultiCore.File.Chain
import TinyMultiCore.File.Descriptors
import TinyMultiCore.Kernel.Lists
import TinyMultiCore.Vm.Walk

/-!
# Processes

The code of `src/process.c`, with the two loaders `setup_uvm` and `copy_uvm` of
`src/memory.c`. A process is the pair of its core and its slot in `process_table`;
`Kernel` is the data all cores share. The functions take the core they run on where
the source asks for it with `getcpuid`.

The first field of a process, its list link, is in `Kernel.lists`. Left out are its
`name`, which only `getProcessState` reads, and the kernel registers that `swap` keeps
for it: what a core executes is given by the state it works on. A call of `printk`
does nothing.
-/

namespace TinyMultiCore

open ByteMemory LinkedList

abbrev Core := Fin 4

/-- `&process_table[core][slot]` -/
abbrev ProcRef := Core × Fin 30

instance slots_neZero : NeZero 30 := ⟨by decide⟩

inductive ProcState where
  | unused
  | init
  | running
  | ready
  | sleep
  | killed
  deriving DecidableEq, Repr

/-- `struct Process` -/
structure Process where
  pid : U32
  state : ProcState
  wait : U32
  pageMap : U64
  stack : U64
  file : FileSlots
  tf : U64

/-- `memset(process, 0, sizeof(struct Process))` -/
def Process.zero : Process where
  pid := 0
  state := .unused
  wait := 0
  pageMap := 0
  stack := 0
  file := fun _ => none
  tf := 0

/-- The three lists of a `struct ProcessControl`. -/
inductive ListName where
  | ready
  | wait
  | kill
  deriving DecidableEq, Repr

/-- `&pc[core].ready_list` and so on. -/
abbrev ListId := Core × ListName

/-- The data of `process.c` and of what it calls. -/
structure Kernel where
  table : ProcRef → Process
  lists : Lists ListId ProcRef
  /-- `pc[core].current_process` -/
  current : Core → Option ProcRef
  pidNum : U32
  /-- `ttbr0_el1` of each core -/
  ttbr0 : Core → U64
  heap : Heap
  files : FileTables
  fcbTable : U64
  fileDescTable : U64

variable {K : KernelImage} (src : FrameSource K) (image : Memory)

namespace Kernel

def setProcess (k : Kernel) (r : ProcRef) (p : Process) : Kernel :=
  { k with table := Function.update k.table r p }

/-- `process->state = state` -/
def setState (k : Kernel) (r : ProcRef) (state : ProcState) : Kernel :=
  k.setProcess r { k.table r with state }

/-- `pc[core].current_process` where it is dereferenced. -/
def currentProcess (k : Kernel) (c : Core) : Except Halt ProcRef := deref (k.current c)

/-- `append_list_tail` -/
def append (k : Kernel) (list : ListId) (r : ProcRef) : Except Halt Kernel := do
  let lists ← k.lists.appendListTail list r
  return { k with lists }

/-- `remove_list`: the walk is over at most all processes. -/
def removeList (k : Kernel) (list : ListId) (value : U32) :
    Except Halt (Option ProcRef × Kernel) := do
  let (r, lists) ← k.lists.removeList (fun r => (k.table r).wait) 120 list value
  return (r, { k with lists })

end Kernel

-- ---------------------------------------------------------------------------
-- Trap frames
-- ---------------------------------------------------------------------------

/-- `sizeof(struct TrapFrame)` -/
def trapFrameSize : U64 := 288

/-- `tf->elr = 0x400000; tf->sp0 = 0x400000 + PAGE_SIZE; tf->spsr = 0` -/
def enterAtBase (mem : Memory) (tf : U64) : Memory :=
  let mem := write64 mem (tf + 272) userBase
  let mem := write64 mem (tf + 248) (userBase + pageSize)
  write64 mem (tf + 280) 0

-- ---------------------------------------------------------------------------
-- New processes
-- ---------------------------------------------------------------------------

/-- `find_unused_process` -/
def findUnusedProcess (k : Kernel) (c : Core) : Option ProcRef :=
  (scan (fun i => (k.table (c, Fin.ofNat 30 i)).state = .unused) 29 1).map
    fun i => (c, Fin.ofNat 30 i)

/-- `alloc_new_process` -/
def allocNewProcess (k : Kernel) (c : Core) : Except Halt (Option ProcRef × Kernel) :=
  match findUnusedProcess k c with
  | none => return (none, k)
  | some r => do
    let (stack, heap) := k.heap.kalloc src
    kernelAssert (stack ≠ 0)
    let heap := heap.memsetPage stack
    let tf := stack + pageSize - trapFrameSize
    let heap := { heap with mem := enterAtBase heap.mem tf }
    let (pageMap, heap) := heap.kalloc src
    kernelAssert (pageMap ≠ 0)
    let heap := heap.memsetPage pageMap
    let p := { k.table r with stack, state := .init, pid := k.pidNum, tf, pageMap }
    return (some r, { k.setProcess r p with pidNum := k.pidNum + 1, heap })

/-- `ENTRY_V | USER | NORMAL_MEMORY | ENTRY_ACCESSED` -/
def userAttr : U64 := entryV ||| userEntry ||| normalMemory ||| entryAccessed

def setupUvm (k : Kernel) (r : ProcRef) (fileName : String) : Except Halt (Bool × Kernel) := do
  let map := (k.table r).pageMap
  let (page, heap) := k.heap.kalloc src
  if page ≠ 0 then
    let heap := heap.memsetPage page
    let (status, heap) ← mapPage src heap map userBase (v2p page) userAttr
    if status then
      match openFile image k.files (k.table r).file (cString fileName) with
      | none =>
        let heap ← freeVm src heap map
        return (false, { k with heap })
      | some (fd, files, file) =>
        let size ← getFileSize files file fd
        let (n, files, mem) ← readFile image files file fd heap.mem page size
        let heap := { heap with mem }
        if n ≠ size then
          let heap ← freeVm src heap map
          return (false, { k.setProcess r { k.table r with file } with heap, files })
        else
          let (files, file) ← closeFile files file fd
          return (true, { k.setProcess r { k.table r with file } with heap, files })
    else
      let heap ← heap.kfree K page
      let heap ← freeVm src heap map
      return (false, { k with heap })
  else return (false, { k with heap })

def copyUvm (h : Heap) (dstMap srcMap : U64) (size : U32) : Except Halt (Bool × Heap) := do
  let (newPage, h) := h.kalloc src
  if newPage = 0 then return (false, h)
  else
    let h := h.memsetPage newPage
    let (pd, h) ← findPudEntry src h srcMap userBase false 0
    let entry ← readEntry h pd (pmdIndex userBase)
    let srcPa := p2v (pteAddr entry)
    let h := { h with mem := memcpy h.mem newPage h.mem srcPa size }
    mapPage src h dstMap userBase (v2p newPage) userAttr

-- ---------------------------------------------------------------------------
-- The first processes
-- ---------------------------------------------------------------------------

/-- The idle process of a core, as `init_idle_process` sets it up. Its page map is
the physical address of the boot table. -/
def idleProcess (K : KernelImage) (p : Process) (c : Core) : Process :=
  { p with state := .running, pid := BitVec.ofNat 32 c.val, pageMap := v2p K.pgdTtbr0 }

def initIdleProcess (K : KernelImage) (k : Kernel) : Kernel :=
  { k with
    table := fun r => if r.2 = 0 then idleProcess K (k.table r) r.1 else k.table r
    current := fun c => some (c, 0) }

/-- What the `init_*_process` functions do with their program. -/
def initProgram (k : Kernel) (c : Core) (program : String) : Except Halt Kernel := do
  let (process, k) ← allocNewProcess src k c
  kernelAssert (process ≠ none)
  let r ← deref process
  let (ok, k) ← setupUvm src image k r program
  kernelAssert ok
  (k.setState r .ready).append (c, .ready) r

/-- `init_user_process` -/
def initUserProcess (k : Kernel) (c : Core) : Except Halt Kernel :=
  initProgram src image k c "INIT.BIN"

/-- `init_test4_process` -/
def initTest4Process (k : Kernel) (c : Core) : Except Halt Kernel :=
  initProgram src image k c "TEST4.BIN"

/-- `init_process` on core `c` -/
def initProcess (k : Kernel) (c : Core) : Except Halt Kernel :=
  if c = 0 then do
    let k := initIdleProcess K k
    let k ← initTest4Process src image k c
    initUserProcess src image k c
  else initTest4Process src image k c

-- ---------------------------------------------------------------------------
-- Scheduling
-- ---------------------------------------------------------------------------

/-- `switch_process`: the page table of the next process is loaded. -/
def switchVm (k : Kernel) (c : Core) (map : U64) : Kernel :=
  { k with ttbr0 := Function.update k.ttbr0 c (v2p map) }

def schedule (k : Kernel) (c : Core) : Except Halt Kernel := do
  let prev ← k.currentProcess c
  let (current, k) := match k.lists.removeListHead (c, .ready) with
    | (none, _) => ((c, 0), k)
    | (some r, lists) => (r, { k with lists })
  let k := k.setState current .running
  if prev = current then return k
  else
    let k := { k with current := Function.update k.current c (some current) }
    return switchVm k c (k.table current).pageMap

/-- `yield` -/
def yieldCpu (k : Kernel) (c : Core) : Except Halt Kernel :=
  if k.lists.isListEmpty (c, .ready) then return k
  else do
    let r ← k.currentProcess c
    let k := k.setState r .ready
    let k ← if 4 ≤ (k.table r).pid.toInt then k.append (c, .ready) r else pure k
    schedule k c

/-- `sleep(wait)` -/
def sleepOn (k : Kernel) (c : Core) (wait : U32) : Except Halt Kernel := do
  let r ← k.currentProcess c
  let k := k.setProcess r { k.table r with state := .sleep, wait }
  let k ← k.append (c, .wait) r
  schedule k c

/-- `while (p != NULL)`: a process of core `c` that waits for the value becomes
ready, with at most `bound` of them. -/
def wakeLoop (c : Core) (wait : U32) : Nat → Kernel → Except Halt Kernel
  | 0, _ => .error .runaway
  | bound + 1, k => do
    let (p, k) ← k.removeList (c, .wait) wait
    match p with
    | none => return k
    | some r =>
      let k ← (k.setState r .ready).append (c, .ready) r
      wakeLoop c wait bound k

/-- `wake_up(wait)`: core after core. -/
def wakeUp (k : Kernel) (wait : U32) : Except Halt Kernel := do
  let k ← wakeLoop 0 wait 121 k
  let k ← wakeLoop 1 wait 121 k
  let k ← wakeLoop 2 wait 121 k
  wakeLoop 3 wait 121 k

/-- `exit` up to its first `spin_unlock`; `wake_up(-3)` and `schedule` follow. -/
def exitKill (k : Kernel) (c : Core) : Except Halt Kernel := do
  let r ← k.currentProcess c
  let p := k.table r
  let k := k.setProcess r { p with state := .killed, wait := p.pid }
  k.append (c, .kill) r

/-- What `wait` does with the dead process it has found. -/
def reap (k : Kernel) (r : ProcRef) : Except Halt Kernel := do
  let p := k.table r
  kernelAssert (p.state = .killed)
  let heap ← k.heap.kfree K p.stack
  let heap ← freeVm src heap p.pageMap
  let files ← eachFile dropFile p.file numFiles k.files
  return { k.setProcess r .zero with heap, files, lists := k.lists.setNext r none }

/-- One turn of `wait(pid)`, under the lock: whether a process has been reaped.
Otherwise `sleep(-3)` follows. -/
def waitTurn (k : Kernel) (c : Core) (pid : U32) : Except Halt (Bool × Kernel) :=
  if k.lists.isListEmpty (c, .kill) then return (false, k)
  else do
    let (p, k) ← k.removeList (c, .kill) pid
    match p with
    | none => return (false, k)
    | some r => do
      let k ← reap src k r
      return (true, k)

-- ---------------------------------------------------------------------------
-- `fork` and `exec`
-- ---------------------------------------------------------------------------

def findLeastBusyCore : Core := 0

/-- `fork`, with the new process, or `none` for `-1`. -/
def fork (k : Kernel) : Except Halt (Option ProcRef × Kernel) := do
  let target := findLeastBusyCore
  let current ← k.currentProcess target
  let (process, k) ← allocNewProcess src k target
  match process with
  | none => do
    kernelAssert False
    return (none, k)
  | some r => do
    let (res, heap) ← copyUvm src k.heap (k.table r).pageMap (k.table current).pageMap
      (pageSize.setWidth 32)
    let k := { k with heap }
    if res = false then do
      kernelAssert False
      return (none, k)
    else
      let file := (k.table current).file
      let files ← eachFile shareFile file numFiles k.files
      let tf := (k.table r).tf
      let mem := memcpy k.heap.mem tf k.heap.mem (k.table current).tf (trapFrameSize.setWidth 32)
      let mem := write64 mem tf 0
      let k := { k with heap := { k.heap with mem }, files }
      let k := k.setProcess r { k.table r with file, state := .ready }
      let k ← k.append (target, .ready) r
      return (some r, k)

/-- What `fork` returns: the `pid` of the new process. -/
def forkResult (k : Kernel) : Option ProcRef → U32
  | none => -1
  | some r => (k.table r).pid

/-- `fork` as a system call of the process that is running on core `c`: the result
goes into the `x0` of its trap frame. -/
def sysFork (k : Kernel) (c : Core) : Except Halt (Option ProcRef × Kernel) := do
  let caller ← k.currentProcess c
  let (res, k) ← fork src k
  let mem := write64 k.heap.mem (k.table caller).tf ((forkResult k res).signExtend 64)
  return (res, { k with heap := { k.heap with mem } })

/-- Where core `c` accesses the memory at the user address `va`. -/
def userAccess (k : Kernel) (c : Core) (va : U64) : Except Halt U64 := do
  let (pa, _) ← deref (walk k.heap.mem (p2v (k.ttbr0 c)) va)
  return p2v pa

/-- Where the kernel finds the byte at the user's pointer `va`, which nothing checks. -/
def bufferAddr (k : Kernel) (c : Core) (va : U64) : U64 :=
  match userAccess k c userBase with
  | .ok page => if (va - userBase).toNat < 2 ^ 21 then page + (va - userBase) else va
  | .error _ => va

/-- Whether the byte `x` can be stored to from a buffer at `va`. The page of the caller ends where
nothing is mapped. A buffer elsewhere lies in the frames that the kernel has in use, the stacks, page
tables and pages of all processes; its variables, the tables of the files and the volume are data of
their own here, which no store reaches. -/
def inBuffer (k : Kernel) (c : Core) (va x : U64) : Bool :=
  if (va - userBase).toNat < 2 ^ 21 then
    match userAccess k c userBase with
    | .ok page => (x - page).toNat < 2 ^ 21
    | .error _ => false
  else
    k.heap.inUse.any fun f => f ≠ k.fcbTable ∧ f ≠ k.fileDescTable ∧ (x - f).toNat < 2 ^ 21

/-- Whether reading all of the file `fd` stores its byte `i`. -/
def fileStores (t : FileTables) (file : FileSlots) (fd i : Nat) : Except Halt Bool := do
  let d ← deref (file fd)
  let f ← deref (t.desc d).fcb
  return rawDataStores image (t.fcb f).clusterIndex (t.fcb f).fileSize i

/-- `exec(process, name)` on core `c`: whether it returns, or calls `exit`. -/
def exec (k : Kernel) (c : Core) (r : ProcRef) (name : Nat → BitVec 8) :
    Except Halt (Bool × Kernel) :=
  let p := k.table r
  match openFile image k.files p.file name with
  | none => return (false, k)
  | some (fd, files, file) => do
    let page ← userAccess k c userBase
    let mem := zeroPage k.heap.mem page
    let size ← getFileSize files file fd
    -- nothing is mapped behind the page: a store there does not return
    let behind ← fileStores image files file fd pageSize.toNat
    if behind then .error .fault
    else
      let (size, files, mem) ← readFile image files file fd mem page size
      if size = readFailed then
        return (false, { k.setProcess r { p with file } with
          files, heap := { k.heap with mem } })
      else
        let (files, file) ← closeFile files file fd
        let mem := blit mem p.tf trapFrameSize.toNat fun _ => 0
        let mem := enterAtBase mem p.tf
        return (true, { k.setProcess r { p with file } with
          files, heap := { k.heap with mem } })

-- ---------------------------------------------------------------------------
-- `getProcessState`
-- ---------------------------------------------------------------------------

/-- The processes that there are, core after core. -/
def processes (k : Kernel) : List ProcRef :=
  ((List.finRange 4).flatMap fun i => (List.finRange 30).map fun j => (i, j)).filter
    fun r => (k.table r).state ≠ .unused

/-- The byte `i` of the array of `struct ProcessState`, which are packed: the `pid`, the core and
the name of each process. -/
def processStateByte (k : Kernel) (names : List U64) (i : Nat) : BitVec 8 :=
  match (processes k)[i / 16]? with
  | some r =>
    let state : BitVec 128 := names.getD (i / 16) 0 ++ BitVec.ofNat 32 r.1 ++ (k.table r).pid
    (state >>> (8 * (i % 16))).setWidth 8
  | none => 0

/-- `getProcessState(ps)` on core `c`: how many processes there are, and the memory with an entry for
each of them. The names come from outside the model. -/
def getProcessState (k : Kernel) (c : Core) (ps : U64) (names : List U64) :
    Except Halt (Nat × Memory) :=
  let cnt := (processes k).length
  let buffer := bufferAddr k c ps
  if ∀ i < 16 * cnt, inBuffer k c ps (buffer + BitVec.ofNat 64 i) then
    .ok (cnt, blit k.heap.mem buffer (16 * cnt) (processStateByte k names))
  else .error .fault

end TinyMultiCore
