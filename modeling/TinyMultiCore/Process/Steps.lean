import TinyMultiCore.Lib.Run
import TinyMultiCore.Process.Model

/-!
# The running system

`boot` is the state behind `init_memory` and `init_fs`. From there the four cores
take steps in any order: each `Op` is one section of kernel code under
`process_lock`, one file operation, or the user program and the entry code of the
process on a core changing the memory that is theirs. The last of these is also what a
system call does that only fills a buffer of its caller and returns a number. A step that
ends in a `Halt` is not a step: the core spins, and mostly holds the lock.

`exit` is three steps, and a core stays in it: its `Phase` says how far it is.
-/

namespace TinyMultiCore

open TransitionSystem

variable {K : KernelImage} (src : FrameSource K) (image : Memory)

/-- The memory of the kernel's variables is zeroed by the boot code. -/
def zeroTables : FileTables where
  fcb _ := ⟨[], [], 0, 0, 0, 0⟩
  desc _ := ⟨none, 0, 0⟩

/-- `init_fs` -/
def initFs (h : Heap) : Except Halt (U64 × U64 × Heap) := do
  let p := getFsBpb image
  kernelAssert (image (p + 0x1fe) = 0x55 ∧ image (p + 0x1ff) = 0xaa)
  let (fcbTable, h) := h.kalloc src
  kernelAssert (fcbTable ≠ 0)
  let h := h.memsetPage fcbTable
  let (fileDescTable, h) := h.kalloc src
  kernelAssert (fileDescTable ≠ 0)
  return (fcbTable, fileDescTable, h.memsetPage fileDescTable)

/-- How far a core is. -/
inductive Phase where
  /-- Before its `init_process` is done. -/
  | booting
  /-- It runs its current process. -/
  | running
  /-- In `exit`, before the `wake_up`. -/
  | exiting
  /-- In `exit`, before the `schedule`. -/
  | switching
  deriving DecidableEq, Repr

structure System where
  kernel : Kernel
  phase : Core → Phase

/-- The system when `init_fs` is done. -/
def boot (mem : Memory) : Except Halt System := do
  let (fcbTable, fileDescTable, heap) ← initFs src image ⟨mem, [], 0⟩
  let kernel : Kernel := {
    table := fun _ => .zero
    lists := ⟨fun _ => none, fun _ => ⟨none, none⟩⟩
    current := fun _ => none
    pidNum := 4
    ttbr0 := fun _ => v2p K.pgdTtbr0
    heap
    files := zeroTables
    fcbTable
    fileDescTable }
  return ⟨kernel, fun _ => .booting⟩

inductive Op where
  /-- `init_process` -/
  | init (c : Core)
  | yield (c : Core)
  | sleep (c : Core) (wait : U32)
  | wakeUp (c : Core) (wait : U32)
  /-- `exit` up to its first `spin_unlock` -/
  | exit (c : Core)
  /-- the `wake_up(-3)` of `exit` -/
  | exitWake (c : Core)
  /-- the `schedule` of `exit` -/
  | exitSchedule (c : Core)
  /-- one turn of `wait` -/
  | wait (c : Core) (pid : U32)
  | fork (c : Core)
  | exec (c : Core) (name : Nat → BitVec 8)
  | openFile (c : Core) (path : Nat → BitVec 8)
  | closeFile (c : Core) (fd : Nat)
  /-- the current process leaves `mem` behind -/
  | run (c : Core) (mem : Memory)

namespace System

/-- The core runs a user process. System calls and user exceptions come from these
only: the idle process stays in the kernel, where it does nothing. -/
def RunsUser (s : System) (c : Core) (r : ProcRef) : Prop :=
  s.phase c = .running ∧ s.kernel.current c = some r ∧ r.2 ≠ 0

def withKernel (s : System) (kernel : Kernel) : System := { s with kernel }

/-- With other contents of the memory. -/
def withMem (s : System) (mem : Memory) : System :=
  s.withKernel { s.kernel with heap := { s.kernel.heap with mem } }

/-- The core goes on to another phase. -/
def withPhase (s : System) (c : Core) (phase : Phase) : System :=
  { s with phase := Function.update s.phase c phase }

/-- The memory that belongs to the process `r` on core `c`: its page and its kernel
stack. -/
def OwnByte (s : System) (c : Core) (r : ProcRef) (x : U64) : Prop :=
  (x - (s.kernel.table r).stack).toNat < 2 ^ 21 ∨
    ∃ page, userAccess s.kernel c userBase = .ok page ∧ (x - page).toNat < 2 ^ 21

/-- When a step can be taken. -/
def Enabled (s : System) : Op → Prop
  -- the other cores wait until core 0 has set `main_core_ready`
  | .init c => s.phase c = .booting ∧ (c = 0 ∨ s.phase 0 ≠ .booting)
  | .yield c => s.phase c = .running
  | .wakeUp c _ => s.phase c = .running
  | .exitWake c => s.phase c = .exiting
  | .exitSchedule c => s.phase c = .switching
  | .sleep c _ | .exit c | .wait c _ | .fork c | .exec c _ | .openFile c _ =>
    ∃ r, s.RunsUser c r
  | .closeFile c fd =>
    ∃ r, s.RunsUser c r ∧ fd < numFiles ∧ (s.kernel.table r).file fd ≠ none
  | .run c mem => ∃ r, s.RunsUser c r ∧ ∀ x, ¬s.OwnByte c r x → mem x = s.kernel.heap.mem x

/-- What the step does. -/
def next (s : System) : Op → Except Halt System
  | .init c => do
    let k ← initProcess src image s.kernel c
    return (s.withKernel k).withPhase c .running
  | .yield c => do
    let k ← yieldCpu s.kernel c
    return s.withKernel k
  | .sleep c wait => do
    let k ← sleepOn s.kernel c wait
    return s.withKernel k
  | .wakeUp _ wait => do
    let k ← TinyMultiCore.wakeUp s.kernel wait
    return s.withKernel k
  | .exit c => do
    let k ← exitKill s.kernel c
    return (s.withKernel k).withPhase c .exiting
  | .exitWake c => do
    let k ← TinyMultiCore.wakeUp s.kernel (-3)
    return (s.withKernel k).withPhase c .switching
  | .exitSchedule c => do
    let k ← schedule s.kernel c
    return (s.withKernel k).withPhase c .running
  | .wait c pid => do
    let (_, k) ← waitTurn src s.kernel c pid
    return s.withKernel k
  | .fork c => do
    let (_, k) ← sysFork src s.kernel c
    return s.withKernel k
  | .exec c name => do
    let r ← s.kernel.currentProcess c
    let (returns, k) ← TinyMultiCore.exec image s.kernel c r name
    if returns then return s.withKernel k
    else
      let k ← exitKill k c
      return (s.withKernel k).withPhase c .exiting
  | .openFile c path => do
    let r ← s.kernel.currentProcess c
    match TinyMultiCore.openFile image s.kernel.files (s.kernel.table r).file path with
    | none => return s
    | some (_, files, file) =>
      return s.withKernel { s.kernel.setProcess r { s.kernel.table r with file } with files }
  | .closeFile c fd => do
    let r ← s.kernel.currentProcess c
    let (files, file) ← TinyMultiCore.closeFile s.kernel.files (s.kernel.table r).file fd
    return s.withKernel { s.kernel.setProcess r { s.kernel.table r with file } with files }
  | .run _ mem => return s.withMem mem

/-- One step of one core. -/
def Step (s : System) (op : Op) (s' : System) : Prop :=
  s.Enabled op ∧ s.next src image op = .ok s'

/-- The user process that core `c` runs. -/
def userOn (s : System) (c : Core) : Option ProcRef :=
  match s.kernel.current c with
  | some r => if s.phase c = .running ∧ r.2 ≠ 0 then some r else none
  | none => none

/-- Whether a step can be taken, computed; a `run` is left out. -/
def canStep (s : System) : Op → Bool
  | .init c => s.phase c = .booting ∧ (c = 0 ∨ s.phase 0 ≠ .booting)
  | .yield c => s.phase c = .running
  | .wakeUp c _ => s.phase c = .running
  | .exitWake c => s.phase c = .exiting
  | .exitSchedule c => s.phase c = .switching
  | .sleep c _ | .exit c | .wait c _ | .fork c | .exec c _ | .openFile c _ => (s.userOn c).isSome
  | .closeFile c fd =>
    (s.userOn c).any fun r => fd < numFiles ∧ (s.kernel.table r).file fd ≠ none
  | .run _ _ => false

/-- The step, when it can be taken. -/
def tryStep (s : System) (op : Op) : Option System :=
  if s.canStep op then (s.next src image op).toOption else none

variable {src image} {s s' : System} {c : Core} {r : ProcRef}

theorem userOn_eq_some (h : s.userOn c = some r) : s.RunsUser c r := by
  unfold userOn at h
  split at h
  · rename_i hcur
    rw [Option.ite_none_right_eq_some] at h
    obtain ⟨hrun, he⟩ := h
    obtain rfl := Option.some.inj he
    exact ⟨hrun.1, hcur, hrun.2⟩
  · cases h

theorem enabled_of_canStep {op : Op} (h : s.canStep op = true) : s.Enabled op := by
  have huser : ∀ c, (s.userOn c).isSome = true → ∃ r, s.RunsUser c r := by
    intro c hc
    obtain ⟨r, hr⟩ := Option.isSome_iff_exists.mp hc
    exact ⟨r, userOn_eq_some hr⟩
  cases op with
  | closeFile c fd =>
    change Option.any (fun r => decide (fd < numFiles ∧ (s.kernel.table r).file fd ≠ none))
      (s.userOn c) = true at h
    match hu : s.userOn c with
    | none =>
      rw [hu] at h
      cases h
    | some r =>
      rw [hu] at h
      exact ⟨r, userOn_eq_some hu, by simpa using h⟩
  | run c mem => cases h
  | init c => simpa [canStep, Enabled] using h
  | yield c => simpa [canStep, Enabled] using h
  | wakeUp c w => simpa [canStep, Enabled] using h
  | exitWake c => simpa [canStep, Enabled] using h
  | exitSchedule c => simpa [canStep, Enabled] using h
  | sleep c w => exact huser c h
  | exit c => exact huser c h
  | wait c w => exact huser c h
  | fork c => exact huser c h
  | exec c w => exact huser c h
  | openFile c w => exact huser c h

theorem step_of_tryStep {op : Op} (h : s.tryStep src image op = some s') :
    s.Step src image op s' := by
  unfold tryStep at h
  rw [Option.ite_none_right_eq_some] at h
  exact ⟨enabled_of_canStep h.1, toOption_eq_some.mp h.2⟩

end System

/-- The system after the steps, from `boot` on. -/
def runFrom (mem : Memory) (ops : List Op) : Option System := do
  let s ← (boot src image mem).toOption
  ops.foldlM (System.tryStep src image) s

theorem run_of_runFrom {mem : Memory} {ops : List Op} {s : System}
    (h : runFrom src image mem ops = some s) :
    ∃ s₀, boot src image mem = .ok s₀ ∧ Run (System.Step src image) s₀ ops s := by
  obtain ⟨s₀, hboot, hrun⟩ := Option.bind_eq_some_iff.mp h
  exact ⟨s₀, toOption_eq_some.mp hboot,
    (Run.of_foldlM hrun).mono fun _ _ _ => System.step_of_tryStep⟩

/-- How many processes a step creates. -/
def Op.created : Op → Nat
  | .init c => if c = 0 then 2 else 1
  | .fork _ => 1
  | _ => 0

/-- How many processes the steps create. -/
def created (ops : List Op) : Nat := (ops.map Op.created).sum

theorem created_snoc (ops : List Op) (op : Op) :
    created (ops ++ [op]) = created ops + op.created := by
  simp [created]

-- ---------------------------------------------------------------------------
-- A small disk
-- ---------------------------------------------------------------------------

/-- The bytes of a disk with the two programs of `init_process` in its root
directory, each of them one byte long. -/
def diskBytes : List (Nat × Nat) :=
  [(11, 0), (12, 2), (13, 1), (14, 1), (17, 2), (0x1fe, 0x55), (0x1ff, 0xaa)] ++
  -- `TEST4.BIN`: the letter `T` in cluster 2
  ("TEST4   BIN".toList.mapIdx fun i c => (512 + i, c.toNat)) ++
  [(538, 2), (540, 1), (576, 0x54)] ++
  -- `INIT.BIN`: the letter `I` in cluster 3
  ("INIT    BIN".toList.mapIdx fun i c => (544 + i, c.toNat)) ++
  [(570, 3), (572, 1), (1088, 0x49)]

def smallDisk : Memory := fun x =>
  BitVec.ofNat 8 ((diskBytes.lookup (x - fsBase).toNat).getD 0)

/-- An allocator that starts behind the small kernel image. -/
def smallSource : FrameSource smallImage := frameRow smallImage 0xffff000000200000

end TinyMultiCore
