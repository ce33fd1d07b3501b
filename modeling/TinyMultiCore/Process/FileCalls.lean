import TinyMultiCore.File.AnyFat
import TinyMultiCore.File.Stores
import TinyMultiCore.Process.FileCounts

/-!
# The system calls on descriptors

`close`, `get_file_size` and `read` take a descriptor number from the user. `system_call` and
the three functions behind it are modelled on the files of the caller and the memory. `IoStep` is a
step of the running system, these calls included: `read` fills any buffer that its core can write to,
in the memory of the kernel as well as in the page of the caller.

* `systemCall_outside` — a byte that a call does not store to stays as it was;
* `run_ioInv` — the invariants of the scheduler and of the files hold in every run with them;
* `file_calls_reject_iff` — in every state of such a run, a call acts on an open slot or returns
  -1 exactly when the number is that of an open slot: nothing checks it.
-/

namespace TinyMultiCore

open ByteMemory TransitionSystem

-- ---------------------------------------------------------------------------
-- `system_call`
-- ---------------------------------------------------------------------------

/-- `SYS_CLOSE`, `SYS_GET_SIZE` and `SYS_READ`, as the low half of `esr` has them. -/
inductive FileCall where
  | close
  | getSize
  | read
  deriving DecidableEq, Repr

/-- An argument that is passed on as an `int`. -/
def intArg (x : U64) : Int := (x.setWidth 32 : U32).toInt

/-- `process->file[fd]`: an index outside of the 100 slots faults. -/
def slotIndex (fd : Int) : Except Halt Nat :=
  if 0 ≤ fd ∧ fd < numFiles then .ok fd.toNat else .error .fault

def sysCloseFile (t : FileTables) (file : FileSlots) (argptr : Nat → U64) :
    Except Halt (U32 × FileTables × FileSlots) := do
  let fd ← slotIndex (intArg (argptr 0))
  let (t, file) ← closeFile t file fd
  return (0, t, file)

def sysGetFileSize (t : FileTables) (file : FileSlots) (argptr : Nat → U64) : Except Halt U32 := do
  let fd ← slotIndex (intArg (argptr 0))
  getFileSize t file fd

def sysReadFile (image : Memory) (t : FileTables) (file : FileSlots) (mem : Memory)
    (argptr : Nat → U64) : Except Halt (U32 × FileTables × Memory) := do
  let fd ← slotIndex (intArg (argptr 0))
  readFile image t file fd mem (argptr 1) ((argptr 2).setWidth 32)

/-- What a system call leaves behind: the new `x0`, the files and the memory. -/
abbrev CallResult := U64 × FileTables × FileSlots × Memory

/-- `system_call`. The functions return an `int`. -/
def systemCall (image : Memory) (t : FileTables) (file : FileSlots) (mem : Memory) (call : FileCall)
    (paramCount : U64) (argptr : Nat → U64) : Except Halt CallResult :=
  if paramCount.toInt < 0 then .ok (-1, t, file, mem)
  else
    match call with
    | .close => do
      let (res, t, file) ← sysCloseFile t file argptr
      return (res.signExtend 64, t, file, mem)
    | .getSize => do
      let res ← sysGetFileSize t file argptr
      return (res.signExtend 64, t, file, mem)
    | .read => do
      let (res, t, mem) ← sysReadFile image t file mem argptr
      return (res.signExtend 64, t, file, mem)

variable {K : KernelImage} {src : FrameSource K} {image mem mem' : Memory} {k : Kernel} {c : Core}
  {r : ProcRef} {s s' : System} {v : ListId → List ProcRef} {t t' : FileTables}
  {file file' : FileSlots} {refs : Nat → Nat} {call : FileCall} {paramCount res : U64}
  {argptr : Nat → U64} {d fd : Nat}

/-- The number is that of an open slot. -/
def OpenSlot (file : FileSlots) (argptr : Nat → U64) : Prop :=
  0 ≤ intArg (argptr 0) ∧ intArg (argptr 0) < numFiles ∧ file (intArg (argptr 0)).toNat ≠ none

theorem OpenSlot.eq_ok (h : OpenSlot file argptr) : ∃ fd d, slotIndex (intArg (argptr 0)) = .ok fd ∧
    fd < numFiles ∧ file fd = some d := by
  obtain ⟨h0, hlt, hopen⟩ := h
  obtain ⟨d, hd⟩ := Option.ne_none_iff_exists'.mp hopen
  exact ⟨_, d, if_pos ⟨h0, hlt⟩, by omega, hd⟩

/-- Without an open slot, each of the three dereferences what is no descriptor. -/
theorem systemCall_fault (hcount : ¬paramCount.toInt < 0) (h : ¬OpenSlot file argptr) :
    systemCall image t file mem call paramCount argptr = .error .fault := by
  unfold systemCall sysCloseFile sysGetFileSize sysReadFile
  rw [if_neg hcount]
  by_cases hin : 0 ≤ intArg (argptr 0) ∧ intArg (argptr 0) < numFiles
  · have hslot : slotIndex (intArg (argptr 0)) = .ok (intArg (argptr 0)).toNat := if_pos hin
    have hnone : file (intArg (argptr 0)).toNat = none := by
      by_contra hopen
      exact h ⟨hin.1, hin.2, hopen⟩
    rw [hslot]
    cases call with
    | close =>
      show ((closeFile t file _ >>= _) >>= _) = _
      rw [closeFile, hnone]
      rfl
    | getSize =>
      show (getFileSize t file _ >>= _) = _
      rw [getFileSize, hnone]
      rfl
    | read =>
      show (readFile image t file _ mem _ _ >>= _) = _
      rw [readFile, hnone]
      rfl
  · have hslot : slotIndex (intArg (argptr 0)) = .error .fault := if_neg hin
    rw [hslot]
    cases call <;> rfl

theorem bind_ne_fault {α β : Type} {x : Except Halt α} {f : α → Except Halt β}
    (hx : x ≠ .error .fault) (hf : ∀ a, f a ≠ .error .fault) : (x >>= f) ≠ .error .fault := by
  cases x with
  | error e =>
    intro h
    cases h
    exact hx rfl
  | ok a => exact hf a

theorem ok_ne_fault {α : Type} (a : α) : (.ok a : Except Halt α) ≠ .error .fault := nofun

theorem clusterData_ne_fault {index : U32} : clusterData image index ≠ .error .fault := by
  rcases Nat.lt_or_ge index.toNat 2 with hlow | hge
  · rw [clusterData_bad hlow]
    exact nofun
  · rw [clusterData_ok hge]
    exact ok_ne_fault _

theorem readClusters_ne_fault {clusterSize size : U32} : ∀ {fuel : Nat} {x : RawRead},
    readClusters image clusterSize size fuel x ≠ .error .fault
  | 0, x => nofun
  | fuel + 1, x => by
    rw [readClusters]
    split
    · refine bind_ne_fault clusterData_ne_fault fun data => ?_
      split
      · exact ok_ne_fault _
      · exact readClusters_ne_fault
    · exact ok_ne_fault _

/-- On a bad volume `read_raw_data` halts, but it uses no pointer that it does not have. -/
theorem readRawData_ne_fault {first p n : U32} {buffer : U64} :
    readRawData image first mem buffer p n ≠ .error .fault := by
  refine bind_ne_fault (fun h => ?_) fun index => bind_ne_fault ?_ fun x =>
    bind_ne_fault readClusters_ne_fault fun r => ok_ne_fault _
  · cases skipClusters_halts h
  · unfold readFirst
    split
    · exact bind_ne_fault clusterData_ne_fault fun data => ok_ne_fault _
    · exact ok_ne_fault _

/-- What a call does on the open slot `fd` with the descriptor `d` and the FCB `f`. -/
def ActsOn (image : Memory) (t : FileTables) (file : FileSlots) (mem : Memory) (call : FileCall)
    (argptr : Nat → U64) (fd d f : Nat) (out : Except Halt CallResult) : Prop :=
  match call with
  -- the slot is empty, and both counts are lower by one
  | .close => out = .ok (0, putDesc (t.setFcb f { t.fcb f with count := (t.fcb f).count - 1 }) d,
      Function.update file fd none, mem)
  | .getSize => out = .ok ((t.fcb f).fileSize.signExtend 64, t, file, mem)
  -- -1 behind the end of the file, or the bytes from the position on
  | .read =>
    let position := (t.desc d).position
    let size : U32 := (argptr 2).setWidth 32
    out = if position + size > (t.fcb f).fileSize then .ok (-1, t, file, mem)
      else (readRawData image (t.fcb f).clusterIndex mem (argptr 1) position size).map fun x =>
        (x.1.signExtend 64, t.advance d x.1, file, x.2)

/-- On an open slot none of the three faults. -/
theorem systemCall_open (h : Counted image t refs) (hcount : ¬paramCount.toInt < 0)
    (hopen : OpenSlot file argptr)
    (hrefs : ∀ fd < numFiles, ∀ d, file fd = some d → refs d ≠ 0) : ∃ fd d f : Nat,
    intArg (argptr 0) = fd ∧ fd < numFiles ∧ OpenAt t file fd d f ∧
      systemCall image t file mem call paramCount argptr ≠ .error .fault ∧
      ActsOn image t file mem call argptr fd d f
        (systemCall image t file mem call paramCount argptr) := by
  obtain ⟨fd, d, hindex, hfd, hd⟩ := hopen.eq_ok
  have hne := hrefs fd hfd d hd
  obtain ⟨f, hf⟩ := Option.ne_none_iff_exists'.mp fun hnone => hne ((h.fcb d).mp hnone)
  have ho : OpenAt t file fd d f := ⟨hd, hf⟩
  have harg : intArg (argptr 0) = fd := by
    unfold slotIndex at hindex
    rw [if_pos ⟨hopen.1, hopen.2.1⟩] at hindex
    rw [← Except.ok.inj hindex, Int.toNat_of_nonneg hopen.1]
  refine ⟨fd, d, f, harg, hfd, ho, ?_⟩
  unfold systemCall sysCloseFile sysGetFileSize sysReadFile
  rw [if_neg hcount, hindex]
  cases call with
  | close =>
    have hpos : (t.fcb f).count > 0 := (h.fcb_pos hf).2
    have hclose : closeFile t file fd = .ok (putDesc (t.setFcb f { t.fcb f with
        count := (t.fcb f).count - 1 }) d, Function.update file fd none) := by
      unfold closeFile putFcb
      rw [ho.slot, show deref (some d) = .ok d from rfl, ok_bind, ho.fcb,
        show deref (some f) = .ok f from rfl, ok_bind, kernelAssert_pos hpos]
      rfl
    dsimp only
    rw [ok_bind, hclose]
    exact ⟨ok_ne_fault _, rfl⟩
  | getSize =>
    have hsize : getFileSize t file fd = .ok (t.fcb f).fileSize := by
      rw [getFileSize, ho.slot, show deref (some d) = .ok d from rfl, ok_bind, ho.fcb]
      rfl
    dsimp only
    rw [ok_bind, hsize]
    exact ⟨ok_ne_fault _, rfl⟩
  | read =>
    dsimp only
    rw [ok_bind, readFile_eq ho]
    by_cases hend : (t.desc d).position + (argptr 2).setWidth 32 > (t.fcb f).fileSize
    · rw [if_pos hend]
      refine ⟨ok_ne_fault _, ?_⟩
      unfold ActsOn
      dsimp only
      rw [if_pos hend]
      rfl
    · rw [if_neg hend]
      unfold ActsOn
      dsimp only
      rw [if_neg hend]
      cases hraw : readRawData image (t.fcb f).clusterIndex mem (argptr 1) (t.desc d).position
          ((argptr 2).setWidth 32) with
      | error e =>
        refine ⟨fun he => ?_, rfl⟩
        cases he
        exact readRawData_ne_fault hraw
      | ok x => exact ⟨ok_ne_fault _, rfl⟩

-- ---------------------------------------------------------------------------
-- What a call stores
-- ---------------------------------------------------------------------------

/-- The call stores to `x`: what is there behind it does not depend on what was there before. -/
def Stores (image : Memory) (t : FileTables) (file : FileSlots) (call : FileCall) (paramCount : U64)
    (argptr : Nat → U64) (x : U64) : Prop :=
  ∀ mem mem' out out', systemCall image t file mem call paramCount argptr = .ok out →
    systemCall image t file mem' call paramCount argptr = .ok out' → out.2.2.2 x = out'.2.2.2 x

theorem overlays_systemCall (image : Memory) (t : FileTables) (file : FileSlots) (call : FileCall)
    (paramCount : U64) (argptr : Nat → U64) :
    Overlays (fun mem => systemCall image t file mem call paramCount argptr) fun out => out.2.2.2 := by
  by_cases hcount : paramCount.toInt < 0
  · refine .nothing fun mem out hok => ?_
    unfold systemCall at hok
    rw [if_pos hcount] at hok
    cases hok
    rfl
  cases call with
  | close =>
    refine .nothing fun mem out hok => ?_
    rw [systemCall, if_neg hcount] at hok
    obtain ⟨x, -, hok⟩ := bind_eq_ok.mp hok
    cases hok
    rfl
  | getSize =>
    refine .nothing fun mem out hok => ?_
    rw [systemCall, if_neg hcount] at hok
    obtain ⟨x, -, hok⟩ := bind_eq_ok.mp hok
    cases hok
    rfl
  | read =>
    cases hslot : slotIndex (intArg (argptr 0)) with
    | error e =>
      refine .nothing fun mem out hok => ?_
      rw [systemCall, if_neg hcount] at hok
      obtain ⟨x, hread, -⟩ := bind_eq_ok.mp hok
      rw [sysReadFile, hslot] at hread
      cases hread
    | ok fd =>
      refine (overlays_readFile image t file fd (argptr 1) ((argptr 2).setWidth 32)).map ?_
      intro mem out hok
      rw [systemCall, if_neg hcount] at hok
      obtain ⟨x, hread, hok⟩ := bind_eq_ok.mp hok
      rw [sysReadFile, hslot] at hread
      cases hok
      exact ⟨x, hread, rfl⟩

/-- Where nothing is stored, nothing changes. -/
theorem systemCall_outside {x : U64}
    (hok : systemCall image t file mem call paramCount argptr = .ok (res, t', file', mem'))
    (hx : ¬Stores image t file call paramCount argptr x) : mem' x = mem x := by
  obtain ⟨o, ho⟩ := overlays_systemCall image t file call paramCount argptr
  have hmem := ho mem _ hok x
  cases hstored : o x with
  | none =>
    rw [hstored] at hmem
    exact hmem
  | some b =>
    refine absurd (fun m₁ m₂ out₁ out₂ h₁ h₂ => ?_) hx
    have heq := (ho m₁ out₁ h₁ x).trans (congrArg (Option.getD · (m₁ x)) hstored)
    exact heq.trans ((ho m₂ out₂ h₂ x).trans (congrArg (Option.getD · (m₂ x)) hstored)).symm

/-- Only `read` stores. -/
theorem systemCall_mem (hcall : call ≠ .read)
    (hok : systemCall image t file mem call paramCount argptr = .ok (res, t', file', mem')) :
    mem' = mem := by
  unfold systemCall at hok
  split at hok
  · cases hok
    rfl
  cases call with
  | read => exact absurd rfl hcall
  | _ =>
    obtain ⟨x, -, hok⟩ := bind_eq_ok.mp hok
    cases hok
    rfl

-- ---------------------------------------------------------------------------
-- Runs with these calls
-- ---------------------------------------------------------------------------

/-- A step of the system, or a system call on a descriptor. -/
inductive IoOp where
  | op (op : Op)
  | call (c : Core) (call : FileCall) (paramCount : U64) (argptr : Nat → U64)

/-- The arguments of a call, with the address of its buffer. -/
def bufferArgs (k : Kernel) (c : Core) (argptr : Nat → U64) : Nat → U64 :=
  Function.update argptr 1 (bufferAddr k c (argptr 1))

/-- What the call reads goes to the buffer, and what it returns to the trap frame of the caller. The
step is there when each store reaches a byte of the buffer. -/
def IoStep (src : FrameSource K) (image : Memory) (s : System) : IoOp → System → Prop
  | .op op, s' => s.Step src image op s'
  | .call c call paramCount argptr, s' => ∃ r res files file mem, s.RunsUser c r ∧
      systemCall image s.kernel.files (s.kernel.table r).file s.kernel.heap.mem call paramCount
        (bufferArgs s.kernel c argptr) = .ok (res, files, file, mem) ∧
      (∀ x, Stores image s.kernel.files (s.kernel.table r).file call paramCount
        (bufferArgs s.kernel c argptr) x → inBuffer s.kernel c (argptr 1) x) ∧
      s' = s.withKernel { s.kernel.setProcess r { s.kernel.table r with file } with
        files, heap := { s.kernel.heap with mem := write64 mem (s.kernel.table r).tf res } }

/-- The buffer that a `read` fills begins in the page of the caller, which nothing checks. With such
a buffer, `read_root_directory` and `getProcessState` are steps `run` of their callers. -/
def IoOp.OwnBuffer : IoOp → Prop
  | .call _ .read _ argptr => (argptr 1 - userBase).toNat < 2 ^ 21
  | _ => True

/-- The effects of a call on the files: none, one slot less, or a position that has moved. -/
theorem systemCall_cases
    (hok : systemCall image t file mem call paramCount argptr = .ok (res, t', file', mem')) :
    (t' = t ∧ file' = file) ∨
    (∃ fd < numFiles, ∃ d, file fd = some d ∧ closeFile t file fd = .ok (t', file')) ∨
    ∃ fd < numFiles, ∃ d n, intArg (argptr 0) = fd ∧ call = .read ∧ file fd = some d ∧
      t' = t.advance d n ∧ file' = file := by
  unfold systemCall sysCloseFile sysGetFileSize sysReadFile at hok
  split at hok
  · cases hok
    exact Or.inl ⟨rfl, rfl⟩
  · have hslot : ∀ {fd}, slotIndex (intArg (argptr 0)) = .ok fd →
        fd < numFiles ∧ intArg (argptr 0) = fd := by
      intro fd hfd
      unfold slotIndex at hfd
      split at hfd
      · rename_i hin
        cases hfd
        omega
      · cases hfd
    cases call with
    | close =>
      obtain ⟨⟨res', t₁, file₁⟩, hclose, hok⟩ := bind_eq_ok.mp hok
      cases hok
      obtain ⟨fd, hfd, hclose⟩ := bind_eq_ok.mp hclose
      obtain ⟨⟨t₁, file₁⟩, hclose, hok⟩ := bind_eq_ok.mp hclose
      cases hok
      obtain ⟨d, hd, -⟩ := bind_eq_ok.mp hclose
      exact Or.inr (Or.inl ⟨fd, (hslot hfd).1, d, deref_eq_ok.mp hd, hclose⟩)
    | getSize =>
      obtain ⟨size, -, hok⟩ := bind_eq_ok.mp hok
      cases hok
      exact Or.inl ⟨rfl, rfl⟩
    | read =>
      obtain ⟨⟨res', t₁, mem₁⟩, hread, hok⟩ := bind_eq_ok.mp hok
      cases hok
      obtain ⟨fd, hfd, hread⟩ := bind_eq_ok.mp hread
      obtain ⟨d, hd, hread⟩ := bind_eq_ok.mp hread
      obtain ⟨f, hf, hread⟩ := bind_eq_ok.mp hread
      dsimp only at hread
      split at hread
      · cases hread
        exact Or.inl ⟨rfl, rfl⟩
      · obtain ⟨⟨n, mem₂⟩, -, hread⟩ := bind_eq_ok.mp hread
        cases hread
        exact Or.inr (Or.inr ⟨fd, (hslot hfd).1, d, n, (hslot hfd).2, rfl, deref_eq_ok.mp hd, rfl, rfl⟩)

/-- **Every step keeps both invariants.** -/
theorem IoStep.inv {op : IoOp} (hs : SystemInv s v) (h : FilesInv image s.kernel)
    (hstep : IoStep src image s op s') : ∃ v', SystemInv s' v' ∧ FilesInv image s'.kernel := by
  cases op with
  | op op =>
    obtain ⟨v', hs', -⟩ := hs.step hstep
    exact ⟨v', hs', h.step hs hstep⟩
  | call c call paramCount argptr =>
    obtain ⟨r, res, files, file, mem, hr, hcall, -, rfl⟩ := hstep
    have h0 := hs.boot_ne (c := c) (by rw [hr.1]; decide)
    have hlive : (s.kernel.table r).state ≠ .unused := by
      rw [hs.state_of_runsUser hr]
      decide
    obtain ⟨hsched, hcurrent, hstate, -⟩ :=
      TouchesFiles.sched (r := r) hs.sched ⟨file, { s.kernel.heap with
        mem := write64 mem (s.kernel.table r).tf res }, files, rfl⟩
    refine ⟨v, hs.keep h0 hsched hcurrent fun _ y _ _ => hstate y, ?_⟩
    rcases systemCall_cases hcall with ⟨rfl, rfl⟩ | ⟨fd, hfd, d, hd, hclose⟩ |
      ⟨fd, hfd, d, n, -, -, hd, rfl, rfl⟩
    · exact h.updateSame (r := r) h.counted rfl rfl hr.2.2 hlive
    · exact h.closed hr.2.2 hlive hfd hd hclose rfl rfl
    · exact h.updateSame (r := r) (h.counted.advance d n) rfl rfl hr.2.2 hlive

/-- The run lemma. -/
theorem run_ioInv {ops : List IoOp} {s₀ : System} (hboot : boot src image mem = .ok s₀)
    (hrun : Run (IoStep src image) s₀ ops s) :
    ∃ v, SystemInv s v ∧ FilesInv image s.kernel := by
  induction hrun with
  | nil => exact ⟨_, (boot_inv hboot).1, run_filesInv hboot .nil⟩
  | snoc hr hstep ih =>
    obtain ⟨v, hs, h⟩ := ih
    exact hstep.inv hs h

/-- A call acts on an open slot, or returns -1 and leaves all files as they are. -/
def ActsOrRejects (image : Memory) (t : FileTables) (file : FileSlots) (mem : Memory)
    (call : FileCall) (paramCount : U64) (argptr : Nat → U64) : Prop :=
  (∃ fd d f : Nat, intArg (argptr 0) = fd ∧ fd < numFiles ∧ OpenAt t file fd d f ∧
    systemCall image t file mem call paramCount argptr ≠ .error .fault ∧
    ActsOn image t file mem call argptr fd d f
      (systemCall image t file mem call paramCount argptr)) ∨
  systemCall image t file mem call paramCount argptr = .ok (-1, t, file, mem)

/-- Who acts on a slot acts on an open one. -/
theorem ActsOrRejects.openSlot (h : ActsOrRejects image t file mem call paramCount argptr) :
    OpenSlot file argptr ∨
      systemCall image t file mem call paramCount argptr = .ok (-1, t, file, mem) := by
  refine h.imp_left fun hacts => ?_
  obtain ⟨fd, d, f, harg, hfd, ho, -⟩ := hacts
  refine ⟨by omega, by omega, ?_⟩
  rw [harg, Int.toNat_natCast, ho.slot]
  exact nofun

/-- **Bad descriptors.** In every state that runs of the four cores reach, and for each of the three
calls with any arguments: it acts on an open slot or returns -1 with nothing changed exactly when
the number is that of an open slot, or the argument count is negative. Otherwise it faults. -/
theorem file_calls_reject_iff {ops : List IoOp} {s₀ : System} (hboot : boot src image mem = .ok s₀)
    (hrun : Run (IoStep src image) s₀ ops s) (r : ProcRef) (view : Memory) (call : FileCall)
    (paramCount : U64) (argptr : Nat → U64) :
    ActsOrRejects image s.kernel.files (s.kernel.table r).file view call paramCount argptr ↔
      paramCount.toInt < 0 ∨ OpenSlot (s.kernel.table r).file argptr := by
  obtain ⟨v, -, h⟩ := run_ioInv hboot hrun
  constructor
  · intro hacts
    by_contra hbad
    rw [not_or] at hbad
    rcases hacts.openSlot with hopen | hreject
    · exact hbad.2 hopen
    · rw [systemCall_fault hbad.1 hbad.2] at hreject
      cases hreject
  · intro hgood
    by_cases hcount : paramCount.toInt < 0
    · exact Or.inr (if_pos hcount)
    · have hopen := hgood.resolve_left hcount
      exact Or.inl (systemCall_open h.counted hcount hopen fun fd hfd d hd =>
        descRefs_ne_zero hfd hd)

theorem run_io {ops : List Op} {s₀ : System} (hrun : Run (System.Step src image) s₀ ops s) :
    Run (IoStep src image) s₀ (ops.map .op) s := by
  induction hrun with
  | nil => exact .nil
  | snoc hr hstep ih =>
    rw [List.map_append]
    exact .snoc ih hstep

theorem ownBuffer_of_ops {ops : List Op} : ∀ op ∈ ops.map IoOp.op, op.OwnBuffer := by
  intro op hop
  obtain ⟨o, -, rfl⟩ := List.mem_map.mp hop
  trivial

/-- A process that has opened its program closes it. -/
theorem open_slot_closes : ∃ s,
    runFrom smallSource smallDisk (fun _ => 0)
      [.init 0, .yield 0, .openFile 0 (cString "INIT.BIN")] = some s ∧
    ActsOrRejects smallDisk s.kernel.files (s.kernel.table (0, 1)).file (fun _ => 0) .close 1
      fun _ => 0 := by
  obtain ⟨s, hs⟩ := Option.isSome_iff_exists.mp (show
    (runFrom smallSource smallDisk (fun _ => 0)
      [.init 0, .yield 0, .openFile 0 (cString "INIT.BIN")]).isSome by decide +kernel)
  have hslot : (runFrom smallSource smallDisk (fun _ => 0)
      [.init 0, .yield 0, .openFile 0 (cString "INIT.BIN")]).map (fun s =>
        (s.kernel.table (0, 1)).file 0) = some (some 0) := by decide +kernel
  rw [hs] at hslot
  have hopen : (s.kernel.table (0, 1)).file 0 = some 0 := Option.some.inj hslot
  obtain ⟨s₀, hboot, hrun⟩ := run_of_runFrom _ _ hs
  refine ⟨s, hs, (file_calls_reject_iff hboot (run_io hrun) _ _ _ _ _).mpr (Or.inr ?_)⟩
  exact ⟨by decide, by decide, fun hnone => by cases hopen.symm.trans hnone⟩

/-- And closes it again. -/
theorem double_close_faults : ∃ s,
    runFrom smallSource smallDisk (fun _ => 0)
      [.init 0, .yield 0, .openFile 0 (cString "INIT.BIN"), .closeFile 0 0] = some s ∧
    s.RunsUser 0 (0, 1) ∧
    ¬ActsOrRejects smallDisk s.kernel.files (s.kernel.table (0, 1)).file (fun _ => 0) .close 1
      fun _ => 0 := by
  obtain ⟨s, hs⟩ := Option.isSome_iff_exists.mp (show
    (runFrom smallSource smallDisk (fun _ => 0)
      [.init 0, .yield 0, .openFile 0 (cString "INIT.BIN"), .closeFile 0 0]).isSome by decide +kernel)
  have hslot : (runFrom smallSource smallDisk (fun _ => 0)
      [.init 0, .yield 0, .openFile 0 (cString "INIT.BIN"), .closeFile 0 0]).map (fun s =>
        ((s.kernel.table (0, 1)).file 0, s.userOn 0)) = some (none, some (0, 1)) := by decide +kernel
  rw [hs] at hslot
  obtain ⟨hclosed, huser⟩ := Prod.mk.inj (Option.some.inj hslot)
  have hbad : ¬OpenSlot (s.kernel.table (0, 1)).file fun _ => 0 := fun h => h.2.2 hclosed
  refine ⟨s, hs, System.userOn_eq_some huser, fun h => ?_⟩
  rcases h.openSlot with hopen | hreject
  · exact hbad hopen
  · have hcount : ¬(1 : U64).toInt < 0 := by decide
    rw [systemCall_fault hcount hbad] at hreject
    cases hreject

end TinyMultiCore
