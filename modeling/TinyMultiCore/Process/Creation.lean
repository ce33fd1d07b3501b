import TinyMultiCore.Process.Steps
import TinyMultiCore.Vm.Forest

/-!
# What the functions on processes write

The long functions of `process.c`, each reduced to one equation for the kernel they
leave behind. `Creates` is what `fork` and the `init_*_process` functions have in
common; the memory, the frames and the file tables are left open in it.

* `allocNewProcess_eq` — the two frames and the record of a new process;
* `initProgram_creates`, `fork_creates` — a new process in the ready list;
* `setupUvm_eq`, `exec_cases`, `reap_eq` — what becomes of the process they work on;
* `initProcess_cases`, `yieldCpu_cases`, `waitTurn_cases` — their branches, for the case
  splits further on;
* `wakeLoop_rec` — the induction along the loop of `wake_up`.
-/

namespace TinyMultiCore

open ByteMemory

variable {K : KernelImage} {src : FrameSource K} {image : Memory} {k k' : Kernel} {c : Core}
  {r : ProcRef}

theorem removeList_eq_ok {list : ListId} {value : U32} {o : Option ProcRef} :
    k.removeList list value = .ok (o, k') ↔ ∃ lists,
      k.lists.removeList (fun r => (k.table r).wait) 120 list value = .ok (o, lists) ∧
      k' = { k with lists } := by
  unfold Kernel.removeList
  rw [bind_eq_ok]
  constructor
  · rintro ⟨⟨o', lists⟩, hremove, hk'⟩
    cases hk'
    exact ⟨lists, hremove, rfl⟩
  · rintro ⟨lists, hremove, rfl⟩
    exact ⟨(o, lists), hremove, rfl⟩

theorem Kernel.removeList_eq {list : ListId} {value : U32} {o : Option ProcRef}
    {lists : Lists ListId ProcRef}
    (h : k.lists.removeList (fun r => (k.table r).wait) 120 list value = .ok (o, lists)) :
    k.removeList list value = .ok (o, { k with lists }) :=
  removeList_eq_ok.mpr ⟨lists, h, rfl⟩

theorem findUnusedProcess_eq_some (h : findUnusedProcess k c = some r) :
    r.1 = c ∧ r.2 ≠ 0 ∧ (k.table r).state = .unused := by
  unfold findUnusedProcess at h
  obtain ⟨i, hscan, rfl⟩ := Option.map_eq_some_iff.mp h
  obtain ⟨hlow, hhigh, hunused⟩ := scan_eq_some hscan
  refine ⟨rfl, fun he => ?_, hunused⟩
  have hval : i % 30 = 0 := congrArg Fin.val he
  omega

-- ---------------------------------------------------------------------------
-- `alloc_new_process`
-- ---------------------------------------------------------------------------

/-- Bytes outside the trap frame. -/
theorem enterAtBase_outside {mem : Memory} {tf x : U64} (h : 288 ≤ (x - tf).toNat) :
    enterAtBase mem tf x = mem x := by
  have hfield : ∀ {m : Memory} {o v : U64}, o.toNat ≤ 280 → write64 m (tf + o) v x = m x := by
    intro m o v ho
    refine write64_outside ?_
    have hle : o ≤ x - tf := by
      rw [BitVec.le_def]
      omega
    rw [← BitVec.sub_sub, BitVec.toNat_sub_of_le hle]
    omega
  unfold enterAtBase
  rw [hfield (by decide), hfield (by decide), hfield (by decide)]

/-- The trap frame at the top of a kernel stack. -/
def topFrame (stack : U64) : U64 := stack + pageSize - trapFrameSize

/-- The heap when the stack and the page map of a new process have been set up. -/
def newProcessHeap (h : Heap) (stack pageMap : U64) : Heap :=
  let h := h.withFrame stack
  { h with mem := enterAtBase h.mem (topFrame stack) : Heap }.withFrame pageMap

/-- The kernel with the new process. -/
def newProcess (k : Kernel) (r : ProcRef) (stack pageMap : U64) : Kernel :=
  { k.setProcess r { k.table r with
      stack, state := .init, pid := k.pidNum, tf := topFrame stack, pageMap } with
    pidNum := k.pidNum + 1, heap := newProcessHeap k.heap stack pageMap }

/-- **`alloc_new_process`**, when it finds a slot. It takes a stack and then a page map, and halts in an
`ASSERT` where there is no frame for one of them. -/
theorem allocNewProcess_eq (hok : allocNewProcess src k c = .ok (some r, k')) :
    findUnusedProcess k c = some r ∧ ∃ stack pageMap,
      src.pick k.heap.calls k.heap.inUse = some stack ∧
      src.pick (k.heap.calls + 1) (stack :: k.heap.inUse) = some pageMap ∧
      k' = newProcess k r stack pageMap := by
  unfold allocNewProcess at hok
  cases hfind : findUnusedProcess k c with
  | none =>
    rw [hfind] at hok
    cases hok
  | some r' =>
    rw [hfind] at hok
    dsimp only at hok
    rcases k.heap.kalloc_cases src with ⟨-, hk⟩ | ⟨stack, hpick, hk, hstack, -⟩
    · rw [hk] at hok
      cases hok
    · rw [hk] at hok
      dsimp only at hok
      rw [kernelAssert_pos hstack.ne_zero, ok_bind, Forest.memsetPage_withFrame] at hok
      generalize hh₁ : ({ k.heap.withFrame stack with
        mem := enterAtBase (k.heap.withFrame stack).mem
          (stack + pageSize - trapFrameSize) } : Heap) = h₁ at hok
      rcases h₁.kalloc_cases src with ⟨-, hk₂⟩ | ⟨pageMap, hpick₂, hk₂, hmap, -⟩
      · rw [hk₂] at hok
        cases hok
      · rw [hk₂] at hok
        dsimp only at hok
        rw [kernelAssert_pos hmap.ne_zero, ok_bind, Forest.memsetPage_withFrame] at hok
        cases hok
        subst hh₁
        exact ⟨rfl, stack, pageMap, hpick, hpick₂, rfl⟩

-- ---------------------------------------------------------------------------
-- Loading
-- ---------------------------------------------------------------------------

/-- Only the open files of `r`, the memory and the file tables may differ. -/
def TouchesFiles (k : Kernel) (r : ProcRef) (k' : Kernel) : Prop :=
  ∃ file heap files, k' = { k.setProcess r { k.table r with file } with heap, files }

theorem TouchesFiles.of_heap (heap : Heap) : TouchesFiles k r { k with heap } := by
  refine ⟨(k.table r).file, heap, k.files, ?_⟩
  simp [Kernel.setProcess]

theorem setupUvm_touches {program : String} {ok : Bool}
    (hok : setupUvm src image k r program = .ok (ok, k')) : TouchesFiles k r k' := by
  unfold setupUvm at hok
  dsimp only at hok
  split at hok
  · obtain ⟨⟨status, heap⟩, -, hok⟩ := bind_eq_ok.mp hok
    dsimp only at hok
    split at hok
    · split at hok
      · -- no such file
        obtain ⟨heap', -, hok⟩ := bind_eq_ok.mp hok
        cases hok
        exact .of_heap heap'
      · obtain ⟨size, -, hok⟩ := bind_eq_ok.mp hok
        obtain ⟨⟨n, files, mem⟩, -, hok⟩ := bind_eq_ok.mp hok
        dsimp only at hok
        split at hok
        · -- the read was short
          obtain ⟨heap', -, hok⟩ := bind_eq_ok.mp hok
          cases hok
          exact ⟨_, _, _, rfl⟩
        · obtain ⟨⟨files', file'⟩, -, hok⟩ := bind_eq_ok.mp hok
          cases hok
          exact ⟨_, _, _, rfl⟩
    · obtain ⟨heap₁, -, hok⟩ := bind_eq_ok.mp hok
      obtain ⟨heap₂, -, hok⟩ := bind_eq_ok.mp hok
      cases hok
      exact .of_heap heap₂
  · cases hok
    exact .of_heap _

/-- **`setup_uvm`**, when it succeeds. -/
theorem setupUvm_eq {program : String} (hok : setupUvm src image k r program = .ok (true, k')) :
    ∃ page heap fd files file size files₁ mem files₂ file₂,
      src.pick k.heap.calls k.heap.inUse = some page ∧
      mapPage src (k.heap.withFrame page) (k.table r).pageMap userBase (v2p page) userAttr =
        .ok (true, heap) ∧
      openFile image k.files (k.table r).file (cString program) = some (fd, files, file) ∧
      getFileSize files file fd = .ok size ∧
      readFile image files file fd heap.mem page size = .ok (size, files₁, mem) ∧
      closeFile files₁ file fd = .ok (files₂, file₂) ∧
      k' = { k.setProcess r { k.table r with file := file₂ } with
        heap := { heap with mem }, files := files₂ } := by
  unfold setupUvm at hok
  dsimp only at hok
  rcases k.heap.kalloc_cases src with ⟨-, hk⟩ | ⟨page, hpick, hk, hpage, -⟩
  · rw [hk] at hok
    cases hok
  · rw [hk] at hok
    dsimp only at hok
    rw [if_pos hpage.ne_zero, Forest.memsetPage_withFrame] at hok
    obtain ⟨⟨status, heap⟩, hmap, hok⟩ := bind_eq_ok.mp hok
    dsimp only at hok
    split at hok
    · rename_i hstatus
      rw [show status = true from hstatus] at hmap
      split at hok
      · obtain ⟨heap', -, hok⟩ := bind_eq_ok.mp hok
        cases hok
      · rename_i fd files file hopen
        obtain ⟨size, hsize, hok⟩ := bind_eq_ok.mp hok
        obtain ⟨⟨n, files₁, mem⟩, hread, hok⟩ := bind_eq_ok.mp hok
        dsimp only at hok
        split at hok
        · obtain ⟨heap', -, hok⟩ := bind_eq_ok.mp hok
          cases hok
        · rename_i hn
          rw [not_not.mp hn] at hread
          obtain ⟨⟨files₂, file₂⟩, hclose, hok⟩ := bind_eq_ok.mp hok
          cases hok
          exact ⟨page, heap, fd, files, file, size, files₁, mem, files₂, file₂, hpick, hmap, hopen,
            hsize, hread, hclose, rfl⟩
    · obtain ⟨heap₁, -, hok⟩ := bind_eq_ok.mp hok
      obtain ⟨heap₂, -, hok⟩ := bind_eq_ok.mp hok
      cases hok

/-- **`exec`**, when it gets through: there is no such file, the read has failed, or the
program is in place. -/
theorem exec_cases {name : Nat → BitVec 8} {returns : Bool}
    (hok : exec image k c r name = .ok (returns, k')) :
    (openFile image k.files (k.table r).file name = none ∧ returns = false ∧ k' = k) ∨
    ∃ fd files file page size n files₁ mem,
      openFile image k.files (k.table r).file name = some (fd, files, file) ∧
      userAccess k c userBase = .ok page ∧ getFileSize files file fd = .ok size ∧
      readFile image files file fd (zeroPage k.heap.mem page) page size = .ok (n, files₁, mem) ∧
      fileStores image files file fd pageSize.toNat = .ok false ∧
      ((n = readFailed ∧ returns = false ∧
          k' = { k.setProcess r { k.table r with file } with
            files := files₁, heap := { k.heap with mem } }) ∨
        n ≠ readFailed ∧ returns = true ∧ ∃ files₂ file₂,
          closeFile files₁ file fd = .ok (files₂, file₂) ∧
          k' = { k.setProcess r { k.table r with file := file₂ } with
            files := files₂
            heap := { k.heap with
              mem := enterAtBase (blit mem (k.table r).tf trapFrameSize.toNat fun _ => 0)
                (k.table r).tf } }) := by
  unfold exec at hok
  dsimp only at hok
  split at hok
  · rename_i hopen
    cases hok
    exact Or.inl ⟨hopen, rfl, rfl⟩
  · rename_i fd files file hopen
    obtain ⟨page, hpage, hok⟩ := bind_eq_ok.mp hok
    obtain ⟨size, hsize, hok⟩ := bind_eq_ok.mp hok
    obtain ⟨behind, hbehind, hok⟩ := bind_eq_ok.mp hok
    cases behind with
    | true => cases hok
    | false =>
      obtain ⟨⟨n, files₁, mem⟩, hread, hok⟩ := bind_eq_ok.mp hok
      refine Or.inr ⟨fd, files, file, page, size, n, files₁, mem, hopen, hpage, hsize, hread,
        hbehind, ?_⟩
      dsimp only at hok
      split at hok
      · rename_i hfail
        cases hok
        exact Or.inl ⟨hfail, rfl, rfl⟩
      · rename_i hfail
        obtain ⟨⟨files₂, file₂⟩, hclose, hok⟩ := bind_eq_ok.mp hok
        cases hok
        exact Or.inr ⟨hfail, rfl, files₂, file₂, hclose, rfl⟩

/-- What `exec` writes on core `c` for the process `r`. -/
theorem exec_touches {name : Nat → BitVec 8} {returns : Bool}
    (hok : exec image k c r name = .ok (returns, k')) : TouchesFiles k r k' := by
  unfold exec at hok
  dsimp only at hok
  split at hok
  · cases hok
    exact .of_heap k.heap
  · obtain ⟨page, -, hok⟩ := bind_eq_ok.mp hok
    obtain ⟨size, -, hok⟩ := bind_eq_ok.mp hok
    obtain ⟨behind, -, hok⟩ := bind_eq_ok.mp hok
    cases behind with
    | true => cases hok
    | false =>
      obtain ⟨⟨n, files, mem⟩, -, hok⟩ := bind_eq_ok.mp hok
      dsimp only at hok
      split at hok
      · cases hok
        exact ⟨_, _, _, rfl⟩
      · obtain ⟨⟨files', file'⟩, -, hok⟩ := bind_eq_ok.mp hok
        cases hok
        exact ⟨_, _, _, rfl⟩

-- ---------------------------------------------------------------------------
-- New processes
-- ---------------------------------------------------------------------------

/-- A new process in slot `r` of core `c`, with the next number, behind the other
ready ones. -/
def Creates (k : Kernel) (c : Core) (r : ProcRef) (k' : Kernel) : Prop :=
  findUnusedProcess k c = some r ∧ ∃ p heap files lists, p.state = .ready ∧ p.pid = k.pidNum ∧
    k.lists.appendListTail (c, .ready) r = .ok lists ∧
    k' = { k.setProcess r p with pidNum := k.pidNum + 1, heap, files, lists }

theorem append_eq_ok {list : ListId} : k.append list r = .ok k' ↔
    ∃ lists, k.lists.appendListTail list r = .ok lists ∧ k' = { k with lists } := by
  unfold Kernel.append
  rw [bind_eq_ok]
  refine exists_congr fun lists => and_congr_right fun _ => ?_
  exact ⟨fun h => (Except.ok.inj h).symm, fun h => by rw [h]; rfl⟩

/-- **`init_user_process`** and its like, when they return. -/
theorem initProgram_eq {program : String} (hok : initProgram src image k c program = .ok k') :
    ∃ r stack pageMap k₂ lists, findUnusedProcess k c = some r ∧
      src.pick k.heap.calls k.heap.inUse = some stack ∧
      src.pick (k.heap.calls + 1) (stack :: k.heap.inUse) = some pageMap ∧
      setupUvm src image (newProcess k r stack pageMap) r program = .ok (true, k₂) ∧
      k₂.lists.appendListTail (c, .ready) r = .ok lists ∧
      k' = { k₂.setState r .ready with lists } := by
  unfold initProgram at hok
  obtain ⟨⟨process, k₁⟩, halloc, hrest⟩ := bind_eq_ok.mp hok
  obtain ⟨_, -, hrest⟩ := bind_eq_ok.mp hrest
  obtain ⟨r, hr, hrest⟩ := bind_eq_ok.mp hrest
  obtain ⟨⟨ok, k₂⟩, hsetup, hrest⟩ := bind_eq_ok.mp hrest
  obtain ⟨_, htrue, hqueue⟩ := bind_eq_ok.mp hrest
  have hok : ok = true := kernelAssert_eq_ok.mp htrue
  rw [hok] at hsetup
  obtain ⟨lists, happend, hk'⟩ := append_eq_ok.mp hqueue
  rw [deref_eq_ok.mp hr] at halloc
  obtain ⟨hfind, stack, pageMap, hpick₁, hpick₂, hk₁⟩ := allocNewProcess_eq halloc
  rw [hk₁] at hsetup
  exact ⟨r, stack, pageMap, k₂, lists, hfind, hpick₁, hpick₂, hsetup, happend, hk'⟩

theorem initProgram_creates {program : String}
    (hok : initProgram src image k c program = .ok k') : ∃ r, Creates k c r k' := by
  obtain ⟨r, stack, pageMap, k₂, lists, hfind, -, -, hsetup, happend, rfl⟩ := initProgram_eq hok
  obtain ⟨file, heap, files, rfl⟩ := setupUvm_touches hsetup
  refine ⟨r, hfind, { (newProcess k r stack pageMap).table r with file, state := .ready }, heap,
    files, lists, rfl, ?_, happend, ?_⟩
  · simp [newProcess, Kernel.setProcess]
  · simp [newProcess, Kernel.setState, Kernel.setProcess]

/-- **`init_process`**: core 0 sets up the idle processes of all cores and creates two
processes, every other core creates one. -/
theorem initProcess_cases (hok : initProcess src image k c = .ok k') :
    (c = 0 ∧ ∃ k₁, initProgram src image (initIdleProcess K k) c "TEST4.BIN" = .ok k₁ ∧
      initProgram src image k₁ c "INIT.BIN" = .ok k') ∨
    (c ≠ 0 ∧ initProgram src image k c "TEST4.BIN" = .ok k') := by
  unfold initProcess at hok
  by_cases hc : c = 0
  · rw [if_pos hc] at hok
    exact Or.inl ⟨hc, bind_eq_ok.mp hok⟩
  · rw [if_neg hc] at hok
    exact Or.inr ⟨hc, hok⟩

/-- The record of the child, which is `r`, when `fork` is done with it. -/
def childProcess (k : Kernel) (r current : ProcRef) : Process :=
  { k.table r with file := (k.table current).file, state := .ready }

/-- The memory when the trap frame of `current` has been copied for the child `r`. -/
def childMemory (k : Kernel) (mem : Memory) (r current : ProcRef) : Memory :=
  write64 (memcpy mem (k.table r).tf mem (k.table current).tf (trapFrameSize.setWidth 32))
    (k.table r).tf 0

/-- **`fork`**, when it returns: it has created a process from the one that is current
on core 0. -/
theorem fork_eq {res : Option ProcRef} (hok : fork src k = .ok (res, k')) :
    ∃ current r stack pageMap heap files lists, res = some r ∧ k.current 0 = some current ∧
      findUnusedProcess k 0 = some r ∧
      src.pick k.heap.calls k.heap.inUse = some stack ∧
      src.pick (k.heap.calls + 1) (stack :: k.heap.inUse) = some pageMap ∧
      copyUvm src (newProcess k r stack pageMap).heap pageMap
        ((newProcess k r stack pageMap).table current).pageMap (pageSize.setWidth 32) =
          .ok (true, heap) ∧
      eachFile shareFile ((newProcess k r stack pageMap).table current).file numFiles k.files =
        .ok files ∧
      k.lists.appendListTail (0, .ready) r = .ok lists ∧
      k' = { (newProcess k r stack pageMap).setProcess r
          (childProcess (newProcess k r stack pageMap) r current) with
        files, lists
        heap := { heap with
          mem := childMemory (newProcess k r stack pageMap) heap.mem r current } } := by
  unfold fork at hok
  dsimp only at hok
  obtain ⟨current, hcurrent, hok⟩ := bind_eq_ok.mp hok
  obtain ⟨⟨process, k₁⟩, halloc, hok⟩ := bind_eq_ok.mp hok
  cases process with
  | none => cases hok
  | some r =>
    obtain ⟨hfind, stack, pageMap, hpick₁, hpick₂, hk₁⟩ := allocNewProcess_eq halloc
    have hmap : (k₁.table r).pageMap = pageMap := by simp [hk₁, newProcess, Kernel.setProcess]
    have hfiles₁ : k₁.files = k.files := by rw [hk₁]; rfl
    have hlists₁ : k₁.lists = k.lists := by rw [hk₁]; rfl
    dsimp only at hok
    obtain ⟨⟨copied, heap⟩, hcopy, hok⟩ := bind_eq_ok.mp hok
    dsimp only at hok
    by_cases hfalse : copied = false
    · rw [if_pos hfalse] at hok
      cases hok
    · rw [if_neg hfalse] at hok
      obtain ⟨files, hfiles, hok⟩ := bind_eq_ok.mp hok
      obtain ⟨k₂, hk₂, hok⟩ := bind_eq_ok.mp hok
      obtain ⟨lists, hlists, rfl⟩ := append_eq_ok.mp hk₂
      cases hok
      rw [Bool.not_eq_false] at hfalse
      subst hfalse
      rw [hmap] at hcopy
      refine ⟨current, r, stack, pageMap, heap, files, lists, rfl, deref_eq_ok.mp hcurrent, hfind,
        hpick₁, hpick₂, ?_⟩
      rw [← hk₁, ← hfiles₁, ← hlists₁]
      exact ⟨hcopy, hfiles, hlists, rfl⟩

theorem fork_creates {res : Option ProcRef} (hok : fork src k = .ok (res, k')) :
    ∃ r, res = some r ∧ Creates k 0 r k' := by
  obtain ⟨current, r, stack, pageMap, heap, files, lists, hres, -, hfind, -, -, -, -, hlists, rfl⟩ :=
    fork_eq hok
  refine ⟨r, hres, hfind, childProcess (newProcess k r stack pageMap) r current,
    { heap with mem := childMemory (newProcess k r stack pageMap) heap.mem r current }, files,
    lists, rfl, ?_, hlists, ?_⟩
  · simp [childProcess, newProcess, Kernel.setProcess]
  · simp only [newProcess, Kernel.setProcess, Function.update_idem]

/-- **What `sys_fork` does**: it forks, and stores the result in `x0` of its caller. -/
theorem sysFork_eq {res : Option ProcRef} (hok : sysFork src k c = .ok (res, k')) :
    ∃ caller k₁ mem, k.current c = some caller ∧ fork src k = .ok (res, k₁) ∧
      mem = write64 k₁.heap.mem (k₁.table caller).tf ((forkResult k₁ res).signExtend 64) ∧
      k' = { k₁ with heap := { k₁.heap with mem } } := by
  unfold sysFork at hok
  obtain ⟨caller, hcaller, hok⟩ := bind_eq_ok.mp hok
  obtain ⟨⟨res', k₁⟩, hfork, hok⟩ := bind_eq_ok.mp hok
  cases hok
  exact ⟨caller, k₁, _, deref_eq_ok.mp hcaller, hfork, rfl, rfl⟩

theorem sysFork_creates {res : Option ProcRef} (hok : sysFork src k c = .ok (res, k')) :
    ∃ r, res = some r ∧ Creates k 0 r k' := by
  obtain ⟨caller, k₁, mem, -, hfork, -, rfl⟩ := sysFork_eq hok
  obtain ⟨r, hres, hfind, p, heap, files, lists, hstate, hpid, happend, rfl⟩ := fork_creates hfork
  exact ⟨r, hres, hfind, p, _, files, lists, hstate, hpid, happend, rfl⟩

-- ---------------------------------------------------------------------------
-- Scheduling
-- ---------------------------------------------------------------------------

/-- **`schedule`**: the first ready process, or else the idle one, becomes the running one. If
it is another one than before, the core switches to it. -/
theorem schedule_eq (hok : schedule k c = .ok k') : ∃ prev r lists, k.current c = some prev ∧
    (((k.lists.removeListHead (c, .ready)).1 = none ∧ r = (c, 0) ∧ lists = k.lists) ∨
      k.lists.removeListHead (c, .ready) = (some r, lists)) ∧
    k' = if prev = r then Kernel.setState { k with lists } r .running
      else switchVm { Kernel.setState { k with lists } r .running with
        current := Function.update k.current c (some r) } c (k.table r).pageMap := by
  unfold schedule at hok
  obtain ⟨prev, hprev, hok⟩ := bind_eq_ok.mp hok
  -- what follows is the same for the ready process and for the idle one
  have hrest : ∀ (r : ProcRef) (lists : Lists ListId ProcRef),
      (if prev = r then pure (Kernel.setState { k with lists } r .running)
        else pure (switchVm { Kernel.setState { k with lists } r .running with
          current := Function.update k.current c (some r) } c
            ((Kernel.setState { k with lists } r .running).table r).pageMap)) =
        (.ok k' : Except Halt Kernel) →
      k' = if prev = r then Kernel.setState { k with lists } r .running
        else switchVm { Kernel.setState { k with lists } r .running with
          current := Function.update k.current c (some r) } c (k.table r).pageMap := by
    intro r lists hk
    have hmap : ((Kernel.setState { k with lists } r .running).table r).pageMap =
        (k.table r).pageMap := by simp [Kernel.setState, Kernel.setProcess]
    rw [hmap] at hk
    split at hk <;> rename_i hsame
    · rw [if_pos hsame]
      exact (Except.ok.inj hk).symm
    · rw [if_neg hsame]
      exact (Except.ok.inj hk).symm
  cases hhead : k.lists.removeListHead (c, .ready) with
  | mk o lists =>
    rw [hhead] at hok
    cases o with
    | none =>
      exact ⟨prev, (c, 0), k.lists, deref_eq_ok.mp hprev, Or.inl ⟨rfl, rfl, rfl⟩, hrest _ _ hok⟩
    | some r => exact ⟨prev, r, lists, deref_eq_ok.mp hprev, Or.inr rfl, hrest _ _ hok⟩

@[simp] theorem Kernel.setState_pid (k : Kernel) (r : ProcRef) (state : ProcState) :
    ((k.setState r state).table r).pid = (k.table r).pid := by
  simp [Kernel.setState, Kernel.setProcess]

/-- **`yield`**: nobody is ready, or the core goes to `schedule`, with its process in the
ready list or, when it is an idle one, in none. -/
theorem yieldCpu_cases (hok : yieldCpu k c = .ok k') :
    (k.lists.isListEmpty (c, .ready) ∧ k' = k) ∨
    ∃ prev, ¬k.lists.isListEmpty (c, .ready) ∧ k.current c = some prev ∧
      ((4 ≤ (k.table prev).pid.toInt ∧ ∃ k₁,
          (k.setState prev .ready).append (c, .ready) prev = .ok k₁ ∧ schedule k₁ c = .ok k') ∨
        (¬4 ≤ (k.table prev).pid.toInt ∧ schedule (k.setState prev .ready) c = .ok k')) := by
  unfold yieldCpu at hok
  by_cases hempty : k.lists.isListEmpty (c, .ready)
  · rw [if_pos hempty] at hok
    cases hok
    exact Or.inl ⟨hempty, rfl⟩
  rw [if_neg hempty] at hok
  obtain ⟨prev, hprev, hok⟩ := bind_eq_ok.mp hok
  refine Or.inr ⟨prev, hempty, deref_eq_ok.mp hprev, ?_⟩
  dsimp only at hok
  rw [Kernel.setState_pid] at hok
  split at hok
  · rename_i huser
    exact Or.inl ⟨huser, bind_eq_ok.mp hok⟩
  · rename_i hidle
    exact Or.inr ⟨hidle, hok⟩

theorem sleepOn_eq {wait : U32} (hok : sleepOn k c wait = .ok k') :
    ∃ prev k₁, k.current c = some prev ∧
      (k.setProcess prev { k.table prev with state := .sleep, wait }).append (c, .wait) prev =
        .ok k₁ ∧ schedule k₁ c = .ok k' := by
  unfold sleepOn at hok
  obtain ⟨prev, hprev, hok⟩ := bind_eq_ok.mp hok
  obtain ⟨k₁, happend, hok⟩ := bind_eq_ok.mp hok
  exact ⟨prev, k₁, deref_eq_ok.mp hprev, happend, hok⟩

theorem exitKill_eq (hok : exitKill k c = .ok k') : ∃ prev, k.current c = some prev ∧
    (k.setProcess prev { k.table prev with state := .killed, wait := (k.table prev).pid }).append
      (c, .kill) prev = .ok k' := by
  unfold exitKill at hok
  obtain ⟨prev, hprev, hok⟩ := bind_eq_ok.mp hok
  exact ⟨prev, deref_eq_ok.mp hprev, hok⟩

/-- **The loop of `wake_up`**, from its end: what holds of a kernel in which nobody waits,
and of one before a process is woken when it holds after that, holds where the loop starts. -/
@[elab_as_elim]
theorem wakeLoop_rec {motive : Kernel → Prop} {wait : U32} {bound : Nat}
    (hnone : ∀ k, k.removeList (c, .wait) wait = .ok (none, k') → motive k)
    (hwake : ∀ k k₁ k₂ r, k.removeList (c, .wait) wait = .ok (some r, k₁) →
      (k₁.setState r .ready).append (c, .ready) r = .ok k₂ → motive k₂ → motive k)
    (hok : wakeLoop c wait bound k = .ok k') : motive k := by
  induction bound generalizing k with
  | zero => cases hok
  | succ bound ih =>
    unfold wakeLoop at hok
    obtain ⟨⟨o, k₁⟩, hremove, hok⟩ := bind_eq_ok.mp hok
    cases o with
    | none =>
      cases hok
      exact hnone k hremove
    | some r =>
      obtain ⟨k₂, happend, hok⟩ := bind_eq_ok.mp hok
      exact hwake k k₁ k₂ r hremove happend (ih hok)

/-- `wake_up`: the four loops one after the other. -/
theorem wakeUp_eq {wait : U32} (hok : wakeUp k wait = .ok k') : ∃ k₁ k₂ k₃,
    wakeLoop 0 wait 121 k = .ok k₁ ∧ wakeLoop 1 wait 121 k₁ = .ok k₂ ∧
    wakeLoop 2 wait 121 k₂ = .ok k₃ ∧ wakeLoop 3 wait 121 k₃ = .ok k' := by
  unfold wakeUp at hok
  obtain ⟨k₁, h₁, hok⟩ := bind_eq_ok.mp hok
  obtain ⟨k₂, h₂, hok⟩ := bind_eq_ok.mp hok
  obtain ⟨k₃, h₃, hok⟩ := bind_eq_ok.mp hok
  exact ⟨k₁, k₂, k₃, h₁, h₂, h₃, hok⟩

-- ---------------------------------------------------------------------------
-- The end of a process
-- ---------------------------------------------------------------------------

/-- **What `wait` does** with a dead process: its stack, its page map and its files go. -/
theorem reap_eq (hok : reap src k r = .ok k') : (k.table r).state = .killed ∧
    ∃ heap₁ heap files, k.heap.kfree K (k.table r).stack = .ok heap₁ ∧
      freeVm src heap₁ (k.table r).pageMap = .ok heap ∧
      eachFile dropFile (k.table r).file numFiles k.files = .ok files ∧
      k' = { k.setProcess r .zero with heap, files, lists := k.lists.setNext r none } := by
  unfold reap at hok
  obtain ⟨_, hstate, hok⟩ := bind_eq_ok.mp hok
  obtain ⟨heap₁, hstack, hok⟩ := bind_eq_ok.mp hok
  obtain ⟨heap₂, hmap, hok⟩ := bind_eq_ok.mp hok
  obtain ⟨files, hfiles, hok⟩ := bind_eq_ok.mp hok
  cases hok
  exact ⟨kernelAssert_eq_ok.mp hstate, heap₁, heap₂, files, hstack, hmap, hfiles, rfl⟩

/-- **A turn of `wait`**: nobody is dead, no dead process has the number, or one that has
it leaves the list and is reaped. -/
theorem waitTurn_cases {pid : U32} {reaped : Bool}
    (hok : waitTurn src k c pid = .ok (reaped, k')) :
    (reaped = false ∧ k.lists.isListEmpty (c, .kill) ∧ k' = k) ∨
    (reaped = false ∧ k.removeList (c, .kill) pid = .ok (none, k')) ∨
    ∃ r k₁, reaped = true ∧ k.removeList (c, .kill) pid = .ok (some r, k₁) ∧
      reap src k₁ r = .ok k' := by
  unfold waitTurn at hok
  by_cases hempty : k.lists.isListEmpty (c, .kill)
  · rw [if_pos hempty] at hok
    cases hok
    exact Or.inl ⟨rfl, hempty, rfl⟩
  · rw [if_neg hempty] at hok
    obtain ⟨⟨o, k₁⟩, hremove, hok⟩ := bind_eq_ok.mp hok
    cases o with
    | none =>
      cases hok
      exact Or.inr (Or.inl ⟨rfl, hremove⟩)
    | some r =>
      obtain ⟨k₂, hreap, hok⟩ := bind_eq_ok.mp hok
      cases hok
      exact Or.inr (Or.inr ⟨r, k₁, rfl, hremove, hreap⟩)

end TinyMultiCore
