import TinyMultiCore.Process.Creation

/-!
# What scheduling leaves alone

`Schedules k k'`: states, wait values, lists, current processes and page-table
registers may differ, and nothing else; a core that goes on to another process loads
its page table. It holds of every function of `process.c` that only moves processes
around, whatever state the lists are in.
-/

namespace TinyMultiCore

variable {K : KernelImage} {src : FrameSource K} {image : Memory} {k k' : Kernel} {c : Core}
  {r : ProcRef}

/-- The same process, with the same memory and files. State and wait value are left out:
these are what scheduling changes. -/
structure SameSpace (p p' : Process) : Prop where
  pid : p'.pid = p.pid
  pageMap : p'.pageMap = p.pageMap
  stack : p'.stack = p.stack
  file : p'.file = p.file
  tf : p'.tf = p.tf

theorem SameSpace.refl (p : Process) : SameSpace p p := ⟨rfl, rfl, rfl, rfl, rfl⟩

theorem SameSpace.trans {p p' p'' : Process} (h : SameSpace p p') (h' : SameSpace p' p'') :
    SameSpace p p'' :=
  ⟨h'.pid.trans h.pid, h'.pageMap.trans h.pageMap, h'.stack.trans h.stack, h'.file.trans h.file,
    h'.tf.trans h.tf⟩

/-- Processes are moved around between the two kernels, and nothing else happens. Slots may
come into use but none goes out of it (`live`), so that a process which is there still has
all its frames and files; and a core that has another process loads that one's page table
(`loads`). The relation asks nothing of the lists: it holds of `process.c` in every state,
also in those that the scheduler's invariant excludes. -/
structure Schedules (k k' : Kernel) : Prop where
  heap : k'.heap = k.heap
  files : k'.files = k.files
  fcbTable : k'.fcbTable = k.fcbTable
  fileDescTable : k'.fileDescTable = k.fileDescTable
  space : ∀ r, SameSpace (k.table r) (k'.table r)
  live : ∀ r, (k'.table r).state = .unused → (k.table r).state = .unused
  loads : ∀ c, (k'.current c = k.current c ∧ k'.ttbr0 c = k.ttbr0 c) ∨
    ∃ r, k'.current c = some r ∧ k'.ttbr0 c = v2p (k'.table r).pageMap

namespace Schedules

/-- Only the lists are different. -/
theorem of_table (htable : k'.table = k.table) (hheap : k'.heap = k.heap)
    (hfiles : k'.files = k.files) (hfcb : k'.fcbTable = k.fcbTable)
    (hdesc : k'.fileDescTable = k.fileDescTable) (hcur : k'.current = k.current)
    (hload : k'.ttbr0 = k.ttbr0) : Schedules k k' :=
  ⟨hheap, hfiles, hfcb, hdesc, fun r => by rw [htable]; exact .refl _, fun r => by rw [htable]; exact id,
    fun c => Or.inl ⟨by rw [hcur], by rw [hload]⟩⟩

theorem refl (k : Kernel) : Schedules k k := of_table rfl rfl rfl rfl rfl rfl rfl

/-- One after the other. A core that has switched and then stays keeps the page table that
it has loaded, since the second part does not change the page map of its process. -/
theorem trans {k'' : Kernel} (h : Schedules k k') (h' : Schedules k' k'') : Schedules k k'' where
  heap := h'.heap.trans h.heap
  files := h'.files.trans h.files
  fcbTable := h'.fcbTable.trans h.fcbTable
  fileDescTable := h'.fileDescTable.trans h.fileDescTable
  space r := (h.space r).trans (h'.space r)
  live r hr := h.live r (h'.live r hr)
  loads c := by
    rcases h'.loads c with ⟨hcur', hload'⟩ | hnew
    · rw [hcur', hload']
      refine (h.loads c).imp id fun ⟨r, hcur, hload⟩ => ⟨r, hcur, ?_⟩
      rw [hload, (h'.space r).pageMap]
    · exact Or.inr hnew

/-- A record with another state or wait value. The state is not `unused`: `wait` alone gives
a slot back, and that is no scheduling. -/
theorem setProcess {p : Process} (hp : SameSpace (k.table r) p) (hstate : p.state ≠ .unused) :
    Schedules k (k.setProcess r p) := by
  have htable : ∀ y, (k.setProcess r p).table y = if y = r then p else k.table y := fun y => by
    simp [Kernel.setProcess, Function.update_apply]
  refine ⟨rfl, rfl, rfl, rfl, fun y => ?_, fun y hy => ?_, fun _ => Or.inl ⟨rfl, rfl⟩⟩
  · rw [htable]
    split
    · rename_i he
      exact he ▸ hp
    · exact .refl _
  · rw [htable] at hy
    split at hy
    · exact absurd hy hstate
    · exact hy

theorem setState {state : ProcState} (hstate : state ≠ .unused) :
    Schedules k (k.setState r state) :=
  setProcess ⟨rfl, rfl, rfl, rfl, rfl⟩ hstate

/-- `append_list_tail` -/
theorem append {list : ListId} (hok : k.append list r = .ok k') : Schedules k k' := by
  obtain ⟨lists, -, rfl⟩ := append_eq_ok.mp hok
  exact of_table rfl rfl rfl rfl rfl rfl rfl

/-- `remove_list` -/
theorem removeList {list : ListId} {value : U32} {o : Option ProcRef}
    (hok : k.removeList list value = .ok (o, k')) : Schedules k k' := by
  obtain ⟨lists, -, rfl⟩ := removeList_eq_ok.mp hok
  exact of_table rfl rfl rfl rfl rfl rfl rfl

/-- The core loads the page table of its new current process. For the idle process, too,
whose field `page_map` is not what `switch_vm` takes it for; that is why `loads` speaks of
`V2P` of the field and not of the table. -/
theorem switchVm (k : Kernel) (c : Core) (r : ProcRef) :
    Schedules k (TinyMultiCore.switchVm { k with current := Function.update k.current c (some r) } c
      (k.table r).pageMap) := by
  refine ⟨rfl, rfl, rfl, rfl, fun _ => .refl _, fun _ => id, fun y => ?_⟩
  by_cases hy : y = c
  · rw [hy]
    exact Or.inr ⟨r, Function.update_self .., Function.update_self ..⟩
  · exact Or.inl ⟨Function.update_of_ne hy .., Function.update_of_ne hy ..⟩

end Schedules

/-- `schedule`. Whether it finds a ready process or takes the idle one, whether that is the
current one or another, one state is set, and where it switches one page table is loaded. -/
theorem schedule_schedules (hok : schedule k c = .ok k') : Schedules k k' := by
  obtain ⟨prev, r, lists, -, -, rfl⟩ := schedule_eq hok
  have hlists : Schedules k { k with lists } := .of_table rfl rfl rfl rfl rfl rfl rfl
  have hset : Schedules k (Kernel.setState { k with lists } r .running) :=
    hlists.trans (.setState (by decide))
  split
  · exact hset
  · refine hset.trans ?_
    have hmap : (k.table r).pageMap =
        ((Kernel.setState { k with lists } r .running).table r).pageMap := by
      simp [Kernel.setState, Kernel.setProcess]
    rw [hmap]
    exact .switchVm ..

/-- `yield`, with all of its ways: nothing ready, an idle process that is in no list, and a
user process that goes into one. -/
theorem yieldCpu_schedules (hok : yieldCpu k c = .ok k') : Schedules k k' := by
  have hset : ∀ r, Schedules k (k.setState r .ready) := fun _ => .setState (by decide)
  rcases yieldCpu_cases hok with ⟨-, rfl⟩ | ⟨r, -, -, ⟨-, k₁, happend, hok⟩ | ⟨-, hok⟩⟩
  · exact .refl _
  · exact ((hset r).trans (.append happend)).trans (schedule_schedules hok)
  · exact (hset r).trans (schedule_schedules hok)

/-- `sleep` -/
theorem sleepOn_schedules {wait : U32} (hok : sleepOn k c wait = .ok k') : Schedules k k' := by
  obtain ⟨r, k₁, -, happend, hok⟩ := sleepOn_eq hok
  have hset : Schedules k (k.setProcess r { k.table r with state := .sleep, wait }) :=
    .setProcess ⟨rfl, rfl, rfl, rfl, rfl⟩ (by simp)
  exact (hset.trans (.append happend)).trans (schedule_schedules hok)

/-- The first part of `exit`. The process keeps its memory and its files: it is the parent's
`wait` that takes them. -/
theorem exitKill_schedules (hok : exitKill k c = .ok k') : Schedules k k' := by
  obtain ⟨r, -, happend⟩ := exitKill_eq hok
  have hset : Schedules k (k.setProcess r
      { k.table r with state := .killed, wait := (k.table r).pid }) :=
    .setProcess ⟨rfl, rfl, rfl, rfl, rfl⟩ (by simp)
  exact hset.trans (.append happend)

/-- The loop of `wake_up` over one core. -/
theorem wakeLoop_schedules {wait : U32} {bound : Nat} (hok : wakeLoop c wait bound k = .ok k') :
    Schedules k k' := by
  refine wakeLoop_rec (fun k hremove => .removeList hremove)
    (fun k k₁ k₂ r hremove happend ih => ?_) hok
  have hwoken : Schedules k₁ k₂ := .trans (.setState (by decide)) (.append happend)
  exact ((Schedules.removeList hremove).trans hwoken).trans ih

theorem wakeUp_schedules {wait : U32} (hok : wakeUp k wait = .ok k') : Schedules k k' := by
  obtain ⟨k₁, k₂, k₃, h₁, h₂, h₃, h₄⟩ := wakeUp_eq hok
  exact (((wakeLoop_schedules h₁).trans (wakeLoop_schedules h₂)).trans
    (wakeLoop_schedules h₃)).trans (wakeLoop_schedules h₄)

-- ---------------------------------------------------------------------------
-- Steps
-- ---------------------------------------------------------------------------

namespace System

variable {s s' : System} {op : Op}

variable (src image) in
/-- What a step does to the kernel. All that yields, sleeps, wakes up or exits is one case, so
that an invariant of the memory or of the files is proved for `Schedules` once, and has one
case left for each call that creates, frees or changes something. The cases keep what was
known in front of the call: that a user process runs on the core, and that the descriptor is
an open one. -/
inductive KernelEffect (s : System) (k' : Kernel) : Op → Prop
  | init {c : Core} (hok : initProcess src image s.kernel c = .ok k') : KernelEffect s k' (.init c)
  | schedules {op : Op} (hop : op.created = 0) (h : Schedules s.kernel k') : KernelEffect s k' op
  | wait {c : Core} {pid : U32} {reaped : Bool}
      (hok : waitTurn src s.kernel c pid = .ok (reaped, k')) : KernelEffect s k' (.wait c pid)
  | fork {c : Core} {r : ProcRef} {res : Option ProcRef} (hr : s.RunsUser c r)
      (hok : sysFork src s.kernel c = .ok (res, k')) : KernelEffect s k' (.fork c)
  /-- the process exits behind an `exec` that does not return -/
  | exec {c : Core} {name : Nat → BitVec 8} {r : ProcRef} {returns : Bool} {k₁ : Kernel}
      (hr : s.RunsUser c r) (hok : TinyMultiCore.exec image s.kernel c r name = .ok (returns, k₁))
      (hexit : Schedules k₁ k') : KernelEffect s k' (.exec c name)
  | openFile {c : Core} {path : Nat → BitVec 8} {r : ProcRef} {fd : Nat} {files : FileTables}
      {file : FileSlots} (hr : s.RunsUser c r)
      (hok : TinyMultiCore.openFile image s.kernel.files (s.kernel.table r).file path =
        some (fd, files, file))
      (hk : k' = { s.kernel.setProcess r { s.kernel.table r with file } with files }) :
      KernelEffect s k' (.openFile c path)
  | closeFile {c : Core} {fd : Nat} {r : ProcRef} {files : FileTables} {file : FileSlots}
      (hr : s.RunsUser c r) (hfd : fd < numFiles) (hopen : (s.kernel.table r).file fd ≠ none)
      (hok : TinyMultiCore.closeFile s.kernel.files (s.kernel.table r).file fd = .ok (files, file))
      (hk : k' = { s.kernel.setProcess r { s.kernel.table r with file } with files }) :
      KernelEffect s k' (.closeFile c fd)
  | run {c : Core} {mem : Memory} {r : ProcRef} (hr : s.RunsUser c r)
      (hown : ∀ x, ¬s.OwnByte c r x → mem x = s.kernel.heap.mem x)
      (hk : k' = { s.kernel with heap := { s.kernel.heap with mem } }) :
      KernelEffect s k' (.run c mem)

/-- A user process is the current one of its core. -/
theorem RunsUser.currentProcess (h : s.RunsUser c r) : s.kernel.currentProcess c = .ok r :=
  deref_eq_ok.mpr h.2.1

/-- **Every step** has one of these effects. This is the only place where the steps of the
system are taken apart for the memory and the files. -/
theorem Step.kernelEffect (hstep : s.Step src image op s') :
    s.KernelEffect src image s'.kernel op := by
  obtain ⟨hen, hok⟩ := hstep
  cases op with
  | init c =>
    obtain ⟨k', hk, hs'⟩ := bind_eq_ok.mp hok
    cases hs'
    exact .init hk
  | yield c =>
    obtain ⟨k', hk, hs'⟩ := bind_eq_ok.mp hok
    cases hs'
    exact .schedules rfl (yieldCpu_schedules hk)
  | sleep c wait =>
    obtain ⟨k', hk, hs'⟩ := bind_eq_ok.mp hok
    cases hs'
    exact .schedules rfl (sleepOn_schedules hk)
  | wakeUp c wait =>
    obtain ⟨k', hk, hs'⟩ := bind_eq_ok.mp hok
    cases hs'
    exact .schedules rfl (wakeUp_schedules hk)
  | exit c =>
    obtain ⟨k', hk, hs'⟩ := bind_eq_ok.mp hok
    cases hs'
    exact .schedules rfl (exitKill_schedules hk)
  | exitWake c =>
    obtain ⟨k', hk, hs'⟩ := bind_eq_ok.mp hok
    cases hs'
    exact .schedules rfl (wakeUp_schedules hk)
  | exitSchedule c =>
    obtain ⟨k', hk, hs'⟩ := bind_eq_ok.mp hok
    cases hs'
    exact .schedules rfl (schedule_schedules hk)
  | wait c pid =>
    obtain ⟨⟨reaped, k'⟩, hk, hs'⟩ := bind_eq_ok.mp hok
    cases hs'
    exact .wait hk
  | fork c =>
    obtain ⟨r, hr⟩ := hen
    obtain ⟨⟨res, k'⟩, hk, hs'⟩ := bind_eq_ok.mp hok
    cases hs'
    exact .fork hr hk
  | exec c name =>
    obtain ⟨r, hr⟩ := hen
    change (s.kernel.currentProcess c >>= _) = _ at hok
    rw [hr.currentProcess, ok_bind] at hok
    obtain ⟨⟨returns, k₁⟩, hexec, hok⟩ := bind_eq_ok.mp hok
    dsimp only at hok
    split at hok
    · cases hok
      exact .exec hr hexec (.refl _)
    · obtain ⟨k₂, hk, hs'⟩ := bind_eq_ok.mp hok
      cases hs'
      exact .exec hr hexec (exitKill_schedules hk)
  | openFile c path =>
    obtain ⟨r, hr⟩ := hen
    change (s.kernel.currentProcess c >>= _) = _ at hok
    rw [hr.currentProcess, ok_bind] at hok
    cases hopen : TinyMultiCore.openFile image s.kernel.files (s.kernel.table r).file path with
    | none =>
      -- nothing has changed
      rw [hopen] at hok
      cases hok
      exact .schedules rfl (.refl _)
    | some x =>
      rw [hopen] at hok
      cases hok
      exact .openFile hr hopen rfl
  | closeFile c fd =>
    obtain ⟨r, hr, hfd, hopen⟩ := hen
    change (s.kernel.currentProcess c >>= _) = _ at hok
    rw [hr.currentProcess, ok_bind] at hok
    obtain ⟨⟨files, file⟩, hclose, hok⟩ := bind_eq_ok.mp hok
    cases hok
    exact .closeFile hr hfd hopen hclose rfl
  | run c mem =>
    obtain ⟨r, hr, hown⟩ := hen
    cases hok
    exact .run hr hown rfl

end System

end TinyMultiCore
