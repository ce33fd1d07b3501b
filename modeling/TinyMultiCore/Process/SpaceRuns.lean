import TinyMultiCore.Process.FileCounts
import TinyMultiCore.Process.LoadStores
import TinyMultiCore.Process.Spaces

/-!
# Frames over runs

`SpacesInv`: the frames in use are held as `Spaces` says, and a core that runs a user
process has the page table of this process loaded, so that what the process writes is
its own. The programs that `init_process` loads have to fit into their page: `read_file`
writes all of a larger one behind it.

* `SpacesInv.step` — every step of every core keeps that;
* `run_spacesInv` — so it holds in every state that is reached.
-/

namespace TinyMultiCore

open ByteMemory TransitionSystem

variable {K : KernelImage} {src : FrameSource K} {image : Memory} {k k' : Kernel} {c : Core}
  {r : ProcRef} {f page : U64} {m : Memory} {s s' : System} {v : ListId → List ProcRef}

/-- Reading the programs that `init_process` loads stores nothing behind the first two
megabytes. -/
def ProgramsFit (image : Memory) : Prop :=
  ∀ program ∈ ["TEST4.BIN", "INIT.BIN"], ∀ f, searchFile image (cString program) = some f →
    ¬ rawDataStores image (firstCluster image f) (dirEntry image f).fileSize (2 ^ 21)

/-- The frames have their holders, and user processes run in their own page tables. The second part
is what turns a store of the program into a store to frames that it holds. -/
structure SpacesInv (K : KernelImage) (k : Kernel) : Prop where
  spaces : Spaces K k
  loaded : ∀ c r, k.current c = some r → r.2 ≠ 0 →
    k.Live r ∧ k.ttbr0 c = v2p (k.table r).pageMap

-- ---------------------------------------------------------------------------
-- Files and memory
-- ---------------------------------------------------------------------------

theorem TouchesFiles.frames (h : TouchesFiles k r k') :
    (∀ q, SameSlot k k' q) ∧ k'.fcbTable = k.fcbTable ∧ k'.fileDescTable = k.fileDescTable ∧
      k'.current = k.current ∧ k'.ttbr0 = k.ttbr0 := by
  obtain ⟨file, heap, files, rfl⟩ := h
  refine ⟨fun q => ?_, rfl, rfl, rfl, rfl⟩
  by_cases hq : q = r
  · subst hq
    refine ⟨?_, fun _ => ⟨?_, ?_, ?_⟩⟩ <;> simp [Kernel.setProcess, Kernel.Live]
  · exact .of_table (Function.update_of_ne hq ..)

/-- The user page of the process that a core runs. -/
theorem userAccess_maps (hload : k.ttbr0 c = v2p (k.table r).pageMap)
    (hpage : userAccess k c userBase = .ok page) : Maps k.heap.mem (k.table r).pageMap page := by
  unfold userAccess at hpage
  rw [hload, IsFrame.p2v_v2p] at hpage
  obtain ⟨b, hb, hpage⟩ := bind_eq_ok.mp hpage
  obtain rfl : pageOf b = page := Except.ok.inj hpage
  exact ⟨_, _, b, (walk_userBase ..).symm.trans (deref_eq_ok.mp hb), rfl⟩

/-- A buffer that begins in the caller's page has no byte elsewhere. -/
theorem inBuffer_own {va x : U64} (hva : (va - userBase).toNat < 2 ^ 21) (hx : inBuffer k c va x) :
    ∃ page, userAccess k c userBase = .ok page ∧ (x - page).toNat < 2 ^ 21 := by
  unfold inBuffer at hx
  rw [if_pos hva] at hx
  cases hpage : userAccess k c userBase with
  | ok page =>
    rw [hpage] at hx
    exact ⟨page, rfl, of_decide_eq_true hx⟩
  | error e =>
    rw [hpage] at hx
    cases hx

/-- Current processes are live. -/
theorem SystemInv.live (h : SystemInv s v) (hcur : s.kernel.current c = some r) (hslot : r.2 ≠ 0) :
    s.kernel.Live r :=
  ⟨hslot, by rcases (h.phases c).state hcur hslot with hs | hs <;> rw [hs] <;> decide⟩

namespace SpacesInv

/-- A process opens and closes files, and writes to its page and its stack. -/
theorem writes (h : SpacesInv K k) (hr : k.Live r) (ht : TouchesFiles k r k')
    (hheap : k'.heap = { k.heap with mem := m })
    (hbytes : ∀ x, (∀ f, f = (k.table r).stack ∨ Maps k.heap.mem (k.table r).pageMap f →
      2 ^ 21 ≤ (x - f).toNat) → m x = k.heap.mem x) : SpacesInv K k' := by
  obtain ⟨htable, hfcb, hdesc, hcur, hload⟩ := ht.frames
  refine ⟨h.spaces.writes hr htable hheap hfcb hdesc hbytes, fun c q hq hslot => ?_⟩
  rw [hcur] at hq
  obtain ⟨hlive, hroot⟩ := h.loaded c q hq hslot
  rw [hload, (htable q).live, ((htable q).frames hlive).pageMap]
  exact ⟨hlive, hroot⟩

/-- Files only. -/
theorem touches (h : SpacesInv K k) (hr : k.Live r) (ht : TouchesFiles k r k')
    (hheap : k'.heap = k.heap) : SpacesInv K k' :=
  h.writes hr ht hheap fun _ _ => rfl

/-- The processes are moved around. -/
theorem schedules (h : SpacesInv K k) (hs : Schedules k k') (hback : ∀ q, k'.Live q → k.Live q)
    (hlive : ∀ c r, k'.current c = some r → r.2 ≠ 0 → k'.Live r) : SpacesInv K k' := by
  have hiff : ∀ q, k'.Live q ↔ k.Live q := fun q =>
    ⟨hback q, fun hl => ⟨hl.1, mt (hs.live q) hl.2⟩⟩
  refine ⟨h.spaces.congr (fun q => ⟨hiff q, fun _ => (hs.space q).sameFrames⟩) hs.heap hs.fcbTable
    hs.fileDescTable, fun c r hr hslot => ⟨hlive c r hr hslot, ?_⟩⟩
  rcases hs.loads c with ⟨hcur, hload⟩ | ⟨q, hq, hload⟩
  · rw [hcur] at hr
    rw [hload, (hs.space r).pageMap]
    exact (h.loaded c r hr hslot).2
  · rw [hr] at hq
    cases hq
    exact hload

-- ---------------------------------------------------------------------------
-- New processes
-- ---------------------------------------------------------------------------

/-- A process joins that no core runs yet. -/
theorem create (h : SpacesInv K k) (hdead : (k.table r).state = .unused)
    (hother : ∀ q, q ≠ r → k'.table q = k.table q) (hfcb : k'.fcbTable = k.fcbTable)
    (hdesc : k'.fileDescTable = k.fileDescTable) (hcur : k'.current = k.current)
    (hload : k'.ttbr0 = k.ttbr0) (hnew : NewSpace K k.heap k'.heap (k'.table r))
    (hlive : k'.Live r) : SpacesInv K k' := by
  refine ⟨h.spaces.create hdead hother hfcb hdesc hnew hlive, fun c q hq hslot => ?_⟩
  rw [hcur] at hq
  obtain ⟨hq, hroot⟩ := h.loaded c q hq hslot
  have hne : q ≠ r := fun he => hq.2 (he ▸ hdead)
  rw [hload, Kernel.Live, hother q hne]
  exact ⟨hq, hroot⟩

/-- The space of a process that `setup_uvm` loads. -/
theorem setupUvm_newSpace {stack pageMap : U64} {k₂ : Kernel} {program : String}
    (h : SpacesInv K k) (hfiles : FilesInv image k)
    (hfits : ∀ f, searchFile image (cString program) = some f →
      ¬ rawDataStores image (firstCluster image f) (dirEntry image f).fileSize (2 ^ 21))
    (hstack : src.pick k.heap.calls k.heap.inUse = some stack)
    (hmap : src.pick (k.heap.calls + 1) (stack :: k.heap.inUse) = some pageMap)
    (hsetup : setupUvm src image (newProcess k r stack pageMap) r program = .ok (true, k₂)) :
    NewSpace K k.heap k₂.heap (k₂.table r) := by
  obtain ⟨page, heap, fd, files, file, size, files₁, mem, files₂, file₂, hpage, hmapped, hopen, hsize,
    hread, -, rfl⟩ := setupUvm_eq hsetup
  obtain ⟨f, d, hopened⟩ := hfiles.counted.opened hopen
  rw [hopened.getFileSize] at hsize
  cases hsize
  have hroot : ((newProcess k r stack pageMap).table r).pageMap = pageMap := by
    simp [newProcess, Kernel.setProcess]
  rw [hroot] at hmapped
  refine (newSpace_of_mapPage h.spaces.frames hstack hmap hpage (fun _ _ => rfl) hmapped
    (fun x hx _ => hopened.readFile_inside (hfits f hopened.found) hread hx) ?_ ?_ ?_).1 <;>
    simp [newProcess, Kernel.setProcess]

theorem initProgram {program : String} (h : SpacesInv K k) (hfiles : FilesInv image k)
    (hfits : ∀ f, searchFile image (cString program) = some f →
      ¬ rawDataStores image (firstCluster image f) (dirEntry image f).fileSize (2 ^ 21))
    (hok : TinyMultiCore.initProgram src image k c program = .ok k') : SpacesInv K k' := by
  obtain ⟨r, stack, pageMap, k₂, lists, hfind, hstack, hmap, hsetup, -, rfl⟩ := initProgram_eq hok
  obtain ⟨-, hslot, hunused⟩ := findUnusedProcess_eq_some hfind
  have hnew := h.setupUvm_newSpace hfiles hfits hstack hmap hsetup
  obtain ⟨file, heap, files, rfl⟩ := setupUvm_touches hsetup
  refine h.create (r := r) hunused (fun q hq => ?_) rfl rfl rfl rfl ?_ ⟨hslot, ?_⟩
  · simp [newProcess, Kernel.setState, Kernel.setProcess, hq]
  · refine hnew.congr ?_
    constructor <;> simp [newProcess, Kernel.setState, Kernel.setProcess]
  · simp [newProcess, Kernel.setState, Kernel.setProcess]

/-- The bytes of the trap frame of a child are in its stack. -/
theorem childMemory_outside {mem : Memory} {stack x : U64} {current : ProcRef}
    (htf : (k.table r).tf = topFrame stack) (hx : 2 ^ 21 ≤ (x - stack).toNat) :
    childMemory k mem r current x = mem x := by
  have hout := topFrame_outside hx
  unfold childMemory
  rw [htf, write64_outside (by omega)]
  exact if_neg (Nat.not_lt.mpr hout)

/-- The space of a child. -/
theorem fork_newSpace {stack pageMap srcMap : U64} {heap : Heap} (current : ProcRef)
    (h : SpacesInv K k) (hstack : src.pick k.heap.calls k.heap.inUse = some stack)
    (hmap : src.pick (k.heap.calls + 1) (stack :: k.heap.inUse) = some pageMap)
    (hcopy : copyUvm src (newProcess k r stack pageMap).heap pageMap srcMap
      (pageSize.setWidth 32) = .ok (true, heap)) :
    NewSpace K k.heap { heap with
      mem := childMemory (newProcess k r stack pageMap) heap.mem r current }
      (childProcess (newProcess k r stack pageMap) r current) := by
  obtain ⟨page, pd, entry, hpage, -, -, hmapped⟩ := copyUvm_eq hcopy
  have htf : ((newProcess k r stack pageMap).table r).tf = topFrame stack := by
    simp [newProcess, Kernel.setProcess]
  refine (newSpace_of_mapPage h.spaces.frames hstack hmap hpage (fun x hx => if_neg ?_) hmapped
    (fun x _ hx => childMemory_outside htf hx) ?_ ?_ ?_).1
  · exact Nat.not_lt.mpr hx
  all_goals simp [childProcess, newProcess, Kernel.setProcess]

theorem fork {res : Option ProcRef} (h : SpacesInv K k)
    (hok : TinyMultiCore.fork src k = .ok (res, k')) :
    SpacesInv K k' ∧ ∀ q, k.Live q → k'.table q = k.table q ∧ k'.Live q := by
  obtain ⟨current, r, stack, pageMap, heap, files, lists, -, -, hfind, hstack, hmap, hcopy, -, -, rfl⟩ :=
    fork_eq hok
  obtain ⟨-, hslot, hunused⟩ := findUnusedProcess_eq_some hfind
  have hother : ∀ q, q ≠ r → ((newProcess k r stack pageMap).setProcess r
      (childProcess (newProcess k r stack pageMap) r current)).table q = k.table q := fun q hq => by
    simp [newProcess, Kernel.setProcess, hq]
  refine ⟨h.create (r := r) hunused hother rfl rfl rfl rfl ?_ ⟨hslot, ?_⟩, fun q hq => ?_⟩
  · have hnew := h.fork_newSpace (r := r) current hstack hmap hcopy
    simpa [Kernel.setProcess] using hnew
  · simp [Kernel.setProcess, childProcess]
  · have hsame := hother q fun he => hq.2 (he ▸ hunused)
    exact ⟨hsame, hq.1, fun hstate => hq.2 (hsame ▸ hstate)⟩

/-- `sys_fork` is `fork` and one store behind it: the parent gets the number of the child in
`x0` of its frame, and the frame is in the parent's own stack. -/
theorem sysFork_stores {res : Option ProcRef} (h : SpacesInv K k) (hslot : r.2 ≠ 0)
    (hcur : k.current c = some r) (hok : TinyMultiCore.sysFork src k c = .ok (res, k')) :
    ∃ k₁ mem, TinyMultiCore.fork src k = .ok (res, k₁) ∧ SpacesInv K k₁ ∧ k₁.Live r ∧
      k' = { k₁ with heap := { k₁.heap with mem } } ∧
      ∀ x, 2 ^ 21 ≤ (x - (k₁.table r).stack).toNat → mem x = k₁.heap.mem x := by
  obtain ⟨caller, k₁, mem, hcaller, hfork, rfl, rfl⟩ := sysFork_eq hok
  obtain rfl : r = caller := Option.some.inj (hcur.symm.trans hcaller)
  obtain ⟨h₁, hlive⟩ := h.fork hfork
  obtain ⟨-, hr⟩ := hlive r (h.loaded c r hcur hslot).1
  refine ⟨k₁, _, hfork, h₁, hr, rfl, fun x hx => write64_outside ?_⟩
  have hout := topFrame_outside hx
  rw [(h₁.spaces.space r hr).tf]
  omega

theorem sysFork {res : Option ProcRef} (h : SpacesInv K k) (hslot : r.2 ≠ 0)
    (hcur : k.current c = some r) (hok : TinyMultiCore.sysFork src k c = .ok (res, k')) :
    SpacesInv K k' := by
  obtain ⟨k₁, mem, -, h₁, hr, rfl, hbytes⟩ := h.sysFork_stores hslot hcur hok
  exact h₁.writes hr (.of_heap _) rfl fun x hx => hbytes x (hx _ (Or.inl rfl))

-- ---------------------------------------------------------------------------
-- The other functions
-- ---------------------------------------------------------------------------

/-- The idle processes are set up. -/
theorem initIdle (h : SpacesInv K k) : SpacesInv K (initIdleProcess K k) := by
  have hslot : ∀ q : ProcRef, q.2 ≠ 0 → (initIdleProcess K k).table q = k.table q :=
    fun q hq => if_neg hq
  refine ⟨h.spaces.congr (fun q => ?_) rfl rfl rfl, fun c q hq hne => ?_⟩
  · by_cases hq : q.2 = 0
    · exact ⟨iff_of_false (fun hl => hl.1 hq) fun hl => hl.1 hq, fun hl => absurd hq hl.1⟩
    · exact .of_table (hslot q hq)
  · obtain rfl : (c, 0) = q := Option.some.inj hq
    exact absurd rfl hne

theorem initProcess (h : SpacesInv K k) (hfiles : FilesInv image k) (hfits : ProgramsFit image)
    (hok : TinyMultiCore.initProcess src image k c = .ok k') : SpacesInv K k' := by
  rcases initProcess_cases hok with ⟨-, k₁, hok₁, hok⟩ | ⟨-, hok⟩
  · have hfiles₀ := hfiles.initIdle (K := K)
    exact (h.initIdle.initProgram hfiles₀ (hfits _ (by simp)) hok₁).initProgram
      (hfiles₀.initProgram hok₁) (hfits _ (by simp)) hok
  · exact h.initProgram hfiles (hfits _ (by simp)) hok

/-- `exec` writes to the page that is mapped and to the trap frame. -/
theorem exec_outside {name : Nat → BitVec 8} {returns : Bool} (h : SpacesInv K k)
    (hfiles : FilesInv image k) (hcur : k.current c = some r) (hslot : r.2 ≠ 0)
    (hok : TinyMultiCore.exec image k c r name = .ok (returns, k')) :
    ∃ m, k'.heap = { k.heap with mem := m } ∧
      ∀ x, (∀ f, f = (k.table r).stack ∨ Maps k.heap.mem (k.table r).pageMap f →
        2 ^ 21 ≤ (x - f).toNat) → m x = k.heap.mem x := by
  obtain ⟨hr, hload⟩ := h.loaded c r hcur hslot
  rcases exec_cases hok with ⟨-, -, rfl⟩ | ⟨fd, files, file, page, size, n, files₁, mem, hopen, hpage,
    hsize, hread, hstores, hend⟩
  · exact ⟨_, rfl, fun _ _ => rfl⟩
  obtain ⟨f, d, hopened⟩ := hfiles.counted.opened hopen
  rw [hopened.getFileSize] at hsize
  cases hsize
  rw [hopened.fileStores] at hstores
  have hfits := of_decide_eq_false (Except.ok.inj hstores)
  have hmem : ∀ x, (∀ f, f = (k.table r).stack ∨ Maps k.heap.mem (k.table r).pageMap f →
      2 ^ 21 ≤ (x - f).toNat) → mem x = k.heap.mem x := by
    intro x hx
    have hout := hx page (Or.inr (userAccess_maps hload hpage))
    rw [hopened.readFile_inside hfits hread hout]
    exact if_neg (Nat.not_lt.mpr hout)
  rcases hend with ⟨-, -, rfl⟩ | ⟨-, -, files₂, file₂, -, rfl⟩
  · exact ⟨mem, rfl, hmem⟩
  · refine ⟨_, rfl, fun x hx => ?_⟩
    -- the trap frame is in the stack
    have hout := topFrame_outside (hx _ (Or.inl rfl))
    rw [← (h.spaces.space r hr).tf] at hout
    rw [enterAtBase_outside hout, ← hmem x hx]
    exact if_neg (Nat.not_lt.mpr hout)

theorem exec {name : Nat → BitVec 8} {returns : Bool} (h : SpacesInv K k) (hfiles : FilesInv image k)
    (hcur : k.current c = some r) (hslot : r.2 ≠ 0)
    (hok : TinyMultiCore.exec image k c r name = .ok (returns, k')) : SpacesInv K k' := by
  obtain ⟨m, hheap, hbytes⟩ := h.exec_outside hfiles hcur hslot hok
  exact h.writes (h.loaded c r hcur hslot).1 (exec_touches hok) hheap hbytes

theorem reap (h : SpacesInv K k) (hr : k.Live r) (hcur : ∀ c, k.current c ≠ some r)
    (hok : TinyMultiCore.reap src k r = .ok k') : SpacesInv K k' := by
  refine ⟨h.spaces.reap hr hok, fun c q hq hslot => ?_⟩
  obtain ⟨-, heap₁, heap, files, -, -, -, rfl⟩ := reap_eq hok
  have hne : q ≠ r := fun he => hcur c (he ▸ hq)
  have hsame : (k.setProcess r .zero).table q = k.table q := Function.update_of_ne hne ..
  show (q.2 ≠ 0 ∧ ((k.setProcess r .zero).table q).state ≠ .unused) ∧
    k.ttbr0 c = v2p ((k.setProcess r .zero).table q).pageMap
  rw [hsame]
  exact h.loaded c q hq hslot

theorem waitTurn {pid : U32} {reaped : Bool} (h : SpacesInv K k) (hs : Sched k v)
    (hlive : ∀ c r, k'.current c = some r → r.2 ≠ 0 → k'.Live r)
    (hok : TinyMultiCore.waitTurn src k c pid = .ok (reaped, k')) : SpacesInv K k' := by
  have hdequeue : ∀ lists, SpacesInv K { k with lists } := fun lists =>
    ⟨h.spaces.congr (fun _ => .of_table rfl) rfl rfl rfl, h.loaded⟩
  rcases waitTurn_cases hok with ⟨-, -, rfl⟩ | ⟨-, hremove⟩ | ⟨r, k₁, -, hremove, hreap⟩
  · exact h
  · obtain ⟨lists, -, rfl⟩ := removeList_eq_ok.mp hremove
    exact hdequeue lists
  · obtain ⟨-, hslot, hkilled⟩ := hs.removeList_user hremove
    obtain ⟨lists, -, rfl⟩ := removeList_eq_ok.mp hremove
    have hr : Kernel.Live { k with lists } r := ⟨hslot, by rw [hkilled]; decide⟩
    refine (hdequeue lists).reap hr (fun c hc => ?_) hreap
    -- no core has the dead process as its current one: it is gone now
    obtain ⟨-, heap₁, heap, files, -, -, -, rfl⟩ := reap_eq hreap
    refine (hlive c r hc hslot).2 ?_
    simp [Kernel.setProcess, Process.zero]

-- ---------------------------------------------------------------------------
-- Runs
-- ---------------------------------------------------------------------------

/-- **Every step keeps the frames with their holders.** By the effect of the step on the kernel: only
creation and `wait` change who holds what, `exec` and the program of the process write to what it has,
and everything else leaves the heap alone. -/
theorem step {op : Op} (hs : SystemInv s v) (hfiles : FilesInv image s.kernel)
    (hfits : ProgramsFit image) (h : SpacesInv K s.kernel) (hstep : s.Step src image op s') :
    SpacesInv K s'.kernel := by
  obtain ⟨v', hs', -, hpids, -⟩ := hs.step hstep
  have hlive : ∀ c r, s'.kernel.current c = some r → r.2 ≠ 0 → s'.kernel.Live r :=
    fun c r hcur hslot => hs'.live hcur hslot
  have hback : op.created = 0 → ∀ q, s'.kernel.Live q → s.kernel.Live q :=
    fun h0 q hq => ⟨hq.1, ((hpids h0).2 q hq.1 hq.2).1⟩
  cases hstep.kernelEffect with
  | init hk => exact h.initProcess hfiles hfits hk
  | schedules h0 hk => exact h.schedules hk (hback h0) hlive
  | wait hk => exact h.waitTurn hs.sched hlive hk
  | fork hr hk => exact h.sysFork hr.2.2 hr.2.1 hk
  | exec hr hexec hexit =>
    have hsame := (exec_touches hexec).frames.1
    exact (h.exec hfiles hr.2.1 hr.2.2 hexec).schedules hexit
      (fun q hq => (hsame q).live.mpr (hback rfl q hq)) hlive
  | openFile hr _ hk =>
    exact h.touches (h.loaded _ _ hr.2.1 hr.2.2).1 ⟨_, s.kernel.heap, _, hk⟩ (by rw [hk]; rfl)
  | closeFile hr _ _ _ hk =>
    exact h.touches (h.loaded _ _ hr.2.1 hr.2.2).1 ⟨_, s.kernel.heap, _, hk⟩ (by rw [hk]; rfl)
  | run hr hown hk =>
    obtain ⟨hlive, hload⟩ := h.loaded _ _ hr.2.1 hr.2.2
    rw [hk]
    refine h.writes hlive (.of_heap _) rfl fun x hx => hown x ?_
    rintro (hstack | ⟨page, hpage, hin⟩)
    · exact absurd hstack (Nat.not_lt.mpr (hx _ (Or.inl rfl)))
    · exact absurd hin (Nat.not_lt.mpr (hx page (Or.inr (userAccess_maps hload hpage))))

end SpacesInv

/-- The frames that `init_fs` takes, and the heap with them. -/
theorem initFs_eq {mem : Memory} {fcbTable fileDescTable : U64} {heap : Heap}
    (hok : initFs src image ⟨mem, [], 0⟩ = .ok (fcbTable, fileDescTable, heap)) :
    heap = (Heap.withFrame ⟨mem, [], 0⟩ fcbTable).withFrame fileDescTable ∧ IsFrame K fcbTable ∧
      IsFrame K fileDescTable ∧ fileDescTable ≠ fcbTable := by
  unfold initFs at hok
  obtain ⟨_, -, hok⟩ := bind_eq_ok.mp hok
  rcases Heap.kalloc_cases src ⟨mem, [], 0⟩ with ⟨-, hk⟩ | ⟨f, -, hk, hf, -⟩
  · rw [hk] at hok
    cases hok
  rw [hk] at hok
  dsimp only at hok
  rw [kernelAssert_pos hf.ne_zero, ok_bind, Forest.memsetPage_withFrame] at hok
  rcases Heap.kalloc_cases src (Heap.withFrame ⟨mem, [], 0⟩ f) with ⟨-, hk⟩ | ⟨d, -, hk, hd, hfree⟩
  · rw [hk] at hok
    cases hok
  rw [hk] at hok
  dsimp only at hok
  rw [kernelAssert_pos hd.ne_zero, ok_bind, Forest.memsetPage_withFrame] at hok
  cases hok
  exact ⟨rfl, hf, hd, fun he => hfree (he ▸ List.mem_cons_self)⟩

/-- Before there are any processes. -/
theorem SpacesInv.start (hunused : ∀ r, (k.table r).state = .unused) (hcur : ∀ c, k.current c = none)
    (huse : k.heap.inUse = [k.fileDescTable, k.fcbTable]) (hfcb : IsFrame K k.fcbTable)
    (hdesc : IsFrame K k.fileDescTable) (hne : k.fileDescTable ≠ k.fcbTable) : SpacesInv K k := by
  have hdead : ∀ r f, ¬ k.Holds (.process r) f := fun r f hf => hf.1.2 (hunused r)
  have hmem : ∀ f, f ∈ k.heap.inUse ↔ f = k.fileDescTable ∨ f = k.fcbTable := fun f => by simp [huse]
  refine ⟨⟨⟨by simp [huse, hne], fun o f ho => ?_, fun f hf => ?_, fun o o' f ho ho' => ?_⟩,
    fun f hf => ?_, fun r hr => absurd (hunused r) hr.2⟩, fun c r hr => ?_⟩
  · rw [hmem]
    cases o with
    | fcbTable => exact Or.inr ho
    | fileDescTable => exact Or.inl ho
    | process r => exact absurd ho (hdead r f)
  · exact ((hmem f).mp hf).elim (fun he => ⟨.fileDescTable, he⟩) fun he => ⟨.fcbTable, he⟩
  · match o, o', ho, ho' with
    | .fcbTable, .fcbTable, _, _ => rfl
    | .fileDescTable, .fileDescTable, _, _ => rfl
    | .fcbTable, .fileDescTable, ho, ho' => exact absurd (ho'.symm.trans ho) hne
    | .fileDescTable, .fcbTable, ho, ho' => exact absurd (ho.symm.trans ho') hne
    | .process r, _, ho, _ => exact absurd ho (hdead r f)
    | _, .process r, _, ho' => exact absurd ho' (hdead r f)
  · rcases (hmem f).mp hf with rfl | rfl
    · exact hdesc
    · exact hfcb
  · rw [hcur] at hr
    cases hr

/-- The run lemma. -/
theorem run_spacesInv {mem : Memory} {ops : List Op} {s₀ : System}
    (hboot : boot src image mem = .ok s₀) (hrun : Run (System.Step src image) s₀ ops s)
    (hfits : ProgramsFit image) : SpacesInv K s.kernel := by
  induction hrun with
  | nil =>
    obtain ⟨heap, fcbTable, fileDescTable, hinit, rfl⟩ := boot_eq hboot
    obtain ⟨rfl, hfcb, hdesc, hne⟩ := initFs_eq hinit
    exact .start (fun _ => rfl) (fun _ => rfl) rfl hfcb hdesc hne
  | snoc hr hstep ih =>
    obtain ⟨v, hs, -⟩ := run_inv hboot hr
    exact ih.step hs (run_filesInv hboot hr) hfits hstep

/-- The programs of the small disk fit into their pages. -/
theorem smallDisk_programsFit : ProgramsFit smallDisk := by
  intro program _ f hfound hstores
  obtain ⟨hlt, -⟩ := searchFile_eq_some hfound
  rw [show (getRootDirectoryCount smallDisk).toNat = 2 by decide +kernel] at hlt
  have hf : f = 0 ∨ f = 1 := by omega
  rcases hf with rfl | rfl
  · exact absurd hstores (by decide +kernel)
  · exact absurd hstores (by decide +kernel)

end TinyMultiCore
