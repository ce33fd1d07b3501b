import TinyMultiCore.Process.FileCalls
import TinyMultiCore.Process.SpaceRuns
import TinyMultiCore.Process.Transitions

/-!
# Memory isolation

What a process has in memory is its page map with the pages behind it, and its kernel
stack. `MemoryKept k k' q` says that between the two states nothing of that has changed for
`q`. A step changes the memory of no process but the one that takes it, whatever becomes of
the frames in between: they are mapped, zeroed, copied, freed and handed out again on all
cores.

* `MemoryKept.of_bytes` — it is enough that no byte of the frames of `q` changes;
* `IoStep.memoryKept` — every step, by the process that takes it;
* `memory_isolated` — any number of steps of others.
-/

namespace TinyMultiCore

open ByteMemory RadixTree TransitionSystem

variable {K : KernelImage} {src : FrameSource K} {image mem : Memory} {k k' k'' : Kernel} {c : Core}
  {r q : ProcRef} {s s' : System} {v : ListId → List ProcRef}

-- ---------------------------------------------------------------------------
-- The memory of a process
-- ---------------------------------------------------------------------------

/-- The memory of `q` is as it was: every address is translated as before, and the page map,
the pages and the stack are in the same frames with the same bytes. -/
structure MemoryKept (k k' : Kernel) (q : ProcRef) : Prop where
  frames : SameFrames (k.table q) (k'.table q)
  walks : ∀ va, walk k'.heap.mem (k'.table q).pageMap va = walk k.heap.mem (k.table q).pageMap va
  owns : ∀ f, (k'.table q).Owns k'.heap.mem f ↔ (k.table q).Owns k.heap.mem f
  bytes : ∀ f, (k.table q).Owns k.heap.mem f → SameBytes f k.heap.mem k'.heap.mem

namespace MemoryKept

theorem refl (k : Kernel) (q : ProcRef) : MemoryKept k k q :=
  ⟨.refl _, fun _ => rfl, fun _ => Iff.rfl, fun _ _ _ _ => rfl⟩

theorem trans (h : MemoryKept k k' q) (h' : MemoryKept k' k'' q) : MemoryKept k k'' q where
  frames := ⟨h'.frames.pageMap.trans h.frames.pageMap, h'.frames.stack.trans h.frames.stack,
    h'.frames.tf.trans h.frames.tf⟩
  walks va := (h'.walks va).trans (h.walks va)
  owns f := (h'.owns f).trans (h.owns f)
  bytes f hf x hx := (h'.bytes f ((h.owns f).mpr hf) x hx).trans (h.bytes f hf x hx)

/-- Nothing has happened to the heap. -/
theorem of_heap (hframes : SameFrames (k.table q) (k'.table q)) (hheap : k'.heap = k.heap) :
    MemoryKept k k' q := by
  refine ⟨hframes, fun va => ?_, fun f => ?_, fun f _ x _ => ?_⟩
  · rw [hheap, hframes.pageMap]
  · rw [Process.Owns, Process.Owns, hheap, hframes.pageMap, hframes.stack]
  · rw [hheap]

/-- The bytes of its frames are all that a process has. -/
theorem of_bytes (hS : Space K k.heap (k.table q)) (hframes : SameFrames (k.table q) (k'.table q))
    (hbytes : ∀ f, (k.table q).Owns k.heap.mem f → SameBytes f k.heap.mem k'.heap.mem) :
    MemoryKept k k' q := by
  -- the frames stay in use for the argument, whether they do or not
  obtain ⟨-, hown, -⟩ := hS.transfer { k.heap with mem := k'.heap.mem } hframes
    (fun f hf => (hS.owned hf).1) fun p t hp => hbytes t (Or.inr (Or.inl ⟨p, hp⟩))
  obtain ⟨-, -, hwalks⟩ := hS.map.transfer { k.heap with mem := k'.heap.mem }
    (fun f hf => (hS.map.frame hf).1) fun p t hp => hbytes t (Or.inr (Or.inl ⟨p, hp⟩))
  refine ⟨hframes, fun va => ?_, hown, hbytes⟩
  unfold walk
  rw [hframes.pageMap, hwalks _ List.mem_cons_self]

end MemoryKept

-- ---------------------------------------------------------------------------
-- Steps
-- ---------------------------------------------------------------------------

/-- A process that writes to its stack and its pages writes to nobody else's. -/
theorem Spaces.kept_of_outside (hS : Spaces K k) (hr : k.Live r) (hq : k.Live q) (hne : q ≠ r)
    (hframes : SameFrames (k.table q) (k'.table q))
    (hbytes : ∀ x, (∀ f, f = (k.table r).stack ∨ Maps k.heap.mem (k.table r).pageMap f →
      2 ^ 21 ≤ (x - f).toNat) → k'.heap.mem x = k.heap.mem x) : MemoryKept k k' q := by
  refine .of_bytes (hS.space q hq) hframes fun f hf x hx => hbytes x fun g hg => ?_
  obtain ⟨-, hnot⟩ := hS.apart hne ⟨hq, hf⟩
  have hown : (k.table r).Owns k.heap.mem g := hg.imp id Or.inr
  refine ((hS.space q hq).owned hf).2.outside ((hS.space r hr).owned hown).2 ?_ hx
  rintro rfl
  exact hnot ⟨hr, hown⟩

/-- Bytes outside the stack and the pages of the process that a core runs are not its own. -/
theorem not_ownByte {x : U64} (hload : s.kernel.ttbr0 c = v2p (s.kernel.table r).pageMap)
    (hx : ∀ f, f = (s.kernel.table r).stack ∨ Maps s.kernel.heap.mem (s.kernel.table r).pageMap f →
      2 ^ 21 ≤ (x - f).toNat) : ¬s.OwnByte c r x := by
  rintro (hstack | ⟨page, hpage, hin⟩)
  · exact absurd hstack (Nat.not_lt.mpr (hx _ (Or.inl rfl)))
  · exact absurd hin (Nat.not_lt.mpr (hx page (Or.inr (userAccess_maps hload hpage))))

namespace SpacesInv

/-- A system call writes to the stack of its caller, and to the page if its buffer is there. -/
theorem call_outside {call : FileCall} {paramCount res x : U64} {argptr : Nat → U64}
    {files : FileTables} {file : FileSlots} (h : SpacesInv K s.kernel) (hr : s.RunsUser c r)
    (hcall : systemCall image s.kernel.files (s.kernel.table r).file s.kernel.heap.mem call paramCount
      (bufferArgs s.kernel c argptr) = .ok (res, files, file, mem))
    (hin : ∀ x, Stores image s.kernel.files (s.kernel.table r).file call paramCount
      (bufferArgs s.kernel c argptr) x → inBuffer s.kernel c (argptr 1) x)
    (hown : (IoOp.call c call paramCount argptr).OwnBuffer)
    (hx : ∀ f, f = (s.kernel.table r).stack ∨ Maps s.kernel.heap.mem (s.kernel.table r).pageMap f →
      2 ^ 21 ≤ (x - f).toNat) : write64 mem (s.kernel.table r).tf res x = s.kernel.heap.mem x := by
  obtain ⟨hlive, hload⟩ := h.loaded _ _ hr.2.1 hr.2.2
  have hresult : write64 mem (s.kernel.table r).tf res x = mem x := by
    refine write64_outside ?_
    have hout := topFrame_outside (hx _ (Or.inl rfl))
    rw [(h.spaces.space r hlive).tf]
    omega
  rw [hresult]
  by_cases hread : call = .read
  · subst hread
    refine systemCall_outside hcall fun hstores => ?_
    obtain ⟨page, hpage, hlt⟩ := inBuffer_own hown (hin x hstores)
    exact absurd hlt (Nat.not_lt.mpr (hx page (Or.inr (userAccess_maps hload hpage))))
  · rw [systemCall_mem hread hcall]

/-- A new program takes frames that are free. -/
theorem initProgram_kept {program : String} (h : SpacesInv K k) (hfiles : FilesInv image k)
    (hfits : ∀ f, searchFile image (cString program) = some f →
      ¬ rawDataStores image (firstCluster image f) (dirEntry image f).fileSize (2 ^ 21))
    (hok : TinyMultiCore.initProgram src image k c program = .ok k') (hq : k.Live q) :
    MemoryKept k k' q := by
  obtain ⟨r, stack, pageMap, k₂, lists, hfind, hstack, hmap, hsetup, -, rfl⟩ := initProgram_eq hok
  obtain ⟨-, -, hunused⟩ := findUnusedProcess_eq_some hfind
  have hne : q ≠ r := fun he => hq.2 (he ▸ hunused)
  have hnew := h.setupUvm_newSpace hfiles hfits hstack hmap hsetup
  obtain ⟨file, heap, files, rfl⟩ := setupUvm_touches hsetup
  have hS := h.spaces.space q hq
  refine .of_bytes hS ?_ fun f hf => (hnew.kept f (hS.owned hf).1).2
  constructor <;> simp [newProcess, Kernel.setState, Kernel.setProcess, hne]

theorem initProcess_kept (h : SpacesInv K k) (hfiles : FilesInv image k) (hfits : ProgramsFit image)
    (hok : TinyMultiCore.initProcess src image k c = .ok k') (hq : k.Live q) :
    MemoryKept k k' q := by
  rcases initProcess_cases hok with ⟨-, k₁, hok₁, hok⟩ | ⟨-, hok⟩
  · have hfiles₀ := hfiles.initIdle (K := K)
    have hsame : (initIdleProcess K k).table q = k.table q := if_neg hq.1
    have hq₀ : (initIdleProcess K k).Live q := by rwa [Kernel.Live, hsame]
    have hlive : k₁.Live q := by
      obtain ⟨r, hcreate⟩ := initProgram_creates hok₁
      refine ⟨hq.1, ?_⟩
      rcases (hcreate.table q).2 with heq | ⟨-, hready⟩
      · rw [heq]
        exact hq₀.2
      · rw [hready]
        decide
    have h₁ := h.initIdle.initProgram hfiles₀ (hfits _ (by simp)) hok₁
    have hidle : MemoryKept k (initIdleProcess K k) q := .of_heap (hsame ▸ .refl _) rfl
    exact (hidle.trans (h.initIdle.initProgram_kept hfiles₀ (hfits _ (by simp)) hok₁ hq₀)).trans
      (h₁.initProgram_kept (hfiles₀.initProgram hok₁) (hfits _ (by simp)) hok hlive)
  · exact h.initProgram_kept hfiles (hfits _ (by simp)) hok hq

theorem fork_kept {res : Option ProcRef} (h : SpacesInv K k)
    (hok : TinyMultiCore.fork src k = .ok (res, k')) (hq : k.Live q) : MemoryKept k k' q := by
  obtain ⟨hsame, -⟩ := (h.fork hok).2 q hq
  obtain ⟨current, r, stack, pageMap, heap, files, lists, -, -, -, hstack, hmap, hcopy, -, -, rfl⟩ :=
    fork_eq hok
  have hnew := h.fork_newSpace (r := r) current hstack hmap hcopy
  have hS := h.spaces.space q hq
  exact .of_bytes hS (hsame ▸ .refl _) fun f hf => (hnew.kept f (hS.owned hf).1).2

theorem sysFork_kept {res : Option ProcRef} (h : SpacesInv K k) (hslot : r.2 ≠ 0)
    (hcur : k.current c = some r) (hok : TinyMultiCore.sysFork src k c = .ok (res, k'))
    (hq : k.Live q) (hne : q ≠ r) : MemoryKept k k' q := by
  obtain ⟨k₁, mem, hfork, h₁, hr, rfl, hbytes⟩ := h.sysFork_stores hslot hcur hok
  have hq₁ := ((h.fork hfork).2 q hq).2
  exact (h.fork_kept hfork hq).trans (h₁.spaces.kept_of_outside hr hq₁ hne (.refl _) fun x hx =>
    hbytes x (hx _ (Or.inl rfl)))

/-- **`wait`** frees the frames of a dead process. -/
theorem waitTurn_kept {pid : U32} {reaped : Bool} (h : SpacesInv K k) (hs : Sched k v)
    (hok : TinyMultiCore.waitTurn src k c pid = .ok (reaped, k')) (hq : k.Live q)
    (hq' : k'.Live q) : MemoryKept k k' q := by
  rcases waitTurn_cases hok with ⟨-, -, rfl⟩ | ⟨-, hremove⟩ | ⟨r, k₁, -, hremove, hreap⟩
  · exact .refl _ q
  · obtain ⟨lists, -, rfl⟩ := removeList_eq_ok.mp hremove
    exact .of_heap (.refl _) rfl
  · obtain ⟨-, hslot, hkilled⟩ := hs.removeList_user hremove
    obtain ⟨lists, -, rfl⟩ := removeList_eq_ok.mp hremove
    have hr : k.Live r := ⟨hslot, by rw [hkilled]; decide⟩
    obtain ⟨-, heap₁, heap, files, hstack, hfree, -, rfl⟩ := reap_eq hreap
    have hne : q ≠ r := by
      rintro rfl
      exact hq'.2 (by simp [Kernel.setProcess, Process.zero])
    obtain ⟨h₁, h', hstack', hfree', -, -, hsame⟩ :=
      (h.spaces.space r hr).free src h.spaces.ledger.nodup
    rw [hstack'] at hstack
    cases hstack
    rw [hfree'] at hfree
    cases hfree
    have hS := h.spaces.space q hq
    refine .of_bytes hS ?_ fun f hf => hsame f (hS.owned hf).2 fun hown =>
      (h.spaces.apart hne ⟨hq, hf⟩).2 ⟨hr, hown⟩
    constructor <;> simp [Kernel.setProcess, hne]

end SpacesInv

/-- The core that takes the step. -/
def IoOp.core : IoOp → Core
  | .op o => o.core
  | .call c _ _ _ => c

/-- The steps that may write to the memory of the process that takes them: `fork` returns a
number to it, `exec` loads another program, its own program runs, or `read` fills a buffer. -/
def IoOp.writes : IoOp → Prop
  | .op (.fork _) | .op (.exec _ _) | .op (.run _ _) | .call _ _ _ _ => True
  | .op _ => False

/-- **A step changes no memory but that of the process which takes it.** -/
theorem IoStep.memoryKept {op : IoOp} (hs : SystemInv s v) (hfiles : FilesInv image s.kernel)
    (hfits : ProgramsFit image) (h : SpacesInv K s.kernel) (hstep : IoStep src image s op s')
    (hq : s.kernel.Live q) (hq' : s'.kernel.Live q)
    (hown : op.OwnBuffer) (hother : op.writes → s.kernel.current op.core ≠ some q) :
    MemoryKept s.kernel s'.kernel q := by
  have hne : op.writes → ∀ {c r}, op.core = c → s.RunsUser c r → q ≠ r := by
    rintro hw c r rfl hr rfl
    exact hother hw hr.2.1
  cases op with
  | call c call paramCount argptr =>
    obtain ⟨r, res, files, file, mem, hr, hcall, hin, rfl⟩ := hstep
    obtain ⟨hlive, -⟩ := h.loaded _ _ hr.2.1 hr.2.2
    have hqr := hne trivial rfl hr
    refine h.spaces.kept_of_outside hlive hq hqr ?_ fun x => h.call_outside hr hcall hin hown
    constructor <;> simp [System.withKernel, Kernel.setProcess, hqr]
  | op op =>
    have heffect := System.Step.kernelEffect hstep
    generalize s'.kernel = k' at heffect hq' ⊢
    cases heffect with
    | init hk => exact h.initProcess_kept hfiles hfits hk hq
    | schedules _ hk => exact .of_heap (hk.space q).sameFrames hk.heap
    | wait hk => exact h.waitTurn_kept hs.sched hk hq hq'
    | fork hr hk => exact h.sysFork_kept hr.2.2 hr.2.1 hk hq (hne trivial rfl hr)
    | exec hr hexec hexit =>
      obtain ⟨hlive, -⟩ := h.loaded _ _ hr.2.1 hr.2.2
      obtain ⟨m, hheap, hbytes⟩ := h.exec_outside hfiles hr.2.1 hr.2.2 hexec
      have hframes := ((exec_touches hexec).frames.1 q).frames hq
      refine (h.spaces.kept_of_outside hlive hq (hne trivial rfl hr) hframes ?_).trans
        (.of_heap (hexit.space q).sameFrames hexit.heap)
      rw [hheap]
      exact hbytes
    | openFile _ _ hk =>
      exact .of_heap (((TouchesFiles.frames ⟨_, s.kernel.heap, _, hk⟩).1 q).frames hq) (by rw [hk]; rfl)
    | closeFile _ _ _ _ hk =>
      exact .of_heap (((TouchesFiles.frames ⟨_, s.kernel.heap, _, hk⟩).1 q).frames hq) (by rw [hk]; rfl)
    | run hr hbytes hk =>
      obtain ⟨hlive, hload⟩ := h.loaded _ _ hr.2.1 hr.2.2
      rw [hk]
      exact h.spaces.kept_of_outside hlive hq (hne trivial rfl hr) (.refl _) fun x hx =>
        hbytes x (not_ownByte hload hx)

-- ---------------------------------------------------------------------------
-- Runs
-- ---------------------------------------------------------------------------

/-- Steps with system calls keep the frames with their holders, too. -/
theorem IoStep.spacesInv {op : IoOp} (hs : SystemInv s v) (hfiles : FilesInv image s.kernel)
    (hfits : ProgramsFit image) (h : SpacesInv K s.kernel) (hown : op.OwnBuffer)
    (hstep : IoStep src image s op s') : SpacesInv K s'.kernel := by
  cases op with
  | op op => exact h.step hs hfiles hfits hstep
  | call c call paramCount argptr =>
    obtain ⟨r, res, files, file, mem, hr, hcall, hin, rfl⟩ := hstep
    obtain ⟨hlive, -⟩ := h.loaded _ _ hr.2.1 hr.2.2
    exact h.writes hlive ⟨file, { s.kernel.heap with mem := write64 mem (s.kernel.table r).tf res },
      files, rfl⟩ rfl fun x => h.call_outside hr hcall hin hown

/-- The run lemma. -/
theorem run_ioSpaces {ops : List IoOp} {s₀ : System} (hboot : boot src image mem = .ok s₀)
    (hrun : Run (IoStep src image) s₀ ops s) (hfits : ProgramsFit image)
    (hown : ∀ op ∈ ops, op.OwnBuffer) : SpacesInv K s.kernel := by
  induction hrun with
  | nil => exact run_spacesInv hboot .nil hfits
  | snoc hr hstep ih =>
    obtain ⟨v, hs, hfiles⟩ := run_ioInv hboot hr
    have h := ih fun op hop => hown op (List.mem_append_left _ hop)
    exact hstep.spacesInv hs hfiles hfits h (hown _ (by simp))

/-- The step is not one in which `q` may write to its memory. -/
def Foreign (q : ProcRef) (s : System) (op : IoOp) : Prop :=
  op.writes → s.kernel.current op.core ≠ some q

/-- **Memory isolation.** Take a state that the four cores reach, and any steps from there in
which the process `q` neither runs nor calls `fork`, `exec` or a file function. As long as it is
there, its page map, its pages and its stack stay in the same frames with the same bytes,
whatever the other processes do and however often frames are freed and allocated, if the buffers
that they read to begin in their own pages. -/
theorem memory_isolated {ops ops' : List IoOp} {s₀ : System} (hboot : boot src image mem = .ok s₀)
    (hrun : Run (IoStep src image) s₀ ops s) (hfits : ProgramsFit image)
    (hown : ∀ op ∈ ops, op.OwnBuffer) (hlater : Run (IoStep src image) s ops' s')
    (hown' : ∀ op ∈ ops', op.OwnBuffer)
    (hlive : Always (IoStep src image) s ops' fun t => t.kernel.Live q)
    (hforeign : EveryStep (IoStep src image) s ops' (Foreign q)) :
    MemoryKept s.kernel s'.kernel q := by
  induction hlater with
  | nil => exact .refl _ q
  | @snoc t u as op hr hstep ih =>
    obtain ⟨hown₁, hop⟩ := List.forall_mem_append.mp hown'
    obtain ⟨v, hs, hfiles⟩ := run_ioInv hboot (hrun.append hr)
    have hspaces := run_ioSpaces hboot (hrun.append hr) hfits (List.forall_mem_append.mpr ⟨hown, hown₁⟩)
    have ht := hlive as [op] t rfl hr
    have hu := hlive (as ++ [op]) [] u (List.append_nil _).symm (hr.snoc hstep)
    refine (ih hown₁ hlive.prefix hforeign.prefix).trans ?_
    exact hstep.memoryKept hs hfiles hfits hspaces ht hu (hop op List.mem_cons_self) (hforeign.last hr)

/-- `INIT.BIN` has the memory that it was loaded with when `TEST4.BIN` has forked. -/
theorem fork_leaves_other_process : ∃ s s',
    runFrom smallSource smallDisk (fun _ => 0) [.init 0, .yield 0] = some s ∧
    s.tryStep smallSource smallDisk (.fork 0) = some s' ∧
    s.kernel.current 0 = some (0, 1) ∧ s.kernel.Live (0, 2) ∧
    MemoryKept s.kernel s'.kernel (0, 2) := by
  have hstate : (runFrom smallSource smallDisk (fun _ => 0) [.init 0, .yield 0]).map (fun s =>
      (s.kernel.current 0, (s.kernel.table (0, 2)).state,
        (s.tryStep smallSource smallDisk (.fork 0)).map fun s' => (s'.kernel.table (0, 2)).state)) =
      some (some (0, 1), .ready, some .ready) := by
    decide +kernel
  obtain ⟨s, hs, hstate⟩ := Option.map_eq_some_iff.mp hstate
  simp only [Prod.mk.injEq] at hstate
  obtain ⟨hcur, hready, hfork⟩ := hstate
  obtain ⟨s', hfork, hready'⟩ := Option.map_eq_some_iff.mp hfork
  have hlive : s.kernel.Live (0, 2) := ⟨by decide, by rw [hready]; decide⟩
  have hlive' : s'.kernel.Live (0, 2) := ⟨by decide, by rw [hready']; decide⟩
  obtain ⟨s₀, hboot, hrun⟩ := run_of_runFrom _ _ hs
  have hstep : IoStep smallSource smallDisk s (.op (.fork 0)) s' := System.step_of_tryStep hfork
  have hown : ∀ op ∈ [Op.fork 0].map IoOp.op, op.OwnBuffer := ownBuffer_of_ops
  refine ⟨s, s', hs, hfork, hcur, hlive, memory_isolated hboot (run_io hrun) smallDisk_programsFit
    ownBuffer_of_ops (.snoc .nil hstep) hown (fun pre post t he hr => ?_) (.cons ?_ fun _ _ => .nil)⟩
  · rcases List.append_eq_singleton_iff.mp he.symm with ⟨rfl, -⟩ | ⟨rfl, -⟩
    · rwa [hr.of_nil]
    · obtain ⟨u, hu, hR⟩ : ∃ u, Run _ s [] u ∧ IoStep smallSource smallDisk u _ t := Run.of_snoc hr
      rw [hu.of_nil] at hR
      rwa [Except.ok.inj (hR.2.symm.trans hstep.2)]
  · intro _
    rw [IoOp.core, Op.core, hcur]
    decide

end TinyMultiCore
