import TinyMultiCore.Process.FrameOwnership
import TinyMultiCore.Process.Isolation

/-!
# The user address space

A user program addresses memory through the page map of its process. `ShowsPage m map f` says
that this is one page, the frame `f` at the user base: no other user address is translated.

* `mapPage_shows` — the map of a new process, whether `setup_uvm` or `copy_uvm` has set it up;
* `IoStep.shows` — no step takes the page away or shows another, not even to the process that
  takes the step;
* `sees_own_page_only` — every process sees one page, which is used for nothing else.
-/

namespace TinyMultiCore

open ByteMemory RadixTree TransitionSystem

variable {K : KernelImage} {src : FrameSource K} {image mem : Memory} {h h₁ : Heap} {k k' : Kernel}
  {c : Core} {r q : ProcRef} {s s' : System} {v : ListId → List ProcRef} {m m' : Memory}
  {stack pageMap page map f : U64}

/-- The page `f` is what user addresses are translated to, from the user base on. -/
def ShowsPage (m : Memory) (map f : U64) : Prop :=
  ∀ va, walk m map va = if (va - userBase).toNat < 2 ^ 21 then some (v2p f, userAttr) else none

/-- All processes there are see one page. -/
def AllShowPage (k : Kernel) : Prop :=
  ∀ q, k.Live q → ∃ f, ShowsPage k.heap.mem (k.table q).pageMap f

-- ---------------------------------------------------------------------------
-- New processes
-- ---------------------------------------------------------------------------

/-- The block at the user base. -/
theorem userBlock_iff (va : U64) :
    va.toNat / 2 ^ 21 = userBase.toNat / 2 ^ 21 ↔ (va - userBase).toNat < 2 ^ 21 := by
  have hva := va.isLt
  rw [BitVec.toNat_sub, show userBase.toNat = 2 * 2 ^ 21 from rfl]
  omega

/-- The one mapping of a map is at the user base. -/
theorem showsPage_of_lookup (hlookup : ∀ p i, lookup (tables m) map p i =
    if p = [pgdIndex (paDown userBase), pudIndex (paDown userBase)] ∧ i = pmdIndex (paDown userBase)
    then some (v2p f, userAttr) else none) : ShowsPage m map f := by
  intro va
  unfold walk
  by_cases hva : va.toNat < 2 ^ 48
  · rw [if_pos hva, hlookup]
    exact if_congr ((indices_eq_iff hva (by decide)).trans (userBlock_iff va)) rfl rfl
  · have hout : ¬ (va - userBase).toNat < 2 ^ 21 := by
      rw [← userBlock_iff, show userBase.toNat = 2 * 2 ^ 21 from rfl]
      omega
    rw [if_neg hva, if_neg hout]

section

variable (hmap : src.pick (h.calls + 1) (stack :: h.inUse) = some pageMap)
  (hstack : src.pick h.calls h.inUse = some stack)
  (hpage : src.pick (newProcessHeap h stack pageMap).calls (newProcessHeap h stack pageMap).inUse =
    some page)
  (hm : ∀ x, 2 ^ 21 ≤ (x - page).toNat →
    m x = ((newProcessHeap h stack pageMap).withFrame page).mem x)
  (hok : mapPage src { (newProcessHeap h stack pageMap).withFrame page with mem := m } pageMap
    userBase (v2p page) userAttr = .ok (true, h₁))
include hmap hpage hm hok

/-- `map_page` finds an empty root. -/
theorem mapPage_lookup (p : List TableIndex) (i : TableIndex) : lookup (tables h₁.mem) pageMap p i =
    if p = [pgdIndex (paDown userBase), pudIndex (paDown userBase)] ∧ i = pmdIndex (paDown userBase)
    then some (v2p page, userAttr) else none := by
  obtain ⟨hroot, -⟩ := src.fresh hmap
  obtain ⟨hframe, hfree⟩ := src.fresh hpage
  obtain ⟨hM, hnone, -⟩ := (newProcess_emptyRoot hroot hframe hfree hm).alone
  obtain ⟨-, hlookup, -⟩ := mapPage_spec hM.forest List.mem_cons_self validAttr_userAttr hok
  have hleaf := (slotOf_aligned hframe.blockAddr.1 validAttr_userAttr).symm.trans
    (slotOf_block hframe.blockAddr validAttr_userAttr)
  rw [hlookup rfl pageMap List.mem_cons_self, Slot.leaf.inj hleaf]
  refine if_congr (and_iff_right rfl) rfl ?_
  by_contra hsome
  obtain ⟨b, hb⟩ := Option.ne_none_iff_exists'.mp hsome
  exact hnone _ ⟨p, i, b, hb, rfl⟩

include hstack

/-- **A new process sees its page**, whatever is in the page and in the stack: neither of them is one of
the tables, so what the two are filled with does not matter for the translation. -/
theorem mapPage_shows
    (hm' : ∀ x, 2 ^ 21 ≤ (x - page).toNat → 2 ^ 21 ≤ (x - stack).toNat → m' x = h₁.mem x) :
    ShowsPage m' pageMap page := by
  obtain ⟨hP, -⟩ := mapPage_newProcess hmap hpage hm hok
  obtain ⟨-, -, hwalks⟩ := hP.alone.transfer { h₁ with mem := m' }
    (fun f hf => (hP.alone.frame hf).1) fun p t hp => newTable_same hstack hmap hpage hm hok hm' hp
  refine showsPage_of_lookup fun p i => ?_
  rw [hwalks pageMap List.mem_cons_self, mapPage_lookup hmap hpage hm hok]

end

/-- Where the translations are as they were, so is the page. -/
theorem MemoryKept.shows (hkept : MemoryKept k k' q)
    (hshows : ∃ f, ShowsPage k.heap.mem (k.table q).pageMap f) :
    ∃ f, ShowsPage k'.heap.mem (k'.table q).pageMap f := by
  obtain ⟨f, hf⟩ := hshows
  exact ⟨f, fun va => (hkept.walks va).trans (hf va)⟩

namespace SpacesInv

theorem initProgram_shows {program : String} (h : SpacesInv K k) (hfiles : FilesInv image k)
    (hfits : ∀ f, searchFile image (cString program) = some f →
      ¬ rawDataStores image (firstCluster image f) (dirEntry image f).fileSize (2 ^ 21))
    (hshow : AllShowPage k) (hok : TinyMultiCore.initProgram src image k c program = .ok k') :
    AllShowPage k' := by
  intro q hq
  obtain ⟨r, stack, pageMap, k₂, lists, hfind, hstack, hmap, hsetup, -, rfl⟩ := initProgram_eq hok
  obtain ⟨-, -, hunused⟩ := findUnusedProcess_eq_some hfind
  obtain ⟨page, heap, fd, files, file, size, files₁, mem, files₂, file₂, hpage, hmapped, hopen, hsize,
    hread, -, rfl⟩ := setupUvm_eq hsetup
  by_cases hne : q = r
  · subst hne
    obtain ⟨f, d, hopened⟩ := hfiles.counted.opened hopen
    rw [hopened.getFileSize] at hsize
    cases hsize
    have hroot : ((newProcess k q stack pageMap).table q).pageMap = pageMap := by
      simp [newProcess, Kernel.setProcess]
    rw [hroot] at hmapped
    refine ⟨page, ?_⟩
    simp only [newProcess, Kernel.setState, Kernel.setProcess, Function.update_self]
    exact mapPage_shows hmap hstack hpage (fun _ _ => rfl) hmapped
      fun x hx _ => hopened.readFile_inside (hfits f hopened.found) hread hx
  · have hlive : k.Live q := by
      refine ⟨hq.1, ?_⟩
      have hstate := hq.2
      simpa [newProcess, Kernel.setState, Kernel.setProcess, hne] using hstate
    exact (h.initProgram_kept hfiles hfits hok hlive).shows (hshow q hlive)

theorem initProcess_shows (h : SpacesInv K k) (hfiles : FilesInv image k) (hfits : ProgramsFit image)
    (hshow : AllShowPage k) (hok : TinyMultiCore.initProcess src image k c = .ok k') :
    AllShowPage k' := by
  rcases initProcess_cases hok with ⟨-, k₁, hok₁, hok⟩ | ⟨-, hok⟩
  · have hfiles₀ := hfiles.initIdle (K := K)
    have hshow₀ : AllShowPage (initIdleProcess K k) := by
      intro q hq
      have hsame : (initIdleProcess K k).table q = k.table q := if_neg hq.1
      rw [Kernel.Live, hsame] at hq
      rw [hsame]
      exact hshow q hq
    have hshow₁ := h.initIdle.initProgram_shows hfiles₀ (hfits _ (by simp)) hshow₀ hok₁
    exact (h.initIdle.initProgram hfiles₀ (hfits _ (by simp)) hok₁).initProgram_shows
      (hfiles₀.initProgram hok₁) (hfits _ (by simp)) hshow₁ hok
  · exact h.initProgram_shows hfiles (hfits _ (by simp)) hshow hok

theorem fork_shows {res : Option ProcRef} (h : SpacesInv K k) (hshow : AllShowPage k)
    (hok : TinyMultiCore.fork src k = .ok (res, k')) : AllShowPage k' := by
  intro q hq
  by_cases hlive : k.Live q
  · exact (h.fork_kept hok hlive).shows (hshow q hlive)
  obtain ⟨current, r, stack, pageMap, heap, files, lists, -, -, hfind, hstack, hmap, hcopy, -, -, rfl⟩ :=
    fork_eq hok
  -- a process that was not there is the child
  obtain rfl : q = r := by
    by_contra hne
    refine hlive ⟨hq.1, ?_⟩
    have hstate := hq.2
    simpa [newProcess, Kernel.setProcess, hne] using hstate
  obtain ⟨page, pd, entry, hpage, -, -, hmapped⟩ := copyUvm_eq hcopy
  have htf : ((newProcess k q stack pageMap).table q).tf = topFrame stack := by
    simp [newProcess, Kernel.setProcess]
  refine ⟨page, ?_⟩
  simp only [childProcess, newProcess, Kernel.setProcess, Function.update_self]
  refine mapPage_shows hmap hstack hpage (fun x hx => if_neg (Nat.not_lt.mpr hx)) hmapped ?_
  intro x _ hx
  exact childMemory_outside htf hx

end SpacesInv

-- ---------------------------------------------------------------------------
-- Steps and runs
-- ---------------------------------------------------------------------------

/-- A process that writes to its stack and its pages writes to no table, its own included. -/
theorem Spaces.shows_of_outside (hS : Spaces K k) (hr : k.Live r) (hq : k.Live q)
    (hframes : SameFrames (k.table q) (k'.table q))
    (hbytes : ∀ x, (∀ f, f = (k.table r).stack ∨ Maps k.heap.mem (k.table r).pageMap f →
      2 ^ 21 ≤ (x - f).toNat) → k'.heap.mem x = k.heap.mem x)
    (hshows : ∃ f, ShowsPage k.heap.mem (k.table q).pageMap f) :
    ∃ f, ShowsPage k'.heap.mem (k'.table q).pageMap f := by
  by_cases hne : q = r
  · subst hne
    have hspace := hS.space q hq
    have hsame : ∀ p t, reach (tables k.heap.mem) (k.table q).pageMap p = some t →
        SameBytes t k.heap.mem k'.heap.mem := by
      intro p t hp x hx
      refine hbytes x fun f hf => ?_
      have ht := (hspace.owned (Or.inr (Or.inl ⟨p, hp⟩))).2
      exact ht.outside (hspace.owned (hf.imp id Or.inr)).2 (hspace.table_ne hp hf) hx
    obtain ⟨-, -, hwalks⟩ := hspace.map.transfer { k.heap with mem := k'.heap.mem }
      (fun f hf => (hspace.map.frame hf).1) hsame
    obtain ⟨f, hf⟩ := hshows
    refine ⟨f, fun va => ?_⟩
    rw [← hf va, hframes.pageMap]
    unfold walk
    rw [hwalks _ List.mem_cons_self]
  · exact (hS.kept_of_outside hr hq hne hframes hbytes).shows hshows

theorem SpacesInv.sysFork_shows {res : Option ProcRef} (h : SpacesInv K k) (hslot : r.2 ≠ 0)
    (hcur : k.current c = some r) (hshow : AllShowPage k)
    (hok : TinyMultiCore.sysFork src k c = .ok (res, k')) : AllShowPage k' := by
  obtain ⟨k₁, mem, hfork, h₁, hr, rfl, hbytes⟩ := h.sysFork_stores hslot hcur hok
  intro q hq
  exact h₁.spaces.shows_of_outside hr hq (.refl _) (fun x hx => hbytes x (hx _ (Or.inl rfl)))
    (h.fork_shows hshow hfork q hq)

/-- **Every step leaves each process its page.** -/
theorem IoStep.shows {op : IoOp} (hs : SystemInv s v) (hfiles : FilesInv image s.kernel)
    (hfits : ProgramsFit image) (h : SpacesInv K s.kernel) (hshow : AllShowPage s.kernel)
    (hown : op.OwnBuffer) (hstep : IoStep src image s op s') : AllShowPage s'.kernel := by
  cases op with
  | call c call paramCount argptr =>
    obtain ⟨r, res, files, file, mem, hr, hcall, hin, rfl⟩ := hstep
    obtain ⟨hlive, -⟩ := h.loaded _ _ hr.2.1 hr.2.2
    obtain ⟨hslot, -⟩ := TouchesFiles.frames (r := r)
      ⟨file, { s.kernel.heap with mem := write64 mem (s.kernel.table r).tf res }, files, rfl⟩
    intro q hq'
    have hq := (hslot q).live.mp hq'
    exact h.spaces.shows_of_outside hlive hq ((hslot q).frames hq)
      (fun x => h.call_outside hr hcall hin hown) (hshow q hq)
  | op op =>
    obtain ⟨-, -, -, hpids, -⟩ := hs.step hstep
    have hback : op.created = 0 → ∀ q, s'.kernel.Live q → s.kernel.Live q :=
      fun h0 q hq => ⟨hq.1, ((hpids h0).2 q hq.1 hq.2).1⟩
    have heffect := System.Step.kernelEffect hstep
    generalize s'.kernel = k' at heffect hback ⊢
    cases heffect with
    | init hk => exact h.initProcess_shows hfiles hfits hshow hk
    | fork hr hk => exact h.sysFork_shows hr.2.2 hr.2.1 hshow hk
    | schedules h0 hk =>
      intro q hq'
      exact (MemoryKept.of_heap (hk.space q).sameFrames hk.heap).shows (hshow q (hback h0 q hq'))
    | wait hk =>
      intro q hq'
      have hq := hback rfl q hq'
      exact (h.waitTurn_kept hs.sched hk hq hq').shows (hshow q hq)
    | exec hr hexec hexit =>
      intro q hq'
      have hq := hback rfl q hq'
      obtain ⟨hlive, -⟩ := h.loaded _ _ hr.2.1 hr.2.2
      obtain ⟨m, hheap, hbytes⟩ := h.exec_outside hfiles hr.2.1 hr.2.2 hexec
      have hframes := ((exec_touches hexec).frames.1 q).frames hq
      refine (MemoryKept.of_heap (hexit.space q).sameFrames hexit.heap).shows ?_
      refine h.spaces.shows_of_outside hlive hq hframes ?_ (hshow q hq)
      rw [hheap]
      exact hbytes
    | openFile _ _ hk =>
      intro q hq'
      have hq := hback rfl q hq'
      have hframes := ((TouchesFiles.frames ⟨_, s.kernel.heap, _, hk⟩).1 q).frames hq
      exact (MemoryKept.of_heap hframes (by rw [hk]; rfl)).shows (hshow q hq)
    | closeFile _ _ _ _ hk =>
      intro q hq'
      have hq := hback rfl q hq'
      have hframes := ((TouchesFiles.frames ⟨_, s.kernel.heap, _, hk⟩).1 q).frames hq
      exact (MemoryKept.of_heap hframes (by rw [hk]; rfl)).shows (hshow q hq)
    | run hr hbytes hk =>
      intro q hq'
      have hq := hback rfl q hq'
      obtain ⟨hlive, hload⟩ := h.loaded _ _ hr.2.1 hr.2.2
      rw [hk]
      exact h.spaces.shows_of_outside hlive hq (.refl _)
        (fun x hx => hbytes x (not_ownByte hload hx)) (hshow q hq)

/-- The run lemma. -/
theorem run_allShowPage {ops : List IoOp} {s₀ : System} (hboot : boot src image mem = .ok s₀)
    (hrun : Run (IoStep src image) s₀ ops s) (hfits : ProgramsFit image)
    (hown : ∀ op ∈ ops, op.OwnBuffer) : AllShowPage s.kernel := by
  induction hrun with
  | nil =>
    obtain ⟨heap, fcbTable, fileDescTable, -, rfl⟩ := boot_eq hboot
    intro q hq
    exact absurd rfl hq.2
  | snoc hr hstep ih =>
    obtain ⟨hown₁, hop⟩ := List.forall_mem_append.mp hown
    obtain ⟨v, hs, hfiles⟩ := run_ioInv hboot hr
    exact hstep.shows hs hfiles hfits (run_ioSpaces hboot hr hfits hown₁) (ih hown₁)
      (hop _ List.mem_cons_self)

/-- **The user address space.** In every state that the four cores reach when the buffers that are
read to begin in the pages of the callers, a process sees one page, two megabytes from the user
base on, and no address besides. The frame of the page is nobody else's page, and it is no stack,
no table of any process and no table of the file system. While the process runs, its core
translates addresses like this. -/
theorem sees_own_page_only {ops : List IoOp} {s₀ : System} (hboot : boot src image mem = .ok s₀)
    (hrun : Run (IoStep src image) s₀ ops s) (hfits : ProgramsFit image)
    (hown : ∀ op ∈ ops, op.OwnBuffer) (hr : s.kernel.Live r) :
    ∃ f, ShowsPage s.kernel.heap.mem (s.kernel.table r).pageMap f ∧
      (∀ u, s.kernel.Uses u f ↔
        u = .page r [pgdIndex userBase, pudIndex userBase] (pmdIndex userBase)) ∧
      ∀ c, s.kernel.current c = some r → s.kernel.ttbr0 c = v2p (s.kernel.table r).pageMap := by
  obtain ⟨f, hf⟩ := run_allShowPage hboot hrun hfits hown r hr
  have hspaces := run_ioSpaces hboot hrun hfits hown
  have hbase := hf userBase
  rw [if_pos (by decide), walk_userBase] at hbase
  have huses : s.kernel.Uses (.page r [pgdIndex userBase, pudIndex userBase] (pmdIndex userBase)) f :=
    ⟨hr, _, hbase, IsFrame.p2v_v2p f⟩
  refine ⟨f, hf, fun u => ⟨fun hu => ?_, fun hu => hu ▸ huses⟩, fun c hcur => ?_⟩
  · exact hspaces.spaces.uses.unique _ _ _ hu huses
  · exact (hspaces.loaded c r hcur hr.1).2

/-- `TEST4.BIN` runs on core 0 and sees its page. -/
theorem first_program_sees_page : ∃ s f,
    runFrom smallSource smallDisk (fun _ => 0) [.init 0, .yield 0] = some s ∧
    s.kernel.current 0 = some (0, 1) ∧ s.kernel.Live (0, 1) ∧
    ShowsPage s.kernel.heap.mem (s.kernel.table (0, 1)).pageMap f ∧
    s.kernel.ttbr0 0 = v2p (s.kernel.table (0, 1)).pageMap := by
  have hstate : (runFrom smallSource smallDisk (fun _ => 0) [.init 0, .yield 0]).map (fun s =>
      (s.kernel.current 0, (s.kernel.table (0, 1)).state)) = some (some (0, 1), .running) := by
    decide +kernel
  obtain ⟨s, hs, hstate⟩ := Option.map_eq_some_iff.mp hstate
  obtain ⟨hcur, hrunning⟩ := Prod.mk.inj hstate
  have hlive : s.kernel.Live (0, 1) := ⟨by decide, by rw [hrunning]; decide⟩
  obtain ⟨s₀, hboot, hrun⟩ := run_of_runFrom _ _ hs
  obtain ⟨f, hf, -, hload⟩ :=
    sees_own_page_only hboot (run_io hrun) smallDisk_programsFit ownBuffer_of_ops hlive
  exact ⟨s, f, hs, hcur, hlive, hf, hload 0 hcur⟩

end TinyMultiCore
