import TinyMultiCore.Process.UserSpace
import TinyMultiCore.Vm.BootTables
import TinyMultiCore.Vm.FrameWrites

/-!
# Addresses while a process runs

What the hardware translates on a core that runs a process: the kernel's half by the boot tables,
as when the MMU was turned on, and of the other half the page of the process, nothing else. The
boot tables stay as they are because no step writes to anything but frames.

* `IoStep.sameOutside` and `run_sameOutside` — nothing outside the frames changes;
* `running_process_translation` — every address, in every state that is reached.
-/

namespace TinyMultiCore

open ByteMemory RadixTree TransitionSystem

variable {K : KernelImage} {src : FrameSource K} {image mem : Memory} {h : Heap} {k k' : Kernel}
  {c : Core} {r : ProcRef} {s s' : System} {v : ListId → List ProcRef} {m : Memory}
  {stack pageMap x : U64} {t : BootTables}

-- ---------------------------------------------------------------------------
-- Steps write to frames
-- ---------------------------------------------------------------------------

/-- The stack and the map of a new process. -/
theorem FrameWrites.newProcessHeap (hstack : IsFrame K stack) (hmap : IsFrame K pageMap) :
    FrameWrites K h (newProcessHeap h stack pageMap) := by
  have hframe : FrameWrites K (h.withFrame stack)
      { h.withFrame stack with mem := enterAtBase (h.withFrame stack).mem (topFrame stack) } :=
    ⟨id, fun _ x hx => enterAtBase_outside (topFrame_outside (hx stack hstack))⟩
  exact ((FrameWrites.withFrame hstack).trans hframe).trans (.withFrame hmap)

/-- `init_fs` zeroes two frames. -/
theorem initFs_sameOutside {fcbTable fileDescTable : U64} {heap : Heap}
    (hok : initFs src image ⟨mem, [], 0⟩ = .ok (fcbTable, fileDescTable, heap)) :
    SameOutside K mem heap.mem := by
  obtain ⟨rfl, hfcb, hdesc, -⟩ := initFs_eq hok
  exact (SameOutside.zeroPage hfcb).trans (.zeroPage hdesc)

namespace SpacesInv

theorem initProgram_sameOutside {program : String} (h : SpacesInv K k) (hfiles : FilesInv image k)
    (hfits : ∀ f, searchFile image (cString program) = some f →
      ¬ rawDataStores image (firstCluster image f) (dirEntry image f).fileSize (2 ^ 21))
    (hok : TinyMultiCore.initProgram src image k c program = .ok k') :
    SameOutside K k.heap.mem k'.heap.mem := by
  obtain ⟨r, stack, pageMap, k₂, lists, -, hstack, hmap, hsetup, -, rfl⟩ := initProgram_eq hok
  obtain ⟨hstackF, -⟩ := src.fresh hstack
  obtain ⟨hmapF, -⟩ := src.fresh hmap
  obtain ⟨page, heap, fd, files, file, size, files₁, mem, files₂, file₂, hpage, hmapped, hopen, hsize,
    hread, -, rfl⟩ := setupUvm_eq hsetup
  obtain ⟨hpageF, -⟩ := src.fresh hpage
  obtain ⟨f, d, hopened⟩ := hfiles.counted.opened hopen
  rw [hopened.getFileSize] at hsize
  cases hsize
  have hnew : FrameWrites K k.heap (TinyMultiCore.newProcessHeap k.heap stack pageMap) :=
    .newProcessHeap hstackF hmapF
  have hmem := ((hnew.trans (.withFrame hpageF)).trans (.mapPage hmapped)).bytes h.spaces.frames
  refine hmem.trans fun x hx => ?_
  exact hopened.readFile_inside (hfits f hopened.found) hread (hx page hpageF)

theorem initProcess_sameOutside (h : SpacesInv K k) (hfiles : FilesInv image k)
    (hfits : ProgramsFit image) (hok : TinyMultiCore.initProcess src image k c = .ok k') :
    SameOutside K k.heap.mem k'.heap.mem := by
  rcases initProcess_cases hok with ⟨-, k₁, hok₁, hok⟩ | ⟨-, hok⟩
  · have hfiles₀ := hfiles.initIdle (K := K)
    have h₁ := h.initIdle.initProgram hfiles₀ (hfits _ (by simp)) hok₁
    exact (h.initIdle.initProgram_sameOutside hfiles₀ (hfits _ (by simp)) hok₁).trans
      (h₁.initProgram_sameOutside (hfiles₀.initProgram hok₁) (hfits _ (by simp)) hok)
  · exact h.initProgram_sameOutside hfiles (hfits _ (by simp)) hok

theorem sysFork_sameOutside {res : Option ProcRef} (h : SpacesInv K k) (hslot : r.2 ≠ 0)
    (hcur : k.current c = some r) (hok : TinyMultiCore.sysFork src k c = .ok (res, k')) :
    SameOutside K k.heap.mem k'.heap.mem := by
  obtain ⟨k₁, mem, hfork, h₁, hr, rfl, hstore⟩ := h.sysFork_stores hslot hcur hok
  have hforked : SameOutside K k.heap.mem k₁.heap.mem := by
    obtain ⟨current, q, stack, pageMap, heap, files, lists, -, -, -, hstack, hmap, hcopy, -, -, rfl⟩ :=
      fork_eq hfork
    obtain ⟨hstackF, -⟩ := src.fresh hstack
    obtain ⟨hmapF, -⟩ := src.fresh hmap
    obtain ⟨page, pd, entry, hpage, -, -, hmapped⟩ := copyUvm_eq hcopy
    obtain ⟨hpageF, -⟩ := src.fresh hpage
    have htf : ((newProcess k q stack pageMap).table q).tf = topFrame stack := by
      simp [newProcess, Kernel.setProcess]
    have hcopied : FrameWrites K ((newProcess k q stack pageMap).heap.withFrame page)
        (copiedHeap ((newProcess k q stack pageMap).heap.withFrame page) page (p2v (pteAddr entry))
          (pageSize.setWidth 32)) :=
      ⟨id, fun _ x hx => if_neg (Nat.not_lt.mpr (hx page hpageF))⟩
    have hnew : FrameWrites K k.heap (newProcess k q stack pageMap).heap :=
      .newProcessHeap hstackF hmapF
    have hmem := (((hnew.trans (.withFrame hpageF)).trans hcopied).trans (.mapPage hmapped)).bytes
      h.spaces.frames
    exact hmem.trans fun x hx => childMemory_outside htf (hx stack hstackF)
  exact hforked.trans fun x hx => hstore x (hx _ (h₁.spaces.space r hr).frame)

theorem waitTurn_sameOutside {pid : U32} {reaped : Bool} (h : SpacesInv K k)
    (hok : TinyMultiCore.waitTurn src k c pid = .ok (reaped, k')) :
    SameOutside K k.heap.mem k'.heap.mem := by
  rcases waitTurn_cases hok with ⟨-, -, rfl⟩ | ⟨-, hremove⟩ | ⟨r, k₁, -, hremove, hreap⟩
  · exact .refl _
  · obtain ⟨lists, -, rfl⟩ := removeList_eq_ok.mp hremove
    exact .refl _
  · obtain ⟨lists, -, rfl⟩ := removeList_eq_ok.mp hremove
    obtain ⟨-, heap₁, heap, files, hstack, hfree, -, rfl⟩ := reap_eq hreap
    exact ((FrameWrites.kfree hstack).trans (.freeVm hfree)).bytes h.spaces.frames

/-- A process writes to its stack and its pages, which are frames. -/
theorem own_sameOutside (h : SpacesInv K k) (hr : k.Live r)
    (hbytes : ∀ x, (∀ f, f = (k.table r).stack ∨ Maps k.heap.mem (k.table r).pageMap f →
      2 ^ 21 ≤ (x - f).toNat) → m x = k.heap.mem x) : SameOutside K k.heap.mem m :=
  .of_frames (fun _ hf => ((h.spaces.space r hr).owned (hf.imp id Or.inr)).2) hbytes

end SpacesInv

/-- **Every step writes to frames only.** -/
theorem IoStep.sameOutside {op : IoOp} (hfiles : FilesInv image s.kernel)
    (hfits : ProgramsFit image) (h : SpacesInv K s.kernel) (hown : op.OwnBuffer)
    (hstep : IoStep src image s op s') : SameOutside K s.kernel.heap.mem s'.kernel.heap.mem := by
  cases op with
  | call c call paramCount argptr =>
    obtain ⟨r, res, files, file, mem, hr, hcall, hin, rfl⟩ := hstep
    obtain ⟨hlive, -⟩ := h.loaded _ _ hr.2.1 hr.2.2
    exact h.own_sameOutside hlive fun x => h.call_outside hr hcall hin hown
  | op op =>
    have heffect := System.Step.kernelEffect hstep
    generalize s'.kernel = k' at heffect ⊢
    cases heffect with
    | init hk => exact h.initProcess_sameOutside hfiles hfits hk
    | fork hr hk => exact h.sysFork_sameOutside hr.2.2 hr.2.1 hk
    | schedules _ hk =>
      rw [hk.heap]
      exact .refl _
    | wait hk => exact h.waitTurn_sameOutside hk
    | exec hr hexec hexit =>
      obtain ⟨hlive, -⟩ := h.loaded _ _ hr.2.1 hr.2.2
      obtain ⟨m, hheap, hbytes⟩ := h.exec_outside hfiles hr.2.1 hr.2.2 hexec
      rw [hexit.heap, hheap]
      exact h.own_sameOutside hlive hbytes
    | openFile _ _ hk =>
      rw [hk]
      exact .refl _
    | closeFile _ _ _ _ hk =>
      rw [hk]
      exact .refl _
    | run hr hbytes hk =>
      obtain ⟨hlive, hload⟩ := h.loaded _ _ hr.2.1 hr.2.2
      rw [hk]
      exact h.own_sameOutside hlive fun x hx => hbytes x (not_ownByte hload hx)

/-- The run lemma. -/
theorem run_sameOutside {ops : List IoOp} {s₀ : System} (hboot : boot src image mem = .ok s₀)
    (hrun : Run (IoStep src image) s₀ ops s) (hfits : ProgramsFit image)
    (hown : ∀ op ∈ ops, op.OwnBuffer) : SameOutside K mem s.kernel.heap.mem := by
  induction hrun with
  | nil =>
    obtain ⟨heap, fcbTable, fileDescTable, hinit, rfl⟩ := boot_eq hboot
    exact initFs_sameOutside hinit
  | snoc hr hstep ih =>
    obtain ⟨hown₁, hop⟩ := List.forall_mem_append.mp hown
    obtain ⟨v, -, hfiles⟩ := run_ioInv hboot hr
    refine (ih hown₁).trans ?_
    exact hstep.sameOutside hfiles hfits (run_ioSpaces hboot hr hfits hown₁) (hop _ List.mem_cons_self)

-- ---------------------------------------------------------------------------
-- Translations
-- ---------------------------------------------------------------------------

/-- The boot tables are part of the image of the kernel. -/
theorem BootTables.outsideFrames (t : BootTables)
    (hend : (p2v t.base).toNat + 7 * 4096 ≤ K.kernelEnd.toNat)
    (hx : (x - t.base).toNat < 7 * 4096) : OutsideFrames K (p2v x) := by
  have hbelow := t.below
  refine outsideFrames_of_lt ?_
  rw [p2v, BitVec.toNat_add, kernelBase_toNat] at hend ⊢
  rw [BitVec.toNat_sub] at hx
  have hlt := x.isLt
  omega

/-- An address in the user page, and the byte of the frame. -/
theorem page_or_offset {f va : U64} (hf : IsFrame K f) (hva : (va - userBase).toNat < 2 ^ 21) :
    v2p f ||| (va &&& 0x1fffff) = v2p f + (va - userBase) := by
  obtain ⟨halign, hlt⟩ := hf.blockAddr
  have hoff : (va &&& 0x1fffff).toNat = (va - userBase).toNat := by
    rw [BitVec.toNat_and, show (0x1fffff : U64).toNat = 2 ^ 21 - 1 from rfl,
      Nat.and_two_pow_sub_one_eq_mod]
    have hbase : userBase.toNat = 2 * 2 ^ 21 := rfl
    rw [BitVec.toNat_sub, hbase] at hva ⊢
    have hlt := va.isLt
    omega
  refine BitVec.eq_of_toNat_eq ?_
  rw [BitVec.toNat_or, hoff, BitVec.toNat_add, Nat.mod_eq_of_lt (by omega)]
  have hblock : (v2p f).toNat = 2 ^ 21 * ((v2p f).toNat / 2 ^ 21) := by omega
  rw [hblock, Nat.two_pow_add_eq_or_of_lt hva]

/-- What the addresses mean to a process that has the page `f`. -/
def processMapping (f va : U64) : Option Mapping :=
  if kernelBase ≤ va then bootMapping va
  else if (va - userBase).toNat < 2 ^ 21 then some (v2p f + (va - userBase), userAttr)
  else none

/-- The user half, when `load_pgd` has loaded the map of the process. -/
theorem ShowsPage.translate {f map va : U64} {roots : List U64} (hshow : ShowsPage h.mem map f)
    (hF : Forest K h roots) (hmap : map ∈ roots) (hf : IsFrame K f) (regs : MmuRegs)
    (hva : ¬ kernelBase ≤ va) :
    ((loadPgd (enableMmu t regs) (v2p map)).translate (physical h.mem) va).map
      (fun b => (b.1, b.2 &&& attrMask)) = processMapping f va := by
  have hwalk := hshow va
  unfold walk at hwalk
  rw [translate_user t regs _ _ hva, processMapping, if_neg hva]
  by_cases hlow : va.toNat < 2 ^ 48
  · rw [if_pos hlow] at hwalk
    rw [if_pos hlow, tableWalk_physical hF hmap, hwalk]
    by_cases hin : (va - userBase).toNat < 2 ^ 21
    · rw [if_pos hin, if_pos hin, Option.map_some, page_or_offset hf hin]
    · rw [if_neg hin, if_neg hin, Option.map_none]
  · rw [if_neg hlow] at hwalk
    have hout : ¬ (va - userBase).toNat < 2 ^ 21 := by
      intro hin
      rw [if_pos hin] at hwalk
      cases hwalk
    rw [if_neg hlow, if_neg hout, Option.map_none]

/-- **What a process can address.** Say that `setup_vm2` has filled zeroed tables in the kernel's
image, and that they are still as it left them when `init_fs` is called. Then in every state that
the four cores reach, a core that runs a process translates the kernel's half of the addresses as
it did when its MMU was turned on, and of the other half the two megabytes from the user base on,
to the frame that is the page of this process. A file is read to any address; here the buffers
begin in the pages of the callers, or a read could fill the tables themselves. -/
theorem running_process_translation {ops : List IoOp} {s₀ : System} {m₀ m₁ : Memory}
    (hzero : ∀ x, (x - t.base).toNat < 7 * 4096 → m₀ x = 0) (hsetup : setupVm2 t m₀ = .ok m₁)
    (hend : (p2v t.base).toNat + 7 * 4096 ≤ K.kernelEnd.toNat)
    (htables : ∀ x, (x - t.base).toNat < 7 * 4096 → physical mem x = m₁ x)
    (hboot : boot src image mem = .ok s₀) (hrun : Run (IoStep src image) s₀ ops s)
    (hfits : ProgramsFit image) (hown : ∀ op ∈ ops, op.OwnBuffer)
    (hcur : s.kernel.current c = some r) (hslot : r.2 ≠ 0) :
    ∃ f, IsFrame K f ∧
      s.kernel.Uses (.page r [pgdIndex userBase, pudIndex userBase] (pmdIndex userBase)) f ∧
      ∀ regs va, ((loadPgd (enableMmu t regs) (s.kernel.ttbr0 c)).translate
        (physical s.kernel.heap.mem) va).map (fun b => (b.1, b.2 &&& attrMask)) =
          processMapping f va := by
  have hspaces := run_ioSpaces hboot hrun hfits hown
  obtain ⟨hlive, hload⟩ := hspaces.loaded c r hcur hslot
  have hspace := hspaces.spaces.space r hlive
  obtain ⟨f, hshow⟩ := run_allShowPage hboot hrun hfits hown r hlive
  have hbase := hshow userBase
  rw [if_pos (by decide)] at hbase
  -- the page is a frame of the process
  obtain ⟨b, hb, hpage⟩ := hspace.page
  obtain rfl : (v2p f, userAttr) = b := Option.some.inj (hbase.symm.trans hb)
  have hf : IsFrame K f := by
    have hframe := (hspace.map.frame hpage).2
    rwa [pageOf, IsFrame.p2v_v2p] at hframe
  rw [walk_userBase] at hbase
  refine ⟨f, hf, ⟨hlive, _, hbase, IsFrame.p2v_v2p f⟩, fun regs va => ?_⟩
  by_cases hhalf : kernelBase ≤ va
  · obtain ⟨m₁', hok, hholds, -⟩ := setupVm2_entries hzero
    obtain rfl : m₁' = m₁ := Except.ok.inj (hok.symm.trans hsetup)
    have hkept := run_sameOutside hboot hrun hfits hown
    have hnow : t.Holds (physical s.kernel.heap.mem) (bootEntries t) :=
      hholds.congr fun x hx => (hkept _ (t.outsideFrames hend hx)).trans (htables x hx)
    rw [translate_kernel hnow regs _ hhalf, processMapping, if_pos hhalf]
    have hattr : bootNormalAttr &&& attrMask = bootNormalAttr ∧
        bootDeviceAttr &&& attrMask = bootDeviceAttr := by decide
    unfold bootMapping
    split_ifs
    all_goals simp [hattr]
  · rw [hload]
    exact hshow.translate hspace.map.forest List.mem_cons_self hf regs hhalf

/-- The tables of the small image. -/
def smallTables : BootTables := ⟨0x8c000, by decide, by decide⟩

/-- Physical memory when `setup_vm2` has filled them. -/
def smallBootMemory : Memory :=
  match setupVm2 smallTables fun _ => 0 with
  | .ok m => m
  | .error _ => fun _ => 0

/-- Core 0 runs `TEST4.BIN`: its first byte is the first byte of a frame, and the frame is where the
kernel finds it. -/
theorem first_program_addresses : ∃ s f,
    runFrom smallSource smallDisk (fun x => smallBootMemory (v2p x)) [.init 0, .yield 0] = some s ∧
    s.kernel.current 0 = some (0, 1) ∧ IsFrame smallImage f ∧
    ∀ regs va, ((loadPgd (enableMmu smallTables regs) (s.kernel.ttbr0 0)).translate
      (physical s.kernel.heap.mem) va).map (fun b => (b.1, b.2 &&& attrMask)) = processMapping f va := by
  have hcur : (runFrom smallSource smallDisk (fun x => smallBootMemory (v2p x))
      [.init 0, .yield 0]).map (fun s => s.kernel.current 0) = some (some (0, 1)) := by
    decide +kernel
  obtain ⟨s, hs, hcur⟩ := Option.map_eq_some_iff.mp hcur
  obtain ⟨s₀, hboot, hrun⟩ := run_of_runFrom _ _ hs
  obtain ⟨m₁, hsetup, -, -⟩ := setupVm2_entries (t := smallTables) (m := fun _ => 0) fun _ _ => rfl
  have hmem : smallBootMemory = m₁ := by
    unfold smallBootMemory
    rw [hsetup]
  have htables : ∀ x, physical (fun x => smallBootMemory (v2p x)) x = m₁ x := by
    intro x
    rw [physical, hmem, v2p, p2v, BitVec.add_sub_cancel]
  obtain ⟨f, hf, -, haddr⟩ := running_process_translation (fun _ _ => rfl) hsetup (by decide)
    (fun x _ => htables x) hboot (run_io hrun) smallDisk_programsFit ownBuffer_of_ops hcur
    (by decide)
  exact ⟨s, f, hs, hcur, hf, haddr⟩

end TinyMultiCore
