import TinyMultiCore.Process.Creation
import TinyMultiCore.Process.SetupUvm

/-!
# When `fork` fails

There are six ways: no slot in the table, or no frame for the stack, the root, the
page or one of its two tables. `failing_fork_halts`: in none of them does `fork`
return.
-/

namespace TinyMultiCore

open ByteMemory RadixTree TransitionSystem

variable {K : KernelImage} {src : FrameSource K} {h h' : Heap} {k k' : Kernel}
  {r : ProcRef} {t map v attr : U64} {i : TableIndex}

-- ---------------------------------------------------------------------------
-- `copy_uvm`
-- ---------------------------------------------------------------------------

/-- Without `alloc`, nothing is written. -/
theorem findTable_noAlloc {c : U64} (hok : findTable src h t i false attr = .ok (c, h')) :
    h' = h := by
  unfold findTable at hok
  obtain ⟨entry, -, hok⟩ := bind_eq_ok.mp hok
  split at hok
  · exact (Prod.mk.inj (Except.ok.inj hok)).2.symm
  · rw [if_neg (by decide)] at hok
    exact (Prod.mk.inj (Except.ok.inj hok)).2.symm

theorem findPudEntry_noAlloc {c : U64} (hok : findPudEntry src h map v false attr = .ok (c, h')) :
    h' = h := by
  unfold findPudEntry at hok
  obtain ⟨⟨c₁, h₁⟩, hpgd, hpud⟩ := bind_eq_ok.mp hok
  rw [← findTable_noAlloc hpgd]
  dsimp only at hpud
  split at hpud
  · exact (Prod.mk.inj (Except.ok.inj hpud)).2.symm
  · exact findTable_noAlloc hpud

/-- The heap when the page `dst` has been filled from `src`. -/
def copiedHeap (h : Heap) (dst src : U64) (size : U32) : Heap :=
  { h with mem := memcpy h.mem dst h.mem src size }

/-- **`copy_uvm`**, when it succeeds: a new page, filled from the page that `srcMap`
maps at the user base, is mapped there under `dstMap`. -/
theorem copyUvm_eq {dstMap srcMap : U64} {size : U32}
    (hok : copyUvm src h dstMap srcMap size = .ok (true, h')) :
    ∃ page pd entry, src.pick h.calls h.inUse = some page ∧
      findPudEntry src (h.withFrame page) srcMap userBase false 0 = .ok (pd, h.withFrame page) ∧
      readEntry (h.withFrame page) pd (pmdIndex userBase) = .ok entry ∧
      mapPage src (copiedHeap (h.withFrame page) page (p2v (pteAddr entry)) size) dstMap userBase
        (v2p page) userAttr = .ok (true, h') := by
  unfold copyUvm at hok
  rcases h.kalloc_cases src with ⟨-, hk⟩ | ⟨page, hpick, hk, hpage, -⟩
  · rw [hk] at hok
    cases hok
  rw [hk] at hok
  dsimp only at hok
  rw [if_neg hpage.ne_zero, Forest.memsetPage_withFrame] at hok
  obtain ⟨⟨pd, h₁⟩, hfind, hcopy⟩ := bind_eq_ok.mp hok
  have hsame := findPudEntry_noAlloc hfind
  subst hsame
  obtain ⟨entry, hentry, hmap⟩ := bind_eq_ok.mp hcopy
  exact ⟨page, pd, entry, hpick, hfind, hentry, hmap⟩

/-- Filling a page leaves an empty root empty. -/
theorem EmptyRoot.copied {page s : U64} {size : U32} (hE : EmptyRoot K h map) (hf : IsFrame K page)
    (hne : map ≠ page) (hsize : size.toNat ≤ 2 ^ 21) : EmptyRoot K (copiedHeap h page s size) map where
  used := hE.used
  frame := hE.frame
  empty i := by
    rw [copiedHeap, tables_congr fun x hx => ?_, hE.empty]
    have := hE.frame.outside hf hne hx
    exact if_neg (by omega)

-- ---------------------------------------------------------------------------
-- `fork`
-- ---------------------------------------------------------------------------

/-- The root of a new process is empty. -/
theorem newProcessHeap_root (h : Heap) (stack : U64) {pageMap : U64} (hf : IsFrame K pageMap) :
    EmptyRoot K (newProcessHeap h stack pageMap) pageMap where
  used := List.mem_cons_self
  frame := hf
  empty i := (tables_zeroPage hf hf i).trans (if_pos rfl)

/-- `fork` cannot succeed: there is no slot, or one of the five calls of `kalloc`
returns `NULL`. -/
def ForkFails (src : FrameSource K) (k : Kernel) : Prop :=
  findUnusedProcess k findLeastBusyCore = none ∨
    takeFrames src 5 k.heap.calls k.heap.inUse = none

/-- When `fork` returns, it has a slot and five frames. -/
theorem fork_takes {res : Option ProcRef} (hok : fork src k = .ok (res, k')) :
    ¬ ForkFails src k := by
  obtain ⟨current, r, stack, pageMap, heap, files, lists, rfl, -, hfind, hpick₁, hpick₂, hcopy, -⟩ :=
    fork_eq hok
  obtain ⟨page, pd, entry, hpick₃, -, -, hmap⟩ := copyUvm_eq hcopy
  obtain ⟨hframe, -⟩ := src.fresh hpick₂
  obtain ⟨hpage, hfree⟩ := src.fresh hpick₃
  have hroot := newProcessHeap_root k.heap stack hframe
  have hne : pageMap ≠ page := fun he => hfree (he ▸ hroot.used)
  have hroot' := (hroot.withFrame hpage hfree).copied (s := p2v (pteAddr entry)) hpage hne
    (show (pageSize.setWidth 32 : U32).toNat ≤ 2 ^ 21 by decide)
  obtain ⟨pud, pmd, hpick₄, hpick₅⟩ := (mapPage_first hroot' hmap).mp rfl
  rintro (hslot | hframes)
  · rw [findLeastBusyCore, hfind] at hslot
    cases hslot
  · -- the five frames: stack, root, page, PUD and PMD
    have hpick₃ : src.pick (k.heap.calls + 2) (pageMap :: stack :: k.heap.inUse) = some page := hpick₃
    have hpick₄ : src.pick (k.heap.calls + 3) (page :: pageMap :: stack :: k.heap.inUse) =
      some pud := hpick₄
    have hpick₅ : src.pick (k.heap.calls + 4) (pud :: page :: pageMap :: stack :: k.heap.inUse) =
      some pmd := hpick₅
    simp [takeFrames, hpick₁, hpick₂, hpick₃, hpick₄, hpick₅] at hframes

/-- What a failing `fork` should do: return `-1`, with everything as before. -/
def ForkUndone (src : FrameSource K) (k : Kernel) : Prop :=
  ∃ k', fork src k = .ok (none, k') ∧ k'.table = k.table ∧ k'.lists = k.lists ∧
    (∀ f, f ∈ k'.heap.inUse ↔ f ∈ k.heap.inUse) ∧
    (∀ d, (k'.files.desc d).count = (k.files.desc d).count) ∧
    ∀ f, (k'.files.fcb f).count = (k.files.fcb f).count

/-- **A failing `fork` never returns.** Whatever it lacks, it stops in an `ASSERT` (or in
a fault before it comes to one) instead of returning `-1`. -/
theorem failing_fork_halts (hfail : ForkFails src k) :
    (∃ e, fork src k = .error e) ∧ ¬ ForkUndone src k := by
  constructor
  · cases hok : fork src k with
    | error e => exact ⟨e, rfl⟩
    | ok x => exact absurd hfail (fork_takes hok)
  · rintro ⟨k', hok, -⟩
    exact fork_takes hok hfail

/-- An allocator with twelve frames: what `init_fs` and `init_process` on core 0 take. -/
def twelveFrames : FrameSource smallImage := frameRow smallImage 0xffff00002e800000

/-- When they are in use, the first program on core 0 calls `fork`. -/
theorem fork_without_frames : ∃ s₀ s,
    boot twelveFrames smallDisk (fun _ => 0) = .ok s₀ ∧
    Run (System.Step twelveFrames smallDisk) s₀ [.init 0, .yield 0] s ∧ s.Enabled (.fork 0) ∧
    ForkFails twelveFrames s.kernel ∧ ¬ ForkUndone twelveFrames s.kernel := by
  obtain ⟨s, hs⟩ := Option.isSome_iff_exists.mp (show
    (runFrom twelveFrames smallDisk (fun _ => 0) [.init 0, .yield 0]).isSome by decide +kernel)
  have hstate : ((runFrom twelveFrames smallDisk (fun _ => 0) [.init 0, .yield 0]).map fun s =>
      (s.canStep (.fork 0), takeFrames twelveFrames 5 s.kernel.heap.calls s.kernel.heap.inUse)) =
      some (true, none) := by decide +kernel
  rw [hs] at hstate
  obtain ⟨hcan, hframes⟩ := Prod.mk.inj (Option.some.inj hstate)
  obtain ⟨s₀, hboot, hrun⟩ := run_of_runFrom _ _ hs
  refine ⟨s₀, s, hboot, hrun, System.enabled_of_canStep hcan, Or.inr hframes, ?_⟩
  rintro ⟨k', hok, -⟩
  obtain ⟨r, hres, -⟩ := fork_creates hok
  cases hres

/-- So it does in every state of that kind, such as the one of a full process table. -/
theorem full_table_fork_halts : ∃ e,
    fork smallSource { freshKernel with table := fun _ => { Process.zero with state := .ready } } =
      .error e :=
  (failing_fork_halts (Or.inl (by decide +kernel))).1

end TinyMultiCore
