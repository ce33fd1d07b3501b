import TinyMultiCore.Process.Steps
import TinyMultiCore.Vm.FreshMap

/-!
# When `setup_uvm` fails

There are five ways: no page, no frame for one of the two tables, no such file, a
read that falls short. `setup_uvm_failure` says which of them leave nothing behind.
-/

namespace TinyMultiCore

open ByteMemory

variable {K : KernelImage} {src : FrameSource K} {image : Memory} {k k' : Kernel} {r : ProcRef}

theorem validAttr_userAttr : ValidAttr userAttr := ⟨by decide, by decide⟩

/-- A descriptor number that `open_file` returns was free. -/
theorem openFile_slot {t t' : FileTables} {file file' : FileSlots} {path : Nat → BitVec 8} {fd : Nat}
    (h : openFile image t file path = some (fd, t', file')) :
    file fd = none ∧ ∃ d, file' = Function.update file fd (some d) := by
  unfold openFile at h
  obtain ⟨fd', hfd, h⟩ := Option.bind_eq_some_iff.mp h
  obtain ⟨d, -, h⟩ := Option.bind_eq_some_iff.mp h
  obtain ⟨index, -, h⟩ := Option.bind_eq_some_iff.mp h
  cases h
  exact ⟨(scan_eq_some hfd).2.2, d, rfl⟩

/-- What a failed `setup_uvm` should leave behind: the frames of before without the
root, and the files as they were. -/
def SetupUndone (k : Kernel) (r : ProcRef) (k' : Kernel) : Prop :=
  Undone k.heap (k.table r).pageMap k'.heap ∧ (k'.table r).file = (k.table r).file ∧
    (∀ d, (k'.files.desc d).count = (k.files.desc d).count) ∧
    ∀ f, (k'.files.fcb f).count = (k.files.fcb f).count

/-- There is a frame for the page, and then none for a table, or no such file. -/
def FailsBeforeOpen (src : FrameSource K) (image : Memory) (k : Kernel) (r : ProcRef)
    (fileName : String) : Prop :=
  ∃ page, src.pick k.heap.calls k.heap.inUse = some page ∧
    ((¬ ∃ pud pmd, src.pick (k.heap.calls + 1) (page :: k.heap.inUse) = some pud ∧
        src.pick (k.heap.calls + 2) (pud :: page :: k.heap.inUse) = some pmd) ∨
      openFile image k.files (k.table r).file (cString fileName) = none)

/-- **When a failed `setup_uvm` leaves nothing behind**: when it had a page and failed
before it opened the file. Without a page it keeps the root; after a short read it
keeps the file open. -/
theorem setup_uvm_failure {fileName : String} (hroot : EmptyRoot K k.heap (k.table r).pageMap)
    (hnd : k.heap.inUse.Nodup) (hok : setupUvm src image k r fileName = .ok (false, k')) :
    SetupUndone k r k' ↔ FailsBeforeOpen src image k r fileName := by
  unfold setupUvm at hok
  dsimp only at hok
  rcases k.heap.kalloc_cases src with ⟨hnone, hk⟩ | ⟨page, hpick, hk, hpage, hfree⟩
  · -- no page: the root is still in use
    rw [hk] at hok
    cases hok
    constructor
    · rintro ⟨⟨-, huse⟩, -⟩
      exact absurd rfl ((huse _).mp hroot.used).2
    · rintro ⟨page, hpick, -⟩
      rw [hnone] at hpick
      cases hpick
  rw [hk] at hok
  dsimp only at hok
  rw [if_pos hpage.ne_zero, Forest.memsetPage_withFrame] at hok
  obtain ⟨⟨status, heap⟩, hmap, hok⟩ := bind_eq_ok.mp hok
  have hfirst := mapPage_first (hroot.withFrame hpage hfree) hmap
  cases status with
  | false =>
    -- no table
    dsimp only at hok
    rw [if_neg (by decide)] at hok
    obtain ⟨heap₁, hfree₁, hok⟩ := bind_eq_ok.mp hok
    obtain ⟨heap₂, hfree₂, hok⟩ := bind_eq_ok.mp hok
    cases hok
    obtain ⟨h'', hundo, hU⟩ := kfree_freeVm_fresh hroot hnd hpage hfree
      validAttr_userAttr hmap
    rw [hfree₁, ok_bind, hfree₂] at hundo
    obtain rfl := Except.ok.inj hundo
    refine iff_of_true ⟨hU, rfl, fun _ => rfl, fun _ => rfl⟩ ⟨page, hpick, Or.inl fun hex => ?_⟩
    exact absurd (hfirst.mpr hex) (by decide)
  | true =>
    dsimp only at hok
    rw [if_pos rfl] at hok
    split at hok
    · -- no such file
      rename_i hopen
      obtain ⟨heap₁, hfree₁, hok⟩ := bind_eq_ok.mp hok
      cases hok
      obtain ⟨h'', hundo, hU⟩ := freeVm_fresh hroot hnd hpage hfree
        validAttr_userAttr hmap
      rw [hfree₁] at hundo
      obtain rfl := Except.ok.inj hundo
      exact iff_of_true ⟨hU, rfl, fun _ => rfl, fun _ => rfl⟩ ⟨page, hpick, Or.inr hopen⟩
    · rename_i fd files file hopen
      obtain ⟨hslot, d, rfl⟩ := openFile_slot hopen
      obtain ⟨size, -, hok⟩ := bind_eq_ok.mp hok
      obtain ⟨⟨n, files', mem⟩, -, hok⟩ := bind_eq_ok.mp hok
      dsimp only at hok
      split at hok
      · -- a short read: the descriptor is still there
        obtain ⟨heap₁, -, hok⟩ := bind_eq_ok.mp hok
        cases hok
        refine iff_of_false ?_ ?_
        · rintro ⟨-, hfile, -⟩
          have hfd := congrFun hfile fd
          simp only [Kernel.setProcess, Function.update_self] at hfd
          rw [hslot] at hfd
          cases hfd
        · intro ⟨page', hpick', hfail⟩
          rw [hpick] at hpick'
          obtain rfl := Option.some.inj hpick'
          rcases hfail with hno | hno
          · exact hno (hfirst.mp rfl)
          · rw [hopen] at hno
            cases hno
      · obtain ⟨⟨files', file'⟩, -, hok⟩ := bind_eq_ok.mp hok
        cases hok

-- ---------------------------------------------------------------------------
-- No page
-- ---------------------------------------------------------------------------

/-- An allocator without frames: its row starts at the end of memory. -/
def noFrames : FrameSource smallImage := frameRow smallImage memoryEnd

/-- One process, with a new root. -/
def freshKernel : Kernel where
  table := Function.update (fun _ => .zero) (0, 1)
    { Process.zero with state := .init, pid := 4, pageMap := 0xffff000000200000 }
  lists := ⟨fun _ => none, fun _ => ⟨none, none⟩⟩
  current := fun _ => some (0, 1)
  pidNum := 5
  ttbr0 := fun _ => 0
  heap := emptyHeap.withFrame 0xffff000000200000
  files := zeroTables
  fcbTable := 0
  fileDescTable := 0

theorem freshKernel_root :
    EmptyRoot smallImage freshKernel.heap (freshKernel.table (0, 1)).pageMap where
  used := List.mem_cons_self
  frame := by decide
  empty i := (tables_zeroPage (K := smallImage) (by decide) (by decide) i).trans (if_pos rfl)

/-- Without a page, `setup_uvm` fails and the root stays in use. -/
theorem setup_uvm_keeps_root : EmptyRoot smallImage freshKernel.heap 0xffff000000200000 ∧
    freshKernel.heap.inUse.Nodup ∧ ∃ k',
    setupUvm noFrames smallDisk freshKernel (0, 1) "TEST4.BIN" = .ok (false, k') ∧
    ¬ SetupUndone freshKernel (0, 1) k' := by
  refine ⟨freshKernel_root, List.nodup_singleton _, _, rfl, fun h => ?_⟩
  exact ((h.1.2 0xffff000000200000).mp List.mem_cons_self).2 rfl

/-- With one frame left, there is a page and no table: nothing is left behind. -/
theorem setup_uvm_without_table : ∃ k',
    setupUvm (frameRow smallImage 0xffff00002fc00000) smallDisk freshKernel (0, 1) "TEST4.BIN" =
      .ok (false, k') ∧ SetupUndone freshKernel (0, 1) k' := by
  have hres : (setupUvm (frameRow smallImage 0xffff00002fc00000) smallDisk freshKernel (0, 1)
      "TEST4.BIN").toOption.map Prod.fst = some false := by decide +kernel
  match hok : setupUvm (frameRow smallImage 0xffff00002fc00000) smallDisk freshKernel (0, 1)
    "TEST4.BIN", hres with
  | .ok (ok, k'), hres =>
    obtain rfl : ok = false := Option.some.inj hres
    refine ⟨k', rfl, (setup_uvm_failure freshKernel_root (List.nodup_singleton _) hok).mpr ?_⟩
    refine ⟨0xffff00002fe00000, by decide, Or.inl ?_⟩
    rintro ⟨pud, pmd, hpud, -⟩
    have hnone : (frameRow smallImage 0xffff00002fc00000).pick (freshKernel.heap.calls + 1)
        (0xffff00002fe00000 :: freshKernel.heap.inUse) = none := by decide
    rw [hnone] at hpud
    cases hpud

end TinyMultiCore
