import TinyMultiCore.Process.LoadStores

/-!
# The two loaders compared

`exec` on one side, `setup_uvm` with enough frames on the other, both from the same
file tables. `LoadersAgree` is what they should have in common. They have it for the
programs that fit into a page and whose chains have all of their clusters
(`loaders_agree_iff`): `setup_uvm` notices a short chain, `exec` does not; a larger
program overruns the new page in the one and faults in the other.
-/

namespace TinyMultiCore

open ByteMemory

variable {K : KernelImage} {src : FrameSource K} {image mem : Memory} {k k' k₁ : Kernel} {c : Core}
  {r r₁ : ProcRef} {refs : Nat → Nat} {f : Nat} {page tf : U64} {program : String}

/-- The page has the bytes of the file, and zeros behind them. -/
def ImageAt (image : Memory) (f : Nat) (mem : Memory) (page : U64) : Prop :=
  ∀ i < 2 ^ 21, mem (page + BitVec.ofNat 64 i) =
    if i < (dirEntry image f).fileSize.toNat then chainByte image (firstCluster image f) i else 0

/-- A load has succeeded: the image is complete, and the files are as before. -/
def LoadedAt (image : Memory) (program : String) (k : Kernel) (r : ProcRef) (page : U64)
    (k' : Kernel) : Prop :=
  (∃ f, searchFile image (cString program) = some f ∧ ImageAt image f k'.heap.mem page) ∧
    FilesAsBefore k.files k'.files (k.table r).file (k'.table r).file

/-- `exec` of the process `r` on core `c`, whose user page is `page`, does what
`setup_uvm` does for `r₁` with the new page `page₁`; and it ends the process when that
fails. -/
structure LoadersAgree (src : FrameSource K) (image : Memory) (program : String) (k : Kernel)
    (c : Core) (r : ProcRef) (page : U64) (k₁ : Kernel) (r₁ : ProcRef) (page₁ : U64) : Prop where
  returns : (∃ k', exec image k c r (cString program) = .ok (true, k')) ↔
    ∃ k', setupUvm src image k₁ r₁ program = .ok (true, k')
  exec_loads : ∀ k', exec image k c r (cString program) = .ok (true, k') →
    LoadedAt image program k r page k'
  setup_loads : ∀ k', setupUvm src image k₁ r₁ program = .ok (true, k') →
    LoadedAt image program k₁ r₁ page₁ k'
  ends : (¬∃ k', setupUvm src image k₁ r₁ program = .ok (true, k')) →
    ∃ k', exec image k c r (cString program) = .ok (false, k')

theorem page_offset {i : Nat} (hi : i < 2 ^ 21) :
    (page + BitVec.ofNat 64 i - page).toNat = i := by
  rw [BitVec.add_comm, BitVec.add_sub_cancel, BitVec.toNat_ofNat, Nat.mod_eq_of_lt (by omega)]

/-- A zeroed page, with the file copied to its beginning. -/
theorem imageAt_blit (hzero : ∀ x, (x - page).toNat < 2 ^ 21 → mem x = 0) :
    ImageAt image f (blit mem page (dirEntry image f).fileSize.toNat
      (chainByte image (firstCluster image f))) page := by
  intro i hi
  rw [blit, page_offset hi]
  split
  · rfl
  · exact hzero _ (by rw [page_offset hi]; exact hi)

theorem imageAt_execMemory (htf : ∀ x, (x - page).toNat < 2 ^ 21 → 288 ≤ (x - tf).toNat) :
    ImageAt image f (execMemory image mem page tf f) page := by
  intro i hi
  have hout := htf (page + BitVec.ofNat 64 i) (by rw [page_offset hi]; exact hi)
  rw [execMemory, enterAtBase_outside hout]
  have hblit : ∀ m : Memory, blit m tf trapFrameSize.toNat (fun _ => 0) (page + BitVec.ofNat 64 i) =
      m (page + BitVec.ofNat 64 i) := fun m => if_neg (Nat.not_lt.mpr hout)
  rw [hblit]
  exact imageAt_blit (fun x hx => if_pos hx) i hi

/-- **`setup_uvm`** of a program that fits succeeds, with three frames: the page and the two tables
that a new page map does not have yet. -/
theorem Fits.setupUvm {pud pmd : U64} (h : Fits image f) (hcounted : Counted image k.files refs)
    (hfound : searchFile image (cString program) = some f)
    (hopen : openFile image k.files (k.table r).file (cString program) ≠ none)
    (hroot : EmptyRoot K k.heap (k.table r).pageMap)
    (hpick : src.pick k.heap.calls k.heap.inUse = some page)
    (hpud : src.pick (k.heap.calls + 1) (page :: k.heap.inUse) = some pud)
    (hpmd : src.pick (k.heap.calls + 2) (pud :: page :: k.heap.inUse) = some pmd) :
    ∃ k', TinyMultiCore.setupUvm src image k r program = .ok (true, k') ∧
      LoadedAt image program k r page k' := by
  obtain ⟨⟨fd, files, file⟩, hopen⟩ := Option.ne_none_iff_exists'.mp hopen
  obtain ⟨f', d, hopened⟩ := hcounted.opened hopen
  obtain rfl := Option.some.inj (hopened.found.symm.trans hfound)
  obtain ⟨hpage, hfree⟩ := src.fresh hpick
  obtain ⟨heap, hmap, hzero⟩ := mapPage_succeeds src userAttr (v := userBase) hroot hpage hfree
    validAttr_userAttr (by decide) hpud hpmd
  obtain ⟨hread, files₂, hclose, hsame⟩ := hcounted.load hopen hopened
    (h.readWhole heap.mem page)
  rw [setupUvm_mapped hpick hmap hopen hopened.getFileSize, hread, ok_bind]
  dsimp only
  rw [if_neg (not_not_intro rfl), hclose, ok_bind]
  refine ⟨_, rfl, ⟨f', hfound, imageAt_blit hzero⟩, ?_⟩
  simpa [Kernel.setProcess] using hsame

section

variable {pud pmd page₁ : U64} (hcounted : Counted image k.files refs) (hfiles : k₁.files = k.files)
  (hslots : (k₁.table r₁).file = (k.table r).file)
  (hpage : userAccess k c userBase = .ok page)
  (htf : ∀ x, (x - page).toNat < 2 ^ 21 → 288 ≤ (x - (k.table r).tf).toNat)
  (hroot : EmptyRoot K k₁.heap (k₁.table r₁).pageMap)
  (hpick : src.pick k₁.heap.calls k₁.heap.inUse = some page₁)
  (hpud : src.pick (k₁.heap.calls + 1) (page₁ :: k₁.heap.inUse) = some pud)
  (hpmd : src.pick (k₁.heap.calls + 2) (pud :: page₁ :: k₁.heap.inUse) = some pmd)
include hcounted hfiles hslots

/-- Loaders that agree have no such file, or one that fits. -/
theorem LoadersAgree.fits (h : LoadersAgree src image program k c r page k₁ r₁ page₁) :
    openFile image k.files (k.table r).file (cString program) = none ∨
      ∃ f, searchFile image (cString program) = some f ∧ Fits image f := by
  cases hopen : openFile image k.files (k.table r).file (cString program) with
  | none => exact Or.inl rfl
  | some x =>
    obtain ⟨fd, files, file⟩ := x
    obtain ⟨f, d, hopened⟩ := hcounted.opened hopen
    refine Or.inr ⟨f, hopened.found, ?_⟩
    -- what `exec` has read when it has come through
    have hexec : ∀ {returns k'}, exec image k c r (cString program) = .ok (returns, k') →
        ¬rawDataStores image (firstCluster image f) (dirEntry image f).fileSize (2 ^ 21) ∧
          ∃ m b n m', readRawData image (firstCluster image f) m b 0 (dirEntry image f).fileSize =
            .ok (n, m') ∧ (returns = false → n = readFailed) := by
      intro returns k' hok
      rcases exec_cases hok with ⟨hno, -⟩ | ⟨fd', files', file', page', size, n, files₁, m', hopen', -,
        hsize, hread, hbehind, hend⟩
      · rw [hopen] at hno
        cases hno
      · rw [hopen] at hopen'
        cases hopen'
        rw [hopened.getFileSize] at hsize
        cases hsize
        rw [hopened.fileStores] at hbehind
        refine ⟨of_decide_eq_false (Except.ok.inj hbehind), _, _, n, m',
          (hopened.readFile_iff.mp hread).1, fun hfalse => ?_⟩
        rcases hend with ⟨hn, -⟩ | ⟨-, htrue, -⟩
        · exact hn
        · rw [hfalse] at htrue
          cases htrue
    by_cases hsetup : ∃ k', setupUvm src image k₁ r₁ program = .ok (true, k')
    · -- `setup_uvm` has read all of it, and `exec` has stored nothing behind the page
      obtain ⟨k', hexec'⟩ := h.returns.mpr hsetup
      obtain ⟨hnot, -⟩ := hexec hexec'
      obtain ⟨k'', hsetup⟩ := hsetup
      obtain ⟨page', heap, fd', files', file', size, _, _, _, _, -, -, hopen', hsize, hread, -⟩ :=
        setupUvm_eq hsetup
      rw [hfiles, hslots, hopen] at hopen'
      cases hopen'
      rw [hopened.getFileSize] at hsize
      cases hsize
      obtain ⟨hraw, -⟩ := hopened.readFile_iff.mp hread
      refine ⟨readWhole_le (by decide) hnot hraw, ?_⟩
      rcases (readWhole_cases (noWrap_of_not_stores (by decide) hnot) hraw).2 with
        ⟨-, hcov⟩ | ⟨m, -, hlt, -⟩
      · exact hcov
      · exact absurd hlt (lt_irrefl _)
    · -- `exec` ends the process only after a read that has failed, which this one has not
      exfalso
      obtain ⟨k', hexec'⟩ := h.ends hsetup
      obtain ⟨hnot, m, b, n, m', hraw, hfail⟩ := hexec hexec'
      have hle := readWhole_le (by decide) hnot hraw
      rw [hfail rfl] at hle
      exact absurd hle (by decide)

include hpage htf hroot hpick hpud hpmd

/-- **The two loaders agree** exactly on paths that cannot be opened and on programs that
fit: of at most 2MB, and with a cluster in the chain for each of their bytes. -/
theorem loaders_agree_iff : LoadersAgree src image program k c r page k₁ r₁ page₁ ↔
    openFile image k.files (k.table r).file (cString program) = none ∨
      ∃ f, searchFile image (cString program) = some f ∧ Fits image f := by
  refine ⟨LoadersAgree.fits hcounted hfiles hslots, fun h => ?_⟩
  by_cases hopen : openFile image k.files (k.table r).file (cString program) = none
  · -- neither of them gets to the read
    have hexec : exec image k c r (cString program) = .ok (false, k) := by
      unfold exec
      dsimp only
      rw [hopen]
      rfl
    have hsetup : ¬∃ k', setupUvm src image k₁ r₁ program = .ok (true, k') := by
      rintro ⟨k', hok⟩
      obtain ⟨_, _, _, _, _, _, _, _, _, _, -, -, hopen', -⟩ := setupUvm_eq hok
      rw [hfiles, hslots, hopen] at hopen'
      cases hopen'
    refine ⟨iff_of_false (fun ⟨k', hok⟩ => ?_) hsetup, fun k' hok => ?_,
      fun k' hok => absurd ⟨k', hok⟩ hsetup, fun _ => ⟨k, hexec⟩⟩
    · rw [hexec] at hok
      cases hok
    · rw [hexec] at hok
      cases hok
  · obtain ⟨f, hfound, hfits⟩ := h.resolve_left hopen
    have hopen₁ : openFile image k₁.files (k₁.table r₁).file (cString program) ≠ none := by
      rw [hfiles, hslots]
      exact hopen
    obtain ⟨k₁', hsetup, hloaded⟩ := hfits.setupUvm (hfiles ▸ hcounted) hfound hopen₁ hroot hpick
      hpud hpmd
    obtain ⟨⟨fd, files, file⟩, hsome⟩ := Option.ne_none_iff_exists'.mp hopen
    obtain ⟨files₂, hsame, hexec⟩ := hfits.exec hcounted hfound hsome hpage
    refine ⟨iff_of_true ⟨_, hexec⟩ ⟨_, hsetup⟩, fun k' hok => ?_, fun k' hok => ?_,
      fun hno => absurd ⟨_, hsetup⟩ hno⟩
    · rw [hexec] at hok
      cases hok
      exact ⟨⟨f, hfound, imageAt_execMemory htf⟩, hsame⟩
    · rw [hsetup] at hok
      cases hok
      exact hloaded

end

-- ---------------------------------------------------------------------------
-- A program, and one that has lost its last cluster
-- ---------------------------------------------------------------------------

/-- The process of `freshKernel` running with a page of its own, and with its trap frame at
the top of a stack. -/
def runningKernel : Kernel :=
  let root : U64 := 0xffff000000200000
  let pud : U64 := 0xffff000000400000
  let pmd : U64 := 0xffff000000600000
  let page : U64 := 0xffff000000800000
  let stack : U64 := 0xffff000000a00000
  let heap := { emptyHeap with inUse := [stack, page, pmd, pud, root] }
  let heap := writeEntry heap root 0 (v2p pud ||| entryV ||| tableEntry)
  let heap := writeEntry heap pud 0 (v2p pmd ||| entryV ||| tableEntry)
  let heap := writeEntry heap pmd 2 (v2p page ||| userAttr ||| blockEntry)
  let tf := stack + pageSize - trapFrameSize
  { freshKernel with
    heap
    table := Function.update freshKernel.table (0, 1)
      { freshKernel.table (0, 1) with state := .running, stack, tf }
    ttbr0 := fun _ => v2p root }

theorem runningKernel_page : userAccess runningKernel 0 userBase = .ok 0xffff000000800000 := by
  decide +kernel

/-- Its page ends where the stack begins, and the trap frame is at the other end of that. -/
theorem runningKernel_tf (x : U64) (hx : (x - 0xffff000000800000).toNat < 2 ^ 21) :
    288 ≤ (x - (runningKernel.table (0, 1)).tf).toNat := by
  have htf : (runningKernel.table (0, 1)).tf = 0xffff000000bffee0 := by decide
  rw [htf]
  bv_omega

theorem smallDisk_fits : Fits smallDisk 0 where
  size_le := by decide +kernel
  covers := by
    refine ⟨by decide +kernel, fun n hn => ?_⟩
    have hsize : (dirEntry smallDisk 0).fileSize.toNat = 1 := by decide +kernel
    have hcluster : clusterBytes smallDisk = 512 := by decide +kernel
    rw [hsize, hcluster] at hn
    obtain rfl : n = 0 := by omega
    exact ⟨by decide +kernel, by decide +kernel⟩

theorem small_program_loaders_agree :
    LoadersAgree smallSource smallDisk "TEST4.BIN" runningKernel 0 (0, 1) 0xffff000000800000
      freshKernel (0, 1) 0xffff000000400000 := by
  have hcounted : Counted smallDisk runningKernel.files fun _ => 0 := counted_zeroTables
  have hfiles : freshKernel.files = runningKernel.files := rfl
  have hslots : (freshKernel.table (0, 1)).file = (runningKernel.table (0, 1)).file := rfl
  have hfound : searchFile smallDisk (cString "TEST4.BIN") = some 0 := by decide +kernel
  have hpick : smallSource.pick freshKernel.heap.calls freshKernel.heap.inUse =
      some 0xffff000000400000 := by decide
  have hpud : smallSource.pick (freshKernel.heap.calls + 1)
      (0xffff000000400000 :: freshKernel.heap.inUse) = some 0xffff000000600000 := by decide
  have hpmd : smallSource.pick (freshKernel.heap.calls + 2)
      (0xffff000000600000 :: 0xffff000000400000 :: freshKernel.heap.inUse) =
        some 0xffff000000800000 := by decide
  exact (loaders_agree_iff hcounted hfiles hslots runningKernel_page runningKernel_tf
    freshKernel_root hpick hpud hpmd).mpr (Or.inr ⟨0, hfound, smallDisk_fits⟩)

/-- A disk whose `TEST4.BIN` has 513 bytes and a chain of one cluster of 512. -/
def shortDisk : Memory := fun x => BitVec.ofNat 8 ((List.lookup (x - fsBase).toNat
  ([(12, 2), (13, 1), (14, 1), (16, 1), (17, 2), (22, 1), (0x1fe, 0x55), (0x1ff, 0xaa)] ++
    -- the entry of cluster 2 in the table of links
    [(516, 0xff), (517, 0xff)] ++
    ("TEST4   BIN".toList.mapIdx fun i c => (1024 + i, c.toNat)) ++
    [(1050, 2), (1052, 1), (1053, 2), (1088, 0x54)])).getD 0)

/-- `setup_uvm` notices the lost cluster and `exec` enters the part of the program that
is there. -/
theorem short_program_loaders_differ :
    (∃ k', setupUvm smallSource shortDisk freshKernel (0, 1) "TEST4.BIN" = .ok (false, k')) ∧
    (∃ k', exec shortDisk runningKernel 0 (0, 1) (cString "TEST4.BIN") = .ok (true, k') ∧
      k'.heap.mem 0xffff000000800000 = 0x54) ∧
    ¬LoadersAgree smallSource shortDisk "TEST4.BIN" runningKernel 0 (0, 1) 0xffff000000800000
      freshKernel (0, 1) 0xffff000000400000 := by
  have hres : (setupUvm smallSource shortDisk freshKernel (0, 1) "TEST4.BIN").toOption.map
      Prod.fst = some false := by decide +kernel
  have hexec : (exec shortDisk runningKernel 0 (0, 1) (cString "TEST4.BIN")).toOption.map
      (fun x => (x.1, x.2.heap.mem 0xffff000000800000)) = some (true, 0x54) := by decide +kernel
  match hok : setupUvm smallSource shortDisk freshKernel (0, 1) "TEST4.BIN", hres,
    hok' : exec shortDisk runningKernel 0 (0, 1) (cString "TEST4.BIN"), hexec with
  | .ok (false, k₁'), _, .ok (true, k'), hexec =>
    refine ⟨⟨k₁', rfl⟩, ⟨k', rfl, (Prod.mk.inj (Option.some.inj hexec)).2⟩, fun h => ?_⟩
    obtain ⟨k'', hsetup⟩ := h.returns.mp ⟨k', hok'⟩
    rw [hok] at hsetup
    cases hsetup

end TinyMultiCore
