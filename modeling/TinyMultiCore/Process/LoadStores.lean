import TinyMultiCore.Process.OpenedFile

/-!
# What loading a program stores

The bytes that `setup_uvm` and `exec` store when they read a file: a `Load` is their
call of `read_file` as a function of the memory, and `StoresInside` says that it
writes to one page only.
-/

namespace TinyMultiCore

open ByteMemory

variable {K : KernelImage} {src : FrameSource K} {image mem mem' : Memory} {k k' : Kernel} {c : Core}
  {r : ProcRef} {files files' : FileTables} {file : FileSlots} {refs : Nat → Nat}
  {fd d f volume : Nat} {path : Nat → BitVec 8} {n size : U32} {page buffer : U64}
  {program : String}

/-- What reads a program into some memory. -/
abbrev Load := Memory → Except Halt (U32 × FileTables × Memory)

/-- The call of `read_file` that `setup_uvm` makes, when it has mapped the new page. -/
def SetupReads (src : FrameSource K) (image : Memory) (k : Kernel) (r : ProcRef) (program : String)
    (page : U64) (load : Load) : Prop :=
  ∃ heap fd files file size, src.pick k.heap.calls k.heap.inUse = some page ∧
    mapPage src (k.heap.withFrame page) (k.table r).pageMap userBase (v2p page) userAttr =
      .ok (true, heap) ∧
    openFile image k.files (k.table r).file (cString program) = some (fd, files, file) ∧
    getFileSize files file fd = .ok size ∧
    load = fun mem => readFile image files file fd mem page size

/-- The `memset` and the call of `read_file` that `exec` makes, in the memory of the user
addresses. -/
def ExecReads (image : Memory) (k : Kernel) (r : ProcRef) (path : Nat → BitVec 8) (load : Load) :
    Prop :=
  ∃ fd files file size,
    openFile image k.files (k.table r).file path = some (fd, files, file) ∧
    getFileSize files file fd = .ok size ∧
    load = fun mem => readFile image files file fd (zeroPage mem userBase) userBase size

/-- Whatever the memory contains, no byte outside the 2MB from `page` on is stored. -/
def StoresInside (load : Load) (page : U64) : Prop :=
  ∀ mem n files mem', load mem = .ok (n, files, mem') →
    ∀ x, 2 ^ 21 ≤ (x - page).toNat → mem' x = mem x

/-- Every file that can be found is well formed. -/
def WellFormedVolume (image : Memory) (volume : Nat) : Prop :=
  ∀ path f, searchFile image path = some f →
    WellFormedFile image (firstCluster image f) (dirEntry image f).fileSize volume

/-- A well-formed file, read from its first byte on. -/
theorem WellFormedFile.readWhole (h : WellFormedFile image (firstCluster image f)
    (dirEntry image f).fileSize volume) :
    readRawData image (firstCluster image f) mem buffer 0 (dirEntry image f).fileSize =
      .ok ((dirEntry image f).fileSize, blit mem buffer (dirEntry image f).fileSize.toNat fun i =>
        fileByte image (firstCluster image f) i) := by
  have hread : readRawData image (firstCluster image f) mem buffer 0 (dirEntry image f).fileSize =
      _ := readRawData_spec h (by simp) fun k hk hle => absurd hle (by simp [Nat.ne_of_gt hk])
  simpa using hread

theorem WellFormedFile.covers {first : U32} (h : WellFormedFile image first size volume) :
    Covers image first size.toNat :=
  ⟨Or.inr h.clusterBytes_pos, h.chain_range⟩

/-- A file stays inside the page when it is not larger. -/
theorem Opened.storesInside_iff (h : Opened image path f d files file fd)
    (hwf : WellFormedFile image (firstCluster image f) (dirEntry image f).fileSize volume)
    (prepare : Memory → Memory)
    (hprepare : ∀ mem x, 2 ^ 21 ≤ (x - page).toNat → prepare mem x = mem x) :
    StoresInside (fun mem => readFile image files file fd (prepare mem) page
      (dirEntry image f).fileSize) page ↔ (dirEntry image f).fileSize.toNat ≤ 2 ^ 21 := by
  constructor
  · intro hin
    by_contra hlt
    rw [not_le] at hlt
    -- the byte behind the page, in a memory where it is another one
    set b := fileByte image (firstCluster image f) (2 ^ 21)
    have hx : (page + BitVec.ofNat 64 (2 ^ 21) - page).toNat = 2 ^ 21 := by
      rw [BitVec.add_comm, BitVec.add_sub_cancel]
      rfl
    have hbyte := hin (fun _ => b + 1) _ _ _ (h.readFile_iff.mpr ⟨hwf.readWhole, rfl⟩)
      (page + BitVec.ofNat 64 (2 ^ 21)) (by rw [hx])
    rw [blit, hx, if_pos hlt] at hbyte
    have hne : b ≠ b + 1 := by
      intro he
      exact absurd (BitVec.add_right_eq_self.mp he.symm) (by decide)
    exact hne hbyte
  · intro hle mem n files' mem' hok x hx
    obtain ⟨hread, -⟩ := h.readFile_iff.mp hok
    rw [hwf.readWhole] at hread
    cases hread
    rw [blit, if_neg (by omega)]
    exact hprepare mem x hx

/-- **Loading a program writes only its own page** when the file has at most 2MB, and only
then: for every well-formed volume, every file on it, and every kernel whose file tables
are right. The bytes that the `read_file` of `setup_uvm` stores are inside the frame it
has just allocated, and those that the `memset` and the `read_file` of `exec` store are
inside the user window, exactly when the file size is at most 2MB. If it is not, `exec`
gets a data abort. -/
theorem load_stores_inside_iff (hcounted : Counted image k.files refs)
    (hvol : WellFormedVolume image volume) (hfound : searchFile image (cString program) = some f) :
    (∀ r page load, SetupReads src image k r program page load →
      (StoresInside load page ↔ (dirEntry image f).fileSize.toNat ≤ 2 ^ 21)) ∧
    (∀ r load, ExecReads image k r (cString program) load →
      (StoresInside load userBase ↔ (dirEntry image f).fileSize.toNat ≤ 2 ^ 21)) ∧
    ∀ c r page, userAccess k c userBase = .ok page →
      openFile image k.files (k.table r).file (cString program) ≠ none →
      (exec image k c r (cString program) = .error .fault ↔
        2 ^ 21 < (dirEntry image f).fileSize.toNat) := by
  have hwf := hvol _ f hfound
  refine ⟨?_, ?_, ?_⟩
  · rintro r page load ⟨heap, fd, files, file, size, -, -, hopen, hsize, rfl⟩
    obtain ⟨f', d, hopened⟩ := hcounted.opened hopen
    obtain rfl := Option.some.inj (hopened.found.symm.trans hfound)
    rw [hopened.getFileSize] at hsize
    cases hsize
    exact hopened.storesInside_iff hwf id fun _ _ _ => rfl
  · rintro r load ⟨fd, files, file, size, hopen, hsize, rfl⟩
    obtain ⟨f', d, hopened⟩ := hcounted.opened hopen
    obtain rfl := Option.some.inj (hopened.found.symm.trans hfound)
    rw [hopened.getFileSize] at hsize
    cases hsize
    exact hopened.storesInside_iff hwf (fun mem => zeroPage mem userBase)
      fun mem x hx => if_neg (by omega)
  · intro c r page hpage hopen
    obtain ⟨⟨fd, files, file⟩, hopen⟩ := Option.ne_none_iff_exists'.mp hopen
    obtain ⟨f', d, hopened⟩ := hcounted.opened hopen
    obtain rfl := Option.some.inj (hopened.found.symm.trans hfound)
    constructor
    · intro hfault
      by_contra hle
      obtain ⟨files₂, -, hok⟩ := (Fits.mk (not_lt.mp hle) hwf.covers).exec hcounted hfound hopen hpage
      rw [hok] at hfault
      cases hfault
    · intro hlt
      rw [exec_opened hopen hpage hopened.getFileSize, hopened.fileStores, ok_bind,
        decide_eq_true (show rawDataStores image _ _ pageSize.toNat from ⟨hlt, hwf.clusterBytes_pos,
          fun k hk => (hwf.chain_range k (lt_of_le_of_lt (Nat.mul_le_of_le_div _ _ _ hk) hlt)).2⟩)]
      rfl

-- ---------------------------------------------------------------------------
-- Two disks
-- ---------------------------------------------------------------------------

theorem searchFile_eq_some (h : searchFile image path = some f) :
    f < (getRootDirectoryCount image).toNat ∧ (dirEntry image f).name.headD 0 ≠ entryEmpty := by
  unfold searchFile at h
  obtain ⟨x, -, hscan⟩ := Option.bind_eq_some_iff.mp h
  obtain ⟨-, hlt, hentry, -⟩ := scan_eq_some hscan
  exact ⟨by omega, fun he => hentry (Or.inl he)⟩

/-- A file that fits into its first cluster. -/
theorem wellFormedFile_of_one_cluster {first : U32} (hsector : (fsBpb image).bytesPerSector ≠ 0)
    (hcluster : (fsBpb image).sectorsPerCluster ≠ 0) (hvolume : volume < 2 ^ 31)
    (hsize : size.toNat ≤ clusterBytes image) (hfirst : 2 ≤ first.toNat ∧ first.toNat < 0xfff7)
    (hin : clusterStart image first + clusterBytes image ≤ volume) :
    WellFormedFile image first size volume := by
  have hzero : ∀ k, k * clusterBytes image < size.toNat → k = 0 := by
    intro k hk
    by_contra h0
    have := Nat.le_mul_of_pos_left (clusterBytes image) (Nat.pos_of_ne_zero h0)
    omega
  refine ⟨hsector, hcluster, hvolume, fun k hk => ?_, fun k hk => ?_, by omega⟩
  · rw [hzero k hk]
    exact hfirst
  · rw [hzero k hk]
    exact hin

theorem smallDisk_wellFormed : WellFormedVolume smallDisk 4096 := by
  intro path f hfound
  obtain ⟨hlt, -⟩ := searchFile_eq_some hfound
  rw [show (getRootDirectoryCount smallDisk).toNat = 2 by decide +kernel] at hlt
  have hf : f = 0 ∨ f = 1 := by omega
  rcases hf with rfl | rfl
  · exact wellFormedFile_of_one_cluster (by decide +kernel) (by decide +kernel) (by decide)
      (by decide +kernel) (by decide +kernel) (by decide +kernel)
  · exact wellFormedFile_of_one_cluster (by decide +kernel) (by decide +kernel) (by decide)
      (by decide +kernel) (by decide +kernel) (by decide +kernel)

theorem counted_zeroTables : Counted image zeroTables fun _ => 0 :=
  ⟨fun _ => rfl, fun _ => iff_of_true rfl rfl, fun _ h => absurd rfl h,
    fun _ => (Finset.sum_eq_zero fun _ _ => rfl).symm, fun _ h => absurd h (lt_irrefl 0)⟩

/-- Loading the one byte of a program stays inside the new page. -/
theorem small_program_stores_inside : ∃ page load,
    SetupReads smallSource smallDisk freshKernel (0, 1) "TEST4.BIN" page load ∧
    StoresInside load page := by
  have hres : (setupUvm smallSource smallDisk freshKernel (0, 1) "TEST4.BIN").toOption.map
      Prod.fst = some true := by decide +kernel
  match hok : setupUvm smallSource smallDisk freshKernel (0, 1) "TEST4.BIN", hres with
  | .ok (ok, k'), hres =>
    obtain rfl : ok = true := Option.some.inj hres
    obtain ⟨page, heap, fd, files, file, size, _, _, _, _, hpick, hmap, hopen, hsize, -⟩ :=
      setupUvm_eq hok
    have hreads : SetupReads smallSource smallDisk freshKernel (0, 1) "TEST4.BIN" page _ :=
      ⟨heap, fd, files, file, size, hpick, hmap, hopen, hsize, rfl⟩
    exact ⟨page, _, hreads, ((load_stores_inside_iff counted_zeroTables smallDisk_wellFormed
      (show searchFile smallDisk (cString "TEST4.BIN") = some 0 by decide +kernel)).1 _ _ _
        hreads).mpr (by decide +kernel)⟩

/-- A disk with clusters of four megabytes. `TEST4.BIN` has two megabytes and one byte,
which is the letter `X`. -/
def bigDisk : Memory := fun x => BitVec.ofNat 8 ((List.lookup (x - fsBase).toNat
  ([(12, 0x80), (13, 0x80), (14, 1), (17, 2), (0x1fe, 0x55), (0x1ff, 0xaa)] ++
    ("TEST4   BIN".toList.mapIdx fun i c => (0x8000 + i, c.toNat)) ++
    [(0x801a, 2), (0x801c, 1), (0x801e, 0x20), (0x208040, 0x58)])).getD 0)

theorem bigDisk_wellFormed : WellFormedVolume bigDisk (2 ^ 23) := by
  intro path f hfound
  obtain ⟨hlt, hentry⟩ := searchFile_eq_some hfound
  rw [show (getRootDirectoryCount bigDisk).toNat = 2 by decide +kernel] at hlt
  have hf : f = 0 ∨ f = 1 := by omega
  rcases hf with rfl | rfl
  · exact wellFormedFile_of_one_cluster (by decide +kernel) (by decide +kernel) (by decide)
      (by decide +kernel) (by decide +kernel) (by decide +kernel)
  · exact absurd (show (dirEntry bigDisk 1).name.headD 0 = entryEmpty by decide +kernel) hentry

/-- The last byte of the large program is stored behind the new page, where the process
has one of its tables. -/
theorem large_program_stores_outside : WellFormedVolume bigDisk (2 ^ 23) ∧
    ∃ load k', SetupReads smallSource bigDisk freshKernel (0, 1) "TEST4.BIN" 0xffff000000400000 load ∧
      setupUvm smallSource bigDisk freshKernel (0, 1) "TEST4.BIN" = .ok (true, k') ∧
      k'.heap.mem 0xffff000000600000 = 0x58 ∧ ¬StoresInside load 0xffff000000400000 := by
  refine ⟨bigDisk_wellFormed, ?_⟩
  have hres : (setupUvm smallSource bigDisk freshKernel (0, 1) "TEST4.BIN").toOption.map
      (fun x => (x.1, x.2.heap.mem 0xffff000000600000)) = some (true, 0x58) := by decide +kernel
  match hok : setupUvm smallSource bigDisk freshKernel (0, 1) "TEST4.BIN", hres with
  | .ok (ok, k'), hres =>
    obtain ⟨hval, hbyte⟩ := Prod.mk.inj (Option.some.inj hres)
    obtain rfl : ok = true := hval
    obtain ⟨page, heap, fd, files, file, size, _, _, _, _, hpick, hmap, hopen, hsize, -⟩ :=
      setupUvm_eq hok
    have hpage : smallSource.pick freshKernel.heap.calls freshKernel.heap.inUse =
        some 0xffff000000400000 := by decide +kernel
    obtain rfl := Option.some.inj (hpick.symm.trans hpage)
    have hreads : SetupReads smallSource bigDisk freshKernel (0, 1) "TEST4.BIN" 0xffff000000400000 _ :=
      ⟨heap, fd, files, file, size, hpick, hmap, hopen, hsize, rfl⟩
    obtain ⟨f, d, hopened⟩ := counted_zeroTables.opened hopen
    rw [hopened.getFileSize] at hsize
    cases hsize
    obtain rfl : f = 0 := Option.some.inj (hopened.found.symm.trans
      (show searchFile bigDisk (cString "TEST4.BIN") = some 0 by decide +kernel))
    refine ⟨_, k', hreads, rfl, hbyte, fun hin => ?_⟩
    have hle := (hopened.storesInside_iff (bigDisk_wellFormed _ _ hopened.found) id
      fun _ _ _ => rfl).mp hin
    exact absurd hle (by decide +kernel)

end TinyMultiCore
