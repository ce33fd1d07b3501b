import TinyMultiCore.File.Loading
import TinyMultiCore.File.References
import TinyMultiCore.Process.Creation
import TinyMultiCore.Process.SetupUvm

/-!
# Opening, reading and closing a program

The two loaders, `setup_uvm` and `exec`, open a file, read all of it to one page, and
close it again. `Opened` is what they have opened, in terms of the directory.

* `setupUvm_mapped`, `exec_opened` — the two functions from their `read_file` on;
* `Counted.load` — the counts are those of before;
* `Fits.exec` — what `exec` does with a program that fits into the page.
-/

namespace TinyMultiCore

open ByteMemory

variable {K : KernelImage} {src : FrameSource K} {image mem mem' : Memory} {k k' : Kernel} {c : Core}
  {r : ProcRef} {t files files' : FileTables} {file file' : FileSlots} {refs : Nat → Nat}
  {fd d f : Nat} {path : Nat → BitVec 8} {n size : U32} {page buffer : U64}
  {program : String}

-- ---------------------------------------------------------------------------
-- An opened file
-- ---------------------------------------------------------------------------

/-- The first cluster of the file with the directory entry `f`. -/
def firstCluster (image : Memory) (f : Nat) : U32 := (dirEntry image f).clusterIndex.setWidth 32

/-- The slot `fd` holds the descriptor `d`, which has just been opened on the file with
the directory entry `f`. -/
structure Opened (image : Memory) (path : Nat → BitVec 8) (f d : Nat) (files : FileTables)
    (file : FileSlots) (fd : Nat) : Prop where
  found : searchFile image path = some f
  openAt : OpenAt files file fd d f
  position : (files.desc d).position = 0
  entry : OfEntry image f (files.fcb f)

theorem Counted.opened (h : Counted image t refs)
    (hopen : TinyMultiCore.openFile image t file path = some (fd, files, file')) :
    ∃ f d, Opened image path f d files file' fd := by
  obtain ⟨-, -, d', h0, hfile, hcounted⟩ := h.openFile hopen
  unfold TinyMultiCore.openFile at hopen
  obtain ⟨fd', hfd, hopen⟩ := Option.bind_eq_some_iff.mp hopen
  obtain ⟨d, hd, hopen⟩ := Option.bind_eq_some_iff.mp hopen
  obtain ⟨f, hfound, hopen⟩ := Option.bind_eq_some_iff.mp hopen
  cases hopen
  have hdesc : ∀ t : FileTables, ∀ x, (t.setDesc d x).desc d = x := fun t x =>
    Function.update_self ..
  refine ⟨f, d, hfound, ⟨Function.update_self .., by rw [hdesc]⟩, by rw [hdesc], ?_⟩
  exact hcounted.entry f (hcounted.fcb_pos (d := d) (by rw [hdesc])).2

namespace Opened

variable (h : Opened image path f d files file fd)
include h

theorem getFileSize : getFileSize files file fd = .ok (dirEntry image f).fileSize := by
  unfold TinyMultiCore.getFileSize
  rw [h.openAt.slot, show deref (some d) = .ok d from rfl, ok_bind, h.openAt.fcb,
    show deref (some f) = .ok f from rfl, ok_bind, h.entry.fileSize]
  rfl

theorem fileStores (i : Nat) : fileStores image files file fd i =
    .ok (decide (rawDataStores image (firstCluster image f) (dirEntry image f).fileSize i)) := by
  unfold TinyMultiCore.fileStores
  rw [h.openAt.slot, show deref (some d) = .ok d from rfl, ok_bind, h.openAt.fcb,
    show deref (some f) = .ok f from rfl, ok_bind, h.entry.fileSize, h.entry.clusterIndex]
  rfl

/-- Reading all of it. -/
theorem readFile_iff : readFile image files file fd mem buffer (dirEntry image f).fileSize =
      .ok (n, files', mem') ↔
    readRawData image (firstCluster image f) mem buffer 0 (dirEntry image f).fileSize =
      .ok (n, mem') ∧ files' = files.advance d n := by
  rw [readFile_eq h.openAt, h.position, h.entry.fileSize, h.entry.clusterIndex,
    if_neg (show ¬0 + (dirEntry image f).fileSize > (dirEntry image f).fileSize by simp)]
  show Except.map _ (readRawData image (firstCluster image f) mem buffer 0 _) = _ ↔ _
  cases readRawData image (firstCluster image f) mem buffer 0 (dirEntry image f).fileSize with
  | error e => exact ⟨fun he => (by cases he), fun he => (by cases he.1)⟩
  | ok x =>
    obtain ⟨n', m'⟩ := x
    show Except.ok (n', files.advance d n', m') = _ ↔ _
    constructor
    · intro he
      cases he
      exact ⟨rfl, rfl⟩
    · rintro ⟨he, rfl⟩
      cases he
      rfl

/-- When nothing is stored behind the page, nothing outside it is. -/
theorem readFile_inside (hfits : ¬ rawDataStores image (firstCluster image f)
      (dirEntry image f).fileSize (2 ^ 21))
    (hread : readFile image files file fd mem buffer (dirEntry image f).fileSize =
      .ok (n, files', mem')) {x : U64} (hx : 2 ^ 21 ≤ (x - buffer).toNat) : mem' x = mem x := by
  obtain ⟨hread, -⟩ := h.readFile_iff.mp hread
  obtain ⟨hmem, -⟩ := readWhole_cases (noWrap_of_not_stores (by decide) hfits) hread
  have hle := readWhole_le (by decide) hfits hread
  rw [hmem]
  exact if_neg (by omega)

end Opened

-- ---------------------------------------------------------------------------
-- The calls of `read_file`
-- ---------------------------------------------------------------------------

/-- **`setup_uvm`** from its `read_file` on. -/
theorem setupUvm_mapped {heap : Heap} (hpick : src.pick k.heap.calls k.heap.inUse = some page)
    (hmap : mapPage src (k.heap.withFrame page) (k.table r).pageMap userBase (v2p page) userAttr =
      .ok (true, heap))
    (hopen : openFile image k.files (k.table r).file (cString program) = some (fd, files, file))
    (hsize : getFileSize files file fd = .ok size) :
    setupUvm src image k r program = (do
      let (n, files', mem) ← readFile image files file fd heap.mem page size
      if n ≠ size then
        let heap ← freeVm src { heap with mem } (k.table r).pageMap
        return (false, { k.setProcess r { k.table r with file } with heap, files := files' })
      else
        let (files, file) ← closeFile files' file fd
        return (true, { k.setProcess r { k.table r with file } with
          heap := { heap with mem }, files })) := by
  have hpage := (src.fresh hpick).1.ne_zero
  unfold setupUvm
  rw [Heap.kalloc_eq hpick]
  dsimp only
  rw [if_pos hpage, Forest.memsetPage_withFrame, hmap, ok_bind]
  dsimp only
  rw [if_pos rfl, hopen]
  dsimp only
  rw [hsize, ok_bind]

/-- **`exec`** from its `read_file` on. -/
theorem exec_opened (hopen : openFile image k.files (k.table r).file path = some (fd, files, file))
    (hpage : userAccess k c userBase = .ok page) (hsize : getFileSize files file fd = .ok size) :
    exec image k c r path = (do
      let behind ← fileStores image files file fd pageSize.toNat
      if behind then .error .fault
      else
        let (n, files', mem) ← readFile image files file fd (zeroPage k.heap.mem page) page size
        if n = readFailed then
          return (false, { k.setProcess r { k.table r with file } with
            files := files', heap := { k.heap with mem } })
        else
          let (files, file) ← closeFile files' file fd
          return (true, { k.setProcess r { k.table r with file } with
            files
            heap := { k.heap with
              mem := enterAtBase (blit mem (k.table r).tf trapFrameSize.toNat fun _ => 0)
                (k.table r).tf } })) := by
  unfold exec
  dsimp only
  rw [hopen]
  dsimp only
  rw [hpage, ok_bind, hsize, ok_bind]

/-- The slots and all counts are those of before. -/
structure FilesAsBefore (t t' : FileTables) (file file' : FileSlots) : Prop where
  slots : file' = file
  desc : ∀ d, (t'.desc d).count = (t.desc d).count
  fcb : ∀ f, (t'.fcb f).count = (t.fcb f).count

theorem openFile_fcb (hopen : openFile image t file path = some (fd, files, file')) (g : Nat) :
    (files.fcb g).count = (t.fcb g).count + if searchFile image path = some g then 1 else 0 := by
  unfold openFile at hopen
  obtain ⟨fd', -, hopen⟩ := Option.bind_eq_some_iff.mp hopen
  obtain ⟨d, -, hopen⟩ := Option.bind_eq_some_iff.mp hopen
  obtain ⟨f, hfound, hopen⟩ := Option.bind_eq_some_iff.mp hopen
  cases hopen
  show ((Function.update t.fcb f _) g).count = _
  rw [hfound]
  by_cases hg : g = f
  · rw [hg, Function.update_self, if_pos rfl]
    split <;> rfl
  · rw [Function.update_of_ne hg, if_neg fun he => hg (Option.some.inj he).symm, Int.add_zero]

theorem closeFile_fcb (ho : OpenAt t file fd d f) (hclose : closeFile t file fd = .ok (files, file'))
    (g : Nat) : (files.fcb g).count = (t.fcb g).count - if g = f then 1 else 0 := by
  unfold closeFile putFcb at hclose
  rw [ho.slot, show deref (some d) = .ok d from rfl, ok_bind, ho.fcb,
    show deref (some f) = .ok f from rfl, ok_bind] at hclose
  obtain ⟨t', hput, hclose⟩ := bind_eq_ok.mp hclose
  obtain ⟨_, -, hput⟩ := bind_eq_ok.mp hput
  cases hput
  cases hclose
  show ((Function.update t.fcb f _) g).count = _
  by_cases hg : g = f
  · rw [hg, Function.update_self, if_pos rfl]
  · rw [Function.update_of_ne hg, if_neg hg, Int.sub_zero]

/-- **Open, read, close**: `close_file` succeeds, and the files are as before. The slot and the
descriptor that were taken are free again, and the FCB has the count it had. -/
theorem Counted.load (h : Counted image t refs)
    (hopen : TinyMultiCore.openFile image t file path = some (fd, files, file'))
    (hopened : Opened image path f d files file' fd)
    (hread : readRawData image (firstCluster image f) mem buffer 0 (dirEntry image f).fileSize =
      .ok (n, mem')) :
    TinyMultiCore.readFile image files file' fd mem buffer (dirEntry image f).fileSize =
        .ok (n, files.advance d n, mem') ∧
      ∃ files₂, TinyMultiCore.closeFile (files.advance d n) file' fd = .ok (files₂, file) ∧
        FilesAsBefore t files₂ file file := by
  have hreadFile : TinyMultiCore.readFile image files file' fd mem buffer
      (dirEntry image f).fileSize = .ok (n, files.advance d n, mem') :=
    hopened.readFile_iff.mpr ⟨hread, rfl⟩
  obtain ⟨files₂, hclose, hcounted⟩ := h.loaded hopen hreadFile
  refine ⟨hreadFile, files₂, hclose, rfl, fun e => ?_, fun g => ?_⟩
  · rw [hcounted.count, h.count]
  · rw [closeFile_fcb (hopened.openAt.advance d n) hclose, advance_fcb, openFile_fcb hopen,
      hopened.found]
    by_cases hg : g = f
    · rw [if_pos hg, if_pos (by rw [hg]), Int.add_sub_cancel]
    · rw [if_neg hg, if_neg fun he => hg (Option.some.inj he).symm, Int.add_zero, Int.sub_zero]

/-- A program of one page that has all of its clusters. -/
structure Fits (image : Memory) (f : Nat) : Prop where
  size_le : (dirEntry image f).fileSize.toNat ≤ 2 ^ 21
  covers : Covers image (firstCluster image f) (dirEntry image f).fileSize.toNat

theorem Fits.not_stores (h : Fits image f) :
    ¬rawDataStores image (firstCluster image f) (dirEntry image f).fileSize (2 ^ 21) :=
  fun hs => absurd hs.1 (Nat.not_lt.mpr h.size_le)

variable (mem buffer) in
theorem Fits.readWhole (h : Fits image f) :
    readRawData image (firstCluster image f) mem buffer 0 (dirEntry image f).fileSize =
      .ok ((dirEntry image f).fileSize, blit mem buffer (dirEntry image f).fileSize.toNat
        (chainByte image (firstCluster image f))) :=
  readWhole_covered (noWrap_of_not_stores (by decide) h.not_stores) h.covers

/-- The memory of `exec` when the program is in place and the trap frame is set up. -/
def execMemory (image : Memory) (mem : Memory) (page tf : U64) (f : Nat) : Memory :=
  enterAtBase (blit (blit (zeroPage mem page) page (dirEntry image f).fileSize.toNat
    (chainByte image (firstCluster image f))) tf trapFrameSize.toNat fun _ => 0) tf

/-- **`exec`** of a program that fits returns. -/
theorem Fits.exec (h : Fits image f) (hcounted : Counted image k.files refs)
    (hfound : searchFile image path = some f)
    (hopen : openFile image k.files (k.table r).file path = some (fd, files, file))
    (hpage : userAccess k c userBase = .ok page) :
    ∃ files₂, FilesAsBefore k.files files₂ (k.table r).file (k.table r).file ∧
      TinyMultiCore.exec image k c r path = .ok (true, { k with
        files := files₂
        heap := { k.heap with mem := execMemory image k.heap.mem page (k.table r).tf f } }) := by
  obtain ⟨f', d, hopened⟩ := hcounted.opened hopen
  obtain rfl := Option.some.inj (hopened.found.symm.trans hfound)
  obtain ⟨hread, files₂, hclose, hsame⟩ := hcounted.load hopen hopened
    (h.readWhole (zeroPage k.heap.mem page) page)
  refine ⟨files₂, hsame, ?_⟩
  have hne : (dirEntry image f').fileSize ≠ readFailed := by
    intro he
    have hle := h.size_le
    rw [he] at hle
    exact absurd hle (by decide)
  rw [exec_opened hopen hpage hopened.getFileSize, hopened.fileStores, ok_bind,
    decide_eq_false (show ¬rawDataStores image _ _ pageSize.toNat from h.not_stores)]
  dsimp only
  rw [if_neg Bool.false_ne_true, hread, ok_bind]
  dsimp only
  rw [if_neg hne, hclose, ok_bind]
  simp only [Kernel.setProcess, Function.update_eq_self]
  rfl

end TinyMultiCore
