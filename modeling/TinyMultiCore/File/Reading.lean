import TinyMultiCore.File.Chain
import TinyMultiCore.Lib.Run

/-!
# `read_file`

On a well-formed file `read_raw_data` copies exactly the bytes it is asked for,
wherever in a cluster the range starts and ends:

* `readRawData_spec` — if the chain can be followed to the cluster of the position;
* `read_file_reads` — for a non-empty range inside the file, in one call or in any
  sequence of chunks.

The check for the end of the file is another matter: the sum in it wraps around,
and an empty read at the very end can follow the chain to its end mark
(`read_file_eof_iff`).
-/

namespace TinyMultiCore

open ByteMemory TransitionSystem

variable {image mem : Memory} {first fileSize : U32} {volume : Nat} {buffer : U64}

/-! ## `read_raw_data` -/

theorem skipClusters_eq_ok {n k : Nat} {c : U32} :
    skipClusters image n (chain image first k) = .ok c ↔
      (∀ j, k < j → j ≤ k + n → (chain image first j).toNat < 0xfff7) ∧
        c = chain image first (k + n) := by
  induction n generalizing k with
  | zero =>
    rw [skipClusters, Except.ok.injEq, Nat.add_zero, eq_comm, and_iff_right]
    intro j h1 h2
    omega
  | succ n ih =>
    rw [skipClusters, bind_eq_ok]
    have hnext : (getClusterValue image (chain image first k)).setWidth 32 =
      chain image first (k + 1) := rfl
    simp only [hnext, kernelAssert_eq_ok, ih, BitVec.lt_def]
    rw [show k + 1 + n = k + (n + 1) by omega]
    constructor
    · rintro ⟨-, hone, hrest, hc⟩
      refine ⟨fun j h1 h2 => ?_, hc⟩
      rcases Nat.lt_or_ge (k + 1) j with h | h
      · exact hrest j h h2
      · obtain rfl : j = k + 1 := by omega
        exact hone
    · rintro ⟨hall, hc⟩
      exact ⟨(), hall (k + 1) (by omega) (by omega), fun j h1 h2 => hall j (by omega) h2, hc⟩

/-- A copy out of the cluster `k` continues the bytes copied so far. -/
theorem memcpy_extends {p d k o : Nat} {n : U32} (hpos : p + d = k * clusterBytes image + o)
    (hin : o + n.toNat ≤ clusterBytes image) (hd : d < 2 ^ 32) :
    memcpy (blit mem buffer d fun i => fileByte image first (p + i)) (buffer + BitVec.ofNat 64 d)
        image (getFsBpb image + BitVec.ofNat 64 (clusterStart image (chain image first k)) +
          BitVec.ofNat 64 o) n =
      blit mem buffer (d + n.toNat) fun i => fileByte image first (p + i) := by
  have hn := n.isLt
  rw [memcpy, ← blit_blit _ _ (show d + n.toNat ≤ 2 ^ 64 by omega)]
  refine blit_congr fun i hi => ?_
  rw [fileByte_of_cluster image first (by omega), ← hpos, Nat.add_assoc]

/-- How far `read_raw_data` has come: the first `d` of `n` bytes from the position
`p` are in the buffer, and while any are missing, the next cluster is at hand. -/
structure Progress (image : Memory) (first : U32) (mem : Memory) (buffer : U64) (p n d : Nat)
    (r : RawRead) : Prop where
  le : d ≤ n
  readSize_eq : r.readSize.toNat = d
  buffer_eq : d < n → r.buffer = buffer + BitVec.ofNat 64 d
  mem_eq : r.mem = blit mem buffer d fun i => fileByte image first (p + i)
  index_eq : d < n → ∃ k, p + d = k * clusterBytes image ∧ r.index = chain image first k

variable (mem buffer) in
/-- The first cluster, of which the first bytes may have been read before. -/
theorem readFirst_spec (h : WellFormedFile image first fileSize volume) {p n : U32}
    (hfit : p.toNat + n.toNat ≤ fileSize.toNat) :
    ∃ d r, readFirst image (getClusterSize image) (p % getClusterSize image) n
        ⟨mem, buffer, 0, chain image first (p.toNat / clusterBytes image)⟩ = .ok r ∧
      Progress image first mem buffer p.toNat n.toNat d r := by
  have hpos := h.clusterBytes_pos
  have hsplit := Nat.div_add_mod' p.toNat (clusterBytes image)
  have hlt := Nat.mod_lt p.toNat hpos
  have hvol := h.volume_lt
  have hfile := h.file_inside
  have hoff := offset_toNat image p
  unfold readFirst
  by_cases h0 : p % getClusterSize image = 0
  · -- the position is on a cluster edge
    rw [if_neg (not_not.mpr h0)]
    rw [h0] at hoff
    refine ⟨0, _, rfl, Nat.zero_le _, rfl, fun _ => by simp, by simp, fun _ => ⟨_, ?_, rfl⟩⟩
    rw [Nat.add_zero, ← hsplit, ← hoff]
    simp [Nat.mul_div_cancel _ hpos]
  · rw [if_pos h0]
    have hne : 0 < p.toNat % clusterBytes image := Nat.pos_of_ne_zero (mt offset_eq_zero_iff.mpr h0)
    rw [h.clusterData_eq (show p.toNat / clusterBytes image * clusterBytes image <
      fileSize.toNat by omega)]
    have hsize := firstSize_toNat (p := p) (n := n) hpos (by omega)
    set readSize : U32 := if p % getClusterSize image + n ≤ getClusterSize image then n
      else getClusterSize image - p % getClusterSize image
    refine ⟨readSize.toNat, _, rfl, by omega, rfl, fun _ => ?_, ?_, fun hmore => ?_⟩
    · simp [BitVec.ofNat_toNat]
    · have hcopy : memcpy (blit mem buffer 0 fun i => fileByte image first (p.toNat + i))
          (buffer + BitVec.ofNat 64 0) image (getFsBpb image + BitVec.ofNat 64 (clusterStart image
            (chain image first (p.toNat / clusterBytes image))) +
            BitVec.ofNat 64 (p.toNat % clusterBytes image)) readSize = _ :=
        memcpy_extends (by omega) (by omega) (by decide)
      simpa [hoff, ← BitVec.ofNat_toNat] using hcopy
    · refine ⟨p.toNat / clusterBytes image + 1, ?_, rfl⟩
      rw [Nat.add_mul, Nat.one_mul]
      omega

/-- The clusters after it: each turn copies one, or what is wanted of it. -/
theorem readClusters_spec (h : WellFormedFile image first fileSize volume) {p : Nat} {n : U32}
    (hfit : p + n.toNat ≤ fileSize.toNat) :
    ∀ {fuel d : Nat} {r : RawRead}, n.toNat - d < fuel →
      Progress image first mem buffer p n.toNat d r →
      ∃ r', readClusters image (getClusterSize image) n fuel r = .ok r' ∧
        Progress image first mem buffer p n.toNat n.toNat r'
  | fuel + 1, d, r, hfuel, hr => by
    have hcs := getClusterSize_toNat image
    have hcslt := clusterBytes_lt image
    have hpos := h.clusterBytes_pos
    have hvol := h.volume_lt
    have hfile := h.file_inside
    have hle := hr.le
    have hsize := hr.readSize_eq
    rw [readClusters]
    rcases Nat.eq_or_lt_of_le hle with heq | hlt
    · -- everything is read
      have hdone : ¬ r.readSize < n := by
        rw [BitVec.lt_def]
        omega
      rw [if_neg fun hc => hdone hc.1]
      exact ⟨r, rfl, heq ▸ hr⟩
    obtain ⟨k, hk, hindex⟩ := hr.index_eq hlt
    have hrange := h.chain_range k (by omega)
    rw [if_pos (show r.readSize < n ∧ r.index < 0xfff7 by
      rw [hindex, BitVec.lt_def, BitVec.lt_def]
      exact ⟨by omega, hrange.2⟩), hindex, h.clusterData_eq (by omega)]
    have hsum : (r.readSize + getClusterSize image).toNat = d + clusterBytes image := by
      rw [BitVec.toNat_add, hsize, hcs, Nat.mod_eq_of_lt (by omega)]
    have hcopy : ∀ m : U32, m.toNat ≤ clusterBytes image →
        memcpy r.mem r.buffer image (getFsBpb image +
          BitVec.ofNat 64 (clusterStart image (chain image first k))) m =
        blit mem buffer (d + m.toNat) fun i => fileByte image first (p + i) := by
      intro m hm
      have hext : memcpy (blit mem buffer d fun i => fileByte image first (p + i))
          (buffer + BitVec.ofNat 64 d) image (getFsBpb image + BitVec.ofNat 64 (clusterStart image
            (chain image first k)) + BitVec.ofNat 64 0) m = _ :=
        memcpy_extends hk (by omega) (by omega)
      rw [hr.mem_eq, hr.buffer_eq hlt]
      simpa using hext
    by_cases hlast : r.readSize + getClusterSize image ≥ n
    · -- the last cluster
      simp only [bind, Except.bind, if_pos hlast]
      rw [ge_iff_le, BitVec.le_def, hsum] at hlast
      have hrest : (n - r.readSize).toNat = n.toNat - d := by
        rw [BitVec.toNat_sub_of_le (by rw [BitVec.le_def]; omega), hsize]
      refine ⟨_, rfl, le_rfl, rfl, fun hmore => absurd hmore (lt_irrefl _), ?_,
        fun hmore => absurd hmore (lt_irrefl _)⟩
      show memcpy _ _ _ _ _ = _
      rw [hcopy _ (by omega), hrest, Nat.add_sub_cancel' hle]
    · simp only [bind, Except.bind, if_neg hlast]
      rw [ge_iff_le, BitVec.le_def, hsum, not_le] at hlast
      refine readClusters_spec h hfit (show n.toNat - (d + clusterBytes image) < fuel by omega)
        ⟨by omega, hsum, fun _ => ?_, ?_, fun _ => ⟨k + 1, ?_, rfl⟩⟩
      · show r.buffer + _ = _
        rw [hr.buffer_eq hlt, BitVec.add_assoc, BitVec.ofNat_add, ← hcs, BitVec.ofNat_toNat]
      · show memcpy _ _ _ _ _ = _
        rw [hcopy _ (by omega), hcs]
      · rw [Nat.add_mul, Nat.one_mul]
        omega

/-- The chain can be followed to the cluster of the position `p`. -/
def Reaches (image : Memory) (first : U32) (p : Nat) : Prop :=
  ∀ k, 0 < k → k ≤ p / clusterBytes image → (chain image first k).toNat < 0xfff7

/-- **`read_raw_data`** on a range inside the file returns exactly when the chain
can be followed to the position, and then with all of the range. The three parts of the function
follow each other: clusters that are skipped, the rest of the first one, and whole clusters. -/
theorem readRawData_spec (h : WellFormedFile image first fileSize volume) {p n : U32}
    (hfit : p.toNat + n.toNat ≤ fileSize.toNat) (hreach : Reaches image first p.toNat) :
    readRawData image first mem buffer p n =
      .ok (n, blit mem buffer n.toNat fun i => fileByte image first (p.toNat + i)) := by
  have hcount : (p / getClusterSize image).toNat = p.toNat / clusterBytes image := by
    rw [BitVec.toNat_udiv, getClusterSize_toNat]
  have hskip : skipClusters image (p.toNat / clusterBytes image) first =
      .ok (chain image first (p.toNat / clusterBytes image)) := by
    rw [show first = chain image first 0 from rfl, skipClusters_eq_ok, Nat.zero_add]
    exact ⟨hreach, rfl⟩
  obtain ⟨d, r, hfirst, hr⟩ := readFirst_spec mem buffer h hfit
  obtain ⟨r', hloop, hr'⟩ := readClusters_spec h hfit
    (show n.toNat - d < readBound by unfold readBound; omega) hr
  rw [readRawData, hcount, hskip]
  simp only [bind, Except.bind, hfirst, hloop, hr'.mem_eq]
  rw [BitVec.eq_of_toNat_eq hr'.readSize_eq]
  rfl

theorem readRawData_reaches {p n : U32} {x : U32 × Memory}
    (hok : readRawData image first mem buffer p n = .ok x) : Reaches image first p.toNat := by
  have hcount : (p / getClusterSize image).toNat = p.toNat / clusterBytes image := by
    rw [BitVec.toNat_udiv, getClusterSize_toNat]
  rw [readRawData, hcount] at hok
  obtain ⟨c, hskip, -⟩ := bind_eq_ok.mp hok
  rw [show first = chain image first 0 from rfl, skipClusters_eq_ok, Nat.zero_add] at hskip
  exact hskip.1

/-- Up to the last byte of the file the chain can be followed. -/
theorem WellFormedFile.reaches (h : WellFormedFile image first fileSize volume) {p : Nat}
    (hp : p < fileSize.toNat) : Reaches image first p := by
  intro k _ hk
  have hle := Nat.mul_le_of_le_div _ _ _ hk
  exact (h.chain_range k (by omega)).2

/-! ## `read_file` -/

/-- The slot `fd` holds the descriptor `d`, which is open on the FCB `f`. -/
structure OpenAt (t : FileTables) (file : FileSlots) (fd d f : Nat) : Prop where
  slot : file fd = some d
  fcb : (t.desc d).fcb = some f

variable {t : FileTables} {file : FileSlots} {fd d f : Nat}

@[simp] theorem advance_fcb (t : FileTables) (d : Nat) (n : U32) : (t.advance d n).fcb = t.fcb := rfl

theorem advance_desc (t : FileTables) (d e : Nat) (n : U32) : (t.advance d n).desc e =
    if e = d then { t.desc d with position := (t.desc d).position + n } else t.desc e := by
  simp [FileTables.advance, FileTables.setDesc, Function.update_apply]

@[simp] theorem advance_desc_fcb (t : FileTables) (d e : Nat) (n : U32) :
    ((t.advance d n).desc e).fcb = (t.desc e).fcb := by
  rw [advance_desc]
  split <;> simp_all

theorem advance_position (t : FileTables) (d : Nat) (n : U32) :
    ((t.advance d n).desc d).position = (t.desc d).position + n := by
  rw [advance_desc, if_pos rfl]

theorem advance_zero (t : FileTables) (d : Nat) : t.advance d 0 = t := by
  simp [FileTables.advance, FileTables.setDesc]

theorem advance_advance (t : FileTables) (d : Nat) (n m : U32) :
    (t.advance d n).advance d m = t.advance d (n + m) := by
  simp [FileTables.advance, FileTables.setDesc, BitVec.add_assoc]

theorem OpenAt.advance (h : OpenAt t file fd d f) (e : Nat) (n : U32) :
    OpenAt (t.advance e n) file fd d f := ⟨h.slot, by rw [advance_desc_fcb, h.fcb]⟩

theorem readFile_eq (h : OpenAt t file fd d f) {n : U32} :
    readFile image t file fd mem buffer n =
      if (t.desc d).position + n > (t.fcb f).fileSize then .ok (readFailed, t, mem)
      else (readRawData image (t.fcb f).clusterIndex mem buffer (t.desc d).position n).map
        fun x => (x.1, t.advance d x.1, x.2) := by
  rw [readFile, h.slot]
  simp only [deref, bind, Except.bind, h.fcb]
  split
  · rfl
  · cases readRawData image (t.fcb f).clusterIndex mem buffer (t.desc d).position n <;> rfl

/-- A range inside the file, at a position that can be reached. -/
theorem readFile_spec (ho : OpenAt t file fd d f)
    (hwf : WellFormedFile image (t.fcb f).clusterIndex (t.fcb f).fileSize volume) {n : U32}
    (hfit : (t.desc d).position.toNat + n.toNat ≤ (t.fcb f).fileSize.toNat)
    (hreach : Reaches image (t.fcb f).clusterIndex (t.desc d).position.toNat) :
    readFile image t file fd mem buffer n =
      .ok (n, t.advance d n, blit mem buffer n.toNat fun i =>
        fileByte image (t.fcb f).clusterIndex ((t.desc d).position.toNat + i)) := by
  have hvol := hwf.volume_lt
  have hfile := hwf.file_inside
  have hin : ¬ (t.desc d).position + n > (t.fcb f).fileSize := by
    rw [gt_iff_lt, BitVec.lt_def, BitVec.toNat_add, Nat.mod_eq_of_lt (by omega)]
    omega
  rw [readFile_eq ho, if_neg hin, readRawData_spec hwf hfit hreach]
  rfl

/-- Calls of `read_file` one after the other, each into the part of the buffer
behind the one before; with what they return. -/
def readChunks (image : Memory) (file : FileSlots) (fd : Nat) :
    FileTables → Memory → U64 → List U32 → Except Halt (List U32 × FileTables × Memory)
  | t, mem, _, [] => .ok ([], t, mem)
  | t, mem, buffer, n :: ns => do
    let (r, t, mem) ← readFile image t file fd mem buffer n
    let (rs, t, mem) ← readChunks image file fd t mem (buffer + n.setWidth 64) ns
    return (r :: rs, t, mem)

theorem readChunks_spec : ∀ {ns : List U32} {t : FileTables} {mem : Memory} {buffer : U64},
    OpenAt t file fd d f →
    WellFormedFile image (t.fcb f).clusterIndex (t.fcb f).fileSize volume → (∀ n ∈ ns, n ≠ 0) →
    (t.desc d).position.toNat + (ns.map BitVec.toNat).sum ≤ (t.fcb f).fileSize.toNat →
    readChunks image file fd t mem buffer ns =
      .ok (ns, t.advance d (BitVec.ofNat 32 (ns.map BitVec.toNat).sum),
        blit mem buffer (ns.map BitVec.toNat).sum fun i =>
          fileByte image (t.fcb f).clusterIndex ((t.desc d).position.toNat + i))
  | [], t, mem, buffer, _, _, _, _ => by
    simp only [readChunks, List.map_nil, List.sum_nil, blit_zero]
    rw [show BitVec.ofNat 32 0 = 0 from rfl, advance_zero]
  | n :: ns, t, mem, buffer, ho, hwf, hne, hfit => by
    rw [List.map_cons, List.sum_cons] at hfit ⊢
    have hvol := hwf.volume_lt
    have hfile := hwf.file_inside
    have hn : 0 < n.toNat := by
      refine Nat.pos_of_ne_zero fun h0 => hne n List.mem_cons_self ?_
      exact BitVec.eq_of_toNat_eq h0
    have hpos : ((t.advance d n).desc d).position.toNat = (t.desc d).position.toNat + n.toNat := by
      rw [advance_position, BitVec.toNat_add, Nat.mod_eq_of_lt (by omega)]
    have hrest : ∀ m b, readChunks image file fd (t.advance d n) m b ns =
        .ok (ns, (t.advance d n).advance d (BitVec.ofNat 32 (ns.map BitVec.toNat).sum),
          blit m b (ns.map BitVec.toNat).sum fun i => fileByte image (t.fcb f).clusterIndex
            (((t.advance d n).desc d).position.toNat + i)) := by
      intro m b
      refine readChunks_spec (ho.advance d n) hwf (fun x hx => hne x (List.mem_cons_of_mem n hx)) ?_
      rw [hpos, advance_fcb]
      omega
    rw [readChunks, readFile_spec ho hwf (by omega) (hwf.reaches (by omega))]
    simp only [bind, Except.bind, hrest, hpos, advance_advance]
    rw [BitVec.ofNat_add, BitVec.ofNat_toNat, BitVec.setWidth_eq,
      ← blit_blit mem buffer (show n.toNat + (ns.map BitVec.toNat).sum ≤ 2 ^ 64 by omega)]
    simp only [Nat.add_assoc, ← BitVec.ofNat_toNat]
    rfl

/-- **Reading a file.** Every non-empty range inside a well-formed file is read:
`read_file` returns its size, puts exactly its bytes in the buffer, and moves the
position behind it. Read in chunks, the range gives the same bytes. -/
theorem read_file_reads (ho : OpenAt t file fd d f)
    (hwf : WellFormedFile image (t.fcb f).clusterIndex (t.fcb f).fileSize volume)
    (mem : Memory) (buffer : U64) :
    (∀ n : U32, n ≠ 0 → (t.desc d).position.toNat + n.toNat ≤ (t.fcb f).fileSize.toNat →
      readFile image t file fd mem buffer n = .ok (n, t.advance d n, blit mem buffer n.toNat
        fun i => fileByte image (t.fcb f).clusterIndex ((t.desc d).position.toNat + i)) ∧
      ((t.advance d n).desc d).position.toNat = (t.desc d).position.toNat + n.toNat) ∧
    ∀ ns : List U32, (∀ n ∈ ns, n ≠ 0) →
      (t.desc d).position.toNat + (ns.map BitVec.toNat).sum ≤ (t.fcb f).fileSize.toNat →
      readChunks image file fd t mem buffer ns =
        .ok (ns, t.advance d (BitVec.ofNat 32 (ns.map BitVec.toNat).sum),
          blit mem buffer (ns.map BitVec.toNat).sum fun i =>
            fileByte image (t.fcb f).clusterIndex ((t.desc d).position.toNat + i)) := by
  refine ⟨fun n hn hfit => ⟨?_, ?_⟩, fun ns hns hfit => readChunks_spec ho hwf hns hfit⟩
  · have hpos : 0 < n.toNat := by
      refine Nat.pos_of_ne_zero fun h0 => hn ?_
      exact BitVec.eq_of_toNat_eq h0
    exact readFile_spec ho hwf hfit (hwf.reaches (by omega))
  · have hvol := hwf.volume_lt
    have hfile := hwf.file_inside
    rw [advance_position, BitVec.toNat_add, Nat.mod_eq_of_lt (by omega)]

/-- A volume of eight 512-byte sectors, with one sector to the cluster: the BPB, one
FAT, no root directory. The cluster 2 is the last of its chain. -/
def tinyImage : Memory := fun x =>
  if x = fsBase + 12 then 2
  else if x = fsBase + 13 ∨ x = fsBase + 14 ∨ x = fsBase + 16 ∨ x = fsBase + 22 then 1
  else if x = fsBase + 516 ∨ x = fsBase + 517 then 0xff
  else 0

/-- A file of `size` bytes in the cluster 2, open in every descriptor at `position`. -/
def tinyTables (size position : U32) : FileTables where
  fcb _ := ⟨[], [], 2, 0, size, 1⟩
  desc _ := ⟨some 0, position, 1⟩

theorem tinyImage_wellFormed {size : U32} (h : size.toNat ≤ 512) :
    WellFormedFile tinyImage 2 size 4096 := by
  have hcs : clusterBytes tinyImage = 512 := by decide +kernel
  have hchain : ∀ k, k * clusterBytes tinyImage < size.toNat → k = 0 := by
    intro k hk
    rw [hcs] at hk
    omega
  refine ⟨by decide +kernel, by decide +kernel, by decide, fun k hk => ?_, fun k hk => ?_, by omega⟩
  · obtain rfl := hchain k hk
    exact ⟨by decide, by decide⟩
  · obtain rfl := hchain k hk
    decide +kernel

theorem tinyTables_openAt (size position : U32) :
    OpenAt (tinyTables size position) (fun _ => some 0) 3 0 0 := ⟨rfl, rfl⟩

/-- The same volume with a file of two clusters, 2 and then 3, and a byte at the start of
the second. -/
def chainedImage : Memory := fun x =>
  if x = fsBase + 516 then 3
  else if x = fsBase + 517 then 0
  else if x = fsBase + 518 ∨ x = fsBase + 519 then 0xff
  else if x = fsBase + 1536 then 7
  else tinyImage x

theorem chainedImage_wellFormed : WellFormedFile chainedImage 2 600 4096 := by
  have hcs : clusterBytes chainedImage = 512 := by decide +kernel
  have hchain : ∀ k, k * clusterBytes chainedImage < (600 : U32).toNat → k = 0 ∨ k = 1 := by
    intro k hk
    rw [hcs, show (600 : U32).toNat = 600 by decide] at hk
    omega
  refine ⟨by decide +kernel, by decide +kernel, by decide, fun k hk => ?_, fun k hk => ?_,
    by decide⟩
  · rcases hchain k hk with rfl | rfl
    · decide +kernel
    · decide +kernel
  · rcases hchain k hk with rfl | rfl
    · decide +kernel
    · decide +kernel

/-- A read that starts inside the first cluster of a file and ends in the second. -/
theorem read_across_clusters : ∃ t mem, readFile chainedImage (tinyTables 600 500)
      (fun _ => some 0) 3 (fun _ => 0) 0x400000 100 = .ok (100, t, mem) ∧
    (t.desc 0).position.toNat = 600 ∧ mem 0x40000b = 0 ∧ mem 0x40000c = 7 := by
  obtain ⟨hok, hmoved⟩ := (read_file_reads (tinyTables_openAt 600 500) chainedImage_wellFormed
    (fun _ => 0) 0x400000).1 100 (by decide) (by decide)
  exact ⟨_, _, hok, hmoved, by decide +kernel, by decide +kernel⟩

end TinyMultiCore
