import TinyMultiCore.File.Model

/-!
# Files as cluster chains

What the bytes of a file are, in plain numbers: `fileByte image first k` is the
byte `k` of the file whose chain starts at the cluster `first`. `WellFormedFile`
collects what a volume has to guarantee about one file, and the address
arithmetic of `file.c`, all of it in 32 bits, is exact on such a file
(`clusterData_eq`).
-/

namespace TinyMultiCore

open ByteMemory

variable {image : Memory} {first fileSize : U32} {volume : Nat}

/-- The bytes of a cluster. -/
def clusterBytes (image : Memory) : Nat :=
  (fsBpb image).bytesPerSector.toNat * (fsBpb image).sectorsPerCluster.toNat

/-- The bytes before the first cluster: the reserved sectors, the FATs and the
root directory. -/
def dataStart (image : Memory) : Nat :=
  let p := fsBpb image
  p.reservedSectorCount.toNat * p.bytesPerSector.toNat +
    p.fatCount.toNat * p.sectorsPerFat.toNat * p.bytesPerSector.toNat +
    p.rootEntryCount.toNat * 32

/-- Where the cluster `c` is, counted from the BPB. Clusters are numbered from 2. -/
def clusterStart (image : Memory) (c : U32) : Nat :=
  dataStart image + (c.toNat - 2) * clusterBytes image

/-- The cluster `k` of the chain from `first`. -/
def chain (image : Memory) (first : U32) : Nat → U32
  | 0 => first
  | k + 1 => (getClusterValue image (chain image first k)).setWidth 32

/-- The byte `k` of the file. -/
def fileByte (image : Memory) (first : U32) (k : Nat) : BitVec 8 :=
  image (getFsBpb image + BitVec.ofNat 64
    (clusterStart image (chain image first (k / clusterBytes image)) + k % clusterBytes image))

/-- A file of `fileSize` bytes in a volume of `volume` bytes. A cluster of the chain is one of the
file's when its first byte is. Nothing is said of the chain behind these: it may end, go round in
circles, or lead to clusters that do not exist. -/
structure WellFormedFile (image : Memory) (first fileSize : U32) (volume : Nat) : Prop where
  sector_pos : (fsBpb image).bytesPerSector ≠ 0
  cluster_pos : (fsBpb image).sectorsPerCluster ≠ 0
  volume_lt : volume < 2 ^ 31
  chain_range : ∀ k, k * clusterBytes image < fileSize.toNat →
    2 ≤ (chain image first k).toNat ∧ (chain image first k).toNat < 0xfff7
  chain_inside : ∀ k, k * clusterBytes image < fileSize.toNat →
    clusterStart image (chain image first k) + clusterBytes image ≤ volume
  file_inside : fileSize.toNat ≤ volume

/-- `read_raw_data` from the first byte of a file on gets as far as storing its byte `i`. -/
def rawDataStores (image : Memory) (first size : U32) (i : Nat) : Prop :=
  i < size.toNat ∧ 0 < clusterBytes image ∧
    ∀ k ≤ i / clusterBytes image, (chain image first k).toNat < 0xfff7

instance (image : Memory) (first size : U32) (i : Nat) : Decidable (rawDataStores image first size i) :=
  inferInstanceAs (Decidable (_ ∧ _ ∧ _))

/-! ## Arithmetic -/

theorem clusterBytes_lt (image : Memory) : clusterBytes image < 2 ^ 24 := by
  have h1 := (fsBpb image).bytesPerSector.isLt
  have h2 := (fsBpb image).sectorsPerCluster.isLt
  calc clusterBytes image ≤ (2 ^ 16 - 1) * (2 ^ 8 - 1) :=
        Nat.mul_le_mul (Nat.le_sub_one_of_lt h1) (Nat.le_sub_one_of_lt h2)
    _ < 2 ^ 24 := by decide

theorem getClusterSize_toNat (image : Memory) :
    (getClusterSize image).toNat = clusterBytes image := by
  have h1 := (fsBpb image).bytesPerSector.isLt
  have h2 := (fsBpb image).sectorsPerCluster.isLt
  have hlt := clusterBytes_lt image
  unfold clusterBytes at hlt ⊢
  unfold getClusterSize
  rw [BitVec.toNat_mul, BitVec.toNat_setWidth, BitVec.toNat_setWidth,
    Nat.mod_eq_of_lt (show (fsBpb image).bytesPerSector.toNat < 2 ^ 32 by omega),
    Nat.mod_eq_of_lt (show (fsBpb image).sectorsPerCluster.toNat < 2 ^ 32 by omega)]
  exact Nat.mod_eq_of_lt (by omega)

/-- How far the position is in its cluster. -/
theorem offset_toNat (image : Memory) (p : U32) :
    (p % getClusterSize image).toNat = p.toNat % clusterBytes image := by
  rw [BitVec.toNat_umod, getClusterSize_toNat]

theorem offset_eq_zero_iff {p : U32} :
    p % getClusterSize image = 0 ↔ p.toNat % clusterBytes image = 0 := by
  rw [← offset_toNat]
  exact ⟨fun h => by rw [h]; rfl, fun h => BitVec.eq_of_toNat_eq h⟩

/-- What is taken from the first cluster: the bytes that are left in it, or all that are wanted. -/
theorem firstSize_toNat {p n : U32} (hpos : 0 < clusterBytes image)
    (hsum : p.toNat + n.toNat < 2 ^ 32) :
    (if p % getClusterSize image + n ≤ getClusterSize image then n
      else getClusterSize image - p % getClusterSize image).toNat =
      min n.toNat (clusterBytes image - p.toNat % clusterBytes image) := by
  have hcs := getClusterSize_toNat image
  have hoff := offset_toNat image p
  have hlt := Nat.mod_lt p.toNat hpos
  have hle := Nat.mod_le p.toNat (clusterBytes image)
  have hadd : (p % getClusterSize image + n).toNat = p.toNat % clusterBytes image + n.toNat := by
    rw [BitVec.toNat_add, hoff, Nat.mod_eq_of_lt (by omega)]
  split
  · rename_i hfits
    rw [BitVec.le_def, hadd, hcs] at hfits
    omega
  · rename_i hfits
    rw [BitVec.le_def, hadd, hcs] at hfits
    rw [BitVec.toNat_sub_of_le (by rw [BitVec.le_def, hoff, hcs]; omega), hoff, hcs]
    omega

theorem WellFormedFile.clusterBytes_pos (h : WellFormedFile image first fileSize volume) :
    0 < clusterBytes image := by
  have h1 := h.sector_pos
  have h2 := h.cluster_pos
  refine Nat.mul_pos (Nat.pos_of_ne_zero fun h0 => h1 ?_) (Nat.pos_of_ne_zero fun h0 => h2 ?_)
  · exact BitVec.eq_of_toNat_eq h0
  · exact BitVec.eq_of_toNat_eq h0

/-- The sums and products of `get_cluster_offset` are exact modulo `2^32`. -/
theorem getClusterOffset_eq {c : U32} (hc : 2 ≤ c.toNat) :
    getClusterOffset image c = .ok (BitVec.ofNat 32 (clusterStart image c)) := by
  have hge : c ≥ 2 := by
    rw [ge_iff_le, BitVec.le_def]
    exact hc
  have hsub : c - 2 = BitVec.ofNat 32 (c.toNat - 2) := by
    refine BitVec.eq_of_toNat_eq ?_
    rw [BitVec.toNat_sub_of_le hge, BitVec.toNat_ofNat]
    have := c.isLt
    exact (Nat.mod_eq_of_lt (by omega)).symm
  unfold getClusterOffset
  rw [show kernelAssert (c ≥ 2) = .ok () from kernelAssert_eq_ok.mpr hge, hsub]
  simp only [clusterStart, dataStart, clusterBytes, BitVec.ofNat_add, BitVec.ofNat_mul,
    BitVec.ofNat_toNat, dirEntrySize, bind, Except.bind, pure, Except.pure]
  rw [BitVec.mul_comm ((fsBpb image).bytesPerSector.setWidth 32)
    ((fsBpb image).sectorsPerCluster.setWidth 32)]
  rfl

/-- **Where `read_raw_data` finds a cluster.** -/
theorem WellFormedFile.clusterData_eq (h : WellFormedFile image first fileSize volume) {k : Nat}
    (hk : k * clusterBytes image < fileSize.toNat) :
    clusterData image (chain image first k) =
      .ok (getFsBpb image + BitVec.ofNat 64 (clusterStart image (chain image first k))) := by
  have hin := h.chain_inside k hk
  have hvol := h.volume_lt
  unfold clusterData
  rw [getClusterOffset_eq (h.chain_range k hk).1]
  simp only [bind, Except.bind, pure, Except.pure]
  rw [BitVec.add_comm]
  congr 2
  refine BitVec.eq_of_toNat_eq ?_
  simp only [BitVec.toNat_setWidth, BitVec.toNat_ofNat]
  omega

/-- The bytes that a copy from cluster `k`, from its byte `o` on, takes are the
file's. -/
theorem fileByte_of_cluster (image : Memory) (first : U32) {k o i : Nat}
    (hi : o + i < clusterBytes image) :
    image (getFsBpb image + BitVec.ofNat 64 (clusterStart image (chain image first k)) +
        BitVec.ofNat 64 o + BitVec.ofNat 64 i) =
      fileByte image first (k * clusterBytes image + o + i) := by
  have hpos : 0 < clusterBytes image := by omega
  have hdiv : (k * clusterBytes image + o + i) / clusterBytes image = k := by
    rw [Nat.add_assoc, Nat.mul_comm, Nat.mul_add_div hpos, Nat.div_eq_of_lt hi, Nat.add_zero]
  have hmod : (k * clusterBytes image + o + i) % clusterBytes image = o + i := by
    rw [Nat.add_assoc, Nat.mul_comm, Nat.mul_add_mod, Nat.mod_eq_of_lt hi]
  rw [fileByte, hdiv, hmod, BitVec.ofNat_add, BitVec.ofNat_add]
  simp only [BitVec.add_assoc]

end TinyMultiCore
