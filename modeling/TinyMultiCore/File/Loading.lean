import TinyMultiCore.File.Reading

/-!
# Whole files

The loaders read a file from its first byte on, in one call. On any image, whatever its
chains look like, `read_raw_data` then does one of three things: it copies the file
cluster by cluster to its end, it stops at an end mark in the chain, or it does not
return. `readWhole_cases` says which, as long as the 32-bit sums do not wrap around;
`noWrap_of_not_stores` that they do not when nothing is stored behind a page.
-/

namespace TinyMultiCore

open ByteMemory

variable {image mem mem' : Memory} {first size n : U32} {buffer : U64} {k fuel : Nat}
  {r r' : RawRead}

/-- Where `read_raw_data` finds the cluster `index`. -/
def clusterAddr (image : Memory) (index : U32) : U64 :=
  match clusterData image index with
  | .ok data => data
  | .error _ => 0

/-- The byte `i` of the file, as the address arithmetic of `file.c` finds it. -/
def chainByte (image : Memory) (first : U32) (i : Nat) : BitVec 8 :=
  image (clusterAddr image (chain image first (i / clusterBytes image)) +
    BitVec.ofNat 64 (i % clusterBytes image))

theorem chainByte_of_cluster (image : Memory) (first : U32) {i : Nat} (hi : i < clusterBytes image) :
    chainByte image first (k * clusterBytes image + i) =
      image (clusterAddr image (chain image first k) + BitVec.ofNat 64 i) := by
  have hpos : 0 < clusterBytes image := by omega
  have hdiv : (k * clusterBytes image + i) / clusterBytes image = k := by
    rw [Nat.mul_comm, Nat.mul_add_div hpos, Nat.div_eq_of_lt hi, Nat.add_zero]
  have hmod : (k * clusterBytes image + i) % clusterBytes image = i := by
    rw [Nat.mul_comm, Nat.mul_add_mod, Nat.mod_eq_of_lt hi]
  rw [chainByte, hdiv, hmod]

/-- The cluster `k` of the chain is one that `read_raw_data` reads. -/
def Readable (image : Memory) (first : U32) (k : Nat) : Prop :=
  2 ≤ (chain image first k).toNat ∧ (chain image first k).toNat < 0xfff7

/-- The chain has a cluster for each of the first `n` bytes. -/
def Covers (image : Memory) (first : U32) (n : Nat) : Prop :=
  (n = 0 ∨ 0 < clusterBytes image) ∧ ∀ k, k * clusterBytes image < n → Readable image first k

theorem clusterData_le {index : U32} {data : U64} (hok : clusterData image index = .ok data) :
    2 ≤ index.toNat ∧ data = clusterAddr image index := by
  constructor
  · unfold clusterData getClusterOffset at hok
    obtain ⟨offset, hoffset, -⟩ := bind_eq_ok.mp hok
    obtain ⟨_, hge, -⟩ := bind_eq_ok.mp hoffset
    have hge := kernelAssert_eq_ok.mp hge
    rw [ge_iff_le, BitVec.le_def] at hge
    exact hge
  · rw [clusterAddr, hok]

theorem clusterData_ok {index : U32} (h : 2 ≤ index.toNat) :
    clusterData image index = .ok (clusterAddr image index) := by
  have hge : index ≥ 2 := by
    rw [ge_iff_le, BitVec.le_def]
    exact h
  have hok : ∃ data, clusterData image index = .ok data := by
    unfold clusterData getClusterOffset
    rw [kernelAssert_pos hge]
    exact ⟨_, rfl⟩
  obtain ⟨data, hdata⟩ := hok
  rw [clusterAddr, hdata]

-- ---------------------------------------------------------------------------
-- The loop
-- ---------------------------------------------------------------------------

/-- `read_raw_data` has copied `k` clusters. -/
structure LoadLoop (image : Memory) (first size : U32) (mem : Memory) (buffer : U64) (k : Nat)
    (r : RawRead) : Prop where
  le : k * clusterBytes image ≤ size.toNat
  readSize_eq : r.readSize.toNat = k * clusterBytes image
  buffer_eq : r.buffer = buffer + BitVec.ofNat 64 (k * clusterBytes image)
  mem_eq : r.mem = blit mem buffer (k * clusterBytes image) (chainByte image first)
  index_eq : r.index = chain image first k

/-- As long as the loop goes on, `read_size + cluster_size` does not wrap around. -/
def NoWrap (image : Memory) (first size : U32) : Prop :=
  ∀ k, (∀ j ≤ k, (chain image first j).toNat < 0xfff7) → k * clusterBytes image < size.toNat →
    (k + 1) * clusterBytes image < 2 ^ 32

/-- One more copy out of the cluster `k`. -/
theorem LoadLoop.copy (hr : LoadLoop image first size mem buffer k r) {m : U32}
    (hm : m.toNat ≤ clusterBytes image) :
    memcpy r.mem r.buffer image (clusterAddr image (chain image first k)) m =
      blit mem buffer (k * clusterBytes image + m.toNat) (chainByte image first) := by
  have hle := hr.le
  have hsize := size.isLt
  have hlt := m.isLt
  rw [memcpy, hr.mem_eq, hr.buffer_eq,
    ← blit_blit _ _ (show k * clusterBytes image + m.toNat ≤ 2 ^ 64 by omega)]
  exact blit_congr fun i hi => (chainByte_of_cluster image first (by omega)).symm

/-- How the loop ends: the file has been read, or the chain was too short. -/
structure LoadEnd (image : Memory) (first size : U32) (mem : Memory) (buffer : U64) (k n : Nat)
    (mem' : Memory) : Prop where
  mem_eq : mem' = blit mem buffer n (chainByte image first)
  outcome : (n = size.toNat ∧ (k * clusterBytes image = size.toNat ∨ 0 < clusterBytes image) ∧
      ∀ j, k ≤ j → j * clusterBytes image < size.toNat → Readable image first j) ∨
    ∃ m, k ≤ m ∧ n = m * clusterBytes image ∧ n < size.toNat ∧
      0xfff7 ≤ (chain image first m).toNat ∧ ∀ j, k ≤ j → j < m → Readable image first j

theorem readClusters_cases (hnw : NoWrap image first size) :
    ∀ {fuel k : Nat} {r : RawRead}, LoadLoop image first size mem buffer k r →
      (∀ j < k, (chain image first j).toNat < 0xfff7) →
      readClusters image (getClusterSize image) size fuel r = .ok r' →
      LoadEnd image first size mem buffer k r'.readSize.toNat r'.mem
  | 0, k, r, _, _, hok => by cases hok
  | fuel + 1, k, r, hr, hbefore, hok => by
    have hcs := getClusterSize_toNat image
    have hle := hr.le
    rw [readClusters] at hok
    by_cases hgo : r.readSize < size ∧ r.index < 0xfff7
    · obtain ⟨hlt, hindex⟩ := hgo
      rw [if_pos ⟨hlt, hindex⟩] at hok
      rw [BitVec.lt_def, hr.readSize_eq] at hlt
      rw [BitVec.lt_def, hr.index_eq] at hindex
      have hchain : ∀ j ≤ k, (chain image first j).toNat < 0xfff7 := by
        intro j hj
        rcases Nat.eq_or_lt_of_le hj with rfl | hj
        · exact hindex
        · exact hbefore j hj
      have hnext := hnw k hchain hlt
      obtain ⟨data, hdata, hok⟩ := bind_eq_ok.mp hok
      obtain ⟨hge, hdata⟩ := clusterData_le hdata
      rw [hr.index_eq] at hge hdata
      have hread : Readable image first k := ⟨hge, hindex⟩
      have hsum : (r.readSize + getClusterSize image).toNat = (k + 1) * clusterBytes image := by
        rw [BitVec.toNat_add, hr.readSize_eq, hcs, ← Nat.succ_mul, Nat.mod_eq_of_lt hnext]
      have hmul : (k + 1) * clusterBytes image = k * clusterBytes image + clusterBytes image :=
        Nat.succ_mul ..
      by_cases hlast : r.readSize + getClusterSize image ≥ size
      · -- the last cluster of the file
        rw [if_pos hlast] at hok
        cases hok
        rw [ge_iff_le, BitVec.le_def, hsum] at hlast
        have hrest : (size - r.readSize).toNat = size.toNat - k * clusterBytes image := by
          rw [BitVec.toNat_sub_of_le (by rw [BitVec.le_def, hr.readSize_eq]; omega), hr.readSize_eq]
        refine ⟨?_, Or.inl ⟨rfl, Or.inr (by omega), fun j hj hjs => ?_⟩⟩
        · rw [hdata, hr.copy (by omega), hrest, Nat.add_sub_cancel' hle]
        · rcases Nat.eq_or_lt_of_le hj with rfl | hj
          · exact hread
          · have := Nat.mul_le_mul_right (clusterBytes image) (show k + 1 ≤ j from hj)
            omega
      · rw [if_neg hlast] at hok
        rw [ge_iff_le, BitVec.le_def, hsum, not_le] at hlast
        have hend := readClusters_cases hnw (k := k + 1) ⟨by omega, hsum, ?_, ?_, ?_⟩
          (fun j hj => hchain j (by omega)) hok
        · refine ⟨hend.mem_eq, ?_⟩
          have hcons : ∀ {p : Nat → Prop}, (∀ j, k + 1 ≤ j → p j → Readable image first j) →
              ∀ j, k ≤ j → p j → Readable image first j := by
            intro p hp j hj hpj
            rcases Nat.eq_or_lt_of_le hj with rfl | hj
            · exact hread
            · exact hp j hj hpj
          rcases hend.outcome with ⟨hn, hpos, hall⟩ | ⟨m, hm, hn, hlt', hmark, hall⟩
          · exact Or.inl ⟨hn, Or.inr (hpos.resolve_left (by omega)), hcons hall⟩
          · exact Or.inr ⟨m, by omega, hn, hlt', hmark, hcons hall⟩
        · show r.buffer + (getClusterSize image).setWidth 64 = _
          rw [hr.buffer_eq, BitVec.add_assoc, hmul, BitVec.ofNat_add, ← hcs, BitVec.ofNat_toNat]
        · show memcpy r.mem r.buffer image data (getClusterSize image) = _
          rw [hdata, hr.copy (by omega), hcs, hmul]
        · show (getClusterValue image r.index).setWidth 32 = _
          rw [hr.index_eq]
          rfl
    · rw [if_neg hgo] at hok
      cases hok
      refine ⟨by rw [hr.readSize_eq, hr.mem_eq], ?_⟩
      rw [hr.readSize_eq]
      by_cases hdone : k * clusterBytes image = size.toNat
      · refine Or.inl ⟨hdone, Or.inl hdone, fun j hj hjs => ?_⟩
        have := Nat.mul_le_mul_right (clusterBytes image) hj
        omega
      · refine Or.inr ⟨k, le_rfl, rfl, by omega, ?_, fun j hj hjk => by omega⟩
        by_contra hmark
        refine hgo ⟨?_, ?_⟩
        · rw [BitVec.lt_def, hr.readSize_eq]
          omega
        · rw [BitVec.lt_def, hr.index_eq]
          exact not_le.mp hmark

/-- With a cluster for each byte, the loop gets to the end of the file. -/
theorem readClusters_returns (hcov : Covers image first size.toNat) (hnw : NoWrap image first size) :
    ∀ {fuel k : Nat} {r : RawRead}, size.toNat - k * clusterBytes image < fuel →
      LoadLoop image first size mem buffer k r →
      ∃ r', readClusters image (getClusterSize image) size fuel r = .ok r'
  | fuel + 1, k, r, hfuel, hr => by
    have hcs := getClusterSize_toNat image
    have hle := hr.le
    rw [readClusters]
    by_cases hgo : r.readSize < size ∧ r.index < 0xfff7
    · rw [if_pos hgo]
      have hlt := hgo.1
      rw [BitVec.lt_def, hr.readSize_eq] at hlt
      obtain ⟨hge, hindex⟩ := hcov.2 k hlt
      have hpos : 0 < clusterBytes image := hcov.1.resolve_left (by omega)
      have hnext := hnw k (fun j hj => (hcov.2 j (lt_of_le_of_lt
        (Nat.mul_le_mul_right _ hj) hlt)).2) hlt
      have hsum : (r.readSize + getClusterSize image).toNat = (k + 1) * clusterBytes image := by
        rw [BitVec.toNat_add, hr.readSize_eq, hcs, ← Nat.succ_mul, Nat.mod_eq_of_lt hnext]
      have hmul : (k + 1) * clusterBytes image = k * clusterBytes image + clusterBytes image :=
        Nat.succ_mul ..
      rw [hr.index_eq, clusterData_ok hge, ok_bind]
      by_cases hlast : r.readSize + getClusterSize image ≥ size
      · rw [if_pos hlast]
        exact ⟨_, rfl⟩
      · rw [if_neg hlast]
        rw [ge_iff_le, BitVec.le_def, hsum, not_le] at hlast
        refine readClusters_returns hcov hnw (k := k + 1) (by omega) ⟨by omega, hsum, ?_, ?_, rfl⟩
        · show r.buffer + (getClusterSize image).setWidth 64 = _
          rw [hr.buffer_eq, BitVec.add_assoc, hmul, BitVec.ofNat_add, ← hcs, BitVec.ofNat_toNat]
        · show memcpy r.mem r.buffer image _ (getClusterSize image) = _
          rw [hr.copy (by omega), hcs, hmul]
    · rw [if_neg hgo]
      exact ⟨r, rfl⟩

-- ---------------------------------------------------------------------------
-- `read_raw_data` from the first byte on
-- ---------------------------------------------------------------------------

theorem loadLoop_start : LoadLoop image first size mem buffer 0 ⟨mem, buffer, 0, first⟩ := by
  refine ⟨by simp, by simp, by simp, by simp, rfl⟩

theorem readRawData_zero : readRawData image first mem buffer 0 size =
    (readClusters image (getClusterSize image) size readBound ⟨mem, buffer, 0, first⟩).map
      fun r => (r.readSize, r.mem) := by
  unfold readRawData
  dsimp only
  rw [show (0 : U32) / getClusterSize image = 0 from BitVec.zero_udiv,
    show (0 : U32) % getClusterSize image = 0 from BitVec.zero_umod]
  show (readClusters image (getClusterSize image) size readBound ⟨mem, buffer, 0, first⟩ >>= _) = _
  cases readClusters image (getClusterSize image) size readBound ⟨mem, buffer, 0, first⟩ <;> rfl

/-- **Reading a whole file**, when it returns: all of it, or what the chain has. In the second case the
chain ends early, at a mark, and the number returned is that of the bytes in front of it. -/
theorem readWhole_cases (hnw : NoWrap image first size)
    (hok : readRawData image first mem buffer 0 size = .ok (n, mem')) :
    mem' = blit mem buffer n.toNat (chainByte image first) ∧
    ((n = size ∧ Covers image first size.toNat) ∨
      ∃ m, n.toNat = m * clusterBytes image ∧ n.toNat < size.toNat ∧
        0xfff7 ≤ (chain image first m).toNat ∧ ∀ k < m, Readable image first k) := by
  rw [readRawData_zero] at hok
  cases hloop : readClusters image (getClusterSize image) size readBound ⟨mem, buffer, 0, first⟩ with
  | error e =>
    rw [hloop] at hok
    cases hok
  | ok r =>
    rw [hloop] at hok
    cases hok
    have hend := readClusters_cases hnw loadLoop_start (fun j hj => absurd hj (Nat.not_lt_zero j)) hloop
    refine ⟨hend.mem_eq, ?_⟩
    rcases hend.outcome with ⟨hn, hpos, hall⟩ | ⟨m, -, hn, hlt, hmark, hall⟩
    · refine Or.inl ⟨BitVec.eq_of_toNat_eq hn, ?_, fun j => hall j (Nat.zero_le j)⟩
      exact hpos.imp (fun h => by rw [← h, Nat.zero_mul]) id
    · exact Or.inr ⟨m, hn, hlt, hmark, fun k => hall k (Nat.zero_le k)⟩

/-- A file that the chain covers is read. -/
theorem readWhole_covered (hnw : NoWrap image first size) (hcov : Covers image first size.toNat) :
    readRawData image first mem buffer 0 size =
      .ok (size, blit mem buffer size.toNat (chainByte image first)) := by
  have hsize := size.isLt
  obtain ⟨r, hr⟩ : ∃ r, readClusters image (getClusterSize image) size readBound
      ⟨mem, buffer, 0, first⟩ = .ok r :=
    readClusters_returns hcov hnw (show size.toNat - 0 * clusterBytes image < readBound by
      unfold readBound; omega) loadLoop_start
  have hok : readRawData image first mem buffer 0 size = .ok (r.readSize, r.mem) := by
    rw [readRawData_zero, hr]
    rfl
  obtain ⟨hmem, hfull | ⟨m, hn, hlt, hmark, -⟩⟩ := readWhole_cases hnw hok
  · rw [hok, hmem, hfull.1]
  · -- the end mark would be one of the clusters of the file
    have := (hcov.2 m (by omega)).2
    omega

-- ---------------------------------------------------------------------------
-- Stores behind a page
-- ---------------------------------------------------------------------------

/-- A loop that gets to the cluster `k` has stored all bytes before it, and the first one
of it. -/
theorem rawDataStores_of_reached {i : Nat} (hsize : i < size.toNat) (hi : i < k * clusterBytes image)
    (h : ∀ j < k, (chain image first j).toNat < 0xfff7) : rawDataStores image first size i := by
  have hpos : 0 < clusterBytes image := by
    by_contra h0
    rw [Nat.eq_zero_of_not_pos h0] at hi
    omega
  exact ⟨hsize, hpos, fun j hj => h j (lt_of_le_of_lt hj ((Nat.div_lt_iff_lt_mul hpos).mpr hi))⟩

/-- When nothing is stored behind the first `w` bytes, the loop ends early enough. -/
theorem noWrap_of_not_stores {w : Nat} (hw : w < 2 ^ 31) (h : ¬rawDataStores image first size w) :
    NoWrap image first size := by
  have hcs := clusterBytes_lt image
  intro k hchain hk
  by_contra hge
  have hmul : (k + 1) * clusterBytes image = k * clusterBytes image + clusterBytes image :=
    Nat.succ_mul ..
  exact h (rawDataStores_of_reached (k := k) (by omega) (by omega) fun j hj => hchain j hj.le)

/-- And it has read no more than these. -/
theorem readWhole_le {w : Nat} (hw : w < 2 ^ 31) (h : ¬rawDataStores image first size w)
    (hok : readRawData image first mem buffer 0 size = .ok (n, mem')) : n.toNat ≤ w := by
  by_contra hlt
  rw [not_le] at hlt
  obtain ⟨-, ⟨rfl, hcov⟩ | ⟨m, hn, hltS, -, hall⟩⟩ := readWhole_cases (noWrap_of_not_stores hw h) hok
  · refine h ⟨hlt, hcov.1.resolve_left (by omega), fun k hk => (hcov.2 k ?_).2⟩
    exact lt_of_le_of_lt (Nat.mul_le_of_le_div _ _ _ hk) hlt
  · exact h (rawDataStores_of_reached (k := m) (by omega) (by omega) fun j hj => (hall j hj).2)

end TinyMultiCore
