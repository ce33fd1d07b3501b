import TinyMultiCore.File.Loading

/-!
# Reading through any FAT

Nothing is assumed about the chain here: it may be cyclic, end early, or lead to reserved
clusters. What bounds the loops of `read_raw_data` is the number of bytes that are left, not
the chain.

* `readClusters_reads` — what the loop does, from any cluster edge on;
* `read_raw_data_any_fat` — `read_raw_data` ends: it returns as many bytes as it has stored, or
  one of its two assertions fails, and which of these is a matter of the chain.
-/

namespace TinyMultiCore

open ByteMemory

variable {image mem : Memory} {first size : U32} {buffer : U64} {p k : Nat} {r : RawRead}

/-- The bytes that `read_raw_data` copies, the first of them at the position `p` of the file. -/
def storedBytes (image : Memory) (first : U32) (mem : Memory) (buffer : U64) (p n : Nat) : Memory :=
  blit mem buffer n fun i => chainByte image first (p + i)

/-- A copy out of the cluster `k` continues the bytes stored so far. -/
theorem storedBytes_extends {d o : Nat} {n : U32} (hpos : p + d = k * clusterBytes image + o)
    (hin : o + n.toNat ≤ clusterBytes image) (hd : d < 2 ^ 32) :
    memcpy (storedBytes image first mem buffer p d) (buffer + BitVec.ofNat 64 d) image
        (clusterAddr image (chain image first k) + BitVec.ofNat 64 o) n =
      storedBytes image first mem buffer p (d + n.toNat) := by
  have hn := n.isLt
  unfold storedBytes
  rw [memcpy, ← blit_blit _ _ (show d + n.toNat ≤ 2 ^ 64 by omega)]
  refine blit_congr fun i hi => ?_
  rw [← Nat.add_assoc, hpos, Nat.add_assoc, chainByte_of_cluster image first (by omega),
    BitVec.ofNat_add, BitVec.add_assoc]

theorem clusterData_bad {index : U32} (h : index.toNat < 2) :
    clusterData image index = .error .assertFailed := by
  have hge : ¬index ≥ 2 := by
    rw [ge_iff_le, BitVec.le_def]
    exact not_le.mpr h
  unfold clusterData getClusterOffset
  rw [show kernelAssert (index ≥ 2) = .error .assertFailed from if_neg hge]
  rfl

-- ---------------------------------------------------------------------------
-- The walk to the position
-- ---------------------------------------------------------------------------

/-- The walk to the position meets an end mark, or a bad cluster's. -/
def BadLink (image : Memory) (first : U32) (p : Nat) : Prop :=
  ∃ j, 0 < j ∧ j ≤ p / clusterBytes image ∧ 0xfff7 ≤ (chain image first j).toNat

theorem skipClusters_halts : ∀ {n : Nat} {c : U32} {e : Halt},
    skipClusters image n c = .error e → e = .assertFailed
  | 0, c, e, h => by cases h
  | n + 1, c, e, h => by
    rw [skipClusters] at h
    by_cases hlink : (getClusterValue image c).setWidth 32 < (0xfff7 : U32)
    · rw [kernelAssert_pos hlink, ok_bind] at h
      exact skipClusters_halts h
    · rw [show kernelAssert ((getClusterValue image c).setWidth 32 < (0xfff7 : U32)) =
        .error .assertFailed from if_neg hlink] at h
      cases h
      rfl

theorem skipClusters_cases (image : Memory) (first : U32) (p : Nat) :
    (¬BadLink image first p ∧ skipClusters image (p / clusterBytes image) first =
      .ok (chain image first (p / clusterBytes image))) ∨
    (BadLink image first p ∧
      skipClusters image (p / clusterBytes image) first = .error .assertFailed) := by
  have hok := @skipClusters_eq_ok image first (p / clusterBytes image) 0
  rw [Nat.zero_add] at hok
  cases hwalk : skipClusters image (p / clusterBytes image) first with
  | ok c =>
    obtain ⟨hall, rfl⟩ := hok.mp hwalk
    refine Or.inl ⟨?_, rfl⟩
    rintro ⟨j, hj, hle, hbad⟩
    have := hall j hj hle
    omega
  | error e =>
    obtain rfl := skipClusters_halts hwalk
    refine Or.inr ⟨?_, rfl⟩
    by_contra hgood
    have hreach : skipClusters image (p / clusterBytes image) first = _ :=
      hok.mpr ⟨fun j hj hle => ?_, rfl⟩
    · rw [hwalk] at hreach
      cases hreach
    · by_contra hlink
      exact hgood ⟨j, hj, hle, not_lt.mp hlink⟩

-- ---------------------------------------------------------------------------
-- The loop
-- ---------------------------------------------------------------------------

/-- The variables at the edge of a cluster: the bytes before it are in the buffer. When none is
missing any more, the edge does not matter. -/
structure AtEdge (image : Memory) (first size : U32) (mem : Memory) (buffer : U64) (p k : Nat)
    (r : RawRead) : Prop where
  le : r.readSize.toNat ≤ size.toNat
  mem_eq : r.mem = storedBytes image first mem buffer p r.readSize.toNat
  next : r.readSize.toNat < size.toNat → p + r.readSize.toNat = k * clusterBytes image ∧
    r.buffer = buffer + BitVec.ofNat 64 r.readSize.toNat ∧ r.index = chain image first k

/-- The cluster `m` ends the reads that start at the cluster `k`. -/
def StopsAt (image : Memory) (first : U32) (k m : Nat) : Prop :=
  k ≤ m ∧ ¬Readable image first m ∧ ∀ j, k ≤ j → j < m → Readable image first j

/-- How the reads of the range from `p` on end, from the cluster `k` on: with all of it, at an
end mark, or at a cluster that does not exist. -/
inductive ReadsTo (image : Memory) (first size : U32) (mem : Memory) (buffer : U64) (p k : Nat) :
    Except Halt (U32 × Memory) → Prop
  | whole (h : ∀ j, k ≤ j → j * clusterBytes image < p + size.toNat → Readable image first j) :
      ReadsTo image first size mem buffer p k
        (.ok (size, storedBytes image first mem buffer p size.toNat))
  | short {m : Nat} {n : U32} (hstop : StopsAt image first k m)
      (hmark : 0xfff7 ≤ (chain image first m).toNat) (hn : p + n.toNat = m * clusterBytes image)
      (hlt : n.toNat < size.toNat) :
      ReadsTo image first size mem buffer p k (.ok (n, storedBytes image first mem buffer p n.toNat))
  | halted {m : Nat} (hstop : StopsAt image first k m) (hm : m * clusterBytes image < p + size.toNat)
      (hlow : (chain image first m).toNat < 2) :
      ReadsTo image first size mem buffer p k (.error .assertFailed)

theorem StopsAt.cons (h : StopsAt image first (k + 1) m) (hk : Readable image first k) :
    StopsAt image first k m := by
  refine ⟨by have := h.1; omega, h.2.1, fun j hj hjm => ?_⟩
  rcases Nat.eq_or_lt_of_le hj with rfl | hj
  · exact hk
  · exact h.2.2 j hj hjm

/-- A cluster that has been read before the others. -/
theorem ReadsTo.cons {x : Except Halt (U32 × Memory)}
    (h : ReadsTo image first size mem buffer p (k + 1) x) (hk : Readable image first k) :
    ReadsTo image first size mem buffer p k x := by
  cases h with
  | whole h =>
    refine .whole fun j hj hlt => ?_
    rcases Nat.eq_or_lt_of_le hj with rfl | hj
    · exact hk
    · exact h j hj hlt
  | short hstop hmark hn hlt => exact .short (hstop.cons hk) hmark hn hlt
  | halted hstop hm hlow => exact .halted (hstop.cons hk) hm hlow

/-- The result of `read_raw_data`. -/
def RawRead.result (r : RawRead) : U32 × Memory := (r.readSize, r.mem)

namespace AtEdge

/-- Everything has been read: what the chain goes on to does not matter. -/
theorem done (hr : AtEdge image first size mem buffer p k r)
    (hdone : r.readSize.toNat = size.toNat) (hedge : p + size.toNat ≤ k * clusterBytes image) :
    ReadsTo image first size mem buffer p k (.ok (r.readSize, r.mem)) := by
  have hall : r.readSize = size := BitVec.eq_of_toNat_eq hdone
  rw [hr.mem_eq, hall]
  refine .whole fun j hj hjlt => ?_
  have := Nat.mul_le_mul_right (clusterBytes image) hj
  omega

/-- The chain ends before the range does. -/
theorem ended (hr : AtEdge image first size mem buffer p k r)
    (hlt : r.readSize.toNat < size.toNat) (hmark : 0xfff7 ≤ (chain image first k).toNat) :
    ReadsTo image first size mem buffer p k (.ok (r.readSize, r.mem)) := by
  rw [hr.mem_eq]
  refine .short ⟨le_rfl, fun h => ?_, fun j hj hjk => by omega⟩ hmark (hr.next hlt).1 hlt
  have := h.2
  omega

/-- The chain leads to a cluster below 2, and `get_cluster_offset` asserts that it does not. -/
theorem refused (hr : AtEdge image first size mem buffer p k r)
    (hlt : r.readSize.toNat < size.toNat) (hlow : (chain image first k).toNat < 2) :
    ReadsTo image first size mem buffer p k (.error .assertFailed) := by
  obtain ⟨hat, -⟩ := hr.next hlt
  refine .halted ⟨le_rfl, fun h => ?_, fun j hj hjk => by omega⟩ (by omega) hlow
  have := h.1
  omega

/-- The first bytes of the cluster continue those that are in the buffer. -/
theorem copy {n : U32} (hr : AtEdge image first size mem buffer p k r)
    (hlt : r.readSize.toNat < size.toNat) (hn : n.toNat ≤ clusterBytes image) :
    memcpy r.mem r.buffer image (clusterAddr image (chain image first k)) n =
      storedBytes image first mem buffer p (r.readSize.toNat + n.toNat) := by
  obtain ⟨hat, hbuffer, -⟩ := hr.next hlt
  have hd : r.readSize.toNat < 2 ^ 32 := r.readSize.isLt
  have hext : memcpy (storedBytes image first mem buffer p r.readSize.toNat)
      (buffer + BitVec.ofNat 64 r.readSize.toNat) image
        (clusterAddr image (chain image first k) + BitVec.ofNat 64 0) n = _ :=
    storedBytes_extends hat (by omega) hd
  rwa [BitVec.add_zero, ← hr.mem_eq, ← hbuffer] at hext

/-- The rest of the range is in this cluster. -/
theorem last (hr : AtEdge image first size mem buffer p k r)
    (hlt : r.readSize.toNat < size.toNat) (hread : Readable image first k)
    (hlast : size.toNat ≤ r.readSize.toNat + clusterBytes image) :
    ReadsTo image first size mem buffer p k (.ok (size,
      memcpy r.mem r.buffer image (clusterAddr image (chain image first k))
        (size - r.readSize))) := by
  obtain ⟨hat, -⟩ := hr.next hlt
  have hrest : (size - r.readSize).toNat = size.toNat - r.readSize.toNat :=
    BitVec.toNat_sub_of_le (by rw [BitVec.le_def]; omega)
  rw [hr.copy hlt (by omega), hrest, Nat.add_sub_cancel' hr.le]
  refine .whole fun j hj hjlt => ?_
  rcases Nat.eq_or_lt_of_le hj with rfl | hj
  · exact hread
  · have hmul : (k + 1) * clusterBytes image = k * clusterBytes image + clusterBytes image :=
      Nat.succ_mul ..
    have := Nat.mul_le_mul_right (clusterBytes image) (show k + 1 ≤ j from hj)
    omega

/-- Behind a whole cluster the variables are at the next edge. -/
theorem step (hr : AtEdge image first size mem buffer p k r)
    (hlt : r.readSize.toNat < size.toNat)
    (hnext : (r.readSize + getClusterSize image).toNat = r.readSize.toNat + clusterBytes image)
    (hmore : r.readSize.toNat + clusterBytes image ≤ size.toNat) :
    AtEdge image first size mem buffer p (k + 1) {
      mem := memcpy r.mem r.buffer image (clusterAddr image (chain image first k))
        (getClusterSize image)
      buffer := r.buffer + (getClusterSize image).setWidth 64
      readSize := r.readSize + getClusterSize image
      index := (getClusterValue image (chain image first k)).setWidth 32 } := by
  have hcs := getClusterSize_toNat image
  obtain ⟨hat, hbuffer, -⟩ := hr.next hlt
  refine ⟨by rwa [hnext], ?_, fun _ => ⟨?_, ?_, rfl⟩⟩
  · rw [hr.copy hlt hcs.le, hnext, hcs]
  · rw [hnext, Nat.succ_mul]
    omega
  · rw [hbuffer, hnext, BitVec.ofNat_add, BitVec.add_assoc, ← hcs,
      BitVec.ofNat_toNat 64 (getClusterSize image)]

end AtEdge

/-- Each turn reads a cluster, so that fewer bytes are left. -/
theorem readClusters_reads (hpos : 0 < clusterBytes image) (hsum : p + size.toNat < 2 ^ 31) :
    ∀ {fuel k : Nat} {r : RawRead}, size.toNat - r.readSize.toNat < fuel →
      p + size.toNat ≤ k * clusterBytes image ∨ r.readSize.toNat < size.toNat →
      AtEdge image first size mem buffer p k r →
      ReadsTo image first size mem buffer p k
        ((readClusters image (getClusterSize image) size fuel r).map RawRead.result)
  | fuel + 1, k, r, hfuel, hedge, hr => by
    rw [readClusters]
    rcases Nat.eq_or_lt_of_le hr.le with hdone | hlt
    · have hstop : ¬(r.readSize < size ∧ r.index < 0xfff7) := by
        rintro ⟨hlt, -⟩
        rw [BitVec.lt_def] at hlt
        omega
      rw [if_neg hstop]
      exact hr.done hdone (hedge.resolve_right (by omega))
    obtain ⟨-, -, hindex⟩ := hr.next hlt
    by_cases hmark : r.index < 0xfff7
    · have hgo : r.readSize < size ∧ r.index < 0xfff7 := ⟨by rwa [BitVec.lt_def], hmark⟩
      rw [if_pos hgo]
      rw [BitVec.lt_def, hindex] at hmark
      by_cases hlow : (chain image first k).toNat < 2
      · rw [hindex, clusterData_bad hlow]
        exact hr.refused hlt hlow
      rw [not_lt] at hlow
      rw [hindex, clusterData_ok hlow, ok_bind]
      have hcsLt := clusterBytes_lt image
      have hnext : (r.readSize + getClusterSize image).toNat =
          r.readSize.toNat + clusterBytes image := by
        rw [BitVec.toNat_add, getClusterSize_toNat image, Nat.mod_eq_of_lt (by omega)]
      by_cases hlast : r.readSize + getClusterSize image ≥ size
      · rw [if_pos hlast]
        rw [ge_iff_le, BitVec.le_def, hnext] at hlast
        exact hr.last hlt ⟨hlow, hmark⟩ hlast
      · rw [if_neg hlast]
        rw [ge_iff_le, BitVec.le_def, hnext, not_le] at hlast
        refine ReadsTo.cons (readClusters_reads hpos hsum ?_ (Or.inr ?_)
          (hr.step hlt hnext hlast.le)) ⟨hlow, hmark⟩
        · show size.toNat - (r.readSize + getClusterSize image).toNat < fuel
          omega
        · show (r.readSize + getClusterSize image).toNat < size.toNat
          omega
    · have hstop : ¬(r.readSize < size ∧ r.index < 0xfff7) := fun h => hmark h.2
      rw [if_neg hstop]
      rw [BitVec.lt_def, hindex, not_lt] at hmark
      exact hr.ended hlt hmark

-- ---------------------------------------------------------------------------
-- The whole request
-- ---------------------------------------------------------------------------

/-- The first cluster that the loop reads: the one of the position, or the one after it. -/
def wholeFrom (image : Memory) (p : Nat) : Nat :=
  if p % clusterBytes image = 0 then p / clusterBytes image else p / clusterBytes image + 1

theorem edge_le_iff (hpos : 0 < clusterBytes image) :
    p ≤ k * clusterBytes image ↔ wholeFrom image p ≤ k := by
  have hsplit := Nat.div_add_mod' p (clusterBytes image)
  unfold wholeFrom
  split
  · have hp : p / clusterBytes image * clusterBytes image = p := by omega
    conv_lhs => rw [← hp]
    exact Nat.mul_le_mul_right_iff hpos
  · rename_i hinside
    rw [Nat.succ_le_iff, Nat.div_lt_iff_lt_mul hpos, Nat.lt_iff_le_and_ne, iff_self_and]
    intro _ hedge
    exact hinside (by rw [hedge, Nat.mul_mod_left])

variable (mem buffer) in
/-- The part of the first cluster behind the position. -/
theorem readFirst_reads {p n : U32} (hpos : 0 < clusterBytes image)
    (hsum : p.toNat + n.toNat < 2 ^ 31) :
    let k := p.toNat / clusterBytes image
    let x := readFirst image (getClusterSize image) (p % getClusterSize image) n
      ⟨mem, buffer, 0, chain image first k⟩
    (p.toNat % clusterBytes image ≠ 0 ∧ (chain image first k).toNat < 2 ∧
      x = .error .assertFailed) ∨
    ((p.toNat % clusterBytes image ≠ 0 → 2 ≤ (chain image first k).toNat) ∧
      ∃ r, x = .ok r ∧ AtEdge image first n mem buffer p.toNat (wholeFrom image p.toNat) r ∧
        (p.toNat + n.toNat ≤ wholeFrom image p.toNat * clusterBytes image ∨
          r.readSize.toNat < n.toNat)) := by
  intro k x
  have hsplit : k * clusterBytes image + p.toNat % clusterBytes image = p.toNat :=
    Nat.div_add_mod' ..
  have hlt := Nat.mod_lt p.toNat hpos
  have hoff := offset_toNat image p
  by_cases hedge : p.toNat % clusterBytes image = 0
  · -- the position is on a cluster's edge
    have hx : x = .ok ⟨mem, buffer, 0, chain image first k⟩ :=
      if_neg (not_not.mpr (offset_eq_zero_iff.mpr hedge))
    have hfrom : wholeFrom image p.toNat = k := if_pos hedge
    rw [hfrom]
    refine Or.inr ⟨fun h => absurd hedge h, _, hx, ⟨Nat.zero_le _, ?_, fun _ => ⟨?_, ?_, rfl⟩⟩, ?_⟩
    · simp [storedBytes]
    · show p.toNat + 0 = _
      omega
    · simp
    · show p.toNat + n.toNat ≤ k * clusterBytes image ∨ 0 < n.toNat
      omega
  · have hfrom : wholeFrom image p.toNat = k + 1 := if_neg hedge
    have hx : x = _ := if_pos (mt offset_eq_zero_iff.mp hedge)
    rw [hx]
    by_cases hlow : (chain image first k).toNat < 2
    · rw [clusterData_bad hlow]
      exact Or.inl ⟨hedge, hlow, rfl⟩
    rw [not_lt] at hlow
    rw [clusterData_ok hlow, ok_bind, hfrom]
    have hsize := firstSize_toNat (p := p) (n := n) hpos (by omega)
    set readSize : U32 := if p % getClusterSize image + n ≤ getClusterSize image then n
      else getClusterSize image - p % getClusterSize image
    have hmul : (k + 1) * clusterBytes image = k * clusterBytes image + clusterBytes image :=
      Nat.succ_mul ..
    refine Or.inr ⟨fun _ => hlow, _, rfl, ⟨?_, ?_, fun hmore => ⟨?_, ?_, rfl⟩⟩, ?_⟩
    · show readSize.toNat ≤ n.toNat
      omega
    · show memcpy mem buffer image _ readSize = storedBytes image first mem buffer p.toNat readSize.toNat
      have hcopy : memcpy (storedBytes image first mem buffer p.toNat 0) (buffer + BitVec.ofNat 64 0)
          image (clusterAddr image (chain image first k) +
            BitVec.ofNat 64 (p.toNat % clusterBytes image)) readSize = _ :=
        storedBytes_extends (by omega) (by omega) (by decide)
      rw [Nat.zero_add] at hcopy
      rw [← hcopy, ← hoff, BitVec.ofNat_toNat]
      simp [storedBytes]
    · show p.toNat + readSize.toNat = _
      change readSize.toNat < n.toNat at hmore
      omega
    · show buffer + readSize.setWidth 64 = buffer + BitVec.ofNat 64 readSize.toNat
      rw [BitVec.ofNat_toNat]
    · show _ ∨ readSize.toNat < n.toNat
      omega

variable (mem buffer) in
/-- What `read_raw_data` does when it gets to the position. -/
theorem readRawData_reads {p n : U32} (hpos : 0 < clusterBytes image)
    (hsum : p.toNat + n.toNat < 2 ^ 31) (hgood : ¬BadLink image first p.toNat) :
    let k := p.toNat / clusterBytes image
    let x := readRawData image first mem buffer p n
    (p.toNat % clusterBytes image ≠ 0 ∧ (chain image first k).toNat < 2 ∧
      x = .error .assertFailed) ∨
    ((p.toNat % clusterBytes image ≠ 0 → 2 ≤ (chain image first k).toNat) ∧
      ReadsTo image first n mem buffer p.toNat (wholeFrom image p.toNat) x) := by
  intro k x
  have hcs := getClusterSize_toNat image
  have hcount : (p / getClusterSize image).toNat = k := by rw [BitVec.toNat_udiv, hcs]
  have hwalk := (skipClusters_cases image first p.toNat).resolve_right fun h => hgood h.1
  have hx : x = (readFirst image (getClusterSize image) (p % getClusterSize image) n
      ⟨mem, buffer, 0, chain image first k⟩).bind fun r =>
        (readClusters image (getClusterSize image) n readBound r).map RawRead.result := by
    show readRawData image first mem buffer p n = _
    unfold readRawData
    dsimp only
    rw [hcount, hwalk.2, ok_bind]
    cases readFirst image (getClusterSize image) (p % getClusterSize image) n
        ⟨mem, buffer, 0, chain image first k⟩ with
    | error e => rfl
    | ok r =>
      show (readClusters image (getClusterSize image) n readBound r >>= _) = Except.map _ _
      cases readClusters image (getClusterSize image) n readBound r <;> rfl
  rcases readFirst_reads mem buffer hpos hsum with
    ⟨hinside, hlow, hhalt⟩ | ⟨hfirst, r, hr, hedge, hmore⟩
  · rw [hx, hhalt]
    exact Or.inl ⟨hinside, hlow, rfl⟩
  · rw [hx, hr]
    have hn := n.isLt
    refine Or.inr ⟨hfirst, readClusters_reads hpos hsum ?_ hmore hedge⟩
    unfold readBound
    omega

/-- A cluster that does not exist is to be read. -/
def LowCluster (image : Memory) (first : U32) (p n : Nat) : Prop :=
  ∃ k, p / clusterBytes image ≤ k ∧ k * clusterBytes image < p + n ∧
    (chain image first k).toNat < 2 ∧
      ∀ j, p ≤ j * clusterBytes image → j < k → (chain image first j).toNat < 0xfff7

/-- The chain ends inside the range. -/
def EndsInside (image : Memory) (first : U32) (p n : Nat) : Prop :=
  ∃ k, p ≤ k * clusterBytes image ∧ k * clusterBytes image < p + n ∧
    0xfff7 ≤ (chain image first k).toNat

/-- The clusters of a range are the one that its position is in and those that the loop reads. -/
theorem cluster_cases (h : p / clusterBytes image ≤ k) :
    (p % clusterBytes image ≠ 0 ∧ k = p / clusterBytes image) ∨ wholeFrom image p ≤ k := by
  unfold wholeFrom
  split <;> omega

theorem div_le_wholeFrom (image : Memory) (p : Nat) : p / clusterBytes image ≤ wholeFrom image p := by
  unfold wholeFrom
  split <;> omega

theorem ReadsTo.halted_iff {p n : Nat} {x : Except Halt (U32 × Memory)}
    (h : ReadsTo image first size mem buffer p (wholeFrom image p) x)
    (hpos : 0 < clusterBytes image) (hn : n = size.toNat)
    (hfirst : p % clusterBytes image ≠ 0 → 2 ≤ (chain image first (p / clusterBytes image)).toNat) :
    x = .error .assertFailed ↔ LowCluster image first p n := by
  subst hn
  constructor
  · rintro rfl
    cases h with
    | @halted m hstop hm hlow =>
      refine ⟨m, (div_le_wholeFrom image p).trans hstop.1, hm, hlow, fun j hj hjm => ?_⟩
      exact (hstop.2.2 j ((edge_le_iff hpos).mp hj) hjm).2
  · rintro ⟨k, hk, hlt, hlow, hbefore⟩
    -- the first cluster of the range is there, so that the loop would read this one
    have hfrom : wholeFrom image p ≤ k := by
      rcases cluster_cases hk with ⟨hinside, rfl⟩ | hfrom
      · have := hfirst hinside
        omega
      · exact hfrom
    cases h with
    | whole hall =>
      have := (hall k hfrom hlt).1
      omega
    | @short m _ hstop hmark hm _ =>
      rcases Nat.lt_trichotomy k m with hkm | rfl | hmk
      · have := (hstop.2.2 k hfrom hkm).1
        omega
      · omega
      · have := hbefore m ((edge_le_iff hpos).mpr hstop.1) hmk
        omega
    | halted => rfl

/-- **Reading through any FAT.** For every volume with a cluster size that is not zero, every first
cluster and every request inside the file, `read_raw_data` ends: it returns at most `n`, having
stored as many bytes at the start of the buffer and nothing else, or an assertion fails.

* An assertion fails exactly when the walk to the position meets a link that is no cluster's, or
  the reads get to a cluster below 2 (an empty request is left out).
* Of what it returns, the count is below `n` exactly when the chain ends inside the range. -/
theorem read_raw_data_any_fat (image mem : Memory) (first : U32) (buffer : U64)
    (p n fileSize : U32) (hsize : getClusterSize image ≠ 0)
    (hfit : p.toNat + n.toNat ≤ fileSize.toNat) (hfile : fileSize.toNat < 2 ^ 31) :
    (readRawData image first mem buffer p n = .error .assertFailed ∨
      ∃ m, readRawData image first mem buffer p n =
          .ok (m, storedBytes image first mem buffer p.toNat m.toNat) ∧ m.toNat ≤ n.toNat) ∧
    (n ≠ 0 → (readRawData image first mem buffer p n = .error .assertFailed ↔
      BadLink image first p.toNat ∨ LowCluster image first p.toNat n.toNat)) ∧
    ∀ m mem', readRawData image first mem buffer p n = .ok (m, mem') →
      (m.toNat < n.toNat ↔ EndsInside image first p.toNat n.toNat) := by
  have hpos : 0 < clusterBytes image := by
    rw [← getClusterSize_toNat]
    exact Nat.pos_of_ne_zero fun h => hsize (BitVec.eq_of_toNat_eq h)
  have hsum : p.toNat + n.toNat < 2 ^ 31 := lt_of_le_of_lt hfit hfile
  by_cases hbad : BadLink image first p.toNat
  · have hwalk := (skipClusters_cases image first p.toNat).resolve_left fun h => h.1 hbad
    have hhalt : readRawData image first mem buffer p n = .error .assertFailed := by
      have hcount : (p / getClusterSize image).toNat = p.toNat / clusterBytes image := by
        rw [BitVec.toNat_udiv, getClusterSize_toNat]
      unfold readRawData
      dsimp only
      rw [hcount, hwalk.2]
      rfl
    rw [hhalt]
    exact ⟨Or.inl rfl, fun _ => ⟨fun _ => Or.inl hbad, fun _ => rfl⟩, fun m mem' h => by cases h⟩
  rcases readRawData_reads mem buffer hpos hsum hbad with
    ⟨-, hlow, hhalt⟩ | ⟨hfirst, hreads⟩
  · rw [hhalt]
    refine ⟨Or.inl rfl, fun hn => ⟨fun _ => Or.inr ?_, fun _ => rfl⟩, fun m mem' h => by cases h⟩
    have hn : 0 < n.toNat := Nat.pos_of_ne_zero fun h => hn (BitVec.eq_of_toNat_eq h)
    have hle := Nat.div_mul_le_self p.toNat (clusterBytes image)
    refine ⟨_, le_rfl, by omega, hlow, fun j hj hjk => ?_⟩
    -- no edge at or behind the position comes before the position's cluster
    have := (div_le_wholeFrom image p.toNat).trans ((edge_le_iff hpos).mp hj)
    omega
  · refine ⟨?_, fun _ => ?_, fun m mem' hok => ?_⟩
    · generalize readRawData image first mem buffer p n = x at hreads
      cases hreads with
      | whole => exact Or.inr ⟨n, rfl, le_rfl⟩
      | short _ _ _ hlt => exact Or.inr ⟨_, rfl, hlt.le⟩
      | halted => exact Or.inl rfl
    · rw [hreads.halted_iff hpos rfl hfirst]
      exact ⟨Or.inr, fun h => h.resolve_left hbad⟩
    · have hreads : ReadsTo image first n mem buffer p.toNat (wholeFrom image p.toNat)
          (.ok (m, mem')) := hok ▸ hreads
      cases hreads with
      | whole hall =>
        refine ⟨fun h => absurd h (lt_irrefl _), ?_⟩
        rintro ⟨k, hk, hlt, hmark⟩
        have := (hall k ((edge_le_iff hpos).mp hk) hlt).2
        omega
      | @short k _ hstop hmark hm hlt => exact ⟨fun _ => ⟨k, by omega, by omega, hmark⟩, fun _ => hlt⟩

/-- The second cluster of a file whose chain has only one: the walk to it meets the end mark. -/
theorem short_chain_halts :
    readRawData tinyImage 2 (fun _ => 0) 0x400000 512 1 = .error .assertFailed := by
  have hany := read_raw_data_any_fat tinyImage (fun _ => 0) 2 0x400000 512 1 1024
    (by decide +kernel) (by decide) (by decide)
  refine (hany.2.1 (by decide)).mpr (Or.inl ⟨1, Nat.one_pos, ?_, by decide +kernel⟩)
  decide +kernel

/-- So not every request inside the file returns. -/
theorem read_raw_data_may_halt :
    ¬∀ (image mem : Memory) (first : U32) (buffer : U64) (p n fileSize : U32),
      getClusterSize image ≠ 0 → p.toNat + n.toNat ≤ fileSize.toNat → fileSize.toNat < 2 ^ 31 →
        ∃ m mem', readRawData image first mem buffer p n = .ok (m, mem') := by
  intro hreturns
  obtain ⟨m, mem', hok⟩ := hreturns tinyImage (fun _ => 0) 2 0x400000 512 1 1024
    (by decide +kernel) (by decide) (by decide)
  obtain ⟨c, hwalk, -⟩ := bind_eq_ok.mp hok
  -- the one link of the chain is its end mark
  have hcount : (512 / getClusterSize tinyImage : U32).toNat = 1 := by decide +kernel
  rw [hcount] at hwalk
  obtain ⟨hlink, -⟩ := (skipClusters_eq_ok (k := 0)).mp hwalk
  exact absurd (hlink 1 Nat.one_pos le_rfl) (by decide +kernel)

end TinyMultiCore
