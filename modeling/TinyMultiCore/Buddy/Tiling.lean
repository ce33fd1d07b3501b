import TinyMultiCore.Buddy.Allocation

/-!
# `buddy_init` tiles the region

The blocks that `buddy_init` has placed so far tile what lies below `current`: `Placed` is
the invariant of its loop. Distances are measured from `start`, so that the region may wrap
around the address space.

* `buddyInit_tiles` — `buddy_init` returns, and its blocks tile all the pages of the region,
  each of them aligned, and the largest one that fits where it is;
* `buddy_init_tiles_region` — the same in addresses, for a region that does not wrap around.
-/

namespace TinyMultiCore

open IntrusiveRing Tiling

variable {start size current remaining : U64} {m : NodeLinks} {L : FreeLists} {i : Nat}

/-- No larger block fits in the region where the block is and is aligned there. -/
def Block.Largest (start size : U64) (b : Block) : Prop :=
  ∀ n < maxOrder, b.addr.toNat % 2 ^ (n + pageShift) = 0 →
    b.lo start + 2 ^ (n + pageShift) ≤ size.toNat → n ≤ b.order

/-- The address is divisible by the size. -/
def Block.Aligned (b : Block) : Prop := b.addr.toNat % b.bytes = 0

/-- The addresses of the first `n` bytes from `start` on. -/
def firstBytes (start : U64) (n : Nat) : Set U64 := {x | (x - start).toNat < n}

theorem mem_firstBytes {n : Nat} {x : U64} : x ∈ firstBytes start n ↔ (x - start).toNat < n :=
  Iff.rfl

/-- The state of the outer loop, with what its blocks cover: all of the region up to `current`,
whose distance from the start is a whole number of pages. -/
structure Placed (start size : U64) (m : NodeLinks) (L : FreeLists)
    (current remaining : U64) : Prop extends InitInv start size m L current remaining where
  tiles : Tiles Block.extent L.blocks (firstBytes start (current - start).toNat)
  aligned : ∀ b ∈ L.blocks, b.Aligned
  largest : ∀ b ∈ L.blocks, b.Largest start size
  pages : 2 ^ pageShift ∣ (current - start).toNat

theorem mod_blockSize_iff (hi : i < maxOrder) {a : U64} :
    a % blockSize i = 0 ↔ a.toNat % 2 ^ (i + pageShift) = 0 := by
  rw [← BitVec.toNat_inj, BitVec.toNat_umod, blockSize_toNat hi]
  rfl

/-- A block in the region covers the bytes from its offset on. -/
theorem mem_extent_iff {b : Block} (hin : b.hi start ≤ size.toNat) (x : U64) :
    x ∈ b.extent ↔ b.lo start ≤ (x - start).toNat ∧ (x - start).toNat < b.hi start := by
  have hsz := size.isLt
  have hx : (x - b.addr).toNat = (2 ^ 64 - b.lo start + (x - start).toNat) % 2 ^ 64 := by
    have hlt := x.isLt
    have hstart := start.isLt
    have haddr := b.addr.isLt
    unfold Block.lo
    rw [BitVec.toNat_sub, BitVec.toNat_sub, BitVec.toNat_sub]
    omega
  have hoff := (x - start).isLt
  rw [Block.mem_extent, hx]
  unfold Block.hi at *
  omega

theorem Placed.place (h : Placed start size m L current remaining) (hi : i < maxOrder)
    (hfit : blockSize i ≤ remaining) (haligned : current % blockSize i = 0)
    (hmax : ∀ j < maxOrder, blockSize j ≤ remaining → current % blockSize j = 0 → j ≤ i) :
    Placed start size (listAdd m (.head i) (.block current)) (L.push i current)
      (current + blockSize i) (remaining - blockSize i) := by
  have hinit := h.toInitInv.place hi hfit
  have hsz := size.isLt
  have hleft := h.left
  have hpos := Nat.two_pow_pos (i + pageShift)
  have hfit' := hfit
  rw [BitVec.le_def, blockSize_toNat hi] at hfit'
  have hcurrent : (current + blockSize i - start).toNat =
      (current - start).toNat + 2 ^ (i + pageShift) :=
    lo_add_blockSize hi i (show (current - start).toNat + _ < 2 ^ 64 by omega)
  have hmem : ∀ {b : Block}, b ∈ (L.push i current).blocks ↔ b = ⟨current, i⟩ ∨ b ∈ L.blocks :=
    fun {b} => ((blocks_push hi current).mem_iff (a := b)).trans List.mem_cons
  refine ⟨hinit, ?_, fun b hb => ?_, fun b hb => ?_, ?_⟩
  · -- the new block covers what lies between the old `current` and the new one
    have hextent := @mem_extent_iff start size ⟨current, i⟩
      (by unfold Block.hi; simp only [Block.lo, Block.bytes]; omega)
    have hset : firstBytes start (current + blockSize i - start).toNat =
        Block.extent ⟨current, i⟩ ∪ firstBytes start (current - start).toNat := by
      ext x
      rw [Set.mem_union, hextent, mem_firstBytes, mem_firstBytes, hcurrent]
      simp only [Block.hi, Block.lo, Block.bytes]
      omega
    rw [hset]
    refine (h.tiles.cons (Set.disjoint_left.mpr fun x hx hx' => ?_)).perm
      (blocks_push hi current).symm
    rw [hextent] at hx
    rw [mem_firstBytes] at hx'
    simp only [Block.lo] at hx
    omega
  · rcases hmem.mp hb with rfl | hb
    · exact (mod_blockSize_iff hi).mp haligned
    · exact h.aligned b hb
  · rcases hmem.mp hb with rfl | hb
    · intro n hn hdvd hfits
      refine hmax n hn ?_ ((mod_blockSize_iff hn).mpr hdvd)
      rw [BitVec.le_def, blockSize_toNat hn]
      simp only [Block.lo] at hfits
      omega
    · exact h.largest b hb
  · rw [hcurrent]
    exact Nat.dvd_add h.pages (pow_dvd_pow 2 (by omega))

theorem placed_start (m : NodeLinks) :
    Placed start size (initHeads m maxOrder) (fun _ => []) start size := by
  have hnone : FreeLists.blocks (fun _ => []) = [] := by simp [FreeLists.blocks]
  refine ⟨⟨represents_empty m, ?_, by simp⟩, ?_, ?_, ?_, by simp⟩
  all_goals rw [hnone]
  · simp
  · have hempty : firstBytes start (start - start).toNat = ∅ := by
      ext x
      simp [firstBytes]
    rw [hempty]
    exact .nil
  · simp
  · simp

/-- **`buddy_init`** on a page-aligned start returns. Its blocks tile the pages of the region,
and each of them is aligned and the largest one that fits where it is. -/
theorem buddyInit_tiles (m : NodeLinks) (hs : start % pageSize = 0) :
    ∃ a L, buddyInit m start size = .ok a ∧ a.startAddr = start ∧
      Represents start size a.links L [] ∧
      Tiles Block.extent L.blocks (firstBytes start (2 ^ 21 * (size.toNat / 2 ^ 21))) ∧
      (∀ b ∈ L.blocks, b.Aligned) ∧ ∀ b ∈ L.blocks, b.Largest start size := by
  obtain ⟨m', hm'⟩ : ∃ m', initLoop (size.toNat / 2 ^ 21 + 1) (initHeads m maxOrder)
      start size = .ok m' := initLoop_returns _ hs (Nat.lt_succ_self _)
  obtain ⟨current, remaining, ⟨L, h⟩, hrest⟩ := initLoop_invariant
    (P := fun m current remaining => ∃ L, Placed start size m L current remaining)
    (fun m current remaining i ⟨L, h⟩ hi hfit haligned hmax =>
      ⟨_, h.place hi hfit haligned hmax⟩) ⟨_, placed_start m⟩ hm'
  refine ⟨⟨m', start⟩, L, ?_, rfl, h.repr, ?_, h.aligned, h.largest⟩
  · rw [buddyInit, hm']
    rfl
  · -- less than a page is left
    have hpages : (current - start).toNat = 2 ^ 21 * (size.toNat / 2 ^ 21) := by
      have hleft := h.left
      have hdvd : (current - start).toNat % 2 ^ 21 = 0 := Nat.mod_eq_zero_of_dvd h.pages
      rw [BitVec.lt_def, show (1#64 <<< 21).toNat = 2 ^ 21 by decide] at hrest
      omega
    rw [← hpages]
    exact h.tiles

/-- **`buddy_init` tiles the region** when that does not wrap around the address space: it
returns, its blocks are aligned to their sizes and tile all the pages that fit behind
`start`, and no larger block fits and is aligned where one of them is. -/
theorem buddy_init_tiles_region (m : NodeLinks) (hs : start % pageSize = 0)
    (hwrap : start.toNat + size.toNat ≤ 2 ^ 64) :
    ∃ a L, buddyInit m start size = .ok a ∧ Rings a.links L ∧
      Tiles Block.extent L.blocks {x | start.toNat ≤ x.toNat ∧
        x.toNat < start.toNat + 2 ^ 21 * (size.toNat / 2 ^ 21)} ∧
      (∀ i < maxOrder, ∀ b ∈ L i, b.toNat % 2 ^ (i + 21) = 0) ∧
      ∀ i < maxOrder, ∀ b ∈ L i, ∀ n < maxOrder, b.toNat % 2 ^ (n + 21) = 0 →
        b.toNat + 2 ^ (n + 21) ≤ start.toNat + size.toNat → n ≤ i := by
  obtain ⟨a, L, hinit, -, hrep, htiles, haligned, hlargest⟩ :
    ∃ a L, buddyInit m start size = .ok a ∧ a.startAddr = start ∧
      Represents start size a.links L [] ∧
      Tiles Block.extent L.blocks (firstBytes start (2 ^ 21 * (size.toNat / 2 ^ 21))) ∧
      (∀ b ∈ L.blocks, b.Aligned) ∧ ∀ b ∈ L.blocks, b.Largest start size := buddyInit_tiles m hs
  refine ⟨a, L, hinit, hrep.rings, ?_, fun i hi b hb => ?_, fun i hi b hb n hn hdvd hfits => ?_⟩
  · have hset : firstBytes start (2 ^ 21 * (size.toNat / 2 ^ 21)) = {x | start.toNat ≤ x.toNat ∧
        x.toNat < start.toNat + 2 ^ 21 * (size.toNat / 2 ^ 21)} := by
      ext x
      have hx := x.isLt
      have hstart := start.isLt
      rw [mem_firstBytes, Set.mem_ofPred_eq, BitVec.toNat_sub]
      omega
    rw [← hset]
    exact htiles
  · exact haligned ⟨b, i⟩ (FreeLists.mem_blocks.mpr ⟨hi, hb⟩)
  · have hmem : (⟨b, i⟩ : Block) ∈ L.blocks := FreeLists.mem_blocks.mpr ⟨hi, hb⟩
    refine hlargest _ hmem n hn hdvd ?_
    -- the distance from `start` is the difference of the addresses
    have hin := hrep.carved.inside _ (List.mem_append_left _ hmem)
    have hpos := Block.bytes_pos ⟨b, i⟩
    have hb := b.isLt
    have hstart := start.isLt
    simp only [Block.hi, Block.lo, BitVec.toNat_sub, pageShift] at hin ⊢
    omega

/-- The region of the machine, with a kernel that ends at 2MB. -/
theorem buddy_init_tiles_memory : ∃ a L,
    buddyInit nullLinks 0xffff000000200000 0x2fe00000 = .ok a ∧ Rings a.links L ∧
    Tiles Block.extent L.blocks {x | 0xffff000000200000 ≤ x.toNat ∧
      x.toNat < 0xffff000030000000} := by
  obtain ⟨a, L, hinit, hrings, htiles, -⟩ := @buddy_init_tiles_region
    0xffff000000200000 0x2fe00000 nullLinks (by decide) (by decide)
  exact ⟨a, L, hinit, hrings, htiles⟩

end TinyMultiCore
