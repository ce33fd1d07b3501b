import TinyMultiCore.Buddy.Operations
import TinyMultiCore.Lib.Tiling

/-!
# `buddy_alloc`, exactly

What `buddy_alloc` does on any lists that are well formed and whose blocks are pairwise
disjoint, wherever these lie: the blocks need not come from one region, nor from
`buddy_init`.

* `splitBlock_tiles` — the halves that are cut off tile the block together with what is
  left of it;
* `buddy_alloc_exact` — it fails exactly when all lists are empty from the wanted order on;
  otherwise a block leaves the least list that is not empty, one half of every order below
  it is listed, and the bytes are shared out anew.
-/

namespace TinyMultiCore

open IntrusiveRing Tiling

variable {m : NodeLinks} {L : FreeLists} {S : Set U64} {a block : U64} {i order : Nat}

-- ---------------------------------------------------------------------------
-- Extents
-- ---------------------------------------------------------------------------

/-- The addresses of the bytes of a block. -/
def Block.extent (b : Block) : Set U64 := {x | (x - b.addr).toNat < b.bytes}

theorem Block.mem_extent {b : Block} {x : U64} : x ∈ b.extent ↔ (x - b.addr).toNat < b.bytes :=
  Iff.rfl

theorem Block.addr_mem_extent (b : Block) : b.addr ∈ b.extent := by
  rw [Block.mem_extent, BitVec.sub_self]
  exact b.bytes_pos

/-- A distance that is measured from the middle of a block. -/
theorem toNat_sub_add_blockSize (hi : i < maxOrder) (x a : U64) :
    (x - (a + blockSize i)).toNat =
      (2 ^ 64 - 2 ^ (i + pageShift) + (x - a).toNat) % 2 ^ 64 := by
  have he : x - (a + blockSize i) = (x - a) - blockSize i := by
    rw [BitVec.sub_eq_add_neg, BitVec.sub_eq_add_neg, BitVec.sub_eq_add_neg, BitVec.neg_add,
      BitVec.sub_eq_add_neg, BitVec.add_assoc]
  rw [he, BitVec.toNat_sub, blockSize_toNat hi]

theorem two_pow_order_le (hi : i < maxOrder) : 2 ^ (i + pageShift) ≤ 2 ^ 29 :=
  Nat.pow_le_pow_right (by decide) (by unfold maxOrder at hi; unfold pageShift; omega)

/-- A block consists of its two halves. -/
theorem extent_halves (hi : i < maxOrder) (a : U64) :
    Block.extent ⟨a, i + 1⟩ = Block.extent ⟨a + blockSize i, i⟩ ∪ Block.extent ⟨a, i⟩ ∧
      Disjoint (Block.extent ⟨a + blockSize i, i⟩) (Block.extent ⟨a, i⟩) := by
  have hsize := two_pow_order_le hi
  have hbytes : Block.bytes ⟨a, i + 1⟩ = 2 ^ (i + pageShift) + 2 ^ (i + pageShift) :=
    bytes_succ a a i
  have hupper : ∀ x : U64, x ∈ Block.extent ⟨a + blockSize i, i⟩ ↔
      2 ^ (i + pageShift) ≤ (x - a).toNat ∧
        (x - a).toNat < 2 ^ (i + pageShift) + 2 ^ (i + pageShift) := by
    intro x
    have hx := (x - a).isLt
    rw [Block.mem_extent, toNat_sub_add_blockSize hi]
    show _ < 2 ^ (i + pageShift) ↔ _
    omega
  have hlower : ∀ x : U64, x ∈ Block.extent ⟨a, i⟩ ↔ (x - a).toNat < 2 ^ (i + pageShift) :=
    fun _ => Iff.rfl
  constructor
  · ext x
    rw [Set.mem_union, hupper, hlower, Block.mem_extent, hbytes]
    show (x - a).toNat < _ ↔ _
    omega
  · refine Set.disjoint_left.mpr fun x hx hx' => ?_
    rw [hupper] at hx
    rw [hlower] at hx'
    omega

theorem listed_of_tiles (hR : Rings m L) (h : Tiles Block.extent L.blocks S) : Listed m L := by
  refine ⟨hR, h.map_nodup Block.addr fun b c he hdis => ?_⟩
  exact Set.disjoint_left.mp hdis b.addr_mem_extent (he ▸ c.addr_mem_extent)

/-- A block that tiles a set together with the listed ones is on no list. -/
theorem notMem_of_tiles (h : Tiles Block.extent (⟨a, i⟩ :: L.blocks) S) {j : Nat}
    (hj : j < maxOrder) : a ∉ L j := by
  intro ha
  have hmem : (⟨a, j⟩ : Block) ∈ L.blocks := FreeLists.mem_blocks.mpr ⟨hj, ha⟩
  have hdis := (List.pairwise_cons.mp h.apart).1 _ hmem
  exact Set.disjoint_left.mp hdis (Block.addr_mem_extent ⟨a, i⟩) (Block.addr_mem_extent ⟨a, j⟩)

-- ---------------------------------------------------------------------------
-- Splitting
-- ---------------------------------------------------------------------------

/-- One half of every order on the way down is listed. -/
theorem FreeLists.split_apply (block : U64) (order n : Nat) : ∀ (i : Nat) (L : FreeLists),
    L.split block order i n =
      if order ≤ n ∧ n < i then (block + blockSize n) :: L n else L n
  | 0, L => by simp [FreeLists.split]
  | i + 1, L => by
    rw [FreeLists.split]
    by_cases hgt : i + 1 > order
    · rw [if_pos hgt, FreeLists.split_apply block order n i, FreeLists.push_apply]
      by_cases hn : n = i
      · subst hn
        rw [if_neg (by omega), if_pos rfl, if_pos ⟨by omega, by omega⟩]
      · rw [if_neg hn]
        by_cases hin : order ≤ n ∧ n < i
        · rw [if_pos hin, if_pos ⟨hin.1, by omega⟩]
        · rw [if_neg hin, if_neg (by omega)]
    · rw [if_neg hgt, if_neg (by omega)]

/-- The halves that are cut off tile the block together with what is left of it. -/
theorem splitBlock_tiles {block : U64} {order : Nat} : ∀ {i : Nat} {m : NodeLinks} {L : FreeLists},
    order ≤ i → i < maxOrder → Rings m L → Tiles Block.extent (⟨block, i⟩ :: L.blocks) S →
    Rings (splitBlock m block order i) (L.split block order i) ∧
      Tiles Block.extent (⟨block, order⟩ :: (L.split block order i).blocks) S
  | 0, m, L, hle, _, hR, h => by
    obtain rfl : order = 0 := by omega
    exact ⟨hR, h⟩
  | i + 1, m, L, hle, hi, hR, h => by
    have hi' : i < maxOrder := by omega
    rw [splitBlock, FreeLists.split]
    by_cases hgt : i + 1 > order
    · rw [if_pos hgt, if_pos hgt]
      obtain ⟨hunion, hdis⟩ := extent_halves hi' block
      have hcut := h.halve hunion hdis
      -- the upper half goes on its list, the lower one is cut further
      have htiles : Tiles Block.extent
          (⟨block, i⟩ :: (L.push i (block + blockSize i)).blocks) S :=
        (hcut.perm (List.Perm.swap _ _ _)).perm ((blocks_push hi' _).symm.cons _)
      have hlisted := listed_of_tiles hR (tiles_self (List.pairwise_cons.mp h.apart).2)
      have hnew : ∀ j < maxOrder, block + blockSize i ∉ L j := fun j hj =>
        notMem_of_tiles (tiles_self (hcut.apart.sublist
          ((List.sublist_cons_self _ _).cons_cons _))) hj
      exact splitBlock_tiles (by omega) hi' (hlisted.put hi' hnew) htiles
    · obtain rfl : order = i + 1 := by omega
      rw [if_neg hgt, if_neg hgt]
      exact ⟨hR, h⟩

-- ---------------------------------------------------------------------------
-- `buddy_alloc`
-- ---------------------------------------------------------------------------

/-- The lists after the first block `a` of the list `j` has been split down to `order`. -/
theorem FreeLists.split_drop {j : Nat} (hlow : ∀ k, order ≤ k → k < j → L k = []) (n : Nat) :
    (L.drop j a).split a order j n =
      if n = j then (L j).erase a
      else if order ≤ n ∧ n < j then [a + blockSize n] else L n := by
  rw [FreeLists.split_apply, FreeLists.drop_apply]
  by_cases hn : n = j
  · rw [if_pos hn, if_pos hn, if_neg (by omega)]
  · rw [if_neg hn, if_neg hn]
    split
    · rename_i hbetween
      rw [hlow n hbetween.1 hbetween.2]
    · rfl

/-- The first block of the list `j` is taken. -/
theorem Rings.alloc (hR : Rings m L)
    (hdisj : L.blocks.Pairwise fun b c => Disjoint b.extent c.extent) {j : Nat} {rest : List U64}
    (hj : j < maxOrder) (hle : order ≤ j) (hLj : L j = a :: rest) :
    Rings (splitBlock (listDel m (.block a)) a order j) ((L.drop j a).split a order j) ∧
      Tiles Block.extent (⟨a, order⟩ :: ((L.drop j a).split a order j).blocks)
        {x | ∃ b ∈ L.blocks, x ∈ b.extent} := by
  have hself := tiles_self hdisj
  have hmem : a ∈ L j := hLj ▸ List.mem_cons_self
  exact splitBlock_tiles hle hj ((listed_of_tiles hR hself).take hj hmem)
    (hself.perm (blocks_drop hj hmem))

/-- **`buddy_alloc` is exact** on any well-formed lists of disjoint blocks. It returns `NULL`
and changes nothing exactly when all the lists from the wanted order on are empty. Otherwise
the block that it returns is taken off the least list `j` that is not, nothing else is; one
block is added on each order below `j` down to the wanted one, nothing on any other; and the
block that it returns, cut down to the wanted order, and the blocks on the lists share out
the bytes that were on the lists. -/
theorem buddy_alloc_exact (hR : Rings m L)
    (hdisj : L.blocks.Pairwise fun b c => Disjoint b.extent c.extent) (ho : order < maxOrder) :
    (buddyAlloc m order = .ok (0, m) ↔ ∀ j, order ≤ j → j < maxOrder → L j = []) ∧
    ∀ j, order ≤ j → j < maxOrder → L j ≠ [] → (∀ k, order ≤ k → k < j → L k = []) →
      ∃ a m' L', a ∈ L j ∧ buddyAlloc m order = .ok (a, m') ∧ Rings m' L' ∧
        Tiles Block.extent (⟨a, order⟩ :: L'.blocks) {x | ∃ b ∈ L.blocks, x ∈ b.extent} ∧
        ∀ n, L' n = if n = j then (L j).erase a
          else if order ≤ n ∧ n < j then [a + blockSize n] else L n := by
  have hn : order + (maxOrder - order) = maxOrder := by omega
  constructor
  · rw [buddyAlloc]
    rcases allocLoop_spec hR (le_refl order) hn with
      ⟨hnone, hall⟩ | ⟨j, a, rest, hij, hj, hlow, hLj, heq⟩
    · exact iff_of_true hnone hall
    · refine iff_of_false (fun hnull => ?_) fun hall => by simp [hall j hij hj] at hLj
      -- the list `j` has lost a block
      rw [heq] at hnull
      obtain ⟨-, hm⟩ := Prod.mk.inj (Except.ok.inj hnull)
      have hrings := (hR.alloc hdisj hj hij hLj).1
      rw [hm] at hrings
      have hsame := hR.list_unique hrings hj
      rw [FreeLists.split_drop hlow, if_pos rfl, hLj, List.erase_cons_head] at hsame
      exact absurd (congrArg List.length hsame) (by simp)
  · intro j hij hj hne hlow
    rcases allocLoop_spec hR (le_refl order) hn with
      ⟨-, hall⟩ | ⟨j', a, rest, hij', hj', hlow', hLj, heq⟩
    · exact absurd (hall j hij hj) hne
    · -- `j` is the least order with a block
      obtain rfl : j = j' := by
        rcases Nat.lt_trichotomy j j' with hlt | rfl | hgt
        · exact absurd (hlow' j hij hlt) hne
        · rfl
        · exact absurd (hlow j' hij' hgt) (by simp [hLj])
      obtain ⟨hrings, htiles⟩ := hR.alloc hdisj hj hij hLj
      exact ⟨a, _, _, hLj ▸ List.mem_cons_self, heq, hrings, htiles, FreeLists.split_drop hlow⟩

/-- A block of 8MB that is split for a page. -/
theorem buddy_alloc_splits : ∃ m m' L', buddyAlloc m 0 = .ok (0xffff000000800000, m') ∧
    Rings m' L' ∧ L' 0 = [0xffff000000a00000] ∧ L' 1 = [0xffff000000c00000] ∧ L' 2 = [] := by
  -- the block on the list of order 2
  have hempty : Listed (initHeads nullLinks maxOrder) fun _ => [] :=
    (@represents_empty 0 0 nullLinks).listed
  have hrings := hempty.put (i := 2) (a := 0xffff000000800000) (by decide) (by simp)
  have hblocks : (FreeLists.push (fun _ => []) 2 0xffff000000800000).blocks =
      [⟨0xffff000000800000, 2⟩] := by decide
  obtain ⟨-, hexact⟩ := buddy_alloc_exact hrings (by rw [hblocks]; exact List.pairwise_singleton _ _)
    (show 0 < maxOrder by decide)
  obtain ⟨a, m', L', ha, hok, hrings', -, hlists⟩ := hexact 2 (by decide) (by decide) (by simp)
    fun k _ hk => by simp [show k ≠ 2 by omega]
  obtain rfl : a = 0xffff000000800000 := by simpa using ha
  refine ⟨_, m', L', hok, hrings', ?_, ?_, ?_⟩
  · rw [hlists]
    decide
  · rw [hlists]
    decide
  · rw [hlists]
    simp

end TinyMultiCore
