import Mathlib.Data.Nat.Bitwise
import TinyMultiCore.Buddy.Tiling

/-!
# Halves and buddies

`buddy_alloc` adds to find the other half of a block, `buddy_init` aligns blocks to absolute
addresses, and `buddy_free` flips a bit of the distance from `start`. The three agree on who
is whose buddy when that distance is aligned as the address is:

* `halvesAgree_iff` — the halves of an aligned block are buddies exactly when the bit that
  `buddy_free` flips is clear in the distance of the block from `start`;
* `exists_placed_of_fits` — `buddy_init` places a block of an order, or a larger one, when an
  aligned block of that order fits in the region;
* `split_halves_are_buddies_iff` — hence all the halves are buddies exactly when `start` is
  aligned to every block that fits.
-/

namespace TinyMultiCore

open IntrusiveRing Tiling

variable {start size a : U64} {L : FreeLists} {b c : Block} {i n : Nat}

/-- The two halves of the block of order `i + 1` at `a` are each other's buddies. -/
def HalvesAgree (start a : U64) (i : Nat) : Prop :=
  buddyOf start a i = a + blockSize i ∧ buddyOf start (a + blockSize i) i = a

/-- The blocks that halving makes of `b`. -/
inductive Derived (b : Block) : Block → Prop
  | self : Derived b b
  | lower {a : U64} {i : Nat} : Derived b ⟨a, i + 1⟩ → Derived b ⟨a, i⟩
  | upper {a : U64} {i : Nat} : Derived b ⟨a, i + 1⟩ → Derived b ⟨a + blockSize i, i⟩

/-- A block of order `n` that is aligned to its size fits in the region. -/
def BlockFits (start size : U64) (n : Nat) : Prop :=
  ∃ o, (start.toNat + o) % 2 ^ (n + pageShift) = 0 ∧ o + 2 ^ (n + pageShift) ≤ size.toNat

-- ---------------------------------------------------------------------------
-- Flipping a bit
-- ---------------------------------------------------------------------------

/-- Flipping a bit is an addition where it is clear, and a subtraction where it is set. -/
theorem flip_two_pow (x k : Nat) :
    x ^^^ 2 ^ k = if x / 2 ^ k % 2 = 0 then x + 2 ^ k else x - 2 ^ k := by
  have hpos := Nat.two_pow_pos k
  have hdiv : (x ^^^ 2 ^ k) / 2 ^ k = x / 2 ^ k ^^^ 1 := by
    rw [Nat.xor_div_two_pow, Nat.div_self hpos]
  have hmod : (x ^^^ 2 ^ k) % 2 ^ k = x % 2 ^ k := by
    rw [Nat.xor_mod_two_pow, Nat.mod_self, Nat.xor_zero]
  have hx := Nat.div_add_mod x (2 ^ k)
  have hxor := Nat.div_add_mod (x ^^^ 2 ^ k) (2 ^ k)
  rw [hdiv, hmod] at hxor
  split
  · rename_i heven
    rw [Nat.xor_one_of_even (Nat.even_iff.mpr heven), Nat.mul_add] at hxor
    omega
  · rename_i hodd
    rw [Nat.xor_one_of_odd (Nat.odd_iff.mpr (by omega)), Nat.mul_sub] at hxor
    have hq : x / 2 ^ k ≠ 0 := fun h0 => hodd (by rw [h0])
    have hle := Nat.le_mul_of_pos_right (2 ^ k) (Nat.pos_of_ne_zero hq)
    omega

theorem buddyOf_sub (start a : U64) (hi : i < maxOrder) :
    (buddyOf start a i - start).toNat = (a - start).toNat ^^^ 2 ^ (i + pageShift) := by
  have he : buddyOf start a i - start = (a - start) ^^^ blockSize i := by
    rw [buddyOf, BitVec.add_comm, BitVec.add_sub_cancel]
  rw [he, BitVec.toNat_xor, blockSize_toNat hi]

/-- Two addresses are the same when their distances from `start` are. -/
theorem eq_of_toNat_sub {x y : U64} (h : (x - start).toNat = (y - start).toNat) : x = y := by
  have := BitVec.eq_of_toNat_eq h
  rw [← BitVec.sub_add_cancel x start, this, BitVec.sub_add_cancel]

/-- **The halves of a block are buddies** exactly when the bit that `buddy_free` flips is
clear in the distance of the block from `start`. -/
theorem halvesAgree_iff (hi : i < maxOrder) :
    HalvesAgree start a i ↔ (a - start).toNat / 2 ^ (i + pageShift) % 2 = 0 := by
  have hk := two_pow_order_le hi
  have hpos := Nat.two_pow_pos (i + pageShift)
  have hlt := (a - start).isLt
  have hupper : (a + blockSize i - start).toNat =
      ((a - start).toNat + 2 ^ (i + pageShift)) % 2 ^ 64 := by
    have he : a + blockSize i - start = (a - start) + blockSize i := by
      rw [BitVec.sub_eq_add_neg, BitVec.sub_eq_add_neg, BitVec.add_assoc, BitVec.add_assoc,
        BitVec.add_comm (blockSize i)]
    rw [he, BitVec.toNat_add, blockSize_toNat hi]
  have hlow := buddyOf_sub start a hi
  rw [flip_two_pow] at hlow
  constructor
  · rintro ⟨hbuddy, -⟩
    by_contra hset
    rw [if_neg hset, hbuddy, hupper] at hlow
    -- the bit is set, so the distance is not smaller than it
    have hge : 2 ^ (i + pageShift) ≤ (a - start).toNat := by
      by_contra hsmall
      exact hset (by rw [Nat.div_eq_of_lt (by omega)])
    omega
  · intro hclear
    rw [if_pos hclear] at hlow
    -- clearing a lower bit of an address leaves room for the block
    have hroom : (a - start).toNat + 2 ^ (i + pageShift) < 2 ^ 64 := by
      rw [← hlow]
      exact (buddyOf start a i - start).isLt
    rw [Nat.mod_eq_of_lt hroom] at hupper
    refine ⟨eq_of_toNat_sub (hlow.trans hupper.symm), @eq_of_toNat_sub start _ _ ?_⟩
    rw [buddyOf_sub _ _ hi, flip_two_pow, hupper, Nat.add_div_right _ hpos, if_neg (by omega)]
    omega

-- ---------------------------------------------------------------------------
-- Alignment
-- ---------------------------------------------------------------------------

theorem two_pow_dvd_address (hi : i < maxOrder) : 2 ^ (i + pageShift) ∣ 2 ^ 64 :=
  pow_dvd_pow 2 (by unfold maxOrder at hi; unfold pageShift; omega)

/-- The distance of an aligned address from an aligned `start` is aligned. -/
theorem sub_aligned_iff (hi : i < maxOrder) (ha : a.toNat % 2 ^ (i + pageShift) = 0) :
    2 ^ (i + pageShift) ∣ (a - start).toNat ↔ start.toNat % 2 ^ (i + pageShift) = 0 := by
  have hstart := start.isLt
  have hdvd := two_pow_dvd_address hi
  rw [BitVec.toNat_sub, Nat.dvd_mod_iff hdvd, Nat.dvd_add_iff_left (Nat.dvd_of_mod_eq_zero ha) |>.symm,
    ← Nat.dvd_iff_mod_eq_zero]
  constructor
  · intro h
    have := (Nat.dvd_sub hdvd h)
    rwa [Nat.sub_sub_self hstart.le] at this
  · exact Nat.dvd_sub hdvd

/-- Halving keeps blocks aligned. -/
theorem Derived.aligned (h : Derived b c) (hb : b.order < maxOrder) (ha : b.Aligned) :
    c.Aligned ∧ c.order ≤ b.order := by
  induction h with
  | self => exact ⟨ha, le_rfl⟩
  | @lower a i _ ih =>
    obtain ⟨hal, hle⟩ := ih
    refine ⟨Nat.mod_eq_zero_of_dvd ?_, (Nat.le_succ i).trans hle⟩
    exact (pow_dvd_pow 2 (by simp)).trans (Nat.dvd_of_mod_eq_zero hal)
  | @upper a i _ ih =>
    obtain ⟨hal, hle⟩ := ih
    have hi : i < maxOrder := lt_of_lt_of_le (Nat.lt_succ_self i) (hle.trans hb.le)
    refine ⟨?_, (Nat.le_succ i).trans hle⟩
    have hlow : 2 ^ (i + pageShift) ∣ a.toNat :=
      (pow_dvd_pow 2 (by omega : i + pageShift ≤ i + 1 + pageShift)).trans
        (Nat.dvd_of_mod_eq_zero hal)
    show (a + blockSize i).toNat % 2 ^ (i + pageShift) = 0
    rw [BitVec.toNat_add, blockSize_toNat hi, Nat.mod_mod_of_dvd _ (two_pow_dvd_address hi)]
    exact Nat.mod_eq_zero_of_dvd (Nat.dvd_add hlow dvd_rfl)

/-- The lower halves of a block. -/
theorem Derived.lowers (b : Block) : ∀ {d : Nat}, d ≤ b.order → Derived b ⟨b.addr, b.order - d⟩
  | 0, _ => .self
  | d + 1, hd => by
    have h := Derived.lowers b (show d ≤ b.order by omega)
    rw [show b.order - d = b.order - (d + 1) + 1 by omega] at h
    exact h.lower

-- ---------------------------------------------------------------------------
-- What `buddy_init` places
-- ---------------------------------------------------------------------------

theorem start_add_lo (start : U64) (b : Block) :
    (start.toNat + b.lo start) % 2 ^ 64 = b.addr.toNat := by
  have hstart := start.isLt
  have haddr := b.addr.isLt
  rw [Block.lo, BitVec.toNat_sub]
  omega

/-- Where an aligned block fits, `buddy_init` has placed one that is not smaller. -/
theorem exists_placed_of_fits (hn : n < maxOrder) (hfits : BlockFits start size n)
    (htiles : Tiles Block.extent L.blocks (firstBytes start (2 ^ 21 * (size.toNat / 2 ^ 21))))
    (hin : ∀ b ∈ L.blocks, b.hi start ≤ size.toNat) (haligned : ∀ b ∈ L.blocks, b.Aligned)
    (hlargest : ∀ b ∈ L.blocks, b.Largest start size) :
    ∃ b ∈ L.blocks, n ≤ b.order := by
  obtain ⟨o, ho, hroom⟩ := hfits
  have hsz := size.isLt
  have hpage : 2 ^ 21 ≤ 2 ^ (n + pageShift) := Nat.pow_le_pow_right (by decide) (by simp [pageShift])
  have hoff : (start + BitVec.ofNat 64 o - start).toNat = o := by
    rw [BitVec.add_comm, BitVec.add_sub_cancel, BitVec.toNat_ofNat, Nat.mod_eq_of_lt (by omega)]
  have hmem : start + BitVec.ofNat 64 o ∈
      firstBytes start (2 ^ 21 * (size.toNat / 2 ^ 21)) := by
    rw [mem_firstBytes, hoff]
    omega
  obtain ⟨b, hb, hx⟩ := (htiles.cover _).mp hmem
  refine ⟨b, hb, ?_⟩
  by_contra hlt
  rw [mem_extent_iff (hin b hb), hoff] at hx
  have hm : b.order < maxOrder := (FreeLists.mem_blocks.mp hb).1
  have hsum := start_add_lo start b
  -- a smaller block over the first byte starts there
  have hfirst : o = b.lo start := by
    have hblock : 2 ^ (b.order + pageShift) ∣ start.toNat + b.lo start := by
      rw [← Nat.dvd_mod_iff (two_pow_dvd_address hm), hsum]
      exact Nat.dvd_of_mod_eq_zero (haligned b hb)
    have hpiece : 2 ^ (b.order + pageShift) ∣ start.toNat + o :=
      (pow_dvd_pow 2 (by omega)).trans (Nat.dvd_of_mod_eq_zero ho)
    have hdiff := Nat.dvd_sub hpiece hblock
    have hsmall : start.toNat + o - (start.toNat + b.lo start) < 2 ^ (b.order + pageShift) := by
      have := hx.2
      unfold Block.hi Block.bytes at this
      omega
    have := Nat.eq_zero_of_dvd_of_lt hdiff hsmall
    omega
  refine hlt (hlargest b hb n hn ?_ (hfirst ▸ hroom))
  rw [← hsum, ← hfirst, Nat.mod_mod_of_dvd _ (two_pow_dvd_address hn)]
  exact ho

/-- The halves of a placed block, and of the halves, are buddies when `start` is aligned to
the block. -/
theorem Derived.halvesAgree (h : Derived b ⟨a, i + 1⟩) (hb : b.order < maxOrder) (hal : b.Aligned)
    (hstart : start.toNat % 2 ^ (b.order + pageShift) = 0) : HalvesAgree start a i := by
  obtain ⟨ha, hle⟩ := h.aligned hb hal
  have hi : i + 1 < maxOrder := lt_of_le_of_lt hle hb
  rw [halvesAgree_iff (by omega)]
  have hdvd : 2 ^ (i + 1 + pageShift) ∣ (a - start).toNat := by
    refine (sub_aligned_iff hi ha).mpr (Nat.mod_eq_zero_of_dvd ?_)
    exact (pow_dvd_pow 2 (Nat.add_le_add_right hle _)).trans (Nat.dvd_of_mod_eq_zero hstart)
  obtain ⟨q, hq⟩ := hdvd
  rw [hq, show i + 1 + pageShift = (i + pageShift) + 1 by omega, pow_succ, mul_assoc,
    Nat.mul_div_cancel_left _ (Nat.two_pow_pos _), Nat.mul_mod_right]

/-- When the halves that `buddy_alloc` cuts off a block are buddies, `start` is aligned to
the block. -/
theorem aligned_of_halvesAgree (hs : start.toNat % 2 ^ pageShift = 0) (hb : b.order < maxOrder)
    (hal : b.Aligned) (h : ∀ a i, Derived b ⟨a, i + 1⟩ → HalvesAgree start a i) :
    ∀ {n : Nat}, n ≤ b.order → start.toNat % 2 ^ (n + pageShift) = 0
  | 0, _ => by rwa [Nat.zero_add]
  | n + 1, hn => by
    have ih := aligned_of_halvesAgree hs hb hal h (show n ≤ b.order by omega)
    have hderived : Derived b ⟨b.addr, n + 1⟩ := by
      have := Derived.lowers b (show b.order - (n + 1) ≤ b.order by omega)
      rwa [show b.order - (b.order - (n + 1)) = n + 1 by omega] at this
    have hclear := (halvesAgree_iff (by omega)).mp (h _ _ hderived)
    have hnext : b.addr.toNat % 2 ^ (n + 1 + pageShift) = 0 := (hderived.aligned hb hal).1
    -- one more bit of the distance is clear
    have hlow : 2 ^ (n + pageShift) ∣ (b.addr - start).toNat := by
      refine (sub_aligned_iff (by omega) (Nat.mod_eq_zero_of_dvd ?_)).mpr ih
      exact (pow_dvd_pow 2 (by omega : n + pageShift ≤ n + 1 + pageShift)).trans
        (Nat.dvd_of_mod_eq_zero hnext)
    refine (sub_aligned_iff (by omega) hnext).mp ?_
    obtain ⟨q, hq⟩ := hlow
    rw [hq, Nat.mul_div_cancel_left _ (Nat.two_pow_pos _)] at hclear
    rw [hq, show n + 1 + pageShift = (n + pageShift) + 1 by omega, pow_succ]
    exact Nat.mul_dvd_mul_left _ (Nat.dvd_of_mod_eq_zero hclear)

-- ---------------------------------------------------------------------------
-- All the halves
-- ---------------------------------------------------------------------------

/-- The halves of every block that halving makes of the listed ones are buddies. -/
def AllHalvesAgree (start : U64) (L : FreeLists) : Prop :=
  ∀ b ∈ L.blocks, ∀ a i, Derived b ⟨a, i + 1⟩ → HalvesAgree start a i

theorem allHalvesAgree_iff (hs : start.toNat % 2 ^ pageShift = 0)
    (htiles : Tiles Block.extent L.blocks (firstBytes start (2 ^ 21 * (size.toNat / 2 ^ 21))))
    (hin : ∀ b ∈ L.blocks, b.hi start ≤ size.toNat) (haligned : ∀ b ∈ L.blocks, b.Aligned)
    (hlargest : ∀ b ∈ L.blocks, b.Largest start size) :
    AllHalvesAgree start L ↔
      ∀ n < maxOrder, BlockFits start size n → start.toNat % 2 ^ (n + pageShift) = 0 := by
  constructor
  · intro h n hn hfits
    obtain ⟨b, hb, hle⟩ := exists_placed_of_fits hn hfits htiles hin haligned hlargest
    exact aligned_of_halvesAgree hs (FreeLists.mem_blocks.mp hb).1 (haligned b hb) (h b hb) hle
  · intro h b hb a i hderived
    have hord := (FreeLists.mem_blocks.mp hb).1
    refine hderived.halvesAgree hord (haligned b hb) (h _ hord ⟨b.lo start, ?_, hin b hb⟩)
    rw [← Nat.mod_mod_of_dvd _ (two_pow_dvd_address hord), start_add_lo]
    exact haligned b hb

/-- **Halves are buddies.** For every 2MB-aligned start and every size, the two halves of every
block that `buddy_init` places, and of every block that halving makes of these, are each
other's buddies exactly when `start` is divisible by the size of every block that fits in the
region, aligned to its size. -/
theorem split_halves_are_buddies_iff (m : NodeLinks) (size : U64) (hs : start % pageSize = 0) :
    ∃ a L, buddyInit m start size = .ok a ∧ Rings a.links L ∧
      (AllHalvesAgree a.startAddr L ↔
        ∀ n < maxOrder, BlockFits start size n → start.toNat % 2 ^ (n + pageShift) = 0) := by
  obtain ⟨a, L, hinit, hstart, hrep, htiles, haligned, hlargest⟩ :
    ∃ a L, buddyInit m start size = .ok a ∧ a.startAddr = start ∧
      Represents start size a.links L [] ∧
      Tiles Block.extent L.blocks (firstBytes start (2 ^ 21 * (size.toNat / 2 ^ 21))) ∧
      (∀ b ∈ L.blocks, b.Aligned) ∧ ∀ b ∈ L.blocks, b.Largest start size := buddyInit_tiles m hs
  refine ⟨a, L, hinit, hrep.rings, ?_⟩
  rw [hstart]
  exact allHalvesAgree_iff (aligned_iff.mp hs) htiles
    (fun b hb => hrep.carved.inside b (List.mem_append_left _ hb)) haligned hlargest

/-- A region that starts at a multiple of 512MB. -/
theorem aligned_region_halves : ∃ a L,
    buddyInit nullLinks 0xffff000020000000 0x10000000 = .ok a ∧ Rings a.links L ∧
    AllHalvesAgree a.startAddr L := by
  obtain ⟨a, L, hinit, hrings, hiff⟩ := @split_halves_are_buddies_iff
    0xffff000020000000 nullLinks 0x10000000 (by decide)
  have haligned : ∀ n < maxOrder, (0xffff000020000000 : U64).toNat % 2 ^ (n + pageShift) = 0 := by
    decide
  exact ⟨a, L, hinit, hrings, hiff.mpr fun n hn _ => haligned n hn⟩

/-- Behind a kernel that ends at 2MB: to `buddy_free`, the buddy of the lower half of the 4MB
block at 4MB is the page in front of it. -/
theorem kernel_region_halves : ∃ a L,
    buddyInit nullLinks 0xffff000000200000 0x2fe00000 = .ok a ∧ Rings a.links L ∧
    ⟨0xffff000000400000, 1⟩ ∈ L.blocks ∧
    buddyOf a.startAddr 0xffff000000400000 0 = 0xffff000000200000 ∧
    ¬AllHalvesAgree a.startAddr L := by
  obtain ⟨a, L, hinit, hstart, hrep⟩ : ∃ a L,
    buddyInit nullLinks 0xffff000000200000 0x2fe00000 = .ok a ∧ a.startAddr = 0xffff000000200000 ∧
      Represents 0xffff000000200000 0x2fe00000 a.links L [] := buddyInit_spec _ (by decide)
  have hfirst : (buddyInit nullLinks 0xffff000000200000 0x2fe00000).map
      (fun a => a.links.next (.head 1)) = .ok (.block 0xffff000000400000) := by decide +kernel
  rw [hinit] at hfirst
  have hfirst : a.links.next (.head 1) = .block 0xffff000000400000 := Except.ok.inj hfirst
  have hnext := (hrep.rings 1 (by decide)).next_head_mem
  rw [hfirst, List.mem_cons, block_mem_map] at hnext
  have hmem : (⟨0xffff000000400000, 1⟩ : Block) ∈ L.blocks :=
    FreeLists.mem_blocks.mpr ⟨by decide, hnext.resolve_left nofun⟩
  have hbuddy : buddyOf a.startAddr 0xffff000000400000 0 = 0xffff000000200000 := by
    rw [hstart]
    decide
  refine ⟨a, L, hinit, hrep.rings, hmem, hbuddy, fun hall => ?_⟩
  have hagree := (hall _ hmem _ _ .self).1
  rw [hbuddy] at hagree
  exact absurd hagree (by decide)

end TinyMultiCore
