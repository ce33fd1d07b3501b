import Mathlib.Tactic.Ring
import TinyMultiCore.Buddy.Refinement

/-!
# `buddy_init` and `buddy_alloc` on the free lists

On a memory that represents carved free lists:

* `buddyInit_spec` — from a 2MB-aligned start `buddy_init` returns, and its lists
  are carved out of the region;
* `buddyAlloc_spec` — `buddy_alloc` fails exactly when no list of the wanted
  order or above has a block, and otherwise takes the first block of the least
  such order and puts the halves it cuts off back on the lists.
-/

namespace TinyMultiCore

open IntrusiveRing TransitionSystem

variable {start size : U64} {m : NodeLinks} {L : FreeLists} {held : List Block}

/-! ## `buddy_init` -/

theorem initHeads_ring (m : NodeLinks) : ∀ {n i : Nat}, i < n →
    Ring (initHeads m n) (.head i) []
  | n + 1, i, hi => by
    rw [initHeads]
    by_cases hin : i = n
    · subst hin
      exact Ring.reset _ _
    · refine (initHeads_ring m (by omega : i < n)).frame fun z hz => ?_
      rw [List.mem_singleton] at hz
      subst hz
      simp [listInit, hin]

theorem represents_empty (m : NodeLinks) :
    Represents start size (initHeads m maxOrder) (fun _ => []) [] := by
  refine ⟨fun i hi => initHeads_ring m hi, ?_⟩
  have hnone : FreeLists.blocks (fun _ => []) = [] := by simp [FreeLists.blocks]
  rw [hnone]
  exact Carved.nil

/-- What the search for an order finds: the largest one that fits and is aligned. -/
theorem placeBlock_eq_some {current remaining c r : U64} {m' : NodeLinks} :
    ∀ {n : Nat}, placeBlock m current remaining n = some (m', c, r) →
      ∃ i < n, blockSize i ≤ remaining ∧ current % blockSize i = 0 ∧
        (∀ j < n, blockSize j ≤ remaining → current % blockSize j = 0 → j ≤ i) ∧
        m' = listAdd m (.head i) (.block current) ∧
        c = current + blockSize i ∧ r = remaining - blockSize i
  | 0, h => by simp [placeBlock] at h
  | n + 1, h => by
    rw [placeBlock] at h
    split at h
    · rename_i hfit
      simp only [Option.some.injEq, Prod.mk.injEq] at h
      obtain ⟨rfl, rfl, rfl⟩ := h
      exact ⟨n, by omega, hfit.1, hfit.2, fun j hj _ _ => by omega, rfl, rfl, rfl⟩
    · rename_i hno
      obtain ⟨i, hi, hfit, haligned, hmax, hrest⟩ := placeBlock_eq_some h
      refine ⟨i, by omega, hfit, haligned, fun j hj hj1 hj2 => ?_, hrest⟩
      rcases Nat.lt_succ_iff_lt_or_eq.mp hj with hj | rfl
      · exact hmax j hj hj1 hj2
      · exact absurd ⟨hj1, hj2⟩ hno

/-- A page-aligned address with a page left always takes a block. -/
theorem placeBlock_isSome (m : NodeLinks) {current remaining : U64} (hc : current % blockSize 0 = 0)
    (hr : blockSize 0 ≤ remaining) :
    ∀ n, 0 < n → ∃ m' c r, placeBlock m current remaining n = some (m', c, r)
  | n + 1, _ => by
    rw [placeBlock]
    split
    · exact ⟨_, _, _, rfl⟩
    · rename_i hno
      rcases Nat.eq_zero_or_pos n with rfl | hn
      · exact absurd ⟨hr, hc⟩ hno
      · exact placeBlock_isSome m hc hr n hn

/-- The state of the outer loop: the blocks placed so far lie below `current`,
and what is left of the region is `remaining`. -/
structure InitInv (start size : U64) (m : NodeLinks) (L : FreeLists)
    (current remaining : U64) : Prop where
  repr : Represents start size m L []
  below : ∀ b ∈ L.blocks, b.hi start ≤ (current - start).toNat
  left : (current - start).toNat + remaining.toNat = size.toNat

theorem InitInv.place {current remaining : U64} (h : InitInv start size m L current remaining)
    {i : Nat} (hi : i < maxOrder) (hfit : blockSize i ≤ remaining) :
    InitInv start size (listAdd m (.head i) (.block current)) (L.push i current)
      (current + blockSize i) (remaining - blockSize i) := by
  have hsz := size.isLt
  have hbs := blockSize_toNat hi
  have hleft := h.left
  have hrem : (remaining - blockSize i).toNat = remaining.toNat - 2 ^ (i + pageShift) := by
    rw [BitVec.toNat_sub_of_le hfit, hbs]
  rw [BitVec.le_def, hbs] at hfit
  have hlo := lo_add_blockSize hi i (show (current - start).toNat + _ < 2 ^ 64 by omega)
  have hheld : Represents start size m L [⟨current, i⟩] := by
    refine ⟨h.repr.rings, (Carved.cons h.repr.carved ?_ fun c hc => ?_).perm
      List.perm_middle.symm⟩
    · simp only [Block.hi, Block.bytes, Block.lo]
      omega
    · rw [List.append_nil] at hc
      exact Or.inr (h.below c hc)
  refine ⟨hheld.put hi, fun b hb => ?_, ?_⟩
  · rw [show (current + blockSize i - start).toNat = _ from hlo]
    rcases List.mem_cons.mp ((blocks_push hi current).mem_iff.mp hb) with rfl | hb
    · exact le_rfl
    · have := h.below b hb
      omega
  · rw [show (current + blockSize i - start).toNat = _ from hlo, hrem]
    omega

theorem aligned_iff {a : U64} : a % blockSize 0 = 0 ↔ a.toNat % 2 ^ pageShift = 0 := by
  have h0 : (blockSize 0).toNat = 2 ^ pageShift := blockSize_toNat (by decide)
  rw [← BitVec.toNat_inj, BitVec.toNat_umod, h0]
  rfl

/-- Every block is a whole number of pages, so placing one keeps the alignment. -/
theorem aligned_add {a : U64} (ha : a % blockSize 0 = 0) {i : Nat} (hi : i < maxOrder) :
    (a + blockSize i) % blockSize 0 = 0 := by
  rw [aligned_iff] at *
  rw [BitVec.toNat_add, blockSize_toNat hi,
    Nat.mod_mod_of_dvd _ (pow_dvd_pow 2 (by decide : pageShift ≤ 64)), Nat.add_mod, ha,
    pow_add, Nat.mul_mod_left, Nat.zero_add, Nat.zero_mod]

/-- The rule for the outer loop: what every turn keeps holds at the end, when less than a
page is left. -/
theorem initLoop_invariant {P : NodeLinks → U64 → U64 → Prop}
    (hturn : ∀ m current remaining i, P m current remaining → i < maxOrder →
      blockSize i ≤ remaining → current % blockSize i = 0 →
      (∀ j < maxOrder, blockSize j ≤ remaining → current % blockSize j = 0 → j ≤ i) →
      P (listAdd m (.head i) (.block current)) (current + blockSize i) (remaining - blockSize i)) :
    ∀ {fuel : Nat} {m m' : NodeLinks} {current remaining : U64}, P m current remaining →
      initLoop fuel m current remaining = .ok m' → ∃ c r, P m' c r ∧ r < 1#64 <<< 21
  | 0, _, _, _, _, _, h => by simp [initLoop] at h
  | fuel + 1, m, m', current, remaining, hP, h => by
    rw [initLoop] at h
    split at h
    · split at h
      · rename_i m₁ c r hplace
        obtain ⟨i, hi, hfit, haligned, hmax, rfl, rfl, rfl⟩ := placeBlock_eq_some hplace
        exact initLoop_invariant hturn (hturn m current remaining i hP hi hfit haligned hmax) h
      · simp at h
    · rename_i hlt
      cases h
      exact ⟨current, remaining, hP, BitVec.not_le.mp hlt⟩

theorem initLoop_spec {fuel : Nat} {m m' : NodeLinks} {L : FreeLists} {current remaining : U64}
    (h : InitInv start size m L current remaining)
    (hok : initLoop fuel m current remaining = .ok m') : ∃ L', Represents start size m' L' [] := by
  obtain ⟨c, r, ⟨L', h'⟩, -⟩ := initLoop_invariant
    (P := fun m current remaining => ∃ L, InitInv start size m L current remaining)
    (fun m current remaining i ⟨L, h⟩ hi hfit _ _ => ⟨_, h.place hi hfit⟩) ⟨L, h⟩ hok
  exact ⟨L', h'.repr⟩

/-- **Termination of `buddy_init`.** Each turn takes at least a page. -/
theorem initLoop_returns : ∀ {fuel : Nat} (m : NodeLinks) {current remaining : U64},
    current % blockSize 0 = 0 → remaining.toNat / 2 ^ pageShift < fuel →
    ∃ m', initLoop fuel m current remaining = .ok m'
  | fuel + 1, m, current, remaining, hc, hfuel => by
    rw [initLoop]
    split
    · rename_i hr
      obtain ⟨m₁, c, r, hplace⟩ := placeBlock_isSome m hc hr maxOrder (by decide)
      rw [hplace]
      obtain ⟨i, hi, hfit, -, -, rfl, rfl, rfl⟩ := placeBlock_eq_some hplace
      refine initLoop_returns _ (aligned_add hc hi) ?_
      have hbs := blockSize_toNat hi
      rw [BitVec.toNat_sub_of_le hfit, hbs]
      have hle : remaining.toNat - 2 ^ (i + pageShift) ≤ remaining.toNat - 2 ^ pageShift :=
        Nat.sub_le_sub_left (Nat.pow_le_pow_right (by decide) (by omega)) _
      have hpage : 2 ^ pageShift ≤ remaining.toNat := by
        rw [BitVec.le_def, hbs] at hfit
        exact le_trans (Nat.pow_le_pow_right (by decide) (by omega)) hfit
      have hdiv : (remaining.toNat - 2 ^ (i + pageShift)) / 2 ^ pageShift ≤
          (remaining.toNat - 2 ^ pageShift) / 2 ^ pageShift := Nat.div_le_div_right hle
      have hone := Nat.div_eq_sub_div (Nat.two_pow_pos pageShift) hpage
      omega
    · exact ⟨m, rfl⟩

/-- **`buddy_init`** on a page-aligned start returns, with lists carved out of
the region. -/
theorem buddyInit_spec (m : NodeLinks) (hs : start % pageSize = 0) :
    ∃ a L, buddyInit m start size = .ok a ∧ a.startAddr = start ∧
      Represents start size a.links L [] := by
  obtain ⟨m', hm'⟩ : ∃ m', initLoop (size.toNat / 2 ^ 21 + 1) (initHeads m maxOrder)
      start size = .ok m' := initLoop_returns _ hs (Nat.lt_succ_self _)
  have hinv : InitInv start size (initHeads m maxOrder) (fun _ => []) start size := by
    refine ⟨represents_empty m, fun b hb => ?_, by simp⟩
    simp [FreeLists.blocks] at hb
  obtain ⟨L, hL⟩ := initLoop_spec hinv hm'
  refine ⟨⟨m', start⟩, L, ?_, rfl, hL⟩
  rw [buddyInit, hm']
  rfl

/-! ## `buddy_alloc` -/

namespace FreeLists

/-- The lists after the order-`i` block has been split down to `order`. -/
def split (L : FreeLists) (block : U64) (order : Nat) : Nat → FreeLists
  | 0 => L
  | i + 1 =>
    if i + 1 > order then (L.push i (block + blockSize i)).split block order i else L

end FreeLists

theorem splitBlock_spec {block : U64} {order : Nat} :
    ∀ {i : Nat} {m : NodeLinks} {L : FreeLists}, order ≤ i → i < maxOrder →
      Represents start size m L (⟨block, i⟩ :: held) →
      Represents start size (splitBlock m block order i) (L.split block order i)
        (⟨block, order⟩ :: held) ∧
      bytesOf (L.split block order i).blocks + 2 ^ (order + pageShift) =
        bytesOf L.blocks + 2 ^ (i + pageShift)
  | 0, m, L, hle, _, h => by
    obtain rfl : order = 0 := by omega
    exact ⟨h, rfl⟩
  | i + 1, m, L, hle, hi, h => by
    rw [splitBlock, FreeLists.split]
    by_cases hgt : i + 1 > order
    · rw [if_pos hgt, if_pos hgt]
      have hcut := (h.cut (by omega)).put (by omega)
      obtain ⟨hrep, hbytes⟩ := splitBlock_spec (show order ≤ i by omega) (by omega) hcut
      refine ⟨hrep, ?_⟩
      rw [hbytes, bytesOf_push (by omega), show i + 1 + pageShift = (i + pageShift) + 1 by omega,
        pow_succ]
      ring
    · obtain rfl : order = i + 1 := by omega
      rw [if_neg hgt, if_neg hgt]
      exact ⟨h, rfl⟩

theorem allocLoop_spec {order : Nat} (hR : Rings m L) :
    ∀ {n i : Nat}, order ≤ i → i + n = maxOrder →
      (allocLoop m order n i = .ok (0, m) ∧ ∀ j, i ≤ j → j < maxOrder → L j = []) ∨
      ∃ j block rest, i ≤ j ∧ j < maxOrder ∧ (∀ k, i ≤ k → k < j → L k = []) ∧
        L j = block :: rest ∧
        allocLoop m order n i =
          .ok (block, splitBlock (listDel m (.block block)) block order j)
  | 0, i, _, hn => Or.inl ⟨rfl, fun j _ _ => by omega⟩
  | n + 1, i, hle, hn => by
    have hi : i < maxOrder := by omega
    rw [allocLoop]
    cases hLi : L i with
    | nil =>
      rw [if_pos ((listEmpty_iff hR hi).mpr hLi)]
      have hne : ∀ j, i ≤ j → ¬ i + 1 ≤ j → L j = [] := by
        intro j h1 h2
        obtain rfl : j = i := by omega
        exact hLi
      rcases allocLoop_spec hR (show order ≤ i + 1 by omega)
        (show i + 1 + n = maxOrder by omega) with
        ⟨hnone, hall⟩ | ⟨j, block, rest, hij, hj, hlow, hLj, heq⟩
      · refine Or.inl ⟨hnone, fun j h1 h2 => ?_⟩
        by_cases hij : i + 1 ≤ j
        · exact hall j hij h2
        · exact hne j h1 hij
      · refine Or.inr ⟨j, block, rest, by omega, hj, fun k h1 h2 => ?_, hLj, heq⟩
        by_cases hik : i + 1 ≤ k
        · exact hlow k hik h2
        · exact hne k h1 hik
    | cons block rest =>
      have hfirst : m.next (.head i) = .block block := by
        have hring := hR i hi
        rw [hLi, List.map_cons] at hring
        exact hring.next_head_cons
      rw [if_neg (by rw [listEmpty_iff hR hi, hLi]; simp), hfirst]
      exact Or.inr ⟨i, block, rest, le_rfl, hi, fun k h1 h2 => by omega, hLi, rfl⟩

/-- The lists of the orders from `order` up have a block, and `block` is the first
one on the least of them. -/
def FirstFree (L : FreeLists) (order : Nat) (block : U64) : Prop :=
  ∃ j, order ≤ j ∧ j < maxOrder ∧ (∀ k, order ≤ k → k < j → L k = []) ∧
    (L j).head? = some block

theorem FirstFree.unique {order : Nat} {a b : U64} (ha : FirstFree L order a)
    (hb : FirstFree L order b) : a = b := by
  obtain ⟨i, hi, -, hlow, hLi⟩ := ha
  obtain ⟨j, hj, -, hlow', hLj⟩ := hb
  -- neither of the two orders can be below the other
  have hij : ¬ i < j := fun h => by simp [hlow' i hi h] at hLi
  have hji : ¬ j < i := fun h => by simp [hlow j hj h] at hLj
  obtain rfl : i = j := by omega
  rw [hLi] at hLj
  exact Option.some.inj hLj

/-- **`buddy_alloc`.** Either every list from `order` up is empty and nothing
changes, or the first block of the least non-empty one is taken and split down. -/
theorem buddyAlloc_spec (h : Represents start size m L held) {order : Nat}
    (ho : order < maxOrder) :
    (buddyAlloc m order = .ok (0, m) ∧ ∀ j, order ≤ j → j < maxOrder → L j = []) ∨
    ∃ block m' L', FirstFree L order block ∧ buddyAlloc m order = .ok (block, m') ∧
      Represents start size m' L' (⟨block, order⟩ :: held) ∧
      bytesOf L'.blocks + 2 ^ (order + pageShift) = bytesOf L.blocks := by
  rw [buddyAlloc]
  rcases allocLoop_spec h.rings (le_refl order)
      (show order + (maxOrder - order) = maxOrder by omega) with
    hnone | ⟨j, block, rest, hij, hj, hlow, hLj, heq⟩
  · exact Or.inl hnone
  · have hmem : block ∈ L j := by simp [hLj]
    obtain ⟨hrep, hbytes⟩ := splitBlock_spec hij hj (h.take hj hmem)
    refine Or.inr ⟨block, _, _, ⟨j, hij, hj, hlow, by rw [hLj, List.head?_cons]⟩, heq, hrep, ?_⟩
    rw [hbytes, bytesOf_drop hj hmem]
    omega

end TinyMultiCore
