import Mathlib.Algebra.BigOperators.Group.List.Basic
import Mathlib.Data.List.Perm.Subperm
import Mathlib.Tactic.Ring
import TinyMultiCore.Buddy.Model

/-!
# Blocks of the region

The abstract side of the buddy allocator. A free list is the list of its block
addresses (`FreeLists`), a block is an address with an order, and what matters
about a collection of blocks is that it is **carved** out of the region
`[start, start + size)`: pairwise disjoint extents, none of which leaves the
region. Extents are measured from `start`, so that a region which wraps around
the address space needs no special treatment.

The operations the allocator performs on such a collection are to reorder it, to
drop a block from it, and to cut a block in two halves (`Carved.perm`,
`Carved.of_cons`, `Carved.split`).
-/

namespace TinyMultiCore

/-- The block addresses on the list of each order, the first block of a list first. Only
the orders below `maxOrder` have a list in the allocator; what this says about the others
does not matter. -/
abbrev FreeLists := Nat → List U64

/-- A block is known by its address and its order: the code has no other record of its size
than the list that it is on. -/
structure Block where
  addr : U64
  order : Nat
  deriving DecidableEq

namespace Block

def bytes (b : Block) : Nat := 2 ^ (b.order + pageShift)

/-- The first byte, as an offset from the start of the region. The difference of two
addresses is right even where the region wraps around, so that offsets can be compared as
numbers where addresses cannot. -/
def lo (start : U64) (b : Block) : Nat := (b.addr - start).toNat

/-- The offset behind the last byte. -/
def hi (start : U64) (b : Block) : Nat := b.lo start + b.bytes

/-- The one block ends before the other begins. That is more than two different addresses:
the allocator hands a block out whole, and `kalloc` clears all of it. -/
def Apart (start : U64) (b c : Block) : Prop :=
  b.hi start ≤ c.lo start ∨ c.hi start ≤ b.lo start

end Block

/-- An allocated page is a block of order 0. -/
def pageBlock (a : U64) : Block := ⟨a, 0⟩

namespace FreeLists

def push (L : FreeLists) (i : Nat) (a : U64) : FreeLists := Function.update L i (a :: L i)

def drop (L : FreeLists) (i : Nat) (a : U64) : FreeLists :=
  Function.update L i ((L i).erase a)

@[simp] theorem push_apply (L : FreeLists) (i j : Nat) (a : U64) :
    L.push i a j = if j = i then a :: L i else L j := by
  simp [push, Function.update_apply]

@[simp] theorem drop_apply (L : FreeLists) (i j : Nat) (a : U64) :
    L.drop i a j = if j = i then (L i).erase a else L j := by
  simp [drop, Function.update_apply]

/-- All the blocks on the lists, each with the order of its list. An address on two lists
is two blocks here, which overlap: to say that the blocks are apart is to say as well that
no node is linked in twice. -/
def blocks (L : FreeLists) : List Block :=
  (List.range maxOrder).flatMap fun i => (L i).map fun a => ⟨a, i⟩

theorem mem_blocks {L : FreeLists} {b : Block} :
    b ∈ L.blocks ↔ b.order < maxOrder ∧ b.addr ∈ L b.order := by
  simp only [blocks, List.mem_flatMap, List.mem_range, List.mem_map]
  constructor
  · rintro ⟨i, hi, a, ha, rfl⟩
    exact ⟨hi, ha⟩
  · rintro ⟨hi, ha⟩
    exact ⟨b.order, hi, b.addr, ha, rfl⟩

end FreeLists

/-! ## One list changes -/

/-- Two families that differ at one index, where the first has one more element. Adding a
block to a list and taking one off it are both of this kind, and what follows about all the
blocks is up to their order: the loops of the allocator look at one list at a time. -/
theorem flatMap_perm_cons {β γ : Type*} {f g : β → List γ} {y : γ} {i : β} :
    ∀ {xs : List β}, xs.Nodup → i ∈ xs → (f i).Perm (y :: g i) →
      (∀ j, j ≠ i → f j = g j) → (xs.flatMap f).Perm (y :: xs.flatMap g)
  | x :: xs, hnd, hi, hp, hne => by
    rw [List.nodup_cons] at hnd
    rw [List.flatMap_cons, List.flatMap_cons]
    by_cases hxi : x = i
    · subst hxi
      have hrest : xs.flatMap f = xs.flatMap g := by
        refine List.flatMap_congr fun j hj => hne j ?_
        rintro rfl
        exact hnd.1 hj
      rw [hrest, ← List.cons_append]
      exact hp.append_right _
    · have hmem : i ∈ xs := (List.mem_cons.mp hi).resolve_left (Ne.symm hxi)
      rw [hne x hxi]
      refine ((flatMap_perm_cons hnd.2 hmem hp hne).append_left (g x)).trans ?_
      exact List.perm_middle

/-- `list_add`: one block more, and the others as they were. -/
theorem blocks_push {L : FreeLists} {i : Nat} (hi : i < maxOrder) (a : U64) :
    (L.push i a).blocks.Perm (⟨a, i⟩ :: L.blocks) := by
  refine flatMap_perm_cons List.nodup_range (List.mem_range.mpr hi) ?_ fun j hj => ?_
  · simp
  · simp [hj]

/-- `list_del`: one block less. The block has to be on the list, since the code unlinks the
node wherever it is. -/
theorem blocks_drop {L : FreeLists} {i : Nat} {a : U64} (hi : i < maxOrder) (ha : a ∈ L i) :
    L.blocks.Perm (⟨a, i⟩ :: (L.drop i a).blocks) := by
  refine flatMap_perm_cons List.nodup_range (List.mem_range.mpr hi) ?_ fun j hj => ?_
  · have := (List.perm_cons_erase ha).map fun a => (⟨a, i⟩ : Block)
    simpa using this
  · simp [hj]

/-! ## Arithmetic of extents -/

/-- `1 << (i + PAGE_SHIFT)` does not overflow for any of the orders, the largest of which is
far below 64 bits. -/
theorem blockSize_toNat {i : Nat} (hi : i < maxOrder) :
    (blockSize i).toNat = 2 ^ (i + pageShift) := by
  have hlt : 2 ^ (i + pageShift) < 2 ^ 64 :=
    Nat.pow_lt_pow_right (by omega) (by unfold maxOrder at hi; unfold pageShift; omega)
  rw [blockSize, BitVec.toNat_shiftLeft, Nat.shiftLeft_eq]
  simp only [BitVec.toNat_ofNat]
  rw [Nat.mod_eq_of_lt (by omega)]
  omega

theorem Block.bytes_pos (b : Block) : 0 < b.bytes := Nat.two_pow_pos _

theorem pageBlock_bytes (a : U64) : (pageBlock a).bytes = 2 ^ pageShift := by
  simp [pageBlock, Block.bytes]

theorem Block.Apart.symm {start : U64} {b c : Block} (h : b.Apart start c) :
    c.Apart start b := Or.symm h

/-- No block is empty, so that blocks which are apart start at different addresses. This is
how the invariants below come to speak of nodes, which the lists have, and not of bytes. -/
theorem Block.Apart.addr_ne {start : U64} {b c : Block} (h : b.Apart start c) :
    b.addr ≠ c.addr := by
  intro he
  have hlo : b.lo start = c.lo start := by
    unfold Block.lo
    rw [he]
  have hb := b.bytes_pos
  have hc := c.bytes_pos
  unfold Block.Apart Block.hi at h
  omega

/-- Moving up inside the region adds to the offset. The addition of the code is one of
64-bit addresses; it agrees with the one of offsets as long as the sum stays inside the
address space, which it does for every block of the region. -/
theorem lo_add_blockSize {start a : U64} {n : Nat} (hn : n < maxOrder) (i : Nat)
    (h : (a - start).toNat + 2 ^ (n + pageShift) < 2 ^ 64) :
    Block.lo start ⟨a + blockSize n, i⟩ = (a - start).toNat + 2 ^ (n + pageShift) := by
  have he : a + blockSize n - start = (a - start) + blockSize n := by
    rw [BitVec.sub_eq_add_neg, BitVec.sub_eq_add_neg, BitVec.add_assoc, BitVec.add_assoc,
      BitVec.add_comm (blockSize n)]
  rw [Block.lo, he, BitVec.toNat_add, blockSize_toNat hn]
  exact Nat.mod_eq_of_lt h

/-- A block is as large as two of the order below, whatever their addresses are. -/
theorem bytes_succ (a a' : U64) (i : Nat) :
    Block.bytes ⟨a, i + 1⟩ = Block.bytes ⟨a', i⟩ + Block.bytes ⟨a', i⟩ := by
  unfold Block.bytes
  rw [show i + 1 + pageShift = (i + pageShift) + 1 by omega, pow_succ]
  ring

/-! ## Carved collections -/

/-- The blocks `bs` are pairwise disjoint parts of the region. The collection may hold free
blocks and allocated pages together, and need not fill the region: this is all that safety
asks for. Whether a part of the region gets lost is a matter of `bytesOf`. -/
structure Carved (start size : U64) (bs : List Block) : Prop where
  apart : bs.Pairwise (Block.Apart start)
  inside : ∀ b ∈ bs, b.hi start ≤ size.toNat

namespace Carved

variable {start size : U64} {bs cs : List Block} {b : Block}

theorem nil : Carved start size [] := ⟨List.Pairwise.nil, by simp⟩

/-- The order does not matter, so that a block can always be brought to the front. -/
theorem perm (h : Carved start size bs) (hp : bs.Perm cs) : Carved start size cs :=
  ⟨(hp.pairwise_iff Block.Apart.symm).mp h.apart,
    fun c hc => h.inside c (hp.mem_iff.mpr hc)⟩

/-- A block may be forgotten. So a page that `kfree` loses does no harm to the others. -/
theorem of_cons (h : Carved start size (b :: bs)) : Carved start size bs :=
  ⟨h.apart.of_cons, fun c hc => h.inside c (List.mem_cons_of_mem _ hc)⟩

theorem of_append (h : Carved start size (bs ++ cs)) : Carved start size bs :=
  ⟨(List.pairwise_append.mp h.apart).1, fun c hc => h.inside c (List.mem_append_left _ hc)⟩

/-- A block joins when it lies in the region and apart from the others. This is the one way
in which a collection grows: `buddy_init` uses it for each block it makes, and `split` for
the two halves. -/
theorem cons (h : Carved start size bs) (hin : b.hi start ≤ size.toNat)
    (hap : ∀ c ∈ bs, b.Apart start c) : Carved start size (b :: bs) := by
  refine ⟨List.pairwise_cons.mpr ⟨hap, h.apart⟩, fun c hc => ?_⟩
  rcases List.mem_cons.mp hc with rfl | hc
  · exact hin
  · exact h.inside c hc

theorem head_addr_ne (h : Carved start size (b :: bs)) {c : Block} (hc : c ∈ bs) :
    b.addr ≠ c.addr := ((List.pairwise_cons.mp h.apart).1 c hc).addr_ne

theorem addr_nodup (h : Carved start size bs) : (bs.map Block.addr).Nodup :=
  List.pairwise_map.mpr (h.apart.imp Block.Apart.addr_ne)

/-- **Cutting a block in two.** The halves are apart from each other, and from everything
that the whole was apart from, since their extents make up its extent. `buddy_alloc` does
this once for every order between the one it finds a block at and the one it is asked for,
and leaves the upper half on the list of its order. -/
theorem split {a : U64} {i : Nat} (hi : i < maxOrder)
    (h : Carved start size (⟨a, i + 1⟩ :: bs)) :
    Carved start size (⟨a + blockSize i, i⟩ :: ⟨a, i⟩ :: bs) := by
  have hin := h.inside _ List.mem_cons_self
  have hap := (List.pairwise_cons.mp h.apart).1
  have hsz := size.isLt
  unfold Block.Apart Block.hi at *
  rw [bytes_succ a a] at hin
  have hlow : Block.lo start ⟨a, i⟩ = Block.lo start ⟨a, i + 1⟩ := rfl
  have hup : Block.lo start ⟨a + blockSize i, i⟩ =
      Block.lo start ⟨a, i⟩ + Block.bytes ⟨a, i⟩ := by
    refine lo_add_blockSize hi i ?_
    have hpos := Block.bytes_pos ⟨a, i⟩
    simp only [Block.lo, Block.bytes] at *
    omega
  have hsame : Block.bytes ⟨a + blockSize i, i⟩ = Block.bytes ⟨a, i⟩ := rfl
  refine (h.of_cons.cons ?_ fun c hc => ?_).cons ?_ fun c hc => ?_
  · -- the lower half
    unfold Block.hi
    omega
  · have := hap c hc
    rw [bytes_succ a a] at this
    unfold Block.Apart Block.hi
    omega
  · -- the upper half
    unfold Block.hi
    omega
  · unfold Block.Apart Block.hi
    rcases List.mem_cons.mp hc with rfl | hc
    · omega
    · have := hap c hc
      rw [bytes_succ a a] at this
      omega

end Carved

/-! ## Bytes -/

/-- The bytes of a collection of blocks, counted with their multiplicity: a block that is on
two lists counts twice. -/
def bytesOf (bs : List Block) : Nat := (bs.map Block.bytes).sum

@[simp] theorem bytesOf_nil : bytesOf [] = 0 := rfl

@[simp] theorem bytesOf_cons (b : Block) (bs : List Block) :
    bytesOf (b :: bs) = b.bytes + bytesOf bs := by simp [bytesOf]

/-- The number that conservation is about depends on which blocks there are only. -/
theorem bytesOf_perm {bs cs : List Block} (h : bs.Perm cs) : bytesOf bs = bytesOf cs :=
  (h.map Block.bytes).sum_eq

theorem bytesOf_push {L : FreeLists} {i : Nat} (hi : i < maxOrder) (a : U64) :
    bytesOf (L.push i a).blocks = 2 ^ (i + pageShift) + bytesOf L.blocks := by
  rw [bytesOf_perm (blocks_push hi a), bytesOf_cons]
  rfl

theorem bytesOf_drop {L : FreeLists} {i : Nat} {a : U64} (hi : i < maxOrder) (ha : a ∈ L i) :
    bytesOf L.blocks = 2 ^ (i + pageShift) + bytesOf (L.drop i a).blocks := by
  rw [bytesOf_perm (blocks_drop hi ha), bytesOf_cons]
  rfl

end TinyMultiCore
