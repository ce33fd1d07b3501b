import TinyMultiCore.Kernel.Machine

/-!
# Frames

The allocator as the rest of the kernel relies on it: `kalloc` returns `NULL` or
some zeroed 2MB frame that is not in use, and `kfree` takes one that is. Which
frame, and when there is none, is left open: a `FrameSource` answers each call as
it likes, and everything is proved for every source.
-/

namespace TinyMultiCore

/-- Where the linker put things. -/
structure KernelImage where
  /-- The symbol `end`. -/
  kernelEnd : U64
  /-- The symbol `pgd_ttbr0`. -/
  pgdTtbr0 : U64
  base_le : kernelBase ≤ pgdTtbr0
  pgd_lt : pgdTtbr0 < kernelEnd

/-- A page that `kfree` accepts. -/
def IsFrame (K : KernelImage) (f : U64) : Prop :=
  f.toNat % 2 ^ 21 = 0 ∧ K.kernelEnd.toNat ≤ f.toNat ∧ f.toNat + 2 ^ 21 ≤ memoryEnd.toNat

/-- The answers of the allocator: to the call number `n`, with the frames `l` in use, a frame or
none. The number lets it answer in different ways to the same frames, as an allocator with a state
of its own does; nothing else is asked of it than frames that are not in use. -/
structure FrameSource (K : KernelImage) where
  pick : Nat → List U64 → Option U64
  fresh : ∀ {n : Nat} {l : List U64} {f : U64}, pick n l = some f → IsFrame K f ∧ f ∉ l

/-- The memory, the frames in use, and how often `kalloc` has been called. The entry of a table is
read and written in a frame in use only: elsewhere that is a fault. -/
structure Heap where
  mem : Memory
  inUse : List U64
  calls : Nat

namespace Heap

/-- The heap when `kalloc` has taken `f`. -/
def withFrame (h : Heap) (f : U64) : Heap :=
  { mem := zeroPage h.mem f, inUse := f :: h.inUse, calls := h.calls + 1 }

/-- `kalloc`, with `0` for `NULL`. -/
def kalloc {K : KernelImage} (src : FrameSource K) (h : Heap) : U64 × Heap :=
  match src.pick h.calls h.inUse with
  | none => (0, { h with calls := h.calls + 1 })
  | some f => (f, h.withFrame f)

/-- `kfree`. Freeing a page that is not in use is a fault. -/
def kfree (K : KernelImage) (h : Heap) (v : U64) : Except Halt Heap := do
  kernelAssert (v % pageSize = 0)
  kernelAssert (v ≥ K.kernelEnd)
  kernelAssert (v + pageSize ≤ memoryEnd)
  if v ∈ h.inUse then return { h with inUse := h.inUse.erase v } else .error .fault

theorem kalloc_eq {K : KernelImage} {src : FrameSource K} {h : Heap} {f : U64}
    (hpick : src.pick h.calls h.inUse = some f) : h.kalloc src = (f, h.withFrame f) := by
  rw [kalloc, hpick]

/-- The two outcomes of `kalloc`. -/
theorem kalloc_cases {K : KernelImage} (src : FrameSource K) (h : Heap) :
    (src.pick h.calls h.inUse = none ∧ h.kalloc src = (0, { h with calls := h.calls + 1 })) ∨
    ∃ f, src.pick h.calls h.inUse = some f ∧ h.kalloc src = (f, h.withFrame f) ∧
      IsFrame K f ∧ f ∉ h.inUse := by
  cases hpick : src.pick h.calls h.inUse with
  | none => exact Or.inl ⟨rfl, by rw [kalloc, hpick]⟩
  | some f => exact Or.inr ⟨f, rfl, kalloc_eq hpick, src.fresh hpick⟩

/-- When `kfree` returns, the page was in use and is not any more. -/
theorem kfree_spec {K : KernelImage} {h h' : Heap} {v : U64} (hok : h.kfree K v = .ok h') :
    v ∈ h.inUse ∧ h' = { h with inUse := h.inUse.erase v } := by
  unfold kfree at hok
  obtain ⟨_, -, hok⟩ := bind_eq_ok.mp hok
  obtain ⟨_, -, hok⟩ := bind_eq_ok.mp hok
  obtain ⟨_, -, hok⟩ := bind_eq_ok.mp hok
  split at hok
  · rename_i huse
    cases hok
    exact ⟨huse, rfl⟩
  · cases hok

/-- `memset(p, 0, PAGE_SIZE)` -/
def memsetPage (h : Heap) (p : U64) : Heap := { h with mem := zeroPage h.mem p }

end Heap

theorem memoryEnd_toNat : memoryEnd.toNat = 0xffff000030000000 := by decide

theorem kernelBase_toNat : kernelBase.toNat = 0xffff000000000000 := by decide

namespace IsFrame

variable {K : KernelImage} {f g : U64}

theorem base_lt (h : IsFrame K f) : kernelBase.toNat < f.toNat := by
  have h1 := K.base_le
  have h2 := K.pgd_lt
  have h3 := h.2.1
  rw [BitVec.le_def] at h1
  rw [BitVec.lt_def] at h2
  omega

theorem ne_zero (h : IsFrame K f) : f ≠ 0 := by
  rintro rfl
  have := h.base_lt
  simp at this

/-- The physical address of a frame. -/
theorem v2p_toNat (h : IsFrame K f) : (v2p f).toNat = f.toNat - kernelBase.toNat := by
  have hle : kernelBase ≤ f := by
    rw [BitVec.le_def]
    exact h.base_lt.le
  rw [v2p, BitVec.toNat_sub_of_le hle]

theorem p2v_v2p (f : U64) : p2v (v2p f) = f := BitVec.sub_add_cancel f kernelBase

/-- Bytes of one frame are outside every other. -/
theorem outside (hf : IsFrame K f) (hg : IsFrame K g) (hne : f ≠ g) {x : U64}
    (hx : (x - f).toNat < 2 ^ 21) : 2 ^ 21 ≤ (x - g).toNat := by
  obtain ⟨hf1, -, hf2⟩ := hf
  obtain ⟨hg1, -, hg2⟩ := hg
  rw [memoryEnd_toNat] at hf2 hg2
  have hfg : f.toNat ≠ g.toNat := fun h => hne (BitVec.eq_of_toNat_eq h)
  rw [BitVec.toNat_sub] at hx ⊢
  have hlt := x.isLt
  omega

end IsFrame

instance (K : KernelImage) (f : U64) : Decidable (IsFrame K f) :=
  inferInstanceAs (Decidable (_ ∧ _ ∧ _))

/-- An allocator that hands out the frames from `start` on, each of them once. -/
def frameRow (K : KernelImage) (start : U64) : FrameSource K where
  pick n l :=
    let f := start + BitVec.ofNat 64 (n * 2 ^ 21)
    if IsFrame K f ∧ f ∉ l then some f else none
  fresh h := by
    rw [Option.ite_none_right_eq_some] at h
    obtain ⟨hf, he⟩ := h
    cases he
    exact hf

/-- Nothing in memory, and no frame in use. -/
def emptyHeap : Heap := ⟨fun _ => 0, [], 0⟩

/-- A kernel image of one and a half megabytes. -/
def smallImage : KernelImage where
  kernelEnd := 0xffff000000180000
  pgdTtbr0 := 0xffff000000090000
  base_le := by decide
  pgd_lt := by decide

end TinyMultiCore
