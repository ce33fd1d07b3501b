import TinyMultiCore.Vm.MapPage

/-!
# `free_table`

`freeTable_spec`: the recursion of `free_table` frees what hangs below a table, in
postorder, when that is one frame in use for each slot. In the model, reading a
table or freeing a page that is not in use is a fault; that `free_table` returns
says that it does neither.
-/

namespace TinyMultiCore

open ByteMemory RadixTree

variable {K : KernelImage} {h : Heap} {t f : U64} {i : TableIndex}

-- ---------------------------------------------------------------------------
-- Giving frames back
-- ---------------------------------------------------------------------------

/-- The heap without the frames `l`. -/
def Heap.release (h : Heap) (l : List U64) : Heap := { h with inUse := h.inUse.diff l }

namespace Heap

@[simp] theorem release_mem (h : Heap) (l : List U64) : (h.release l).mem = h.mem := rfl

@[simp] theorem release_inUse (h : Heap) (l : List U64) : (h.release l).inUse = h.inUse.diff l := rfl

@[simp] theorem release_nil (h : Heap) : h.release [] = h := rfl

theorem release_append (h : Heap) (l l' : List U64) :
    h.release (l ++ l') = (h.release l).release l' := by
  simp [release]

/-- `kfree` of a frame that is in use. -/
theorem kfree_eq (hf : IsFrame K f) (huse : f ∈ h.inUse) : h.kfree K f = .ok (h.release [f]) := by
  obtain ⟨halign, hstart, hend⟩ := hf
  have hsize : pageSize.toNat = 2 ^ 21 := rfl
  have h1 : f % pageSize = 0 := by
    refine BitVec.eq_of_toNat_eq ?_
    rw [BitVec.toNat_umod, hsize]
    exact halign
  have h2 : f ≥ K.kernelEnd := BitVec.le_def.mpr hstart
  have h3 : f + pageSize ≤ memoryEnd := by
    have := memoryEnd.isLt
    rw [BitVec.le_def, BitVec.toNat_add, hsize]
    omega
  unfold kfree
  rw [kernelAssert_pos h1, kernelAssert_pos h2, kernelAssert_pos h3, ok_bind, ok_bind, ok_bind,
    if_pos huse]
  simp [release]
  rfl

end Heap

-- ---------------------------------------------------------------------------
-- `free_table`
-- ---------------------------------------------------------------------------

/-- The page that a block entry maps, as the kernel addresses it. -/
def pageOf (b : Mapping) : U64 := p2v b.1

/-- The indices of a table, in the order of the loop. -/
def indices (n : Nat) : List TableIndex := (List.range n).map (BitVec.ofNat 9)

theorem mem_indices (i : TableIndex) : i ∈ indices 512 :=
  List.mem_map.mpr ⟨i.toNat, List.mem_range.mpr i.isLt, BitVec.ofNat_toNat ..⟩

theorem nodup_indices : (indices 512).Nodup := by
  refine List.Nodup.map_on (fun n hn k hk hnk => ?_) List.nodup_range
  have := congrArg BitVec.toNat hnk
  rw [List.mem_range] at hn hk
  rwa [BitVec.toNat_ofNat, BitVec.toNat_ofNat, Nat.mod_eq_of_lt hn, Nat.mod_eq_of_lt hk] at this

theorem indices_succ (n : Nat) : indices (n + 1) = indices n ++ [BitVec.ofNat 9 n] := by
  simp [indices, List.range_succ]

/-- One turn of the loop of `free_table`. -/
def freeEntry (K : KernelImage) (below : Heap → U64 → Except Halt Heap) (table : U64)
    (i : TableIndex) (h : Heap) : Except Halt Heap := do
  let entry ← readEntry h table i
  if entry &&& entryV ≠ 0 then
    let child := p2v (pdeAddr entry)
    let h ← below h child
    h.kfree K child
  else return h

theorem freeEntries_succ (below : Heap → U64 → Except Halt Heap) (table : U64) (n : Nat)
    (h : Heap) : freeEntries K below table (n + 1) h =
      freeEntries K below table n h >>= freeEntry K below table (BitVec.ofNat 9 n) := rfl

/-- The loop frees what its turns free. -/
theorem freeEntries_spec {below : Heap → U64 → Except Halt Heap} {block : TableIndex → List U64}
    {m : Memory} (hturn : ∀ i h, h.mem = m → t ∈ h.inUse → (∀ f ∈ block i, f ∈ h.inUse) →
      freeEntry K below t i h = .ok (h.release (block i)))
    (hmem : h.mem = m) (ht : t ∈ h.inUse) {n : Nat} (hnd : ((indices n).flatMap block).Nodup)
    (huse : ∀ f ∈ (indices n).flatMap block, f ∈ h.inUse) (hnot : t ∉ (indices n).flatMap block) :
    freeEntries K below t n h = .ok (h.release ((indices n).flatMap block)) := by
  induction n with
  | zero => rfl
  | succ n ih =>
    rw [indices_succ, List.flatMap_append] at hnd huse hnot ⊢
    simp only [List.flatMap_cons, List.flatMap_nil, List.append_nil] at hnd huse hnot ⊢
    obtain ⟨hnd₁, -, hapart⟩ := List.nodup_append.mp hnd
    rw [freeEntries_succ, ih hnd₁ (fun f hf => huse f (List.mem_append_left _ hf))
      (fun hin => hnot (List.mem_append_left _ hin)), ok_bind, Heap.release_append]
    refine hturn _ _ hmem (List.mem_diff_of_mem ht fun hin => hnot (List.mem_append_left _ hin)) ?_
    intro f hf
    refine List.mem_diff_of_mem (huse f (List.mem_append_right _ hf)) fun hin => ?_
    exact hapart f hin f hf rfl

/-- A turn at an entry that holds `c`, below which `l` hangs. -/
theorem freeEntry_spec {below : Heap → U64 → Except Halt Heap} {l : List U64} {c : U64}
    (ht : t ∈ h.inUse) (hvalid : tables h.mem t i ≠ .empty)
    (hchild : p2v (pdeAddr (read64 h.mem (entryAddr t i))) = c)
    (hbelow : below h c = .ok (h.release l)) (hc : IsFrame K c) (huse : c ∈ h.inUse)
    (hnot : c ∉ l) : freeEntry K below t i h = .ok (h.release (l ++ [c])) := by
  unfold freeEntry
  rw [readEntry_eq ht, ok_bind, if_pos fun h0 => hvalid (slotOf_eq_empty_iff.mpr h0)]
  dsimp only
  rw [hchild, hbelow, ok_bind, Heap.kfree_eq hc (List.mem_diff_of_mem huse hnot),
    Heap.release_append]

theorem freeEntry_empty {below : Heap → U64 → Except Halt Heap} (ht : t ∈ h.inUse)
    (hempty : tables h.mem t i = .empty) : freeEntry K below t i h = .ok h := by
  unfold freeEntry
  rw [readEntry_eq ht, ok_bind, if_neg fun h0 => h0 (slotOf_eq_empty_iff.mp hempty)]
  rfl

/-- `d + 1` levels of tables from `t` on, with blocks in the last. -/
def Levels (m : Memory) : Nat → U64 → Prop
  | 0, t => ∀ i, tables m t i = .empty ∨
    ∃ b, tables m t i = .leaf b ∧ pdeAddr (read64 m (entryAddr t i)) = b.1
  | d + 1, t => ∀ i, tables m t i = .empty ∨ ∃ c, tables m t i = .node c ∧ Levels m d c

/-- **`free_table`** frees what hangs below the table, in the order of `postorder`. By induction on
the levels. A child is freed when nothing in it is needed any more: that the list has no frame twice
is what keeps the later entries readable. -/
theorem freeTable_spec {m : Memory} {d : Nat} (hlevels : Levels m d t) (hmem : h.mem = m)
    (hnd : (postorder pageOf (tables m) (indices 512) d t).Nodup)
    (huse : ∀ f ∈ postorder pageOf (tables m) (indices 512) d t, f ∈ h.inUse)
    (hframe : ∀ f ∈ postorder pageOf (tables m) (indices 512) d t, IsFrame K f)
    (ht : t ∈ h.inUse) (hnot : t ∉ postorder pageOf (tables m) (indices 512) d t) :
    freeTable K d h t = .ok (h.release (postorder pageOf (tables m) (indices 512) d t)) := by
  induction d generalizing t h with
  | zero =>
    refine freeEntries_spec (fun i h hmem ht huse => ?_) hmem ht hnd huse hnot
    subst hmem
    rcases hlevels i with hempty | ⟨b, hleaf, haddr⟩
    · rw [freeEntry_empty ht hempty, hempty]
      rfl
    · rw [hleaf] at huse ⊢
      have hmem : pageOf b ∈ postorder pageOf (tables h.mem) (indices 512) 0 t :=
        (mem_postorder mem_indices 0).mpr ⟨[], i, le_refl 0, holds_nil.mpr (by rw [hleaf]; rfl)⟩
      exact freeEntry_spec (l := []) ht (by simp [hleaf])
        (by rw [haddr]; rfl) rfl (hframe _ hmem) (huse _ List.mem_cons_self) List.not_mem_nil
  | succ d ih =>
    refine freeEntries_spec (fun i h hmem ht huse => ?_) hmem ht hnd huse hnot
    subst hmem
    rcases hlevels i with hempty | ⟨c, hnode, hlevels⟩
    · rw [freeEntry_empty ht hempty, hempty]
      rfl
    · have hblock : (tables h.mem t i).child.toList.flatMap
          (postorder pageOf (tables h.mem) (indices 512) d) ++
            ((tables h.mem t i).content pageOf).toList =
          postorder pageOf (tables h.mem) (indices 512) d c ++ [c] := by
        rw [hnode]
        simp [Slot.content]
      -- the block of the entry is part of the whole
      have hpart : ∀ f ∈ postorder pageOf (tables h.mem) (indices 512) d c ++ [c],
          f ∈ postorder pageOf (tables h.mem) (indices 512) (d + 1) t := by
        intro f hf
        rw [← hblock] at hf
        exact List.mem_flatMap.mpr ⟨i, mem_indices i, hf⟩
      have hnd' : (postorder pageOf (tables h.mem) (indices 512) d c ++ [c]).Nodup := by
        rw [← hblock]
        exact (List.nodup_flatMap.mp hnd).1 i (mem_indices i)
      obtain ⟨hnd', -, hapart⟩ := List.nodup_append.mp hnd'
      have hnotc : c ∉ postorder pageOf (tables h.mem) (indices 512) d c :=
        fun hin => hapart c hin c List.mem_cons_self rfl
      rw [hblock] at huse ⊢
      have hcuse : c ∈ h.inUse := huse c (List.mem_append_right _ List.mem_cons_self)
      exact freeEntry_spec ht (by simp [hnode])
        (by rw [← slotOf_eq_node hnode])
        (ih hlevels rfl hnd' (fun f hf => huse f (List.mem_append_left _ hf))
          (fun f hf => hframe f (hpart f (List.mem_append_left _ hf))) hcuse hnotc)
        (hframe c (hpart c (List.mem_append_right _ List.mem_cons_self))) hcuse hnotc

end TinyMultiCore
