import TinyMultiCore.Lib.RadixTree
import TinyMultiCore.Vm.Model

/-!
# The translation that page tables define

The MMU's view of the tables. `slotOf` decodes a descriptor by its two type bits,
`tables m` is the store of radix nodes that the memory `m` holds, and `walk` is the
three-level walk from a root. The edits the kernel makes to the memory, a page
cleared and an entry written, are edits of single nodes and slots of that store.
-/

namespace TinyMultiCore

open ByteMemory RadixTree

/-- A block of 2MB and the attribute bits it is mapped with. -/
abbrev Mapping := U64 × U64

/-- The attribute bits of a block descriptor, with the valid bit. -/
def attrMask : U64 := 0xffd

/-- Type bits `11` are a table, `01` a block. -/
def slotOf (e : U64) : Slot U64 Mapping :=
  if e &&& 3 = 3 then .node (p2v (pdeAddr e))
  else if e &&& 3 = 1 then .leaf (pteAddr e, e &&& attrMask)
  else .empty

/-- The tables in memory. -/
def tables (m : Memory) : Store U64 TableIndex Mapping :=
  fun t i => slotOf (read64 m (entryAddr t i))

/-- What the user address `va` is translated to under the root `map`. -/
def walk (m : Memory) (map va : U64) : Option Mapping :=
  if va.toNat < 2 ^ 48 then lookup (tables m) map [pgdIndex va, pudIndex va] (pmdIndex va)
  else none

/-! ## Descriptors -/

/-- Attributes that map a page: the valid bit, and no bits but it and `[11:2]`. -/
def ValidAttr (a : U64) : Prop := a &&& attrMask = a ∧ a &&& entryV = entryV

/-- A physical address that block and table descriptors can hold. -/
def BlockAddr (x : U64) : Prop := x.toNat % 2 ^ 21 = 0 ∧ x.toNat < 2 ^ 48

theorem BlockAddr.mask {x : U64} (h : BlockAddr x) : x &&& 0xffffffe00000#64 = x := by
  have hx : x = BitVec.ofNat 64 (x.toNat / 2 ^ 21) <<< 21 := by
    refine BitVec.eq_of_toNat_eq ?_
    have h1 := h.1
    have h2 := h.2
    rw [BitVec.toNat_shiftLeft, BitVec.toNat_ofNat, Nat.shiftLeft_eq]
    omega
  have hmask : (0xffffffe00000#64 : U64) = (0x7ffffff#64 : U64) <<< 21 := by decide
  rw [hx, hmask, ← BitVec.shiftLeft_and_distrib]
  congr 1
  refine BitVec.eq_of_toNat_eq ?_
  have h2 := h.2
  rw [BitVec.toNat_and, BitVec.toNat_ofNat,
    show (0x7ffffff#64 : U64).toNat = 2 ^ 27 - 1 from rfl, Nat.and_two_pow_sub_one_eq_mod]
  omega

/-- The bits of an address that a mask leaves. -/
theorem BlockAddr.and {x : U64} (h : BlockAddr x) (m : U64) :
    x &&& m = x &&& (0xffffffe00000#64 &&& m) := by
  rw [← BitVec.and_assoc, h.mask]

theorem ValidAttr.and {a : U64} (h : ValidAttr a) (m : U64) : a &&& m = a &&& (attrMask &&& m) := by
  rw [← BitVec.and_assoc, h.1]

theorem slotOf_table {x a : U64} (hx : BlockAddr x) (ha : ValidAttr a) :
    slotOf (x ||| a ||| tableEntry) = .node (p2v x) := by
  have htype : (x ||| a ||| tableEntry) &&& 3 = 3 := by
    rw [BitVec.and_or_distrib_right, BitVec.and_or_distrib_right, hx.and, ha.and]
    have h1 : a &&& (attrMask &&& 3) = entryV := ha.2
    rw [h1]
    simp [tableEntry, entryV]
  have haddr : pdeAddr (x ||| a ||| tableEntry) = x := by
    unfold pdeAddr
    rw [BitVec.and_or_distrib_right, BitVec.and_or_distrib_right, hx.and, ha.and]
    have h1 : (0xffffffe00000#64 : U64) &&& 0xfffffffff000#64 = 0xffffffe00000#64 := by decide
    have h2 : attrMask &&& 0xfffffffff000#64 = 0 := by decide
    have h3 : tableEntry &&& 0xfffffffff000#64 = 0 := by decide
    rw [h1, h2, h3, hx.mask]
    simp
  rw [slotOf, if_pos htype, haddr]

theorem slotOf_block {x a : U64} (hx : BlockAddr x) (ha : ValidAttr a) :
    slotOf (x ||| a ||| blockEntry) = .leaf (x, a) := by
  have hor : x ||| a ||| blockEntry = x ||| a := by simp [blockEntry]
  have htype : (x ||| a) &&& 3 = 1 := by
    rw [BitVec.and_or_distrib_right, hx.and, ha.and]
    have h1 : a &&& (attrMask &&& 3) = entryV := ha.2
    rw [h1]
    simp [entryV]
  have haddr : pteAddr (x ||| a) = x := by
    unfold pteAddr
    rw [BitVec.and_or_distrib_right, hx.mask, ha.and]
    have h2 : attrMask &&& 0xffffffe00000#64 = 0 := by decide
    rw [h2]
    simp
  have hattr : (x ||| a) &&& attrMask = a := by
    rw [BitVec.and_or_distrib_right, ha.1, hx.and]
    have h2 : (0xffffffe00000#64 : U64) &&& attrMask = 0 := by decide
    rw [h2]
    simp
  rw [hor, slotOf, if_neg (by rw [htype]; decide), if_pos htype, haddr, hattr]

/-- The kernel masks table and block descriptors differently. -/
theorem pdeAddr_block {x a : U64} (hx : BlockAddr x) (ha : ValidAttr a) :
    pdeAddr (x ||| a ||| blockEntry) = x := by
  have hor : x ||| a ||| blockEntry = x ||| a := by simp [blockEntry]
  have h1 : (0xffffffe00000#64 : U64) &&& 0xfffffffff000#64 = 0xffffffe00000#64 := by decide
  have h2 : attrMask &&& 0xfffffffff000#64 = 0 := by decide
  unfold pdeAddr
  rw [hor, BitVec.and_or_distrib_right, hx.and, ha.and, h1, h2, hx.mask]
  simp

/-- The kernel only looks at the valid bit. -/
theorem slotOf_eq_empty_iff {e : U64} : slotOf e = .empty ↔ e &&& entryV = 0 := by
  have hbits : ∀ t : U64, t = 0 ∨ t = 1 ∨ t = 2 ∨ t = 3 → (t &&& entryV = 0 ↔ t ≠ 3 ∧ t ≠ 1) := by
    rintro t (rfl | rfl | rfl | rfl) <;> decide
  have hcases : e &&& 3 = 0 ∨ e &&& 3 = 1 ∨ e &&& 3 = 2 ∨ e &&& 3 = 3 := by
    have hlt : (e &&& 3).toNat < 4 := by
      rw [BitVec.toNat_and]
      exact lt_of_le_of_lt Nat.and_le_right (by decide)
    have hnat : (e &&& 3).toNat = 0 ∨ (e &&& 3).toNat = 1 ∨ (e &&& 3).toNat = 2 ∨
        (e &&& 3).toNat = 3 := by omega
    exact hnat.imp BitVec.eq_of_toNat_eq (Or.imp BitVec.eq_of_toNat_eq
      (Or.imp BitVec.eq_of_toNat_eq BitVec.eq_of_toNat_eq))
  have hsplit : e &&& entryV = (e &&& 3) &&& entryV := by
    rw [BitVec.and_assoc]
    rfl
  rw [hsplit, hbits _ hcases, slotOf]
  split
  · simp_all
  · split <;> simp_all

theorem slotOf_zero : slotOf 0 = .empty := slotOf_eq_empty_iff.mpr (by decide)

theorem slotOf_eq_node {e c : U64} (h : slotOf e = .node c) : c = p2v (pdeAddr e) := by
  rw [slotOf] at h
  split at h
  · exact (Slot.node.inj h).symm
  · split at h <;> cases h

theorem slotOf_eq_leaf {e : U64} {b : Mapping} (h : slotOf e = .leaf b) : pteAddr e = b.1 := by
  rw [slotOf] at h
  split at h
  · cases h
  · split at h
    · exact congrArg Prod.fst (Slot.leaf.inj h)
    · cases h

/-! ## Edits of the memory -/

variable {K : KernelImage} {m m' : Memory} {f t : U64}

theorem entryAddr_eq (t : U64) (i : TableIndex) :
    entryAddr t i = t + BitVec.ofNat 64 (8 * i.toNat) := by
  rw [BitVec.ofNat_mul, BitVec.ofNat_toNat]
  rfl

theorem entryAddr_offset (t : U64) (i : TableIndex) {k : Nat} (hk : k < 8) :
    (entryAddr t i + BitVec.ofNat 64 k - t).toNat = 8 * i.toNat + k := by
  have hi := i.isLt
  have hsum : entryAddr t i + BitVec.ofNat 64 k - t = BitVec.ofNat 64 (8 * i.toNat + k) := by
    rw [BitVec.ofNat_add, entryAddr_eq, BitVec.add_assoc, BitVec.add_comm t,
      BitVec.add_sub_cancel]
  rw [hsum, BitVec.toNat_ofNat, Nat.mod_eq_of_lt (by omega)]

/-- A byte outside an entry, seen from the start of the table. -/
theorem outside_entry {x : U64} (i : TableIndex)
    (h : (x - f).toNat < 8 * i.toNat ∨ 8 * i.toNat + 8 ≤ (x - f).toNat) :
    8 ≤ (x - entryAddr f i).toNat := by
  have hi := i.isLt
  have hx := (x - f).isLt
  rw [entryAddr_eq, ← BitVec.sub_sub, BitVec.toNat_sub, BitVec.toNat_ofNat,
    Nat.mod_eq_of_lt (show 8 * i.toNat < 2 ^ 64 by omega)]
  omega

/-- Memories that agree on a frame agree on the entries in it. -/
theorem entry_congr (h : ∀ x, (x - t).toNat < 2 ^ 21 → m' x = m x) (i : TableIndex) :
    read64 m' (entryAddr t i) = read64 m (entryAddr t i) := by
  have hi := i.isLt
  unfold read64
  rw [load_congr fun k hk => h _ ?_]
  rw [entryAddr_offset t i hk]
  omega

theorem entry_zeroPage (hf : IsFrame K f) (ht : IsFrame K t) (i : TableIndex) :
    read64 (zeroPage m f) (entryAddr t i) =
      if t = f then 0 else read64 m (entryAddr t i) := by
  have hi := i.isLt
  split
  · rename_i htf
    subst htf
    unfold read64 zeroPage
    rw [load_blit_of_inside (fun k hk => entryAddr_offset t i hk) (by omega)]
    rfl
  · rename_i htf
    exact entry_congr (fun x hx => if_neg (Nat.not_lt.mpr (ht.outside hf htf hx))) i

theorem entry_write (hf : IsFrame K f) (ht : IsFrame K t) (i j : TableIndex) (e : U64) :
    read64 (write64 m (entryAddr f i) e) (entryAddr t j) =
      if t = f ∧ j = i then e else read64 m (entryAddr t j) := by
  have hi := i.isLt
  have hj := j.isLt
  split
  · rename_i h
    obtain ⟨rfl, rfl⟩ := h
    unfold read64 write64
    rw [load_store _ _ _ (by decide), Nat.mod_eq_of_lt (lt_of_lt_of_le e.isLt (by decide)),
      BitVec.ofNat_toNat, BitVec.setWidth_eq]
  · rename_i hne
    unfold read64 write64 store
    rw [load_blit_of_apart fun k hk => outside_entry i ?_]
    have hoff := entryAddr_offset t j hk
    by_cases htf : t = f
    · -- another entry of the same table
      subst htf
      have hji : j.toNat ≠ i.toNat := fun h => hne ⟨rfl, BitVec.eq_of_toNat_eq h⟩
      omega
    · have := ht.outside hf htf (show (entryAddr t j + BitVec.ofNat 64 k - t).toNat < 2 ^ 21 by omega)
      omega

/-- An entry written in one frame is outside every other. -/
theorem write_outside (hf : IsFrame K f) (ht : IsFrame K t) (hne : t ≠ f) (i : TableIndex)
    (e : U64) {x : U64} (hx : (x - t).toNat < 2 ^ 21) : write64 m (entryAddr f i) e x = m x := by
  have hi := i.isLt
  have hout := ht.outside hf hne hx
  exact if_neg (Nat.not_lt.mpr (outside_entry i (Or.inr (by omega))))

/-- Memories that agree on a frame agree on the table in it. -/
theorem tables_congr (h : ∀ x, (x - t).toNat < 2 ^ 21 → m' x = m x) (i : TableIndex) :
    tables m' t i = tables m t i := congrArg slotOf (entry_congr h i)

theorem tables_zeroPage (hf : IsFrame K f) (ht : IsFrame K t) (i : TableIndex) :
    tables (zeroPage m f) t i = if t = f then .empty else tables m t i := by
  unfold tables
  rw [entry_zeroPage hf ht]
  split
  · exact slotOf_zero
  · rfl

theorem tables_write (hf : IsFrame K f) (ht : IsFrame K t) (i j : TableIndex) (e : U64) :
    tables (write64 m (entryAddr f i) e) t j = (tables m).set f i (slotOf e) t j := by
  unfold tables Store.set
  rw [entry_write hf ht]
  split <;> rfl

end TinyMultiCore
