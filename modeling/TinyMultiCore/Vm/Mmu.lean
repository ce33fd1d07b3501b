import TinyMultiCore.Vm.Forest

/-!
# The MMU

The hardware that reads page tables. `tableWalk` follows the descriptors in physical memory, with
blocks at every level that may have them and with a fourth level, which the kernel never uses;
`MmuRegs.translate` chooses the root by the high bits of an address. The kernel has physical memory
at `P2V`.

* `tableWalk_physical` — on the tables of a process the hardware comes to what `walk` says.
-/

namespace TinyMultiCore

open ByteMemory RadixTree

-- ---------------------------------------------------------------------------
-- Registers and walks
-- ---------------------------------------------------------------------------

/-- The registers that control translation. -/
structure MmuRegs where
  ttbr0 : U64
  ttbr1 : U64
  mair : U64
  tcr : U64
  sctlr : U64

/-- The attributes of a block or page descriptor: bits `[63:52]` and `[11:2]`, and the valid bit. -/
def descAttr (e : U64) : U64 := e &&& 0xfff0000000000ffd

/-- `(v >> 12) & 0x1ff` -/
def pteIndex (v : U64) : TableIndex := (v >>> 12).setWidth 9

/-- The hardware walk from a root table at a physical address, with granules of 4KB and addresses
of 48 bits. A block of the level above `pmd` has 1GB, one of that level 2MB. -/
def tableWalk (m : Memory) (root va : U64) : Option Mapping :=
  let pgd := read64 m (entryAddr root (pgdIndex va))
  if pgd &&& 3 = 3 then
    let pud := read64 m (entryAddr (pdeAddr pgd) (pudIndex va))
    if pud &&& 3 = 3 then
      let pmd := read64 m (entryAddr (pdeAddr pud) (pmdIndex va))
      if pmd &&& 3 = 3 then
        let pte := read64 m (entryAddr (pdeAddr pmd) (pteIndex va))
        if pte &&& 3 = 3 then some (pdeAddr pte ||| (va &&& 0xfff), descAttr pte) else none
      else if pmd &&& 3 = 1 then some (pteAddr pmd ||| (va &&& 0x1fffff), descAttr pmd)
      else none
    else if pud &&& 3 = 1 then some ((pud &&& 0xffffc0000000) ||| (va &&& 0x3fffffff), descAttr pud)
    else none
  else none

/-- `load_pgd` -/
def loadPgd (r : MmuRegs) (pgd : U64) : MmuRegs := { r with ttbr0 := pgd }

namespace MmuRegs

/-- The physical address and the attributes. `T0SZ` and `T1SZ` say how many high bits of an address
have to be 0 or 1; tables of other sizes than those of 48 bits are left out. -/
def translate (r : MmuRegs) (m : Memory) (va : U64) : Option Mapping :=
  if r.sctlr &&& 1 = 0 then some (va, 0)
  else if r.tcr &&& 0x3f = 16 ∧ (r.tcr >>> 16) &&& 0x3f = 16 then
    if va >>> 48 = 0 then tableWalk m r.ttbr0 va
    else if va >>> 48 = 0xffff then tableWalk m r.ttbr1 va
    else none
  else none

/-- The byte of `MAIR` that the attribute index selects: the memory type. -/
def memoryType (r : MmuRegs) (attr : U64) : BitVec 8 :=
  (r.mair >>> (8 * ((attr >>> 2) &&& 7).toNat)).setWidth 8

end MmuRegs

-- ---------------------------------------------------------------------------
-- The tables of a process
-- ---------------------------------------------------------------------------

variable {K : KernelImage} {h : Heap} {roots : List U64} {r va : U64}

/-- Physical memory, by what the kernel finds at its own addresses. -/
def physical (m : Memory) : Memory := fun x => m (p2v x)

theorem p2v_add (a b : U64) : p2v (a + b) = p2v a + b := by
  unfold p2v
  rw [BitVec.add_assoc, BitVec.add_comm b, ← BitVec.add_assoc]

theorem read64_physical (m : Memory) (a : U64) : read64 (physical m) a = read64 m (p2v a) := by
  have hload : load (physical m) a 8 = load m (p2v a) 8 := by
    refine leValue_congr fun i _ => ?_
    unfold physical
    rw [p2v_add]
  unfold read64
  rw [hload]

theorem read64_entry (m : Memory) (t : U64) (i : TableIndex) :
    read64 (physical m) (entryAddr t i) = read64 m (entryAddr (p2v t) i) := by
  unfold entryAddr
  rw [read64_physical, p2v_add]

theorem tables_eq (m : Memory) (t : U64) (i : TableIndex) :
    tables m t i = slotOf (read64 m (entryAddr t i)) := by
  unfold tables
  rfl

theorem slotOf_node {e : U64} (he : e &&& 3 = 3) : slotOf e = .node (p2v (pdeAddr e)) := if_pos he

theorem slotOf_leaf {e : U64} (he : e &&& 3 = 1) : slotOf e = .leaf (pteAddr e, e &&& attrMask) := by
  rw [slotOf, if_neg (by rw [he]; decide), if_pos he]

/-- `walk` keeps the attribute bits that the kernel writes. -/
theorem descAttr_attrMask (e : U64) : descAttr e &&& attrMask = e &&& attrMask := by
  rw [descAttr, BitVec.and_assoc, show 0xfff0000000000ffd &&& attrMask = attrMask by decide]

/-- **The hardware reads the tables as `walk` does**: under the roots of a forest there are three
levels of tables, and blocks in the last one only. Without that, the hardware would take an early
block for a mapping, where `walk` has none. -/
theorem tableWalk_physical (hF : Forest K h roots) (hr : r ∈ roots) (va : U64) :
    (tableWalk (physical h.mem) (v2p r) va).map (fun b => (b.1, b.2 &&& attrMask)) =
      (lookup (tables h.mem) r [pgdIndex va, pudIndex va] (pmdIndex va)).map
        fun b => (b.1 ||| (va &&& 0x1fffff), b.2) := by
  unfold tableWalk
  simp only [read64_entry, IsFrame.p2v_v2p]
  rw [lookup_cons]
  have hpgd := tables_eq h.mem r (pgdIndex va)
  generalize read64 h.mem (entryAddr r (pgdIndex va)) = pgd at hpgd ⊢
  by_cases htable : pgd &&& 3 = 3
  · rw [slotOf_node htable] at hpgd
    rw [if_pos htable, hpgd, Slot.child_node, Option.bind_some, lookup_cons]
    generalize p2v (pdeAddr pgd) = t at hpgd ⊢
    have hreach : reach (tables h.mem) r [pgdIndex va] = some t := by
      rw [reach_cons, hpgd, Slot.child_node, Option.bind_some, reach_nil]
    have hpud := tables_eq h.mem t (pudIndex va)
    generalize read64 h.mem (entryAddr t (pudIndex va)) = pud at hpud ⊢
    by_cases htable' : pud &&& 3 = 3
    · rw [slotOf_node htable'] at hpud
      rw [if_pos htable', hpud, Slot.child_node, Option.bind_some]
      generalize p2v (pdeAddr pud) = u at hpud ⊢
      have hreach' : reach (tables h.mem) r ([pgdIndex va] ++ [pudIndex va]) = some u :=
        reach_snoc_eq_some.mpr ⟨t, hreach, hpud⟩
      have hpmd := tables_eq h.mem u (pmdIndex va)
      rw [lookup_nil, hpmd]
      generalize read64 h.mem (entryAddr u (pmdIndex va)) = pmd at hpmd ⊢
      by_cases hpage : pmd &&& 3 = 3
      · -- a fourth level
        rw [slotOf_node hpage] at hpmd
        exact absurd (hF.nodes r hr _ _ _ _ hreach' hpmd) (by simp)
      · rw [if_neg hpage]
        by_cases hblock : pmd &&& 3 = 1
        · rw [if_pos hblock, slotOf_leaf hblock, Slot.value_leaf, Option.map_some, Option.map_some,
            descAttr_attrMask]
        · rw [if_neg hblock, slotOf, if_neg hpage, if_neg hblock, Slot.value_empty, Option.map_none,
            Option.map_none]
    · rw [if_neg htable', hpud]
      by_cases hblock : pud &&& 3 = 1
      · -- a block of 1GB
        rw [slotOf_leaf hblock] at hpud
        exact absurd (hF.leaves r hr _ _ _ _ hreach hpud) (by simp)
      · rw [if_neg hblock, slotOf, if_neg htable', if_neg hblock, Slot.child_empty, Option.bind_none,
          Option.map_none, Option.map_none]
  · have hchild : (slotOf pgd).child = none := by
      rw [slotOf, if_neg htable]
      split <;> rfl
    rw [if_neg htable, hpgd, hchild, Option.bind_none, Option.map_none, Option.map_none]

end TinyMultiCore
