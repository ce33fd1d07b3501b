import Mathlib.Data.Fintype.Basic
import Mathlib.Tactic.FinCases
import TinyMultiCore.Kernel.Cpu
import TinyMultiCore.Vm.Mmu

/-!
# The boot page tables

`setup_vm2` fills the seven tables of `mmu.s` while the MMU is still off, and `enable_mmu` turns
it on. `MmuRegs.translate` is what the hardware makes of the tables then. The rest of the kernel
lives on these translations: it uses `V2P` and `P2V` for them.

* `mapBlocks_entries` — what the loops of `setup_vm2` write;
* `boot_maps_memory` — which addresses are translated after `enable_mmu`, and to what.
-/

namespace TinyMultiCore

open ByteMemory

-- ---------------------------------------------------------------------------
-- The tables
-- ---------------------------------------------------------------------------

/-- The tables of `mmu.s` follow one another from the physical address `base` on. They are in the
first gigabyte, so no address of an entry wraps. -/
structure BootTables where
  base : U64
  aligned : base.toNat % 4096 = 0
  below : base.toNat + 7 * 4096 ≤ 2 ^ 30

namespace BootTables

def table (t : BootTables) (n : Fin 7) : U64 := t.base + BitVec.ofNat 64 (4096 * n.val)

/-- `pgd_ttbr1` -/
def pgdTtbr1 (t : BootTables) : U64 := t.table 0
/-- `pud_ttbr1` -/
def pudTtbr1 (t : BootTables) : U64 := t.table 1
/-- `pmd_ttbr1` -/
def pmdTtbr1 (t : BootTables) : U64 := t.table 2
/-- `pmd2_ttbr1` -/
def pmd2Ttbr1 (t : BootTables) : U64 := t.table 3
/-- `pgd_ttbr0` -/
def pgdTtbr0 (t : BootTables) : U64 := t.table 4
/-- `pud_ttbr0` -/
def pudTtbr0 (t : BootTables) : U64 := t.table 5
/-- `pmd_ttbr0` -/
def pmdTtbr0 (t : BootTables) : U64 := t.table 6

end BootTables

/-- `TD_TYPE_TABLE` -/
def tdTypeTable : U64 := 3
/-- `TD_TYPE_BLOCK` -/
def tdTypeBlock : U64 := 1
/-- `TD_ATTR_NORMAL` -/
def tdAttrNormal : U64 := 1 <<< 2
/-- `TD_ATTR_DEVICE` -/
def tdAttrDevice : U64 := 0 <<< 2
/-- `TD_SH_INNER_SHARE` -/
def tdShInnerShare : U64 := 3 <<< 8
/-- `TD_AF` -/
def tdAf : U64 := 1 <<< 10
/-- `BOOT_NORMAL_ATTR` -/
def bootNormalAttr : U64 := tdAf ||| tdShInnerShare ||| tdAttrNormal ||| tdTypeBlock
/-- `BOOT_DEVICE_ATTR` -/
def bootDeviceAttr : U64 := tdAf ||| tdAttrDevice ||| tdTypeBlock
/-- `RAM_MAX_ADDR` -/
def ramMaxAddr : U64 := 0x34000000
/-- `PERIPHERAL_BASE` -/
def peripheralBase : U64 := 0x3f000000
/-- `PERIPHERAL_END` -/
def peripheralEnd : U64 := 0x40000000
/-- `LOCAL_PERIPH_BASE` -/
def localPeriphBase : U64 := 0x40000000
/-- `LOCAL_PERIPH_END` -/
def localPeriphEnd : U64 := 0x41000000

/-- `while (pa < stop) { table[(pa - origin) >> 21] = pa | attr; pa += PAGE_SIZE; }`, for at most
`n` turns. -/
def mapBlocks (table origin stop attr : U64) : Nat → U64 → Memory → Except Halt Memory
  | 0, _, _ => .error .runaway
  | n + 1, pa, m =>
    if pa < stop then
      mapBlocks table origin stop attr n (pa + pageSize)
        (write64 m (table + 8 * ((pa - origin) >>> 21)) (pa ||| attr))
    else .ok m

def setupVm2 (t : BootTables) (m : Memory) : Except Halt Memory := do
  let m := write64 m (entryAddr t.pgdTtbr1 0) (t.pudTtbr1 ||| tdTypeTable)
  let m := write64 m (entryAddr t.pudTtbr1 0) (t.pmdTtbr1 ||| tdTypeTable)
  let m ← mapBlocks t.pmdTtbr1 0 ramMaxAddr bootNormalAttr 513 0 m
  let m ← mapBlocks t.pmdTtbr1 0 peripheralEnd bootDeviceAttr 513 peripheralBase m
  let m := write64 m (entryAddr t.pudTtbr1 1) (t.pmd2Ttbr1 ||| tdTypeTable)
  let m ← mapBlocks t.pmd2Ttbr1 localPeriphBase localPeriphEnd bootDeviceAttr 513 localPeriphBase m
  let m := write64 m (entryAddr t.pgdTtbr0 0) (t.pudTtbr0 ||| tdTypeTable)
  let m := write64 m (entryAddr t.pudTtbr0 0) (t.pmdTtbr0 ||| tdTypeTable)
  return write64 m (entryAddr t.pmdTtbr0 0) (0 ||| bootNormalAttr)

/-- `MAIR_ATTR` -/
def mairAttr : U64 := 0xff ||| 0xff <<< 8
/-- `TCR_VALUE` -/
def tcrValue : U64 := 16 ||| 16 <<< 16 ||| 0 <<< 14 ||| 2 <<< 30 ||| 3 <<< 12 ||| 1 <<< 10 ||| 1 <<< 8

def enableMmu (t : BootTables) (r : MmuRegs) : MmuRegs where
  ttbr1 := t.pgdTtbr1
  ttbr0 := t.pgdTtbr0
  mair := mairAttr
  tcr := tcrValue
  sctlr := r.sctlr ||| (1 <<< 0 ||| 1 <<< 2 ||| 1 <<< 12)

-- ---------------------------------------------------------------------------
-- Entries
-- ---------------------------------------------------------------------------

variable {t : BootTables} {m : Memory} {e : Fin 7 → TableIndex → U64} {n : Fin 7}

/-- The seven tables as one row of entries. -/
theorem BootTables.entryAddr_table (t : BootTables) (n : Fin 7) (i : TableIndex) :
    entryAddr (t.table n) i = t.base + BitVec.ofNat 64 (8 * (512 * n.val + i.toNat)) := by
  rw [entryAddr_eq, BootTables.table, BitVec.add_assoc, ← BitVec.ofNat_add, Nat.mul_add]
  congr 2
  omega

/-- What the tables have in them. -/
def BootTables.Holds (t : BootTables) (m : Memory) (e : Fin 7 → TableIndex → U64) : Prop :=
  ∀ n i, read64 m (entryAddr (t.table n) i) = e n i

theorem BootTables.entry_range (t : BootTables) (n : Fin 7) (i : TableIndex) {x : U64}
    (hx : Range (entryAddr (t.table n) i) 8 x) : (x - t.base).toNat < 7 * 4096 := by
  have hi := i.isLt
  rw [t.entryAddr_table] at hx
  exact slot_range (by omega) (by decide) hx

/-- The tables are all that matters. -/
theorem BootTables.Holds.congr {m' : Memory} (h : t.Holds m e)
    (hsame : ∀ x, (x - t.base).toNat < 7 * 4096 → m' x = m x) : t.Holds m' e := by
  intro n i
  rw [← h n i]
  exact read64_of_agree fun x hx => hsame x (t.entry_range n i hx)

def setEntry (e : Fin 7 → TableIndex → U64) (n : Fin 7) (i : TableIndex) (v : U64) :
    Fin 7 → TableIndex → U64 :=
  fun k j => if k = n ∧ j = i then v else e k j

theorem BootTables.Holds.write (h : t.Holds m e) (n : Fin 7) (i : TableIndex) (v : U64) :
    t.Holds (write64 m (entryAddr (t.table n) i) v) (setEntry e n i v) := by
  intro k j
  unfold setEntry
  have hi := i.isLt
  have hj := j.isLt
  split
  · rename_i heq
    obtain ⟨rfl, rfl⟩ := heq
    exact read64_write64 v
  · rename_i hne
    rw [t.entryAddr_table, t.entryAddr_table, read64_write64_slot ?_ (by omega) (by omega),
      ← t.entryAddr_table, h]
    intro hslot
    exact hne ⟨Fin.ext (by omega), BitVec.eq_of_toNat_eq (by omega)⟩

/-- An entry is inside the tables. -/
theorem BootTables.write_outside (t : BootTables) (n : Fin 7) (i : TableIndex) (v : U64) {x : U64}
    (hx : 7 * 4096 ≤ (x - t.base).toNat) : write64 m (entryAddr (t.table n) i) v x = m x := by
  refine write64_outside ?_
  have hi := i.isLt
  have hoff : (BitVec.ofNat 64 (8 * (512 * n.val + i.toNat))).toNat = 8 * (512 * n.val + i.toNat) := by
    rw [BitVec.toNat_ofNat, Nat.mod_eq_of_lt (by omega)]
  rw [t.entryAddr_table, ← BitVec.sub_sub, BitVec.toNat_sub_of_le (by rw [BitVec.le_def]; omega), hoff]
  omega

-- ---------------------------------------------------------------------------
-- The loops
-- ---------------------------------------------------------------------------

/-- The block number `b` of 2MB. -/
def block (b : Nat) : U64 := BitVec.ofNat 64 (b * 2 ^ 21)

/-- The entries `first` to `last - 1` of a table map blocks, the first entry of all the block `o`. -/
def setBlocks (e : Fin 7 → TableIndex → U64) (n : Fin 7) (o first last : Nat) (attr : U64) :
    Fin 7 → TableIndex → U64 :=
  fun k j => if k = n ∧ first ≤ j.toNat ∧ j.toNat < last then block (o + j.toNat) ||| attr else e k j

theorem block_toNat {b : Nat} (hb : b < 2 ^ 43) : (block b).toNat = b * 2 ^ 21 := by
  rw [block, BitVec.toNat_ofNat, Nat.mod_eq_of_lt (by omega)]

theorem block_add (a b : Nat) : block (a + b) = block a + block b := by
  rw [block, Nat.add_mul, BitVec.ofNat_add]
  rfl

/-- The entry that a turn of a loop writes. -/
theorem loop_entryAddr (table : U64) (o : Nat) {b : Nat} (hb : b < 512) :
    table + 8 * ((block (o + b) - block o) >>> 21) = entryAddr table (BitVec.ofNat 9 b) := by
  have hdiff : block (o + b) - block o = block b := by
    rw [block_add, BitVec.add_comm, BitVec.add_sub_cancel]
  have hindex : block b >>> 21 = (BitVec.ofNat 9 b).setWidth 64 := by
    refine BitVec.eq_of_toNat_eq ?_
    rw [BitVec.toNat_ushiftRight, block_toNat (by omega), Nat.shiftRight_eq_div_pow,
      BitVec.toNat_setWidth, BitVec.toNat_ofNat]
    omega
  rw [hdiff, hindex]
  rfl

/-- One more block. -/
theorem setBlocks_setEntry {o first last : Nat} {attr : U64} (hlt : first < last)
    (hlast : last ≤ 512) :
    setBlocks (setEntry e n (BitVec.ofNat 9 first) (block (o + first) ||| attr)) n o (first + 1) last
      attr = setBlocks e n o first last attr := by
  funext k j
  have hfirst : (BitVec.ofNat 9 first).toNat = first := by
    rw [BitVec.toNat_ofNat]
    omega
  unfold setBlocks setEntry
  by_cases hk : k = n
  · by_cases hj : j = BitVec.ofNat 9 first
    · rw [hj, hfirst, if_neg (by omega), if_pos ⟨hk, rfl⟩, if_pos ⟨hk, le_rfl, hlt⟩]
    · have hne : j.toNat ≠ first := fun he => hj (BitVec.eq_of_toNat_eq (he.trans hfirst.symm))
      rw [if_neg (fun h : k = n ∧ j = _ => hj h.2)]
      exact if_congr (by omega) rfl rfl
  · rw [if_neg fun h => hk h.1, if_neg fun h => hk h.1, if_neg fun h => hk h.1]

/-- **A loop of `setup_vm2`** ends, and maps the blocks up to its end. By induction on the turns,
with the tables as they are in front of the loop as a parameter: each turn writes one entry, and the
rest of the loop starts from there. -/
theorem mapBlocks_entries (h : t.Holds m e) (n : Fin 7) (o first last turns : Nat) (attr : U64)
    (ho : o < 2 ^ 20) (hfirst : first ≤ last) (hlast : last ≤ 512) (hturns : last < first + turns) :
    ∃ m', mapBlocks (t.table n) (block o) (block (o + last)) attr turns (block (o + first)) m = .ok m' ∧
      t.Holds m' (setBlocks e n o first last attr) ∧
      ∀ x, 7 * 4096 ≤ (x - t.base).toNat → m' x = m x := by
  induction turns generalizing first m e with
  | zero => omega
  | succ turns ih =>
    unfold mapBlocks
    have hlt : block (o + first) < block (o + last) ↔ first < last := by
      rw [BitVec.lt_def, block_toNat (by omega), block_toNat (by omega)]
      omega
    by_cases hend : first < last
    · have hnext : block (o + first) + pageSize = block (o + (first + 1)) := by
        rw [← Nat.add_assoc, block_add (o + first) 1]
        rfl
      rw [if_pos (hlt.mpr hend), loop_entryAddr _ o (by omega), hnext]
      have hwritten := h.write n (BitVec.ofNat 9 first) (block (o + first) ||| attr)
      obtain ⟨m', hok, hholds, houtside⟩ := ih hwritten (first + 1) hend (by omega)
      rw [setBlocks_setEntry hend hlast] at hholds
      exact ⟨m', hok, hholds, fun x hx => (houtside x hx).trans (t.write_outside _ _ _ hx)⟩
    · rw [if_neg (fun hc => hend (hlt.mp hc))]
      refine ⟨m, rfl, fun k j => ?_, fun _ _ => rfl⟩
      rw [h k j, setBlocks, if_neg (by omega)]

-- ---------------------------------------------------------------------------
-- `setup_vm2`
-- ---------------------------------------------------------------------------

/-- What `setup_vm2` leaves in the tables. -/
def bootEntries (t : BootTables) (n : Fin 7) (i : TableIndex) : U64 :=
  match n with
  | 0 => if i = 0 then t.pudTtbr1 ||| tdTypeTable else 0
  | 1 =>
    if i = 1 then t.pmd2Ttbr1 ||| tdTypeTable
    else if i = 0 then t.pmdTtbr1 ||| tdTypeTable
    else 0
  | 2 =>
    if 504 ≤ i.toNat then block i.toNat ||| bootDeviceAttr
    else if i.toNat < 416 then block i.toNat ||| bootNormalAttr
    else 0
  | 3 => if i.toNat < 8 then block (512 + i.toNat) ||| bootDeviceAttr else 0
  | 4 => if i = 0 then t.pudTtbr0 ||| tdTypeTable else 0
  | 5 => if i = 0 then t.pmdTtbr0 ||| tdTypeTable else 0
  | 6 => if i = 0 then bootNormalAttr else 0

theorem setupVm2_entries (hzero : ∀ x, (x - t.base).toNat < 7 * 4096 → m x = 0) :
    ∃ m', setupVm2 t m = .ok m' ∧ t.Holds m' (bootEntries t) ∧
      ∀ x, 7 * 4096 ≤ (x - t.base).toNat → m' x = m x := by
  have h₀ : t.Holds m fun _ _ => 0 := by
    intro n i
    exact read64_zeros fun x hx => hzero x (t.entry_range n i hx)
  have h₁ := (h₀.write 0 0 (t.pudTtbr1 ||| tdTypeTable)).write 1 0 (t.pmdTtbr1 ||| tdTypeTable)
  obtain ⟨m₁, hram, h₂, hout₁⟩ := mapBlocks_entries h₁ 2 0 0 416 513 bootNormalAttr (by decide)
    (by decide) (by decide) (by decide)
  obtain ⟨m₂, hdevice, h₃, hout₂⟩ := mapBlocks_entries h₂ 2 0 504 512 513 bootDeviceAttr (by decide)
    (by decide) (by decide) (by decide)
  have h₄ := h₃.write 1 1 (t.pmd2Ttbr1 ||| tdTypeTable)
  obtain ⟨m₃, hlocal, h₅, hout₃⟩ := mapBlocks_entries h₄ 3 512 0 8 513 bootDeviceAttr (by decide)
    (by decide) (by decide) (by decide)
  have h₆ := ((h₅.write 4 0 (t.pudTtbr0 ||| tdTypeTable)).write 5 0
    (t.pmdTtbr0 ||| tdTypeTable)).write 6 0 (0 ||| bootNormalAttr)
  have hok : setupVm2 t m = .ok (write64 (write64 (write64 m₃ (entryAddr (t.table 4) 0)
      (t.pudTtbr0 ||| tdTypeTable)) (entryAddr (t.table 5) 0) (t.pmdTtbr0 ||| tdTypeTable))
      (entryAddr (t.table 6) 0) (0 ||| bootNormalAttr)) := by
    refine bind_eq_ok.mpr ⟨m₁, hram, bind_eq_ok.mpr ⟨m₂, hdevice, bind_eq_ok.mpr ⟨m₃, hlocal, rfl⟩⟩⟩
  refine ⟨_, hok, fun n i => ?_, fun x hx => ?_⟩
  · rw [h₆ n i]
    have hi : i.toNat < 512 := i.isLt
    fin_cases n <;> simp [setEntry, setBlocks, bootEntries, hi]
  · rw [t.write_outside _ _ _ hx, t.write_outside _ _ _ hx, t.write_outside _ _ _ hx, hout₃ x hx,
      t.write_outside _ _ _ hx, hout₂ x hx, hout₁ x hx, t.write_outside _ _ _ hx,
      t.write_outside _ _ _ hx]

-- ---------------------------------------------------------------------------
-- Translations
-- ---------------------------------------------------------------------------

theorem BootTables.table_toNat (t : BootTables) (n : Fin 7) :
    (t.table n).toNat = t.base.toNat + 4096 * n.val := by
  have hn := n.isLt
  have hbelow := t.below
  rw [BootTables.table, BitVec.toNat_add, BitVec.toNat_ofNat]
  omega

/-- The address of a table has no other bits than those of `PDE_ADDR`. -/
theorem BootTables.table_mask (t : BootTables) (n : Fin 7) :
    t.table n &&& 0xfffffffff000#64 = t.table n := by
  have halign := t.aligned
  have hbelow := t.below
  have hn := n.isLt
  have htable := t.table_toNat n
  have hx : t.table n = BitVec.ofNat 64 ((t.table n).toNat / 2 ^ 12) <<< 12 := by
    refine BitVec.eq_of_toNat_eq ?_
    rw [BitVec.toNat_shiftLeft, BitVec.toNat_ofNat, Nat.shiftLeft_eq]
    omega
  have hmask : 0xfffffffff000#64 = (0xfffffffff : U64) <<< 12 := by decide
  rw [hx, hmask, ← BitVec.shiftLeft_and_distrib]
  congr 1
  refine BitVec.eq_of_toNat_eq ?_
  rw [BitVec.toNat_and, BitVec.toNat_ofNat, show (0xfffffffff : U64).toNat = 2 ^ 36 - 1 from rfl,
    Nat.and_two_pow_sub_one_eq_mod]
  omega

/-- A descriptor of a table. -/
theorem BootTables.table_desc (t : BootTables) (n : Fin 7) :
    (t.table n ||| tdTypeTable) &&& 3 = 3 ∧ pdeAddr (t.table n ||| tdTypeTable) = t.table n := by
  have hand : ∀ x : U64, t.table n &&& x = t.table n &&& (0xfffffffff000#64 &&& x) := by
    intro x
    rw [← BitVec.and_assoc, t.table_mask]
  constructor
  · rw [BitVec.and_or_distrib_right, hand 3, show 0xfffffffff000#64 &&& 3 = 0 by decide]
    simp [tdTypeTable]
  · rw [pdeAddr, BitVec.and_or_distrib_right, t.table_mask,
      show tdTypeTable &&& 0xfffffffff000#64 = 0 by decide]
    simp

theorem block_blockAddr {b : Nat} (hb : b < 2 ^ 27) : BlockAddr (block b) := by
  unfold BlockAddr
  rw [block_toNat (by omega)]
  omega

/-- A descriptor of a block. -/
theorem block_desc {b : Nat} {attr : U64} (hb : b < 2 ^ 27) (ha : descAttr attr = attr)
    (htype : attr &&& 3 = 1) (hpte : pteAddr attr = 0) :
    (block b ||| attr) &&& 3 = 1 ∧ pteAddr (block b ||| attr) = block b ∧
      descAttr (block b ||| attr) = attr := by
  have hblock := block_blockAddr hb
  refine ⟨?_, ?_, ?_⟩
  · rw [BitVec.and_or_distrib_right, hblock.and, htype,
      show 0xffffffe00000#64 &&& 3 = 0 by decide]
    simp
  · rw [pteAddr, BitVec.and_or_distrib_right, hblock.mask]
    rw [pteAddr] at hpte
    rw [hpte]
    simp
  · rw [descAttr, BitVec.and_or_distrib_right, hblock.and,
      show 0xffffffe00000#64 &&& 0xfff0000000000ffd = 0 by decide]
    rw [descAttr] at ha
    rw [ha]
    simp

/-- A block and the place in it. -/
theorem block_or_offset {va : U64} {b : Nat} (hb : b = va.toNat % 2 ^ 48 / 2 ^ 21) :
    block b ||| (va &&& 0x1fffff) = BitVec.ofNat 64 (va.toNat % 2 ^ 48) := by
  refine BitVec.eq_of_toNat_eq ?_
  have hoff : (va &&& 0x1fffff).toNat = va.toNat % 2 ^ 21 := by
    rw [BitVec.toNat_and, show (0x1fffff : U64).toNat = 2 ^ 21 - 1 from rfl,
      Nat.and_two_pow_sub_one_eq_mod]
  rw [BitVec.toNat_or, hoff, block_toNat (by omega), BitVec.toNat_ofNat, Nat.mul_comm,
    ← Nat.two_pow_add_eq_or_of_lt (Nat.mod_lt _ (by decide))]
  omega

/-- The indices, by the low 48 bits. -/
theorem index_toNat (va : U64) :
    (pgdIndex va).toNat = va.toNat % 2 ^ 48 / 2 ^ 39 ∧
      (pudIndex va).toNat = va.toNat % 2 ^ 48 / 2 ^ 30 % 512 ∧
      (pmdIndex va).toNat = va.toNat % 2 ^ 48 / 2 ^ 21 % 512 := by
  have hva := va.isLt
  simp only [pgdIndex, pudIndex, pmdIndex, BitVec.toNat_setWidth, BitVec.toNat_ushiftRight,
    Nat.shiftRight_eq_div_pow]
  omega

/-- The walk ends in a table of the level of `pmd`. -/
theorem tableWalk_pmd {root va : U64} {a b c : Fin 7} (h : t.Holds m e) (hroot : root = t.table a)
    (hpgd : e a (pgdIndex va) = t.table b ||| tdTypeTable)
    (hpud : e b (pudIndex va) = t.table c ||| tdTypeTable) :
    tableWalk m root va =
      if e c (pmdIndex va) &&& 3 = 3 then
        let pte := read64 m (entryAddr (pdeAddr (e c (pmdIndex va))) (pteIndex va))
        if pte &&& 3 = 3 then some (pdeAddr pte ||| (va &&& 0xfff), descAttr pte) else none
      else if e c (pmdIndex va) &&& 3 = 1 then
        some (pteAddr (e c (pmdIndex va)) ||| (va &&& 0x1fffff), descAttr (e c (pmdIndex va)))
      else none := by
  unfold tableWalk
  obtain ⟨hb, hb'⟩ := t.table_desc b
  obtain ⟨hc, hc'⟩ := t.table_desc c
  simp only [hroot, h a, hpgd, if_pos hb, hb', h b, hpud, if_pos hc, hc', h c]

/-- A block of a boot table. -/
theorem tableWalk_block {root va : U64} {a b c : Fin 7} {o : Nat} {attr : U64} (h : t.Holds m e)
    (hroot : root = t.table a) (hpgd : e a (pgdIndex va) = t.table b ||| tdTypeTable)
    (hpud : e b (pudIndex va) = t.table c ||| tdTypeTable)
    (hpmd : e c (pmdIndex va) = block o ||| attr) (ho : o = va.toNat % 2 ^ 48 / 2 ^ 21)
    (ha : descAttr attr = attr) (htype : attr &&& 3 = 1) (hpte : pteAddr attr = 0) :
    tableWalk m root va = some (BitVec.ofNat 64 (va.toNat % 2 ^ 48), attr) := by
  obtain ⟨htype', hpte', hattr'⟩ := block_desc (b := o) (by omega) ha htype hpte
  rw [tableWalk_pmd h hroot hpgd hpud, hpmd, htype', if_neg (by decide), if_pos rfl, hpte', hattr',
    block_or_offset ho]

/-- No block there. -/
theorem tableWalk_none {root va : U64} {a b c : Fin 7} (h : t.Holds m e) (hroot : root = t.table a)
    (hpgd : e a (pgdIndex va) = t.table b ||| tdTypeTable)
    (hpud : e b (pudIndex va) = t.table c ||| tdTypeTable) (hpmd : e c (pmdIndex va) = 0) :
    tableWalk m root va = none := by
  rw [tableWalk_pmd h hroot hpgd hpud, hpmd, if_neg (by decide), if_neg (by decide)]

/-- No table there. -/
theorem tableWalk_no_pud {root va : U64} {a b : Fin 7} (h : t.Holds m e) (hroot : root = t.table a)
    (hpgd : e a (pgdIndex va) = t.table b ||| tdTypeTable) (hpud : e b (pudIndex va) = 0) :
    tableWalk m root va = none := by
  obtain ⟨hb, hb'⟩ := t.table_desc b
  unfold tableWalk
  simp only [hroot, h a, hpgd, if_pos hb, hb', h b, hpud]
  rfl

theorem tableWalk_no_pgd {root va : U64} {a : Fin 7} (h : t.Holds m e) (hroot : root = t.table a)
    (hpgd : e a (pgdIndex va) = 0) : tableWalk m root va = none := by
  unfold tableWalk
  simp only [hroot, h a, hpgd]
  rfl

/-- An index is 0 or not. -/
theorem index_eq_zero (i : TableIndex) : i = 0 ↔ i.toNat = 0 :=
  ⟨fun h => h ▸ rfl, fun h => BitVec.eq_of_toNat_eq h⟩

/-- **The walk from `ttbr1`.** The cases are the two gigabytes that have a table, the first one with
the memory in it, and every other index on the way, where an entry is zero. The upper 16 bits of the
address take no part. -/
theorem walk_ttbr1 (h : t.Holds m (bootEntries t)) (va : U64) : tableWalk m t.pgdTtbr1 va =
    if va.toNat % 2 ^ 48 < 0x34000000 then
      some (BitVec.ofNat 64 (va.toNat % 2 ^ 48), bootNormalAttr)
    else if 0x3f000000 ≤ va.toNat % 2 ^ 48 ∧ va.toNat % 2 ^ 48 < 0x41000000 then
      some (BitVec.ofNat 64 (va.toNat % 2 ^ 48), bootDeviceAttr)
    else none := by
  obtain ⟨hpgd, hpud, hpmd⟩ := index_toNat va
  by_cases hpgd₀ : pgdIndex va = 0
  · have hlow : va.toNat % 2 ^ 48 < 2 ^ 39 := by
      rw [hpgd₀] at hpgd
      have hzero : (0 : TableIndex).toNat = 0 := rfl
      omega
    have hentry : bootEntries t 0 (pgdIndex va) = t.table 1 ||| tdTypeTable := if_pos hpgd₀
    by_cases hpud₁ : pudIndex va = 1
    · -- the gigabyte of the local peripherals
      have hentry₁ : bootEntries t 1 (pudIndex va) = t.table 3 ||| tdTypeTable := if_pos hpud₁
      rw [hpud₁, show (1 : TableIndex).toNat = 1 from rfl] at hpud
      rw [if_neg (by omega)]
      by_cases hblock : (pmdIndex va).toNat < 8
      · rw [if_pos (by omega)]
        exact tableWalk_block h rfl hentry hentry₁ (if_pos hblock) (by omega) (by decide) (by decide)
          (by decide)
      · rw [if_neg (by omega)]
        exact tableWalk_none h rfl hentry hentry₁ (if_neg hblock)
    · by_cases hpud₀ : pudIndex va = 0
      · -- the gigabyte of the memory and the peripherals
        have hentry₁ : bootEntries t 1 (pudIndex va) = t.table 2 ||| tdTypeTable :=
          (if_neg hpud₁).trans (if_pos hpud₀)
        rw [hpud₀, show (0 : TableIndex).toNat = 0 from rfl] at hpud
        by_cases hdevice : 504 ≤ (pmdIndex va).toNat
        · rw [if_neg (by omega), if_pos (by omega)]
          exact tableWalk_block h rfl hentry hentry₁ (if_pos hdevice) (by omega) (by decide)
            (by decide) (by decide)
        · by_cases hram : (pmdIndex va).toNat < 416
          · rw [if_pos (by omega)]
            exact tableWalk_block h rfl hentry hentry₁ ((if_neg hdevice).trans (if_pos hram)) (by omega)
              (by decide) (by decide) (by decide)
          · rw [if_neg (by omega), if_neg (by omega)]
            exact tableWalk_none h rfl hentry hentry₁ ((if_neg hdevice).trans (if_neg hram))
      · rw [index_eq_zero] at hpud₀
        have hpud₁' : (pudIndex va).toNat ≠ 1 := fun he => hpud₁ (BitVec.eq_of_toNat_eq he)
        rw [if_neg (by omega), if_neg (by omega)]
        refine tableWalk_no_pud h rfl hentry ((if_neg hpud₁).trans (if_neg ?_))
        rwa [index_eq_zero]
  · have hentry : bootEntries t 0 (pgdIndex va) = 0 := if_neg hpgd₀
    rw [index_eq_zero] at hpgd₀
    rw [if_neg (by omega), if_neg (by omega)]
    exact tableWalk_no_pgd h rfl hentry

/-- **The walk from `ttbr0`.** One entry of each of its three tables is set, the first one, so all
three indices of an address that is mapped are zero. -/
theorem walk_ttbr0 (h : t.Holds m (bootEntries t)) (va : U64) : tableWalk m t.pgdTtbr0 va =
    if va.toNat % 2 ^ 48 < 2 ^ 21 then
      some (BitVec.ofNat 64 (va.toNat % 2 ^ 48), bootNormalAttr)
    else none := by
  obtain ⟨hpgd, hpud, hpmd⟩ := index_toNat va
  by_cases hpgd₀ : pgdIndex va = 0
  · have hentry : bootEntries t 4 (pgdIndex va) = t.table 5 ||| tdTypeTable := if_pos hpgd₀
    rw [index_eq_zero] at hpgd₀
    by_cases hpud₀ : pudIndex va = 0
    · have hentry₁ : bootEntries t 5 (pudIndex va) = t.table 6 ||| tdTypeTable := if_pos hpud₀
      rw [index_eq_zero] at hpud₀
      by_cases hpmd₀ : pmdIndex va = 0
      · have hentry₂ : bootEntries t 6 (pmdIndex va) = block 0 ||| bootNormalAttr := if_pos hpmd₀
        rw [index_eq_zero] at hpmd₀
        rw [if_pos (by omega)]
        exact tableWalk_block h rfl hentry hentry₁ hentry₂ (by omega) (by decide) (by decide)
          (by decide)
      · have hentry₂ : bootEntries t 6 (pmdIndex va) = 0 := if_neg hpmd₀
        rw [index_eq_zero] at hpmd₀
        rw [if_neg (by omega)]
        exact tableWalk_none h rfl hentry hentry₁ hentry₂
    · have hentry₁ : bootEntries t 5 (pudIndex va) = 0 := if_neg hpud₀
      rw [index_eq_zero] at hpud₀
      rw [if_neg (by omega)]
      exact tableWalk_no_pud h rfl hentry hentry₁
  · have hentry : bootEntries t 4 (pgdIndex va) = 0 := if_neg hpgd₀
    rw [index_eq_zero] at hpgd₀
    rw [if_neg (by omega)]
    exact tableWalk_no_pgd h rfl hentry

-- ---------------------------------------------------------------------------
-- After `enable_mmu`
-- ---------------------------------------------------------------------------

/-- The boot translation: `V2P` on what the kernel's half maps, and the identity on the first page of
the other half. -/
def bootMapping (va : U64) : Option Mapping :=
  if kernelBase ≤ va then
    if v2p va < ramMaxAddr then some (v2p va, bootNormalAttr)
    else if peripheralBase ≤ v2p va ∧ v2p va < localPeriphEnd then some (v2p va, bootDeviceAttr)
    else none
  else if va < pageSize then some (va, bootNormalAttr)
  else none

theorem ushiftRight_48 (va : U64) (n : Nat) (hn : n < 2 ^ 16) :
    va >>> 48 = BitVec.ofNat 64 n ↔ va.toNat / 2 ^ 48 = n := by
  rw [← BitVec.toNat_inj, BitVec.toNat_ushiftRight, Nat.shiftRight_eq_div_pow, BitVec.toNat_ofNat]
  omega

/-- After `enable_mmu` the high bits of an address choose the root, whatever `load_pgd` loads. -/
theorem loadPgd_translate (t : BootTables) (r : MmuRegs) (root : U64) (m : Memory) (va : U64) :
    (loadPgd (enableMmu t r) root).translate m va =
      if va.toNat / 2 ^ 48 = 0 then tableWalk m root va
      else if va.toNat / 2 ^ 48 = 0xffff then tableWalk m t.pgdTtbr1 va
      else none := by
  have hon : (loadPgd (enableMmu t r) root).sctlr &&& 1 ≠ 0 := by
    intro hoff
    have hbit := congrArg (fun x => BitVec.getLsbD x 0) hoff
    simp [loadPgd, enableMmu] at hbit
  have htcr : tcrValue &&& 0x3f = 16 ∧ (tcrValue >>> 16) &&& 0x3f = 16 := by decide
  unfold MmuRegs.translate
  rw [if_neg hon, show (loadPgd (enableMmu t r) root).tcr = tcrValue from rfl, if_pos htcr]
  exact if_congr (ushiftRight_48 va 0 (by decide)) rfl
    (if_congr (ushiftRight_48 va 0xffff (by decide)) rfl rfl)

theorem kernelBase_le (va : U64) : kernelBase ≤ va ↔ va.toNat / 2 ^ 48 = 0xffff := by
  have hva := va.isLt
  rw [BitVec.le_def, kernelBase_toNat]
  omega

/-- **The kernel's half** is translated by the boot tables, whatever `load_pgd` loads: it writes
`ttbr0`, and addresses with their upper 16 bits set are looked up from `ttbr1`. -/
theorem translate_kernel (h : t.Holds m (bootEntries t)) (r : MmuRegs) (root : U64) {va : U64}
    (hhalf : kernelBase ≤ va) : (loadPgd (enableMmu t r) root).translate m va = bootMapping va := by
  have hhigh := (kernelBase_le va).mp hhalf
  have hv2p : (v2p va).toNat = va.toNat % 2 ^ 48 := by
    rw [v2p, BitVec.toNat_sub_of_le hhalf, kernelBase_toNat]
    omega
  have hofNat : BitVec.ofNat 64 (va.toNat % 2 ^ 48) = v2p va := by
    rw [← hv2p, BitVec.ofNat_toNat, BitVec.setWidth_eq]
  unfold bootMapping
  rw [loadPgd_translate, if_neg (by omega), if_pos hhigh, if_pos hhalf, walk_ttbr1 h, hofNat]
  refine if_congr ?_ rfl (if_congr (and_congr ?_ ?_) rfl rfl)
  · rw [BitVec.lt_def, hv2p]
    rfl
  · rw [BitVec.le_def, hv2p]
    rfl
  · rw [BitVec.lt_def, hv2p]
    rfl

/-- **The other half** is translated by what `load_pgd` has loaded. -/
theorem translate_user (t : BootTables) (r : MmuRegs) (root : U64) (m : Memory) {va : U64}
    (hhalf : ¬ kernelBase ≤ va) : (loadPgd (enableMmu t r) root).translate m va =
      if va.toNat < 2 ^ 48 then tableWalk m root va else none := by
  rw [kernelBase_le] at hhalf
  rw [loadPgd_translate, if_neg hhalf]
  exact if_congr (by omega) rfl rfl

/-- The two walks together are the boot translation. -/
theorem translate_bootMapping (h : t.Holds m (bootEntries t)) (r : MmuRegs) (va : U64) :
    (enableMmu t r).translate m va = bootMapping va := by
  rw [show enableMmu t r = loadPgd (enableMmu t r) t.pgdTtbr0 from rfl]
  by_cases hhalf : kernelBase ≤ va
  · exact translate_kernel h r _ hhalf
  · rw [translate_user t r _ m hhalf, walk_ttbr0 h, bootMapping, if_neg hhalf]
    have hpage : va < pageSize ↔ va.toNat < 2 ^ 21 := by
      rw [BitVec.lt_def]
      rfl
    by_cases hlow : va.toNat < 2 ^ 48
    · have hofNat : BitVec.ofNat 64 (va.toNat % 2 ^ 48) = va := by
        rw [Nat.mod_eq_of_lt hlow, BitVec.ofNat_toNat, BitVec.setWidth_eq]
      rw [if_pos hlow, hofNat, Nat.mod_eq_of_lt hlow]
      exact if_congr hpage.symm rfl rfl
    · rw [if_neg hlow, if_neg]
      rw [hpage]
      omega

/-- Of the boot translations there are two kinds. -/
theorem bootMapping_attr {va : U64} {b : Mapping} (h : bootMapping va = some b) :
    b.2 = bootNormalAttr ∨ b.2 = bootDeviceAttr := by
  unfold bootMapping at h
  split_ifs at h <;> cases h <;> simp

/-- **The boot tables.** On tables that are zero `setup_vm2` comes to its end, writes to nothing but
the tables, and after `enable_mmu` the kernel's half of the addresses is translated by `V2P` where
there is memory or a peripheral, and the first page of the other half by the identity, and no other
address is. The memory type is one for all of them, write-back cacheable memory: `MAIR_ATTR` has it
for the peripherals as well. -/
theorem boot_maps_memory (t : BootTables) (m : Memory)
    (hzero : ∀ x, (x - t.base).toNat < 7 * 4096 → m x = 0) :
    ∃ m', setupVm2 t m = .ok m' ∧ (∀ x, 7 * 4096 ≤ (x - t.base).toNat → m' x = m x) ∧
      ∀ r va, (enableMmu t r).translate m' va = bootMapping va ∧
        ∀ b, bootMapping va = some b → (enableMmu t r).memoryType b.2 = 0xff := by
  obtain ⟨m', hok, hholds, houtside⟩ := setupVm2_entries hzero
  refine ⟨m', hok, houtside, fun r va => ⟨translate_bootMapping hholds r va, fun b hb => ?_⟩⟩
  have hmair : (enableMmu t r).mair = mairAttr := rfl
  unfold MmuRegs.memoryType
  rw [hmair]
  rcases bootMapping_attr hb with hattr | hattr
  · rw [hattr]
    decide
  · rw [hattr]
    decide

/-- Tables where a small kernel has them, in empty memory. -/
theorem low_tables_map_memory : ∃ m', setupVm2 ⟨0x90000, by decide, by decide⟩ (fun _ => 0) = .ok m' ∧
    (∀ x, 7 * 4096 ≤ (x - 0x90000).toNat → m' x = 0) ∧
    ∀ r va, (enableMmu ⟨0x90000, by decide, by decide⟩ r).translate m' va = bootMapping va ∧
      ∀ b, bootMapping va = some b →
        (enableMmu ⟨0x90000, by decide, by decide⟩ r).memoryType b.2 = 0xff :=
  boot_maps_memory ⟨0x90000, by decide, by decide⟩ (fun _ => 0) fun _ _ => rfl

end TinyMultiCore
