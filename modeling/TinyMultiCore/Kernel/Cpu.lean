import Mathlib.Data.List.Basic
import TinyMultiCore.Kernel.Machine
import TinyMultiCore.Lib.Words

/-!
# A core and its instructions

The AArch64 instructions that `src/handler.s` switches contexts with. A `Cpu` is a core
at EL1: its general registers, `SP_EL1`, the system registers the code reads and writes,
the program counter and `PSTATE`, and the memory behind them. A run of instructions is a
list, `run` executes it; the program counter is only kept where a branch sets it.

* `run_saves` — stores of register pairs leave a row of words;
* `run_restores` — loads of register pairs read one.
-/

namespace TinyMultiCore

open ByteMemory

/-- `x0` to `x30` -/
abbrev Reg := Fin 31

instance regs_neZero : NeZero 31 := ⟨by decide⟩

inductive SysReg where
  | spEl0
  | elrEl1
  | spsrEl1
  | esrEl1
  deriving DecidableEq, Repr

structure Cpu where
  x : Reg → U64
  sp : U64
  sys : SysReg → U64
  pc : U64
  pstate : U64
  mem : Memory

inductive Instr where
  /-- `add sp, sp, #n` -/
  | addSp (n : U64)
  /-- `sub sp, sp, #n` -/
  | subSp (n : U64)
  /-- `stp a, b, [sp, #off]` -/
  | stp (a b : Reg) (off : U64)
  /-- `ldp a, b, [sp, #off]` -/
  | ldp (a b : Reg) (off : U64)
  /-- `str a, [base]` -/
  | str (a base : Reg)
  /-- `stlr wzr, [base]` -/
  | stlrWzr (base : Reg)
  /-- `mov a, sp` -/
  | movFromSp (a : Reg)
  /-- `mov sp, a` -/
  | movToSp (a : Reg)
  /-- `mov a, #v` and `ldr a, =v` -/
  | movImm (a : Reg) (v : U64)
  /-- `lsr a, b, #n` -/
  | lsr (a b : Reg) (n : Nat)
  /-- `cmp a, #v` -/
  | cmpImm (a : Reg) (v : U64)
  /-- `csel a, b, c, ne` -/
  | cselNe (a b c : Reg)
  | mrs (a : Reg) (r : SysReg)
  | msr (r : SysReg) (a : Reg)
  /-- `bl`, with the address of the instruction behind it. -/
  | bl (behind : U64)
  | ret
  | eret

namespace Cpu

def setX (s : Cpu) (a : Reg) (v : U64) : Cpu := { s with x := Function.update s.x a v }

def setSys (s : Cpu) (r : SysReg) (v : U64) : Cpu := { s with sys := Function.update s.sys r v }

end Cpu

/-- The condition flags N, Z, C and V, where `PSTATE` has them, after `cmp` of `a` and `b`. -/
def cmpFlags (a b : U64) : U64 :=
  (if (a - b).msb then 0x80000000 else 0) ||| (if a = b then 0x40000000 else 0) |||
    (if b ≤ a then 0x20000000 else 0) ||| (if a.ssubOverflow b then 0x10000000 else 0)

section

variable (pstate a b : U64)

theorem getLsbD_flag (c : Prop) [Decidable c] (v : U64) (i : Nat) :
    (if c then v else 0).getLsbD i = (decide c && v.getLsbD i) := by
  by_cases hc : c <;> simp [hc]

/-- `cmp` sets Z when the operands are equal. -/
theorem getLsbD_cmpFlags_zero :
    (pstate &&& ~~~0xf0000000 ||| cmpFlags a b).getLsbD 30 = decide (a = b) := by
  have hmask : (~~~0xf0000000 : U64).getLsbD 30 = false := by decide
  unfold cmpFlags
  simp only [BitVec.getLsbD_or, BitVec.getLsbD_and, hmask, getLsbD_flag]
  simp

/-- And C when the first one is not below the second one. -/
theorem getLsbD_cmpFlags_carry :
    (pstate &&& ~~~0xf0000000 ||| cmpFlags a b).getLsbD 29 = decide (b ≤ a) := by
  have hmask : (~~~0xf0000000 : U64).getLsbD 29 = false := by decide
  unfold cmpFlags
  simp only [BitVec.getLsbD_or, BitVec.getLsbD_and, hmask, getLsbD_flag]
  simp

end

def Instr.exec (s : Cpu) : Instr → Cpu
  | addSp n => { s with sp := s.sp + n }
  | subSp n => { s with sp := s.sp - n }
  | stp a b off =>
    { s with mem := write64 (write64 s.mem (s.sp + off) (s.x a)) (s.sp + off + 8) (s.x b) }
  | ldp a b off =>
    (s.setX a (read64 s.mem (s.sp + off))).setX b (read64 s.mem (s.sp + off + 8))
  | str a base => { s with mem := write64 s.mem (s.x base) (s.x a) }
  | stlrWzr base => { s with mem := store s.mem (s.x base) 4 0 }
  | movFromSp a => s.setX a s.sp
  | movToSp a => { s with sp := s.x a }
  | movImm a v => s.setX a v
  | lsr a b n => s.setX a (s.x b >>> n)
  | cmpImm a v => { s with pstate := s.pstate &&& ~~~0xf0000000 ||| cmpFlags (s.x a) v }
  | cselNe a b c => s.setX a (if s.pstate.getLsbD 30 then s.x c else s.x b)
  | mrs a r => s.setX a (s.sys r)
  | msr r a => s.setSys r (s.x a)
  | bl behind => s.setX 30 behind
  | ret => { s with pc := s.x 30 }
  | eret => { s with pc := s.sys .elrEl1, pstate := s.sys .spsrEl1 }

/-- The instructions one after the other. -/
def run (code : List Instr) (s : Cpu) : Cpu := code.foldl Instr.exec s

theorem run_append (code code' : List Instr) (s : Cpu) :
    run (code ++ code') s = run code' (run code s) := List.foldl_append

@[simp] theorem run_cons (i : Instr) (code : List Instr) (s : Cpu) :
    run (i :: code) s = run code (i.exec s) := rfl

@[simp] theorem run_nil (s : Cpu) : run [] s = s := rfl

-- ---------------------------------------------------------------------------
-- Words in memory
-- ---------------------------------------------------------------------------

section

variable {m m' : Memory} {p x : U64}

/-- The registers' values as a row of words from `p` on. -/
def writeRow (m : Memory) (p : U64) (vs : List U64) : Memory :=
  storeWords 8 m p (vs.map BitVec.toNat)

@[simp] theorem writeRow_nil : writeRow m p [] = m := rfl

theorem writeRow_cons (v : U64) (vs : List U64) :
    writeRow m p (v :: vs) = writeRow (write64 m p v) (p + 8) vs := rfl

theorem writeRow_outside {vs : List U64} (hn : 8 * vs.length ≤ 2 ^ 64)
    (hx : ¬Range p (8 * vs.length) x) : writeRow m p vs x = m x := by
  rw [← List.length_map BitVec.toNat] at hn hx
  exact storeWords_outside hn hx

theorem read64_writeRow {vs : List U64} (hn : 8 * vs.length ≤ 2 ^ 64) {i : Nat}
    (hi : i < vs.length) : read64 (writeRow m p vs) (p + BitVec.ofNat 64 (8 * i)) = vs[i] := by
  rw [← List.length_map BitVec.toNat] at hn
  rw [read64, writeRow, load_storeWords hn (by rwa [List.length_map]), List.getElem_map,
    Nat.mod_eq_of_lt (show vs[i].toNat < 256 ^ 8 from vs[i].isLt), BitVec.ofNat_toNat,
    BitVec.setWidth_eq]

theorem read64_of_agree (h : ∀ x, Range p 8 x → m' x = m x) : read64 m' p = read64 m p := by
  rw [read64, read64, load_of_agree h (by decide)]

theorem read64_write64 (v : U64) : read64 (write64 m p v) p = v := by
  rw [read64, write64, load_store _ _ _ (by decide),
    Nat.mod_eq_of_lt (show v.toNat < 256 ^ 8 from v.isLt), BitVec.ofNat_toNat, BitVec.setWidth_eq]

/-- The bytes of a word are those of its row. -/
theorem slot_range {i n : Nat} (hi : 8 * i + 8 ≤ n) (hn : n ≤ 2 ^ 64) {x : U64}
    (hx : Range (p + BitVec.ofNat 64 (8 * i)) 8 x) : Range p n x := by
  have hslot : (p + BitVec.ofNat 64 (8 * i) - p).toNat = 8 * i := by
    rw [BitVec.add_comm, BitVec.add_sub_cancel, BitVec.toNat_ofNat, Nat.mod_eq_of_lt (by omega)]
  exact hx.widen (by rw [hslot]; exact hi) hn

theorem read64_zeros {a : U64} (h : ∀ x, Range a 8 x → m x = 0) : read64 m a = 0 := by
  have hzero : read64 (fun _ => 0) a = 0 := by
    show BitVec.ofNat 64 (leValue (fun _ => 0#8) 8) = 0
    decide
  rw [← hzero]
  exact read64_of_agree h

/-- The words of a row are apart. -/
theorem slots_apart {a : U64} {i k : Nat} (hne : i ≠ k) (hi : i < 2 ^ 60) (hk : k < 2 ^ 60)
    (hx : Range (a + BitVec.ofNat 64 (8 * i)) 8 x) : ¬Range (a + BitVec.ofNat 64 (8 * k)) 8 x := by
  intro hx'
  have := hx.tail (by omega)
  have := hx'.tail (by omega)
  omega

theorem read64_write64_slot {a v : U64} {i k : Nat} (hne : i ≠ k) (hi : i < 2 ^ 60) (hk : k < 2 ^ 60) :
    read64 (write64 m (a + BitVec.ofNat 64 (8 * k)) v) (a + BitVec.ofNat 64 (8 * i)) =
      read64 m (a + BitVec.ofNat 64 (8 * i)) :=
  read64_of_agree fun _ hx => store_outside (slots_apart hne hi hk hx)

/-- A word of a copy. -/
theorem read64_memcpy {dst a : U64} {size : U32} {i : Nat} (hi : 8 * i + 8 ≤ size.toNat) :
    read64 (memcpy m dst m a size) (dst + BitVec.ofNat 64 (8 * i)) =
      read64 m (a + BitVec.ofNat 64 (8 * i)) := by
  have hsize := size.isLt
  have hplace : ∀ o < 8, (dst + BitVec.ofNat 64 (8 * i) + BitVec.ofNat 64 o - dst).toNat =
      8 * i + o := by
    intro o ho
    rw [BitVec.add_assoc, ← BitVec.ofNat_add, BitVec.add_comm, BitVec.add_sub_cancel,
      BitVec.toNat_ofNat, Nat.mod_eq_of_lt (by omega)]
  rw [read64, read64, memcpy, load_blit_of_inside hplace hi]
  refine congrArg _ (leValue_congr fun o _ => ?_)
  rw [BitVec.ofNat_add, BitVec.add_assoc]

end

-- ---------------------------------------------------------------------------
-- Rows of register pairs
-- ---------------------------------------------------------------------------

/-- `stp` of each pair, from the offset on. -/
def saves : U64 → List (Reg × Reg) → List Instr
  | _, [] => []
  | off, (a, b) :: pairs => .stp a b off :: saves (off + 16) pairs

/-- `ldp` of each pair, from the offset on. -/
def restores : U64 → List (Reg × Reg) → List Instr
  | _, [] => []
  | off, (a, b) :: pairs => .ldp a b off :: restores (off + 16) pairs

/-- The registers of the pairs, in the order of their slots. -/
def pairRegs (pairs : List (Reg × Reg)) : List Reg := pairs.flatMap fun p => [p.1, p.2]

@[simp] theorem pairRegs_cons (a b : Reg) (pairs : List (Reg × Reg)) :
    pairRegs ((a, b) :: pairs) = a :: b :: pairRegs pairs := rfl

theorem run_saves (pairs : List (Reg × Reg)) (off : U64) (s : Cpu) :
    run (saves off pairs) s =
      { s with mem := writeRow s.mem (s.sp + off) ((pairRegs pairs).map s.x) } := by
  induction pairs generalizing off s with
  | nil => rfl
  | cons p pairs ih =>
    obtain ⟨a, b⟩ := p
    have hnext : s.sp + (off + 16) = s.sp + off + 8 + 8 := by
      rw [BitVec.add_assoc _ 8 8, ← BitVec.add_assoc]
      rfl
    rw [saves, run_cons, ih, pairRegs_cons, List.map_cons, List.map_cons, writeRow_cons,
      writeRow_cons, ← hnext]
    rfl

/-- The registers after the loads of a row: a register of the pairs has the word of its
slot. -/
def restored (m : Memory) (p : U64) (regs : List Reg) (x : Reg → U64) : Reg → U64 :=
  fun r => if r ∈ regs then read64 m (p + BitVec.ofNat 64 (8 * regs.idxOf r)) else x r

theorem restored_cons {m : Memory} {p : U64} {a : Reg} {regs : List Reg} {x : Reg → U64}
    (ha : a ∉ regs) :
    restored m (p + 8) regs (Function.update x a (read64 m p)) = restored m p (a :: regs) x := by
  funext r
  unfold restored
  by_cases hr : r = a
  · subst hr
    rw [if_neg ha, if_pos List.mem_cons_self, List.idxOf_cons_self, Function.update_self]
    exact congrArg (read64 m) (BitVec.add_zero p).symm
  · have haddr : p + 8 + BitVec.ofNat 64 (8 * regs.idxOf r) =
        p + BitVec.ofNat 64 (8 * (regs.idxOf r + 1)) := by
      rw [BitVec.add_assoc, Nat.mul_add_one, BitVec.ofNat_add, BitVec.add_comm 8]
      rfl
    rw [List.idxOf_cons_ne _ (Ne.symm hr), Function.update_of_ne hr, haddr]
    simp only [List.mem_cons, hr, false_or]

theorem run_restores (pairs : List (Reg × Reg)) (off : U64) (s : Cpu)
    (hnd : (pairRegs pairs).Nodup) :
    run (restores off pairs) s =
      { s with x := restored s.mem (s.sp + off) (pairRegs pairs) s.x } := by
  induction pairs generalizing off s with
  | nil => rfl
  | cons p pairs ih =>
    obtain ⟨a, b⟩ := p
    rw [pairRegs_cons] at hnd ⊢
    obtain ⟨ha, hnd⟩ := List.nodup_cons.mp hnd
    obtain ⟨hb, hnd⟩ := List.nodup_cons.mp hnd
    have hnext : s.sp + (off + 16) = s.sp + off + 8 + 8 := by
      rw [BitVec.add_assoc _ 8 8, ← BitVec.add_assoc]
      rfl
    rw [restores, run_cons, ih _ _ hnd, ← restored_cons ha, ← restored_cons hb, ← hnext]
    rfl

end TinyMultiCore
