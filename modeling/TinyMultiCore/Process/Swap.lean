import TinyMultiCore.Kernel.Cpu
import TinyMultiCore.Process.Model

/-!
# `swap`, `pstart` and `trap_return`

The assembly of `src/handler.s` between a kernel context and the next one, and between
the kernel and user mode, instruction by instruction.

* `run_swap` — `swap` leaves the callee-saved registers as a row on the stack it comes
  from, and takes those of the row it is given;
* `run_pstart` — a new process goes through `trap_return` into user mode with the
  registers of the trap frame at its stack pointer;
* `run_irqEntry` — a trap from there stores its frame at the same place.
-/

namespace TinyMultiCore

open ByteMemory

-- ---------------------------------------------------------------------------
-- The code
-- ---------------------------------------------------------------------------

/-- `swap`, with `&prev->context` in `x0` and `current->context` in `x1`. -/
def swapCode : List Instr :=
  [.subSp (12 * 8),
   .stp 19 20 (16 * 0),
   .stp 21 22 (16 * 1),
   .stp 23 24 (16 * 2),
   .stp 25 26 (16 * 3),
   .stp 27 28 (16 * 4),
   .stp 29 30 (16 * 5),
   .movFromSp 2,
   .str 2 0,
   .movToSp 1,
   .ldp 19 20 (16 * 0),
   .ldp 21 22 (16 * 1),
   .ldp 23 24 (16 * 2),
   .ldp 25 26 (16 * 3),
   .ldp 27 28 (16 * 4),
   .ldp 29 30 (16 * 5),
   .addSp (12 * 8),
   .ret]

/-- `spin_unlock`, with the address of the lock in `x0`. -/
def spinUnlockCode : List Instr := [.stlrWzr 0, .ret]

/-- The macro `kernel_exit`. -/
def kernelExitCode : List Instr :=
  [.ldp 30 0 (16 * 15),
   .msr .spEl0 0,
   .ldp 0 1 0,
   .ldp 2 3 (16 * 1),
   .ldp 4 5 (16 * 2),
   .ldp 6 7 (16 * 3),
   .ldp 8 9 (16 * 4),
   .ldp 10 11 (16 * 5),
   .ldp 12 13 (16 * 6),
   .ldp 14 15 (16 * 7),
   .ldp 16 17 (16 * 8),
   .ldp 18 19 (16 * 9),
   .ldp 20 21 (16 * 10),
   .ldp 22 23 (16 * 11),
   .ldp 24 25 (16 * 12),
   .ldp 26 27 (16 * 13),
   .ldp 28 29 (16 * 14),
   .addSp (36 * 8),
   .eret]

/-- `trap_return` -/
def trapReturnCode : List Instr :=
  [.ldp 0 1 (16 * 17),
   .msr .elrEl1 0,
   .msr .spsrEl1 1] ++ kernelExitCode

/-- `pstart`, which falls through to `trap_return`. The parameters are the addresses of
`process_lock` and of `trap_return`. -/
def pstartCode (processLock trapReturn : U64) : List Instr :=
  [.movImm 0 processLock,
   .bl trapReturn] ++ spinUnlockCode ++ trapReturnCode

/-- The macro `kernel_entry`. -/
def kernelEntryCode : List Instr :=
  [.subSp (36 * 8),
   .stp 0 1 0,
   .stp 2 3 (16 * 1),
   .stp 4 5 (16 * 2),
   .stp 6 7 (16 * 3),
   .stp 8 9 (16 * 4),
   .stp 10 11 (16 * 5),
   .stp 12 13 (16 * 6),
   .stp 14 15 (16 * 7),
   .stp 16 17 (16 * 8),
   .stp 18 19 (16 * 9),
   .stp 20 21 (16 * 10),
   .stp 22 23 (16 * 11),
   .stp 24 25 (16 * 12),
   .stp 26 27 (16 * 13),
   .stp 28 29 (16 * 14),
   .mrs 0 .spEl0,
   .stp 30 0 (16 * 15)]

/-- `irq_handler` up to its call of `handler`: the macros `kernel_entry` and
`handler_entry`. -/
def irqEntryCode : List Instr :=
  kernelEntryCode ++
  [.movImm 0 2,
   .mrs 1 .esrEl1,
   .stp 0 1 (16 * 16),
   .mrs 0 .elrEl1,
   .mrs 1 .spsrEl1,
   .stp 0 1 (16 * 17)]

-- ---------------------------------------------------------------------------
-- `swap`
-- ---------------------------------------------------------------------------

instance calleeRegs_neZero : NeZero 12 := ⟨by decide⟩

/-- `x19` to `x30` -/
def calleeReg (i : Fin 12) : Reg := ⟨19 + i, by omega⟩

/-- The pairs of `swap`. -/
def calleePairs : List (Reg × Reg) :=
  [(19, 20), (21, 22), (23, 24), (25, 26), (27, 28), (29, 30)]

theorem swapCode_eq : swapCode = .subSp 96 :: (saves 0 calleePairs ++
    ([.movFromSp 2, .str 2 0, .movToSp 1] ++ (restores 0 calleePairs ++ [.addSp 96, .ret]))) := rfl

theorem calleePairs_getElem : ∀ i : Fin 12, (pairRegs calleePairs)[i]? = some (calleeReg i) := by
  decide

theorem calleePairs_idxOf : ∀ i : Fin 12, calleeReg i ∈ pairRegs calleePairs ∧
    (pairRegs calleePairs).idxOf (calleeReg i) = i := by decide

/-- What `swap` has to keep for a process: the callee-saved registers, the return address
among them, and the stack pointer. -/
@[ext]
structure Context where
  callee : Fin 12 → U64
  sp : U64

/-- The address that `ret` goes to. -/
def Context.returnAddress (v : Context) : U64 := v.callee 11

/-- The context that a core is in. -/
def Cpu.context (s : Cpu) : Context where
  callee i := s.x (calleeReg i)
  sp := s.sp

/-- A context is kept at `p`: a row of its registers, with the stack pointer behind. The stack
pointer itself is not stored; it is where the row ends. -/
structure KeptAt (m : Memory) (p : U64) (v : Context) : Prop where
  sp : v.sp = p + 96
  callee : ∀ i : Fin 12, read64 m (p + BitVec.ofNat 64 (8 * i)) = v.callee i

variable {s : Cpu} {m m' : Memory} {p : U64} {v : Context}

/-- A kept context depends on its row only. -/
theorem KeptAt.of_agree (h : KeptAt m p v) (hagree : ∀ x, Range p 96 x → m' x = m x) :
    KeptAt m' p v where
  sp := h.sp
  callee i := by
    rw [read64_of_agree fun x hx => hagree x (slot_range (by omega) (by decide) hx)]
    exact h.callee i

/-- The memory after `swap` has saved the context it comes from. -/
def swapMem (s : Cpu) : Memory :=
  write64 (writeRow s.mem (s.sp - 96) ((pairRegs calleePairs).map s.x)) (s.x 0) (s.sp - 96)

/-- `swap` up to its loads. -/
theorem run_swap (s : Cpu) : run swapCode s =
    run (restores 0 calleePairs ++ [.addSp 96, .ret])
      { s with x := Function.update s.x 2 (s.sp - 96), sp := s.x 1, mem := swapMem s } := by
  rw [swapCode_eq, run_cons, run_append, run_saves, run_append]
  have hsp : (Instr.exec s (.subSp 96)).sp + 0 = s.sp - 96 := BitVec.add_zero _
  rw [hsp]
  rfl

theorem run_swap_mem (s : Cpu) : (run swapCode s).mem = swapMem s := by
  rw [run_swap, run_append, run_restores _ _ _ (by decide)]
  rfl

/-- **`swap`** takes the context that is kept where `x1` points, and returns there. The memory is
the one behind its own stores: the context it comes from is kept before the other one is read. -/
theorem run_swap_context (h : KeptAt (swapMem s) (s.x 1) v) :
    (run swapCode s).context = v ∧ (run swapCode s).pc = v.returnAddress := by
  have hload : ∀ i, restored (swapMem s) (s.x 1 + 0) (pairRegs calleePairs)
      (Function.update s.x 2 (s.sp - 96)) (calleeReg i) = v.callee i := by
    intro i
    obtain ⟨hmem, hidx⟩ := calleePairs_idxOf i
    rw [restored, if_pos hmem, hidx, show s.x 1 + 0 = s.x 1 from BitVec.add_zero _]
    exact h.callee i
  rw [run_swap, run_append, run_restores _ _ _ (by decide)]
  exact ⟨Context.ext (funext hload) h.sp.symm, hload 11⟩

/-- **`swap`** keeps the context it comes from below the stack pointer, and its address
where `x0` points, which is not there. -/
theorem keptAt_swapMem (hapart : ∀ x, Range (s.sp - 96) 96 x → ¬Range (s.x 0) 8 x) :
    KeptAt (swapMem s) (s.sp - 96) s.context ∧ read64 (swapMem s) (s.x 0) = s.sp - 96 := by
  refine ⟨KeptAt.of_agree (m := writeRow s.mem (s.sp - 96) ((pairRegs calleePairs).map s.x))
    ⟨(BitVec.sub_add_cancel _ _).symm, fun i => ?_⟩ fun x hx => store_outside (hapart x hx),
    read64_write64 _⟩
  obtain ⟨hlt, hreg⟩ := List.getElem?_eq_some_iff.mp (calleePairs_getElem i)
  rw [read64_writeRow (by rw [List.length_map]; decide) (by rw [List.length_map]; exact hlt),
    List.getElem_map]
  exact congrArg s.x hreg

/-- Nothing else is stored. -/
theorem swapMem_outside {x : U64} (hrow : ¬Range (s.sp - 96) 96 x) (hfield : ¬Range (s.x 0) 8 x) :
    swapMem s x = s.mem x := by
  rw [swapMem, write64, store_outside hfield]
  exact writeRow_outside (by rw [List.length_map]; decide) hrow

-- ---------------------------------------------------------------------------
-- Trap frames
-- ---------------------------------------------------------------------------

/-- `struct TrapFrame` -/
@[ext]
structure TrapFrame where
  x : Reg → U64
  sp0 : U64
  trapno : U64
  esr : U64
  elr : U64
  spsr : U64

/-- The structure at `p`. -/
def readTrapFrame (m : Memory) (p : U64) : TrapFrame where
  x i := read64 m (p + BitVec.ofNat 64 (8 * i))
  sp0 := read64 m (p + 248)
  trapno := read64 m (p + 256)
  esr := read64 m (p + 264)
  elr := read64 m (p + 272)
  spsr := read64 m (p + 280)

/-- A trap frame depends on its bytes only. -/
theorem readTrapFrame_of_agree (h : ∀ x, Range p 288 x → m' x = m x) :
    readTrapFrame m' p = readTrapFrame m p := by
  have hword : ∀ i : Nat, i < 36 → read64 m' (p + BitVec.ofNat 64 (8 * i)) =
      read64 m (p + BitVec.ofNat 64 (8 * i)) := fun i hi =>
    read64_of_agree fun x hx => h x (slot_range (by omega) (by decide) hx)
  exact TrapFrame.ext (funext fun i => hword i (by omega)) (hword 31 (by decide))
    (hword 32 (by decide)) (hword 33 (by decide)) (hword 34 (by decide)) (hword 35 (by decide))

/-- The trap frame of a new process. -/
def TrapFrame.base : TrapFrame where
  x _ := 0
  sp0 := userBase + pageSize
  trapno := 0
  esr := 0
  elr := userBase
  spsr := 0

/-- Zeros, with the three words of `enterAtBase`. -/
theorem readTrapFrame_enterAtBase {a : U64} (h : ∀ x, Range a 288 x → m x = 0) :
    readTrapFrame (enterAtBase m a) a = .base := by
  have hother : ∀ i : Nat, i < 36 → i ≠ 31 → i ≠ 34 → i ≠ 35 →
      read64 (enterAtBase m a) (a + BitVec.ofNat 64 (8 * i)) = 0 := by
    intro i hi h31 h34 h35
    show read64 (write64 (write64 (write64 m (a + BitVec.ofNat 64 (8 * 34)) _)
      (a + BitVec.ofNat 64 (8 * 31)) _) (a + BitVec.ofNat 64 (8 * 35)) 0) _ = 0
    rw [read64_write64_slot h35 (by omega) (by decide), read64_write64_slot h31 (by omega) (by decide),
      read64_write64_slot h34 (by omega) (by decide)]
    exact read64_zeros fun x hx => h x (slot_range (by omega) (by decide) hx)
  refine TrapFrame.ext (funext fun i => ?_) ?_ ?_ ?_ ?_ ?_
  · exact hother i (by omega) (by omega) (by omega) (by omega)
  · exact (read64_write64_slot (i := 31) (k := 35) (by decide) (by decide) (by decide)).trans
      (read64_write64 _)
  · exact hother 32 (by decide) (by decide) (by decide) (by decide)
  · exact hother 33 (by decide) (by decide) (by decide) (by decide)
  · exact (read64_write64_slot (i := 34) (k := 35) (by decide) (by decide) (by decide)).trans
      ((read64_write64_slot (i := 34) (k := 31) (by decide) (by decide) (by decide)).trans
        (read64_write64 _))
  · exact read64_write64 0

/-- The trap frame that `fork` gives to the new process: the parent's, with `x0` zero. -/
def TrapFrame.forked (f : TrapFrame) : TrapFrame := { f with x := Function.update f.x 0 0 }

/-- The copy that `fork` makes of the frame at `a`. -/
theorem readTrapFrame_fork {dst a : U64} :
    readTrapFrame (write64 (memcpy m dst m a (trapFrameSize.setWidth 32)) dst 0) dst =
      (readTrapFrame m a).forked := by
  have hword : ∀ i : Nat, i < 36 → i ≠ 0 →
      read64 (write64 (memcpy m dst m a (trapFrameSize.setWidth 32)) dst 0)
        (dst + BitVec.ofNat 64 (8 * i)) = read64 m (a + BitVec.ofNat 64 (8 * i)) := by
    intro i hi h0
    have hsize : 8 * i + 8 ≤ (trapFrameSize.setWidth 32).toNat := by
      rw [show (trapFrameSize.setWidth 32).toNat = 288 by decide]
      omega
    refine (read64_of_agree fun x hx => write64_outside ?_).trans (read64_memcpy hsize)
    have := (hx.tail (by omega)).1
    omega
  refine TrapFrame.ext (funext fun i => ?_) (hword 31 (by decide) (by decide))
    (hword 32 (by decide) (by decide)) (hword 33 (by decide) (by decide))
    (hword 34 (by decide) (by decide)) (hword 35 (by decide) (by decide))
  by_cases hi : i = 0
  · subst hi
    have hdst : dst + BitVec.ofNat 64 (8 * (0 : Reg).val) = dst := BitVec.add_zero _
    exact (congrArg (read64 _) hdst).trans (read64_write64 0)
  · have hother : (readTrapFrame m a).forked.x i = (readTrapFrame m a).x i :=
      Function.update_of_ne hi _ _
    rw [hother]
    exact hword i (by omega) fun h => hi (Fin.ext h)

/-- In user mode, with the registers of a trap frame. -/
structure Cpu.Returned (s : Cpu) (f : TrapFrame) : Prop where
  x : s.x = f.x
  sp0 : s.sys .spEl0 = f.sp0
  elr : s.pc = f.elr
  spsr : s.pstate = f.spsr

/-- The pairs of the macros, `x30` apart. -/
def framePairs : List (Reg × Reg) :=
  [(0, 1), (2, 3), (4, 5), (6, 7), (8, 9), (10, 11), (12, 13), (14, 15), (16, 17), (18, 19),
   (20, 21), (22, 23), (24, 25), (26, 27), (28, 29)]

theorem trapReturnCode_eq : trapReturnCode =
    [.ldp 0 1 272, .msr .elrEl1 0, .msr .spsrEl1 1, .ldp 30 0 240, .msr .spEl0 0] ++
      (restores 0 framePairs ++ [.addSp 288, .eret]) := rfl

theorem framePairs_idxOf : ∀ r : Reg, r ≠ 30 → r ∈ pairRegs framePairs ∧
    (pairRegs framePairs).idxOf r = r := by decide

theorem notMem_framePairs : (30 : Reg) ∉ pairRegs framePairs := by decide

/-- The loads of `kernel_exit`, and what follows them. -/
theorem run_exit (s : Cpu) : run (restores 0 framePairs ++ [.addSp 288, .eret]) s =
    { s with
      x := restored s.mem (s.sp + 0) (pairRegs framePairs) s.x
      sp := s.sp + 288
      pc := s.sys .elrEl1
      pstate := s.sys .spsrEl1 } := by
  rw [run_append, run_restores _ _ _ (by decide)]
  rfl

/-- `x30` is loaded before the other registers, and kept by their loads. -/
theorem restored_frame {m : Memory} {x : Reg → U64}
    (h30 : x 30 = (readTrapFrame m p).x 30) :
    restored m (p + 0) (pairRegs framePairs) x = (readTrapFrame m p).x := by
  have hp : p + 0 = p := BitVec.add_zero p
  funext r
  by_cases hr : r = 30
  · subst hr
    rw [restored, if_neg notMem_framePairs]
    exact h30
  · obtain ⟨hmem, hidx⟩ := framePairs_idxOf r hr
    rw [restored, if_pos hmem, hidx, hp]
    rfl

/-- **`trap_return`** enters user mode with the frame at the stack pointer. The system registers and
`x30` are loaded first, by way of registers that get their own values afterwards. -/
theorem run_trapReturn (s : Cpu) :
    (run trapReturnCode s).Returned (readTrapFrame s.mem s.sp) ∧
    (run trapReturnCode s).sp = s.sp + 288 ∧ (run trapReturnCode s).mem = s.mem := by
  have hspsr : s.sp + 272 + 8 = s.sp + 280 := BitVec.add_assoc _ _ _
  have hsp0 : s.sp + 240 + 8 = s.sp + 248 := BitVec.add_assoc _ _ _
  -- the system registers and `x30` come first
  obtain ⟨s₁, hs₁⟩ : ∃ s₁, s₁ = run [.ldp 0 1 272, .msr .elrEl1 0, .msr .spsrEl1 1, .ldp 30 0 240,
    .msr .spEl0 0] s := ⟨_, rfl⟩
  have hsp : s₁.sp = s.sp := by rw [hs₁]; rfl
  have hmem : s₁.mem = s.mem := by rw [hs₁]; rfl
  have h30 : s₁.x 30 = (readTrapFrame s.mem s.sp).x 30 := by rw [hs₁]; rfl
  have helr : s₁.sys .elrEl1 = (readTrapFrame s.mem s.sp).elr := by rw [hs₁]; rfl
  have hspsr : s₁.sys .spsrEl1 = (readTrapFrame s.mem s.sp).spsr := by
    rw [hs₁]
    exact congrArg (read64 s.mem) hspsr
  have hsp0 : s₁.sys .spEl0 = (readTrapFrame s.mem s.sp).sp0 := by
    rw [hs₁]
    exact congrArg (read64 s.mem) hsp0
  rw [trapReturnCode_eq, run_append, ← hs₁, run_exit, hsp, hmem, restored_frame h30]
  exact ⟨⟨rfl, hsp0, helr, hspsr⟩, rfl, rfl⟩

/-- **`pstart`** releases the lock first, which is not in the frame. Behind that it is `trap_return`,
and reads nothing but the frame. -/
theorem run_pstart {lock : U64} (trapReturn : U64) (s : Cpu)
    (hlock : ∀ x, Range s.sp 288 x → ¬Range lock 4 x) :
    (run (pstartCode lock trapReturn) s).Returned (readTrapFrame s.mem s.sp) ∧
    (run (pstartCode lock trapReturn) s).sp = s.sp + 288 ∧
    (run (pstartCode lock trapReturn) s).mem = store s.mem lock 4 0 := by
  have hframe : readTrapFrame (store s.mem lock 4 0) s.sp = readTrapFrame s.mem s.sp :=
    readTrapFrame_of_agree fun x hx => store_outside (hlock x hx)
  obtain ⟨s₁, hs₁⟩ : ∃ s₁, s₁ = run ([.movImm 0 lock, .bl trapReturn] ++ spinUnlockCode) s :=
    ⟨_, rfl⟩
  have hsp : s₁.sp = s.sp := by rw [hs₁]; rfl
  have hmem : s₁.mem = store s.mem lock 4 0 := by rw [hs₁]; rfl
  rw [pstartCode, run_append, ← hs₁, ← hframe, ← hsp, ← hmem]
  exact run_trapReturn s₁

-- ---------------------------------------------------------------------------
-- The next trap
-- ---------------------------------------------------------------------------

/-- An interrupt is taken to EL1, with interrupts masked there. -/
def takeIrq (vector : U64) (s : Cpu) : Cpu :=
  { s with
    sys := Function.update (Function.update s.sys .elrEl1 s.pc) .spsrEl1 s.pstate
    pc := vector
    pstate := 0x3c5 }

/-- The words of a trap frame. -/
def TrapFrame.row (f : TrapFrame) : List U64 :=
  (List.finRange 31).map f.x ++ [f.sp0, f.trapno, f.esr, f.elr, f.spsr]

theorem TrapFrame.row_x (f : TrapFrame) (r : Reg) : f.row[r.val]? = some (f.x r) := by
  have hlt : r.val < ((List.finRange 31).map f.x).length := by
    rw [List.length_map, List.length_finRange]
    exact r.isLt
  rw [row, List.getElem?_append_left hlt, List.getElem?_map]
  simp

theorem readTrapFrame_writeRow (f : TrapFrame) : readTrapFrame (writeRow m p f.row) p = f := by
  have hword : ∀ (i : Nat) (v : U64), f.row[i]? = some v →
      read64 (writeRow m p f.row) (p + BitVec.ofNat 64 (8 * i)) = v := by
    intro i v h
    obtain ⟨hlt, rfl⟩ := List.getElem?_eq_some_iff.mp h
    exact read64_writeRow (by simp [TrapFrame.row]) hlt
  exact TrapFrame.ext (funext fun r => hword r _ (f.row_x r)) (hword 31 _ rfl) (hword 32 _ rfl)
    (hword 33 _ rfl) (hword 34 _ rfl) (hword 35 _ rfl)

theorem irqEntryCode_eq : irqEntryCode = .subSp 288 :: (saves 0 framePairs ++
    [.mrs 0 .spEl0, .stp 30 0 240, .movImm 0 2, .mrs 1 .esrEl1, .stp 0 1 256, .mrs 0 .elrEl1,
     .mrs 1 .spsrEl1, .stp 0 1 272]) := rfl

theorem writeRow_append (vs ws : List U64) : writeRow m p (vs ++ ws) =
    writeRow (writeRow m p vs) (p + BitVec.ofNat 64 (8 * vs.length)) ws := by
  induction vs generalizing m p with
  | nil =>
    have hp : p + BitVec.ofNat 64 (8 * ([] : List U64).length) = p := BitVec.add_zero p
    rw [List.nil_append, writeRow_nil, hp]
  | cons v vs ih =>
    have hp : p + 8 + BitVec.ofNat 64 (8 * vs.length) =
        p + BitVec.ofNat 64 (8 * (v :: vs).length) := by
      rw [BitVec.add_assoc, List.length_cons, Nat.mul_add_one, BitVec.ofNat_add, BitVec.add_comm 8]
      rfl
    rw [List.cons_append, writeRow_cons, ih, hp, writeRow_cons]

/-- The frame that an interrupt in the state `s` leaves. -/
def Cpu.irqFrame (s : Cpu) : TrapFrame where
  x := s.x
  sp0 := s.sys .spEl0
  trapno := 2
  esr := s.sys .esrEl1
  elr := s.pc
  spsr := s.pstate

theorem framePairs_map (x : Reg → U64) : (List.finRange 31).map x =
    (pairRegs framePairs).map x ++ [x 30] := rfl

/-- The end of the entry: `x30` and the system registers go behind the row. -/
theorem run_irqEntry_end (s : Cpu) :
    (run [.mrs 0 .spEl0, .stp 30 0 240, .movImm 0 2, .mrs 1 .esrEl1, .stp 0 1 256, .mrs 0 .elrEl1,
      .mrs 1 .spsrEl1, .stp 0 1 272] s).mem =
      writeRow s.mem (s.sp + 240)
        [s.x 30, s.sys .spEl0, 2, s.sys .esrEl1, s.sys .elrEl1, s.sys .spsrEl1] := by
  have h256 : s.sp + 240 + 8 + 8 = s.sp + 256 := by rw [BitVec.add_assoc, BitVec.add_assoc]; rfl
  have h272 : s.sp + 256 + 8 + 8 = s.sp + 272 := by rw [BitVec.add_assoc, BitVec.add_assoc]; rfl
  rw [writeRow_cons, writeRow_cons, writeRow_cons, writeRow_cons, writeRow_cons, writeRow_cons,
    writeRow_nil, h256, h272]
  rfl

/-- **The next trap** stores its frame right below the stack pointer. -/
theorem run_irqEntry (vector : U64) (s : Cpu) :
    (run irqEntryCode (takeIrq vector s)).sp = s.sp - 288 ∧
    s.Returned (readTrapFrame (run irqEntryCode (takeIrq vector s)).mem (s.sp - 288)) := by
  have hp : s.sp - 288 + 0 = s.sp - 288 := BitVec.add_zero _
  have hmem : (run irqEntryCode (takeIrq vector s)).mem =
      writeRow s.mem (s.sp - 288) s.irqFrame.row := by
    rw [irqEntryCode_eq, run_cons, run_append, run_saves, run_irqEntry_end, TrapFrame.row,
      framePairs_map, List.append_assoc, writeRow_append]
    exact congrArg (fun q => writeRow (writeRow s.mem q _) _ _) hp
  refine ⟨?_, ?_⟩
  · rw [irqEntryCode_eq, run_cons, run_append, run_saves]
    rfl
  · rw [hmem, readTrapFrame_writeRow]
    exact ⟨rfl, rfl, rfl, rfl⟩

end TinyMultiCore
