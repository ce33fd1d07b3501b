import TinyMultiCore.Process.Swap

/-!
# Trap entry and return

The three ways into the kernel of `src/handler.s`: `sync_handler`, `irq_handler` and `error`,
which differ in the trap number they compute between `kernel_entry` and `handler_entry`, and the
way back through `trap_return`.

* `run_entry` — the frame below the stack pointer has every register in the field of its name;
* `trap_round_trip` — on the way back each register has what `handler` has left in its field.
-/

namespace TinyMultiCore

open ByteMemory

-- ---------------------------------------------------------------------------
-- The code
-- ---------------------------------------------------------------------------

/-- Where the vectors lead. -/
inductive TrapEntry where
  | sync
  | irq
  | error
  deriving DecidableEq, Repr

/-- The macro `handler_entry`, up to the call of `handler`; with the address behind it. -/
def handlerEntryCode (behind : U64) : List Instr :=
  [.mrs 1 .esrEl1,
   .stp 0 1 (16 * 16),
   .mrs 0 .elrEl1,
   .mrs 1 .spsrEl1,
   .stp 0 1 (16 * 17),
   .movFromSp 0,
   .bl behind]

/-- What comes between the two macros. -/
def TrapEntry.numberCode : TrapEntry → List Instr
  | .sync =>
    [.mrs 0 .esrEl1,
     .lsr 1 0 26,
     .cmpImm 1 0b010101,
     .movImm 2 1,
     .movImm 3 3,
     .cselNe 0 2 3]
  | .irq => [.movImm 0 2]
  | .error => [.movImm 0 0]

/-- `sync_handler`, `irq_handler` and `error` -/
def TrapEntry.code (e : TrapEntry) (behind : U64) : List Instr :=
  kernelEntryCode ++ e.numberCode ++ handlerEntryCode behind

/-- `trapno`: the exception class of a system call is `0b010101`. -/
def TrapEntry.trapno (esr : U64) : TrapEntry → U64
  | .sync => if esr >>> 26 = 0b010101 then 3 else 1
  | .irq => 2
  | .error => 0

-- ---------------------------------------------------------------------------
-- The way in
-- ---------------------------------------------------------------------------

variable {s t u : Cpu} {m : Memory} {p : U64}

/-- Only scratch registers and the flags change, and `x0` is the trap number. -/
theorem run_numberCode (e : TrapEntry) (s : Cpu) :
    (run e.numberCode s).x 0 = e.trapno (s.sys .esrEl1) ∧ (run e.numberCode s).sp = s.sp ∧
      (run e.numberCode s).sys = s.sys ∧ (run e.numberCode s).mem = s.mem := by
  cases e with
  | irq => exact ⟨rfl, rfl, rfl, rfl⟩
  | error => exact ⟨rfl, rfl, rfl, rfl⟩
  | sync =>
    refine ⟨?_, rfl, rfl, rfl⟩
    have hz := getLsbD_cmpFlags_zero s.pstate (s.sys .esrEl1 >>> 26) 0b010101
    have hx : (run TrapEntry.sync.numberCode s).x 0 =
        if (s.pstate &&& ~~~(0xf0000000 : U64) ||| cmpFlags (s.sys .esrEl1 >>> 26) 0b010101).getLsbD 30
          then 3 else 1 := rfl
    rw [hx, hz, TrapEntry.trapno]
    simp only [decide_eq_true_eq]

/-- The frame of a trap. -/
def TrapEntry.frame (e : TrapEntry) (s : Cpu) : TrapFrame where
  x := s.x
  sp0 := s.sys .spEl0
  trapno := e.trapno (s.sys .esrEl1)
  esr := s.sys .esrEl1
  elr := s.sys .elrEl1
  spsr := s.sys .spsrEl1

theorem TrapEntry.code_eq (e : TrapEntry) (behind : U64) : e.code behind = .subSp 288 ::
    (saves 0 framePairs ++ ([.mrs 0 .spEl0, .stp 30 0 240] ++ (e.numberCode ++
      handlerEntryCode behind))) := by
  rw [TrapEntry.code, List.append_assoc]
  rfl

/-- **Entry.** The trap frame is right below the stack pointer, `x0` points to it, and each of its
fields has the register of its name. The three entries differ in the code that stores the trap number
only. -/
theorem run_entry (e : TrapEntry) (behind : U64) (s : Cpu) :
    (run (e.code behind) s).sp = s.sp - 288 ∧ (run (e.code behind) s).x 0 = s.sp - 288 ∧
      (run (e.code behind) s).mem = writeRow s.mem (s.sp - 288) (e.frame s).row := by
  have hp : s.sp - 288 + 0 = s.sp - 288 := BitVec.add_zero _
  -- the state before the trap number, with the general registers in the frame
  obtain ⟨t, ht⟩ : ∃ t, t = run [.mrs 0 .spEl0, .stp 30 0 240] (run (saves 0 framePairs)
    ((Instr.subSp 288).exec s)) := ⟨_, rfl⟩
  have htsp : t.sp = s.sp - 288 := by
    rw [ht, run_saves]
    rfl
  have htsys : t.sys = s.sys := by
    rw [ht, run_saves]
    rfl
  have htmem : t.mem = writeRow (writeRow s.mem (s.sp - 288) ((pairRegs framePairs).map s.x))
      (s.sp - 288 + 240) [s.x 30, s.sys .spEl0] := by
    rw [ht, run_saves, writeRow_cons, writeRow_cons, writeRow_nil]
    show write64 (write64 (writeRow s.mem (s.sp - 288 + 0) _) _ _) _ _ = _
    rw [hp]
    rfl
  obtain ⟨hnumber, hsp, hsys, hmem⟩ := run_numberCode e t
  rw [e.code_eq, run_cons, run_append, run_append, ← ht, run_append]
  refine ⟨hsp.trans htsp, ?_, ?_⟩
  · show (run e.numberCode t).sp = _
    exact hsp.trans htsp
  · have hend : (run (handlerEntryCode behind) (run e.numberCode t)).mem =
        writeRow t.mem (s.sp - 288 + 256) [e.trapno (s.sys .esrEl1), s.sys .esrEl1, s.sys .elrEl1,
          s.sys .spsrEl1] := by
      have h272 : s.sp - 288 + 256 + 8 + 8 = s.sp - 288 + 272 := by
        rw [BitVec.add_assoc, BitVec.add_assoc]
        rfl
      rw [writeRow_cons, writeRow_cons, writeRow_cons, writeRow_cons, writeRow_nil, h272, ← htsys,
        ← hnumber, ← hsys, ← hmem, ← htsp, ← hsp]
      rfl
    have h256 : s.sp - 288 + 240 + BitVec.ofNat 64 (8 * [s.x 30, s.sys .spEl0].length) =
        s.sp - 288 + 256 := BitVec.add_assoc _ _ _
    have h240 : s.sp - 288 + BitVec.ofNat 64 (8 * ((pairRegs framePairs).map s.x).length) =
        s.sp - 288 + 240 := rfl
    rw [hend, htmem, ← h256, ← writeRow_append, ← h240, ← writeRow_append]
    rfl

-- ---------------------------------------------------------------------------
-- The way out
-- ---------------------------------------------------------------------------

/-- The registers that `trap_return` restores from the frame. -/
inductive FrameReg where
  | x (r : Reg)
  | sp0
  | elr
  | spsr
  deriving DecidableEq, Repr

/-- The place of its field in `struct TrapFrame`. -/
def FrameReg.slot : FrameReg → Nat
  | .x r => r
  | .sp0 => 31
  | .elr => 34
  | .spsr => 35

def FrameReg.all : List FrameReg := (List.finRange 31).map .x ++ [.sp0, .elr, .spsr]

def Cpu.frameReg (s : Cpu) : FrameReg → U64
  | .x r => s.x r
  | .sp0 => s.sys .spEl0
  | .elr => s.sys .elrEl1
  | .spsr => s.sys .spsrEl1

def TrapFrame.field (f : TrapFrame) : FrameReg → U64
  | .x r => f.x r
  | .sp0 => f.sp0
  | .elr => f.elr
  | .spsr => f.spsr

theorem field_readTrapFrame (m : Memory) (p : U64) (g : FrameReg) :
    (readTrapFrame m p).field g = read64 m (p + BitVec.ofNat 64 (8 * g.slot)) := by
  cases g <;> rfl

theorem FrameReg.slot_lt (g : FrameReg) : g.slot < 36 := by
  cases g with
  | x r => exact r.isLt.trans (by decide)
  | sp0 => decide
  | elr => decide
  | spsr => decide

theorem FrameReg.slot_injective : Function.Injective FrameReg.slot := by
  intro g h he
  cases g <;> cases h <;> simp only [FrameReg.slot] at he <;> first
    | rfl
    | exact congrArg FrameReg.x (Fin.ext he)
    | omega

theorem FrameReg.mem_all (g : FrameReg) : g ∈ FrameReg.all := by
  cases g with
  | x r => exact List.mem_append_left _ (List.mem_map.mpr ⟨r, List.mem_finRange r, rfl⟩)
  | sp0 => decide
  | elr => decide
  | spsr => decide

/-- `handler` stores a new value in a field of the frame at `p`, or leaves it alone. -/
def storeField (m : Memory) (p : U64) (edits : FrameReg → Option U64) (g : FrameReg) : Memory :=
  match edits g with
  | some v => write64 m (p + BitVec.ofNat 64 (8 * g.slot)) v
  | none => m

def overwrite (m : Memory) (p : U64) (edits : FrameReg → Option U64) (fields : List FrameReg) :
    Memory := fields.foldl (fun m g => storeField m p edits g) m

theorem read64_storeField (m : Memory) (edits : FrameReg → Option U64) (g : FrameReg) :
    read64 (storeField m p edits g) (p + BitVec.ofNat 64 (8 * g.slot)) =
      (edits g).getD (read64 m (p + BitVec.ofNat 64 (8 * g.slot))) := by
  unfold storeField
  cases edits g with
  | none => rfl
  | some v => exact read64_write64 v

theorem read64_storeField_of_ne (m : Memory) (edits : FrameReg → Option U64) {g h : FrameReg}
    (hne : g ≠ h) : read64 (storeField m p edits h) (p + BitVec.ofNat 64 (8 * g.slot)) =
      read64 m (p + BitVec.ofNat 64 (8 * g.slot)) := by
  have hslot : g.slot ≠ h.slot := fun he => hne (FrameReg.slot_injective he)
  have hg := g.slot_lt
  have hh := h.slot_lt
  unfold storeField
  cases edits h with
  | none => rfl
  | some v => exact read64_write64_slot hslot (by omega) (by omega)

theorem read64_overwrite {edits : FrameReg → Option U64} {fields : List FrameReg}
    (hnd : fields.Nodup) (m : Memory) (g : FrameReg) :
    read64 (overwrite m p edits fields) (p + BitVec.ofNat 64 (8 * g.slot)) =
      (if g ∈ fields then edits g else none).getD (read64 m (p + BitVec.ofNat 64 (8 * g.slot))) := by
  induction fields generalizing m with
  | nil => rfl
  | cons h fields ih =>
    obtain ⟨hh, hnd⟩ := List.nodup_cons.mp hnd
    show read64 (overwrite (storeField m p edits h) p edits fields) _ = _
    rw [ih hnd]
    by_cases hg : g = h
    · subst hg
      rw [if_neg hh, if_pos List.mem_cons_self]
      exact read64_storeField m edits g
    · rw [read64_storeField_of_ne m edits hg]
      simp only [List.mem_cons, hg, false_or]

/-- **Return.** Each register has what its field has. -/
theorem run_trapReturn_frameReg (u : Cpu) (g : FrameReg) :
    (run trapReturnCode u).frameReg g = (readTrapFrame u.mem u.sp).field g := by
  obtain ⟨hret, -, -⟩ := run_trapReturn u
  cases g with
  | x r => exact congrFun hret.x r
  | sp0 => exact hret.sp0
  | elr =>
    rw [Cpu.frameReg, trapReturnCode_eq, run_append, run_exit]
    rfl
  | spsr =>
    have hspsr : u.sp + 272 + 8 = u.sp + 280 := BitVec.add_assoc _ _ _
    rw [Cpu.frameReg, trapReturnCode_eq, run_append, run_exit]
    exact congrArg (read64 u.mem) hspsr

/-- **Traps are transparent.** For every state of the core and each of the three entries: the frame
below the stack pointer has each register in the field of its name, with the number of the trap.
When `handler` returns with the same stack pointer, having stored new values in any of the fields
of `x0` to `x30`, `sp_el0`, `elr` and `spsr`, then `trap_return` leaves these values in exactly
their registers, and the old ones in all others. -/
theorem trap_round_trip (e : TrapEntry) (behind : U64) (s : Cpu) :
    (run (e.code behind) s).sp = s.sp - 288 ∧ (run (e.code behind) s).x 0 = s.sp - 288 ∧
    readTrapFrame (run (e.code behind) s).mem (s.sp - 288) =
      ⟨s.x, s.sys .spEl0, e.trapno (s.sys .esrEl1), s.sys .esrEl1, s.sys .elrEl1, s.sys .spsrEl1⟩ ∧
    ∀ (edits : FrameReg → Option U64) (u : Cpu), u.sp = s.sp - 288 →
      (∀ x, Range (s.sp - 288) 288 x →
        u.mem x = overwrite (run (e.code behind) s).mem (s.sp - 288) edits FrameReg.all x) →
      (run trapReturnCode u).sp = s.sp ∧
      (∀ g, (run trapReturnCode u).frameReg g = (edits g).getD (s.frameReg g)) ∧
      (run trapReturnCode u).pc = (edits .elr).getD (s.sys .elrEl1) ∧
      (run trapReturnCode u).pstate = (edits .spsr).getD (s.sys .spsrEl1) := by
  obtain ⟨hsp, hx0, hmem⟩ := run_entry e behind s
  have hframe : readTrapFrame (run (e.code behind) s).mem (s.sp - 288) = e.frame s := by
    rw [hmem, readTrapFrame_writeRow]
  refine ⟨hsp, hx0, hframe, fun edits u husp humem => ?_⟩
  obtain ⟨hret, hretsp, -⟩ := run_trapReturn u
  -- what the handler leaves in the fields
  have hfield : ∀ g, (readTrapFrame u.mem u.sp).field g = (edits g).getD (s.frameReg g) := by
    intro g
    have hold : read64 (run (e.code behind) s).mem (s.sp - 288 + BitVec.ofNat 64 (8 * g.slot)) =
        s.frameReg g := by
      rw [← field_readTrapFrame, hframe]
      cases g <;> rfl
    rw [husp, readTrapFrame_of_agree humem, field_readTrapFrame, read64_overwrite (by decide), hold,
      if_pos g.mem_all]
  refine ⟨?_, fun g => (run_trapReturn_frameReg u g).trans (hfield g), hret.elr.trans (hfield .elr),
    hret.spsr.trans (hfield .spsr)⟩
  rw [hretsp, husp, BitVec.sub_add_cancel]

/-- A core whose user program has just made a system call. -/
def callingCpu : Cpu where
  x r := BitVec.ofNat 64 r
  sp := 0xffff000000400000
  sys
    | .esrEl1 => 0x54000005
    | _ => 0x400000
  pc := 0
  pstate := 0
  mem _ := 0

/-- In `handler`, when `system_call` has stored the result `v`. -/
def Cpu.answered (t : Cpu) (v : U64) : Cpu :=
  { t with mem := overwrite t.mem t.sp (fun g => if g = .x 0 then some v else none) FrameReg.all }

theorem Cpu.answered_sp (t : Cpu) (v : U64) : (t.answered v).sp = t.sp := rfl

theorem Cpu.answered_mem (t : Cpu) (v : U64) : (t.answered v).mem =
    overwrite t.mem t.sp (fun g => if g = .x 0 then some v else none) FrameReg.all := rfl

/-- The program has the result in `x0`, and its other registers are those of before. -/
theorem call_answered : TrapEntry.sync.trapno (callingCpu.sys .esrEl1) = 3 ∧
    ((run trapReturnCode ((run (TrapEntry.sync.code 0) callingCpu).answered 7)).frameReg (.x 0) = 7) ∧
    ∀ r : Reg, r ≠ 0 → (run trapReturnCode
      ((run (TrapEntry.sync.code 0) callingCpu).answered 7)).frameReg (.x r) = callingCpu.x r := by
  obtain ⟨hsp, -, -, hback⟩ := trap_round_trip .sync 0 callingCpu
  obtain ⟨-, hregs, -⟩ := hback (fun g => if g = .x 0 then some 7 else none)
    ((run (TrapEntry.sync.code 0) callingCpu).answered 7) (by rw [Cpu.answered_sp, hsp])
    fun x _ => by rw [Cpu.answered_mem, hsp]
  refine ⟨by decide, ?_, fun r hr => ?_⟩
  · rw [hregs, if_pos rfl]
    rfl
  · rw [hregs, if_neg fun he => hr (FrameReg.x.inj he)]
    rfl

end TinyMultiCore
