import TinyMultiCore.Lib.Run
import TinyMultiCore.Process.Creation
import TinyMultiCore.Process.Swap

/-!
# One core

The processes of a core, each with its kernel stack and the field `context` of its
`struct Process`, and what happens between two calls of `swap`: the process that is
running computes, with any effect on the registers and on the memory that is not
another process's; it builds a new process (`alloc_new_process`), to which `fork` may
copy a trap frame; and it calls `swap`.

* `allocMem_outside`, `forkMem_outside` — building a process stores to its own stack and
  field only;
* `keptAt_allocMem` — and leaves a context there as if the process had called `swap`.
-/

namespace TinyMultiCore

open ByteMemory TransitionSystem

-- ---------------------------------------------------------------------------
-- Where things are
-- ---------------------------------------------------------------------------

/-- Processes with disjoint kernel stacks. The fields and the lock are not on them. -/
structure Layout (P : Type) where
  stack : P → U64
  stackSize : P → Nat
  /-- `&process->context` -/
  contextField : P → U64
  /-- `&process_lock` -/
  processLock : U64
  pstart : U64
  trapReturn : U64
  size_le : ∀ p, stackSize p ≤ 2 ^ 64
  stacks_apart : ∀ {p q x}, p ≠ q → Range (stack p) (stackSize p) x →
    ¬Range (stack q) (stackSize q) x
  fields_apart : ∀ {p q x}, p ≠ q → Range (contextField p) 8 x → ¬Range (contextField q) 8 x
  field_off_stack : ∀ {p q x}, Range (contextField p) 8 x → ¬Range (stack q) (stackSize q) x
  lock_off_stack : ∀ {p x}, Range processLock 4 x → ¬Range (stack p) (stackSize p) x

namespace Layout

variable {P : Type} (L : Layout P)

/-- `process->tf` -/
def tf (p : P) : U64 := L.stack p + pageSize - trapFrameSize

/-- The context that `alloc_new_process` sets up is below the trap frame. -/
def newContext (p : P) : U64 := L.stack p + pageSize - trapFrameSize - 12 * 8

/-- A byte of the kernel stack of `p`, or of its field `context`. -/
def Owns (p : P) (x : U64) : Prop :=
  Range (L.stack p) (L.stackSize p) x ∨ Range (L.contextField p) 8 x

theorem Owns.apart {L : Layout P} {p q : P} {x : U64} (hne : p ≠ q) (h : L.Owns p x) :
    ¬L.Owns q x := by
  rintro (hq | hq)
  · rcases h with hp | hp
    · exact L.stacks_apart hne hp hq
    · exact L.field_off_stack hp hq
  · rcases h with hp | hp
    · exact L.field_off_stack hq hp
    · exact L.fields_apart hne hp hq

/-- The stores of `alloc_new_process` to the new stack and to `process->context`. -/
def allocMem (m : Memory) (p : P) : Memory :=
  let m := zeroPage m (L.stack p)
  let m := write64 m (L.contextField p) (L.newContext p)
  let m := write64 m (L.newContext p + 11 * 8) L.pstart
  enterAtBase m (L.tf p)

/-- The context of a new process: `swap` returns to `pstart`, with the trap frame at the
stack pointer. -/
def initialContext (p : P) : Context where
  callee i := if i = 11 then L.pstart else 0
  sp := L.tf p

/-- The stores of `fork` to the trap frame of the new process. -/
def forkMem (m : Memory) (p parent : P) : Memory :=
  let m := memcpy m (L.tf p) m (L.tf parent) (trapFrameSize.setWidth 32)
  write64 m (L.tf p) 0

end Layout

-- ---------------------------------------------------------------------------
-- One core
-- ---------------------------------------------------------------------------

inductive Stage where
  | unused
  /-- Built, and not switched in yet. -/
  | built
  | started
  deriving DecidableEq

/-- A core in the kernel context of one of its processes. The memory is one for all of them, so that
a context which is switched out stays as it is has to follow from where the others write. -/
structure OneCore (P : Type) where
  cpu : Cpu
  current : P
  stage : P → Stage
  current_started : stage current = .started

inductive CoreEvent (P : Type) where
  | compute
  | alloc (p : P)
  | fork (p parent : P)
  | swap (p : P)

variable {P : Type}

namespace OneCore

/-- Something is stored while the process that is running goes on. -/
def withMem (s : OneCore P) (m : Memory) : OneCore P := { s with cpu := { s.cpu with mem := m } }

@[simp] theorem withMem_current (s : OneCore P) (m : Memory) : (s.withMem m).current = s.current := rfl
@[simp] theorem withMem_stage (s : OneCore P) (m : Memory) : (s.withMem m).stage = s.stage := rfl
@[simp] theorem withMem_mem (s : OneCore P) (m : Memory) : (s.withMem m).cpu.mem = m := rfl

variable [DecidableEq P]

/-- The process `p` has been built. -/
def built (s : OneCore P) (m : Memory) (p : P) (h : s.stage p = .unused) : OneCore P where
  cpu := { s.cpu with mem := m }
  current := s.current
  stage := Function.update s.stage p .built
  current_started := by
    rw [Function.update_of_ne]
    · exact s.current_started
    · rintro rfl
      rw [s.current_started] at h
      cases h

/-- `swap` to the process `p` has returned. -/
def swapped (s : OneCore P) (p : P) : OneCore P where
  cpu := run swapCode s.cpu
  current := p
  stage := Function.update s.stage p .started
  current_started := Function.update_self ..

variable (s : OneCore P) (m : Memory) {p q : P}

@[simp] theorem built_current (h : s.stage p = .unused) : (s.built m p h).current = s.current := rfl
@[simp] theorem built_mem (h : s.stage p = .unused) : (s.built m p h).cpu.mem = m := rfl

theorem built_stage_self (h : s.stage p = .unused) : (s.built m p h).stage p = .built :=
  Function.update_self ..

theorem built_stage_of_ne (h : s.stage p = .unused) (hne : q ≠ p) :
    (s.built m p h).stage q = s.stage q := Function.update_of_ne hne _ _

@[simp] theorem swapped_current (p : P) : (s.swapped p).current = p := rfl
@[simp] theorem swapped_cpu (p : P) : (s.swapped p).cpu = run swapCode s.cpu := rfl

theorem swapped_stage_of_ne (hne : q ≠ p) : (s.swapped p).stage q = s.stage q :=
  Function.update_of_ne hne _ _

end OneCore

/-- What happens on a core. `swap` is called on the stack of the process that is running,
with room for the row of registers. -/
inductive OneCore.Step [DecidableEq P] (L : Layout P) (s : OneCore P) : CoreEvent P → OneCore P → Prop
  | compute (cpu : Cpu) (hothers : ∀ p x, p ≠ s.current → L.Owns p x → cpu.mem x = s.cpu.mem x) :
      Step L s .compute { s with cpu }
  | alloc (p : P) (hunused : s.stage p = .unused) (hsize : L.stackSize p = pageSize.toNat) :
      Step L s (.alloc p) (s.built (L.allocMem s.cpu.mem p) p hunused)
  | fork (p parent : P) (hbuilt : s.stage p = .built) (hsize : L.stackSize p = pageSize.toNat) :
      Step L s (.fork p parent) (s.withMem (L.forkMem s.cpu.mem p parent))
  | swap (p : P) (hne : p ≠ s.current) (hlive : s.stage p ≠ .unused)
      (hprev : s.cpu.x 0 = L.contextField s.current)
      (hnext : s.cpu.x 1 = read64 s.cpu.mem (L.contextField p))
      (hroom : (s.cpu.sp - 96 - L.stack s.current).toNat + 96 ≤ L.stackSize s.current) :
      Step L s (.swap p) (s.swapped p)

-- ---------------------------------------------------------------------------
-- What the stores leave alone
-- ---------------------------------------------------------------------------

variable {L : Layout P} {s : OneCore P} {p q parent : P} {m : Memory} {x : U64}

theorem tf_eq (p : P) : L.tf p = L.stack p + 0x1ffee0 := by
  have h : pageSize - trapFrameSize = 0x1ffee0 := by decide
  rw [← h, Layout.tf]
  grind

theorem newContext_eq (p : P) : L.newContext p = L.stack p + 0x1ffe80 := by
  have h : pageSize - trapFrameSize - 12 * 8 = 0x1ffe80 := by decide
  rw [← h, Layout.newContext]
  grind

/-- The bytes from the row of a new context to the end of its trap frame are on the stack. -/
theorem range_top (hsize : L.stackSize p = pageSize.toNat) {a : U64} {o n : Nat}
    (ha : a = L.stack p + BitVec.ofNat 64 o) (hn : o + n ≤ 2 ^ 21) (hx : Range a n x) :
    Range (L.stack p) (L.stackSize p) x := by
  have hsub : (a - L.stack p).toNat = o := by
    rw [ha, BitVec.add_comm, BitVec.add_sub_cancel, BitVec.toNat_ofNat, Nat.mod_eq_of_lt (by omega)]
  refine hx.widen ?_ (L.size_le p)
  rw [hsub, hsize, pageSize_toNat]
  exact hn

/-- The trap frame of a new process is on its stack. -/
theorem tf_on_stack (hsize : L.stackSize p = pageSize.toNat) (hx : Range (L.tf p) 288 x) :
    Range (L.stack p) (L.stackSize p) x :=
  range_top (o := 0x1ffee0) hsize (tf_eq p) (by decide) hx

theorem allocMem_outside (hsize : L.stackSize p = pageSize.toNat) (hx : ¬L.Owns p x) :
    L.allocMem m p x = m x := by
  obtain ⟨hstack, hfield⟩ := not_or.mp hx
  have htf : ¬Range (L.tf p) 288 x := fun h => hstack (tf_on_stack hsize h)
  have haddr : L.newContext p + 11 * 8 = L.stack p + 0x1ffed8 := by
    rw [newContext_eq, BitVec.add_assoc]
    rfl
  have hslot : ¬Range (L.newContext p + 11 * 8) 8 x := fun h =>
    hstack (range_top (o := 0x1ffed8) hsize haddr (by decide) h)
  have hpage : ¬Range (L.stack p) (2 ^ 21) x := by
    rw [hsize, show pageSize.toNat = 2 ^ 21 by decide] at hstack
    exact hstack
  rw [Layout.allocMem, enterAtBase_outside (not_lt.mp htf), write64_outside (not_lt.mp hslot),
    write64_outside (not_lt.mp hfield)]
  exact if_neg hpage

/-- The row of a new context is below its trap frame. -/
theorem row_below_tf (hx : Range (L.tf p - 96) 96 x) : ¬Range (L.tf p) 288 x := by
  unfold Range at hx ⊢
  bv_omega

theorem forkMem_outside (hx : ¬Range (L.tf p) 288 x) : L.forkMem m p parent x = m x := by
  have hword : ¬Range (L.tf p) 8 x := fun h => hx (lt_of_lt_of_le h (by decide))
  rw [Layout.forkMem, write64_outside (not_lt.mp hword)]
  exact if_neg hx

-- ---------------------------------------------------------------------------
-- A new process
-- ---------------------------------------------------------------------------

/-- A new stack is zero but for the return address and the trap frame. -/
theorem allocMem_zero (hsize : L.stackSize p = pageSize.toNat)
    (hx : Range (L.stack p) (L.stackSize p) x) (hslot : ¬Range (L.newContext p + 11 * 8) 8 x)
    (htf : ¬Range (L.tf p) 288 x) : L.allocMem m p x = 0 := by
  have hfield : ¬Range (L.contextField p) 8 x := fun h => L.field_off_stack h hx
  rw [hsize, show pageSize.toNat = 2 ^ 21 by decide] at hx
  rw [Layout.allocMem, enterAtBase_outside (not_lt.mp htf), write64_outside (not_lt.mp hslot),
    write64_outside (not_lt.mp hfield)]
  exact if_pos hx

/-- What `alloc_new_process` leaves on the stack is a context kept there. -/
theorem keptAt_allocMem (hsize : L.stackSize p = pageSize.toNat) :
    KeptAt (L.allocMem m p) (L.newContext p) (L.initialContext p) := by
  have htf : L.tf p = L.newContext p + 96 := by
    rw [tf_eq, newContext_eq, BitVec.add_assoc]
    rfl
  -- the row is below the trap frame
  have hrow : ∀ x, Range (L.newContext p) 96 x → ¬Range (L.tf p) 288 x := by
    intro x hx
    refine row_below_tf ?_
    rw [htf, BitVec.add_sub_cancel]
    exact hx
  refine ⟨htf, fun i => ?_⟩
  have hslot : ∀ x, Range (L.newContext p + BitVec.ofNat 64 (8 * i)) 8 x →
      Range (L.newContext p) 96 x := fun x hx => slot_range (by omega) (by decide) hx
  by_cases hi : i = 11
  · -- the return address is `pstart`
    subst hi
    rw [show (L.initialContext p).callee 11 = L.pstart from rfl,
      ← read64_write64 (m := write64 (zeroPage m (L.stack p)) (L.contextField p) (L.newContext p))
        (p := L.newContext p + 11 * 8) L.pstart]
    exact read64_of_agree fun x hx => enterAtBase_outside (not_lt.mp (hrow x (hslot x hx)))
  · rw [show (L.initialContext p).callee i = 0 from if_neg hi]
    refine read64_zeros fun x hx => allocMem_zero hsize ?_ ?_ (hrow x (hslot x hx))
    · exact range_top (o := 0x1ffe80) hsize (newContext_eq p) (by decide) (hslot x hx)
    · have hne : (i : Nat) ≠ 11 := fun he => hi (Fin.ext he)
      exact slots_apart (k := 11) hne (by omega) (by decide) hx

theorem allocMem_field (hsize : L.stackSize p = pageSize.toNat) :
    read64 (L.allocMem m p) (L.contextField p) = L.newContext p := by
  rw [← read64_write64 (m := zeroPage m (L.stack p)) (p := L.contextField p) (L.newContext p)]
  refine read64_of_agree fun x hx => ?_
  have hoff : ∀ {a : U64} {n : Nat}, (∀ x, Range a n x → Range (L.stack p) (L.stackSize p) x) →
      ¬Range a n x := fun hin h => L.field_off_stack hx (hin x h)
  have hslot : ¬Range (L.newContext p + 11 * 8) 8 x := hoff fun x h =>
    range_top (o := 0x1ffed8) hsize (by rw [newContext_eq, BitVec.add_assoc]; rfl) (by decide) h
  rw [Layout.allocMem, enterAtBase_outside (not_lt.mp (hoff fun x h => tf_on_stack hsize h)),
    write64_outside (not_lt.mp hslot)]

theorem allocMem_frame (hsize : L.stackSize p = pageSize.toNat) :
    readTrapFrame (L.allocMem m p) (L.tf p) = .base := by
  refine readTrapFrame_enterAtBase fun x hx => ?_
  have hstack := tf_on_stack hsize hx
  have hfield : ¬Range (L.contextField p) 8 x := fun h => L.field_off_stack h hstack
  have hslot : ¬Range (L.newContext p + 11 * 8) 8 x := by
    intro h
    have hrow : Range (L.newContext p) 96 x := slot_range (i := 11) (by decide) (by decide) h
    refine row_below_tf ?_ hx
    rw [tf_eq]
    rw [newContext_eq] at hrow
    rw [show L.stack p + 0x1ffee0 - 96 = L.stack p + 0x1ffe80 by grind]
    exact hrow
  rw [hsize, show pageSize.toNat = 2 ^ 21 by decide] at hstack
  rw [write64_outside (not_lt.mp hslot), write64_outside (not_lt.mp hfield)]
  exact if_pos hstack

end TinyMultiCore
