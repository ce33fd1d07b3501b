import TinyMultiCore.Process.SwitchedOut

/-!
# Context switches on one core

* `switches_keep_contexts` — a process that is switched in again has its context, and a
  new one comes into user mode with its trap frame;
* `kernelLayout` — the kernel stacks, the process table and the lock of this kernel are
  apart, as a `Layout` asks for.
-/

namespace TinyMultiCore

open ByteMemory TransitionSystem

-- ---------------------------------------------------------------------------
-- Main theorem
-- ---------------------------------------------------------------------------

variable {P : Type} [DecidableEq P]

/-- **Context switches keep every kernel context.** A process that is switched in again is
behind its own call of `swap`, with `x19` to `x30` and the stack pointer of the call. A
process that `alloc_new_process` has built starts at `pstart` and comes into user mode with
its trap frame: as `alloc_new_process` has set it up, or the parent's at the time of the
last `fork`, with `x0` zero. -/
theorem switches_keep_contexts (L : Layout P) :
    (∀ (s t t' u : OneCore P) (r : P) (as : List (CoreEvent P)),
      OneCore.Step L s (.swap r) t → Run (OneCore.Step L) t as t' →
      CoreEvent.swap s.current ∉ as → OneCore.Step L t' (.swap s.current) u →
      u.cpu.context = s.cpu.context ∧ u.cpu.pc = s.cpu.x 30) ∧
    (∀ (s t t' u : OneCore P) (p : P) (as : List (CoreEvent P)),
      OneCore.Step L s (.alloc p) t → Run (OneCore.Step L) t as t' →
      CoreEvent.swap p ∉ as → OneCore.Step L t' (.swap p) u →
      ∃ f, Starts L p u.cpu f ∧
        ((∀ q, CoreEvent.fork p q ∉ as) → f = .base) ∧
        ∀ (before after : List (CoreEvent P)) (q : P) (v w : OneCore P),
          as = before ++ .fork p q :: after → (∀ r, CoreEvent.fork p r ∉ after) →
          Run (OneCore.Step L) t before v → OneCore.Step L v (.fork p q) w →
          Run (OneCore.Step L) w after t' → f = (v.frame L q).forked) := by
  refine ⟨fun s t t' u r as hout hrun has hin => ?_, fun s t t' u p as halloc hrun has hin => ?_⟩
  · obtain ⟨hcontext, hpc⟩ := ((waits_of_swap hout).run hrun has).resume hin
    exact ⟨hcontext, hpc⟩
  · obtain ⟨hnew, hbase⟩ := isNew_of_alloc halloc
    obtain ⟨hnew', hframe⟩ := hnew.run hrun has
    refine ⟨t'.frame L p, hnew'.starts hin, fun hfork => (hframe hfork).trans hbase, ?_⟩
    rintro before after q v w rfl hafter hbefore hstep hrest
    simp only [List.mem_append, List.mem_cons, not_or] at has
    obtain ⟨hv, -⟩ := hnew.run hbefore has.1
    obtain ⟨-, hkeep⟩ := (hv.step hstep (Ne.symm has.2.1)).run hrest has.2.2
    rw [hkeep hafter]
    exact frame_of_fork hstep

-- ---------------------------------------------------------------------------
-- The kernel's layout
-- ---------------------------------------------------------------------------

/-- Where the linker has put the variables of `process.c` and the code of `handler.s`,
below the boot stacks at the end of the image. -/
structure KernelSymbols (K : KernelImage) where
  processTable : U64
  processLock : U64
  pstart : U64
  trapReturn : U64
  table_le : processTable.toNat + 864 * 120 + 0x4000 ≤ K.kernelEnd.toNat
  lock_le : processLock.toNat + 4 + 0x4000 ≤ K.kernelEnd.toNat

/-- `&process_table[core][slot].context` -/
def KernelSymbols.contextField {K : KernelImage} (S : KernelSymbols K) (r : ProcRef) : U64 :=
  S.processTable + BitVec.ofNat 64 (864 * (30 * r.1 + r.2) + 32)

/-- The kernel stack of a process: the boot stack of its core, or the frame in its field
`stack`. -/
def kernelStack (K : KernelImage) (stack : ProcRef → U64) (r : ProcRef) : U64 :=
  if r.2 = 0 then K.kernelEnd - BitVec.ofNat 64 (0x1000 * (r.1 + 1)) else stack r

def kernelStackSize (r : ProcRef) : Nat := if r.2 = 0 then 0x1000 else pageSize.toNat

theorem range_iff {a x : U64} {n : Nat} (h : a.toNat + n ≤ 2 ^ 64) :
    Range a n x ↔ a.toNat ≤ x.toNat ∧ x.toNat < a.toNat + n := by
  unfold Range
  rw [BitVec.toNat_sub]
  have := x.isLt
  omega

section

variable {K : KernelImage} {S : KernelSymbols K} {r : ProcRef} {x : U64}

theorem contextField_toNat (r : ProcRef) :
    (S.contextField r).toNat = S.processTable.toNat + (864 * (30 * r.1 + r.2) + 32) := by
  have := S.table_le
  have := K.kernelEnd.isLt
  have := r.1.isLt
  have := r.2.isLt
  rw [KernelSymbols.contextField, BitVec.toNat_add, BitVec.toNat_ofNat]
  omega

theorem range_contextField : Range (S.contextField r) 8 x ↔
    S.processTable.toNat + (864 * (30 * r.1 + r.2) + 32) ≤ x.toNat ∧
      x.toNat < S.processTable.toNat + (864 * (30 * r.1 + r.2) + 32) + 8 := by
  have := S.table_le
  have := K.kernelEnd.isLt
  have := r.1.isLt
  have := r.2.isLt
  rw [range_iff (by rw [contextField_toNat]; omega), contextField_toNat]

theorem KernelSymbols.boot_le (S : KernelSymbols K) : 0x4000 ≤ K.kernelEnd.toNat :=
  le_trans (Nat.le_add_left _ _) S.table_le

/-- The boot stacks are at the end of the image, the others behind it. -/
theorem range_kernelStack (hboot : 0x4000 ≤ K.kernelEnd.toNat) {stack : ProcRef → U64}
    (hframe : r.2 ≠ 0 → IsFrame K (stack r))
    (hx : Range (kernelStack K stack r) (kernelStackSize r) x) :
    (r.2 = 0 ∧ K.kernelEnd.toNat - 0x1000 * (r.1 + 1) ≤ x.toNat ∧
      x.toNat < K.kernelEnd.toNat - 0x1000 * r.1) ∨
    (r.2 ≠ 0 ∧ K.kernelEnd.toNat ≤ x.toNat ∧ (x - stack r).toNat < 2 ^ 21) := by
  have hend := K.kernelEnd.isLt
  have hcore := r.1.isLt
  unfold kernelStack kernelStackSize at hx
  by_cases hr : r.2 = 0
  · rw [if_pos hr, if_pos hr] at hx
    have hle : BitVec.ofNat 64 (0x1000 * (r.1 + 1)) ≤ K.kernelEnd := by
      rw [BitVec.le_def, BitVec.toNat_ofNat]
      omega
    have hstack : (K.kernelEnd - BitVec.ofNat 64 (0x1000 * (r.1 + 1))).toNat =
        K.kernelEnd.toNat - 0x1000 * (r.1 + 1) := by
      rw [BitVec.toNat_sub_of_le hle, BitVec.toNat_ofNat, Nat.mod_eq_of_lt (by omega)]
    rw [range_iff (by rw [hstack]; omega), hstack] at hx
    exact Or.inl ⟨hr, hx.1, by omega⟩
  · obtain ⟨-, hge, hle⟩ := hframe hr
    rw [if_neg hr, if_neg hr, show pageSize.toNat = 2 ^ 21 by decide] at hx
    rw [memoryEnd_toNat] at hle
    have hx' := (range_iff (by omega)).mp hx
    exact Or.inr ⟨hr, by omega, hx⟩

end

/-- The kernel stacks of the `live` processes, each with a frame of its own. -/
def kernelLayout {K : KernelImage} (S : KernelSymbols K) (live : ProcRef → Prop)
    (stack : ProcRef → U64) (hframe : ∀ r, live r → r.2 ≠ 0 → IsFrame K (stack r))
    (hinj : ∀ r q, live r → live q → r.2 ≠ 0 → q.2 ≠ 0 → stack r = stack q → r = q) :
    Layout {r // live r} where
  stack r := kernelStack K stack r
  stackSize r := kernelStackSize r
  contextField r := S.contextField r
  processLock := S.processLock
  pstart := S.pstart
  trapReturn := S.trapReturn
  size_le r := by
    unfold kernelStackSize
    split <;> decide
  stacks_apart := by
    rintro ⟨r, hr⟩ ⟨q, hq⟩ x hne hx hx'
    have hcore : ∀ {r : ProcRef}, r.2 = 0 → r = (r.1, 0) := fun h => Prod.ext rfl h
    rcases range_kernelStack S.boot_le (hframe r hr) hx with ⟨hr0, hx1, hx2⟩ | ⟨hr0, hx1, hx2⟩ <;>
      rcases range_kernelStack S.boot_le (hframe q hq) hx' with ⟨hq0, hy1, hy2⟩ | ⟨hq0, hy1, hy2⟩
    · -- two boot stacks
      have hval : (r.1 : Nat) = q.1 := by
        have := r.1.isLt
        have := q.1.isLt
        have := S.boot_le
        omega
      exact hne (Subtype.ext ((hcore hr0).trans ((congrArg (fun c => (c, (0 : Fin 30)))
        (Fin.ext hval)).trans (hcore hq0).symm)))
    · omega
    · omega
    · -- two frames
      have hstack : stack r ≠ stack q := fun h =>
        hne (Subtype.ext (hinj r q hr hq hr0 hq0 h))
      exact absurd hy2 (Nat.not_lt.mpr ((hframe r hr hr0).outside (hframe q hq hq0) hstack hx2))
  fields_apart := by
    rintro ⟨r, hr⟩ ⟨q, hq⟩ x hne hx hx'
    rw [range_contextField] at hx hx'
    dsimp only at hx hx'
    have := r.2.isLt
    have := q.2.isLt
    have hcore : (r.1 : Nat) = q.1 := by omega
    have hslot : (r.2 : Nat) = q.2 := by omega
    exact hne (Subtype.ext (Prod.ext (Fin.ext hcore) (Fin.ext hslot)))
  field_off_stack := by
    rintro ⟨r, hr⟩ ⟨q, hq⟩ x hx hx'
    rw [range_contextField] at hx
    dsimp only at hx
    have := S.table_le
    have := r.1.isLt
    have := r.2.isLt
    have := q.1.isLt
    rcases range_kernelStack S.boot_le (hframe q hq) hx' with ⟨-, hy1, -⟩ | ⟨-, hy1, -⟩ <;> omega
  lock_off_stack := by
    rintro ⟨q, hq⟩ x hx hx'
    have := S.lock_le
    have := K.kernelEnd.isLt
    rw [range_iff (by omega)] at hx
    have := q.1.isLt
    rcases range_kernelStack S.boot_le (hframe q hq) hx' with ⟨-, hy1, -⟩ | ⟨-, hy1, -⟩ <;> omega

-- ---------------------------------------------------------------------------
-- Two processes
-- ---------------------------------------------------------------------------

def smallSymbols : KernelSymbols smallImage where
  processTable := 0xffff000000100000
  processLock := 0xffff0000000f0000
  pstart := 0xffff000000081000
  trapReturn := 0xffff000000081008
  table_le := by decide
  lock_le := by decide

/-- Two processes of core 0. -/
abbrev TwoProcs := {r : ProcRef // r = (0, 1) ∨ r = (0, 2)}

def twoStacks : Layout TwoProcs :=
  kernelLayout smallSymbols (fun r => r = (0, 1) ∨ r = (0, 2))
    (fun r => if r = (0, 1) then 0xffff000000200000 else 0xffff000000400000)
    (by rintro r (rfl | rfl) - <;> decide)
    (by rintro r q (rfl | rfl) (rfl | rfl) - - h <;> first | rfl | exact absurd h (by decide))

def firstProc : TwoProcs := ⟨(0, 1), Or.inl rfl⟩

def secondProc : TwoProcs := ⟨(0, 2), Or.inr rfl⟩

/-- The process that is running gets ready to call `swap`. -/
def readyToSwap (s : OneCore TwoProcs) (p : TwoProcs) : OneCore TwoProcs :=
  let x0 := twoStacks.contextField s.current
  let x1 := read64 s.cpu.mem (twoStacks.contextField p)
  let x := fun i => if i = 0 then x0 else if i = 1 then x1 else 7
  { s with cpu := { s.cpu with x, sp := twoStacks.tf s.current } }

theorem step_readyToSwap (s : OneCore TwoProcs) (p : TwoProcs) :
    OneCore.Step twoStacks s .compute (readyToSwap s p) :=
  .compute _ fun _ _ _ _ => rfl

theorem step_swap {s : OneCore TwoProcs} {p : TwoProcs} (hne : p ≠ s.current)
    (hlive : s.stage p ≠ .unused) :
    OneCore.Step twoStacks (readyToSwap s p) (.swap p) ((readyToSwap s p).swapped p) := by
  have hroom : ∀ q : TwoProcs, (twoStacks.tf q - 96 - twoStacks.stack q).toNat + 96 ≤
      twoStacks.stackSize q := by
    rintro ⟨r, rfl | rfl⟩ <;> decide +kernel
  exact .swap p hne hlive rfl rfl (hroom s.current)

/-- The first process builds the second one and switches to it and back. -/
theorem two_processes_switch : ∃ (s t t' u u' w : OneCore TwoProcs) (f : TrapFrame),
    OneCore.Step twoStacks s (.alloc secondProc) t ∧
    Run (OneCore.Step twoStacks) t [.fork secondProc firstProc, .compute] t' ∧
    OneCore.Step twoStacks t' (.swap secondProc) u ∧
    Starts twoStacks secondProc u.cpu f ∧
    Run (OneCore.Step twoStacks) u [.compute] u' ∧
    OneCore.Step twoStacks u' (.swap firstProc) w ∧ w.cpu.context = t'.cpu.context := by
  have hne : secondProc ≠ firstProc := by decide
  obtain ⟨s, hcurrent, hunused⟩ : ∃ s : OneCore TwoProcs, s.current = firstProc ∧
      s.stage secondProc = .unused :=
    ⟨⟨⟨fun _ => 0, 0, fun _ => 0, 0, 0, fun _ => 0⟩, firstProc,
      fun p => if p = firstProc then .started else .unused, if_pos rfl⟩, rfl, rfl⟩
  obtain ⟨t, halloc, ht, hbuilt⟩ : ∃ t, OneCore.Step twoStacks s (.alloc secondProc) t ∧
      t.current = firstProc ∧ t.stage secondProc = .built :=
    ⟨_, .alloc _ hunused rfl, hcurrent, OneCore.built_stage_self ..⟩
  obtain ⟨v, hfork, hv, hstage⟩ : ∃ v, OneCore.Step twoStacks t (.fork secondProc firstProc) v ∧
      v.current = firstProc ∧ v.stage = t.stage := ⟨_, .fork _ _ hbuilt rfl, ht, rfl⟩
  have hswap := step_swap (s := v) (hv ▸ hne) (by rw [hstage, hbuilt]; decide)
  obtain ⟨t', ht', hcall⟩ : ∃ t', t' = readyToSwap v secondProc ∧
      OneCore.Step twoStacks v .compute t' := ⟨_, rfl, step_readyToSwap v secondProc⟩
  rw [← ht'] at hswap
  obtain ⟨u, hu⟩ : ∃ u, u = t'.swapped secondProc := ⟨_, rfl⟩
  have hlive : u.stage firstProc ≠ .unused := by
    rw [hu, OneCore.swapped_stage_of_ne _ hne.symm, ht', show (readyToSwap v secondProc).stage =
      v.stage from rfl, ← hv, v.current_started]
    decide
  have hback := step_swap (s := u) (p := firstProc) (by rw [hu]; exact hne.symm) hlive
  have hrun : Run (OneCore.Step twoStacks) t [.fork secondProc firstProc, .compute] t' :=
    .cons hfork (.cons hcall .nil)
  have hrun' : Run (OneCore.Step twoStacks) u [.compute] (readyToSwap u firstProc) :=
    .cons (step_readyToSwap u firstProc) .nil
  have hcurrent' : t'.current = firstProc := by
    rw [ht']
    exact hv
  rw [← hu] at hswap
  rw [← hcurrent'] at hback hrun'
  obtain ⟨hresume, hstart⟩ := switches_keep_contexts twoStacks
  obtain ⟨f, hf, -⟩ := hstart s t t' u secondProc _ halloc hrun (by simp) hswap
  have hcontext := (hresume t' u _ _ secondProc _ hswap hrun' (by simp) hback).1
  rw [hcurrent'] at hback hrun' hcontext
  exact ⟨s, t, t', u, _, _, f, halloc, hrun, hswap, hf, hrun', hback, hcontext⟩

end TinyMultiCore
