import TinyMultiCore.Process.OneCore

/-!
# Processes that are switched out

What keeps a process that does not run: nobody else stores to its kernel stack, and only
`swap` to its field `context`.

* `Waits p v` — the invariant of a process that is switched out: its context `v` is
  kept on its stack, where its field `context` points;
* `Waits.step`, `Waits.run` — everything but its own switch-in keeps that;
* `IsNew.run`, `IsNew.starts` — a process that has been built keeps its trap frame as well,
  up to a `fork`, and comes into user mode with it.
-/

namespace TinyMultiCore

open ByteMemory TransitionSystem

variable {P : Type} {L : Layout P} {s s' : OneCore P} {p q parent : P} {x : U64}

-- ---------------------------------------------------------------------------
-- A process that is switched out
-- ---------------------------------------------------------------------------

/-- The process `p` is switched out in the context `v`: its `context` field leads to the row of
registers that `swap` has kept on its stack. A process that was never switched in has the row that
`alloc_new_process` has built, right below its trap frame. -/
structure Waits (L : Layout P) (p : P) (v : Context) (s : OneCore P) : Prop where
  current : s.current ≠ p
  live : s.stage p ≠ .unused
  field : read64 s.cpu.mem (L.contextField p) = v.sp - 96
  kept : KeptAt s.cpu.mem (v.sp - 96) v
  on_stack : (v.sp - 96 - L.stack p).toNat + 96 ≤ L.stackSize p
  built : s.stage p = .built → v.sp = L.tf p

variable {v : Context}

/-- The row of registers is on the stack. -/
theorem Waits.row (h : Waits L p v s) (hx : Range (v.sp - 96) 96 x) :
    Range (L.stack p) (L.stackSize p) x :=
  hx.widen h.on_stack (L.size_le p)

/-- What is stored elsewhere does not matter. -/
theorem Waits.of_agree (h : Waits L p v s) (hcurrent : s'.current ≠ p) (hstage : s'.stage p = s.stage p)
    (hfield : ∀ x, Range (L.contextField p) 8 x → s'.cpu.mem x = s.cpu.mem x)
    (hrow : ∀ x, Range (v.sp - 96) 96 x → s'.cpu.mem x = s.cpu.mem x) : Waits L p v s' where
  current := hcurrent
  live := by rw [hstage]; exact h.live
  field := by rw [read64_of_agree hfield]; exact h.field
  kept := h.kept.of_agree hrow
  on_stack := h.on_stack
  built hb := h.built (hstage.symm.trans hb)

theorem Waits.of_owns (h : Waits L p v s) (hcurrent : s'.current ≠ p) (hstage : s'.stage p = s.stage p)
    (howns : ∀ x, L.Owns p x → s'.cpu.mem x = s.cpu.mem x) : Waits L p v s' :=
  h.of_agree hcurrent hstage (fun x hx => howns x (Or.inr hx)) fun x hx => howns x (Or.inl (h.row hx))

/-- `swap` stores to the process it comes from. -/
theorem swapMem_owns (hprev : s.cpu.x 0 = L.contextField s.current)
    (hroom : (s.cpu.sp - 96 - L.stack s.current).toNat + 96 ≤ L.stackSize s.current)
    (hne : p ≠ s.current) (hx : L.Owns p x) : swapMem s.cpu x = s.cpu.mem x := by
  obtain ⟨hstack, hfield⟩ := not_or.mp (hx.apart hne)
  refine swapMem_outside (fun h => hstack (h.widen hroom (L.size_le _))) ?_
  rw [hprev]
  exact hfield

variable [DecidableEq P] {a : CoreEvent P}

/-- **A step** that does not switch the process in keeps its context. The context is on the stack of the
process, below its pointer, where neither the process that runs nor the creation of another one
writes. -/
theorem Waits.step (h : Waits L p v s) (hstep : OneCore.Step L s a s') (ha : a ≠ .swap p) :
    Waits L p v s' := by
  cases hstep with
  | compute cpu hothers =>
    exact h.of_owns h.current rfl fun x hx => hothers p x h.current.symm hx
  | alloc q hunused hsize =>
    have hne : p ≠ q := fun he => h.live (he ▸ hunused)
    refine h.of_owns ?_ (OneCore.built_stage_of_ne _ _ _ hne) fun x hx => ?_
    · rw [OneCore.built_current]
      exact h.current
    · rw [OneCore.built_mem]
      exact allocMem_outside hsize (hx.apart hne)
  | fork q parent hbuilt hsize =>
    refine h.of_agree ?_ (by rw [OneCore.withMem_stage]) (fun x hx => ?_) fun x hx => ?_
    · rw [OneCore.withMem_current]
      exact h.current
    · rw [OneCore.withMem_mem]
      exact forkMem_outside fun hq => L.field_off_stack hx (tf_on_stack hsize hq)
    · rw [OneCore.withMem_mem]
      refine forkMem_outside fun hq => ?_
      by_cases hpq : p = q
      · -- the frame of a new process is right above its context
        subst hpq
        rw [h.built hbuilt] at hx
        exact row_below_tf hx hq
      · exact L.stacks_apart hpq (h.row hx) (tf_on_stack hsize hq)
  | swap q hne hlive hprev hnext hroom =>
    have hpq : p ≠ q := fun he => ha (he ▸ rfl)
    refine h.of_owns ?_ (OneCore.swapped_stage_of_ne _ hpq) fun x hx => ?_
    · rw [OneCore.swapped_current]
      exact hpq.symm
    · rw [OneCore.swapped_cpu, run_swap_mem]
      exact swapMem_owns hprev hroom h.current.symm hx

variable {t u : OneCore P} {as : List (CoreEvent P)}

theorem Waits.run (h : Waits L p v s) (hrun : Run (OneCore.Step L) s as t)
    (has : CoreEvent.swap p ∉ as) : Waits L p v t := by
  induction hrun with
  | nil => exact h
  | snoc _ hstep ih =>
    rw [List.mem_append, List.mem_singleton] at has
    obtain ⟨has, ha⟩ := not_or.mp has
    exact (ih has).step hstep (Ne.symm ha)

/-- A process that calls `swap` is switched out in the context of the call. -/
theorem waits_of_swap {r : P} (hstep : OneCore.Step L s (.swap r) t) :
    Waits L s.current s.cpu.context t := by
  cases hstep with
  | swap r hne hlive hprev hnext hroom =>
    have hstage : (s.swapped r).stage s.current = .started := by
      rw [OneCore.swapped_stage_of_ne _ hne.symm]
      exact s.current_started
    obtain ⟨hkept, hfield⟩ := keptAt_swapMem (s := s.cpu) fun x hx hf => by
      rw [hprev] at hf
      exact L.field_off_stack hf (hx.widen hroom (L.size_le _))
    rw [← run_swap_mem] at hkept hfield
    rw [hprev] at hfield
    exact ⟨hne, by rw [hstage]; decide, hfield, hkept, hroom, fun hb => by
      rw [hstage] at hb
      cases hb⟩

/-- Switched in again, it has that context, behind its call. -/
theorem Waits.resume (h : Waits L p v s) (hstep : OneCore.Step L s (.swap p) u) :
    u.cpu.context = v ∧ u.cpu.pc = v.returnAddress := by
  cases hstep with
  | swap _ hne hlive hprev hnext hroom =>
    refine run_swap_context ?_
    rw [hnext, h.field]
    exact h.kept.of_agree fun x hx => swapMem_owns hprev hroom hne (Or.inl (h.row hx))

-- ---------------------------------------------------------------------------
-- Its first switch-in
-- ---------------------------------------------------------------------------

/-- The process `p` has been built and waits for its first switch-in. -/
structure IsNew (L : Layout P) (p : P) (s : OneCore P) : Prop where
  waits : Waits L p (L.initialContext p) s
  built : s.stage p = .built
  size : L.stackSize p = pageSize.toNat

/-- The trap frame of the process `p`. -/
def OneCore.frame (L : Layout P) (s : OneCore P) (p : P) : TrapFrame :=
  readTrapFrame s.cpu.mem (L.tf p)

theorem isNew_of_alloc (hstep : OneCore.Step L s (.alloc p) t) :
    IsNew L p t ∧ t.frame L p = .base := by
  cases hstep with
  | alloc _ hunused hsize =>
    have hcurrent : s.current ≠ p := fun he => by
      rw [← he, s.current_started] at hunused
      cases hunused
    have hcontext : (L.initialContext p).sp - 96 = L.newContext p := rfl
    have hstage := OneCore.built_stage_self s (L.allocMem s.cpu.mem p) hunused
    refine ⟨⟨⟨?_, by rw [hstage]; decide, ?_, ?_, ?_, fun _ => rfl⟩, hstage, hsize⟩, ?_⟩
    · rw [OneCore.built_current]
      exact hcurrent
    · rw [OneCore.built_mem, hcontext]
      exact allocMem_field hsize
    · rw [OneCore.built_mem, hcontext]
      exact keptAt_allocMem hsize
    · have hplace : (L.newContext p - L.stack p).toNat = 0x1ffe80 := by
        rw [newContext_eq, BitVec.add_comm, BitVec.add_sub_cancel]
        rfl
      rw [hcontext, hplace, hsize]
      decide
    · rw [OneCore.frame, OneCore.built_mem]
      exact allocMem_frame hsize

theorem IsNew.step (h : IsNew L p s) (hstep : OneCore.Step L s a t) (ha : a ≠ .swap p) :
    IsNew L p t where
  waits := h.waits.step hstep ha
  size := h.size
  built := by
    cases hstep with
    | compute => exact h.built
    | alloc q hunused hsize =>
      rw [OneCore.built_stage_of_ne]
      · exact h.built
      · rintro rfl
        rw [h.built] at hunused
        cases hunused
    | fork => exact h.built
    | swap q =>
      rw [OneCore.swapped_stage_of_ne]
      · exact h.built
      · exact fun he => ha (he ▸ rfl)

/-- Only `fork` stores to the trap frame of a new process. -/
theorem IsNew.frame_step (h : IsNew L p s) (hstep : OneCore.Step L s a t)
    (ha : ∀ q, a ≠ .fork p q) : t.frame L p = s.frame L p := by
  have hframe : ∀ {x}, Range (L.tf p) 288 x → L.Owns p x :=
    fun hx => Or.inl (tf_on_stack h.size hx)
  cases hstep with
  | compute cpu hothers =>
    exact readTrapFrame_of_agree fun x hx => hothers p x h.waits.current.symm (hframe hx)
  | alloc q hunused hsize =>
    have hne : p ≠ q := fun he => h.waits.live (he ▸ hunused)
    rw [OneCore.frame, OneCore.built_mem]
    exact readTrapFrame_of_agree fun x hx => allocMem_outside hsize ((hframe hx).apart hne)
  | fork q parent hbuilt hsize =>
    have hne : p ≠ q := fun he => ha parent (he ▸ rfl)
    rw [OneCore.frame, OneCore.withMem_mem]
    exact readTrapFrame_of_agree fun x hx => forkMem_outside fun hq =>
      L.stacks_apart hne (tf_on_stack h.size hx) (tf_on_stack hsize hq)
  | swap q hne hlive hprev hnext hroom =>
    rw [OneCore.frame, OneCore.swapped_cpu, run_swap_mem]
    exact readTrapFrame_of_agree fun x hx => swapMem_owns hprev hroom h.waits.current.symm (hframe hx)

theorem frame_of_fork (hstep : OneCore.Step L s (.fork p parent) t) :
    t.frame L p = (s.frame L parent).forked := by
  cases hstep with
  | fork _ _ hbuilt hsize => exact readTrapFrame_fork

theorem IsNew.run (h : IsNew L p s) (hrun : Run (OneCore.Step L) s as t)
    (has : CoreEvent.swap p ∉ as) : IsNew L p t ∧
      ((∀ q, CoreEvent.fork p q ∉ as) → t.frame L p = s.frame L p) := by
  induction hrun with
  | nil => exact ⟨h, fun _ => rfl⟩
  | snoc _ hstep ih =>
    simp only [List.mem_append, List.mem_singleton, not_or] at has ⊢
    obtain ⟨hnew, hframe⟩ := ih has.1
    refine ⟨hnew.step hstep (Ne.symm has.2), fun hfork => ?_⟩
    rw [hnew.frame_step hstep fun q => Ne.symm (hfork q).2]
    exact hframe fun q => (hfork q).1

/-- `pstart` and `trap_return` from the state `s`. -/
def Layout.enterUser (L : Layout P) (s : Cpu) : Cpu := run (pstartCode L.processLock L.trapReturn) s

/-- A core starts the process `p`, which has the trap frame `f`: at `pstart`, from where
it comes into user mode and leaves the whole kernel stack to the next trap. -/
structure Starts (L : Layout P) (p : P) (s : Cpu) (f : TrapFrame) : Prop where
  pc : s.pc = L.pstart
  sp : s.sp = L.tf p
  returned : (L.enterUser s).Returned f
  stack_top : (L.enterUser s).sp = L.stack p + pageSize
  next_frame : ∀ vector, (run irqEntryCode (takeIrq vector (L.enterUser s))).sp = L.tf p

theorem IsNew.starts (h : IsNew L p s) (hstep : OneCore.Step L s (.swap p) u) :
    Starts L p u.cpu (s.frame L p) := by
  obtain ⟨hcontext, hpc⟩ := h.waits.resume hstep
  have hsp : u.cpu.sp = L.tf p := congrArg Context.sp hcontext
  have hlock : ∀ x, Range u.cpu.sp 288 x → ¬Range L.processLock 4 x := fun x hx hl =>
    L.lock_off_stack hl (tf_on_stack h.size (hsp ▸ hx))
  obtain ⟨hreturned, htop, -⟩ := run_pstart L.trapReturn u.cpu hlock
  have hframe : readTrapFrame u.cpu.mem u.cpu.sp = s.frame L p := by
    rw [hsp]
    exact h.frame_step hstep nofun
  have hstack : L.tf p + 288 = L.stack p + pageSize := by
    rw [tf_eq, BitVec.add_assoc]
    rfl
  rw [hframe] at hreturned
  rw [hsp, hstack] at htop
  refine ⟨hpc, hsp, hreturned, htop, fun vector => ?_⟩
  rw [(run_irqEntry vector _).1, Layout.enterUser, htop]
  rfl

end TinyMultiCore
