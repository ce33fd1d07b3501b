import TinyMultiCore.Lib.SpinLock
import TinyMultiCore.Process.Transitions

/-!
# Points around `process_lock`

What is known at each point of a core between a `spin_lock(&process_lock)` and the
`spin_unlock` behind it, and of a process that is switched out there. `LockInv` puts it
together: who is inside a section holds the lock, and every process that `schedule` can
choose goes on in front of a `spin_unlock`; a process that has called `exit`, which does
not, is never chosen again.

* `Section.body_step` — the work of a section is a step of the system, or nothing, apart
  from what is in the memory;
* `Section.body_ok` — it leads to a point that is in order, and where the core has
  switched, the process that it has left is in order at its own.
-/

namespace TinyMultiCore

open SpinLock TransitionSystem

variable {K : KernelImage} {src : FrameSource K} {image : Memory} {c : Core} {r prev : ProcRef}
  {v v' : ListId → List ProcRef} {s s' : Locked} {f : Section} {p : LockPoint}

-- ---------------------------------------------------------------------------
-- Points
-- ---------------------------------------------------------------------------

/-- Between `spin_lock` and `spin_unlock`. -/
def LockPoint.Inside : LockPoint → Prop
  | .out | .enter _ | .result _ => False
  | _ => True

/-- In front of the `spin_unlock` where the process `r` may go on. -/
def LockPoint.Resumes (r : ProcRef) : LockPoint → Prop
  | .pstart | .leave .back => True
  | .leave (.call (.wait _)) => r.2 ≠ 0
  | _ => False

/-- What the code in front of a point has left. -/
def PointOk (s : System) (c : Core) : LockPoint → Prop
  | .enter f | .held f | .leave (.call f) => f.Allowed s c
  | .result _ | .leave (.result _) => ∃ r, s.RunsUser c r
  | .returned | .lost => False
  | _ => True

/-- A state in which a process waits to be switched in. -/
def ProcState.Parked (state : ProcState) : Prop :=
  state ≠ .unused ∧ state ≠ .running ∧ state ≠ .killed

/-- The invariant of the cores around `process_lock`. Only the core that holds it is inside; each
core is at a point that goes with the state of the system; and a process that waits to be switched
in goes on in front of a `spin_unlock`, since it is the lock of the core that switches to it that it
releases. -/
structure LockInv (s : Locked) : Prop where
  guards : Guards s.lock fun c => (s.point c).Inside
  system : ∃ v, SystemInv s.system v
  points : ∀ c, PointOk s.system c (s.point c)
  user : ∀ r, r.2 ≠ 0 → (s.system.kernel.table r).state.Parked → (s.saved r).Resumes r
  idle : ∀ c r, s.system.kernel.current c = some r → r.2 ≠ 0 → s.saved (c, 0) = .leave .back

theorem LockPoint.Resumes.inside (h : p.Resumes r) : p.Inside := by
  cases p <;> trivial

/-- Where a process goes on, it is one of a core that runs. -/
theorem LockPoint.Resumes.ok {s : System} (h : p.Resumes r) (hphase : s.phase c = .running)
    (hcur : s.kernel.current c = some r) : PointOk s c p := by
  cases p with
  | leave n =>
    cases n with
    | back => trivial
    | call f =>
      cases f <;> first | exact ⟨r, hphase, hcur, h⟩ | cases h
    | result res => cases h
  | pstart => trivial
  | _ => cases h

/-- What a section needs is a matter of its core. -/
theorem Section.Allowed.congr {s s' : System} (h : f.Allowed s c) (hphase : s'.phase c = s.phase c)
    (hcur : s'.kernel.current c = s.kernel.current c) : f.Allowed s' c := by
  have huser : (∃ r, s.RunsUser c r) → ∃ r, s'.RunsUser c r := by
    rintro ⟨r, hr⟩
    exact ⟨r, hphase.trans hr.1, hcur.trans hr.2.1, hr.2.2⟩
  cases f <;> first | exact hphase.trans h | exact huser h

/-- And so is what a point needs. -/
theorem PointOk.congr {s s' : System} (h : PointOk s c p) (hphase : s'.phase c = s.phase c)
    (hcur : s'.kernel.current c = s.kernel.current c) : PointOk s' c p := by
  have huser : (∃ r, s.RunsUser c r) → ∃ r, s'.RunsUser c r := by
    rintro ⟨r, hr⟩
    exact ⟨r, hphase.trans hr.1, hcur.trans hr.2.1, hr.2.2⟩
  cases p with
  | enter f => exact Section.Allowed.congr h hphase hcur
  | held f => exact Section.Allowed.congr h hphase hcur
  | leave n =>
    cases n with
    | back => trivial
    | call f => exact Section.Allowed.congr h hphase hcur
    | result res => exact huser h
  | result res => exact huser h
  | out => trivial
  | pstart => trivial
  | returned => exact h
  | lost => exact h

theorem Section.Allowed.ne_booting {s : System} (h : f.Allowed s c) : s.phase c ≠ .booting := by
  intro hboot
  cases f <;> first
    | exact absurd (hboot.symm.trans h) (by decide)
    | exact h.elim fun r hr => absurd (hboot.symm.trans hr.1) (by decide)

-- ---------------------------------------------------------------------------
-- The work of a section
-- ---------------------------------------------------------------------------

section

variable {s s' : System}

/-- The step of the system that a section is. -/
def Section.op (c : Core) : Section → Option Op
  | .yield => some (.yield c)
  | .sleep w _ => some (.sleep c w)
  | .wakeUp w => some (.wakeUp c w)
  | .exit => some (.exit c)
  | .exitWake => some (.exitWake c)
  | .exitSchedule => some (.exitSchedule c)
  | .wait pid => some (.wait c pid)
  | .fork => some (.fork c)
  | .getProcessState _ _ => none

/-- `fork` under the lock is the step of the system without its store to `x0`. -/
theorem fork_step {k : Kernel} {process : Option ProcRef} (hr : s.RunsUser c r)
    (hfork : fork src s.kernel = .ok (process, k)) : s.Step src image (.fork c)
      ((s.withKernel k).withMem
        (write64 k.heap.mem (k.table r).tf ((forkResult k process).signExtend 64))) := by
  refine ⟨⟨r, hr⟩, bind_eq_ok.mpr ⟨(process, _), ?_, rfl⟩⟩
  unfold sysFork
  rw [show s.kernel.currentProcess c = .ok r from deref_eq_ok.mpr hr.2.1, ok_bind, hfork]
  rfl

/-- **The work of a section** is a step of the system, or nothing, apart from what is in the memory. -/
theorem Section.body_step (h : f.Allowed s c) (hbody : f.body src image s c = .ok (s', p)) :
    ∃ s₁ mem, s' = s₁.withMem mem ∧
      (s₁ = s ∨ ∃ op, f.op c = some op ∧ op.core = c ∧ s.Step src image op s₁) := by
  have hnext : ∀ {op : Op} {q : LockPoint}, f.op c = some op → op.core = c → s.Enabled op →
      (do return (← s.next src image op, q)) = .ok (s', p) → ∃ s₁ mem, s' = s₁.withMem mem ∧
        (s₁ = s ∨ ∃ op, f.op c = some op ∧ op.core = c ∧ s.Step src image op s₁) := by
    intro op q hop hcore hen hok
    obtain ⟨s₁, hs₁, hok⟩ := bind_eq_ok.mp hok
    cases hok
    exact ⟨s', s'.kernel.heap.mem, rfl, Or.inr ⟨op, hop, hcore, hen, hs₁⟩⟩
  cases f with
  | yield => exact hnext rfl rfl h hbody
  | sleep w caller => exact hnext rfl rfl h hbody
  | wakeUp w => exact hnext rfl rfl h hbody
  | exit => exact hnext rfl rfl h hbody
  | exitWake => exact hnext rfl rfl h hbody
  | exitSchedule => exact hnext rfl rfl h hbody
  | wait pid =>
    obtain ⟨⟨reaped, k⟩, hturn, hok⟩ := bind_eq_ok.mp hbody
    cases hok
    exact ⟨_, k.heap.mem, rfl,
      Or.inr ⟨.wait c pid, rfl, rfl, h, bind_eq_ok.mpr ⟨(reaped, k), hturn, rfl⟩⟩⟩
  | fork =>
    obtain ⟨⟨process, k⟩, hfork, hok⟩ := bind_eq_ok.mp hbody
    cases hok
    obtain ⟨r, hr⟩ := h
    exact ⟨_, k.heap.mem, rfl, Or.inr ⟨.fork c, rfl, rfl, fork_step hr hfork⟩⟩
  | getProcessState ps names =>
    obtain ⟨⟨cnt, mem⟩, -, hok⟩ := bind_eq_ok.mp hbody
    cases hok
    exact ⟨s, mem, rfl, Or.inl rfl⟩

/-- What is in the memory is no matter of the scheduler. -/
theorem SystemInv.withMem (h : SystemInv s v) (mem : Memory) : SystemInv (s.withMem mem) v :=
  ⟨h.sched.congr (fun _ => rfl) (fun _ => rfl) rfl rfl,
    fun c => (h.phases c).congr rfl fun _ _ _ => rfl, h.booting, h.started⟩

/-- The work ends inside the section. -/
theorem Section.body_inside (hbody : f.body src image s c = .ok (s', p)) : p.Inside := by
  cases f with
  | _ =>
    obtain ⟨x, -, hok⟩ := bind_eq_ok.mp hbody
    cases hok
    trivial

/-- The end of `exit` does not come back. -/
theorem SystemInv.exit_switches (h : SystemInv s v) (hcur : s.kernel.current c = some prev)
    (hstep : s.Step src image (.exitSchedule c) s') : s'.kernel.current c ≠ some prev ∧
      prev.2 ≠ 0 ∧ ¬(s'.kernel.table prev).state.Parked := by
  have hphase : s.phase c = .switching := hstep.1
  obtain ⟨hslot, hkilled⟩ := h.killed hcur (Or.inr hphase)
  -- the process stays dead
  have hdead : (s'.kernel.table prev).state = .killed := by
    cases h.transition hstep hslot with
    | same hstate hwait => rw [hstate, hkilled]
    | created hbefore => rw [hkilled] at hbefore; cases hbefore
    | scheduled hbefore => rw [hkilled] at hbefore; cases hbefore
    | yielded hop => cases hop
    | slept w hop => cases hop
    | woken hbefore => rw [hkilled] at hbefore; cases hbefore
    | exited hcore hcur' hrun =>
      obtain rfl : c = prev.1 := hcore
      rw [hphase] at hrun
      cases hrun
    | reaped pid hop => cases hop
  obtain ⟨v', h', -⟩ := h.step hstep
  refine ⟨fun hcur' => ?_, hslot, fun hparked => hparked.2.2 hdead⟩
  have hrunning : s'.phase c = .running := by
    obtain ⟨-, hok⟩ := hstep
    obtain ⟨k', -, hs'⟩ := bind_eq_ok.mp hok
    cases hs'
    exact Function.update_self ..
  have hstate := h'.state_of_runsUser ⟨hrunning, hcur', hslot⟩
  rw [hdead] at hstate
  cases hstate

/-- A core that has not switched is in order at the point behind the work. -/
theorem Section.body_stay (h : SystemInv s v) (ha : f.Allowed s c)
    (hbody : f.body src image s c = .ok (s', p))
    (hsame : s'.kernel.current c = s.kernel.current c) : PointOk s' c p := by
  cases f with
  | yield | wakeUp =>
    obtain ⟨x, -, hok⟩ := bind_eq_ok.mp hbody
    cases hok
    trivial
  | fork =>
    obtain ⟨⟨process, k⟩, -, hok⟩ := bind_eq_ok.mp hbody
    cases hok
    obtain ⟨r, hphase, hcur, hslot⟩ := ha
    exact ⟨r, hphase, hsame.trans hcur, hslot⟩
  | getProcessState ps names =>
    obtain ⟨⟨cnt, mem⟩, -, hok⟩ := bind_eq_ok.mp hbody
    cases hok
    exact ha
  | sleep w caller =>
    obtain ⟨x, hx, hok⟩ := bind_eq_ok.mp hbody
    cases hok
    obtain ⟨k', -, hx⟩ := bind_eq_ok.mp hx
    cases hx
    cases caller with
    | syscall => trivial
    | wait pid =>
      obtain ⟨r, hphase, hcur, hslot⟩ := ha
      exact ⟨r, hphase, hsame.trans hcur, hslot⟩
  | exit =>
    obtain ⟨x, hx, hok⟩ := bind_eq_ok.mp hbody
    cases hok
    obtain ⟨k', -, hx⟩ := bind_eq_ok.mp hx
    cases hx
    exact Function.update_self ..
  | exitWake =>
    obtain ⟨x, hx, hok⟩ := bind_eq_ok.mp hbody
    cases hok
    obtain ⟨k', -, hx⟩ := bind_eq_ok.mp hx
    cases hx
    exact Function.update_self ..
  | exitSchedule =>
    obtain ⟨x, hx, hok⟩ := bind_eq_ok.mp hbody
    cases hok
    have hphase : s.phase c = .switching := ha
    obtain ⟨prev, hcur⟩ := h.started (h.boot_ne (c := c) (by rw [hphase]; decide)) c
    exact absurd (hsame.trans hcur) (h.exit_switches hcur ⟨ha, hx⟩).1
  | wait pid =>
    obtain ⟨⟨reaped, k⟩, -, hok⟩ := bind_eq_ok.mp hbody
    cases hok
    obtain ⟨r, hphase, hcur, hslot⟩ := ha
    cases reaped with
    | true => trivial
    | false => exact ⟨r, hphase, hsame.trans hcur, hslot⟩

/-- A core that has switched runs, and the process before has left at a point where it may go
on, or is dead. -/
theorem Section.body_switch (h : SystemInv s v) (ha : f.Allowed s c)
    (hbody : f.body src image s c = .ok (s', p)) (hcur : s.kernel.current c = some prev)
    (hne : s'.kernel.current c ≠ some prev) : s'.phase c = .running ∧
      (prev.2 = 0 → p = .leave .back) ∧ ((s'.kernel.table prev).state.Parked → p.Resumes prev) := by
  rw [← hcur] at hne
  cases f with
  | yield =>
    obtain ⟨x, hx, hok⟩ := bind_eq_ok.mp hbody
    cases hok
    obtain ⟨k', -, hx⟩ := bind_eq_ok.mp hx
    cases hx
    exact ⟨ha, fun _ => rfl, fun _ => trivial⟩
  | sleep w caller =>
    obtain ⟨x, hx, hok⟩ := bind_eq_ok.mp hbody
    cases hok
    obtain ⟨k', -, hx⟩ := bind_eq_ok.mp hx
    cases hx
    obtain ⟨r, hphase, hr, hslot⟩ := ha
    obtain rfl := Option.some.inj (hr.symm.trans hcur)
    refine ⟨hphase, fun h0 => absurd h0 hslot, fun _ => ?_⟩
    cases caller with
    | syscall => trivial
    | wait pid => exact hslot
  | exitSchedule =>
    obtain ⟨x, hx, hok⟩ := bind_eq_ok.mp hbody
    cases hok
    obtain ⟨-, hslot, hdead⟩ := h.exit_switches hcur ⟨ha, hx⟩
    obtain ⟨k', -, hx⟩ := bind_eq_ok.mp hx
    cases hx
    exact ⟨Function.update_self .., fun h0 => absurd h0 hslot, fun hparked => absurd hparked hdead⟩
  -- the others keep their process
  | wakeUp w =>
    obtain ⟨x, hx, hok⟩ := bind_eq_ok.mp hbody
    obtain ⟨k', hk, hx⟩ := bind_eq_ok.mp hx
    cases hok
    cases hx
    obtain ⟨-, -, -, hwoken, -⟩ := wakeUp_spec h.sched hk
    exact absurd (congrFun hwoken.1 c) hne
  | exitWake =>
    obtain ⟨x, hx, hok⟩ := bind_eq_ok.mp hbody
    obtain ⟨k', hk, hx⟩ := bind_eq_ok.mp hx
    cases hok
    cases hx
    obtain ⟨-, -, -, hwoken, -⟩ := wakeUp_spec h.sched hk
    exact absurd (congrFun hwoken.1 c) hne
  | exit =>
    obtain ⟨x, hx, hok⟩ := bind_eq_ok.mp hbody
    obtain ⟨k', hk, hx⟩ := bind_eq_ok.mp hx
    cases hok
    cases hx
    exact absurd (congrFun (exitKill_table hcur hk).1 c) hne
  | wait pid =>
    obtain ⟨⟨reaped, k⟩, hturn, hok⟩ := bind_eq_ok.mp hbody
    cases hok
    obtain ⟨-, -, -, hcurrent, -⟩ := waitTurn_spec h.sched hturn
    exact absurd (congrFun hcurrent c) hne
  | fork =>
    obtain ⟨⟨process, k⟩, hfork, hok⟩ := bind_eq_ok.mp hbody
    cases hok
    obtain ⟨y, -, hcreate⟩ := fork_creates hfork
    exact absurd (congrFun (hcreate.table y).1 c) hne
  | getProcessState ps names =>
    obtain ⟨⟨cnt, mem⟩, -, hok⟩ := bind_eq_ok.mp hbody
    cases hok
    exact absurd rfl hne

/-- What the work of a section on core `c` has to leave at the point behind it. -/
structure WorkOk (s s' : System) (c : Core) (p : LockPoint) : Prop where
  inside : p.Inside
  stay : s'.kernel.current c = s.kernel.current c → PointOk s' c p
  switch : ∀ prev, s.kernel.current c = some prev → s'.kernel.current c ≠ some prev →
    s'.phase c = .running ∧ (prev.2 = 0 → p = .leave .back) ∧
      ((s'.kernel.table prev).state.Parked → p.Resumes prev)

theorem Section.body_ok (h : SystemInv s v) (ha : f.Allowed s c)
    (hbody : f.body src image s c = .ok (s', p)) : WorkOk s s' c p :=
  ⟨Section.body_inside hbody, Section.body_stay h ha hbody, fun _ => Section.body_switch h ha hbody⟩

theorem WorkOk.of_withMem {mem : Memory} (h : WorkOk s (s'.withMem mem) c p) : WorkOk s s' c p :=
  ⟨h.inside, fun hsame => (h.stay hsame).congr rfl rfl, h.switch⟩

end

end TinyMultiCore
