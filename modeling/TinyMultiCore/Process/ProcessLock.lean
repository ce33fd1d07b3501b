import TinyMultiCore.Lib.SpinLock
import TinyMultiCore.Process.Steps

/-!
# The code between `spin_lock` and `spin_unlock`

The steps of `Process.Steps` are whole sections under `process_lock`. Here a core takes
the lock, does the work and releases the lock in separate steps, which the steps of the
other cores may come between: `LockPoint` is where the kernel code of a core stands. What
follows behind a `spin_unlock` is part of it, and so is what `swap` keeps: `saved` is the
point at which a process that is switched out goes on.

`spin_unlock` stores a zero, whoever holds the lock. The two stores of `exit` in front of
its first `spin_lock`, to the caller's own state and wait value, are made with the work of
that section. `fork` reads the number that it returns behind its `spin_unlock`, in a step
of its own. What the other calls return, always the same value, is among what a `run`
may store.
-/

namespace TinyMultiCore

open TransitionSystem

variable {K : KernelImage} (src : FrameSource K) (image : Memory)

/-- Who has called `sleep`. -/
inductive SleepCaller where
  | syscall
  /-- the loop of `wait(pid)` -/
  | wait (pid : U32)
  deriving DecidableEq

/-- The sections under `process_lock`. -/
inductive Section where
  | yield
  | sleep (wait : U32) (caller : SleepCaller)
  | wakeUp (wait : U32)
  /-- `exit`: the kill list -/
  | exit
  /-- `exit`: `wake_up(-3)` -/
  | exitWake
  /-- `exit`: `schedule` -/
  | exitSchedule
  /-- one turn of `wait` -/
  | wait (pid : U32)
  | fork
  /-- `getProcessState(ps)`, when the processes have these names -/
  | getProcessState (ps : U64) (names : List U64)
  deriving DecidableEq

/-- What a call returns that is not over with its `spin_unlock`. -/
inductive Returned where
  /-- of `fork`: `process->pid` -/
  | child (process : Option ProcRef)
  /-- of `getProcessState` -/
  | count (cnt : Nat)
  deriving DecidableEq

/-- What follows a `spin_unlock`. -/
inductive Next where
  /-- back to user mode or to the idle loop -/
  | back
  | call (f : Section)
  /-- a value goes to the frame of the caller -/
  | result (res : Returned)
  deriving DecidableEq

/-- Where a core is. -/
inductive LockPoint where
  /-- In user mode, in the idle loop, or in kernel code without the lock. -/
  | out
  /-- In front of the `spin_lock` of a section. -/
  | enter (f : Section)
  /-- Behind it. -/
  | held (f : Section)
  /-- In front of a `spin_unlock`. -/
  | leave (n : Next)
  /-- Behind it, in front of the store to `x0`. -/
  | result (res : Returned)
  /-- At `pstart`, in front of its `spin_unlock`. -/
  | pstart
  /-- Behind the `schedule` of `exit`, which has come back. -/
  | returned
  /-- In a context that was never set up. -/
  | lost
  deriving DecidableEq

def SleepCaller.next : SleepCaller → Next
  | .syscall => .back
  | .wait pid => .call (.wait pid)

def Next.point : Next → LockPoint
  | .back => .out
  | .call f => .enter f
  | .result res => .result res

def Returned.value (k : Kernel) : Returned → U32
  | .child process => forkResult k process
  | .count cnt => BitVec.ofNat 32 cnt

namespace Section

/-- What interrupts, exceptions and system calls lead to. -/
def fromOutside : Section → Bool
  | .sleep _ (.wait _) | .exitWake | .exitSchedule => false
  | _ => true

/-- The state that the code before the section has left. -/
def Allowed (f : Section) (s : System) (c : Core) : Prop :=
  match f with
  | .yield | .wakeUp _ => s.phase c = .running
  | .exitWake => s.phase c = .exiting
  | .exitSchedule => s.phase c = .switching
  | _ => ∃ r, s.RunsUser c r

/-- The work of a section on core `c`, with the point behind it. That is where a process
goes on, too, when the section has switched to another one. -/
def body (f : Section) (s : System) (c : Core) : Except Halt (System × LockPoint) :=
  match f with
  | .yield => do return (← s.next src image (.yield c), .leave .back)
  | .sleep w caller => do return (← s.next src image (.sleep c w), .leave caller.next)
  | .wakeUp w => do return (← s.next src image (.wakeUp c w), .leave .back)
  | .exit => do return (← s.next src image (.exit c), .leave (.call .exitWake))
  | .exitWake => do return (← s.next src image (.exitWake c), .leave (.call .exitSchedule))
  | .exitSchedule => do return (← s.next src image (.exitSchedule c), .returned)
  | .wait pid => do
    let (reaped, k) ← waitTurn src s.kernel c pid
    return (s.withKernel k, .leave (if reaped then .back else .call (.sleep (-3) (.wait pid))))
  | .fork => do
    let (process, k) ← TinyMultiCore.fork src s.kernel
    return (s.withKernel k, .leave (.result (.child process)))
  | .getProcessState ps names => do
    let (cnt, mem) ← TinyMultiCore.getProcessState s.kernel c ps names
    return (s.withMem mem, .leave (.result (.count cnt)))

end Section

/-- The system, the holder of `process_lock`, where the cores are, and where the processes
that are switched out go on. -/
structure Locked where
  system : System
  lock : Option Core
  point : Core → LockPoint
  saved : ProcRef → LockPoint

/-- The state behind `boot`. -/
def System.unlocked (s : System) : Locked := ⟨s, none, fun _ => .out, fun _ => .lost⟩

/-- `alloc_new_process` sets up the context of the slots it takes. -/
def savedNew (k k' : Kernel) (saved : ProcRef → LockPoint) : ProcRef → LockPoint := fun r =>
  if r.2 ≠ 0 ∧ (k.table r).state = .unused ∧ (k'.table r).state ≠ .unused then .pstart else saved r

/-- The core of a step. -/
def Op.core : Op → Core
  | .init c | .yield c | .sleep c _ | .wakeUp c _ | .exit c | .exitWake c | .exitSchedule c
  | .wait c _ | .fork c | .exec c _ | .openFile c _ | .closeFile c _ | .run c _ => c

/-- The steps outside `process_lock`, apart from `exec`. -/
def Op.lockFree : Op → Bool
  | .init _ | .openFile _ _ | .closeFile _ _ | .run _ _ => true
  | _ => false

inductive LockOp where
  | call (c : Core) (f : Section)
  /-- `spin_lock(&process_lock)` returns -/
  | acquire (c : Core)
  /-- the work under the lock, with the `swap` if there is one -/
  | work (c : Core)
  /-- `spin_unlock(&process_lock)` -/
  | release (c : Core)
  /-- the store to `x0` -/
  | result (c : Core)
  /-- `exit` returns to its caller -/
  | goBack (c : Core)
  | exec (c : Core) (name : Nat → BitVec 8)
  | other (op : Op)

def LockOp.core : LockOp → Core
  | .call c _ | .acquire c | .work c | .release c | .result c | .goBack c | .exec c _ => c
  | .other op => op.core

namespace Locked

def setPoint (s : Locked) (c : Core) (p : LockPoint) : Locked :=
  { s with point := Function.update s.point c p }

/-- The work on core `c` is done. Without a switch the core goes on at `p`. Otherwise
`swap` has kept that point for the process before, and goes on where the new one is. -/
def worked (s : Locked) (c : Core) (system : System) (p : LockPoint) : Locked :=
  let saved := savedNew s.system.kernel system.kernel s.saved
  match s.system.kernel.current c, system.kernel.current c with
  | some prev, some r =>
    if r = prev then { s.setPoint c p with system, saved }
    else
      let saved := Function.update saved prev p
      { s.setPoint c (saved r) with system, saved }
  | _, _ => { s.setPoint c p with system, saved }

/-- One step of one core. -/
inductive Step (s : Locked) : LockOp → Locked → Prop
  | call (c : Core) (f : Section) (hout : s.point c = .out) (hf : f.fromOutside)
      (hallowed : f.Allowed s.system c) : Step s (.call c f) (s.setPoint c (.enter f))
  | acquire (c : Core) (f : Section) (henter : s.point c = .enter f) (hfree : s.lock = none) :
      Step s (.acquire c) { s.setPoint c (.held f) with lock := some c }
  | work (c : Core) (f : Section) (system : System) (p : LockPoint) (hheld : s.point c = .held f)
      (hbody : f.body src image s.system c = .ok (system, p)) :
      Step s (.work c) (s.worked c system p)
  | release (c : Core) (n : Next) (hleave : s.point c = .leave n) :
      Step s (.release c) { s.setPoint c n.point with lock := none }
  | releaseStart (c : Core) (hstart : s.point c = .pstart) :
      Step s (.release c) { s.setPoint c .out with lock := none }
  | result (c : Core) (res : Returned) (r : ProcRef) (hpoint : s.point c = .result res)
      (hcur : s.system.kernel.current c = some r) :
      Step s (.result c) { s.setPoint c .out with
        system := s.system.withMem (write64 s.system.kernel.heap.mem (s.system.kernel.table r).tf
          ((res.value s.system.kernel).signExtend 64)) }
  | goBack (c : Core) (hreturned : s.point c = .returned) : Step s (.goBack c) (s.setPoint c .out)
  | exec (c : Core) (r : ProcRef) (name : Nat → BitVec 8) (returns : Bool) (k : Kernel)
      (hout : s.point c = .out) (hr : s.system.RunsUser c r)
      (hexec : TinyMultiCore.exec image s.system.kernel c r name = .ok (returns, k)) :
      Step s (.exec c name) { s.setPoint c (if returns then .out else .enter .exit) with
        system := s.system.withKernel k }
  | other (op : Op) (system : System) (hout : s.point op.core = .out) (hop : op.lockFree)
      (hstep : s.system.Step src image op system) :
      Step s (.other op) { s with
        system, saved := savedNew s.system.kernel system.kernel s.saved }

/-- Whether the section may be called, computed. -/
def allowedNow (s : System) (c : Core) : Section → Bool
  | .yield | .wakeUp _ => s.phase c = .running
  | .exitWake => s.phase c = .exiting
  | .exitSchedule => s.phase c = .switching
  | _ => (s.userOn c).isSome

/-- The step, when it can be taken; an `exec` is left out. -/
def tryStep (s : Locked) : LockOp → Option Locked
  | .call c f =>
    if s.point c = .out ∧ f.fromOutside ∧ allowedNow s.system c f then
      some (s.setPoint c (.enter f))
    else none
  | .acquire c =>
    match s.point c, s.lock with
    | .enter f, none => some { s.setPoint c (.held f) with lock := some c }
    | _, _ => none
  | .work c =>
    match s.point c with
    | .held f => (f.body src image s.system c).toOption.map fun (system, p) => s.worked c system p
    | _ => none
  | .release c =>
    match s.point c with
    | .leave n => some { s.setPoint c n.point with lock := none }
    | .pstart => some { s.setPoint c .out with lock := none }
    | _ => none
  | .result c =>
    match s.point c, s.system.kernel.current c with
    | .result res, some r => some { s.setPoint c .out with
        system := s.system.withMem (write64 s.system.kernel.heap.mem (s.system.kernel.table r).tf
          ((res.value s.system.kernel).signExtend 64)) }
    | _, _ => none
  | .goBack c => if s.point c = .returned then some (s.setPoint c .out) else none
  | .exec _ _ => none
  | .other op =>
    if s.point op.core = .out ∧ op.lockFree then
      (s.system.tryStep src image op).map fun system =>
        { s with system, saved := savedNew s.system.kernel system.kernel s.saved }
    else none

variable {src image} {s s' : Locked}

theorem allowed_of_allowedNow {s : System} {c : Core} {f : Section} (h : allowedNow s c f) :
    f.Allowed s c := by
  have huser : (s.userOn c).isSome → ∃ r, s.RunsUser c r := by
    intro hc
    obtain ⟨r, hr⟩ := Option.isSome_iff_exists.mp hc
    exact ⟨r, System.userOn_eq_some hr⟩
  cases f with
  | yield => exact show s.phase c = .running from of_decide_eq_true h
  | wakeUp w => exact show s.phase c = .running from of_decide_eq_true h
  | exitWake => exact show s.phase c = .exiting from of_decide_eq_true h
  | exitSchedule => exact show s.phase c = .switching from of_decide_eq_true h
  | _ => exact huser h

theorem step_of_tryStep {a : LockOp} (h : s.tryStep src image a = some s') :
    s.Step src image a s' := by
  cases a with
  | call c f =>
    obtain ⟨⟨hout, hf, ha⟩, he⟩ := Option.ite_none_right_eq_some.mp h
    cases he
    exact .call c f hout hf (allowed_of_allowedNow ha)
  | acquire c =>
    simp only [tryStep] at h
    split at h
    · rename_i f hpoint hlock
      cases h
      exact .acquire c f hpoint hlock
    · cases h
  | work c =>
    simp only [tryStep] at h
    split at h
    · rename_i f hpoint
      obtain ⟨⟨system, p⟩, hbody, he⟩ := Option.map_eq_some_iff.mp h
      cases he
      exact .work c f system p hpoint (toOption_eq_some.mp hbody)
    · cases h
  | release c =>
    simp only [tryStep] at h
    split at h
    · rename_i n hpoint
      cases h
      exact .release c n hpoint
    · rename_i hpoint
      cases h
      exact .releaseStart c hpoint
    · cases h
  | result c =>
    simp only [tryStep] at h
    split at h
    · rename_i res r hpoint hcur
      cases h
      exact .result c res r hpoint hcur
    · cases h
  | goBack c =>
    obtain ⟨hpoint, he⟩ := Option.ite_none_right_eq_some.mp h
    cases he
    exact .goBack c hpoint
  | exec c name => cases h
  | other op =>
    obtain ⟨⟨hout, hop⟩, he⟩ := Option.ite_none_right_eq_some.mp h
    obtain ⟨system, hstep, he⟩ := Option.map_eq_some_iff.mp he
    cases he
    exact .other op system hout hop (System.step_of_tryStep hstep)

/-- The steps of the cores are deterministic. -/
theorem Step.unique {t : Locked} {a : LockOp} (hs : s.Step src image a s') (ht : s.Step src image a t) :
    s' = t := by
  cases hs with
  | call c f hout hf hallowed =>
    cases ht
    rfl
  | acquire c f henter hfree =>
    cases ht with
    | acquire _ f' henter' =>
      obtain rfl := LockPoint.enter.inj (henter.symm.trans henter')
      rfl
  | work c f system q hheld hbody =>
    cases ht with
    | work _ f' system' q' hheld' hbody' =>
      obtain rfl := LockPoint.held.inj (hheld.symm.trans hheld')
      cases hbody.symm.trans hbody'
      rfl
  | release c n hleave =>
    cases ht with
    | release _ n' hleave' =>
      obtain rfl := LockPoint.leave.inj (hleave.symm.trans hleave')
      rfl
    | releaseStart _ hstart => cases hleave.symm.trans hstart
  | releaseStart c hstart =>
    cases ht with
    | release _ n' hleave => cases hstart.symm.trans hleave
    | releaseStart _ hstart' => rfl
  | result c res r hpoint hcur =>
    cases ht with
    | result _ res' r' hpoint' hcur' =>
      obtain rfl := LockPoint.result.inj (hpoint.symm.trans hpoint')
      obtain rfl := Option.some.inj (hcur.symm.trans hcur')
      rfl
  | goBack c hreturned =>
    cases ht
    rfl
  | exec c r name returns k hout hr hexec =>
    cases ht with
    | exec _ r' _ returns' k' hout' hr' hexec' =>
      obtain rfl := Option.some.inj (hr.2.1.symm.trans hr'.2.1)
      cases hexec.symm.trans hexec'
      rfl
  | other op system hout hop hstep =>
    cases ht with
    | other _ system' hout' hop' hstep' =>
      cases hstep.2.symm.trans hstep'.2
      rfl

end Locked

/-- The cores after the steps, from `boot` on. -/
def runLocked (mem : Memory) (as : List LockOp) : Option Locked := do
  let s ← (boot src image mem).toOption
  as.foldlM (Locked.tryStep src image) s.unlocked

theorem run_of_runLocked {mem : Memory} {as : List LockOp} {s : Locked}
    (h : runLocked src image mem as = some s) :
    ∃ s₀, boot src image mem = .ok s₀ ∧ Run (Locked.Step src image) s₀.unlocked as s := by
  obtain ⟨s₀, hboot, hrun⟩ := Option.bind_eq_some_iff.mp h
  exact ⟨s₀, toOption_eq_some.mp hboot,
    (Run.of_foldlM hrun).mono fun _ _ _ => Locked.step_of_tryStep⟩

/-- What a step is for `process_lock`. -/
def LockOp.event : LockOp → Option (SpinLock.LockEvent Core Unit)
  | .acquire c => some (.acquire c ())
  | .release c => some (.release c ())
  | _ => none

/-- **`process_lock` is atomic** in the steps of the cores, as the locks of `Kernel.SpinLock` are. -/
theorem Locked.run_atomic {src : FrameSource K} {image : Memory} {s₀ : System} {as : List LockOp}
    {s : Locked} (hrun : Run (Locked.Step src image) s₀.unlocked as s) :
    Run SpinLock.Atomic (fun _ => none) (as.filterMap LockOp.event) fun _ => s.lock := by
  induction hrun with
  | nil => exact .nil
  | @snoc t u as a _ hstep ih =>
    rw [List.filterMap_append]
    -- the other steps leave the lock alone
    have hstay : a.event = none → u.lock = t.lock → Run SpinLock.Atomic (fun _ => none)
        (as.filterMap LockOp.event ++ [a].filterMap LockOp.event) fun _ => u.lock := by
      intro hevent hlock
      rw [List.filterMap_cons_none hevent, List.filterMap_nil, List.append_nil, hlock]
      exact ih
    have hupdate : ∀ o : Option Core, (fun _ => o) = Function.update (fun _ => t.lock) () o := by
      intro o
      funext l
      rfl
    cases hstep with
    | acquire c f henter hfree =>
      refine ih.snoc ?_
      rw [hupdate]
      exact .acquire c () hfree
    | release c n hleave =>
      refine ih.snoc ?_
      rw [hupdate]
      exact .release c ()
    | releaseStart c hstart =>
      refine ih.snoc ?_
      rw [hupdate]
      exact .release c ()
    | work c f system p hheld hbody =>
      refine hstay rfl ?_
      unfold Locked.worked
      split
      · split <;> rfl
      · rfl
    | call c f hout hf hallowed => exact hstay rfl rfl
    | result c res r hpoint hcur => exact hstay rfl rfl
    | goBack c hreturned => exact hstay rfl rfl
    | exec c r name returns k hout hr hexec => exact hstay rfl rfl
    | other op system hout hop hstep => exact hstay rfl rfl

end TinyMultiCore
