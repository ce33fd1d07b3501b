import TinyMultiCore.Process.ProcessLock
import TinyMultiCore.Process.SchedulerRuns

/-!
# The states of a process

Every step of the system takes every user process along an edge of one diagram:

    unused → ready → running → ready, sleep, killed
             sleep → ready      killed → unused

* `SystemInv.transition` — the edge, with what it says about the step;
* `SystemInv.elsewhere` — a step of one core leaves the phase and the current process of the
  others alone.
-/

namespace TinyMultiCore

open LinkedList

variable {K : KernelImage} {src : FrameSource K} {image : Memory} {k k' : Kernel} {c : Core}
  {r prev : ProcRef} {v : ListId → List ProcRef} {s s' : System} {op : Op}

/-- The edge that a step takes the process `r` along. Each edge has the operation it belongs to
where there is one only, and says whether the process is current: a process leaves its core by a
call of its own, and all else that happens to it comes from others. -/
inductive Transition (s s' : System) (op : Op) (r : ProcRef) : Prop
  | same (hstate : (s'.kernel.table r).state = (s.kernel.table r).state)
      (hwait : (s'.kernel.table r).wait = (s.kernel.table r).wait)
      (hpid : (s'.kernel.table r).pid = (s.kernel.table r).pid)
  | created (hbefore : (s.kernel.table r).state = .unused)
      (hafter : (s'.kernel.table r).state = .ready)
  | scheduled (hbefore : (s.kernel.table r).state = .ready)
      (hafter : (s'.kernel.table r).state = .running)
  | yielded (hop : op = .yield r.1) (hcur : s.kernel.current r.1 = some r)
      (hafter : (s'.kernel.table r).state = .ready)
  | slept (w : U32) (hop : op = .sleep r.1 w) (hcur : s.kernel.current r.1 = some r)
      (hafter : (s'.kernel.table r).state = .sleep) (hwait : (s'.kernel.table r).wait = w)
  | woken (hbefore : (s.kernel.table r).state = .sleep)
      (hafter : (s'.kernel.table r).state = .ready)
  | exited (hcore : op.core = r.1) (hcur : s.kernel.current r.1 = some r)
      (hphase : s.phase r.1 = .running) (hafter : (s'.kernel.table r).state = .killed)
      (hexit : s'.phase r.1 = .exiting) (hsame : s'.kernel.current r.1 = some r)
      (hwait : (s'.kernel.table r).wait = (s'.kernel.table r).pid)
  | reaped (pid : U32) (hop : op = .wait r.1 pid) (hbefore : (s.kernel.table r).state = .killed)
      (hafter : (s'.kernel.table r).state = .unused)

-- ---------------------------------------------------------------------------
-- What the functions write
-- ---------------------------------------------------------------------------

/-- `schedule` sets the state of the idle process or of a ready one. -/
theorem schedule_table (hq : ∀ r, r ∈ v (c, .ready) → (k.table r).state = .ready)
    (hqueues : Queues k.lists v) (hcur : k.current c = some prev) (hok : schedule k c = .ok k') :
    ∃ y, k'.table = Function.update k.table y { k.table y with state := .running } ∧
      (y.2 = 0 ∨ (k.table y).state = .ready) := by
  obtain ⟨y, lists, hhead, htable, -⟩ := schedule_cases hcur hok
  refine ⟨y, htable, ?_⟩
  rcases hhead with ⟨-, rfl, -⟩ | hhead
  · exact Or.inl rfl
  · obtain ⟨ys, hv, -⟩ := hqueues.removeHead_some hhead
    exact Or.inr (hq y (by rw [hv]; exact List.mem_cons_self))

/-- A core whose current process has the new record `p` reschedules. -/
theorem resched_table {p : Process} {k₁ : Kernel} (h : Sched k₁ v)
    (htable : k₁.table = Function.update k.table prev p) (hcur : k₁.current c = some prev)
    (hok : schedule k₁ c = .ok k') (hslot : r.2 ≠ 0) :
    (r ≠ prev ∧ (k'.table r = k.table r ∨
      ((k.table r).state = .ready ∧ (k'.table r).state = .running))) ∨
    (r = prev ∧ (k'.table r = p ∨ (p.state = .ready ∧ k'.table r = { p with state := .running }))) := by
  obtain ⟨y, htable', hy⟩ := schedule_table (fun r hr => (h.mem c .ready r hr).2.2) h.queues hcur hok
  have hy : r = y → (k₁.table r).state = .ready := by
    rintro rfl
    exact hy.resolve_left hslot
  rw [htable']
  by_cases hprev : r = prev
  · refine Or.inr ⟨hprev, ?_⟩
    have hp : k₁.table r = p := by rw [htable, hprev, Function.update_self]
    rw [hp] at hy
    by_cases hry : r = y
    · rw [← hry, Function.update_self, hp]
      exact Or.inr ⟨hy hry, rfl⟩
    · rw [Function.update_of_ne hry]
      exact Or.inl hp
  · refine Or.inl ⟨hprev, ?_⟩
    have hold : k₁.table r = k.table r := by rw [htable, Function.update_of_ne hprev]
    rw [hold] at hy
    by_cases hry : r = y
    · rw [← hry, Function.update_self]
      exact Or.inr ⟨hy hry, rfl⟩
    · rw [Function.update_of_ne hry]
      exact Or.inl hold

theorem yieldCpu_table (h : Sched k v) (hcur : k.current c = some prev)
    (hrun : prev.2 ≠ 0 → (k.table prev).state = .running) (hok : yieldCpu k c = .ok k')
    (hslot : r.2 ≠ 0) :
    k'.table r = k.table r ∨ ((k.table r).state = .ready ∧ (k'.table r).state = .running) ∨
      (r = prev ∧ (k'.table r).state = .ready) := by
  rcases yieldCpu_cases hok with ⟨-, rfl⟩ | ⟨prev', -, hprev, hturn⟩
  · exact Or.inl rfl
  obtain rfl := Option.some.inj (hcur.symm.trans hprev)
  have hnot : ∀ l, prev ∉ v l := fun l hmem =>
    h.notMem_running (hrun (h.mem l.1 l.2 prev hmem).2.1) l hmem
  obtain rfl := h.current_core c prev hcur
  -- in the list or not, the process is ready when `schedule` starts
  have hrest : ∀ (k₁ : Kernel) (v₁ : ListId → List ProcRef), Sched k₁ v₁ →
      k₁.table = Function.update k.table prev { k.table prev with state := .ready } →
      k₁.current = k.current → schedule k₁ prev.1 = .ok k' →
      k'.table r = k.table r ∨ ((k.table r).state = .ready ∧ (k'.table r).state = .running) ∨
        (r = prev ∧ (k'.table r).state = .ready) := by
    intro k₁ v₁ hs htable hcurrent hk
    rcases resched_table hs htable (by rw [hcurrent, hcur]) hk hslot with
      ⟨-, hother⟩ | ⟨rfl, hp | ⟨-, hp⟩⟩
    · exact hother.imp id Or.inl
    · exact Or.inr (Or.inr ⟨rfl, by rw [hp]⟩)
    · -- it is chosen again
      refine Or.inl ?_
      rw [hp, ← hrun hslot]
  rcases hturn with ⟨hpid, k₁, hk₁, hok⟩ | ⟨-, hok⟩
  · obtain ⟨lists, happend, hs, -⟩ := h.enlist (q := .ready) hnot (h.user_of_pid hpid)
      { k.table prev with state := .ready } rfl
    obtain rfl := Except.ok.inj (happend.symm.trans hk₁)
    exact hrest _ _ hs rfl rfl hok
  · exact hrest _ _ (h.setAside hnot (fun _ => hcur) .ready) rfl rfl hok

theorem sleepOn_table {w : U32} (h : Sched k v) (hcur : k.current c = some prev) (hprev : prev.2 ≠ 0)
    (hrun : (k.table prev).state = .running) (hok : sleepOn k c w = .ok k') (hslot : r.2 ≠ 0) :
    k'.table r = k.table r ∨ ((k.table r).state = .ready ∧ (k'.table r).state = .running) ∨
      (r = prev ∧ (k'.table r).state = .sleep ∧ (k'.table r).wait = w) := by
  obtain ⟨prev', k₁, hprev', hk₁, hok⟩ := sleepOn_eq hok
  obtain rfl := Option.some.inj (hcur.symm.trans hprev')
  obtain rfl := h.current_core c prev hcur
  obtain ⟨lists, happend, hs, -⟩ := h.enlist (q := .wait) (h.notMem_running hrun) hprev
    { k.table prev with state := .sleep, wait := w } rfl
  obtain rfl := Except.ok.inj (happend.symm.trans hk₁)
  rcases resched_table hs rfl hcur hok hslot with ⟨-, hother⟩ | ⟨rfl, hp | ⟨hp, -⟩⟩
  · exact hother.imp id Or.inl
  · exact Or.inr (Or.inr ⟨rfl, by rw [hp], by rw [hp]⟩)
  · cases hp

theorem exitSchedule_table (h : Sched k v) (hcur : k.current c = some prev)
    (hkilled : (k.table prev).state = .killed) (hok : schedule k c = .ok k') (hslot : r.2 ≠ 0) :
    k'.table r = k.table r ∨ ((k.table r).state = .ready ∧ (k'.table r).state = .running) := by
  rcases resched_table (p := k.table prev) h (Function.update_eq_self ..).symm hcur hok hslot with
    ⟨-, hother⟩ | ⟨rfl, hp | ⟨hp, -⟩⟩
  · exact hother
  · exact Or.inl hp
  · rw [hkilled] at hp
    cases hp

theorem exitKill_table (hcur : k.current c = some prev) (hok : exitKill k c = .ok k') :
    k'.current = k.current ∧ ∀ r, k'.table r = k.table r ∨
      (r = prev ∧ (k'.table r).state = .killed ∧ (k'.table r).wait = (k'.table r).pid) := by
  obtain ⟨prev', hprev, happend⟩ := exitKill_eq hok
  obtain rfl := Option.some.inj (hcur.symm.trans hprev)
  obtain ⟨lists, -, rfl⟩ := append_eq_ok.mp happend
  refine ⟨rfl, fun r => ?_⟩
  by_cases hr : r = prev
  · subst hr
    exact Or.inr ⟨rfl, by simp [Kernel.setProcess]⟩
  · exact Or.inl (Function.update_of_ne hr ..)

theorem removeList_table {list : ListId} {value : U32} {o : Option ProcRef}
    (hok : k.removeList list value = .ok (o, k')) : k'.table = k.table := by
  obtain ⟨lists, -, rfl⟩ := removeList_eq_ok.mp hok
  rfl

/-- `wake_up` makes processes ready. -/
theorem wakeLoop_ready {w : U32} {bound : Nat} (hok : wakeLoop c w bound k = .ok k') (r : ProcRef) :
    k'.table r = k.table r ∨ (k'.table r).state = .ready := by
  refine wakeLoop_rec (fun k hremove => Or.inl (congrFun (removeList_table hremove) r))
    (fun k k₁ k₂ y hremove happend ih => ?_) hok
  obtain ⟨lists, -, rfl⟩ := append_eq_ok.mp happend
  rcases ih with hsame | hready
  · have hy : (({ k₁.setState y .ready with lists } : Kernel).table r) =
        Function.update k.table y { k₁.table y with state := .ready } r := by
      rw [← removeList_table hremove]
      rfl
    rw [hsame, hy]
    by_cases hr : r = y
    · rw [hr, Function.update_self]
      exact Or.inr rfl
    · rw [Function.update_of_ne hr]
      exact Or.inl rfl
  · exact Or.inr hready

theorem wakeUp_table {w : U32} (h : Sched k v) (hok : wakeUp k w = .ok k') (r : ProcRef) :
    k'.table r = k.table r ∨ ((k.table r).state = .sleep ∧ (k'.table r).state = .ready) := by
  obtain ⟨-, -, -, hwoken, -⟩ := wakeUp_spec h hok
  by_cases hsleep : (k.table r).state = .sleep
  · have hstep : ∀ {k₁ k₂ : Kernel}, (k₂.table r = k₁.table r ∨ (k₂.table r).state = .ready) →
        (k₁.table r = k.table r ∨ (k₁.table r).state = .ready) →
        k₂.table r = k.table r ∨ (k₂.table r).state = .ready := by
      rintro k₁ k₂ (h₂ | h₂) h₁
      · rw [h₂]
        exact h₁
      · exact Or.inr h₂
    obtain ⟨k₁, k₂, k₃, h₁, h₂, h₃, h₄⟩ := wakeUp_eq hok
    exact (hstep (wakeLoop_ready h₄ r) (hstep (wakeLoop_ready h₃ r)
      (hstep (wakeLoop_ready h₂ r) (wakeLoop_ready h₁ r)))).imp id fun hr => ⟨hsleep, hr⟩
  · exact Or.inl (hwoken.2 r hsleep)

/-- After its loop, no process of the core sleeps on the value. -/
theorem wakeLoop_wakes {w : U32} {bound : Nat} (h : Sched k v) (hc : CompleteOn .wait k v)
    (hok : wakeLoop c w bound k = .ok k') (hslot : r.2 ≠ 0) (hcore : r.1 = c)
    (hsleep : (k'.table r).state = .sleep) : (k'.table r).wait ≠ w := by
  suffices hloop : ∀ v, Sched k v → CompleteOn .wait k v → (k'.table r).wait ≠ w from hloop v h hc
  refine wakeLoop_rec (fun k hremove v h hc => ?_) (fun k k₁ k₂ y hremove happend ih v h hc => ?_) hok
  · obtain ⟨⟨lists, rfl⟩, -, hnone⟩ := h.removeList_none hremove
    subst hcore
    exact hnone r (hc r hslot hsleep)
  · obtain ⟨v₂, hs₂, hc₂, -⟩ := wakeOne_spec h hremove happend
    exact ih v₂ hs₂ (hc₂ .wait hc)

/-- After `wake_up`, no process sleeps on the value. -/
theorem wakeUp_wakes {w : U32} (h : Sched k v) (hc : CompleteOn .wait k v)
    (hok : wakeUp k w = .ok k') (hslot : r.2 ≠ 0) (hsleep : (k'.table r).state = .sleep) :
    (k'.table r).wait ≠ w := by
  have hkept : ∀ {k₁ k₂ : Kernel} {d : Core}, wakeLoop d w 121 k₁ = .ok k₂ →
      (k₂.table r).state = .sleep → k₂.table r = k₁.table r := by
    intro k₁ k₂ d hd hs
    refine (wakeLoop_ready hd r).resolve_right fun hready => ?_
    rw [hs] at hready
    cases hready
  obtain ⟨k₁, k₂, k₃, h₁, h₂, h₃, h₄⟩ := wakeUp_eq hok
  obtain ⟨v₁, hs₁, hc₁, -⟩ := wakeLoop_spec h h₁
  obtain ⟨v₂, hs₂, hc₂, -⟩ := wakeLoop_spec hs₁ h₂
  obtain ⟨v₃, hs₃, hc₃, -⟩ := wakeLoop_spec hs₂ h₃
  have hw₁ := hc₁ .wait hc
  have hw₂ := hc₂ .wait hw₁
  have hw₃ := hc₃ .wait hw₂
  -- a process that still sleeps did so all the time, and after the loop of its own core
  have he₃ := hkept h₄ hsleep
  rw [he₃] at hsleep
  have he₂ := hkept h₃ hsleep
  rw [he₂] at hsleep
  have he₁ := hkept h₂ hsleep
  rw [he₁] at hsleep
  have hcores : ∀ d : Core, d = 0 ∨ d = 1 ∨ d = 2 ∨ d = 3 := by decide
  obtain hcore | hcore | hcore | hcore := hcores r.1
  · rw [he₃, he₂, he₁]
    exact wakeLoop_wakes h hc h₁ hslot hcore hsleep
  · rw [he₃, he₂]
    exact wakeLoop_wakes hs₁ hw₁ h₂ hslot hcore (by rw [he₁]; exact hsleep)
  · rw [he₃]
    exact wakeLoop_wakes hs₂ hw₂ h₃ hslot hcore (by rw [he₂, he₁]; exact hsleep)
  · exact wakeLoop_wakes hs₃ hw₃ h₄ hslot hcore (by rw [he₃, he₂, he₁]; exact hsleep)

/-- A turn of `wait` that has found nothing. -/
theorem waitTurn_false {pid : U32} (h : Sched k v) (hc : CompleteOn .kill k v)
    (hok : waitTurn src k c pid = .ok (false, k')) : k'.table = k.table ∧
      ∀ r, r.2 ≠ 0 → r.1 = c → (k.table r).state = .killed → (k.table r).wait ≠ pid := by
  rcases waitTurn_cases hok with ⟨-, hempty, rfl⟩ | ⟨-, hremove⟩ | ⟨y, k₁, hreaped, -⟩
  · refine ⟨rfl, fun r hslot hcore hkilled => ?_⟩
    have hmem := hc r hslot hkilled
    rw [hcore, h.queues.isListEmpty_iff.mp hempty] at hmem
    cases hmem
  · obtain ⟨⟨lists, rfl⟩, -, hnone⟩ := h.removeList_none hremove
    refine ⟨rfl, fun r hslot hcore hkilled => ?_⟩
    subst hcore
    exact hnone r (hc r hslot hkilled)
  · cases hreaped

theorem waitTurn_table {pid : U32} {reaped : Bool} (h : Sched k v)
    (hok : waitTurn src k c pid = .ok (reaped, k')) (r : ProcRef) :
    k'.table r = k.table r ∨
      (r.1 = c ∧ (k.table r).state = .killed ∧ (k'.table r).state = .unused) := by
  rcases waitTurn_cases hok with ⟨-, -, rfl⟩ | ⟨-, hremove⟩ | ⟨y, k₁, -, hremove, hreap⟩
  · exact Or.inl rfl
  · exact Or.inl (congrFun (removeList_table hremove) r)
  · obtain ⟨hcore, -, hkilled⟩ := h.removeList_user hremove
    obtain ⟨-, -, heap, files, -, -, -, rfl⟩ := reap_eq hreap
    show Function.update k₁.table y .zero r = _ ∨
      _ ∧ _ ∧ (Function.update k₁.table y .zero r).state = _
    by_cases hr : r = y
    · rw [hr, Function.update_self]
      exact Or.inr ⟨hcore, hkilled, rfl⟩
    · rw [Function.update_of_ne hr, removeList_table hremove]
      exact Or.inl rfl

theorem TouchesFiles.state_eq {y : ProcRef} (h : TouchesFiles k y k') (r : ProcRef) :
    (k'.table r).state = (k.table r).state ∧ (k'.table r).wait = (k.table r).wait ∧
      (k'.table r).pid = (k.table r).pid ∧ k'.current = k.current := by
  obtain ⟨file, heap, files, rfl⟩ := h
  by_cases hr : r = y
  · subst hr
    simp [Kernel.setProcess]
  · simp [Kernel.setProcess, hr]

/-- A new process. -/
theorem Creates.table (h : Creates k c prev k') (r : ProcRef) :
    k'.current = k.current ∧ (k'.table r = k.table r ∨
      ((k.table r).state = .unused ∧ (k'.table r).state = .ready)) := by
  obtain ⟨hfind, p, heap, files, lists, hstate, -, -, rfl⟩ := h
  obtain ⟨-, -, hunused⟩ := findUnusedProcess_eq_some hfind
  refine ⟨rfl, ?_⟩
  show Function.update k.table prev p r = _ ∨ _ ∧ (Function.update k.table prev p r).state = _
  by_cases hr : r = prev
  · rw [hr, Function.update_self]
    exact Or.inr ⟨hunused, hstate⟩
  · exact Or.inl (Function.update_of_ne hr ..)

/-- The processes of `init_process`. -/
theorem initProcess_table (hok : initProcess src image k c = .ok k') (hslot : r.2 ≠ 0) :
    k'.table r = k.table r ∨ ((k.table r).state = .unused ∧ (k'.table r).state = .ready) := by
  rcases initProcess_cases hok with ⟨-, k₁, hok₁, hok⟩ | ⟨-, hok⟩
  · obtain ⟨r₁, hcreate₁⟩ := initProgram_creates hok₁
    obtain ⟨r₂, hcreate₂⟩ := initProgram_creates hok
    have hidle : (initIdleProcess K k).table r = k.table r := if_neg hslot
    have h₁ := (hcreate₁.table r).2
    rw [hidle] at h₁
    rcases (hcreate₂.table r).2 with h₂ | ⟨hunused, hready⟩
    · rw [h₂]
      exact h₁
    · rcases h₁ with h₁ | ⟨-, hready₁⟩
      · exact Or.inr ⟨by rw [← h₁, hunused], hready⟩
      · rw [hunused] at hready₁
        cases hready₁
  · obtain ⟨r₁, hcreate₁⟩ := initProgram_creates hok
    exact (hcreate₁.table r).2

-- ---------------------------------------------------------------------------
-- Steps
-- ---------------------------------------------------------------------------

theorem Transition.of_table (h : s'.kernel.table r = s.kernel.table r) : Transition s s' op r :=
  .same (by rw [h]) (by rw [h]) (by rw [h])

theorem Transition.of_touches {y : ProcRef} (h : TouchesFiles s.kernel y s'.kernel) :
    Transition s s' op r := by
  obtain ⟨hstate, hwait, hpid, -⟩ := h.state_eq r
  exact .same hstate hwait hpid

theorem SystemInv.yield_transition (h : SystemInv s v) (hphase : s.phase c = .running)
    (hok : yieldCpu s.kernel c = .ok k') (hslot : r.2 ≠ 0) :
    Transition s (s.withKernel k') (.yield c) r := by
  obtain ⟨prev, hcur⟩ := h.started (h.boot_ne (c := c) (by rw [hphase]; decide)) c
  have hrun : prev.2 ≠ 0 → (s.kernel.table prev).state = .running :=
    fun hslot => h.state_of_runsUser ⟨hphase, hcur, hslot⟩
  obtain rfl := h.sched.current_core c prev hcur
  rcases yieldCpu_table h.sched hcur hrun hok hslot with hsame | ⟨hready, hrunning⟩ | ⟨rfl, hready⟩
  · exact .of_table hsame
  · exact .scheduled hready hrunning
  · exact .yielded rfl hcur hready

theorem SystemInv.sleep_transition {w : U32} (h : SystemInv s v) (hr : s.RunsUser c prev)
    (hok : sleepOn s.kernel c w = .ok k') (hslot : r.2 ≠ 0) :
    Transition s (s.withKernel k') (.sleep c w) r := by
  have hcur := hr.2.1
  obtain rfl := h.sched.current_core c prev hcur
  rcases sleepOn_table h.sched hcur hr.2.2 (h.state_of_runsUser hr) hok hslot with
    hsame | ⟨hready, hrunning⟩ | ⟨rfl, hsleep, hwait⟩
  · exact .of_table hsame
  · exact .scheduled hready hrunning
  · exact .slept w rfl hcur hsleep hwait

/-- `exit` kills the caller, in a system call of its own and behind an `exec` that has
closed its files. -/
theorem SystemInv.exit_transition {y : ProcRef} (h : SystemInv s v) (hr : s.RunsUser c prev)
    (ht : TouchesFiles s.kernel y k) (hop : op.core = c) (hok : exitKill k c = .ok k') :
    Transition s ((s.withKernel k').withPhase c .exiting) op r := by
  obtain ⟨hphase, hcur, -⟩ := hr
  obtain rfl := h.sched.current_core c prev hcur
  obtain ⟨hstate, hwait, hpid, hcurrent⟩ := ht.state_eq r
  obtain ⟨hcurrent', htable⟩ := exitKill_table (hcurrent ▸ hcur) hok
  rcases htable r with hsame | ⟨rfl, hkilled, hwait⟩
  · exact .same ((congrArg Process.state hsame).trans hstate)
      ((congrArg Process.wait hsame).trans hwait) ((congrArg Process.pid hsame).trans hpid)
  · refine .exited hop hcur hphase hkilled (Function.update_self ..) ?_ hwait
    exact (congrFun hcurrent' _).trans (hcurrent ▸ hcur)

theorem SystemInv.exitSchedule_transition (h : SystemInv s v) (hphase : s.phase c = .switching)
    (hok : schedule s.kernel c = .ok k') (hslot : r.2 ≠ 0) :
    Transition s ((s.withKernel k').withPhase c .running) (.exitSchedule c) r := by
  obtain ⟨prev, hcur⟩ := h.started (h.boot_ne (c := c) (by rw [hphase]; decide)) c
  obtain ⟨-, hkilled⟩ := h.killed hcur (Or.inr hphase)
  rcases exitSchedule_table h.sched hcur hkilled hok hslot with hsame | ⟨hready, hrunning⟩
  · exact .of_table hsame
  · exact .scheduled hready hrunning

/-- **Every step** takes every user process along an edge of the diagram. A process that is not the one
that leaves a core or gets it keeps its state, but for those that are created, woken up or reaped. -/
theorem SystemInv.transition (h : SystemInv s v) (hstep : s.Step src image op s') (hslot : r.2 ≠ 0) :
    Transition s s' op r := by
  obtain ⟨hen, hok⟩ := hstep
  cases op with
  | init c =>
    obtain ⟨k', hk, hs'⟩ := bind_eq_ok.mp hok
    cases hs'
    rcases initProcess_table hk hslot with hsame | ⟨hunused, hready⟩
    · exact .of_table hsame
    · exact .created hunused hready
  | yield c =>
    obtain ⟨k', hk, hs'⟩ := bind_eq_ok.mp hok
    cases hs'
    exact h.yield_transition hen hk hslot
  | sleep c w =>
    obtain ⟨k', hk, hs'⟩ := bind_eq_ok.mp hok
    cases hs'
    obtain ⟨prev, hr⟩ := hen
    exact h.sleep_transition hr hk hslot
  | wakeUp c w =>
    obtain ⟨k', hk, hs'⟩ := bind_eq_ok.mp hok
    cases hs'
    rcases wakeUp_table h.sched hk r with hsame | ⟨hsleep, hready⟩
    · exact .of_table hsame
    · exact .woken hsleep hready
  | exit c =>
    obtain ⟨k', hk, hs'⟩ := bind_eq_ok.mp hok
    cases hs'
    obtain ⟨prev, hr⟩ := hen
    exact h.exit_transition (y := prev) hr (.of_heap s.kernel.heap) rfl hk
  | exitWake c =>
    obtain ⟨k', hk, hs'⟩ := bind_eq_ok.mp hok
    cases hs'
    rcases wakeUp_table h.sched hk r with hsame | ⟨hsleep, hready⟩
    · exact .of_table hsame
    · exact .woken hsleep hready
  | exitSchedule c =>
    obtain ⟨k', hk, hs'⟩ := bind_eq_ok.mp hok
    cases hs'
    exact h.exitSchedule_transition hen hk hslot
  | wait c pid =>
    obtain ⟨⟨reaped, k'⟩, hk, hs'⟩ := bind_eq_ok.mp hok
    cases hs'
    rcases waitTurn_table h.sched hk r with hsame | ⟨rfl, hkilled, hunused⟩
    · exact .of_table hsame
    · exact .reaped pid rfl hkilled hunused
  | fork c =>
    obtain ⟨⟨res, k'⟩, hk, hs'⟩ := bind_eq_ok.mp hok
    cases hs'
    obtain ⟨y, -, hcreate⟩ := sysFork_creates hk
    rcases (hcreate.table r).2 with hsame | ⟨hunused, hready⟩
    · exact .of_table hsame
    · exact .created hunused hready
  | exec c name =>
    obtain ⟨prev, hr⟩ := hen
    obtain ⟨y, hy, hok⟩ := bind_eq_ok.mp hok
    obtain ⟨⟨returns, k₁⟩, hexec, hok⟩ := bind_eq_ok.mp hok
    dsimp only at hok
    split at hok
    · cases hok
      exact .of_touches (exec_touches hexec)
    · obtain ⟨k₂, hk, hs'⟩ := bind_eq_ok.mp hok
      cases hs'
      exact h.exit_transition hr (exec_touches hexec) rfl hk
  | openFile c path =>
    obtain ⟨y, -, hok⟩ := bind_eq_ok.mp hok
    split at hok
    · cases hok
      exact .of_table rfl
    · cases hok
      exact .of_touches (y := y) ⟨_, s.kernel.heap, _, rfl⟩
  | closeFile c fd =>
    obtain ⟨y, -, hok⟩ := bind_eq_ok.mp hok
    obtain ⟨⟨files, file⟩, -, hok⟩ := bind_eq_ok.mp hok
    cases hok
    exact .of_touches (y := y) ⟨file, s.kernel.heap, files, rfl⟩
  | run c mem =>
    cases hok
    exact .of_table rfl

/-- Rescheduling is a matter of one core. -/
theorem Resched.elsewhere {d : Core} (h : Resched k k' c) (hd : d ≠ c) :
    k'.current d = k.current d := by
  obtain ⟨r, hcurrent, -⟩ := h
  rw [hcurrent, Function.update_of_ne hd]

/-- A step moves no other core on. -/
theorem System.Step.phase_elsewhere (hstep : s.Step src image op s') (hc : c ≠ op.core) :
    s'.phase c = s.phase c := by
  obtain ⟨-, hok⟩ := hstep
  cases op with
  | init | exit | exitWake | exitSchedule =>
    obtain ⟨k', -, hs'⟩ := bind_eq_ok.mp hok
    cases hs'
    exact Function.update_of_ne hc ..
  | yield | sleep | wakeUp | wait | fork =>
    obtain ⟨x, -, hs'⟩ := bind_eq_ok.mp hok
    cases hs'
    rfl
  | exec d name =>
    obtain ⟨y, -, hok⟩ := bind_eq_ok.mp hok
    obtain ⟨⟨returns, k₁⟩, -, hok⟩ := bind_eq_ok.mp hok
    dsimp only at hok
    split at hok
    · cases hok
      rfl
    · -- the loader has called `exit`
      obtain ⟨k₂, -, hs'⟩ := bind_eq_ok.mp hok
      cases hs'
      exact Function.update_of_ne hc ..
  | openFile d path =>
    obtain ⟨y, -, hok⟩ := bind_eq_ok.mp hok
    split at hok <;> cases hok <;> rfl
  | closeFile d fd =>
    obtain ⟨y, -, hok⟩ := bind_eq_ok.mp hok
    obtain ⟨⟨files, file⟩, -, hok⟩ := bind_eq_ok.mp hok
    cases hok
    rfl
  | run d mem =>
    cases hok
    rfl

/-- A step switches on its own core only. `init_process` on core 0 gives every core its idle
process, but no core is past that yet when it runs. -/
theorem SystemInv.current_elsewhere (h : SystemInv s v) (hstep : s.Step src image op s')
    (hc : c ≠ op.core) (hphase : s.phase c ≠ .booting) :
    s'.kernel.current c = s.kernel.current c := by
  obtain ⟨hen, hok⟩ := hstep
  cases op with
  | init d =>
    obtain ⟨k', hk, hs'⟩ := bind_eq_ok.mp hok
    cases hs'
    rcases initProcess_cases hk with ⟨rfl, -⟩ | ⟨-, hk⟩
    · exact absurd ((h.booting hen.1).1 c) hphase
    · obtain ⟨r₁, hcreate⟩ := initProgram_creates hk
      exact congrFun (hcreate.table r₁).1 c
  | yield d =>
    obtain ⟨k', hk, hs'⟩ := bind_eq_ok.mp hok
    cases hs'
    have hd : s.phase d = .running := hen
    obtain ⟨prev, hcur⟩ := h.started (h.boot_ne (c := d) (by rw [hd]; decide)) d
    obtain ⟨-, -, -, hre, -⟩ := yieldCpu_spec h.sched hcur
      (fun hslot => h.state_of_runsUser ⟨hd, hcur, hslot⟩) hk
    exact hre.elsewhere hc
  | sleep d w =>
    obtain ⟨k', hk, hs'⟩ := bind_eq_ok.mp hok
    cases hs'
    obtain ⟨prev, hr⟩ := hen
    obtain ⟨-, -, -, hre, -⟩ := sleepOn_spec h.sched hr.2.1 hr.2.2 (h.state_of_runsUser hr) hk
    exact hre.elsewhere hc
  | wakeUp d w =>
    obtain ⟨k', hk, hs'⟩ := bind_eq_ok.mp hok
    cases hs'
    obtain ⟨-, -, -, hwoken, -⟩ := wakeUp_spec h.sched hk
    exact congrFun hwoken.1 c
  | exit d =>
    obtain ⟨k', hk, hs'⟩ := bind_eq_ok.mp hok
    cases hs'
    obtain ⟨prev, -, hcur, -⟩ := hen
    exact congrFun (exitKill_table hcur hk).1 c
  | exitWake d =>
    obtain ⟨k', hk, hs'⟩ := bind_eq_ok.mp hok
    cases hs'
    obtain ⟨-, -, -, hwoken, -⟩ := wakeUp_spec h.sched hk
    exact congrFun hwoken.1 c
  | exitSchedule d =>
    obtain ⟨k', hk, hs'⟩ := bind_eq_ok.mp hok
    cases hs'
    have hd : s.phase d = .switching := hen
    obtain ⟨prev, hcur⟩ := h.started (h.boot_ne (c := d) (by rw [hd]; decide)) d
    obtain ⟨-, hkilled⟩ := h.killed hcur (Or.inr hd)
    obtain ⟨-, r, -, -, hcurrent, -⟩ := schedule_spec h.sched hcur
      (fun _ => by rw [hkilled]; decide) hk
    have hne : c ≠ d := hc
    show k'.current c = _
    rw [hcurrent, Function.update_of_ne hne]
  | wait d pid =>
    obtain ⟨⟨reaped, k'⟩, hk, hs'⟩ := bind_eq_ok.mp hok
    cases hs'
    obtain ⟨-, -, -, hcurrent, -⟩ := waitTurn_spec h.sched hk
    exact congrFun hcurrent c
  | fork d =>
    obtain ⟨⟨res, k'⟩, hk, hs'⟩ := bind_eq_ok.mp hok
    cases hs'
    obtain ⟨y, -, hcreate⟩ := sysFork_creates hk
    exact congrFun (hcreate.table y).1 c
  | exec d name =>
    obtain ⟨prev, -, hcur, -⟩ := hen
    obtain ⟨y, hy, hok⟩ := bind_eq_ok.mp hok
    obtain ⟨⟨returns, k₁⟩, hexec, hok⟩ := bind_eq_ok.mp hok
    obtain ⟨-, -, -, hcurrent⟩ := (exec_touches hexec).state_eq y
    dsimp only at hok
    split at hok
    · cases hok
      exact congrFun hcurrent c
    · obtain ⟨k₂, hk, hs'⟩ := bind_eq_ok.mp hok
      cases hs'
      obtain ⟨hcurrent₂, -⟩ := exitKill_table (hcurrent ▸ hcur) hk
      exact (congrFun hcurrent₂ c).trans (congrFun hcurrent c)
  | openFile d path =>
    obtain ⟨y, -, hok⟩ := bind_eq_ok.mp hok
    split at hok <;> cases hok <;> rfl
  | closeFile d fd =>
    obtain ⟨y, -, hok⟩ := bind_eq_ok.mp hok
    obtain ⟨⟨files, file⟩, -, hok⟩ := bind_eq_ok.mp hok
    cases hok
    rfl
  | run d mem =>
    cases hok
    rfl

/-- **A step of one core** leaves the others where they are. -/
theorem SystemInv.elsewhere (h : SystemInv s v) (hstep : s.Step src image op s') (hc : c ≠ op.core) :
    s'.phase c = s.phase c ∧
      (s.phase c ≠ .booting → s'.kernel.current c = s.kernel.current c) :=
  ⟨hstep.phase_elsewhere hc, h.current_elsewhere hstep hc⟩

/-- After `init_process` every current process of a core that has just started is idle. -/
theorem SystemInv.init_current (h : SystemInv s v) {d : Core}
    (hstep : s.Step src image (.init d) s') (hphase : s.phase c = .booting)
    (hcur : s'.kernel.current c = some r) : r.2 = 0 := by
  obtain ⟨hen, hok⟩ := hstep
  obtain ⟨k', hk, hs'⟩ := bind_eq_ok.mp hok
  cases hs'
  rcases initProcess_cases hk with ⟨-, k₁, hok₁, hk⟩ | ⟨-, hk⟩
  · obtain ⟨r₁, hcreate₁⟩ := initProgram_creates hok₁
    obtain ⟨r₂, hcreate₂⟩ := initProgram_creates hk
    have hcurrent : k'.current c = some (c, 0) :=
      (congrFun (hcreate₂.table r).1 c).trans (congrFun (hcreate₁.table r).1 c)
    obtain rfl := Option.some.inj (hcurrent.symm.trans hcur)
    rfl
  · obtain ⟨r₁, hcreate⟩ := initProgram_creates hk
    have hold : s.kernel.current c = some r := (congrFun (hcreate.table r).1 c).symm.trans hcur
    rcases h.phases c r hold with ⟨h0, -⟩ | ⟨-, ⟨hrun, -⟩ | ⟨hex | hsw, -⟩⟩
    · exact h0
    · exact absurd (hphase.symm.trans hrun) (by decide)
    · exact absurd (hphase.symm.trans hex) (by decide)
    · exact absurd (hphase.symm.trans hsw) (by decide)

end TinyMultiCore
