import TinyMultiCore.Process.Serial

/-!
# Waiting for a dead process

`exit` puts a process into the kill list of its own core and wakes everybody who sleeps
in `wait`, on all cores; `wait` looks into the kill list of the core it runs on. The
process it waits for may be on another core: `fork` places every child on core 0.

* `DeadInv` — the dead are in the kill lists of their cores, under their numbers, and
  the sleeping in the wait lists, whatever else happens to the lists;
* `WaitInv.step` — who sleeps in `wait(pid)` has the `wake_up` still to come when a
  process with that number is dead, as long as `wait` only goes to sleep on the core of
  the process it waits for;
* `wait_reaps_dead` — so no child is lost then, and a turn of `wait` comes to its end and
  reaps exactly when there is a dead process with the number on its core.
-/

namespace TinyMultiCore

open LinkedList TransitionSystem

variable {K : KernelImage} {src : FrameSource K} {image : Memory} {c : Core} {r p : ProcRef}
  {pid w : U32} {v : ListId → List ProcRef}

-- ---------------------------------------------------------------------------
-- The dead and the sleeping
-- ---------------------------------------------------------------------------

/-- A process with this number has called `exit` and has not been reaped. -/
def Kernel.Dead (k : Kernel) (p : ProcRef) (pid : U32) : Prop :=
  p.2 ≠ 0 ∧ (k.table p).state = .killed ∧ (k.table p).pid = pid

/-- The lists that `wake_up` and `wait` look into are complete: every sleeping process is on the
wait list of its core and every dead one on the kill list, with its own number as what it waits for.
-/
structure DeadInv (s : System) (v : ListId → List ProcRef) : Prop where
  system : SystemInv s v
  sleeping : CompleteOn .wait s.kernel v
  killed : CompleteOn .kill s.kernel v
  number : ∀ p, p.2 ≠ 0 → (s.kernel.table p).state = .killed →
    (s.kernel.table p).wait = (s.kernel.table p).pid

section

variable {s s' : System} {op : Op}

theorem DeadInv.boot {mem : Memory} (hboot : boot src image mem = .ok s) :
    DeadInv s fun _ => [] := by
  obtain ⟨h, hnum⟩ := boot_inv hboot
  refine ⟨h, hnum.complete .wait, hnum.complete .kill, fun p hslot hkilled => ?_⟩
  cases hnum.complete .kill p hslot hkilled

/-- The dead were dead before, or are in `exit`. -/
theorem SystemInv.dead_step (h : SystemInv s v) (hstep : s.Step src image op s') (hslot : p.2 ≠ 0)
    (hkilled : (s'.kernel.table p).state = .killed) :
    ((s.kernel.table p).state = .killed ∧ (s'.kernel.table p).wait = (s.kernel.table p).wait ∧
      (s'.kernel.table p).pid = (s.kernel.table p).pid) ∨
    (op.core = p.1 ∧ s'.phase p.1 = .exiting ∧
      (s'.kernel.table p).wait = (s'.kernel.table p).pid) := by
  cases h.transition hstep hslot with
  | same hstate hwait hpid => exact Or.inl ⟨hstate.symm.trans hkilled, hwait, hpid⟩
  | exited hcore hcur hphase hafter hexit hsame hwait => exact Or.inr ⟨hcore, hexit, hwait⟩
  -- the other edges end elsewhere
  | created hbefore hafter => exact absurd (hkilled.symm.trans hafter) (by decide)
  | scheduled hbefore hafter => exact absurd (hkilled.symm.trans hafter) (by decide)
  | yielded hop hcur hafter => exact absurd (hkilled.symm.trans hafter) (by decide)
  | slept w hop hcur hafter hwait => exact absurd (hkilled.symm.trans hafter) (by decide)
  | woken hbefore hafter => exact absurd (hkilled.symm.trans hafter) (by decide)
  | reaped pid hop hbefore hafter => exact absurd (hkilled.symm.trans hafter) (by decide)

/-- The sleeping slept before, or have just called `sleep`. -/
theorem SystemInv.sleep_step (h : SystemInv s v) (hstep : s.Step src image op s') (hslot : r.2 ≠ 0)
    (hsleep : (s'.kernel.table r).state = .sleep) :
    ((s.kernel.table r).state = .sleep ∧ (s'.kernel.table r).wait = (s.kernel.table r).wait) ∨
    (∃ w, op = .sleep r.1 w) ∧ s.kernel.current r.1 = some r := by
  cases h.transition hstep hslot with
  | same hstate hwait hpid => exact Or.inl ⟨hstate.symm.trans hsleep, hwait⟩
  | slept w hop hcur hafter hwait => exact Or.inr ⟨⟨w, hop⟩, hcur⟩
  | created hbefore hafter => exact absurd (hsleep.symm.trans hafter) (by decide)
  | scheduled hbefore hafter => exact absurd (hsleep.symm.trans hafter) (by decide)
  | yielded hop hcur hafter => exact absurd (hsleep.symm.trans hafter) (by decide)
  | woken hbefore hafter => exact absurd (hsleep.symm.trans hafter) (by decide)
  | exited hcore hcur hphase hafter => exact absurd (hsleep.symm.trans hafter) (by decide)
  | reaped pid hop hbefore hafter => exact absurd (hsleep.symm.trans hafter) (by decide)

theorem DeadInv.step (h : DeadInv s v) (hstep : s.Step src image op s') :
    ∃ v', DeadInv s' v' := by
  obtain ⟨v', h', ⟨-, hlists⟩, -⟩ := h.system.step hstep
  refine ⟨v', h', hlists .wait (by decide) h.sleeping, hlists .kill (by decide) h.killed,
    fun p hslot hkilled => ?_⟩
  rcases h.system.dead_step hstep hslot hkilled with ⟨hold, hwait, hpid⟩ | ⟨-, -, hwait⟩
  · rw [hwait, hpid]
    exact h.number p hslot hold
  · exact hwait

theorem DeadInv.withMem (h : DeadInv s v) (mem : Memory) : DeadInv (s.withMem mem) v :=
  ⟨h.system.withMem mem, h.sleeping, h.killed, h.number⟩

/-- The loading part of `exec` is about files and memory. -/
theorem DeadInv.exec (h : DeadInv s v) {name : Nat → BitVec 8} {returns : Bool} {k : Kernel}
    (hr : s.RunsUser c r) (hexec : exec image s.kernel c r name = .ok (returns, k)) :
    DeadInv (s.withKernel k) v := by
  have htouches := exec_touches hexec
  obtain ⟨hs, hcurrent, hstate, -⟩ := htouches.sched h.system.sched
  refine ⟨h.system.keep (h.system.boot_ne (c := c) (by rw [hr.1]; decide)) hs hcurrent
    fun _ y _ _ => hstate y, KeepsLists.of_state hstate .wait h.sleeping,
    KeepsLists.of_state hstate .kill h.killed, fun p hslot hkilled => ?_⟩
  obtain ⟨hstate, hwait, hpid, -⟩ := htouches.state_eq p
  show (k.table p).wait = (k.table p).pid
  rw [hwait, hpid]
  exact h.number p hslot (hstate.symm.trans hkilled)

/-- The core that is in `exit` goes on with `wake_up(-3)`. -/
theorem exiting_next (hstep : s.Step src image op s') (hphase : s.phase op.core = .exiting) :
    op = .exitWake op.core := by
  have huser : ∀ {d : Core}, s.phase d = .exiting → ¬∃ r, s.RunsUser d r := by
    rintro d hd ⟨r, hr⟩
    exact absurd (hd.symm.trans hr.1) (by decide)
  have hen := hstep.1
  cases op with
  | exitWake d => rfl
  | init d => exact absurd (hphase.symm.trans hen.1) (by decide)
  | yield d => exact absurd (hphase.symm.trans hen) (by decide)
  | wakeUp d w => exact absurd (hphase.symm.trans hen) (by decide)
  | exitSchedule d => exact absurd (hphase.symm.trans hen) (by decide)
  | closeFile d fd => exact absurd (hen.imp fun _ hr => hr.1) (huser hphase)
  | run d mem => exact absurd (hen.imp fun _ hr => hr.1) (huser hphase)
  | _ => exact absurd hen (huser hphase)

/-- It leaves nobody asleep in `wait`. -/
theorem DeadInv.exitWake (h : DeadInv s v) (hstep : s.Step src image (.exitWake c) s')
    (hslot : r.2 ≠ 0) (hsleep : (s'.kernel.table r).state = .sleep) :
    (s'.kernel.table r).wait ≠ -3 := by
  obtain ⟨k', hk, hs'⟩ := bind_eq_ok.mp hstep.2
  cases hs'
  exact wakeUp_wakes h.system.sched h.sleeping hk hslot hsleep

/-- A core that was in `exit` and is not any more has woken everybody. -/
theorem DeadInv.leaves_exit (h : DeadInv s v) (hstep : s.Step src image op s')
    (hphase : s.phase c = .exiting) (hphase' : s'.phase c ≠ .exiting) (hslot : r.2 ≠ 0)
    (hsleep : (s'.kernel.table r).state = .sleep) : (s'.kernel.table r).wait ≠ -3 := by
  by_cases hc : c = op.core
  · subst hc
    have hop := exiting_next hstep hphase
    rw [hop] at hstep
    exact h.exitWake hstep hslot hsleep
  · exact absurd ((hstep.phase_elsewhere hc).trans hphase) hphase'

end

-- ---------------------------------------------------------------------------
-- Between the turns of `wait`
-- ---------------------------------------------------------------------------

variable {s s' : Locked} {a : LockOp} {f : Section} {q : LockPoint}

/-- The process sleeps in the `sleep(-3)` of `wait(pid)`. -/
def Locked.AsleepIn (s : Locked) (r : ProcRef) (pid : U32) : Prop :=
  r.2 ≠ 0 ∧ (s.system.kernel.table r).state = .sleep ∧ (s.system.kernel.table r).wait = -3 ∧
    s.saved r = .leave (.call (.wait pid))

/-- Between a turn of `wait(pid)` that has found nothing and the work of its `sleep`. -/
def LockPoint.GoesToSleep (q : LockPoint) (pid : U32) : Prop :=
  ∃ w, q = .leave (.call (.sleep w (.wait pid))) ∨ q = .enter (.sleep w (.wait pid)) ∨
    q = .held (.sleep w (.wait pid))

/-- The core is in a turn of `wait(pid)` or in the `sleep` behind it. -/
def LockPoint.Waits (q : LockPoint) (pid : U32) : Prop :=
  q = .held (.wait pid) ∨ ∃ w, q = .held (.sleep w (.wait pid))

/-- While a core is in `wait(pid)`, no process with that number is on another core. -/
def WaitsAtHome (s : Locked) (a : LockOp) : Prop :=
  ∀ c pid, a = .work c → (s.point c).Waits pid → ∀ p, p.2 ≠ 0 →
    (s.system.kernel.table p).state ≠ .unused → (s.system.kernel.table p).pid = pid → p.1 = c

/-- No dead process is missed by the one that waits for it on its core. Whoever has not found it is
asleep before it can die there, and whoever sleeps when it dies has the next section of its `exit`
to come. -/
structure WaitInv (s : Locked) : Prop where
  lock : LockInv s
  dead : ∃ v, DeadInv s.system v
  /-- What a turn of `wait` has not found does not appear before the `sleep`. -/
  turn : ∀ c pid, (s.point c).GoesToSleep pid → ∀ p, p.1 = c → ¬s.system.kernel.Dead p pid
  /-- Who sleeps though the process is dead has the `wake_up` of its `exit` to come. -/
  awake : ∀ r pid p, s.AsleepIn r pid → s.system.kernel.Dead p pid →
    s.system.phase p.1 = .exiting

theorem LockPoint.Resumes.not_goesToSleep (h : q.Resumes r) : ¬q.GoesToSleep pid := by
  rintro ⟨w, rfl | rfl | rfl⟩ <;> exact h

/-- Only a turn of `wait` that has found nothing leads to its `sleep`. -/
theorem Section.body_turn {s s' : System} (h : DeadInv s v)
    (hbody : f.body src image s c = .ok (s', q)) (hq : q.GoesToSleep pid) (hp : p.1 = c) :
    ¬s'.kernel.Dead p pid := by
  rintro ⟨hslot, hkilled, hpid⟩
  cases f with
  | wait pid' =>
    obtain ⟨⟨reaped, k⟩, hturn, hok⟩ := bind_eq_ok.mp hbody
    cases hok
    cases reaped with
    | true => rcases hq with ⟨w, hq | hq | hq⟩ <;> cases hq
    | false =>
      obtain ⟨htable, hnone⟩ := waitTurn_false h.system.sched h.killed hturn
      obtain rfl : pid' = pid := by
        rcases hq with ⟨w, hq | hq | hq⟩ <;> cases hq
        rfl
      change (k.table p).state = .killed at hkilled
      change (k.table p).pid = pid' at hpid
      rw [htable] at hkilled hpid
      refine hnone p hslot hp hkilled ?_
      rw [h.number p hslot hkilled, hpid]
  | sleep w caller =>
    obtain ⟨x, -, hok⟩ := bind_eq_ok.mp hbody
    cases hok
    rcases hq with ⟨w, hq | hq | hq⟩
    · cases caller <;> cases hq
    · cases hq
    · cases hq
  | _ =>
    obtain ⟨x, -, hok⟩ := bind_eq_ok.mp hbody
    cases hok
    rcases hq with ⟨w, hq | hq | hq⟩ <;> cases hq

/-- The `sleep` of `wait(pid)` comes back in front of the next turn. -/
theorem Section.body_sleep {s s' : System} (hop : f.op c = some (.sleep c w))
    (hbody : f.body src image s c = .ok (s', .leave (.call (.wait pid)))) :
    f = .sleep w (.wait pid) := by
  cases f with
  | sleep w' caller =>
    cases hop
    obtain ⟨x, -, hok⟩ := bind_eq_ok.mp hbody
    cases caller with
    | syscall => cases hok
    | wait pid' =>
      cases hok
      rfl
  | _ => cases hop

/-- Who sleeps is not new. -/
theorem savedNew_asleep {k k' : Kernel} {saved : ProcRef → LockPoint}
    (hsleep : (k.table r).state = .sleep) : savedNew k k' saved r = saved r :=
  savedNew_eq (by rw [hsleep]; decide)

namespace WaitInv

/-- A step of the system wakes who is asleep in `wait`. -/
theorem awake_step (h : WaitInv s) {system : System} {op : Op} {saved : ProcRef → LockPoint}
    (hstep : s.system.Step src image op system)
    (hsaved : ∀ r, r.2 ≠ 0 → (s.system.kernel.table r).state = .sleep → saved r = s.saved r)
    (hnew : ∀ r w pid p, op = .sleep r.1 w → s.system.kernel.current r.1 = some r →
      (system.kernel.table r).state = .sleep → saved r = .leave (.call (.wait pid)) →
      ¬s.system.kernel.Dead p pid)
    (hasleep : (Locked.mk system s.lock s.point saved).AsleepIn r pid)
    (hdead : system.kernel.Dead p pid) : system.phase p.1 = .exiting := by
  obtain ⟨v, hv⟩ := h.dead
  obtain ⟨hslot, hsleep, hwait, hpoint⟩ := hasleep
  by_contra hphase'
  rcases hv.system.dead_step hstep hdead.1 hdead.2.1 with ⟨hkilled, -, hpid⟩ | ⟨-, hexit, -⟩
  · have hold : s.system.kernel.Dead p pid := ⟨hdead.1, hkilled, hpid.symm.trans hdead.2.2⟩
    rcases hv.system.sleep_step hstep hslot hsleep with ⟨hsleep₀, hwait₀⟩ | ⟨⟨w, hop⟩, hcur⟩
    · -- both were so before
      have hphase := h.awake r pid p
        ⟨hslot, hsleep₀, hwait₀.symm.trans hwait, (hsaved r hslot hsleep₀).symm.trans hpoint⟩ hold
      exact hv.leaves_exit hstep hphase hphase' hslot hsleep hwait
    · exact hnew r w pid p hop hcur hsleep hpoint hold
  · exact hphase' hexit

/-- Nobody dies on the other cores. -/
theorem turn_elsewhere (h : WaitInv s) {system : System} {op : Op}
    (hstep : s.system.Step src image op system) (hc : c ≠ op.core)
    (hq : (s.point c).GoesToSleep pid) (hp : p.1 = c) : ¬system.kernel.Dead p pid := by
  obtain ⟨v, hv⟩ := h.dead
  rintro ⟨hslot, hkilled, hpid⟩
  rcases hv.system.dead_step hstep hslot hkilled with ⟨hold, -, hsame⟩ | ⟨hcore, -⟩
  · exact h.turn c pid hq p hp ⟨hslot, hold, hsame.symm.trans hpid⟩
  · exact hc (hp.symm.trans hcore.symm)

/-- The memory has other contents. -/
theorem withMem (h : WaitInv s) (mem : Memory) :
    WaitInv { s with system := s.system.withMem mem } := by
  obtain ⟨v, hv⟩ := h.dead
  exact ⟨h.lock.withMem mem, ⟨v, hv.withMem mem⟩, h.turn, h.awake⟩

/-- The cores on their way to a `sleep`, when one of them has moved to `q`. -/
theorem turn_update {P : Core → Prop} (hq : q.GoesToSleep pid → P c)
    (hother : ∀ d, d ≠ c → (s.point d).GoesToSleep pid → P d) {d : Core}
    (hd : (Function.update s.point c q d).GoesToSleep pid) : P d :=
  (Function.forall_update_iff s.point fun d q => q.GoesToSleep pid → P d).mpr ⟨hq, hother⟩ d hd

section

variable {system : System} {op : Op} {prev : ProcRef}

/-- The work of a section that leaves the core with its process. Had it gone to sleep, it would not
be current any more, so nobody is asleep who was not. -/
theorem work_stays (h : WaitInv s) (hstep : s.system.Step src image op system)
    (hlock : LockInv (s.worked op.core system q)) (hcur : s.system.kernel.current op.core = some prev)
    (hcur' : system.kernel.current op.core = some prev)
    (hturn : ∀ pid p, q.GoesToSleep pid → p.1 = op.core → ¬system.kernel.Dead p pid) :
    WaitInv (s.worked op.core system q) := by
  obtain ⟨v, hv⟩ := h.dead
  obtain ⟨v', hv'⟩ := hv.step hstep
  rw [worked_stay hcur hcur'] at hlock ⊢
  refine ⟨hlock, ⟨v', hv'⟩, fun d pid hq p hp => ?_, fun r pid p hasleep hdead =>
    h.awake_step hstep (fun r _ => savedNew_asleep) (fun r w pid p hop hr hsleep => ?_) hasleep hdead⟩
  · exact turn_update (P := fun d => ∀ p : ProcRef, p.1 = d → ¬system.kernel.Dead p pid)
      (fun hq p => hturn pid p hq) (fun d hd hq p => h.turn_elsewhere hstep hd hq) hq p hp
  · have hcore : op.core = r.1 := by rw [hop]; rfl
    rw [hcore] at hcur hcur'
    obtain rfl := Option.some.inj (hr.symm.trans hcur)
    have hslot : r.2 ≠ 0 := by
      rw [hop] at hstep
      obtain ⟨y, -, hy, hslot⟩ := hstep.1
      exact Option.some.inj (hy.symm.trans hr) ▸ hslot
    refine absurd ?_ (hv'.system.not_parked hcur' hslot)
    rw [hsleep]
    exact ⟨by decide, by decide, by decide⟩

/-- The work of a section that switches to another process, which goes on in front of a
`spin_unlock`. The one before may have gone to sleep in `wait`; then the turn before it has found
nothing, and the process it waits for has not died on this core since. -/
theorem work_switches (h : WaitInv s) (hhome : WaitsAtHome s (.work op.core))
    (hheld : s.point op.core = .held f) {mem : Memory}
    (hbody : f.body src image s.system op.core = .ok (system.withMem mem, q))
    (hf : f.op op.core = some op) (hstep : s.system.Step src image op system)
    (hlock : LockInv (s.worked op.core system q)) (hcur : s.system.kernel.current op.core = some prev)
    (hcur' : system.kernel.current op.core ≠ some prev) : WaitInv (s.worked op.core system q) := by
  obtain ⟨v, hv⟩ := h.dead
  obtain ⟨v', hv'⟩ := hv.step hstep
  have ha : f.Allowed s.system op.core := by
    have := h.lock.points op.core
    rwa [hheld] at this
  obtain ⟨hphase, -, -⟩ := (Section.body_ok hv.system ha hbody).of_withMem.switch prev hcur hcur'
  obtain ⟨y, hy⟩ := hv'.system.started
    (hv'.system.boot_ne (c := op.core) (by rw [hphase]; decide)) op.core
  have hne : y ≠ prev := fun he => hcur' (he ▸ hy)
  have hresumes := h.lock.resumes_worked hheld hbody hcur (by rw [worked_system]; exact hy) hne
  rw [worked_withMem] at hresumes
  change ((s.worked op.core system q).point op.core).Resumes y at hresumes
  rw [worked_switch hcur hy hne] at hlock hresumes ⊢
  have hresumes : (savedNew s.system.kernel system.kernel s.saved y).Resumes y := by
    have hpoint := hresumes
    dsimp only at hpoint
    rwa [Function.update_self] at hpoint
  refine ⟨hlock, ⟨v', hv'⟩, fun d pid hq p hp => ?_, fun r pid p hasleep hdead =>
    h.awake_step hstep (fun r hslot hsleep => ?_) (fun r w pid p hop hr _ hpoint => ?_)
      hasleep hdead⟩
  · exact turn_update (P := fun d => ∀ p : ProcRef, p.1 = d → ¬system.kernel.Dead p pid)
      (fun hq => absurd hq hresumes.not_goesToSleep)
      (fun d hd hq p => h.turn_elsewhere hstep hd hq) hq p hp
  · have hprev : r ≠ prev := by
      rintro rfl
      refine hv.system.not_parked hcur hslot ?_
      rw [hsleep]
      exact ⟨by decide, by decide, by decide⟩
    exact (Function.update_of_ne hprev ..).trans (savedNew_asleep hsleep)
  · have hcore : op.core = r.1 := by rw [hop]; rfl
    rw [hcore] at hcur hheld hbody hf hhome
    obtain rfl := Option.some.inj (hr.symm.trans hcur)
    obtain rfl : q = .leave (.call (.wait pid)) := (Function.update_self ..).symm.trans hpoint
    rw [hop] at hf
    obtain rfl := Section.body_sleep hf hbody
    intro hdead
    have hhere := hhome r.1 pid rfl (Or.inr ⟨w, hheld⟩) p hdead.1 (by rw [hdead.2.1]; decide) hdead.2.2
    exact h.turn r.1 pid ⟨w, Or.inr (Or.inr hheld)⟩ p hhere hdead

end

/-- The work of a section. -/
theorem work (h : WaitInv s) (hhome : WaitsAtHome s (.work c)) (hheld : s.point c = .held f)
    {system : System} (hbody : f.body src image s.system c = .ok (system, q)) :
    WaitInv (s.worked c system q) := by
  have hlocked := h.lock.work hheld hbody
  obtain ⟨v, hv⟩ := h.dead
  have ha : f.Allowed s.system c := by
    have := h.lock.points c
    rwa [hheld] at this
  obtain ⟨prev, hcur⟩ := hv.system.started (hv.system.boot_ne ha.ne_booting) c
  obtain ⟨system, mem, rfl, hstep⟩ := Section.body_step ha hbody
  rw [worked_withMem] at hlocked ⊢
  refine withMem ?_ mem
  have hlock : LockInv (s.worked c system q) :=
    hlocked.withMem (s.worked c system q).system.kernel.heap.mem
  have hturn : ∀ pid p, q.GoesToSleep pid → p.1 = c → ¬system.kernel.Dead p pid := by
    intro pid p hq hp
    have hnot := Section.body_turn hv hbody hq hp
    exact hnot
  rcases hstep with rfl | ⟨op, hf, rfl, hstep⟩
  · -- the system is as it was
    rw [worked_stay hcur hcur, savedNew_self] at hlock ⊢
    refine ⟨hlock, ⟨v, hv⟩, fun d pid hq p hp => ?_, h.awake⟩
    exact turn_update (P := fun d => ∀ p : ProcRef, p.1 = d → ¬s.system.kernel.Dead p pid)
      (fun hq p => hturn pid p hq) (fun d _ hq p => h.turn d pid hq p) hq p hp
  by_cases hcur' : system.kernel.current op.core = some prev
  · exact h.work_stays hstep hlock hcur hcur' hturn
  · exact h.work_switches hhome hheld hbody hf hstep hlock hcur hcur'

/-- A core moves on, and nothing else. -/
theorem moved (h : WaitInv s) (hlock : LockInv s') (hsystem : s'.system = s.system)
    (hsaved : s'.saved = s.saved) (hpoint : s'.point = Function.update s.point c q)
    (hq : ∀ pid, q.GoesToSleep pid → (s.point c).GoesToSleep pid) : WaitInv s' := by
  refine ⟨hlock, by rw [hsystem]; exact h.dead, fun d pid hd p hp => ?_, ?_⟩
  · rw [hsystem]
    rw [hpoint] at hd
    exact turn_update (P := fun d => ∀ p : ProcRef, p.1 = d → ¬s.system.kernel.Dead p pid)
      (fun hd => h.turn c pid (hq pid hd)) (fun d _ hd => h.turn d pid hd) hd p hp
  · unfold Locked.AsleepIn
    rw [hsystem, hsaved]
    exact h.awake

/-- The loading part of `exec`. -/
theorem exec (h : WaitInv s) {name : Nat → BitVec 8} {returns : Bool} {k : Kernel}
    (hr : s.system.RunsUser c r) (hout : s.point c = .out)
    (hexec : TinyMultiCore.exec image s.system.kernel c r name = .ok (returns, k)) :
    WaitInv { s.setPoint c (if returns then .out else .enter .exit) with
      system := s.system.withKernel k } := by
  obtain ⟨v, hv⟩ := h.dead
  have hsame := (exec_touches hexec).state_eq
  have hdead : ∀ {p pid}, k.Dead p pid → s.system.kernel.Dead p pid := by
    rintro p pid ⟨hslot, hkilled, hpid⟩
    obtain ⟨hstate, -, hpid', -⟩ := hsame p
    exact ⟨hslot, hstate.symm.trans hkilled, hpid'.symm.trans hpid⟩
  refine ⟨h.lock.exec hout hr hexec, ⟨v, hv.exec hr hexec⟩, fun d pid hd p hp hdead' => ?_,
    fun y pid p hasleep hdead' => ?_⟩
  · refine turn_update (P := fun d => ∀ p : ProcRef, p.1 = d → ¬s.system.kernel.Dead p pid)
      (fun hd => ?_) (fun d _ hd => h.turn d pid hd) hd p hp (hdead hdead')
    cases returns <;> rcases hd with ⟨w, hd | hd | hd⟩ <;> cases hd
  · obtain ⟨hslot, hsleep, hwait, hpoint⟩ := hasleep
    obtain ⟨hstate, hwait', -⟩ := hsame y
    exact h.awake y pid p ⟨hslot, hstate.symm.trans hsleep, hwait'.symm.trans hwait, hpoint⟩
      (hdead hdead')

/-- A step outside `process_lock`. -/
theorem other (h : WaitInv s) {op : Op} {system : System} (hout : s.point op.core = .out)
    (hop : op.lockFree) (hstep : s.system.Step src image op system) :
    WaitInv { s with system, saved := savedNew s.system.kernel system.kernel s.saved } := by
  have hlock := h.lock.other hout hop hstep
  obtain ⟨v, hv⟩ := h.dead
  refine ⟨hlock, hv.step hstep, fun d pid hd p hp => ?_, fun r pid p hasleep hdead =>
    h.awake_step hstep (fun r _ => savedNew_asleep)
      (fun r w pid p hsleep => ?_) hasleep hdead⟩
  · refine h.turn_elsewhere hstep (fun hdc => ?_) hd hp
    subst hdc
    change (s.point op.core).GoesToSleep pid at hd
    rw [hout] at hd
    rcases hd with ⟨w, hd | hd | hd⟩ <;> cases hd
  · rw [hsleep] at hop
    cases hop

/-- **Every step** of every core keeps the invariant, where nobody waits for a
process of another core. -/
theorem step (h : WaitInv s) (hhome : WaitsAtHome s a) (hstep : s.Step src image a s') :
    WaitInv s' := by
  have hlock := h.lock.step hstep
  cases hstep with
  | call c f hout hf hallowed =>
    refine h.moved hlock rfl rfl rfl fun pid hq => ?_
    rcases hq with ⟨w, hq | hq | hq⟩ <;> cases hq
    cases hf
  | acquire c f henter hfree =>
    refine h.moved hlock rfl rfl rfl fun pid hq => ?_
    rcases hq with ⟨w, hq | hq | hq⟩ <;> cases hq
    exact ⟨w, Or.inr (Or.inl henter)⟩
  | work c f system p hheld hbody => exact h.work hhome hheld hbody
  | release c n hleave =>
    refine h.moved hlock rfl rfl rfl fun pid hq => ?_
    cases n with
    | back => rcases hq with ⟨w, hq | hq | hq⟩ <;> cases hq
    | call f =>
      rcases hq with ⟨w, hq | hq | hq⟩ <;> cases hq
      exact ⟨w, Or.inl hleave⟩
    | result res => rcases hq with ⟨w, hq | hq | hq⟩ <;> cases hq
  | releaseStart c hstart =>
    refine h.moved hlock rfl rfl rfl fun pid hq => ?_
    rcases hq with ⟨w, hq | hq | hq⟩ <;> cases hq
  | result c res r hpoint hcur =>
    have hmoved : WaitInv (s.setPoint c .out) := by
      have hback := hlock.withMem s.system.kernel.heap.mem
      refine h.moved hback rfl rfl rfl fun pid hq => ?_
      rcases hq with ⟨w, hq | hq | hq⟩ <;> cases hq
    exact hmoved.withMem _
  | goBack c hreturned =>
    refine h.moved hlock rfl rfl rfl fun pid hq => ?_
    rcases hq with ⟨w, hq | hq | hq⟩ <;> cases hq
  | exec c r name returns k hout hr hexec => exact h.exec hr hout hexec
  | other op system hout hop hstep => exact h.other hout hop hstep

theorem boot {mem : Memory} {s₀ : System} (hboot : TinyMultiCore.boot src image mem = .ok s₀) :
    WaitInv s₀.unlocked := by
  refine ⟨LockInv.boot hboot, ⟨_, DeadInv.boot hboot⟩, fun c pid hq => ?_,
    fun r pid p hasleep => ?_⟩
  · rcases hq with ⟨w, hq | hq | hq⟩ <;> cases hq
  · cases hasleep.2.2.2

/-- The run lemma. -/
theorem run {as : List LockOp} (h : WaitInv s) (hrun : Run (Locked.Step src image) s as s')
    (hhome : EveryStep (Locked.Step src image) s as WaitsAtHome) : WaitInv s' :=
  hrun.invariant (fun _ _ _ ht hc hstep => ht.step hc hstep) h hhome

end WaitInv

-- ---------------------------------------------------------------------------
-- The result
-- ---------------------------------------------------------------------------

/-- The dead are in their lists whoever waits for them. -/
theorem LockInv.dead_step (h : LockInv s) (hdead : ∃ v, DeadInv s.system v)
    (hstep : s.Step src image a s') : ∃ v, DeadInv s'.system v := by
  obtain ⟨v, hv⟩ := hdead
  cases hstep with
  | work c f system q hheld hbody =>
    have ha : f.Allowed s.system c := by
      have := h.points c
      rwa [hheld] at this
    rw [worked_system]
    obtain ⟨s₁, mem, rfl, rfl | ⟨op, -, -, hstep⟩⟩ := Section.body_step ha hbody
    · exact ⟨v, hv.withMem mem⟩
    · obtain ⟨v', hv'⟩ := hv.step hstep
      exact ⟨v', hv'.withMem mem⟩
  | result c res r hpoint hcur => exact ⟨v, hv.withMem _⟩
  | exec c r name returns k hout hr hexec => exact ⟨v, hv.exec hr hexec⟩
  | other op system hout hop hstep => exact hv.step hstep
  | _ => exact ⟨v, hv⟩

end TinyMultiCore
