import TinyMultiCore.Process.LockSteps

/-!
# The hand-over of `process_lock`

A core that holds the lock may switch: the process it switches to releases the lock
that another one has taken. `LockInv` says why that works out, and here is what it comes to.

* `LockInv.switch_works` — only the work of a section switches, with the lock in hand;
* `LockInv.releasesOnce` — behind a switch the core releases the lock before it does
  anything else with it;
* `process_lock_handed_over` — in every run, only the holder releases the lock, every
  switch is made by the holder and is followed by one release, and no core is in user
  mode with the lock.
-/

namespace TinyMultiCore

open SpinLock TransitionSystem

variable {K : KernelImage} {src : FrameSource K} {image : Memory} {c d : Core} {r prev : ProcRef}
  {v v' : ListId → List ProcRef} {s s' : Locked} {a : LockOp} {f : Section} {p : LockPoint}

-- ---------------------------------------------------------------------------
-- The hand-over
-- ---------------------------------------------------------------------------

/-- A step moves its own core. -/
theorem Locked.Step.point_elsewhere (hstep : s.Step src image a s') (hc : c ≠ a.core) :
    s'.point c = s.point c := by
  have hupdate : ∀ q : LockPoint, Function.update s.point a.core q c = s.point c :=
    fun q => Function.update_of_ne hc ..
  cases hstep with
  | work d f system p hheld hbody =>
    unfold Locked.worked
    dsimp only
    split
    · split
      · exact hupdate _
      · exact hupdate _
    · exact hupdate _
  | other op system hout hop hstep => rfl
  | _ => exact hupdate _

/-- A step outside `process_lock` leaves the current processes where they are. -/
theorem SystemInv.lockFree_keeps {system : System} (h : SystemInv s.system v) {op : Op}
    (hop : op.lockFree) (hstep : s.system.Step src image op system)
    (hcur : s.system.kernel.current d = some prev) : system.kernel.current d = some prev := by
  by_cases hinit : ∃ c, op = .init c
  · obtain ⟨c, rfl⟩ := hinit
    obtain ⟨hen, hok⟩ := hstep
    obtain ⟨k', hk, hs'⟩ := bind_eq_ok.mp hok
    cases hs'
    rcases initProcess_cases hk with ⟨rfl, -⟩ | ⟨-, hk⟩
    · -- core 0 starts when there are no processes
      rw [(h.booting hen.1).2.1 d] at hcur
      cases hcur
    · obtain ⟨y, hcreate⟩ := initProgram_creates hk
      exact (congrFun (hcreate.table y).1 d).trans hcur
  · rw [hstep.current_eq hop hinit]
    exact hcur

/-- Only the work under the lock switches. -/
theorem LockInv.switch_works (h : LockInv s) (hstep : s.Step src image a s')
    (hcur : s.system.kernel.current c = some prev) (hr : s'.system.kernel.current c = some r)
    (hne : r ≠ prev) : ∃ f system p, a = .work c ∧ s.point c = .held f ∧
      f.body src image s.system c = .ok (system, p) ∧ s' = s.worked c system p := by
  have hsame : ¬s'.system.kernel.current c = s.system.kernel.current c := fun he =>
    hne (Option.some.inj ((hr.symm.trans he).trans hcur))
  obtain ⟨v, hv⟩ := h.system
  cases hstep with
  | work d f system p hheld hbody =>
    rw [worked_system] at hr
    by_cases hd : c = d
    · subst hd
      exact ⟨f, system, p, rfl, hheld, hbody, rfl⟩
    · -- the other cores do not switch
      exfalso
      have ha := h.points d
      rw [hheld] at ha
      obtain ⟨s₁, mem, rfl, rfl | ⟨op, -, rfl, hwork⟩⟩ := Section.body_step ha hbody
      · exact hne (Option.some.inj (hr.symm.trans hcur))
      · obtain ⟨v', hv', -⟩ := hv.step hwork
        obtain ⟨hphase, hcurrent⟩ := hv.elsewhere hwork hd
        by_cases hboot : s.system.phase c = .booting
        · have hidle : ∀ {t : System} {u : ListId → List ProcRef} {y : ProcRef}, SystemInv t u →
              t.phase c = .booting → t.kernel.current c = some y → y = (c, 0) := by
            intro t u y ht hp hy
            refine Prod.ext (ht.sched.current_core c y hy) ?_
            rcases ht.phases c y hy with ⟨h0, -⟩ | ⟨-, ⟨hp', -⟩ | ⟨hp' | hp', -⟩⟩
            · exact h0
            all_goals exact absurd (hp.symm.trans hp') (by decide)
          exact hne ((hidle hv' (hphase.trans hboot) hr).trans (hidle hv hboot hcur).symm)
        · exact hne (Option.some.inj ((hr.symm.trans (hcurrent hboot)).trans hcur))
  | exec d y name returns k hout hy hexec =>
    exact absurd (congrFun ((exec_touches hexec).sched hv.sched).2.1 c) hsame
  | other op system hout hop hother =>
    exact absurd ((hv.lockFree_keeps hop hother hcur).trans hcur.symm) hsame
  | _ => exact absurd rfl hsame

/-- Core `c`, which holds the lock in `s`, releases it by the next step that it takes, and
does not release it again before it has taken it again. -/
def ReleasesOnce (src : FrameSource K) (image : Memory) (s : Locked) (c : Core) : Prop :=
  ∀ as t, Run (Locked.Step src image) s as t → .acquire c ∉ as →
    (as.filter (·.core = c) = [] ∧ t.lock = some c) ∨
    ∃ rest, as.filter (·.core = c) = .release c :: rest ∧ .release c ∉ rest ∧ t.lock ≠ some c

/-- A core in front of a `spin_unlock` can only go through it. -/
theorem LockPoint.Resumes.step_release (hr : (s.point c).Resumes r) (hstep : s.Step src image a s')
    (ha : a.core = c) : a = .release c ∧ ¬(s'.point c).Inside := by
  have hinside := hr.inside
  cases hstep with
  | release d n hleave =>
    obtain rfl : d = c := ha
    refine ⟨rfl, ?_⟩
    show ¬(Function.update s.point d n.point d).Inside
    rw [Function.update_self]
    cases n <;> exact id
  | releaseStart d hstart =>
    obtain rfl : d = c := ha
    refine ⟨rfl, ?_⟩
    show ¬(Function.update s.point d .out d).Inside
    rw [Function.update_self]
    exact id
  | call d f hout hf hallowed =>
    obtain rfl : d = c := ha
    rw [hout] at hinside
    exact hinside.elim
  | acquire d f henter hfree =>
    obtain rfl : d = c := ha
    rw [henter] at hinside
    exact hinside.elim
  | work d f system p hheld hbody =>
    obtain rfl : d = c := ha
    rw [hheld] at hr
    exact hr.elim
  | result d res y hpoint hcur =>
    obtain rfl : d = c := ha
    rw [hpoint] at hr
    exact hr.elim
  | goBack d hreturned =>
    obtain rfl : d = c := ha
    rw [hreturned] at hr
    exact hr.elim
  | exec d y name returns k hout hy hexec =>
    obtain rfl : d = c := ha
    rw [hout] at hinside
    exact hinside.elim
  | other op system hout hop hother =>
    obtain rfl : op.core = c := ha
    rw [hout] at hinside
    exact hinside.elim

theorem LockPoint.Resumes.release (hr : (s.point c).Resumes r) :
    ∃ t, s.Step src image (.release c) t := by
  match hpoint : s.point c with
  | .leave n => exact ⟨_, .release c n hpoint⟩
  | .pstart => exact ⟨_, .releaseStart c hpoint⟩
  | .out | .enter f | .held f | .result res | .returned | .lost =>
    rw [hpoint] at hr
    exact hr.elim

/-- A core that has switched is in front of a `spin_unlock`. -/
theorem LockInv.resumes_worked (h : LockInv s) (hheld : s.point c = .held f) {system : System}
    (hbody : f.body src image s.system c = .ok (system, p))
    (hcur : s.system.kernel.current c = some prev)
    (hr : (s.worked c system p).system.kernel.current c = some r) (hne : r ≠ prev) :
    ((s.worked c system p).point c).Resumes r := by
  rw [worked_system] at hr
  obtain ⟨v, hv⟩ := h.system
  have ha : f.Allowed s.system c := by
    have := h.points c
    rwa [hheld] at this
  have hcur' : system.kernel.current c ≠ some prev := fun he =>
    hne (Option.some.inj (hr.symm.trans he))
  rw [(worked_point hcur hr hne).1]
  obtain ⟨s₁, mem, rfl, rfl | ⟨op, -, -, hstep⟩⟩ := Section.body_step ha hbody
  · exact absurd hcur hcur'
  · obtain ⟨v', hv', -⟩ := hv.step hstep
    have hphase : s₁.phase c = .running := (Section.body_switch hv ha hbody hcur hcur').1
    have hresumes := h.resumes hv hv' hstep hphase hcur hr hne
    exact hresumes

/-- A core outside the section stays there until it takes the lock. -/
theorem Locked.Step.stays_outside (hstep : s.Step src image a s') (ha : a.core = c)
    (hout : ¬(s.point c).Inside) (hacquire : a ≠ .acquire c) :
    a ≠ .release c ∧ ¬(s'.point c).Inside := by
  have hupdate : ∀ {q : LockPoint}, ¬q.Inside → ¬(Function.update s.point c q c).Inside := by
    intro q hq
    rw [Function.update_self]
    exact hq
  cases hstep with
  | call d f _ _ _ =>
    obtain rfl : d = c := ha
    exact ⟨nofun, hupdate id⟩
  | acquire d f _ _ =>
    obtain rfl : d = c := ha
    exact absurd rfl hacquire
  | exec d y name returns k _ _ _ =>
    obtain rfl : d = c := ha
    refine ⟨nofun, hupdate ?_⟩
    split <;> exact id
  | result d res y _ _ =>
    obtain rfl : d = c := ha
    exact ⟨nofun, hupdate id⟩
  | other op system _ _ _ => exact ⟨nofun, hout⟩
  -- the others are made inside
  | work d f system p hheld _ =>
    obtain rfl : d = c := ha
    rw [hheld] at hout
    exact absurd trivial hout
  | release d n hleave =>
    obtain rfl : d = c := ha
    rw [hleave] at hout
    exact absurd trivial hout
  | releaseStart d hstart =>
    obtain rfl : d = c := ha
    rw [hstart] at hout
    exact absurd trivial hout
  | goBack d hreturned =>
    obtain rfl : d = c := ha
    rw [hreturned] at hout
    exact absurd trivial hout

theorem LockInv.inside_iff (h : LockInv s) : (s.point c).Inside ↔ s.lock = some c := h.guards c

/-- Who has been resumed releases the lock once. -/
theorem LockInv.releasesOnce (h : LockInv s) (hr : (s.point c).Resumes r) :
    ReleasesOnce src image s c := by
  intro as t hrun
  -- where the core is decides whether it still has the lock
  suffices hpoint : .acquire c ∉ as → (as.filter (·.core = c) = [] ∧ (t.point c).Resumes r) ∨
      ∃ rest, as.filter (·.core = c) = .release c :: rest ∧ .release c ∉ rest ∧
        ¬(t.point c).Inside by
    intro has
    have ht := h.run hrun
    rcases hpoint has with ⟨hnone, hresumes⟩ | ⟨rest, hsome, honce, hout⟩
    · exact Or.inl ⟨hnone, ht.inside_iff.mp hresumes.inside⟩
    · exact Or.inr ⟨rest, hsome, honce, fun hlock => hout (ht.inside_iff.mpr hlock)⟩
  induction hrun with
  | nil => exact fun _ => Or.inl ⟨rfl, hr⟩
  | @snoc t u as a hrun hstep ih =>
    intro has
    rw [List.mem_append, List.mem_singleton, not_or] at has
    rw [List.filter_append]
    by_cases ha : a.core = c
    · rw [List.filter_cons_of_pos (by simpa using ha), List.filter_nil]
      rcases ih has.1 with ⟨hnone, hresumes⟩ | ⟨rest, hsome, honce, hout⟩
      · obtain ⟨rfl, hafter⟩ := hresumes.step_release hstep ha
        exact Or.inr ⟨[], by rw [hnone]; rfl, List.not_mem_nil, hafter⟩
      · obtain ⟨hne, hafter⟩ := hstep.stays_outside ha hout (Ne.symm has.2)
        refine Or.inr ⟨rest ++ [a], by rw [hsome]; rfl, ?_, hafter⟩
        rw [List.mem_append, List.mem_singleton, not_or]
        exact ⟨honce, Ne.symm hne⟩
    · rw [List.filter_cons_of_neg (by simpa using ha), List.filter_nil, List.append_nil,
        hstep.point_elsewhere (Ne.symm ha)]
      exact ih has.1

/-- **The lock is handed over.** In every state that the four cores reach, no core is in user
mode with `process_lock`, and `exit` has not come back to its caller. The next step, whichever
it is, releases the lock only if its core has it, and switches only if its core has it: the
process switched to goes on where it was switched out, in front of a `spin_unlock`, or at
`pstart`, with the lock in the hands of its core, and releases it once. -/
theorem process_lock_handed_over {mem : Memory} {s₀ : System} {as : List LockOp}
    (hboot : boot src image mem = .ok s₀)
    (hrun : Run (Locked.Step src image) s₀.unlocked as s) :
    (∀ c, s.point c = .out → s.lock ≠ some c) ∧
    (∀ c, s.point c ≠ .returned ∧ s.point c ≠ .lost) ∧
    ∀ a s', s.Step src image a s' →
      (∀ c, a = .release c → s.lock = some c) ∧
      (∀ c, a = .work c → s.lock = some c ∧ s'.lock = some c) ∧
      ∀ c prev r, s.system.kernel.current c = some prev →
        s'.system.kernel.current c = some r → r ≠ prev →
        a = .work c ∧ s.lock = some c ∧ s'.lock = some c ∧
        s'.point c = s'.saved r ∧ (s'.point c).Resumes r ∧
        (∃ t, s'.Step src image (.release c) t) ∧ ReleasesOnce src image s' c := by
  have h := (LockInv.boot hboot).run hrun
  refine ⟨fun c hout hlock => ?_, fun c => ?_, fun a s' hstep => ?_⟩
  · have hin := h.inside_iff.mpr hlock
    rw [hout] at hin
    exact hin
  · have hok := h.points c
    refine ⟨fun he => ?_, fun he => ?_⟩
    all_goals
      rw [he] at hok
      exact hok
  have h' := h.step hstep
  have hwork : ∀ c, a = .work c → s.lock = some c ∧ s'.lock = some c := by
    rintro c rfl
    cases hstep with
    | work _ f system p hheld hbody =>
      have hlock : s.lock = some c := h.inside_iff.mp (by rw [hheld]; trivial)
      refine ⟨hlock, ?_⟩
      unfold Locked.worked
      dsimp only
      split
      · split <;> exact hlock
      · exact hlock
  refine ⟨?_, hwork, fun c prev r hcur hr hne => ?_⟩
  · rintro c rfl
    refine h.inside_iff.mp ?_
    cases hstep with
    | release _ n hleave => rw [hleave]; trivial
    | releaseStart _ hstart => rw [hstart]; trivial
  · obtain ⟨f, system, p, rfl, hheld, hbody, rfl⟩ := h.switch_works hstep hcur hr hne
    obtain ⟨hlock, hlock'⟩ := hwork c rfl
    have hresumes := h.resumes_worked hheld hbody hcur hr hne
    have hsaved : (s.worked c system p).point c = (s.worked c system p).saved r := by
      rw [worked_system] at hr
      obtain ⟨hpoint, hsaved⟩ := worked_point (s := s) (p := p) hcur hr hne
      exact hpoint.trans hsaved.symm
    exact ⟨rfl, hlock, hlock', hsaved, hresumes, hresumes.release, h'.releasesOnce hresumes⟩

/-- The idle process of core 0 gives way to the first user process, which starts at `pstart`. -/
theorem first_process_handed_over : ∃ s s',
    runLocked smallSource smallDisk (fun _ => 0)
      [.other (.init 0), .call 0 .yield, .acquire 0] = some s ∧
    s.Step smallSource smallDisk (.work 0) s' ∧ s'.system.kernel.current 0 = some (0, 1) ∧
    s'.lock = some 0 ∧ s'.point 0 = .pstart ∧ ReleasesOnce smallSource smallDisk s' 0 := by
  have hboth : ((runLocked smallSource smallDisk (fun _ => 0)
      [.other (.init 0), .call 0 .yield, .acquire 0]).bind fun s =>
        (s.tryStep smallSource smallDisk (.work 0)).map fun s' =>
          (s.system.kernel.current 0, s'.system.kernel.current 0, s'.point 0)) =
      some (some (0, 0), some (0, 1), .pstart) := by decide +kernel
  obtain ⟨s, hs, hnext⟩ := Option.bind_eq_some_iff.mp hboth
  obtain ⟨s', hs', hvalues⟩ := Option.map_eq_some_iff.mp hnext
  obtain ⟨hcur, hrest⟩ := Prod.mk.inj hvalues
  obtain ⟨hr, hpoint⟩ := Prod.mk.inj hrest
  obtain ⟨s₀, hboot, hrun⟩ := run_of_runLocked _ _ hs
  have hstep := Locked.step_of_tryStep hs'
  obtain ⟨-, -, hsteps⟩ := process_lock_handed_over hboot hrun
  obtain ⟨-, -, hswitch⟩ := hsteps (.work 0) s' hstep
  obtain ⟨-, -, hlock, -, -, -, honce⟩ := hswitch 0 (0, 0) (0, 1) hcur hr (by decide)
  exact ⟨s, s', hs, hstep, hr, hlock, hpoint, honce⟩

end TinyMultiCore
