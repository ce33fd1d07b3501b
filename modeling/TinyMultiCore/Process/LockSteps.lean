import TinyMultiCore.Process.LockPoints

/-!
# The steps around `process_lock`

`LockInv` through a step of one core: the core itself goes on to a point that is in order,
the other cores stay where they are, and the processes that wait to be switched in still do
so in front of a `spin_unlock`.

* `LockInv.work` — the work of a section, which is the only step that switches;
* `LockInv.step`, `LockInv.run` — every step of every core, and every run.
-/

namespace TinyMultiCore

open SpinLock TransitionSystem

variable {K : KernelImage} {src : FrameSource K} {image : Memory} {c d : Core} {r prev : ProcRef}
  {v v' : ListId → List ProcRef} {s s' : Locked} {a : LockOp} {f : Section} {p : LockPoint}

-- ---------------------------------------------------------------------------
-- Where the switched-out processes go on
-- ---------------------------------------------------------------------------

section

variable {s s' : System} {saved : ProcRef → LockPoint}

theorem savedNew_eq {k k' : Kernel} (h : (k.table r).state ≠ .unused) :
    savedNew k k' saved r = saved r :=
  if_neg fun hnew => h hnew.2.1

theorem savedNew_idle (d : Core) : savedNew s.kernel s'.kernel saved (d, 0) = saved (d, 0) :=
  if_neg fun hnew => hnew.1 rfl

theorem savedNew_self : savedNew s.kernel s.kernel saved = saved :=
  funext fun _ => if_neg fun hnew => hnew.2.2 hnew.2.1

/-- A process that waits to be switched in is in order, or this step has set it aside. -/
theorem SystemInv.parked (h : SystemInv s v) {op : Op} (hstep : s.Step src image op s')
    (hslot : r.2 ≠ 0) (hparked : (s'.kernel.table r).state.Parked)
    (hsaved : (s.kernel.table r).state.Parked → (saved r).Resumes r) :
    (savedNew s.kernel s'.kernel saved r).Resumes r ∨
      ((op = .yield r.1 ∨ ∃ w, op = .sleep r.1 w) ∧ s.kernel.current r.1 = some r) := by
  have hold : (s.kernel.table r).state.Parked →
      (savedNew s.kernel s'.kernel saved r).Resumes r := by
    intro hbefore
    rw [savedNew_eq hbefore.1]
    exact hsaved hbefore
  cases h.transition hstep hslot with
  | same hstate hwait =>
    rw [hstate] at hparked
    exact Or.inl (hold hparked)
  | created hbefore hafter =>
    refine Or.inl ?_
    rw [show savedNew s.kernel s'.kernel saved r = .pstart from
      if_pos ⟨hslot, hbefore, by rw [hafter]; decide⟩]
    trivial
  | scheduled hbefore hafter => exact absurd hafter hparked.2.1
  | yielded hop hcur hafter => exact Or.inr ⟨Or.inl hop, hcur⟩
  | slept w hop hcur hafter hwait => exact Or.inr ⟨Or.inr ⟨w, hop⟩, hcur⟩
  | woken hbefore hafter =>
    refine Or.inl (hold ?_)
    rw [hbefore]
    exact ⟨by decide, by decide, by decide⟩
  | exited hcore hcur hphase hafter hexit hsame => exact absurd hafter hparked.2.2
  | reaped pid hop hbefore hafter => exact absurd hafter hparked.1

/-- No current process waits to be switched in. -/
theorem SystemInv.not_parked (h : SystemInv s v) (hcur : s.kernel.current c = some r)
    (hslot : r.2 ≠ 0) : ¬(s.kernel.table r).state.Parked := fun hparked =>
  ((h.phases c).state hcur hslot).elim hparked.2.1 hparked.2.2

/-- The process that a core has switched to is in order. -/
theorem SystemInv.chosen (h : SystemInv s v) (h' : SystemInv s' v') {op : Op}
    (hstep : s.Step src image op s') (hslot : r.2 ≠ 0) (hphase : s'.phase c = .running)
    (hcur' : s'.kernel.current c = some r) (hcur : s.kernel.current c ≠ some r)
    (hsaved : (s.kernel.table r).state.Parked → (saved r).Resumes r) :
    (savedNew s.kernel s'.kernel saved r).Resumes r := by
  have hrunning := h'.state_of_runsUser ⟨hphase, hcur', hslot⟩
  have hcore := h'.sched.current_core c r hcur'
  cases h.transition hstep hslot with
  | same hstate hwait =>
    rw [hstate] at hrunning
    have hold := h.sched.running r hslot hrunning
    rw [hcore] at hold
    exact absurd hold hcur
  | scheduled hbefore hafter =>
    rw [savedNew_eq (by rw [hbefore]; decide)]
    exact hsaved (by rw [hbefore]; exact ⟨by decide, by decide, by decide⟩)
  -- the other edges end elsewhere
  | created hbefore hafter => exact absurd (hrunning.symm.trans hafter) (by decide)
  | yielded hop hcur hafter => exact absurd (hrunning.symm.trans hafter) (by decide)
  | slept w hop hcur hafter hwait => exact absurd (hrunning.symm.trans hafter) (by decide)
  | woken hbefore hafter => exact absurd (hrunning.symm.trans hafter) (by decide)
  | exited hcore hcur hphase hafter hexit hsame =>
    exact absurd (hrunning.symm.trans hafter) (by decide)
  | reaped pid hop hbefore hafter => exact absurd (hrunning.symm.trans hafter) (by decide)

/-- A user process of another core was there before. -/
theorem SystemInv.user_elsewhere (h : SystemInv s v) (h' : SystemInv s' v') {op : Op}
    (hstep : s.Step src image op s') (hd : d ≠ op.core) (hcur' : s'.kernel.current d = some r)
    (hslot : r.2 ≠ 0) : s.kernel.current d = some r := by
  obtain ⟨hphase, hcurrent⟩ := h.elsewhere hstep hd
  have hbooting : s.phase d ≠ .booting := by
    rw [← hphase]
    rcases h'.phases d r hcur' with ⟨h0, -⟩ | ⟨-, ⟨hp, -⟩ | ⟨hp | hp, -⟩⟩
    · exact absurd h0 hslot
    all_goals rw [hp]; decide
  exact (hcurrent hbooting).symm.trans hcur'

/-- A step of one core leaves the points of the others in order. -/
theorem SystemInv.point_elsewhere (h : SystemInv s v) {op : Op} (hstep : s.Step src image op s')
    (hd : d ≠ op.core) (hp : PointOk s d p) : PointOk s' d p := by
  obtain ⟨hphase, hcurrent⟩ := h.elsewhere hstep hd
  by_cases hbooting : s.phase d = .booting
  · -- a core that has not started is at no point that needs anything
    have hno : ∀ f : Section, ¬f.Allowed s d := fun f ha => ha.ne_booting hbooting
    have huser : ¬∃ r, s.RunsUser d r := by
      rintro ⟨r, hr⟩
      exact absurd (hbooting.symm.trans hr.1) (by decide)
    cases p with
    | enter f => exact absurd hp (hno f)
    | held f => exact absurd hp (hno f)
    | leave n =>
      cases n with
      | back => trivial
      | call f => exact absurd hp (hno f)
      | result res => exact absurd hp huser
    | result res => exact absurd hp huser
    | out => trivial
    | pstart => trivial
    | returned => exact hp
    | lost => exact hp
  · exact hp.congr hphase (hcurrent hbooting)

end

-- ---------------------------------------------------------------------------
-- The steps
-- ---------------------------------------------------------------------------

theorem worked_stay {system : System} (hcur : s.system.kernel.current c = some prev)
    (hcur' : system.kernel.current c = some prev) :
    s.worked c system p = ⟨system, s.lock, Function.update s.point c p,
      savedNew s.system.kernel system.kernel s.saved⟩ := by
  unfold Locked.worked
  simp only [hcur, hcur', if_true]
  rfl

theorem worked_switch {system : System} (hcur : s.system.kernel.current c = some prev)
    (hcur' : system.kernel.current c = some r) (hne : r ≠ prev) :
    s.worked c system p = ⟨system, s.lock,
      Function.update s.point c (savedNew s.system.kernel system.kernel s.saved r),
      Function.update (savedNew s.system.kernel system.kernel s.saved) prev p⟩ := by
  unfold Locked.worked
  simp only [hcur, hcur', if_neg hne, Function.update_of_ne hne]
  rfl

theorem worked_point {system : System} (hcur : s.system.kernel.current c = some prev)
    (hcur' : system.kernel.current c = some r) (hne : r ≠ prev) :
    (s.worked c system p).point c = savedNew s.system.kernel system.kernel s.saved r ∧
      (s.worked c system p).saved r = savedNew s.system.kernel system.kernel s.saved r := by
  rw [worked_switch hcur hcur' hne]
  exact ⟨Function.update_self .., Function.update_of_ne hne ..⟩

section

variable {point : Core → LockPoint}

/-- A core at a new point, in a system that has changed there only. -/
theorem points_update {system : System} (h : ∀ d, d ≠ c → PointOk system d (point d))
    (hp : PointOk system c p) (d : Core) : PointOk system d (Function.update point c p d) :=
  (Function.forall_update_iff point (PointOk system)).mpr ⟨hp, h⟩ d

end

theorem worked_system {system : System} : (s.worked c system p).system = system := by
  unfold Locked.worked
  dsimp only
  split
  · split <;> rfl
  · rfl

/-- Where a core goes on is no matter of what is in the memory. -/
theorem worked_withMem {system : System} {mem : Memory} : s.worked c (system.withMem mem) p =
    { s.worked c system p with system := (s.worked c system p).system.withMem mem } := by
  have hsaved : savedNew s.system.kernel (system.withMem mem).kernel s.saved =
      savedNew s.system.kernel system.kernel s.saved := rfl
  have hcur : (system.withMem mem).kernel.current c = system.kernel.current c := rfl
  rw [worked_system]
  unfold Locked.worked
  dsimp only
  rw [hsaved, hcur]
  split
  · split <;> rfl
  · rfl

/-- The process that core `c` has switched to goes on in front of a `spin_unlock`. -/
theorem LockInv.resumes (h : LockInv s) {system : System} (hv : SystemInv s.system v)
    (hv' : SystemInv system v') {op : Op} (hstep : s.system.Step src image op system)
    (hphase : system.phase c = .running) (hcur : s.system.kernel.current c = some prev)
    (hr : system.kernel.current c = some r) (hne : r ≠ prev) :
    (savedNew s.system.kernel system.kernel s.saved r).Resumes r := by
  by_cases hslot : r.2 = 0
  · -- the idle process was not current
    have hidle : r = (c, 0) := Prod.ext (hv'.sched.current_core c r hr) hslot
    have hprev : prev.2 ≠ 0 := fun h0 =>
      hne (hidle.trans (Prod.ext (hv.sched.current_core c prev hcur).symm h0.symm))
    rw [hidle, savedNew_idle, h.idle c prev hcur hprev]
    trivial
  · refine hv.chosen hv' hstep hslot hphase hr (fun hold => ?_) (h.user r hslot)
    exact hne (Option.some.inj (hold.symm.trans hcur))

/-- The memory has other contents. -/
theorem LockInv.withMem (h : LockInv s) (mem : Memory) :
    LockInv { s with system := s.system.withMem mem } := by
  obtain ⟨v, hv⟩ := h.system
  exact ⟨h.guards, ⟨v, hv.withMem mem⟩, fun d => (h.points d).congr rfl rfl, h.user, h.idle⟩

/-- A step of the system under the lock. -/
theorem LockInv.worked (h : LockInv s) (hheld : s.point c = .held f) {system : System} {op : Op}
    (hop : op.core = c) (hstep : s.system.Step src image op system) (hp : WorkOk s.system system c p) :
    LockInv (s.worked c system p) := by
  obtain ⟨v, hv⟩ := h.system
  have ha : f.Allowed s.system c := by
    have := h.points c
    rwa [hheld] at this
  have hinside : (s.point c).Inside := by rw [hheld]; trivial
  obtain ⟨prev, hcur⟩ := hv.started (hv.boot_ne ha.ne_booting) c
  have hcore := hv.sched.current_core c prev hcur
  obtain ⟨v', hv', -⟩ := hv.step hstep
  have hothers : ∀ d, d ≠ c → PointOk system d (s.point d) := fun d hd =>
    hv.point_elsewhere hstep (hop ▸ hd) (h.points d)
  by_cases hcur' : system.kernel.current c = some prev
  · -- no switch
    rw [worked_stay hcur hcur']
    refine ⟨h.guards.update (iff_of_true hinside hp.inside), ⟨v', hv'⟩,
      points_update hothers (hp.stay (hcur'.trans hcur.symm)),
      fun r hslot hparked => ?_, fun d r hr hslot => ?_⟩
    · rcases hv.parked hstep hslot hparked (h.user r hslot) with hresumes | ⟨hset, hold⟩
      · exact hresumes
      · -- the current process has not been set aside
        exfalso
        have hcr : c = r.1 := by rcases hset with rfl | ⟨w, rfl⟩ <;> exact hop.symm
        subst hcr
        obtain rfl := Option.some.inj (hold.symm.trans hcur)
        exact hv'.not_parked hcur' hslot hparked
    · show savedNew s.system.kernel system.kernel s.saved (d, 0) = _
      rw [savedNew_idle]
      by_cases hd : d = c
      · subst hd
        exact h.idle d r (hcur.trans (hcur'.symm.trans hr)) hslot
      · exact h.idle d r (hv.user_elsewhere hv' hstep (hop ▸ hd) hr hslot) hslot
  · -- a switch from `prev` to `r`
    obtain ⟨hphase, hidle, hleft⟩ := hp.switch prev hcur hcur'
    obtain ⟨r, hr⟩ := hv'.started (hv'.boot_ne (c := c) (by rw [hphase]; decide)) c
    have hne : r ≠ prev := fun he => hcur' (he ▸ hr)
    have hresumes := h.resumes hv hv' hstep hphase hcur hr hne
    rw [worked_switch hcur hr hne]
    refine ⟨h.guards.update (iff_of_true hinside hresumes.inside), ⟨v', hv'⟩,
      points_update hothers (hresumes.ok hphase hr), fun y hslot hparked => ?_,
      fun d y hy hslot => ?_⟩
    · show LockPoint.Resumes y
        (Function.update (savedNew s.system.kernel system.kernel s.saved) prev p y)
      by_cases hprev : y = prev
      · subst hprev
        rw [Function.update_self]
        exact hleft hparked
      · rw [Function.update_of_ne hprev]
        refine (hv.parked hstep hslot hparked (h.user y hslot)).resolve_right ?_
        rintro ⟨hset, hold⟩
        have hcy : c = y.1 := by rcases hset with rfl | ⟨w, rfl⟩ <;> exact hop.symm
        exact hprev (Option.some.inj (hold.symm.trans (hcy ▸ hcur)))
    · show Function.update (savedNew s.system.kernel system.kernel s.saved) prev p (d, 0) = _
      by_cases hidleNow : (d, 0) = prev
      · rw [hidleNow, Function.update_self]
        exact hidle (by rw [← hidleNow])
      rw [Function.update_of_ne hidleNow, savedNew_idle]
      by_cases hd : d = c
      · subst hd
        refine h.idle d prev hcur fun h0 => hidleNow (Prod.ext hcore.symm h0.symm)
      · exact h.idle d y (hv.user_elsewhere hv' hstep (hop ▸ hd) hy hslot) hslot

/-- The work of a section. -/
theorem LockInv.work (h : LockInv s) (hheld : s.point c = .held f) {system : System}
    (hbody : f.body src image s.system c = .ok (system, p)) : LockInv (s.worked c system p) := by
  obtain ⟨v, hv⟩ := h.system
  have ha : f.Allowed s.system c := by
    have := h.points c
    rwa [hheld] at this
  obtain ⟨s₁, mem, rfl, hs₁⟩ := Section.body_step ha hbody
  have hp : WorkOk s.system s₁ c p := (Section.body_ok hv ha hbody).of_withMem
  rw [worked_withMem]
  refine LockInv.withMem ?_ mem
  rcases hs₁ with rfl | ⟨op, -, hop, hstep⟩
  · obtain ⟨prev, hcur⟩ := hv.started (hv.boot_ne ha.ne_booting) c
    have hinside : (s.point c).Inside := by rw [hheld]; trivial
    rw [worked_stay hcur hcur, savedNew_self]
    exact ⟨h.guards.update (iff_of_true hinside hp.inside), ⟨v, hv⟩,
      points_update (fun d _ => h.points d) (hp.stay rfl), h.user, h.idle⟩
  · exact h.worked hheld hop hstep hp

/-- Of the steps outside `process_lock`, only `init_process` sets a current process. -/
theorem System.Step.current_eq {s s' : System} {op : Op} (hop : op.lockFree)
    (hinit : ¬∃ c, op = .init c) (hstep : s.Step src image op s') :
    s'.kernel.current = s.kernel.current := by
  cases op with
  | init c => exact absurd ⟨c, rfl⟩ hinit
  | openFile c path =>
    obtain ⟨y, -, hok⟩ := bind_eq_ok.mp hstep.2
    split at hok <;> cases hok <;> rfl
  | closeFile c fd =>
    obtain ⟨y, -, hok⟩ := bind_eq_ok.mp hstep.2
    obtain ⟨⟨files, file⟩, -, hok⟩ := bind_eq_ok.mp hok
    cases hok
    rfl
  | run c mem =>
    cases hstep.2
    rfl
  | _ => cases hop

/-- A step outside `process_lock` switches no core to a user process. -/
theorem SystemInv.lockFree_current {system : System} (h : SystemInv s.system v)
    (h' : SystemInv system v') {op : Op} (hop : op.lockFree)
    (hstep : s.system.Step src image op system) (hr : system.kernel.current d = some r)
    (hslot : r.2 ≠ 0) : s.system.kernel.current d = some r := by
  by_cases hd : d = op.core
  swap
  · exact h.user_elsewhere h' hstep hd hr hslot
  by_cases hinit : ∃ c, op = .init c
  · obtain ⟨c, rfl⟩ := hinit
    obtain rfl : d = c := hd
    exact absurd (h.init_current hstep hstep.1.1 hr) hslot
  · rw [← hstep.current_eq hop hinit]
    exact hr

/-- A step outside `process_lock`. -/
theorem LockInv.other (h : LockInv s) {op : Op} {system : System} (hout : s.point op.core = .out)
    (hop : op.lockFree) (hstep : s.system.Step src image op system) :
    LockInv { s with system, saved := savedNew s.system.kernel system.kernel s.saved } := by
  obtain ⟨v, hv⟩ := h.system
  obtain ⟨v', hv', -⟩ := hv.step hstep
  refine ⟨h.guards, ⟨v', hv'⟩, fun d => ?_, fun r hslot hparked => ?_, fun d r hr hslot => ?_⟩
  · by_cases hd : d = op.core
    · subst hd
      show PointOk system op.core (s.point op.core)
      rw [hout]
      trivial
    · exact hv.point_elsewhere hstep hd (h.points d)
  · refine (hv.parked hstep hslot hparked (h.user r hslot)).resolve_right ?_
    rintro ⟨rfl | ⟨w, rfl⟩, -⟩ <;> cases hop
  · show savedNew s.system.kernel system.kernel s.saved (d, 0) = _
    rw [savedNew_idle]
    exact h.idle d r (hv.lockFree_current hv' hop hstep hr hslot) hslot

/-- The loading part of `exec`. -/
theorem LockInv.exec (h : LockInv s) {name : Nat → BitVec 8} {returns : Bool} {k : Kernel}
    (hout : s.point c = .out) (hr : s.system.RunsUser c r)
    (hexec : TinyMultiCore.exec image s.system.kernel c r name = .ok (returns, k)) :
    LockInv { s.setPoint c (if returns then .out else .enter .exit) with
      system := s.system.withKernel k } := by
  obtain ⟨v, hv⟩ := h.system
  obtain ⟨hs, hcurrent, hstate, -⟩ := (exec_touches hexec).sched hv.sched
  have hkeep : SystemInv (s.system.withKernel k) v :=
    hv.keep (hv.boot_ne (c := c) (by rw [hr.1]; decide)) hs hcurrent fun _ y _ _ => hstate y
  refine ⟨h.guards.update ?_, ⟨v, hkeep⟩,
    points_update (fun d _ => (h.points d).congr rfl (congrFun hcurrent d)) ?_,
    fun y hslot hparked => ?_, fun d y hy hslot => ?_⟩
  · rw [hout]
    split <;> exact Iff.rfl
  · split
    · trivial
    · exact ⟨r, hr.1, (congrFun hcurrent c).trans hr.2.1, hr.2.2⟩
  · refine h.user y hslot ?_
    rw [← hstate y]
    exact hparked
  · exact h.idle d y ((congrFun hcurrent d).symm.trans hy) hslot

/-- **Every step** of every core keeps the invariant. The lock protects the work: a core that does the
work of a section holds it, so the others are outside, and what their points need is not touched. -/
theorem LockInv.step (h : LockInv s) (hstep : s.Step src image a s') : LockInv s' := by
  cases hstep with
  | call c f hout hf hallowed =>
    refine ⟨h.guards.update ?_, h.system, points_update (fun d _ => h.points d) hallowed,
      h.user, h.idle⟩
    rw [hout]
    exact Iff.rfl
  | acquire c f henter hfree =>
    have hg := h.guards
    have ha := h.points c
    rw [hfree] at hg
    rw [henter] at ha
    have hheld : Guards (some c) fun d => (Function.update s.point c (.held f) d).Inside :=
      hg.update_acquire trivial
    exact ⟨hheld, h.system, points_update (fun d _ => h.points d) ha, h.user, h.idle⟩
  | work c f system p hheld hbody => exact h.work hheld hbody
  | release c n hleave =>
    have ha := h.points c
    rw [hleave] at ha
    refine ⟨h.guards.update_release (c := c) (by rw [hleave]; trivial) ?_,
      h.system, points_update (fun d _ => h.points d) ?_, h.user, h.idle⟩
    · cases n <;> exact id
    · cases n with
      | back => trivial
      | call f => exact ha
      | result res => exact ha
  | result c res r hpoint hcur =>
    obtain ⟨v, hv⟩ := h.system
    refine ⟨h.guards.update ?_, ⟨v, hv.withMem _⟩,
      points_update (fun d _ => (h.points d).congr rfl rfl) trivial, h.user, h.idle⟩
    rw [hpoint]
    exact Iff.rfl
  | releaseStart c hstart =>
    exact ⟨h.guards.update_release (c := c) (by rw [hstart]; trivial) id,
      h.system, points_update (fun d _ => h.points d) trivial, h.user, h.idle⟩
  | goBack c hreturned =>
    have hc := h.points c
    rw [hreturned] at hc
    exact hc.elim
  | exec c r name returns k hout hr hexec => exact h.exec hout hr hexec
  | other op system hout hop hstep => exact h.other hout hop hstep

theorem LockInv.boot {mem : Memory} {s₀ : System} (hboot : boot src image mem = .ok s₀) :
    LockInv s₀.unlocked := by
  obtain ⟨hv, -⟩ := boot_inv hboot
  refine ⟨.none fun c hin => hin, ⟨_, hv⟩, fun c => trivial, fun r hslot hparked => ?_,
    fun c r hr => ?_⟩
  all_goals obtain ⟨heap, fcbTable, fileDescTable, -, rfl⟩ := boot_eq hboot
  · exact absurd rfl hparked.1
  · cases hr

/-- The run lemma. -/
theorem LockInv.run {as : List LockOp} (h : LockInv s)
    (hrun : Run (Locked.Step src image) s as s') : LockInv s' :=
  hrun.invariant (fun _ _ _ ht _ hstep => ht.step hstep) h fun _ _ _ _ _ _ => trivial

end TinyMultiCore
