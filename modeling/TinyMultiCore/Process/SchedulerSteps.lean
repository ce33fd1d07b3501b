import TinyMultiCore.Process.Scheduler

/-!
# The scheduler's invariant and the steps of the cores

`SystemInv s v`: the lists of the state `s` hold the sequences `v` that `Sched` asks
for, and every core's current process is as its phase says. A core that is in `exit`
is the one case in which a process is current and in a list. `Numbered n k v`: also
the numbers of the `n` processes created so far are all different, so that no
process is missing from the lists.

* `SystemInv.step` — every step of every core keeps the one, and the other as long as
  the numbers do not wrap around; one lemma `*_preserved` for each kind of step.
-/

namespace TinyMultiCore

open LinkedList TransitionSystem

variable {K : KernelImage} {src : FrameSource K} {image : Memory} {k k' : Kernel} {n : Nat}
  {v : ListId → List ProcRef} {c : Core} {r : ProcRef}

-- ---------------------------------------------------------------------------
-- Process numbers
-- ---------------------------------------------------------------------------

/-- The processes there are have different numbers, from the `n` given out so far. `pid_num` is
never set back, so they stay different when slots are used again, until the counter wraps. -/
structure Pids (k : Kernel) (n : Nat) : Prop where
  num : k.pidNum.toNat = 4 + n
  range : ∀ r, r.2 ≠ 0 → (k.table r).state ≠ .unused →
    4 ≤ (k.table r).pid.toNat ∧ (k.table r).pid.toNat < 4 + n
  inj : ∀ r r', r.2 ≠ 0 → r'.2 ≠ 0 → (k.table r).state ≠ .unused → (k.table r').state ≠ .unused →
    (k.table r).pid = (k.table r').pid → r = r'

theorem Pids.same (h : Pids k n) (hs : SamePids k k') : Pids k' n := by
  refine ⟨by rw [hs.1, h.num], fun r hslot hlive => ?_, fun r r' hslot hslot' hlive hlive' he => ?_⟩
  · obtain ⟨hlive, hpid⟩ := hs.2 r hslot hlive
    rw [hpid]
    exact h.range r hslot hlive
  · obtain ⟨hlive, hpid⟩ := hs.2 r hslot hlive
    obtain ⟨hlive', hpid'⟩ := hs.2 r' hslot' hlive'
    exact h.inj r r' hslot hslot' hlive hlive' (by rw [← hpid, ← hpid', he])

theorem Pids.create (h : Pids k n) (hn : n + 1 < 2 ^ 31) (hpid : (k'.table r).pid = k.pidNum)
    (hother : ∀ y, y ≠ r → k'.table y = k.table y) (hnum : k'.pidNum = k.pidNum + 1) :
    Pids k' (n + 1) := by
  refine ⟨?_, fun y hslot hlive => ?_, fun y y' hslot hslot' hlive hlive' he => ?_⟩
  · rw [hnum, BitVec.toNat_add, h.num]
    show (4 + n + 1) % 2 ^ 32 = 4 + (n + 1)
    omega
  · by_cases hy : y = r
    · rw [hy, hpid, h.num]
      omega
    · rw [hother y hy] at hlive ⊢
      have := h.range y hslot hlive
      omega
  · -- the new number is above all others
    have hold : ∀ z, z ≠ r → z.2 ≠ 0 → (k'.table z).state ≠ .unused →
        (k'.table z).pid ≠ (k'.table r).pid := by
      intro z hz hslot hlive heq
      rw [hother z hz] at hlive heq
      have hrange := h.range z hslot hlive
      rw [heq, hpid, h.num] at hrange
      omega
    by_cases hy : y = r <;> by_cases hy' : y' = r
    · rw [hy, hy']
    · exact absurd (hy ▸ he.symm) (hold y' hy' hslot' hlive')
    · exact absurd (hy' ▸ he) (hold y hy hslot hlive)
    · rw [hother y hy] at hlive he
      rw [hother y' hy'] at hlive' he
      exact h.inj y y' hslot hslot' hlive hlive' he

/-- A number of a process there is, as `yield` compares it. -/
theorem Pids.le_toInt (h : Pids k n) (hn : n < 2 ^ 31 - 4) (hslot : r.2 ≠ 0)
    (hlive : (k.table r).state ≠ .unused) : 4 ≤ (k.table r).pid.toInt := by
  have hrange := h.range r hslot hlive
  rw [BitVec.toInt_eq_toNat_of_lt (by omega)]
  omega

/-- All processes have a number of their own, and those that should be in a list are. -/
structure Numbered (n : Nat) (k : Kernel) (v : ListId → List ProcRef) : Prop where
  pids : Pids k n
  complete : Complete k v

/-- A step that creates `m` processes leaves all of them numbered. Whatever the numbers,
no sleeping and no dead process gets lost. -/
def Counts (m : Nat) (k : Kernel) (v : ListId → List ProcRef) (k' : Kernel)
    (v' : ListId → List ProcRef) : Prop :=
  (∀ n, n + m < 2 ^ 31 - 4 → Numbered n k v → Numbered (n + m) k' v') ∧
    ∀ q, q ≠ .ready → CompleteOn q k v → CompleteOn q k' v'

theorem Counts.same {v' : ListId → List ProcRef} (hc : KeepsLists k v k' v')
    (hs : SamePids k k') : Counts 0 k v k' v' :=
  ⟨fun _ _ h => ⟨h.pids.same hs, hc.complete h.complete⟩, fun q _ => hc q⟩

theorem Counts.trans {m m' : Nat} {k'' : Kernel} {v' v'' : ListId → List ProcRef}
    (h : Counts m k v k' v') (h' : Counts m' k' v' k'' v'') : Counts (m + m') k v k'' v'' := by
  refine ⟨fun n hn hN => ?_, fun q hq => h'.2 q hq ∘ h.2 q hq⟩
  rw [← Nat.add_assoc]
  exact h'.1 _ (by omega) (h.1 n (by omega) hN)

-- ---------------------------------------------------------------------------
-- Phases
-- ---------------------------------------------------------------------------

/-- What a core's phase says about its current process. -/
def PhaseOk (k : Kernel) (phase : Phase) (c : Core) : Prop :=
  ∀ r, k.current c = some r →
    (r.2 = 0 ∧ (phase = .booting ∨ phase = .running)) ∨
    (r.2 ≠ 0 ∧ ((phase = .running ∧ (k.table r).state = .running) ∨
      ((phase = .exiting ∨ phase = .switching) ∧ (k.table r).state = .killed)))

theorem PhaseOk.congr {phase : Phase} (h : PhaseOk k phase c) (hcur : k'.current c = k.current c)
    (hstate : ∀ r, k.current c = some r → r.2 ≠ 0 → (k'.table r).state = (k.table r).state) :
    PhaseOk k' phase c := by
  intro r hr
  rw [hcur] at hr
  refine (h r hr).imp id fun hr' => ⟨hr'.1, ?_⟩
  rw [hstate r hr hr'.1]
  exact hr'.2

/-- No current process is asleep, ready or unused. -/
theorem PhaseOk.state {phase : Phase} (h : PhaseOk k phase c) (hcur : k.current c = some r)
    (hslot : r.2 ≠ 0) : (k.table r).state = .running ∨ (k.table r).state = .killed := by
  rcases h r hcur with ⟨h0, -⟩ | ⟨-, ⟨-, hs⟩ | ⟨-, hs⟩⟩
  · exact absurd h0 hslot
  · exact Or.inl hs
  · exact Or.inr hs

/-- Where a core has switched to another process, it was the idle one exactly when no
process was ready, and the page map of the new one was loaded. -/
def Switches (k k' : Kernel) : Prop :=
  ∀ c prev r, k.current c = some prev → k'.current c = some r → r ≠ prev →
    (r.2 = 0 ↔ k.lists.isListEmpty (c, .ready)) ∧ k'.ttbr0 c = v2p (k'.table r).pageMap

theorem Switches.of_current (h : k'.current = k.current) : Switches k k' := by
  intro c prev r hprev hcur hne
  rw [h, hprev] at hcur
  exact absurd (Option.some.inj hcur).symm hne

theorem Switches.of_resched (h : Resched k k' c) : Switches k k' := by
  obtain ⟨r', hcurrent, -, -, hload⟩ := h
  intro c' prev r hprev hcur hne
  rw [hcurrent] at hcur
  by_cases hc : c' = c
  · subst hc
    rw [Function.update_self] at hcur
    obtain rfl := Option.some.inj hcur
    obtain ⟨hidle, hload⟩ := hload fun he => hne (Option.some.inj (hprev.symm.trans he)).symm
    exact ⟨hidle, by rw [hload, Function.update_self]⟩
  · rw [Function.update_of_ne hc, hprev] at hcur
    exact absurd (Option.some.inj hcur).symm hne

/-- The invariant of the running system. Before core 0 is done with `init_process` there are no
processes and no core runs; from then on every core has a current process. -/
structure SystemInv (s : System) (v : ListId → List ProcRef) : Prop where
  sched : Sched s.kernel v
  phases : ∀ c, PhaseOk s.kernel (s.phase c) c
  booting : s.phase 0 = .booting → (∀ c, s.phase c = .booting) ∧
    (∀ c, s.kernel.current c = none) ∧ ∀ r, (s.kernel.table r).state = .unused
  started : s.phase 0 ≠ .booting → ∀ c, ∃ r, s.kernel.current c = some r

/-- What a step that creates `m` processes leaves: the invariant, for the sequences that are in
the lists then, and all processes numbered. -/
def Preserved (m : Nat) (s : System) (v : ListId → List ProcRef) (s' : System) : Prop :=
  ∃ v', SystemInv s' v' ∧ Counts m s.kernel v s'.kernel v' ∧
    (m = 0 → SamePids s.kernel s'.kernel) ∧ Switches s.kernel s'.kernel

namespace SystemInv

variable {s s' : System}

theorem boot_ne (h : SystemInv s v) (hc : s.phase c ≠ .booting) : s.phase 0 ≠ .booting :=
  fun h0 => hc ((h.booting h0).1 c)

theorem state_of_runsUser (h : SystemInv s v) (hr : s.RunsUser c r) :
    (s.kernel.table r).state = .running := by
  obtain ⟨hphase, hcur, hslot⟩ := hr
  rcases h.phases c r hcur with ⟨h0, -⟩ | ⟨-, ⟨-, hs⟩ | ⟨hex | hsw, -⟩⟩
  · exact absurd h0 hslot
  · exact hs
  · exact absurd (hphase.symm.trans hex) (by decide)
  · exact absurd (hphase.symm.trans hsw) (by decide)

/-- A core that is in `exit` has killed its process. -/
theorem killed (h : SystemInv s v) (hcur : s.kernel.current c = some r)
    (hphase : s.phase c = .exiting ∨ s.phase c = .switching) :
    r.2 ≠ 0 ∧ (s.kernel.table r).state = .killed := by
  rcases h.phases c r hcur with ⟨-, hp⟩ | ⟨hslot, ⟨hp, -⟩ | ⟨-, hkilled⟩⟩
  · rcases hphase with he | he <;> rw [he] at hp <;> rcases hp with hp | hp <;> cases hp
  · rcases hphase with he | he <;> rw [he] at hp <;> cases hp
  · exact ⟨hslot, hkilled⟩

/-- A step that reschedules core `c`, which runs afterwards. -/
theorem resched {v' : ListId → List ProcRef} (h : SystemInv s v) (h0 : s.phase 0 ≠ .booting)
    (hs : Sched k' v') (hre : Resched s.kernel k' c) :
    SystemInv ((s.withKernel k').withPhase c .running) v' := by
  obtain ⟨r, hcurrent, hrun, hframe, -⟩ := hre
  refine ⟨hs, fun c' => ?_, fun hboot => ?_, fun _ c' => ?_⟩
  · show PhaseOk k' (Function.update s.phase c .running c') c'
    by_cases hc : c' = c
    · subst hc
      rw [Function.update_self]
      intro r' hr'
      rw [hcurrent, Function.update_self] at hr'
      obtain rfl := Option.some.inj hr'
      by_cases hslot : r.2 = 0
      · exact Or.inl ⟨hslot, Or.inr rfl⟩
      · exact Or.inr ⟨hslot, Or.inl ⟨rfl, hrun hslot⟩⟩
    · rw [Function.update_of_ne hc]
      refine (h.phases c').congr (by rw [hcurrent, Function.update_of_ne hc]) fun r' hr' _ => ?_
      rw [hframe r' (by rw [h.sched.current_core c' r' hr']; exact hc)]
  · exfalso
    have hphase : Function.update s.phase c .running 0 = Phase.booting := hboot
    by_cases hc : 0 = c
    · rw [← hc, Function.update_self] at hphase
      cases hphase
    · rw [Function.update_of_ne hc] at hphase
      exact h0 hphase
  · show ∃ r', k'.current c' = some r'
    rw [hcurrent]
    by_cases hc : c' = c
    · rw [hc, Function.update_self]
      exact ⟨r, rfl⟩
    · rw [Function.update_of_ne hc]
      exact h.started h0 c'

/-- A step that leaves the current processes and the phases alone. -/
theorem keep {v' : ListId → List ProcRef} (h : SystemInv s v)
    (h0 : s.phase 0 ≠ .booting) (hs : Sched k' v') (hcurrent : k'.current = s.kernel.current)
    (hstate : ∀ c r, s.kernel.current c = some r → r.2 ≠ 0 →
      (k'.table r).state = (s.kernel.table r).state) : SystemInv (s.withKernel k') v' := by
  refine ⟨hs, fun c => ?_, fun hboot => absurd hboot h0, fun _ c => ?_⟩
  rotate_left
  · rw [show (s.withKernel k').kernel.current c = s.kernel.current c from congrFun hcurrent c]
    exact h.started h0 c
  exact (h.phases c).congr (congrFun hcurrent c) (hstate c)

/-- A step in `exit` of core `c`, which has killed its current process. -/
theorem inExit {v' : ListId → List ProcRef} {phase : Phase} (h : SystemInv s v)
    (h0 : s.phase 0 ≠ .booting) (hphase : phase = .exiting ∨ phase = .switching)
    (hs : Sched k' v') (hcurrent : k'.current = s.kernel.current)
    (hcur : s.kernel.current c = some r) (hslot : r.2 ≠ 0) (hkilled : (k'.table r).state = .killed)
    (hstate : ∀ c' r', c' ≠ c → s.kernel.current c' = some r' → r'.2 ≠ 0 →
      (k'.table r').state = (s.kernel.table r').state) :
    SystemInv ((s.withKernel k').withPhase c phase) v' := by
  refine ⟨hs, fun c' => ?_, fun hboot => ?_, fun _ c' => ?_⟩
  · show PhaseOk k' (Function.update s.phase c phase c') c'
    by_cases hc : c' = c
    · subst hc
      rw [Function.update_self]
      intro r' hr'
      rw [hcurrent, hcur] at hr'
      obtain rfl := Option.some.inj hr'
      exact Or.inr ⟨hslot, Or.inr ⟨hphase, hkilled⟩⟩
    · rw [Function.update_of_ne hc]
      exact (h.phases c').congr (congrFun hcurrent c') (hstate c' · hc)
  · exfalso
    have hboot : Function.update s.phase c phase 0 = Phase.booting := hboot
    by_cases hc : 0 = c
    · rw [← hc, Function.update_self] at hboot
      rcases hphase with rfl | rfl <;> cases hboot
    · rw [Function.update_of_ne hc] at hboot
      exact h0 hboot
  · show ∃ r', k'.current c' = some r'
    rw [hcurrent]
    exact h.started h0 c'

theorem withPhase_self (hc : s.phase c = .running) : s.withPhase c .running = s := by
  unfold System.withPhase
  rw [← hc, Function.update_eq_self]

/-- The state of a current process is none that `wake_up` changes. -/
theorem woken (h : SystemInv s v) (hw : Woken s.kernel k') (hcur : s.kernel.current c = some r)
    (hslot : r.2 ≠ 0) : k'.table r = s.kernel.table r := by
  refine hw.2 r ?_
  rcases (h.phases c).state hcur hslot with hs | hs
  · rw [hs]
    decide
  · rw [hs]
    decide

/-- `exit`, from a kernel `k` whose processes are those of the state. -/
theorem exit {k : Kernel} (h : SystemInv s v) (hr : s.RunsUser c r)
    (hs : Sched k v) (hcurrent : k.current = s.kernel.current)
    (hstate : ∀ y, (k.table y).state = (s.kernel.table y).state)
    (hpids : SamePids s.kernel k) (hok : exitKill k c = .ok k') :
    Preserved 0 s v ((s.withKernel k').withPhase c .exiting) := by
  have hrun := h.state_of_runsUser hr
  obtain ⟨hphase, hcur, hslot⟩ := hr
  have h0 := h.boot_ne (c := c) (by rw [hphase]; decide)
  obtain ⟨v', hs', hc', hcurrent', hkilled, hframe, hpids'⟩ :=
    exitKill_spec hs (by rw [hcurrent, hcur]) hslot (by rw [hstate, hrun]) hok
  refine ⟨v', h.inExit h0 (Or.inl rfl) hs' (hcurrent'.trans hcurrent) hcur hslot hkilled ?_,
    .same (.trans (.of_state hstate) hc') (hpids.trans hpids'),
    fun _ => hpids.trans hpids', .of_current (hcurrent'.trans hcurrent)⟩
  intro c' r' hc hcur' _
  rw [hframe r' (by rw [h.sched.current_core c' r' hcur']; exact hc), hstate]

end SystemInv

/-- `init_idle_process` in the first state. -/
theorem initIdleProcess_sched (h : Sched k v)
    (hunused : ∀ r, (k.table r).state = .unused) :
    Sched (initIdleProcess K k) v ∧ ∀ r, r.2 ≠ 0 → (initIdleProcess K k).table r = k.table r := by
  have hslot : ∀ r : ProcRef, r.2 ≠ 0 → (initIdleProcess K k).table r = k.table r :=
    fun r hr => if_neg hr
  refine ⟨⟨h.queues, fun c q r hmem => ?_, fun r hr hrun => ?_, fun c r hr => ?_, fun c => ?_⟩, hslot⟩
  · obtain ⟨hc, hr, hstate⟩ := h.mem c q r hmem
    exact ⟨hc, hr, by rw [hslot r hr, hstate]⟩
  · rw [hslot r hr, hunused] at hrun
    cases hrun
  · rw [← Option.some.inj hr]
  · show (if (0 : Fin 30) = 0 then idleProcess K (k.table (c, 0)) c else k.table (c, 0)).pid.toInt < 4
    rw [if_pos rfl]
    revert c
    show ∀ c : Fin 4, (BitVec.ofNat 32 c.val).toInt < 4
    decide

namespace SystemInv

variable {s s' : System}

/-- A new process. -/
theorem create (h : SystemInv s v) (h0 : s.phase 0 ≠ .booting)
    (hcreate : Creates s.kernel c r k') :
    ∃ v', SystemInv (s.withKernel k') v' ∧ Counts 1 s.kernel v k' v' ∧
      k'.current = s.kernel.current := by
  obtain ⟨v', hs, hc, -, -, hunused, hcurrent, -, hpid, hother, hnum⟩ := hcreate.sched h.sched
  refine ⟨v', h.keep h0 hs hcurrent fun c' r' hcur hslot => ?_,
    ⟨fun n hn hN => ⟨hN.pids.create (by omega) hpid hother hnum, hc.complete hN.complete⟩,
      fun q _ => hc q⟩, hcurrent⟩
  have hne : r' ≠ r := by
    rintro rfl
    have hlive := (h.phases c').state hcur hslot
    rw [hunused] at hlive
    exact hlive.elim (fun he => by cases he) fun he => by cases he
  rw [hother r' hne]

/-- The idle processes are set up, and core 0 runs. -/
theorem initIdle (h : SystemInv s v) (h0 : s.phase 0 = .booting) :
    SystemInv ((s.withKernel (initIdleProcess K s.kernel)).withPhase 0 .running) v ∧
      Counts 0 s.kernel v (initIdleProcess K s.kernel) v := by
  obtain ⟨hboot, -, hunused⟩ := h.booting h0
  obtain ⟨hs, hslot⟩ := initIdleProcess_sched (K := K) h.sched hunused
  refine ⟨⟨hs, fun c r hr => Or.inl ?_, fun hphase => ?_, fun _ c => ⟨(c, 0), rfl⟩⟩,
    .same (fun q hc r hr hstate => ?_) ⟨rfl, fun r hr hlive => ?_⟩⟩
  rotate_left 2
  · rw [hslot r hr] at hstate
    exact hc r hr hstate
  · rw [hslot r hr] at hlive
    exact absurd (hunused r) hlive
  · refine ⟨by rw [← Option.some.inj hr], ?_⟩
    show Function.update s.phase 0 .running c = _ ∨ Function.update s.phase 0 .running c = _
    by_cases hc : c = 0
    · rw [hc, Function.update_self]
      exact Or.inr rfl
    · rw [Function.update_of_ne hc, hboot c]
      exact Or.inl rfl
  · exfalso
    have : Function.update s.phase 0 .running 0 = Phase.booting := hphase
    rw [Function.update_self] at this
    cases this

/-- Another core starts to run. -/
theorem start (h : SystemInv s v) (h0 : s.phase 0 ≠ .booting) (hc : s.phase c = .booting) :
    SystemInv (s.withPhase c .running) v := by
  have hne : (0 : Core) ≠ c := fun he => h0 (by rw [he, hc])
  refine ⟨h.sched, fun c' r hr => ?_, fun hboot => ?_, fun _ => h.started h0⟩
  · show (r.2 = 0 ∧ (Function.update s.phase c .running c' = _ ∨ _)) ∨ _
    by_cases hc' : c' = c
    · subst hc'
      rcases h.phases c' r hr with ⟨hslot, -⟩ | ⟨-, ⟨hrun, -⟩ | ⟨hrun | hrun, -⟩⟩
      · refine Or.inl ⟨hslot, Or.inr ?_⟩
        exact Function.update_self ..
      · rw [hc] at hrun
        cases hrun
      · rw [hc] at hrun
        cases hrun
      · rw [hc] at hrun
        cases hrun
    · have hphase : (s.withPhase c .running).phase c' = s.phase c' := Function.update_of_ne hc' ..
      have hold := h.phases c' r hr
      rw [← hphase] at hold
      exact hold
  · have hphase : Function.update s.phase c .running 0 = Phase.booting := hboot
    rw [Function.update_of_ne hne] at hphase
    exact absurd hphase h0

/-- `init_process` on core `c`. -/
theorem init (h : SystemInv s v) (hen : s.phase c = .booting ∧ (c = 0 ∨ s.phase 0 ≠ .booting))
    (hok : initProcess src image s.kernel c = .ok k') :
    ∃ v', SystemInv ((s.withKernel k').withPhase c .running) v' ∧
      Counts (Op.init c).created s.kernel v k' v' ∧ Switches s.kernel k' := by
  rcases initProcess_cases hok with ⟨rfl, k₁, hok₁, hok⟩ | ⟨hc, hok⟩
  · obtain ⟨r₁, hcreate₁⟩ := initProgram_creates hok₁
    obtain ⟨r₂, hcreate₂⟩ := initProgram_creates hok
    obtain ⟨hidle, hcounts⟩ := h.initIdle (K := K) hen.1
    have h0 : ((s.withKernel (initIdleProcess K s.kernel)).withPhase 0 .running).phase 0 ≠
        .booting := by
      show Function.update s.phase 0 .running 0 ≠ _
      rw [Function.update_self]
      decide
    obtain ⟨v₁, h₁, hcounts₁, -⟩ := hidle.create h0 hcreate₁
    obtain ⟨v₂, h₂, hcounts₂, -⟩ := h₁.create h0 hcreate₂
    refine ⟨v₂, h₂, (hcounts.trans hcounts₁).trans hcounts₂, fun c prev r hprev => ?_⟩
    -- nothing was current before
    rw [(h.booting hen.1).2.1] at hprev
    cases hprev
  · obtain ⟨r₁, hcreate₁⟩ := initProgram_creates hok
    have h0 := hen.2.resolve_left hc
    have hrunning : (s.withPhase c .running).phase 0 ≠ .booting := by
      show Function.update s.phase c .running 0 ≠ _
      rw [Function.update_of_ne (Ne.symm hc)]
      exact h0
    obtain ⟨v₁, h₁, hcounts₁, hcurrent⟩ := (h.start h0 hen.1).create hrunning hcreate₁
    refine ⟨v₁, h₁, ?_, .of_current hcurrent⟩
    rw [show (Op.init c).created = 1 from if_neg hc]
    exact hcounts₁

/-- `yield`: the caller goes to the end of the ready list, and the first of it runs. -/
theorem yield_preserved (h : SystemInv s v) (hphase : s.phase c = .running)
    (hok : yieldCpu s.kernel c = .ok k') : Preserved 0 s v (s.withKernel k') := by
  have h0 := h.boot_ne (c := c) (by rw [hphase]; decide)
  obtain ⟨r, hcur⟩ := h.started h0 c
  have hrun : r.2 ≠ 0 → (s.kernel.table r).state = .running :=
    fun hslot => h.state_of_runsUser ⟨hphase, hcur, hslot⟩
  obtain ⟨v', hs, hc, hre, hpids⟩ := yieldCpu_spec h.sched hcur hrun hok
  have hres := h.resched h0 hs hre
  rw [withPhase_self (s := s.withKernel k') hphase] at hres
  refine ⟨v', hres, ⟨fun n hn hN => ⟨hN.pids.same hpids, fun q => ?_⟩,
    fun q hq => hc q fun hr => absurd hr hq⟩, fun _ => hpids, .of_resched hre⟩
  -- `yield` keeps a process in the lists by its number, which has to be one from 4 on
  refine hc q (fun _ hslot => ?_) (hN.complete q)
  exact hN.pids.le_toInt (by omega) hslot (by rw [hrun hslot]; decide)

theorem sleep_preserved {wait : U32} (h : SystemInv s v) (hr : s.RunsUser c r)
    (hok : sleepOn s.kernel c wait = .ok k') : Preserved 0 s v (s.withKernel k') := by
  have hrun := h.state_of_runsUser hr
  obtain ⟨hphase, hcur, hslot⟩ := hr
  have h0 := h.boot_ne (c := c) (by rw [hphase]; decide)
  obtain ⟨v', hs, hc, hre, hpids⟩ := sleepOn_spec h.sched hcur hslot hrun hok
  have hres := h.resched h0 hs hre
  rw [withPhase_self (s := s.withKernel k') hphase] at hres
  exact ⟨v', hres, .same hc hpids, fun _ => hpids, .of_resched hre⟩

theorem wakeUp_preserved {wait : U32} (h : SystemInv s v) (hphase : s.phase c = .running)
    (hok : wakeUp s.kernel wait = .ok k') : Preserved 0 s v (s.withKernel k') := by
  have h0 := h.boot_ne (c := c) (by rw [hphase]; decide)
  obtain ⟨v', hs, hc, hw, hpids⟩ := wakeUp_spec h.sched hok
  exact ⟨v', h.keep h0 hs hw.1 (fun c r hcur hslot => by rw [h.woken hw hcur hslot]),
    .same hc hpids, fun _ => hpids, .of_current hw.1⟩

/-- The parent of a process that has killed itself is woken up. -/
theorem exitWake_preserved {wait : U32} (h : SystemInv s v) (hphase : s.phase c = .exiting)
    (hok : wakeUp s.kernel wait = .ok k') :
    Preserved 0 s v ((s.withKernel k').withPhase c .switching) := by
  have h0 := h.boot_ne (c := c) (by rw [hphase]; decide)
  obtain ⟨r, hcur⟩ := h.started h0 c
  obtain ⟨v', hs, hc, hw, hpids⟩ := wakeUp_spec h.sched hok
  obtain ⟨hslot, hkilled⟩ := h.killed hcur (Or.inl hphase)
  refine ⟨v', h.inExit h0 (Or.inr rfl) hs hw.1 hcur hslot ?_ (fun c' r' _ hcur' hslot' => ?_),
    .same hc hpids, fun _ => hpids, .of_current hw.1⟩
  · rw [h.woken hw hcur hslot, hkilled]
  · rw [h.woken hw hcur' hslot']

/-- And the core leaves the dead process. -/
theorem exitSchedule_preserved (h : SystemInv s v) (hphase : s.phase c = .switching)
    (hok : schedule s.kernel c = .ok k') :
    Preserved 0 s v ((s.withKernel k').withPhase c .running) := by
  have h0 := h.boot_ne (c := c) (by rw [hphase]; decide)
  obtain ⟨r, hcur⟩ := h.started h0 c
  obtain ⟨-, hkilled⟩ := h.killed hcur (Or.inr hphase)
  obtain ⟨v', r', hs, hc, hcurrent, hrun, hframe, hpids, hidle, hload⟩ :=
    schedule_spec h.sched hcur (fun _ => by rw [hkilled]; decide) hok
  have hre : Resched s.kernel k' c := by
    refine ⟨r', hcurrent, hrun, hframe, fun hne => ⟨hidle, hload ?_⟩⟩
    rintro rfl
    exact hne hcur
  exact ⟨v', h.resched h0 hs hre, .same hc hpids, fun _ => hpids, .of_resched hre⟩

theorem wait_preserved {pid : U32} {reaped : Bool} (h : SystemInv s v) (hr : s.RunsUser c r)
    (hok : waitTurn src s.kernel c pid = .ok (reaped, k')) :
    Preserved 0 s v (s.withKernel k') := by
  have hrun := h.state_of_runsUser hr
  obtain ⟨hphase, hcur, hslot⟩ := hr
  have h0 := h.boot_ne (c := c) (by rw [hphase]; decide)
  obtain ⟨v', hs, hc, hcurrent, hpids, hsame⟩ := waitTurn_spec h.sched hok
  refine ⟨v', h.keep h0 hs hcurrent (fun c' r' hcur' _ => ?_), .same hc hpids,
    fun _ => hpids, .of_current hcurrent⟩
  rw [hsame r' ?_]
  by_cases hc : c' = c
  · -- the caller itself is running
    subst hc
    obtain rfl := Option.some.inj (hcur.symm.trans hcur')
    rw [hrun]
    exact Or.inl (by decide)
  · exact Or.inr (by rw [h.sched.current_core c' r' hcur']; exact hc)

theorem fork_preserved {res : Option ProcRef} (h : SystemInv s v) (hr : s.RunsUser c r)
    (hok : sysFork src s.kernel c = .ok (res, k')) : Preserved 1 s v (s.withKernel k') := by
  have h0 := h.boot_ne (c := c) (by rw [hr.1]; decide)
  obtain ⟨r', -, hcreate⟩ := sysFork_creates hok
  obtain ⟨v', h', hcounts, hcurrent⟩ := h.create h0 hcreate
  exact ⟨v', h', hcounts, fun h0 => absurd h0 Nat.one_ne_zero, .of_current hcurrent⟩

/-- A process opens and closes files, and writes to its memory: nobody is moved. -/
theorem touches_preserved {y : ProcRef} (h : SystemInv s v) (hr : s.RunsUser c r)
    (ht : TouchesFiles s.kernel y k') : Preserved 0 s v (s.withKernel k') := by
  have h0 := h.boot_ne (c := c) (by rw [hr.1]; decide)
  obtain ⟨hs, hcurrent, hstate, hpids⟩ := ht.sched h.sched
  exact ⟨v, h.keep h0 hs hcurrent (fun _ r _ _ => hstate r),
    .same (.of_state hstate) hpids, fun _ => hpids, .of_current hcurrent⟩

/-- `exec` returns, or it goes on to `exit`. -/
theorem exec_preserved {name : Nat → BitVec 8} (h : SystemInv s v) (hr : s.RunsUser c r)
    (hok : s.next src image (.exec c name) = .ok s') : Preserved 0 s v s' := by
  obtain ⟨r', hcur', hok⟩ := bind_eq_ok.mp hok
  obtain rfl : r = r' := Option.some.inj (hr.2.1.symm.trans (deref_eq_ok.mp hcur'))
  obtain ⟨⟨returns, k'⟩, hexec, hok⟩ := bind_eq_ok.mp hok
  dsimp only at hok
  by_cases hret : returns = true
  · rw [if_pos hret] at hok
    cases hok
    exact h.touches_preserved hr (exec_touches hexec)
  · rw [if_neg hret] at hok
    obtain ⟨k'', hk, hs'⟩ := bind_eq_ok.mp hok
    cases hs'
    obtain ⟨hs, hcurrent, hstate, hpids⟩ := (exec_touches hexec).sched h.sched
    exact h.exit hr hs hcurrent hstate hpids hk

theorem openFile_preserved {path : Nat → BitVec 8} (h : SystemInv s v) (hr : s.RunsUser c r)
    (hok : s.next src image (.openFile c path) = .ok s') : Preserved 0 s v s' := by
  obtain ⟨r', -, hok⟩ := bind_eq_ok.mp hok
  cases hopen : openFile image s.kernel.files (s.kernel.table r').file path with
  | none =>
    rw [hopen] at hok
    cases hok
    exact ⟨v, h, .same (fun _ => id) (.refl _), fun _ => .refl _, .of_current rfl⟩
  | some x =>
    rw [hopen] at hok
    cases hok
    exact h.touches_preserved (y := r') hr ⟨x.2.2, s.kernel.heap, x.2.1, rfl⟩

/-- **Every step keeps the invariant.** One lemma for each kind of step does the work; the lists that
they describe are those of the state before, changed where the step has moved a process. -/
theorem step {op : Op} (h : SystemInv s v) (hstep : s.Step src image op s') :
    ∃ v', SystemInv s' v' ∧ Counts op.created s.kernel v s'.kernel v' ∧
      (op.created = 0 → SamePids s.kernel s'.kernel) ∧ Switches s.kernel s'.kernel := by
  obtain ⟨hen, hok⟩ := hstep
  cases op with
  | init c =>
    obtain ⟨k', hk, hs'⟩ := bind_eq_ok.mp hok
    cases hs'
    obtain ⟨v', h', hcounts, hcurrent⟩ := h.init hen hk
    refine ⟨v', h', hcounts, fun h0 => ?_, hcurrent⟩
    change (if c = 0 then 2 else 1) = 0 at h0
    split at h0 <;> omega
  | yield c =>
    obtain ⟨k', hk, hs'⟩ := bind_eq_ok.mp hok
    cases hs'
    exact h.yield_preserved hen hk
  | sleep c wait =>
    obtain ⟨k', hk, hs'⟩ := bind_eq_ok.mp hok
    cases hs'
    obtain ⟨r, hr⟩ := hen
    exact h.sleep_preserved hr hk
  | wakeUp c wait =>
    obtain ⟨k', hk, hs'⟩ := bind_eq_ok.mp hok
    cases hs'
    exact h.wakeUp_preserved hen hk
  | exit c =>
    obtain ⟨k', hk, hs'⟩ := bind_eq_ok.mp hok
    cases hs'
    obtain ⟨r, hr⟩ := hen
    exact h.exit hr h.sched rfl (fun _ => rfl) (.refl _) hk
  | exitWake c =>
    obtain ⟨k', hk, hs'⟩ := bind_eq_ok.mp hok
    cases hs'
    exact h.exitWake_preserved hen hk
  | exitSchedule c =>
    obtain ⟨k', hk, hs'⟩ := bind_eq_ok.mp hok
    cases hs'
    exact h.exitSchedule_preserved hen hk
  | wait c pid =>
    obtain ⟨⟨reaped, k'⟩, hk, hs'⟩ := bind_eq_ok.mp hok
    cases hs'
    obtain ⟨r, hr⟩ := hen
    exact h.wait_preserved hr hk
  | fork c =>
    obtain ⟨⟨res, k'⟩, hk, hs'⟩ := bind_eq_ok.mp hok
    cases hs'
    obtain ⟨r, hr⟩ := hen
    exact h.fork_preserved hr hk
  | exec c name =>
    obtain ⟨r, hr⟩ := hen
    exact h.exec_preserved hr hok
  | openFile c path =>
    obtain ⟨r, hr⟩ := hen
    exact h.openFile_preserved hr hok
  | closeFile c fd =>
    obtain ⟨r, hr, -⟩ := hen
    obtain ⟨r', -, hok⟩ := bind_eq_ok.mp hok
    obtain ⟨⟨files, file⟩, -, hok⟩ := bind_eq_ok.mp hok
    cases hok
    exact h.touches_preserved (y := r') hr ⟨file, s.kernel.heap, files, rfl⟩
  | run c mem =>
    obtain ⟨r, hr, -⟩ := hen
    have h0 := h.boot_ne (c := c) (by rw [hr.1]; decide)
    cases hok
    exact ⟨v, h.keep h0 (h.sched.congr (fun _ => rfl) (fun _ => rfl) rfl rfl) rfl
      (fun _ _ _ _ => rfl), .same (.of_state fun _ => rfl) (.refl _),
      fun _ => .refl _, .of_current rfl⟩

end SystemInv

end TinyMultiCore
