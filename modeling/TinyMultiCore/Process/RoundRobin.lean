import TinyMultiCore.Lib.Rotation
import TinyMultiCore.Process.SchedulerRuns

/-!
# The timer's round robin

`handler` calls `yield` on every tick. `Turning n s v c r ps`: in the state `s`, which
satisfies the invariants of the scheduler, core `c` runs `r` and has the processes `ps` in
its ready list, in this order.

* `Turning.yield` — one `yield`: the first ready process runs, and the one before is the
  last ready one, unless it is the idle process;
* `Turning.turns` — any number of them, among user processes;
* `yields_rotate` — what that says in the states that runs of the system reach.
-/

namespace TinyMultiCore

open LinkedList TransitionSystem

variable {K : KernelImage} {src : FrameSource K} {image : Memory} {k : Kernel} {n : Nat}
  {v : ListId → List ProcRef} {c : Core} {r p : ProcRef} {ps : List ProcRef} {s : System}

-- ---------------------------------------------------------------------------
-- One `yield`
-- ---------------------------------------------------------------------------

/-- `schedule` with a process that is ready. -/
theorem schedule_cons (h : Queues k.lists v) (hv : v (c, .ready) = p :: ps)
    (hcur : k.current c = some r) (hne : r ≠ p) :
    ∃ k', schedule k c = .ok k' ∧ k'.current c = some p ∧
      Queues k'.lists (Function.update v (c, .ready) ps) := by
  obtain ⟨lists, hremove, hq⟩ := h.removeHead hv
  unfold schedule
  rw [Kernel.currentProcess, hcur, show deref (some r) = .ok r from rfl, ok_bind, hremove]
  dsimp only
  rw [if_neg hne]
  exact ⟨_, rfl, Function.update_self .., hq⟩

/-- `yield` with a process that is ready. -/
theorem yieldCpu_cons (h : Sched k v) (hcur : k.current c = some r)
    (hrun : r.2 ≠ 0 → (k.table r).state = .running)
    (huser : r.2 ≠ 0 → 4 ≤ (k.table r).pid.toInt) (hv : v (c, .ready) = p :: ps) :
    ∃ k', yieldCpu k c = .ok k' ∧ k'.current c = some p ∧
      LinkedList.Represents k'.lists.next (k'.lists.head (c, .ready))
        (ps ++ if r.2 = 0 then [] else [r]) := by
  have hmem : p ∈ v (c, .ready) := by
    rw [hv]
    exact List.mem_cons_self
  have hne : r ≠ p := by
    rintro rfl
    obtain ⟨-, hslot, hready⟩ := h.mem c .ready r hmem
    rw [hrun hslot] at hready
    cases hready
  have hempty : ¬k.lists.isListEmpty (c, .ready) := by
    rw [h.queues.isListEmpty_iff, hv]
    simp
  unfold yieldCpu
  rw [if_neg hempty, Kernel.currentProcess, hcur, show deref (some r) = .ok r from rfl, ok_bind]
  by_cases hslot : r.2 = 0
  · -- the idle process has one of the first four numbers
    have hpid : ¬4 ≤ ((k.setState r .ready).table r).pid.toInt := by
      rw [Kernel.setState_pid]
      exact fun hpid => h.user_of_pid hpid hslot
    rw [if_neg hpid, if_pos hslot, List.append_nil]
    obtain ⟨k', hok, hcur', hq⟩ := schedule_cons (k := k.setState r .ready) h.queues hv hcur hne
    refine ⟨k', hok, hcur', ?_⟩
    have hrep := hq.rep (c, .ready)
    rw [Function.update_self] at hrep
    exact hrep
  · have hpid : 4 ≤ ((k.setState r .ready).table r).pid.toInt := by
      rw [Kernel.setState_pid]
      exact huser hslot
    obtain ⟨lists, happend, hq⟩ := h.queues.append (c, .ready) (h.notMem_running (hrun hslot))
    have happend' : (k.setState r .ready).append (c, .ready) r =
        .ok { k.setState r .ready with lists } := append_eq_ok.mpr ⟨lists, happend, rfl⟩
    dsimp only
    rw [if_pos hpid, if_neg hslot, happend', ok_bind]
    have hv' : Function.update v (c, .ready) (v (c, .ready) ++ [r]) (c, .ready) =
        p :: (ps ++ [r]) := by
      rw [Function.update_self, hv, List.cons_append]
    obtain ⟨k', hok, hcur', hq'⟩ :=
      schedule_cons (k := { k.setState r .ready with lists }) hq hv' hcur hne
    refine ⟨k', hok, hcur', ?_⟩
    have hrep := hq'.rep (c, .ready)
    rw [Function.update_self] at hrep
    exact hrep

-- ---------------------------------------------------------------------------
-- Many of them
-- ---------------------------------------------------------------------------

/-- Core `c` runs `r`, and the processes `ps` are ready on it. As long as the `n` numbers that have
been given out are fewer than 2^31 - 4, none of them is taken for an idle one when it yields. -/
structure Turning (n : Nat) (s : System) (v : ListId → List ProcRef) (c : Core) (r : ProcRef)
    (ps : List ProcRef) : Prop where
  inv : SystemInv s v
  numbered : Numbered n s.kernel v
  phase : s.phase c = .running
  current : s.kernel.current c = some r
  ready : v (c, .ready) = ps

namespace Turning

theorem running (h : Turning n s v c r ps) (hslot : r.2 ≠ 0) :
    (s.kernel.table r).state = .running :=
  h.inv.state_of_runsUser ⟨h.phase, h.current, hslot⟩

theorem pid_le (h : Turning n s v c r ps) (hn : n < 2 ^ 31 - 4) (hslot : r.2 ≠ 0) :
    4 ≤ (s.kernel.table r).pid.toInt :=
  h.numbered.pids.le_toInt hn hslot (by rw [h.running hslot]; decide)

theorem ready_state (h : Turning n s v c r ps) (hp : p ∈ ps) :
    p.2 ≠ 0 ∧ (s.kernel.table p).state = .ready := by
  rw [← h.ready] at hp
  exact (h.inv.sched.mem c .ready p hp).2

theorem rep (h : Turning n s v c r ps) :
    LinkedList.Represents s.kernel.lists.next (s.kernel.lists.head (c, .ready)) ps := by
  rw [← h.ready]
  exact h.inv.sched.queues.rep (c, .ready)

/-- A step that leaves the invariants to the lemma about all steps. -/
theorem of_step {s' : System} {r' : ProcRef} {ps' : List ProcRef} (h : Turning n s v c r ps)
    (hn : n < 2 ^ 31 - 4) (hstep : s.Step src image (.yield c) s') (hphase : s'.phase = s.phase)
    (hcur : s'.kernel.current c = some r')
    (hrep : LinkedList.Represents s'.kernel.lists.next (s'.kernel.lists.head (c, .ready)) ps') :
    ∃ v', Turning n s' v' c r' ps' := by
  obtain ⟨v', hinv, hcounts, -⟩ := h.inv.step hstep
  have hready := (hinv.sched.queues.rep (c, .ready)).unique hrep
  exact ⟨v', hinv, hcounts.1 n hn h.numbered, by rw [hphase, h.phase], hcur, hready⟩

variable (src image) in
/-- **One `yield`**, with a process that is ready. It gets the core, and the one that had it goes to the
end of the list, unless that is the idle process, which is in no list. -/
theorem yield (h : Turning n s v c r (p :: ps)) (hn : n < 2 ^ 31 - 4) :
    ∃ s' v', s.Step src image (.yield c) s' ∧
      Turning n s' v' c p (ps ++ if r.2 = 0 then [] else [r]) := by
  obtain ⟨k', hok, hcur, hrep⟩ :=
    yieldCpu_cons h.inv.sched h.current h.running (h.pid_le hn) h.ready
  have hstep : s.Step src image (.yield c) (s.withKernel k') := by
    refine ⟨h.phase, ?_⟩
    show (yieldCpu s.kernel c >>= fun k => .ok (s.withKernel k)) = _
    rw [hok]
    rfl
  obtain ⟨v', h'⟩ := h.of_step hn hstep rfl hcur hrep
  exact ⟨_, v', hstep, h'⟩

/-- `yield` with nothing to yield to. -/
theorem yield_alone (h : Turning n s v c r []) : s.Step src image (.yield c) s := by
  have hempty : s.kernel.lists.isListEmpty (c, .ready) :=
    h.inv.sched.queues.isListEmpty_iff.mpr h.ready
  refine ⟨h.phase, ?_⟩
  show (yieldCpu s.kernel c >>= fun k => .ok (s.withKernel k)) = _
  unfold yieldCpu
  rw [if_pos hempty]
  rfl

variable (src image) in
/-- **User processes take turns.** By induction on the turns: the process that runs, with the ready list
behind it, is the list of all of them, and a `yield` rotates that list by one. -/
theorem turns {q : List ProcRef} (h : Turning n s v c r ps) (hn : n < 2 ^ 31 - 4)
    (hslot : r.2 ≠ 0) (hq : q = r :: ps) (k : Nat) :
    ∃ s' v' r' ps', Run (System.Step src image) s (List.replicate k (.yield c)) s' ∧
      q.rotate k = r' :: ps' ∧ Turning n s' v' c r' ps' := by
  have huser : ∀ p ∈ q, p.2 ≠ 0 := by
    intro p hp
    rw [hq] at hp
    rcases List.mem_cons.mp hp with rfl | hp
    · exact hslot
    · exact (h.ready_state hp).1
  induction k with
  | zero => exact ⟨s, v, r, ps, .nil, by rw [List.rotate_zero, hq], h⟩
  | succ k ih =>
    obtain ⟨s₁, v₁, r₁, ps₁, hrun, hrot, h₁⟩ := ih
    have hnext := Rotation.rotate_succ hrot
    have hslot₁ : r₁.2 ≠ 0 := huser r₁ (List.mem_rotate.mp (by rw [hrot]; exact List.mem_cons_self))
    rw [List.replicate_succ']
    match ps₁, hrot, h₁, hnext with
    | [], _, h₁, hnext => exact ⟨s₁, v₁, r₁, [], hrun.snoc h₁.yield_alone, hnext, h₁⟩
    | p :: ps₁, _, h₁, hnext =>
      obtain ⟨s', v', hstep, h'⟩ := h₁.yield src image hn
      rw [if_neg hslot₁] at h'
      exact ⟨s', v', p, ps₁ ++ [r₁], hrun.snoc hstep, hnext, h'⟩

end Turning

/-- Core `c` is at turn `t` of the processes `q`: the one whose turn it is runs, and the
others are ready, in their order. -/
structure Turn (s : System) (c : Core) (q : List ProcRef) (t : Nat) : Prop where
  current : s.kernel.current c = q[t % q.length]?
  ready : LinkedList.Represents s.kernel.lists.next (s.kernel.lists.head (c, .ready))
    (q.rotate t).tail
  running : ∀ r, s.kernel.current c = some r → (s.kernel.table r).state = .running
  queued : ∀ r ∈ (q.rotate t).tail, (s.kernel.table r).state = .ready

theorem Turning.turn {q : List ProcRef} {t : Nat} (h : Turning n s v c r ps) (hslot : r.2 ≠ 0)
    (hq : q.rotate t = r :: ps) : Turn s c q t := by
  have hne : q ≠ [] := by
    rintro rfl
    rw [List.rotate_nil] at hq
    cases hq
  refine ⟨?_, ?_, fun r' hr' => ?_, fun r' hr' => ?_⟩
  · rw [← Rotation.head_rotate hne, hq, h.current]
    rfl
  · rw [hq]
    exact h.rep
  · obtain rfl := Option.some.inj (h.current.symm.trans hr')
    exact h.running hslot
  · rw [hq] at hr'
    exact (h.ready_state hr').2

theorem Turning.nodup (h : Turning n s v c r ps) : (r :: ps).Nodup := by
  refine List.nodup_cons.mpr ⟨fun hmem => ?_, h.rep.nodup⟩
  obtain ⟨hslot, hready⟩ := h.ready_state hmem
  rw [h.running hslot] at hready
  cases hready

variable (src image) in
/-- Among user processes, every number of yields. -/
theorem Turning.user_turn (h : Turning n s v c r ps) (hn : n < 2 ^ 31 - 4) (hslot : r.2 ≠ 0)
    (k : Nat) :
    ∃ s' v', Run (System.Step src image) s (List.replicate k (.yield c)) s' ∧
      SystemInv s' v' ∧ Turn s' c (r :: ps) k := by
  obtain ⟨s', v', r', ps', hrun, hrot, h'⟩ := h.turns src image hn hslot rfl k
  have hslot' : r'.2 ≠ 0 := by
    have hmem : r' ∈ r :: ps := List.mem_rotate.mp (by rw [hrot]; exact List.mem_cons_self)
    rcases List.mem_cons.mp hmem with he | hmem
    · rw [he]
      exact hslot
    · exact (h.ready_state hmem).1
  exact ⟨s', v', hrun, h'.inv, h'.turn hslot' hrot⟩

variable (src image) in
/-- From the idle process, the first yield starts the turns of the others. -/
theorem Turning.idle_turn (h : Turning n s v c r ps) (hn : n < 2 ^ 31 - 4) (hslot : r.2 = 0)
    (hne : ps ≠ []) (k : Nat) :
    ∃ s' v', Run (System.Step src image) s (List.replicate (k + 1) (.yield c)) s' ∧
      SystemInv s' v' ∧ Turn s' c ps k := by
  obtain ⟨p, ps, rfl⟩ := List.exists_cons_of_ne_nil hne
  obtain ⟨s₁, v₁, hstep, h₁⟩ := h.yield src image hn
  rw [if_pos hslot, List.append_nil] at h₁
  obtain ⟨s', v', hrun, hinv, hturn⟩ := h₁.user_turn src image hn (h.ready_state List.mem_cons_self).1 k
  exact ⟨s', v', .cons hstep hrun, hinv, hturn⟩

/-- The idle process is on no list. -/
theorem SystemInv.idle_notMem (h : SystemInv s v) {l : ListId} {xs : List ProcRef}
    (hrep : LinkedList.Represents s.kernel.lists.next (s.kernel.lists.head l) xs) :
    (c, 0) ∉ xs := by
  rw [hrep.unique (h.sched.queues.rep l)]
  exact fun hmem => (h.sched.mem l.1 l.2 _ hmem).2.1 rfl

-- ---------------------------------------------------------------------------
-- The system
-- ---------------------------------------------------------------------------

theorem System.Step.unique {op : Op} {s' t : System} (hs : s.Step src image op s')
    (ht : s.Step src image op t) : s' = t := Except.ok.inj (hs.2.symm.trans ht.2)

/-- Nobody runs again before the others have run, if the turns begin behind `d` yields. -/
theorem turns_fair {q : List ProcRef} {d i j : Nat} {sᵢ sⱼ : System} (hq : q.Nodup)
    (hturn : ∀ k, ∃ s', Run (System.Step src image) s (List.replicate (k + d) (.yield c)) s' ∧
      Turn s' c q k) (hij : i < j)
    (hi : Run (System.Step src image) s (List.replicate (i + d) (.yield c)) sᵢ)
    (hj : Run (System.Step src image) s (List.replicate (j + d) (.yield c)) sⱼ)
    (hsame : sᵢ.kernel.current c = sⱼ.kernel.current c) (hr : r ∈ q) :
    ∃ m sₘ, i + d ≤ m ∧ m < j + d ∧
      Run (System.Step src image) s (List.replicate m (.yield c)) sₘ ∧
      sₘ.kernel.current c = some r := by
  have hcurrent : ∀ k t, Run (System.Step src image) s (List.replicate (k + d) (.yield c)) t →
      t.kernel.current c = q[k % q.length]? := by
    intro k t ht
    obtain ⟨s', hrun, hturn'⟩ := hturn k
    have hs : t = s' := Run.unique (fun _ _ _ _ hs ht => hs.unique ht) ht hrun
    rw [hs]
    exact hturn'.current
  rw [hcurrent i sᵢ hi, hcurrent j sⱼ hj] at hsame
  obtain ⟨m, him, hmj, hm⟩ := Rotation.turn_between hq hij hsame hr
  obtain ⟨sₘ, hrun, hturn'⟩ := hturn m
  exact ⟨m + d, sₘ, by omega, by omega, hrun, hturn'.current.trans hm⟩

/-- **Round robin.** Take a state that a run of the system reaches, and a core that runs `p₀`
and has `ps` in its ready list. The number of `p₀` is below 4 exactly when it is the core's
idle process; otherwise any number `k` of yields leads to turn `k` of `p₀ :: ps`. From the
idle process, `k + 1` yields lead to turn `k` of `ps`, if there are any, and the idle process
is on no list. No process is there twice, and between two times that one runs all the
others have run. -/
theorem yields_rotate {mem : Memory} {ops : List Op} {s₀ s : System} {p₀ : ProcRef}
    (hboot : boot src image mem = .ok s₀) (hrun : Run (System.Step src image) s₀ ops s)
    (hcreated : created ops < 2 ^ 31 - 4) (hphase : s.phase c = .running)
    (hcur : s.kernel.current c = some p₀)
    (hready : LinkedList.Represents s.kernel.lists.next (s.kernel.lists.head (c, .ready)) ps) :
    ((s.kernel.table p₀).pid.toInt < 4 ↔ p₀ = (c, 0)) ∧ (p₀ :: ps).Nodup ∧
      (4 ≤ (s.kernel.table p₀).pid.toInt → ∀ k, ∃ s',
        Run (System.Step src image) s (List.replicate k (.yield c)) s' ∧ Turn s' c (p₀ :: ps) k) ∧
      (p₀ = (c, 0) → ps ≠ [] → ∀ k, 1 ≤ k → ∃ s',
        Run (System.Step src image) s (List.replicate k (.yield c)) s' ∧ Turn s' c ps (k - 1) ∧
        ∀ l xs, LinkedList.Represents s'.kernel.lists.next (s'.kernel.lists.head l) xs →
          (c, 0) ∉ xs) ∧
      ∀ i j sᵢ sⱼ, (p₀ = (c, 0) → 1 ≤ i) → i < j →
        Run (System.Step src image) s (List.replicate i (.yield c)) sᵢ →
        Run (System.Step src image) s (List.replicate j (.yield c)) sⱼ →
        sᵢ.kernel.current c = sⱼ.kernel.current c →
        ∀ r ∈ p₀ :: ps, r ≠ (c, 0) → ∃ m sₘ, i ≤ m ∧ m < j ∧
          Run (System.Step src image) s (List.replicate m (.yield c)) sₘ ∧
          sₘ.kernel.current c = some r := by
  obtain ⟨v, hinv, hnum⟩ := run_inv hboot hrun
  have h : Turning (created ops) s v c p₀ ps :=
    ⟨hinv, hnum hcreated, hphase, hcur, (hinv.sched.queues.rep (c, .ready)).unique hready⟩
  have hcore : p₀.1 = c := hinv.sched.current_core c p₀ hcur
  have hidle : p₀.2 = 0 ↔ p₀ = (c, 0) :=
    ⟨fun h0 => Prod.ext hcore h0, fun he => by rw [he]⟩
  have hpid : p₀.2 = 0 ↔ (s.kernel.table p₀).pid.toInt < 4 := by
    refine ⟨fun h0 => ?_, fun hlt => ?_⟩
    · rw [hidle.mp h0]
      exact hinv.sched.idle_pid c
    · by_contra hslot
      have := h.pid_le hcreated hslot
      omega
  have huser : p₀.2 ≠ 0 → ∀ k, ∃ s', Run (System.Step src image) s
      (List.replicate k (.yield c)) s' ∧ Turn s' c (p₀ :: ps) k := by
    intro hslot k
    obtain ⟨s', v', hrun', -, hturn⟩ := h.user_turn src image hcreated hslot k
    exact ⟨s', hrun', hturn⟩
  refine ⟨hpid.symm.trans hidle, h.nodup, fun hle => huser fun h0 => ?_,
    fun h0 hne k hk => ?_, fun i j sᵢ sⱼ hone hij hi hj hsame r hr hrne => ?_⟩
  · have := hpid.mp h0
    omega
  · obtain ⟨k, rfl⟩ := Nat.exists_eq_add_of_le' hk
    obtain ⟨s', v', hrun', hinv', hturn⟩ := h.idle_turn src image hcreated (hidle.mpr h0) hne k
    exact ⟨s', hrun', hturn, fun l xs hrep => hinv'.idle_notMem hrep⟩
  · by_cases h0 : p₀.2 = 0
    · -- the turns begin with the first yield
      have hr' : r ∈ ps := (List.mem_cons.mp hr).resolve_left fun he => hrne (he.trans (hidle.mp h0))
      obtain ⟨i, rfl⟩ := Nat.exists_eq_add_of_le' (hone (hidle.mp h0))
      obtain ⟨j, rfl⟩ := Nat.exists_eq_add_of_le' (show 1 ≤ j by omega)
      refine turns_fair (List.nodup_cons.mp h.nodup).2 (fun k => ?_) (by omega) hi hj hsame hr'
      obtain ⟨s', v', hrun', -, hturn⟩ := h.idle_turn src image hcreated h0 (List.ne_nil_of_mem hr') k
      exact ⟨s', hrun', hturn⟩
    · exact turns_fair (d := 0) h.nodup (huser h0) hij hi hj hsame hr

/-- The two programs of core 0 after three yields. -/
theorem two_programs_alternate : ∃ s s',
    runFrom smallSource smallDisk (fun _ => 0) [.init 0, .yield 0] = some s ∧
    Run (System.Step smallSource smallDisk) s (List.replicate 3 (.yield 0)) s' ∧
    s.kernel.current 0 = some (0, 1) ∧ s'.kernel.current 0 = some (0, 2) := by
  obtain ⟨s, hs⟩ := Option.isSome_iff_exists.mp (show
    (runFrom smallSource smallDisk (fun _ => 0) [.init 0, .yield 0]).isSome by decide +kernel)
  have hcore : ((runFrom smallSource smallDisk (fun _ => 0) [.init 0, .yield 0]).map fun s =>
      (s.phase 0, s.kernel.current 0)) = some (.running, some (0, 1)) := by decide +kernel
  have hlist : ((runFrom smallSource smallDisk (fun _ => 0) [.init 0, .yield 0]).map fun s =>
      ((s.kernel.lists.head (0, .ready)).next, (s.kernel.lists.head (0, .ready)).tail,
        s.kernel.lists.next (0, 2))) = some (some (0, 2), some (0, 2), none) := by decide +kernel
  rw [hs] at hcore hlist
  simp only [Option.map_some, Option.some.injEq, Prod.mk.injEq] at hcore hlist
  obtain ⟨hphase, hcur⟩ := hcore
  obtain ⟨hnext, htail, hlast⟩ := hlist
  have hready : LinkedList.Represents s.kernel.lists.next (s.kernel.lists.head (0, .ready))
      [(0, 2)] := ⟨⟨hnext, hlast⟩, by decide, htail⟩
  obtain ⟨s₀, hboot, hrun⟩ := run_of_runFrom _ _ hs
  obtain ⟨hpid, -, huser, -⟩ := yields_rotate hboot hrun (by decide) hphase hcur hready
  have hle : 4 ≤ (s.kernel.table (0, 1)).pid.toInt := by
    by_contra hlt
    exact absurd (hpid.mp (by omega)) (by decide)
  obtain ⟨s', hrun', hturn⟩ := huser hle 3
  exact ⟨s, s', hs, hrun', hcur, hturn.current⟩

end TinyMultiCore
