import TinyMultiCore.Process.Sched

/-!
# The functions of the scheduler

One lemma for each function says that it keeps the invariant, what it does to the current
processes and the page map that is loaded, and that it changes nobody's number.

* `schedule_spec` — `schedule`, whoever has called it;
* `yieldCpu_spec`, `sleepOn_spec`, `exitKill_spec` — what a process does to leave its core;
* `wakeUp_spec`, `waitTurn_spec` — the two that look for processes in a list;
* `Creates.sched`, `TouchesFiles.sched` — creation, and whatever only concerns files.
-/

namespace TinyMultiCore

open LinkedList TransitionSystem

variable {K : KernelImage} {src : FrameSource K} {k k' : Kernel} {v : ListId → List ProcRef}
  {c : Core} {r prev : ProcRef}

/-- No process is new, and none has another number. -/
def SamePids (k k' : Kernel) : Prop :=
  k'.pidNum = k.pidNum ∧ ∀ r, r.2 ≠ 0 → (k'.table r).state ≠ .unused →
    (k.table r).state ≠ .unused ∧ (k'.table r).pid = (k.table r).pid

theorem SamePids.refl (k : Kernel) : SamePids k k := ⟨rfl, fun _ _ hlive => ⟨hlive, rfl⟩⟩

theorem SamePids.trans {k'' : Kernel} (h : SamePids k k') (h' : SamePids k' k'') :
    SamePids k k'' := by
  refine ⟨h'.1.trans h.1, fun r hslot hlive => ?_⟩
  have h2 := h'.2 r hslot hlive
  have h1 := h.2 r hslot h2.1
  exact ⟨h1.1, h2.2.trans h1.2⟩

/-- A live process gets a new record with its number. -/
theorem SamePids.of_update {p : Process} (hnum : k'.pidNum = k.pidNum)
    (htable : k'.table = Function.update k.table r p)
    (hp : r.2 ≠ 0 → p.state ≠ .unused → (k.table r).state ≠ .unused ∧ p.pid = (k.table r).pid) :
    SamePids k k' := by
  refine ⟨hnum, fun r' hslot hlive => ?_⟩
  rw [htable] at hlive ⊢
  by_cases hr : r' = r
  · subst hr
    rw [Function.update_self] at hlive ⊢
    exact hp hslot hlive
  · rw [Function.update_of_ne hr] at hlive ⊢
    exact ⟨hlive, rfl⟩

/-- What `schedule` writes: the first ready process, or else the idle one, runs. -/
theorem schedule_cases (hcur : k.current c = some prev) (hok : schedule k c = .ok k') :
    ∃ r lists, (((k.lists.removeListHead (c, .ready)).1 = none ∧ r = (c, 0) ∧ lists = k.lists) ∨
        k.lists.removeListHead (c, .ready) = (some r, lists)) ∧
      k'.table = Function.update k.table r { k.table r with state := .running } ∧
      k'.lists = lists ∧ k'.current = Function.update k.current c (some r) ∧
      k'.pidNum = k.pidNum ∧
      (prev ≠ r → k'.ttbr0 = Function.update k.ttbr0 c (v2p (k'.table r).pageMap)) := by
  obtain ⟨prev', r, lists, hprev, hhead, rfl⟩ := schedule_eq hok
  obtain rfl := Option.some.inj (hcur.symm.trans hprev)
  refine ⟨r, lists, hhead, ?_⟩
  split <;> rename_i hsame
  · refine ⟨rfl, rfl, ?_, rfl, fun hne => absurd hsame hne⟩
    rw [← hsame, ← hcur, Function.update_eq_self]
    rfl
  · refine ⟨rfl, rfl, rfl, rfl, fun _ => ?_⟩
    simp [switchVm, Kernel.setState, Kernel.setProcess]

/-- No process is ready: the idle one runs, and the lists stay as they are. -/
theorem Sched.runIdle (h : Sched k v)
    (hprev : ∀ r, k.current c = some r → r.2 ≠ 0 → (k.table r).state ≠ .running)
    (htable : k'.table = Function.update k.table (c, 0) { k.table (c, 0) with state := .running })
    (hlists : k'.lists = k.lists) (hcurrent : k'.current = Function.update k.current c (some (c, 0))) :
    Sched k' v ∧ KeepsLists k v k' v := by
  have htable' : k'.table = (k.setState (c, 0) .running).table := htable
  refine ⟨(h.setIdle (c := c) .running).switch (c := c) (r := (c, 0)) (fun r' hcur' hslot => ?_)
      htable' hlists rfl hcurrent,
    (KeepsLists.setIdle k v c .running).trans (.of_state fun r => by rw [htable'])⟩
  have hne : r' ≠ (c, 0) := fun he => hslot (by rw [he])
  simpa [Kernel.setState, Kernel.setProcess, hne] using hprev r' hcur' hslot

/-- The first ready process runs, and is in no list any more. -/
theorem Sched.runFirst {lists : Lists ListId ProcRef} {ys : List ProcRef} (h : Sched k v)
    (hprev : ∀ r, k.current c = some r → r.2 ≠ 0 → (k.table r).state ≠ .running)
    (hv : v (c, .ready) = r :: ys) (hqueues : Queues lists (Function.update v (c, .ready) ys))
    (htable : k'.table = Function.update k.table r { k.table r with state := .running })
    (hlists : k'.lists = lists) (hcurrent : k'.current = Function.update k.current c (some r)) :
    Sched k' (Function.update v (c, .ready) ys) ∧
      KeepsLists k v k' (Function.update v (c, .ready) ys) := by
  have hmem : r ∈ v (c, .ready) := by
    rw [hv]
    exact List.mem_cons_self
  obtain ⟨hcore, -⟩ := h.mem c .ready r hmem
  have hxs : ∀ z, z ∈ ys ↔ z ∈ v (c, .ready) ∧ z ≠ r := by
    intro z
    have hnodup := (h.queues.rep (c, .ready)).nodup
    rw [hv] at hnodup
    have hr := (List.nodup_cons.mp hnodup).1
    rw [hv, List.mem_cons]
    constructor
    · exact fun hz => ⟨Or.inr hz, fun he => hr (he ▸ hz)⟩
    · exact fun hz => hz.1.resolve_left hz.2
  refine h.dequeue k' hqueues hmem hxs _ (fun q => ?_) (fun _ => ?_) htable hlists
    (fun r' _ hslot hrun => ?_) fun c' r' hcur' => ?_
  · cases q <;> exact fun he => by cases he
  · rw [hcurrent, hcore, Function.update_self]
  · have hne : r'.1 ≠ c := by
      intro he
      exact hprev r' (he ▸ h.running r' hslot hrun) hslot hrun
    rw [hcurrent, Function.update_of_ne hne]
  · rw [hcurrent] at hcur'
    by_cases hc : c' = c
    · subst hc
      rw [Function.update_self] at hcur'
      rw [← Option.some.inj hcur']
      exact hcore
    · rw [Function.update_of_ne hc] at hcur'
      exact h.current_core c' r' hcur'

/-- **`schedule`**, when the current process does not run any more. The first of the ready list gets
the core, or the idle process where there is none. The processes
of the other cores are left alone. -/
theorem schedule_spec (h : Sched k v) (hcur : k.current c = some prev)
    (hprev : prev.2 ≠ 0 → (k.table prev).state ≠ .running) (hok : schedule k c = .ok k') :
    ∃ v' r, Sched k' v' ∧ KeepsLists k v k' v' ∧
      k'.current = Function.update k.current c (some r) ∧
      (r.2 ≠ 0 → (k'.table r).state = .running) ∧
      (∀ r', r'.1 ≠ c → k'.table r' = k.table r') ∧ SamePids k k' ∧
      (r.2 = 0 ↔ k.lists.isListEmpty (c, .ready)) ∧
      (prev ≠ r → k'.ttbr0 = Function.update k.ttbr0 c (v2p (k'.table r).pageMap)) := by
  obtain ⟨r, lists, hhead, htable, hlists, hcurrent, hnum, hload⟩ := schedule_cases hcur hok
  have hstate : (k'.table r).state = .running := by
    rw [htable, Function.update_self]
  have hprev' : ∀ r', k.current c = some r' → r'.2 ≠ 0 → (k.table r').state ≠ .running := by
    intro r' hcur'
    obtain rfl := Option.some.inj (hcur.symm.trans hcur')
    exact hprev
  have hframe : r.1 = c → ∀ r', r'.1 ≠ c → k'.table r' = k.table r' := by
    intro hr r' hr'
    rw [htable, Function.update_of_ne (fun he => hr' (by rw [he, hr]))]
  rcases hhead with ⟨hnone, rfl, rfl⟩ | hhead
  · -- the idle process
    obtain ⟨hs, hc⟩ := h.runIdle hprev' htable hlists hcurrent
    exact ⟨v, (c, 0), hs, hc, hcurrent, fun hslot => absurd rfl hslot, hframe rfl,
      .of_update hnum htable fun hslot => absurd rfl hslot,
      iff_of_true rfl (h.queues.isListEmpty_iff.mpr (h.queues.removeHead_none hnone)), hload⟩
  · obtain ⟨ys, hv, hqueues⟩ := h.queues.removeHead_some hhead
    obtain ⟨hs, hc⟩ := h.runFirst hprev' hv hqueues htable hlists hcurrent
    obtain ⟨hcore, hslot, hready⟩ := h.mem c .ready r (by rw [hv]; exact List.mem_cons_self)
    refine ⟨_, r, hs, hc, hcurrent, fun _ => hstate, hframe hcore,
      .of_update hnum htable fun _ _ => ⟨?_, rfl⟩, iff_of_false hslot fun hempty => ?_, hload⟩
    · rw [hready]
      exact fun he => by cases he
    · rw [h.queues.isListEmpty_iff, hv] at hempty
      cases hempty

/-- Core `c` may have another current process, which runs, and only processes of the
core have changed. The idle process becomes current when no process was ready. -/
def Resched (k k' : Kernel) (c : Core) : Prop :=
  ∃ r, k'.current = Function.update k.current c (some r) ∧
    (r.2 ≠ 0 → (k'.table r).state = .running) ∧ (∀ r', r'.1 ≠ c → k'.table r' = k.table r') ∧
    (k.current c ≠ some r → (r.2 = 0 ↔ k.lists.isListEmpty (c, .ready)) ∧
      k'.ttbr0 = Function.update k.ttbr0 c (v2p (k'.table r).pageMap))

/-- A user process gives up its core: it goes into a list, and `schedule` follows. -/
theorem leave_spec {q : ListName} {p : Process} {k₁ : Kernel} (h : Sched k v)
    (hcur : k.current c = some r) (hslot : r.2 ≠ 0) (hrun : (k.table r).state = .running) (hp : p.state = q.state)
    (hpid : p.pid = (k.table r).pid)
    (hq : q = .ready → ¬k.lists.isListEmpty (c, .ready))
    (happend : (k.setProcess r p).append (c, q) r = .ok k₁) (hok : schedule k₁ c = .ok k') :
    ∃ v', Sched k' v' ∧ KeepsLists k v k' v' ∧ Resched k k' c ∧ SamePids k k' := by
  obtain rfl := h.current_core c r hcur
  obtain ⟨lists, happend', hs, hc⟩ := h.enlist (h.notMem_running hrun) hslot p hp
  obtain rfl := Except.ok.inj (happend'.symm.trans happend)
  have hprev : r.2 ≠ 0 →
      (({ k.setProcess r p with lists } : Kernel).table r).state ≠ .running := by
    intro _
    show ((Function.update k.table r p) r).state ≠ _
    rw [Function.update_self, hp]
    cases q <;> simp [ListName.state]
  obtain ⟨v', r', hs', hc', hcurrent, hrun', hframe, hpids, hidle, hload⟩ :=
    schedule_spec hs hcur hprev hok
  -- the process itself was put behind the ready ones, if anywhere
  have hready : lists.isListEmpty (r.1, .ready) ↔ k.lists.isListEmpty (r.1, .ready) := by
    rw [h.queues.isListEmpty_iff, hs.queues.isListEmpty_iff]
    by_cases hl : q = .ready
    · rw [hl, Function.update_self]
      refine iff_of_false (by simp) fun hnil => hq hl ?_
      rw [h.queues.isListEmpty_iff, hnil]
    · rw [Function.update_of_ne fun he => hl (Prod.mk.inj he).2.symm]
  refine ⟨v', hs', hc.trans hc', ⟨r', hcurrent, hrun', fun y hy => ?_, fun hne => ?_⟩, .trans ?_ hpids⟩
  rotate_left
  · refine ⟨hidle.trans hready, hload ?_⟩
    rintro rfl
    exact hne hcur
  rotate_left
  · have hne : y ≠ r := fun he => hy (by rw [he])
    rw [hframe y hy]
    exact Function.update_of_ne hne ..
  · refine .of_update rfl rfl fun _ _ => ⟨?_, hpid⟩
    rw [hrun]
    simp

/-- The process on the core is set aside, and `schedule` follows. -/
theorem aside_spec {state : ProcState} (h : Sched k v) (hcur : k.current c = some r)
    (hrun : r.2 ≠ 0 → (k.table r).state = .running) (hstate : state ≠ .running)
    (hok : schedule (k.setState r state) c = .ok k') :
    ∃ v', Sched k' v' ∧
      (∀ q, r.2 = 0 ∨ state ≠ q.state → CompleteOn q k v → CompleteOn q k' v') ∧ Resched k k' c ∧
      (state ≠ .unused → SamePids k k') := by
  obtain rfl := h.current_core c r hcur
  have hnot : ∀ l, r ∉ v l := by
    intro l hmem
    obtain ⟨-, hslot, -⟩ := h.mem l.1 l.2 r hmem
    exact h.notMem_running (hrun hslot) l hmem
  obtain ⟨v', r', hs', hc', hcurrent, hrun', hframe, hpids, hidle, hload⟩ :=
    schedule_spec (h.setAside hnot (fun _ => hcur) state) hcur
      (fun _ => by simpa [Kernel.setState, Kernel.setProcess] using hstate) hok
  refine ⟨v', hs', fun q hq hc => hc' q ?_, ⟨r', hcurrent, hrun', fun y hy => ?_, fun hne => ?_⟩,
    fun hun => .trans ?_ hpids⟩
  · intro y hslot hy
    by_cases hyr : y = r
    · -- the process itself is idle, or not in the state of these lists
      rw [hyr] at hslot hy
      exact absurd ((congrArg Process.state (Function.update_self ..)).symm.trans hy)
        (hq.resolve_left hslot)
    · exact hc y hslot ((congrArg Process.state (Function.update_of_ne hyr ..)).symm.trans hy)
  · have hne : y ≠ r := fun he => hy (by rw [he])
    rw [hframe y hy]
    exact Function.update_of_ne hne ..
  · refine ⟨hidle, hload ?_⟩
    rintro rfl
    exact hne hcur
  · refine .of_update rfl rfl fun hslot _ => ⟨?_, rfl⟩
    rw [hrun hslot]
    simp

/-- **`yield`.** A process with a wrapped number is ready and in no list afterwards: `yield` tells the
idle processes from the others by their numbers, which it compares as `int`s. -/
theorem yieldCpu_spec (h : Sched k v) (hcur : k.current c = some r)
    (hrun : r.2 ≠ 0 → (k.table r).state = .running) (hok : yieldCpu k c = .ok k') :
    ∃ v', Sched k' v' ∧
      (∀ q, (q = .ready → r.2 ≠ 0 → 4 ≤ (k.table r).pid.toInt) →
        CompleteOn q k v → CompleteOn q k' v') ∧ Resched k k' c ∧ SamePids k k' := by
  rcases yieldCpu_cases hok with ⟨-, rfl⟩ | ⟨prev, hready, hprev, hturn⟩
  · refine ⟨v, h, fun _ _ => id, ⟨r, ?_, hrun, fun _ _ => rfl, fun hne => absurd hcur hne⟩, .refl _⟩
    rw [← hcur, Function.update_eq_self]
  obtain rfl := Option.some.inj (hcur.symm.trans hprev)
  rcases hturn with ⟨hpid, k₁, happend, hok⟩ | ⟨hpid, hok⟩
  · -- not the idle process
    have hslot := h.user_of_pid hpid
    obtain ⟨v', hs, hc, hre, hpids⟩ := leave_spec (q := .ready)
      (p := { k.table r with state := .ready }) h hcur hslot (hrun hslot) rfl rfl (fun _ => hready)
      happend hok
    exact ⟨v', hs, fun q _ => hc q, hre, hpids⟩
  · obtain ⟨v', hs, hc, hre, hpids⟩ := aside_spec h hcur hrun (by decide) hok
    refine ⟨v', hs, fun q hle => hc q ?_, hre, hpids (by decide)⟩
    by_contra hboth
    obtain ⟨hslot, hstate⟩ := not_or.mp hboth
    exact hpid (hle (ListName.state_inj (not_not.mp hstate).symm) hslot)

theorem sleepOn_spec {wait : U32} (h : Sched k v) (hcur : k.current c = some r) (hslot : r.2 ≠ 0)
    (hrun : (k.table r).state = .running) (hok : sleepOn k c wait = .ok k') :
    ∃ v', Sched k' v' ∧ KeepsLists k v k' v' ∧ Resched k k' c ∧ SamePids k k' := by
  obtain ⟨prev, k₁, hprev, happend, hok⟩ := sleepOn_eq hok
  obtain rfl := Option.some.inj (hcur.symm.trans hprev)
  exact leave_spec (q := .wait) (p := { k.table r with state := .sleep, wait }) h hcur hslot
    hrun rfl rfl (fun he => by cases he) happend hok

/-- The first section of `exit`. -/
theorem exitKill_spec (h : Sched k v) (hcur : k.current c = some r) (hslot : r.2 ≠ 0)
    (hrun : (k.table r).state = .running) (hok : exitKill k c = .ok k') :
    ∃ v', Sched k' v' ∧ KeepsLists k v k' v' ∧ k'.current = k.current ∧
      (k'.table r).state = .killed ∧
      (∀ r', r'.1 ≠ c → k'.table r' = k.table r') ∧ SamePids k k' := by
  obtain rfl := h.current_core c r hcur
  obtain ⟨prev, hprev, hkill⟩ := exitKill_eq hok
  obtain rfl := Option.some.inj (hcur.symm.trans hprev)
  obtain ⟨lists, happend, hs, hc⟩ := h.enlist (q := .kill) (h.notMem_running hrun) hslot
    { k.table r with state := .killed, wait := (k.table r).pid } rfl
  obtain rfl := Except.ok.inj (happend.symm.trans hkill)
  refine ⟨_, hs, hc, rfl, ?_, fun y hy => ?_, .of_update rfl rfl fun _ _ => ⟨?_, rfl⟩⟩
  · simp [Kernel.setProcess]
  · have hne : y ≠ r := fun he => hy (by rw [he])
    exact Function.update_of_ne hne ..
  · rw [hrun]
    simp

/-- Only sleeping processes have changed, and none of the current ones. -/
def Woken (k k' : Kernel) : Prop :=
  k'.current = k.current ∧ ∀ r, (k.table r).state ≠ .sleep → k'.table r = k.table r

theorem Woken.trans {k'' : Kernel} (h : Woken k k') (h' : Woken k' k'') : Woken k k'' := by
  refine ⟨h'.1.trans h.1, fun r hr => ?_⟩
  have h1 := h.2 r hr
  rw [h'.2 r (by rw [h1]; exact hr), h1]

/-- **What `remove_list` returns**: a process of the list, with the value that was asked for.
It is off the list, and the others are still there. -/
theorem Sched.removeList_some {q : ListName} {value : U32} (h : Sched k v)
    (hok : k.removeList (c, q) value = .ok (some r, k')) :
    r ∈ v (c, q) ∧ (k.table r).wait = value ∧ ∃ xs lists, k' = { k with lists } ∧
      Queues lists (Function.update v (c, q) xs) ∧ ∀ y, y ∈ xs ↔ y ∈ v (c, q) ∧ y ≠ r := by
  rcases h.queues.removeList_cases (fun r => (k.table r).wait) value
      (h.queues.length_le (c, q)) with ⟨lists, hremove, -, -⟩ |
    ⟨r', xs, lists, hremove, hmem, hwait, hqueues, hxs, -⟩
  · rw [Kernel.removeList_eq hremove] at hok
    cases hok
  · rw [Kernel.removeList_eq hremove] at hok
    cases hok
    exact ⟨hmem, hwait, xs, lists, rfl, hqueues, hxs⟩

theorem Sched.removeList_user {q : ListName} {value : U32} (h : Sched k v)
    (hok : k.removeList (c, q) value = .ok (some r, k')) :
    r.1 = c ∧ r.2 ≠ 0 ∧ (k.table r).state = q.state :=
  h.mem c q r (h.removeList_some hok).1

/-- `remove_list` has found nothing. -/
theorem Sched.removeList_none {q : ListName} {value : U32} (h : Sched k v)
    (hremove : k.removeList (c, q) value = .ok (none, k')) :
    (∃ lists, k' = { k with lists }) ∧ Sched k' v ∧ ∀ r ∈ v (c, q), (k.table r).wait ≠ value := by
  rcases h.queues.removeList_cases (fun r => (k.table r).wait) value
      (h.queues.length_le (c, q)) with ⟨lists, hok, hq, hnone⟩ | ⟨r, xs, lists, hok, -⟩
  · rw [Kernel.removeList_eq hok] at hremove
    cases hremove
    exact ⟨⟨lists, rfl⟩, ⟨hq, h.mem, h.running, h.current_core, h.idle_pid⟩, hnone⟩
  · rw [Kernel.removeList_eq hok] at hremove
    cases hremove

/-- One process goes from the wait list to the ready list. -/
theorem wakeOne_spec {wait : U32} {k₁ : Kernel} (h : Sched k v)
    (hremove : k.removeList (c, .wait) wait = .ok (some r, k₁))
    (happend : (k₁.setState r .ready).append (c, .ready) r = .ok k') :
    ∃ v', Sched k' v' ∧ KeepsLists k v k' v' ∧ Woken k k' ∧ SamePids k k' := by
  obtain ⟨hmem, -, xs, lists, rfl, hq, hxs⟩ := h.removeList_some hremove
  obtain ⟨rfl, hslot, hstate⟩ := h.mem c .wait r hmem
  -- between the lists, the process has no state that a list has
  obtain ⟨hs, hc⟩ := h.dequeue { k with
      lists, table := Function.update k.table r { k.table r with state := .init } }
    hq hmem hxs { k.table r with state := .init } (fun q => by cases q <;> simp [ListName.state])
    (fun he => by cases he) rfl rfl (fun _ _ _ _ => rfl) h.current_core
  obtain ⟨lists', happend', hs', hc'⟩ := hs.enlist (q := .ready)
    (hs.notMem fun q => by cases q <;> simp [ListName.state]) hslot
    { k.table r with state := .ready } rfl
  have hset : ∀ p, Kernel.setProcess { k with
      lists, table := Function.update k.table r { k.table r with state := .init } } r p =
      Kernel.setProcess { k with lists } r p := by
    intro p
    simp [Kernel.setProcess]
  rw [hset] at happend' hs' hc'
  obtain rfl := Except.ok.inj (happend'.symm.trans happend)
  refine ⟨_, hs', hc.trans hc', ⟨rfl, fun y hy => ?_⟩, .of_update rfl rfl fun _ _ => ⟨?_, rfl⟩⟩
  · have hne : y ≠ r := fun he => hy (by rw [he]; exact hstate)
    exact Function.update_of_ne hne ..
  · rw [hstate]
    simp [ListName.state]

theorem wakeLoop_spec {wait : U32} {bound : Nat} (h : Sched k v)
    (hok : wakeLoop c wait bound k = .ok k') :
    ∃ v', Sched k' v' ∧ KeepsLists k v k' v' ∧ Woken k k' ∧ SamePids k k' := by
  suffices hloop : ∀ v, Sched k v →
      ∃ v', Sched k' v' ∧ KeepsLists k v k' v' ∧ Woken k k' ∧ SamePids k k' from hloop v h
  refine wakeLoop_rec (fun k hremove v h => ?_) (fun k k₁ k₂ r hremove happend ih v h => ?_) hok
  · -- nobody waits any more
    obtain ⟨⟨lists, rfl⟩, hs, -⟩ := h.removeList_none hremove
    exact ⟨v, hs, .of_state fun _ => rfl, ⟨rfl, fun _ _ => rfl⟩, .refl k⟩
  · obtain ⟨v₂, hs₂, hc₂, hw₂, hp₂⟩ := wakeOne_spec h hremove happend
    obtain ⟨v', hs, hc, hw, hp⟩ := ih v₂ hs₂
    exact ⟨v', hs, hc₂.trans hc, hw₂.trans hw, hp₂.trans hp⟩

theorem wakeUp_spec {wait : U32} (h : Sched k v) (hok : wakeUp k wait = .ok k') :
    ∃ v', Sched k' v' ∧ KeepsLists k v k' v' ∧ Woken k k' ∧ SamePids k k' := by
  obtain ⟨k₁, k₂, k₃, h₁, h₂, h₃, h₄⟩ := wakeUp_eq hok
  obtain ⟨v₁, hs₁, hc₁, hw₁, hp₁⟩ := wakeLoop_spec h h₁
  obtain ⟨v₂, hs₂, hc₂, hw₂, hp₂⟩ := wakeLoop_spec hs₁ h₂
  obtain ⟨v₃, hs₃, hc₃, hw₃, hp₃⟩ := wakeLoop_spec hs₂ h₃
  obtain ⟨v₄, hs₄, hc₄, hw₄, hp₄⟩ := wakeLoop_spec hs₃ h₄
  exact ⟨v₄, hs₄, ((hc₁.trans hc₂).trans hc₃).trans hc₄, ((hw₁.trans hw₂).trans hw₃).trans hw₄,
    ((hp₁.trans hp₂).trans hp₃).trans hp₄⟩

theorem TouchesFiles.sched (h : Sched k v) (ht : TouchesFiles k r k') :
    Sched k' v ∧ k'.current = k.current ∧ (∀ y, (k'.table y).state = (k.table y).state) ∧
      SamePids k k' := by
  obtain ⟨file, heap, files, rfl⟩ := ht
  have hstate : ∀ y, ((Function.update k.table r { k.table r with file }) y).state =
      (k.table y).state := by
    intro y
    by_cases hy : y = r
    · subst hy
      rw [Function.update_self]
    · rw [Function.update_of_ne hy]
  have hpid : ∀ y, ((Function.update k.table r { k.table r with file }) y).pid =
      (k.table y).pid := by
    intro y
    by_cases hy : y = r
    · subst hy
      rw [Function.update_self]
    · rw [Function.update_of_ne hy]
  refine ⟨h.congr hstate hpid rfl rfl, rfl, hstate, rfl, fun y _ hlive => ⟨?_, hpid y⟩⟩
  rw [← hstate]
  exact hlive

/-- A new process in the ready list of its core. -/
theorem Creates.sched (h : Sched k v) (hcreate : Creates k c r k') :
    ∃ v', Sched k' v' ∧ KeepsLists k v k' v' ∧ r.1 = c ∧ r.2 ≠ 0 ∧
      (k.table r).state = .unused ∧
      k'.current = k.current ∧ (k'.table r).state = .ready ∧ (k'.table r).pid = k.pidNum ∧
      (∀ y, y ≠ r → k'.table y = k.table y) ∧ k'.pidNum = k.pidNum + 1 := by
  obtain ⟨hfind, p, heap, files, lists, hstate, hpid, happend, rfl⟩ := hcreate
  obtain ⟨rfl, hslot, hunused⟩ := findUnusedProcess_eq_some hfind
  have hnot : ∀ l, r ∉ v l := h.notMem (by rw [hunused]; intro q; cases q <;> simp [ListName.state])
  obtain ⟨lists', happend', hs, hc⟩ := h.enlist (q := .ready) hnot hslot p hstate
  obtain ⟨lists'', happend'', he⟩ := append_eq_ok.mp happend'
  have hlists : lists' = lists := by
    have h1 : lists'' = lists := Except.ok.inj (happend''.symm.trans happend)
    rw [← h1]
    exact congrArg Kernel.lists he
  subst hlists
  refine ⟨_, hs.congr (fun _ => rfl) (fun _ => rfl) rfl rfl, hc.trans (.of_state fun _ => rfl),
    rfl, hslot, hunused, rfl, ?_, ?_, ?_, rfl⟩
  · simp [Kernel.setProcess, hstate]
  · simp [Kernel.setProcess, hpid]
  · intro y hy
    exact Function.update_of_ne hy ..

/-- **One turn of `wait`**: a dead process of the core is found, or nothing changes. The slot that
is cleared was that of a dead process of this core, and every other one stays. -/
theorem waitTurn_spec {pid : U32} {reaped : Bool} (h : Sched k v)
    (hok : waitTurn src k c pid = .ok (reaped, k')) :
    ∃ v', Sched k' v' ∧ KeepsLists k v k' v' ∧ k'.current = k.current ∧
      SamePids k k' ∧ ∀ y, (k.table y).state ≠ .killed ∨ y.1 ≠ c → k'.table y = k.table y := by
  rcases waitTurn_cases hok with ⟨-, -, rfl⟩ | ⟨-, hremove⟩ | ⟨r, k₁, -, hremove, hreap⟩
  · exact ⟨v, h, fun _ => id, rfl, .refl _, fun _ _ => rfl⟩
  · obtain ⟨⟨lists, rfl⟩, hs, -⟩ := h.removeList_none hremove
    exact ⟨v, hs, fun _ => id, rfl, .refl k, fun _ _ => rfl⟩
  · obtain ⟨hmem, -, xs, lists, rfl, hq, hxs⟩ := h.removeList_some hremove
    obtain ⟨rfl, hslot, hstate⟩ := h.mem c .kill r hmem
    obtain ⟨-, -, heap, files, -, -, -, rfl⟩ := reap_eq hreap
    obtain ⟨hs, hc⟩ := h.dequeue
      { k with lists, table := Function.update k.table r .zero }
      hq hmem hxs .zero (fun q => by cases q <;> simp [ListName.state, Process.zero])
      (fun he => by cases he) rfl rfl (fun _ _ _ _ => rfl) h.current_core
    have hnot := hs.notMem (r := r)
      (fun q => by cases q <;> simp [ListName.state, Process.zero])
    refine ⟨_, ⟨hs.queues.setNext hnot, hs.mem, hs.running, hs.current_core, hs.idle_pid⟩, hc, rfl,
      .of_update (r := r) (p := .zero) rfl rfl fun _ hp => absurd rfl hp, fun y hy => ?_⟩
    have hne : y ≠ r := by
      rintro rfl
      exact hy.elim (fun hy => hy hstate) fun hy => hy rfl
    exact Function.update_of_ne hne ..

end TinyMultiCore
