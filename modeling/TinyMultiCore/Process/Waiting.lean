import TinyMultiCore.Lib.Service
import TinyMultiCore.Process.RoundRobin
import TinyMultiCore.Process.WakeUp

/-!
# How long a ready process waits

A core takes another process whenever it gets to `schedule`: in `yield`, in `sleep` and at
the end of `exit`. These are its turns. In between, the processes that are created and those
that are woken join its ready list at the end, by the work of any core.

* `SystemInv.ready_step` — what one step makes of the ready lists of all cores;
* `ready_in_turn` — over any run, the processes of a ready list get the core in their
  order, one at each turn.
-/

namespace TinyMultiCore

open LinkedList TransitionSystem

variable {K : KernelImage} {src : FrameSource K} {image : Memory} {k k' : Kernel} {c : Core}
  {r prev x : ProcRef} {v v' : ListId → List ProcRef} {q : List ProcRef} {s s' : System} {op : Op}

/-- The core gets to `schedule` in this step. -/
def Op.turnOf (c : Core) : Op → Bool
  | .yield d | .sleep d _ | .exitSchedule d => d = c
  | _ => false

/-- Processes have joined the ready lists, at their ends. -/
def Joins (v v' : ListId → List ProcRef) : Prop := ∀ c, v (c, .ready) <+: v' (c, .ready)

theorem Joins.refl (v : ListId → List ProcRef) : Joins v v := fun _ => List.prefix_rfl

theorem Joins.trans {v'' : ListId → List ProcRef} (h : Joins v v') (h' : Joins v' v'') :
    Joins v v'' := fun c => (h c).trans (h' c)

theorem Joins.append (v : ListId → List ProcRef) (l : ListId) (xs : List ProcRef) :
    Joins v (Function.update v l (v l ++ xs)) := by
  intro c
  by_cases hl : (c, ListName.ready) = l
  · rw [hl, Function.update_self]
    exact List.prefix_append ..
  · rw [Function.update_of_ne hl]

/-- A list that is not a ready one changes. -/
theorem Joins.update (v : ListId → List ProcRef) {l : ListId} (hl : l.2 ≠ .ready)
    (xs : List ProcRef) : Joins v (Function.update v l xs) := by
  intro c
  rw [Function.update_of_ne (by rintro rfl; exact hl rfl)]

theorem Queues.unique {l : Lists ListId ProcRef} (h : Queues l v) (h' : Queues l v') : v = v' :=
  funext fun list => (h.rep list).unique (h'.rep list)

-- ---------------------------------------------------------------------------
-- What the functions do to the ready lists
-- ---------------------------------------------------------------------------

/-- `append_list_tail` of a process that is on no list. -/
theorem append_joins {l : ListId} (h : Queues k.lists v) (hr : ∀ l, r ∉ v l)
    (hok : k.append l r = .ok k') : Queues k'.lists (Function.update v l (v l ++ [r])) := by
  obtain ⟨lists, happend, rfl⟩ := append_eq_ok.mp hok
  obtain ⟨lists', happend', hq⟩ := h.append l hr
  obtain rfl := Except.ok.inj (happend'.symm.trans happend)
  exact hq

/-- `wake_up` on one core. -/
theorem wakeLoop_joins {w : U32} (h : Queues k.lists v) (hok : wakeLoop c w 121 k = .ok k') :
    ∃ v', Queues k'.lists v' ∧ Joins v v' := by
  have hbound : (woken k v w c).length < 121 :=
    Nat.lt_succ_of_le (Nat.le_trans (List.length_filter_le ..) (h.length_le _))
  obtain ⟨lists, hloop, hq⟩ := wakeLoop_moves h hbound
  obtain rfl := Except.ok.inj (hloop.symm.trans hok)
  refine ⟨_, hq, fun d => ?_⟩
  by_cases hd : d = c
  · rw [hd, wakeCore_ready]
    exact List.prefix_append ..
  · rw [wakeCore_of_ne _ _ _ _ _ hd]

theorem wakeUp_joins {w : U32} (h : Queues k.lists v) (hok : wakeUp k w = .ok k') :
    ∃ v', Queues k'.lists v' ∧ Joins v v' := by
  obtain ⟨k₁, k₂, k₃, h₁, h₂, h₃, h₄⟩ := wakeUp_eq hok
  obtain ⟨v₁, hq₁, hj₁⟩ := wakeLoop_joins h h₁
  obtain ⟨v₂, hq₂, hj₂⟩ := wakeLoop_joins hq₁ h₂
  obtain ⟨v₃, hq₃, hj₃⟩ := wakeLoop_joins hq₂ h₃
  obtain ⟨v₄, hq₄, hj₄⟩ := wakeLoop_joins hq₃ h₄
  exact ⟨v₄, hq₄, ((hj₁.trans hj₂).trans hj₃).trans hj₄⟩

/-- A new process. -/
theorem Creates.joins (h : Sched k v) (hcreate : Creates k c r k') :
    ∃ v', Sched k' v' ∧ Joins v v' := by
  obtain ⟨v', hs, -⟩ := hcreate.sched h
  obtain ⟨hfind, p, heap, files, lists, -, -, happend, rfl⟩ := hcreate
  obtain ⟨-, -, hunused⟩ := findUnusedProcess_eq_some hfind
  have hnot : ∀ l, r ∉ v l := h.notMem (by rw [hunused]; intro q; cases q <;> simp [ListName.state])
  obtain ⟨lists', happend', hq⟩ := h.queues.append (c, .ready) hnot
  obtain rfl := Except.ok.inj (happend'.symm.trans happend)
  exact ⟨v', hs, hs.queues.unique hq ▸ .append v _ _⟩

/-- `schedule` takes the first process off the ready list of its core, and nothing else. -/
theorem schedule_serves (h : Queues k.lists v) (hcur : k.current c = some prev)
    (hok : schedule k c = .ok k') :
    Queues k'.lists (Function.update v (c, .ready) (v (c, .ready)).tail) ∧
      (v (c, .ready) ≠ [] → k'.current c = (v (c, .ready)).head?) := by
  obtain ⟨y, lists, hhead, -, hlists, hcurrent, -⟩ := schedule_cases hcur hok
  rw [hlists, hcurrent, Function.update_self]
  rcases hhead with ⟨hnone, -, rfl⟩ | hhead
  · have hv := h.removeHead_none hnone
    refine ⟨?_, fun hne => absurd hv hne⟩
    rw [hv, List.tail_nil, ← hv, Function.update_eq_self]
    exact h
  · obtain ⟨ys, hv, hq⟩ := h.removeHead_some hhead
    rw [hv]
    exact ⟨hq, fun _ => rfl⟩

/-- What a turn of core `c` does to the ready lists. -/
def Serves (c : Core) (k' : Kernel) (v v' : ListId → List ProcRef) : Prop :=
  (∀ d, d ≠ c → v (d, .ready) <+: v' (d, .ready)) ∧
    ∀ x q, v (c, .ready) = x :: q → k'.current c = some x ∧ q <+: v' (c, .ready)

/-- A turn: a process may join, and `schedule` follows. -/
theorem schedule_turn {v₁ : ListId → List ProcRef} (hj : Joins v v₁) (h : Queues k.lists v₁)
    (hcur : k.current c = some prev) (hok : schedule k c = .ok k') :
    ∃ v', Queues k'.lists v' ∧ Serves c k' v v' := by
  obtain ⟨hq, hfirst⟩ := schedule_serves h hcur hok
  refine ⟨_, hq, fun d hd => ?_, fun x q hv => ?_⟩
  · rw [Function.update_of_ne (by simp [hd])]
    exact hj d
  · obtain ⟨new, hnew⟩ := hj c
    rw [hv, List.cons_append] at hnew
    rw [← hnew] at hfirst ⊢
    refine ⟨hfirst (by simp), ?_⟩
    rw [Function.update_self]
    exact List.prefix_append ..

theorem yieldCpu_serves (h : Sched k v) (hcur : k.current c = some prev)
    (hrun : prev.2 ≠ 0 → (k.table prev).state = .running) (hok : yieldCpu k c = .ok k') :
    ∃ v', Queues k'.lists v' ∧ Serves c k' v v' := by
  rcases yieldCpu_cases hok with ⟨hempty, rfl⟩ | ⟨prev', -, hprev, hturn⟩
  · refine ⟨v, h.queues, fun _ _ => List.prefix_rfl, fun x q hv => ?_⟩
    rw [h.queues.isListEmpty_iff, hv] at hempty
    cases hempty
  obtain rfl := Option.some.inj (hcur.symm.trans hprev)
  rcases hturn with ⟨hpid, k₁, happend, hok⟩ | ⟨-, hok⟩
  · have hq : Queues (k.setState prev .ready).lists v := h.queues
    have hq₁ := append_joins hq (h.notMem_running (hrun (h.user_of_pid hpid))) happend
    obtain ⟨lists, -, rfl⟩ := append_eq_ok.mp happend
    exact schedule_turn (.append v _ _) hq₁ hcur hok
  · exact schedule_turn (k := k.setState prev .ready) (.refl v) h.queues hcur hok

theorem sleepOn_serves {w : U32} (h : Sched k v) (hcur : k.current c = some prev)
    (hrun : (k.table prev).state = .running) (hok : sleepOn k c w = .ok k') :
    ∃ v', Queues k'.lists v' ∧ Serves c k' v v' := by
  obtain ⟨prev', k₁, hprev, happend, hok⟩ := sleepOn_eq hok
  obtain rfl := Option.some.inj (hcur.symm.trans hprev)
  have hq : Queues (k.setProcess prev { k.table prev with state := .sleep, wait := w }).lists v :=
    h.queues
  have hq₁ := append_joins hq (h.notMem_running hrun) happend
  obtain ⟨lists, -, rfl⟩ := append_eq_ok.mp happend
  exact schedule_turn (.append v _ _) hq₁ hcur hok

theorem exitKill_joins (h : Sched k v) (hcur : k.current c = some prev)
    (hrun : (k.table prev).state = .running) (hok : exitKill k c = .ok k') :
    ∃ v', Queues k'.lists v' ∧ Joins v v' := by
  obtain ⟨prev', hprev, happend⟩ := exitKill_eq hok
  obtain rfl := Option.some.inj (hcur.symm.trans hprev)
  have hq : Queues (k.setProcess prev { k.table prev with
    state := .killed, wait := (k.table prev).pid }).lists v := h.queues
  exact ⟨_, append_joins hq (h.notMem_running hrun) happend, .append v _ _⟩

theorem waitTurn_joins {pid : U32} {reaped : Bool} (h : Sched k v)
    (hok : waitTurn src k c pid = .ok (reaped, k')) : ∃ v', Queues k'.lists v' ∧ Joins v v' := by
  rcases waitTurn_cases hok with ⟨-, -, rfl⟩ | ⟨-, hremove⟩ | ⟨y, k₁, -, hremove, hreap⟩
  · exact ⟨v, h.queues, .refl v⟩
  · exact ⟨v, (h.removeList_none hremove).2.1.queues, .refl v⟩
  · obtain ⟨hmem, -, xs, lists, rfl, hq, hxs⟩ := h.removeList_some hremove
    obtain ⟨-, -, heap, files, -, -, -, rfl⟩ := reap_eq hreap
    -- the dead process is on no list any more
    have hnot : ∀ l, y ∉ Function.update v (c, .kill) xs l := by
      intro l hy
      by_cases hl : l = (c, .kill)
      · rw [hl, Function.update_self, hxs] at hy
        exact hy.2 rfl
      · rw [Function.update_of_ne hl] at hy
        exact hl (h.queues.disjoint l (c, .kill) y hy hmem)
    exact ⟨_, hq.setNext hnot, .update v (by simp) xs⟩

-- ---------------------------------------------------------------------------
-- Steps
-- ---------------------------------------------------------------------------

/-- Of the ready lists, `d`'s is served in a turn of `d`; the others only grow. -/
def ReadyStep (op : Op) (k' : Kernel) (v v' : ListId → List ProcRef) : Prop :=
  ∀ d, if op.turnOf d then ∀ x q, v (d, .ready) = x :: q →
      k'.current d = some x ∧ q <+: v' (d, .ready)
    else v (d, .ready) <+: v' (d, .ready)

theorem Joins.readyStep (h : Joins v v') (hop : ∀ d, op.turnOf d = false) :
    ReadyStep op k' v v' := by
  intro d
  rw [hop d, if_neg Bool.false_ne_true]
  exact h d

theorem Serves.readyStep (h : Serves c k' v v') (hop : ∀ d, op.turnOf d = decide (c = d)) :
    ReadyStep op k' v v' := by
  intro d
  rw [hop d]
  by_cases hd : c = d
  · subst hd
    rw [if_pos (by simp)]
    exact h.2
  · rw [if_neg (by simpa using hd)]
    exact h.1 d (Ne.symm hd)

theorem initProcess_joins (h : SystemInv s v)
    (hen : s.phase c = .booting ∧ (c = 0 ∨ s.phase 0 ≠ .booting))
    (hok : initProcess src image s.kernel c = .ok k') : ∃ v', Queues k'.lists v' ∧ Joins v v' := by
  rcases initProcess_cases hok with ⟨rfl, k₁, hok₁, hok⟩ | ⟨hc, hok⟩
  · obtain ⟨r₁, hcreate₁⟩ := initProgram_creates hok₁
    obtain ⟨r₂, hcreate₂⟩ := initProgram_creates hok
    have hidle := (h.initIdle (K := K) hen.1).1.sched
    obtain ⟨v₁, hs₁, hj₁⟩ := hcreate₁.joins hidle
    obtain ⟨v₂, hs₂, hj₂⟩ := hcreate₂.joins hs₁
    exact ⟨v₂, hs₂.queues, hj₁.trans hj₂⟩
  · obtain ⟨r₁, hcreate₁⟩ := initProgram_creates hok
    obtain ⟨v₁, hs₁, hj₁⟩ := hcreate₁.joins h.sched
    exact ⟨v₁, hs₁.queues, hj₁⟩

/-- **One step** and the ready lists of all cores. What a step appends to a list stands behind what
was there, and only a step that schedules takes something off, from the front and on its own core. -/
theorem SystemInv.ready_step (h : SystemInv s v) (hstep : s.Step src image op s') :
    ∃ v', Queues s'.kernel.lists v' ∧ ReadyStep op s'.kernel v v' := by
  obtain ⟨hen, hok⟩ := hstep
  cases op with
  | init c =>
    obtain ⟨k', hk, hs'⟩ := bind_eq_ok.mp hok
    cases hs'
    obtain ⟨v', hq, hj⟩ := initProcess_joins h hen hk
    exact ⟨v', hq, hj.readyStep fun _ => rfl⟩
  | yield c =>
    obtain ⟨k', hk, hs'⟩ := bind_eq_ok.mp hok
    cases hs'
    have hphase : s.phase c = .running := hen
    obtain ⟨prev, hcur⟩ := h.started (h.boot_ne (c := c) (by rw [hphase]; decide)) c
    obtain ⟨v', hq, hserves⟩ := yieldCpu_serves h.sched hcur
      (fun hslot => h.state_of_runsUser ⟨hphase, hcur, hslot⟩) hk
    exact ⟨v', hq, hserves.readyStep fun _ => rfl⟩
  | sleep c w =>
    obtain ⟨k', hk, hs'⟩ := bind_eq_ok.mp hok
    cases hs'
    obtain ⟨prev, hr⟩ := hen
    obtain ⟨v', hq, hserves⟩ := sleepOn_serves h.sched hr.2.1 (h.state_of_runsUser hr) hk
    exact ⟨v', hq, hserves.readyStep fun _ => rfl⟩
  | wakeUp c w =>
    obtain ⟨k', hk, hs'⟩ := bind_eq_ok.mp hok
    cases hs'
    obtain ⟨v', hq, hj⟩ := wakeUp_joins h.sched.queues hk
    exact ⟨v', hq, hj.readyStep fun _ => rfl⟩
  | exit c =>
    obtain ⟨k', hk, hs'⟩ := bind_eq_ok.mp hok
    cases hs'
    obtain ⟨prev, hr⟩ := hen
    obtain ⟨v', hq, hj⟩ := exitKill_joins h.sched hr.2.1 (h.state_of_runsUser hr) hk
    exact ⟨v', hq, hj.readyStep fun _ => rfl⟩
  | exitWake c =>
    obtain ⟨k', hk, hs'⟩ := bind_eq_ok.mp hok
    cases hs'
    obtain ⟨v', hq, hj⟩ := wakeUp_joins h.sched.queues hk
    exact ⟨v', hq, hj.readyStep fun _ => rfl⟩
  | exitSchedule c =>
    obtain ⟨k', hk, hs'⟩ := bind_eq_ok.mp hok
    cases hs'
    have hphase : s.phase c = .switching := hen
    obtain ⟨prev, hcur⟩ := h.started (h.boot_ne (c := c) (by rw [hphase]; decide)) c
    obtain ⟨v', hq, hserves⟩ := schedule_turn (.refl v) h.sched.queues hcur hk
    exact ⟨v', hq, hserves.readyStep fun _ => rfl⟩
  | wait c pid =>
    obtain ⟨⟨reaped, k'⟩, hk, hs'⟩ := bind_eq_ok.mp hok
    cases hs'
    obtain ⟨v', hq, hj⟩ := waitTurn_joins h.sched hk
    exact ⟨v', hq, hj.readyStep fun _ => rfl⟩
  | fork c =>
    obtain ⟨⟨res, k'⟩, hk, hs'⟩ := bind_eq_ok.mp hok
    cases hs'
    obtain ⟨y, -, hcreate⟩ := sysFork_creates hk
    obtain ⟨v', hs, hj⟩ := hcreate.joins h.sched
    exact ⟨v', hs.queues, hj.readyStep fun _ => rfl⟩
  | exec c name =>
    obtain ⟨prev, hr⟩ := hen
    obtain ⟨y, hy, hok⟩ := bind_eq_ok.mp hok
    obtain ⟨⟨returns, k₁⟩, hexec, hok⟩ := bind_eq_ok.mp hok
    obtain ⟨hs, hcurrent, hstate, -⟩ := (exec_touches hexec).sched h.sched
    dsimp only at hok
    split at hok
    · cases hok
      exact ⟨v, hs.queues, (Joins.refl v).readyStep fun _ => rfl⟩
    · obtain ⟨k₂, hk, hs'⟩ := bind_eq_ok.mp hok
      cases hs'
      obtain ⟨v', hq, hj⟩ := exitKill_joins hs (hcurrent ▸ hr.2.1)
        ((hstate prev).trans (h.state_of_runsUser hr)) hk
      exact ⟨v', hq, hj.readyStep fun _ => rfl⟩
  | openFile c path =>
    obtain ⟨y, -, hok⟩ := bind_eq_ok.mp hok
    split at hok <;> cases hok <;> exact ⟨v, h.sched.queues, (Joins.refl v).readyStep fun _ => rfl⟩
  | closeFile c fd =>
    obtain ⟨y, -, hok⟩ := bind_eq_ok.mp hok
    obtain ⟨⟨files, file⟩, -, hok⟩ := bind_eq_ok.mp hok
    cases hok
    exact ⟨v, h.sched.queues, (Joins.refl v).readyStep fun _ => rfl⟩
  | run c mem =>
    cases hok
    exact ⟨v, h.sched.queues, (Joins.refl v).readyStep fun _ => rfl⟩

-- ---------------------------------------------------------------------------
-- Runs
-- ---------------------------------------------------------------------------

/-- The ready list of core `c`. -/
def ReadyList (c : Core) (s : System) (q : List ProcRef) : Prop :=
  LinkedList.Represents s.kernel.lists.next (s.kernel.lists.head (c, .ready)) q

variable (src image c) in
/-- **The ready list of a core is served in its order.** The instance of the rule for queues: its turns
are the steps in which this core schedules. -/
theorem ready_served : FirstComeFirstServed (System.Step src image) (fun s => ∃ v, SystemInv s v)
    (ReadyList c) (Op.turnOf c) (fun s r => s.kernel.current c = some r) where
  keep := by
    rintro s op s' ⟨v, h⟩ hstep
    obtain ⟨v', h', -⟩ := h.step hstep
    exact ⟨v', h'⟩
  wait := by
    rintro s op s' q ⟨v, h⟩ hstep hop hq
    obtain ⟨v', hq', hready⟩ := h.ready_step hstep
    refine ⟨v' (c, .ready), hq'.rep _, ?_⟩
    have hc := hready c
    rw [hop, if_neg Bool.false_ne_true, (h.sched.queues.rep (c, .ready)).unique hq] at hc
    exact hc
  serve := by
    rintro s op s' x q ⟨v, h⟩ hstep hop hq
    obtain ⟨v', hq', hready⟩ := h.ready_step hstep
    have hc := hready c
    rw [if_pos hop] at hc
    obtain ⟨hcur, hprefix⟩ := hc x q ((h.sched.queues.rep (c, .ready)).unique hq)
    exact ⟨hcur, v' (c, .ready), hq'.rep _, hprefix⟩

/-- A core has 29 slots for user processes. -/
theorem Sched.ready_length (h : Sched k v) : (v (c, .ready)).length ≤ 29 := by
  have hmap : ((v (c, .ready)).map Prod.snd).Nodup := by
    refine (h.queues.rep (c, .ready)).nodup.map_on fun x hx y hy he => Prod.ext ?_ he
    rw [(h.mem c .ready x hx).1, (h.mem c .ready y hy).1]
  have hsub : ((v (c, .ready)).map Prod.snd).toFinset ⊆ Finset.univ.erase (0 : Fin 30) := by
    intro i hi
    obtain ⟨x, hx, rfl⟩ := List.mem_map.mp (List.mem_toFinset.mp hi)
    exact Finset.mem_erase.mpr ⟨(h.mem c .ready x hx).2.1, Finset.mem_univ _⟩
  have hcard := Finset.card_le_card hsub
  rw [List.toFinset_card_of_nodup hmap, List.length_map, Finset.card_erase_of_mem (Finset.mem_univ _),
    Finset.card_univ, Fintype.card_fin] at hcard
  exact hcard

/-- **First come, first served.** Take a state that a run of the system reaches and the ready
list `q` of a core in it, and let all cores go on in any way. As long as the core has had no
more turns than `q` is long, the processes of `q` that have not had theirs are at the front
of its ready list, in their old order, and whoever came later is behind them; and the turn
with the number `i`, counted from 0, makes the process `q[i]` the current one. The list is
never longer than 29. -/
theorem ready_in_turn {mem : Memory} {ops later : List Op} {s₀ : System}
    (hboot : boot src image mem = .ok s₀) (hrun : Run (System.Step src image) s₀ ops s)
    (hq : ReadyList c s q) (hlater : Run (System.Step src image) s later s') :
    q.length ≤ 29 ∧
      (later.countP (Op.turnOf c) ≤ q.length →
        ∃ new, ReadyList c s' (q.drop (later.countP (Op.turnOf c)) ++ new)) ∧
      ∀ before op, later = before ++ [op] → op.turnOf c →
        ∀ h : before.countP (Op.turnOf c) < q.length,
          s'.kernel.current c = some q[before.countP (Op.turnOf c)] := by
  obtain ⟨v, hinv, -⟩ := run_inv hboot hrun
  refine ⟨?_, fun hle => ?_, ?_⟩
  · rw [← (hinv.sched.queues.rep (c, .ready)).unique hq]
    exact hinv.sched.ready_length
  · obtain ⟨q', hq', new, rfl⟩ := (ready_served src image c).queue_run ⟨v, hinv⟩ hlater hq hle
    exact ⟨new, hq'⟩
  · rintro before op rfl hop hlt
    exact (ready_served src image c).served_run ⟨v, hinv⟩ hlater hq hop hlt

/-- The second program of core 0 has its turn, whatever is woken before. -/
theorem second_program_runs : ∃ s',
    runFrom smallSource smallDisk (fun _ => 0)
      [.init 0, .yield 0, .wakeUp 0 5, .init 1, .yield 0] = some s' ∧
    s'.kernel.current 0 = some (0, 2) := by
  obtain ⟨s, hs⟩ := Option.isSome_iff_exists.mp (show
    (runFrom smallSource smallDisk (fun _ => 0) [.init 0, .yield 0]).isSome by decide +kernel)
  obtain ⟨s', hs'⟩ := Option.isSome_iff_exists.mp (show
    (runFrom smallSource smallDisk (fun _ => 0)
      [.init 0, .yield 0, .wakeUp 0 5, .init 1, .yield 0]).isSome by decide +kernel)
  have hlist : ((runFrom smallSource smallDisk (fun _ => 0) [.init 0, .yield 0]).map fun s =>
      ((s.kernel.lists.head (0, .ready)).next, (s.kernel.lists.head (0, .ready)).tail,
        s.kernel.lists.next (0, 2))) = some (some (0, 2), some (0, 2), none) := by decide +kernel
  rw [hs] at hlist
  simp only [Option.map_some, Option.some.injEq, Prod.mk.injEq] at hlist
  obtain ⟨hnext, htail, hlast⟩ := hlist
  have hready : ReadyList 0 s [(0, 2)] := ⟨⟨hnext, hlast⟩, by decide, htail⟩
  obtain ⟨s₀, hboot, hrun⟩ := run_of_runFrom _ _ hs
  obtain ⟨s₀', hboot', hrun'⟩ := run_of_runFrom _ _ hs'
  obtain rfl := Except.ok.inj (hboot.symm.trans hboot')
  have hsplit : Run (System.Step smallSource smallDisk) s₀
      ([.init 0, .yield 0] ++ [.wakeUp 0 5, .init 1, .yield 0]) s' := hrun'
  obtain ⟨t, ht, hlater⟩ := hsplit.of_append
  obtain rfl := Run.unique (fun _ _ _ _ hs ht => hs.unique ht) hrun ht
  obtain ⟨-, -, hserved⟩ := ready_in_turn hboot hrun hready hlater
  exact ⟨s', hs', hserved [.wakeUp 0 5, .init 1] (.yield 0) rfl rfl (by decide)⟩

end TinyMultiCore
