import Mathlib.Data.Fintype.Prod
import TinyMultiCore.Process.Creation

/-!
# The scheduler's invariant

Which list a process is in follows from its state. `Sched k v` says that the lists of
the kernel `k` hold the sequences `v`, and that a process in one of them has the
state for it; `Complete k v` that every process with such a state is there. The
second one is lost when a process number has wrapped around: `yield` takes it for
that of an idle process.

Each function of `process.c` moves one process at a time. What that does to the invariant
is here, the functions themselves follow in `Scheduler`:

* `Sched.enlist` — a process that is in no list gets a state and the place for it;
* `Sched.dequeue` — a process is taken out of its list;
* `Sched.switch` — a core gets another current process.
-/

namespace TinyMultiCore

open LinkedList

/-- The state of the processes in a list. -/
def ListName.state : ListName → ProcState
  | .ready => .ready
  | .wait => .sleep
  | .kill => .killed

/-- No list is longer than there are processes. -/
theorem Queues.length_le {s : Lists ListId ProcRef} {v : ListId → List ProcRef} (h : Queues s v)
    (l : ListId) : (v l).length ≤ 120 := by
  have hcard := List.Nodup.length_le_card (h.rep l).nodup
  simpa using hcard

theorem ListName.state_inj {p q : ListName} (h : p.state = q.state) : p = q := by
  cases p <;> cases q <;> first | rfl | cases h

/-- A process in a list has the state for it, and a running one is current. The converse of the
first half is left to `Numbered`: a process with a number that has wrapped may be ready and in no
list. The numbers of the idle processes are what `yield` knows them by. -/
structure Sched (k : Kernel) (v : ListId → List ProcRef) : Prop where
  queues : Queues k.lists v
  mem : ∀ c q r, r ∈ v (c, q) → r.1 = c ∧ r.2 ≠ 0 ∧ (k.table r).state = q.state
  running : ∀ r, r.2 ≠ 0 → (k.table r).state = .running → k.current r.1 = some r
  current_core : ∀ c r, k.current c = some r → r.1 = c
  idle_pid : ∀ c, (k.table (c, 0)).pid.toInt < 4

/-- A process with the state of the lists `q` is in the one of its core. -/
def CompleteOn (q : ListName) (k : Kernel) (v : ListId → List ProcRef) : Prop :=
  ∀ r, r.2 ≠ 0 → (k.table r).state = q.state → r ∈ v (r.1, q)

/-- A process with a state that a list has is in that list. -/
def Complete (k : Kernel) (v : ListId → List ProcRef) : Prop :=
  ∀ q r, r.2 ≠ 0 → (k.table r).state = q.state → r ∈ v (r.1, q)

/-- None of the lists is a process short that was not before. -/
def KeepsLists (k : Kernel) (v : ListId → List ProcRef) (k' : Kernel)
    (v' : ListId → List ProcRef) : Prop := ∀ q, CompleteOn q k v → CompleteOn q k' v'

theorem KeepsLists.of_state {k k' : Kernel} {v : ListId → List ProcRef}
    (hstate : ∀ r, (k'.table r).state = (k.table r).state) : KeepsLists k v k' v := by
  intro q h r hslot hq
  rw [hstate] at hq
  exact h r hslot hq

theorem KeepsLists.trans {k k' k'' : Kernel} {v v' v'' : ListId → List ProcRef}
    (h : KeepsLists k v k' v') (h' : KeepsLists k' v' k'' v'') : KeepsLists k v k'' v'' :=
  fun q hq => h' q (h q hq)

theorem KeepsLists.complete {k k' : Kernel} {v v' : ListId → List ProcRef}
    (h : KeepsLists k v k' v') (hc : Complete k v) : Complete k' v' := fun q => h q (hc q)

namespace Sched

variable {k k' : Kernel} {v : ListId → List ProcRef} {c : Core} {q : ListName} {r : ProcRef}

/-- Nothing that the lists are about has changed. -/
theorem congr (h : Sched k v) (hstate : ∀ r, (k'.table r).state = (k.table r).state)
    (hpid : ∀ r, (k'.table r).pid = (k.table r).pid) (hlists : k'.lists = k.lists)
    (hcurrent : k'.current = k.current) : Sched k' v := by
  refine ⟨?_, ?_, ?_, ?_, ?_⟩
  · rw [hlists]
    exact h.queues
  · intro c q r
    rw [hstate]
    exact h.mem c q r
  · intro r hr hrun
    rw [hstate] at hrun
    rw [hcurrent]
    exact h.running r hr hrun
  · rw [hcurrent]
    exact h.current_core
  · intro c
    rw [hpid]
    exact h.idle_pid c

/-- A process with a state that no list has. -/
theorem notMem (h : Sched k v) (hstate : ∀ q : ListName, (k.table r).state ≠ q.state) (l : ListId) :
    r ∉ v l := by
  obtain ⟨c, q⟩ := l
  intro hmem
  exact hstate q (h.mem c q r hmem).2.2

theorem notMem_running (h : Sched k v) (hrun : (k.table r).state = .running) (l : ListId) :
    r ∉ v l := h.notMem (by rw [hrun]; intro q; cases q <;> simp [ListName.state]) l

/-- A process in no list gets a new record, and is put into the list for its state. -/
theorem enlist (h : Sched k v) (hr : ∀ l, r ∉ v l) (hslot : r.2 ≠ 0) (p : Process)
    (hp : p.state = q.state) :
    ∃ lists, (k.setProcess r p).append (r.1, q) r = .ok { k.setProcess r p with lists } ∧
      Sched { k.setProcess r p with lists }
        (Function.update v (r.1, q) (v (r.1, q) ++ [r])) ∧
      KeepsLists k v { k.setProcess r p with lists }
        (Function.update v (r.1, q) (v (r.1, q) ++ [r])) := by
  obtain ⟨lists, happend, hqueues⟩ := h.queues.append (r.1, q) hr
  refine ⟨lists, ?_, ⟨hqueues, ?_, ?_, h.current_core, ?_⟩, ?_⟩
  · unfold Kernel.append
    show (k.lists.appendListTail (r.1, q) r >>= _) = _
    rw [happend]
    rfl
  · intro c' q' r' hmem
    show r'.1 = c' ∧ r'.2 ≠ 0 ∧ (Function.update k.table r p r').state = q'.state
    by_cases hr' : r' = r
    · subst hr'
      rw [Function.update_self, hp]
      by_cases hl : (c', q') = (r'.1, q)
      · obtain ⟨rfl, rfl⟩ := Prod.mk.inj hl
        exact ⟨rfl, hslot, rfl⟩
      · rw [Function.update_of_ne hl] at hmem
        exact absurd hmem (hr _)
    · rw [Function.update_of_ne hr']
      by_cases hl : (c', q') = (r.1, q)
      · rw [hl, Function.update_self, List.mem_append, List.mem_singleton] at hmem
        rw [(Prod.mk.inj hl).1, (Prod.mk.inj hl).2]
        exact h.mem _ _ _ (hmem.resolve_right hr')
      · rw [Function.update_of_ne hl] at hmem
        exact h.mem c' q' r' hmem
  · intro r' hslot' hrun
    by_cases hr' : r' = r
    · subst hr'
      have hstate : q.state = .running := by
        rw [← hp]
        simpa [Kernel.setProcess] using hrun
      cases q <;> cases hstate
    · exact h.running r' hslot' (by simpa [Kernel.setProcess, hr'] using hrun)
  · intro c'
    have hne : (c', (0 : Fin 30)) ≠ r := fun he => hslot (he ▸ rfl)
    show ((Function.update k.table r p) (c', 0)).pid.toInt < 4
    rw [Function.update_of_ne hne]
    exact h.idle_pid c'
  · intro q' hcomplete r' hslot' hstate
    change (Function.update k.table r p r').state = q'.state at hstate
    by_cases hr' : r' = r
    · subst hr'
      rw [Function.update_self, hp] at hstate
      rw [ListName.state_inj hstate, Function.update_self]
      exact List.mem_append_right _ List.mem_cons_self
    · rw [Function.update_of_ne hr'] at hstate
      have hmem := hcomplete r' hslot' hstate
      by_cases hl : (r'.1, q') = (r.1, q)
      · rw [hl] at hmem ⊢
        rw [Function.update_self]
        exact List.mem_append_left _ hmem
      · rw [Function.update_of_ne hl]
        exact hmem

variable (k') in
/-- A process taken out of its list, with a state that no list has. -/
theorem dequeue {lists : Lists ListId ProcRef} {xs : List ProcRef} (h : Sched k v)
    (hq : Queues lists (Function.update v (c, q) xs)) (hr : r ∈ v (c, q))
    (hxs : ∀ y, y ∈ xs ↔ y ∈ v (c, q) ∧ y ≠ r) (p : Process)
    (hp : ∀ q : ListName, p.state ≠ q.state)
    (hcurrent : p.state = .running → k'.current r.1 = some r)
    (htable : k'.table = Function.update k.table r p) (hlists : k'.lists = lists)
    (hother : ∀ r', r' ≠ r → r'.2 ≠ 0 → (k.table r').state = .running →
      k'.current r'.1 = k.current r'.1)
    (hcore : ∀ c r, k'.current c = some r → r.1 = c) :
    Sched k' (Function.update v (c, q) xs) ∧
      KeepsLists k v k' (Function.update v (c, q) xs) := by
  have hmem := h.mem c q r hr
  refine ⟨⟨by rw [hlists]; exact hq, ?_, ?_, hcore, ?_⟩, ?_⟩
  · intro c' q' r' hmem'
    -- in this list or another one, the process was there before, and is not `r`
    have hold : r' ∈ v (c', q') ∧ r' ≠ r := by
      by_cases hl : (c', q') = (c, q)
      · rw [hl, Function.update_self, hxs] at hmem'
        rwa [hl]
      · rw [Function.update_of_ne hl] at hmem'
        refine ⟨hmem', ?_⟩
        rintro rfl
        exact hl (h.queues.disjoint _ _ _ hmem' hr)
    rw [htable, Function.update_of_ne hold.2]
    exact h.mem c' q' r' hold.1
  · intro r' hslot' hrun
    rw [htable] at hrun
    by_cases hr' : r' = r
    · subst hr'
      exact hcurrent (by simpa using hrun)
    · rw [Function.update_of_ne hr'] at hrun
      rw [hother r' hr' hslot' hrun]
      exact h.running r' hslot' hrun
  · intro c'
    have hne : (c', (0 : Fin 30)) ≠ r := fun he => hmem.2.1 (he ▸ rfl)
    rw [htable, Function.update_of_ne hne]
    exact h.idle_pid c'
  · intro q' hcomplete r' hslot' hstate
    rw [htable] at hstate
    by_cases hr' : r' = r
    · rw [hr', Function.update_self] at hstate
      exact absurd hstate (hp q')
    · rw [Function.update_of_ne hr'] at hstate
      have hmem' := hcomplete r' hslot' hstate
      by_cases hl : (r'.1, q') = (c, q)
      · rw [hl] at hmem' ⊢
        rw [Function.update_self, hxs]
        exact ⟨hmem', hr'⟩
      · rw [Function.update_of_ne hl]
        exact hmem'

/-- A process that is in no list is in none after a change of its state. -/
theorem setAside (h : Sched k v) (hr : ∀ l, r ∉ v l) (hcore : r.2 ≠ 0 → k.current r.1 = some r)
    (state : ProcState) : Sched (k.setState r state) v := by
  refine ⟨h.queues, ?_, ?_, h.current_core, ?_⟩
  · intro c' q' r' hmem
    have hr' : r' ≠ r := fun he => hr _ (he ▸ hmem)
    show _ ∧ _ ∧ (Function.update k.table r _ r').state = q'.state
    rw [Function.update_of_ne hr']
    exact h.mem c' q' r' hmem
  · intro r' hslot' hrun
    by_cases hr' : r' = r
    · exact hr' ▸ hcore (hr' ▸ hslot')
    · exact h.running r' hslot' (by simpa [Kernel.setState, Kernel.setProcess, hr'] using hrun)
  · intro c'
    have hpid := h.idle_pid c'
    by_cases hc : (c', (0 : Fin 30)) = r
    · rw [hc] at hpid ⊢
      simpa [Kernel.setState, Kernel.setProcess] using hpid
    · simpa [Kernel.setState, Kernel.setProcess, hc] using hpid

/-- The idle process is in no list, whatever its state. -/
theorem setIdle (h : Sched k v) (state : ProcState) : Sched (k.setState (c, 0) state) v :=
  h.setAside (fun l hmem => (h.mem l.1 l.2 _ hmem).2.1 rfl) (fun hne => absurd rfl hne) state

/-- The number tells a user process from an idle one. -/
theorem user_of_pid (h : Sched k v) (hpid : 4 ≤ (k.table r).pid.toInt) : r.2 ≠ 0 := by
  intro h0
  have hidle := h.idle_pid r.1
  rw [show (r.1, (0 : Fin 30)) = r from Prod.ext rfl h0.symm] at hidle
  omega

/-- Another process becomes current, where the one before does not run any more. -/
theorem switch (h : Sched k v) (hprev : ∀ r, k.current c = some r → r.2 ≠ 0 →
      (k.table r).state ≠ .running) (htable : k'.table = k.table) (hlists : k'.lists = k.lists)
    (hr : r.1 = c) (hcurrent : k'.current = Function.update k.current c (some r)) :
    Sched k' v := by
  refine ⟨?_, ?_, ?_, ?_, ?_⟩
  · rw [hlists]
    exact h.queues
  · rw [htable]
    exact h.mem
  · intro r' hslot hrun
    rw [htable] at hrun
    have hcur := h.running r' hslot hrun
    have hne : r'.1 ≠ c := fun he => hprev r' (he ▸ hcur) hslot hrun
    rw [hcurrent, Function.update_of_ne hne, hcur]
  · intro c' r' hcur
    rw [hcurrent] at hcur
    by_cases hc : c' = c
    · subst hc
      rw [Function.update_self] at hcur
      rw [← Option.some.inj hcur, hr]
    · rw [Function.update_of_ne hc] at hcur
      exact h.current_core c' r' hcur
  · rw [htable]
    exact h.idle_pid

end Sched

/-- The idle processes are in no list. -/
theorem KeepsLists.setIdle (k : Kernel) (v : ListId → List ProcRef) (c : Core)
    (state : ProcState) : KeepsLists k v (k.setState (c, 0) state) v := by
  intro q h r hslot hstate
  have hr : r ≠ (c, 0) := fun he => hslot (by rw [he])
  exact h r hslot (by simpa [Kernel.setState, Kernel.setProcess, hr] using hstate)

end TinyMultiCore
