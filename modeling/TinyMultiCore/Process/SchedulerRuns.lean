import TinyMultiCore.Process.SchedulerSteps

/-!
# The scheduler's invariant over runs

* `run_inv` — it holds in every state that the four cores reach from `boot`;
* `scheduler_invariant` — what it says about each slot of the process table there.
-/

namespace TinyMultiCore

open LinkedList TransitionSystem

variable {K : KernelImage} {src : FrameSource K} {image : Memory} {k : Kernel}
  {v : ListId → List ProcRef} {r : ProcRef}

/-- What `boot` leaves behind, apart from the frames of the file tables. -/
theorem boot_eq {mem : Memory} {s : System} (hboot : boot src image mem = .ok s) :
    ∃ heap fcbTable fileDescTable, initFs src image ⟨mem, [], 0⟩ =
        .ok (fcbTable, fileDescTable, heap) ∧
      s = ⟨⟨fun _ => .zero, ⟨fun _ => none, fun _ => ⟨none, none⟩⟩, fun _ => none, 4,
        fun _ => v2p K.pgdTtbr0, heap, zeroTables, fcbTable, fileDescTable⟩, fun _ => .booting⟩ := by
  obtain ⟨⟨fcbTable, fileDescTable, heap⟩, hinit, hs⟩ := bind_eq_ok.mp hboot
  cases hs
  exact ⟨heap, fcbTable, fileDescTable, hinit, rfl⟩

theorem boot_inv {mem : Memory} {s : System} (hboot : boot src image mem = .ok s) :
    SystemInv s (fun _ => []) ∧ Numbered 0 s.kernel fun _ => [] := by
  obtain ⟨heap, fcbTable, fileDescTable, -, rfl⟩ := boot_eq hboot
  refine ⟨⟨⟨⟨fun _ => Represents.nil, ?_⟩, ?_, ?_, ?_, ?_⟩, ?_, ?_, ?_⟩, ⟨rfl, ?_, ?_⟩, ?_⟩
  · intro l l' x hx
    cases hx
  · intro c q r hmem
    cases hmem
  · intro r _ hrun
    cases hrun
  · intro c r hr
    cases hr
  · intro c
    show (0 : U32).toInt < 4
    decide
  · intro c r hr
    cases hr
  · exact fun _ => ⟨fun _ => rfl, fun _ => rfl, fun _ => rfl⟩
  · intro hne
    exact absurd rfl hne
  · intro r _ hlive
    exact absurd rfl hlive
  · intro r r' _ _ hlive
    exact absurd rfl hlive
  · intro q r _ hstate
    cases q <;> cases hstate

/-- The run lemma. -/
theorem run_inv {mem : Memory} {ops : List Op} {s₀ s : System}
    (hboot : boot src image mem = .ok s₀) (hrun : Run (System.Step src image) s₀ ops s) :
    ∃ v, SystemInv s v ∧ (created ops < 2 ^ 31 - 4 → Numbered (created ops) s.kernel v) := by
  induction hrun with
  | nil => exact ⟨_, (boot_inv hboot).1, fun _ => (boot_inv hboot).2⟩
  | snoc hr hstep ih =>
    obtain ⟨v, h, hnum⟩ := ih
    obtain ⟨v', h', hcounts, -⟩ := h.step hstep
    refine ⟨v', h', fun hcreated => ?_⟩
    rw [created_snoc] at hcreated ⊢
    exact hcounts.1 _ hcreated (hnum (by omega))

/-- Exactly once on the list `l`, and on no other one. -/
def OnlyOn (v : ListId → List ProcRef) (r : ProcRef) (l : ListId) : Prop :=
  (v l).count r = 1 ∧ ∀ l', l' ≠ l → r ∉ v l'

/-- On no list. -/
def OnNone (v : ListId → List ProcRef) (r : ProcRef) : Prop := ∀ l, r ∉ v l

/-- What the state of slot `r` says about the lists and about its core. -/
def SlotOk (k : Kernel) (v : ListId → List ProcRef) (r : ProcRef) : Prop :=
  match (k.table r).state with
  | .unused => OnNone v r ∧ ∀ c, k.current c ≠ some r
  | .ready => OnlyOn v r (r.1, .ready)
  | .sleep => OnlyOn v r (r.1, .wait)
  | .killed => OnlyOn v r (r.1, .kill)
  | .running => k.current r.1 = some r ∧ OnNone v r
  | .init => True

theorem Sched.onlyOn {q : ListName} (h : Sched k v) (hc : Complete k v) (hslot : r.2 ≠ 0)
    (hstate : (k.table r).state = q.state) : OnlyOn v r (r.1, q) := by
  have hmem := hc q r hslot hstate
  refine ⟨List.count_eq_one_of_mem (h.queues.rep _).nodup hmem, fun l hl hmem' => ?_⟩
  exact hl (h.queues.disjoint _ _ r hmem' hmem)

theorem SystemInv.slotOk {s : System} (h : SystemInv s v) (hc : Complete s.kernel v)
    (hslot : r.2 ≠ 0) : SlotOk s.kernel v r := by
  unfold SlotOk
  split
  · rename_i hstate
    refine ⟨h.sched.notMem (by rw [hstate]; intro q; cases q <;> simp [ListName.state]),
      fun c hcur => ?_⟩
    have hlive := (h.phases c).state hcur hslot
    rw [hstate] at hlive
    exact hlive.elim (fun he => by cases he) fun he => by cases he
  · rename_i hstate
    exact h.sched.onlyOn hc hslot hstate
  · rename_i hstate
    exact h.sched.onlyOn hc hslot hstate
  · rename_i hstate
    exact h.sched.onlyOn hc hslot hstate
  · rename_i hstate
    exact ⟨h.sched.running r hslot hstate, h.sched.notMem_running hstate⟩
  · trivial

/-- **The scheduler's invariant.** In every state that runs of the four cores reach:
the lists hold sequences of processes; every slot from 1 on is on the lists, or
current, as its state says; no process is on another core's list; the processes
there are have different numbers from 4 on; and what `wait` takes off a kill list
is dead. -/
theorem scheduler_invariant {mem : Memory} {ops : List Op} {s₀ s : System}
    (hboot : boot src image mem = .ok s₀) (hrun : Run (System.Step src image) s₀ ops s)
    (hcreated : created ops < 2 ^ 31 - 4) :
    ∃ v : ListId → List ProcRef,
      (∀ l, LinkedList.Represents s.kernel.lists.next (s.kernel.lists.head l) (v l)) ∧
      (∀ r, r.2 ≠ 0 → SlotOk s.kernel v r) ∧
      (∀ c q r, r ∈ v (c, q) → r.1 = c) ∧
      (∀ r, r.2 ≠ 0 → (s.kernel.table r).state ≠ .unused → 4 ≤ (s.kernel.table r).pid.toInt) ∧
      (∀ r r', r.2 ≠ 0 → r'.2 ≠ 0 → (s.kernel.table r).state ≠ .unused →
        (s.kernel.table r').state ≠ .unused → (s.kernel.table r).pid = (s.kernel.table r').pid →
        r = r') ∧
      (∀ c pid r k, s.kernel.removeList (c, .kill) pid = .ok (some r, k) →
        (s.kernel.table r).state = .killed) := by
  obtain ⟨v, h, hnum⟩ := run_inv hboot hrun
  obtain ⟨hpids, hcomplete⟩ := hnum hcreated
  refine ⟨v, h.sched.queues.rep, fun r hslot => h.slotOk hcomplete hslot, fun c q r hmem => ?_,
    fun r hslot hlive => hpids.le_toInt hcreated hslot hlive, hpids.inj, fun c pid r k hok => ?_⟩
  · exact (h.sched.mem c q r hmem).1
  · exact (h.sched.removeList_user hok).2.2

/-- The parent and the child after a first `fork`: one is current, the other ready. -/
theorem forked_processes_scheduled : ∃ s v,
    runFrom smallSource smallDisk (fun _ => 0) [.init 0, .yield 0, .fork 0] = some s ∧
    s.kernel.current 0 = some (0, 1) ∧ OnNone v (0, 1) ∧ OnlyOn v (0, 3) (0, .ready) := by
  obtain ⟨s, hs⟩ := Option.isSome_iff_exists.mp (show
    (runFrom smallSource smallDisk (fun _ => 0) [.init 0, .yield 0, .fork 0]).isSome by
      decide +kernel)
  have hstates : ((runFrom smallSource smallDisk (fun _ => 0)
      [.init 0, .yield 0, .fork 0]).map fun s =>
        ((s.kernel.table (0, 1)).state, (s.kernel.table (0, 3)).state)) =
      some (.running, .ready) := by decide +kernel
  rw [hs] at hstates
  obtain ⟨hparent, hchild⟩ := Prod.mk.inj (Option.some.inj hstates)
  obtain ⟨s₀, hboot, hrun⟩ := run_of_runFrom _ _ hs
  obtain ⟨v, -, hslots, -⟩ := scheduler_invariant hboot hrun (by decide)
  have hp := hslots (0, 1) (by decide)
  have hc := hslots (0, 3) (by decide)
  unfold SlotOk at hp hc
  rw [hparent] at hp
  rw [hchild] at hc
  exact ⟨s, v, hs, hp.1, hp.2, hc⟩

end TinyMultiCore
