import TinyMultiCore.Process.Footprint
import TinyMultiCore.Process.SchedulerRuns

/-!
# The page table of the current process

`switch_vm` takes the kernel address of a root. `MapsInv` says where the page maps of
the processes point in the states that are reached: those of user processes at
frames, as `switch_vm` expects, and those of the idle processes at the physical
address of the boot table.

* `MapsInv.step` — every step keeps that;
* `switch_loads_root_iff` — so a switch loads the root of the new process exactly when
  it is not the idle one.
-/

namespace TinyMultiCore

open TransitionSystem

variable {K : KernelImage} {src : FrameSource K} {image : Memory} {k k' : Kernel} {c : Core}
  {r : ProcRef} {s s' : System} {v : ListId → List ProcRef}

/-- The kernel address of the root table of a process. -/
def rootTable (K : KernelImage) (k : Kernel) (r : ProcRef) : U64 :=
  if r.2 = 0 then K.pgdTtbr0 else (k.table r).pageMap

/-- What `load_pgd` has been given on core `c` is the physical address of the root table
of `r`: in particular, no bit of the ASID is set. -/
def LoadsRoot (K : KernelImage) (k : Kernel) (c : Core) (r : ProcRef) : Prop :=
  k.ttbr0 c = v2p (rootTable K k r) ∧ k.ttbr0 c >>> 48 = 0

-- ---------------------------------------------------------------------------
-- Page maps
-- ---------------------------------------------------------------------------

/-- Where page maps point: those of user processes are virtual addresses of frames. The idle
processes have a physical one, to which `switch_vm` applies `V2P` once more. -/
structure MapsInv (K : KernelImage) (s : System) : Prop where
  user : ∀ r, r.2 ≠ 0 → (s.kernel.table r).state ≠ .unused → IsFrame K (s.kernel.table r).pageMap
  idle : s.phase 0 ≠ .booting → ∀ c, (s.kernel.table (c, 0)).pageMap = v2p K.pgdTtbr0

/-- No process has got another page map. -/
def KeepsMaps (k k' : Kernel) : Prop :=
  ∀ r, (k'.table r).pageMap = (k.table r).pageMap ∨ (r.2 ≠ 0 ∧ (k'.table r).state = .unused)

theorem Schedules.keepsMaps (h : Schedules k k') : KeepsMaps k k' :=
  fun r => Or.inl (h.space r).pageMap

theorem TouchesFiles.pageMap_eq (h : TouchesFiles k r k') (y : ProcRef) :
    (k'.table y).pageMap = (k.table y).pageMap := by
  obtain ⟨file, heap, files, rfl⟩ := h
  by_cases hy : y = r
  · subst hy
    simp [Kernel.setProcess]
  · simp [Kernel.setProcess, hy]

/-- `wait` reaps a user process. -/
theorem waitTurn_keepsMaps {pid : U32} {reaped : Bool} (h : Sched k v)
    (hok : waitTurn src k c pid = .ok (reaped, k')) : KeepsMaps k k' := by
  rcases waitTurn_cases hok with ⟨-, -, rfl⟩ | ⟨-, hremove⟩ | ⟨r, k₁, -, hremove, hreap⟩
  · exact fun r => Or.inl rfl
  · exact (Schedules.removeList hremove).keepsMaps
  · obtain ⟨-, hslot, -⟩ := h.removeList_user hremove
    obtain ⟨-, -, heap, files, -, -, -, rfl⟩ := reap_eq hreap
    intro y
    by_cases hy : y = r
    · rw [hy]
      refine Or.inr ⟨hslot, ?_⟩
      simp [Kernel.setProcess, Process.zero]
    · refine Or.inl ?_
      show ((Function.update k₁.table r .zero) y).pageMap = _
      rw [Function.update_of_ne hy]
      exact ((Schedules.removeList hremove).space y).pageMap

/-- **Steps that create no process** keep the page maps. The only other step that touches one is
`wait`, which clears the slot with it. -/
theorem step_keepsMaps {op : Op} (h : SystemInv s v) (hstep : s.Step src image op s')
    (hop : op.created = 0) : KeepsMaps s.kernel s'.kernel := by
  cases hstep.kernelEffect with
  | @init c _ =>
    change (if c = 0 then 2 else 1) = 0 at hop
    split at hop <;> omega
  | fork _ _ => exact absurd hop Nat.one_ne_zero
  | schedules _ hk => exact hk.keepsMaps
  | wait hk => exact waitTurn_keepsMaps h.sched hk
  | exec _ hexec hexit =>
    exact fun y => Or.inl ((hexit.space y).pageMap.trans ((exec_touches hexec).pageMap_eq y))
  | openFile _ _ hk => exact fun y => Or.inl (TouchesFiles.pageMap_eq ⟨_, s.kernel.heap, _, hk⟩ y)
  | closeFile _ _ _ _ hk => exact fun y => Or.inl (TouchesFiles.pageMap_eq ⟨_, s.kernel.heap, _, hk⟩ y)
  | run _ _ hk =>
    rw [hk]
    exact fun y => Or.inl rfl

/-- The page maps of user processes. -/
def UserMaps (K : KernelImage) (k : Kernel) : Prop :=
  ∀ r, r.2 ≠ 0 → (k.table r).state ≠ .unused → IsFrame K (k.table r).pageMap

/-- A new process `r` has a frame for its root. -/
def NewMap (K : KernelImage) (k : Kernel) (k' : Kernel) : Prop :=
  ∃ r, r.2 ≠ 0 ∧ IsFrame K (k'.table r).pageMap ∧ ∀ y, y ≠ r → k'.table y = k.table y

theorem NewMap.userMaps (h : NewMap K k k') (hk : UserMaps K k) : UserMaps K k' := by
  obtain ⟨r, -, hf, hother⟩ := h
  intro y hslot hlive
  by_cases hy : y = r
  · rw [hy]
    exact hf
  · rw [hother y hy] at hlive ⊢
    exact hk y hslot hlive

theorem NewMap.idle (h : NewMap K k k') (c : Core) : k'.table (c, 0) = k.table (c, 0) := by
  obtain ⟨r, hslot, -, hother⟩ := h
  exact hother _ fun he => hslot (by rw [← he])

theorem initProgram_newMap {program : String} (hok : initProgram src image k c program = .ok k') :
    NewMap K k k' := by
  obtain ⟨r, stack, pageMap, k₂, lists, hfind, -, hpick, hsetup, -, rfl⟩ := initProgram_eq hok
  obtain ⟨-, hslot, -⟩ := findUnusedProcess_eq_some hfind
  obtain ⟨file, heap, files, rfl⟩ := setupUvm_touches hsetup
  refine ⟨r, hslot, ?_, fun y hy => ?_⟩
  · have hf := (src.fresh hpick).1
    simpa [Kernel.setState, Kernel.setProcess, newProcess] using hf
  · simp [Kernel.setState, Kernel.setProcess, newProcess, hy]

theorem sysFork_newMap {res : Option ProcRef} (hok : sysFork src k c = .ok (res, k')) :
    NewMap K k k' := by
  obtain ⟨caller, k₁, mem, -, hfork, -, rfl⟩ := sysFork_eq hok
  obtain ⟨current, r, stack, pageMap, heap, files, lists, -, -, hfind, -, hpick, -, -, -, rfl⟩ :=
    fork_eq hfork
  obtain ⟨-, hslot, -⟩ := findUnusedProcess_eq_some hfind
  refine ⟨r, hslot, ?_, fun y hy => ?_⟩
  · have hf := (src.fresh hpick).1
    simpa [Kernel.setProcess, newProcess, childProcess] using hf
  · simp [Kernel.setProcess, newProcess, hy]

/-- Only `init_process` runs before core 0 has set up the idle processes. -/
theorem SystemInv.booted {op : Op} (h : SystemInv s v) (hen : s.Enabled op) (hop : ∀ c, op ≠ .init c) :
    s.phase 0 ≠ .booting := by
  have hphase : ∃ c, s.phase c = .running ∨ s.phase c = .exiting ∨ s.phase c = .switching := by
    cases op with
    | init c => exact absurd rfl (hop c)
    | yield c => exact ⟨c, Or.inl hen⟩
    | wakeUp c wait => exact ⟨c, Or.inl hen⟩
    | exitWake c => exact ⟨c, Or.inr (Or.inl hen)⟩
    | exitSchedule c => exact ⟨c, Or.inr (Or.inr hen)⟩
    | sleep c wait | exit c | wait c wait | fork c | exec c wait | openFile c wait | closeFile c wait
    | run c wait =>
      obtain ⟨r, hr⟩ := hen
      first
      | exact ⟨c, Or.inl hr.1⟩
      | exact ⟨c, Or.inl hr.1.1⟩
  obtain ⟨c, hc⟩ := hphase
  refine h.boot_ne (c := c) ?_
  rcases hc with hc | hc | hc <;> rw [hc] <;> decide

/-- `init_process` on core 0 sets up the idle processes of all cores. -/
theorem initProcess_maps (hM : UserMaps K k) (hok : initProcess src image k c = .ok k') :
    UserMaps K k' ∧ ((∀ c, (k.table (c, 0)).pageMap = v2p K.pgdTtbr0) ∨ c = 0 →
      ∀ c, (k'.table (c, 0)).pageMap = v2p K.pgdTtbr0) := by
  rcases initProcess_cases hok with ⟨-, k₁, hok₁, hok⟩ | ⟨hc, hok⟩
  · have hidle : UserMaps K (initIdleProcess K k) := by
      intro r hslot hlive
      have hsame : (initIdleProcess K k).table r = k.table r := if_neg hslot
      rw [hsame] at hlive ⊢
      exact hM r hslot hlive
    have h₁ := initProgram_newMap (K := K) hok₁
    have h₂ := initProgram_newMap (K := K) hok
    refine ⟨h₂.userMaps (h₁.userMaps hidle), fun _ c => ?_⟩
    rw [h₂.idle, h₁.idle]
    rfl
  · have h₁ := initProgram_newMap (K := K) hok
    refine ⟨h₁.userMaps hM, fun hor c => ?_⟩
    rw [h₁.idle]
    exact hor.resolve_right hc c

/-- **Every step keeps the page maps where they should be.** A step that creates no process keeps them
all, so only `init_process` and `fork` are looked at, and of these only the new slots. -/
theorem MapsInv.step {op : Op} (h : SystemInv s v) (hM : MapsInv K s)
    (hstep : s.Step src image op s') : MapsInv K s' := by
  by_cases hop : op.created = 0
  · -- no process is new
    obtain ⟨v', h', -, hpids, -⟩ := h.step hstep
    have hkeep := step_keepsMaps h hstep hop
    have hbooted : s.phase 0 ≠ .booting := by
      refine h.booted hstep.1 fun c he => ?_
      rw [he] at hop
      change (if c = 0 then 2 else 1) = 0 at hop
      split at hop <;> omega
    refine ⟨fun r hslot hlive => ?_, fun _ c => ?_⟩
    · rcases hkeep r with hsame | ⟨-, hunused⟩
      · rw [hsame]
        exact hM.user r hslot ((hpids hop).2 r hslot hlive).1
      · exact absurd hunused hlive
    · rcases hkeep (c, 0) with hsame | ⟨h0, -⟩
      · rw [hsame]
        exact hM.idle hbooted c
      · exact absurd rfl h0
  · cases hstep.kernelEffect with
    | init hk =>
      obtain ⟨huser, hidle⟩ := initProcess_maps hM.user hk
      refine ⟨huser, fun _ => hidle ?_⟩
      exact hstep.1.2.symm.imp (fun h0 => hM.idle h0) id
    | fork hr hk =>
      have hnew := sysFork_newMap (K := K) hk
      refine ⟨hnew.userMaps hM.user, fun _ c => ?_⟩
      rw [hnew.idle]
      exact hM.idle (h.boot_ne (by rw [hr.1]; decide)) c
    | schedules h0 _ => exact absurd h0 hop
    | _ => exact absurd rfl hop

/-- The run lemma. -/
theorem run_mapsInv {mem : Memory} {ops : List Op} {s₀ : System}
    (hboot : boot src image mem = .ok s₀) (hrun : Run (System.Step src image) s₀ ops s) :
    MapsInv K s := by
  induction hrun with
  | nil =>
    obtain ⟨heap, fcbTable, fileDescTable, -, rfl⟩ := boot_eq hboot
    exact ⟨fun r _ hlive => absurd rfl hlive, fun hne => absurd rfl hne⟩
  | snoc hr hstep ih =>
    obtain ⟨v, h, -⟩ := run_inv hboot hr
    exact ih.step h hstep

-- ---------------------------------------------------------------------------
-- Context switches
-- ---------------------------------------------------------------------------

/-- The physical address of a frame fits into the base field of `ttbr0_el1`. -/
theorem IsFrame.v2p_high {f : U64} (h : IsFrame K f) : v2p f >>> 48 = 0 := by
  have hlt : (v2p f).toNat < 2 ^ 48 := by
    rw [h.v2p_toNat, kernelBase_toNat]
    have hend := h.2.2
    rw [memoryEnd_toNat] at hend
    omega
  apply BitVec.eq_of_toNat_eq
  rw [BitVec.toNat_ushiftRight, Nat.shiftRight_eq_div_pow, Nat.div_eq_of_lt hlt]
  rfl

/-- The boot table is not at its physical address, and not at the one `V2P` makes
of that. -/
theorem v2p_pgd_ne (K : KernelImage) : v2p (v2p K.pgdTtbr0) ≠ v2p K.pgdTtbr0 := by
  unfold v2p kernelBase
  bv_omega

/-- **Every switch loads the root table of the new process, but for the idle one.**
Whatever step of whatever run makes another process current on core `c`: the value that
`load_pgd` gets is the physical address of the root table of this process, with no bit of
the ASID set, exactly when a process was ready on the core. -/
theorem switch_loads_root_iff {mem : Memory} {ops : List Op} {op : Op} {s₀ : System}
    {prev : ProcRef} (hboot : boot src image mem = .ok s₀)
    (hrun : Run (System.Step src image) s₀ ops s) (hstep : s.Step src image op s')
    (hprev : s.kernel.current c = some prev) (hcur : s'.kernel.current c = some r)
    (hne : r ≠ prev) :
    LoadsRoot K s'.kernel c r ↔ ¬s.kernel.lists.isListEmpty (c, .ready) := by
  obtain ⟨v, h, -⟩ := run_inv hboot hrun
  obtain ⟨v', h', -, -, hswitch⟩ := h.step hstep
  have hM := (run_mapsInv hboot hrun).step h hstep
  obtain ⟨hidle, hload⟩ := hswitch c prev r hprev hcur hne
  rw [← hidle]
  have hphase : s'.phase 0 ≠ .booting := by
    intro hb
    rw [(h'.booting hb).2.1] at hcur
    cases hcur
  unfold LoadsRoot rootTable
  rw [hload]
  by_cases hr : r.2 = 0
  · obtain rfl : r = (c, 0) := Prod.ext (h'.sched.current_core c r hcur) hr
    rw [if_pos hr, hM.idle hphase]
    exact iff_of_false (fun hl => v2p_pgd_ne K hl.1) (not_not_intro hr)
  · rw [if_neg hr]
    have hlive : (s'.kernel.table r).state ≠ .unused := by
      rcases (h'.phases c).state hcur hr with hs | hs <;> rw [hs] <;> decide
    exact iff_of_true ⟨rfl, (hM.user r hr hlive).v2p_high⟩ hr

/-- The first `yield` of core 0, from its idle process to the first of the ready ones. -/
theorem first_yield_loads_root : ∃ s s',
    runFrom smallSource smallDisk (fun _ => 0) [.init 0] = some s ∧
    s.tryStep smallSource smallDisk (.yield 0) = some s' ∧
    LoadsRoot smallImage s'.kernel 0 (0, 1) := by
  obtain ⟨s', hs'⟩ := Option.isSome_iff_exists.mp (show
    ((runFrom smallSource smallDisk (fun _ => 0) [.init 0]).bind fun s =>
      s.tryStep smallSource smallDisk (.yield 0)).isSome by decide +kernel)
  obtain ⟨s, hs, hstep⟩ := Option.bind_eq_some_iff.mp hs'
  have hbefore : (runFrom smallSource smallDisk (fun _ => 0) [.init 0]).map (fun s =>
      (s.kernel.current 0, decide (s.kernel.lists.isListEmpty (0, .ready)))) =
        some (some (0, 0), false) := by
    decide +kernel
  have hafter : ((runFrom smallSource smallDisk (fun _ => 0) [.init 0]).bind fun s =>
      s.tryStep smallSource smallDisk (.yield 0)).map (·.kernel.current 0) =
        some (some (0, 1)) := by
    decide +kernel
  rw [hs'] at hafter
  rw [hs] at hbefore
  obtain ⟨hprev, hready⟩ := Prod.mk.inj (Option.some.inj hbefore)
  obtain ⟨s₀, hboot, hrun⟩ := run_of_runFrom _ _ hs
  exact ⟨s, s', hs, hstep, (switch_loads_root_iff hboot hrun (System.step_of_tryStep hstep) hprev
    (Option.some.inj hafter) (by decide)).mpr (of_decide_eq_false hready)⟩

/-- When both processes of core 0 sleep, it switches to its idle process, and `load_pgd`
gets an address with the lowest bit of the ASID set. -/
theorem idle_switch_loads_no_root : ∃ s s',
    runFrom smallSource smallDisk (fun _ => 0) [.init 0, .yield 0, .sleep 0 (-1)] = some s ∧
    s.tryStep smallSource smallDisk (.sleep 0 (-1)) = some s' ∧
    s.kernel.current 0 = some (0, 2) ∧ s'.kernel.current 0 = some (0, 0) ∧
    s'.kernel.ttbr0 0 = 0x0001000000090000 ∧ ¬LoadsRoot smallImage s'.kernel 0 (0, 0) := by
  obtain ⟨s', hs'⟩ := Option.isSome_iff_exists.mp (show
    ((runFrom smallSource smallDisk (fun _ => 0) [.init 0, .yield 0, .sleep 0 (-1)]).bind fun s =>
      s.tryStep smallSource smallDisk (.sleep 0 (-1))).isSome by decide +kernel)
  obtain ⟨s, hs, hstep⟩ := Option.bind_eq_some_iff.mp hs'
  have hbefore : (runFrom smallSource smallDisk (fun _ => 0)
      [.init 0, .yield 0, .sleep 0 (-1)]).map (·.kernel.current 0) = some (some (0, 2)) := by
    decide +kernel
  have hafter : ((runFrom smallSource smallDisk (fun _ => 0) [.init 0, .yield 0, .sleep 0 (-1)]).bind
      fun s => s.tryStep smallSource smallDisk (.sleep 0 (-1))).map (fun s =>
        (s.kernel.current 0, s.kernel.ttbr0 0)) = some (some (0, 0), 0x0001000000090000) := by
    decide +kernel
  rw [hs'] at hafter
  rw [hs] at hbefore
  obtain ⟨hcur, hload⟩ := Prod.mk.inj (Option.some.inj hafter)
  refine ⟨s, s', hs, hstep, Option.some.inj hbefore, hcur, hload, fun hl => ?_⟩
  have hhigh := hl.2
  rw [hload] at hhigh
  exact absurd hhigh (by decide)

end TinyMultiCore
