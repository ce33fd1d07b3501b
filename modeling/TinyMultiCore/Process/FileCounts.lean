import Mathlib.Data.Fintype.BigOperators
import TinyMultiCore.File.References
import TinyMultiCore.Process.Footprint
import TinyMultiCore.Process.SchedulerRuns

/-!
# Reference counts over runs

`FilesInv image k`: the tables of the kernel `k` count the slots of all processes, and
the processes that are not in use have no open files.

* `FilesInv.step` — every step of every core keeps that;
* `file_reference_counts` — so the counts are right in every state that is reached,
  and what relies on them works.
-/

namespace TinyMultiCore

open TransitionSystem

variable {K : KernelImage} {src : FrameSource K} {image mem : Memory} {k k' : Kernel} {c : Core}
  {r : ProcRef} {s s' : System} {v : ListId → List ProcRef} {file : FileSlots} {refs : Nat → Nat}
  {d fd : Nat} {path : Nat → BitVec 8}

-- ---------------------------------------------------------------------------
-- The slots of all processes
-- ---------------------------------------------------------------------------

/-- How many slots of all processes point to the descriptor `d`. -/
def descRefs (k : Kernel) (d : Nat) : Nat := ∑ r : ProcRef, slotRefs (k.table r).file numFiles d

theorem descRefs_congr (h : ∀ r, (k'.table r).file = (k.table r).file) : descRefs k' = descRefs k := by
  funext d
  exact Finset.sum_congr rfl fun r _ => by rw [h r]

theorem descRefs_update {p : Process} (htable : k'.table = Function.update k.table r p) (d : Nat) :
    descRefs k' d + slotRefs (k.table r).file numFiles d =
      descRefs k d + slotRefs p.file numFiles d := by
  have hsum := sum_add_of_eq_off (s := Finset.univ) (a := r)
    (f := fun y => slotRefs (k.table y).file numFiles d)
    (g := fun y => slotRefs (k'.table y).file numFiles d) (Finset.mem_univ r)
    (fun y hy => by rw [htable, Function.update_of_ne hy])
  rw [htable, Function.update_self, ← htable] at hsum
  exact hsum

theorem slotRefs_le_descRefs (k : Kernel) (r : ProcRef) (d : Nat) :
    slotRefs (k.table r).file numFiles d ≤ descRefs k d :=
  Finset.single_le_sum (f := fun y => slotRefs (k.table y).file numFiles d)
    (fun _ _ => Nat.zero_le _) (Finset.mem_univ r)

theorem descRefs_ne_zero (hfd : fd < numFiles) (h : (k.table r).file fd = some d) :
    descRefs k d ≠ 0 := by
  have hpos := slotRefs_pos hfd h
  have hle := slotRefs_le_descRefs k r d
  omega

/-- The counts are right, and only the processes there are have open files. The second part is why a
new process starts without any: its slot is not cleared when it is taken. -/
structure FilesInv (image : Memory) (k : Kernel) : Prop where
  counted : Counted image k.files (descRefs k)
  blank : ∀ r, r.2 = 0 ∨ (k.table r).state = .unused → (k.table r).file = fun _ => none

namespace FilesInv

theorem congr (h : FilesInv image k) (hfiles : k'.files = k.files)
    (hfile : ∀ r, (k'.table r).file = (k.table r).file)
    (hlive : ∀ r, r.2 ≠ 0 → (k'.table r).state = .unused → (k.table r).state = .unused) :
    FilesInv image k' := by
  refine ⟨?_, fun r hr => ?_⟩
  · rw [hfiles, descRefs_congr hfile]
    exact h.counted
  · rw [hfile]
    by_cases hslot : r.2 = 0
    · exact h.blank r (Or.inl hslot)
    · exact h.blank r (Or.inr (hlive r hslot (hr.resolve_left hslot)))

theorem schedules (h : FilesInv image k) (hs : Schedules k k') : FilesInv image k' :=
  h.congr hs.files (fun r => (hs.space r).file) fun r _ => hs.live r

/-- One process has other open files. -/
theorem update {p : Process} (h : FilesInv image k) (hcounted : Counted image k'.files refs)
    (htable : k'.table = Function.update k.table r p)
    (hrefs : ∀ d, refs d + slotRefs (k.table r).file numFiles d =
      descRefs k d + slotRefs p.file numFiles d)
    (hblank : r.2 = 0 ∨ p.state = .unused → p.file = fun _ => none) : FilesInv image k' := by
  refine ⟨hcounted.congr fun d => ?_, fun y hy => ?_⟩
  · have h1 := descRefs_update htable d
    have h2 := hrefs d
    omega
  · rw [htable] at hy ⊢
    by_cases hyr : y = r
    · rw [hyr, Function.update_self] at hy ⊢
      exact hblank hy
    · rw [Function.update_of_ne hyr] at hy ⊢
      exact h.blank y hy

/-- One process, with the same open files. -/
theorem updateSame {p : Process} (h : FilesInv image k) (hcounted : Counted image k'.files (descRefs k))
    (htable : k'.table = Function.update k.table r p) (hfile : p.file = (k.table r).file)
    (hslot : r.2 ≠ 0) (hlive : p.state ≠ .unused) : FilesInv image k' :=
  h.update hcounted htable (fun d => by rw [hfile]) fun hr => absurd hr (by simp [hslot, hlive])

/-- A process opens a file. -/
theorem opened {files : FileTables} (h : FilesInv image k) (hslot : r.2 ≠ 0)
    (hlive : (k.table r).state ≠ .unused)
    (hopen : openFile image k.files (k.table r).file path = some (fd, files, file))
    (hcounted : ∀ refs, Counted image files refs → Counted image k'.files refs)
    (htable : k'.table = Function.update k.table r { k.table r with file }) :
    FilesInv image k' := by
  obtain ⟨hfd, hfree, d, h0, rfl, hopened⟩ := h.counted.openFile hopen
  refine h.update (hcounted _ hopened) htable (fun e => ?_) fun hr => absurd hr (by simp [hslot, hlive])
  have hslots := slotRefs_update hfd (k.table r).file (some d) e
  rw [if_neg (by rw [hfree]; simp), Nat.add_zero] at hslots
  show _ = descRefs k e + slotRefs (Function.update (k.table r).file fd (some d)) numFiles e
  rw [hslots]
  by_cases he : e = d
  · rw [he, Function.update_self, if_pos rfl, h0]
    omega
  · rw [Function.update_of_ne he, if_neg fun hd => he (Option.some.inj hd).symm]
    omega

/-- And closes it. -/
theorem closed {files : FileTables} (h : FilesInv image k) (hslot : r.2 ≠ 0)
    (hlive : (k.table r).state ≠ .unused) (hfd : fd < numFiles) (hopen : (k.table r).file fd = some d)
    (hclose : closeFile k.files (k.table r).file fd = .ok (files, file)) (hfiles : k'.files = files)
    (htable : k'.table = Function.update k.table r { k.table r with file }) :
    FilesInv image k' := by
  obtain ⟨files', hclose', hcounted⟩ :=
    h.counted.closeFile hopen (descRefs_ne_zero hfd hopen)
  rw [hclose'] at hclose
  cases hclose
  rw [← hfiles] at hcounted
  refine h.update hcounted htable (fun e => ?_) fun hr => absurd hr (by simp [hslot, hlive])
  have hslots := slotRefs_update hfd (k.table r).file none e
  rw [if_neg (show ¬(none : Option Nat) = some e by simp), Nat.add_zero] at hslots
  show _ = descRefs k e + slotRefs (Function.update (k.table r).file fd none) numFiles e
  have hle := slotRefs_le_descRefs k r e
  by_cases he : e = d
  · subst he
    rw [if_pos hopen] at hslots
    rw [Function.update_self]
    omega
  · rw [if_neg (by rw [hopen]; exact fun hd => he (Option.some.inj hd).symm)] at hslots
    rw [Function.update_of_ne he]
    omega

-- ---------------------------------------------------------------------------
-- The functions of `process.c`
-- ---------------------------------------------------------------------------

theorem initProgram {program : String} (h : FilesInv image k)
    (hok : TinyMultiCore.initProgram src image k c program = .ok k') : FilesInv image k' := by
  obtain ⟨r, stack, pageMap, k₂, lists, hfind, -, -, hsetup, -, rfl⟩ := initProgram_eq hok
  obtain ⟨-, hslot, hunused⟩ := findUnusedProcess_eq_some hfind
  obtain ⟨page, heap, fd, files, file, size, files₁, mem, files₂, file₂, -, -, hopen, -, hread, hclose,
    rfl⟩ := setupUvm_eq hsetup
  -- what the new process opens, it closes again
  obtain ⟨files', hclose', hcounted⟩ := h.counted.loaded hopen hread
  rw [hclose'] at hclose
  cases hclose
  refine h.updateSame (r := r) (p := { (newProcess k r stack pageMap).table r with
    file := ((newProcess k r stack pageMap).table r).file, state := .ready }) hcounted ?_ ?_ hslot
    (by simp)
  · simp [newProcess, Kernel.setState, Kernel.setProcess]
  · simp [newProcess, Kernel.setProcess]

theorem sysFork {res : Option ProcRef} (h : FilesInv image k)
    (hok : TinyMultiCore.sysFork src k c = .ok (res, k')) : FilesInv image k' := by
  obtain ⟨caller, k₁, mem, -, hfork, -, rfl⟩ := sysFork_eq hok
  obtain ⟨current, r, stack, pageMap, heap, files, lists, -, -, hfind, -, -, -, hshare, -, rfl⟩ :=
    fork_eq hfork
  obtain ⟨-, hslot, hunused⟩ := findUnusedProcess_eq_some hfind
  have hfile : ((newProcess k r stack pageMap).table current).file = (k.table current).file := by
    by_cases hc : current = r
    · subst hc
      simp [newProcess, Kernel.setProcess]
    · simp [newProcess, Kernel.setProcess, hc]
  rw [hfile] at hshare
  have hcounted := h.counted.share (fun fd hfd d hd => descRefs_ne_zero hfd hd) hshare
  refine h.update (r := r)
    (p := childProcess (newProcess k r stack pageMap) r current) hcounted ?_ (fun d => ?_)
    fun hr => absurd hr (by simp [hslot, childProcess])
  · simp [newProcess, Kernel.setProcess]
  · -- the slot of the child had no files
    rw [h.blank r (Or.inr hunused), slotRefs_none, Nat.add_zero]
    show _ = descRefs k d + slotRefs ((newProcess k r stack pageMap).table current).file numFiles d
    rw [hfile]

theorem reap (h : FilesInv image k) (hok : TinyMultiCore.reap src k r = .ok k') :
    FilesInv image k' := by
  obtain ⟨-, heap₁, heap, files, -, -, hdrop, rfl⟩ := reap_eq hok
  have hle := slotRefs_le_descRefs k r
  have hsplit : Counted image k.files fun d => (descRefs k d -
      slotRefs (k.table r).file numFiles d) + slotRefs (k.table r).file numFiles d :=
    h.counted.congr fun d => Nat.sub_add_cancel (hle d)
  have hcounted := hsplit.drop hdrop
  refine h.update (r := r) (p := .zero) hcounted rfl (fun d => ?_) fun _ => rfl
  show _ = descRefs k d + slotRefs (fun _ => none) numFiles d
  rw [slotRefs_none, Nat.sub_add_cancel (hle d), Nat.add_zero]

theorem waitTurn {pid : U32} {reaped : Bool} (h : FilesInv image k)
    (hok : TinyMultiCore.waitTurn src k c pid = .ok (reaped, k')) : FilesInv image k' := by
  rcases waitTurn_cases hok with ⟨-, -, rfl⟩ | ⟨-, hremove⟩ | ⟨r, k₁, -, hremove, hreap⟩
  · exact h
  · exact h.schedules (.removeList hremove)
  · exact (h.schedules (.removeList hremove)).reap hreap

theorem exec {returns : Bool} (h : FilesInv image k) (hslot : r.2 ≠ 0)
    (hlive : (k.table r).state ≠ .unused)
    (hok : TinyMultiCore.exec image k c r path = .ok (returns, k')) : FilesInv image k' := by
  rcases exec_cases hok with ⟨-, -, rfl⟩ | ⟨fd, files, file, page, size, n, files₁, mem, hopen, -, -,
    hread, -, ⟨-, -, rfl⟩ | ⟨-, -, files₂, file₂, hclose, rfl⟩⟩
  · exact h
  · exact h.opened hslot hlive hopen (fun refs hrefs => hrefs.readFile hread) rfl
  · obtain ⟨files', hclose', hcounted⟩ := h.counted.loaded hopen hread
    rw [hclose'] at hclose
    cases hclose
    exact h.updateSame (r := r) hcounted rfl rfl hslot hlive

theorem initIdle (h : FilesInv image k) : FilesInv image (initIdleProcess K k) := by
  refine h.congr rfl (fun r => ?_) fun r hslot hr => ?_
  · show (if r.2 = 0 then idleProcess K (k.table r) r.1 else k.table r).file = _
    split <;> rfl
  · have hsame : (initIdleProcess K k).table r = k.table r := if_neg hslot
    rw [← hsame]
    exact hr

/-- **Every step keeps the counts.** The references are counted over the slots of the processes that
there are. `fork` and `wait` change these for all files of a process at once, the other steps for one
slot at most. -/
theorem step {op : Op} (hs : SystemInv s v) (h : FilesInv image s.kernel)
    (hstep : s.Step src image op s') : FilesInv image s'.kernel := by
  have hlive : ∀ {c r}, s.RunsUser c r → (s.kernel.table r).state ≠ .unused := by
    intro c r hr
    rw [hs.state_of_runsUser hr]
    decide
  cases hstep.kernelEffect with
  | init hk =>
    rcases initProcess_cases hk with ⟨-, k₁, hk₁, hk⟩ | ⟨-, hk⟩
    · exact ((h.initIdle (K := K)).initProgram hk₁).initProgram hk
    · exact h.initProgram hk
  | schedules _ hk => exact h.schedules hk
  | wait hk => exact h.waitTurn hk
  | fork _ hk => exact h.sysFork hk
  | exec hr hexec hexit => exact (h.exec hr.2.2 (hlive hr) hexec).schedules hexit
  | openFile hr hopen hk =>
    rw [hk]
    exact h.opened hr.2.2 (hlive hr) hopen (fun _ => id) rfl
  | closeFile hr hfd hopen hclose hk =>
    obtain ⟨d, hd⟩ := Option.ne_none_iff_exists'.mp hopen
    rw [hk]
    exact h.closed hr.2.2 (hlive hr) hfd hd hclose rfl rfl
  | run _ _ hk =>
    rw [hk]
    exact h.congr rfl (fun _ => rfl) fun _ _ => id

end FilesInv

-- ---------------------------------------------------------------------------
-- Runs
-- ---------------------------------------------------------------------------

/-- The run lemma. -/
theorem run_filesInv {ops : List Op} {s₀ : System} (hboot : boot src image mem = .ok s₀)
    (hrun : Run (System.Step src image) s₀ ops s) : FilesInv image s.kernel := by
  induction hrun with
  | nil =>
    obtain ⟨heap, fcbTable, fileDescTable, -, rfl⟩ := boot_eq hboot
    have hrefs : ∀ d, descRefs ⟨fun _ => .zero, ⟨fun _ => none, fun _ => ⟨none, none⟩⟩, fun _ => none, 4,
        fun _ => v2p K.pgdTtbr0, heap, zeroTables, fcbTable, fileDescTable⟩ d = 0 := fun d =>
      Finset.sum_eq_zero fun r _ => slotRefs_none numFiles d
    refine ⟨⟨fun d => ?_, fun d => ?_, fun d hd => absurd (hrefs d) hd, fun f => ?_, fun f hf => ?_⟩,
      fun r _ => rfl⟩
    · rw [hrefs]
      rfl
    · exact iff_of_true rfl (hrefs d)
    · exact (Finset.sum_eq_zero fun d _ => rfl).symm
    · exact absurd hf (lt_irrefl 0)
  | snoc hr hstep ih =>
    obtain ⟨v, h, -⟩ := run_inv hboot hr
    exact FilesInv.step h ih hstep

/-- **Reference counts.** In every state that runs of the four cores reach from `init_fs`:
a descriptor counts the slots that point to it and has an FCB while there are any; an FCB
counts the descriptors' counts, and while there are any it is the one of its directory
entry. So the `ASSERT` in `put_fcb` holds whenever an open slot is closed, also the one
that a loader has just opened, and `open_file` never returns a descriptor in use. -/
theorem file_reference_counts {ops : List Op} {s₀ : System} (hboot : boot src image mem = .ok s₀)
    (hrun : Run (System.Step src image) s₀ ops s) :
    (∀ d, (s.kernel.files.desc d).count = descRefs s.kernel d) ∧
    (∀ d, (s.kernel.files.desc d).fcb = none ↔ (s.kernel.files.desc d).count = 0) ∧
    (∀ f, (s.kernel.files.fcb f).count = fcbRefs s.kernel.files f) ∧
    (∀ f, 0 < (s.kernel.files.fcb f).count → OfEntry image f (s.kernel.files.fcb f)) ∧
    (∀ r fd, fd < numFiles → (s.kernel.table r).file fd ≠ none →
      ∃ x, closeFile s.kernel.files (s.kernel.table r).file fd = .ok x) ∧
    ∀ r path fd files file,
      openFile image s.kernel.files (s.kernel.table r).file path = some (fd, files, file) →
      (∃ d, file = Function.update (s.kernel.table r).file fd (some d) ∧
        ∀ r' fd', fd' < numFiles → (s.kernel.table r').file fd' ≠ some d) ∧
      ∀ m buffer size n files' m', readFile image files file fd m buffer size = .ok (n, files', m') →
        ∃ x, closeFile files' file fd = .ok x := by
  have h := run_filesInv hboot hrun
  refine ⟨h.counted.count, fun d => ?_, h.counted.fcbs, h.counted.entry, fun r fd hfd hopen => ?_,
    fun r path fd files file hopen => ⟨?_, fun m buffer size n files' m' hread => ?_⟩⟩
  · rw [h.counted.fcb, h.counted.count, Int.natCast_eq_zero]
  · obtain ⟨d, hd⟩ := Option.ne_none_iff_exists'.mp hopen
    obtain ⟨files, hclose, -⟩ := h.counted.closeFile hd (descRefs_ne_zero hfd hd)
    exact ⟨_, hclose⟩
  · obtain ⟨-, -, d, h0, hfile, -⟩ := h.counted.openFile hopen
    exact ⟨d, hfile, fun r' fd' hfd' hd => descRefs_ne_zero hfd' hd h0⟩
  · obtain ⟨files₂, hclose, -⟩ := h.counted.loaded hopen hread
    exact ⟨_, hclose⟩

/-- A process opens its program and forks: both share the descriptor. -/
theorem forked_descriptor_counts : ∃ s,
    runFrom smallSource smallDisk (fun _ => 0)
      [.init 0, .yield 0, .openFile 0 (cString "INIT.BIN"), .fork 0] = some s ∧
    descRefs s.kernel 0 = 2 ∧ (s.kernel.files.desc 0).fcb = some 1 := by
  obtain ⟨s, hs⟩ := Option.isSome_iff_exists.mp (show
    (runFrom smallSource smallDisk (fun _ => 0)
      [.init 0, .yield 0, .openFile 0 (cString "INIT.BIN"), .fork 0]).isSome by decide +kernel)
  have hdesc : (runFrom smallSource smallDisk (fun _ => 0)
      [.init 0, .yield 0, .openFile 0 (cString "INIT.BIN"), .fork 0]).map (fun s =>
        ((s.kernel.files.desc 0).count, (s.kernel.files.desc 0).fcb)) = some (2, some 1) := by
    decide +kernel
  rw [hs] at hdesc
  obtain ⟨hcount, hfcb⟩ := Prod.mk.inj (Option.some.inj hdesc)
  obtain ⟨s₀, hboot, hrun⟩ := run_of_runFrom _ _ hs
  have hrefs := (file_reference_counts hboot hrun).1 0
  exact ⟨s, hs, by omega, hfcb⟩

end TinyMultiCore
