import TinyMultiCore.Process.SpaceRuns

/-!
# What every frame is for

The frames in use one by one: the two tables of the file system, and for each process
its stack, the tables of its page map and the pages mapped there.

* `frames_used_once` — with programs that fit into their page, every frame in use has
  exactly one use in every state that is reached, and `wait` frees the ones of the dead
  process and no others;
* `overrun_uses_frame_twice` — a larger program is loaded over the tables of its own page
  map.
-/

namespace TinyMultiCore

open RadixTree TransitionSystem

variable {K : KernelImage} {src : FrameSource K} {image : Memory} {k : Kernel} {s : System}

-- ---------------------------------------------------------------------------
-- Uses
-- ---------------------------------------------------------------------------

/-- The table at the end of the path from the root, which is the table of the empty path;
or the page that one of its entries maps. -/
inductive FrameUse where
  | fcbTable
  | fileDescTable
  | stack (r : ProcRef)
  | table (r : ProcRef) (path : List TableIndex)
  | page (r : ProcRef) (path : List TableIndex) (index : TableIndex)

def FrameUse.holder : FrameUse → Holder
  | .fcbTable => .fcbTable
  | .fileDescTable => .fileDescTable
  | .stack r | .table r _ | .page r _ _ => .process r

/-- The use that the frame has. -/
def Kernel.Uses (k : Kernel) : FrameUse → U64 → Prop
  | .fcbTable, f => f = k.fcbTable
  | .fileDescTable, f => f = k.fileDescTable
  | .stack r, f => k.Live r ∧ f = (k.table r).stack
  | .table r p, f => k.Live r ∧ reach (tables k.heap.mem) (k.table r).pageMap p = some f
  | .page r p i, f => k.Live r ∧
      ∃ b, lookup (tables k.heap.mem) (k.table r).pageMap p i = some b ∧ pageOf b = f

/-- The frames of a process, use by use. -/
theorem Kernel.holds_iff (k : Kernel) (o : Holder) (f : U64) :
    k.Holds o f ↔ ∃ u : FrameUse, u.holder = o ∧ k.Uses u f := by
  constructor
  · cases o with
    | fcbTable => exact fun h => ⟨.fcbTable, rfl, h⟩
    | fileDescTable => exact fun h => ⟨.fileDescTable, rfl, h⟩
    | process r =>
      rintro ⟨hr, hf | ⟨p, hp⟩ | ⟨p, i, hb⟩⟩
      · exact ⟨.stack r, rfl, hr, hf⟩
      · exact ⟨.table r p, rfl, hr, hp⟩
      · exact ⟨.page r p i, rfl, hr, hb⟩
  · rintro ⟨u, rfl, hu⟩
    cases u with
    | fcbTable => exact hu
    | fileDescTable => exact hu
    | stack r => exact ⟨hu.1, Or.inl hu.2⟩
    | table r p => exact ⟨hu.1, Or.inr (Or.inl ⟨p, hu.2⟩)⟩
    | page r p i => exact ⟨hu.1, Or.inr (Or.inr ⟨p, i, hu.2⟩)⟩

/-- A process uses a frame in one way. -/
theorem Spaces.use_unique (hS : Spaces K k) {u u' : FrameUse} {f : U64} (he : u.holder = u'.holder)
    (hu : k.Uses u f) (hu' : k.Uses u' f) : u = u' := by
  -- a stack, a table and a page are never the same frame
  have hstack : ∀ {r p}, k.Uses (.stack r) f → ¬ k.Uses (.table r p) f := by
    rintro r p ⟨hr, rfl⟩ ⟨-, hp⟩
    exact (hS.space r hr).apart (Or.inl ⟨p, hp⟩)
  have hstack' : ∀ {r p i}, k.Uses (.stack r) f → ¬ k.Uses (.page r p i) f := by
    rintro r p i ⟨hr, rfl⟩ ⟨-, hb⟩
    exact (hS.space r hr).apart (Or.inr ⟨p, i, hb⟩)
  have htable : ∀ {r p q i}, k.Uses (.table r p) f → ¬ k.Uses (.page r q i) f := by
    rintro r p q i ⟨hr, hp⟩ ⟨-, b, hb, rfl⟩
    exact (hS.space r hr).map.apart q i b p hb hp
  cases u <;> cases u' <;> cases he
  case fcbTable => rfl
  case fileDescTable => rfl
  case stack.stack => rfl
  case stack.table => exact absurd hu' (hstack hu)
  case stack.page => exact absurd hu' (hstack' hu)
  case table.stack => exact absurd hu (hstack hu')
  case table.page => exact absurd hu' (htable hu)
  case page.stack => exact absurd hu (hstack' hu')
  case page.table => exact absurd hu (htable hu')
  case table.table r p p' =>
    have hF := (hS.space r hu.1).map.forest
    rw [(hF.unshared _ List.mem_cons_self _ List.mem_cons_self p p' f hu.2 hu'.2).2]
  case page.page r p i p' i' =>
    obtain ⟨hr, b, hb, hf⟩ := hu
    obtain ⟨-, b', hb', hf'⟩ := hu'
    obtain ⟨rfl, rfl⟩ := (hS.space r hr).map.once p i b p' i' b' hb hb' (hf.trans hf'.symm)
    rfl

theorem Spaces.uses (hS : Spaces K k) : Ledger k.Uses k.heap.inUse :=
  hS.ledger.refine FrameUse.holder k.holds_iff fun _ _ _ he hu hu' => hS.use_unique he hu hu'

-- ---------------------------------------------------------------------------
-- Runs
-- ---------------------------------------------------------------------------

/-- **Every frame in use has exactly one use**, in every state that runs of the four
cores reach, when the programs that `init_process` loads fit into their page. So `wait`
frees only frames in use, none of them twice and none that anything else uses; and it
frees all that the process had. -/
theorem frames_used_once {mem : Memory} {ops : List Op} {s₀ : System}
    (hboot : boot src image mem = .ok s₀) (hrun : Run (System.Step src image) s₀ ops s)
    (hfits : ProgramsFit image) :
    Ledger s.kernel.Uses s.kernel.heap.inUse ∧
    ∀ c pid r k, s.kernel.removeList (c, .kill) pid = .ok (some r, k) →
      ∃ heap₁ heap, k.heap.kfree K (k.table r).stack = .ok heap₁ ∧
        freeVm src heap₁ (k.table r).pageMap = .ok heap ∧ heap.inUse.Nodup ∧
        ∀ f, f ∈ heap.inUse ↔ f ∈ s.kernel.heap.inUse ∧
          ¬ ∃ u : FrameUse, u.holder = .process r ∧ s.kernel.Uses u f := by
  have hS := (run_spacesInv hboot hrun hfits).spaces
  refine ⟨hS.uses, fun c pid r k hremove => ?_⟩
  obtain ⟨v, hs, -⟩ := run_inv hboot hrun
  obtain ⟨-, hslot, hkilled⟩ := hs.sched.removeList_user hremove
  obtain ⟨⟨o, lists⟩, -, hk⟩ := bind_eq_ok.mp hremove
  cases hk
  have hr : s.kernel.Live r := ⟨hslot, by rw [hkilled]; decide⟩
  obtain ⟨heap₁, heap, hstack, hfree, hnd, hmem, -⟩ := (hS.space r hr).free src hS.ledger.nodup
  refine ⟨heap₁, heap, hstack, hfree, hnd, fun f => ?_⟩
  rw [hmem, ← s.kernel.holds_iff (.process r) f]
  exact and_congr_right fun _ => not_congr ⟨fun hf => ⟨hr, hf⟩, And.right⟩

/-- A process forks and its child exits. When it is waited for, all frames that are left
are used by others. -/
theorem reaped_child_leaves_frames : ∃ s k heap₁ heap,
    runFrom smallSource smallDisk (fun _ => 0) [.init 0, .yield 0, .fork 0, .yield 0, .yield 0,
      .exit 0, .exitWake 0, .exitSchedule 0] = some s ∧
    s.kernel.removeList (0, .kill) 6 = .ok (some (0, 3), k) ∧
    k.heap.kfree smallImage (k.table (0, 3)).stack = .ok heap₁ ∧
    freeVm smallSource heap₁ (k.table (0, 3)).pageMap = .ok heap ∧
    ∀ f ∈ heap.inUse, ∃ u : FrameUse, u.holder ≠ .process (0, 3) ∧ s.kernel.Uses u f := by
  have hkilled : (runFrom smallSource smallDisk (fun _ => 0) [.init 0, .yield 0, .fork 0, .yield 0,
      .yield 0, .exit 0, .exitWake 0, .exitSchedule 0]).map (fun s =>
        (s.kernel.removeList (0, .kill) 6).toOption.map Prod.fst) = some (some (some (0, 3))) := by
    decide +kernel
  obtain ⟨s, hs, hremove⟩ := Option.map_eq_some_iff.mp hkilled
  obtain ⟨⟨r, k⟩, hremove, rfl⟩ := Option.map_eq_some_iff.mp hremove
  rw [toOption_eq_some] at hremove
  obtain ⟨s₀, hboot, hrun⟩ := run_of_runFrom _ _ hs
  obtain ⟨hL, hwait⟩ := frames_used_once hboot hrun smallDisk_programsFit
  obtain ⟨heap₁, heap, hstack, hfree, -, hmem⟩ := hwait 0 6 (0, 3) k hremove
  refine ⟨s, k, heap₁, heap, hs, hremove, hstack, hfree, fun f hf => ?_⟩
  obtain ⟨hin, hnot⟩ := (hmem f).mp hf
  obtain ⟨u, hu⟩ := hL.owned f hin
  exact ⟨u, fun he => hnot ⟨u, he, hu⟩, hu⟩

-- ---------------------------------------------------------------------------
-- A program that does not fit
-- ---------------------------------------------------------------------------

/-- A disk with clusters of four megabytes. Behind its first two megabytes `TEST4.BIN`
has three more bytes, which make a table descriptor for the physical address 0x200000. -/
def overrunDisk : Memory := fun x => BitVec.ofNat 8 ((List.lookup (x - fsBase).toNat
  ([(12, 0x80), (13, 0x80), (14, 1), (17, 2), (0x1fe, 0x55), (0x1ff, 0xaa)] ++
    ("TEST4   BIN".toList.mapIdx fun i c => (0x8000 + i, c.toNat)) ++
    [(0x801a, 2), (0x801c, 3), (0x801e, 0x20), (0x208040, 0x03), (0x208042, 0x20)] ++
    ("INIT    BIN".toList.mapIdx fun i c => (0x8020 + i, c.toNat)) ++
    [(0x803a, 3), (0x803c, 1)])).getD 0)

/-- The frame behind the page of `TEST4.BIN` is a table of its map. `read_file` writes the
descriptor there, and the map goes on to the frame of the FCB table. -/
theorem overrun_uses_frame_twice : ∃ s₀ s, boot smallSource overrunDisk (fun _ => 0) = .ok s₀ ∧
    Run (System.Step smallSource overrunDisk) s₀ [.init 0] s ∧
    s.kernel.Uses .fcbTable 0xffff000000200000 ∧
    s.kernel.Uses (.table (0, 1) [0, 0]) 0xffff000000200000 ∧
    ¬ Ledger s.kernel.Uses s.kernel.heap.inUse := by
  have hstate : (runFrom smallSource overrunDisk (fun _ => 0) [.init 0]).map (fun s =>
      (s.kernel.fcbTable, (s.kernel.table (0, 1)).state, (s.kernel.table (0, 1)).pageMap,
        read64 s.kernel.heap.mem 0xffff000000800000,
        read64 s.kernel.heap.mem 0xffff000000c00000)) =
      some (0xffff000000200000, .ready, 0xffff000000800000, 0xc00447, 0x200003) := by
    decide +kernel
  obtain ⟨s, hs, hstate⟩ := Option.map_eq_some_iff.mp hstate
  simp only [Prod.mk.injEq] at hstate
  obtain ⟨hfcb, hready, hmap, hroot, htable⟩ := hstate
  have hreach : reach (tables s.kernel.heap.mem) (s.kernel.table (0, 1)).pageMap [0, 0] =
      some 0xffff000000200000 := by
    rw [hmap, reach, tables, show entryAddr 0xffff000000800000 0 = 0xffff000000800000 by decide,
      hroot]
    rw [show (slotOf 0xc00447).child = some 0xffff000000c00000 by decide, Option.bind_some, reach,
      tables, show entryAddr 0xffff000000c00000 0 = 0xffff000000c00000 by decide, htable]
    rw [show (slotOf 0x200003).child = some 0xffff000000200000 by decide]
    rfl
  obtain ⟨s₀, hboot, hrun⟩ := run_of_runFrom _ _ hs
  have h₁ : s.kernel.Uses .fcbTable 0xffff000000200000 := hfcb.symm
  have h₂ : s.kernel.Uses (.table (0, 1) [0, 0]) 0xffff000000200000 :=
    ⟨⟨by decide, by rw [hready]; decide⟩, hreach⟩
  exact ⟨s₀, s, hboot, hrun, h₁, h₂, fun hL => by cases hL.unique _ _ _ h₁ h₂⟩

end TinyMultiCore
