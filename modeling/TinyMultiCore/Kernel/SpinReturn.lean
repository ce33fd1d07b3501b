import TinyMultiCore.Kernel.SpinLock

/-!
# Waiting for a spin lock

Nothing keeps a core from taking a lock that is free. What it has read may be out of date, and
its monitor may have been reset, so that it goes round once more; then nobody else disturbs it.

* `canReturn_ldaxr` — from the `ldaxr` on, the lock is taken in five instructions;
* `spin_lock_returns` — from every spot of the two routines, in every state that is reached.
-/

namespace TinyMultiCore

open ByteMemory SpinLock TransitionSystem

variable {κ : Type} [DecidableEq κ]

variable {locks : Set U64} {s s' : SpinState κ} {a : SpinLabel κ} {c : κ}
  {p p' : SpinCore} {f : Routine} {line : Nat} {i : SpinInstr}
  {as : List (SpinLabel κ)}

-- ---------------------------------------------------------------------------
-- Waiting cores
-- ---------------------------------------------------------------------------

def SpinLabel.core : SpinLabel κ → κ
  | .call c _ _ | .exec c | .store c _ _ | .refuse c | .ret c _ _ | .lose c | .other c => c

/-- At most `n` steps of its own lead the core out of the routines. -/
def CanReturn (locks : Set U64) (s : SpinState κ) (c : κ) (n : Nat) : Prop :=
  ∃ as s', Run (SpinStep locks) s as s' ∧ as.length ≤ n ∧ (∀ a ∈ as, a.core = c) ∧
    (s'.core c).spot = none

theorem CanReturn.step {n : Nat} (hstep : SpinStep locks s a s') (h : CanReturn locks s' a.core n) :
    CanReturn locks s a.core (n + 1) := by
  obtain ⟨as, s'', hrun, hlen, hcore, hout⟩ := h
  refine ⟨a :: as, s'', hrun.cons hstep, Nat.succ_le_succ hlen, ?_, hout⟩
  intro b hb
  rcases List.mem_cons.mp hb with rfl | hb
  · rfl
  · exact hcore b hb

theorem setCore_setCore (s : SpinState κ) (c : κ) (p p' : SpinCore) :
    (s.setCore c p).setCore c p' = s.setCore c p' := by
  unfold SpinState.setCore
  rw [Function.update_idem]

theorem setCore_core (s : SpinState κ) (c : κ) : s.setCore c (s.core c) = s := by
  unfold SpinState.setCore
  rw [Function.update_eq_self]

/-- One more instruction. -/
theorem canReturn_exec {n : Nat} (hspot : p.spot = some (f, line)) (hi : f.code[line]? = some i)
    (hexec : i.exec s.mem p f line = some p') (h : CanReturn locks (s.setCore c p') c n) :
    CanReturn locks (s.setCore c p) c (n + 1) := by
  have hself := setCore_self s c p
  have hstep : SpinStep locks (s.setCore c p) (.exec c) ((s.setCore c p).setCore c p') :=
    .exec c f line i p' (by rw [hself, hspot]) hi (by rw [hself]; exact hexec)
  rw [setCore_setCore] at hstep
  exact CanReturn.step hstep h

/-- The last one. -/
theorem canReturn_ret (hspot : p.spot = some (f, line)) (hi : f.code[line]? = some .ret) :
    CanReturn locks (s.setCore c p) c 1 := by
  have hself := setCore_self s c p
  have hstep : SpinStep locks (s.setCore c p) (.ret c f (((s.setCore c p).core c).x 0)) _ :=
    .ret c f line (by rw [hself, hspot]) hi
  exact CanReturn.step hstep
    ⟨[], _, .nil, Nat.le_refl 0, by simp, congrArg SpinCore.spot (setCore_self _ c _)⟩

theorem CanReturn.mono {n k : Nat} (h : CanReturn locks s c n) (hle : n ≤ k) :
    CanReturn locks s c k := by
  obtain ⟨as, s', hrun, hlen, hrest⟩ := h
  exact ⟨as, s', hrun, hlen.trans hle, hrest⟩

/-- From the `ldaxr` on. -/
theorem canReturn_ldaxr (hspot : p.spot = some (.spinLock, 1)) (hfree : read32 s.mem (p.x 0) = 0) :
    CanReturn locks (s.setCore c p) c 5 := by
  let q : SpinCore := p.setW 2 (read32 s.mem (p.x 0))
  have hzero : q.w 2 = 0 := by
    rw [SpinCore.w_setW, if_pos rfl, hfree]
  have hx : q.x 0 = p.x 0 := SpinCore.setW_x _ _ _ (by decide)
  let q₂ : SpinCore := { q.goTo .spinLock 2 with monitor := some (p.x 0) }
  have hread : SpinInstr.exec s.mem p .spinLock 1 (.ldaxr 2 0) = some q₂ := rfl
  refine canReturn_exec hspot rfl hread ?_
  have hgo : SpinInstr.exec s.mem q₂ .spinLock 2 (.cbnzW 2 6) = some (q₂.goTo .spinLock 3) :=
    congrArg some (congrArg (q₂.goTo .spinLock) (if_neg (not_not.mpr hzero)))
  refine canReturn_exec rfl rfl hgo ?_
  -- the monitor has not been reset
  have hself := setCore_self s c (q₂.goTo .spinLock 3)
  have hstep : SpinStep locks (s.setCore c (q₂.goTo .spinLock 3)) _ _ :=
    .stxr c .spinLock 3 3 1 0 (by rw [hself]; rfl) rfl (by rw [hself]; exact congrArg some hx.symm)
  refine CanReturn.step hstep ?_
  rw [hself]
  have hwritten : ((q₂.goTo .spinLock 3).setW 3 0).w 3 = 0 := by
    rw [SpinCore.w_setW, if_pos rfl]
  refine canReturn_exec rfl rfl
    (congrArg some (congrArg (SpinCore.goTo _ .spinLock) (if_neg (not_not.mpr hwritten)))) ?_
  exact canReturn_ret rfl rfl

/-- The exclusive store may fail. -/
theorem canReturn_stxr (hspot : p.spot = some (.spinLock, 3)) (hfree : read32 s.mem (p.x 0) = 0) :
    CanReturn locks (s.setCore c p) c 7 := by
  have hself := setCore_self s c p
  have hstep : SpinStep locks (s.setCore c p) (.refuse c) _ :=
    .refuse c .spinLock 3 3 1 0 (by rw [hself, hspot]) rfl
  refine CanReturn.step hstep ?_
  rw [hself, setCore_setCore]
  have hone : (p.setW 3 1).w 3 ≠ 0 := by
    rw [SpinCore.w_setW, if_pos rfl]
    decide
  refine canReturn_exec rfl rfl
    (congrArg some (congrArg (SpinCore.goTo _ .spinLock) (if_pos hone))) ?_
  refine canReturn_ldaxr rfl ?_
  show read32 s.mem ((p.setW 3 1).x 0) = 0
  rwa [SpinCore.setW_x _ _ _ (by decide)]

theorem canReturn_spinUnlock (hspot : p.spot = some (.spinUnlock, line)) (hlt : line < 2) :
    CanReturn locks (s.setCore c p) c 2 := by
  have hline : line = 0 ∨ line = 1 := by omega
  rcases hline with rfl | rfl
  · have hself := setCore_self s c p
    have hstep : SpinStep locks (s.setCore c p) _ _ :=
      .stlr c .spinUnlock 0 0 (by rw [hself, hspot]) rfl
    exact CanReturn.step hstep (canReturn_ret (by rw [hself]; rfl) rfl)
  · exact (canReturn_ret hspot rfl).mono (by decide)

theorem canReturn_spinLock (hspot : p.spot = some (.spinLock, line)) (hlt : line < 8)
    (hfree : read32 s.mem (p.x 0) = 0) : CanReturn locks (s.setCore c p) c 8 := by
  have hline : line = 0 ∨ line = 1 ∨ line = 2 ∨ line = 3 ∨ line = 4 ∨ line = 5 ∨ line = 6 ∨
    line = 7 := by omega
  -- `b 1b`
  have hback : ∀ q : SpinCore, q.spot = some (.spinLock, 7) → q.x 0 = p.x 0 →
      CanReturn locks (s.setCore c q) c 6 := by
    intro q hq hx
    exact canReturn_exec hq rfl rfl (canReturn_ldaxr rfl (hx ▸ hfree))
  have hwait : ∀ q : SpinCore, q.spot = some (.spinLock, 6) → q.x 0 = p.x 0 →
      CanReturn locks (s.setCore c q) c 7 := by
    intro q hq hx
    exact canReturn_exec hq rfl rfl (hback _ rfl hx)
  rcases hline with rfl | rfl | rfl | rfl | rfl | rfl | rfl | rfl
  · refine (canReturn_exec hspot rfl rfl (canReturn_ldaxr rfl ?_)).mono (by decide)
    show read32 s.mem ((p.setW 1 1).x 0) = 0
    rwa [SpinCore.setW_x _ _ _ (by decide)]
  · exact (canReturn_ldaxr hspot hfree).mono (by decide)
  · -- what it has read may be out of date
    refine canReturn_exec hspot rfl rfl ?_
    split
    · exact hwait _ rfl rfl
    · exact canReturn_stxr rfl hfree
  · exact (canReturn_stxr hspot hfree).mono (by decide)
  · refine (canReturn_exec (n := 5) hspot rfl rfl ?_).mono (by decide)
    split
    · exact canReturn_ldaxr rfl hfree
    · exact (canReturn_ret rfl rfl).mono (by decide)
  · exact (canReturn_ret hspot rfl).mono (by decide)
  · exact (hwait _ hspot rfl).mono (by decide)
  · exact (hback _ hspot rfl).mono (by decide)

/-- **Nobody waits for a free lock.** In every state that the cores reach, a core in `spin_lock`
whose lock is free can take it and return, and one in `spin_unlock` can return, within eight
instructions of its own. -/
theorem spin_lock_returns (hlocks : LocksApart locks) (hstart : SpinStart locks s)
    (hrun : Run (SpinStep locks) s as s') (hspot : (s'.core c).spot = some (f, line))
    (hfree : f = .spinLock → read32 s'.mem ((s'.core c).x 0) = 0) : CanReturn locks s' c 8 := by
  obtain ⟨h, hinv, -, -⟩ := spin_run hlocks hstart hrun
  obtain ⟨-, hlt⟩ := (hinv.core c).lock _ _ hspot
  rw [← setCore_core s' c]
  cases f with
  | spinLock => exact canReturn_spinLock hspot hlt (hfree rfl)
  | spinUnlock => exact (canReturn_spinUnlock hspot hlt).mono (by decide)

/-- A core has read the free lock, and then its monitor has been reset. -/
theorem unmonitored_core_returns : ∃ t,
    [.call 0 .spinLock 0x1000, .exec 0, .exec 0, .exec 0, .lose 0].foldlM
      (SpinState.next [0x1000]) twoCores = some t ∧
    (t.core 0).spot = some (.spinLock, 3) ∧ (t.core 0).monitor = none ∧
    CanReturn {l | l ∈ [0x1000]} t 0 8 := by
  have hstate : ([.call 0 .spinLock 0x1000, .exec 0, .exec 0, .exec 0, .lose 0].foldlM
      (SpinState.next [0x1000]) twoCores).map (fun t => ((t.core 0).spot, (t.core 0).monitor,
        (t.core 0).x 0, read32 t.mem 0x1000)) =
      some (some (.spinLock, 3), none, 0x1000, 0) := by
    decide +kernel
  obtain ⟨t, ht, hstate⟩ := Option.map_eq_some_iff.mp hstate
  simp only [Prod.mk.injEq] at hstate
  obtain ⟨hspot, hmonitor, hx, hfree⟩ := hstate
  refine ⟨t, ht, hspot, hmonitor, ?_⟩
  exact spin_lock_returns oneLock_apart (twoCores_start _) (twoCores_run ht) hspot
    fun _ => hx ▸ hfree

end TinyMultiCore
