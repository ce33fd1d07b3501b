import TinyMultiCore.Kernel.SpinCode
import TinyMultiCore.Lib.Run
import TinyMultiCore.Lib.SpinLock

/-!
# What the cores know of a lock

The argument that makes `ldaxr` and `stxr` atomic: what a core has read is still there as long as
its monitor is set (`SpinCore.Ok`), since a store to the lock resets the monitors of all other
cores. So an `stxr` that succeeds finds the lock free, although the core has read it some steps
before.

* `SpinCore.Ok.exec` — an instruction of a core alone leaves its registers as the next line needs
  them;
* `SpinInv.write` — a store to a lock is seen by every core that watches it;
* `SpinStep.invariant` — every step keeps the invariant, and is one event of the atomic locks of
  `Lib.SpinLock`, or none.
-/

namespace TinyMultiCore

open ByteMemory SpinLock TransitionSystem

variable {κ : Type} [DecidableEq κ]

-- ---------------------------------------------------------------------------
-- What the calls amount to
-- ---------------------------------------------------------------------------

/-- What the step is for the locks. -/
def SpinLabel.event : SpinLabel κ → Option (LockEvent κ U64)
  | .store c l v => some (if v = 0 then .release c l else .acquire c l)
  | _ => none

/-- The holders behind the step. -/
def SpinLabel.holders (h : U64 → Option κ) : SpinLabel κ → U64 → Option κ
  | .store c l v => Function.update h l (if v = 0 then none else some c)
  | _ => h

variable {locks : Set U64} {s s' : SpinState κ} {h : U64 → Option κ} {a : SpinLabel κ} {c d : κ}
  {l : U64} {m mem : Memory} {p p' : SpinCore} {f : Routine} {line : Nat} {i : SpinInstr}

-- ---------------------------------------------------------------------------
-- Lock words
-- ---------------------------------------------------------------------------

/-- The words of the locks do not overlap. -/
def LocksApart (locks : Set U64) : Prop :=
  ∀ l ∈ locks, ∀ l' ∈ locks, l ≠ l' → 4 ≤ (l - l').toNat

theorem read32_store_self (m : Memory) (l : U64) (v : U32) : read32 (store m l 4 v.toNat) l = v := by
  have hv := v.isLt
  rw [read32, load_store _ _ _ (by decide), Nat.mod_eq_of_lt (by omega), BitVec.ofNat_toNat,
    BitVec.setWidth_eq]

theorem LocksApart.read32_store (hlocks : LocksApart locks) {l l' : U64} (hl : l ∈ locks)
    (hl' : l' ∈ locks) (hne : l ≠ l') (v : U32) : read32 (store m l' 4 v.toNat) l = read32 m l := by
  have h1 := hlocks l hl l' hl' hne
  have h2 := hlocks l' hl' l hl (Ne.symm hne)
  rw [read32, store, load_blit_of_apart fun i hi => ?_]
  · rfl
  · have hi' : (BitVec.ofNat 64 i).toNat = i := by
      rw [BitVec.toNat_ofNat, Nat.mod_eq_of_lt (by omega)]
    bv_omega

-- ---------------------------------------------------------------------------
-- The invariant
-- ---------------------------------------------------------------------------

/-- The core is in one of the routines, and the registers are what its line needs. -/
structure SpinCore.Ok (locks : Set U64) (mem : Memory) (p : SpinCore) : Prop where
  lock : ∀ f line, p.spot = some (f, line) → p.x 0 ∈ locks ∧ line < f.code.length
  one : ∀ line, p.spot = some (.spinLock, line) → line ≠ 0 → p.w 1 = 1
  /-- While the monitor is set, the lock has the value that `ldaxr` has read. -/
  fresh : ∀ line l, p.spot = some (.spinLock, line) → line = 2 ∨ line = 3 → p.monitor = some l →
    l = p.x 0 ∧ p.w 2 = read32 mem l
  free : p.spot = some (.spinLock, 3) → p.w 2 = 0

/-- The words of the locks say which of them are free. Who holds a lock is not in the memory: `h` is
the history of acquires and releases so far, and the word is all that the code can see of it. -/
structure SpinInv (locks : Set U64) (s : SpinState κ) (h : U64 → Option κ) : Prop where
  word : ∀ l ∈ locks, read32 s.mem l = 0 ↔ h l = none
  core : ∀ c, (s.core c).Ok locks s.mem

/-- The lines of `spin_lock`. -/
theorem spinLock_code (hi : Routine.spinLock.code[line]? = some i) :
    (line = 0 ∧ i = .movW 1 1) ∨ (line = 1 ∧ i = .ldaxr 2 0) ∨ (line = 2 ∧ i = .cbnzW 2 6) ∨
      (line = 3 ∧ i = .stxr 3 1 0) ∨ (line = 4 ∧ i = .cbnzW 3 1) ∨ (line = 5 ∧ i = .ret) ∨
      (line = 6 ∧ i = .yield) ∨ (line = 7 ∧ i = .b 1) := by
  have hlt : line < 8 := (List.getElem?_eq_some_iff.mp hi).1
  have hline : line = 0 ∨ line = 1 ∨ line = 2 ∨ line = 3 ∨ line = 4 ∨ line = 5 ∨ line = 6 ∨
    line = 7 := by omega
  rcases hline with rfl | rfl | rfl | rfl | rfl | rfl | rfl | rfl <;> cases hi <;> simp

/-- The lines of `spin_unlock`. -/
theorem spinUnlock_code (hi : Routine.spinUnlock.code[line]? = some i) :
    (line = 0 ∧ i = .stlrWzr 0) ∨ (line = 1 ∧ i = .ret) := by
  have hlt : line < 2 := (List.getElem?_eq_some_iff.mp hi).1
  have hline : line = 0 ∨ line = 1 := by omega
  rcases hline with rfl | rfl <;> cases hi <;> simp

@[simp] theorem SpinCore.w_setW (p : SpinCore) (a b : Reg) (v : U32) :
    (p.setW a v).w b = if b = a then v else p.w b := by
  unfold SpinCore.w SpinCore.setW
  by_cases hb : b = a
  · subst hb
    simp
  · simp [hb]

section

variable (p : SpinCore) (a : Reg) (v : U32) (f : Routine) (line : Nat)

@[simp] theorem SpinCore.goTo_spot : (p.goTo f line).spot = some (f, line) := rfl
@[simp] theorem SpinCore.goTo_x : (p.goTo f line).x = p.x := rfl
@[simp] theorem SpinCore.goTo_w : (p.goTo f line).w a = p.w a := rfl
@[simp] theorem SpinCore.goTo_monitor : (p.goTo f line).monitor = p.monitor := rfl

theorem SpinCore.setW_x (ha : a ≠ 0) : (p.setW a v).x 0 = p.x 0 := Function.update_of_ne ha.symm ..

end

/-- The only store-exclusive. -/
theorem stxr_line {status a base : Reg} (hi : f.code[line]? = some (.stxr status a base)) :
    f = .spinLock ∧ line = 3 ∧ status = 3 ∧ a = 1 ∧ base = 0 := by
  cases f with
  | spinLock => simpa using spinLock_code hi
  | spinUnlock => simpa using spinUnlock_code hi

/-- The only store-release. -/
theorem stlr_line {base : Reg} (hi : f.code[line]? = some (.stlrWzr base)) :
    f = .spinUnlock ∧ line = 0 ∧ base = 0 := by
  cases f with
  | spinLock => simpa using spinLock_code hi
  | spinUnlock => simpa using spinUnlock_code hi

/-- The way through `spin_lock`, without its `stxr`. -/
theorem spinLock_exec (hi : f.code[line]? = some i) (hexec : i.exec mem p f line = some p') :
    f = .spinLock ∧
      ((line = 0 ∧ p' = (p.setW 1 1).goTo .spinLock 1) ∨
        (line = 1 ∧ p' = { (p.setW 2 (read32 mem (p.x 0))).goTo .spinLock 2 with
          monitor := some (p.x 0) }) ∨
        (line = 2 ∧ p' = p.goTo .spinLock (if p.w 2 ≠ 0 then 6 else 3)) ∨
        (line = 4 ∧ p' = p.goTo .spinLock (if p.w 3 ≠ 0 then 1 else 5)) ∨
        (line = 6 ∧ p' = p.goTo .spinLock 7) ∨ (line = 7 ∧ p' = p.goTo .spinLock 1)) := by
  cases f with
  | spinLock =>
    refine ⟨rfl, ?_⟩
    rcases spinLock_code hi with ⟨rfl, rfl⟩ | ⟨rfl, rfl⟩ | ⟨rfl, rfl⟩ | ⟨rfl, rfl⟩ | ⟨rfl, rfl⟩ |
      ⟨rfl, rfl⟩ | ⟨rfl, rfl⟩ | ⟨rfl, rfl⟩ <;> cases hexec <;> simp
  | spinUnlock =>
    rcases spinUnlock_code hi with ⟨rfl, rfl⟩ | ⟨rfl, rfl⟩ <;> cases hexec

namespace SpinCore.Ok

/-- Words that the core does not watch may change. -/
theorem congr_mem (hp : p.Ok locks m)
    (hsame : ∀ l ∈ locks, p.monitor = some l → read32 mem l = read32 m l) : p.Ok locks mem where
  lock := hp.lock
  one := hp.one
  free := hp.free
  fresh line l hspot hline hmonitor := by
    obtain ⟨rfl, hread⟩ := hp.fresh line l hspot hline hmonitor
    rw [hsame _ (hp.lock _ _ hspot).1 hmonitor]
    exact ⟨rfl, hread⟩

/-- A core without a monitor. -/
theorem lost (hp : p.Ok locks mem) : { p with monitor := none : SpinCore }.Ok locks mem where
  lock := hp.lock
  one := hp.one
  free := hp.free
  fresh _ _ _ _ hmonitor := by cases hmonitor

/-- Outside the routines. -/
theorem of_out (hout : p.spot = none) : p.Ok locks mem := by
  constructor <;> intros <;> simp_all

/-- At a line of `spin_lock`. -/
theorem of_line (hspot : p.spot = some (.spinLock, line)) (hl : p.x 0 ∈ locks) (hlt : line < 8)
    (hone : line ≠ 0 → p.w 1 = 1)
    (hfresh : line = 2 ∨ line = 3 → ∀ l, p.monitor = some l → l = p.x 0 ∧ p.w 2 = read32 mem l)
    (hfree : line = 3 → p.w 2 = 0) : p.Ok locks mem where
  lock f line' hspot' := by
    rw [hspot] at hspot'
    cases hspot'
    exact ⟨hl, hlt⟩
  one line' hspot' h0 := by
    rw [hspot] at hspot'
    cases hspot'
    exact hone h0
  fresh line' l hspot' hor hmonitor := by
    rw [hspot] at hspot'
    cases hspot'
    exact hfresh hor l hmonitor
  free hspot' := by
    rw [hspot] at hspot'
    cases hspot'
    exact hfree rfl

theorem exec (hp : p.Ok locks mem) (hspot : p.spot = some (f, line))
    (hi : f.code[line]? = some i) (hexec : i.exec mem p f line = some p') : p'.Ok locks mem := by
  obtain ⟨hl, -⟩ := hp.lock _ _ hspot
  obtain ⟨rfl, hcases⟩ := spinLock_exec hi hexec
  have hone := hp.one line hspot
  -- the lines behind which the monitor does not matter
  have hgoTo : ∀ n < 8, n ≠ 2 → n ≠ 3 → (n ≠ 0 → p.w 1 = 1) → (p.goTo .spinLock n).Ok locks mem := by
    intro n hn h2 h3 hone
    exact .of_line rfl hl hn hone (fun hor => absurd hor (by omega)) fun he => absurd he h3
  rcases hcases with ⟨rfl, rfl⟩ | ⟨rfl, rfl⟩ | ⟨rfl, rfl⟩ | ⟨rfl, rfl⟩ | ⟨rfl, rfl⟩ | ⟨rfl, rfl⟩
  · -- `mov`
    have hx : (p.setW 1 1).x 0 = p.x 0 := SpinCore.setW_x _ _ _ (by decide)
    exact .of_line rfl (hx ▸ hl) (by decide) (fun _ => by simp) (fun hor => absurd hor (by decide))
      fun he => absurd he (by decide)
  · -- `ldaxr`
    have hx : (p.setW 2 (read32 mem (p.x 0))).x 0 = p.x 0 := SpinCore.setW_x _ _ _ (by decide)
    have hw : (p.setW 2 (read32 mem (p.x 0))).w 2 = read32 mem (p.x 0) := by
      rw [SpinCore.w_setW, if_pos rfl]
    have hw₁ : (p.setW 2 (read32 mem (p.x 0))).w 1 = 1 := by
      rw [SpinCore.w_setW, if_neg (by decide)]
      exact hone (by decide)
    refine .of_line rfl (hx ▸ hl) (by decide) (fun _ => hw₁) (fun _ l hmonitor => ?_)
      fun he => absurd he (by decide)
    cases hmonitor
    exact ⟨hx.symm, hw⟩
  · -- the lock is free, or it is not
    by_cases h0 : p.w 2 = 0
    · rw [if_neg (not_not.mpr h0)]
      exact .of_line rfl hl (by decide) (fun _ => hone (by decide))
        (fun _ l hmonitor => hp.fresh 2 l hspot (Or.inl rfl) hmonitor) fun _ => h0
    · rw [if_pos h0]
      exact hgoTo 6 (by decide) (by decide) (by decide) fun _ => hone (by decide)
  · split
    · exact hgoTo 1 (by decide) (by decide) (by decide) fun _ => hone (by decide)
    · exact hgoTo 5 (by decide) (by decide) (by decide) fun _ => hone (by decide)
  · exact hgoTo 7 (by decide) (by decide) (by decide) fun _ => hone (by decide)
  · exact hgoTo 1 (by decide) (by decide) (by decide) fun _ => hone (by decide)

/-- Behind an `stxr`. -/
theorem stored (hp : p.Ok locks m) (hspot : p.spot = some (.spinLock, 3)) (v : U32) :
    { (p.setW 3 v).goTo .spinLock 4 with monitor := none : SpinCore }.Ok locks mem := by
  have hx : (p.setW 3 v).x 0 = p.x 0 := SpinCore.setW_x _ _ _ (by decide)
  have hw₁ : (p.setW 3 v).w 1 = 1 := by
    rw [SpinCore.w_setW, if_neg (by decide)]
    exact hp.one 3 hspot (by decide)
  exact .of_line rfl (hx ▸ (hp.lock _ _ hspot).1) (by decide) (fun _ => hw₁)
    (fun hor => absurd hor (by decide)) fun he => absurd he (by decide)

/-- In `spin_unlock`. -/
theorem of_unlock (hspot : p.spot = some (.spinUnlock, line)) (hl : p.x 0 ∈ locks)
    (hlt : line < 2) : p.Ok locks mem where
  lock f line' hspot' := by
    rw [hspot] at hspot'
    cases hspot'
    exact ⟨hl, hlt⟩
  one line' hspot' := by
    rw [hspot] at hspot'
    cases hspot'
  fresh line' l hspot' := by
    rw [hspot] at hspot'
    cases hspot'
  free hspot' := by
    rw [hspot] at hspot'
    cases hspot'

end SpinCore.Ok

-- ---------------------------------------------------------------------------
-- Steps
-- ---------------------------------------------------------------------------

/-- One core goes on. -/
theorem SpinInv.setCore (hinv : SpinInv locks s h) (hp : p.Ok locks s.mem) :
    SpinInv locks (s.setCore c p) h := by
  refine ⟨hinv.word, fun d => ?_⟩
  show (Function.update s.core c p d).Ok locks s.mem
  by_cases hd : d = c
  · rw [hd, Function.update_self]
    exact hp
  · rw [Function.update_of_ne hd]
    exact hinv.core d

/-- One core writes to a lock and goes on. No other core believes that it knows the word. -/
theorem SpinInv.write (hinv : SpinInv locks s h) (hlocks : LocksApart locks) (hl : l ∈ locks)
    (v : U32) (hp : ∀ mem, p.Ok locks mem) :
    SpinInv locks ((s.write c l v).setCore c p)
      (Function.update h l (if v = 0 then none else some c)) := by
  have hword : ∀ l' ∈ locks, l' ≠ l → read32 (s.write c l v).mem l' = read32 s.mem l' :=
    fun l' hl' hne => hlocks.read32_store hl' hl hne v
  refine ⟨fun l' hl' => ?_, fun d => ?_⟩
  · show read32 (s.write c l v).mem l' = 0 ↔ _
    by_cases hne : l' = l
    · rw [hne, Function.update_self, show read32 (s.write c l v).mem l = v from
        read32_store_self s.mem l v]
      split
      · rename_i h0
        exact iff_of_true h0 rfl
      · rename_i h0
        exact iff_of_false h0 (by simp)
    · rw [Function.update_of_ne hne, hword l' hl' hne]
      exact hinv.word l' hl'
  · show (Function.update (s.write c l v).core c p d).Ok locks _
    by_cases hd : d = c
    · rw [hd, Function.update_self]
      exact hp _
    rw [Function.update_of_ne hd]
    by_cases hmonitor : (s.core d).monitor = some l
    · have hcore : (s.write c l v).core d = { s.core d with monitor := none } :=
        if_pos ⟨hd, hmonitor⟩
      rw [hcore]
      exact (hinv.core d).lost.congr_mem fun _ _ hm => by cases hm
    · have hcore : (s.write c l v).core d = s.core d := if_neg fun hboth => hmonitor hboth.2
      rw [hcore]
      refine (hinv.core d).congr_mem fun l' hl' hm => hword l' hl' ?_
      rintro rfl
      exact hmonitor hm

omit [DecidableEq κ] in
/-- The monitor is still set: the lock has the value that was read, and that was zero. -/
theorem SpinInv.free_of_monitor (hinv : SpinInv locks s h)
    (hspot : (s.core c).spot = some (.spinLock, 3))
    (hmonitor : (s.core c).monitor = some ((s.core c).x 0)) : h ((s.core c).x 0) = none := by
  have hp := hinv.core c
  obtain ⟨-, hread⟩ := hp.fresh 3 _ hspot (Or.inr rfl) hmonitor
  rw [← hinv.word _ (hp.lock _ _ hspot).1, ← hread]
  exact hp.free hspot

/-- **Every step keeps the invariant**, and what it does to a lock is an atomic event. Only `stxr` and
`stlr` write to a lock. An `stxr` that succeeds still has its monitor, so nobody has written since the
`ldaxr`, and the zero read there is what the lock has now. -/
theorem SpinStep.invariant (hinv : SpinInv locks s h) (hlocks : LocksApart locks)
    (hstep : SpinStep locks s a s') :
    SpinInv locks s' (a.holders h) ∧ Run Atomic h a.event.toList (a.holders h) := by
  cases hstep with
  | call c f x hout hl =>
    refine ⟨hinv.setCore ?_, .nil⟩
    cases f with
    | spinLock =>
      exact .of_line rfl hl (by decide) (fun h0 => absurd rfl h0) (fun hor => absurd hor (by decide))
        fun he => absurd he (by decide)
    | spinUnlock => exact .of_unlock rfl hl (by decide)
  | exec c f line i p hspot hi hexec =>
    exact ⟨hinv.setCore ((hinv.core c).exec hspot hi hexec), .nil⟩
  | stxr c f line status r base hspot hi hmonitor =>
    obtain ⟨rfl, rfl, rfl, rfl, rfl⟩ := stxr_line hi
    have hp := hinv.core c
    obtain ⟨hl, -⟩ := hp.lock _ _ hspot
    have hfree := hinv.free_of_monitor hspot hmonitor
    have hone := hp.one 3 hspot (by decide)
    refine ⟨hinv.write hlocks hl _ fun _ => hp.stored hspot 0, ?_⟩
    rw [hone]
    exact Run.nil.snoc (.acquire c _ hfree)
  | refuse c f line status r base hspot hi =>
    obtain ⟨rfl, rfl, rfl, rfl, rfl⟩ := stxr_line hi
    exact ⟨hinv.setCore ((hinv.core c).stored hspot 1), .nil⟩
  | stlr c f line base hspot hi =>
    obtain ⟨rfl, rfl, rfl⟩ := stlr_line hi
    obtain ⟨hl, -⟩ := (hinv.core c).lock _ _ hspot
    exact ⟨hinv.write hlocks hl 0 fun mem => .of_unlock rfl hl (by decide),
      Run.nil.snoc (.release c _)⟩
  | ret c f line hspot hi => exact ⟨hinv.setCore (.of_out rfl), .nil⟩
  | lose c => exact ⟨hinv.setCore (hinv.core c).lost, .nil⟩
  | other c mem hout hkeeps =>
    refine ⟨⟨fun l hl => ?_, fun d => ?_⟩, .nil⟩
    · show read32 mem l = 0 ↔ h l = none
      rw [hkeeps l hl]
      exact hinv.word l hl
    · exact (hinv.core d).congr_mem fun l hl _ => hkeeps l hl

end TinyMultiCore
