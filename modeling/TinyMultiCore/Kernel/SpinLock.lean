import TinyMultiCore.Kernel.SpinInvariant

/-!
# `spin_lock` and `spin_unlock`

`SpinStep.invariant` says what the stores to the locks amount to. Here it is what the calls do: a
core holds a lock from the return of `spin_lock` to the call of `spin_unlock`, and the lock is
its own a little longer on both sides (`SpinCore.pending`).

* `HeldInv.step` — of cores that unlock what they hold, the holder of a lock is the one that has it;
* `spin_lock_atomic` — in every interleaving the locks are the atomic ones of `Lib.SpinLock`.
-/

namespace TinyMultiCore

open ByteMemory SpinLock TransitionSystem

variable {κ : Type} [DecidableEq κ]

-- ---------------------------------------------------------------------------
-- What the calls amount to
-- ---------------------------------------------------------------------------

/-- Whether `spin_lock(l)` has returned on `c`, and `spin_unlock(l)` has not been called since. -/
def heldStep (held : κ → U64 → Bool) : SpinLabel κ → κ → U64 → Bool
  | .ret c .spinLock l => fun d m => if d = c ∧ m = l then true else held d m
  | .call c .spinUnlock l => fun d m => if d = c ∧ m = l then false else held d m
  | _ => held

def held (as : List (SpinLabel κ)) : κ → U64 → Bool := as.foldl heldStep fun _ _ => false

/-- Cores unlock what they hold. -/
def Disciplined (as : List (SpinLabel κ)) : Prop :=
  ∀ pre post c l, as = pre ++ .call c .spinUnlock l :: post → held pre c l

theorem held_snoc (as : List (SpinLabel κ)) (a : SpinLabel κ) :
    held (as ++ [a]) = heldStep (held as) a := by
  rw [held, List.foldl_append]
  rfl

theorem Disciplined.prefix {as bs : List (SpinLabel κ)} (h : Disciplined (as ++ bs)) :
    Disciplined as := by
  rintro pre post c l rfl
  exact h pre (post ++ bs) c l (by simp)

theorem Disciplined.last {as : List (SpinLabel κ)} {c : κ} {l : U64}
    (h : Disciplined (as ++ [.call c .spinUnlock l])) : held as c l :=
  h as [] c l rfl

variable {locks : Set U64} {s s' : SpinState κ} {h : U64 → Option κ} {a : SpinLabel κ} {c d : κ}
  {l : U64} {mem : Memory} {p p' : SpinCore} {f : Routine} {line : Nat} {i : SpinInstr}
  {as : List (SpinLabel κ)}

-- ---------------------------------------------------------------------------
-- Who holds a lock
-- ---------------------------------------------------------------------------

/-- The lock that a core holds inside the routines: it has taken it and not returned yet, or it
has been called to release it. -/
def SpinCore.pending (p : SpinCore) : Option U64 :=
  match p.spot with
  | some (.spinLock, 4) => if p.w 3 = 0 then some (p.x 0) else none
  | some (.spinLock, 5) | some (.spinUnlock, 0) => some (p.x 0)
  | _ => none

/-- Of the disciplined cores, the holder of a lock is the one that has it: `spin_lock` has returned
it to that one, which has not unlocked it since, or a call that is not over has it already, or
still. -/
structure HeldInv (as : List (SpinLabel κ)) (s : SpinState κ) (h : U64 → Option κ) : Prop where
  holder : ∀ l c, h l = some c ↔ held as c l ∨ (s.core c).pending = some l
  once : ∀ l c, held as c l → (s.core c).pending ≠ some l

theorem exec_pending (hspot : p.spot = some (f, line)) (hi : f.code[line]? = some i)
    (hexec : i.exec mem p f line = some p') : p'.pending = p.pending := by
  obtain ⟨rfl, hcases⟩ := spinLock_exec hi hexec
  unfold SpinCore.pending
  rw [hspot]
  rcases hcases with ⟨rfl, rfl⟩ | ⟨rfl, rfl⟩ | ⟨rfl, rfl⟩ | ⟨rfl, rfl⟩ | ⟨rfl, rfl⟩ | ⟨rfl, rfl⟩
  · rfl
  · rfl
  · by_cases h0 : p.w 2 = 0
    · rw [if_neg (not_not.mpr h0)]
      rfl
    · rw [if_pos h0]
      rfl
  · by_cases h0 : p.w 3 = 0
    · rw [if_neg (not_not.mpr h0)]
      exact (if_pos h0).symm
    · rw [if_pos h0]
      exact (if_neg h0).symm
  · rfl
  · rfl

/-- Writing to a lock does not move other cores. -/
theorem write_pending (v : U32) : ((s.write c l v).core d).pending = (s.core d).pending := by
  show (if d ≠ c ∧ (s.core d).monitor = some l then { s.core d with monitor := none }
    else s.core d).pending = _
  split <;> rfl

/-- A step of one core concerns the others as little as its locks do. -/
theorem HeldInv.of_actor {h' : U64 → Option κ} (hheld : HeldInv as s h) (c : κ)
    (hother : ∀ d, d ≠ c → (s'.core d).pending = (s.core d).pending)
    (hkeeps : ∀ d, d ≠ c → ∀ l, held (as ++ [a]) d l = held as d l)
    (hholder : ∀ d, d ≠ c → ∀ l, h' l = some d ↔ h l = some d)
    (hactor : ∀ l, h' l = some c ↔ held (as ++ [a]) c l ∨ (s'.core c).pending = some l)
    (honce : ∀ l, held (as ++ [a]) c l → (s'.core c).pending ≠ some l) :
    HeldInv (as ++ [a]) s' h' := by
  refine ⟨fun l d => ?_, fun l d hd => ?_⟩
  · by_cases hne : d = c
    · rw [hne]
      exact hactor l
    · rw [hholder d hne, hkeeps d hne, hother d hne]
      exact hheld.holder l d
  · by_cases hne : d = c
    · subst hne
      exact honce l hd
    · rw [hkeeps d hne] at hd
      rw [hother d hne]
      exact hheld.once l d hd

/-- Nothing happens to the locks. -/
theorem HeldInv.stay (hheld : HeldInv as s h) (hkeeps : held (as ++ [a]) = held as)
    (hpending : ∀ d, (s'.core d).pending = (s.core d).pending) : HeldInv (as ++ [a]) s' h := by
  refine ⟨fun l d => ?_, fun l d hd => ?_⟩
  · rw [hkeeps, hpending]
    exact hheld.holder l d
  · rw [hkeeps] at hd
    rw [hpending]
    exact hheld.once l d hd

theorem setCore_self (s : SpinState κ) (c : κ) (p : SpinCore) : (s.setCore c p).core c = p :=
  Function.update_self ..

theorem setCore_of_ne (s : SpinState κ) (p : SpinCore) (hd : d ≠ c) :
    (s.setCore c p).core d = s.core d := Function.update_of_ne hd ..

/-- A core goes on without a change of what it holds. -/
theorem pending_setCore (hp : p.pending = (s.core c).pending) (d : κ) :
    ((s.setCore c p).core d).pending = (s.core d).pending := by
  by_cases hd : d = c
  · rw [hd, setCore_self, hp]
  · rw [setCore_of_ne s p hd]

/-- `spin_lock` returns: what the core has taken already, it holds from here on. -/
theorem HeldInv.returned (hheld : HeldInv as s h) (hspot : (s.core c).spot = some (.spinLock, 5)) :
    HeldInv (as ++ [.ret c .spinLock ((s.core c).x 0)])
      (s.setCore c { s.core c with spot := none }) h := by
  have hsnoc := held_snoc as (.ret c .spinLock ((s.core c).x 0))
  have hmine : (s.core c).pending = some ((s.core c).x 0) := by
    unfold SpinCore.pending
    rw [hspot]
    rfl
  refine hheld.of_actor c (fun d hne => ?_) ?_ (fun _ _ _ => Iff.rfl) (fun l => ?_)
    fun l _ he => ?_
  · rw [setCore_of_ne _ _ hne]
  · intro d hne l
    rw [hsnoc]
    exact if_neg fun h => hne h.1
  · rw [setCore_self, hsnoc]
    show h l = some c ↔
      (if c = c ∧ l = (s.core c).x 0 then true else held as c l) = true ∨ none = some l
    rw [hheld.holder, hmine]
    by_cases hl : l = (s.core c).x 0
    · rw [hl, if_pos ⟨rfl, rfl⟩]
      exact iff_of_true (Or.inr rfl) (Or.inl rfl)
    · rw [if_neg fun h => hl h.2]
      exact or_congr Iff.rfl (iff_of_false (fun he => hl (Option.some.inj he).symm) (by simp))
  · rw [setCore_self] at he
    cases he

/-- `spin_unlock` is called: the core does not hold the lock any more, but nobody else can take
it before the `stlr`. -/
theorem HeldInv.unlocking {x : Reg → U64} (hheld : HeldInv as s h)
    (hout : (s.core c).spot = none) (hmine : held as c (x 0)) :
    HeldInv (as ++ [.call c .spinUnlock (x 0)])
      (s.setCore c { (s.core c).goTo .spinUnlock 0 with x }) h := by
  have hsnoc := held_snoc as (.call c .spinUnlock (x 0))
  have hnone : (s.core c).pending = none := by
    unfold SpinCore.pending
    rw [hout]
  refine hheld.of_actor c (fun d hne => by rw [setCore_of_ne s _ hne]) ?_ (fun _ _ _ => Iff.rfl)
    ?_ ?_
  · intro d hne l
    rw [hsnoc]
    exact if_neg fun h => hne h.1
  · intro l
    rw [setCore_self, hsnoc]
    show h l = some c ↔ (if c = c ∧ l = x 0 then false else held as c l) = true ∨ some (x 0) = some l
    rw [hheld.holder, hnone]
    by_cases hx : l = x 0
    · rw [hx]
      exact iff_of_true (Or.inl hmine) (Or.inr rfl)
    · rw [if_neg fun h => hx h.2]
      exact or_congr Iff.rfl (iff_of_false (by simp) fun he => hx (Option.some.inj he).symm)
  · intro l hl' he
    rw [setCore_self] at he
    obtain rfl : x 0 = l := Option.some.inj he
    rw [hsnoc] at hl'
    exact absurd (show (if c = c ∧ x 0 = x 0 then false else held as c (x 0)) = true from hl')
      (by simp)

/-- The `stxr` takes the lock, which nobody holds. -/
theorem HeldInv.taken (hheld : HeldInv as s h) (hspot : (s.core c).spot = some (.spinLock, 3))
    (hfree : h ((s.core c).x 0) = none) :
    HeldInv (as ++ [.store c ((s.core c).x 0) 1])
      ((s.write c ((s.core c).x 0) 1).setCore c
        { ((s.core c).setW 3 0).goTo .spinLock 4 with monitor := none })
      (Function.update h ((s.core c).x 0) (some c)) := by
  have hsnoc := held_snoc as (.store c ((s.core c).x 0) 1)
  have hnone : (s.core c).pending = none := by
    unfold SpinCore.pending
    rw [hspot]
    rfl
  refine hheld.of_actor c (fun d hne => ?_) (fun d _ l => by rw [hsnoc]; rfl) (fun d hne l => ?_)
    (fun l => ?_) fun l hl he => ?_
  · rw [setCore_of_ne _ _ hne, write_pending]
  · by_cases hl : l = (s.core c).x 0
    · rw [hl, Function.update_self, hfree]
      exact iff_of_false (fun he => hne (Option.some.inj he).symm) (by simp)
    · rw [Function.update_of_ne hl]
  · rw [hsnoc, setCore_self]
    show Function.update h ((s.core c).x 0) (some c) l = some c ↔
      held as c l ∨ some ((s.core c).x 0) = some l
    by_cases hl : l = (s.core c).x 0
    · rw [hl, Function.update_self]
      exact iff_of_true rfl (Or.inr rfl)
    · rw [Function.update_of_ne hl, hheld.holder, hnone]
      exact or_congr Iff.rfl (iff_of_false (by simp) fun he => hl (Option.some.inj he).symm)
  · rw [setCore_self] at he
    obtain rfl : (s.core c).x 0 = l := Option.some.inj he
    rw [hsnoc] at hl
    have hmine := (hheld.holder _ c).mpr (Or.inl hl)
    rw [hfree] at hmine
    cases hmine

/-- The `stlr` releases it. -/
theorem HeldInv.released (hheld : HeldInv as s h)
    (hspot : (s.core c).spot = some (.spinUnlock, 0)) :
    HeldInv (as ++ [.store c ((s.core c).x 0) 0])
      ((s.write c ((s.core c).x 0) 0).setCore c ((s.core c).goTo .spinUnlock 1))
      (Function.update h ((s.core c).x 0) none) := by
  have hsnoc := held_snoc as (.store c ((s.core c).x 0) 0)
  have hmine : (s.core c).pending = some ((s.core c).x 0) := by
    unfold SpinCore.pending
    rw [hspot]
    rfl
  have hholder := (hheld.holder _ c).mpr (Or.inr hmine)
  refine hheld.of_actor c (fun d hne => ?_) (fun d _ l => by rw [hsnoc]; rfl) (fun d hne l => ?_)
    (fun l => ?_) fun l _ he => ?_
  · rw [setCore_of_ne _ _ hne, write_pending]
  · by_cases hl : l = (s.core c).x 0
    · rw [hl, Function.update_self, hholder]
      exact iff_of_false (by simp) fun he => hne (Option.some.inj he).symm
    · rw [Function.update_of_ne hl]
  · rw [hsnoc, setCore_self]
    show Function.update h ((s.core c).x 0) none l = some c ↔ held as c l ∨ none = some l
    by_cases hl : l = (s.core c).x 0
    · subst hl
      rw [Function.update_self]
      exact iff_of_false (by simp) fun hor => hor.elim (fun hh => hheld.once _ c hh hmine) (by simp)
    · rw [Function.update_of_ne hl, hheld.holder, hmine]
      exact or_congr Iff.rfl (iff_of_false (fun he => hl (Option.some.inj he).symm) (by simp))
  · rw [setCore_self] at he
    cases he

/-- **Every step** of disciplined cores leaves each lock with the core that has it. -/
theorem HeldInv.step (hheld : HeldInv as s h) (hinv : SpinInv locks s h)
    (hd : Disciplined (as ++ [a])) (hstep : SpinStep locks s a s') :
    HeldInv (as ++ [a]) s' (a.holders h) := by
  have hsnoc := held_snoc as a
  cases hstep with
  | call c f x hout hl =>
    cases f with
    | spinLock =>
      have hnone : (s.core c).pending = none := by
        unfold SpinCore.pending
        rw [hout]
      exact hheld.stay hsnoc (pending_setCore hnone.symm)
    | spinUnlock => exact hheld.unlocking hout hd.last
  | exec c f line i p hspot hi hexec =>
    exact hheld.stay hsnoc (pending_setCore (exec_pending hspot hi hexec))
  | stxr c f line status r base hspot hi hmonitor =>
    obtain ⟨rfl, rfl, rfl, rfl, rfl⟩ := stxr_line hi
    rw [(hinv.core c).one 3 hspot (by decide)]
    exact hheld.taken hspot (hinv.free_of_monitor hspot hmonitor)
  | refuse c f line status r base hspot hi =>
    obtain ⟨rfl, rfl, rfl, rfl, rfl⟩ := stxr_line hi
    refine hheld.stay hsnoc (pending_setCore ?_)
    unfold SpinCore.pending
    rw [hspot]
    have hone : ((s.core c).setW 3 1).w 3 ≠ 0 := by
      rw [SpinCore.w_setW, if_pos rfl]
      decide
    exact if_neg hone
  | stlr c f line base hspot hi =>
    obtain ⟨rfl, rfl, rfl⟩ := stlr_line hi
    exact hheld.released hspot
  | ret c f line hspot hi =>
    cases f with
    | spinUnlock =>
      have hline : line = 1 := by simpa using spinUnlock_code hi
      subst hline
      refine hheld.stay hsnoc (pending_setCore ?_)
      unfold SpinCore.pending
      rw [hspot]
      rfl
    | spinLock =>
      have hline : line = 5 := by simpa using spinLock_code hi
      subst hline
      exact hheld.returned hspot
  | lose c => exact hheld.stay hsnoc (pending_setCore rfl)
  | other c mem hout hkeeps => exact hheld.stay hsnoc fun _ => rfl

-- ---------------------------------------------------------------------------
-- Runs
-- ---------------------------------------------------------------------------

/-- All locks are free, and no core is in the routines. -/
structure SpinStart (locks : Set U64) (s : SpinState κ) : Prop where
  free : ∀ l ∈ locks, read32 s.mem l = 0
  out : ∀ c, (s.core c).spot = none

/-- The run lemma. -/
theorem spin_run (hlocks : LocksApart locks) (hstart : SpinStart locks s)
    (hrun : Run (SpinStep locks) s as s') : ∃ h, SpinInv locks s' h ∧
      Run Atomic (fun _ => none) (as.filterMap SpinLabel.event) h ∧
      (Disciplined as → HeldInv as s' h) := by
  induction hrun with
  | nil =>
    refine ⟨fun _ => none, ⟨fun l hl => iff_of_true (hstart.free l hl) rfl, fun c => ?_⟩, .nil, ?_⟩
    · exact .of_out (hstart.out c)
    · have hpending : ∀ c, (s.core c).pending = none := by
        intro c
        unfold SpinCore.pending
        rw [hstart.out c]
      intro _
      refine ⟨fun l c => ?_, fun l c hc => by cases hc⟩
      rw [hpending]
      exact iff_of_false (by simp) (by simp [held])
  | @snoc t u as a _ hstep ih =>
    obtain ⟨h, hinv, hatomic, hheld⟩ := ih
    obtain ⟨hinv', hevent⟩ := hstep.invariant hinv hlocks
    refine ⟨a.holders h, hinv', ?_, fun hd => (hheld hd.prefix).step hinv hd hstep⟩
    have hsnoc : (as ++ [a]).filterMap SpinLabel.event =
        as.filterMap SpinLabel.event ++ a.event.toList := by
      rw [List.filterMap_append]
      cases hev : a.event <;> simp [hev]
    rw [hsnoc]
    exact hatomic.append hevent

/-- **The locks are atomic.** On any number of cores and in any interleaving of their
instructions, whichever `stxr` fails: the stores to the locks are a history of atomic acquires
and releases, where each acquire finds its lock free. If every `spin_unlock` is called by a core
for which `spin_lock` has returned, then the lock is its own until then, and nobody else's. -/
theorem spin_lock_atomic (hlocks : LocksApart locks) (hstart : SpinStart locks s)
    (hrun : Run (SpinStep locks) s as s') :
    ∃ h, Run Atomic (fun _ => none) (as.filterMap SpinLabel.event) h ∧
      (∀ l ∈ locks, read32 s'.mem l = 0 ↔ h l = none) ∧
      (Disciplined as → (∀ l c, held as c l → h l = some c) ∧
        ∀ l c d, held as c l → held as d l → c = d) := by
  obtain ⟨h, hinv, hatomic, hheld⟩ := spin_run hlocks hstart hrun
  refine ⟨h, hatomic, hinv.word, fun hd => ?_⟩
  have hholder : ∀ l c, held as c l → h l = some c :=
    fun l c hc => ((hheld hd).holder l c).mpr (Or.inl hc)
  refine ⟨hholder, fun l c d hc hd => ?_⟩
  exact Option.some.inj ((hholder l c hc).symm.trans (hholder l d hd))

/-- Two cores outside, and a memory of zeros. -/
def twoCores : SpinState (Fin 2) := ⟨fun _ => 0, fun _ => ⟨fun _ => 0, none, none⟩⟩

theorem twoCores_start (locks : Set U64) : SpinStart locks twoCores := by
  refine ⟨fun l _ => ?_, fun _ => rfl⟩
  show BitVec.ofNat 32 (leValue (fun _ => 0) 4) = 0
  decide

theorem twoCores_run {locks : List U64} {as : List (SpinLabel (Fin 2))} {t : SpinState (Fin 2)}
    (h : as.foldlM (SpinState.next locks) twoCores = some t) :
    Run (SpinStep {l | l ∈ locks}) twoCores as t :=
  (Run.of_foldlM h).mono fun _ _ _ => SpinState.step_of_next

/-- Both cores find the lock free. The one that is first takes it, and the `stxr` of the other one
fails. -/
def contended : List (SpinLabel (Fin 2)) :=
  [.call 0 .spinLock 0x1000, .call 1 .spinLock 0x1000, .exec 0, .exec 1, .exec 0, .exec 1, .exec 0,
    .exec 1, .store 0 0x1000 1, .refuse 1, .exec 0, .ret 0 .spinLock 0x1000]

theorem oneLock_apart : LocksApart {l | l ∈ [0x1000]} := by
  intro l hl l' hl' hne
  rw [Set.mem_ofPred_eq, List.mem_singleton] at hl hl'
  exact absurd (hl.trans hl'.symm) hne

theorem first_core_locks : ∃ t, ∃ h : U64 → Option (Fin 2),
    contended.foldlM (SpinState.next [0x1000]) twoCores = some t ∧
    Run Atomic (fun _ => none) [LockEvent.acquire 0 0x1000] h ∧ h 0x1000 = some 0 ∧
    read32 t.mem 0x1000 ≠ 0 := by
  have hsome : (contended.foldlM (SpinState.next [0x1000]) twoCores).isSome := by decide +kernel
  obtain ⟨t, ht⟩ := Option.isSome_iff_exists.mp hsome
  obtain ⟨h, hatomic, hword, hheld⟩ :=
    spin_lock_atomic oneLock_apart (twoCores_start _) (twoCores_run ht)
  have hd : Disciplined contended := by
    intro pre post c l he
    have hmem : SpinLabel.call c .spinUnlock l ∈ contended := by simp [he]
    simp [contended] at hmem
  have hholder := (hheld hd).1 0x1000 0 (by decide)
  refine ⟨t, h, ht, hatomic, hholder, fun h0 => ?_⟩
  rw [(hword 0x1000 (by simp)).mp h0] at hholder
  cases hholder

end TinyMultiCore
