import TinyMultiCore.Kernel.Lists
import TinyMultiCore.Lib.Run
import TinyMultiCore.Lib.SpinLock

/-!
# `list_lock`

`append_list_tail` and `remove_list_head` of `src/lib.c`, one memory access at a time,
on any number of cores. A `Point` is where a core is in the two functions, and `exec`
is what it does there; `spin_lock` and `spin_unlock` are single steps. A core that
waits for the lock, or that follows a `NULL` pointer, has no step.

* `append_alone`, `remove_alone` — undisturbed, the steps make up the functions of
  `Lists`;
* `list_lock_excludes_iff` — the lock protects the lists exactly as long as no core
  releases it in the branch for a list that has become empty.
-/

namespace TinyMultiCore

open LinkedList SpinLock TransitionSystem

/-- Where a core is, and what it does next. `list` and `item` are the arguments or
local variables. -/
inductive Point (L ι : Type) where
  /-- In neither of the functions. -/
  | out
  /-- `append_list_tail`: `spin_lock(&list_lock)` -/
  | appendLock (list : L) (item : ι)
  /-- `item->next = NULL` -/
  | appendClear (list : L) (item : ι)
  /-- `if (is_list_empty(list))` -/
  | appendTest (list : L) (item : ι)
  /-- `list->next = item` -/
  | appendFirst (list : L) (item : ι)
  /-- `list->tail->next = item` -/
  | appendLink (list : L) (item : ι)
  /-- `list->tail = item`, in both branches -/
  | appendTail (list : L) (item : ι)
  /-- `spin_unlock(&list_lock)` -/
  | appendUnlock
  /-- `remove_list_head`: `spin_lock(&list_lock)` -/
  | removeLock (list : L)
  /-- `if (is_list_empty(list))` -/
  | removeTest (list : L)
  /-- `spin_unlock(&list_lock)`, before `return NULL` -/
  | removeNone
  /-- `item = list->next` -/
  | removeItem (list : L)
  /-- `list->next = item->next` -/
  | removeNext (list : L) (item : Option ι)
  /-- `if (list->next == NULL)` -/
  | removeCheck (list : L)
  /-- `spin_unlock(&list_lock)`, in the branch -/
  | emptiedUnlock (list : L)
  /-- `list->tail = NULL` -/
  | emptiedTail (list : L)
  /-- `spin_unlock(&list_lock)`, before `return item` -/
  | removeUnlock
  deriving DecidableEq

namespace Point

variable {L ι : Type} {s s' : Lists L ι} {p p' : Point L ι}

/-- `spin_lock(&list_lock)` is next. -/
def acquires : Point L ι → Bool
  | appendLock _ _ | removeLock _ => true
  | _ => false

/-- `spin_unlock(&list_lock)` is next. -/
def releases : Point L ι → Bool
  | appendUnlock | removeNone | emptiedUnlock _ | removeUnlock => true
  | _ => false

/-- A write to a link or to a list is next. -/
def writes : Point L ι → Bool
  | appendClear _ _ | appendFirst _ _ | appendLink _ _ | appendTail _ _ | removeNext _ _
  | emptiedTail _ => true
  | _ => false

/-- Behind the `spin_lock`, and not yet behind the last `spin_unlock`. -/
def inside : Point L ι → Bool
  | out | appendLock _ _ | removeLock _ => false
  | _ => true

/-- The branch for a list that has become empty, between its two `spin_unlock`s. -/
def between : Point L ι → Bool
  | emptiedTail _ => true
  | _ => false

theorem inside_of_releases (h : p.releases) : p.inside := by
  cases p <;> first | rfl | cases h

theorem inside_of_writes (h : p.writes) : p.inside := by
  cases p <;> first | rfl | cases h

/-- The outcomes of a test. -/
theorem ite_eq_or {c : Prop} [Decidable c] {q q' : Point L ι}
    (h : (if c then some (s, q) else some (s, q')) = some (s', p')) :
    (c ∧ s' = s ∧ p' = q) ∨ (¬c ∧ s' = s ∧ p' = q') := by
  split at h
  · rename_i hc
    obtain ⟨rfl, rfl⟩ := Prod.mk.inj (Option.some.inj h)
    exact Or.inl ⟨hc, rfl, rfl⟩
  · rename_i hc
    obtain ⟨rfl, rfl⟩ := Prod.mk.inj (Option.some.inj h)
    exact Or.inr ⟨hc, rfl, rfl⟩

variable [DecidableEq L] [DecidableEq ι]

/-- The lists and the point behind the next access; `none` when it is a fault. -/
def exec (s : Lists L ι) : Point L ι → Option (Lists L ι × Point L ι)
  | out => none
  | appendLock list item => some (s, appendClear list item)
  | appendClear list item => some (s.setNext item none, appendTest list item)
  | appendTest list item =>
    if s.isListEmpty list then some (s, appendFirst list item) else some (s, appendLink list item)
  | appendFirst list item =>
    some (s.setHead list ⟨some item, (s.head list).tail⟩, appendTail list item)
  | appendLink list item =>
    (s.head list).tail.map fun tail => (s.setNext tail (some item), appendTail list item)
  | appendTail list item => some (s.setHead list ⟨(s.head list).next, some item⟩, appendUnlock)
  | appendUnlock => some (s, out)
  | removeLock list => some (s, removeTest list)
  | removeTest list =>
    if s.isListEmpty list then some (s, removeNone) else some (s, removeItem list)
  | removeNone => some (s, out)
  | removeItem list => some (s, removeNext list (s.head list).next)
  | removeNext list item =>
    item.map fun item => (s.setHead list ⟨s.next item, (s.head list).tail⟩, removeCheck list)
  | removeCheck list =>
    if (s.head list).next = none then some (s, emptiedUnlock list) else some (s, removeUnlock)
  | emptiedUnlock list => some (s, emptiedTail list)
  | emptiedTail list => some (s.setHead list ⟨(s.head list).next, none⟩, removeUnlock)
  | removeUnlock => some (s, out)

/-- **One access.** Only `spin_lock` leads inside, and only `spin_unlock` out, but for
the one in the branch for a list that has become empty. Behind that one `remove_list_head` still
writes to the list, and unlocks a second time. -/
theorem exec_inside (hexec : exec s p = some (s', p')) (hp : ∀ list, p ≠ emptiedUnlock list) :
    (p'.inside ↔ p.acquires ∨ p.inside ∧ ¬p.releases) ∧ ¬p'.between := by
  cases p with
  | emptiedUnlock list => exact absurd rfl (hp list)
  | out => cases hexec
  | appendLink list item =>
    obtain ⟨tail, -, he⟩ := Option.map_eq_some_iff.mp hexec
    cases he
    simp [inside, acquires, releases, between]
  | removeNext list item =>
    obtain ⟨item, -, he⟩ := Option.map_eq_some_iff.mp hexec
    cases he
    simp [inside, acquires, releases, between]
  | appendTest list item =>
    obtain ⟨-, -, rfl⟩ | ⟨-, -, rfl⟩ := ite_eq_or hexec <;> simp [inside, acquires, releases, between]
  | removeTest list =>
    obtain ⟨-, -, rfl⟩ | ⟨-, -, rfl⟩ := ite_eq_or hexec <;> simp [inside, acquires, releases, between]
  | removeCheck list =>
    obtain ⟨-, -, rfl⟩ | ⟨-, -, rfl⟩ := ite_eq_or hexec <;> simp [inside, acquires, releases, between]
  | _ =>
    cases hexec
    simp [inside, acquires, releases, between]

end Point

-- ---------------------------------------------------------------------------
-- The cores
-- ---------------------------------------------------------------------------

/-- A call of one of the functions. -/
inductive ListCall (L ι : Type) where
  | append (list : L) (item : ι)
  | remove (list : L)

/-- Where the call begins. -/
def ListCall.start {L ι : Type} : ListCall L ι → Point L ι
  | append list item => .appendLock list item
  | remove list => .removeLock list

/-- The lists, the lock and the cores. -/
structure ListSystem (κ L ι : Type) where
  lists : Lists L ι
  /-- The core that has acquired `list_lock` last, while its value is not 0. -/
  lock : Option κ
  point : κ → Point L ι

/-- What a core does: it calls a function, or takes its next step in one. -/
inductive Move (κ L ι : Type) where
  | call (c : κ) (f : ListCall L ι)
  | go (c : κ)

namespace ListSystem

variable {κ L ι : Type} {s s' : ListSystem κ L ι} {m : Move κ L ι} {ms : List (Move κ L ι)}

/-- No core is in one of the functions, and the lock is free. The lists may be any. -/
def Start (s : ListSystem κ L ι) : Prop := s.lock = none ∧ ∀ c, s.point c = .out

/-- **Mutual exclusion.** A core that is about to release the lock or to write holds it,
and no two cores are between their acquire and their release. -/
structure Exclusive (s : ListSystem κ L ι) : Prop where
  releases : ∀ c, (s.point c).releases → s.lock = some c
  writes : ∀ c, (s.point c).writes → s.lock = some c
  one : ∀ c d, (s.point c).inside → (s.point d).inside → c = d

/-- The step is not the release in the branch for a list that has become empty. -/
def NotEmptied (s : ListSystem κ L ι) (m : Move κ L ι) : Prop :=
  ∀ c list, m = .go c → s.point c ≠ .emptiedUnlock list

/-- Who is inside holds the lock. No core is in the branch of `remove_list_head` that has unlocked
already and goes on to write. -/
structure Guarded (s : ListSystem κ L ι) : Prop where
  guards : Guards s.lock fun c => (s.point c).inside
  between : ∀ c, ¬(s.point c).between

theorem Start.guarded (h : s.Start) : s.Guarded := by
  obtain ⟨hlock, hpoint⟩ := h
  refine ⟨?_, fun c => ?_⟩
  · rw [hlock]
    refine .none fun c => ?_
    rw [hpoint c]
    exact Bool.false_ne_true
  · rw [hpoint c]
    exact Bool.false_ne_true

theorem Guarded.exclusive (h : s.Guarded) : s.Exclusive where
  releases c hc := (h.guards c).mp (Point.inside_of_releases hc)
  writes c hc := (h.guards c).mp (Point.inside_of_writes hc)
  one _ _ hc hd := h.guards.unique hc hd

variable [DecidableEq κ] [DecidableEq L] [DecidableEq ι]

/-- Core `c` goes on to the point `p`. -/
def goTo (s : ListSystem κ L ι) (c : κ) (p : Point L ι) : ListSystem κ L ι :=
  { s with point := Function.update s.point c p }

/-- The value of the lock behind a step of core `c` from the point `p`. -/
def lockAfter (lock : Option κ) (c : κ) (p : Point L ι) : Option κ :=
  if p.acquires then some c else if p.releases then none else lock

/-- The step, when it can be taken. -/
def next (s : ListSystem κ L ι) : Move κ L ι → Option (ListSystem κ L ι)
  | .call c f => if s.point c = .out then some (s.goTo c f.start) else none
  | .go c =>
    if (s.point c).acquires ∧ s.lock ≠ none then none
    else (Point.exec s.lists (s.point c)).map fun (lists, p) =>
      { lists, lock := lockAfter s.lock c (s.point c), point := Function.update s.point c p }

def Step (s : ListSystem κ L ι) (m : Move κ L ι) (s' : ListSystem κ L ι) : Prop :=
  s.next m = some s'

/-- What a step in one of the functions does. -/
theorem next_go {c : κ} (hstep : s.Step (.go c) s') :
    ∃ p, (s.point c).exec s.lists = some (s'.lists, p) ∧
      s'.lock = lockAfter s.lock c (s.point c) ∧ s'.point = Function.update s.point c p ∧
      ((s.point c).acquires → s.lock = none) := by
  unfold Step next at hstep
  dsimp only at hstep
  split at hstep
  · cases hstep
  · rename_i hfree
    obtain ⟨⟨lists, p⟩, hexec, hs'⟩ := Option.map_eq_some_iff.mp hstep
    cases hs'
    exact ⟨p, hexec, rfl, rfl, fun ha => not_not.mp (not_and.mp hfree ha)⟩

/-- **Every step but that one keeps the lists guarded.** The core that moves holds the lock or takes a
free one; of the others nothing is needed but that their points stay. -/
theorem Guarded.step (h : s.Guarded) (hm : s.NotEmptied m) (hstep : s.Step m s') :
    s'.Guarded := by
  cases m with
  | call c f =>
    unfold Step next at hstep
    dsimp only at hstep
    split at hstep
    · rename_i hout
      cases hstep
      have hpoint : ∀ d, ((s.goTo c f.start).point d).inside = (s.point d).inside ∧
          ((s.goTo c f.start).point d).between = (s.point d).between := by
        intro d
        show (Function.update s.point c f.start d).inside = _ ∧
          (Function.update s.point c f.start d).between = _
        by_cases hd : d = c
        · rw [hd, Function.update_self, hout]
          cases f <;> exact ⟨rfl, rfl⟩
        · rw [Function.update_of_ne hd]
          exact ⟨rfl, rfl⟩
      refine ⟨h.guards.stay fun d => by rw [(hpoint d).1], fun d => ?_⟩
      rw [(hpoint d).2]
      exact h.between d
    · cases hstep
  | go c =>
    obtain ⟨p, hexec, hlock, hpoint, hfree⟩ := next_go hstep
    obtain ⟨hin, hbetween⟩ := Point.exec_inside hexec fun list => hm c list rfl
    have hother : ∀ d, d ≠ c → s'.point d = s.point d := by
      intro d hd
      rw [hpoint, Function.update_of_ne hd]
    have hself : s'.point c = p := by
      rw [hpoint, Function.update_self]
    refine ⟨?_, fun d => ?_⟩
    · rw [hlock]
      unfold lockAfter
      by_cases hacq : (s.point c).acquires
      · have hg := h.guards
        rw [hfree hacq] at hg
        rw [if_pos hacq]
        exact hg.acquire (by rw [hself]; exact hin.mpr (Or.inl hacq)) fun d hd => by rw [hother d hd]
      · rw [if_neg hacq]
        by_cases hrel : (s.point c).releases
        · rw [if_pos hrel]
          refine h.guards.release (Point.inside_of_releases hrel) ?_ fun d hd => by rw [hother d hd]
          rw [hself]
          exact fun hp => (hin.mp hp).elim hacq fun hp => hp.2 hrel
        · rw [if_neg hrel]
          refine h.guards.stay fun d => ?_
          by_cases hd : d = c
          · rw [hd, hself]
            exact hin.trans ⟨fun hp => (hp.resolve_left hacq).1, fun hp => Or.inr ⟨hp, hrel⟩⟩
          · rw [hother d hd]
    · by_cases hd : d = c
      · rw [hd, hself]
        exact hbetween
      · rw [hother d hd]
        exact h.between d

/-- The release in the branch for a list that has become empty: the next write is
outside the lock. -/
theorem not_exclusive_of_emptied {c : κ} {list : L} (hpoint : s.point c = .emptiedUnlock list)
    (hstep : s.Step (.go c) s') : ¬s'.Exclusive := by
  obtain ⟨p, hexec, hlock, hpoint', -⟩ := next_go hstep
  rw [hpoint] at hexec hlock
  obtain ⟨-, rfl⟩ := Prod.mk.inj (Option.some.inj hexec)
  intro h
  have hwrites := h.writes c (by rw [hpoint', Function.update_self]; rfl)
  rw [hlock] at hwrites
  exact absurd hwrites (by simp [lockAfter, Point.acquires, Point.releases])

-- ---------------------------------------------------------------------------
-- One core alone
-- ---------------------------------------------------------------------------

/-- The system in which core `c` has come to the point `p`. -/
def moved (s : ListSystem κ L ι) (c : κ) (lists : Lists L ι) (lock : Option κ) (p : Point L ι) :
    ListSystem κ L ι :=
  { lists, lock, point := Function.update s.point c p }

theorem moved_go {c : κ} {lists lists' : Lists L ι} {lock : Option κ} {p p' : Point L ι}
    (hexec : p.exec lists = some (lists', p')) (hfree : p.acquires → lock = none) :
    (s.moved c lists lock p).Step (.go c) (s.moved c lists' (lockAfter lock c p) p') := by
  have hpoint : (s.moved c lists lock p).point c = p := Function.update_self ..
  unfold Step next
  dsimp only
  rw [hpoint, if_neg fun h => h.2 (hfree h.1)]
  show (Point.exec lists p).map _ = _
  rw [hexec]
  simp [moved]

theorem call_moved {c : κ} {f : ListCall L ι} (hout : s.point c = .out) :
    s.Step (.call c f) (s.moved c s.lists s.lock f.start) := if_pos hout

omit [DecidableEq L] [DecidableEq ι] in
theorem moved_out {c : κ} {lists : Lists L ι} (hlock : s.lock = none) (hout : s.point c = .out) :
    s.moved c lists none .out = { s with lists } := by
  unfold moved
  rw [← hout, Function.update_eq_self, hlock]

/-- Undisturbed, the steps of `append_list_tail` do what `Lists.appendListTail` says. -/
theorem append_alone {c : κ} {list : L} {item : ι} {lists : Lists L ι} (hlock : s.lock = none)
    (hout : s.point c = .out) (hok : s.lists.appendListTail list item = .ok lists) :
    Run Step s (.call c (.append list item) :: List.replicate 6 (.go c)) { s with lists } := by
  rw [← moved_out hlock hout]
  refine .cons (call_moved hout) (.cons (moved_go rfl fun _ => hlock) ?_)
  rw [hlock]
  refine .cons (moved_go rfl (by simp [Point.acquires])) ?_
  unfold Lists.appendListTail at hok
  dsimp only at hok
  split at hok
  · rename_i hempty
    cases hok
    refine .cons (moved_go (if_pos hempty) (by simp [Point.acquires])) ?_
    refine .cons (moved_go rfl (by simp [Point.acquires])) ?_
    refine .cons (moved_go rfl (by simp [Point.acquires])) ?_
    refine .cons (moved_go rfl (by simp [Point.acquires])) ?_
    simpa [Lists.setHead, lockAfter, Point.acquires, Point.releases] using Run.nil
  · rename_i hempty
    obtain ⟨tail, htail, hok⟩ := bind_eq_ok.mp hok
    cases hok
    have hlink : Point.exec (s.lists.setNext item none) (.appendLink list item) =
        some ((s.lists.setNext item none).setNext tail (some item), .appendTail list item) :=
      Option.map_eq_some_iff.mpr ⟨tail, deref_eq_ok.mp htail, rfl⟩
    refine .cons (moved_go (if_neg hempty) (by simp [Point.acquires])) ?_
    refine .cons (moved_go hlink (by simp [Point.acquires])) ?_
    refine .cons (moved_go rfl (by simp [Point.acquires])) ?_
    refine .cons (moved_go rfl (by simp [Point.acquires])) ?_
    simpa [lockAfter, Point.acquires, Point.releases] using Run.nil

/-- The same for `remove_list_head`: its second release does no harm there. -/
theorem remove_alone {c : κ} {list : L} (hlock : s.lock = none) (hout : s.point c = .out) :
    ∃ n, Run Step s (.call c (.remove list) :: List.replicate n (.go c))
      { s with lists := (s.lists.removeListHead list).2 } := by
  rw [← moved_out hlock hout]
  have hstart : ∀ n t, Run Step (s.moved c s.lists (some c) (.removeTest list))
      (List.replicate n (.go c)) t →
      Run Step s (.call c (.remove list) :: List.replicate (n + 1) (.go c)) t := by
    intro n t hrun
    refine .cons (call_moved hout) (.cons (moved_go rfl fun _ => hlock) ?_)
    exact hrun
  cases hnext : (s.lists.head list).next with
  | none =>
    refine ⟨3, hstart 2 _ ?_⟩
    refine .cons (moved_go (if_pos hnext) (by simp [Point.acquires])) ?_
    refine .cons (moved_go rfl (by simp [Point.acquires])) ?_
    rw [show s.lists.removeListHead list = (none, s.lists) by
      unfold Lists.removeListHead
      rw [hnext]]
    exact .nil
  | some item =>
    have hremoved : (s.lists.removeListHead list).2 = s.lists.setHead list
        ⟨s.lists.next item, if s.lists.next item = none then none else (s.lists.head list).tail⟩ := by
      unfold Lists.removeListHead
      rw [hnext]
    have hitem : Point.exec s.lists (.removeItem list) =
        some (s.lists, .removeNext list (some item)) := by
      rw [← hnext]
      rfl
    have htest : Point.exec s.lists (.removeTest list) = some (s.lists, .removeItem list) :=
      if_neg (by rw [Lists.isListEmpty, hnext]; simp)
    rw [hremoved]
    by_cases hlast : s.lists.next item = none
    · -- the list becomes empty
      refine ⟨8, hstart 7 _ ?_⟩
      refine .cons (moved_go htest (by simp [Point.acquires])) ?_
      refine .cons (moved_go hitem (by simp [Point.acquires])) ?_
      refine .cons (moved_go rfl (by simp [Point.acquires])) ?_
      refine .cons (moved_go (if_pos ?_) (by simp [Point.acquires])) ?_
      · simp [Lists.setHead, hlast]
      refine .cons (moved_go rfl (by simp [Point.acquires])) ?_
      refine .cons (moved_go rfl (by simp [Point.acquires])) ?_
      refine .cons (moved_go rfl (by simp [Point.acquires])) ?_
      simpa [Lists.setHead, lockAfter, Point.acquires, Point.releases, hlast] using Run.nil
    · refine ⟨6, hstart 5 _ ?_⟩
      refine .cons (moved_go htest (by simp [Point.acquires])) ?_
      refine .cons (moved_go hitem (by simp [Point.acquires])) ?_
      refine .cons (moved_go rfl (by simp [Point.acquires])) ?_
      refine .cons (moved_go (if_neg ?_) (by simp [Point.acquires])) ?_
      · simpa [Lists.setHead] using hlast
      refine .cons (moved_go rfl (by simp [Point.acquires])) ?_
      rw [if_neg hlast]
      simpa [lockAfter, Point.acquires, Point.releases] using Run.nil

/-- **`list_lock`.** Whatever the lists contain, and in whatever order any number of
cores call `append_list_tail` and `remove_list_head` and take their steps: there is
mutual exclusion in every state on the way exactly when no step is a release in the
branch for a list that has become empty. -/
theorem list_lock_excludes_iff {s₀ : ListSystem κ L ι} (hstart : s₀.Start)
    (hrun : Run Step s₀ ms s) :
    Always Step s₀ ms Exclusive ↔ EveryStep Step s₀ ms NotEmptied := by
  refine Run.always_iff (I := Guarded) (fun t m u v hu hv => ?_) (fun t => Guarded.exclusive)
    (fun t m u h hC hstep => h.step hC hstep) (fun t m u h hstep hP c list hm hpoint => ?_) hrun
    hstart.guarded
  · exact Option.some.inj (hu.symm.trans hv)
  · subst hm
    exact not_exclusive_of_emptied hpoint hstep hP

/-- Four cores, and a list with one item. -/
def oneItem : ListSystem (Fin 4) Unit (Fin 3) where
  lists := ⟨fun _ => none, fun _ => ⟨some 0, some 0⟩⟩
  lock := none
  point _ := .out

/-- Core 1 takes an item off the list while core 0 appends one. -/
def appendAndRemove : List (Move (Fin 4) Unit (Fin 3)) :=
  [.call 0 (.append () 1), .go 0, .call 1 (.remove ())] ++ List.replicate 5 (.go 0) ++
    List.replicate 6 (.go 1)

theorem append_and_remove_exclude : Always Step oneItem appendAndRemove Exclusive := by
  obtain ⟨s, hs⟩ := Option.isSome_iff_exists.mp
    (show (appendAndRemove.foldlM next oneItem).isSome by decide)
  refine (list_lock_excludes_iff ⟨rfl, fun _ => rfl⟩ (Run.of_foldlM hs)).mpr ?_
  refine (EveryStep.of_everyStep (C := fun s m => match m with
    | .call _ _ => true
    | .go c => s.point c ≠ .emptiedUnlock ()) (by decide)).imp fun s m hm c list he => ?_
  rw [he] at hm
  exact of_decide_eq_true hm

/-- Core 0 takes the only item off the list. Its second release lets core 2 in while
core 1 appends. -/
def releasedTwice : List (Move (Fin 4) Unit (Fin 3)) :=
  .call 0 (.remove ()) :: List.replicate 6 (.go 0) ++
    [.call 1 (.append () 1), .go 1, .go 0, .go 0, .call 2 (.append () 2), .go 2]

theorem second_release_breaks_exclusion : ∃ s, Run Step oneItem releasedTwice s ∧
    oneItem.Start ∧ (s.point 1).inside ∧ (s.point 2).inside ∧
    ¬Always Step oneItem releasedTwice Exclusive := by
  obtain ⟨s, hs⟩ := Option.isSome_iff_exists.mp
    (show (releasedTwice.foldlM next oneItem).isSome by decide)
  have hpoints : (releasedTwice.foldlM next oneItem).map
      (fun s => ((s.point 1).inside, (s.point 2).inside)) = some (true, true) := by decide
  rw [hs] at hpoints
  obtain ⟨hfirst, hsecond⟩ := Prod.mk.inj (Option.some.inj hpoints)
  have hrun : Run Step oneItem releasedTwice s := Run.of_foldlM hs
  refine ⟨s, hrun, ⟨rfl, fun _ => rfl⟩, hfirst, hsecond, fun hall => ?_⟩
  have hone := (hall releasedTwice [] s (List.append_nil _).symm hrun).one 1 2 hfirst hsecond
  exact absurd hone (by decide)

end ListSystem

end TinyMultiCore
