import Mathlib.Logic.Function.Basic

/-!
# Spin locks

A lock is known by the agent that has acquired it last and has not released it since.
Taking it is only possible while it is free. `Guards holder inside`: the agents that
are inside the section are those that hold the lock. Every agent that keeps to the
protocol, which is to enter by an acquire and to leave by a release, keeps that:

* `Guards.acquire`, `Guards.release` — the two ends of the section;
* `Guards.stay` — a step that stays on one side;
* `Guards.update` — the same, for agents of which one moves to another point;
* `Guards.unique` — mutual exclusion.

`Atomic` is the specification of a family of locks: an acquire finds its lock free, and a
release frees it, whoever holds it.
-/

namespace SpinLock

variable {κ : Type*} {holder : Option κ} {inside inside' : κ → Prop} {c d : κ}

/-- Who is inside holds the lock, and the other way round. -/
def Guards (holder : Option κ) (inside : κ → Prop) : Prop :=
  ∀ c, inside c ↔ holder = some c

theorem Guards.none (h : ∀ c, ¬inside c) : Guards none inside :=
  fun c => iff_of_false (h c) (by simp)

/-- Mutual exclusion. -/
theorem Guards.unique (h : Guards holder inside) (hc : inside c) (hd : inside d) : c = d :=
  Option.some.inj (((h c).mp hc).symm.trans ((h d).mp hd))

/-- Nobody is inside while the lock is free. -/
theorem Guards.free (h : Guards Option.none inside) (c : κ) : ¬inside c :=
  fun hc => by simpa using (h c).mp hc

theorem Guards.acquire (h : Guards Option.none inside) (hc : inside' c)
    (hother : ∀ d, d ≠ c → (inside' d ↔ inside d)) : Guards (some c) inside' := by
  intro d
  by_cases hd : d = c
  · rw [hd]
    exact iff_of_true hc rfl
  · rw [hother d hd]
    exact iff_of_false (h.free d) fun he => hd (Option.some.inj he).symm

theorem Guards.release (h : Guards holder inside) (hin : inside c) (hc : ¬inside' c)
    (hother : ∀ d, d ≠ c → (inside' d ↔ inside d)) : Guards Option.none inside' := by
  refine .none fun d hd => ?_
  by_cases he : d = c
  · exact hc (he ▸ hd)
  · exact he (h.unique ((hother d he).mp hd) hin)

theorem Guards.stay (h : Guards holder inside) (hsame : ∀ d, inside' d ↔ inside d) :
    Guards holder inside' :=
  fun d => (hsame d).trans (h d)

section

variable {π : Type*} [DecidableEq κ] {point : κ → π} {In : π → Prop} {p : π}

/-- An agent that moves to a point on its side. -/
theorem Guards.update (h : Guards holder fun d => In (point d)) (hc : In (point c) ↔ In p) :
    Guards holder fun d => In (Function.update point c p d) := by
  refine h.stay fun d => ?_
  by_cases hd : d = c
  · rw [hd, Function.update_self]
    exact hc.symm
  · rw [Function.update_of_ne hd]

theorem Guards.update_acquire (h : Guards Option.none fun d => In (point d)) (hc : In p) :
    Guards (some c) fun d => In (Function.update point c p d) := by
  refine h.acquire ?_ fun d hd => ?_
  · rw [Function.update_self]
    exact hc
  · rw [Function.update_of_ne hd]

theorem Guards.update_release (h : Guards holder fun d => In (point d)) (hin : In (point c))
    (hc : ¬In p) : Guards Option.none fun d => In (Function.update point c p d) := by
  refine h.release hin ?_ fun d hd => ?_
  · rw [Function.update_self]
    exact hc
  · rw [Function.update_of_ne hd]

end

/-- What agents do to locks. -/
inductive LockEvent (κ L : Type*) where
  | acquire (c : κ) (l : L)
  | release (c : κ) (l : L)

/-- One event, with the holders before and after it. An acquire needs a free lock; a release does
not ask who holds it, as the code does not either. -/
inductive Atomic {κ L : Type*} [DecidableEq L] (h : L → Option κ) :
    LockEvent κ L → (L → Option κ) → Prop
  | acquire (c : κ) (l : L) (hfree : h l = Option.none) :
      Atomic h (.acquire c l) (Function.update h l (some c))
  | release (c : κ) (l : L) : Atomic h (.release c l) (Function.update h l Option.none)

end SpinLock
