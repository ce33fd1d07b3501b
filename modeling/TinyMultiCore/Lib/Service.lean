import TinyMultiCore.Lib.Run

/-!
# Queues that are served from their head

A transition system with a queue: `queue s q` says what waits in the state `s`. A step
that is a turn takes the first item off and serves it; anything may join at the end, at
any step. `FirstComeFirstServed` collects this as an interface, relative to an invariant.

* `FirstComeFirstServed.queue_run` — what is left of the queue after a run: its items
  leave in their order, one at each turn, and the newcomers are behind all of them;
* `FirstComeFirstServed.served_run` — and each turn serves the item whose turn it is.
-/

namespace TransitionSystem

variable {σ α ι : Type*}

/-- A turn serves the first item; every step may add items at the end. The queue is a relation, as
the state of a program may hold it in links, and `I` is what is known of every state on the way. -/
structure FirstComeFirstServed (R : σ → α → σ → Prop) (I : σ → Prop) (queue : σ → List ι → Prop)
    (turn : α → Bool) (served : σ → ι → Prop) : Prop where
  keep : ∀ {s a t}, I s → R s a t → I t
  wait : ∀ {s a t q}, I s → R s a t → turn a = false → queue s q → ∃ q', queue t q' ∧ q <+: q'
  serve : ∀ {s a t x q}, I s → R s a t → turn a = true → queue s (x :: q) →
    served t x ∧ ∃ q', queue t q' ∧ q <+: q'

variable {R : σ → α → σ → Prop} {I : σ → Prop} {queue : σ → List ι → Prop} {turn : α → Bool}
  {served : σ → ι → Prop} {s t : σ} {as : List α} {a : α} {q : List ι}

namespace FirstComeFirstServed

theorem keep_run (h : FirstComeFirstServed R I queue turn served) (hI : I s) (hr : Run R s as t) :
    I t := by
  induction hr with
  | nil => exact hI
  | snoc _ hR ih => exact h.keep ih hR

/-- **The queue after a run** with no more turns than there were items: those who were not served
yet are in front, in their order, whoever has come since. By induction on the run from its end, a
turn taking the first of them and any other step none. -/
theorem queue_run (h : FirstComeFirstServed R I queue turn served) (hI : I s) (hr : Run R s as t)
    (hq : queue s q) (hle : as.countP turn ≤ q.length) :
    ∃ q', queue t q' ∧ q.drop (as.countP turn) <+: q' := by
  induction hr with
  | nil => exact ⟨q, hq, List.prefix_rfl⟩
  | @snoc u w as a hr hR ih =>
    rw [List.countP_append] at hle ⊢
    obtain ⟨q₁, hq₁, new, rfl⟩ := ih (by omega)
    have hu := h.keep_run hI hr
    by_cases ha : turn a = true
    · -- the first of those who are left is served
      have hone : List.countP turn [a] = 1 := by rw [List.countP_singleton, if_pos ha]
      rw [hone] at hle ⊢
      obtain ⟨x, hx⟩ : ∃ x, q.drop (as.countP turn) = x :: q.drop (as.countP turn + 1) :=
        ⟨q[as.countP turn], List.drop_eq_getElem_cons (by omega)⟩
      rw [hx, List.cons_append] at hq₁
      obtain ⟨-, q', hq', hprefix⟩ := h.serve hu hR ha hq₁
      exact ⟨q', hq', (List.prefix_append _ new).trans hprefix⟩
    · have hzero : List.countP turn [a] = 0 := by rw [List.countP_singleton, if_neg ha]
      rw [hzero, Nat.add_zero]
      obtain ⟨q', hq', hprefix⟩ := h.wait hu hR (Bool.eq_false_iff.mpr ha) hq₁
      exact ⟨q', hq', (List.prefix_append _ new).trans hprefix⟩

/-- **The item a turn serves**: the one with as many before it as there were turns. Steps that are no
turns are not counted, however many there are. -/
theorem served_run (h : FirstComeFirstServed R I queue turn served) (hI : I s)
    (hr : Run R s (as ++ [a]) t) (hq : queue s q) (ha : turn a = true)
    (hlt : as.countP turn < q.length) : served t q[as.countP turn] := by
  obtain ⟨u, hu, hR⟩ := hr.of_snoc
  obtain ⟨q₁, hq₁, new, rfl⟩ := h.queue_run hI hu hq (Nat.le_of_lt hlt)
  rw [List.drop_eq_getElem_cons hlt, List.cons_append] at hq₁
  exact (h.serve (h.keep_run hI hu) hR ha hq₁).1

end FirstComeFirstServed

end TransitionSystem
