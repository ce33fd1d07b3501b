import Mathlib.Data.List.Induction

/-!
# Labelled runs of a transition system

`Run R s as t`: the step relation `R` leads from `s` to `t` through the labels
`as`. Two ways of speaking about a whole run are `Always` (a predicate of every
state the run reaches) and `EveryStep` (a predicate of every step, evaluated in
the state before it).

* `Run.of_foldlM` — a step function that gets through a list of labels runs;
* `Run.invariant` — what holds initially and is kept by every step holds at
  the end of every run;
* `Run.always` — and hence in every state the run reaches;
* `Run.always_iff` — when a condition on the state before a step decides whether
  the step keeps a predicate, the predicate holds throughout exactly the runs
  whose steps all meet the condition.
-/

namespace TransitionSystem

variable {σ α : Type*}

/-- `R` leads from `s` to `t` through the labels `as`. -/
inductive Run (R : σ → α → σ → Prop) (s : σ) : List α → σ → Prop
  | nil : Run R s [] s
  | snoc {t u : σ} {as : List α} {a : α} :
      Run R s as t → R t a u → Run R s (as ++ [a]) u

/-- `P` holds in every state that the run of `as` from `s` reaches. -/
def Always (R : σ → α → σ → Prop) (s : σ) (as : List α) (P : σ → Prop) : Prop :=
  ∀ pre post t, as = pre ++ post → Run R s pre t → P t

/-- `C` holds of every label of the run of `as` from `s`, in the state the run
has reached before it. -/
def EveryStep (R : σ → α → σ → Prop) (s : σ) (as : List α) (C : σ → α → Prop) : Prop :=
  ∀ pre a post t, as = pre ++ a :: post → Run R s pre t → C t a

variable {R : σ → α → σ → Prop} {s t u : σ} {as : List α}

theorem EveryStep.prefix {C : σ → α → Prop} {bs : List α}
    (h : EveryStep R s (as ++ bs) C) : EveryStep R s as C := by
  intro pre a post t he
  exact h pre a (post ++ bs) t (by simp [he])

theorem EveryStep.last {C : σ → α → Prop} {a : α} (h : EveryStep R s (as ++ [a]) C)
    (hr : Run R s as t) : C t a := h as a [] t rfl hr

theorem Always.prefix {P : σ → Prop} {bs : List α}
    (h : Always R s (as ++ bs) P) : Always R s as P := by
  intro pre post t he
  exact h pre (post ++ bs) t (by simp [he])

/-- **Invariant rule.** A predicate of the initial state that every step of the
run keeps, under the step's condition, holds at the end. -/
theorem Run.invariant {P : σ → Prop} {C : σ → α → Prop}
    (hstep : ∀ t a u, P t → C t a → R t a u → P u)
    (hr : Run R s as t) (h0 : P s) (hc : EveryStep R s as C) : P t := by
  induction hr with
  | nil => exact h0
  | snoc hr hR ih => exact hstep _ _ _ (ih hc.prefix) (hc.last hr) hR

/-- The invariant rule, for every state on the way. -/
theorem Run.always {P : σ → Prop} {C : σ → α → Prop}
    (hstep : ∀ t a u, P t → C t a → R t a u → P u)
    (h0 : P s) (hc : EveryStep R s as C) : Always R s as P := by
  rintro pre post t rfl hr
  exact hr.invariant hstep h0 hc.prefix

theorem Run.of_nil (hr : Run R s [] t) : t = s := by
  generalize hbs : ([] : List α) = bs at hr
  cases hr with
  | nil => rfl
  | snoc => simp at hbs

/-- The last step of a run that is not empty. -/
theorem Run.of_snoc {a : α} (hr : Run R s (as ++ [a]) u) : ∃ t, Run R s as t ∧ R t a u := by
  generalize hbs : as ++ [a] = bs at hr
  cases hr with
  | nil => simp at hbs
  | snoc hr hR =>
    obtain ⟨rfl, hab⟩ := List.append_inj' hbs rfl
    rw [List.singleton_inj] at hab
    exact ⟨_, hr, hab ▸ hR⟩

/-- A run through a list splits wherever the list does. -/
theorem Run.of_append {bs : List α} (hr : Run R s (as ++ bs) u) :
    ∃ t, Run R s as t ∧ Run R t bs u := by
  induction bs using List.reverseRecOn generalizing u with
  | nil => exact ⟨u, by simpa using hr, .nil⟩
  | append_singleton bs b ih =>
    rw [← List.append_assoc] at hr
    obtain ⟨v, hv, hR⟩ := hr.of_snoc
    obtain ⟨t, ht, htv⟩ := ih hv
    exact ⟨t, ht, htv.snoc hR⟩

theorem Run.append {bs : List α} (hr : Run R s as t) (hr' : Run R t bs u) : Run R s (as ++ bs) u := by
  induction hr' with
  | nil => simpa using hr
  | snoc _ hR ih =>
    rw [← List.append_assoc]
    exact ih.snoc hR

theorem Run.cons {a : α} (hR : R s a t) (hr : Run R t as u) : Run R s (a :: as) u := by
  induction hr with
  | nil => exact Run.nil.snoc hR
  | snoc _ hR' ih => exact ih.snoc hR'

theorem Run.mono {R' : σ → α → σ → Prop} (hr : Run R s as t)
    (h : ∀ s a t, R s a t → R' s a t) : Run R' s as t := by
  induction hr with
  | nil => exact .nil
  | snoc _ hR ih => exact ih.snoc (h _ _ _ hR)

/-- The run of a step function. -/
theorem Run.of_foldlM {f : σ → α → Option σ} :
    ∀ {as : List α} {s : σ}, as.foldlM f s = some t → Run (fun s a t => f s a = some t) s as t
  | [], s, h => by
    cases h
    exact .nil
  | a :: as, s, h => by
    rw [List.foldlM_cons] at h
    obtain ⟨u, hu, hrest⟩ := Option.bind_eq_some_iff.mp h
    exact .cons hu (Run.of_foldlM hrest)

theorem EveryStep.nil {C : σ → α → Prop} : EveryStep R s [] C := by
  intro pre a post t he
  simp at he

/-- The condition, step by step from the front. -/
theorem EveryStep.cons {C : σ → α → Prop} {a : α} (ha : C s a)
    (has : ∀ t, R s a t → EveryStep R t as C) : EveryStep R s (a :: as) C := by
  intro pre b post t he hr
  cases pre with
  | nil =>
    obtain ⟨rfl, rfl⟩ := List.cons_eq_cons.mp he
    rw [hr.of_nil]
    exact ha
  | cons c pre =>
    obtain ⟨rfl, rfl⟩ := List.cons_eq_cons.mp he
    rw [← List.singleton_append] at hr
    obtain ⟨u, hu, hut⟩ := hr.of_append
    obtain ⟨v, hv, hR⟩ : ∃ v, Run R s [] v ∧ R v a u := Run.of_snoc hu
    rw [hv.of_nil] at hR
    exact has u hR pre b post t rfl hut

/-- Whether the steps of a step function meet a condition, computed. -/
def everyStep (f : σ → α → Option σ) (C : σ → α → Bool) : σ → List α → Bool
  | _, [] => true
  | s, a :: as => C s a && (f s a).all fun t => everyStep f C t as

theorem EveryStep.of_everyStep {f : σ → α → Option σ} {C : σ → α → Bool} {as : List α} {s : σ}
    (h : everyStep f C s as) :
    EveryStep (fun s a t => f s a = some t) s as fun s a => C s a := by
  induction as generalizing s with
  | nil => exact .nil
  | cons a as ih =>
    obtain ⟨ha, has⟩ := Bool.and_eq_true_iff.mp h
    refine .cons ha fun t ht => ih ?_
    rw [ht] at has
    exact has

theorem EveryStep.imp {C C' : σ → α → Prop} (h : EveryStep R s as C) (himp : ∀ s a, C s a → C' s a) :
    EveryStep R s as C' :=
  fun pre a post t he hr => himp t a (h pre a post t he hr)

/-- In a deterministic system the labels of a run name the state it reaches. -/
theorem Run.unique (hdet : ∀ t a u v, R t a u → R t a v → u = v)
    (ht : Run R s as t) (hu : Run R s as u) : t = u := by
  induction ht generalizing u with
  | nil => exact hu.of_nil.symm
  | snoc _ hR ih =>
    obtain ⟨v, hv, hRv⟩ := hu.of_snoc
    obtain rfl := ih hv
    exact hdet _ _ _ _ hR hRv

theorem EveryStep.snoc (hdet : ∀ t a u v, R t a u → R t a v → u = v) {C : σ → α → Prop} {a : α}
    (h : EveryStep R s as C) (hr : Run R s as t) (hC : C t a) : EveryStep R s (as ++ [a]) C := by
  intro pre b post v he hv
  rcases List.eq_nil_or_concat post with rfl | ⟨post', c, rfl⟩
  · -- `b` is the last label
    obtain ⟨rfl, hab⟩ := List.append_inj' he rfl
    rw [List.singleton_inj] at hab
    subst hab
    rw [← Run.unique hdet hr hv]
    exact hC
  · refine h pre b post' v ?_ hv
    have he' : as ++ [a] = (pre ++ b :: post') ++ [c] := by simpa using he
    exact (List.append_inj' he' rfl).1

/-- **Exactness rule.** Suppose an invariant `I` implies the property `P`, and a
step from a state of the invariant

* keeps the invariant when it meets the condition `C`, and
* leads to a state with the property only when it meets it.

Then `P` holds throughout a run exactly when every step of the run meets `C`. The
relation has to be deterministic, so that the labels name the states. -/
theorem Run.always_iff {I P : σ → Prop} {C : σ → α → Prop}
    (hdet : ∀ t a u v, R t a u → R t a v → u = v) (hI : ∀ t, I t → P t)
    (hkeep : ∀ t a u, I t → C t a → R t a u → I u)
    (honly : ∀ t a u, I t → R t a u → P u → C t a)
    (hr : Run R s as t) (h0 : I s) :
    Always R s as P ↔ EveryStep R s as C := by
  constructor
  · intro hP
    induction hr with
    | nil =>
      intro pre a post v he
      simp at he
    | @snoc t u as a hr hR ih =>
      have hC := ih hP.prefix
      have ht : I t := hr.invariant hkeep h0 hC
      exact hC.snoc hdet hr (honly t a u ht hR (hP _ [] u (by simp) (hr.snoc hR)))
  · intro hC pre post v he hv
    exact hI v (Run.always hkeep h0 hC pre post v he hv)

end TransitionSystem
