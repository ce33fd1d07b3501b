import Mathlib.Data.List.Basic
import Mathlib.Logic.Function.Basic

/-!
# Singly linked lists with a head and a tail pointer

The items carry one link each, `next : ι → Option ι`, and a list is known by its
first and its last item. `Represents next l xs`: the links from `l` run through the
items `xs`, each of them once, and end there.

* `Represents.append`, `Represents.removeHead`, `Represents.unlink` — what the link
  updates of a queue make of the sequence;
* `Represents.congr` — a link of an item that is not in the list does not matter;
* `Represents.unique` — the links determine the sequence.
-/

namespace LinkedList

variable {ι : Type*}

/-- The first item and the last one. -/
structure HeadList (ι : Type*) where
  next : Option ι
  tail : Option ι

/-- From `p` on, the links run through `xs` to the end. -/
def Chain (next : ι → Option ι) : Option ι → List ι → Prop
  | p, [] => p = none
  | p, x :: xs => p = some x ∧ Chain next (next x) xs

/-- The sequence of items that a list stands for. -/
structure Represents (next : ι → Option ι) (l : HeadList ι) (xs : List ι) : Prop where
  chain : Chain next l.next xs
  nodup : xs.Nodup
  tail_eq : l.tail = xs.getLast?

variable {next next' : ι → Option ι} {l : HeadList ι} {p : Option ι} {x y : ι}
  {xs ys pre post : List ι}

-- ---------------------------------------------------------------------------
-- Chains
-- ---------------------------------------------------------------------------

theorem Chain.congr (h : ∀ x ∈ xs, next' x = next x) (hc : Chain next p xs) :
    Chain next' p xs := by
  induction xs generalizing p with
  | nil => exact hc
  | cons x xs ih =>
    refine ⟨hc.1, ?_⟩
    rw [h x List.mem_cons_self]
    exact ih (fun y hy => h y (List.mem_cons_of_mem x hy)) hc.2

theorem Chain.unique (hx : Chain next p xs) (hy : Chain next p ys) : xs = ys := by
  induction xs generalizing p ys with
  | nil =>
    match ys, hy with
    | [], _ => rfl
    | y :: ys, hy => exact absurd (hx.symm.trans hy.1) (by simp)
  | cons x xs ih =>
    match ys, hy with
    | [], hy => exact absurd (hx.1.symm.trans hy) (by simp)
    | y :: ys, hy =>
      obtain rfl : x = y := Option.some.inj (hx.1.symm.trans hy.1)
      rw [ih hx.2 hy.2]

/-- A chain goes on behind each of its items. -/
theorem Chain.drop (hc : Chain next p (pre ++ x :: post)) : Chain next (next x) post := by
  induction pre generalizing p with
  | nil => exact hc.2
  | cons y pre ih => exact ih hc.2

/-- The first part of a chain may be followed by another one. -/
theorem Chain.splice (hc : Chain next p (pre ++ x :: post)) (hpre : ∀ y ∈ pre, next' y = next y)
    (hnew : Chain next' (next' x) ys) : Chain next' p (pre ++ x :: ys) := by
  induction pre generalizing p with
  | nil => exact ⟨hc.1, hnew⟩
  | cons y pre ih =>
    refine ⟨hc.1, ?_⟩
    rw [hpre y List.mem_cons_self]
    exact ih hc.2 fun z hz => hpre z (List.mem_cons_of_mem y hz)

theorem Chain.next_eq_none_iff (hc : Chain next p (pre ++ x :: post)) :
    next x = none ↔ post = [] := by
  have hd := hc.drop
  match post, hd with
  | [], hd => exact ⟨fun _ => rfl, fun _ => hd⟩
  | y :: post, hd =>
    rw [hd.1]
    simp

-- ---------------------------------------------------------------------------
-- Lists
-- ---------------------------------------------------------------------------

namespace Represents

theorem congr (h : ∀ x ∈ xs, next' x = next x) (hr : Represents next l xs) :
    Represents next' l xs := ⟨hr.chain.congr h, hr.nodup, hr.tail_eq⟩

theorem unique (hx : Represents next l xs) (hy : Represents next l ys) : xs = ys :=
  hx.chain.unique hy.chain

theorem empty_iff (hr : Represents next l xs) : l.next = none ↔ xs = [] := by
  have hc := hr.chain
  match xs, hc with
  | [], hc => exact ⟨fun _ => rfl, fun _ => hc⟩
  | x :: xs, hc =>
    rw [hc.1]
    simp

/-- The empty list. -/
theorem nil : Represents next ⟨none, none⟩ [] := ⟨rfl, List.nodup_nil, rfl⟩

/-- A list of one item. -/
theorem singleton (hx : next x = none) : Represents next ⟨some x, some x⟩ [x] :=
  ⟨⟨rfl, hx⟩, by simp, rfl⟩

/-- A new last item behind the old one `t`. -/
theorem append {t : ι} (hr : Represents next l xs) (htail : l.tail = some t) (hx : x ∉ xs)
    (hnext : next' x = none) (hlink : next' t = some x)
    (hsame : ∀ y ∈ xs, y ≠ t → next' y = next y) :
    Represents next' ⟨l.next, some x⟩ (xs ++ [x]) := by
  have hlast := hr.tail_eq
  rw [htail] at hlast
  obtain ⟨pre, rfl⟩ := List.getLast?_eq_some_iff.mp hlast.symm
  have hnodup := hr.nodup
  refine ⟨?_, ?_, by simp⟩
  · rw [List.append_assoc]
    refine hr.chain.splice (fun y hy => hsame y (by simp [hy]) ?_) ?_
    · -- `t` is last, so it is not among the items before
      exact fun h => (List.nodup_append.mp hnodup).2.2 y hy t (by simp) h
    · rw [hlink]
      exact ⟨rfl, hnext⟩
  · rw [List.nodup_append]
    refine ⟨hnodup, by simp, fun y hy z hz => ?_⟩
    rw [List.mem_singleton.mp hz]
    exact fun h => hx (h ▸ hy)

theorem head_end (hr : Represents next l (x :: xs)) : next x = none ↔ xs = [] := by
  have hc : Chain next l.next ([] ++ x :: xs) := hr.chain
  exact hc.next_eq_none_iff

/-- The first item taken off. -/
theorem removeHead (hr : Represents next l (x :: xs)) :
    l.next = some x ∧
      Represents next ⟨next x, if next x = none then none else l.tail⟩ xs := by
  refine ⟨hr.chain.1, hr.chain.2, (List.nodup_cons.mp hr.nodup).2, ?_⟩
  show (if next x = none then none else l.tail) = xs.getLast?
  have hend : next x = none ↔ xs = [] := hr.head_end
  by_cases hxs : xs = []
  · rw [if_pos (hend.mpr hxs), hxs]
    rfl
  · obtain ⟨y, ys, rfl⟩ := List.exists_cons_of_ne_nil hxs
    rw [if_neg fun h => hxs (hend.mp h), hr.tail_eq, List.getLast?_cons_cons]

/-- The item `x` behind `y` unlinked. -/
theorem unlink (hr : Represents next l (pre ++ y :: x :: post)) (hlink : next' y = next x)
    (hsame : ∀ z ∈ pre ++ post, next' z = next z) :
    Represents next' ⟨l.next, if next x = none then some y else l.tail⟩ (pre ++ y :: post) := by
  have hnodup := hr.nodup
  have hchain : Chain next l.next ((pre ++ [y]) ++ x :: post) := by
    rw [List.append_assoc]
    exact hr.chain
  refine ⟨?_, ?_, ?_⟩
  · refine hr.chain.splice (fun z hz => hsame z (by simp [hz])) ?_
    rw [hlink]
    exact hchain.drop.congr fun z hz => hsame z (by simp [hz])
  · refine hnodup.sublist ?_
    exact List.Sublist.append_left ((List.sublist_cons_self x post).cons_cons y) pre
  · show (if next x = none then some y else l.tail) = (pre ++ y :: post).getLast?
    have hend := hchain.next_eq_none_iff
    by_cases hpost : post = []
    · rw [if_pos (hend.mpr hpost), hpost]
      simp
    · obtain ⟨z, zs, rfl⟩ := List.exists_cons_of_ne_nil hpost
      rw [if_neg fun h => hpost (hend.mp h), hr.tail_eq]
      simp [List.getLast?_append, List.getLast?_cons_cons]

end Represents

end LinkedList
