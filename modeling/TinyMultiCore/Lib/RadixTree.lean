import Mathlib.Data.List.Induction
import Mathlib.Data.List.Nodup

/-!
# Forests of radix trees in a store

A store gives every node `a` and index `i` a `Slot`: nothing, a child node or a
leaf. `reach s r p` is the node that the path `p` of indices leads to from the
root `r`, and `lookup s r p i` the leaf in slot `i` of that node.

Several trees live in one store. They are `Unshared` when no node is reached along
two paths. On unshared trees an edit of one slot is felt on one path only:

* `lookup_setLeaf` — a leaf put in a slot without one is what the path to the slot
  now finds, and no other path finds anything else;
* `lookup_setNode` — an empty node linked in changes no lookup;
* `lookup_congr` — nor does anything outside the reached nodes.

`postorder` lists what hangs below a root, each subtree before its node:
`nodup_postorder` and `mem_postorder` say that nothing comes twice and nothing is
missing.
-/

namespace RadixTree

variable {ν ι β : Type*}

inductive Slot (ν β : Type*) where
  | empty
  | node (a : ν)
  | leaf (b : β)

namespace Slot

def child : Slot ν β → Option ν
  | node a => some a
  | _ => none

def value : Slot ν β → Option β
  | leaf b => some b
  | _ => none

@[simp] theorem child_empty : (empty : Slot ν β).child = none := rfl
@[simp] theorem child_node (a : ν) : (node a : Slot ν β).child = some a := rfl
@[simp] theorem child_leaf (b : β) : (leaf b : Slot ν β).child = none := rfl
@[simp] theorem value_empty : (empty : Slot ν β).value = none := rfl
@[simp] theorem value_node (a : ν) : (node a : Slot ν β).value = none := rfl
@[simp] theorem value_leaf (b : β) : (leaf b : Slot ν β).value = some b := rfl

end Slot

abbrev Store (ν ι β : Type*) := ν → ι → Slot ν β

/-- The node that the path leads to. -/
def reach (s : Store ν ι β) (r : ν) : List ι → Option ν
  | [] => some r
  | i :: p => (s r i).child.bind fun a => reach s a p

/-- The leaf in slot `i` of the node that `p` leads to. -/
def lookup (s : Store ν ι β) (r : ν) (p : List ι) (i : ι) : Option β :=
  (reach s r p).bind fun a => (s a i).value

@[simp] theorem reach_nil (s : Store ν ι β) (r : ν) : reach s r [] = some r := rfl

theorem reach_cons (s : Store ν ι β) (r : ν) (i : ι) (p : List ι) :
    reach s r (i :: p) = (s r i).child.bind fun a => reach s a p := rfl

theorem lookup_nil (s : Store ν ι β) (r : ν) (i : ι) : lookup s r [] i = (s r i).value := rfl

/-- The first step of a lookup. -/
theorem lookup_cons (s : Store ν ι β) (r : ν) (i : ι) (p : List ι) (j : ι) :
    lookup s r (i :: p) j = (s r i).child.bind fun a => lookup s a p j := by
  rw [lookup, reach_cons, Option.bind_assoc]
  rfl

theorem reach_append (s : Store ν ι β) (r : ν) (p q : List ι) :
    reach s r (p ++ q) = (reach s r p).bind fun a => reach s a q := by
  induction p generalizing r with
  | nil => rfl
  | cons i p ih =>
    simp only [List.cons_append, reach, Option.bind_assoc]
    exact congrArg _ (funext ih)

/-- The last step of a path. -/
theorem reach_snoc (s : Store ν ι β) (r : ν) (p : List ι) (i : ι) :
    reach s r (p ++ [i]) = (reach s r p).bind fun a => (s a i).child := by
  rw [reach_append]
  simp [reach]

theorem reach_snoc_eq_some {s : Store ν ι β} {r c : ν} {p : List ι} {i : ι} :
    reach s r (p ++ [i]) = some c ↔ ∃ a, reach s r p = some a ∧ s a i = .node c := by
  rw [reach_snoc, Option.bind_eq_some_iff]
  refine exists_congr fun a => and_congr_right fun _ => ?_
  cases s a i <;> simp

/-- No node is reached along two paths. -/
def Unshared (s : Store ν ι β) (roots : List ν) : Prop :=
  ∀ r ∈ roots, ∀ r' ∈ roots, ∀ p p' a,
    reach s r p = some a → reach s r' p' = some a → r = r' ∧ p = p'

variable {s s' : Store ν ι β} {roots : List ν} {r a c : ν} {p : List ι} {i : ι}

/-! ## Edits elsewhere -/

/-- Stores that agree on the reached nodes reach the same nodes. -/
theorem reach_congr (h : ∀ p a, reach s r p = some a → ∀ i, s' a i = s a i) (p : List ι) :
    reach s' r p = reach s r p := by
  induction p using List.reverseRecOn with
  | nil => rfl
  | append_singleton p i ih =>
    rw [reach_snoc, reach_snoc, ih]
    cases hp : reach s r p with
    | none => rfl
    | some a => simp [h p a hp i]

theorem lookup_congr (h : ∀ p a, reach s r p = some a → ∀ i, s' a i = s a i) (p : List ι) (i : ι) :
    lookup s' r p i = lookup s r p i := by
  rw [lookup, lookup, reach_congr h p]
  cases hp : reach s r p with
  | none => rfl
  | some a => simp [h p a hp i]

/-! ## Edits of one slot -/

variable [DecidableEq ν] [DecidableEq ι]

def Store.set (s : Store ν ι β) (a : ν) (i : ι) (x : Slot ν β) : Store ν ι β :=
  fun b j => if b = a ∧ j = i then x else s b j

/-- Slots without a child do not matter for what is reached. -/
theorem reach_set {x : Slot ν β} (hold : (s a i).child = none) (hnew : x.child = none)
    (q : List ι) (r : ν) : reach (s.set a i x) r q = reach s r q := by
  induction q generalizing r with
  | nil => rfl
  | cons j q ih =>
    have hchild : (s.set a i x r j).child = (s r j).child := by
      unfold Store.set
      split
      · rename_i h
        rw [h.1, h.2, hold, hnew]
      · rfl
    rw [reach, reach, hchild]
    exact congrArg _ (funext ih)

/-- **Editing a leaf.** The slot `i` at the end of the path `p` has no child before
or after, so no path changes; and as only `p` leads to the node, no other lookup sees the edit. -/
theorem lookup_setLeaf {x : Slot ν β} (hu : Unshared s roots) (hr : r ∈ roots)
    (hp : reach s r p = some a) (hold : (s a i).child = none) (hnew : x.child = none)
    {r' : ν} (hr' : r' ∈ roots) (q : List ι) (j : ι) :
    lookup (s.set a i x) r' q j =
      if r' = r ∧ q = p ∧ j = i then x.value else lookup s r' q j := by
  rw [lookup, reach_set hold hnew, lookup]
  cases hq : reach s r' q with
  | none =>
    rw [if_neg]
    · rfl
    · rintro ⟨rfl, rfl, -⟩
      rw [hq] at hp
      cases hp
  | some b =>
    simp only [Option.bind_some, Store.set]
    by_cases hb : b = a ∧ j = i
    · obtain ⟨rfl, rfl⟩ := hb
      obtain ⟨rfl, rfl⟩ := hu r' hr' r hr q p b hq hp
      simp
    · rw [if_neg hb, if_neg]
      rintro ⟨rfl, rfl, rfl⟩
      rw [hq] at hp
      exact hb ⟨Option.some.inj hp, rfl⟩

/-- **Linking a node in.** The new node is empty and was not reached; it hangs at
the end of the path `p`. By induction on the path from its end: the edited slot is the last step of
one path only, and behind the new node there is nothing. -/
theorem reach_setNode (hu : Unshared s roots) (hr : r ∈ roots) (hp : reach s r p = some a)
    (hold : s a i = .empty) (hfresh : ∀ r ∈ roots, ∀ p, reach s r p ≠ some c)
    (hempty : ∀ j, s c j = .empty) {r' : ν} (hr' : r' ∈ roots) (q : List ι) :
    reach (s.set a i (.node c)) r' q =
      if r' = r ∧ q = p ++ [i] then some c else reach s r' q := by
  have hca : c ≠ a := fun h => hfresh r hr p (h ▸ hp)
  -- nothing hung at the end of the path before
  have hnone : reach s r (p ++ [i]) = none := by
    rw [reach_snoc, hp]
    simp [hold]
  induction q using List.reverseRecOn with
  | nil => simp
  | append_singleton q j ih =>
    rw [reach_snoc, ih]
    by_cases hq : r' = r ∧ q = p ++ [i]
    · obtain ⟨rfl, rfl⟩ := hq
      rw [if_pos ⟨rfl, rfl⟩, if_neg (by simp), reach_snoc, hnone]
      simp [Store.set, hca, hempty j]
    rw [if_neg hq, reach_snoc]
    cases hb : reach s r' q with
    | none =>
      rw [if_neg]
      · rfl
      · rintro ⟨rfl, he⟩
        obtain ⟨rfl, -⟩ := List.append_inj' he rfl
        rw [hb] at hp
        cases hp
    | some b =>
      simp only [Option.bind_some, Store.set]
      by_cases hbj : b = a ∧ j = i
      · obtain ⟨rfl, rfl⟩ := hbj
        obtain ⟨rfl, rfl⟩ := hu r' hr' r hr q p b hb hp
        simp
      · rw [if_neg hbj, if_neg]
        rintro ⟨rfl, he⟩
        obtain ⟨rfl, hji⟩ := List.append_inj' he rfl
        rw [hb] at hp
        exact hbj ⟨Option.some.inj hp, List.singleton_inj.mp hji⟩

theorem lookup_setNode (hu : Unshared s roots) (hr : r ∈ roots) (hp : reach s r p = some a)
    (hold : s a i = .empty) (hfresh : ∀ r ∈ roots, ∀ p, reach s r p ≠ some c)
    (hempty : ∀ j, s c j = .empty) {r' : ν} (hr' : r' ∈ roots) (q : List ι) (j : ι) :
    lookup (s.set a i (.node c)) r' q j = lookup s r' q j := by
  have hca : c ≠ a := fun h => hfresh r hr p (h ▸ hp)
  rw [lookup, reach_setNode hu hr hp hold hfresh hempty hr', lookup]
  by_cases hq : r' = r ∧ q = p ++ [i]
  · obtain ⟨rfl, rfl⟩ := hq
    rw [if_pos ⟨rfl, rfl⟩, reach_snoc, hp]
    simp [Store.set, hca, hold, hempty j]
  · rw [if_neg hq]
    cases hb : reach s r' q with
    | none => rfl
    | some b =>
      simp only [Option.bind_some, Store.set]
      split
      · rename_i h
        rw [h.1, h.2, hold]
        rfl
      · rfl

theorem Unshared.setNode (hu : Unshared s roots) (hr : r ∈ roots) (hp : reach s r p = some a)
    (hold : s a i = .empty) (hfresh : ∀ r ∈ roots, ∀ p, reach s r p ≠ some c)
    (hempty : ∀ j, s c j = .empty) : Unshared (s.set a i (.node c)) roots := by
  intro r₁ h₁ r₂ h₂ p₁ p₂ b hb₁ hb₂
  rw [reach_setNode hu hr hp hold hfresh hempty h₁] at hb₁
  rw [reach_setNode hu hr hp hold hfresh hempty h₂] at hb₂
  split at hb₁ <;> split at hb₂
  · rename_i e₁ e₂
    exact ⟨e₁.1.trans e₂.1.symm, e₁.2.trans e₂.2.symm⟩
  · cases hb₁
    exact absurd hb₂ (hfresh r₂ h₂ p₂)
  · cases hb₂
    exact absurd hb₁ (hfresh r₁ h₁ p₁)
  · exact hu r₁ h₁ r₂ h₂ p₁ p₂ b hb₁ hb₂

-- ---------------------------------------------------------------------------
-- What hangs below a root
-- ---------------------------------------------------------------------------

section Postorder

variable {ν ι β : Type*} (g : β → ν) {s : Store ν ι β} {is : List ι} {r f : ν}

/-- The child in a slot, or the block `g b` that its leaf `b` stands for. -/
def Slot.content : Slot ν β → Option ν
  | .empty => none
  | .node a => some a
  | .leaf b => some (g b)

/-- Slot `i` at the end of the path `p` holds `f`. -/
def Holds (s : Store ν ι β) (r : ν) (p : List ι) (i : ι) (f : ν) : Prop :=
  ∃ a, reach s r p = some a ∧ (s a i).content g = some f

/-- No two slots below the root hold the same. -/
def HoldsOnce (s : Store ν ι β) (r : ν) : Prop :=
  ∀ p i p' i' f, Holds g s r p i f → Holds g s r p' i' f → p = p' ∧ i = i'

/-- What the slots of `d + 1` levels of nodes hold, a subtree before its node. -/
def postorder (s : Store ν ι β) (is : List ι) : Nat → ν → List ν
  | 0, a => is.flatMap fun i => ((s a i).content g).toList
  | d + 1, a => is.flatMap fun i =>
    (s a i).child.toList.flatMap (postorder s is d) ++ ((s a i).content g).toList

variable {g}

theorem holds_cons {i : ι} {p : List ι} {j : ι} :
    Holds g s r (j :: p) i f ↔ ∃ c, (s r j).child = some c ∧ Holds g s c p i f := by
  constructor
  · intro ⟨a, ha, hf⟩
    obtain ⟨c, hc, ha⟩ := Option.bind_eq_some_iff.mp ha
    exact ⟨c, hc, a, ha, hf⟩
  · intro ⟨c, hc, a, ha, hf⟩
    refine ⟨a, ?_, hf⟩
    rw [reach, hc]
    exact ha

theorem holds_nil {i : ι} : Holds g s r [] i f ↔ (s r i).content g = some f := by
  simp [Holds]

/-- A path to a node ends in a slot that holds it. -/
theorem holds_of_reach {p : List ι} {i : ι} (h : reach s r (p ++ [i]) = some f) :
    Holds g s r p i f := by
  obtain ⟨a, ha, hf⟩ := reach_snoc_eq_some.mp h
  exact ⟨a, ha, by rw [hf]; rfl⟩

/-- **Nothing is missing.** The walk lists whatever a path of at most `d` steps holds, provided that
it goes through all indices. -/
theorem mem_postorder (his : ∀ i, i ∈ is) (d : Nat) :
    f ∈ postorder g s is d r ↔ ∃ p i, p.length ≤ d ∧ Holds g s r p i f := by
  induction d generalizing r with
  | zero =>
    simp only [postorder, List.mem_flatMap, Option.mem_toList, his, true_and]
    constructor
    · intro ⟨i, hi⟩
      exact ⟨[], i, Nat.le_refl 0, holds_nil.mpr hi⟩
    · intro ⟨p, i, hp, hi⟩
      obtain rfl := List.length_eq_zero_iff.mp (Nat.le_zero.mp hp)
      exact ⟨i, holds_nil.mp hi⟩
  | succ d ih =>
    simp only [postorder, List.mem_flatMap, List.mem_append, Option.mem_toList,
      his, true_and]
    constructor
    · intro ⟨j, hj⟩
      rcases hj with ⟨c, hc, hf⟩ | hf
      · obtain ⟨p, i, hp, hi⟩ := ih.mp hf
        exact ⟨j :: p, i, Nat.succ_le_succ hp, holds_cons.mpr ⟨c, hc, hi⟩⟩
      · exact ⟨[], j, Nat.zero_le _, holds_nil.mpr hf⟩
    · intro ⟨p, i, hp, hi⟩
      match p with
      | [] => exact ⟨i, Or.inr (holds_nil.mp hi)⟩
      | j :: p =>
        obtain ⟨c, hc, hi⟩ := holds_cons.mp hi
        exact ⟨j, Or.inl ⟨c, hc, ih.mpr ⟨p, i, Nat.le_of_succ_le_succ hp, hi⟩⟩⟩

theorem HoldsOnce.child {j : ι} {c : ν} (h : HoldsOnce g s r) (hc : (s r j).child = some c) :
    HoldsOnce g s c := by
  intro p i p' i' f hp hp'
  have := h _ _ _ _ f (holds_cons.mpr ⟨c, hc, hp⟩) (holds_cons.mpr ⟨c, hc, hp'⟩)
  exact ⟨(List.cons.inj this.1).2, this.2⟩

/-- **Nothing comes twice**, if nothing is held twice. What the walk lists for one index
is held on paths that begin with it, so two indices have nothing in common. -/
theorem nodup_postorder (his : ∀ i, i ∈ is) (hnd : is.Nodup) (d : Nat)
    (h : HoldsOnce g s r) : (postorder g s is d r).Nodup := by
  induction d generalizing r with
  | zero =>
    refine List.nodup_flatMap.mpr ⟨fun i _ => Option.toList_nodup _, ?_⟩
    refine hnd.imp fun {i j} hij f hi hj => hij ?_
    rw [Option.mem_toList] at hi hj
    exact (h [] i [] j f (holds_nil.mpr hi) (holds_nil.mpr hj)).2
  | succ d ih =>
    -- whatever the block of `i` lists is held on a path through slot `i`
    have hblock : ∀ i f, f ∈ (s r i).child.toList.flatMap (postorder g s is d) ++
        ((s r i).content g).toList → ∃ p j, Holds g s r p j f ∧ (p ++ [j]).head? = some i := by
      intro i f hf
      rw [List.mem_append, List.mem_flatMap] at hf
      rcases hf with ⟨c, hc, hf⟩ | hf
      · rw [Option.mem_toList] at hc
        obtain ⟨p, j, -, hp⟩ := (mem_postorder his d).mp hf
        exact ⟨i :: p, j, holds_cons.mpr ⟨c, hc, hp⟩, rfl⟩
      · rw [Option.mem_toList] at hf
        exact ⟨[], i, holds_nil.mpr hf, rfl⟩
    refine List.nodup_flatMap.mpr ⟨fun i _ => ?_, ?_⟩
    · rw [List.nodup_append]
      refine ⟨?_, Option.toList_nodup _, ?_⟩
      · cases hc : (s r i).child with
        | none => exact List.nodup_nil
        | some c =>
          simp only [Option.toList_some, List.flatMap_cons, List.flatMap_nil, List.append_nil]
          exact ih (h.child hc)
      · -- a path through the child is longer than the one that ends at it
        intro f hf f' hf' hff
        subst hff
        obtain ⟨c, hc, hf⟩ := List.mem_flatMap.mp hf
        rw [Option.mem_toList] at hc hf'
        obtain ⟨p, j, -, hp⟩ := (mem_postorder his d).mp hf
        have := h _ _ _ _ f (holds_cons.mpr ⟨c, hc, hp⟩) (holds_nil.mpr hf')
        exact absurd this.1 (List.cons_ne_nil _ _)
    · refine hnd.imp fun {i j} hij f hi hj => hij ?_
      obtain ⟨p, k, hp, hpi⟩ := hblock i f hi
      obtain ⟨p', k', hp', hpj⟩ := hblock j f hj
      obtain ⟨rfl, rfl⟩ := h p k p' k' f hp hp'
      exact Option.some.inj (hpi.symm.trans hpj)

end Postorder

end RadixTree
