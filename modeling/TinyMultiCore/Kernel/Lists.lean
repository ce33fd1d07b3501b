import TinyMultiCore.Kernel.Machine
import TinyMultiCore.Lib.LinkedList

/-!
# The lists of `lib.c`

`struct List` is the link at the head of an item, and all lists of the kernel share
the links: an item can only be in one of them. `Lists` is the memory of the links
and of the `struct HeadList`s, and the functions are those of `src/lib.c`.

`Queues s v` says what the lists are for: list `l` holds the sequence `v l`, and no
item is in two. Then `append_list_tail` appends, `remove_list_head` takes the first
item off and `remove_list` the first one that waits for the given value.
-/

namespace TinyMultiCore

open LinkedList

variable {κ ι : Type} [DecidableEq κ] [DecidableEq ι]

/-- The links of the items, and the heads of the lists. -/
structure Lists (κ ι : Type) where
  next : ι → Option ι
  head : κ → HeadList ι

namespace Lists

/-- `item->next = next` -/
def setNext (s : Lists κ ι) (item : ι) (next : Option ι) : Lists κ ι :=
  { s with next := Function.update s.next item next }

/-- `*list = l` -/
def setHead (s : Lists κ ι) (list : κ) (l : HeadList ι) : Lists κ ι :=
  { s with head := Function.update s.head list l }

def isListEmpty (s : Lists κ ι) (list : κ) : Prop := (s.head list).next = none

instance (s : Lists κ ι) (list : κ) : Decidable (s.isListEmpty list) :=
  inferInstanceAs (Decidable (_ = none))

def appendListTail (s : Lists κ ι) (list : κ) (item : ι) : Except Halt (Lists κ ι) := do
  let s := s.setNext item none
  if s.isListEmpty list then
    return s.setHead list ⟨some item, some item⟩
  else
    let tail ← deref (s.head list).tail
    let s := s.setNext tail (some item)
    return s.setHead list ⟨(s.head list).next, some item⟩

def removeListHead (s : Lists κ ι) (list : κ) : Option ι × Lists κ ι :=
  match (s.head list).next with
  | none => (none, s)
  | some item =>
    let next := s.next item
    (some item, s.setHead list ⟨next, if next = none then none else (s.head list).tail⟩)

/-- `prev->next = next`, where `prev` is an item, or (`none`) the list itself cast
to one: its first field is `next`, too. -/
def setPrevNext (s : Lists κ ι) (list : κ) (prev next : Option ι) : Lists κ ι :=
  match prev with
  | none => s.setHead list ⟨next, (s.head list).tail⟩
  | some p => s.setNext p next

/-- The body of `if (current->wait == wait)`: `current` is taken out behind `prev`. -/
def unlinkItem (s : Lists κ ι) (list : κ) (prev : Option ι) (current : ι) : Lists κ ι :=
  let s := s.setPrevNext list prev (s.next current)
  -- the tail is never set to the list: with `prev` the list, it is `NULL` here
  let tail := if (s.head list).next = none then none
    else if s.next current = none then prev else (s.head list).tail
  s.setHead list ⟨(s.head list).next, tail⟩

/-- The first item taken out. -/
theorem unlinkItem_none (s : Lists κ ι) (list : κ) (current : ι) :
    s.unlinkItem list none current = s.setHead list ⟨s.next current,
      if s.next current = none then none else (s.head list).tail⟩ := by
  unfold unlinkItem setPrevNext setHead
  by_cases hend : s.next current = none
  · simp [hend]
  · simp [hend]

/-- Another item taken out. -/
theorem unlinkItem_some (s : Lists κ ι) (list : κ) {p current : ι} (hne : current ≠ p)
    (hfirst : (s.head list).next ≠ none) :
    s.unlinkItem list (some p) current = (s.setNext p (s.next current)).setHead list
      ⟨(s.head list).next, if s.next current = none then some p else (s.head list).tail⟩ := by
  unfold unlinkItem setPrevNext setNext
  dsimp only
  rw [if_neg hfirst]
  simp only [Function.update_of_ne hne]

/-- `while (current != NULL)`, with at most `bound` items in the list: a walk past
more of them is in a cycle. -/
def removeLoop (wait : ι → U32) (value : U32) (s : Lists κ ι) (list : κ) :
    Nat → Option ι → Option ι → Except Halt (Option ι × Lists κ ι)
  | _, _, none => .ok (none, s)
  | 0, _, some _ => .error .runaway
  | bound + 1, prev, some current =>
    if wait current = value then .ok (some current, s.unlinkItem list prev current)
    else removeLoop wait value s list bound (some current) (s.next current)

/-- `remove_list(list, value)`, where `wait` is the field of the items cast to
`struct Process`. -/
def removeList (wait : ι → U32) (bound : Nat) (s : Lists κ ι) (list : κ) (value : U32) :
    Except Halt (Option ι × Lists κ ι) :=
  removeLoop wait value s list bound none (s.head list).next

end Lists

-- ---------------------------------------------------------------------------
-- What the lists hold
-- ---------------------------------------------------------------------------

/-- Each list holds its sequence, and no item is in two of them. An item has one `next` only, so
with it in two lists an append to one of them would cut the other off. -/
structure Queues (s : Lists κ ι) (v : κ → List ι) : Prop where
  rep : ∀ l, Represents s.next (s.head l) (v l)
  disjoint : ∀ l l' x, x ∈ v l → x ∈ v l' → l = l'

variable {s : Lists κ ι} {v : κ → List ι} {list : κ} {x : ι}

namespace Queues

omit [DecidableEq κ] [DecidableEq ι] in
theorem isListEmpty_iff (h : Queues s v) : s.isListEmpty list ↔ v list = [] :=
  (h.rep list).empty_iff

omit [DecidableEq ι] in
/-- A list changes, and the links of the others stay. -/
theorem setList {s' : Lists κ ι} {l' : HeadList ι} {xs : List ι} (h : Queues s v)
    (hhead : s'.head = Function.update s.head list l') (hrep : Represents s'.next l' xs)
    (hother : ∀ l, l ≠ list → ∀ y ∈ v l, s'.next y = s.next y ∧ y ∉ xs) :
    Queues s' (Function.update v list xs) := by
  refine ⟨fun l => ?_, fun l l' y hy hy' => ?_⟩
  · rw [hhead]
    by_cases hl : l = list
    · rw [hl, Function.update_self, Function.update_self]
      exact hrep
    · rw [Function.update_of_ne hl, Function.update_of_ne hl]
      exact (h.rep l).congr fun y hy => (hother l hl y hy).1
  · by_cases hl : l = list <;> by_cases hl' : l' = list
    · rw [hl, hl']
    · rw [hl, Function.update_self] at hy
      rw [Function.update_of_ne hl'] at hy'
      exact absurd hy (hother l' hl' y hy').2
    · rw [hl', Function.update_self] at hy'
      rw [Function.update_of_ne hl] at hy
      exact absurd hy' (hother l hl y hy).2
    · rw [Function.update_of_ne hl] at hy
      rw [Function.update_of_ne hl'] at hy'
      exact h.disjoint l l' y hy hy'

variable (list) in
/-- `append_list_tail` of an item that is in no list. -/
theorem append (h : Queues s v) (hx : ∀ l, x ∉ v l) :
    ∃ s', s.appendListTail list x = .ok s' ∧ Queues s' (Function.update v list (v list ++ [x])) := by
  have hfree : ∀ l, ∀ y ∈ v l, y ≠ x := fun l y hy he => hx l (he ▸ hy)
  unfold Lists.appendListTail
  by_cases hempty : v list = []
  · -- the item is the first
    have hlist : (s.setNext x none).isListEmpty list := (h.rep list).empty_iff.mpr hempty
    dsimp only
    rw [if_pos hlist]
    refine ⟨_, rfl, h.setList rfl ?_ fun l _ y hy => ⟨?_, ?_⟩⟩
    · rw [hempty]
      exact Represents.singleton (Function.update_self ..)
    · exact Function.update_of_ne (hfree l y hy) ..
    · rw [hempty]
      exact fun hmem => hfree l y hy (List.mem_singleton.mp hmem)
  · have hlist : ¬(s.setNext x none).isListEmpty list :=
      fun he => hempty ((h.rep list).empty_iff.mp he)
    obtain ⟨t, ht⟩ := Option.isSome_iff_exists.mp (List.getLast?_isSome.mpr hempty)
    have htmem : t ∈ v list := List.mem_of_getLast? ht
    have htail : (s.head list).tail = some t := (h.rep list).tail_eq.trans ht
    have hderef : deref ((s.setNext x none).head list).tail = .ok t := deref_eq_ok.mpr htail
    dsimp only
    rw [if_neg hlist, hderef, ok_bind]
    refine ⟨_, rfl, h.setList rfl ?_ fun l hl y hy => ⟨?_, ?_⟩⟩
    · refine (h.rep list).append htail (hx list) ?_ (Function.update_self ..) ?_
      · show Function.update (Function.update s.next x none) t (some x) x = none
        rw [Function.update_of_ne (hfree list t htmem).symm, Function.update_self]
      · intro y hy hyt
        show Function.update (Function.update s.next x none) t (some x) y = s.next y
        rw [Function.update_of_ne hyt, Function.update_of_ne (hfree list y hy)]
    · have hyt : y ≠ t := fun he => hl (h.disjoint l list t (he ▸ hy) htmem)
      show Function.update (Function.update s.next x none) t (some x) y = s.next y
      rw [Function.update_of_ne hyt, Function.update_of_ne (hfree l y hy)]
    · intro hmem
      rcases List.mem_append.mp hmem with hmem | hmem
      · exact hl (h.disjoint l list y hy hmem)
      · exact hfree l y hy (List.mem_singleton.mp hmem)

omit [DecidableEq κ] in
/-- The link of an item in no list does not matter. -/
theorem setNext {n : Option ι} (h : Queues s v) (hx : ∀ l, x ∉ v l) : Queues (s.setNext x n) v := by
  refine ⟨fun l => (h.rep l).congr fun y hy => ?_, h.disjoint⟩
  have hne : y ≠ x := fun he => hx l (he ▸ hy)
  exact Function.update_of_ne hne ..

omit [DecidableEq ι] in
/-- `remove_list_head` of a list that is not empty. -/
theorem removeHead {xs : List ι} (h : Queues s v) (hv : v list = x :: xs) :
    ∃ s', s.removeListHead list = (some x, s') ∧ Queues s' (Function.update v list xs) := by
  have hrep := h.rep list
  rw [hv] at hrep
  obtain ⟨hfirst, hrest⟩ := hrep.removeHead
  unfold Lists.removeListHead
  rw [hfirst]
  refine ⟨_, rfl, h.setList rfl hrest fun l hl y hy => ⟨rfl, fun hmem => ?_⟩⟩
  exact hl (h.disjoint l list y hy (by rw [hv]; exact List.mem_cons_of_mem x hmem))

omit [DecidableEq ι] in
/-- An item that `remove_list_head` returns was the first one. -/
theorem removeHead_some {s' : Lists κ ι} (h : Queues s v)
    (hhead : s.removeListHead list = (some x, s')) :
    ∃ xs, v list = x :: xs ∧ Queues s' (Function.update v list xs) := by
  cases hv : v list with
  | nil =>
    have hempty : (s.head list).next = none := h.isListEmpty_iff.mpr hv
    rw [Lists.removeListHead, hempty] at hhead
    cases hhead
  | cons y ys =>
    obtain ⟨s₁, hhead', hq⟩ := h.removeHead hv
    rw [hhead'] at hhead
    cases hhead
    exact ⟨ys, rfl, hq⟩

omit [DecidableEq ι] in
/-- It returns none off an empty list only. -/
theorem removeHead_none (h : Queues s v) (hhead : (s.removeListHead list).1 = none) :
    v list = [] := by
  cases hv : v list with
  | nil => rfl
  | cons y ys =>
    obtain ⟨s₁, hhead', -⟩ := h.removeHead hv
    rw [hhead'] at hhead
    cases hhead

/-- An item taken out of the middle of a list. -/
theorem unlinkItem {pre post : List ι} (h : Queues s v) (hv : v list = pre ++ x :: post) :
    Queues (s.unlinkItem list pre.getLast? x) (Function.update v list (pre ++ post)) := by
  have hrep := h.rep list
  rw [hv] at hrep
  have hother : ∀ l, l ≠ list → ∀ y ∈ v l, y ∉ pre ++ x :: post :=
    fun l hl y hy hmem => hl (h.disjoint l list y hy (by rw [hv]; exact hmem))
  by_cases hp : pre = []
  · -- the first item: the list itself is `prev`
    subst hp
    rw [List.getLast?_nil, Lists.unlinkItem_none]
    exact h.setList rfl hrep.removeHead.2 fun l hl y hy =>
      ⟨rfl, fun hmem => hother l hl y hy (List.mem_cons_of_mem x hmem)⟩
  · obtain ⟨p, hlast⟩ := Option.isSome_iff_exists.mp (List.getLast?_isSome.mpr hp)
    obtain ⟨pre, rfl⟩ := List.getLast?_eq_some_iff.mp hlast
    rw [List.append_assoc, List.singleton_append] at hrep hother ⊢
    have hnodup := List.nodup_append.mp hrep.nodup
    have hxp : x ≠ p := fun he => (List.nodup_cons.mp hnodup.2.1).1 (by simp [he])
    have hpre : ∀ y ∈ pre ++ post, y ≠ p := by
      intro y hy he
      rcases List.mem_append.mp hy with hy | hy
      · exact hnodup.2.2 y hy p (by simp) he
      · exact (List.nodup_cons.mp hnodup.2.1).1 (by simp [← he, hy])
    have hfirst : (s.head list).next ≠ none := by
      rw [ne_eq, hrep.empty_iff]
      simp
    rw [hlast, Lists.unlinkItem_some s list hxp hfirst]
    refine h.setList rfl (hrep.unlink (Function.update_self ..) fun y hy => ?_)
      fun l hl y hy => ⟨?_, ?_⟩
    · exact Function.update_of_ne (hpre y hy) ..
    · have hyp : y ≠ p := fun he => hother l hl y hy (by simp [he])
      exact Function.update_of_ne hyp ..
    · intro hmem
      refine hother l hl y hy ?_
      rcases List.mem_append.mp hmem with hmem | hmem
      · exact List.mem_append_left _ hmem
      · rcases List.mem_cons.mp hmem with hmem | hmem
        · simp [hmem]
        · simp [hmem]

/-- The walk of `remove_list`, which has passed the items `pre`. -/
theorem removeLoop {wait : ι → U32} {value : U32} {bound : Nat} {pre post : List ι}
    (h : Queues s v) (hv : v list = pre ++ post) (hpre : ∀ y ∈ pre, wait y ≠ value)
    (hbound : post.length ≤ bound) :
    ∃ s', s.removeLoop wait value list bound pre.getLast? post.head? =
        .ok (post.find? (fun y => wait y = value), s') ∧
      Queues s' (Function.update v list (pre ++ post.eraseP fun y => wait y = value)) := by
  have hrep := h.rep list
  induction post generalizing pre bound with
  | nil =>
    refine ⟨s, by unfold Lists.removeLoop; rfl, ?_⟩
    rw [List.eraseP_nil, ← hv, Function.update_eq_self]
    exact h
  | cons y post ih =>
    match bound, hbound with
    | bound + 1, hbound =>
    have hnext : s.next y = post.head? := by
      have hc := hrep.chain
      rw [hv] at hc
      have hd := hc.drop
      match post, hd with
      | [], hd => exact hd
      | z :: post, hd => exact hd.1
    unfold Lists.removeLoop
    by_cases hy : wait y = value
    · rw [List.find?_cons_of_pos (by simpa using hy), List.eraseP_cons_of_pos (by simpa using hy)]
      rw [List.head?_cons]
      dsimp only
      rw [if_pos hy]
      exact ⟨_, rfl, h.unlinkItem hv⟩
    · rw [List.find?_cons_of_neg (by simpa using hy), List.eraseP_cons_of_neg (by simpa using hy)]
      rw [List.head?_cons]
      dsimp only
      rw [if_neg hy, hnext]
      have hpre' : ∀ z ∈ pre ++ [y], wait z ≠ value := by
        intro z hz
        rcases List.mem_append.mp hz with hz | hz
        · exact hpre z hz
        · rw [List.mem_singleton.mp hz]
          exact hy
      have hv' : v list = (pre ++ [y]) ++ post := by
        rw [hv, List.append_assoc]
        rfl
      have := ih hv' hpre' (by simpa using hbound : post.length ≤ bound)
      rw [List.getLast?_append, List.append_assoc] at this
      exact this

/-- `remove_list` of a list that is not longer than the bound. -/
theorem removeList (wait : ι → U32) (value : U32) {bound : Nat} (h : Queues s v)
    (hbound : (v list).length ≤ bound) :
    ∃ s', s.removeList wait bound list value =
        .ok ((v list).find? (fun y => wait y = value), s') ∧
      Queues s' (Function.update v list ((v list).eraseP fun y => wait y = value)) := by
  have hfirst : (s.head list).next = (v list).head? := by
    have hc := (h.rep list).chain
    match v list, hc with
    | [], hc => exact hc
    | y :: xs, hc => exact hc.1
  unfold Lists.removeList
  rw [hfirst]
  exact h.removeLoop rfl (fun y hy => absurd hy List.not_mem_nil) hbound

/-- The two outcomes of `remove_list`. -/
theorem removeList_cases (wait : ι → U32) (value : U32) {bound : Nat} (h : Queues s v)
    (hbound : (v list).length ≤ bound) :
    (∃ s', s.removeList wait bound list value = .ok (none, s') ∧ Queues s' v ∧
      ∀ y ∈ v list, wait y ≠ value) ∨
    ∃ x xs s', s.removeList wait bound list value = .ok (some x, s') ∧ x ∈ v list ∧
      wait x = value ∧ Queues s' (Function.update v list xs) ∧
      (∀ y, y ∈ xs ↔ y ∈ v list ∧ y ≠ x) ∧ xs.length < (v list).length := by
  obtain ⟨s', hremove, hqueues⟩ := h.removeList wait value hbound
  rw [hremove]
  cases hfind : (v list).find? fun y => decide (wait y = value) with
  | none =>
    rw [List.eraseP_of_forall_not (List.find?_eq_none.mp hfind), Function.update_eq_self] at hqueues
    exact Or.inl ⟨s', rfl, hqueues, fun y hy => by simpa using List.find?_eq_none.mp hfind y hy⟩
  | some x =>
    obtain ⟨hwait, pre, post, hv, hpre⟩ := List.find?_eq_some_iff_append.mp hfind
    have herase : (v list).eraseP (fun y => decide (wait y = value)) = pre ++ post := by
      rw [hv, List.eraseP_append_right _ (fun y hy => by simpa using hpre y hy),
        List.eraseP_cons_of_pos (by simpa using hwait)]
    have hnodup := (h.rep list).nodup
    rw [hv] at hnodup
    have hx : x ∉ pre ++ post := by
      exact (List.nodup_cons.mp (List.perm_middle.nodup hnodup)).1
    rw [herase] at hqueues
    refine Or.inr ⟨x, pre ++ post, s', rfl, by simp [hv], by simpa using hwait, hqueues, ?_, ?_⟩
    · intro y
      rw [hv]
      constructor
      · exact fun hy => ⟨by
          rcases List.mem_append.mp hy with hy | hy
          · exact List.mem_append_left _ hy
          · exact List.mem_append_right _ (List.mem_cons_of_mem x hy), fun he => hx (he ▸ hy)⟩
      · intro hy
        rcases List.mem_append.mp hy.1 with hy' | hy'
        · exact List.mem_append_left _ hy'
        · exact List.mem_append_right _ ((List.mem_cons.mp hy').resolve_left hy.2)
    · rw [hv]
      simp

end Queues

end TinyMultiCore
