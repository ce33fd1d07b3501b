import Mathlib.Data.List.Chain
import Mathlib.Data.List.Nodup

/-!
# Intrusive rings

A circular doubly linked list threaded through the link fields of its own
nodes: a head node `h` and the members `xs`, every node's `next` being the
node after it and every node's `prev` the node before it, the last member
leading back to `h`. An empty ring is a head that points at itself.

`Links` is the memory of link fields, `Ring m h xs` the representation
predicate. The results are what a program that edits rings needs:

* `Ring.frame` — a ring survives every change of other nodes' links;
* `Ring.insertFront` / `Ring.remove` — the two pointer edits act on the member
  list as `cons` and as the removal of one occurrence;
* `Ring.unique` — the memory determines the members;
* `Ring.search_eq` — a bounded walk from the head decides membership.
-/

namespace IntrusiveRing

/-- The two link fields of every node. -/
structure Links (α : Type*) where
  next : α → α
  prev : α → α

variable {α : Type*} [DecidableEq α]

namespace Links

/-- `x->next = y`. -/
def setNext (m : Links α) (x y : α) : Links α :=
  { m with next := Function.update m.next x y }

/-- `x->prev = y`. -/
def setPrev (m : Links α) (x y : α) : Links α :=
  { m with prev := Function.update m.prev x y }

@[simp] theorem setNext_next (m : Links α) (x y z : α) :
    (m.setNext x y).next z = if z = x then y else m.next z := by
  simp [setNext, Function.update_apply]

@[simp] theorem setNext_prev (m : Links α) (x y z : α) :
    (m.setNext x y).prev z = m.prev z := rfl

@[simp] theorem setPrev_prev (m : Links α) (x y z : α) :
    (m.setPrev x y).prev z = if z = x then y else m.prev z := by
  simp [setPrev, Function.update_apply]

@[simp] theorem setPrev_next (m : Links α) (x y z : α) :
    (m.setPrev x y).next z = m.next z := rfl

/-- Make `h` an empty ring. -/
def reset (m : Links α) (h : α) : Links α := (m.setNext h h).setPrev h h

/-- Link the node `x` in right after `h`. -/
def insertAfter (m : Links α) (h x : α) : Links α :=
  let m₁ := m.setNext x (m.next h)
  let m₂ := m₁.setPrev x h
  let m₃ := m₂.setPrev (m₂.next h) x
  m₃.setNext h x

/-- Make the neighbours of `x` point past it. -/
def unlink (m : Links α) (x : α) : Links α :=
  let m₁ := m.setNext (m.prev x) (m.next x)
  m₁.setPrev (m₁.next x) (m₁.prev x)

theorem insertAfter_next (m : Links α) (h x z : α) :
    (m.insertAfter h x).next z =
      if z = h then x else if z = x then m.next h else m.next z := by
  simp [insertAfter]

theorem insertAfter_prev (m : Links α) {h x : α} (hx : x ≠ h) (z : α) :
    (m.insertAfter h x).prev z =
      if z = m.next h then x else if z = x then h else m.prev z := by
  simp [insertAfter, Ne.symm hx]

theorem unlink_next (m : Links α) (x z : α) :
    (m.unlink x).next z = if z = m.prev x then m.next x else m.next z := by
  simp [unlink]

theorem unlink_prev (m : Links α) (x z : α) :
    (m.unlink x).prev z = if z = m.next x then m.prev x else m.prev z := by
  simp [unlink]

/-- Walk from `c` towards the head `h` looking for `x`. The result is `none`
when the walk is still under way after `fuel` nodes. -/
def search (m : Links α) (h x : α) : Nat → α → Option Bool
  | 0, _ => none
  | fuel + 1, c =>
    if c = h then some false
    else if c = x then some true
    else search m h x fuel (m.next c)

/-- Two nodes are neighbours, in both directions. -/
def Joined (m : Links α) (a b : α) : Prop := m.next a = b ∧ m.prev b = a

end Links

/-- The ring of `h` has exactly the members `xs`, in `next` order. -/
def Ring (m : Links α) (h : α) (xs : List α) : Prop :=
  (h :: (xs ++ [h])).IsChain m.Joined

omit [DecidableEq α] in
/-- A chain of neighbours reads the `next` field of every node but the last
and the `prev` field of every node but the first. -/
theorem chain_frame {m m' : Links α} :
    ∀ {l : List α}, l.IsChain m.Joined →
      (∀ x ∈ l.dropLast, m'.next x = m.next x) →
      (∀ x ∈ l.tail, m'.prev x = m.prev x) → l.IsChain m'.Joined
  | [], _, _, _ => List.isChain_nil
  | [x], _, _, _ => List.isChain_singleton x
  | x :: y :: l, h, hn, hp => by
    rw [List.isChain_cons_cons] at h ⊢
    refine ⟨⟨(hn x (by simp)).trans h.1.1, (hp y (by simp)).trans h.1.2⟩, ?_⟩
    refine chain_frame h.2 (fun z hz => hn z ?_) (fun z hz => hp z ?_)
    · rw [List.dropLast_cons_cons]
      exact List.mem_cons_of_mem _ hz
    · exact List.mem_cons_of_mem _ hz

namespace Ring

variable {m m' : Links α} {h : α} {xs : List α}

omit [DecidableEq α] in
/-- A ring depends on the links of its own nodes only. -/
theorem frame (hr : Ring m h xs)
    (hag : ∀ x ∈ h :: xs, m'.next x = m.next x ∧ m'.prev x = m.prev x) :
    Ring m' h xs := by
  refine chain_frame hr (fun x hx => (hag x ?_).1) (fun x hx => (hag x ?_).2)
  · rw [← List.cons_append, List.dropLast_concat] at hx
    exact hx
  · simp only [List.tail_cons, List.mem_append, List.mem_singleton] at hx
    rcases hx with hx | rfl
    · exact List.mem_cons_of_mem _ hx
    · exact List.mem_cons_self

/-- A head that was just reset is an empty ring. -/
theorem reset (m : Links α) (h : α) : Ring (m.reset h) h [] := by
  simp [Ring, Links.reset, Links.Joined]

omit [DecidableEq α] in
/-- The node after the head: the first member, or the head itself. -/
theorem next_head (hr : Ring m h xs) : m.next h = (xs ++ [h]).head (by simp) := by
  cases xs with
  | nil =>
    simp only [Ring, List.nil_append, List.isChain_cons_cons] at hr
    exact hr.1.1
  | cons x xs =>
    simp only [Ring, List.cons_append, List.isChain_cons_cons] at hr
    exact hr.1.1

omit [DecidableEq α] in
/-- The first node points back at the head. -/
theorem prev_next_head (hr : Ring m h xs) : m.prev (m.next h) = h := by
  cases xs with
  | nil =>
    simp only [Ring, List.nil_append, List.isChain_cons_cons] at hr
    rw [hr.1.1]
    exact hr.1.2
  | cons x xs =>
    simp only [Ring, List.cons_append, List.isChain_cons_cons] at hr
    rw [hr.1.1]
    exact hr.1.2

omit [DecidableEq α] in
/-- The head points at itself exactly when the ring is empty. -/
theorem next_head_eq_iff (hr : Ring m h xs) (hh : h ∉ xs) : m.next h = h ↔ xs = [] := by
  rw [hr.next_head]
  cases xs with
  | nil => simp
  | cons x xs =>
    simp only [List.cons_append, List.head_cons, reduceCtorEq, iff_false]
    rintro rfl
    exact hh List.mem_cons_self

omit [DecidableEq α] in
theorem next_head_mem (hr : Ring m h xs) : m.next h ∈ h :: xs := by
  rw [hr.next_head]
  have := List.head_mem (show xs ++ [h] ≠ [] by simp)
  simp only [List.mem_append, List.mem_cons, List.not_mem_nil, or_false] at this ⊢
  tauto

omit [DecidableEq α] in
theorem next_head_cons {x : α} (hr : Ring m h (x :: xs)) : m.next h = x := hr.next_head

omit [DecidableEq α] in
/-- The surroundings of a member `x`: the node `a` before it and the node `b`
after it, with the chains that lead up to `a` and on from `b`. -/
theorem around {pre post : List α} {x : α} (hr : Ring m h (pre ++ x :: post)) :
    ∃ p a b q, h :: pre = p ++ [a] ∧ post ++ [h] = b :: q ∧
      m.Joined a x ∧ m.Joined x b ∧
      (p ++ [a]).IsChain m.Joined ∧ (b :: q).IsChain m.Joined := by
  obtain ⟨p, a, hpa⟩ : ∃ p a, h :: pre = p ++ [a] :=
    ⟨_, _, (List.dropLast_append_getLast (List.cons_ne_nil h pre)).symm⟩
  obtain ⟨b, q, hbq⟩ : ∃ b q, post ++ [h] = b :: q := by
    cases post with
    | nil => exact ⟨h, [], rfl⟩
    | cons b post => exact ⟨b, post ++ [h], rfl⟩
  have hall : h :: (pre ++ x :: post ++ [h]) = p ++ a :: x :: b :: q := by
    rw [List.append_assoc, ← List.cons_append, hpa, List.cons_append, hbq]
    simp
  unfold Ring at hr
  rw [hall, List.isChain_split, List.isChain_cons_cons, List.isChain_cons_cons] at hr
  exact ⟨p, a, b, q, hpa, hbq, hr.2.1, hr.2.2.1, hr.1, hr.2.2.2⟩

omit [DecidableEq α] in
/-- The neighbours of a member are members or the head. -/
theorem neighbours_mem (hr : Ring m h xs) {x : α} (hx : x ∈ xs) :
    m.next x ∈ h :: xs ∧ m.prev x ∈ h :: xs := by
  obtain ⟨pre, post, rfl⟩ := List.append_of_mem hx
  obtain ⟨p, a, b, q, hpa, hbq, ⟨-, hxa⟩, ⟨hxb, -⟩, -, -⟩ := hr.around
  have ha : a ∈ h :: pre := by simp [hpa]
  have hb : b ∈ post ++ [h] := by simp [hbq]
  rw [hxa, hxb]
  simp only [List.mem_cons, List.mem_append, List.not_mem_nil, or_false] at ha hb ⊢
  tauto

/-- **Linking in at the front.** Only the head and the old first member get another neighbour. Behind
that one the chain is framed, which is why the head and the members have to be different nodes. -/
theorem insertFront (hr : Ring m h xs) {x : α} (hnd : (h :: xs).Nodup)
    (hx : x ∉ h :: xs) : Ring (m.insertAfter h x) h (x :: xs) := by
  rw [List.nodup_cons] at hnd
  rw [List.mem_cons, not_or] at hx
  have hnext : ∀ z ∈ xs, (m.insertAfter h x).next z = m.next z := by
    intro z hz
    have hzh : z ≠ h := fun e => hnd.1 (e ▸ hz)
    have hzx : z ≠ x := fun e => hx.2 (e ▸ hz)
    simp [m.insertAfter_next, hzh, hzx]
  cases xs with
  | nil =>
    have h0 : m.next h = h := hr.next_head
    simp [Ring, m.insertAfter_next, m.insertAfter_prev hx.1, Links.Joined, h0, hx.1]
  | cons y ys =>
    have h0 : m.next h = y := hr.next_head_cons
    have hyh : y ≠ h := fun e => hnd.1 (by simp [e])
    have hyx : y ≠ x := fun e => hx.2 (by simp [e])
    unfold Ring at hr ⊢
    rw [List.cons_append, List.isChain_cons_cons] at hr ⊢
    rw [List.cons_append, List.isChain_cons_cons]
    refine ⟨?_, ?_, ?_⟩
    · simp [m.insertAfter_next, m.insertAfter_prev hx.1, Links.Joined, h0, Ne.symm hyx]
    · simp [m.insertAfter_next, m.insertAfter_prev hx.1, Links.Joined, h0, hx.1]
    · -- behind the first member nothing changed
      refine chain_frame hr.2 (fun z hz => hnext z ?_) (fun z hz => ?_)
      · rw [← List.cons_append, List.dropLast_concat] at hz
        exact hz
      · simp only [List.tail_cons, List.mem_append, List.mem_singleton] at hz
        have hzy : z ≠ y := by
          rintro rfl
          rcases hz with hz | rfl
          · exact (List.nodup_cons.mp hnd.2).1 hz
          · exact hyh rfl
        have hzx : z ≠ x := by
          rintro rfl
          rcases hz with hz | rfl
          · exact hx.2 (List.mem_cons_of_mem _ hz)
          · exact hx.1 rfl
        simp [m.insertAfter_prev hx.1, h0, hzy, hzx]

/-- **Unlinking a member.** Its two neighbours are joined. The chain is cut at the member into the
part before and the part behind it, and neither sees the links that change. -/
theorem remove {pre post : List α} {x : α} (hr : Ring m h (pre ++ x :: post))
    (hnd : (h :: (pre ++ x :: post)).Nodup) : Ring (m.unlink x) h (pre ++ post) := by
  obtain ⟨p, a, b, q, hpa, hbq, ⟨hax, hxa⟩, ⟨hxb, hbx⟩, hpre, hpost⟩ := hr.around
  have hafter : h :: (pre ++ post ++ [h]) = p ++ a :: b :: q := by
    rw [List.append_assoc, ← List.cons_append, hpa, hbq]
    simp
  unfold Ring
  rw [hafter, List.isChain_split, List.isChain_cons_cons]
  have hndp : (p ++ [a] ++ x :: post).Nodup := by
    rw [← hpa]
    simpa using hnd
  have hndq : (post ++ [h]).Nodup := by
    rw [List.nodup_append]
    rw [List.nodup_cons] at hnd
    refine ⟨(List.nodup_append.mp hnd.2).2.1.of_cons, by simp, ?_⟩
    rintro z hz _ hz' rfl
    exact hnd.1 (by simp_all)
  have hunext : ∀ z, (m.unlink x).next z = if z = a then b else m.next z := by
    intro z
    rw [m.unlink_next, hxa, hxb]
  have huprev : ∀ z, (m.unlink x).prev z = if z = b then a else m.prev z := by
    intro z
    rw [m.unlink_prev, hxa, hxb]
  have hamem : a ∈ h :: pre := by
    rw [hpa]
    simp
  have hbmem : b ∈ post ++ [h] := by
    rw [hbq]
    simp
  refine ⟨?_, ⟨by simp [hunext], by simp [huprev]⟩, ?_⟩
  · -- up to `a`
    refine chain_frame hpre (fun z hz => ?_) (fun z hz => ?_)
    · rw [List.dropLast_concat] at hz
      have hza : z ≠ a := by
        rintro rfl
        simp only [List.nodup_append, List.append_assoc] at hndp
        exact hndp.2.2 z hz z (by simp) rfl
      simp [hunext, hza]
    · rw [← hpa, List.tail_cons] at hz
      have hzb : z ≠ b := by
        rintro rfl
        rw [List.nodup_cons] at hnd
        rcases List.mem_append.mp hbmem with hb | hb
        · exact (List.nodup_append.mp hnd.2).2.2 z hz z (List.mem_cons_of_mem _ hb) rfl
        · exact hnd.1 (by simp_all)
      simp [huprev, hzb]
  · -- from `b` on
    rw [← hbq] at hpost ⊢
    refine chain_frame hpost (fun z hz => ?_) (fun z hz => ?_)
    · rw [List.dropLast_concat] at hz
      have hza : z ≠ a := by
        rintro rfl
        rw [← List.cons_append, List.nodup_append] at hnd
        exact hnd.2.2 z hamem z (List.mem_cons_of_mem _ hz) rfl
      simp [hunext, hza]
    · have hzb : z ≠ b := by
        rintro rfl
        rw [hbq] at hz hndq
        exact (List.nodup_cons.mp hndq).1 hz
      simp [huprev, hzb]

omit [DecidableEq α] in
/-- The memory determines the members of a ring. -/
theorem unique {ys : List α} (hx : Ring m h xs) (hy : Ring m h ys)
    (hhx : h ∉ xs) (hhy : h ∉ ys) : xs = ys := by
  -- `h` generalises to the node the two tails are read from
  have key : ∀ (xs ys : List α) (c : α), (c :: (xs ++ [h])).IsChain m.Joined →
      (c :: (ys ++ [h])).IsChain m.Joined → h ∉ xs → h ∉ ys → xs = ys := by
    intro xs
    induction xs with
    | nil =>
      intro ys c hx hy _ hhy
      cases ys with
      | nil => rfl
      | cons y ys =>
        simp only [List.nil_append, List.cons_append, List.isChain_cons_cons] at hx hy
        exact absurd (hy.1.1.symm.trans hx.1.1 ▸ List.mem_cons_self) hhy
    | cons x xs ih =>
      intro ys c hx hy hhx hhy
      cases ys with
      | nil =>
        simp only [List.nil_append, List.cons_append, List.isChain_cons_cons] at hx hy
        exact absurd (hx.1.1.symm.trans hy.1.1 ▸ List.mem_cons_self) hhx
      | cons y ys =>
        simp only [List.cons_append, List.isChain_cons_cons] at hx hy
        obtain rfl : x = y := hx.1.1.symm.trans hy.1.1
        rw [ih ys x hx.2 hy.2 (fun e => hhx (List.mem_cons_of_mem _ e))
          (fun e => hhy (List.mem_cons_of_mem _ e))]
  exact key xs ys h hx hy hhx hhy

/-- The walk over the members `ys` that are left, from the first of them. -/
theorem search_chain {x : α} :
    ∀ {ys : List α} {fuel : Nat} {c : α}, (c :: ys ++ [h]).IsChain m.Joined →
      h ∉ c :: ys → ys.length + 1 < fuel →
      m.search h x fuel c = some (decide (x ∈ c :: ys))
  | ys, 0, c, _, _, hf => by omega
  | ys, fuel + 1, c, hc, hh, hf => by
    have hch : c ≠ h := fun e => hh (by simp [e])
    rw [Links.search, if_neg hch]
    by_cases hcx : c = x
    · simp [hcx]
    · rw [if_neg hcx]
      cases ys with
      | nil =>
        simp only [List.cons_append, List.nil_append, List.isChain_cons_cons] at hc
        obtain ⟨fuel, rfl⟩ : ∃ f, fuel = f + 1 := ⟨fuel - 1, by simp at hf; omega⟩
        simp [Links.search, hc.1.1, Ne.symm hcx]
      | cons y ys =>
        simp only [List.cons_append, List.isChain_cons_cons] at hc
        have ih : m.search h x fuel y = some (decide (x ∈ y :: ys)) :=
          search_chain (by simpa using hc.2) (fun e => hh (List.mem_cons_of_mem _ e))
            (by simp at hf ⊢; omega)
        rw [hc.1.1, ih]
        simp [Ne.symm hcx]

/-- **A walk from the head decides membership**, given more steps than the
ring has nodes. It ends where it comes back to the head, which therefore must not be a member. -/
theorem search_eq (hr : Ring m h xs) (hh : h ∉ xs) {fuel : Nat}
    (hf : xs.length + 1 < fuel) (x : α) :
    m.search h x fuel (m.next h) = some (decide (x ∈ xs)) := by
  cases xs with
  | nil =>
    obtain ⟨fuel, rfl⟩ : ∃ f, fuel = f + 1 := ⟨fuel - 1, by omega⟩
    simp [Links.search, hr.next_head]
  | cons y ys =>
    rw [hr.next_head_cons]
    refine search_chain ?_ hh (by simpa using by simp at hf; omega)
    simp only [Ring, List.cons_append, List.isChain_cons_cons] at hr
    exact hr.2

end Ring

end IntrusiveRing
