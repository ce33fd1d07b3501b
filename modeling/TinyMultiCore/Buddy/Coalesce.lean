import Mathlib.Data.Fintype.Card
import TinyMultiCore.Buddy.Operations

/-!
# `buddy_free` on the free lists

The coalescing loop puts the merged block on the list of the order it just
looked at, not of the next one, and puts nothing anywhere when the first buddy
is not free. What that does to well-formed lists depends on one question: does
the loop, at an order above the first, find a buddy *above* its address
(`doubleInserts`)?

* `buddyFree_spec` — if not, the lists stay well formed: past the first order the
  loop only moves buddies to the front of their own lists. The freed page is
  given up, or its buddy is; the bytes on the lists stay the same.
* `buddyFree_crossed` — if so, the lower half is linked in a second time while it
  is on the list of the order below, and that list no longer leads back to its
  head.
-/

namespace TinyMultiCore

open IntrusiveRing TransitionSystem

variable {start size : U64} {m : NodeLinks} {L : FreeLists} {held : List Block}

/-- In the loop of `buddy_free` from order `i` on, some buddy is found above the
address it is merged with. The lower half of that pair is on the list of the
order below already, and the loop links it in again. -/
def keepsLower (m : NodeLinks) (start : U64) : Nat → Nat → U64 → Bool
  | 0, _, _ => false
  | n + 1, i, addr =>
    let buddy := buddyOf start addr i
    match findBuddy m i buddy with
    | .ok true => addr < buddy || keepsLower m start n (i + 1) buddy
    | _ => false

/-- Freeing the order-`order` block at `v` links a node in twice: its buddy is
free, and at a higher order the merged block has a free buddy above it. -/
def doubleInserts (a : BuddyAllocator) (v : U64) (order : Nat) : Bool :=
  let buddy := buddyOf a.startAddr v order
  match findBuddy a.links order buddy with
  | .ok true =>
    keepsLower a.links a.startAddr (maxOrder - 2 - order) (order + 1)
      (if v < buddy then v else buddy)
  | _ => false

/-- There are fewer blocks than addresses. -/
theorem length_lt_walkBound {l : List U64} (h : l.Nodup) : l.length + 1 < walkBound := by
  have hfin : (l.map BitVec.toFin).Nodup := h.map fun _ _ => BitVec.toFin_inj.mp
  have hcard := hfin.length_le_card
  rw [List.length_map, Fintype.card_fin] at hcard
  unfold walkBound maxOrder
  omega

theorem findBuddy_eq {i : Nat} (hring : Ring m (.head i) ((L i).map .block))
    (hnd : (L i).Nodup) (b : U64) : findBuddy m i b = .ok (decide (b ∈ L i)) := by
  have hlen : ((L i).map NodeRef.block).length + 1 < walkBound := by
    rw [List.length_map]
    exact length_lt_walkBound hnd
  rw [findBuddy, hring.search_eq (head_notMem_map i _) hlen]
  simp [block_mem_map]

/-- One turn of the loop: the buddy `b` leaves the list `i`, and `addr` goes to
its front. -/
def mergeTurn (m : NodeLinks) (i : Nat) (b addr : U64) : NodeLinks :=
  listAdd (listDel m (.block b)) (.head i) (.block addr)

theorem freeLoop_succ {n i : Nat} {addr : U64} (hring : Ring m (.head i) ((L i).map .block))
    (hnd : (L i).Nodup) :
    freeLoop start (n + 1) i addr m =
      let b := buddyOf start addr i
      let low := if addr < b then addr else b
      if b ∈ L i then freeLoop start n (i + 1) low (mergeTurn m i b low) else .ok m := by
  rw [freeLoop, findBuddy_eq hring hnd]
  by_cases hb : buddyOf start addr i ∈ L i
  · simp [hb, mergeTurn, bind, Except.bind]
  · simp [hb, bind, Except.bind, pure, Except.pure]

/-- A turn leaves the nodes outside its own list alone, but for `addr`. -/
theorem mergeTurn_other {i : Nat} {b addr : U64} (hring : Ring m (.head i) ((L i).map .block))
    (hnd : (L i).Nodup) (hb : b ∈ L i) {z : NodeRef}
    (hz : z ∉ NodeRef.head i :: (L i).map .block) :
    (z ≠ .block addr → (mergeTurn m i b addr).next z = m.next z) ∧
      (mergeTurn m i b addr).prev z = if z = .block addr then .head i else m.prev z := by
  have hnb := hring.neighbours_mem (block_mem_map.mpr hb)
  have hfirst := (ring_listDel hring hnd hb).next_head_mem
  have hsub : (listDel m (.block b)).next (.head i) ∈ NodeRef.head i :: (L i).map .block := by
    rcases List.mem_cons.mp hfirst with h | h
    · rw [h]
      exact List.mem_cons_self
    · refine List.mem_cons_of_mem _ ?_
      exact List.map_subset _ List.erase_subset h
  have hne : NodeRef.block addr ≠ NodeRef.head i := NodeRef.noConfusion
  have h1 : z ≠ .head i := fun e => hz (e ▸ List.mem_cons_self)
  have h2 : z ≠ (listDel m (.block b)).next (.head i) := fun e => hz (e ▸ hsub)
  have h3 : z ≠ m.prev (.block b) := fun e => hz (e ▸ hnb.2)
  have h4 : z ≠ m.next (.block b) := fun e => hz (e ▸ hnb.1)
  constructor
  · intro hza
    rw [mergeTurn, listAdd_eq, Links.insertAfter_next, if_neg h1, if_neg hza, listDel_eq,
      Links.unlink_next, if_neg h3]
  · rw [mergeTurn, listAdd_eq, Links.insertAfter_prev _ hne, if_neg h2, listDel_eq,
      Links.unlink_prev, if_neg h4]

theorem mergeTurn_next_head (m : NodeLinks) (i : Nat) (b addr : U64) :
    (mergeTurn m i b addr).next (.head i) = .block addr := by
  rw [mergeTurn, listAdd_eq, Links.insertAfter_next, if_pos rfl]

/-! ## The good case -/

/-- The question of `keepsLower`, asked of the lists. -/
def KeepsLower (L : FreeLists) (start : U64) : Nat → Nat → U64 → Prop
  | 0, _, _ => False
  | n + 1, i, addr =>
    let buddy := buddyOf start addr i
    buddy ∈ L i ∧ (addr < buddy ∨ KeepsLower L start n (i + 1) buddy)

theorem keepsLower_iff (h : Represents start size m L held) :
    ∀ {n i : Nat} {addr : U64}, i + n + 1 = maxOrder →
      (keepsLower m start n i addr = true ↔ KeepsLower L start n i addr)
  | 0, _, _, _ => by simp [keepsLower, KeepsLower]
  | n + 1, i, addr, hn => by
    have ih : keepsLower m start n (i + 1) (buddyOf start addr i) = true ↔
        KeepsLower L start n (i + 1) (buddyOf start addr i) := keepsLower_iff h (by omega)
    rw [keepsLower, KeepsLower, findBuddy_eq (h.rings i (by omega)) (h.list_nodup (by omega))]
    by_cases hb : buddyOf start addr i ∈ L i
    · simp [hb, ih]
    · simp [hb]

/-- The lists of the orders from `i` on decide the question from `i` on. -/
theorem keepsLower_congr {L L' : FreeLists} :
    ∀ {n i : Nat} {addr : U64}, (∀ j, i ≤ j → L' j = L j) →
      (KeepsLower L' start n i addr ↔ KeepsLower L start n i addr)
  | 0, _, _, _ => Iff.rfl
  | n + 1, i, addr, h => by
    rw [KeepsLower, KeepsLower, h i le_rfl]
    have ih : KeepsLower L' start n (i + 1) (buddyOf start addr i) ↔
        KeepsLower L start n (i + 1) (buddyOf start addr i) :=
      keepsLower_congr fun j hj => h j (by omega)
    rw [ih]

/-- Every list has the same members. -/
def FreeLists.Same (L L' : FreeLists) : Prop := ∀ j, (L' j).Perm (L j)

theorem FreeLists.Same.bytes {L L' : FreeLists} (h : L.Same L') :
    bytesOf L'.blocks = bytesOf L.blocks :=
  bytesOf_perm (List.Perm.flatMap_left _ fun j _ => (h j).map _)

/-- A member of a list that moves to its front. -/
theorem FreeLists.same_rotate {L : FreeLists} {i : Nat} {b : U64} (hb : b ∈ L i) :
    L.Same ((L.drop i b).push i b) := by
  intro j
  by_cases hj : j = i
  · subst hj
    simpa using (List.perm_cons_erase hb).symm
  · simp [hj]

/-- **Past the first order.** Unless the loop keeps a lower half, each turn takes
a buddy off its list and puts the same block back. -/
theorem freeLoop_rotate :
    ∀ {n i : Nat} {addr : U64} {m : NodeLinks} {L : FreeLists}, i + n + 1 = maxOrder →
      Represents start size m L held → ¬ KeepsLower L start n i addr →
      ∃ m' L', freeLoop start n i addr m = .ok m' ∧ Represents start size m' L' held ∧ L.Same L'
  | 0, _, _, m, L, _, h, _ => ⟨m, L, rfl, h, fun _ => .refl _⟩
  | n + 1, i, addr, m, L, hn, h, hk => by
    have hi : i < maxOrder := by omega
    rw [freeLoop_succ (h.rings i hi) (h.list_nodup hi)]
    rw [KeepsLower] at hk
    set b := buddyOf start addr i with hb
    by_cases hmem : b ∈ L i
    · simp only [hmem, true_and, not_or] at hk
      simp only [hmem, if_true, if_neg hk.1]
      have hput := (h.take hi hmem).put hi
      have hk' : ¬ KeepsLower ((L.drop i b).push i b) start n (i + 1) b := by
        rw [keepsLower_congr fun j hj => ?_]
        · exact hk.2
        · have hji : j ≠ i := by omega
          simp [hji]
      obtain ⟨m', L', hrun, hrep, hsame⟩ := freeLoop_rotate (by omega) hput hk'
      exact ⟨m', L', hrun, hrep, fun j => (hsame j).trans (FreeLists.same_rotate hmem j)⟩
    · simp only [hmem, if_false]
      exact ⟨m, L, rfl, h, fun _ => .refl _⟩

/-- The first turn gives up the freed block or its buddy, and lists the other. -/
theorem Represents.merge {i : Nat} (hi : i < maxOrder) {v b : U64}
    (h : Represents start size m L (⟨v, i⟩ :: held)) (hb : b ∈ L i) :
    let low := if v < b then v else b
    Represents start size (mergeTurn m i b low) ((L.drop i b).push i low) held := by
  have htake := h.take hi hb
  by_cases hlt : v < b
  · simp only [hlt, if_true]
    exact ((htake.perm (List.Perm.swap _ _ _)).put hi).forget
  · simp only [hlt, if_false]
    exact (htake.put hi).forget

/-- The lists after `buddy_free`, when all goes well, up to the order of their members. -/
def FreeLists.freed (L : FreeLists) (start v : U64) (order : Nat) : FreeLists :=
  let b := buddyOf start v order
  if order + 1 < maxOrder ∧ b ∈ L order then (L.drop order b).push order (if v < b then v else b)
  else L

/-- **`buddy_free`, the good case, on the lists.** The freed block is listed in the place of
its buddy, or the buddy stays where it is; the freed block is no longer held. -/
theorem buddyFree_lists {a : BuddyAllocator} {order : Nat} {v : U64} (ho : order < maxOrder)
    (h : Represents a.startAddr size a.links L (⟨v, order⟩ :: held))
    (hd : doubleInserts a v order = false) :
    ∃ a' L', buddyFree a v order = .ok a' ∧ a'.startAddr = a.startAddr ∧
      Represents a.startAddr size a'.links L' held ∧ (L.freed a.startAddr v order).Same L' := by
  suffices hloop : ∃ m' L', freeLoop a.startAddr (maxOrder - 1 - order) order v a.links = .ok m' ∧
      Represents a.startAddr size m' L' held ∧ (L.freed a.startAddr v order).Same L' by
    obtain ⟨m', L', hrun, hrep, hsame⟩ := hloop
    exact ⟨⟨m', a.startAddr⟩, L', by rw [buddyFree, hrun]; rfl, rfl, hrep, hsame⟩
  by_cases htop : order = maxOrder - 1
  · -- a block of the top order has no buddy to look for
    subst htop
    have hnone : ¬maxOrder - 1 + 1 < maxOrder := by decide
    rw [FreeLists.freed, if_neg fun hfound => hnone hfound.1]
    exact ⟨a.links, L, rfl, h.forget, fun _ => .refl _⟩
  obtain ⟨n, hn⟩ : ∃ n, maxOrder - 1 - order = n + 1 := ⟨maxOrder - 2 - order, by omega⟩
  have hn' : maxOrder - 2 - order = n := by omega
  have hring := h.rings order ho
  have hnd := h.list_nodup ho
  rw [hn, freeLoop_succ hring hnd]
  rw [doubleInserts, findBuddy_eq hring hnd, hn'] at hd
  set b := buddyOf a.startAddr v order with hb
  by_cases hmem : b ∈ L order
  · simp only [hmem, if_true, decide_true] at hd ⊢
    have hfreed : L.freed a.startAddr v order =
        (L.drop order b).push order (if v < b then v else b) := if_pos ⟨by omega, hmem⟩
    rw [hfreed]
    have hrep := h.merge ho hmem
    have hk : ¬ KeepsLower ((L.drop order b).push order (if v < b then v else b)) a.startAddr n
        (order + 1) (if v < b then v else b) := by
      rw [keepsLower_congr fun j hj => ?_, ← keepsLower_iff h (by omega), hd]
      · simp
      · have hji : j ≠ order := by omega
        simp [hji]
    exact freeLoop_rotate (by omega) hrep hk
  · simp only [hmem, if_false]
    rw [FreeLists.freed, if_neg fun hfound => hmem hfound.2]
    exact ⟨a.links, L, rfl, h.forget, fun _ => .refl _⟩

theorem bytesOf_freed {v : U64} {order : Nat} :
    bytesOf (L.freed start v order).blocks = bytesOf L.blocks := by
  rw [FreeLists.freed]
  split
  · rename_i hfound
    rw [bytesOf_push (by omega), bytesOf_drop (by omega) hfound.2]
  · rfl

/-- **`buddy_free`, the good case.** The lists stay well formed and keep their
bytes; the freed block is no longer held. -/
theorem buddyFree_spec {a : BuddyAllocator} {order : Nat} {v : U64} (ho : order < maxOrder)
    (h : Represents a.startAddr size a.links L (⟨v, order⟩ :: held))
    (hd : doubleInserts a v order = false) :
    ∃ a' L', buddyFree a v order = .ok a' ∧ a'.startAddr = a.startAddr ∧
      Represents a.startAddr size a'.links L' held ∧ bytesOf L'.blocks = bytesOf L.blocks := by
  obtain ⟨a', L', hrun, hstart, hrep, hsame⟩ := buddyFree_lists ho h hd
  exact ⟨a', L', hrun, hstart, hrep, hsame.bytes.trans bytesOf_freed⟩

/-! ## The bad case -/

/-- The list of the order `j` leads to a node that points back at the head of a
higher order. -/
structure Crossed (m : NodeLinks) (j : Nat) (a : U64) : Prop where
  next : m.next (.head j) = .block a
  prev : ∃ k, j < k ∧ m.prev (.block a) = .head k

/-- Crossed lists are no lists. -/
theorem Crossed.not_rings {j : Nat} {a : U64} (h : Crossed m j a) (hj : j < maxOrder)
    (hR : Rings m L) : False := by
  obtain ⟨k, hk, hprev⟩ := h.prev
  have hback := (hR j hj).prev_next_head
  rw [h.next, hprev] at hback
  have := NodeRef.head.inj hback
  omega

/-- The lists from order `i` on: well formed in `m`, and without the address
`a`. -/
structure Upper (m : NodeLinks) (L : FreeLists) (i : Nat) : Prop where
  rings : ∀ j, i ≤ j → j < maxOrder → Ring m (.head j) ((L j).map .block)
  nodup : ∀ j, i ≤ j → j < maxOrder → (L j).Nodup
  disjoint : ∀ j k a, i ≤ j → j < k → k < maxOrder → a ∈ L j → a ∉ L k

theorem Upper.of_represents (h : Represents start size m L held) (i : Nat) : Upper m L i where
  rings j _ hj := h.rings j hj
  nodup j _ hj := h.list_nodup hj
  disjoint j k a _ hjk hk haj hak := by
    have := h.list_disjoint (by omega) hk haj hak
    omega

/-- A turn at order `i` leaves the lists above it alone, unless the address it
lists is one of theirs. -/
theorem Upper.turn {i : Nat} {b addr : U64} (hU : Upper m L i) (hi : i < maxOrder)
    (hb : b ∈ L i) (haddr : ∀ j, i < j → j < maxOrder → addr ∉ L j) :
    Upper (mergeTurn m i b addr) L (i + 1) where
  nodup j hj := hU.nodup j (by omega)
  disjoint j k a hj := hU.disjoint j k a (by omega)
  rings j hj hjm := by
    have hring := hU.rings i le_rfl hi
    refine (hU.rings j (by omega) hjm).frame fun z hz => ?_
    have hout : z ∉ NodeRef.head i :: (L i).map .block := by
      intro hz'
      simp only [List.mem_cons, List.mem_map] at hz hz'
      rcases hz' with rfl | ⟨c, hc, rfl⟩
      · rcases hz with hz | ⟨d, -, hd⟩
        · have := NodeRef.head.inj hz
          omega
        · exact NodeRef.noConfusion hd
      · rcases hz with hz | ⟨d, hd, hcd⟩
        · exact NodeRef.noConfusion hz
        · rw [NodeRef.block.inj hcd] at hd
          exact hU.disjoint i j c le_rfl (by omega) hjm hc hd
    have hza : z ≠ .block addr := by
      rintro rfl
      rw [List.mem_cons, block_mem_map] at hz
      rcases hz with hz | hz
      · exact NodeRef.noConfusion hz
      · exact haddr j (by omega) hjm hz
    obtain ⟨hnext, hprev⟩ := mergeTurn_other hring (hU.nodup i le_rfl hi) hb hout
    rw [if_neg hza] at hprev
    exact ⟨hnext hza, hprev⟩

/-- Later turns do not repair crossed lists. -/
theorem freeLoop_stays_crossed {j : Nat} {a : U64} {m' : NodeLinks} :
    ∀ {n i : Nat} {addr : U64} {m : NodeLinks}, i + n + 1 = maxOrder → j < i →
      Upper m L i → Crossed m j a → (∀ k, i ≤ k → k < maxOrder → a ∉ L k) →
      (∀ k, i ≤ k → k < maxOrder → addr ∉ L k) →
      freeLoop start n i addr m = .ok m' → Crossed m' j a
  | 0, _, _, m, _, _, _, hc, _, _, h => by
    rw [freeLoop] at h
    cases h
    exact hc
  | n + 1, i, addr, m, hn, hji, hU, hc, ha, haddr, h => by
    have hi : i < maxOrder := by omega
    have hring := hU.rings i le_rfl hi
    have hnd := hU.nodup i le_rfl hi
    rw [freeLoop_succ hring hnd] at h
    set b := buddyOf start addr i with hb
    by_cases hmem : b ∈ L i
    · simp only [hmem, if_true] at h
      -- the listed address is on none of the lists above `i`
      have hlow : ∀ k, i < k → k < maxOrder → (if addr < b then addr else b) ∉ L k := by
        intro k hik hk
        split
        · exact haddr k (by omega) hk
        · exact hU.disjoint i k b le_rfl hik hk hmem
      refine freeLoop_stays_crossed (by omega) (by omega) (hU.turn hi hmem hlow) ?_
        (fun k hk => ha k (by omega)) (fun k hk hkm => hlow k (by omega) hkm) h
      constructor
      · -- `next` of the lower head is not touched
        have hout : NodeRef.head j ∉ NodeRef.head i :: (L i).map .block := by
          simp only [List.mem_cons, List.mem_map, reduceCtorEq, and_false, exists_false, or_false]
          intro hhead
          have := NodeRef.head.inj hhead
          omega
        rw [(mergeTurn_other hring hnd hmem hout).1 NodeRef.noConfusion]
        exact hc.next
      · have hout : NodeRef.block a ∉ NodeRef.head i :: (L i).map .block := by
          simp only [List.mem_cons, reduceCtorEq, false_or, block_mem_map]
          exact ha i le_rfl hi
        rw [(mergeTurn_other hring hnd hmem hout).2]
        by_cases hal : NodeRef.block a = .block (if addr < b then addr else b)
        · exact ⟨i, hji, if_pos hal⟩
        · rw [if_neg hal]
          exact hc.prev
    · simp only [hmem, if_false] at h
      cases h
      exact hc

/-- Past the first order, with the address at the front of the list below:
keeping a lower half crosses the lists. -/
theorem freeLoop_crossed {m' : NodeLinks} :
    ∀ {n i : Nat} {addr : U64} {m : NodeLinks} {L : FreeLists}, i + 1 + n + 1 = maxOrder →
      Represents start size m L held → addr ∈ L i → m.next (.head i) = .block addr →
      KeepsLower L start n (i + 1) addr → freeLoop start n (i + 1) addr m = .ok m' →
      ∃ j a, j < maxOrder ∧ Crossed m' j a
  | 0, _, _, _, _, _, _, _, _, hk, _ => hk.elim
  | n + 1, i, addr, m, L, hn, h, haddr, hfirst, hk, hrun => by
    have hi : i + 1 < maxOrder := by omega
    have hring := h.rings (i + 1) hi
    have hnd := h.list_nodup hi
    rw [freeLoop_succ hring hnd] at hrun
    rw [KeepsLower] at hk
    set b := buddyOf start addr (i + 1) with hb
    obtain ⟨hmem, hk⟩ := hk
    simp only [hmem, if_true] at hrun
    have habove : ∀ k, i < k → k < maxOrder → addr ∉ L k := by
      intro k hik hkm hmem'
      have := h.list_disjoint (by omega) hkm haddr hmem'
      omega
    by_cases hlt : addr < b
    · -- the lower half stays: it is linked in a second time
      simp only [hlt, if_true] at hrun
      refine ⟨i, addr, by omega, ?_⟩
      have hU := (Upper.of_represents h (i + 1)).turn hi hmem fun k hk => habove k (by omega)
      refine freeLoop_stays_crossed (by omega) (by omega) hU ?_
        (fun k hk => habove k (by omega)) (fun k hk => habove k (by omega)) hrun
      constructor
      · have hout := h.nodes_disjoint (by omega : i < maxOrder) hi (by omega)
          (List.mem_cons_self (a := NodeRef.head i))
        rw [(mergeTurn_other hring hnd hmem hout).1 NodeRef.noConfusion]
        exact hfirst
      · have hout : NodeRef.block addr ∉ NodeRef.head (i + 1) :: (L (i + 1)).map .block := by
          simp only [List.mem_cons, reduceCtorEq, false_or, block_mem_map]
          exact habove (i + 1) (by omega) hi
        rw [(mergeTurn_other hring hnd hmem hout).2, if_pos rfl]
        exact ⟨i + 1, by omega, rfl⟩
    · -- the buddy is the lower half: it moves to the front of its own list
      simp only [hlt, if_false] at hrun
      have hput := (h.take hi hmem).put hi
      refine freeLoop_crossed (by omega) hput ?_ (mergeTurn_next_head m (i + 1) b b) ?_ hrun
      · simp
      · rw [keepsLower_congr fun j hj => ?_]
        · exact hk.resolve_left hlt
        · have hji : j ≠ i + 1 := by omega
          simp [hji]

/-- **`buddy_free`, the bad case.** A node is on two lists afterwards. -/
theorem buddyFree_crossed {a a' : BuddyAllocator} {order : Nat} {v : U64}
    (ho : order < maxOrder) (h : Represents a.startAddr size a.links L (⟨v, order⟩ :: held))
    (hd : doubleInserts a v order = true) (hrun : buddyFree a v order = .ok a') :
    ∃ j c, j < maxOrder ∧ Crossed a'.links j c := by
  obtain ⟨m', hloop, rfl⟩ : ∃ m', freeLoop a.startAddr (maxOrder - 1 - order) order v a.links =
      .ok m' ∧ a' = { a with links := m' } := by
    rw [buddyFree] at hrun
    cases hl : freeLoop a.startAddr (maxOrder - 1 - order) order v a.links with
    | error e =>
      rw [hl] at hrun
      cases hrun
    | ok m' =>
      rw [hl] at hrun
      cases hrun
      exact ⟨m', rfl, rfl⟩
  have hring := h.rings order ho
  have hnd := h.list_nodup ho
  rw [doubleInserts, findBuddy_eq hring hnd] at hd
  set b := buddyOf a.startAddr v order with hb
  by_cases hmem : b ∈ L order
  swap
  · simp [hmem] at hd
  simp only [hmem, decide_true] at hd
  obtain ⟨n, hn⟩ : ∃ n, maxOrder - 1 - order = n + 1 := by
    refine ⟨maxOrder - 2 - order, ?_⟩
    by_contra hne
    obtain rfl : maxOrder - 1 = order := by omega
    simp [keepsLower, maxOrder] at hd
  have hn' : maxOrder - 2 - order = n := by omega
  rw [hn, freeLoop_succ hring hnd, ← hb] at hloop
  simp only [hmem, if_true] at hloop
  have hrep := h.merge ho hmem
  rw [hn'] at hd
  have hk : KeepsLower ((L.drop order b).push order (if v < b then v else b)) a.startAddr n
      (order + 1) (if v < b then v else b) := by
    rw [keepsLower_congr fun j hj => ?_, ← keepsLower_iff h (by omega)]
    · exact hd
    · have hji : j ≠ order := by omega
      simp [hji]
  exact freeLoop_crossed (by omega) hrep (by simp) (mergeTurn_next_head _ _ _ _) hk hloop

end TinyMultiCore
