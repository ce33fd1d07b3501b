import TinyMultiCore.Buddy.Coalesce

/-!
# Coalescing as it is meant

What freeing a block is for: the block and its free buddy become one block of the next order,
that block and its buddy one more, and the block that has no free buddy is put on the list of
the order that has been reached. `coalesced` says that about the free lists, and
`buddy_free_never_exact` that `buddy_free` leaves other lists behind, whatever it is called
with: where no buddy is free it lists nothing, and where one is it lists the merged block as
one of the order that the merge started from.
-/

namespace TinyMultiCore

open IntrusiveRing TransitionSystem

variable {start size : U64} {L : FreeLists} {held : List Block} {i : Nat}

/-- The lists after the order-`i` block at `addr` has been freed, with `n` orders above it:
the free buddies go, and the block that is left is put on the list of its order. -/
def coalesced (start : U64) : Nat → Nat → U64 → FreeLists → FreeLists
  | 0, i, addr, L => L.push i addr
  | n + 1, i, addr, L =>
    let buddy := buddyOf start addr i
    if buddy ∈ L i then
      coalesced start n (i + 1) (if addr < buddy then addr else buddy) (L.drop i buddy)
    else L.push i addr

/-- `buddy_free` leaves the coalesced lists behind, up to their order. -/
def ExactlyCoalesced (a : BuddyAllocator) (L : FreeLists) (ptr : U64) (order : Nat) : Prop :=
  ∃ a' L', buddyFree a ptr order = .ok a' ∧ Rings a'.links L' ∧
    ∀ i < maxOrder, ∀ b, b ∈ L' i ↔
      b ∈ coalesced a.startAddr (maxOrder - 1 - order) order ptr L i

/-- Coalescing leaves the lists below alone. -/
theorem coalesced_below {j : Nat} : ∀ {n i : Nat} {addr : U64} {L : FreeLists}, j < i →
    coalesced start n i addr L j = L j
  | 0, i, addr, L, hj => by
    rw [coalesced, FreeLists.push_apply, if_neg (by omega)]
  | n + 1, i, addr, L, hj => by
    rw [coalesced]
    split
    · rw [coalesced_below (by omega), FreeLists.drop_apply, if_neg (by omega)]
    · rw [FreeLists.push_apply, if_neg (by omega)]

/-- Without a free buddy, the block is listed as it is. -/
theorem coalesced_single {n order : Nat} {v : U64} (h : n = 0 ∨ buddyOf start v order ∉ L order) :
    coalesced start n order v L = L.push order v := by
  cases n with
  | zero => rfl
  | succ n => exact if_neg (h.resolve_left (Nat.succ_ne_zero n))

/-- With one, the list of its order loses the buddy and gains nothing. -/
theorem coalesced_merged {n order : Nat} {v : U64} (h : buddyOf start v order ∈ L order) :
    coalesced start (n + 1) order v L order = (L order).erase (buddyOf start v order) := by
  rw [coalesced, if_pos h, coalesced_below (Nat.lt_succ_self _), FreeLists.drop_apply, if_pos rfl]

/-- **`buddy_free` never coalesces exactly**, on well-formed lists, with any order and any
block of that order that is allocated. -/
theorem buddy_free_never_exact {a : BuddyAllocator} {order : Nat} {v : U64} (ho : order < maxOrder)
    (h : Represents a.startAddr size a.links L (⟨v, order⟩ :: held)) :
    ¬ExactlyCoalesced a L v order := by
  rintro ⟨a', L', hrun, hrings, hlists⟩
  by_cases hd : doubleInserts a v order = true
  · -- the pointers are no lists any more
    obtain ⟨j, c, hj, hcrossed⟩ := buddyFree_crossed ho h hd hrun
    exact hcrossed.not_rings hj hrings
  obtain ⟨a'', L'', hrun'', -, hrep, hsame⟩ := buddyFree_lists ho h (Bool.eq_false_iff.mpr hd)
  rw [hrun] at hrun''
  obtain rfl := Except.ok.inj hrun''
  -- what the code and what the merging leaves on the list of the order
  have hcode : ∀ b, b ∈ L.freed a.startAddr v order order ↔
      b ∈ coalesced a.startAddr (maxOrder - 1 - order) order v L order := by
    intro b
    rw [← hlists order ho b, hrings.list_unique hrep.rings ho]
    exact (hsame order).mem_iff.symm
  have hfree : v ∉ L order := h.held_notMem ho
  by_cases hfound : order + 1 < maxOrder ∧ buddyOf a.startAddr v order ∈ L order
  · -- the lower half is listed as a block of the order of the two
    obtain ⟨n, hn⟩ : ∃ n, maxOrder - 1 - order = n + 1 := ⟨maxOrder - 2 - order, by omega⟩
    rw [FreeLists.freed, if_pos hfound, hn, coalesced_merged hfound.2, FreeLists.push_apply,
      if_pos rfl] at hcode
    have hlisted := (hcode _).mp List.mem_cons_self
    split at hlisted
    · exact hfree (List.mem_of_mem_erase hlisted)
    · exact (h.list_nodup ho).not_mem_erase hlisted
  · -- the freed block is on no list
    rw [FreeLists.freed, if_neg hfound, coalesced_single, FreeLists.push_apply, if_pos rfl] at hcode
    · exact hfree ((hcode v).mpr List.mem_cons_self)
    · by_cases htop : order + 1 < maxOrder
      · exact Or.inr fun hb => hfound ⟨htop, hb⟩
      · exact Or.inl (by omega)

-- ---------------------------------------------------------------------------
-- Two pages
-- ---------------------------------------------------------------------------

/-- The upper page of a block of 4MB is free. -/
def upperPage : BuddyAllocator where
  links := listAdd (initHeads nullLinks maxOrder) (.head 0) (.block 0xffff000000600000)
  startAddr := 0xffff000000400000

def upperPageLists : FreeLists := FreeLists.push (fun _ => []) 0 0xffff000000600000

/-- The lower one is allocated. -/
theorem upperPage_represents : Represents upperPage.startAddr 0x400000 upperPage.links
    upperPageLists [⟨0xffff000000400000, 0⟩] := by
  have hnone : FreeLists.blocks (fun _ => []) = [] := by decide
  refine Represents.put (i := 0) ⟨(@represents_empty 0 0 nullLinks).rings, ?_⟩ (by decide)
  rw [hnone]
  refine (Carved.nil.cons ?_ (by simp)).cons ?_ fun c hc => Or.inr ?_
  · decide +kernel
  · decide +kernel
  · rw [List.mem_singleton.mp hc]
    decide +kernel

/-- Freeing the lower page does not make a block of 4MB. -/
theorem lower_page_not_merged : ¬ExactlyCoalesced upperPage upperPageLists 0xffff000000400000 0 :=
  buddy_free_never_exact (by decide) upperPage_represents

/-- The lower page is put on the list of the pages; the list of the blocks of 4MB, where the
two belong, stays empty. -/
theorem lower_page_listed_as_page : ∃ a' L',
    buddyFree upperPage 0xffff000000400000 0 = .ok a' ∧ Rings a'.links L' ∧
    L' 0 = [0xffff000000400000] ∧ L' 1 = [] ∧
    coalesced upperPage.startAddr 8 0 0xffff000000400000 upperPageLists 1 =
      [0xffff000000400000] ∧
    ¬ExactlyCoalesced upperPage upperPageLists 0xffff000000400000 0 := by
  obtain ⟨a', L', hrun, -, hrep, hsame⟩ :=
    buddyFree_lists (by decide) upperPage_represents (by decide +kernel)
  have hpages : L' 0 = [0xffff000000400000] := List.perm_singleton.mp (hsame 0)
  have hblocks : L' 1 = [] := List.perm_nil.mp (hsame 1)
  have hmerged : coalesced upperPage.startAddr 8 0 0xffff000000400000 upperPageLists 1 =
      [0xffff000000400000] := by decide
  refine ⟨a', L', hrun, hrep.rings, hpages, hblocks, hmerged, ?_⟩
  rintro ⟨a'', L'', hrun', hrings, hlists⟩
  rw [hrun] at hrun'
  obtain rfl := Except.ok.inj hrun'
  have hlisted := (hlists 1 (by decide) 0xffff000000400000).mpr (by
    show _ ∈ coalesced upperPage.startAddr 8 0 0xffff000000400000 upperPageLists 1
    rw [hmerged]
    exact List.mem_cons_self)
  rw [hrings.list_unique hrep.rings (by decide), hblocks] at hlisted
  exact absurd hlisted List.not_mem_nil

end TinyMultiCore
