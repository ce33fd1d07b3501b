import Mathlib.Data.List.ProdSigma
import TinyMultiCore.Buddy.Blocks

/-!
# The pointer lists represent carved free lists

`Represents start size m L held`: in the memory `m` the nine rings have the
members `L`, and the blocks on the lists together with the `held` blocks (those
taken off the lists and not given up) are carved out of the region. Everything
the allocator does is a sequence of four moves on such a state:

* `Represents.take` — `list_del` of a member: the block becomes held;
* `Represents.put` — `list_add` of a held block;
* `Represents.cut` — a held block is seen as its two halves;
* `Represents.forget` — a held block is given up.

The first three keep the bytes of the whole collection; only `forget` loses any.
-/

namespace TinyMultiCore

open IntrusiveRing TransitionSystem

/-- The ring of every order has the listed blocks as members. -/
def Rings (m : NodeLinks) (L : FreeLists) : Prop :=
  ∀ i < maxOrder, Ring m (.head i) ((L i).map .block)

/-- The lists `L` in memory, carved out of the region with the `held` blocks. Links and blocks are
kept apart: an operation on the lists is shown to keep the rings, and to put the same bytes together
in another way. -/
structure Represents (start size : U64) (m : NodeLinks) (L : FreeLists)
    (held : List Block) : Prop where
  rings : Rings m L
  carved : Carved start size (L.blocks ++ held)

@[simp] theorem listAdd_eq (m : NodeLinks) (head node : NodeRef) :
    listAdd m head node = m.insertAfter head node := rfl

@[simp] theorem listDel_eq (m : NodeLinks) (node : NodeRef) :
    listDel m node = m.unlink node := rfl

theorem block_mem_map {a : U64} {l : List U64} :
    NodeRef.block a ∈ l.map NodeRef.block ↔ a ∈ l := by simp

theorem head_notMem_map (i : Nat) (l : List U64) : NodeRef.head i ∉ l.map NodeRef.block := by
  simp

theorem listEmpty_iff {m : NodeLinks} {L : FreeLists} (hR : Rings m L) {i : Nat}
    (hi : i < maxOrder) : listEmpty m (.head i) = true ↔ L i = [] := by
  rw [listEmpty, decide_eq_true_eq, (hR i hi).next_head_eq_iff (head_notMem_map i _),
    List.map_eq_nil_iff]

/-- The pointers determine the lists. -/
theorem Rings.list_unique {m : NodeLinks} {L L' : FreeLists} (h : Rings m L) (h' : Rings m L')
    {i : Nat} (hi : i < maxOrder) : L i = L' i := by
  have hmap := (h i hi).unique (h' i hi) (head_notMem_map i _) (head_notMem_map i _)
  exact List.map_injective_iff.mpr (fun _ _ => NodeRef.block.inj) hmap

theorem Rings.blocks_unique {m : NodeLinks} {L L' : FreeLists} (h : Rings m L) (h' : Rings m L') :
    L.blocks = L'.blocks := by
  refine List.flatMap_congr fun i hi => ?_
  rw [h.list_unique h' (List.mem_range.mp hi)]

/-- `list_del` of a member, on the ring it is a member of. -/
theorem ring_listDel {m : NodeLinks} {i : Nat} {l : List U64} {a : U64}
    (hring : Ring m (.head i) (l.map .block)) (hnd : l.Nodup) (ha : a ∈ l) :
    Ring (listDel m (.block a)) (.head i) ((l.erase a).map .block) := by
  obtain ⟨pre, post, rfl⟩ := List.append_of_mem ha
  have hpre : a ∉ pre := fun hm =>
    (List.nodup_append.mp hnd).2.2 a hm a List.mem_cons_self rfl
  rw [List.erase_append_right _ hpre, List.erase_cons_head, List.map_append, listDel_eq]
  rw [List.map_append, List.map_cons] at hring
  refine hring.remove ?_
  rw [← List.map_cons, ← List.map_append, List.nodup_cons]
  exact ⟨head_notMem_map i _, hnd.map fun _ _ => NodeRef.block.inj⟩

/-- The lists `L` in memory, with no address on them twice. -/
structure Listed (m : NodeLinks) (L : FreeLists) : Prop where
  rings : Rings m L
  nodup : (L.blocks.map Block.addr).Nodup

-- ---------------------------------------------------------------------------
-- The pointers
-- ---------------------------------------------------------------------------

namespace Listed

variable {m : NodeLinks} {L : FreeLists} {i j : Nat} {a : U64}

theorem list_nodup (h : Listed m L) (hi : i < maxOrder) : (L i).Nodup := by
  have hnd := h.nodup
  rw [FreeLists.blocks, List.map_flatMap, List.nodup_flatMap] at hnd
  simpa [Function.comp_def] using hnd.1 i (List.mem_range.mpr hi)

theorem list_disjoint (h : Listed m L) (hi : i < maxOrder) (hj : j < maxOrder) (hai : a ∈ L i)
    (haj : a ∈ L j) : i = j := by
  have hbi : (⟨a, i⟩ : Block) ∈ L.blocks := FreeLists.mem_blocks.mpr ⟨hi, hai⟩
  have hbj : (⟨a, j⟩ : Block) ∈ L.blocks := FreeLists.mem_blocks.mpr ⟨hj, haj⟩
  have := List.inj_on_of_nodup_map h.nodup hbi hbj rfl
  exact congrArg Block.order this

/-- The rings of two orders have no node in common. -/
theorem nodes_disjoint (h : Listed m L) (hi : i < maxOrder) (hj : j < maxOrder) (hij : i ≠ j)
    {z : NodeRef} (hz : z ∈ NodeRef.head i :: (L i).map .block) :
    z ∉ NodeRef.head j :: (L j).map .block := by
  intro hz'
  simp only [List.mem_cons, List.mem_map] at hz hz'
  rcases hz with rfl | ⟨b, hb, rfl⟩
  · rcases hz' with hz' | ⟨c, -, hc⟩
    · exact hij (NodeRef.head.inj hz')
    · exact NodeRef.noConfusion hc
  · rcases hz' with hz' | ⟨c, hc, hbc⟩
    · exact NodeRef.noConfusion hz'
    · rw [NodeRef.block.inj hbc] at hc
      exact hij (h.list_disjoint hi hj hb hc)

/-- `list_del` of a member. -/
theorem take (h : Listed m L) (hi : i < maxOrder) (ha : a ∈ L i) :
    Rings (listDel m (.block a)) (L.drop i a) := by
  intro j hj
  have hring := h.rings i hi
  by_cases hji : j = i
  · subst hji
    rw [FreeLists.drop_apply, if_pos rfl]
    exact ring_listDel hring (h.list_nodup hi) ha
  · -- the neighbours of `a` are on the list `i`, not on `j`
    rw [FreeLists.drop_apply, if_neg hji]
    have hnb := hring.neighbours_mem (block_mem_map.mpr ha)
    refine (h.rings j hj).frame fun z hz => ⟨?_, ?_⟩
    · rw [listDel_eq, m.unlink_next, if_neg]
      rintro rfl
      exact h.nodes_disjoint hj hi hji hz hnb.2
    · rw [listDel_eq, m.unlink_prev, if_neg]
      rintro rfl
      exact h.nodes_disjoint hj hi hji hz hnb.1

/-- `list_add` of a block that is on no list. -/
theorem put (h : Listed m L) (hi : i < maxOrder) (hnew : ∀ j < maxOrder, a ∉ L j) :
    Rings (listAdd m (.head i) (.block a)) (L.push i a) := by
  have hne : NodeRef.block a ≠ NodeRef.head i := NodeRef.noConfusion
  intro j hj
  have hring := h.rings i hi
  by_cases hji : j = i
  · subst hji
    rw [FreeLists.push_apply, if_pos rfl, List.map_cons, listAdd_eq]
    refine hring.insertFront ?_ ?_
    · rw [List.nodup_cons]
      exact ⟨head_notMem_map j _, (h.list_nodup hi).map fun _ _ => NodeRef.block.inj⟩
    · rw [List.mem_cons, block_mem_map, not_or]
      exact ⟨hne, hnew j hi⟩
  · rw [FreeLists.push_apply, if_neg hji]
    have hfirst := hring.next_head_mem
    refine (h.rings j hj).frame fun z hz => ?_
    have hza : z ≠ .block a := by
      rintro rfl
      rw [List.mem_cons, block_mem_map] at hz
      rcases hz with hz | hz
      · exact NodeRef.noConfusion hz
      · exact hnew j hj hz
    have hzi := h.nodes_disjoint hj hi hji hz
    constructor
    · rw [listAdd_eq, m.insertAfter_next, if_neg, if_neg hza]
      rintro rfl
      exact hzi List.mem_cons_self
    · rw [listAdd_eq, m.insertAfter_prev hne, if_neg, if_neg hza]
      rintro rfl
      exact hzi hfirst

end Listed

-- ---------------------------------------------------------------------------
-- The blocks
-- ---------------------------------------------------------------------------

namespace Represents

variable {start size : U64} {m : NodeLinks} {L : FreeLists} {held : List Block}

theorem perm (h : Represents start size m L held) {held' : List Block}
    (hp : held.Perm held') : Represents start size m L held' :=
  ⟨h.rings, h.carved.perm (hp.append_left _)⟩

theorem forget {b : Block} (h : Represents start size m L (b :: held)) :
    Represents start size m L held :=
  ⟨h.rings, (h.carved.perm List.perm_middle).of_cons⟩

/-- No block is twice on the lists. -/
theorem listed (h : Represents start size m L held) : Listed m L :=
  ⟨h.rings, h.carved.of_append.addr_nodup⟩

theorem list_nodup (h : Represents start size m L held) {i : Nat} (hi : i < maxOrder) :
    (L i).Nodup := h.listed.list_nodup hi

theorem list_disjoint (h : Represents start size m L held) {i j : Nat} (hi : i < maxOrder)
    (hj : j < maxOrder) {a : U64} (hai : a ∈ L i) (haj : a ∈ L j) : i = j :=
  h.listed.list_disjoint hi hj hai haj

theorem held_notMem {b : Block} (h : Represents start size m L (b :: held)) {i : Nat}
    (hi : i < maxOrder) : b.addr ∉ L i := by
  intro ha
  have hb : (⟨b.addr, i⟩ : Block) ∈ L.blocks ++ held :=
    List.mem_append_left _ (FreeLists.mem_blocks.mpr ⟨hi, ha⟩)
  exact (h.carved.perm List.perm_middle).head_addr_ne hb rfl

theorem nodes_disjoint (h : Represents start size m L held) {i j : Nat} (hi : i < maxOrder)
    (hj : j < maxOrder) (hij : i ≠ j) {z : NodeRef}
    (hz : z ∈ NodeRef.head i :: (L i).map .block) :
    z ∉ NodeRef.head j :: (L j).map .block := h.listed.nodes_disjoint hi hj hij hz

/-- **Taking a block off its list.** -/
theorem take (h : Represents start size m L held) {i : Nat} (hi : i < maxOrder) {a : U64}
    (ha : a ∈ L i) :
    Represents start size (listDel m (.block a)) (L.drop i a) (⟨a, i⟩ :: held) := by
  refine ⟨h.listed.take hi ha, h.carved.perm ?_⟩
  exact ((blocks_drop hi ha).append_right held).trans List.perm_middle.symm

/-- **Putting a held block on a list.** -/
theorem put {i : Nat} {a : U64} (h : Represents start size m L (⟨a, i⟩ :: held))
    (hi : i < maxOrder) :
    Represents start size (listAdd m (.head i) (.block a)) (L.push i a) held := by
  refine ⟨h.listed.put hi fun j hj => h.held_notMem hj, ?_⟩
  refine h.carved.perm (List.Perm.trans List.perm_middle ?_)
  exact ((blocks_push hi a).append_right held).symm

/-- **Cutting a held block in two.** -/
theorem cut {i : Nat} {a : U64} (h : Represents start size m L (⟨a, i + 1⟩ :: held))
    (hi : i < maxOrder) :
    Represents start size m L (⟨a + blockSize i, i⟩ :: ⟨a, i⟩ :: held) := by
  refine ⟨h.rings, ((h.carved.perm List.perm_middle).split hi).perm ?_⟩
  refine (List.Perm.cons _ List.perm_middle.symm).trans ?_
  exact List.perm_middle.symm

end Represents

end TinyMultiCore
