import TinyMultiCore.Buddy.Safety

/-!
# Conservation of the allocator's memory

Are the bytes on the free lists and in the allocated pages always the bytes that
`buddy_init` put on the lists? `kalloc` only moves them. `buddy_free` never does
give back the page it is called for: the last line of the function, which would
put it on a list, is commented out. So a run conserves the memory exactly when it
frees nothing (`alloc_run_conserved_iff`).
-/

namespace TinyMultiCore

open IntrusiveRing TransitionSystem

/-- There are `n` bytes on the free lists. -/
def FreeBytes (m : NodeLinks) (n : Nat) : Prop :=
  ∃ L : FreeLists, Rings m L ∧ bytesOf L.blocks = n

/-- The free bytes and the allocated pages make up `total`. -/
def Conserved (total : Nat) (s : AllocState) : Prop :=
  ∃ free, FreeBytes s.allocator.links free ∧ free + 2 ^ pageShift * s.live.length = total

/-- `n` calls of `kalloc` in a row succeed. -/
def Allocates (kernelEnd : U64) (s : AllocState) (n : Nat) : Prop :=
  ∃ t, Run (AllocStep kernelEnd) s (List.replicate n .kalloc) t ∧
    t.live.length = s.live.length + n

/-- The block that `kalloc` takes is at the address 0, which it then returns for
`NULL`. -/
def TakesNull (m : NodeLinks) : Prop :=
  ∃ i < maxOrder, (∀ j < i, listEmpty m (.head j) = true) ∧ m.next (.head i) = .null

/-- The call gives no memory away: it is a `kalloc`, of a page with an address
other than 0. -/
def KeepsMemory (s : AllocState) : AllocOp → Prop
  | .kalloc => ¬ TakesNull s.allocator.links
  | .kfree _ => False

variable {kernelEnd start size : U64} {s t : AllocState} {m : NodeLinks} {L L' : FreeLists}

/-! ## What is on the lists -/

theorem Represents.freeBytes {held : List Block} (h : Represents start size m L held) {n : Nat} :
    FreeBytes m n ↔ bytesOf L.blocks = n := by
  constructor
  · rintro ⟨L', hL', hn⟩
    rw [h.rings.blocks_unique hL']
    exact hn
  · exact fun hn => ⟨L, h.rings, hn⟩

theorem takesNull_iff (hR : Rings m L) : TakesNull m ↔ FirstFree L 0 0 := by
  have hfirst : ∀ i < maxOrder, m.next (.head i) = .null ↔ (L i).head? = some 0 := by
    intro i hi
    have hring := hR i hi
    cases hLi : L i with
    | nil =>
      rw [hLi] at hring
      rw [(hring.next_head_eq_iff (by simp)).mpr rfl]
      simp [NodeRef.null]
    | cons a rest =>
      rw [hLi, List.map_cons] at hring
      rw [hring.next_head_cons]
      simp [NodeRef.null]
  constructor
  · rintro ⟨i, hi, hlow, hnext⟩
    refine ⟨i, Nat.zero_le i, hi, fun k _ hk => ?_, (hfirst i hi).mp hnext⟩
    exact (listEmpty_iff hR (by omega)).mp (hlow k hk)
  · rintro ⟨i, -, hi, hlow, hnext⟩
    refine ⟨i, hi, fun k hk => ?_, (hfirst i hi).mpr hnext⟩
    exact (listEmpty_iff hR (by omega)).mpr (hlow k (Nat.zero_le k) hk)

/-! ## One call -/

/-- A safe state in which the memory is conserved, and as `buddy_init` left it
when no page is allocated. -/
structure Balanced (start size : U64) (a : BuddyAllocator) (total : Nat) (s : AllocState) :
    Prop where
  start_eq : s.allocator.startAddr = start
  lists : ∃ L, WellFormedLists start size s L ∧
    bytesOf L.blocks + 2 ^ pageShift * s.live.length = total
  untouched : s.live = [] → s.allocator = a

variable {a : BuddyAllocator} {total : Nat}

theorem Balanced.conserved (h : Balanced start size a total s) : Conserved total s := by
  obtain ⟨L, hL, htotal⟩ := h.lists
  exact ⟨_, ⟨L, hL.rings, rfl⟩, htotal⟩

/-- **`kalloc` moves memory.** -/
theorem Balanced.kalloc (h : Balanced start size a total s) (hc : KeepsMemory s .kalloc)
    (hstep : AllocStep kernelEnd s .kalloc t) : Balanced start size a total t := by
  obtain ⟨res, b, hk, rfl⟩ := hstep
  obtain ⟨L, hL, htotal⟩ := h.lists
  have hrep := wellFormedLists_iff.mp hL
  rcases kalloc_cases hrep with ⟨hnone, -⟩ | ⟨res', b', L', hfirst, hok, hst, hrep', hbytes⟩
  · -- no page is left
    rw [hnone] at hk
    cases hk
    exact h
  · rw [hok] at hk
    cases hk
    have hres : res ≠ 0 := by
      rintro rfl
      exact hc ((takesNull_iff hL.rings).mpr hfirst)
    rw [← live_map] at hrep'
    refine ⟨hst.trans h.start_eq, ⟨L', wellFormedLists_iff.mpr hrep', ?_⟩, fun hlive => ?_⟩
    · show bytesOf L'.blocks + 2 ^ pageShift * (if res = 0 then s.live else res :: s.live).length =
        total
      rw [if_neg hres, List.length_cons, Nat.mul_succ]
      omega
    · change (if res = 0 then s.live else res :: s.live) = [] at hlive
      rw [if_neg hres] at hlive
      exact absurd hlive (List.cons_ne_nil _ _)

/-- A `kalloc` that returns the page 0 for `NULL` loses it. -/
theorem Balanced.kalloc_null (h : Balanced start size a total s)
    (hnull : TakesNull s.allocator.links) (hstep : AllocStep kernelEnd s .kalloc t) :
    ¬ Conserved total t := by
  obtain ⟨res, b, hk, rfl⟩ := hstep
  obtain ⟨L, hL, htotal⟩ := h.lists
  have hfirst := (takesNull_iff hL.rings).mp hnull
  rcases kalloc_cases (wellFormedLists_iff.mp hL) with
    ⟨-, hempty⟩ | ⟨res', b', L', hfirst', hok, -, hrep', hbytes⟩
  · obtain ⟨j, -, hj, -, hhead⟩ := hfirst
    simp [hempty j hj] at hhead
  · rw [hok] at hk
    cases hk
    obtain rfl := hfirst.unique hfirst'
    rintro ⟨free, hfree, hsum⟩
    have hfree' := (hrep'.freeBytes).mp hfree
    have hpage : 0 < 2 ^ pageShift := Nat.two_pow_pos _
    simp only [if_true] at hsum
    omega

/-- **`kfree` loses a page**, or it ruins the lists. -/
theorem Balanced.kfree (h : Balanced start size a total s) {v : U64}
    (hstep : AllocStep kernelEnd s (.kfree v) t) : ¬ Conserved total t := by
  obtain ⟨hv, b, hk, rfl⟩ := hstep
  have hfree := kfree_eq_ok hk
  obtain ⟨L, hL, htotal⟩ := h.lists
  have hheld := represents_live hv (wellFormedLists_iff.mp hL)
  rw [← h.start_eq] at hheld
  cases hd : doubleInserts s.allocator v 0 with
  | false =>
    obtain ⟨b', L', hrun, -, hrep', hbytes⟩ := buddyFree_spec (by decide) hheld hd
    rw [hfree] at hrun
    cases hrun
    rintro ⟨free, hfree', hsum⟩
    have hfree' := (hrep'.freeBytes).mp hfree'
    have hlen : (s.live.erase v).length + 1 = s.live.length := by
      rw [List.length_erase_of_mem hv]
      have := List.length_pos_of_mem hv
      omega
    have hpage : 0 < 2 ^ pageShift := Nat.two_pow_pos _
    simp only at hsum
    rw [← hlen, Nat.mul_succ] at htotal
    omega
  | true =>
    rintro ⟨free, ⟨L', hL', -⟩, -⟩
    obtain ⟨j, c, hj, hcross⟩ := buddyFree_crossed (by decide) hheld hd hfree
    exact hcross.not_rings hj hL'

/-! ## Runs -/

/-- A region that does not contain the address 0. -/
theorem Represents.not_takesNull {held : List Block} (h : Represents start size m L held)
    (h0 : size.toNat ≤ (0 - start).toNat) : ¬ TakesNull m := by
  rw [takesNull_iff h.rings]
  rintro ⟨i, -, hi, -, hhead⟩
  have hmem : (⟨0, i⟩ : Block) ∈ L.blocks ++ held :=
    List.mem_append_left _ (FreeLists.mem_blocks.mpr ⟨hi, List.mem_of_mem_head? hhead⟩)
  have hin := h.carved.inside _ hmem
  have hpos := Block.bytes_pos ⟨0, i⟩
  simp only [Block.hi, Block.lo] at hin
  omega

theorem Balanced.keepsMemory (h : Balanced start size a total s)
    (h0 : size.toNat ≤ (0 - start).toNat) : KeepsMemory s .kalloc := by
  obtain ⟨L, hL, -⟩ := h.lists
  exact (wellFormedLists_iff.mp hL).not_takesNull h0

theorem balanced_init (hL : Represents start size a.links L []) (hstart : a.startAddr = start) :
    Balanced start size a (bytesOf L.blocks) ⟨a, []⟩ :=
  ⟨hstart, ⟨L, wellFormedLists_iff.mpr hL, by simp⟩, fun _ => rfl⟩

/-- **Conservation of the memory.** `buddy_init` on any 2MB-aligned region puts
some `total` on the lists. Exactly the runs after it without a `kfree`, and
without a `kalloc` that takes the page at the address 0, conserve it in every
state they reach, and are back to where they started when nothing is allocated. -/
theorem alloc_run_conserved_iff (kernelEnd : U64) (m : NodeLinks) {start : U64} (size : U64)
    (hs : start % pageSize = 0) :
    ∃ a total, buddyInit m start size = .ok a ∧ FreeBytes a.links total ∧
      ∀ ops s, Run (AllocStep kernelEnd) ⟨a, []⟩ ops s →
        (Always (AllocStep kernelEnd) ⟨a, []⟩ ops (fun t => Conserved total t ∧
            (t.live = [] → ∀ n, Allocates kernelEnd t n ↔ Allocates kernelEnd ⟨a, []⟩ n)) ↔
          EveryStep (AllocStep kernelEnd) ⟨a, []⟩ ops KeepsMemory) := by
  obtain ⟨a, L, hinit, hstart, hrep⟩ : ∃ a L, buddyInit m start size = .ok a ∧
    a.startAddr = start ∧ Represents start size a.links L [] := buddyInit_spec m hs
  refine ⟨a, bytesOf L.blocks, hinit, ⟨L, hrep.rings, rfl⟩, fun ops s hrun => ?_⟩
  have h0 := balanced_init hrep hstart
  refine hrun.always_iff allocStep_unique (fun t ht => ⟨ht.conserved, fun hlive n => ?_⟩)
    (fun t op u ht hC hstep => ?_) (fun t op u ht hstep hu => ?_) h0
  · have ht' : t = ⟨a, []⟩ := by
      rw [← ht.untouched hlive, ← hlive]
    rw [ht']
  · cases op with
    | kalloc => exact ht.kalloc hC hstep
    | kfree v => exact hC.elim
  · cases op with
    | kalloc => exact fun hnull => ht.kalloc_null hnull hstep hu.1
    | kfree v => exact ht.kfree hstep hu.1

/-- Behind the kernel there is no page 0, and `kalloc` calls conserve the memory. -/
theorem kalloc_conserves : ∃ a total s,
    buddyInit nullLinks 0xffff000000200000 0x2fe00000 = .ok a ∧ FreeBytes a.links total ∧
    Run (AllocStep 0xffff000000180000) ⟨a, []⟩ [.kalloc] s ∧
    s.live = [0xffff000000200000] ∧ Conserved total s := by
  obtain ⟨a, s, hinit, hrun, hlive⟩ := liveAfter_run (show
    liveAfter 0xffff000000180000 nullLinks 0xffff000000200000 0x2fe00000 [.kalloc] =
      some [0xffff000000200000] by decide +kernel)
  have hs : (0xffff000000200000 : U64) % pageSize = 0 := by decide
  obtain ⟨a', total, hinit', htotal, hruns⟩ :=
    alloc_run_conserved_iff 0xffff000000180000 nullLinks 0x2fe00000 hs
  obtain ⟨a'', L, hinit'', hstart, hrep⟩ : ∃ a L,
    buddyInit nullLinks 0xffff000000200000 0x2fe00000 = .ok a ∧ a.startAddr = 0xffff000000200000 ∧
      Represents 0xffff000000200000 0x2fe00000 a.links L [] := buddyInit_spec _ hs
  rw [hinit] at hinit' hinit''
  cases hinit'
  cases hinit''
  refine ⟨a, total, s, hinit, htotal, hrun, hlive, ?_⟩
  have hcalls : EveryStep (AllocStep 0xffff000000180000) ⟨a, []⟩ [.kalloc] KeepsMemory :=
    .cons ((balanced_init hrep hstart).keepsMemory (by decide)) fun _ _ => .nil
  exact ((hruns _ s hrun).mpr hcalls _ [] s rfl hrun).1

/-- A page allocated there and freed again is on no list. -/
theorem kfree_loses_page : ∃ a total s,
    buddyInit nullLinks 0xffff000000200000 0x2fe00000 = .ok a ∧ FreeBytes a.links total ∧
    Run (AllocStep 0xffff000000180000) ⟨a, []⟩ [.kalloc, .kfree 0xffff000000200000] s ∧
    s.live = [] ∧ ¬ Conserved total s := by
  obtain ⟨a, s, hinit, hrun, hlive⟩ := liveAfter_run (show
    liveAfter 0xffff000000180000 nullLinks 0xffff000000200000 0x2fe00000
      [.kalloc, .kfree 0xffff000000200000] = some [] by decide +kernel)
  obtain ⟨a', L, hinit', hstart, hrep⟩ : ∃ a L,
    buddyInit nullLinks 0xffff000000200000 0x2fe00000 = .ok a ∧ a.startAddr = 0xffff000000200000 ∧
      Represents 0xffff000000200000 0x2fe00000 a.links L [] := buddyInit_spec _ (by decide)
  rw [hinit] at hinit'
  cases hinit'
  have h0 := balanced_init hrep hstart
  obtain ⟨t, ht, hfree⟩ : ∃ t, Run (AllocStep 0xffff000000180000) ⟨a, []⟩ [.kalloc] t ∧
    AllocStep 0xffff000000180000 t (.kfree 0xffff000000200000) s := Run.of_snoc hrun
  obtain ⟨u, hu, halloc⟩ : ∃ u, Run (AllocStep 0xffff000000180000) ⟨a, []⟩ [] u ∧
    AllocStep 0xffff000000180000 u .kalloc t := Run.of_snoc ht
  obtain rfl := hu.of_nil
  have hbal := h0.kalloc (h0.keepsMemory (by decide)) halloc
  exact ⟨a, _, s, hinit, ⟨L, hrep.rings, rfl⟩, hrun, hlive, hbal.kfree hfree⟩

end TinyMultiCore
