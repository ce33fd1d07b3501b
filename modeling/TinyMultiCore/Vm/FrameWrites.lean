import TinyMultiCore.Vm.MapPage

/-!
# Where the page-table code writes

The frames are one part of the memory; the rest has the kernel in it with its own page tables.
`FrameWrites K h h'`: between the two heaps nothing is written outside the frames, and what is in
use stays frames. Page-table code reads a table before it writes to it, and a read outside the
frames in use is a fault; so all of it keeps to the frames, whatever the tables have in them.

* `FrameWrites.findTable` and `FrameWrites.mapPage` — tables found and created, pages mapped;
* `FrameWrites.freeVm` — a map freed.
-/

namespace TinyMultiCore

open ByteMemory

variable {K : KernelImage} {src : FrameSource K} {h h' h₁ h₂ : Heap} {m m' m₁ m₂ : Memory}
  {f t x : U64}

-- ---------------------------------------------------------------------------
-- Outside the frames
-- ---------------------------------------------------------------------------

/-- No frame has the byte in it. Frames are the 2MB pages from the end of the kernel's image
to the end of the memory, in use or not: the image itself with the boot tables, the
peripherals and what lies below the kernel are outside. -/
def OutsideFrames (K : KernelImage) (x : U64) : Prop := ∀ f, IsFrame K f → 2 ^ 21 ≤ (x - f).toNat

/-- The image of the kernel is outside the frames, and so are the addresses below it. A
frame begins behind the image and ends before the address space does, so that it does not
come round to the image from above. -/
theorem outsideFrames_of_lt (hx : x.toNat < K.kernelEnd.toNat) : OutsideFrames K x := by
  intro f hf
  obtain ⟨-, hend, hf⟩ := hf
  rw [memoryEnd_toNat] at hf
  rw [BitVec.toNat_sub]
  omega

/-- The memory outside the frames is the same. This is what survives any page-table code, and
what the translation of kernel addresses needs, whose tables are in the image. -/
def SameOutside (K : KernelImage) (m m' : Memory) : Prop := ∀ x, OutsideFrames K x → m' x = m x

namespace SameOutside

theorem refl (m : Memory) : SameOutside K m m := fun _ _ => rfl

theorem trans (h : SameOutside K m m₁) (h' : SameOutside K m₁ m₂) : SameOutside K m m₂ :=
  fun x hx => (h' x hx).trans (h x hx)

/-- It is enough to keep to some frames. The lemmas about a single process say that it writes
to frames it owns; outside all frames is outside those. -/
theorem of_frames {P : U64 → Prop} (hP : ∀ f, P f → IsFrame K f)
    (h : ∀ x, (∀ f, P f → 2 ^ 21 ≤ (x - f).toNat) → m' x = m x) : SameOutside K m m' :=
  fun x hx => h x fun f hf => hx f (hP f hf)

/-- `memset` of a frame that has just been taken. -/
theorem zeroPage (hf : IsFrame K f) : SameOutside K m (zeroPage m f) :=
  fun _ hx => if_neg (Nat.not_lt.mpr (hx f hf))

/-- One of the 512 entries of a table that is a frame: the eight bytes end inside it. -/
theorem entry (ht : IsFrame K t) (i : TableIndex) (e : U64) :
    SameOutside K m (write64 m (entryAddr t i) e) := by
  intro x hx
  have hi := i.isLt
  have hout := hx t ht
  exact if_neg (Nat.not_lt.mpr (outside_entry i (Or.inr (by omega))))

end SameOutside

/-- In the model a table that is read is a frame in use, or the read is a fault. Page-table
code reads an entry before it writes to it, and so this one guard is enough for all of its
writes. -/
theorem readEntry_inUse {i : TableIndex} {e : U64} (hok : readEntry h t i = .ok e) : t ∈ h.inUse := by
  unfold readEntry at hok
  split at hok
  · assumption
  · cases hok

/-- Writes to frames only, with frames in use only. Both parts are implications, from frames
in use before to frames in use after and to bytes kept: so two calls one after the other
compose (`trans`), although the second one may write to what the first one has taken. -/
structure FrameWrites (K : KernelImage) (h h' : Heap) : Prop where
  frames : (∀ f ∈ h.inUse, IsFrame K f) → ∀ f ∈ h'.inUse, IsFrame K f
  bytes : (∀ f ∈ h.inUse, IsFrame K f) → SameOutside K h.mem h'.mem

namespace FrameWrites

theorem refl (h : Heap) : FrameWrites K h h := ⟨id, fun _ => .refl _⟩

theorem trans (h₀₁ : FrameWrites K h h₁) (h₁₂ : FrameWrites K h₁ h₂) : FrameWrites K h h₂ where
  frames huse := h₁₂.frames (h₀₁.frames huse)
  bytes huse := (h₀₁.bytes huse).trans (h₁₂.bytes (h₀₁.frames huse))

/-- A frame is taken and cleared. -/
theorem withFrame (hf : IsFrame K f) : FrameWrites K h (h.withFrame f) where
  frames huse g hg := (List.mem_cons.mp hg).elim (fun he => he ▸ hf) (huse g)
  bytes _ := .zeroPage hf

/-- `kalloc`, with an answer or without. -/
theorem kalloc (h : Heap) : FrameWrites K h (h.kalloc src).2 := by
  rcases h.kalloc_cases src with ⟨-, hk⟩ | ⟨f, -, hk, hf, -⟩
  · rw [hk]
    exact ⟨id, fun _ => .refl _⟩
  · rw [hk]
    exact .withFrame hf

/-- `kfree`: a frame less is in use. The links that the allocator keeps in its free pages are no
part of this heap. -/
theorem kfree {v : U64} (hok : h.kfree K v = .ok h') : FrameWrites K h h' := by
  obtain ⟨-, rfl⟩ := Heap.kfree_spec hok
  exact ⟨fun huse f hf => huse f (List.mem_of_mem_erase hf), fun _ => .refl _⟩

/-- An entry of a table that has been read before. -/
theorem writeEntry (ht : t ∈ h.inUse) (i : TableIndex) (e : U64) :
    FrameWrites K h (writeEntry h t i e) where
  frames huse := huse
  bytes huse := .entry (huse t ht) i e

-- ---------------------------------------------------------------------------
-- Tables
-- ---------------------------------------------------------------------------

/-- **`find_pgd_entry` and `find_pud_entry`.** Where the entry is not valid and a table is
asked for, the new table is a frame from the allocator, and the entry that links it in is
one of a table that has been read. Nothing is assumed about the tables: what an entry leads
to is not looked at here. -/
theorem findTable {i : TableIndex} {alloc : Bool} {attr c : U64}
    (hok : TinyMultiCore.findTable src h t i alloc attr = .ok (c, h')) : FrameWrites K h h' := by
  unfold TinyMultiCore.findTable at hok
  obtain ⟨entry, hread, hok⟩ := bind_eq_ok.mp hok
  have ht := readEntry_inUse hread
  split at hok
  · obtain ⟨-, rfl⟩ := Prod.mk.inj (Except.ok.inj hok)
    exact .refl h
  split at hok
  · dsimp only at hok
    rcases h.kalloc_cases src with ⟨-, hk⟩ | ⟨f, -, hk, hf, -⟩
    · rw [hk] at hok
      cases hok
      exact ⟨id, fun _ => .refl _⟩
    · rw [hk] at hok
      dsimp only at hok
      rw [if_pos hf.ne_zero, Forest.memsetPage_withFrame] at hok
      obtain ⟨-, rfl⟩ := Prod.mk.inj (Except.ok.inj hok)
      exact (FrameWrites.withFrame hf).trans (.writeEntry (List.mem_cons_of_mem _ ht) _ _)
  · cases hok
    exact .refl h

/-- Both levels. The table of the second is read before it is written to, too. -/
theorem findPudEntry {map v attr c : U64} {alloc : Bool}
    (hok : TinyMultiCore.findPudEntry src h map v alloc attr = .ok (c, h')) : FrameWrites K h h' := by
  unfold TinyMultiCore.findPudEntry TinyMultiCore.findPgdEntry at hok
  obtain ⟨⟨ptr, h₁⟩, hfind, hok⟩ := bind_eq_ok.mp hok
  have hpgd := findTable hfind
  dsimp only at hok
  split at hok
  · cases hok
    exact hpgd
  · exact hpgd.trans (findTable hok)

/-- **`map_page`**: on top of the tables, one entry of the last one. Its physical address and
its attributes go into the entry and are not written through. -/
theorem mapPage {map v pa attr : U64} {status : Bool}
    (hok : TinyMultiCore.mapPage src h map v pa attr = .ok (status, h')) : FrameWrites K h h' := by
  unfold TinyMultiCore.mapPage at hok
  obtain ⟨_, -, hok⟩ := bind_eq_ok.mp hok
  obtain ⟨_, -, hok⟩ := bind_eq_ok.mp hok
  obtain ⟨_, -, hok⟩ := bind_eq_ok.mp hok
  obtain ⟨⟨ptr, h₁⟩, hfind, hok⟩ := bind_eq_ok.mp hok
  have hpud := findPudEntry hfind
  dsimp only at hok
  split at hok
  · cases hok
    exact hpud
  · obtain ⟨entry, hread, hok⟩ := bind_eq_ok.mp hok
    obtain ⟨_, -, hok⟩ := bind_eq_ok.mp hok
    cases hok
    exact hpud.trans (.writeEntry (readEntry_inUse hread) _ _)

/-- `free_page`, which looks for a table and takes none. -/
theorem freePage {map v : U64} (hok : TinyMultiCore.freePage src h map v = .ok h') :
    FrameWrites K h h' := by
  unfold TinyMultiCore.freePage at hok
  obtain ⟨⟨ptr, h₁⟩, hfind, hok⟩ := bind_eq_ok.mp hok
  have hpud := findPudEntry hfind
  dsimp only at hok
  split at hok
  · obtain ⟨entry, hread, hok⟩ := bind_eq_ok.mp hok
    split at hok
    · obtain ⟨h₂, hfree, hok⟩ := bind_eq_ok.mp hok
      cases hok
      have hkfree := FrameWrites.kfree hfree
      -- the entry is cleared after the page has been freed
      refine hpud.trans ⟨hkfree.frames, fun huse => (hkfree.bytes huse).trans ?_⟩
      exact .entry (huse ptr (readEntry_inUse hread)) _ _
    · cases hok
      exact hpud
  · cases hok
    exact hpud

/-- The loop of `free_table`, by induction on the entries that it has gone through, for any
way to free what is below. -/
theorem freeEntries {below : Heap → U64 → Except Halt Heap}
    (hbelow : ∀ {h h' : Heap} {c : U64}, below h c = .ok h' → FrameWrites K h h') (n : Nat)
    (hok : TinyMultiCore.freeEntries K below t n h = .ok h') : FrameWrites K h h' := by
  induction n generalizing h' with
  | zero =>
    cases hok
    exact .refl h
  | succ n ih =>
    unfold TinyMultiCore.freeEntries at hok
    obtain ⟨h₁, hfirst, hok⟩ := bind_eq_ok.mp hok
    obtain ⟨entry, -, hok⟩ := bind_eq_ok.mp hok
    split at hok
    · obtain ⟨h₂, hchild, hok⟩ := bind_eq_ok.mp hok
      exact ((ih hfirst).trans (hbelow hchild)).trans (.kfree hok)
    · cases hok
      exact ih hfirst

/-- `free_table`, by induction on the levels that are left below the table. -/
theorem freeTable {left : Nat} (hok : TinyMultiCore.freeTable K left h t = .ok h') :
    FrameWrites K h h' := by
  induction left generalizing h h' t with
  | zero =>
    refine freeEntries (fun {h h' c} he => ?_) 512 hok
    cases he
    exact .refl h
  | succ left ih => exact freeEntries ih 512 hok

/-- **`free_vm`.** The map need not be one that `map_page` has built: on any tables, whatever
cycles they have in them, what is freed and cleared are frames, or there is a fault. -/
theorem freeVm {map : U64} (hok : TinyMultiCore.freeVm src h map = .ok h') : FrameWrites K h h' := by
  unfold TinyMultiCore.freeVm at hok
  obtain ⟨h₁, hpage, hok⟩ := bind_eq_ok.mp hok
  obtain ⟨h₂, htables, hok⟩ := bind_eq_ok.mp hok
  exact ((freePage hpage).trans (freeTable htables)).trans (.kfree hok)

end FrameWrites

end TinyMultiCore
