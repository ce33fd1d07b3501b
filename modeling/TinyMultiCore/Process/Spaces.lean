import TinyMultiCore.Lib.Ledger
import TinyMultiCore.Process.Fork
import TinyMultiCore.Process.SwitchVm

/-!
# The frames of the processes

Every process there is has a `Space`: a kernel stack and a page map with a page at the
user base, all of its own. `Spaces` says of a kernel that the frames in use are those of
the processes, one process each, and the two frames of the file system.

* `Spaces.edit` — the space of one process changes, and the others are left alone;
* `Spaces.writes` — a process writes to its page and its stack;
* `Spaces.reap` — `wait` frees the space of the dead process, and nothing else.
-/

namespace TinyMultiCore

open ByteMemory RadixTree

variable {K : KernelImage} {src : FrameSource K} {h h' : Heap} {k k' : Kernel}
  {r : ProcRef} {p p' : Process} {f map : U64} {m m' : Memory}

-- ---------------------------------------------------------------------------
-- One process
-- ---------------------------------------------------------------------------

/-- The bytes of the frame are the same. -/
def SameBytes (f : U64) (m m' : Memory) : Prop := ∀ x, (x - f).toNat < 2 ^ 21 → m' x = m x

/-- The frames of a process: its stack, and what its page map owns. -/
def Process.Owns (p : Process) (m : Memory) (f : U64) : Prop :=
  f = p.stack ∨ OwnedBy m p.pageMap f

/-- What `alloc_new_process` and the loaders give to a process: a stack with the trap frame at its
top, and a page map of its own that maps something at the user base. The stack is not in the map, so
the program cannot reach it, and `wait` frees both without freeing a frame twice. -/
structure Space (K : KernelImage) (h : Heap) (p : Process) : Prop where
  map : PrivateMap K h p.pageMap
  used : p.stack ∈ h.inUse
  frame : IsFrame K p.stack
  apart : ¬ OwnedBy h.mem p.pageMap p.stack
  tf : p.tf = topFrame p.stack
  mapped : walk h.mem p.pageMap userBase ≠ none

/-- The same frames, as far as the record goes. -/
structure SameFrames (p p' : Process) : Prop where
  pageMap : p'.pageMap = p.pageMap
  stack : p'.stack = p.stack
  tf : p'.tf = p.tf

theorem SameFrames.refl (p : Process) : SameFrames p p := ⟨rfl, rfl, rfl⟩

theorem SameSpace.sameFrames (h : SameSpace p p') : SameFrames p p' := ⟨h.pageMap, h.stack, h.tf⟩

/-- The trap frame is in the stack. -/
theorem topFrame_outside {stack x : U64} (hx : 2 ^ 21 ≤ (x - stack).toNat) :
    288 ≤ (x - topFrame stack).toNat := by
  have hsub : x - topFrame stack = x - stack - 0x1ffee0#64 := by
    unfold topFrame pageSize trapFrameSize
    bv_omega
  rw [hsub, BitVec.toNat_sub_of_le (by rw [BitVec.le_def]; exact le_trans (by decide) hx)]
  exact Nat.le_sub_of_add_le (le_trans (by decide) hx)

namespace Space

theorem owned (hS : Space K h p) (hf : p.Owns h.mem f) : f ∈ h.inUse ∧ IsFrame K f := by
  rcases hf with rfl | hf
  · exact ⟨hS.used, hS.frame⟩
  · exact hS.map.frame hf

/-- The user page. -/
theorem page (hS : Space K h p) : ∃ b, walk h.mem p.pageMap userBase = some b ∧
    OwnedBy h.mem p.pageMap (pageOf b) := by
  obtain ⟨b, hb⟩ := Option.ne_none_iff_exists'.mp hS.mapped
  exact ⟨b, hb, Or.inr ⟨_, _, b, (walk_userBase ..).symm.trans hb, rfl⟩⟩

variable (h') in
/-- Nothing about a space changes when its frames stay in use and its tables as they are. -/
theorem transfer (hS : Space K h p) (hp : SameFrames p p')
    (huse : ∀ f, p.Owns h.mem f → f ∈ h'.inUse)
    (hsame : ∀ q t, reach (tables h.mem) p.pageMap q = some t → SameBytes t h.mem h'.mem) :
    Space K h' p' ∧ (∀ f, p'.Owns h'.mem f ↔ p.Owns h.mem f) ∧
      walk h'.mem p'.pageMap userBase = walk h.mem p.pageMap userBase := by
  obtain ⟨hM, hown, hwalks⟩ := hS.map.transfer h' (fun f hf => huse f (Or.inr hf)) hsame
  have hwalk : walk h'.mem p.pageMap userBase = walk h.mem p.pageMap userBase := by
    rw [walk_userBase, hwalks p.pageMap List.mem_cons_self, ← walk_userBase]
  obtain ⟨hmap, hstack, htf⟩ := hp
  unfold Process.Owns
  rw [hmap, hstack]
  refine ⟨⟨by rwa [hmap], hstack ▸ huse _ (Or.inl rfl), hstack ▸ hS.frame, ?_, ?_, ?_⟩,
    fun f => by rw [hown], hwalk⟩
  · rw [hmap, hstack, hown]
    exact hS.apart
  · rw [htf, hstack, hS.tf]
  · rw [hmap, hwalk]
    exact hS.mapped

/-- No table lies in the stack or in a page. -/
theorem table_ne (hS : Space K h p) {q : List TableIndex} {t : U64}
    (hq : reach (tables h.mem) p.pageMap q = some t) (hf : f = p.stack ∨ Maps h.mem p.pageMap f) :
    t ≠ f := by
  rintro rfl
  rcases hf with rfl | ⟨q', i, b, hb, rfl⟩
  · exact hS.apart (Or.inl ⟨q, hq⟩)
  · exact hS.map.apart q' i b q hb hq

end Space

-- ---------------------------------------------------------------------------
-- All processes
-- ---------------------------------------------------------------------------

/-- A process other than the idle ones, from `alloc_new_process` to `wait`. -/
def Kernel.Live (k : Kernel) (r : ProcRef) : Prop := r.2 ≠ 0 ∧ (k.table r).state ≠ .unused

/-- The slot has the process that it had, with the same frames, or none as before. -/
structure SameSlot (k k' : Kernel) (r : ProcRef) : Prop where
  live : k'.Live r ↔ k.Live r
  frames : k.Live r → SameFrames (k.table r) (k'.table r)

theorem SameSlot.of_table (h : k'.table r = k.table r) : SameSlot k k' r :=
  ⟨by rw [Kernel.Live, Kernel.Live, h], fun _ => h ▸ .refl _⟩

/-- What frames are for. -/
inductive Holder where
  | fcbTable
  | fileDescTable
  | process (r : ProcRef)

def Kernel.Holds (k : Kernel) : Holder → U64 → Prop
  | .fcbTable, f => f = k.fcbTable
  | .fileDescTable, f => f = k.fileDescTable
  | .process r, f => k.Live r ∧ (k.table r).Owns k.heap.mem f

/-- The frames in use are those of the file system and of the processes, each with one holder. The
ledger is about frames only; that the frames of a process are put together as a map and a stack is
its `Space`. -/
structure Spaces (K : KernelImage) (k : Kernel) : Prop where
  ledger : Ledger k.Holds k.heap.inUse
  frames : ∀ f ∈ k.heap.inUse, IsFrame K f
  space : ∀ r, k.Live r → Space K k.heap (k.table r)

namespace Spaces

variable (hS : Spaces K k)
include hS

/-- The frames of two processes are different ones. -/
theorem apart {q : ProcRef} (hne : q ≠ r) (hq : k.Holds (.process q) f) :
    f ∈ k.heap.inUse ∧ ¬ k.Holds (.process r) f :=
  hS.ledger.other (fun he => hne (by cases he; rfl)) hq

/-- **The space of one process changes.** Frames of the others stay in use, with the
bytes they have; the process takes free frames only. That is all that a step has to show: it never
has to go through the other processes. -/
theorem edit (r : ProcRef)
    (hother : ∀ q, q ≠ r → SameSlot k k' q)
    (hfcb : k'.fcbTable = k.fcbTable) (hdesc : k'.fileDescTable = k.fileDescTable)
    (hkept : ∀ f ∈ k.heap.inUse, ¬ k.Holds (.process r) f →
      f ∈ k'.heap.inUse ∧ SameBytes f k.heap.mem k'.heap.mem)
    (hspace : k'.Live r → Space K k'.heap (k'.table r))
    (hnew : ∀ f, k'.Holds (.process r) f → k.Holds (.process r) f ∨ f ∉ k.heap.inUse)
    (hnodup : k'.heap.inUse.Nodup)
    (hmem : ∀ f ∈ k'.heap.inUse, k'.Holds (.process r) f ∨
      (f ∈ k.heap.inUse ∧ ¬ k.Holds (.process r) f)) : Spaces K k' := by
  have hmoved : ∀ q, q ≠ r → k.Live q → Space K k'.heap (k'.table q) ∧
      ∀ f, (k'.table q).Owns k'.heap.mem f ↔ (k.table q).Owns k.heap.mem f := by
    intro q hq hlive
    have hstay : ∀ f, (k.table q).Owns k.heap.mem f →
        f ∈ k'.heap.inUse ∧ SameBytes f k.heap.mem k'.heap.mem := by
      intro f hf
      obtain ⟨huse, hnot⟩ := hS.apart hq ⟨hlive, hf⟩
      exact hkept f huse hnot
    obtain ⟨hspace, hown, -⟩ := (hS.space q hlive).transfer k'.heap ((hother q hq).frames hlive)
      (fun f hf => (hstay f hf).1) fun p t hp => (hstay t (Or.inr (Or.inl ⟨p, hp⟩))).2
    exact ⟨hspace, hown⟩
  have hlive : ∀ q, k'.Live q → Space K k'.heap (k'.table q) := by
    intro q hq
    by_cases he : q = r
    · exact he ▸ hspace (he ▸ hq)
    · exact (hmoved q he ((hother q he).live.mp hq)).1
  refine ⟨hS.ledger.edit (.process r) (fun o ho f => ?_) hnew hnodup fun f => ⟨hmem f, fun hf => ?_⟩,
    fun f hf => ?_, hlive⟩
  · cases o with
    | fcbTable => rw [Kernel.Holds, Kernel.Holds, hfcb]
    | fileDescTable => rw [Kernel.Holds, Kernel.Holds, hdesc]
    | process q =>
      have hq : q ≠ r := fun he => ho (by rw [he])
      rw [Kernel.Holds, Kernel.Holds, (hother q hq).live]
      exact and_congr_right fun hlive => (hmoved q hq hlive).2 f
  · rcases hf with ⟨hlive', hf⟩ | ⟨hf, hnot⟩
    · exact ((hspace hlive').owned hf).1
    · exact (hkept f hf hnot).1
  · rcases hmem f hf with ⟨hlive', hf⟩ | ⟨hf, -⟩
    · exact ((hspace hlive').owned hf).2
    · exact hS.frames f hf

/-- Nothing happens to the heap, and nobody comes or goes. -/
theorem congr (htable : ∀ q, SameSlot k k' q) (hheap : k'.heap = k.heap)
    (hfcb : k'.fcbTable = k.fcbTable) (hdesc : k'.fileDescTable = k.fileDescTable) : Spaces K k' := by
  -- the slot of an idle process holds nothing
  have hidle : ∀ k : Kernel, ∀ f, ¬ k.Holds (.process (0, 0)) f := fun k f hf => hf.1.1 rfl
  refine hS.edit (0, 0) (fun q _ => htable q) hfcb hdesc (fun f hf _ => ?_) (fun hl => absurd rfl hl.1)
    (fun f hf => absurd hf (hidle _ f)) ?_ fun f hf => Or.inr ⟨?_, hidle _ f⟩
  · rw [hheap]
    exact ⟨hf, fun _ _ => rfl⟩
  · rw [hheap]
    exact hS.ledger.nodup
  · rwa [hheap] at hf

/-- **A process writes** to its stack and its pages. None of them is a table, so every address is
translated as before, and none of them belongs to anybody else. -/
theorem writes (hr : k.Live r) (htable : ∀ q, SameSlot k k' q)
    (hheap : k'.heap = { k.heap with mem := m }) (hfcb : k'.fcbTable = k.fcbTable)
    (hdesc : k'.fileDescTable = k.fileDescTable)
    (hbytes : ∀ x, (∀ f, f = (k.table r).stack ∨ Maps k.heap.mem (k.table r).pageMap f →
      2 ^ 21 ≤ (x - f).toNat) → m x = k.heap.mem x) : Spaces K k' := by
  have hspace := hS.space r hr
  have huse : k'.heap.inUse = k.heap.inUse := by rw [hheap]
  -- a frame that is neither its stack nor one of its pages
  have hsame : ∀ t, IsFrame K t →
      (∀ f, f = (k.table r).stack ∨ Maps k.heap.mem (k.table r).pageMap f → t ≠ f) →
      SameBytes t k.heap.mem k'.heap.mem := by
    intro t ht hne x hx
    rw [hheap]
    refine hbytes x fun f hf => ht.outside ?_ (hne f hf) hx
    exact (hspace.owned (hf.imp id Or.inr)).2
  obtain ⟨hspace', hown, -⟩ := hspace.transfer k'.heap ((htable r).frames hr)
    (fun f hf => by rw [huse]; exact (hspace.owned hf).1) fun q t hq =>
      hsame t (hspace.owned (Or.inr (Or.inl ⟨q, hq⟩))).2 fun f hf => hspace.table_ne hq hf
  have hholds : ∀ f, k'.Holds (.process r) f ↔ k.Holds (.process r) f := fun f => by
    rw [Kernel.Holds, Kernel.Holds, hown, (htable r).live]
  refine hS.edit r (fun q _ => htable q) hfcb hdesc (fun f hf hnot => ⟨huse ▸ hf, ?_⟩) (fun _ => hspace')
    (fun f hf => Or.inl ((hholds f).mp hf)) (huse ▸ hS.ledger.nodup) fun f hf => ?_
  · exact hsame f (hS.frames f hf) fun g hg he => hnot ⟨hr, he ▸ hg.imp id Or.inr⟩
  · rw [hholds, ← huse]
    exact (Classical.em _).imp id fun hnot => ⟨hf, hnot⟩

end Spaces

-- ---------------------------------------------------------------------------
-- A new process
-- ---------------------------------------------------------------------------

/-- The process `p` has got a space of frames that were free; the others are as before. -/
structure NewSpace (K : KernelImage) (h h' : Heap) (p : Process) : Prop where
  space : Space K h' p
  kept : ∀ f ∈ h.inUse, f ∈ h'.inUse ∧ SameBytes f h.mem h'.mem
  fresh : ∀ f, p.Owns h'.mem f → f ∉ h.inUse
  nodup : h.inUse.Nodup → h'.inUse.Nodup
  rest : ∀ f ∈ h'.inUse, p.Owns h'.mem f ∨ f ∈ h.inUse

theorem NewSpace.congr (hN : NewSpace K h h' p) (hp : SameFrames p p') : NewSpace K h h' p' := by
  obtain ⟨hspace, hown, -⟩ := hN.space.transfer h' hp (fun f hf => (hN.space.owned hf).1)
    fun _ _ _ _ _ => rfl
  refine ⟨hspace, hN.kept, fun f hf => hN.fresh f ((hown f).mp hf), hN.nodup, fun f hf => ?_⟩
  rw [hown]
  exact hN.rest f hf

/-- The stack and the root are set up inside their own frames. -/
theorem newProcessHeap_outside {stack pageMap x : U64} (hf : IsFrame K f) (hstack : IsFrame K stack)
    (hmap : IsFrame K pageMap) (hne : f ≠ stack) (hne' : f ≠ pageMap) (hx : (x - f).toNat < 2 ^ 21) :
    (newProcessHeap h stack pageMap).mem x = h.mem x := by
  have hout := hf.outside hstack hne hx
  calc (newProcessHeap h stack pageMap).mem x
      = enterAtBase (zeroPage h.mem stack) (topFrame stack) x :=
        if_neg (Nat.not_lt.mpr (hf.outside hmap hne' hx))
    _ = zeroPage h.mem stack x := enterAtBase_outside (topFrame_outside hout)
    _ = h.mem x := if_neg (Nat.not_lt.mpr hout)

/-- The root is still empty when there is a page, filled in any way. -/
theorem newProcess_emptyRoot {stack pageMap page : U64} (hroot : IsFrame K pageMap)
    (hpage : IsFrame K page) (hfree : page ∉ (newProcessHeap h stack pageMap).inUse)
    (hm : ∀ x, 2 ^ 21 ≤ (x - page).toNat →
      m x = ((newProcessHeap h stack pageMap).withFrame page).mem x) :
    EmptyRoot K { (newProcessHeap h stack pageMap).withFrame page with mem := m } pageMap := by
  have hE := (newProcessHeap_root h stack hroot).withFrame hpage hfree
  have hne : pageMap ≠ page := fun he => hfree (he ▸ List.mem_cons_self)
  refine ⟨hE.used, hE.frame, fun i => ?_⟩
  rw [tables_congr fun x hx => hm x (hroot.outside hpage hne hx)]
  exact hE.empty i

section

variable {stack pageMap page : U64} {h₁ : Heap}
  (hframes : ∀ f ∈ h.inUse, IsFrame K f)
  (hstack : src.pick h.calls h.inUse = some stack)
  (hmap : src.pick (h.calls + 1) (stack :: h.inUse) = some pageMap)
  (hpage : src.pick (newProcessHeap h stack pageMap).calls (newProcessHeap h stack pageMap).inUse =
    some page)
  (hm : ∀ x, 2 ^ 21 ≤ (x - page).toNat →
    m x = ((newProcessHeap h stack pageMap).withFrame page).mem x)
  (hok : mapPage src { (newProcessHeap h stack pageMap).withFrame page with mem := m } pageMap
    userBase (v2p page) userAttr = .ok (true, h₁))
include hmap hpage hm hok

/-- The page is mapped under the root of the new process. -/
theorem mapPage_newProcess :
    PageMapped K pageMap page true { (newProcessHeap h stack pageMap).withFrame page with mem := m }
      h₁ ∧
    (∀ q t, reach (tables h₁.mem) pageMap q = some t →
      t = pageMap ∨ t ∉ page :: pageMap :: stack :: h.inUse) ∧
    (∀ g, Maps h₁.mem pageMap g ↔ g = page) := by
  obtain ⟨hroot, -⟩ := src.fresh hmap
  obtain ⟨hframe, hfree⟩ := src.fresh hpage
  have hne : pageMap ≠ page := fun he => hfree (he ▸ List.mem_cons_self)
  have hE' := newProcess_emptyRoot hroot hframe hfree hm
  obtain ⟨hM, hnone, hself⟩ := hE'.alone
  have hP := mapPage_pageMapped hM validAttr_userAttr List.mem_cons_self hframe
    (hE'.not_owned hne.symm) hok
  refine ⟨hP, fun q t hq => (hP.reached q t hq).imp (hself q t) id, fun g => ?_⟩
  rw [hP.maps]
  exact ⟨fun hg => hg.elim (fun hg => absurd hg (hnone g)) And.right, fun hg => Or.inr ⟨rfl, hg⟩⟩

/-- It is found at the user base. -/
theorem mapPage_maps : ∃ b, walk h₁.mem pageMap userBase = some b := by
  obtain ⟨hroot, -⟩ := src.fresh hmap
  obtain ⟨hframe, hfree⟩ := src.fresh hpage
  have hE := (newProcess_emptyRoot hroot hframe hfree hm).alone.1.forest
  obtain ⟨-, hlookup, -⟩ := mapPage_spec hE List.mem_cons_self validAttr_userAttr hok
  have hb := hlookup rfl pageMap List.mem_cons_self [pgdIndex userBase, pudIndex userBase]
    (pmdIndex userBase)
  rw [paDown_userBase, if_pos ⟨rfl, rfl, rfl⟩, ← walk_userBase] at hb
  exact ⟨_, hb⟩

/-- None of the tables of the new process is its stack or its page. -/
theorem newTable_ne {q : List TableIndex} {t : U64}
    (hq : reach (tables h₁.mem) pageMap q = some t) : t ≠ stack ∧ t ≠ page := by
  obtain ⟨-, hmapFree⟩ := src.fresh hmap
  obtain ⟨-, hpageFree⟩ := src.fresh hpage
  have hpageFree : page ∉ pageMap :: stack :: h.inUse := hpageFree
  obtain ⟨-, hreached, -⟩ := mapPage_newProcess hmap hpage hm hok
  rcases hreached q t hq with rfl | hout
  · exact ⟨fun he => hmapFree (he ▸ List.mem_cons_self), fun he => hpageFree (he ▸ List.mem_cons_self)⟩
  · exact ⟨fun he => hout (by simp [he]), fun he => hout (by simp [he])⟩

include hstack

/-- So what these two are filled with does not matter to the tables. -/
theorem newTable_same
    (hm' : ∀ x, 2 ^ 21 ≤ (x - page).toNat → 2 ^ 21 ≤ (x - stack).toNat → m' x = h₁.mem x)
    {q : List TableIndex} {t : U64} (hq : reach (tables h₁.mem) pageMap q = some t) :
    SameBytes t h₁.mem m' := by
  intro x hx
  obtain ⟨hstackF, -⟩ := src.fresh hstack
  obtain ⟨hpageF, -⟩ := src.fresh hpage
  obtain ⟨hP, -⟩ := mapPage_newProcess hmap hpage hm hok
  obtain ⟨hne₁, hne₂⟩ := newTable_ne hmap hpage hm hok hq
  have ht := (hP.alone.frame (Or.inl ⟨q, hq⟩)).2
  exact hm' x (ht.outside hpageF hne₂ hx) (ht.outside hstackF hne₁ hx)

include hframes

/-- The frames that were in use stay so, with their bytes: the new process takes others. -/
theorem newProcess_kept
    (hm' : ∀ x, 2 ^ 21 ≤ (x - page).toNat → 2 ^ 21 ≤ (x - stack).toNat → m' x = h₁.mem x)
    {f : U64} (hf : f ∈ h.inUse) : f ∈ h₁.inUse ∧ SameBytes f h.mem m' := by
  obtain ⟨hstackF, hstackFree⟩ := src.fresh hstack
  obtain ⟨hmapF, hmapFree⟩ := src.fresh hmap
  obtain ⟨hpageF, hpageFree⟩ := src.fresh hpage
  obtain ⟨hP, hreached, -⟩ := mapPage_newProcess hmap hpage hm hok
  have hpageFree : page ∉ pageMap :: stack :: h.inUse := hpageFree
  have hfF := hframes f hf
  have hf₁ : f ≠ stack := fun he => hstackFree (he ▸ hf)
  have hf₂ : f ≠ pageMap := fun he => hmapFree (he ▸ List.mem_cons_of_mem _ hf)
  have hf₃ : f ≠ page := fun he => hpageFree (he ▸ List.mem_cons_of_mem _ (List.mem_cons_of_mem _ hf))
  have huse : f ∈ page :: pageMap :: stack :: h.inUse := by simp [hf]
  refine ⟨hP.used f huse, fun x hx => ?_⟩
  have hout := hfF.outside hpageF hf₃ hx
  have hroot : ∀ q, reach (tables { (newProcessHeap h stack pageMap).withFrame page with
      mem := m }.mem) pageMap q ≠ some f := fun q hq =>
    (hreached q f (hP.kept q f hq)).elim hf₂ fun h => h huse
  calc m' x = h₁.mem x := hm' x hout (hfF.outside hstackF hf₁ hx)
    _ = m x := hP.outside f huse hfF hroot x hx
    _ = ((newProcessHeap h stack pageMap).withFrame page).mem x := hm x hout
    _ = (newProcessHeap h stack pageMap).mem x := if_neg (Nat.not_lt.mpr hout)
    _ = h.mem x := newProcessHeap_outside hfF hstackF hmapF hf₁ hf₂ hx

/-- **The space of a new process**: whatever is in its page and in its stack. `setup_uvm` and
`copy_uvm` fill the two in different ways, after `map_page` has built the same tables. -/
theorem newSpace_of_mapPage
    (hm' : ∀ x, 2 ^ 21 ≤ (x - page).toNat → 2 ^ 21 ≤ (x - stack).toNat → m' x = h₁.mem x)
    (hpMap : p.pageMap = pageMap) (hpStack : p.stack = stack) (hpTf : p.tf = topFrame stack) :
    NewSpace K h { h₁ with mem := m' } p ∧
      ∃ b, walk m' pageMap userBase = some b ∧ pageOf b = page := by
  obtain ⟨hstackF, hstackFree⟩ := src.fresh hstack
  obtain ⟨-, hmapFree⟩ := src.fresh hmap
  obtain ⟨-, hpageFree⟩ := src.fresh hpage
  obtain ⟨hP, hreached, hmaps⟩ := mapPage_newProcess hmap hpage hm hok
  have hpageFree : page ∉ pageMap :: stack :: h.inUse := hpageFree
  have hne : stack ≠ page := fun he => hpageFree (he ▸ List.mem_cons_of_mem _ List.mem_cons_self)
  obtain ⟨hM, hown, hwalks⟩ := hP.alone.transfer { h₁ with mem := m' }
    (fun f hf => (hP.alone.frame hf).1) fun q t hq => newTable_same hstack hmap hpage hm hok hm' hq
  have hwalk : ∃ b, walk m' pageMap userBase = some b ∧ pageOf b = page := by
    obtain ⟨b, hb⟩ := mapPage_maps hmap hpage hm hok
    refine ⟨b, ?_, (hmaps _).mp ⟨_, _, b, (walk_userBase ..).symm.trans hb, rfl⟩⟩
    rw [walk_userBase, hwalks pageMap List.mem_cons_self, ← walk_userBase, hb]
  refine ⟨⟨⟨?_, ?_, ?_, ?_, ?_, ?_⟩,
    fun f hf => newProcess_kept hframes hstack hmap hpage hm hok hm' hf, ?_, ?_, ?_⟩, hwalk⟩
  · rwa [hpMap]
  · rw [hpStack]
    exact hP.used stack (by simp [Heap.withFrame, newProcessHeap])
  · rwa [hpStack]
  · rw [hpStack, hpMap, hown]
    rintro (⟨q, hq⟩ | hg)
    · exact (newTable_ne hmap hpage hm hok hq).1 rfl
    · exact hne ((hmaps stack).mp hg)
  · rw [hpTf, hpStack]
  · rw [hpMap]
    obtain ⟨b, hb, -⟩ := hwalk
    exact fun hnone => by rw [hnone] at hb; cases hb
  · intro f hf hin
    rw [Process.Owns, hpStack, hpMap, hown] at hf
    rcases hf with rfl | ⟨q, hq⟩ | hg
    · exact hstackFree hin
    · rcases hreached q f hq with rfl | hout
      · exact hmapFree (List.mem_cons_of_mem _ hin)
      · exact hout (by simp [hin])
    · rw [hmaps] at hg
      exact hpageFree (hg ▸ List.mem_cons_of_mem _ (List.mem_cons_of_mem _ hin))
  · intro hnd
    exact hP.nodup (List.nodup_cons.mpr ⟨hpageFree, List.nodup_cons.mpr
      ⟨hmapFree, List.nodup_cons.mpr ⟨hstackFree, hnd⟩⟩⟩)
  · intro f hf
    rw [Process.Owns, hpStack, hpMap, hown]
    rcases hP.linked f hf with hold | hq
    · rcases List.mem_cons.mp hold with rfl | hold
      · exact Or.inl (Or.inr (Or.inr ((hmaps f).mpr rfl)))
      · rcases List.mem_cons.mp hold with rfl | hold
        · exact Or.inl (Or.inr (Or.inl ⟨[], rfl⟩))
        · exact (List.mem_cons.mp hold).imp Or.inl id
    · exact Or.inl (Or.inr (Or.inl hq))

end

/-- A new process joins. -/
theorem Spaces.create (hS : Spaces K k) (hdead : (k.table r).state = .unused)
    (hother : ∀ q, q ≠ r → k'.table q = k.table q) (hfcb : k'.fcbTable = k.fcbTable)
    (hdesc : k'.fileDescTable = k.fileDescTable)
    (hnew : NewSpace K k.heap k'.heap (k'.table r)) (hlive : k'.Live r) : Spaces K k' := by
  have hnone : ∀ f, ¬ k.Holds (.process r) f := fun f hf => hf.1.2 hdead
  exact hS.edit r (fun q hq => .of_table (hother q hq)) hfcb hdesc (fun f hf _ => hnew.kept f hf)
    (fun _ => hnew.space) (fun f hf => Or.inr (hnew.fresh f hf.2)) (hnew.nodup hS.ledger.nodup)
    fun f hf => (hnew.rest f hf).imp (fun h => ⟨hlive, h⟩) fun h => ⟨h, hnone f⟩

-- ---------------------------------------------------------------------------
-- The end of a process
-- ---------------------------------------------------------------------------

variable (src) in
/-- **The frames of a dead process are freed**, each once, and no others. The stack goes first. It is
not in the map, so `free_vm` finds everything that it needs. -/
theorem Space.free (hS : Space K h p) (hnd : h.inUse.Nodup) : ∃ h₁ h',
    h.kfree K p.stack = .ok h₁ ∧ freeVm src h₁ p.pageMap = .ok h' ∧ h'.inUse.Nodup ∧
    (∀ f, f ∈ h'.inUse ↔ f ∈ h.inUse ∧ ¬ p.Owns h.mem f) ∧
    ∀ f, IsFrame K f → ¬ p.Owns h.mem f → SameBytes f h.mem h'.mem := by
  obtain ⟨hM, hown, -⟩ := hS.map.transfer (h.release [p.stack]) (fun f hf => by
    refine List.mem_diff_of_mem (hS.map.frame hf).1 fun hin => ?_
    rw [List.mem_singleton.mp hin] at hf
    exact hS.apart hf) fun _ _ _ _ _ => rfl
  obtain ⟨m, freed, hfreed, -, hmem, hsame⟩ := freeVm_spec src hM
  have hnd' : (h.release [p.stack]).inUse.Nodup := hnd.diff
  refine ⟨_, _, Heap.kfree_eq hS.frame hS.used, hfreed, hnd'.diff, fun f => ?_, fun f hf hnot x hx => ?_⟩
  · rw [Heap.release_inUse, hnd'.mem_sdiff_iff, hmem, hown, Heap.release_inUse, hnd.mem_sdiff_iff,
      List.mem_singleton, and_assoc, Process.Owns, not_or]
  · refine hsame x fun q t hq => hf.outside (hM.frame (Or.inl ⟨q, hq⟩)).2 ?_ hx
    rintro rfl
    exact hnot (Or.inr (Or.inl ⟨q, hq⟩))

/-- **`wait`** with the dead process it has found. The slot is unused afterwards, so nothing has to be
shown of its new space. -/
theorem Spaces.reap (hS : Spaces K k) (hr : k.Live r) (hok : TinyMultiCore.reap src k r = .ok k') :
    Spaces K k' := by
  obtain ⟨-, heap₁, heap, files, hstack, hfree, -, rfl⟩ := reap_eq hok
  obtain ⟨h₁, h', hstack', hfree', hnd, hmem, hsame⟩ := (hS.space r hr).free src hS.ledger.nodup
  rw [hstack'] at hstack
  cases hstack
  rw [hfree'] at hfree
  cases hfree
  have hunused : ((k.setProcess r .zero).table r).state = .unused := by
    simp [Kernel.setProcess, Process.zero]
  refine hS.edit r (fun q hq => .of_table (Function.update_of_ne hq ..)) rfl rfl (fun f hf hnot => ?_)
    (fun hl => absurd hunused hl.2) (fun f hf => absurd hunused hf.1.2) hnd fun f hf => ?_
  · have hnot : ¬ (k.table r).Owns k.heap.mem f := fun hf => hnot ⟨hr, hf⟩
    exact ⟨(hmem f).mpr ⟨hf, hnot⟩, hsame f (hS.frames f hf) hnot⟩
  · obtain ⟨hf, hnot⟩ := (hmem f).mp hf
    exact Or.inr ⟨hf, fun h => hnot h.2⟩

end TinyMultiCore
