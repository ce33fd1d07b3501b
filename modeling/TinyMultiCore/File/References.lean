import Mathlib.Algebra.BigOperators.Group.Finset.Piecewise
import Mathlib.Algebra.Order.BigOperators.Group.Finset
import TinyMultiCore.File.Descriptors

/-!
# Reference counts

Two levels of them: a descriptor counts the slots of processes that point to it, and
an FCB the counts of the descriptors that do. `Counted image t refs` says that the
tables `t` are right when there are `refs d` references to the descriptor `d`.

The four places of the source that change a count all do the same: one descriptor and
its FCB change by the same number (`Counted.adjust`). From it,

* `Counted.openFile`, `Counted.closeFile` — one reference more, or less;
* `Counted.share`, `Counted.drop` — all references of a process, as in `fork` and `wait`.
-/

namespace TinyMultiCore

open ByteMemory

variable {image mem mem' : Memory} {t t' : FileTables} {file file' : FileSlots}
  {refs refs' : Nat → Nat} {d e f fd n : Nat}

/-- A sum in which one term has changed. -/
theorem sum_add_of_eq_off {α M : Type} [AddCommMonoid M] {s : Finset α} {a : α} {f g : α → M}
    (ha : a ∈ s) (h : ∀ b, b ≠ a → g b = f b) : ∑ b ∈ s, g b + f a = ∑ b ∈ s, f b + g a := by
  classical
  have hrest : ∑ b ∈ s.erase a, g b = ∑ b ∈ s.erase a, f b :=
    Finset.sum_congr rfl fun b hb => h b (Finset.ne_of_mem_erase hb)
  rw [← Finset.add_sum_erase s g ha, ← Finset.add_sum_erase s f ha, hrest, add_right_comm,
    add_comm (g a), add_right_comm]

-- ---------------------------------------------------------------------------
-- Counting
-- ---------------------------------------------------------------------------

/-- How many of the first `n` slots point to the descriptor `d`. -/
def slotRefs (file : FileSlots) (n d : Nat) : Nat :=
  ((Finset.range n).filter fun fd => file fd = some d).card

theorem slotRefs_eq (file : FileSlots) (n d : Nat) :
    slotRefs file n d = ∑ fd ∈ Finset.range n, if file fd = some d then 1 else 0 :=
  Finset.card_filter ..

@[simp] theorem slotRefs_zero (file : FileSlots) (d : Nat) : slotRefs file 0 d = 0 := rfl

theorem slotRefs_succ (file : FileSlots) (n d : Nat) :
    slotRefs file (n + 1) d = slotRefs file n d + if file n = some d then 1 else 0 := by
  rw [slotRefs_eq, slotRefs_eq, Finset.sum_range_succ]

@[simp] theorem slotRefs_none (n d : Nat) : slotRefs (fun _ => none) n d = 0 := by
  rw [slotRefs_eq]
  exact Finset.sum_eq_zero fun fd _ => if_neg (by simp)

theorem slotRefs_pos (hfd : fd < n) (h : file fd = some d) : 0 < slotRefs file n d :=
  Finset.card_pos.mpr ⟨fd, Finset.mem_filter.mpr ⟨Finset.mem_range.mpr hfd, h⟩⟩

/-- One slot has changed. -/
theorem slotRefs_update (hfd : fd < n) (file : FileSlots) (x : Option Nat) (d : Nat) :
    slotRefs (Function.update file fd x) n d + (if file fd = some d then 1 else 0) =
      slotRefs file n d + if x = some d then 1 else 0 := by
  rw [slotRefs_eq, slotRefs_eq]
  have hsum := sum_add_of_eq_off (s := Finset.range n) (a := fd)
    (f := fun i => if file i = some d then 1 else 0)
    (g := fun i => if Function.update file fd x i = some d then 1 else 0)
    (Finset.mem_range.mpr hfd) (fun i hi => by rw [Function.update_of_ne hi])
  rw [Function.update_self] at hsum
  exact hsum

/-- What a descriptor contributes to the count of the FCB `f`. -/
def FileDesc.share (x : FileDesc) (f : Nat) : Int := if x.fcb = some f then x.count else 0

/-- The counts of the descriptors that point to the FCB `f`. -/
def fcbRefs (t : FileTables) (f : Nat) : Int :=
  ∑ d ∈ Finset.range numFileDescs, (t.desc d).share f

theorem fcbRefs_of_eq_off (hd : d < numFileDescs) (h : ∀ e, e ≠ d → t'.desc e = t.desc e) (f : Nat) :
    fcbRefs t' f + (t.desc d).share f = fcbRefs t f + (t'.desc d).share f := by
  unfold fcbRefs
  generalize numFileDescs = n at hd ⊢
  exact sum_add_of_eq_off (f := fun e => (t.desc e).share f) (g := fun e => (t'.desc e).share f)
    (Finset.mem_range.mpr hd) fun e he => by rw [h e he]

/-- The FCB is the one of the directory entry `f`. -/
structure OfEntry (image : Memory) (f : Nat) (x : FCB) : Prop where
  fileSize : x.fileSize = (dirEntry image f).fileSize
  clusterIndex : x.clusterIndex = (dirEntry image f).clusterIndex.setWidth 32
  name : x.name = (dirEntry image f).name
  ext : x.ext = (dirEntry image f).ext

theorem OfEntry.withCount {x : FCB} (h : OfEntry image f x) (count : Int) :
    OfEntry image f { x with count } := ⟨h.fileSize, h.clusterIndex, h.name, h.ext⟩

/-- The tables count `refs d` references to each descriptor `d`. A descriptor has an FCB while it
has references, and an FCB counts those of all descriptors that it has: the two levels that
`put_fcb` and `close_file` keep in step. -/
structure Counted (image : Memory) (t : FileTables) (refs : Nat → Nat) : Prop where
  count : ∀ d, (t.desc d).count = refs d
  fcb : ∀ d, (t.desc d).fcb = none ↔ refs d = 0
  bound : ∀ d, refs d ≠ 0 → d < numFileDescs
  fcbs : ∀ f, (t.fcb f).count = fcbRefs t f
  entry : ∀ f, 0 < (t.fcb f).count → OfEntry image f (t.fcb f)

namespace Counted

theorem congr (h : Counted image t refs) (hrefs : ∀ d, refs' d = refs d) : Counted image t refs' := by
  rw [show refs' = refs from funext hrefs]
  exact h

/-- A descriptor that is in use has an FCB that is. -/
theorem fcb_pos (h : Counted image t refs) (hf : (t.desc d).fcb = some f) :
    0 < refs d ∧ 0 < (t.fcb f).count := by
  have hrefs : refs d ≠ 0 := by
    intro h0
    rw [(h.fcb d).mpr h0] at hf
    cases hf
  refine ⟨Nat.pos_of_ne_zero hrefs, ?_⟩
  have hnonneg : ∀ e ∈ Finset.range numFileDescs, 0 ≤ (t.desc e).share f := by
    intro e _
    unfold FileDesc.share
    split
    · rw [h.count]
      exact Int.natCast_nonneg _
    · exact le_rfl
  have hle := Finset.single_le_sum hnonneg (Finset.mem_range.mpr (h.bound d hrefs))
  rw [FileDesc.share, if_pos hf, h.count] at hle
  rw [h.fcbs]
  exact lt_of_lt_of_le (Int.natCast_pos.mpr (Nat.pos_of_ne_zero hrefs)) hle

/-- **One descriptor changes, and its FCB with it.** Whatever is done to the counts is this: the
descriptor gets another number of references, its FCB as many more or less, and for every other FCB
the sum over the descriptors is what it was. -/
theorem adjust (h : Counted image t refs) (hd : d < numFileDescs)
    (hold : (t.desc d).fcb = some f ∨ refs d = 0) (hdesc : ∀ e, e ≠ d → t'.desc e = t.desc e)
    (hcount : (t'.desc d).count = n)
    (hnew : (t'.desc d).fcb = if n = 0 then none else some f)
    (hfcb : (t'.fcb f).count = (t.fcb f).count + n - refs d)
    (hother : ∀ g, g ≠ f → t'.fcb g = t.fcb g)
    (hentry : 0 < (t'.fcb f).count → OfEntry image f (t'.fcb f)) :
    Counted image t' (Function.update refs d n) := by
  have hsame : ∀ e, e ≠ d → Function.update refs d n e = refs e := fun e he =>
    Function.update_of_ne he ..
  -- what the descriptor contributed to each FCB, and what it does now
  have hshare : ∀ g, (t.desc d).share g = if g = f then (refs d : Int) else 0 := by
    intro g
    unfold FileDesc.share
    rcases hold with hf | h0
    · rw [hf, h.count]
      by_cases hg : g = f
      · rw [if_pos (by rw [hg]), if_pos hg]
      · rw [if_neg fun he => hg (Option.some.inj he).symm, if_neg hg]
    · rw [(h.fcb d).mpr h0, h0]
      simp
  have hshare' : ∀ g, (t'.desc d).share g = if g = f then (n : Int) else 0 := by
    intro g
    unfold FileDesc.share
    rw [hnew, hcount]
    by_cases hn : n = 0
    · simp [hn]
    · rw [if_neg hn]
      by_cases hg : g = f
      · rw [if_pos (by rw [hg]), if_pos hg]
      · rw [if_neg fun he => hg (Option.some.inj he).symm, if_neg hg]
  refine ⟨fun e => ?_, fun e => ?_, fun e he => ?_, fun g => ?_, fun g hg => ?_⟩
  · by_cases he : e = d
    · rw [he, Function.update_self, hcount]
    · rw [hsame e he, hdesc e he, h.count]
  · by_cases he : e = d
    · rw [he, Function.update_self, hnew]
      by_cases hn : n = 0
      · simp [hn]
      · simp [hn]
    · rw [hsame e he, hdesc e he]
      exact h.fcb e
  · by_cases hed : e = d
    · rw [hed]
      exact hd
    · rw [hsame e hed] at he
      exact h.bound e he
  · have hsum := fcbRefs_of_eq_off hd hdesc g
    rw [hshare, hshare'] at hsum
    by_cases hg : g = f
    · rw [if_pos hg, if_pos hg, hg] at hsum
      rw [hg, hfcb, h.fcbs]
      omega
    · rw [if_neg hg, if_neg hg] at hsum
      rw [hother g hg, h.fcbs]
      omega
  · by_cases hgf : g = f
    · rw [hgf] at hg ⊢
      exact hentry hg
    · rw [hother g hgf] at hg ⊢
      exact h.entry g hg

/-- A position does not count. -/
theorem advance (h : Counted image t refs) (d : Nat) (n : U32) :
    Counted image (t.advance d n) refs := by
  have hdesc : ∀ e, ((t.advance d n).desc e).fcb = (t.desc e).fcb ∧
      ((t.advance d n).desc e).count = (t.desc e).count := by
    intro e
    by_cases he : e = d
    · subst he
      simp [FileTables.advance, FileTables.setDesc]
    · simp [FileTables.advance, FileTables.setDesc, he]
  refine ⟨fun e => ?_, fun e => ?_, h.bound, fun f => ?_, h.entry⟩
  · rw [(hdesc e).2, h.count]
  · rw [(hdesc e).1, h.fcb]
  · refine (h.fcbs f).trans (Finset.sum_congr rfl fun e _ => ?_)
    rw [FileDesc.share, FileDesc.share, (hdesc e).1, (hdesc e).2]

-- ---------------------------------------------------------------------------
-- The functions of `file.c`
-- ---------------------------------------------------------------------------

/-- **`open_file`** takes a free slot and a free descriptor. Nobody refers to a descriptor without an
FCB, so its count becomes one. A file that was open already has one FCB for all its descriptors,
and keeps it. -/
theorem openFile {path : Nat → BitVec 8} (h : Counted image t refs)
    (hopen : TinyMultiCore.openFile image t file path = some (fd, t', file')) :
    fd < numFiles ∧ file fd = none ∧ ∃ d, refs d = 0 ∧ file' = Function.update file fd (some d) ∧
      Counted image t' (Function.update refs d 1) := by
  unfold TinyMultiCore.openFile at hopen
  obtain ⟨fd', hfd, hopen⟩ := Option.bind_eq_some_iff.mp hopen
  obtain ⟨d, hd, hopen⟩ := Option.bind_eq_some_iff.mp hopen
  obtain ⟨index, -, hopen⟩ := Option.bind_eq_some_iff.mp hopen
  cases hopen
  obtain ⟨-, hlt, hfree⟩ := scan_eq_some hfd
  obtain ⟨-, hdlt, hnone⟩ := scan_eq_some hd
  have h0 := (h.fcb d).mp hnone
  refine ⟨by omega, hfree, d, h0, rfl, ?_⟩
  refine h.adjust (f := index) (by omega) (Or.inr h0) (fun e he => ?_) ?_ ?_ ?_ (fun g hg => ?_)
    fun _ => ?_
  · exact Function.update_of_ne he ..
  · simp [FileTables.setDesc]
  · simp [FileTables.setDesc]
  · rw [h0]
    show ((Function.update t.fcb index _) index).count = _
    rw [Function.update_self]
    split <;> simp
  · exact Function.update_of_ne hg ..
  · show OfEntry image index ((Function.update t.fcb index _) index)
    rw [Function.update_self]
    refine OfEntry.withCount ?_ _
    split
    · exact ⟨rfl, rfl, rfl, rfl⟩
    · rename_i hne
      refine h.entry index ?_
      have hnonneg : 0 ≤ (t.fcb index).count := by
        rw [h.fcbs]
        refine Finset.sum_nonneg fun e _ => ?_
        unfold FileDesc.share
        split
        · rw [h.count]
          exact Int.natCast_nonneg _
        · exact le_rfl
      omega

/-- What the three places that drop a reference do to the tables. -/
theorem dropOne (h : Counted image t refs) (hf : (t.desc d).fcb = some f) :
    Counted image (putDesc (t.setFcb f { t.fcb f with count := (t.fcb f).count - 1 }) d)
      (Function.update refs d (refs d - 1)) := by
  obtain ⟨hrefs, hpos⟩ := h.fcb_pos hf
  have hcount := h.count d
  have hdesc : ∀ x, (putDesc (t.setFcb f x) d).desc d =
      if (t.desc d).count - 1 = 0 then { t.desc d with count := (t.desc d).count - 1, fcb := none }
      else { t.desc d with count := (t.desc d).count - 1 } := by
    intro x
    exact Function.update_self ..
  refine h.adjust (h.bound d (by omega)) (Or.inl hf) (fun e he => ?_) ?_ ?_ ?_ (fun g hg => ?_)
    fun _ => ?_
  · exact Function.update_of_ne he ..
  · rw [hdesc]
    split
    · show (t.desc d).count - 1 = _
      omega
    · show (t.desc d).count - 1 = _
      omega
  · rw [hdesc]
    by_cases h1 : refs d - 1 = 0
    · rw [if_pos h1, if_pos (by omega)]
    · rw [if_neg h1, if_neg (by omega)]
      exact hf
  · show ((Function.update t.fcb f _) f).count = _
    rw [Function.update_self]
    show (t.fcb f).count - 1 = _
    omega
  · exact Function.update_of_ne hg ..
  · show OfEntry image f ((Function.update t.fcb f _) f)
    rw [Function.update_self]
    exact (h.entry f hpos).withCount _

/-- **`close_file`** of an open slot: the `ASSERT` of `put_fcb` holds, as an FCB that a descriptor
refers to has a positive count. With the last reference the descriptor is free again. -/
theorem closeFile (h : Counted image t refs) (hslot : file fd = some d) (hrefs : refs d ≠ 0) :
    ∃ t', TinyMultiCore.closeFile t file fd = .ok (t', Function.update file fd none) ∧
      Counted image t' (Function.update refs d (refs d - 1)) := by
  cases hf : (t.desc d).fcb with
  | none => exact absurd ((h.fcb d).mp hf) hrefs
  | some f =>
    have hpos := (h.fcb_pos hf).2
    refine ⟨_, ?_, h.dropOne hf⟩
    unfold TinyMultiCore.closeFile putFcb
    rw [hslot, show deref (some d) = .ok d from rfl, ok_bind, hf, show deref (some f) = .ok f from rfl,
      ok_bind, kernelAssert_pos hpos]
    rfl

theorem readFile {buffer : U64} {size m : U32} (h : Counted image t refs)
    (hok : TinyMultiCore.readFile image t file fd mem buffer size = .ok (m, t', mem')) :
    Counted image t' refs := by
  unfold TinyMultiCore.readFile at hok
  obtain ⟨d, -, hok⟩ := bind_eq_ok.mp hok
  obtain ⟨f, -, hok⟩ := bind_eq_ok.mp hok
  dsimp only at hok
  split at hok
  · cases hok
    exact h
  · obtain ⟨⟨readSize, mem₁⟩, -, hok⟩ := bind_eq_ok.mp hok
    cases hok
    exact h.advance d readSize

/-- A file is opened, read and closed again: `close_file` succeeds, and the slots and the
counts are those of before. -/
theorem loaded {path : Nat → BitVec 8} {files files₁ : FileTables} {buffer : U64} {size m : U32}
    (h : Counted image t refs)
    (hopen : TinyMultiCore.openFile image t file path = some (fd, files, file'))
    (hread : TinyMultiCore.readFile image files file' fd mem buffer size = .ok (m, files₁, mem')) :
    ∃ files₂, TinyMultiCore.closeFile files₁ file' fd = .ok (files₂, file) ∧
      Counted image files₂ refs := by
  obtain ⟨-, hfree, d, h0, rfl, hopened⟩ := h.openFile hopen
  have hslot : Function.update file fd (some d) fd = some d := Function.update_self ..
  obtain ⟨files₂, hclose, hcounted⟩ := (hopened.readFile hread).closeFile hslot
    (by rw [Function.update_self]; exact Nat.one_ne_zero)
  refine ⟨files₂, ?_, hcounted.congr fun e => ?_⟩
  · rw [hclose, Function.update_idem, ← hfree, Function.update_eq_self]
  · by_cases he : e = d
    · rw [he, Function.update_self, Function.update_self, h0]
    · rw [Function.update_of_ne he, Function.update_of_ne he]

-- ---------------------------------------------------------------------------
-- The loops of `fork` and `wait`
-- ---------------------------------------------------------------------------

theorem shareFile (h : Counted image t refs) (hrefs : refs d ≠ 0)
    (hok : TinyMultiCore.shareFile t d = .ok t') :
    Counted image t' (Function.update refs d (refs d + 1)) := by
  unfold TinyMultiCore.shareFile at hok
  obtain ⟨f, hf, hok⟩ := bind_eq_ok.mp hok
  cases hok
  have hf' : (t.desc d).fcb = some f := by
    have := deref_eq_ok.mp hf
    simpa [FileTables.setDesc] using this
  have hcount := h.count d
  refine h.adjust (h.bound d hrefs) (Or.inl hf') (fun e he => ?_) ?_ ?_ ?_ (fun g hg => ?_)
    fun _ => ?_
  · exact Function.update_of_ne he ..
  · show ((Function.update t.desc d _) d).count = _
    rw [Function.update_self]
    show (t.desc d).count + 1 = _
    omega
  · rw [if_neg (Nat.succ_ne_zero _)]
    show ((Function.update t.desc d _) d).fcb = _
    rw [Function.update_self]
    exact hf'
  · show ((Function.update t.fcb f _) f).count = _
    rw [Function.update_self]
    show (t.fcb f).count + 1 = _
    omega
  · exact Function.update_of_ne hg ..
  · show OfEntry image f ((Function.update t.fcb f _) f)
    rw [Function.update_self]
    exact (h.entry f (h.fcb_pos hf').2).withCount _

theorem dropFile (h : Counted image t refs) (hok : TinyMultiCore.dropFile t d = .ok t') :
    Counted image t' (Function.update refs d (refs d - 1)) := by
  unfold TinyMultiCore.dropFile at hok
  obtain ⟨f, hf, hok⟩ := bind_eq_ok.mp hok
  cases hok
  exact h.dropOne (deref_eq_ok.mp hf)

/-- **The loop of `fork`**, over slots that are in use. By induction on the slots that were passed:
each adds one reference to its descriptor, also where two slots have the same. -/
theorem share (h : Counted image t refs) (hlive : ∀ fd < n, ∀ d, file fd = some d → refs d ≠ 0)
    (hok : eachFile TinyMultiCore.shareFile file n t = .ok t') :
    Counted image t' fun d => refs d + slotRefs file n d := by
  induction n generalizing t' with
  | zero =>
    cases hok
    exact h
  | succ n ih =>
    obtain ⟨t₁, h₁, hok⟩ := bind_eq_ok.mp hok
    have hcounted := ih (fun fd hfd => hlive fd (by omega)) h₁
    cases hslot : file n with
    | none =>
      rw [hslot] at hok
      cases hok
      refine hcounted.congr fun d => ?_
      rw [slotRefs_succ, hslot, if_neg (by simp), Nat.add_zero]
    | some e =>
      rw [hslot] at hok
      have hne := hlive n (Nat.lt_succ_self n) e hslot
      refine (hcounted.shareFile (d := e) (by omega) hok).congr fun d => ?_
      rw [slotRefs_succ, hslot]
      by_cases hd : d = e
      · rw [hd, Function.update_self, if_pos rfl, Nat.add_assoc]
      · rw [Function.update_of_ne hd, if_neg fun he => hd (Option.some.inj he).symm, Nat.add_zero]

/-- **The loop of `wait`.** The references of the dead process are the ones behind the `+`, and the loop
gives them back one slot after the other. -/
theorem drop (h : Counted image t fun d => refs d + slotRefs file n d)
    (hok : eachFile TinyMultiCore.dropFile file n t = .ok t') : Counted image t' refs := by
  induction n generalizing t' refs with
  | zero =>
    cases hok
    exact h
  | succ n ih =>
    obtain ⟨t₁, h₁, hok⟩ := bind_eq_ok.mp hok
    -- the references without those of the first `n` slots
    have hcounted : Counted image t₁ fun d => refs d + if file n = some d then 1 else 0 :=
      ih (h.congr fun d => by rw [slotRefs_succ]; omega) h₁
    cases hslot : file n with
    | none =>
      rw [hslot] at hok
      cases hok
      refine hcounted.congr fun d => ?_
      rw [hslot, if_neg (by simp), Nat.add_zero]
    | some e =>
      rw [hslot] at hok
      refine (hcounted.dropFile (d := e) hok).congr fun d => ?_
      by_cases hd : d = e
      · rw [hd, Function.update_self, hslot, if_pos rfl, Nat.add_sub_cancel]
      · rw [Function.update_of_ne hd, hslot, if_neg fun he => hd (Option.some.inj he).symm,
          Nat.add_zero]

end Counted

end TinyMultiCore
