import TinyMultiCore.Kernel.Machine
import TinyMultiCore.File.Model

/-!
# What `read_file` stores

Where `read_file` stores, and which bytes, is decided by the volume and the tables alone: it never
looks at the memory that it writes to. So each byte of the memory is either one that it stores,
the same whatever was there before, or stays as it was.

* `overlays_readClusters` — the loop of `read_raw_data`;
* `overlays_readFile` — all of it.
-/

namespace TinyMultiCore

open ByteMemory

variable {α β : Type}

/-- `f` puts the same bytes over whatever memory it gets. -/
def Overlays (f : Memory → Except Halt α) (after : α → Memory) : Prop :=
  ∃ o : U64 → Option (BitVec 8), ∀ mem a, f mem = .ok a → ∀ x, after a x = (o x).getD (mem x)

namespace Overlays

variable {f : Memory → Except Halt α} {after : α → Memory} {g : Memory → Except Halt β}
  {after' : β → Memory}

theorem nothing (h : ∀ mem a, f mem = .ok a → after a = mem) : Overlays f after :=
  ⟨fun _ => none, fun mem a ha x => congrFun (h mem a ha) x⟩

/-- The same bytes behind something that stores no more. -/
theorem map {fg : Memory → Except Halt β} (hf : Overlays f after)
    (h : ∀ mem b, fg mem = .ok b → ∃ a, f mem = .ok a ∧ after' b = after a) : Overlays fg after' := by
  obtain ⟨o, ho⟩ := hf
  refine ⟨o, fun mem b hb x => ?_⟩
  obtain ⟨a, ha, hb⟩ := h mem b hb
  rw [hb, ho mem a ha]

/-- What is stored later lies over what was stored before. -/
theorem trans {fg : Memory → Except Halt β} (hf : Overlays f after) (hg : Overlays g after')
    (h : ∀ mem b, fg mem = .ok b → ∃ a, f mem = .ok a ∧ g (after a) = .ok b) :
    Overlays fg after' := by
  obtain ⟨o, ho⟩ := hf
  obtain ⟨o', ho'⟩ := hg
  refine ⟨fun x => (o' x).or (o x), fun mem b hb x => ?_⟩
  obtain ⟨a, ha, hb⟩ := h mem b hb
  rw [ho' _ b hb, ho mem a ha]
  show _ = ((o' x).or (o x)).getD (mem x)
  cases o' x <;> rfl

theorem memcpy (image : Memory) (buffer src : U64) (size : U32) :
    Overlays (fun mem => .ok (TinyMultiCore.memcpy mem buffer image src size)) id := by
  refine ⟨fun x => if (x - buffer).toNat < size.toNat then
    some (image (src + BitVec.ofNat 64 (x - buffer).toNat)) else none, fun mem a ha x => ?_⟩
  cases ha
  unfold TinyMultiCore.memcpy blit
  dsimp only [id]
  split <;> rfl

end Overlays

/-- The loop of `read_raw_data`, by induction on its turns. -/
theorem overlays_readClusters (image : Memory) (clusterSize size : U32) : ∀ (fuel : Nat) (buffer : U64)
    (readSize index : U32), Overlays (fun mem => readClusters image clusterSize size fuel
      ⟨mem, buffer, readSize, index⟩) RawRead.mem
  | 0, _, _, _ => .nothing nofun
  | fuel + 1, buffer, readSize, index => by
    by_cases hgo : readSize < size ∧ index < 0xfff7
    · cases hdata : clusterData image index with
      | error e =>
        refine .nothing fun mem a ha => ?_
        rw [readClusters, if_pos hgo, hdata] at ha
        cases ha
      | ok data =>
        by_cases hlast : readSize + clusterSize ≥ size
        · -- the last copy
          refine (Overlays.memcpy image buffer data (size - readSize)).trans
            (.nothing (f := fun mem => .ok { mem, buffer, readSize := size, index }) ?_)
            fun mem b hb => ⟨_, rfl, ?_⟩
          · intro mem a ha
            cases ha
            rfl
          · rw [readClusters, if_pos hgo, hdata, ok_bind, if_pos hlast] at hb
            exact hb
        · refine (Overlays.memcpy image buffer data clusterSize).trans
            (overlays_readClusters image clusterSize size fuel (buffer + clusterSize.setWidth 64)
              (readSize + clusterSize) ((getClusterValue image index).setWidth 32))
            fun mem b hb => ⟨_, rfl, ?_⟩
          rw [readClusters, if_pos hgo, hdata, ok_bind, if_neg hlast] at hb
          exact hb
    · refine .nothing fun mem a ha => ?_
      rw [readClusters, if_neg hgo] at ha
      cases ha
      rfl

/-- The rest of the first cluster, and the clusters behind it. -/
theorem overlays_readRawData (image : Memory) (first : U32) (buffer : U64) (p n : U32) :
    Overlays (fun mem => readRawData image first mem buffer p n) Prod.snd := by
  cases hskip : skipClusters image (p / getClusterSize image).toNat first with
  | error e =>
    refine .nothing fun mem a ha => ?_
    obtain ⟨index, hindex, -⟩ := bind_eq_ok.mp ha
    cases hskip.symm.trans hindex
  | ok index =>
    -- from the next cluster on
    have hrest : ∀ buffer readSize index, Overlays (fun mem => do
        let r ← readClusters image (getClusterSize image) n readBound ⟨mem, buffer, readSize, index⟩
        return (r.readSize, r.mem)) Prod.snd := by
      intro buffer readSize index
      refine (overlays_readClusters image (getClusterSize image) n readBound buffer readSize
        index).map ?_
      intro mem b hb
      obtain ⟨r, hr, hb⟩ := bind_eq_ok.mp hb
      cases hb
      exact ⟨r, hr, rfl⟩
    by_cases hoffset : p % getClusterSize image ≠ 0
    · cases hdata : clusterData image index with
      | error e =>
        refine .nothing fun mem a ha => ?_
        unfold readRawData at ha
        dsimp only at ha
        rw [hskip, ok_bind, readFirst, if_pos hoffset, hdata] at ha
        cases ha
      | ok data =>
        obtain ⟨readSize, hreadSize⟩ : ∃ z : U32, z = if p % getClusterSize image + n ≤
            getClusterSize image then n else getClusterSize image - p % getClusterSize image := ⟨_, rfl⟩
        refine (Overlays.memcpy image buffer (data + (p % getClusterSize image).setWidth 64)
          readSize).trans (hrest (buffer + readSize.setWidth 64) readSize ((getClusterValue image index).setWidth 32))
          fun mem b hb => ⟨_, rfl, ?_⟩
        unfold readRawData at hb
        dsimp only at hb
        rw [hskip, ok_bind, readFirst, if_pos hoffset, hdata] at hb
        rw [hreadSize]
        exact hb
    · refine (hrest buffer 0 index).map fun mem b hb => ⟨b, ?_, rfl⟩
      unfold readRawData at hb
      dsimp only at hb
      rw [hskip, ok_bind, readFirst, if_neg hoffset] at hb
      exact hb

theorem overlays_readFile (image : Memory) (t : FileTables) (file : FileSlots) (fd : Nat)
    (buffer : U64) (size : U32) :
    Overlays (fun mem => readFile image t file fd mem buffer size) fun out => out.2.2 := by
  cases hd : deref (file fd) with
  | error e =>
    refine .nothing fun mem a ha => ?_
    rw [readFile, hd] at ha
    cases ha
  | ok d =>
    cases hf : deref (t.desc d).fcb with
    | error e =>
      refine .nothing fun mem a ha => ?_
      rw [readFile, hd, ok_bind, hf] at ha
      cases ha
    | ok f =>
      by_cases hend : (t.desc d).position + size > (t.fcb f).fileSize
      · refine .nothing fun mem a ha => ?_
        rw [readFile, hd, ok_bind, hf, ok_bind, if_pos hend] at ha
        cases ha
        rfl
      · refine (overlays_readRawData image (t.fcb f).clusterIndex buffer (t.desc d).position size).map ?_
        intro mem b hb
        rw [readFile, hd, ok_bind, hf, ok_bind, if_neg hend] at hb
        obtain ⟨a, ha, hb⟩ := bind_eq_ok.mp hb
        cases hb
        exact ⟨a, ha, rfl⟩

end TinyMultiCore
