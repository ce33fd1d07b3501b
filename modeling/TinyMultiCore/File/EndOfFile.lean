import TinyMultiCore.File.Reading

/-!
# The end-of-file check

`read_file` is to fail, and change nothing, exactly when the range goes beyond the
end of the file. Two kinds of call escape its check. The sum `position + size` is
taken in 32 bits, so a large `size` wraps it around to a position inside the file.
And an empty read at the end of a file of whole clusters goes to the position
first, where the chain has ended: following it to the end mark is an `ASSERT`.

`read_file_eof_iff` says that these are all there are, and that reads without them
keep every position inside its file.
-/

namespace TinyMultiCore

open ByteMemory TransitionSystem

variable {image mem : Memory} {buffer : U64} {t : FileTables} {file : FileSlots}
  {fd d f volume : Nat} {n : U32}

/-- What a read of `n` bytes at the descriptor `d`, open on `f`, is to do about the
end of the file. -/
def EofExact (image : Memory) (t : FileTables) (file : FileSlots) (fd d f : Nat) (mem : Memory)
    (buffer : U64) (n : U32) : Prop :=
  (readFile image t file fd mem buffer n = .ok (readFailed, t, mem) ↔
    (t.fcb f).fileSize.toNat < (t.desc d).position.toNat + n.toNat) ∧
  ((t.desc d).position.toNat + n.toNat ≤ (t.fcb f).fileSize.toNat →
    ∃ t' mem', readFile image t file fd mem buffer n = .ok (n, t', mem'))

/-- The position `p` is the end of a file that fills its clusters, and the link of
the last one is an end mark. -/
def AtEndMark (image : Memory) (x : FCB) (p : U32) : Prop :=
  p = x.fileSize ∧ 0 < p.toNat ∧ clusterBytes image ∣ p.toNat ∧
    0xfff7 ≤ (chain image x.clusterIndex (p.toNat / clusterBytes image)).toNat

/-- The sum of the check does not wrap around, and the read is not an empty one at
an end mark. -/
def EofChecked (image : Memory) (t : FileTables) (d f : Nat) (n : U32) : Prop :=
  (t.desc d).position.toNat + n.toNat < 2 ^ 32 ∧
    ¬ (n = 0 ∧ AtEndMark image (t.fcb f) (t.desc d).position)

theorem reaches_iff {x : FCB} (h : WellFormedFile image x.clusterIndex x.fileSize volume) {p : U32}
    (hp : p.toNat ≤ x.fileSize.toNat) :
    Reaches image x.clusterIndex p.toNat ↔ ¬ AtEndMark image x p := by
  have hpos := h.clusterBytes_pos
  constructor
  · rintro hreach ⟨-, hp0, hdvd, hmark⟩
    have hle : clusterBytes image ≤ p.toNat := Nat.le_of_dvd hp0 hdvd
    have := hreach _ (Nat.div_pos hle hpos) le_rfl
    omega
  · intro hmark k hk0 hk
    have hkp := Nat.mul_le_of_le_div _ _ _ hk
    rcases Nat.lt_or_ge (k * clusterBytes image) x.fileSize.toNat with hlt | hge
    · exact (h.chain_range k hlt).2
    · -- the position is the end of the file, and a multiple of the cluster size
      have hend : k * clusterBytes image = p.toNat := by omega
      have hkeq : p.toNat / clusterBytes image = k := by
        rw [← hend, Nat.mul_div_cancel _ hpos]
      by_contra hge'
      refine hmark ⟨BitVec.eq_of_toNat_eq (by omega), ?_, ⟨k, by rw [← hend, Nat.mul_comm]⟩, ?_⟩
      · have := Nat.mul_pos hk0 hpos
        omega
      · rw [hkeq]
        omega

/-- A checked read does what it is to do. -/
theorem EofChecked.exact (ho : OpenAt t file fd d f)
    (hwf : WellFormedFile image (t.fcb f).clusterIndex (t.fcb f).fileSize volume)
    (hp : (t.desc d).position.toNat ≤ (t.fcb f).fileSize.toNat)
    (hc : EofChecked image t d f n) : EofExact image t file fd d f mem buffer n := by
  obtain ⟨hwrap, hmark⟩ := hc
  have hvol := hwf.volume_lt
  have hfile := hwf.file_inside
  have hsum : ((t.desc d).position + n).toNat = (t.desc d).position.toNat + n.toNat := by
    rw [BitVec.toNat_add, Nat.mod_eq_of_lt (by omega)]
  rcases Nat.lt_or_ge (t.fcb f).fileSize.toNat ((t.desc d).position.toNat + n.toNat) with hgt | hle
  · have hout : (t.desc d).position + n > (t.fcb f).fileSize := by
      rw [gt_iff_lt, BitVec.lt_def, hsum]
      exact hgt
    refine ⟨?_, fun hle => by omega⟩
    rw [readFile_eq ho, if_pos hout]
    exact iff_of_true rfl hgt
  · have hreach : Reaches image (t.fcb f).clusterIndex (t.desc d).position.toNat := by
      by_cases hn : n = 0
      · exact (reaches_iff hwf hp).mpr fun hm => hmark ⟨hn, hm⟩
      · refine hwf.reaches ?_
        have hn0 : n.toNat ≠ 0 := fun h0 => hn (BitVec.eq_of_toNat_eq h0)
        omega
    rw [EofExact, readFile_spec ho hwf hle hreach]
    refine ⟨iff_of_false (fun heq => ?_) (by omega), fun _ => ⟨_, _, rfl⟩⟩
    -- no file has as many bytes as the failure code says
    have hfail : n = readFailed := congrArg Prod.fst (Except.ok.inj heq)
    have hmax : n.toNat = 2 ^ 32 - 1 := by
      rw [hfail]
      rfl
    omega

/-- And only a checked read does. -/
theorem EofExact.checked (ho : OpenAt t file fd d f)
    (hwf : WellFormedFile image (t.fcb f).clusterIndex (t.fcb f).fileSize volume)
    (hp : (t.desc d).position.toNat ≤ (t.fcb f).fileSize.toNat)
    (he : EofExact image t file fd d f mem buffer n) : EofChecked image t d f n := by
  have hn := n.isLt
  have hvol := hwf.volume_lt
  have hfile := hwf.file_inside
  constructor
  · by_contra hwrap
    -- the wrapped sum is below the position, so the check lets the read through
    have hin : ¬ (t.desc d).position + n > (t.fcb f).fileSize := by
      rw [gt_iff_lt, BitVec.lt_def, BitVec.toNat_add, Nat.mod_eq_sub_mod (by omega),
        Nat.mod_eq_of_lt (by omega)]
      omega
    have hfail := he.1.mpr (by omega)
    rw [readFile_eq ho, if_neg hin] at hfail
    -- a read that returns `0xffffffff` moves the position back by one
    cases hraw : readRawData image (t.fcb f).clusterIndex mem buffer (t.desc d).position n with
    | error e =>
      rw [hraw] at hfail
      cases hfail
    | ok x =>
      rw [hraw] at hfail
      have hx : (x.1, t.advance d x.1, x.2) = (readFailed, t, mem) := Except.ok.inj hfail
      have hsize : x.1 = readFailed := congrArg Prod.fst hx
      have htables : t.advance d x.1 = t := congrArg (fun y => y.2.1) hx
      have hposition := advance_position t d x.1
      rw [htables, hsize] at hposition
      have hzero : (0 : U32) = readFailed := by
        have := BitVec.add_right_eq_self.mp hposition.symm
        exact this.symm
      exact absurd hzero (by decide)
  · rintro ⟨rfl, hmark⟩
    obtain ⟨t', mem', hok⟩ := he.2 (by simpa using hp)
    have hin : ¬ (t.desc d).position + 0 > (t.fcb f).fileSize := by
      rw [gt_iff_lt, BitVec.lt_def, show (t.desc d).position + 0 = (t.desc d).position from
        BitVec.add_zero _]
      omega
    rw [readFile_eq ho, if_neg hin] at hok
    cases hraw : readRawData image (t.fcb f).clusterIndex mem buffer (t.desc d).position 0 with
    | error e =>
      rw [hraw] at hok
      cases hok
    | ok x => exact (reaches_iff hwf hp).mp (readRawData_reaches hraw) hmark

/-! ## Sequences of reads -/

/-- A call of `read_file` by the process with the slots `file`. -/
structure ReadCall where
  file : FileSlots
  fd : Nat
  buffer : U64
  size : U32

/-- The call returns. -/
def ReadStep (image : Memory) (s : FileTables × Memory) (c : ReadCall)
    (s' : FileTables × Memory) : Prop :=
  ∃ r, readFile image s.1 c.file c.fd s.2 c.buffer c.size = .ok (r, s')

/-- Every open descriptor is on a well-formed file, and not beyond its end. -/
structure PositionsInside (image : Memory) (volume : Nat) (t : FileTables) : Prop where
  wellFormed : ∀ d f, (t.desc d).fcb = some f →
    WellFormedFile image (t.fcb f).clusterIndex (t.fcb f).fileSize volume
  inside : ∀ d f, (t.desc d).fcb = some f →
    (t.desc d).position.toNat ≤ (t.fcb f).fileSize.toNat

/-- The condition of `EofChecked`, on the descriptor that the call reads from. -/
def CallChecked (image : Memory) (t : FileTables) (c : ReadCall) : Prop :=
  ∀ d f, OpenAt t c.file c.fd d f → EofChecked image t d f c.size

/-- A read that goes on to the data moves the position by what it returns. -/
theorem readFile_tables (ho : OpenAt t file fd d f) {r : U32} {t' : FileTables} {mem' : Memory}
    (hr : readFile image t file fd mem buffer n = .ok (r, t', mem')) :
    t' = t ∨ t' = t.advance d r := by
  rw [readFile_eq ho] at hr
  split at hr
  · cases hr
    exact Or.inl rfl
  · cases hraw : readRawData image (t.fcb f).clusterIndex mem buffer (t.desc d).position n with
    | error e =>
      rw [hraw] at hr
      cases hr
    | ok x =>
      rw [hraw] at hr
      cases hr
      exact Or.inr rfl

theorem PositionsInside.advance (h : PositionsInside image volume t) (hf : (t.desc d).fcb = some f)
    (hfit : (t.desc d).position.toNat + n.toNat ≤ (t.fcb f).fileSize.toNat) :
    PositionsInside image volume (t.advance d n) := by
  have hvol := (h.wellFormed d f hf).volume_lt
  have hfile := (h.wellFormed d f hf).file_inside
  refine ⟨fun e g hg => ?_, fun e g hg => ?_⟩
  · rw [advance_desc_fcb] at hg
    exact h.wellFormed e g hg
  · rw [advance_desc_fcb] at hg
    rw [advance_desc, advance_fcb]
    split
    · rename_i hed
      subst hed
      obtain rfl : f = g := Option.some.inj (hf.symm.trans hg)
      show ((t.desc e).position + n).toNat ≤ _
      rw [BitVec.toNat_add, Nat.mod_eq_of_lt (by omega)]
      exact hfit
    · exact h.inside e g hg

theorem PositionsInside.step {s s' : FileTables × Memory} {c : ReadCall}
    (h : PositionsInside image volume s.1) (hc : CallChecked image s.1 c)
    (hstep : ReadStep image s c s') : PositionsInside image volume s'.1 := by
  obtain ⟨r, hr⟩ := hstep
  -- a call that returns found an open descriptor
  obtain ⟨d, f, ho⟩ : ∃ d f, OpenAt s.1 c.file c.fd d f := by
    rw [readFile] at hr
    obtain ⟨d, hd, hr⟩ := bind_eq_ok.mp hr
    obtain ⟨f, hf, -⟩ := bind_eq_ok.mp hr
    refine ⟨d, f, ?_, ?_⟩
    · cases hslot : c.file c.fd <;> simp_all [deref]
    · cases hfcb : (s.1.desc d).fcb <;> simp_all [deref]
  have hwf := h.wellFormed d f ho.fcb
  have hp := h.inside d f ho.fcb
  obtain ⟨hfail, hread⟩ : EofExact image s.1 c.file c.fd d f s.2 c.buffer c.size :=
    (hc d f ho).exact ho hwf hp
  rcases Nat.lt_or_ge (s.1.fcb f).fileSize.toNat
    ((s.1.desc d).position.toNat + c.size.toNat) with hgt | hle
  · rw [hfail.mpr hgt] at hr
    cases hr
    exact h
  · obtain ⟨t', mem', hok⟩ := hread hle
    rw [hok] at hr
    cases hr
    rcases readFile_tables ho hok with rfl | rfl
    · exact h
    · exact h.advance ho.fcb hle

/-- **The end-of-file check.** On a well-formed file, a read does what it is to do
about the end of the file exactly when the sum of the check does not wrap around
and the read is not an empty one at an end mark. In every sequence of such reads, by
any processes from any descriptors, all positions stay inside their files. -/
theorem read_file_eof_iff (image : Memory) (volume : Nat) (t : FileTables) (mem : Memory) :
    (∀ file fd d f buffer n, OpenAt t file fd d f →
      WellFormedFile image (t.fcb f).clusterIndex (t.fcb f).fileSize volume →
      (t.desc d).position.toNat ≤ (t.fcb f).fileSize.toNat →
      (EofExact image t file fd d f mem buffer n ↔ EofChecked image t d f n)) ∧
    (PositionsInside image volume t → ∀ calls s, Run (ReadStep image) (t, mem) calls s →
      EveryStep (ReadStep image) (t, mem) calls (fun s c => CallChecked image s.1 c) →
      Always (ReadStep image) (t, mem) calls (fun s => PositionsInside image volume s.1)) := by
  refine ⟨fun file fd d f buffer n ho hwf hp =>
    ⟨fun he => he.checked ho hwf hp, fun hc => hc.exact ho hwf hp⟩, fun h0 calls s _ hc => ?_⟩
  exact Run.always (P := fun s => PositionsInside image volume s.1)
    (fun s c s' hs hcall hstep => hs.step hcall hstep) h0 hc

/-- At the end of a file of one byte, an empty read and one of a byte too many. -/
theorem eof_tiny_file :
    EofExact tinyImage (tinyTables 1 1) (fun _ => some 0) 3 0 0 (fun _ => 0) 0x400000 0 ∧
    EofExact tinyImage (tinyTables 1 1) (fun _ => some 0) 3 0 0 (fun _ => 0) 0x400000 1 := by
  have hwf := tinyImage_wellFormed (show (1 : U32).toNat ≤ 512 by decide)
  have hchecked : ∀ n : U32, n.toNat ≤ 1 → EofChecked tinyImage (tinyTables 1 1) 0 0 n := by
    intro n hn
    refine ⟨?_, fun hmark => ?_⟩
    · show 1 + n.toNat < 2 ^ 32
      omega
    · -- the file does not fill its cluster
      exact absurd hmark.2.2.2.1 (by decide +kernel)
  have heof := (read_file_eof_iff tinyImage 4096 (tinyTables 1 1) (fun _ => 0)).1
    (fun _ => some 0) 3 0 0 0x400000
  exact ⟨(heof 0 (tinyTables_openAt 1 1) hwf le_rfl).mpr (hchecked 0 (by decide)),
    (heof 1 (tinyTables_openAt 1 1) hwf le_rfl).mpr (hchecked 1 (by decide))⟩

/-- At the end of a file of one byte, a read of `0xffffffff` bytes: the sum is 0, the
whole size is copied out of the one cluster, and the position goes back by one. -/
theorem eof_check_wraps :
    WellFormedFile tinyImage 2 1 4096 ∧
    OpenAt (tinyTables 1 1) (fun _ => some 0) 3 0 0 ∧
    (∃ t' mem', readFile tinyImage (tinyTables 1 1) (fun _ => some 0) 3 (fun _ => 0) 0x400000
      0xffffffff = .ok (0xffffffff, t', mem') ∧ (t'.desc 0).position = 0) ∧
    ¬ EofExact tinyImage (tinyTables 1 1) (fun _ => some 0) 3 0 0 (fun _ => 0) 0x400000
      0xffffffff := by
  have hwf := tinyImage_wellFormed (show (1 : U32).toNat ≤ 512 by decide)
  refine ⟨hwf, tinyTables_openAt 1 1, ?_, fun he => ?_⟩
  · have hrun : (readFile tinyImage (tinyTables 1 1) (fun _ => some 0) 3 (fun _ => 0) 0x400000
        0xffffffff).toOption.map (fun x => (x.1, (x.2.1.desc 0).position)) =
          some (0xffffffff, 0) := by decide +kernel
    cases hread : readFile tinyImage (tinyTables 1 1) (fun _ => some 0) 3 (fun _ => 0) 0x400000
        0xffffffff with
    | error e =>
      rw [hread] at hrun
      cases hrun
    | ok x =>
      rw [hread] at hrun
      obtain ⟨hret, hposition⟩ := Prod.mk.inj (Option.some.inj hrun)
      exact ⟨x.2.1, x.2.2, by rw [← hret], hposition⟩
  · have hchecked := he.checked (tinyTables_openAt 1 1) hwf le_rfl
    exact absurd hchecked.1 (by decide)

end TinyMultiCore
