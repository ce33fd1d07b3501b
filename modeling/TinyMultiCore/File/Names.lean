import Mathlib.Data.List.DropRight
import TinyMultiCore.File.Descriptors

/-!
# Looking up a name

A path is a C string: `StringAt path i cs` says that the characters `cs` and a NUL are there
from `i` on. The two loops of `split_path` share an index; what one of them takes is the
longest part that it may, up to its limit (`splitPart_eq_some`).

* `splitPath_eq_some` — the paths that `split_path` accepts, with what it makes of them;
* `search_file_finds` — `search_file` finds the first entry of the name that the path gives,
  reads no byte behind its NUL, and finds every entry again by its rendered name.
-/

namespace TinyMultiCore

open ByteMemory

variable {image : Memory} {path : Nat → BitVec 8} {cs b e rest part : List (BitVec 8)} {i j n : Nat}

-- ---------------------------------------------------------------------------
-- C strings
-- ---------------------------------------------------------------------------

/-- The characters `cs` from `i` on, with a NUL behind them. -/
def StringAt (path : Nat → BitVec 8) : Nat → List (BitVec 8) → Prop
  | i, [] => path i = 0
  | i, c :: cs => path i = c ∧ c ≠ 0 ∧ StringAt path (i + 1) cs

namespace StringAt

theorem head_eq (h : StringAt path i cs) : path i = cs.headD 0 := by
  cases cs with
  | nil => exact h
  | cons c cs => exact h.1

theorem headD_eq_zero (h : StringAt path i cs) : cs.headD 0 = 0 ↔ cs = [] := by
  cases cs with
  | nil => simp
  | cons c cs => simpa using h.2.1

theorem of_append : ∀ {a : List (BitVec 8)} {i : Nat},
    StringAt path i (a ++ rest) → StringAt path (i + a.length) rest
  | [], _, h => h
  | c :: a, i, h => by
    have := of_append h.2.2
    rwa [Nat.add_right_comm, Nat.add_assoc] at this

theorem ne_zero : ∀ {cs : List (BitVec 8)} {i : Nat}, StringAt path i cs → ∀ c ∈ cs, c ≠ 0
  | d :: cs, i, h, c, hc => by
    rcases List.mem_cons.mp hc with rfl | hc
    · exact h.2.1
    · exact ne_zero h.2.2 c hc

/-- The byte at a distance, the NUL included. -/
theorem get_eq : ∀ {cs : List (BitVec 8)} {i k : Nat}, StringAt path i cs → k ≤ cs.length →
    (cs ++ [0])[k]? = some (path (i + k))
  | [], i, k, h, hk => by
    obtain rfl : k = 0 := by simpa using hk
    simp [show path i = 0 from h]
  | c :: cs, i, 0, h, _ => by simp [show path i = c from h.1]
  | c :: cs, i, k + 1, h, hk => by
    have := get_eq h.2.2 (show k ≤ cs.length by simpa using hk)
    rw [List.cons_append, List.getElem?_cons_succ, this, Nat.add_right_comm, Nat.add_assoc]

/-- The bytes of a list without a NUL, and zeros behind them. -/
theorem getD (hcs : ∀ c ∈ cs, c ≠ 0) : StringAt (fun k => cs.getD k 0) 0 cs := by
  suffices h : ∀ (a : List (BitVec 8)) (cs : List (BitVec 8)), (∀ c ∈ cs, c ≠ 0) →
      StringAt (fun k => (a ++ cs).getD k 0) a.length cs from h [] cs hcs
  intro a cs
  induction cs generalizing a with
  | nil => simp [StringAt]
  | cons c cs ih =>
    intro hcs
    refine ⟨by simp, hcs c List.mem_cons_self, ?_⟩
    have := ih (a ++ [c]) fun d hd => hcs d (List.mem_cons_of_mem _ hd)
    simpa using this

end StringAt

-- ---------------------------------------------------------------------------
-- The parts of a path
-- ---------------------------------------------------------------------------

/-- What a loop of `split_path` takes: nothing that stops it, no slash, and then its limit is
reached or something stops it. -/
theorem splitPart_eq_some (stop : BitVec 8 → Prop) [DecidablePred stop] (h0 : stop 0) :
    ∀ {n i j : Nat} {cs part : List (BitVec 8)},
    StringAt path i cs → (splitPart path stop n i = some (j, part) ↔
      ∃ rest, cs = part ++ rest ∧ j = i + part.length ∧ part.length ≤ n ∧
        (∀ c ∈ part, ¬stop c ∧ c ≠ 0x2f) ∧ (part.length = n ∨ stop (rest.headD 0)))
  | 0, i, j, cs, part, h => by
    rw [splitPart, Option.some_inj, Prod.mk.injEq]
    constructor
    · rintro ⟨rfl, rfl⟩
      exact ⟨cs, rfl, rfl, le_rfl, by simp, Or.inl rfl⟩
    · rintro ⟨rest, rfl, rfl, hlen, -, -⟩
      obtain rfl := List.eq_nil_of_length_eq_zero (Nat.le_zero.mp hlen)
      exact ⟨rfl, rfl⟩
  | n + 1, i, j, cs, part, h => by
    rw [splitPart, h.head_eq]
    by_cases hstop : stop (cs.headD 0)
    · rw [if_pos hstop, Option.some_inj, Prod.mk.injEq]
      constructor
      · rintro ⟨rfl, rfl⟩
        exact ⟨cs, rfl, rfl, Nat.zero_le _, by simp, Or.inr hstop⟩
      · rintro ⟨rest, rfl, rfl, -, hpart, -⟩
        cases part with
        | nil => exact ⟨rfl, rfl⟩
        | cons c part => exact absurd hstop (hpart c List.mem_cons_self).1
    · rw [if_neg hstop]
      -- the end of the string stops the loop
      cases cs with
      | nil => exact absurd h0 hstop
      | cons c cs =>
        rw [List.headD_cons] at hstop ⊢
        by_cases hslash : c = 0x2f
        · rw [if_pos hslash]
          refine iff_of_false (by simp) ?_
          rintro ⟨rest, hcs, -, -, hpart, hend⟩
          cases part with
          | nil =>
            rw [List.nil_append] at hcs
            rw [← hcs] at hend
            exact hend.elim (by simp) hstop
          | cons d part =>
            obtain ⟨rfl, -⟩ := List.cons_eq_cons.mp hcs
            exact (hpart c List.mem_cons_self).2 hslash
        · rw [if_neg hslash]
          constructor
          · intro hsome
            obtain ⟨⟨j', part'⟩, hrest, he⟩ := Option.bind_eq_some_iff.mp hsome
            cases he
            obtain ⟨rest, rfl, rfl, hlen, hpart, hend⟩ := (splitPart_eq_some stop h0 h.2.2).mp hrest
            refine ⟨rest, rfl, by simp; omega, by simpa using hlen, fun d hd => ?_,
              hend.imp (by simp) id⟩
            rcases List.mem_cons.mp hd with rfl | hd
            · exact ⟨hstop, hslash⟩
            · exact hpart d hd
          · rintro ⟨rest, hcs, rfl, hlen, hpart, hend⟩
            cases part with
            | nil =>
              rw [List.nil_append] at hcs
              rw [← hcs] at hend
              exact absurd hend (not_or.mpr ⟨by simp, hstop⟩)
            | cons d part =>
              obtain ⟨rfl, rfl⟩ := List.cons_eq_cons.mp hcs
              refine Option.bind_eq_some_iff.mpr ⟨(i + 1 + part.length, part), ?_, ?_⟩
              · refine (splitPart_eq_some stop h0 h.2.2).mpr ⟨rest, rfl, rfl, by simpa using hlen,
                  fun x hx => hpart x (List.mem_cons_of_mem _ hx), hend.imp (by simp) id⟩
              · simp
                omega

/-- The path is `b`, or `b.e`. -/
structure PathNames (cs b e : List (BitVec 8)) : Prop where
  name : b.length ≤ 8 ∧ ∀ c ∈ b, c ≠ 0x2e ∧ c ≠ 0x2f
  ext : e.length ≤ 3 ∧ ∀ c ∈ e, c ≠ 0x2f
  path : cs = b ∧ e = [] ∨ cs = b ++ 0x2e :: e

/-- The characters before the first dot, up to eight. -/
theorem splitName_eq_some (h : StringAt path 0 cs) :
    splitPart path (fun c => c = 0x2e ∨ c = 0) 8 0 = some (j, b) ↔
      ∃ rest, cs = b ++ rest ∧ j = b.length ∧ b.length ≤ 8 ∧ (∀ c ∈ b, c ≠ 0x2e ∧ c ≠ 0x2f) ∧
        (b.length = 8 ∨ rest.headD 0 = 0x2e ∨ rest = []) := by
  rw [splitPart_eq_some _ (Or.inr rfl) h]
  refine exists_congr fun rest => and_congr_right ?_
  rintro rfl
  have hrest := h.of_append.headD_eq_zero
  have hb : ∀ c ∈ b, c ≠ 0 := fun c hc => h.ne_zero c (List.mem_append_left _ hc)
  rw [Nat.zero_add, hrest]
  refine and_congr_right fun _ => and_congr_right fun _ => and_congr_left fun _ => ?_
  refine forall₂_congr fun c hc => ?_
  rw [not_or]
  exact and_congr_left fun _ => and_iff_left (hb c hc)

/-- The characters behind the dot, up to three. -/
theorem splitExt_eq_some (h : StringAt path i cs) :
    splitPart path (fun c => c = 0) 3 i = some (j, e) ↔
      ∃ rest, cs = e ++ rest ∧ j = i + e.length ∧ e.length ≤ 3 ∧ (∀ c ∈ e, c ≠ 0x2f) ∧
        (e.length = 3 ∨ rest = []) := by
  rw [splitPart_eq_some (fun c => c = 0) rfl h]
  refine exists_congr fun rest => and_congr_right ?_
  rintro rfl
  rw [h.of_append.headD_eq_zero]
  refine and_congr_right fun _ => and_congr_right fun _ => and_congr_left fun _ => ?_
  exact forall₂_congr fun c hc => and_iff_right (h.ne_zero c (List.mem_append_left _ hc))

/-- What `split_path` does behind the name. -/
theorem splitPath_eq (h : splitPart path (fun c => c = 0x2e ∨ c = 0) 8 0 = some (i, b)) :
    splitPath path = if path i = 0x2e then
        (splitPart path (fun c => c = 0) 3 (i + 1)).bind fun (k, e) =>
          if path k = 0 then some (padded 8 b, padded 3 e) else none
      else if path i = 0 then some (padded 8 b, padded 3 []) else none := by
  rw [splitPath, h]
  simp only [Option.bind_eq_bind, Option.bind_some]
  split
  · refine congrArg _ (funext fun ⟨k, e⟩ => ?_)
    simp only [ite_not]
  · simp only [ite_not]

/-- **`split_path`** accepts the paths of the form `b` and `b.e`. The base has to end at a dot or at the
NUL within eight characters, and behind a dot the NUL has to follow within three. -/
theorem splitPath_eq_some (h : StringAt path 0 cs) {x y : List (BitVec 8)} :
    splitPath path = some (x, y) ↔ ∃ b e, PathNames cs b e ∧ x = padded 8 b ∧ y = padded 3 e := by
  constructor
  · intro hsome
    cases hname : splitPart path (fun c => c = 0x2e ∨ c = 0) 8 0 with
    | none =>
      rw [splitPath, hname] at hsome
      cases hsome
    | some ib =>
      obtain ⟨i, b⟩ := ib
      rw [splitPath_eq hname] at hsome
      obtain ⟨rest, rfl, rfl, hlen, hb, hend⟩ := (splitName_eq_some h).mp hname
      have hrest : StringAt path b.length rest := by simpa using h.of_append
      split at hsome
      · -- a dot
        rename_i hdot
        obtain ⟨⟨k, e⟩, hext, hsome⟩ := Option.bind_eq_some_iff.mp hsome
        obtain ⟨hnul, he⟩ := Option.ite_none_right_eq_some.mp hsome
        cases he
        cases rest with
        | nil => exact absurd (hrest.symm.trans hdot) (by decide)
        | cons c rest =>
          obtain rfl : c = 0x2e := hrest.1.symm.trans hdot
          obtain ⟨rest', rfl, rfl, hlen', he, -⟩ := (splitExt_eq_some hrest.2.2).mp hext
          have hlast := hrest.2.2.of_append
          rw [hlast.head_eq, hlast.headD_eq_zero] at hnul
          subst hnul
          exact ⟨b, e, ⟨⟨hlen, hb⟩, ⟨hlen', he⟩, Or.inr (by simp)⟩, rfl, rfl⟩
      · obtain ⟨hnul, he⟩ := Option.ite_none_right_eq_some.mp hsome
        cases he
        rw [hrest.head_eq, hrest.headD_eq_zero] at hnul
        subst hnul
        exact ⟨b, [], ⟨⟨hlen, hb⟩, ⟨by simp, by simp⟩, Or.inl ⟨by simp, rfl⟩⟩, rfl, rfl⟩
  · rintro ⟨b, e, ⟨⟨hlen, hb⟩, ⟨hlen', he⟩, ⟨rfl, rfl⟩ | rfl⟩, rfl, rfl⟩
    · have hname := (splitName_eq_some h (j := cs.length) (b := cs)).mpr
        ⟨[], by simp, rfl, hlen, hb, Or.inr (Or.inr rfl)⟩
      have hend : StringAt path (0 + cs.length) [] := StringAt.of_append (by simpa using h)
      have hnul : path cs.length = 0 := by rw [← Nat.zero_add cs.length]; exact hend
      rw [splitPath_eq hname, if_neg (by rw [hnul]; decide), if_pos hnul]
    · have hname := (splitName_eq_some h (j := b.length) (b := b)).mpr
        ⟨0x2e :: e, rfl, rfl, hlen, hb, Or.inr (Or.inl rfl)⟩
      have hrest : StringAt path b.length (0x2e :: e) := by simpa using h.of_append
      have hext := (splitExt_eq_some hrest.2.2).mpr
        ⟨[], (List.append_nil e).symm, rfl, hlen', he, Or.inr rfl⟩
      have hend : StringAt path (b.length + 1 + e.length) [] :=
        StringAt.of_append (by simpa using hrest.2.2)
      rw [splitPath_eq hname, if_pos hrest.1, hext, Option.bind_some]
      exact if_pos hend

-- ---------------------------------------------------------------------------
-- A path in a buffer
-- ---------------------------------------------------------------------------

/-- `splitPart` on a path in a buffer. A read behind its end faults. -/
def splitPartIn (buffer : List (BitVec 8)) (stop : BitVec 8 → Prop) [DecidablePred stop] :
    Nat → Nat → Except Halt (Option (Nat × List (BitVec 8)))
  | 0, i => .ok (some (i, []))
  | n + 1, i => do
    let c ← deref buffer[i]?
    if stop c then return some (i, [])
    else if c = 0x2f then return none
    else
      let rest ← splitPartIn buffer stop n (i + 1)
      return rest.map fun (j, cs) => (j, c :: cs)

/-- What follows the name, on a path in a buffer. -/
def splitExtIn (buffer name : List (BitVec 8)) (i : Nat) :
    Except Halt (Option (List (BitVec 8) × List (BitVec 8))) := do
  let c ← deref buffer[i]?
  let part ← if c = 0x2e then splitPartIn buffer (fun c => c = 0) 3 (i + 1)
    else .ok (some (i, []))
  match part with
  | none => return none
  | some (k, ext) =>
    let c ← deref buffer[k]?
    return if c = 0 then some (padded 8 name, padded 3 ext) else none

def splitPathIn (buffer : List (BitVec 8)) :
    Except Halt (Option (List (BitVec 8) × List (BitVec 8))) := do
  match ← splitPartIn buffer (fun c => c = 0x2e ∨ c = 0) 8 0 with
  | none => return none
  | some (i, name) => splitExtIn buffer name i

/-- The loop of `search_file`. -/
def searchNames (image : Memory) (name ext : List (BitVec 8)) : Option Nat :=
  scan (fun i =>
    let e := dirEntry image i
    ¬(e.name.headD 0 = entryEmpty ∨ e.name.headD 0 = entryDeleted) ∧ e.attributes ≠ 0xf ∧
      isFileNameEqual e name ext) (getRootDirectoryCount image).toNat 0

theorem searchFile_eq (image : Memory) (path : Nat → BitVec 8) :
    searchFile image path = (splitPath path).bind fun (name, ext) => searchNames image name ext :=
  rfl

def searchFileIn (image : Memory) (buffer : List (BitVec 8)) : Except Halt (Option Nat) := do
  let parts ← splitPathIn buffer
  return parts.bind fun (name, ext) => searchNames image name ext

/-- No loop reads behind the NUL. -/
theorem splitPartIn_eq (h : StringAt path 0 cs) (stop : BitVec 8 → Prop) [DecidablePred stop]
    (h0 : stop 0) : ∀ {n i : Nat} {rest : List (BitVec 8)}, StringAt path i rest →
      i + rest.length = cs.length →
      splitPartIn (cs ++ [0]) stop n i = .ok (splitPart path stop n i)
  | 0, i, rest, _, _ => rfl
  | n + 1, i, rest, hrest, hlen => by
    have hread := h.get_eq (k := i) (by omega)
    rw [Nat.zero_add] at hread
    rw [splitPartIn, hread, splitPart]
    show (if stop (path i) then _ else if path i = 0x2f then _ else _) = _
    by_cases hstop : stop (path i)
    · rw [if_pos hstop, if_pos hstop]
      rfl
    rw [if_neg hstop, if_neg hstop]
    by_cases hslash : path i = 0x2f
    · rw [if_pos hslash, if_pos hslash]
      rfl
    rw [if_neg hslash, if_neg hslash]
    cases rest with
    | nil => exact absurd (hrest ▸ h0 : stop (path i)) hstop
    | cons c rest =>
      rw [splitPartIn_eq h stop h0 hrest.2.2 (by rw [List.length_cons] at hlen; omega)]
      cases splitPart path stop n (i + 1) with
      | none => rfl
      | some x => rfl

/-- Nor does `split_path`. -/
theorem splitPathIn_eq (h : StringAt path 0 cs) : splitPathIn (cs ++ [0]) = .ok (splitPath path) := by
  have hread : ∀ {k : Nat}, k ≤ cs.length → deref (cs ++ [0])[k]? = .ok (path k) := by
    intro k hk
    have := h.get_eq hk
    rw [Nat.zero_add] at this
    rw [this]
    rfl
  rw [splitPathIn, splitPartIn_eq h _ (Or.inr rfl) h (Nat.zero_add _)]
  cases hname : splitPart path (fun c => c = 0x2e ∨ c = 0) 8 0 with
  | none =>
    rw [splitPath, hname]
    rfl
  | some x =>
    obtain ⟨i, b⟩ := x
    obtain ⟨rest, rfl, rfl, -, -, -⟩ := (splitName_eq_some h).mp hname
    have hrest : StringAt path b.length rest := by simpa using h.of_append
    rw [splitPath_eq hname]
    show splitExtIn (b ++ rest ++ [0]) b b.length = _
    rw [splitExtIn, hread (by simp), ok_bind]
    by_cases hdot : path b.length = 0x2e
    · rw [if_pos hdot, if_pos hdot]
      -- the extension is in the string
      cases rest with
      | nil => exact absurd (hrest.symm.trans hdot) (by decide)
      | cons c rest =>
        rw [splitPartIn_eq h (fun c => c = 0) rfl hrest.2.2 (by simp; omega), ok_bind]
        cases hext : splitPart path (fun c => c = 0) 3 (b.length + 1) with
        | none => rfl
        | some y =>
          obtain ⟨k, e⟩ := y
          obtain ⟨rest', rfl, rfl, -⟩ := (splitExt_eq_some hrest.2.2).mp hext
          show (do
            let c ← deref (b ++ c :: (e ++ rest') ++ [0])[b.length + 1 + e.length]?
            return if c = 0 then some (padded 8 b, padded 3 e) else none) = _
          rw [hread (by simp; omega), ok_bind]
          rfl
    · rw [if_neg hdot, if_neg hdot, ok_bind]
      show (do
        let c ← deref (b ++ rest ++ [0])[b.length]?
        return if c = 0 then some (padded 8 b, padded 3 []) else none) = _
      rw [hread (by simp), ok_bind]
      rfl

-- ---------------------------------------------------------------------------
-- Names of entries
-- ---------------------------------------------------------------------------

/-- Neither empty nor deleted, and no part of a long name. -/
def DirEntry.Live (x : DirEntry) : Prop :=
  x.name.headD 0 ≠ entryEmpty ∧ x.name.headD 0 ≠ entryDeleted ∧ x.attributes ≠ 0xf

/-- The entry `i` is live, and has the name that a path gives. -/
def EntryNamed (image : Memory) (b e : List (BitVec 8)) (i : Nat) : Prop :=
  (dirEntry image i).Live ∧ (dirEntry image i).name = padded 8 b ∧
    (dirEntry image i).ext = padded 3 e

/-- The blanks at the end dropped. -/
def trimmed (l : List (BitVec 8)) : List (BitVec 8) := l.rdropWhile (· = 0x20)

/-- The name of an entry as a path: the dot only stands before an extension. -/
def DirEntry.render (x : DirEntry) : List (BitVec 8) :=
  if trimmed x.ext = [] then trimmed x.name else trimmed x.name ++ 0x2e :: trimmed x.ext

/-- The bytes of the name can be part of a path. -/
def DirEntry.Printable (x : DirEntry) : Prop :=
  ∀ c ∈ x.name ++ x.ext, c ≠ 0x2e ∧ c ≠ 0x2f ∧ c ≠ 0

theorem padded_trimmed {l : List (BitVec 8)} (hl : l.length = n) : padded n (trimmed l) = l := by
  have hsplit := List.rdropWhile_append_rtakeWhile (p := fun c : BitVec 8 => decide (c = 0x20)) (l := l)
  have hblank : l.rtakeWhile (fun c => decide (c = 0x20)) =
      List.replicate (n - (trimmed l).length) 0x20 := by
    refine List.eq_replicate_iff.mpr ⟨?_, fun c hc => ?_⟩
    · have := congrArg List.length hsplit
      rw [List.length_append, hl] at this
      unfold trimmed
      omega
    · simpa using List.mem_rtakeWhile_imp hc
  rw [padded, ← hblank]
  exact hsplit

theorem trimmed_sublist (l : List (BitVec 8)) : (trimmed l).Sublist l :=
  (List.rdropWhile_prefix _ _).sublist

theorem searchNames_eq_some : searchNames image (padded 8 b) (padded 3 e) = some i ↔
    i < (getRootDirectoryCount image).toNat ∧ EntryNamed image b e i ∧
      ∀ j < i, ¬EntryNamed image b e j := by
  have hnamed : ∀ j, (¬((dirEntry image j).name.headD 0 = entryEmpty ∨
      (dirEntry image j).name.headD 0 = entryDeleted) ∧ (dirEntry image j).attributes ≠ 0xf ∧
      isFileNameEqual (dirEntry image j) (padded 8 b) (padded 3 e)) ↔ EntryNamed image b e j := by
    intro j
    unfold EntryNamed DirEntry.Live isFileNameEqual
    rw [not_or]
    tauto
  rw [searchNames, scan_eq_some_iff, hnamed, Nat.zero_add]
  simp only [hnamed, Nat.zero_le, true_and, forall_const]

theorem searchFile_eq_some_iff (h : StringAt path 0 cs) : searchFile image path = some i ↔
    ∃ b e, PathNames cs b e ∧ i < (getRootDirectoryCount image).toNat ∧ EntryNamed image b e i ∧
      ∀ j < i, ¬EntryNamed image b e j := by
  rw [searchFile_eq]
  constructor
  · intro hsome
    obtain ⟨⟨x, y⟩, hsplit, hsearch⟩ := Option.bind_eq_some_iff.mp hsome
    obtain ⟨b, e, hnames, rfl, rfl⟩ := (splitPath_eq_some h).mp hsplit
    exact ⟨b, e, hnames, searchNames_eq_some.mp hsearch⟩
  · rintro ⟨b, e, hnames, hfound⟩
    refine Option.bind_eq_some_iff.mpr ⟨(padded 8 b, padded 3 e), ?_, searchNames_eq_some.mpr hfound⟩
    exact (splitPath_eq_some h).mpr ⟨b, e, hnames, rfl, rfl⟩

/-- The rendered name of an entry is a path of its name. -/
theorem DirEntry.render_names {x : DirEntry} (hname : x.name.length = 8) (hext : x.ext.length = 3)
    (h : x.Printable) : PathNames x.render (trimmed x.name) (trimmed x.ext) := by
  refine ⟨⟨?_, fun c hc => ?_⟩, ⟨?_, fun c hc => ?_⟩, ?_⟩
  · exact (trimmed_sublist x.name).length_le.trans hname.le
  · have := h c (List.mem_append_left _ ((trimmed_sublist x.name).mem hc))
    exact ⟨this.1, this.2.1⟩
  · exact (trimmed_sublist x.ext).length_le.trans hext.le
  · exact (h c (List.mem_append_right _ ((trimmed_sublist x.ext).mem hc))).2.1
  · unfold DirEntry.render
    split
    · rename_i hblank
      exact Or.inl ⟨rfl, hblank⟩
    · exact Or.inr rfl

/-- **Name lookup.** For every directory and every path, with characters `cs` up to its NUL:

* `search_file` returns `i` exactly when the path is `b` or `b.e`, with a short enough `b` and
  `e`, and `i` is the first live entry whose name is `b` and `e`, padded with blanks;
* on a buffer that ends behind the NUL it does the same, without reading behind the end;
* if the path is the rendered name of a live entry, and no other live entry has that name, it
  returns that entry. -/
theorem search_file_finds (image : Memory) {path : Nat → BitVec 8} {cs : List (BitVec 8)}
    (h : StringAt path 0 cs) :
    (∀ i, searchFile image path = some i ↔ ∃ b e, PathNames cs b e ∧
      i < (getRootDirectoryCount image).toNat ∧ EntryNamed image b e i ∧
        ∀ j < i, ¬EntryNamed image b e j) ∧
    searchFileIn image (cs ++ [0]) = .ok (searchFile image path) ∧
    ∀ i < (getRootDirectoryCount image).toNat, (dirEntry image i).Live →
      (dirEntry image i).Printable →
      (∀ j < (getRootDirectoryCount image).toNat, (dirEntry image j).Live →
        (dirEntry image j).name = (dirEntry image i).name →
        (dirEntry image j).ext = (dirEntry image i).ext → j = i) →
      cs = (dirEntry image i).render → searchFile image path = some i := by
  refine ⟨fun i => searchFile_eq_some_iff h, ?_, fun i hi hlive hprint hunique hcs => ?_⟩
  · rw [searchFileIn, splitPathIn_eq h]
    rfl
  · have hname : (dirEntry image i).name.length = 8 := by simp [dirEntry, readDirEntry, readBytes]
    have hext : (dirEntry image i).ext.length = 3 := by simp [dirEntry, readDirEntry, readBytes]
    refine (searchFile_eq_some_iff h).mpr ⟨_, _, hcs ▸ DirEntry.render_names hname hext hprint, hi,
      ⟨hlive, (padded_trimmed hname).symm, (padded_trimmed hext).symm⟩, fun j hj hnamed => ?_⟩
    obtain ⟨hlive', hname', hext'⟩ := hnamed
    rw [padded_trimmed hname] at hname'
    rw [padded_trimmed hext] at hext'
    exact absurd (hunique j (hj.trans hi) hlive' hname' hext') hj.ne

/-- A directory with the entries `TEST` and `INIT.BIN`. -/
def namesDisk : Memory := fun x =>
  BitVec.ofNat 8 ((([(12, 2), (14, 1), (17, 2)] ++
    ("TEST       ".toList.mapIdx fun i (c : Char) => (512 + i, c.toNat)) ++
    "INIT    BIN".toList.mapIdx fun i (c : Char) => (544 + i, c.toNat)).lookup
      (x - fsBase).toNat).getD 0)

/-- `INIT.BIN` -/
def initPath : List (BitVec 8) :=
  "INIT.BIN".toList.map fun (c : Char) => BitVec.ofNat 8 c.toNat

/-- The second entry is found by its name. -/
theorem init_found : searchFile namesDisk (fun k => initPath.getD k 0) = some 1 ∧
    searchFileIn namesDisk (initPath ++ [0]) = .ok (some 1) := by
  have hpath : StringAt (fun k => initPath.getD k 0) 0 initPath :=
    StringAt.getD (List.forall_iff_forall_mem.mp (by decide +kernel))
  obtain ⟨-, hread, hentry⟩ := search_file_finds namesDisk hpath
  have hfound : searchFile namesDisk (fun k => initPath.getD k 0) = some 1 := by
    refine hentry 1 (by decide +kernel) ?_ ?_ ?_ (by decide +kernel)
    · exact ⟨by decide +kernel, by decide +kernel, by decide +kernel⟩
    · have hchars : ((dirEntry namesDisk 1).name ++ (dirEntry namesDisk 1).ext).all
          (fun c => c ≠ 0x2e ∧ c ≠ 0x2f ∧ c ≠ 0) = true := by decide +kernel
      intro c hc
      exact of_decide_eq_true (List.all_eq_true.mp hchars c hc)
    · intro j hj _ hname _
      have hcount : (getRootDirectoryCount namesDisk).toNat = 2 := by decide +kernel
      obtain rfl | rfl : j = 0 ∨ j = 1 := by omega
      · exact absurd hname (by decide +kernel)
      · rfl
  exact ⟨hfound, hfound ▸ hread⟩

end TinyMultiCore
