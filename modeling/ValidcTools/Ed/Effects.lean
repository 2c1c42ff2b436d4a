import ValidcTools.Ed.Execute

/-! What the operations of `ed` leave when they return: the loops over the array of lines in closed
form, and one lemma for each operation. -/
namespace ValidcTools.Ed
open Outcome

/-! ## Lists of lines -/

def insertedAt (lines : List Line) (pos : ℕ) (new : List Line) : List Line :=
  lines.take pos ++ new ++ lines.drop pos

/-- The lines without the `k` from `start` on. -/
def without (lines : List Line) (start k : ℕ) : List Line :=
  lines.take start ++ lines.drop (start + k)

/-- The `k` lines from `start` on stand at `pos` of the others. -/
def movedTo (lines : List Line) (start k pos : ℕ) : List Line :=
  insertedAt (without lines start k) pos ((lines.drop start).take k)

/-- New lines with the texts of old ones. -/
def copies (fresh : ℕ) (lines : List Line) : List Line := newLines fresh (lines.map Line.text)

theorem AddressRange.outside_eq_false_iff {range : AddressRange} {n : ℤ} :
    range.outside n = false ↔ 0 ≤ range.start ∧ 0 ≤ range.stop ∧ range.start < n ∧ range.stop < n := by
  unfold AddressRange.outside
  rw [decide_eq_false_iff_not]
  omega

theorem getElem?_insertedAt {lines new : List Line} {pos : ℕ} (h : pos ≤ lines.length) (j : ℕ) :
    (insertedAt lines pos new)[j]? =
      if j < pos then lines[j]?
      else if j < pos + new.length then new[j - pos]? else lines[j - new.length]? := by
  have htake : (lines.take pos).length = pos := List.length_take_of_le h
  unfold insertedAt
  rw [List.append_assoc, List.getElem?_append, List.getElem?_append, htake]
  split_ifs with h1 h2 h3 h4
  · exact List.getElem?_take_of_lt h1
  · rfl
  · omega
  · omega
  · rw [List.getElem?_drop]
    congr 1
    omega

theorem getElem?_without {lines : List Line} {start k : ℕ} (h : start ≤ lines.length) (j : ℕ) :
    (without lines start k)[j]? = if j < start then lines[j]? else lines[j + k]? := by
  have htake : (lines.take start).length = start := List.length_take_of_le h
  unfold without
  rw [List.getElem?_append, htake]
  split_ifs with h1
  · exact List.getElem?_take_of_lt h1
  · rw [List.getElem?_drop]
    congr 1
    omega

theorem length_without {lines : List Line} {start k : ℕ} (h : start + k ≤ lines.length) :
    (without lines start k).length = lines.length - k := by
  unfold without
  rw [List.length_append, List.length_take, List.length_drop]
  omega

namespace World

/-- `move_range` puts the lines of the range after the line `dest`. -/
theorem moveLines?_eq {lines : List Line} {range : AddressRange} {dest : ℤ} {start k pos : ℕ}
    (hrange : start + k ≤ lines.length) (hs : range.start = start) (hk : range.count = k)
    (hpos : adjustedDest range dest + 1 = pos) (hle : pos + k ≤ lines.length) :
    moveLines? lines range dest = some (movedTo lines start k pos) := by
  have hturns1 : ((lines.length : ℤ) - range.count - range.start).toNat = lines.length - k - start := by
    omega
  have hturns2 : ((lines.length : ℤ) - range.count - 1 - adjustedDest range dest).toNat =
      lines.length - k - pos := by
    omega
  obtain ⟨a1, ha1, hlen1, hget1⟩ := Cells.assign_down (a := lines) (fun i => i) (fun i => i + range.count)
    (k := k) (s := start) (fun _ => rfl) (fun _ => by rw [hk]) (lines.length - k - start) (by omega)
  obtain ⟨a2, ha2, hlen2, hget2⟩ := Cells.assign_up (a := a1) (fun i => i + range.count) (fun i => i)
    (k := k) (c := 0) pos (fun _ => by rw [hk]; ring) (fun _ => by ring) (lines.length - k - pos)
    (i := (lines.length : ℤ) - range.count - 1) (by omega) (by omega)
  have hmoved : ((lines.drop start).take k).length = k := by
    rw [List.length_take, List.length_drop]
    omega
  obtain ⟨a3, ha3, hlen3, hget3⟩ := Cells.setAll_eq (a := a2) (i := pos) ((lines.drop start).take k)
    (by omega)
  have hcount : range.count.toNat = k := by omega
  unfold moveLines?
  dsimp only
  rw [hcount, hturns1, hturns2, hs, Cells.getAll_eq k hrange, Option.bind_some, ha1, Option.bind_some, ha2,
    Option.bind_some, hpos, ha3]
  congr 1
  refine List.ext_getElem? fun j => ?_
  have hwithout := length_without hrange
  unfold movedTo
  rw [hget3, hmoved, getElem?_insertedAt (by omega), hmoved]
  by_cases hj1 : j < pos
  · rw [if_neg (by omega), if_pos hj1, getElem?_without (by omega), hget2, if_neg (by omega), hget1]
    split_ifs with h1 h2 h3
    · omega
    · rfl
    · rfl
    · omega
  · by_cases hj2 : j < pos + k
    · rw [if_pos ⟨not_lt.mp hj1, hj2⟩, if_neg hj1, if_pos hj2]
    · rw [if_neg (by omega), if_neg hj1, if_neg hj2, getElem?_without (by omega), hget2]
      by_cases hj3 : j < lines.length
      · rw [if_pos (by omega), hget1]
        split_ifs with h1 h2 h3
        · omega
        · rfl
        · rfl
        · omega
      · rw [if_neg (by omega), List.getElem?_eq_none (by omega), if_neg (by omega),
          List.getElem?_eq_none (by omega)]

theorem setAll_eq_none {lines new : List Line} {pos : ℕ} (hne : new ≠ [])
    (h : lines.length < pos + new.length) : Cells.setAll lines pos new = none := by
  induction new generalizing lines pos with
  | nil => exact absurd rfl hne
  | cons x new ih =>
    unfold Cells.setAll
    cases hset : Cells.set? lines pos x with
    | none => rfl
    | some lines' =>
      have hlen := Cells.length_of_set? hset
      rw [Option.bind_some]
      by_cases hnew : new = []
      · have hpos : ¬ ((pos : ℤ) < 0 ∨ (lines.length : ℤ) ≤ pos) := by
          intro hout
          rw [Cells.set?_eq_none_iff.mpr hout] at hset
          cases hset
        subst hnew
        simp only [List.length_singleton] at h
        omega
      · have hrec := @ih lines' (pos + 1) hnew (by rw [hlen]; simp at h; omega)
        exact_mod_cast hrec

/-- The second loop of `copy_range`, when it reads cells that it does not write. -/
theorem copyLoop_eq {range : AddressRange} {dest : ℤ} {start pos k : ℕ} (fresh : ℕ) (old : List Line)
    (hs : range.start = start) (hk : range.count = k) (hpos : dest + 1 = pos)
    (n : ℕ) {i : ℕ} {a : List Line} (hlen : pos + i + n ≤ a.length)
    (hin : i + n ≤ k) (hold : start + i + n ≤ old.length)
    (hlow : ∀ j, j < pos → a[j]? = old[j]?) (hhigh : ∀ j, pos + k ≤ j → a[j]? = old[j - k]?) :
    ∃ a', copyLoop range dest fresh n i a = some a' ∧ a'.length = a.length ∧
      ∀ j, a'[j]? = if pos + i ≤ j ∧ j < pos + i + n then
        old[start + (j - pos)]?.map fun l => ⟨l.text, fresh + (j - pos)⟩ else a[j]? := by
  induction n generalizing i a with
  | zero =>
    refine ⟨a, rfl, rfl, fun j => ?_⟩
    rw [if_neg (by omega)]
  | succ n ih =>
    have hsrc : ∃ l, old[start + i]? = some l ∧ Cells.get? a
        (if range.start + i > dest then range.start + i + range.count else range.start + i) = some l := by
      have hlt : start + i < old.length := by omega
      refine ⟨old[start + i], List.getElem?_eq_getElem hlt, ?_⟩
      split_ifs with hgt
      · have hidx : range.start + i + range.count = ((start + i + k : ℕ) : ℤ) := by
          push_cast
          omega
        rw [hidx, Cells.get?_natCast, hhigh _ (by omega), Nat.add_sub_cancel, List.getElem?_eq_getElem hlt]
      · have hidx : range.start + i = ((start + i : ℕ) : ℤ) := by
          push_cast
          omega
        rw [hidx, Cells.get?_natCast, hlow _ (by omega), List.getElem?_eq_getElem hlt]
    obtain ⟨l, hl, hget⟩ := hsrc
    have hdst : dest + 1 + i = ((pos + i : ℕ) : ℤ) := by
      push_cast
      omega
    have hset := Cells.set?_natCast (a := a) (i := pos + i) (by omega) (⟨l.text, fresh + i⟩ : Line)
    obtain ⟨a', ha', hlen', hget'⟩ := ih (i := i + 1) (a := a.set (pos + i) ⟨l.text, fresh + i⟩)
      (by rw [List.length_set]; omega) (by omega) (by omega)
      (fun j hj => by rw [List.getElem?_set_ne (by omega)]; exact hlow j hj)
      (fun j hj => by rw [List.getElem?_set_ne (by omega)]; exact hhigh j hj)
    refine ⟨a', ?_, ?_, fun j => ?_⟩
    · unfold copyLoop
      dsimp only
      rw [hget, Option.bind_some, hdst, hset, Option.bind_some, ha']
    · rw [hlen', List.length_set]
    · rw [hget']
      by_cases hj : j = pos + i
      · subst hj
        rw [if_neg (by omega), if_pos (by omega), List.getElem?_set_self (by omega),
          Nat.add_sub_cancel_left, hl, Option.map_some]
      · rw [List.getElem?_set_ne (by omega)]
        split_ifs with h1 h2 h3
        · rfl
        · omega
        · omega
        · rfl

/-- A loop that runs to its end has written every cell that it means to write. -/
theorem length_of_copyLoop {range : AddressRange} {dest : ℤ} {fresh n i : ℕ} {a a' : List Line}
    (h : copyLoop range dest fresh n i a = some a') (hn : n ≠ 0) : dest + i + n < a.length := by
  induction n generalizing i a with
  | zero => exact absurd rfl hn
  | succ n ih =>
    unfold copyLoop at h
    obtain ⟨l, -, h⟩ := Option.bind_eq_some_iff.mp h
    obtain ⟨a1, hset, h⟩ := Option.bind_eq_some_iff.mp h
    have hlen := Cells.length_of_set? hset
    have hin : ¬ (dest + 1 + i < 0 ∨ (a.length : ℤ) ≤ dest + 1 + i) := by
      intro hout
      rw [Cells.set?_eq_none_iff.mpr hout] at hset
      cases hset
    by_cases hn0 : n = 0
    · subst hn0
      push_cast
      omega
    · have hrec := ih h hn0
      push_cast at hrec ⊢
      omega

theorem getElem?_copies (fresh : ℕ) (lines : List Line) (j : ℕ) :
    (copies fresh lines)[j]? = lines[j]?.map fun l => ⟨l.text, fresh + j⟩ := by
  unfold copies newLines
  rw [List.getElem?_map, List.getElem?_zipIdx, List.getElem?_map]
  cases lines[j]? <;> simp

@[simp] theorem length_copies (fresh : ℕ) (lines : List Line) :
    (copies fresh lines).length = lines.length := by
  simp [copies]

theorem resize_natCast (lines : List Line) (k : ℕ) :
    resize lines k = lines ++ List.replicate k (⟨.lit "", 0⟩ : Line) := by
  unfold resize
  rw [Int.toNat_natCast]
  exact List.take_of_length_le (by simp; omega)

/-- `copy_range` inserts copies of the range after the line `dest`. -/
theorem copyLines?_eq {lines : List Line} {range : AddressRange} {dest : ℤ} {start k pos : ℕ}
    (hrange : start + k ≤ lines.length) (hs : range.start = start) (hk : range.count = k)
    (hpos : dest + 1 = pos) (hle : pos ≤ lines.length) (fresh : ℕ) :
    copyLines? lines range dest fresh =
      some (insertedAt lines pos (copies fresh ((lines.drop start).take k))) := by
  have hres : (lines ++ List.replicate k (⟨.lit "", 0⟩ : Line)).length = lines.length + k := by simp
  obtain ⟨a1, ha1, hlen1, hget1⟩ := Cells.assign_up (a := lines ++ List.replicate k (⟨.lit "", 0⟩ : Line))
    (fun i => i + range.count) (fun i => i) (k := k) (c := 0) pos (fun _ => by rw [hk]; ring)
    (fun _ => by ring) (lines.length - pos) (i := (lines.length : ℤ) - 1) (by omega) (by omega)
  have hturns : ((lines.length : ℤ) - 1 - dest).toNat = lines.length - pos := by omega
  have hcount : range.count.toNat = k := by omega
  obtain ⟨a2, ha2, hlen2, hget2⟩ := copyLoop_eq fresh lines hs hk hpos k (i := 0) (a := a1)
    (by omega) (by omega) (by omega)
    (fun j hj => by
      rw [hget1, if_neg (by omega), List.getElem?_append_left (by omega)])
    (fun j hj => by
      rw [hget1]
      by_cases hj2 : j < lines.length + k
      · rw [if_pos (by omega), List.getElem?_append_left (by omega)]
      · rw [if_neg (by omega), List.getElem?_eq_none (by omega), List.getElem?_eq_none (by omega)])
  have hcopies : (copies fresh ((lines.drop start).take k)).length = k := by
    rw [length_copies, List.length_take, List.length_drop]
    omega
  unfold copyLines?
  dsimp only
  rw [hcount, hk, resize_natCast, hturns]
  rw [hk] at ha1
  rw [ha1, Option.bind_some, ha2]
  congr 1
  refine List.ext_getElem? fun j => ?_
  rw [hget2, getElem?_insertedAt hle, hcopies, hget1]
  by_cases hj1 : j < pos
  · rw [if_neg (by omega), if_neg (by omega), if_pos hj1, List.getElem?_append_left (by omega)]
  · by_cases hj2 : j < pos + k
    · rw [if_pos (by omega), if_neg hj1, if_pos hj2, getElem?_copies, List.getElem?_take_of_lt (by omega),
        List.getElem?_drop]
    · rw [if_neg (by omega), if_neg hj1, if_neg hj2]
      by_cases hj3 : j < lines.length + k
      · rw [if_pos (by omega), List.getElem?_append_left (by omega)]
      · rw [if_neg (by omega), List.getElem?_eq_none (by omega), List.getElem?_eq_none (by omega)]

theorem insertedAt_nil (lines : List Line) (pos : ℕ) : insertedAt lines pos [] = lines := by
  simp [insertedAt]

theorem without_zero (lines : List Line) (start : ℕ) : without lines start 0 = lines := by
  simp [without]

/-- What `copy_range` has in its array, if it gets there: a reversed range can only drop lines at the
end. -/
theorem copyLines?_some {lines lines' : List Line} {range : AddressRange} {dest : ℤ} {fresh : ℕ}
    (hrange : range.outside lines.length = false) (h0 : 0 ≤ dest) (hn : dest ≤ lines.length)
    (h : copyLines? lines range dest fresh = some lines') :
    (0 ≤ range.count ∧ (dest < lines.length ∨ range.count = 0) ∧
        lines' = insertedAt lines (dest + 1).toNat
          (copies fresh ((lines.drop range.start.toNat).take range.count.toNat))) ∨
      (range.count < 0 ∧ lines.length ≤ dest + 1 ∧ lines' = lines.take (lines.length + range.count).toNat) := by
  obtain ⟨hs0, hstop0, hs, hstop⟩ := AddressRange.outside_eq_false_iff.mp hrange
  have hcount : range.count = range.stop - range.start + 1 := rfl
  by_cases hneg : range.count < 0
  · right
    have hres : resize lines range.count = lines.take (lines.length + range.count).toNat := by
      unfold resize
      rw [Int.toNat_eq_zero.mpr hneg.le, List.replicate_zero, List.append_nil]
    unfold copyLines? at h
    dsimp only at h
    rw [hres, Int.toNat_eq_zero.mpr hneg.le] at h
    by_cases hdest : lines.length ≤ dest + 1
    · rw [Int.toNat_eq_zero.mpr (by omega), Cells.assign, Option.bind_some, copyLoop] at h
      exact ⟨hneg, hdest, (Option.some.inj h).symm⟩
    · exfalso
      obtain ⟨n, hturns⟩ : ∃ n, ((lines.length : ℤ) - 1 - dest).toNat = n + 1 :=
        ⟨((lines.length : ℤ) - 2 - dest).toNat, by omega⟩
      rw [hturns, Cells.assign] at h
      have hnone : Cells.get? (lines.take (lines.length + range.count).toNat) ((lines.length : ℤ) - 1) =
          none := by
        rw [Cells.get?_eq_none_iff, List.length_take]
        omega
      rw [hnone] at h
      cases h
  · left
    refine ⟨not_lt.mp hneg, ?_⟩
    by_cases hzero : range.count = 0
    · refine ⟨Or.inr hzero, ?_⟩
      by_cases hdest : dest < lines.length
      · have hhere : dest + 1 = (dest + 1).toNat := by omega
        have heq : copyLines? lines range dest fresh =
            some (insertedAt lines (dest + 1).toNat (copies fresh ((lines.drop range.start.toNat).take 0))) :=
          copyLines?_eq (k := 0) (by omega) (by omega) hzero hhere (by omega) fresh
        rw [h] at heq
        rw [hzero]
        exact Option.some.inj heq
      · unfold copyLines? at h
        dsimp only at h
        rw [Int.toNat_eq_zero.mpr (by omega), Cells.assign, Option.bind_some, hzero, Int.toNat_zero,
          copyLoop] at h
        rw [← Option.some.inj h, hzero, Int.toNat_zero, List.take_zero]
        have hcopies : copies fresh [] = [] := rfl
        have hres := resize_natCast lines 0
        rw [hcopies, insertedAt_nil]
        simpa using hres
    · have hdest : dest < lines.length := by
        unfold copyLines? at h
        obtain ⟨a1, hassign, hloop⟩ := Option.bind_eq_some_iff.mp h
        have hlen := length_of_copyLoop hloop (by omega)
        have hlen1 := Cells.length_of_assign hassign
        have hcast : range.count = (range.count.toNat : ℤ) := by omega
        rw [hlen1, hcast, resize_natCast, List.length_append, List.length_replicate] at hlen
        push_cast at hlen
        omega
      have hhere : dest + 1 = (dest + 1).toNat := by omega
      have heq : copyLines? lines range dest fresh = some (insertedAt lines (dest + 1).toNat
          (copies fresh ((lines.drop range.start.toNat).take range.count.toNat))) :=
        copyLines?_eq (by omega) (by omega) (by omega) hhere (by omega) fresh
      rw [h] at heq
      exact ⟨Or.inl hdest, Option.some.inj heq⟩

/-- What `move_range` has in its array, if it gets there. -/
theorem moveLines?_some {lines lines' : List Line} {range : AddressRange} {dest : ℤ}
    (hrange : range.outside lines.length = false) (hcount : 0 ≤ range.count) (h0 : 0 ≤ dest)
    (hn : dest ≤ lines.length) (hdest : ¬ (range.start ≤ dest ∧ dest ≤ range.stop))
    (h : moveLines? lines range dest = some lines') :
    (dest < lines.length ∨ range.count = 0) ∧
      lines' = movedTo lines range.start.toNat range.count.toNat (adjustedDest range dest + 1).toNat := by
  obtain ⟨hs0, hstop0, hs, hstop⟩ := AddressRange.outside_eq_false_iff.mp hrange
  have hk : range.count = range.stop - range.start + 1 := rfl
  have hadj : adjustedDest range dest = if dest > range.stop then dest - range.count else dest := rfl
  have hpos : 0 ≤ adjustedDest range dest + 1 := by
    rw [hadj]
    split_ifs <;> omega
  by_cases hend : dest < lines.length
  · refine ⟨Or.inl hend, ?_⟩
    have hle : (adjustedDest range dest + 1).toNat + range.count.toNat ≤ lines.length := by
      rw [hadj]
      split_ifs <;> omega
    have heq : moveLines? lines range dest =
        some (movedTo lines range.start.toNat range.count.toNat (adjustedDest range dest + 1).toNat) :=
      moveLines?_eq (by omega) (by omega) (by omega) (by omega) hle
    rw [h] at heq
    exact Option.some.inj heq
  · have hdest' : adjustedDest range dest = lines.length - range.count := by
      rw [hadj, if_pos (by omega)]
      omega
    obtain ⟨a1, ha1, hlen1, hget1⟩ := Cells.assign_down (a := lines) (fun i => i)
      (fun i => i + range.count) (k := range.count.toNat) (s := range.start.toNat) (fun _ => rfl)
      (fun _ => by omega) ((lines.length : ℤ) - range.count - range.start).toNat (by omega)
    have hstart : ((range.start.toNat : ℕ) : ℤ) = range.start := by omega
    rw [hstart] at ha1
    have hmoved := Cells.getAll_eq (a := lines) range.count.toNat (i := range.start.toNat) (by omega)
    rw [hstart] at hmoved
    have hlast : (lines.length : ℤ) - range.count + 1 = ((lines.length - range.count.toNat + 1 : ℕ) : ℤ) := by
      omega
    unfold moveLines? at h
    dsimp only at h
    rw [hmoved, Option.bind_some, ha1, Option.bind_some, hdest', Int.toNat_eq_zero.mpr (by omega), Cells.assign,
      Option.bind_some, hlast] at h
    by_cases hzero : range.count = 0
    · refine ⟨Or.inr hzero, ?_⟩
      have ha1' : a1 = lines := by
        refine List.ext_getElem? fun j => ?_
        rw [hget1, hzero, Int.toNat_zero, Nat.add_zero, ite_self]
      rw [hzero, Int.toNat_zero, List.take_zero, Cells.setAll] at h
      rw [← Option.some.inj h, ha1', hzero, Int.toNat_zero, movedTo, List.take_zero, insertedAt_nil,
        without_zero]
    · have hnone : Cells.setAll a1 ((lines.length - range.count.toNat + 1 : ℕ) : ℤ)
          ((lines.drop range.start.toNat).take range.count.toNat) = none := setAll_eq_none
        (by rw [← List.length_pos_iff, List.length_take, List.length_drop]; omega)
        (by rw [hlen1, List.length_take, List.length_drop]; omega)
      rw [hnone] at h
      cases h

/-! ## The operations -/

theorem withLines_eq_running {r : Option (List Line)} {f : List Line → Outcome} {w' : World}
    (h : withLines r f = running w') : ∃ lines, r = some lines ∧ f lines = running w' := by
  cases r with
  | none => cases h
  | some lines => exact ⟨lines, rfl, h⟩

section

variable {w w' : World} {range : AddressRange} {addr : ℤ}

theorem insertAll?_some {lines lines' new : List Line} {pos : ℤ} (h0 : 0 ≤ pos)
    (h : Cells.insertAll? lines pos new = some lines') :
    (new = [] ∧ lines' = lines) ∨
      (new ≠ [] ∧ pos ≤ lines.length ∧ lines' = insertedAt lines pos.toNat new) := by
  cases new with
  | nil => exact Or.inl ⟨rfl, (Option.some.inj h).symm⟩
  | cons x new =>
    right
    have hle : pos ≤ lines.length := by
      by_contra hgt
      rw [Cells.insertAll?_eq_none (not_le.mp hgt)] at h
      cases h
    have hcast : ((pos.toNat : ℕ) : ℤ) = pos := Int.toNat_of_nonneg h0
    have heq : Cells.insertAll? lines (pos.toNat : ℕ) (x :: new) =
        some (insertedAt lines pos.toNat (x :: new)) :=
      Cells.insertAll?_eq (by omega) (x :: new)
    rw [hcast, h] at heq
    exact ⟨List.cons_ne_nil x new, hle, Option.some.inj heq⟩

theorem newLines_eq_nil {fresh : ℕ} {texts : List CString} : newLines fresh texts = [] ↔ texts = [] := by
  rw [← List.length_eq_zero_iff, length_newLines, List.length_eq_zero_iff]

theorem appendLine_eq (w : World) (addr : ℤ) : w.appendLine addr =
    withLines (Cells.insertAll? w.ed.lines (addr + 1) (newLines w.fresh w.readText.1)) fun lines =>
      if w.readText.1 = [] then
        running { w.prepareUndo.readText.2 with ed := { w.prepareUndo.ed with
          currentLine :=
            if 0 < w.ed.numLines ∧ addr + 1 < w.ed.numLines then addr + 1
            else if 0 < w.ed.numLines then addr
            else w.ed.currentLine } }
      else
        running { w.prepareUndo.readText.2 with
          ed := { w.prepareUndo.ed with
            lines
            currentLine := addr + w.readText.1.length
            dirty := true
            marks := updateMarksAfterInsert w.ed.marks (addr + 1) w.readText.1.length }
          fresh := w.fresh + w.readText.1.length } :=
  rfl

theorem insertLine_eq (w : World) (addr : ℤ) : w.insertLine addr =
    withLines (Cells.insertAll? w.ed.lines addr (newLines w.fresh w.readText.1)) fun lines =>
      if w.readText.1 = [] then running (w.prepareUndo.readText.2.setCurrent addr)
      else
        running { w.prepareUndo.readText.2 with
          ed := { w.prepareUndo.ed with
            lines
            currentLine := addr + w.readText.1.length - 1
            dirty := true
            marks := updateMarksAfterInsert w.ed.marks addr w.readText.1.length }
          fresh := w.fresh + w.readText.1.length } :=
  rfl

theorem appendLine_running (h0 : -1 ≤ addr) (h : w.appendLine addr = running w') :
    (w.readText.1 = [] ∧ w' = { w.prepareUndo.readText.2 with ed := { w.prepareUndo.ed with
        currentLine :=
          if 0 < w.ed.numLines ∧ addr + 1 < w.ed.numLines then addr + 1
          else if 0 < w.ed.numLines then addr
          else w.ed.currentLine } }) ∨
      (w.readText.1 ≠ [] ∧ addr < w.ed.numLines ∧ w' = { w.prepareUndo.readText.2 with
        ed := { w.prepareUndo.ed with
          lines := insertedAt w.ed.lines (addr + 1).toNat (newLines w.fresh w.readText.1)
          currentLine := addr + w.readText.1.length
          dirty := true
          marks := updateMarksAfterInsert w.ed.marks (addr + 1) w.readText.1.length }
        fresh := w.fresh + w.readText.1.length }) := by
  rw [appendLine_eq] at h
  obtain ⟨lines, hins, h⟩ := withLines_eq_running h
  have hcases := insertAll?_some (by omega) hins
  rw [newLines_eq_nil] at hcases
  by_cases htexts : w.readText.1 = []
  · left
    rw [if_pos htexts] at h
    exact ⟨htexts, (Outcome.running.inj h).symm⟩
  · right
    rw [if_neg htexts] at h
    rcases hcases with ⟨hnil, -⟩ | ⟨-, hle, hlines⟩
    · exact absurd hnil htexts
    · have hlt : addr < w.ed.numLines := Int.lt_of_add_one_le hle
      rw [hlines] at h
      exact ⟨htexts, hlt, (Outcome.running.inj h).symm⟩

theorem insertLine_running (h0 : 0 ≤ addr) (h : w.insertLine addr = running w') :
    (w.readText.1 = [] ∧ w' = w.prepareUndo.readText.2.setCurrent addr) ∨
      (w.readText.1 ≠ [] ∧ addr ≤ w.ed.numLines ∧ w' = { w.prepareUndo.readText.2 with
        ed := { w.prepareUndo.ed with
          lines := insertedAt w.ed.lines addr.toNat (newLines w.fresh w.readText.1)
          currentLine := addr + w.readText.1.length - 1
          dirty := true
          marks := updateMarksAfterInsert w.ed.marks addr w.readText.1.length }
        fresh := w.fresh + w.readText.1.length }) := by
  rw [insertLine_eq] at h
  obtain ⟨lines, hins, h⟩ := withLines_eq_running h
  have hcases := insertAll?_some h0 hins
  rw [newLines_eq_nil] at hcases
  by_cases htexts : w.readText.1 = []
  · left
    rw [if_pos htexts] at h
    exact ⟨htexts, (Outcome.running.inj h).symm⟩
  · right
    rw [if_neg htexts] at h
    rcases hcases with ⟨hnil, -⟩ | ⟨-, hle, hlines⟩
    · exact absurd hnil htexts
    · rw [hlines] at h
      exact ⟨htexts, hle, (Outcome.running.inj h).symm⟩

theorem deleteRange_running (h : w.deleteRange range = running w') :
    (range.outside w.ed.numLines = true ∧ w' = w.prepareUndo.setError .invalidAddress) ∨
      (range.outside w.ed.numLines = false ∧ 0 ≤ range.count ∧
        ∃ lines, lines = without w.ed.lines range.start.toNat range.count.toNat ∧
          w' = { w.prepareUndo with ed := { w.prepareUndo.ed with
            lines
            currentLine :=
              if lines = [] then -1
              else if range.start < lines.length then range.start
              else lines.length - 1
            dirty := true
            marks := updateMarksAfterDelete w.ed.marks range.start range.count } }) := by
  unfold deleteRange at h
  dsimp only at h
  split_ifs at h with hout
  · exact Or.inl ⟨hout, (Outcome.running.inj h).symm⟩
  · right
    have hin : range.outside w.ed.numLines = false := Bool.eq_false_of_not_eq_true hout
    obtain ⟨hs0, hstop0, hs, hstop⟩ := AddressRange.outside_eq_false_iff.mp hin
    have hk : range.count = range.stop - range.start + 1 := rfl
    have hn : w.ed.numLines = w.ed.lines.length := rfl
    have hstart : ((range.start.toNat : ℕ) : ℤ) = range.start := Int.toNat_of_nonneg hs0
    obtain ⟨lines, hrem, h⟩ := withLines_eq_running h
    have hcount : 0 ≤ range.count := by
      by_contra hneg
      have hnone : Cells.remove? w.ed.lines (range.start.toNat : ℕ) range.count = none :=
        Cells.remove?_eq_none (not_le.mp hneg) (by omega)
      rw [hstart] at hnone
      rw [show w.prepareUndo.ed.lines = w.ed.lines from rfl, hnone] at hrem
      cases hrem
    have hremove : Cells.remove? w.ed.lines (range.start.toNat : ℕ) (range.count.toNat : ℕ) =
        some (without w.ed.lines range.start.toNat range.count.toNat) :=
      Cells.remove?_eq (by omega)
    rw [hstart, Int.toNat_of_nonneg hcount] at hremove
    exact ⟨hin, hcount, lines, Option.some.inj (hrem.symm.trans hremove), (Outcome.running.inj h).symm⟩

theorem moveRange_running (h : w.moveRange range addr = running w') :
    (∃ m, w' = w.prepareUndo.setError m) ∨
      (range.outside w.ed.numLines = false ∧ 0 ≤ range.count ∧ 0 ≤ addr ∧
        (addr < w.ed.numLines ∨ addr = w.ed.numLines ∧ range.count = 0) ∧
        ¬ (range.start ≤ addr ∧ addr ≤ range.stop) ∧
        w' = { w.prepareUndo with ed := { w.prepareUndo.ed with
          lines := movedTo w.ed.lines range.start.toNat range.count.toNat (adjustedDest range addr + 1).toNat
          currentLine := adjustedDest range addr + range.count
          dirty := true
          marks := moveMarks w.ed.marks range addr } }) := by
  unfold moveRange at h
  dsimp only at h
  split_ifs at h with hout hdest hself hneg
  · exact Or.inl ⟨_, (Outcome.running.inj h).symm⟩
  · exact Or.inl ⟨_, (Outcome.running.inj h).symm⟩
  · exact Or.inl ⟨_, (Outcome.running.inj h).symm⟩
  · right
    have hin : range.outside w.ed.numLines = false := Bool.eq_false_of_not_eq_true hout
    have hn : w.prepareUndo.ed.numLines = w.ed.numLines := rfl
    rw [hn] at hdest
    obtain ⟨lines, hmove, h⟩ := withLines_eq_running h
    have hin' : range.outside w.ed.lines.length = false := hin
    have hlen : w.ed.numLines = w.ed.lines.length := rfl
    obtain ⟨hend, hlines⟩ := moveLines?_some hin' (not_lt.mp hneg) (by omega) (by omega) hself hmove
    rw [hlines] at h
    refine ⟨hin, not_lt.mp hneg, by omega, ?_, hself, (Outcome.running.inj h).symm⟩
    have hle : addr ≤ w.ed.numLines := by omega
    rcases hend with hlt | hzero
    · exact Or.inl hlt
    · exact hle.lt_or_eq.imp_right fun heq => ⟨heq, hzero⟩

theorem copyRange_running (h : w.copyRange range addr = running w') :
    ((range.outside w.ed.numLines = true ∨ addr < 0 ∨ w.ed.numLines < addr) ∧
        w' = w.prepareUndo.setError .invalidAddress) ∨
      (range.outside w.ed.numLines = false ∧ 0 ≤ addr ∧
        ∃ lines,
          (0 ≤ range.count ∧ (addr < w.ed.numLines ∨ addr = w.ed.numLines ∧ range.count = 0) ∧
              lines = insertedAt w.ed.lines (addr + 1).toNat
                (copies w.fresh ((w.ed.lines.drop range.start.toNat).take range.count.toNat)) ∨
            range.count < 0 ∧ w.ed.numLines ≤ addr + 1 ∧ addr ≤ w.ed.numLines ∧
              lines = w.ed.lines.take (w.ed.numLines + range.count).toNat) ∧
          w' = { w.prepareUndo with
            ed := { w.prepareUndo.ed with
              lines
              currentLine := addr + range.count
              dirty := true
              marks := updateMarksAfterInsert w.ed.marks (addr + 1) range.count }
            fresh := w.fresh + range.count.toNat }) := by
  unfold copyRange at h
  dsimp only at h
  split_ifs at h with hout hdest
  · exact Or.inl ⟨Or.inl hout, (Outcome.running.inj h).symm⟩
  · exact Or.inl ⟨Or.inr hdest, (Outcome.running.inj h).symm⟩
  · right
    have hin : range.outside w.ed.numLines = false := Bool.eq_false_of_not_eq_true hout
    have hn : w.prepareUndo.ed.numLines = w.ed.numLines := rfl
    have hlen : w.ed.numLines = w.ed.lines.length := rfl
    rw [hn] at hdest
    obtain ⟨lines, hcopy, h⟩ := withLines_eq_running h
    have hin' : range.outside w.ed.lines.length = false := hin
    have hcases := copyLines?_some hin' (by omega) (by omega) hcopy
    refine ⟨hin, by omega, lines, ?_, (Outcome.running.inj h).symm⟩
    rcases hcases with ⟨hcount, hend, hlines⟩ | ⟨hneg, hend, hlines⟩
    · refine Or.inl ⟨hcount, ?_, hlines⟩
      have hle : addr ≤ w.ed.numLines := by omega
      rcases hend with hlt | hzero
      · exact Or.inl hlt
      · exact hle.lt_or_eq.imp_right fun heq => ⟨heq, hzero⟩
    · exact Or.inr ⟨hneg, hend, by omega, hlines⟩

theorem joinRange_running (h : w.joinRange range = running w') :
    (range.outside w.ed.numLines = true ∧ w' = w.prepareUndo.setError .invalidAddress) ∨
      (range.outside w.ed.numLines = false ∧ range.start = range.stop ∧
        w' = w.prepareUndo.setCurrent range.start) ∨
      (range.outside w.ed.numLines = false ∧ range.start < range.stop ∧
        ∃ first, w.ed.lines[range.start.toNat]? = some first ∧
          w' = { w.prepareUndo with ed := { w.prepareUndo.ed with
            lines := without (w.ed.lines.set range.start.toNat (joined (w.linesOf range) first.id))
              (range.start.toNat + 1) (range.stop - range.start).toNat
            currentLine := range.start
            dirty := true } }) := by
  unfold joinRange at h
  dsimp only at h
  split_ifs at h with hout heq
  · exact Or.inl ⟨hout, (Outcome.running.inj h).symm⟩
  · have hin : range.outside w.ed.numLines = false := Bool.eq_false_of_not_eq_true hout
    exact Or.inr (Or.inl ⟨hin, heq, (Outcome.running.inj h).symm⟩)
  · have hin : range.outside w.ed.numLines = false := Bool.eq_false_of_not_eq_true hout
    obtain ⟨hs0, hstop0, hs, hstop⟩ := AddressRange.outside_eq_false_iff.mp hin
    have hn : w.ed.numLines = w.ed.lines.length := rfl
    have hstart : ((range.start.toNat : ℕ) : ℤ) = range.start := Int.toNat_of_nonneg hs0
    obtain ⟨lines, hjoin, h⟩ := withLines_eq_running h
    obtain ⟨first, hfirst, hjoin⟩ := Option.bind_eq_some_iff.mp hjoin
    obtain ⟨lines1, hset, hrem⟩ := Option.bind_eq_some_iff.mp hjoin
    rw [← hstart, Cells.get?_natCast] at hfirst
    rw [← hstart, Cells.set?_natCast (a := w.prepareUndo.ed.lines) (by
      have : w.prepareUndo.ed.lines = w.ed.lines := rfl
      rw [this]
      omega)] at hset
    obtain rfl := Option.some.inj hset
    have hlen : (w.prepareUndo.ed.lines.set range.start.toNat
        (joined (w.prepareUndo.linesOf range) first.id)).length = w.ed.lines.length :=
      List.length_set
    have hlt : range.start < range.stop := by
      by_contra hge
      have hnone : Cells.remove? (w.prepareUndo.ed.lines.set range.start.toNat
          (joined (w.prepareUndo.linesOf range) first.id)) ((range.start.toNat + 1 : ℕ) : ℤ)
          (range.stop - range.start) = none :=
        Cells.remove?_eq_none (by omega) (by rw [hlen]; omega)
      rw [Nat.cast_add, Nat.cast_one, hstart, hrem] at hnone
      cases hnone
    have hremove : Cells.remove? (w.prepareUndo.ed.lines.set range.start.toNat
          (joined (w.prepareUndo.linesOf range) first.id)) ((range.start.toNat + 1 : ℕ) : ℤ)
          ((range.stop - range.start).toNat : ℕ) =
        some (without (w.prepareUndo.ed.lines.set range.start.toNat
          (joined (w.prepareUndo.linesOf range) first.id)) (range.start.toNat + 1)
          (range.stop - range.start).toNat) :=
      Cells.remove?_eq (by rw [hlen]; omega)
    rw [Nat.cast_add, Nat.cast_one, hstart, Int.toNat_of_nonneg (by omega), hrem] at hremove
    obtain rfl := Option.some.inj hremove
    exact Or.inr (Or.inr ⟨hin, hlt, first, hfirst, (Outcome.running.inj h).symm⟩)

theorem changeRange_running (h : w.changeRange range = running w') :
    (range.outside w.ed.numLines = true ∧ w' = w.prepareUndo.setError .invalidAddress) ∨
      (range.outside w.ed.numLines = false ∧ ∃ w1, w.deleteRange range = running w1 ∧
        w1.insertLine (max (min range.start w1.ed.numLines) 0) = running w') := by
  unfold changeRange at h
  dsimp only at h
  split_ifs at h with hout
  · exact Or.inl ⟨hout, (Outcome.running.inj h).symm⟩
  · obtain ⟨w1, hdelete, hinsert⟩ := bind_eq_running h
    exact Or.inr ⟨Bool.eq_false_of_not_eq_true hout, w1, hdelete, hinsert⟩

theorem set_of_getElem? {α : Type*} {l : List α} {i : ℕ} {x : α} (h : l[i]? = some x) : l.set i x = l := by
  obtain ⟨hi, rfl⟩ := List.getElem?_eq_some_iff.mp h
  exact List.set_getElem_self hi

theorem ids_of_set? {lines lines' : List Line} {j : ℤ} {l : Line} {text : CString}
    (hget : Cells.get? lines j = some l) (hset : Cells.set? lines j ⟨text, l.id⟩ = some lines') :
    lines'.map Line.id = lines.map Line.id := by
  have hin : ¬ (j < 0 ∨ (lines.length : ℤ) ≤ j) := by
    intro hout
    rw [Cells.get?_eq_none_iff.mpr hout] at hget
    cases hget
  obtain ⟨i, rfl⟩ := Int.eq_ofNat_of_zero_le (by omega : 0 ≤ j)
  rw [Cells.get?_natCast] at hget
  rw [Cells.set?_natCast (by omega)] at hset
  rw [← Option.some.inj hset, List.map_set]
  apply set_of_getElem?
  rw [List.getElem?_map, hget, Option.map_some]

/-- The loop keeps every line in its place and changes nothing but texts. -/
theorem substituteLoop_running {line : CString → Substituted} {stop : ℤ} {n : ℕ} {j : ℤ}
    {anyChanged : Bool} (h : substituteLoop line stop n j anyChanged w = running w') :
    (anyChanged = false ∧ w' = w.setError .noMatch) ∨
      ∃ lines, lines.map Line.id = w.ed.ids ∧
        w' = { w with ed := { w.ed with lines, currentLine := stop, dirty := true } } := by
  induction n generalizing j anyChanged w with
  | zero =>
    unfold substituteLoop at h
    split_ifs at h with hchanged
    · exact Or.inr ⟨w.ed.lines, rfl, (Outcome.running.inj h).symm⟩
    · exact Or.inl ⟨Bool.eq_false_of_not_eq_true hchanged, (Outcome.running.inj h).symm⟩
  | succ n ih =>
    unfold substituteLoop at h
    cases hget : Cells.get? w.ed.lines j with
    | none =>
      rw [hget] at h
      cases h
    | some l =>
      simp only [hget] at h
      cases hline : line l.text with
      | unchanged =>
        rw [hline] at h
        exact ih h
      | changed text =>
        simp only [hline] at h
        obtain ⟨lines, hset, h⟩ := withLines_eq_running h
        have hids : lines.map Line.id = w.ed.ids := ids_of_set? hget hset
        rcases ih h with ⟨hfalse, -⟩ | ⟨lines', hlines', rfl⟩
        · cases hfalse
        · exact Or.inr ⟨lines', hlines'.trans hids, rfl⟩
      | critical =>
        rw [hline] at h
        cases h
      | undefined =>
        rw [hline] at h
        cases h
      | outOfFuel =>
        rw [hline] at h
        cases h

theorem substituteRange_running {fuel : ℕ} {pattern replacement : CString} {global : Bool}
    (h : w.substituteRange fuel range pattern replacement global = running w') :
    (∃ m, w' = w.prepareUndo.setError m) ∨
      (range.outside w.ed.numLines = false ∧ ∃ lines, lines.map Line.id = w.ed.ids ∧
        w' = { w.prepareUndo with ed := { w.prepareUndo.ed with
          lines
          currentLine := range.stop
          dirty := true } }) := by
  unfold substituteRange at h
  dsimp only at h
  split_ifs at h with hout hglobal
  · exact Or.inl ⟨_, (Outcome.running.inj h).symm⟩
  · have hin : range.outside w.ed.numLines = false := Bool.eq_false_of_not_eq_true hout
    exact (substituteLoop_running h).imp (fun hno => ⟨_, hno.2⟩) fun hyes => ⟨hin, hyes⟩
  · have hin : range.outside w.ed.numLines = false := Bool.eq_false_of_not_eq_true hout
    exact (substituteLoop_running h).imp (fun hno => ⟨_, hno.2⟩) fun hyes => ⟨hin, hyes⟩

theorem undo_running (h : w.undo = running w') :
    (w.ed.undoValid = false ∧ w' = w.setError .nothingToUndo) ∨
      (w.ed.undoValid = true ∧ w' = { w with ed := { w.ed with
        lines := w.ed.undoLines
        currentLine := w.ed.undoCurrentLine
        undoLines := []
        undoCurrentLine := 0
        undoValid := false
        dirty := true } }) := by
  unfold undo at h
  split_ifs at h with hvalid
  · exact Or.inl ⟨hvalid, (Outcome.running.inj h).symm⟩
  · exact Or.inr ⟨Bool.eq_true_of_not_eq_false hvalid, (Outcome.running.inj h).symm⟩

theorem readFileAtAddress_eq (w : World) (addr : ℤ) (filename : CString) :
    w.readFileAtAddress addr filename =
      match w.files.content filename with
      | none => running (w.prepareUndo.setError .cannotOpenFile)
      | some bytes =>
        withLines (Cells.insertAll? w.ed.lines (addr + 1)
            (newLines w.fresh ((fileLines bytes).map Prod.fst))) fun lines =>
          running ((if 0 < byteCount (fileLines bytes) then
              { w.prepareUndo with
                ed := { w.prepareUndo.ed with
                  lines
                  currentLine := addr + (fileLines bytes).length
                  dirty := true
                  marks := updateMarksAfterInsert w.ed.marks (addr + 1) (fileLines bytes).length }
                fresh := w.fresh + (fileLines bytes).length }
            else
              { w.prepareUndo with
                ed := { w.prepareUndo.ed with lines }
                fresh := w.fresh + (fileLines bytes).length }).print
            (decimalBytes (byteCount (fileLines bytes)) ++ newline)) := by
  unfold readFileAtAddress
  cases hcontent : w.files.content filename with
  | none =>
    have hcontent' : w.prepareUndo.files.content filename = none := hcontent
    simp only [hcontent']
  | some bytes =>
    have hcontent' : w.prepareUndo.files.content filename = some bytes := hcontent
    simp only [hcontent']
    rfl

theorem readFileAtAddress_running {filename : CString} (h0 : -1 ≤ addr)
    (h : w.readFileAtAddress addr filename = running w') :
    (w.files.content filename = none ∧ w' = w.prepareUndo.setError .cannotOpenFile) ∨
      ∃ bytes, w.files.content filename = some bytes ∧
        (fileLines bytes ≠ [] → addr < w.ed.numLines) ∧
        ∃ lines, lines = insertedAt w.ed.lines (addr + 1).toNat
            (newLines w.fresh ((fileLines bytes).map Prod.fst)) ∧
          w' = (if 0 < byteCount (fileLines bytes) then
              { w.prepareUndo with
                ed := { w.prepareUndo.ed with
                  lines
                  currentLine := addr + (fileLines bytes).length
                  dirty := true
                  marks := updateMarksAfterInsert w.ed.marks (addr + 1) (fileLines bytes).length }
                fresh := w.fresh + (fileLines bytes).length }
            else
              { w.prepareUndo with
                ed := { w.prepareUndo.ed with lines }
                fresh := w.fresh + (fileLines bytes).length }).print
            (decimalBytes (byteCount (fileLines bytes)) ++ newline) := by
  rw [readFileAtAddress_eq] at h
  cases hcontent : w.files.content filename with
  | none =>
    simp only [hcontent] at h
    exact Or.inl ⟨rfl, (Outcome.running.inj h).symm⟩
  | some bytes =>
    right
    simp only [hcontent] at h
    obtain ⟨lines, hins, h⟩ := withLines_eq_running h
    refine ⟨bytes, rfl, ?_, lines, ?_, (Outcome.running.inj h).symm⟩
    · intro hne
      rcases insertAll?_some (by omega) hins with ⟨hnil, -⟩ | ⟨-, hle, -⟩
      · rw [newLines_eq_nil, List.map_eq_nil_iff] at hnil
        exact absurd hnil hne
      · exact Int.lt_of_add_one_le hle
    · rcases insertAll?_some (by omega) hins with ⟨hnil, hlines⟩ | ⟨-, -, hlines⟩
      · rw [hnil, insertedAt_nil, hlines]
      · exact hlines

theorem loadFile_running {filename : CString} (h : w.loadFile filename = running w') :
    (w.files.content filename = none ∧ w' = w.setError .cannotOpenFile) ∨
      ∃ bytes, w.files.content filename = some bytes ∧
        ∃ lines out, lines = w.ed.lines ++ newLines w.fresh ((fileLines bytes).map Prod.fst) ∧
          w' = { w with
            ed := { w.ed with lines, currentLine := lines.length - 1, filename := some filename }
            fresh := w.fresh + (fileLines bytes).length
            log := w.log ++ [.print out, .loaded (lines.map Line.text)] } := by
  unfold loadFile at h
  cases hcontent : w.files.content filename with
  | none =>
    simp only [hcontent] at h
    exact Or.inl ⟨rfl, (Outcome.running.inj h).symm⟩
  | some bytes =>
    simp only [hcontent] at h
    refine Or.inr ⟨bytes, rfl, _, decimalBytes (byteCount (fileLines bytes)) ++ newline, rfl, ?_⟩
    rw [← Outcome.running.inj h]
    simp [record, print, Editor.texts]

theorem forcedEditFile_running {filename : Option CString}
    (h : w.forcedEditFile filename = running w') :
    ∃ name, filename = some name ∧ { w with ed := {} }.loadFile name = running w' := by
  cases filename with
  | none => cases h
  | some name => exact ⟨name, rfl, h⟩

theorem editFile_running {filename : Option CString} (h : w.editFile filename = running w') :
    (w.ed.dirty = true ∧ w' = w.setError .bufferModified) ∨
      (w.ed.dirty = false ∧ w.forcedEditFile filename = running w') := by
  unfold editFile at h
  split_ifs at h with hdirty
  · exact Or.inl ⟨hdirty, (Outcome.running.inj h).symm⟩
  · exact Or.inr ⟨Bool.eq_false_of_not_eq_true hdirty, h⟩

theorem writeFile_running {filename : Option CString} (h : w.writeFile filename = running w') :
    (∃ m, w' = w.setError m) ∨
      ∃ files name out, w' = { w with
        ed := { w.ed with dirty := false, filename := name }
        files
        log := w.log ++ [.print out, .saved w.ed.texts] } := by
  unfold writeFile at h
  dsimp only at h
  split at h
  · exact Or.inl ⟨_, (Outcome.running.inj h).symm⟩
  · rename_i target htarget
    split_ifs at h
    · exact Or.inl ⟨_, (Outcome.running.inj h).symm⟩
    · refine Or.inr ⟨w.files.write target (fileBytes w.ed.texts),
        (filename.filter fun f => decide (f.bytes ≠ [])).or w.ed.filename,
        decimalBytes (fileBytes w.ed.texts).length ++ newline, ?_⟩
      rw [← Outcome.running.inj h]
      simp only [record, print, List.append_assoc, List.cons_append, List.nil_append]

theorem printWith_running {render : ℕ × CString → List Byte} (h : printWith render range w = running w') :
    w' = w.setError .invalidAddress ∨ ∃ out, w' = (w.print out).setCurrent range.stop := by
  unfold printWith at h
  dsimp only at h
  split_ifs at h
  · exact Or.inl (Outcome.running.inj h).symm
  · exact Or.inr ⟨_, (Outcome.running.inj h).symm⟩

theorem writeAppendFile_running {filename : CString} (h : w.writeAppendFile range filename = running w') :
    (∃ m, w' = w.setError m) ∨ ∃ files out, w' = { w with files }.print out := by
  unfold writeAppendFile at h
  dsimp only at h
  split_ifs at h
  · exact Or.inl ⟨_, (Outcome.running.inj h).symm⟩
  · exact Or.inl ⟨_, (Outcome.running.inj h).symm⟩
  · exact Or.inl ⟨_, (Outcome.running.inj h).symm⟩
  · exact Or.inr ⟨_, _, (Outcome.running.inj h).symm⟩

end

end World

end ValidcTools.Ed
