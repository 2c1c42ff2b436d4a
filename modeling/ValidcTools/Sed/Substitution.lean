import ValidcTools.Ed.GlobalSubstitution
import ValidcTools.Sed.Execution

/-! The loop of `do_substitute`, and the replacement of the selected matches that it is meant to be. -/
namespace ValidcTools.Sed
open Bre (BreMatch breMatch copyBytes expandReplacement)
open Ed (successive replaceFrom expansion)

/-! ## The loop -/

/-- `size_t` -/
def sizeT (i : ℤ) : ℕ := (i % 2 ^ 64).toNat

def BRE_OK : ℕ := 0

def BRE_NOMATCH : ℕ := 1

def BRE_ERROR : ℕ := 2

/-- The result code of `bre_match` and what it leaves in `m`; `none` if it reads outside the text. -/
def breResult (text pattern : CString) : Option (ℕ × BreMatch) :=
  match breMatch text pattern with
  | .ok m => some (BRE_OK, m)
  | .noMatch => some (BRE_NOMATCH, {})
  | .stop .error => some (BRE_ERROR, {})
  | .stop _ => none

/-- The variables of the loop -/
structure Scan where
  pos : ℕ
  out : List Byte
  matchCount : ℕ
  didAny : Bool
  numSubs : ℕ

def Scan.init : Scan := ⟨0, [], 0, false, 0⟩

/-- What the loop comes to: the text that is returned with `did_any` and `num_subs`, a copy that leaves a string, or
none of them so far. -/
inductive Scanned
  | text (out : List Byte) (didAny : Bool) (numSubs : ℕ)
  | undefined
  | running
deriving DecidableEq

namespace Scan

/-- The rest of the text is copied, from `pos` on. -/
def copyRest (text : CString) (st : Scan) : Scanned :=
  if st.pos ≤ text.length then .text (st.out ++ text.bytes.drop st.pos) st.didAny st.numSubs else .undefined

/-- `replace_this` -/
def replaceThis (occurrence : ℤ) (matchCount : ℕ) : Bool :=
  if occurrence = -1 then true
  else if occurrence = 0 ∧ matchCount = 1 then true
  else decide (0 < occurrence ∧ (matchCount : ℤ) = occurrence)

/-- A match in the text from `pos` on: what is before it is copied, and its replacement or itself. -/
def takeMatch (text replacement : CString) (occurrence : ℤ) (m : BreMatch) (st : Scan) : Option Scan := do
  let rest : CString := .ofBytes (text.bytes.drop st.pos)
  let before ← copyBytes rest 0 m.start
  let matchCount := st.matchCount + 1
  let replace := replaceThis occurrence matchCount
  let piece ← if replace then expandReplacement rest m replacement.bytes else copyBytes rest m.start m.length
  let mstart := st.pos + m.start.toNat
  let mlen := sizeT m.length
  some { pos := (mstart + if 0 < mlen then mlen else 1) % 2 ^ 64
         out := st.out ++ before ++ piece
         matchCount := matchCount
         didAny := st.didAny || replace
         numSubs := if replace then st.numSubs + 1 else st.numSubs }

end Scan

/-- The loop of `do_substitute`. Its first test takes the result code of `bre_match` for a truth value. -/
def substituteLoop (text pattern replacement : CString) (occurrence : ℤ) : ℕ → Scan → Scanned
  | 0, _ => .running
  | fuel + 1, st =>
    if text.length < st.pos then .text st.out st.didAny st.numSubs
    else
      match breResult (.ofBytes (text.bytes.drop st.pos)) pattern with
      | none => .undefined
      | some (code, m) =>
        if code = 0 ∨ m.start < 0 then st.copyRest text
        else
          match st.takeMatch text replacement occurrence m with
          | none => .undefined
          | some st =>
            if 0 < occurrence ∧ occurrence ≤ st.matchCount then st.copyRest text
            else if occurrence = 0 then st.copyRest text
            else substituteLoop text pattern replacement occurrence fuel st

/-! ## What it is for -/

/-- The flags of `s` that select matches -/
inductive Selector
  | first
  | nth (n : ℕ)
  | all

namespace Selector

/-- `occurrence`, with the matches counted from 1 -/
def occurrence : Selector → ℤ
  | first => 0
  | nth n => n + 1
  | all => -1

def choose {α : Type} : Selector → List α → List α
  | first, l => l.take 1
  | nth n, l => (l.drop n).take 1
  | all, l => l

end Selector

section
variable (text pattern replacement : CString) (sel : Selector)

/-- The text with the selected ones of its successive matches replaced -/
def selectedReplaced : List Byte := replaceFrom text replacement 0 (sel.choose (successive text pattern 0))

/-- The loop ends, and returns the text with the selected matches replaced. -/
def Substitutes : Prop :=
  ∃ fuel₀ didAny numSubs, ∀ fuel, fuel₀ ≤ fuel →
    substituteLoop text pattern replacement sel.occurrence fuel .init =
      .text (selectedReplaced text pattern replacement sel) didAny numSubs

/-- The matcher returns: it reads nothing outside the text. -/
def Returns : Prop := ∀ s, breMatch text pattern = .stop s → s = .error

/-- Replacing makes no difference: the selected match, if there is one, is what takes its place, or all that take the
places of matches give the same text. -/
def MakesNoDifference : Selector → Prop
  | .all => replaceFrom text replacement 0 (successive text pattern 0) = text.bytes
  | sel => ∀ m ∈ sel.choose (successive text pattern 0),
      expansion text replacement m = text.slice m.start.toNat (m.start + m.length).toNat

end

variable {text pattern replacement : CString} {sel : Selector}

/-- Where the matcher returns, the first test of the loop holds. -/
theorem breResult_of_returns (h : Returns text pattern) :
    ∃ code m, breResult text pattern = some (code, m) ∧ (code = 0 ∨ m.start < 0) := by
  unfold breResult
  cases hm : breMatch text pattern with
  | ok m => exact ⟨_, _, rfl, Or.inl rfl⟩
  | noMatch => exact ⟨_, _, rfl, Or.inr (by decide)⟩
  | stop s =>
    obtain rfl := h s hm
    exact ⟨_, _, rfl, Or.inr (by decide)⟩

theorem breResult_eq_none (h : ¬Returns text pattern) : breResult text pattern = none := by
  obtain ⟨s, hs⟩ := not_forall.mp h
  obtain ⟨hs, hne⟩ := Classical.not_imp.mp hs
  unfold breResult
  rw [hs]
  cases s with
  | error => exact absurd rfl hne
  | outOfBounds | outOfFuel | misstep => rfl

theorem ofBytes_bytes (s : CString) : CString.ofBytes s.bytes = s :=
  CString.ext (CString.ofBytes_bytes_of_nulFree s.nulFree)

/-- The loop ends in its first turn, and the text is what it was. -/
theorem substituteLoop_init (h : Returns text pattern) (occurrence : ℤ) (fuel : ℕ) :
    substituteLoop text pattern replacement occurrence (fuel + 1) .init = .text text.bytes false 0 := by
  obtain ⟨code, m, hres, htest⟩ := breResult_of_returns h
  have hpos : ¬text.length < Scan.init.pos := Nat.not_lt_zero _
  have hrest : CString.ofBytes (text.bytes.drop Scan.init.pos) = text := ofBytes_bytes text
  rw [substituteLoop, if_neg hpos, hrest, hres]
  exact (if_pos htest).trans (if_pos (Nat.zero_le _))

theorem substituteLoop_undefined (h : ¬Returns text pattern) (occurrence : ℤ) (fuel : ℕ) :
    substituteLoop text pattern replacement occurrence (fuel + 1) .init = .undefined := by
  have hpos : ¬text.length < Scan.init.pos := Nat.not_lt_zero _
  have hrest : CString.ofBytes (text.bytes.drop Scan.init.pos) = text := ofBytes_bytes text
  rw [substituteLoop, if_neg hpos, hrest, breResult_eq_none h]

/-- The loop is the `do_substitute` that the commands run. -/
theorem substituteLoop_eq_doSubstitute (h : Returns text pattern) (occurrence : ℤ) (fuel : ℕ) :
    substituteLoop text pattern replacement occurrence (fuel + 1) .init =
      .text (doSubstitute text.bytes pattern.bytes).1 (doSubstitute text.bytes pattern.bytes).2 0 := by
  rw [substituteLoop_init h, doSubstitute_eq]

theorem span_of_mem {ms : List BreMatch} {o : ℕ} (h : Ed.Spans text o ms) {m : BreMatch} (hm : m ∈ ms) :
    0 ≤ m.start ∧ 0 ≤ m.length ∧ m.start + m.length ≤ text.length := by
  induction ms generalizing o with
  | nil => cases hm
  | cons m' ms ih =>
    obtain ⟨hstart, hlength, hstop, hrest⟩ := h
    rcases List.mem_cons.mp hm with rfl | hm
    · exact ⟨by omega, hlength, hstop⟩
    · exact ih hrest hm

theorem slice_append_slice (text : CString) {i j : ℕ} (h : i ≤ j) :
    text.slice 0 i ++ text.slice i j ++ text.bytes.drop j = text.bytes := by
  have htake : text.slice 0 i ++ text.slice i j = text.bytes.take j := by
    have hfront : text.slice 0 i = (text.bytes.take j).take i := by rw [List.take_take, min_eq_left h]; rfl
    rw [hfront]
    exact List.take_append_drop i _
  rw [htake, List.take_append_drop]

/-- One match replaced by what it was -/
theorem replaceFrom_singleton_iff {m : BreMatch} (hm : m ∈ successive text pattern 0) :
    replaceFrom text replacement 0 [m] = text.bytes ↔
      expansion text replacement m = text.slice m.start.toNat (m.start + m.length).toNat := by
  obtain ⟨hstart, hlength, -⟩ := span_of_mem (Ed.spans_successive text pattern 0) hm
  have hsplit := slice_append_slice text (i := m.start.toNat) (j := (m.start + m.length).toNat) (by omega)
  constructor
  · intro h
    rw [← hsplit] at h
    exact List.append_cancel_left (List.append_cancel_right h)
  · intro h
    rw [← hsplit, ← h]
    rfl

/-- The selector chooses one match, or none, or all of them. -/
theorem makesNoDifference_iff :
    MakesNoDifference text pattern replacement sel ↔ selectedReplaced text pattern replacement sel = text.bytes := by
  have hone (l : List BreMatch) (hl : ∀ m ∈ l, m ∈ successive text pattern 0) (hlen : l.length ≤ 1) :
      (∀ m ∈ l, expansion text replacement m = text.slice m.start.toNat (m.start + m.length).toNat) ↔
        replaceFrom text replacement 0 l = text.bytes := by
    cases l with
    | nil => simp [replaceFrom]
    | cons m l =>
      obtain rfl : l = [] := List.length_eq_zero_iff.mp (by simpa using hlen)
      rw [replaceFrom_singleton_iff (hl m List.mem_cons_self), List.forall_mem_singleton]
  cases sel with
  | all => exact Iff.rfl
  | first => exact hone _ (fun m hm => List.mem_of_mem_take hm) (List.length_take_le _ _)
  | nth n => exact hone _ (fun m hm => List.mem_of_mem_drop (List.mem_of_mem_take hm)) (List.length_take_le _ _)

/-- The loop puts nothing in the place of anything, so it does what it is meant to where that makes no difference. -/
theorem substitutes_iff (text pattern replacement : CString) (sel : Selector) :
    Substitutes text pattern replacement sel ↔
      Returns text pattern ∧ MakesNoDifference text pattern replacement sel := by
  rw [makesNoDifference_iff]
  constructor
  · rintro ⟨fuel₀, didAny, numSubs, h⟩
    have hend := h (fuel₀ + 1) (Nat.le_succ fuel₀)
    by_cases hret : Returns text pattern
    · rw [substituteLoop_init hret] at hend
      exact ⟨hret, ((Scanned.text.inj hend).1).symm⟩
    · rw [substituteLoop_undefined hret] at hend
      cases hend
  · rintro ⟨hret, hsame⟩
    refine ⟨1, false, 0, fun fuel hfuel => ?_⟩
    obtain ⟨fuel, rfl⟩ := Nat.exists_eq_add_of_le' hfuel
    rw [substituteLoop_init hret, hsame]

/-- The first match of the pass is the one that `bre_match` finds. -/
theorem nextMatch_zero {m : BreMatch} (hm : breMatch text pattern = .ok m) (hlength : 0 ≤ m.length)
    (hstop : m.start + m.length ≤ text.length) : Ed.nextMatch text pattern 0 = some m := by
  rcases Bre.breMatch_cases text pattern with ⟨hno, -⟩ | ⟨s, hs, hbefore, hne, heq⟩
  · rw [hno] at hm
    cases hm
  · have hat : Ed.matchAt text pattern s = some m := by
      rw [hm] at heq
      unfold Ed.matchAt
      rcases ha : Bre.attempt text pattern s with ⟨r, m'⟩
      rw [ha] at heq
      cases r with
      | ok n =>
        obtain rfl := Bre.Res.ok.inj heq
        exact if_pos ⟨hlength, hstop⟩
      | noMatch => cases heq
      | stop e => cases heq
    unfold Ed.nextMatch
    unfold Bre.lastStart at hs
    by_cases hanchored : Bre.anchoredStart pattern = true
    · rw [if_pos hanchored] at hs
      obtain rfl := Nat.le_zero.mp hs
      rw [if_pos hanchored, if_pos rfl]
      exact hat
    · rw [if_neg hanchored] at hs
      have hfind : (List.range' 0 (text.length + 1 - 0)).find? (fun s : ℕ => (Bre.attempt text pattern s).1 ≠ .noMatch) =
          some s := by
        rw [List.find?_range'_eq_some]
        refine ⟨by simpa using hne, by rw [List.mem_range'_1]; omega, fun k _ hk => ?_⟩
        simpa using hbefore k hk
      rw [if_neg hanchored, hfind]
      exact hat

/-- `s/a/b/` leaves the text `a` as it is. -/
theorem not_substitutes : ¬Substitutes (.lit "a") (.lit "a") (.lit "b") .first := by
  have hm : breMatch (.lit "a") (.lit "a") = .ok { start := 0, length := 1 } := by decide
  have hfirst := nextMatch_zero hm (by decide) (by decide)
  have hsel : selectedReplaced (.lit "a") (.lit "a") (.lit "b") .first = (CString.lit "b").bytes := by
    unfold selectedReplaced
    rw [successive]
    split
    case h_1 hno => rw [hfirst] at hno; cases hno
    case h_2 m hm =>
      rw [hfirst] at hm
      obtain rfl := Option.some.inj hm
      decide
  have hret : Returns (.lit "a") (.lit "a") := by
    intro s hs
    rw [hm] at hs
    cases hs
  rintro ⟨fuel₀, didAny, numSubs, h⟩
  have hend := h (fuel₀ + 1) (Nat.le_succ fuel₀)
  rw [substituteLoop_init hret, hsel] at hend
  have hbytes := (Scanned.text.inj hend).1
  revert hbytes
  decide

end ValidcTools.Sed
