import ValidcTools.Bre.Refinement
import ValidcTools.Bre.Rows

/-! `bre_match` as a search: the program of a pattern is attempted at one start after the other. -/
namespace ValidcTools.Bre
open Greedy

/-- The program `bre_match` runs: a leading `^` is not part of it. -/
def Prog.ofPattern (pattern : CString) : Prog :=
  Prog.parse (if anchoredStart pattern then pattern.bytes.tail else pattern.bytes)

/-- The last start position that is tried. -/
def lastStart (text pattern : CString) : ℕ := if anchoredStart pattern then 0 else text.length

def attempt (text pattern : CString) (s : ℤ) : Res ℤ × BreMatch :=
  (Prog.ofPattern pattern).run noGuard codeRecorder text s {}

theorem breMatch_eq (text pattern : CString) :
    breMatch text pattern = matchFrom (attempt text pattern) (lastStart text pattern) 0 := by
  have hrun (pi : ℕ) (ti : ℤ) :
      matchHere (pattern.length + 1) ⟨text, ti, pattern, pi, pattern.length⟩ {} =
        (Prog.parse (pattern.bytes.drop pi)).run noGuard codeRecorder text ti {} := by
    rw [matchHere_eq_run _ _ _ le_rfl (by simp only; omega)]
    simp [CString.slice, CString.length]
  unfold breMatch lastStart
  simp only [hrun]
  split_ifs with ha
  · unfold matchFrom attempt Prog.ofPattern
    rw [if_pos ha, List.drop_one]
    rfl
  · congr 1
    funext s
    unfold attempt Prog.ofPattern
    rw [if_neg ha, List.drop_zero]

/-- What `bre_match` makes of an attempt at `s`. -/
def report (s : ℕ) : Res ℤ × BreMatch → Res BreMatch
  | (.ok consumed, m) => .ok (m.finish s consumed)
  | (.noMatch, _) => .noMatch
  | (.stop e, _) => .stop e

theorem report_eq_stop_iff {s : ℕ} {x : Res ℤ × BreMatch} {e : Stop} :
    report s x = .stop e ↔ x.1 = .stop e := by
  rcases x with ⟨r, m⟩
  cases r <;> simp [report]

theorem matchFrom_cases (attempt : ℤ → Res ℤ × BreMatch) (n s : ℕ) :
    (matchFrom attempt n s = .noMatch ∧ ∀ k : ℕ, s ≤ k → k ≤ s + n → (attempt k).1 = .noMatch) ∨
      ∃ k, s ≤ k ∧ k ≤ s + n ∧ (∀ j : ℕ, s ≤ j → j < k → (attempt j).1 = .noMatch) ∧
        (attempt k).1 ≠ .noMatch ∧ matchFrom attempt n s = report k (attempt k) := by
  induction n generalizing s with
  | zero =>
    unfold matchFrom report
    rcases ha : attempt s with ⟨r, m⟩
    cases r with
    | noMatch =>
      left
      refine ⟨rfl, fun k hs hk => ?_⟩
      obtain rfl : k = s := by omega
      rw [ha]
    | ok c => exact Or.inr ⟨s, le_rfl, le_rfl, fun j hs hj => by omega, by simp [ha], by simp [ha]⟩
    | stop e => exact Or.inr ⟨s, le_rfl, le_rfl, fun j hs hj => by omega, by simp [ha], by simp [ha]⟩
  | succ n ih =>
    unfold matchFrom report
    rcases ha : attempt s with ⟨r, m⟩
    cases r with
    | noMatch =>
      rcases ih (s + 1) with ⟨hno, hall⟩ | ⟨k, hs, hk, hbefore, hne, heq⟩
      · left
        refine ⟨hno, fun k hs hk => ?_⟩
        by_cases hks : k = s
        · rw [hks, ha]
        · exact hall k (by omega) (by omega)
      · right
        refine ⟨k, by omega, by omega, fun j hs hj => ?_, hne, heq⟩
        by_cases hjs : j = s
        · rw [hjs, ha]
        · exact hbefore j (by omega) hj
    | ok c => exact Or.inr ⟨s, le_rfl, by omega, fun j hs hj => by omega, by simp [ha], by simp [ha]⟩
    | stop e => exact Or.inr ⟨s, le_rfl, by omega, fun j hs hj => by omega, by simp [ha], by simp [ha]⟩

/-- Either no start matches, or the first one that does not fail decides. -/
theorem breMatch_cases (text pattern : CString) :
    (breMatch text pattern = .noMatch ∧
      ∀ s : ℕ, s ≤ lastStart text pattern → (attempt text pattern s).1 = .noMatch) ∨
    ∃ s : ℕ, s ≤ lastStart text pattern ∧
      (∀ s' : ℕ, s' < s → (attempt text pattern s').1 = .noMatch) ∧
      (attempt text pattern s).1 ≠ .noMatch ∧
      breMatch text pattern = report s (attempt text pattern s) := by
  rw [breMatch_eq]
  rcases matchFrom_cases (attempt text pattern) (lastStart text pattern) 0 with
    ⟨hno, hall⟩ | ⟨s, -, hs, hbefore, hne, heq⟩
  · exact Or.inl ⟨hno, fun s hs => hall s (by omega) (by omega)⟩
  · exact Or.inr ⟨s, by omega, fun s' hs' => hbefore s' (by omega) hs', hne, heq⟩

theorem breMatch_eq_report {text pattern : CString} {s : ℕ} (hs : s ≤ lastStart text pattern)
    (hbefore : ∀ s' : ℕ, s' < s → (attempt text pattern s').1 = .noMatch)
    (hne : (attempt text pattern s).1 ≠ .noMatch) :
    breMatch text pattern = report s (attempt text pattern s) := by
  rcases breMatch_cases text pattern with ⟨-, hall⟩ | ⟨s₁, -, hbefore₁, hne₁, heq⟩
  · exact absurd (hall s hs) hne
  · have hle : s₁ ≤ s := not_lt.mp fun hlt => hne (hbefore₁ s hlt)
    have hge : s ≤ s₁ := not_lt.mp fun hlt => hne₁ (hbefore s₁ hlt)
    rwa [le_antisymm hle hge] at heq

theorem breMatch_eq_stop {text pattern : CString} {s : ℕ} {e : Stop} (hs : s ≤ lastStart text pattern)
    (hbefore : ∀ s' : ℕ, s' < s → (attempt text pattern s').1 = .noMatch)
    (h : (attempt text pattern s).1 = .stop e) : breMatch text pattern = .stop e := by
  rw [breMatch_eq_report hs hbefore (by rw [h]; simp)]
  exact report_eq_stop_iff.mpr h

/-- A stop comes from the first attempt that does not fail. -/
theorem breMatch_stop_cases {text pattern : CString} {e : Stop} (h : breMatch text pattern = .stop e) :
    ∃ s : ℕ, s ≤ lastStart text pattern ∧
      (∀ s' : ℕ, s' < s → (attempt text pattern s').1 = .noMatch) ∧
      (attempt text pattern s).1 = .stop e := by
  rcases breMatch_cases text pattern with ⟨hno, -⟩ | ⟨s, hs, hbefore, -, heq⟩
  · rw [hno] at h
    cases h
  · exact ⟨s, hs, hbefore, report_eq_stop_iff.mp (heq.symm.trans h)⟩

theorem lastStart_le (text pattern : CString) : lastStart text pattern ≤ text.length := by
  unfold lastStart
  split_ifs
  · exact Nat.zero_le _
  · exact le_rfl

/-- A match starts inside its text. -/
theorem breMatch_start {text pattern : CString} {m : BreMatch} (h : breMatch text pattern = .ok m) :
    ∃ s : ℕ, m.start = s ∧ s ≤ text.length := by
  rcases breMatch_cases text pattern with ⟨hno, -⟩ | ⟨s, hs, -, -, heq⟩
  · rw [hno] at h
    cases h
  · rw [heq] at h
    refine ⟨s, ?_, ?_⟩
    · rcases ha : attempt text pattern s with ⟨r, m'⟩
      rw [ha] at h
      cases r with
      | ok c =>
        obtain rfl := Res.ok.inj h
        rfl
      | noMatch => cases h
      | stop e => cases h
    · unfold lastStart at hs
      split_ifs at hs <;> omega

end ValidcTools.Bre
