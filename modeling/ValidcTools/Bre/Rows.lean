import ValidcTools.Bre.Program
import ValidcTools.Lib.Greedy

/-! Single-character atoms run as rows of repetitions: until the first group, the end or a
malformed item, the matcher is the greedy matcher of `Greedy`. -/
namespace ValidcTools.Bre
open Greedy

variable {σ : Type}

/-- The repetitions at the beginning of a program, with the cap of `match_repeated`. -/
def Prog.reps : Prog → List (Rep Byte)
  | .one a min max rest => ⟨a.accepts, min.toNat, maxPossible max⟩ :: rest.reps
  | _ => []

/-- What comes after the repetitions. -/
def Prog.tail : Prog → Prog
  | .one _ _ _ rest => rest.tail
  | p => p

/-- The result of an attempt at `i` whose repetitions end at `e`, where `out` takes over. -/
def resume (out : ℤ → σ → Res ℤ × σ) (i : ℕ) (m : σ) : Option ℕ → Res ℤ × σ
  | none => (.noMatch, m)
  | some e => ((out e m).1.map ((e : ℤ) - i + ·), (out e m).2)

theorem Atom.once_natCast (a : Atom) {text : CString} {i : ℕ} (hi : i ≤ text.length) :
    a.once text i = if hits text.bytes a.accepts i then .ok 1 else .noMatch := by
  unfold Atom.once
  rw [if_neg (by omega), CString.read?_natCast hi]
  by_cases hlt : i < text.length
  · have hne := CString.get_ne_zero hlt
    have hget : text.bytes[i]? = some (text.get i) := by
      rw [CString.get_of_lt hlt]
      exact List.getElem?_eq_getElem hlt
    simp [hits, hget, hne]
  · obtain rfl : i = text.length := by omega
    have hnone : text.bytes[text.length]? = none := List.getElem?_eq_none le_rfl
    simp [hits, hnone]

theorem countUp_once (a : Atom) {text : CString} (n : ℕ) {i : ℕ} (hi : i ≤ text.length)
    (advs : List ℤ) (m : σ) :
    countUp (fun tpos m => (a.once text tpos, m)) n i advs m =
      (.ok (↑(reach text.bytes a.accepts n i),
        List.replicate (reach text.bytes a.accepts n i - i) 1 ++ advs), m) := by
  induction n generalizing i advs with
  | zero => simp [countUp, reach]
  | succ n ih =>
    unfold countUp reach
    rw [a.once_natCast hi]
    split_ifs with hhit
    · have hlt : i < text.length := lt_length_of_hits hhit
      have hle := le_reach text.bytes a.accepts n (i + 1)
      have hrec := ih (i := i + 1) (by omega) (1 :: advs)
      push_cast at hrec
      simp only [hrec]
      rw [show reach text.bytes a.accepts n (i + 1) - i
          = reach text.bytes a.accepts n (i + 1) - (i + 1) + 1 by omega, List.replicate_succ']
      simp
    · simp

theorem lastAdv_one (n : ℕ) : lastAdv n 1 = 1 := by
  simp [lastAdv]

/-- Stepping back over single characters is the descent of the greedy matcher. -/
theorem countDown_ones {rest : ℤ → σ → Res ℤ × σ} (out : ℤ → σ → Res ℤ × σ) (next : ℕ → Option ℕ) {i : ℕ} (min : ℤ)
    {m : σ} (hout : ∀ j e, next j = some e → (out e m).1 ≠ .noMatch) (k : ℕ)
    (h : ∀ j, i ≤ j → j ≤ i + k → rest j m = resume out j m (next j)) :
    ifOk (countDown rest min (List.replicate k 1) (i + k) m)
        (fun x m => (.ok (x.1 - i + x.2), m)) =
      resume out i m (descend next min.toNat i k) := by
  induction k with
  | zero =>
    have hi := h i le_rfl (by omega)
    unfold countDown descend
    simp only [List.replicate_zero, Nat.cast_zero, add_zero]
    by_cases hmin : 0 < min
    · rw [if_pos hmin, if_pos (by omega)]
      rfl
    rw [if_neg hmin, if_neg (by omega), hi]
    cases next i with
    | none => rfl
    | some e =>
      rcases ho : out e m with ⟨r, m'⟩
      cases r <;> simp [resume, ho]
  | succ k ih =>
    have htop := h (i + (k + 1)) (by omega) (by omega)
    have hpos : (i : ℤ) + (k + 1) - 1 = i + k := by ring
    have hbelow := ih fun j hij hjk => h j hij (by omega)
    unfold descend
    rw [List.replicate_succ]
    unfold countDown
    simp only [List.length_replicate]
    by_cases hmin : ((k + 1 : ℕ) : ℤ) < min
    · rw [if_pos hmin, if_pos (by omega)]
      rfl
    rw [if_neg hmin, if_neg (by omega)]
    push_cast at htop ⊢
    rw [htop]
    cases hn : next (i + (k + 1)) with
    | none => simpa [resume, lastAdv_one, hpos] using hbelow
    | some e =>
      have hne := hout _ _ hn
      rcases ho : out e m with ⟨r, m'⟩
      cases r with
      | ok b =>
        have hsum : (i : ℤ) + (k + 1) - i + (e - (i + (k + 1)) + b) = e - i + b := by ring
        have hsome : (some e <|> descend next min.toNat i k) = some e := rfl
        simp only [hsome, resume, ho, Res.map_ok, ifOk_ok, Nat.cast_add, Nat.cast_one, hsum]
      | noMatch => exact absurd (congrArg Prod.fst ho) hne
      | stop s => simp [resume, ho]

theorem Prog.run_one_eq {guard : Guard} {R : Recorder σ} {text : CString} {a : Atom}
    {min max : ℤ} {rest : Prog} {i : ℕ} (hi : i ≤ text.length) (m : σ) :
    (Prog.one a min max rest).run guard R text i m =
      ifOk (countDown (rest.run guard R text) min
          (List.replicate (reach text.bytes a.accepts (maxPossible max) i - i) 1)
          (reach text.bytes a.accepts (maxPossible max) i : ℕ) m)
        fun x m => (.ok (x.1 - i + x.2), m) := by
  simp only [Prog.run, matchRepeated, countUp_once a (maxPossible max) hi, List.append_nil, ifOk_ok]
  rcases countDown (rest.run guard R text) min _ _ m with ⟨r, m'⟩
  cases r <;> rfl

private theorem run_base {guard : Guard} {R : Recorder σ} {text : CString} {P : Prog}
    {m : σ} (hquiet : ∀ j : ℕ, j ≤ text.length → (P.run guard R text j m).1 = .noMatch →
      (P.run guard R text j m).2 = m) {i : ℕ} (hi : i ≤ text.length) :
    P.run guard R text i m = resume (P.run guard R text) i m
      (greedy text.bytes (fun j => decide ((P.run guard R text j m).1 ≠ .noMatch)) [] i) := by
  unfold greedy
  by_cases hn : (P.run guard R text i m).1 = .noMatch
  · rw [if_neg (by simp [hn])]
    exact Prod.ext hn (hquiet i hi hn)
  · rw [if_pos (by simp [hn])]
    rcases ho : P.run guard R text i m with ⟨r, m'⟩
    cases r <;> simp [resume, ho]

/-- An attempt runs the repetitions at its beginning greedily against what comes after them,
provided that this leaves the captures alone when it does not match. -/
theorem Prog.run_eq_greedy {guard : Guard}
    {R : Recorder σ} {text : CString} {P : Prog} {m : σ}
    (hquiet : ∀ j : ℕ, j ≤ text.length → (P.tail.run guard R text j m).1 = .noMatch →
      (P.tail.run guard R text j m).2 = m) {i : ℕ} (hi : i ≤ text.length) :
    P.run guard R text i m = resume (P.tail.run guard R text) i m
      (greedy text.bytes (fun j => decide ((P.tail.run guard R text j m).1 ≠ .noMatch)) P.reps i) := by
  induction P generalizing i with
  | one a min max rest ih =>
    have hle := le_reach text.bytes a.accepts (maxPossible max) i
    have hreach : reach text.bytes a.accepts (maxPossible max) i ≤ text.length :=
      reach_le_length _ _ hi
    have hdown := countDown_ones (i := i) (m := m) (rest.tail.run guard R text)
      (greedy text.bytes (fun j => decide ((rest.tail.run guard R text j m).1 ≠ .noMatch)) rest.reps)
      min
      (fun j e he => by simpa using (greedy_sound he).2)
      (reach text.bytes a.accepts (maxPossible max) i - i)
      (fun j hij hjk => ih hquiet (by omega))
    rw [← Nat.cast_add, Nat.add_sub_cancel' hle] at hdown
    rw [Prog.run_one_eq hi]
    unfold Prog.reps greedy Prog.tail
    exact hdown
  | done => exact run_base hquiet hi
  | atEnd => exact run_base hquiet hi
  | bad => exact run_base hquiet hi
  | group inner rest => exact run_base hquiet hi
  | dotStar rest => exact run_base hquiet hi
  | groupRep inner min max rest => exact run_base hquiet hi

/-- A required character that no byte is keeps an attempt from going any further. -/
theorem Prog.run_blocked {guard : Guard}
    {R : Recorder σ} {text : CString} {P : Prog} {r : Rep Byte} (hr : r ∈ P.reps) (hlo : 0 < r.lo)
    (hnone : ∀ b, r.accepts b = false) {i : ℕ} (hi : i ≤ text.length) (m : σ) :
    P.run guard R text i m = (.noMatch, m) := by
  induction P generalizing i with
  | one a min max rest ih =>
    rw [Prog.run_one_eq hi]
    have hle := le_reach text.bytes a.accepts (maxPossible max) i
    have hreach : reach text.bytes a.accepts (maxPossible max) i ≤ text.length :=
      reach_le_length _ _ hi
    rcases List.mem_cons.mp hr with rfl | hr
    · have hmin : 0 < min := by
        have : 0 < min.toNat := hlo
        omega
      have hstay : reach text.bytes a.accepts (maxPossible max) i = i := by
        have hmiss : hits text.bytes a.accepts i = false := by
          cases hb : text.bytes[i]? <;> simp [hits, hb, show ∀ b, a.accepts b = false from hnone]
        cases maxPossible max <;> simp [reach, hmiss]
      rw [hstay, Nat.sub_self, List.replicate_zero]
      simp [countDown, hmin]
    · have hdown := countDown_ones (i := i) (m := m) (rest.run guard R text)
        (fun _ => none) min (fun j e he => by cases he)
        (reach text.bytes a.accepts (maxPossible max) i - i)
        (fun j hij hjk => ih hr (by omega))
      rw [← Nat.cast_add, Nat.add_sub_cancel' hle, descend_eq_none.mpr fun _ _ _ => rfl] at hdown
      exact hdown
  | done => cases hr
  | atEnd => cases hr
  | bad => cases hr
  | group inner rest => cases hr
  | dotStar rest => cases hr
  | groupRep inner min max rest => cases hr

end ValidcTools.Bre
