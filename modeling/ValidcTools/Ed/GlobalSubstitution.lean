import ValidcTools.Bre.Substitution
import ValidcTools.Ed.Lines

/-! `s///g` on one line, and the pass from left to right that it is meant to be. -/
namespace ValidcTools.Ed
open Bre World

/-! ## The pass -/

section

variable (text pat rep : CString)

/-- The match of the engine at `s`, if it lies in the text. -/
def matchAt (s : ℕ) : Option BreMatch :=
  match attempt text pat s with
  | (.ok n, m) => if 0 ≤ n ∧ s + n ≤ text.length then some (m.finish s n) else none
  | _ => none

/-- The leftmost match from `o` on. A `^` is the beginning of the text. -/
def nextMatch (o : ℕ) : Option BreMatch :=
  if anchoredStart pat then if o = 0 then matchAt text pat 0 else none
  else ((List.range' o (text.length + 1 - o)).find? fun s : ℕ => (attempt text pat s).1 ≠ .noMatch).bind (matchAt text pat)

end

/-- Where the search for the next match begins: behind the match, and behind its beginning. -/
def behind (m : BreMatch) : ℕ := max (m.start + m.length).toNat (m.start.toNat + 1)

section

variable {text pat rep : CString}

theorem matchAt_spec {s : ℕ} {m : BreMatch} (h : matchAt text pat s = some m) :
    m.start = s ∧ 0 ≤ m.length ∧ m.start + m.length ≤ text.length := by
  unfold matchAt at h
  rcases ha : attempt text pat s with ⟨r, m'⟩
  rw [ha] at h
  cases r with
  | ok n =>
    dsimp only at h
    split_ifs at h with hin
    rw [← Option.some.inj h]
    exact ⟨rfl, hin.1, hin.2⟩
  | noMatch => cases h
  | stop e => cases h

theorem nextMatch_spec {o : ℕ} {m : BreMatch} (h : nextMatch text pat o = some m) :
    (o : ℤ) ≤ m.start ∧ 0 ≤ m.length ∧ m.start + m.length ≤ text.length := by
  unfold nextMatch at h
  split_ifs at h with hanchored ho
  · obtain ⟨hstart, hin⟩ := matchAt_spec h
    exact ⟨by omega, hin⟩
  · obtain ⟨s, hs, hm⟩ := Option.bind_eq_some_iff.mp h
    obtain ⟨hstart, hin⟩ := matchAt_spec hm
    have hmem := List.mem_range'_1.mp (List.mem_of_find?_eq_some hs)
    exact ⟨by omega, hin⟩

end

/-- The successive matches from `o` on, which do not overlap -/
def successive (text pat : CString) (o : ℕ) : List BreMatch :=
  match _h : nextMatch text pat o with
  | none => []
  | some m => m :: successive text pat (behind m)
termination_by text.length + 1 - o
decreasing_by
  obtain ⟨hstart, hlength, hend⟩ := nextMatch_spec _h
  unfold behind
  omega

section

variable (text pat rep : CString)

/-- The replacement of a match, with the captures put in. -/
def expansion (m : BreMatch) : List Byte := (expandReplacement text m rep.bytes).getD []

/-- The text from `o` on, with the given matches replaced -/
def replaceFrom (o : ℕ) : List BreMatch → List Byte
  | [] => text.bytes.drop o
  | m :: ms => text.slice o m.start.toNat ++ expansion text rep m ++ replaceFrom (m.start + m.length).toNat ms

/-- The text with the first `k` of its successive matches replaced -/
def stage (k : ℕ) : CString := .ofBytes (replaceFrom text rep 0 ((successive text pat 0).take k))

/-- The text with each of its successive matches replaced -/
def onePass : CString := stage text pat rep (successive text pat 0).length

end

/-- The line that the loop leaves -/
def leftLine (text : CString) : Substituted → Option CString
  | .unchanged => some text
  | .changed new => some new
  | _ => none

/-- The loop ends, with the line of the pass. -/
def IsOnePass (text pat rep : CString) : Prop :=
  ∃ fuel₀, ∀ fuel, fuel₀ ≤ fuel → leftLine text (substituteAll pat rep fuel text false) = some (onePass text pat rep)

/-- The matcher, given the text with its first matches replaced, finds the next match of the text. -/
def FindsNext (text pat rep work : CString) (m : BreMatch) : Prop :=
  ∃ found, breMatch work pat = .ok found ∧ (work.length : ℤ) - found.start = text.length - m.start ∧
    found.length = m.length ∧ expandReplacement work found rep.bytes = some (expansion text rep m)

/-- Nothing more is done to a line. -/
def LeftAsIs (pat rep work : CString) : Prop := breOk work pat = .ok false ∨ breSubstitute work pat rep = .string work

/-- The matcher never takes up what has been replaced: it finds each match in its turn, and none behind the last. A match
that is replaced by itself ends the loop, so those behind it are to be replaced by themselves, too. -/
structure NeverRescans (text pat rep : CString) : Prop where
  next : ∀ k m, (successive text pat 0)[k]? = some m → (∀ j < k, stage text pat rep (j + 1) ≠ stage text pat rep j) →
    FindsNext text pat rep (stage text pat rep k) m
  same : ∀ k < (successive text pat 0).length, stage text pat rep (k + 1) = stage text pat rep k →
    onePass text pat rep = stage text pat rep k
  last : (∀ j < (successive text pat 0).length, stage text pat rep (j + 1) ≠ stage text pat rep j) →
    LeftAsIs pat rep (onePass text pat rep)

/-! ## Stages -/

/-- Matches in the text from `o` on, one behind the other -/
def Spans (text : CString) : ℕ → List BreMatch → Prop
  | _, [] => True
  | o, m :: ms => (o : ℤ) ≤ m.start ∧ 0 ≤ m.length ∧ m.start + m.length ≤ text.length ∧
    Spans text (m.start + m.length).toNat ms

section

variable {text pat rep : CString}

theorem spans_of_le {o o' : ℕ} (h : o' ≤ o) {ms : List BreMatch} (hms : Spans text o ms) : Spans text o' ms := by
  cases ms with
  | nil => trivial
  | cons m ms =>
    obtain ⟨hstart, hrest⟩ := hms
    exact ⟨by omega, hrest⟩

theorem spans_successive (text pat : CString) (o : ℕ) : Spans text o (successive text pat o) := by
  fun_induction successive text pat o with
  | case1 o h => trivial
  | case2 o m h ih =>
    obtain ⟨hstart, hlength, hend⟩ := nextMatch_spec h
    exact ⟨hstart, hlength, hend, spans_of_le (by unfold behind; omega) ih⟩

/-- One more match replaced: what is before it stays, and so does what is behind it. -/
theorem replaceFrom_take_succ (rep : CString) {ms : List BreMatch} {o k : ℕ} {m : BreMatch} (hms : Spans text o ms) (hm : ms[k]? = some m) :
    ∃ (front : List Byte) (e : ℕ), (e : ℤ) ≤ m.start ∧ 0 ≤ m.length ∧ m.start + m.length ≤ text.length ∧
      replaceFrom text rep o (ms.take k) = front ++ text.bytes.drop e ∧
      replaceFrom text rep o (ms.take (k + 1)) =
        front ++ text.slice e m.start.toNat ++ expansion text rep m ++ text.bytes.drop (m.start + m.length).toNat := by
  induction ms generalizing o k with
  | nil => cases hm
  | cons m₀ ms ih =>
    obtain ⟨hstart, hlength, hend, hrest⟩ := hms
    cases k with
    | zero =>
      obtain rfl : m₀ = m := Option.some.inj hm
      exact ⟨[], o, hstart, hlength, hend, rfl, rfl⟩
    | succ k =>
      obtain ⟨front, e, he, hlen, hin, htake, htake'⟩ := ih hrest hm
      refine ⟨text.slice o m₀.start.toNat ++ expansion text rep m₀ ++ front, e, he, hlen, hin, ?_, ?_⟩
      · rw [List.take_succ_cons, replaceFrom, htake, List.append_assoc _ front]
      · rw [List.take_succ_cons, replaceFrom, htake']
        simp only [List.append_assoc]

theorem zero_notMem_replaceFrom (o : ℕ) (ms : List BreMatch) : (0 : Byte) ∉ replaceFrom text rep o ms := by
  induction ms generalizing o with
  | nil => exact fun h => text.nulFree (List.mem_of_mem_drop h)
  | cons m ms ih =>
    have hnew : (0 : Byte) ∉ expansion text rep m := by
      unfold expansion
      cases h : expandReplacement text m rep.bytes with
      | none => exact List.not_mem_nil
      | some new => exact zero_notMem_expandReplacement rep.nulFree h
    exact List.not_mem_append (List.not_mem_append (zero_notMem_slice text _ _) hnew) (ih _)

theorem stage_bytes (text pat rep : CString) (k : ℕ) :
    (stage text pat rep k).bytes = replaceFrom text rep 0 ((successive text pat 0).take k) :=
  CString.ofBytes_bytes_of_nulFree (zero_notMem_replaceFrom _ _)

theorem stage_zero (text pat rep : CString) : stage text pat rep 0 = text := by
  apply CString.ext
  rw [stage_bytes]
  exact List.drop_zero

/-- The substitution of the next match makes the next stage. -/
theorem breSubstitute_stage {k : ℕ} {m : BreMatch} (hm : (successive text pat 0)[k]? = some m)
    (h : FindsNext text pat rep (stage text pat rep k) m) :
    breOk (stage text pat rep k) pat = .ok true ∧
      breSubstitute (stage text pat rep k) pat rep = .string (stage text pat rep (k + 1)) := by
  obtain ⟨found, hfound, hplace, hlength, hexpand⟩ := h
  obtain ⟨front, e, he, hlen, hin, htake, htake'⟩ :=
    replaceFrom_take_succ rep (spans_successive text pat 0) hm
  have hwork : (stage text pat rep k).bytes = front ++ text.bytes.drop e := (stage_bytes text pat rep k).trans htake
  have hsize : (stage text pat rep k).length = front.length + (text.length - e) := by
    rw [CString.length, hwork, List.length_append, List.length_drop]
    rfl
  have hstart : found.start.toNat = front.length + (m.start.toNat - e) := by omega
  have hend : (found.start + found.length).toNat = front.length + ((m.start + m.length).toNat - e) := by omega
  have hpre : copyBytes (stage text pat rep k) 0 found.start = some (front ++ text.slice e m.start.toNat) := by
    unfold copyBytes CString.slice
    rw [if_pos (by omega), hwork, zero_add, hstart, Int.toNat_zero, List.drop_zero, List.take_length_add_append,
      List.drop_take]
  have hsuf : copyBytes (stage text pat rep k) (found.start + found.length)
      ((stage text pat rep k).length - (found.start + found.length)) =
      some (text.bytes.drop (m.start + m.length).toNat) := by
    unfold copyBytes CString.slice
    rw [if_pos (by omega), add_sub_cancel, Int.toNat_natCast, CString.length, List.take_length, hwork, hend,
      List.drop_length_add_append, List.drop_drop]
    congr 3
    omega
  constructor
  · rw [breOk, hfound]
  · unfold breSubstitute
    rw [hfound]
    simp only [if_neg (show ¬ found.start < 0 by omega), hpre, hexpand, hsuf]
    rw [stage, htake']

/-- `k` rounds of the loop, while each of them changes the line -/
theorem substituteAll_stage (h : NeverRescans text pat rep) {k : ℕ} (hk : k ≤ (successive text pat 0).length)
    (hchanged : ∀ j < k, stage text pat rep (j + 1) ≠ stage text pat rep j) (fuel : ℕ) :
    substituteAll pat rep (fuel + k) text false = substituteAll pat rep fuel (stage text pat rep k) (decide (0 < k)) := by
  induction k generalizing fuel with
  | zero => rw [stage_zero]; rfl
  | succ k ih =>
    have hbefore : ∀ j < k, stage text pat rep (j + 1) ≠ stage text pat rep j := fun j hj => hchanged j (by omega)
    have hm : (successive text pat 0)[k]? = some ((successive text pat 0).get ⟨k, hk⟩) := List.getElem?_eq_getElem hk
    obtain ⟨hok, hsub⟩ := breSubstitute_stage hm (h.next k _ hm hbefore)
    have hround := ih (by omega) hbefore (fuel + 1)
    rw [Nat.add_right_comm] at hround
    rw [← Nat.add_assoc, hround, substituteAll, hok, hsub]
    simp only [if_neg (hchanged k (Nat.lt_succ_self k)), Nat.succ_pos, decide_true]

theorem leftLine_stop {changed : Bool} {work : CString} (h : changed = false → work = text) :
    leftLine text (if changed = true then .changed work else .unchanged) = some work := by
  cases changed with
  | true => rfl
  | false =>
    rw [h rfl]
    rfl

theorem breOk_of_breSubstitute {work new : CString} (h : breSubstitute work pat rep = .string new) :
    ∃ b, breOk work pat = .ok b := by
  unfold breSubstitute at h
  unfold breOk
  cases hm : breMatch work pat with
  | ok m => exact ⟨true, rfl⟩
  | noMatch => exact ⟨false, rfl⟩
  | stop e =>
    rw [hm] at h
    cases e <;> cases h

/-- The loop stops at a line that it leaves as it is. -/
theorem leftLine_substituteAll {work : CString} {changed : Bool} (h : changed = false → work = text)
    (hleft : LeftAsIs pat rep work) (fuel : ℕ) :
    leftLine text (substituteAll pat rep (fuel + 1) work changed) = some work := by
  have hcases : breOk work pat = .ok false ∨ breOk work pat = .ok true ∧ breSubstitute work pat rep = .string work := by
    rcases hleft with hno | hsub
    · exact .inl hno
    · obtain ⟨b, hb⟩ := breOk_of_breSubstitute hsub
      cases b with
      | true => exact .inr ⟨hb, hsub⟩
      | false => exact .inl hb
  rcases hcases with hno | ⟨hok, hsub⟩
  · rw [substituteAll, hno]
    exact leftLine_stop h
  · rw [substituteAll, hok, hsub]
    simp only [if_true]
    exact leftLine_stop h

/-- A loop that ends leaves a line that it would leave as it is. -/
theorem leftAsIs_of_leftLine {fuel : ℕ} {work line : CString} {changed : Bool} (h : changed = false → work = text)
    (hend : leftLine text (substituteAll pat rep fuel work changed) = some line) : LeftAsIs pat rep line := by
  induction fuel generalizing work changed with
  | zero => cases hend
  | succ fuel ih =>
    rw [substituteAll] at hend
    cases hok : breOk work pat with
    | error f =>
      rw [hok] at hend
      cases hend
    | ok b =>
      rw [hok] at hend
      cases b with
      | false =>
        rw [← Option.some.inj ((leftLine_stop h).symm.trans hend)]
        exact .inl hok
      | true =>
        cases hsub : breSubstitute work pat rep with
        | null =>
          rw [hsub] at hend
          cases hend
        | undefined =>
          rw [hsub] at hend
          cases hend
        | string next =>
          rw [hsub] at hend
          dsimp only at hend
          split_ifs at hend with hsame hchanged
          · rw [← Option.some.inj hend, ← hsame]
            exact .inr (by rw [hsame, hsub, hsame])
          · rw [← Option.some.inj hend, ← h (Bool.eq_false_of_not_eq_true hchanged)]
            exact .inr (by rw [hsub, hsame])
          · exact ih (fun hf => absurd hf (by decide)) hend

/-- A loop that never takes up what it has replaced makes one pass. -/
theorem isOnePass_of_neverRescans (h : NeverRescans text pat rep) : IsOnePass text pat rep := by
  by_cases hall : ∀ j < (successive text pat 0).length, stage text pat rep (j + 1) ≠ stage text pat rep j
  · refine ⟨(successive text pat 0).length + 1, fun fuel hfuel => ?_⟩
    obtain ⟨n, rfl⟩ : ∃ n, fuel = n + 1 + (successive text pat 0).length := ⟨fuel - (successive text pat 0).length - 1, by omega⟩
    rw [substituteAll_stage h le_rfl hall]
    refine leftLine_substituteAll (fun hzero => ?_) (h.last hall) n
    have hlen : (successive text pat 0).length = 0 := by simpa using hzero
    rw [onePass, hlen, stage_zero]
  · -- the first match that is replaced by itself ends the loop
    push Not at hall
    have hfirst := Nat.find_spec hall
    have hbefore := @Nat.find_min _ _ hall
    generalize Nat.find hall = k at hfirst hbefore
    obtain ⟨hk, hsame⟩ := hfirst
    have hchanged : ∀ j < k, stage text pat rep (j + 1) ≠ stage text pat rep j := fun j hj heq =>
      hbefore hj ⟨by omega, heq⟩
    have hm : (successive text pat 0)[k]? = some ((successive text pat 0).get ⟨k, hk⟩) := List.getElem?_eq_getElem hk
    obtain ⟨-, hsub⟩ := breSubstitute_stage hm (h.next k _ hm hchanged)
    rw [hsame] at hsub
    refine ⟨k + 1, fun fuel hfuel => ?_⟩
    obtain ⟨n, rfl⟩ : ∃ n, fuel = n + 1 + k := ⟨fuel - k - 1, by omega⟩
    rw [substituteAll_stage h hk.le hchanged, h.same k hk hsame]
    refine leftLine_substituteAll (fun hzero => ?_) (.inr hsub) n
    obtain rfl : k = 0 := by simpa using hzero
    exact stage_zero text pat rep

/-- When the loop comes to the line of the pass, nothing in that line is to be replaced once more. -/
theorem leftAsIs_of_isOnePass (h : IsOnePass text pat rep) : LeftAsIs pat rep (onePass text pat rep) := by
  obtain ⟨fuel₀, hend⟩ := h
  exact leftAsIs_of_leftLine (fun _ => rfl) (hend fuel₀ le_rfl)

end

theorem isOnePass_foo : IsOnePass (.lit "foo") (.lit "o") (.lit "0") := by
  have hmatches : successive (.lit "foo") (.lit "o") 0 = [{ start := 1, length := 1 }, { start := 2, length := 1 }] := by
    decide +kernel
  refine isOnePass_of_neverRescans ⟨fun k m hm _ => ?_, fun k hk hsame => ?_, fun _ => .inl (by decide +kernel)⟩
  · rw [hmatches] at hm
    match k, hm with
    | 0, hm =>
      obtain rfl := Option.some.inj hm
      exact ⟨{ start := 1, length := 1 }, by decide, by decide, rfl, by decide⟩
    | 1, hm =>
      obtain rfl := Option.some.inj hm
      exact ⟨{ start := 2, length := 1 }, by decide +kernel, by decide +kernel, rfl, by decide +kernel⟩
    | k + 2, hm => cases hm
  · rw [hmatches] at hk
    match k, hk with
    | 0, _ => exact absurd hsame (by decide +kernel)
    | 1, _ => exact absurd hsame (by decide +kernel)

/-- Where the line begins with `a`, it begins with two of them after a round of `s/a/aa/g`. -/
theorem breSubstitute_a (l : List Byte) (hl : (0 : Byte) ∉ ('a' : Char).toUInt8 :: l) :
    ∃ next : CString, ∃ l', next.bytes = ('a' : Char).toUInt8 :: l' ∧
      breSubstitute ⟨_, hl⟩ (.lit "a") (.lit "aa") = .string next ∧ next ≠ ⟨_, hl⟩ ∧ breOk ⟨_, hl⟩ (.lit "a") = .ok true := by
  have hprog : Prog.ofPattern (.lit "a") = .one (.literal 'a') 1 1 .done := by decide +kernel
  have hread : (⟨_, hl⟩ : CString).read? 0 = some (('a' : Char) : Byte) := by
    rw [← Nat.cast_zero, CString.read?_natCast (Nat.zero_le _)]
    rfl
  have hattempt : attempt ⟨_, hl⟩ (.lit "a") 0 = (.ok 1, {}) := by
    have honce : (Atom.literal ('a' : Char)).once ⟨_, hl⟩ 0 = .ok 1 := by
      unfold Atom.once
      rw [hread]
      decide
    unfold attempt
    rw [hprog]
    simp [Prog.run, matchRepeated, countUp, countDown, maxPossible, honce]
  have hmatch : breMatch ⟨_, hl⟩ (.lit "a") = .ok { start := 0, length := 1 } := by
    have hzero : (attempt ⟨_, hl⟩ (.lit "a") (0 : ℕ)).1 ≠ .noMatch := by
      rw [Nat.cast_zero, hattempt]
      intro h
      cases h
    rw [breMatch_eq_report (Nat.zero_le _) (fun s hs => absurd hs (Nat.not_lt_zero s)) hzero, Nat.cast_zero, hattempt]
    rfl
  have hpre : copyBytes ⟨_, hl⟩ 0 0 = some [] := rfl
  have hsuf : copyBytes ⟨_, hl⟩ (0 + 1) ((⟨_, hl⟩ : CString).length - (0 + 1)) = some l := by
    have hlen : (⟨_, hl⟩ : CString).length = l.length + 1 := rfl
    unfold copyBytes CString.slice
    rw [hlen, if_pos (by omega), add_sub_cancel, Int.toNat_natCast, ← List.length_cons, List.take_length]
    rfl
  have hnul : (0 : Byte) ∉ [('a' : Char).toUInt8, ('a' : Char).toUInt8] ++ l := by
    rw [List.mem_cons, not_or] at hl
    exact List.not_mem_append (by decide) hl.2
  refine ⟨⟨_, hnul⟩, ('a' : Char).toUInt8 :: l, rfl, ?_, fun heq => ?_, by rw [breOk, hmatch]⟩
  · unfold breSubstitute
    rw [hmatch]
    simp only [hpre, hsuf]
    exact congrArg Substitution.string (CString.ext (CString.ofBytes_bytes_of_nulFree hnul))
  · have hlen := congrArg (fun s : CString => s.bytes.length) heq
    simp at hlen

theorem substituteAll_a (fuel : ℕ) {l : List Byte} (work : CString) (hwork : work.bytes = ('a' : Char).toUInt8 :: l)
    (changed : Bool) : substituteAll (.lit "a") (.lit "aa") fuel work changed = .outOfFuel := by
  induction fuel generalizing l work changed with
  | zero => rfl
  | succ fuel ih =>
    obtain ⟨bytes, hbytes⟩ := work
    subst hwork
    obtain ⟨next, l', hnext, hsub, hne, hok⟩ := breSubstitute_a l hbytes
    rw [substituteAll, hok, hsub]
    simp only [if_neg hne]
    exact ih next hnext true

/-- `s/a/aa/g` never ends on the line `a`. -/
theorem not_isOnePass_a :
    (∀ fuel, substituteAll (.lit "a") (.lit "aa") fuel (.lit "a") false = .outOfFuel) ∧
      ¬IsOnePass (.lit "a") (.lit "a") (.lit "aa") := by
  have hfuel (fuel : ℕ) : substituteAll (.lit "a") (.lit "aa") fuel (.lit "a") false = .outOfFuel :=
    substituteAll_a fuel (l := []) (.lit "a") (by decide) false
  refine ⟨hfuel, fun h => ?_⟩
  obtain ⟨fuel₀, hend⟩ := h
  have hnone := hend fuel₀ le_rfl
  rw [hfuel] at hnone
  cases hnone

end ValidcTools.Ed
