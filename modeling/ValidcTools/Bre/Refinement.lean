import ValidcTools.Bre.Program

/-! The index arithmetic of `bre.c` reads the same items as `Prog.parse`, so `match_here` is the
execution of the parsed pattern. -/
namespace ValidcTools.Bre

section Indices

variable {pat : CString} {pend : ℕ}

/-- What is left of a slice starts as far from the end as it is long. -/
theorem slice_of_suffix (hp : pend ≤ pat.length) {i : ℕ} (rest : List Byte)
    (h : rest <:+ pat.slice i pend) : pat.slice (pend - rest.length) pend = rest := by
  obtain ⟨p, hp'⟩ := h
  by_cases hi : i ≤ pend
  · have hl := congrArg List.length hp'
    rw [CString.length_slice hp, List.length_append] at hl
    have hs := CString.slice_add_of_eq_append hp'.symm
    have he : pend - rest.length = i + p.length := by omega
    rw [he, hs]
  · rw [CString.slice_of_ge (by omega)] at hp'
    obtain ⟨-, rfl⟩ := List.append_eq_nil_iff.mp hp'
    exact CString.slice_of_ge (by simp)

theorem after_one_slice (hp : pend ≤ pat.length) (a : Byte) (i : ℕ) :
    after [a] (pat.slice i pend) = if i < pend ∧ pat.get i = a then some (pat.slice (i + 1) pend) else none := by
  by_cases hi : i < pend
  · rw [CString.slice_cons hi hp]
    simp only [after, hi, true_and, eq_comm]
  · rw [CString.slice_of_ge (by omega)]
    simp [after, hi]

theorem after_two_slice (hp : pend ≤ pat.length) (a b : Byte) (i : ℕ) :
    after [a, b] (pat.slice i pend) =
      if i + 1 < pend ∧ pat.get i = a ∧ pat.get (i + 1) = b then some (pat.slice (i + 2) pend)
      else none := by
  by_cases hi : i + 1 < pend
  · rw [CString.slice_cons (by omega) hp, CString.slice_cons hi hp]
    simp only [after, hi, true_and, eq_comm (a := a), eq_comm (a := b)]
    split_ifs <;> simp_all
  · have hl : (pat.slice i pend).length < 2 := by rw [CString.length_slice hp]; omega
    rw [if_neg (by omega)]
    cases h : pat.slice i pend with
    | nil => rfl
    | cons c l =>
      cases l with
      | nil => by_cases hc : a = c <;> simp [after, hc]
      | cons d l =>
        rw [h, List.length_cons, List.length_cons] at hl
        omega

theorem after_closing_slice (hp : pend ≤ pat.length) (i : ℕ) :
    after ['\\', '}'] (pat.slice i pend) =
      if closesBrace pat i pend then some (pat.slice (i + 2) pend) else none := by
  rw [after_two_slice hp]
  unfold closesBrace
  simp only [decide_eq_true_eq, and_left_comm]

theorem digitsEnd_spec (hp : pend ≤ pat.length) (n i : ℕ) (hn : pend - i ≤ n) :
    pat.slice (digitsEnd pat pend n i) pend = (pat.slice i pend).dropWhile isDigit ∧
      digitsEnd pat pend n i = i + ((pat.slice i pend).takeWhile isDigit).length := by
  induction n generalizing i with
  | zero =>
    have hnil := CString.slice_of_ge (show pend ≤ i by omega) (s := pat)
    simp [digitsEnd, hnil]
  | succ n ih =>
    unfold digitsEnd
    by_cases hi : i < pend
    · rw [CString.slice_cons hi hp]
      by_cases hd : isDigit (pat.get i)
      · have := ih (i + 1) (by omega)
        simp only [hi, hd, and_self, if_true, List.dropWhile_cons, List.takeWhile_cons,
          List.length_cons]
        exact ⟨this.1, by omega⟩
      · simp [hi, hd, CString.slice_cons hi hp]
    · have hnil := CString.slice_of_ge (show pend ≤ i by omega) (s := pat)
      simp [hi, hnil]

/-- `atoi` stops before `pend` when the digits do. -/
theorem atoi_drop (i : ℕ) (h : (pat.slice i pend).dropWhile isDigit ≠ []) :
    atoi (pat.bytes.drop i) = atoi (pat.slice i pend) := by
  have hi : i < pend := by
    by_contra hi
    rw [CString.slice_of_ge (by omega)] at h
    exact h rfl
  have hsplit : pat.bytes.drop i = pat.slice i pend ++ (pat.bytes.drop i).drop (pend - i) := by
    unfold CString.slice
    rw [List.drop_take, List.take_append_drop]
  unfold atoi
  rw [hsplit, List.takeWhile_append, if_neg]
  intro hlen
  have := List.takeWhile_append_dropWhile (p := isDigit) (l := pat.slice i pend)
  have := congrArg List.length this
  rw [List.length_append, hlen] at this
  exact h (List.length_eq_zero_iff.mp (by omega))

theorem isEmpty_takeWhile_slice (hp : pend ≤ pat.length) (i : ℕ) :
    ((pat.slice i pend).takeWhile isDigit).isEmpty = true ↔ i ≥ pend ∨ ¬ isDigit (pat.get i) := by
  by_cases hi : i < pend
  · rw [CString.slice_cons hi hp]
    by_cases hd : isDigit (pat.get i) <;> simp [hd, hi]
  · simp [CString.slice_of_ge (show pend ≤ i by omega), not_lt.mp hi]

/-- A quantifier read from an index: its bounds and where the pattern goes on. -/
def atIndex (pend : ℕ) (r : (ℤ × ℤ) × List Byte) : BreRepetition :=
  ⟨r.1.1, r.1.2, pend - r.2.length⟩

theorem ok_eq_atIndex (hp : pend ≤ pat.length) {i : ℕ} (hi : i ≤ pend) (min max : ℤ) :
    Res.ok (⟨min, max, i⟩ : BreRepetition) =
      (Res.ok ((min, max), pat.slice i pend)).map (atIndex pend) := by
  have hl := CString.length_slice (i := i) hp
  simp only [Res.map_ok, atIndex, hl]
  congr 2
  omega

theorem closesBrace_lt {i : ℕ} (h : closesBrace pat i pend) : i + 1 < pend :=
  (of_decide_eq_true h).2.1

theorem closesBrace_of_ge (pat : CString) {i : ℕ} (h : i ≥ pend) : closesBrace pat i pend = false := by
  by_contra hc
  have := closesBrace_lt (eq_true_of_ne_false hc)
  omega

theorem parseBreRepetitionMax_eq (hp : pend ≤ pat.length) (min : ℤ) (i : ℕ) :
    parseBreRepetitionMax pat min i pend =
      (bracesMax min (pat.slice i pend)).map (atIndex pend) := by
  obtain ⟨hdrop, hend⟩ := digitsEnd_spec hp pend i (by omega)
  unfold parseBreRepetitionMax bracesMax
  rw [after_closing_slice hp]
  by_cases hi : i ≥ pend
  · have hnil := CString.slice_of_ge (s := pat) hi
    have hc : closesBrace pat i pend = false := closesBrace_of_ge pat hi
    simp [hi, hc, hnil]
  by_cases hc : closesBrace pat i pend
  · have hlt := closesBrace_lt hc
    simp only [hi, hc, if_true, if_false]
    exact ok_eq_atIndex hp (by omega) _ _
  simp only [hi, hc, if_false, isEmpty_takeWhile_slice hp, false_or, Bool.false_eq_true]
  by_cases hd : isDigit (pat.get i)
  swap
  · simp [hd]
  simp only [hd, not_true_eq_false, if_false]
  have hatoi : digitsEnd pat pend pend i < pend →
      atoi (pat.bytes.drop i) = atoi (pat.slice i pend) := by
    intro hlt
    apply atoi_drop
    rw [← hdrop, CString.slice_cons hlt hp]
    simp
  generalize atoi (pat.bytes.drop i) = max at hatoi ⊢
  generalize atoi (pat.slice i pend) = max' at hatoi ⊢
  rw [← hdrop, after_closing_slice hp]
  by_cases he : digitsEnd pat pend pend i ≥ pend
  · have hc : closesBrace pat (digitsEnd pat pend pend i) pend = false := closesBrace_of_ge pat he
    simp only [he, hc, true_or, if_true, Bool.false_eq_true, if_false, ite_self, Res.map_stop]
  obtain rfl := hatoi (by omega)
  by_cases hmax : max > breDupMax ∨ min > max
  · simp only [hmax, if_true, Res.map_stop]
  simp only [hmax, he, if_false, false_or]
  by_cases hc : closesBrace pat (digitsEnd pat pend pend i) pend
  · have hlt := closesBrace_lt hc
    simp only [hc, not_true_eq_false, if_false, if_true]
    exact ok_eq_atIndex hp (by omega) _ _
  · simp [hc]

/-- A brace quantifier needs a digit and `\}`, which is why a shorter rest is an error at once. -/
theorem braces_of_short {l : List Byte} (h : l.length < 3) : braces l = .stop .error := by
  have hlen := congrArg List.length (List.takeWhile_append_dropWhile (p := isDigit) (l := l))
  rw [List.length_append] at hlen
  unfold braces
  by_cases hd : (l.takeWhile isDigit).isEmpty
  · simp [hd]
  have hpos : 0 < (l.takeWhile isDigit).length := by
    rw [List.length_pos_iff]; simpa using hd
  have hshort : (l.dropWhile isDigit).length < 2 := by omega
  have hclose : after ['\\', '}'] (l.dropWhile isDigit) = none := by
    by_contra hne
    obtain ⟨rest, hr⟩ := Option.ne_none_iff_exists'.mp hne
    rw [after_eq hr, List.length_append, List.length_cons, List.length_cons] at hshort
    omega
  have hcomma : after [','] (l.dropWhile isDigit) = none ∨
      after [','] (l.dropWhile isDigit) = some [] := by
    match hdl : l.dropWhile isDigit with
    | [] => exact Or.inl rfl
    | [c] => simp only [after]; split_ifs <;> simp
    | _ :: _ :: _ => rw [hdl, List.length_cons, List.length_cons] at hshort; omega
  rw [hclose]
  generalize atoi l = n
  rcases hcomma with hcomma | hcomma <;> simp [hd, hcomma, bracesMax, after]

theorem parseBreRepetition_eq (hp : pend ≤ pat.length) (i : ℕ) :
    parseBreRepetition pat i pend =
      (match after ['\\', '{'] (pat.slice i pend) with
        | some rest => braces rest
        | none => .noMatch).map (atIndex pend) := by
  obtain ⟨hdrop, hend⟩ := digitsEnd_spec hp pend (i + 2) (by omega)
  unfold parseBreRepetition
  rw [after_two_slice hp]
  by_cases hopen : i + 1 < pend ∧ pat.get i = '\\' ∧ pat.get (i + 1) = '{'
  swap
  · rw [if_neg hopen]
    by_cases hshort : i + 5 > pend
    · rw [if_pos hshort, if_neg (by tauto)]
      rfl
    · rw [if_neg hshort, if_pos (by have : i + 1 < pend := by omega
                                    tauto)]
      rfl
  rw [if_pos hopen]
  obtain ⟨hlt, hb, ho⟩ := hopen
  by_cases hshort : i + 5 > pend
  · have hlen := CString.length_slice (i := i + 2) hp
    have herr : braces (pat.slice (i + 2) pend) = .stop .error := braces_of_short (by omega)
    rw [if_pos hshort, if_pos ⟨by omega, hb, hlt, ho⟩]
    simp only [herr, Res.map_stop]
  rw [if_neg hshort, if_neg (by simp [hb, ho])]
  unfold braces
  simp only [isEmpty_takeWhile_slice hp]
  by_cases hd : i + 2 ≥ pend ∨ ¬ isDigit (pat.get (i + 2))
  · simp only [hd, if_true, Res.map_stop]
  simp only [hd, if_false]
  have hatoi : digitsEnd pat pend pend (i + 2) < pend →
      atoi (pat.bytes.drop (i + 2)) = atoi (pat.slice (i + 2) pend) := by
    intro hlt
    apply atoi_drop
    rw [← hdrop, CString.slice_cons hlt hp]
    simp
  generalize atoi (pat.bytes.drop (i + 2)) = n at hatoi ⊢
  generalize atoi (pat.slice (i + 2) pend) = n' at hatoi ⊢
  rw [← hdrop, after_closing_slice hp, after_one_slice hp]
  by_cases he : digitsEnd pat pend pend (i + 2) ≥ pend
  · have hc := closesBrace_of_ge pat he
    simp only [he, hc, if_true, Bool.false_eq_true, if_false, ite_self, not_lt.mpr he, false_and,
      Res.map_stop]
  obtain rfl := hatoi (by omega)
  by_cases hmax : n > breDupMax
  · simp only [hmax, if_true, Res.map_stop]
  simp only [hmax, he, if_false]
  by_cases hc : closesBrace pat (digitsEnd pat pend pend (i + 2)) pend
  · have hlt := closesBrace_lt hc
    simp only [hc, if_true]
    exact ok_eq_atIndex hp (by omega) _ _
  by_cases hcomma : pat.get (digitsEnd pat pend pend (i + 2)) = ','
  · simp only [hc, hcomma, not_le.mp he, and_self, if_true, Bool.false_eq_true, if_false, ne_eq,
      not_true_eq_false]
    exact parseBreRepetitionMax_eq hp n _
  · simp only [hc, hcomma, and_false, if_true, Bool.false_eq_true, if_false, ne_eq,
      not_false_eq_true, Res.map_stop]

theorem parseQuantifier_eq (hp : pend ≤ pat.length) (i : ℕ) :
    parseQuantifier pat i pend = (quantifier (pat.slice i pend)).map (atIndex pend) := by
  unfold parseQuantifier quantifier
  rw [after_one_slice hp, after_two_slice hp, parseBreRepetition_eq hp]
  by_cases hstar : i < pend ∧ pat.get i = '*'
  · rw [if_pos hstar, if_pos hstar]
    exact ok_eq_atIndex hp hstar.1 _ _
  rw [if_neg hstar, if_neg hstar]
  by_cases hplus : i + 1 < pend ∧ pat.get i = '\\' ∧ pat.get (i + 1) = '+'
  · rw [if_pos hplus, if_pos hplus]
    exact ok_eq_atIndex hp hplus.1 _ _
  · rw [if_neg hplus]
    cases after ['\\', '{'] (pat.slice i pend) <;> simp [hplus]

theorem findGroupEnd_eq (hp : pend ≤ pat.length) (i : ℕ) :
    findGroupEnd pat i pend =
      (closeGroup (pat.slice (i + 2) pend)).map fun r => i + 2 + r.1.length := by
  unfold findGroupEnd
  generalize i + 2 = i
  generalize hn : pend - 1 - i = n
  induction n generalizing i with
  | zero =>
    have hl := CString.length_slice (i := i) hp
    match hs : pat.slice i pend with
    | [] => rfl
    | [c] =>
      have hc : after ['\\', ')'] [c] = none := by simp only [after]; split_ifs <;> rfl
      simp [closeGroup, hc]
    | _ :: _ :: _ => rw [hs] at hl; simp only [List.length_cons] at hl; omega
  | succ n ih =>
    have hc := CString.slice_cons (show i < pend by omega) hp
    have hnext := ih (i + 1) (by omega)
    rw [List.range'_succ, List.find?_cons, hnext, hc]
    simp only [closeGroup]
    rw [← hc, after_two_slice hp]
    by_cases hend : pat.get i = '\\' ∧ pat.get (i + 1) = ')'
    · have hlt : i + 1 < pend := by omega
      simp [hend, hlt]
    · have hno : ¬ (i + 1 < pend ∧ pat.get i = '\\' ∧ pat.get (i + 1) = ')') := fun h => hend h.2
      rw [if_neg hno]
      simp only [decide_eq_false hend, Option.map_map]
      congr 1
      funext r
      simp only [Function.comp, List.length_cons]
      omega

theorem find_bracket_eq (hp : pend ≤ pat.length) (i : ℕ) :
    ((List.range' i (pend - i)).find? fun i => pat.get i = ']') =
      (closeBracket (pat.slice i pend)).map fun r => i + r.1.length := by
  generalize hn : pend - i = n
  induction n generalizing i with
  | zero =>
    rw [CString.slice_of_ge (by omega)]
    rfl
  | succ n ih =>
    have hnext := ih (i + 1) (by omega)
    rw [List.range'_succ, List.find?_cons, hnext, CString.slice_cons (show i < pend by omega) hp]
    simp only [closeBracket]
    by_cases hb : pat.get i = ']'
    · simp [hb]
    · simp only [hb, if_false, decide_false, Option.map_map]
      congr 1
      funext r
      simp only [Function.comp, List.length_cons]
      omega

theorem findClassEndSimple_eq (hp : pend ≤ pat.length) (i : ℕ) :
    findClassEndSimple pat i pend =
      (closeClass (pat.slice (i + 1) pend)).map fun r => pend - r.2.length := by
  have hat (j : ℕ) (body rest : List Byte) (h : closeBracket (pat.slice j pend) = some (body, rest)) :
      j + body.length + 1 = pend - rest.length := by
    have hl := congrArg List.length (closeBracket_eq h).1
    rw [CString.length_slice hp] at hl
    simp only [List.length_append, List.length_singleton] at hl
    omega
  have hplain (j : ℕ) :
      (((List.range' j (pend - j)).find? fun i => pat.get i = ']').map (· + 1)) =
        (closeBracket (pat.slice j pend)).map fun r => pend - r.2.length := by
    rw [find_bracket_eq hp]
    cases hcb : closeBracket (pat.slice j pend) with
    | none => rfl
    | some r => simp [hat j r.1 r.2 hcb]
  unfold findClassEndSimple
  by_cases hi : i + 1 < pend
  · rw [CString.slice_cons hi hp]
    by_cases hinv : pat.get (i + 1) = '^'
    · simp only [closeClass, hi, hinv, and_self, if_true, Option.map_map]
      exact hplain (i + 2)
    · simp only [closeClass, hinv, and_false, if_false]
      rw [← CString.slice_cons hi hp]
      exact hplain (i + 1)
  · have hnil := CString.slice_of_ge (s := pat) (show pend ≤ i + 1 by omega)
    have hz : pend - (i + 1) = 0 := by omega
    simp [hi, hnil, hz, closeClass]

/-- The class loop reads up to the bracket and leaves it unread. -/
theorem inCharClassLoop_eq (hp : pend ≤ pat.length) (b : Byte) (n i : ℕ) (matched : Bool)
    (prev : Option Byte) {body rest : List Byte}
    (h : pat.slice i pend = body ++ (([']'] : List Byte) ++ rest))
    (hbody : ((']' : Char) : Byte) ∉ body) (hn : body.length < n) :
    inCharClassLoop b pat pend n i matched prev =
      (i + body.length, classLoop b body matched prev) := by
  induction n generalizing i matched prev body with
  | zero => omega
  | succ n ih =>
    have hlen := congrArg List.length h
    rw [CString.length_slice hp] at hlen
    simp only [List.length_append, List.length_singleton] at hlen
    have hi : i < pend := by omega
    rw [CString.slice_cons hi hp] at h
    unfold inCharClassLoop
    match body with
    | [] =>
      obtain ⟨hb, -⟩ := List.cons_eq_cons.mp h
      simp [hb, classLoop]
    | [x] =>
      obtain ⟨hx, htail⟩ := List.cons_eq_cons.mp h
      have hi' : i + 1 < pend := by simp at hlen; omega
      have hnext : pat.get (i + 1) = ']' := by
        rw [CString.slice_cons hi' hp] at htail
        exact (List.cons_eq_cons.mp htail).1
      have hne : x ≠ ((']' : Char) : Byte) := by simpa using Ne.symm (by simpa using hbody)
      have hrec := ih (i + 1) (matched || decide (x = b)) (some x) htail (by simp) (by simp at hn ⊢; omega)
      simp [hi, hx, hne, hnext, hrec, classLoop]
    | x :: d :: body =>
      obtain ⟨hx, htail⟩ := List.cons_eq_cons.mp h
      simp only [List.length_cons] at hlen hn
      have hi' : i + 1 < pend := by omega
      have htail' := htail
      rw [CString.slice_cons hi' hp] at htail'
      obtain ⟨hd, htail'⟩ := List.cons_eq_cons.mp htail'
      simp only [List.mem_cons, not_or] at hbody
      have hne : x ≠ ((']' : Char) : Byte) := Ne.symm hbody.1
      have hne' : d ≠ ((']' : Char) : Byte) := Ne.symm hbody.2.1
      have hskip := ih (i + 2) (matched || decide (prev.getD 0 ≤ b ∧ b ≤ d)) none htail' hbody.2.2
        (by omega)
      have hfree : ((']' : Char) : Byte) ∉ d :: body := by simpa using hbody.2
      have hstep := ih (i + 1) (matched || decide (x = b)) (some x) htail hfree
        (by simp only [List.length_cons]; omega)
      simp only [hi, hi', hx, hd, hne, hne', hskip, hstep, classLoop, ne_eq, not_false_eq_true,
        and_true, if_true, List.length_cons]
      split_ifs with hrange
      · congr 1; omega
      · congr 1; omega

theorem classLoop_eq_of_closeBracket (hp : pend ≤ pat.length) (b : Byte) (i : ℕ)
    {body rest : List Byte} (h : closeBracket (pat.slice i pend) = some (body, rest)) :
    inCharClassLoop b pat pend pend i false none =
        (i + body.length, classLoop b body false none) ∧
      i + body.length < pend ∧ pat.get (i + body.length) = ']' := by
  obtain ⟨hs, hbody⟩ := closeBracket_eq h
  have hlen := congrArg List.length hs
  rw [CString.length_slice hp] at hlen
  simp only [List.length_append, List.length_singleton] at hlen
  have hlt : i + body.length < pend := by omega
  refine ⟨inCharClassLoop_eq hp b pend i false none hs hbody (by omega), hlt, ?_⟩
  have hat := CString.slice_add_of_eq_append hs
  rw [CString.slice_cons hlt hp] at hat
  exact (List.cons_eq_cons.mp hat).1

theorem inCharClass_eq (hp : pend ≤ pat.length) (b : Byte) (i : ℕ) {body rest : List Byte}
    (h : closeClass (pat.slice (i + 1) pend) = some (body, rest)) :
    (inCharClass b pat i pend).any (·.1) = classAccepts body b := by
  have hi : i + 1 < pend := by
    by_contra hi
    rw [CString.slice_of_ge (by omega)] at h
    simp [closeClass] at h
  have h' := h
  rw [CString.slice_cons hi hp] at h'
  unfold inCharClass classAccepts
  by_cases hinv : pat.get (i + 1) = '^'
  · simp only [closeClass, hinv, if_true] at h'
    obtain ⟨⟨body', rest'⟩, hcb, he⟩ := Option.map_eq_some_iff.mp h'
    obtain ⟨rfl, rfl⟩ : ('^' : Byte) :: body' = body ∧ rest' = rest := by simpa using he
    obtain ⟨hloop, hlt, hget⟩ := classLoop_eq_of_closeBracket hp b (i + 2) hcb
    simp [hi, hinv, hloop, hget, not_le.mpr hlt]
  · simp only [closeClass, hinv, if_false] at h'
    rw [← CString.slice_cons hi hp] at h'
    obtain ⟨hloop, hlt, hget⟩ := classLoop_eq_of_closeBracket hp b (i + 1) h'
    have hhead : body.head? ≠ some (('^' : Char) : Byte) := by
      intro hh
      have hs := (closeBracket_eq h').1
      rw [CString.slice_cons hi hp] at hs
      cases body with
      | nil => simp at hh
      | cons c body =>
        obtain ⟨hc, -⟩ := List.cons_eq_cons.mp hs
        simp only [List.head?_cons, Option.some.injEq] at hh
        exact hinv (hc.trans hh)
    simp [hi, hinv, hloop, hget, not_le.mpr hlt, hhead]

theorem onceLiteral_eq (text : CString) {i : ℕ} (tpos : ℤ) :
    onceLiteral text pat i tpos = (Atom.literal (pat.get i)).once text tpos := by
  unfold onceLiteral Atom.once
  simp only [Atom.isLiteral, true_and, Atom.accepts]
  by_cases hneg : tpos < 0
  · rw [if_pos hneg, if_pos hneg]
  rw [if_neg hneg, if_neg hneg]
  cases text.read? tpos with
  | none => rfl
  | some b => by_cases hb : b = 0 <;> by_cases hs : isSpecial (pat.get i) <;> simp [hb, hs]

theorem onceDot_eq (text : CString) (tpos : ℤ) : onceDot text tpos = Atom.dot.once text tpos := by
  unfold onceDot Atom.once
  simp only [Atom.isLiteral, Bool.false_eq_true, false_and, if_false, Atom.accepts]
  cases text.read? tpos with
  | none => rfl
  | some b => by_cases hb : b = 0 <;> simp [hb]

theorem onceEscape_eq {i : ℕ} (hi : i + 1 < pend) (text : CString) (tpos : ℤ) :
    onceEscape text pat pend i tpos = (Atom.escape (pat.get (i + 1))).once text tpos := by
  unfold onceEscape Atom.once
  rw [if_neg (by omega)]
  simp only [Atom.isLiteral, Bool.false_eq_true, false_and, if_false, Atom.accepts]
  cases text.read? tpos with
  | none => rfl
  | some b =>
    by_cases hb : b = 0 <;> by_cases hs : isBracketEscape (pat.get (i + 1)) <;> simp [hb, hs]

theorem onceClass_eq (hp : pend ≤ pat.length) (text : CString) {i : ℕ} {body rest : List Byte}
    (h : closeClass (pat.slice (i + 1) pend) = some (body, rest)) (tpos : ℤ) :
    onceClass text pat pend i tpos = (Atom.cls body).once text tpos := by
  unfold onceClass Atom.once
  simp only [Atom.isLiteral, Bool.false_eq_true, false_and, if_false, inCharClass_eq hp _ _ h,
    Atom.accepts]
  cases text.read? tpos with
  | none => rfl
  | some b => by_cases hb : b = 0 <;> simp [hb]

end Indices

/-- `match_here` on a context executes the pattern text of that context. -/
def Executes (matchHere : MatchHere) (ctx : MatchContext) (l : List Byte) : Prop :=
  ∀ ti m, matchHere { ctx with ti := ti } m = (Prog.parse l).run noGuard codeRecorder ctx.text ti m

theorem matchAtom_eq {mh : MatchHere} {ctx : MatchContext} {once : ℤ → Res ℤ} {a : Atom}
    {atomEnd : ℕ} (hp : ctx.pend ≤ ctx.pat.length) (hle : atomEnd ≤ ctx.pend)
    (hmh : ∀ pi, atomEnd ≤ pi → Executes mh { ctx with pi := pi } (ctx.pat.slice pi ctx.pend))
    (honce : ∀ tpos, once tpos = a.once ctx.text tpos) (m : BreMatch) :
    matchAtom mh ctx m once atomEnd =
      (atomHead a (ctx.pat.slice atomEnd ctx.pend)).prog.run noGuard codeRecorder ctx.text ctx.ti m := by
  obtain rfl : once = a.once ctx.text := funext honce
  unfold matchAtom atomHead
  rw [parseQuantifier_eq hp]
  cases hq : quantifier (ctx.pat.slice atomEnd ctx.pend) with
  | stop s =>
    obtain rfl := quantifier_stop hq
    rfl
  | noMatch =>
    have hrest : (fun tpos => mh { ctx with ti := tpos, pi := atomEnd }) =
        (Prog.parse (ctx.pat.slice atomEnd ctx.pend)).run noGuard codeRecorder ctx.text :=
      funext fun tpos => funext fun m => hmh atomEnd le_rfl tpos m
    simp only [Res.map_noMatch, Head.prog, Prog.run, hrest]
  | ok r =>
    obtain ⟨q, rest⟩ := r
    obtain ⟨p, -, hl⟩ := quantifier_suffix hq
    have hlen := congrArg List.length hl
    rw [CString.length_slice hp, List.length_append] at hlen
    have hsuf := slice_of_suffix hp rest ⟨p, hl.symm⟩
    have hrest : (fun tpos => mh { ctx with ti := tpos, pi := ctx.pend - rest.length }) =
        (Prog.parse rest).run noGuard codeRecorder ctx.text := by
      funext tpos m
      have := hmh (ctx.pend - rest.length) (by omega) tpos m
      rwa [hsuf] at this
    simp only [Res.map_ok, atIndex, Head.prog, Prog.run, hrest]

/-- The special case is recognised by the text between the delimiters. -/
theorem isDotStar_iff {pat : CString} {pend i : ℕ} {inner : List Byte} (hp : pend ≤ pat.length)
    (hi : i ≤ pend) (h : pat.slice i pend = inner) :
    (pend = i + 2 ∧ pat.get i = '.' ∧ pat.get (i + 1) = '*') ↔ inner = (['.', '*'] : List Byte) := by
  constructor
  · rintro ⟨rfl, hdot, hstar⟩
    rw [← h, CString.slice_cons (by omega) hp, CString.slice_cons (by omega) hp,
      CString.slice_of_ge le_rfl, hdot, hstar]
  · rintro rfl
    have hl := CString.length_slice (i := i) hp
    rw [h] at hl
    simp only [List.length_cons, List.length_nil] at hl
    have hend : pend = i + 2 := by omega
    subst hend
    rw [CString.slice_cons (by omega) hp, CString.slice_cons (by omega) hp] at h
    obtain ⟨hdot, h⟩ := List.cons_eq_cons.mp h
    exact ⟨rfl, hdot, (List.cons_eq_cons.mp h).1⟩

theorem matchGroup_eq {mh : MatchHere} {ctx : MatchContext} (hp : ctx.pend ≤ ctx.pat.length)
    (hi : ctx.pi + 2 ≤ ctx.pend)
    (hmh : ∀ pi pend, ctx.pi < pi → pend ≤ ctx.pend →
      Executes mh { ctx with pi := pi, pend := pend } (ctx.pat.slice pi pend))
    (m : BreMatch) :
    matchGroup mh ctx m =
      (match closeGroup (ctx.pat.slice (ctx.pi + 2) ctx.pend) with
        | none => Head.bad
        | some (inner, rest) => groupHead inner rest).prog.run noGuard codeRecorder ctx.text ctx.ti m := by
  unfold matchGroup
  rw [findGroupEnd_eq hp]
  cases hg : closeGroup (ctx.pat.slice (ctx.pi + 2) ctx.pend) with
  | none => rfl
  | some r =>
    obtain ⟨inner, rest⟩ := r
    have hs := closeGroup_eq hg
    have hlen := congrArg List.length hs
    rw [CString.length_slice hp] at hlen
    simp only [List.length_append, List.length_cons, List.length_nil] at hlen
    have hle : ctx.pi + 2 + inner.length + 2 ≤ ctx.pend := by omega
    have hinner : ctx.pat.slice (ctx.pi + 2) (ctx.pi + 2 + inner.length) = inner :=
      CString.slice_left_of_eq_append (by omega) hs
    have hafter : ctx.pat.slice (ctx.pi + 2 + inner.length + 2) ctx.pend = rest := by
      have := CString.slice_add_of_eq_append (CString.slice_add_of_eq_append hs)
      simpa using this
    have honce : onceGroupInner mh ctx (ctx.pi + 2) (ctx.pi + 2 + inner.length) =
        (Prog.parse inner).run noGuard codeRecorder ctx.text := by
      funext tpos m
      have := hmh (ctx.pi + 2) (ctx.pi + 2 + inner.length) (by omega) (by omega) tpos m
      rwa [hinner] at this
    simp only [Option.map_some, parseQuantifier_eq hp, hafter, groupHead]
    cases hq : quantifier rest with
    | stop s =>
      obtain rfl := quantifier_stop hq
      rfl
    | noMatch =>
      have hrest : (fun tpos => mh { ctx with ti := tpos, pi := ctx.pi + 2 + inner.length + 2 }) =
          (Prog.parse rest).run noGuard codeRecorder ctx.text := by
        funext tpos m
        have := hmh (ctx.pi + 2 + inner.length + 2) ctx.pend (by omega) le_rfl tpos m
        rwa [hafter] at this
      have hdot := isDotStar_iff (show ctx.pi + 2 + inner.length ≤ ctx.pat.length by omega)
        (by omega) hinner
      simp only [Res.map_noMatch, Head.prog, matchGroupWithoutQuantifier, honce, hrest, hdot]
      split_ifs with hd
      · rfl
      · rfl
    | ok r =>
      obtain ⟨q, rest'⟩ := r
      obtain ⟨p, -, hl⟩ := quantifier_suffix hq
      have hlen' := congrArg List.length hl
      rw [List.length_append] at hlen'
      have hsuf := slice_of_suffix hp rest' ⟨p, by rw [← hl, ← hafter]⟩
      have hrest : (fun tpos => mh { ctx with ti := tpos, pi := ctx.pend - rest'.length }) =
          (Prog.parse rest').run noGuard codeRecorder ctx.text := by
        funext tpos m
        have := hmh (ctx.pend - rest'.length) ctx.pend (by omega) le_rfl tpos m
        rwa [hsuf] at this
      simp only [Res.map_ok, atIndex, Head.prog, matchGroupWithQuantifier, honce, hrest, Prog.run]
      rfl

theorem matchHere_eq_run (fuel : ℕ) (ctx : MatchContext) (m : BreMatch)
    (hp : ctx.pend ≤ ctx.pat.length) (hf : ctx.pend - ctx.pi < fuel) :
    matchHere fuel ctx m =
      (Prog.parse (ctx.pat.slice ctx.pi ctx.pend)).run noGuard codeRecorder ctx.text ctx.ti m := by
  induction fuel generalizing ctx m with
  | zero => omega
  | succ fuel ih =>
    unfold matchHere
    rw [Prog.parse_eq]
    by_cases hi : ctx.pi ≥ ctx.pend
    · rw [if_pos hi, CString.slice_of_ge hi]
      rfl
    have hi' : ctx.pi < ctx.pend := not_le.mp hi
    have hmh (pi pend : ℕ) (hlt : ctx.pi < pi) (hle : pend ≤ ctx.pend) :
        Executes (matchHere fuel) { ctx with pi := pi, pend := pend } (ctx.pat.slice pi pend) :=
      fun ti m => ih { ctx with ti := ti, pi := pi, pend := pend } m (hle.trans hp)
        (by simp only; omega)
    have hatom {a : Atom} {once : ℤ → Res ℤ} {atomEnd : ℕ} (hlt : ctx.pi < atomEnd)
        (hle : atomEnd ≤ ctx.pend) (honce : ∀ tpos, once tpos = a.once ctx.text tpos) :=
      matchAtom_eq hp hle (fun pi hpi => hmh pi ctx.pend (by omega) le_rfl) honce m
    have hesc : ctx.pi + 1 < ctx.pend →
        (ctx.pat.slice (ctx.pi + 1) ctx.pend).head? = some (ctx.pat.get (ctx.pi + 1)) := by
      intro hlt
      rw [CString.slice_cons hlt hp]
      rfl
    have hnil : ctx.pi + 1 = ctx.pend ↔ ctx.pat.slice (ctx.pi + 1) ctx.pend = [] := by
      have hl := CString.length_slice (i := ctx.pi + 1) hp
      rw [← List.length_eq_zero_iff]
      omega
    have hparen : (ctx.pi + 1 < ctx.pend ∧ ctx.pat.get (ctx.pi + 1) = '(') ↔
        (ctx.pat.slice (ctx.pi + 1) ctx.pend).head? = some (('(' : Char) : Byte) := by
      by_cases hlt : ctx.pi + 1 < ctx.pend
      · simp [hlt, hesc hlt]
      · simp [hlt, hnil.mp (by omega)]
    rw [if_neg hi, CString.slice_cons hi' hp]
    simp only [head, hnil]
    by_cases hend : ctx.pat.get ctx.pi = '$' ∧ ctx.pat.slice (ctx.pi + 1) ctx.pend = []
    · rw [if_pos hend, if_pos hend]
      rfl
    rw [if_neg hend, if_neg hend]
    by_cases hgroup : ctx.pat.get ctx.pi = '\\' ∧
        (ctx.pat.slice (ctx.pi + 1) ctx.pend).head? = some (('(' : Char) : Byte)
    · have hlt := (hparen.mpr hgroup.2).1
      rw [if_pos ⟨hgroup.1, hparen.mpr hgroup.2⟩, if_pos hgroup, matchGroup_eq hp hlt hmh,
        CString.slice_cons hlt hp]
      rfl
    rw [if_neg fun h => hgroup ⟨h.1, hparen.mp h.2⟩, if_neg hgroup]
    by_cases hclass : ctx.pat.get ctx.pi = '['
    · rw [if_pos hclass, if_pos hclass, findClassEndSimple_eq hp]
      cases hc : closeClass (ctx.pat.slice (ctx.pi + 1) ctx.pend) with
      | none => rfl
      | some r =>
        obtain ⟨body, rest⟩ := r
        have hs := closeClass_eq hc
        have hlen := congrArg List.length hs
        rw [CString.length_slice hp] at hlen
        simp only [List.length_append, List.length_singleton] at hlen
        have hsuf := slice_of_suffix hp rest (i := ctx.pi + 1)
          ⟨body ++ ([']'] : List Byte), by rw [hs, List.append_assoc]⟩
        simp only [Option.map_some]
        rw [hatom (by omega) (by omega) (onceClass_eq hp ctx.text hc), hsuf]
    rw [if_neg hclass, if_neg hclass]
    by_cases hdot : ctx.pat.get ctx.pi = '.'
    · rw [if_pos hdot, if_pos hdot, hatom (by omega) (by omega) (onceDot_eq ctx.text)]
    rw [if_neg hdot, if_neg hdot]
    by_cases hback : ctx.pat.get ctx.pi = '\\'
    · rw [if_pos hback, if_pos hback]
      by_cases hlt : ctx.pi + 1 < ctx.pend
      · rw [if_neg (by omega), CString.slice_cons hlt hp]
        simp only
        by_cases hbr : isBracketEscape (ctx.pat.get (ctx.pi + 1))
        · rw [if_pos hbr, if_pos hbr]
          rfl
        rw [if_neg hbr, if_neg hbr,
          hatom (by omega) (by omega) (onceEscape_eq hlt ctx.text)]
      · rw [if_pos (by omega), hnil.mp (by omega)]
        rfl
    rw [if_neg hback, if_neg hback, hatom (by omega) (by omega) (onceLiteral_eq ctx.text)]

end ValidcTools.Bre
