import ValidcTools.Ed.Address

/-! What the address parsers make of a string does not depend on the command that follows it, but for
a relative address at its end. -/
namespace ValidcTools.Ed

/-! ## Characters -/

def isLetter (c : Byte) : Bool := decide (('a' ≤ c ∧ c ≤ 'z') ∨ ('A' ≤ c ∧ c ≤ 'Z'))

theorem ne_of_isLetter {c d : Byte} (h : isLetter c = true) (hd : isLetter d = false) : c ≠ d := by
  intro heq
  rw [heq, hd] at h
  cases h

theorem isDigit_of_isLetter {c : Byte} (h : isLetter c = true) : isDigit c = false := by
  have hc : (97 ≤ c.toNat ∧ c.toNat ≤ 122) ∨ (65 ≤ c.toNat ∧ c.toNat ≤ 90) := of_decide_eq_true h
  have hnot : ¬ (48 ≤ c.toNat ∧ c.toNat ≤ 57) := by omega
  exact decide_eq_false hnot

theorem isBlank_of_isLetter {c : Byte} (h : isLetter c = true) : isBlank c = false := by
  apply decide_eq_false
  rintro (heq | heq)
  · exact ne_of_isLetter h (by decide) heq
  · exact ne_of_isLetter h (by decide) heq

theorem isSign_of_isLetter {c : Byte} (h : isLetter c = true) : isSign c = false := by
  apply decide_eq_false
  rintro (heq | heq)
  · exact ne_of_isLetter h (by decide) heq
  · exact ne_of_isLetter h (by decide) heq

theorem isSign_of_isDigit {c : Byte} (h : isDigit c = true) : isSign c = false := by
  have hc : 48 ≤ c.toNat ∧ c.toNat ≤ 57 := of_decide_eq_true h
  apply decide_eq_false
  rintro (heq | heq)
  · rw [heq] at hc
    exact absurd hc (by decide)
  · rw [heq] at hc
    exact absurd hc (by decide)

theorem skipBlanks_of_not_isBlank {c : Byte} (h : isBlank c = false) (p : List Byte) :
    skipBlanks (c :: p) = c :: p := by
  simp [skipBlanks, h]

theorem skipBlanks_append (p q : List Byte) :
    skipBlanks (p ++ q) = if skipBlanks p = [] then skipBlanks q else skipBlanks p ++ q := by
  induction p with
  | nil => rfl
  | cons c p ih =>
    by_cases hc : isBlank c = true
    · have hp : ∀ l : List Byte, skipBlanks (c :: l) = skipBlanks l := by
        intro l
        simp [skipBlanks, hc]
      rw [List.cons_append, hp, hp, ih]
    · have hc : isBlank c = false := by simpa using hc
      rw [List.cons_append, skipBlanks_of_not_isBlank hc, skipBlanks_of_not_isBlank hc,
        if_neg (List.cons_ne_nil c p), List.cons_append]

theorem skipBlanks_skipBlanks (p : List Byte) : skipBlanks (skipBlanks p) = skipBlanks p :=
  List.dropWhile_idempotent isBlank p

/-! ## Numbers -/

/-- A digit more: the check before the multiplication is exactly that the result fits. -/
theorem digit_overflow_iff {n d : ℤ} (hd : 0 ≤ d) (hd9 : d ≤ 9) :
    (n > intMax / 10 ∨ (n = intMax / 10 ∧ d > intMax % 10)) ↔ intMax < n * 10 + d := by
  unfold intMax
  omega

theorem toNat_digit_le {c : Byte} (h : isDigit c = true) : (c - ('0' : Char)).toNat ≤ 9 := by
  have hc : 48 ≤ c.toNat ∧ c.toNat ≤ 57 := of_decide_eq_true h
  have h0 : (((('0' : Char) : Byte))).toNat = 48 := rfl
  have hsub : (c - ('0' : Char)).toNat = c.toNat - 48 := by
    rw [UInt8.toNat_sub_of_le _ _ (UInt8.le_iff_toNat_le.mpr (by omega)), h0]
  omega

/-- The number that `parse_one_address` reads on top of `n`. -/
def digitsValue (n : ℤ) (ds : List Byte) : ℤ :=
  ds.foldl (fun n c => n * 10 + (c - ('0' : Char)).toNat) n

theorem le_digitsValue {n : ℤ} (hn : 0 ≤ n) (ds : List Byte) : n ≤ digitsValue n ds := by
  induction ds generalizing n with
  | nil => exact le_rfl
  | cons c ds ih =>
    have hstep := ih (n := n * 10 + (c - ('0' : Char)).toNat) (by omega)
    unfold digitsValue at hstep ⊢
    rw [List.foldl_cons]
    omega

/-- A string of digits is read whole, unless its value exceeds `INT_MAX`. -/
theorem parseDigits_eq {ds : List Byte} (hds : ∀ c ∈ ds, isDigit c = true) {n : ℤ} (hn : 0 ≤ n)
    (hmax : n ≤ intMax) :
    parseDigits n ds = if digitsValue n ds ≤ intMax then some (digitsValue n ds, []) else none := by
  induction ds generalizing n with
  | nil =>
    have hvalue : digitsValue n [] = n := rfl
    rw [hvalue, if_pos hmax]
    rfl
  | cons c ds ih =>
    have hc := hds c List.mem_cons_self
    have hdigit := toNat_digit_le hc
    have hvalue : digitsValue n (c :: ds) = digitsValue (n * 10 + (c - ('0' : Char)).toNat) ds := rfl
    unfold parseDigits
    rw [if_pos hc]
    by_cases hover : intMax < n * 10 + ((c - ('0' : Char)).toNat : ℤ)
    · have hle := le_digitsValue (n := n * 10 + (c - ('0' : Char)).toNat) (by omega) ds
      rw [if_pos ((digit_overflow_iff (by omega) (by omega)).mpr hover), if_neg (by omega)]
    · rw [if_neg (fun h => hover ((digit_overflow_iff (by omega) (by omega)).mp h)), hvalue]
      exact ih (fun c hc => hds c (List.mem_cons_of_mem _ hc)) (by omega) (by omega)

theorem parseDigits_append {q : List Byte} (hq : ∀ c, q.head? = some c → isDigit c = false)
    (p : List Byte) (n : ℤ) :
    parseDigits n (p ++ q) = (parseDigits n p).map fun x => (x.1, x.2 ++ q) := by
  induction p generalizing n with
  | nil =>
    cases q with
    | nil => rfl
    | cons c q => simp [parseDigits, hq c rfl]
  | cons c p ih =>
    rw [List.cons_append]
    unfold parseDigits
    dsimp only
    split_ifs
    · rfl
    · exact ih _
    · rfl

/-- The digits that were read are gone, and no digit is left where the number ends. -/
theorem parseDigits_consumed {p r : List Byte} {n v : ℤ} (h : parseDigits n p = some (v, r)) :
    ∃ ds, p = ds ++ r ∧ (∀ c ∈ ds, isDigit c = true) ∧ ∀ c, r.head? = some c → isDigit c = false := by
  induction p generalizing n with
  | nil =>
    obtain ⟨-, rfl⟩ := Prod.mk.inj (Option.some.inj h)
    exact ⟨[], rfl, by simp, by simp⟩
  | cons c p ih =>
    unfold parseDigits at h
    dsimp only at h
    split_ifs at h with hc hover
    · obtain ⟨ds, rfl, hds, hr⟩ := ih h
      refine ⟨c :: ds, rfl, fun b hb => ?_, hr⟩
      rcases List.mem_cons.mp hb with rfl | hb
      · exact hc
      · exact hds b hb
    · obtain ⟨-, rfl⟩ := Prod.mk.inj (Option.some.inj h)
      refine ⟨[], rfl, by simp, fun b hb => ?_⟩
      obtain rfl := Option.some.inj hb
      simpa using hc

theorem all_isDigit_iff {p r : List Byte} {n v : ℤ} (h : parseDigits n p = some (v, r)) :
    p.all isDigit = true ↔ r = [] := by
  obtain ⟨ds, rfl, hds, hr⟩ := parseDigits_consumed h
  cases r with
  | nil => simpa using hds
  | cons c r => simp [hr c rfl]

/-! ## One address -/

/-- A sign with digits and nothing else. -/
def isRelative : List Byte → Bool
  | [] => false
  | c :: p => isSign c && p.all isDigit

/-- A character that can stand in an address. -/
def isAddressChar (c : Byte) : Bool :=
  isDigit c || isSign c || isLetter c || decide (c = '$' ∨ c = '.' ∨ c = '\'')

theorem isDigit_ne {c d : Byte} (h : isDigit c = true) (hd : isDigit d = false) : c ≠ d := by
  intro heq
  rw [heq, hd] at h
  cases h

theorem isLetter_of_markIndex {c : Byte} {i : Fin 26} (h : markIndex c = some i) :
    isLetter c = true := by
  unfold markIndex at h
  split_ifs at h with hc
  have ha : 97 ≤ c.toNat := hc.2
  have hsub : (c - ('a' : Char)).toNat = c.toNat - 97 := UInt8.toNat_sub_of_le _ _ hc.2
  have hz : c.toNat ≤ 122 := by omega
  exact decide_eq_true (Or.inl ⟨hc.2, hz⟩)

theorem applyOffset_line {p0 p r : List Byte} {relative : Bool} {sign offset lastLine base a : ℤ}
    (h : applyOffset p0 relative sign offset lastLine base p = (.line a, r)) :
    a = (if relative then base + sign * offset else base) ∧ 0 ≤ a ∧ a ≤ lastLine ∧ r = p := by
  unfold applyOffset at h
  generalize (if relative then base + sign * offset else base) = b at h
  dsimp only at h
  split_ifs at h with hb
  · cases (Prod.mk.inj h).1
  · obtain ⟨ha, rfl⟩ := Prod.mk.inj h
    obtain rfl := Address.line.inj ha
    refine ⟨rfl, ?_, ?_, rfl⟩ <;> omega

/-- Where the string began and where it goes on matter only for the pointer. -/
theorem applyOffset_of_line {p0 p r : List Byte} {relative : Bool} {sign offset lastLine base a : ℤ}
    (h : applyOffset p0 relative sign offset lastLine base p = (.line a, r)) {p0' p' : List Byte} :
    applyOffset p0' relative sign offset lastLine base p' = (.line a, p') := by
  obtain ⟨rfl, hlo, hhi, -⟩ := applyOffset_line h
  unfold applyOffset
  dsimp only
  rw [if_neg (by omega)]

theorem applyOffset_ne_none {p0 p r : List Byte} {relative : Bool} {sign offset lastLine base : ℤ} :
    applyOffset p0 relative sign offset lastLine base p ≠ (.none, r) := by
  intro h
  have hfst := congrArg Prod.fst h
  unfold applyOffset at hfst
  dsimp only at hfst
  generalize (if relative then base + sign * offset else base) = b at hfst
  split_ifs at hfst

/-- Without an address nothing is consumed. -/
theorem parseOneAddress_none {current lastLine : ℤ} {marks : Marks} {p r : List Byte}
    (h : parseOneAddress p current lastLine marks = (.none, r)) : r = p := by
  cases p with
  | nil => exact (Prod.mk.inj h).2.symm
  | cons c cs =>
    unfold parseOneAddress at h
    dsimp only at h
    by_cases hstop : c = ',' ∨ c = ';' ∨ c = '\n' ∨ isSpace c = true
    · rw [if_pos hstop] at h
      exact (Prod.mk.inj h).2.symm
    · rw [if_neg hstop] at h
      cases hnum : if isSign c = true then parseDigits 0 cs else some (0, c :: cs) with
      | none =>
        rw [hnum] at h
        cases (Prod.mk.inj h).1
      | some v =>
        rw [hnum] at h
        dsimp only at h
        cases hbase : parseBase (isSign c) current lastLine marks v.2 with
        | mk x r' =>
          rw [hbase] at h
          cases x with
          | none => exact (Prod.mk.inj h).2.symm
          | error => cases (Prod.mk.inj h).1
          | line base => exact absurd h applyOffset_ne_none

/-- The stages of a successful `parse_one_address`. -/
theorem parseOneAddress_line {current lastLine a : ℤ} {marks : Marks} {p0 r : List Byte}
    (h : parseOneAddress p0 current lastLine marks = (.line a, r)) :
    ∃ c cs, p0 = c :: cs ∧ ¬ (c = ',' ∨ c = ';' ∨ c = '\n' ∨ isSpace c = true) ∧
      ∃ offset p base r',
        (if isSign c = true then parseDigits 0 cs else some (0, c :: cs)) = some (offset, p) ∧
        parseBase (isSign c) current lastLine marks p = (.line base, r') ∧
        applyOffset (c :: cs) (isSign c) (if c = '-' then -1 else 1) offset lastLine base r' =
          (.line a, r) := by
  cases p0 with
  | nil => cases (Prod.mk.inj h).1
  | cons c cs =>
    unfold parseOneAddress at h
    dsimp only at h
    by_cases hstop : c = ',' ∨ c = ';' ∨ c = '\n' ∨ isSpace c = true
    · rw [if_pos hstop] at h
      cases (Prod.mk.inj h).1
    · rw [if_neg hstop] at h
      cases hnum : if isSign c = true then parseDigits 0 cs else some (0, c :: cs) with
      | none =>
        rw [hnum] at h
        cases (Prod.mk.inj h).1
      | some v =>
        rw [hnum] at h
        dsimp only at h
        cases hbase : parseBase (isSign c) current lastLine marks v.2 with
        | mk x r' =>
          rw [hbase] at h
          cases x with
          | none => cases (Prod.mk.inj h).1
          | error => cases (Prod.mk.inj h).1
          | line base => exact ⟨c, cs, rfl, hstop, v.1, v.2, base, r', hnum, hbase, h⟩

theorem parseBase_consumed {relative : Bool} {current lastLine base : ℤ} {marks : Marks}
    {p r : List Byte} (h : parseBase relative current lastLine marks p = (.line base, r)) :
    ∃ u, p = u ++ r ∧ ∀ b ∈ u, isAddressChar b = true := by
  cases p with
  | nil =>
    obtain ⟨-, rfl⟩ := Prod.mk.inj h
    exact ⟨[], rfl, by simp⟩
  | cons d ds =>
    have hone : isAddressChar d = true → ∀ b ∈ [d], isAddressChar b = true := by
      intro hd b hb
      rw [List.mem_singleton.mp hb]
      exact hd
    simp only [parseBase] at h
    split_ifs at h with h₁ h₂ h₃ h₄ h₅
    · obtain ⟨-, rfl⟩ := Prod.mk.inj h
      exact ⟨[d], rfl, hone (by simp [isAddressChar, h₁])⟩
    · obtain ⟨-, rfl⟩ := Prod.mk.inj h
      exact ⟨[d], rfl, hone (by simp [isAddressChar, h₂])⟩
    · have hd : isAddressChar d = true := by
        rw [h₃.1]
        decide
      cases htail : ds.dropWhile isDigit with
      | nil =>
        simp only [htail] at h
        obtain ⟨-, rfl⟩ := Prod.mk.inj h
        exact ⟨[d], rfl, hone hd⟩
      | cons t ts =>
        simp only [htail] at h
        split_ifs at h
        · obtain ⟨-, rfl⟩ := Prod.mk.inj h
          exact ⟨[], rfl, by simp⟩
        · obtain ⟨-, rfl⟩ := Prod.mk.inj h
          exact ⟨[d], rfl, hone hd⟩
    · cases hv : parseDigits 0 (d :: ds) with
      | none =>
        rw [hv] at h
        cases (Prod.mk.inj h).1
      | some v =>
        rw [hv] at h
        obtain ⟨-, rfl⟩ := Prod.mk.inj h
        obtain ⟨u, hu, hdigits, -⟩ := parseDigits_consumed hv
        exact ⟨u, hu, fun b hb => by simp [isAddressChar, hdigits b hb]⟩
    · cases hm : ds.head?.bind markIndex with
      | none =>
        rw [hm] at h
        cases (Prod.mk.inj h).1
      | some i =>
        rw [hm] at h
        dsimp only at h
        split_ifs at h
        · cases (Prod.mk.inj h).1
        · obtain ⟨-, rfl⟩ := Prod.mk.inj h
          cases ds with
          | nil => cases hm
          | cons e es =>
            refine ⟨[d, e], rfl, fun b hb => ?_⟩
            rcases List.mem_cons.mp hb with rfl | hb
            · simp [isAddressChar, h₅]
            · rw [List.mem_singleton.mp hb]
              simp [isAddressChar, isLetter_of_markIndex hm]
    · cases (Prod.mk.inj h).1

/-- Only characters of addresses are consumed. -/
theorem parseOneAddress_consumed {current lastLine a : ℤ} {marks : Marks} {p r : List Byte}
    (h : parseOneAddress p current lastLine marks = (.line a, r)) :
    ∃ u, p = u ++ r ∧ ∀ b ∈ u, isAddressChar b = true := by
  obtain ⟨d, ds, rfl, -, offset, p, base, r', hnum, hbase, hoff⟩ := parseOneAddress_line h
  obtain ⟨-, -, -, rfl⟩ := applyOffset_line hoff
  obtain ⟨u, rfl, hu⟩ := parseBase_consumed hbase
  by_cases hsign : isSign d = true
  · rw [if_pos hsign] at hnum
    obtain ⟨digits, rfl, hdigits, -⟩ := parseDigits_consumed hnum
    refine ⟨d :: (digits ++ u), by simp, fun b hb => ?_⟩
    rcases List.mem_cons.mp hb with rfl | hb
    · simp [isAddressChar, hsign]
    · rcases List.mem_append.mp hb with hb | hb
      · simp [isAddressChar, hdigits b hb]
      · exact hu b hb
  · rw [if_neg hsign] at hnum
    obtain ⟨-, hd⟩ := Prod.mk.inj (Option.some.inj hnum)
    exact ⟨u, hd, hu⟩

/-- A character that an address can begin with, for `parse_one_address`. -/
def isAddressStart (c : Byte) : Bool := isDigit c || isSign c || decide (c = '$' ∨ c = '.' ∨ c = '\'')

theorem isAddressStart_of_isLetter {c : Byte} (h : isLetter c = true) : isAddressStart c = false := by
  have h₁ := ne_of_isLetter (d := '$') h (by decide)
  have h₂ := ne_of_isLetter (d := '.') h (by decide)
  have h₃ := ne_of_isLetter (d := '\'') h (by decide)
  simp [isAddressStart, isDigit_of_isLetter h, isSign_of_isLetter h, h₁, h₂, h₃]

theorem parseBase_of_not_start {c : Byte} (h : isAddressStart c = false) (relative : Bool)
    (p : List Byte) (current lastLine : ℤ) (marks : Marks) :
    parseBase relative current lastLine marks (c :: p) = (.none, c :: p) := by
  simp only [isAddressStart, Bool.or_eq_false_iff, decide_eq_false_iff_not, not_or] at h
  obtain ⟨⟨hdigit, -⟩, hdollar, hdot, hquote⟩ := h
  have hzero : c ≠ '0' := by
    rintro rfl
    exact absurd hdigit (by decide)
  simp only [parseBase, hdollar, hdot, hzero, hdigit, hquote, false_and, if_false, Bool.false_eq_true]

theorem parseOneAddress_of_not_start {c : Byte} (h : isAddressStart c = false) (p : List Byte)
    (current lastLine : ℤ) (marks : Marks) :
    parseOneAddress (c :: p) current lastLine marks = (.none, c :: p) := by
  have hsign : isSign c = false := by
    simp only [isAddressStart, Bool.or_eq_false_iff] at h
    exact h.1.2
  simp only [parseOneAddress, hsign, Bool.false_eq_true, if_false, parseBase_of_not_start h, ite_self]

section Context

variable {c : Byte} {args : List Byte} (hc : isLetter c = true)

include hc

theorem dropWhile_isDigit_append (p : List Byte) :
    (p ++ c :: args).dropWhile isDigit =
      if p.dropWhile isDigit = [] then c :: args else p.dropWhile isDigit ++ c :: args := by
  rw [List.dropWhile_append]
  split_ifs with h1 h2 h2
  · simp [isDigit_of_isLetter hc]
  · exact absurd (by simpa using h1) h2
  · exact absurd h2 (by simpa using h1)
  · rfl

/-- No address begins with a letter. -/
theorem parseOneAddress_letter (current lastLine : ℤ) (marks : Marks) :
    parseOneAddress (c :: args) current lastLine marks = (.none, c :: args) :=
  parseOneAddress_of_not_start (isAddressStart_of_isLetter hc) args current lastLine marks

/-- After a sign and its digits a letter is no address either. -/
theorem parseBase_letter (relative : Bool) (current lastLine : ℤ) (marks : Marks) :
    parseBase relative current lastLine marks (c :: args) = (.none, c :: args) :=
  parseBase_of_not_start (isAddressStart_of_isLetter hc) relative args current lastLine marks

/-- What `parse_one_address` reads before the offset does not depend on what follows it. -/
theorem parseBase_append {relative : Bool} {current lastLine : ℤ} {marks : Marks} {p r : List Byte}
    {x : Address} (hp : p ≠ []) (h : parseBase relative current lastLine marks p = (x, r))
    (hx : x ≠ .none) :
    parseBase relative current lastLine marks (p ++ c :: args) = (x, r ++ c :: args) := by
  cases p with
  | nil => exact absurd rfl hp
  | cons d ds =>
    simp only [List.cons_append, parseBase] at h ⊢
    split_ifs at h ⊢ with h₁ h₂ h₃ h₄ h₅
    · obtain ⟨rfl, rfl⟩ := Prod.mk.inj h
      rfl
    · obtain ⟨rfl, rfl⟩ := Prod.mk.inj h
      rfl
    · rw [dropWhile_isDigit_append hc]
      cases htail : ds.dropWhile isDigit with
      | nil =>
        simp only [htail] at h
        obtain ⟨rfl, rfl⟩ := Prod.mk.inj h
        rw [if_pos rfl]
        simp [isSign_of_isLetter hc]
      | cons t ts =>
        simp only [htail] at h
        rw [if_neg (List.cons_ne_nil t ts)]
        simp only [List.cons_append]
        split_ifs at h ⊢
        · obtain ⟨rfl, rfl⟩ := Prod.mk.inj h
          rfl
        · obtain ⟨rfl, rfl⟩ := Prod.mk.inj h
          rfl
    · have hq : ∀ b, (c :: args).head? = some b → isDigit b = false := by
        intro b hb
        obtain rfl := Option.some.inj hb
        exact isDigit_of_isLetter hc
      rw [← List.cons_append, parseDigits_append hq]
      cases hd : parseDigits 0 (d :: ds) with
      | none =>
        rw [hd] at h
        obtain ⟨rfl, rfl⟩ := Prod.mk.inj h
        rfl
      | some v =>
        rw [hd] at h
        obtain ⟨rfl, rfl⟩ := Prod.mk.inj h
        rfl
    · cases ds with
      | nil =>
        simp only [List.head?_nil, Option.bind_none] at h
        exact absurd (Prod.mk.inj h).1.symm hx
      | cons e es =>
        rw [List.cons_append, List.head?_cons] at *
        cases hm : (some e).bind markIndex with
        | none =>
          rw [hm] at h
          exact absurd (Prod.mk.inj h).1.symm hx
        | some i =>
          rw [hm] at h
          simp only at h ⊢
          split_ifs at h ⊢
          · obtain ⟨rfl, rfl⟩ := Prod.mk.inj h
            rfl
          · obtain ⟨rfl, rfl⟩ := Prod.mk.inj h
            rfl
    · exact absurd (Prod.mk.inj h).1.symm hx

/-- An address is read alike before a command, unless it is a relative one: then nothing is read. -/
theorem parseOneAddress_append {current lastLine a : ℤ} {marks : Marks} {p r : List Byte}
    (h : parseOneAddress p current lastLine marks = (.line a, r)) :
    parseOneAddress (p ++ c :: args) current lastLine marks =
      if isRelative p then (.none, p ++ c :: args) else (.line a, r ++ c :: args) := by
  obtain ⟨d, ds, rfl, hstop, offset, p, base, r', hnum, hbase, hoff⟩ := parseOneAddress_line h
  obtain ⟨-, -, -, rfl⟩ := applyOffset_line hoff
  have hq : ∀ b, (c :: args).head? = some b → isDigit b = false := by
    intro b hb
    obtain rfl := Option.some.inj hb
    exact isDigit_of_isLetter hc
  simp only [List.cons_append, parseOneAddress]
  rw [if_neg hstop]
  by_cases hsign : isSign d = true
  · rw [if_pos hsign] at hnum ⊢
    have hall := all_isDigit_iff hnum
    rw [parseDigits_append hq, hnum, Option.map_some]
    by_cases hp : p = []
    · subst hp
      have hrel : isRelative (d :: ds) = true := by simp only [isRelative, hsign, hall.mpr rfl, Bool.and_true]
      simp only [List.nil_append, parseBase_letter hc, hrel, if_true]
    · have hrel : isRelative (d :: ds) = false := by
        have hne : ds.all isDigit = false := by simpa using fun h0 => hp (hall.mp h0)
        simp only [isRelative, hne, Bool.and_false]
      simp only [parseBase_append hc hp hbase (by simp), hrel, Bool.false_eq_true, if_false]
      exact applyOffset_of_line hoff
  · rw [if_neg hsign] at hnum ⊢
    obtain ⟨rfl, rfl⟩ := Prod.mk.inj (Option.some.inj hnum)
    have hrel : isRelative (d :: ds) = false := by
      have hfalse : isSign d = false := by simpa using hsign
      simp only [isRelative, hfalse, Bool.false_and]
    have happend : parseBase (isSign d) current lastLine marks (d :: (ds ++ c :: args)) =
        (.line base, r ++ c :: args) := parseBase_append hc (List.cons_ne_nil d ds) hbase (by simp)
    simp only [happend, hrel, Bool.false_eq_true, if_false]
    exact applyOffset_of_line hoff

/-- A wrong address is wrong before a command too, unless it is a relative one: then nothing is read. -/
theorem parseOneAddress_append_error {current lastLine : ℤ} {marks : Marks} {p r : List Byte}
    (h : parseOneAddress p current lastLine marks = (.error, r)) :
    (parseOneAddress (p ++ c :: args) current lastLine marks).1 = .error ∨
      isRelative p = true ∧
        parseOneAddress (p ++ c :: args) current lastLine marks = (.none, p ++ c :: args) := by
  have hq : ∀ b, (c :: args).head? = some b → isDigit b = false := by
    intro b hb
    obtain rfl := Option.some.inj hb
    exact isDigit_of_isLetter hc
  cases p with
  | nil => cases (Prod.mk.inj h).1
  | cons d ds =>
    simp only [List.cons_append, parseOneAddress] at h ⊢
    by_cases hstop : d = ',' ∨ d = ';' ∨ d = '\n' ∨ isSpace d = true
    · rw [if_pos hstop] at h
      cases (Prod.mk.inj h).1
    rw [if_neg hstop] at h ⊢
    have hnumber : (if isSign d = true then parseDigits 0 (ds ++ c :: args)
        else some (0, d :: (ds ++ c :: args))) =
        (if isSign d = true then parseDigits 0 ds else some (0, d :: ds)).map
          fun x => (x.1, x.2 ++ c :: args) := by
      split_ifs
      · exact parseDigits_append hq ds 0
      · rfl
    rw [hnumber]
    cases hnum : if isSign d = true then parseDigits 0 ds else some (0, d :: ds) with
    | none => exact Or.inl rfl
    | some v =>
      obtain ⟨offset, p⟩ := v
      rw [hnum] at h
      rw [Option.map_some]
      dsimp only at h ⊢
      by_cases hp : p = []
      · subst hp
        by_cases hsign : isSign d = true
        · rw [if_pos hsign] at hnum
          right
          constructor
          · simp [isRelative, hsign, (all_isDigit_iff hnum).mpr rfl]
          · simp only [List.nil_append, parseBase_letter hc]
        · rw [if_neg hsign] at hnum
          cases (Prod.mk.inj (Option.some.inj hnum)).2
      · left
        cases hbase : parseBase (isSign d) current lastLine marks p with
        | mk x r' =>
          rw [hbase] at h
          cases x with
          | none => cases (Prod.mk.inj h).1
          | error => simp only [parseBase_append hc hp hbase (by simp)]
          | line base =>
            simp only [parseBase_append hc hp hbase (by simp)]
            simp only [applyOffset] at h ⊢
            generalize (if isSign d = true then base + (if d = '-' then -1 else 1) * offset else base) =
              b at h ⊢
            by_cases hb : b < 0 ∨ b > lastLine
            · rw [if_pos hb]
            · rw [if_neg hb] at h
              cases (Prod.mk.inj h).1

end Context

/-! ## An address prefix -/

/-- The text of the last address of a prefix. -/
def lastAddress (pre : List Byte) : List Byte :=
  match pre.dropWhile fun b : Byte => b ≠ ',' with
  | [] => skipBlanks pre
  | _ :: p => skipBlanks p

theorem lastAddress_of_comma {u p : List Byte} (hu : ((',' : Char) : Byte) ∉ u) :
    lastAddress (u ++ ((',' : Char) : Byte) :: p) = skipBlanks p := by
  have hdrop : (u ++ ((',' : Char) : Byte) :: p).dropWhile (fun b : Byte => b ≠ ',') =
      ((',' : Char) : Byte) :: p := by
    rw [List.dropWhile_append_of_pos fun b hb => by simpa using ne_of_mem_of_not_mem hb hu]
    simp
  unfold lastAddress
  rw [hdrop]

theorem lastAddress_of_not_mem {pre : List Byte} (h : ((',' : Char) : Byte) ∉ pre) :
    lastAddress pre = skipBlanks pre := by
  have hdrop : pre.dropWhile (fun b : Byte => b ≠ ',') = [] := by
    rw [List.dropWhile_eq_nil_iff]
    intro b hb
    simpa using ne_of_mem_of_not_mem hb h
  unfold lastAddress
  rw [hdrop]

/-- What is skipped as blanks. -/
theorem exists_blanks (p : List Byte) :
    ∃ u, p = u ++ skipBlanks p ∧ ∀ b ∈ u, isBlank b = true :=
  ⟨p.takeWhile isBlank, (List.takeWhile_append_dropWhile).symm, fun _ hb => List.mem_takeWhile_imp hb⟩

theorem comma_notMem_of_blanks {u : List Byte} (h : ∀ b ∈ u, isBlank b = true) :
    ((',' : Char) : Byte) ∉ u := fun hmem => absurd (h _ hmem) (by decide)

theorem comma_notMem_of_address {u : List Byte} (h : ∀ b ∈ u, isAddressChar b = true) :
    ((',' : Char) : Byte) ∉ u := fun hmem => absurd (h _ hmem) (by decide)

theorem comma_notMem_of_isRelative {p : List Byte} (h : isRelative p = true) :
    ((',' : Char) : Byte) ∉ p := by
  cases p with
  | nil => exact List.not_mem_nil
  | cons s t =>
    simp only [isRelative, Bool.and_eq_true, List.all_eq_true] at h
    intro hmem
    rcases List.mem_cons.mp hmem with rfl | hmem
    · exact absurd h.1 (by decide)
    · exact absurd (h.2 _ hmem) (by decide)

section Context

variable {c : Byte} {args : List Byte} (hc : isLetter c = true)

include hc

theorem skipBlanks_letter : skipBlanks (c :: args) = c :: args :=
  skipBlanks_of_not_isBlank (isBlank_of_isLetter hc) args

theorem skipBlanks_append_letter {p : List Byte} (h : skipBlanks p = []) :
    skipBlanks (p ++ c :: args) = c :: args := by
  rw [skipBlanks_append, if_pos h, skipBlanks_letter hc]

/-- What is read before a command when a relative address ends the prefix: the sign is left over. -/
def LeavesSign (x : Option EdAddress) : Prop := ∃ a s t, x = some a ∧ a.rest = s :: t ∧ isSign s = true

omit hc in
theorem leavesSign_of_isRelative {a : EdAddress} {p q : List Byte} (h : isRelative p = true)
    (ha : a.rest = p ++ q) : LeavesSign (some a) := by
  cases p with
  | nil => cases h
  | cons s t =>
    have hs : isSign s = true := by
      simp only [isRelative, Bool.and_eq_true] at h
      exact h.1
    exact ⟨a, s, t ++ q, rfl, ha, hs⟩

omit hc in
theorem isBlank_of_isSign {s : Byte} (h : isSign s = true) : isBlank s = false := by
  have hs : s = '+' ∨ s = '-' := of_decide_eq_true h
  rcases hs with rfl | rfl <;> decide

omit hc in
theorem skipBlanks_of_isRelative {p : List Byte} (h : isRelative p = true) (q : List Byte) :
    skipBlanks (p ++ q) = p ++ q := by
  cases p with
  | nil => cases h
  | cons s t =>
    simp only [isRelative, Bool.and_eq_true] at h
    exact skipBlanks_of_not_isBlank (isBlank_of_isSign h.1) (t ++ q)

/-- The second half of the parser, before a command. -/
theorem parseSecondAddress_append {addr1 current lastLine : ℤ} {marks : Marks} {r : List Byte}
    {a : EdAddress} (h : parseSecondAddress addr1 r current lastLine marks = some a)
    (hrest : a.rest = []) :
    (skipBlanks r = [] ∧
        parseSecondAddress addr1 (r ++ c :: args) current lastLine marks =
          some { a with rest := c :: args }) ∨
      ∃ p, skipBlanks r = ((',' : Char) : Byte) :: p ∧
        (isRelative (skipBlanks p) = false ∧
            parseSecondAddress addr1 (r ++ c :: args) current lastLine marks =
              some { a with rest := c :: args } ∨
          isRelative (skipBlanks p) = true ∧
            LeavesSign (parseSecondAddress addr1 (r ++ c :: args) current lastLine marks)) := by
  unfold parseSecondAddress at h ⊢
  cases hr : skipBlanks r with
  | nil =>
    rw [hr] at h
    obtain rfl := Option.some.inj h
    left
    refine ⟨rfl, ?_⟩
    rw [skipBlanks_append_letter hc hr]
    dsimp only
    rw [if_neg (ne_of_isLetter hc (by decide))]
  | cons d p =>
    rw [hr] at h
    rw [skipBlanks_append, if_neg (by rw [hr]; exact List.cons_ne_nil d p), hr]
    simp only [List.cons_append] at h ⊢
    by_cases hd : d = ','
    · subst hd
      right
      refine ⟨p, rfl, ?_⟩
      simp only [if_true] at h ⊢
      cases hone : parseOneAddress (skipBlanks p) current lastLine marks with
      | mk x r' =>
        rw [hone] at h
        cases x with
        | error => cases h
        | none =>
          obtain rfl := Option.some.inj h
          obtain rfl := parseOneAddress_none hone
          have hnil : skipBlanks p = [] := by
            dsimp only at hrest
            rwa [skipBlanks_skipBlanks] at hrest
          left
          rw [hnil, skipBlanks_append_letter hc hnil, parseOneAddress_letter hc]
          refine ⟨rfl, ?_⟩
          dsimp only
          rw [skipBlanks_letter hc]
        | line a2 =>
          obtain rfl := Option.some.inj h
          have hp : skipBlanks p ≠ [] := by
            intro h0
            rw [h0] at hone
            cases (Prod.mk.inj hone).1
          have happend : parseOneAddress (skipBlanks p ++ c :: args) current lastLine marks = _ :=
            parseOneAddress_append hc hone
          rw [skipBlanks_append, if_neg hp, happend]
          by_cases hrel : isRelative (skipBlanks p) = true
          · right
            rw [if_pos hrel]
            exact ⟨hrel, leavesSign_of_isRelative hrel (skipBlanks_of_isRelative hrel _)⟩
          · left
            rw [if_neg hrel]
            exact ⟨by simpa using hrel, by simp [skipBlanks_append_letter hc hrest]⟩
    · rw [if_neg hd] at h
      obtain rfl := Option.some.inj h
      cases hrest

/-- What the parser makes of a prefix that it accepts whole, once a command follows. -/
theorem parseEdAddress_append {current lastLine : ℤ} {marks : Marks} {pre : List Byte} {a : EdAddress}
    (h : parseEdAddress pre current lastLine marks = some a) (hrest : a.rest = []) :
    (isRelative (lastAddress pre) = false ∧
        parseEdAddress (pre ++ c :: args) current lastLine marks = some { a with rest := c :: args }) ∨
      (isRelative (lastAddress pre) = true ∧
        LeavesSign (parseEdAddress (pre ++ c :: args) current lastLine marks)) := by
  obtain ⟨u, hpre, hu⟩ := exists_blanks pre
  have hcomma := comma_notMem_of_blanks hu
  unfold parseEdAddress at h ⊢
  dsimp only at h ⊢
  cases hp : skipBlanks pre with
  | nil =>
    rw [hp] at h
    simp only [true_or, if_true] at h
    obtain rfl := Option.some.inj h
    left
    rw [hp, List.append_nil] at hpre
    have hlast : lastAddress pre = [] := by rw [lastAddress_of_not_mem (hpre ▸ hcomma), hp]
    rw [hlast, skipBlanks_append_letter hc hp, parseOneAddress_letter hc]
    have h₁ : c ≠ '#' := ne_of_isLetter hc (by decide)
    have h₂ : c ≠ ',' := ne_of_isLetter hc (by decide)
    simp [isRelative, h₁, h₂]
  | cons d p =>
    rw [hp] at h hpre
    have hskip : skipBlanks (pre ++ c :: args) = d :: (p ++ c :: args) := by
      rw [skipBlanks_append, hp, if_neg (List.cons_ne_nil d p), List.cons_append]
    rw [hskip]
    by_cases hhash : d = '#'
    · simp only [hhash, List.head?_cons, or_true, if_true] at h
      obtain rfl := Option.some.inj h
      cases hrest
    · simp only [reduceCtorEq, List.head?_cons, Option.some.injEq, hhash, or_self, if_false] at h ⊢
      cases hone : parseOneAddress (d :: p) current lastLine marks with
      | mk x r =>
        rw [hone] at h
        cases x with
        | error => cases h
        | none =>
          obtain rfl := parseOneAddress_none hone
          dsimp only at h
          by_cases hd : d = ','
          · subst hd
            simp only [List.head?_cons, if_true] at h
            have hnone : parseOneAddress (((',' : Char) : Byte) :: (p ++ c :: args)) current lastLine marks =
                (.none, ((',' : Char) : Byte) :: (p ++ c :: args)) := by
              simp [parseOneAddress]
            rw [hnone]
            simp only [List.head?_cons, if_true]
            have hlast : lastAddress pre = skipBlanks p := by
              rw [hpre]
              exact lastAddress_of_comma hcomma
            rw [hlast, ← List.cons_append]
            rcases parseSecondAddress_append hc h hrest with ⟨hnil, -⟩ | ⟨p', hcons, hor⟩
            · rw [skipBlanks_of_not_isBlank (by decide)] at hnil
              cases hnil
            · rw [skipBlanks_of_not_isBlank (by decide)] at hcons
              obtain ⟨-, rfl⟩ := List.cons.inj hcons
              exact hor
          · simp only [List.head?_cons, Option.some.injEq, hd, if_false] at h
            rw [← h] at hrest
            cases hrest
        | line a1 =>
          dsimp only at h
          obtain ⟨t, ht, htchars⟩ := parseOneAddress_consumed hone
          have htcomma := comma_notMem_of_address htchars
          have happend : parseOneAddress ((d :: p) ++ c :: args) current lastLine marks = _ :=
            parseOneAddress_append hc hone
          rw [List.cons_append] at happend
          rw [happend]
          by_cases hrel : isRelative (d :: p) = true
          · right
            have hnone := comma_notMem_of_isRelative hrel
            have hlast : lastAddress pre = d :: p := by
              rw [lastAddress_of_not_mem, hp]
              rw [hpre]
              exact List.not_mem_append hcomma hnone
            have hd : d ≠ ',' := fun h0 => hnone (h0 ▸ List.mem_cons_self)
            rw [if_pos hrel, hlast]
            refine ⟨hrel, ?_⟩
            dsimp only
            rw [if_neg (by simpa using hd)]
            exact leavesSign_of_isRelative (a := { rest := d :: (p ++ c :: args) }) hrel rfl
          · rw [if_neg hrel]
            dsimp only
            obtain ⟨v, hr, hv⟩ := exists_blanks r
            have hvcomma := comma_notMem_of_blanks hv
            rcases @parseSecondAddress_append c args hc _ _ _ _ _ _ h hrest with
              ⟨hnil, heq⟩ | ⟨p', hcons, hor⟩
            · left
              have hlast : lastAddress pre = d :: p := by
                rw [lastAddress_of_not_mem, hp]
                rw [hpre, ht, hr, hnil, List.append_nil]
                exact List.not_mem_append hcomma (List.not_mem_append htcomma hvcomma)
              rw [hlast]
              exact ⟨by simpa using hrel, heq⟩
            · have hlast : lastAddress pre = skipBlanks p' := by
                rw [hpre, ht, hr, hcons, ← List.append_assoc, ← List.append_assoc]
                exact lastAddress_of_comma
                  (List.not_mem_append (List.not_mem_append hcomma htcomma) hvcomma)
              rw [hlast]
              exact hor

theorem parseSecondAddress_append_error {addr1 current lastLine : ℤ} {marks : Marks} {r : List Byte}
    (h : parseSecondAddress addr1 r current lastLine marks = none) :
    parseSecondAddress addr1 (r ++ c :: args) current lastLine marks = none ∨
      LeavesSign (parseSecondAddress addr1 (r ++ c :: args) current lastLine marks) := by
  unfold parseSecondAddress at h ⊢
  cases hr : skipBlanks r with
  | nil =>
    rw [hr] at h
    cases h
  | cons d p =>
    rw [hr] at h
    rw [skipBlanks_append, if_neg (by rw [hr]; exact List.cons_ne_nil d p), hr]
    simp only [List.cons_append] at h ⊢
    by_cases hd : d = ','
    · rw [if_pos hd] at h ⊢
      cases hone : parseOneAddress (skipBlanks p) current lastLine marks with
      | mk x r' =>
        rw [hone] at h
        cases x with
        | none => cases h
        | line a2 => cases h
        | error =>
          have hp : skipBlanks p ≠ [] := by
            intro h0
            rw [h0] at hone
            cases (Prod.mk.inj hone).1
          rw [skipBlanks_append, if_neg hp]
          rcases @parseOneAddress_append_error c args hc _ _ _ _ _ hone with herr | ⟨hrel, hnone⟩
          · left
            cases hone' : parseOneAddress (skipBlanks p ++ c :: args) current lastLine marks with
            | mk x r' =>
              rw [hone'] at herr
              dsimp only at herr
              rw [herr]
          · right
            rw [hnone]
            exact leavesSign_of_isRelative hrel (skipBlanks_of_isRelative hrel _)
    · rw [if_neg hd] at h
      cases h

/-- A prefix that is rejected is rejected before a command too, or leaves a sign. -/
theorem parseEdAddress_append_error {current lastLine : ℤ} {marks : Marks} {pre : List Byte}
    (h : parseEdAddress pre current lastLine marks = none) :
    parseEdAddress (pre ++ c :: args) current lastLine marks = none ∨
      LeavesSign (parseEdAddress (pre ++ c :: args) current lastLine marks) := by
  unfold parseEdAddress at h ⊢
  dsimp only at h ⊢
  cases hp : skipBlanks pre with
  | nil =>
    rw [hp] at h
    simp at h
  | cons d p =>
    rw [hp] at h
    have hskip : skipBlanks (pre ++ c :: args) = d :: (p ++ c :: args) := by
      rw [skipBlanks_append, hp, if_neg (List.cons_ne_nil d p), List.cons_append]
    rw [hskip]
    by_cases hhash : d = '#'
    · simp [hhash] at h
    · simp only [reduceCtorEq, List.head?_cons, Option.some.injEq, hhash, or_self, if_false] at h ⊢
      cases hone : parseOneAddress (d :: p) current lastLine marks with
      | mk x r =>
        rw [hone] at h
        cases x with
        | error =>
          rcases @parseOneAddress_append_error c args hc _ _ _ _ _ hone with herr | ⟨hrel, hnone⟩
          · left
            rw [List.cons_append] at herr
            cases hone' : parseOneAddress (d :: (p ++ c :: args)) current lastLine marks with
            | mk x r' =>
              rw [hone'] at herr
              dsimp only at herr
              rw [herr]
          · right
            rw [List.cons_append] at hnone
            rw [hnone]
            have hd : d ≠ ',' := fun h0 => comma_notMem_of_isRelative hrel (h0 ▸ List.mem_cons_self)
            dsimp only
            rw [if_neg (by simpa using hd)]
            exact leavesSign_of_isRelative (a := { rest := d :: (p ++ c :: args) }) hrel rfl
        | none =>
          obtain rfl := parseOneAddress_none hone
          dsimp only at h
          by_cases hd : d = ','
          · subst hd
            simp only [List.head?_cons, if_true] at h
            have hnone : parseOneAddress (((',' : Char) : Byte) :: (p ++ c :: args)) current lastLine marks =
                (.none, ((',' : Char) : Byte) :: (p ++ c :: args)) := by
              simp [parseOneAddress]
            rw [hnone]
            simp only [List.head?_cons, if_true]
            exact parseSecondAddress_append_error hc h
          · simp [hd] at h
        | line a1 =>
          dsimp only at h
          have happend : parseOneAddress ((d :: p) ++ c :: args) current lastLine marks = _ :=
            parseOneAddress_append hc hone
          rw [List.cons_append] at happend
          rw [happend]
          by_cases hrel : isRelative (d :: p) = true
          · right
            have hd : d ≠ ',' := fun h0 => comma_notMem_of_isRelative hrel (h0 ▸ List.mem_cons_self)
            rw [if_pos hrel]
            dsimp only
            rw [if_neg (by simpa using hd)]
            exact leavesSign_of_isRelative (a := { rest := d :: (p ++ c :: args) }) hrel rfl
          · rw [if_neg hrel]
            exact parseSecondAddress_append_error hc h

end Context

/-! ## Bounds -/

/-- What `parse_ed_address` sets is in the buffer, but for a first address that it sets to 1 itself. -/
structure EdAddress.InBounds (a : EdAddress) (lastLine : ℤ) : Prop where
  addr1_nonneg : 0 ≤ a.addr1
  addr2_nonneg : 0 ≤ a.addr2
  addr2_le : a.addr2 ≤ lastLine
  addr1_le : a.addr1 ≤ max lastLine 1
  addr1_pos : a.addr1 = 0 → a.addr2 = 0

theorem parseOneAddress_bounds {current lastLine a : ℤ} {marks : Marks} {p r : List Byte}
    (h : parseOneAddress p current lastLine marks = (.line a, r)) : 0 ≤ a ∧ a ≤ lastLine := by
  obtain ⟨d, ds, rfl, -, offset, p, base, r', -, -, hoff⟩ := parseOneAddress_line h
  obtain ⟨-, hlo, hhi, -⟩ := applyOffset_line hoff
  exact ⟨hlo, hhi⟩

theorem parseSecondAddress_inBounds {addr1 current lastLine : ℤ} {marks : Marks} {r : List Byte}
    {a : EdAddress} (h : parseSecondAddress addr1 r current lastLine marks = some a)
    (hlo : 0 ≤ addr1) (hhi : addr1 ≤ lastLine) : a.InBounds lastLine := by
  unfold parseSecondAddress at h
  cases hr : skipBlanks r with
  | nil =>
    rw [hr] at h
    obtain rfl := Option.some.inj h
    exact ⟨hlo, hlo, hhi, le_max_of_le_left hhi, fun h0 => h0⟩
  | cons d p =>
    rw [hr] at h
    dsimp only at h
    have h1 : 0 < (if addr1 = 0 then 1 else addr1) := by split_ifs <;> omega
    have h2 : (if addr1 = 0 then 1 else addr1) ≤ max lastLine 1 := by split_ifs <;> omega
    generalize (if addr1 = 0 then 1 else addr1) = addr1' at h h1 h2
    split_ifs at h with hd
    · cases hone : parseOneAddress (skipBlanks p) current lastLine marks with
      | mk x r' =>
        rw [hone] at h
        cases x with
        | error => cases h
        | none =>
          obtain rfl := Option.some.inj h
          exact ⟨h1.le, hlo.trans hhi, le_rfl, h2, fun h0 => absurd h0 h1.ne'⟩
        | line a2 =>
          obtain rfl := Option.some.inj h
          obtain ⟨hlo2, hhi2⟩ := parseOneAddress_bounds hone
          exact ⟨h1.le, hlo2, hhi2, h2, fun h0 => absurd h0 h1.ne'⟩
    · obtain rfl := Option.some.inj h
      exact ⟨hlo, hlo, hhi, le_max_of_le_left hhi, fun h0 => h0⟩

theorem parseEdAddress_inBounds {current lastLine : ℤ} {marks : Marks} {line : List Byte}
    {a : EdAddress} (h : parseEdAddress line current lastLine marks = some a)
    (hlast : 0 ≤ lastLine) : a.InBounds lastLine := by
  have hempty : ∀ p, ({ rest := p } : EdAddress).InBounds lastLine := fun p =>
    ⟨le_rfl, le_rfl, hlast, le_max_of_le_left hlast, fun _ => rfl⟩
  unfold parseEdAddress at h
  dsimp only at h
  split_ifs at h
  · obtain rfl := Option.some.inj h
    exact hempty _
  · cases hone : parseOneAddress (skipBlanks line) current lastLine marks with
    | mk x r =>
      rw [hone] at h
      cases x with
      | error => cases h
      | none =>
        dsimp only at h
        split_ifs at h
        · exact parseSecondAddress_inBounds h le_rfl hlast
        · obtain rfl := Option.some.inj h
          exact hempty _
      | line a1 =>
        obtain ⟨hlo, hhi⟩ := parseOneAddress_bounds hone
        exact parseSecondAddress_inBounds h hlo hhi

end ValidcTools.Ed
