import ValidcTools.Ed.AddressReading

/-! The `int` arithmetic of `parse_one_address`. -/
namespace ValidcTools.Ed

/-- The values of an `int` -/
def FitsInt (v : ℤ) : Prop := -intMax - 1 ≤ v ∧ v ≤ intMax

/-! ## Operations -/

/-- What a loop over decimal digits computes, up to a digit that it takes for an overflow -/
def digitOperations : ℤ → List Byte → List ℤ
  | _, [] => []
  | n, c :: p =>
    if isDigit c then
      let digit : ℤ := (c - '0').toNat
      if n > intMax / 10 ∨ (n = intMax / 10 ∧ digit > intMax % 10) then [digit]
      else digit :: n * 10 :: (n * 10 + digit) :: digitOperations (n * 10 + digit) p
    else []

/-- What is computed between the sign with its digits and the label `apply_offset` -/
def baseOperations (relative : Bool) (lastLine : ℤ) (marks : Marks) : List Byte → List ℤ
  | [] => []
  | d :: ds =>
    if d = '$' ∨ d = '.' ∨ d = '0' ∧ relative = false then []
    else if isDigit d then digitOperations 0 (d :: ds)
    else
      match if d = '\'' then ds.head?.bind markIndex else none with
      | some i => if marks i < 0 ∨ marks i ≥ lastLine then [(i : ℤ)] else [(i : ℤ), marks i + 1]
      | none => []

/-- The results of the operations of `parse_one_address` -/
def addressOperations (p0 : List Byte) (current lastLine : ℤ) (marks : Marks) : List ℤ :=
  match p0 with
  | [] => []
  | c :: cs =>
    if c = ',' ∨ c = ';' ∨ c = '\n' ∨ isSpace c then []
    else
      (if isSign c then digitOperations 0 cs else []) ++
      match if isSign c then parseDigits 0 cs else some (0, p0) with
      | none => []
      | some (offset, p) =>
        let sign : ℤ := if c = '-' then -1 else 1
        baseOperations (isSign c) lastLine marks p ++
        match parseBase (isSign c) current lastLine marks p with
        | (.line base, _) => if isSign c then [sign * offset, base + sign * offset] else []
        | _ => []

/-! ## Overflow -/

def NoOverflow (p0 : List Byte) (current lastLine : ℤ) (marks : Marks) : Prop :=
  ∀ v ∈ addressOperations p0 current lastLine marks, FitsInt v

/-- The line that stands behind a sign and a number, or the current line when nothing does -/
inductive Behind (current lastLine : ℤ) (marks : Marks) : List Byte → ℤ → Prop
  | nothing : Behind current lastLine marks [] current
  | last (t : List Byte) : Behind current lastLine marks (('$' : Char) :: t) lastLine
  | current (t : List Byte) : Behind current lastLine marks (('.' : Char) :: t) current
  | mark {e : Byte} {i : Fin 26} (t : List Byte) (he : markIndex e = some i) (hset : 0 ≤ marks i) (hin : marks i < lastLine) :
    Behind current lastLine marks (('\'' : Char) :: e :: t) (marks i + 1)

/-- After a `+` the line that the number is added to leaves room for it. -/
def SumsFit (p0 : List Byte) (current lastLine : ℤ) (marks : Marks) : Prop :=
  ∀ (o : Offset) (rest : List Byte) (base : ℤ), o.minus = false → NoDigit rest → p0 = o.text ++ rest →
    digitsValue 0 o.digits.bytes ≤ intMax → Behind current lastLine marks rest base →
      base + digitsValue 0 o.digits.bytes ≤ intMax

section
variable {current lastLine : ℤ} {marks : Marks} {rest : List Byte}

theorem digitOperations_fit {n v : ℤ} {p : List Byte} (hn : 0 ≤ n) (hmax : n ≤ intMax) (hv : v ∈ digitOperations n p) :
    0 ≤ v ∧ v ≤ intMax := by
  induction p generalizing n with
  | nil => cases hv
  | cons c p ih =>
    unfold digitOperations at hv
    by_cases hc : isDigit c = true
    · rw [if_pos hc] at hv
      have hdigit := toNat_digit_le hc
      have hnine : (9 : ℤ) ≤ intMax := by decide
      dsimp only at hv
      by_cases hover : n > intMax / 10 ∨ (n = intMax / 10 ∧ ((c - ('0' : Char)).toNat : ℤ) > intMax % 10)
      · rw [if_pos hover, List.mem_singleton] at hv
        omega
      · rw [if_neg hover] at hv
        have hfits := mt (digit_overflow_iff (by omega) (by omega)).mpr hover
        simp only [List.mem_cons] at hv
        rcases hv with rfl | rfl | rfl | hv
        · omega
        · omega
        · omega
        · exact ih (by omega) (by omega) hv
    · rw [if_neg hc] at hv
      cases hv

theorem baseOperations_fit {relative : Bool} {v : ℤ} {p : List Byte} (hlastMax : lastLine ≤ intMax)
    (hv : v ∈ baseOperations relative lastLine marks p) : 0 ≤ v ∧ v ≤ intMax := by
  cases p with
  | nil => cases hv
  | cons d ds =>
    simp only [baseOperations] at hv
    by_cases hplain : d = '$' ∨ d = '.' ∨ d = '0' ∧ relative = false
    · rw [if_pos hplain] at hv
      cases hv
    · rw [if_neg hplain] at hv
      by_cases hdigit : isDigit d = true
      · rw [if_pos hdigit] at hv
        exact digitOperations_fit le_rfl (by decide) hv
      · rw [if_neg hdigit] at hv
        cases hi : if d = '\'' then ds.head?.bind markIndex else none with
        | none =>
          rw [hi] at hv
          cases hv
        | some i =>
          rw [hi] at hv
          have hindex : (i : ℤ) < 26 := by exact_mod_cast i.isLt
          have hmax : (26 : ℤ) ≤ intMax := by decide
          dsimp only at hv
          split at hv
          · rw [List.mem_singleton] at hv
            omega
          · simp only [List.mem_cons, List.not_mem_nil, or_false] at hv
            rcases hv with rfl | rfl <;> omega

/-- What `parse_one_address` reads behind a sign and its digits -/
theorem parseBase_line_iff (hrest : NoDigit rest) {base : ℤ} :
    (∃ p, parseBase true current lastLine marks rest = (.line base, p)) ↔ Behind current lastLine marks rest base := by
  constructor
  · intro h
    obtain ⟨p, h⟩ := h
    cases rest with
    | nil =>
      obtain rfl := Address.line.inj (Prod.mk.inj h).1
      exact .nothing
    | cons c t =>
      have hdigit : ¬ isDigit c = true := by
        rw [hrest c rfl]
        decide
      simp only [parseBase] at h
      split_ifs at h with hdollar hdot hzero hquote
      · obtain rfl := Address.line.inj (Prod.mk.inj h).1
        exact hdollar ▸ .last t
      · obtain rfl := Address.line.inj (Prod.mk.inj h).1
        exact hdot ▸ .current t
      · exact absurd hzero.2 (by decide)
      · cases t with
        | nil => cases (Prod.mk.inj h).1
        | cons e t =>
          rw [List.head?_cons, Option.bind_some] at h
          cases he : markIndex e with
          | none =>
            rw [he] at h
            cases (Prod.mk.inj h).1
          | some i =>
            rw [he] at h
            dsimp only at h
            split_ifs at h with hbad
            · cases (Prod.mk.inj h).1
            · obtain rfl := Address.line.inj (Prod.mk.inj h).1
              obtain ⟨hset, hin⟩ := not_or.mp hbad
              exact hquote ▸ .mark t he (not_lt.mp hset) (not_le.mp hin)
      · cases (Prod.mk.inj h).1
  · intro h
    cases h with
    | nothing => exact ⟨_, rfl⟩
    | last t =>
      refine ⟨t, ?_⟩
      simp only [parseBase]
      exact if_pos trivial
    | current t =>
      refine ⟨t, ?_⟩
      simp only [parseBase]
      rw [if_neg (by decide)]
      exact if_pos trivial
    | mark t he hset hin =>
      refine ⟨t, ?_⟩
      simp only [parseBase]
      rw [if_neg (by decide), if_neg (by decide), if_neg (by decide), if_neg (by decide), if_pos trivial, List.head?_cons,
        Option.bind_some, he]
      exact if_neg (by omega)

theorem Behind.bounds {base : ℤ} (h : Behind current lastLine marks rest base) (hcurrent : 0 ≤ current)
    (hcurrentMax : current ≤ intMax) (hlast : 0 ≤ lastLine) (hlastMax : lastLine ≤ intMax) : 0 ≤ base ∧ base ≤ intMax := by
  cases h with
  | nothing => exact ⟨hcurrent, hcurrentMax⟩
  | last t => exact ⟨hlast, hlastMax⟩
  | current t => exact ⟨hcurrent, hcurrentMax⟩
  | mark t he hset hin => omega

/-- The operations on a sign, a number and what follows -/
theorem addressOperations_sign (o : Offset) (current lastLine : ℤ) (marks : Marks) (hrest : NoDigit rest) :
    addressOperations (o.text ++ rest) current lastLine marks = digitOperations 0 (o.digits.bytes ++ rest) ++
      if digitsValue 0 o.digits.bytes ≤ intMax then
        baseOperations true lastLine marks rest ++
          match parseBase true current lastLine marks rest with
          | (.line base, _) => [o.value, base + o.value]
          | _ => []
      else [] := by
  have hstop : ¬ (signByte o.minus = ',' ∨ signByte o.minus = ';' ∨ signByte o.minus = '\n' ∨
      isSpace (signByte o.minus) = true) := by
    cases o.minus <;> decide
  have hvalue : (if signByte o.minus = '-' then (-1 : ℤ) else 1) * digitsValue 0 o.digits.bytes = o.value := by
    unfold Offset.value
    cases o.minus <;> rfl
  unfold Offset.text
  rw [List.cons_append]
  simp only [addressOperations]
  rw [if_neg hstop, isSign_signByte, if_pos rfl, if_pos rfl, parseDigits_number o.digits hrest]
  by_cases hmax : digitsValue 0 o.digits.bytes ≤ intMax
  · rw [if_pos hmax, if_pos hmax]
    dsimp only
    rw [hvalue]
    rfl
  · rw [if_neg hmax, if_neg hmax]

/-- `parse_one_address` computes no number that an `int` does not have exactly when its sums fit. -/
theorem noOverflow_iff (p0 : List Byte) (marks : Marks) (hcurrent : 1 ≤ current) (hcurrentMax : current ≤ intMax)
    (hlast : 0 ≤ lastLine) (hlastMax : lastLine ≤ intMax) :
    NoOverflow p0 current lastLine marks ↔ SumsFit p0 current lastLine marks := by
  constructor
  · intro h o rest base hplus hrest hp0 hmax hbehind
    have hvalue : o.value = digitsValue 0 o.digits.bytes := by
      rw [Offset.value, hplus]
      exact one_mul _
    obtain ⟨p, hbase⟩ := (parseBase_line_iff hrest).mpr hbehind
    have hfits := h (base + o.value) (by
      rw [hp0, addressOperations_sign o current lastLine marks hrest, if_pos hmax, hbase]
      simp)
    rw [← hvalue]
    exact hfits.2
  · intro h v hv
    have hfits : 0 ≤ v ∧ v ≤ intMax → FitsInt v := by
      intro hboth
      unfold FitsInt
      omega
    cases p0 with
    | nil => cases hv
    | cons c cs =>
      by_cases hsign : isSign c = true
      · obtain ⟨o, ho⟩ : ∃ o : Offset, c = signByte o.minus ∧ o.digits.bytes = cs.takeWhile isDigit := by
          refine ⟨⟨decide (c = '-'), cs.takeWhile isDigit, fun d hd => List.mem_takeWhile_imp hd⟩, ?_, rfl⟩
          rcases of_decide_eq_true hsign with rfl | rfl <;> rfl
        have hrest := noDigit_dropWhile cs
        have hp0 : c :: cs = o.text ++ cs.dropWhile isDigit := by
          rw [Offset.text, List.cons_append, ho.2, List.takeWhile_append_dropWhile, ho.1]
        have hnonneg : 0 ≤ digitsValue 0 o.digits.bytes := le_digitsValue le_rfl _
        rw [hp0, addressOperations_sign o current lastLine marks hrest] at hv
        rcases List.mem_append.mp hv with hv | hv
        · exact hfits (digitOperations_fit le_rfl (by decide) hv)
        · by_cases hmax : digitsValue 0 o.digits.bytes ≤ intMax
          · rw [if_pos hmax] at hv
            rcases List.mem_append.mp hv with hv | hv
            · exact hfits (baseOperations_fit hlastMax hv)
            · cases hbase : parseBase true current lastLine marks (cs.dropWhile isDigit) with
              | mk x p =>
                rw [hbase] at hv
                cases x with
                | none => cases hv
                | error => cases hv
                | line base =>
                  have hbehind := (parseBase_line_iff hrest).mp ⟨p, hbase⟩
                  obtain ⟨hlo, hhi⟩ := hbehind.bounds (by omega) hcurrentMax hlast hlastMax
                  have hsum := h o (cs.dropWhile isDigit) base
                  unfold FitsInt
                  unfold Offset.value at hv
                  simp only [List.mem_cons, List.not_mem_nil, or_false] at hv
                  cases hminus : o.minus with
                  | true =>
                    rw [hminus] at hv
                    rcases hv with rfl | rfl <;> simp <;> omega
                  | false =>
                    have hle := hsum hminus hrest hp0 hmax hbehind
                    rw [hminus] at hv
                    rcases hv with rfl | rfl <;> simp <;> omega
          · rw [if_neg hmax] at hv
            cases hv
      · -- a number, a mark, `.` or `$`
        simp only [addressOperations, hsign, Bool.false_eq_true, if_false] at hv
        split at hv
        · cases hv
        · rw [List.nil_append] at hv
          rcases List.mem_append.mp hv with hv | hv
          · exact hfits (baseOperations_fit hlastMax hv)
          · split at hv <;> cases hv

theorem noOverflow_iff_1 : NoOverflow (CString.lit "+1p").bytes 3 9 (fun _ => -1) ↔
    SumsFit (CString.lit "+1p").bytes 3 9 fun _ => -1 :=
  noOverflow_iff _ _ (by decide) (by decide) (by decide) (by decide)

/-- `+2147483647` from line 1 on -/
theorem not_noOverflow_max : (2147483648 : ℤ) ∈ addressOperations (CString.lit "+2147483647").bytes 1 1 (fun _ => -1) ∧
    ¬ NoOverflow (CString.lit "+2147483647").bytes 1 1 fun _ => -1 := by
  have hmem : (2147483648 : ℤ) ∈ addressOperations (CString.lit "+2147483647").bytes 1 1 (fun _ => -1) := by decide
  refine ⟨hmem, fun h => ?_⟩
  exact absurd (h _ hmem).2 (by decide)

end

end ValidcTools.Ed
