import ValidcTools.Sh23.ArithmeticSyntax

/-! What the lexer of shell arithmetic reads at a position of a well-formed text. -/
namespace ValidcTools.Sh23.Arithmetic

/-! ## Bytes -/

/-- No number and no name goes on into this text. -/
def Apart (s : List Byte) : Prop := ∀ c ∈ s.head?, isNameByte c = false

/-- This text makes no longer operator out of one before it. -/
def Opens (t : List Byte) : Prop := ∃ c ∈ t.head?, c ∉ lit "=<>&|"

theorem space_classes (c : Byte) (h : isSpace c = true) : isNameByte c = false ∧ c ∉ lit "=<>&|" :=
  forall_byte (P := fun c => isSpace c = true → isNameByte c = false ∧ c ∉ lit "=<>&|") (by decide +kernel) c h

/-- What digits are -/
theorem digit_classes (c : Byte) :
    (isHexDigit c = true ∨ isOctalDigit c = true → isNameByte c = true) ∧
    (isDigit c = true → strtolAuto [c] = ((digitValue c : ℤ), 1)) :=
  forall_byte (P := fun c => (isHexDigit c = true ∨ isOctalDigit c = true → isNameByte c = true) ∧
    (isDigit c = true → strtolAuto [c] = ((digitValue c : ℤ), 1))) (by decide +kernel) c

theorem space_apart (c : Byte) (h : isSpace c = true) : isNameByte c = false :=
  (space_classes c h).1

theorem space_opens (c : Byte) (h : isSpace c = true) : c ∉ lit "=<>&|" :=
  (space_classes c h).2

theorem nameByte_opens (c : Byte) (h : isNameByte c = true) : isSpace c = false ∧ c ∉ lit "=<>&|" :=
  forall_byte (P := fun c => isNameByte c = true → isSpace c = false ∧ c ∉ lit "=<>&|") (by decide +kernel) c h

theorem nameByte_cases (c : Byte) (h : isNameByte c = true) : isDigit c = true ∨ isDigit c = false ∧ isNameStart c = true := by
  cases hdigit : isDigit c with
  | true => exact Or.inl rfl
  | false =>
    right
    constructor
    · rfl
    · simpa [isNameByte, isNameStart, hdigit] using h

theorem nameByte_of_nameStart (c : Byte) (h : isNameStart c = true) : isNameByte c = true ∧ isDigit c = false := by
  rw [isNameStart, Bool.or_eq_true, Bool.and_eq_true, Bool.not_eq_true'] at h
  cases h with
  | inl h => exact ⟨by rw [isNameByte, h.1, Bool.true_or], h.2⟩
  | inr h =>
    rw [of_decide_eq_true h]
    decide

theorem nameByte_of_hexDigit (c : Byte) (h : isHexDigit c = true) : isNameByte c = true :=
  (digit_classes c).1 (Or.inl h)

theorem nameByte_of_digit (c : Byte) (h : isDigit c = true) : isNameByte c = true := by
  unfold isNameByte isAlnum
  rw [h]
  rfl

theorem nameByte_of_octalDigit (c : Byte) (h : isOctalDigit c = true) : isNameByte c = true :=
  (digit_classes c).1 (Or.inr h)

theorem strtolAuto_digit (c : Byte) (h : isDigit c = true) : strtolAuto [c] = ((digitValue c : ℤ), 1) :=
  (digit_classes c).2 h

theorem IsBlank.apart {ws : List Byte} (h : IsBlank ws) : Apart ws := by
  intro c hc
  exact space_apart c (h c (List.mem_of_mem_head? hc))

theorem IsBlank.apart_append {ws s : List Byte} (h : IsBlank ws) (hs : Apart s) : Apart (ws ++ s) := by
  cases ws with
  | nil => exact hs
  | cons c ws => exact fun d hd => h.apart d hd

theorem apart_cons {c : Byte} (h : isNameByte c = false) (s : List Byte) : Apart (c :: s) :=
  fun _ hd => Option.some.inj hd ▸ h

theorem Opens.append {t : List Byte} (h : Opens t) (s : List Byte) : Opens (t ++ s) := by
  obtain ⟨c, hc, hne⟩ := h
  cases t with
  | nil => cases hc
  | cons d t => exact ⟨c, hc, hne⟩

theorem IsBlank.opens_append {ws t : List Byte} (h : IsBlank ws) (ht : Opens t) : Opens (ws ++ t) := by
  cases ws with
  | nil => exact ht
  | cons c ws => exact ⟨c, rfl, space_opens c (h c List.mem_cons_self)⟩

/-! ## Words -/

theorem takeWhile_apart {p : Byte → Bool} (hp : ∀ c, p c = true → isNameByte c = true) (w : List Byte) {s : List Byte}
    (hs : Apart s) : (w ++ s).takeWhile p = w.takeWhile p := by
  have hnil : s.takeWhile p = [] := by
    cases s with
    | nil => rfl
    | cons c s =>
      have hc : isNameByte c = false := hs c rfl
      rw [List.takeWhile_cons, if_neg fun h => Bool.false_ne_true (hc.symm.trans (hp c h))]
  rw [List.takeWhile_append, hnil, List.append_nil]
  split_ifs with hlength
  · exact ((List.takeWhile_prefix p).eq_of_length hlength).symm
  · rfl

theorem strtolDigits_decimal {c : Byte} (hc : c ≠ 0x30) (p : List Byte) :
    strtolDigits (c :: p) = (10, 0, (c :: p).takeWhile isDigit) := by
  unfold strtolDigits
  split
  · rename_i heq
    exact absurd (List.cons.inj heq).1 hc
  · rename_i heq
    exact absurd (List.cons.inj heq).1 hc
  · rfl

theorem strtolDigits_octal {p : List Byte} (hp : ∀ x h rest, p = x :: h :: rest →
    ¬((x = ('x' : Byte) ∨ x = ('X' : Byte)) ∧ isHexDigit h = true)) :
    strtolDigits (0x30 :: p) = (8, 0, (0x30 :: p).takeWhile isOctalDigit) := by
  unfold strtolDigits
  split
  · rename_i x h rest heq
    rw [if_neg (hp x h rest (List.cons.inj heq).2)]
  · rfl
  · rename_i hne
    exact absurd rfl (hne p)

theorem strtolDigits_apart {w s : List Byte} (hw : w ≠ []) (hs : Apart s) : strtolDigits (w ++ s) = strtolDigits w := by
  have hoctal := fun a => takeWhile_apart nameByte_of_octalDigit a hs
  obtain ⟨c, p, rfl⟩ := List.exists_cons_of_ne_nil hw
  by_cases hc : c = 0x30
  · subst hc
    by_cases hhex : ∃ x h rest, p = x :: h :: rest ∧ (x = ('x' : Byte) ∨ x = ('X' : Byte)) ∧ isHexDigit h = true
    · obtain ⟨x, h, rest, rfl, hx, hh⟩ := hhex
      have hdigits := takeWhile_apart nameByte_of_hexDigit (h :: rest) hs
      rw [List.cons_append] at hdigits
      unfold strtolDigits
      simp only [List.cons_append, hx, hh, and_self, if_true, hdigits]
    · have hp : ∀ x h rest, p = x :: h :: rest → ¬((x = ('x' : Byte) ∨ x = ('X' : Byte)) ∧ isHexDigit h = true) :=
        fun x h rest heq hboth => hhex ⟨x, h, rest, heq, hboth⟩
      have hps : ∀ x h rest, p ++ s = x :: h :: rest → ¬((x = ('x' : Byte) ∨ x = ('X' : Byte)) ∧ isHexDigit h = true) := by
        rintro x h rest heq ⟨hx, hh⟩
        -- the first byte behind the number is not one of a name
        rcases p with _ | ⟨y, _ | ⟨z, p⟩⟩
        · obtain rfl : s = x :: h :: rest := heq
          rcases hx with rfl | rfl
          · exact absurd (hs _ rfl) (by decide)
          · exact absurd (hs _ rfl) (by decide)
        · obtain ⟨-, hs'⟩ := List.cons.inj heq
          obtain rfl : s = h :: rest := hs'
          exact Bool.false_ne_true ((hs h rfl).symm.trans (nameByte_of_hexDigit h hh))
        · obtain ⟨rfl, htail⟩ := List.cons.inj heq
          obtain ⟨rfl, -⟩ := List.cons.inj htail
          exact hp y z p rfl ⟨hx, hh⟩
      rw [strtolDigits_octal hp, List.cons_append, strtolDigits_octal hps, ← List.cons_append, hoctal]
  · rw [strtolDigits_decimal hc, List.cons_append, strtolDigits_decimal hc, ← List.cons_append,
      takeWhile_apart nameByte_of_digit _ hs]

theorem strtolAuto_apart {w s : List Byte} (hw : w ≠ []) (hs : Apart s) : strtolAuto (w ++ s) = strtolAuto w := by
  unfold strtolAuto
  rw [strtolDigits_apart hw hs]

theorem forall_of_takeWhile {p : Byte → Bool} (hp : ∀ c, p c = true → isNameByte c = true) {w : List Byte}
    (h : (w.takeWhile p).length = w.length) : ∀ c ∈ w, isNameByte c = true := by
  intro c hc
  rw [← (List.takeWhile_prefix p).eq_of_length h] at hc
  exact hp c (List.mem_takeWhile_imp hc)

/-- What the lexer reads as one token: a number or a name -/
def IsWord (w : List Byte) : Prop := IsLiteral w ∨ IsName w

theorem IsWord.ne_nil {w : List Byte} (h : IsWord w) : w ≠ [] := by
  rintro rfl
  obtain ⟨⟨c, hc, -⟩, -⟩ | ⟨⟨c, hc, -⟩, -⟩ := h
  · cases hc
  · cases hc

theorem IsLiteral.nameByte {w : List Byte} (h : IsLiteral w) : ∀ c ∈ w, isNameByte c = true := by
  obtain ⟨⟨c, hc, -⟩, hlength⟩ := h
  obtain ⟨p, rfl⟩ : ∃ p, w = c :: p := by
    cases w with
    | nil => cases hc
    | cons d p => exact ⟨p, by rw [Option.some.inj hc]⟩
  by_cases hzero : c = 0x30
  · subst hzero
    by_cases hhex : ∃ x h rest, p = x :: h :: rest ∧ (x = ('x' : Byte) ∨ x = ('X' : Byte)) ∧ isHexDigit h = true
    · obtain ⟨x, h, rest, rfl, hx, hh⟩ := hhex
      simp only [strtolAuto, strtolDigits, hx, hh, and_self, if_true, List.length_cons] at hlength
      have hdigits : ∀ c ∈ h :: rest, isNameByte c = true :=
        forall_of_takeWhile nameByte_of_hexDigit (by rw [List.length_cons]; omega)
      have hname : isNameByte x = true := by
        rcases hx with rfl | rfl
        · decide
        · decide
      exact List.forall_mem_cons.mpr ⟨by decide, List.forall_mem_cons.mpr ⟨hname, hdigits⟩⟩
    · have hp : ∀ x h rest, p = x :: h :: rest → ¬((x = ('x' : Byte) ∨ x = ('X' : Byte)) ∧ isHexDigit h = true) :=
        fun x h rest heq hboth => hhex ⟨x, h, rest, heq, hboth⟩
      simp only [strtolAuto, strtolDigits_octal hp, Nat.zero_add] at hlength
      exact forall_of_takeWhile nameByte_of_octalDigit hlength
  · simp only [strtolAuto, strtolDigits_decimal hzero, Nat.zero_add] at hlength
    exact forall_of_takeWhile nameByte_of_digit hlength

theorem IsWord.nameByte {w : List Byte} (h : IsWord w) : ∀ c ∈ w, isNameByte c = true := by
  rcases h with h | h
  · exact h.nameByte
  · exact h.2

theorem IsWord.opens {w : List Byte} (h : IsWord w) : Opens w := by
  obtain ⟨c, p, rfl⟩ := List.exists_cons_of_ne_nil h.ne_nil
  exact ⟨c, rfl, (nameByte_opens c (h.nameByte c List.mem_cons_self)).2⟩

theorem tokenAt_number {c : Byte} (h : isDigit c = true) (p : List Byte) :
    tokenAt (c :: p) = (⟨.number, (strtolAuto (c :: p)).1, []⟩, (strtolAuto (c :: p)).2) := by
  rw [tokenAt, if_pos h]

theorem tokenAt_name {c : Byte} (h : isNameStart c = true) (p : List Byte) :
    tokenAt (c :: p) = (⟨.var, 0, (c :: p).takeWhile isNameByte⟩, ((c :: p).takeWhile isNameByte).length) := by
  rw [tokenAt, if_neg (Bool.eq_false_iff.mp (nameByte_of_nameStart c h).2), if_pos h]

/-- A word is one token. -/
theorem IsWord.tokenAt {w s : List Byte} (h : IsWord w) (hs : Apart s) : ∃ token,
    Arithmetic.tokenAt (w ++ s) = (token, w.length) ∧ (token.type = .number ∨ token.type = .var) := by
  obtain ⟨c, p, rfl⟩ := List.exists_cons_of_ne_nil h.ne_nil
  obtain ⟨⟨d, hd, hdigit⟩, hlength⟩ | ⟨⟨d, hd, hstart⟩, hname⟩ := h
  · obtain rfl := Option.some.inj hd
    refine ⟨⟨.number, (strtolAuto (c :: p)).1, []⟩, ?_, .inl rfl⟩
    rw [List.cons_append, tokenAt_number hdigit, ← List.cons_append, strtolAuto_apart (List.cons_ne_nil _ _) hs, hlength]
  · obtain rfl := Option.some.inj hd
    have hall : (c :: p).takeWhile isNameByte = c :: p := List.takeWhile_eq_self_iff.mpr hname
    refine ⟨⟨.var, 0, c :: p⟩, ?_, .inr rfl⟩
    rw [List.cons_append, tokenAt_name hstart, ← List.cons_append, takeWhile_apart (fun _ h => h) _ hs, hall]

/-- So is its last byte. -/
theorem tokenAt_last {d : Byte} (hd : isNameByte d = true) {s : List Byte} (hs : Apart s) :
    Arithmetic.tokenAt (d :: s) = (if isDigit d then ⟨.number, digitValue d, []⟩ else ⟨.var, 0, [d]⟩, 1) := by
  rcases nameByte_cases d hd with hdigit | ⟨hdigit, hstart⟩
  · have hone : strtolAuto (d :: s) = _ := (strtolAuto_apart (w := [d]) (List.cons_ne_nil _ _) hs).trans (strtolAuto_digit d hdigit)
    rw [tokenAt_number hdigit, hone, if_pos hdigit]
  · have hone : (d :: s).takeWhile isNameByte = [d].takeWhile isNameByte := takeWhile_apart (fun _ h => h) [d] hs
    have hself : [d].takeWhile isNameByte = [d] := List.takeWhile_cons_of_pos hd
    rw [tokenAt_name hstart, hone, hself, hdigit]
    rfl

/-! ## Operators -/

theorem Opens.ne {t : List Byte} (h : Opens t) {c : Byte} (hc : c ∈ lit "=<>&|") : t.head? ≠ some c := by
  obtain ⟨d, hd, hne⟩ := h
  intro heq
  rw [heq] at hd
  exact hne (Option.some.inj hd ▸ hc)

theorem operatorToken_opens {t : List Byte} (ht : Opens t) (c : Byte) : operatorToken c t = operatorToken c [] := by
  have heq := ht.ne (c := ('=' : Byte)) (by decide)
  have hlt := ht.ne (c := ('<' : Byte)) (by decide)
  have hgt := ht.ne (c := ('>' : Byte)) (by decide)
  have hand := ht.ne (c := ('&' : Byte)) (by decide)
  have hor := ht.ne (c := ('|' : Byte)) (by decide)
  simp only [operatorToken, heq, hlt, hgt, hand, hor, List.head?_nil, reduceCtorEq, if_false]

theorem symbol_byte (op : TokenType) : op.symbol.length = 1 →
    operatorToken op.symbol.headI [] = (op, 1) ∧ isSpace op.symbol.headI = false ∧ isNameByte op.symbol.headI = false := by
  cases op <;> decide

theorem operator_byte {op : TokenType} {c : Byte} (hop : op.symbol = [c]) :
    operatorToken c [] = (op, 1) ∧ isSpace c = false ∧ isNameByte c = false := by
  have hbyte := symbol_byte op (congrArg List.length hop)
  rwa [hop] at hbyte

/-- An operator of one byte is read as one where the text behind it makes no longer one. -/
theorem tokenAt_operator {op : TokenType} {c : Byte} (hop : op.symbol = [c]) {t : List Byte} (ht : Opens t) :
    tokenAt (c :: t) = (⟨op, 0, []⟩, 1) := by
  obtain ⟨htoken, -, hname⟩ := operator_byte hop
  have hdigit : ¬isDigit c = true := fun h => Bool.false_ne_true (hname.symm.trans (nameByte_of_digit c h))
  have hstart : ¬isNameStart c = true := fun h => Bool.false_ne_true (hname.symm.trans (nameByte_of_nameStart c h).1)
  rw [tokenAt, if_neg hdigit, if_neg hstart, operatorToken_opens ht, htoken]

theorem unary_symbol {op : TokenType} (h : (arithUnary op).isSome = true) :
    ∃ c, op.symbol = [c] ∧ c ∉ lit "=<>&|" := by
  cases op <;> first
    | exact absurd h (by decide)
    | exact ⟨_, rfl, by decide⟩

theorem Reads.opens {k : ℕ} {t : List Byte} {e : Expr} (h : Reads k t e) : Opens t := by
  induction h with
  | number hws hliteral => exact hws.opens_append (IsWord.opens (.inl hliteral))
  | var hws hname => exact hws.opens_append (IsWord.opens (.inr hname))
  | paren hws _ _ _ => exact hws.opens_append ⟨_, rfl, by decide⟩
  | unary hop hws _ _ =>
    obtain ⟨c, hsymbol, hc⟩ := unary_symbol hop
    rw [hsymbol]
    exact hws.opens_append ⟨c, rfl, hc⟩
  | binary _ _ _ _ _ ih _ => exact ih.append _
  | logicalAnd _ _ _ ih _ => exact ih.append _
  | logicalOr _ _ _ ih _ => exact ih.append _
  | ternary _ _ _ _ _ ih _ _ => exact ih.append _
  | assign hws hname _ _ _ _ => exact hws.opens_append ((IsWord.opens (.inr hname)).append _)
  | comma _ _ _ ih _ => exact ih.append _
  | lift _ _ ih => exact ih

/-! ## Tokens of a well-formed text -/

theorem length_of_head {p : List Byte} {c : Byte} (h : p.head? = some c) : 1 ≤ p.length := by
  cases p with
  | nil => cases h
  | cons => exact Nat.succ_pos _

def operatorBytes : List Byte :=
  [('(' : Byte), (')' : Byte), ('+' : Byte), ('-' : Byte), ('*' : Byte), ('/' : Byte), ('%' : Byte), ('~' : Byte),
    ('!' : Byte), ('<' : Byte), ('>' : Byte), ('=' : Byte), ('&' : Byte), ('^' : Byte), ('|' : Byte), ('?' : Byte),
    (':' : Byte), (',' : Byte)]

/-- What begins with `c` ends inside the text, and is a token where `c` begins an operator. -/
def Fits (c : Byte) (p : List Byte) (x : TokenType × ℕ) : Prop :=
  0 < x.2 ∧ x.2 ≤ p.length + 1 ∧ (x.1 = .eof → c ∉ operatorBytes)

theorem operatorToken_fits (c : Byte) (p : List Byte) : Fits c p (operatorToken c p) := by
  have htail : ∀ d, p.tail.head? = some d → 2 ≤ p.length := by
    intro d hd
    have hlength := length_of_head hd
    rw [List.length_tail] at hlength
    omega
  have hfits : ∀ type n, type ≠ TokenType.eof → n ≤ p.length → Fits c p (type, n + 1) :=
    fun type n htype hn => ⟨Nat.succ_pos n, Nat.succ_le_succ hn, fun h => absurd h htype⟩
  unfold operatorToken
  dsimp only
  repeat' refine iteInduction (motive := Fits c p) (fun _ => ?_) fun _ => ?_
  all_goals first
    | exact hfits _ 0 TokenType.noConfusion (Nat.zero_le _)
    | exact hfits _ 2 TokenType.noConfusion (htail _ (by assumption))
    | exact hfits _ 1 TokenType.noConfusion (length_of_head (by assumption))
    | refine ⟨Nat.one_pos, Nat.le_add_left 1 _, fun _ hmem => ?_⟩
      simp only [operatorBytes, List.mem_cons, List.not_mem_nil, or_false] at hmem
      tauto

theorem strtolAuto_length {c : Byte} (h : isDigit c = true) (p : List Byte) :
    0 < (strtolAuto (c :: p)).2 ∧ (strtolAuto (c :: p)).2 ≤ p.length + 1 := by
  have hprefix : ∀ f : Byte → Bool, ((c :: p).takeWhile f).length ≤ p.length + 1 :=
    fun f => (List.takeWhile_prefix f).length_le
  have hpositive : ∀ f : Byte → Bool, f c = true → 0 < ((c :: p).takeWhile f).length := by
    intro f hf
    rw [List.takeWhile_cons_of_pos hf]
    exact Nat.succ_pos _
  by_cases hzero : c = 0x30
  · subst hzero
    by_cases hhex : ∃ x h rest, p = x :: h :: rest ∧ (x = ('x' : Byte) ∨ x = ('X' : Byte)) ∧ isHexDigit h = true
    · obtain ⟨x, h, rest, rfl, hx, hh⟩ := hhex
      have hdigits : ((h :: rest).takeWhile isHexDigit).length ≤ rest.length + 1 := (List.takeWhile_prefix isHexDigit).length_le
      simp only [strtolAuto, strtolDigits, hx, hh, and_self, if_true, List.length_cons]
      omega
    · have hp : ∀ x h rest, p = x :: h :: rest → ¬((x = ('x' : Byte) ∨ x = ('X' : Byte)) ∧ isHexDigit h = true) :=
        fun x h rest heq hboth => hhex ⟨x, h, rest, heq, hboth⟩
      simp only [strtolAuto, strtolDigits_octal hp, Nat.zero_add]
      exact ⟨hpositive _ (by decide), hprefix _⟩
  · simp only [strtolAuto, strtolDigits_decimal hzero, Nat.zero_add]
    exact ⟨hpositive _ h, hprefix _⟩

theorem tokenAt_length (c : Byte) (p : List Byte) : 0 < (tokenAt (c :: p)).2 ∧ (tokenAt (c :: p)).2 ≤ p.length + 1 := by
  unfold tokenAt
  dsimp only
  split_ifs with hdigit hstart
  · exact strtolAuto_length hdigit p
  · refine ⟨?_, (List.takeWhile_prefix isNameByte).length_le⟩
    rw [List.takeWhile_cons_of_pos (nameByte_of_nameStart c hstart).1]
    exact Nat.succ_pos _
  · exact ⟨(operatorToken_fits c p).1, (operatorToken_fits c p).2.1⟩

/-- A byte of a well-formed text -/
def Known (c : Byte) : Prop := isSpace c = true ∨ isNameByte c = true ∨ c ∈ operatorBytes

theorem Known.token {c : Byte} (h : Known c) (hc : isSpace c = false) (p : List Byte) : (tokenAt (c :: p)).1.type ≠ .eof := by
  unfold tokenAt
  dsimp only
  split_ifs with hdigit hstart
  · exact TokenType.noConfusion
  · exact TokenType.noConfusion
  · rcases h with hspace | hname | hoperator
    · exact absurd hspace (Bool.eq_false_iff.mp hc)
    · rcases nameByte_cases c hname with h | ⟨-, h⟩
      · exact absurd h hdigit
      · exact absurd h hstart
    · exact fun heof => (operatorToken_fits c p).2.2 heof hoperator

theorem symbol_known (op : TokenType) : ∀ c ∈ op.symbol, Known c := by
  have h : (op.symbol.all fun c => decide (c ∈ operatorBytes)) = true := by
    cases op <;> rfl
  exact fun c hc => .inr (.inr (of_decide_eq_true (List.all_eq_true.mp h c hc)))

theorem Reads.known {k : ℕ} {t : List Byte} {e : Expr} (h : Reads k t e) : ∀ c ∈ t, Known c := by
  have hblank : ∀ {ws : List Byte}, IsBlank ws → ∀ c ∈ ws, Known c := fun hws c hc => .inl (hws c hc)
  have hword : ∀ {w : List Byte}, IsWord w → ∀ c ∈ w, Known c := fun hw c hc => .inr (.inl (hw.nameByte c hc))
  induction h with
  | number hws hliteral => exact List.forall_mem_append.mpr ⟨hblank hws, hword (.inl hliteral)⟩
  | var hws hname => exact List.forall_mem_append.mpr ⟨hblank hws, hword (.inr hname)⟩
  | paren hws _ hws' ih =>
    simp only [List.forall_mem_append]
    exact ⟨hblank hws, symbol_known .lparen, ih, hblank hws', symbol_known .rparen⟩
  | unary _ hws _ ih =>
    simp only [List.forall_mem_append]
    exact ⟨hblank hws, symbol_known _, ih⟩
  | binary _ _ _ hws _ iha ihb =>
    simp only [List.forall_mem_append]
    exact ⟨iha, hblank hws, symbol_known _, ihb⟩
  | logicalAnd _ hws _ iha ihb =>
    simp only [List.forall_mem_append]
    exact ⟨iha, hblank hws, symbol_known .logicalAnd, ihb⟩
  | logicalOr _ hws _ iha ihb =>
    simp only [List.forall_mem_append]
    exact ⟨iha, hblank hws, symbol_known .logicalOr, ihb⟩
  | ternary _ hws _ hws' _ ihcond iha ihb =>
    simp only [List.forall_mem_append]
    exact ⟨ihcond, hblank hws, symbol_known .question, iha, hblank hws', symbol_known .colon, ihb⟩
  | @assign op _ _ _ _ _ hws hname hws' _ _ ih =>
    have hop : ∀ c ∈ op.elim [] TokenType.symbol, Known c := by
      cases op with
      | none => exact fun c hc => by cases hc
      | some o => exact symbol_known o
    simp only [List.forall_mem_append]
    exact ⟨hblank hws, hword (.inr hname), hblank hws', ⟨hop, symbol_known .assign⟩, ih⟩
  | comma _ hws _ iha ihb =>
    simp only [List.forall_mem_append]
    exact ⟨iha, hblank hws, symbol_known .comma, ihb⟩
  | lift _ _ ih => exact ih

/-- A text ends in a number, a name or a parenthesis. -/
theorem Reads.last {k : ℕ} {t : List Byte} {e : Expr} (h : Reads k t e) :
    ∃ init d, t = init ++ [d] ∧ (isNameByte d = true ∨ d = (')' : Byte)) := by
  have happend : ∀ {a b : List Byte}, (∃ init d, b = init ++ [d] ∧ (isNameByte d = true ∨ d = (')' : Byte))) →
      ∃ init d, a ++ b = init ++ [d] ∧ (isNameByte d = true ∨ d = (')' : Byte)) := by
    rintro a _ ⟨init, d, rfl, hd⟩
    exact ⟨a ++ init, d, (List.append_assoc a init [d]).symm, hd⟩
  have hword : ∀ {w : List Byte}, IsWord w → ∃ init d, w = init ++ [d] ∧ (isNameByte d = true ∨ d = (')' : Byte)) := by
    intro w hw
    exact ⟨w.dropLast, w.getLast hw.ne_nil, (List.dropLast_concat_getLast hw.ne_nil).symm,
      .inl (hw.nameByte _ (List.getLast_mem hw.ne_nil))⟩
  induction h with
  | number _ hliteral => exact happend (hword (.inl hliteral))
  | var _ hname => exact happend (hword (.inr hname))
  | paren _ _ _ _ => exact happend (happend (happend (happend ⟨[], _, rfl, .inr rfl⟩)))
  | unary _ _ _ ih => exact happend (happend ih)
  | binary _ _ _ _ _ _ ih => exact happend (happend (happend ih))
  | logicalAnd _ _ _ _ ih => exact happend (happend (happend ih))
  | logicalOr _ _ _ _ ih => exact happend (happend (happend ih))
  | ternary _ _ _ _ _ _ _ ih => exact happend (happend (happend (happend (happend (happend ih)))))
  | assign _ _ _ _ _ ih => exact happend (happend (happend (happend ih)))
  | comma _ _ _ _ ih => exact happend (happend (happend ih))
  | lift _ _ ih => exact ih

/-! ## Positions -/

section
variable {text : List Byte}

/-- What is left of the text from a position on -/
def At (text : List Byte) (pos : ℕ) (rest : List Byte) : Prop := pos ≤ text.length ∧ text.drop pos = rest

theorem At.skip {pos : ℕ} {a b : List Byte} (h : At text pos (a ++ b)) : At text (pos + a.length) b := by
  obtain ⟨hle, hdrop⟩ := h
  have hlength := congrArg List.length hdrop
  rw [List.length_drop, List.length_append] at hlength
  refine ⟨by omega, ?_⟩
  rw [← List.drop_drop, hdrop, List.drop_left]

theorem dropWhile_blank {ws rest : List Byte} (hws : IsBlank ws) (hrest : ∀ c ∈ rest.head?, isSpace c = false) :
    (ws ++ rest).dropWhile isSpace = rest ∧ (ws ++ rest).takeWhile isSpace = ws := by
  induction ws with
  | nil =>
    cases rest with
    | nil => exact ⟨rfl, rfl⟩
    | cons c rest =>
      have hc := hrest c rfl
      rw [List.nil_append, List.dropWhile_cons, List.takeWhile_cons, hc]
      exact ⟨rfl, rfl⟩
  | cons c ws ih =>
    have hc : isSpace c = true := hws c List.mem_cons_self
    obtain ⟨hdrop, htake⟩ := ih fun d hd => hws d (List.mem_cons_of_mem c hd)
    rw [List.cons_append, List.dropWhile_cons, List.takeWhile_cons, if_pos hc, if_pos hc, hdrop, htake]
    exact ⟨rfl, rfl⟩

theorem getToken_eq {pos : ℕ} (h : pos ≤ text.length) : getToken text pos =
    some ((tokenAt ((text.drop pos).dropWhile isSpace)).1,
      pos + ((text.drop pos).takeWhile isSpace).length + (tokenAt ((text.drop pos).dropWhile isSpace)).2) := by
  unfold getToken
  rw [if_neg (Nat.not_lt.mpr h)]

theorem getToken_at {pos : ℕ} {ws rest : List Byte} (h : At text pos (ws ++ rest)) (hws : IsBlank ws)
    (hrest : ∀ c ∈ rest.head?, isSpace c = false) :
    getToken text pos = some ((tokenAt rest).1, pos + ws.length + (tokenAt rest).2) := by
  obtain ⟨hdrop, htake⟩ := dropWhile_blank hws hrest
  rw [getToken_eq h.1, h.2, hdrop, htake]

theorem le_of_getToken {pos : ℕ} {x : Token × ℕ} (h : getToken text pos = some x) : pos ≤ text.length := by
  unfold getToken at h
  by_contra hlt
  rw [if_pos (Nat.lt_of_not_le hlt)] at h
  cases h

theorem getToken_le {pos : ℕ} {token : Token} {next : ℕ} (h : getToken text pos = some (token, next)) :
    next ≤ text.length ∧ (0 < text.length → 0 < next) := by
  have hle := le_of_getToken h
  rw [getToken_eq hle] at h
  obtain ⟨-, rfl⟩ := Prod.mk.inj (Option.some.inj h)
  have hlength := congrArg List.length (List.takeWhile_append_dropWhile (p := isSpace) (l := text.drop pos))
  rw [List.length_append, List.length_drop] at hlength
  rcases hrest : (text.drop pos).dropWhile isSpace with _ | ⟨c, p⟩
  · rw [hrest, List.length_nil] at hlength
    have hnone : (tokenAt []).2 = 0 := rfl
    rw [hnone]
    omega
  · rw [hrest, List.length_cons] at hlength
    obtain ⟨hpositive, hfits⟩ := tokenAt_length c p
    omega

/-- Where white space does not end a text, a token of the text is read at each position before its end. -/
theorem getToken_known {init : List Byte} {d : Byte} (hknown : ∀ c ∈ init ++ [d], Known c) (hd : isSpace d = false) {pos : ℕ}
    (hpos : pos < (init ++ [d]).length) : ∃ token next, getToken (init ++ [d]) pos = some (token, next) ∧ token.type ≠ .eof := by
  refine ⟨_, _, getToken_eq hpos.le, ?_⟩
  rcases hrest : ((init ++ [d]).drop pos).dropWhile isSpace with _ | ⟨c, p⟩
  · have hmem : d ∈ (init ++ [d]).drop pos := by
      rw [List.length_append, List.length_singleton] at hpos
      rw [List.drop_append_of_le_length (Nat.le_of_lt_succ hpos)]
      exact List.mem_append_right _ List.mem_cons_self
    exact absurd (List.dropWhile_eq_nil_iff.mp hrest d hmem) (Bool.eq_false_iff.mp hd)
  · have hc : isSpace c = false := by
      have hhead := List.head?_dropWhile_not isSpace ((init ++ [d]).drop pos)
      rw [hrest] at hhead
      simpa using hhead
    have hmem : c ∈ init ++ [d] := by
      have hsuffix : c :: p <:+ (init ++ [d]).drop pos := hrest ▸ List.dropWhile_suffix isSpace
      exact List.mem_of_mem_drop (hsuffix.subset List.mem_cons_self)
    exact (hknown c hmem).token hc p

/-- Before a token of one byte -/
def Before (text : List Byte) (c : Byte) (rest : List Byte) (pos : ℕ) : Prop :=
  ∃ ws, IsBlank ws ∧ At text pos (ws ++ c :: rest)

theorem rewind_succ (pos : ℕ) : rewind (pos + 1) = pos := by
  unfold rewind
  rw [if_neg (Nat.succ_ne_zero pos), Nat.add_sub_cancel]

theorem Before.token {c : Byte} {rest : List Byte} {token : Token} {pos : ℕ} (h : Before text c rest pos)
    (hc : isSpace c = false) (htoken : tokenAt (c :: rest) = (token, 1)) :
    ∃ p, getToken text pos = some (token, p + 1) ∧ At text (p + 1) rest ∧ Before text c rest p := by
  obtain ⟨ws, hws, hat⟩ := h
  refine ⟨pos + ws.length, ?_, ?_, [], by simp [IsBlank], hat.skip⟩
  · rw [getToken_at hat hws fun d hd => Option.some.inj hd ▸ hc, htoken]
  · have hskip := At.skip (a := [c]) hat.skip
    exact hskip

end

end ValidcTools.Sh23.Arithmetic
