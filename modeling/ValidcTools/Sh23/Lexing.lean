import ValidcTools.Sh23.Tokenizer

/-! The tokens of lines of words, blanks and operators. -/
namespace ValidcTools.Sh23

/-! ## Lines -/

/-- The bytes of words -/
def isWordByte (c : Byte) : Bool := !isSpace c && !isOperatorChar c && !(0 :: lit "'\"\\#$`~").contains c

/-- A line of words, blanks and operators, each the longest one there, with its words and operators -/
inductive Lexemes : List Byte → List (List Byte) → Prop
  | nil : Lexemes [] []
  | blank {c : Byte} {rest : List Byte} {ls : List (List Byte)} (hc : isSpace c = true ∧ c ≠ 0x0A) (hrest : Lexemes rest ls) :
      Lexemes (c :: rest) ls
  | word {w rest : List Byte} {ls : List (List Byte)} (hw : w ≠ [] ∧ ∀ c ∈ w, isWordByte c = true)
      (hend : ∀ c ∈ rest.head?, isWordByte c = false) (hrest : Lexemes rest ls) : Lexemes (w ++ rest) (w :: ls)
  | operator {op rest : List Byte} {ls : List (List Byte)} (hop : op ∈ operators.map fun op => lit op.1)
      (hlongest : ∀ op' ∈ operators.map fun op => lit op.1, op' <+: op ++ rest → op'.length ≤ op.length)
      (hdocument : op ≠ lit "<<" ∧ op ≠ lit "<<-") (hrest : Lexemes rest ls) : Lexemes (op ++ rest) (op :: ls)

/-- No operator, and ASCII characters only -/
def Wordy (line : List Byte) : Prop := ∀ c ∈ line, isOperatorChar c = false ∧ c < 0x80

/-- The texts of the tokens, the current one included -/
def Tokenizer.texts (t : Tokenizer) : List (List Byte) :=
  t.tokens.map Token.text ++ if t.currentToken = [] then [] else [t.currentToken]

/-- Outside quotes, escapes, here-documents and substitutions -/
structure Tokenizer.Between (t : Tokenizer) : Prop where
  complete : t.isComplete = true
  escaped : t.escaped = false
  afterHeredocOp : t.afterHeredocOp = false

/-! ## The turns -/

variable {t : Tokenizer} {c : Byte} {rest line : List Byte}

theorem Tokenizer.Between.outside (h : t.Between) : t.heredocDelim = none ∧ t.inQuotes = false ∧ t.inDquotes = false := by
  have hcomplete := h.complete
  unfold Tokenizer.isComplete at hcomplete
  simp only [Bool.not_eq_true', Bool.or_eq_false_iff, Option.isSome_eq_false_iff, Option.isNone_iff_eq_none] at hcomplete
  obtain ⟨⟨⟨⟨⟨⟨hdelim, hquotes⟩, hdquotes⟩, -⟩, -⟩, -⟩, -⟩ := hcomplete
  exact ⟨hdelim, hquotes, hdquotes⟩

theorem Tokenizer.Between.finalizeCurrent (h : t.Between) : t.finalizeCurrent.Between := by
  unfold Tokenizer.finalizeCurrent
  split
  · exact h
  · exact ⟨h.complete, h.escaped, h.afterHeredocOp⟩

theorem turn_between (h : t.Between) (hc : c ∉ lit "'\"\\") : turn t c rest = processPlain t c rest := by
  obtain ⟨hdelim, hquotes, hdquotes⟩ := h.outside
  have hne : c ≠ '\\' ∧ c ≠ 0x27 ∧ c ≠ 0x22 := by
    refine ⟨?_, ?_, ?_⟩ <;> rintro rfl <;> exact hc (by decide)
  unfold turn
  simp [hdelim, h.escaped, hquotes, hdquotes, hne.1, hne.2.1, hne.2.2]

theorem finalizeCurrent_currentToken (t : Tokenizer) : t.finalizeCurrent.currentToken = [] := by
  unfold Tokenizer.finalizeCurrent
  split
  · assumption
  · rfl

theorem finalizeCurrent_texts (t : Tokenizer) : t.finalizeCurrent.tokens.map Token.text = t.texts := by
  unfold Tokenizer.finalizeCurrent Tokenizer.texts
  split
  · simp
  · simp [Tokenizer.add]

set_option maxRecDepth 8192 in
theorem turn_blank (h : t.Between) (hc : isSpace c = true ∧ c ≠ 0x0A) : turn t c rest = .next t.finalizeCurrent rest := by
  have hquotes : ∀ b ∈ lit "'\"\\", isSpace b = false := by decide
  have hquote : c ∉ lit "'\"\\" := fun hmem => Bool.false_ne_true ((hquotes c hmem).symm.trans hc.1)
  rw [turn_between h hquote, processPlain, if_pos hc.1, processBlank]
  simp [h.afterHeredocOp, hc.2]

set_option maxRecDepth 8192 in
theorem turn_word (h : t.Between) (hc : isWordByte c = true) : turn t c rest = appendNext t c rest := by
  unfold isWordByte at hc
  simp only [Bool.and_eq_true, Bool.not_eq_true', List.contains_eq_mem, decide_eq_false_iff_not] at hc
  obtain ⟨⟨hspace, hop⟩, hspecial⟩ := hc
  have hmem {b : Byte} (hb : b ∈ (0 : Byte) :: lit "'\"\\#$`~") : c ≠ b := by
    rintro rfl
    exact hspecial hb
  have hquotes : ∀ b ∈ lit "'\"\\", b ∈ (0 : Byte) :: lit "'\"\\#$`~" := by decide
  rw [turn_between h fun hq => hspecial (hquotes c hq)]
  · have hdollar : c ≠ 0x24 := hmem (by decide)
    have hopens (q : List Byte) : (0x24 :: q).isPrefixOf (c :: rest) = false := by
      simp [List.isPrefixOf, Ne.symm hdollar]
    unfold processPlain
    rw [if_neg (by simp [hspace]), if_neg (hmem (by decide)), if_neg, if_neg, if_neg, if_neg (hmem (by decide)), if_neg (by simp [hop]),
      if_neg fun htilde => hmem (by decide) htilde.1]
    · exact Bool.eq_false_iff.mp (hopens _)
    · exact Bool.eq_false_iff.mp (hopens _)
    · exact Bool.eq_false_iff.mp (hopens _)

theorem appendNext_ascii (hc : c < 0x80) : appendNext t c rest = .next { t with currentToken := t.currentToken ++ [c] } rest := by
  rw [appendNext, Tokenizer.append, if_pos hc]

theorem appendNext_other (hc : ¬c < 0x80) : appendNext t c rest = .failed t := by rw [appendNext, Tokenizer.append, if_neg hc]

theorem Tokenizer.Between.append (h : t.Between) (w : List Byte) : { t with currentToken := t.currentToken ++ w }.Between :=
  ⟨h.complete, h.escaped, h.afterHeredocOp⟩

/-- A word of ASCII characters is appended. -/
theorem processInput_word {w : List Byte} (h : t.Between) (hw : ∀ c ∈ w, isWordByte c = true) (hascii : ∀ c ∈ w, c < 0x80) :
    processInput t (w ++ rest) = processInput { t with currentToken := t.currentToken ++ w } rest := by
  induction w generalizing t with
  | nil => simp
  | cons c w ih =>
    obtain ⟨hc, hw⟩ := List.forall_mem_cons.mp hw
    obtain ⟨hc', hascii⟩ := List.forall_mem_cons.mp hascii
    rw [List.cons_append, processInput_cons, turn_word h hc, appendNext_ascii hc']
    dsimp only
    rw [ih (h.append [c]) hw hascii]
    simp

/-- A word with another character is refused. -/
theorem processInput_refused {w : List Byte} (h : t.Between) (hw : ∀ c ∈ w, isWordByte c = true) (hother : ∃ c ∈ w, ¬c < 0x80) :
    ∃ t', processInput t (w ++ rest) = .failed t' := by
  induction w generalizing t with
  | nil => simp at hother
  | cons c w ih =>
    obtain ⟨hc, hw⟩ := List.forall_mem_cons.mp hw
    rw [List.cons_append, processInput_cons, turn_word h hc]
    by_cases hc' : c < 0x80
    · rw [appendNext_ascii hc']
      refine ih (h.append [c]) hw ?_
      obtain ⟨b, hb, hlarge⟩ := hother
      obtain rfl | hb := List.mem_cons.mp hb
      · exact absurd hc' hlarge
      · exact ⟨b, hb, hlarge⟩
    · rw [appendNext_other hc']
      exact ⟨t, rfl⟩

/-- The state after an operator, which stays in the current token -/
def Tokenizer.afterOperator (t : Tokenizer) (op : String × TokenType) : Tokenizer :=
  { { t with currentToken := lit op.1 }.add op.2 (lit op.1) with
    afterHeredocOp := op.2 ∈ [.dless, .dlessdash]
    isFirstWord := op.2 ∈ [.operator, .andIf, .orIf, .dsemi] }

/-! ## Operators -/

theorem operators_texts : operators.map (fun op => lit op.1) =
    [[0x26, 0x26], [0x7C, 0x7C], [0x3B, 0x3B], [0x3C, 0x3C, 0x2D], [0x3C, 0x3C], [0x3E, 0x3E], [0x3C, 0x26], [0x3E, 0x26],
      [0x3C, 0x3E], [0x3E, 0x7C], [0x26], [0x3B], [0x3C], [0x3E], [0x7C], [0x28], [0x29]] := rfl

theorem operators_pairwise : operators.Pairwise fun a b => ¬lit a.1 <+: lit b.1 := by
  have htexts : (operators.map fun op => lit op.1).Pairwise fun a b => ¬a <+: b := by
    rw [operators_texts]
    decide
  exact List.pairwise_map.mp htexts

theorem operators_head : ∀ op ∈ operators, (lit op.1).head?.any isOperatorChar = true := by
  have htexts : ∀ text ∈ operators.map fun op => lit op.1, text.head?.any isOperatorChar = true := by
    rw [operators_texts]
    decide
  exact List.forall_mem_map.mp htexts

theorem operators_bytes : ∀ op ∈ operators, ∀ c ∈ lit op.1, c ∈ ([0x26, 0x7C, 0x3B, 0x3C, 0x3E, 0x28, 0x29, 0x2D] : List Byte) := by
  have htexts : ∀ text ∈ operators.map fun op => lit op.1,
      ∀ c ∈ text, c ∈ ([0x26, 0x7C, 0x3B, 0x3C, 0x3E, 0x28, 0x29, 0x2D] : List Byte) := by
    rw [operators_texts]
    simp
  exact List.forall_mem_map.mp htexts

theorem operators_ascii (op : String × TokenType) (hop : op ∈ operators) (c : Byte) (hc : c ∈ lit op.1) : c < 0x80 := by
  have hbytes : ∀ c ∈ ([0x26, 0x7C, 0x3B, 0x3C, 0x3E, 0x28, 0x29, 0x2D] : List Byte), c < 0x80 := by simp
  exact hbytes c (operators_bytes op hop c hc)

theorem operators_document :
    ∀ op ∈ operators, lit op.1 ≠ lit "<<" → lit op.1 ≠ lit "<<-" → op.2 ∉ [TokenType.dless, .dlessdash] := by
  decide

set_option maxRecDepth 8192 in
theorem operatorChar_plain : ∀ b ∈ lit ";|&<>()", isSpace b = false ∧ b ∉ lit "'\"\\" ∧ b ∉ lit "#$`" := by decide

/-- `process_operator` finds the longest operator. -/
theorem find_longest {op : String × TokenType} (hop : op ∈ operators)
    (hlongest : ∀ op' ∈ operators.map fun op => lit op.1, op' <+: lit op.1 ++ rest → op'.length ≤ (lit op.1).length) :
    operators.find? (fun op' => (lit op'.1).isPrefixOf (lit op.1 ++ rest)) = some op := by
  have hself : (lit op.1).isPrefixOf (lit op.1 ++ rest) = true := List.isPrefixOf_iff_prefix.mpr (List.prefix_append _ _)
  cases hfind : operators.find? fun op' => (lit op'.1).isPrefixOf (lit op.1 ++ rest) with
  | none => exact absurd hself (List.find?_eq_none.mp hfind op hop)
  | some first =>
    obtain ⟨hfirst, before, after, hsplit, hbefore⟩ := List.find?_eq_some_iff_append.mp hfind
    have hbegins : lit first.1 <+: lit op.1 ++ rest := List.isPrefixOf_iff_prefix.mp hfirst
    have hmem : first ∈ operators := hsplit ▸ (by simp)
    have hle := hlongest _ (List.mem_map_of_mem hmem) hbegins
    have hshorter : lit first.1 <+: lit op.1 := List.prefix_of_prefix_length_le hbegins (List.prefix_append _ _) hle
    rw [hsplit] at hop
    obtain hop | hop := List.mem_append.mp hop
    · have := hbefore op hop
      rw [hself] at this
      cases this
    · obtain rfl | hop := List.mem_cons.mp hop
      · rfl
      · have hpairs := operators_pairwise
        rw [hsplit, List.pairwise_append] at hpairs
        exact absurd hshorter ((List.pairwise_cons.mp hpairs.2.1).1 op hop)

theorem processInput_operator {op : String × TokenType} (h : t.Between) (hop : op ∈ operators)
    (hlongest : ∀ op' ∈ operators.map fun op => lit op.1, op' <+: lit op.1 ++ rest → op'.length ≤ (lit op.1).length) :
    processInput t (lit op.1 ++ rest) = processInput (t.finalizeCurrent.afterOperator op) rest := by
  have hfind := find_longest hop hlongest
  have hhead := operators_head op hop
  have hturn : processOperator t.finalizeCurrent (lit op.1 ++ rest) = .next (t.finalizeCurrent.afterOperator op) rest := by
    unfold processOperator
    rw [hfind]
    dsimp only
    rw [List.drop_left]
    rfl
  cases htext : lit op.1 with
  | nil => simp [htext] at hhead
  | cons c cs =>
    rw [htext] at hturn hhead
    have hc : isOperatorChar c = true := by simpa using hhead
    obtain ⟨hspace, hquote, hspecial⟩ := operatorChar_plain c (of_decide_eq_true hc)
    have hne {b : Byte} (hb : b ∈ lit "#$`") : c ≠ b := by
      rintro rfl
      exact hspecial hb
    have hopens (q : List Byte) : (0x24 :: q).isPrefixOf (c :: (cs ++ rest)) = false := by
      simp [List.isPrefixOf, Ne.symm (hne (show (0x24 : Byte) ∈ lit "#$`" by decide))]
    rw [List.cons_append, processInput_cons, turn_between h hquote]
    unfold processPlain
    rw [if_neg (by simp [hspace]), if_neg (hne (by decide)), if_neg, if_neg, if_neg, if_neg (hne (by decide)), if_pos hc]
    · rw [List.cons_append] at hturn
      rw [hturn]
    · exact Bool.eq_false_iff.mp (hopens _)
    · exact Bool.eq_false_iff.mp (hopens _)
    · exact Bool.eq_false_iff.mp (hopens _)

theorem Tokenizer.Between.afterOperator {op : String × TokenType} (h : t.Between) (hop : op ∈ operators)
    (hdocument : lit op.1 ≠ lit "<<" ∧ lit op.1 ≠ lit "<<-") : (t.afterOperator op).Between :=
  ⟨h.complete, h.escaped, decide_eq_false (operators_document op hop hdocument.1 hdocument.2)⟩

/-- The operator is there twice. -/
theorem afterOperator_texts {op : String × TokenType} (hop : op ∈ operators) :
    (t.finalizeCurrent.afterOperator op).texts = t.texts ++ [lit op.1, lit op.1] := by
  have hne : lit op.1 ≠ [] := operators_ne_nil op hop
  unfold Tokenizer.afterOperator Tokenizer.texts
  simp only [Tokenizer.add, List.map_append, hne, if_false, finalizeCurrent_texts]
  simp [Tokenizer.texts]

/-! ## Whole lines -/

/-- The bytes in the tokens -/
def Tokenizer.size (t : Tokenizer) : ℕ := (t.texts.map List.length).sum

theorem finalizeCurrent_size (t : Tokenizer) : t.finalizeCurrent.size = t.size := by
  rw [Tokenizer.size, Tokenizer.texts, finalizeCurrent_currentToken, if_pos rfl, List.append_nil, finalizeCurrent_texts]
  rfl

theorem append_size (t : Tokenizer) (w : List Byte) : { t with currentToken := t.currentToken ++ w }.size = t.size + w.length := by
  unfold Tokenizer.size Tokenizer.texts
  cases t.currentToken with
  | nil =>
    cases w with
    | nil => simp
    | cons c w => simp
  | cons c current =>
    simp
    omega

theorem isOperatorChar_of_isWordByte (h : isWordByte c = true) : isOperatorChar c = false := by
  unfold isWordByte at h
  simp only [Bool.and_eq_true, Bool.not_eq_true'] at h
  exact h.1.2

theorem ascii_of_isSpace (h : isSpace c = true) : c < 0x80 := by
  obtain rfl | h := of_decide_eq_true h
  · decide
  · exact UInt8.lt_of_le_of_lt h.2 (by decide)

/-- The tokens of a line of ASCII characters hold its words and operators, and more than these where an operator stands. -/
theorem processInput_size {ls : List (List Byte)} (h : Lexemes line ls) (ht : t.Between) (hascii : ∀ c ∈ line, c < 0x80) :
    ∃ t', processInput t line = .done t' ∧ t'.Between ∧ t.size + (ls.map List.length).sum ≤ t'.size ∧
      ((∃ c ∈ line, isOperatorChar c = true) → t.size + (ls.map List.length).sum < t'.size) := by
  induction h generalizing t with
  | nil =>
    refine ⟨t, by rw [processInput], ht, ?_, ?_⟩ <;> simp
  | @blank c rest ls hc _ ih =>
    obtain ⟨t', hdone, hbetween, hle, hlt⟩ := ih ht.finalizeCurrent (List.forall_mem_cons.mp hascii).2
    rw [finalizeCurrent_size] at hle hlt
    refine ⟨t', ?_, hbetween, hle, fun hop => hlt ?_⟩
    · rw [processInput_cons, turn_blank ht hc]
      exact hdone
    · obtain ⟨b, hb, hop⟩ := hop
      obtain rfl | hb := List.mem_cons.mp hb
      · obtain ⟨hspace, -⟩ := operatorChar_plain b (of_decide_eq_true hop)
        exact absurd (hspace.symm.trans hc.1) (by decide)
      · exact ⟨b, hb, hop⟩
  | @word w rest ls hw _ _ ih =>
    obtain ⟨hwascii, hrest⟩ := List.forall_mem_append.mp hascii
    obtain ⟨t', hdone, hbetween, hle, hlt⟩ := ih (ht.append w) hrest
    rw [append_size] at hle hlt
    simp only [List.map_cons, List.sum_cons]
    refine ⟨t', ?_, hbetween, by omega, fun hop => ?_⟩
    · rw [processInput_word ht hw.2 hwascii]
      exact hdone
    · have := hlt ?_
      · omega
      · obtain ⟨b, hb, hop⟩ := hop
        obtain hb | hb := List.mem_append.mp hb
        · exact absurd ((isOperatorChar_of_isWordByte (hw.2 b hb)).symm.trans hop) (by decide)
        · exact ⟨b, hb, hop⟩
  | @operator text rest ls htext hlongest hdocument _ ih =>
    obtain ⟨op, hop, rfl⟩ := List.mem_map.mp htext
    have hpos : 0 < (lit op.1).length := List.length_pos_iff.mpr (operators_ne_nil op hop)
    obtain ⟨t', hdone, hbetween, hle, -⟩ := ih (ht.finalizeCurrent.afterOperator hop hdocument) (List.forall_mem_append.mp hascii).2
    have hsize : (t.finalizeCurrent.afterOperator op).size = t.size + ((lit op.1).length + (lit op.1).length) := by
      unfold Tokenizer.size
      rw [afterOperator_texts hop]
      simp
    rw [hsize] at hle
    simp only [List.map_cons, List.sum_cons]
    refine ⟨t', ?_, hbetween, by omega, fun _ => by omega⟩
    rw [processInput_operator ht hop hlongest]
    exact hdone

/-- The words of a line without operators become the tokens. -/
theorem processInput_texts {ls : List (List Byte)} (h : Lexemes line ls) (ht : t.Between) (hwordy : Wordy line)
    (hstart : t.currentToken = [] ∨ ∀ c ∈ line.head?, isWordByte c = false) :
    ∃ t', processInput t line = .done t' ∧ t'.Between ∧ t'.texts = t.texts ++ ls := by
  induction h generalizing t with
  | nil => exact ⟨t, by rw [processInput], ht, (List.append_nil _).symm⟩
  | @blank c rest ls hc _ ih =>
    obtain ⟨t', hdone, hbetween, htexts⟩ :=
      ih ht.finalizeCurrent (List.forall_mem_cons.mp hwordy).2 (.inl (finalizeCurrent_currentToken t))
    refine ⟨t', ?_, hbetween, ?_⟩
    · rw [processInput_cons, turn_blank ht hc]
      exact hdone
    · rw [htexts, Tokenizer.texts, finalizeCurrent_currentToken, if_pos rfl, List.append_nil, finalizeCurrent_texts]
  | @word w rest ls hw hend _ ih =>
    obtain ⟨hwwordy, hrest⟩ := List.forall_mem_append.mp hwordy
    obtain ⟨t', hdone, hbetween, htexts⟩ := ih (ht.append w) hrest (.inr hend)
    refine ⟨t', ?_, hbetween, ?_⟩
    · rw [processInput_word ht hw.2 fun c hc => (hwwordy c hc).2]
      exact hdone
    · have hcurrent : t.currentToken = [] := by
        obtain hnil | hhead := hstart
        · exact hnil
        · cases w with
          | nil => exact absurd rfl hw.1
          | cons c w => exact absurd ((hhead c rfl).symm.trans (hw.2 c List.mem_cons_self)) (by decide)
      rw [htexts]
      simp [Tokenizer.texts, hcurrent, hw.1]
  | @operator text rest ls htext _ _ _ _ =>
    obtain ⟨op, hop, rfl⟩ := List.mem_map.mp htext
    have hhead := operators_head op hop
    cases hlit : lit op.1 with
    | nil => simp [hlit] at hhead
    | cons c cs =>
      rw [hlit] at hwordy hhead
      have hc : isOperatorChar c = true := by simpa using hhead
      exact absurd ((hwordy c List.mem_cons_self).1.symm.trans hc) (by decide)

/-- A line with another character than ASCII is refused. -/
theorem processInput_failed {ls : List (List Byte)} (h : Lexemes line ls) (ht : t.Between) (hother : ∃ c ∈ line, ¬c < 0x80) :
    ∃ t', processInput t line = .failed t' := by
  induction h generalizing t with
  | nil => simp at hother
  | @blank c rest ls hc _ ih =>
    rw [processInput_cons, turn_blank ht hc]
    refine ih ht.finalizeCurrent ?_
    obtain ⟨b, hb, hlarge⟩ := hother
    obtain rfl | hb := List.mem_cons.mp hb
    · exact absurd (ascii_of_isSpace hc.1) hlarge
    · exact ⟨b, hb, hlarge⟩
  | @word w rest ls hw _ _ ih =>
    by_cases hwascii : ∀ c ∈ w, c < 0x80
    · rw [processInput_word ht hw.2 hwascii]
      refine ih (ht.append w) ?_
      obtain ⟨b, hb, hlarge⟩ := hother
      obtain hb | hb := List.mem_append.mp hb
      · exact absurd (hwascii b hb) hlarge
      · exact ⟨b, hb, hlarge⟩
    · exact processInput_refused ht hw.2 (by simpa using hwascii)
  | @operator text rest ls htext hlongest hdocument _ ih =>
    obtain ⟨op, hop, rfl⟩ := List.mem_map.mp htext
    rw [processInput_operator ht hop hlongest]
    refine ih (ht.finalizeCurrent.afterOperator hop hdocument) ?_
    obtain ⟨b, hb, hlarge⟩ := hother
    obtain hb | hb := List.mem_append.mp hb
    · exact absurd (operators_ascii op hop b hb) hlarge
    · exact ⟨b, hb, hlarge⟩

theorem classify_text (ts : List Token) : (classify ts).map Token.text = ts.map Token.text := by
  induction ts with
  | nil => rfl
  | cons token ts ih =>
    rw [classify, List.map_cons, ih, List.map_cons]
    split <;> rfl

/-- The end of the input turns the texts into tokens. -/
theorem tokenize_texts {t' : Tokenizer} (hdone : processInput .create line = .done t') (hbetween : t'.Between) :
    (tokenize line).map (List.map Token.text) = some t'.texts := by
  unfold tokenize
  rw [hdone]
  dsimp only
  rw [tokenizerFinalize, if_neg (by simp [hbetween.complete]), if_neg (by simp [hbetween.afterHeredocOp])]
  simp only [Option.map_some, classify_text, finalizeCurrent_texts]

theorem create_between : Tokenizer.create.Between := ⟨rfl, rfl, rfl⟩

/-- The tokens are the words and operators of the line exactly where it has no operator and ASCII characters only. -/
theorem tokenize_lexemes_iff {ls : List (List Byte)} (h : Lexemes line ls) :
    (tokenize line).map (List.map Token.text) = some ls ↔ Wordy line := by
  constructor
  · intro htokens
    by_cases hascii : ∀ c ∈ line, c < 0x80
    · obtain ⟨t', hdone, hbetween, -, hlt⟩ := processInput_size h create_between hascii
      have htexts : t'.texts = ls := Option.some.inj ((tokenize_texts hdone hbetween).symm.trans htokens)
      refine fun c hc => ⟨Bool.eq_false_iff.mpr fun hop => ?_, hascii c hc⟩
      have hmore := hlt ⟨c, hc, hop⟩
      have hsize : t'.size = (ls.map List.length).sum := by rw [Tokenizer.size, htexts]
      have hnone : Tokenizer.create.size = 0 := rfl
      omega
    · obtain ⟨t', hfailed⟩ := processInput_failed h create_between (by simpa using hascii)
      rw [tokenize, hfailed] at htokens
      cases htokens
  · intro hwordy
    obtain ⟨t', hdone, hbetween, htexts⟩ := processInput_texts h create_between hwordy (.inl rfl)
    rw [tokenize_texts hdone hbetween, htexts]
    rfl

set_option maxRecDepth 8192 in
/-- Two words -/
theorem tokenize_lexemes_words : (tokenize (lit "ls x")).map (List.map Token.text) = some [lit "ls", lit "x"] := by
  have hline : Lexemes (lit "ls" ++ 0x20 :: (lit "x" ++ [])) [lit "ls", lit "x"] := by
    refine .word (by decide) (by decide) (.blank (by decide) ?_)
    exact .word (by decide) (by decide) .nil
  have hwordy : ∀ c ∈ lit "ls" ++ 0x20 :: (lit "x" ++ []), isOperatorChar c = false ∧ c < 0x80 := by decide
  exact (tokenize_lexemes_iff hline).mpr hwordy

set_option maxRecDepth 8192 in
/-- The operator becomes the start of the next word as well. -/
theorem tokenize_pipe : Lexemes (lit "ls|x") [lit "ls", lit "|", lit "x"] ∧
    (tokenize (lit "ls|x")).map (List.map Token.text) = some [lit "ls", lit "|", lit "|x"] := by
  have hsplit : lit "ls|x" = lit "ls" ++ (lit "|" ++ (lit "x" ++ [])) := rfl
  rw [hsplit]
  refine ⟨?_, ?_⟩
  · refine .word (by decide) (by decide) (.operator (by decide) (by decide) (by decide) ?_)
    exact .word (by decide) (by decide) .nil
  · have hoperator (t : Tokenizer) (ht : t.Between) := 
      @processInput_operator t (lit "x" ++ []) ("|", .operator) ht (by decide) (by decide)
    have hls := create_between.append (lit "ls")
    have hpipe := hls.finalizeCurrent.afterOperator (show ("|", TokenType.operator) ∈ operators by decide) (by decide)
    unfold tokenize
    rw [processInput_word create_between (by decide) (by decide), hoperator _ hls,
      processInput_word hpipe (by decide) (by decide), processInput]
    rfl

end ValidcTools.Sh23
