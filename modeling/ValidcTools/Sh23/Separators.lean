import ValidcTools.Sh23.Tokenizer
import ValidcTools.Sh23.AndOr

/-! Separators between commands, as the tokenizer makes them and as the parser looks for them. -/
namespace ValidcTools.Sh23

/-! ## Operator tokens -/

/-- The texts of the tokens that the tokenizer types as operators -/
def singleOperators : List (List Byte) := ["<", ">", "|", "(", ")"].map lit

/-- An operator token has one of these texts. -/
def Token.Known (token : Token) : Prop := token.type = .operator → token.text ∈ singleOperators

theorem Token.Known.of_ne {type : TokenType} (h : type ≠ .operator) (text : List Byte) : Token.Known ⟨type, text⟩ :=
  fun heq => absurd heq h

/-- The tokens so far are those that can occur. -/
def Tokenizer.Known (t : Tokenizer) : Prop := ∀ token ∈ t.tokens, token.Known

theorem Tokenizer.Known.of_append {t t' : Tokenizer} (h : t.Known) {token : Token} (htoken : token.Known)
    (heq : t'.tokens = t.tokens ++ [token]) : t'.Known := by
  intro k hk
  rw [heq] at hk
  cases List.mem_append.1 hk with
  | inl hk => exact h k hk
  | inr hk => exact List.mem_singleton.1 hk ▸ htoken

theorem Tokenizer.Known.add {t : Tokenizer} (h : t.Known) {type : TokenType} (htype : type ≠ .operator) (text : List Byte) :
    (t.add type text).Known :=
  h.of_append (.of_ne htype text) rfl

theorem Tokenizer.Known.finalizeCurrent {t : Tokenizer} (h : t.Known) : t.finalizeCurrent.Known := by
  unfold Tokenizer.finalizeCurrent
  split
  · exact h
  · refine h.of_append (.of_ne ?_ t.currentToken) rfl
    split <;> simp

theorem Tokenizer.append_tokens {t t' : Tokenizer} {c : Byte} (h : t.append c = some t') : t'.tokens = t.tokens := by
  unfold Tokenizer.append at h
  split at h
  · cases h
    rfl
  · cases h

/-- What a turn leaves to go on with keeps the tokens within those that can occur. -/
def Turn.Known : Turn → Prop
  | .next t _ => t.Known
  | .done t => t.Known
  | _ => True

theorem takeAll_known {t : Tokenizer} (p : List Byte) : (takeAll t p).Known := by
  induction p generalizing t with
  | nil => trivial
  | cons c p ih =>
    unfold takeAll
    split
    · trivial
    · exact ih

theorem operators_known : ∀ op ∈ operators, Token.Known ⟨op.2, lit op.1⟩ := by
  unfold Token.Known
  decide

theorem processOperator_known {t : Tokenizer} (h : t.Known) (p : List Byte) : (processOperator t p).Known := by
  unfold processOperator
  split
  · trivial
  · next text type hop => exact h.of_append (operators_known _ (List.mem_of_find?_eq_some hop)) rfl

theorem processHeredoc_known {t : Tokenizer} (h : t.Known) (p : List Byte) : (processHeredoc t p).Known := by
  unfold processHeredoc
  split
  · trivial
  · simp only
    split
    · trivial
    · split
      · exact h.add (show TokenType.heredocDelim ≠ .operator by decide) t.currentToken
      · trivial

theorem appendNext_known {t : Tokenizer} (h : t.Known) (c : Byte) (rest : List Byte) : (appendNext t c rest).Known := by
  unfold appendNext
  split
  · trivial
  · next heq =>
    intro token hk
    exact h token (Tokenizer.append_tokens heq ▸ hk)

theorem processBlank_known {t : Tokenizer} (h : t.Known) (c : Byte) (rest : List Byte) : (processBlank t c rest).Known := by
  have hnewline : ∀ (t : Tokenizer) (c : Byte), t.Known →
      (if c = 0x0A then { t.add .newline [0x0A] with isFirstWord := true } else t).Known := by
    intro t c ht
    split
    · exact ht.add (show TokenType.newline ≠ .operator by decide) [0x0A]
    · exact ht
  unfold processBlank
  split
  · have hheredoc := processHeredoc_known h (c :: rest)
    split
    · trivial
    · next t' c' rest' hnext =>
      rw [hnext] at hheredoc
      exact hnewline t' c' hheredoc
    · exact hheredoc
  · exact hnewline _ c h.finalizeCurrent

theorem processBacktick_known {t : Tokenizer} (h : t.Known) (p : List Byte) : (processBacktick t p).Known := by
  unfold processBacktick
  split
  · exact h.of_append (.of_ne (show TokenType.backtick ≠ .operator by decide) _) rfl
  · exact takeAll_known _

theorem processPlain_known {t : Tokenizer} (h : t.Known) (c : Byte) (rest : List Byte) : (processPlain t c rest).Known := by
  have hfinal := h.finalizeCurrent
  unfold processPlain
  split_ifs
  · exact processBlank_known h c rest
  · unfold processComment
    simp only
    split
    · trivial
    · exact hfinal.add (show TokenType.comment ≠ .operator by decide) _
  · unfold processDparen
    split <;> exact takeAll_known _
  · unfold processArith
    split <;> exact takeAll_known _
  · unfold processParam
    split <;> exact takeAll_known _
  · exact processBacktick_known hfinal _
  · exact processOperator_known hfinal _
  · unfold processTilde
    simp only
    split
    · trivial
    · exact h.add (show TokenType.tilde ≠ .operator by decide) _
  · exact appendNext_known h c rest

theorem processHeredocContent_known {t : Tokenizer} (h : t.Known) (delim input : List Byte) :
    (processHeredocContent t delim input).Known := by
  unfold processHeredocContent
  simp only
  generalize (if input.getLast? = some 0x0A then input.dropLast else input) = line
  split
  · split
    · exact h.add (show TokenType.word ≠ .operator by decide) _
    · exact h
  · exact h

theorem turn_known {t : Tokenizer} (h : t.Known) (c : Byte) (rest : List Byte) : (turn t c rest).Known := by
  unfold turn
  split
  · exact processHeredocContent_known h _ _
  · split_ifs
    · split
      · trivial
      · next heq =>
        intro token hk
        exact h token (Tokenizer.append_tokens heq ▸ hk)
    · exact h
    · exact h
    · exact appendNext_known (t := { t with inQuotes := !t.inQuotes }) h c rest
    · exact appendNext_known (t := { t with inDquotes := !t.inDquotes }) h c rest
    · exact appendNext_known h c rest
    · exact processPlain_known h c rest

theorem processInput_known {t : Tokenizer} (h : t.Known) (input : List Byte) : (processInput t input).Known := by
  fun_induction processInput t input with
  | case1 t => exact h
  | case2 t c rest t' rest' hturn ih =>
    have hknown := turn_known h c rest
    rw [hturn] at hknown
    exact ih hknown
  | case3 t c rest hne => exact turn_known h c rest

theorem classify_known {tokens : List Token} (h : ∀ token ∈ tokens, token.Known) : ∀ token ∈ classify tokens, token.Known := by
  induction tokens with
  | nil => simp [classify]
  | cons token rest ih =>
    obtain ⟨htoken, hrest⟩ := List.forall_mem_cons.1 h
    rw [classify, List.forall_mem_cons]
    refine ⟨?_, ih hrest⟩
    split
    · refine .of_ne ?_ token.text
      unfold wordType
      simp only
      split_ifs <;> simp
    · exact htoken

/-- The operator tokens that the tokenizer makes -/
theorem tokenize_known {text : List Byte} {ts : List Token} (h : tokenize text = some ts) : ∀ token ∈ ts, token.Known := by
  have hknown := processInput_known (t := .create) (by simp [Tokenizer.Known, Tokenizer.create]) text
  unfold tokenize at h
  split at h
  · next t hdone =>
    rw [hdone] at hknown
    unfold tokenizerFinalize at h
    split_ifs at h
    · cases h
    · cases h
    · cases h
      exact classify_known (Tokenizer.Known.finalizeCurrent hknown)
  · cases h

/-! ## The parser on such tokens -/

variable {ε : Type} {ts : List Token} {parseExpansion : Token → Option ε} {n : ℕ} {s : ParserState}
  {call : Symbol → Parse (Option (Ast ε))}

theorem Token.Known.is_eq_false {token : Token} (h : token.Known) {text : String} (htext : lit text ∉ singleOperators) :
    token.is .operator text = false := by
  refine decide_eq_false fun hop => htext ?_
  rw [← hop.2]
  exact h hop.1

theorem known_of_peek (h : ∀ token ∈ ts, token.Known) {token : Token} (hpeek : peek ts s = some token) : token.Known := by
  unfold peek at hpeek
  split at hpeek
  · exact h token (List.mem_of_getElem? hpeek)
  · cases hpeek

/-- No token is taken for a separator. -/
theorem parseSeparator_known (h : ∀ token ∈ ts, token.Known) : parseSeparator ts s = some (.unspecified, s) := by
  have hsemi : (peek ts s).any (·.is .operator ";") = false := by
    cases hpeek : peek ts s with
    | none => rfl
    | some token => exact (known_of_peek h hpeek).is_eq_false (by decide)
  have hamp : (peek ts s).any (·.is .operator "&") = false := by
    cases hpeek : peek ts s with
    | none => rfl
    | some token => exact (known_of_peek h hpeek).is_eq_false (by decide)
  simp only [parseSeparator, Parse.bind_apply, peekToken_apply, Option.bind_some, hsemi, hamp, Bool.false_eq_true, if_false,
    Parse.pure_apply]

/-- The separator that is kept with the first command of a list -/
def Ast.firstSeparator : Ast ε → Option TokenType
  | .list _ separator _ => some separator
  | _ => none

theorem parseList_separator (h : ∀ token ∈ ts, token.Known) {ast : Ast ε} {s' : ParserState}
    (hlist : parseList ts call s = some (some ast, s')) : ast.firstSeparator = some .unspecified := by
  unfold parseList at hlist
  obtain ⟨andOr, s₁, -, hlist⟩ := Parse.bind_eq_some.1 hlist
  cases andOr with
  | none => cases hlist
  | some andOr =>
    simp only [Parse.bind_apply, parseSeparator_known h, Option.bind_some, peekToken_apply] at hlist
    split at hlist
    · obtain ⟨next, s₂, -, hlist⟩ := Parse.bind_eq_some.1 hlist
      cases hlist
      rfl
    · cases hlist
      rfl

theorem parseCompoundList_separator (h : ∀ token ∈ ts, token.Known) {ast : Ast ε} {s' : ParserState}
    (hlist : parseCompoundList ts call s = some (some ast, s')) : ast.firstSeparator = some .unspecified := by
  unfold parseCompoundList at hlist
  obtain ⟨andOr, s₁, -, hlist⟩ := Parse.bind_eq_some.1 hlist
  cases andOr with
  | none => cases hlist
  | some andOr =>
    simp only [Parse.bind_apply, parseSeparator_known h, Option.bind_some, if_true, Parse.pure_apply] at hlist
    cases hlist
    rfl

/-! ## One simple command -/

/-- Nothing of a simple command starts here. -/
def Stuck (ts : List Token) (s : ParserState) : Prop :=
  ∀ token, peek ts s = some token →
    token.type ≠ .assignment ∧ token.type ≠ .word ∧ isExpansion token.type = false ∧
      (startsRedirect token.type → token.type ≠ .ioNumber ∧ parseRedirectOperation token = none)

theorem stuck_of_peek_none (h : peek ts s = none) : Stuck ts s := by
  intro token htoken
  rw [h] at htoken
  cases htoken

theorem stuck_of_keyword {token : Token} (h : peek ts s = some token) (hkeyword : token.type = .keyword) : Stuck ts s := by
  intro k hk
  obtain rfl : token = k := Option.some.inj (h.symm.trans hk)
  rw [hkeyword]
  exact ⟨by decide, by decide, by decide, fun h => absurd h (by decide)⟩

theorem stuck_of_paren {token : Token} (h : peek ts s = some token) (hparen : token.is .operator "(") : Stuck ts s := by
  intro k hk
  obtain rfl : token = k := Option.some.inj (h.symm.trans hk)
  obtain ⟨htype, htext⟩ := of_decide_eq_true hparen
  obtain ⟨type, text⟩ := token
  cases htype
  cases htext
  decide

theorem parseRedirect_stuck (h : Stuck ts s) (hredirect : (peek ts s).any (startsRedirect ·.type)) :
    parseRedirect ts s = some (none, s) := by
  cases hpeek : peek ts s with
  | none => simp [hpeek] at hredirect
  | some token =>
    rw [hpeek] at hredirect
    obtain ⟨hio, hnone⟩ := (h token hpeek).2.2.2 hredirect
    have hfilter : (some token).filter (·.type = .ioNumber) = none := Option.filter_some_neg (by simpa using hio)
    simp only [parseRedirect, Parse.bind_apply, peekToken_apply, Option.bind_some, hpeek, hfilter, Option.isSome_none,
      Bool.false_eq_true, if_false, hnone, Parse.pure_apply]

theorem parsePrefix_stuck (h : Stuck ts s) (node : SimpleCommand ε) : parsePrefix ts node (n + 1) s = some (some node, s) := by
  unfold parsePrefix
  rw [Parse.bind_apply, peekToken_apply, Option.bind_some]
  cases hpeek : peek ts s with
  | none => rfl
  | some token =>
    obtain ⟨hassign, hword, hexp, hredirect⟩ := h token hpeek
    simp only [hassign, if_false]
    split
    · next hstarts =>
      rw [Parse.bind_apply, parseRedirect_stuck h (by simpa [hpeek] using hstarts)]
      rfl
    · rfl

theorem parseSuffix_stuck (h : Stuck ts s) (node : SimpleCommand ε) :
    parseSuffix ts parseExpansion node (n + 1) s = some (some node, s) := by
  unfold parseSuffix
  rw [Parse.bind_apply, peekToken_apply, Option.bind_some]
  cases hpeek : peek ts s with
  | none => rfl
  | some token =>
    obtain ⟨hassign, hword, hexp, hredirect⟩ := h token hpeek
    simp only [hword, hexp, if_false, Bool.false_eq_true]
    split
    · next hstarts =>
      rw [Parse.bind_apply, parseRedirect_stuck h (by simpa [hpeek] using hstarts)]
      rfl
    · rfl

theorem parseCommandWord_none (h : (peek ts s).filter (·.type = .word) = none) (node : SimpleCommand ε) :
    parseCommandWord ts node s = some (node, s) := by
  simp only [parseCommandWord, Parse.bind_apply, peekToken_apply, Option.bind_some, h, Parse.pure_apply]

theorem Stuck.filter_word (h : Stuck ts s) : (peek ts s).filter (·.type = .word) = none := by
  cases hpeek : peek ts s with
  | none => rfl
  | some token => exact Option.filter_some_neg (by simpa using (h token hpeek).2.1)

theorem parseSimpleCommand_stuck (h : Stuck ts s) : parseSimpleCommand ts parseExpansion (n + 1) s = some (none, s) := by
  simp only [parseSimpleCommand, Parse.bind_apply, parsePrefix_stuck h, Option.bind_some, parseCommandWord_none h.filter_word,
    parseSuffix_stuck h]
  rfl

theorem consume_of_peek {token : Token} (h : peek ts s = some token) (hline : token.type ≠ .newline) :
    s.consume ts = ⟨s.pos + 1, s.lineNumber⟩ := by
  unfold ParserState.consume
  rw [h]
  simp [hline]

/-- A word in front of an opening bracket is a command by itself. -/
theorem parseSimpleCommand_paren {word paren : Token} (hword : peek ts s = some word) (htype : word.type = .word)
    (hparen : peek ts (s.consume ts) = some paren) (hop : paren.is .operator "(") {node : Option (SimpleCommand ε)}
    {s' : ParserState} (h : parseSimpleCommand ts parseExpansion (n + 1) s = some (node, s')) : s' = s.consume ts := by
  have hprefix : parsePrefix ts (.empty : SimpleCommand ε) (n + 1) s = some (some .empty, s) := by
    unfold parsePrefix
    rw [Parse.bind_apply, peekToken_apply, Option.bind_some, hword]
    simp [htype, startsRedirect]
  have hfilter : (some word).filter (·.type = .word) = some word := Option.filter_some_pos (by simpa using htype)
  have hnumber : (some paren).filter (fun t => t.type = .word ∧ isNumber t.text) = none := by
    refine Option.filter_some_neg ?_
    simp [(of_decide_eq_true hop).1]
  have hcommand : ∃ node, parseCommandWord ts (.empty : SimpleCommand ε) s = some (node, s.consume ts) := by
    simp only [parseCommandWord, Parse.bind_apply, peekToken_apply, Option.bind_some, hword, hfilter, consumeToken_apply]
    split
    · simp only [Parse.bind_apply, peekToken_apply, Option.bind_some, hparen, hnumber, Parse.pure_apply]
      exact ⟨_, rfl⟩
    · exact ⟨_, rfl⟩
  obtain ⟨node', hcommand⟩ := hcommand
  simp only [parseSimpleCommand, Parse.bind_apply, hprefix, Option.bind_some, hcommand,
    parseSuffix_stuck (stuck_of_paren hparen hop)] at h
  split at h <;> cases h <;> rfl

/-! ## The rules above it -/

theorem expectToken_other {type : TokenType} {expected : String} (h : (peek ts s).any (·.is type expected) = false) :
    expectToken ts type expected s = some (false, s) := by
  simp only [expectToken, Parse.bind_apply, peekToken_apply, Option.bind_some, h, Bool.false_eq_true, if_false,
    Parse.pure_apply]

/-- What `parse_function_definition` takes for its name -/
def Token.isName (token : Token) : Bool := decide (token.type = .word ∧ isValidName token.text)

theorem parseFunctionDefinition_other (h : (peek ts s).any Token.isName = false) :
    parseFunctionDefinition ts n call s = some (none, s) := by
  have hfilter : (peek ts s).filter (fun t => t.type = .word ∧ isValidName t.text) = none := by
    cases hpeek : peek ts s with
    | none => rfl
    | some token =>
      rw [hpeek] at h
      exact Option.filter_some_neg (by simpa [Token.isName] using h)
  simp only [parseFunctionDefinition, Parse.bind_apply, peekToken_apply, Option.bind_some, hfilter, Parse.pure_apply]

/-- After a name without brackets the parser goes back by two tokens. -/
theorem parseFunctionDefinition_name {name : Token} (h : peek ts s = some name) (hname : name.isName)
    (hparen : (peek ts (s.consume ts)).any (·.is .operator "(") = false) :
    parseFunctionDefinition ts n call s = some (none, ⟨s.pos - 1, s.lineNumber⟩) := by
  obtain ⟨htype, hvalid⟩ := of_decide_eq_true hname
  have hfilter : (peek ts s).filter (fun t => t.type = .word ∧ isValidName t.text) = some name := by
    rw [h]
    exact Option.filter_some_pos (by simpa using ⟨htype, hvalid⟩)
  have hconsume := consume_of_peek h (by simp [htype])
  simp only [parseFunctionDefinition, Parse.bind_apply, peekToken_apply, Option.bind_some, hfilter, consumeToken_apply,
    expectToken_other hparen, Bool.false_eq_true, if_false, Parse.pure_apply, backtrack_apply]
  rw [hconsume]
  simp only [Option.some.injEq, Prod.mk.injEq, true_and, ParserState.mk.injEq]
  omega

theorem parseCompoundCommand_other (hknown : ∀ token ∈ ts, token.Known)
    (h : ∀ token, peek ts s = some token → token.type ≠ .keyword ∧ token.is .operator "(" = false) :
    parseCompoundCommand ts call s = some (none, s) := by
  unfold parseCompoundCommand
  rw [Parse.bind_apply, peekToken_apply, Option.bind_some]
  cases hpeek : peek ts s with
  | none => rfl
  | some token =>
    obtain ⟨hkeyword, hparen⟩ := h token hpeek
    have hnot : ∀ text, token.is .keyword text = false := fun text => decide_eq_false fun h => hkeyword h.1
    have hbrace : token.is .operator "\x7b" = false := (known_of_peek hknown hpeek).is_eq_false (by decide)
    simp only [hnot, hbrace, hparen, Bool.false_eq_true, if_false, Parse.pure_apply]

theorem parseCommand_simple (hcompound : call .compoundCommand s = some (none, s))
    {s₁ : ParserState} (hfunction : call .functionDefinition s = some (none, s₁)) :
    parseCommand ts parseExpansion n call s =
      (parseSimpleCommand ts parseExpansion n s₁).map fun r => (r.1.map .simpleCommand, r.2) := by
  simp only [parseCommand, Parse.bind_apply, hcompound, hfunction, Option.bind_some]
  cases parseSimpleCommand ts parseExpansion n s₁ with
  | none => rfl
  | some r => rfl

theorem peek_any_bang (hknown : ∀ token ∈ ts, token.Known) : (peek ts s).any (·.is .operator "!") = false := by
  cases hpeek : peek ts s with
  | none => rfl
  | some token => exact (known_of_peek hknown hpeek).is_eq_false (by decide)

theorem parsePipeline_none (hknown : ∀ token ∈ ts, token.Known) {s' : ParserState}
    (h : call .command s = some (none, s')) : parsePipeline ts n call s = some (none, s') := by
  simp only [parsePipeline, Parse.bind_apply, peekToken_apply, Option.bind_some, peek_any_bang hknown, Bool.false_eq_true,
    if_false, h, Parse.pure_apply]

/-- A command at the end of the tokens is a pipeline by itself. -/
theorem parsePipeline_last (hknown : ∀ token ∈ ts, token.Known) {s' : ParserState} {cmd : Ast ε}
    (h : call .command s = some (some cmd, s')) (hend : peek ts s' = none) :
    parsePipeline ts (n + 1) call s = some (some (.pipeline false [cmd]), s') := by
  have hloop : parsePipelineLoop ts call [cmd] (n + 1) s' = some (some [cmd], s') := by
    simp only [parsePipelineLoop, Parse.bind_apply, peekToken_apply, Option.bind_some, hend, Option.any_none,
      Bool.false_eq_true, if_false, Parse.pure_apply]
  simp only [parsePipeline, Parse.bind_apply, peekToken_apply, Option.bind_some, peek_any_bang hknown, Bool.false_eq_true,
    if_false, h, hloop, Parse.pure_apply]
  rfl

theorem parseAndOr_none {s' : ParserState} (h : call .pipeline s = some (none, s')) :
    parseAndOr ts call s = some (none, s') := by
  simp only [parseAndOr, Parse.bind_apply, h, Option.bind_some, Parse.pure_apply]

theorem parseList_none {s' : ParserState} (h : call .andOr s = some (none, s')) :
    parseList ts call s = some (none, s') := by
  simp only [parseList, Parse.bind_apply, h, Option.bind_some, Parse.pure_apply]

theorem parseCompoundList_none {s' : ParserState} (h : call .andOr s = some (none, s')) :
    parseCompoundList ts call s = some (none, s') := by
  simp only [parseCompoundList, Parse.bind_apply, h, Option.bind_some, Parse.pure_apply]

theorem parseList_last (hknown : ∀ token ∈ ts, token.Known) {s' : ParserState} {andOr : Ast ε}
    (h : call .andOr s = some (some andOr, s')) (hend : peek ts s' = none) :
    parseList ts call s = some (some (.list andOr .unspecified none), s') := by
  simp only [parseList, Parse.bind_apply, h, Option.bind_some, parseSeparator_known hknown, peekToken_apply, hend,
    Option.any_none, Bool.false_eq_true, if_false, Parse.pure_apply]

theorem parseCompoundList_last (hknown : ∀ token ∈ ts, token.Known) {s' : ParserState} {andOr : Ast ε}
    (h : call .andOr s = some (some andOr, s')) :
    parseCompoundList ts call s = some (some (.list andOr .unspecified none), s') := by
  simp only [parseCompoundList, Parse.bind_apply, h, Option.bind_some, parseSeparator_known hknown, if_true, Parse.pure_apply]

/-! ## Lists of simple commands -/

inductive Separator
  | semi | amp

def Separator.text : Separator → List Byte
  | .semi => lit ";"
  | .amp => lit "&"

def Separator.type : Separator → TokenType
  | .semi => .semi
  | .amp => .amp

/-- `parser_create` -/
def ParserState.start : ParserState := ⟨0, 1⟩

/-- The text is a simple command by itself: `parse_simple_command` takes all its tokens. -/
def IsSimple (parseExpansion : Token → Option ε) (text : List Byte) (node : SimpleCommand ε) : Prop :=
  ∃ (ts : List Token) (s : ParserState) (bound : ℕ), tokenize text = some ts ∧ s.pos = ts.length ∧
    ∀ n ≥ bound, parseSimpleCommand ts parseExpansion n .start = some (some node, s)

/-- The text of a list -/
def joined (first : List Byte × SimpleCommand ε) (rest : List (Separator × List Byte × SimpleCommand ε)) : List Byte :=
  first.1 ++ rest.flatMap fun r => r.1.text ++ r.2.1

/-- A simple command as `parse_and_or` yields it -/
def commandAst (node : SimpleCommand ε) : Ast ε := .pipeline false [.simpleCommand node]

/-- The list with these commands and separators -/
def listOf (node : SimpleCommand ε) : List (Separator × List Byte × SimpleCommand ε) → Ast ε
  | [] => .list (commandAst node) .unspecified none
  | (separator, _, next) :: rest => .list (commandAst node) separator.type (some (listOf next rest))

/-- The tokens of the list are parsed into these commands and separators, by `parse_list` and by
`parse_compound_list`. -/
def SeparatorsAgree (parseExpansion : Token → Option ε) (first : List Byte × SimpleCommand ε)
    (rest : List (Separator × List Byte × SimpleCommand ε)) : Prop :=
  ∃ ts, tokenize (joined first rest) = some ts ∧ ∀ symbol ∈ [Symbol.list, Symbol.compoundList], ∃ s bound, ∀ n ≥ bound,
    parse ts parseExpansion n symbol .start = some (some (listOf first.2 rest), s)

def StartsWithName (text : List Byte) : Prop := ((tokenize text).bind List.head?).any Token.isName = true

variable {first : List Byte × SimpleCommand ε} {rest : List (Separator × List Byte × SimpleCommand ε)}

/-- No separator arrives. -/
theorem not_separatorsAgree (hrest : rest ≠ []) : ¬SeparatorsAgree parseExpansion first rest := by
  intro h
  obtain ⟨ts, htokens, hparse⟩ := h
  obtain ⟨s, bound, hlist⟩ := hparse .list (by simp)
  have hresult := parseList_separator (tokenize_known htokens) (hlist (bound + 1) (Nat.le_succ _))
  cases rest with
  | nil => exact hrest rfl
  | cons r rest =>
    obtain ⟨separator, text, node⟩ := r
    have htype := Option.some.inj hresult
    cases separator <;> cases htype

theorem parse_command (hknown : ∀ token ∈ ts, token.Known)
    (hfirst : ∀ token, peek ts s = some token → token.type ≠ .keyword ∧ token.is .operator "(" = false) {s₁ : ParserState}
    (hfunction : parseFunctionDefinition ts n (parse ts parseExpansion n) s = some (none, s₁)) :
    parse ts parseExpansion (n + 2) .command s =
      (parseSimpleCommand ts parseExpansion (n + 1) s₁).map fun r => (r.1.map .simpleCommand, r.2) :=
  parseCommand_simple (parseCompoundCommand_other hknown hfirst) hfunction

/-- A command that `parse_command` does not find is no list either. -/
theorem parse_none (hknown : ∀ token ∈ ts, token.Known) {s' : ParserState}
    (h : parse ts parseExpansion n .command s = some (none, s')) :
    parse ts parseExpansion (n + 3) .list s = some (none, s') := by
  have hpipeline : parse ts parseExpansion (n + 1) .pipeline s = some (none, s') := parsePipeline_none hknown h
  have handOr : parse ts parseExpansion (n + 2) .andOr s = some (none, s') := parseAndOr_none hpipeline
  exact parseList_none handOr

/-- A command that ends with the tokens is a list by itself. -/
theorem parse_last (hknown : ∀ token ∈ ts, token.Known) {s' : ParserState} {node : SimpleCommand ε}
    (h : parse ts parseExpansion (n + 1) .command s = some (some (.simpleCommand node), s')) (hend : peek ts s' = none) :
    parse ts parseExpansion (n + 4) .list s = some (some (listOf node []), s') ∧
      parse ts parseExpansion (n + 4) .compoundList s = some (some (listOf node []), s') := by
  have hpipeline : parse ts parseExpansion (n + 2) .pipeline s = some (some (commandAst node), s') :=
    parsePipeline_last hknown h hend
  have handOr : parse ts parseExpansion (n + 3) .andOr s = some (some (commandAst node), s') :=
    parseAndOr_last hpipeline (by rw [hend]; rfl)
  exact ⟨parseList_last hknown handOr hend, parseCompoundList_last hknown handOr⟩

section
variable {node : SimpleCommand ε} {bound : ℕ}

theorem peek_start : peek ts .start = ts.head? := by
  cases ts <;> rfl

theorem peek_end (h : s.pos = ts.length) : peek ts s = none := by
  unfold peek
  rw [h]
  simp

/-- The first token of a simple command -/
theorem first_of_simple (hcommand : ∀ n ≥ bound, parseSimpleCommand ts parseExpansion n .start = some (some node, s)) :
    ∀ token, peek ts .start = some token → token.type ≠ .keyword ∧ token.is .operator "(" = false := by
  intro token hpeek
  have hnot : ¬Stuck ts .start := by
    intro hstuck
    have hnone := hcommand (bound + 1) (Nat.le_succ _)
    rw [parseSimpleCommand_stuck hstuck] at hnone
    cases hnone
  refine ⟨fun hkeyword => hnot (stuck_of_keyword hpeek hkeyword), ?_⟩
  by_contra hparen
  exact hnot (stuck_of_paren hpeek (by simpa using hparen))

theorem agrees_of_simple (hknown : ∀ token ∈ ts, token.Known)
    (hcommand : ∀ n ≥ bound, parseSimpleCommand ts parseExpansion n .start = some (some node, s)) (hend : peek ts s = none)
    (hname : (peek ts .start).any Token.isName = false) (hn : n ≥ bound) :
    parse ts parseExpansion (n + 5) .list .start = some (some (listOf node []), s) ∧
      parse ts parseExpansion (n + 5) .compoundList .start = some (some (listOf node []), s) := by
  refine parse_last hknown ?_ hend
  rw [parse_command hknown (first_of_simple hcommand) (parseFunctionDefinition_other hname),
    hcommand (n + 1) (Nat.le_succ_of_le hn)]
  rfl

/-- A simple command that begins with a name is not found: the parser goes back before the first token. -/
theorem none_of_name (hknown : ∀ token ∈ ts, token.Known)
    (hcommand : ∀ n ≥ bound, parseSimpleCommand ts parseExpansion n .start = some (some node, s)) (hlength : s.pos = ts.length)
    (hname : (peek ts .start).any Token.isName) (n : ℕ) :
    parse ts parseExpansion (n + 5) .list .start = some (none, ⟨-1, 1⟩) := by
  obtain ⟨name, hpeek, hisName⟩ := (Option.any_eq_true _ _).1 hname
  have htype := (of_decide_eq_true hisName).1
  have hparen : (peek ts (ParserState.start.consume ts)).any (·.is .operator "(") = false := by
    by_contra hany
    obtain ⟨paren, hsecond, hop⟩ := (Option.any_eq_true _ _).1 (by simpa using hany)
    have hpos := parseSimpleCommand_paren hpeek htype hsecond hop (hcommand (bound + 1) (Nat.le_succ _))
    rw [← hpos, peek_end hlength] at hsecond
    cases hsecond
  have hstuck : Stuck ts ⟨-1, 1⟩ := stuck_of_peek_none rfl
  have hcmd : parse ts parseExpansion (n + 2) .command .start = some (none, ⟨-1, 1⟩) := by
    rw [parse_command hknown (first_of_simple hcommand) (parseFunctionDefinition_name hpeek hisName hparen)]
    change (parseSimpleCommand ts parseExpansion (n + 1) ⟨-1, 1⟩).map _ = _
    rw [parseSimpleCommand_stuck hstuck]
    rfl
  exact parse_none hknown hcmd

end

/-- A list of simple commands is parsed into its commands and separators exactly when it is one command
that does not begin with a name. -/
theorem separatorsAgree_iff (hfirst : IsSimple parseExpansion first.1 first.2) :
    SeparatorsAgree parseExpansion first rest ↔ rest = [] ∧ ¬StartsWithName first.1 := by
  obtain ⟨ts, s, bound, htokens, hlength, hcommand⟩ := hfirst
  have hknown := tokenize_known htokens
  have hstart : StartsWithName first.1 ↔ (peek ts .start).any Token.isName = true := by
    rw [StartsWithName, htokens, peek_start]
    rfl
  constructor
  · intro h
    have hrest : rest = [] := by
      by_contra hne
      exact not_separatorsAgree hne h
    subst hrest
    refine ⟨rfl, fun hname => ?_⟩
    obtain ⟨ts', htokens', hparse⟩ := h
    obtain rfl : ts = ts' := Option.some.inj (htokens.symm.trans (by simpa [joined] using htokens'))
    obtain ⟨s', bound', hlist⟩ := hparse .list (by simp)
    have hsome := hlist (bound' + 5) (Nat.le_add_right _ _)
    rw [none_of_name hknown hcommand hlength (hstart.1 hname) bound'] at hsome
    cases hsome
  · intro h
    obtain ⟨rfl, hname⟩ := h
    have hagrees : ∀ n ≥ bound, _ := fun n hn =>
      agrees_of_simple hknown hcommand (peek_end hlength) (by simpa [hstart] using hname) hn
    refine ⟨ts, by simpa [joined] using htokens, ?_⟩
    intro symbol hsymbol
    refine ⟨s, bound + 5, fun n hn => ?_⟩
    obtain ⟨m, rfl⟩ := Nat.exists_eq_add_of_le' (le_trans (Nat.le_add_left 5 bound) hn)
    obtain ⟨hlist, hcompound⟩ := hagrees m (by omega)
    simp only [List.mem_cons, List.not_mem_nil, or_false] at hsymbol
    cases hsymbol with
    | inl hsymbol => exact hsymbol ▸ hlist
    | inr hsymbol => exact hsymbol ▸ hcompound

/-- `./a` without arguments -/
def pathCommand : SimpleCommand Unit := { SimpleCommand.empty with command := some (lit "./a") }

theorem isSimple_path : IsSimple (fun _ => none) (lit "./a") pathCommand := by
  refine ⟨[⟨.word, lit "./a"⟩], ⟨1, 1⟩, 2, by decide +kernel, rfl, fun n hn => ?_⟩
  obtain ⟨m, rfl⟩ := Nat.exists_eq_add_of_le' hn
  rfl

theorem separatorsAgree_path :
    SeparatorsAgree (fun _ => none) (lit "./a", pathCommand) [] ↔
      ([] : List (Separator × List Byte × SimpleCommand Unit)) = [] ∧ ¬StartsWithName (lit "./a") :=
  separatorsAgree_iff isSimple_path

/-- `./a;./a` -/
theorem two_not_separatorsAgree :
    ¬SeparatorsAgree (fun _ => none) (lit "./a", pathCommand) [(.semi, lit "./a", pathCommand)] :=
  not_separatorsAgree (by simp)

end ValidcTools.Sh23
