import ValidcTools.Sh23.Parser
import Mathlib.Logic.Relation

/-! The tokenizer of the shell. -/
namespace ValidcTools.Sh23

/-- A token without text counts as one with the empty text. -/
structure Tokenizer where
  currentToken : List Byte
  tokens : List Token
  heredocDelim : Option (List Byte)
  heredocContent : Option (List Byte)
  inQuotes : Bool
  inDquotes : Bool
  escaped : Bool
  isFirstWord : Bool
  afterHeredocOp : Bool
  parenDepthDparen : ℤ
  parenDepthArith : ℤ
  inBacktick : Bool
  braceDepthParam : ℤ
deriving DecidableEq

/-- `tokenizer_create` -/
def Tokenizer.create : Tokenizer := ⟨[], [], none, none, false, false, false, true, false, 0, 0, false, 0⟩

/-- `is_operator_char` -/
def isOperatorChar (c : Byte) : Bool := decide (c ∈ lit ";|&<>()")

/-- `is_keyword_string` -/
def isKeyword (text : List Byte) : Bool :=
  decide (text ∈ ["if", "then", "else", "elif", "fi", "while", "do", "done", "until", "for", "in", "case", "esac", "break",
    "continue", "return"].map lit)

/-- What one turn of the loop of `tokenizer_process_input` comes to: the next turn with what is left of
the input, a return of 0 or of -1, or a read behind the NUL that ends the input -/
inductive Turn
  | next (t : Tokenizer) (rest : List Byte)
  | done (t : Tokenizer)
  | failed (t : Tokenizer)
  | overrun
deriving DecidableEq

/-- `tokenizer_add_token_cstr` -/
def Tokenizer.add (t : Tokenizer) (type : TokenType) (text : List Byte) : Tokenizer :=
  { t with tokens := t.tokens ++ [⟨type, text⟩] }

/-- `string_append_ascii_char` on the current token, which refuses other characters than ASCII -/
def Tokenizer.append (t : Tokenizer) (c : Byte) : Option Tokenizer :=
  if c < 0x80 then some { t with currentToken := t.currentToken ++ [c] } else none

/-- `finalize_current_token`, where the current token is not empty -/
def Tokenizer.finalizeCurrent (t : Tokenizer) : Tokenizer :=
  if t.currentToken = [] then t
  else
    { t.add (if isKeyword t.currentToken then .keyword else .word) t.currentToken with
      currentToken := []
      isFirstWord := false }

/-! ## Operators -/

/-- The operators in the order in which `process_operator` looks for them -/
def operators : List (String × TokenType) :=
  [("&&", .andIf), ("||", .orIf), (";;", .dsemi), ("<<-", .dlessdash), ("<<", .dless), (">>", .dgreat), ("<&", .lessand),
    (">&", .greatand), ("<>", .lessgreat), (">|", .clobber), ("&", .amp), (";", .semi), ("<", .operator), (">", .operator),
    ("|", .operator), ("(", .operator), (")", .operator)]

/-- `process_operator`: the operator stays in the current token as well. -/
def processOperator (t : Tokenizer) (p : List Byte) : Turn :=
  match operators.find? fun op => (lit op.1).isPrefixOf p with
  | none => .failed t
  | some (text, type) =>
    .next { { t with currentToken := lit text }.add type (lit text) with
      afterHeredocOp := type ∈ [.dless, .dlessdash]
      isFirstWord := type ∈ [.operator, .andIf, .orIf, .dsemi] } (p.drop (lit text).length)

/-! ## Here-documents -/

/-- `process_heredoc` -/
def processHeredoc (t : Tokenizer) (p : List Byte) : Turn :=
  if t.currentToken = [] then .failed t
  else
    let t := { t.add .heredocDelim t.currentToken with
      heredocDelim := some t.currentToken
      currentToken := []
      afterHeredocOp := false }
    match p.dropWhile fun c => decide (c ≠ 0x0A) && isSpace c with
    | [] => .failed t
    | c :: rest =>
      if c = 0x0A then .next { t with heredocContent := some (t.heredocContent.getD []) } rest else .failed t

/-- `process_heredoc_content` -/
def processHeredocContent (t : Tokenizer) (delim input : List Byte) : Tokenizer :=
  let line := if input.getLast? = some 0x0A then input.dropLast else input
  if line = delim then
    let t := if t.heredocContent ≠ some [] then t.add .word (t.heredocContent.getD []) else t
    { t with heredocContent := none, heredocDelim := none }
  else
    let content := t.heredocContent.getD []
    { t with heredocContent := some (if content = [] then line else content ++ 0x0A :: line) }

/-! ## Substitutions -/

/-- The loop of `process_dparen`, `process_arith`, `process_param` and `process_backtick`. It compares the
pointer, not the byte it points to, with NUL and with the special characters, so that nothing ends
it but a byte that is refused. -/
def takeAll (t : Tokenizer) : List Byte → Turn
  | [] => .overrun
  | c :: rest =>
    match t.append c with
    | none => .failed t
    | some t => takeAll { t with escaped := false } rest

/-- How the four functions begin: with the opening text, or with one byte where they are inside already -/
def openWith (t : Tokenizer) (opening : List Byte) (p : List Byte) : Turn :=
  takeAll { t with currentToken := t.currentToken ++ opening } (p.drop opening.length)

/-- `process_dparen` -/
def processDparen (t : Tokenizer) (p : List Byte) : Turn :=
  if t.parenDepthDparen = 0 then openWith { t with parenDepthDparen := 1 } (lit "$(") p
  else openWith { t with parenDepthDparen := t.parenDepthDparen + 1 } (lit "(") p

/-- `process_arith` -/
def processArith (t : Tokenizer) (p : List Byte) : Turn :=
  if t.parenDepthArith = 0 then openWith { t with parenDepthArith := 2 } (lit "$((") p
  else openWith { t with parenDepthArith := t.parenDepthArith + 1 } (lit "(") p

/-- `process_param` -/
def processParam (t : Tokenizer) (p : List Byte) : Turn :=
  if t.braceDepthParam = 0 then openWith { t with braceDepthParam := 1 } [0x24, 0x7B] p
  else openWith { t with braceDepthParam := t.braceDepthParam + 1 } [0x7B] p

/-- `process_backtick` -/
def processBacktick (t : Tokenizer) (p : List Byte) : Turn :=
  if t.inBacktick then
    .next { { t with inBacktick := false }.add .backtick (t.currentToken ++ [0x60]) with currentToken := [] } (p.drop 1)
  else openWith { t with inBacktick := true } [0x60] p

/-! ## The loop -/

/-- A blank outside quotes: behind a delimiter and its newline, one more byte is passed over. -/
def processBlank (t : Tokenizer) (c : Byte) (rest : List Byte) : Turn :=
  if t.currentToken ≠ [] ∧ t.afterHeredocOp then
    match processHeredoc t (c :: rest) with
    | .next _ [] => .overrun
    | .next t (c :: rest) => .next (if c = 0x0A then { t.add .newline [0x0A] with isFirstWord := true } else t) rest
    | turn => turn
  else
    let t := t.finalizeCurrent
    .next (if c = 0x0A then { t.add .newline [0x0A] with isFirstWord := true } else t) rest

/-- A comment, for which there are 1024 bytes -/
def processComment (t : Tokenizer) (p : List Byte) : Turn :=
  let comment := p.takeWhile (· ≠ 0x0A)
  if comment.length ≥ 1024 then .failed t else .next (t.add .comment comment) (p.dropWhile (· ≠ 0x0A))

/-- A tilde at the start of a token, with the name after it, for which there are 256 bytes -/
def processTilde (t : Tokenizer) (rest : List Byte) : Turn :=
  let isLogin (c : Byte) : Bool := isAlnum c || decide (c ∈ lit "_+-")
  let tilde := 0x7E :: rest.takeWhile isLogin
  if tilde.length ≥ 256 then .failed t else .next (t.add .tilde tilde) (rest.dropWhile isLogin)

/-- The next turn after the byte was appended -/
def appendNext (t : Tokenizer) (c : Byte) (rest : List Byte) : Turn :=
  match t.append c with
  | none => .failed t
  | some t => .next t rest

/-- One turn outside quotes and escapes -/
def processPlain (t : Tokenizer) (c : Byte) (rest : List Byte) : Turn :=
  if isSpace c then processBlank t c rest
  else if c = '#' then processComment t.finalizeCurrent (c :: rest)
  else if (lit "$(").isPrefixOf (c :: rest) then processDparen t.finalizeCurrent (c :: rest)
  else if (lit "$((").isPrefixOf (c :: rest) then processArith t.finalizeCurrent (c :: rest)
  else if ([0x24, 0x7B] : List Byte).isPrefixOf (c :: rest) then processParam t.finalizeCurrent (c :: rest)
  else if c = 0x60 then processBacktick t.finalizeCurrent (c :: rest)
  else if isOperatorChar c then processOperator t.finalizeCurrent (c :: rest)
  else if c = '~' ∧ t.currentToken = [] then processTilde t rest
  else appendNext t c rest

/-- One turn of the loop, on a byte of the input -/
def turn (t : Tokenizer) (c : Byte) (rest : List Byte) : Turn :=
  match t.heredocDelim with
  | some delim => .done (processHeredocContent t delim (c :: rest))
  | none =>
    if t.escaped then
      match t.append c with
      | none => .failed t
      | some t => .next { t with escaped := false } rest
    else if c = '\\' ∧ !t.inQuotes then
      if rest = [] then .done { t with escaped := true } else .next { t with escaped := true } rest
    else if c = 0x27 ∧ !t.inDquotes then appendNext { t with inQuotes := !t.inQuotes } c rest
    else if c = 0x22 ∧ !t.inQuotes then appendNext { t with inDquotes := !t.inDquotes } c rest
    else if t.inQuotes ∨ t.inDquotes then appendNext t c rest
    else processPlain t c rest

/-! ## What a turn leaves of the input -/

theorem operators_ne_nil : ∀ op ∈ operators, lit op.1 ≠ [] := by decide

theorem processOperator_rest {t t' : Tokenizer} {c : Byte} {rest rest' : List Byte}
    (h : processOperator t (c :: rest) = .next t' rest') : rest'.length ≤ rest.length := by
  unfold processOperator at h
  split at h
  · cases h
  · next text type hop =>
    cases h
    have : 0 < (lit text).length := List.length_pos_iff.2 (operators_ne_nil _ (List.mem_of_find?_eq_some hop))
    simp only [List.length_drop, List.length_cons]
    omega

theorem takeAll_ne_next {t t' : Tokenizer} {p rest : List Byte} : takeAll t p ≠ .next t' rest := by
  induction p generalizing t with
  | nil => simp [takeAll]
  | cons c p ih =>
    unfold takeAll
    split
    · simp
    · exact ih

theorem processHeredoc_rest {t t' : Tokenizer} {p rest : List Byte} (h : processHeredoc t p = .next t' rest) :
    rest.length < p.length := by
  unfold processHeredoc at h
  split at h
  · cases h
  · simp only at h
    split at h
    · cases h
    · next c q hq =>
      split at h
      · cases h
        have hle : (p.dropWhile fun c => decide (c ≠ 0x0A) && isSpace c).length ≤ p.length :=
          (List.dropWhile_sublist _).length_le
        rw [hq] at hle
        exact hle
      · cases h

theorem processBlank_rest {t t' : Tokenizer} {c : Byte} {rest rest' : List Byte}
    (h : processBlank t c rest = .next t' rest') : rest'.length ≤ rest.length := by
  unfold processBlank at h
  split at h
  · split at h
    · cases h
    · next hq =>
      have := processHeredoc_rest hq
      cases h
      simp only [List.length_cons] at this
      omega
    · next hnil hne =>
      cases rest' with
      | nil => exact Nat.zero_le _
      | cons c' rest' => exact absurd h (hne t' c' rest')
  · cases h
    exact le_refl _

theorem appendNext_rest {t t' : Tokenizer} {c : Byte} {rest rest' : List Byte} (h : appendNext t c rest = .next t' rest') :
    rest' = rest := by
  unfold appendNext at h
  split at h
  · cases h
  · cases h
    rfl

theorem processComment_rest {t t' : Tokenizer} {rest rest' : List Byte}
    {c : Byte} (hc : c = '#') (h : processComment t (c :: rest) = .next t' rest') : rest'.length ≤ rest.length := by
  unfold processComment at h
  simp only at h
  split at h
  · cases h
  · cases h
    rw [hc, List.dropWhile_cons_of_pos (by decide)]
    exact (List.dropWhile_sublist _).length_le

theorem processTilde_rest {t t' : Tokenizer} {rest rest' : List Byte} (h : processTilde t rest = .next t' rest') :
    rest'.length ≤ rest.length := by
  unfold processTilde at h
  simp only at h
  split at h
  · cases h
  · cases h
    exact (List.dropWhile_sublist _).length_le

theorem processDparen_ne_next {t t' : Tokenizer} {p rest : List Byte} : processDparen t p ≠ .next t' rest := by
  unfold processDparen
  split <;> exact takeAll_ne_next

theorem processArith_ne_next {t t' : Tokenizer} {p rest : List Byte} : processArith t p ≠ .next t' rest := by
  unfold processArith
  split <;> exact takeAll_ne_next

theorem processParam_ne_next {t t' : Tokenizer} {p rest : List Byte} : processParam t p ≠ .next t' rest := by
  unfold processParam
  split <;> exact takeAll_ne_next

theorem processBacktick_rest {t t' : Tokenizer} {c : Byte} {rest rest' : List Byte}
    (h : processBacktick t (c :: rest) = .next t' rest') : rest'.length = rest.length := by
  unfold processBacktick at h
  split at h
  · cases h
    rfl
  · exact absurd h takeAll_ne_next

theorem processPlain_rest {t t' : Tokenizer} {c : Byte} {rest rest' : List Byte}
    (h : processPlain t c rest = .next t' rest') : rest'.length ≤ rest.length := by
  unfold processPlain at h
  split_ifs at h
  · exact processBlank_rest h
  · next hc => exact processComment_rest hc h
  · exact absurd h processDparen_ne_next
  · exact absurd h processArith_ne_next
  · exact absurd h processParam_ne_next
  · exact (processBacktick_rest h).le
  · exact processOperator_rest h
  · exact processTilde_rest h
  · rw [appendNext_rest h]

/-- Each turn passes over a byte at least. -/
theorem turn_rest {t t' : Tokenizer} {c : Byte} {rest rest' : List Byte} (h : turn t c rest = .next t' rest') :
    rest'.length ≤ rest.length := by
  unfold turn at h
  split at h
  · cases h
  · split_ifs at h
    · split at h
      · cases h
      · cases h
        exact le_refl _
    · cases h
      exact le_refl _
    · rw [appendNext_rest h]
    · rw [appendNext_rest h]
    · rw [appendNext_rest h]
    · exact processPlain_rest h

/-- `tokenizer_process_input` -/
def processInput (t : Tokenizer) : List Byte → Turn
  | [] => .done t
  | c :: rest =>
    match h : turn t c rest with
    | .next t rest => processInput t rest
    | turn => turn
termination_by p => p.length
decreasing_by
  have := turn_rest h
  simp only [List.length_cons]
  omega

theorem processInput_cons (t : Tokenizer) (c : Byte) (rest : List Byte) :
    processInput t (c :: rest) =
      match turn t c rest with
      | .next t rest => processInput t rest
      | turn => turn := by
  conv_lhs => unfold processInput
  split <;> simp_all

/-! ## Runs of the loop -/

/-- A state of the loop: the tokenizer and what is left of the input -/
abbrev Config := Tokenizer × List Byte

/-- One turn that is followed by another -/
def Step (a b : Config) : Prop := ∃ c rest, a.2 = c :: rest ∧ turn a.1 c rest = .next b.1 b.2

/-- The loop gets from one state to the other. -/
abbrev Reaches : Config → Config → Prop := Relation.ReflTransGen Step

theorem processInput_step {a b : Config} (h : Step a b) : processInput a.1 a.2 = processInput b.1 b.2 := by
  obtain ⟨c, rest, hp, hturn⟩ := h
  rw [hp, processInput_cons, hturn]

theorem processInput_reaches {a b : Config} (h : Reaches a b) : processInput a.1 a.2 = processInput b.1 b.2 := by
  induction h with
  | refl => rfl
  | tail _ hstep ih => rw [ih, processInput_step hstep]

/-- The loop reads behind the NUL only in a turn that it gets to. -/
theorem processInput_overrun_iff (t : Tokenizer) (input : List Byte) :
    processInput t input = .overrun ↔ ∃ t' c rest, Reaches (t, input) (t', c :: rest) ∧ turn t' c rest = .overrun := by
  constructor
  · intro h
    fun_induction processInput t input with
    | case1 t => cases h
    | case2 t c rest t' rest' hturn ih =>
      obtain ⟨t₁, c₁, rest₁, hreach, hover⟩ := ih h
      exact ⟨t₁, c₁, rest₁, .head ⟨c, rest, rfl, hturn⟩ hreach, hover⟩
    | case3 t c rest hne => exact ⟨t, c, rest, .refl, h⟩
  · intro h
    obtain ⟨t', c, rest, hreach, hover⟩ := h
    have heq := processInput_reaches hreach
    rw [heq, processInput_cons, hover]

/-! ## The end of the input -/

/-- `tokenizer_is_complete` -/
def Tokenizer.isComplete (t : Tokenizer) : Bool :=
  !(t.heredocDelim.isSome || t.inQuotes || t.inDquotes || decide (t.parenDepthDparen ≠ 0) || decide (t.parenDepthArith ≠ 0) ||
    t.inBacktick || decide (t.braceDepthParam ≠ 0))

/-- The type of a word in front of the next token, when all tokens are there -/
def wordType (text : List Byte) (next : Option Token) : TokenType :=
  let name := text.takeWhile (· ≠ 0x3D)
  if 0x3D ∈ text ∧ 0x20 ∉ text ∧ name ≠ [] ∧ isValidName name then .assignment
  else if isKeyword text then .keyword
  else if next.any (fun n => n.is .operator ">" || n.is .operator "<" || decide (n.type ∈ [.dless, .dgreat, .dlessdash])) ∧
    isNumber text then .ioNumber
  else .word

/-- The loop over the tokens in `tokenizer_finalize` -/
def classify : List Token → List Token
  | [] => []
  | token :: rest =>
    (if token.type = .word then { token with type := wordType token.text rest.head? } else token) :: classify rest

/-- `tokenizer_finalize`: `none` when it returns -1. After a here-document operator a delimiter without its
newline is refused. -/
def tokenizerFinalize (t : Tokenizer) : Option Tokenizer :=
  if !t.isComplete then none
  else if t.currentToken ≠ [] ∧ t.afterHeredocOp then none
  else some { t.finalizeCurrent with tokens := classify t.finalizeCurrent.tokens }

/-- The tokens that a fresh tokenizer makes of a text -/
def tokenize (text : List Byte) : Option (List Token) :=
  match processInput .create text with
  | .done t => (tokenizerFinalize t).map Tokenizer.tokens
  | _ => none

end ValidcTools.Sh23
