import ValidcTools.Sh23.Ast

/-! The parser of the shell. -/
namespace ValidcTools.Sh23

/-- `is_valid_name` -/
def isValidName (name : List Byte) : Bool :=
  name.head?.any (!isDigit ·) && name.all fun c => isAlnum c || decide (c = '_')

/-- `is_number` -/
def isNumber (text : List Byte) : Bool := !text.isEmpty && text.all isDigit

/-- `atoi` of a text of digits -/
def atoi (text : List Byte) : ℕ := text.foldl (fun n c => 10 * n + (c.toNat - 48)) 0

/-! ## Tokens -/

/-- `pos` and `line_number` -/
structure ParserState where
  pos : ℤ
  lineNumber : ℤ
deriving DecidableEq

/-- `none` when the function does not return. -/
abbrev Parse := StateT ParserState Option

/-- `peek_token`: a negative position is a large one for the comparison with the size. -/
def peek (ts : List Token) (s : ParserState) : Option Token := if 0 ≤ s.pos then ts[s.pos.toNat]? else none

/-- The state after `consume_token` -/
def ParserState.consume (ts : List Token) (s : ParserState) : ParserState :=
  match peek ts s with
  | none => s
  | some token => ⟨s.pos + 1, if token.type = .newline then s.lineNumber + 1 else s.lineNumber⟩

def peekToken (ts : List Token) : Parse (Option Token) := fun s => some (peek ts s, s)

def consumeToken (ts : List Token) : Parse Unit := fun s => some ((), s.consume ts)

/-- `p->pos -= n; p->line_number -= m` -/
def backtrack (n m : ℤ) : Parse Unit := fun s => some ((), ⟨s.pos - n, s.lineNumber - m⟩)

/-- The function does not return. -/
def diverge {α : Type} : Parse α := fun _ => none

section
variable {α β : Type} (ts : List Token) (s : ParserState)

@[simp] theorem Parse.bind_apply (x : Parse α) (f : α → Parse β) : (x >>= f) s = (x s).bind fun r => f r.1 r.2 := rfl

/-- A sequence that returns, taken apart -/
theorem Parse.bind_eq_some {x : Parse α} {f : α → Parse β} {s : ParserState} {r : β × ParserState} :
    (x >>= f) s = some r ↔ ∃ a s₁, x s = some (a, s₁) ∧ f a s₁ = some r := by
  rw [Parse.bind_apply, Option.bind_eq_some_iff, Prod.exists]

@[simp] theorem Parse.pure_apply (a : α) : (pure a : Parse α) s = some (a, s) := rfl

@[simp] theorem peekToken_apply : peekToken ts s = some (peek ts s, s) := rfl

@[simp] theorem consumeToken_apply : consumeToken ts s = some ((), s.consume ts) := rfl

@[simp] theorem backtrack_apply (n m : ℤ) : backtrack n m s = some ((), ⟨s.pos - n, s.lineNumber - m⟩) := rfl

end

/-- The token is the keyword or the operator -/
def Token.is (token : Token) (type : TokenType) (text : String) : Bool :=
  decide (token.type = type ∧ token.text = lit text)

/-- `expect_token` of an operator or a keyword -/
def expectToken (ts : List Token) (type : TokenType) (expected : String) : Parse Bool := do
  if (← peekToken ts).any (·.is type expected) then
    consumeToken ts
    return true
  else return false

/-! ## Redirections -/

/-- `parse_redirect_operation` -/
def parseRedirectOperation (token : Token) : Option RedirectOperation :=
  let other : Option (Option RedirectOperation) :=
    match token.type with
    | .operator => some none
    | .dgreat => some (some .dgreat)
    | .dless => some (some .dless)
    | .dlessdash => some (some .dlessdash)
    | .lessand => some (some .lessand)
    | .greatand => some (some .greatand)
    | .lessgreat => some (some .lessgreat)
    | .clobber => some (some .clobber)
    | _ => none
  other.bind fun operation =>
    if token.text = lit "<" then some .less else if token.text = lit ">" then some .great else operation

/-- A redirection whose word has been read, with its content for a here-document -/
def redirect (ioNumber : Option Token) (operation : RedirectOperation) (word : Token) (content : Option Token) : Redirect where
  ioNumber := ioNumber.map Token.text
  operation := operation
  filename := if operation = .dless ∨ operation = .dlessdash then none else some word.text
  delimiter := if operation = .dless ∨ operation = .dlessdash then some word.text else none
  heredocContent := content.map Token.text
  isQuoted := (operation = .dless ∨ operation = .dlessdash) ∧ (0x27 ∈ word.text ∨ 0x22 ∈ word.text)
  isDash := operation = .dlessdash

/-- `parse_redirect` -/
def parseRedirect (ts : List Token) : Parse (Option Redirect) := do
  let ioNumber := (← peekToken ts).filter (·.type = .ioNumber)
  if ioNumber.isSome then consumeToken ts
  match (← peekToken ts).bind parseRedirectOperation with
  | none =>
    if ioNumber.isSome then backtrack 1 1
    return none
  | some operation =>
    consumeToken ts
    match (← peekToken ts).filter fun t => t.type = .word ∨ t.type = .heredocDelim with
    | none =>
      backtrack 1 0
      if ioNumber.isSome then backtrack 1 1
      return none
    | some word =>
      consumeToken ts
      if operation = .dless ∨ operation = .dlessdash then
        match (← peekToken ts).filter (·.type = .word) with
        | none => return some (redirect ioNumber operation word none)
        | some content =>
          backtrack 0 (-(content.text.count 0x0A : ℤ))
          consumeToken ts
          return some (redirect ioNumber operation word (some content))
      else return some (redirect ioNumber operation word none)

/-- `parse_redirect_list`, for so many redirections at most -/
def parseRedirectList (ts : List Token) : ℕ → Parse (List Redirect)
  | 0 => diverge
  | n + 1 => do
    match ← parseRedirect ts with
    | none => return []
    | some redir => return redir :: (← parseRedirectList ts n)

/-! ## Simple commands -/

/-- The token types that the loops of `parse_simple_command` hand to `parse_redirect` -/
def startsRedirect (type : TokenType) : Bool :=
  type ∈ [.ioNumber, .operator, .dless, .dgreat, .dlessdash, .lessand, .greatand, .lessgreat, .clobber]

def isExpansion (type : TokenType) : Bool := type ∈ [.param, .dparen, .backtick, .arith, .tilde]

variable {ε : Type}

/-- The loop over assignments and redirections: `none` for an assignment without '=' -/
def parsePrefix (ts : List Token) (node : SimpleCommand ε) : ℕ → Parse (Option (SimpleCommand ε))
  | 0 => diverge
  | n + 1 => do
    match ← peekToken ts with
    | none => return some node
    | some token =>
      if token.type = .assignment then
        consumeToken ts
        if 0x3D ∈ token.text then
          let name := token.text.takeWhile (· ≠ 0x3D)
          let value := token.text.drop (name.length + 1)
          parsePrefix ts { node with assignments := node.assignments ++ [(name, value)] } n
        else return none
      else if startsRedirect token.type then
        match ← parseRedirect ts with
        | none => return some node
        | some redir => parsePrefix ts { node with redirects := redir :: node.redirects } n
      else return some node

/-- The command word, with the number after `break` or `continue` -/
def parseCommandWord (ts : List Token) (node : SimpleCommand ε) : Parse (SimpleCommand ε) := do
  match (← peekToken ts).filter (·.type = .word) with
  | none => return node
  | some token =>
    consumeToken ts
    let node := { node with command := some token.text }
    if token.text = lit "break" ∨ token.text = lit "continue" then
      let node := { node with isBuiltin := true }
      match (← peekToken ts).filter fun t => t.type = .word ∧ isNumber t.text with
      | none => return node
      | some num =>
        consumeToken ts
        if token.text = lit "break" then return { node with breakCount := atoi num.text }
        else return { node with continueCount := atoi num.text }
    else return node

/-- The loop over arguments, redirections and expansions: `none` for an expansion that is refused -/
def parseSuffix (ts : List Token) (parseExpansion : Token → Option ε) (node : SimpleCommand ε) :
    ℕ → Parse (Option (SimpleCommand ε))
  | 0 => diverge
  | n + 1 => do
    match ← peekToken ts with
    | none => return some node
    | some token =>
      if token.type = .word then
        consumeToken ts
        parseSuffix ts parseExpansion { node with suffix := node.suffix ++ [token.text] } n
      else if startsRedirect token.type then
        match ← parseRedirect ts with
        | none => return some node
        | some redir => parseSuffix ts parseExpansion { node with redirects := redir :: node.redirects } n
      else if isExpansion token.type then
        consumeToken ts
        match parseExpansion token with
        | none => return none
        | some exp => parseSuffix ts parseExpansion { node with expansions := node.expansions ++ [exp] } n
      else return some node

/-- `parse_simple_command` -/
def parseSimpleCommand (ts : List Token) (parseExpansion : Token → Option ε) (n : ℕ) :
    Parse (Option (SimpleCommand ε)) := do
  match ← parsePrefix ts .empty n with
  | none => return none
  | some node =>
    match ← parseSuffix ts parseExpansion (← parseCommandWord ts node) n with
    | none => return none
    | some node =>
      if node.command.isNone ∧ node.assignments = [] ∧ node.redirects = [] ∧ node.expansions = [] then return none
      else return some node

/-! ## Compound commands -/

/-- The functions that call each other -/
inductive Symbol
  | list | compoundList | andOr | pipeline | command | compoundCommand | functionDefinition | braceGroup | subshell
  | ifClause | forClause | caseClause | whileClause | untilClause

section
variable (ts : List Token) (parseExpansion : Token → Option ε) (n : ℕ) (call : Symbol → Parse (Option (Ast ε)))

/-- The separator after a command, as `parse_list` and `parse_compound_list` look for it -/
def parseSeparator : Parse TokenType := do
  let sep ← peekToken ts
  if sep.any (·.is .operator ";") then
    consumeToken ts
    return .semi
  else if sep.any (·.is .operator "&") then
    consumeToken ts
    return .amp
  else return .unspecified

/-- `parse_compound_list` -/
def parseCompoundList : Parse (Option (Ast ε)) := do
  match ← call .andOr with
  | none => return none
  | some andOr =>
    let separator ← parseSeparator ts
    if separator = .unspecified then return some (.list andOr separator none)
    else return some (.list andOr separator (← call .compoundList))

/-- `parse_brace_group` and `parse_subshell`: a compound list in its brackets -/
def parseBracketed (left right : String) (make : Ast ε → Ast ε) : Parse (Option (Ast ε)) := do
  if ← expectToken ts .operator left then
    match ← call .compoundList with
    | none => return none
    | some body => if ← expectToken ts .operator right then return some (make body) else return none
  else return none

/-- `parse_brace_group` -/
def parseBraceGroup : Parse (Option (Ast ε)) := parseBracketed ts call "\x7b" "\x7d" .braceGroup

/-- `parse_subshell` -/
def parseSubshell : Parse (Option (Ast ε)) := parseBracketed ts call "(" ")" .subshell

/-- The keyword at the end of a clause, and the clause -/
def closing (keyword : String) (clause : Ast ε) : Parse (Option (Ast ε)) := do
  if ← expectToken ts .keyword keyword then return some clause else return none

/-- `parse_if_clause` -/
def parseIfClause : Parse (Option (Ast ε)) := do
  if ← expectToken ts .keyword "if" then
    match ← call .compoundList with
    | none => return none
    | some condition =>
      if ← expectToken ts .keyword "then" then
        match ← call .compoundList with
        | none => return none
        | some thenBody =>
          let token ← peekToken ts
          if token.any (·.is .keyword "else") then
            consumeToken ts
            match ← call .compoundList with
            | none => return none
            | some elsePart => closing ts "fi" (.ifClause condition thenBody (some elsePart))
          else if token.any (·.is .keyword "elif") then
            match ← call .ifClause with
            | none => return none
            | some elsePart => closing ts "fi" (.ifClause condition thenBody (some elsePart))
          else closing ts "fi" (.ifClause condition thenBody none)
      else return none
  else return none

/-- The words up to the first token that is none -/
def parseWords : ℕ → Parse (List (List Byte))
  | 0 => diverge
  | n + 1 => do
    match (← peekToken ts).filter (·.type = .word) with
    | none => return []
    | some token =>
      consumeToken ts
      return token.text :: (← parseWords n)

/-- `do`, a compound list and `done` -/
def parseDoGroup (make : Ast ε → Ast ε) : Parse (Option (Ast ε)) := do
  if ← expectToken ts .keyword "do" then
    match ← call .compoundList with
    | none => return none
    | some body => closing ts "done" (make body)
  else return none

/-- `parse_for_clause` -/
def parseForClause : Parse (Option (Ast ε)) := do
  if ← expectToken ts .keyword "for" then
    match (← peekToken ts).filter fun t => t.type = .word ∧ isValidName t.text with
    | none => return none
    | some var =>
      consumeToken ts
      if (← peekToken ts).any (·.is .keyword "in") then
        consumeToken ts
        let wordlist ← parseWords ts n
        if ← expectToken ts .operator ";" then parseDoGroup ts call (.forClause var.text wordlist) else return none
      else parseDoGroup ts call (.forClause var.text [])
  else return none

/-- The items of `parse_case_clause` -/
def parseCaseItems : ℕ → Parse (Option (List (List (List Byte) × Option (Ast ε) × Bool)))
  | 0 => diverge
  | m + 1 => do
    let token ← peekToken ts
    if token.isNone ∨ token.any (·.is .keyword "esac") then return some []
    else if ← expectToken ts .operator "(" then
      let patterns ← parseWords ts n
      if ← expectToken ts .operator ")" then
        let action ← call .compoundList
        if (← peekToken ts).any (·.type = .dsemi) then
          consumeToken ts
          match ← parseCaseItems m with
          | none => return none
          | some items => return some ((patterns, action, true) :: items)
        else return none
      else return none
    else return none

/-- `parse_case_clause` -/
def parseCaseClause : Parse (Option (Ast ε)) := do
  if ← expectToken ts .keyword "case" then
    match (← peekToken ts).filter (·.type = .word) with
    | none => return none
    | some word =>
      consumeToken ts
      if ← expectToken ts .keyword "in" then
        match ← parseCaseItems ts n call n with
        | none => return none
        | some items => closing ts "esac" (.caseClause word.text items)
      else return none
  else return none

/-- `parse_while_clause` and `parse_until_clause` -/
def parseLoopClause (keyword : String) (make : Ast ε → Ast ε → Ast ε) : Parse (Option (Ast ε)) := do
  if ← expectToken ts .keyword keyword then
    match ← call .compoundList with
    | none => return none
    | some condition => parseDoGroup ts call (make condition)
  else return none

/-- `parse_while_clause` -/
def parseWhileClause : Parse (Option (Ast ε)) := parseLoopClause ts call "while" .whileClause

/-- `parse_until_clause` -/
def parseUntilClause : Parse (Option (Ast ε)) := parseLoopClause ts call "until" .untilClause

/-- `parse_function_definition`: it goes two tokens back when its brackets are missing, of which the
name is one. -/
def parseFunctionDefinition : Parse (Option (Ast ε)) := do
  match (← peekToken ts).filter fun t => t.type = .word ∧ isValidName t.text with
  | none => return none
  | some name =>
    consumeToken ts
    if ← (do if ← expectToken ts .operator "(" then expectToken ts .operator ")" else return false) then
      match ← call .compoundCommand with
      | none => return none
      | some body => return some (.functionDefinition name.text body (← parseRedirectList ts n))
    else
      backtrack 2 0
      return none

/-- `parse_compound_command` -/
def parseCompoundCommand : Parse (Option (Ast ε)) := do
  match ← peekToken ts with
  | none => return none
  | some token =>
    if token.is .keyword "if" then call .ifClause
    else if token.is .keyword "for" then call .forClause
    else if token.is .keyword "case" then call .caseClause
    else if token.is .keyword "while" then call .whileClause
    else if token.is .keyword "until" then call .untilClause
    else if token.is .operator "\x7b" then call .braceGroup
    else if token.is .operator "(" then call .subshell
    else return none

/-- `parse_command` -/
def parseCommand : Parse (Option (Ast ε)) := do
  match ← call .compoundCommand with
  | some cmd => return some (.redirected cmd (← parseRedirectList ts n))
  | none =>
    match ← call .functionDefinition with
    | some cmd => return some cmd
    | none => return (← parseSimpleCommand ts parseExpansion n).map .simpleCommand

/-- The loop of `parse_pipeline`: `none` when a command is missing after '|' -/
def parsePipelineLoop (commands : List (Ast ε)) : ℕ → Parse (Option (List (Ast ε)))
  | 0 => diverge
  | m + 1 => do
    if (← peekToken ts).any (·.is .operator "|") then
      consumeToken ts
      match ← call .command with
      | none => return none
      | some cmd => parsePipelineLoop (commands ++ [cmd]) m
    else return some commands

/-- `parse_pipeline` -/
def parsePipeline : Parse (Option (Ast ε)) := do
  let bang := (← peekToken ts).any (·.is .operator "!")
  if bang then consumeToken ts
  match ← call .command with
  | none =>
    if bang then backtrack 1 1
    return none
  | some cmd => return (← parsePipelineLoop ts call [cmd] n).map (.pipeline bang)

/-- `parse_and_or` -/
def parseAndOr : Parse (Option (Ast ε)) := do
  match ← call .pipeline with
  | none => return none
  | some left =>
    match (← peekToken ts).filter fun t => t.type = .andIf ∨ t.type = .orIf with
    | none => return some left
    | some token =>
      consumeToken ts
      match ← call .andOr with
      | none => return none
      | some right => return some (.andOr left token.type right)

/-- The end of the input or of the construct, as `parse_list` looks for it -/
def endsList (token : Token) : Bool :=
  decide (token.type = .eof) || token.is .keyword "fi" || token.is .keyword "done" || token.is .keyword "esac"

/-- `parse_list` -/
def parseList : Parse (Option (Ast ε)) := do
  match ← call .andOr with
  | none => return none
  | some andOr =>
    let separator ← parseSeparator ts
    if (← peekToken ts).any (!endsList ·) then return some (.list andOr separator (← call .list))
    else return some (.list andOr separator none)

end

/-- The functions, with so many nested calls and turns of a loop -/
def parse (ts : List Token) (parseExpansion : Token → Option ε) : ℕ → Symbol → Parse (Option (Ast ε))
  | 0, _ => diverge
  | n + 1, symbol =>
    let call := parse ts parseExpansion n
    match symbol with
    | .list => parseList ts call
    | .compoundList => parseCompoundList ts call
    | .andOr => parseAndOr ts call
    | .pipeline => parsePipeline ts n call
    | .command => parseCommand ts parseExpansion n call
    | .compoundCommand => parseCompoundCommand ts call
    | .functionDefinition => parseFunctionDefinition ts n call
    | .braceGroup => parseBraceGroup ts call
    | .subshell => parseSubshell ts call
    | .ifClause => parseIfClause ts call
    | .forClause => parseForClause ts n call
    | .caseClause => parseCaseClause ts n call
    | .whileClause => parseWhileClause ts call
    | .untilClause => parseUntilClause ts call

end ValidcTools.Sh23
