import ValidcTools.CString

/-! Tokens and syntax trees of the shell. -/
namespace ValidcTools.Sh23

inductive TokenType
  | unspecified | word | assignment | newline | ioNumber | operator | keyword | param | dparen | backtick | arith
  | tilde | dless | dgreat | dlessdash | lessand | greatand | lessgreat | clobber | heredocDelim | dsemi | semi | amp
  | andIf | orIf | comment | eof
deriving DecidableEq

structure Token where
  type : TokenType
  text : List Byte
deriving DecidableEq

/-- A text of the source as bytes -/
def lit (s : String) : List Byte := s.toList.map Char.toUInt8

inductive RedirectOperation
  | less | great | dgreat | dless | dlessdash | lessand | greatand | lessgreat | clobber
deriving DecidableEq

structure Redirect where
  ioNumber : Option (List Byte)
  operation : RedirectOperation
  filename : Option (List Byte)
  delimiter : Option (List Byte)
  heredocContent : Option (List Byte)
  isQuoted : Bool
  isDash : Bool
deriving DecidableEq

/-- `data.simple_command`, with the expansions as `parse_expansion` makes them -/
structure SimpleCommand (ε : Type) where
  assignments : List (List Byte × List Byte)
  command : Option (List Byte)
  suffix : List (List Byte)
  expansions : List ε
  redirects : List Redirect
  isBuiltin : Bool
  breakCount : ℕ
  continueCount : ℕ
deriving DecidableEq

def SimpleCommand.empty {ε : Type} : SimpleCommand ε := ⟨[], none, [], [], [], false, 0, 0⟩

/-- `ASTNode`. A case item has its patterns, its action and `has_dsemi`; the redirections after a compound command or a function body are kept with it. -/
inductive Ast (ε : Type)
  | simpleCommand (c : SimpleCommand ε)
  | pipeline (bang : Bool) (commands : List (Ast ε))
  | andOr (left : Ast ε) (operation : TokenType) (right : Ast ε)
  | list (andOr : Ast ε) (separator : TokenType) (next : Option (Ast ε))
  | completeCommand (list : Ast ε)
  | program (commands : Ast ε)
  | ifClause (condition thenBody : Ast ε) (elsePart : Option (Ast ε))
  | forClause (name : List Byte) (wordlist : List (List Byte)) (body : Ast ε)
  | caseClause (word : List Byte) (items : List (List (List Byte) × Option (Ast ε) × Bool))
  | whileClause (condition body : Ast ε)
  | untilClause (condition body : Ast ε)
  | braceGroup (body : Ast ε)
  | subshell (body : Ast ε)
  | functionDefinition (name : List Byte) (body : Ast ε) (redirects : List Redirect)
  | redirected (command : Ast ε) (redirects : List Redirect)

end ValidcTools.Sh23
