import ValidcTools.Sh23.Arithmetic

/-! What shell-arithmetic expressions mean in C, how they are written, and which of them `arithmetic_evaluate`
reads as they are meant. -/
namespace ValidcTools.Sh23.Arithmetic

/-! ## Expressions -/

inductive EvalError
  | divisionByZero
  /-- C does not say what the value is. -/
  | undefined
deriving DecidableEq

/-- An expression; an operator is that of its token, and `=` has none. -/
inductive Expr
  | number (literal : List Byte)
  | var (name : List Byte)
  | unary (op : TokenType) (e : Expr)
  | binary (op : TokenType) (a b : Expr)
  | logicalAnd (a b : Expr)
  | logicalOr (a b : Expr)
  | ternary (cond a b : Expr)
  | assign (op : Option TokenType) (name : List Byte) (e : Expr)
  | comma (a b : Expr)

/-- The number that a variable holds -/
def numericValue (store : VariableStore) (name : List Byte) : Except EvalError ℤ :=
  match (store.getVariable name).bind strtolAll with
  | some v => .ok v
  | none => .error .undefined

def binaryValue (op : TokenType) (a b : ℤ) : Except EvalError ℤ :=
  match arithBinary op a b with
  | some (.ok v) => .ok v
  | some (.error _) => .error .divisionByZero
  | none => .error .undefined

def unaryValue (op : TokenType) (v : ℤ) : Except EvalError ℤ :=
  match (arithUnary op).bind fun f => f v with
  | some v => .ok v
  | none => .error .undefined

/-- What an assignment of `v` stores -/
def assignedValue (op : Option TokenType) (store : VariableStore) (name : List Byte) (v : ℤ) : Except EvalError ℤ :=
  match op with
  | none => .ok v
  | some op => (numericValue store name).bind fun x => binaryValue op x v

/-- The value of an expression and the variables after it -/
def Expr.eval : Expr → VariableStore → Except EvalError (ℤ × VariableStore)
  | .number literal, store => .ok ((strtolAuto literal).1, store)
  | .var name, store => (numericValue store name).map fun v => (v, store)
  | .unary op e, store => (e.eval store).bind fun x => (unaryValue op x.1).map fun v => (v, x.2)
  | .binary op a b, store =>
    (a.eval store).bind fun x => (b.eval x.2).bind fun y => (binaryValue op x.1 y.1).map fun v => (v, y.2)
  | .logicalAnd a b, store =>
    (a.eval store).bind fun x => if x.1 = 0 then .ok (0, x.2) else (b.eval x.2).map fun y => (truth (y.1 ≠ 0), y.2)
  | .logicalOr a b, store =>
    (a.eval store).bind fun x => if x.1 ≠ 0 then .ok (1, x.2) else (b.eval x.2).map fun y => (truth (y.1 ≠ 0), y.2)
  | .ternary cond a b, store => (cond.eval store).bind fun x => if x.1 ≠ 0 then a.eval x.2 else b.eval x.2
  | .assign op name e, store =>
    (e.eval store).bind fun y => (assignedValue op y.2 name y.1).map fun v => (v, y.2.setVariable name (lit (toString v)))
  | .comma a b, store => (a.eval store).bind fun x => b.eval x.2

/-! ## How they are written -/

/-- The bytes of an operator -/
def TokenType.symbol : TokenType → List Byte
  | .plus => lit "+"
  | .minus => lit "-"
  | .multiply => lit "*"
  | .divide => lit "/"
  | .modulo => lit "%"
  | .bitNot => lit "~"
  | .logicalNot => lit "!"
  | .leftShift => lit "<<"
  | .rightShift => lit ">>"
  | .less => lit "<"
  | .greater => lit ">"
  | .lessEqual => lit "<="
  | .greaterEqual => lit ">="
  | .equal => lit "=="
  | .notEqual => lit "!="
  | .bitAnd => lit "&"
  | .bitXor => lit "^"
  | .bitOr => lit "|"
  | .logicalAnd => lit "&&"
  | .logicalOr => lit "||"
  | .question => lit "?"
  | .colon => lit ":"
  | .comma => lit ","
  | .lparen => lit "("
  | .rparen => lit ")"
  | .assign => lit "="
  | _ => []

/-- The level at which a token is looked for: from the comma at 0 to `*` at 12, as in the grammar of C, where an
assignment is at 1 -/
def TokenType.level : TokenType → Option ℕ
  | .comma => some 0
  | .question => some 2
  | .logicalOr => some 3
  | .logicalAnd => some 4
  | .bitOr => some 5
  | .bitXor => some 6
  | .bitAnd => some 7
  | .equal | .notEqual => some 8
  | .less | .greater | .lessEqual | .greaterEqual => some 9
  | .leftShift | .rightShift => some 10
  | .plus | .minus => some 11
  | .multiply | .divide | .modulo => some 12
  | _ => none

def IsBlank (ws : List Byte) : Prop := ∀ c ∈ ws, isSpace c = true

/-- A decimal, octal or hexadecimal number, which `strtol` takes whole -/
def IsLiteral (literal : List Byte) : Prop :=
  (∃ d ∈ literal.head?, isDigit d = true) ∧ (strtolAuto literal).2 = literal.length

def IsName (name : List Byte) : Prop := (∃ c ∈ name.head?, isNameStart c = true) ∧ ∀ c ∈ name, isNameByte c = true

/-- The texts of an expression at a level: 13 are the unary ones and 14 the primary ones. Every token may have
white space before it. -/
inductive Reads : ℕ → List Byte → Expr → Prop
  | number {ws literal : List Byte} : IsBlank ws → IsLiteral literal → Reads 14 (ws ++ literal) (.number literal)
  | var {ws name : List Byte} : IsBlank ws → IsName name → Reads 14 (ws ++ name) (.var name)
  | paren {ws t ws' : List Byte} {e : Expr} : IsBlank ws → Reads 0 t e → IsBlank ws' →
      Reads 14 (ws ++ (lit "(" ++ (t ++ (ws' ++ lit ")")))) e
  | unary {op : TokenType} {ws t : List Byte} {e : Expr} : (arithUnary op).isSome → IsBlank ws → Reads 13 t e →
      Reads 13 (ws ++ (op.symbol ++ t)) (.unary op e)
  | binary {op : TokenType} {k : ℕ} {t ws t' : List Byte} {a b : Expr} : op.level = some k → 5 ≤ k → Reads k t a →
      IsBlank ws → Reads (k + 1) t' b → Reads k (t ++ (ws ++ (op.symbol ++ t'))) (.binary op a b)
  | logicalAnd {t ws t' : List Byte} {a b : Expr} : Reads 4 t a → IsBlank ws → Reads 5 t' b →
      Reads 4 (t ++ (ws ++ (lit "&&" ++ t'))) (.logicalAnd a b)
  | logicalOr {t ws t' : List Byte} {a b : Expr} : Reads 3 t a → IsBlank ws → Reads 4 t' b →
      Reads 3 (t ++ (ws ++ (lit "||" ++ t'))) (.logicalOr a b)
  | ternary {t ws t' ws' t'' : List Byte} {cond a b : Expr} : Reads 3 t cond → IsBlank ws → Reads 0 t' a → IsBlank ws' →
      Reads 2 t'' b → Reads 2 (t ++ (ws ++ (lit "?" ++ (t' ++ (ws' ++ (lit ":" ++ t'')))))) (.ternary cond a b)
  | assign {op : Option TokenType} {ws name ws' t : List Byte} {e : Expr} : IsBlank ws → IsName name → IsBlank ws' →
      (∀ o ∈ op, ∃ k ∈ o.level, 5 ≤ k ∧ k ≠ 8 ∧ k ≠ 9) → Reads 1 t e →
        Reads 1 (ws ++ (name ++ (ws' ++ ((op.elim [] TokenType.symbol ++ lit "=") ++ t)))) (.assign op name e)
  | comma {t ws t' : List Byte} {a b : Expr} : Reads 0 t a → IsBlank ws → Reads 1 t' b →
      Reads 0 (t ++ (ws ++ (lit "," ++ t'))) (.comma a b)
  | lift {k : ℕ} {t : List Byte} {e : Expr} : k < 14 → Reads (k + 1) t e → Reads k t e

/-! ## What the claim asks for, and when -/

/-- The value and the variables are those of C, and an error is a division by zero. -/
def AsInC (result : Parsed × VariableStore) (meant : Except EvalError (ℤ × VariableStore)) : Prop :=
  match meant with
  | .ok (v, store) => (∃ pos, result.1 = .value v pos) ∧ result.2 = store
  | .error .divisionByZero => ∃ e pos, result.1 = .failed e pos
  | .error .undefined => True

/-- The value of the last byte of a number or a name, taken as a token of its own -/
def lastValue (store : VariableStore) (token : List Byte) : Option ℤ :=
  token.getLast?.bind fun c =>
    if isDigit c then some (digitValue c : ℤ) else (store.getVariable [c]).bind strtolAll

/-- The expressions that are read as they are meant: every token is one byte, or its last byte has its value,
there is no comma and no assignment, and a branch that is not taken has a value as well. -/
def Plain (store : VariableStore) : Expr → Prop
  | .number literal => lastValue store literal = some (strtolAuto literal).1
  | .var name => ∀ v, numericValue store name = .ok v → lastValue store name = some v
  | .unary _ e => Plain store e
  | .binary op a b => op.symbol.length = 1 ∧ Plain store a ∧ Plain store b
  | .ternary cond a b => Plain store cond ∧ Plain store a ∧ Plain store b ∧
      ∀ v after, cond.eval store = .ok (v, after) → ∃ r, (if v ≠ 0 then b else a).eval store = .ok r
  | _ => False

end ValidcTools.Sh23.Arithmetic
