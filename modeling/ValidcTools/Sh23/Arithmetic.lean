import ValidcTools.Sh23.TestCommand
import ValidcTools.Sh23.Variables
import Mathlib.Data.Int.Bitwise

/-! Shell arithmetic: the lexer of `arithmetic.c` and its fourteen levels, each of which steps back by one byte
when it does not find its operator. -/
namespace ValidcTools.Sh23.Arithmetic

/-! ## Tokens -/

inductive TokenType
  | number | var | lparen | rparen | plus | minus | multiply | divide | modulo | bitNot | logicalNot
  | leftShift | rightShift | less | greater | lessEqual | greaterEqual | equal | notEqual | bitAnd | bitXor | bitOr
  | logicalAnd | logicalOr | question | colon | assign | multiplyAssign | divideAssign | moduloAssign | plusAssign
  | minusAssign | leftShiftAssign | rightShiftAssign | andAssign | xorAssign | orAssign | comma | eof
deriving DecidableEq

structure Token where
  type : TokenType
  number : ℤ := 0
  name : List Byte := []
deriving DecidableEq

/-- `isalpha`, or an underscore -/
def isNameStart (b : Byte) : Bool := (isAlnum b && !isDigit b) || decide (b = '_')

/-- `isalnum`, or an underscore -/
def isNameByte (b : Byte) : Bool := isAlnum b || decide (b = '_')

def isOctalDigit (b : Byte) : Bool := decide ('0' ≤ b ∧ b ≤ '7')

/-- `isxdigit` -/
def isHexDigit (b : Byte) : Bool := isDigit b || decide (('a' ≤ b ∧ b ≤ 'f') ∨ ('A' ≤ b ∧ b ≤ 'F'))

def digitValue (b : Byte) : ℕ := if isDigit b then (b - '0').toNat else (toLower b - 'a').toNat + 10

/-- The value of digits in a base -/
def digitsValue (base : ℕ) (ds : List Byte) : ℕ := ds.foldl (fun n d => base * n + digitValue d) 0

def LONG_MAX : ℤ := 2 ^ 63 - 1

def LONG_MIN : ℤ := -2 ^ 63

/-- The digits that `strtol(p, &endptr, 0)` takes where there is a digit at `p`: the base, what is in front of
them, and the digits -/
def strtolDigits (p : List Byte) : ℕ × ℕ × List Byte :=
  match p with
  | 0x30 :: x :: h :: rest =>
    if (x = ('x' : Byte) ∨ x = ('X' : Byte)) ∧ isHexDigit h then (16, 2, (h :: rest).takeWhile isHexDigit)
    else (8, 0, p.takeWhile isOctalDigit)
  | 0x30 :: _ => (8, 0, p.takeWhile isOctalDigit)
  | _ => (10, 0, p.takeWhile isDigit)

/-- `strtol(p, &endptr, 0)` there, and `endptr - p` -/
def strtolAuto (p : List Byte) : ℤ × ℕ :=
  let (base, skipped, digits) := strtolDigits p
  (min (digitsValue base digits) LONG_MAX, skipped + digits.length)

/-- The switch of `get_token`: what begins with `c`, before `p`, and how many bytes it has -/
def operatorToken (c : Byte) (p : List Byte) : TokenType × ℕ :=
  let assigned (compound single : TokenType) : TokenType × ℕ :=
    if p.head? = some ('=' : Byte) then (compound, 2) else (single, 1)
  if c = '(' then (.lparen, 1)
  else if c = ')' then (.rparen, 1)
  else if c = '+' then assigned .plusAssign .plus
  else if c = '-' then assigned .minusAssign .minus
  else if c = '*' then assigned .multiplyAssign .multiply
  else if c = '/' then assigned .divideAssign .divide
  else if c = '%' then assigned .moduloAssign .modulo
  else if c = '~' then (.bitNot, 1)
  else if c = '!' then assigned .notEqual .logicalNot
  else if c = '<' then
    if p.head? = some ('<' : Byte) then
      if p.tail.head? = some ('=' : Byte) then (.leftShiftAssign, 3) else (.leftShift, 2)
    else assigned .lessEqual .less
  else if c = '>' then
    if p.head? = some ('>' : Byte) then
      if p.tail.head? = some ('=' : Byte) then (.rightShiftAssign, 3) else (.rightShift, 2)
    else assigned .greaterEqual .greater
  else if c = '=' then assigned .equal .assign
  else if c = '&' then
    if p.head? = some ('&' : Byte) then (.logicalAnd, 2) else assigned .andAssign .bitAnd
  else if c = '^' then assigned .xorAssign .bitXor
  else if c = '|' then
    if p.head? = some ('|' : Byte) then (.logicalOr, 2) else assigned .orAssign .bitOr
  else if c = '?' then (.question, 1)
  else if c = ':' then (.colon, 1)
  else if c = ',' then (.comma, 1)
  else (.eof, 1)

/-- `get_token` behind the white space: the token, and how many bytes it has -/
def tokenAt : List Byte → Token × ℕ
  | [] => (⟨.eof, 0, []⟩, 0)
  | c :: p =>
    if isDigit c then (⟨.number, (strtolAuto (c :: p)).1, []⟩, (strtolAuto (c :: p)).2)
    else if isNameStart c then
      (⟨.var, 0, (c :: p).takeWhile isNameByte⟩, ((c :: p).takeWhile isNameByte).length)
    else (⟨(operatorToken c p).1, 0, []⟩, (operatorToken c p).2)

/-! ## Values -/

/-- Where a parser function ends; `pos` is a `size_t`. -/
inductive Parsed
  | value (v : ℤ) (pos : ℕ)
  | failed (error : String) (pos : ℕ)
  /-- A byte outside the string is read, or an operation on `long` has no defined result. -/
  | undefined
  | outOfFuel
deriving DecidableEq

/-- What is done with a value -/
def Parsed.andThen (r : Parsed) (f : ℤ → ℕ → Parsed) : Parsed :=
  match r with
  | .value v pos => f v pos
  | r => r

/-- `parser->pos -= 1` -/
def rewind (pos : ℕ) : ℕ := if pos = 0 then 2 ^ 64 - 1 else pos - 1

/-- A result on `long`: `none` is undefined. -/
def long (v : ℤ) : Option ℤ := if LONG_MIN ≤ v ∧ v ≤ LONG_MAX then some v else none

def truth (p : Prop) [Decidable p] : ℤ := if p then 1 else 0

/-- A binary operator on `long`: an error, a value, or undefined -/
def arithBinary (type : TokenType) (left right : ℤ) : Option (Except String ℤ) :=
  match type with
  | .multiply => (long (left * right)).map .ok
  | .divide => if right = 0 then some (.error "Division by zero") else (long (left.tdiv right)).map .ok
  | .modulo =>
    if right = 0 then some (.error "Modulo by zero")
    -- the quotient must be defined
    else (long (left.tdiv right)).map fun _ => .ok (left.tmod right)
  | .plus => (long (left + right)).map .ok
  | .minus => (long (left - right)).map .ok
  | .leftShift => if 0 ≤ left ∧ 0 ≤ right ∧ right < 64 then (long (left * 2 ^ right.toNat)).map .ok else none
  | .rightShift => if 0 ≤ right ∧ right < 64 then some (.ok (left / 2 ^ right.toNat)) else none
  | .less => some (.ok (truth (left < right)))
  | .greater => some (.ok (truth (left > right)))
  | .lessEqual => some (.ok (truth (left ≤ right)))
  | .greaterEqual => some (.ok (truth (left ≥ right)))
  | .equal => some (.ok (truth (left = right)))
  | .notEqual => some (.ok (truth (left ≠ right)))
  | .bitAnd => some (.ok (Int.land left right))
  | .bitXor => some (.ok (Int.xor left right))
  | .bitOr => some (.ok (Int.lor left right))
  | _ => none

/-- A unary operator on `long`, where the token is one -/
def arithUnary (type : TokenType) : Option (ℤ → Option ℤ) :=
  match type with
  | .plus => some some
  | .minus => some fun v => long (-v)
  | .bitNot => some fun v => some (-v - 1)
  | .logicalNot => some fun v => some (truth (v = 0))
  | _ => none

/-! ## The levels -/

section
variable (text : List Byte) (store : VariableStore)

/-- `get_token`: the token and the position behind it; `none` is a read outside the string. -/
def getToken (pos : ℕ) : Option (Token × ℕ) :=
  if text.length < pos then none
  else
    let rest := text.drop pos
    let (token, n) := tokenAt (rest.dropWhile isSpace)
    some (token, pos + (rest.takeWhile isSpace).length + n)

/-- A token is read. -/
def withToken (pos : ℕ) (f : Token → ℕ → Parsed) : Parsed :=
  match getToken text pos with
  | none => .undefined
  | some (token, pos) => f token pos

/-- `parse_primary`. The case of an assignment stands behind the one of a variable, and is never reached. -/
def parsePrimary (parseComma : ℕ → Parsed) (pos : ℕ) : Parsed :=
  withToken text pos fun token pos =>
    if token.type = .number then .value token.number pos
    else if token.type = .var then
      match store.getVariable token.name with
      | none => .undefined
      | some value =>
        match strtolAll value with
        | some num => .value num pos
        | none => .failed "Invalid variable value" pos
    else if token.type = .lparen then
      (parseComma pos).andThen fun v pos =>
        withToken text pos fun token pos =>
          if token.type = .rparen then .value v pos else .failed "Expected ')'" pos
    else .failed "Expected number, variable, or '('" pos

/-- `parse_unary` -/
def parseUnary (parseComma : ℕ → Parsed) : ℕ → ℕ → Parsed
  | 0, _ => .outOfFuel
  | fuel + 1, pos =>
    withToken text pos fun token next =>
      match arithUnary token.type with
      | some f => (parseUnary parseComma fuel next).andThen fun v pos =>
        match f v with
        | some v => .value v pos
        | none => .undefined
      | none => parsePrimary text store parseComma (rewind next)

/-- The loop of a level without a short circuit -/
def parseLoop (operand : ℕ → Parsed) (operators : List TokenType) : ℕ → ℤ → ℕ → Parsed
  | 0, _, _ => .outOfFuel
  | fuel + 1, left, pos =>
    withToken text pos fun token next =>
      if token.type ∈ operators then
        (operand next).andThen fun right pos =>
          match arithBinary token.type left right with
          | some (.ok v) => parseLoop operand operators fuel v pos
          | some (.error e) => .failed e pos
          | none => .undefined
      else .value left (rewind next)

/-- A level without a short circuit -/
def parseLevel (operand : ℕ → Parsed) (operators : List TokenType) (fuel pos : ℕ) : Parsed :=
  (operand pos).andThen fun left pos => parseLoop text operand operators fuel left pos

/-- The loop of a level with one: it ends where `decided`, without the operand behind the operator. -/
def parseLogicalLoop (operand : ℕ → Parsed) (operator : TokenType) (decided : ℤ → Bool) : ℕ → ℤ → ℕ → Parsed
  | 0, _, _ => .outOfFuel
  | fuel + 1, left, pos =>
    withToken text pos fun token next =>
      if token.type ≠ operator then .value left (rewind next)
      else if decided left then .value left next
      else (operand next).andThen fun right pos =>
        parseLogicalLoop operand operator decided fuel (truth (right ≠ 0)) pos

section
variable (parseComma : ℕ → Parsed) (fuel : ℕ)

/-- `parse_multiplicative` -/
def parseMultiplicative : ℕ → Parsed :=
  parseLevel text (parseUnary text store parseComma fuel) [.multiply, .divide, .modulo] fuel

/-- `parse_additive` -/
def parseAdditive : ℕ → Parsed := parseLevel text (parseMultiplicative text store parseComma fuel) [.plus, .minus] fuel

/-- `parse_shift` -/
def parseShift : ℕ → Parsed := parseLevel text (parseAdditive text store parseComma fuel) [.leftShift, .rightShift] fuel

/-- `parse_comparison` -/
def parseComparison : ℕ → Parsed :=
  parseLevel text (parseShift text store parseComma fuel) [.less, .greater, .lessEqual, .greaterEqual] fuel

/-- `parse_equality` -/
def parseEquality : ℕ → Parsed := parseLevel text (parseComparison text store parseComma fuel) [.equal, .notEqual] fuel

/-- `parse_bit_and` -/
def parseBitAnd : ℕ → Parsed := parseLevel text (parseEquality text store parseComma fuel) [.bitAnd] fuel

/-- `parse_bit_xor` -/
def parseBitXor : ℕ → Parsed := parseLevel text (parseBitAnd text store parseComma fuel) [.bitXor] fuel

/-- `parse_bit_or` -/
def parseBitOr : ℕ → Parsed := parseLevel text (parseBitXor text store parseComma fuel) [.bitOr] fuel

/-- `parse_logical_and` -/
def parseLogicalAnd (pos : ℕ) : Parsed :=
  (parseBitOr text store parseComma fuel pos).andThen fun left pos =>
    parseLogicalLoop text (parseBitOr text store parseComma fuel) .logicalAnd (fun left => decide (left = 0)) fuel left pos

/-- `parse_logical_or` -/
def parseLogicalOr (pos : ℕ) : Parsed :=
  (parseLogicalAnd text store parseComma fuel pos).andThen fun left pos =>
    parseLogicalLoop text (parseLogicalAnd text store parseComma fuel) .logicalOr (fun left => decide (left ≠ 0)) fuel left pos

/-- `parse_ternary`: both branches are evaluated. -/
def parseTernary (pos : ℕ) : Parsed :=
  (parseLogicalOr text store parseComma fuel pos).andThen fun cond pos =>
    withToken text pos fun token next =>
      if token.type ≠ .question then .value cond (rewind next)
      else (parseComma next).andThen fun trueExpr pos =>
        withToken text pos fun token pos =>
          if token.type ≠ .colon then .failed "Expected ':' in ternary expression" pos
          else (parseComma pos).andThen fun falseExpr pos => .value (if cond ≠ 0 then trueExpr else falseExpr) pos

end

/-- `parse_comma`: the value is that of the left operand. -/
def parseComma : ℕ → ℕ → Parsed
  | 0, _ => .outOfFuel
  | fuel + 1, pos =>
    (parseTernary text store (parseComma fuel) fuel pos).andThen fun left pos =>
      withToken text pos fun token next =>
        if token.type ≠ .comma then .value left (rewind next)
        else (parseComma fuel next).andThen fun _ pos => .value left pos

/-- `arithmetic_evaluate` of what `expand_string` has returned. Nothing is assigned. -/
def arithmeticEvaluate (fuel : ℕ) : Parsed × VariableStore :=
  let result :=
    match parseComma text store fuel 0 with
    | .value v pos => withToken text pos fun token next =>
      if token.type ≠ .eof then .failed "Unexpected tokens after expression" next else .value v next
    | .failed e pos => withToken text pos fun _ next => .failed e next
    | r => r
  (result, store)

end

end ValidcTools.Sh23.Arithmetic
