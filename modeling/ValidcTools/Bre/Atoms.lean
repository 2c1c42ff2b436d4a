import ValidcTools.CString

/-! Pattern scanning in `bre.c`: ends of groups and classes, quantifiers, single-character atoms.
Pattern indices never leave `0 .. pend`, so they are natural numbers here; text positions are
integers, and a read outside the text and its NUL is `Stop.outOfBounds`. -/
namespace ValidcTools.Bre

/-- Why a match attempt ends without a verdict. `error` is `BRE_ERROR`; `misstep` is never
produced by the code's own matcher (see `Prog.run`). -/
inductive Stop
  | error
  | outOfBounds
  | outOfFuel
  | misstep
deriving DecidableEq

/-- `BRE_OK` with its out parameters, `BRE_NOMATCH`, or a stop. -/
inductive Res (α : Type)
  | ok (a : α)
  | noMatch
  | stop (s : Stop)
deriving DecidableEq

def Res.map {α β : Type} (f : α → β) : Res α → Res β
  | .ok a => .ok (f a)
  | .noMatch => .noMatch
  | .stop s => .stop s

@[simp] theorem Res.map_ok {α β : Type} (f : α → β) (a : α) : (Res.ok a).map f = .ok (f a) := rfl

@[simp] theorem Res.map_noMatch {α β : Type} (f : α → β) : Res.noMatch.map f = .noMatch := rfl

@[simp] theorem Res.map_stop {α β : Type} (f : α → β) (s : Stop) :
    (Res.stop s).map f = .stop s := rfl

structure BreRepetition where
  min : ℤ
  max : ℤ
  nextPi : ℕ
deriving DecidableEq

def breDupMax : ℤ := 255

/-- `atoi` on a string that starts with a digit: `strtol` saturates, the cast to `int` wraps. -/
def atoi (s : List Byte) : ℤ :=
  ((min (decimal (s.takeWhile isDigit)) (2 ^ 63 - 1) : ℕ) : ℤ).bmod (2 ^ 32)

def findGroupEnd (pat : CString) (pi pend : ℕ) : Option ℕ :=
  (List.range' (pi + 2) (pend - 1 - (pi + 2))).find? fun i => pat.get i = '\\' ∧ pat.get (i + 1) = ')'

def findClassEndSimple (pat : CString) (pi pend : ℕ) : Option ℕ :=
  let i := if pi + 1 < pend ∧ pat.get (pi + 1) = '^' then pi + 2 else pi + 1
  ((List.range' i (pend - i)).find? fun i => pat.get i = ']').map (· + 1)

/-- The loop of `in_char_class`; `prev` is `none` while `has_prev` is false. -/
def inCharClassLoop (c : Byte) (pat : CString) (pend : ℕ) :
    ℕ → ℕ → Bool → Option Byte → ℕ × Bool
  | 0, i, matched, _ => (i, matched)
  | n + 1, i, matched, prev =>
    if i < pend ∧ pat.get i ≠ ']' then
      if pat.get i = '-' ∧ prev.isSome ∧ i + 1 < pend ∧ pat.get (i + 1) ≠ ']' then
        inCharClassLoop c pat pend n (i + 2)
          (matched || decide (prev.getD 0 ≤ c ∧ c ≤ pat.get (i + 1))) none
      else inCharClassLoop c pat pend n (i + 1) (matched || decide (pat.get i = c)) (some (pat.get i))
    else (i, matched)

/-- `none` when there is no closing bracket: the C code then returns false. -/
def inCharClass (c : Byte) (pat : CString) (pi pend : ℕ) : Option (Bool × ℕ) :=
  let invert := decide (pi + 1 < pend ∧ pat.get (pi + 1) = '^')
  let r := inCharClassLoop c pat pend pend (if invert then pi + 2 else pi + 1) false none
  if r.1 ≥ pend ∨ pat.get r.1 ≠ ']' then none
  else some (if invert then !r.2 else r.2, r.1 + 1)

/-- `while (j < pend && isdigit(pat[j])) j++`, with at most `n` steps. -/
def digitsEnd (pat : CString) (pend : ℕ) : ℕ → ℕ → ℕ
  | 0, j => j
  | n + 1, j => if j < pend ∧ isDigit (pat.get j) then digitsEnd pat pend n (j + 1) else j

def closesBrace (pat : CString) (j pend : ℕ) : Bool :=
  decide (pat.get j = '\\' ∧ j + 1 < pend ∧ pat.get (j + 1) = '}')

/-- The part of `parse_bre_repetition` after `\{n,`. -/
def parseBreRepetitionMax (pat : CString) (min : ℤ) (j pend : ℕ) : Res BreRepetition :=
  if j ≥ pend then .stop .error
  else if closesBrace pat j pend then .ok ⟨min, -1, j + 2⟩
  else if ¬ isDigit (pat.get j) then .stop .error
  else
    let max := atoi (pat.bytes.drop j)
    let j := digitsEnd pat pend pend j
    if max > breDupMax ∨ min > max then .stop .error
    else if j ≥ pend ∨ ¬ closesBrace pat j pend then .stop .error
    else .ok ⟨min, max, j + 2⟩

def parseBreRepetition (pat : CString) (pi pend : ℕ) : Res BreRepetition :=
  if pi + 5 > pend then
    if pi < pend ∧ pat.get pi = '\\' ∧ pi + 1 < pend ∧ pat.get (pi + 1) = '{' then .stop .error
    else .noMatch
  else if pat.get pi ≠ '\\' ∨ pat.get (pi + 1) ≠ '{' then .noMatch
  else if pi + 2 ≥ pend ∨ ¬ isDigit (pat.get (pi + 2)) then .stop .error
  else
    let min := atoi (pat.bytes.drop (pi + 2))
    let j := digitsEnd pat pend pend (pi + 2)
    if min > breDupMax then .stop .error
    else if j ≥ pend then .stop .error
    else if closesBrace pat j pend then .ok ⟨min, min, j + 2⟩
    else if pat.get j ≠ ',' then .stop .error
    else parseBreRepetitionMax pat min (j + 1) pend

def parseQuantifier (pat : CString) (at_ pend : ℕ) : Res BreRepetition :=
  if at_ < pend ∧ pat.get at_ = '*' then .ok ⟨0, -1, at_ + 1⟩
  else if at_ + 1 < pend ∧ pat.get at_ = '\\' ∧ pat.get (at_ + 1) = '+' then .ok ⟨1, -1, at_ + 2⟩
  else parseBreRepetition pat at_ pend

/-- The characters `once_literal` never matches. -/
def isSpecial (ch : Byte) : Bool :=
  decide (ch = '\\' ∨ ch = '[' ∨ ch = '.' ∨ ch = '^' ∨ ch = '$' ∨ ch = '*')

/-- The characters that `\` does not make literal. -/
def isBracketEscape (esc : Byte) : Bool :=
  decide (esc = '(' ∨ esc = ')' ∨ esc = '{' ∨ esc = '}')

/-- `once_literal`, the only atom that tests `tpos < 0` before it reads the text. -/
def onceLiteral (text pat : CString) (atomStart : ℕ) (tpos : ℤ) : Res ℤ :=
  if tpos < 0 then .noMatch
  else match text.read? tpos with
    | none => .stop .outOfBounds
    | some b =>
      if b = 0 then .noMatch
      else if isSpecial (pat.get atomStart) then .noMatch
      else if b ≠ pat.get atomStart then .noMatch
      else .ok 1

def onceDot (text : CString) (tpos : ℤ) : Res ℤ :=
  match text.read? tpos with
  | none => .stop .outOfBounds
  | some b => if b = 0 then .noMatch else .ok 1

def onceEscape (text pat : CString) (pend atomStart : ℕ) (tpos : ℤ) : Res ℤ :=
  if atomStart + 1 ≥ pend then .noMatch
  else match text.read? tpos with
    | none => .stop .outOfBounds
    | some b =>
      if b = 0 then .noMatch
      else if isBracketEscape (pat.get (atomStart + 1)) then .noMatch
      else if b ≠ pat.get (atomStart + 1) then .noMatch
      else .ok 1

def onceClass (text pat : CString) (pend atomStart : ℕ) (tpos : ℤ) : Res ℤ :=
  match text.read? tpos with
  | none => .stop .outOfBounds
  | some b =>
    if b = 0 then .noMatch
    else if (inCharClass b pat atomStart pend).any (·.1) then .ok 1
    else .noMatch

end ValidcTools.Bre
