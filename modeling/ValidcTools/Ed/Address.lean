import ValidcTools.Bre.Matcher
import ValidcTools.Ed.State

/-! The two address parsers of `ed`. A pointer into a string is the rest of the string from there, and
the terminating NUL is the end of the list. -/
namespace ValidcTools.Ed

/-- `INT_MAX` -/
def intMax : ℤ := 2147483647

/-- The space and the tab. -/
def isBlank (b : Byte) : Bool := decide (b = ' ' ∨ b = '\t')

def skipBlanks (p : List Byte) : List Byte := p.dropWhile isBlank

/-- `ADDR_NONE`, `ADDR_ERROR`, or a line counted from 1. -/
inductive Address
  | none
  | error
  | line (n : ℤ)
deriving DecidableEq

/-- The loop over decimal digits: `Option.none` when the number exceeds `INT_MAX`. -/
def parseDigits : ℤ → List Byte → Option (ℤ × List Byte)
  | n, [] => some (n, [])
  | n, c :: p =>
    if isDigit c then
      let digit : ℤ := (c - '0').toNat
      if n > intMax / 10 ∨ (n = intMax / 10 ∧ digit > intMax % 10) then none
      else parseDigits (n * 10 + digit) p
    else some (n, c :: p)

/-- `c` as a letter `'a'..'z'`. -/
def markIndex (c : Byte) : Option (Fin 26) :=
  if h : (c - 'a').toNat < 26 ∧ 'a' ≤ c then some ⟨(c - 'a').toNat, h.1⟩ else none

def isSign (c : Byte) : Bool := decide (c = '+' ∨ c = '-')

/-- `parse_one_address` between the sign with its digits and the label `apply_offset`: `base`, and `p`
after it. -/
def parseBase (relative : Bool) (current lastLine : ℤ) (marks : Marks) : List Byte → Address × List Byte
  -- Only after a sign is the end of the string reached here.
  | [] => (.line current, [])
  | d :: ds =>
    if d = '$' then (.line lastLine, ds)
    else if d = '.' then (.line current, ds)
    else if d = '0' ∧ relative = false then
      -- `0` by itself; before a sign it is not read, and `base` keeps its value.
      match ds.dropWhile isDigit with
      | [] => (.line 0, ds)
      | t :: _ => if isSign t then (.line 0, d :: ds) else (.line 0, ds)
    else if isDigit d then
      match parseDigits 0 (d :: ds) with
      | none => (.error, d :: ds)
      | some (base, p) => (.line base, p)
    else
      match if d = '\'' then ds.head?.bind markIndex else none with
      | some i =>
        if marks i < 0 ∨ marks i ≥ lastLine then (.error, d :: ds) else (.line (marks i + 1), ds.tail)
      -- A regular expression is no address here either.
      | none => (.none, d :: ds)

/-- `parse_one_address` from the label `apply_offset` on; `p0` is where it began, and `p` where it is. -/
def applyOffset (p0 : List Byte) (relative : Bool) (sign offset lastLine base : ℤ) (p : List Byte) :
    Address × List Byte :=
  let base := if relative then base + sign * offset else base
  if base < 0 ∨ base > lastLine then (.error, p0) else (.line base, p)

/-- `parse_one_address`: the address, and where `*pp` points afterwards. -/
def parseOneAddress (p0 : List Byte) (current lastLine : ℤ) (marks : Marks) : Address × List Byte :=
  match p0 with
  | [] => (.none, p0)
  | c :: cs =>
    if c = ',' ∨ c = ';' ∨ c = '\n' ∨ isSpace c then (.none, p0)
    else
      match if isSign c then parseDigits 0 cs else some (0, p0) with
      | none => (.error, p0)
      | some (offset, p) =>
        match parseBase (isSign c) current lastLine marks p with
        | (.none, _) => (.none, p0)
        | (.error, _) => (.error, p0)
        | (.line base, p) =>
          applyOffset p0 (isSign c) (if c = '-' then -1 else 1) offset lastLine base p

/-- What `parse_ed_address` sets, and the rest of the line that it returns. -/
structure EdAddress where
  addr1 : ℤ := 0
  addr2 : ℤ := 0
  haveComma : Bool := false
  rest : List Byte
deriving DecidableEq

/-- The second half of `parse_ed_address`, from the blanks after the first address on. -/
def parseSecondAddress (addr1 : ℤ) (p : List Byte) (currentLine lastLine : ℤ) (marks : Marks) :
    Option EdAddress :=
  match skipBlanks p with
  | [] => some { addr1, addr2 := addr1, rest := [] }
  | c :: p =>
    if c = ',' then
      let addr1' := if addr1 = 0 then 1 else addr1
      match parseOneAddress (skipBlanks p) currentLine lastLine marks with
      | (.error, _) => none
      | (.none, p) =>
        some { addr1 := addr1', addr2 := lastLine, haveComma := true, rest := skipBlanks p }
      | (.line a2, p) =>
        some { addr1 := addr1', addr2 := a2, haveComma := true, rest := skipBlanks p }
    else some { addr1, addr2 := addr1, rest := c :: p }

/-- `parse_ed_address`: `none` is its `NULL`. -/
def parseEdAddress (line : List Byte) (currentLine lastLine : ℤ) (marks : Marks) : Option EdAddress :=
  let p := skipBlanks line
  if p = [] ∨ p.head? = some (('#' : Char) : Byte) then some { rest := p }
  else match parseOneAddress p currentLine lastLine marks with
    | (.error, _) => none
    | (.none, p) =>
      if p.head? = some ((',' : Char) : Byte) then parseSecondAddress 0 p currentLine lastLine marks
      else some { rest := p }
    | (.line a1, p) => parseSecondAddress a1 p currentLine lastLine marks

/-- `bre_match(text, pat, &m) == BRE_OK` -/
def breOk (text pat : CString) : Except Fault Bool :=
  match Bre.breMatch text pat with
  | .ok _ => .ok true
  | .noMatch => .ok false
  | .stop .error => .ok false
  | .stop _ => .error .matcher

namespace Editor

variable (ed : Editor)

/-- `current_1based` -/
def current1 : ℤ := if 0 ≤ ed.currentLine then ed.currentLine + 1 else 1

/-- The first of the lines with the given indices that matches, counted from 1, or 0. -/
def firstMatch (pat : CString) : List ℕ → Except Fault ℤ
  | [] => .ok 0
  | idx :: idxs =>
    match ed.lines[idx]? with
    | none => .error .lineIndex
    | some line =>
      match breOk line.text pat with
      | .error f => .error f
      | .ok true => .ok (idx + 1)
      | .ok false => firstMatch pat idxs

/-- `search_pattern` -/
def searchPattern (pattern : List Byte) (forward : Bool) : Except Fault ℤ :=
  if ed.lines = [] then .ok 0
  else if maxLine ≤ pattern.length then .ok 0
  else
    let start := if 0 ≤ ed.currentLine then ed.currentLine.toNat else 0
    let n := ed.lines.length
    ed.firstMatch (.ofBytes pattern)
      (if forward then List.range' (start + 1) (n - (start + 1)) ++ List.range (start + 1)
      else (List.range start).reverse ++ (List.range' start (n - start)).reverse)

/-- The part of `parse_address` after a regular expression: `p` follows the closing delimiter. -/
def parseRegexOffset (found : ℤ) (p : List Byte) : ℤ :=
  let found' :=
    match p with
    | [] => some found
    | _ =>
      match (parseOneAddress p found ed.numLines fun _ => -1).1 with
      | .error => none
      | .none => some found
      | .line n => some n
  match found' with
  | none => -1
  | some found => if found ≤ 0 ∨ found > ed.numLines then -1 else found - 1

/-- `parse_address`, `-1` on error. -/
def parseAddress (addr : List Byte) : Except Fault ℤ :=
  match skipBlanks addr with
  | [] => .ok ed.currentLine
  | delim :: p =>
    if delim = '/' ∨ delim = '?' then
      let pattern := p.takeWhile (· ≠ delim)
      -- The copy of the pattern stops at the size of its buffer, short of the delimiter.
      if maxLine ≤ pattern.length ∨ pattern.length = p.length then .ok (-1)
      else (ed.searchPattern pattern (delim = '/')).map fun found =>
        if found = 0 then -1 else ed.parseRegexOffset found (p.drop (pattern.length + 1))
    else
      match (parseOneAddress (delim :: p) ed.current1 ed.numLines ed.marks).1 with
      | .line n => if n = 0 ∨ n - 1 < 0 ∨ n - 1 ≥ ed.numLines then .ok (-1) else .ok (n - 1)
      | _ => .ok (-1)

/-- `parse_address_range` -/
def parseAddressRange (rangeStr : List Byte) : AddressRange :=
  match parseEdAddress rangeStr ed.current1 ed.numLines ed.marks with
  | none => ⟨-1, -1⟩
  | some a =>
    if a.addr1 = 0 ∧ a.addr2 = 0 then
      if 0 < ed.numLines ∧ 0 ≤ ed.currentLine then ⟨ed.currentLine, ed.currentLine⟩ else ⟨-1, -1⟩
    else
      let addr1 := if a.addr1 > 0 then a.addr1 - 1 else a.addr1
      let addr2 := if a.addr2 > 0 then a.addr2 - 1 else a.addr2
      if 0 ≤ addr1 ∧ addr1 < ed.numLines ∧ 0 ≤ addr2 ∧ addr2 < ed.numLines ∧ addr1 ≤ addr2 then
        ⟨addr1, addr2⟩
      else ⟨-1, -1⟩

end Editor

end ValidcTools.Ed
