import ValidcTools.CString

/-! The variables of `batch` and its built-in commands. -/
namespace ValidcTools.Batch

def MAX_VARS : ℕ := 100
def MAX_VAR_NAME : ℕ := 32
def MAX_VAR_VALUE : ℕ := 256

/-- Two arrays of `char`, each with its terminating NUL. -/
structure Variable where
  name : List Byte
  value : List Byte
  name_lt : name.length < MAX_VAR_NAME
  value_lt : value.length < MAX_VAR_VALUE

/-- `strncpy` into the name of a variable whose value is empty -/
def Variable.named (name : List Byte) : Variable where
  name := name.take (MAX_VAR_NAME - 1)
  value := []
  name_lt := (List.length_take_le _ _).trans_lt (by decide)
  value_lt := by decide

/-- `strncpy` into the value -/
def Variable.copy (v : Variable) (piece : List Byte) : Variable where
  name := v.name
  value := piece.take (MAX_VAR_VALUE - 1)
  name_lt := v.name_lt
  value_lt := (List.length_take_le _ _).trans_lt (by decide)

/-- `vars` up to `var_count` -/
abbrev Vars := List Variable

def isValidVarChar (c : Byte) : Bool := isAlnum c || decide (c = '_') || decide (c = '-')

/-- `strip_trailing_ws` -/
def stripTrailingWs (s : List Byte) : List Byte := s.rdropWhile isSpace

/-- `var_find`: `none` for `var_count` -/
def varFind (vars : Vars) (name : List Byte) : Option ℕ := vars.findIdx? fun v => decide (v.name = name)

/-- `var_ensure` -/
def varEnsure (vars : Vars) (name : List Byte) : Vars × Option ℕ :=
  match varFind vars name with
  | some idx => (vars, some idx)
  | none =>
    if vars.length ≥ MAX_VARS then (vars, none) else (vars ++ [Variable.named name], some vars.length)

/-! ## Expansion -/

/-- What the loop over a name reads while it has room, and what is left. -/
def readName : ℕ → List Byte → List Byte × List Byte
  | 0, s => ([], s)
  | _ + 1, [] => ([], [])
  | n + 1, c :: s =>
    if c = '}' ∧ s.head? = some ('}' : Byte) then ([], c :: s)
    else (c :: (readName n s).1, (readName n s).2)

theorem length_readName_le (n : ℕ) (s : List Byte) : (readName n s).2.length ≤ s.length := by
  fun_induction readName n s with
  | case1 => exact le_rfl
  | case2 => exact le_rfl
  | case3 => exact le_rfl
  | case4 n c s _ ih => exact ih.trans (Nat.le_succ _)

/-- The loop of `expand_variables`, with `out` written; `undefinedError` is the flag of `-u` -/
def expandLoop (undefinedError : Bool) (vars : Vars) (outsz : ℕ) (s out : List Byte) : Option (List Byte) :=
  match s with
  | [] => some out
  | c :: rest =>
    if out.length ≥ outsz - 1 then some out
    else if c = '{' ∧ rest.head? = some ('{' : Byte) then
      let name := (readName (MAX_VAR_NAME - 1) rest.tail).1
      let after := (readName (MAX_VAR_NAME - 1) rest.tail).2
      if after.take 2 = [0x7D, 0x7D] then
        match (varFind vars name).bind (vars[·]?) with
        | some v =>
          if out.length + v.value.length ≥ outsz then none
          else expandLoop undefinedError vars outsz (after.drop 2) (out ++ v.value)
        | none => if undefinedError then none else expandLoop undefinedError vars outsz (after.drop 2) out
      else none
    else expandLoop undefinedError vars outsz rest (out ++ [c])
termination_by s.length
decreasing_by
  all_goals
    have hname := length_readName_le (MAX_VAR_NAME - 1) rest.tail
    simp only [List.length_drop, List.length_cons, List.length_tail] at hname ⊢
    omega

/-- `expand_variables`: `none` when it returns false -/
def expandVariables (undefinedError : Bool) (vars : Vars) (s : List Byte) (outsz : ℕ) : Option (List Byte) :=
  expandLoop undefinedError vars outsz s []

/-! ## Built-in commands -/

/-- The return value of a built-in command, and the variables after it. -/
structure Returned where
  status : ℤ
  vars : Vars

/-- The name at the front, as far as there is room for it -/
def readVarName (p : List Byte) : List Byte := (p.takeWhile isValidVarChar).take (MAX_VAR_NAME - 1)

/-- '=', ':=', '+=' and '+:=' -/
structure Operator where
  isAppend : Bool
  doExpand : Bool

def readOperator (p : List Byte) : Option (Operator × List Byte) :=
  match p with
  | 0x2B :: 0x3A :: 0x3D :: p => some (⟨true, true⟩, p)
  | 0x2B :: 0x3D :: p => some (⟨true, false⟩, p)
  | 0x3A :: 0x3D :: p => some (⟨false, true⟩, p)
  | 0x3D :: p => some (⟨false, false⟩, p)
  | _ => none

/-- What the loop over a quoted text reads. -/
structure Quoted where
  text : List Byte
  /-- `p[-1]` after the loop -/
  last : Byte
  rest : List Byte

/-- The loop over a quoted text with room for so many bytes, after the byte `last` -/
def readQuoted (room : ℕ) (p : List Byte) (last : Byte) : Quoted :=
  match room, p with
  | 0, p => ⟨[], last, p⟩
  | _ + 1, [] => ⟨[], last, []⟩
  | _ + 1, [0x5C] => ⟨[], 0x5C, []⟩
  | room + 1, 0x5C :: c :: p => let q := readQuoted room p c; { q with text := c :: q.text }
  | room + 1, c :: p =>
    if c = '"' then ⟨[], c, p⟩ else let q := readQuoted room p c; { q with text := c :: q.text }

/-- The value of a `var` line, where it starts: `none` for a missing closing quote -/
def readValue (p : List Byte) : Option (List Byte) :=
  match p with
  | 0x22 :: p =>
    let q := readQuoted (MAX_VAR_VALUE - 1) p '"'
    if q.last ≠ '"' ∧ q.text.length < MAX_VAR_VALUE - 1 then none else some q.text
  | p => some (stripTrailingWs (p.take (MAX_VAR_VALUE - 1)))

/-- `cmd_var` from the assignment on -/
def assign (vars : Vars) (name : List Byte) (isAppend : Bool) (piece : List Byte) : Returned :=
  let ensured := varEnsure vars name
  match ensured.2 with
  | none => ⟨-1, ensured.1⟩
  | some idx =>
    ⟨0, ensured.1.modify idx fun v => v.copy (if isAppend then v.value ++ piece else piece)⟩

/-- `cmd_var` -/
def cmdVar (undefinedError : Bool) (line : List Byte) (vars : Vars) : Returned :=
  let p := ((line.dropWhile isSpace).dropWhile (!isSpace ·)).dropWhile isSpace
  let name := readVarName p
  if name = [] then ⟨-1, vars⟩
  else
    match readOperator ((p.drop name.length).dropWhile isSpace) with
    | none => ⟨-1, vars⟩
    | some (op, p) =>
      match readValue (p.dropWhile isSpace) with
      | none => ⟨-1, vars⟩
      | some raw =>
        match if op.doExpand then expandVariables undefinedError vars raw MAX_VAR_VALUE else some raw with
        | none => ⟨-1, vars⟩
        | some piece => assign vars name op.isAppend piece

/-- `vars[idx] = vars[--var_count]` -/
def removeAt (vars : Vars) (idx : ℕ) : Vars :=
  match vars.getLast? with
  | none => []
  | some last => (vars.set idx last).dropLast

/-- `cmd_unset` -/
def cmdUnset (line : List Byte) (vars : Vars) : Returned :=
  let name := readVarName ((line.dropWhile (!isSpace ·)).dropWhile isSpace)
  if name = [] then ⟨-1, vars⟩
  else
    match varFind vars name with
    | none => ⟨0, vars⟩
    | some idx => ⟨0, removeAt vars idx⟩

/-- `cmd_clearvars` -/
def cmdClearvars : Returned := ⟨0, []⟩

inductive Builtin
  | var
  | unset
  | vars
  | clearvars
deriving DecidableEq

def builtins : List (List Byte × Builtin) :=
  [((CString.lit "var").bytes, .var), ((CString.lit "unset").bytes, .unset),
   ((CString.lit "vars").bytes, .vars), ((CString.lit "clearvars").bytes, .clearvars)]

/-- `cmd` starts with the word, which ends there. -/
def startsWord (word cmd : List Byte) : Bool :=
  word.isPrefixOf cmd && (cmd.drop word.length).head?.all isSpace

/-- `find_builtin` -/
def findBuiltin (cmd : List Byte) : Option Builtin :=
  (builtins.find? fun b => startsWord b.1 cmd).map Prod.snd

/-- The call of a built-in command with the whole line -/
def Builtin.run (undefinedError : Bool) (line : List Byte) (vars : Vars) : Builtin → Returned
  | .var => cmdVar undefinedError line vars
  | .unset => cmdUnset line vars
  | .vars => ⟨0, vars⟩
  | .clearvars => cmdClearvars

end ValidcTools.Batch
