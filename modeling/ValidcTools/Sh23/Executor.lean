import ValidcTools.Sh23.Ast

/-! The executor of the shell: and-or lists, lists, conditionals and loops. -/
namespace ValidcTools.Sh23

inductive ExecStatus
  | success | failure | breakLoop | continueLoop | returned | notBuiltin
deriving DecidableEq

/-- The fields that the control structures use; `world` is everything else. -/
structure Executor (σ : Type) where
  lastStatus : ℤ
  breakCount : ℤ
  continueCount : ℤ
  loopDepth : ℤ
  world : σ

/-- `none` when the function does not return. -/
abbrev Exec (σ α : Type) := StateT (Executor σ) Option α

/-- What is left to the rest of the shell -/
structure Shell (ε σ : Type) where
  /-- `exec_simple_command`, `exec_pipeline`, `exec_subshell` and `exec_function_definition` -/
  command : Ast ε → Exec σ ExecStatus
  /-- `variable_store_set_variable` -/
  setVariable : List Byte → List Byte → σ → σ
  positionalParams : σ → List (List Byte)

variable {ε σ : Type}

/-- `match_pattern`: what follows a star is tried at every byte that is left of the word. -/
def matchPattern (word : List Byte) : List Byte → Bool
  | [] => word.isEmpty
  | c :: pattern =>
    match word with
    | [] => decide (c = '*') && pattern.isEmpty
    | w :: word =>
      if c = '*' then pattern.isEmpty || (w :: word).tails.any fun rest => !rest.isEmpty && matchPattern rest pattern
      else (decide (c = '?') || decide (w = c)) && matchPattern word pattern

section
variable (run : Ast ε → Exec σ ExecStatus)

/-- `exec_and_or` -/
def execAndOr (left : Ast ε) (operation : TokenType) (right : Ast ε) : Exec σ ExecStatus := do
  let status ← run left
  if status ≠ .success then return status
  else
    let exec ← get
    if (operation = .andIf ∧ exec.lastStatus = 0) ∨ (operation = .orIf ∧ exec.lastStatus ≠ 0) then run right
    else return .success

/-- `exec_list` -/
def execList (andOr : Ast ε) (separator : TokenType) (next : Option (Ast ε)) : Exec σ ExecStatus := do
  let ret ← run andOr
  if ret ≠ .success then return ret
  else
    match next with
    | none => return .success
    | some next => if separator ≠ .amp then run next else return .success

/-- `exec_if_clause` -/
def execIfClause (condition thenBody : Ast ε) (elsePart : Option (Ast ε)) : Exec σ ExecStatus := do
  let status ← run condition
  if status ≠ .success then return status
  else if (← get).lastStatus = 0 then run thenBody
  else
    match elsePart with
    | none => return .success
    | some elsePart => run elsePart

variable (shell : Shell ε σ)

/-- The loop of `exec_for_clause`: `none` when the code leaves it for what follows, else the status that
it returns. -/
def forLoop (name : List Byte) (body : Ast ε) : List (List Byte) → Exec σ (Option ExecStatus)
  | [] => return none
  | word :: words => do
    let exec ← get
    if exec.breakCount > 0 then
      set { exec with breakCount := exec.breakCount - 1 }
      return none
    else if exec.continueCount > 0 then
      set { exec with continueCount := exec.continueCount - 1 }
      forLoop name body words
    else
      set { exec with world := shell.setVariable name word exec.world }
      match ← run body with
      | .breakLoop =>
        modify fun exec => { exec with breakCount := exec.breakCount - 1 }
        return none
      | .continueLoop =>
        modify fun exec => { exec with continueCount := exec.continueCount - 1 }
        forLoop name body words
      | .success => forLoop name body words
      | status => return some status

/-- The loop of `exec_while_clause`, or of `exec_until_clause`, for so many turns at most -/
def whileLoop (isUntil : Bool) (condition body : Ast ε) : ℕ → Exec σ (Option ExecStatus)
  | 0 => fun _ => none
  | n + 1 => do
    let exec ← get
    if exec.breakCount > 0 then
      set { exec with breakCount := exec.breakCount - 1 }
      return none
    else if exec.continueCount > 0 then
      set { exec with continueCount := exec.continueCount - 1 }
      whileLoop isUntil condition body n
    else
      let status ← run condition
      if status ≠ .success then return some status
      else if decide ((← get).lastStatus = 0) = isUntil then return none
      else
        match ← run body with
        | .breakLoop =>
          modify fun exec => { exec with breakCount := exec.breakCount - 1 }
          return none
        | .continueLoop =>
          modify fun exec => { exec with continueCount := exec.continueCount - 1 }
          whileLoop isUntil condition body n
        | .success => whileLoop isUntil condition body n
        | status => return some status

/-- A loop between `loop_depth++` and `loop_depth--` -/
def inLoop (loop : Exec σ (Option ExecStatus)) : Exec σ ExecStatus := do
  modify fun exec => { exec with loopDepth := exec.loopDepth + 1 }
  let status ← loop
  modify fun exec => { exec with loopDepth := exec.loopDepth - 1 }
  return status.getD .success

/-- `exec_for_clause` -/
def execForClause (name : List Byte) (wordlist : List (List Byte)) (body : Ast ε) : Exec σ ExecStatus :=
  inLoop do
    let exec ← get
    let words := if wordlist = [] then shell.positionalParams exec.world else wordlist
    forLoop run shell name body words

/-- `exec_case_clause` -/
def execCaseClause (word : List Byte) : List (List (List Byte) × Option (Ast ε) × Bool) → Exec σ ExecStatus
  | [] => return .success
  | (patterns, action, hasDsemi) :: items => do
    if patterns.any (matchPattern word) then
      match action with
      | none =>
        modify fun exec => { exec with lastStatus := 0 }
        return .success
      | some action => run action
    else if hasDsemi then return .success
    else execCaseClause word items

end

/-- `executor_run`, with so many nested calls and turns of a loop -/
def executorRun (shell : Shell ε σ) : ℕ → Ast ε → Exec σ ExecStatus
  | 0, _ => fun _ => none
  | n + 1, ast =>
    let run := executorRun shell n
    match ast with
    | .andOr left operation right => execAndOr run left operation right
    | .list andOr separator next => execList run andOr separator next
    | .completeCommand list => run list
    | .program commands => run commands
    | .ifClause condition thenBody elsePart => execIfClause run condition thenBody elsePart
    | .forClause name wordlist body => execForClause run shell name wordlist body
    | .whileClause condition body => inLoop (whileLoop run false condition body n)
    | .untilClause condition body => inLoop (whileLoop run true condition body n)
    | .caseClause word items => execCaseClause run word items
    | .braceGroup body => run body
    | .redirected command _ => run command
    | ast => shell.command ast

end ValidcTools.Sh23
