import ValidcTools.Sh23.Builtins

/-! The built-in command `test`. -/
namespace ValidcTools.Sh23

inductive FileKind | block | character | directory | regular | link | fifo | other
deriving DecidableEq

/-- What is read of a `struct stat` -/
structure Stat where
  kind : FileKind
  setuid : Bool
  setgid : Bool
  size : ℤ

inductive Access | read | write | execute
deriving DecidableEq

/-- The calls of the operating system -/
structure Files where
  stat : List Byte → Option Stat
  lstat : List Byte → Option Stat
  access : List Byte → Access → Bool
  isatty : ℤ → Bool

/-- `stat` finds the file, and it is of the kind. -/
def Files.hasKind (files : Files) (kind : FileKind) (path : List Byte) : Bool :=
  (files.stat path).any fun st => decide (st.kind = kind)

/-- `strtol(text, &endptr, 10)` where `*endptr` is the NUL; without digits `endptr` is the text. -/
def strtolAll (text : List Byte) : Option ℤ := if text = [] then some 0 else strtolWhole text

/-- The comparisons of integers -/
def integerOperator (op : List Byte) : Option (ℤ → ℤ → Bool) :=
  if op = lit "-eq" then some fun num1 num2 => decide (num1 = num2)
  else if op = lit "-ne" then some fun num1 num2 => decide (num1 ≠ num2)
  else if op = lit "-lt" then some fun num1 num2 => decide (num1 < num2)
  else if op = lit "-le" then some fun num1 num2 => decide (num1 ≤ num2)
  else if op = lit "-gt" then some fun num1 num2 => decide (num1 > num2)
  else if op = lit "-ge" then some fun num1 num2 => decide (num1 ≥ num2)
  else none

/-- The binary operators: `none` for another word, `some none` when an operand is not numeric -/
def binaryTest (arg1 op arg2 : List Byte) : Option (Option Bool) :=
  if op = lit "=" then some (some (decide (arg1 = arg2)))
  else if op = lit "!=" then some (some (decide (arg1 ≠ arg2)))
  else (integerOperator op).map fun holds =>
    (strtolAll arg1).bind fun num1 => (strtolAll arg2).map fun num2 => holds num1 num2

/-- The unary operators, likewise -/
def unaryTest (files : Files) (op arg : List Byte) : Option (Option Bool) :=
  if op = lit "-n" then some (some (decide (arg ≠ [])))
  else if op = lit "-z" then some (some (decide (arg = [])))
  else if op = lit "-b" then some (some (files.hasKind .block arg))
  else if op = lit "-c" then some (some (files.hasKind .character arg))
  else if op = lit "-d" then some (some (files.hasKind .directory arg))
  else if op = lit "-e" then some (some (files.stat arg).isSome)
  else if op = lit "-f" then some (some (files.hasKind .regular arg))
  else if op = lit "-g" then some (some ((files.stat arg).any Stat.setgid))
  else if op = lit "-h" ∨ op = lit "-L" then some (some ((files.lstat arg).any fun st => decide (st.kind = .link)))
  else if op = lit "-p" then some (some (files.hasKind .fifo arg))
  else if op = lit "-r" then some (some (files.access arg .read))
  else if op = lit "-s" then some (some ((files.stat arg).any fun st => decide (st.size > 0)))
  else if op = lit "-t" then
    -- the cast to `int` wraps
    some ((strtolAll arg).bind fun fd => if fd < 0 then none else some (files.isatty (fd.bmod (2 ^ 32))))
  else if op = lit "-u" then some (some ((files.stat arg).any Stat.setuid))
  else if op = lit "-w" then some (some (files.access arg .write))
  else if op = lit "-x" then some (some (files.access arg .execute))
  else none

/-- What `evaluate_expr` returns, with `*pos` and the status it leaves -/
structure Evaluation where
  result : Bool
  pos : ℕ
  status : ℤ
deriving DecidableEq

section
variable (files : Files) (name : List Byte) (args : List (List Byte))

/-- `args[pos - 1]`: in front of the arguments there is the name of the command. -/
def wordBefore (pos : ℕ) : List Byte := if pos = 0 then name else args.getD (pos - 1) []

/-- Primary expression: its result and where it ends, `none` when an argument is not numeric -/
def primaryExpr (pos : ℕ) : Option (Bool × ℕ) :=
  match args.drop pos with
  | [] => none
  | [word] => some (decide (word ≠ []), pos + 1)
  | word :: next :: more =>
    if next ≠ lit "-o" ∧ next ≠ lit "-a" then
      match more.head?.bind fun arg2 => binaryTest word next arg2 with
      | some result => result.map fun value => (value, pos + 3)
      | none =>
        match unaryTest files word next with
        | some result => result.map fun value => (value, pos + 2)
        -- single argument case: the position goes back and forth
        | none => some (decide (wordBefore name args pos ≠ []), pos)
    else some (decide (word ≠ []), pos + 1)

variable (evaluate : ℕ → ℤ → Option Evaluation)

/-- The loop over `-a` and `-o` -/
def connectives : ℕ → Bool → ℕ → ℤ → Option Evaluation
  | 0, _, _, _ => none
  | fuel + 1, left, pos, status =>
    match args.drop pos with
    | [] => some ⟨left, pos, status⟩
    | word :: rest =>
      if word = lit "-o" then
        if rest = [] then some ⟨false, pos + 1, 2⟩
        else (evaluate (pos + 1) status).map fun right => { right with result := left || right.result }
      else if word = lit "-a" then
        if rest = [] then some ⟨false, pos + 1, 2⟩
        else (evaluate (pos + 1) status).bind fun right =>
          if left then connectives fuel right.result right.pos right.status else some { right with result := false }
      else some ⟨left, pos, status⟩

/-- The body of `evaluate_expr` -/
def evaluateBody (pos : ℕ) (status : ℤ) : Option Evaluation :=
  match args.drop pos with
  | [] => some ⟨false, pos, status⟩
  | word :: rest =>
    if word = lit "!" then
      if rest = [] then some ⟨false, pos + 1, 2⟩
      else (evaluate (pos + 1) status).map fun r => { r with result := !r.result }
    else if word = lit "(" then
      if rest = [] then some ⟨false, pos + 1, 2⟩
      else (evaluate (pos + 1) status).map fun r =>
        if (args.drop r.pos).head? = some (lit ")") then { r with pos := r.pos + 1 } else ⟨false, r.pos, 2⟩
    else
      match primaryExpr files name args pos with
      | none => some ⟨false, pos, 2⟩
      | some left => connectives args evaluate (args.length + 1) left.1 left.2 status

/-- `evaluate_expr`, with a bound on the depth of its calls -/
def evaluateExpr : ℕ → ℕ → ℤ → Option Evaluation
  | 0 => fun _ _ => none
  | fuel + 1 => evaluateBody files name args (evaluateExpr fuel)

end

variable {σ : Type}

/-- The end of `builtin_test`, which overwrites the status that `evaluate_expr` has set -/
def Evaluation.report (exec : Executor σ) (argCount : ℕ) (r : Evaluation) : ExecStatus × Executor σ :=
  if r.pos ≠ argCount ∧ r.result = false then (.failure, { exec with lastStatus := 2 })
  else (.success, { exec with lastStatus := if r.result then 0 else 1 })

/-- `builtin_test` -/
def builtinTest (files : Files) (argv : List (List Byte)) : Exec σ ExecStatus := fun exec =>
  let name := argv.headD []
  let isBracket := name = lit "["
  if isBracket ∧ argv.tail.getLast? ≠ some (lit "]") then some (.failure, { exec with lastStatus := 2 })
  else
    let args := if isBracket then argv.tail.dropLast else argv.tail
    (evaluateExpr files name args (args.length + 1) 0 exec.lastStatus).map (Evaluation.report exec args.length)

end ValidcTools.Sh23
