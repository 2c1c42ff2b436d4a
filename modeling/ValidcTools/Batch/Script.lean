import ValidcTools.Batch.Variables

/-! The main loop of `batch`. -/
namespace ValidcTools.Batch

def MAX_LINE : ℕ := 1024
def MAX_EXPANDED : ℕ := MAX_LINE * 8

/-- The room of `full_cmd` for characters -/
def MAX_COMMAND : ℕ := MAX_LINE * 4 - 1

/-- The options `-i`, `-n` and `-u` -/
structure Flags where
  ignoreErrors : Bool
  dryRun : Bool
  undefinedError : Bool

/-- `system()`: what the last of the commands returns that were passed to it so far. -/
abbrev System := List (List Byte) → ℤ

/-- `fgets` with room for so many bytes: what it reads, and what is left. -/
def fgets : ℕ → List Byte → List Byte × List Byte
  | 0, s => ([], s)
  | _ + 1, [] => ([], [])
  | n + 1, c :: s => if c = '\n' then ([c], s) else (c :: (fgets n s).1, (fgets n s).2)

/-- `line[strcspn(line, "\r\n")] = '\0'`, as a string -/
def cut (line : List Byte) : List Byte := line.takeWhile fun c => decide (c ≠ 0 ∧ c ≠ '\r' ∧ c ≠ '\n')

/-! ## Conditionals -/

/-- `parse_one_arg`, with what follows the argument -/
def parseOneArg (p : List Byte) (outsz : ℕ) : Option (List Byte × List Byte) :=
  match p.dropWhile isSpace with
  | [] => none
  | 0x22 :: p =>
    let q := readQuoted (outsz - 1) p '"'
    if q.last ≠ '"' ∧ q.text.length < outsz - 1 then none else some (q.text, q.rest)
  | p =>
    let out := (p.takeWhile (!isSpace ·)).take (outsz - 1)
    some (out, p.drop out.length)

/-- The variables of `main`, and the commands passed to `system()` so far. -/
structure Loop where
  vars : Vars
  fullCmd : List Byte
  continuing : Bool
  inIfBlock : Bool
  executeIfBlock : Bool
  commands : List (List Byte)

def Loop.start : Loop := ⟨[], [], false, false, false, []⟩

/-- The branches of `ifeq` and `ifneq`, after their word: an error is a `break`. -/
def conditional (flags : Flags) (equal : Bool) (p : List Byte) (l : Loop) : Except Loop Loop :=
  if l.inIfBlock then .error l
  else
    match parseOneArg p MAX_VAR_VALUE with
    | none => .error l
    | some (a1, p) =>
      match parseOneArg p MAX_VAR_VALUE with
      | none => .error l
      | some (a2, _) =>
        match expandVariables flags.undefinedError l.vars a1 MAX_VAR_VALUE with
        | none => .error l
        | some e1 =>
          match expandVariables flags.undefinedError l.vars a2 MAX_VAR_VALUE with
          | none => .error l
          | some e2 =>
            .ok { l with fullCmd := [], inIfBlock := true, executeIfBlock := decide (e1 = e2) == equal }

/-! ## The loop -/

/-- The loop body from the complete command on -/
def execute (flags : Flags) (system : System) (l : Loop) : Except Loop Loop :=
  let cmd := l.fullCmd.dropWhile isSpace
  if cmd = [] then .ok { l with fullCmd := [] }
  else if startsWord (CString.lit "ifeq").bytes cmd then conditional flags true (cmd.drop 4) l
  else if startsWord (CString.lit "ifneq").bytes cmd then conditional flags false (cmd.drop 5) l
  else if startsWord (CString.lit "endif").bytes cmd then
    if l.inIfBlock then .ok { l with fullCmd := [], inIfBlock := false, executeIfBlock := false } else .error l
  else if l.inIfBlock && !l.executeIfBlock then .ok { l with fullCmd := [] }
  else
    match findBuiltin cmd with
    | some b => .ok { l with fullCmd := [], vars := (b.run flags.undefinedError l.fullCmd l.vars).vars }
    | none =>
      match expandVariables flags.undefinedError l.vars cmd MAX_EXPANDED with
      | none => .error l
      | some expanded =>
        if flags.dryRun then .ok { l with fullCmd := [] }
        else
          let commands := l.commands ++ [expanded]
          if system commands ≠ 0 ∧ flags.ignoreErrors = false then .error { l with commands := commands }
          else .ok { l with fullCmd := [], commands := commands }

/-- The next line of a continued command in `full_cmd`, as far as there is room -/
def appendLine (fullCmd line : List Byte) : List Byte :=
  let cmd := if fullCmd ≠ [] ∧ fullCmd.length < MAX_COMMAND then fullCmd ++ [0x20] else fullCmd
  cmd ++ line.take (MAX_COMMAND - cmd.length)

/-- The loop body, after `fgets`: an error is a `break`. -/
def turn (flags : Flags) (system : System) (buf : List Byte) (l : Loop) : Except Loop Loop :=
  let line := cut buf
  if l.continuing = false ∧ (line.head? = some (';' : Byte) ∨ line = []) then .ok l
  else
    let cont := decide (line.getLast? = some ('\\' : Byte))
    let line := if cont then stripTrailingWs line.dropLast else line
    let fullCmd := if l.continuing then appendLine l.fullCmd line else line.take MAX_COMMAND
    let l := { l with fullCmd := fullCmd, continuing := cont }
    if cont then .ok l else execute flags system l

theorem length_fgets_lt (n : ℕ) (c : Byte) (s : List Byte) : (fgets (n + 1) (c :: s)).2.length < (c :: s).length := by
  induction n generalizing c s with
  | zero =>
    unfold fgets
    split_ifs
    · exact Nat.lt_succ_self _
    · exact Nat.lt_succ_self _
  | succ n ih =>
    unfold fgets
    split_ifs
    · exact Nat.lt_succ_self _
    · cases s with
      | nil => exact Nat.succ_pos _
      | cons d s => exact (ih d s).trans (Nat.lt_succ_self _)

/-- The loop over the input -/
def loop (flags : Flags) (system : System) (input : List Byte) (l : Loop) : Loop :=
  match input with
  | [] => l
  | c :: s =>
    match turn flags system (fgets (MAX_LINE - 1) (c :: s)).1 l with
    | .error l => l
    | .ok l => loop flags system (fgets (MAX_LINE - 1) (c :: s)).2 l
termination_by input.length
decreasing_by exact length_fgets_lt _ c s

/-- `main` for a script with this text -/
def main (flags : Flags) (system : System) (script : List Byte) : Loop := loop flags system script .start

end ValidcTools.Batch
