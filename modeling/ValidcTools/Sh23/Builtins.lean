import ValidcTools.Sh23.Executor

/-! Simple commands: how they reach the built-in commands `break` and `continue`. -/
namespace ValidcTools.Sh23

/-- `strtol(text, &endptr, 10)` where `*endptr` is the NUL -/
def strtolWhole (text : List Byte) : Option ℤ :=
  let signed := text.dropWhile isSpace
  let negative := signed.head? = some (0x2D : Byte)
  let digits := if negative ∨ signed.head? = some (0x2B : Byte) then signed.tail else signed
  if digits ≠ [] ∧ digits.all isDigit then
    some (if negative then max (-(decimal digits : ℤ)) (-2 ^ 63) else min (decimal digits) (2 ^ 63 - 1))
  else none

/-- The number of loops that `builtin_break` and `builtin_continue` take from their arguments: `none` when
they report an error -/
def loopCount (argv : List (List Byte)) (loopDepth : ℤ) : Option ℤ :=
  if loopDepth = 0 then none
  else
    match argv.tail with
    | [] => some 1
    | arg :: rest =>
      match strtolWhole arg with
      | none => none
      | some n =>
        -- the cast to `int` wraps
        let count := n.bmod (2 ^ 32)
        if n ≤ 0 ∨ count > loopDepth ∨ rest ≠ [] then none else some count

variable {ε σ : Type}

/-- An error of a built-in command: a shell that is not interactive ends there. -/
def builtinError (isInteractive : σ → Bool) : Exec σ ExecStatus := fun exec =>
  if isInteractive exec.world then some (.failure, { exec with lastStatus := 1 }) else none

/-- `builtin_break` -/
def builtinBreak (isInteractive : σ → Bool) (argv : List (List Byte)) : Exec σ ExecStatus := fun exec =>
  match loopCount argv exec.loopDepth with
  | none => builtinError isInteractive exec
  | some count => some (.breakLoop, { exec with breakCount := count, lastStatus := 0 })

/-- `builtin_continue` -/
def builtinContinue (isInteractive : σ → Bool) (argv : List (List Byte)) : Exec σ ExecStatus := fun exec =>
  match loopCount argv exec.loopDepth with
  | none => builtinError isInteractive exec
  | some count => some (.continueLoop, { exec with continueCount := count, lastStatus := 0 })

/-- What `exec_simple_command` leaves to the rest of the shell -/
structure SimpleShell (ε σ : Type) where
  isInteractive : σ → Bool
  /-- The assignments, the words as they are expanded and the redirections: no words when one fails, and `none` when one
  does not return -/
  prepare : SimpleCommand ε → σ → Option (Option (List (List Byte)) × σ)
  /-- The other built-in commands, the functions and the external commands -/
  other : List (List Byte) → Exec σ ExecStatus

/-- `exec_simple_command` -/
def execSimpleCommand (shell : SimpleShell ε σ) (c : SimpleCommand ε) : Exec σ ExecStatus := fun exec =>
  match shell.prepare c exec.world with
  | none => none
  | some (none, world) => some (.failure, { exec with lastStatus := 1, world := world })
  | some (some argv, world) =>
    match argv with
    | [] => some (.success, { exec with lastStatus := 0, world := world })
    | name :: _ =>
      if name = lit "break" then builtinBreak shell.isInteractive argv { exec with world := world }
      else if name = lit "continue" then builtinContinue shell.isInteractive argv { exec with world := world }
      else shell.other argv { exec with world := world }

/-- The number of loops is the argument, if there are so many. -/
theorem loopCount_arg {name arg : List Byte} {n loopDepth : ℤ} (harg : strtolWhole arg = some n) (hn : 0 < n)
    (hle : n ≤ loopDepth) (hdepth : loopDepth < 2 ^ 31) : loopCount [name, arg] loopDepth = some n := by
  have hwrap : n.bmod (2 ^ 32) = n := Int.bmod_eq_of_le (by omega) (by omega)
  unfold loopCount
  rw [if_neg (by omega)]
  simp only [List.tail_cons, harg, hwrap]
  exact if_neg (by simp; omega)

theorem loopCount_bare {name : List Byte} {loopDepth : ℤ} (h : loopDepth ≠ 0) : loopCount [name] loopDepth = some 1 := by
  unfold loopCount
  rw [if_neg h]
  rfl

end ValidcTools.Sh23
