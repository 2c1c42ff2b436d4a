import ValidcTools.Batch.Assignments
import ValidcTools.Batch.Script

/-! The commands of a script: its lines joined at trailing backslashes, in and out of blocks. -/
namespace ValidcTools.Batch

/-! ## Logical lines -/

/-- The lines of a text, each with its '\n' -/
def physicalLines (script : List Byte) : List (List Byte) := script.splitBy fun c _ => decide (c ≠ '\n')

/-- A line without its end, "\n" or "\r\n" -/
def content (line : List Byte) : List Byte :=
  if [0x0D, 0x0A] <:+ line then line.dropLast.dropLast
  else if [0x0A] <:+ line then line.dropLast
  else line

/-- A continued command with its next line: one blank between the two -/
def joined (pending : Option (List Byte)) (line : List Byte) : List Byte :=
  match pending with
  | none => line
  | some [] => line
  | some p => p ++ 0x20 :: line

/-- The complete lines, and the one that is to be continued. -/
structure Joined where
  lines : List (List Byte)
  pending : Option (List Byte)

/-- Blank lines and comments are dropped, but not after a continuation. -/
def Joined.add (j : Joined) (line : List Byte) : Joined :=
  if j.pending = none ∧ (line.head? = some (';' : Byte) ∨ line = []) then j
  else if line.getLast? = some ('\\' : Byte) then
    { j with pending := some (joined j.pending (stripTrailingWs line.dropLast)) }
  else ⟨j.lines ++ [joined j.pending line], none⟩

def joinLines (lines : List (List Byte)) : Joined := (lines.map content).foldl Joined.add ⟨[], none⟩

/-- The lines of a script, joined; a continuation that never comes to its end is none of them. -/
def logicalLines (script : List Byte) : List (List Byte) := (joinLines (physicalLines script)).lines

/-! ## Conditions -/

/-- What follows the closing quote. -/
def afterQuote : List Byte → List Byte
  | [] => []
  | [0x5C] => []
  | 0x5C :: _ :: p => afterQuote p
  | c :: p => if c = '"' then p else afterQuote p

/-- An argument of any length, and what follows it. -/
def readArgument (p : List Byte) : Option (List Byte × List Byte) :=
  match p.dropWhile isSpace with
  | [] => none
  | 0x22 :: p => if (unquote p).2 then some ((unquote p).1, afterQuote p) else none
  | p => some (p.takeWhile (!isSpace ·), p.dropWhile (!isSpace ·))

def twoArguments (p : List Byte) : Option (List Byte × List Byte) :=
  (readArgument p).bind fun a => (readArgument a.2).map fun b => (a.1, b.1)

/-- Whether the expanded arguments are equal, or unequal, as the condition has it. -/
def condition (undefinedError : Bool) (store : Store) (equal : Bool) (p : List Byte) : Option Bool :=
  (twoArguments p).bind fun a =>
    (expansion undefinedError store a.1).bind fun e1 =>
      (expansion undefinedError store a.2).map fun e2 => decide (e1 = e2) == equal

/-! ## Sessions -/

inductive Kind
  | blank
  | condition (equal : Bool) (arguments : List Byte)
  | endif
  | builtin (b : Builtin)
  | command
deriving DecidableEq

/-- What a line is, by its first word. -/
def kind (cmd : List Byte) : Kind :=
  if cmd = [] then .blank
  else if startsWord (CString.lit "ifeq").bytes cmd then .condition true (cmd.drop 4)
  else if startsWord (CString.lit "ifneq").bytes cmd then .condition false (cmd.drop 5)
  else if startsWord (CString.lit "endif").bytes cmd then .endif
  else
    match findBuiltin cmd with
    | some b => .builtin b
    | none => .command

/-- A script under execution: `block` is `none` outside of any block, and else whether the condition
of the block held. -/
structure Session where
  vars : Vars
  block : Option Bool
  commands : List (List Byte)
  stopped : Bool

def Session.start : Session := ⟨[], none, [], false⟩

/-- The command is passed on, unless this is a dry run. -/
def Session.call (flags : Flags) (system : System) (s : Session) (command : List Byte) : Session :=
  if flags.dryRun then s
  else
    { s with
      commands := s.commands ++ [command]
      stopped := decide (system (s.commands ++ [command]) ≠ 0) && !flags.ignoreErrors }

/-- A line in a block whose condition did not hold is passed over. A condition in a block, an `endif`
outside of one, and an error in an expansion end the script. -/
def Session.stepKind (flags : Flags) (system : System) (s : Session) (line : List Byte) (k : Kind) : Session :=
  match k, s.block with
  | .blank, _ => s
  | .condition equal p, none =>
    match condition flags.undefinedError (lookup s.vars) equal p with
    | some holds => { s with block := some holds }
    | none => { s with stopped := true }
  | .condition _ _, some _ => { s with stopped := true }
  | .endif, some _ => { s with block := none }
  | .endif, none => { s with stopped := true }
  | .builtin _, some false => s
  | .builtin b, _ => { s with vars := (b.run flags.undefinedError line s.vars).vars }
  | .command, some false => s
  | .command, _ =>
    match expansion flags.undefinedError (lookup s.vars) (line.dropWhile isSpace) with
    | some command => s.call flags system command
    | none => { s with stopped := true }

def Session.step (flags : Flags) (system : System) (s : Session) (line : List Byte) : Session :=
  if s.stopped then s else s.stepKind flags system line (kind (line.dropWhile isSpace))

def Session.run (flags : Flags) (system : System) (lines : List (List Byte)) : Session :=
  lines.foldl (Session.step flags system) .start

/-- The commands are those of the logical lines, and a further physical line adds at most one. -/
structure Executes (flags : Flags) (system : System) (script : List Byte) : Prop where
  commands : (main flags system script).commands = (Session.run flags system (logicalLines script)).commands
  once : ∀ before line, before ++ [line] <+: physicalLines script →
    (main flags system (before ++ [line]).flatten).commands.length ≤
      (main flags system before.flatten).commands.length + 1

/-! ## Limits -/

/-- A line is read whole by one `fgets`, or but for a '\n' that is then a blank line. -/
structure LineFits (line : List Byte) : Prop where
  text : ∀ c ∈ content line, c ≠ 0 ∧ c ≠ '\r'
  length : line.length ≤ MAX_LINE
  full : line.length = MAX_LINE → line.getLast? = some ('\n' : Byte) ∧ (content line).getLast? ≠ some ('\\' : Byte)

/-- There is room for the argument at the front. -/
structure ArgumentFits (p : List Byte) : Prop where
  quoted : (p.dropWhile isSpace).head? = some ('"' : Byte) →
    (unquote (p.dropWhile isSpace).tail).1.length < MAX_VAR_VALUE - 1 ∧ ¬EndsInQuote (p.dropWhile isSpace)
  plain : (p.dropWhile isSpace).head? ≠ some ('"' : Byte) →
    ((p.dropWhile isSpace).takeWhile (!isSpace ·)).length < MAX_VAR_VALUE

/-- There is room for the expansion, or as much of it as there is before an error. -/
structure ExpansionFits (undefinedError : Bool) (store : Store) (s : List Byte) (outsz : ℕ) : Prop where
  names : ShortNames s
  length : (expanded undefinedError store s).1.length < if (expanded undefinedError store s).2 then outsz else outsz - 1

structure ConditionFits (undefinedError : Bool) (store : Store) (p : List Byte) : Prop where
  first : ArgumentFits p
  second : ∀ a ∈ readArgument p, ArgumentFits a.2
  expansions : ∀ a ∈ twoArguments p, ExpansionFits undefinedError store a.1 MAX_VAR_VALUE ∧
    ExpansionFits undefinedError store a.2 MAX_VAR_VALUE

/-- There is room for what the session does with the line. -/
structure Fits (flags : Flags) (s : Session) (line : List Byte) : Prop where
  length : line.length ≤ MAX_COMMAND
  condition : ∀ equal p, kind (line.dropWhile isSpace) = .condition equal p → s.block = none →
    ConditionFits flags.undefinedError (lookup s.vars) p
  command : kind (line.dropWhile isSpace) = .command → s.block ≠ some false →
    ExpansionFits flags.undefinedError (lookup s.vars) (line.dropWhile isSpace) MAX_EXPANDED

/-- There is room for each line, physical or logical, that is reached. -/
structure Within (flags : Flags) (system : System) (lines : List (List Byte)) : Prop where
  physical : ∀ before line, before ++ [line] <+: lines →
    (Session.run flags system (joinLines before).lines).stopped = false → LineFits line
  logical : ∀ before line, before ++ [line] <+: (joinLines lines).lines →
    (Session.run flags system before).stopped = false → Fits flags (Session.run flags system before) line

end ValidcTools.Batch
