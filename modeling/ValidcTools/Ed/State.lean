import ValidcTools.CString

/-! The state of `ed`: the editor, the files and the input it works on, and what it has done so far. -/
namespace ValidcTools.Ed

def maxLine : ℕ := 1024

/-- The texts `set_error` is called with. -/
inductive Message
  | invalidAddress | invalidDestination | invalidGlobal | invalidSubstitute | invalidFlag
  | noMatch | noCurrentFilename | noFilenameSpecified | noDestinationAddress | writeFailed
  | cannotOpenFile | cannotOpenFileForAppend | bufferModified | nothingToUndo | unknownCommand
deriving DecidableEq

def Message.text : Message → String
  | invalidAddress => "Invalid address"
  | invalidDestination => "Invalid destination"
  | invalidGlobal => "Invalid global"
  | invalidSubstitute => "Invalid substitute"
  | invalidFlag => "Invalid flag"
  | noMatch => "No match"
  | noCurrentFilename => "No current filename"
  | noFilenameSpecified => "No filename specified"
  | noDestinationAddress => "No destination address"
  | writeFailed => "Write failed"
  | cannotOpenFile => "Cannot open file"
  | cannotOpenFileForAppend => "Cannot open file for append"
  | bufferModified => "Buffer modified"
  | nothingToUndo => "Nothing to undo"
  | unknownCommand => "Unknown command"

/-- A line of the buffer. The code keeps only the text. `id` says which line it is, through every
edit that moves the line, changes its text or brings it back; nothing is decided by it. -/
structure Line where
  text : CString
  id : ℕ
deriving DecidableEq

/-- `end` is `stop` here. -/
structure AddressRange where
  start : ℤ
  stop : ℤ
deriving DecidableEq

/-- The check that every command on a range makes. -/
def AddressRange.outside (range : AddressRange) (numLines : ℤ) : Bool :=
  decide (range.start < 0 ∨ range.stop < 0 ∨ numLines ≤ range.start ∨ numLines ≤ range.stop)

def AddressRange.count (range : AddressRange) : ℤ := range.stop - range.start + 1

abbrev Marks := Fin 26 → ℤ

/-- A new `Editor` is what `init_editor` makes of one. `undo_num_lines` is the length of `undoLines`,
and `num_lines` that of `lines`. -/
structure Editor where
  lines : List Line := []
  currentLine : ℤ := -1
  dirty : Bool := false
  filename : Option CString := none
  verbose : Bool := false
  lastError : Option Message := none
  marks : Marks := fun _ => -1
  prompt : Bool := false
  undoLines : List Line := []
  undoCurrentLine : ℤ := 0
  undoValid : Bool := false
deriving DecidableEq

namespace Editor

def numLines (ed : Editor) : ℤ := ed.lines.length

def ids (ed : Editor) : List ℕ := ed.lines.map Line.id

def texts (ed : Editor) : List CString := ed.lines.map Line.text

/-- `prepare_undo` -/
def prepareUndo (ed : Editor) : Editor :=
  { ed with undoLines := ed.lines, undoCurrentLine := ed.currentLine, undoValid := true }

end Editor

/-- `update_marks_after_delete` -/
def updateMarksAfterDelete (marks : Marks) (startLine numDeleted : ℤ) : Marks := fun i =>
  if marks i < 0 then marks i
  else if startLine ≤ marks i ∧ marks i < startLine + numDeleted then -1
  else if startLine + numDeleted ≤ marks i then marks i - numDeleted
  else marks i

/-- `update_marks_after_insert` -/
def updateMarksAfterInsert (marks : Marks) (insertLine numInserted : ℤ) : Marks := fun i =>
  if marks i < 0 then marks i
  else if insertLine ≤ marks i then marks i + numInserted
  else marks i

/-- Undefined behaviour, by its cause. -/
inductive Fault
  /-- An index outside `lines`. -/
  | lineIndex
  /-- A file name that has been freed. -/
  | freedName
  /-- `bre_match` or `bre_substitute` left the text of a line. -/
  | matcher
deriving DecidableEq

/-- What `execute_command` does with a command line once it is parsed: the function it calls with its
arguments, or the work it does in place. -/
inductive Call
  | nothing
  | setError (m : Message)
  | setCurrent (addr : ℤ)
  | global (isG : Bool) (range : AddressRange) (pat inner : CString)
  | substituteRange (range : AddressRange) (pattern replacement : CString) (global : Bool)
  | mark (letter : Fin 26) (addr : ℤ)
  | printNumber (n : ℤ)
  | file (filename : Option CString)
  | writeFile (filename : Option CString)
  | writeAppendFile (range : AddressRange) (filename : CString)
  -- `none` passes the pointer `ed->filename` itself.
  | editFile (filename : Option CString)
  | forcedEditFile (filename : Option CString)
  | readFileAtAddress (addr : ℤ) (filename : CString)
  | moveRange (range : AddressRange) (dest : ℤ)
  | copyRange (range : AddressRange) (dest : ℤ)
  | printRange (range : AddressRange)
  | deleteRange (range : AddressRange)
  | printNumberedRange (range : AddressRange)
  | printListRange (range : AddressRange)
  | changeRange (range : AddressRange)
  | joinRange (range : AddressRange)
  | appendLine (addr : ℤ)
  | insertLine (addr : ℤ)
  | undo
  | quit
  | forcedQuit
  | toggleVerbose
  | togglePrompt
  | help
  -- A search for an address ended so.
  | undefined (f : Fault)
deriving DecidableEq

/-- `input_fp`: the bytes it has left, and whether it is the temporary file of a command list. -/
structure Input where
  bytes : List Byte
  temporary : Bool := false
deriving DecidableEq

structure Files where
  /-- What `fopen(name, "r")` reads. -/
  content : CString → Option (List Byte)
  /-- Whether `fopen(name, "w")` and `fopen(name, "a")` succeed. -/
  writable : CString → Bool

def Files.write (files : Files) (name : CString) (bytes : List Byte) : Files :=
  { files with content := Function.update files.content name (some bytes) }

structure State where
  ed : Editor := {}
  input : Input
  files : Files
  /-- The first `id` no line has had. -/
  fresh : ℕ := 0

/-- What a run leaves behind, beside its state. -/
inductive Event
  /-- `fgets` in the loop of `main` -/
  | command (raw : List Byte)
  /-- `fgets` in the command list of a `g` -/
  | listLine (raw : List Byte) (temporary : Bool)
  /-- `read_full_line` from `input_fp` -/
  | text (raw : List Byte) (temporary : Bool)
  | call (c : Call) (before : State)
  | print (bytes : List Byte)
  | error (m : Message) (verbose : Bool)
  /-- `write_file` has written these lines. -/
  | saved (lines : List CString)
  /-- `load_file` has read these lines. -/
  | loaded (lines : List CString)

structure World extends State where
  log : List Event := []

namespace World

def record (w : World) (e : Event) : World := { w with log := w.log ++ [e] }

def print (w : World) (bytes : List Byte) : World := w.record (.print bytes)

/-- `set_error` -/
def setError (w : World) (m : Message) : World :=
  { w with ed := { w.ed with lastError := some m } }.record (.error m w.ed.verbose)

def setCurrent (w : World) (addr : ℤ) : World := { w with ed := { w.ed with currentLine := addr } }

def prepareUndo (w : World) : World := { w with ed := w.ed.prepareUndo }

end World

inductive Outcome
  | running (w : World)
  | exited (status : ℕ) (w : World)
  /-- `critical_error`, which offers to save the buffer and leaves with `exit(1)`. -/
  | critical (w : World)
  | fault (f : Fault)
  | outOfFuel

namespace Outcome

def bind (o : Outcome) (f : World → Outcome) : Outcome :=
  match o with
  | running w => f w
  | exited n w => exited n w
  | critical w => critical w
  | fault e => fault e
  | outOfFuel => outOfFuel

@[simp] theorem bind_running (w : World) (f : World → Outcome) : (running w).bind f = f w := rfl

@[simp] theorem bind_exited (n : ℕ) (w : World) (f : World → Outcome) :
    (exited n w).bind f = exited n w := rfl

theorem bind_of_cut {o : Outcome} {f : World → Outcome} (h : ¬ ∃ w, o = running w) : o.bind f = o := by
  cases o with
  | running w => exact absurd ⟨w, rfl⟩ h
  | _ => rfl

theorem bind_eq_running {o : Outcome} {f : World → Outcome} {w' : World}
    (h : o.bind f = running w') : ∃ w, o = running w ∧ f w = running w' := by
  cases o with
  | running w => exact ⟨w, rfl, h⟩
  | exited n w => cases h
  | critical w => cases h
  | fault e => cases h
  | outOfFuel => cases h

/-- `f` for each of `xs` in turn. -/
def runAll {ι : Type} (f : ι → World → Outcome) : List ι → World → Outcome
  | [], w => running w
  | x :: xs, w => (f x w).bind (runAll f xs)

/-- An access to the array of lines. -/
def withLines (r : Option (List Line)) (f : List Line → Outcome) : Outcome :=
  match r with
  | none => fault .lineIndex
  | some lines => f lines

@[simp] theorem withLines_some (lines : List Line) (f : List Line → Outcome) :
    withLines (some lines) f = f lines := rfl

@[simp] theorem withLines_none (f : List Line → Outcome) :
    withLines none f = fault .lineIndex := rfl

end Outcome

end ValidcTools.Ed
