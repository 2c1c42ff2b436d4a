import ValidcTools.Ed.Lines

/-! `ed` from its files up to the loop of `main`: `execute_command` is split into what it decides
(`decode`, a pure function) and what it then does (`perform`). -/
namespace ValidcTools.Ed
open Outcome

def asciiBytes (s : String) : List Byte := s.toList.map Char.toUInt8

/-- `"%s\n"` for each line. -/
def fileBytes (lines : List CString) : List Byte := lines.flatMap fun l => l.bytes ++ newline

namespace World

/-! ## Files -/

/-- `write_file` -/
def writeFile (filename : Option CString) (w : World) : Outcome :=
  let given := filename.filter fun f => decide (f.bytes ≠ [])
  match (given.or w.ed.filename).filter fun f => decide (f.bytes ≠ []) with
  | none => running (w.setError .noCurrentFilename)
  | some target =>
    if w.files.writable target = false then running (w.setError .writeFailed)
    else
      let bytes := fileBytes w.ed.texts
      let w := { w with files := w.files.write target bytes }
      let w := (w.print (decimalBytes bytes.length ++ newline)).record (.saved w.ed.texts)
      running { w with ed := { w.ed with dirty := false, filename := given.or w.ed.filename } }

/-- `write_append_file` -/
def writeAppendFile (range : AddressRange) (filename : CString) (w : World) : Outcome :=
  if filename.bytes = [] then running (w.setError .noFilenameSpecified)
  else if range.outside w.ed.numLines then running (w.setError .invalidAddress)
  else if w.files.writable filename = false then running (w.setError .cannotOpenFileForAppend)
  else
    let bytes := fileBytes ((w.linesOf range).map Line.text)
    let old := (w.files.content filename).getD []
    running ({ w with files := w.files.write filename (old ++ bytes) }.print
      (decimalBytes bytes.length ++ newline))

/-- `load_file` -/
def loadFile (filename : CString) (w : World) : Outcome :=
  match w.files.content filename with
  | none => running (w.setError .cannotOpenFile)
  | some bytes =>
    let read := fileLines bytes
    let lines := w.ed.lines ++ newLines w.fresh (read.map Prod.fst)
    let w := { w with
      ed := { w.ed with lines, currentLine := lines.length - 1, filename := some filename }
      fresh := w.fresh + read.length }
    running ((w.print (decimalBytes (byteCount read) ++ newline)).record (.loaded w.ed.texts))

/-- `forced_edit_file`: `prepare_undo`, `free_editor` and `init_editor` leave a new editor. -/
def forcedEditFile (filename : Option CString) (w : World) : Outcome :=
  match filename with
  | none => fault .freedName
  | some filename => { w with ed := {} }.loadFile filename

/-- `edit_file` -/
def editFile (filename : Option CString) (w : World) : Outcome :=
  if w.ed.dirty then running (w.setError .bufferModified) else w.forcedEditFile filename

/-- `read_file_at_address` -/
def readFileAtAddress (addr : ℤ) (filename : CString) (w : World) : Outcome :=
  let w := w.prepareUndo
  match w.files.content filename with
  | none => running (w.setError .cannotOpenFile)
  | some bytes =>
    let read := fileLines bytes
    withLines (Cells.insertAll? w.ed.lines (addr + 1) (newLines w.fresh (read.map Prod.fst))) fun lines =>
      let w := { w with ed := { w.ed with lines }, fresh := w.fresh + read.length }
      let w :=
        if 0 < byteCount read then
          { w with ed := { w.ed with
            currentLine := addr + read.length
            dirty := true
            marks := updateMarksAfterInsert w.ed.marks (addr + 1) read.length } }
        else w
      running (w.print (decimalBytes (byteCount read) ++ newline))

end World

/-! ## Decoding a command line -/

/-- `cmd_buf` -/
def commandBuffer (cmd : CString) : List Byte := (cmd.bytes.take (maxLine - 1)).takeWhile (· ≠ '\n')

/-- What `f`, `w`, `W`, `e`, `E`, `r`, `m` and `t` take for their operand: `none` when the line has no
space at all. -/
def operand (cmdBuf : List Byte) : Option (List Byte) :=
  match cmdBuf.dropWhile fun b : Byte => b ≠ ' ' with
  | [] => none
  | _ :: p => some (p.dropWhile fun b : Byte => b = ' ')

/-- The operand as a file name, if there is one. -/
def operandName (cmdBuf : List Byte) : Option CString :=
  ((operand cmdBuf).filter fun p => decide (p ≠ [])).map .ofBytes

/-- What is up to the next `/`, and what follows it. -/
def field (p : List Byte) : Option (List Byte × List Byte) :=
  match p.dropWhile fun b : Byte => b ≠ '/' with
  | [] => none
  | _ :: rest => some (p.takeWhile fun b : Byte => b ≠ '/', rest)

namespace Editor

variable (ed : Editor)

/-- The range of a command that works on the current line when no address is given. -/
def rangeOrCurrent (a : EdAddress) : Option AddressRange :=
  if a.addr1 = 0 ∧ a.addr2 = 0 then
    if 0 < ed.numLines ∧ 0 ≤ ed.currentLine then some ⟨ed.currentLine, ed.currentLine⟩ else none
  else
    some ⟨if a.addr1 > 0 then a.addr1 - 1 else 0, if a.addr2 > 0 then a.addr2 - 1 else a.addr1 - 1⟩

/-- The range of `W`. -/
def rangeOrAll (a : EdAddress) : AddressRange :=
  if a.addr1 = 0 ∧ a.addr2 = 0 then ⟨0, ed.numLines - 1⟩
  else ⟨if a.addr1 > 0 then a.addr1 - 1 else 0, if a.addr2 > 0 then a.addr2 - 1 else a.addr1 - 1⟩

/-- The range of `g` and `v`: without a second address it ends at the last line. -/
def globalRange (a : EdAddress) : AddressRange :=
  if a.addr1 = 0 ∧ a.addr2 = 0 then ⟨0, ed.numLines - 1⟩
  else ⟨if a.addr1 > 0 then a.addr1 - 1 else 0, if a.addr2 > 0 then a.addr2 - 1 else ed.numLines - 1⟩

/-- A call on a range, once the range is checked. -/
def onRange (range : AddressRange) (f : AddressRange → Call) : Call :=
  if range.outside ed.numLines then .setError .invalidAddress else f range

def onRangeOrCurrent (a : EdAddress) (f : AddressRange → Call) : Call :=
  match ed.rangeOrCurrent a with
  | none => .setError .invalidAddress
  | some range => ed.onRange range f

/-- `g/pat/command` and `v/pat/command`; `p` follows the first `/`. -/
def globalCall (isG : Bool) (a : EdAddress) (p : List Byte) : Call :=
  match field p with
  | none => .setError .invalidGlobal
  | some (pat, p) =>
    let inner := p.dropWhile fun b : Byte => b = ' '
    if inner = [] then .setError .invalidGlobal
    else ed.onRange (ed.globalRange a) fun range => .global isG range (.ofBytes pat) (.ofBytes inner)

/-- `s/pattern/replacement/[g]`; `p` follows the first `/`. -/
def substituteCall (a : EdAddress) (p : List Byte) : Call :=
  match field p with
  | none => .setError .invalidSubstitute
  | some (pattern, p) =>
    match field p with
    | none => .setError .invalidSubstitute
    | some (replacement, flags) =>
      if flags.all (· = 'g') then
        ed.onRangeOrCurrent a fun range =>
          .substituteRange range (.ofBytes pattern) (.ofBytes replacement) (flags ≠ [])
      else .setError .invalidFlag

def markCall (letter : Fin 26) (a : EdAddress) : Call :=
  let addrk := if a.addr1 = 0 then ed.currentLine else a.addr1 - 1
  if addrk < 0 ∨ addrk ≥ ed.numLines then .setError .invalidAddress else .mark letter addrk

/-- `=`; `addrStr` is the part of the line before it. -/
def lineNumberCall (addrStr : List Byte) : Call :=
  if addrStr = [] then .printNumber ed.numLines
  else match ed.parseAddress addrStr with
    | .error f => .undefined f
    | .ok addr =>
      if 0 ≤ addr ∧ addr < ed.numLines then .printNumber (addr + 1) else .setError .invalidAddress

/-- `m` and `t` -/
def destinationCall (a : EdAddress) (cmdBuf : List Byte) (f : AddressRange → ℤ → Call) : Call :=
  match (operand cmdBuf).filter fun p => decide (p ≠ []) with
  | none => .setError .noDestinationAddress
  | some dest =>
    ed.onRangeOrCurrent a fun range =>
      match ed.parseAddress dest with
      | .error f => .undefined f
      | .ok dest => if dest < 0 then .setError .invalidDestination else f range dest

/-- `e` and `E` -/
def editCall (cmdBuf : List Byte) (f : Option CString → Call) : Call :=
  match operandName cmdBuf with
  | some filename => f (some filename)
  | none => if ed.filename = none then .setError .noCurrentFilename else f none

def readCall (a : EdAddress) (cmdBuf : List Byte) : Call :=
  match operandName cmdBuf with
  | none => .setError .noFilenameSpecified
  | some filename =>
    .readFileAtAddress (if a.addr1 = 0 then ed.numLines - 1 else a.addr1 - 1) filename

def writeAppendCall (a : EdAddress) (cmdBuf : List Byte) : Call :=
  match operandName cmdBuf with
  | none => .setError .noFilenameSpecified
  | some filename => ed.onRange (ed.rangeOrAll a) fun range => .writeAppendFile range filename

/-- The `switch` at the end of `execute_command`. -/
def singleCall (op : Byte) (a : EdAddress) : Call :=
  let addr := if a.addr1 = 0 then ed.currentLine else a.addr1 - 1
  if op = 'a' then .appendLine (if addr < 0 then if 0 < ed.numLines then ed.numLines - 1 else -1 else addr)
  else if op = 'i' then .insertLine (if addr < 0 then 0 else addr)
  else if op = 'q' then .quit
  else if op = 'Q' then .forcedQuit
  else if op = 'H' then .toggleVerbose
  else if op = 'h' then .help
  else if addr < 0 then .setError .invalidAddress
  else if op = 'u' then .undo
  else if op = 'P' then .togglePrompt
  else .setError .unknownCommand

/-- `execute_command` from the command letter on. -/
def dispatch (cmdBuf : List Byte) (a : EdAddress) : Call :=
  match a.rest with
  | [] =>
    if 0 < a.addr1 then
      if a.addr1 - 1 < ed.numLines then .setCurrent (a.addr1 - 1) else .setError .invalidAddress
    else .nothing
  | op :: args =>
    let slash : Bool := decide (args.head? = some (('/' : Char) : Byte))
    if (op = 'g' ∨ op = 'v') ∧ slash then ed.globalCall (op = 'g') a args.tail
    else if op = 's' ∧ slash then ed.substituteCall a args.tail
    else
      match if op = 'k' then args.head?.bind markIndex else none with
      | some letter => ed.markCall letter a
      | none =>
        if op = '=' then ed.lineNumberCall (cmdBuf.take (cmdBuf.length - a.rest.length))
        else if op = 'f' then .file (operandName cmdBuf)
        else if op = 'w' then .writeFile (operandName cmdBuf)
        else if op = 'W' then ed.writeAppendCall a cmdBuf
        else if op = 'e' then ed.editCall cmdBuf .editFile
        else if op = 'E' then ed.editCall cmdBuf .forcedEditFile
        else if op = 'r' then ed.readCall a cmdBuf
        else if op = 'm' then ed.destinationCall a cmdBuf .moveRange
        else if op = 't' then ed.destinationCall a cmdBuf .copyRange
        else if op = 'p' then ed.onRangeOrCurrent a .printRange
        else if op = 'd' then ed.onRangeOrCurrent a .deleteRange
        else if op = 'n' then ed.onRangeOrCurrent a .printNumberedRange
        else if op = 'l' then ed.onRangeOrCurrent a .printListRange
        else if op = 'c' then ed.onRangeOrCurrent a .changeRange
        else if op = 'j' then ed.onRangeOrCurrent a .joinRange
        else ed.singleCall op a

/-- What `execute_command` calls once the command line is copied. -/
def decodeBuffer (cmdBuf : List Byte) : Call :=
  if cmdBuf = [] then .nothing
  else match parseEdAddress cmdBuf ed.current1 ed.numLines ed.marks with
    | none => .setError .invalidAddress
    | some a => ed.dispatch cmdBuf a

/-- What `execute_command` calls for a command line. -/
def decode (cmd : CString) : Call := ed.decodeBuffer (commandBuffer cmd)

end Editor

/-! ## Global commands -/

/-- The lines (as indices from `i` on) that a `g` or `v` selects. -/
def collect (isG : Bool) (pat : CString) : List Line → ℕ → Except Fault (List ℕ)
  | [], _ => .ok []
  | line :: lines, i =>
    match breOk line.text pat with
    | .error f => .error f
    | .ok matched =>
      (collect isG pat lines (i + 1)).map fun idxs => if matched = isG then i :: idxs else idxs

/-- A line of a command list as it is stored. -/
def trimLine (raw : List Byte) : CString :=
  let s := (raw.takeWhile fun b : Byte => decide (b ≠ 0 ∧ b ≠ '\r' ∧ b ≠ '\n')).dropWhile
    fun b : Byte => b = ' '
  .ofBytes (s.rdropWhile fun b : Byte => b = ' ')

/-- The loop that reads a command list, up to a line `}`. -/
def readList : ℕ → List Byte → TextBlock
  | 0, s => ⟨[], [], s⟩
  | n + 1, s =>
    match fgets maxLine s with
    | none => ⟨[], [], s⟩
    | some (raw, rest) =>
      if (trimLine raw).bytes = (['}'] : List Byte) then ⟨[], [raw], rest⟩
      else
        ⟨trimLine raw :: (readList n rest).lines, raw :: (readList n rest).raws, (readList n rest).rest⟩

def World.readList (w : World) : List CString × World :=
  let block := Ed.readList w.input.bytes.length w.input.bytes
  (block.lines,
    { w with
      input := { w.input with bytes := block.rest }
      log := w.log ++ block.raws.map fun raw => .listLine raw w.input.temporary })

/-- The characters that the list reader takes for an address; `prev` is the one before. -/
def skipAddress (prev : Byte) : List Byte → List Byte
  | [] => []
  | c :: p =>
    if isDigit c ∨ c = '.' ∨ c = '$' ∨ c = '+' ∨ c = '-' ∨ c = ',' ∨ c = '\'' ∨
        ('a' ≤ c ∧ c ≤ 'z' ∧ prev = '\'') then
      skipAddress c p
    else c :: p

/-- `first_non_addr`. At the start of the line the code reads the byte before the string, which is
taken not to be a quote. -/
def firstNonAddr (cmdline : CString) : Option Byte :=
  let blanks := cmdline.bytes.takeWhile isBlank
  (skipBlanks (skipAddress (blanks.getLastD 0) (skipBlanks cmdline.bytes))).head?

/-- The text lines of a list that follow an `a` or `i`, and the commands after them. -/
def splitText : List CString → List CString × List CString
  | [] => ([], [])
  | line :: list =>
    if line.bytes = (['.'] : List Byte) then ([line], list)
    else (line :: (splitText list).1, (splitText list).2)

/-- The temporary file; the command line is in the same buffer before it. -/
def replay (cmdline : CString) (text : List CString) : List Byte :=
  (fileBytes text).take (maxLine * 64 - 1 - (cmdline.length + 1))

namespace World

variable (exec : CString → World → Outcome)

/-- A remembered line, moved into the buffer as it is now. -/
def clampTarget (w : World) (target : ℕ) : ℤ :=
  if w.ed.numLines ≤ target then w.ed.numLines - 1 else target

/-- The command list for one line. -/
def runLines : ℕ → List CString → World → Outcome
  | _, [], w => running w
  | 0, _ :: _, _ => outOfFuel
  | n + 1, cmdline :: list, w =>
    if cmdline.bytes = [] then runLines n list w
    else if firstNonAddr cmdline = some (('i' : Char) : Byte) ∨
        firstNonAddr cmdline = some (('a' : Char) : Byte) then
      (exec cmdline { w with input := ⟨replay cmdline (splitText list).1, true⟩ }).bind fun w' =>
        runLines n (splitText list).2 { w' with input := w.input }
    else (exec cmdline w).bind (runLines n list)

def runList (list : List CString) (target : ℕ) (w : World) : Outcome :=
  if w.ed.lines = [] then running w
  else runLines exec list.length list (w.setCurrent (w.clampTarget target))

/-- The single inner command for one line. -/
def turn (inner : CString) (target : ℕ) (w : World) : Outcome :=
  if inner.bytes.head? = some (('g' : Char) : Byte) ∨ inner.bytes.head? = some (('v' : Char) : Byte) then
    exec inner (if w.ed.lines = [] then w else w.setCurrent (w.clampTarget target))
  else exec (.ofBytes (decimalBytes (target + 1) ++ inner.bytes)) w

/-- The part of `execute_command` that runs a `g` or `v`. -/
def global (isG : Bool) (range : AddressRange) (pat inner : CString) (w : World) : Outcome :=
  -- A negative count of cells is a size that `malloc` refuses.
  if range.count < 0 then critical w
  else match collect isG pat (w.linesOf range) range.start.toNat with
    | .error f => fault f
    | .ok idxs =>
      -- From the last line to the first.
      if inner.bytes = (['{'] : List Byte) then
        let (list, w) := w.readList
        runAll (runList exec list) idxs.reverse w
      else runAll (turn exec inner) idxs.reverse w

/-! ## Execution -/

/-- What a call does. `exec` runs the inner commands of a `g`; `fuel` bounds the loop of `s///g`. -/
def perform (fuel : ℕ) (c : Call) (w : World) : Outcome :=
  match c with
  | .nothing => running w
  | .setError m => running (w.setError m)
  | .setCurrent addr => running (w.setCurrent addr)
  | .global isG range pat inner => w.global exec isG range pat inner
  | .substituteRange range pattern replacement global =>
    w.substituteRange fuel range pattern replacement global
  | .mark letter addr =>
    running { w with ed := { w.ed with
      marks := Function.update w.ed.marks letter addr
      currentLine := addr } }
  | .printNumber n => running (w.print (decimalBytes n.toNat ++ newline))
  | .file filename =>
    let w := { w with ed := { w.ed with filename := filename.or w.ed.filename } }
    match w.ed.filename with
    | none => running (w.setError .noCurrentFilename)
    | some f => running (w.print (f.bytes ++ newline))
  | .writeFile filename => w.writeFile filename
  | .writeAppendFile range filename => w.writeAppendFile range filename
  | .editFile filename => w.editFile filename
  | .forcedEditFile filename => w.forcedEditFile filename
  | .readFileAtAddress addr filename => w.readFileAtAddress addr filename
  | .moveRange range dest => w.moveRange range dest
  | .copyRange range dest => w.copyRange range dest
  | .printRange range => w.printRange range
  | .deleteRange range => w.deleteRange range
  | .printNumberedRange range => w.printNumberedRange range
  | .printListRange range => w.printListRange range
  | .changeRange range => w.changeRange range
  | .joinRange range => w.joinRange range
  | .appendLine addr => w.appendLine addr
  | .insertLine addr => w.insertLine addr
  | .undo => w.undo
  | .quit => if w.ed.dirty then running (w.setError .bufferModified) else exited 0 w
  | .forcedQuit => exited 0 w
  | .toggleVerbose =>
    let w := { w with ed := { w.ed with verbose := !w.ed.verbose } }
    running (w.print (asciiBytes (if w.ed.verbose then "Verbose on\n" else "Verbose off\n")))
  | .togglePrompt =>
    let w := { w with ed := { w.ed with prompt := !w.ed.prompt } }
    running (w.print (asciiBytes (if w.ed.prompt then "Prompt on\n" else "Prompt off\n")))
  | .help =>
    match w.ed.lastError with
    | some m => running (w.print (asciiBytes m.text ++ newline))
    | none => running (w.print (asciiBytes "No error\n"))
  | .undefined f => fault f

end World

/-- `execute_command`; the fuel bounds the depth to which global commands are nested. -/
def executeCommand : ℕ → CString → World → Outcome
  | 0, _, _ => outOfFuel
  | fuel + 1, cmd, w =>
    (w.record (.call (w.ed.decode cmd) w.toState)).perform (executeCommand fuel) fuel (w.ed.decode cmd)

/-- The loop of `main`. At the end of the input it executes `Q`. -/
def mainLoop (fuel : ℕ) : ℕ → World → Outcome
  | 0, _ => outOfFuel
  | n + 1, w =>
    match fgets maxLine w.input.bytes with
    | none => executeCommand (fuel + 1) (.lit "Q") w
    | some (raw, rest) =>
      (executeCommand fuel (.ofBytes raw)
        ({ w with input := { w.input with bytes := rest } }.record (.command raw))).bind
        (mainLoop fuel n)

/-- The editor as `main` has it when the loop begins. -/
def World.start (input : List Byte) (files : Files) : World where
  input := ⟨input, false⟩
  files := files

/-- `main`, with a file to load when one is named on its command line. -/
def main (fuel : ℕ) (filename : Option CString) (input : List Byte) (files : Files) : Outcome :=
  let w := World.start input files
  (match filename with
    | none => running w
    | some f => w.loadFile f).bind (mainLoop fuel (input.length + 1))

end ValidcTools.Ed
