import ValidcTools.Lib.Cells
import ValidcTools.Ed.Address
import ValidcTools.Ed.Input

/-! The operations of `ed` on the lines of its buffer. -/
namespace ValidcTools.Ed
open Outcome

/-- `%d` -/
def decimalBytes (n : ℕ) : List Byte := (Nat.toDigits 10 n).map Char.toUInt8

def newline : List Byte := ['\n']

namespace World

/-- `append_line` -/
def appendLine (addr : ℤ) (w : World) : Outcome :=
  let w := w.prepareUndo
  let (texts, w) := w.readText
  withLines (Cells.insertAll? w.ed.lines (addr + 1) (newLines w.fresh texts)) fun lines =>
    if texts = [] then
      running { w with ed := { w.ed with
        currentLine :=
          if 0 < w.ed.numLines ∧ addr + 1 < w.ed.numLines then addr + 1
          else if 0 < w.ed.numLines then addr
          else w.ed.currentLine } }
    else
      running { w with
        ed := { w.ed with
          lines
          currentLine := addr + texts.length
          dirty := true
          marks := updateMarksAfterInsert w.ed.marks (addr + 1) texts.length }
        fresh := w.fresh + texts.length }

/-- `insert_line` -/
def insertLine (addr : ℤ) (w : World) : Outcome :=
  let w := w.prepareUndo
  let (texts, w) := w.readText
  withLines (Cells.insertAll? w.ed.lines addr (newLines w.fresh texts)) fun lines =>
    if texts = [] then running (w.setCurrent addr)
    else
      running { w with
        ed := { w.ed with
          lines
          currentLine := addr + texts.length - 1
          dirty := true
          marks := updateMarksAfterInsert w.ed.marks addr texts.length }
        fresh := w.fresh + texts.length }

/-- The lines of a range that is not outside the buffer; none when it is reversed. -/
def linesOf (w : World) (range : AddressRange) : List Line :=
  (w.ed.lines.drop range.start.toNat).take range.count.toNat

/-- `print_range`, `print_numbered_range` and `print_list_range` differ in how they show a line,
which is given with its number. -/
def printWith (render : ℕ × CString → List Byte) (range : AddressRange) (w : World) : Outcome :=
  if range.outside w.ed.numLines then running (w.setError .invalidAddress)
  else
    let numbered := ((w.linesOf range).zipIdx (range.start.toNat + 1)).map fun x => (x.2, x.1.text)
    running ((w.print (numbered.flatMap render)).setCurrent range.stop)

def printRange : AddressRange → World → Outcome :=
  printWith fun x => x.2.bytes ++ newline

def printNumberedRange : AddressRange → World → Outcome :=
  printWith fun x => decimalBytes x.1 ++ (['\t'] : List Byte) ++ x.2.bytes ++ newline

/-- `%03o` -/
def octalBytes (c : Byte) : List Byte := ['0' + c / 64, '0' + c / 8 % 8, '0' + c % 8]

def listByte (c : Byte) : List Byte :=
  if c = '\\' then ['\\', '\\']
  else if c = '\t' then ['\\', 't']
  else if c = 8 then ['\\', 'b']
  else if c = 12 then ['\\', 'f']
  else if c = '\r' then ['\\', 'r']
  else if c = 11 then ['\\', 'v']
  else if c < 32 ∨ 127 ≤ c then (('\\' : Char) : Byte) :: octalBytes c
  else [c]

def printListRange : AddressRange → World → Outcome :=
  printWith fun x => x.2.bytes.flatMap listByte ++ (['$'] : List Byte) ++ newline

/-- `delete_range` -/
def deleteRange (range : AddressRange) (w : World) : Outcome :=
  let w := w.prepareUndo
  if range.outside w.ed.numLines then running (w.setError .invalidAddress)
  else
    withLines (Cells.remove? w.ed.lines range.start range.count) fun lines =>
      running { w with ed := { w.ed with
        lines
        currentLine :=
          if lines = [] then -1
          else if range.start < lines.length then range.start
          else lines.length - 1
        dirty := true
        marks := updateMarksAfterDelete w.ed.marks range.start range.count } }

/-- `change_range` -/
def changeRange (range : AddressRange) (w : World) : Outcome :=
  let w := w.prepareUndo
  if range.outside w.ed.numLines then running (w.setError .invalidAddress)
  else
    (w.deleteRange range).bind fun w =>
      w.insertLine (max (min range.start w.ed.numLines) 0)

/-- `adjusted_dest` in `move_range` -/
def adjustedDest (range : AddressRange) (dest : ℤ) : ℤ :=
  if dest > range.stop then dest - range.count else dest

/-- The three loops of `move_range` over `lines`, after the moved lines are saved. -/
def moveLines? (lines : List Line) (range : AddressRange) (dest : ℤ) : Option (List Line) :=
  let n : ℤ := lines.length
  let k := range.count
  let adjusted := adjustedDest range dest
  (Cells.getAll lines k.toNat range.start).bind fun moved =>
    (Cells.assign (fun i => i) (fun i => i + k) 1 (n - k - range.start).toNat range.start lines).bind
      fun lines =>
        (Cells.assign (fun i => i + k) (fun i => i) (-1) (n - k - 1 - adjusted).toNat (n - k - 1) lines).bind
          fun lines => Cells.setAll lines (adjusted + 1) moved

/-- The marks after `move_range`. -/
def moveMarks (marks : Marks) (range : AddressRange) (dest : ℤ) : Marks := fun i =>
  let adjusted := adjustedDest range dest
  if marks i < 0 then marks i
  else if range.start ≤ marks i ∧ marks i ≤ range.stop then
    adjusted + 1 + (marks i - range.start)
  else if range.start < adjusted + 1 then
    if range.stop < marks i ∧ marks i ≤ dest then marks i - range.count else marks i
  else
    if adjusted + 1 ≤ marks i ∧ marks i < range.start then marks i + range.count else marks i

/-- `move_range` -/
def moveRange (range : AddressRange) (dest : ℤ) (w : World) : Outcome :=
  let w := w.prepareUndo
  if range.outside w.ed.numLines then running (w.setError .invalidAddress)
  else if dest < 0 ∨ w.ed.numLines < dest then running (w.setError .invalidAddress)
  else if range.start ≤ dest ∧ dest ≤ range.stop then running (w.setError .invalidDestination)
  -- A negative count of cells is a size that `malloc` refuses.
  else if range.count < 0 then critical w
  else
    withLines (moveLines? w.ed.lines range dest) fun lines =>
      running { w with ed := { w.ed with
        lines
        currentLine := adjustedDest range dest + range.count
        dirty := true
        marks := moveMarks w.ed.marks range dest } }

/-- The array after `realloc` to `k` cells more (or less); a new cell holds anything. -/
def resize (lines : List Line) (k : ℤ) : List Line :=
  (lines ++ List.replicate k.toNat (⟨.lit "", 0⟩ : Line)).take ((lines.length : ℤ) + k).toNat

/-- The second loop of `copy_range`, from `i` on with `n` turns left. -/
def copyLoop (range : AddressRange) (dest : ℤ) (fresh : ℕ) : ℕ → ℕ → List Line → Option (List Line)
  | 0, _, lines => some lines
  | n + 1, i, lines =>
    let srcIdx := range.start + i
    let srcIdx := if srcIdx > dest then srcIdx + range.count else srcIdx
    (Cells.get? lines srcIdx).bind fun line =>
      (Cells.set? lines (dest + 1 + i) ⟨line.text, fresh + i⟩).bind fun lines =>
        copyLoop range dest fresh n (i + 1) lines

def copyLines? (lines : List Line) (range : AddressRange) (dest : ℤ) (fresh : ℕ) :
    Option (List Line) :=
  let n : ℤ := lines.length
  let k := range.count
  (Cells.assign (fun i => i + k) (fun i => i) (-1) (n - 1 - dest).toNat (n - 1) (resize lines k)).bind
    fun lines => copyLoop range dest fresh k.toNat 0 lines

/-- `copy_range` -/
def copyRange (range : AddressRange) (dest : ℤ) (w : World) : Outcome :=
  let w := w.prepareUndo
  if range.outside w.ed.numLines then running (w.setError .invalidAddress)
  else if dest < 0 ∨ w.ed.numLines < dest then running (w.setError .invalidAddress)
  else
    withLines (copyLines? w.ed.lines range dest w.fresh) fun lines =>
      running { w with
        ed := { w.ed with
          lines
          currentLine := dest + range.count
          dirty := true
          marks := updateMarksAfterInsert w.ed.marks (dest + 1) range.count }
        fresh := w.fresh + range.count.toNat }

/-- The line that `join_range` puts in the place of the first one. -/
def joined (lines : List Line) (id : ℕ) : Line := ⟨.ofBytes (lines.flatMap (·.text.bytes)), id⟩

/-- `join_range` -/
def joinRange (range : AddressRange) (w : World) : Outcome :=
  let w := w.prepareUndo
  if range.outside w.ed.numLines then running (w.setError .invalidAddress)
  else if range.start = range.stop then running (w.setCurrent range.start)
  else
    withLines ((Cells.get? w.ed.lines range.start).bind fun first =>
        (Cells.set? w.ed.lines range.start (joined (w.linesOf range) first.id)).bind fun lines =>
          Cells.remove? lines (range.start + 1) (range.stop - range.start)) fun lines =>
      running { w with ed := { w.ed with lines, currentLine := range.start, dirty := true } }

/-- What becomes of one line in `substitute_range`. -/
inductive Substituted
  | unchanged
  | changed (text : CString)
  | critical
  | undefined
  | outOfFuel
deriving DecidableEq

/-- The loop of `substitute_range` over one line with the flag `g`. -/
def substituteAll (pattern replacement : CString) : ℕ → CString → Bool → Substituted
  | 0, _, _ => .outOfFuel
  | fuel + 1, work, changed =>
    match breOk work pattern with
    | .error _ => .undefined
    | .ok false => if changed then .changed work else .unchanged
    | .ok true =>
      match Bre.breSubstitute work pattern replacement with
      | .null => .critical
      | .undefined => .undefined
      | .string next =>
        if next = work then if changed then .changed work else .unchanged
        else substituteAll pattern replacement fuel next true

/-- `substitute_range` on one line without the flag. -/
def substituteOnce (pattern replacement text : CString) : Substituted :=
  match breOk text pattern with
  | .error _ => .undefined
  | .ok false => .unchanged
  | .ok true =>
    match Bre.breSubstitute text pattern replacement with
    | .null => .critical
    | .undefined => .undefined
    | .string new => .changed new

/-- The loop of `substitute_range` over the lines from `j` on, with `n` left. -/
def substituteLoop (line : CString → Substituted) (stop : ℤ) : ℕ → ℤ → Bool → World → Outcome
  | 0, _, anyChanged, w =>
    if anyChanged then running { w with ed := { w.ed with dirty := true, currentLine := stop } }
    else running (w.setError .noMatch)
  | n + 1, j, anyChanged, w =>
    match Cells.get? w.ed.lines j with
    | none => fault .lineIndex
    | some l =>
      match line l.text with
      | .unchanged => substituteLoop line stop n (j + 1) anyChanged w
      | .changed text =>
        withLines (Cells.set? w.ed.lines j ⟨text, l.id⟩) fun lines =>
          substituteLoop line stop n (j + 1) true { w with ed := { w.ed with lines } }
      | .critical => critical w
      | .undefined => fault .matcher
      | .outOfFuel => outOfFuel

/-- `substitute_range` -/
def substituteRange (fuel : ℕ) (range : AddressRange) (pattern replacement : CString) (global : Bool)
    (w : World) : Outcome :=
  let w := w.prepareUndo
  if range.outside w.ed.numLines then running (w.setError .invalidAddress)
  else
    substituteLoop
      (if global then fun text => substituteAll pattern replacement fuel text false
        else substituteOnce pattern replacement)
      range.stop range.count.toNat range.start false w

/-- The case `'u'` of `execute_command`, with a valid snapshot. -/
def undo (w : World) : Outcome :=
  if w.ed.undoValid = false then running (w.setError .nothingToUndo)
  else
    running { w with ed := { w.ed with
      lines := w.ed.undoLines
      currentLine := w.ed.undoCurrentLine
      undoLines := []
      undoCurrentLine := 0
      undoValid := false
      dirty := true } }

end World

end ValidcTools.Ed
