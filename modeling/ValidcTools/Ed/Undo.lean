import ValidcTools.Ed.Inside
import ValidcTools.Ed.Marks

/-! What the command `u` takes back after a command that has changed the buffer. -/
namespace ValidcTools.Ed
open Outcome

/-- The commands `a`, `i`, `c`, `d`, `j`, `m`, `t`, `r` and `s`. -/
def Call.edits : Call → Bool
  | .appendLine _ | .insertLine _ | .changeRange _ | .deleteRange _ | .joinRange _ | .moveRange _ _
  | .copyRange _ _ | .readFileAtAddress _ _ | .substituteRange _ _ _ _ => true
  | _ => false

/-- The mark is on a line. -/
def Editor.Named (ed : Editor) (m : Fin 26) : Prop := 0 ≤ ed.marks m ∧ ed.marks m < ed.numLines

/-- The lines and the current line are what they were, and every mark names the line that it named. -/
def World.Restored (w w' : World) : Prop :=
  w'.ed.lines = w.ed.lines ∧ w'.ed.currentLine = w.ed.currentLine ∧
    ∀ m l, Cells.get? w.ed.lines (w.ed.marks m) = some l → Cells.get? w'.ed.lines (w'.ed.marks m) = some l

/-- The lines and the current line that `u` would bring back. -/
def Editor.snapshot? (ed : Editor) : Option (List Line × ℤ) :=
  if ed.undoValid then some (ed.undoLines, ed.undoCurrentLine) else none

/-! ## The snapshot after a command -/

/-- The lines and the current line that `delete_range` leaves. -/
def Editor.afterDelete (ed : Editor) (range : AddressRange) : List Line × ℤ :=
  let lines := without ed.lines range.start.toNat range.count.toNat
  (lines, if lines = [] then -1 else if range.start < lines.length then range.start else lines.length - 1)

/-- A command that takes the snapshot, uses it or drops it. -/
def Call.touchesSnapshot (c : Call) (ed : Editor) : Bool :=
  match c with
  | .undo => ed.undoValid
  | .forcedEditFile _ => true
  | .editFile _ => !ed.dirty
  | c => c.edits

/-- The snapshot after such a command. -/
def Call.snapshotAfter (c : Call) (ed : Editor) : Option (List Line × ℤ) :=
  match c with
  -- `insert_line` takes it again, after the deletion.
  | .changeRange range => some (ed.afterDelete range)
  | .undo | .forcedEditFile _ | .editFile _ => none
  | _ => some (ed.lines, ed.currentLine)

namespace World

variable {exec : CString → World → Outcome} {fuel : ℕ} {w w' : World} {range : AddressRange} {addr : ℤ}

theorem snapshot?_appendLine (h0 : -1 ≤ addr) (h : w.appendLine addr = running w') :
    w'.ed.snapshot? = some (w.ed.lines, w.ed.currentLine) := by
  rcases appendLine_running h0 h with ⟨-, rfl⟩ | ⟨-, -, rfl⟩
  · rfl
  · rfl

theorem snapshot?_insertLine (h0 : 0 ≤ addr) (h : w.insertLine addr = running w') :
    w'.ed.snapshot? = some (w.ed.lines, w.ed.currentLine) := by
  rcases insertLine_running h0 h with ⟨-, rfl⟩ | ⟨-, -, rfl⟩
  · rfl
  · rfl

theorem snapshot?_deleteRange (h : w.deleteRange range = running w') :
    w'.ed.snapshot? = some (w.ed.lines, w.ed.currentLine) := by
  rcases deleteRange_running h with ⟨-, rfl⟩ | ⟨-, -, lines, -, rfl⟩
  · rfl
  · rfl

theorem snapshot?_changeRange (hin : range.outside w.ed.numLines = false)
    (h : w.changeRange range = running w') : w'.ed.snapshot? = some (w.ed.afterDelete range) := by
  rcases changeRange_running h with ⟨hout, -⟩ | ⟨-, w1, hdelete, hinsert⟩
  · rw [hin] at hout
    cases hout
  · rcases deleteRange_running hdelete with ⟨hout, -⟩ | ⟨-, -, lines, rfl, hw1⟩
    · rw [hin] at hout
      cases hout
    · rw [snapshot?_insertLine (le_max_right _ _) hinsert, hw1]
      rfl

theorem snapshot?_moveRange {dest : ℤ} (h : w.moveRange range dest = running w') :
    w'.ed.snapshot? = some (w.ed.lines, w.ed.currentLine) := by
  rcases moveRange_running h with ⟨m, rfl⟩ | ⟨-, -, -, -, -, rfl⟩
  · rfl
  · rfl

theorem snapshot?_copyRange {dest : ℤ} (h : w.copyRange range dest = running w') :
    w'.ed.snapshot? = some (w.ed.lines, w.ed.currentLine) := by
  rcases copyRange_running h with ⟨-, rfl⟩ | ⟨-, -, lines, -, rfl⟩
  · rfl
  · rfl

theorem snapshot?_joinRange (h : w.joinRange range = running w') :
    w'.ed.snapshot? = some (w.ed.lines, w.ed.currentLine) := by
  rcases joinRange_running h with ⟨-, rfl⟩ | ⟨-, -, rfl⟩ | ⟨-, -, first, -, rfl⟩
  · rfl
  · rfl
  · rfl

theorem snapshot?_readFileAtAddress {filename : CString} (h0 : -1 ≤ addr)
    (h : w.readFileAtAddress addr filename = running w') :
    w'.ed.snapshot? = some (w.ed.lines, w.ed.currentLine) := by
  rcases readFileAtAddress_running h0 h with ⟨-, rfl⟩ | ⟨bytes, -, -, lines, -, rfl⟩
  · rfl
  · split_ifs
    · rfl
    · rfl

theorem snapshot?_substituteRange {pattern replacement : CString} {global : Bool}
    (h : w.substituteRange fuel range pattern replacement global = running w') :
    w'.ed.snapshot? = some (w.ed.lines, w.ed.currentLine) := by
  rcases substituteRange_running h with ⟨m, rfl⟩ | ⟨-, lines, -, rfl⟩
  · rfl
  · rfl

theorem snapshot?_forcedEditFile {filename : Option CString} (h : w.forcedEditFile filename = running w') :
    w'.ed.snapshot? = none := by
  obtain ⟨name, -, h⟩ := forcedEditFile_running h
  rcases loadFile_running h with ⟨-, rfl⟩ | ⟨bytes, -, lines, out, -, rfl⟩
  · rfl
  · rfl

/-- What a command that touches the snapshot makes of it. -/
theorem snapshot?_of_touches {c : Call} (hin : c.InBounds w.ed.numLines)
    (hc : c.touchesSnapshot w.ed = true) (h : w.perform exec fuel c = running w') :
    w'.ed.snapshot? = c.snapshotAfter w.ed := by
  cases c with
  | appendLine addr => exact snapshot?_appendLine hin h
  | insertLine addr => exact snapshot?_insertLine hin h
  | changeRange range => exact snapshot?_changeRange hin h
  | deleteRange range => exact snapshot?_deleteRange h
  | joinRange range => exact snapshot?_joinRange h
  | moveRange range dest => exact snapshot?_moveRange h
  | copyRange range dest => exact snapshot?_copyRange h
  | readFileAtAddress addr filename => exact snapshot?_readFileAtAddress hin.1 h
  | substituteRange range pattern replacement global => exact snapshot?_substituteRange h
  | undo =>
    rcases undo_running h with ⟨hinvalid, -⟩ | ⟨-, rfl⟩
    · exact absurd (hinvalid.symm.trans hc) Bool.noConfusion
    · rfl
  | forcedEditFile filename => exact snapshot?_forcedEditFile h
  | editFile filename =>
    rcases editFile_running h with ⟨hdirty, -⟩ | ⟨-, h⟩
    · exact absurd (hdirty.symm.trans (Bool.not_eq_true' _ ▸ hc)) Bool.noConfusion
    · exact snapshot?_forcedEditFile h
  | _ => cases hc

/-- The other commands leave it, and the lines. -/
theorem lines_of_not_touches {c : Call} (hglobal : c.isGlobal = false)
    (hc : c.touchesSnapshot w.ed = false) (h : w.perform exec fuel c = running w') :
    w'.ed.lines = w.ed.lines ∧ w'.ed.snapshot? = w.ed.snapshot? := by
  by_cases hplain : c.plain = true
  · have hstep := perform_plain hplain h
    refine ⟨hstep.lines, ?_⟩
    unfold Editor.snapshot?
    rw [hstep.undoLines, hstep.undoCurrentLine, hstep.undoValid]
  · cases c with
    | global isG range pat inner => cases hglobal
    | writeFile filename =>
      rcases writeFile_running h with ⟨m, rfl⟩ | ⟨files, name, out, rfl⟩
      · exact ⟨rfl, rfl⟩
      · exact ⟨rfl, rfl⟩
    | undo =>
      rcases undo_running h with ⟨-, rfl⟩ | ⟨hvalid, -⟩
      · exact ⟨rfl, rfl⟩
      · exact absurd (hvalid.symm.trans hc) Bool.noConfusion
    | editFile filename =>
      rcases editFile_running h with ⟨-, rfl⟩ | ⟨hclean, -⟩
      · exact ⟨rfl, rfl⟩
      · change (!w.ed.dirty) = false at hc
        rw [hclean] at hc
        cases hc
    | _ => first | exact absurd rfl hplain | cases hc

end World

/-! ## The marks -/

/-- When a command leaves a mark that is set at its index. -/
def KeepsMark (c : Call) (s : State) (m : Fin 26) : Prop :=
  match c with
  | .appendLine addr => s.typed = [] ∨ s.ed.marks m ≤ addr
  | .insertLine addr => s.typed = [] ∨ s.ed.marks m < addr
  -- The new lines may be as many as the old ones.
  | .changeRange range =>
    s.ed.marks m < range.start ∨ range.stop < s.ed.marks m ∧ s.typed.length = range.count
  | .deleteRange range => range.count = 0 ∨ s.ed.marks m < range.start
  | .moveRange range dest =>
    s.ed.numLines < dest ∨ range.count = 0 ∨ (range.start ≤ dest + 1 ∧ dest ≤ range.stop) ∨
      s.ed.marks m < min range.start (dest + 1) ∨ max range.stop dest < s.ed.marks m
  | .copyRange range dest => s.ed.numLines < dest ∨ range.count = 0 ∨ s.ed.marks m ≤ dest
  | .readFileAtAddress addr name =>
    ∀ bytes ∈ s.files.content name, byteCount (fileLines bytes) = 0 ∨ s.ed.marks m ≤ addr
  | .mark letter addr => letter = m → addr = s.ed.marks m
  | .forcedEditFile _ => False
  | .editFile _ => s.ed.dirty = true
  | _ => True

section

variable {marks : Marks} {m : Fin 26} {pos k : ℤ}

theorem updateMarksAfterInsert_eq_iff (h0 : 0 ≤ marks m) :
    updateMarksAfterInsert marks pos k m = marks m ↔ k = 0 ∨ marks m < pos := by
  unfold updateMarksAfterInsert
  split_ifs <;> omega

theorem updateMarksAfterDelete_eq_iff (h0 : 0 ≤ marks m) (hk : 0 ≤ k) :
    updateMarksAfterDelete marks pos k m = marks m ↔ k = 0 ∨ marks m < pos := by
  unfold updateMarksAfterDelete
  split_ifs <;> omega

theorem updateMarksAfterChange_eq_iff (h0 : 0 ≤ marks m) (hpos : 0 ≤ pos) (hk : 0 ≤ k) (n : ℕ) :
    updateMarksAfterInsert (updateMarksAfterDelete marks pos k) pos n m = marks m ↔
      marks m < pos ∨ pos + k ≤ marks m ∧ n = k := by
  unfold updateMarksAfterInsert updateMarksAfterDelete
  split_ifs <;> omega

end

namespace World

variable {exec : CString → World → Outcome} {fuel : ℕ} {w w' : World} {range : AddressRange} {addr : ℤ}
  {m : Fin 26}

theorem mark_appendLine_iff (h0 : -1 ≤ addr) (hm : 0 ≤ w.ed.marks m) (h : w.appendLine addr = running w') :
    w'.ed.marks m = w.ed.marks m ↔ KeepsMark (.appendLine addr) w.toState m := by
  rcases appendLine_running h0 h with ⟨htexts, rfl⟩ | ⟨htexts, -, rfl⟩
  · exact iff_of_true rfl (.inl htexts)
  · have hlen := List.length_pos_iff.mpr htexts
    refine (updateMarksAfterInsert_eq_iff hm).trans ⟨fun hor => .inr (by omega), fun hor => .inr ?_⟩
    have hle := hor.resolve_left htexts
    omega

theorem mark_insertLine_iff (h0 : 0 ≤ addr) (hm : 0 ≤ w.ed.marks m) (h : w.insertLine addr = running w') :
    w'.ed.marks m = w.ed.marks m ↔ KeepsMark (.insertLine addr) w.toState m := by
  rcases insertLine_running h0 h with ⟨htexts, rfl⟩ | ⟨htexts, -, rfl⟩
  · exact iff_of_true rfl (.inl htexts)
  · have hlen := List.length_pos_iff.mpr htexts
    exact (updateMarksAfterInsert_eq_iff hm).trans ⟨fun hor => .inr (by omega), fun hor =>
      .inr (hor.resolve_left htexts)⟩

theorem mark_deleteRange_iff (hin : range.outside w.ed.numLines = false) (hm : 0 ≤ w.ed.marks m)
    (h : w.deleteRange range = running w') :
    w'.ed.marks m = w.ed.marks m ↔ KeepsMark (.deleteRange range) w.toState m := by
  rcases deleteRange_running h with ⟨hout, -⟩ | ⟨-, hcount, lines, -, rfl⟩
  · rw [hin] at hout
    cases hout
  · exact updateMarksAfterDelete_eq_iff hm hcount

theorem mark_changeRange_iff (hin : range.outside w.ed.numLines = false) (hm : 0 ≤ w.ed.marks m)
    (h : w.changeRange range = running w') :
    w'.ed.marks m = w.ed.marks m ↔ KeepsMark (.changeRange range) w.toState m := by
  rcases changeRange_running h with ⟨hout, -⟩ | ⟨-, w1, hdelete, hinsert⟩
  · rw [hin] at hout
    cases hout
  · rcases deleteRange_running hdelete with ⟨hout, -⟩ | ⟨-, hcount, lines, hlines, hw1⟩
    · rw [hin] at hout
      cases hout
    · obtain ⟨hs0, hstop0, hs, hstop⟩ := AddressRange.outside_eq_false_iff.mp hin
      have hn : w.ed.numLines = w.ed.lines.length := rfl
      have hk : range.count = range.stop - range.start + 1 := rfl
      have hlen : lines.length = w.ed.lines.length - range.count.toNat := by
        rw [hlines]
        exact length_without (by omega)
      have hpos : max (min range.start w1.ed.numLines) 0 = range.start := by
        rw [hw1]
        change max (min range.start (lines.length : ℤ)) 0 = range.start
        omega
      rw [hpos] at hinsert
      have hmarks : w1.ed.marks = updateMarksAfterDelete w.ed.marks range.start range.count := by rw [hw1]
      have htyped : w1.readText.1 = w.toState.typed := by
        rw [hw1]
        rfl
      have hafter : w'.ed.marks = updateMarksAfterInsert
          (updateMarksAfterDelete w.ed.marks range.start range.count) range.start w.toState.typed.length := by
        rcases insertLine_running hs0 hinsert with ⟨htexts, rfl⟩ | ⟨-, -, rfl⟩
        · rw [← htyped, htexts, List.length_nil, Nat.cast_zero, updateMarksAfterInsert_zero]
          exact hmarks
        · rw [← htyped, ← hmarks]
      rw [hafter, updateMarksAfterChange_eq_iff hm hs0 hcount]
      change _ ↔ w.ed.marks m < range.start ∨ range.stop < w.ed.marks m ∧ _
      rw [show range.start + range.count ≤ w.ed.marks m ↔ range.stop < w.ed.marks m by omega]

theorem mark_moveRange_iff {dest : ℤ} (hin : range.outside w.ed.numLines = false) (h0 : 0 ≤ dest)
    (hm : 0 ≤ w.ed.marks m) (h : w.moveRange range dest = running w') :
    w'.ed.marks m = w.ed.marks m ↔ KeepsMark (.moveRange range dest) w.toState m := by
  unfold moveRange at h
  dsimp only at h
  split_ifs at h with hout hbad hself hneg
  · exact absurd (hin.symm.trans hout) Bool.noConfusion
  · obtain rfl := Outcome.running.inj h
    exact iff_of_true rfl (.inl (hbad.resolve_left (not_lt.mpr h0)))
  · obtain rfl := Outcome.running.inj h
    exact iff_of_true rfl (.inr (.inr (.inl ⟨hself.1.trans (by omega), hself.2⟩)))
  · obtain ⟨lines, -, h⟩ := withLines_eq_running h
    obtain rfl := Outcome.running.inj h
    obtain ⟨hs0, hstop0, hs, hstop⟩ := AddressRange.outside_eq_false_iff.mp hin
    change moveMarks w.ed.marks range dest m = w.ed.marks m ↔ w.ed.numLines < dest ∨ _ ∨ _ ∨
      w.ed.marks m < min range.start (dest + 1) ∨ max range.stop dest < w.ed.marks m
    have hk : range.count = range.stop - range.start + 1 := rfl
    have hle : dest ≤ w.ed.numLines := not_lt.mp (not_or.mp hbad).2
    have hadj : adjustedDest range dest = if dest > range.stop then dest - range.count else dest := rfl
    unfold moveMarks
    dsimp only
    rw [hadj]
    split_ifs <;> omega

theorem mark_copyRange_iff {dest : ℤ} (hin : range.outside w.ed.numLines = false) (h0 : 0 ≤ dest)
    (hm : 0 ≤ w.ed.marks m) (h : w.copyRange range dest = running w') :
    w'.ed.marks m = w.ed.marks m ↔ KeepsMark (.copyRange range dest) w.toState m := by
  unfold copyRange at h
  dsimp only at h
  split_ifs at h with hout hbad
  · exact absurd (hin.symm.trans hout) Bool.noConfusion
  · obtain rfl := Outcome.running.inj h
    exact iff_of_true rfl (.inl (hbad.resolve_left (not_lt.mpr h0)))
  · obtain ⟨lines, -, h⟩ := withLines_eq_running h
    obtain rfl := Outcome.running.inj h
    have hle : ¬ w.ed.numLines < dest := (not_or.mp hbad).2
    refine (updateMarksAfterInsert_eq_iff hm).trans ⟨fun hor => .inr (hor.imp_right Int.lt_add_one_iff.mp), fun hor => ?_⟩
    exact (hor.resolve_left hle).imp_right Int.lt_add_one_iff.mpr

theorem mark_readFileAtAddress_iff {name : CString} (h0 : -1 ≤ addr) (hm : 0 ≤ w.ed.marks m)
    (h : w.readFileAtAddress addr name = running w') :
    w'.ed.marks m = w.ed.marks m ↔ KeepsMark (.readFileAtAddress addr name) w.toState m := by
  rcases readFileAtAddress_running h0 h with ⟨hnone, rfl⟩ | ⟨bytes, hbytes, -, lines, -, rfl⟩
  · refine iff_of_true rfl fun bytes hbytes => ?_
    rw [show w.toState.files.content name = none from hnone] at hbytes
    cases hbytes
  · have hcond : KeepsMark (.readFileAtAddress addr name) w.toState m ↔
        byteCount (fileLines bytes) = 0 ∨ w.ed.marks m ≤ addr :=
      ⟨fun hall => hall bytes hbytes, fun hor bytes' hbytes' => by
        obtain rfl := Option.some.inj (hbytes.symm.trans hbytes')
        exact hor⟩
    rw [hcond]
    split_ifs with hcount
    · have hlen : (fileLines bytes).length ≠ 0 := by
        intro hnil
        rw [List.length_eq_zero_iff.mp hnil] at hcount
        exact absurd hcount (by decide)
      refine (updateMarksAfterInsert_eq_iff hm).trans ⟨fun hor => .inr (by omega), fun hor => .inr ?_⟩
      have hle := hor.resolve_left hcount.ne'
      omega
    · exact iff_of_true rfl (.inl (by omega))

theorem marks_printWith {render : ℕ × CString → List Byte} (h : printWith render range w = running w') :
    w'.ed.marks = w.ed.marks := by
  rcases printWith_running h with rfl | ⟨out, rfl⟩
  · rfl
  · rfl

theorem mark_forcedEditFile {filename : Option CString} (h : w.forcedEditFile filename = running w') :
    w'.ed.marks m = -1 := by
  obtain ⟨name, -, h⟩ := forcedEditFile_running h
  rcases loadFile_running h with ⟨-, rfl⟩ | ⟨bytes, -, lines, out, -, rfl⟩
  · rfl
  · rfl

/-- `k` is the one plain call that moves a mark. -/
theorem marks_perform_plain {c : Call} (hc : c.plain = true) (hmark : ∀ letter addr, c ≠ .mark letter addr)
    (h : w.perform exec fuel c = running w') : w'.ed.marks = w.ed.marks := by
  cases c with
  | mark letter addr => exact absurd rfl (hmark letter addr)
  | file filename =>
    unfold perform at h
    dsimp only at h
    split at h
    · exact Outcome.running.inj h ▸ rfl
    · exact Outcome.running.inj h ▸ rfl
  | writeAppendFile range filename =>
    rcases writeAppendFile_running h with ⟨msg, rfl⟩ | ⟨files, out, rfl⟩
    · rfl
    · rfl
  | printRange range => exact marks_printWith h
  | printNumberedRange range => exact marks_printWith h
  | printListRange range => exact marks_printWith h
  | quit =>
    unfold perform at h
    dsimp only at h
    split_ifs at h
    exact Outcome.running.inj h ▸ rfl
  | help =>
    unfold perform at h
    dsimp only at h
    split at h
    · exact Outcome.running.inj h ▸ rfl
    · exact Outcome.running.inj h ▸ rfl
  | forcedQuit => cases h
  | undefined f => cases h
  | nothing | setError m | setCurrent addr | printNumber n | toggleVerbose | togglePrompt =>
    exact Outcome.running.inj h ▸ rfl
  | _ => cases hc

/-- A call that returns leaves a mark where it was exactly under `KeepsMark`. -/
theorem mark_perform_iff {c : Call} (hglobal : c.isGlobal = false) (hin : c.InBounds w.ed.numLines)
    (hm : 0 ≤ w.ed.marks m) (h : w.perform exec fuel c = running w') :
    w'.ed.marks m = w.ed.marks m ↔ KeepsMark c w.toState m := by
  cases c with
  | global isG range pat inner => cases hglobal
  | appendLine addr => exact mark_appendLine_iff hin hm h
  | insertLine addr => exact mark_insertLine_iff hin hm h
  | changeRange range => exact mark_changeRange_iff hin hm h
  | deleteRange range => exact mark_deleteRange_iff hin hm h
  | moveRange range dest => exact mark_moveRange_iff hin.1 hin.2 hm h
  | copyRange range dest => exact mark_copyRange_iff hin.1 hin.2 hm h
  | readFileAtAddress addr name => exact mark_readFileAtAddress_iff hin.1 hm h
  | joinRange range =>
    refine iff_of_true ?_ trivial
    rcases joinRange_running h with ⟨-, rfl⟩ | ⟨-, -, rfl⟩ | ⟨-, -, first, -, rfl⟩
    · rfl
    · rfl
    · rfl
  | substituteRange range pattern replacement global =>
    refine iff_of_true ?_ trivial
    rcases substituteRange_running h with ⟨msg, rfl⟩ | ⟨-, lines, -, rfl⟩
    · rfl
    · rfl
  | mark letter addr =>
    obtain rfl := Outcome.running.inj h
    change Function.update w.ed.marks letter addr m = w.ed.marks m ↔ (letter = m → addr = w.ed.marks m)
    by_cases hletter : letter = m
    · rw [hletter, Function.update_self]
      exact ⟨fun heq _ => heq, fun hall => hall rfl⟩
    · rw [Function.update_of_ne (Ne.symm hletter)]
      exact iff_of_true rfl fun heq => absurd heq hletter
  | undo =>
    refine iff_of_true ?_ trivial
    rcases undo_running h with ⟨-, rfl⟩ | ⟨-, rfl⟩
    · rfl
    · rfl
  | forcedEditFile filename =>
    rw [mark_forcedEditFile h]
    exact iff_of_false (by omega) id
  | editFile filename =>
    rcases editFile_running h with ⟨hdirty, rfl⟩ | ⟨hclean, h⟩
    · exact iff_of_true rfl hdirty
    · rw [mark_forcedEditFile h]
      refine iff_of_false (by omega) fun hdirty => ?_
      exact absurd (hclean.symm.trans hdirty) Bool.noConfusion
  | writeFile filename =>
    refine iff_of_true ?_ trivial
    rcases writeFile_running h with ⟨msg, rfl⟩ | ⟨files, name, out, rfl⟩
    · rfl
    · rfl
  | _ => exact iff_of_true (congrFun (marks_perform_plain rfl (fun _ _ => Call.noConfusion) h) m) trivial

end World

/-! ## The calls of a global command -/

def Event.touch? : Event → Option (Call × State)
  | .call c s => if c.touchesSnapshot s.ed then some (c, s) else none
  | _ => none

/-- The last call that touches the snapshot, with the state it is made in. -/
def lastTouch (es : List Event) : Option (Call × State) := (es.filterMap Event.touch?).getLast?

theorem lastTouch_append (es es' : List Event) :
    lastTouch (es ++ es') = (lastTouch es').or (lastTouch es) := by
  unfold lastTouch
  rw [List.filterMap_append, List.getLast?_append]

theorem touch?_of_not_isCall {e : Event} (he : e.isCall = false) : e.touch? = none := by
  cases e with
  | call c s => cases he
  | _ => rfl

theorem lastTouch_of_quiet {es : List Event} (hes : ∀ e ∈ es, e.isCall = false) : lastTouch es = none := by
  unfold lastTouch
  rw [List.filterMap_eq_nil_iff.mpr fun e he => touch?_of_not_isCall (hes e he), List.getLast?_nil]

theorem lastTouch_singleton (c : Call) (s : State) :
    lastTouch [.call c s] = if c.touchesSnapshot s.ed then some (c, s) else none := by
  unfold lastTouch
  by_cases htouch : c.touchesSnapshot s.ed = true
  · simp [Event.touch?, htouch]
  · simp [Event.touch?, htouch]

/-- What the calls among the events between two worlds say about the second one. -/
structure Traced (w w' : World) (es : List Event) : Prop where
  log : w'.log = w.log ++ es
  untouched : lastTouch es = none → w'.ed.lines = w.ed.lines ∧ w'.ed.snapshot? = w.ed.snapshot?
  touched : ∀ c s, lastTouch es = some (c, s) → w'.ed.snapshot? = c.snapshotAfter s.ed
  mark : ∀ m, 0 ≤ w.ed.marks m → (∀ c s, Event.call c s ∈ es → KeepsMark c s m) →
    w'.ed.marks m = w.ed.marks m

namespace Traced

variable {w w1 w' : World} {es es1 : List Event}

/-- Events that are no calls, in a world whose lines, snapshot and marks stay. -/
theorem of_quiet (hlog : w'.log = w.log ++ es) (hes : ∀ e ∈ es, e.isCall = false)
    (hlines : w'.ed.lines = w.ed.lines) (hsnapshot : w'.ed.snapshot? = w.ed.snapshot?)
    (hmarks : w'.ed.marks = w.ed.marks) : Traced w w' es where
  log := hlog
  untouched := fun _ => ⟨hlines, hsnapshot⟩
  touched := fun c s hlast => by
    rw [lastTouch_of_quiet hes] at hlast
    cases hlast
  mark := fun m _ _ => congrFun hmarks m

theorem trans (h : Traced w w1 es) (h1 : Traced w1 w' es1) : Traced w w' (es ++ es1) where
  log := by rw [h1.log, h.log, List.append_assoc]
  untouched := fun hlast => by
    rw [lastTouch_append, Option.or_eq_none_iff] at hlast
    obtain ⟨hlines, hsnapshot⟩ := h.untouched hlast.2
    obtain ⟨hlines1, hsnapshot1⟩ := h1.untouched hlast.1
    exact ⟨hlines1.trans hlines, hsnapshot1.trans hsnapshot⟩
  touched := fun c s hlast => by
    rw [lastTouch_append] at hlast
    cases hlast1 : lastTouch es1 with
    | none =>
      rw [hlast1, Option.none_or] at hlast
      rw [(h1.untouched hlast1).2]
      exact h.touched c s hlast
    | some x =>
      rw [hlast1, Option.some_or] at hlast
      exact h1.touched c s (hlast1.trans hlast)
  mark := fun m h0 hkeeps => by
    have hm : w1.ed.marks m = w.ed.marks m :=
      h.mark m h0 fun c s hc => hkeeps c s (List.mem_append_left _ hc)
    rw [h1.mark m (hm ▸ h0) fun c s hc => hkeeps c s (List.mem_append_right _ hc), hm]

end Traced

/-- A call that is no global command. -/
theorem Traced.of_perform {exec : CString → World → Outcome} {fuel : ℕ} {c : Call} {w w' : World}
    (hglobal : c.isGlobal = false) (hin : c.InBounds w.ed.numLines)
    (h : (w.record (.call c w.toState)).perform exec fuel c = running w') :
    ∃ es, Traced w w' (.call c w.toState :: es) := by
  obtain ⟨es, hlog, hes⟩ := World.quiet_perform hglobal h
  have hlast : lastTouch (.call c w.toState :: es) =
      if c.touchesSnapshot w.ed then some (c, w.toState) else none := by
    have happend := lastTouch_append [.call c w.toState] es
    rwa [lastTouch_of_quiet hes, Option.none_or, lastTouch_singleton] at happend
  refine ⟨es, ?_, fun hnone => ?_, fun c' s hsome => ?_, fun m h0 hkeeps => ?_⟩
  · exact hlog.trans (List.append_assoc _ _ _)
  · have htouch : c.touchesSnapshot w.ed = false := by
      by_contra htouch
      rw [hlast, if_pos (Bool.eq_true_of_not_eq_false htouch)] at hnone
      cases hnone
    exact World.lines_of_not_touches (w := w.record (.call c w.toState)) hglobal htouch h
  · rw [hlast] at hsome
    split_ifs at hsome with htouch
    obtain ⟨rfl, rfl⟩ := Prod.mk.inj (Option.some.inj hsome)
    exact World.snapshot?_of_touches (w := w.record (.call c w.toState)) hin htouch h
  · have hiff := World.mark_perform_iff (w := w.record (.call c w.toState)) hglobal hin h0 h
    exact hiff.mpr (hkeeps c w.toState List.mem_cons_self)

/-- A global command is recorded before its turns. -/
theorem Traced.of_global {c : Call} {w : World} (hglobal : c.isGlobal = true) :
    Traced w (w.record (.call c w.toState)) [.call c w.toState] := by
  have htouch : c.touchesSnapshot w.ed = false := by
    cases c with
    | global isG range pat inner => rfl
    | _ => cases hglobal
  have hlast : lastTouch [.call c w.toState] = none := by
    rw [lastTouch_singleton, htouch]
    exact if_neg Bool.noConfusion
  refine ⟨rfl, fun _ => ⟨rfl, rfl⟩, fun c' s hsome => ?_, fun m _ _ => rfl⟩
  rw [hlast] at hsome
  cases hsome

theorem traced_rule : Rule (fun w w' => ∃ es, Traced w w' es) (fun _ _ => True) where
  refl := fun w => ⟨[], .of_quiet (List.append_nil _).symm (by simp) rfl rfl rfl⟩
  trans := fun h h1 => by
    obtain ⟨es, h⟩ := h
    obtain ⟨es1, h1⟩ := h1
    exact ⟨es ++ es1, h.trans h1⟩
  exit := fun _ _ => trivial
  call := fun {exec fuel cmd w w'} hglobal hrun => by
    obtain ⟨es, h⟩ := Traced.of_perform hglobal (w.ed.decode_inBounds cmd) hrun
    exact ⟨_, h⟩
  quit := fun _ => trivial
  global := fun hglobal => ⟨_, .of_global hglobal⟩
  readList := fun w => by
    obtain ⟨es, hlog, hes⟩ := World.quiet_readList w
    exact ⟨es, .of_quiet hlog hes rfl rfl rfl⟩
  target := fun _ _ => ⟨[], .of_quiet (List.append_nil _).symm (by simp) rfl rfl rfl⟩
  restored := fun bytes h => by
    obtain ⟨es, h⟩ := h
    exact ⟨es, h.log, h.untouched, h.touched, h.mark⟩
  replaced := fun _ _ => trivial

/-! ## Taking back -/

/-- In a buffer without a current line `u` is refused. -/
theorem decode_u (ed : Editor) :
    ed.decode (.lit "u") = if ed.currentLine < 0 then .setError .invalidAddress else .undo := rfl

/-- When the lines and the current line come back after a command that is no global command. -/
def BringsBack (c : Call) (s : State) : Prop :=
  match c with
  | .changeRange range => range.count = 0 ∧ s.ed.currentLine = range.start
  -- In an empty buffer `u` is refused.
  | .deleteRange range => range.count < s.ed.numLines
  -- So it is where a line without a byte has been inserted into one.
  | .readFileAtAddress _ name =>
    ∀ bytes ∈ s.files.content name, byteCount (fileLines bytes) ≠ 0 ∨ 0 ≤ s.ed.currentLine
  | _ => True

namespace World

variable {w w' w'' : World}

theorem executeCommand_u (n : ℕ) (h0 : 0 ≤ w.ed.currentLine) :
    executeCommand (n + 1) (.lit "u") w = (w.record (.call .undo w.toState)).undo := by
  have hdecode : w.ed.decode (.lit "u") = .undo := (decode_u w.ed).trans (if_neg (not_lt.mpr h0))
  unfold executeCommand
  rw [hdecode]
  rfl

theorem executeCommand_u_of_neg (n : ℕ) (hneg : w.ed.currentLine < 0) :
    executeCommand (n + 1) (.lit "u") w =
      running ((w.record (.call (.setError .invalidAddress) w.toState)).setError .invalidAddress) := by
  have hdecode : w.ed.decode (.lit "u") = .setError .invalidAddress := (decode_u w.ed).trans (if_pos hneg)
  unfold executeCommand
  rw [hdecode]
  rfl

theorem named_iff {m : Fin 26} : w.ed.Named m ↔ ∃ l, Cells.get? w.ed.lines (w.ed.marks m) = some l := by
  rw [← Option.isSome_iff_exists, ← Option.ne_none_iff_isSome, Ne, Cells.get?_eq_none_iff]
  unfold Editor.Named Editor.numLines
  omega

/-- The buffer that has changed is restored by its snapshot, if that is the one of before. -/
theorem restored_iff_snapshot? (h : Distinct w) (hchanged : w'.ed.lines ≠ w.ed.lines)
    (hundo : w'.undo = running w'') :
    w.Restored w'' ↔ w'.ed.snapshot? = some (w.ed.lines, w.ed.currentLine) ∧
      ∀ m, w.ed.Named m → w'.ed.marks m = w.ed.marks m := by
  rcases undo_running hundo with ⟨hvalid, rfl⟩ | ⟨hvalid, rfl⟩
  · apply iff_of_false
    · exact fun hrestored => hchanged hrestored.1
    · rintro ⟨hsnapshot, -⟩
      unfold Editor.snapshot? at hsnapshot
      rw [hvalid] at hsnapshot
      cases hsnapshot
  · have hsnapshot : w'.ed.snapshot? = some (w'.ed.undoLines, w'.ed.undoCurrentLine) := if_pos hvalid
    rw [hsnapshot, Option.some.injEq, Prod.mk.injEq]
    change (w'.ed.undoLines = w.ed.lines ∧ w'.ed.undoCurrentLine = w.ed.currentLine ∧
      ∀ m l, Cells.get? w.ed.lines (w.ed.marks m) = some l → Cells.get? w'.ed.undoLines (w'.ed.marks m) = some l) ↔ _
    rw [← and_assoc]
    refine and_congr_right fun hboth => forall_congr' fun m => ?_
    rw [hboth.1, named_iff]
    constructor
    · rintro hnames ⟨l, hl⟩
      obtain ⟨j, hj, -, hget⟩ := get?_eq_some hl
      obtain ⟨j', hj', -, hget'⟩ := get?_eq_some (hnames l hl)
      rw [hj, hj', h.lines.index_unique hget' hget rfl]
    · intro hsame l hl
      rw [hsame ⟨l, hl⟩]
      exact hl

/-- What `u` does after a command that has changed the buffer. -/
theorem restored_u_iff (h : Distinct w) (hchanged : w'.ed.lines ≠ w.ed.lines) (n : ℕ) :
    ∃ w'', executeCommand (n + 1) (.lit "u") w' = running w'' ∧
      (w.Restored w'' ↔ 0 ≤ w'.ed.currentLine ∧
        w'.ed.snapshot? = some (w.ed.lines, w.ed.currentLine) ∧
          ∀ m, w.ed.Named m → w'.ed.marks m = w.ed.marks m) := by
  rcases lt_or_ge w'.ed.currentLine 0 with hneg | h0
  · refine ⟨_, executeCommand_u_of_neg n hneg, iff_of_false ?_ ?_⟩
    · exact fun hrestored => hchanged hrestored.1
    · exact fun hor => absurd hor.1 (not_le.mpr hneg)
  · have hundo : ∃ w'', (w'.record (.call .undo w'.toState)).undo = running w'' := by
      unfold undo
      split_ifs
      · exact ⟨_, rfl⟩
      · exact ⟨_, rfl⟩
    obtain ⟨w'', hw''⟩ := hundo
    refine ⟨w'', (executeCommand_u n h0).trans hw'', ?_⟩
    have hchanged' : (w'.record (.call .undo w'.toState)).ed.lines ≠ w.ed.lines := hchanged
    have hiff := restored_iff_snapshot? h hchanged' hw''
    exact hiff.trans (and_iff_right h0).symm

section

variable {exec : CString → World → Outcome} {fuel : ℕ} {range : AddressRange}

theorem bringsBack_deleteRange_iff (hin : range.outside w.ed.numLines = false)
    (h : w.deleteRange range = running w') :
    0 ≤ w'.ed.currentLine ↔ BringsBack (.deleteRange range) w.toState := by
  rcases deleteRange_running h with ⟨hout, -⟩ | ⟨-, hcount, lines, hlines, rfl⟩
  · rw [hin] at hout
    cases hout
  · obtain ⟨hs0, hstop0, hs, hstop⟩ := AddressRange.outside_eq_false_iff.mp hin
    have hn : w.ed.numLines = w.ed.lines.length := rfl
    have hk : range.count = range.stop - range.start + 1 := rfl
    have hlen : lines.length = w.ed.lines.length - range.count.toNat := by
      rw [hlines]
      exact length_without (by omega)
    change 0 ≤ (if lines = [] then -1 else if range.start < lines.length then range.start else
      (lines.length : ℤ) - 1) ↔ range.count < w.ed.numLines
    split_ifs with hnil
    · rw [hnil] at hlen
      simp only [List.length_nil] at hlen
      omega
    · omega
    · have hpos := List.length_pos_iff.mpr hnil
      omega

theorem bringsBack_changeRange_iff (hin : range.outside w.ed.numLines = false)
    (h : w.changeRange range = running w') :
    (0 ≤ w'.ed.currentLine ∧ w'.ed.snapshot? = some (w.ed.lines, w.ed.currentLine)) ↔
      BringsBack (.changeRange range) w.toState := by
  rw [snapshot?_changeRange hin h, Option.some.injEq]
  rcases changeRange_running h with ⟨hout, -⟩ | ⟨-, w1, hdelete, hinsert⟩
  · rw [hin] at hout
    cases hout
  · have h0 : 0 ≤ w'.ed.currentLine := by
      have hpos : 0 ≤ max (min range.start w1.ed.numLines) 0 := le_max_right _ _
      rcases insertLine_running hpos hinsert with ⟨-, rfl⟩ | ⟨htexts, -, rfl⟩
      · exact hpos
      · have hlen := List.length_pos_iff.mpr htexts
        dsimp only
        omega
    have hcount : 0 ≤ range.count := by
      rcases deleteRange_running hdelete with ⟨hout, -⟩ | ⟨-, hcount, -⟩
      · rw [hin] at hout
        cases hout
      · exact hcount
    obtain ⟨hs0, hstop0, hs, hstop⟩ := AddressRange.outside_eq_false_iff.mp hin
    have hn : w.ed.numLines = w.ed.lines.length := rfl
    have hk : range.count = range.stop - range.start + 1 := rfl
    rw [and_iff_right h0]
    unfold Editor.afterDelete
    constructor
    · intro heq
      obtain ⟨hlines, hcurrent⟩ := Prod.mk.inj heq
      have hlen := congrArg List.length hlines
      rw [length_without (by omega)] at hlen
      have hzero : range.count = 0 := by omega
      refine ⟨hzero, ?_⟩
      rw [hlines, if_neg (List.length_pos_iff.mp (by omega)), if_pos (by omega)] at hcurrent
      exact hcurrent.symm
    · rintro ⟨hzero, hcurrent⟩
      have hsame : without w.ed.lines range.start.toNat range.count.toNat = w.ed.lines := by
        rw [hzero]
        exact without_zero _ _
      have hne : w.ed.lines ≠ [] := List.length_pos_iff.mp (by omega)
      dsimp only
      rw [hsame, if_neg hne, if_pos (by omega)]
      exact congrArg (Prod.mk w.ed.lines) hcurrent.symm

theorem bringsBack_readFileAtAddress_iff {addr : ℤ} {name : CString} (hadd : -1 ≤ addr)
    (hchanged : w'.ed.lines ≠ w.ed.lines) (h : w.readFileAtAddress addr name = running w') :
    0 ≤ w'.ed.currentLine ↔ BringsBack (.readFileAtAddress addr name) w.toState := by
  rcases readFileAtAddress_running hadd h with ⟨-, rfl⟩ | ⟨bytes, hbytes, -, lines, -, rfl⟩
  · exact absurd rfl hchanged
  · have hcond : BringsBack (.readFileAtAddress addr name) w.toState ↔
        byteCount (fileLines bytes) ≠ 0 ∨ 0 ≤ w.ed.currentLine :=
      ⟨fun hall => hall bytes hbytes, fun hor bytes' hbytes' => by
        obtain rfl := Option.some.inj (hbytes.symm.trans hbytes')
        exact hor⟩
    rw [hcond]
    split_ifs with hcount
    · have hlen : (fileLines bytes).length ≠ 0 := by
        intro hnil
        rw [List.length_eq_zero_iff.mp hnil] at hcount
        exact absurd hcount (by decide)
      refine iff_of_true ?_ (.inl hcount.ne')
      change 0 ≤ addr + (fileLines bytes).length
      omega
    · exact ⟨.inr, fun hor => hor.resolve_left fun hne => hne (by omega)⟩

/-- After the other edits, if they have changed the buffer, there is a current line. -/
theorem current_of_edits {c : Call} (hc : c.edits = true) (hin : c.InBounds w.ed.numLines)
    (hchanged : w'.ed.lines ≠ w.ed.lines) (hdelete : ∀ range, c ≠ .deleteRange range)
    (hread : ∀ addr name, c ≠ .readFileAtAddress addr name) (hchange : ∀ range, c ≠ .changeRange range)
    (h : w.perform exec fuel c = running w') : 0 ≤ w'.ed.currentLine := by
  cases c with
  | appendLine addr =>
    rcases appendLine_running hin h with ⟨-, rfl⟩ | ⟨htexts, -, rfl⟩
    · exact absurd rfl hchanged
    · have hlen := List.length_pos_iff.mpr htexts
      have hle : -1 ≤ addr := hin
      dsimp only
      omega
  | insertLine addr =>
    rcases insertLine_running hin h with ⟨-, rfl⟩ | ⟨htexts, -, rfl⟩
    · exact absurd rfl hchanged
    · have hlen := List.length_pos_iff.mpr htexts
      have hle : 0 ≤ addr := hin
      dsimp only
      omega
  | changeRange range => exact absurd rfl (hchange range)
  | deleteRange range => exact absurd rfl (hdelete range)
  | joinRange range =>
    rcases joinRange_running h with ⟨-, rfl⟩ | ⟨-, -, rfl⟩ | ⟨hrange, -, first, -, rfl⟩
    · exact absurd rfl hchanged
    · exact absurd rfl hchanged
    · exact (AddressRange.outside_eq_false_iff.mp hrange).1
  | moveRange range dest =>
    rcases moveRange_running h with ⟨m, rfl⟩ | ⟨hrange, hcount, h0, -, -, rfl⟩
    · exact absurd rfl hchanged
    · obtain ⟨hs0, -⟩ := AddressRange.outside_eq_false_iff.mp hrange
      have hk : range.count = range.stop - range.start + 1 := rfl
      change 0 ≤ (if dest > range.stop then dest - range.count else dest) + range.count
      split_ifs <;> omega
  | copyRange range dest =>
    rcases copyRange_running h with ⟨-, rfl⟩ | ⟨hrange, h0, lines, hcases, rfl⟩
    · exact absurd rfl hchanged
    · obtain ⟨hs0, hstop0, hs, -⟩ := AddressRange.outside_eq_false_iff.mp hrange
      have hk : range.count = range.stop - range.start + 1 := rfl
      change 0 ≤ dest + range.count
      rcases hcases with ⟨hcount, -⟩ | ⟨-, hle, -⟩
      · omega
      · omega
  | readFileAtAddress addr name => exact absurd rfl (hread addr name)
  | substituteRange range pattern replacement global =>
    rcases substituteRange_running h with ⟨m, rfl⟩ | ⟨hrange, lines, -, rfl⟩
    · exact absurd rfl hchanged
    · exact (AddressRange.outside_eq_false_iff.mp hrange).2.1
  | _ => cases hc

/-- When the lines and the current line come back. -/
theorem bringsBack_iff {c : Call} (hc : c.edits = true) (hin : c.InBounds w.ed.numLines)
    (hchanged : w'.ed.lines ≠ w.ed.lines) (h : w.perform exec fuel c = running w') :
    (0 ≤ w'.ed.currentLine ∧ w'.ed.snapshot? = some (w.ed.lines, w.ed.currentLine)) ↔
      BringsBack c w.toState := by
  cases c with
  | changeRange range => exact bringsBack_changeRange_iff hin h
  | deleteRange range =>
    rw [snapshot?_deleteRange h, and_iff_left rfl]
    exact bringsBack_deleteRange_iff hin h
  | readFileAtAddress addr name =>
    rw [snapshot?_readFileAtAddress hin.1 h, and_iff_left rfl]
    exact bringsBack_readFileAtAddress_iff hin.1 hchanged h
  | appendLine | insertLine | joinRange | moveRange | copyRange | substituteRange =>
    have h0 := current_of_edits hc hin hchanged (fun _ => Call.noConfusion) (fun _ _ => Call.noConfusion)
      (fun _ => Call.noConfusion) h
    exact iff_of_true ⟨h0, snapshot?_of_touches hin hc h⟩ trivial
  | _ => cases hc

end

end World

/-- The last call among the events that touches the snapshot leaves the lines and the current line of `w`
in it. -/
def LastSnapshot (w : World) (es : List Event) : Prop :=
  ∃ c s, lastTouch es = some (c, s) ∧ c.snapshotAfter s.ed = some (w.ed.lines, w.ed.currentLine)

theorem Traced.lastSnapshot_iff {w w' : World} {es : List Event} (h : Traced w w' es)
    (hchanged : w'.ed.lines ≠ w.ed.lines) :
    w'.ed.snapshot? = some (w.ed.lines, w.ed.currentLine) ↔ LastSnapshot w es := by
  constructor
  · intro hsnapshot
    cases hlast : lastTouch es with
    | none => exact absurd (h.untouched hlast).1 hchanged
    | some x => exact ⟨x.1, x.2, hlast, (h.touched x.1 x.2 hlast).symm.trans hsnapshot⟩
  · rintro ⟨c, s, hlast, hsnapshot⟩
    exact (h.touched c s hlast).trans hsnapshot

/-- `u` after a command that has changed the buffer: exactly when it takes back one that is no global
command, and for `g` and `v` what that needs, which is enough where no call moves a mark that was set. -/
theorem restored_iff {fuel : ℕ} {cmd : CString} {w w' : World} (hw : w.Reached)
    (hrun : executeCommand fuel cmd w = running w') (hchanged : w'.ed.lines ≠ w.ed.lines) (n : ℕ) :
    ∃ w'', executeCommand (n + 1) (.lit "u") w' = running w'' ∧
      ((w.ed.decode cmd).edits = true → (w.Restored w'' ↔
        BringsBack (w.ed.decode cmd) w.toState ∧
          ∀ m, w.ed.Named m → KeepsMark (w.ed.decode cmd) w.toState m)) ∧
      ((w.ed.decode cmd).isGlobal = true → ∀ es, w'.log = w.log ++ es →
        (w.Restored w'' → 0 ≤ w'.ed.currentLine ∧ LastSnapshot w es) ∧
          ((∀ m, w.ed.Named m → ∀ c s, Event.call c s ∈ es → KeepsMark c s m) →
            0 ≤ w'.ed.currentLine ∧ LastSnapshot w es → w.Restored w'')) := by
  obtain ⟨w'', hundo, hiff⟩ := World.restored_u_iff hw.distinct hchanged n
  refine ⟨w'', hundo, fun hc => ?_, fun _ es hlog => ?_⟩
  · cases fuel with
    | zero => cases hrun
    | succ fuel =>
      have hglobal : (w.ed.decode cmd).isGlobal = false := by
        cases hcall : w.ed.decode cmd with
        | global isG range pat inner =>
          rw [hcall] at hc
          cases hc
        | _ => rfl
      have hin := w.ed.decode_inBounds cmd
      have hbrings := World.bringsBack_iff (w := w.record (.call (w.ed.decode cmd) w.toState)) hc hin hchanged hrun
      have hmark (m : Fin 26) (hm : w.ed.Named m) :=
        World.mark_perform_iff (w := w.record (.call (w.ed.decode cmd) w.toState)) hglobal hin hm.1 hrun
      rw [hiff, ← and_assoc]
      exact and_congr hbrings (forall₂_congr hmark)
  · obtain ⟨es', htraced⟩ := (traced_rule.rel_executeCommand fuel cmd w).running w' hrun
    obtain rfl := List.append_cancel_left (htraced.log.symm.trans hlog)
    rw [hiff, htraced.lastSnapshot_iff hchanged, ← and_assoc]
    exact ⟨fun h => h.1, fun hkeeps h => ⟨h, fun m hm => htraced.mark m hm.1 (hkeeps m hm)⟩⟩

/-- The last of three lines is deleted. -/
theorem restored_iff_delete : ∃ w w' w'' : World, executeCommand 2 (.lit "3d") w = running w' ∧
    executeCommand 1 (.lit "u") w' = running w'' ∧ (w.Restored w'' ↔
      BringsBack (w.ed.decode (.lit "3d")) w.toState ∧
        ∀ m, w.ed.Named m → KeepsMark (w.ed.decode (.lit "3d")) w.toState m) := by
  have hrun : (executeCommand 2 (.lit "a") threeLinesTyped).run?.map (fun w =>
      ((w.ed.decode (.lit "3d")).edits, w.ed.lines.length,
        (executeCommand 2 (.lit "3d") w).run?.map fun w' => w'.ed.lines.length)) =
        some (true, 3, some 2) := by
    decide
  obtain ⟨w, hw, hstate⟩ := Option.map_eq_some_iff.mp hrun
  obtain ⟨hedits, hstate⟩ := Prod.mk.inj hstate
  obtain ⟨hthree, hstate⟩ := Prod.mk.inj hstate
  obtain ⟨w', hw', htwo⟩ := Option.map_eq_some_iff.mp hstate
  have hreached := threeLinesTyped_reached.execute (run?_eq_some hw)
  have hchanged : w'.ed.lines ≠ w.ed.lines := by
    intro hsame
    rw [hsame, hthree] at htwo
    cases htwo
  obtain ⟨w'', hundo, hiff, -⟩ := restored_iff hreached (run?_eq_some hw') hchanged 0
  exact ⟨w, w', w'', run?_eq_some hw', hundo, hiff hedits⟩

/-- After `1c` the first line is gone for good. -/
theorem not_restored : ∃ w w' w'' : World, w.Reached ∧ (w.ed.decode (.lit "1c")).edits = true ∧
    executeCommand 2 (.lit "1c") w = running w' ∧ w'.ed.lines ≠ w.ed.lines ∧
      executeCommand 2 (.lit "u") w' = running w'' ∧ ¬ w.Restored w'' := by
  have hrun : (executeCommand 2 (.lit "a") threeLinesTyped).run?.map (fun w =>
      (w.ed.texts, (w.ed.decode (.lit "1c")).edits,
        (executeCommand 2 (.lit "1c") { w with input := ⟨asciiBytes "q\n.\n", false⟩ }).run?.map fun w' =>
          (w'.ed.texts, (executeCommand 2 (.lit "u") w').run?.map fun w'' => w''.ed.texts))) =
        some ([.lit "x", .lit "y", .lit "z"], true,
          some ([.lit "q", .lit "y", .lit "z"], some [.lit "y", .lit "z"])) := by
    decide
  obtain ⟨w, hw, hstate⟩ := Option.map_eq_some_iff.mp hrun
  obtain ⟨hthree, hstate⟩ := Prod.mk.inj hstate
  obtain ⟨hedits, hstate⟩ := Prod.mk.inj hstate
  obtain ⟨w', hw', hstate⟩ := Option.map_eq_some_iff.mp hstate
  obtain ⟨hchanged, hstate⟩ := Prod.mk.inj hstate
  obtain ⟨w'', hw'', htwo⟩ := Option.map_eq_some_iff.mp hstate
  refine ⟨{ w with input := ⟨asciiBytes "q\n.\n", false⟩ }, w', w'',
    .read _ _ (threeLinesTyped_reached.execute (run?_eq_some hw)), hedits, run?_eq_some hw', fun hsame => ?_,
    run?_eq_some hw'', fun hrestored => ?_⟩
  · have htexts := congrArg (List.map Line.text) hsame
    change w'.ed.texts = w.ed.texts at htexts
    rw [hchanged, hthree] at htexts
    exact absurd htexts (by decide)
  · have htexts := congrArg (List.map Line.text) hrestored.1
    change w''.ed.texts = w.ed.texts at htexts
    rw [htwo, hthree] at htexts
    exact absurd htexts (by decide)

end ValidcTools.Ed
