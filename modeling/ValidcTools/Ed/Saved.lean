import ValidcTools.Ed.Runs

/-! The dirty flag, and the lines that were last saved or loaded. -/
namespace ValidcTools.Ed
open Outcome

def Event.settled? : Event → Option (List CString)
  | .saved lines => some lines
  | .loaded lines => some lines
  | _ => none

/-- The lines last written by `write_file` or read by `load_file`; none at the start. -/
def settled (log : List Event) : List CString := (log.filterMap Event.settled?).getLastD []

theorem settled_append {log es : List Event} (h : ∀ e ∈ es, e.settled? = none) :
    settled (log ++ es) = settled log := by
  have hnil : es.filterMap Event.settled? = [] := List.filterMap_eq_nil_iff.mpr h
  unfold settled
  rw [List.filterMap_append, hnil, List.append_nil]

theorem settled_append_singleton {log : List Event} {e : Event} (h : e.settled? = none) :
    settled (log ++ [e]) = settled log :=
  settled_append fun _ he' => List.mem_singleton.mp he' ▸ h

theorem settled_append_pair {log : List Event} (e e' : Event) {lines : List CString}
    (he : e.settled? = none) (he' : e'.settled? = some lines) : settled (log ++ [e, e']) = lines := by
  unfold settled
  simp [he, he']

theorem settled_of_printed {log log' : List Event} (h : Printed log log') : settled log' = settled log := by
  obtain ⟨es, rfl, hout⟩ := h
  apply settled_append
  intro e he
  have hkind := hout e he
  cases e with
  | print bytes => rfl
  | error m verbose => rfl
  | _ => cases hkind

namespace World

/-- A clear flag says that the buffer is what was last saved or loaded. -/
def Truthful (w : World) : Prop := w.ed.dirty = false → w.ed.texts = settled w.log

theorem settled_readText (w : World) : settled w.readText.2.log = settled w.log := by
  apply settled_append
  intro e he
  obtain ⟨raw, -, rfl⟩ := List.mem_map.mp he
  rfl

theorem settled_readList (w : World) : settled w.readList.2.log = settled w.log := by
  apply settled_append
  intro e he
  obtain ⟨raw, -, rfl⟩ := List.mem_map.mp he
  rfl

end World

/-- The calls that keep the flag true. `e` and `E` clear the buffer before they open the file; `r` does
not set the flag when it has read no byte, which may be a line that a NUL begins. -/
def KeepsFlag (before : List Event) (c : Call) (s : State) : Prop :=
  match c with
  | .editFile filename =>
    s.ed.dirty = true ∨ settled before = [] ∨ ∀ name, filename = some name → s.files.content name ≠ none
  | .forcedEditFile filename =>
    settled before = [] ∨ ∀ name, filename = some name → s.files.content name ≠ none
  | .readFileAtAddress _ name =>
    s.ed.dirty = true ∨
      ∀ bytes, s.files.content name = some bytes → fileLines bytes = [] ∨ 0 < byteCount (fileLines bytes)
  | _ => True

namespace World

variable {w w' : World}

theorem truthful_of_dirty (h : w.ed.dirty = true) : w.Truthful :=
  fun hclean => absurd (h.symm.trans hclean) (by simp)

/-- Nothing has happened to the lines, the flag and the saved lines. -/
theorem Truthful.of_same (h : w.Truthful) (hlines : w'.ed.lines = w.ed.lines)
    (hdirty : w'.ed.dirty = w.ed.dirty) (hlog : settled w'.log = settled w.log) : w'.Truthful := by
  intro hclean
  unfold Editor.texts
  rw [hlines, hlog]
  exact h (hdirty.symm.trans hclean)

theorem Truthful.setError (h : w.Truthful) (m : Message) : (w.setError m).Truthful :=
  h.of_same rfl rfl (settled_append_singleton rfl)

theorem truthful_insertLine {addr : ℤ} (h0 : 0 ≤ addr) (h : w.Truthful)
    (hrun : w.insertLine addr = running w') : w'.Truthful := by
  rcases insertLine_running h0 hrun with ⟨-, rfl⟩ | ⟨-, -, rfl⟩
  · exact h.of_same rfl rfl w.settled_readText
  · exact truthful_of_dirty rfl

theorem truthful_deleteRange {range : AddressRange} (h : w.Truthful)
    (hrun : w.deleteRange range = running w') : w'.Truthful := by
  rcases deleteRange_running hrun with ⟨-, rfl⟩ | ⟨-, -, lines, -, rfl⟩
  · exact Truthful.setError (w := w.prepareUndo) h _
  · exact truthful_of_dirty rfl

/-- After a load the buffer is what was loaded; where none happens it is empty. -/
theorem truthful_loadFile {name : CString} (hlines : w.ed.lines = [])
    (hkeeps : settled w.log = [] ∨ w.files.content name ≠ none)
    (hrun : w.loadFile name = running w') : w'.Truthful := by
  rcases loadFile_running hrun with ⟨hcontent, rfl⟩ | ⟨bytes, -, lines, out, -, rfl⟩
  · intro _
    have hsettled : settled w.log = [] := hkeeps.resolve_right fun hne => hne hcontent
    have hlog : settled (w.setError .cannotOpenFile).log = settled w.log := settled_append_singleton rfl
    have htexts : (w.setError .cannotOpenFile).ed.texts = [] := congrArg (List.map Line.text) hlines
    rw [hlog, hsettled, htexts]
  · intro _
    exact (settled_append_pair (.print out) (.loaded (lines.map Line.text)) rfl rfl).symm

theorem truthful_forcedEditFile {filename : Option CString}
    (hkeeps : settled w.log = [] ∨ ∀ name, filename = some name → w.files.content name ≠ none)
    (hrun : w.forcedEditFile filename = running w') : w'.Truthful := by
  obtain ⟨name, hname, hrun⟩ := forcedEditFile_running hrun
  exact truthful_loadFile (w := { w with ed := {} }) rfl (hkeeps.imp_right fun h => h name hname) hrun

theorem truthful_readFileAtAddress {addr : ℤ} {name : CString} (h0 : -1 ≤ addr) (h : w.Truthful)
    (hkeeps : w.ed.dirty = true ∨ ∀ bytes, w.files.content name = some bytes →
      fileLines bytes = [] ∨ 0 < byteCount (fileLines bytes))
    (hrun : w.readFileAtAddress addr name = running w') : w'.Truthful := by
  rcases readFileAtAddress_running h0 hrun with ⟨-, rfl⟩ | ⟨bytes, hbytes, -, lines, hlines, rfl⟩
  · exact Truthful.setError (w := w.prepareUndo) h _
  · split_ifs with hcount
    · exact truthful_of_dirty rfl
    · rcases hkeeps with hdirty | hbytes'
      · exact truthful_of_dirty hdirty
      · have hnil : fileLines bytes = [] := (hbytes' bytes hbytes).resolve_right hcount
        have hsame : lines = w.ed.lines := by
          rw [hlines, hnil]
          exact insertedAt_nil _ _
        exact h.of_same hsame rfl (settled_append_singleton rfl)

/-- One call keeps the flag true. -/
theorem truthful_perform {exec : CString → World → Outcome} {fuel : ℕ} {c : Call}
    (hglobal : c.isGlobal = false) (hbounds : c.InBounds w.ed.numLines)
    (hkeeps : KeepsFlag w.log c w.toState) (h : w.Truthful)
    (hrun : w.perform exec fuel c = running w') : w'.Truthful := by
  by_cases hplain : c.plain = true
  · have hstep := perform_plain hplain hrun
    exact h.of_same hstep.lines hstep.dirty (settled_of_printed hstep.log)
  · cases c with
    | global isG range pat inner => cases hglobal
    | substituteRange range pattern replacement global =>
      rcases substituteRange_running hrun with ⟨m, rfl⟩ | ⟨-, lines, -, rfl⟩
      · exact Truthful.setError (w := w.prepareUndo) h m
      · exact truthful_of_dirty rfl
    | writeFile filename =>
      rcases writeFile_running hrun with ⟨m, rfl⟩ | ⟨files, name, out, rfl⟩
      · exact h.setError m
      · intro _
        exact (settled_append_pair (.print out) (.saved w.ed.texts) rfl rfl).symm
    | editFile filename =>
      rcases editFile_running hrun with ⟨-, rfl⟩ | ⟨hclean, hrun⟩
      · exact h.setError _
      · have hdirty : w.ed.dirty ≠ true := by rw [hclean]; exact Bool.false_ne_true
        exact truthful_forcedEditFile (hkeeps.resolve_left hdirty) hrun
    | forcedEditFile filename => exact truthful_forcedEditFile hkeeps hrun
    | readFileAtAddress addr filename => exact truthful_readFileAtAddress hbounds.1 h hkeeps hrun
    | moveRange range dest =>
      rcases moveRange_running hrun with ⟨m, rfl⟩ | ⟨-, -, -, -, -, rfl⟩
      · exact Truthful.setError (w := w.prepareUndo) h m
      · exact truthful_of_dirty rfl
    | copyRange range dest =>
      rcases copyRange_running hrun with ⟨-, rfl⟩ | ⟨-, -, lines, -, rfl⟩
      · exact Truthful.setError (w := w.prepareUndo) h _
      · exact truthful_of_dirty rfl
    | deleteRange range => exact truthful_deleteRange h hrun
    | changeRange range =>
      rcases changeRange_running hrun with ⟨-, rfl⟩ | ⟨-, w1, hdelete, hinsert⟩
      · exact Truthful.setError (w := w.prepareUndo) h _
      · exact truthful_insertLine (le_max_right _ _) (truthful_deleteRange h hdelete) hinsert
    | joinRange range =>
      rcases joinRange_running hrun with ⟨-, rfl⟩ | ⟨-, -, rfl⟩ | ⟨-, -, first, -, rfl⟩
      · exact Truthful.setError (w := w.prepareUndo) h _
      · exact h.of_same rfl rfl rfl
      · exact truthful_of_dirty rfl
    | appendLine addr =>
      rcases appendLine_running hbounds hrun with ⟨-, rfl⟩ | ⟨-, -, rfl⟩
      · exact h.of_same rfl rfl w.settled_readText
      · exact truthful_of_dirty rfl
    | insertLine addr => exact truthful_insertLine hbounds h hrun
    | undo =>
      rcases undo_running hrun with ⟨-, rfl⟩ | ⟨-, rfl⟩
      · exact h.setError _
      · exact truthful_of_dirty rfl
    | _ => exact absurd rfl hplain

theorem Truthful.record (h : w.Truthful) {e : Event} (he : e.settled? = none) : (w.record e).Truthful :=
  h.of_same rfl rfl (settled_append_singleton he)

end World

theorem preserves_truthful : Preserves KeepsFlag World.Truthful where
  call := by
    intro exec fuel cmd w w' hglobal hcond h hrun
    have hsettled : settled (w.record (.call (w.ed.decode cmd) w.toState)).log = settled w.log :=
      settled_append_singleton rfl
    have hcond' : KeepsFlag (w.record (.call (w.ed.decode cmd) w.toState)).log (w.ed.decode cmd)
        w.toState := by
      unfold KeepsFlag at hcond ⊢
      rw [hsettled]
      exact hcond
    exact World.truthful_perform (w := w.record (.call (w.ed.decode cmd) w.toState)) hglobal
      (w.ed.decode_inBounds cmd) hcond' (h.record rfl) hrun
  record := fun _ h => h.record rfl
  readList := fun h => h.of_same rfl rfl (World.settled_readList _)
  target := fun _ _ h => h
  input := fun _ h => h

/-- One file, with the line `x`. -/
def oneFile : Files where
  content name := if name = .lit "f" then some (asciiBytes "x\n") else none
  writable _ := true

end ValidcTools.Ed
