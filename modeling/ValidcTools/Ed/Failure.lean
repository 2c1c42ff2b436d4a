import ValidcTools.Ed.Identity

/-! What a command that fails leaves changed. -/
namespace ValidcTools.Ed
open Outcome

def Event.isError : Event → Bool
  | .error _ _ => true
  | _ => false

/-- The last thing that happened is a `set_error`. -/
def EndsInError (log : List Event) : Prop := ∃ e, log.getLast? = some e ∧ e.isError = true

theorem not_endsInError_append {log es : List Event} (h : ¬ EndsInError log)
    (hes : ∀ e ∈ es, e.isError = false) : ¬ EndsInError (log ++ es) := by
  rintro ⟨e, hlast, he⟩
  rw [List.getLast?_append] at hlast
  cases hes' : es.getLast? with
  | none =>
    rw [hes', Option.none_or] at hlast
    exact h ⟨e, hlast, he⟩
  | some e' =>
    rw [hes', Option.some_or] at hlast
    obtain rfl := Option.some.inj hlast
    have hfalse := hes e' (List.mem_of_getLast? hes')
    rw [he] at hfalse
    cases hfalse

theorem not_endsInError_singleton {log : List Event} {e : Event} (he : e.isError = false) :
    ¬ EndsInError (log ++ [e]) := by
  rintro ⟨e', hlast, he'⟩
  rw [List.getLast?_concat] at hlast
  obtain rfl := Option.some.inj hlast
  rw [he] at he'
  cases he'

namespace Editor

/-- What a failed command is to leave alone: the lines, the current line, the marks, the dirty flag, the
file name and the snapshot. -/
def Unchanged (ed ed' : Editor) : Prop :=
  ed'.texts = ed.texts ∧ ed'.currentLine = ed.currentLine ∧ ed'.marks = ed.marks ∧ ed'.dirty = ed.dirty ∧
    ed'.filename = ed.filename ∧ ed'.undoLines.map Line.text = ed.undoLines.map Line.text ∧
    ed'.undoCurrentLine = ed.undoCurrentLine ∧ ed'.undoValid = ed.undoValid

/-- The snapshot is the buffer as it is. -/
def SnapshotTaken (ed : Editor) : Prop :=
  ed.undoLines.map Line.text = ed.texts ∧ ed.undoCurrentLine = ed.currentLine ∧ ed.undoValid = true

theorem unchanged_prepareUndo_iff (ed : Editor) : ed.Unchanged ed.prepareUndo ↔ ed.SnapshotTaken := by
  constructor
  · rintro ⟨-, -, -, -, -, hlines, hcurrent, hvalid⟩
    exact ⟨hlines.symm, hcurrent.symm, hvalid.symm⟩
  · rintro ⟨hlines, hcurrent, hvalid⟩
    exact ⟨rfl, rfl, rfl, rfl, rfl, hlines.symm, hcurrent.symm, hvalid.symm⟩

end Editor

/-- The commands that take the snapshot before they check what they are given. -/
def Call.snapshots : Call → Bool
  | .substituteRange _ _ _ _ | .readFileAtAddress _ _ | .moveRange _ _ | .copyRange _ _ | .deleteRange _
  | .changeRange _ | .joinRange _ => true
  | _ => false

/-- A command that fails changes nothing in the editor but the error text; or it has taken the snapshot
before; or it has made the editor a new one. -/
inductive FailedStep (c : Call) (w : World) : World → Prop
  | checked (m : Message) : c.snapshots = false →
      (∀ f, c ≠ .forcedEditFile f) → (∀ f, c = .editFile f → w.ed.dirty = true) →
        FailedStep c w (w.setError m)
  | snapshot (m : Message) : c.snapshots = true → FailedStep c w (w.prepareUndo.setError m)
  | reset (m : Message) : ((∃ f, c = .forcedEditFile f) ∨ ∃ f, c = .editFile f ∧ w.ed.dirty = false) →
      FailedStep c w ({ w with ed := {} }.setError m)

namespace World

variable {exec : CString → World → Outcome} {fuel : ℕ} {w w' : World}

theorem endsInError_readText (h : ¬ EndsInError w.log) : ¬ EndsInError w.readText.2.log := by
  apply not_endsInError_append h
  intro e he
  obtain ⟨raw, -, rfl⟩ := List.mem_map.mp he
  rfl

theorem endsInError_insertLine {addr : ℤ} (h : ¬ EndsInError w.log) (hrun : w.insertLine addr = running w') :
    ¬ EndsInError w'.log := by
  rw [insertLine_eq] at hrun
  obtain ⟨lines, -, hrun⟩ := withLines_eq_running hrun
  split_ifs at hrun
  · exact Outcome.running.inj hrun ▸ endsInError_readText h
  · exact Outcome.running.inj hrun ▸ endsInError_readText h

theorem failedStep_printWith {c : Call} {range : AddressRange} {render : ℕ × CString → List Byte}
    (hc : c.snapshots = false) (hedit : ∀ f, c ≠ .forcedEditFile f) (hedit' : ∀ f, c ≠ .editFile f)
    (hrun : printWith render range w = running w') (hend : EndsInError w'.log) : FailedStep c w w' := by
  rcases printWith_running hrun with rfl | ⟨out, rfl⟩
  · exact .checked _ hc hedit fun f hf => absurd hf (hedit' f)
  · exact absurd hend (not_endsInError_singleton rfl)

/-- How a call fails. -/
theorem failedStep_perform {c : Call} (hglobal : c.isGlobal = false) (h : ¬ EndsInError w.log)
    (hrun : w.perform exec fuel c = running w') (hend : EndsInError w'.log) : FailedStep c w w' := by
  cases c with
  | global isG range pat inner => cases hglobal
  | nothing =>
    obtain rfl := Outcome.running.inj hrun
    exact absurd hend h
  | setError m =>
    obtain rfl := Outcome.running.inj hrun
    exact .checked m rfl (fun _ => Call.noConfusion) fun _ => Call.noConfusion
  | setCurrent addr =>
    obtain rfl := Outcome.running.inj hrun
    exact absurd hend h
  | mark letter addr =>
    obtain rfl := Outcome.running.inj hrun
    exact absurd hend h
  | printNumber n =>
    obtain rfl := Outcome.running.inj hrun
    exact absurd hend (not_endsInError_singleton rfl)
  | file filename =>
    unfold perform at hrun
    dsimp only at hrun
    split at hrun
    · rename_i hnone
      obtain rfl := Outcome.running.inj hrun
      have hsame : { w with ed := { w.ed with filename := filename.or w.ed.filename } } = w := by
        obtain ⟨-, hname⟩ := Option.or_eq_none_iff.mp hnone
        rw [hnone, ← hname]
      rw [hsame]
      exact .checked _ rfl (fun _ => Call.noConfusion) fun _ => Call.noConfusion
    · obtain rfl := Outcome.running.inj hrun
      exact absurd hend (not_endsInError_singleton rfl)
  | writeFile filename =>
    rcases writeFile_running hrun with ⟨m, rfl⟩ | ⟨files, name, out, rfl⟩
    · exact .checked m rfl (fun _ => Call.noConfusion) fun _ => Call.noConfusion
    · exact absurd hend (not_endsInError_append h (by simp [Event.isError]))
  | writeAppendFile range filename =>
    rcases writeAppendFile_running hrun with ⟨m, rfl⟩ | ⟨files, out, rfl⟩
    · exact .checked m rfl (fun _ => Call.noConfusion) fun _ => Call.noConfusion
    · exact absurd hend (not_endsInError_singleton rfl)
  | editFile filename =>
    rcases editFile_running hrun with ⟨hdirty, rfl⟩ | ⟨hclean, hrun⟩
    · exact .checked _ rfl (fun _ => Call.noConfusion) fun _ _ => hdirty
    · obtain ⟨name, -, hrun⟩ := forcedEditFile_running hrun
      rcases loadFile_running hrun with ⟨-, rfl⟩ | ⟨bytes, -, lines, out, -, rfl⟩
      · exact .reset _ (Or.inr ⟨filename, rfl, hclean⟩)
      · exact absurd hend (not_endsInError_append h (by simp [Event.isError]))
  | forcedEditFile filename =>
    obtain ⟨name, -, hrun⟩ := forcedEditFile_running hrun
    rcases loadFile_running hrun with ⟨-, rfl⟩ | ⟨bytes, -, lines, out, -, rfl⟩
    · exact .reset _ (Or.inl ⟨filename, rfl⟩)
    · exact absurd hend (not_endsInError_append h (by simp [Event.isError]))
  | readFileAtAddress addr filename =>
    change w.readFileAtAddress addr filename = running w' at hrun
    rw [readFileAtAddress_eq] at hrun
    split at hrun
    · obtain rfl := Outcome.running.inj hrun
      exact .snapshot _ rfl
    · obtain ⟨lines, -, hrun⟩ := withLines_eq_running hrun
      obtain rfl := Outcome.running.inj hrun
      exact absurd hend (not_endsInError_singleton rfl)
  | substituteRange range pattern replacement global =>
    rcases substituteRange_running hrun with ⟨m, rfl⟩ | ⟨-, lines, -, rfl⟩
    · exact .snapshot m rfl
    · exact absurd hend h
  | moveRange range dest =>
    rcases moveRange_running hrun with ⟨m, rfl⟩ | ⟨-, -, -, -, -, rfl⟩
    · exact .snapshot m rfl
    · exact absurd hend h
  | copyRange range dest =>
    rcases copyRange_running hrun with ⟨-, rfl⟩ | ⟨-, -, lines, -, rfl⟩
    · exact .snapshot _ rfl
    · exact absurd hend h
  | printRange range =>
    exact failedStep_printWith rfl (fun _ => Call.noConfusion) (fun _ => Call.noConfusion) hrun hend
  | printNumberedRange range =>
    exact failedStep_printWith rfl (fun _ => Call.noConfusion) (fun _ => Call.noConfusion) hrun hend
  | printListRange range =>
    exact failedStep_printWith rfl (fun _ => Call.noConfusion) (fun _ => Call.noConfusion) hrun hend
  | deleteRange range =>
    rcases deleteRange_running hrun with ⟨-, rfl⟩ | ⟨-, -, lines, -, rfl⟩
    · exact .snapshot _ rfl
    · exact absurd hend h
  | changeRange range =>
    rcases changeRange_running hrun with ⟨-, rfl⟩ | ⟨hin, w1, hdelete, hinsert⟩
    · exact .snapshot _ rfl
    · rcases deleteRange_running hdelete with ⟨hout, -⟩ | ⟨-, -, lines, -, hw1⟩
      · rw [hin] at hout
        cases hout
      · have hlog : w1.log = w.log := by rw [hw1]; rfl
        exact absurd hend (endsInError_insertLine (hlog ▸ h) hinsert)
  | joinRange range =>
    rcases joinRange_running hrun with ⟨-, rfl⟩ | ⟨-, -, rfl⟩ | ⟨-, -, first, -, rfl⟩
    · exact .snapshot _ rfl
    · exact absurd hend h
    · exact absurd hend h
  | appendLine addr =>
    change w.appendLine addr = running w' at hrun
    rw [appendLine_eq] at hrun
    obtain ⟨lines, -, hrun⟩ := withLines_eq_running hrun
    by_cases htexts : w.readText.1 = []
    · rw [if_pos htexts] at hrun
      exact absurd hend (Outcome.running.inj hrun ▸ endsInError_readText h)
    · rw [if_neg htexts] at hrun
      exact absurd hend (Outcome.running.inj hrun ▸ endsInError_readText h)
  | insertLine addr => exact absurd hend (endsInError_insertLine h hrun)
  | undo =>
    rcases undo_running hrun with ⟨-, rfl⟩ | ⟨-, rfl⟩
    · exact .checked _ rfl (fun _ => Call.noConfusion) fun _ => Call.noConfusion
    · exact absurd hend h
  | quit =>
    unfold perform at hrun
    dsimp only at hrun
    split_ifs at hrun
    obtain rfl := Outcome.running.inj hrun
    exact .checked _ rfl (fun _ => Call.noConfusion) fun _ => Call.noConfusion
  | forcedQuit => cases hrun
  | toggleVerbose =>
    obtain rfl := Outcome.running.inj hrun
    exact absurd hend (not_endsInError_singleton rfl)
  | togglePrompt =>
    obtain rfl := Outcome.running.inj hrun
    exact absurd hend (not_endsInError_singleton rfl)
  | help =>
    unfold perform at hrun
    dsimp only at hrun
    split at hrun
    · obtain rfl := Outcome.running.inj hrun
      exact absurd hend (not_endsInError_singleton rfl)
    · obtain rfl := Outcome.running.inj hrun
      exact absurd hend (not_endsInError_singleton rfl)
  | undefined f => cases hrun

end World

/-- When a command that fails changes nothing. -/
def HarmlessFailure (c : Call) (ed : Editor) : Prop :=
  match c with
  | .forcedEditFile _ => ed.Unchanged {}
  | .editFile _ => ed.dirty = true ∨ ed.Unchanged {}
  | c => c.snapshots = true → ed.SnapshotTaken

theorem FailedStep.unchanged_iff {c : Call} {w w' : World} (h : FailedStep c w w') :
    w.ed.Unchanged w'.ed ↔ HarmlessFailure c w.ed := by
  cases h with
  | checked m hsnap hforced hedit =>
    apply iff_of_true
    · exact ⟨rfl, rfl, rfl, rfl, rfl, rfl, rfl, rfl⟩
    · cases c with
      | forcedEditFile f => exact absurd rfl (hforced f)
      | editFile f => exact Or.inl (hedit f rfl)
      | _ => exact fun htrue => absurd (hsnap.symm.trans htrue) (by simp)
  | snapshot m hsnap =>
    have hiff : w.ed.Unchanged w.ed.prepareUndo ↔ HarmlessFailure c w.ed := by
      rw [Editor.unchanged_prepareUndo_iff]
      cases c with
      | forcedEditFile f => cases hsnap
      | editFile f => cases hsnap
      | _ => exact ⟨fun htaken _ => htaken, fun hall => hall hsnap⟩
    exact hiff
  | reset m hreset =>
    have hiff : w.ed.Unchanged {} ↔ HarmlessFailure c w.ed := by
      rcases hreset with ⟨f, rfl⟩ | ⟨f, rfl, hclean⟩
      · rfl
      · constructor
        · exact Or.inr
        · intro h
          apply h.resolve_left
          intro hdirty
          exact absurd (hclean.symm.trans hdirty) (by simp)
    exact hiff

/-! ## Commands that fail one after the other -/

/-- A call that is going to end in `set_error`. -/
def Rejected (c : Call) (s : State) : Prop :=
  match c with
  | .setError _ => True
  | .substituteRange range pattern _ _ =>
    ∀ l ∈ (s.ed.lines.drop range.start.toNat).take range.count.toNat, breOk l.text pattern = .ok false
  | .moveRange range dest => s.ed.numLines < dest ∨ range.start ≤ dest ∧ dest ≤ range.stop
  | .copyRange _ dest => s.ed.numLines < dest
  | .readFileAtAddress _ name => s.files.content name = none
  | .editFile filename => s.ed.dirty = true ∨ ∀ name, filename = some name → s.files.content name = none
  | .forcedEditFile filename => ∀ name, filename = some name → s.files.content name = none
  | .writeAppendFile _ name => name.bytes = [] ∨ s.files.writable name = false
  | .file filename => filename.or s.ed.filename = none
  | .undo => s.ed.undoValid = false
  | .quit => s.ed.dirty = true
  | _ => False

namespace World

variable {exec : CString → World → Outcome} {fuel : ℕ} {w w' : World}

theorem substituteLoop_rejected {line : CString → Substituted} {stop : ℤ} {n : ℕ} {j : ℤ}
    (hline : ∀ k < n, ∀ l, Cells.get? w.ed.lines (j + k) = some l →
      line l.text = .unchanged ∨ line l.text = .outOfFuel)
    (h : substituteLoop line stop n j false w = running w') : w' = w.setError .noMatch := by
  induction n generalizing j with
  | zero => exact (Outcome.running.inj h).symm
  | succ n ih =>
    unfold substituteLoop at h
    cases hget : Cells.get? w.ed.lines j with
    | none =>
      rw [hget] at h
      cases h
    | some l =>
      simp only [hget] at h
      rcases hline 0 (Nat.zero_lt_succ n) l (by rw [Nat.cast_zero, add_zero, hget]) with heq | heq
      · rw [heq] at h
        apply ih _ h
        intro k hk l' hl'
        apply hline (k + 1) (Nat.succ_lt_succ hk) l'
        rw [← hl']
        congr 1
        push_cast
        ring
      · rw [heq] at h
        cases h

theorem substituteOnce_of_noMatch {pattern replacement text : CString} (h : breOk text pattern = .ok false) :
    substituteOnce pattern replacement text = .unchanged := by
  unfold substituteOnce
  rw [h]

theorem substituteAll_of_noMatch {pattern replacement text : CString} (h : breOk text pattern = .ok false) :
    substituteAll pattern replacement fuel text false = .unchanged ∨
      substituteAll pattern replacement fuel text false = .outOfFuel := by
  cases fuel with
  | zero => exact Or.inr rfl
  | succ fuel =>
    left
    unfold substituteAll
    rw [h]
    rfl

theorem substituteRange_rejected {range : AddressRange} {pattern replacement : CString} {global : Bool}
    (hnone : ∀ l ∈ w.linesOf range, breOk l.text pattern = .ok false)
    (h : w.substituteRange fuel range pattern replacement global = running w') :
    ∃ m, w' = w.prepareUndo.setError m := by
  unfold substituteRange at h
  dsimp only at h
  by_cases hout : range.outside w.ed.numLines = true
  · have hout' : range.outside w.prepareUndo.ed.numLines = true := hout
    rw [if_pos hout'] at h
    exact ⟨_, (Outcome.running.inj h).symm⟩
  · have hout' : ¬ range.outside w.prepareUndo.ed.numLines = true := hout
    rw [if_neg hout'] at h
    obtain ⟨hs0, -, -, -⟩ := AddressRange.outside_eq_false_iff.mp (Bool.eq_false_of_not_eq_true hout)
    refine ⟨_, substituteLoop_rejected ?_ h⟩
    intro k hk l hl
    have hidx : range.start + k = ((range.start.toNat + k : ℕ) : ℤ) := by omega
    rw [hidx, Cells.get?_natCast] at hl
    have hmem : l ∈ w.linesOf range := by
      apply List.mem_of_getElem? (i := k)
      unfold linesOf
      rw [List.getElem?_take_of_lt hk, List.getElem?_drop]
      exact hl
    have hno := hnone l hmem
    cases global with
    | false => exact Or.inl (substituteOnce_of_noMatch hno)
    | true => exact substituteAll_of_noMatch hno

theorem forcedEditFile_rejected {filename : Option CString}
    (hnone : ∀ name, filename = some name → w.files.content name = none)
    (h : w.forcedEditFile filename = running w') : w' = { w with ed := {} }.setError .cannotOpenFile := by
  obtain ⟨name, hname, h⟩ := forcedEditFile_running h
  rcases loadFile_running h with ⟨-, rfl⟩ | ⟨bytes, hbytes, -⟩
  · rfl
  · rw [show ({ w with ed := {} } : World).files.content name = none from hnone name hname] at hbytes
    cases hbytes

theorem failedStep_of_rejected {c : Call} (hrej : Rejected c w.toState)
    (hrun : w.perform exec fuel c = running w') : FailedStep c w w' := by
  cases c with
  | setError m =>
    obtain rfl := Outcome.running.inj hrun
    exact .checked m rfl (fun _ => Call.noConfusion) fun _ => Call.noConfusion
  | substituteRange range pattern replacement global =>
    obtain ⟨m, rfl⟩ := substituteRange_rejected hrej hrun
    exact .snapshot m rfl
  | moveRange range dest =>
    rcases moveRange_running hrun with ⟨m, rfl⟩ | ⟨-, -, -, hend, hself, -⟩
    · exact .snapshot m rfl
    · rcases hrej with hfar | hinside
      · have hfar' : w.ed.numLines < dest := hfar
        omega
      · exact absurd hinside hself
  | copyRange range dest =>
    rcases copyRange_running hrun with ⟨-, rfl⟩ | ⟨-, -, lines, hlines, -⟩
    · exact .snapshot _ rfl
    · have hfar : w.ed.numLines < dest := hrej
      omega
  | readFileAtAddress addr name =>
    change w.readFileAtAddress addr name = running w' at hrun
    have hnone : w.files.content name = none := hrej
    rw [readFileAtAddress_eq] at hrun
    simp only [hnone] at hrun
    obtain rfl := Outcome.running.inj hrun
    exact .snapshot _ rfl
  | editFile filename =>
    rcases editFile_running hrun with ⟨hdirty, rfl⟩ | ⟨hclean, hrun⟩
    · exact .checked _ rfl (fun _ => Call.noConfusion) fun _ _ => hdirty
    · have hdirty : w.ed.dirty ≠ true := by rw [hclean]; exact Bool.false_ne_true
      obtain rfl := forcedEditFile_rejected (hrej.resolve_left hdirty) hrun
      exact .reset _ (Or.inr ⟨filename, rfl, hclean⟩)
  | forcedEditFile filename =>
    obtain rfl := forcedEditFile_rejected hrej hrun
    exact .reset _ (Or.inl ⟨filename, rfl⟩)
  | writeAppendFile range name =>
    change w.writeAppendFile range name = running w' at hrun
    unfold writeAppendFile at hrun
    have hchecked (m : Message) : FailedStep (.writeAppendFile range name) w (w.setError m) :=
      .checked m rfl (fun _ => Call.noConfusion) fun _ => Call.noConfusion
    split_ifs at hrun with hempty hout hwritable
    · exact Outcome.running.inj hrun ▸ hchecked _
    · exact Outcome.running.inj hrun ▸ hchecked _
    · exact Outcome.running.inj hrun ▸ hchecked _
    · exact absurd hrej (not_or.mpr ⟨hempty, hwritable⟩)
  | file filename =>
    have hnone : filename.or w.ed.filename = none := hrej
    obtain ⟨-, hname⟩ := Option.or_eq_none_iff.mp hnone
    have hsame : { w with ed := { w.ed with filename := filename.or w.ed.filename } } = w := by
      rw [hnone, ← hname]
    unfold perform at hrun
    dsimp only at hrun
    rw [hsame] at hrun
    simp only [hnone] at hrun
    obtain rfl := Outcome.running.inj hrun
    exact .checked _ rfl (fun _ => Call.noConfusion) fun _ => Call.noConfusion
  | undo =>
    rcases undo_running hrun with ⟨-, rfl⟩ | ⟨hvalid, -⟩
    · exact .checked _ rfl (fun _ => Call.noConfusion) fun _ => Call.noConfusion
    · exact absurd (hvalid.symm.trans hrej) (by simp)
  | quit =>
    have hdirty : w.ed.dirty = true := hrej
    unfold perform at hrun
    dsimp only at hrun
    rw [if_pos hdirty] at hrun
    obtain rfl := Outcome.running.inj hrun
    exact .checked _ rfl (fun _ => Call.noConfusion) fun _ => Call.noConfusion
  | _ => exact absurd hrej id

end World

/-- What a failed command is to leave alone, with the lines themselves and the files. -/
structure Alike (s s' : State) : Prop where
  unchanged : s.ed.Unchanged s'.ed
  lines : s'.ed.lines = s.ed.lines
  files : s'.files = s.files

namespace Alike

variable {s s' : State}

theorem refl (s : State) : Alike s s := ⟨⟨rfl, rfl, rfl, rfl, rfl, rfl, rfl, rfl⟩, rfl, rfl⟩

theorem trans {s1 : State} (h : Alike s s1) (h1 : Alike s1 s') : Alike s s' := by
  obtain ⟨⟨a1, a2, a3, a4, a5, a6, a7, a8⟩, alines, afiles⟩ := h
  obtain ⟨⟨b1, b2, b3, b4, b5, b6, b7, b8⟩, blines, bfiles⟩ := h1
  exact ⟨⟨b1.trans a1, b2.trans a2, b3.trans a3, b4.trans a4, b5.trans a5, b6.trans a6, b7.trans a7,
    b8.trans a8⟩, blines.trans alines, bfiles.trans afiles⟩

theorem decode (h : Alike s s') (cmd : CString) : s'.ed.decode cmd = s.ed.decode cmd := by
  obtain ⟨⟨-, hcurrent, hmarks, -, hname, -, -, -⟩, hlines, -⟩ := h
  exact Editor.decode_congr hlines hcurrent hmarks hname cmd

theorem harmless (h : Alike s s') {c : Call} (hc : HarmlessFailure c s.ed) : HarmlessFailure c s'.ed := by
  obtain ⟨⟨a1, a2, a3, a4, a5, a6, a7, a8⟩, -, -⟩ := h
  have hnew : s.ed.Unchanged {} → s'.ed.Unchanged {} := by
    rintro ⟨b1, b2, b3, b4, b5, b6, b7, b8⟩
    exact ⟨b1.trans a1.symm, b2.trans a2.symm, b3.trans a3.symm, b4.trans a4.symm, b5.trans a5.symm,
      b6.trans a6.symm, b7.trans a7.symm, b8.trans a8.symm⟩
  have htaken : s.ed.SnapshotTaken → s'.ed.SnapshotTaken := by
    rintro ⟨b1, b2, b3⟩
    exact ⟨a6.trans (b1.trans a1.symm), a7.trans (b2.trans a2.symm), a8.trans b3⟩
  cases c with
  | forcedEditFile f => exact hnew hc
  | editFile f => exact hc.imp (fun hdirty => a4.trans hdirty) hnew
  | _ => exact fun hsnap => htaken (hc hsnap)

theorem rejected (h : Alike s s') {c : Call} (hc : Rejected c s) : Rejected c s' := by
  obtain ⟨⟨-, -, -, hdirty, hname, -, -, hvalid⟩, hlines, hfiles⟩ := h
  have hn : s'.ed.numLines = s.ed.numLines := by
    unfold Editor.numLines
    rw [hlines]
  cases c with
  | setError m => trivial
  | substituteRange range pattern replacement global =>
    unfold Rejected at hc ⊢
    rwa [hlines]
  | moveRange range dest =>
    unfold Rejected at hc ⊢
    rwa [hn]
  | copyRange range dest =>
    unfold Rejected at hc ⊢
    rwa [hn]
  | readFileAtAddress addr name =>
    unfold Rejected at hc ⊢
    rwa [hfiles]
  | editFile filename =>
    unfold Rejected at hc ⊢
    rwa [hfiles, hdirty]
  | forcedEditFile filename =>
    unfold Rejected at hc ⊢
    rwa [hfiles]
  | writeAppendFile range name =>
    unfold Rejected at hc ⊢
    rwa [hfiles]
  | file filename =>
    unfold Rejected at hc ⊢
    rwa [hname]
  | undo => exact hvalid.trans hc
  | quit => exact hdirty.trans hc
  | _ => exact absurd hc id

end Alike

theorem FailedStep.alike {c : Call} {w w' : World} (h : FailedStep c w w') (hc : HarmlessFailure c w.ed) :
    Alike w.toState w'.toState := by
  have hunchanged := h.unchanged_iff.mpr hc
  refine ⟨hunchanged, ?_, ?_⟩
  · cases h with
    | checked m => rfl
    | snapshot m => rfl
    | reset m =>
      have hnil : [] = w.ed.texts := hunchanged.1
      exact (List.map_eq_nil_iff.mp hnil.symm).symm
  · cases h <;> rfl

/-- The command line of a turn, which is going to fail and do no harm. -/
def HarmlessTurn (inner : CString) (s : State) (t : ℕ) : Prop :=
  let c := s.ed.decode (.ofBytes (decimalBytes (t + 1) ++ inner.bytes))
  c.isGlobal = false ∧ Rejected c s ∧ HarmlessFailure c s.ed

/-- When nothing changes: a single command as above, or a global one whose commands all fail so. -/
def NothingChanges (c : Call) (s : State) : Prop :=
  match c with
  | .global isG range pat inner =>
    inner.bytes ≠ (['{'] : List Byte) ∧ inner.bytes.head? ≠ some (('g' : Char) : Byte) ∧
      inner.bytes.head? ≠ some (('v' : Char) : Byte) ∧
      ∀ idxs, collect isG pat ((s.ed.lines.drop range.start.toNat).take range.count.toNat)
        range.start.toNat = .ok idxs → ∀ t ∈ idxs, HarmlessTurn inner s t
  | c => HarmlessFailure c s.ed

theorem alike_runAll {fuel : ℕ} {inner : CString} {s : State} {ts : List ℕ} {w w' : World}
    (hg : inner.bytes.head? ≠ some (('g' : Char) : Byte)) (hv : inner.bytes.head? ≠ some (('v' : Char) : Byte))
    (hts : ∀ t ∈ ts, HarmlessTurn inner s t) (hw : Alike s w.toState)
    (hrun : runAll (World.turn (executeCommand fuel) inner) ts w = running w') : Alike s w'.toState := by
  induction ts generalizing w with
  | nil => exact Outcome.running.inj hrun ▸ hw
  | cons t ts ih =>
    obtain ⟨w1, hturn, hrun⟩ := bind_eq_running hrun
    apply ih (fun t' ht' => hts t' (List.mem_cons_of_mem t ht')) _ hrun
    obtain ⟨-, hrej, hharmless⟩ := hts t List.mem_cons_self
    unfold World.turn at hturn
    rw [if_neg (not_or.mpr ⟨hg, hv⟩)] at hturn
    cases fuel with
    | zero => cases hturn
    | succ fuel =>
      unfold executeCommand at hturn
      rw [hw.decode] at hturn
      have hstep := World.failedStep_of_rejected (w := w.record (.call _ w.toState)) (hw.rejected hrej) hturn
      have hstep' := hstep.alike (hw.harmless hharmless)
      exact hw.trans hstep'

theorem endsInError_of_getLast? {log : List Event} (h : log.getLast?.map Event.isError = some true) :
    EndsInError log := by
  obtain ⟨e, he, herror⟩ := Option.map_eq_some_iff.mp h
  exact ⟨e, he, herror⟩

end ValidcTools.Ed
