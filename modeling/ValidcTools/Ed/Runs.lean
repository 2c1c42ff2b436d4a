import ValidcTools.Ed.Dispatch
import ValidcTools.Ed.Effects

/-! Rules for what every execution of a command line, and every run of the loop of `main`, preserves. -/
namespace ValidcTools.Ed
open Outcome

/-! ## Calls that only print and move about -/

/-- A call that leaves the lines of the buffer and the saved ones alone, and the dirty flag. -/
def Call.plain : Call → Bool
  | .nothing | .setError _ | .setCurrent _ | .mark _ _ | .printNumber _ | .file _
  | .writeAppendFile _ _ | .printRange _ | .printNumberedRange _ | .printListRange _ | .quit
  | .forcedQuit | .toggleVerbose | .togglePrompt | .help | .undefined _ => true
  | _ => false

def Call.isGlobal : Call → Bool
  | .global _ _ _ _ => true
  | _ => false

/-- Output, and nothing else. -/
def Event.isOutput : Event → Bool
  | .print _ | .error _ _ => true
  | _ => false

/-- The log grows by output only. -/
def Printed (log log' : List Event) : Prop := ∃ es, log' = log ++ es ∧ ∀ e ∈ es, e.isOutput = true

theorem Printed.refl (log : List Event) : Printed log log :=
  ⟨[], by simp, by simp⟩

theorem Printed.append {log : List Event} {e : Event} (he : e.isOutput = true) : Printed log (log ++ [e]) :=
  ⟨[e], rfl, by simpa using he⟩

/-- What a plain call leaves. -/
structure PlainStep (w w' : World) : Prop where
  lines : w'.ed.lines = w.ed.lines
  dirty : w'.ed.dirty = w.ed.dirty
  undoLines : w'.ed.undoLines = w.ed.undoLines
  undoCurrentLine : w'.ed.undoCurrentLine = w.ed.undoCurrentLine
  undoValid : w'.ed.undoValid = w.ed.undoValid
  fresh : w'.fresh = w.fresh
  input : w'.input = w.input
  log : Printed w.log w'.log

theorem PlainStep.of_fields (w : World) {currentLine : ℤ} {filename : Option CString} {verbose : Bool}
    {lastError : Option Message} {marks : Marks} {prompt : Bool} {files : Files} {log : List Event}
    (hlog : Printed w.log log) :
    PlainStep w { w with
      ed := { w.ed with currentLine, filename, verbose, lastError, marks, prompt }
      files
      log } := by
  constructor
  iterate 7 rfl
  exact hlog

namespace World

variable {exec : CString → World → Outcome} {fuel : ℕ} {w w' : World}

theorem plainStep_printWith {range : AddressRange} {render : ℕ × CString → List Byte}
    (h : printWith render range w = running w') : PlainStep w w' := by
  rcases printWith_running h with rfl | ⟨out, rfl⟩
  · exact .of_fields w (.append rfl)
  · exact .of_fields w (.append rfl)

theorem perform_plain {c : Call} (hc : c.plain = true) (h : w.perform exec fuel c = running w') :
    PlainStep w w' := by
  cases c with
  | nothing =>
    obtain rfl := Outcome.running.inj h
    exact .of_fields w (.refl _)
  | setError m =>
    obtain rfl := Outcome.running.inj h
    exact .of_fields w (.append rfl)
  | setCurrent addr =>
    obtain rfl := Outcome.running.inj h
    exact .of_fields w (.refl _)
  | mark letter addr =>
    obtain rfl := Outcome.running.inj h
    exact .of_fields w (.refl _)
  | printNumber n =>
    obtain rfl := Outcome.running.inj h
    exact .of_fields w (.append rfl)
  | file filename =>
    unfold perform at h
    dsimp only at h
    split at h
    · obtain rfl := Outcome.running.inj h
      exact .of_fields w (.append rfl)
    · obtain rfl := Outcome.running.inj h
      exact .of_fields w (.append rfl)
  | writeAppendFile range filename =>
    rcases writeAppendFile_running h with ⟨m, rfl⟩ | ⟨files, out, rfl⟩
    · exact .of_fields w (.append rfl)
    · exact .of_fields w (.append rfl)
  | printRange range => exact plainStep_printWith h
  | printNumberedRange range => exact plainStep_printWith h
  | printListRange range => exact plainStep_printWith h
  | quit =>
    unfold perform at h
    dsimp only at h
    split_ifs at h
    obtain rfl := Outcome.running.inj h
    exact .of_fields w (.append rfl)
  | forcedQuit => cases h
  | toggleVerbose =>
    obtain rfl := Outcome.running.inj h
    exact .of_fields w (.append rfl)
  | togglePrompt =>
    obtain rfl := Outcome.running.inj h
    exact .of_fields w (.append rfl)
  | help =>
    unfold perform at h
    dsimp only at h
    split at h
    · obtain rfl := Outcome.running.inj h
      exact .of_fields w (.append rfl)
    · obtain rfl := Outcome.running.inj h
      exact .of_fields w (.append rfl)
  | undefined f => cases h
  | _ => cases hc

end World

/-! ## Exits -/

namespace Outcome

/-- The editor is not left. -/
def Stays (o : Outcome) : Prop := ∀ n w, o ≠ exited n w

theorem stays_running (w : World) : (running w).Stays := fun _ _ => Outcome.noConfusion

theorem stays_critical (w : World) : (critical w).Stays := fun _ _ => Outcome.noConfusion

theorem stays_fault (f : Fault) : (fault f).Stays := fun _ _ => Outcome.noConfusion

theorem stays_outOfFuel : outOfFuel.Stays := fun _ _ => Outcome.noConfusion

theorem stays_ite {c : Prop} [Decidable c] {o o' : Outcome} (h : o.Stays) (h' : o'.Stays) :
    (if c then o else o').Stays := by
  split_ifs
  · exact h
  · exact h'

theorem stays_withLines {r : Option (List Line)} {f : List Line → Outcome} (hf : ∀ lines, (f lines).Stays) :
    (withLines r f).Stays := by
  cases r with
  | none => exact stays_fault _
  | some lines => exact hf lines

theorem stays_bind {o : Outcome} {f : World → Outcome} (h : o.Stays) (hf : ∀ w, (f w).Stays) :
    (o.bind f).Stays := by
  cases o with
  | running w => exact hf w
  | exited n w => exact absurd rfl (h n w)
  | critical w => exact stays_critical w
  | fault e => exact stays_fault e
  | outOfFuel => exact stays_outOfFuel

end Outcome

namespace World

theorem stays_appendLine (addr : ℤ) (w : World) : (w.appendLine addr).Stays :=
  stays_withLines fun _ => stays_ite (stays_running _) (stays_running _)

theorem stays_insertLine (addr : ℤ) (w : World) : (w.insertLine addr).Stays :=
  stays_withLines fun _ => stays_ite (stays_running _) (stays_running _)

theorem stays_printWith (render : ℕ × CString → List Byte) (range : AddressRange) (w : World) :
    (printWith render range w).Stays :=
  stays_ite (stays_running _) (stays_running _)

theorem stays_deleteRange (range : AddressRange) (w : World) : (w.deleteRange range).Stays :=
  stays_ite (stays_running _) (stays_withLines fun _ => stays_running _)

theorem stays_changeRange (range : AddressRange) (w : World) : (w.changeRange range).Stays :=
  stays_ite (stays_running _) (stays_bind (stays_deleteRange range _) fun w' => stays_insertLine _ w')

theorem stays_moveRange (range : AddressRange) (dest : ℤ) (w : World) : (w.moveRange range dest).Stays := by
  apply stays_ite (stays_running _)
  apply stays_ite (stays_running _)
  apply stays_ite (stays_running _)
  exact stays_ite (stays_critical _) (stays_withLines fun _ => stays_running _)

theorem stays_copyRange (range : AddressRange) (dest : ℤ) (w : World) : (w.copyRange range dest).Stays := by
  apply stays_ite (stays_running _)
  exact stays_ite (stays_running _) (stays_withLines fun _ => stays_running _)

theorem stays_joinRange (range : AddressRange) (w : World) : (w.joinRange range).Stays := by
  apply stays_ite (stays_running _)
  exact stays_ite (stays_running _) (stays_withLines fun _ => stays_running _)

theorem stays_substituteLoop (line : CString → Substituted) (stop : ℤ) (n : ℕ) (j : ℤ) (anyChanged : Bool)
    (w : World) : (substituteLoop line stop n j anyChanged w).Stays := by
  induction n generalizing j anyChanged w with
  | zero => exact stays_ite (stays_running _) (stays_running _)
  | succ n ih =>
    unfold substituteLoop
    split
    · exact stays_fault _
    · split
      · exact ih _ _ _
      · exact stays_withLines fun _ => ih _ _ _
      · exact stays_critical _
      · exact stays_fault _
      · exact stays_outOfFuel

theorem stays_substituteRange (fuel : ℕ) (range : AddressRange) (pattern replacement : CString)
    (global : Bool) (w : World) : (w.substituteRange fuel range pattern replacement global).Stays :=
  stays_ite (stays_running _) (stays_substituteLoop _ _ _ _ _ _)

theorem stays_undo (w : World) : w.undo.Stays := stays_ite (stays_running _) (stays_running _)

theorem stays_loadFile (filename : CString) (w : World) : (w.loadFile filename).Stays := by
  unfold loadFile
  split
  · exact stays_running _
  · exact stays_running _

theorem stays_forcedEditFile (filename : Option CString) (w : World) : (w.forcedEditFile filename).Stays := by
  unfold forcedEditFile
  split
  · exact stays_fault _
  · exact stays_loadFile _ _

theorem stays_editFile (filename : Option CString) (w : World) : (w.editFile filename).Stays :=
  stays_ite (stays_running _) (stays_forcedEditFile _ _)

theorem stays_readFileAtAddress (addr : ℤ) (filename : CString) (w : World) :
    (w.readFileAtAddress addr filename).Stays := by
  unfold readFileAtAddress
  dsimp only
  split
  · exact stays_running _
  · exact stays_withLines fun _ => stays_running _

theorem stays_writeFile (filename : Option CString) (w : World) : (w.writeFile filename).Stays := by
  unfold writeFile
  dsimp only
  split
  · exact stays_running _
  · exact stays_ite (stays_running _) (stays_running _)

theorem stays_writeAppendFile (range : AddressRange) (filename : CString) (w : World) :
    (w.writeAppendFile range filename).Stays := by
  apply stays_ite (stays_running _)
  apply stays_ite (stays_running _)
  exact stays_ite (stays_running _) (stays_running _)

/-- Only `q`, with nothing unsaved, and `Q` leave the editor. -/
theorem perform_exited {exec : CString → World → Outcome} {fuel n : ℕ} {w w' : World} {c : Call}
    (hc : c.isGlobal = false) (h : w.perform exec fuel c = exited n w') :
    w' = w ∧ (c = .forcedQuit ∨ c = .quit ∧ w.ed.dirty = false) := by
  cases c with
  | global isG range pat inner => cases hc
  | quit =>
    unfold perform at h
    dsimp only at h
    split_ifs at h with hdirty
    injection h with _ hw
    exact ⟨hw.symm, Or.inr ⟨rfl, Bool.eq_false_of_not_eq_true hdirty⟩⟩
  | forcedQuit =>
    injection h with _ hw
    exact ⟨hw.symm, Or.inl rfl⟩
  | nothing => cases h
  | setError m => cases h
  | setCurrent addr => cases h
  | substituteRange range pattern replacement global =>
    exact absurd h (stays_substituteRange _ _ _ _ _ _ _ _)
  | mark letter addr => cases h
  | printNumber n => cases h
  | file filename =>
    unfold perform at h
    dsimp only at h
    split at h <;> cases h
  | writeFile filename => exact absurd h (stays_writeFile _ _ _ _)
  | writeAppendFile range filename => exact absurd h (stays_writeAppendFile _ _ _ _ _)
  | editFile filename => exact absurd h (stays_editFile _ _ _ _)
  | forcedEditFile filename => exact absurd h (stays_forcedEditFile _ _ _ _)
  | readFileAtAddress addr filename => exact absurd h (stays_readFileAtAddress _ _ _ _ _)
  | moveRange range dest => exact absurd h (stays_moveRange _ _ _ _ _)
  | copyRange range dest => exact absurd h (stays_copyRange _ _ _ _ _)
  | printRange range => exact absurd h (stays_printWith _ _ _ _ _)
  | deleteRange range => exact absurd h (stays_deleteRange _ _ _ _)
  | printNumberedRange range => exact absurd h (stays_printWith _ _ _ _ _)
  | printListRange range => exact absurd h (stays_printWith _ _ _ _ _)
  | changeRange range => exact absurd h (stays_changeRange _ _ _ _)
  | joinRange range => exact absurd h (stays_joinRange _ _ _ _)
  | appendLine addr => exact absurd h (stays_appendLine _ _ _ _)
  | insertLine addr => exact absurd h (stays_insertLine _ _ _ _)
  | undo => exact absurd h (stays_undo _ _ _)
  | toggleVerbose => cases h
  | togglePrompt => cases h
  | help =>
    unfold perform at h
    dsimp only at h
    split at h <;> cases h
  | undefined f => cases h

end World

/-! ## One rule for all executions -/

/-- What has to be shown of a relation between the worlds before and after, for executions that return
(`R`) and for those that leave the editor (`E`). -/
structure Rule (R E : World → World → Prop) : Prop where
  refl : ∀ w, R w w
  trans : ∀ {w w1 w2}, R w w1 → R w1 w2 → R w w2
  exit : ∀ {w w1 w2}, R w w1 → E w1 w2 → E w w2
  /-- A command line that is no global command. -/
  call : ∀ {exec : CString → World → Outcome} {fuel : ℕ} {cmd : CString} {w w' : World},
    (w.ed.decode cmd).isGlobal = false →
      (w.record (.call (w.ed.decode cmd) w.toState)).perform exec fuel (w.ed.decode cmd) = running w' →
        R w w'
  quit : ∀ {cmd : CString} {w : World},
    (w.ed.decode cmd = .forcedQuit ∨ w.ed.decode cmd = .quit ∧ w.ed.dirty = false) →
      E w (w.record (.call (w.ed.decode cmd) w.toState))
  global : ∀ {cmd : CString} {w : World}, (w.ed.decode cmd).isGlobal = true →
    R w (w.record (.call (w.ed.decode cmd) w.toState))
  readList : ∀ w, R w w.readList.2
  target : ∀ {w : World} (t : ℕ), w.ed.lines ≠ [] → R w (w.setCurrent (w.clampTarget t))
  restored : ∀ {w w' : World} (bytes : List Byte),
    R { w with input := ⟨bytes, true⟩ } w' → R w { w' with input := w.input }
  replaced : ∀ {w w' : World} (bytes : List Byte), E { w with input := ⟨bytes, true⟩ } w' → E w w'

/-- A relation that holds of an outcome. -/
structure Outcome.Rel (R E : World → World → Prop) (w : World) (o : Outcome) : Prop where
  running : ∀ w', o = running w' → R w w'
  exited : ∀ n w', o = exited n w' → E w w'

section

variable {R E : World → World → Prop} {w : World}

theorem Outcome.rel_running {w' : World} (h : R w w') : (running w').Rel R E w :=
  ⟨fun _ hw => Outcome.running.inj hw ▸ h, fun _ _ hw => Outcome.noConfusion hw⟩

theorem Outcome.rel_of_cut {o : Outcome} (hrun : ∀ w', o ≠ running w') (hexit : o.Stays) : o.Rel R E w :=
  ⟨fun w' hw => absurd hw (hrun w'), fun n w' hw => absurd hw (hexit n w')⟩

end

namespace Rule

variable {R E : World → World → Prop} (hR : Rule R E)
include hR

theorem rel_bind {w : World} {o : Outcome} {f : World → Outcome} (h : o.Rel R E w)
    (hf : ∀ w1, o = running w1 → (f w1).Rel R E w1) : (o.bind f).Rel R E w := by
  cases o with
  | running w1 =>
    obtain ⟨hrun, hexit⟩ := hf w1 rfl
    have h1 := h.running w1 rfl
    exact ⟨fun w' hw => hR.trans h1 (hrun w' hw), fun n w' hw => hR.exit h1 (hexit n w' hw)⟩
  | exited n w1 => exact ⟨fun w' hw => Outcome.noConfusion hw, h.exited⟩
  | critical w1 => exact rel_of_cut (fun _ => Outcome.noConfusion) (stays_critical w1)
  | fault e => exact rel_of_cut (fun _ => Outcome.noConfusion) (stays_fault e)
  | outOfFuel => exact rel_of_cut (fun _ => Outcome.noConfusion) stays_outOfFuel

theorem rel_trans {w w1 : World} {o : Outcome} (h : R w w1) (ho : o.Rel R E w1) : o.Rel R E w :=
  ⟨fun w' hw => hR.trans h (ho.running w' hw), fun n w' hw => hR.exit h (ho.exited n w' hw)⟩

theorem rel_runAll {ι : Type} {f : ι → World → Outcome} (hf : ∀ x w, (f x w).Rel R E w) (xs : List ι)
    (w : World) : (runAll f xs w).Rel R E w := by
  induction xs generalizing w with
  | nil => exact rel_running (hR.refl w)
  | cons x xs ih => exact hR.rel_bind (hf x w) fun w1 _ => ih w1

variable {exec : CString → World → Outcome} (hexec : ∀ cmd w, (exec cmd w).Rel R E w)
include hexec

theorem rel_runLines (n : ℕ) (list : List CString) (w : World) : (w.runLines exec n list).Rel R E w := by
  induction n generalizing list w with
  | zero =>
    cases list with
    | nil => exact rel_running (hR.refl w)
    | cons cmdline list => exact rel_of_cut (fun _ => Outcome.noConfusion) stays_outOfFuel
  | succ n ih =>
    cases list with
    | nil => exact rel_running (hR.refl w)
    | cons cmdline list =>
      unfold World.runLines
      split_ifs
      · exact ih list w
      · have hcmd := hexec cmdline { w with input := ⟨replay cmdline (splitText list).1, true⟩ }
        cases ho : exec cmdline { w with input := ⟨replay cmdline (splitText list).1, true⟩ } with
        | running w1 =>
          exact hR.rel_trans (hR.restored _ (hcmd.running w1 ho)) (ih _ _)
        | exited k w1 =>
          have hE := hR.replaced _ (hcmd.exited k w1 ho)
          refine ⟨fun w' hw => Outcome.noConfusion hw, fun k' w' hw => ?_⟩
          rw [bind_exited] at hw
          injection hw with _ hw
          exact hw ▸ hE
        | critical w1 => exact rel_of_cut (fun _ => Outcome.noConfusion) (stays_critical w1)
        | fault e => exact rel_of_cut (fun _ => Outcome.noConfusion) (stays_fault e)
        | outOfFuel => exact rel_of_cut (fun _ => Outcome.noConfusion) stays_outOfFuel
      · exact hR.rel_bind (hexec cmdline w) fun w1 _ => ih list w1

theorem rel_runList (list : List CString) (t : ℕ) (w : World) : (w.runList exec list t).Rel R E w := by
  unfold World.runList
  split_ifs with hlines
  · exact rel_running (hR.refl w)
  · exact hR.rel_trans (hR.target t hlines) (hR.rel_runLines hexec _ _ _)

theorem rel_turn (inner : CString) (t : ℕ) (w : World) : (w.turn exec inner t).Rel R E w := by
  unfold World.turn
  split_ifs with hglobal hlines
  · exact hexec inner w
  · exact hR.rel_trans (hR.target t hlines) (hexec inner _)
  · exact hexec _ w

theorem rel_global (isG : Bool) (range : AddressRange) (pat inner : CString) (w : World) :
    (w.global exec isG range pat inner).Rel R E w := by
  unfold World.global
  split_ifs
  · exact rel_of_cut (fun _ => Outcome.noConfusion) (stays_critical w)
  · split
    · exact rel_of_cut (fun _ => Outcome.noConfusion) (stays_fault _)
    · exact hR.rel_trans (hR.readList w) (hR.rel_runAll (hR.rel_runList hexec _) _ _)
  · split
    · exact rel_of_cut (fun _ => Outcome.noConfusion) (stays_fault _)
    · exact hR.rel_runAll (hR.rel_turn hexec inner) _ _

omit hexec in
/-- Every execution obeys a rule, by induction on the depth of its global commands. -/
theorem rel_executeCommand (fuel : ℕ) (cmd : CString) (w : World) :
    (executeCommand fuel cmd w).Rel R E w := by
  induction fuel generalizing cmd w with
  | zero => exact rel_of_cut (fun _ => Outcome.noConfusion) stays_outOfFuel
  | succ fuel ih =>
    cases hglobal : (w.ed.decode cmd).isGlobal with
    | false =>
      constructor
      · intro w' hw
        exact hR.call hglobal hw
      · intro n w' hw
        obtain ⟨rfl, hquit⟩ := World.perform_exited hglobal hw
        exact hR.quit hquit
    | true =>
      have hR' := hR.global hglobal
      unfold executeCommand
      cases hcall : w.ed.decode cmd with
      | global isG range pat inner =>
        rw [hcall] at hR'
        exact hR.rel_trans hR' (hR.rel_global ih isG range pat inner _)
      | _ =>
        rw [hcall] at hglobal
        cases hglobal

end Rule

/-! ## The log -/

def Event.isCall : Event → Bool
  | .call _ _ => true
  | _ => false

/-- The log grows, and by no call. -/
def Quiet (log log' : List Event) : Prop := ∃ es, log' = log ++ es ∧ ∀ e ∈ es, e.isCall = false

namespace Quiet

variable {log log' log1 : List Event}

theorem refl (log : List Event) : Quiet log log := ⟨[], (List.append_nil log).symm, by simp⟩

theorem of_append {es : List Event} (hes : ∀ e ∈ es, e.isCall = false) : Quiet log (log ++ es) :=
  ⟨es, rfl, hes⟩

theorem concat {e : Event} (he : e.isCall = false) : Quiet log (log ++ [e]) :=
  of_append fun _ he' => List.mem_singleton.mp he' ▸ he

theorem of_map {α : Type} {f : α → Event} (hf : ∀ x, (f x).isCall = false) (xs : List α) :
    Quiet log (log ++ xs.map f) := by
  apply of_append
  intro e he
  obtain ⟨x, -, rfl⟩ := List.mem_map.mp he
  exact hf x

theorem trans (h : Quiet log log1) (h1 : Quiet log1 log') : Quiet log log' := by
  obtain ⟨es, rfl, hes⟩ := h
  obtain ⟨es1, rfl, hes1⟩ := h1
  refine ⟨es ++ es1, List.append_assoc _ _ _, fun e he => ?_⟩
  exact (List.mem_append.mp he).elim (hes e) (hes1 e)

theorem isPrefix (h : Quiet log log') : log <+: log' := by
  obtain ⟨es, rfl, -⟩ := h
  exact List.prefix_append _ _

end Quiet

theorem Printed.quiet {log log' : List Event} (h : Printed log log') : Quiet log log' := by
  obtain ⟨es, hlog, hes⟩ := h
  refine ⟨es, hlog, fun e he => ?_⟩
  have hout := hes e he
  cases e with
  | print bytes => rfl
  | error m verbose => rfl
  | _ => cases hout

namespace World

variable {exec : CString → World → Outcome} {fuel : ℕ} {w w' : World}

theorem quiet_setError (w : World) (m : Message) : Quiet w.log (w.setError m).log := .concat rfl

theorem quiet_readText (w : World) : Quiet w.log w.readText.2.log := .of_map (fun _ => rfl) _

theorem quiet_readList (w : World) : Quiet w.log w.readList.2.log := .of_map (fun _ => rfl) _

theorem quiet_insertLine {addr : ℤ} (h : w.insertLine addr = running w') : Quiet w.log w'.log := by
  rw [insertLine_eq] at h
  obtain ⟨lines, -, h⟩ := withLines_eq_running h
  split_ifs at h
  · exact Outcome.running.inj h ▸ quiet_readText w
  · exact Outcome.running.inj h ▸ quiet_readText w

theorem quiet_appendLine {addr : ℤ} (h : w.appendLine addr = running w') : Quiet w.log w'.log := by
  rw [appendLine_eq] at h
  obtain ⟨lines, -, h⟩ := withLines_eq_running h
  by_cases htexts : w.readText.1 = []
  · rw [if_pos htexts] at h
    exact Outcome.running.inj h ▸ quiet_readText w
  · rw [if_neg htexts] at h
    exact Outcome.running.inj h ▸ quiet_readText w

theorem quiet_deleteRange {range : AddressRange} (h : w.deleteRange range = running w') :
    Quiet w.log w'.log := by
  rcases deleteRange_running h with ⟨-, rfl⟩ | ⟨-, -, lines, -, rfl⟩
  · exact quiet_setError _ _
  · exact .refl _

theorem quiet_loadFile {filename : CString} (h : w.loadFile filename = running w') : Quiet w.log w'.log := by
  rcases loadFile_running h with ⟨-, rfl⟩ | ⟨bytes, -, lines, out, -, rfl⟩
  · exact quiet_setError _ _
  · exact .of_append (by simp [Event.isCall])

theorem quiet_forcedEditFile {filename : Option CString} (h : w.forcedEditFile filename = running w') :
    Quiet w.log w'.log := by
  obtain ⟨name, -, h⟩ := forcedEditFile_running h
  exact quiet_loadFile (w := { w with ed := {} }) h

/-- What has been recorded stays. -/
theorem quiet_perform {c : Call} (hc : c.isGlobal = false) (h : w.perform exec fuel c = running w') :
    Quiet w.log w'.log := by
  by_cases hplain : c.plain = true
  · exact (perform_plain hplain h).log.quiet
  · cases c with
    | global isG range pat inner => cases hc
    | substituteRange range pattern replacement global =>
      rcases substituteRange_running h with ⟨m, rfl⟩ | ⟨-, lines, -, rfl⟩
      · exact quiet_setError _ _
      · exact .refl _
    | writeFile filename =>
      rcases writeFile_running h with ⟨m, rfl⟩ | ⟨files, name, out, rfl⟩
      · exact quiet_setError _ _
      · exact .of_append (by simp [Event.isCall])
    | editFile filename =>
      rcases editFile_running h with ⟨-, rfl⟩ | ⟨-, h⟩
      · exact quiet_setError _ _
      · exact quiet_forcedEditFile h
    | forcedEditFile filename => exact quiet_forcedEditFile h
    | readFileAtAddress addr filename =>
      change w.readFileAtAddress addr filename = running w' at h
      rw [readFileAtAddress_eq] at h
      split at h
      · exact Outcome.running.inj h ▸ quiet_setError _ _
      · obtain ⟨lines, -, h⟩ := withLines_eq_running h
        rw [← Outcome.running.inj h]
        split_ifs
        · exact .of_append (by simp [Event.isCall])
        · exact .of_append (by simp [Event.isCall])
    | moveRange range dest =>
      rcases moveRange_running h with ⟨m, rfl⟩ | ⟨-, -, -, -, -, rfl⟩
      · exact quiet_setError _ _
      · exact .refl _
    | copyRange range dest =>
      rcases copyRange_running h with ⟨-, rfl⟩ | ⟨-, -, lines, -, rfl⟩
      · exact quiet_setError _ _
      · exact .refl _
    | deleteRange range => exact quiet_deleteRange h
    | changeRange range =>
      rcases changeRange_running h with ⟨-, rfl⟩ | ⟨-, w1, hdelete, hinsert⟩
      · exact quiet_setError _ _
      · exact (quiet_deleteRange hdelete).trans (quiet_insertLine hinsert)
    | joinRange range =>
      rcases joinRange_running h with ⟨-, rfl⟩ | ⟨-, -, rfl⟩ | ⟨-, -, first, -, rfl⟩
      · exact quiet_setError _ _
      · exact .refl _
      · exact .refl _
    | appendLine addr => exact quiet_appendLine h
    | insertLine addr => exact quiet_insertLine h
    | undo =>
      rcases undo_running h with ⟨-, rfl⟩ | ⟨-, rfl⟩
      · exact quiet_setError _ _
      · exact .refl _
    | _ => exact absurd rfl hplain

end World

/-- Every call in a log, with the events before it and the state it is made in, meets a condition. -/
def CallsMeet (cond : List Event → Call → State → Prop) (log : List Event) : Prop :=
  ∀ before c s after, log = before ++ .call c s :: after → cond before c s

theorem CallsMeet.of_prefix {cond : List Event → Call → State → Prop} {log log' : List Event}
    (h : CallsMeet cond log') (hlog : log <+: log') : CallsMeet cond log := by
  obtain ⟨es, rfl⟩ := hlog
  rintro before c s after rfl
  exact h before c s (after ++ es) (by simp)

/-- The calls in a log. -/
def calls (log : List Event) : List Call :=
  log.filterMap fun e => match e with
    | .call c _ => some c
    | _ => none

theorem callsMeet_of_calls {cond : List Event → Call → State → Prop} {log : List Event}
    (h : ∀ c ∈ calls log, ∀ before s, cond before c s) : CallsMeet cond log := by
  rintro before c s after rfl
  refine h c ?_ before s
  simp [calls]

/-- What every leaf of an execution preserves, when its call meets a condition. -/
structure Preserves (cond : List Event → Call → State → Prop) (I : World → Prop) : Prop where
  call : ∀ {exec : CString → World → Outcome} {fuel : ℕ} {cmd : CString} {w w' : World},
    (w.ed.decode cmd).isGlobal = false → cond w.log (w.ed.decode cmd) w.toState → I w →
      (w.record (.call (w.ed.decode cmd) w.toState)).perform exec fuel (w.ed.decode cmd) = running w' →
        I w'
  record : ∀ {w : World} (c : Call), I w → I (w.record (.call c w.toState))
  readList : ∀ {w : World}, I w → I w.readList.2
  target : ∀ {w : World} (t : ℕ), w.ed.lines ≠ [] → I w → I (w.setCurrent (w.clampTarget t))
  input : ∀ {w : World} (input : Input), I w → I { w with input }

/-- The log grows, and the invariant holds after calls that meet the condition. -/
def Keeps (cond : List Event → Call → State → Prop) (I : World → Prop) (w w' : World) : Prop :=
  w.log <+: w'.log ∧ (CallsMeet cond w'.log → I w → I w')

theorem Preserves.rule {cond : List Event → Call → State → Prop} {I : World → Prop}
    (h : Preserves cond I) : Rule (Keeps cond I) (Keeps cond I) := by
  have htrans : ∀ {w w1 w2}, Keeps cond I w w1 → Keeps cond I w1 w2 → Keeps cond I w w2 := by
    intro w w1 w2 h1 h2
    refine ⟨h1.1.trans h2.1, fun hmeet hI => h2.2 hmeet (h1.2 (hmeet.of_prefix h2.1) hI)⟩
  constructor
  case refl => exact fun w => ⟨List.prefix_refl _, fun _ hI => hI⟩
  case trans => exact htrans
  case exit => exact htrans
  case call =>
    intro exec fuel cmd w w' hglobal hrun
    have hlog : w.log ++ [.call (w.ed.decode cmd) w.toState] <+: w'.log := (World.quiet_perform hglobal hrun).isPrefix
    refine ⟨(List.prefix_append _ _).trans hlog, fun hmeet hI => ?_⟩
    obtain ⟨es, hes⟩ := hlog
    exact h.call hglobal (hmeet w.log _ w.toState es (by simp [← hes])) hI hrun
  case quit => exact fun _ => ⟨List.prefix_append _ _, fun _ hI => h.record _ hI⟩
  case global => exact fun _ => ⟨List.prefix_append _ _, fun _ hI => h.record _ hI⟩
  case readList => exact fun w => ⟨(World.quiet_readList w).isPrefix, fun _ hI => h.readList hI⟩
  case target => exact fun t hlines => ⟨List.prefix_refl _, fun _ hI => h.target t hlines hI⟩
  case restored => exact fun bytes hk => ⟨hk.1, fun hmeet hI => h.input _ (hk.2 hmeet (h.input _ hI))⟩
  case replaced => exact fun bytes hk => ⟨hk.1, fun hmeet hI => hk.2 hmeet (h.input _ hI)⟩

/-! ## Runs of the loop of `main` -/

/-- The world in which the editor is left. -/
def Outcome.exit? : Outcome → Option World
  | exited _ w => some w
  | _ => none

/-- The world with which a command returns. -/
def Outcome.run? : Outcome → Option World
  | running w => some w
  | _ => none

theorem run?_eq_some {o : Outcome} {w : World} (h : o.run? = some w) : o = running w := by
  cases o with
  | running w' => exact congrArg running (Option.some.inj h)
  | _ => cases h

theorem exit?_eq_some {o : Outcome} {w : World} (h : o.exit? = some w) : ∃ n, o = exited n w := by
  cases o with
  | exited n w' =>
    obtain rfl := Option.some.inj h
    exact ⟨n, rfl⟩
  | _ => cases h

/-- `main` up to its loop. -/
def World.opened (filename : Option CString) (input : List Byte) (files : Files) : Outcome :=
  match filename with
  | none => running (World.start input files)
  | some f => (World.start input files).loadFile f

/-- The loop of `main` has read a line. -/
def World.readCommand (w : World) (raw rest : List Byte) : World :=
  { w with input := { w.input with bytes := rest } }.record (.command raw)

/-- An outcome that the loop of `main` comes to, after any number of its turns. -/
inductive Session (filename : Option CString) (input : List Byte) (files : Files) : Outcome → Prop
  | start : Session filename input files (World.opened filename input files)
  | step {w : World} {raw rest : List Byte} (fuel : ℕ) : Session filename input files (running w) →
      fgets maxLine w.input.bytes = some (raw, rest) →
        Session filename input files (executeCommand fuel (.ofBytes raw) (w.readCommand raw rest))
  | eof {w : World} (fuel : ℕ) : Session filename input files (running w) →
      fgets maxLine w.input.bytes = none → Session filename input files (executeCommand fuel (.lit "Q") w)

variable {filename : Option CString} {input : List Byte} {files : Files}

theorem Session.mainLoop {fuel n : ℕ} {w : World} (h : Session filename input files (running w))
    (hfuel : mainLoop fuel n w ≠ outOfFuel) : Session filename input files (mainLoop fuel n w) := by
  induction n generalizing w with
  | zero => exact absurd rfl hfuel
  | succ n ih =>
    unfold Ed.mainLoop at hfuel ⊢
    cases hread : fgets maxLine w.input.bytes with
    | none => exact h.eof (fuel + 1) hread
    | some l =>
      rw [hread] at hfuel
      have hstep := h.step fuel hread
      change Session filename input files
        ((executeCommand fuel (.ofBytes l.1) (w.readCommand l.1 l.2)).bind (Ed.mainLoop fuel n))
      change (executeCommand fuel (.ofBytes l.1) (w.readCommand l.1 l.2)).bind (Ed.mainLoop fuel n) ≠
        outOfFuel at hfuel
      by_cases hrun : ∃ w1, executeCommand fuel (.ofBytes l.1) (w.readCommand l.1 l.2) = running w1
      · obtain ⟨w1, ho⟩ := hrun
        rw [ho] at hstep hfuel ⊢
        exact ih hstep hfuel
      · rw [bind_of_cut hrun]
        exact hstep

theorem World.opened_running (filename : Option CString) (input : List Byte) (files : Files) :
    ∃ w, World.opened filename input files = running w := by
  cases filename with
  | none => exact ⟨_, rfl⟩
  | some f =>
    unfold World.opened World.loadFile
    dsimp only
    split
    · exact ⟨_, rfl⟩
    · exact ⟨_, rfl⟩

/-- A run of `main` that ends, or is cut short by a fault, ends where its loop comes to. -/
theorem session_main {fuel : ℕ} (h : main fuel filename input files ≠ outOfFuel) :
    Session filename input files (main fuel filename input files) := by
  have hmain : main fuel filename input files =
      (World.opened filename input files).bind (mainLoop fuel (input.length + 1)) := by
    cases filename <;> rfl
  rw [hmain] at h ⊢
  have hstart : Session filename input files (World.opened filename input files) := .start
  obtain ⟨w, ho⟩ := World.opened_running filename input files
  rw [ho] at hstart h ⊢
  exact hstart.mainLoop h

/-- Every run of the loop obeys a rule that allows for reading a command. -/
theorem Rule.rel_session {R E : World → World → Prop} (hR : Rule R E) {w0 : World}
    (hread : ∀ {w : World} {raw rest : List Byte}, R w0 w →
      fgets maxLine w.input.bytes = some (raw, rest) → R w (w.readCommand raw rest))
    {o : Outcome} (h : Session filename input files o)
    (h0 : World.opened filename input files = running w0) : o.Rel R E w0 := by
  induction h with
  | start =>
    rw [h0]
    exact rel_running (hR.refl w0)
  | step fuel hs hfgets ih =>
    have hw := ih.running _ rfl
    exact hR.rel_trans (hR.trans hw (hread hw hfgets)) (hR.rel_executeCommand _ _ _)
  | eof fuel hs hfgets ih =>
    exact hR.rel_trans (ih.running _ rfl) (hR.rel_executeCommand _ _ _)

end ValidcTools.Ed
