import ValidcTools.Ed.Runs

/-! The lines of a buffer are told apart by their `id`s, in every state that `ed` reaches. -/
namespace ValidcTools.Ed
open Outcome

/-- No two lines are the same one, and none is a line that has yet to be made. -/
structure Told (fresh : ℕ) (lines : List Line) : Prop where
  nodup : (lines.map Line.id).Nodup
  below : ∀ l ∈ lines, l.id < fresh

namespace Told

variable {fresh : ℕ} {lines lines' : List Line}

theorem nil (fresh : ℕ) : Told fresh [] := ⟨List.nodup_nil, by simp⟩

theorem mono {fresh' : ℕ} (h : Told fresh lines) (hle : fresh ≤ fresh') : Told fresh' lines :=
  ⟨h.nodup, fun l hl => (h.below l hl).trans_le hle⟩

theorem sublist (h : Told fresh lines) (hsub : lines'.Sublist lines) : Told fresh lines' :=
  ⟨h.nodup.sublist (hsub.map _), fun l hl => h.below l (hsub.subset hl)⟩

theorem perm (h : Told fresh lines) (hperm : lines'.Perm lines) : Told fresh lines' :=
  ⟨(hperm.map Line.id).nodup_iff.mpr h.nodup, fun l hl => h.below l (hperm.subset hl)⟩

theorem of_ids (h : Told fresh lines) (hids : lines'.map Line.id = lines.map Line.id) :
    Told fresh lines' := by
  refine ⟨hids ▸ h.nodup, fun l hl => ?_⟩
  have hmem : l.id ∈ lines.map Line.id := hids ▸ List.mem_map_of_mem hl
  obtain ⟨l', hl', hid⟩ := List.mem_map.mp hmem
  exact hid ▸ h.below l' hl'

theorem new (fresh : ℕ) (texts : List CString) : Told (fresh + texts.length) (newLines fresh texts) := by
  refine ⟨?_, fun l hl => (mem_newLines_id hl).2⟩
  rw [newLines_map_id]
  exact List.nodup_range'

theorem append_new (h : Told fresh lines) (texts : List CString) :
    Told (fresh + texts.length) (lines ++ newLines fresh texts) := by
  have hnew := Told.new fresh texts
  constructor
  · rw [List.map_append, List.nodup_append]
    refine ⟨h.nodup, hnew.nodup, ?_⟩
    intro id hid id' hid'
    obtain ⟨l, hl, rfl⟩ := List.mem_map.mp hid
    obtain ⟨l', hl', rfl⟩ := List.mem_map.mp hid'
    have hlt := h.below l hl
    have hle := (mem_newLines_id hl').1
    omega
  · intro l hl
    rcases List.mem_append.mp hl with hold | hl
    · have hlt := h.below l hold
      omega
    · exact hnew.below l hl

theorem insertedAt_perm (lines new : List Line) (pos : ℕ) :
    (insertedAt lines pos new).Perm (lines ++ new) := by
  unfold insertedAt
  rw [List.append_assoc]
  calc (lines.take pos ++ (new ++ lines.drop pos)).Perm (lines.take pos ++ (lines.drop pos ++ new)) :=
        List.Perm.append_left _ List.perm_append_comm
    _ = lines ++ new := by rw [← List.append_assoc, List.take_append_drop]

theorem insert_new (h : Told fresh lines) (texts : List CString) (pos : ℕ) :
    Told (fresh + texts.length) (insertedAt lines pos (newLines fresh texts)) :=
  (h.append_new texts).perm (insertedAt_perm _ _ _)

theorem without (h : Told fresh lines) (start k : ℕ) : Told fresh (without lines start k) := by
  apply h.sublist
  have hdrop : (lines.drop (start + k)).Sublist (lines.drop start) := by
    rw [← List.drop_drop]
    exact List.drop_sublist _ _
  calc (Ed.without lines start k).Sublist (lines.take start ++ lines.drop start) :=
        List.Sublist.append (List.Sublist.refl _) hdrop
    _ = lines := List.take_append_drop _ _

theorem movedTo_perm (lines : List Line) (start k pos : ℕ) : (movedTo lines start k pos).Perm lines := by
  have hsplit : lines.drop start = (lines.drop start).take k ++ lines.drop (start + k) := by
    rw [← List.drop_drop, List.take_append_drop]
  calc (movedTo lines start k pos).Perm (Ed.without lines start k ++ (lines.drop start).take k) :=
        insertedAt_perm _ _ _
    _ = lines.take start ++ (lines.drop (start + k) ++ (lines.drop start).take k) :=
        List.append_assoc _ _ _
    _ |>.Perm (lines.take start ++ ((lines.drop start).take k ++ lines.drop (start + k))) :=
        List.Perm.append_left _ List.perm_append_comm
    _ = lines := by rw [← hsplit, List.take_append_drop]

end Told

/-- The lines of the buffer and those of the snapshot. -/
structure Distinct (w : World) : Prop where
  lines : Told w.fresh w.ed.lines
  undoLines : Told w.fresh w.ed.undoLines

namespace Distinct

variable {w w' : World}

theorem prepareUndo (h : Distinct w) : Distinct w.prepareUndo := ⟨h.lines, h.lines⟩

theorem setError (h : Distinct w) (m : Message) : Distinct (w.setError m) := ⟨h.lines, h.undoLines⟩

theorem start (input : List Byte) (files : Files) : Distinct (World.start input files) :=
  ⟨.nil _, .nil _⟩

theorem insertLine {addr : ℤ} (h0 : 0 ≤ addr) (h : Distinct w) (hrun : w.insertLine addr = running w') :
    Distinct w' := by
  rcases World.insertLine_running h0 hrun with ⟨-, rfl⟩ | ⟨-, -, rfl⟩
  · exact ⟨h.lines, h.lines⟩
  · exact ⟨h.lines.insert_new _ _, h.lines.mono (Nat.le_add_right _ _)⟩

theorem deleteRange {range : AddressRange} (h : Distinct w) (hrun : w.deleteRange range = running w') :
    Distinct w' := by
  rcases World.deleteRange_running hrun with ⟨-, rfl⟩ | ⟨-, -, lines, rfl, rfl⟩
  · exact h.prepareUndo.setError _
  · exact ⟨h.lines.without _ _, h.lines⟩

theorem loadFile {name : CString} (h : Distinct w) (hrun : w.loadFile name = running w') : Distinct w' := by
  rcases World.loadFile_running hrun with ⟨-, rfl⟩ | ⟨bytes, -, lines, out, rfl, rfl⟩
  · exact h.setError _
  · have hnew := h.lines.append_new ((fileLines bytes).map Prod.fst)
    rw [List.length_map] at hnew
    exact ⟨hnew, h.undoLines.mono (Nat.le_add_right _ _)⟩

theorem forcedEditFile {filename : Option CString} (hrun : w.forcedEditFile filename = running w') :
    Distinct w' := by
  obtain ⟨name, -, hrun⟩ := World.forcedEditFile_running hrun
  exact loadFile ⟨.nil _, .nil _⟩ hrun

theorem readFileAtAddress {addr : ℤ} {name : CString} (h0 : -1 ≤ addr) (h : Distinct w)
    (hrun : w.readFileAtAddress addr name = running w') : Distinct w' := by
  rcases World.readFileAtAddress_running h0 hrun with ⟨-, rfl⟩ | ⟨bytes, -, -, lines, hlines, rfl⟩
  · exact h.prepareUndo.setError _
  · have hnew := h.lines.insert_new ((fileLines bytes).map Prod.fst) (addr + 1).toNat
    rw [List.length_map, ← hlines] at hnew
    have hundo := h.lines.mono (Nat.le_add_right w.fresh (fileLines bytes).length)
    split_ifs
    · exact ⟨hnew, hundo⟩
    · exact ⟨hnew, hundo⟩

theorem copyRange {range : AddressRange} {dest : ℤ} (h : Distinct w)
    (hrun : w.copyRange range dest = running w') : Distinct w' := by
  rcases World.copyRange_running hrun with ⟨-, rfl⟩ | ⟨hin, -, lines, hlines, rfl⟩
  · exact h.prepareUndo.setError _
  · refine ⟨?_, h.lines.mono (Nat.le_add_right _ _)⟩
    rcases hlines with ⟨hcount, -, rfl⟩ | ⟨-, -, -, rfl⟩
    · obtain ⟨hs0, hstop0, hs, hstop⟩ := AddressRange.outside_eq_false_iff.mp hin
      have hk : range.count = range.stop - range.start + 1 := rfl
      have hn : w.ed.numLines = w.ed.lines.length := rfl
      have hlen : ((w.ed.lines.drop range.start.toNat).take range.count.toNat).length =
          range.count.toNat := by
        rw [List.length_take, List.length_drop]
        omega
      have hnew := h.lines.insert_new
        (((w.ed.lines.drop range.start.toNat).take range.count.toNat).map Line.text) (dest + 1).toNat
      rw [List.length_map, hlen] at hnew
      exact hnew
    · exact (h.lines.sublist (List.take_sublist _ _)).mono (Nat.le_add_right _ _)

theorem joinRange {range : AddressRange} (h : Distinct w) (hrun : w.joinRange range = running w') :
    Distinct w' := by
  rcases World.joinRange_running hrun with ⟨-, rfl⟩ | ⟨-, -, rfl⟩ | ⟨-, -, first, hfirst, rfl⟩
  · exact h.prepareUndo.setError _
  · exact ⟨h.lines, h.lines⟩
  · refine ⟨Told.without ?_ _ _, h.lines⟩
    apply h.lines.of_ids
    rw [List.map_set]
    apply World.set_of_getElem?
    rw [List.getElem?_map, hfirst]
    rfl

/-- One call keeps the lines apart. -/
theorem perform {exec : CString → World → Outcome} {fuel : ℕ} {c : Call}
    (hglobal : c.isGlobal = false) (hbounds : c.InBounds w.ed.numLines) (h : Distinct w)
    (hrun : w.perform exec fuel c = running w') : Distinct w' := by
  by_cases hplain : c.plain = true
  · have hstep := World.perform_plain hplain hrun
    constructor
    · rw [hstep.fresh, hstep.lines]
      exact h.lines
    · rw [hstep.fresh, hstep.undoLines]
      exact h.undoLines
  · cases c with
    | global isG range pat inner => cases hglobal
    | substituteRange range pattern replacement global =>
      rcases World.substituteRange_running hrun with ⟨m, rfl⟩ | ⟨-, lines, hids, rfl⟩
      · exact h.prepareUndo.setError _
      · exact ⟨h.lines.of_ids hids, h.lines⟩
    | writeFile filename =>
      rcases World.writeFile_running hrun with ⟨m, rfl⟩ | ⟨files, name, out, rfl⟩
      · exact h.setError _
      · exact ⟨h.lines, h.undoLines⟩
    | editFile filename =>
      rcases World.editFile_running hrun with ⟨-, rfl⟩ | ⟨-, hrun⟩
      · exact h.setError _
      · exact forcedEditFile hrun
    | forcedEditFile filename => exact forcedEditFile hrun
    | readFileAtAddress addr filename => exact readFileAtAddress hbounds.1 h hrun
    | moveRange range dest =>
      rcases World.moveRange_running hrun with ⟨m, rfl⟩ | ⟨-, -, -, -, -, rfl⟩
      · exact h.prepareUndo.setError _
      · exact ⟨h.lines.perm (Told.movedTo_perm _ _ _ _), h.lines⟩
    | copyRange range dest => exact copyRange h hrun
    | deleteRange range => exact deleteRange h hrun
    | changeRange range =>
      rcases World.changeRange_running hrun with ⟨-, rfl⟩ | ⟨-, w1, hdelete, hinsert⟩
      · exact h.prepareUndo.setError _
      · exact insertLine (le_max_right _ _) (deleteRange h hdelete) hinsert
    | joinRange range => exact joinRange h hrun
    | appendLine addr =>
      rcases World.appendLine_running hbounds hrun with ⟨-, rfl⟩ | ⟨-, -, rfl⟩
      · exact ⟨h.lines, h.lines⟩
      · exact ⟨h.lines.insert_new _ _, h.lines.mono (Nat.le_add_right _ _)⟩
    | insertLine addr => exact insertLine hbounds h hrun
    | undo =>
      rcases World.undo_running hrun with ⟨-, rfl⟩ | ⟨-, rfl⟩
      · exact h.setError _
      · exact ⟨h.undoLines, .nil _⟩
    | _ => exact absurd rfl hplain

end Distinct

theorem preserves_distinct : Preserves (fun _ _ _ => True) Distinct where
  call := fun {_ _ cmd w _} hglobal _ h hrun =>
    Distinct.perform (w := w.record (.call (w.ed.decode cmd) w.toState)) hglobal
      (w.ed.decode_inBounds cmd) ⟨h.lines, h.undoLines⟩ hrun
  record := fun _ h => ⟨h.lines, h.undoLines⟩
  readList := fun h => ⟨h.lines, h.undoLines⟩
  target := fun _ _ h => ⟨h.lines, h.undoLines⟩
  input := fun _ h => ⟨h.lines, h.undoLines⟩

/-- The worlds in which command lines are executed: by the loop of `main`, or by a global command, which
also sets the current line and replaces the input. -/
inductive World.Reached : World → Prop
  | opened {filename : Option CString} {input : List Byte} {files : Files} {w : World} :
      World.opened filename input files = running w → Reached w
  | execute {fuel : ℕ} {cmd : CString} {w w' : World} :
      Reached w → executeCommand fuel cmd w = running w' → Reached w'
  | read {w : World} (input : Input) (log : List Event) : Reached w → Reached { w with input, log }
  | target {w : World} (t : ℕ) : w.ed.lines ≠ [] → Reached w → Reached (w.setCurrent (w.clampTarget t))

theorem Session.reached {filename : Option CString} {input : List Byte} {files : Files} {o : Outcome}
    (h : Session filename input files o) {w : World} (hw : o = running w) : w.Reached := by
  induction h generalizing w with
  | start => exact .opened hw
  | step fuel hs hfgets ih => exact .execute (.read _ _ (ih rfl)) hw
  | eof fuel hs hfgets ih => exact .execute (ih rfl) hw

theorem World.Reached.runAll {fuel : ℕ} {cmds : List CString} {w w' : World} (h : w.Reached)
    (hrun : runAll (executeCommand fuel) cmds w = running w') : w'.Reached := by
  induction cmds generalizing w with
  | nil => exact Outcome.running.inj hrun ▸ h
  | cons cmd cmds ih =>
    obtain ⟨w1, h1, hrun⟩ := bind_eq_running hrun
    exact ih (.execute h h1) hrun

/-- In every state that `ed` reaches the lines are told apart. -/
theorem World.Reached.distinct {w : World} (h : w.Reached) : Distinct w := by
  induction h with
  | @opened filename input files w h0 =>
    cases filename with
    | none =>
      obtain rfl := Outcome.running.inj h0
      exact .start _ _
    | some f => exact Distinct.loadFile (.start _ _) h0
  | execute hw hrun ih =>
    have hkeeps := (preserves_distinct.rule.rel_executeCommand _ _ _).running _ hrun
    exact hkeeps.2 (fun _ _ _ _ _ => trivial) ih
  | read input log hw ih => exact ⟨ih.lines, ih.undoLines⟩
  | target t hlines hw ih => exact ⟨ih.lines, ih.undoLines⟩

/-- Three lines are about to be typed. -/
def threeLinesTyped : World :=
  .start (asciiBytes "x\ny\nz\n.\n") ⟨fun _ => none, fun _ => true⟩

theorem threeLinesTyped_reached : threeLinesTyped.Reached := by
  have hstart : World.opened none (asciiBytes "x\ny\nz\n.\n") ⟨fun _ => none, fun _ => true⟩ =
      running threeLinesTyped :=
    rfl
  exact .opened hstart

end ValidcTools.Ed
