import ValidcTools.Ed.Delivery
import ValidcTools.Ed.Guarded
import ValidcTools.Ed.Search

/-! The current line, the marks and the line indices of `ed` stay in the buffer, and where they do not. -/
namespace ValidcTools.Ed
open Outcome

/-- The current line, if there is one, and every mark that is set are lines of the buffer. -/
structure Editor.Inside (ed : Editor) : Prop where
  current_ge : -1 ≤ ed.currentLine
  current_lt : ed.currentLine < ed.numLines
  mark_lt : ∀ i, ed.marks i < ed.numLines

/-- What these bounds are about. -/
def Editor.bearings (ed : Editor) : List Line × ℤ × Marks × List Line × ℤ × Bool :=
  (ed.lines, ed.currentLine, ed.marks, ed.undoLines, ed.undoCurrentLine, ed.undoValid)

/-- So is the current line of the snapshot in the snapshot. -/
structure World.Sound (w : World) : Prop where
  inside : w.ed.Inside
  undo_ge : w.ed.undoValid = true → -1 ≤ w.ed.undoCurrentLine
  undo_lt : w.ed.undoValid = true → w.ed.undoCurrentLine < w.ed.undoLines.length

/-- The lines of text that `append_line` and `insert_line` would read. -/
def State.typed (s : State) : List CString := (readText s.input.bytes.length s.input.bytes).lines

/-- The calls that stay in the buffer. -/
def KeepsInside (c : Call) (s : State) : Prop :=
  match c with
  -- An address of 1 that stands for a missing one before a comma is no line of an empty buffer.
  | .readFileAtAddress addr name =>
    addr < s.ed.numLines ∨ ∀ bytes ∈ s.files.content name, fileLines bytes = []
  | .appendLine addr => addr < s.ed.numLines ∨ s.typed = []
  | .insertLine addr => addr < s.ed.numLines ∨ s.typed ≠ []
  -- Nothing checks that a range is not reversed.
  | .copyRange range dest =>
    0 ≤ range.count ∨ s.ed.numLines ≤ dest + 1 ∧ ∀ i, s.ed.marks i < s.ed.numLines + range.count
  | .deleteRange range => 0 ≤ range.count
  | .changeRange range => 0 ≤ range.count ∧ (range.stop + 1 < s.ed.numLines ∨ s.typed ≠ [])
  -- The marks are left as they are.
  | .joinRange range =>
    range.start ≤ range.stop ∧ ∀ i, s.ed.marks i < s.ed.numLines - (range.stop - range.start)
  | .undo => s.ed.undoValid = true → ∀ i, s.ed.marks i < s.ed.undoLines.length
  | _ => True

instance : DecidableRel KeepsInside := fun c s => by
  cases c <;> unfold KeepsInside <;> infer_instance

/-! ## Addresses -/

/-- The bounds of arguments that a current line in the buffer adds. -/
def Call.Within (numLines : ℤ) : Call → Prop
  | .appendLine addr | .insertLine addr => addr < max numLines 1
  | .moveRange _ dest | .copyRange _ dest => dest < numLines
  | .undefined f => f ≠ .lineIndex
  | _ => True

theorem Call.Within.ite {numLines : ℤ} {p : Prop} [Decidable p] {c c' : Call}
    (hc : c.Within numLines) (hc' : c'.Within numLines) : (if p then c else c').Within numLines := by
  split_ifs
  · exact hc
  · exact hc'

namespace Editor

variable {ed : Editor}

theorem firstMatch_matcher {pat : CString} {idxs : List ℕ} (hidxs : ∀ i ∈ idxs, i < ed.lines.length)
    {f : Fault} (h : ed.firstMatch pat idxs = .error f) : f = .matcher := by
  obtain ⟨i, -, hline⟩ := firstMatch_error hidxs h
  obtain ⟨line, -, hok⟩ := Option.map_eq_some_iff.mp hline
  exact breOk_error hok

theorem searchPattern_error (hlt : ed.currentLine < ed.numLines) {pattern : List Byte} {forward : Bool}
    {f : Fault} (h : ed.searchPattern pattern forward = .error f) : f = .matcher := by
  unfold searchPattern at h
  dsimp only at h
  split_ifs at h with hlines hlong h0 hforward hforward
  all_goals
    refine firstMatch_matcher (fun i hi => ?_) h
    have hpos : 0 < ed.lines.length := List.length_pos_iff.mpr hlines
    have hn : ed.numLines = ed.lines.length := rfl
    simp only [List.mem_append, List.mem_reverse, List.mem_range, List.mem_range'_1] at hi
    omega

theorem parseRegexOffset_lt (found : ℤ) (p : List Byte) : ed.parseRegexOffset found p < ed.numLines := by
  have hn : 0 ≤ ed.numLines := Int.natCast_nonneg _
  unfold parseRegexOffset
  dsimp only
  split
  · omega
  · split_ifs
    · omega
    · omega

theorem parseAddress_lt (hlt : ed.currentLine < ed.numLines) {addr : List Byte} {n : ℤ}
    (h : ed.parseAddress addr = .ok n) : n < ed.numLines := by
  have hn : 0 ≤ ed.numLines := Int.natCast_nonneg _
  unfold parseAddress at h
  split at h
  · exact Except.ok.inj h ▸ hlt
  · dsimp only at h
    split_ifs at h with hdelim hshort
    · have := Except.ok.inj h
      omega
    · cases hsearch : ed.searchPattern _ _ with
      | error f =>
        rw [hsearch] at h
        cases h
      | ok found =>
        rw [hsearch] at h
        rw [← Except.ok.inj h]
        dsimp only
        split_ifs
        · omega
        · exact parseRegexOffset_lt _ _
    · split at h
      · split_ifs at h with hout
        · have := Except.ok.inj h
          omega
        · have := Except.ok.inj h
          omega
      · have := Except.ok.inj h
        omega

theorem parseAddress_error (hlt : ed.currentLine < ed.numLines) {addr : List Byte} {f : Fault}
    (h : ed.parseAddress addr = .error f) : f ≠ .lineIndex := by
  unfold parseAddress at h
  split at h
  · cases h
  · dsimp only at h
    split_ifs at h with hdelim hshort
    · cases hsearch : ed.searchPattern _ _ with
      | error f' =>
        rw [hsearch] at h
        obtain rfl := Except.error.inj h
        rw [searchPattern_error hlt hsearch]
        exact Fault.noConfusion
      | ok found =>
        rw [hsearch] at h
        cases h
    · split at h
      · split_ifs at h
      · cases h

section Within

variable {a : EdAddress} {line : List Byte}

theorem onRange_within {range : AddressRange} {f : AddressRange → Call} (hf : (f range).Within ed.numLines) :
    (ed.onRange range f).Within ed.numLines := by
  unfold onRange
  split_ifs
  · trivial
  · exact hf

theorem onRangeOrCurrent_within {f : AddressRange → Call} (hf : ∀ r, (f r).Within ed.numLines) :
    (ed.onRangeOrCurrent a f).Within ed.numLines := by
  unfold onRangeOrCurrent
  split
  · trivial
  · exact onRange_within (hf _)

theorem globalCall_within {isG : Bool} {p : List Byte} : (ed.globalCall isG a p).Within ed.numLines := by
  unfold globalCall
  split
  · trivial
  · dsimp only
    split_ifs
    · trivial
    · exact onRange_within trivial

theorem substituteCall_within {p : List Byte} : (ed.substituteCall a p).Within ed.numLines := by
  unfold substituteCall
  split
  · trivial
  · split
    · trivial
    · split_ifs
      · exact onRangeOrCurrent_within fun _ => trivial
      · trivial

theorem lineNumberCall_within (hlt : ed.currentLine < ed.numLines) :
    (ed.lineNumberCall line).Within ed.numLines := by
  unfold lineNumberCall
  split_ifs
  · trivial
  · split
    · rename_i f hparse
      exact parseAddress_error hlt hparse
    · split_ifs
      · trivial
      · trivial

theorem destinationCall_within (hlt : ed.currentLine < ed.numLines) {g : AddressRange → ℤ → Call}
    (hg : ∀ r d, d < ed.numLines → (g r d).Within ed.numLines) :
    (ed.destinationCall a line g).Within ed.numLines := by
  unfold destinationCall
  split
  · trivial
  · apply onRangeOrCurrent_within
    intro r
    split
    · rename_i f hparse
      exact parseAddress_error hlt hparse
    · rename_i d hparse
      split_ifs
      · trivial
      · exact hg r d (parseAddress_lt hlt hparse)

theorem editCall_within {g : Option CString → Call} (hg : ∀ name, (g name).Within ed.numLines) :
    (ed.editCall line g).Within ed.numLines := by
  unfold editCall
  split
  · exact hg _
  · split_ifs
    · trivial
    · exact hg _

theorem singleCall_within (hlt : ed.currentLine < ed.numLines) (ha : a.InBounds ed.numLines) {op : Byte} :
    (ed.singleCall op a).Within ed.numLines := by
  obtain ⟨-, -, -, h1, -⟩ := ha
  have haddr : (if a.addr1 = 0 then ed.currentLine else a.addr1 - 1) < max ed.numLines 1 := by
    split_ifs <;> omega
  unfold singleCall
  dsimp only
  generalize (if a.addr1 = 0 then ed.currentLine else a.addr1 - 1) = addr at haddr
  apply Call.Within.ite
  · change (if addr < 0 then if 0 < ed.numLines then ed.numLines - 1 else -1 else addr) < max ed.numLines 1
    split_ifs <;> omega
  apply Call.Within.ite
  · change (if addr < 0 then 0 else addr) < max ed.numLines 1
    split_ifs <;> omega
  iterate 7
    apply Call.Within.ite
    · trivial
  trivial

theorem dispatch_within (hlt : ed.currentLine < ed.numLines) (ha : a.InBounds ed.numLines) :
    (ed.dispatch line a).Within ed.numLines := by
  unfold dispatch
  split
  · split_ifs
    · trivial
    · trivial
    · trivial
  · refine .ite globalCall_within (.ite substituteCall_within ?_)
    split
    · unfold markCall
      exact .ite trivial trivial
    · apply Call.Within.ite
      · exact lineNumberCall_within hlt
      apply Call.Within.ite
      · trivial
      apply Call.Within.ite
      · trivial
      apply Call.Within.ite
      · unfold writeAppendCall
        split
        · trivial
        · exact onRange_within trivial
      apply Call.Within.ite
      · exact editCall_within fun _ => trivial
      apply Call.Within.ite
      · exact editCall_within fun _ => trivial
      apply Call.Within.ite
      · unfold readCall
        split
        · trivial
        · trivial
      apply Call.Within.ite
      · exact destinationCall_within hlt fun _ _ h => h
      apply Call.Within.ite
      · exact destinationCall_within hlt fun _ _ h => h
      iterate 6
        apply Call.Within.ite
        · exact onRangeOrCurrent_within fun _ => trivial
      exact singleCall_within hlt ha

/-- What a command line calls for, when the current line is in the buffer. -/
theorem decode_within (hlt : ed.currentLine < ed.numLines) (cmd : CString) :
    (ed.decode cmd).Within ed.numLines := by
  unfold decode decodeBuffer
  split_ifs
  · trivial
  · split
    · trivial
    · rename_i a hparse
      exact dispatch_within hlt (parseEdAddress_inBounds hparse (Int.natCast_nonneg _))

end Within

end Editor

/-! ## The marks -/

theorem updateMarksAfterInsert_lt {marks : Marks} {n pos k : ℤ} {i : Fin 26} (hk : 0 ≤ k) (h : marks i < n) :
    updateMarksAfterInsert marks pos k i < n + k := by
  unfold updateMarksAfterInsert
  split_ifs
  · omega
  · omega
  · omega

theorem updateMarksAfterDelete_lt {marks : Marks} {n start k : ℤ} {i : Fin 26} (h0 : 0 ≤ start)
    (hn : start + k ≤ n) (h : marks i < n) : updateMarksAfterDelete marks start k i < n - k := by
  unfold updateMarksAfterDelete
  split_ifs
  · omega
  · omega
  · omega
  · omega

open World in
theorem moveMarks_lt {marks : Marks} {n dest : ℤ} {range : AddressRange} {i : Fin 26}
    (hin : range.outside n = false) (hk : 0 ≤ range.count) (hdest : dest < n)
    (hself : ¬ (range.start ≤ dest ∧ dest ≤ range.stop)) (h : marks i < n) : moveMarks marks range dest i < n := by
  obtain ⟨hs0, hstop0, hs, hstop⟩ := AddressRange.outside_eq_false_iff.mp hin
  have hcount : range.count = range.stop - range.start + 1 := rfl
  have hadj : adjustedDest range dest = if dest > range.stop then dest - range.count else dest := rfl
  unfold moveMarks
  dsimp only
  rw [hadj]
  split_ifs <;> omega

/-! ## The operations -/

theorem insertAll?_of_le {lines : List Line} {pos : ℤ} (h0 : 0 ≤ pos) (h : pos ≤ lines.length)
    (new : List Line) : Cells.insertAll? lines pos new = some (insertedAt lines pos.toNat new) := by
  have heq : Cells.insertAll? lines (pos.toNat : ℕ) new = some (insertedAt lines pos.toNat new) :=
    Cells.insertAll?_eq (by omega) new
  rwa [Int.toNat_of_nonneg h0] at heq

theorem length_insertedAt (lines : List Line) (pos : ℕ) (new : List Line) :
    (insertedAt lines pos new).length = lines.length + new.length := by
  unfold insertedAt
  rw [List.length_append, List.length_append, List.length_take, List.length_drop]
  omega

/-- New lines, and the marks that go with them. -/
theorem Editor.Inside.insert {ed ed' : Editor} (h : ed.Inside) {pos k : ℕ} {p : ℤ} {new : List Line}
    (hk : new.length = k) (hlines : ed'.lines = insertedAt ed.lines pos new)
    (hmarks : ed'.marks = updateMarksAfterInsert ed.marks p k) (hge : -1 ≤ ed'.currentLine)
    (hlt : ed'.currentLine < ed.numLines + k) : ed'.Inside := by
  have hn : ed'.numLines = ed.numLines + k := by
    unfold Editor.numLines
    rw [hlines, length_insertedAt, hk, Nat.cast_add]
  refine ⟨hge, hn ▸ hlt, fun i => ?_⟩
  rw [hmarks, hn]
  exact updateMarksAfterInsert_lt (Int.natCast_nonneg _) (h.mark_lt i)

namespace World.Sound

variable {w w' : World}

/-- Nothing else counts. -/
theorem congr (h : w.Sound) (heq : w'.ed.bearings = w.ed.bearings) : w'.Sound := by
  simp only [Editor.bearings, Prod.mk.injEq] at heq
  obtain ⟨hlines, hcurrent, hmarks, hundo, hundoCurrent, hvalid⟩ := heq
  obtain ⟨⟨hge, hlt, hmark⟩, hundoGe, hundoLt⟩ := h
  unfold Editor.numLines at hlt hmark
  rw [← hcurrent] at hge hlt
  rw [← hlines] at hlt hmark
  rw [← hmarks] at hmark
  rw [← hundoCurrent, ← hvalid] at hundoGe hundoLt
  rw [← hundo] at hundoLt
  exact ⟨⟨hge, hlt, hmark⟩, hundoGe, hundoLt⟩

theorem setError (h : w.Sound) (m : Message) : (w.setError m).Sound :=
  h.congr rfl

theorem print (h : w.Sound) (bytes : List Byte) : (w.print bytes).Sound :=
  h.congr rfl

theorem prepareUndo (h : w.Sound) : w.prepareUndo.Sound :=
  ⟨⟨h.inside.current_ge, h.inside.current_lt, h.inside.mark_lt⟩, fun _ => h.inside.current_ge,
    fun _ => h.inside.current_lt⟩

theorem setCurrent (h : w.Sound) {addr : ℤ} (h0 : -1 ≤ addr) (hlt : addr < w.ed.numLines) :
    (w.setCurrent addr).Sound :=
  ⟨⟨h0, hlt, h.inside.mark_lt⟩, h.undo_ge, h.undo_lt⟩

/-- After an edit the snapshot is the buffer before it. -/
theorem edited (h : w.Sound) (hlines : w'.ed.undoLines = w.ed.lines)
    (hcurrent : w'.ed.undoCurrentLine = w.ed.currentLine) (hinside : w'.ed.Inside) : w'.Sound := by
  refine ⟨hinside, fun _ => ?_, fun _ => ?_⟩
  · rw [hcurrent]
    exact h.inside.current_ge
  · rw [hcurrent, hlines]
    exact h.inside.current_lt

end World.Sound

namespace World

variable {w w' : World} {range : AddressRange} {addr : ℤ}

theorem Sound.safe_appendLine (h : w.Sound) (h0 : -1 ≤ addr) (hmax : addr < max w.ed.numLines 1)
    (hkeeps : addr < w.ed.numLines ∨ w.toState.typed = []) : (w.appendLine addr).Safe Sound := by
  have hn : w.ed.numLines = w.ed.lines.length := rfl
  obtain ⟨hge, hlt, hmark⟩ := h.inside
  rw [appendLine_eq]
  by_cases htexts : w.readText.1 = []
  · have hread : Cells.insertAll? w.ed.lines (addr + 1) (newLines w.fresh w.readText.1) = some w.ed.lines := by
      rw [htexts]
      rfl
    rw [hread, withLines_some, if_pos htexts]
    refine safe_running (h.edited rfl rfl ⟨?_, ?_, hmark⟩)
    · dsimp only
      split_ifs <;> omega
    · change (if 0 < w.ed.numLines ∧ addr + 1 < w.ed.numLines then addr + 1
        else if 0 < w.ed.numLines then addr else w.ed.currentLine) < w.ed.numLines
      split_ifs <;> omega
  · have haddr : addr < w.ed.numLines := hkeeps.resolve_right htexts
    rw [insertAll?_of_le (by omega) (by omega), withLines_some, if_neg htexts]
    refine safe_running (h.edited rfl rfl (h.inside.insert (length_newLines _ _) rfl rfl ?_ ?_))
    · dsimp only; omega
    · dsimp only; omega

theorem Sound.safe_insertLine (h : w.Sound) (h0 : 0 ≤ addr) (hmax : addr ≤ w.ed.numLines)
    (hkeeps : addr < w.ed.numLines ∨ w.toState.typed ≠ []) : (w.insertLine addr).Safe Sound := by
  have hn : w.ed.numLines = w.ed.lines.length := rfl
  obtain ⟨hge, hlt, hmark⟩ := h.inside
  rw [insertLine_eq, insertAll?_of_le h0 hmax, withLines_some]
  by_cases htexts : w.readText.1 = []
  · rw [if_pos htexts]
    have haddr : addr < w.ed.numLines := hkeeps.resolve_right fun hne => hne htexts
    exact safe_running (h.edited rfl rfl ⟨h0.trans' (by omega), haddr, hmark⟩)
  · have hlen : 0 < w.readText.1.length := List.length_pos_iff.mpr htexts
    rw [if_neg htexts]
    refine safe_running (h.edited rfl rfl (h.inside.insert (length_newLines _ _) rfl rfl ?_ ?_))
    · dsimp only; omega
    · dsimp only; omega

theorem Sound.safe_deleteRange (h : w.Sound) (hkeeps : 0 ≤ range.count) : (w.deleteRange range).Safe Sound := by
  have hn : w.ed.numLines = w.ed.lines.length := rfl
  unfold deleteRange
  dsimp only
  split_ifs with hout
  · exact safe_running (h.prepareUndo.setError _)
  · obtain ⟨hs0, hstop0, hs, hstop⟩ :=
      AddressRange.outside_eq_false_iff.mp (Bool.eq_false_of_not_eq_true hout)
    have hk : range.count = range.stop - range.start + 1 := rfl
    have hstart : ((range.start.toNat : ℕ) : ℤ) = range.start := Int.toNat_of_nonneg hs0
    have hcount : ((range.count.toNat : ℕ) : ℤ) = range.count := Int.toNat_of_nonneg hkeeps
    have hend : range.start.toNat + range.count.toNat ≤ w.ed.lines.length := by
      change range.start < w.ed.numLines at hs
      change range.stop < w.ed.numLines at hstop
      omega
    have hremove : Cells.remove? w.prepareUndo.ed.lines range.start range.count =
        some (without w.ed.lines range.start.toNat range.count.toNat) := by
      rw [← hstart, ← hcount]
      exact Cells.remove?_eq hend
    have hlen := length_without hend
    rw [hremove, withLines_some]
    refine safe_running (h.edited rfl rfl ⟨?_, ?_, fun i => ?_⟩)
    · dsimp only
      split_ifs <;> omega
    · unfold Editor.numLines
      dsimp only
      split_ifs with hnil
      · rw [hnil]
        exact neg_one_lt_zero
      · omega
      · omega
    · unfold Editor.numLines
      rw [hlen, Nat.cast_sub (by omega), hcount]
      exact updateMarksAfterDelete_lt hs0 (by omega) (h.inside.mark_lt i)

theorem Sound.safe_changeRange (h : w.Sound) (hcount : 0 ≤ range.count)
    (hkeeps : range.stop + 1 < w.ed.numLines ∨ w.toState.typed ≠ []) : (w.changeRange range).Safe Sound := by
  have hk : range.count = range.stop - range.start + 1 := rfl
  unfold changeRange
  dsimp only
  split_ifs with hout
  · exact safe_running (h.prepareUndo.setError _)
  · refine (h.prepareUndo.safe_deleteRange hcount).bind fun w1 hdelete h1 => ?_
    rcases deleteRange_running hdelete with ⟨hout', -⟩ | ⟨hin, -, lines, hlines, hw1⟩
    · exact absurd hout' hout
    · obtain ⟨hs0, hstop0, hs, hstop⟩ := AddressRange.outside_eq_false_iff.mp hin
      change range.start < w.ed.lines.length at hs
      change range.stop < w.ed.lines.length at hstop
      have hlen : lines.length = w.ed.lines.length - range.count.toNat := by
        rw [hlines]
        exact length_without (show range.start.toNat + range.count.toNat ≤ w.ed.lines.length by omega)
      have hn1 : w1.ed.numLines = w.ed.numLines - range.count := by
        have hn : w.ed.numLines = w.ed.lines.length := rfl
        rw [hw1]
        change (lines.length : ℤ) = _
        omega
      have htyped : w1.toState.typed = w.toState.typed := by
        rw [hw1]
        rfl
      apply h1.safe_insertLine (le_max_right _ _)
      · exact max_le (min_le_right _ _) (Int.natCast_nonneg _)
      · rw [htyped]
        exact hkeeps.imp_left fun hlast => max_lt (min_lt_of_left_lt (by omega)) (by omega)

theorem Sound.safe_joinRange (h : w.Sound) (hle : range.start ≤ range.stop)
    (hkeeps : ∀ i, w.ed.marks i < w.ed.numLines - (range.stop - range.start)) :
    (w.joinRange range).Safe Sound := by
  have hn : w.ed.numLines = w.ed.lines.length := rfl
  unfold joinRange
  dsimp only
  split_ifs with hout heq
  · exact safe_running (h.prepareUndo.setError _)
  · obtain ⟨hs0, -, hs, -⟩ := AddressRange.outside_eq_false_iff.mp (Bool.eq_false_of_not_eq_true hout)
    exact safe_running (h.prepareUndo.setCurrent (by omega) hs)
  · obtain ⟨hs0, hstop0, hs, hstop⟩ :=
      AddressRange.outside_eq_false_iff.mp (Bool.eq_false_of_not_eq_true hout)
    change range.start < w.ed.numLines at hs
    change range.stop < w.ed.numLines at hstop
    have hstart : ((range.start.toNat : ℕ) : ℤ) = range.start := Int.toNat_of_nonneg hs0
    have hcount : (((range.stop - range.start).toNat : ℕ) : ℤ) = range.stop - range.start :=
      Int.toNat_of_nonneg (by omega)
    have hlt : range.start.toNat < w.ed.lines.length := by omega
    have hget := Cells.get?_natCast w.ed.lines range.start.toNat
    rw [hstart, List.getElem?_eq_getElem hlt] at hget
    change Cells.get? w.prepareUndo.ed.lines range.start = _ at hget
    have hset (x : Line) : Cells.set? w.prepareUndo.ed.lines range.start x =
        some (w.ed.lines.set range.start.toNat x) := by
      rw [← hstart]
      exact Cells.set?_natCast hlt x
    have hremove (lines : List Line) (hlen : lines.length = w.ed.lines.length) :
        Cells.remove? lines (range.start + 1) (range.stop - range.start) =
          some (without lines (range.start.toNat + 1) (range.stop - range.start).toNat) := by
      have heq : Cells.remove? lines ((range.start.toNat + 1 : ℕ) : ℤ) ((range.stop - range.start).toNat : ℕ) =
          some (without lines (range.start.toNat + 1) (range.stop - range.start).toNat) :=
        Cells.remove?_eq (by omega)
      rwa [hcount, Nat.cast_add, hstart, Nat.cast_one] at heq
    rw [hget, Option.bind_some, hset, Option.bind_some, hremove _ List.length_set, withLines_some]
    have hlines : ((without (w.ed.lines.set range.start.toNat
        (joined (w.prepareUndo.linesOf range) w.ed.lines[range.start.toNat].id)) (range.start.toNat + 1)
        (range.stop - range.start).toNat).length : ℤ) = w.ed.numLines - (range.stop - range.start) := by
      rw [length_without (by rw [List.length_set]; omega), List.length_set]
      omega
    refine safe_running (h.edited rfl rfl ⟨?_, ?_, fun i => ?_⟩)
    · dsimp only
      omega
    · unfold Editor.numLines
      rw [hlines]
      dsimp only
      omega
    · unfold Editor.numLines
      rw [hlines]
      exact hkeeps i

theorem Sound.safe_moveRange {dest : ℤ} (h : w.Sound) (hdest : dest < w.ed.numLines) :
    (w.moveRange range dest).Safe Sound := by
  have hn : w.ed.numLines = w.ed.lines.length := rfl
  have hk : range.count = range.stop - range.start + 1 := rfl
  have hadj : adjustedDest range dest = if dest > range.stop then dest - range.count else dest := rfl
  unfold moveRange
  dsimp only
  split_ifs with hout hbad hself hneg
  · exact safe_running (h.prepareUndo.setError _)
  · exact safe_running (h.prepareUndo.setError _)
  · exact safe_running (h.prepareUndo.setError _)
  · exact safe_critical _
  · have hin : range.outside w.ed.numLines = false := Bool.eq_false_of_not_eq_true hout
    obtain ⟨hs0, hstop0, hs, hstop⟩ := AddressRange.outside_eq_false_iff.mp hin
    have hrange : range.start.toNat + range.count.toNat ≤ w.ed.lines.length := by omega
    have hpos : adjustedDest range dest + 1 = (adjustedDest range dest + 1).toNat := by
      split_ifs at hadj <;> omega
    have hle : (adjustedDest range dest + 1).toNat + range.count.toNat ≤ w.ed.lines.length := by
      split_ifs at hadj <;> omega
    have hmove : moveLines? w.prepareUndo.ed.lines range dest = some (movedTo w.ed.lines range.start.toNat
        range.count.toNat (adjustedDest range dest + 1).toNat) :=
      moveLines?_eq hrange (by omega) (by omega) hpos hle
    have hlen : ((movedTo w.ed.lines range.start.toNat range.count.toNat
        (adjustedDest range dest + 1).toNat).length : ℤ) = w.ed.numLines := by
      unfold movedTo
      rw [length_insertedAt, length_without hrange, List.length_take, List.length_drop]
      omega
    rw [hmove, withLines_some]
    refine safe_running (h.edited rfl rfl ⟨?_, ?_, fun i => ?_⟩)
    · dsimp only
      split_ifs at hadj <;> omega
    · unfold Editor.numLines
      rw [hlen]
      dsimp only
      split_ifs at hadj <;> omega
    · unfold Editor.numLines
      rw [hlen]
      exact moveMarks_lt hin (not_lt.mp hneg) hdest hself (h.inside.mark_lt i)

/-- A reversed range, and a destination at the end: lines at the end are dropped. -/
theorem copyLines?_of_neg {lines : List Line} {dest : ℤ} (hneg : range.count < 0)
    (hdest : lines.length ≤ dest + 1) (fresh : ℕ) :
    copyLines? lines range dest fresh = some (lines.take (lines.length + range.count).toNat) := by
  have hloop : ((lines.length : ℤ) - 1 - dest).toNat = 0 := Int.toNat_eq_zero.mpr (by omega)
  have hcount : range.count.toNat = 0 := Int.toNat_eq_zero.mpr hneg.le
  unfold copyLines? resize
  dsimp only
  rw [hloop, hcount, List.replicate_zero, List.append_nil, Cells.assign, Option.bind_some, copyLoop]

theorem Sound.safe_copyRange {dest : ℤ} (h : w.Sound) (h0 : 0 ≤ dest) (hdest : dest < w.ed.numLines)
    (hkeeps : 0 ≤ range.count ∨
      w.ed.numLines ≤ dest + 1 ∧ ∀ i, w.ed.marks i < w.ed.numLines + range.count) :
    (w.copyRange range dest).Safe Sound := by
  have hn : w.ed.numLines = w.ed.lines.length := rfl
  have hk : range.count = range.stop - range.start + 1 := rfl
  unfold copyRange
  dsimp only
  split_ifs with hout hbad
  · exact safe_running (h.prepareUndo.setError _)
  · exact safe_running (h.prepareUndo.setError _)
  · obtain ⟨hs0, hstop0, hs, hstop⟩ :=
      AddressRange.outside_eq_false_iff.mp (Bool.eq_false_of_not_eq_true hout)
    change range.start < w.ed.numLines at hs
    change range.stop < w.ed.numLines at hstop
    rcases le_or_gt 0 range.count with hcount | hneg
    · have hend : range.start.toNat + range.count.toNat ≤ w.ed.lines.length := by omega
      have hcopy : copyLines? w.prepareUndo.ed.lines range dest w.prepareUndo.fresh =
          some (insertedAt w.ed.lines (dest + 1).toNat
            (copies w.fresh ((w.ed.lines.drop range.start.toNat).take range.count.toNat))) :=
        copyLines?_eq hend (by omega) (by omega) (by omega) (by omega) w.fresh
      have hlen : (copies w.fresh ((w.ed.lines.drop range.start.toNat).take range.count.toNat)).length =
          range.count.toNat := by
        rw [length_copies, List.length_take, List.length_drop]
        omega
      rw [hcopy, withLines_some]
      refine safe_running (h.edited rfl rfl (h.inside.insert (p := dest + 1) hlen rfl ?_ ?_ ?_))
      · rw [Int.toNat_of_nonneg hcount]
        rfl
      · dsimp only; omega
      · dsimp only; omega
    · obtain ⟨hend, hmarks⟩ := hkeeps.resolve_left (not_le.mpr hneg)
      have hcopy : copyLines? w.prepareUndo.ed.lines range dest w.prepareUndo.fresh =
          some (w.ed.lines.take (w.ed.lines.length + range.count).toNat) :=
        copyLines?_of_neg hneg hend w.fresh
      have hlen : ((w.ed.lines.take (w.ed.lines.length + range.count).toNat).length : ℤ) =
          w.ed.numLines + range.count := by
        rw [List.length_take]
        omega
      rw [hcopy, withLines_some]
      refine safe_running (h.edited rfl rfl ⟨?_, ?_, fun i => ?_⟩)
      · dsimp only
        omega
      · unfold Editor.numLines
        rw [hlen]
        dsimp only
        omega
      · unfold Editor.numLines
        rw [hlen]
        have hmark := hmarks i
        change updateMarksAfterInsert w.ed.marks (dest + 1) range.count i < _
        unfold updateMarksAfterInsert
        split_ifs <;> omega

theorem Sound.safe_readFileAtAddress {filename : CString} (h : w.Sound) (h0 : -1 ≤ addr)
    (hkeeps : addr < w.ed.numLines ∨ ∀ bytes ∈ w.files.content filename, fileLines bytes = []) :
    (w.readFileAtAddress addr filename).Safe Sound := by
  have hn : w.ed.numLines = w.ed.lines.length := rfl
  obtain ⟨hge, hlt, hmark⟩ := h.inside
  rw [readFileAtAddress_eq]
  split
  · exact safe_running (h.prepareUndo.setError _)
  · rename_i bytes hbytes
    rcases hkeeps with haddr | hempty
    · have hnew : (newLines w.fresh ((fileLines bytes).map Prod.fst)).length = (fileLines bytes).length := by
        rw [length_newLines, List.length_map]
      rw [insertAll?_of_le (by omega) (by omega), withLines_some]
      apply safe_running
      split_ifs
      · have hinside : Editor.Inside { w.prepareUndo.ed with
            lines := insertedAt w.ed.lines (addr + 1).toNat (newLines w.fresh ((fileLines bytes).map Prod.fst))
            currentLine := addr + (fileLines bytes).length
            dirty := true
            marks := updateMarksAfterInsert w.ed.marks (addr + 1) (fileLines bytes).length } :=
          h.inside.insert hnew rfl rfl (by dsimp only; omega) (by dsimp only; omega)
        exact h.edited rfl rfl hinside
      -- A line without a byte: neither the current line nor a mark moves.
      · have hle : w.ed.numLines ≤ (insertedAt w.ed.lines (addr + 1).toNat
            (newLines w.fresh ((fileLines bytes).map Prod.fst))).length := by
          rw [length_insertedAt]
          omega
        exact h.edited rfl rfl ⟨hge, hlt.trans_le hle, fun i => (hmark i).trans_le hle⟩
    · have hnil : fileLines bytes = [] := hempty bytes hbytes
      have hread : Cells.insertAll? w.ed.lines (addr + 1)
          (newLines w.fresh ((fileLines bytes).map Prod.fst)) = some w.ed.lines := by
        rw [hnil]
        rfl
      have hcount : ¬ 0 < byteCount (fileLines bytes) := by
        rw [hnil]
        exact Nat.lt_irrefl 0
      rw [hread, withLines_some, if_neg hcount]
      exact safe_running (h.edited rfl rfl ⟨hge, hlt, hmark⟩)

theorem Sound.safe_substituteLoop {line : CString → Substituted} {stop : ℤ} {n : ℕ} {j : ℤ} {anyChanged : Bool}
    (h : w.Sound) (h0 : 0 ≤ j) (hj : j + n ≤ w.ed.numLines) (hstop0 : 0 ≤ stop) (hstop : stop < w.ed.numLines) :
    (substituteLoop line stop n j anyChanged w).Safe Sound := by
  induction n generalizing j anyChanged w with
  | zero =>
    unfold substituteLoop
    split_ifs
    · exact safe_running ⟨⟨by dsimp only; omega, hstop, h.inside.mark_lt⟩, h.undo_ge, h.undo_lt⟩
    · exact safe_running (h.setError _)
  | succ n ih =>
    have hn : w.ed.numLines = w.ed.lines.length := rfl
    have hcast : ((j.toNat : ℕ) : ℤ) = j := Int.toNat_of_nonneg h0
    have hlt : j.toNat < w.ed.lines.length := by omega
    have hget := Cells.get?_natCast w.ed.lines j.toNat
    rw [hcast, List.getElem?_eq_getElem hlt] at hget
    unfold substituteLoop
    simp only [hget]
    cases line w.ed.lines[j.toNat].text with
    | unchanged => exact ih h (by omega) (by omega) hstop
    | changed text =>
      have hset := Cells.set?_natCast hlt ⟨text, w.ed.lines[j.toNat].id⟩
      rw [hcast] at hset
      simp only [hset, withLines_some]
      have hlen (l : Line) : ((w.ed.lines.set j.toNat l).length : ℤ) = w.ed.numLines := by
        rw [List.length_set]
        rfl
      apply ih
      · refine ⟨⟨h.inside.current_ge, ?_, fun i => ?_⟩, h.undo_ge, h.undo_lt⟩
        · exact h.inside.current_lt.trans_eq (hlen _).symm
        · exact (h.inside.mark_lt i).trans_eq (hlen _).symm
      · omega
      · unfold Editor.numLines
        rw [hlen]
        omega
      · unfold Editor.numLines
        rw [hlen]
        exact hstop
    | critical => exact safe_critical w
    | undefined => exact safe_fault Fault.noConfusion
    | outOfFuel => exact safe_outOfFuel

theorem Sound.safe_substituteRange {fuel : ℕ} {pattern replacement : CString} {global : Bool} (h : w.Sound) :
    (w.substituteRange fuel range pattern replacement global).Safe Sound := by
  unfold substituteRange
  dsimp only
  split_ifs with hout
  · exact safe_running (h.prepareUndo.setError _)
  all_goals
    obtain ⟨hs0, hstop0, hs, hstop⟩ :=
      AddressRange.outside_eq_false_iff.mp (Bool.eq_false_of_not_eq_true hout)
    have hk : range.count = range.stop - range.start + 1 := rfl
    exact h.prepareUndo.safe_substituteLoop hs0 (by omega) hstop0 hstop

theorem Sound.safe_undo (h : w.Sound)
    (hkeeps : w.ed.undoValid = true → ∀ i, w.ed.marks i < w.ed.undoLines.length) : w.undo.Safe Sound := by
  unfold undo
  split_ifs with hvalid
  · exact safe_running (h.setError _)
  · have hvalid' : w.ed.undoValid = true := Bool.eq_true_of_not_eq_false hvalid
    exact safe_running ⟨⟨h.undo_ge hvalid', h.undo_lt hvalid', hkeeps hvalid'⟩, Bool.noConfusion,
      Bool.noConfusion⟩

theorem Sound.safe_printWith {render : ℕ × CString → List Byte} (h : w.Sound) :
    (printWith render range w).Safe Sound := by
  unfold printWith
  dsimp only
  split_ifs with hout
  · exact safe_running (h.setError _)
  · obtain ⟨hs0, hstop0, hs, hstop⟩ :=
      AddressRange.outside_eq_false_iff.mp (Bool.eq_false_of_not_eq_true hout)
    exact safe_running ((h.print _).setCurrent (by omega) hstop)

theorem sound_init (input : Input) (files : Files) (fresh : ℕ) (log : List Event) :
    World.Sound { input, files, fresh, log } :=
  ⟨⟨le_rfl, neg_one_lt_zero, fun _ => neg_one_lt_zero⟩, Bool.noConfusion, Bool.noConfusion⟩

theorem safe_forcedEditFile (filename : Option CString) (w : World) : (w.forcedEditFile filename).Safe Sound := by
  have hinit := sound_init w.input w.files w.fresh w.log
  unfold forcedEditFile
  split
  · exact safe_fault Fault.noConfusion
  · rename_i name
    unfold loadFile
    dsimp only
    split
    · exact safe_running (hinit.setError _)
    · rename_i bytes hbytes
      have hlt : -1 < ((newLines w.fresh ((fileLines bytes).map Prod.fst)).length : ℤ) :=
        neg_one_lt_zero.trans_le (Int.natCast_nonneg _)
      refine safe_running ⟨⟨?_, ?_, fun _ => hlt⟩, Bool.noConfusion, Bool.noConfusion⟩
      · exact Int.le_sub_one_of_lt hlt
      · exact sub_one_lt _

theorem Sound.safe_editFile (h : w.Sound) (filename : Option CString) : (w.editFile filename).Safe Sound := by
  unfold editFile
  split_ifs
  · exact safe_running (h.setError _)
  · exact safe_forcedEditFile filename w

theorem Sound.safe_writeFile (h : w.Sound) (filename : Option CString) : (w.writeFile filename).Safe Sound := by
  unfold writeFile
  dsimp only
  split
  · exact safe_running (h.setError _)
  · split_ifs
    · exact safe_running (h.setError _)
    · exact safe_running (h.congr rfl)

theorem Sound.safe_writeAppendFile {filename : CString} (h : w.Sound) :
    (w.writeAppendFile range filename).Safe Sound := by
  unfold writeAppendFile
  split_ifs
  · exact safe_running (h.setError _)
  · exact safe_running (h.setError _)
  · exact safe_running (h.setError _)
  · exact safe_running (h.congr rfl)

/-- No call that keeps inside, nor one that the condition says nothing about, leaves the buffer. -/
theorem Sound.safe_perform {exec : CString → World → Outcome} {fuel : ℕ} {c : Call} (h : w.Sound)
    (hglobal : c.isGlobal = false) (hin : c.InBounds w.ed.numLines) (hwithin : c.Within w.ed.numLines)
    (hkeeps : KeepsInside c w.toState) : (w.perform exec fuel c).Safe Sound := by
  cases c with
  | global => cases hglobal
  | nothing => exact safe_running h
  | setError m => exact safe_running (h.setError m)
  | setCurrent addr => exact safe_running (h.setCurrent (neg_one_lt_zero.le.trans hin.1) hin.2)
  | substituteRange range pattern replacement global => exact h.safe_substituteRange
  | mark letter addr =>
    refine safe_running ⟨⟨neg_one_lt_zero.le.trans hin.1, hin.2, fun i => ?_⟩, h.undo_ge, h.undo_lt⟩
    by_cases hi : i = letter
    · rw [hi]
      exact (Function.update_self letter addr w.ed.marks).trans_lt hin.2
    · exact (Function.update_of_ne hi addr w.ed.marks).trans_lt (h.inside.mark_lt i)
  | printNumber n => exact safe_running (h.print _)
  | file filename =>
    have hfile : World.Sound { w with ed := { w.ed with filename := filename.or w.ed.filename } } :=
      h.congr rfl
    unfold perform
    dsimp only
    split
    · exact safe_running (hfile.setError _)
    · exact safe_running (hfile.print _)
  | writeFile filename => exact h.safe_writeFile filename
  | writeAppendFile range filename => exact h.safe_writeAppendFile
  | editFile filename => exact h.safe_editFile filename
  | forcedEditFile filename => exact safe_forcedEditFile filename w
  | readFileAtAddress addr filename => exact h.safe_readFileAtAddress hin.1 hkeeps
  | moveRange range dest => exact h.safe_moveRange hwithin
  | copyRange range dest => exact h.safe_copyRange hin.2 hwithin hkeeps
  | printRange range => exact h.safe_printWith
  | deleteRange range => exact h.safe_deleteRange hkeeps
  | printNumberedRange range => exact h.safe_printWith
  | printListRange range => exact h.safe_printWith
  | changeRange range => exact h.safe_changeRange hkeeps.1 hkeeps.2
  | joinRange range => exact h.safe_joinRange hkeeps.1 hkeeps.2
  | appendLine addr => exact h.safe_appendLine hin hwithin hkeeps
  | insertLine addr =>
    have hn : 0 ≤ w.ed.numLines := Int.natCast_nonneg _
    exact h.safe_insertLine hin (Int.lt_add_one_iff.mp (hwithin.trans_le (by omega))) hkeeps
  | undo => exact h.safe_undo hkeeps
  | quit =>
    unfold perform
    dsimp only
    split_ifs
    · exact safe_running (h.setError _)
    · exact safe_exited h
  | forcedQuit => exact safe_exited h
  | toggleVerbose =>
    exact safe_running (h.congr rfl)
  | togglePrompt =>
    exact safe_running (h.congr rfl)
  | help =>
    unfold perform
    dsimp only
    split
    · exact safe_running (h.print _)
    · exact safe_running (h.print _)
  | undefined f => exact safe_fault hwithin

theorem clampTarget_bounds {t : ℕ} (hlines : w.ed.lines ≠ []) :
    0 ≤ w.clampTarget t ∧ w.clampTarget t < w.ed.numLines := by
  have hpos : 0 < w.ed.lines.length := List.length_pos_iff.mpr hlines
  have hn : w.ed.numLines = w.ed.lines.length := rfl
  unfold clampTarget
  split_ifs <;> omega

theorem sound_guards : Guards KeepsInside Sound where
  call := fun {exec} fuel cmd w hglobal hkeeps h => by
    have hrecord : (w.record (.call (w.ed.decode cmd) w.toState)).Sound := h.congr rfl
    exact hrecord.safe_perform hglobal (w.ed.decode_inBounds cmd)
      (w.ed.decode_within h.inside.current_lt cmd) hkeeps
  record := fun _ h => h.congr rfl
  readList := fun h => h.congr rfl
  target := fun t hlines h => by
    obtain ⟨h0, hlt⟩ := clampTarget_bounds hlines
    exact h.setCurrent (by omega) hlt
  input := fun _ h => h.congr rfl

/-- In a run all of whose calls keep inside, no line outside the buffer is accessed, and the current line
and the marks are lines of the buffer in every state. -/
theorem inside_of_run {o : Outcome} (h : Run KeepsInside o) :
    o ≠ fault .lineIndex ∧ ∀ w, (o = running w ∨ ∃ n, o = exited n w) → w.ed.Inside := by
  have hsafe : o.Safe Sound := sound_guards.safe_run (fun input files => sound_init input files 0 [])
    (fun _ h => h.congr rfl) h
  refine ⟨hsafe.inside, fun w hw => ?_⟩
  rcases hw with hw | ⟨n, hw⟩
  · exact (hsafe.running w hw).inside
  · exact (hsafe.exited n w hw).inside

/-- A new editor, and what is typed. -/
def newEditor (text : String) : World := { input := ⟨asciiBytes text, false⟩, files := noFiles }

/-- A line appended to the empty buffer. -/
theorem inside_of_run_append : ∃ w, w.ed.texts = [.lit "x"] ∧
    executeCommand 1 (.lit "a") (newEditor "x\n.\n") = running w ∧ w.ed.Inside := by
  have hrun : (executeCommand 1 (.lit "a") (newEditor "x\n.\n")).run?.map (fun w => w.ed.texts) =
      some [.lit "x"] := by
    decide
  obtain ⟨w, hw, htexts⟩ := Option.map_eq_some_iff.mp hrun
  have hstep : Run KeepsInside (executeCommand 1 (.lit "a") (newEditor "x\n.\n")) :=
    .step 1 (.lit "a") ⟨asciiBytes "x\n.\n", false⟩ noFiles (.init ⟨[], false⟩ noFiles) rfl
  exact ⟨w, htexts, run?_eq_some hw, (inside_of_run hstep).2 w (.inl (run?_eq_some hw))⟩

/-- `i` without text leaves the current line 0 in an empty buffer, and the line that `a` then reads is
stored behind line 1. -/
theorem not_inside : ∃ w, executeCommand 1 (.lit "i") (newEditor ".\n") = running w ∧ ¬ w.ed.Inside ∧
    executeCommand 1 (.lit "a") { w with input := ⟨asciiBytes "x\n.\n", false⟩ } = fault .lineIndex := by
  refine ⟨_, rfl, fun h => ?_, rfl⟩
  exact absurd h.current_lt (by decide)

end World

end ValidcTools.Ed
