import ValidcTools.Ed.Execute
import ValidcTools.Ed.Prefix

/-! The call that `execute_command` decides on: for an address prefix followed by a command, and its
bounds for any line. -/
namespace ValidcTools.Ed

/-- The bounds of its arguments that `execute_command` sees to. An address taken from the current line
may still lie after the last line. -/
def Call.InBounds (numLines : ℤ) : Call → Prop
  | .setCurrent addr | .mark _ addr => 0 ≤ addr ∧ addr < numLines
  | .global _ range _ _ | .substituteRange range _ _ _ | .writeAppendFile range _ | .printRange range
  | .deleteRange range | .printNumberedRange range | .printListRange range | .changeRange range
  | .joinRange range => range.outside numLines = false
  | .moveRange range dest | .copyRange range dest => range.outside numLines = false ∧ 0 ≤ dest
  | .readFileAtAddress addr _ => -1 ≤ addr ∧ addr < max numLines 1
  | .appendLine addr => -1 ≤ addr
  | .insertLine addr => 0 ≤ addr
  | _ => True

theorem Call.InBounds.ite {numLines : ℤ} {p : Prop} [Decidable p] {c c' : Call}
    (hc : c.InBounds numLines) (hc' : c'.InBounds numLines) : (if p then c else c').InBounds numLines := by
  split_ifs
  · exact hc
  · exact hc'

namespace Editor

variable {ed : Editor}

/-- A sign is no command. -/
theorem dispatch_sign (cmdBuf : List Byte) {a : EdAddress} {s : Byte} {t : List Byte}
    (ha : a.rest = s :: t) (hs : isSign s = true) : ∃ msg, ed.dispatch cmdBuf a = .setError msg := by
  have hsign : s = '+' ∨ s = '-' := of_decide_eq_true hs
  have hcall : ed.dispatch cmdBuf a = ed.singleCall s a := by
    unfold dispatch
    rw [ha]
    rcases hsign with rfl | rfl <;> rfl
  rw [hcall]
  have hsingle : ed.singleCall s a =
      if (if a.addr1 = 0 then ed.currentLine else a.addr1 - 1) < 0 then .setError .invalidAddress
      else .setError .unknownCommand := by
    rcases hsign with rfl | rfl <;> rfl
  rw [hsingle]
  generalize (if a.addr1 = 0 then ed.currentLine else a.addr1 - 1) = addr
  split_ifs
  · exact ⟨_, rfl⟩
  · exact ⟨_, rfl⟩

/-- A command whose prefix leaves a sign is rejected. -/
theorem decodeBuffer_leavesSign {line : List Byte} (hne : line ≠ [])
    (h : LeavesSign (parseEdAddress line ed.current1 ed.numLines ed.marks)) :
    ∃ msg, ed.decodeBuffer line = .setError msg := by
  obtain ⟨a, s, t, ha, hrest, hs⟩ := h
  unfold decodeBuffer
  rw [if_neg hne, ha]
  exact dispatch_sign line hrest hs

section Prefix

variable {c : Byte} (hc : isLetter c = true) (args : List Byte) {pre : List Byte}

include hc

/-- A prefix that is accepted whole is read before a command, unless a relative address ends it: then
the command is rejected. -/
theorem decodeBuffer_prefix {a : EdAddress}
    (h : parseEdAddress pre ed.current1 ed.numLines ed.marks = some a) (hrest : a.rest = []) :
    (isRelative (lastAddress pre) = false ∧
        ed.decodeBuffer (pre ++ c :: args) = ed.dispatch (pre ++ c :: args) { a with rest := c :: args }) ∨
      (isRelative (lastAddress pre) = true ∧ ∃ msg, ed.decodeBuffer (pre ++ c :: args) = .setError msg) := by
  have hne : pre ++ c :: args ≠ [] := by simp
  rcases parseEdAddress_append hc h hrest with ⟨hrel, hline⟩ | ⟨hrel, hsign⟩
  · left
    refine ⟨hrel, ?_⟩
    unfold decodeBuffer
    rw [if_neg hne, hline]
  · exact Or.inr ⟨hrel, decodeBuffer_leavesSign hne hsign⟩

/-- A prefix that is rejected makes the command rejected. -/
theorem decodeBuffer_prefix_error (h : parseEdAddress pre ed.current1 ed.numLines ed.marks = none) :
    ∃ msg, ed.decodeBuffer (pre ++ c :: args) = .setError msg := by
  have hne : pre ++ c :: args ≠ [] := by simp
  rcases parseEdAddress_append_error hc h with hnone | hsign
  · unfold decodeBuffer
    rw [if_neg hne, hnone]
    exact ⟨_, rfl⟩
  · exact decodeBuffer_leavesSign hne hsign

end Prefix

section Congr

variable {ed' : Editor}

theorem firstMatch_congr (hlines : ed'.lines = ed.lines) (pat : CString) (idxs : List ℕ) :
    ed'.firstMatch pat idxs = ed.firstMatch pat idxs := by
  induction idxs with
  | nil => rfl
  | cons idx idxs ih =>
    unfold firstMatch
    rw [hlines, ih]

theorem parseAddress_congr (hlines : ed'.lines = ed.lines) (hcurrent : ed'.currentLine = ed.currentLine)
    (hmarks : ed'.marks = ed.marks) : ed'.parseAddress = ed.parseAddress := by
  have hn : ed'.numLines = ed.numLines := by unfold numLines; rw [hlines]
  have hsearch (pattern : List Byte) (forward : Bool) :
      ed'.searchPattern pattern forward = ed.searchPattern pattern forward := by
    unfold searchPattern
    simp only [hlines, hcurrent, firstMatch_congr hlines]
  have hoffset (found : ℤ) (p : List Byte) : ed'.parseRegexOffset found p = ed.parseRegexOffset found p := by
    unfold parseRegexOffset
    rw [hn]
  funext addr
  unfold parseAddress current1
  simp only [hsearch, hoffset, hn, hcurrent, hmarks]

/-- What a command line means depends on the lines, the current line, the marks and the file name. -/
theorem decode_congr (hlines : ed'.lines = ed.lines) (hcurrent : ed'.currentLine = ed.currentLine)
    (hmarks : ed'.marks = ed.marks) (hname : ed'.filename = ed.filename) (cmd : CString) :
    ed'.decode cmd = ed.decode cmd := by
  have hn : ed'.numLines = ed.numLines := by unfold numLines; rw [hlines]
  have hparse := parseAddress_congr hlines hcurrent hmarks
  unfold decode decodeBuffer dispatch
  simp only [lineNumberCall, destinationCall, editCall, readCall, writeAppendCall, singleCall, markCall,
    globalCall, substituteCall, onRangeOrCurrent, onRange, rangeOrCurrent, rangeOrAll, globalRange, current1,
    hn, hparse, hcurrent, hmarks, hname]
  rfl

end Congr

section Bounds

variable {a : EdAddress} {line : List Byte} {f : AddressRange → Call}

theorem onRange_inBounds {range : AddressRange}
    (hf : ∀ r : AddressRange, r.outside ed.numLines = false → (f r).InBounds ed.numLines) :
    (ed.onRange range f).InBounds ed.numLines := by
  unfold onRange
  split_ifs with hout
  · trivial
  · exact hf range (Bool.eq_false_of_not_eq_true hout)

theorem onRangeOrCurrent_inBounds
    (hf : ∀ r : AddressRange, r.outside ed.numLines = false → (f r).InBounds ed.numLines) :
    (ed.onRangeOrCurrent a f).InBounds ed.numLines := by
  unfold onRangeOrCurrent
  split
  · trivial
  · exact onRange_inBounds hf

theorem globalCall_inBounds {isG : Bool} {p : List Byte} :
    (ed.globalCall isG a p).InBounds ed.numLines := by
  unfold globalCall
  split
  · trivial
  · dsimp only
    split_ifs
    · trivial
    · exact onRange_inBounds fun _ h => h

theorem substituteCall_inBounds {p : List Byte} : (ed.substituteCall a p).InBounds ed.numLines := by
  unfold substituteCall
  split
  · trivial
  · split
    · trivial
    · split_ifs
      · exact onRangeOrCurrent_inBounds fun _ h => h
      · trivial

theorem markCall_inBounds {letter : Fin 26} : (ed.markCall letter a).InBounds ed.numLines := by
  unfold markCall
  dsimp only
  generalize (if a.addr1 = 0 then ed.currentLine else a.addr1 - 1) = addr
  split_ifs with h
  · trivial
  · exact ⟨by omega, by omega⟩

theorem destinationCall_inBounds {g : AddressRange → ℤ → Call}
    (hg : ∀ (r : AddressRange) (d : ℤ), r.outside ed.numLines = false → 0 ≤ d →
      (g r d).InBounds ed.numLines) :
    (ed.destinationCall a line g).InBounds ed.numLines := by
  unfold destinationCall
  split
  · trivial
  · apply onRangeOrCurrent_inBounds
    intro r hr
    split
    · trivial
    · split_ifs with hdest
      · trivial
      · exact hg r _ hr (not_lt.mp hdest)

theorem lineNumberCall_inBounds : (ed.lineNumberCall line).InBounds ed.numLines := by
  unfold lineNumberCall
  split_ifs
  · trivial
  · split
    · trivial
    · split_ifs <;> trivial

theorem editCall_inBounds {g : Option CString → Call} (hg : ∀ name, (g name).InBounds ed.numLines) :
    (ed.editCall line g).InBounds ed.numLines := by
  unfold editCall
  split
  · exact hg _
  · split_ifs
    · trivial
    · exact hg _

theorem readCall_inBounds (ha : a.InBounds ed.numLines) : (ed.readCall a line).InBounds ed.numLines := by
  obtain ⟨h1, h2, h3, h4, h5⟩ := ha
  have hn : 0 ≤ ed.numLines := Int.natCast_nonneg _
  unfold readCall
  split
  · trivial
  · constructor
    · split_ifs <;> omega
    · split_ifs
      · omega
      · omega

theorem writeAppendCall_inBounds : (ed.writeAppendCall a line).InBounds ed.numLines := by
  unfold writeAppendCall
  split
  · trivial
  · exact onRange_inBounds fun _ h => h

theorem singleCall_inBounds {op : Byte} : (ed.singleCall op a).InBounds ed.numLines := by
  have hn : 0 ≤ ed.numLines := Int.natCast_nonneg _
  unfold singleCall
  dsimp only
  generalize (if a.addr1 = 0 then ed.currentLine else a.addr1 - 1) = addr
  split_ifs with h1 h2 h3 h4 <;> simp only [Call.InBounds] <;> omega

/-- The call for a parsed command line is in bounds. -/
theorem dispatch_inBounds (ha : a.InBounds ed.numLines) :
    (ed.dispatch line a).InBounds ed.numLines := by
  unfold dispatch
  split
  · split_ifs with h1 h2
    · exact ⟨by omega, h2⟩
    · trivial
    · trivial
  · refine .ite globalCall_inBounds (.ite substituteCall_inBounds ?_)
    split
    · exact markCall_inBounds
    · apply Call.InBounds.ite
      · exact lineNumberCall_inBounds
      apply Call.InBounds.ite
      · trivial
      apply Call.InBounds.ite
      · trivial
      apply Call.InBounds.ite
      · exact writeAppendCall_inBounds
      apply Call.InBounds.ite
      · exact editCall_inBounds fun _ => trivial
      apply Call.InBounds.ite
      · exact editCall_inBounds fun _ => trivial
      apply Call.InBounds.ite
      · exact readCall_inBounds ha
      apply Call.InBounds.ite
      · exact destinationCall_inBounds fun _ _ hr hd => ⟨hr, hd⟩
      apply Call.InBounds.ite
      · exact destinationCall_inBounds fun _ _ hr hd => ⟨hr, hd⟩
      apply Call.InBounds.ite
      · exact onRangeOrCurrent_inBounds fun _ h => h
      apply Call.InBounds.ite
      · exact onRangeOrCurrent_inBounds fun _ h => h
      apply Call.InBounds.ite
      · exact onRangeOrCurrent_inBounds fun _ h => h
      apply Call.InBounds.ite
      · exact onRangeOrCurrent_inBounds fun _ h => h
      apply Call.InBounds.ite
      · exact onRangeOrCurrent_inBounds fun _ h => h
      apply Call.InBounds.ite
      · exact onRangeOrCurrent_inBounds fun _ h => h
      exact singleCall_inBounds

theorem decode_inBounds (ed : Editor) (cmd : CString) : (ed.decode cmd).InBounds ed.numLines := by
  unfold decode decodeBuffer
  split_ifs
  · trivial
  · split
    · trivial
    · exact dispatch_inBounds (parseEdAddress_inBounds ‹_› (Int.natCast_nonneg _))

end Bounds

end Editor

end ValidcTools.Ed
