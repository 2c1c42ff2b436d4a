import ValidcTools.Lib.PrefixCode
import ValidcTools.Ed.Blocks

/-! What `l` shows of a line, and that the line can be told from it. -/
namespace ValidcTools.Ed
open Outcome World PrefixCode

/-- The byte that an escape or a plain byte at the beginning of a listing shows -/
def readListed : List Byte → Byte
  | [] => 0
  | [c] => c
  | c :: e :: p =>
    if c = '\\' then
      if e = '\\' then ('\\' : Char)
      else if e = 't' then ('\t' : Char)
      else if e = 'b' then 8
      else if e = 'f' then 12
      else if e = 'r' then ('\r' : Char)
      else if e = 'v' then 11
      else 64 * (e - '0') + 8 * (p.headD 0 - '0') + (p.tail.headD 0 - '0')
    else c

/-- The three digits of a byte begin with a digit that is no letter of an escape. -/
theorem octal_digits (c : Byte) : 64 * ('0' + c / 64 - '0') + 8 * ('0' + c / 8 % 8 - '0') + ('0' + c % 8 - '0') = c ∧
    '0' + c / 64 ≠ (('\\' : Char) : Byte) ∧ '0' + c / 64 ≠ (('t' : Char) : Byte) ∧ '0' + c / 64 ≠ (('b' : Char) : Byte) ∧
    '0' + c / 64 ≠ (('f' : Char) : Byte) ∧ '0' + c / 64 ≠ (('r' : Char) : Byte) ∧ '0' + c / 64 ≠ (('v' : Char) : Byte) := by
  revert c
  exact forall_byte (by decide)

theorem readListed_listByte (c : Byte) (u : List Byte) : readListed (listByte c ++ u) = c := by
  obtain ⟨hvalue, hslash, ht, hb, hf, hr, hv⟩ := octal_digits c
  unfold listByte
  split_ifs with h₁ h₂ h₃ h₄ h₅ h₆ h₇
  · exact h₁.symm
  · exact h₂.symm
  · exact h₃.symm
  · exact h₄.symm
  · exact h₅.symm
  · exact h₆.symm
  · -- an octal escape
    simp only [octalBytes, List.cons_append, List.nil_append, readListed, if_true, hslash, ht, hb, hf, hr, hv, if_false,
      List.headD_cons, List.tail_cons, hvalue]
  · cases u with
    | nil => rfl
    | cons e p => exact if_neg h₁

theorem newline_not_mem_listByte (c : Byte) : (('\n' : Char) : Byte) ∉ listByte c := by
  revert c
  exact forall_byte (by decide)

theorem listByte_ne_nil (c : Byte) : listByte c ≠ [] := by
  revert c
  exact forall_byte (by decide)

/-- What `print_list_range` prints for a line -/
def listLine (text : CString) : List Byte := text.bytes.flatMap listByte ++ (['$'] : List Byte) ++ newline

theorem instantaneous_listLine : Instantaneous listLine := by
  intro s t u v heq
  have hline : ∀ (s : CString) (u : List Byte), (listLine s ++ u).takeWhile (· ≠ (('\n' : Char) : Byte)) =
      s.bytes.flatMap listByte ++ (['$'] : List Byte) := by
    intro s u
    have hnone : ∀ c ∈ s.bytes.flatMap listByte ++ (['$'] : List Byte), decide (c ≠ (('\n' : Char) : Byte)) = true := by
      intro c hc
      refine decide_eq_true fun hcn => ?_
      subst hcn
      rcases List.mem_append.mp hc with hc | hc
      · obtain ⟨d, -, hd⟩ := List.mem_flatMap.mp hc
        exact newline_not_mem_listByte d hd
      · exact absurd hc (by decide)
    rw [listLine, List.append_assoc, List.takeWhile_append_of_pos hnone]
    exact List.append_nil _
  have hcoded := List.append_cancel_right ((hline s u).symm.trans ((congrArg _ heq).trans (hline t v)))
  exact CString.ext ((Instantaneous.of_read readListed_listByte).flatMap_injective listByte_ne_nil hcoded)

/-- Lines can be told from what `l` prints of them. -/
theorem listLines_injective {texts texts' : List CString} (h : texts.flatMap listLine = texts'.flatMap listLine) :
    texts = texts' :=
  instantaneous_listLine.flatMap_injective (fun s => by simp [listLine]) h

/-- The lines in the range -/
theorem printListRange_eq (range : AddressRange) (w : World) (hin : range.outside w.ed.numLines = false) :
    w.printListRange range =
      running ((w.print (((w.linesOf range).map Line.text).flatMap listLine)).setCurrent range.stop) := by
  unfold printListRange printWith
  rw [hin, if_neg Bool.false_ne_true]
  have hnumbered : ∀ (lines : List Line) (n : ℕ), ((lines.zipIdx n).map fun x => (x.2, x.1.text)).flatMap
      (fun x => x.2.bytes.flatMap listByte ++ (['$'] : List Byte) ++ newline) = (lines.map Line.text).flatMap listLine := by
    intro lines n
    induction lines generalizing n with
    | nil => rfl
    | cons l lines ih => exact congrArg (listLine l.text ++ ·) (ih (n + 1))
  dsimp only
  rw [hnumbered]

/-- When `l` prints the same for two ranges, they hold the same lines. -/
theorem printListRange_injective {w w' v v' : World} {range range' : AddressRange} {out : List Byte}
    (hin : range.outside w.ed.numLines = false) (hin' : range'.outside w'.ed.numLines = false)
    (hrun : w.printListRange range = running v) (hrun' : w'.printListRange range' = running v')
    (hout : v.log = w.log ++ [.print out]) (hout' : v'.log = w'.log ++ [.print out]) :
    (w.linesOf range).map Line.text = (w'.linesOf range').map Line.text := by
  rw [printListRange_eq range w hin] at hrun
  rw [printListRange_eq range' w' hin'] at hrun'
  have hprinted : ∀ {w v : World} {bytes : List Byte} {addr : ℤ}, running ((w.print bytes).setCurrent addr) = running v →
      v.log = w.log ++ [.print out] → bytes = out := by
    intro w v bytes addr hrun hlog
    rw [← Outcome.running.inj hrun] at hlog
    have hevent := (List.cons.inj (List.append_cancel_left hlog)).1
    exact Event.print.inj hevent
  exact listLines_injective ((hprinted hrun hout).trans (hprinted hrun' hout').symm)

/-- Line 1 of a buffer and line 2 of another -/
theorem printListRange_injective_one : ∃ w w' v v' : World, ∃ out,
    w.printListRange ⟨0, 0⟩ = running v ∧ v.log = w.log ++ [.print out] ∧
    w'.printListRange ⟨1, 1⟩ = running v' ∧ v'.log = w'.log ++ [.print out] ∧
    (w.linesOf ⟨0, 0⟩).map Line.text = (w'.linesOf ⟨1, 1⟩).map Line.text ∧ out = asciiBytes "\\t\\\\$$\n" := by
  let w : World := { threeLinesTyped with ed := { lines := newLines 0 (["\t\\$"].map .lit) } }
  let w' : World := { threeLinesTyped with ed := { lines := newLines 0 (["x", "\t\\$"].map .lit) } }
  have hrun := printListRange_eq ⟨0, 0⟩ w (by decide)
  have hrun' := printListRange_eq ⟨1, 1⟩ w' (by decide)
  have hsame : ((w.linesOf ⟨0, 0⟩).map Line.text).flatMap listLine = ((w'.linesOf ⟨1, 1⟩).map Line.text).flatMap listLine := by
    decide
  refine ⟨w, w', _, _, _, hrun, rfl, hrun', by rw [hsame]; rfl, ?_, by decide⟩
  exact printListRange_injective (by decide) (by decide) hrun hrun' rfl (by rw [hsame]; rfl)

end ValidcTools.Ed
