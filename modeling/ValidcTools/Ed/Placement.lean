import ValidcTools.Ed.AddressReading
import ValidcTools.Ed.Effects
import ValidcTools.Ed.Operands

/-! Where `a`, `i` and `r` put their text, with a line number before them. -/
namespace ValidcTools.Ed
open Outcome World

/-! ## Numbers as they are written -/

theorem toUInt8_digitChar {d : ℕ} (hd : d < 10) :
    isDigit (Nat.digitChar d).toUInt8 = true ∧
      ((Nat.digitChar d).toUInt8 - (('0' : Char) : Byte)).toNat = d ∧
      (d ≠ 0 → (Nat.digitChar d).toUInt8 ≠ (('0' : Char) : Byte)) := by
  revert d
  decide

theorem decimalBytes_of_lt {n : ℕ} (hn : n < 10) : decimalBytes n = [(Nat.digitChar n).toUInt8] := by
  unfold decimalBytes
  rw [Nat.toDigits_of_lt_base hn]
  rfl

theorem decimalBytes_append {n d : ℕ} (hn : 0 < n) (hd : d < 10) :
    decimalBytes (10 * n + d) = decimalBytes n ++ [(Nat.digitChar d).toUInt8] := by
  rw [← decimalBytes_of_lt hd]
  unfold decimalBytes
  rw [← Nat.toDigits_append_toDigits (by decide) hn hd, List.map_append]

/-- A number is written in digits, is read back from them, and does not begin with a zero. -/
theorem decimalBytes_spec (n : ℕ) :
    (∀ c ∈ decimalBytes n, isDigit c = true) ∧ digitsValue 0 (decimalBytes n) = n ∧
      ∃ c cs, decimalBytes n = c :: cs ∧ (0 < n → c ≠ (('0' : Char) : Byte)) := by
  induction n using Nat.strong_induction_on with
  | _ n ih =>
    by_cases hn : n < 10
    · obtain ⟨hdigit, hvalue, hzero⟩ := toUInt8_digitChar hn
      rw [decimalBytes_of_lt hn]
      refine ⟨by simpa using hdigit, ?_, _, _, rfl, fun h => hzero h.ne'⟩
      simp only [digitsValue, List.foldl_cons, List.foldl_nil, zero_mul, zero_add]
      exact_mod_cast hvalue
    · obtain ⟨hdigit, hvalue, -⟩ := toUInt8_digitChar (Nat.mod_lt n (by decide : 0 < 10))
      obtain ⟨hdigits, hvalues, c, cs, hcs, hc⟩ := ih (n / 10) (by omega)
      have hsplit : decimalBytes n = decimalBytes (n / 10) ++ [(Nat.digitChar (n % 10)).toUInt8] := by
        rw [← decimalBytes_append (by omega) (Nat.mod_lt n (by decide)), Nat.div_add_mod]
      rw [hsplit]
      refine ⟨?_, ?_, c, cs ++ [(Nat.digitChar (n % 10)).toUInt8], by rw [hcs]; rfl, fun _ => hc (by omega)⟩
      · intro b hb
        rcases List.mem_append.mp hb with hb | hb
        · exact hdigits b hb
        · rw [List.mem_singleton.mp hb]
          exact hdigit
      · unfold digitsValue at hvalues ⊢
        rw [List.foldl_append, hvalues, List.foldl_cons, List.foldl_nil, hvalue]
        push_cast
        omega

/-- A line number of the buffer is read, up to what follows it. -/
theorem parseOneAddress_decimal {n : ℕ} {lastLine : ℤ} {c : Byte} (t : List Byte) (current : ℤ) (marks : Marks)
    (hle : n ≤ lastLine) (hmax : lastLine ≤ intMax) (hdigit : isDigit c = false) (hsign : isSign c = false) :
    parseOneAddress (decimalBytes n ++ c :: t) current lastLine marks = (.line n, c :: t) := by
  obtain ⟨hdigits, hvalue, d, ds, hds, hd⟩ := decimalBytes_spec n
  have hrest : NoDigit (c :: t) := fun b hb => by
    cases hb
    exact hdigit
  by_cases hn : n = 0
  · subst hn
    have hzero := parseOneAddress_zero (c :: t) current marks (by omega : 0 ≤ lastLine)
    rw [dropWhile_of_noDigit hrest, List.head?_cons, Option.any_some, hsign, if_neg Bool.false_ne_true] at hzero
    exact hzero
  · have hnumber := parseOneAddress_number current marks
      (show (⟨decimalBytes n, hdigits⟩ : Digits).bytes ≠ [] by simp [hds])
      (by simpa [hds] using hd (Nat.pos_of_ne_zero hn)) hrest hmax
    dsimp only at hnumber
    rw [hvalue, if_pos hle] at hnumber
    exact hnumber

/-! ## The commands -/

/-- A command that puts text into the buffer -/
inductive Placing
  | append
  | insert
  | read (name : CString)

namespace Placing

/-- What is on the command line behind the address -/
def letters : Placing → List Byte
  | append => ['a']
  | insert => ['i']
  | read name => (('r' : Char) : Byte) :: ((' ' : Char) : Byte) :: name.bytes

/-- The text of the block that is read, or of the file -/
def text? (w : World) : Placing → Option (List CString)
  | append => some w.readText.1
  | insert => some w.readText.1
  | read name => (w.files.content name).map fun bytes => (fileLines bytes).map Prod.fst

/-- The least line number the command takes -/
def least : Placing → ℕ
  | insert => 1
  | _ => 0

/-- How many lines stand before the text, by the line number -/
def linesBefore (n : ℕ) : Placing → ℕ
  | insert => n - 1
  | _ => n

/-- How many lines stand before the text when no line number is given -/
def defaultBefore (ed : Editor) : Placing → ℕ
  | append => if ed.currentLine < 0 then ed.lines.length else (ed.currentLine + 1).toNat
  | insert => ed.currentLine.toNat
  | read _ => ed.lines.length

/-- `r` has the name of a file behind it. -/
def Named : Placing → Prop
  | read name => name.bytes ≠ [] ∧ name.bytes.head? ≠ some ((' ' : Char) : Byte)
  | _ => True

end Placing

/-- The editor goes on, with these lines. -/
def Leaves (o : Outcome) (texts : List CString) : Prop := ∃ w, o = running w ∧ w.ed.texts = texts

/-- The text put in behind the first `pos` lines is the text put in before all of them. -/
def StandsFirst (texts : List CString) (pos : ℕ) (text : List CString) : Prop :=
  text = [] ∨ pos ≤ texts.length ∧ texts.take pos ++ text = text ++ texts.take pos

theorem standsFirst_iff {texts : List CString} {pos : ℕ} {text : List CString} :
    (text = [] ∨ pos ≤ texts.length) ∧ texts.take pos ++ text ++ texts.drop pos = text ++ texts ↔
      StandsFirst texts pos text := by
  have hsplit : texts.take pos ++ text ++ texts.drop pos = text ++ texts ↔ texts.take pos ++ text = text ++ texts.take pos := by
    nth_rewrite 3 [← List.take_append_drop pos texts]
    rw [← List.append_assoc, List.append_cancel_right_eq]
  rw [hsplit, StandsFirst]
  constructor
  · rintro ⟨h | h, heq⟩
    · exact .inl h
    · exact .inr ⟨h, heq⟩
  · rintro (rfl | ⟨h, heq⟩)
    · exact ⟨.inl rfl, List.append_nil _⟩
    · exact ⟨.inr h, heq⟩

theorem leaves_running {w : World} {texts : List CString} : Leaves (running w) texts ↔ w.ed.texts = texts := by
  constructor
  · rintro ⟨w', hw', htexts⟩
    rwa [Outcome.running.inj hw']
  · exact fun h => ⟨w, rfl, h⟩

theorem texts_insertedAt (lines : List Line) (pos fresh : ℕ) (text : List CString) :
    (insertedAt lines pos (newLines fresh text)).map Line.text =
      (lines.map Line.text).take pos ++ text ++ (lines.map Line.text).drop pos := by
  rw [insertedAt, List.map_append, List.map_append, newLines_map_text, List.map_take, List.map_drop]

/-- Lines put into the array, by whatever goes on with the array -/
theorem leaves_insertAll? {lines : List Line} {fresh pos : ℕ} {text : List CString} {addr : ℤ} {f : List Line → Outcome}
    (hpos : addr = pos) (hf : ∀ lines', (text = [] → lines' = lines) → ∃ w, f lines' = running w ∧ w.ed.lines = lines')
    (texts : List CString) :
    Leaves (withLines (Cells.insertAll? lines addr (newLines fresh text)) f) texts ↔
      (text = [] ∨ pos ≤ lines.length) ∧
        (lines.map Line.text).take pos ++ text ++ (lines.map Line.text).drop pos = texts := by
  subst hpos
  by_cases hle : pos ≤ lines.length
  · obtain ⟨w, hw, hlines⟩ := hf (insertedAt lines pos (newLines fresh text)) fun h => by
      rw [newLines_eq_nil.mpr h, insertedAt_nil]
    have hins : Cells.insertAll? lines pos (newLines fresh text) = some (insertedAt lines pos (newLines fresh text)) :=
      Cells.insertAll?_eq hle _
    rw [hins, withLines_some, hw, leaves_running, Editor.texts, hlines, texts_insertedAt]
    exact (and_iff_right (.inr hle)).symm
  · cases text with
    | nil =>
      obtain ⟨w, hw, hlines⟩ := hf lines fun _ => rfl
      have hins : Cells.insertAll? lines pos (newLines fresh []) = some lines := rfl
      rw [hins, withLines_some, hw, leaves_running, Editor.texts, hlines, List.append_nil, List.take_append_drop]
      exact (and_iff_right (.inl rfl)).symm
    | cons l ls =>
      have hins : Cells.insertAll? lines pos (newLines fresh (l :: ls)) = none :=
        Cells.insertAll?_eq_none (by omega) _ _
      rw [hins, withLines_none]
      apply iff_of_false
      · rintro ⟨w, hw, -⟩
        cases hw
      · rintro ⟨h | h, -⟩
        · cases h
        · exact hle h

section

variable {w : World} {addr : ℤ} {pos : ℕ}

theorem leaves_appendLine (hpos : addr + 1 = pos) (texts : List CString) :
    Leaves (w.appendLine addr) texts ↔ (w.readText.1 = [] ∨ pos ≤ w.ed.lines.length) ∧
      w.ed.texts.take pos ++ w.readText.1 ++ w.ed.texts.drop pos = texts := by
  rw [appendLine_eq]
  refine leaves_insertAll? hpos (fun lines' h => ?_) texts
  by_cases htext : w.readText.1 = []
  · rw [if_pos htext]
    exact ⟨_, rfl, (h htext).symm⟩
  · rw [if_neg htext]
    exact ⟨_, rfl, rfl⟩

theorem leaves_insertLine (hpos : addr = pos) (texts : List CString) :
    Leaves (w.insertLine addr) texts ↔ (w.readText.1 = [] ∨ pos ≤ w.ed.lines.length) ∧
      w.ed.texts.take pos ++ w.readText.1 ++ w.ed.texts.drop pos = texts := by
  rw [insertLine_eq]
  refine leaves_insertAll? hpos (fun lines' h => ?_) texts
  by_cases htext : w.readText.1 = []
  · rw [if_pos htext]
    exact ⟨_, rfl, (h htext).symm⟩
  · rw [if_neg htext]
    exact ⟨_, rfl, rfl⟩

theorem leaves_readFileAtAddress {name : CString} {bytes : List Byte} (hcontent : w.files.content name = some bytes)
    (hpos : addr + 1 = pos) (texts : List CString) :
    Leaves (w.readFileAtAddress addr name) texts ↔
      ((fileLines bytes).map Prod.fst = [] ∨ pos ≤ w.ed.lines.length) ∧
        w.ed.texts.take pos ++ (fileLines bytes).map Prod.fst ++ w.ed.texts.drop pos = texts := by
  rw [readFileAtAddress_eq, hcontent]
  refine leaves_insertAll? hpos (fun lines' _ => ?_) texts
  refine ⟨_, rfl, ?_⟩
  split_ifs <;> rfl

end

/-! ## The command lines -/

namespace Placing

/-- The calls the three commands are decoded to; a line number 0 is none. -/
def call (ed : Editor) (n : ℕ) : Placing → Call
  | append =>
    .appendLine (if n = 0 then if ed.currentLine < 0 then if 0 < ed.numLines then ed.numLines - 1 else -1 else ed.currentLine
      else n - 1)
  | insert => .insertLine (if n = 0 then if ed.currentLine < 0 then 0 else ed.currentLine else n - 1)
  | read name => .readFileAtAddress (if n = 0 then ed.numLines - 1 else n - 1) name

variable {k : Placing}

theorem letters_eq_cons (k : Placing) : ∃ c t, k.letters = c :: t ∧ isLetter c = true := by
  cases k with
  | append => exact ⟨_, _, rfl, by decide⟩
  | insert => exact ⟨_, _, rfl, by decide⟩
  | read name => exact ⟨_, _, rfl, by decide⟩

theorem operandName_read {name : CString} (hname : (read name).Named) (n : ℕ) :
    operandName (decimalBytes n ++ (read name).letters) = some name := by
  obtain ⟨hdigits, -⟩ := decimalBytes_spec n
  have hspace : ((' ' : Char) : Byte) ∉ decimalBytes n ++ [(('r' : Char) : Byte)] := fun h => by
    rcases List.mem_append.mp h with h | h
    · exact absurd (hdigits _ h) (by decide)
    · exact absurd (List.mem_singleton.mp h) (by decide)
  have hdrop : (name.bytes.dropWhile fun b : Byte => b = ' ') = name.bytes := by
    cases hbytes : name.bytes with
    | nil => rfl
    | cons c t =>
      refine List.dropWhile_cons_of_neg fun h => hname.2 ?_
      rw [hbytes, List.head?_cons, of_decide_eq_true h]
  have hoperand : operand (decimalBytes n ++ (read name).letters) = some name.bytes := by
    have h := operand_append (v := name.bytes) hspace
    rw [hdrop, List.append_assoc] at h
    exact h
  have hbytes : CString.ofBytes name.bytes = name := CString.ext (CString.ofBytes_bytes_of_nulFree name.nulFree)
  rw [operandName, hoperand, Option.filter_some, if_pos (by simpa using hname.1), Option.map_some, hbytes]

theorem dispatch_letters {ed : Editor} (hnamed : k.Named) (n : ℕ) (haveComma : Bool) :
    ed.dispatch (decimalBytes n ++ k.letters) ⟨n, n, haveComma, k.letters⟩ = k.call ed n := by
  cases k with
  | append =>
    change Call.appendLine _ = Call.appendLine _
    dsimp only
    congr 1
    split_ifs <;> omega
  | insert =>
    change Call.insertLine _ = Call.insertLine _
    dsimp only
    congr 1
    split_ifs <;> omega
  | read name =>
    change ed.readCall _ _ = _
    rw [Editor.readCall, operandName_read hnamed]
    dsimp only [call]
    congr 1
    split_ifs <;> omega

theorem parseEdAddress_letters {n : ℕ} {lastLine : ℤ} (hle : n ≤ lastLine) (hmax : lastLine ≤ intMax) (current : ℤ)
    (marks : Marks) (k : Placing) :
    parseEdAddress (decimalBytes n ++ k.letters) current lastLine marks = some ⟨n, n, false, k.letters⟩ := by
  obtain ⟨c, t, hletters, hc⟩ := k.letters_eq_cons
  obtain ⟨hdigits, -, d, ds, hds, -⟩ := decimalBytes_spec n
  have hd : isDigit d = true := hdigits d (by rw [hds]; exact List.mem_cons_self)
  have hblank : isBlank d = false := by
    unfold isBlank
    rw [decide_eq_false_iff_not]
    rintro (h | h)
    · exact isDigit_ne hd (by decide) h
    · exact isDigit_ne hd (by decide) h
  have hskip : skipBlanks (decimalBytes n ++ k.letters) = decimalBytes n ++ k.letters := by
    rw [hds, List.cons_append]
    exact List.dropWhile_cons_of_neg (by rw [hblank]; exact Bool.false_ne_true)
  have hcomment : ¬ (decimalBytes n ++ k.letters = [] ∨
      (decimalBytes n ++ k.letters).head? = some (('#' : Char) : Byte)) := by
    rw [hds, List.cons_append, List.head?_cons]
    rintro (h | h)
    · cases h
    · exact isDigit_ne hd (by decide) (Option.some.inj h)
  have hone := parseOneAddress_decimal t current marks hle hmax (isDigit_of_isLetter hc) (isSign_of_isLetter hc)
  rw [← hletters] at hone
  have hskipLetters : skipBlanks k.letters = k.letters := by
    rw [hletters]
    exact List.dropWhile_cons_of_neg (by rw [isBlank_of_isLetter hc]; exact Bool.false_ne_true)
  unfold parseEdAddress
  simp only [hskip, if_neg hcomment, hone]
  unfold parseSecondAddress
  rw [hskipLetters, hletters]
  exact if_neg (ne_of_isLetter hc (by decide))

/-- The command line is decoded to the call of its letter. -/
theorem decode_letters {ed : Editor} {n : ℕ} {cmd : CString} (hnamed : k.Named) (hle : n ≤ ed.lines.length)
    (hmax : ed.numLines ≤ intMax) (hcmd : commandBuffer cmd = decimalBytes n ++ k.letters) : ed.decode cmd = k.call ed n := by
  obtain ⟨-, -, d, ds, hds, -⟩ := decimalBytes_spec n
  have hlast : (n : ℤ) ≤ ed.numLines := Int.ofNat_le.mpr hle
  have hne : decimalBytes n ++ k.letters ≠ [] := by simp [hds]
  rw [Editor.decode, hcmd, Editor.decodeBuffer, if_neg hne, parseEdAddress_letters hlast hmax]
  exact dispatch_letters hnamed n false

/-- A call of one of the commands -/
theorem leaves_call {w : World} {n fuel : ℕ} {exec : CString → World → Outcome} {text : List CString}
    (htext : k.text? w = some text) (texts : List CString) :
    Leaves (w.perform exec fuel (k.call w.ed n)) texts ↔
      (text = [] ∨ (if n = 0 then k.defaultBefore w.ed else k.linesBefore n) ≤ w.ed.lines.length) ∧
        w.ed.texts.take (if n = 0 then k.defaultBefore w.ed else k.linesBefore n) ++ text ++
          w.ed.texts.drop (if n = 0 then k.defaultBefore w.ed else k.linesBefore n) = texts := by
  have hnum : w.ed.numLines = w.ed.lines.length := rfl
  cases k with
  | append =>
    rw [← Option.some.inj htext]
    refine leaves_appendLine ?_ texts
    dsimp only [defaultBefore, linesBefore]
    split_ifs <;> omega
  | insert =>
    rw [← Option.some.inj htext]
    refine leaves_insertLine ?_ texts
    dsimp only [defaultBefore, linesBefore]
    split_ifs <;> omega
  | read name =>
    obtain ⟨bytes, hcontent, rfl⟩ := Option.map_eq_some_iff.mp htext
    refine leaves_readFileAtAddress hcontent ?_ texts
    dsimp only [defaultBefore, linesBefore]
    split_ifs <;> omega

end Placing

/-- The line number 0 is taken for none, so the text stands first only if it comes to the same. -/
theorem leaves_placing_iff {k : Placing} {w : World} {n fuel : ℕ} {cmd : CString} {text : List CString}
    (hmax : w.ed.numLines ≤ intMax) (hleast : k.least ≤ n) (hle : n ≤ w.ed.lines.length) (hnamed : k.Named)
    (hcmd : commandBuffer cmd = decimalBytes n ++ k.letters) (htext : k.text? w = some text) :
    Leaves (executeCommand (fuel + 1) cmd w)
        (w.ed.texts.take (k.linesBefore n) ++ text ++ w.ed.texts.drop (k.linesBefore n)) ↔
      (n = 0 → StandsFirst w.ed.texts (k.defaultBefore w.ed) text) := by
  have hlength : w.ed.texts.length = w.ed.lines.length := List.length_map _
  have hbefore : k.linesBefore n ≤ w.ed.lines.length := by
    cases k <;> dsimp only [Placing.linesBefore] <;> omega
  have htext' : k.text? (w.record (.call (w.ed.decode cmd) w.toState)) = some text := by
    cases k <;> exact htext
  rw [executeCommand, Placing.decode_letters hnamed hle hmax hcmd]
  refine (Placing.leaves_call (w := w.record (.call (k.call w.ed n) w.toState)) htext' _).trans ?_
  change (text = [] ∨ _ ≤ w.ed.lines.length) ∧ w.ed.texts.take _ ++ text ++ w.ed.texts.drop _ = _ ↔ _
  by_cases hn : n = 0
  · subst hn
    have hzero : k.linesBefore 0 = 0 := by
      cases k <;> rfl
    rw [if_pos rfl, hzero, ← hlength, List.take_zero, List.drop_zero, List.nil_append, standsFirst_iff]
    exact ⟨fun h _ => h, fun h => h rfl⟩
  · rw [if_neg hn]
    exact iff_of_true ⟨.inr hbefore, rfl⟩ fun h => absurd h hn

/-- One line in the buffer, and one to be put there -/
def oneLine : World where
  ed := { lines := [⟨.lit "x", 0⟩], currentLine := 0 }
  input := ⟨asciiBytes "y\n.\n", false⟩
  files := ⟨fun _ => none, fun _ => false⟩
  fresh := 1

theorem leaves_placing_iff_1i :
    Leaves (executeCommand 1 (.lit "1i") oneLine)
        (oneLine.ed.texts.take 0 ++ [CString.lit "y"] ++ oneLine.ed.texts.drop 0) ↔
      (1 = 0 → StandsFirst oneLine.ed.texts 0 [CString.lit "y"]) :=
  @leaves_placing_iff .insert oneLine 1 0 (.lit "1i") [.lit "y"] (by decide) (by decide) (by decide) trivial
    (by decide) (by decide)

/-- `0a` puts its text behind the current line. -/
theorem not_leaves_0a :
    Leaves (executeCommand 1 (.lit "0a") oneLine) [.lit "x", .lit "y"] ∧
      ¬ Leaves (executeCommand 1 (.lit "0a") oneLine)
        (oneLine.ed.texts.take 0 ++ oneLine.readText.1 ++ oneLine.ed.texts.drop 0) := by
  have hleaves : Leaves (executeCommand 1 (.lit "0a") oneLine) [.lit "x", .lit "y"] := ⟨_, rfl, by decide⟩
  refine ⟨hleaves, fun h => ?_⟩
  obtain ⟨w, hw, htexts⟩ := hleaves
  rw [hw, leaves_running, htexts] at h
  exact absurd h (by decide)

end ValidcTools.Ed
