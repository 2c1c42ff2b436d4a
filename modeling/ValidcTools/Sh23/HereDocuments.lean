import ValidcTools.Sh23.Lines

/-! The text of a here-document, which is fed line by line. -/
namespace ValidcTools.Sh23

/-- `tokenizer_process_input` for one line after the other, each with its newline -/
def feedLines (t : Tokenizer) : List (List Byte) → Option Tokenizer
  | [] => some t
  | line :: lines =>
    match processInput t (line ++ [0x0A]) with
    | .done t => feedLines t lines
    | _ => none

namespace Tokenizer

variable (t : Tokenizer) (delim : List Byte)

/-- The delimiter is set, and so much has been read. -/
def inHeredoc (content : List Byte) : Tokenizer := { t with heredocDelim := some delim, heredocContent := some content }

/-- The state of the here-document is cleared. -/
def outOfHeredoc : Tokenizer := { t with heredocDelim := none, heredocContent := none }

/-- The lines and the delimiter add one token with the text of the lines, and change nothing else. -/
def KeepsLines (lines : List (List Byte)) : Prop :=
  feedLines (t.inHeredoc delim []) (lines ++ [delim]) = some (t.add .word (joinLines lines)).outOfHeredoc

end Tokenizer

/-- There are lines, and the first is not empty. -/
def BeginsWithText (lines : List (List Byte)) : Prop := ∃ line rest, lines = line :: rest ∧ line ≠ []

/-- The content after one more line -/
def addLine (content line : List Byte) : List Byte := if content = [] then line else content ++ 0x0A :: line

variable {t : Tokenizer} {delim content : List Byte}

/-! ## One line -/

theorem processInput_heredoc (line : List Byte) :
    processInput (t.inHeredoc delim content) (line ++ [0x0A]) =
      .done (processHeredocContent (t.inHeredoc delim content) delim (line ++ [0x0A])) := by
  cases line with
  | nil => rw [List.nil_append, processInput_cons]; rfl
  | cons c line => rw [List.cons_append, processInput_cons]; rfl

theorem processInput_line {line : List Byte} (hne : line ≠ delim) :
    processInput (t.inHeredoc delim content) (line ++ [0x0A]) = .done (t.inHeredoc delim (addLine content line)) := by
  rw [processInput_heredoc]
  unfold processHeredocContent
  rw [List.getLast?_concat, List.dropLast_concat, if_pos rfl, if_neg hne]
  rfl

/-- The delimiter adds the token where there is content. -/
theorem processInput_delim :
    processInput (t.inHeredoc delim content) (delim ++ [0x0A]) =
      .done (if content = [] then t else t.add .word content).outOfHeredoc := by
  rw [processInput_heredoc]
  unfold processHeredocContent
  rw [List.getLast?_concat, List.dropLast_concat, if_pos rfl, if_pos rfl]
  by_cases hcontent : content = []
  · subst hcontent
    rfl
  · have hsome : (t.inHeredoc delim content).heredocContent ≠ some [] := fun h => hcontent (Option.some.inj h)
    rw [if_neg hcontent]
    dsimp only
    rw [if_pos hsome]
    rfl

/-! ## All lines -/

theorem feedLines_lines {lines : List (List Byte)} (hdelim : delim ∉ lines) :
    feedLines (t.inHeredoc delim content) (lines ++ [delim]) =
      some (if lines.foldl addLine content = [] then t else t.add .word (lines.foldl addLine content)).outOfHeredoc := by
  induction lines generalizing content with
  | nil =>
    rw [List.nil_append, feedLines, processInput_delim]
    rfl
  | cons line lines ih =>
    rw [List.mem_cons, not_or] at hdelim
    rw [List.cons_append, feedLines, processInput_line (Ne.symm hdelim.1)]
    exact ih hdelim.2

theorem joinLines_cons (line : List Byte) {lines : List (List Byte)} (h : lines ≠ []) :
    joinLines (line :: lines) = line ++ 0x0A :: joinLines lines := by
  unfold joinLines
  rw [List.intercalate_cons_of_ne_nil h]
  simp

/-- Behind a line with text, every line is joined. -/
theorem foldl_addLine {content : List Byte} (h : content ≠ []) (lines : List (List Byte)) :
    lines.foldl addLine content = joinLines (content :: lines) := by
  induction lines generalizing content with
  | nil => exact (joinLines_singleton content).symm
  | cons line lines ih =>
    have hadd : addLine content line = content ++ 0x0A :: line := if_neg h
    have hne : content ++ 0x0A :: line ≠ [] := fun hnil => h (List.append_eq_nil_iff.mp hnil).1
    rw [List.foldl_cons, hadd, ih hne, joinLines_cons _ (List.cons_ne_nil line lines)]
    cases lines with
    | nil => rw [joinLines_singleton, joinLines_singleton]
    | cons line' lines =>
      rw [joinLines_cons _ (List.cons_ne_nil _ _), joinLines_cons _ (List.cons_ne_nil _ _), List.append_assoc,
        List.cons_append]

/-- Empty lines in front are lost. -/
theorem length_foldl_addLine_le (lines : List (List Byte)) : (lines.foldl addLine []).length ≤ (joinLines lines).length := by
  induction lines with
  | nil => exact le_rfl
  | cons line lines ih =>
    by_cases hline : line = []
    · subst hline
      have hfold : ([] :: lines).foldl addLine [] = lines.foldl addLine [] := rfl
      rw [hfold]
      cases lines with
      | nil => exact Nat.zero_le _
      | cons line' lines =>
        rw [joinLines_cons _ (List.cons_ne_nil _ _)]
        simp only [List.nil_append, List.length_cons] at ih ⊢
        omega
    · have hfold : (line :: lines).foldl addLine [] = lines.foldl addLine line := rfl
      rw [hfold, foldl_addLine hline]

theorem foldl_addLine_eq_iff (lines : List (List Byte)) :
    lines.foldl addLine [] ≠ [] ∧ lines.foldl addLine [] = joinLines lines ↔ BeginsWithText lines := by
  cases lines with
  | nil =>
    constructor
    · intro h
      exact absurd rfl h.1
    · rintro ⟨line, rest, heq, -⟩
      cases heq
  | cons line lines =>
    have hfold : (line :: lines).foldl addLine [] = lines.foldl addLine line := rfl
    rw [hfold]
    constructor
    · rintro ⟨hne, heq⟩
      refine ⟨line, lines, rfl, ?_⟩
      rintro rfl
      have hlines : lines ≠ [] := by
        rintro rfl
        exact hne rfl
      have hle := length_foldl_addLine_le lines
      rw [heq, joinLines_cons _ hlines, List.nil_append, List.length_cons] at hle
      omega
    · rintro ⟨line', rest, heq, hline⟩
      obtain ⟨rfl, rfl⟩ := List.cons.inj heq
      rw [foldl_addLine hline]
      refine ⟨fun hnil => ?_, rfl⟩
      cases lines with
      | nil => exact hline ((joinLines_singleton line).symm.trans hnil)
      | cons line' lines =>
        rw [joinLines_cons _ (List.cons_ne_nil _ _)] at hnil
        exact hline (List.append_eq_nil_iff.mp hnil).1

/-- The text of a here-document is kept exactly where it has a first line that is not empty. -/
theorem keepsLines_iff (t : Tokenizer) (delim : List Byte) (lines : List (List Byte)) (hdelim : delim ∉ lines) :
    t.KeepsLines delim lines ↔ BeginsWithText lines := by
  rw [← foldl_addLine_eq_iff]
  unfold Tokenizer.KeepsLines
  rw [feedLines_lines hdelim, Option.some_inj]
  by_cases hnil : lines.foldl addLine [] = []
  · rw [if_pos hnil]
    constructor
    · intro heq
      have htokens : t.tokens = t.tokens ++ [⟨.word, joinLines lines⟩] := congrArg Tokenizer.tokens heq
      exact absurd (List.append_right_eq_self.mp htokens.symm) (List.cons_ne_nil _ _)
    · intro h
      exact absurd hnil h.1
  · rw [if_neg hnil]
    constructor
    · intro heq
      have htokens : t.tokens ++ [⟨.word, lines.foldl addLine []⟩] = t.tokens ++ [⟨.word, joinLines lines⟩] :=
        congrArg Tokenizer.tokens heq
      have htoken := List.append_cancel_left htokens
      exact ⟨hnil, (Token.mk.inj (List.cons.inj htoken).1).2⟩
    · intro h
      rw [h.2]

theorem keepsLines_a : lit "EOF" ∉ [lit "a", [], lit "b"] ∧ Tokenizer.create.KeepsLines (lit "EOF") [lit "a", [], lit "b"] := by
  have hdelim : lit "EOF" ∉ [lit "a", [], lit "b"] := by decide
  have htext : BeginsWithText [lit "a", [], lit "b"] := ⟨lit "a", [[], lit "b"], rfl, by decide⟩
  exact ⟨hdelim, (keepsLines_iff _ _ _ hdelim).mpr htext⟩

/-- An empty document has no token, and an empty line in front is lost. -/
theorem not_keepsLines :
    feedLines (Tokenizer.create.inHeredoc (lit "EOF") []) [lit "EOF"] = some Tokenizer.create ∧
      ¬Tokenizer.create.KeepsLines (lit "EOF") [] ∧ ¬Tokenizer.create.KeepsLines (lit "EOF") [[], lit "a"] := by
  refine ⟨feedLines_lines List.not_mem_nil, fun h => ?_, fun h => ?_⟩
  · have hfeed := (feedLines_lines List.not_mem_nil).symm.trans h
    have htokens := congrArg Tokenizer.tokens (Option.some.inj hfeed)
    revert htokens
    decide
  · have hdelim : lit "EOF" ∉ [[], lit "a"] := by decide
    have hfeed := (feedLines_lines hdelim).symm.trans h
    have htokens := congrArg Tokenizer.tokens (Option.some.inj hfeed)
    revert htokens
    decide

end ValidcTools.Sh23
