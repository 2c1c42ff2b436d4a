import ValidcTools.Bre.Matcher

/-! `grep`: reading lines and matching them, literally (`-F`) or with `bre_match`. -/
namespace ValidcTools.Grep
open Bre

def isWordChar (ch : Byte) : Bool := isAlnum ch || decide (ch = '_')

theorem toLower_ne_zero {b : Byte} (h : b ≠ 0) : toLower b ≠ 0 := by
  unfold toLower
  split_ifs with hc
  · obtain ⟨hlo, hhi⟩ := hc
    intro h0
    have hlo : 65 ≤ b.toNat := hlo
    have hhi : b.toNat ≤ 90 := hhi
    have hsum := congrArg UInt8.toNat h0
    rw [UInt8.toNat_add] at hsum
    have h32 : (32 : UInt8).toNat = 32 := rfl
    have hz : (0 : UInt8).toNat = 0 := rfl
    omega
  · exact h

def tolowerDup (s : CString) : CString where
  bytes := s.bytes.map toLower
  nulFree h := by
    obtain ⟨b, hb, h0⟩ := List.mem_map.mp h
    exact toLower_ne_zero (ne_of_mem_of_not_mem hb s.nulFree) h0

/-- `read_line`: the line with its newline, if it has one, and what is left of the stream. -/
def readLine : List Byte → Option (List Byte × List Byte)
  | [] => none
  | c :: s =>
    if c = '\n' then some ([c], s)
    else match readLine s with
      | none => some ([c], [])
      | some (line, rest) => some (c :: line, rest)

/-- `content_len` in the loop of `main`. -/
def contentLen (line : List Byte) : ℕ :=
  if line.getLast? = some (('\n' : Char) : Byte) then line.length - 1 else line.length

/-- `literal_eq_case` -/
def literalEqCase (a b : List Byte) (icase : Bool) : Bool :=
  if a.length ≠ b.length then false
  else if icase then (a.zip b).all fun x => toLower x.1 = toLower x.2
  else decide (a = b)

/-- `literal_find_next`; the comparison at a position is that of `literal_eq_case`. -/
def literalFindNext (hay : List Byte) (hlen : ℕ) (ndl : CString) (start : ℕ) (icase : Bool) : Option ℕ :=
  if ndl.length = 0 then if start ≤ hlen then some start else none
  else if ndl.length > hlen then none
  else (List.range' start (hlen + 1 - ndl.length - start)).find? fun i =>
    literalEqCase ((hay.drop i).take ndl.length) ndl.bytes icase

/-- `boundaries_are_word`. A negative length becomes a huge one in C, beyond the end of the text. -/
def boundariesAreWord (text : List Byte) (tlen start : ℕ) (mlen : ℤ) : Bool :=
  if mlen = 0 then false
  else
    let stop := start + mlen
    let leftOk := if start > 0 then !isWordChar (text.getD (start - 1) 0) else true
    let rightOk := if 0 ≤ stop ∧ stop < tlen then !isWordChar (text.getD stop.toNat 0) else true
    leftOk && rightOk

section Literal

variable (line : List Byte) (llen : ℕ) (icase wholeWord : Bool)

/-- The search for one pattern in `line_matches_literal`, with at most `n` candidates. -/
def literalLoop (pat : CString) : ℕ → ℕ → Bool
  | 0, _ => false
  | n + 1, pos =>
    if pos ≤ llen then
      match literalFindNext line llen pat pos icase with
      | none => false
      | some s =>
        if !wholeWord || boundariesAreWord line llen s pat.length then true
        else literalLoop pat n (s + 1)
    else false

def lineMatchesLiteral (patterns : List CString) (wholeLine : Bool) : Bool :=
  patterns.any fun pat =>
    if wholeLine then literalEqCase (line.take llen) pat.bytes icase
    else literalLoop line llen icase wholeWord pat (llen + 1) 0

end Literal

/-- The patterns as `main` prepares them. -/
structure RegexPatterns where
  raw : List CString
  lower : List CString

def RegexPatterns.ofPatterns (patterns : List CString) (icase : Bool) : RegexPatterns :=
  ⟨patterns, if icase then patterns.map tolowerDup else []⟩

/-- `^pat$` -/
def wrapPattern (pat : CString) : CString where
  bytes := (['^'] : List Byte) ++ pat.bytes ++ (['$'] : List Byte)
  nulFree := by
    have h := pat.nulFree
    simp only [List.cons_append, List.nil_append, List.mem_cons, List.mem_append, List.not_mem_nil,
      or_false, not_or]
    exact ⟨by decide, h, by decide⟩

section Regex

variable (line : List Byte) (llen : ℕ) (icase wholeWord : Bool)

/-- The buffer the engine is given: the line itself, or a lower-case copy of its content. -/
def targetLine : List Byte := if icase then (line.take llen).map toLower else line

/-- `target_line + offset` as the string the engine sees. -/
def targetFrom (target : List Byte) (offset : ℕ) : CString := .ofBytes (target.drop offset)

/-- The search for one pattern in `line_matches_regex`, with at most `n` candidates; `none` when
the engine leaves its text. -/
def regexLoop (target : List Byte) (pat : CString) : ℕ → ℕ → Option Bool
  | 0, _ => some false
  | n + 1, offset =>
    if offset ≤ llen then
      match breMatch (targetFrom target offset) pat with
      | .ok m =>
        if m.start < 0 then regexLoop target pat n (offset + 1)
        else
          let absStart := offset + m.start.toNat
          if !wholeWord || boundariesAreWord line llen absStart m.length then some true
          else regexLoop target pat n (absStart + 1)
      | .noMatch => some false
      | .stop .error => some false
      | .stop _ => none
    else some false

def wholeLineMatch (target : List Byte) (pat : CString) : Option Bool :=
  match breMatch (targetFrom target 0) (wrapPattern pat) with
  | .ok _ => some true
  | .noMatch => some false
  | .stop .error => some false
  | .stop _ => none

/-- The first pattern that matches, or the first undefined one, decides. -/
def anyPattern (f : CString → Option Bool) : List CString → Option Bool
  | [] => some false
  | pat :: pats =>
    match f pat with
    | none => none
    | some true => some true
    | some false => anyPattern f pats

def lineMatchesRegex (rp : RegexPatterns) (wholeLine : Bool) : Option Bool :=
  let target := targetLine line llen icase
  anyPattern (fun pat =>
    if wholeLine then wholeLineMatch target pat
    else regexLoop line llen wholeWord target pat (llen + 1) 0)
    (if icase then rp.lower else rp.raw)

end Regex

/-- A line as it stands in a file: its content, and a newline unless it is an unterminated last line. -/
def lineOf (content : List Byte) (terminated : Bool) : List Byte :=
  content ++ (if terminated then (['\n'] : List Byte) else [])

theorem contentLen_lineOf {content : List Byte} (h : ((('\n' : Char) : Byte)) ∉ content)
    (terminated : Bool) : contentLen (lineOf content terminated) = content.length := by
  unfold contentLen lineOf
  cases terminated with
  | true => simp
  | false =>
    have hlast : content.getLast? ≠ some (('\n' : Char) : Byte) :=
      fun hl => h (List.mem_of_getLast? hl)
    simp [hlast]

/-- Every line that is read has a content without newlines; only the last one may be unterminated. -/
theorem readLine_eq {stream line rest : List Byte} (h : readLine stream = some (line, rest)) :
    stream = line ++ rest ∧ ∃ content, ((('\n' : Char) : Byte)) ∉ content ∧
      (line = lineOf content true ∨ (line = lineOf content false ∧ content ≠ [] ∧ rest = [])) := by
  induction stream generalizing line rest with
  | nil => simp [readLine] at h
  | cons c s ih =>
    unfold readLine at h
    split_ifs at h with hc
    · obtain ⟨rfl, rfl⟩ : [c] = line ∧ s = rest := by simpa using h
      exact ⟨rfl, [], by simp, Or.inl (by simp [hc, lineOf])⟩
    · split at h
      · rename_i hnone
        obtain ⟨rfl, rfl⟩ : [c] = line ∧ [] = rest := by simpa using h
        cases s with
        | nil => exact ⟨rfl, [c], by simpa using Ne.symm hc, Or.inr ⟨rfl, by simp, rfl⟩⟩
        | cons d s =>
          unfold readLine at hnone
          split_ifs at hnone
          split at hnone <;> cases hnone
      · rename_i l r hsome
        obtain ⟨rfl, rfl⟩ : c :: l = line ∧ r = rest := by simpa using h
        obtain ⟨hs, content, hfree, hl⟩ := ih hsome
        refine ⟨congrArg (c :: ·) hs, c :: content, by simpa using ⟨Ne.symm hc, hfree⟩, ?_⟩
        rcases hl with hl | ⟨hl, -, hr⟩
        · exact Or.inl (congrArg (c :: ·) hl)
        · exact Or.inr ⟨congrArg (c :: ·) hl, by simp, hr⟩

end ValidcTools.Grep
