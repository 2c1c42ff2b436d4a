import ValidcTools.Grep.Selection

/-! Whether the newline at the end of a line changes its selection by `line_matches_regex`. -/
namespace ValidcTools.Grep
open Bre Greedy

theorem lineOf_false (content : List Byte) : lineOf content false = content := List.append_nil _

theorem length_lineOf (content : List Byte) (terminated : Bool) :
    content.length ≤ (lineOf content terminated).length ∧
      (lineOf content terminated).length ≤ content.length + 1 := by
  unfold lineOf
  cases terminated <;> simp

/-- The boundary test looks at the content only. -/
theorem boundariesAreWord_lineOf (content : List Byte) (terminated : Bool) {s : ℕ}
    (hs : s ≤ content.length) (n : ℤ) :
    boundariesAreWord (lineOf content terminated) content.length s n =
      boundariesAreWord content content.length s n := by
  have hget {k : ℕ} (hk : k < content.length) :
      (lineOf content terminated).getD k 0 = content.getD k 0 := List.getD_append _ _ _ _ hk
  unfold boundariesAreWord
  by_cases hn : n = 0
  · rw [if_pos hn, if_pos hn]
  rw [if_neg hn, if_neg hn]
  by_cases hstart : s > 0 <;> by_cases hstop : 0 ≤ (s : ℤ) + n ∧ (s : ℤ) + n < content.length
  · simp only [hstart, hstop, and_self, if_true, hget (k := s - 1) (by omega),
      hget (k := ((s : ℤ) + n).toNat) (by omega)]
  · simp only [hstart, hstop, if_true, if_false, hget (k := s - 1) (by omega)]
  · simp only [hstart, hstop, if_false, hget (k := ((s : ℤ) + n).toNat) (by omega)]
  · simp only [hstart, hstop, if_false]

/-- The pattern selects `content` when the engine is given `t`: with `-x` when `t` up to its first
NUL is a word of the pattern, else when an accepted longest match is got to. -/
def Picks (content t : List Byte) (wholeWord wholeLine : Bool) (p : Pattern) : Prop :=
  if wholeLine then ¬ p.bol ∧ ¬ p.eol ∧ (targetFrom t 0).bytes ∈ p.cappedLang
  else ∃ s e : ℕ, Reaches p t 0 s ∧ LongestAt p t s e ∧
    accepted content content.length wholeWord s (e - s)

theorem accepted_lineOf (content : List Byte) (terminated wholeWord : Bool) {s e : ℕ} (hse : s ≤ e)
    (he : e ≤ content.length + 1) :
    accepted (lineOf content terminated) content.length wholeWord s (e - s) =
      accepted content content.length wholeWord s (e - s) := by
  unfold accepted
  by_cases hs : s ≤ content.length
  · rw [boundariesAreWord_lineOf content terminated hs]
  · obtain rfl : e = s := by omega
    simp [boundariesAreWord]

/-- One pattern, on a text that is the content or the content and a newline. -/
theorem pattern_eq (content : List Byte) (terminated wholeWord wholeLine : Bool) {t : List Byte}
    (hlo : content.length ≤ t.length) (hhi : t.length ≤ content.length + 1) (p : Pattern) :
    ∃ b, (if wholeLine then wholeLineMatch t p.render
        else regexLoop (lineOf content terminated) content.length wholeWord t p.render
          (content.length + 1) 0) = some b ∧
      (b = true ↔ Picks content t wholeWord wholeLine p) := by
  unfold Picks
  cases wholeLine with
  | true => exact wholeLineMatch_eq p _
  | false =>
    obtain ⟨b, hb, hiff⟩ := regexLoop_eq (lineOf content terminated) wholeWord p hlo hhi (content.length + 1) 0 (by omega) (Or.inl (by omega))
    refine ⟨b, hb, hiff.trans ⟨?_, ?_⟩⟩
    · rintro ⟨s, e, -, hr, hlong, hacc⟩
      rw [accepted_lineOf content terminated wholeWord hlong.1.1 (hlong.1.2.1.trans hhi)] at hacc
      exact ⟨s, e, hr, hlong, hacc⟩
    · rintro ⟨s, e, hr, hlong, hacc⟩
      rw [← accepted_lineOf content terminated wholeWord hlong.1.1 (hlong.1.2.1.trans hhi)] at hacc
      exact ⟨s, e, by omega, hr, hlong, hacc⟩

theorem anyPattern_eq {ι : Type} {f : CString → Option Bool} {g : ι → CString} {Q : ι → Prop}
    (h : ∀ x, ∃ b, f (g x) = some b ∧ (b = true ↔ Q x)) (xs : List ι) :
    ∃ b, anyPattern f (xs.map g) = some b ∧ (b = true ↔ ∃ x ∈ xs, Q x) := by
  induction xs with
  | nil => exact ⟨false, rfl, by simp⟩
  | cons x xs ih =>
    obtain ⟨b, hb, hQ⟩ := h x
    cases b with
    | true => exact ⟨true, by simp [anyPattern, hb], iff_of_true rfl ⟨x, by simp, hQ.mp rfl⟩⟩
    | false =>
      obtain ⟨b', hb', hiff⟩ := ih
      have hno : ¬ Q x := fun hq => by cases hQ.mpr hq
      exact ⟨b', by simpa [anyPattern, hb] using hb', by simpa [hno] using hiff⟩

theorem patterns_eq (content : List Byte) (terminated wholeWord wholeLine : Bool) {t : List Byte}
    (hlo : content.length ≤ t.length) (hhi : t.length ≤ content.length + 1) (pats : List Pattern) :
    ∃ b, anyPattern (fun pat =>
        if wholeLine then wholeLineMatch t pat
        else regexLoop (lineOf content terminated) content.length wholeWord t pat
          (content.length + 1) 0) (pats.map Pattern.render) = some b ∧
      (b = true ↔ ∃ p ∈ pats, Picks content t wholeWord wholeLine p) :=
  anyPattern_eq (g := Pattern.render)
    (pattern_eq content terminated wholeWord wholeLine hlo hhi) pats

/-- Without `-i`, a list of patterns selects a line by what they match in the line as it stands. -/
theorem lineMatchesRegex_eq (content : List Byte) (terminated wholeWord wholeLine : Bool)
    (pats : List Pattern) :
    ∃ b, lineMatchesRegex (lineOf content terminated) content.length false wholeWord
        (.ofPatterns (pats.map Pattern.render) false) wholeLine = some b ∧
      (b = true ↔ ∃ p ∈ pats, Picks content (lineOf content terminated) wholeWord wholeLine p) :=
  have ⟨hlo, hhi⟩ := length_lineOf content terminated
  patterns_eq content terminated wholeWord wholeLine hlo hhi pats

theorem regexLoop_lineOf {content t t' : List Byte} {wholeWord : Bool} {pat : CString}
    (ht : t'.length = content.length)
    (h : ∀ o ≤ content.length, breMatch (targetFrom t o) pat = breMatch (targetFrom t' o) pat)
    (n o : ℕ) :
    regexLoop (lineOf content true) content.length wholeWord t pat n o =
      regexLoop content content.length wholeWord t' pat n o := by
  induction n generalizing o with
  | zero => rfl
  | succ n ih =>
    unfold regexLoop
    by_cases ho : o ≤ content.length
    swap
    · rw [if_neg ho, if_neg ho]
    rw [if_pos ho, if_pos ho, h o ho]
    cases hm : breMatch (targetFrom t' o) pat with
    | ok m =>
      obtain ⟨s, hs, hle⟩ := breMatch_start hm
      have hlen := length_targetFrom (t := t') (o := o) (by omega)
      have hstart : o + m.start.toNat ≤ content.length := by omega
      simp only [boundariesAreWord_lineOf content true hstart, ih]
    | noMatch => rfl
    | stop s => cases s <;> rfl

/-- The selection of a line does not depend on its newline. -/
def SelectsByContent (content : List Byte) (patterns : List CString)
    (icase wholeWord wholeLine : Bool) : Prop :=
  lineMatchesRegex (lineOf content true) content.length icase wholeWord
      (.ofPatterns patterns icase) wholeLine =
    lineMatchesRegex (lineOf content false) content.length icase wholeWord
      (.ofPatterns patterns icase) wholeLine

theorem anyPattern_congr {f g : CString → Option Bool} {pats : List CString}
    (h : ∀ pat ∈ pats, f pat = g pat) : anyPattern f pats = anyPattern g pats := by
  induction pats with
  | nil => rfl
  | cons pat pats ih =>
    unfold anyPattern
    rw [h pat (by simp), ih fun pat' hmem => h pat' (by simp [hmem])]

/-- With `-i` the engine is given a copy of the content only. -/
theorem selectsByContent_icase (content : List Byte) (patterns : List CString)
    (wholeWord wholeLine : Bool) : SelectsByContent content patterns true wholeWord wholeLine := by
  have htake : (lineOf content true).take content.length = content := by simp [lineOf]
  have htarget (line : List Byte) (h : line.take content.length = content) :
      targetLine line content.length true = content.map toLower := by simp [targetLine, h]
  unfold SelectsByContent lineMatchesRegex
  simp only [lineOf_false, htarget _ htake, htarget content (by simp)]
  refine anyPattern_congr fun pat _ => ?_
  cases wholeLine with
  | true => rfl
  | false => exact regexLoop_lineOf (by simp) (fun o _ => rfl) _ _

/-- The patterns give the engine no way to tell the content from the content with its newline. -/
theorem selectsByContent_of_agree (content : List Byte) (patterns : List CString)
    (wholeWord wholeLine : Bool)
    (h : ∀ pat ∈ patterns, ∀ o ≤ content.length,
      breMatch (targetFrom (lineOf content true) o) (if wholeLine then wrapPattern pat else pat) =
        breMatch (targetFrom content o) (if wholeLine then wrapPattern pat else pat)) :
    SelectsByContent content patterns false wholeWord wholeLine := by
  unfold SelectsByContent lineMatchesRegex targetLine
  simp only [lineOf_false, Bool.false_eq_true, if_false]
  refine anyPattern_congr fun pat hmem => ?_
  cases wholeLine with
  | true =>
    have hwrap := h pat hmem 0 (by omega)
    simp only [if_true] at hwrap ⊢
    simp only [wholeLineMatch, hwrap]
  | false =>
    exact regexLoop_lineOf rfl (fun o ho => h pat hmem o ho) _ _

theorem selectsByContent_iff_picks (content : List Byte) (pats : List Pattern)
    (wholeWord wholeLine : Bool) :
    SelectsByContent content (pats.map Pattern.render) false wholeWord wholeLine ↔
      ((∃ p ∈ pats, Picks content (lineOf content true) wholeWord wholeLine p) ↔
        ∃ p ∈ pats, Picks content content wholeWord wholeLine p) := by
  obtain ⟨b, hb, hiff⟩ := lineMatchesRegex_eq content true wholeWord wholeLine pats
  obtain ⟨b', hb', hiff'⟩ := lineMatchesRegex_eq content false wholeWord wholeLine pats
  unfold SelectsByContent
  rw [lineOf_false] at hb' hiff'
  rw [lineOf_false, hb, hb', Option.some.injEq, ← hiff, ← hiff', Bool.eq_iff_iff]

/-- Exactly which lines are selected by their content: all of them with `-i`; and without `-i`
those for which the patterns pick the content followed by its newline as they pick the content. -/
theorem selectsByContent_iff (content : List Byte) (wholeWord wholeLine : Bool) :
    (∀ patterns, SelectsByContent content patterns true wholeWord wholeLine) ∧
    (∀ pats : List Pattern,
      SelectsByContent content (pats.map Pattern.render) false wholeWord wholeLine ↔
        ((∃ p ∈ pats, Picks content (lineOf content true) wholeWord wholeLine p) ↔
          ∃ p ∈ pats, Picks content content wholeWord wholeLine p)) ∧
    ∀ patterns,
      (∀ pat ∈ patterns, ∀ o ≤ content.length,
        breMatch (targetFrom (lineOf content true) o) (if wholeLine then wrapPattern pat else pat) =
          breMatch (targetFrom content o) (if wholeLine then wrapPattern pat else pat)) →
      SelectsByContent content patterns false wholeWord wholeLine :=
  ⟨fun patterns => selectsByContent_icase content patterns wholeWord wholeLine,
    fun pats => selectsByContent_iff_picks content pats wholeWord wholeLine,
    fun patterns => selectsByContent_of_agree content patterns wholeWord wholeLine⟩

/-- With `-x`, the pattern `a` does not select the line `a` that ends in a newline. -/
theorem not_selectsByContent :
    ¬ ∀ content patterns icase wholeWord wholeLine,
      SelectsByContent content patterns icase wholeWord wholeLine := by
  intro h
  have hx := h (CString.lit "a").bytes [CString.lit "a"] false false true
  revert hx
  unfold SelectsByContent
  decide

/-- Why `-x` fails: a pattern that no newline can match never selects a terminated line. -/
theorem not_picks_wholeLine {content : List Byte} (h0 : (0 : Byte) ∉ content) {p : Pattern}
    (hp : ∀ u ∈ p.cappedLang, ((('\n' : Char) : Byte)) ∉ u) (wholeWord : Bool) :
    ¬ Picks content (lineOf content true) wholeWord true p := by
  rintro ⟨-, -, hmem⟩
  have hall : (targetFrom (lineOf content true) 0).bytes = lineOf content true := by
    have hfree : (0 : Byte) ∉ lineOf content true := by
      simp only [lineOf, if_true, List.mem_append, List.mem_singleton, not_or]
      exact ⟨h0, by decide⟩
    exact CString.ofBytes_bytes_of_nulFree (by simpa using hfree)
  rw [hall] at hmem
  exact hp _ hmem (by simp [lineOf])

end ValidcTools.Grep
