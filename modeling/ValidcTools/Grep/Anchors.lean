import ValidcTools.Grep.LineEnd

/-! `-w` and `-x` with patterns that have `^` or `$` themselves. -/
namespace ValidcTools.Grep
open Bre Greedy

/-! ## Any pattern, by the matches of the engine -/

/-- What the engine makes of the pattern at `s` when it is given the text from `o` on. -/
def engineAt (t : List Byte) (pat : CString) (o s : ℕ) : Res ℤ := (attempt (targetFrom t o) pat (s - o : ℕ)).1

/-- The engine, given the text from some place on, matches `n` bytes at `s`; a `^` is the beginning of the text. -/
def EngineMatch (t : List Byte) (pat : CString) (s : ℕ) (n : ℤ) : Prop :=
  (anchoredStart pat → s = 0) ∧ ∃ o ≤ s, engineAt t pat o s = .ok n

/-- The pattern as the engine is given it -/
def enginePattern (icase : Bool) (pat : CString) : CString := if icase then tolowerDup pat else pat

/-- A line is selected under `-w` only if the pattern has a match in it with no word character on either side. -/
def WordSound (line : List Byte) (llen : ℕ) (icase : Bool) (pat : CString) : Prop :=
  lineMatchesRegex line llen icase true (.ofPatterns [pat] icase) false = some true →
    ∃ s n, EngineMatch (targetLine line llen icase) (enginePattern icase pat) s n ∧ boundariesAreWord line llen s n = true

/-- The engine, given the text from `k` on, matches a word there. -/
def WordAt (line : List Byte) (llen : ℕ) (t : List Byte) (pat : CString) (k : ℕ) : Prop :=
  ∃ n, engineAt t pat k k = .ok n ∧ boundariesAreWord line llen k n = true

/-- A pattern with `^` comes to a word behind the beginning of the line only where it has one at the beginning, too. -/
def NoLaterWord (line : List Byte) (llen : ℕ) (t : List Byte) (pat : CString) : Prop :=
  anchoredStart pat → ∀ k ≤ llen, 0 < k → (∀ j < k, ∃ n, engineAt t pat j j = .ok n) → WordAt line llen t pat k →
    WordAt line llen t pat 0

section

variable {line t : List Byte} {llen : ℕ} {pat : CString}

/-- One call of the engine, on the text from `o` on -/
theorem breMatch_engineAt (t : List Byte) (pat : CString) (o : ℕ) :
    (∃ s m, o ≤ s ∧ breMatch (targetFrom t o) pat = .ok m ∧ m.start = (s - o : ℕ) ∧ engineAt t pat o s = .ok m.length ∧
        (anchoredStart pat → s = o)) ∨
      (∀ m, breMatch (targetFrom t o) pat ≠ .ok m) ∧ (anchoredStart pat → ∀ n, engineAt t pat o o ≠ .ok n) := by
  have hself : ((o - o : ℕ) : ℤ) = 0 := by simp
  rcases breMatch_cases (targetFrom t o) pat with ⟨hno, hall⟩ | ⟨s, hs, hbefore, hne, heq⟩
  · right
    refine ⟨fun m => by rw [hno]; exact nofun, fun _ n => ?_⟩
    rw [engineAt, hself, show (attempt (targetFrom t o) pat 0).1 = .noMatch from hall 0 (Nat.zero_le _)]
    exact nofun
  · have hanchored : anchoredStart pat → s = 0 := fun h => by
      rw [lastStart, if_pos h] at hs
      exact Nat.le_zero.mp hs
    have hsub : o + s - o = s := Nat.add_sub_cancel_left o s
    rcases ha : attempt (targetFrom t o) pat s with ⟨r, m⟩
    rw [ha] at heq
    cases r with
    | ok n =>
      left
      refine ⟨o + s, m.finish s n, Nat.le_add_right o s, heq, by rw [hsub]; rfl, ?_, fun h => by rw [hanchored h]; rfl⟩
      rw [engineAt, hsub, ha]
      rfl
    | noMatch =>
      rw [ha] at hne
      exact absurd rfl hne
    | stop e =>
      right
      refine ⟨fun m => by rw [heq]; exact nofun, fun h n => ?_⟩
      rw [engineAt, hself, ← Nat.cast_zero, ← hanchored h, ha]
      exact nofun

/-- One turn of the loop of `line_matches_regex` -/
theorem regexLoop_eq_true {n o : ℕ} (h : regexLoop line llen true t pat (n + 1) o = some true) :
    o ≤ llen ∧ ∃ s m, o ≤ s ∧ breMatch (targetFrom t o) pat = .ok m ∧ engineAt t pat o s = .ok m.length ∧
      (anchoredStart pat → s = o) ∧
      (boundariesAreWord line llen s m.length = true ∨ regexLoop line llen true t pat n (s + 1) = some true) := by
  unfold regexLoop at h
  split_ifs at h with ho
  · refine ⟨ho, ?_⟩
    rcases breMatch_engineAt t pat o with ⟨s, m, hos, hok, hstart, hat, hanchored⟩ | ⟨hno, -⟩
    · refine ⟨s, m, hos, hok, hat, hanchored, ?_⟩
      have habs : o + m.start.toNat = s := by omega
      rw [hok] at h
      simp only [if_neg (show ¬ m.start < 0 by omega), habs, Bool.not_true, Bool.false_or] at h
      split_ifs at h with hword
      · exact .inl hword
      · exact .inr h
    · cases hm : breMatch (targetFrom t o) pat with
      | ok m => exact absurd hm (hno m)
      | noMatch =>
        rw [hm] at h
        cases h
      | stop e =>
        rw [hm] at h
        cases e <;> cases h
  · cases h

/-- What `-w` selects has a match that the engine finds, given the line from some place on. -/
theorem exists_match_of_regexLoop {n o : ℕ} (h : regexLoop line llen true t pat n o = some true) :
    ∃ o' s m, o ≤ o' ∧ o' ≤ s ∧ engineAt t pat o' s = .ok m ∧ boundariesAreWord line llen s m = true := by
  induction n generalizing o with
  | zero => cases h
  | succ n ih =>
    obtain ⟨-, s, m, hos, -, hat, -, hword | hrest⟩ := regexLoop_eq_true h
    · exact ⟨o, s, m.length, le_rfl, hos, hat, hword⟩
    · obtain ⟨o', s', m', ho', hs', hat', hword'⟩ := ih hrest
      exact ⟨o', s', m', by omega, hs', hat', hword'⟩

/-- A pattern with `^` is tried at one place after the other, as long as it matches. -/
theorem regexLoop_anchored (hpat : anchoredStart pat = true) {n o : ℕ} (hn : llen < n + o) :
    regexLoop line llen true t pat n o = some true ↔
      ∃ k, o ≤ k ∧ k ≤ llen ∧ (∀ j, o ≤ j → j < k → ∃ m, engineAt t pat j j = .ok m) ∧ WordAt line llen t pat k := by
  induction n generalizing o with
  | zero =>
    apply iff_of_false nofun
    rintro ⟨k, hok, hk, -⟩
    omega
  | succ n ih =>
    constructor
    · intro h
      obtain ⟨ho, s, m, -, -, hat, hs, hword | hrest⟩ := regexLoop_eq_true h
      · rw [hs hpat] at hat hword
        exact ⟨o, le_rfl, ho, fun j hj hjo => by omega, m.length, hat, hword⟩
      · rw [hs hpat] at hat hrest
        obtain ⟨k, hok, hk, hmatches, hword⟩ := (ih (by omega)).mp hrest
        refine ⟨k, by omega, hk, fun j hj hjk => ?_, hword⟩
        rcases hj.eq_or_lt with rfl | hlt
        · exact ⟨m.length, hat⟩
        · exact hmatches j hlt hjk
    · rintro ⟨k, hok, hk, hmatches, hword⟩
      have hmatch : ∃ m, engineAt t pat o o = .ok m := by
        rcases hok.eq_or_lt with rfl | hlt
        · obtain ⟨m, hm, -⟩ := hword
          exact ⟨m, hm⟩
        · exact hmatches o le_rfl hlt
      obtain ⟨m, hm⟩ := hmatch
      rcases breMatch_engineAt t pat o with ⟨s, found, hos, hfound, hstart, hat, hs⟩ | ⟨-, hno⟩
      · obtain rfl := hs hpat
        have habs : s + found.start.toNat = s := by omega
        have hfuel : llen < n + (s + 1) := by omega
        unfold regexLoop
        rw [if_pos (hok.trans hk), hfound]
        simp only [if_neg (show ¬ found.start < 0 by omega), habs, Bool.not_true, Bool.false_or]
        split_ifs with hhere
        · rfl
        · rw [ih hfuel]
          have hlt : s < k := by
            rcases hok.eq_or_lt with rfl | hlt
            · obtain ⟨m', hm', hword'⟩ := hword
              rw [hat] at hm'
              rw [← Res.ok.inj hm'] at hword'
              exact absurd hword' hhere
            · exact hlt
          exact ⟨k, hlt, hk, fun j hj hjk => hmatches j (by omega) hjk, hword⟩
      · exact absurd hm (hno hpat m)

theorem lineMatchesRegex_single (line : List Byte) (llen : ℕ) (icase wholeWord wholeLine : Bool) (pat : CString) :
    lineMatchesRegex line llen icase wholeWord (.ofPatterns [pat] icase) wholeLine =
      if wholeLine then wholeLineMatch (targetLine line llen icase) (enginePattern icase pat)
      else regexLoop line llen wholeWord (targetLine line llen icase) (enginePattern icase pat) (llen + 1) 0 := by
  have hsingle (f : CString → Option Bool) (pat : CString) : anyPattern f [pat] = f pat := by
    cases h : f pat with
    | none => simp [anyPattern, h]
    | some b => cases b <;> simp [anyPattern, h]
  unfold lineMatchesRegex enginePattern
  cases icase with
  | true => exact hsingle _ _
  | false => exact hsingle _ _

theorem wordSound_iff (line : List Byte) (llen : ℕ) (icase : Bool) (pat : CString) :
    WordSound line llen icase pat ↔ NoLaterWord line llen (targetLine line llen icase) (enginePattern icase pat) := by
  unfold WordSound
  rw [lineMatchesRegex_single]
  generalize targetLine line llen icase = t
  generalize enginePattern icase pat = pat
  simp only [Bool.false_eq_true, if_false]
  by_cases hpat : anchoredStart pat = true
  · rw [regexLoop_anchored hpat (by omega)]
    constructor
    · intro h _ k hk hpos hmatches hword
      obtain ⟨s, n, ⟨hs, o, ho, hat⟩, hbounds⟩ := h ⟨k, Nat.zero_le k, hk, fun j _ hj => hmatches j hj, hword⟩
      obtain rfl := hs hpat
      obtain rfl := Nat.le_zero.mp ho
      exact ⟨n, hat, hbounds⟩
    · rintro h ⟨k, -, hk, hmatches, hword⟩
      have hzero : WordAt line llen t pat 0 := by
        rcases Nat.eq_zero_or_pos k with rfl | hpos
        · exact hword
        · exact h hpat k hk hpos (fun j hj => hmatches j (Nat.zero_le j) hj) hword
      obtain ⟨n, hat, hbounds⟩ := hzero
      exact ⟨0, n, ⟨fun _ => rfl, 0, le_rfl, hat⟩, hbounds⟩
  · apply iff_of_true
    · intro h
      obtain ⟨o, s, n, -, hos, hat, hbounds⟩ := exists_match_of_regexLoop h
      exact ⟨s, n, ⟨fun hp => absurd hp hpat, o, hos, hat⟩, hbounds⟩
    · exact fun hp => absurd hp hpat

end

/-! ## Patterns without groups, by their languages -/

theorem cappedCounts_subset (it : Item) : it.cappedCounts ⊆ it.counts := by
  unfold Item.cappedCounts Item.counts
  cases it.quantifier with
  | none => exact subset_rfl
  | some q =>
    cases q with
    | star | plus | atLeast => exact Set.inter_subset_left
    | exactly | between => exact subset_rfl

theorem mem_lang_of_cappedLang {p : Pattern} {u : List Byte} (h : u ∈ p.cappedLang) : u ∈ p.lang := by
  unfold Pattern.cappedLang at h
  unfold Pattern.lang
  generalize p.items = items at h
  induction items generalizing u with
  | nil => exact h
  | cons it items ih =>
    rw [List.map_cons, List.prod_cons, Language.mem_mul] at h ⊢
    obtain ⟨v, hv, w, hw, rfl⟩ := h
    obtain ⟨hcount, hchars⟩ := mem_repeated.mp hv
    exact ⟨v, mem_repeated.mpr ⟨cappedCounts_subset it hcount, hchars⟩, w, ih hw, rfl⟩

/-- A match in the content of a line, whose ends are those of `^` and `$`, with no word character on either side -/
def WordIn (p : Pattern) (content : List Byte) (s e : ℕ) : Prop :=
  s ≤ e ∧ e ≤ content.length ∧ cut content s e ∈ p.lang ∧ (p.bol → s = 0) ∧ (p.eol → e = content.length) ∧
    boundariesAreWord content content.length s (e - s) = true

/-- What `-w` selects has such a match, and `-x` selects exactly the words of the language. -/
structure Sound (p : Pattern) (content : List Byte) (terminated : Bool) : Prop where
  word : lineMatchesRegex (lineOf content terminated) content.length false true (.ofPatterns [p.render] false) false =
    some true → ∃ s e, WordIn p content s e
  wholeLine : ∀ wholeWord, lineMatchesRegex (lineOf content terminated) content.length false wholeWord
    (.ofPatterns [p.render] false) true = some true ↔ content ∈ p.lang

/-- A match that is none in the content: a `^` behind its beginning, a `$` before its end, or a newline in it. -/
def Strays (p : Pattern) (content : List Byte) (s e : ℕ) : Prop :=
  (p.bol ∧ 0 < s) ∨ (p.eol ∧ e < content.length) ∨ content.length < e

/-- No word that `-w` comes to strays, or the content has one anyway. Under `-x` a pattern with an anchor is not
to match the content; without one, it matches what the engine sees of the line as it matches the content. -/
structure AnchorsKept (p : Pattern) (content : List Byte) (terminated : Bool) : Prop where
  word : ∀ s e : ℕ, Reaches p (lineOf content terminated) 0 s → LongestAt p (lineOf content terminated) s e →
    boundariesAreWord content content.length s (e - s) = true → Strays p content s e → ∃ s e, WordIn p content s e
  wholeLine : if p.bol = true ∨ p.eol = true then content ∉ p.lang
    else (targetFrom (lineOf content terminated) 0).bytes ∈ p.cappedLang ↔ content ∈ p.lang

/-- A word that grep comes to, and that does not stray, is one in the content. -/
theorem wordIn_of_longestAt {p : Pattern} {content : List Byte} {terminated : Bool} {s e : ℕ}
    (hlong : LongestAt p (lineOf content terminated) s e)
    (hword : boundariesAreWord content content.length s (e - s) = true) (hstray : ¬Strays p content s e) :
    WordIn p content s e := by
  obtain ⟨⟨hse, -, -, hmem, -⟩, -⟩ := hlong
  unfold Strays at hstray
  push Not at hstray
  obtain ⟨hbol, heol, hend⟩ := hstray
  have hcut : cut (lineOf content terminated) s e = cut content s e := by
    unfold cut lineOf
    rw [List.take_append_of_le_length hend]
  rw [hcut] at hmem
  refine ⟨hse, hend, mem_lang_of_cappedLang hmem, fun h => ?_, fun h => ?_, hword⟩
  · exact Nat.le_zero.mp (hbol h)
  · exact le_antisymm hend (heol h)

theorem lineMatchesRegex_picks (p : Pattern) (content : List Byte) (terminated wholeWord wholeLine : Bool) :
    lineMatchesRegex (lineOf content terminated) content.length false wholeWord (.ofPatterns [p.render] false) wholeLine =
        some true ↔ Picks content (lineOf content terminated) wholeWord wholeLine p := by
  obtain ⟨b, hb, hiff⟩ := lineMatchesRegex_eq content terminated wholeWord wholeLine [p]
  rw [List.map_singleton] at hb
  rw [hb, Option.some.injEq, hiff]
  simp

theorem sound_iff (p : Pattern) (content : List Byte) (terminated : Bool) :
    Sound p content terminated ↔ AnchorsKept p content terminated := by
  have hwhole (wholeWord : Bool) : lineMatchesRegex (lineOf content terminated) content.length false wholeWord
      (.ofPatterns [p.render] false) true = some true ↔
        p.bol ≠ true ∧ p.eol ≠ true ∧ (targetFrom (lineOf content terminated) 0).bytes ∈ p.cappedLang :=
    lineMatchesRegex_picks p content terminated wholeWord true
  constructor
  · intro h
    constructor
    · intro s e hreach hlong hword _
      refine h.word ((lineMatchesRegex_picks p content terminated true false).mpr ⟨s, e, hreach, hlong, ?_⟩)
      rw [accepted, Bool.not_true, Bool.false_or]
      exact hword
    · have hiff := (h.wholeLine false).symm.trans (hwhole false)
      split_ifs with hanchor
      · rw [hiff]
        rintro ⟨hbol, heol, -⟩
        exact hanchor.elim hbol heol
      · rw [not_or] at hanchor
        rw [hiff, and_iff_right hanchor.1, and_iff_right hanchor.2]
  · intro h
    constructor
    · intro hselected
      obtain ⟨s, e, hreach, hlong, haccepted⟩ := (lineMatchesRegex_picks p content terminated true false).mp hselected
      rw [accepted, Bool.not_true, Bool.false_or] at haccepted
      by_cases hstray : Strays p content s e
      · exact h.word s e hreach hlong haccepted hstray
      · exact ⟨s, e, wordIn_of_longestAt hlong haccepted hstray⟩
    · intro wholeWord
      have hcases := h.wholeLine
      rw [hwhole]
      split_ifs at hcases with hanchor
      · apply iff_of_false
        · rintro ⟨hbol, heol, -⟩
          exact hanchor.elim hbol heol
        · exact hcases
      · rw [not_or] at hanchor
        rw [and_iff_right hanchor.1, and_iff_right hanchor.2, hcases]

/-! ## Both -/

end ValidcTools.Grep
