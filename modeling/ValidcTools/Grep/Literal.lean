import ValidcTools.Grep.LineEnd

/-! Fixed strings: when `line_matches_literal` and `line_matches_regex` select the same lines. -/
namespace ValidcTools.Grep
open Bre Greedy

/-- A string without any of the characters that are special in a BRE. -/
structure Literal where
  string : CString
  plain : ∀ b ∈ string.bytes, ¬ isSpecial b

namespace Literal

def items : (l : List Byte) → (∀ b ∈ l, ¬ isSpecial b) → List Item
  | [], _ => []
  | b :: l, h => ⟨.literal b, none, h b List.mem_cons_self⟩ ::
      items l fun c hc => h c (List.mem_cons_of_mem b hc)

theorem items_render (l : List Byte) (h : ∀ b ∈ l, ¬ isSpecial b) :
    (items l h).flatMap Item.render = l := by
  induction l with
  | nil => rfl
  | cons b l ih => exact congrArg (b :: ·) (ih _)

theorem items_chain (l : List Byte) (h : ∀ b ∈ l, ¬ isSpecial b) :
    (items l h).IsChain Item.follows := by
  induction l with
  | nil => exact List.IsChain.nil
  | cons b l ih =>
    cases l with
    | nil => exact List.IsChain.singleton _
    | cons c l =>
      have hfollows : Item.follows ⟨.literal b, none, h b List.mem_cons_self⟩
          ⟨.literal c, none, h c (by simp)⟩ := fun _ hplus => by cases hplus
      exact List.isChain_cons_cons.mpr
        ⟨hfollows, ih fun d hd => h d (List.mem_cons_of_mem b hd)⟩

theorem mem_items_prod (l : List Byte) (h : ∀ b ∈ l, ¬ isSpecial b) (u : List Byte) :
    u ∈ ((items l h).map Item.cappedLang).prod ↔ u = l := by
  induction l generalizing u with
  | nil => exact Language.mem_one u
  | cons b l ih =>
    have hone (v : List Byte) : v ∈ repeated ({b} : Set Byte) {1} ↔ v = [b] := by
      rw [mem_repeated]
      constructor
      · rintro ⟨hlen, hall⟩
        obtain ⟨c, rfl⟩ := List.length_eq_one_iff.mp hlen
        rw [show c = b by simpa using hall]
      · rintro rfl
        simp
    rw [items, List.map_cons, List.prod_cons, Language.mem_mul]
    constructor
    · rintro ⟨v, hv, w, hw, rfl⟩
      rw [(hone v).mp hv, (ih _ w).mp hw]
      rfl
    · rintro rfl
      exact ⟨[b], (hone _).mpr rfl, l, (ih _ l).mpr rfl, rfl⟩

/-- A literal as a pattern: a row of ordinary characters. -/
def pattern (l : Literal) : Pattern where
  bol := false
  items := items l.string.bytes l.plain
  eol := false
  chain := items_chain _ _
  nulFree := by
    rw [items_render]
    exact l.string.nulFree

theorem render_pattern (l : Literal) : l.pattern.render = l.string := by
  ext1
  simp [Pattern.render, Pattern.body, pattern, items_render]

theorem mem_cappedLang (l : Literal) (u : List Byte) :
    u ∈ l.pattern.cappedLang ↔ u = l.string.bytes :=
  mem_items_prod _ _ u

theorem isSpecial_toLower (b : Byte) : isSpecial (toLower b) = isSpecial b := by
  unfold toLower
  split_ifs with h
  · obtain ⟨hlo, hhi⟩ := h
    have hlo : 65 ≤ b.toNat := hlo
    have hhi : b.toNat ≤ 90 := hhi
    have hsum : (b + 32).toNat = b.toNat + 32 := by
      rw [UInt8.toNat_add]
      have h32 : (32 : UInt8).toNat = 32 := rfl
      omega
    have hne (c d : Byte) (hd : d.toNat < 65 ∨ 122 < d.toNat ∨ (90 < d.toNat ∧ d.toNat < 97))
        (hc : 65 ≤ c.toNat ∧ c.toNat ≤ 90 ∨ 97 ≤ c.toNat ∧ c.toNat ≤ 122) : c ≠ d := by
      rintro rfl
      omega
    have hupper : 65 ≤ b.toNat ∧ b.toNat ≤ 90 ∨ 97 ≤ b.toNat ∧ b.toNat ≤ 122 := by omega
    have hlower : 65 ≤ (b + 32).toNat ∧ (b + 32).toNat ≤ 90 ∨
        97 ≤ (b + 32).toNat ∧ (b + 32).toNat ≤ 122 := by omega
    simp only [isSpecial]
    rw [decide_eq_false, decide_eq_false]
    · simp only [not_or]
      refine ⟨hne _ _ ?_ hupper, hne _ _ ?_ hupper, hne _ _ ?_ hupper, hne _ _ ?_ hupper,
        hne _ _ ?_ hupper, hne _ _ ?_ hupper⟩ <;> decide
    · simp only [not_or]
      refine ⟨hne _ _ ?_ hlower, hne _ _ ?_ hlower, hne _ _ ?_ hlower, hne _ _ ?_ hlower,
        hne _ _ ?_ hlower, hne _ _ ?_ hlower⟩ <;> decide
  · rfl

def lower (l : Literal) : Literal where
  string := tolowerDup l.string
  plain b hb := by
    obtain ⟨c, hc, rfl⟩ := List.mem_map.mp hb
    rw [isSpecial_toLower]
    exact l.plain c hc

end Literal

/-- Letters are compared up to their case under `-i`. -/
def fold (icase : Bool) (l : List Byte) : List Byte := if icase then l.map toLower else l

theorem fold_cut (icase : Bool) (l : List Byte) (i j : ℕ) :
    fold icase (cut l i j) = cut (fold icase l) i j := by
  unfold fold cut
  split_ifs
  · rw [List.map_drop, List.map_take]
  · rfl

@[simp] theorem length_fold (icase : Bool) (l : List Byte) : (fold icase l).length = l.length := by
  unfold fold
  split_ifs <;> simp

theorem literalEqCase_iff (a b : List Byte) (icase : Bool) :
    literalEqCase a b icase ↔ fold icase a = fold icase b := by
  unfold literalEqCase
  by_cases hlen : a.length = b.length
  swap
  · have hne : fold icase a ≠ fold icase b := fun h => hlen (by simpa using congrArg List.length h)
    simp [hlen, hne]
  rw [if_neg (not_not.mpr hlen)]
  cases icase with
  | false => simp [fold]
  | true =>
    simp only [if_true, fold]
    induction a generalizing b with
    | nil =>
      obtain rfl := List.length_eq_zero_iff.mp hlen.symm
      simp
    | cons x a ih =>
      cases b with
      | nil => cases hlen
      | cons y b =>
        have ih := ih b (by simpa using hlen)
        simp only [List.zip_cons_cons, List.all_cons, Bool.and_eq_true, decide_eq_true_eq,
          List.map_cons, List.cons.injEq, ih]

/-- `pat` stands in `v`: as the whole of it under `-x`, else at a place accepted in `content`. -/
def Contains (content : List Byte) (wholeWord wholeLine : Bool) (v pat : List Byte) : Prop :=
  if wholeLine then v = pat
  else ∃ s : ℕ, s + pat.length ≤ v.length ∧ cut v s (s + pat.length) = pat ∧
    accepted content content.length wholeWord s pat.length

section Search

variable {content : List Byte} {terminated icase wholeWord : Bool} {pat : CString}

/-- The pattern stands at `s`, up to case under `-i`. -/
def StandsAt (content : List Byte) (icase : Bool) (pat : CString) (s : ℕ) : Prop :=
  s + pat.length ≤ content.length ∧
    cut (fold icase content) s (s + pat.length) = fold icase pat.bytes

theorem literalEqCase_cut {s : ℕ} (hs : s + pat.length ≤ content.length) :
    literalEqCase (((lineOf content terminated).drop s).take pat.length) pat.bytes icase ↔
      StandsAt content icase pat s := by
  have hcut : ((lineOf content terminated).drop s).take pat.length =
      cut content s (s + pat.length) := by
    unfold cut lineOf
    rw [List.take_drop, List.take_append_of_le_length hs]
  rw [hcut, literalEqCase_iff, fold_cut]
  exact ⟨fun h => ⟨hs, h⟩, fun h => h.2⟩

theorem literalFindNext_none {start : ℕ}
    (h : literalFindNext (lineOf content terminated) content.length pat start icase = none) :
    ∀ s, start ≤ s → ¬ StandsAt content icase pat s := by
  intro s hs hat
  have hfit := hat.1
  unfold literalFindNext at h
  by_cases hempty : pat.length = 0
  · rw [if_pos hempty, if_pos (by omega)] at h
    cases h
  · rw [if_neg hempty, if_neg (by omega), List.find?_range'_eq_none] at h
    have hno := h s hs (by omega)
    rw [(literalEqCase_cut hfit).mpr hat] at hno
    cases hno

theorem literalFindNext_some {start s : ℕ}
    (h : literalFindNext (lineOf content terminated) content.length pat start icase = some s) :
    start ≤ s ∧ StandsAt content icase pat s ∧
      ∀ k, start ≤ k → k < s → ¬ StandsAt content icase pat k := by
  unfold literalFindNext at h
  by_cases hempty : pat.length = 0
  · rw [if_pos hempty] at h
    split_ifs at h with hle
    obtain rfl := Option.some.inj h
    have hnil : pat.bytes = [] := List.length_eq_zero_iff.mp hempty
    refine ⟨le_rfl, ⟨by omega, ?_⟩, fun k hk hks => by omega⟩
    rw [hempty, add_zero, hnil]
    have hcut : (cut (fold icase content) start start).length = 0 := by
      rw [length_cut (by simpa using hle)]
      omega
    rw [List.length_eq_zero_iff.mp hcut]
    simp [fold]
  · rw [if_neg hempty] at h
    split_ifs at h with hlong
    obtain ⟨hp, hmem, hmin⟩ := List.find?_range'_eq_some.mp h
    obtain ⟨hlo, hhi⟩ := List.mem_range'_1.mp hmem
    have hfit : s + pat.length ≤ content.length := by omega
    refine ⟨hlo, (literalEqCase_cut hfit).mp hp, fun k hk hks hat => ?_⟩
    have hno := hmin k hk hks
    rw [(literalEqCase_cut hat.1).mpr hat] at hno
    cases hno

theorem literalLoop_iff (n pos : ℕ) (hn : content.length < n + pos) :
    literalLoop (lineOf content terminated) content.length icase wholeWord pat n pos ↔
      ∃ s, pos ≤ s ∧ StandsAt content icase pat s ∧
        accepted content content.length wholeWord s pat.length := by
  induction n generalizing pos with
  | zero =>
    refine iff_of_false (by simp [literalLoop]) ?_
    rintro ⟨s, hs, hat, -⟩
    have := hat.1
    omega
  | succ n ih =>
    unfold literalLoop
    by_cases hpos : pos ≤ content.length
    swap
    · rw [if_neg hpos]
      refine iff_of_false (by simp) ?_
      rintro ⟨s, hs, hat, -⟩
      have := hat.1
      omega
    rw [if_pos hpos]
    cases hf : literalFindNext (lineOf content terminated) content.length pat pos icase with
    | none =>
      refine iff_of_false (by simp) ?_
      rintro ⟨s, hs, hat, -⟩
      exact literalFindNext_none hf s hs hat
    | some s =>
      obtain ⟨hle, hat, hmin⟩ := literalFindNext_some hf
      have hfit := hat.1
      simp only [boundariesAreWord_lineOf content terminated (show s ≤ content.length by omega)]
      by_cases hacc : accepted content content.length wholeWord s pat.length
      · rw [if_pos (show (!wholeWord || boundariesAreWord content content.length s pat.length) = true
          from hacc)]
        exact iff_of_true rfl ⟨s, hle, hat, hacc⟩
      · rw [if_neg (show ¬ (!wholeWord || boundariesAreWord content content.length s pat.length) = true
          from hacc), ih (s + 1) (by omega)]
        constructor
        · rintro ⟨s', hs', hat', hacc'⟩
          exact ⟨s', by omega, hat', hacc'⟩
        · rintro ⟨s', hs', hat', hacc'⟩
          refine ⟨s', ?_, hat', hacc'⟩
          by_contra hlt
          rcases (show s' ≤ s by omega).eq_or_lt with rfl | hlt'
          · exact hacc hacc'
          · exact hmin s' hs' hlt' hat'

end Search

/-- `-F` selects a line when its content contains a pattern. -/
theorem lineMatchesLiteral_iff (content : List Byte) (terminated icase wholeWord wholeLine : Bool)
    (patterns : List CString) :
    lineMatchesLiteral (lineOf content terminated) content.length icase wholeWord patterns wholeLine ↔
      ∃ pat ∈ patterns,
        Contains content wholeWord wholeLine (fold icase content) (fold icase pat.bytes) := by
  have htake : (lineOf content terminated).take content.length = content := by simp [lineOf]
  unfold lineMatchesLiteral Contains
  rw [List.any_eq_true]
  refine exists_congr fun pat => and_congr_right fun _ => ?_
  cases wholeLine with
  | true => simp only [if_true, htake, literalEqCase_iff]
  | false =>
    simp only [Bool.false_eq_true, if_false, length_fold]
    rw [literalLoop_iff _ _ (by omega)]
    unfold StandsAt
    constructor
    · rintro ⟨s, -, ⟨hfit, hat⟩, hacc⟩
      exact ⟨s, hfit, hat, hacc⟩
    · rintro ⟨s, hfit, hat, hacc⟩
      exact ⟨s, by omega, ⟨hfit, hat⟩, hacc⟩

theorem seenAt_literal (l : Literal) (t : List Byte) (s e : ℕ) :
    SeenAt l.pattern t s e ↔
      e = s + l.string.length ∧ e ≤ t.length ∧ cut t s e = l.string.bytes := by
  unfold SeenAt
  rw [l.mem_cappedLang]
  constructor
  · rintro ⟨hse, het, -, hcut, -⟩
    have hlen := congrArg List.length hcut
    rw [length_cut het] at hlen
    refine ⟨?_, het, hcut⟩
    simp only [CString.length]
    omega
  · rintro ⟨rfl, het, hcut⟩
    refine ⟨by omega, het, ?_, hcut, fun h => by cases h⟩
    rw [hcut]
    exact l.string.nulFree

/-- A literal in regex mode: it has to stand in what the engine sees. -/
theorem picks_literal (l : Literal) (content t : List Byte) (wholeWord wholeLine : Bool) :
    Picks content t wholeWord wholeLine l.pattern ↔
      Contains content wholeWord wholeLine (targetFrom t 0).bytes l.string.bytes := by
  have hv := length_targetFrom (t := t) (o := 0) (by omega)
  rw [zero_add] at hv
  unfold Picks Contains
  cases wholeLine with
  | true =>
    simp only [if_true, l.mem_cappedLang]
    exact ⟨fun h => h.2.2, fun h => ⟨Bool.false_ne_true, Bool.false_ne_true, h⟩⟩
  | false =>
    simp only [Bool.false_eq_true, if_false]
    constructor
    · rintro ⟨s, e, hr, ⟨hseen, -⟩, hacc⟩
      obtain ⟨rfl, het, hcut⟩ := (seenAt_literal l t s e).mp hseen
      have hn : (((s + l.string.length : ℕ) : ℤ) - s) = (l.string.bytes.length : ℕ) := by
        simp only [CString.length]
        omega
      rw [hn] at hacc
      by_cases hempty : l.string.bytes = []
      · cases wholeWord with
        | true =>
          rw [hempty, List.length_nil, Nat.cast_zero, accepted_zero rfl] at hacc
          cases hacc
        | false => exact ⟨0, by simp [hempty], by simp [hempty, cut], rfl⟩
      · have hpos : 0 < l.string.length := List.length_pos_iff.mpr hempty
        have hfree {k : ℕ} (hk : k < s + l.string.length) : t.getD k 0 ≠ 0 := by
          intro h0
          have hno {k' e' : ℕ} (h : SeenAt l.pattern t k' e') (hkk : k' ≤ k) (hke : k < e') : False :=
            (zero_notMem_cut h.2.1).mp h.2.2.1 k hkk hke h0
          by_cases hks : k < s
          · obtain ⟨e', he'⟩ := hr k (by omega) hks (Or.inr h0)
            exact hno he' le_rfl (by rw [((seenAt_literal l t k e').mp he').1]; omega)
          · exact hno hseen (by omega) hk
        have hle : s + l.string.length ≤ (targetFrom t 0).length := by
          have h := (le_targetFrom_length_iff (t := t) (o := 0) (k := s + l.string.length)).mp
            fun z _ hz => hfree hz
          omega
        refine ⟨s, hle, ?_, hacc⟩
        have hsame := cut_targetFrom (t := t) (o := 0) (i := s) hle
        rw [zero_add, zero_add] at hsame
        exact hsame.trans hcut
    · rintro ⟨s, hle, hcut, hacc⟩
      have hlen : l.string.bytes.length = l.string.length := rfl
      rw [cut_targetFrom hle, zero_add, zero_add] at hcut
      have hfree : ∀ z, 0 ≤ z → z < s → t.getD z 0 ≠ 0 :=
        le_targetFrom_length_iff.mpr (by simp only [CString.length] at hle ⊢; omega)
      refine ⟨s, s + l.string.length, ?_, ⟨(seenAt_literal l t _ _).mpr ⟨rfl, ?_, hcut⟩, ?_⟩, ?_⟩
      · rintro k hk hks (hb | h0)
        · cases hb
        · exact absurd h0 (hfree k hk hks)
      · simp only [CString.length] at hle hv ⊢
        omega
      · intro e' he'
        exact ((seenAt_literal l t s e').mp he').1.le
      · rw [show (((s + l.string.length : ℕ) : ℤ) - s) = (l.string.bytes.length : ℕ) by
          simp only [CString.length]; omega]
        exact hacc

/-- What the engine sees of a line: the content up to its first NUL, under `-i` in lower case; and
without `-i`, if there is no NUL, the newline as well. -/
def seen (content : List Byte) (terminated icase : Bool) : List Byte :=
  (targetFrom (targetLine (lineOf content terminated) content.length icase) 0).bytes

theorem lineMatchesRegex_literal (content : List Byte) (terminated icase wholeWord wholeLine : Bool)
    (ls : List Literal) :
    ∃ b, lineMatchesRegex (lineOf content terminated) content.length icase wholeWord
        (.ofPatterns (ls.map Literal.string) icase) wholeLine = some b ∧
      (b = true ↔ ∃ l ∈ ls, Contains content wholeWord wholeLine (seen content terminated icase)
        (fold icase l.string.bytes)) := by
  have htake : (lineOf content terminated).take content.length = content := by simp [lineOf]
  obtain ⟨hlo, hhi⟩ := length_lineOf content terminated
  unfold lineMatchesRegex seen
  cases icase with
  | false =>
    have hraw : ls.map Literal.string = (ls.map Literal.pattern).map Pattern.render := by
      rw [List.map_map]
      exact List.map_congr_left fun l _ => l.render_pattern.symm
    obtain ⟨b, hb, hiff⟩ := patterns_eq content terminated wholeWord wholeLine hlo hhi
      (ls.map Literal.pattern)
    rw [← hraw] at hb
    refine ⟨b, hb, hiff.trans ?_⟩
    simp [targetLine, fold, picks_literal]
  | true =>
    have hlower : (ls.map Literal.string).map tolowerDup =
        ((ls.map Literal.lower).map Literal.pattern).map Pattern.render := by
      simp only [List.map_map]
      exact List.map_congr_left fun l _ => l.lower.render_pattern.symm
    obtain ⟨b, hb, hiff⟩ := patterns_eq content terminated wholeWord wholeLine
      (t := content.map toLower) (by simp) (by simp) ((ls.map Literal.lower).map Literal.pattern)
    rw [← hlower] at hb
    refine ⟨b, ?_, hiff.trans ?_⟩
    · simp only [targetLine, if_true, htake]
      exact hb
    · simp [targetLine, htake, fold, picks_literal, Literal.lower, tolowerDup]

/-- `-F` and regex mode give the same answer on a line. -/
def ModesAgree (content : List Byte) (terminated : Bool) (patterns : List CString)
    (icase wholeWord wholeLine : Bool) : Prop :=
  lineMatchesRegex (lineOf content terminated) content.length icase wholeWord
      (.ofPatterns patterns icase) wholeLine =
    some (lineMatchesLiteral (lineOf content terminated) content.length icase wholeWord patterns
      wholeLine)

/-- The modes agree exactly when the content and what the engine sees of it contain the patterns
alike. -/
theorem modesAgree_iff (content : List Byte) (terminated icase wholeWord wholeLine : Bool)
    (ls : List Literal) :
    ModesAgree content terminated (ls.map Literal.string) icase wholeWord wholeLine ↔
      ((∃ l ∈ ls, Contains content wholeWord wholeLine (fold icase content)
          (fold icase l.string.bytes)) ↔
        ∃ l ∈ ls, Contains content wholeWord wholeLine (seen content terminated icase)
          (fold icase l.string.bytes)) := by
  obtain ⟨b, hb, hiff⟩ := lineMatchesRegex_literal content terminated icase wholeWord wholeLine ls
  have hlit := lineMatchesLiteral_iff content terminated icase wholeWord wholeLine
    (ls.map Literal.string)
  unfold ModesAgree
  rw [hb, Option.some.injEq, ← hiff, Bool.eq_iff_iff, hlit]
  simp only [List.mem_map, exists_exists_and_eq_and]
  exact ⟨fun h => h.symm, fun h => h.symm⟩

/-- Without NULs in the content, only an unread newline can make a difference. -/
theorem modesAgree_of_no_newline {content : List Byte} (h0 : (0 : Byte) ∉ content)
    {terminated icase : Bool} (h : icase = true ∨ terminated = false) (wholeWord wholeLine : Bool)
    (ls : List Literal) :
    ModesAgree content terminated (ls.map Literal.string) icase wholeWord wholeLine := by
  have htarget : targetLine (lineOf content terminated) content.length icase = fold icase content := by
    rcases h with rfl | rfl
    · simp [targetLine, fold, lineOf]
    · cases icase <;> simp [targetLine, fold, lineOf]
  have hfree : (0 : Byte) ∉ fold icase content := by
    unfold fold
    split_ifs
    · intro hmem
      obtain ⟨b, hb, hb0⟩ := List.mem_map.mp hmem
      exact toLower_ne_zero (ne_of_mem_of_not_mem hb h0) hb0
    · exact h0
  have hseen : seen content terminated icase = fold icase content := by
    unfold seen
    rw [htarget]
    exact CString.ofBytes_bytes_of_nulFree (by simpa using hfree)
  obtain ⟨b, hb, hiff⟩ := lineMatchesRegex_literal content terminated icase wholeWord wholeLine ls
  have hlit := lineMatchesLiteral_iff content terminated icase wholeWord wholeLine
    (ls.map Literal.string)
  simp only [List.mem_map, exists_exists_and_eq_and] at hlit
  unfold ModesAgree
  rw [hb, Option.some.injEq, Bool.eq_iff_iff, hiff, hlit, hseen]

set_option maxRecDepth 8192 in
theorem not_modesAgree : ¬ ∀ content terminated (ls : List Literal) icase wholeWord wholeLine,
    ModesAgree content terminated (ls.map Literal.string) icase wholeWord wholeLine := by
  intro h
  have hx := h (CString.lit "a").bytes true [⟨CString.lit "a", by decide⟩] false false true
  revert hx
  unfold ModesAgree
  decide

end ValidcTools.Grep
