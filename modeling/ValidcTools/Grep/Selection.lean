import ValidcTools.Grep.Match
import ValidcTools.Bre.Language

/-! Which lines `line_matches_regex` selects, in terms of the languages of its patterns. -/
namespace ValidcTools.Grep
open Bre Greedy

/-- The pattern, a leading `^` aside, matches `t` from `s` to `e` in the eyes of the engine, for
which the text ends at a NUL. -/
def SeenAt (p : Pattern) (t : List Byte) (s e : ℕ) : Prop :=
  s ≤ e ∧ e ≤ t.length ∧ (0 : Byte) ∉ cut t s e ∧ cut t s e ∈ p.cappedLang ∧
    (p.eol → t.getD e 0 = 0)

def LongestAt (p : Pattern) (t : List Byte) (s e : ℕ) : Prop :=
  SeenAt p t s e ∧ ∀ e', SeenAt p t s e' → e' ≤ e

/-- A search that starts at `o` gets to `s`: a NUL on the way, and for a pattern with `^` every
position on the way, is passed only over a match there. -/
def Reaches (p : Pattern) (t : List Byte) (o s : ℕ) : Prop :=
  ∀ k, o ≤ k → k < s → (p.bol ∨ t.getD k 0 = 0) → ∃ e, SeenAt p t k e

section View

variable {t : List Byte} {o : ℕ}

theorem length_targetFrom (ho : o ≤ t.length) : o + (targetFrom t o).length ≤ t.length := by
  have h := (List.takeWhile_prefix (p := fun b : Byte => decide (b ≠ 0)) (l := t.drop o)).length_le
  simp only [List.length_drop] at h
  unfold targetFrom CString.length CString.ofBytes
  simp only at h ⊢
  omega

theorem targetFrom_bytes : (targetFrom t o).bytes = (t.drop o).take (targetFrom t o).length := by
  have h := List.takeWhile_prefix (p := fun b : Byte => decide (b ≠ 0)) (l := t.drop o)
  exact List.prefix_iff_eq_take.mp h

theorem cut_targetFrom {i j : ℕ} (hj : j ≤ (targetFrom t o).length) :
    cut (targetFrom t o).bytes i j = cut t (o + i) (o + j) := by
  unfold cut
  rw [targetFrom_bytes, List.take_take, min_eq_left hj, List.take_drop, List.drop_drop]

theorem getD_targetFrom_ne {k : ℕ} (hk : k < (targetFrom t o).length) : t.getD (o + k) 0 ≠ 0 := by
  have hne := CString.get_ne_zero hk
  have hget : (targetFrom t o).get k = t.getD (o + k) 0 := by
    unfold CString.get
    rw [targetFrom_bytes]
    simp [List.getD_eq_getElem?_getD, List.getElem?_take_of_lt hk]
  rwa [hget] at hne

theorem getD_targetFrom_length : t.getD (o + (targetFrom t o).length) 0 = 0 := by
  have h := CString.getD_length_ofBytes (t.drop o)
  simpa [List.getD_eq_getElem?_getD, targetFrom] using h

theorem le_targetFrom_length_iff {k : ℕ} :
    (∀ z, o ≤ z → z < k → t.getD z 0 ≠ 0) ↔ k ≤ o + (targetFrom t o).length := by
  constructor
  · intro h
    by_contra hlt
    exact h (o + (targetFrom t o).length) (by omega) (by omega) getD_targetFrom_length
  · intro h z hz hzk
    have hne := getD_targetFrom_ne (t := t) (o := o) (k := z - o) (by omega)
    rwa [Nat.add_sub_cancel' hz] at hne

theorem zero_notMem_cut {i j : ℕ} (hj : j ≤ t.length) :
    (0 : Byte) ∉ cut t i j ↔ ∀ z, i ≤ z → z < j → t.getD z 0 ≠ 0 := by
  have h := forall_mem_cut (f := fun b : Byte => decide (b ≠ 0)) (i := i) hj
  have hmem : (∀ x ∈ cut t i j, decide (x ≠ 0) = true) ↔ (0 : Byte) ∉ cut t i j := by
    constructor
    · intro hall h0
      simpa using hall 0 h0
    · intro h0 x hx
      simpa using ne_of_mem_of_not_mem hx h0
  rw [← hmem, h]
  refine forall_congr' fun z => forall_congr' fun hz => forall_congr' fun hzj => ?_
  have hzt : z < t.length := by omega
  simp [hits, List.getD_eq_getElem?_getD, List.getElem?_eq_getElem hzt]

/-- Occurrences in the string from `o` on are the matches that are seen with no NUL in between. -/
theorem occurs_targetFrom_iff (p : Pattern) (ho : o ≤ t.length) (i j : ℕ) :
    p.Occurs p.cappedLang (targetFrom t o) i j ↔
      (∀ z, o ≤ z → z < o + i → t.getD z 0 ≠ 0) ∧ SeenAt p t (o + i) (o + j) ∧ (p.bol → i = 0) := by
  have hlen := length_targetFrom ho
  unfold Pattern.Occurs SeenAt
  constructor
  · rintro ⟨hij, hj, hmem, hbol, heol⟩
    rw [cut_targetFrom hj] at hmem
    refine ⟨le_targetFrom_length_iff.mpr (by omega), ⟨by omega, by omega, ?_, hmem, fun he => ?_⟩, hbol⟩
    · rw [zero_notMem_cut (by omega)]
      intro z hz hzj
      exact le_targetFrom_length_iff.mpr (show o + j ≤ o + (targetFrom t o).length by omega) z
        (by omega) hzj
    · rw [heol he]
      exact getD_targetFrom_length
  · rintro ⟨hno, ⟨hij, hj, h0, hmem, heol⟩, hbol⟩
    rw [zero_notMem_cut hj] at h0
    have hjl : o + j ≤ o + (targetFrom t o).length := by
      refine le_targetFrom_length_iff.mp fun z hz hzj => ?_
      by_cases hzi : z < o + i
      · exact hno z hz hzi
      · exact h0 z (by omega) hzj
    refine ⟨by omega, by omega, ?_, hbol, fun he => ?_⟩
    · rw [cut_targetFrom (by omega)]
      exact hmem
    · by_contra hne
      exact getD_targetFrom_ne (t := t) (o := o) (k := j) (by omega) (heol he)

end View

/-- A match that the search can get to makes it find one. -/
theorem exists_occurs_of_reaches {p : Pattern} {t : List Byte} {o s e : ℕ} (ho : o ≤ t.length)
    (hos : o ≤ s) (hr : Reaches p t o s) (hs : SeenAt p t s e) :
    ∃ i j, o + i ≤ s ∧ p.Occurs p.cappedLang (targetFrom t o) i j := by
  by_cases hstop : ∃ z, o ≤ z ∧ z < s ∧ (p.bol ∨ t.getD z 0 = 0)
  · -- the first place that is passed only over a match
    have hz := Nat.find_spec hstop
    have hmin := @Nat.find_min _ _ hstop
    generalize Nat.find hstop = z at hz hmin
    obtain ⟨hoz, hzs, hwhy⟩ := hz
    obtain ⟨e', he'⟩ := hr z hoz hzs hwhy
    have hle := he'.1
    refine ⟨z - o, e' - o, by omega, (occurs_targetFrom_iff p ho _ _).mpr ⟨fun k hk hkz h0 => ?_, ?_, ?_⟩⟩
    · exact hmin (m := k) (by omega) ⟨hk, by omega, Or.inr h0⟩
    · rwa [Nat.add_sub_cancel' hoz, Nat.add_sub_cancel' (hoz.trans hle)]
    · intro hb
      by_contra hne
      exact hmin (m := o) (by omega) ⟨le_rfl, by omega, Or.inl hb⟩
  · push Not at hstop
    have hle := hs.1
    refine ⟨s - o, e - o, by omega, (occurs_targetFrom_iff p ho _ _).mpr ⟨fun k hk hks => ?_, ?_, ?_⟩⟩
    · exact (hstop k hk (by omega)).2
    · rwa [Nat.add_sub_cancel' hos, Nat.add_sub_cancel' (hos.trans hle)]
    · intro hb
      by_contra hne
      exact (hstop o le_rfl (by omega)).1 hb

/-- One step of the search: the engine finds the first match that can be got to, and with that
start the longest. -/
theorem breMatch_targetFrom (p : Pattern) {t : List Byte} {o : ℕ} (ho : o ≤ t.length) :
    (breMatch (targetFrom t o) p.render = .noMatch ∧
      ∀ s e, o ≤ s → Reaches p t o s → ¬ SeenAt p t s e) ∨
    ∃ (s e : ℕ) (m : BreMatch), o ≤ s ∧ breMatch (targetFrom t o) p.render = .ok m ∧ m.start = (s - o : ℕ) ∧
      m.length = e - s ∧ LongestAt p t s e ∧ Reaches p t o s ∧
      ∀ s' e', o ≤ s' → Reaches p t o s' → SeenAt p t s' e' →
        s ≤ s' ∧ (s < s' → Reaches p t (s + 1) s') := by
  rcases p.breMatch_render (targetFrom t o) with ⟨hno, hnone⟩ | ⟨i, j, hok, hocc, hleft, hlong⟩
  · left
    refine ⟨hno, fun s e hos hr hs => ?_⟩
    obtain ⟨i, j, -, hocc⟩ := exists_occurs_of_reaches ho hos hr hs
    exact hnone i j hocc
  · right
    obtain ⟨hfree, hseen, hbol⟩ := (occurs_targetFrom_iff p ho i j).mp hocc
    refine ⟨o + i, o + j, _, by omega, hok, ?_, ?_, ⟨hseen, fun e' he' => ?_⟩, ?_, ?_⟩
    · simp [BreMatch.finish]
    · simp [BreMatch.finish]
    · have hle := he'.1
      have hlonger := hlong (e' - o) ((occurs_targetFrom_iff p ho _ _).mpr
        ⟨hfree, by rwa [Nat.add_sub_cancel' (show o ≤ e' by omega)], hbol⟩)
      omega
    · rintro k hk hki (hb | h0)
      · have := hbol hb
        omega
      · exact absurd h0 (hfree k hk hki)
    · intro s' e' hos hr hs
      constructor
      · obtain ⟨i', j', hle, hocc'⟩ := exists_occurs_of_reaches ho hos hr hs
        have := hleft i' j' hocc'
        omega
      · intro hlt k hk hks
        exact hr k (by omega) hks

theorem reaches_trans {p : Pattern} {t : List Byte} {o s s' e : ℕ} (h : Reaches p t o s)
    (hs : SeenAt p t s e) (h' : Reaches p t (s + 1) s') : Reaches p t o s' := by
  intro k hk hks hwhy
  rcases Nat.lt_trichotomy k s with hlt | rfl | hlt
  · exact h k hk hlt hwhy
  · exact ⟨e, hs⟩
  · exact h' k (by omega) hks hwhy

section Loop

variable {line : List Byte} {llen : ℕ} {wholeWord : Bool}

/-- `!whole_word || boundaries_are_word(...)` -/
def accepted (line : List Byte) (llen : ℕ) (wholeWord : Bool) (start : ℕ) (mlen : ℤ) : Bool :=
  !wholeWord || boundariesAreWord line llen start mlen

theorem accepted_zero {s : ℕ} (h : wholeWord = true) : accepted line llen wholeWord s 0 = false := by
  simp [accepted, boundariesAreWord, h]

/-- The search selects the line when some longest match that it gets to is accepted. -/
theorem regexLoop_eq (line : List Byte) (wholeWord : Bool) (p : Pattern) {t : List Byte} (hlo : llen ≤ t.length) (hhi : t.length ≤ llen + 1)
    (n o : ℕ) (hn : llen < n + o) (ho : o ≤ llen ∨ wholeWord = true) :
    ∃ b, regexLoop line llen wholeWord t p.render n o = some b ∧ (b = true ↔ ∃ s e : ℕ, o ≤ s ∧
      Reaches p t o s ∧ LongestAt p t s e ∧ accepted line llen wholeWord s (e - s)) := by
  have hstop (o : ℕ) (hlt : llen < o) (hw : wholeWord = true) : ¬ ∃ s e : ℕ, o ≤ s ∧
      Reaches p t o s ∧ LongestAt p t s e ∧ accepted line llen wholeWord s (e - s) := by
    rintro ⟨s, e, hos, -, ⟨⟨hse, het, -⟩, -⟩, hacc⟩
    obtain rfl : e = s := by omega
    rw [sub_self, accepted_zero hw] at hacc
    cases hacc
  induction n generalizing o with
  | zero =>
    have hw : wholeWord = true := ho.resolve_left (by omega)
    exact ⟨false, rfl, iff_of_false (by simp) (hstop o (by omega) hw)⟩
  | succ n ih =>
    unfold regexLoop
    by_cases hle : o ≤ llen
    swap
    · rw [if_neg hle]
      exact ⟨false, rfl, iff_of_false (by simp) (hstop o (by omega) (ho.resolve_left hle))⟩
    rw [if_pos hle]
    rcases breMatch_targetFrom p (hle.trans hlo) with
      ⟨hno, hnone⟩ | ⟨s, e, m, hos, hok, hstart, hlen, hlong, hreach, hnext⟩
    · rw [hno]
      refine ⟨false, rfl, iff_of_false (by simp) ?_⟩
      rintro ⟨s, e, hos, hr, hlong, -⟩
      exact hnone s e hos hr hlong.1
    · rw [hok]
      have habs : o + m.start.toNat = s := by omega
      simp only [if_neg (show ¬ m.start < 0 by omega), habs, hlen]
      by_cases hacc : accepted line llen wholeWord s (e - s)
      · rw [if_pos (show (!wholeWord || boundariesAreWord line llen s (e - s)) = true from hacc)]
        exact ⟨true, rfl, iff_of_true rfl ⟨s, e, hos, hreach, hlong, hacc⟩⟩
      · rw [if_neg (show ¬ (!wholeWord || boundariesAreWord line llen s (e - s)) = true from hacc)]
        have hw : wholeWord = true := by
          by_contra hw
          simp [accepted, hw] at hacc
        obtain ⟨b, hb, hiff⟩ := ih (s + 1) (by omega) (Or.inr hw)
        refine ⟨b, hb, hiff.trans ⟨?_, ?_⟩⟩
        · rintro ⟨s', e', hle', hr, hlong', hacc'⟩
          exact ⟨s', e', by omega, reaches_trans hreach hlong.1 hr, hlong', hacc'⟩
        · rintro ⟨s', e', hos', hr, hlong', hacc'⟩
          obtain ⟨hss, hr'⟩ := hnext s' e' hos' hr hlong'.1
          rcases hss.eq_or_lt with rfl | hlt
          · have hee : e' = e := le_antisymm (hlong.2 e' hlong'.1) (hlong'.2 e hlong.1)
            exact absurd (hee ▸ hacc') hacc
          · exact ⟨s', e', hlt, hr' hlt, hlong', hacc'⟩

end Loop

section WholeLine

theorem isSpecial_never {c : Byte} (h : isSpecial c = true) (b : Byte) :
    (Atom.literal c).accepts b = false := by
  simp [Atom.accepts, h]

/-- A `^` inside a pattern is a character that never matches. -/
theorem parse_caret {items : List Item} (h : items.IsChain Item.follows) {l : List Byte}
    (hl : NoQuantifier l) :
    ∃ max rest, Prog.parse ((((('^' : Char) : Byte))) :: (items.flatMap Item.render ++ l)) =
      .one (.literal '^') 1 max rest := by
  have hhead (l : List Byte) : head ((((('^' : Char) : Byte))) :: l) = atomHead (.literal '^') l := by
    simp +decide [head]
  rw [Prog.parse_eq, hhead]
  cases items with
  | nil =>
    refine ⟨1, Prog.parse l, ?_⟩
    rw [List.flatMap_nil, List.nil_append, atomHead, show quantifier l = .noMatch from hl]
    rfl
  | cons it items =>
    by_cases hplus : it.atom = .escape '+'
    · refine ⟨-1, Prog.parse (it.quantifier.elim [] Quantifier.render ++
        (items.flatMap Item.render ++ l)), ?_⟩
      have hq := quantifier_render .plus
        (it.quantifier.elim [] Quantifier.render ++ (items.flatMap Item.render ++ l))
      rw [List.flatMap_cons, List.append_assoc, Item.render, List.append_assoc, hplus, atomHead]
      rw [show Atom.render (.escape '+') = Quantifier.render .plus from rfl, hq]
      rfl
    · refine ⟨1, Prog.parse ((it :: items).flatMap Item.render ++ l), ?_⟩
      have hq := it.noQuantifier hplus (items.flatMap Item.render ++ l)
      rw [List.flatMap_cons, List.append_assoc, atomHead, hq]
      rfl

theorem parse_dollars : Prog.parse (['$', '$'] : List Byte) = .one (.literal '$') 1 1 .atEnd := by
  have htwo : head (['$', '$'] : List Byte) = .one (.literal '$') 1 1 ['$'] := rfl
  have hone : head (['$'] : List Byte) = .atEnd := rfl
  rw [Prog.parse_eq, htwo]
  simp only [Head.prog]
  rw [Prog.parse_eq, hone]
  rfl

theorem ofPattern_wrapPattern (pat : CString) :
    Prog.ofPattern (wrapPattern pat) = Prog.parse (pat.bytes ++ (['$'] : List Byte)) := by
  unfold Prog.ofPattern
  rw [Pattern.anchoredStart_eq, if_pos (by simp [wrapPattern])]
  simp [wrapPattern]

theorem wholeLineMatch_eq (p : Pattern) (t : List Byte) :
    ∃ b, wholeLineMatch t p.render = some b ∧
      (b = true ↔ ¬ p.bol ∧ ¬ p.eol ∧ (targetFrom t 0).bytes ∈ p.cappedLang) := by
  have hdollar : NoQuantifier (['$'] : List Byte) := noQuantifier_end true
  unfold wholeLineMatch
  cases hbol : p.bol with
  | true =>
    have hnoq : NoQuantifier ((if p.eol then (['$'] : List Byte) else []) ++ (['$'] : List Byte)) := by
      cases p.eol <;> decide
    obtain ⟨max, rest, hparse⟩ := parse_caret p.chain hnoq
    have hprog : Prog.ofPattern (wrapPattern p.render) = .one (.literal '^') 1 max rest := by
      rw [ofPattern_wrapPattern, ← hparse]
      simp [Pattern.render, Pattern.body, hbol]
    have hmem : ⟨(Atom.literal '^').accepts, 1, maxPossible max⟩ ∈
        (Prog.ofPattern (wrapPattern p.render)).reps := by
      rw [hprog]
      exact List.mem_cons_self
    rw [breMatch_blocked (targetFrom t 0) hmem Nat.one_pos (isSpecial_never (c := '^') (by decide))]
    exact ⟨false, rfl, iff_of_false (by simp) fun h => h.1 rfl⟩
  | false =>
    cases heol : p.eol with
    | true =>
      have hprog : Prog.ofPattern (wrapPattern p.render) =
          itemsBefore p.items (.one (.literal '$') 1 1 .atEnd) := by
        have hnoq : NoQuantifier (['$', '$'] : List Byte) := by decide
        rw [ofPattern_wrapPattern, ← parse_dollars, ← parse_items_append p.chain hnoq]
        simp [Pattern.render, Pattern.body, hbol, heol]
      have hmem : ⟨(Atom.literal '$').accepts, 1, maxPossible 1⟩ ∈
          (Prog.ofPattern (wrapPattern p.render)).reps := by
        rw [hprog, itemsBefore_reps]
        exact List.mem_append_right _ List.mem_cons_self
      rw [breMatch_blocked (targetFrom t 0) hmem Nat.one_pos
        (isSpecial_never (c := '$') (by decide))]
      exact ⟨false, rfl, iff_of_false (by simp) fun h => h.2.1 rfl⟩
    | false =>
      have hwrap : wrapPattern p.render = ({ p with bol := true, eol := true } : Pattern).render := by
        ext1
        simp [wrapPattern, Pattern.render, Pattern.body, hbol, heol]
      have hocc (i j : ℕ) : ({ p with bol := true, eol := true } : Pattern).Occurs
          ({ p with bol := true, eol := true } : Pattern).cappedLang (targetFrom t 0) i j →
          (targetFrom t 0).bytes ∈ p.cappedLang := by
        rintro ⟨-, -, hmem, hi, hj⟩
        rw [hi rfl, hj rfl] at hmem
        rwa [show cut (targetFrom t 0).bytes 0 (targetFrom t 0).length = (targetFrom t 0).bytes
          from (targetFrom t 0).slice_zero_length] at hmem
      rw [hwrap]
      rcases Pattern.breMatch_render { p with bol := true, eol := true } (targetFrom t 0) with
        ⟨hno, hnone⟩ | ⟨i, j, hok, hij, -, -⟩
      · rw [hno]
        refine ⟨false, rfl, iff_of_false (by simp) ?_⟩
        rintro ⟨-, -, hmem⟩
        refine hnone 0 (targetFrom t 0).length ⟨by omega, le_rfl, ?_, fun _ => rfl, fun _ => rfl⟩
        rwa [show cut (targetFrom t 0).bytes 0 (targetFrom t 0).length = (targetFrom t 0).bytes
          from (targetFrom t 0).slice_zero_length]
      · rw [hok]
        exact ⟨true, rfl, iff_of_true rfl ⟨by simp, by simp, hocc i j hij⟩⟩

end WholeLine

end ValidcTools.Grep
