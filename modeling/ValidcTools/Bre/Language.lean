import ValidcTools.Bre.Pattern
import ValidcTools.Bre.Search

/-! What `bre_match` accepts on patterns without groups, and which match it reports. -/
namespace ValidcTools.Bre
open Greedy

variable {σ : Type}

/-- A program of repetitions only: its matches are the words of the row, and a success is a
longest one. -/
theorem Prog.run_row (guard : Guard) (R : Recorder σ) {text : CString} {P : Prog} {eol : Bool}
    (htail : P.tail = if eol then .atEnd else .done) {i : ℕ} (hi : i ≤ text.length) (m : σ) :
    (P.run guard R text i m = (.noMatch, m) ∧
      ∀ e, Spans text.bytes P.reps i e → ¬ (eol → e = text.length)) ∨
    ∃ e : ℕ, P.run guard R text i m = (.ok (e - i), m) ∧ Spans text.bytes P.reps i e ∧
      (eol → e = text.length) ∧
      ∀ e', Spans text.bytes P.reps i e' → (eol → e' = text.length) → e' ≤ e := by
  have hend {j : ℕ} (hj : j ≤ text.length) : P.tail.run guard R text j m =
      (if eol → j = text.length then .ok 0 else .noMatch, m) := by
    rw [htail]
    cases eol with
    | false => simp [Prog.run]
    | true => simp [Prog.run, CString.read?_natCast hj, CString.get_eq_zero_iff hj]; split_ifs <;> rfl
  have hfin {j : ℕ} (hj : j ≤ text.length) :
      decide ((P.tail.run guard R text j m).1 ≠ .noMatch) = true ↔ (eol → j = text.length) := by
    rw [hend hj]
    by_cases h : eol → j = text.length
    · rw [if_pos h]
      exact iff_of_true (by simp) h
    · rw [if_neg h]
      exact iff_of_false (by simp) h
  have hquiet (j : ℕ) (hj : j ≤ text.length) (_ : (P.tail.run guard R text j m).1 = .noMatch) :
      (P.tail.run guard R text j m).2 = m := by rw [hend hj]
  rw [Prog.run_eq_greedy hquiet hi]
  cases hg : greedy text.bytes _ P.reps i with
  | none =>
    left
    refine ⟨rfl, fun e hs => ?_⟩
    have hle := hs.le_length hi
    exact fun h => greedy_eq_none.mp hg e hs ((hfin hle).mpr h)
  | some e =>
    right
    obtain ⟨hs, hf⟩ := greedy_sound hg
    have hle := hs.le_length hi
    have hok := (hfin hle).mp hf
    refine ⟨e, ?_, hs, hok, fun e' hs' h' => ?_⟩
    · simp only [resume, hend hle, if_pos hok, Res.map_ok, add_zero]
    · exact greedy_longest hg hs' ((hfin (hs'.le_length hi)).mpr h')

theorem Atom.head?_render {a : Atom} (h : a.WellFormed) (l : List Byte) :
    (a.render ++ l).head? ≠ some (('^' : Char) : Byte) := by
  cases a with
  | literal c => simpa [Atom.render] using (isSpecial_eq_false h).2.2.2.1
  | dot => simp +decide [Atom.render]
  | escape c => simp +decide [Atom.render]
  | cls body => simp +decide [Atom.render]

namespace Pattern

theorem head?_body (p : Pattern) : p.body.head? ≠ some (('^' : Char) : Byte) := by
  unfold body
  cases p.items with
  | nil => cases p.eol <;> decide
  | cons it items =>
    rw [List.flatMap_cons, List.append_assoc, Item.render, List.append_assoc]
    exact Atom.head?_render it.wf _

theorem anchoredStart_eq (pattern : CString) :
    anchoredStart pattern = decide (pattern.bytes.head? = some (('^' : Char) : Byte)) := by
  unfold anchoredStart CString.get CString.length
  cases pattern.bytes with
  | nil => rfl
  | cons c l => simp

theorem anchoredStart_render (p : Pattern) : anchoredStart p.render = p.bol := by
  have hbody := p.head?_body
  rw [anchoredStart_eq]
  cases hb : p.bol with
  | false => simp [render, hb, hbody]
  | true => simp [render, hb]

theorem ofPattern_render (p : Pattern) : Prog.ofPattern p.render = itemsProg p.items p.eol := by
  unfold Prog.ofPattern
  rw [p.anchoredStart_render]
  have hparse := parse_items p.chain p.eol
  cases hb : p.bol with
  | false => simpa [render, hb, body] using hparse
  | true => simpa [render, hb, body] using hparse

end Pattern

/-- A pattern with a required character that no byte is matches nothing. -/
theorem breMatch_blocked (text : CString) {pattern : CString} {r : Rep Byte}
    (hr : r ∈ (Prog.ofPattern pattern).reps) (hlo : 0 < r.lo) (hnone : ∀ b, r.accepts b = false) :
    breMatch text pattern = .noMatch := by
  have hrun {s : ℕ} (hs : s ≤ lastStart text pattern) : (attempt text pattern s).1 = .noMatch := by
    have hle : s ≤ text.length := by
      unfold lastStart at hs
      split_ifs at hs <;> omega
    unfold attempt
    rw [Prog.run_blocked hr hlo hnone hle]
  rcases breMatch_cases text pattern with ⟨hno, -⟩ | ⟨s, hs, -, hne, -⟩
  · exact hno
  · exact absurd (hrun hs) hne

theorem itemsBefore_reps (items : List Item) (P : Prog) :
    (itemsBefore items P).reps = items.map Item.rep ++ P.reps := by
  induction items with
  | nil => rfl
  | cons it items ih => exact congrArg (it.rep :: ·) ih

theorem itemsBefore_tail (items : List Item) (P : Prog) : (itemsBefore items P).tail = P.tail := by
  induction items with
  | nil => rfl
  | cons it items ih => exact ih

theorem itemsProg_reps (items : List Item) (eol : Bool) :
    (itemsProg items eol).reps = items.map Item.rep := by
  rw [itemsProg, itemsBefore_reps]
  cases eol <;> simp [Prog.reps]

theorem itemsProg_tail (items : List Item) (eol : Bool) :
    (itemsProg items eol).tail = if eol then .atEnd else .done := by
  rw [itemsProg, itemsBefore_tail]
  cases eol <;> rfl

namespace Pattern

theorem occurs_iff_spans (p : Pattern) {text : CString} {i j : ℕ} (hi : i ≤ text.length)
    (hbol : p.bol → i = 0) : p.Occurs p.cappedLang text i j ↔
      Spans text.bytes (p.items.map Item.rep) i j ∧ (p.eol → j = text.length) := by
  unfold Occurs
  rw [p.cappedLang_eq]
  constructor
  · rintro ⟨hij, hj, hmem, -, heol⟩
    exact ⟨(spans_iff_mem_prod hij hj).mpr hmem, heol⟩
  · rintro ⟨hs, heol⟩
    have hj := hs.le_length hi
    exact ⟨hs.le, hj, (spans_iff_mem_prod hs.le hj).mp hs, hbol, heol⟩

/-- `bre_match` reports an occurrence exactly when there is one, and then the longest of the
leftmost ones. -/
theorem breMatch_render (p : Pattern) (text : CString) :
    (breMatch text p.render = .noMatch ∧ ∀ i j, ¬ p.Occurs p.cappedLang text i j) ∨
    ∃ i j : ℕ, breMatch text p.render = .ok (({} : BreMatch).finish i (j - i)) ∧
      p.Occurs p.cappedLang text i j ∧
      (∀ i' j', p.Occurs p.cappedLang text i' j' → i ≤ i') ∧
      ∀ j', p.Occurs p.cappedLang text i j' → j' ≤ j := by
  have hrow {s : ℕ} (hs : s ≤ text.length) := Prog.run_row noGuard codeRecorder
    (itemsProg_tail p.items p.eol) hs ({} : BreMatch)
  have hattempt (s : ℕ) : attempt text p.render s =
      (itemsProg p.items p.eol).run noGuard codeRecorder text s {} := by
    unfold attempt
    rw [p.ofPattern_render]
  have hlast : lastStart text p.render = if p.bol then 0 else text.length := by
    unfold lastStart
    rw [p.anchoredStart_render]
  have hstart {i j : ℕ} (h : p.Occurs p.cappedLang text i j) : i ≤ lastStart text p.render := by
    obtain ⟨hij, hj, -, hbol, -⟩ := h
    rw [hlast]
    split_ifs with hb
    · exact (hbol hb).le
    · omega
  have hle : lastStart text p.render ≤ text.length := by
    rw [hlast]
    split_ifs <;> omega
  have hbol {s : ℕ} (hs : s ≤ lastStart text p.render) (hb : p.bol) : s = 0 := by
    rw [hlast, if_pos hb] at hs
    omega
  have hfail {s : ℕ} (hs : s ≤ lastStart text p.render)
      (h : (attempt text p.render s).1 = .noMatch) (j : ℕ) :
      ¬ p.Occurs p.cappedLang text s j := by
    rw [hattempt] at h
    rw [p.occurs_iff_spans (hs.trans hle) (hbol hs), ← itemsProg_reps _ p.eol]
    rcases hrow (hs.trans hle) with ⟨-, hno⟩ | ⟨e, hok, -⟩
    · exact fun ⟨hspan, heol⟩ => hno j hspan heol
    · rw [hok] at h
      cases h
  rcases breMatch_cases text p.render with ⟨hno, hall⟩ | ⟨s, hs, hbefore, hne, heq⟩
  · left
    exact ⟨hno, fun i j h => hfail (hstart h) (hall i (hstart h)) j h⟩
  · right
    rw [hattempt] at hne heq
    rcases hrow (hs.trans hle) with ⟨hno, -⟩ | ⟨e, hok, hspan, heol, hmax⟩
    · rw [hno] at hne
      exact absurd rfl hne
    have hocc (j : ℕ) := p.occurs_iff_spans (hs.trans hle) (hbol hs) (j := j)
    rw [← itemsProg_reps _ p.eol] at hocc
    refine ⟨s, e, ?_, (hocc e).mpr ⟨hspan, heol⟩, fun i j h => ?_, fun j h => ?_⟩
    · rw [heq, hok]
      rfl
    · by_contra hlt
      exact hfail (hstart h) (hbefore i (by omega)) j h
    · obtain ⟨hs', he'⟩ := (hocc j).mp h
      exact hmax j hs' he'

theorem mem_cappedLang_iff (p : Pattern) {u : List Byte} (hu : u.length ≤ 10000) :
    u ∈ p.cappedLang ↔ u ∈ p.lang := by
  refine mem_prod_congr (fun it u hu => ?_) p.items hu
  unfold Item.cappedLang Item.lang Item.cappedCounts Item.counts
  rw [mem_repeated, mem_repeated]
  refine and_congr_left fun _ => ?_
  cases it.quantifier with
  | none => exact Iff.rfl
  | some q => cases q <;> simp [Quantifier.cappedCounts, Quantifier.counts, hu]

theorem occurs_cappedLang_iff (p : Pattern) {text : CString} (h : text.length ≤ 10000) (i j : ℕ) :
    p.Occurs p.cappedLang text i j ↔ p.Occurs p.lang text i j := by
  unfold Occurs
  refine and_congr_right fun hij => and_congr_right fun hj => ?_
  have hlen : (cut text.bytes i j).length ≤ 10000 := by
    rw [length_cut hj]
    omega
  rw [p.mem_cappedLang_iff hlen]

/-- `bre_match` answers `BRE_OK` when a part of the text belongs to `L`, and else `BRE_NOMATCH`. -/
def AcceptsExactly (p : Pattern) (L : Language Byte) (text : CString) : Prop :=
  ((∃ m, breMatch text p.render = .ok m) ↔ ∃ i j, p.Occurs L text i j) ∧
    (breMatch text p.render = .noMatch ↔ ¬ ∃ i j, p.Occurs L text i j)

theorem acceptsExactly_of_occurs {p : Pattern} {L : Language Byte} {text : CString}
    (h : ∀ i j, p.Occurs p.cappedLang text i j ↔ p.Occurs L text i j) : p.AcceptsExactly L text := by
  unfold AcceptsExactly
  simp only [← h]
  rcases p.breMatch_render text with ⟨hno, hnone⟩ | ⟨i, j, hok, hocc, -, -⟩
  · have hnot : ¬ ∃ i j, p.Occurs p.cappedLang text i j := fun ⟨i, j, h⟩ => hnone i j h
    constructor
    · exact iff_of_false (by simp [hno]) hnot
    · exact iff_of_true hno hnot
  · constructor
    · exact iff_of_true ⟨_, hok⟩ ⟨i, j, hocc⟩
    · exact iff_of_false (by simp [hok]) (not_not.mpr ⟨i, j, hocc⟩)

/-- With open quantifiers read as at most 10000 occurrences, acceptance is exact on every text. -/
theorem acceptsExactly_cappedLang (p : Pattern) (text : CString) :
    p.AcceptsExactly p.cappedLang text :=
  acceptsExactly_of_occurs fun _ _ => Iff.rfl

/-- `^a*b` -/
def anchoredStar : Pattern where
  bol := true
  items := [⟨.literal 'a', some .star, by decide⟩, ⟨.literal 'b', none, by decide⟩]
  eol := false
  chain := by simp [Item.follows]
  nulFree := by decide

def asThenB (n : ℕ) : CString where
  bytes := List.replicate n ((('a' : Char) : Byte)) ++ [((('b' : Char) : Byte))]
  nulFree := by
    rw [List.mem_append, List.mem_replicate]
    rintro (⟨-, h⟩ | h) <;> revert h <;> decide

theorem length_asThenB (n : ℕ) : (asThenB n).length = n + 1 := by
  simp [asThenB, CString.length]

theorem mem_anchoredStar (counts : Set ℕ) (u : List Byte) :
    u ∈ repeated {((('a' : Char) : Byte))} counts * (repeated {((('b' : Char) : Byte))} {1} * 1) ↔
      ∃ k ∈ counts, u = List.replicate k ((('a' : Char) : Byte)) ++ [((('b' : Char) : Byte))] := by
  rw [mul_one, Language.mem_mul]
  constructor
  · rintro ⟨v, hv, w, hw, rfl⟩
    obtain ⟨hk, hv⟩ := mem_repeated.mp hv
    obtain ⟨hone, hw⟩ := mem_repeated.mp hw
    obtain ⟨b, rfl⟩ := List.length_eq_one_iff.mp hone
    refine ⟨v.length, hk, ?_⟩
    rw [← List.eq_replicate_of_mem hv, show b = ((('b' : Char) : Byte)) by simpa using hw]
  · rintro ⟨k, hk, rfl⟩
    refine ⟨_, mem_repeated.mpr ⟨?_, ?_⟩, _, mem_repeated.mpr ⟨?_, ?_⟩, rfl⟩
    · simpa using hk
    · exact fun b hb => (List.mem_replicate.mp hb).2
    · rfl
    · simp

theorem occurs_asThenB (n : ℕ) : anchoredStar.Occurs anchoredStar.lang (asThenB n) 0 (n + 1) := by
  have hlen := length_asThenB n
  refine ⟨by omega, hlen.ge, ?_, fun _ => rfl, fun hb => by cases hb⟩
  have hcut : cut (asThenB n).bytes 0 (n + 1) = (asThenB n).bytes := by
    rw [← hlen]
    exact (asThenB n).slice_zero_length
  rw [hcut]
  exact (mem_anchoredStar Set.univ _).mpr ⟨n, trivial, rfl⟩

theorem le_of_occurs_asThenB {n i j : ℕ}
    (h : anchoredStar.Occurs anchoredStar.cappedLang (asThenB n) i j) : n ≤ 10000 := by
  obtain ⟨-, hj, hmem, hbol, -⟩ := h
  obtain rfl := hbol rfl
  obtain ⟨k, hk, hcut⟩ := (mem_anchoredStar (Set.univ ∩ Set.Iic 10000) _).mp hmem
  have hk : k ≤ 10000 := hk.2
  have hlen := congrArg List.length hcut
  rw [length_cut hj] at hlen
  simp only [List.length_append, List.length_replicate, List.length_singleton] at hlen
  -- the last byte of the part is the only `b` of the text
  have hb : (cut (asThenB n).bytes 0 j)[k]? = some ((('b' : Char) : Byte)) := by
    rw [hcut]
    simp
  have hat : (asThenB n).bytes[k]? = some ((('b' : Char) : Byte)) := by
    unfold cut at hb
    rw [List.drop_zero, List.getElem?_take_of_lt (by omega)] at hb
    exact hb
  by_contra hn
  unfold asThenB at hat
  rw [List.getElem?_append_left (by simp; omega), List.getElem?_replicate] at hat
  rw [if_pos (by omega)] at hat
  revert hat
  decide

/-- Longer repetitions than the cap are not accepted. -/
theorem not_acceptsExactly_lang :
    ¬ ∀ (p : Pattern) (text : CString), p.AcceptsExactly p.lang text := by
  intro h
  obtain ⟨m, hm⟩ := (h anchoredStar (asThenB 10001)).1.mpr ⟨0, 10002, occurs_asThenB 10001⟩
  rcases anchoredStar.breMatch_render (asThenB 10001) with ⟨hno, -⟩ | ⟨i, j, -, hij, -, -⟩
  · rw [hno] at hm
    cases hm
  · have := le_of_occurs_asThenB hij
    omega

/-- On texts within the cap the first success is the leftmost longest match. -/
theorem breMatch_leftmost_longest (p : Pattern) (text : CString) (h : text.length ≤ 10000) :
    p.AcceptsExactly p.lang text ∧
      ∀ m, breMatch text p.render = .ok m →
        ∃ i j : ℕ, m.start = i ∧ m.length = j - i ∧ p.Occurs p.lang text i j ∧
          (∀ i' j', p.Occurs p.lang text i' j' → i ≤ i') ∧
          ∀ j', p.Occurs p.lang text i j' → j' ≤ j := by
  have hocc := p.occurs_cappedLang_iff h
  constructor
  · exact acceptsExactly_of_occurs hocc
  · intro m hm
    rcases p.breMatch_render text with ⟨hno, -⟩ | ⟨i, j, hok, hij, hleft, hlong⟩
    · rw [hno] at hm
      cases hm
    · rw [hok] at hm
      obtain rfl := Res.ok.inj hm
      simp only [hocc] at hij hleft hlong
      exact ⟨i, j, rfl, rfl, hij, hleft, hlong⟩

theorem breMatch_leftmost_longest_aab :
    (CString.lit "aab").length ≤ 10000 ∧
      anchoredStar.AcceptsExactly anchoredStar.lang (CString.lit "aab") :=
  ⟨by decide, (breMatch_leftmost_longest anchoredStar (CString.lit "aab") (by decide)).1⟩

end Pattern

end ValidcTools.Bre
