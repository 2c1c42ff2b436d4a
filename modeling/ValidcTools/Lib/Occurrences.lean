import Mathlib

/-! Occurrences of a word in a text, chosen from left to right without overlap. -/
namespace Occurrences

variable {α : Type} {x l : List α}

/-- `pres` stands before the occurrences, each behind the one before it, and `last` behind the last. -/
inductive Chosen (x : List α) : List α → List (List α) → List α → Prop
  | rest (l : List α) : Chosen x l [] l
  | next {pre rest last : List α} {pres : List (List α)} : (∀ n < pre.length, ¬x <+: (pre ++ x ++ rest).drop n) →
      Chosen x rest pres last → Chosen x (pre ++ x ++ rest) (pre :: pres) last

/-- The first `k` of them, or all when there are no more. -/
def FirstN (k : ℕ∞) (x l : List α) (pres : List (List α)) (last : List α) : Prop :=
  Chosen x l pres last ∧ (pres.length = k ∨ (pres.length < k ∧ ¬x <:+: last))

/-- The text with another word in their place -/
def replaced (y : List α) (pres : List (List α)) (last : List α) : List α := pres.flatMap (· ++ y) ++ last

@[simp] theorem replaced_nil (y last : List α) : replaced y [] last = last := rfl

@[simp] theorem replaced_cons (y pre last : List α) (pres : List (List α)) :
    replaced y (pre :: pres) last = pre ++ y ++ replaced y pres last := by
  unfold replaced
  rw [List.flatMap_cons, List.append_assoc]

theorem firstN_nil_iff (k : ℕ∞) (last : List α) :
    FirstN k x l [] last ↔ last = l ∧ (k = 0 ∨ ¬x <:+: l) := by
  constructor
  · rintro ⟨h, hk⟩
    cases h
    refine ⟨rfl, hk.imp (fun h => ?_) And.right⟩
    simpa using h.symm
  · rintro ⟨rfl, hk⟩
    refine ⟨.rest last, ?_⟩
    by_cases h0 : k = 0
    · exact Or.inl (by simp [h0])
    · exact Or.inr ⟨by simpa using pos_iff_ne_zero.mpr h0, hk.resolve_left h0⟩

theorem firstN_cons_iff (k : ℕ∞) (pre last : List α) (pres : List (List α)) :
    FirstN (k + 1) x l (pre :: pres) last ↔ ∃ rest, l = pre ++ x ++ rest ∧
      (∀ n < pre.length, ¬x <+: (pre ++ x ++ rest).drop n) ∧ FirstN k x rest pres last := by
  have hcount : (((pre :: pres).length : ℕ∞) = k + 1 ↔ (pres.length : ℕ∞) = k) ∧
      (((pre :: pres).length : ℕ∞) < k + 1 ↔ (pres.length : ℕ∞) < k) := by
    rw [List.length_cons, Nat.cast_succ]
    exact ⟨ENat.add_left_injective_of_ne_top ENat.one_ne_top |>.eq_iff, ENat.add_lt_add_iff_right ENat.one_ne_top⟩
  unfold FirstN
  rw [hcount.1, hcount.2]
  constructor
  · rintro ⟨h, hk⟩
    cases h with
    | @next _ rest _ _ hfirst h => exact ⟨rest, rfl, hfirst, h, hk⟩
  · rintro ⟨rest, rfl, hfirst, h, hk⟩
    exact ⟨.next hfirst h, hk⟩

theorem FirstN.exists_succ {k : ℕ∞} {pre last : List α} {pres : List (List α)}
    (h : FirstN k x l (pre :: pres) last) : ∃ k', k = k' + 1 := by
  have hpos : k ≠ 0 := by
    rintro rfl
    have hk := h.2
    simp at hk
  exact ⟨k - 1, (tsub_add_cancel_of_le (Order.one_le_iff_ne_zero.mpr hpos)).symm⟩

/-! ## The first occurrence -/

variable [DecidableEq α]

/-- Where the word occurs first -/
def firstAt (x l : List α) : Option ℕ := l.tails.findIdx? x.isPrefixOf

theorem firstAt_eq_some_iff {n : ℕ} :
    firstAt x l = some n ↔ n ≤ l.length ∧ x <+: l.drop n ∧ ∀ m < n, ¬x <+: l.drop m := by
  unfold firstAt
  rw [List.findIdx?_eq_some_iff_getElem]
  simp only [List.length_tails, List.getElem_tails, List.isPrefixOf_iff_prefix, Nat.lt_succ_iff]
  constructor
  · rintro ⟨hn, hat, hbefore⟩
    exact ⟨hn, hat, fun m hm => hbefore m hm⟩
  · rintro ⟨hn, hat, hbefore⟩
    exact ⟨hn, hat, fun m hm => hbefore m hm⟩

theorem firstAt_eq_none_iff : firstAt x l = none ↔ ¬x <:+: l := by
  unfold firstAt
  rw [List.findIdx?_eq_none_iff]
  simp only [List.mem_tails, Bool.eq_false_iff, ne_eq, List.isPrefixOf_iff_prefix]
  constructor
  · rintro h ⟨s, t, rfl⟩
    exact h (x ++ t) ⟨s, by simp⟩ (List.prefix_append x t)
  · intro h u hu hx
    exact h (hx.isInfix.trans hu.isInfix)

/-- The text is cut at the first occurrence. -/
theorem firstAt_eq_some_length_iff {pre : List α} :
    (firstAt x l = some pre.length ∧ l.take pre.length = pre) ↔
      ∃ rest, l = pre ++ x ++ rest ∧ ∀ n < pre.length, ¬x <+: (pre ++ x ++ rest).drop n := by
  rw [firstAt_eq_some_iff]
  constructor
  · rintro ⟨⟨hn, ⟨rest, hrest⟩, hbefore⟩, htake⟩
    have hl : l = pre ++ x ++ rest := by
      rw [List.append_assoc, hrest]
      conv_lhs => rw [← List.take_append_drop pre.length l, htake]
    exact ⟨rest, hl, hl ▸ hbefore⟩
  · rintro ⟨rest, rfl, hbefore⟩
    refine ⟨⟨by simp, ⟨rest, ?_⟩, hbefore⟩, ?_⟩
    · rw [List.append_assoc, List.drop_left]
    · rw [List.append_assoc, List.take_left]

/-- There is one way to choose them. -/
theorem FirstN.unique {k : ℕ∞} {pres pres' : List (List α)} {last last' : List α} (h : FirstN k x l pres last)
    (h' : FirstN k x l pres' last') : pres = pres' ∧ last = last' := by
  have hclash {k : ℕ∞} {l pre last last' : List α} {pres : List (List α)} (h : FirstN k x l [] last)
      (h' : FirstN k x l (pre :: pres) last') : False := by
    obtain ⟨k, rfl⟩ := h'.exists_succ
    obtain ⟨rest, rfl, -, -⟩ := (firstN_cons_iff k pre last' pres).mp h'
    cases ((firstN_nil_iff _ last).mp h).2 with
    | inl h0 => simp at h0
    | inr hno => exact hno ⟨pre, rest, rfl⟩
  induction pres generalizing k l pres' with
  | nil =>
    cases pres' with
    | nil => exact ⟨rfl, ((firstN_nil_iff k last).mp h).1.trans ((firstN_nil_iff k last').mp h').1.symm⟩
    | cons pre' pres' => exact (hclash h h').elim
  | cons pre pres ih =>
    cases pres' with
    | nil => exact (hclash h' h).elim
    | cons pre' pres' =>
      obtain ⟨k, rfl⟩ := h.exists_succ
      obtain ⟨rest, hl, hfirst, hrest⟩ := (firstN_cons_iff k pre last pres).mp h
      obtain ⟨rest', hl', hfirst', hrest'⟩ := (firstN_cons_iff k pre' last' pres').mp h'
      obtain ⟨hat, htake⟩ := firstAt_eq_some_length_iff.mpr ⟨rest, hl, hfirst⟩
      obtain ⟨hat', htake'⟩ := firstAt_eq_some_length_iff.mpr ⟨rest', hl', hfirst'⟩
      have hlen : pre.length = pre'.length := Option.some.inj (hat.symm.trans hat')
      have hpre : pre = pre' := by rw [← htake, ← htake', hlen]
      subst hpre
      have hrests : rest = rest' := List.append_cancel_left (hl.symm.trans hl')
      subst hrests
      obtain ⟨rfl, rfl⟩ := ih hrest hrest'
      exact ⟨rfl, rfl⟩

/-- And there is such a way. -/
theorem exists_firstN (hx : x ≠ []) (k : ℕ∞) (l : List α) : ∃ pres last, FirstN k x l pres last := by
  induction hn : l.length using Nat.strong_induction_on generalizing k l with
  | h n ih =>
    by_cases h0 : k = 0
    · exact ⟨[], l, (firstN_nil_iff k l).mpr ⟨rfl, Or.inl h0⟩⟩
    cases hat : firstAt x l with
    | none => exact ⟨[], l, (firstN_nil_iff k l).mpr ⟨rfl, Or.inr (firstAt_eq_none_iff.mp hat)⟩⟩
    | some m =>
      have hm := (firstAt_eq_some_iff.mp hat).1
      have hlen : (l.take m).length = m := List.length_take_of_le hm
      have hcut : firstAt x l = some (l.take m).length ∧ l.take (l.take m).length = l.take m := by
        rw [hlen]
        exact ⟨hat, rfl⟩
      obtain ⟨rest, hl, hfirst⟩ := firstAt_eq_some_length_iff.mp hcut
      have hshort : rest.length < n := by
        have hlength := congrArg List.length hl
        have hxpos := List.length_pos_iff.mpr hx
        simp only [List.length_append] at hlength
        omega
      obtain ⟨pres, last, hrest⟩ := ih rest.length hshort (k - 1) rest rfl
      have hk : k = k - 1 + 1 := (tsub_add_cancel_of_le (Order.one_le_iff_ne_zero.mpr h0)).symm
      rw [hk]
      exact ⟨l.take m :: pres, last, (firstN_cons_iff _ _ _ _).mpr ⟨rest, hl, hfirst, hrest⟩⟩

end Occurrences
