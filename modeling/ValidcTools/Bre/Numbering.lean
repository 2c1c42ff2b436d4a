import ValidcTools.Bre.Bounds
import ValidcTools.Lib.KeyOrder

/-! The numbers of captures. They are recorded from the last group to the first and then sorted by
their start; which of them gets which number depends on that alone. -/
namespace ValidcTools.Bre
open KeyOrder

/-- What the groups match in an attempt at `s`, in the order of the pattern. -/
def spansAt (text pattern : CString) (s : ℤ) : List Span :=
  ((Prog.ofPattern pattern).run noGuard listRecorder text s []).2

theorem atKey_insertFromRight (k : ℤ) (g : Span) (l : List Span) :
    atKey groupKey k (insertFromRight g l) = atKey groupKey k (g :: l) := by
  induction l with
  | nil => rfl
  | cons h hs ih =>
    unfold insertFromRight
    split_ifs with hle
    · rfl
    · -- An element that is passed over has another key.
      have hne : groupKey h ≠ groupKey g := by omega
      by_cases hk : groupKey h = k
      · have hg : groupKey g ≠ k := fun h' => hne (hk.trans h'.symm)
        subst hk
        rw [atKey_cons_self, ih, atKey_cons_of_ne hg, atKey_cons_of_ne hg, atKey_cons_self]
      · rw [atKey_cons_of_ne hk, ih]
        by_cases hg : groupKey g = k
        · subst hg
          rw [atKey_cons_self, atKey_cons_self, atKey_cons_of_ne hk]
        · rw [atKey_cons_of_ne hg, atKey_cons_of_ne hg, atKey_cons_of_ne hk]

/-- The sort is stable. -/
theorem atKey_sortGroups (k : ℤ) (gs : List Span) :
    atKey groupKey k (sortGroups gs) = atKey groupKey k gs := by
  have h (acc : List Span) :
      atKey groupKey k (gs.foldl (fun sorted g => insertFromRight g sorted) acc) =
        (atKey groupKey k gs).reverse ++ atKey groupKey k acc := by
    induction gs generalizing acc with
    | nil => rfl
    | cons g gs ih =>
      rw [List.foldl_cons, ih, atKey_insertFromRight]
      by_cases hg : groupKey g = k
      · subst hg
        rw [atKey_cons_self, atKey_cons_self, List.reverse_cons, List.append_assoc]
        rfl
      · rw [atKey_cons_of_ne hg, atKey_cons_of_ne hg]
  unfold sortGroups
  rw [atKey_reverse, h]
  simp [atKey]

theorem pairwise_insertFromRight {g : Span} {l : List Span}
    (h : l.Pairwise fun a b => groupKey b ≤ groupKey a) :
    (insertFromRight g l).Pairwise fun a b => groupKey b ≤ groupKey a := by
  induction l with
  | nil => exact List.pairwise_singleton _ g
  | cons x xs ih =>
    obtain ⟨hx, hxs⟩ := List.pairwise_cons.mp h
    unfold insertFromRight
    split_ifs with hle
    · refine List.pairwise_cons.mpr ⟨fun b hb => ?_, h⟩
      rcases List.mem_cons.mp hb with rfl | hb
      · exact hle
      · exact (hx b hb).trans hle
    · refine List.pairwise_cons.mpr ⟨fun b hb => ?_, ih hxs⟩
      rcases mem_insertFromRight.mp hb with rfl | hb
      · omega
      · exact hx b hb

theorem pairwise_sortGroups (gs : List Span) :
    (sortGroups gs).Pairwise fun a b => groupKey a ≤ groupKey b := by
  have h (acc : List Span) (hacc : acc.Pairwise fun a b => groupKey b ≤ groupKey a) :
      (gs.foldl (fun sorted g => insertFromRight g sorted) acc).Pairwise
        fun a b => groupKey b ≤ groupKey a := by
    induction gs generalizing acc with
    | nil => exact hacc
    | cons g gs ih => exact ih _ (pairwise_insertFromRight hacc)
  exact List.pairwise_reverse.mpr (h [] List.Pairwise.nil)

/-- The captures of a match are the spans of its groups, reversed and sorted. -/
theorem groups_of_breMatch {text pattern : CString} {m : BreMatch}
    (hgroups : (Prog.ofPattern pattern).groups ≤ breMaxGroups) (h : breMatch text pattern = .ok m) :
    m.groups = sortGroups (spansAt text pattern m.start).reverse ∧
      (spansAt text pattern m.start).length = (Prog.ofPattern pattern).groups := by
  rcases breMatch_cases text pattern with ⟨hno, -⟩ | ⟨s, -, -, -, heq⟩
  · rw [hno] at h
    cases h
  have hpair : Paired _ _ (attempt text pattern s) _ :=
    Prog.run_spans noGuard_mild text (Prog.ofPattern_flat pattern) hgroups s
  rw [h] at heq
  unfold spansAt
  rcases hatt : attempt text pattern s with ⟨r, m'⟩
  rw [hatt] at heq hpair
  cases r with
  | noMatch => cases heq
  | stop e => cases heq
  | ok n =>
    obtain rfl : m = m'.finish s n := Res.ok.inj heq
    change (sortGroups m'.groups) = sortGroups
        ((Prog.ofPattern pattern).run noGuard listRecorder text s []).2.reverse ∧
      ((Prog.ofPattern pattern).run noGuard listRecorder text s []).2.length = _
    generalize (Prog.ofPattern pattern).run noGuard listRecorder text s [] = y at hpair
    cases hpair with
    | ok n hrec => exact ⟨by rw [hrec.2], hrec.1⟩

/-- A match numbers its captures as the pattern numbers its groups. -/
def NumbersGroups (text pattern : CString) : Prop :=
  ∀ m, breMatch text pattern = .ok m →
    m.numGroups = (Prog.ofPattern pattern).groups ∧
      ∀ k : ℕ, m.groups[k]? = (spansAt text pattern m.start)[k]?

theorem numbersGroups_iff_ordered {text pattern : CString}
    (hgroups : (Prog.ofPattern pattern).groups ≤ breMaxGroups) :
    NumbersGroups text pattern ↔ ∀ m, breMatch text pattern = .ok m →
      ((spansAt text pattern m.start).Pairwise fun a b => groupKey a ≤ groupKey b) ∧
        ∀ k, (atKey groupKey k (spansAt text pattern m.start)).reverse =
          atKey groupKey k (spansAt text pattern m.start) := by
  refine forall_congr' fun m => forall_congr' fun hm => ?_
  obtain ⟨heq, hlen⟩ := groups_of_breMatch hgroups hm
  have hnum : m.numGroups = (Prog.ofPattern pattern).groups := by
    rw [BreMatch.numGroups, heq, length_sortGroups, List.length_reverse, hlen]
  rw [← eq_sort_reverse_iff (pairwise_sortGroups _) fun k => atKey_sortGroups k _, ← heq]
  exact ⟨fun h => List.ext_getElem? h.2, fun h => ⟨hnum, fun k => by rw [h]⟩⟩

/-- Without a false step, the spans follow each other in the text. -/
theorem pairwise_spansAt {text pattern : CString} {m : BreMatch}
    (hgroups : (Prog.ofPattern pattern).groups ≤ breMaxGroups) (hstep : ¬ Missteps text pattern)
    (h : breMatch text pattern = .ok m) :
    (∀ g ∈ spansAt text pattern m.start, 0 ≤ g.start ∧ 0 ≤ g.length) ∧
      (spansAt text pattern m.start).Pairwise fun a b => a.start + a.length ≤ b.start := by
  rcases breMatch_cases text pattern with ⟨hno, -⟩ | ⟨s, hs, hbefore, -, heq⟩
  · rw [hno] at h
    cases h
  have hpair : Paired _ _ (attempt text pattern s) _ :=
    Prog.run_spans noGuard_mild text (Prog.ofPattern_flat pattern) hgroups s
  have hfits := attempt_fits hstep hs hbefore
  have hin := hs.trans (lastStart_le text pattern)
  rw [h] at heq
  unfold spansAt
  rcases hatt : attempt text pattern s with ⟨r, m'⟩
  rw [hatt] at heq hpair hfits
  cases r with
  | noMatch => cases heq
  | stop e => cases heq
  | ok n =>
    obtain rfl : m = m'.finish s n := Res.ok.inj heq
    obtain ⟨-, -, new, hnew, hwithin, hord⟩ := hfits.inside (by omega) (by omega)
    have hnew : m'.groups = new := hnew
    change (∀ g ∈ ((Prog.ofPattern pattern).run noGuard listRecorder text s []).2, _) ∧
      ((Prog.ofPattern pattern).run noGuard listRecorder text s []).2.Pairwise _
    generalize (Prog.ofPattern pattern).run noGuard listRecorder text s [] = y at hpair
    cases hpair with
    | @ok _ _ l hrec =>
      obtain rfl : new = l.reverse := hnew.symm.trans hrec.2
      refine ⟨fun g hg => ?_, List.pairwise_reverse.mp hord⟩
      obtain ⟨h0, h1, -⟩ := hwithin g (List.mem_reverse.mpr hg)
      exact ⟨by omega, h1⟩

/-- Captures get wrong numbers where a group matches nothing at the place where a later one
matches something. -/
theorem numbersGroups_iff_of_not_missteps {text pattern : CString}
    (hgroups : (Prog.ofPattern pattern).groups ≤ breMaxGroups) (hstep : ¬ Missteps text pattern) :
    NumbersGroups text pattern ↔ ∀ m, breMatch text pattern = .ok m →
      (spansAt text pattern m.start).Pairwise fun a b => a.start = b.start → a = b := by
  rw [numbersGroups_iff_ordered hgroups]
  refine forall_congr' fun m => forall_congr' fun hm => ?_
  obtain ⟨hpos, hord⟩ := pairwise_spansAt hgroups hstep hm
  have hkey {g : Span} (hg : g ∈ spansAt text pattern m.start) : groupKey g = g.start :=
    if_neg (not_lt.mpr (hpos g hg).1)
  have hmono : (spansAt text pattern m.start).Pairwise fun a b => groupKey a ≤ groupKey b := by
    refine hord.imp_of_mem fun {a b} ha hb h => ?_
    have hlen := (hpos a ha).2
    rw [hkey ha, hkey hb]
    omega
  have hnull : (spansAt text pattern m.start).Pairwise fun a b =>
      groupKey a = groupKey b → 0 ≤ a.start ∧ a.length = 0 := by
    refine hord.imp_of_mem fun {a b} ha hb h heq => ?_
    obtain ⟨hstart, hlen⟩ := hpos a ha
    rw [hkey ha, hkey hb] at heq
    exact ⟨hstart, by omega⟩
  rw [and_iff_right hmono, atKey_reverse_eq_iff (fun g => 0 ≤ g.start ∧ g.length = 0) ?_ hnull]
  · refine List.Pairwise.iff_of_mem fun {a b} ha hb => ?_
    rw [hkey ha, hkey hb]
  · intro a b ha hb heq
    obtain ⟨sa, la⟩ := a
    obtain ⟨sb, lb⟩ := b
    simp only [groupKey, not_lt.mpr ha.1, not_lt.mpr hb.1, if_false] at ha hb heq
    simp [heq, ha.2, hb.2]

/-- Among at most nine groups, the numbers are right exactly when the spans matched come in the
order of their starts and those of one start read the same in both directions. Unless the matcher
takes a false step, this says that groups with one start match the same. -/
theorem numbersGroups_iff {text pattern : CString}
    (hgroups : (Prog.ofPattern pattern).groups ≤ breMaxGroups) :
    (NumbersGroups text pattern ↔ ∀ m, breMatch text pattern = .ok m →
      ((spansAt text pattern m.start).Pairwise fun a b => groupKey a ≤ groupKey b) ∧
        ∀ k, (atKey groupKey k (spansAt text pattern m.start)).reverse =
          atKey groupKey k (spansAt text pattern m.start)) ∧
    (¬ Missteps text pattern → (NumbersGroups text pattern ↔ ∀ m, breMatch text pattern = .ok m →
      (spansAt text pattern m.start).Pairwise fun a b => a.start = b.start → a = b)) :=
  ⟨numbersGroups_iff_ordered hgroups, numbersGroups_iff_of_not_missteps hgroups⟩

theorem numbersGroups_iff_ab :
    (Prog.ofPattern (.lit "\\(a\\)\\(b*\\)")).groups ≤ breMaxGroups ∧
      NumbersGroups (.lit "ab") (.lit "\\(a\\)\\(b*\\)") := by
  have hgroups : (Prog.ofPattern (.lit "\\(a\\)\\(b*\\)")).groups ≤ breMaxGroups := by decide +kernel
  have hb : breMatch (.lit "ab") (.lit "\\(a\\)\\(b*\\)") =
      .ok { start := 0, length := 2, groups := [⟨0, 1⟩, ⟨1, 1⟩] } := by decide
  have hspans : spansAt (.lit "ab") (.lit "\\(a\\)\\(b*\\)") 0 = [⟨0, 1⟩, ⟨1, 1⟩] := by decide +kernel
  refine ⟨hgroups, (numbersGroups_iff hgroups).1.mpr fun m hm => ?_⟩
  obtain rfl := Res.ok.inj (hb.symm.trans hm)
  rw [hspans]
  refine ⟨by decide, fun k => ?_⟩
  by_cases h0 : k = 0
  · subst h0
    rfl
  by_cases h1 : k = 1
  · subst h1
    rfl
  have h0 : groupKey ⟨0, 1⟩ ≠ k := Ne.symm h0
  have h1 : groupKey ⟨1, 1⟩ ≠ k := Ne.symm h1
  rw [atKey_cons_of_ne h0, atKey_cons_of_ne h1]
  rfl

theorem not_numbersGroups :
    ¬ ∀ text pattern, (Prog.ofPattern pattern).groups ≤ breMaxGroups → NumbersGroups text pattern := by
  intro h
  have hm : breMatch (.lit "b") (.lit "\\(a*\\)\\(b\\)") =
      .ok { start := 0, length := 1, groups := [⟨0, 1⟩, ⟨0, 0⟩] } := by decide
  have hspans : spansAt (.lit "b") (.lit "\\(a*\\)\\(b\\)") 0 = [⟨0, 0⟩, ⟨0, 1⟩] := by decide +kernel
  have hfirst := (h _ _ (by decide +kernel) _ hm).2 0
  rw [hspans] at hfirst
  cases hfirst

end ValidcTools.Bre
