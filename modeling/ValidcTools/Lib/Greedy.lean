import Mathlib

/-! Words matched by a row of bounded repetitions of single letters. A greedy matcher that
backtracks and takes its first success finds a match whenever there is one, and the match it
finds is a longest one. -/
namespace Greedy

variable {α β : Type*}

/-- Between `lo` and `hi` letters, each of them accepted. -/
structure Rep (α : Type*) where
  accepts : α → Bool
  lo : ℕ
  hi : ℕ

/-- There is a letter at `k`, and it is accepted. -/
def hits (w : List α) (f : α → Bool) (k : ℕ) : Bool := w[k]?.any f

def Rep.Takes (w : List α) (r : Rep α) (i j : ℕ) : Prop :=
  i + r.lo ≤ j ∧ j ≤ i + r.hi ∧ ∀ k, i ≤ k → k < j → hits w r.accepts k

/-- The repetitions, one after the other, cover `w` from `i` to `j`. -/
def Spans (w : List α) : List (Rep α) → ℕ → ℕ → Prop
  | [], i, j => i = j
  | r :: rs, i, j => ∃ k, r.Takes w i k ∧ Spans w rs k j

theorem lt_length_of_hits {w : List α} {f : α → Bool} {k : ℕ} (h : hits w f k) : k < w.length := by
  by_contra hk
  simp [hits, List.getElem?_eq_none (not_lt.mp hk)] at h

theorem Rep.Takes.le {w : List α} {r : Rep α} {i j : ℕ} (h : r.Takes w i j) : i ≤ j := by
  have := h.1
  omega

theorem Rep.Takes.le_length {w : List α} {r : Rep α} {i j : ℕ} (h : r.Takes w i j)
    (hi : i ≤ w.length) : j ≤ w.length := by
  by_cases hij : i = j
  · omega
  · have hle := h.le
    have hlast := lt_length_of_hits (h.2.2 (j - 1) (by omega) (by omega))
    omega

theorem Spans.le {w : List α} {rs : List (Rep α)} {i j : ℕ} (h : Spans w rs i j) : i ≤ j := by
  induction rs generalizing i with
  | nil => exact Nat.le_of_eq h
  | cons r rs ih =>
    obtain ⟨k, hk, hs⟩ := h
    exact hk.le.trans (ih hs)

theorem Spans.le_length {w : List α} {rs : List (Rep α)} {i j : ℕ} (h : Spans w rs i j)
    (hi : i ≤ w.length) : j ≤ w.length := by
  induction rs generalizing i with
  | nil => exact h ▸ hi
  | cons r rs ih =>
    obtain ⟨k, hk, hs⟩ := h
    exact ih hs (hk.le_length hi)

/-- Of two matches, the later start goes with the later end. The matches are followed in step up
to the first repetition where the one that starts earlier gets ahead. -/
theorem Spans.exchange {w : List α} {rs : List (Rep α)} {a b e f : ℕ} (hae : Spans w rs a e)
    (hbf : Spans w rs b f) (hab : a ≤ b) (hfe : f ≤ e) : Spans w rs b e := by
  induction rs generalizing a b with
  | nil =>
    have ha : a = e := hae
    have hb : b = f := hbf
    show b = e
    omega
  | cons r rs ih =>
    obtain ⟨a', ha, hae'⟩ := hae
    obtain ⟨b', hb, hbf'⟩ := hbf
    by_cases hle : a' ≤ b'
    · exact ⟨b', hb, ih hae' hbf' hle⟩
    · refine ⟨a', ⟨?_, ?_, fun k hk hka => ha.2.2 k (by omega) hka⟩, hae'⟩
      · have := hb.1
        omega
      · have := ha.2.1
        omega

/-- The position up to which letters are accepted from `i` on, at most `n` of them. -/
def reach (w : List α) (f : α → Bool) : ℕ → ℕ → ℕ
  | 0, i => i
  | n + 1, i => if hits w f i then reach w f n (i + 1) else i

theorem le_reach (w : List α) (f : α → Bool) (n i : ℕ) : i ≤ reach w f n i := by
  induction n generalizing i with
  | zero => exact le_rfl
  | succ n ih =>
    unfold reach
    split_ifs
    · have := ih (i + 1)
      omega
    · exact le_rfl

theorem le_reach_iff {w : List α} {f : α → Bool} {n i j : ℕ} (hij : i ≤ j) :
    j ≤ reach w f n i ↔ j ≤ i + n ∧ ∀ k, i ≤ k → k < j → hits w f k := by
  induction n generalizing i with
  | zero =>
    refine ⟨fun h => ⟨h, fun k hk hkj => ?_⟩, fun h => h.1⟩
    have : j ≤ i := h
    omega
  | succ n ih =>
    unfold reach
    split_ifs with hi
    · by_cases hj : j = i
      · have := le_reach w f n (i + 1)
        refine ⟨fun _ => ⟨by omega, fun k hk hkj => by omega⟩, fun _ => by omega⟩
      · rw [ih (by omega)]
        constructor
        · rintro ⟨hle, h⟩
          refine ⟨by omega, fun k hk hkj => ?_⟩
          by_cases hki : k = i
          · exact hki ▸ hi
          · exact h k (by omega) hkj
        · rintro ⟨hle, h⟩
          exact ⟨by omega, fun k hk hkj => h k (by omega) hkj⟩
    · constructor
      · intro h
        exact ⟨by omega, fun k hk hkj => by omega⟩
      · rintro ⟨-, h⟩
        by_contra hj
        exact hi (h i le_rfl (by omega))

theorem reach_le_length {w : List α} (f : α → Bool) (n : ℕ) {i : ℕ} (hi : i ≤ w.length) :
    reach w f n i ≤ w.length := by
  have hle := le_reach w f n i
  by_cases heq : reach w f n i = i
  · omega
  · have hall := ((le_reach_iff hle).mp le_rfl).2
    have hlast := lt_length_of_hits (hall (reach w f n i - 1) (by omega) (by omega))
    omega

theorem Rep.takes_iff {w : List α} {r : Rep α} {i j : ℕ} :
    r.Takes w i j ↔ i + r.lo ≤ j ∧ j ≤ reach w r.accepts r.hi i := by
  constructor
  · rintro ⟨hlo, h⟩
    exact ⟨hlo, (le_reach_iff (by omega)).mpr h⟩
  · rintro ⟨hlo, h⟩
    exact ⟨hlo, (le_reach_iff (by omega)).mp h⟩

/-- The first success of `next` at `i + k`, `i + (k - 1)`, and so on down to `i + lo`. -/
def descend (next : ℕ → Option β) (lo i : ℕ) : ℕ → Option β
  | 0 => if 0 < lo then none else next i
  | k + 1 => if k + 1 < lo then none else next (i + (k + 1)) <|> descend next lo i k

theorem descend_eq_none {next : ℕ → Option β} {lo i k : ℕ} :
    descend next lo i k = none ↔ ∀ j, lo ≤ j → j ≤ k → next (i + j) = none := by
  induction k with
  | zero =>
    unfold descend
    split_ifs with h
    · simp only [true_iff]
      intro j hlo hj
      omega
    · constructor
      · intro hn j _ hj
        obtain rfl : j = 0 := by omega
        exact hn
      · intro h'
        exact h' 0 (by omega) le_rfl
  | succ k ih =>
    unfold descend
    split_ifs with h
    · simp only [true_iff]
      intro j hlo hj
      omega
    · rw [Option.orElse_eq_none, ih]
      constructor
      · rintro ⟨htop, hbelow⟩ j hlo hj
        by_cases hjk : j = k + 1
        · exact hjk ▸ htop
        · exact hbelow j hlo (by omega)
      · intro h'
        exact ⟨h' (k + 1) (by omega) le_rfl, fun j hlo hj => h' j hlo (by omega)⟩

theorem descend_eq_some {next : ℕ → Option β} {lo i k : ℕ} {b : β}
    (h : descend next lo i k = some b) :
    ∃ j, lo ≤ j ∧ j ≤ k ∧ next (i + j) = some b ∧ ∀ j', j < j' → j' ≤ k → next (i + j') = none := by
  induction k with
  | zero =>
    unfold descend at h
    split_ifs at h with hlo
    exact ⟨0, by omega, le_rfl, h, fun j' _ _ => by omega⟩
  | succ k ih =>
    unfold descend at h
    split_ifs at h with hlo
    cases hn : next (i + (k + 1)) with
    | some c =>
      rw [hn] at h
      exact ⟨k + 1, by omega, le_rfl, hn.trans h, fun j' _ _ => by omega⟩
    | none =>
      rw [hn] at h
      obtain ⟨j, hj, hjk, hb, hmax⟩ := ih h
      refine ⟨j, hj, by omega, hb, fun j' hlt hle => ?_⟩
      by_cases hk : j' = k + 1
      · exact hk ▸ hn
      · exact hmax j' hlt (by omega)

/-- The end of the first match found from `i` on, longest repetitions first. -/
def greedy (w : List α) (fin : ℕ → Bool) : List (Rep α) → ℕ → Option ℕ
  | [], i => if fin i then some i else none
  | r :: rs, i => descend (greedy w fin rs) r.lo i (reach w r.accepts r.hi i - i)

theorem greedy_sound {w : List α} {fin : ℕ → Bool} {rs : List (Rep α)} {i e : ℕ}
    (h : greedy w fin rs i = some e) : Spans w rs i e ∧ fin e := by
  induction rs generalizing i with
  | nil =>
    unfold greedy at h
    split_ifs at h with hf
    obtain rfl := Option.some.inj h
    exact ⟨rfl, hf⟩
  | cons r rs ih =>
    obtain ⟨j, hlo, hj, hn, -⟩ := descend_eq_some h
    obtain ⟨hs, hf⟩ := ih hn
    have hr := le_reach w r.accepts r.hi i
    exact ⟨⟨i + j, Rep.takes_iff.mpr ⟨by omega, by omega⟩, hs⟩, hf⟩

theorem greedy_complete {w : List α} {fin : ℕ → Bool} {rs : List (Rep α)} {i e : ℕ}
    (hs : Spans w rs i e) (hf : fin e) : greedy w fin rs i ≠ none := by
  induction rs generalizing i with
  | nil =>
    have hie : i = e := hs
    simp [greedy, hie, hf]
  | cons r rs ih =>
    obtain ⟨k, hk, hs⟩ := hs
    intro hnone
    have hle := hk.le
    have hkr := (Rep.takes_iff.mp hk)
    have hat := descend_eq_none.mp hnone (k - i) (by omega) (by omega)
    rw [Nat.add_sub_cancel' hle] at hat
    exact ih hs hat

/-- The first match found is a longest one. -/
theorem greedy_longest {w : List α} {fin : ℕ → Bool} {rs : List (Rep α)} {i e e' : ℕ}
    (h : greedy w fin rs i = some e) (hs : Spans w rs i e') (hf : fin e') : e' ≤ e := by
  induction rs generalizing i with
  | nil =>
    have hie : i = e' := hs
    have he := (greedy_sound h).1
    have : i = e := he
    omega
  | cons r rs ih =>
    obtain ⟨j, hlo, hj, hn, hmax⟩ := descend_eq_some h
    obtain ⟨k, hk, hs⟩ := hs
    have hle := hk.le
    have hkr := Rep.takes_iff.mp hk
    by_contra hlt
    rcases lt_trichotomy k (i + j) with hkj | hkj | hkj
    · have hmoved := hs.exchange (greedy_sound hn).1 hkj.le (by omega)
      exact hlt (ih hn hmoved)
    · exact hlt (ih hn (hkj ▸ hs))
    · have hat := hmax (k - i) (by omega) (by omega)
      rw [Nat.add_sub_cancel' hle] at hat
      exact greedy_complete hs hf hat

theorem greedy_eq_none {w : List α} {fin : ℕ → Bool} {rs : List (Rep α)} {i : ℕ} :
    greedy w fin rs i = none ↔ ∀ e, Spans w rs i e → ¬ fin e := by
  constructor
  · intro h e hs hf
    exact greedy_complete hs hf h
  · intro h
    cases hg : greedy w fin rs i with
    | none => rfl
    | some e =>
      obtain ⟨hs, hf⟩ := greedy_sound hg
      exact absurd hf (h e hs)

/-- The words of a single letter from `s`. -/
def letters (s : Set α) : Language α := {u | ∃ x ∈ s, u = [x]}

/-- The powers of `letters s` whose exponent is in `counts`. -/
def repeated (s : Set α) (counts : Set ℕ) : Language α := ⨆ n ∈ counts, letters s ^ n

theorem mem_letters_pow {s : Set α} {n : ℕ} {u : List α} :
    u ∈ letters s ^ n ↔ u.length = n ∧ ∀ x ∈ u, x ∈ s := by
  induction n generalizing u with
  | zero =>
    rw [pow_zero, Language.mem_one, List.length_eq_zero_iff]
    constructor
    · rintro rfl
      simp
    · exact fun h => h.1
  | succ n ih =>
    rw [pow_succ', Language.mem_mul]
    constructor
    · rintro ⟨-, ⟨x, hx, rfl⟩, b, hb, rfl⟩
      obtain ⟨hlen, hall⟩ := ih.mp hb
      exact ⟨by simp [hlen], by simpa using ⟨hx, hall⟩⟩
    · rintro ⟨hlen, hall⟩
      cases u with
      | nil => simp at hlen
      | cons x u =>
        have hx : x ∈ s ∧ ∀ y ∈ u, y ∈ s := by simpa using hall
        exact ⟨[x], ⟨x, hx.1, rfl⟩, u, ih.mpr ⟨by simpa using hlen, hx.2⟩, rfl⟩

theorem mem_repeated {s : Set α} {counts : Set ℕ} {u : List α} :
    u ∈ repeated s counts ↔ u.length ∈ counts ∧ ∀ x ∈ u, x ∈ s := by
  unfold repeated
  simp only [Language.mem_iSup, mem_letters_pow]
  constructor
  · rintro ⟨n, hn, rfl, hall⟩
    exact ⟨hn, hall⟩
  · rintro ⟨hn, hall⟩
    exact ⟨u.length, hn, rfl, hall⟩

/-- The letters of `w` from `i` up to `j`. -/
def cut (w : List α) (i j : ℕ) : List α := (w.take j).drop i

theorem length_cut {w : List α} {i j : ℕ} (h : j ≤ w.length) : (cut w i j).length = j - i := by
  simp [cut, min_eq_left h]

theorem cut_append_cut (w : List α) {i k j : ℕ} (hik : i ≤ k) (hkj : k ≤ j) :
    cut w i k ++ cut w k j = cut w i j := by
  have hk : w.take k = (w.take j).take k := by rw [List.take_take, min_eq_left hkj]
  unfold cut
  rw [hk]
  generalize w.take j = v
  rw [List.drop_take, show v.drop k = (v.drop i).drop (k - i) by rw [List.drop_drop]; congr 1; omega,
    List.take_append_drop]

theorem forall_mem_cut {w : List α} {f : α → Bool} {i j : ℕ} (hj : j ≤ w.length) :
    (∀ x ∈ cut w i j, f x) ↔ ∀ k, i ≤ k → k < j → hits w f k := by
  constructor
  · intro h k hik hkj
    have hk : k < w.length := by omega
    have hmem : w.get ⟨k, hk⟩ ∈ cut w i j := by
      unfold cut
      rw [List.mem_iff_getElem]
      refine ⟨k - i, by simp; omega, ?_⟩
      simp [Nat.add_sub_cancel' hik]
    simpa [hits, List.getElem?_eq_getElem hk] using h _ hmem
  · intro h x hx
    unfold cut at hx
    obtain ⟨n, hn, rfl⟩ := List.mem_iff_getElem.mp hx
    simp only [List.length_drop, List.length_take] at hn
    have hk : i + n < w.length := by omega
    have := h (i + n) (by omega) (by omega)
    simpa [hits, List.getElem?_eq_getElem hk] using this

def Rep.lang (r : Rep α) : Language α := repeated {x | r.accepts x} (Set.Icc r.lo r.hi)

theorem Rep.takes_iff_mem_lang {w : List α} {r : Rep α} {i j : ℕ} (hij : i ≤ j)
    (hj : j ≤ w.length) : r.Takes w i j ↔ cut w i j ∈ r.lang := by
  unfold Rep.lang Rep.Takes
  simp only [mem_repeated, Set.mem_ofPred_eq]
  rw [forall_mem_cut hj, length_cut hj, Set.mem_Icc, ← and_assoc]
  refine and_congr_left fun _ => ?_
  omega

/-- A row of repetitions covers a part of `w` exactly when that part is in the product of their
languages. -/
theorem spans_iff_mem_prod {w : List α} {rs : List (Rep α)} {i j : ℕ} (hij : i ≤ j)
    (hj : j ≤ w.length) : Spans w rs i j ↔ cut w i j ∈ (rs.map Rep.lang).prod := by
  induction rs generalizing i with
  | nil =>
    rw [List.map_nil, List.prod_nil, Language.mem_one, ← List.length_eq_zero_iff, length_cut hj]
    show i = j ↔ _
    omega
  | cons r rs ih =>
    rw [List.map_cons, List.prod_cons, Language.mem_mul]
    constructor
    · rintro ⟨k, hk, hs⟩
      have hkj := hs.le
      exact ⟨_, (Rep.takes_iff_mem_lang hk.le (by omega)).mp hk, _, (ih hkj).mp hs,
        cut_append_cut w hk.le hkj⟩
    · rintro ⟨a, ha, b, hb, hab⟩
      have hlen := congrArg List.length hab
      rw [List.length_append, length_cut hj] at hlen
      have hle : i ≤ i + a.length := by omega
      have hkj : i + a.length ≤ j := by omega
      rw [← cut_append_cut w hle hkj] at hab
      have hcut := List.append_inj hab (by rw [length_cut (by omega)]; omega)
      rw [hcut.1] at ha
      rw [hcut.2] at hb
      exact ⟨i + a.length, (Rep.takes_iff_mem_lang hle (by omega)).mpr ha, (ih hkj).mpr hb⟩

/-- Two products agree on short words when their factors do. -/
theorem mem_prod_congr {ι : Type*} {L L' : ι → Language α} {n : ℕ}
    (h : ∀ (x : ι) (u : List α), u.length ≤ n → (u ∈ L x ↔ u ∈ L' x)) (xs : List ι) {u : List α}
    (hu : u.length ≤ n) : u ∈ (xs.map L).prod ↔ u ∈ (xs.map L').prod := by
  induction xs generalizing u with
  | nil => exact Iff.rfl
  | cons x xs ih =>
    simp only [List.map_cons, List.prod_cons, Language.mem_mul]
    constructor
    · rintro ⟨a, ha, b, hb, rfl⟩
      rw [List.length_append] at hu
      exact ⟨a, (h x a (by omega)).mp ha, b, (ih (by omega)).mp hb, rfl⟩
    · rintro ⟨a, ha, b, hb, rfl⟩
      rw [List.length_append] at hu
      exact ⟨a, (h x a (by omega)).mpr ha, b, (ih (by omega)).mpr hb, rfl⟩

end Greedy
