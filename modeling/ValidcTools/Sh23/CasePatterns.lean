import ValidcTools.Sh23.Executor

/-! What the patterns of a case clause match, beside their meaning. -/
namespace ValidcTools.Sh23

/-- `?` is one character, `*` any string, and any other character itself. -/
inductive Glob : List Byte → List Byte → Prop
  | nil : Glob [] []
  | star {pattern word : List Byte} (u : List Byte) : Glob pattern word → Glob ('*' :: pattern) (u ++ word)
  | any {pattern word : List Byte} (c : Byte) : Glob pattern word → Glob ('?' :: pattern) (c :: word)
  | char {pattern word : List Byte} {c : Byte} : c ≠ '*' → c ≠ '?' → Glob pattern word →
      Glob (c :: pattern) (c :: word)

def isStar (c : Byte) : Bool := decide (c = '*')

/-- A pattern without the stars at its end -/
def stem (pattern : List Byte) : List Byte := pattern.rdropWhile isStar

/-- Two or more stars end the pattern, what is before them matches the whole word, and it matches nothing shorter that
the word begins with. -/
def Exhausts (pattern word : List Byte) : Prop :=
  (stem pattern).length + 2 ≤ pattern.length ∧ Glob (stem pattern) word ∧
    ∀ u, u <+: word → u ≠ word → ¬Glob (stem pattern) u

/-! ## Globs -/

theorem glob_nil_iff (word : List Byte) : Glob [] word ↔ word = [] := by
  constructor
  · intro h
    cases h with
    | nil => rfl
  · rintro rfl
    exact .nil

theorem glob_star_iff (pattern word : List Byte) :
    Glob ('*' :: pattern) word ↔ ∃ u v, word = u ++ v ∧ Glob pattern v := by
  constructor
  · intro h
    cases h with
    | star u h => exact ⟨u, _, rfl, h⟩
    | char hc => exact absurd rfl hc
  · rintro ⟨u, v, rfl, h⟩
    exact .star u h

theorem glob_char_iff {c : Byte} (hc : c ≠ '*') (pattern word : List Byte) :
    Glob (c :: pattern) word ↔ ∃ w v, word = w :: v ∧ (c = '?' ∨ w = c) ∧ Glob pattern v := by
  constructor
  · intro h
    cases h with
    | star u h => exact absurd rfl hc
    | any w h => exact ⟨w, _, rfl, Or.inl rfl, h⟩
    | char _ _ h => exact ⟨c, _, rfl, Or.inr rfl, h⟩
  · rintro ⟨w, v, rfl, hw, h⟩
    by_cases hany : c = '?'
    · subst hany
      exact .any w h
    · obtain rfl := hw.resolve_left hany
      exact .char hc hany h

theorem glob_append_iff (p q word : List Byte) :
    Glob (p ++ q) word ↔ ∃ u v, word = u ++ v ∧ Glob p u ∧ Glob q v := by
  induction p generalizing word with
  | nil =>
    constructor
    · intro h
      exact ⟨[], word, rfl, .nil, h⟩
    · rintro ⟨u, v, rfl, hu, hv⟩
      rwa [(glob_nil_iff u).mp hu]
  | cons c p ih =>
    by_cases hc : c = '*'
    · subst hc
      rw [List.cons_append, glob_star_iff]
      constructor
      · rintro ⟨x, y, rfl, h⟩
        obtain ⟨u, v, rfl, hu, hv⟩ := (ih y).mp h
        exact ⟨x ++ u, v, (List.append_assoc x u v).symm, .star x hu, hv⟩
      · rintro ⟨u, v, rfl, hu, hv⟩
        obtain ⟨x, u', rfl, hu'⟩ := (glob_star_iff p u).mp hu
        exact ⟨x, u' ++ v, List.append_assoc x u' v, (ih _).mpr ⟨u', v, rfl, hu', hv⟩⟩
    · rw [List.cons_append, glob_char_iff hc]
      constructor
      · rintro ⟨w, y, rfl, hw, h⟩
        obtain ⟨u, v, rfl, hu, hv⟩ := (ih y).mp h
        exact ⟨w :: u, v, rfl, (glob_char_iff hc p _).mpr ⟨w, u, rfl, hw, hu⟩, hv⟩
      · rintro ⟨u, v, rfl, hu, hv⟩
        obtain ⟨w, u', rfl, hw, hu'⟩ := (glob_char_iff hc p u).mp hu
        exact ⟨w, u' ++ v, rfl, hw, (ih _).mpr ⟨u', v, rfl, hu', hv⟩⟩

/-- Stars alone match any word, and no star matches the empty one. -/
theorem glob_stars_iff (k : ℕ) (word : List Byte) :
    Glob (List.replicate k ('*' : Char).toUInt8) word ↔ (k = 0 → word = []) := by
  induction k generalizing word with
  | zero => simp [glob_nil_iff]
  | succ k ih =>
    rw [List.replicate_succ, glob_star_iff]
    constructor
    · intro _ hk
      exact absurd hk (Nat.succ_ne_zero k)
    · intro _
      exact ⟨word, [], (List.append_nil word).symm, (ih []).mpr fun _ => rfl⟩

/-- A pattern with a character that is no star does not match the empty word. -/
theorem ne_nil_of_glob {pattern word : List Byte} (hlast : pattern.getLast? ≠ some (('*' : Char).toUInt8))
    (hne : pattern ≠ []) (h : Glob pattern word) : word ≠ [] := by
  induction h with
  | nil => exact absurd rfl hne
  | @star pattern word u h ih =>
    have htail : pattern ≠ [] := by
      rintro rfl
      exact hlast rfl
    have hrest : pattern.getLast? ≠ some (('*' : Char).toUInt8) := by
      rwa [List.getLast?_cons_of_ne_nil htail] at hlast
    exact fun hnil => ih hrest htail (List.append_eq_nil_iff.mp hnil).2
  | any c h ih => exact List.cons_ne_nil _ _
  | char _ _ h ih => exact List.cons_ne_nil _ _

/-! ## The matcher -/

theorem matchPattern_nil (word : List Byte) : matchPattern word [] = true ↔ word = [] := List.isEmpty_iff

theorem matchPattern_char {c : Byte} (hc : c ≠ '*') (word pattern : List Byte) :
    matchPattern word (c :: pattern) = true ↔
      ∃ w v, word = w :: v ∧ (c = '?' ∨ w = c) ∧ matchPattern v pattern = true := by
  cases word with
  | nil => simp [matchPattern, hc]
  | cons w word =>
    rw [matchPattern]
    rw [if_neg hc]
    simp

/-- A star with more behind it leaves something of the word. -/
theorem matchPattern_star {pattern : List Byte} (hne : pattern ≠ []) (word : List Byte) :
    matchPattern word ('*' :: pattern) = true ↔
      ∃ u v, word = u ++ v ∧ v ≠ [] ∧ matchPattern v pattern = true := by
  have hempty : pattern.isEmpty = false := by simpa using hne
  cases word with
  | nil =>
    rw [matchPattern]
    simp [hempty]
  | cons w word =>
    rw [matchPattern]
    rw [if_pos rfl, hempty, Bool.false_or, List.any_eq_true]
    constructor
    · rintro ⟨v, hv, h⟩
      obtain ⟨u, hu⟩ := (List.mem_tails v _).mp hv
      rw [Bool.and_eq_true] at h
      exact ⟨u, v, hu.symm, by simpa using h.1, h.2⟩
    · rintro ⟨u, v, hu, hv, h⟩
      refine ⟨v, (List.mem_tails v _).mpr ⟨u, hu.symm⟩, ?_⟩
      rw [Bool.and_eq_true]
      exact ⟨by simpa using hv, h⟩

theorem matchPattern_stars (k : ℕ) (word : List Byte) :
    matchPattern word (List.replicate k ('*' : Char).toUInt8) = true ↔
      (k = 0 → word = []) ∧ (2 ≤ k → word ≠ []) := by
  induction k generalizing word with
  | zero => simp [matchPattern_nil]
  | succ k ih =>
    rw [List.replicate_succ]
    by_cases hk : k = 0
    · subst hk
      cases word with
      | nil => decide
      | cons w word => simp [matchPattern]
    · have hne : List.replicate k ('*' : Char).toUInt8 ≠ [] := by simpa using hk
      rw [matchPattern_star hne]
      constructor
      · rintro ⟨u, v, rfl, hv, h⟩
        exact ⟨fun h0 => absurd h0 (Nat.succ_ne_zero k), fun _ hnil => hv (List.append_eq_nil_iff.mp hnil).2⟩
      · rintro ⟨-, hword⟩
        have hword := hword (by omega)
        exact ⟨[], word, rfl, hword, (ih word).mpr ⟨fun h0 => absurd h0 hk, fun _ => hword⟩⟩

/-- Behind what does not end in a star, the rest of the pattern is tried wherever it leaves off. -/
theorem matchPattern_append {p : List Byte} (hlast : p.getLast? ≠ some (('*' : Char).toUInt8)) (q word : List Byte) :
    matchPattern word (p ++ q) = true ↔ ∃ u v, word = u ++ v ∧ Glob p u ∧ matchPattern v q = true := by
  induction p generalizing word with
  | nil =>
    constructor
    · intro h
      exact ⟨[], word, rfl, .nil, h⟩
    · rintro ⟨u, v, rfl, hu, hv⟩
      rwa [(glob_nil_iff u).mp hu]
  | cons c p ih =>
    by_cases hc : c = '*'
    · subst hc
      have hne : p ≠ [] := by
        rintro rfl
        exact hlast rfl
      rw [List.getLast?_cons_of_ne_nil hne] at hlast
      have happ : p ++ q ≠ [] := fun hnil => hne (List.append_eq_nil_iff.mp hnil).1
      rw [List.cons_append, matchPattern_star happ]
      constructor
      · rintro ⟨x, y, rfl, -, h⟩
        obtain ⟨u, v, rfl, hu, hv⟩ := (ih hlast y).mp h
        exact ⟨x ++ u, v, (List.append_assoc x u v).symm, .star x hu, hv⟩
      · rintro ⟨u, v, rfl, hu, hv⟩
        obtain ⟨x, u', rfl, hu'⟩ := (glob_star_iff p u).mp hu
        -- What is behind the star takes at least one character, so something is left for it.
        have hleft : u' ++ v ≠ [] := fun hnil =>
          ne_nil_of_glob hlast hne hu' (List.append_eq_nil_iff.mp hnil).1
        exact ⟨x, u' ++ v, List.append_assoc x u' v, hleft, (ih hlast _).mpr ⟨u', v, rfl, hu', hv⟩⟩
    · have hrest : p.getLast? ≠ some (('*' : Char).toUInt8) := by
        cases p with
        | nil => simp
        | cons d p => rwa [List.getLast?_cons_cons] at hlast
      rw [List.cons_append, matchPattern_char hc]
      constructor
      · rintro ⟨w, y, rfl, hw, h⟩
        obtain ⟨u, v, rfl, hu, hv⟩ := (ih hrest y).mp h
        exact ⟨w :: u, v, rfl, (glob_char_iff hc p _).mpr ⟨w, u, rfl, hw, hu⟩, hv⟩
      · rintro ⟨u, v, rfl, hu, hv⟩
        obtain ⟨w, u', rfl, hw, hu'⟩ := (glob_char_iff hc p u).mp hu
        exact ⟨w, u' ++ v, rfl, hw, (ih hrest _).mpr ⟨u', v, rfl, hu', hv⟩⟩

/-! ## The stars at the end -/

theorem stem_append (pattern : List Byte) :
    ∃ k, pattern = stem pattern ++ List.replicate k ('*' : Char).toUInt8 := by
  have hstars : pattern.rtakeWhile isStar =
      List.replicate (pattern.rtakeWhile isStar).length ('*' : Char).toUInt8 := by
    rw [List.eq_replicate_iff]
    refine ⟨rfl, fun c hc => ?_⟩
    have hstar : isStar c = true := List.mem_rtakeWhile_imp hc
    exact of_decide_eq_true hstar
  refine ⟨(pattern.rtakeWhile isStar).length, ?_⟩
  rw [← hstars]
  exact (List.rdropWhile_append_rtakeWhile).symm

theorem getLast?_stem (pattern : List Byte) : (stem pattern).getLast? ≠ some (('*' : Char).toUInt8) := by
  intro hlast
  have hne : stem pattern ≠ [] := by
    intro hnil
    rw [hnil] at hlast
    cases hlast
  rw [List.getLast?_eq_getLast_of_ne_nil hne] at hlast
  have hno := List.rdropWhile_last_not isStar pattern hne
  exact hno (decide_eq_true (Option.some.inj hlast))

theorem glob_of_exhausts {pattern word : List Byte} (h : Exhausts pattern word) : Glob pattern word := by
  obtain ⟨k, hk⟩ := stem_append pattern
  rw [hk, glob_append_iff]
  exact ⟨word, [], (List.append_nil word).symm, h.2.1, (glob_stars_iff k []).mpr fun _ => rfl⟩

/-- A pattern is matched by what it means, unless the stars at its end are left with nothing. -/
theorem matchPattern_iff (word pattern : List Byte) :
    matchPattern word pattern = true ↔ Glob pattern word ∧ ¬Exhausts pattern word := by
  obtain ⟨k, hk⟩ := stem_append pattern
  have hlen : pattern.length = (stem pattern).length + k := by
    conv_lhs => rw [hk]
    rw [List.length_append, List.length_replicate]
  have hglob : Glob pattern word ↔ ∃ u v, word = u ++ v ∧ Glob (stem pattern) u ∧ (k = 0 → v = []) := by
    conv_lhs => rw [hk]
    simp only [glob_append_iff, glob_stars_iff]
  have hmatch : matchPattern word pattern = true ↔
      ∃ u v, word = u ++ v ∧ Glob (stem pattern) u ∧ (k = 0 → v = []) ∧ (2 ≤ k → v ≠ []) := by
    conv_lhs => rw [hk]
    simp only [matchPattern_append (getLast?_stem pattern), matchPattern_stars]
  rw [hmatch, hglob]
  unfold Exhausts
  constructor
  · rintro ⟨u, v, rfl, hu, hv0, hv2⟩
    refine ⟨⟨u, v, rfl, hu, hv0⟩, ?_⟩
    rintro ⟨hstars, -, hshort⟩
    have hv := hv2 (by omega)
    exact hshort u (List.prefix_append u v) (fun heq => hv (List.append_right_eq_self.mp heq.symm)) hu
  · rintro ⟨⟨u, v, rfl, hu, hv0⟩, hno⟩
    by_cases hstars : 2 ≤ k
    · by_cases hv : v = []
      · subst hv
        rw [List.append_nil] at hno
        have hshort : ∃ u', u' <+: u ∧ u' ≠ u ∧ Glob (stem pattern) u' := by
          by_contra hnone
          exact hno ⟨by omega, hu, fun u' hprefix hne hu' => hnone ⟨u', hprefix, hne, hu'⟩⟩
        obtain ⟨u', ⟨v', rfl⟩, hne, hu'⟩ := hshort
        refine ⟨u', v', List.append_nil _, hu', fun h0 => by omega, fun _ hv' => hne ?_⟩
        rw [hv', List.append_nil]
      · exact ⟨u, v, rfl, hu, hv0, fun _ => hv⟩
    · exact ⟨u, v, rfl, hu, hv0, fun h => absurd h hstars⟩

/-- A pattern matches a word as it should exactly where the stars at its end are not left with nothing. -/
theorem matchPattern_glob_iff (word pattern : List Byte) :
    (matchPattern word pattern = true ↔ Glob pattern word) ↔ ¬Exhausts pattern word := by
  rw [matchPattern_iff]
  constructor
  · intro h hex
    exact (h.mpr (glob_of_exhausts hex)).2 hex
  · intro h
    exact and_iff_left h

/-- `a**` does not match `a`, and `**` does not match the empty word. -/
theorem not_matchPattern_glob :
    ¬(matchPattern ['a'] ['a', '*', '*'] = true ↔ Glob ['a', '*', '*'] ['a']) ∧
      ¬(matchPattern [] ['*', '*'] = true ↔ Glob ['*', '*'] []) := by
  have hstars : Glob ['*', '*'] [] := .star [] (.star [] .nil)
  have hword : Glob ['a', '*', '*'] ['a'] := .char (by decide) (by decide) hstars
  have hcode : matchPattern ['a'] ['a', '*', '*'] = false ∧ matchPattern [] ['*', '*'] = false := by decide
  constructor
  · intro h
    exact absurd (h.mpr hword) (by rw [hcode.1]; decide)
  · intro h
    exact absurd (h.mpr hstars) (by rw [hcode.2]; decide)

end ValidcTools.Sh23
