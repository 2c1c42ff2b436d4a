import ValidcTools.Bre.Search

/-! Groups do not nest: a group ends at the first `\)`, so that its content has no group. -/
namespace ValidcTools.Bre

/-- The number of groups of a pattern, up to its first malformed item. -/
def Prog.groups : Prog → ℕ
  | .done | .atEnd | .bad => 0
  | .one _ _ _ rest => rest.groups
  | .group _ rest => rest.groups + 1
  | .dotStar rest => rest.groups + 1
  | .groupRep _ _ _ rest => rest.groups + 1

/-- No group lies in another one. -/
def Prog.Flat : Prog → Prop
  | .done | .atEnd | .bad => True
  | .one _ _ _ rest => rest.Flat
  | .group inner rest => inner.groups = 0 ∧ rest.Flat
  | .dotStar rest => rest.Flat
  | .groupRep inner _ _ rest => inner.groups = 0 ∧ rest.Flat

theorem Prog.flat_of_groups_eq_zero {P : Prog} (h : P.groups = 0) : P.Flat := by
  induction P with
  | one a min max rest ih => exact ih h
  | done | atEnd | bad => trivial
  | group inner rest => cases h
  | dotStar rest => cases h
  | groupRep inner min max rest => cases h

theorem closeGroup_cons_eq_none {c : Byte} {l : List Byte} (h : closeGroup (c :: l) = none) :
    closeGroup l = none := by
  simp only [closeGroup] at h
  split at h
  · cases h
  · exact Option.map_eq_none_iff.mp h

theorem closeGroup_eq_none_of_suffix {l l' : List Byte} (h : closeGroup l = none) (hs : l' <:+ l) :
    closeGroup l' = none := by
  obtain ⟨p, rfl⟩ := hs
  induction p with
  | nil => exact h
  | cons c p ih => exact ih (closeGroup_cons_eq_none h)

/-- The content of a group has no `\)` in it. -/
theorem closeGroup_inner {l inner rest : List Byte} (h : closeGroup l = some (inner, rest)) :
    closeGroup inner = none := by
  induction l generalizing inner with
  | nil => cases h
  | cons c l ih =>
    simp only [closeGroup] at h
    split at h
    · obtain ⟨rfl, -⟩ : [] = inner ∧ _ = rest := by simpa using h
      rfl
    · rename_i hafter
      obtain ⟨⟨i, r⟩, hr, he⟩ := Option.map_eq_some_iff.mp h
      obtain ⟨rfl, rfl⟩ : c :: i = inner ∧ r = rest := by simpa using he
      have hnone : after ['\\', ')'] (c :: i) = none := by
        rw [Option.eq_none_iff_forall_ne_some]
        intro t ht
        have hl := closeGroup_eq hr
        obtain ⟨rfl, rfl⟩ : c = '\\' ∧ i = (((')' : Char) : Byte)) :: t := by simpa using after_eq ht
        rw [hl] at hafter
        simp [after] at hafter
      simp [closeGroup, hnone, ih hr]

theorem atomHead_cases (a : Atom) (l : List Byte) :
    atomHead a l = .bad ∨ ∃ min max rest, atomHead a l = .one a min max rest ∧ rest <:+ l := by
  unfold atomHead
  split
  · exact Or.inl rfl
  · exact Or.inr ⟨1, 1, l, rfl, List.suffix_refl l⟩
  · rename_i q rest hq
    obtain ⟨p, -, rfl⟩ := quantifier_suffix hq
    exact Or.inr ⟨q.1, q.2, rest, rfl, List.suffix_append p rest⟩

/-- What the first item of a pattern can be. -/
theorem head_cases (l : List Byte) :
    head l = .done ∨ head l = .atEnd ∨ head l = .bad ∨ (∃ a l', l' <:+ l ∧ head l = atomHead a l') ∨
      ∃ l' inner rest, l' <:+ l ∧ closeGroup l' = some (inner, rest) ∧ head l = groupHead inner rest := by
  cases l with
  | nil => exact Or.inl rfl
  | cons c l =>
    have hatom {l' : List Byte} (a : Atom) (hl : l' <:+ c :: l) :
        ∃ b l'', l'' <:+ c :: l ∧ atomHead a l' = atomHead b l'' := ⟨a, l', hl, rfl⟩
    simp only [head]
    split_ifs
    · exact Or.inr (Or.inl rfl)
    · split
      · exact Or.inr (Or.inr (Or.inl rfl))
      · rename_i inner rest hg
        exact Or.inr (Or.inr (Or.inr (Or.inr
          ⟨l.tail, inner, rest, (List.tail_suffix l).trans (List.suffix_cons c l), hg, rfl⟩)))
    · split
      · exact Or.inr (Or.inr (Or.inl rfl))
      · rename_i body rest hc
        refine Or.inr (Or.inr (Or.inr (Or.inl (hatom _ ?_))))
        rw [closeClass_eq hc]
        exact ((List.suffix_append _ rest).trans (List.suffix_append body _)).trans
          (List.suffix_cons c _)
    · exact Or.inr (Or.inr (Or.inr (Or.inl (hatom _ (List.suffix_cons c l)))))
    · cases l with
      | nil => exact Or.inr (Or.inr (Or.inl rfl))
      | cons e l =>
        simp only
        split_ifs
        · exact Or.inr (Or.inr (Or.inl rfl))
        · exact Or.inr (Or.inr (Or.inr (Or.inl
            (hatom _ ((List.suffix_cons e l).trans (List.suffix_cons c _))))))
    · exact Or.inr (Or.inr (Or.inr (Or.inl (hatom _ (List.suffix_cons c l)))))

/-- What it can be in a pattern without `\)`. -/
theorem head_of_closeGroup_eq_none {l : List Byte} (h : closeGroup l = none) :
    head l = .done ∨ head l = .atEnd ∨ head l = .bad ∨
      ∃ a min max rest, head l = .one a min max rest ∧ rest <:+ l := by
  rcases head_cases l with he | he | he | ⟨a, l', hl, he⟩ | ⟨l', inner, rest, hl, hg, -⟩
  · exact Or.inl he
  · exact Or.inr (Or.inl he)
  · exact Or.inr (Or.inr (Or.inl he))
  · rw [he]
    rcases atomHead_cases a l' with hb | ⟨min, max, rest, ho, hs⟩
    · exact Or.inr (Or.inr (Or.inl hb))
    · exact Or.inr (Or.inr (Or.inr ⟨a, min, max, rest, ho, hs.trans hl⟩))
  · rw [closeGroup_eq_none_of_suffix h hl] at hg
    cases hg

theorem Prog.parse_groups_of_closeGroup_eq_none {l : List Byte} (h : closeGroup l = none) :
    (Prog.parse l).groups = 0 := by
  induction hn : l.length using Nat.strong_induction_on generalizing l with
  | _ n ih =>
    subst hn
    rw [Prog.parse_eq]
    rcases head_of_closeGroup_eq_none h with he | he | he | ⟨a, min, max, rest, he, hs⟩
    · rw [he]; rfl
    · rw [he]; rfl
    · rw [he]; rfl
    · have hlt := head_length l rest (by simp [he, Head.texts])
      rw [he]
      exact ih rest.length hlt (closeGroup_eq_none_of_suffix h hs) rfl

theorem atomHead_ne_group {a : Atom} {l inner rest : List Byte} : atomHead a l ≠ .group inner rest := by
  rcases atomHead_cases a l with he | ⟨min, max, r, he, -⟩ <;> simp [he]

theorem atomHead_ne_groupRep {a : Atom} {l inner rest : List Byte} {min max : ℤ} :
    atomHead a l ≠ .groupRep inner min max rest := by
  rcases atomHead_cases a l with he | ⟨min, max, r, he, -⟩ <;> simp [he]

theorem groupHead_inner {inner l inner' rest : List Byte}
    (h : groupHead inner l = .group inner' rest ∨
      ∃ min max, groupHead inner l = .groupRep inner' min max rest) : inner' = inner := by
  unfold groupHead at h
  split at h <;> simp_all

/-- The text of a group's content has no `\)`. -/
theorem head_inner {l inner rest : List Byte}
    (h : head l = .group inner rest ∨ ∃ min max, head l = .groupRep inner min max rest) :
    closeGroup inner = none := by
  rcases head_cases l with he | he | he | ⟨a, l', -, he⟩ | ⟨l', i, r, -, hg, he⟩
  · simp [he] at h
  · simp [he] at h
  · simp [he] at h
  · simp [he, atomHead_ne_group, atomHead_ne_groupRep] at h
  · rw [he] at h
    rw [groupHead_inner h]
    exact closeGroup_inner hg

theorem Prog.parse_flat (l : List Byte) : (Prog.parse l).Flat := by
  induction hn : l.length using Nat.strong_induction_on generalizing l with
  | _ n ih =>
    subst hn
    have hlen := head_length l
    rw [Prog.parse_eq]
    cases he : head l with
    | done => trivial
    | atEnd => trivial
    | bad => trivial
    | one a min max rest => exact ih rest.length (hlen rest (by simp [he, Head.texts])) rest rfl
    | group inner rest =>
      have hrest := ih rest.length (hlen rest (by simp [he, Head.texts])) rest rfl
      simp only [Head.prog]
      split_ifs
      · exact hrest
      · exact ⟨parse_groups_of_closeGroup_eq_none (head_inner (Or.inl he)), hrest⟩
    | groupRep inner min max rest =>
      exact ⟨parse_groups_of_closeGroup_eq_none (head_inner (Or.inr ⟨min, max, he⟩)),
        ih rest.length (hlen rest (by simp [he, Head.texts])) rest rfl⟩

theorem Prog.ofPattern_flat (pattern : CString) : (Prog.ofPattern pattern).Flat :=
  Prog.parse_flat _

end ValidcTools.Bre
