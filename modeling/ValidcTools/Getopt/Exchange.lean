import ValidcTools.Getopt.Scan

/-! `exchange`: two segments of `argv` that follow each other change places. -/
namespace ValidcTools.Getopt

theorem swap_append (P Q R : List CString) (x y : CString) :
    swap (P ++ x :: (Q ++ y :: R)) P.length (P.length + Q.length + 1) = P ++ y :: (Q ++ x :: R) := by
  have hx : (P ++ x :: (Q ++ y :: R))[P.length]? = some x := by simp
  have hy : (P ++ x :: (Q ++ y :: R))[P.length + Q.length + 1]? = some y := by
    rw [List.getElem?_append_right (by omega), show P.length + Q.length + 1 - P.length = Q.length + 1 by omega]
    simp
  unfold swap
  rw [hx, hy]
  dsimp only
  rw [List.set_append_right _ _ le_rfl, Nat.sub_self, List.set_cons_zero, List.set_append_right _ _ (by omega),
    show P.length + Q.length + 1 - P.length = Q.length + 1 by omega, List.set_cons_succ,
    List.set_append_right _ _ le_rfl, Nat.sub_self, List.set_cons_zero]

/-- Two segments of the same length change places. -/
theorem swapSegments_append {X Y : List CString} (h : X.length = Y.length) (A M D : List CString) :
    swapSegments (A ++ X ++ M ++ Y ++ D) A.length (A.length + X.length + M.length) X.length = A ++ Y ++ M ++ X ++ D := by
  induction X using List.reverseRecOn generalizing Y M D with
  | nil =>
    obtain rfl := List.length_eq_zero_iff.mp h.symm
    rfl
  | append_singleton X x ih =>
    cases Y using List.reverseRecOn with
    | nil => simp at h
    | append_singleton Y y =>
      have hlength : X.length = Y.length := by simpa using h
      have hsegments := ih hlength (x :: M) (y :: D)
      have hswap := swap_append (A ++ Y) (M ++ X) D x y
      unfold swapSegments at hsegments ⊢
      rw [List.length_append, List.length_singleton, List.range_succ, List.foldl_append, List.foldl_cons, List.foldl_nil]
      simp only [List.append_assoc, List.cons_append, List.nil_append, List.length_append, List.length_cons]
        at hsegments hswap ⊢
      rw [show A.length + (X.length + 1) + M.length = A.length + X.length + (M.length + 1) by omega, hsegments, ← hswap,
        hlength]
      congr 1
      omega

/-- The loop exchanges two segments that follow each other, whatever their lengths. -/
theorem exchangeLoop_append (A B C D : List CString) :
    exchangeLoop (A ++ B ++ C ++ D) A.length (A.length + B.length) (A.length + B.length + C.length) = A ++ C ++ B ++ D := by
  induction hn : B.length + C.length using Nat.strong_induction_on generalizing A B C D with
  | _ n ih =>
    subst hn
    rw [exchangeLoop]
    by_cases hB : B.length = 0
    · obtain rfl := List.length_eq_zero_iff.mp hB
      rw [if_neg fun h => by simp at h]
      simp
    by_cases hC : C.length = 0
    · obtain rfl := List.length_eq_zero_iff.mp hC
      rw [if_neg fun h => by simp at h]
      simp
    rw [if_pos (by omega)]
    by_cases hlong : C.length > B.length
    · -- the first segment goes to its place at the end
      rw [if_pos (by omega)]
      obtain ⟨C₁, C₂, rfl, hlength⟩ : ∃ C₁ C₂, C = C₁ ++ C₂ ∧ B.length = C₂.length :=
        ⟨C.take (C.length - B.length), C.drop (C.length - B.length), (List.take_append_drop _ _).symm,
          by rw [List.length_drop]; omega⟩
      have hsegments := swapSegments_append hlength A C₁ D
      have hrest := ih (C₂.length + C₁.length) (by rw [List.length_append]; omega) A C₂ C₁ (B ++ D) rfl
      rw [List.length_append] at hlong ⊢
      rw [show A.length + B.length + (C₁.length + C₂.length) - (A.length + B.length - A.length) =
          A.length + B.length + C₁.length by omega, show A.length + B.length - A.length = B.length by omega]
      simp only [List.append_assoc, hlength] at hsegments hrest ⊢
      rw [hsegments, hrest]
    · -- the second segment goes to its place at the front
      rw [if_neg (by omega)]
      obtain ⟨B₁, B₂, rfl, hlength⟩ : ∃ B₁ B₂, B = B₁ ++ B₂ ∧ B₁.length = C.length :=
        ⟨B.take C.length, B.drop C.length, (List.take_append_drop _ _).symm, List.length_take_of_le (not_lt.mp hlong)⟩
      have hsegments := swapSegments_append hlength A B₂ D
      have hrest := ih (B₂.length + B₁.length) (by rw [List.length_append]; omega) (A ++ C) B₂ B₁ D rfl
      rw [List.length_append] at hlong ⊢
      rw [show A.length + (B₁.length + B₂.length) + C.length - (A.length + (B₁.length + B₂.length)) = C.length by omega]
      simp only [List.append_assoc, List.length_append, hlength, ← Nat.add_assoc] at hsegments hrest ⊢
      rw [hsegments, hrest]

/-- The elements from `i` up to, but not including, `j` -/
def block (argv : List CString) (i j : ℕ) : List CString := (argv.take j).drop i

theorem take_eq_append_block (argv : List CString) {i j : ℕ} (h : i ≤ j) : argv.take j = argv.take i ++ block argv i j := by
  have htake : (argv.take j).take i = argv.take i := by rw [List.take_take, min_eq_left h]
  rw [← htake]
  exact (List.take_append_drop i (argv.take j)).symm

/-- `exchange` puts the options behind the non-options before them: both blocks keep their order, all other elements
their places, and the state has the new place of the non-options. -/
theorem exchange_blocks (argv : List CString) (st : State) (hfirst : st.firstNonopt ≤ st.lastNonopt)
    (hlast : st.lastNonopt ≤ st.optind) (htop : st.optind ≤ argv.length) :
    (exchange argv st).1 = argv.take st.firstNonopt ++ block argv st.lastNonopt st.optind ++
        block argv st.firstNonopt st.lastNonopt ++ argv.drop st.optind ∧
      block (exchange argv st).1 (exchange argv st).2.firstNonopt (exchange argv st).2.lastNonopt =
        block argv st.firstNonopt st.lastNonopt ∧
      (exchange argv st).2 = { st with
        firstNonopt := st.firstNonopt + (st.optind - st.lastNonopt), lastNonopt := st.optind } := by
  have hA : (argv.take st.firstNonopt).length = st.firstNonopt := List.length_take_of_le (by omega)
  have hB : (block argv st.firstNonopt st.lastNonopt).length = st.lastNonopt - st.firstNonopt := by
    rw [block, List.length_drop, List.length_take_of_le (by omega)]
  have hC : (block argv st.lastNonopt st.optind).length = st.optind - st.lastNonopt := by
    rw [block, List.length_drop, List.length_take_of_le htop]
  have hargv : argv = argv.take st.firstNonopt ++ block argv st.firstNonopt st.lastNonopt ++
      block argv st.lastNonopt st.optind ++ argv.drop st.optind := by
    rw [← take_eq_append_block argv hfirst, ← take_eq_append_block argv hlast, List.take_append_drop]
  have hloop := exchangeLoop_append (argv.take st.firstNonopt) (block argv st.firstNonopt st.lastNonopt)
    (block argv st.lastNonopt st.optind) (argv.drop st.optind)
  rw [← hargv, hA, hB, hC, Nat.add_sub_cancel' hfirst, Nat.add_sub_cancel' hlast] at hloop
  have hexchange : (exchange argv st).1 = argv.take st.firstNonopt ++ block argv st.lastNonopt st.optind ++
      block argv st.firstNonopt st.lastNonopt ++ argv.drop st.optind := hloop
  refine ⟨hexchange, ?_, rfl⟩
  have hplace : (argv.take st.firstNonopt ++ block argv st.lastNonopt st.optind).length =
      st.firstNonopt + (st.optind - st.lastNonopt) := by rw [List.length_append, hA, hC]
  have hend : (argv.take st.firstNonopt ++ block argv st.lastNonopt st.optind ++
      block argv st.firstNonopt st.lastNonopt).length = st.optind := by
    rw [List.length_append, hplace, hB]
    omega
  rw [hexchange]
  change ((_ : List CString).take st.optind).drop (st.firstNonopt + (st.optind - st.lastNonopt)) = _
  rw [List.take_left' hend, List.drop_left' hplace]

/-- `x`, `y` and `z` before `-a` and `-b` -/
theorem exchange_blocks_xyz :
    (exchange (["p", "x", "y", "z", "-a", "-b", "q"].map .lit) { optind := 6, firstNonopt := 1, lastNonopt := 4 }).1 =
      ["p", "-a", "-b", "x", "y", "z", "q"].map .lit := by
  have h := (exchange_blocks (["p", "x", "y", "z", "-a", "-b", "q"].map .lit)
    { optind := 6, firstNonopt := 1, lastNonopt := 4 } (by decide) (by decide) (by decide)).1
  exact h.trans (by decide)

end ValidcTools.Getopt
