import ValidcTools.Bre.Bounds
import ValidcTools.Bre.Language

/-! When a malformed pattern is reported. `match_here` meets a malformed item only on its way
through the items before it, so that it depends on the text whether it is seen at all. -/
namespace ValidcTools.Bre
open Greedy

variable {σ : Type}

/-- The lower bound of every quantifier is within reach of its loop. -/
def Prog.Sized : Prog → Prop
  | .done | .atEnd | .bad => True
  | .one _ min max rest => min ≤ maxPossible max ∧ rest.Sized
  | .group inner rest => inner.Sized ∧ rest.Sized
  | .dotStar rest => rest.Sized
  | .groupRep inner min max rest => min ≤ maxPossible max ∧ inner.Sized ∧ rest.Sized

theorem le_maxPossible {min max : ℤ} (hmin : min ≤ max) (hmax : max ≤ breDupMax) :
    min ≤ maxPossible max := by
  unfold maxPossible
  unfold breDupMax at hmax
  split_ifs <;> omega

theorem quantifier_sized {l rest : List Byte} {q : ℤ × ℤ} (h : quantifier l = .ok (q, rest)) :
    q.1 ≤ maxPossible q.2 := by
  unfold quantifier at h
  split at h
  · obtain ⟨rfl, -⟩ : ((0 : ℤ), (-1 : ℤ)) = q ∧ _ = rest := by simpa using h
    decide
  split at h
  · obtain ⟨rfl, -⟩ : ((1 : ℤ), (-1 : ℤ)) = q ∧ _ = rest := by simpa using h
    decide
  split at h
  swap
  · cases h
  rename_i l' _
  unfold braces at h
  split_ifs at h with hdigits hmax
  generalize atoi l' = min at h hmax
  have hmin : min ≤ breDupMax := not_lt.mp hmax
  split at h
  · obtain ⟨rfl, -⟩ : (min, min) = q ∧ _ = rest := by simpa using h
    exact le_maxPossible le_rfl hmin
  split at h
  swap
  · cases h
  unfold bracesMax at h
  split at h
  · obtain ⟨rfl, -⟩ : (min, (-1 : ℤ)) = q ∧ _ = rest := by simpa using h
    have hopen : breDupMax ≤ maxPossible (-1) := by decide
    exact hmin.trans hopen
  split_ifs at h with hdigits' hbounds
  rename_i l'' _ _ _
  generalize atoi l'' = max at h hbounds
  push Not at hbounds
  split at h
  · obtain ⟨rfl, -⟩ : (min, max) = q ∧ _ = rest := by simpa using h
    exact le_maxPossible hbounds.2 hbounds.1
  · cases h

theorem atomHead_sized {a b : Atom} {l rest : List Byte} {min max : ℤ}
    (h : atomHead a l = .one b min max rest) : min ≤ maxPossible max := by
  unfold atomHead at h
  split at h
  · cases h
  · cases h
    decide
  · rename_i q r hq
    cases h
    exact quantifier_sized hq

theorem groupHead_sized {i inner l rest : List Byte} {min max : ℤ}
    (h : groupHead i l = .groupRep inner min max rest) : min ≤ maxPossible max := by
  unfold groupHead at h
  split at h
  · cases h
  · cases h
  · rename_i q r hq
    cases h
    exact quantifier_sized hq

theorem groupHead_ne_one {i l rest : List Byte} {a : Atom} {min max : ℤ} :
    groupHead i l ≠ .one a min max rest := by
  unfold groupHead
  split <;> simp

theorem head_one_sized {l rest : List Byte} {a : Atom} {min max : ℤ}
    (h : head l = .one a min max rest) : min ≤ maxPossible max := by
  rcases head_cases l with he | he | he | ⟨b, l', -, he⟩ | ⟨l', i, r, -, -, he⟩
  · simp [he] at h
  · simp [he] at h
  · simp [he] at h
  · exact atomHead_sized (he ▸ h)
  · exact absurd (he ▸ h) groupHead_ne_one

theorem head_groupRep_sized {l inner rest : List Byte} {min max : ℤ}
    (h : head l = .groupRep inner min max rest) : min ≤ maxPossible max := by
  rcases head_cases l with he | he | he | ⟨b, l', -, he⟩ | ⟨l', i, r, -, -, he⟩
  · simp [he] at h
  · simp [he] at h
  · simp [he] at h
  · exact absurd (he ▸ h) atomHead_ne_groupRep
  · exact groupHead_sized (he ▸ h)

theorem Prog.parse_sized (l : List Byte) : (Prog.parse l).Sized := by
  induction hn : l.length using Nat.strong_induction_on generalizing l with
  | _ n ih =>
    subst hn
    have hrec (t : List Byte) (ht : t ∈ (head l).texts) : (Prog.parse t).Sized :=
      ih t.length (head_length l t ht) t rfl
    rw [Prog.parse_eq]
    cases he : head l with
    | done => trivial
    | atEnd => trivial
    | bad => trivial
    | one a min max rest => exact ⟨head_one_sized he, hrec rest (by simp [he, Head.texts])⟩
    | group inner rest =>
      have hrest := hrec rest (by simp [he, Head.texts])
      simp only [Head.prog]
      split_ifs
      · exact hrest
      · exact ⟨hrec inner (by simp [he, Head.texts]), hrest⟩
    | groupRep inner min max rest =>
      exact ⟨head_groupRep_sized he, hrec inner (by simp [he, Head.texts]),
        hrec rest (by simp [he, Head.texts])⟩

/-- A group-free program that matches the empty text, and so everywhere. -/
def Prog.nullable : Prog → Prop
  | .done => True
  | .one _ min _ rest => min ≤ 0 ∧ rest.nullable
  | .atEnd | .bad | .group _ _ | .dotStar _ | .groupRep _ _ _ _ => False

/-- Everything before a malformed item may be empty. -/
def Prog.eager : Prog → Prop
  | .done | .atEnd => False
  | .bad => True
  | .one _ min _ rest => min ≤ 0 ∧ rest.eager
  | .group _ _ => False
  | .dotStar rest => rest.eager
  | .groupRep inner min max rest =>
    (max ≠ 0 ∧ inner.eager) ∨ ((min ≤ 0 ∨ inner.nullable) ∧ rest.eager)

/-- No byte of a text is accepted. -/
def Atom.Blocked (a : Atom) : Prop := ∀ b : Byte, b ≠ 0 → a.accepts b = false

/-- A group-free program that matches nowhere. -/
def Prog.dead : Prog → Prop
  | .bad => True
  | .one a min _ rest => (0 < min ∧ a.Blocked) ∨ rest.dead
  | .done | .atEnd | .group _ _ | .dotStar _ | .groupRep _ _ _ _ => False

/-- No malformed item can be got to. -/
def Prog.barren : Prog → Prop
  | .done | .atEnd => True
  | .bad => False
  | .one a min _ rest => (0 < min ∧ a.Blocked) ∨ rest.barren
  | .group inner rest => inner.barren ∧ (inner.dead ∨ rest.barren)
  | .dotStar rest => rest.barren
  | .groupRep inner min _ rest => inner.barren ∧ ((0 < min ∧ inner.dead) ∨ rest.barren)

theorem Prog.run_tail_free (guard : Guard) (R : Recorder σ) {text : CString} {P : Prog}
    (hP : P.groups = 0) {i : ℕ} (hi : i ≤ text.length) (m : σ) :
    Meets (· = m) (fun n m' => n = 0 ∧ m' = m) (· = .error) (P.tail.run guard R text i m) := by
  induction P with
  | done => exact ⟨rfl, rfl⟩
  | atEnd =>
    simp only [tail, run, CString.read?_natCast hi]
    split_ifs
    · exact ⟨rfl, rfl⟩
    · rfl
  | bad => rfl
  | one a min max rest ih => exact ih hP
  | group inner rest => cases hP
  | dotStar rest => cases hP
  | groupRep inner min max rest => cases hP

/-- What a group-free program does at a position of the text. -/
theorem Prog.run_free {guard : Guard} {R : Recorder σ} {text : CString} {P : Prog}
    (hP : P.groups = 0) {i : ℕ} (hi : i ≤ text.length) (m : σ) :
    Meets (· = m) (fun (n : ℤ) m' => m' = m ∧ ∃ e : ℕ, n = e - i ∧ e ≤ text.length) (· = .error)
      (P.run guard R text i m) := by
  have hquiet (j : ℕ) (hj : j ≤ text.length) (hno : (P.tail.run guard R text j m).1 = .noMatch) :
      (P.tail.run guard R text j m).2 = m := by
    have h := run_tail_free guard R hP hj m
    rcases hr : P.tail.run guard R text j m with ⟨r, m'⟩
    rw [hr] at h hno
    obtain rfl : r = .noMatch := hno
    exact h
  rw [Prog.run_eq_greedy hquiet hi]
  cases hg : greedy text.bytes _ P.reps i with
  | none => rfl
  | some e =>
    have he := (greedy_sound hg).1.le_length hi
    have h := run_tail_free guard R hP he m
    unfold resume
    rcases hr : P.tail.run guard R text e m with ⟨r, m'⟩
    simp only [hr]
    rw [hr] at h
    cases r with
    | ok n =>
      obtain ⟨rfl, rfl⟩ := h
      exact ⟨rfl, e, by simp, he⟩
    | noMatch => exact h
    | stop s => exact h

/-- The first thing on the way back is what follows all the iterations. -/
theorem countDown_top {rest : ℤ → σ → Res ℤ × σ} {min : ℤ} {advs : List ℤ} {t : ℤ} {m : σ}
    (hmin : min ≤ advs.length) (h : (rest t m).1 ≠ .noMatch) :
    countDown rest min advs t m = ifOk (rest t m) fun b m => (.ok (t, b), m) := by
  rcases hr : rest t m with ⟨r, m'⟩
  rw [hr] at h
  cases advs with
  | nil =>
    unfold countDown
    rw [if_neg (by simpa using hmin), hr]
  | cons adv advs =>
    rw [List.length_cons] at hmin
    unfold countDown
    rw [if_neg (not_lt.mpr hmin), hr]
    cases r with
    | noMatch => exact absurd rfl h
    | ok b => rfl
    | stop s => rfl

theorem Prog.run_nullable {guard : Guard} {R : Recorder σ} {text : CString} {P : Prog}
    (hP : P.nullable) {i : ℕ} (hi : i ≤ text.length) (m : σ) :
    ∃ n, (P.run guard R text i m).1 = .ok n := by
  induction P generalizing i with
  | done => exact ⟨0, rfl⟩
  | one a min max rest ih =>
    obtain ⟨hmin, hrest⟩ := hP
    obtain ⟨n, hn⟩ := ih hrest (reach_le_length a.accepts (maxPossible max) hi)
    rw [run_one_eq hi, countDown_top (by omega) (by simp [hn])]
    rcases hr : rest.run guard R text (reach text.bytes a.accepts (maxPossible max) i : ℕ) m with ⟨r, m'⟩
    rw [hr] at hn
    obtain rfl : r = .ok n := hn
    exact ⟨_, rfl⟩
  | atEnd | bad | group | dotStar | groupRep => exact hP.elim

theorem ifOk_fst {α β : Type} {x : Res α × σ} {s : Stop} (h : x.1 = .stop s)
    (f : α → σ → Res β × σ) : (ifOk x f).1 = .stop s := by
  rcases x with ⟨r, m⟩
  obtain rfl : r = .stop s := h
  rfl

theorem scanBack_stop {room : σ → Bool} {rest : ℤ → σ → Res ℤ × σ} {t : ℤ} {k : ℕ} {m : σ} {s : Stop}
    (h : (rest (t + k) m).1 = .stop s) : (scanBack room rest t k m).1 = .stop s := by
  rcases hr : rest (t + k) m with ⟨r, m'⟩
  rw [hr] at h
  obtain rfl : r = .stop s := h
  cases k with
  | zero =>
    unfold scanBack
    rw [Nat.cast_zero, add_zero] at hr
    rw [hr]
  | succ k =>
    unfold scanBack
    rw [hr]

/-- A stop of what follows is the outcome of a repetition that can be met. -/
theorem matchRepeated_error {once rest : ℤ → σ → Res ℤ × σ} {min max : ℤ} {text : CString} {i : ℕ}
    (hi : i ≤ text.length)
    (honce : ∀ (j : ℕ) m, j ≤ text.length → Meets (fun _ => True)
      (fun (n : ℤ) _ => ∃ e : ℕ, n = e - j ∧ e ≤ text.length) (· = .error) (once j m))
    (hmet : min ≤ 0 ∨ min ≤ maxPossible max ∧ ∀ (j : ℕ) m, j ≤ text.length → ∃ n, (once j m).1 = .ok n)
    (hrest : ∀ (j : ℕ) m, j ≤ text.length → (rest j m).1 = .stop .error) (m : σ) :
    (matchRepeated once rest min max i m).1 = .stop .error := by
  -- The positions stay in the text, and no iteration fails when all have to be made.
  have hup (n : ℕ) : ∀ (j : ℕ) (advs : List ℤ) (m : σ), j ≤ text.length →
      Meets (fun _ => False)
        (fun x _ => ∃ e : ℕ, x.1 = (e : ℤ) ∧ e ≤ text.length ∧
          ((∀ (j : ℕ) m, j ≤ text.length → ∃ n, (once j m).1 = .ok n) → x.2.length = advs.length + n))
        (· = .error) (countUp once n j advs m) := by
    induction n with
    | zero => exact fun j advs m hj => ⟨j, rfl, hj, fun _ => rfl⟩
    | succ n ih =>
      intro j advs m hj
      have h := honce j m hj
      unfold countUp
      rcases hr : once j m with ⟨r, m'⟩
      rw [hr] at h
      cases r with
      | stop s => exact h
      | noMatch =>
        refine ⟨j, rfl, hj, fun hall => ?_⟩
        obtain ⟨n, hn⟩ := hall j m hj
        rw [hr] at hn
        cases hn
      | ok adv =>
        obtain ⟨e, rfl, he⟩ := h
        have hpos : (j : ℤ) + ((e : ℤ) - j) = e := by ring
        simp only [hpos]
        refine (ih e (((e : ℤ) - j) :: advs) m' he).mono (fun _ h => h) (fun x m h => ?_) fun s h => h
        obtain ⟨e', hx, he', hlen⟩ := h
        refine ⟨e', hx, he', fun hall => ?_⟩
        rw [hlen hall, List.length_cons]
        omega
  have h := hup (maxPossible max) i [] m hi
  unfold matchRepeated
  rcases hr : countUp once (maxPossible max) i [] m with ⟨r, m'⟩
  rw [hr] at h
  cases r with
  | noMatch => exact h.elim
  | stop s =>
    obtain rfl : s = .error := h
    rfl
  | ok x =>
    obtain ⟨tpos, advs⟩ := x
    obtain ⟨e, rfl, he, hlen⟩ := h
    have hmin : min ≤ advs.length := by
      rcases hmet with hmin | ⟨hmin, hall⟩
      · omega
      · have := hlen hall
        simp only [List.length_nil] at this
        omega
    simp only [ifOk_ok]
    rw [countDown_top hmin (by simp [hrest e m' he])]
    exact ifOk_fst (ifOk_fst (hrest e m' he) _) _

theorem Prog.run_eager {R : Recorder σ} {text : CString} {P : Prog} (hflat : P.Flat)
    (hsized : P.Sized) (hP : P.eager) {i : ℕ} (hi : i ≤ text.length) (m : σ) :
    (P.run noGuard R text i m).1 = .stop .error := by
  induction P generalizing i m with
  | done | atEnd | group => exact hP.elim
  | bad => rfl
  | one a min max rest ih =>
    have hrest := ih hflat hsized.2 hP.2 (reach_le_length a.accepts (maxPossible max) hi) m
    rw [run_one_eq hi, countDown_top (by have := hP.1; omega) (by simp [hrest])]
    exact ifOk_fst (ifOk_fst hrest _) _
  | dotStar rest ih =>
    have hend : scanEnd text i = some (text.length : ℤ) := if_pos ⟨by omega, by omega⟩
    have hpos : (i : ℤ) + ((text.length : ℤ) - i).toNat = text.length := by omega
    have hstop : (scanBack R.room (rest.run noGuard R text) i ((text.length : ℤ) - i).toNat m).1 =
        .stop .error := by
      refine scanBack_stop ?_
      rw [hpos]
      exact ih hflat hsized hP le_rfl m
    simp only [run, hend]
    exact ifOk_fst hstop _
  | groupRep inner min max rest ihi ih =>
    have hstop : (matchRepeated (inner.run noGuard R text)
        (fun tpos m => (rest.run noGuard R text tpos m).map (noGuard i tpos) id) min max i m).1 =
        .stop .error := by
      rcases hP with ⟨hmax, hinner⟩ | ⟨hmet, hrest⟩
      · have hfirst := ihi (flat_of_groups_eq_zero hflat.1) hsized.2.1 hinner hi m
        obtain ⟨k, hk⟩ : ∃ k, maxPossible max = k + 1 := by
          refine Nat.exists_eq_succ_of_ne_zero ?_
          unfold maxPossible
          split_ifs <;> omega
        refine ifOk_fst ?_ _
        rw [hk]
        unfold countUp
        rcases hr : inner.run noGuard R text i m with ⟨r, m'⟩
        rw [hr] at hfirst
        obtain rfl : r = .stop .error := hfirst
        rfl
      · refine matchRepeated_error hi (fun j m hj => ?_) ?_ (fun j m hj => ?_) m
        · exact (run_free hflat.1 hj m).mono (fun _ _ => trivial) (fun n m' h => h.2) fun s h => h
        · exact hmet.imp_right fun hn => ⟨hsized.1, fun j m hj => run_nullable hn hj m⟩
        · exact ih hflat.2 hsized.2.2 hrest hj m
    exact ifOk_fst hstop _

/-- A required iteration that does not succeed. -/
theorem matchRepeated_unmet {once rest : ℤ → σ → Res ℤ × σ} {min max t : ℤ} {m : σ} (hmin : 0 < min)
    (h : ∀ n, (once t m).1 ≠ .ok n) :
    Meets (fun _ => True) (fun _ _ => False) (fun s => (once t m).1 = .stop s)
      (matchRepeated once rest min max t m) := by
  have hnone (m : σ) : countDown rest min [] t m = (.noMatch, m) := by
    unfold countDown
    rw [if_pos hmin]
  unfold matchRepeated
  cases maxPossible max with
  | zero =>
    unfold countUp
    rw [ifOk_ok]
    simp only [hnone, ifOk_noMatch, meets_noMatch]
  | succ n =>
    unfold countUp
    rcases hr : once t m with ⟨r, m'⟩
    cases r with
    | ok n => exact absurd (by rw [hr]) (h n)
    | noMatch =>
      rw [ifOk_ok]
      simp only [hnone, ifOk_noMatch, meets_noMatch]
    | stop s => exact rfl

theorem Atom.once_of_blocked {a : Atom} (h : a.Blocked) (text : CString) (t n : ℤ) :
    a.once text t ≠ .ok n := by
  unfold once
  split_ifs
  · simp
  · split
    · simp
    · rename_i b _
      by_cases hb : b = 0
      · simp [hb]
      · simp [h b hb]

theorem Prog.run_dead (R : Recorder σ) (text : CString) {P : Prog} (hP : P.dead) (t : ℤ) (m : σ) :
    Meets (fun _ => True) (fun _ _ => False) (fun _ => True) (P.run noGuard R text t m) := by
  induction P generalizing t m with
  | bad => trivial
  | one a min max rest ih =>
    rcases hP with ⟨hmin, hblocked⟩ | hrest
    · refine ((matchRepeated_unmet hmin (fun n => Atom.once_of_blocked hblocked text t n)).mono
        (fun _ h => h) (fun _ _ h => h) fun _ _ => trivial).ifOk (fun _ h => h) fun _ _ h => h.elim
    · have hrep : Meets (fun _ => True) (fun _ _ => False) (fun _ => True)
          (matchRepeated (fun tpos m => (a.once text tpos, m)) (rest.run noGuard R text) min max t m) := by
        refine matchRepeated_rule (fun _ _ => True) (fun _ _ => True) (fun advs t m _ _ => ?_)
          (fun _ _ _ => trivial) (fun advs t m _ _ => ih hrest t m) (fun _ _ _ _ => trivial) trivial trivial
        cases a.once text t with
        | ok n => exact ⟨trivial, trivial⟩
        | noMatch => trivial
        | stop s => trivial
      exact hrep.ifOk (fun _ h => h) fun _ _ h => h.elim
  | done | atEnd | group | dotStar | groupRep => exact hP.elim

/-- What a barren program never gives. -/
theorem Prog.run_barren {R : Recorder σ} {text : CString} {P : Prog} (hP : P.barren) (t : ℤ) (m : σ) :
    Meets (fun _ => True) (fun _ _ => True) (· ≠ .error) (P.run noGuard R text t m) := by
  induction P generalizing t m with
  | done => trivial
  | atEnd =>
    unfold run
    split
    · simp
    · split_ifs <;> trivial
  | bad => exact hP.elim
  | one a min max rest ih =>
    have hstop {t : ℤ} {s : Stop} (h : a.once text t = .stop s) : s ≠ .error := by
      rw [(Atom.once_stop h).1]
      simp
    rcases hP with ⟨hmin, hblocked⟩ | hrest
    · exact ((matchRepeated_unmet hmin (fun n => Atom.once_of_blocked hblocked text t n)).mono
        (fun _ h => h) (fun _ _ h => h) fun _ h => hstop h).ifOk (fun _ h => h) fun _ _ h => h.elim
    · have hrep : Meets (fun _ => True) (fun _ _ => True) (· ≠ .error)
          (matchRepeated (fun tpos m => (a.once text tpos, m)) (rest.run noGuard R text) min max t m) := by
        refine matchRepeated_rule (fun _ _ => True) (fun _ _ => True) (fun advs t m _ _ => ?_)
          (fun _ _ _ => trivial) (fun advs t m _ _ => ih hrest t m) (fun _ _ _ _ => trivial) trivial trivial
        cases ho : a.once text t with
        | ok n => exact ⟨trivial, trivial⟩
        | noMatch => trivial
        | stop s => exact hstop ho
      exact hrep.ifOk (fun _ h => h) fun _ _ _ => trivial
  | group inner rest ihi ih =>
    obtain ⟨hinner, hrest⟩ := hP
    have hscan (n : ℕ) : Meets (fun _ => True) (fun _ _ => True) (· ≠ .error)
        (scanForward text (inner.run noGuard R text) (rest.run noGuard R text) n t m) := by
      refine scanForward_rule (fun _ => True) (fun _ _ _ => by simp) (fun _ _ _ _ _ => trivial)
        (fun t b m _ _ _ _ => ?_) n trivial trivial
      rcases hrest with hdead | hrest
      · have hi := ihi hinner t m
        have hd := run_dead R text hdead t m
        rcases hr : inner.run noGuard R text t m with ⟨r, m'⟩
        rw [hr] at hi hd
        cases r with
        | ok n => exact hd.elim
        | noMatch => trivial
        | stop s => exact hi
      · exact (ihi hinner t m).mono (fun _ h => h) (fun adv m _ => ih hrest (t + adv) m) fun _ h => h
    exact (hscan _).ifOk (fun _ h => h) fun _ _ _ => trivial
  | dotStar rest ih =>
    unfold run
    split
    · simp
    · have hscan (k : ℕ) : Meets (fun _ => True) (fun _ _ => True) (· ≠ .error)
          (scanBack R.room (rest.run noGuard R text) t k m) := by
        refine scanBack_rule (fun j m _ _ => (ih hP (t + j) m).mono (fun _ h => h) (fun b m _ => ?_)
          fun _ h => h) trivial
        split_ifs
      exact (hscan _).ifOk (fun _ h => h) fun _ _ _ => trivial
  | groupRep inner min max rest ihi ih =>
    obtain ⟨hinner, hrest⟩ := hP
    have hrep : Meets (fun _ => True) (fun _ _ => True) (· ≠ .error)
        (matchRepeated (inner.run noGuard R text)
          (fun tpos m => (rest.run noGuard R text tpos m).map (noGuard t tpos) id) min max t m) := by
      rcases hrest with ⟨hmin, hdead⟩ | hrest
      · have hd := run_dead R text hdead t m
        have hi := ihi hinner t m
        rcases hr : inner.run noGuard R text t m with ⟨r, m'⟩
        rw [hr] at hd hi
        refine (matchRepeated_unmet hmin fun n hn => ?_).mono (fun _ h => h) (fun _ _ h => h.elim)
          fun s hs => ?_
        · rw [hr] at hn
          obtain rfl : r = .ok n := hn
          exact hd
        · rw [hr] at hs
          obtain rfl : r = .stop s := hs
          exact hi
      · refine matchRepeated_rule (fun _ _ => True) (fun _ _ => True) (fun advs t m _ _ => ?_)
          (fun _ _ _ => trivial) (fun advs t m _ _ => ih hrest t m) (fun _ _ _ _ => trivial) trivial trivial
        exact (ihi hinner t m).mono (fun _ h => h) (fun _ _ _ => ⟨trivial, trivial⟩) fun _ h => h
    exact hrep.ifOk (fun _ h => h) fun _ _ _ => trivial

/-- No item is malformed. -/
def Prog.sound : Prog → Bool
  | .done | .atEnd => true
  | .bad => false
  | .one _ _ _ rest => rest.sound
  | .group inner rest => inner.sound && rest.sound
  | .dotStar rest => rest.sound
  | .groupRep inner _ _ rest => inner.sound && rest.sound

theorem Prog.barren_of_sound {P : Prog} (h : P.sound) : P.barren := by
  induction P with
  | done | atEnd => trivial
  | bad => cases h
  | one a min max rest ih => exact Or.inr (ih h)
  | group inner rest ihi ih =>
    obtain ⟨hi, hr⟩ : inner.sound ∧ rest.sound := by simpa [sound] using h
    exact ⟨ihi hi, Or.inr (ih hr)⟩
  | dotStar rest ih => exact ih h
  | groupRep inner min max rest ihi ih =>
    obtain ⟨hi, hr⟩ : inner.sound ∧ rest.sound := by simpa [sound] using h
    exact ⟨ihi hi, Or.inr (ih hr)⟩

/-- There is a malformed item, and the first one is not inside a repeated group. -/
def Prog.Broken : Prog → Prop
  | .done | .atEnd => False
  | .bad => True
  | .one _ _ _ rest => rest.Broken
  | .group inner rest => inner.sound → rest.Broken
  | .dotStar rest => rest.Broken
  | .groupRep inner _ _ rest => inner.sound ∧ rest.Broken

/-- The items before the first malformed one. -/
def Prog.soundPart : Prog → Prog
  | .done => .done
  | .atEnd => .atEnd
  | .bad => .done
  | .one a min max rest => .one a min max rest.soundPart
  | .group inner rest =>
    if inner.sound then .group inner rest.soundPart else .group inner.soundPart .done
  | .dotStar rest => .dotStar rest.soundPart
  | .groupRep inner min max rest => .groupRep inner min max rest.soundPart

theorem Prog.broken_of_groups_eq_zero {P : Prog} (hP : P.groups = 0) (h : P.sound = false) :
    P.Broken := by
  induction P with
  | done | atEnd => cases h
  | bad => trivial
  | one a min max rest ih => exact ih hP h
  | group inner rest => cases hP
  | dotStar rest => cases hP
  | groupRep inner min max rest => cases hP

theorem Prog.soundPart_sound {P : Prog} (hP : P.Flat) (h : P.Broken) : P.soundPart.sound := by
  induction P with
  | done | atEnd => exact h.elim
  | bad => rfl
  | one a min max rest ih => exact ih hP h
  | group inner rest ihi ih =>
    unfold soundPart
    by_cases hi : inner.sound
    · rw [if_pos hi]
      simp [sound, hi, ih hP.2 (h hi)]
    · rw [if_neg hi]
      have hbroken := broken_of_groups_eq_zero hP.1 (by simpa using hi)
      simp [sound, ihi (flat_of_groups_eq_zero hP.1) hbroken]
  | dotStar rest ih => exact ih hP h
  | groupRep inner min max rest ihi ih => simp [soundPart, sound, h.1, ih hP.2 h.2]

/-- The first run gives an error where the second one matches, and what it gives elsewhere. -/
inductive Trips {α β : Type} : Res α × Unit → Res β × Unit → Prop
  | met (b : β) (m m' : Unit) : Trips (.stop .error, m) (.ok b, m')
  | noMatch (m m' : Unit) : Trips (.noMatch, m) (.noMatch, m')
  | stop (s : Stop) (m m' : Unit) : Trips (.stop s, m) (.stop s, m')

section Tripping

variable {α β γ δ : Type} {rest : ℤ → Unit → Res α × Unit} {rest' : ℤ → Unit → Res β × Unit}
  {once : ℤ → Unit → Res ℤ × Unit}

theorem Trips.ifOk {x : Res α × Unit} {y : Res β × Unit} {f : α → Unit → Res γ × Unit}
    {g : β → Unit → Res δ × Unit} (h : Trips x y) (hg : ∀ b m, ∃ d, (g b m).1 = .ok d) :
    Trips (Bre.ifOk x f) (Bre.ifOk y g) := by
  cases h with
  | met b m m' =>
    obtain ⟨d, hd⟩ := hg b m'
    rw [ifOk_stop, ifOk_ok]
    generalize g b m' = z at hd
    obtain ⟨r, m''⟩ := z
    obtain rfl : r = .ok d := hd
    exact .met d m m''
  | noMatch m m' => exact .noMatch m m'
  | stop s m m' => exact .stop s m m'

theorem countDown_trips (hrest : ∀ t m, Trips (rest t m) (rest' t m)) (min : ℤ) (advs : List ℤ)
    (t : ℤ) (m : Unit) : Trips (countDown rest min advs t m) (countDown rest' min advs t m) := by
  induction advs generalizing t m with
  | nil =>
    unfold countDown
    split_ifs
    · exact .noMatch m m
    · exact (hrest t m).ifOk fun b m => ⟨_, rfl⟩
  | cons adv advs ih =>
    have hstep := hrest t m
    unfold countDown
    split_ifs
    · exact .noMatch m m
    generalize rest t m = x, rest' t m = y at hstep
    cases hstep with
    | met b m m' => exact .met (t, b) m m'
    | noMatch m m' => exact ih _ m
    | stop s m m' => exact .stop s m m'

theorem matchRepeated_trips (hrest : ∀ t m, Trips (rest t m) (rest' t m)) (min max t : ℤ) (m : Unit) :
    Trips (matchRepeated once rest min max t m) (matchRepeated once rest' min max t m) := by
  unfold matchRepeated
  rcases countUp once (maxPossible max) t [] m with ⟨r, m⟩
  cases r with
  | ok x => exact (countDown_trips hrest min x.2 x.1 m).ifOk fun b m => ⟨_, rfl⟩
  | noMatch => exact .noMatch m m
  | stop s => exact .stop s m m

theorem scanBack_trips {room : Unit → Bool} (hroom : ∀ m, room m)
    (hrest : ∀ t m, Trips (rest t m) (rest' t m)) (t : ℤ) (k : ℕ) (m : Unit) :
    Trips (scanBack room rest t k m) (scanBack room rest' t k m) := by
  induction k generalizing m with
  | zero =>
    have hstep := hrest t m
    unfold scanBack
    generalize rest t m = x, rest' t m = y at hstep
    cases hstep with
    | met b m m' => simpa [hroom] using Trips.met (t, b) m m'
    | noMatch m m' => exact .noMatch m m'
    | stop s m m' => exact .stop s m m'
  | succ k ih =>
    have hstep := hrest (t + (k + 1 : ℕ)) m
    unfold scanBack
    generalize rest (t + (k + 1 : ℕ)) m = x, rest' (t + (k + 1 : ℕ)) m = y at hstep
    cases hstep with
    | met b m m' => simpa [hroom] using Trips.met (t + (k + 1 : ℕ), b) m m'
    | noMatch m m' => exact ih m
    | stop s m m' => exact .stop s m m'

theorem scanForward_trips {text : CString} (hrest : ∀ t m, Trips (rest t m) (rest' t m)) (n : ℕ)
    (t : ℤ) (m : Unit) :
    Trips (scanForward text once rest n t m) (scanForward text once rest' n t m) := by
  induction n generalizing t m with
  | zero => exact .noMatch m m
  | succ n ih =>
    unfold scanForward
    cases text.read? t with
    | none => exact .stop _ m m
    | some b =>
      by_cases hb : b = 0
      · simpa [hb] using Trips.noMatch m m
      simp only [hb, if_false]
      rcases once t m with ⟨r, m⟩
      cases r with
      | stop s => exact .stop s m m
      | noMatch => exact ih (t + 1) m
      | ok adv =>
        have hstep := hrest (t + adv) m
        dsimp only
        generalize rest (t + adv) m = x, rest' (t + adv) m = y at hstep
        cases hstep with
        | met b m m' => exact .met (t, adv, b) m m'
        | noMatch m m' => exact ih (t + 1) m
        | stop s m m' => exact .stop s m m'

/-- A malformed content of a group: what follows the group is never got to. -/
theorem scanForward_trips_inner {text : CString} {once' : ℤ → Unit → Res ℤ × Unit}
    {rest' : ℤ → Unit → Res β × Unit} (hinner : ∀ t m, Trips (once t m) (once' t m))
    (hrest : ∀ t m, ∃ b, (rest' t m).1 = .ok b) (n : ℕ) (t : ℤ) (m : Unit) :
    Trips (scanForward text once rest n t m) (scanForward text once' rest' n t m) := by
  induction n generalizing t m with
  | zero => exact .noMatch m m
  | succ n ih =>
    have hstep := hinner t m
    unfold scanForward
    cases text.read? t with
    | none => exact .stop _ m m
    | some b =>
      by_cases hb : b = 0
      · simpa [hb] using Trips.noMatch m m
      simp only [hb, if_false]
      generalize once t m = x, once' t m = y at hstep
      cases hstep with
      | stop s m m' => exact .stop s m m'
      | noMatch m m' => exact ih (t + 1) m
      | met adv m m' =>
        obtain ⟨b', hb'⟩ := hrest (t + adv) m'
        dsimp only
        generalize rest' (t + adv) m' = z at hb'
        obtain ⟨r, m''⟩ := z
        obtain rfl : r = .ok b' := hb'
        exact .met (t, adv, b') m m''

end Tripping

/-- A broken pattern gives an error exactly where its sound part matches. -/
theorem Prog.run_trips (text : CString) {P : Prog} (hflat : P.Flat) (hP : P.Broken) (t : ℤ) (m : Unit) :
    Trips (P.run noGuard noRecorder text t m) (P.soundPart.run noGuard noRecorder text t m) := by
  induction P generalizing t m with
  | done | atEnd => exact hP.elim
  | bad => exact .met 0 m m
  | one a min max rest ih =>
    exact (matchRepeated_trips (ih hflat hP) min max t m).ifOk fun b m => ⟨_, rfl⟩
  | group inner rest ihi ih =>
    unfold soundPart
    by_cases hi : inner.sound
    · rw [if_pos hi]
      exact (scanForward_trips (ih hflat.2 (hP hi)) _ t m).ifOk fun b m => ⟨_, rfl⟩
    · rw [if_neg hi]
      have hbroken := broken_of_groups_eq_zero hflat.1 (by simpa using hi)
      exact (scanForward_trips_inner (ihi (flat_of_groups_eq_zero hflat.1) hbroken)
        (fun _ _ => ⟨0, rfl⟩) _ t m).ifOk fun b m => ⟨_, rfl⟩
  | dotStar rest ih =>
    unfold soundPart run
    cases scanEnd text t with
    | none => exact .stop _ m m
    | some tcur =>
      exact (scanBack_trips (fun _ => rfl) (ih hflat hP) t _ m).ifOk fun b m => ⟨_, rfl⟩
  | groupRep inner min max rest ihi ih =>
    exact (matchRepeated_trips (fun tpos m => ih hflat.2 hP.2 tpos m) min max t m).ifOk
      fun b m => ⟨_, rfl⟩

/-- A broken pattern captures nothing, so that the recorder does not matter. -/
theorem Prog.run_paired_of_broken {τ : Type} {S : σ → τ → Prop} {R : Recorder σ} {R' : Recorder τ}
    {text : CString} {P : Prog} (hflat : P.Flat) (hP : P.Broken) (t : ℤ) {m : σ} {l : τ} (h : S m l) :
    Paired S (fun _ _ => False) (P.run noGuard R text t m) (P.run noGuard R' text t l) := by
  induction P generalizing t m l with
  | done | atEnd => exact hP.elim
  | bad => exact .stop _ m l
  | one a min max rest ih =>
    have honce (t : ℤ) (m : σ) (l : τ) (h : S m l) :
        Paired S S (a.once text t, m) (a.once text t, l) := by
      cases a.once text t with
      | ok n => exact .ok n h
      | noMatch => exact .noMatch h
      | stop s => exact .stop s m l
    exact (matchRepeated_paired S _ honce (fun t m l h => ih hflat hP t h) min max t h).ifOk
      fun x m l h => h.elim
  | group inner rest ihi ih =>
    by_cases hi : inner.sound
    · exact (scanForward_paired S _ S (fun t m l h => run_paired_of_groups_eq_zero hflat.1 t h)
        (fun t m l h => ih hflat.2 (hP hi) t h) _ t h).ifOk fun x m l h => h.elim
    · have hbroken := broken_of_groups_eq_zero hflat.1 (by simpa using hi)
      exact (scanForward_paired S (fun _ _ => False) (fun _ _ => False)
        (fun t m l h => ihi (flat_of_groups_eq_zero hflat.1) hbroken t h)
        (fun t m l h => h.elim) _ t h).ifOk fun x m l h => h.elim
  | dotStar rest ih =>
    unfold run
    cases scanEnd text t with
    | none => exact .stop _ m l
    | some tcur =>
      exact (scanBack_paired S (fun _ _ => False) (fun t m l h => ih hflat hP t h)
        (fun m l h => h.elim) t _ h).ifOk fun x m l h => h.elim
  | groupRep inner min max rest ihi ih =>
    exact (matchRepeated_paired S _ (fun t m l h => run_paired_of_groups_eq_zero hflat.1 t h)
      (fun tpos m l h => (ih hflat.2 hP.2 tpos h).guard noGuard_mild t tpos) min max t h).ifOk
      fun x m l h => h.elim

/-- The items of the pattern before its first malformed one match somewhere in the text. -/
def SoundPartMatches (text pattern : CString) : Prop :=
  ∃ s : ℕ, s ≤ lastStart text pattern ∧
    (∃ n, (Prog.ofPattern pattern).soundPart.plain text s = .ok n) ∧
    ∀ s' : ℕ, s' < s → (Prog.ofPattern pattern).soundPart.plain text s' = .noMatch

theorem attempt_broken {pattern : CString} (hP : (Prog.ofPattern pattern).Broken) (text : CString)
    (s : ℕ) :
    ((attempt text pattern s).1 = .stop .error ↔
      ∃ n, (Prog.ofPattern pattern).soundPart.plain text s = .ok n) ∧
    ((attempt text pattern s).1 = .noMatch ↔
      (Prog.ofPattern pattern).soundPart.plain text s = .noMatch) := by
  have hflat := Prog.ofPattern_flat pattern
  have hpair : Paired (fun _ _ => True) (fun _ _ => False) (attempt text pattern s)
      ((Prog.ofPattern pattern).run noGuard noRecorder text s ()) :=
    Prog.run_paired_of_broken hflat hP s trivial
  have htrips := Prog.run_trips text hflat hP s ()
  have hbarren : Meets (fun _ => True) (fun _ _ => True) (· ≠ .error)
      ((Prog.ofPattern pattern).soundPart.run noGuard noRecorder text s ()) :=
    Prog.run_barren (Prog.barren_of_sound (Prog.soundPart_sound hflat hP)) s ()
  unfold Prog.plain
  generalize attempt text pattern s = x, (Prog.ofPattern pattern).run noGuard noRecorder text s () = y,
    (Prog.ofPattern pattern).soundPart.run noGuard noRecorder text s () = z at hpair htrips hbarren
  cases htrips with
  | met n _ _ =>
    cases hpair
    simp
  | noMatch _ _ =>
    cases hpair
    simp
  | stop e _ _ =>
    have hne : e ≠ .error := hbarren
    cases hpair
    simp [hne]

/-- A syntax error is a property of the pattern alone. -/
def ErrorsAlike (pattern : CString) : Prop :=
  (∀ text, breMatch text pattern = .stop .error) ∨ ∀ text, breMatch text pattern ≠ .stop .error

theorem breMatch_error_iff {pattern : CString} (hP : (Prog.ofPattern pattern).Broken) (text : CString) :
    breMatch text pattern = .stop .error ↔ SoundPartMatches text pattern := by
  constructor
  · intro h
    obtain ⟨s, hs, hbefore, hstop⟩ := breMatch_stop_cases h
    exact ⟨s, hs, (attempt_broken hP text s).1.mp hstop,
      fun s' hs' => (attempt_broken hP text s').2.mp (hbefore s' hs')⟩
  · rintro ⟨s, hs, hok, hbefore⟩
    exact breMatch_eq_stop hs (fun s' hs' => (attempt_broken hP text s').2.mpr (hbefore s' hs'))
      ((attempt_broken hP text s).1.mpr hok)

theorem errorsAlike_of_eager_or_barren {pattern : CString}
    (h : (Prog.ofPattern pattern).eager ∨ (Prog.ofPattern pattern).barren) : ErrorsAlike pattern := by
  rcases h with heager | hbarren
  · left
    intro text
    have hstop : (attempt text pattern (0 : ℕ)).1 = .stop .error :=
      Prog.run_eager (Prog.ofPattern_flat pattern) (Prog.parse_sized _) heager (Nat.zero_le _) _
    exact breMatch_eq_stop (Nat.zero_le _) (fun s' hs' => absurd hs' (Nat.not_lt_zero s')) hstop
  · right
    intro text h
    obtain ⟨s, -, -, hstop⟩ := breMatch_stop_cases h
    have hrun : Meets (fun _ => True) (fun _ _ => True) (· ≠ .error) (attempt text pattern s) :=
      Prog.run_barren hbarren s _
    rcases hatt : attempt text pattern s with ⟨r, m⟩
    rw [hatt] at hstop hrun
    obtain rfl : r = .stop .error := hstop
    exact hrun rfl

/-- On the empty text, only quantifiers that allow nothing lead to the malformed item. -/
theorem Prog.eager_of_run_empty {R : Recorder σ} {text : CString} (htext : text.length = 0) {P : Prog}
    (htail : P.tail = .bad) {m : σ} (h : (P.run noGuard R text (0 : ℕ) m).1 = .stop .error) : P.eager := by
  induction P with
  | bad => trivial
  | one a min max rest ih =>
    have hreach : reach text.bytes a.accepts (maxPossible max) 0 = 0 := by
      have hle := reach_le_length (w := text.bytes) a.accepts (maxPossible max) (Nat.zero_le _)
      exact Nat.le_zero.mp (htext ▸ hle)
    rw [run_one_eq (Nat.zero_le _), hreach] at h
    unfold countDown at h
    simp only [Nat.sub_zero, List.replicate_zero] at h
    by_cases hmin : 0 < min
    · rw [if_pos hmin] at h
      cases h
    · rw [if_neg hmin] at h
      refine ⟨not_lt.mp hmin, ih htail ?_⟩
      rcases hr : rest.run noGuard R text (0 : ℕ) m with ⟨r, m'⟩
      rw [hr] at h
      cases r with
      | ok n => cases h
      | noMatch => cases h
      | stop s => exact h
  | done | atEnd | group | dotStar | groupRep => cases htail

/-- A word that takes a group-free program to its end. -/
theorem Prog.exists_word {P : Prog} (htail : P.tail = .bad) (hsized : P.Sized) (h : ¬ P.barren) :
    ∃ w : List Byte, (0 : Byte) ∉ w ∧ w ∈ (P.reps.map Rep.lang).prod := by
  induction P with
  | bad => exact ⟨[], by simp, by simp [reps]⟩
  | one a min max rest ih =>
    obtain ⟨hfirst, hrest⟩ := not_or.mp h
    obtain ⟨w, hw0, hw⟩ := ih htail hsized.2 hrest
    have hmin := hsized.1
    obtain ⟨u, hu0, hu⟩ : ∃ u : List Byte, (0 : Byte) ∉ u ∧
        u ∈ (⟨a.accepts, min.toNat, maxPossible max⟩ : Rep Byte).lang := by
      by_cases hpos : 0 < min
      · have hopen : ¬ a.Blocked := fun hb => hfirst ⟨hpos, hb⟩
        unfold Atom.Blocked at hopen
        push Not at hopen
        obtain ⟨b, hb0, hb⟩ := hopen
        refine ⟨List.replicate min.toNat b, fun h0 => hb0 (List.eq_of_mem_replicate h0).symm,
          mem_repeated.mpr ⟨⟨by simp, by simp; omega⟩, fun x hx => ?_⟩⟩
        rw [List.eq_of_mem_replicate hx]
        simpa using hb
      · exact ⟨[], by simp, mem_repeated.mpr ⟨⟨by simp; omega, by simp⟩, by simp⟩⟩
    refine ⟨u ++ w, by simp [hu0, hw0], ?_⟩
    rw [reps, List.map_cons, List.prod_cons]
    exact Language.append_mem_mul hu hw
  | done | atEnd | group | dotStar | groupRep => cases htail

theorem Prog.run_error_of_spans {R : Recorder σ} {text : CString} {P : Prog} (htail : P.tail = .bad)
    {e : ℕ} (h : Spans text.bytes P.reps 0 e) (m : σ) :
    (P.run noGuard R text (0 : ℕ) m).1 = .stop .error := by
  have hbad (t : ℤ) : P.tail.run noGuard R text t m = (.stop .error, m) := by
    rw [htail]
    rfl
  rw [run_eq_greedy (fun j _ hno => by simp [hbad] at hno) (Nat.zero_le _)]
  have hfound := @greedy_complete _ text.bytes (fun j : ℕ => decide ((P.tail.run noGuard R text j m).1 ≠ .noMatch))
    _ _ _ h (by simp [hbad])
  obtain ⟨e', he'⟩ := Option.ne_none_iff_exists'.mp hfound
  rw [he']
  simp [resume, hbad]

/-- Without a group before the malformed item, the syntactic conditions are exact. -/
theorem eager_or_barren_of_errorsAlike {pattern : CString} (htail : (Prog.ofPattern pattern).tail = .bad)
    (h : ErrorsAlike pattern) :
    (Prog.ofPattern pattern).eager ∨ (Prog.ofPattern pattern).barren := by
  rcases h with hall | hnone
  · left
    obtain ⟨s, hs, -, hstop⟩ := breMatch_stop_cases (hall (.lit ""))
    obtain rfl : s = 0 := Nat.le_zero.mp (hs.trans (lastStart_le (.lit "") pattern))
    exact Prog.eager_of_run_empty (by decide) htail hstop
  · right
    by_contra hbarren
    obtain ⟨w, hw0, hw⟩ := Prog.exists_word htail (Prog.parse_sized _) hbarren
    have hspans : Spans w (Prog.ofPattern pattern).reps 0 w.length :=
      (spans_iff_mem_prod (Nat.zero_le _) le_rfl).mpr (by simpa [cut] using hw)
    have hrun : (attempt ⟨w, hw0⟩ pattern (0 : ℕ)).1 = .stop .error :=
      Prog.run_error_of_spans htail hspans _
    exact hnone ⟨w, hw0⟩
      (breMatch_eq_stop (Nat.zero_le _) (fun s' hs' => absurd hs' (Nat.not_lt_zero s')) hrun)

end ValidcTools.Bre
